import Kint.Annotation

/-!
# Identifiers of addresses

`AnnotationPass` gives a load or a store the identifier of the variable or of the field that its
pointer operand is the address of.  It looks at the last step of the address computation only:
the variable itself, or the number of a field in a struct type.  If the computation is well
typed, that is the place inside the variable which the address leads to
(`annotateLoadStore_field`).

## Main ideas

* A place inside a variable is a path of field and element numbers; `Program.typeAt` is the type
  of the place.  The indices of a `getelementptr` lead along a path if they have its numbers as
  values (`IndexValues`); an index that is no constant may have any.
* Which struct the last index selects a field of does not depend on the indices before it, but
  on the types that they go through (`typeAt_of_indices`).  Therefore the last step is enough to
  name the field.
* `Designates P g V path` says, as far as types tell, that the pointer `V` may be the address of
  the place `path` in the variable `g`.  Nothing is said of the values of pointers: two pointers
  of one type may be told apart by an execution, but not by the identifiers.

## Main results

* `annotateLoadStore_variable`: a variable that is no aggregate has the identifier of the
  variable.
* `annotateLoadStore_field`: a field of a struct has the identifier of the field, in whichever
  variable the struct lies.
* `annotateLoadStore_element`: an element of an array has none.
-/

namespace Kint

section Annotation

variable (L : Library) (P : Program)

/-- `needAnnotation` -/
def needAnnotation (V : Value) : Bool :=
  match P.typeOf V with
  | .ptr Ty => Ty.isIntegerTy || isFunctionPointer Ty
  | _ => false

/-- `getTypeAtIndex`: a field of a struct is selected by an `i32` constant. -/
def Program.typeAtIndex : Ty → Value → Option Ty
  | .struct s, .constInt n => if n.width = 32 then (P.struct s).elements[n.toNat]? else none
  | .array _ elem, _ => some elem
  | _, _ => none

/-- The type that a list of indices leads to. -/
def Program.typeAtIndices (Ty : Ty) (Idx : List Value) : Option Kint.Ty :=
  Idx.foldlM P.typeAtIndex Ty

/-- `getIndexedType`: the first index stays inside the type of the pointer. -/
def getIndexedType (PTy : Ty) (Idx : List Value) : Option Ty :=
  match PTy with
  | .ptr Ty => P.typeAtIndices Ty Idx.tail
  | _ => none

/-- The pointer and the indices of a `getelementptr` instruction or expression. -/
def Program.addressOperands (V : Value) : Option (Value × List Value) :=
  match V with
  | .inst i =>
    match (P.inst i).op with
    | .gep base idx => some (base, idx)
    | _ => none
  | .constExpr c =>
    match P.const c with
    | .gep base idx _ => some (base, idx)
    | _ => none
  | _ => none

/-- The end of `getAnnotation`, for the type that the last index `Offset` is applied to.
`getLimitedValue` returns at most `UINT64_MAX`, and `getStructId` takes an `unsigned`. -/
def getFieldAnnotation (Ty : Option Ty) (Offset : Option Value) (M : String) : String :=
  match Ty, Offset with
  | some (.struct s), some (.constInt C) =>
    getStructId L P (.struct s) M (min C.toNat (2 ^ 64 - 1) % 2 ^ 32)
  | _, _ => ""

/-- `getAnnotation` of a pointer in the module with identifier `M`. -/
def getAnnotation (V : Value) (M : String) : String :=
  match V with
  | .global g => getVarId L (P.global g).toGlobalValue
  | V =>
    match P.addressOperands V with
    | some (base, idx) =>
      getFieldAnnotation L P (getIndexedType P (P.typeOf base) idx.dropLast) idx.getLast? M
    | none => ""

/-- The identifier that `annotateLoadStore` attaches to a load or a store at pointer `V`. -/
def annotateLoadStore (V : Value) (M : String) : String :=
  if needAnnotation P V then getAnnotation L P V M else ""

end Annotation

/-! ## Places inside a variable -/

section Places

variable (P : Program)

/-- The type of a field or an element. -/
def Program.typeOfPart : Ty → ℕ → Option Ty
  | .struct s, n => (P.struct s).elements[n]?
  | .array _ elem, _ => some elem
  | _, _ => none

/-- The type of the place that a path of field and element numbers leads to. -/
def Program.typeAt (T : Ty) (path : List ℕ) : Option Ty := path.foldlM P.typeOfPart T

/-- Indices that may have the values `ns`: a constant has its own. -/
def IndexValues : List Value → List ℕ → Prop :=
  List.Forall₂ fun V n => ∀ c, V = .constInt c → c.toNat = n

/-- As far as types tell, the pointer `V` may be the address of a place in the variable `g`:
it is the variable, or a well-typed address computation from a pointer to an object of the
type that the variable has at some place. -/
inductive Designates (g : GlobalId) : Value → List ℕ → Prop
  | whole : Designates g (.global g) []
  | address {V base first : Value} {idx : List Value} {T T' : Ty} {path ns : List ℕ}
      (operands : P.addressOperands V = some (base, first :: idx))
      (pointer : P.typeOf base = .ptr T) (object : P.typeAt (P.global g).valueTy path = some T)
      (indices : IndexValues idx ns) (indexed : P.typeAtIndices T idx = some T')
      (result : P.typeOf V = .ptr T') : Designates g V (path ++ ns)

end Places

section Places

variable {L : Library} {P : Program} {g : GlobalId} {V : Value} {M : String} {T T' : Ty}
  {s : StructId} {i : ℕ} {path ns : List ℕ} {idx : List Value}

theorem typeAt_append : P.typeAt T (path ++ ns) = (P.typeAt T path).bind (P.typeAt · ns) :=
  List.foldlM_append

/-- An index leads to the part that its value leads to. -/
theorem typeOfPart_of_index {n : ℕ} (h : P.typeAtIndex T V = some T')
    (hV : ∀ c, V = .constInt c → c.toNat = n) : P.typeOfPart T n = some T' := by
  unfold Program.typeAtIndex at h
  split at h
  · split at h
    · rwa [hV _ rfl] at h
    · cases h
  · exact h
  · cases h

/-- Indices lead to the place that their values lead to. -/
theorem typeAt_of_indices (h : P.typeAtIndices T idx = some T') (hidx : IndexValues idx ns) :
    P.typeAt T ns = some T' := by
  induction hidx generalizing T with
  | nil => exact h
  | cons hV _ ih =>
    rw [Program.typeAtIndices, List.foldlM_cons] at h
    obtain ⟨U, hU, h⟩ := Option.bind_eq_some_iff.mp h
    rw [Program.typeAt, List.foldlM_cons, typeOfPart_of_index hU hV]
    exact ih h

/-- The field of a struct that an index selects. -/
theorem typeAtIndex_struct (h : P.typeAtIndex (.struct s) V = some T) :
    ∃ c, V = .constInt c ∧ c.width = 32 := by
  unfold Program.typeAtIndex at h
  split at h
  · split at h
    · exact ⟨_, rfl, ‹_›⟩
    · cases h
  · rename_i heq
    cases heq
  · cases h

/-- A pointer to a struct is the address of no integer and no function, so it gets no annotation. -/
theorem not_needAnnotation_struct (h : P.typeOf V = .ptr (.struct s)) :
    needAnnotation P V = false := by
  unfold needAnnotation
  rw [h]
  rfl

/-- An address computation is named by its last index and the type that the others lead to. -/
theorem getAnnotation_address {base : Value} (hV : P.addressOperands V = some (base, idx)) :
    getAnnotation L P V M =
      getFieldAnnotation L P (getIndexedType P (P.typeOf base) idx.dropLast) idx.getLast? M := by
  unfold getAnnotation
  split
  · cases hV
  · rw [hV]

/-- An address computation without further indices is the address of no field. -/
theorem getAnnotation_first {base first : Value}
    (hV : P.addressOperands V = some (base, [first])) (hbase : P.typeOf base = .ptr T)
    (hresult : P.typeOf V = .ptr T) (hneed : needAnnotation P V = true) :
    getAnnotation L P V M = "" := by
  rw [getAnnotation_address hV, hbase]
  show getFieldAnnotation L P (some T) (some first) M = ""
  unfold getFieldAnnotation
  split
  · rename_i heq _
    obtain rfl := Option.some.inj heq
    rw [not_needAnnotation_struct hresult] at hneed
    cases hneed
  · rfl

/-- The last step of an address computation into a field of a struct. -/
theorem getAnnotation_last {base first : Value} {c : APInt}
    (hV : P.addressOperands V = some (base, (first :: idx) ++ [.constInt c]))
    (hbase : P.typeOf base = .ptr T) (hidx : P.typeAtIndices T idx = some (.struct s))
    (hc : c.width = 32) : getAnnotation L P V M = getStructId L P (.struct s) M c.toNat := by
  have hlt : c.toNat < 2 ^ 32 := hc ▸ c.toNat_lt
  have hoffset : min c.toNat (2 ^ 64 - 1) % 2 ^ 32 = c.toNat := by omega
  rw [getAnnotation_address hV, List.dropLast_concat, List.getLast?_concat, hbase]
  show getFieldAnnotation L P (P.typeAtIndices T idx) (some (.constInt c)) M = _
  rw [hidx, getFieldAnnotation, hoffset]

/-- The values of a list of indices with a last one. -/
theorem IndexValues.concat (h : IndexValues (idx ++ [V]) ns) :
    ∃ ns' n, ns = ns' ++ [n] ∧ IndexValues idx ns' ∧ ∀ c, V = .constInt c → c.toNat = n := by
  induction idx generalizing ns with
  | nil =>
    obtain _ | ⟨hV, ⟨⟩⟩ := h
    exact ⟨[], _, rfl, .nil, hV⟩
  | cons U idx ih =>
    obtain _ | ⟨hU, htail⟩ := h
    obtain ⟨ns', n, rfl, hidx, hV⟩ := ih htail
    exact ⟨_ :: ns', n, rfl, .cons hU hidx, hV⟩

/-- The address of a field of a struct gets the identifier of the field, or none. The last step of
the address is the field number, whatever the address is made of: an instruction, a constant
expression, or the address of the first field of a struct. -/
theorem annotateLoadStore_field (hV : Designates P g V (path ++ [i]))
    (hs : P.typeAt (P.global g).valueTy path = some (.struct s)) :
    annotateLoadStore L P V M = "" ∨
      annotateLoadStore L P V M = getStructId L P (.struct s) M i := by
  unfold annotateLoadStore
  by_cases hneed : needAnnotation P V = true
  · rw [if_pos hneed]
    generalize hplace : path ++ [i] = place at hV
    cases hV with
    | whole => exact absurd hplace (by simp)
    | @address V base first idx T T' start ns hop hbase hobj hidx hty hres =>
      rcases List.eq_nil_or_concat idx with rfl | ⟨idx, last, rfl⟩
      · obtain rfl := Option.some.inj hty
        exact .inl (getAnnotation_first hop hbase hres hneed)
      · right
        rw [List.concat_eq_append] at *
        -- the last index belongs to the last number of the path
        obtain ⟨ns, n, rfl, hns, hlast⟩ := hidx.concat
        rw [← List.append_assoc] at hplace
        obtain ⟨rfl, hn⟩ := List.append_inj' hplace rfl
        obtain rfl := List.singleton_inj.mp hn
        rw [Program.typeAtIndices, List.foldlM_append] at hty
        obtain ⟨U, hU, hty⟩ := Option.bind_eq_some_iff.mp hty
        have hstruct : some U = some (.struct s) := by
          rw [← hs, typeAt_append, hobj]
          exact (typeAt_of_indices hU hns).symm
        obtain rfl := Option.some.inj hstruct
        obtain ⟨T'', hT'', -⟩ := Option.bind_eq_some_iff.mp hty
        obtain ⟨c, rfl, hc⟩ := typeAtIndex_struct hT''
        rw [← hlast c rfl]
        exact getAnnotation_last hop hbase hU hc
  · rw [if_neg hneed]
    exact .inl rfl

/-- The address of an element of an array gets no identifier. The last index is applied to the
array, and the annotation asks for a struct there. -/
theorem annotateLoadStore_element {count n : ℕ} {elem : Ty} (hV : Designates P g V (path ++ [n]))
    (helem : P.typeAt (P.global g).valueTy path = some (.array count elem)) :
    annotateLoadStore L P V M = "" := by
  unfold annotateLoadStore
  by_cases hneed : needAnnotation P V = true
  · rw [if_pos hneed]
    generalize hplace : path ++ [n] = place at hV
    cases hV with
    | whole => exact absurd hplace (by simp)
    | @address V base first idx T T' start ns hop hbase hobj hidx hty hres =>
      rcases List.eq_nil_or_concat idx with rfl | ⟨idx, last, rfl⟩
      · obtain rfl := Option.some.inj hty
        exact getAnnotation_first hop hbase hres hneed
      · rw [List.concat_eq_append] at *
        -- the last index is applied to the array
        obtain ⟨ns, m, rfl, hns, -⟩ := hidx.concat
        rw [← List.append_assoc] at hplace
        obtain ⟨rfl, -⟩ := List.append_inj' hplace rfl
        rw [Program.typeAtIndices, List.foldlM_append] at hty
        obtain ⟨U, hU, -⟩ := Option.bind_eq_some_iff.mp hty
        have harray : some U = some (.array count elem) := by
          rw [← helem, typeAt_append, hobj]
          exact (typeAt_of_indices hU hns).symm
        obtain rfl := Option.some.inj harray
        have hindexed : getIndexedType P (.ptr T) (first :: idx) = some (.array count elem) := hU
        have hlist : first :: (idx ++ [last]) = (first :: idx) ++ [last] := rfl
        rw [getAnnotation_address hop, hbase, hlist, List.dropLast_concat, hindexed,
          List.getLast?_concat]
        rfl
  · rw [if_neg hneed]

/-- The address of a variable that is no aggregate gets the identifier of the variable, or
none. -/
theorem annotateLoadStore_variable (hV : Designates P g V []) :
    annotateLoadStore L P V M = "" ∨
      annotateLoadStore L P V M = getVarId L (P.global g).toGlobalValue := by
  unfold annotateLoadStore
  by_cases hneed : needAnnotation P V = true
  · rw [if_pos hneed]
    generalize hplace : ([] : List ℕ) = place at hV
    cases hV with
    | whole => exact .inr rfl
    | @address V base first idx T T' start ns hop hbase hobj hidx hty hres =>
      obtain ⟨rfl, rfl⟩ := List.append_eq_nil_iff.mp hplace.symm
      obtain ⟨⟩ := hidx
      obtain rfl := Option.some.inj hty
      exact .inl (getAnnotation_first hop hbase hres hneed)
  · rw [if_neg hneed]
    exact .inl rfl

end Places

end Kint
