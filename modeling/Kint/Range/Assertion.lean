import Kint.Range.Visit

/-!
# The assertion of `getRange`

`getRange` asserts that its value is an integer or a pointer to an integer.  Every visitor asks
for operands of such a type only, by a test of its own or by the typing rule of the instruction,
with one exception: the operand of a `bitcast` to an integer may be any value of that many bits,
a float or a vector among them.  A function fails the assertion exactly if it contains such a
`bitcast` (`updateRangeForFunction_asserts_iff`).

## Without such a `bitcast`

What a block asks for is listed in `Kint.Range.Access`.  `blockAccess_asks` goes through the
list and finds a type that the assertion accepts: stores, returns, calls, branches and switches
test the types themselves, and for the other instructions it is the rule of the verifier
(`WellTyped`, `CastTyped`).  A part that asks for such values only always has a report
(`PassWithin.completes`).

## With one

The assertion fails in every state in which the maps are typed (`getRange_fatal_iff`), and a
visit keeps them typed.  So the visit of a function that gets to the `bitcast` does not come to
an end, and a visit gets to every instruction of the function (`bitcastsIntegers_of_ok`).

## Examples

`bitsProgram` returns the bits of its argument, as an integer.  Whether it fails depends on the
type of the argument.
-/

namespace Kint.Range

open Iteration

/-! ## Computations that have a result in every state -/

section Answers

variable {α β : Type}

/-- A query has a result in every state. -/
def Query.Answers (q : Query α) : Prop := ∀ s, ∃ a s', q s = .ok (a, s')

theorem Query.Answers.pure (a : α) : (Pure.pure a : Query α).Answers := fun s => ⟨a, s, rfl⟩

theorem Query.Answers.bind {q : Query α} {k : α → Query β} (hq : q.Answers)
    (hk : ∀ a, (k a).Answers) : (q >>= k).Answers := by
  intro s
  obtain ⟨a, t, ha⟩ := hq s
  obtain ⟨b, s', hb⟩ := hk a t
  exact ⟨b, s', Query.bind_eq_ok.mpr ⟨a, t, ha, hb⟩⟩

/-- A part of the pass has a report in every state. -/
def Completes (f : Pass State Event) : Prop := ∀ s, ∃ r, f s = .ok r

namespace Completes

variable {f g : Pass State Event}

theorem idle : Completes fun s => .ok (.idle s) := fun _ => ⟨_, rfl⟩

theorem seq (hf : Completes f) (hg : Completes g) : Completes (f.seq g) := by
  intro s
  obtain ⟨a, ha⟩ := hf s
  obtain ⟨b, hb⟩ := hg a.state
  exact ⟨_, Pass.seq_eq_ok.mpr ⟨a, b, ha, hb, rfl⟩⟩

theorem forEach {ι : Type} {h : ι → Pass State Event} {xs : List ι}
    (hh : ∀ x ∈ xs, Completes (h x)) : Completes (forEach h xs) := fun _ =>
  forEach_ok (I := fun _ => True) (fun x hx s _ => hh x hx s) (fun _ _ _ _ _ _ => trivial)
    trivial

theorem withQuery {q : Query α} {k : α → Pass State Event} (hq : q.Answers)
    (hk : ∀ a, Completes (k a)) : Completes (withQuery q k) := by
  intro s
  obtain ⟨a, t, ha⟩ := hq s
  obtain ⟨r, hr⟩ := hk a t
  exact ⟨r, Iteration.bind_eq_ok.mpr ⟨(a, t), ha, hr⟩⟩

theorem union (L : Library) (sID : String) (R : ConstantRange) :
    Completes (unionRange L sID R) := by
  intro s
  unfold unionRange
  split
  · exact ⟨_, rfl⟩
  · exact ⟨_, rfl⟩

end Completes

/-- Where a `for` loop runs its body. -/
theorem forEach_visits {ι : Type} {f : ι → Pass State Event} {xs : List ι} {y : ι} {s : State}
    {r : Report State Event} (h : forEach f xs s = .ok r) (hy : y ∈ xs) :
    ∃ ys a b, forEach f ys s = .ok a ∧ f y a.state = .ok b := by
  obtain ⟨ys, zs, rfl⟩ := List.append_of_mem hy
  rw [forEach_append, forEach_cons] at h
  obtain ⟨a, b, ha, hb, -⟩ := Pass.seq_eq_ok.mp h
  obtain ⟨c, -, hc, -, -⟩ := Pass.seq_eq_ok.mp hb
  exact ⟨ys, a, c, ha, hc⟩

end Answers

/-! ## Types that the visitors rely on -/

section Types

variable (P : Program)

/-- What the verifier of the compiler ensures of an integer cast: operand and result are
both integers or both vectors. -/
def CastTyped (i : InstId) : Prop :=
  match (P.inst i).op with
  | .cast .trunc V | .cast .zext V | .cast .sext V =>
    (P.inst i).ty.isIntegerTy = true → (P.typeOf V).isIntegerTy = true
  | _ => True

/-- No instruction of the function casts the bits of another value than an integer to an
integer. -/
def BitcastsIntegers (F : FuncId) : Prop :=
  ∀ BB ∈ (P.func F).blocks, ∀ i ∈ (P.block BB).insts, ∀ V,
    (P.inst i).op = .cast .bitcast V → (P.inst i).ty.isIntegerTy = true →
      (integerWidth (P.typeOf V)).isSome

end Types

section Pass

variable {L : Library} {P : Program} {callees : CalleeMap} {taints : TaintMap} {F : FuncId}
  {s : State} {V : Value} {BB : BlockId} {i : InstId} {w : ℕ}

/-- In typed maps, `getRange` fails its assertion exactly on values that are neither
integers nor pointers to integers. -/
theorem getRange_fatal_iff (hs : TypedMap P (s.funcVRMs BB)) :
    getRange L P callees taints BB V s = .error .fatal ↔ integerWidth (P.typeOf V) = none := by
  have hok : ∀ a, (Except.ok a : Except Stop (ConstantRange × State)) ≠ .error .fatal := by
    intro a h
    cases h
  unfold getRange
  split
  · exact iff_of_false (hok _) (Option.some_ne_none _)
  · split
    · rename_i R hR
      rw [hs V R hR]
      exact iff_of_false (hok _) (Option.some_ne_none _)
    · split
      · rename_i hnone
        exact iff_of_true rfl hnone
      · rename_i w hw
        rw [hw]
        exact iff_of_false (hok _) (Option.some_ne_none _)

/-- `getRange` returns for integers and pointers to integers. -/
theorem getRange_answers (hV : (integerWidth (P.typeOf V)).isSome) :
    (getRange L P callees taints BB V).Answers := by
  intro s
  unfold getRange
  split
  · exact ⟨_, _, rfl⟩
  · split
    · exact ⟨_, _, rfl⟩
    · split
      · rename_i hnone
        rw [hnone] at hV
        cases hV
      · exact ⟨_, _, rfl⟩

theorem isSome_of_isIntegerTy (hV : (P.typeOf V).isIntegerTy = true) :
    (integerWidth (P.typeOf V)).isSome := by
  obtain ⟨w, hw⟩ := exists_of_isIntegerTy hV
  rw [hw]
  rfl

/-- A query that asks for integers and pointers to integers has a result. -/
theorem QueryWithin.answers {A : Access}
    (hA : ∀ BB V, A.asks BB V → (integerWidth (P.typeOf V)).isSome) {α : Type} {q : Query α}
    (h : QueryWithin L P callees taints A q) : q.Answers := by
  induction h with
  | pure a => exact .pure a
  | ask h => exact getRange_answers (hA _ _ h)
  | copy _ => exact fun s => ⟨_, _, rfl⟩
  | merge _ => exact fun s => ⟨_, _, rfl⟩
  | bind _ _ ihq ihk => exact ihq.bind ihk

/-- A part of the pass that asks for integers and pointers to integers has a report. -/
theorem PassWithin.completes {A : Access}
    (hA : ∀ BB V, A.asks BB V → (integerWidth (P.typeOf V)).isSome) {f : Pass State Event}
    (h : PassWithin L P callees taints A f) : Completes f := by
  induction h with
  | idle => exact .idle
  | union _ => exact .union L _ _
  | record _ _ ih => exact fun s => ih _
  | query hq _ ih => exact .withQuery (hq.answers hA) ih
  | seq _ _ ihf ihg => exact .seq ihf ihg

/-! ## What the visitors ask for -/

/-- Stores, returns and calls test the types of the values that they ask for. The test stands before
the call of `getRange` in each of these visits. -/
theorem queriedGlobally_isInteger (hV : V ∈ queriedGlobally L P i) :
    (P.typeOf V).isIntegerTy = true := by
  unfold queriedGlobally at hV
  cases hop : (P.inst i).op with
  | store value pointer =>
    simp only [hop] at hV
    split at hV
    · rename_i hc
      rw [List.mem_singleton.mp hV]
      exact hc.1
    · cases hV
  | ret value =>
    simp only [hop] at hV
    exact (List.mem_filter.mp hV).2
  | call callee args =>
    simp only [hop] at hV
    rcases List.mem_append.mp hV with hV | hV
    · exact (List.mem_filter.mp hV).2
    · split at hV
      · rename_i hint
        rw [List.mem_singleton.mp hV]
        exact hint
      · cases hV
  | _ =>
    simp only [hop] at hV
    cases hV

/-- The typing rule of each instruction gives the operands that its visitor asks for a type
that `getRange` accepts; for a `bitcast` there is none. -/
theorem askedLocally_isSome {backEdges : List (BlockId × BlockId)} (hi : InstTyped P i)
    (hc : CastTyped P i) (hint : (P.inst i).ty.isIntegerTy = true)
    (hbitcast : ∀ V, (P.inst i).op = .cast .bitcast V → (integerWidth (P.typeOf V)).isSome)
    (hV : (BB, V) ∈ askedLocally P backEdges i) : (integerWidth (P.typeOf V)).isSome := by
  unfold InstTyped at hi
  unfold CastTyped at hc
  unfold askedLocally queriedLocally at hV
  cases hop : (P.inst i).op with
  | binary op lhs rhs =>
    simp only [hop, List.map_cons, List.map_nil, List.mem_pair, Prod.mk.injEq] at hi hV
    apply isSome_of_isIntegerTy
    rcases hV with ⟨-, rfl⟩ | ⟨-, rfl⟩
    · rw [hi.1, hint]
    · rw [hi.2, hint]
  | cast op U =>
    cases op with
    | bitcast =>
      simp only [hop, List.map_cons, List.map_nil, List.mem_singleton, Prod.mk.injEq] at hV
      rw [hV.2]
      exact hbitcast U hop
    | trunc | zext | sext =>
      simp only [hop, List.map_cons, List.map_nil, List.mem_singleton, Prod.mk.injEq] at hc hV
      rw [hV.2]
      exact isSome_of_isIntegerTy (hc hint)
    | ptrtoint | inttoptr | floating =>
      simp only [hop, List.map_nil] at hV
      cases hV
  | select cond ifTrue ifFalse =>
    simp only [hop, List.map_cons, List.map_nil, List.mem_pair, Prod.mk.injEq] at hi hV
    apply isSome_of_isIntegerTy
    rcases hV with ⟨-, rfl⟩ | ⟨-, rfl⟩
    · rw [hi.1, hint]
    · rw [hi.2, hint]
  | phi incoming =>
    simp only [hop] at hi hV
    obtain ⟨e, he, heq⟩ := List.mem_map.mp hV
    obtain ⟨-, rfl⟩ := Prod.mk.inj heq
    apply isSome_of_isIntegerTy
    rw [hi e (List.mem_filter.mp he).1, hint]
  | load pointer isVolatile =>
    simp only [hop, List.map_cons, List.map_nil, List.mem_singleton, Prod.mk.injEq] at hV
    rw [hV.2]
    exact isSome_of_isIntegerTy hint
  | call callee args =>
    simp only [hop, List.map_cons, List.map_nil, List.mem_singleton, Prod.mk.injEq] at hV
    rw [hV.2]
    exact isSome_of_isIntegerTy hint
  | _ =>
    simp only [hop, List.map_nil] at hV
    cases hV

/-- Branches and switches test the types of the values that they ask for. The test stands before the
first call of `getRange`, in the branch and in the switch. -/
theorem askedAtEnd_isInteger (hV : (BB, V) ∈ askedAtEnd P i) :
    (P.typeOf V).isIntegerTy = true := by
  have hcompared : ∀ cond, V ∈ compared P cond → (P.typeOf V).isIntegerTy = true := by
    intro cond hV
    unfold compared at hV
    split at hV
    · split at hV
      · split at hV
        · rename_i hint
          obtain ⟨hl, hr⟩ := Bool.and_eq_true_iff.mp hint
          rcases List.mem_pair.mp hV with rfl | rfl
          · exact hl
          · exact hr
        · cases hV
      · cases hV
    · cases hV
  unfold askedAtEnd at hV
  split at hV
  · obtain ⟨U, hU, heq⟩ := List.mem_map.mp hV
    obtain ⟨-, rfl⟩ := Prod.mk.inj heq
    exact hcompared _ hU
  · obtain ⟨U, hU, heq⟩ := List.mem_map.mp hV
    obtain ⟨-, rfl⟩ := Prod.mk.inj heq
    unfold queriedAtEnd at hU
    split at hU
    · exact hcompared _ hU
    · split at hU
      · rename_i hint
        rwa [List.mem_singleton.mp hU]
      · cases hU
    · cases hU

/-- Every value whose range is asked for in a block is an integer or a pointer to an
integer. -/
theorem blockAccess_asks (hP : WellTyped P) (hC : ∀ i, CastTyped P i)
    (hF : BitcastsIntegers P F) (hBB : BB ∈ (P.func F).blocks) {BB' : BlockId}
    {backEdges : List (BlockId × BlockId)}
    (h : (blockAccess L P callees backEdges F BB).asks BB' V) :
    (integerWidth (P.typeOf V)).isSome := by
  rcases h with ⟨Pred, -, -, h⟩ | ⟨i, hi, ⟨-, h⟩ | ⟨hint, h⟩⟩
  · exact isSome_of_isIntegerTy (askedAtEnd_isInteger h)
  · exact isSome_of_isIntegerTy (queriedGlobally_isInteger h)
  · exact askedLocally_isSome (hP i) (hC i) hint (fun V hop => hF BB hBB i hi V hop hint) h

/-- Without a `bitcast` from other values, the visit of a function comes to an end. -/
theorem updateRangeForFunction_completes (hP : WellTyped P) (hC : ∀ i, CastTyped P i)
    (hF : BitcastsIntegers P F) : Completes (updateRangeForFunction L P callees taints F) := by
  intro s
  refine Completes.forEach (fun BB hBB => ?_) _
  exact updateRangeForBlock_within.completes fun _ _ h => blockAccess_asks hP hC hF hBB h

/-- In typed maps, the visit of a `bitcast` from a value that is no integer does not come to
an end. -/
theorem updateRangeForInst_ne_ok (hs : Typed P s) {backEdges : List (BlockId × BlockId)}
    (hop : (P.inst i).op = .cast .bitcast V) (hty : (P.inst i).ty = .int w)
    (hV : integerWidth (P.typeOf V) = none) (r : Report State Event) :
    updateRangeForInst L P callees taints backEdges F i s ≠ .ok r := by
  intro h
  obtain ⟨a, b, ha, hb, -⟩ := Pass.seq_eq_ok.mp h
  simp only [updateGlobal, hop] at ha
  obtain rfl := Except.ok.inj ha
  simp only [updateLocal, hty, withQuery, instRange, hop, visitCastInst, Report.idle_state] at hb
  obtain ⟨⟨R, t⟩, hR, -⟩ := Iteration.bind_eq_ok.mp hb
  rw [(getRange_fatal_iff (hs _)).mpr hV] at hR
  cases hR

/-- What visiting a function does at a `bitcast` from a value that is no integer. -/
theorem bitcastsIntegers_of_ok (hL : L.ranges.UnionLaws) (hW : L.ranges.WidthLaws)
    (hP : WellTyped P) {r : Report State Event}
    (h : updateRangeForFunction L P callees taints F s = .ok r) : BitcastsIntegers P F := by
  intro BB hBB i hi V hop hint
  obtain ⟨w, hty⟩ := exists_of_isIntegerTy hint
  by_contra hnone
  rw [Option.not_isSome_iff_eq_none] at hnone
  -- every state in which the loops call their body is typed
  obtain ⟨bs, a, b, ha, hb⟩ := forEach_visits h hBB
  have htyped := updateRangeForBlocks_typed hL hW hP ha
  obtain ⟨⟨_, t⟩, ht, hb⟩ := Iteration.bind_eq_ok.mp hb
  have htyped' := (propagate_typed hL hW hP _ _ _ _ htyped ht).1
  obtain ⟨is, c, d, hc, hd⟩ := forEach_visits hb hi
  have htyped'' := (updateRangeForInsts_typed hL hW hP is t c hc htyped').1
  exact updateRangeForInst_ne_ok htyped'' hop hty hnone d hd

/-- In a well-typed program, visiting a function fails no assertion exactly if each of its
`bitcast`s to an integer casts an integer. -/
theorem updateRangeForFunction_asserts_iff (hL : L.ranges.UnionLaws) (hW : L.ranges.WidthLaws)
    (hP : WellTyped P) (hC : ∀ i, CastTyped P i) :
    updateRangeForFunction L P callees taints F s ≠ .error .fatal ↔ BitcastsIntegers P F := by
  constructor
  · intro hne
    cases h : updateRangeForFunction L P callees taints F s with
    | ok r => exact bitcastsIntegers_of_ok hL hW hP h
    | error e =>
      cases e with
      | fatal => exact absurd h hne
      | fuel => exact absurd h ((updateRangeForFunction_writes F).ne_fuel s)
  · intro hF h
    obtain ⟨r, hr⟩ := updateRangeForFunction_completes hP hC hF s
    rw [hr] at h
    cases h

end Pass

/-! ## The bits of an argument -/

/-- A function that returns the bits of its argument. -/
def bitsProgram (ty : Ty) : Program where
  insts := [
    ⟨0, .int 32, .cast .bitcast (.argument 0 0), none, none⟩,
    ⟨0, .other, .ret (some (.inst 0)), none, none⟩]
  blocks := [⟨0, [0], 1, []⟩]
  funcs := [⟨⟨"bits", .external, "bits.c"⟩, false, [ty], .int 32, [0]⟩]
  globals := []
  structs := []
  consts := []

/-- The program is well typed if what it casts, when it is an integer, has 32 bits. -/
theorem bits_wellTyped (ty : Ty) (h : ∀ w, integerWidth ty = some w → w = 32) :
    WellTyped (bitsProgram ty) ∧ ∀ i, CastTyped (bitsProgram ty) i := by
  constructor
  · intro i
    match i with
    | 0 => exact fun w w' hw hty => (h w' hty).trans (Ty.int.inj hw)
    | 1 => exact trivial
    | _ + 2 => exact trivial
  · intro i
    match i with
    | 0 => exact trivial
    | 1 => exact trivial
    | _ + 2 => exact trivial

theorem float_bits_fatal :
    WellTyped (bitsProgram .other) ∧ (∀ i, CastTyped (bitsProgram .other) i) ∧
      updateRangeForFunction .reference (bitsProgram .other) (fun _ => none) .init 0 .init =
        .error .fatal := by
  obtain ⟨hP, hC⟩ := bits_wellTyped .other fun w h => by cases h
  exact ⟨hP, hC, rfl⟩

theorem integer_bits_asserts :
    updateRangeForFunction .reference (bitsProgram (.int 32)) (fun _ => none) .init 0 .init ≠
      .error .fatal := by
  obtain ⟨hP, hC⟩ := bits_wellTyped (.int 32) fun w h => (Option.some.inj h).symm
  refine (updateRangeForFunction_asserts_iff RangeOps.reference_unionLaws
    RangeOps.reference_widthLaws hP hC).mpr ?_
  intro BB hBB i hi V hop _
  obtain rfl := List.mem_singleton.mp hBB
  rcases List.mem_cons.mp hi with rfl | hi
  · obtain rfl := (Opcode.cast.inj hop).2
    rfl
  · obtain rfl := List.mem_singleton.mp hi
    cases hop

end Kint.Range
