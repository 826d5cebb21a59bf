import Kint.FirstMatch
import Kint.LLVM.IR

/-!
# Taint sinks

`annotateSink` marks the value that is passed to an allocation function as its size, and
`findSink`, when a check is inserted for an instruction, follows the uses of the instruction to
see whether its value gets there through operators.

`findSink` looks at the uses in the order of the use list and goes on with the first operator,
and it looks for the mark on the users only: the search along the first match.  Its calls are
compared with the chains of operators that end in a sensitive argument (`Chain`).

## Main definitions

* `Allocs`, `annotateSink`, `mark`, `sinkMetadata`: the table of allocation functions, and the
  marks that it leaves in a function.  A call marks one value: the loop over the table returns
  at the first entry whose argument is an instruction.
* `findSink`, `insertIntSat`: the tag of an inserted check.  The use lists are a parameter,
  since their order is not fixed by the program.
* `Sensitive`, `Chain`: the value is passed as a listed argument; operators lead from the value
  to such an argument.  Neither speaks of marks or of the search.
* `TagFits`: the condition under which the tag is right, in terms of the operators between the
  instruction and the arguments.

## Main results

* `sinkMetadata_isSome`: which values have a mark.
* `intSat_exact_iff`: for every order of the use lists the check is tagged just if there is a
  chain, if and only if `TagFits` holds.
* `product_not_tagged`: a product that is passed to the allocation itself is not tagged, because
  the search never looks at the instruction that it starts from.
-/

namespace Kint.Sink

open FirstMatch

section Annotation

variable (P : Program)

/-- The sensitive arguments. -/
def Allocs : List (String × ℕ) :=
  [("dma_alloc_from_coherent", 1), ("__kmalloc", 0), ("kmalloc", 0), ("__kmalloc_node", 0),
    ("kmalloc_node", 0), ("kzalloc", 0), ("kcalloc", 0), ("kcalloc", 1), ("kmemdup", 1),
    ("memdup_user", 1), ("pci_alloc_consistent", 1), ("__vmalloc", 0), ("vmalloc", 0),
    ("vmalloc_user", 0), ("vmalloc_node", 0), ("vzalloc", 0), ("vzalloc_node", 0)]

/-- The name of the function that a direct call calls, and the arguments. -/
def directCall? (CI : InstId) : Option (String × List Value) :=
  match (P.inst CI).op with
  | .call (.func f) args => some ((P.func f).name, args)
  | _ => none

/-- The instruction that is the argument of the entry, if the entry is for the
function. -/
def argumentOf (Name : String) (args : List Value) (entry : String × ℕ) : Option InstId :=
  if Name = entry.1 then
    match args[entry.2]? with
    | some (.inst i) => some i
    | _ => none
  else none

/-- `annotateSink`: the instruction that gets the mark, and the mark.  The first
entry whose argument is an instruction ends the loop over the table. -/
def annotateSink (CI : InstId) : Option (InstId × String) :=
  (directCall? P CI).bind fun (Name, args) =>
    (Allocs.findSome? (argumentOf Name args)).map fun i => (i, Name)

/-- The marks after a call; a later mark replaces an earlier one. -/
def mark (MD : InstId → Option String) (CI : InstId) : InstId → Option String :=
  match annotateSink P CI with
  | some (i, Name) => Function.update MD i (some Name)
  | none => MD

/-- The marks that `AnnotationPass::runOnFunction` leaves in a function. -/
def sinkMetadata (f : FuncId) : InstId → Option String :=
  (P.instsOf f).foldl (mark P) fun _ => none

end Annotation

section Search

-- which of the remaining instructions are operators on floating-point numbers
variable (P : Program) (floating : InstId → Bool) (f : FuncId)

/-- `isa<BinaryOperator>(I) || isa<CastInst>(I)` -/
def isOperator (I : InstId) : Bool :=
  match (P.inst I).op with
  | .binary .. | .cast .. => true
  | .other _ => floating I
  | _ => false

/-- The users of an instruction, one for each operand that is the instruction. -/
def users (V : InstId) : List InstId :=
  (P.instsOf f).flatMap fun I => List.replicate ((P.inst I).op.operands.count (.inst V)) I

/-- `findSink`, for the `sink` metadata of the instructions and use lists in a given
order: a user with metadata ends the search, and it goes on with the first
`BinaryOperator` or cast.  `none` stands for a search that has not ended. -/
def findSink {MDNode : Type} (sink : InstId → Option MDNode) (uses : InstId → List InstId) :
    (fuel : ℕ) → InstId → Option (Option MDNode) :=
  search sink (isOperator P floating) uses

/-- The metadata of a call of `int.sat`. The `bug`, and what the search for taint and for sinks
found; `none` where no metadata is attached. -/
structure IntSat (MDNode : Type) where
  bug : String
  taint : Option MDNode
  sink : Option MDNode
  deriving DecidableEq

/-- The metadata that `insertIntSat` gives to the call that it inserts for `I`, from the
`taint` and `sink` metadata of the instructions.  The taint is copied by a loop over the
operands of `I`, so only if there are any. -/
def insertIntSat {MDNode : Type} (taint sink : InstId → Option MDNode)
    (uses : InstId → List InstId) (fuel : ℕ) (I : InstId) (Bug : String) :
    Option (IntSat MDNode) :=
  (findSink P floating sink uses fuel I).map fun MD =>
    { bug := Bug
      taint := if (P.inst I).op.operands = [] then none else taint I
      sink := MD }

/-! ## Chains of operators -/

/-- The value is passed as an argument that the table lists. -/
def Sensitive (V : InstId) : Prop :=
  ∃ CI ∈ P.instsOf f, ∃ Name args no, directCall? P CI = some (Name, args) ∧
    (Name, no) ∈ Allocs ∧ args[no]? = some (.inst V)

/-- A chain of operators leads from the value to a sensitive argument. -/
inductive Chain : InstId → Prop
  | passed {V : InstId} : Sensitive P f V → Chain V
  | step {V I : InstId} : I ∈ users P f V → isOperator P floating I = true → Chain I → Chain V

variable {P f}

variable (P f) in
/-- The value is passed as an argument that the table lists, and the loop of
`annotateSink` gets to that entry.  The only function with two entries is `kcalloc`: the
loop returns at its first argument if that is an instruction, and then the second one
stays without a mark. -/
def Marked (V : InstId) : Prop :=
  ∃ CI ∈ P.instsOf f, ∃ Name args no, directCall? P CI = some (Name, args) ∧
    (Name, no) ∈ Allocs ∧ args[no]? = some (.inst V) ∧
    (Name = "kcalloc" → no = 1 → ∀ J, args[0]? ≠ some (.inst J))

/-- What the loop over the table gets to is passed as a listed argument. -/
theorem Marked.sensitive {V : InstId} (h : Marked P f V) : Sensitive P f V := by
  obtain ⟨CI, hCI, Name, args, no, hcall, hmem, harg, -⟩ := h
  exact ⟨CI, hCI, Name, args, no, hcall, hmem, harg⟩

/-- What an entry of the table finds among the arguments of a call. -/
theorem argumentOf_eq_some {Name : String} {args : List Value} {entry : String × ℕ}
    {V : InstId} : argumentOf Name args entry = some V ↔
      Name = entry.1 ∧ args[entry.2]? = some (.inst V) := by
  unfold argumentOf
  split
  · rename_i hName
    split
    · rename_i i hi
      simp [hName, hi]
    · rename_i hne
      refine ⟨nofun, fun h => absurd h.2 (hne V)⟩
  · rename_i hName
    exact ⟨nofun, fun h => absurd h.1 hName⟩

/-- Two entries are for one function only if they are those of `kcalloc`, the first
argument before the second one. -/
theorem allocs_pairwise : Allocs.Pairwise fun x y => x.1 = y.1 →
    x = ("kcalloc", 0) ∧ y = ("kcalloc", 1) := by
  decide +kernel

/-- An entry before another one for the same function. -/
theorem allocs_split {pre post : List (String × ℕ)} {entry x : String × ℕ}
    (h : Allocs = pre ++ entry :: post) (hx : x ∈ pre) (hName : x.1 = entry.1) :
    x = ("kcalloc", 0) ∧ entry = ("kcalloc", 1) := by
  have hpairs := h ▸ allocs_pairwise
  exact (List.pairwise_append.mp hpairs).2.2 x hx entry List.mem_cons_self hName

/-- The entry of the second argument of `kcalloc` comes after the one of the first. -/
theorem allocs_second {pre post : List (String × ℕ)}
    (h : Allocs = pre ++ ("kcalloc", 1) :: post) : ("kcalloc", 0) ∈ pre := by
  have hmem : ("kcalloc", 0) ∈ pre ++ ("kcalloc", 1) :: post := h ▸ by decide +kernel
  rcases List.mem_append.mp hmem with hpre | hpost
  · exact hpre
  · rcases List.mem_cons.mp hpost with heq | hpost
    · exact absurd (Prod.mk.inj heq).2 Nat.zero_ne_one
    · -- then the table would list the second argument before the first one
      have hpairs := (List.pairwise_append.mp (h ▸ allocs_pairwise)).2.1
      obtain ⟨heq, -⟩ := List.rel_of_pairwise_cons hpairs hpost rfl
      exact absurd (Prod.mk.inj heq).2 Nat.one_ne_zero

/-- What a call marks: the instruction of the first entry that has one. The tables of the source are
searched in order. The second argument of `kcalloc` is looked at only if the first one is no
instruction. -/
theorem annotateSink_isSome {CI V : InstId} :
    (∃ Name, annotateSink P CI = some (V, Name)) ↔
      ∃ Name args no, directCall? P CI = some (Name, args) ∧ (Name, no) ∈ Allocs ∧
        args[no]? = some (.inst V) ∧
        (Name = "kcalloc" → no = 1 → ∀ J, args[0]? ≠ some (.inst J)) := by
  constructor
  · rintro ⟨Name, h⟩
    obtain ⟨⟨Name', args⟩, hcall, h⟩ := Option.bind_eq_some_iff.mp h
    obtain ⟨i, hentry, hi⟩ := Option.map_eq_some_iff.mp h
    obtain ⟨rfl, rfl⟩ := Prod.mk.inj hi
    obtain ⟨pre, ⟨Name, no⟩, post, hsplit, hfound, hpre⟩ :=
      List.findSome?_eq_some_iff.mp hentry
    obtain ⟨rfl, harg⟩ := argumentOf_eq_some.mp hfound
    refine ⟨_, args, no, hcall, hsplit ▸ by simp, harg, ?_⟩
    rintro rfl rfl J hJ
    -- the entry of the first argument comes before
    have hnone := hpre _ (allocs_second hsplit)
    cases hnone.symm.trans (argumentOf_eq_some.mpr ⟨rfl, hJ⟩)
  · rintro ⟨Name, args, no, hcall, hmem, harg, hfirst⟩
    obtain ⟨pre, post, hsplit⟩ := List.append_of_mem hmem
    have hpre : ∀ x ∈ pre, argumentOf Name args x = none := by
      intro x hx
      by_contra hne
      obtain ⟨J, hJ⟩ := Option.ne_none_iff_exists'.mp hne
      obtain ⟨hName, harg'⟩ := argumentOf_eq_some.mp hJ
      obtain ⟨rfl, hentry⟩ := allocs_split hsplit hx hName.symm
      obtain ⟨rfl, rfl⟩ := Prod.mk.inj hentry
      exact hfirst rfl rfl J harg'
    have hentry : Allocs.findSome? (argumentOf Name args) = some V :=
      List.findSome?_eq_some_iff.mpr
        ⟨pre, (Name, no), post, hsplit, argumentOf_eq_some.mpr ⟨rfl, harg⟩, hpre⟩
    refine ⟨Name, Option.bind_eq_some_iff.mpr ⟨_, hcall, ?_⟩⟩
    exact Option.map_eq_some_iff.mpr ⟨V, hentry, rfl⟩

/-- After a call, the values with a mark are those that had one and the one that the call marks. -/
theorem mark_isSome {MD : InstId → Option String} {CI V : InstId} :
    (mark P MD CI V).isSome = true ↔
      (MD V).isSome = true ∨ ∃ Name, annotateSink P CI = some (V, Name) := by
  cases hmark : annotateSink P CI with
  | none => simp [mark, hmark]
  | some iName =>
    obtain ⟨i, Name⟩ := iName
    by_cases hV : V = i
    · subst hV
      simp [mark, hmark]
    · simp [mark, hmark, Function.update_of_ne hV, Ne.symm hV]

/-- The marks after a list of calls. -/
theorem foldl_mark_isSome {l : List InstId} {MD : InstId → Option String} {V : InstId} :
    (l.foldl (mark P) MD V).isSome = true ↔
      (MD V).isSome = true ∨ ∃ CI ∈ l, ∃ Name, annotateSink P CI = some (V, Name) := by
  induction l generalizing MD with
  | nil => simp
  | cons CI l ih =>
    rw [List.foldl_cons, ih, mark_isSome, or_assoc]
    simp

/-- The values with `sink` metadata. -/
theorem sinkMetadata_isSome {V : InstId} :
    (sinkMetadata P f V).isSome = true ↔ Marked P f V := by
  unfold sinkMetadata Marked
  rw [foldl_mark_isSome]
  simp only [annotateSink_isSome, Option.isSome_none, Bool.false_eq_true, false_or]

/-! ## Walks along operators -/

variable (P f)

/-- An operator uses the value. -/
def OperatorUser (V U : InstId) : Prop := U ∈ users P f V ∧ isOperator P floating U = true

/-- An operator uses the value, and its own value has no mark: `findSink` may go on
with it. -/
def UnmarkedUser (V U : InstId) : Prop := OperatorUser P floating f V U ∧ ¬Marked P f U

/-- Operators lead from the value to one that is passed as a listed argument. -/
def LeadsToSink (I : InstId) : Prop :=
  ∃ V, Relation.ReflTransGen (OperatorUser P floating f) I V ∧ Sensitive P f V

/-- The condition under which the tag is right.

* `finite`: no walk along unmarked operators is endless;
* `found`: if operators lead to a listed argument, then every value that unmarked
  operators lead to is used by an operator or by a marked value, so that the search never
  gives up;
* `exact`: if a value that unmarked operators lead to is used by a marked value that is
  no operator, such as a load or a `select`, then operators lead to a listed argument as
  well. -/
structure TagFits (I : InstId) : Prop where
  finite : Acc (Function.swap (UnmarkedUser P floating f)) I
  found : LeadsToSink P floating f I →
    ∀ W, Relation.ReflTransGen (UnmarkedUser P floating f) I W →
      ∃ U ∈ users P f W, Marked P f U ∨ isOperator P floating U = true
  exact : ∀ W, Relation.ReflTransGen (UnmarkedUser P floating f) I W →
    ∀ U ∈ users P f W, isOperator P floating U = false → Marked P f U →
      LeadsToSink P floating f I

variable {P f floating}

/-- Chains, with the steps along operators apart from the last one into an argument. -/
theorem chain_iff {I : InstId} : Chain P floating f I ↔ LeadsToSink P floating f I := by
  constructor
  · intro h
    induction h with
    | passed h => exact ⟨_, .refl, h⟩
    | step huser hop _ ih =>
      obtain ⟨V, hV, hsens⟩ := ih
      exact ⟨V, .head ⟨huser, hop⟩ hV, hsens⟩
  · rintro ⟨V, hV, hsens⟩
    induction hV using Relation.ReflTransGen.head_induction_on with
    | refl => exact .passed hsens
    | head huser _ ih => exact .step huser.1 huser.2 ih

/-- A step of the search. -/
theorem next_iff {U V : InstId} :
    Next (sinkMetadata P f) (isOperator P floating) (users P f) U V ↔
      UnmarkedUser P floating f V U := by
  rw [Next, UnmarkedUser, OperatorUser, ← sinkMetadata_isSome, Bool.not_eq_true,
    Option.isSome_eq_false_iff, Option.isNone_iff_eq_none]
  tauto

/-- The steps of the search are the uses by operators whose own values have no mark. -/
theorem next_eq : Next (sinkMetadata P f) (isOperator P floating) (users P f) =
    Function.swap (UnmarkedUser P floating f) := by
  funext U V
  exact propext next_iff

/-- A walk of the search is a walk along operators. -/
theorem UnmarkedUser.operatorUser {V W : InstId}
    (h : Relation.ReflTransGen (UnmarkedUser P floating f) V W) :
    Relation.ReflTransGen (OperatorUser P floating f) V W :=
  Relation.ReflTransGen.mono (fun _ _ huser => huser.1) _ _ h

/-- A marked operator that the search comes to is the end of a chain. -/
theorem leadsToSink_of_marked {I W U : InstId}
    (hW : Relation.ReflTransGen (UnmarkedUser P floating f) I W) (hU : U ∈ users P f W)
    (hop : isOperator P floating U = true) (hmark : Marked P f U) : LeadsToSink P floating f I :=
  ⟨U, (UnmarkedUser.operatorUser hW).tail ⟨hU, hop⟩, hmark.sensitive⟩

variable (P f floating)

/-- The check that is inserted for an instruction is tagged just when a chain leads from
the instruction to a sensitive argument, for every order of the use lists, if and only if
the walks along operators that start at the instruction meet the condition `TagFits`,
which speaks of the uses and of the arguments of calls only. -/
theorem intSat_exact_iff (taint : InstId → Option String) (I : InstId) (Bug : String) :
    (∀ uses, IsOrder (users P f) uses → ∃ fuel CI,
      insertIntSat P floating taint (sinkMetadata P f) uses fuel I Bug = some CI ∧
        (CI.sink.isSome = true ↔ Chain P floating f I)) ↔
    TagFits P floating f I := by
  have hsearch := @search_exact_iff _ _ (sinkMetadata P f) (isOperator P floating) (users P f) I
    (Chain P floating f I)
  refine Iff.trans (forall_congr' fun uses => forall_congr' fun _ => ?_) (hsearch.trans ?_)
  · -- the metadata of the call is what the search returns
    constructor
    · rintro ⟨fuel, CI, hCI, hiff⟩
      obtain ⟨MD, hMD, rfl⟩ := Option.map_eq_some_iff.mp hCI
      exact ⟨MD, ⟨fuel, hMD⟩, hiff⟩
    · rintro ⟨MD, ⟨fuel, hMD⟩, hiff⟩
      exact ⟨fuel, _, Option.map_eq_some_iff.mpr ⟨MD, hMD, rfl⟩, hiff⟩
  · rw [chain_iff, deadEnd_iff, hit_iff, next_eq]
    simp only [Stops, sinkMetadata_isSome]
    constructor
    · rintro ⟨hacc, hdead, hhit⟩
      refine ⟨hacc, fun hsink W hW => ?_, fun W hW U hU _ hmark => ?_⟩
      · by_contra hno
        exact hdead hsink ⟨W, hW, fun U hU hstops => hno ⟨U, hU, hstops⟩⟩
      · by_contra hsink
        exact hhit hsink ⟨W, hW, U, hU, hmark⟩
    · rintro ⟨hacc, hfound, hexact⟩
      refine ⟨hacc, fun hsink => ?_, fun hsink => ?_⟩
      · rintro ⟨W, hW, hno⟩
        obtain ⟨U, hU, hstops⟩ := hfound hsink W hW
        exact hno U hU hstops
      · rintro ⟨W, hW, U, hU, hmark⟩
        cases hop : isOperator P floating U with
        | true => exact hsink (leadsToSink_of_marked hW hU hop hmark)
        | false => exact hsink (hexact W hW U hU hop hmark)

end Search

/-- A product that is the size of an allocation. -/
def allocateProduct : Program where
  insts := [⟨0, .int 64, .binary .mul (.argument 0 0) (.argument 0 1), none, none⟩,
    ⟨0, .ptr (.int 8), .call (.func 1) [.inst 0, .constInt ⟨32, 208⟩], none, none⟩,
    ⟨0, .other, .ret (some (.inst 1)), none, none⟩]
  blocks := [⟨0, [0, 1], 2, []⟩]
  funcs := [⟨⟨"allocate", .external, "m.ll"⟩, false, [.int 64, .int 64], .ptr (.int 8), [0]⟩,
    ⟨⟨"kmalloc", .external, "m.ll"⟩, false, [.int 64, .int 32], .ptr (.int 8), []⟩]
  globals := []
  structs := []
  consts := []

/-- The product is passed to `kmalloc` itself, and its check is not tagged. -/
theorem product_not_tagged :
    Chain allocateProduct (fun _ => false) 0 0 ∧
      IsOrder (users allocateProduct 0) (users allocateProduct 0) ∧
      ∃ CI, insertIntSat allocateProduct (fun _ => false) (fun _ => none)
          (sinkMetadata allocateProduct 0) (users allocateProduct 0) 5 0 "umul" = some CI ∧
        CI.sink = none := by
  refine ⟨.passed ⟨1, by decide, "kmalloc", _, 0, rfl, by decide, rfl⟩, fun _ => .refl _,
    ⟨_, rfl, by decide⟩⟩

end Kint.Sink
