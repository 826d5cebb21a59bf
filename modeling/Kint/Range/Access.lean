import Kint.Range.Pass

/-!
# What a visit accesses

A part of `updateRangeFor` is put together from a few steps: it asks for the range of a value in
a block, copies the map of a block, joins a map to that of a block, and joins a range to an
entry of a map or to the range of an identifier (`QueryWithin`, `PassWithin`).  Which blocks,
values and identifiers the visit of an instruction or of a block accesses so is said once
(`instAccess`, `blockAccess`).  What holds of every part follows by induction on the steps.

## How this is used

The code of the pass is looked at here only, by the lemmas with `_within`: one for each visitor
and one for each loop.  The results about the pass then have one case for each kind of step
instead of one for each visitor:

* the ranges of identifiers grow, and only those that are written (`Kint.Range.Growth`);
* the maps of blocks keep their entries (`Kint.Range.Maps`);
* a visit depends on what it reads, and changes what it updates (`Kint.Range.Footprint`);
* the assertion of `getRange` depends on what it is asked for (`Kint.Range.Assertion`).

## The parts of an access

`Access` has a predicate for each kind of step.  `queriedGlobally`, `queriedLocally` and
`queriedAtEnd` list the values that an instruction asks for, and `InstWrites` the identifiers
that it writes, with the width of what it writes.  A larger access is allowed more
(`QueryWithin.mono`, `PassWithin.mono`), so the access of a block is that of its parts together.
-/

namespace Kint.Range

open Iteration

/-! ## Queries -/

section Query

variable {α β : Type}

/-- A query whose result goes on with another one. -/
theorem Query.bind_eq_ok {q : Query α} {k : α → Query β} {s s' : State} {b : β} :
    (q >>= k) s = .ok (b, s') ↔ ∃ a t, q s = .ok (a, t) ∧ k a t = .ok (b, s') := by
  constructor
  · intro h
    obtain ⟨⟨a, t⟩, ha, h⟩ := Iteration.bind_eq_ok.mp h
    exact ⟨a, t, ha, h⟩
  · rintro ⟨a, t, ha, h⟩
    exact Iteration.bind_eq_ok.mpr ⟨(a, t), ha, h⟩

theorem Query.pure_eq_ok {a b : α} {s s' : State} :
    (pure a : Query α) s = .ok (b, s') ↔ a = b ∧ s = s' := by
  constructor
  · intro h
    exact Prod.mk.inj (Except.ok.inj h)
  · rintro ⟨rfl, rfl⟩
    rfl

end Query

theorem exists_of_isIntegerTy {ty : Ty} (h : ty.isIntegerTy = true) : ∃ w, ty = .int w := by
  cases ty with
  | int w => exact ⟨w, rfl⟩
  | _ => cases h

/-! ## Values that are asked for -/

section Asked

variable (L : Library) (P : Program) (callees : CalleeMap)

/-- The integer operands that `visitBranchInst` compares. -/
def compared (cond : Value) : List Value :=
  match cond with
  | .inst c =>
    match (P.inst c).op with
    | .icmp _ LHS RHS =>
      if (P.typeOf LHS).isIntegerTy && (P.typeOf RHS).isIntegerTy then [LHS, RHS] else []
    | _ => []
  | _ => []

/-- The values whose ranges are asked for when an instruction updates the ranges
of identifiers. -/
def queriedGlobally (i : InstId) : List Value :=
  match (P.inst i).op with
  | .store value _ =>
    if (P.typeOf value).isIntegerTy ∧ getValueId L P (.inst i) ≠ "" then [value] else []
  | .ret value => value.toList.filter fun V => (P.typeOf V).isIntegerTy
  | .call _ args =>
    (args.filter fun V => (P.typeOf V).isIntegerTy) ++
      if (P.inst i).ty.isIntegerTy then [.inst i] else []
  | _ => []

/-- The values whose ranges are asked for when the range of an integer instruction
is computed. -/
def queriedLocally (i : InstId) : List Value :=
  match (P.inst i).op with
  | .binary _ lhs rhs => [lhs, rhs]
  | .cast .trunc V | .cast .zext V | .cast .sext V | .cast .bitcast V => [V]
  | .select _ ifTrue ifFalse => [ifTrue, ifFalse]
  | .phi incoming => incoming.map Prod.fst
  | .load _ _ | .call _ _ => [.inst i]
  | _ => []

/-- The values whose ranges are asked for at a terminator. -/
def queriedAtEnd (i : InstId) : List Value :=
  match (P.inst i).op with
  | .condBr cond _ _ => compared P cond
  | .switch cond _ _ => if (P.typeOf cond).isIntegerTy then [cond] else []
  | _ => []

/-- The same with the blocks in whose maps they are looked up; a phi node asks at the ends of
the edges that are no back edges. -/
def askedLocally (backEdges : List (BlockId × BlockId)) (i : InstId) : List (BlockId × Value) :=
  match (P.inst i).op with
  | .phi incoming =>
    (incoming.filter fun e => !isBackEdge backEdges (e.2, (P.inst i).parent)).map Prod.swap
  | _ => (queriedLocally P i).map (Prod.mk (P.inst i).parent)

/-- The block of the comparison or the switch that a terminator asks at. -/
def askedAtEnd (i : InstId) : List (BlockId × Value) :=
  match (P.inst i).op with
  | .condBr (.inst c) _ _ => (compared P (.inst c)).map (Prod.mk (P.inst c).parent)
  | _ => (queriedAtEnd P i).map (Prod.mk (P.inst i).parent)

/-- An instruction of `F` writes a value of `w` bits under an identifier. A store writes under its
annotation, a return under the identifier of its function, and a call under the parameters and the
result of its callees. -/
inductive InstWrites (F : FuncId) (i : InstId) : String → ℕ → Prop
  | store {value pointer : Value} {w : ℕ} : (P.inst i).op = .store value pointer →
      P.typeOf value = .int w → getValueId L P (.inst i) ≠ "" →
      InstWrites F i (getValueId L P (.inst i)) w
  | ret {V : Value} {w : ℕ} : (P.inst i).op = .ret (some V) → P.typeOf V = .int w →
      InstWrites F i (getRetId L P F) w
  | argument {callee : Value} {args : List Value} {CEEs : FuncSet} {f : FuncId}
      {arg : Value × ℕ} {w : ℕ} : (P.inst i).op = .call callee args → callees i = some CEEs →
      f ∈ CEEs → skipsCallee P f = false → arg ∈ args.zipIdx → P.typeOf arg.1 = .int w →
      InstWrites F i (getArgId L P f arg.2) w
  | result {callee : Value} {args : List Value} {CEEs : FuncSet} {w : ℕ} :
      (P.inst i).op = .call callee args → callees i = some CEEs → (P.inst i).ty = .int w →
      InstWrites F i (getCallRetId L P i) w

/-- The pointer through which an instruction stores, which gets the range that it
stores. -/
def StoresTo (i : InstId) (V : Value) : Prop := ∃ value, (P.inst i).op = .store value V

/-- The values whose entries an instruction updates. -/
def UpdatedBy (i : InstId) (V : Value) : Prop := V = .inst i ∨ StoresTo P i V

end Asked

/-! ## Accesses -/

/-- What a part of `updateRangeFor` accesses.

* `asks BB V`: it asks for the range of `V` in `BB`;
* `copies BB`: it copies the map of `BB`;
* `merges BB`: it joins a map to that of `BB`;
* `records BB V`: it joins a range to the entry of `V` in `BB`;
* `joins sID`: it joins a range to that of `sID`. -/
structure Access where
  asks : BlockId → Value → Prop
  copies : BlockId → Prop
  merges : BlockId → Prop
  records : BlockId → Value → Prop
  joins : String → Prop

/-- The map of a block. -/
def copyMap (BB : BlockId) : Query ValueRangeMap := fun s => .ok (s.funcVRMs BB, s)

/-- Join a map to that of a block. -/
def mergeMap (L : Library) (BB : BlockId) (VRM : ValueRangeMap) : Query Unit := fun s =>
  .ok ((), { s with
    funcVRMs := Function.update s.funcVRMs BB (mergeVRM L (s.funcVRMs BB) VRM) })

section Access

variable (L : Library) (P : Program) (callees : CalleeMap) (taints : TaintMap)

/-- A query is put together from steps within `A`. The steps are the lookup of a value, the copy of
the map of a block, and the merge into one. -/
inductive QueryWithin (A : Access) : {α : Type} → Query α → Prop
  | pure {α : Type} (a : α) : QueryWithin A (pure a)
  | ask {BB : BlockId} {V : Value} : A.asks BB V →
      QueryWithin A (getRange L P callees taints BB V)
  | copy {BB : BlockId} : A.copies BB → QueryWithin A (copyMap BB)
  | merge {BB : BlockId} {VRM : ValueRangeMap} : A.merges BB → QueryWithin A (mergeMap L BB VRM)
  | bind {α β : Type} {q : Query α} {k : α → Query β} : QueryWithin A q →
      (∀ a, QueryWithin A (k a)) → QueryWithin A (q >>= k)

/-- A part of the pass is put together from steps within `A`. The steps are a union under an
identifier, an entry in the map of a block, and a query whose answer the rest depends on. -/
inductive PassWithin (A : Access) : Pass State Event → Prop
  | idle : PassWithin A fun s => .ok (.idle s)
  | union {sID : String} {R : ConstantRange} : A.joins sID → PassWithin A (unionRange L sID R)
  | record {BB : BlockId} {V : Value} {R : ConstantRange} {f : Pass State Event} :
      A.records BB V → PassWithin A f → PassWithin A fun s => f (unionBlockRange L BB V R s)
  | query {α : Type} {q : Query α} {k : α → Pass State Event} :
      QueryWithin L P callees taints A q → (∀ a, PassWithin A (k a)) →
      PassWithin A (withQuery q k)
  | seq {f g : Pass State Event} : PassWithin A f → PassWithin A g → PassWithin A (f.seq g)

/-- What an instruction of `F` accesses to update the ranges of identifiers. -/
def globalAccess (F : FuncId) (i : InstId) : Access where
  asks BB V := BB = (P.inst i).parent ∧ V ∈ queriedGlobally L P i
  copies _ := False
  merges _ := False
  records BB V := BB = (P.inst i).parent ∧ StoresTo P i V
  joins sID := ∃ w, InstWrites L P callees F i sID w

/-- What an instruction accesses to record its own range. -/
def localAccess (backEdges : List (BlockId × BlockId)) (i : InstId) : Access where
  asks BB V := (P.inst i).ty.isIntegerTy = true ∧ (BB, V) ∈ askedLocally P backEdges i
  copies _ := False
  merges _ := False
  records BB V := (P.inst i).ty.isIntegerTy = true ∧ BB = (P.inst i).parent ∧ V = .inst i
  joins _ := False

/-- What an instruction of `F` accesses. -/
def instAccess (backEdges : List (BlockId × BlockId)) (F : FuncId) (i : InstId) : Access where
  asks BB V := (globalAccess L P callees F i).asks BB V ∨ (localAccess P backEdges i).asks BB V
  copies _ := False
  merges _ := False
  records BB V :=
    (globalAccess L P callees F i).records BB V ∨ (localAccess P backEdges i).records BB V
  joins := (globalAccess L P callees F i).joins

/-- What a block of `F` accesses: its instructions, and its predecessors over edges that are no
back edges. -/
def blockAccess (backEdges : List (BlockId × BlockId)) (F : FuncId) (BB : BlockId) : Access where
  asks BB' V :=
    (∃ Pred ∈ (P.block BB).preds, isBackEdge backEdges (Pred, BB) = false ∧
      (BB', V) ∈ askedAtEnd P (P.block Pred).term) ∨
    ∃ i ∈ (P.block BB).insts, (instAccess L P callees backEdges F i).asks BB' V
  copies Pred := Pred ∈ (P.block BB).preds ∧ isBackEdge backEdges (Pred, BB) = false
  merges BB' := BB' = BB
  records BB' V := ∃ i ∈ (P.block BB).insts, (instAccess L P callees backEdges F i).records BB' V
  joins sID := ∃ i ∈ (P.block BB).insts, (instAccess L P callees backEdges F i).joins sID

end Access

section Access

variable {L : Library} {P : Program} {callees : CalleeMap} {taints : TaintMap} {A B : Access}
  {backEdges : List (BlockId × BlockId)} {BB : BlockId} {i : InstId} {F : FuncId}

/-- What `B` accesses is among what `A` accesses. What is put together from steps within `B` is then
put together from steps within `A`. -/
structure Access.Includes (A B : Access) : Prop where
  asks : ∀ BB V, B.asks BB V → A.asks BB V
  copies : ∀ BB, B.copies BB → A.copies BB
  merges : ∀ BB, B.merges BB → A.merges BB
  records : ∀ BB V, B.records BB V → A.records BB V
  joins : ∀ sID, B.joins sID → A.joins sID

/-- A query may do what a smaller access allows. -/
theorem QueryWithin.mono (hAB : A.Includes B) {α : Type} {q : Query α}
    (h : QueryWithin L P callees taints B q) : QueryWithin L P callees taints A q := by
  induction h with
  | pure a => exact .pure a
  | ask h => exact .ask (hAB.asks _ _ h)
  | copy h => exact .copy (hAB.copies _ h)
  | merge h => exact .merge (hAB.merges _ h)
  | bind _ _ ihq ihk => exact .bind ihq ihk

/-- A part of the pass may do what a smaller access allows. -/
theorem PassWithin.mono (hAB : A.Includes B) {f : Pass State Event}
    (h : PassWithin L P callees taints B f) : PassWithin L P callees taints A f := by
  induction h with
  | idle => exact .idle
  | union h => exact .union (hAB.joins _ h)
  | record h _ ih => exact .record (hAB.records _ _ h) ih
  | query hq _ ih => exact .query (hq.mono hAB) ih
  | seq _ _ ihf ihg => exact .seq ihf ihg

theorem PassWithin.forEach {ι : Type} {f : ι → Pass State Event} {xs : List ι}
    (h : ∀ x ∈ xs, PassWithin L P callees taints A (f x)) :
    PassWithin L P callees taints A (forEach f xs) := by
  induction xs with
  | nil => exact .idle
  | cons x xs ih =>
    exact .seq (h x List.mem_cons_self) (ih fun y hy => h y (List.mem_cons_of_mem x hy))

/-! ## Instructions -/

/-- A phi node asks at the ends of the incoming edges that are no back edges. -/
theorem visitPHINode_within {incoming : List (Value × BlockId)}
    (hasks : ∀ e ∈ incoming, isBackEdge backEdges (e.2, BB) = false → A.asks e.2 e.1) :
    ∀ CR, QueryWithin L P callees taints A
      (visitPHINode L P callees taints backEdges BB incoming CR) := by
  induction incoming with
  | nil => exact fun CR => .pure CR
  | cons e incoming ih =>
    intro CR
    have htail := ih fun e he => hasks e (List.mem_cons_of_mem _ he)
    unfold visitPHINode
    split
    · exact htail CR
    · rename_i hback
      exact .bind (.ask (hasks e List.mem_cons_self (Bool.eq_false_iff.mpr hback)))
        fun R => htail _

theorem instRange_within {w : ℕ}
    (hasks : ∀ q ∈ askedLocally P backEdges i, A.asks q.1 q.2) :
    QueryWithin L P callees taints A (instRange L P callees taints backEdges i w) := by
  unfold askedLocally queriedLocally at hasks
  unfold instRange
  cases hop : (P.inst i).op with
  | binary op lhs rhs =>
    simp only [hop] at hasks
    exact .bind (.ask (hasks (_, lhs) (by simp))) fun LR =>
      .bind (.ask (hasks (_, rhs) (by simp))) fun RR => .pure _
  | cast op V =>
    simp only [hop] at hasks
    cases op with
    | trunc => exact .bind (.ask (hasks (_, V) (by simp))) fun R => .pure _
    | zext => exact .bind (.ask (hasks (_, V) (by simp))) fun R => .pure _
    | sext => exact .bind (.ask (hasks (_, V) (by simp))) fun R => .pure _
    | bitcast => exact .ask (hasks (_, V) (by simp))
    | ptrtoint => exact .pure _
    | inttoptr => exact .pure _
    | floating => exact .pure _
  | select cond ifTrue ifFalse =>
    simp only [hop] at hasks
    exact .bind (.ask (hasks (_, ifTrue) (by simp))) fun T =>
      .bind (.ask (hasks (_, ifFalse) (by simp))) fun F => .pure _
  | phi incoming =>
    simp only [hop] at hasks
    refine visitPHINode_within (fun e he hback => hasks e.swap ?_) _
    exact List.mem_map_of_mem (List.mem_filter.mpr ⟨he, by rw [hback]; rfl⟩)
  | load pointer isVolatile =>
    simp only [hop] at hasks
    exact .ask (hasks (_, .inst i) (by simp))
  | call callee args =>
    simp only [hop] at hasks
    exact .ask (hasks (_, .inst i) (by simp))
  | _ => exact .pure _

/-- An argument that is passed is joined to the identifier of the parameter. -/
theorem passArgument_within {f : FuncId} {arg : Value × ℕ}
    (hasks : (P.typeOf arg.1).isIntegerTy = true → A.asks BB arg.1)
    (hjoins : ∀ w, P.typeOf arg.1 = .int w → A.joins (getArgId L P f arg.2)) :
    PassWithin L P callees taints A (passArgument L P callees taints BB f arg) := by
  unfold passArgument
  split
  · rename_i hint
    obtain ⟨w, hw⟩ := exists_of_isIntegerTy hint
    exact .query (.ask (hasks hint)) fun R => .union (hjoins w hw)
  · exact .idle

/-- A value is asked for in the block of the instruction. -/
theorem globalAccess_asks {V : Value} (hV : V ∈ queriedGlobally L P i) :
    (globalAccess L P callees F i).asks (P.inst i).parent V := ⟨rfl, hV⟩

/-- A store joins to the identifier of the pointer. -/
theorem visitStoreInst_within {value pointer : Value}
    (hop : (P.inst i).op = .store value pointer) :
    PassWithin L P callees taints (globalAccess L P callees F i)
      (visitStoreInst L P callees taints i value pointer) := by
  unfold visitStoreInst
  split
  · rename_i hc
    obtain ⟨w, hw⟩ := exists_of_isIntegerTy hc.1
    have hV : value ∈ queriedGlobally L P i := by
      simp [queriedGlobally, hop, hc]
    exact .query (.ask (globalAccess_asks hV)) fun R =>
      .record ⟨rfl, value, hop⟩ (.union ⟨w, .store hop hw hc.2⟩)
  · exact .idle

/-- A return joins to the identifier of the function. -/
theorem visitReturnInst_within {value : Option Value} (hop : (P.inst i).op = .ret value) :
    PassWithin L P callees taints (globalAccess L P callees F i)
      (visitReturnInst L P callees taints F i value) := by
  unfold visitReturnInst
  cases value with
  | none => exact .idle
  | some V =>
    simp only
    split
    · rename_i hint
      obtain ⟨w, hw⟩ := exists_of_isIntegerTy hint
      have hV : V ∈ queriedGlobally L P i := by
        simp [queriedGlobally, hop, hint]
      exact .query (.ask (globalAccess_asks hV)) fun R => .union ⟨w, .ret hop hw⟩
    · exact .idle

/-- A call joins to the identifiers of parameters, and to that of its own result. -/
theorem visitCallInst_within {callee : Value} {args : List Value}
    (hop : (P.inst i).op = .call callee args) :
    PassWithin L P callees taints (globalAccess L P callees F i)
      (visitCallInst L P callees taints i args) := by
  unfold visitCallInst
  split
  · exact .idle
  · split
    · exact .idle
    · rename_i CEEs hcallees
      refine .seq (.forEach fun f hf => ?_) ?_
      · split
        · exact .idle
        · rename_i hskip
          refine .forEach fun arg harg => passArgument_within
            (fun hint => globalAccess_asks ?_)
            fun w hw => ⟨w, .argument hop hcallees ((L.mem_elements CEEs f).mp hf)
              (Bool.eq_false_iff.mpr hskip) harg hw⟩
          have hmem : arg.1 ∈ args := by
            rw [(List.mem_zipIdx' harg).2]
            exact List.getElem_mem _
          rw [queriedGlobally, hop]
          exact List.mem_append_left _ (List.mem_filter.mpr ⟨hmem, hint⟩)
      · split
        · rename_i hint
          obtain ⟨w, hw⟩ := exists_of_isIntegerTy hint
          have hself : .inst i ∈ queriedGlobally L P i := by
            simp [queriedGlobally, hop, hint]
          exact .query (.ask (globalAccess_asks hself)) fun R => .union ⟨w, .result hop hcallees hw⟩
        · exact .idle

theorem updateGlobal_within :
    PassWithin L P callees taints (globalAccess L P callees F i)
      (updateGlobal L P callees taints F i) := by
  unfold updateGlobal
  cases hop : (P.inst i).op with
  | store value pointer => exact visitStoreInst_within hop
  | ret value => exact visitReturnInst_within hop
  | call callee args => exact visitCallInst_within hop
  | _ => exact .idle

/-- The part of a visit about the map of the block. -/
theorem updateLocal_within :
    PassWithin L P callees taints (localAccess P backEdges i)
      (updateLocal L P callees taints backEdges i) := by
  unfold updateLocal
  split
  · rename_i w hty
    have hint : (P.inst i).ty.isIntegerTy = true := by rw [hty]; rfl
    have hrecord : (localAccess P backEdges i).records (P.inst i).parent (.inst i) :=
      ⟨hint, rfl, rfl⟩
    exact .query (instRange_within fun q hq => ⟨hint, hq⟩) fun R => .record hrecord .idle
  · exact .idle

theorem updateRangeForInst_within :
    PassWithin L P callees taints (instAccess L P callees backEdges F i)
      (updateRangeForInst L P callees taints backEdges F i) := by
  refine .seq (updateGlobal_within.mono ?_) (updateLocal_within.mono ?_)
  · exact {
      asks := fun _ _ => .inl
      copies := fun _ => id
      merges := fun _ => id
      records := fun _ _ => .inl
      joins := fun _ => id }
  · exact {
      asks := fun _ _ => .inr
      copies := fun _ => id
      merges := fun _ => id
      records := fun _ _ => .inr
      joins := fun _ h => h.elim }

/-! ## Blocks -/

theorem visitTerminator_within {VRM : ValueRangeMap}
    (hasks : ∀ q ∈ askedAtEnd P i, A.asks q.1 q.2) :
    QueryWithin L P callees taints A (visitTerminator L P callees taints i BB VRM) := by
  unfold askedAtEnd queriedAtEnd at hasks
  unfold visitTerminator
  cases hop : (P.inst i).op with
  | condBr cond ifTrue ifFalse =>
    simp only [visitBranchInst]
    split
    · rename_i c
      simp only [hop, compared] at hasks
      split
      · rename_i pred LHS RHS hc
        simp only [hc] at hasks
        split
        · rename_i hint
          rw [if_pos hint] at hasks
          exact .bind (.ask (hasks (_, LHS) (by simp))) fun LCR =>
            .bind (.ask (hasks (_, RHS) (by simp))) fun RCR => .pure _
        · exact .pure _
      · exact .pure _
    · exact .pure _
  | switch cond defaultDest cases =>
    simp only [hop] at hasks
    simp only [visitSwitchInst]
    split
    · rename_i w hw
      rw [hw] at hasks
      exact .bind (.ask (hasks (_, cond) (by simp [Ty.isIntegerTy]))) fun VCR => .pure _
    · exact .pure _
  | _ => exact .pure _

/-- What is done for a predecessor over an edge that is no back edge, as a sequence of steps. -/
theorem propagateFrom_eq (Pred : BlockId) (hback : isBackEdge backEdges (Pred, BB) = false) :
    propagateFrom L P callees taints backEdges BB Pred =
      copyMap Pred >>= fun VRM =>
        visitTerminator L P callees taints (P.block Pred).term BB VRM >>= mergeMap L BB := by
  funext s
  unfold propagateFrom
  rw [hback, if_neg Bool.false_ne_true]
  rfl

theorem propagate_within (preds : List BlockId)
    (hpreds : ∀ Pred ∈ preds, isBackEdge backEdges (Pred, BB) = false →
      A.copies Pred ∧ ∀ q ∈ askedAtEnd P (P.block Pred).term, A.asks q.1 q.2)
    (hBB : A.merges BB) :
    QueryWithin L P callees taints A (propagate L P callees taints backEdges BB preds) := by
  induction preds with
  | nil => exact .pure ()
  | cons Pred preds ih =>
    refine .bind ?_ fun _ => ih fun Pred hPred => hpreds Pred (List.mem_cons_of_mem _ hPred)
    cases hback : isBackEdge backEdges (Pred, BB) with
    | true =>
      have hskip : propagateFrom L P callees taints backEdges BB Pred = pure () := by
        funext s
        unfold propagateFrom
        rw [hback, if_pos rfl]
        rfl
      rw [hskip]
      exact .pure ()
    | false =>
      obtain ⟨hcopies, hasks⟩ := hpreds Pred List.mem_cons_self hback
      rw [propagateFrom_eq Pred hback]
      exact .bind (.copy hcopies) fun VRM =>
        .bind (visitTerminator_within hasks) fun VRM' => .merge hBB

theorem updateRangeForBlock_within :
    PassWithin L P callees taints (blockAccess L P callees backEdges F BB)
      (updateRangeForBlock L P callees taints backEdges F BB) := by
  refine .query (propagate_within _ (fun Pred hPred hback => ?_) rfl) fun _ =>
    .forEach fun i hi => updateRangeForInst_within.mono ?_
  · exact ⟨⟨hPred, hback⟩, fun q hq => .inl ⟨Pred, hPred, hback, hq⟩⟩
  · exact {
      asks := fun BB' V h => .inr ⟨i, hi, h⟩
      copies := fun _ h => h.elim
      merges := fun _ h => h.elim
      records := fun BB' V h => ⟨i, hi, h⟩
      joins := fun sID h => ⟨i, hi, h⟩ }

end Access

end Kint.Range
