import Kint.Range.Maps

/-!
# Visiting a function

The states that `updateRangeFor` passes through on a function, in a visit that changes no range
of an identifier, as those at the end of a run are (`QuietVisit`).  `Before` names the state
before the rest of a block.

## Positions

A position in a visit is a block and the list of its instructions that were not visited yet.
`Before ... BB rest t` says that the visit gets to this position in the state `t`.  A visit that
comes to an end gets to every position (`QuietVisit.exists_before`).  Going from one position to
the next is the visit of one instruction (`Before.next`, `Before.prev`), and the first position
of a block comes after the merge of its predecessors (`Before.start`).

## What is known at a position

* The ranges of identifiers are those that the visit has started with, and the maps are typed
  (`Before.intRanges`, `Before.typed`).
* A value is clean as long as nothing has updated its entries (`Before.clean`).  `UpdatedBefore`
  lists what may have done so: the blocks before in the layout, the predecessors, and the
  instructions before the position.
* Over an edge that is no back edge, a block receives the entries that its predecessor has in
  the end, if the predecessor is laid out before it (`Before.edge`).
-/

namespace Kint.Range

open Iteration

/-- The state with empty maps, in which a visit starts. -/
def State.cleared (s : State) : State := { s with funcVRMs := fun _ _ => none }

section Visit

variable (L : Library) (P : Program) (callees : CalleeMap) (taints : TaintMap) (F : FuncId)

/-- A visit of `F` that starts in `s` changes no range of an identifier. -/
def QuietVisit (s : State) : Prop :=
  ∃ r, updateRangeForFunction L P callees taints F s = .ok r ∧ r.changed = false

/-- In a visit of `F` that starts in `s`, the state before `rest` in the block `BB`. The blocks and
the instructions that come earlier were visited, and the map of the block was merged from its
predecessors. -/
inductive Before (s : State) (BB : BlockId) (rest : List InstId) (t' : State) : Prop
  | intro {bs bs' : List BlockId} {is : List InstId} {r r' : Report State Event} {t : State}
      (hblocks : (P.func F).blocks = bs ++ BB :: bs') (hinsts : (P.block BB).insts = is ++ rest)
      (hr : forEach (updateRangeForBlock L P callees taints (L.findFunctionBackedges P F) F) bs
        s.cleared = .ok r) (hc : r.changed = false)
      (ht : propagate L P callees taints (L.findFunctionBackedges P F) BB (P.block BB).preds
        r.state = .ok ((), t))
      (hr' : forEach (updateRangeForInst L P callees taints (L.findFunctionBackedges P F) F) is
        t = .ok r') (hc' : r'.changed = false) (hstate : r'.state = t')

/-- The block `A` is laid out before the block `B`. -/
def Precedes (A B : BlockId) : Prop :=
  (P.func F).blocks.idxOf A < (P.func F).blocks.idxOf B

instance (A B : BlockId) : Decidable (Precedes P F A B) :=
  inferInstanceAs (Decidable (_ < _))

end Visit

section Pass

variable {L : Library} {P : Program} {callees : CalleeMap} {taints : TaintMap} {F : FuncId}
  {s t : State} {BB : BlockId} {i : InstId} {rest post : List InstId} {V : Value}

/-- The two parts of a loop that reports nothing. -/
theorem forEach_append_quiet {ι : Type} {f : ι → Pass State Event} {xs ys : List ι}
    {r : Report State Event} (h : forEach f (xs ++ ys) s = .ok r) (hc : r.changed = false) :
    ∃ a b, forEach f xs s = .ok a ∧ a.changed = false ∧ forEach f ys a.state = .ok b ∧
      b.changed = false ∧ r.state = b.state := by
  rw [forEach_append] at h
  obtain ⟨a, b, ha, hb, rfl⟩ := Pass.seq_eq_ok.mp h
  obtain ⟨hca, hcb⟩ := Bool.or_eq_false_iff.mp hc
  exact ⟨a, b, ha, hca, hb, hcb, rfl⟩

/-- The visit of a block is the merge and the visits of its instructions. -/
theorem updateRangeForBlock_eq_ok {backEdges : List (BlockId × BlockId)} {r : Report State Event}
    (h : updateRangeForBlock L P callees taints backEdges F BB s = .ok r) :
    ∃ t, propagate L P callees taints backEdges BB (P.block BB).preds s = .ok ((), t) ∧
      forEach (updateRangeForInst L P callees taints backEdges F) (P.block BB).insts t =
        .ok r := by
  obtain ⟨⟨_, t⟩, ht, h⟩ := Iteration.bind_eq_ok.mp h
  exact ⟨t, ht, h⟩

/-! ## Positions -/

/-- The visits of some instructions of a block touch what these update. -/
theorem updateRangeForInsts_quiet (hL : L.ranges.UnionLaws)
    {backEdges : List (BlockId × BlockId)} (is : List InstId) :
    Quiet L P callees taints (fun V => ∃ j ∈ is, UpdatedBy P j V)
      (forEach (updateRangeForInst L P callees taints backEdges F) is) :=
  .forEach fun j hj => (updateRangeForInst_quiet hL _ F j).mono fun _ hV => ⟨j, hj, hV⟩

/-- A visit gets to every block, and through it. -/
theorem QuietVisit.block (hvisit : QuietVisit L P callees taints F s) {bs bs' : List BlockId}
    (hblocks : (P.func F).blocks = bs ++ BB :: bs') :
    ∃ r t r', forEach (updateRangeForBlock L P callees taints (L.findFunctionBackedges P F) F)
        bs s.cleared = .ok r ∧ r.changed = false ∧
      propagate L P callees taints (L.findFunctionBackedges P F) BB (P.block BB).preds r.state =
        .ok ((), t) ∧
      forEach (updateRangeForInst L P callees taints (L.findFunctionBackedges P F) F)
        (P.block BB).insts t = .ok r' ∧ r'.changed = false := by
  obtain ⟨R, hR, hc⟩ := hvisit
  unfold updateRangeForFunction at hR
  rw [hblocks] at hR
  obtain ⟨r, b, hr, hcr, hb, hcb, -⟩ := forEach_append_quiet hR hc
  obtain ⟨a, c, ha, -, rfl⟩ := Pass.seq_eq_ok.mp hb
  obtain ⟨t, ht, hinsts⟩ := updateRangeForBlock_eq_ok ha
  rw [Report.andThen_changed, Bool.or_eq_false_iff] at hcb
  exact ⟨r, t, a, hr, hcr, ht, hinsts, hcb.1⟩

theorem QuietVisit.exists_before (hvisit : QuietVisit L P callees taints F s)
    (hBB : BB ∈ (P.func F).blocks) {is : List InstId} (his : (P.block BB).insts = is ++ rest) :
    ∃ t, Before L P callees taints F s BB rest t := by
  obtain ⟨bs, bs', hblocks⟩ := List.append_of_mem hBB
  obtain ⟨r, t, r', hr, hcr, ht, hr', hcr'⟩ := hvisit.block hblocks
  rw [his] at hr'
  obtain ⟨a, -, ha, hca, -⟩ := forEach_append_quiet hr' hcr'
  exact ⟨a.state, .intro hblocks his hr hcr ht ha hca rfl⟩

/-- An instruction takes the visit to the next position. -/
theorem Before.next (hvisit : QuietVisit L P callees taints F s)
    (h : Before L P callees taints F s BB (i :: post) t) :
    ∃ r, updateRangeForInst L P callees taints (L.findFunctionBackedges P F) F i t = .ok r ∧
      r.changed = false ∧ Before L P callees taints F s BB post r.state := by
  obtain @⟨bs, bs', is, r, r', t', hblocks, his, hr, hcr, ht', hr', hcr', rfl⟩ := h
  obtain ⟨q, u, q', hq, -, hu, hq', hcq'⟩ := hvisit.block hblocks
  obtain rfl := Except.ok.inj (hq.symm.trans hr)
  obtain rfl := (Prod.mk.inj (Except.ok.inj (hu.symm.trans ht'))).2
  rw [his] at hq'
  obtain ⟨a, b, ha, -, hb, hcb, -⟩ := forEach_append_quiet hq' hcq'
  obtain rfl := Except.ok.inj (ha.symm.trans hr')
  obtain ⟨c, d, hc, -, rfl⟩ := Pass.seq_eq_ok.mp hb
  have hcc := (Bool.or_eq_false_iff.mp hcb).1
  have his' : (P.block BB).insts = (is ++ [i]) ++ post := by rw [his, List.append_assoc]; rfl
  have hprefix : forEach (updateRangeForInst L P callees taints (L.findFunctionBackedges P F) F)
      (is ++ [i]) u = .ok (a.andThen c) := by
    rw [forEach_append, forEach_singleton]
    exact Pass.seq_eq_ok.mpr ⟨a, c, ha, hc, rfl⟩
  refine ⟨c, hc, hcc, .intro hblocks his' hr hcr ht' hprefix ?_ rfl⟩
  rw [Report.andThen_changed, hcr', hcc, Bool.or_self]

/-- A position after an instruction is reached through it. -/
theorem Before.prev {t' : State} {pre : List InstId}
    (h : Before L P callees taints F s BB post t')
    (hsplit : (P.block BB).insts = pre ++ i :: post) :
    ∃ t r, Before L P callees taints F s BB (i :: post) t ∧
      updateRangeForInst L P callees taints (L.findFunctionBackedges P F) F i t = .ok r ∧
      r.changed = false ∧ r.state = t' := by
  obtain @⟨bs, bs', is, r, r', t₀, hblocks, his, hr, hcr, ht₀, hr', hcr', rfl⟩ := h
  have heq : pre ++ [i] = is := by
    have h := hsplit.symm.trans his
    rw [← List.singleton_append, ← List.append_assoc] at h
    exact List.append_cancel_right h
  rw [← heq] at hr'
  obtain ⟨a, b, ha, hca, hb, hcb, hst⟩ := forEach_append_quiet hr' hcr'
  rw [forEach_singleton] at hb
  exact ⟨a.state, b, .intro hblocks hsplit hr hcr ht₀ ha hca rfl, hb, hcb, hst.symm⟩

/-- A position after some instructions is reached through the first of them. The induction is on the
instructions that stand between the two positions. -/
theorem Before.through (hL : L.ranges.UnionLaws) {pre mid : List InstId}
    (h : Before L P callees taints F s BB rest t)
    (hsplit : (P.block BB).insts = pre ++ i :: (mid ++ rest)) :
    ∃ t₁ r, Before L P callees taints F s BB (i :: (mid ++ rest)) t₁ ∧
      updateRangeForInst L P callees taints (L.findFunctionBackedges P F) F i t₁ = .ok r ∧
      r.changed = false ∧ Extends r.state t := by
  induction mid using List.reverseRecOn generalizing rest t with
  | nil =>
    obtain ⟨t₁, r, ht₁, hr, hc, rfl⟩ := h.prev hsplit
    exact ⟨t₁, r, ht₁, hr, hc, .refl _⟩
  | append_singleton mid j ih =>
    have hsplit' : (P.block BB).insts = pre ++ i :: (mid ++ j :: rest) := by
      rw [hsplit, List.append_assoc]
      rfl
    have hbefore : (P.block BB).insts = (pre ++ i :: mid) ++ j :: rest := by
      rw [hsplit', List.append_assoc]
      rfl
    obtain ⟨t', q, ht', hq, hcq, rfl⟩ := h.prev hbefore
    obtain ⟨t₁, r, ht₁, hr, hc, hext⟩ := ih ht' hsplit'
    rw [List.append_assoc]
    exact ⟨t₁, r, ht₁, hr, hc,
      hext.trans ((updateRangeForInst_quiet hL _ F j t' q hq hcq).extends_maps hL)⟩

/-- The position at the beginning of the block. -/
theorem Before.start (hL : L.ranges.UnionLaws) (h : Before L P callees taints F s BB rest t) :
    ∃ t₀, Before L P callees taints F s BB (P.block BB).insts t₀ ∧ Extends t₀ t := by
  obtain @⟨bs, bs', is, r, r', t₀, hblocks, his, hr, hcr, ht₀, hr', hcr', rfl⟩ := h
  refine ⟨t₀, .intro hblocks (List.nil_append _).symm hr hcr ht₀ rfl rfl rfl, ?_⟩
  exact (updateRangeForInsts_quiet hL is t₀ r' hr' hcr').extends_maps hL

/-! ## What holds at a position -/

/-- The blocks before a block in the list are the ones that precede it. -/
theorem precedes_iff {bs bs' : List BlockId} {A : BlockId} (hnodup : (P.func F).blocks.Nodup)
    (hblocks : (P.func F).blocks = bs ++ BB :: bs') : Precedes P F A BB ↔ A ∈ bs := by
  have hBB : BB ∉ bs := by
    rw [hblocks] at hnodup
    exact fun h => (List.nodup_append'.mp hnodup).2.2 h List.mem_cons_self
  unfold Precedes
  rw [hblocks, List.idxOf_append_of_notMem hBB, List.idxOf_cons_self, Nat.add_zero]
  constructor
  · intro h
    by_contra hA
    rw [List.idxOf_append_of_notMem hA] at h
    omega
  · intro hA
    rw [List.idxOf_append_of_mem hA]
    exact List.idxOf_lt_length_of_mem hA

variable (L P F) in
/-- The values whose entries a block updates: those that its predecessors test, and those
that its instructions update. -/
def UpdatedIn (A : BlockId) (V : Value) : Prop :=
  (∃ Pred ∈ (P.block A).preds, isBackEdge (L.findFunctionBackedges P F) (Pred, A) = false ∧
    TestedBy P (P.block Pred).term V) ∨ ∃ j ∈ (P.block A).insts, UpdatedBy P j V

/-- The visit of a block touches what the block updates. -/
theorem updateRangeForBlock_quiet (hL : L.ranges.UnionLaws) (A : BlockId) :
    Quiet L P callees taints (UpdatedIn L P F A)
      (updateRangeForBlock L P callees taints (L.findFunctionBackedges P F) F A) := by
  intro s r h hc
  obtain ⟨t, ht, h⟩ := updateRangeForBlock_eq_ok h
  exact .trans ((propagate_touches ht).mono fun V hV => .inl hV)
    ((updateRangeForInsts_quiet hL _ t r h hc).mono fun V hV => .inr hV)

/-- The visits of some blocks touch what these update. -/
theorem updateRangeForBlocks_quiet (hL : L.ranges.UnionLaws) (bs : List BlockId) :
    Quiet L P callees taints (fun V => ∃ A ∈ bs, UpdatedIn L P F A V)
      (forEach (updateRangeForBlock L P callees taints (L.findFunctionBackedges P F) F) bs) :=
  .forEach fun A hA => (updateRangeForBlock_quiet hL A).mono fun _ hV => ⟨A, hA, hV⟩

variable (L P F) in
/-- The values whose entries are updated in the blocks before `BB`, by the predecessors of
`BB`, or by instructions of `is`. -/
def UpdatedBefore (BB : BlockId) (is : List InstId) (V : Value) : Prop :=
  (∃ A, Precedes P F A BB ∧ UpdatedIn L P F A V) ∨
    (∃ Pred ∈ (P.block BB).preds, isBackEdge (L.findFunctionBackedges P F) (Pred, BB) = false ∧
      TestedBy P (P.block Pred).term V) ∨ ∃ j ∈ is, UpdatedBy P j V

/-- What the visit of a block has touched up to a position. -/
theorem Before.touches (hL : L.ranges.UnionLaws) (hnodup : (P.func F).blocks.Nodup)
    (h : Before L P callees taints F s BB rest t) :
    ∃ is, (P.block BB).insts = is ++ rest ∧
      Touches L P callees taints (UpdatedBefore L P F BB is) s.cleared t := by
  obtain @⟨bs, bs', is, r, r', t₀, hblocks, his, hr, hcr, ht₀, hr', hcr', rfl⟩ := h
  refine ⟨is, his, .trans ((updateRangeForBlocks_quiet hL bs _ r hr hcr).mono ?_)
    (.trans ((propagate_touches ht₀).mono fun V hV => .inr (.inl hV))
      ((updateRangeForInsts_quiet hL is t₀ r' hr' hcr').mono fun V hV => .inr (.inr hV)))⟩
  rintro V ⟨A, hA, hV⟩
  exact .inl ⟨A, (precedes_iff hnodup hblocks).mpr hA, hV⟩

/-- Up to a position, no range of an identifier has changed. -/
theorem Before.intRanges (hL : L.ranges.UnionLaws) (hnodup : (P.func F).blocks.Nodup)
    (h : Before L P callees taints F s BB rest t) : t.intRanges = s.intRanges := by
  obtain ⟨is, -, htouches⟩ := h.touches hL hnodup
  exact htouches.intRanges

/-- A value is clean as long as nothing has updated its entries. -/
theorem Before.clean (hL : L.ranges.UnionLaws) (hnodup : (P.func F).blocks.Nodup)
    (hblocks : ∀ A, Precedes P F A BB → ¬ UpdatedIn L P F A V)
    (hpreds : ∀ Pred ∈ (P.block BB).preds,
      isBackEdge (L.findFunctionBackedges P F) (Pred, BB) = false →
        ¬ TestedBy P (P.block Pred).term V)
    (hinsts : ∀ is, (P.block BB).insts = is ++ rest → ∀ j ∈ is, ¬ UpdatedBy P j V)
    (h : Before L P callees taints F s BB rest t) : Clean L P callees taints t V := by
  obtain ⟨is, his, htouches⟩ := h.touches hL hnodup
  refine htouches.clean hL ?_ fun A R hR => by cases hR
  rintro (⟨A, hA, hV⟩ | ⟨Pred, hPred, hback, hV⟩ | ⟨j, hj, hV⟩)
  · exact hblocks A hA hV
  · exact hpreds Pred hPred hback hV
  · exact hinsts is his j hj hV

/-- The visits of some instructions keep typed maps. -/
theorem updateRangeForInsts_typed (hL : L.ranges.UnionLaws) (hW : L.ranges.WidthLaws)
    (hP : WellTyped P) {backEdges : List (BlockId × BlockId)} (is : List InstId) :
    AlwaysJoins P (fun _ _ => True)
      (forEach (updateRangeForInst L P callees taints backEdges F) is) :=
  .forEach fun _ _ => (updateRangeForInst_joins hL hW hP).mono fun _ _ _ => trivial

theorem updateRangeForBlock_typed (hL : L.ranges.UnionLaws) (hW : L.ranges.WidthLaws)
    (hP : WellTyped P) (A : BlockId) : AlwaysJoins P (fun _ _ => True)
      (updateRangeForBlock L P callees taints (L.findFunctionBackedges P F) F A) :=
  .withQuery (propagate_typed hL hW hP _) fun _ _ => updateRangeForInsts_typed hL hW hP _

/-- The state in which a block is visited. -/
theorem updateRangeForBlocks_typed (hL : L.ranges.UnionLaws) (hW : L.ranges.WidthLaws)
    (hP : WellTyped P) {bs : List BlockId} {r : Report State Event}
    (h : forEach (updateRangeForBlock L P callees taints (L.findFunctionBackedges P F) F) bs
      s.cleared = .ok r) : Typed P r.state := by
  have hclear : Typed P s.cleared := fun A V R hR => by cases hR
  exact (AlwaysJoins.forEach (fun A _ => updateRangeForBlock_typed hL hW hP A) _ r h hclear).1

theorem Before.typed (hL : L.ranges.UnionLaws) (hW : L.ranges.WidthLaws) (hP : WellTyped P)
    (h : Before L P callees taints F s BB rest t) : Typed P t := by
  obtain @⟨bs, bs', is, r, r', t₀, hblocks, his, hr, hcr, ht₀, hr', hcr', rfl⟩ := h
  have hbs := updateRangeForBlocks_typed hL hW hP hr
  have hpropagate := (propagate_typed hL hW hP _ _ _ _ hbs ht₀).1
  exact (updateRangeForInsts_typed hL hW hP is t₀ r' hr' hpropagate).1

/-- On an edge that is no back edge, a block receives the entries that its predecessor
has in the end, if the predecessor comes first. -/
theorem Before.edge (hL : L.ranges.UnionLaws) (hW : L.ranges.WidthLaws) (hP : WellTyped P)
    (hnodup : (P.func F).blocks.Nodup) {Pred : BlockId} (hmem : Pred ∈ (P.block BB).preds)
    (hback : isBackEdge (L.findFunctionBackedges P F) (Pred, BB) = false)
    (hprecedes : Precedes P F Pred BB)
    (h : Before L P callees taints F s BB (P.block BB).insts t) :
    ∃ t', Before L P callees taints F s Pred [] t' ∧ Extends t' t ∧
      ∀ V R, t'.funcVRMs Pred V = some R → ∃ R', t.funcVRMs BB V = some R' ∧ R ≤ R' := by
  obtain @⟨bs, bs', is, r, r', t₀, hblocks, his, hr, hcr, ht₀, hr', hcr', rfl⟩ := h
  obtain rfl : is = [] := List.self_eq_append_left.mp his
  obtain rfl := Except.ok.inj hr'
  obtain ⟨cs, cs', hcs⟩ := List.append_of_mem ((precedes_iff hnodup hblocks).mp hprecedes)
  have htyped := updateRangeForBlocks_typed hL hW hP hr
  rw [hcs] at hr hblocks
  obtain ⟨a, b, ha, hca, hb, hcb, hst⟩ := forEach_append_quiet hr hcr
  obtain ⟨c, d, hc, hd, rfl⟩ := Pass.seq_eq_ok.mp hb
  rw [Report.andThen_changed, Bool.or_eq_false_iff] at hcb
  obtain ⟨u, hu, hinsts⟩ := updateRangeForBlock_eq_ok hc
  have hext : Extends c.state r.state := by
    rw [hst]
    exact (updateRangeForBlocks_quiet hL cs' _ d hd hcb.2).extends_maps hL
  refine ⟨c.state, .intro (List.append_assoc cs _ _ ▸ hblocks) (List.append_nil _).symm ha hca hu
    hinsts hcb.1 rfl, hext.trans ((propagate_touches ht₀).extends_maps hL), fun V R hR => ?_⟩
  obtain ⟨S, hS, hle⟩ := hext Pred V R hR
  obtain ⟨S', hS', hle'⟩ := propagate_extends hL hW hP htyped hmem hback ht₀ hS
  exact ⟨S', hS', hle.trans hle'⟩

end Pass

end Kint.Range
