import Kint.Range.Footprint

/-!
# The layout of blocks

`updateRangeFor` visits the blocks of a function once, in the order of the layout, and each
visit reads and updates the maps of blocks and the ranges of identifiers.  The result therefore
depends on the layout in general: of the two targets of a branch, one may store to a variable
that the other loads, and the load finds the store only if its block stands behind
(`siblings_order_matters`), although no run of the function goes through both.

## Main ideas

* What one visit updates and reads is its *footprint* (`blockAccess`, from
  `Kint.Range.Footprint`):  the identifiers that its stores, returns and calls join to, its own
  map, and the maps and identifiers at which it looks values up.
* Two blocks *interfere* (`Interferes`) if one of them updates what the other updates or reads.
  Visits of blocks that do not interfere may change places, whatever state they start from.
* A layout is a permutation of the blocks of the function that keeps its terminators and its
  back edges (`withBlocks`).

## Main results

* `updateRangeForFunction_layout`: layouts in which every two blocks that interfere stand in the
  same order lead to the same state and the same returned bit, and stop alike.
* `siblings_order_matters`: a layout that moves a load behind a store of another target leads to
  other ranges.
-/

namespace Kint.Range

open Iteration

/-! ## Footprints of blocks -/

section Footprint

/-- What a state holds under an identifier and for a block. -/
def State.cell (s : State) : String ⊕ BlockId → (Option ConstantRange × Prop) ⊕ ValueRangeMap
  | .inl sID => .inl (s.intRanges sID, sID ∈ s.changes)
  | .inr BB => .inr (s.funcVRMs BB)

variable (L : Library) (P : Program) (callees : CalleeMap) (taints : TaintMap)

/-- What a part updates or reads. -/
def Access.cells (X : Access) : Set (String ⊕ BlockId) :=
  Sum.elim (X.ids L P callees taints) X.maps

/-- What a part updates. -/
def Access.updated (X : Access) : Set (String ⊕ BlockId) :=
  Sum.elim {sID | X.joins sID} X.updatedMaps

variable {L P callees taints} {X : Access} {s s' : State} {r : Report State Event}

/-- Agreement on cells is agreement on identifiers and maps. -/
theorem agreeOn_cells_iff {A : Set String} {B : Set BlockId} :
    AgreeOn State.cell (Sum.elim A B) s s' ↔ Agrees A B A s s' := by
  constructor
  · intro h
    have hids : ∀ sID ∈ A, s.intRanges sID = s'.intRanges sID ∧
        (sID ∈ s.changes) = (sID ∈ s'.changes) :=
      fun sID hsID => Prod.mk.inj (Sum.inl.inj (h (.inl sID) hsID))
    exact ⟨fun sID hsID => (hids sID hsID).1, fun BB hBB => Sum.inr.inj (h (.inr BB) hBB),
      fun sID hsID => iff_of_eq (hids sID hsID).2⟩
  · intro h k hk
    cases k with
    | inl sID =>
      exact congrArg Sum.inl (Prod.ext (h.intRanges sID hk) (propext (h.changes sID hk)))
    | inr BB => exact congrArg Sum.inr (h.funcVRMs BB hk)

theorem sameView_cell_iff : SameView State.cell s s' ↔ s = s' := by
  constructor
  · intro h
    have hagrees : Agrees Set.univ Set.univ Set.univ s s' :=
      agreeOn_cells_iff.mp fun k _ => congrFun h k
    obtain ⟨m, c, f⟩ := s
    obtain ⟨m', c', f'⟩ := s'
    obtain rfl : m = m' := funext fun sID => hagrees.intRanges sID (Set.mem_univ sID)
    obtain rfl : f = f' := funext fun BB => hagrees.funcVRMs BB (Set.mem_univ BB)
    obtain rfl : c = c' := Finset.ext fun sID => hagrees.changes sID (Set.mem_univ sID)
    rfl
  · rintro rfl
    rfl

/-- The map of one block was replaced. -/
theorem cell_setMap {BB : BlockId} {m : ValueRangeMap} {k : String ⊕ BlockId}
    (hk : k ≠ .inr BB) :
    State.cell { s with funcVRMs := Function.update s.funcVRMs BB m } k = s.cell k := by
  cases k with
  | inl sID => rfl
  | inr BB' =>
    have hne : BB' ≠ BB := fun heq => hk (congrArg Sum.inr heq)
    have hmap : Function.update s.funcVRMs BB m BB' = s.funcVRMs BB' :=
      Function.update_of_ne hne _ _
    exact congrArg Sum.inr hmap

/-- A query leaves what it does not update. The induction is on the query; a lookup and a merge
update the map of their own block only. -/
theorem QueryWithin.frame {α : Type} {q : Query α} {a : α}
    (h : QueryWithin L P callees taints X q) (hq : q s = .ok (a, s')) :
    ∀ k ∉ X.updated, s'.cell k = s.cell k := by
  intro k hk
  induction h generalizing s s' with
  | pure a =>
    obtain ⟨-, rfl⟩ := Query.pure_eq_ok.mp hq
    rfl
  | @ask BB V h =>
    unfold getRange at hq
    split at hq
    · obtain ⟨-, rfl⟩ := Prod.mk.inj (Except.ok.inj hq)
      rfl
    · rename_i hconst
      have hne : k ≠ .inr BB := by
        rintro rfl
        refine hk (.inr (.inr ⟨V, h, Option.eq_none_iff_forall_not_mem.mpr fun c hc => ?_⟩))
        exact hconst c (constantInt?_eq_some.mp hc)
      split at hq
      · obtain ⟨-, rfl⟩ := Prod.mk.inj (Except.ok.inj hq)
        rfl
      · split at hq
        · cases hq
        · obtain ⟨-, rfl⟩ := Prod.mk.inj (Except.ok.inj hq)
          split
          · rfl
          · exact cell_setMap hne
  | copy _ =>
    obtain ⟨-, rfl⟩ := Prod.mk.inj (Except.ok.inj hq)
    rfl
  | @merge BB VRM h =>
    obtain ⟨-, rfl⟩ := Prod.mk.inj (Except.ok.inj hq)
    refine cell_setMap ?_
    rintro rfl
    exact hk (.inl h)
  | bind _ _ ihq ihk =>
    obtain ⟨b, t, hb, hq⟩ := Query.bind_eq_ok.mp hq
    exact (ihk b hq).trans (ihq hb)

theorem unionBlockRange_cell {BB : BlockId} {V : Value} {R : ConstantRange}
    {k : String ⊕ BlockId} (hk : k ≠ .inr BB) :
    (unionBlockRange L BB V R s).cell k = s.cell k := by
  unfold unionBlockRange
  split
  · rfl
  · exact cell_setMap hk

/-- A join to an identifier leaves the other cells. -/
theorem unionRange_cell {sID : String} {R : ConstantRange} {k : String ⊕ BlockId}
    (hk : k ≠ .inl sID) (h : unionRange L sID R s = .ok r) : r.state.cell k = s.cell k := by
  unfold unionRange at h
  split at h
  · obtain rfl := Except.ok.inj h
    rfl
  · obtain rfl := Except.ok.inj h
    cases k with
    | inr BB => rfl
    | inl sID' =>
      have hne : sID' ≠ sID := fun heq => hk (congrArg Sum.inl heq)
      refine congrArg Sum.inl (Prod.ext (Function.update_of_ne hne _ _) (propext ?_))
      show (sID' ∈ if _ then _ else _) ↔ _
      split
      · rw [Finset.mem_insert, or_iff_right hne]
      · rfl

/-- A part of the pass leaves what it does not update. -/
theorem PassWithin.frame {f : Pass State Event} (h : PassWithin L P callees taints X f)
    (hf : f s = .ok r) : ∀ k ∉ X.updated, r.state.cell k = s.cell k := by
  intro k hk
  induction h generalizing s r with
  | idle =>
    obtain rfl := Except.ok.inj hf
    rfl
  | @union sID R hID =>
    refine unionRange_cell ?_ hf
    rintro rfl
    exact hk hID
  | @record BB V R f hV _ ih =>
    refine (ih hf).trans (unionBlockRange_cell ?_)
    rintro rfl
    exact hk (.inr (.inl ⟨V, hV⟩))
  | query hq _ ih =>
    obtain ⟨⟨a, t⟩, ha, hf⟩ := Iteration.bind_eq_ok.mp hf
    exact (ih a hf).trans (hq.frame ha k hk)
  | seq _ _ ihf ihg =>
    obtain ⟨a, b, ha, hb, rfl⟩ := Pass.seq_eq_ok.mp hf
    exact (ihg hb).trans (ihf ha)

/-- The footprint of a part is what it accesses. -/
theorem PassWithin.footprint {f : Pass State Event} (h : PassWithin L P callees taints X f) :
    Footprint State.cell (X.cells L P callees taints) X.updated f where
  subset := by
    rintro (sID | BB) hk
    · exact .inl hk
    · exact .inl hk
  agree s s' hs := by
    have halike := h.agrees (C := X.ids L P callees taints) Set.Subset.rfl Set.Subset.rfl s s'
      (agreeOn_cells_iff.mp hs)
    cases hr : f s with
    | error e =>
      rw [hr] at halike
      obtain ⟨e', hr'⟩ := halike.of_error
      rw [hr']
      trivial
    | ok r =>
      rw [hr] at halike
      obtain ⟨r', hr', hc, hagrees⟩ := halike.of_ok
      rw [hr']
      exact ⟨hc, agreeOn_cells_iff.mpr hagrees⟩
  frame _ _ hr := h.frame hr

end Footprint

/-! ## Another layout of a function -/

/-- The program with the blocks of `F` in another order. -/
def withBlocks (P : Program) (F : FuncId) (bs : List BlockId) : Program :=
  { P with funcs := P.funcs.set F { P.func F with blocks := bs } }

section Layout

variable {L : Library} {P : Program} {callees : CalleeMap} {taints : TaintMap} {F : FuncId}
  {bs : List BlockId}

/-- Nothing else changes about a function. -/
theorem withBlocks_func (f : FuncId) :
    ∃ bs', (withBlocks P F bs).func f = { P.func f with blocks := bs' } := by
  unfold withBlocks Program.func
  simp only [List.getD_eq_getElem?_getD, List.getElem?_set]
  by_cases hf : F = f
  · subst hf
    by_cases hlt : F < P.funcs.length
    · exact ⟨bs, by simp [hlt]⟩
    · exact ⟨[], by simp [hlt]⟩
  · exact ⟨(P.func f).blocks, by simp [hf, Program.func]⟩

/-- The blocks of the function, in the other order. -/
theorem withBlocks_blocks (hF : F < P.funcs.length) :
    ((withBlocks P F bs).func F).blocks = bs := by
  unfold withBlocks Program.func
  simp [hF]

theorem withBlocks_typeOf : (withBlocks P F bs).typeOf = P.typeOf := by
  funext V
  cases V with
  | argument f no =>
    obtain ⟨bs', h⟩ := @withBlocks_func P F bs f
    rw [Program.typeOf, Program.typeOf, h]
  | _ => rfl

theorem withBlocks_getRetId : getRetId L (withBlocks P F bs) = getRetId L P := by
  funext f
  obtain ⟨bs', h⟩ := @withBlocks_func P F bs f
  rw [getRetId, getRetId, h]

theorem withBlocks_getArgId : getArgId L (withBlocks P F bs) = getArgId L P := by
  funext f no
  obtain ⟨bs', h⟩ := @withBlocks_func P F bs f
  rw [getArgId, getArgId, h]

theorem withBlocks_skipsCallee : skipsCallee (withBlocks P F bs) = skipsCallee P := by
  funext f
  obtain ⟨bs', h⟩ := @withBlocks_func P F bs f
  rw [skipsCallee, skipsCallee, h]

/-- The instructions and the blocks stay. -/
theorem withBlocks_inst : (withBlocks P F bs).inst = P.inst := rfl

theorem withBlocks_block : (withBlocks P F bs).block = P.block := rfl

theorem withBlocks_isInlineAsm : (withBlocks P F bs).isInlineAsm = P.isInlineAsm := rfl

theorem withBlocks_getValueIdAux (fuel : ℕ) :
    getValueIdAux L (withBlocks P F bs) fuel = getValueIdAux L P fuel := by
  induction fuel with
  | zero =>
    funext V
    rfl
  | succ fuel ih =>
    funext V
    cases V with
    | argument f no =>
      show getArgId L (withBlocks P F bs) f no = getArgId L P f no
      rw [withBlocks_getArgId]
    | inst i =>
      rw [getValueIdAux, getValueIdAux, withBlocks_inst]
      cases (P.inst i).op with
      | call callee args =>
        cases callee with
        | func f =>
          obtain ⟨bs', h⟩ := @withBlocks_func P F bs f
          simp only [h, withBlocks_getRetId]
          rfl
        | _ => simp only [ih]
      | _ => rfl
    | _ => rfl

theorem withBlocks_getValueId : getValueId L (withBlocks P F bs) = getValueId L P := by
  funext V
  show getValueIdAux L (withBlocks P F bs) (P.insts.length + 1) V = _
  rw [withBlocks_getValueIdAux]
  rfl

theorem withBlocks_getCallRetId : getCallRetId L (withBlocks P F bs) = getCallRetId L P := by
  funext i
  rw [getCallRetId, getCallRetId, withBlocks_inst, withBlocks_getRetId, withBlocks_getValueId]

/-! ## Visits in another layout -/

theorem withBlocks_unionOfReturns {w : ℕ} {m : RangeMap} (fs : List FuncId) :
    unionOfReturns L (withBlocks P F bs) taints w m fs = unionOfReturns L P taints w m fs := by
  induction fs with
  | nil => rfl
  | cons f fs ih =>
    funext CR
    rw [unionOfReturns, unionOfReturns, ih, withBlocks_getRetId]

theorem withBlocks_lookupRange :
    lookupRange L (withBlocks P F bs) callees taints = lookupRange L P callees taints := by
  funext w m V
  unfold lookupRange
  rw [withBlocks_getValueId]
  simp only [withBlocks_unionOfReturns]
  rfl

theorem withBlocks_getRange :
    getRange L (withBlocks P F bs) callees taints = getRange L P callees taints := by
  funext BB V s
  unfold getRange
  rw [withBlocks_typeOf, withBlocks_lookupRange]

theorem withBlocks_visitPHINode {backEdges : List (BlockId × BlockId)} {BB : BlockId}
    (incoming : List (Value × BlockId)) :
    visitPHINode L (withBlocks P F bs) callees taints backEdges BB incoming =
      visitPHINode L P callees taints backEdges BB incoming := by
  induction incoming with
  | nil => rfl
  | cons e incoming ih =>
    funext CR
    rw [visitPHINode, visitPHINode, ih, withBlocks_getRange]

/-- The ranges of results are computed in the same way. -/
theorem withBlocks_instRange :
    instRange L (withBlocks P F bs) callees taints = instRange L P callees taints := by
  funext backEdges i w
  unfold instRange visitBinaryOp visitCastInst visitSelectInst
  rw [withBlocks_inst, withBlocks_getRange]
  simp only [withBlocks_visitPHINode]

/-- The part of a visit about identifiers does not depend on the layout. -/
theorem withBlocks_updateGlobal :
    updateGlobal L (withBlocks P F bs) callees taints = updateGlobal L P callees taints := by
  funext f i
  unfold updateGlobal visitStoreInst visitReturnInst visitCallInst passArgument
  rw [withBlocks_inst, withBlocks_typeOf, withBlocks_getRange, withBlocks_getValueId,
    withBlocks_getRetId, withBlocks_getArgId, withBlocks_getCallRetId, withBlocks_skipsCallee,
    withBlocks_isInlineAsm]

/-- The visit of an instruction does not depend on the layout. -/
theorem withBlocks_updateRangeForInst :
    updateRangeForInst L (withBlocks P F bs) callees taints =
      updateRangeForInst L P callees taints := by
  funext backEdges f i
  unfold updateRangeForInst updateLocal
  rw [withBlocks_updateGlobal, withBlocks_instRange, withBlocks_inst]

theorem withBlocks_visitTerminator :
    visitTerminator L (withBlocks P F bs) callees taints = visitTerminator L P callees taints := by
  funext i BB VRM
  unfold visitTerminator visitBranchInst visitSwitchInst
  rw [withBlocks_inst, withBlocks_typeOf, withBlocks_getRange]

/-- The merge of predecessors does not depend on the layout. -/
theorem withBlocks_propagate {backEdges : List (BlockId × BlockId)} {BB : BlockId}
    (preds : List BlockId) :
    propagate L (withBlocks P F bs) callees taints backEdges BB preds =
      propagate L P callees taints backEdges BB preds := by
  induction preds with
  | nil => rfl
  | cons Pred preds ih =>
    rw [propagate, propagate, ih]
    unfold propagateFrom
    rw [withBlocks_visitTerminator, withBlocks_block]

/-- The visit of a block does not depend on the layout. -/
theorem withBlocks_updateRangeForBlock :
    updateRangeForBlock L (withBlocks P F bs) callees taints =
      updateRangeForBlock L P callees taints := by
  funext backEdges f BB
  unfold updateRangeForBlock
  rw [withBlocks_propagate, withBlocks_updateRangeForInst, withBlocks_block]

/-- Two blocks of a function interfere: one visit updates what the other updates or
reads. -/
def Interferes (L : Library) (P : Program) (callees : CalleeMap) (taints : TaintMap)
    (F : FuncId) (BB BB' : BlockId) : Prop :=
  ∃ k,
    (k ∈ (blockAccess L P callees (L.findFunctionBackedges P F) F BB).updated ∧
      k ∈ (blockAccess L P callees (L.findFunctionBackedges P F) F BB').cells L P callees taints) ∨
    (k ∈ (blockAccess L P callees (L.findFunctionBackedges P F) F BB').updated ∧
      k ∈ (blockAccess L P callees (L.findFunctionBackedges P F) F BB).cells L P callees taints)

/-- The footprint of a block is what it accesses. -/
theorem updateRangeForBlock_footprint {backEdges : List (BlockId × BlockId)} (BB : BlockId) :
    Footprint State.cell ((blockAccess L P callees backEdges F BB).cells L P callees taints)
      (blockAccess L P callees backEdges F BB).updated
      (updateRangeForBlock L P callees taints backEdges F BB) :=
  updateRangeForBlock_within.footprint

/-- A permutation of the blocks is the blocks of the new program. -/
theorem blocks_of_perm (hperm : (P.func F).blocks.Perm bs) :
    ((withBlocks P F bs).func F).blocks = bs := by
  by_cases hF : F < P.funcs.length
  · exact withBlocks_blocks hF
  · -- what is no function has no blocks, and no other layout either
    have hnone : (P.func F).blocks = [] := by simp [Program.func, hF]
    rw [hnone] at hperm
    rw [← hperm.nil_eq]
    simp [withBlocks, Program.func, hF]

/-- For every layout that keeps the back edges and the order of blocks that interfere, the visit
of a function makes the same updates, or fails again. -/
theorem updateRangeForFunction_layout (hperm : (P.func F).blocks.Perm bs)
    (hnodup : (P.func F).blocks.Nodup)
    (hback : L.findFunctionBackedges (withBlocks P F bs) F = L.findFunctionBackedges P F)
    (horder : ∀ BB BB', Interferes L P callees taints F BB BB' →
      [BB, BB'].Sublist (P.func F).blocks → [BB, BB'].Sublist bs) (s : State) :
    (∀ r, updateRangeForFunction L P callees taints F s = .ok r →
      ∃ r', updateRangeForFunction L (withBlocks P F bs) callees taints F s = .ok r' ∧
        r'.changed = r.changed ∧ r'.state = r.state) ∧
    ∀ e, updateRangeForFunction L P callees taints F s = .error e →
      ∃ e', updateRangeForFunction L (withBlocks P F bs) callees taints F s = .error e' := by
  have hvisits : Matches (SameView State.cell)
      (forEach (updateRangeForBlock L P callees taints (L.findFunctionBackedges P F) F)
        (P.func F).blocks)
      (forEach (updateRangeForBlock L P callees taints (L.findFunctionBackedges P F) F) bs) := by
    refine forEach_perm (R := SameView State.cell) (fun _ => rfl) Eq.trans
      (fun BB => (updateRangeForBlock_footprint BB).matches_self)
      (fun BB BB' hapart => ?_) hnodup hperm horder
    apply (updateRangeForBlock_footprint BB).seq_comm (updateRangeForBlock_footprint BB')
    · exact Set.disjoint_left.mpr fun k hk hk' => hapart ⟨k, .inl ⟨hk, hk'⟩⟩
    · exact Set.disjoint_left.mpr fun k hk hk' => hapart ⟨k, .inr ⟨hk, hk'⟩⟩
  have halike := hvisits { s with funcVRMs := fun _ _ => none } _ rfl
  unfold updateRangeForFunction
  rw [blocks_of_perm hperm, hback, withBlocks_updateRangeForBlock]
  constructor
  · intro r hr
    rw [hr] at halike
    obtain ⟨r', hr', hc, hview⟩ := halike.of_ok
    exact ⟨r', hr', hc.symm, (sameView_cell_iff.mp hview).symm⟩
  · intro e he
    rw [he] at halike
    exact halike.of_error

end Layout

/-! ## Targets of one branch -/

/-- A function that branches to a block that stores 7 to `low` and to a block that stores `value`
to `high`, after `loads`. -/
def siblingsProgram (loads : List Instruction) (value : Value) : Program where
  insts := [
    ⟨0, .other, .condBr (.argument 0 0) 1 2, none, none⟩,
    ⟨1, .other, .store (.constInt (.ofNat 8 7)) (.global 0), some "var.low", none⟩,
    ⟨1, .other, .ret none, none, none⟩,
    ⟨2, .other, .store value (.global 1), some "var.high", none⟩,
    ⟨2, .other, .ret none, none, none⟩] ++ loads
  blocks := [⟨0, [], 0, []⟩, ⟨0, [1], 2, [0]⟩, ⟨0, List.range' 5 loads.length ++ [3], 4, [0]⟩]
  funcs := [⟨⟨"split", .external, "a.c"⟩, false, [.int 1], .other, [0, 1, 2]⟩]
  globals := [⟨⟨"low", .external, "a.c"⟩, .int 8, none⟩,
    ⟨⟨"high", .external, "a.c"⟩, .int 8, none⟩]
  structs := []
  consts := []

/-- The second target copies `low` to `high`. -/
abbrev copying : Program :=
  siblingsProgram [⟨2, .int 8, .load (.global 0) false, some "var.low", none⟩] (.inst 5)

/-- The variable `low` is initialized with 0. -/
def splitState : State :=
  { State.init with
    intRanges := Function.update (fun _ => none) "var.low" (some (.ofBounds 8 0 1)) }

/-- The visit of the function from `splitState`. -/
def splitRun (P : Program) : Except Stop (Report State Event) :=
  updateRangeForFunction .reference P (fun _ => none) .init 0 splitState

/-- The second target finds what the first one stored only if it is visited later, although no path
of the function leads from the one to the other. -/
theorem siblings_order_matters : ∃ r r',
    (copying.func 0).blocks = [0, 1, 2] ∧ [0, 1, 2].Perm [0, 2, 1] ∧
    Library.reference.findFunctionBackedges (withBlocks copying 0 [0, 2, 1]) 0 =
      Library.reference.findFunctionBackedges copying 0 ∧
    splitRun copying = .ok r ∧ splitRun (withBlocks copying 0 [0, 2, 1]) = .ok r' ∧
    r.state.intRanges "var.high" = some (.ofBounds 8 0 8) ∧
    r'.state.intRanges "var.high" = some (.ofBounds 8 0 1) ∧
    r.state.intRanges ≠ r'.state.intRanges := by
  have hrun : resultIs (splitRun copying) (fun r =>
      decide (r.state.intRanges "var.high" = some (.ofBounds 8 0 8))) = true := by
    decide +kernel
  have hrun' : resultIs (splitRun (withBlocks copying 0 [0, 2, 1])) (fun r =>
      decide (r.state.intRanges "var.high" = some (.ofBounds 8 0 1))) = true := by
    decide +kernel
  obtain ⟨r, hr, hhigh⟩ := of_resultIs hrun
  obtain ⟨r', hr', hhigh'⟩ := of_resultIs hrun'
  have hhigh := of_decide_eq_true hhigh
  have hhigh' := of_decide_eq_true hhigh'
  refine ⟨r, r', rfl, .cons _ (.swap _ _ _), by decide, hr, hr', hhigh, hhigh', fun heq => ?_⟩
  rw [heq, hhigh'] at hhigh
  exact absurd hhigh (by decide)

/-- The second target stores the constant to `high` and loads nothing. -/
abbrev choosing : Program := siblingsProgram [] (.constInt (.ofNat 8 7))

/-- A target of the branch stores the constant under `sID` and returns. -/
structure Target (BB : BlockId) (sID : String) (i j : InstId) (g : GlobalId) : Prop where
  insts : (choosing.block BB).insts = [i, j]
  preds : (choosing.block BB).preds = [0]
  store : choosing.inst i =
    ⟨BB, .other, .store (.constInt (.ofNat 8 7)) (.global g), some sID, none⟩
  ret : choosing.inst j = ⟨BB, .other, .ret none, none, none⟩

theorem lowTarget : Target 1 "var.low" 1 2 0 := ⟨rfl, rfl, rfl, rfl⟩

theorem highTarget : Target 2 "var.high" 3 4 1 := ⟨rfl, rfl, rfl, rfl⟩

section Target

variable {BB BB' : BlockId} {sID sID' : String} {i j : InstId} {g : GlobalId}

/-- What the visit of a block of `choosing` accesses. -/
abbrev choosingAccess (BB : BlockId) : Access :=
  blockAccess .reference choosing (fun _ => none) [] 0 BB

/-- A target asks for the constant only. -/
theorem Target.asks (h : Target BB sID i j g) {V : Value} (hV : (choosingAccess BB).asks BB' V) :
    V = .constInt (.ofNat 8 7) := by
  obtain ⟨Pred, hPred, -, hV⟩ | ⟨k, hk, ⟨-, hV⟩ | ⟨hty, -⟩⟩ := hV
  · rw [h.preds, List.mem_singleton] at hPred
    rw [hPred, show askedAtEnd choosing (choosing.block 0).term = [] from rfl] at hV
    cases hV
  · rw [h.insts, List.mem_pair] at hk
    rcases hk with rfl | rfl
    · unfold queriedGlobally at hV
      simp only [h.store] at hV
      split at hV
      · exact List.mem_singleton.mp hV
      · cases hV
    · unfold queriedGlobally at hV
      simp only [h.ret] at hV
      cases hV
  · rw [h.insts, List.mem_pair] at hk
    rcases hk with rfl | rfl
    · rw [h.store] at hty
      cases hty
    · rw [h.ret] at hty
      cases hty

/-- The identifier of the variable that a target stores to. -/
theorem Target.getValueId (h : Target BB sID i j g) :
    getValueId .reference choosing (.inst i) = sID := by
  unfold Kint.getValueId getValueIdAux
  simp only [h.store, getLoadStoreId, Option.getD_some]

/-- A target updates the range of its variable. -/
theorem Target.joins (h : Target BB sID i j g) (hID : (choosingAccess BB).joins sID') :
    sID' = sID := by
  obtain ⟨k, hk, w, hID⟩ := hID
  rw [h.insts, List.mem_pair] at hk
  rcases hk with rfl | rfl
  · have hmem := hID.mem_instIds
    unfold instIds at hmem
    simp only [h.store] at hmem
    rw [List.mem_singleton.mp hmem]
    exact h.getValueId
  · -- a return without a value writes nothing
    have hop : (choosing.inst k).op = .ret none := by rw [h.ret]
    cases hID <;> simp_all

/-- What a target updates. -/
theorem Target.updated (h : Target BB sID i j g) {k : String ⊕ BlockId}
    (hk : k ∈ (choosingAccess BB).updated) : k = .inl sID ∨ k = .inr BB := by
  cases k with
  | inl sID' => exact .inl (congrArg Sum.inl (h.joins hk))
  | inr BB' =>
    have hparent : ∀ k ∈ (choosing.block BB).insts, (choosing.inst k).parent = BB := by
      rw [h.insts]
      simp [h.store, h.ret]
    obtain rfl | ⟨V, k, hk, ⟨rfl, -⟩ | ⟨-, rfl, -⟩⟩ | ⟨V, hV, hconst⟩ := hk
    · exact .inr rfl
    · exact .inr (congrArg Sum.inr (hparent k hk))
    · exact .inr (congrArg Sum.inr (hparent k hk))
    · rw [h.asks hV] at hconst
      cases hconst

/-- Besides, a target reads the map of the block with the branch. -/
theorem Target.cells (h : Target BB sID i j g) {k : String ⊕ BlockId}
    (hk : k ∈ (choosingAccess BB).cells .reference choosing (fun _ => none) .init) :
    k = .inl sID ∨ k = .inr BB ∨ k = .inr 0 := by
  cases k with
  | inl sID' =>
    obtain hjoins | ⟨BB', V, hV, hmem⟩ := hk
    · exact .inl (congrArg Sum.inl (h.joins hjoins))
    · rw [h.asks hV] at hmem
      cases hmem
  | inr BB' =>
    obtain hupdated | ⟨hpred, -⟩ := hk
    · exact (h.updated (k := .inr BB') hupdated).imp_right .inl
    · rw [h.preds, List.mem_singleton] at hpred
      exact .inr (.inr (congrArg Sum.inr hpred))

end Target

/-- The targets do not interfere. -/
theorem targets_apart : ¬ Interferes .reference choosing (fun _ => none) .init 0 1 2 := by
  have hback : Library.reference.findFunctionBackedges choosing 0 = [] := by decide
  unfold Interferes
  rw [hback]
  rintro ⟨k, ⟨hk, hk'⟩ | ⟨hk, hk'⟩⟩
  · rcases lowTarget.updated hk with rfl | rfl
    · simpa using highTarget.cells hk'
    · simpa using highTarget.cells hk'
  · rcases highTarget.updated hk with rfl | rfl
    · simpa using lowTarget.cells hk'
    · simpa using lowTarget.cells hk'

/-- Targets of which neither loads what the other stores may change places. The layouts are run to
the same state, in which the identifier that is joined has its range. -/
theorem siblings_reordered : ∃ r r', splitRun choosing = .ok r ∧
    splitRun (withBlocks choosing 0 [0, 2, 1]) = .ok r' ∧ r'.state = r.state ∧
    r.state.intRanges "var.high" = some (.ofBounds 8 7 8) := by
  have hrun : resultIs (splitRun choosing) (fun r =>
      decide (r.state.intRanges "var.high" = some (.ofBounds 8 7 8))) = true := by
    decide +kernel
  obtain ⟨r, hr, hhigh⟩ := of_resultIs hrun
  have hblocks : (choosing.func 0).blocks = [0, 1, 2] := rfl
  have hperm : (choosing.func 0).blocks.Perm [0, 2, 1] := by
    rw [hblocks]
    exact .cons _ (.swap _ _ _)
  have hnodup : (choosing.func 0).blocks.Nodup := by decide
  have hback : Library.reference.findFunctionBackedges (withBlocks choosing 0 [0, 2, 1]) 0 =
      Library.reference.findFunctionBackedges choosing 0 := by decide
  have horder : ∀ BB BB', Interferes .reference choosing (fun _ => none) .init 0 BB BB' →
      [BB, BB'].Sublist (choosing.func 0).blocks → [BB, BB'].Sublist [0, 2, 1] := by
    intro BB BB' hinterferes h
    rw [hblocks] at h
    have hpairs : (BB = 0 ∧ BB' = 1) ∨ (BB = 0 ∧ BB' = 2) ∨ (BB = 1 ∧ BB' = 2) := by
      simpa [List.sublists] using List.mem_sublists.mpr h
    rcases hpairs with ⟨rfl, rfl⟩ | ⟨rfl, rfl⟩ | ⟨rfl, rfl⟩
    · decide
    · decide
    · exact absurd hinterferes targets_apart
  have hlayout := updateRangeForFunction_layout hperm hnodup hback horder splitState
  obtain ⟨r', hr', -, heq⟩ := hlayout.1 r hr
  exact ⟨r, r', hr, hr', heq, of_decide_eq_true hhigh⟩

end Kint.Range
