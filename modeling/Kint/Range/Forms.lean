import Mathlib.Data.List.GetD
import Kint.Range.Machine

/-!
# Functions in the form of the compiler

The executions of a program go with the ranges of a run only if the functions have the form that
the verifier of the compiler accepts (`SSAForm`) and their blocks stand in an order in which one
visit meets predecessors first (`Layout`).  Both speak of all blocks, all paths and all
instructions; for a given program they follow from facts that can be checked block by block.

## Main ideas

* Types: an instruction that the program does not have is of no type and writes nothing, so that
  only the instructions of the program need to be looked at.
* Edges: successors and predecessors agree for all blocks if they agree for the blocks that the
  program has, since any other block has neither.
* Reachability: a list of blocks that contains the entry block and is closed under successors
  contains every block that can be reached.
* Dominance: where each instruction uses results that were computed before in its block or in
  the entry block, no path needs to be looked at, because the entry block dominates all others.

## Main results

* `wellTyped_of_lt`, `width_of_writtenTypes`: well-typed programs, and identifiers of one width.
* `succ_iff_pred_of_lt`: the edges of all blocks from those of finitely many.
* `mem_of_reachable`: blocks outside of a closed list cannot be reached.
* `ssaForm_of_usesKnown`: the form of a function without phi nodes.
* `forms_of_block`: form and layout of a function of one block.
-/

namespace Kint.Range

section Forms

variable {P : Program} {F : FuncId} {entry BB : BlockId}

/-! ## Instructions -/

/-- What holds of the instructions of the program and of the one that stands for all others holds
of every instruction. -/
theorem inst_of_mem {p : Instruction → Prop}
    (h : ∀ I ∈ ⟨0, .other, .other [], none, none⟩ :: P.insts, p I) (i : InstId) :
    p (P.inst i) := by
  refine h _ ?_
  by_cases hi : i < P.insts.length
  · rw [Program.inst, List.getD_eq_getElem _ _ hi]
    exact List.mem_cons_of_mem _ (List.getElem_mem hi)
  · rw [Program.inst, List.getD_eq_default _ _ (Nat.le_of_not_lt hi)]
    exact List.mem_cons_self

/-- A program is well typed if the instructions that it has are. -/
theorem wellTyped_of_lt {n : ℕ} (hn : P.insts.length = n) (h : ∀ i < n, InstTyped P i) :
    WellTyped P := by
  intro i
  by_cases hi : i < n
  · exact h i hi
  · have hdefault : P.inst i = ⟨0, .other, .other [], none, none⟩ :=
      List.getD_eq_default _ _ (hn ▸ Nat.le_of_not_lt hi)
    rw [InstTyped, hdefault]
    trivial

variable (P) in
/-- The types of what an instruction may write under identifiers. -/
def writtenTypes (I : Instruction) : List Ty :=
  match I.op with
  | .store value _ => [P.typeOf value]
  | .ret (some V) => [P.typeOf V]
  | .call _ args => I.ty :: args.map P.typeOf
  | _ => []

/-- Where initial values and what the instructions write have one width, every identifier has
this one. -/
theorem width_of_writtenTypes {L : Library} {callees : CalleeMap} {modules : List Module}
    {N w : ℕ} {sID : String}
    (hinit : ∀ M ∈ modules, ∀ e ∈ initializerRanges L P M, e.2.width = N)
    (hinst : ∀ I ∈ ⟨0, .other, .other [], none, none⟩ :: P.insts, ∀ T ∈ writtenTypes P I,
      T.isIntegerTy = true → T = .int N)
    (h : Written L P callees modules sID w) : w = N := by
  obtain ⟨M, hM, h⟩ := h
  have hwritten : ∀ i, .int w ∈ writtenTypes P (P.inst i) → w = N := fun i hT =>
    Ty.int.inj (inst_of_mem (p := fun I => ∀ T ∈ writtenTypes P I,
      T.isIntegerTy = true → T = .int N) hinst i _ hT rfl)
  cases h with
  | initializer h => exact hinit M hM _ h
  | body h =>
    obtain @⟨F, i, -, -, h⟩ := h
    refine hwritten i ?_
    cases h with
    | store hop hty _ => simp [writtenTypes, hop, hty]
    | ret hop hty => simp [writtenTypes, hop, hty]
    | @argument callee args CEEs f arg _ hop _ _ _ harg hty =>
      have hmem : arg.1 ∈ args := (List.mem_zipIdx' harg).2 ▸ List.getElem_mem _
      simp only [writtenTypes, hop]
      exact List.mem_cons_of_mem _ (List.mem_map.mpr ⟨arg.1, hmem, hty⟩)
    | result hop _ hty => simp [writtenTypes, hop, hty]

/-! ## Edges -/

/-- Where the blocks of the program agree on the edges between them, all blocks do: a block that
the program does not have ends in no branch and has no predecessors. -/
theorem succ_iff_pred_of_lt {n : ℕ} (hn : P.blocks.length = n)
    (h : ∀ Pred < n, ∀ BB < n,
      BB ∈ (P.inst (P.block Pred).term).op.successors ↔ Pred ∈ (P.block BB).preds)
    (hsucc : ∀ Pred < n, ∀ BB ∈ (P.inst (P.block Pred).term).op.successors, BB < n)
    (hpred : ∀ BB < n, ∀ Pred ∈ (P.block BB).preds, Pred < n) (Pred BB : BlockId) :
    BB ∈ (P.inst (P.block Pred).term).op.successors ↔ Pred ∈ (P.block BB).preds := by
  subst hn
  have hother : ∀ B, ¬ B < P.blocks.length → P.block B = ⟨0, [], P.insts.length, []⟩ :=
    fun B hB => List.getD_eq_default _ _ (Nat.le_of_not_lt hB)
  have hterm : P.inst P.insts.length = ⟨0, .other, .other [], none, none⟩ :=
    List.getD_eq_default _ _ le_rfl
  by_cases hPred : Pred < P.blocks.length
  · by_cases hBB : BB < P.blocks.length
    · exact h Pred hPred BB hBB
    · rw [hother BB hBB]
      exact ⟨fun hmem => absurd (hsucc Pred hPred BB hmem) hBB, nofun⟩
  · rw [hother Pred hPred, hterm]
    refine ⟨nofun, fun hmem => ?_⟩
    by_cases hBB : BB < P.blocks.length
    · exact absurd (hpred BB hBB Pred hmem) hPred
    · rw [hother BB hBB] at hmem
      cases hmem

/-- What can be reached is in every list of blocks that contains the entry block and is closed
under successors. -/
theorem mem_of_reachable {reached : List BlockId}
    (hedges : ∀ Pred BB,
      BB ∈ (P.inst (P.block Pred).term).op.successors ↔ Pred ∈ (P.block BB).preds)
    (hentry : entry ∈ reached)
    (hclosed : ∀ Pred ∈ reached, ∀ BB ∈ (P.inst (P.block Pred).term).op.successors,
      BB ∈ reached)
    (h : Kint.Reachable P entry BB) : BB ∈ reached := by
  induction h with
  | start => exact hentry
  | step _ hedge _ ih => exact hclosed _ ih _ ((hedges _ _).mpr hedge)

/-! ## Uses -/

/-- The instructions among the operands. -/
def usedInsts (op : Opcode) : List InstId :=
  op.operands.filterMap fun
    | .inst j => some j
    | _ => none

variable (P) in
/-- All instructions of a block but for the phi nodes use results of earlier ones, or of those in
`known`. -/
def UsesKnown (known : List InstId) (BB : BlockId) : Prop :=
  ∀ n < (P.block BB).insts.length,
    (P.inst ((P.block BB).insts.getD n 0)).op.isPhi = false →
      ∀ j ∈ usedInsts (P.inst ((P.block BB).insts.getD n 0)).op,
        j ∈ (P.block BB).insts.take n ∨ j ∈ known

instance (known : List InstId) (BB : BlockId) : Decidable (UsesKnown P known BB) := by
  unfold UsesKnown
  infer_instance

/-- A known result is available if its block dominates this one. -/
theorem UsesKnown.availableAt {known : List InstId} (h : UsesKnown P known BB)
    (hparent : ∀ i ∈ (P.block BB).insts, (P.inst i).parent = BB)
    (hknown : ∀ j ∈ known, j ∈ (P.block (P.inst j).parent).insts ∧ (P.inst j).parent ≠ BB ∧
      Dominates P entry (P.inst j).parent BB)
    {pre post : List InstId} {i : InstId} (hinsts : (P.block BB).insts = pre ++ i :: post)
    (hphi : (P.inst i).op.isPhi = false) {V : Value} (hV : V ∈ (P.inst i).op.operands) :
    AvailableAt P entry BB pre V := by
  rintro j rfl
  have hi : (P.block BB).insts.getD pre.length 0 = i := by
    simp [hinsts]
  have hused := h pre.length (by simp [hinsts])
  rw [hi] at hused
  rcases hused hphi j (List.mem_filterMap.mpr ⟨_, hV, rfl⟩) with hj | hj
  · refine .inl ⟨?_, hparent j (List.mem_of_mem_take hj)⟩
    rwa [hinsts, List.take_left] at hj
  · exact .inr (hknown j hj)

/-! ## Functions without phi nodes -/

/-- A function without phi nodes, in which every instruction of a block that can be reached uses
results of earlier ones and of the entry block. -/
theorem ssaForm_of_usesKnown (reached : List BlockId) (hhead : (P.func F).blocks.head? = some entry)
    (hnodup : (P.func F).blocks.Nodup)
    (hedges : ∀ Pred BB,
      BB ∈ (P.inst (P.block Pred).term).op.successors ↔ Pred ∈ (P.block BB).preds)
    (hentry : entry ∈ reached) (hblocks : ∀ BB ∈ reached, BB ∈ (P.func F).blocks)
    (hclosed : ∀ Pred ∈ reached, ∀ BB ∈ (P.inst (P.block Pred).term).op.successors,
      BB ∈ reached)
    (hinsts : ∀ BB ∈ (P.func F).blocks, ∀ i ∈ (P.block BB).insts,
      (P.inst i).parent = BB ∧ (P.inst i).op.isPhi = false)
    (hinsts_nodup : ∀ BB ∈ (P.func F).blocks, (P.block BB).insts.Nodup)
    (huse : ∀ BB ∈ reached, UsesKnown P (if BB = entry then [] else (P.block entry).insts) BB) :
    SSAForm P F entry := by
  have hreach : ∀ BB, Kint.Reachable P entry BB → BB ∈ reached :=
    fun BB h => mem_of_reachable hedges hentry hclosed h
  have hafter : ∀ BB ∈ (P.func F).blocks, afterPhis P BB = (P.block BB).insts := fun BB hBB =>
    List.filter_eq_self.mpr fun i hi => by rw [(hinsts BB hBB i hi).2]; rfl
  have hphis : ∀ BB ∈ (P.func F).blocks, phiNodes P BB = [] := fun BB hBB =>
    List.filter_eq_nil_iff.mpr fun i hi => by
      rw [(hinsts BB hBB i hi).2]
      exact Bool.false_ne_true
  refine ⟨hhead, hnodup, fun BB h => hblocks BB (hreach BB h), hedges,
    fun BB hBB i hi => (hinsts BB hBB i hi).1, hinsts_nodup, fun BB hBB => ?_, ?_, ?_⟩
  · rw [hphis BB hBB, hafter BB hBB]
    rfl
  · intro BB hBB pre i post hsplit hphi V hV
    have hmem := hblocks BB (hreach BB hBB)
    refine (huse BB (hreach BB hBB)).availableAt (fun i hi => (hinsts BB hmem i hi).1) ?_ hsplit
      hphi hV
    intro j hj
    by_cases hBBe : BB = entry
    · rw [if_pos hBBe] at hj
      cases hj
    · rw [if_neg hBBe] at hj
      have hparent := (hinsts entry (hblocks entry hentry) j hj).1
      rw [hparent]
      exact ⟨hj, Ne.symm hBBe, Digraph.dom_entry⟩
  · intro BB hBB i hi
    rw [hphis BB (hblocks BB (hreach BB hBB))] at hi
    cases hi

/-- A function of one block, which has no phi nodes, and in which every instruction uses results
of earlier ones. -/
theorem forms_of_block {L : Library} (hblocks : (P.func F).blocks = [BB])
    (hedges : ∀ Pred B,
      B ∈ (P.inst (P.block Pred).term).op.successors ↔ Pred ∈ (P.block B).preds)
    (hsucc : (P.inst (P.block BB).term).op.successors = []) (hpreds : (P.block BB).preds = [])
    (hinsts : ∀ i ∈ (P.block BB).insts, (P.inst i).parent = BB ∧ (P.inst i).op.isPhi = false)
    (hnodup : (P.block BB).insts.Nodup) (huse : UsesKnown P [] BB) :
    SSAForm P F BB ∧ Layout L P F BB := by
  have hmem : ∀ B ∈ (P.func F).blocks, B = BB := by
    rw [hblocks]
    exact fun B => List.mem_singleton.mp
  have hno : ∀ B ∈ (P.func F).blocks, (P.block B).preds = [] := fun B hB => by
    rw [hmem B hB, hpreds]
  constructor
  · refine ssaForm_of_usesKnown [BB] (by rw [hblocks]; rfl)
      (by rw [hblocks]; exact List.nodup_singleton BB) hedges (List.mem_singleton_self BB)
      (fun B hB => by rwa [hblocks]) ?_ ?_ ?_ ?_
    · intro Pred hPred
      rw [List.mem_singleton.mp hPred, hsucc]
      nofun
    · intro B hB
      rw [hmem B hB]
      exact hinsts
    · intro B hB
      rwa [hmem B hB]
    · intro B hB
      rwa [List.mem_singleton.mp hB, if_pos rfl]
  · refine ⟨fun B hB hne => absurd (hmem B hB) hne, fun B hB Pred hPred => ?_⟩
    rw [hno B hB] at hPred
    cases hPred

end Forms

end Kint.Range
