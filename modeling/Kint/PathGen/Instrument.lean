import Kint.PathGen.Insert

/-!
# Runs of instrumented functions

New instructions that change their own names only do not change what a function does.  A run of
the instrumented function is, without the new instructions, a run of the function
(`Extends.erase_run`).  And when a new instruction can run in every state, each run of the
function is one of the instrumented function, which comes by the new instruction before it runs
the one that follows (`lift_run`).

## From the instrumented function to the function

`Erased` relates a state to the one without the new instructions: the same block, the old
instructions that are still to run, and the same values of old names.  A step is then a step of
the function, or, where a new instruction runs, no step at all (`Extends.erase_step`).  This
direction works for any number of new instructions at once.

## From the function to the instrumented function

`Lifts` relates a state of the function to one of the instrumented function in which the new
instruction has not run yet if the instruction that follows has not.  A step of the function
becomes one or two steps (`lift_step`).  That the new instruction can run is a hypothesis
(`Runnable`): it computes something in every state.  This direction is about one instruction;
several are treated by repeating it, with `Erased.trans` to put the results together.

Both are used by `Kint.IntRewrite.Correct` and `Kint.IntRewrite.Libcalls`, where the new
instructions are checks and calls of `int.sat`.
-/

namespace Kint

open Iteration Memo SMT PathGen ValueGen Splice

variable {DL : DataLayout} {P P' : Program} {Backedges : List (BlockId × BlockId)}
  {entry BB Pred : BlockId} {F : FuncId} {σ σ' τ τ' σ₀ : Assignment Value} {V : Value}
  {i ip : InstId} {ty : Ty} {op : Opcode} {k : ℕ} {s s' t t' : MachineState}

/-! ## Old instructions -/

theorem Extends.means (hP : Closed P) (h : Extends P P')
    (hconst : ∀ c, ∀ U ∈ (P.const c).operands, U.isConstant = true) (hi : i < P.insts.length)
    (hσ : ∀ U, U.Old P → τ U = σ U) (hσ' : ∀ U, U.Old P → τ' U = σ' U) :
    Means DL P' i τ τ' ↔ Means DL P i σ σ' := by
  unfold Means
  rw [h.leafValue hσ' fun j hj => Value.inst.inj hj ▸ hi]
  refine forall_congr' fun x => imp_congr_right fun _ => ?_
  show ValueGen.instValue DL P' τ' _ _ i = _ ↔ ValueGen.instValue DL P σ' _ _ i = _
  rw [h.instValue hP hi hσ' fun U hU => h.current hconst hσ hU]

theorem Extends.current_iff (h : Extends P P')
    (hconst : ∀ c, ∀ U ∈ (P.const c).operands, U.isConstant = true)
    (hσ : ∀ U, U.Old P → τ U = σ U) (hV : V.Old P) {x : APInt} :
    Current DL P' τ V x ↔ Current DL P σ V x := by
  rw [← current_eq_some, ← current_eq_some, h.current hconst hσ hV]

theorem Extends.takes (h : Extends P P')
    (hconst : ∀ c, ∀ U ∈ (P.const c).operands, U.isConstant = true)
    (hσ : ∀ U, U.Old P → τ U = σ U) (hop : ∀ V ∈ op.operands, V.Old P) :
    Takes DL P' τ op k ↔ Takes DL P σ op k := by
  cases op with
  | condBr cond ifTrue ifFalse =>
    have hcond : ∀ x, Current DL P' τ cond x ↔ Current DL P σ cond x := fun _ =>
      h.current_iff hconst hσ (hop cond List.mem_cons_self)
    match k with
    | 0 => exact hcond _
    | 1 => exact hcond _
    | k + 2 => exact Iff.rfl
  | switch cond d cases =>
    have hcond : ∀ x, Current DL P' τ cond x ↔ Current DL P σ cond x := fun _ =>
      h.current_iff hconst hσ (hop cond List.mem_cons_self)
    match k with
    | 0 => exact exists_congr fun x => and_congr_left fun _ => hcond x
    | k + 1 => exact exists_congr fun c => and_congr_right fun _ => hcond _
  | _ => exact Iff.rfl

theorem Extends.undef (h : Extends P P') (hV : V.Old P) :
    isAnalyzable (P'.typeOf V) = isAnalyzable (P.typeOf V) := by
  rw [h.typeOf hV]

/-- The phi nodes of the function take the same values. -/
theorem Extends.phiValues (hP : Closed P) (h : Extends P P')
    (hconst : ∀ c, ∀ U ∈ (P.const c).operands, U.isConstant = true)
    (hσ : ∀ U, U.Old P → τ U = σ U) (hσ' : ∀ U, U.Old P → τ' U = σ' U)
    (hBB : BB < P.blocks.length) (hphis : PhiValues DL P' τ τ' Pred BB) :
    PhiValues DL P σ σ' Pred BB := by
  intro i hi incoming V hinc hV hundef hty
  have hlt := hP.insts BB hBB i hi
  have hold : V.Old P := hP.operand_old (i := i) (by
    rw [hinc]
    exact List.mem_map_of_mem (incoming_mem hV))
  obtain ⟨x, hx, hleaf⟩ := hphis i (h.mem_insts hBB hi) incoming V
    (by rw [h.inst i hlt]; exact hinc) hV hundef (by rw [h.undef hold]; exact hty)
  refine ⟨x, (h.current_iff hconst hσ hold).mp hx, ?_⟩
  rwa [h.leafValue hσ' fun j hj => Value.inst.inj hj ▸ hlt] at hleaf

/-! ## Without the new instructions -/

/-- The state without the new instructions. -/
structure Erased (P : Program) (t s : MachineState) : Prop where
  block : s.block = t.block
  rest : s.rest = t.rest.filter (· < P.insts.length)
  env : ∀ V, V.Old P → t.env V = s.env V

open Classical in
/-- The old names as in one state, the others as in another one. -/
noncomputable def oldNames (P : Program) (τ σ : Assignment Value) : Assignment Value :=
  fun V => if V.Old P then τ V else σ V

/-- The old names are those of the first state. -/
theorem oldNames_old (hV : V.Old P) : τ V = oldNames P τ σ V := (if_pos hV).symm

theorem Extends.erased_enter (h : Extends P P') (hBB : BB < P.blocks.length)
    (hσ : ∀ U, U.Old P → τ U = σ U) : Erased P (enter P' BB τ) (enter P BB σ) := by
  refine ⟨rfl, ?_, hσ⟩
  show (P.block BB).insts.filter _ = _
  rw [← h.insts BB hBB, enter, List.filter_filter, List.filter_filter]
  refine List.filter_congr fun i _ => ?_
  by_cases hi : i < P.insts.length
  · simp [hi, h.inst i hi]
  · simp [hi]

theorem Erased.trans (h : Extends P P') {r : MachineState} (hr : Erased P' r t)
    (ht : Erased P t s) : Erased P r s where
  block := ht.block.trans hr.block
  rest := by
    rw [ht.rest, hr.rest, List.filter_filter]
    refine List.filter_congr fun i _ => ?_
    have hle := h.length_insts
    by_cases hi : i < P.insts.length
    · simp [hi, hi.trans_le hle]
    · simp [hi]
  env V hV := (hr.env V (h.old hV)).trans (ht.env V hV)

/-- A step of the instrumented function is a step of the function, or one of a new
instruction. -/
theorem Extends.erase_step (hP : Closed P) (h : Extends P P') (hssa : SSAForm P entry F)
    (he : Erased P t s)
    (hstep : ForwardStep DL P' Backedges (Means DL P') t t') :
    Erased P t' s ∨
      ∃ s', ForwardStep DL P Backedges (Means DL P) s s' ∧ Erased P t' s' := by
  obtain ⟨hstep, hback⟩ := hstep
  obtain ⟨hblock, hrest, henv⟩ := he
  obtain ⟨B, rest, σ⟩ := s
  obtain rfl : B = t.block := hblock
  subst hrest
  cases hstep with
  | @exec BB i is τ τ' hi hτ =>
    by_cases hlt : i < P.insts.length
    · refine .inr ⟨⟨BB, is.filter (· < P.insts.length), oldNames P τ' σ⟩, ⟨?_, ?_⟩, rfl, rfl,
        fun V hV => oldNames_old hV⟩
      · rw [List.filter_cons_of_pos (by simpa using hlt)]
        refine .exec ((h.means hP hssa.constant hlt henv fun V hV => oldNames_old hV).mp hi) ?_
        intro V hV
        unfold oldNames
        split
        · rename_i hold
          rw [← hτ V hV]
          exact (henv V hold).symm
        · rfl
      · intro hnil
        rw [List.filter_cons_of_pos (by simpa using hlt)] at hnil
        cases hnil
    · -- the name of the new instruction is not there
      refine .inl ⟨rfl, ?_, fun V hV => ?_⟩
      · simp only [List.filter_cons, decide_eq_false hlt]
        rfl
      · have hne : V ≠ .inst i := by
          rintro rfl
          exact hlt (hV i rfl)
        exact (hτ V hne).symm.trans (henv V hV)
  | @edge Pred BB k τ τ' hsucc htakes hphis hτ =>
    rw [h.termOp hP] at hsucc htakes
    have hPred := (hssa.succ_iff_pred Pred BB).mp (List.mem_of_getElem? hsucc)
    have hBB : BB < P.blocks.length := by
      by_contra hBB
      rw [block_of_le (Nat.not_lt.mp hBB)] at hPred
      cases hPred
    refine .inr ⟨enter P BB (oldNames P τ' σ), ⟨.edge hsucc ?_ ?_ fun V hV => ?_, hback⟩,
      h.erased_enter hBB fun V hV => oldNames_old hV⟩
    · exact (h.takes hssa.constant henv fun V => hP.operand_old).mp htakes
    · exact h.phiValues hP hssa.constant henv (fun V hV => oldNames_old hV) hBB hphis
    · unfold oldNames
      split
      · rename_i hold
        rw [← hτ V]
        · exact (henv V hold).symm
        · rintro j hj hphi rfl
          have hlt := hold j rfl
          rw [h.inst j hlt] at hphi
          refine hV j ?_ hphi rfl
          rw [← h.insts BB hBB]
          exact List.mem_filter.mpr ⟨hj, by simpa using hlt⟩
      · rfl

/-- Every run of the instrumented function is a run of the function, without the new
instructions. -/
theorem Extends.erase_run (hP : Closed P) (h : Extends P P') (hssa : SSAForm P entry F)
    (hentry : entry < P.blocks.length)
    (ht : ForwardRuns DL P' Backedges (Means DL P') entry σ₀ t) :
    ∃ s, ForwardRuns DL P Backedges (Means DL P) entry σ₀ s ∧ Erased P t s := by
  unfold ForwardRuns at ht
  induction ht with
  | refl => exact ⟨_, .refl, h.erased_enter hentry fun _ _ => rfl⟩
  | tail _ hstep ih =>
    obtain ⟨s, hs, he⟩ := ih
    rcases h.erase_step hP hssa he hstep with he' | ⟨s', hs', he'⟩
    · exact ⟨s, hs, he'⟩
    · exact ⟨s', hs.tail hs', he'⟩

/-! ## With a new instruction -/

/-- In every state, the instruction can run. -/
def Runnable (DL : DataLayout) (P : Program) (i : InstId) : Prop :=
  ∀ σ, ∃ σ', Means DL P i σ σ' ∧ ∀ V, V ≠ .inst i → σ V = σ' V

/-- The state of the instrumented function: the new instruction runs before `ip`. -/
structure Lifts (P : Program) (ip : InstId) (s t : MachineState) : Prop where
  block : t.block = s.block
  rest : t.rest = splice ip P.insts.length s.rest
  env : ∀ V, V ≠ .inst P.insts.length → t.env V = s.env V

/-- The names of one state, but for one name that is as in another one. -/
def exceptName (i : InstId) (τ σ : Assignment Value) : Assignment Value :=
  fun V => if V = .inst i then τ V else σ V

theorem exceptName_ne (hV : V ≠ .inst i) : exceptName i τ σ V = σ V := if_neg hV

theorem exceptName_self : exceptName i τ σ (.inst i) = τ (.inst i) := if_pos rfl

theorem Value.Old.ne (hV : V.Old P) : V ≠ .inst P.insts.length := by
  rintro rfl
  exact lt_irrefl _ (hV _ rfl)

/-- A state that is lifted is the state without the new instruction. -/
theorem Lifts.erased (h : Lifts P ip s t) (hs : ∀ i ∈ s.rest, i < P.insts.length) :
    Erased P t s where
  block := h.block.symm
  rest := by
    have hnew : P.insts.length ∉ s.rest := fun hmem => lt_irrefl _ (hs _ hmem)
    rw [h.rest]
    refine (filter_splice (x := ip) hnew).symm.trans (List.filter_congr fun i hi => ?_)
    rcases mem_splice.mp hi with hi | ⟨rfl, -⟩
    · simp [hs i hi, (hs i hi).ne]
    · simp
  env V hV := h.env V hV.ne

/-- The new instruction runs when it is the next one. -/
theorem Runnable.step (h : Runnable DL P i) (B : BlockId) (is : List InstId)
    (τ : Assignment Value) : ∃ τ', (∀ V, V ≠ .inst i → τ V = τ' V) ∧
      ForwardStep DL P Backedges (Means DL P) ⟨B, i :: is, τ⟩ ⟨B, is, τ'⟩ := by
  obtain ⟨τ', hmeans, hτ⟩ := h τ
  exact ⟨τ', hτ, .exec hmeans hτ, nofun⟩

section Lift

variable (hP : Closed P) (hentry : entry < P.blocks.length)
  (hip : InsertionPoint P ip) (hphi : op.isPhi = false)
include hP

/-- An old instruction runs as before. -/
theorem exec_old (hconst : ∀ c, ∀ U ∈ (P.const c).operands, U.isConstant = true)
    (hi : i < P.insts.length) {B : BlockId} {is : List InstId}
    (hτ : ∀ V, V ≠ .inst P.insts.length → τ V = σ V) (hmeans : Means DL P i σ σ')
    (hσ : ∀ V, V ≠ .inst i → σ V = σ' V) :
    ForwardStep DL (P.insertBefore ip ty op) Backedges (Means DL (P.insertBefore ip ty op))
      ⟨B, i :: is, τ⟩ ⟨B, is, exceptName P.insts.length τ σ'⟩ := by
  refine ⟨.exec ?_ fun V hV => ?_, nofun⟩
  · exact ((extends_insertBefore hP).means hP hconst hi (fun V hV => hτ V hV.ne)
      fun V hV => exceptName_ne hV.ne).mpr hmeans
  · by_cases hnew : V = .inst P.insts.length
    · rw [hnew, exceptName_self]
    · rw [exceptName_ne hnew, hτ V hnew, hσ V hV]

include hentry hip hphi

/-- Entering a block, before the new instruction has run. -/
theorem lifts_enter (hBB : Reachable P entry BB)
    (hσ : ∀ V, V ≠ .inst P.insts.length → τ V = σ V) :
    Lifts P ip (enter P BB σ) (enter (P.insertBefore ip ty op) BB τ) := by
  have hb := lt_of_reachable hentry hBB
  refine ⟨rfl, ?_, hσ⟩
  show (((P.insertBefore ip ty op).block BB).insts.filter _) = splice _ _ (List.filter _ _)
  have hold : ∀ i ∈ (P.block BB).insts,
      (P.insertBefore ip ty op).inst i = P.inst i := fun i hi =>
    insertBefore_inst_of_lt (hP.insts BB hb i hi)
  rw [insertBefore_insts hb, filter_splice_comm]
  · refine congrArg _ (List.filter_congr fun i hi => ?_)
    rw [hold i hi]
  · rw [insertBefore_inst_self]
    simpa using hphi
  · rw [insertBefore_inst_of_lt (hip.lt hP), hip.nonphi]
    rfl

omit hip in
/-- An edge is taken as before. The condition of the terminator and the values that come into phi
nodes are old values, and the new instruction is not a phi node. -/
theorem edge_old (hssa : SSAForm P entry F) (hBB : Reachable P entry BB)
    (hτ : ∀ V, V ≠ .inst P.insts.length → τ V = σ V)
    (hsucc : (P.inst (P.block Pred).term).op.successors[k]? = some BB)
    (htakes : Takes DL P σ (P.inst (P.block Pred).term).op k)
    (hphis : PhiValues DL P σ σ' Pred BB)
    (hσ : ∀ V, (∀ i ∈ (P.block BB).insts, (P.inst i).op.isPhi = true → V ≠ .inst i) →
      σ V = σ' V) :
    Step DL (P.insertBefore ip ty op) (Means DL (P.insertBefore ip ty op)) ⟨Pred, [], τ⟩
      (enter (P.insertBefore ip ty op) BB (exceptName P.insts.length τ σ')) := by
  have hext : Extends P (P.insertBefore ip ty op) := extends_insertBefore hP
  have hb := lt_of_reachable hentry hBB
  have hτ' : ∀ V, V.Old P → exceptName P.insts.length τ σ' V = σ' V := fun V hV =>
    exceptName_ne hV.ne
  have hmem : ∀ i ∈ ((P.insertBefore ip ty op).block BB).insts,
      ((P.insertBefore ip ty op).inst i).op.isPhi = true → i ∈ (P.block BB).insts := by
    intro i hi hiphi
    rw [insertBefore_insts hb] at hi
    rcases mem_splice.mp hi with hi | ⟨rfl, -⟩
    · exact hi
    · rw [insertBefore_inst_self] at hiphi
      exact absurd hiphi (ne_true_of_eq_false hphi)
  refine .edge (by rw [hext.termOp hP]; exact hsucc) ?_ ?_ fun V hV => ?_
  · rw [hext.termOp hP]
    exact (hext.takes hssa.constant (fun V hV => hτ V hV.ne) fun V => hP.operand_old).mpr htakes
  · intro i hi incoming V hinc hV hundef hty
    have hi' := hmem i hi (by rw [hinc]; rfl)
    have hlt := hP.insts BB hb i hi'
    rw [hext.inst i hlt] at hinc
    have hold : V.Old P := hP.operand_old (i := i) (by
      rw [hinc]
      exact List.mem_map_of_mem (incoming_mem hV))
    rw [hext.undef hold] at hty
    obtain ⟨x, hx, hleaf⟩ := hphis i hi' incoming V hinc hV hundef hty
    refine ⟨x, (hext.current_iff hssa.constant (fun V hV => hτ V hV.ne) hold).mpr hx, ?_⟩
    rwa [hext.leafValue hτ' fun j hj => Value.inst.inj hj ▸ hlt]
  · by_cases hnew : V = .inst P.insts.length
    · rw [hnew, exceptName_self]
    · rw [exceptName_ne hnew, hτ V hnew]
      refine hσ V fun i hi hiphi => hV i (hext.mem_insts hb hi) ?_
      rwa [hext.inst i (hP.insts BB hb i hi)]

variable (hssa : SSAForm P entry F) (hord : OrderedUses P entry)
  (hrun : Runnable DL (P.insertBefore ip ty op) P.insts.length)
include hssa hord hrun

/-- A step of the function is one of the instrumented function, where the new instruction
may have to run before. -/
theorem lift_step (hs : ForwardRuns DL P Backedges (Means DL P) entry σ₀ s)
    (hl : Lifts P ip s t) (hstep : ForwardStep DL P Backedges (Means DL P) s s') :
    ∃ t', Relation.ReflTransGen (ForwardStep DL (P.insertBefore ip ty op) Backedges
      (Means DL (P.insertBefore ip ty op))) t t' ∧ Lifts P ip s' t' := by
  have hsettled := hs.runs.settled hssa hord fun _ _ _ h => h
  have hreach := hs.runs.reachable hssa
  obtain ⟨hstep, hback⟩ := hstep
  obtain ⟨B, rest, τ⟩ := t
  obtain ⟨rfl, hrest, hτ⟩ := hl
  cases hstep with
  | @exec BB i is σ σ' hi hσ =>
    have hlt := lt_of_mem_insts hP hentry hreach (hsettled.mem_rest List.mem_cons_self).1
    by_cases hiip : i = ip
    · subst hiip
      obtain rfl : rest = _ := hrest.trans splice_self
      obtain ⟨τ', hτ', hnew⟩ := hrun.step BB (i :: splice i P.insts.length is) τ
      have hτ'' : ∀ V, V ≠ .inst P.insts.length → τ' V = σ V :=
        fun V hV => (hτ' V hV).symm.trans (hτ V hV)
      refine ⟨_, .tail (.single hnew) (exec_old hP hssa.constant hlt hτ'' hi hσ), rfl, rfl, ?_⟩
      exact fun V hV => exceptName_ne hV
    · obtain rfl : rest = _ := hrest.trans (splice_of_ne hiip)
      exact ⟨_, .single (exec_old hP hssa.constant hlt hτ hi hσ), rfl, rfl,
        fun V hV => exceptName_ne hV⟩
  | @edge Pred BB k σ σ' hsucc htakes hphis hσ =>
    obtain rfl : rest = [] := hrest
    have hBB := hreach.step ((hssa.succ_iff_pred Pred BB).mp (List.mem_of_getElem? hsucc))
    exact ⟨_, .single ⟨edge_old hP hentry hphi hssa hBB hτ hsucc htakes hphis hσ, hback⟩,
      lifts_enter hP hentry hip hphi hBB fun V hV => exceptName_ne hV⟩

/-- Every run of the function is one of the instrumented function. -/
theorem lift_run (hs : ForwardRuns DL P Backedges (Means DL P) entry σ₀ s) :
    ∃ t, ForwardRuns DL (P.insertBefore ip ty op) Backedges
      (Means DL (P.insertBefore ip ty op)) entry σ₀ t ∧ Lifts P ip s t := by
  unfold ForwardRuns at hs
  induction hs with
  | refl => exact ⟨_, .refl, lifts_enter hP hentry hip hphi .start fun _ _ => rfl⟩
  | tail hs hstep ih =>
    obtain ⟨t, ht, hl⟩ := ih
    obtain ⟨t', ht', hl'⟩ := lift_step hP hentry hip hphi hssa hord hrun hs hl hstep
    exact ⟨t', ht.trans ht', hl'⟩

end Lift

end Kint
