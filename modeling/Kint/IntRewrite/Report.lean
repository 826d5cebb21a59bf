import Kint.IntRewrite.Correct
import Kint.IntSat.Complete

/-!
# From `IntRewrite` to a report

`IntSat` runs on the instrumented function.  When a run of the function without back edges comes
to the point of a check and the operation has a bug there, the run of the instrumented function
comes to the call, which passes a true condition, so the bug is reported (`bug_reported`).

## The way from the run to the report

* The run of the function is one of the instrumented function, up to the call (`Inserted`, in
  `Kint.IntRewrite.Insert`), and it takes no back edge either.
* The condition that the call passes is true there (`Inserted.condition`, in
  `Kint.IntRewrite.Correct`).
* The call is asked for, unless its condition was folded into a constant
  (`isSuspect_of_inserted`).  A folded condition may be constantly true; `IntSat` passes over it
  all the same.
* `IntSat` ends on the instrumented function, since it has the blocks, the edges and the
  constants of the function (`Instruments.analysable`), and what it finds satisfiable it reports
  (`mem_reports_of_run`, in `Kint.IntSat.Complete`).

## What is asked of `IntSat`

`Answers` collects the conditions on a call for which a report can be promised: there is a
location and a `bug`, and with a time limit the timer leaves the answer and the formulas can be
made.  The report may come from an earlier call that passes the same condition.
-/

namespace Kint.IntRewrite

open Iteration Memo SMT PathGen ValueGen

section Facts

variable {C : Config} {K : IntSat.Config} {DL : DataLayout} {P Q : Program}
  {Backedges : List (BlockId × BlockId)} {intrange : InstId → Option (List (APInt × APInt))}
  {entry : BlockId} {F : FuncId} {c : IntSatCall} {s : Rewrite} {I : InstId} {check : Built}
  {fuel n : ℕ} {σ τ : Assignment Value}

/-! ## The instrumented function for `IntSat` -/

/-- The new instructions have no range metadata. -/
theorem metadataHolds_extends (h : Extends P Q)
    (hnew : ∀ i, P.insts.length ≤ i → intrange i = none) (hσ : ∀ V, V.Old P → τ V = σ V)
    (hranges : CmpSat.MetadataHolds DL P intrange σ) :
    CmpSat.MetadataHolds DL Q intrange τ := by
  intro i MD w hMD hw Lo Hi hmem hne
  have hi : i < P.insts.length := by
    by_contra hi
    rw [hnew i (Nat.not_lt.mp hi)] at hMD
    cases hMD
  have hold : (Value.inst i).Old P := fun j hj => Value.inst.inj hj ▸ hi
  rw [h.typeOf hold] at hw
  rw [hσ _ hold]
  exact hranges i MD w hMD hw Lo Hi hmem hne

/-- An inserted call is asked for, unless its condition was folded. -/
theorem isSuspect_of_inserted {Q : Program}
    (hc : Inserted C.toCompiler (IsCheck C P) DL P Backedges entry Q c)
    (hfold : constantInt? c.cond = none) (hunknown : K.isUnknown c.call = false)
    (hbug : (K.bug c.call).isSome = true) : IntSat.IsSuspect Q K C.intSat c.call c.cond := by
  obtain ⟨Bug, hBug⟩ := Option.isSome_iff_exists.mp hbug
  refine ⟨?_, Bug, ?_⟩
  · simp only [Program.calledFunction, hc.op]
  · simp only [IntSat.suspect, hc.op, hc.ty, hfold, hunknown, hBug, if_true, Option.isSome_none,
      Bool.false_eq_true, if_false, Option.map_some]

/-- Only the values of the operands matter. -/
theorem Buggy.congr {v v' : Value → Option APInt}
    (h : ∀ V ∈ (P.inst I).op.operands, v' V = v V) (hbug : Buggy C P v I) : Buggy C P v' I := by
  unfold Buggy at hbug ⊢
  cases hop : (P.inst I).op with
  | binary op L R =>
    rw [hop] at h hbug
    obtain ⟨w, x, y, hL, hR, hbug⟩ := hbug
    exact ⟨w, x, y, (h L (by simp [Opcode.operands])).trans hL,
      (h R (by simp [Opcode.operands])).trans hR, hbug⟩
  | gep base idx =>
    rw [hop] at hbug
    obtain ⟨s, hs, n, elem, x, hT, hx, hfires⟩ := hbug
    exact ⟨s, hs, n, elem, x, hT, (h s.2 (gepSteps_mem hs)).trans hx, hfires⟩
  | _ =>
    rw [hop] at hbug
    exact hbug

/-! ## Reports -/

/-- The instrumented function has the blocks, the edges and the constants of the function, so
the generators of `IntSat` come to an end on it as well. -/
theorem Instruments.analysable (hQ : Instruments DL P Backedges entry F Q)
    (h : Analysable P Backedges entry F) : Analysable Q Backedges entry F where
  ssa := hQ.ssa
  ord := hQ.ord
  blocks BB := by
    rw [hQ.ext.func, hQ.ext.reachable]
    exact h.blocks BB
  pred Pred BB hedge hBB := by
    rw [Edge, hQ.ext.preds] at hedge
    rw [hQ.ext.reachable] at hBB ⊢
    exact h.pred Pred BB hedge hBB
  backedges := by
    have hedge : Edge Q = Edge P := by
      funext Pred BB
      rw [Edge, Edge, hQ.ext.preds]
    rw [hedge]
    exact h.backedges
  constants c := by
    have hacc : ∀ V, Acc (fun U V => Operand P V U) V → V.isConstant = true →
        Acc (fun U V => Operand Q V U) V := by
      intro V hV
      induction hV with
      | intro V _ ih =>
        refine fun hconst => ⟨_, fun U hU => ?_⟩
        cases hU with
        | inst => cases hconst
        | @const c _ hmem =>
          rw [Program.const, hQ.ext.consts] at hmem
          exact ih U (.const hmem) (h.ssa.constant c U hmem)
    exact hacc _ (h.constants c) rfl

/-- `IntSat` answers the query of a call: its location is known, it has `bug` metadata, and
there is no time limit, or the time suffices and the formulas can be made. -/
structure Answers (K : IntSat.Config) (DL : DataLayout) (Q : Program)
    (intrange : InstId → Option (List (APInt × APInt))) (Backedges : List (BlockId × BlockId))
    (c : IntSatCall) : Prop where
  known : K.isUnknown c.call = false
  bug : (K.bug c.call).isSome = true
  query : K.SMTTimeoutOpt = 0 ∨ K.timer c.call ≠ .strikes false ∧
    IntSat.Expressible DL Q intrange Backedges c.cond (Q.inst c.call).parent

/-- With a solver that decides its queries, a bug that is checked for is reported: when a run
of the function without back edges comes to the point of an inserted call, and the operation
that the call is about has a bug on the values that its operands have there, then `IntSat`
reports the call on the instrumented function, or another one that passes the same condition,
if it answers the query of the call and the builder did not fold the condition to true.  The
report is there when `IntSat` ends, and on a function without dead blocks it ends.  And each
division, shift, address computation with an array index and, without `-fwrapv`, each operation
with the flag `nsw` has a call whose point is the instruction itself. -/
theorem bug_reported (hentry : entry < P.blocks.length) (hP : Verified P)
    (hC : C.Sound DL P entry) (hssa : SSAForm P entry F) (hord : OrderedUses P entry)
    (h : runOnFunction C fuel P F = .ok s)
    (hdistinct : ∀ BB, Reachable P entry BB → DistinctTargets (P.inst (P.block BB).term).op)
    (hblocks : ∀ BB, Reachable P entry BB → BB ∈ (P.func F).blocks)
    (hnew : ∀ i, P.insts.length ≤ i → intrange i = none) (hsolver : K.solver.Decides) :
    (∀ c ∈ s.calls, Answers K DL s.prog intrange Backedges c →
      ∀ σ₀ u, ForwardRuns DL P Backedges (Means DL P) entry σ₀ u →
      u.rest.head? = some c.point → CmpSat.MetadataHolds DL P intrange u.env →
      Buggy C P (current DL P u.env) c.about → c.cond = .constInt (.ofBool true) ∨
        (∀ n reports, IntSat.runOnFunction DL s.prog intrange Backedges K C.intSat n F =
            .ok reports → ∃ r ∈ reports, IntSat.IsSuspect s.prog K C.intSat r.call c.cond) ∧
        (Analysable P Backedges entry F →
          (∀ J ∈ s.prog.instsOf F, s.prog.calledFunction J = some C.intSat →
            IntSat.AssertionsHold DL s.prog intrange Backedges K J) →
          ∃ N, ∀ n, N ≤ n → ∃ reports,
            IntSat.runOnFunction DL s.prog intrange Backedges K C.intSat n F = .ok reports ∧
            ∃ r ∈ reports, IntSat.IsSuspect s.prog K C.intSat r.call c.cond)) ∧
    ∀ I ∈ P.instsOf F, ∀ check, checkOf C P I = some check → isDeferred C P I = false →
      ∃ c ∈ s.calls, c.about = I ∧ c.point = I := by
  obtain ⟨hvalid, heager⟩ := runOnFunction_spec DL Backedges hentry hP hC hssa hord h
  refine ⟨fun c hc hanswers σ₀ u hu hhead hranges hbug => ?_, heager⟩
  have hQ := hvalid.instruments
  have hcall := hvalid.calls c hc
  -- the run of the instrumented function comes to the call with the same values
  obtain ⟨t, ht, -, hhead', henv⟩ := hcall.comes σ₀ u hu hhead
  obtain ⟨b, hcond, hb⟩ := hcall.condition hP hssa hQ ht hhead'
  obtain rfl : b = true := hb.mpr (hbug.congr fun V hV =>
    (Extends.refl hP.toClosed).current hssa.constant henv (hP.toClosed.operand_old hV))
  cases hfold : constantInt? c.cond with
  | some x =>
    obtain hx := constantInt?_eq_some.mp hfold
    rw [hx, current_constInt] at hcond
    rw [hx, Option.some.inj hcond]
    exact .inl rfl
  | none =>
    obtain ⟨is, his⟩ := List.head?_eq_some_iff.mp hhead'
    have hsuspect : IntSat.IsSuspect s.prog K C.intSat c.call c.cond :=
      isSuspect_of_inserted hcall hfold hanswers.known hanswers.bug
    have hdistinct' : ∀ BB, Reachable s.prog entry BB →
        DistinctTargets (s.prog.inst (s.prog.block BB).term).op := by
      intro BB hBB
      rw [hQ.ext.termOp hP.toClosed]
      exact hdistinct BB (hQ.ext.reachable.mp hBB)
    have hblocks' : ∀ BB, Reachable s.prog entry BB → BB ∈ (s.prog.func F).blocks := by
      intro BB hBB
      rw [hQ.ext.func]
      exact hblocks BB (hQ.ext.reachable.mp hBB)
    have hreported : ∀ n reports, IntSat.runOnFunction DL s.prog intrange Backedges K C.intSat n
        F = .ok reports → ∃ r ∈ reports, IntSat.IsSuspect s.prog K C.intSat r.call c.cond :=
      fun n reports hrun => IntSat.mem_reports_of_run hQ.ssa hQ.ord (fun _ _ _ h => h) hdistinct'
        hblocks' hsolver ht his hsuspect (current_eq_some.mp hcond)
        (metadataHolds_extends hQ.ext hnew henv hranges) hanswers.query hrun
    refine .inr ⟨hreported, fun hF hassert => ?_⟩
    obtain ⟨N, hN⟩ := IntSat.runOnFunction_returns (hQ.analysable hF) hassert
    refine ⟨N, fun n hn => ?_⟩
    obtain ⟨reports, hreports⟩ := hN n hn
    exact ⟨reports, hreports, hreported n reports hreports⟩

end Facts

/-! ## A division by zero -/

/-- The two edges of the branch lead to different blocks. -/
theorem sum_distinct (BB : BlockId) (hBB : Reachable sumProgram 0 BB) :
    DistinctTargets (sumProgram.inst (sumProgram.block BB).term).op := by
  match BB, sum_blocks hBB with
  | 0, _ => exact (by decide : (1 : ℕ) ≠ 2)
  | 1, _ | 2, _ => trivial

/-- The generators of formulas come to an end on the function. -/
theorem sum_analysable : Analysable sumProgram [] 0 0 where
  ssa := sum_ssaForm
  ord := sum_orderedUses
  blocks BB := by
    constructor
    · intro hBB
      have hentry : Reachable sumProgram 0 0 := .start
      have hone : Reachable sumProgram 0 1 := hentry.step (show 0 ∈ [0] by decide)
      have htwo : Reachable sumProgram 0 2 := hone.step (show 1 ∈ [0, 1] by decide)
      rcases (show BB = 0 ∨ BB = 1 ∨ BB = 2 by
        simpa [sumProgram, Program.func] using hBB) with rfl | rfl | rfl
      · exact hentry
      · exact hone
      · exact htwo
    · intro hBB
      have hmem : ∀ BB < 3, BB ∈ (sumProgram.func 0).blocks := by decide
      exact hmem BB (sum_blocks hBB)
  pred Pred BB hedge _ := by
    have hentry : Reachable sumProgram 0 0 := .start
    rcases sum_edge hedge with ⟨rfl, -⟩ | ⟨rfl, -⟩ | ⟨rfl, -⟩
    · exact hentry
    · exact hentry
    · exact hentry.step (show 0 ∈ [0] by decide)
  backedges := by
    -- the blocks are connected like those of the division
    have hedge : Edge sumProgram = Edge IntSat.quotientProgram := by
      funext Pred BB
      rcases BB with _ | _ | _ | BB
      · rfl
      · rfl
      · rfl
      · rfl
    rw [hedge]
    exact IntSat.quotient_backEdges
  constants c := by
    refine ⟨_, fun U hU => ?_⟩
    cases hU with
    | const hmem => cases c <;> cases hmem

/-- The two calls that the pass inserts pass comparisons, whose formulas can be made. -/
theorem sum_assertions : ∀ J ∈ sumChecked.instsOf 0, sumChecked.calledFunction J = some 1 →
    IntSat.AssertionsHold fieldLayout sumChecked (fun _ => none) [] IntSat.quotientConfig J := by
  intro J hJ hcall
  have hcalls : ∀ J ∈ sumChecked.instsOf 0, sumChecked.calledFunction J = some 1 →
      J = 9 ∨ J = 7 := by decide
  have hholds : ∀ {I V Bug},
      IntSat.suspect sumChecked IntSat.quotientConfig I = .ok (some (V, Bug)) →
      (IntSat.operands fieldLayout sumChecked (fun _ => none) [] IntSat.quotientConfig 16 V
        (sumChecked.inst I).parent).isOk = true →
      IntSat.AssertionsHold fieldLayout sumChecked (fun _ => none) [] IntSat.quotientConfig I := by
    intro I V Bug hsuspect hops
    refine ⟨_, hsuspect, fun V' Bug' h => .inr ?_⟩
    obtain ⟨rfl, -⟩ := Prod.mk.inj (Option.some.inj h)
    cases hr : IntSat.operands fieldLayout sumChecked (fun _ => none) [] IntSat.quotientConfig
        16 V (sumChecked.inst I).parent with
    | ok r => exact IntSat.expressible_of_operands hr
    | error e =>
      rw [hr] at hops
      cases hops
  rcases hcalls J hJ hcall with rfl | rfl
  · exact hholds rfl (by decide +kernel)
  · exact hholds rfl (by decide +kernel)

/-- The bytes 200 and 56 add up to zero, by which a run divides. -/
theorem sum_reported : ∃ s, runOnFunction sumConfig 8 sumProgram 0 = .ok s ∧
    ∃ c ∈ s.calls, c.about = 2 ∧ ∃ N, ∀ n, N ≤ n → ∃ reports,
      IntSat.runOnFunction fieldLayout s.prog (fun _ => none) [] IntSat.quotientConfig 1 n 0 =
        .ok reports ∧
      ∃ r ∈ reports, IntSat.IsSuspect s.prog IntSat.quotientConfig 1 r.call c.cond := by
  obtain ⟨s, hs, hprog, hcalls⟩ := sum_runs
  obtain ⟨hbugs, -⟩ := @bug_reported sumConfig IntSat.quotientConfig fieldLayout sumProgram []
    (fun _ => none) 0 0 s 8 (by decide) sum_verified sum_sound sum_ssaForm sum_orderedUses
    hs sum_distinct
    (fun BB hBB => by
      have hmem : ∀ BB < 3, BB ∈ (sumProgram.func 0).blocks := by decide
      exact hmem BB (sum_blocks hBB))
    (fun _ _ => rfl) IntSat.idealSolver_decides
  have hmem : (9, 2, 2, .inst 8) ∈ s.calls.map fun c => (c.call, c.about, c.point, c.cond) := by
    simp [hcalls]
  obtain ⟨c, hc, hcall⟩ := List.mem_map.mp hmem
  simp only [Prod.mk.injEq] at hcall
  obtain ⟨-, habout, hpoint, hcond⟩ := hcall
  have hreports := (hbugs c hc ⟨rfl, rfl, .inl rfl⟩ (sumState 56) _ sum_run
    (by rw [hpoint]; rfl) (fun i MD w hMD => by cases hMD) ?_).resolve_left ?_
  · exact ⟨s, hs, c, hc, habout, hreports.2 sum_analysable (hprog ▸ sum_assertions)⟩
  · rw [habout]
    exact ⟨8, _, _, sum_argument 0 Nat.two_pos, sum_inst, rfl⟩
  · rw [hcond]
    exact nofun

end Kint.IntRewrite
