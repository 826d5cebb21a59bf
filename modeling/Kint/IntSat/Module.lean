import Kint.IntSat.Complete

/-!
# `IntSat` on a module

`runOnModule` looks `int.sat` up by its name and runs over the functions that have a body.  For
each of them the back edges are computed anew and the reported conditions are forgotten, so that
a condition is suppressed only by the calls before it in its own function.  A module that does
not declare `int.sat` has nothing to report.

The main result, `runOnModule_exact`, has two parts.

* When the pass ends, its output is that of the functions, one after the other, and a call of a
  function is in it exactly if it is to be reported (`ToReport`): it is checked at all, that is,
  it passes a condition that is no constant, its location is known and it has `bug` metadata
  (`IsSuspect`); its condition can be true in its block; the timer does not kill the child
  process of its query before the report; and no call before it in the function passes the same
  condition and was found satisfiable.
* The pass ends: on functions without dead blocks it returns, given enough fuel, if no assertion
  fails in the process itself (`AssertionsHold`).

Nothing is assumed of the edges here.  Where the edges that are not back edges form a cycle, the
path condition is not made at all, and the pass does not end.
-/

namespace Kint.IntSat

open Iteration Memo SMT PathGen ValueGen

/-! ## Loops over the functions -/

/-- What comes of a loop that collects results. -/
theorem mapM_eq_ok {ε α β : Type} {f : α → Except ε β} {l : List α} {rs : List β} :
    l.mapM f = .ok rs ↔ List.Forall₂ (fun a r => f a = .ok r) l rs := by
  induction l generalizing rs with
  | nil =>
    constructor
    · intro h
      obtain rfl := Except.ok.inj h
      exact .nil
    · rintro ⟨⟩
      rfl
  | cons a l ih =>
    rw [List.mapM_cons, bind_eq_ok]
    constructor
    · rintro ⟨r, hr, h⟩
      obtain ⟨rs', hrs, h⟩ := bind_eq_ok.mp h
      obtain rfl := Except.ok.inj h
      exact .cons hr (ih.mp hrs)
    · rintro (_ | ⟨hr, hrs⟩)
      exact ⟨_, hr, bind_eq_ok.mpr ⟨_, ih.mpr hrs, rfl⟩⟩

/-- Such a loop returns if each of its steps does, given enough fuel. -/
theorem mapM_returns {ε α β : Type} {f : ℕ → α → Except ε β} {l : List α}
    (h : ∀ a ∈ l, ∃ N, ∀ n, N ≤ n → ∃ r, f n a = .ok r) :
    ∃ N, ∀ n, N ≤ n → ∃ rs, l.mapM (f n) = .ok rs := by
  induction l with
  | nil => exact ⟨0, fun n _ => ⟨[], rfl⟩⟩
  | cons a l ih =>
    obtain ⟨N, hN⟩ := h a List.mem_cons_self
    obtain ⟨M, hM⟩ := ih fun b hb => h b (List.mem_cons_of_mem a hb)
    refine ⟨max N M, fun n hn => ?_⟩
    obtain ⟨r, hr⟩ := hN n (le_of_max_le_left hn)
    obtain ⟨rs, hrs⟩ := hM n (le_of_max_le_right hn)
    exact ⟨r :: rs, by rw [List.mapM_cons, hr, ok_bind, hrs, ok_bind]; rfl⟩

section Module

variable {DL : DataLayout} {P : Program} {intrange : InstId → Option (List (APInt × APInt))}
  {findFunctionBackedges : FuncId → List (BlockId × BlockId)} {C : Config} {M : Module}
  {Trap : FuncId} {n : ℕ} {reports : List BugReport}

variable (P M) in
/-- The functions that the pass runs on, those with a body. -/
def bodies : List FuncId := M.functions.filter fun F => !(P.func F).empty

variable (P M) in
/-- `M.getFunction("int.sat")` -/
def trap? : Option FuncId := M.functions.find? fun F => (P.func F).name = "int.sat"

/-- Without a declaration of `int.sat` there is no report. -/
theorem runOnModule_none (h : trap? P M = none) :
    runOnModule DL P intrange findFunctionBackedges C n M = .ok [] := by
  unfold trap? at h
  unfold runOnModule
  rw [h]

/-- With one, the functions that have a body are treated one after the other. -/
theorem runOnModule_some (h : trap? P M = some Trap) :
    runOnModule DL P intrange findFunctionBackedges C n M =
      (do
        let reports ← (bodies P M).mapM fun F =>
          runOnFunction DL P intrange (findFunctionBackedges F) C Trap n F
        return reports.flatten) := by
  unfold trap? at h
  unfold runOnModule
  rw [h]
  rfl

/-- The output of the pass is that of the functions. Each function gets its own back edges, and the
result of one has no influence on that of another. -/
theorem runOnModule_eq_ok (h : trap? P M = some Trap)
    (hrun : runOnModule DL P intrange findFunctionBackedges C n M = .ok reports) :
    ∃ reportsOf : FuncId → List BugReport, reports = (bodies P M).flatMap reportsOf ∧
      ∀ F ∈ bodies P M, runOnFunction DL P intrange (findFunctionBackedges F) C Trap n F =
        .ok (reportsOf F) := by
  rw [runOnModule_some h] at hrun
  obtain ⟨rs, hrs, hrun⟩ := bind_eq_ok.mp hrun
  obtain rfl := Except.ok.inj hrun
  let reportsOf : FuncId → List BugReport := fun F =>
    (runOnFunction DL P intrange (findFunctionBackedges F) C Trap n F).toOption.getD []
  have hparts : ∀ {l rs}, List.Forall₂ (fun F r =>
      runOnFunction DL P intrange (findFunctionBackedges F) C Trap n F = .ok r) l rs →
      rs = l.map reportsOf ∧ ∀ F ∈ l,
        runOnFunction DL P intrange (findFunctionBackedges F) C Trap n F =
          .ok (reportsOf F) := by
    intro l rs hall
    induction hall with
    | nil => exact ⟨rfl, fun F hF => absurd hF List.not_mem_nil⟩
    | @cons F r l rs hr _ ih =>
      have hF : reportsOf F = r := by
        simp only [reportsOf, hr]
        rfl
      obtain ⟨hmap, hrun⟩ := ih
      refine ⟨by rw [List.map_cons, hF, hmap], fun G hG => ?_⟩
      rcases List.mem_cons.mp hG with rfl | hG
      · rw [hF, hr]
      · exact hrun G hG
  obtain ⟨hmap, hrun⟩ := hparts (mapM_eq_ok.mp hrs)
  refine ⟨reportsOf, ?_, hrun⟩
  rw [hmap, List.flatMap_def]

/-- With a solver that decides its queries, `IntSat` reports of each function of a module the
calls of `int.sat` that are to be reported, and no others; none of its conditions is reported
twice, unless a timer strikes between the report and the end of the process.  On functions
without dead blocks the pass ends, unless an assertion fails. -/
theorem runOnModule_exact (hsolver : C.solver.Decides) :
    (∀ n reports, runOnModule DL P intrange findFunctionBackedges C n M = .ok reports →
      ∃ reportsOf : FuncId → List BugReport, reports = (bodies P M).flatMap reportsOf ∧
        ∀ F ∈ bodies P M,
          ((∀ I, C.SMTTimeoutOpt = 0 ∨ C.timer I ≠ .strikes true) →
            ((reportsOf F).map fun r => (P.inst r.call).op.operands.head?).Nodup) ∧
          ∀ I, I ∈ (reportsOf F).map BugReport.call ↔ ∃ Trap, trap? P M = some Trap ∧
            ToReport DL P intrange (findFunctionBackedges F) C Trap F I) ∧
    ((∀ F ∈ bodies P M, ∃ entry, Analysable P (findFunctionBackedges F) entry F) →
      (∀ Trap, trap? P M = some Trap → ∀ F ∈ bodies P M, ∀ I ∈ P.instsOf F,
        P.calledFunction I = some Trap →
          AssertionsHold DL P intrange (findFunctionBackedges F) C I) →
      ∃ N, ∀ n, N ≤ n → ∃ reports,
        runOnModule DL P intrange findFunctionBackedges C n M = .ok reports) := by
  cases hTrap : trap? P M with
  | none =>
    refine ⟨fun n reports h => ?_, fun _ _ => ⟨0, fun n _ => ⟨[], runOnModule_none hTrap⟩⟩⟩
    obtain rfl := Except.ok.inj (h.symm.trans (runOnModule_none hTrap))
    refine ⟨fun _ => [], by simp, fun F _ => ⟨fun _ => List.nodup_nil, fun I => ?_⟩⟩
    refine iff_of_false List.not_mem_nil ?_
    rintro ⟨Trap, h, -⟩
    cases h
  | some Trap =>
    constructor
    · intro n reports h
      obtain ⟨reportsOf, hreports, hrun⟩ := runOnModule_eq_ok hTrap h
      refine ⟨reportsOf, hreports, fun F hF => ⟨fun htimer => ?_, fun I => ?_⟩⟩
      · exact reports_nodup htimer (hrun F hF)
      · rw [mem_reports_iff hsolver (hrun F hF)]
        simp only [Option.some_inj, exists_eq_left']
    · intro hF hassert
      obtain ⟨N, hN⟩ := mapM_returns fun F (h : F ∈ bodies P M) => by
        obtain ⟨entry, hentry⟩ := hF F h
        exact runOnFunction_returns hentry (hassert Trap rfl F h)
      refine ⟨N, fun n hn => ?_⟩
      obtain ⟨rs, hrs⟩ := hN n hn
      exact ⟨rs.flatten, by rw [runOnModule_some hTrap, hrs]; rfl⟩

end Module

/-- The module of `quotientProgram`. -/
def quotientModule : Module where
  identifier := "a.c"
  globals := []
  functions := [0, 1]

theorem quotient_trap : trap? quotientProgram quotientModule = some 1 := by decide +kernel

theorem quotient_bodies : bodies quotientProgram quotientModule = [0] := rfl

/-- The division is reported, whatever the fuel from some point on. -/
theorem quotient_reported : ∃ N, ∀ n, N ≤ n → ∃ reports,
    runOnModule fieldLayout quotientProgram (fun _ => none) (fun _ => []) quotientConfig n
      quotientModule = .ok reports ∧ 3 ∈ reports.map BugReport.call := by
  obtain ⟨hexact, hreturns⟩ := @runOnModule_exact fieldLayout quotientProgram (fun _ => none)
    (fun _ => []) quotientConfig quotientModule idealSolver_decides
  have hbody : ∀ F ∈ bodies quotientProgram quotientModule, F = 0 :=
    fun F hF => List.mem_singleton.mp (quotient_bodies ▸ hF)
  obtain ⟨N, hN⟩ := hreturns
    (fun F hF => hbody F hF ▸ ⟨0, quotient_analysable⟩)
    (fun Trap hTrap F hF I hI hcall => by
      obtain rfl := hbody F hF
      obtain rfl := Option.some.inj (quotient_trap.symm.trans hTrap)
      exact quotient_assertions I hI hcall)
  refine ⟨N, fun n hn => ?_⟩
  obtain ⟨reports, hreports⟩ := hN n hn
  obtain ⟨reportsOf, rfl, hF⟩ := hexact n reports hreports
  refine ⟨_, hreports, ?_⟩
  obtain ⟨-, hcalls⟩ := hF 0 (by rw [quotient_bodies]; exact List.mem_cons_self)
  rw [quotient_bodies, List.flatMap_singleton]
  exact (hcalls 3).mpr ⟨1, quotient_trap, quotient_toReport⟩

end Kint.IntSat
