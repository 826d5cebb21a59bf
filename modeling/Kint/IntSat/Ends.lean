import Kint.IntSat.Exact
import Kint.PathGen.Termination

/-!
# `IntSat` comes to an end

What `IntSat` reports is stated in `Kint.IntSat.Exact` for the case that the pass returns.  This
module shows that it does, on functions without dead blocks (`runOnFunction_returns`): the two
formulas of each query are made by recursions that end (`Kint.PathGen.Analysable`), the solver
answers, and there is one query at most for each call of `int.sat`.

What is left is that an assertion fails.  The pass itself asserts that `int.sat` gets an `i1`.
Another one, in the code that makes the formulas, takes the whole pass down only without a time
limit; with one, it kills the child process of the query, and the pass goes on with the next
call.  `AssertionsHold` says just this, and under it the pass returns.

The bounds on the fuel are those of the queries, one for each call, and their maximum is enough
for the loop (`foldlM_returns`).
-/

namespace Kint.IntSat

open Iteration Memo SMT PathGen ValueGen

/-! ## Loops whose steps return -/

/-- A loop returns if each of its steps does, from every state, given enough fuel. -/
theorem foldlM_returns {ε α σ : Type} {f : ℕ → σ → α → Except ε σ} {l : List α}
    (h : ∀ a ∈ l, ∃ N, ∀ n, N ≤ n → ∀ s, ∃ s', f n s a = .ok s') :
    ∃ N, ∀ n, N ≤ n → ∀ s, ∃ s', l.foldlM (f n) s = .ok s' := by
  induction l with
  | nil => exact ⟨0, fun n _ s => ⟨s, rfl⟩⟩
  | cons a l ih =>
    obtain ⟨N, hN⟩ := h a List.mem_cons_self
    obtain ⟨M, hM⟩ := ih fun b hb => h b (List.mem_cons_of_mem a hb)
    refine ⟨max N M, fun n hn s => ?_⟩
    obtain ⟨t, ht⟩ := hN n (le_of_max_le_left hn) s
    obtain ⟨s', hs'⟩ := hM n (le_of_max_le_right hn) t
    exact ⟨s', by rw [List.foldlM_cons, ht, ok_bind, hs']⟩

section Query

variable {DL : DataLayout} {P : Program} {intrange : InstId → Option (List (APInt × APInt))}
  {Backedges : List (BlockId × BlockId)} {C : Config} {entry BB : BlockId} {F : FuncId}
  {V : Value} {I : InstId}

/-! ## A query -/

/-- Taking an expression as a formula may fail, but needs no fuel. -/
theorem formula_ne_fuel {E : SMTExpr Value} : E.formula ≠ .error .fuel := by
  unfold SMTExpr.formula
  split
  · exact nofun
  · exact nofun

/-- Two calls that come to an end, one after the other, and what follows them. -/
theorem gets_end {k k' : Key} {α : Type}
    (hk : Ends (PathGen.analyze DL P intrange Backedges none) (keep P Backedges none) k)
    (hk' : Ends (PathGen.analyze DL P intrange Backedges none) (keep P Backedges none) k')
    {next : SMTExpr Value × PathGen.State → SMTExpr Value × PathGen.State → Except Stop α}
    (hnext : ∀ r r', next r r' ≠ .error .fuel) :
    ∃ N, ∀ n, N ≤ n → (PathGen.get DL P intrange Backedges none n k .init >>= fun r =>
      PathGen.get DL P intrange Backedges none n k' r.2 >>= next r) ≠ .error .fuel := by
  obtain ⟨N, hN⟩ := hk
  obtain ⟨M, hM⟩ := hk'
  refine ⟨max N M, fun n hn h => ?_⟩
  rcases bind_eq_error.mp h with h | ⟨⟨E, t⟩, hE, h⟩
  · exact hN n (le_of_max_le_left hn) _ consistent_init h
  · obtain ⟨-, ht⟩ := get_sound consistent_init hE
    rcases bind_eq_error.mp h with h | ⟨r, -, h⟩
    · exact hM n (le_of_max_le_right hn) _ ht h
    · exact hnext _ r h

variable (DL intrange C) in
/-- The formulas of a query are made, or an assertion fails, given enough fuel, in either
order. -/
theorem operands_end (h : Analysable P Backedges entry F) (hBB : Reachable P entry BB)
    (hV : AvailableAt P entry BB V) :
    ∃ N, ∀ n, N ≤ n → operands DL P intrange Backedges C n V BB ≠ .error .fuel := by
  have hvalue := h.ends_value DL intrange hBB hV
  have hblock := h.ends_block DL intrange hBB
  have hformulas : ∀ (E G : SMTExpr Value) (s : PathGen.State),
      (do return (← E.formula, ← G.formula, s) : Except Stop (_ × _ × _)) ≠ .error .fuel := by
    intro E G s h
    rcases bind_eq_error.mp h with h | ⟨e, -, h⟩
    · exact formula_ne_fuel h
    · rcases bind_eq_error.mp h with h | ⟨g, -, h⟩
      · exact formula_ne_fuel h
      · cases h
  unfold operands
  split
  · exact gets_end hvalue hblock fun r r' => hformulas r.1 r'.1 r'.2
  · exact gets_end hblock hvalue fun r r' => hformulas r'.1 r.1 r'.2

variable (DL intrange C) in
/-- The query of a call of `int.sat` comes to an end. -/
theorem query_end (h : Analysable P Backedges entry F)
    (hBB : Reachable P entry (P.inst I).parent)
    (hV : AvailableAt P entry (P.inst I).parent V) :
    ∃ N, ∀ n, N ≤ n → query DL P intrange Backedges C n V I ≠ .error .fuel := by
  obtain ⟨N, hN⟩ := operands_end DL intrange C h hBB hV
  refine ⟨N, fun n hn hquery => ?_⟩
  rcases bind_eq_error.mp hquery with hops | ⟨r, -, hr⟩
  · exact hN n hn hops
  · cases hr

/-! ## The pass -/

variable (DL P intrange Backedges C) in
/-- No assertion takes the pass down at the call: it passes an `i1` and, unless the query runs
in a process of its own, its formulas can be made. -/
def AssertionsHold (I : InstId) : Prop :=
  ∃ o, suspect P C I = .ok o ∧ ∀ V Bug, o = some (V, Bug) →
    C.SMTTimeoutOpt ≠ 0 ∨ Expressible DL P intrange Backedges V (P.inst I).parent

/-- What comes of a query that ends, in the process itself or in a child process. -/
theorem forkJoin_returns {SMTTimeoutOpt : ℕ} {t : Timer} {α : Type}
    {q : Except Stop (SMTStatus × α)} (hfuel : q ≠ .error .fuel)
    (hfatal : SMTTimeoutOpt ≠ 0 ∨ q ≠ .error .fatal) :
    ∃ r, forkJoin SMTTimeoutOpt t q = .ok r := by
  unfold forkJoin
  cases q with
  | ok r =>
    split
    · exact ⟨_, rfl⟩
    · cases t with
      | spares => exact ⟨_, rfl⟩
      | strikes answered => cases answered <;> exact ⟨_, rfl⟩
  | error e =>
    cases e with
    | fuel => exact absurd rfl hfuel
    | fatal =>
      rw [if_neg (hfatal.resolve_right fun h => h rfl)]
      cases t with
      | spares => exact ⟨_, rfl⟩
      | strikes answered => cases answered <;> exact ⟨_, rfl⟩

/-- A query whose formulas can be made fails no assertion. -/
theorem query_ne_fatal {n : ℕ}
    (h : Expressible DL P intrange Backedges V (P.inst I).parent) :
    query DL P intrange Backedges C n V I ≠ .error .fatal := by
  intro hquery
  rcases bind_eq_error.mp hquery with hops | ⟨r, -, hr⟩
  · exact operands_ne_fatal h hops
  · cases hr

/-- The check of a call returns, given enough fuel, whatever was reported before. The bound on the
fuel does not depend on the reports, so the loop may use one bound for each call. -/
theorem check_returns (h : Analysable P Backedges entry F) (hI : I ∈ P.instsOf F)
    (hassert : AssertionsHold DL P intrange Backedges C I) :
    ∃ N, ∀ n, N ≤ n → ∀ s, ∃ s', check DL P intrange Backedges C n s I = .ok s' := by
  obtain ⟨o, ho, hexpr⟩ := hassert
  cases o with
  | none =>
    refine ⟨0, fun n _ s => ⟨s, ?_⟩⟩
    rw [check, ho, ok_bind]
    rfl
  | some x =>
    obtain ⟨V, Bug⟩ := x
    obtain ⟨BB, hBB, hI⟩ := List.mem_flatMap.mp hI
    have hreach := (h.blocks BB).mp hBB
    have hparent := h.ssa.inst_parent BB hreach I hI
    have hV : AvailableAt P entry (P.inst I).parent V := by
      rw [hparent]
      refine h.ssa.use BB hreach I hI ?_ V (List.mem_of_mem_head? (suspect_passes ho))
      by_contra hphi
      unfold suspect at ho
      split at ho
      · rename_i hop
        rw [hop] at hphi
        exact hphi rfl
      · cases ho
    obtain ⟨N, hN⟩ := query_end DL intrange C h
      (hparent ▸ hreach) hV
    refine ⟨N, fun n hn s => ?_⟩
    rw [check, ho, ok_bind]
    by_cases hseen : V ∈ s.ReportedBugs
    · exact ⟨s, if_pos hseen⟩
    · obtain ⟨r, hr⟩ := forkJoin_returns (t := C.timer I) (hN n hn)
        ((hexpr V Bug rfl).imp_right query_ne_fatal)
      simp only [hseen, if_false, hr, ok_bind]
      exact ⟨_, rfl⟩

/-- On a function without dead blocks the pass returns, given enough fuel, if no assertion
fails in it. -/
theorem runOnFunction_returns (h : Analysable P Backedges entry F) {Trap : FuncId}
    (hassert : ∀ I ∈ P.instsOf F, P.calledFunction I = some Trap →
      AssertionsHold DL P intrange Backedges C I) :
    ∃ N, ∀ n, N ≤ n → ∃ reports,
      runOnFunction DL P intrange Backedges C Trap n F = .ok reports := by
  obtain ⟨N, hN⟩ := foldlM_returns fun I
    (hI : I ∈ (P.instsOf F).filter fun I => P.calledFunction I = some Trap) => by
      obtain ⟨hmem, hcall⟩ := List.mem_filter.mp hI
      exact check_returns h hmem (hassert I hmem (of_decide_eq_true hcall))
  refine ⟨N, fun n hn => ?_⟩
  obtain ⟨s, hs⟩ := hN n hn ⟨[], []⟩
  exact ⟨s.out, by rw [runOnFunction, hs]; rfl⟩

end Query

end Kint.IntSat
