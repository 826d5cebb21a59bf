import Kint.IntSat.Ends
import Kint.PathGen.Forward

/-!
# `IntSat` misses no bug on runs without back edges

When a run that takes no back edge comes to a call of `int.sat` that passes a true condition,
the state of the run is an assignment under which the query is satisfiable: the term of the
condition denotes its current value, and the path condition of the block is true.  So the
condition is reported, there or at an earlier call (`runOnFunction_complete`).  In a loop this
fails: the path condition leaves out the back edges.

## The assignment of a run

`satisfiable_of_run` puts three facts together.  The terms denote what the names hold
(`termOf_denotes_current` of `Kint.PathGen.Denote`), the condition of the current block is true
(`forward_condition_true` of `Kint.PathGen.Forward`, through its lemmas), and the metadata holds
of the values of the run, which is asked of the metadata.

## From a satisfiable query to a report

A satisfiable query is told if its timer does not strike before the answer.  It is not made
where the same condition was found satisfiable before, and then the earlier call is among the
reports, since a condition is saved only after it was found (`found_of_saved`).  That the pass
returns is `runOnFunction_returns` of `Kint.IntSat.Ends`.

The example is a division by an argument, in a block that is entered when the dividend is large.
-/

namespace Kint.IntSat

open Iteration Memo SMT PathGen ValueGen

variable {DL : DataLayout} {P : Program} {intrange : InstId → Option (List (APInt × APInt))}
  {Backedges : List (BlockId × BlockId)} {C : Config} {n : ℕ} {entry : BlockId} {F : FuncId}
  {Exec : InstId → Assignment Value → Assignment Value → Prop} {σ₀ σ : Assignment Value}
  {s : MachineState} {I : InstId} {is : List InstId} {V : Value} {Trap : FuncId}

/-- Metadata that holds of all names holds of those that a query needs. -/
theorem rangesHold_of_metadata (h : CmpSat.MetadataHolds DL P intrange σ)
    {S : InstId → Prop} : RangesHold DL P intrange S σ :=
  fun i _ _ MD w hMD hw Lo Hi hmem hne => h i MD w hMD hw Lo Hi hmem hne

section Runs

variable (hssa : SSAForm P entry F) (hord : OrderedUses P entry) (hexec : ExecMeans DL P Exec)
  (hdistinct : ∀ BB, Reachable P entry BB → DistinctTargets (P.inst (P.block BB).term).op)
include hssa hord hexec hdistinct

/-- A true condition that the next instruction passes can be true in its block. -/
theorem satisfiable_of_run (hs : ForwardRuns DL P Backedges Exec entry σ₀ s)
    (hrest : s.rest = I :: is) (hV : V ∈ (P.inst I).op.operands)
    (htrue : Current DL P s.env V (.ofBool true))
    (hranges : CmpSat.MetadataHolds DL P intrange s.env)
    (hexpr : Expressible DL P intrange Backedges V (P.inst I).parent) :
    Satisfiable DL P intrange Backedges V (P.inst I).parent := by
  have hsettled := hs.runs.settled hssa hord hexec
  obtain ⟨hI, hphi⟩ := hsettled.mem_rest (hrest ▸ List.mem_cons_self)
  have hparent := hssa.inst_parent s.block (hs.runs.reachable hssa) I hI
  refine ⟨hexpr, s.env, ?_, ?_, rangesHold_of_metadata hranges⟩
  · obtain ⟨e, he⟩ := hexpr.1
    refine ⟨e, he, ?_⟩
    have hdef : DefinedAt P entry s V := by
      obtain ⟨BB, rest, σ⟩ := s
      obtain rfl : rest = I :: is := hrest
      exact hsettled.next hssa hord (.inst hphi hV)
    have heval := hsettled.denotes hssa hord hdef htrue (value_inl_iff.mp he)
    exact eq_of_heq (APInt.mk.inj heval).2
  · obtain ⟨g, hg⟩ := hexpr.2
    rw [hparent] at hg ⊢
    exact (hs.along hssa hdistinct hord hexec hg).guardedPath hssa

end Runs

/-- A suspect that is saved was found. -/
theorem found_of_saved {x : Suspect} (h : isSaved DL P intrange Backedges C n x = true) :
    (foundModel DL P intrange Backedges C n x).isSome = true := by
  obtain ⟨⟨a, r⟩, hout⟩ := outcome_of_isSaved h
  unfold isSaved at h
  rw [hout] at h
  obtain ⟨hspares, model, hquery⟩ := (forkJoin_saved hout).mp (of_decide_eq_true h)
  have hanswered : Answered C x.1 := hspares.imp_right fun hspares => by
    rw [hspares]
    exact nofun
  obtain rfl := (forkJoin_told hout).mpr ⟨hanswered, hquery⟩
  unfold foundModel
  rw [hout]
  rfl

/-- The formulas of a query without a child process exist. -/
theorem expressible_of_outcome {x : Suspect} (hzero : C.SMTTimeoutOpt = 0)
    {r : Option (SMTStatus × (Value → Option APInt)) × ℤ}
    (h : outcome DL P intrange Backedges C n x = .ok r) :
    Expressible DL P intrange Backedges x.2.1 (P.inst x.1).parent := by
  rw [outcome, forkJoin, if_pos hzero] at h
  obtain ⟨q, hquery, -⟩ := bind_eq_ok.mp h
  obtain ⟨r, hops, -⟩ := bind_eq_ok.mp hquery
  exact expressible_of_operands hops

/-- The condition of a suspect that is found is reported, at its call or at an earlier one. -/
theorem exists_report_of_found {l : List InstId} {x : Suspect}
    (hx : x ∈ l.filterMap (trapSuspect? P C Trap))
    (hfound : (foundModel DL P intrange Backedges C n x).isSome = true) :
    ∃ r ∈ (toldSuspects DL P intrange Backedges C n (l.filterMap (trapSuspect? P C Trap)) []).map
      (reportOf DL P intrange Backedges C n), IsSuspect P C Trap r.call x.2.1 := by
  have hsaved : ∀ z, isSaved DL P intrange Backedges C n z = true →
      (foundModel DL P intrange Backedges C n z).isSome = true := fun _ => found_of_saved
  have hkeys : x.2.1 ∈ ([] : List Value) ∨ ∃ y ∈ toldSuspects DL P intrange Backedges C n
      (l.filterMap (trapSuspect? P C Trap)) [], y.2.1 = x.2.1 :=
    Once.exists_told (fun x : Suspect => x.2.1) hsaved hx hfound
  obtain ⟨y, hy, hkey⟩ := hkeys.resolve_left List.not_mem_nil
  refine ⟨reportOf DL P intrange Backedges C n y, List.mem_map_of_mem hy, ?_⟩
  -- what is told stands for a call that the pass checks
  obtain ⟨pre, post, hsplit, -⟩ := Once.mem_told.mp hy
  obtain ⟨-, J, -, -, hJ, -⟩ := filterMap_split.mp hsplit
  obtain ⟨rfl, -⟩ := trapSuspect?_eq_some.mp hJ
  exact isSuspect_iff.mpr ⟨y, rfl, hkey, hJ⟩

/-- When the pass ends, it has reported a condition that a run without back edges found true,
at the call that the run came to or at another one that passes it. -/
theorem mem_reports_of_run (hssa : SSAForm P entry F) (hord : OrderedUses P entry)
    (hexec : ExecMeans DL P Exec)
    (hdistinct : ∀ BB, Reachable P entry BB → DistinctTargets (P.inst (P.block BB).term).op)
    (hblocks : ∀ BB, Reachable P entry BB → BB ∈ (P.func F).blocks)
    (hsolver : C.solver.Decides) (hs : ForwardRuns DL P Backedges Exec entry σ₀ s)
    (hrest : s.rest = I :: is) (hsuspect : IsSuspect P C Trap I V)
    (htrue : Current DL P s.env V (.ofBool true))
    (hranges : CmpSat.MetadataHolds DL P intrange s.env)
    (hanswer : C.SMTTimeoutOpt = 0 ∨ C.timer I ≠ .strikes false ∧
      Expressible DL P intrange Backedges V (P.inst I).parent) {reports : List BugReport}
    (h : runOnFunction DL P intrange Backedges C Trap n F = .ok reports) :
    ∃ r ∈ reports, IsSuspect P C Trap r.call V := by
  obtain ⟨t, hloop, h⟩ := bind_eq_ok.mp h
  obtain rfl := Except.ok.inj h
  obtain ⟨hout, hasked⟩ := checks_told hloop
  rw [List.nil_append, filter_suspects] at hout
  rw [filter_suspects] at hasked
  obtain ⟨hI, -⟩ := (hs.runs.settled hssa hord hexec).mem_rest (hrest ▸ List.mem_cons_self)
  obtain ⟨x, rfl, rfl, hx⟩ := isSuspect_iff.mp hsuspect
  have hmem : x ∈ (P.instsOf F).filterMap (trapSuspect? P C Trap) := by
    refine List.mem_filterMap.mpr ⟨x.1, List.mem_flatMap.mpr ⟨s.block, ?_, hI⟩, hx⟩
    exact hblocks _ (hs.runs.reachable hssa)
  rw [hout]
  by_cases hsaved : ∃ y ∈ (P.instsOf F).filterMap (trapSuspect? P C Trap),
      isSaved DL P intrange Backedges C n y = true ∧ y.2.1 = x.2.1
  · obtain ⟨y, hy, hsaved, hkey⟩ := hsaved
    rw [← hkey]
    exact exists_report_of_found hy (found_of_saved hsaved)
  · -- no suspect with the condition is saved, so the query of this one was made
    obtain ⟨pre, post, hsplit⟩ := List.append_of_mem hmem
    have hr := hasked pre x post hsplit List.not_mem_nil fun y hy hy_saved hkey =>
      hsaved ⟨y, hsplit ▸ List.mem_append_left _ hy, hy_saved, hkey⟩
    have hexpr : Expressible DL P intrange Backedges x.2.1 (P.inst x.1).parent := by
      rcases hanswer with hzero | ⟨-, hexpr⟩
      · obtain ⟨r, hr⟩ := hr
        exact expressible_of_outcome hzero hr
      · exact hexpr
    obtain ⟨-, -, hcalls⟩ := trapSuspect?_eq_some.mp hx
    have hV : x.2.1 ∈ (P.inst x.1).op.operands :=
      List.mem_of_mem_head? (suspect_passes hcalls)
    have hsat := satisfiable_of_run hssa hord hexec hdistinct hs hrest hV htrue hranges hexpr
    exact exists_report_of_found hmem ((foundModel_iff hsolver hr).mpr
      ⟨hanswer.imp_right And.left, hsat⟩)

/-- With a solver that decides its queries, a call of `int.sat` that a run without back
edges comes to with a true condition is reported, or another call that passes the same
condition is, unless the child process of the query is killed or dies of an assertion.  Only
calls that the pass checks are meant (`IsSuspect`): their condition is no constant, their
location is known, and they have `bug` metadata.  On a function without dead blocks the pass
ends if no assertion fails in it, so the report is made. -/
theorem runOnFunction_complete (hssa : SSAForm P entry F) (hord : OrderedUses P entry)
    (hexec : ExecMeans DL P Exec)
    (hdistinct : ∀ BB, Reachable P entry BB → DistinctTargets (P.inst (P.block BB).term).op)
    (hblocks : ∀ BB, Reachable P entry BB → BB ∈ (P.func F).blocks)
    (hsolver : C.solver.Decides) (hs : ForwardRuns DL P Backedges Exec entry σ₀ s)
    (hrest : s.rest = I :: is) (hsuspect : IsSuspect P C Trap I V)
    (htrue : Current DL P s.env V (.ofBool true))
    (hranges : CmpSat.MetadataHolds DL P intrange s.env)
    (hanswer : C.SMTTimeoutOpt = 0 ∨ C.timer I ≠ .strikes false ∧
      Expressible DL P intrange Backedges V (P.inst I).parent) :
    (∀ n reports, runOnFunction DL P intrange Backedges C Trap n F = .ok reports →
      ∃ r ∈ reports, IsSuspect P C Trap r.call V) ∧
    (Analysable P Backedges entry F →
      (∀ J ∈ P.instsOf F, P.calledFunction J = some Trap →
        AssertionsHold DL P intrange Backedges C J) →
      ∃ N, ∀ n, N ≤ n → ∃ reports,
        runOnFunction DL P intrange Backedges C Trap n F = .ok reports ∧
        ∃ r ∈ reports, IsSuspect P C Trap r.call V) := by
  have hreported := fun n reports (h : runOnFunction DL P intrange Backedges C Trap n F =
      .ok reports) => mem_reports_of_run hssa hord hexec hdistinct hblocks hsolver hs hrest
    hsuspect htrue hranges hanswer h
  refine ⟨hreported, fun hF hassert => ?_⟩
  obtain ⟨N, hN⟩ := runOnFunction_returns hF hassert
  refine ⟨N, fun n hn => ?_⟩
  obtain ⟨reports, hreports⟩ := hN n hn
  exact ⟨reports, hreports, hreported n reports hreports⟩

/-! ## A division by zero -/

/-- Twenty divided by zero. -/
def quotientState : Assignment Value := fun V w =>
  match V with
  | .argument _ 0 => 20#w
  | .inst _ => 1#w
  | _ => 0#w

theorem quotient_edge {Pred BB : BlockId} (h : Edge quotientProgram Pred BB) :
    (Pred = 0 ∧ BB = 1) ∨ (Pred = 0 ∧ BB = 2) ∨ (Pred = 1 ∧ BB = 2) :=
  quotient_forward ⟨h, rfl⟩

theorem quotient_blocks {BB : BlockId} (h : Reachable quotientProgram 0 BB) :
    BB = 0 ∨ BB = 1 ∨ BB = 2 := by
  cases h with
  | start _ => exact .inl rfl
  | step _ hedge _ =>
    rcases quotient_edge hedge with ⟨-, rfl⟩ | ⟨-, rfl⟩ | ⟨-, rfl⟩
    · exact .inr (.inl rfl)
    · exact .inr (.inr rfl)
    · exact .inr (.inr rfl)

/-- Names are used in the block that defines them only. -/
def quotientUse (BB : BlockId) : Value → Bool
  | .inst j => (quotientProgram.block BB).insts.contains j && (quotientProgram.inst j).parent = BB
  | _ => true

theorem quotient_ssaForm : SSAForm quotientProgram 0 0 where
  entry_block := rfl
  parent BB hBB := by rcases quotient_blocks hBB with rfl | rfl | rfl <;> rfl
  succ_iff_pred Pred BB := by
    constructor
    · intro h
      match Pred with
      | 0 => rcases List.mem_pair.mp h with rfl | rfl <;> decide
      | 1 =>
        obtain rfl := List.mem_singleton.mp h
        decide
      | 2 => cases h
      | Pred + 3 => cases h
    · intro h
      rcases quotient_edge h with ⟨rfl, rfl⟩ | ⟨rfl, rfl⟩ | ⟨rfl, rfl⟩ <;> decide
  inst_parent BB hBB := by rcases quotient_blocks hBB with rfl | rfl | rfl <;> decide
  constant c V hV := by cases c <;> cases hV
  use BB hBB i hi hphi V hV := by
    have huse : ∀ B ∈ [0, 1, 2], ∀ i ∈ (quotientProgram.block B).insts,
        ∀ V ∈ (quotientProgram.inst i).op.operands, quotientUse B V = true := by decide
    have hV' := huse BB (by simpa using quotient_blocks hBB) i hi V hV
    rintro j rfl
    obtain ⟨hj, hparent⟩ : j ∈ (quotientProgram.block BB).insts ∧
        (quotientProgram.inst j).parent = BB := by simpa [quotientUse] using hV'
    rw [hparent]
    exact ⟨hj, .refl BB⟩
  incoming BB hBB i hi incoming hop := by
    have hphi : ∀ B ∈ [0, 1, 2], ∀ i ∈ (quotientProgram.block B).insts,
        (quotientProgram.inst i).op.isPhi = false := by decide
    have hi' := hphi BB (by simpa using quotient_blocks hBB) i hi
    rw [hop] at hi'
    cases hi'

theorem quotient_orderedUses : OrderedUses quotientProgram 0 :=
  orderedUses_of fun BB hBB => by
    rcases quotient_blocks hBB with rfl | rfl | rfl <;> decide

/-- The two edges of the branch lead to different blocks. -/
theorem quotient_distinct (BB : BlockId) (hBB : Reachable quotientProgram 0 BB) :
    DistinctTargets (quotientProgram.inst (quotientProgram.block BB).term).op := by
  rcases quotient_blocks hBB with rfl | rfl | rfl
  · exact (by decide : (1 : ℕ) ≠ 2)
  · trivial
  · trivial

/-- The two comparisons with constants. -/
theorem quotient_compare {i : InstId} {no n : ℕ} {pred : ICmpPredicate} {x : APInt} {w : ℕ}
    (hop : (quotientProgram.inst i).op = .icmp pred (.argument 0 no) (.constInt (.ofNat 8 n)))
    (hno : typeSizeInBits fieldLayout (quotientProgram.typeOf (.argument 0 no)) = some 8)
    (hx : icmpValue pred ⟨8, quotientState (.argument 0 no) 8⟩ (.ofNat 8 n) = some x) :
    stepValue fieldLayout quotientProgram quotientState
      (current fieldLayout quotientProgram quotientState) w (.inst i) = some x := by
  have hargument : current fieldLayout quotientProgram quotientState (.argument 0 no) =
      some ⟨8, quotientState (.argument 0 no) 8⟩ :=
    meaning_eq_some.mpr ⟨1, value_eq_some.mpr ⟨hno, by simp [stepValue, leafValue, hno]⟩⟩
  have hconst : current fieldLayout quotientProgram quotientState (.constInt (.ofNat 8 n)) =
      some (.ofNat 8 n) := meaning_eq_some.mpr ⟨1, rfl⟩
  rw [stepValue, instValue, hop]
  simp only [hargument, hconst]
  exact hx

/-- With these values every instruction does what the language says. -/
theorem quotient_means (i : InstId) :
    Means fieldLayout quotientProgram i quotientState quotientState := by
  intro x hx
  match i with
  | 0 | 2 =>
    obtain rfl := Option.some.inj hx
    exact quotient_compare rfl rfl rfl
  | 1 | 3 | 4 | 5 => cases hx
  | i + 6 => cases hx

/-- The run up to the check. -/
theorem quotient_run : ForwardRuns fieldLayout quotientProgram []
    (Means fieldLayout quotientProgram) 0 quotientState ⟨1, [3, 4], quotientState⟩ := by
  have hexec : ∀ BB i is, ForwardStep fieldLayout quotientProgram []
      (Means fieldLayout quotientProgram) ⟨BB, i :: is, quotientState⟩
      ⟨BB, is, quotientState⟩ :=
    fun BB i is => ⟨.exec (quotient_means i) fun _ _ => rfl, nofun⟩
  have hphis : PhiValues fieldLayout quotientProgram quotientState quotientState 0 1 := by
    intro i hi incoming V hop
    have hphi : ∀ i ∈ (quotientProgram.block 1).insts,
        (quotientProgram.inst i).op.isPhi = false := by decide
    have hi' := hphi i hi
    rw [hop] at hi'
    cases hi'
  exact .tail (.tail (.head (hexec 0 0 [1]) (.single (hexec 0 1 [])))
    ⟨.edge (k := 0) rfl rfl hphis fun _ _ => rfl, fun _ => rfl⟩) (hexec 1 2 [3, 4])

/-- The successors in `quotientProgram`. -/
def quotientSuccessors (BB : BlockId) : List BlockId := [[1, 2], [2]].getD BB []

theorem quotient_backEdges : DepthFirst.IsBackEdges (Edge quotientProgram) 0 [] := by
  refine ⟨quotientSuccessors, fun Pred BB => ⟨fun h => ?_, fun h => ?_⟩, 6, by decide,
    fun e => ?_⟩
  · match Pred with
    | 0 =>
      rcases List.mem_pair.mp h with rfl | rfl
      · exact List.mem_cons_self
      · exact List.mem_cons_self
    | 1 =>
      obtain rfl := List.mem_singleton.mp h
      exact List.mem_cons_of_mem _ List.mem_cons_self
    | Pred + 2 => cases h
  · rcases quotient_edge h with ⟨rfl, rfl⟩ | ⟨rfl, rfl⟩ | ⟨rfl, rfl⟩ <;> decide
  · have hnone : ((DepthFirst.step quotientSuccessors)^[6]
        (.init quotientSuccessors 0)).back = [] := by decide
    rw [hnone]

/-- The generators of formulas come to an end on the function. -/
theorem quotient_analysable : Analysable quotientProgram [] 0 0 where
  ssa := quotient_ssaForm
  ord := quotient_orderedUses
  blocks BB := by
    constructor
    · intro hBB
      have hentry : Reachable quotientProgram 0 0 := .start
      have hone : Reachable quotientProgram 0 1 := hentry.step (show 0 ∈ [0] by decide)
      have htwo : Reachable quotientProgram 0 2 := hone.step (show 1 ∈ [0, 1] by decide)
      rcases (show BB = 0 ∨ BB = 1 ∨ BB = 2 by
        simpa [quotientProgram, Program.func] using hBB) with rfl | rfl | rfl
      · exact hentry
      · exact hone
      · exact htwo
    · intro hBB
      rcases quotient_blocks hBB with rfl | rfl | rfl <;> decide
  pred Pred BB hedge _ := by
    have hentry : Reachable quotientProgram 0 0 := .start
    rcases quotient_edge hedge with ⟨rfl, -⟩ | ⟨rfl, -⟩ | ⟨rfl, -⟩
    · exact hentry
    · exact hentry
    · exact hentry.step (show 0 ∈ [0] by decide)
  backedges := quotient_backEdges
  constants c := by
    refine ⟨_, fun U hU => ?_⟩
    cases hU with
    | const hmem => cases c <;> cases hmem

/-- The only call of `int.sat` passes a comparison, whose formula can be made. -/
theorem quotient_assertions : ∀ J ∈ quotientProgram.instsOf 0,
    quotientProgram.calledFunction J = some 1 →
      AssertionsHold fieldLayout quotientProgram (fun _ => none) [] quotientConfig J := by
  intro J hJ hcall
  have hcalls : ∀ J ∈ quotientProgram.instsOf 0,
      quotientProgram.calledFunction J = some 1 → J = 3 := by decide
  obtain rfl := hcalls J hJ hcall
  refine ⟨some (.inst 2, "division by zero"), rfl, fun V Bug h => .inr ?_⟩
  obtain ⟨rfl, -⟩ := Prod.mk.inj (Option.some.inj h)
  exact quotient_satisfiable.1

/-- The run divides twenty by zero, so the division is reported. -/
theorem quotient_complete : ∃ N, ∀ n, N ≤ n → ∃ reports,
    runOnFunction fieldLayout quotientProgram (fun _ => none) [] quotientConfig 1 n 0 =
      .ok reports ∧
    ∃ r ∈ reports, IsSuspect quotientProgram quotientConfig 1 r.call (.inst 2) := by
  obtain ⟨-, hreturns⟩ := runOnFunction_complete quotient_ssaForm quotient_orderedUses
    (fun _ _ _ h => h) quotient_distinct
    (fun BB hBB => by rcases quotient_blocks hBB with rfl | rfl | rfl <;> decide)
    idealSolver_decides quotient_run rfl quotient_suspect rfl
    (fun i MD w (hMD : none = some MD) => by cases hMD) (.inl rfl)
  exact hreturns quotient_analysable quotient_assertions

end Kint.IntSat
