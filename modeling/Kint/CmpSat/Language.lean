import Kint.PathGen.Forward

/-!
# `CmpSat` in SSA form

`CmpSat.check_sound` asks of a run that the terms denote what the names hold and that the guard
of an edge is true when the edge is taken.  In SSA form both follow from what the language says
about single instructions, when no two edges of a terminator lead to one block.

The first of the two is `Kint.PathGen.Denote`: at every state of a run, the term that `ValueGen`
returns for a name has the value that the name holds, since all the names in it were defined in
the current round of every loop around the block.  The second one is the meaning of terminators:
a guard is built from the condition of a branch or the cases of a switch, and says that control
goes to the block.  Where two edges lead to one block, the guard of the first stands for both,
so such terminators are excluded (`DistinctTargets`).

## Main results

* `guardsTrue`: the guard of an edge is true when the edge is taken.
* `reported_step`: in every run, loops included, a branch that is reported as always false goes
  on by its false edge, and one that is reported as always true by its true edge.
* `recheck_step`: the second comparison of the loop in `Kint.CmpSat`.
-/

namespace Kint.CmpSat

open Iteration Memo SMT PathGen ValueGen

variable {DL : DataLayout} {P : Program} {intrange : InstId → Option (List (APInt × APInt))}
  {Backedges : List (BlockId × BlockId)} {ncd : BlockId → BlockId → BlockId}
  {query : List (Term Value 1) → Term Value 1 → SMTStatus} {entry : BlockId} {F : FuncId}
  {Exec : InstId → Assignment Value → Assignment Value → Prop} {σ₀ : Assignment Value}
  {s s' : MachineState}

/-- In SSA form, with different targets, the guard of an edge is true when the edge is taken. -/
theorem guardsTrue (hssa : SSAForm P entry F) (hord : OrderedUses P entry)
    (hexec : ExecMeans DL P Exec)
    (hdistinct : ∀ BB, Reachable P entry BB → DistinctTargets (P.inst (P.block BB).term).op) :
    GuardsTrue DL P intrange Backedges ncd entry Exec σ₀ :=
  fun _ hs hrest _ _ hsucc htakes _ ht =>
    termGuard_taken hssa (termsDenote hssa hord hexec) hs hrest
      (hdistinct _ (hs.reachable hssa)) hsucc htakes ht

/-- In every run, loops included, a branch that is reported as always false goes on by its
false edge, and one that is reported as always true by its true edge. -/
theorem reported_step (hssa : SSAForm P entry F) (hord : OrderedUses P entry)
    (hexec : ExecMeans DL P Exec)
    (hdistinct : ∀ BB, Reachable P entry BB → DistinctTargets (P.inst (P.block BB).term).op)
    (hncd : NearestCommonDominators P ncd entry) (hsolver : SoundQuery query)
    (hrange : ∀ s, Runs DL P Exec entry σ₀ s → MetadataHolds DL P intrange s.env)
    {n : ℕ} {reports : List (InstId × Option String)}
    (h : runOnFunction DL P intrange Backedges ncd query n F = .ok reports)
    (hs : Runs DL P Exec entry σ₀ s) (hrest : s.rest = []) (hstep : Step DL P Exec s s')
    {V : Value} {ifTrue ifFalse : BlockId}
    (hop : (P.inst (P.block s.block).term).op = .condBr V ifTrue ifFalse) :
    (((P.block s.block).term, some cmpFalse) ∈ reports → s'.block = ifFalse) ∧
      (((P.block s.block).term, some cmpTrue) ∈ reports → s'.block = ifTrue) := by
  have hcheck : ∀ Reason, ((P.block s.block).term, some Reason) ∈ reports → _ :=
    fun Reason hmem => check_sound hssa hncd (guardsTrue hssa hord hexec hdistinct)
      (termsDenote hssa hord hexec) hrange hsolver hs hrest (runOnFunction_mem h _ hmem)
  cases hstep with
  | exec _ _ => cases hrest
  | @edge Pred BB k σ σ' hsucc htakes _ _ =>
    rw [hop] at hsucc htakes hcheck
    match k with
    | 0 =>
      obtain rfl := Option.some.inj hsucc
      exact ⟨fun hmem => absurd htakes ((hcheck cmpFalse hmem).1 rfl), fun _ => rfl⟩
    | 1 =>
      obtain rfl := Option.some.inj hsucc
      exact ⟨fun _ => rfl, fun hmem => absurd htakes ((hcheck cmpTrue hmem).2 rfl)⟩
    | k + 2 => cases hsucc

/-- In the loop, the second comparison is reported, and the run leaves the body by its
false edge. -/
theorem recheck_step : ∃ n reports s s', runOnFunction fieldLayout recheckProgram
    (fun _ => none) [(2, 1)] recheckNcd idealQuery n 0 = .ok reports ∧
    (6, some cmpFalse) ∈ reports ∧
    Runs fieldLayout recheckProgram (Means fieldLayout recheckProgram) 0 recheckState s ∧
    Step fieldLayout recheckProgram (Means fieldLayout recheckProgram) s s' ∧
    s.block = 2 ∧ s'.block = 1 := by
  obtain ⟨n, reports, hrun, hmem⟩ := recheck_reported
  have hheader := recheck_next (k := 0) (.inl rfl) (.inl rfl) rfl trivial (recheck_visit 0 _)
  have hbody := recheck_next (k := 0) (.inr (.inl rfl)) (.inr rfl) rfl rfl hheader
  have hstep : Step fieldLayout recheckProgram (Means fieldLayout recheckProgram)
      ⟨2, [], recheckState⟩ (enter recheckProgram 1 recheckState) :=
    .edge (k := 1) rfl rfl (recheck_phi (.inr (.inr rfl)) (.inl rfl)) fun _ _ => rfl
  refine ⟨n, reports, _, _, hrun, hmem, hbody, hstep, rfl, ?_⟩
  exact (reported_step recheck_ssaForm recheck_orderedUses (fun _ _ _ h => h) recheck_distinct
    recheck_ncd idealQuery_sound (fun _ _ _ _ _ h => by cases h) hrun hbody rfl hstep rfl).1 hmem

end Kint.CmpSat
