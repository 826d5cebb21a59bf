import Kint.Range.Growth
import Kint.LLVM.Reference
import Mathlib.Algebra.Order.BigOperators.Group.Finset

/-!
# `RangePass` terminates at a fixpoint

Every iteration that reports lets the ranges grow strictly, and they can only grow so often: the
pass writes to finitely many identifiers, an identifier gets its first range once, and a range
of a fixed width has finitely many integers to gain (`wellFounded_ranges`).  When the run ends,
`doModulePass` was called once more on every module without a report; since it depends on the
ranges of identifiers only, calling it yet again changes nothing.

## The measure

The identifiers that a run can write are known in advance (`runIds`).  The order on ranges is
lexicographic: first the number of identifiers without a range (`missing`), then the number of
integers that the ranges can still gain (`room`).  The width of a range never changes, which is
why the second number is bounded.

## The loops

There are two loops, and both are treated by `Settles` of `Kint.Iteration`: a loop whose body
reports a change only when it goes down in a well-founded order ends, given enough fuel, or
stops at an assertion.  `doModulePass_settles` is the loop over iterations, and
`iterate_settles` the loop over calls of `doModulePass`.

## Main results

* `iterate_fixpoint`: at the end, calls of `doModulePass` change no range.
* `rangePass_fixpoint`: the run ends; its ranges are those that the trace leads to; they only
  grow, at a fixed width; and they are a fixpoint.
-/

namespace Kint.Range

open Iteration

section Termination

variable {L : Library} {P : Program} {callees : CalleeMap} {taints : TaintMap}

/-! ## Growth is well-founded -/

/-- Only identifiers in `K` have a range. -/
def Keys (K : Finset String) (s : State) : Prop := ∀ sID, s.intRanges sID ≠ none → sID ∈ K

/-- The number of identifiers without a range. -/
def missing (K : Finset String) (s : State) : ℕ :=
  (K.filter fun sID => s.intRanges sID = none).card

/-- The number of integers that a range can still gain. -/
def room : Option ConstantRange → ℕ
  | none => 0
  | some R => 2 ^ R.width - R.size

theorem room_lt {R R' : ConstantRange} (h : R < R') : room (some R') < room (some R) := by
  have hsize := ConstantRange.size_lt_size h
  have hbound := R'.size_le
  have hw := ConstantRange.le_width h.le
  simp only [room, hw]
  omega

theorem room_le {R R' : ConstantRange} (h : R ≤ R') : room (some R') ≤ room (some R) := by
  rcases h.eq_or_lt with rfl | hlt
  · exact le_rfl
  · exact (room_lt hlt).le

/-- When ranges grow, no identifier loses its range. -/
theorem missing_le {K : Finset String} {a b : State} (h : a.ranges ≤ b.ranges) :
    (K.filter fun sID => b.intRanges sID = none) ⊆
      K.filter fun sID => a.intRanges sID = none := by
  intro sID hsID
  obtain ⟨hK, hb⟩ := Finset.mem_filter.mp hsID
  refine Finset.mem_filter.mpr ⟨hK, ?_⟩
  have hle := h sID
  exact le_bot_iff.mp (hle.trans_eq hb)

/-- Strict growth of the ranges of finitely many identifiers has no infinite
ascent. -/
theorem wellFounded_ranges (K : Finset String) :
    WellFounded fun b a : State => Keys K b ∧ a.ranges < b.ranges := by
  have hwf : WellFounded (Prod.Lex (α := ℕ) (β := ℕ) (· < ·) (· < ·)) :=
    WellFounded.prod_lex Nat.lt_wfRel.wf Nat.lt_wfRel.wf
  refine Subrelation.wf ?_ (InvImage.wf (fun s : State =>
    (missing K s, ∑ sID ∈ K, room (s.intRanges sID))) hwf)
  rintro b a ⟨hb, hlt⟩
  have hsub := missing_le (K := K) hlt.le
  rcases (Finset.card_le_card hsub).lt_or_eq with hcard | hcard
  · exact Prod.Lex.left _ _ hcard
  · -- the same identifiers have a range, and one of these ranges grew
    have hsame := Finset.eq_of_subset_of_card_le hsub hcard.ge
    have hdom : ∀ sID ∈ K, ∀ R, a.intRanges sID = some R →
        ∃ R', b.intRanges sID = some R' ∧ R ≤ R' :=
      fun sID _ R hR => grown_iff.mpr hlt.le sID R hR
    have hnone : ∀ sID ∈ K, a.intRanges sID = none → b.intRanges sID = none := by
      intro sID hK ha
      have hmem : sID ∈ K.filter fun sID => a.intRanges sID = none :=
        Finset.mem_filter.mpr ⟨hK, ha⟩
      rw [← hsame] at hmem
      exact (Finset.mem_filter.mp hmem).2
    have hmiss : missing K b = missing K a := hcard
    have hroom : ∑ sID ∈ K, room (b.intRanges sID) < ∑ sID ∈ K, room (a.intRanges sID) := by
      obtain ⟨-, sID, hsID⟩ := Pi.lt_def.mp hlt
      have hbne : b.intRanges sID ≠ none := fun h => not_lt_bot (hsID.trans_eq h)
      refine Finset.sum_lt_sum (fun k hk => ?_) ⟨sID, hb sID hbne, ?_⟩
      · cases ha : a.intRanges k with
        | none => rw [hnone k hk ha]
        | some R =>
          obtain ⟨R', hR', hle⟩ := hdom k hk R ha
          rw [hR']
          exact room_le hle
      · obtain ⟨R', hR'⟩ := Option.ne_none_iff_exists'.mp hbne
        obtain ⟨R, hR⟩ := Option.ne_none_iff_exists'.mp
          fun h => hbne (hnone sID (hb sID hbne) h)
        have hlt' : (R : WithBot ConstantRange) < R' := by
          have h := hsID
          unfold State.ranges at h
          rwa [hR, hR'] at h
        rw [hR, hR']
        exact room_lt (WithBot.coe_lt_coe.mp hlt')
    change Prod.Lex _ _ (missing K b, _) (missing K a, _)
    rw [hmiss]
    exact Prod.Lex.right _ hroom

/-! ## Iterations -/

/-- What an iteration starts with lets the ranges grow. -/
theorem beginIteration_le (itr : ℕ) (s : State) :
    s.ranges ≤ (beginIteration itr s).ranges := by
  refine grown_iff.mp ?_
  unfold beginIteration
  split
  · exact widenRanges_grown _ _
  · exact Grown.refl _

/-- Widening gives no identifier its first range. -/
theorem beginIteration_none {itr : ℕ} {s : State} {sID : String}
    (h : (beginIteration itr s).intRanges sID ≠ none) : s.intRanges sID ≠ none := by
  intro hnone
  refine h ?_
  unfold beginIteration
  split
  · simp [widen, widenRanges, hnone]
  · exact hnone

variable {M : Module} {itr fuel : ℕ} {s : State} {r : Report State Event}

/-- An iteration is a visit of the functions, with one more event in the trace. -/
theorem iteration_eq_ok : iteration L P callees taints M itr s = .ok r ↔
    ∃ b, visitFunctions L P callees taints M (beginIteration itr s) = .ok b ∧
      r = { b with trace :=
        (if itr > maxIterations then [.widen s.changes] else []) ++ b.trace ++
          [.iteration (beginIteration itr s).intRanges b.state.intRanges] } := by
  constructor
  · intro h
    obtain ⟨b, hb, h⟩ := Iteration.bind_eq_ok.mp h
    exact ⟨b, hb, (Except.ok.inj h).symm⟩
  · rintro ⟨b, hb, rfl⟩
    exact Iteration.bind_eq_ok.mpr ⟨b, hb, rfl⟩

/-- A call is a loop of iterations, with one more event in the trace. -/
theorem doModulePass_eq_ok : doModulePass L P callees taints fuel M s = .ok r ↔
    ∃ b, whileChanged (iteration L P callees taints M) fuel 1 s = .ok b ∧
      r = { b with trace := .call :: b.trace } := by
  constructor
  · intro h
    obtain ⟨b, hb, h⟩ := Iteration.bind_eq_ok.mp h
    exact ⟨b, hb, (Except.ok.inj h).symm⟩
  · rintro ⟨b, hb, rfl⟩
    exact Iteration.bind_eq_ok.mpr ⟨b, hb, rfl⟩

/-- An iteration reports a change only when ranges have grown. -/
theorem iteration_grows (hL : L.ranges.UnionLaws)
    (h : iteration L P callees taints M itr s = .ok r) : r.Grows State.ranges s := by
  obtain ⟨b, hb, rfl⟩ := iteration_eq_ok.mp h
  have hgrow := (((visitFunctions_body M).writes _ b hb).grows hL).1
  have hle := beginIteration_le itr s
  exact ⟨hle.trans hgrow.1, fun hc => hle.trans_lt (hgrow.2 hc)⟩

/-- An iteration gives ranges to the identifiers of the module only. -/
theorem iteration_keys {K : Finset String} (hM : ∀ sID ∈ moduleIds L P callees M, sID ∈ K)
    (hs : Keys K s) (h : iteration L P callees taints M itr s = .ok r) : Keys K r.state := by
  obtain ⟨b, hb, rfl⟩ := iteration_eq_ok.mp h
  intro sID hne
  rcases ((visitFunctions_body M).writes _ b hb).new hne with hold | hnew
  · exact hs sID (beginIteration_none hold)
  · exact hM sID hnew

theorem iteration_ne_fuel : iteration L P callees taints M itr s ≠ .error .fuel := by
  intro h
  unfold iteration at h
  cases hb : visitFunctions L P callees taints M (beginIteration itr s) with
  | error e =>
    exact (visitFunctions_body M).ne_fuel _ (hb.trans (by simpa [hb] using h))
  | ok b => simp [hb] at h

/-- A call reports a change only when ranges have grown. -/
theorem doModulePass_grows (hL : L.ranges.UnionLaws)
    (h : doModulePass L P callees taints fuel M s = .ok r) : r.Grows State.ranges s := by
  obtain ⟨b, hb, rfl⟩ := doModulePass_eq_ok.mp h
  have hgrow : b.Grows State.ranges s := (sequential_grows State.ranges).whileChanged_spec
    (fun itr s r h => iteration_grows hL h) hb
  exact hgrow

/-- A call that reports nothing is one iteration, without widening. -/
theorem doModulePass_silent (hL : L.ranges.UnionLaws)
    (h : doModulePass L P callees taints fuel M s = .ok r) : r.Silent State.intRanges s := by
  intro hc
  obtain ⟨b, hb, rfl⟩ := doModulePass_eq_ok.mp h
  obtain ⟨b', hb', rfl⟩ := iteration_eq_ok.mp (whileChanged_unchanged hb hc)
  exact (((visitFunctions_body M).writes _ b' hb').grows hL).2 hc

/-- A call gives ranges to the identifiers of the module only. -/
theorem doModulePass_keys {K : Finset String} (hM : ∀ sID ∈ moduleIds L P callees M, sID ∈ K)
    (hs : Keys K s) (h : doModulePass L P callees taints fuel M s = .ok r) :
    Keys K r.state := by
  obtain ⟨b, hb, rfl⟩ := doModulePass_eq_ok.mp h
  have hkeys : Keys K s → Keys K b.state := (Sequential.invariant (Keys K)).whileChanged_spec
    (fun itr s r h hs => iteration_keys hM hs h) hb
  exact hkeys hs

theorem doModulePass_settles (hL : L.ranges.UnionLaws) {K : Finset String}
    (hM : ∀ sID ∈ moduleIds L P callees M, sID ∈ K) (hs : Keys K s) :
    Settles (fun fuel => doModulePass L P callees taints fuel M) s := by
  have hloop : Settles (fun fuel => whileChanged (iteration L P callees taints M) fuel 1) s :=
    whileChanged_settles (f := fun _ => iteration L P callees taints M)
      (R := fun a b => a.ranges < b.ranges) (wellFounded_ranges K)
      (fun itr s _ => ⟨_, iteration_ne_fuel, 0, fun _ _ => rfl⟩)
      (fun _ itr s r hs h => iteration_keys hM hs h)
      (fun _ itr s r _ h hc => (iteration_grows hL h).2 hc) hs 1
  obtain ⟨out, hout, n, hn⟩ := hloop
  refine ⟨out.map fun b => { b with trace := .call :: b.trace }, ?_, n, fun m hm => ?_⟩
  · cases out with
    | ok b => simp [Except.map]
    | error e => simpa [Except.map] using hout
  · simp only [doModulePass, hn m hm]
    cases out <;> rfl

/-! ## The run -/

variable {modules : List Module}

variable (L P callees) in
/-- Every identifier that a run can give a range. -/
def runIds (modules : List Module) : Finset String :=
  ((modules.flatMap fun M => (initializerRanges L P M).map Prod.fst) ++
    modules.flatMap (moduleIds L P callees)).toFinset

/-- The identifiers of a module are among those of the run. -/
theorem moduleIds_subset (hM : M ∈ modules) :
    ∀ sID ∈ moduleIds L P callees M, sID ∈ runIds L P callees modules := fun _ hsID =>
  List.mem_toFinset.mpr (List.mem_append_right _ (List.mem_flatMap.mpr ⟨M, hM, hsID⟩))

/-- Initialization writes to the identifiers of the run. -/
theorem doInitialization_body (hM : M ∈ modules) :
    Body L (· ∈ runIds L P callees modules) (doInitialization L P M) := by
  refine Body.forEach fun e he => Body.union ?_
  refine List.mem_toFinset.mpr (List.mem_append_left _ (List.mem_flatMap.mpr ⟨M, hM, ?_⟩))
  exact List.mem_map.mpr ⟨e, he, rfl⟩

/-- `doInitialization` joins ranges, wherever that may be. -/
theorem doInitialization_joins (M : Module) : Body L (fun _ => True) (doInitialization L P M) :=
  Body.forEach fun _ _ => Body.union trivial

theorem init_settles (s : State) :
    Settles (fun _ => forEach (doInitialization L P) modules) s :=
  ⟨_, (Body.forEach fun M _ => doInitialization_joins M).ne_fuel s, 0, fun _ _ => rfl⟩

/-- After initialization only identifiers of the run have ranges. -/
theorem init_keys (h : forEach (doInitialization L P) modules State.init = .ok r) :
    Keys (runIds L P callees modules) r.state := by
  intro sID hne
  have hbody : Body L (· ∈ runIds L P callees modules)
      (forEach (doInitialization L P) modules) :=
    Body.forEach fun _ hM => doInitialization_body hM
  exact ((hbody.writes _ r h).new hne).elim (fun h => absurd rfl h) id

theorem iterate_settles (hL : L.ranges.UnionLaws)
    (hs : Keys (runIds L P callees modules) s) :
    Settles (fun fuel => (rangePass L P callees taints).iterate fuel modules) s := by
  refine whileChanged_settles
    (f := fun fuel _ => forEach (doModulePass L P callees taints fuel) modules)
    (R := fun a b => a.ranges < b.ranges) (wellFounded_ranges _)
    (fun itr s hs => ?_) (fun m itr s r hs h => ?_) (fun m itr s r _ h hc => ?_) hs 1
  · exact forEach_settles
      (fun M hM s hs => doModulePass_settles hL (moduleIds_subset hM) hs)
      (fun M hM m s r hs h => doModulePass_keys (moduleIds_subset hM) hs h) hs
  · exact (Sequential.invariant (Keys _)).forEach_spec
      (fun M hM s r h hs => doModulePass_keys (moduleIds_subset hM) hs h) h hs
  · exact ((sequential_grows State.ranges).forEach_spec
      (fun M _ s r h => doModulePass_grows hL h) h).2 hc

/-- More fuel does not change the result of a call. -/
theorem doModulePass_persists (M : Module) :
    Persists fun fuel => doModulePass L P callees taints fuel M := by
  have hloop : Persists fun fuel => whileChanged (iteration L P callees taints M) fuel 1 :=
    persists_whileChanged (f := fun _ => iteration L P callees taints M)
      (fun itr => persists_const _) 1
  intro m m' s hle hne
  have hne' : whileChanged (iteration L P callees taints M) m 1 s ≠ .error .fuel := fun h =>
    hne (by simp [doModulePass, h])
  have hsame : whileChanged (iteration L P callees taints M) m' 1 s =
      whileChanged (iteration L P callees taints M) m 1 s := hloop m m' s hle hne'
  simp only [doModulePass, hsame]

/-- More fuel does not change the result of a run. -/
theorem rangePass_persists (modules : List Module) :
    Persists fun fuel => (rangePass L P callees taints).run fuel modules :=
  IterativeModulePass.run_persists doModulePass_persists (fun _ => persists_const _) modules

/-- Finalization of a module always has a report, and changes nothing. -/
theorem doFinalization_ok (M : Module) (s : State) :
    ∃ r, doFinalization L P M s = .ok r ∧ r.state = s := by
  unfold doFinalization
  generalize M.functions.flatMap P.instsOf = is
  induction is with
  | nil => exact ⟨_, rfl, rfl⟩
  | cons i is ih =>
    obtain ⟨b, hb, hst⟩ := ih
    exact ⟨_, Pass.seq_eq_ok.mpr ⟨_, b, rfl, hb, rfl⟩, hst⟩

theorem finalize_ok (modules : List Module) (s : State) :
    ∃ r, forEach (doFinalization L P) modules s = .ok r ∧ r.state = s := by
  induction modules with
  | nil => exact ⟨_, rfl, rfl⟩
  | cons M modules ih =>
    obtain ⟨a, ha, hst⟩ := doFinalization_ok M s
    obtain ⟨b, hb, hst'⟩ := ih
    exact ⟨_, Pass.seq_eq_ok.mpr ⟨a, b, ha, by rwa [hst], rfl⟩, hst'⟩

theorem run_settles (hL : L.ranges.UnionLaws) :
    Settles (fun fuel => (rangePass L P callees taints).run fuel modules) State.init := by
  refine Settles.seq (init_settles _) fun _ r hr => ?_
  refine Settles.seq (iterate_settles hL (init_keys hr)) fun _ r' _ => ?_
  obtain ⟨r'', hr'', -⟩ := finalize_ok (L := L) (P := P) modules r'.state
  exact settles_of_ok (n := 0) fun _ _ => hr''

/-! ## The end of a run -/

/-- What an iteration does depends on the ranges of identifiers only: the caches
are cleared before they are read. -/
theorem visitFunctions_again {s' : State}
    (h : visitFunctions L P callees taints M s = .ok r)
    (hr : s'.intRanges = s.intRanges) (hc : s'.changes = s.changes) :
    ∃ r', visitFunctions L P callees taints M s' = .ok r' ∧ r'.changed = r.changed ∧
      r'.state.intRanges = r.state.intRanges := by
  unfold visitFunctions at h ⊢
  cases hfs : M.functions.filter fun f => !(P.func f).empty with
  | nil =>
    rw [hfs] at h
    obtain rfl := Except.ok.inj h
    exact ⟨_, rfl, rfl, hr⟩
  | cons f fs =>
    rw [hfs] at h
    have hfirst : updateRangeForFunction L P callees taints f s' =
        updateRangeForFunction L P callees taints f s := by
      unfold updateRangeForFunction
      rw [hr, hc]
    refine ⟨r, ?_, rfl, rfl⟩
    simp only [forEach_cons, Pass.seq, hfirst] at h ⊢
    exact h

/-- A call that reported nothing reports nothing again, with the same ranges. -/
theorem doModulePass_again {s' : State} {fuel' : ℕ} (hL : L.ranges.UnionLaws)
    (h : doModulePass L P callees taints fuel M s = .ok r) (hc : r.changed = false)
    (hs' : s'.intRanges = s.intRanges) (hfuel : 1 ≤ fuel') :
    ∃ r', doModulePass L P callees taints fuel' M s' = .ok r' ∧ r'.changed = false ∧
      r'.state.intRanges = s'.intRanges := by
  have hsilent := doModulePass_silent hL h hc
  obtain ⟨b, hb, rfl⟩ := doModulePass_eq_ok.mp h
  obtain ⟨a, ha, rfl⟩ := iteration_eq_ok.mp (whileChanged_unchanged hb hc)
  obtain ⟨a', ha', hc', hr'⟩ := visitFunctions_again ha
    (show (beginIteration 1 s').intRanges = _ from hs') rfl
  obtain ⟨fuel', rfl⟩ := Nat.exists_eq_add_of_le' hfuel
  have hiter := iteration_eq_ok.mpr ⟨a', ha', rfl⟩
  have hloop : whileChanged (iteration L P callees taints M) (fuel' + 1) 1 s' = .ok _ :=
    whileChanged_succ_eq_ok.mpr (.inl ⟨hiter, hc'.trans hc⟩)
  exact ⟨_, doModulePass_eq_ok.mpr ⟨_, hloop, rfl⟩, hc'.trans hc,
    hr'.trans (hsilent.trans hs'.symm)⟩

/-- When the iteration ends, calling `doModulePass` on modules of the list, in
any order, changes no range. -/
theorem iterate_fixpoint (hL : L.ranges.UnionLaws)
    (h : (rangePass L P callees taints).iterate fuel modules s = .ok r) {s' : State}
    (hs' : s'.intRanges = r.state.intRanges) {fuel' : ℕ} (hfuel : 1 ≤ fuel')
    {ms : List Module} (hms : ∀ M ∈ ms, M ∈ modules) :
    ∃ r', forEach (doModulePass L P callees taints fuel') ms s' = .ok r' ∧
      r'.changed = false ∧ r'.state.intRanges = r.state.intRanges := by
  have hlast := IterativeModulePass.iterate_last
    (fun M _ s r h => doModulePass_silent hL h) h
  induction ms generalizing s' with
  | nil => exact ⟨_, rfl, rfl, hs'⟩
  | cons M ms ih =>
    obtain ⟨t, rt, ht, hrt, hct⟩ := hlast M (hms M List.mem_cons_self)
    obtain ⟨a, ha, hca, hra⟩ := doModulePass_again hL hrt hct
      (show s'.intRanges = _ from hs'.trans ht.symm) hfuel
    obtain ⟨b, hb, hcb, hrb⟩ := ih (hra.trans hs') fun N hN => hms N (List.mem_cons_of_mem _ hN)
    exact ⟨_, Pass.seq_eq_ok.mpr ⟨a, b, ha, hb, rfl⟩, by simp [hca, hcb], hrb⟩

variable (L) in
/-- The trace says how the ranges came about. -/
def Traced (s : State) (r : Report State Event) : Prop :=
  r.state.intRanges = rangesAfter L s.intRanges r.trace

theorem sequential_traced : Sequential (Traced L) where
  idle _ := rfl
  andThen {s r r'} h h' := by
    unfold Traced
    rw [Report.andThen_state, Report.andThen_trace, rangesAfter_append, ← h, h']

theorem iteration_traced (h : iteration L P callees taints M itr s = .ok r) :
    Traced L s r := by
  obtain ⟨b, hb, rfl⟩ := iteration_eq_ok.mp h
  have hbody := ((visitFunctions_body M).writes _ b hb).trace.1
  have hbegin : (beginIteration itr s).intRanges = rangesAfter L s.intRanges
      (if itr > maxIterations then [.widen s.changes] else []) := by
    unfold beginIteration
    split <;> rfl
  unfold Traced
  rw [rangesAfter_append, rangesAfter_append, ← hbegin, ← hbody]
  rfl

theorem doModulePass_traced (h : doModulePass L P callees taints fuel M s = .ok r) :
    Traced L s r := by
  obtain ⟨b, hb, rfl⟩ := doModulePass_eq_ok.mp h
  have htraced : Traced L s b := sequential_traced.whileChanged_spec
    (fun itr s r h => iteration_traced h) hb
  exact htraced

theorem doFinalization_traced (h : doFinalization L P M s = .ok r) : Traced L s r := by
  refine sequential_traced.forEach_spec (fun i _ s r h => ?_) h
  obtain rfl := Except.ok.inj h
  unfold Traced
  split <;> rfl

/-- The trace of a run says how its ranges came about. -/
theorem run_traced (h : (rangePass L P callees taints).run fuel modules s = .ok r) :
    Traced L s r := by
  obtain ⟨r₁, r₂, r₃, h₁, h₂, h₃, rfl⟩ := IterativeModulePass.run_eq_ok.mp h
  refine sequential_traced.andThen ?_ (sequential_traced.andThen ?_ ?_)
  · refine sequential_traced.forEach_spec (fun M _ s r h => ?_) h₁
    exact ((doInitialization_joins M).writes s r h).trace.1
  · exact sequential_traced.whileChanged_spec (fun _ _ _ h => sequential_traced.forEach_spec
      (fun M _ s r h => doModulePass_traced h) h) h₂
  · exact sequential_traced.forEach_spec (fun M _ s r h => doFinalization_traced h) h₃

/-- `RangePass::run` ends, unless the assertion on types fails; the ranges of
identifiers, which the trace accounts for, only grow in the course of the run and
keep their widths; and at the end `doModulePass`, on any modules of the list in
any order, leaves them unchanged. -/
theorem rangePass_fixpoint (hL : L.ranges.UnionLaws)
    (hassert : ∀ fuel,
      (rangePass L P callees taints).run fuel modules .init ≠ .error .fatal) :
    ∃ r n, (∀ fuel, n ≤ fuel →
        (rangePass L P callees taints).run fuel modules .init = .ok r) ∧
      r.state.intRanges = rangesAfter L (fun _ => none) r.trace ∧
      (∀ t₁ t₂ t₃, r.trace = t₁ ++ t₂ ++ t₃ →
        Grown (rangesAfter L (fun _ => none) t₁) (rangesAfter L (fun _ => none) (t₁ ++ t₂))) ∧
      ∀ ms, (∀ M ∈ ms, M ∈ modules) → ∀ fuel, 1 ≤ fuel →
        ∃ r', forEach (doModulePass L P callees taints fuel) ms r.state = .ok r' ∧
          r'.changed = false ∧ r'.state.intRanges = r.state.intRanges := by
  have hassert' : ∀ fuel, 0 ≤ fuel →
      (rangePass L P callees taints).run fuel modules .init ≠ .error .fatal :=
    fun fuel _ => hassert fuel
  obtain ⟨r, n, hn⟩ := (run_settles hL).ok hassert'
  have hrun := hn n le_rfl
  refine ⟨r, n, hn, run_traced hrun, fun t₁ t₂ t₃ _ => ?_, fun ms hms fuel hfuel => ?_⟩
  · rw [rangesAfter_append]
    exact rangesAfter_grown hL _ _
  · obtain ⟨r₁, r₂, r₃, -, h₂, h₃, rfl⟩ := IterativeModulePass.run_eq_ok.mp hrun
    obtain ⟨r₃', h₃', hst⟩ := finalize_ok (L := L) (P := P) modules r₂.state
    obtain rfl := Except.ok.inj (h₃'.symm.trans h₃)
    obtain ⟨r', hr', hc, hr⟩ := iterate_fixpoint hL h₂ (congrArg State.intRanges hst) hfuel hms
    exact ⟨r', hr', hc, hr.trans (congrArg State.intRanges hst).symm⟩

end Termination

/-- A global variable that starts at zero and is counted up. -/
def tickProgram : Program where
  insts := [
    ⟨0, .int 32, .load (.global 0) false, some "var.ticks", none⟩,
    ⟨0, .int 32, .binary .add (.inst 0) (.constInt (.ofNat 32 1)), none, none⟩,
    ⟨0, .other, .store (.inst 1) (.global 0), some "var.ticks", none⟩,
    ⟨0, .other, .ret (some (.inst 1)), none, none⟩]
  blocks := [⟨0, [0, 1, 2], 3, []⟩]
  funcs := [⟨⟨"tick", .external, "a.c"⟩, false, [], .int 32, [0]⟩]
  globals := [⟨⟨"ticks", .external, "a.c"⟩, .int 32, some (.int (.ofNat 32 0))⟩]
  structs := []
  consts := []

/-- The module of `tickProgram`. -/
def tickModules : List Module := [⟨"a.c", [0], [0]⟩]

/-- The counter is widened to the full set, which is a fixpoint. -/
theorem tick_fixpoint : ∃ r n, (∀ fuel, n ≤ fuel →
      (rangePass .reference tickProgram (fun _ => none) .init).run fuel tickModules .init =
        .ok r) ∧
    r.state.intRanges = rangesAfter .reference (fun _ => none) r.trace ∧
    (∀ t₁ t₂ t₃, r.trace = t₁ ++ t₂ ++ t₃ →
      Grown (rangesAfter .reference (fun _ => none) t₁)
        (rangesAfter .reference (fun _ => none) (t₁ ++ t₂))) ∧
    ∀ ms, (∀ M ∈ ms, M ∈ tickModules) → ∀ fuel, 1 ≤ fuel →
      ∃ r', forEach (doModulePass .reference tickProgram (fun _ => none) .init fuel) ms
          r.state = .ok r' ∧
        r'.changed = false ∧ r'.state.intRanges = r.state.intRanges := by
  have hrun : resultIs ((rangePass .reference tickProgram (fun _ => none) .init).run 5
      tickModules .init) (fun _ => true) = true := by
    decide +kernel
  obtain ⟨r, hr, -⟩ := of_resultIs hrun
  exact rangePass_fixpoint RangeOps.reference_unionLaws
    ((rangePass_persists tickModules).ne_fatal hr)

end Kint.Range
