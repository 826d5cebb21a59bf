import Kint.Range.Termination

/-!
# How often `RangePass` enlarges a range

`doModulePass` counts its iterations and, from iteration `MaxIterations + 1` on, expands what
changed last to the full set.  The counter starts again with every call, so it bounds the growth
within one call only: an identifier that grows in several calls, of one module in several rounds
or of several modules, is not widened for that.

The trace of a run says how often the range of an identifier was enlarged before each iteration
(`Tally`).  If no enlarging iteration comes late when the iterations of earlier calls are
counted too (`Timely`), the bound holds of the whole run.

## The invariant

* `Bounded` is what holds between two calls: the range was enlarged at most `MaxIterations`
  times, or it was widened and once more enlarged by that, and is full.
* `Converging` is what holds before each iteration of a call.  An identifier that was enlarged
  `MaxIterations` times in the call changed in the last of these iterations, so it is in
  `Changes` and is widened next (`Converging.begin_full`); and a full range is not enlarged
  (`IsFull.not_enlarges`).

`iteration_converging` is the step, and `whileChanged_bounded` the induction on the iterations
of a call.  `Keeps` then makes the bound one about any sequence of calls.

## Main results

`rangePass_widens` is the bound for a whole run whose enlarging iterations are in time;
`level_not_widened` is a run of seven modules in which they are not.
-/

namespace Kint.Range

open Iteration

/-! ## Counting iterations -/

/-- How many iterations enlarged the range of an identifier: in earlier calls of
`doModulePass` and in the current one, which has made `itr` iterations. -/
structure Tally where
  earlier : ℕ
  current : ℕ
  itr : ℕ
  deriving DecidableEq

namespace Tally

/-- The tally before the first call. -/
def zero : Tally := ⟨0, 0, 0⟩

/-- The iterations of the whole run so far that enlarged the range. -/
def total (T : Tally) : ℕ := T.earlier + T.current

/-- The next iteration is not late for widening: not even if the iterations of
earlier calls that enlarged the range count as iterations of this call; or there
was at most one of these. -/
def InTime (T : Tally) : Prop := T.earlier + (T.itr + 1) ≤ maxIterations ∨ T.earlier ≤ 1

instance (T : Tally) : Decidable T.InTime :=
  inferInstanceAs (Decidable (T.earlier + (T.itr + 1) ≤ maxIterations ∨ T.earlier ≤ 1))

end Tally

section Counting

variable (sID : String)

/-- The event is an iteration that strictly enlarged the range of `sID`. -/
def enlarges : Event → Bool
  | .iteration before after => before sID ≠ after sID
  | _ => false

/-- The tally of `sID` after an event. -/
def Tally.after (T : Tally) (e : Event) : Tally :=
  match e with
  | .call => ⟨T.earlier + T.current, 0, 0⟩
  | .iteration _ _ =>
    ⟨T.earlier, if enlarges sID e then T.current + 1 else T.current, T.itr + 1⟩
  | _ => T

/-- The tally of `sID` after the events of a trace. -/
def tally (T : Tally) (t : List Event) : Tally := t.foldl (Tally.after sID) T

/-- No iteration of a trace that enlarges the range of `sID` is late. -/
def Timely : Tally → List Event → Prop
  | _, [] => True
  | T, e :: t => (enlarges sID e = true → T.InTime) ∧ Timely (T.after sID e) t

instance decidableTimely : ∀ (T : Tally) (t : List Event), Decidable (Timely sID T t)
  | _, [] => inferInstanceAs (Decidable True)
  | T, e :: t =>
    have := decidableTimely (T.after sID e) t
    inferInstanceAs (Decidable ((enlarges sID e = true → T.InTime) ∧
      Timely sID (T.after sID e) t))

variable {sID}

/-- The tally after two traces, one after the other. -/
@[simp] theorem tally_append (T : Tally) (t t' : List Event) :
    tally sID T (t ++ t') = tally sID (tally sID T t) t' :=
  List.foldl_append

theorem timely_append {T : Tally} {t t' : List Event} :
    Timely sID T (t ++ t') ↔ Timely sID T t ∧ Timely sID (tally sID T t) t' := by
  induction t generalizing T with
  | nil => exact (and_iff_right trivial).symm
  | cons e t ih =>
    show (_ ∧ Timely sID (T.after sID e) (t ++ t')) ↔ (_ ∧ _) ∧ _
    rw [ih, and_assoc]
    rfl

/-- Events that no tally counts. -/
def Uncounted (t : List Event) : Prop :=
  ∀ e ∈ t, e ≠ .call ∧ ∀ before after, e ≠ .iteration before after

/-- Events that are not counted change no tally and are never late. -/
theorem Uncounted.after {t : List Event} (h : Uncounted t) (sID : String) (T : Tally) :
    tally sID T t = T ∧ Timely sID T t := by
  induction t with
  | nil => exact ⟨rfl, trivial⟩
  | cons e t ih =>
    obtain ⟨htally, htimely⟩ := ih fun e' he' => h e' (List.mem_cons_of_mem e he')
    obtain ⟨hcall, hiter⟩ := h e List.mem_cons_self
    cases e with
    | call => exact absurd rfl hcall
    | iteration before after => exact absurd rfl (hiter before after)
    | union => exact ⟨htally, by simp [enlarges], htimely⟩
    | widen => exact ⟨htally, by simp [enlarges], htimely⟩
    | metadata => exact ⟨htally, by simp [enlarges], htimely⟩

theorem Uncounted.append {t t' : List Event} (h : Uncounted t) (h' : Uncounted t') :
    Uncounted (t ++ t') := fun e he => (List.mem_append.mp he).elim (h e) (h' e)

end Counting

/-! ## One call -/

/-- The identifier has the full range. -/
def IsFull (m : RangeMap) (sID : String) : Prop := ∃ w, m sID = some (.full w)

theorem IsFull.grown {m m' : RangeMap} {sID : String} (h : IsFull m sID) (hm : Grown m m') :
    IsFull m' sID := by
  obtain ⟨w, hw⟩ := h
  obtain ⟨R, hR, hle⟩ := hm sID _ hw
  exact ⟨w, by rw [hR, ConstantRange.eq_full_of_le hle]⟩

/-- A full range is not enlarged. -/
theorem IsFull.not_enlarges {m m' : RangeMap} {sID : String} (h : IsFull m sID)
    (hm : Grown m m') : enlarges sID (.iteration m m') = false := by
  obtain ⟨w, hw⟩ := h
  obtain ⟨R, hR, hle⟩ := hm sID _ hw
  simp [enlarges, hw, hR, ConstantRange.eq_full_of_le hle]

/-- What holds between two calls: the bound on the whole run. -/
structure Bounded (sID : String) (T : Tally) (s : State) : Prop where
  total_le : T.total ≤ maxIterations + 1
  full : T.total = maxIterations + 1 → IsFull s.intRanges sID

/-- What holds before every iteration of a call.  An identifier that was enlarged
in `maxIterations` iterations of the call changed in the last of these, so that
it is widened next. -/
structure Converging (sID : String) (T : Tally) (s : State) : Prop where
  current_le : T.current ≤ T.itr
  earlier_le : T.earlier ≤ maxIterations + 1
  earlier_full : T.earlier = maxIterations + 1 → IsFull s.intRanges sID
  inTime : T.current = 0 ∨ T.earlier ≤ 1 ∨ T.earlier + T.current ≤ maxIterations
  slow : T.current < maxIterations ∨ T.current = maxIterations ∧
    (IsFull s.intRanges sID ∨
      sID ∈ s.changes ∧ s.intRanges sID ≠ none ∧ maxIterations ≤ T.itr)

section Pass

variable {L : Library} {P : Program} {callees : CalleeMap} {taints : TaintMap}
  {M : Module} {s : State} {r : Report State Event} {sID : String} {T : Tally}

theorem Bounded.converging (h : Bounded sID T s) :
    Converging sID (T.after sID .call) s where
  current_le := le_rfl
  earlier_le := h.total_le
  earlier_full := h.full
  inTime := .inl rfl
  slow := .inl (show 0 < maxIterations by decide)

theorem Converging.bounded (h : Converging sID T s)
    (hfull : T.current = maxIterations → IsFull s.intRanges sID) : Bounded sID T s := by
  have hcurrent : T.current ≤ maxIterations := by
    rcases h.slow with hlt | ⟨heq, -⟩
    · exact hlt.le
    · exact heq.le
  have hearlier := h.earlier_le
  refine ⟨?_, fun htotal => ?_⟩
  · rcases h.inTime with h0 | h1 | hsum
    · simp only [Tally.total, h0]
      exact hearlier
    · unfold Tally.total
      omega
    · exact hsum.trans (Nat.le_succ _)
  · unfold Tally.total at htotal
    rcases h.inTime with h0 | h1 | hsum
    · exact h.earlier_full (by omega)
    · exact hfull (by omega)
    · omega

/-- Widening makes the slow ones full. -/
theorem Converging.begin_full (h : Converging sID T s) (hslow : T.current = maxIterations) :
    IsFull (beginIteration (T.itr + 1) s).intRanges sID := by
  rcases h.slow with hlt | ⟨-, hfull | ⟨hmem, hne, hitr⟩⟩
  · exact absurd hslow hlt.ne
  · exact hfull.grown (grown_iff.mpr (beginIteration_le _ s))
  · obtain ⟨R, hR⟩ := Option.ne_none_iff_exists'.mp hne
    refine ⟨R.width, ?_⟩
    simp [beginIteration, Nat.lt_succ_of_le hitr, widen, widenRanges, hmem, hR]

/-- The counted part of the trace of an iteration. The visits of the functions are tallied first,
and the event at the end of the iteration closes the count. -/
theorem iteration_counted (sID : String)
    (h : iteration L P callees taints M (T.itr + 1) s = .ok r) :
    ∃ b, visitFunctions L P callees taints M (beginIteration (T.itr + 1) s) = .ok b ∧
      b.state = r.state ∧ b.changed = r.changed ∧
      ∃ e, e = .iteration (beginIteration (T.itr + 1) s).intRanges r.state.intRanges ∧
        tally sID T r.trace = T.after sID e ∧
        (Timely sID T r.trace → enlarges sID e = true → T.InTime) := by
  obtain ⟨b, hb, rfl⟩ := iteration_eq_ok.mp h
  refine ⟨b, hb, rfl, rfl, _, rfl, ?_⟩
  have hwiden : Uncounted (if T.itr + 1 > maxIterations then [.widen s.changes] else []) := by
    intro e he
    split at he
    · obtain rfl := List.mem_singleton.mp he
      exact ⟨by simp, by simp⟩
    · cases he
  have hunions : Uncounted b.trace := by
    intro e he
    obtain ⟨sID, R, rfl⟩ := ((visitFunctions_body M).writes _ b hb).trace.2 e he
    exact ⟨by simp, by simp⟩
  obtain ⟨htally, -⟩ := (hwiden.append hunions).after sID T
  constructor
  · rw [tally_append, htally]
    rfl
  · intro htimely
    have hlast := (timely_append.mp htimely).2
    rw [htally] at hlast
    exact hlast.1

/-- An identifier that was slow already is full, so it is not enlarged. -/
theorem Converging.lt_of_enlarges {m : RangeMap} (h : Converging sID T s)
    (hvisit : Grown (beginIteration (T.itr + 1) s).intRanges m)
    (henl : enlarges sID (.iteration (beginIteration (T.itr + 1) s).intRanges m) = true) :
    T.current < maxIterations := by
  rcases h.slow with hlt | ⟨hslow, -⟩
  · exact hlt
  · have hnot := (h.begin_full hslow).not_enlarges hvisit
    rw [henl] at hnot
    cases hnot

/-- An iteration that is not counted. -/
theorem Converging.uncounted {t : State} (h : Converging sID T s)
    (hvisit : Grown (beginIteration (T.itr + 1) s).intRanges t.intRanges) :
    Converging sID ⟨T.earlier, T.current, T.itr + 1⟩ t ∧
      Bounded sID ⟨T.earlier, T.current, T.itr + 1⟩ t := by
  have hbegin : Grown s.intRanges (beginIteration (T.itr + 1) s).intRanges :=
    grown_iff.mpr (beginIteration_le _ s)
  have hfull : T.current = maxIterations → IsFull t.intRanges sID := fun hslow =>
    (h.begin_full hslow).grown hvisit
  have hconv : Converging sID ⟨T.earlier, T.current, T.itr + 1⟩ t :=
    { current_le := h.current_le.trans (Nat.le_succ _)
      earlier_le := h.earlier_le
      earlier_full := fun he => (h.earlier_full he).grown (hbegin.trans hvisit)
      inTime := h.inTime
      slow := h.slow.imp id fun hslow => ⟨hslow.1, .inl (hfull hslow.1)⟩ }
  exact ⟨hconv, hconv.bounded hfull⟩

/-- An iteration that is counted, and after which the identifier is among the changes. -/
theorem Converging.counted {t : State} (h : Converging sID T s)
    (hvisit : Grown (beginIteration (T.itr + 1) s).intRanges t.intRanges)
    (henl : enlarges sID (.iteration (beginIteration (T.itr + 1) s).intRanges t.intRanges) = true)
    (hinTime : T.InTime) (hmem : sID ∈ t.changes) (hsome : t.intRanges sID ≠ none) :
    Converging sID ⟨T.earlier, T.current + 1, T.itr + 1⟩ t := by
  have hbegin : Grown s.intRanges (beginIteration (T.itr + 1) s).intRanges :=
    grown_iff.mpr (beginIteration_le _ s)
  have hlt := h.lt_of_enlarges hvisit henl
  have hcurrent := h.current_le
  refine ⟨by simpa using hcurrent, h.earlier_le, fun he => ?_, ?_, ?_⟩
  · exact (h.earlier_full he).grown (hbegin.trans hvisit)
  · rcases hinTime with hsum | hone
    · exact .inr (.inr (by simp only; omega))
    · exact .inr (.inl hone)
  · rcases Nat.lt_or_ge (T.current + 1) maxIterations with hlt' | hge
    · exact .inl hlt'
    · exact .inr ⟨by simp only; omega, .inr ⟨hmem, hsome, by simp only; omega⟩⟩

/-- One iteration. If nothing changed, the range of the identifier is bounded from here on; if
something did, the count goes on. -/
theorem iteration_converging (hL : L.ranges.UnionLaws) (hs : Converging sID T s)
    (h : iteration L P callees taints M (T.itr + 1) s = .ok r)
    (htimely : Timely sID T r.trace) :
    Converging sID (tally sID T r.trace) r.state ∧
      (r.changed = false → Bounded sID (tally sID T r.trace) r.state) := by
  obtain ⟨b, hb, hst, hch, e, rfl, htally, hinTime⟩ := iteration_counted sID h
  have hwrites := (visitFunctions_body M).writes _ b hb
  have hvisit : Grown (beginIteration (T.itr + 1) s).intRanges r.state.intRanges := by
    rw [← hst]
    exact grown_iff.mpr (hwrites.grows hL).1.1
  rw [htally]
  cases henl : enlarges sID
      (.iteration (beginIteration (T.itr + 1) s).intRanges r.state.intRanges) with
  | false =>
    have hnext : T.after sID
        (.iteration (beginIteration (T.itr + 1) s).intRanges r.state.intRanges) =
          ⟨T.earlier, T.current, T.itr + 1⟩ := by
      simp [Tally.after, henl]
    rw [hnext]
    exact (hs.uncounted hvisit).imp_right fun hbounded _ => hbounded
  | true =>
    have hnext : T.after sID
        (.iteration (beginIteration (T.itr + 1) s).intRanges r.state.intRanges) =
          ⟨T.earlier, T.current + 1, T.itr + 1⟩ := by
      simp [Tally.after, henl]
    rw [hnext]
    have hne : r.state.intRanges sID ≠ (beginIteration (T.itr + 1) s).intRanges sID := by
      intro heq
      simp [enlarges, heq] at henl
    have hmem : sID ∈ r.state.changes := by
      rw [← hst]
      exact (hwrites.changes hL).2 sID (by rwa [hst])
    have hsome : r.state.intRanges sID ≠ none := by
      intro hnone
      cases hb' : (beginIteration (T.itr + 1) s).intRanges sID with
      | none => exact hne (hnone.trans hb'.symm)
      | some R =>
        obtain ⟨R', hR', -⟩ := hvisit sID R hb'
        exact absurd (hnone.symm.trans hR') (by simp)
    refine ⟨hs.counted hvisit henl (hinTime htimely henl) hmem hsome, fun hc => ?_⟩
    have hsilent := (hwrites.grows hL).2 (hch.trans hc)
    rw [hst] at hsilent
    exact absurd (congrFun hsilent sID) hne

/-- The loop over iterations keeps the bound if they are in time. -/
theorem whileChanged_bounded (hL : L.ranges.UnionLaws) {fuel : ℕ} :
    ∀ {T s r}, Converging sID T s →
      whileChanged (iteration L P callees taints M) fuel (T.itr + 1) s = .ok r →
      Timely sID T r.trace → Bounded sID (tally sID T r.trace) r.state := by
  induction fuel with
  | zero => intro T s r _ h; cases h
  | succ fuel ih =>
    intro T s r hs h htimely
    rcases whileChanged_succ_eq_ok.mp h with ⟨hr, hc⟩ | ⟨a, b, ha, hc, hb, rfl⟩
    · exact (iteration_converging hL hs hr htimely).2 hc
    · obtain ⟨hfirst, hrest⟩ := timely_append.mp htimely
      have hnext := (iteration_converging hL hs ha hfirst).1
      obtain ⟨-, -, -, -, e, rfl, htally, -⟩ := iteration_counted sID ha
      have hitr : (tally sID T a.trace).itr = T.itr + 1 := by
        rw [htally]
        rfl
      rw [← hitr] at hb
      rw [Report.andThen_trace, tally_append]
      exact ih hnext hb hrest

/-! ## The run -/

variable (sID) in
/-- The bound holds as long as enlarging iterations are in time. -/
def Keeps (s : State) (r : Report State Event) : Prop :=
  ∀ T, Bounded sID T s → Timely sID T r.trace → Bounded sID (tally sID T r.trace) r.state

/-- Parts that keep the bound may be put one after the other. -/
theorem sequential_keeps : Sequential (Keeps sID) where
  idle _ _ hT _ := hT
  andThen {s r r'} h h' T hT htimely := by
    obtain ⟨hfirst, hrest⟩ := timely_append.mp htimely
    rw [Report.andThen_trace, tally_append]
    exact h' _ (h T hT hfirst) hrest

theorem doModulePass_keeps (hL : L.ranges.UnionLaws) {fuel : ℕ}
    (h : doModulePass L P callees taints fuel M s = .ok r) : Keeps sID s r := by
  obtain ⟨b, hb, rfl⟩ := doModulePass_eq_ok.mp h
  intro T hT htimely
  exact whileChanged_bounded (T := T.after sID .call) hL hT.converging hb htimely.2

/-- Outside of `doModulePass` nothing is counted. -/
theorem Uncounted.keeps (hL : L.ranges.UnionLaws) (ht : Traced L s r)
    (h : Uncounted r.trace) : Keeps sID s r := by
  intro T hT _
  rw [(h.after sID T).1]
  refine ⟨hT.total_le, fun htotal => (hT.full htotal).grown ?_⟩
  rw [ht]
  exact rangesAfter_grown hL _ _

theorem doInitialization_keeps (hL : L.ranges.UnionLaws)
    (h : doInitialization L P M s = .ok r) : Keeps sID s r := by
  have htrace := ((doInitialization_joins M).writes s r h).trace
  refine Uncounted.keeps hL htrace.1 fun e he => ?_
  obtain ⟨sID, R, rfl⟩ := htrace.2 e he
  exact ⟨by simp, by simp⟩

theorem doFinalization_keeps (hL : L.ranges.UnionLaws)
    (h : doFinalization L P M s = .ok r) : Keeps sID s r := by
  refine sequential_keeps.forEach_spec (fun i _ s r h => ?_) h
  obtain rfl := Except.ok.inj h
  refine Uncounted.keeps hL ?_ fun e he => ?_
  · unfold Traced
    split <;> rfl
  · split at he
    · obtain rfl := List.mem_singleton.mp he
      exact ⟨by simp, by simp⟩
    · cases he

/-- In a run in which no iteration that enlarges the range of an identifier is
late, the range is enlarged in at most `MaxIterations + 1` iterations, and if it
is enlarged that often, it ends full. -/
theorem rangePass_widens (hL : L.ranges.UnionLaws) {fuel : ℕ} {modules : List Module}
    (h : (rangePass L P callees taints).run fuel modules .init = .ok r)
    (htimely : Timely sID .zero r.trace) :
    (tally sID .zero r.trace).total ≤ maxIterations + 1 ∧
      ((tally sID .zero r.trace).total = maxIterations + 1 →
        IsFull r.state.intRanges sID) := by
  have hkeeps : Keeps sID State.init r := by
    obtain ⟨r₁, r₂, r₃, h₁, h₂, h₃, rfl⟩ := IterativeModulePass.run_eq_ok.mp h
    refine sequential_keeps.andThen ?_ (sequential_keeps.andThen ?_ ?_)
    · exact sequential_keeps.forEach_spec (fun M _ s r h => doInitialization_keeps hL h) h₁
    · exact sequential_keeps.whileChanged_spec (fun _ _ _ h => sequential_keeps.forEach_spec
        (fun M _ s r h => doModulePass_keeps hL h) h) h₂
    · exact sequential_keeps.forEach_spec (fun M _ s r h => doFinalization_keeps hL h) h₃
  have hzero : Bounded sID .zero State.init := ⟨by decide, fun h => by cases h⟩
  obtain ⟨hle, hfull⟩ := hkeeps _ hzero htimely
  exact ⟨hle, hfull⟩

end Pass

/-- The counter of one module is widened in time. -/
theorem tick_widens : ∃ r,
    (rangePass .reference tickProgram (fun _ => none) .init).run 5 tickModules .init = .ok r ∧
    (tally "var.ticks" .zero r.trace).total ≤ maxIterations + 1 ∧
    ((tally "var.ticks" .zero r.trace).total = maxIterations + 1 →
      IsFull r.state.intRanges "var.ticks") := by
  have hrun : resultIs ((rangePass .reference tickProgram (fun _ => none) .init).run 5
      tickModules .init) (fun r => decide (Timely "var.ticks" .zero r.trace)) = true := by
    decide +kernel
  obtain ⟨r, hr, htimely⟩ := of_resultIs hrun
  exact ⟨r, hr, rangePass_widens RangeOps.reference_unionLaws hr (of_decide_eq_true htimely)⟩

/-- Seven modules; each sets one global variable to a constant of its own. -/
def levelProgram : Program where
  insts := (List.range 7).flatMap fun n => [
    ⟨n, .other, .store (.constInt (.ofNat 32 n)) (.global 0), some "var.level", none⟩,
    ⟨n, .other, .ret none, none, none⟩]
  blocks := (List.range 7).map fun n => ⟨n, [2 * n], 2 * n + 1, []⟩
  funcs := (List.range 7).map fun n =>
    ⟨⟨"set", .internal, toString n ++ ".c"⟩, false, [], .other, [n]⟩
  globals := [⟨⟨"level", .external, "0.c"⟩, .int 32, none⟩]
  structs := []
  consts := []

/-- The modules of `levelProgram`; the first one owns the variable. -/
def levelModules : List Module :=
  (List.range 7).map fun n => ⟨toString n ++ ".c", if n = 0 then [0] else [], [n]⟩

/-- Each of seven calls enlarges the range of the variable in its first
iteration, and nothing is widened. -/
theorem level_not_widened : ∃ r,
    (rangePass .reference levelProgram (fun _ => none) .init).run 3 levelModules .init =
      .ok r ∧
    maxIterations + 1 < (tally "var.level" .zero r.trace).total ∧
    ¬ IsFull r.state.intRanges "var.level" := by
  have hrun : resultIs ((rangePass .reference levelProgram (fun _ => none) .init).run 3
      levelModules .init) (fun r =>
        decide (maxIterations + 1 < (tally "var.level" .zero r.trace).total) &&
          decide (r.state.intRanges "var.level" = some (.ofBounds 32 0 7))) = true := by
    decide +kernel
  obtain ⟨r, hr, hrun⟩ := of_resultIs hrun
  obtain ⟨htotal, hrange⟩ := Bool.and_eq_true_iff.mp hrun
  refine ⟨r, hr, of_decide_eq_true htotal, fun ⟨w, hw⟩ => ?_⟩
  have hbounds := Option.some.inj ((of_decide_eq_true hrange).symm.trans hw)
  have hfull : (ConstantRange.ofBounds 32 0 7).isFullSet = true := by
    rw [hbounds]
    rfl
  exact absurd hfull (by decide)

end Kint.Range
