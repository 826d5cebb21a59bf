import Kint.Range.Access
import Mathlib.Order.WithBot

/-!
# How the ranges of identifiers change

All that a function body does to the ranges of identifiers is a sequence of calls of
`unionRange` (`Writes`).  Ranges therefore only grow, the reports are exact, and the trace of a
run says how every range came about (`rangesAfter`).

## Main definitions

* `Query.Caches`: a query leaves the ranges of identifiers alone.
* `Writes`, `Body`: caches change and ranges are joined, to certain identifiers only.  `Body` is
  closed under the ways in which the pass is put together (`seq`, `forEach`, `withQuery`), and
  `PassWithin.body` gets it from the access of a part.
* `instIds`, `functionIds`, `moduleIds`: the identifiers that are written.
* `State.ranges`, `Grown`: the order on ranges of identifiers, pointwise; an identifier without
  a range is least.
* `rangesAfter`: the ranges that the events of a trace lead to.  The trace of the transcription
  has an event for each join that is not empty and for each widening.

## Main results

* `joined_exact`: joining reports a change exactly when the range grows.  Here the laws of the
  interval library are used: a union covers both arguments, and it is the first one if that
  covers the second.
* `Writes.grows`: a body reports a change exactly when some range has grown.
* `Writes.trace`: the ranges after a body are those that its trace leads to.
-/

namespace Kint.Range

open Iteration

/-! ## Queries -/

section Query

variable {α β : Type}

/-- A query leaves the ranges of identifiers alone, and it never runs out of
fuel. -/
structure Query.Caches (q : Query α) : Prop where
  same : ∀ s a s', q s = .ok (a, s') → s'.intRanges = s.intRanges ∧ s'.changes = s.changes
  ne_fuel : ∀ s, q s ≠ .error .fuel

theorem Query.Caches.pure (a : α) : (pure a : Query α).Caches where
  same s b s' h := by
    obtain ⟨-, rfl⟩ := Query.pure_eq_ok.mp h
    exact ⟨rfl, rfl⟩
  ne_fuel s h := by cases h

theorem Query.Caches.bind {q : Query α} {k : α → Query β} (hq : q.Caches)
    (hk : ∀ a, (k a).Caches) : (q >>= k).Caches where
  same s b s' h := by
    obtain ⟨a, t, ha, h⟩ := Query.bind_eq_ok.mp h
    obtain ⟨hr, hc⟩ := hq.same s a t ha
    obtain ⟨hr', hc'⟩ := (hk a).same t b s' h
    exact ⟨hr'.trans hr, hc'.trans hc⟩
  ne_fuel s h := by
    cases ha : q s with
    | error e =>
      refine hq.ne_fuel s (ha.trans ?_)
      have h' : (q s >>= fun p => k p.1 p.2) = .error .fuel := h
      simpa [ha] using h'
    | ok p =>
      have h' : (q s >>= fun p => k p.1 p.2) = .error .fuel := h
      exact (hk p.1).ne_fuel p.2 (by simpa [ha] using h')

end Query

section Pass

variable {L : Library} {P : Program} {callees : CalleeMap} {taints : TaintMap}

theorem getRange_caches (BB : BlockId) (V : Value) :
    (getRange L P callees taints BB V).Caches where
  same s a s' h := by
    unfold getRange at h
    split at h
    · obtain ⟨-, rfl⟩ := Prod.mk.inj (Except.ok.inj h)
      exact ⟨rfl, rfl⟩
    · split at h
      · obtain ⟨-, rfl⟩ := Prod.mk.inj (Except.ok.inj h)
        exact ⟨rfl, rfl⟩
      · split at h
        · cases h
        · obtain ⟨-, rfl⟩ := Prod.mk.inj (Except.ok.inj h)
          split <;> exact ⟨rfl, rfl⟩
  ne_fuel s h := by
    unfold getRange at h
    split at h
    · cases h
    · split at h
      · cases h
      · split at h <;> cases h

/-- No step of a query does more than to change the maps of blocks. -/
theorem QueryWithin.caches {A : Access} {α : Type} {q : Query α}
    (h : QueryWithin L P callees taints A q) : q.Caches := by
  induction h with
  | pure a => exact .pure a
  | ask _ => exact getRange_caches _ _
  | copy _ => exact ⟨fun s a s' h => by cases h; exact ⟨rfl, rfl⟩, fun s h => by cases h⟩
  | merge _ => exact ⟨fun s a s' h => by cases h; exact ⟨rfl, rfl⟩, fun s h => by cases h⟩
  | bind _ _ ihq ihk => exact ihq.bind ihk

/-! ## Ranges ordered by inclusion -/

/-- The ranges of a state, ordered pointwise; a missing range is the least. -/
def State.ranges (s : State) : String → WithBot ConstantRange := s.intRanges

/-- What is in `m` is in `m'`, possibly larger and at the same width. -/
def Grown (m m' : RangeMap) : Prop :=
  ∀ sID R, m sID = some R → ∃ R', m' sID = some R' ∧ R ≤ R'

theorem grown_iff {s s' : State} : Grown s.intRanges s'.intRanges ↔ s.ranges ≤ s'.ranges :=
  forall_congr' fun _ => WithBot.le_iff_forall.symm

theorem Grown.refl (m : RangeMap) : Grown m m := fun _ R h => ⟨R, h, le_rfl⟩

theorem Grown.trans {a b c : RangeMap} (h : Grown a b) (h' : Grown b c) : Grown a c := by
  intro sID R hR
  obtain ⟨R', hR', hle⟩ := h sID R hR
  obtain ⟨R'', hR'', hle'⟩ := h' sID R' hR'
  exact ⟨R'', hR'', hle.trans hle'⟩

section UnionLaws

variable (hL : L.ranges.UnionLaws)
include hL

theorem le_joined {S R : ConstantRange} : S ≤ (joined L (some S) R).2 :=
  hL.le_safeUnion S R

/-- Joining reports exactly when the entry grows. -/
theorem joined_exact (entry : WithBot ConstantRange) (R : ConstantRange) :
    ((joined L entry R).1 = false ∧ some (joined L entry R).2 = entry) ∨
      ((joined L entry R).1 = true ∧ entry < (joined L entry R).2) := by
  cases entry with
  | bot => exact .inr ⟨rfl, WithBot.bot_lt_coe _⟩
  | coe S =>
    rcases hL.safeUnion_exact S R with ⟨hc, heq⟩ | ⟨hc, hlt⟩
    · exact .inl ⟨hc, congrArg some heq⟩
    · exact .inr ⟨hc, WithBot.coe_lt_coe.mpr hlt⟩

/-- One update grows the map, strictly when it reports. -/
theorem unionRange_grows {sID : String} {R : ConstantRange} {s : State}
    {r : Report State Event} (h : unionRange L sID R s = .ok r) :
    r.Grows State.ranges s ∧ r.Silent State.intRanges s := by
  unfold unionRange at h
  split at h
  · obtain rfl := Except.ok.inj h
    exact ⟨⟨le_rfl, by simp⟩, fun _ => rfl⟩
  · obtain rfl := Except.ok.inj h
    rcases joined_exact hL (s.ranges sID) R with ⟨hc, heq⟩ | ⟨hc, hlt⟩
    · have hsame : Function.update s.intRanges sID (some (joined L (s.intRanges sID) R).2) =
          s.intRanges := Function.update_eq_self_iff.mpr heq
      refine ⟨⟨le_of_eq hsame.symm, fun hc' => ?_⟩, fun _ => hsame⟩
      exact absurd (hc'.symm.trans hc) (by simp)
    · have hup : s.ranges < Function.update s.ranges sID
          ((joined L (s.intRanges sID) R).2 : ConstantRange) := by
        rwa [lt_update_self_iff]
      refine ⟨⟨hup.le, fun _ => hup⟩, fun hc' => ?_⟩
      exact absurd (hc'.symm.trans hc) (by simp)

end UnionLaws

/-! ## What a function body does -/

variable (L) in
/-- Ranges are cached and calls of `unionRange` made, for identifiers in `ids`
only. -/
inductive Writes (ids : String → Prop) : State → Report State Event → Prop
  | caches {s s' : State} : s'.intRanges = s.intRanges → s'.changes = s.changes →
      Writes ids s (.idle s')
  | union {s : State} {sID : String} {R : ConstantRange} {r : Report State Event} :
      ids sID → unionRange L sID R s = .ok r → Writes ids s r
  | andThen {s : State} {r r' : Report State Event} :
      Writes ids s r → Writes ids r.state r' → Writes ids s (r.andThen r')

variable (L) in
/-- A part of the pass that writes to `ids` only and never runs out of fuel. -/
structure Body (ids : String → Prop) (f : Pass State Event) : Prop where
  writes : ∀ s r, f s = .ok r → Writes L ids s r
  ne_fuel : ∀ s, f s ≠ .error .fuel

theorem sequential_writes (ids : String → Prop) :
    Sequential fun s (r : Report State Event) => Writes L ids s r :=
  ⟨fun _ => .caches rfl rfl, .andThen⟩

theorem Writes.mono {ids ids' : String → Prop} {s : State} {r : Report State Event}
    (hids : ∀ sID, ids sID → ids' sID) (h : Writes L ids s r) : Writes L ids' s r := by
  induction h with
  | caches hr hc => exact .caches hr hc
  | union hID h => exact .union (hids _ hID) h
  | andThen _ _ ih ih' => exact .andThen ih ih'

namespace Body

variable {ids : String → Prop} {f g : Pass State Event}

theorem mono {ids' : String → Prop} (hids : ∀ sID, ids sID → ids' sID) (hf : Body L ids f) :
    Body L ids' f :=
  ⟨fun s r h => (hf.writes s r h).mono hids, hf.ne_fuel⟩

/-- Only caches change. -/
theorem caching {k : State → State}
    (hk : ∀ s, (k s).intRanges = s.intRanges ∧ (k s).changes = s.changes) :
    Body L ids fun s => .ok (.idle (k s)) where
  writes s r h := by
    obtain rfl := Except.ok.inj h
    exact .caches (hk s).1 (hk s).2
  ne_fuel _ h := by cases h

theorem idle : Body L ids fun s => .ok (.idle s) := caching fun _ => ⟨rfl, rfl⟩

theorem union {sID : String} {R : ConstantRange} (hID : ids sID) :
    Body L ids (unionRange L sID R) where
  writes _ _ h := .union hID h
  ne_fuel s h := by
    unfold unionRange at h
    split at h <;> cases h

/-- Caches change, and then the rest runs. -/
theorem after {k : State → State}
    (hk : ∀ s, (k s).intRanges = s.intRanges ∧ (k s).changes = s.changes)
    (hf : Body L ids f) : Body L ids fun s => f (k s) where
  writes s r h := by
    have hfirst : Writes L ids s (.idle (k s)) := .caches (hk s).1 (hk s).2
    simpa [Report.andThen] using hfirst.andThen (hf.writes (k s) r h)
  ne_fuel s := hf.ne_fuel (k s)

theorem seq (hf : Body L ids f) (hg : Body L ids g) : Body L ids (f.seq g) where
  writes s r h := by
    obtain ⟨a, b, ha, hb, rfl⟩ := Pass.seq_eq_ok.mp h
    exact .andThen (hf.writes s a ha) (hg.writes _ b hb)
  ne_fuel s h := by
    unfold Pass.seq at h
    cases ha : f s with
    | error e => exact hf.ne_fuel s (ha.trans (by simpa [ha] using h))
    | ok a =>
      cases hb : g a.state with
      | error e => exact hg.ne_fuel a.state (hb.trans (by simpa [ha, hb] using h))
      | ok b => simp [ha, hb] at h

theorem forEach {ι : Type*} {h : ι → Pass State Event} {xs : List ι}
    (hh : ∀ x ∈ xs, Body L ids (h x)) : Body L ids (forEach h xs) where
  writes _ _ hr := (sequential_writes ids).forEach_spec (fun x hx => (hh x hx).writes) hr
  ne_fuel _ := forEach_ne_error (I := fun _ => True) (fun x hx s _ => (hh x hx).ne_fuel s)
    (fun _ _ _ _ _ _ => trivial) trivial

theorem withQuery {α : Type} {q : Query α} {k : α → Pass State Event} (hq : q.Caches)
    (hk : ∀ a, Body L ids (k a)) : Body L ids (withQuery q k) where
  writes s r h := by
    obtain ⟨⟨a, t⟩, ha, h⟩ := Iteration.bind_eq_ok.mp h
    obtain ⟨hr, hc⟩ := hq.same s a t ha
    have hfirst : Writes L ids s (.idle t) := .caches hr hc
    simpa [Report.andThen] using hfirst.andThen ((hk a).writes t r h)
  ne_fuel s h := by
    unfold Range.withQuery at h
    cases ha : q s with
    | error e => exact hq.ne_fuel s (ha.trans (by simpa [ha] using h))
    | ok p => exact (hk p.1).ne_fuel p.2 (by simpa [ha] using h)

end Body

/-- A join to the entry of a map leaves identifiers alone. -/
theorem unionBlockRange_same (BB : BlockId) (V : Value) (R : ConstantRange) (s : State) :
    (unionBlockRange L BB V R s).intRanges = s.intRanges ∧
      (unionBlockRange L BB V R s).changes = s.changes := by
  unfold unionBlockRange
  split <;> exact ⟨rfl, rfl⟩

variable (L P callees) in
/-- The identifiers whose ranges an instruction of `F` updates. -/
def instIds (F : FuncId) (i : InstId) : List String :=
  match (P.inst i).op with
  | .store .. => [getValueId L P (.inst i)]
  | .ret _ => [getRetId L P F]
  | .call _ args => getCallRetId L P i ::
      ((callees i).elim [] L.elements).flatMap fun f =>
        (List.range args.length).map (getArgId L P f)
  | _ => []

/-- A part of the pass joins to the ranges of the identifiers that it may. -/
theorem PassWithin.body {A : Access} {f : Pass State Event}
    (h : PassWithin L P callees taints A f) : Body L A.joins f := by
  induction h with
  | idle => exact .idle
  | union hID => exact .union hID
  | record _ _ ih => exact .after (unionBlockRange_same _ _ _) ih
  | query hq _ ih => exact .withQuery hq.caches ih
  | seq _ _ ihf ihg => exact .seq ihf ihg

/-- What an instruction writes is among its identifiers. -/
theorem InstWrites.mem_instIds {F : FuncId} {i : InstId} {sID : String} {w : ℕ}
    (h : InstWrites L P callees F i sID w) : sID ∈ instIds L P callees F i := by
  cases h with
  | store hop => simp [instIds, hop]
  | ret hop => simp [instIds, hop]
  | argument hop hcallees hf _ harg _ =>
    obtain ⟨hno, -⟩ := List.mem_zipIdx' harg
    simp only [instIds, hop, hcallees]
    refine List.mem_cons_of_mem _ (List.mem_flatMap.mpr ⟨_, (L.mem_elements _ _).mpr hf, ?_⟩)
    exact List.mem_map.mpr ⟨_, List.mem_range.mpr hno, rfl⟩
  | result hop => simp [instIds, hop]

variable (L P callees) in
/-- The identifiers whose ranges a function updates. -/
def functionIds (F : FuncId) : List String :=
  (P.instsOf F).flatMap (instIds L P callees F)

variable (L P callees) in
/-- The identifiers whose ranges a module updates. -/
def moduleIds (M : Module) : List String := M.functions.flatMap (functionIds L P callees)

variable (L P callees) in
/-- A function of a module writes a value of `w` bits under an identifier. -/
inductive BodyWrites (M : Module) (sID : String) (w : ℕ) : Prop
  | inst {F : FuncId} {i : InstId} : F ∈ M.functions → i ∈ P.instsOf F →
      InstWrites L P callees F i sID w → BodyWrites M sID w

variable (L P callees) in
/-- A module writes a value of `w` bits under an identifier: in an initializer, or
in a function. -/
inductive ModuleWrites (M : Module) : String → ℕ → Prop
  | initializer {sID : String} {R : ConstantRange} : (sID, R) ∈ initializerRanges L P M →
      ModuleWrites M sID R.width
  | body {sID : String} {w : ℕ} : BodyWrites L P callees M sID w → ModuleWrites M sID w

/-- The visit of a function writes what its instructions do. -/
theorem updateRangeForFunction_writes (F : FuncId) :
    Body L (fun sID => ∃ w, ∃ i ∈ P.instsOf F, InstWrites L P callees F i sID w)
      (updateRangeForFunction L P callees taints F) := by
  refine Body.after (k := fun s => { s with funcVRMs := fun _ _ => none })
    (fun s => ⟨rfl, rfl⟩) (Body.forEach fun BB hBB => ?_)
  refine updateRangeForBlock_within.body.mono fun sID ⟨i, hi, w, h⟩ => ⟨w, i, ?_, h⟩
  exact List.mem_flatMap.mpr ⟨BB, hBB, hi⟩

/-- The visits of the functions of a module write what these do. -/
theorem visitFunctions_writes (M : Module) :
    Body L (fun sID => ∃ w, BodyWrites L P callees M sID w)
      (visitFunctions L P callees taints M) := by
  refine Body.forEach fun F hF => ?_
  refine (updateRangeForFunction_writes F).mono fun sID ⟨w, i, hi, h⟩ => ⟨w, ?_⟩
  exact .inst (List.mem_filter.mp hF).1 hi h

/-- What the functions of a module write is among the identifiers of the module. -/
theorem BodyWrites.mem_moduleIds {M : Module} {sID : String} {w : ℕ}
    (h : BodyWrites L P callees M sID w) : sID ∈ moduleIds L P callees M := by
  obtain ⟨hF, hi, h⟩ := h
  exact List.mem_flatMap.mpr ⟨_, hF, List.mem_flatMap.mpr ⟨_, hi, h.mem_instIds⟩⟩

/-- The visits of the functions of a module write to its identifiers only. -/
theorem visitFunctions_body (M : Module) :
    Body L (· ∈ moduleIds L P callees M) (visitFunctions L P callees taints M) :=
  (visitFunctions_writes M).mono fun _ ⟨_, h⟩ => h.mem_moduleIds

/-! ## What follows for the ranges -/

/-- Writes report a change exactly when a range has grown, and otherwise leave the ranges as they
are. -/
theorem Writes.grows (hL : L.ranges.UnionLaws) {ids : String → Prop} {s : State}
    {r : Report State Event} (h : Writes L ids s r) :
    r.Grows State.ranges s ∧ r.Silent State.intRanges s := by
  have hseq := (sequential_grows (τ := Event) State.ranges).and
    (sequential_silent State.intRanges)
  induction h with
  | caches hr _ => exact ⟨⟨le_of_eq hr.symm, by simp⟩, fun _ => hr⟩
  | union _ h => exact unionRange_grows hL h
  | andThen _ _ ih ih' => exact hseq.andThen ih ih'

/-- Only identifiers in `ids` get a range that had none. -/
theorem Writes.new {ids : String → Prop} {s : State} {r : Report State Event}
    (h : Writes L ids s r) {sID : String} (hnew : r.state.intRanges sID ≠ none) :
    s.intRanges sID ≠ none ∨ ids sID := by
  induction h with
  | caches hr _ => exact .inl (by simpa [hr] using hnew)
  | @union s sID' R r hID h =>
    unfold unionRange at h
    split at h
    · obtain rfl := Except.ok.inj h
      exact .inl hnew
    · obtain rfl := Except.ok.inj h
      by_cases heq : sID = sID'
      · exact .inr (heq ▸ hID)
      · exact .inl (by simpa [heq] using hnew)
  | andThen _ _ ih ih' =>
    rcases ih' hnew with h | h
    · exact ih h
    · exact .inr h

/-- An identifier whose range changed is in `Changes`. A union is put into the set when the new
range differs from the one that was there. -/
theorem Writes.changes (hL : L.ranges.UnionLaws) {ids : String → Prop} {s : State}
    {r : Report State Event} (h : Writes L ids s r) :
    s.changes ⊆ r.state.changes ∧
      ∀ sID, r.state.intRanges sID ≠ s.intRanges sID → sID ∈ r.state.changes := by
  induction h with
  | caches hr hc => exact ⟨by simp [hc], fun sID hne => absurd (congrFun hr sID) hne⟩
  | @union s sID' R r hID h =>
    unfold unionRange at h
    split at h
    · obtain rfl := Except.ok.inj h
      exact ⟨Finset.Subset.refl _, fun sID hne => absurd rfl hne⟩
    · obtain rfl := Except.ok.inj h
      refine ⟨?_, fun sID hne => ?_⟩
      · simp only
        split
        · exact Finset.subset_insert _ _
        · exact Finset.Subset.refl _
      · by_cases heq : sID = sID'
        · subst heq
          rcases joined_exact hL (s.ranges sID) R with ⟨-, hsame⟩ | ⟨hc, -⟩
          · have hkept : Function.update s.intRanges sID
                (some (joined L (s.intRanges sID) R).2) sID = s.intRanges sID := by
              rw [Function.update_self]
              exact hsame
            exact absurd hkept hne
          · have hmem : sID ∈ (if (joined L (s.ranges sID) R).1 then insert sID s.changes
                else s.changes) := by
              rw [if_pos hc]
              exact Finset.mem_insert_self _ _
            exact hmem
        · exact absurd (Function.update_of_ne heq _ _) hne
  | @andThen s r r' _ _ ih ih' =>
    refine ⟨ih.1.trans ih'.1, fun sID hne => ?_⟩
    by_cases hmid : r.state.intRanges sID = s.intRanges sID
    · exact ih'.2 sID (by rwa [hmid])
    · exact ih'.1 (ih.2 sID hmid)

variable (L) in
/-- What an event does to the ranges. -/
def afterEvent (m : RangeMap) : Event → RangeMap
  | .union sID R => Function.update m sID (some (joined L (m sID) R).2)
  | .widen sIDs => widenRanges sIDs m
  | .call => m
  | .iteration _ _ => m
  | .metadata _ _ => m

variable (L) in
/-- The ranges after the events of a trace. -/
def rangesAfter (m : RangeMap) (t : List Event) : RangeMap := t.foldl (afterEvent L) m

theorem rangesAfter_append (m : RangeMap) (t t' : List Event) :
    rangesAfter L m (t ++ t') = rangesAfter L (rangesAfter L m t) t' :=
  List.foldl_append

/-- The trace of a function body says how the ranges came about; it consists of
joins. -/
theorem Writes.trace {ids : String → Prop} {s : State} {r : Report State Event}
    (h : Writes L ids s r) :
    r.state.intRanges = rangesAfter L s.intRanges r.trace ∧
      ∀ e ∈ r.trace, ∃ sID R, e = .union sID R := by
  induction h with
  | caches hr _ => exact ⟨hr, by simp⟩
  | union _ h =>
    unfold unionRange at h
    split at h
    · obtain rfl := Except.ok.inj h
      exact ⟨rfl, by simp⟩
    · obtain rfl := Except.ok.inj h
      exact ⟨rfl, by simp⟩
  | andThen _ _ ih ih' =>
    refine ⟨?_, fun e he => ?_⟩
    · rw [Report.andThen_state, Report.andThen_trace, rangesAfter_append, ← ih.1, ih'.1]
    · exact (List.mem_append.mp he).elim (ih.2 e) (ih'.2 e)

theorem widenRanges_grown (sIDs : Finset String) (m : RangeMap) :
    Grown m (widenRanges sIDs m) := by
  intro sID R hR
  unfold widenRanges
  split
  · exact ⟨.full R.width, by simp [hR], ConstantRange.le_full R⟩
  · exact ⟨R, hR, le_rfl⟩

/-- Every event lets the ranges grow. -/
theorem afterEvent_grown (hL : L.ranges.UnionLaws) (m : RangeMap) (e : Event) :
    Grown m (afterEvent L m e) := by
  cases e with
  | union sID R =>
    intro sID' R' hR'
    by_cases heq : sID' = sID
    · subst heq
      refine ⟨(joined L (m sID') R).2, by simp [afterEvent], ?_⟩
      rw [hR']
      exact le_joined hL
    · exact ⟨R', by simpa [afterEvent, heq] using hR', le_rfl⟩
  | widen sIDs => exact widenRanges_grown sIDs m
  | call => exact Grown.refl m
  | iteration => exact Grown.refl m
  | metadata => exact Grown.refl m

theorem rangesAfter_grown (hL : L.ranges.UnionLaws) (m : RangeMap) (t : List Event) :
    Grown m (rangesAfter L m t) := by
  induction t generalizing m with
  | nil => exact Grown.refl m
  | cons e t ih => exact (afterEvent_grown hL m e).trans (ih _)

end Pass

end Kint.Range
