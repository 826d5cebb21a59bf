import Kint.CallGraph.Pass
import Kint.Taint.Pass
import Kint.Range.Termination

/-!
# The ranges that are written back

`main` runs the three passes on one context.  `RangePass` reads the full set for an identifier
that is a taint source (`lookupRange`), but what it joins into the range of the identifier is
whatever the program stores, passes or returns, and `doFinalization` writes that range back
without asking for taint.  So the metadata of a tainted load excludes no value exactly when
other writes happen to cover its type; `Covered` says how they can.

## The workflow

`mainWorkflow` is the part of `main` that runs the passes: the call graph first, then taint,
then ranges, each with what the passes before it have left in the context.

## The trace

Metadata is written at the end only, and from the final ranges (`run_metadata`).  The final
range of an identifier is what the joins and widenings of the trace make of it (`rangesAfter`,
of `Kint.Range.Growth`), so the condition is stated about the joins: `Covered` has a case for an
identifier to which nothing is joined, one for joins that have all values together, and one for
an identifier that was widened.

## Main results

* `mainWorkflow_agrees`: if the joins under the identifiers of tainted loads and calls cover the
  types of these, their metadata excludes no value.
* `reset_excludes`: a variable is read from a device and reset to a constant, and the load gets
  the constant as its only value.
-/

namespace Kint.Range

open Iteration

/-! ## The main workflow -/

/-- What `main` leaves behind: the context, and the report of `RangePass`. -/
structure Outcome where
  callGraph : CallGraph.State
  taints : TaintMap
  ranges : Report State Event

/-- The main workflow of `main`. -/
def mainWorkflow (L : Library) (P : Program) (fuel : ℕ) (modules : List Module) :
    Except Stop Outcome := do
  let CG ← (CallGraph.callGraphPass L P).run fuel modules .init
  let T ← (Taint.taintPass L P CG.state.callees).run fuel modules .init
  let R ← (rangePass L P CG.state.callees T.state).run fuel modules .init
  return ⟨CG.state, T.state, R⟩

/-- The ranges of the workflow are those of a run of the pass. -/
theorem mainWorkflow_ranges {L : Library} {P : Program} {fuel : ℕ} {modules : List Module}
    {out : Outcome} (h : mainWorkflow L P fuel modules = .ok out) :
    (rangePass L P out.callGraph.callees out.taints).run fuel modules .init =
      .ok out.ranges := by
  obtain ⟨CG, -, h⟩ := Iteration.bind_eq_ok.mp h
  obtain ⟨T, -, h⟩ := Iteration.bind_eq_ok.mp h
  obtain ⟨R, hR, h⟩ := Iteration.bind_eq_ok.mp h
  obtain rfl := Except.ok.inj h
  exact hR

/-- The number of bits of a value of a type, for pointers of `ptrBits` bits. -/
def bitWidth (ptrBits : ℕ) : Ty → Option ℕ
  | .int w => some w
  | .ptr _ => some ptrBits
  | _ => none

/-- `intrange` metadata `[Lo, Hi)`, which may wrap around, allows a value. -/
def Allows (range : APInt × APInt) (n : ℕ) : Prop :=
  if range.1.toNat < range.2.toNat then range.1.toNat ≤ n ∧ n < range.2.toNat
  else range.1.toNat ≤ n ∨ n < range.2.toNat

instance (range : APInt × APInt) (n : ℕ) : Decidable (Allows range n) := by
  unfold Allows
  infer_instance

/-- The metadata that a run writes. -/
def annotations (t : List Event) : List (InstId × Option (APInt × APInt)) :=
  t.filterMap fun
    | .metadata i range => some (i, range)
    | _ => none

/-- The ranges that are joined into that of an identifier. -/
def writes (sID : String) (t : List Event) : List ConstantRange :=
  t.filterMap fun
    | .union sID' R => if sID' = sID then some R else none
    | _ => none

theorem mem_annotations {t : List Event} {i : InstId} {md : Option (APInt × APInt)} :
    (i, md) ∈ annotations t ↔ .metadata i md ∈ t := by
  constructor
  · intro h
    obtain ⟨e, he, heq⟩ := List.mem_filterMap.mp h
    cases e with
    | metadata j range =>
      obtain ⟨rfl, rfl⟩ := Prod.mk.inj (Option.some.inj heq)
      exact he
    | _ => cases heq
  · exact fun h => List.mem_filterMap.mpr ⟨_, h, rfl⟩

theorem mem_writes {t : List Event} {sID : String} {R : ConstantRange} :
    R ∈ writes sID t ↔ .union sID R ∈ t := by
  constructor
  · intro h
    obtain ⟨e, he, heq⟩ := List.mem_filterMap.mp h
    cases e with
    | union sID' R' =>
      obtain ⟨rfl, hR⟩ := Option.ite_none_right_eq_some.mp heq
      obtain rfl := Option.some.inj hR
      exact he
    | _ => cases heq
  · exact fun h => List.mem_filterMap.mpr ⟨_, h, if_pos rfl⟩

section Pass

variable {L : Library} {P : Program} {callees : CalleeMap} {taints : TaintMap}
  {s : State} {r : Report State Event} {m : RangeMap} {sID : String} {i : InstId}

/-- The metadata of an instruction has the bounds of the range of its
identifier. -/
theorem allows_of_intrange {range : APInt × APInt} {R : ConstantRange} {n : ℕ}
    (h : intrange L P m i = some range) (hR : m (getValueId L P (.inst i)) = some R)
    (hn : R.Has n) : Allows range n := by
  simp only [intrange, hR] at h
  split at h
  · cases h
  · split at h
    · cases h
    · obtain rfl := Option.some.inj h
      cases R with
      | empty w => cases hn
      | full w => simp [ConstantRange.isFullSet] at *
      | interval w l u hl hu hne =>
        have hlo : (APInt.ofNat w l).toNat = l := by
          rw [APInt.toNat_ofNat, Nat.mod_eq_of_lt hl]
        have hhi : (APInt.ofNat w u).toNat = u := by
          rw [APInt.toNat_ofNat, Nat.mod_eq_of_lt hu]
        simp only [Allows, ConstantRange.lower, ConstantRange.upper, ConstantRange.width, hlo,
          hhi]
        exact hn

/-! ## When metadata is written -/

/-- No metadata is written. -/
def Unannotated (r : Report State Event) : Prop := ∀ i md, .metadata i md ∉ r.trace

/-- Parts without metadata may be put one after the other. -/
theorem sequential_unannotated :
    Sequential fun (_ : State) (r : Report State Event) => Unannotated r where
  idle _ _ _ := List.not_mem_nil
  andThen h h' i md hmd := (List.mem_append.mp hmd).elim (h i md) (h' i md)

theorem Writes.unannotated {ids : String → Prop} (h : Writes L ids s r) : Unannotated r := by
  intro i md hmd
  obtain ⟨sID, R, heq⟩ := h.trace.2 _ hmd
  cases heq

theorem doModulePass_unannotated {fuel : ℕ} {M : Module}
    (h : doModulePass L P callees taints fuel M s = .ok r) : Unannotated r := by
  obtain ⟨b, hb, rfl⟩ := doModulePass_eq_ok.mp h
  have hloop : Unannotated b := by
    refine sequential_unannotated.whileChanged_spec (fun itr s r hr => ?_) hb
    obtain ⟨v, hv, rfl⟩ := iteration_eq_ok.mp hr
    intro i md hmd
    rcases List.mem_append.mp hmd with hmd | hmd
    · rcases List.mem_append.mp hmd with hmd | hmd
      · split at hmd <;> simp at hmd
      · exact ((visitFunctions_body M).writes _ v hv).unannotated i md hmd
    · simp at hmd
  intro i md hmd
  rcases List.mem_cons.mp hmd with heq | hmd
  · cases heq
  · exact hloop i md hmd

/-- The ranges stay, and metadata is computed from them. -/
def Annotates (L : Library) (P : Program) (s : State) (r : Report State Event) : Prop :=
  r.state.intRanges = s.intRanges ∧
    ∀ i md, .metadata i md ∈ r.trace → md = intrange L P s.intRanges i

/-- Finalization of modules, one after the other. -/
theorem sequential_annotates : Sequential (Annotates L P) where
  idle _ := ⟨rfl, fun _ _ hmd => absurd hmd List.not_mem_nil⟩
  andThen {s r r'} h h' := by
    refine ⟨h'.1.trans h.1, fun i md hmd => ?_⟩
    rcases List.mem_append.mp hmd with hmd | hmd
    · exact h.2 i md hmd
    · rw [← h.1]
      exact h'.2 i md hmd

/-- Finalization of a module writes metadata and keeps the ranges. -/
theorem doFinalization_annotates {M : Module} (h : doFinalization L P M s = .ok r) :
    Annotates L P s r := by
  refine sequential_annotates.forEach_spec (fun i _ s r h => ?_) h
  obtain rfl := Except.ok.inj h
  refine ⟨rfl, fun j md hmd => ?_⟩
  split at hmd
  · obtain ⟨rfl, rfl⟩ := Event.metadata.inj (List.mem_singleton.mp hmd)
    rfl
  · cases hmd

/-- Metadata is only written in the end, from the final ranges. -/
theorem run_metadata {fuel : ℕ} {modules : List Module} {md : Option (APInt × APInt)}
    (h : (rangePass L P callees taints).run fuel modules s = .ok r)
    (hmd : .metadata i md ∈ r.trace) : md = intrange L P r.state.intRanges i := by
  obtain ⟨r₁, r₂, r₃, h₁, h₂, h₃, rfl⟩ := IterativeModulePass.run_eq_ok.mp h
  have hinit : Unannotated r₁ := sequential_unannotated.forEach_spec
    (fun M _ s r h => ((doInitialization_joins M).writes s r h).unannotated) h₁
  have hiter : Unannotated r₂ := sequential_unannotated.whileChanged_spec (fun _ _ _ h =>
    sequential_unannotated.forEach_spec (fun M _ s r h => doModulePass_unannotated h) h) h₂
  have hfinal : Annotates L P r₂.state r₃ :=
    sequential_annotates.forEach_spec (fun M _ s r h => doFinalization_annotates h) h₃
  rcases List.mem_append.mp hmd with hmd | hmd
  · exact absurd hmd (hinit i md)
  · rcases List.mem_append.mp hmd with hmd | hmd
    · exact absurd hmd (hiter i md)
    · rw [hfinal.2 i md hmd]
      exact congrArg (intrange L P · i) hfinal.1.symm

/-! ## What is joined into a range -/

/-- How the writes under an identifier come to allow every value of `w` bits. Either nothing was
joined, or what was joined contains them all, or the range was expanded. -/
inductive Covered (w : ℕ) (sID : String) (t : List Event) : Prop
  /-- Nothing is joined. -/
  | unwritten : writes sID t = [] → Covered w sID t
  /-- Ranges of width `w` are joined that contain all values together. -/
  | written : (∀ R ∈ writes sID t, R.width = w) →
      (∀ n < 2 ^ w, ∃ R ∈ writes sID t, R.Has n) → Covered w sID t
  /-- A range was joined, and it was expanded to the full set. -/
  | widened {t₁ t₂ : List Event} {R : ConstantRange} {sIDs : Finset String} :
      t = t₁ ++ .widen sIDs :: t₂ → R ∈ writes sID t₁ → sID ∈ sIDs → Covered w sID t

/-- An identifier to which nothing is joined has no range. -/
theorem rangesAfter_unwritten {t : List Event} (ht : ∀ R, .union sID R ∉ t)
    (hm : m sID = none) : rangesAfter L m t sID = none := by
  induction t generalizing m with
  | nil => exact hm
  | cons e t ih =>
    refine ih (fun R hR => ht R (List.mem_cons_of_mem e hR)) ?_
    cases e with
    | union sID' R =>
      have hne : sID ≠ sID' := by
        rintro rfl
        exact ht R List.mem_cons_self
      rw [afterEvent, Function.update_of_ne hne]
      exact hm
    | widen sIDs => simp [afterEvent, widenRanges, hm]
    | call => exact hm
    | iteration => exact hm
    | metadata => exact hm

/-- A range keeps the width of the first range joined. The induction is on the trace, with the map
before it general. -/
theorem rangesAfter_width (hL : L.ranges.UnionLaws) {w : ℕ} {t : List Event}
    (ht : ∀ R, .union sID R ∈ t → R.width = w) (hm : ∀ S, m sID = some S → S.width = w) :
    ∀ S, rangesAfter L m t sID = some S → S.width = w := by
  induction t generalizing m with
  | nil => exact hm
  | cons e t ih =>
    refine ih (fun R hR => ht R (List.mem_cons_of_mem e hR)) fun S hS => ?_
    cases e with
    | union sID' R =>
      by_cases heq : sID = sID'
      · subst heq
        rw [afterEvent, Function.update_self] at hS
        obtain rfl := Option.some.inj hS
        cases hentry : m sID with
        | none => exact ht R List.mem_cons_self
        | some S => exact (ConstantRange.le_width (le_joined hL)).symm.trans (hm S hentry)
      · rw [afterEvent, Function.update_of_ne heq] at hS
        exact hm S hS
    | widen sIDs =>
      simp only [afterEvent, widenRanges] at hS
      split at hS
      · obtain ⟨S', hS', rfl⟩ := Option.map_eq_some_iff.mp hS
        exact hm S' hS'
      · exact hm S hS
    | call => exact hm S hS
    | iteration => exact hm S hS
    | metadata => exact hm S hS

/-- A range that is joined at the width of the entry is contained in it. -/
theorem le_joined_right (hL : L.ranges.UnionLaws) {entry : Option ConstantRange}
    {R : ConstantRange} (hw : ∀ S, entry = some S → R.width = S.width) :
    R ≤ (joined L entry R).2 := by
  cases entry with
  | none => exact le_rfl
  | some S =>
    have hle := hL.convert_le_safeUnion S R
    rwa [RangeOps.convert, if_neg (not_not.mpr (hw S rfl))] at hle

/-- An identifier to which something is joined has a range. -/
theorem exists_rangesAfter_of_union (hL : L.ranges.UnionLaws) {t : List Event}
    {R : ConstantRange} (hR : .union sID R ∈ t) : ∃ S, rangesAfter L m t sID = some S := by
  obtain ⟨t₁, t₂, rfl⟩ := List.append_of_mem hR
  have hgrown : Grown (rangesAfter L m (t₁ ++ [.union sID R])) (rangesAfter L m
      (t₁ ++ .union sID R :: t₂)) := by
    have hsplit : t₁ ++ .union sID R :: t₂ = (t₁ ++ [.union sID R]) ++ t₂ := by simp
    rw [hsplit, rangesAfter_append m (t₁ ++ [Event.union sID R])]
    exact rangesAfter_grown hL _ _
  have hhere : rangesAfter L m (t₁ ++ [.union sID R]) sID =
      some (joined L (rangesAfter L m t₁ sID) R).2 := by
    rw [rangesAfter_append]
    exact Function.update_self ..
  obtain ⟨S, hS, -⟩ := hgrown sID _ hhere
  exact ⟨S, hS⟩

/-- If all ranges that are joined have one width, the range contains them. -/
theorem le_rangesAfter_of_union (hL : L.ranges.UnionLaws) {w : ℕ} {t : List Event}
    {R S : ConstantRange} (hwidth : ∀ R ∈ writes sID t, R.width = w) (hR : .union sID R ∈ t)
    (hS : rangesAfter L (fun _ => none) t sID = some S) : R ≤ S := by
  have hRw := hwidth R (mem_writes.mpr hR)
  obtain ⟨t₁, t₂, rfl⟩ := List.append_of_mem hR
  have hbefore : ∀ S, rangesAfter L (fun _ => none) t₁ sID = some S → S.width = w :=
    rangesAfter_width hL
      (fun R' hR' => hwidth R' (mem_writes.mpr (List.mem_append_left _ hR')))
      fun S hS => by cases hS
  have hle : R ≤ (joined L (rangesAfter L (fun _ => none) t₁ sID) R).2 :=
    le_joined_right hL fun S' hS' => hRw.trans (hbefore S' hS').symm
  rw [rangesAfter_append] at hS
  obtain ⟨S', hS', hle'⟩ := rangesAfter_grown hL
    (afterEvent L (rangesAfter L (fun _ => none) t₁) (.union sID R)) t₂ sID _
    (Function.update_self ..)
  obtain rfl := Option.some.inj (hS'.symm.trans hS)
  exact hle.trans hle'

/-- The writes under an identifier determine what its range contains. The three ways are the cases
of the proof; an identifier under which nothing is joined has no range at all. -/
theorem Covered.allows (hL : L.ranges.UnionLaws) {w : ℕ} {t : List Event}
    (h : Covered w sID t) {S : ConstantRange}
    (hS : rangesAfter L (fun _ => none) t sID = some S) {n : ℕ} (hn : n < 2 ^ w) :
    S.Has n := by
  cases h with
  | unwritten hnil =>
    have hno : ∀ R, .union sID R ∉ t := fun R hR =>
      List.not_mem_nil (hnil ▸ mem_writes.mpr hR)
    exact absurd (hS.symm.trans (rangesAfter_unwritten hno rfl)) (by simp)
  | written hwidth hall =>
    obtain ⟨R, hR, hRn⟩ := hall n hn
    have hle := le_rangesAfter_of_union hL hwidth (mem_writes.mp hR) hS
    exact ConstantRange.has_of_le hle (by rwa [hwidth R hR]) hRn
  | @widened t₁ t₂ R sIDs ht hR hmem =>
    subst ht
    obtain ⟨S₁, hS₁⟩ := exists_rangesAfter_of_union (m := fun _ => none) hL (mem_writes.mp hR)
    have hwide : afterEvent L (rangesAfter L (fun _ => none) t₁) (.widen sIDs) sID =
        some (.full S₁.width) := by
      simp [afterEvent, widenRanges, hmem, hS₁]
    rw [rangesAfter_append] at hS
    obtain ⟨S', hS', hle⟩ := rangesAfter_grown hL
      (afterEvent L (rangesAfter L (fun _ => none) t₁) (.widen sIDs)) t₂ sID _ hwide
    obtain rfl := Option.some.inj (hS'.symm.trans hS)
    rw [ConstantRange.eq_full_of_le hle]
    trivial

end Pass

/-! ## Taint and range passes -/

section Workflow

variable {L : Library} {P : Program} {fuel ptrBits : ℕ} {modules : List Module}
  {out : Outcome}

/-- If the writes under the identifiers of tainted loads and calls cover their
types, then no metadata of a tainted load or call excludes a value of its type. -/
theorem mainWorkflow_agrees (hL : L.ranges.UnionLaws)
    (h : mainWorkflow L P fuel modules = .ok out)
    (hcovered : ∀ i md, (i, md) ∈ annotations out.ranges.trace →
      out.taints.isSource (getValueId L P (.inst i)) = true →
      ∀ w, bitWidth ptrBits (P.inst i).ty = some w →
        Covered w (getValueId L P (.inst i)) out.ranges.trace) :
    ∀ i range, (i, some range) ∈ annotations out.ranges.trace →
      out.taints.isSource (getValueId L P (.inst i)) = true →
      ∀ w, bitWidth ptrBits (P.inst i).ty = some w → ∀ n < 2 ^ w, Allows range n := by
  intro i range hmd hsource w hw n hn
  have hrun := mainWorkflow_ranges h
  have hrange := run_metadata hrun (mem_annotations.mp hmd)
  cases hR : out.ranges.state.intRanges (getValueId L P (.inst i)) with
  | none => simp [intrange, hR] at hrange
  | some R =>
    refine allows_of_intrange hrange.symm hR ?_
    have htraced : out.ranges.state.intRanges =
      rangesAfter L (fun _ => none) out.ranges.trace := run_traced hrun
    rw [htraced] at hR
    exact (hcovered i _ hmd hsource w hw).allows hL hR hn

end Workflow

/-- A variable is read from a device and written back, first the value read and
then, in another function, a constant. -/
def deviceProgram : Program where
  insts := [
    ⟨0, .int 32, .load (.global 0) false, some "var.reg", some "device"⟩,
    ⟨0, .other, .store (.inst 0) (.global 0), some "var.reg", none⟩,
    ⟨0, .other, .ret none, none, none⟩,
    ⟨1, .other, .store (.constInt (.ofNat 32 5)) (.global 0), some "var.reg", none⟩,
    ⟨1, .other, .ret none, none, none⟩]
  blocks := [⟨0, [0, 1], 2, []⟩, ⟨1, [3], 4, []⟩]
  funcs := [⟨⟨"refresh", .external, "a.c"⟩, false, [], .other, [0]⟩,
    ⟨⟨"reset", .external, "a.c"⟩, false, [], .other, [1]⟩]
  globals := [⟨⟨"reg", .external, "a.c"⟩, .int 32, none⟩]
  structs := []
  consts := []

/-- The module of `deviceProgram`. -/
def deviceModules : List Module := [⟨"a.c", [0], [0, 1]⟩]

/-- What is read from the device is written back, so the metadata of the load excludes nothing. -/
theorem device_agrees : ∃ out, mainWorkflow .reference deviceProgram 4 deviceModules = .ok out ∧
    ∀ i range, (i, some range) ∈ annotations out.ranges.trace →
      out.taints.isSource (getValueId .reference deviceProgram (.inst i)) = true →
      ∀ w, bitWidth 64 (deviceProgram.inst i).ty = some w →
        ∀ n < 2 ^ w, Allows range n := by
  have hrun : resultIs (mainWorkflow .reference deviceProgram 4 deviceModules) (fun out =>
      decide (∀ a ∈ annotations out.ranges.trace, a.1 = 0) &&
        decide ((∀ R ∈ writes "var.reg" out.ranges.trace, R.width = 32) ∧
          .full 32 ∈ writes "var.reg" out.ranges.trace)) = true := by
    decide +kernel
  obtain ⟨out, hout, hrun⟩ := of_resultIs hrun
  obtain ⟨honly, hwrites⟩ := Bool.and_eq_true_iff.mp hrun
  obtain ⟨hwidth, hfull⟩ := of_decide_eq_true hwrites
  refine ⟨out, hout, mainWorkflow_agrees RangeOps.reference_unionLaws hout ?_⟩
  intro i md hmd _ w hw
  obtain rfl : i = 0 := of_decide_eq_true honly (i, md) hmd
  obtain rfl : 32 = w := Option.some.inj hw
  have hID : getValueId .reference deviceProgram (.inst 0) = "var.reg" := by decide
  rw [hID]
  exact .written hwidth fun n _ => ⟨.full 32, hfull, trivial⟩

/-- A variable is read from a device, and a constant is written to it. -/
def resetProgram : Program where
  insts := [
    ⟨0, .int 32, .load (.global 0) false, some "var.reg", some "device"⟩,
    ⟨0, .other, .store (.constInt (.ofNat 32 5)) (.global 0), some "var.reg", none⟩,
    ⟨0, .other, .ret none, none, none⟩]
  blocks := [⟨0, [0, 1], 2, []⟩]
  funcs := [⟨⟨"reset", .external, "a.c"⟩, false, [], .other, [0]⟩]
  globals := [⟨⟨"reg", .external, "a.c"⟩, .int 32, none⟩]
  structs := []
  consts := []

/-- The module of `resetProgram`. -/
def resetModules : List Module := [⟨"a.c", [0], [0]⟩]

/-- The load from the device gets the metadata `[5, 6)`. -/
theorem reset_excludes : ∃ out range,
    mainWorkflow .reference resetProgram 4 resetModules = .ok out ∧
    (0, some range) ∈ annotations out.ranges.trace ∧
    isLoadOrCall resetProgram 0 = true ∧
    out.taints.isSource (getValueId .reference resetProgram (.inst 0)) = true ∧
    bitWidth 64 (resetProgram.inst 0).ty = some 32 ∧ ¬ Allows range 7 := by
  have hrun : resultIs (mainWorkflow .reference resetProgram 4 resetModules) (fun out =>
      decide ((0, some (.ofNat 32 5, .ofNat 32 6)) ∈ annotations out.ranges.trace) &&
        out.taints.isSource (getValueId .reference resetProgram (.inst 0))) = true := by
    decide +kernel
  obtain ⟨out, hout, hrun⟩ := of_resultIs hrun
  obtain ⟨hmd, hsource⟩ := Bool.and_eq_true_iff.mp hrun
  exact ⟨out, _, hout, of_decide_eq_true hmd, rfl, hsource, rfl, by decide⟩

end Kint.Range
