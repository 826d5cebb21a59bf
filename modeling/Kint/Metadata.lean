import Kint.CmpSat
import Kint.Range.Termination

/-!
# Range metadata between two programs

`RangePass` writes the bounds of a range as metadata, and `ValueGen` reads the metadata back as
a condition on the value.  Both have the empty and the full set as special cases, and the reader
has one for each bound that is zero; the condition is true of exactly the values of the range
that was written.

## Main ideas

* A range that is neither empty nor full has two different bounds (`bounds_ne`), and lies
  between them in one of two ways: the lower one is below the upper one, or the range wraps
  around the largest value.  Being between the bounds, read in that way, is being in the range
  (`inRange_iff_contains`).
* The metadata is a pair of constants of the width of the range (`intrange_eq`), which is set on
  the instruction by `doFinalization` (`doFinalization_metadata`).
* `addRangeConstraints` makes a conjunction for bounds in order and a disjunction for bounds
  that wrap around, and drops the comparison with a bound that is zero, which is always or never
  true.

## Main results

* `intrange_round_trip`: the condition that is read holds of a value just if the value is in the
  range that was written.
* `aroundZero_round_trip`: a range that wraps around, from the largest 32-bit integer to zero.
-/

namespace Kint.Metadata

open Iteration Memo SMT ValueGen

section Bounds

variable {R : ConstantRange} {a : APInt}

/-- The lower bound is a number of the width of the range. -/
theorem lower_lt (R : ConstantRange) : R.lower < 2 ^ R.width := by
  have hpos := Nat.two_pow_pos R.width
  cases R with
  | empty w => exact hpos
  | full w => exact Nat.sub_lt hpos Nat.one_pos
  | interval w l u hl hu hne => exact hl

/-- The upper bound is a number of the width of the range. -/
theorem upper_lt (R : ConstantRange) : R.upper < 2 ^ R.width := by
  have hpos := Nat.two_pow_pos R.width
  cases R with
  | empty w => exact hpos
  | full w => exact Nat.sub_lt hpos Nat.one_pos
  | interval w l u hl hu hne => exact hu

theorem toNat_ofNat_of_lt {w n : ℕ} (h : n < 2 ^ w) : (APInt.ofNat w n).toNat = n := by
  rw [APInt.ofNat, APInt.toNat, BitVec.toNat_ofNat, Nat.mod_eq_of_lt h]

/-- Being between the bounds, which may wrap around, is being in the range. -/
theorem inRange_iff_contains (hempty : R.isEmptySet = false) (hfull : R.isFullSet = false)
    (ha : a.width = R.width) :
    CmpSat.InRange a.toNat (.ofNat R.width R.lower) (.ofNat R.width R.upper) ↔
      R.Contains a := by
  rw [CmpSat.InRange, toNat_ofNat_of_lt (lower_lt R), toNat_ofNat_of_lt (upper_lt R),
    ConstantRange.Contains, and_iff_right ha]
  cases R with
  | empty w => cases hempty
  | full w => cases hfull
  | interval w l u hl hu hne =>
    show (if l ≤ u then _ else _) ↔ if l < u then _ else _
    by_cases hlu : l < u
    · rw [if_pos hlu, if_pos hlu.le]
      exact Iff.rfl
    · rw [if_neg hlu, if_neg (fun hle => hlu (lt_of_le_of_ne hle hne))]
      exact Iff.rfl

/-- The bounds that are written are not equal. -/
theorem bounds_ne (hempty : R.isEmptySet = false) (hfull : R.isFullSet = false) :
    APInt.ofNat R.width R.lower ≠ .ofNat R.width R.upper := by
  intro heq
  have hnat := congrArg APInt.toNat heq
  rw [toNat_ofNat_of_lt (lower_lt R), toNat_ofNat_of_lt (upper_lt R)] at hnat
  cases R with
  | empty w => cases hempty
  | full w => cases hfull
  | interval w l u hl hu hne => exact hne hnat

end Bounds

section RoundTrip

variable {E : SMTExpr Value} {Lo Hi : APInt}

/-- A pair of different bounds is read as one condition. -/
theorem addRangeConstraints_pair (hne : Lo ≠ Hi) (hLo : Lo.width = E.width)
    (hHi : Hi.width = E.width) :
    ∃ Cond, rangeCondition E Lo Hi = .ok Cond ∧
      addRangeConstraints E [(Lo, Hi)] = .emit Cond (.ret ()) := by
  obtain ⟨Cond, hCond⟩ := rangeCondition_zip hLo hHi
  refine ⟨Cond, hCond, ?_⟩
  rw [addRangeConstraints, if_neg hne, hCond]
  rfl

end RoundTrip

section Finalization

variable {L : Library} {P : Program} {M : Module} {s : Range.State}
  {r : Report Range.State Range.Event} {i : InstId} {R : ConstantRange}

/-- The metadata that is set by `doFinalization`. The ranges are not changed on the way, so that the
order of the instructions does not matter. -/
theorem doFinalization_metadata (h : Range.doFinalization L P M s = .ok r)
    (md : Option (APInt × APInt)) :
    .metadata i md ∈ r.trace ↔ i ∈ M.functions.flatMap P.instsOf ∧
      Range.isLoadOrCall P i = true ∧ md = Range.intrange L P s.intRanges i := by
  unfold Range.doFinalization at h
  generalize M.functions.flatMap P.instsOf = is at h ⊢
  induction is generalizing s r with
  | nil =>
    obtain rfl := Except.ok.inj h
    simp
  | cons j is ih =>
    obtain ⟨a, b, ha, hb, rfl⟩ := Pass.seq_eq_ok.mp h
    obtain rfl := Except.ok.inj ha
    rw [Report.andThen_trace, List.mem_append, ih hb, List.mem_cons]
    by_cases hj : Range.isLoadOrCall P j = true
    · rw [if_pos hj, List.mem_singleton, Range.Event.metadata.injEq]
      constructor
      · rintro (⟨rfl, rfl⟩ | ⟨hmem, hi, rfl⟩)
        · exact ⟨.inl rfl, hj, rfl⟩
        · exact ⟨.inr hmem, hi, rfl⟩
      · rintro ⟨rfl | hmem, hi, rfl⟩
        · exact .inl ⟨rfl, rfl⟩
        · exact .inr ⟨hmem, hi, rfl⟩
    · rw [if_neg hj]
      constructor
      · rintro (hnil | ⟨hmem, hi, rfl⟩)
        · cases hnil
        · exact ⟨.inr hmem, hi, rfl⟩
      · rintro ⟨rfl | hmem, hi, rfl⟩
        · exact absurd hi hj
        · exact .inr ⟨hmem, hi, rfl⟩

/-- The metadata of an instruction whose identifier has a range with bounds. -/
theorem intrange_eq (hid : getValueId L P (.inst i) ≠ "")
    (hR : s.intRanges (getValueId L P (.inst i)) = some R) (hempty : R.isEmptySet = false)
    (hfull : R.isFullSet = false) :
    Range.intrange L P s.intRanges i =
      some (.ofNat R.width R.lower, .ofNat R.width R.upper) := by
  simp [Range.intrange, hid, hR, hempty, hfull]

/-- The metadata that `doFinalization` writes for a range that is neither empty nor full
is read by `addRangeConstraints` as one condition, on whatever term stands for the
instruction; the condition is true exactly if the value of the term is in the range. -/
theorem intrange_round_trip (L : Library) (P : Program) (M : Module) (s : Range.State)
    (i : InstId) (R : ConstantRange) (hi : i ∈ M.functions.flatMap P.instsOf)
    (hload : Range.isLoadOrCall P i = true) (hid : getValueId L P (.inst i) ≠ "")
    (hR : s.intRanges (getValueId L P (.inst i)) = some R) (hempty : R.isEmptySet = false)
    (hfull : R.isFullSet = false) :
    ∃ r Lo Hi, Range.doFinalization L P M s = .ok r ∧
      (∀ md, .metadata i md ∈ r.trace ↔ md = some (Lo, Hi)) ∧
      ∀ x : Term Value R.width, ∃ Cond,
        addRangeConstraints ⟨R.width, x⟩ [(Lo, Hi)] = .emit Cond (.ret ()) ∧
          ∀ σ, Cond.Holds σ ↔ R.Contains ⟨R.width, x.eval σ⟩ := by
  obtain ⟨r, hr, -⟩ := Range.doFinalization_ok (L := L) (P := P) M s
  refine ⟨r, .ofNat R.width R.lower, .ofNat R.width R.upper, hr, fun md => ?_, fun x => ?_⟩
  · rw [doFinalization_metadata hr, intrange_eq hid hR hempty hfull]
    exact ⟨fun h => h.2.2, fun h => ⟨hi, hload, h⟩⟩
  · obtain ⟨Cond, hCond, hread⟩ := addRangeConstraints_pair (E := ⟨R.width, x⟩)
      (bounds_ne hempty hfull) rfl rfl
    refine ⟨Cond, hread, fun σ => ?_⟩
    rw [CmpSat.rangeCondition_holds hCond]
    exact inRange_iff_contains (a := ⟨R.width, x.eval σ⟩) hempty hfull rfl

end Finalization

/-- The range of the largest 32-bit integer and zero. -/
def aroundZero : ConstantRange := .ofBounds 32 (2 ^ 32 - 1) 1

/-- The metadata of the range around zero is read back as the disjunction of an unsigned comparison
with the largest value and one with one. -/
theorem aroundZero_round_trip : ∃ r Lo Hi Cond,
    Range.doFinalization .reference Range.tickProgram ⟨"a.c", [0], [0]⟩
      { Range.State.init with intRanges := fun _ => some aroundZero } = .ok r ∧
    .metadata 0 (some (Lo, Hi)) ∈ r.trace ∧
    addRangeConstraints ⟨32, .var 32 (.inst 0)⟩ [(Lo, Hi)] = .emit Cond (.ret ()) ∧
    Cond.Holds (fun _ _ => 0) ∧ ¬ Cond.Holds (fun _ _ => 1) := by
  obtain ⟨r, Lo, Hi, hr, hmd, hread⟩ := intrange_round_trip .reference Range.tickProgram
    ⟨"a.c", [0], [0]⟩ { Range.State.init with intRanges := fun _ => some aroundZero } 0 aroundZero
    (by decide) rfl (by decide) rfl rfl rfl
  obtain ⟨Cond, hCond, hholds⟩ := hread (.var 32 (.inst 0))
  refine ⟨r, Lo, Hi, Cond, hr, (hmd _).mpr rfl, hCond, (hholds _).mpr ?_, fun h => ?_⟩
  · decide
  · exact absurd ((hholds _).mp h) (by decide)

end Kint.Metadata
