import Kint.CmpOverflow.Pass
import Kint.LLVM.Reference

/-!
# The bounds that `CmpOverflow` reports

For a sum `A + x * B` the right bound of a test `x <= C` is `(UMAX - A) / B`
(`le_exactBound_iff`), and `checkAxB` is silent on it.  The bound `UMAX / B`, which forgets `A`,
is too large whenever it is not the right one.  The bound `UMAX / B - A` subtracts after the
division: as long as that does not wrap, it is too small and the test rejects good values only.

## Main ideas

* All comparisons of the three bounds are facts about natural numbers: subtracting before the
  division takes away less than subtracting after it (`div_sub_le_sub_div`).  Only the step from
  vectors to numbers sees the width, since `UMAX / B - A` may wrap around and is then above the
  right bound.
* `checkBound` is `checkAxB` without the search for the sum: the verdict on a constant as a
  bound.  In which order the operands of the comparison stand does not matter (`checkAxB_eq`).

## Main results

* `le_exactBound_iff`: the right bound admits exactly the values for which the sum fits.
* `checkAxB_verdicts`: what each verdict says about the values that the bound admits.
* `conservative_bound_reported`: a bound of the third kind is reported as bad although no value
  up to it makes the sum overflow.
-/

namespace Kint.CmpOverflow

open Iteration

/-! ## Quotients -/

section Quotients

variable {a b u x : ℕ}

/-- The largest factor that keeps a sum below a bound is a quotient. -/
theorem le_sub_div_iff (hb : 0 < b) (ha : a ≤ u) : x ≤ (u - a) / b ↔ a + x * b ≤ u := by
  rw [Nat.le_div_iff_mul_le hb]
  omega

/-- Subtracting before the division takes away less. -/
theorem div_sub_le_sub_div (hb : 0 < b) (ha : a ≤ u) : u / b - a ≤ (u - a) / b := by
  rw [Nat.le_div_iff_mul_le hb, Nat.sub_mul]
  have hdiv : u / b * b ≤ u := Nat.div_mul_le_self u b
  have hab : a ≤ a * b := Nat.le_mul_of_pos_right a hb
  omega

end Quotients

section Bounds

variable {n : ℕ} {A B C x : BitVec n}

/-- `A + x * B` is larger than the largest `n`-bit integer. -/
def ExceedsMax (A B x : BitVec n) : Prop := 2 ^ n - 1 < A.toNat + x.toNat * B.toNat

instance : Decidable (ExceedsMax A B x) := inferInstanceAs (Decidable (_ < _))

/-- The bound that the pass proposes: `(UMAX - A) / B`. -/
def exactBound (A B : BitVec n) : BitVec n := (BitVec.allOnes n - A).udiv B

theorem toNat_exactBound : (exactBound A B).toNat = (2 ^ n - 1 - A.toNat) / B.toNat := by
  have hA := A.isLt
  rw [exactBound, BitVec.udiv_eq, BitVec.toNat_udiv, BitVec.toNat_sub_of_le, BitVec.toNat_allOnes]
  rw [BitVec.le_def, BitVec.toNat_allOnes]
  omega

/-- The bound that forgets the summand, as a number. -/
theorem toNat_allOnes_udiv : ((BitVec.allOnes n).udiv B).toNat = (2 ^ n - 1) / B.toNat := by
  rw [BitVec.udiv_eq, BitVec.toNat_udiv, BitVec.toNat_allOnes]

theorem toNat_pos (hB : B ≠ 0) : 0 < B.toNat := by
  rw [Nat.pos_iff_ne_zero]
  exact fun h => hB (BitVec.eq_of_toNat_eq (by simpa using h))

/-- A value is within the bound exactly when the sum fits. -/
theorem le_exactBound_iff (hB : B ≠ 0) : x ≤ exactBound A B ↔ ¬ ExceedsMax A B x := by
  have hA := A.isLt
  rw [BitVec.le_def, toNat_exactBound, le_sub_div_iff (toNat_pos hB) (by omega), ExceedsMax,
    not_lt]

/-- A bound above the exact one accepts itself, and that is too large. -/
theorem exceedsMax_of_exactBound_lt (hB : B ≠ 0) (h : exactBound A B < C) :
    ∃ x ≤ C, ExceedsMax A B x := by
  refine ⟨C, BitVec.le_refl C, ?_⟩
  by_contra hC
  exact absurd ((le_exactBound_iff hB).mpr hC) (BitVec.not_le.mpr h)

/-- A bound that is no larger than the right one admits values only for which the sum fits. -/
theorem not_exceedsMax_of_le (hB : B ≠ 0) (h : C ≤ exactBound A B) (hx : x ≤ C) :
    ¬ ExceedsMax A B x :=
  (le_exactBound_iff hB).mp (BitVec.le_trans hx h)

/-- Without `A` the quotient is no smaller. -/
theorem exactBound_le_udiv : exactBound A B ≤ (BitVec.allOnes n).udiv B := by
  rw [BitVec.le_def, toNat_exactBound, toNat_allOnes_udiv]
  exact Nat.div_le_div_right (Nat.sub_le _ _)

/-- A difference that does not wrap is below the exact bound. -/
theorem udiv_sub_le_exactBound (hB : B ≠ 0) (hA : A ≤ (BitVec.allOnes n).udiv B) :
    (BitVec.allOnes n).udiv B - A ≤ exactBound A B := by
  have hlt := A.isLt
  rw [BitVec.le_def, BitVec.toNat_sub_of_le hA, toNat_exactBound, toNat_allOnes_udiv]
  exact div_sub_le_sub_div (toNat_pos hB) (by omega)

/-- A difference that wraps is above it. -/
theorem exactBound_lt_udiv_sub (hA : (BitVec.allOnes n).udiv B < A) :
    exactBound A B < (BitVec.allOnes n).udiv B - A := by
  have hlt := A.isLt
  have hle : (2 ^ n - 1 - A.toNat) / B.toNat ≤ 2 ^ n - 1 - A.toNat := Nat.div_le_self _ _
  rw [BitVec.lt_def, toNat_allOnes_udiv] at hA
  rw [BitVec.lt_def, toNat_exactBound, BitVec.toNat_sub, toNat_allOnes_udiv]
  generalize (2 ^ n - 1) / B.toNat = q at hA
  rw [Nat.mod_eq_of_lt (by omega)]
  omega

/-- What a verdict on a bound means. A bound with the status `axb1` is too small where the addend is
at most the quotient of the maximum; with any other status, and with this one elsewhere, it is too
large. -/
theorem checkBound_spec (hB : B ≠ 0) :
    (C = exactBound A B → checkBound A B C = none) ∧
    ∀ status, checkBound A B C = some status → C ≠ exactBound A B ∧
      (status = .axb1 ∧ A ≤ (BitVec.allOnes n).udiv B → C < exactBound A B) ∧
      (¬ (status = .axb1 ∧ A ≤ (BitVec.allOnes n).udiv B) → exactBound A B < C) := by
  refine ⟨fun h => if_pos h, fun status h => ?_⟩
  simp only [checkBound] at h
  split at h
  · cases h
  · next hne =>
    have hne : C ≠ exactBound A B := hne
    refine ⟨hne, ?_⟩
    split at h
    · next hC =>
      obtain rfl := Option.some.inj h
      refine ⟨by simp, fun _ => ?_⟩
      have hle : exactBound A B ≤ C := hC ▸ exactBound_le_udiv
      exact BitVec.lt_of_le_ne hle (Ne.symm hne)
    · split at h
      · next hC =>
        obtain rfl := Option.some.inj h
        refine ⟨fun hA => ?_, fun hA => ?_⟩
        · have hle : C ≤ exactBound A B := hC ▸ udiv_sub_le_exactBound hB hA.2
          exact BitVec.lt_of_le_ne hle hne
        · rw [hC]
          exact exactBound_lt_udiv_sub (BitVec.not_le.mp fun h => hA ⟨rfl, h⟩)
      · cases h

end Bounds

/-! ## The verdicts of `checkAxB` -/

section Verdicts

variable {SE : ScalarEvolution} {AxBs : AxBMap} {X K : SCEVId} {n : ℕ} {A B C : BitVec n}

/-- In both operand orders, `checkAxB` judges the constant as the bound. -/
theorem checkAxB_eq (hB : B ≠ 0) (hAxB : AxBs X = some (⟨n, A⟩, ⟨n, B⟩))
    (hX : (SE.node X).isConstant = false) (hK : SE.node K = .constant ⟨n, C⟩)
    (htX : SE.getType X = .int n) (htK : SE.getType K = .int n) :
    checkAxB SE AxBs X K = .ok (checkBound A B C) ∧
      checkAxB SE AxBs K X = .ok (checkBound A B C) := by
  have hXK : constantRight SE X K = (X, K) := by simp [constantRight, hX]
  have hKX : constantRight SE K X = (X, K) := by simp [constantRight, hK, SCEV.isConstant]
  have hzero : ¬ B = 0#n := hB
  constructor
  · simp [checkAxB, htX, hXK, hK, hAxB, hzero]
  · simp [checkAxB, htK, hKX, hK, hAxB, hzero]

/-- The verdicts on a bound `C` for `A + X * B`, `B` nonzero.  The exact bound passes
silently, and it admits exactly the values for which the sum fits.  A reported
bound is not the exact one: it admits a value for which the sum does not fit, except
for `UMAX / B - A` without wrapping, which is smaller than the exact bound. -/
theorem checkAxB_verdicts (hB : B ≠ 0) (hAxB : AxBs X = some (⟨n, A⟩, ⟨n, B⟩))
    (hX : (SE.node X).isConstant = false) (hK : SE.node K = .constant ⟨n, C⟩)
    (htX : SE.getType X = .int n) (htK : SE.getType K = .int n) :
    (C = (BitVec.allOnes n - A).udiv B →
      checkAxB SE AxBs X K = .ok none ∧ checkAxB SE AxBs K X = .ok none ∧
        ∀ x, x ≤ C ↔ ¬ ExceedsMax A B x) ∧
    ∀ status, checkAxB SE AxBs X K = .ok (some status) ∨
        checkAxB SE AxBs K X = .ok (some status) →
      C ≠ (BitVec.allOnes n - A).udiv B ∧
      (¬ (status = .axb1 ∧ A ≤ (BitVec.allOnes n).udiv B) → ∃ x ≤ C, ExceedsMax A B x) ∧
      (status = .axb1 ∧ A ≤ (BitVec.allOnes n).udiv B →
        C < (BitVec.allOnes n - A).udiv B ∧ ∀ x ≤ C, ¬ ExceedsMax A B x) := by
  obtain ⟨hXK, hKX⟩ := checkAxB_eq hB hAxB hX hK htX htK
  obtain ⟨hsilent, hreport⟩ := checkBound_spec (A := A) (C := C) hB
  refine ⟨fun hC => ?_, fun status h => ?_⟩
  · rw [hXK, hKX, hsilent hC]
    refine ⟨rfl, rfl, fun x => ?_⟩
    rw [hC]
    exact le_exactBound_iff hB
  · have hstatus : checkBound A B C = some status := by
      rcases h with h | h
      · exact Except.ok.inj (hXK.symm.trans h)
      · exact Except.ok.inj (hKX.symm.trans h)
    obtain ⟨hne, hbelow, habove⟩ := hreport status hstatus
    refine ⟨hne, fun h => exceedsMax_of_exactBound_lt hB (habove h), fun h => ?_⟩
    exact ⟨hbelow h, fun x hx => not_exceedsMax_of_le hB (BitVec.le_of_lt (hbelow h)) hx⟩

/-- A function whose only call has the argument `10 + x * 2` and whose only
comparison is that of the parameter `x`, of eight bits, with 117. -/
def boundProgram : Program where
  insts := [
    ⟨0, .int 8, .binary .mul (.argument 0 0) (.constInt (.ofNat 8 2)), none, none⟩,
    ⟨0, .int 8, .binary .add (.inst 0) (.constInt (.ofNat 8 10)), none, none⟩,
    ⟨0, .int 1, .icmp .ugt (.argument 0 0) (.constInt (.ofNat 8 117)), none, none⟩,
    ⟨0, .ptr (.int 8), .call (.func 1) [.inst 1], none, none⟩,
    ⟨0, .ptr (.int 8), .ret (some (.inst 3)), none, none⟩]
  blocks := [⟨0, [0, 1, 2, 3], 4, []⟩]
  funcs := [
    ⟨⟨"make", .external, "a.c"⟩, false, [.int 8], .ptr (.int 8), [0]⟩,
    ⟨⟨"malloc", .external, "a.c"⟩, false, [.int 8], .ptr (.int 8), []⟩]
  globals := []
  structs := []
  consts := []

/-- The expressions of `boundProgram`. -/
def boundSCEVs : List SCEV :=
  [.other, .constant (.ofNat 8 10), .constant (.ofNat 8 2), .mul [2, 0], .add [1, 3],
    .constant (.ofNat 8 117)]

/-- The analysis of `boundProgram`. -/
def boundEvolution : ScalarEvolution where
  isSCEVable := Ty.isIntegerTy
  getSCEV V :=
    match V with
    | .argument _ _ => 0
    | .inst 0 => 3
    | .inst 1 => 4
    | .constInt _ => 5
    | _ => 6
  node S := boundSCEVs.getD S .other
  getType _ := .int 8

/-- The comparison is reported as a bad overflow check, although no `x` up to the
bound makes the sum overflow. -/
theorem conservative_bound_reported :
    (runOnFunction boundEvolution boundProgram (fun _ => none) 0).map Prod.fst =
        .ok [(2, .axb1)] ∧
      ∀ x ≤ 117#8, ¬ ExceedsMax 10#8 2#8 x := by
  refine ⟨by decide +kernel, fun x hx => ?_⟩
  exact not_exceedsMax_of_le (by decide) (by decide : 117#8 ≤ exactBound 10#8 2#8) hx

/-- What `collect` finds in `boundProgram`. -/
def boundFacts : AxBMap := collect boundEvolution boundProgram (fun _ => none) [.inst 1]

/-- The verdicts about `10 + x * 2` at eight bits. -/
theorem bound_verdicts :
    (117#8 = (BitVec.allOnes 8 - 10#8).udiv 2#8 →
      checkAxB boundEvolution boundFacts 0 5 = .ok none ∧
        checkAxB boundEvolution boundFacts 5 0 = .ok none ∧
        ∀ x, x ≤ 117#8 ↔ ¬ ExceedsMax 10#8 2#8 x) ∧
    ∀ status, checkAxB boundEvolution boundFacts 0 5 = .ok (some status) ∨
        checkAxB boundEvolution boundFacts 5 0 = .ok (some status) →
      117#8 ≠ (BitVec.allOnes 8 - 10#8).udiv 2#8 ∧
      (¬ (status = .axb1 ∧ 10#8 ≤ (BitVec.allOnes 8).udiv 2#8) →
        ∃ x ≤ 117#8, ExceedsMax 10#8 2#8 x) ∧
      (status = .axb1 ∧ 10#8 ≤ (BitVec.allOnes 8).udiv 2#8 →
        117#8 < (BitVec.allOnes 8 - 10#8).udiv 2#8 ∧ ∀ x ≤ 117#8, ¬ ExceedsMax 10#8 2#8 x) :=
  checkAxB_verdicts (by decide) rfl rfl rfl rfl rfl

end Verdicts

end Kint.CmpOverflow
