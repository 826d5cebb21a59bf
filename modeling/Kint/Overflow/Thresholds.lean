import Kint.LLVM.Arith
import Mathlib.Data.Int.Order.Basic

/-!
# Thresholds of overflow

For a fixed constant operand, an operation overflows when the other operand is beyond a
threshold.  A threshold that the operation itself computes, in wrapping arithmetic, is the
mathematical one wherever it is in range.

The module is about bit vectors and integers: it names nothing of the pass.

## Addition and subtraction

A threshold is the difference of a constant from one end of the range, and whether that
difference wraps depends on the sign of the constant (`sadd_overflow_of_neg` and the three
lemmas after it).  With the constant on the left of a subtraction, the constant itself is on the
right side of its threshold (`not_sgt_sub_intMin`, `not_slt_sub_intMax`).

## Multiplication

A threshold is a quotient of an end of the range, in truncating division.  The comparisons of
integers come first (`tdiv_lt_iff`, `mul_lt_or_lt_iff_of_pos`, `mul_lt_or_lt_iff_of_neg`).  For
bit vectors the quotients do not wrap, with one exception: the minimum divided by `-1` is the
minimum again (`toInt_intMin_sdiv`, `beyond_thresholds_negOne`).

## Unsigned operations

These have one threshold each, for all constants but zero (`uadd_overflow`, `usub_overflow`,
`umul_overflow`).
-/

namespace Kint.Overflow

open OverflowOp ICmpPredicate

variable {N : ℕ} {x y c : BitVec N}

/-! ## Wrapping arithmetic in range -/

/-- The integer of a bit vector is in the range of its width. -/
theorem fitsSigned_toInt (x : BitVec N) : FitsSigned N x.toInt :=
  ⟨BitVec.le_toInt x, BitVec.toInt_lt⟩

/-- An integer in the range is not changed by wrapping. -/
theorem toInt_ofInt_of_fits (hN : 0 < N) {z : ℤ} (hz : FitsSigned N z) :
    (BitVec.ofInt N z).toInt = z :=
  BitVec.toInt_ofInt_eq_self hN hz.1 hz.2

theorem toInt_add_of_fits (hN : 0 < N) (h : FitsSigned N (x.toInt + y.toInt)) :
    (x + y).toInt = x.toInt + y.toInt := by
  rw [← toInt_ofInt_of_fits hN h, BitVec.ofInt_add, BitVec.ofInt_toInt, BitVec.ofInt_toInt]

theorem toInt_sub_of_fits (hN : 0 < N) (h : FitsSigned N (x.toInt - y.toInt)) :
    (x - y).toInt = x.toInt - y.toInt := by
  rw [← toInt_ofInt_of_fits hN h, ofInt_sub, BitVec.ofInt_toInt, BitVec.ofInt_toInt]

/-! ## Signed addition and subtraction -/

theorem toInt_intMin (hN : 0 < N) : (BitVec.intMin N).toInt = -2 ^ (N - 1) :=
  BitVec.toInt_intMin_of_pos hN

/-- A sum with a negative constant overflows below the difference of the minimum. -/
theorem sadd_overflow_of_neg (hN : 0 < N) (hc : c.toInt < 0) :
    slt.eval x (BitVec.intMin N - c) = sadd.overflow x c := by
  obtain ⟨hx, hx'⟩ := fitsSigned_toInt x
  obtain ⟨hlow, hhigh⟩ := fitsSigned_toInt c
  have hbound : (BitVec.intMin N - c).toInt = -2 ^ (N - 1) - c.toInt := by
    rw [toInt_sub_of_fits hN, toInt_intMin hN]
    rw [toInt_intMin hN]
    constructor <;> omega
  rw [Bool.eq_iff_iff]
  simp only [ICmpPredicate.eval, overflow, decide_eq_true_eq, hbound, not_fitsSigned]
  omega

/-- A sum with another constant overflows above the difference of the maximum. -/
theorem sadd_overflow_of_nonneg (hN : 0 < N) (hc : 0 ≤ c.toInt) :
    sgt.eval x (BitVec.intMax N - c) = sadd.overflow x c := by
  obtain ⟨hx, hx'⟩ := fitsSigned_toInt x
  obtain ⟨hlow, hhigh⟩ := fitsSigned_toInt c
  have hbound : (BitVec.intMax N - c).toInt = 2 ^ (N - 1) - 1 - c.toInt := by
    rw [toInt_sub_of_fits hN, BitVec.toInt_intMax]
    rw [BitVec.toInt_intMax]
    constructor <;> omega
  rw [Bool.eq_iff_iff]
  simp only [ICmpPredicate.eval, overflow, decide_eq_true_eq, hbound, not_fitsSigned]
  omega

/-- Subtracting a negative constant overflows above the sum with the maximum. -/
theorem ssub_overflow_of_neg (hN : 0 < N) (hc : c.toInt < 0) :
    sgt.eval x (BitVec.intMax N + c) = ssub.overflow x c := by
  obtain ⟨hx, hx'⟩ := fitsSigned_toInt x
  obtain ⟨hlow, hhigh⟩ := fitsSigned_toInt c
  have hbound : (BitVec.intMax N + c).toInt = 2 ^ (N - 1) - 1 + c.toInt := by
    rw [toInt_add_of_fits hN, BitVec.toInt_intMax]
    rw [BitVec.toInt_intMax]
    constructor <;> omega
  rw [Bool.eq_iff_iff]
  simp only [ICmpPredicate.eval, overflow, decide_eq_true_eq, hbound, not_fitsSigned]
  omega

/-- Subtracting another constant overflows below the sum with the minimum. -/
theorem ssub_overflow_of_nonneg (hN : 0 < N) (hc : 0 ≤ c.toInt) :
    slt.eval x (BitVec.intMin N + c) = ssub.overflow x c := by
  obtain ⟨hx, hx'⟩ := fitsSigned_toInt x
  obtain ⟨hlow, hhigh⟩ := fitsSigned_toInt c
  have hbound : (BitVec.intMin N + c).toInt = -2 ^ (N - 1) + c.toInt := by
    rw [toInt_add_of_fits hN, toInt_intMin hN]
    rw [toInt_intMin hN]
    constructor <;> omega
  rw [Bool.eq_iff_iff]
  simp only [ICmpPredicate.eval, overflow, decide_eq_true_eq, hbound, not_fitsSigned]
  omega

/-- The threshold for a negative constant on the left, compared with the
constant itself: never exceeded. -/
theorem not_sgt_sub_intMin (hN : 0 < N) (hc : c.toInt < 0) :
    sgt.eval c (c - BitVec.intMin N) = false := by
  obtain ⟨hlow, hhigh⟩ := fitsSigned_toInt c
  have hbound : (c - BitVec.intMin N).toInt = c.toInt + 2 ^ (N - 1) := by
    rw [toInt_sub_of_fits hN, toInt_intMin hN, sub_neg_eq_add]
    rw [toInt_intMin hN]
    constructor <;> omega
  simp only [ICmpPredicate.eval, hbound, decide_eq_false_iff_not]
  omega

/-- The threshold for a constant on the left that is not negative, compared with
the constant itself: never undercut. -/
theorem not_slt_sub_intMax (hN : 0 < N) (hc : 0 ≤ c.toInt) :
    slt.eval c (c - BitVec.intMax N) = false := by
  obtain ⟨hlow, hhigh⟩ := fitsSigned_toInt c
  have hbound : (c - BitVec.intMax N).toInt = c.toInt - (2 ^ (N - 1) - 1) := by
    rw [toInt_sub_of_fits hN, BitVec.toInt_intMax]
    rw [BitVec.toInt_intMax]
    constructor <;> omega
  simp only [ICmpPredicate.eval, hbound, decide_eq_false_iff_not]
  omega

/-! ## Signed multiplication -/

section Quotient

variable {M d z : ℤ}

/-- Division by a positive constant, in the truncating arithmetic of the
thresholds. -/
theorem tdiv_lt_iff (hM : 0 ≤ M) (hd : 0 < d) : M.tdiv d < z ↔ M < z * d := by
  rw [Int.tdiv_eq_ediv_of_nonneg hM, Int.ediv_lt_iff_lt_mul hd]

theorem lt_neg_tdiv_iff (hM : 0 ≤ M) (hd : 0 < d) : z < (-M).tdiv d ↔ z * d < -M := by
  rw [Int.neg_tdiv, lt_neg, tdiv_lt_iff hM hd, neg_mul, lt_neg]

/-- Beyond the two thresholds of a positive constant the product leaves the
range from `-(M + 1)` to `M`. -/
theorem mul_lt_or_lt_iff_of_pos (hM : 0 ≤ M) (hd : 0 < d) :
    (M.tdiv d < z ∨ z < (-(M + 1)).tdiv d) ↔ (M < z * d ∨ z * d < -(M + 1)) := by
  rw [tdiv_lt_iff hM hd, lt_neg_tdiv_iff (by omega) hd]

/-- A negative constant turns the comparisons around. -/
theorem mul_lt_or_lt_iff_of_neg (hM : 0 ≤ M) (hd : d < 0) :
    (z < M.tdiv d ∨ (-(M + 1)).tdiv d < z) ↔ (M < z * d ∨ z * d < -(M + 1)) := by
  obtain ⟨e, rfl⟩ : ∃ e, d = -e := ⟨-d, (neg_neg d).symm⟩
  have he : 0 < e := by omega
  rw [Int.tdiv_neg, ← Int.neg_tdiv, lt_neg_tdiv_iff hM he, Int.neg_tdiv_neg,
    tdiv_lt_iff (by omega) he, mul_neg]
  omega

end Quotient

theorem toInt_intMax_sdiv (hN : 0 < N) (c : BitVec N) :
    ((BitVec.intMax N).sdiv c).toInt = (2 ^ (N - 1) - 1 : ℤ).tdiv c.toInt := by
  have hne : BitVec.intMax N ≠ BitVec.intMin N := by
    intro h
    have := congrArg BitVec.toInt h
    have hpos : (0 : ℤ) < 2 ^ (N - 1) := Int.pow_pos (by decide)
    rw [BitVec.toInt_intMax, toInt_intMin hN] at this
    omega
  rw [BitVec.toInt_sdiv_of_ne_or_ne _ _ (.inl hne), BitVec.toInt_intMax]

/-- The quotient of the minimum wraps for `-1` only. -/
theorem toInt_intMin_sdiv (hN : 0 < N) (hc : c ≠ -1#N) :
    ((BitVec.intMin N).sdiv c).toInt = (-2 ^ (N - 1) : ℤ).tdiv c.toInt := by
  rw [BitVec.toInt_sdiv_of_ne_or_ne _ _ (.inr hc), toInt_intMin hN]

theorem toInt_negOne (hN : 0 < N) : (-1#N).toInt = -1 := by
  rw [BitVec.neg_one_eq_allOnes, BitVec.toInt_allOnes, if_pos hN]

/-- The product with a positive constant overflows beyond its two thresholds. -/
theorem smul_overflow_of_pos (hN : 0 < N) (hc : 0 < c.toInt) :
    (sgt.eval x ((BitVec.intMax N).sdiv c) || slt.eval x ((BitVec.intMin N).sdiv c)) =
      smul.overflow x c := by
  have hM : (0 : ℤ) ≤ 2 ^ (N - 1) - 1 := Int.le_sub_one_of_lt (Int.pow_pos (by decide))
  have hc' : c ≠ -1#N := by
    rintro rfl
    rw [toInt_negOne hN] at hc
    omega
  have key := mul_lt_or_lt_iff_of_pos (z := x.toInt) hM hc
  rw [sub_add_cancel] at key
  rw [Bool.eq_iff_iff]
  simp only [ICmpPredicate.eval, overflow, Bool.or_eq_true, decide_eq_true_eq, not_fitsSigned,
    toInt_intMax_sdiv hN, toInt_intMin_sdiv hN hc']
  omega

/-- The product with a negative constant other than `-1` does so too. -/
theorem smul_overflow_of_neg (hN : 0 < N) (hc : c.toInt < 0) (hc' : c ≠ -1#N) :
    (slt.eval x ((BitVec.intMax N).sdiv c) || sgt.eval x ((BitVec.intMin N).sdiv c)) =
      smul.overflow x c := by
  have hM : (0 : ℤ) ≤ 2 ^ (N - 1) - 1 := Int.le_sub_one_of_lt (Int.pow_pos (by decide))
  have key := mul_lt_or_lt_iff_of_neg (z := x.toInt) hM hc
  rw [sub_add_cancel] at key
  rw [Bool.eq_iff_iff]
  simp only [ICmpPredicate.eval, overflow, Bool.or_eq_true, decide_eq_true_eq, not_fitsSigned,
    toInt_intMax_sdiv hN, toInt_intMin_sdiv hN hc']
  omega

/-- For the constant `-1` the quotient of the minimum wraps to the minimum, and
every operand is beyond one of the two thresholds. -/
theorem beyond_thresholds_negOne (hN : 0 < N) :
    (slt.eval x ((BitVec.intMax N).sdiv (-1#N)) ||
      sgt.eval x ((BitVec.intMin N).sdiv (-1#N))) = true := by
  simp only [ICmpPredicate.eval, Bool.or_eq_true, decide_eq_true_eq, toInt_intMax_sdiv hN,
    BitVec.intMin_sdiv_neg_one, toInt_intMin hN, toInt_negOne hN, Int.tdiv_neg, Int.tdiv_one]
  omega

/-- The product with `-1` overflows at the minimum only. -/
theorem smul_overflow_negOne (hN : 0 < N) :
    smul.overflow x (-1#N) = decide (x = BitVec.intMin N) := by
  obtain ⟨hx, hx'⟩ := fitsSigned_toInt x
  rw [Bool.eq_iff_iff]
  simp only [overflow, decide_eq_true_eq, not_fitsSigned, toInt_negOne hN, ← BitVec.toInt_inj,
    toInt_intMin hN]
  omega

/-! ## Unsigned operations -/

/-- An unsigned sum overflows above the complement of the constant. -/
theorem uadd_overflow (x c : BitVec N) :
    ugt.eval x (BitVec.allOnes N - c) = uadd.overflow x c := by
  have hc := c.isLt
  have hbound : (BitVec.allOnes N - c).toNat = 2 ^ N - 1 - c.toNat := by
    rw [BitVec.toNat_sub_of_le, BitVec.toNat_allOnes]
    rw [BitVec.le_def, BitVec.toNat_allOnes]
    omega
  rw [Bool.eq_iff_iff]
  simp only [ICmpPredicate.eval, overflow, decide_eq_true_eq, hbound, ← Nat.cast_add,
    not_fitsUnsigned]
  omega

/-- An unsigned difference overflows when the first operand is the smaller one. -/
theorem usub_overflow (x y : BitVec N) : ult.eval x y = usub.overflow x y := by
  have hx : (x.toNat : ℤ) < 2 ^ N := by exact_mod_cast x.isLt
  rw [Bool.eq_iff_iff]
  simp only [ICmpPredicate.eval, overflow, decide_eq_true_eq]
  unfold FitsUnsigned
  omega

/-- An unsigned product overflows above the quotient of the maximum. -/
theorem umul_overflow (x : BitVec N) (hc : c ≠ 0) :
    ugt.eval x (BitVec.allOnes N / c) = umul.overflow x c := by
  have hpos : 0 < c.toNat := by
    rw [Nat.pos_iff_ne_zero]
    exact fun h => hc (BitVec.eq_of_toNat_eq (by simpa using h))
  have hpow : 0 < 2 ^ N := Nat.two_pow_pos N
  rw [Bool.eq_iff_iff]
  simp only [ICmpPredicate.eval, overflow, decide_eq_true_eq, ← Nat.cast_mul, not_fitsUnsigned,
    BitVec.toNat_udiv, BitVec.toNat_allOnes]
  rw [gt_iff_lt, Nat.div_lt_iff_lt_mul hpos]
  omega

/-- A product with zero does not overflow. -/
theorem overflow_mul_zero (x : BitVec N) :
    smul.overflow x 0#N = false ∧ umul.overflow x 0#N = false := by
  have hpos : (0 : ℤ) < 2 ^ (N - 1) := Int.pow_pos (by decide)
  have hpos' : (0 : ℤ) < 2 ^ N := Int.pow_pos (by decide)
  simp [overflow, FitsSigned, FitsUnsigned, hpos, hpos', hpos.le]

end Kint.Overflow
