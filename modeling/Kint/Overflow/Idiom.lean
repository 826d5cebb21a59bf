import Kint.LLVM.Builder

/-!
# `OverflowIdiom`

The pass recognizes comparisons by which a programmer checks a multiplication for overflow, and
rewrites them with the intrinsic.  A comparison is tried as it stands, with the inverse
predicate, and both ways with its operands swapped.

## Main definitions

* `matchCmp`, `matchCmpWithInverse`, `matchCmpWithSwappedAndInverse`: the transcription of the
  matcher, with the two groups of patterns in `matchMulDiv` and `matchBound`.  What they return
  is an expression that is built in place of the comparison.
* `IsGreater`: all the spellings of `X >u D`, and of its negation (`isInverse`).
* `boundTest`: what is made for a bound of the form `2 ^ k - 1`: both factors are compared with
  the bound, and their product is taken in `k` bits.

## Main results

`bound_rewrite_iff` says for each pair of numbers whether the rewriting of `x >u C /u y`, for `C
= 2 ^ k - 1`, has the truth value of the comparison.  It does not where `x` is zero and `y` is
beyond the bound: the comparison is false then, and the rewriting, which looks at each factor
alone, is true (`bound_rewrite_wrong`).  Nor does it for the bound zero, for which there is no
type of zero bits to truncate to; so the widths of the types that are created are part of the
statement.

The other idioms are treated in `Kint.Overflow.Product`.
-/

namespace Kint.Overflow

/-! ## Patterns -/

section Match

variable (P : Program)

/-- The operands of a binary operator, which may be an instruction or a constant
expression: `m_UDiv` and `m_Mul`. -/
def operands? (op : BinaryOp) : Value → Option (Value × Value)
  | .inst i =>
    match (P.inst i).op with
    | .binary op' A B => if op' = op then some (A, B) else none
    | _ => none
  | .constExpr c =>
    match P.const c with
    | .binary op' A B _ => if op' = op then some (A, B) else none
    | _ => none
  | _ => none

/-- `APInt::isPowerOf2` -/
def isPowerOf2 (n : ℕ) : Bool := n = 2 ^ n.log2

/-- `APInt::countTrailingOnes`, of the lower `w` bits. -/
def countTrailingOnes : (w n : ℕ) → ℕ
  | 0, _ => 0
  | w + 1, n => if n % 2 = 1 then countTrailingOnes w (n / 2) + 1 else 0

/-- `createOverflowBit` -/
def createOverflowBit (op : OverflowOp) (L R : Built) : Built := .overflow op 1 L R

/-- `CreateTrunc` and `CreateZExt`, which return a value of the type that is asked
for as it is. -/
def createCast (op : CastOp) (V : Value) (w : ℕ) : Built :=
  if P.typeOf V = .int w then .value V else .cast op (.value V) w

/-- `getIntegerBitWidth` -/
def getIntegerBitWidth : Ty → ℕ
  | .int w => w
  | _ => 0

/-- `x != (x * y) /u y` and `x != (y * x) /u y`. -/
def matchMulDiv (Pred : ICmpPredicate) (X R : Value) : Option Built := do
  if Pred ≠ .ne then failure
  let (M, Y) ← operands? P .udiv R
  let (A, B) ← operands? P .mul M
  if (A = X ∧ B = Y) ∨ (A = Y ∧ B = X) then
    return createOverflowBit .umul (.value X) (.value Y)
  else failure

/-- `x >u C /u y`, for the three kinds of bounds `C`. -/
def matchBound (Pred : ICmpPredicate) (X R : Value) : Option Built := do
  if Pred ≠ .ugt then failure
  let (D, Y) ← operands? P .udiv R
  let C ← constantInt? D
  if C.bits = BitVec.allOnes C.width then
    return createOverflowBit .umul (.value X) (.value Y)
  if isPowerOf2 (C.bits + 1).toNat then
    let N := countTrailingOnes C.width C.toNat
    return .binary .or
      (.binary .or (.icmp .ugt (.value X) (.getInt C)) (.icmp .ugt (.value Y) (.getInt C)))
      (createOverflowBit .umul (createCast P .trunc X N) (createCast P .trunc Y N))
  let N := getIntegerBitWidth (P.typeOf X) * 2
  return .icmp .ugt
    (.binary .mul (createCast P .zext X N) (createCast P .zext Y N))
    (createCast P .zext (.constInt C) N)

/-- `matchCmp` -/
def matchCmp (Pred : ICmpPredicate) (L R : Value) : Option Built :=
  matchMulDiv P Pred L R <|> matchBound P Pred L R

/-- `matchCmpWithInverse` -/
def matchCmpWithInverse (Pred : ICmpPredicate) (L R : Value) : Option Built :=
  matchCmp P Pred L R <|>
    (matchCmp P Pred.inverse L R).map fun V => .binary .xor V (.getInt (.ofBool true))

/-- `matchCmpWithSwappedAndInverse` -/
def matchCmpWithSwappedAndInverse (Pred : ICmpPredicate) (L R : Value) : Option Built :=
  matchCmpWithInverse P Pred L R <|> matchCmpWithInverse P Pred.swapped R L

end Match

/-! ## Which comparisons match -/

section Forms

variable {P : Program} {Pred : ICmpPredicate} {L R X Y D : Value}

theorem matchCmp_eq_none (h : Pred ≠ .ne) (h' : Pred ≠ .ugt) : matchCmp P Pred L R = none := by
  simp [matchCmp, matchMulDiv, matchBound, h, h']

/-- The predicate `>u` leads to the patterns with a bound. -/
theorem matchCmp_ugt : matchCmp P .ugt L R = matchBound P .ugt L R := by
  simp [matchCmp, matchMulDiv]

/-- A comparison that says `X >u D` or its negation, with the operands in either
order. -/
def IsGreater (Pred : ICmpPredicate) (L R X D : Value) : Prop :=
  (Pred = .ugt ∨ Pred = .ule) ∧ L = X ∧ R = D ∨ (Pred = .ult ∨ Pred = .uge) ∧ L = D ∧ R = X

/-- Whether the comparison is the negated one. -/
def isInverse (Pred : ICmpPredicate) : Bool := Pred = .ule ∨ Pred = .uge

/-- An expression, negated if the comparison is. -/
def invertIf (inv : Bool) (V : Built) : Built :=
  if inv then .binary .xor V (.getInt (.ofBool true)) else V

/-- Every spelling of `X >u D` leads to the same match. -/
theorem match_of_isGreater (h : IsGreater Pred L R X D) {V : Built}
    (hV : matchBound P .ugt X D = some V) :
    matchCmpWithSwappedAndInverse P Pred L R = some (invertIf (isInverse Pred) V) := by
  have hugt : matchCmp P .ugt X D = some V := matchCmp_ugt.trans hV
  unfold matchCmpWithSwappedAndInverse matchCmpWithInverse
  rcases h with ⟨rfl | rfl, rfl, rfl⟩ | ⟨rfl | rfl, rfl, rfl⟩ <;>
    simp [ICmpPredicate.inverse, ICmpPredicate.swapped, matchCmp_eq_none, hugt, invertIf, isInverse]

theorem eval_invertIf {ρ : Env P} {V : Built} {b : Bool} (inv : Bool)
    (hV : V.eval ρ = some (.ofBool b)) :
    (invertIf inv V).eval ρ = some (.ofBool (inv ^^ b)) := by
  cases inv with
  | false => rw [Bool.false_xor]; exact hV
  | true => rw [Bool.true_xor]; exact Built.eval_not hV

/-- The truth value of the comparison itself. -/
theorem eval_of_isGreater (h : IsGreater Pred L R X D) {ρ : Env P} {N : ℕ} {x d : BitVec N}
    (hX : ρ.val X = some ⟨N, x⟩) (hD : ρ.val D = some ⟨N, d⟩) :
    (Built.icmp Pred (.value L) (.value R)).eval ρ =
      some (.ofBool (isInverse Pred ^^ decide (d.toNat < x.toNat))) := by
  rcases h with ⟨rfl | rfl, rfl, rfl⟩ | ⟨rfl | rfl, rfl, rfl⟩
  · rw [Built.eval_icmp (A := .value L) (B := .value R) _ hX hD]
    simp [ICmpPredicate.eval, isInverse]
  · rw [Built.eval_icmp (A := .value L) (B := .value R) _ hX hD]
    simp [ICmpPredicate.eval, isInverse, ← decide_not]
  · rw [Built.eval_icmp (A := .value L) (B := .value R) _ hD hX]
    simp [ICmpPredicate.eval, isInverse]
  · rw [Built.eval_icmp (A := .value L) (B := .value R) _ hD hX]
    simp [ICmpPredicate.eval, isInverse, ← decide_not]

end Forms

/-! ## Bounds `2 ^ k - 1` -/

/-- The number of ones at the end of `2 ^ k - 1`. -/
theorem countTrailingOnes_two_pow_sub_one {k w : ℕ} (h : k ≤ w) :
    countTrailingOnes w (2 ^ k - 1) = k := by
  induction k generalizing w with
  | zero => cases w <;> simp [countTrailingOnes]
  | succ k ih =>
    obtain ⟨w, rfl⟩ : ∃ v, w = v + 1 := ⟨w - 1, by omega⟩
    have hodd : (2 ^ (k + 1) - 1) % 2 = 1 := by
      have := Nat.two_pow_pos k
      rw [Nat.pow_succ]
      omega
    have hhalf : (2 ^ (k + 1) - 1) / 2 = 2 ^ k - 1 := by
      rw [Nat.pow_succ]
      omega
    rw [countTrailingOnes, if_pos hodd, hhalf, ih (by omega)]

/-- The test of a bound succeeds for the powers of two. -/
theorem isPowerOf2_two_pow (k : ℕ) : isPowerOf2 (2 ^ k) = true := by
  simp [isPowerOf2]

/-- The rewritten comparison against the original one, on the integers.  With a
zero first operand the original is false, whatever the second one is. -/
theorem beyond_bound_iff {c x y K : ℕ} (hc : c + 1 = K) (hy : 0 < y) :
    ((c < x ∨ c < y ∨ K ≤ x % K * (y % K)) ↔ c / y < x) ↔ x ≠ 0 ∨ y ≤ c := by
  rw [Nat.div_lt_iff_lt_mul hy]
  by_cases hx : c < x
  · have : c < x * y := lt_of_lt_of_le hx (Nat.le_mul_of_pos_right x hy)
    simp only [hx, this, true_or, true_iff]
    omega
  by_cases hyc : c < y
  · by_cases h0 : x = 0
    · subst h0
      simp [hyc]
    · have : c < x * y := lt_of_lt_of_le hyc (Nat.le_mul_of_pos_left y (Nat.pos_of_ne_zero h0))
      simp [hyc, this, h0]
  · rw [Nat.mod_eq_of_lt (by omega : x < K), Nat.mod_eq_of_lt (by omega : y < K)]
    simp only [hx, hyc, false_or]
    constructor <;> intro _ <;> omega

section Bound

variable {P : Program} {ρ : Env P} {Pred : ICmpPredicate} {L R X Y D : Value} {N k : ℕ}
  {x y c : BitVec N}

/-- What the pass makes for the bound `2 ^ k - 1`. -/
def boundTest (X Y : Value) (C : APInt) (k : ℕ) : Built :=
  .binary .or
    (.binary .or (.icmp .ugt (.value X) (.getInt C)) (.icmp .ugt (.value Y) (.getInt C)))
    (createOverflowBit .umul (.cast .trunc (.value X) k) (.cast .trunc (.value Y) k))

/-- The match for a bound `2 ^ k - 1` that is not the largest integer. The successor of the bound is
a power of two, and the bound has `k` ones at its end, which is the width that the source truncates
to. -/
theorem matchBound_eq (hX : P.typeOf X = .int N) (hY : P.typeOf Y = .int N)
    (hD : operands? P .udiv D = some (.constInt ⟨N, c⟩, Y)) (hk : k < N)
    (hc : c.toNat = 2 ^ k - 1) :
    matchBound P .ugt X D = some (boundTest X Y ⟨N, c⟩ k) := by
  have hpow : 2 ^ k < 2 ^ N := Nat.pow_lt_pow_right (by decide) hk
  have hpos := Nat.two_pow_pos k
  have hones : c ≠ BitVec.allOnes N := by
    intro h
    have := congrArg BitVec.toNat h
    rw [hc, BitVec.toNat_allOnes] at this
    omega
  have hsucc : (c.toNat + 1) % 2 ^ N = 2 ^ k := by
    rw [hc, Nat.sub_add_cancel hpos, Nat.mod_eq_of_lt hpow]
  have htrailing : countTrailingOnes N c.toNat = k := by
    rw [hc, countTrailingOnes_two_pow_sub_one hk.le]
  have hcastX : createCast P .trunc X k = .cast .trunc (.value X) k := by
    rw [createCast, hX, if_neg]
    simp only [Ty.int.injEq]
    omega
  have hcastY : createCast P .trunc Y k = .cast .trunc (.value Y) k := by
    rw [createCast, hY, if_neg]
    simp only [Ty.int.injEq]
    omega
  simp [matchBound, hD, constantInt?, hones, hsucc, isPowerOf2_two_pow, APInt.toNat, htrailing,
    hcastX, hcastY, boundTest]

/-- The truncation to `k` bits takes the remainder by `2 ^ k`. -/
theorem eval_trunc {V : Value} (hV : ρ.val V = some ⟨N, x⟩) (hk : 0 < k) (hkN : k < N) :
    (Built.cast .trunc (.value V) k).eval ρ = some ⟨k, BitVec.ofNat k x.toNat⟩ := by
  simp [Built.eval, hV, castValue, hk, hkN, APInt.ofNat, APInt.toNat]

/-- The rewritten comparison on the integers: one factor is beyond the bound, or the product of the
lower `k` bits does not fit. -/
theorem eval_boundTest (hX : ρ.val X = some ⟨N, x⟩) (hY : ρ.val Y = some ⟨N, y⟩) (hk : 0 < k)
    (hkN : k < N) :
    (boundTest X Y ⟨N, c⟩ k).eval ρ = some (.ofBool (decide
      (c.toNat < x.toNat ∨ c.toNat < y.toNat ∨
        2 ^ k ≤ x.toNat % 2 ^ k * (y.toNat % 2 ^ k)))) := by
  have hx := Built.eval_icmp (A := .value X) .ugt hX (Built.eval_getInt ρ ⟨N, c⟩)
  have hy := Built.eval_icmp (A := .value Y) .ugt hY (Built.eval_getInt ρ ⟨N, c⟩)
  have hover := Built.eval_overflow .umul (eval_trunc hX hk hkN) (eval_trunc hY hk hkN)
  refine (Built.eval_or (Built.eval_or hx hy) hover).trans ?_
  congr 2
  rw [Bool.eq_iff_iff]
  simp only [ICmpPredicate.eval, OverflowOp.overflow, Bool.or_eq_true, decide_eq_true_eq,
    ← Nat.cast_mul, OverflowOp.not_fitsUnsigned, BitVec.toNat_ofNat, or_assoc]

/-- The widths of the types of the two truncations. -/
theorem createdWidths_boundTest (inv : Bool) (C : APInt) :
    (invertIf inv (boundTest X Y C k)).createdWidths = [k, k] := by
  cases inv <;> rfl

/-- The rewriting of `x >u C /u y` for `C = 2 ^ k - 1`, in every spelling: the
types it asks for exist and the truth value is that of the comparison, unless `C`
is zero, or `x` is zero and `y` is above `C`. -/
theorem bound_rewrite_iff (P : Program) (Pred : ICmpPredicate) (L R X Y D : Value) (N k : ℕ)
    (c : BitVec N) (hX : P.typeOf X = .int N) (hY : P.typeOf Y = .int N)
    (hD : operands? P .udiv D = some (.constInt ⟨N, c⟩, Y)) (hcmp : IsGreater Pred L R X D)
    (hc : c.toNat = 2 ^ k - 1) (hmax : c.toNat < 2 ^ N - 1) :
    ∃ V, matchCmpWithSwappedAndInverse P Pred L R = some V ∧
      ∀ (ρ : Env P) (x y : BitVec N), ρ.val X = some ⟨N, x⟩ → ρ.val Y = some ⟨N, y⟩ → y ≠ 0 →
        ρ.val D = binaryValue .udiv ⟨N, c⟩ ⟨N, y⟩ →
          ((∀ w ∈ V.createdWidths, 1 ≤ w) ∧
              V.eval ρ = (Built.icmp Pred (.value L) (.value R)).eval ρ ↔
            c ≠ 0 ∧ (x ≠ 0 ∨ y.toNat ≤ c.toNat)) := by
  have hpos := Nat.two_pow_pos k
  have hkN : k < N := by
    refine (Nat.pow_lt_pow_iff_right (a := 2) (by decide)).mp ?_
    omega
  refine ⟨_, match_of_isGreater hcmp (matchBound_eq hX hY hD hkN hc), ?_⟩
  intro ρ x y hx hy hy0 hd
  have hc0 : c ≠ 0 ↔ 0 < k := by
    rw [Ne, BitVec.toNat_eq, hc]
    cases k with
    | zero => simp
    | succ k =>
      have := Nat.two_pow_pos k
      rw [Nat.pow_succ]
      simp
      omega
  rw [createdWidths_boundTest, hc0]
  rcases Nat.eq_zero_or_pos k with rfl | hk
  · simp
  have hd' : ρ.val D = some ⟨N, BitVec.ofNat N (c.toNat / y.toNat)⟩ := by
    rw [hd, binaryValue, APInt.map₂_mk, BinaryOp.eval, if_neg hy0]
    rfl
  have hquot : (BitVec.ofNat N (c.toNat / y.toNat)).toNat = c.toNat / y.toNat := by
    rw [BitVec.toNat_ofNat]
    exact Nat.mod_eq_of_lt (lt_of_le_of_lt (Nat.div_le_self _ _) c.isLt)
  have hypos : 0 < y.toNat := by
    rw [Nat.pos_iff_ne_zero]
    exact fun h => hy0 (BitVec.eq_of_toNat_eq (by simpa using h))
  have hx0 : x ≠ 0 ↔ x.toNat ≠ 0 := by
    rw [Ne, BitVec.toNat_eq]
    simp
  rw [eval_invertIf _ (eval_boundTest hx hy hk hkN), eval_of_isGreater hcmp hx hd', hquot, hx0,
    ← beyond_bound_iff (K := 2 ^ k) (by omega) hypos]
  constructor
  · rintro ⟨-, h⟩
    have hb := Bool.xor_right_inj.mp (APInt.ofBool_injective (Option.some.inj h))
    exact ⟨hk, decide_eq_decide.mp hb⟩
  · rintro ⟨-, h⟩
    refine ⟨by simpa using Nat.succ_le_of_lt hk, ?_⟩
    rw [decide_eq_decide.mpr h]

end Bound

/-- A function of `x` and `y` that divides the bound 15 by `y`. -/
def fifteenOverY : Program :=
  .ofArguments 8 [⟨0, .int 8, .binary .udiv (.constInt ⟨8, 15⟩) (.argument 0 1), none, none⟩]

/-- The function at numbers for `x` and `y`. -/
def atNumbers (x y : ℕ) : Env fifteenOverY :=
  .ofNumbers _ fun V =>
    if V = .argument 0 0 then x else if V = .argument 0 1 then y else 15 / y

/-- `0 >u 15 /u 200` is false and its rewriting is true. -/
theorem bound_rewrite_wrong :
    (atNumbers 0 200).val (.inst 0) = binaryValue .udiv ⟨8, 15⟩ ⟨8, 200⟩ ∧
      (Built.icmp .ugt (.value (.argument 0 0)) (.value (.inst 0))).eval (atNumbers 0 200) =
        some (.ofBool false) ∧
      ∃ V, matchCmpWithSwappedAndInverse fifteenOverY .ugt (.argument 0 0) (.inst 0) = some V ∧
        V.eval (atNumbers 0 200) = some (.ofBool true) := by
  refine ⟨by decide, by decide, _, rfl, by decide⟩

/-- `3 <=u 15 /u 6`, written with the inverse predicate. -/
theorem bound_rewrite_iff_threeSix :
    ∃ V, matchCmpWithSwappedAndInverse fifteenOverY .ule (.argument 0 0) (.inst 0) = some V ∧
      V.eval (atNumbers 3 6) = some (.ofBool false) := by
  obtain ⟨V, hV, h⟩ := bound_rewrite_iff fifteenOverY .ule (.argument 0 0) (.inst 0)
    (.argument 0 0) (.argument 0 1) (.inst 0) 8 4 15 rfl rfl rfl (.inl ⟨.inr rfl, rfl, rfl⟩)
    (by decide) (by decide)
  refine ⟨V, hV, ?_⟩
  rw [((h (atNumbers 3 6) 3 6 (by decide) (by decide) (by decide) (by decide)).mpr
    (by decide)).2]
  decide

end Kint.Overflow
