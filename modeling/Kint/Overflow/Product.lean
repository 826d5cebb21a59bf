import Kint.Overflow.Idiom

/-!
# Overflow checks by division

The idioms of `OverflowIdiom` that leave nothing to chance: the test whether a product divided
by one factor is the other one again, and the comparison with a quotient `C /u y` for a bound
`C` that is the largest integer, or whose successor is no power of two.  Whatever the matcher
makes of them has the truth value of the comparison.

## Main definitions

* `IsProductIdiom`: the comparisons a programmer writes, in all spellings.
* `PlainBound`: the bounds for which nothing is lost.  For the others see `bound_rewrite_iff` in
  `Kint.Overflow.Idiom`.
* `Computed`: the names of a function hold what their instructions compute.  The matcher looks
  through the names of the operands, so this is what connects the parts of an idiom.

## Main results

* `mul_mod_div_ne_iff`: the arithmetic of the test by division: a product fits exactly if
  dividing by a factor gives the other factor back.
* `matchCmp_preserves`: what the matcher makes has the truth value of the comparison.
* `exists_match`: the matcher finds each spelling.
* `product_rewrite`: both together, under the names of the source.

A zero divisor makes the original comparison undefined, and the result is about divisors that
are not zero.  The rewriting itself is defined for all operands.
-/

namespace Kint.Overflow

/-! ## Quotients -/

section Quotients

variable {x y c N : ℕ}

/-- A product fits exactly if dividing by a factor gives the other factor back. -/
theorem mul_mod_div_ne_iff (hy : 0 < y) : x ≠ x * y % 2 ^ N / y ↔ 2 ^ N ≤ x * y := by
  constructor
  · intro hne
    by_contra hlt
    rw [Nat.mod_eq_of_lt (not_le.mp hlt), Nat.mul_div_cancel x hy] at hne
    exact hne rfl
  · intro hle
    have hmod : x * y % 2 ^ N < x * y := lt_of_lt_of_le (Nat.mod_lt _ (Nat.two_pow_pos N)) hle
    exact ((Nat.div_lt_iff_lt_mul hy).mpr hmod).ne'

/-- In twice the width, a product does not wrap. -/
theorem mul_lt_two_pow_double (hx : x < 2 ^ N) (hy : y < 2 ^ N) : x * y < 2 ^ (N * 2) := by
  rw [Nat.mul_comm N 2, Nat.two_mul, Nat.pow_add]
  exact Nat.mul_lt_mul'' hx hy

end Quotients

/-! ## Environments of a function -/

section Computed

variable {P : Program}

/-- Binary operators have the values that they compute from their operands. -/
def Computed (ρ : Env P) : Prop :=
  ∀ op V A B, operands? P op V = some (A, B) →
    ρ.val V = (ρ.val A).bind fun a => (ρ.val B).bind (binaryValue op a)

variable (P) in
/-- The operands of binary operators have the type of the result. -/
def OperandsTyped : Prop :=
  ∀ op V A B, operands? P op V = some (A, B) →
    P.typeOf A = P.typeOf V ∧ P.typeOf B = P.typeOf V

variable {ρ : Env P} {op : BinaryOp} {V A B : Value} {N : ℕ} {x y : BitVec N}

/-- The operands of a binary operator are those of an instruction or of a constant expression. -/
theorem of_operands? (h : operands? P op V = some (A, B)) :
    (∃ i, V = .inst i ∧ (P.inst i).op = .binary op A B) ∨
      ∃ c ty, V = .constExpr c ∧ P.const c = .binary op A B ty := by
  unfold operands? at h
  split at h
  · rename_i i
    split at h
    · rename_i op' A' B' hop
      split at h
      · rename_i heq
        obtain ⟨rfl, rfl⟩ := Prod.mk.inj (Option.some.inj h)
        exact .inl ⟨i, rfl, heq ▸ hop⟩
      · cases h
    · cases h
  · rename_i c
    split at h
    · rename_i op' A' B' ty hop
      split at h
      · rename_i heq
        obtain ⟨rfl, rfl⟩ := Prod.mk.inj (Option.some.inj h)
        exact .inr ⟨c, ty, rfl, heq ▸ hop⟩
      · cases h
    · cases h
  · cases h

/-- The value of a binary operator is that of its operation on its operands. -/
theorem Computed.val (h : Computed ρ) (hV : operands? P op V = some (A, B))
    (hA : ρ.val A = some ⟨N, x⟩) (hB : ρ.val B = some ⟨N, y⟩) :
    ρ.val V = (op.eval x y).map fun z => ⟨N, z⟩ := by
  rw [h op V A B hV, hA, Option.bind_some, hB, Option.bind_some, binaryValue, APInt.map₂_mk]

/-- The value of a quotient whose divisor is not zero. -/
theorem Computed.val_udiv (h : Computed ρ) (hV : operands? P .udiv V = some (A, B))
    (hA : ρ.val A = some ⟨N, x⟩) (hB : ρ.val B = some ⟨N, y⟩) (hy : y ≠ 0) :
    ρ.val V = some ⟨N, BitVec.ofNat N (x.toNat / y.toNat)⟩ := by
  rw [h.val hV hA hB, BinaryOp.eval, if_neg hy]
  rfl

end Computed

/-! ## What `matchCmp` makes -/

section Match

variable {P : Program} {Pred : ICmpPredicate} {L R X Y : Value} {V : Built} {N : ℕ}

/-- The comparison `(zext x) * (zext y) > (zext C)` in twice the width of `x`. -/
def doubledTest (P : Program) (X Y : Value) (C : APInt) : Built :=
  .icmp .ugt
    (.binary .mul (createCast P .zext X (getIntegerBitWidth (P.typeOf X) * 2))
      (createCast P .zext Y (getIntegerBitWidth (P.typeOf X) * 2)))
    (createCast P .zext (.constInt C) (getIntegerBitWidth (P.typeOf X) * 2))

/-- The forms that the rewriting has but for bounds `2 ^ k - 1`. -/
def IsProductTest (P : Program) (X Y : Value) (W : Built) : Prop :=
  W = createOverflowBit .umul (.value X) (.value Y) ∨ ∃ C, W = doubledTest P X Y C

/-- The bound of a quotient is the largest integer, or its successor is no power of
two. -/
def PlainBound (P : Program) (D : Value) : Prop :=
  ∀ C Y, operands? P .udiv D = some (.constInt C, Y) →
    C.bits = BitVec.allOnes C.width ∨ isPowerOf2 (C.bits + 1).toNat = false

/-- What is known of the operands when the patterns of the test by division match. -/
theorem matchMulDiv_eq_some (h : matchMulDiv P Pred L R = some V) :
    Pred = .ne ∧ ∃ M Y A B, operands? P .udiv R = some (M, Y) ∧
      operands? P .mul M = some (A, B) ∧ ((A = L ∧ B = Y) ∨ (A = Y ∧ B = L)) ∧
      V = createOverflowBit .umul (.value L) (.value Y) := by
  unfold matchMulDiv at h
  split at h
  · cases h
  · rename_i hPred
    obtain ⟨⟨M, Y⟩, hR, h⟩ := Option.bind_eq_some_iff.mp h
    obtain ⟨⟨A, B⟩, hM, h⟩ := Option.bind_eq_some_iff.mp h
    simp only at h
    split at h
    · rename_i hfactors
      exact ⟨not_not.mp hPred, M, Y, A, B, hR, hM, hfactors, (Option.some.inj h).symm⟩
    · cases h

theorem matchBound_eq_ugt (h : matchBound P Pred L R = some V) : Pred = .ugt := by
  unfold matchBound at h
  split at h
  · cases h
  · rename_i hPred
    exact not_not.mp hPred

/-- What is made for a bound that is the largest integer, or whose successor is no power of two. -/
theorem matchBound_eq_some (h : matchBound P Pred L R = some V) (hplain : PlainBound P R) :
    ∃ C Y, operands? P .udiv R = some (.constInt C, Y) ∧
      ((C.bits = BitVec.allOnes C.width ∧ V = createOverflowBit .umul (.value L) (.value Y)) ∨
        V = doubledTest P L Y C) := by
  unfold matchBound at h
  split at h
  · cases h
  · obtain ⟨⟨D, Y⟩, hR, hD⟩ := Option.bind_eq_some_iff.mp h
    obtain ⟨C, hC, hV⟩ := Option.bind_eq_some_iff.mp hD
    obtain rfl := constantInt?_eq_some.mp hC
    refine ⟨C, Y, hR, ?_⟩
    by_cases hmax : C.bits = BitVec.allOnes C.width
    · rw [if_pos hmax] at hV
      exact .inl ⟨hmax, (Option.some.inj hV).symm⟩
    · rw [if_neg hmax, (hplain C Y hR).resolve_left hmax] at hV
      exact .inr (Option.some.inj hV).symm

/-- A predicate or its inverse. -/
def inverseIf (inv : Bool) (Pred : ICmpPredicate) : ICmpPredicate :=
  if inv then Pred.inverse else Pred

theorem eval_inverseIf (inv : Bool) (x y : BitVec N) :
    (inverseIf inv Pred).eval x y = (inv ^^ Pred.eval x y) := by
  cases inv with
  | false => exact (Bool.false_xor _).symm
  | true => exact (Pred.eval_inverse x y).trans (Bool.true_xor _).symm

theorem eq_or_of_inverseIf {inv : Bool} {Q : ICmpPredicate} (h : inverseIf inv Pred = Q) :
    Pred = Q ∨ Pred = Q.inverse := by
  subst h
  cases inv with
  | false => exact .inl rfl
  | true => cases Pred <;> exact .inr rfl

/-- The comparison that matched is the given one, its inverse, or one of these with the
operands swapped. -/
theorem match_cases (h : matchCmpWithSwappedAndInverse P Pred L R = some V) :
    ∃ inv W, V = invertIf inv W ∧
      (matchCmp P (inverseIf inv Pred) L R = some W ∨
        matchCmp P (inverseIf inv Pred.swapped) R L = some W) := by
  have hinverse : ∀ {Q : ICmpPredicate} {A B : Value}, matchCmpWithInverse P Q A B = some V →
      ∃ inv W, V = invertIf inv W ∧ matchCmp P (inverseIf inv Q) A B = some W := by
    intro Q A B hV
    rw [matchCmpWithInverse, Option.orElse_eq_orElse, Option.orElse_eq_or,
      Option.or_eq_some_iff] at hV
    rcases hV with hW | ⟨-, hW⟩
    · exact ⟨false, V, rfl, hW⟩
    · obtain ⟨W, hinv, rfl⟩ := Option.map_eq_some_iff.mp hW
      exact ⟨true, W, rfl, hinv⟩
  rw [matchCmpWithSwappedAndInverse, Option.orElse_eq_orElse, Option.orElse_eq_or,
    Option.or_eq_some_iff] at h
  rcases h with h | ⟨-, h⟩
  · obtain ⟨inv, W, rfl, hW⟩ := hinverse h
    exact ⟨inv, W, rfl, .inl hW⟩
  · obtain ⟨inv, W, rfl, hW⟩ := hinverse h
    exact ⟨inv, W, rfl, .inr hW⟩

end Match

/-! ## Truth values -/

section Eval

variable {P : Program} {ρ : Env P} {Pred : ICmpPredicate} {L R X Y D M A B : Value} {V : Built}
  {N : ℕ} {x y c : BitVec N}

/-- A bit vector other than zero is a positive number. -/
theorem toNat_pos (hy : y ≠ 0) : 0 < y.toNat := by
  rw [Nat.pos_iff_ne_zero]
  exact fun h => hy (BitVec.eq_of_toNat_eq (by simpa using h))

/-- The overflow bit of the intrinsic says that the product does not fit. -/
theorem eval_umul (hX : ρ.val X = some ⟨N, x⟩) (hY : ρ.val Y = some ⟨N, y⟩) :
    (createOverflowBit .umul (.value X) (.value Y)).eval ρ =
      some (.ofBool (decide (2 ^ N ≤ x.toNat * y.toNat))) := by
  have hover := Built.eval_overflow (A := .value X) (B := .value Y) .umul hX hY
  refine hover.trans ?_
  congr 2
  rw [Bool.eq_iff_iff]
  simp only [OverflowOp.overflow, decide_eq_true_eq, ← Nat.cast_mul, OverflowOp.not_fitsUnsigned]

/-- The extension to twice the width keeps the number. -/
theorem eval_createCast_zext {V : Value} {v : BitVec N} (hV : P.typeOf V = .int N)
    (hval : ρ.val V = some ⟨N, v⟩) (hN : 0 < N) :
    (createCast P .zext V (N * 2)).eval ρ = some ⟨N * 2, BitVec.ofNat (N * 2) v.toNat⟩ := by
  have hne : Ty.int N ≠ .int (N * 2) := by
    intro heq
    have := Ty.int.inj heq
    omega
  rw [createCast, hV, if_neg hne]
  show ((Built.value V).eval ρ).bind (castValue .zext (N * 2)) = _
  rw [Built.eval_value, hval, Option.bind_some, castValue, if_pos (show N < N * 2 by omega)]
  rfl

/-- The comparison in twice the width is one of natural numbers. -/
theorem eval_doubledTest (htX : P.typeOf X = .int N) (htY : P.typeOf Y = .int N)
    (hX : ρ.val X = some ⟨N, x⟩) (hY : ρ.val Y = some ⟨N, y⟩) (hN : 0 < N) :
    (doubledTest P X Y ⟨N, c⟩).eval ρ =
      some (.ofBool (decide (c.toNat < x.toNat * y.toNat))) := by
  have hwide : ∀ v : BitVec N, (BitVec.ofNat (N * 2) v.toNat).toNat = v.toNat := by
    intro v
    rw [BitVec.toNat_ofNat, Nat.mod_eq_of_lt]
    exact lt_of_lt_of_le v.isLt (Nat.pow_le_pow_right (by decide) (by omega))
  have hproduct : x.toNat * y.toNat % 2 ^ (N * 2) = x.toNat * y.toNat :=
    Nat.mod_eq_of_lt (mul_lt_two_pow_double x.isLt y.isLt)
  rw [doubledTest, htX]
  have hmul : (Built.binary .mul (createCast P .zext X (N * 2))
      (createCast P .zext Y (N * 2))).eval ρ = some ⟨N * 2, _⟩ :=
    Built.eval_binary .mul (eval_createCast_zext htX hX hN) (eval_createCast_zext htY hY hN)
  have hbound : (createCast P .zext (.constInt ⟨N, c⟩) (N * 2)).eval ρ = some ⟨N * 2, _⟩ :=
    eval_createCast_zext rfl (ρ.constInt ⟨N, c⟩) hN
  refine (Built.eval_icmp .ugt hmul hbound).trans ?_
  simp only [ICmpPredicate.eval, BitVec.toNat_ofNat, hwide, hproduct]

/-- A test by division of a product, with the factors in either order. -/
theorem eval_mulDiv (hρ : Computed ρ) (hR : operands? P .udiv R = some (M, Y))
    (hM : operands? P .mul M = some (A, B)) (hfactors : (A = X ∧ B = Y) ∨ (A = Y ∧ B = X))
    (hX : ρ.val X = some ⟨N, x⟩) (hY : ρ.val Y = some ⟨N, y⟩) (hy : y ≠ 0) :
    ∃ d, ρ.val R = some ⟨N, d⟩ ∧ (createOverflowBit .umul (.value X) (.value Y)).eval ρ =
      some (.ofBool (ICmpPredicate.ne.eval x d)) := by
  have hval : ρ.val M = some ⟨N, BitVec.ofNat N (x.toNat * y.toNat)⟩ := by
    rcases hfactors with ⟨rfl, rfl⟩ | ⟨rfl, rfl⟩
    · exact hρ.val hM hX hY
    · rw [Nat.mul_comm]
      exact hρ.val hM hY hX
  refine ⟨_, hρ.val_udiv hR hval hY hy, ?_⟩
  rw [eval_umul hX hY, ICmpPredicate.eval, decide_eq_decide.mpr]
  rw [BitVec.toNat_ofNat, BitVec.toNat_ofNat, Nat.mod_eq_of_lt (lt_of_le_of_lt (Nat.div_le_self _ _)
    (Nat.mod_lt _ (Nat.two_pow_pos N)))]
  exact (mul_mod_div_ne_iff (toNat_pos hy)).symm

/-- A comparison with a quotient of a bound that is not `2 ^ k - 1`. For the largest integer the
product exceeds the bound just when it does not fit; for the other bounds the comparison is made in
twice the width. -/
theorem eval_bound {V : Built} {c : BitVec N} (hρ : Computed ρ)
    (hR : operands? P .udiv R = some (.constInt ⟨N, c⟩, Y))
    (htX : P.typeOf X = .int N) (htY : P.typeOf Y = .int N) (hX : ρ.val X = some ⟨N, x⟩)
    (hY : ρ.val Y = some ⟨N, y⟩) (hy : y ≠ 0)
    (hV : c = BitVec.allOnes N ∧ V = createOverflowBit .umul (.value X) (.value Y) ∨
      V = doubledTest P X Y ⟨N, c⟩) :
    ∃ d, ρ.val R = some ⟨N, d⟩ ∧ V.eval ρ = some (.ofBool (ICmpPredicate.ugt.eval x d)) := by
  have hpos := toNat_pos hy
  have hN : 0 < N := by
    rw [Nat.pos_iff_ne_zero]
    rintro rfl
    exact hy (Subsingleton.elim y 0)
  have hW : V.eval ρ = some (.ofBool (decide (c.toNat < x.toNat * y.toNat))) := by
    rcases hV with ⟨hc, hW⟩ | hW
    · rw [hW, eval_umul hX hY, hc, BitVec.toNat_allOnes]
      congr 2
      rw [decide_eq_decide]
      have := Nat.two_pow_pos N
      omega
    · rw [hW]
      exact eval_doubledTest htX htY hX hY hN
  refine ⟨_, hρ.val_udiv hR (ρ.constInt _) hY hy, ?_⟩
  have hquot : (BitVec.ofNat N (c.toNat / y.toNat)).toNat = c.toNat / y.toNat := by
    rw [BitVec.toNat_ofNat]
    exact Nat.mod_eq_of_lt (lt_of_le_of_lt (Nat.div_le_self _ _) c.isLt)
  rw [ICmpPredicate.eval, hquot, hW]
  congr 2
  exact decide_eq_decide.mpr (Nat.div_lt_iff_lt_mul hpos).symm

end Eval

/-! ## The comparisons that are rewritten -/

section Idiom

variable {P : Program} {Pred : ICmpPredicate} {L R X Y : Value} {V : Built} {N : ℕ}

/-- The operand `D` is `(x * y) /u y` or `(y * x) /u y`. -/
def IsMulDiv (P : Program) (X Y D : Value) : Prop :=
  ∃ M A B, operands? P .udiv D = some (M, Y) ∧ operands? P .mul M = some (A, B) ∧
    ((A = X ∧ B = Y) ∨ (A = Y ∧ B = X))

/-- A comparison of `x` with `(x * y) /u y`, or one of `x` with `C /u y` that says
`x >u C /u y` or its negation; with the operands in either order. -/
def IsProductIdiom (P : Program) (Pred : ICmpPredicate) (L R X Y : Value) : Prop :=
  ((Pred = .ne ∨ Pred = .eq) ∧
      (L = X ∧ IsMulDiv P X Y R ∨ R = X ∧ IsMulDiv P X Y L)) ∨
    ∃ D C, IsGreater Pred L R X D ∧ operands? P .udiv D = some (.constInt C, Y)

/-- What `matchCmp` makes has the truth value of the comparison. The statement also says which idiom
was matched, so that the factors are known when the truth values are compared. -/
theorem matchCmp_preserves (htyped : OperandsTyped P) (htL : P.typeOf L = .int N)
    (htR : P.typeOf R = .int N) (hplain : Pred = .ugt → PlainBound P R)
    (h : matchCmp P Pred L R = some V) :
    ∃ Y, (Pred = .ne ∧ IsMulDiv P L Y R ∨
        Pred = .ugt ∧ ∃ C, operands? P .udiv R = some (.constInt C, Y)) ∧
      IsProductTest P L Y V ∧
      ∀ (ρ : Env P) (x y : BitVec N), Computed ρ → ρ.val L = some ⟨N, x⟩ →
        ρ.val Y = some ⟨N, y⟩ → y ≠ 0 →
          ∃ d, ρ.val R = some ⟨N, d⟩ ∧ V.eval ρ = some (.ofBool (Pred.eval x d)) := by
  unfold matchCmp at h
  cases hmul : matchMulDiv P Pred L R with
  | some W =>
    rw [hmul] at h
    obtain rfl := Option.some.inj h
    obtain ⟨rfl, M, Y, A, B, hR, hM, hfactors, rfl⟩ := matchMulDiv_eq_some hmul
    refine ⟨Y, .inl ⟨rfl, M, A, B, hR, hM, hfactors⟩, .inl rfl, fun ρ x y hρ hx hy hy0 => ?_⟩
    exact eval_mulDiv hρ hR hM hfactors hx hy hy0
  | none =>
    rw [hmul] at h
    have hPred := matchBound_eq_ugt h
    obtain ⟨⟨w, c⟩, Y, hR, hV⟩ := matchBound_eq_some h (hplain hPred)
    obtain rfl : w = N := Ty.int.inj ((htyped _ _ _ _ hR).1.trans htR)
    have htY := (htyped _ _ _ _ hR).2.trans htR
    refine ⟨Y, .inr ⟨hPred, _, hR⟩, ?_, fun ρ x y hρ hx hy hy0 => ?_⟩
    · rcases hV with ⟨-, rfl⟩ | rfl
      · exact .inl rfl
      · exact .inr ⟨_, rfl⟩
    · rw [hPred]
      exact eval_bound hρ hR htL htY hx hy hy0 hV

/-- The test by division is found, with the factors in either order. -/
theorem matchMulDiv_of_isMulDiv (h : IsMulDiv P X Y R) :
    matchMulDiv P .ne X R = some (createOverflowBit .umul (.value X) (.value Y)) := by
  obtain ⟨M, A, B, hR, hM, hfactors⟩ := h
  simp only [matchMulDiv, ne_eq, not_true_eq_false, if_false, hR, hM, Option.bind_eq_bind,
    Option.bind_some]
  exact if_pos hfactors

/-- A quotient of a constant is always matched. -/
theorem isSome_matchBound {C : APInt} (h : operands? P .udiv R = some (.constInt C, Y)) :
    (matchBound P .ugt X R).isSome := by
  simp only [matchBound, ne_eq, not_true_eq_false, if_false, h, constantInt?, Option.bind_eq_bind,
    Option.bind_some]
  split
  · rfl
  · split <;> rfl

/-- Every spelling is found. -/
theorem exists_match (h : IsProductIdiom P Pred L R X Y) :
    ∃ V, matchCmpWithSwappedAndInverse P Pred L R = some V := by
  rcases h with ⟨hPred, hside⟩ | ⟨D, C, hgreater, hD⟩
  · have hne : ∀ {D : Value}, IsMulDiv P X Y D → (matchCmp P .ne X D).isSome := by
      intro D hD
      rw [matchCmp, matchMulDiv_of_isMulDiv hD]
      rfl
    rw [← Option.isSome_iff_exists]
    simp only [matchCmpWithSwappedAndInverse, matchCmpWithInverse, Option.orElse_eq_orElse,
      Option.orElse_eq_or, Option.isSome_or, Option.isSome_map, Bool.or_eq_true]
    rcases hPred with rfl | rfl <;> rcases hside with ⟨rfl, hD⟩ | ⟨rfl, hD⟩
    · exact .inl (.inl (hne hD))
    · exact .inr (.inl (hne hD))
    · exact .inl (.inr (hne hD))
    · exact .inr (.inr (hne hD))
  · obtain ⟨V, hV⟩ := Option.isSome_iff_exists.mp (isSome_matchBound (X := X) hD)
    exact ⟨_, match_of_isGreater hgreater hV⟩

/-- The rewriting of a product test by division, in every spelling: it is made, and the
expression that stands for the comparison has its truth value. -/
theorem product_rewrite (P : Program) (Pred : ICmpPredicate) (L R : Value) (N : ℕ)
    (htyped : OperandsTyped P) (htL : P.typeOf L = .int N) (htR : P.typeOf R = .int N)
    (hplain : ∀ X D, IsGreater Pred L R X D → PlainBound P D) :
    (∀ X Y, IsProductIdiom P Pred L R X Y →
      ∃ V, matchCmpWithSwappedAndInverse P Pred L R = some V) ∧
    ∀ V, matchCmpWithSwappedAndInverse P Pred L R = some V →
      ∃ X Y inv W, IsProductIdiom P Pred L R X Y ∧ V = invertIf inv W ∧ IsProductTest P X Y W ∧
        ∀ (ρ : Env P) (x y : BitVec N), Computed ρ → ρ.val X = some ⟨N, x⟩ →
          ρ.val Y = some ⟨N, y⟩ → y ≠ 0 →
            ∃ b, V.eval ρ = some (.ofBool b) ∧
              (Built.icmp Pred (.value L) (.value R)).eval ρ = some (.ofBool b) := by
  refine ⟨fun X Y => exists_match, fun V hV => ?_⟩
  obtain ⟨inv, W, rfl, hW⟩ := match_cases hV
  -- the truth value of what matched, negated or not
  have heval : ∀ {ρ : Env P} {b : Bool}, W.eval ρ = some (.ofBool (inv ^^ b)) →
      (invertIf inv W).eval ρ = some (.ofBool b) := by
    intro ρ b hb
    rw [eval_invertIf inv hb, ← Bool.xor_assoc, Bool.xor_self, Bool.false_xor]
  rcases hW with hW | hW
  · have hugt : inverseIf inv Pred = .ugt → IsGreater Pred L R L R :=
      fun hugt => .inl ⟨eq_or_of_inverseIf hugt, rfl, rfl⟩
    obtain ⟨Y, hform, htest, hval⟩ := matchCmp_preserves htyped htL htR
      (fun h => hplain L R (hugt h)) hW
    refine ⟨L, Y, inv, W, ?_, rfl, htest, fun ρ x y hρ hx hy hy0 => ?_⟩
    · rcases hform with ⟨hne, hD⟩ | ⟨h, C, hD⟩
      · exact .inl ⟨eq_or_of_inverseIf hne, .inl ⟨rfl, hD⟩⟩
      · exact .inr ⟨R, C, hugt h, hD⟩
    · obtain ⟨d, hd, hW⟩ := hval ρ x y hρ hx hy hy0
      rw [eval_inverseIf] at hW
      exact ⟨_, heval hW, Built.eval_icmp (A := .value L) (B := .value R) _ hx hd⟩
  · have hswapped : ∀ {Q : ICmpPredicate}, inverseIf inv Pred.swapped = Q →
        Pred = Q.swapped ∨ Pred = Q.inverse.swapped := by
      intro Q hQ
      rcases eq_or_of_inverseIf hQ with h | h <;> rw [← h] <;> cases Pred <;> simp
        [ICmpPredicate.swapped]
    have hugt : inverseIf inv Pred.swapped = .ugt → IsGreater Pred L R R L :=
      fun h => .inr ⟨hswapped h, rfl, rfl⟩
    obtain ⟨Y, hform, htest, hval⟩ := matchCmp_preserves htyped htR htL
      (fun h => hplain R L (hugt h)) hW
    refine ⟨R, Y, inv, W, ?_, rfl, htest, fun ρ x y hρ hx hy hy0 => ?_⟩
    · rcases hform with ⟨hne, hD⟩ | ⟨h, C, hD⟩
      · exact .inl ⟨hswapped hne, .inr ⟨rfl, hD⟩⟩
      · exact .inr ⟨L, C, hugt h, hD⟩
    · obtain ⟨d, hd, hW⟩ := hval ρ x y hρ hx hy hy0
      rw [eval_inverseIf, ICmpPredicate.eval_swapped] at hW
      exact ⟨_, heval hW, Built.eval_icmp (A := .value L) (B := .value R) _ hd hx⟩

end Idiom

/-- A function of `x` and `y` that computes `(x * y) /u y`. -/
def productOverY : Program :=
  .ofArguments 8 [⟨0, .int 8, .binary .mul (.argument 0 0) (.argument 0 1), none, none⟩,
    ⟨0, .int 8, .binary .udiv (.inst 0) (.argument 0 1), none, none⟩]

/-- The function at 20 and 30, whose product wraps to 88. -/
def atTwentyThirty : Env productOverY :=
  .ofNumbers _ fun V =>
    if V = .argument 0 0 then 20 else if V = .argument 0 1 then 30
    else if V = .inst 0 then 88 else 2

theorem operands_productOverY {op : BinaryOp} {V A B : Value}
    (h : operands? productOverY op V = some (A, B)) :
    (op = .mul ∧ V = .inst 0 ∧ A = .argument 0 0 ∧ B = .argument 0 1) ∨
      (op = .udiv ∧ V = .inst 1 ∧ A = .inst 0 ∧ B = .argument 0 1) := by
  rcases of_operands? h with ⟨i, rfl, hi⟩ | ⟨c, ty, rfl, hc⟩
  · match i with
    | 0 =>
      obtain ⟨rfl, rfl, rfl⟩ := Opcode.binary.inj hi
      exact .inl ⟨rfl, rfl, rfl, rfl⟩
    | 1 =>
      obtain ⟨rfl, rfl, rfl⟩ := Opcode.binary.inj hi
      exact .inr ⟨rfl, rfl, rfl, rfl⟩
    | _ + 2 => cases hi
  · cases hc

theorem product_rewrite_twentyThirty :
    ∃ V, matchCmpWithSwappedAndInverse productOverY .eq (.inst 1) (.argument 0 0) = some V ∧
      V.eval atTwentyThirty = some (.ofBool false) := by
  have htyped : OperandsTyped productOverY := by
    intro op V A B h
    rcases operands_productOverY h with ⟨rfl, rfl, rfl, rfl⟩ | ⟨rfl, rfl, rfl, rfl⟩
    · exact ⟨rfl, rfl⟩
    · exact ⟨rfl, rfl⟩
  have hcomputed : Computed atTwentyThirty := by
    intro op V A B h
    rcases operands_productOverY h with ⟨rfl, rfl, rfl, rfl⟩ | ⟨rfl, rfl, rfl, rfl⟩
    · decide
    · decide
  have hmulDiv : IsMulDiv productOverY (.argument 0 0) (.argument 0 1) (.inst 1) :=
    ⟨_, _, _, rfl, rfl, .inl ⟨rfl, rfl⟩⟩
  obtain ⟨hmatch, hvalue⟩ := product_rewrite productOverY .eq (.inst 1) (.argument 0 0) 8 htyped
    rfl rfl (fun X D h => by simp [IsGreater] at h)
  obtain ⟨V, hV⟩ := hmatch _ _ (.inl ⟨.inr rfl, .inr ⟨rfl, hmulDiv⟩⟩)
  obtain ⟨X, Y, inv, W, hidiom, -, -, hval⟩ := hvalue V hV
  obtain ⟨rfl, rfl⟩ : X = .argument 0 0 ∧ Y = .argument 0 1 := by
    rcases hidiom with ⟨-, ⟨-, M, A, B, hD, -⟩ | ⟨rfl, M, A, B, hD, -⟩⟩ | ⟨D, C, h, -⟩
    · cases hD
    · obtain ⟨h, -⟩ | ⟨-, -, -, rfl⟩ := operands_productOverY hD
      · cases h
      · exact ⟨rfl, rfl⟩
    · simp [IsGreater] at h
  obtain ⟨b, hb, hcmp⟩ := hval atTwentyThirty 20 30 hcomputed (by decide) (by decide) (by decide)
  refine ⟨V, hV, hb.trans ?_⟩
  rw [← hcmp]
  decide

end Kint.Overflow
