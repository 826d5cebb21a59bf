import Kint.Overflow.Simplify

/-!
# `OverflowSimplify` preserves meaning

One lemma for each intrinsic.  The commutative ones share the two cases of `canonicalize`:
without a constant the operands are exchanged at most, and with one the pair is a plain
operation and a threshold (`withConstant_preserves`).

## Main results

* `simplify_preserves`: signed and unsigned addition, unsigned subtraction and unsigned
  multiplication.  The users of a call see the same result and the same overflow bit.
* `simplifySSub_iff`: signed subtraction.  A constant on the right is treated correctly.  With a
  constant on the left only, the source compares the constant itself with the threshold, and the
  comparison is never true; the pair is then right exactly for the operands for which the
  difference fits.
* `simplifySMul_iff`: signed multiplication.  For the constant `-1` the division of the minimum
  wraps, every operand lies beyond one of the two thresholds, and the pair is right exactly for
  the minimum, whose product does overflow.

## Where the cases come from

The thresholds are those of `Kint.Overflow.Thresholds`, which speaks about bit vectors only.
What is left here is to evaluate the expressions that the pass builds: `eval_threshold` for one
comparison, `eval_smulCmp` for the two that multiplication joins with `or`, and `eval_ite` where
the pass itself chooses a comparison by the sign of the constant.
-/

namespace Kint.Overflow

variable {P : Program} {ρ : Env P} {W : Value → String} {L R X : Value} {op : OverflowOp} {N : ℕ}
  {x y c : BitVec N}

/-- A comparison that the pass chooses by a condition on the constant. -/
theorem eval_ite {p : Prop} [Decidable p] {A B : Built} {b : Bool}
    (hA : p → A.eval ρ = some (.ofBool b)) (hB : ¬p → B.eval ρ = some (.ofBool b)) :
    (if p then A else B).eval ρ = some (.ofBool b) := by
  split
  · exact hA ‹_›
  · exact hB ‹_›

/-- The cases of a commutative operation: without a constant nothing is lost, and
with one the comparison decides. -/
theorem withConstant_preserves (hop : Commutative op) {make : Value → APInt → Built}
    (hmake : ∀ X x c, ρ.val X = some ⟨N, x⟩ →
      (make X ⟨N, c⟩).eval ρ = some (.ofBool (op.overflow x c)))
    (hL : ρ.val L = some ⟨N, x⟩) (hR : ρ.val R = some ⟨N, y⟩) :
    (withConstant W L R fun X C =>
      .replace (.binary (resultOp op) (.value X) (.getInt C)) (make X C)).Preserves ρ op L R
        x y := by
  unfold withConstant
  cases h : constantSide L R with
  | none => exact orderOperands_preserves hop hL hR
  | some XC =>
    obtain ⟨X, C⟩ := XC
    obtain ⟨x', c, rfl, hX, hiff⟩ := constantSide_computes hop hL hR h
    exact (hiff _ _).mpr ((plain_computes_iff hX (ρ.constInt _) (hmake X x' c hX)).mpr rfl)

/-! ## The operations that are right for every constant -/

/-- Signed addition: the comparison is chosen by the sign of the constant. -/
theorem simplifySAdd_preserves (hN : 0 < N) (hL : ρ.val L = some ⟨N, x⟩)
    (hR : ρ.val R = some ⟨N, y⟩) : (simplifySAdd W L R).Preserves ρ .sadd L R x y := by
  refine withConstant_preserves sadd_commutative (fun X x c hX => eval_ite ?_ ?_) hL hR
  · intro hc
    rw [eval_threshold .slt hX, sadd_overflow_of_neg hN hc]
  · intro hc
    rw [eval_threshold .sgt hX, sadd_overflow_of_nonneg hN (not_lt.mp hc)]

/-- Unsigned addition: one comparison for all constants. -/
theorem simplifyUAdd_preserves (hL : ρ.val L = some ⟨N, x⟩) (hR : ρ.val R = some ⟨N, y⟩) :
    (simplifyUAdd W L R).Preserves ρ .uadd L R x y := by
  refine withConstant_preserves uadd_commutative (fun X x c hX => ?_) hL hR
  rw [eval_threshold .ugt hX, uadd_overflow]

/-- Unsigned subtraction: the call becomes a comparison of its operands, and no threshold is needed.
-/
theorem simplifyUSub_preserves (hL : ρ.val L = some ⟨N, x⟩) (hR : ρ.val R = some ⟨N, y⟩) :
    (simplifyUSub L R).Preserves ρ .usub L R x y := by
  refine (plain_computes_iff hL hR (eval_ite (fun _ => ?_) fun _ => ?_)).mpr rfl
  · rw [Built.eval_icmp (A := .value R) (B := .value L) .ugt hR hL, ← usub_overflow]
    rfl
  · rw [Built.eval_icmp (A := .value L) (B := .value R) .ult hL hR, usub_overflow]

/-- Unsigned multiplication: zero is the constant by which the pass does not divide. -/
theorem simplifyUMul_preserves (hL : ρ.val L = some ⟨N, x⟩) (hR : ρ.val R = some ⟨N, y⟩) :
    (simplifyUMul W L R).Preserves ρ .umul L R x y := by
  refine withConstant_preserves umul_commutative (fun X x c hX => eval_ite ?_ ?_) hL hR
  · intro hc
    rw [show c = 0#N from hc, Built.eval_getFalse, (overflow_mul_zero x).2]
  · intro hc
    rw [eval_threshold .ugt hX, umul_overflow x hc]

/-- With a constant on either side the call is always replaced. -/
theorem withConstant_eq_replace (make : Value → APInt → Built × Built)
    (h : ∃ C, L = .constInt C ∨ R = .constInt C) :
    ∃ Res Cmp, (withConstant W L R fun X C => .replace (make X C).1 (make X C).2) =
      .replace Res Cmp := by
  obtain ⟨X, C, hside⟩ := constantSide_of_constInt h
  unfold withConstant
  rw [hside]
  exact ⟨_, _, rfl⟩

/-- On signed and unsigned addition, unsigned subtraction and unsigned
multiplication the pass preserves the pair that the users of a call see.  With a
constant operand, and for unsigned subtraction always, the pair is a new one;
otherwise the operands are exchanged at most. -/
theorem simplify_preserves (hop : op = .sadd ∨ op = .uadd ∨ op = .usub ∨ op = .umul)
    (W : Value → String) (L R : Value) :
    (((∃ C, L = .constInt C ∨ R = .constInt C) ∨ op = .usub) →
      ∃ Res Cmp, simplify W op L R = .replace Res Cmp) ∧
    ∀ (P : Program) (ρ : Env P) (N : ℕ) (x y : BitVec N), 0 < N →
      ρ.val L = some ⟨N, x⟩ → ρ.val R = some ⟨N, y⟩ →
        (simplify W op L R).Preserves ρ op L R x y := by
  constructor
  · rintro (hC | rfl)
    · rcases hop with rfl | rfl | rfl | rfl
      · exact withConstant_eq_replace (fun X C => (_, _)) hC
      · exact withConstant_eq_replace (fun X C => (_, _)) hC
      · exact ⟨_, _, rfl⟩
      · exact withConstant_eq_replace (fun X C => (_, _)) hC
    · exact ⟨_, _, rfl⟩
  · intro P ρ N x y hN hL hR
    rcases hop with rfl | rfl | rfl | rfl
    · exact simplifySAdd_preserves hN hL hR
    · exact simplifyUAdd_preserves hL hR
    · exact simplifyUSub_preserves hL hR
    · exact simplifyUMul_preserves hL hR

/-- Arguments of 8 bits with the numbers `x` and `y`. -/
def atBytes (x y : ℕ) : Env (.ofArguments 8 []) :=
  .ofNumbers _ fun V => if V = .argument 0 0 then x else y

/-- `255 + 128` in 8 bits: the sum of two negative numbers that does not fit. -/
theorem simplify_preserves_sadd :
    (∃ Res Cmp, simplify (fun _ => "") .sadd (.argument 0 0) (.constInt ⟨8, 128⟩) =
      .replace Res Cmp) ∧
    (simplify (fun _ => "") .sadd (.argument 0 0) (.constInt ⟨8, 128⟩)).Preserves
      (atBytes 255 0) .sadd (.argument 0 0) (.constInt ⟨8, 128⟩) 255#8 128#8 := by
  obtain ⟨hreplace, h⟩ := @simplify_preserves .sadd (.inl rfl) (fun _ => "") (.argument 0 0)
    (.constInt ⟨8, 128⟩)
  exact ⟨hreplace (.inl ⟨_, .inr rfl⟩), h _ (atBytes 255 0) 8 255 128 (by decide) rfl rfl⟩

/-! ## Signed subtraction -/

/-- A constant on the right. -/
theorem simplifySSub_right {C : APInt} (hN : 0 < N) (hL : ρ.val L = some ⟨N, x⟩)
    (hR : ρ.val (.constInt C) = some ⟨N, y⟩) :
    (simplifySSub L (.constInt C)).Preserves ρ .ssub L (.constInt C) x y := by
  obtain rfl := constInt_val hR
  refine (plain_computes_iff hL hR (eval_ite ?_ ?_)).mpr rfl
  · intro hc
    rw [eval_threshold .sgt hL, ssub_overflow_of_neg hN hc]
  · intro hc
    rw [eval_threshold .slt hL, ssub_overflow_of_nonneg hN (not_lt.mp hc)]

/-- A constant on the left only: the comparison, with the constant itself, is
never true. -/
theorem simplifySSub_left {C : APInt} (hN : 0 < N) (hR' : constantInt? R = none)
    (hL : ρ.val (.constInt C) = some ⟨N, x⟩) (hR : ρ.val R = some ⟨N, y⟩) :
    (simplifySSub (.constInt C) R).Preserves ρ .ssub (.constInt C) R x y ↔
      OverflowOp.ssub.overflow x y = false := by
  obtain rfl := constInt_val hL
  have hCmp : (if x.toInt < 0 then
        Built.icmp .sgt (.value (.constInt ⟨N, x⟩)) (.getInt ⟨N, x - BitVec.intMin N⟩)
      else .icmp .slt (.value (.constInt ⟨N, x⟩)) (.getInt ⟨N, x - BitVec.intMax N⟩)).eval ρ =
        some (.ofBool false) := by
    refine eval_ite ?_ ?_
    · intro hc
      rw [eval_threshold .sgt hL, not_sgt_sub_intMin hN hc]
    · intro hc
      rw [eval_threshold .slt hL, not_slt_sub_intMax hN (not_lt.mp hc)]
  unfold simplifySSub
  rw [hR']
  exact (plain_computes_iff hL hR hCmp).trans eq_comm

/-- The difference from a constant fits when the other operand is within the
threshold of the constant. -/
theorem ssub_overflow_eq_false_iff : OverflowOp.ssub.overflow x y = false ↔
    (x.toInt < 0 → y.toInt ≤ x.toInt + 2 ^ (N - 1)) ∧
      (0 ≤ x.toInt → x.toInt - (2 ^ (N - 1) - 1) ≤ y.toInt) := by
  obtain ⟨hx, hx'⟩ := fitsSigned_toInt x
  obtain ⟨hy, hy'⟩ := fitsSigned_toInt y
  simp only [OverflowOp.overflow, decide_eq_false_iff_not, not_not]
  unfold OverflowOp.FitsSigned
  omega

/-- Signed subtraction keeps its meaning when the constant is on the right.  When
it is on the left only, the pair is right for the operands within the threshold
of the constant and for no others. -/
theorem simplifySSub_iff (L R : Value) (hC : ∃ C, L = .constInt C ∨ R = .constInt C) :
    ∃ Res Cmp, simplifySSub L R = .replace Res Cmp ∧
      ∀ (P : Program) (ρ : Env P) (N : ℕ) (x y : BitVec N), 0 < N →
        ρ.val L = some ⟨N, x⟩ → ρ.val R = some ⟨N, y⟩ →
          (Computes ρ .ssub x y Res Cmp ↔ (∃ C, R = .constInt C) ∨
            (x.toInt < 0 → y.toInt ≤ x.toInt + 2 ^ (N - 1)) ∧
              (0 ≤ x.toInt → x.toInt - (2 ^ (N - 1) - 1) ≤ y.toInt)) := by
  cases hR' : constantInt? R with
  | some C =>
    obtain rfl := constantInt?_eq_some.mp hR'
    refine ⟨_, _, rfl, fun P ρ N x y hN hL hR => ?_⟩
    exact iff_of_true (simplifySSub_right hN hL hR) (.inl ⟨C, rfl⟩)
  | none =>
    have hno : ¬∃ C, R = .constInt C := by
      rintro ⟨C, rfl⟩
      cases hR'
    obtain ⟨C, rfl | hRC⟩ := hC
    · obtain ⟨Res, Cmp, h⟩ : ∃ Res Cmp, simplifySSub (.constInt C) R = .replace Res Cmp := by
        unfold simplifySSub
        rw [hR']
        exact ⟨_, _, rfl⟩
      refine ⟨Res, Cmp, h, fun P ρ N x y hN hL hR => ?_⟩
      have hleft := simplifySSub_left hN hR' hL hR
      rw [h] at hleft
      rw [or_iff_right hno, ← ssub_overflow_eq_false_iff]
      exact hleft
    · exact absurd ⟨C, hRC⟩ hno

/-- `-128 - 1` does not fit into 8 bits, and the new pair says that it does. -/
theorem simplifySSub_left_wrong :
    OverflowOp.ssub.overflow 128#8 1#8 = true ∧
      ∃ Res Cmp, simplifySSub (.constInt ⟨8, 128⟩) (.argument 0 0) = .replace Res Cmp ∧
        Cmp.eval (atBytes 1 0) = some (.ofBool false) := by
  refine ⟨by decide, _, _, rfl, by decide⟩

/-- `5 - 3` is within the threshold of the constant on the left. -/
theorem simplifySSub_iff_fiveThree :
    ∃ Res Cmp, simplifySSub (.constInt ⟨8, 5⟩) (.argument 0 0) = .replace Res Cmp ∧
      Computes (atBytes 3 0) .ssub 5#8 3#8 Res Cmp := by
  obtain ⟨Res, Cmp, hreplace, h⟩ := simplifySSub_iff (.constInt ⟨8, 5⟩) (.argument 0 0)
    ⟨_, .inl rfl⟩
  exact ⟨Res, Cmp, hreplace, (h _ (atBytes 3 0) 8 5 3 (by decide) rfl rfl).mpr
    (.inr (by decide))⟩

/-! ## Signed multiplication -/

/-- The comparison that `simplifySMul` builds, for a constant that is not zero. -/
theorem eval_smulCmp (hX : ρ.val X = some ⟨N, x⟩) (p q : ICmpPredicate) (s t : BitVec N) :
    (Built.binary .or (.icmp p (.value X) (.getInt ⟨N, s⟩))
      (.icmp q (.value X) (.getInt ⟨N, t⟩))).eval ρ =
      some (.ofBool (p.eval x s || q.eval x t)) :=
  Built.eval_or (eval_threshold p hX) (eval_threshold q hX)

theorem eval_smulCmp_of_pos (hN : 0 < N) (hX : ρ.val X = some ⟨N, x⟩) (hc : 0 < c.toInt) :
    (Built.binary .or
      (.icmp .sgt (.value X) (.getInt ⟨N, (BitVec.intMax N).sdiv c⟩))
      (.icmp .slt (.value X) (.getInt ⟨N, (BitVec.intMin N).sdiv c⟩))).eval ρ =
      some (.ofBool (OverflowOp.smul.overflow x c)) := by
  rw [eval_smulCmp hX, smul_overflow_of_pos hN hc]

/-- The comparison for a negative constant is right but for `-1`, where it is
always true. -/
theorem eval_smulCmp_of_neg (hN : 0 < N) (hX : ρ.val X = some ⟨N, x⟩) (hc : c.toInt < 0) :
    (Built.binary .or
      (.icmp .slt (.value X) (.getInt ⟨N, (BitVec.intMax N).sdiv c⟩))
      (.icmp .sgt (.value X) (.getInt ⟨N, (BitVec.intMin N).sdiv c⟩))).eval ρ =
      some (.ofBool (decide (c = -1#N) || OverflowOp.smul.overflow x c)) := by
  rw [eval_smulCmp hX]
  by_cases hc' : c = -1#N
  · subst hc'
    rw [beyond_thresholds_negOne hN, decide_eq_true rfl, Bool.true_or]
  · rw [smul_overflow_of_neg hN hc hc', decide_eq_false hc', Bool.false_or]

/-- The pair for signed multiplication, whichever side the constant `c` is on:
it is right unless the constant is `-1`, and then for the minimum only. -/
theorem simplifySMul_iff (W : Value → String) (L R X : Value) (N : ℕ) (c : BitVec N) (hN : 0 < N)
    (hside : R = .constInt ⟨N, c⟩ ∧ X = L ∨
      L = .constInt ⟨N, c⟩ ∧ X = R ∧ ∀ C, R ≠ .constInt C) :
    ∃ Res Cmp, simplifySMul W L R = .replace Res Cmp ∧
      ∀ (P : Program) (ρ : Env P) (x : BitVec N), ρ.val X = some ⟨N, x⟩ →
        (Computes ρ .smul x c Res Cmp ↔ c ≠ -1#N ∨ x = BitVec.intMin N) := by
  have hXC : constantSide L R = some (X, ⟨N, c⟩) := by
    rcases hside with ⟨rfl, rfl⟩ | ⟨rfl, rfl, hR⟩
    · rfl
    · cases hR' : constantInt? X with
      | some C => exact absurd (constantInt?_eq_some.mp hR') (hR C)
      | none =>
        unfold constantSide
        rw [hR']
        rfl
  unfold simplifySMul withConstant
  rw [hXC]
  refine ⟨_, _, rfl, fun P ρ x hX => ?_⟩
  have hnegOne : (-1#N).toInt = -1 := toInt_negOne hN
  simp only
  split
  · rename_i hc
    obtain rfl : c = 0#N := hc
    have hne : (0#N) ≠ -1#N := by
      intro h
      have := congrArg BitVec.toInt h
      rw [hnegOne, BitVec.toInt_zero] at this
      omega
    exact iff_of_true ((plain_computes_iff hX (ρ.constInt _) (Built.eval_getFalse ρ)).mpr
      (overflow_mul_zero x).1.symm) (.inl hne)
  split
  · rename_i hc0 hc
    refine (plain_computes_iff hX (ρ.constInt _) (eval_smulCmp_of_neg hN hX hc)).trans ?_
    by_cases hc' : c = -1#N
    · subst hc'
      rw [smul_overflow_negOne hN]
      simp
    · simp [hc']
  · rename_i hc0 hc
    have hpos : 0 < c.toInt := by
      refine lt_of_le_of_ne (not_lt.mp hc) fun h => hc0 ?_
      exact BitVec.eq_of_toInt_eq (h.symm.trans BitVec.toInt_zero.symm)
    refine iff_of_true ((plain_computes_iff hX (ρ.constInt _)
      (eval_smulCmp_of_pos hN hX hpos)).mpr rfl) (.inl ?_)
    rintro rfl
    omega

/-- `5 * -1` fits into 8 bits, and the new pair says that it does not. -/
theorem simplifySMul_negOne_wrong :
    OverflowOp.smul.overflow 5#8 255#8 = false ∧
      ∃ Res Cmp, simplifySMul (fun _ => "") (.argument 0 0) (.constInt ⟨8, 255⟩) =
          .replace Res Cmp ∧
        Cmp.eval (atBytes 5 0) = some (.ofBool true) := by
  refine ⟨by decide, _, _, rfl, by decide⟩

/-- The minimum times `-1` does overflow, as the comparison says of every operand. -/
theorem simplifySMul_iff_minimum :
    ∃ Res Cmp, simplifySMul (fun _ => "") (.argument 0 0) (.constInt ⟨8, 255⟩) =
        .replace Res Cmp ∧
      Computes (atBytes 128 0) .smul 128#8 255#8 Res Cmp := by
  obtain ⟨Res, Cmp, hreplace, h⟩ := simplifySMul_iff (fun _ => "") (.argument 0 0)
    (.constInt ⟨8, 255⟩) (.argument 0 0) 8 255 (by decide) (.inl ⟨rfl, rfl⟩)
  exact ⟨Res, Cmp, hreplace, (h _ (atBytes 128 0) 128 rfl).mpr (.inr (by decide))⟩

end Kint.Overflow
