import Kint.LLVM.Reference

/-!
# Sound range operations

What an analysis may assume of arithmetic on ranges: an operation is sound for an operator if
its results contain whatever the operator computes from elements of the arguments
(`RangeOps.Sound`).

## Main definitions

* `RangeOps.Sound op f`: soundness of `f` for the operator `op`.  Nothing is said of elements at
  which the operator has no value, such as a zero divisor.
* `RangeOps.SoundLaws`: conversions keep the elements of a range, cut to the new width, and each
  operation that the pass uses is sound for its operator.

## Main results

* `sdiv_sound`: the signed quotient that `CRange` defines itself, the full set, is sound.
* `coarse_sound`: so is any operation that answers with the full set.
* `reference_soundLaws`: the assumptions hold of the concrete library.  The conversions are the
  part with an argument: an interval that fits the new width keeps its bounds, and any other one
  becomes the full set, or all that the old width can hold (`resizeRange_sound`).
-/

namespace Kint

/-- An operator has a value only on integers of one width, which its value has, too. -/
theorem binaryValue_width {op : BinaryOp} {a b c : APInt} (h : binaryValue op a b = some c) :
    a.width = c.width ∧ b.width = c.width := by
  obtain ⟨w, x, y, rfl, rfl, heval⟩ := APInt.map₂_eq_some.mp h
  obtain ⟨z, -, rfl⟩ := Option.map_eq_some_iff.mp heval
  exact ⟨rfl, rfl⟩

/-- An integer is made from its width and its unsigned value. -/
theorem APInt.ofNat_toNat (a : APInt) : APInt.ofNat a.width a.toNat = a :=
  APInt.ext_toNat rfl (by rw [toNat_ofNat, Nat.mod_eq_of_lt a.toNat_lt])

namespace RangeOps

open ConstantRange

/-- The results of `f` contain what the operator computes from elements of its
arguments. -/
def Sound (op : BinaryOp) (f : ConstantRange → ConstantRange → ConstantRange) : Prop :=
  ∀ R S a b c, R.Contains a → S.Contains b → binaryValue op a b = some c → (f R S).Contains c

/-- The conversions and the arithmetic of the range library are sound. Each clause says that the
result of an operation on elements is an element of the resulting range; nothing is said about how
small the range is. -/
structure SoundLaws (L : RangeOps) : Prop where
  zextOrTrunc : ∀ {R a} w, R.Contains a → (L.zextOrTrunc R w).Contains (.ofNat w a.toNat)
  signExtend : ∀ {R a} w, a.width < w → R.Contains a →
    (L.signExtend R w).Contains ⟨w, BitVec.ofInt w a.bits.toInt⟩
  add : Sound .add L.add
  sub : Sound .sub L.sub
  multiply : Sound .mul L.multiply
  udiv : Sound .udiv L.udiv
  shl : Sound .shl L.shl
  lshr : Sound .lshr L.lshr
  binaryAnd : Sound .and L.binaryAnd
  binaryOr : Sound .or L.binaryOr

variable {L : RangeOps}

/-- A conversion to the width of an element keeps the element. -/
theorem SoundLaws.contains_zextOrTrunc (hL : L.SoundLaws) {R : ConstantRange} {a : APInt}
    (h : R.Contains a) : (L.zextOrTrunc R a.width).Contains a := by
  have hsound := hL.zextOrTrunc a.width h
  rwa [APInt.ofNat_toNat] at hsound

/-- The signed quotient of `CRange`, which is the full set, is sound. -/
theorem sdiv_sound : Sound .sdiv RangeOps.sdiv := by
  intro R S a b c ha hb hc
  have hR := ha.not_isEmptySet
  have hS := hb.not_isEmptySet
  rw [sdiv, hR, hS, Bool.or_self, if_neg Bool.false_ne_true, contains_full, ← ha.width_eq]
  exact (binaryValue_width hc).1.symm

/-- The full set is a sound answer for every operator. -/
theorem coarse_sound (op : BinaryOp) : Sound op coarse := by
  intro R S a b c ha hb hc
  have hR := ha.not_isEmptySet
  have hS := hb.not_isEmptySet
  rw [coarse, hR, hS, Bool.or_self, if_neg Bool.false_ne_true, contains_full, ← ha.width_eq]
  exact (binaryValue_width hc).1.symm

/-- The range from zero on has the smaller numbers. -/
theorem has_ofBounds_zero {w n u : ℕ} (hu : u < 2 ^ w) (hn : n < u) : (ofBounds w 0 u).Has n := by
  unfold ofBounds
  split
  · simp only [Has, Nat.zero_mod, Nat.mod_eq_of_lt hu]
    rw [if_pos (by omega)]
    omega
  · trivial

/-- A conversion keeps the elements of a range, cut to the new width. A range that does not wrap
keeps its bounds where they fit; otherwise the result is the full set or, at a larger width, all
that the old width can hold. -/
theorem resizeRange_sound {R : ConstantRange} {a : APInt} (w : ℕ) (h : R.Contains a) :
    (resizeRange R w).Contains (.ofNat w a.toNat) := by
  refine ⟨(width_resizeRange R w).symm, ?_⟩
  rw [APInt.toNat_ofNat]
  have hlt := a.toNat_lt
  unfold resizeRange
  split
  · rename_i hw
    rw [← hw, ← h.width_eq, Nat.mod_eq_of_lt hlt]
    exact h.2
  · -- a smaller width bounds the integer
    have hwide : ∀ w', a.width = w' → w' < w → (ofBounds w 0 (2 ^ w')).Has (a.toNat % 2 ^ w) := by
      rintro w' rfl hw
      have hpow : 2 ^ a.width < 2 ^ w := Nat.pow_lt_pow_right (by decide) hw
      rw [Nat.mod_eq_of_lt (hlt.trans hpow)]
      exact has_ofBounds_zero hpow hlt
    cases R with
    | empty w' => exact absurd h (not_contains_empty w' a)
    | full w' =>
      simp only
      split
      · rename_i hw
        exact hwide w' h.width_eq hw
      · trivial
    | interval w' l u hl hu hne =>
      simp only
      split
      · rename_i hc
        have hhas := h.2
        simp only [Has, if_pos hc.1] at hhas ⊢
        rwa [Nat.mod_eq_of_lt (hhas.2.trans hc.2)]
      · split
        · rename_i hw
          exact hwide w' h.width_eq hw
        · trivial

theorem reference_soundLaws : reference.SoundLaws where
  zextOrTrunc := resizeRange_sound
  signExtend {R a} w _ h := by
    show (if R.isEmptySet then empty w else full w).Contains _
    rw [h.not_isEmptySet, if_neg Bool.false_ne_true, contains_full]
  add := coarse_sound _
  sub := coarse_sound _
  multiply := coarse_sound _
  udiv := coarse_sound _
  shl := coarse_sound _
  lshr := coarse_sound _
  binaryAnd := coarse_sound _
  binaryOr := coarse_sound _

end RangeOps

end Kint
