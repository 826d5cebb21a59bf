import Kint.LLVM.Cover
import Kint.LLVM.Sound

/-!
# Regions and intersections

What an analysis may assume of the regions of a comparison (`RangeOps.RegionLaws`) and of
intersections.  Two intervals on the circle may have two arcs in common, and then no range is
their intersection; a library answers with a smallest range that contains it (`IsIntersection`).
That range is always inside the second interval exactly if the common elements are a range, or
the second interval is the smaller one (`forall_isIntersection_le_iff`).

## Main definitions

* `ICmpPredicate.Holds p a b`: the comparison is true of two integers of one width.
* `CoversCommon R S T`: `T` contains what `R` and `S` have in common; `IsCommon R S T`: it
  contains nothing else.
* `IsIntersection R S T`: among the ranges that contain the common elements, `T` is a smallest.

## Main results

* `common_arc`, `two_arcs`: two arcs have an arc in common unless each starts inside the other;
  in that case a range that contains what they have in common contains one of them.
* `CoversCommon.cases`: the same for ranges, with the empty and the full set.
* `forall_isIntersection_le_iff`: when every choice of a smallest range stays inside the second
  argument.
* `forall_region_iff`: whatever library is used, an element is in the intersection with a region
  just if it is in the range and compares with an element.
-/

namespace Kint

namespace ICmpPredicate

/-- The comparison is true of two integers of one width. -/
def Holds (p : ICmpPredicate) (a b : APInt) : Prop := icmpValue p a b = some (.ofBool true)

instance (p : ICmpPredicate) (a b : APInt) : Decidable (p.Holds a b) :=
  inferInstanceAs (Decidable (_ = _))

variable {p : ICmpPredicate} {a b : APInt}

theorem Holds.width_eq (h : p.Holds a b) : a.width = b.width := by
  obtain ⟨w, x, y, rfl, rfl, -⟩ := APInt.map₂_eq_some.mp h
  rfl

@[simp] theorem holds_mk {w : ℕ} {x y : BitVec w} :
    p.Holds ⟨w, x⟩ ⟨w, y⟩ ↔ p.eval x y = true := by
  rw [Holds, icmpValue, APInt.map₂_mk, Option.some_inj]
  exact ⟨fun h => APInt.ofBool_injective h, fun h => congrArg APInt.ofBool h⟩

theorem holds_swapped : p.swapped.Holds a b ↔ p.Holds b a := by
  constructor
  · intro h
    obtain ⟨w, x, y, rfl, rfl, -⟩ := APInt.map₂_eq_some.mp h
    rwa [holds_mk, eval_swapped, ← holds_mk] at h
  · intro h
    obtain ⟨w, x, y, rfl, rfl, -⟩ := APInt.map₂_eq_some.mp h
    rwa [holds_mk, ← eval_swapped, ← holds_mk] at h

/-- Swapping and inverting a predicate may change places. -/
theorem inverse_swapped (p : ICmpPredicate) : p.swapped.inverse = p.inverse.swapped := by
  cases p <;> rfl

/-- Of two integers of one width, the inverse predicate holds just if the predicate does not. -/
theorem holds_inverse (hw : a.width = b.width) : p.inverse.Holds a b ↔ ¬ p.Holds a b := by
  obtain ⟨w, x⟩ := a
  obtain ⟨w', y⟩ := b
  obtain rfl : w = w' := hw
  rw [holds_mk, holds_mk, eval_inverse, Bool.not_eq_true', Bool.not_eq_true]

end ICmpPredicate

namespace ConstantRange

variable {R S T : ConstantRange} {a x : APInt}

/-! ## Complements -/

/-- The inverse of a range has the integers of its width that are not in it. -/
theorem contains_inverseRange :
    (RangeOps.inverseRange R).Contains x ↔ x.width = R.width ∧ ¬ R.Contains x := by
  have hlt := x.toNat_lt
  cases R with
  | empty w => simp [RangeOps.inverseRange]
  | full w => simp [RangeOps.inverseRange]
  | interval w l u hl hu hne =>
    show x.width = w ∧ (if u < l then _ else _) ↔
      x.width = w ∧ ¬ (x.width = w ∧ if l < u then _ else _)
    rw [and_congr_right_iff]
    intro hw
    rw [and_iff_right hw]
    by_cases hlu : l < u
    · rw [if_pos hlu, if_neg (by omega)]
      omega
    · rw [if_neg hlu, if_pos (by omega)]
      omega

/-- The range of one integer has that integer only. The bounds are the integer and its successor,
which is zero for the largest one; then the range wraps. -/
theorem contains_ofAPInt : (ofAPInt a).Contains x ↔ x = a := by
  constructor
  · intro h
    have hlt := a.toNat_lt
    have hltx := x.toNat_lt
    have hw : x.width = a.width := h.width_eq.trans (width_ofAPInt a)
    refine APInt.ext_toNat hw ?_
    have hhas := h.2
    rw [hw] at hltx
    unfold ofAPInt ofBounds at hhas
    rcases Nat.lt_or_ge (a.toNat + 1) (2 ^ a.width) with hsucc | hsucc
    · simp only [Nat.mod_eq_of_lt hlt, Nat.mod_eq_of_lt hsucc] at hhas
      rw [dif_pos (by omega)] at hhas
      simp only [Has, if_pos (Nat.lt_succ_self _)] at hhas
      omega
    · have hmax : a.toNat + 1 = 2 ^ a.width := by omega
      simp only [Nat.mod_eq_of_lt hlt, hmax, Nat.mod_self] at hhas
      by_cases h0 : a.toNat = 0
      · omega
      · rw [dif_pos h0] at hhas
        simp only [Has, Nat.not_lt_zero, if_false, or_false] at hhas
        omega
  · rintro rfl
    exact ofAPInt_contains x

/-- All integers of a width but one. -/
def without (a : APInt) : ConstantRange := RangeOps.inverseRange (ofAPInt a)

theorem contains_without : (without a).Contains x ↔ x.width = a.width ∧ x ≠ a := by
  rw [without, contains_inverseRange, width_ofAPInt, contains_ofAPInt]

/-- A larger range has at least as many elements. -/
theorem size_le_size (h : R ≤ S) : R.size ≤ S.size := by
  rcases h.lt_or_eq with hlt | rfl
  · exact (size_lt_size hlt).le
  · exact le_rfl

/-! ## What two intervals have in common -/

/-- `T` contains what `R` and `S` have in common. -/
def CoversCommon (R S T : ConstantRange) : Prop :=
  T.width = R.width ∧ ∀ x, R.Contains x → S.Contains x → T.Contains x

/-- `T` is what `R` and `S` have in common. -/
def IsCommon (R S T : ConstantRange) : Prop :=
  T.width = R.width ∧ ∀ x, T.Contains x ↔ R.Contains x ∧ S.Contains x

/-- `T` is a smallest range that contains what `R` and `S` have in common. -/
def IsIntersection (R S T : ConstantRange) : Prop :=
  CoversCommon R S T ∧ ∀ T', CoversCommon R S T' → T.size ≤ T'.size

section Arcs

variable {w l u l' u' l₃ u₃ : ℕ} {hl : l < 2 ^ w} {hu : u < 2 ^ w} {hne : l ≠ u}
  {hl' : l' < 2 ^ w} {hu' : u' < 2 ^ w} {hne' : l' ≠ u'} {hl₃ : l₃ < 2 ^ w} {hu₃ : u₃ < 2 ^ w}
  {hne₃ : l₃ ≠ u₃}

/-- What two arcs have in common is an arc that starts where the first one does, if the
first one starts in the second and not the other way round. -/
theorem common_arc_at (hin : (interval w l' u' hl' hu' hne').Has l)
    (hout : l = l' ∨ ¬ (interval w l u hl hu hne).Has l') :
    ∃ T : ConstantRange, T.width = w ∧ ∀ n < 2 ^ w, T.Has n ↔
      (interval w l u hl hu hne).Has n ∧ (interval w l' u' hl' hu' hne').Has n := by
  have hstart : l ≠ u' := by
    rintro rfl
    exact not_has_upper hne' hin
  by_cases hend : (interval w l u hl hu hne).Has u'
  · refine ⟨interval w l u' hl hu' hstart, rfl, fun n hn => ?_⟩
    simp only [Has] at *
    generalize 2 ^ w = M at *
    grind
  · refine ⟨interval w l u hl hu hne, rfl, fun n hn => ?_⟩
    simp only [Has] at *
    generalize 2 ^ w = M at *
    grind

/-- Two arcs have an arc in common, unless each starts inside the other. -/
theorem common_arc (h : ¬ (l ≠ l' ∧ (interval w l' u' hl' hu' hne').Has l ∧
      (interval w l u hl hu hne).Has l')) :
    ∃ T : ConstantRange, T.width = w ∧ ∀ n < 2 ^ w, T.Has n ↔
      (interval w l u hl hu hne).Has n ∧ (interval w l' u' hl' hu' hne').Has n := by
  by_cases hin : (interval w l' u' hl' hu' hne').Has l
  · refine common_arc_at hin ?_
    by_contra hcon
    rw [not_or, not_not] at hcon
    exact h ⟨hcon.1, hin, hcon.2⟩
  by_cases hin' : (interval w l u hl hu hne).Has l'
  · obtain ⟨T, hT, hcommon⟩ := common_arc_at hin' (.inr hin)
    exact ⟨T, hT, fun n hn => (hcommon n hn).trans and_comm⟩
  · refine ⟨.empty w, rfl, fun n hn => ?_⟩
    simp only [Has] at *
    generalize 2 ^ w = M at *
    grind

/-- If two arcs start inside each other, an arc that contains what they have in common
contains one of them. -/
theorem two_arcs (h : l ≠ l') (hin : (interval w l' u' hl' hu' hne').Has l)
    (hin' : (interval w l u hl hu hne).Has l')
    (hT : ∀ n < 2 ^ w, (interval w l u hl hu hne).Has n → (interval w l' u' hl' hu' hne').Has n →
      (interval w l₃ u₃ hl₃ hu₃ hne₃).Has n) :
    (∀ n < 2 ^ w, (interval w l u hl hu hne).Has n → (interval w l₃ u₃ hl₃ hu₃ hne₃).Has n) ∨
      ∀ n < 2 ^ w, (interval w l' u' hl' hu' hne').Has n →
        (interval w l₃ u₃ hl₃ hu₃ hne₃).Has n := by
  by_contra hcon
  push Not at hcon
  obtain ⟨⟨n, hn, hR, hnT⟩, m, hm, hS, hmT⟩ := hcon
  have hl₁ := hT l hl (has_lower hne) hin
  have hl₂ := hT l' hl' hin' (has_lower hne')
  have hnS := fun h => hnT (hT n hn hR h)
  have hmR := fun h => hmT (hT m hm h hS)
  clear hT
  simp only [Has] at hin hin' hl₁ hl₂ hR hnT hS hmT hnS hmR
  generalize 2 ^ w = M at *
  grind

end Arcs

/-- A number in both ranges is in every range that covers what they have in common. -/
theorem CoversCommon.has (h : CoversCommon R S T) (hw : R.width = S.width) {n : ℕ}
    (hn : n < 2 ^ R.width) (hR : R.Has n) (hS : S.Has n) : T.Has n := by
  have hmod : n % 2 ^ R.width = n := Nat.mod_eq_of_lt hn
  have hcommon := (h.2 (.ofNat R.width n) ⟨rfl, by rwa [APInt.toNat_ofNat, hmod]⟩
    ⟨hw, by rwa [APInt.toNat_ofNat, hmod]⟩).2
  rwa [APInt.toNat_ofNat, hmod] at hcommon

/-- What two ranges have in common, by their numbers. -/
theorem IsCommon.of_has (hw : R.width = S.width) (hT : T.width = R.width)
    (h : ∀ n < 2 ^ R.width, T.Has n ↔ R.Has n ∧ S.Has n) : IsCommon R S T := by
  refine ⟨hT, fun x => ?_⟩
  constructor
  · intro hx
    have hlt := x.toNat_lt
    rw [hx.1, hT] at hlt
    obtain ⟨hR, hS⟩ := (h _ hlt).mp hx.2
    exact ⟨⟨hx.1.trans hT, hR⟩, hx.1.trans (hT.trans hw), hS⟩
  · rintro ⟨hR, hS⟩
    have hlt := x.toNat_lt
    rw [hR.1] at hlt
    exact ⟨hR.1.trans hT.symm, (h _ hlt).mpr ⟨hR.2, hS.2⟩⟩

/-- A smaller range is what it has in common with a larger one. -/
theorem isCommon_of_le (hle : R ≤ S) : IsCommon R S R :=
  ⟨rfl, fun _ => ⟨fun hx => ⟨hx, le_contains hle hx⟩, And.left⟩⟩

/-- What two ranges have in common does not depend on their order. -/
theorem IsCommon.symm (hw : R.width = S.width) (h : IsCommon R S T) : IsCommon S R T :=
  ⟨h.1.trans hw, fun x => (h.2 x).trans and_comm⟩

/-- A range that contains what two ranges have in common contains one of them, unless
what they have in common is a range. -/
theorem CoversCommon.cases (hw : R.width = S.width) (h : CoversCommon R S T) :
    (∃ T', IsCommon R S T') ∨ R ≤ T ∨ S ≤ T := by
  cases hR : R with
  | empty w =>
    subst hR
    exact .inl ⟨_, isCommon_of_le ⟨hw, fun x hx => absurd hx (not_contains_empty w x)⟩⟩
  | full w =>
    subst hR
    obtain rfl : w = S.width := hw
    exact .inl ⟨S, (isCommon_of_le (le_full S)).symm rfl⟩
  | interval w l u hl hu hne =>
    subst hR
    cases hS : S with
    | empty w' =>
      subst hS
      have hle : empty w' ≤ interval w l u hl hu hne :=
        ⟨hw.symm, fun x hx => absurd hx (not_contains_empty w' x)⟩
      exact .inl ⟨_, (isCommon_of_le hle).symm hw.symm⟩
    | full w' =>
      subst hS
      obtain rfl : w = w' := hw
      exact .inl ⟨_, isCommon_of_le (le_full (interval w l u hl hu hne))⟩
    | interval w' l' u' hl' hu' hne' =>
      subst hS
      obtain rfl : w = w' := hw
      by_cases hin : l ≠ l' ∧ (interval w l' u' hl' hu' hne').Has l ∧
          (interval w l u hl hu hne).Has l'
      · refine .inr ?_
        obtain ⟨hstart, hl₁, hl₂⟩ := hin
        cases hT : T with
        | empty w₃ =>
          subst hT
          exact absurd (h.has rfl hl (has_lower hne) hl₁) id
        | full w₃ =>
          subst hT
          obtain rfl : w₃ = w := h.1
          exact .inl (le_full _)
        | interval w₃ l₃ u₃ hl₃ hu₃ hne₃ =>
          subst hT
          obtain rfl : w₃ = w := h.1
          rcases two_arcs hstart hl₁ hl₂ (fun n hn hR hS => h.has rfl hn hR hS) with hle | hle
          · exact .inl (le_of_has rfl hle)
          · exact .inr (le_of_has rfl hle)
      · obtain ⟨T', hT', hcommon⟩ := common_arc hin
        exact .inl ⟨T', IsCommon.of_has rfl hT' hcommon⟩

/-! ## Smallest ranges -/

theorem CoversCommon.of_left (R S : ConstantRange) : CoversCommon R S R := ⟨rfl, fun _ hx _ => hx⟩

theorem CoversCommon.of_right (hw : R.width = S.width) : CoversCommon R S S :=
  ⟨hw.symm, fun _ _ hx => hx⟩

/-- There is a smallest range that covers what two ranges have in common, since sizes are natural
numbers. -/
theorem exists_isIntersection (R S : ConstantRange) : ∃ T, IsIntersection R S T := by
  classical
  have hex : ∃ n T, CoversCommon R S T ∧ T.size = n := ⟨_, R, .of_left R S, rfl⟩
  obtain ⟨T, hT, hsize⟩ := Nat.find_spec hex
  refine ⟨T, hT, fun T' hT' => ?_⟩
  rw [hsize]
  exact Nat.find_min' hex ⟨T', hT', rfl⟩

/-- A smallest range that contains a common range is that range. -/
theorem IsIntersection.eq_of_isCommon {T' : ConstantRange} (h : IsIntersection R S T)
    (hT' : IsCommon R S T') : T = T' := by
  have hle : T' ≤ T := by
    refine ⟨hT'.1.trans h.1.1.symm, fun x hx => ?_⟩
    obtain ⟨hR, hS⟩ := (hT'.2 x).mp hx
    exact h.1.2 x hR hS
  rcases hle.lt_or_eq with hlt | heq
  · have hcovers : CoversCommon R S T' := ⟨hT'.1, fun x hR hS => (hT'.2 x).mpr ⟨hR, hS⟩⟩
    exact absurd (h.2 T' hcovers) (not_le.mpr (size_lt_size hlt))
  · exact heq.symm

/-- An intersection is inside the second range, whichever smallest range is chosen, if
the common elements are a range or the second range is the smaller one; and only then. -/
theorem forall_isIntersection_le_iff (hw : R.width = S.width) :
    (∀ T, IsIntersection R S T → T ≤ S) ↔ (∃ T, IsCommon R S T) ∨ S.size < R.size := by
  have hcommon : ∀ {T T'}, IsIntersection R S T → IsCommon R S T' → T ≤ S := by
    intro T T' hT hT'
    rw [hT.eq_of_isCommon hT']
    exact ⟨hT'.1.trans hw, fun x hx => ((hT'.2 x).mp hx).2⟩
  constructor
  · intro hall
    by_contra hcon
    rw [not_or, not_lt] at hcon
    have hR : IsIntersection R S R := by
      refine ⟨.of_left R S, fun T hT => ?_⟩
      rcases hT.cases hw with hrange | hle | hle
      · exact absurd hrange hcon.1
      · exact size_le_size hle
      · exact hcon.2.trans (size_le_size hle)
    exact hcon.1 ⟨R, isCommon_of_le (hall R hR)⟩
  · rintro (⟨T', hT'⟩ | hsize) T hT
    · exact hcommon hT hT'
    · have hsmall := hT.2 S (.of_right hw)
      rcases hT.1.cases hw with ⟨T', hT'⟩ | hle | hle
      · exact hcommon hT hT'
      · exact absurd (size_le_size hle) (not_le.mpr (hsmall.trans_lt hsize))
      · rcases hle.lt_or_eq with hlt | heq
        · exact absurd hsmall (not_le.mpr (size_lt_size hlt))
        · exact heq.symm.le

end ConstantRange

namespace RangeOps

open ConstantRange

/-! ## Laws -/

/-- Intersections contain the common elements, and regions all that compare with an
element of the range. -/
structure RegionLaws (L : RangeOps) : Prop where
  intersectWith : ∀ {R S a}, R.Contains a → S.Contains a → (L.intersectWith R S).Contains a
  makeICmpRegion : ∀ {p R a r}, R.Contains r → p.Holds a r → (L.makeICmpRegion p R).Contains a

/-- Intersections are smallest ranges. -/
def IntersectLaws (L : RangeOps) : Prop :=
  ∀ {R S}, R.width = S.width → IsIntersection R S (L.intersectWith R S)

/-- Whatever library is used, an element is in the intersection with a region exactly if
it is in the range and compares with an element of the other one. -/
theorem forall_region_iff {R S : ConstantRange} {p : ICmpPredicate} {x : APInt} :
    (∀ K : RangeOps, K.RegionLaws → (K.intersectWith R (K.makeICmpRegion p S)).Contains x) ↔
      R.Contains x ∧ ∃ r, S.Contains r ∧ p.Holds x r := by
  classical
  have hall : ∀ {q : ICmpPredicate} {T : ConstantRange} {a r : APInt}, T.Contains r → q.Holds a r →
      (full T.width).Contains a := by
    intro q T a r hr ha
    rw [contains_full, ha.width_eq, hr.width_eq]
  constructor
  · intro h
    constructor
    · refine h { reference with
        intersectWith := fun R _ => R, makeICmpRegion := fun _ T => full T.width } ⟨?_, hall⟩
      exact fun ha _ => ha
    · by_contra hnone
      -- the region leaves `x` out and nothing else
      let M : ICmpPredicate → ConstantRange → ConstantRange := fun q T =>
        if q = p ∧ T = S ∧ x.width = S.width then without x else full T.width
      have hx : (M p S).Contains x := by
        refine h { reference with intersectWith := fun _ S => S, makeICmpRegion := M } ⟨?_, ?_⟩
        · exact fun _ hb => hb
        · intro q T a r hr ha
          show (M q T).Contains a
          by_cases hc : q = p ∧ T = S ∧ x.width = S.width
          · obtain ⟨rfl, rfl, hw⟩ := hc
            rw [show M q T = without x from if_pos ⟨rfl, rfl, hw⟩, contains_without]
            refine ⟨by rw [ha.width_eq, hr.width_eq, hw], ?_⟩
            rintro rfl
            exact hnone ⟨r, hr, ha⟩
          · rw [show M q T = full T.width from if_neg hc]
            exact hall hr ha
      by_cases hw : x.width = S.width
      · rw [show M p S = without x from if_pos ⟨rfl, rfl, hw⟩, contains_without] at hx
        exact hx.2 rfl
      · rw [show M p S = full S.width from if_neg fun hc => hw hc.2.2, contains_full] at hx
        exact hw hx
  · rintro ⟨hx, r, hr, hp⟩ K hK
    exact hK.intersectWith hx (hK.makeICmpRegion hr hp)

end RangeOps

end Kint
