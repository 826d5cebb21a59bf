import Kint.LLVM.Reference

/-!
# Bridging the smaller gap

The union of two intervals of a circle is covered by two intervals, one from each lower bound,
and the compiler library returns the shorter one.  This module adds that union to the reference
library and shows that no range that contains both arguments is smaller.

## Main ideas

* A width makes the integers a circle, on which `ahead n a x` counts the steps from `a` to `x`.
  In these coordinates an interval is the arc of the values that are fewer steps ahead of its
  lower bound than its length (`has_interval_iff`, `interval_eq_arc`), whether it wraps or not,
  so no proof splits on wrapping.
* An interval from `l` on that contains two given ones must reach the ends of both (`reach`).
  There are two candidates, from either lower bound, and `bridge` is the shorter.

## Main results

* `has_coverRanges`: the union contains both arguments.
* `size_bridge_le`: any range that contains two intervals starts in front of one of their lower
  bounds and is therefore at least as long as the candidate from there.
* `RangeOps.bridging_smallestUnion`: the library with this union satisfies
  `RangeOps.SmallestUnion`.
-/

namespace Kint

namespace ConstantRange

/-- How many steps lead from `a` to `x` on a circle of `n` values. -/
def ahead (n a x : ℕ) : ℕ := if a ≤ x then x - a else x + n - a

/-- Counting steps with and without going around. -/
theorem ahead_cases (n a x : ℕ) :
    (a ≤ x ∧ ahead n a x = x - a) ∨ (x < a ∧ ahead n a x = x + n - a) := by
  unfold ahead
  split <;> omega

theorem ahead_lt {n a x : ℕ} (ha : a < n) (hx : x < n) : ahead n a x < n := by
  have := ahead_cases n a x
  omega

theorem ahead_pos {n a x : ℕ} (ha : a < n) (hne : a ≠ x) : 0 < ahead n a x := by
  have := ahead_cases n a x
  omega

/-- A walk may pass by another value. -/
theorem ahead_le_add {n a b x : ℕ} (ha : a < n) (hb : b < n) :
    ahead n a x ≤ ahead n a b + ahead n b x := by
  have := ahead_cases n a x
  have := ahead_cases n a b
  have := ahead_cases n b x
  omega

/-- Walking `k` steps on leads `k` steps ahead. -/
theorem ahead_walk {n a k : ℕ} (ha : a < n) (hk : k < n) :
    ahead n a (if a + k < n then a + k else a + k - n) = k := by
  split
  · have := ahead_cases n a (a + k)
    omega
  · have := ahead_cases n a (a + k - n)
    omega

/-- A value that is not behind another one is on the way to it. -/
theorem ahead_add {n a b x : ℕ} (ha : a < n) (hb : b < n) (hx : x < n)
    (h : ahead n a b ≤ ahead n a x) : ahead n a b + ahead n b x = ahead n a x := by
  have := ahead_cases n a x
  have := ahead_cases n a b
  have := ahead_cases n b x
  omega

/-- An interval has the values that are reached from its lower bound before its
upper bound. -/
theorem has_interval_iff {w l u x : ℕ} {hl : l < 2 ^ w} {hu : u < 2 ^ w} {hne : l ≠ u}
    (hx : x < 2 ^ w) :
    (interval w l u hl hu hne).Has x ↔ ahead (2 ^ w) l x < ahead (2 ^ w) l u := by
  show (if l < u then l ≤ x ∧ x < u else l ≤ x ∨ x < u) ↔ _
  have := ahead_cases (2 ^ w) l x
  have := ahead_cases (2 ^ w) l u
  split <;> omega

/-- The range of `len` values from `l` on. -/
def arc (w l len : ℕ) : ConstantRange := if len < 2 ^ w then ofBounds w l (l + len) else full w

theorem width_arc (w l len : ℕ) : (arc w l len).width = w := by
  unfold arc
  split <;> simp

/-- An arc has the values that are less than its length ahead of its beginning. -/
theorem has_arc_iff {w l len x : ℕ} (hl : l < 2 ^ w) (hlen : 0 < len) (hx : x < 2 ^ w) :
    (arc w l len).Has x ↔ ahead (2 ^ w) l x < len := by
  unfold arc
  split
  · rename_i hlt
    have hupper : (l + len) % 2 ^ w = if l + len < 2 ^ w then l + len else l + len - 2 ^ w := by
      split
      · exact Nat.mod_eq_of_lt ‹_›
      · rw [Nat.mod_eq_sub_mod (by omega), Nat.mod_eq_of_lt (by omega)]
    have hne : l % 2 ^ w ≠ (l + len) % 2 ^ w := by
      rw [hupper, Nat.mod_eq_of_lt hl]
      split <;> omega
    unfold ofBounds
    rw [dif_pos hne, has_interval_iff hx, Nat.mod_eq_of_lt hl, hupper, ahead_walk hl hlt]
  · have hfar := ahead_lt hl hx
    exact iff_of_true trivial (by omega)

/-- A circle has as many values less than `len` steps ahead as it has room for. -/
theorem size_arc {w l len : ℕ} (hl : l < 2 ^ w) (hlen : 0 < len) :
    (arc w l len).size = min len (2 ^ w) := by
  have hfilter : (Finset.range (2 ^ w)).filter (arc w l len).Has =
      (Finset.range (2 ^ w)).filter fun x => ahead (2 ^ w) l x < len :=
    Finset.filter_congr fun x hx => has_arc_iff hl hlen (Finset.mem_range.mp hx)
  unfold size
  rw [width_arc, hfilter]
  -- walking on from `l` runs through these values once
  have himage : (Finset.range (2 ^ w)).filter (fun x => ahead (2 ^ w) l x < len) =
      (Finset.range (min len (2 ^ w))).image fun k =>
        if l + k < 2 ^ w then l + k else l + k - 2 ^ w := by
    ext x
    simp only [Finset.mem_filter, Finset.mem_range, Finset.mem_image]
    constructor
    · rintro ⟨hx, hlt⟩
      refine ⟨ahead (2 ^ w) l x, lt_min hlt (ahead_lt hl hx), ?_⟩
      have := ahead_cases (2 ^ w) l x
      split <;> omega
    · rintro ⟨k, hk, rfl⟩
      rw [ahead_walk hl (lt_of_lt_of_le hk (min_le_right _ _))]
      exact ⟨by split <;> omega, lt_of_lt_of_le hk (min_le_left _ _)⟩
  rw [himage, Finset.card_image_of_injOn, Finset.card_range]
  intro k hk k' hk' heq
  have hk := Finset.mem_range.mp hk
  have hk' := Finset.mem_range.mp hk'
  simp only at heq
  split at heq <;> split at heq <;> omega

theorem interval_eq_arc {w l u : ℕ} {hl : l < 2 ^ w} {hu : u < 2 ^ w} {hne : l ≠ u} :
    interval w l u hl hu hne = arc w l (ahead (2 ^ w) l u) := by
  refine ext_of_has (width_arc ..).symm fun x hx => ?_
  have hx : x < 2 ^ w := hx
  rw [has_interval_iff hx, has_arc_iff hl (ahead_pos hl hne) hx]

/-- The size of an interval is the number of steps between its bounds. -/
theorem size_interval {w l u : ℕ} {hl : l < 2 ^ w} {hu : u < 2 ^ w} {hne : l ≠ u} :
    (interval w l u hl hu hne).size = ahead (2 ^ w) l u := by
  rw [interval_eq_arc, size_arc hl (ahead_pos hl hne)]
  exact min_eq_left (ahead_lt hl hu).le

/-- An interval that contains another one reaches as far from its lower bound. -/
theorem ahead_add_le {w l u a b : ℕ} {hl : l < 2 ^ w} {hu : u < 2 ^ w} {hne : l ≠ u}
    {ha : a < 2 ^ w} {hb : b < 2 ^ w} {hne' : a ≠ b}
    (h : interval w l u hl hu hne ≤ interval w a b ha hb hne') :
    ahead (2 ^ w) a l + ahead (2 ^ w) l u ≤ ahead (2 ^ w) a b := by
  have hlower : ahead (2 ^ w) a l < ahead (2 ^ w) a b :=
    (has_interval_iff hl).mp (has_of_le h hl (has_lower hne))
  -- `b` is not in the larger interval, hence not in the smaller one
  have hupper : ahead (2 ^ w) l u ≤ ahead (2 ^ w) l b := by
    by_contra hlt
    exact not_has_upper hne' (has_of_le h hb ((has_interval_iff hb).mpr (not_le.mp hlt)))
  calc ahead (2 ^ w) a l + ahead (2 ^ w) l u
      ≤ ahead (2 ^ w) a l + ahead (2 ^ w) l b := Nat.add_le_add_left hupper _
    _ = ahead (2 ^ w) a b := ahead_add ha hl hb hlower.le

/-- How many values an interval from `l` on must have to contain `[l, u)` and
`[l', u')`; if it is all of them, no proper interval does. -/
def reach (n l u l' u' : ℕ) : ℕ := max (ahead n l u) (ahead n l l' + ahead n l' u')

/-- Bridge the smaller gap between two intervals. -/
def bridge : ConstantRange → ConstantRange → ConstantRange
  | interval w l u _ _ _, interval _ l' u' _ _ _ =>
    if reach (2 ^ w) l u l' u' < reach (2 ^ w) l' u' l u then
      arc w l (reach (2 ^ w) l u l' u')
    else arc w l' (reach (2 ^ w) l' u' l u)
  | R, _ => full R.width

/-- `unionWith` -/
def coverRanges (R S : ConstantRange) : ConstantRange :=
  if R.isFullSet || S.isEmptySet then R
  else if S.isFullSet || R.isEmptySet then S
  else bridge R S

/-- An interval that contains another one is not empty. -/
theorem reach_pos {n l u l' u' : ℕ} (hl : l < n) (hne : l ≠ u) : 0 < reach n l u l' u' :=
  lt_max_of_lt_left (ahead_pos hl hne)

/-- An interval of that many values contains both. -/
theorem has_arc_reach {w l u l' u' x : ℕ} {hl : l < 2 ^ w} {hu : u < 2 ^ w} {hne : l ≠ u}
    {hl' : l' < 2 ^ w} {hu' : u' < 2 ^ w} {hne' : l' ≠ u'} (hx : x < 2 ^ w)
    (h : (interval w l u hl hu hne).Has x ∨ (interval w l' u' hl' hu' hne').Has x) :
    (arc w l (reach (2 ^ w) l u l' u')).Has x := by
  rw [has_interval_iff hx, has_interval_iff hx] at h
  rw [has_arc_iff hl (reach_pos hl hne) hx]
  rcases h with h | h
  · exact lt_max_of_lt_left h
  · refine lt_max_of_lt_right ?_
    have := ahead_le_add (x := x) hl hl'
    omega

/-- A proper interval that contains both, and starts nearer to the first, is at
least as long. -/
theorem reach_le {w l u l' u' a b : ℕ} {hl : l < 2 ^ w} {hu : u < 2 ^ w} {hne : l ≠ u}
    {hl' : l' < 2 ^ w} {hu' : u' < 2 ^ w} {hne' : l' ≠ u'} {ha : a < 2 ^ w} {hb : b < 2 ^ w}
    {hab : a ≠ b} (h : interval w l u hl hu hne ≤ interval w a b ha hb hab)
    (h' : interval w l' u' hl' hu' hne' ≤ interval w a b ha hb hab)
    (hfirst : ahead (2 ^ w) a l ≤ ahead (2 ^ w) a l') :
    reach (2 ^ w) l u l' u' ≤ ahead (2 ^ w) a b := by
  have hadd := ahead_add ha hl hl' hfirst
  have hle := ahead_add_le h
  have hle' := ahead_add_le h'
  unfold reach
  omega

theorem width_coverRanges {R S : ConstantRange} (hw : R.width = S.width) :
    (coverRanges R S).width = R.width := by
  unfold coverRanges
  split
  · rfl
  · split
    · exact hw.symm
    · cases R with
      | empty w => rfl
      | full w => rfl
      | interval w l u hl hu hne =>
        cases S with
        | empty w' => rfl
        | full w' => rfl
        | interval w' l' u' hl' hu' hne' =>
          simp only [bridge]
          split <;> exact width_arc ..

/-- A range is below another one if its numbers are in it. -/
theorem le_of_has {R S : ConstantRange} (hw : R.width = S.width)
    (h : ∀ x < 2 ^ R.width, R.Has x → S.Has x) : R ≤ S := by
  refine ⟨hw, fun a ha => ⟨ha.1.trans hw, h _ ?_ ha.2⟩⟩
  have hlt := a.toNat_lt
  rwa [ha.1] at hlt

theorem has_bridge {w l u l' u' x : ℕ} {hl : l < 2 ^ w} {hu : u < 2 ^ w} {hne : l ≠ u}
    {hl' : l' < 2 ^ w} {hu' : u' < 2 ^ w} {hne' : l' ≠ u'} (hx : x < 2 ^ w)
    (h : (interval w l u hl hu hne).Has x ∨ (interval w l' u' hl' hu' hne').Has x) :
    (bridge (interval w l u hl hu hne) (interval w l' u' hl' hu' hne')).Has x := by
  simp only [bridge]
  split
  · exact has_arc_reach hx h
  · exact has_arc_reach hx h.symm

/-- No range that contains two intervals is smaller than the bridge between
them. -/
theorem size_bridge_le {w l u l' u' : ℕ} {hl : l < 2 ^ w} {hu : u < 2 ^ w} {hne : l ≠ u}
    {hl' : l' < 2 ^ w} {hu' : u' < 2 ^ w} {hne' : l' ≠ u'} {T : ConstantRange}
    (hR : interval w l u hl hu hne ≤ T) (hS : interval w l' u' hl' hu' hne' ≤ T) :
    (bridge (interval w l u hl hu hne) (interval w l' u' hl' hu' hne')).size ≤ T.size := by
  have hsize : (bridge (interval w l u hl hu hne) (interval w l' u' hl' hu' hne')).size =
      min (min (reach (2 ^ w) l u l' u') (reach (2 ^ w) l' u' l u)) (2 ^ w) := by
    simp only [bridge]
    split
    · rw [size_arc hl (reach_pos hl hne)]
      omega
    · rw [size_arc hl' (reach_pos hl' hne')]
      omega
  obtain rfl : w = T.width := le_width hR
  cases T with
  | empty w => exact (not_le_empty rfl hR).elim
  | full w =>
    have hall : (full w).size = 2 ^ w := by
      have hself : (Finset.range (2 ^ w)).filter (full w).Has = Finset.range (2 ^ w) :=
        Finset.filter_eq_self.mpr fun x _ => trivial
      unfold size
      rw [width_full, hself, Finset.card_range]
    rw [hsize, hall]
    exact min_le_right _ _
  | interval w a b ha hb hab =>
    rw [hsize, size_interval]
    -- the interval starts nearer to one of the lower bounds
    rcases le_total (ahead (2 ^ w) a l) (ahead (2 ^ w) a l') with hfirst | hfirst
    · exact (min_le_left _ _).trans ((min_le_left _ _).trans (reach_le hR hS hfirst))
    · exact (min_le_left _ _).trans ((min_le_right _ _).trans (reach_le hS hR hfirst))

theorem has_coverRanges {R S : ConstantRange} (hw : R.width = S.width) {x : ℕ}
    (hx : x < 2 ^ R.width) (h : R.Has x ∨ S.Has x) : (coverRanges R S).Has x := by
  unfold coverRanges
  split
  · rename_i hc
    rcases Bool.or_eq_true_iff.mp hc with hR | hS
    · cases R <;> simp_all [isFullSet, Has]
    · cases S <;> simp_all [isEmptySet, Has]
  · split
    · rename_i hc
      rcases Bool.or_eq_true_iff.mp hc with hS | hR
      · cases S <;> simp_all [isFullSet, Has]
      · cases R <;> simp_all [isEmptySet, Has]
    · cases R with
      | empty w => trivial
      | full w => trivial
      | interval w l u hl hu hne =>
        cases S with
        | empty w' => trivial
        | full w' => trivial
        | interval w' l' u' hl' hu' hne' =>
          obtain rfl : w = w' := hw
          exact has_bridge hx h

end ConstantRange

/-! ## A library with this union -/

/-- The union covers both arguments, and no range that does is smaller. -/
structure RangeOps.SmallestUnion (L : RangeOps) : Prop where
  left_le : ∀ {R S}, R.width = S.width → R ≤ L.unionWith R S
  right_le : ∀ {R S}, R.width = S.width → S ≤ L.unionWith R S
  size_le : ∀ {R S T}, R ≤ T → S ≤ T → (L.unionWith R S).size ≤ T.size

/-- The operations of the reference library with the smallest union. -/
def RangeOps.bridging : RangeOps := { RangeOps.reference with unionWith := .coverRanges }

open ConstantRange in
/-- The library that bridges the smaller gap makes smallest unions. -/
theorem RangeOps.bridging_smallestUnion : RangeOps.bridging.SmallestUnion where
  left_le hw := le_of_has (width_coverRanges hw).symm fun _ hx h => has_coverRanges hw hx (.inl h)
  right_le {R S} hw := le_of_has (hw.symm.trans (width_coverRanges hw).symm) fun _ hx h =>
    has_coverRanges hw (by rwa [hw]) (.inr h)
  size_le {R S T} hR hS := by
    show (coverRanges R S).size ≤ T.size
    have hmono : ∀ {R : ConstantRange}, R ≤ T → R.size ≤ T.size := fun h => by
      rcases eq_or_lt_of_le h with rfl | hlt
      · exact le_rfl
      · exact (size_lt_size hlt).le
    unfold coverRanges
    split
    · exact hmono hR
    · split
      · exact hmono hS
      · rename_i hRS hSR
        cases R with
        | empty w => simp [isEmptySet] at hSR
        | full w => simp [isFullSet] at hRS
        | interval w l u hl hu hne =>
          cases S with
          | empty w' => simp [isEmptySet] at hRS
          | full w' => simp [isFullSet] at hSR
          | interval w' l' u' hl' hu' hne' =>
            obtain rfl : w = w' := (le_width hR).trans (le_width hS).symm
            exact size_bridge_le hR hS

/-- The concrete library with the smallest union. -/
def Library.bridging : Library := { Library.reference with ranges := .bridging }

end Kint
