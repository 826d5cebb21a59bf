import Kint.LLVM.Arith
import Mathlib.Data.Finset.Card
import Mathlib.Tactic.Common

/-!
# Integer ranges

`ConstantRange` is a set of integers of one width that is a half-open, possibly wrapped interval
`[lower, upper)`.  The two sets that no proper interval denotes, the empty and the full set, are
constructors of their own, so that a range determines its set and its set determines the range
(`ConstantRange.ext_of_contains`).

The arithmetic of ranges belongs to the compiler library and is a parameter:  `RangeOps` lists
the operations, and the structures after it name what a result may assume of them.  The
operations of `CRange.h` are then defined over it:  `convert` (`CRange::match`), `safeUnion` and
`sdiv`.

## Main definitions

* `ConstantRange`: an interval carries proofs that its bounds fit the width and are different.
* `Has n` and `Contains a`: membership of a number, and of an integer of the same width.
* The order `R ≤ S`: the widths are the same and `S` contains what `R` does.  `size` is monotone
  for it, so growth at a fixed width ends.

## The assumptions

* `RangeOps.UnionLaws`: a conversion has the width that is asked for, and a union of two ranges
  of one width contains both.  Nothing more is assumed where soundness is the question.
* `RangeOps.LookupLaws`: what is needed to read a range back as it is: a conversion to its own
  width changes nothing, and conversions keep a range from being empty.
* Other properties, of regions, intersections and arithmetic, are in `Kint.LLVM.Region` and
  `Kint.LLVM.Sound`.  All of them hold of the concrete library in `Kint.LLVM.Reference`.
-/

namespace Kint

/-- A half-open interval of `width`-bit integers that may wrap around zero, or
the empty or the full set. -/
inductive ConstantRange
  | empty (width : ℕ)
  | full (width : ℕ)
  | interval (width lower upper : ℕ) (hlower : lower < 2 ^ width)
      (hupper : upper < 2 ^ width) (hne : lower ≠ upper)
  deriving DecidableEq

namespace ConstantRange

/-- `getBitWidth` -/
def width : ConstantRange → ℕ
  | empty w => w
  | full w => w
  | interval w .. => w

/-- `getLower`; the full set starts and ends at the maximum, the empty set at
zero. -/
def lower : ConstantRange → ℕ
  | empty _ => 0
  | full w => 2 ^ w - 1
  | interval _ l .. => l

/-- `getUpper` -/
def upper : ConstantRange → ℕ
  | empty _ => 0
  | full w => 2 ^ w - 1
  | interval _ _ u .. => u

/-- The range `[lower, upper)` of the two bounds taken modulo `2 ^ w`; equal
bounds stand for the full set. -/
def ofBounds (w lower upper : ℕ) : ConstantRange :=
  if hne : lower % 2 ^ w ≠ upper % 2 ^ w then
    interval w (lower % 2 ^ w) (upper % 2 ^ w) (Nat.mod_lt _ (Nat.two_pow_pos w))
      (Nat.mod_lt _ (Nat.two_pow_pos w)) hne
  else full w

/-- The range of one value. -/
def ofAPInt (a : APInt) : ConstantRange := ofBounds a.width a.toNat (a.toNat + 1)

/-- `isEmptySet` -/
def isEmptySet : ConstantRange → Bool
  | empty _ => true
  | _ => false

/-- `isFullSet` -/
def isFullSet : ConstantRange → Bool
  | full _ => true
  | _ => false

/-- Membership of an unsigned value below `2 ^ width`. -/
def Has : ConstantRange → ℕ → Prop
  | empty _, _ => False
  | full _, _ => True
  | interval _ l u .., n => if l < u then l ≤ n ∧ n < u else l ≤ n ∨ n < u

instance (R : ConstantRange) (n : ℕ) : Decidable (R.Has n) := by
  cases R <;> unfold Has <;> infer_instance

/-- `R.Contains a`: the integer `a` has the width of `R` and lies in it. -/
def Contains (R : ConstantRange) (a : APInt) : Prop :=
  a.width = R.width ∧ R.Has a.toNat

instance (R : ConstantRange) (a : APInt) : Decidable (R.Contains a) :=
  inferInstanceAs (Decidable (_ ∧ _))

@[simp] theorem width_empty (w : ℕ) : (empty w).width = w := rfl

@[simp] theorem width_full (w : ℕ) : (full w).width = w := rfl

@[simp] theorem isEmptySet_empty (w : ℕ) : (empty w).isEmptySet = true := rfl

@[simp] theorem isEmptySet_full (w : ℕ) : (full w).isEmptySet = false := rfl

@[simp] theorem not_contains_empty (w : ℕ) (a : APInt) : ¬ (empty w).Contains a :=
  fun h => h.2

/-- The full set has all integers of its width. -/
@[simp] theorem contains_full (w : ℕ) (a : APInt) : (full w).Contains a ↔ a.width = w := by
  simp [Contains, Has, width]

theorem Contains.width_eq {R : ConstantRange} {a : APInt} (h : R.Contains a) :
    a.width = R.width := h.1

theorem Contains.not_isEmptySet {R : ConstantRange} {a : APInt} (h : R.Contains a) :
    R.isEmptySet = false := by
  cases R with
  | empty w => exact absurd h (not_contains_empty w a)
  | full _ => rfl
  | interval => rfl

/-- Bounds make a range of the width that is asked for. -/
@[simp] theorem width_ofBounds (w l u : ℕ) : (ofBounds w l u).width = w := by
  unfold ofBounds
  split <;> rfl

@[simp] theorem width_ofAPInt (a : APInt) : (ofAPInt a).width = a.width :=
  width_ofBounds _ _ _

/-- Bounds never make the empty set: equal ones make the full set. -/
theorem isEmptySet_ofBounds (w l u : ℕ) : (ofBounds w l u).isEmptySet = false := by
  unfold ofBounds
  split <;> rfl

theorem ofAPInt_contains (a : APInt) : (ofAPInt a).Contains a := by
  refine ⟨(width_ofAPInt a).symm, ?_⟩
  have hlt := a.toNat_lt
  have hmod : a.toNat % 2 ^ a.width = a.toNat := Nat.mod_eq_of_lt hlt
  unfold ofAPInt ofBounds
  split
  case isFalse => trivial
  case isTrue =>
    simp only [Has, hmod]
    rcases Nat.lt_or_ge (a.toNat + 1) (2 ^ a.width) with h | h
    · rw [Nat.mod_eq_of_lt h, if_pos (by omega)]
      omega
    · rw [show a.toNat + 1 = 2 ^ a.width by omega, Nat.mod_self, if_neg (by omega)]
      exact .inl le_rfl

theorem has_lower {w l u : ℕ} {hl : l < 2 ^ w} {hu : u < 2 ^ w} (hne : l ≠ u) :
    (interval w l u hl hu hne).Has l := by
  simp only [Has]
  split <;> omega

/-- The upper bound of an interval is not in it. -/
theorem not_has_upper {w l u : ℕ} {hl : l < 2 ^ w} {hu : u < 2 ^ w} (hne : l ≠ u) :
    ¬ (interval w l u hl hu hne).Has u := by
  simp only [Has]
  split <;> omega

/-- The lower bound of an interval is the one element whose cyclic predecessor
is not in it; the upper bound is found the same way from the other side. -/
theorem bounds_unique {w l u l' u' : ℕ} (hl : l < 2 ^ w) (hu : u < 2 ^ w) (hne : l ≠ u)
    (hl' : l' < 2 ^ w) (hu' : u' < 2 ^ w) (hne' : l' ≠ u')
    (h : ∀ n < 2 ^ w, (interval w l u hl hu hne).Has n ↔
      (interval w l' u' hl' hu' hne').Has n) : l = l' ∧ u = u' := by
  have hat := h l hl
  have hat' := h l' hl'
  have hend := h u hu
  have hend' := h u' hu'
  have hbefore := h (if l = 0 then 2 ^ w - 1 else l - 1) (by split <;> omega)
  have hbefore' := h (if l' = 0 then 2 ^ w - 1 else l' - 1) (by split <;> omega)
  have hlast := h (if u = 0 then 2 ^ w - 1 else u - 1) (by split <;> omega)
  have hlast' := h (if u' = 0 then 2 ^ w - 1 else u' - 1) (by split <;> omega)
  simp only [Has] at hat hat' hend hend' hbefore hbefore' hlast hlast'
  clear h
  generalize 2 ^ w = M at *
  grind

/-- A range is determined by its width and the values below `2 ^ width` in it:
two ranges compare equal exactly when they are the same set. -/
theorem ext_of_has {R S : ConstantRange} (hw : R.width = S.width)
    (h : ∀ n < 2 ^ R.width, R.Has n ↔ S.Has n) : R = S := by
  cases R with
  | empty w =>
    cases S with
    | empty w' => exact congrArg empty hw
    | full w' => exact absurd ((h 0 (Nat.two_pow_pos _)).mpr trivial) id
    | interval w' l u hl hu hne =>
      obtain rfl : w = w' := hw
      exact absurd ((h l hl).mpr (has_lower hne)) id
  | full w =>
    cases S with
    | empty w' => exact absurd ((h 0 (Nat.two_pow_pos _)).mp trivial) id
    | full w' => exact congrArg full hw
    | interval w' l u hl hu hne =>
      obtain rfl : w = w' := hw
      exact absurd ((h u hu).mp trivial) (not_has_upper hne)
  | interval w l u hl hu hne =>
    cases S with
    | empty w' =>
      exact absurd ((h l hl).mp (has_lower hne)) id
    | full w' =>
      exact absurd ((h u hu).mpr trivial) (not_has_upper hne)
    | interval w' l' u' hl' hu' hne' =>
      obtain rfl : w = w' := hw
      obtain ⟨rfl, rfl⟩ := bounds_unique hl hu hne hl' hu' hne' h
      rfl

/-- A range is determined by its width and its elements. -/
theorem ext_of_contains {R S : ConstantRange} (hw : R.width = S.width)
    (h : ∀ a, R.Contains a ↔ S.Contains a) : R = S := by
  refine ext_of_has hw fun n hn => ?_
  have := h (APInt.ofNat R.width n)
  simpa [Contains, hw, Nat.mod_eq_of_lt (hw ▸ hn)] using this

/-! ## Ranges ordered as sets -/

/-- `R ≤ S`: the same width, and every integer in `R` is in `S`. -/
instance : PartialOrder ConstantRange where
  le R S := R.width = S.width ∧ ∀ a, R.Contains a → S.Contains a
  le_refl R := ⟨rfl, fun _ => id⟩
  le_trans R S T h h' := ⟨h.1.trans h'.1, fun a ha => h'.2 a (h.2 a ha)⟩
  le_antisymm R S h h' := ext_of_contains h.1 fun a => ⟨h.2 a, h'.2 a⟩

theorem le_width {R S : ConstantRange} (h : R ≤ S) : R.width = S.width := h.1

/-- A larger range contains the elements of a smaller one. -/
theorem le_contains {R S : ConstantRange} (h : R ≤ S) {a : APInt} (ha : R.Contains a) :
    S.Contains a := h.2 a ha

/-- The full set is the largest range of its width. -/
theorem le_full (R : ConstantRange) : R ≤ full R.width :=
  ⟨rfl, fun a ha => (contains_full _ a).mpr ha.width_eq⟩

/-- A range that contains the full range of its width is the full range. -/
theorem eq_full_of_le {w : ℕ} {R : ConstantRange} (h : full w ≤ R) : R = full w := by
  refine le_antisymm ?_ h
  have := le_full R
  rwa [← le_width h] at this

/-- A range that contains a range with an element has one. -/
theorem isEmptySet_of_le {R S : ConstantRange} (h : R ≤ S) (hR : R.isEmptySet = false) :
    S.isEmptySet = false := by
  have hex : ∃ a, R.Contains a := by
    cases R with
    | empty w => cases hR
    | full w => exact ⟨.ofNat w 0, rfl, trivial⟩
    | interval w l u hl hu hne =>
      refine ⟨.ofNat w l, rfl, ?_⟩
      rw [APInt.toNat_ofNat, Nat.mod_eq_of_lt hl]
      exact has_lower hne
  obtain ⟨a, ha⟩ := hex
  exact (le_contains h ha).not_isEmptySet

/-- A range that is not empty is not below the empty set. -/
theorem not_le_empty {R : ConstantRange} {w : ℕ} (hR : R.isEmptySet = false) :
    ¬ R ≤ empty w := by
  intro h
  cases isEmptySet_of_le h hR

/-- The number of integers in a range. -/
def size (R : ConstantRange) : ℕ := ((Finset.range (2 ^ R.width)).filter R.Has).card

/-- A range has at most as many elements as there are integers of its width. -/
theorem size_le (R : ConstantRange) : R.size ≤ 2 ^ R.width :=
  (Finset.card_filter_le _ _).trans_eq (Finset.card_range _)

/-- Numbers of a smaller range are in a larger one. -/
theorem has_of_le {R S : ConstantRange} (h : R ≤ S) {n : ℕ} (hn : n < 2 ^ R.width)
    (hR : R.Has n) : S.Has n := by
  have := le_contains h (a := APInt.ofNat R.width n) ⟨rfl, by simpa [Nat.mod_eq_of_lt hn]⟩
  simpa [Nat.mod_eq_of_lt hn] using this.2

/-- A strictly larger range has more integers. -/
theorem size_lt_size {R S : ConstantRange} (h : R < S) : R.size < S.size := by
  have hw := le_width h.le
  refine Finset.card_lt_card ((Finset.ssubset_iff_of_subset fun n hn => ?_).mpr ?_)
  · obtain ⟨hlt, hR⟩ := Finset.mem_filter.mp hn
    have hlt' := Finset.mem_range.mp hlt
    exact Finset.mem_filter.mpr ⟨by rwa [← hw], has_of_le h.le hlt' hR⟩
  · by_contra hall
    push Not at hall
    refine h.ne (ext_of_has hw fun n hn => ⟨has_of_le h.le hn, fun hS => ?_⟩)
    have hmem : n ∈ (Finset.range (2 ^ S.width)).filter S.Has :=
      Finset.mem_filter.mpr ⟨Finset.mem_range.mpr (hw ▸ hn), hS⟩
    exact (Finset.mem_filter.mp (hall n hmem)).2

end ConstantRange

/-! ## The range library -/

/-- The operations of the range library that the analysis calls. -/
structure RangeOps where
  unionWith : ConstantRange → ConstantRange → ConstantRange
  intersectWith : ConstantRange → ConstantRange → ConstantRange
  inverse : ConstantRange → ConstantRange
  zextOrTrunc : ConstantRange → ℕ → ConstantRange
  signExtend : ConstantRange → ℕ → ConstantRange
  add : ConstantRange → ConstantRange → ConstantRange
  sub : ConstantRange → ConstantRange → ConstantRange
  multiply : ConstantRange → ConstantRange → ConstantRange
  udiv : ConstantRange → ConstantRange → ConstantRange
  shl : ConstantRange → ConstantRange → ConstantRange
  lshr : ConstantRange → ConstantRange → ConstantRange
  binaryAnd : ConstantRange → ConstantRange → ConstantRange
  binaryOr : ConstantRange → ConstantRange → ConstantRange
  makeICmpRegion : ICmpPredicate → ConstantRange → ConstantRange

namespace RangeOps

variable (L : RangeOps)

/-- `CRange::match`: bring `R` to the width of `S`. -/
def convert (R S : ConstantRange) : ConstantRange :=
  if R.width ≠ S.width then L.zextOrTrunc R S.width else R

/-- `CRange::safeUnion`: the union of `R` with `S` at the width of `R`, and
whether it differs from `R`. -/
def safeUnion (R S : ConstantRange) : Bool × ConstantRange :=
  let V := L.convert S R
  let new := L.unionWith R V
  (decide (R ≠ new), new)

/-- `CRange::sdiv` -/
def sdiv (R S : ConstantRange) : ConstantRange :=
  if R.isEmptySet || S.isEmptySet then .empty R.width else .full R.width

/-- What the fixpoint computation relies on: a union covers both arguments at
their width, and a conversion returns the requested width. -/
structure UnionLaws : Prop where
  width_zextOrTrunc : ∀ R w, (L.zextOrTrunc R w).width = w
  left_le_unionWith : ∀ {R S}, R.width = S.width → R ≤ L.unionWith R S
  right_le_unionWith : ∀ {R S}, R.width = S.width → S ≤ L.unionWith R S

/-- What is relied on when a range is read back: a conversion to the same width
does nothing, none makes a range empty, and the union with the empty set or with
the same range adds nothing. -/
structure LookupLaws : Prop where
  zextOrTrunc_self : ∀ R, L.zextOrTrunc R R.width = R
  isEmptySet_zextOrTrunc : ∀ {R} w, R.isEmptySet = false →
    (L.zextOrTrunc R w).isEmptySet = false
  empty_unionWith : ∀ R, L.unionWith (.empty R.width) R = R
  unionWith_self : ∀ R, L.unionWith R R = R

/-- What is relied on about the width of results: operands of one width give a
result of that width. -/
structure WidthLaws : Prop where
  width_intersectWith : ∀ {R S}, R.width = S.width → (L.intersectWith R S).width = R.width
  width_inverse : ∀ R, (L.inverse R).width = R.width
  width_signExtend : ∀ R w, (L.signExtend R w).width = w
  width_add : ∀ {R S}, R.width = S.width → (L.add R S).width = R.width
  width_sub : ∀ {R S}, R.width = S.width → (L.sub R S).width = R.width
  width_multiply : ∀ {R S}, R.width = S.width → (L.multiply R S).width = R.width
  width_udiv : ∀ {R S}, R.width = S.width → (L.udiv R S).width = R.width
  width_shl : ∀ {R S}, R.width = S.width → (L.shl R S).width = R.width
  width_lshr : ∀ {R S}, R.width = S.width → (L.lshr R S).width = R.width
  width_binaryAnd : ∀ {R S}, R.width = S.width → (L.binaryAnd R S).width = R.width
  width_binaryOr : ∀ {R S}, R.width = S.width → (L.binaryOr R S).width = R.width
  width_makeICmpRegion : ∀ p R, (L.makeICmpRegion p R).width = R.width

variable {L}

/-- The signed quotient has the width of the dividend. -/
theorem width_sdiv (R S : ConstantRange) : (sdiv R S).width = R.width := by
  unfold sdiv
  split <;> rfl

/-- Under the laws of lookups, a conversion is `zextOrTrunc` also where the widths are the same. -/
theorem LookupLaws.convert_eq (h : L.LookupLaws) (R S : ConstantRange) :
    L.convert R S = L.zextOrTrunc R S.width := by
  unfold convert
  split
  · rfl
  · next hw => rw [← not_not.mp hw, h.zextOrTrunc_self]

/-- A range is converted to the width of the other one. -/
theorem UnionLaws.width_convert (h : L.UnionLaws) (R S : ConstantRange) :
    (L.convert R S).width = S.width := by
  unfold convert
  split
  · exact h.width_zextOrTrunc R S.width
  · next hw => exact not_not.mp hw

/-- A union contains the range that it is joined to. -/
theorem UnionLaws.le_safeUnion (h : L.UnionLaws) (R S : ConstantRange) :
    R ≤ (L.safeUnion R S).2 :=
  h.left_le_unionWith (h.width_convert S R).symm

/-- A union contains the joined range after its conversion. -/
theorem UnionLaws.convert_le_safeUnion (h : L.UnionLaws) (R S : ConstantRange) :
    L.convert S R ≤ (L.safeUnion R S).2 :=
  h.right_le_unionWith (h.width_convert S R).symm

/-- `safeUnion` reports a change exactly when the range grows strictly. -/
theorem UnionLaws.safeUnion_exact (h : L.UnionLaws) (R S : ConstantRange) :
    ((L.safeUnion R S).1 = false ∧ (L.safeUnion R S).2 = R) ∨
      ((L.safeUnion R S).1 = true ∧ R < (L.safeUnion R S).2) := by
  by_cases heq : R = (L.safeUnion R S).2
  · exact .inl ⟨by simpa [safeUnion] using heq, heq.symm⟩
  · exact .inr ⟨by simpa [safeUnion] using heq, lt_of_le_of_ne (h.le_safeUnion R S) heq⟩

end RangeOps

end Kint
