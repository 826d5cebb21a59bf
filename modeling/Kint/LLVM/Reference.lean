import Kint.LLVM.IR
import Mathlib.Data.Finset.Lattice.Fold
import Mathlib.Order.Lattice.Nat

/-!
# A concrete compiler library

One instance of `Library`, on which the definitions can be run and the assumptions about the
library can be shown to be satisfiable.  Ranges that do not wrap are joined and intersected as
the compiler does; where it would do better on wrapped ranges or on arithmetic, this instance
answers with the full set.

## Main definitions

* `unionRanges`, `intersectRanges`, `inverseRange`, `resizeRange`, `regionOf`: the operations on
  ranges.  All but `inverseRange` are coarser than those of the compiler; none of them leaves
  out an element that the compiler keeps.
* `findBackedges`: `FindFunctionBackedges`, a depth-first search from the entry block.
* `Library.reference`: these together with the remaining functions of the library.

## Main results

* `reference_unionLaws`, `reference_lookupLaws`, `reference_widthLaws`: the assumptions under
  which the range pass is verified hold of this instance, so none of the results about the pass
  is empty.  The laws of arithmetic and of regions are in `Kint.LLVM.Sound` and
  `Kint.LLVM.Region`.

Witnesses and counterexamples throughout the development run on this library.
-/

namespace Kint

open ConstantRange

namespace RangeOps

/-- The convex hull of two ranges that do not wrap, as the compiler computes it
when the gap between them is the smaller one; the full set otherwise. -/
def hull : ConstantRange → ConstantRange → ConstantRange
  | interval w l u _ hu _, interval w' l' u' _ hu' _ =>
    if h : w' = w ∧ l < u ∧ l' < u' then
      interval w (min l l') (max u u') (by omega)
        (max_lt hu (by rw [← h.1]; exact hu')) (by omega)
    else full w
  | R, _ => full R.width

/-- `unionWith` -/
def unionRanges (R S : ConstantRange) : ConstantRange :=
  if R.isFullSet || S.isEmptySet then R
  else if S.isFullSet || R.isEmptySet then S
  else if R = S then R
  else hull R S

/-- `intersectWith` -/
def intersectRanges (R S : ConstantRange) : ConstantRange :=
  if R.isEmptySet || S.isFullSet then R
  else if S.isEmptySet || R.isFullSet then S
  else
    match R, S with
    | interval w l u _ hu _, interval w' l' u' _ hu' _ =>
      if h : w' = w ∧ l < u ∧ l' < u' then
        if h' : max l l' < min u u' then
          interval w (max l l') (min u u') (by omega) (by omega) (by omega)
        else empty w
      else R
    | R, _ => R

/-- `inverse` -/
def inverseRange : ConstantRange → ConstantRange
  | empty w => full w
  | full w => empty w
  | interval w l u hl hu hne => interval w u l hu hl hne.symm

/-- `zextOrTrunc` -/
def resizeRange (R : ConstantRange) (w : ℕ) : ConstantRange :=
  if h : R.width = w then R
  else
    match R with
    | empty _ => empty w
    | full w' => if w' < w then ofBounds w 0 (2 ^ w') else full w
    | interval w' l u _ hu _ =>
      if h : l < u ∧ u < 2 ^ w then interval w l u (by omega) h.2 (by omega)
      else if w' < w then ofBounds w 0 (2 ^ w') else full w

/-- A range operation about which nothing more is said. -/
def coarse (R S : ConstantRange) : ConstantRange :=
  if R.isEmptySet || S.isEmptySet then empty R.width else full R.width

/-- `makeICmpRegion` for one value; the full set for a larger range. -/
def regionOf (p : ICmpPredicate) (R : ConstantRange) : ConstantRange :=
  match R with
  | interval w l u hl hu hne =>
    if hlu : l + 1 = u then
      match p with
      | .eq => R
      | .ne => interval w u l hu hl hne.symm
      | .ult => if h : 0 < l then interval w 0 l (Nat.two_pow_pos w) hl (by omega) else empty w
      | .ule => interval w 0 u (Nat.two_pow_pos w) hu (by omega)
      | .uge => if h : 0 < l then interval w l 0 hl (Nat.two_pow_pos w) (by omega) else full w
      | .ugt => interval w u 0 hu (Nat.two_pow_pos w) (by omega)
      | _ => full w
    else full w
  | R => R

/-- The operations of this instance. -/
def reference : RangeOps where
  unionWith := unionRanges
  intersectWith := intersectRanges
  inverse := inverseRange
  zextOrTrunc := resizeRange
  signExtend R w := if R.isEmptySet then empty w else full w
  add := coarse
  sub := coarse
  multiply := coarse
  udiv := coarse
  shl := coarse
  lshr := coarse
  binaryAnd := coarse
  binaryOr := coarse
  makeICmpRegion := regionOf

theorem has_hull {R S : ConstantRange} {n : ℕ}
    (h : R.Has n ∨ S.Has n) : (hull R S).Has n := by
  cases R with
  | empty w => trivial
  | full w => trivial
  | interval w l u hl hu hne =>
    cases S with
    | empty w' => trivial
    | full w' => trivial
    | interval w' l' u' hl' hu' hne' =>
      simp only [hull]
      split
      · rename_i h'
        simp only [Has, if_pos h'.2.1, if_pos h'.2.2] at h
        simp only [Has]
        rw [if_pos (by omega)]
        omega
      · trivial

theorem width_hull {R S : ConstantRange} : (hull R S).width = R.width := by
  cases R <;> cases S <;> simp only [hull] <;> try rfl
  split <;> rfl

theorem width_unionRanges {R S : ConstantRange} (hw : R.width = S.width) :
    (unionRanges R S).width = R.width := by
  unfold unionRanges
  split
  · rfl
  · split
    · exact hw.symm
    · split
      · rfl
      · exact width_hull

/-- The union contains both arguments. -/
theorem has_unionRanges {R S : ConstantRange} {n : ℕ} (h : R.Has n ∨ S.Has n) :
    (unionRanges R S).Has n := by
  unfold unionRanges
  split
  · rename_i hc
    rcases Bool.or_eq_true_iff.mp hc with hR | hS
    · cases R <;> simp_all [isFullSet, Has]
    · cases S <;> simp_all [isEmptySet, Has]
  · split
    · rename_i hc
      rcases Bool.or_eq_true_iff.mp hc with hS | hR
      · cases S <;> simp_all [isFullSet, Has]
      · cases R <;> simp_all [isEmptySet, Has]
    · split
      · rename_i heq
        subst heq
        simpa using h
      · exact has_hull h

/-- A conversion has the width that is asked for. -/
theorem width_resizeRange (R : ConstantRange) (w : ℕ) : (resizeRange R w).width = w := by
  unfold resizeRange
  split
  · assumption
  · cases R with
    | empty w' => rfl
    | full w' => simp only; split <;> simp
    | interval w' l u hl hu hne =>
      simp only
      split
      · rfl
      · split <;> simp

/-- The laws of unions hold of the concrete library. -/
theorem reference_unionLaws : reference.UnionLaws where
  width_zextOrTrunc := width_resizeRange
  left_le_unionWith hw :=
    ⟨(width_unionRanges hw).symm, fun _ ha =>
      ⟨ha.1.trans (width_unionRanges hw).symm, has_unionRanges (.inl ha.2)⟩⟩
  right_le_unionWith hw :=
    ⟨hw.symm.trans (width_unionRanges hw).symm, fun _ ha =>
      ⟨(ha.1.trans hw.symm).trans (width_unionRanges hw).symm,
        has_unionRanges (.inr ha.2)⟩⟩

/-- A conversion keeps a range from being empty. -/
theorem isEmptySet_resizeRange {R : ConstantRange} (w : ℕ) (hR : R.isEmptySet = false) :
    (resizeRange R w).isEmptySet = false := by
  unfold resizeRange
  split
  · exact hR
  · cases R with
    | empty w' => cases hR
    | full w' => simp only; split <;> simp [isEmptySet_ofBounds]
    | interval w' l u hl hu hne =>
      simp only
      split
      · rfl
      · split <;> simp [isEmptySet_ofBounds]

/-- The laws of lookups hold of the concrete library. -/
theorem reference_lookupLaws : reference.LookupLaws where
  zextOrTrunc_self _ := dif_pos rfl
  isEmptySet_zextOrTrunc := isEmptySet_resizeRange
  empty_unionWith R := by
    cases R <;> rfl
  unionWith_self R := by
    cases R <;> simp [reference, unionRanges]

/-- An operation about which nothing is said has the width of its first argument. -/
theorem width_coarse (R S : ConstantRange) : (coarse R S).width = R.width := by
  unfold coarse
  split <;> rfl

/-- An intersection has the width of its arguments. -/
theorem width_intersectRanges {R S : ConstantRange} (hw : R.width = S.width) :
    (intersectRanges R S).width = R.width := by
  unfold intersectRanges
  split
  · rfl
  · split
    · exact hw.symm
    · split
      · split
        · split <;> rfl
        · rfl
      · rfl

theorem width_regionOf (p : ICmpPredicate) (R : ConstantRange) :
    (regionOf p R).width = R.width := by
  unfold regionOf
  split
  · split
    · split <;> first | rfl | (split <;> rfl)
    · rfl
  · rfl

/-- All operations of the concrete library have the widths that they should. -/
theorem reference_widthLaws : reference.WidthLaws where
  width_intersectWith := width_intersectRanges
  width_inverse R := by cases R <;> rfl
  width_signExtend R w := by
    show (if R.isEmptySet then empty w else full w).width = w
    split <;> rfl
  width_add _ := width_coarse _ _
  width_sub _ := width_coarse _ _
  width_multiply _ := width_coarse _ _
  width_udiv _ := width_coarse _ _
  width_shl _ := width_coarse _ _
  width_lshr _ := width_coarse _ _
  width_binaryAnd _ := width_coarse _ _
  width_binaryOr _ := width_coarse _ _
  width_makeICmpRegion := width_regionOf

end RangeOps

/-! ## Control flow and pointers -/

section Functions

variable (P : Program)

/-- The successors of a block. -/
def successors (b : BlockId) : List BlockId := (P.inst (P.block b).term).op.successors

mutual

/-- The depth-first search of `FindFunctionBackedges` from `b`: the blocks
visited so far and the back edges found. -/
def backedgesFrom : (fuel : ℕ) → (stack : List BlockId) → BlockId →
    List BlockId × List (BlockId × BlockId) → List BlockId × List (BlockId × BlockId)
  | 0, _, _, found => found
  | fuel + 1, stack, b, found => backedgesAlong fuel (b :: stack) b (successors P b) found

/-- The loop over the successors of `b`. -/
def backedgesAlong : (fuel : ℕ) → (stack : List BlockId) → BlockId → List BlockId →
    List BlockId × List (BlockId × BlockId) → List BlockId × List (BlockId × BlockId)
  | 0, _, _, _, found => found
  | _ + 1, _, _, [], found => found
  | fuel + 1, stack, b, c :: cs, (visited, edges) =>
    if c ∉ visited then
      backedgesAlong fuel stack b cs (backedgesFrom fuel stack c (c :: visited, edges))
    else if c ∈ stack then backedgesAlong fuel stack b cs (visited, edges ++ [(b, c)])
    else backedgesAlong fuel stack b cs (visited, edges)

end

/-- `FindFunctionBackedges` -/
def findBackedges (f : FuncId) : List (BlockId × BlockId) :=
  match (P.func f).blocks with
  | [] => []
  | entry :: _ =>
    let edges := (P.blocks.map fun B => (P.inst B.term).op.successors.length).sum
    (backedgesFrom P (2 * edges + 2 * P.blocks.length + 2) [] entry ([entry], [])).2

/-- `isNullValue` of an index. -/
def isZeroIndex : Value → Bool
  | .constInt c => c.toNat == 0
  | .null _ => true
  | _ => false

/-- `stripPointerCasts` -/
def stripCasts : (fuel : ℕ) → Value → Value
  | 0, v => v
  | fuel + 1, v =>
    match v with
    | .inst i =>
      match (P.inst i).op with
      | .cast .bitcast u => stripCasts fuel u
      | .gep base idx => if idx.all isZeroIndex then stripCasts fuel base else v
      | _ => v
    | .constExpr c =>
      match P.const c with
      | .cast .bitcast u _ => stripCasts fuel u
      | .gep base idx _ => if idx.all isZeroIndex then stripCasts fuel base else v
      | _ => v
    | _ => v

end Functions

/-- The concrete library. -/
def Library.reference : Library where
  ranges := .reference
  stem s := String.ofList (s.toList.takeWhile (· ≠ '.'))
  findFunctionBackedges := findBackedges
  stripPointerCasts P v := stripCasts P (P.insts.length + P.consts.length + 1) v
  elements S := (List.range (S.sup id + 1)).filter (· ∈ S)
  mem_elements S f := by
    simp only [List.mem_filter, List.mem_range, decide_eq_true_eq, and_iff_right_iff_imp]
    exact fun hf => Nat.lt_succ_of_le (Finset.le_sup (f := id) hf)

end Kint
