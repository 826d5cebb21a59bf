import Kint.Iteration
import Kint.SMT.Boolector

/-!
# Constants on top of Boolector

`SMTSolver::bvconst` makes a constant of up to 32 bits from an unsigned integer, and a wider one
from its binary digits, filled up with zeros to the width.  `SMTSolver::eval` reads the digits
of a node in a model back into an integer.  The two fit together: the constant denotes the
integer that it was made from, and reading it gives that integer again (`bvconst_round_trip`).

## Strings

The strings of the source are lists of characters (`CString`).  `ofBits` is the vector with the
bits of a string, and `padded` the string that `bvconst` passes: the digits of the number behind
as many zeros as are missing.  That none are too many (`length_toDigits_le`, `length_padded`) is
what the unsigned difference in the source relies on, and leading zeros do not change the number
(`ofBits_padded`).

## What is relied on

* `Conversion.Sound`: the conversions of `APInt` to digits and back.
* `Constants.Sound`: the constants of Boolector, and its models.  In a model, a bit that does
  not matter is given as `x`; any string with a bit in each of these places is then the value
  under some satisfying assignment, and `eval` takes the one with zeros (`Fills`, `fills_zeros`,
  `eval_eq`).
-/

namespace Kint.SMT

open Iteration

/-- `std::string`, `SmallString` and `const char *`. -/
abbrev CString := List Char

/-- A string of zeros and ones. -/
def IsBinary (s : CString) : Prop := ∀ c ∈ s, c = '0' ∨ c = '1'

/-- The bit vector with the bits of a string, the highest one first. -/
def ofBits (s : CString) : APInt := .ofNat s.length (Nat.ofDigitChars 2 s 0)

/-- The conversions of `APInt` to a string and back: the method `toStringUnsigned`, and
the constructor that reads a string, which asserts that the number fits. -/
structure Conversion where
  toStringUnsigned : APInt → (radix : ℕ) → CString
  ofString : (numBits : ℕ) → CString → (radix : ℕ) → Except Stop APInt

/-- What is relied on: the digits have no leading zeros, zero is the digit `0`, and a
string of digits that fits is read as its number. -/
structure Conversion.Sound (A : Conversion) : Prop where
  toStringUnsigned : ∀ v, A.toStringUnsigned v 2 = Nat.toDigits 2 v.toNat
  ofString : ∀ numBits s, s ≠ [] → IsBinary s → s.length ≤ numBits →
    A.ofString numBits s 2 = .ok (.ofNat numBits (Nat.ofDigitChars 2 s 0))

namespace Boolector

/-- The functions of Boolector that make constants and read a model. -/
structure Constants (Node : Type) extends Boolector Node where
  unsigned_int : (u : BitVec unsignedBits) → (width : ℕ) → Node
  const : (bits : CString) → Node
  bv_assignment : Node → CString

/-- `s` is a string of an assignment with a bit for each `x`, a bit that does not
matter. -/
def Fills (s assignment : CString) : Prop :=
  List.Forall₂ (fun c d => d = c ∨ d = 'x' ∧ (c = '0' ∨ c = '1')) s assignment

namespace Constants

variable {Node : Type} (C : Constants Node) (A : Conversion)

/-- `bvconst` -/
def bvconst (Val : APInt) : Except Stop Node :=
  let intbits := unsignedBits
  let width := Val.width
  if width ≤ intbits then
    .ok (C.unsigned_int (BitVec.ofNat unsignedBits Val.toNat) width)
  else
    let Str := A.toStringUnsigned Val 2
    -- the assertion before the padding
    if Str.length ≤ width then
      let FullStr := List.replicate (width - Str.length) '0' ++ Str
      .ok (C.const FullStr)
    else .error .fatal

/-- `eval`; a bit that does not matter is read as zero. -/
def eval (e : Node) : Except Stop APInt :=
  let str := (C.bv_assignment e).map fun c => if c = 'x' then '0' else c
  A.ofString (C.get_width e) str 2

/-- What is relied on, with the value of a node under every satisfying assignment: an
unsigned integer is cut off or extended by zeros, a string gives its bits, and the
string of an assignment stands for values that the node has. -/
structure Sound {Assignment : Type} (val : Assignment → Node → APInt) : Prop where
  get_width : ∀ σ e, C.get_width e = (val σ e).width
  unsigned_int : ∀ σ u width, 0 < width →
    val σ (C.unsigned_int u width) = ⟨width, u.setWidth width⟩
  const : ∀ σ bits, bits ≠ [] → IsBinary bits → val σ (C.const bits) = ofBits bits
  digits : ∀ e, ∀ c ∈ C.bv_assignment e, c = '0' ∨ c = '1' ∨ c = 'x'
  assignment : ∀ e s, Fills s (C.bv_assignment e) → ∃ σ, val σ e = ofBits s

end Constants

end Boolector

/-! ## Binary digits -/

section Digits

variable {w v n : ℕ}

theorem digitChar_eq (hn : n < 2) : n.digitChar = '0' ∨ n.digitChar = '1' := by
  obtain rfl | rfl : n = 0 ∨ n = 1 := by omega
  · exact .inl rfl
  · exact .inr rfl

/-- The digits of a number to the base two are zeros and ones. -/
theorem isBinary_toDigits (n : ℕ) : IsBinary (Nat.toDigits 2 n) := by
  induction n using Nat.base_induction 2 Nat.one_lt_two with
  | single m hm =>
    rw [Nat.toDigits_of_lt_base hm]
    intro c hc
    rw [List.mem_singleton.mp hc]
    exact digitChar_eq hm
  | digit m k hk hm ih =>
    rw [← Nat.toDigits_append_toDigits Nat.one_lt_two hm hk, Nat.toDigits_of_lt_base hk]
    intro c hc
    rcases List.mem_append.mp hc with hc | hc
    · exact ih c hc
    · rw [List.mem_singleton.mp hc]
      exact digitChar_eq hk

/-- The binary digits of a number, filled up with zeros. -/
def padded (width v : ℕ) : CString :=
  List.replicate (width - (Nat.toDigits 2 v).length) '0' ++ Nat.toDigits 2 v

/-- The string with the zeros consists of zeros and ones. -/
theorem isBinary_padded : IsBinary (padded w v) := by
  intro c hc
  rcases List.mem_append.mp hc with hc | hc
  · exact .inl (List.eq_of_mem_replicate hc)
  · exact isBinary_toDigits v c hc

theorem padded_ne_nil : padded w v ≠ [] := by
  simp [padded]

/-- A number below `2 ^ w` has at most `w` digits. -/
theorem length_toDigits_le (hw : 0 < w) (hv : v < 2 ^ w) : (Nat.toDigits 2 v).length ≤ w :=
  (Nat.length_toDigits_le_iff Nat.one_lt_two hw).mpr hv

theorem length_padded (hw : 0 < w) (hv : v < 2 ^ w) : (padded w v).length = w := by
  rw [padded, List.length_append, List.length_replicate]
  exact Nat.sub_add_cancel (length_toDigits_le hw hv)

/-- Leading zeros do not change the number. -/
theorem ofDigitChars_padded : Nat.ofDigitChars 2 (padded w v) 0 = v := by
  rw [padded, Nat.ofDigitChars_append, Nat.ofDigitChars_replicate_zero, Nat.mul_zero]
  exact Nat.ofDigitChars_toDigits Nat.one_lt_two (by decide)

theorem ofBits_padded (hw : 0 < w) (hv : v < 2 ^ w) : ofBits (padded w v) = .ofNat w v := by
  rw [ofBits, length_padded hw hv, ofDigitChars_padded]

end Digits

/-! ## The round trip -/

namespace Boolector.Constants

variable {Node Assignment : Type} {C : Constants Node} {A : Conversion}
  {val : Assignment → Node → APInt} {Val : APInt} {e : Node} {s t : CString}

/-- Reading `x` as zero fills the string of an assignment. -/
theorem fills_zeros : Fills (t.map fun c => if c = 'x' then '0' else c) t := by
  unfold Fills
  rw [List.forall₂_map_left_iff, List.forall₂_same]
  intro c _
  by_cases hx : c = 'x'
  · exact .inr ⟨hx, .inl (if_pos hx)⟩
  · exact .inl (if_neg hx).symm

theorem isBinary_zeros (ht : ∀ c ∈ t, c = '0' ∨ c = '1' ∨ c = 'x') :
    IsBinary (t.map fun c => if c = 'x' then '0' else c) := by
  intro c hc
  obtain ⟨d, hd, rfl⟩ := List.mem_map.mp hc
  by_cases hx : d = 'x'
  · exact .inl (if_pos hx)
  · rw [if_neg hx]
    exact (ht d hd).imp_right fun h => h.resolve_right hx

/-- What `eval` returns for a node is its value under a satisfying assignment. -/
theorem eval_eq (hA : A.Sound) (hC : C.Sound val) (he : ∀ σ, 0 < (val σ e).width) :
    ∃ σ, C.eval A e = .ok (val σ e) := by
  obtain ⟨σ, hσ⟩ := hC.assignment e _ fills_zeros
  have hbinary := isBinary_zeros (hC.digits e)
  unfold eval
  generalize (C.bv_assignment e).map (fun c => if c = 'x' then '0' else c) = str at hσ hbinary
  have hlength : C.get_width e = str.length := by
    rw [hC.get_width σ e, hσ]
    rfl
  have hne : str ≠ [] := by
    rw [← List.length_pos_iff, ← hlength, hC.get_width σ e]
    exact he σ
  refine ⟨σ, ?_⟩
  rw [hlength, hσ]
  exact hA.ofString _ _ hne hbinary le_rfl

/-- A constant of at most 32 bits is the unsigned integer itself. -/
theorem val_unsigned_int (hC : C.Sound val) (hpos : 0 < Val.width)
    (hw : Val.width ≤ unsignedBits) (σ : Assignment) :
    val σ (C.unsigned_int (BitVec.ofNat unsignedBits Val.toNat) Val.width) = Val := by
  rw [hC.unsigned_int σ _ _ hpos]
  refine APInt.ext_toNat rfl ?_
  show ((BitVec.ofNat unsignedBits Val.toNat).setWidth Val.width).toNat = Val.toNat
  have hlt : Val.toNat < 2 ^ unsignedBits :=
    Val.toNat_lt.trans_le (Nat.pow_le_pow_right (by decide) hw)
  rw [BitVec.toNat_setWidth, BitVec.toNat_ofNat, Nat.mod_eq_of_lt hlt,
    Nat.mod_eq_of_lt Val.toNat_lt]

/-- A wider constant is the string of its digits, filled up to its width. -/
theorem val_const (hC : C.Sound val) (hpos : 0 < Val.width) (σ : Assignment) :
    val σ (C.const (padded Val.width Val.toNat)) = Val := by
  rw [hC.const σ _ padded_ne_nil isBinary_padded, ofBits_padded hpos Val.toNat_lt]
  exact APInt.ext_toNat rfl ((APInt.toNat_ofNat _ _).trans (Nat.mod_eq_of_lt Val.toNat_lt))

/-- Both branches of `bvconst`, where no assertion fails. -/
theorem bvconst_eq (hA : A.Sound) (hpos : 0 < Val.width) :
    C.bvconst A Val = .ok (if Val.width ≤ unsignedBits then
      C.unsigned_int (BitVec.ofNat unsignedBits Val.toNat) Val.width
    else C.const (padded Val.width Val.toNat)) := by
  unfold bvconst
  simp only [hA.toStringUnsigned]
  split
  · rfl
  · rw [if_pos (length_toDigits_le hpos Val.toNat_lt)]
    rfl

/-- Constants round-trip, for every width from one on and every integer of that width:
the digits fit, so that the padding does not underflow; `bvconst` makes a node, from an
unsigned integer of up to 32 bits and otherwise from a string with a binary digit for
each bit; the node denotes the integer; and `eval` of the node returns it. -/
theorem bvconst_round_trip (hA : A.Sound) (hC : C.Sound val) (hpos : 0 < Val.width) :
    (A.toStringUnsigned Val 2).length ≤ Val.width ∧
    ∃ e, C.bvconst A Val = .ok e ∧
      (Val.width ≤ unsignedBits →
        e = C.unsigned_int (BitVec.ofNat unsignedBits Val.toNat) Val.width) ∧
      (unsignedBits < Val.width → ∃ FullStr, e = C.const FullStr ∧
        FullStr = List.replicate (Val.width - (A.toStringUnsigned Val 2).length) '0' ++
          A.toStringUnsigned Val 2 ∧
        FullStr.length = Val.width ∧ IsBinary FullStr) ∧
      (∀ σ, val σ e = Val) ∧ C.eval A e = .ok Val := by
  have hval : ∀ σ, val σ (if Val.width ≤ unsignedBits then
      C.unsigned_int (BitVec.ofNat unsignedBits Val.toNat) Val.width
      else C.const (padded Val.width Val.toNat)) = Val := by
    intro σ
    split
    · next hw => exact val_unsigned_int hC hpos hw σ
    · exact val_const hC hpos σ
  refine ⟨?_, _, bvconst_eq hA hpos, fun hw => if_pos hw, fun hw => ?_, hval, ?_⟩
  · rw [hA.toStringUnsigned]
    exact length_toDigits_le hpos Val.toNat_lt
  · refine ⟨padded Val.width Val.toNat, if_neg (Nat.not_le.mpr hw), ?_,
      length_padded hpos Val.toNat_lt, isBinary_padded⟩
    rw [hA.toStringUnsigned]
    rfl
  · obtain ⟨σ, hσ⟩ := eval_eq hA hC fun σ => (congrArg APInt.width (hval σ)).symm ▸ hpos
    rw [hσ, hval σ]

/-! ### Constants on values -/

/-- The constants of Boolector on values. -/
def onValues : Constants APInt where
  toBoolector := Boolector.onValues
  unsigned_int u width := ⟨width, u.setWidth width⟩
  const := ofBits
  bv_assignment e := if e.width = 0 then [] else padded e.width e.toNat

/-- The conversions between integers and their digits. -/
def conversion : Conversion where
  toStringUnsigned v radix := Nat.toDigits radix v.toNat
  ofString numBits s radix :=
    let v := Nat.ofDigitChars radix s 0
    if s ≠ [] ∧ s.length ≤ numBits then .ok (.ofNat numBits v) else .error .fatal

theorem sound_conversion : conversion.Sound where
  toStringUnsigned _ := rfl
  ofString _ _ hne _ hle := if_pos ⟨hne, hle⟩

/-- A string without `x` is filled by itself only. -/
theorem fills_eq (ht : IsBinary t) (h : Fills s t) : s = t := by
  induction h with
  | nil => rfl
  | @cons c d s t hcd _ ih =>
    have hx : d ≠ 'x' := by
      rcases ht d List.mem_cons_self with rfl | rfl <;> decide
    rw [ih fun c hc => ht c (List.mem_cons_of_mem _ hc), hcd.resolve_right fun h => hx h.1]

/-- The constants on values do what is relied on. -/
theorem sound_onValues : onValues.Sound fun (_ : Unit) e => e where
  get_width _ _ := rfl
  unsigned_int _ _ _ _ := rfl
  const _ _ _ _ := rfl
  digits e c hc := by
    simp only [onValues] at hc
    split at hc
    · cases hc
    · exact (isBinary_padded c hc).imp_right .inl
  assignment e s h := by
    refine ⟨(), ?_⟩
    simp only [onValues] at h
    split at h
    · next h0 =>
      cases h
      exact APInt.ext_toNat h0 (Nat.lt_one_iff.mp (by simpa [h0] using e.toNat_lt))
    · next hpos =>
      rw [fills_eq isBinary_padded h, ofBits_padded (Nat.pos_of_ne_zero hpos) e.toNat_lt]
      exact APInt.ext_toNat rfl
        ((APInt.toNat_ofNat _ _).trans (Nat.mod_eq_of_lt e.toNat_lt)).symm

/-- Five as an integer of 40 bits. -/
theorem bvconst_round_trip_40 :
    (conversion.toStringUnsigned ⟨40, 5#40⟩ 2).length ≤ 40 ∧
    ∃ e, onValues.bvconst conversion ⟨40, 5#40⟩ = .ok e ∧
      (40 ≤ unsignedBits → e = onValues.unsigned_int
        (BitVec.ofNat unsignedBits (5#40).toNat) 40) ∧
      (unsignedBits < 40 → ∃ FullStr, e = onValues.const FullStr ∧
        FullStr = List.replicate
            (40 - (conversion.toStringUnsigned ⟨40, 5#40⟩ 2).length) '0' ++
          conversion.toStringUnsigned ⟨40, 5#40⟩ 2 ∧
        FullStr.length = 40 ∧ IsBinary FullStr) ∧
      (∀ _ : Unit, e = ⟨40, 5#40⟩) ∧
      onValues.eval conversion e = .ok ⟨40, 5#40⟩ :=
  bvconst_round_trip sound_conversion sound_onValues (by decide)

end Boolector.Constants

end Kint.SMT
