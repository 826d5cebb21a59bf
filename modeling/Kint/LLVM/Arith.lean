import Mathlib.Data.BitVec
import Mathlib.Tactic.Common

/-!
# Integers of the intermediate language

`APInt` is an integer of some bit width, the value that an integer constant, a register or a
bit-vector constant holds.  The scalar instructions are given by their meaning on mathematical
integers: an operation takes the unsigned or signed values of its operands and keeps the result
modulo `2 ^ w`.  Operations that the language leaves undefined (a zero divisor, a signed
division that overflows, a shift by the width or more) have no value.

## Main definitions

* `BinaryOp.eval`, `castValue`, `ICmpPredicate.eval`: the operators on bit vectors of one width.
* `binaryValue`, `icmpValue`: the same on `APInt`, without a value where the widths differ.
* `FitsSigned`, `FitsUnsigned`: a mathematical integer is representable in a width.  An
  operation with overflow (`OverflowOp`) returns its result cut to the width, and a bit which
  says that the mathematical result does not fit.

The two readings of a bit vector are those of the compiler: `toNat` for the unsigned and `toInt`
for the signed one.  Truth values are integers of one bit (`APInt.ofBool`).
-/

namespace Kint

/-- An integer together with its bit width. -/
structure APInt where
  width : ℕ
  bits : BitVec width
  deriving DecidableEq

namespace APInt

/-- The unsigned value. -/
def toNat (a : APInt) : ℕ := a.bits.toNat

/-- The `w`-bit integer that is `n` modulo `2 ^ w`. -/
def ofNat (w n : ℕ) : APInt := ⟨w, BitVec.ofNat w n⟩

/-- The one-bit integer of a truth value. -/
def ofBool (b : Bool) : APInt := ⟨1, BitVec.ofBool b⟩

/-- An integer is below the number of values of its width. -/
theorem toNat_lt (a : APInt) : a.toNat < 2 ^ a.width := a.bits.isLt

@[simp] theorem width_ofNat (w n : ℕ) : (ofNat w n).width = w := rfl

@[simp] theorem width_ofBool (b : Bool) : (ofBool b).width = 1 := rfl

@[simp] theorem toNat_ofNat (w n : ℕ) : (ofNat w n).toNat = n % 2 ^ w := by
  simp [ofNat, toNat]

/-- Integers of one width with the same unsigned value are the same. -/
theorem ext_toNat {a b : APInt} (hw : a.width = b.width) (hn : a.toNat = b.toNat) :
    a = b := by
  obtain ⟨w, x⟩ := a
  obtain ⟨w', y⟩ := b
  obtain rfl : w = w' := hw
  congr 1
  exact BitVec.eq_of_toNat_eq hn

theorem ofBool_injective {b c : Bool} (h : ofBool b = ofBool c) : b = c := by
  cases b <;> cases c <;> first | rfl | exact absurd h (by decide)

/-- Apply an operation of two operands of one width; there is no value at
different widths. -/
def map₂ (f : (w : ℕ) → BitVec w → BitVec w → Option APInt) (a b : APInt) :
    Option APInt :=
  if h : b.width = a.width then f a.width a.bits (b.bits.cast h) else none

@[simp] theorem map₂_mk (f : (w : ℕ) → BitVec w → BitVec w → Option APInt) (w : ℕ)
    (x y : BitVec w) : map₂ f ⟨w, x⟩ ⟨w, y⟩ = f w x y := by
  simp [map₂]

/-- An operation on two integers has a value only if their widths are the same. -/
theorem map₂_eq_some {f : (w : ℕ) → BitVec w → BitVec w → Option APInt} {a b c : APInt} :
    map₂ f a b = some c ↔ ∃ w x y, a = ⟨w, x⟩ ∧ b = ⟨w, y⟩ ∧ f w x y = some c := by
  constructor
  · intro h
    obtain ⟨w, x⟩ := a
    obtain ⟨w', y⟩ := b
    unfold map₂ at h
    split at h
    · rename_i hw
      obtain rfl : w' = w := hw
      exact ⟨w', x, y, rfl, rfl, by simpa using h⟩
    · cases h
  · rintro ⟨w, x, y, rfl, rfl, h⟩
    simpa using h

end APInt

/-- `Instruction::BinaryOps` on integers. -/
inductive BinaryOp
  | add | sub | mul | udiv | sdiv | urem | srem | shl | lshr | ashr | and | or | xor
  deriving DecidableEq

/-- A signed division of the minimum by minus one does not fit. -/
def SDivOverflows {w : ℕ} (x y : BitVec w) : Prop := x = BitVec.intMin w ∧ y = -1#w

instance {w : ℕ} (x y : BitVec w) : Decidable (SDivOverflows x y) :=
  inferInstanceAs (Decidable (_ ∧ _))

/-- The value of a binary operator, `none` where the language leaves it
undefined. -/
def BinaryOp.eval (op : BinaryOp) {w : ℕ} (x y : BitVec w) : Option (BitVec w) :=
  match op with
  | add => some (BitVec.ofNat w (x.toNat + y.toNat))
  | sub => some (BitVec.ofInt w (x.toNat - y.toNat))
  | mul => some (BitVec.ofNat w (x.toNat * y.toNat))
  | udiv => if y = 0 then none else some (BitVec.ofNat w (x.toNat / y.toNat))
  | urem => if y = 0 then none else some (BitVec.ofNat w (x.toNat % y.toNat))
  | sdiv =>
    if y = 0 ∨ SDivOverflows x y then none
    else some (BitVec.ofInt w (x.toInt.tdiv y.toInt))
  | srem =>
    if y = 0 ∨ SDivOverflows x y then none
    else some (BitVec.ofInt w (x.toInt.tmod y.toInt))
  | shl => if y.toNat < w then some (BitVec.ofNat w (x.toNat * 2 ^ y.toNat)) else none
  | lshr => if y.toNat < w then some (BitVec.ofNat w (x.toNat / 2 ^ y.toNat)) else none
  | ashr => if y.toNat < w then some (BitVec.ofInt w (x.toInt / 2 ^ y.toNat)) else none
  | and => some (x &&& y)
  | or => some (x ||| y)
  | xor => some (x ^^^ y)

/-- `CmpInst::Predicate` on integers. -/
inductive ICmpPredicate
  | eq | ne | ugt | uge | ult | ule | sgt | sge | slt | sle
  deriving DecidableEq

namespace ICmpPredicate

/-- The truth value of an integer comparison. -/
def eval (p : ICmpPredicate) {w : ℕ} (x y : BitVec w) : Bool :=
  match p with
  | eq => decide (x.toNat = y.toNat)
  | ne => decide (x.toNat ≠ y.toNat)
  | ugt => decide (x.toNat > y.toNat)
  | uge => decide (x.toNat ≥ y.toNat)
  | ult => decide (x.toNat < y.toNat)
  | ule => decide (x.toNat ≤ y.toNat)
  | sgt => decide (x.toInt > y.toInt)
  | sge => decide (x.toInt ≥ y.toInt)
  | slt => decide (x.toInt < y.toInt)
  | sle => decide (x.toInt ≤ y.toInt)

/-- `getSwappedPredicate` -/
def swapped : ICmpPredicate → ICmpPredicate
  | eq => eq
  | ne => ne
  | ugt => ult
  | uge => ule
  | ult => ugt
  | ule => uge
  | sgt => slt
  | sge => sle
  | slt => sgt
  | sle => sge

/-- `getInversePredicate` -/
def inverse : ICmpPredicate → ICmpPredicate
  | eq => ne
  | ne => eq
  | ugt => ule
  | uge => ult
  | ult => uge
  | ule => ugt
  | sgt => sle
  | sge => slt
  | slt => sge
  | sle => sgt

theorem eval_swapped (p : ICmpPredicate) {w : ℕ} (x y : BitVec w) :
    p.swapped.eval x y = p.eval y x := by
  cases p <;> simp [swapped, eval, eq_comm]

/-- The inverse of a comparison is its negation. -/
theorem eval_inverse (p : ICmpPredicate) {w : ℕ} (x y : BitVec w) :
    p.inverse.eval x y = !p.eval x y := by
  rw [Bool.eq_iff_iff]
  cases p <;> simp [inverse, eval]

end ICmpPredicate

/-- `Instruction::CastOps`; the casts that touch floating point are one
constructor. -/
inductive CastOp
  | trunc | zext | sext | bitcast | ptrtoint | inttoptr | floating
  deriving DecidableEq

/-- The operations of the `*.with.overflow` intrinsics. -/
inductive OverflowOp
  | sadd | uadd | ssub | usub | smul | umul
  deriving DecidableEq

namespace OverflowOp

/-- The first component: the result modulo `2 ^ w`. -/
def result (op : OverflowOp) {w : ℕ} (x y : BitVec w) : BitVec w :=
  match op with
  | sadd => BitVec.ofInt w (x.toInt + y.toInt)
  | uadd => BitVec.ofNat w (x.toNat + y.toNat)
  | ssub => BitVec.ofInt w (x.toInt - y.toInt)
  | usub => BitVec.ofInt w (x.toNat - y.toNat)
  | smul => BitVec.ofInt w (x.toInt * y.toInt)
  | umul => BitVec.ofNat w (x.toNat * y.toNat)

/-- The signed range of `w` bits contains the integer. -/
def FitsSigned (w : ℕ) (n : ℤ) : Prop := -2 ^ (w - 1) ≤ n ∧ n < 2 ^ (w - 1)

/-- The unsigned range of `w` bits contains the integer. -/
def FitsUnsigned (w : ℕ) (n : ℤ) : Prop := 0 ≤ n ∧ n < 2 ^ w

instance (w : ℕ) (n : ℤ) : Decidable (FitsSigned w n) :=
  inferInstanceAs (Decidable (_ ∧ _))

instance (w : ℕ) (n : ℤ) : Decidable (FitsUnsigned w n) :=
  inferInstanceAs (Decidable (_ ∧ _))

/-- The second component: the mathematical result does not fit. -/
def overflow (op : OverflowOp) {w : ℕ} (x y : BitVec w) : Bool :=
  match op with
  | sadd => decide ¬ FitsSigned w (x.toInt + y.toInt)
  | uadd => decide ¬ FitsUnsigned w (x.toNat + y.toNat)
  | ssub => decide ¬ FitsSigned w (x.toInt - y.toInt)
  | usub => decide ¬ FitsUnsigned w (x.toNat - y.toNat)
  | smul => decide ¬ FitsSigned w (x.toInt * y.toInt)
  | umul => decide ¬ FitsUnsigned w (x.toNat * y.toNat)

/-- A number that does not fit is too large or too small. -/
theorem not_fitsSigned {w : ℕ} {n : ℤ} : ¬ FitsSigned w n ↔
    n ≥ 2 ^ (w - 1) ∨ n < -2 ^ (w - 1) := by
  unfold FitsSigned
  omega

theorem not_fitsUnsigned {w n : ℕ} : ¬ FitsUnsigned w n ↔ n ≥ 2 ^ w := by
  unfold FitsUnsigned
  norm_cast
  omega

end OverflowOp

/-! ## Integers of `w` bits and mathematical ones -/

theorem ofInt_toNat {w : ℕ} (x : BitVec w) : BitVec.ofInt w x.toNat = x := by
  rw [BitVec.ofInt_natCast, BitVec.ofNat_toNat, BitVec.setWidth_eq]

theorem ofInt_sub {w : ℕ} (a b : ℤ) :
    BitVec.ofInt w (a - b) = BitVec.ofInt w a - BitVec.ofInt w b := by
  rw [Int.sub_eq_add_neg, BitVec.ofInt_add, BitVec.ofInt_neg, BitVec.sub_eq_add_neg]

/-- The operator that computes the first component of an intrinsic. -/
def resultOp : OverflowOp → BinaryOp
  | .sadd | .uadd => .add
  | .ssub | .usub => .sub
  | .smul | .umul => .mul

/-- The first component is what the operator without the check computes. -/
theorem eval_resultOp (op : OverflowOp) {w : ℕ} (x y : BitVec w) :
    (resultOp op).eval x y = some (op.result x y) := by
  cases op with
  | sadd =>
    rw [resultOp, BinaryOp.eval, OverflowOp.result, BitVec.ofInt_add, BitVec.ofInt_toInt,
      BitVec.ofInt_toInt, BitVec.ofNat_add, BitVec.ofNat_toNat, BitVec.ofNat_toNat,
      BitVec.setWidth_eq, BitVec.setWidth_eq]
  | ssub =>
    rw [resultOp, BinaryOp.eval, OverflowOp.result, ofInt_sub, ofInt_sub, ofInt_toNat,
      ofInt_toNat, BitVec.ofInt_toInt, BitVec.ofInt_toInt]
  | smul =>
    rw [resultOp, BinaryOp.eval, OverflowOp.result, BitVec.ofInt_mul, BitVec.ofInt_toInt,
      BitVec.ofInt_toInt, BitVec.ofNat_mul, BitVec.ofNat_toNat, BitVec.ofNat_toNat,
      BitVec.setWidth_eq, BitVec.setWidth_eq]
  | uadd | usub | umul => rfl

/-! ## Operations on integers of any width -/

/-- The value of a binary operator. -/
def binaryValue (op : BinaryOp) : APInt → APInt → Option APInt :=
  APInt.map₂ fun w x y => (op.eval x y).map fun z => ⟨w, z⟩

/-- The value of an integer comparison. -/
def icmpValue (pred : ICmpPredicate) : APInt → APInt → Option APInt :=
  APInt.map₂ fun _ x y => some (.ofBool (pred.eval x y))

/-- A component of the result of an intrinsic with overflow. -/
def overflowValue (op : OverflowOp) (idx : ℕ) : APInt → APInt → Option APInt :=
  APInt.map₂ fun w x y =>
    match idx with
    | 0 => some ⟨w, op.result x y⟩
    | 1 => some (.ofBool (op.overflow x y))
    | _ => none

/-- The value of a selection between two values of one width. -/
def selectValue (c t f : APInt) : Option APInt :=
  if c.width = 1 ∧ t.width = f.width then some (if c.toNat = 1 then t else f) else none

/-- The value of a cast to `w` bits that `ValueGen` looks into. -/
def castValue (op : CastOp) (w : ℕ) (x : APInt) : Option APInt :=
  match op with
  | .trunc => if 0 < w ∧ w < x.width then some (.ofNat w x.toNat) else none
  | .zext => if x.width < w then some (.ofNat w x.toNat) else none
  | .sext => if x.width < w then some ⟨w, BitVec.ofInt w x.bits.toInt⟩ else none
  | .bitcast => if x.width = w then some x else none
  | .ptrtoint => if 0 < w then some (.ofNat w x.toNat) else none
  | _ => none

end Kint
