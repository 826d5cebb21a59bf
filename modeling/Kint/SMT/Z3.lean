import Kint.SMT.Constant
import Kint.SMT.Interface

/-!
# Z3

`SMTZ3.cc` implements `SMTSolver` on top of Z3.  Z3 has formulas next to bit vectors, so that
comparisons and the predicates of overflow are turned into vectors of one bit, and its
predicates say that an operation does not overflow, or does not underflow.  The functions are
those of the theory (`Z3.sound`).

## The transcription

* `Z3`: the functions of the solver that the file calls.
* `bv2bool`, `bool2bv`: between vectors of one bit and formulas.  Every comparison and every
  predicate goes through the second one, and `ite` and the assertions of a context through the
  first one.
* `bvconst`: an integer of up to 64 bits is passed as a number, and a wider one as a string of
  decimal digits.
* `fails`, `overflow`: the negation of one predicate, or the disjunction of the negations of
  two.

## What is relied on

`Value` is a vector or a formula; `Sound` has one clause for each function, for the sorts for
which it is documented.  `noOverflow` and `noUnderflow` state what the predicates say, in
integers: whether the exact result is above the largest integer, or below the smallest one.  For
a signed operation both together are what overflow means (`signed_val`), and for an unsigned one
the first, or for a difference the second, is enough (`unsigned_val`).
-/

namespace Kint.SMT

open Iteration

/-- The functions of Z3 that make terms.  The sort of a numeral or of a constant is given by the
size of its vectors, and the binary operators and the comparisons are named by what they do. -/
structure Z3 (ν Ast : Type) where
  get_bv_sort_size : Ast → ℕ
  mk_int : (v : ℕ) → (size : ℕ) → Ast
  mk_unsigned_int64 : (v : BitVec 64) → (size : ℕ) → Ast
  mk_numeral : (numeral : CString) → (size : ℕ) → Ast
  mk_const : (name : ν) → (size : ℕ) → Ast
  mk_eq : Ast → Ast → Ast
  mk_ite : Ast → Ast → Ast → Ast
  mk_bvslt : Ast → Ast → Ast
  mk_bvsle : Ast → Ast → Ast
  mk_bvsgt : Ast → Ast → Ast
  mk_bvsge : Ast → Ast → Ast
  mk_bvult : Ast → Ast → Ast
  mk_bvule : Ast → Ast → Ast
  mk_bvugt : Ast → Ast → Ast
  mk_bvuge : Ast → Ast → Ast
  mk_extract : (high low : ℕ) → Ast → Ast
  mk_zero_ext : (i : ℕ) → Ast → Ast
  mk_sign_ext : (i : ℕ) → Ast → Ast
  mk_bvredand : Ast → Ast
  mk_bvredor : Ast → Ast
  mk_bvnot : Ast → Ast
  mk_bvneg : Ast → Ast
  mk_binary : BinaryOp → Ast → Ast → Ast
  mk_bvneg_no_overflow : Ast → Ast
  mk_bvadd_no_overflow : Ast → Ast → (is_signed : Bool) → Ast
  mk_bvadd_no_underflow : Ast → Ast → Ast
  mk_bvsub_no_overflow : Ast → Ast → Ast
  mk_bvsub_no_underflow : Ast → Ast → (is_signed : Bool) → Ast
  mk_bvmul_no_overflow : Ast → Ast → (is_signed : Bool) → Ast
  mk_bvmul_no_underflow : Ast → Ast → Ast
  mk_bvsdiv_no_overflow : Ast → Ast → Ast

namespace Z3

variable {ν Ast : Type}

section Code

variable (Z : Z3 ν Ast) (A : Conversion)

/-- `bvfalse` -/
def bvfalse : Ast := Z.mk_int 0 1

/-- `bvtrue` -/
def bvtrue : Ast := Z.mk_int 1 1

/-- `bv2bool` -/
def bv2bool (e : Ast) : Ast := Z.mk_eq e Z.bvtrue

/-- `bool2bv` -/
def bool2bv (e : Ast) : Ast := Z.mk_ite e Z.bvtrue Z.bvfalse

/-- `bvconst`: the number, or its decimal digits. -/
def bvconst (Val : APInt) : Ast :=
  let width := Val.width
  if width ≤ 64 then Z.mk_unsigned_int64 (BitVec.ofNat 64 Val.toNat) width
  else Z.mk_numeral (A.toStringUnsigned Val 10) width

/-- `eq` -/
def eq (lhs rhs : Ast) : Ast := Z.bool2bv (Z.mk_eq lhs rhs)

/-- `bvslt` and the other comparisons. -/
def cmp (op : Cmp) (lhs rhs : Ast) : Ast :=
  match op with
  | .eq => Z.eq lhs rhs
  | .ne => Z.mk_bvnot (Z.eq lhs rhs)
  | .slt => Z.bool2bv (Z.mk_bvslt lhs rhs)
  | .sle => Z.bool2bv (Z.mk_bvsle lhs rhs)
  | .sgt => Z.bool2bv (Z.mk_bvsgt lhs rhs)
  | .sge => Z.bool2bv (Z.mk_bvsge lhs rhs)
  | .ult => Z.bool2bv (Z.mk_bvult lhs rhs)
  | .ule => Z.bool2bv (Z.mk_bvule lhs rhs)
  | .ugt => Z.bool2bv (Z.mk_bvugt lhs rhs)
  | .uge => Z.bool2bv (Z.mk_bvuge lhs rhs)

/-- `bvor` -/
def bvor (lhs rhs : Ast) : Ast := Z.mk_binary .or lhs rhs

/-- Not what the predicate says: `bvnot(bool2bv(e))`. -/
def fails (e : Ast) : Ast := Z.mk_bvnot (Z.bool2bv e)

/-- `bvsadd_overflow` and the other predicates of overflow. -/
def overflow (op : OverflowOp) (lhs rhs : Ast) : Ast :=
  match op with
  | .sadd => Z.bvor (Z.fails (Z.mk_bvadd_no_overflow lhs rhs true))
      (Z.fails (Z.mk_bvadd_no_underflow lhs rhs))
  | .uadd => Z.fails (Z.mk_bvadd_no_overflow lhs rhs false)
  | .ssub => Z.bvor (Z.fails (Z.mk_bvsub_no_overflow lhs rhs))
      (Z.fails (Z.mk_bvsub_no_underflow lhs rhs true))
  | .usub => Z.fails (Z.mk_bvsub_no_underflow lhs rhs false)
  | .smul => Z.bvor (Z.fails (Z.mk_bvmul_no_overflow lhs rhs true))
      (Z.fails (Z.mk_bvmul_no_underflow lhs rhs))
  | .umul => Z.fails (Z.mk_bvmul_no_overflow lhs rhs false)

/-- The functions of `SMTZ3.cc`. -/
def solver : SMTSolver ν Ast where
  bvwidth := Z.get_bv_sort_size
  bvfalse := Z.bvfalse
  bvtrue := Z.bvtrue
  bvconst Val := .ok (Z.bvconst A Val)
  bvvar width name := Z.mk_const name width
  ite e lhs rhs := Z.mk_ite (Z.bv2bool e) lhs rhs
  cmp := Z.cmp
  extract := Z.mk_extract
  zero_extend := Z.mk_zero_ext
  sign_extend := Z.mk_sign_ext
  bvredand := Z.mk_bvredand
  bvredor := Z.mk_bvredor
  bvnot := Z.mk_bvnot
  bvneg := Z.mk_bvneg
  binary op lhs rhs := .ok (Z.mk_binary op lhs rhs)
  bvneg_overflow e := Z.fails (Z.mk_bvneg_no_overflow e)
  overflow := Z.overflow
  bvsdiv_overflow lhs rhs := Z.fails (Z.mk_bvsdiv_no_overflow lhs rhs)

end Code

/-! ## What is relied on -/

/-- The value of a term. -/
inductive Value
  | bool (b : Bool)
  | bv (c : APInt)
  deriving DecidableEq

/-- The value of a vector. -/
def Value.vector : Value → Option APInt
  | bool _ => none
  | bv c => some c

section Semantics

variable (val : Assignment ν → Ast → Value)

/-- A function of one vector. -/
def IsUnaryOp (F : Ast → Ast) (f : (w : ℕ) → BitVec w → Value) : Prop :=
  ∀ σ e w (x : BitVec w), val σ e = .bv ⟨w, x⟩ → val σ (F e) = f w x

/-- A function of two vectors of one size. -/
def IsBinaryOp (F : Ast → Ast → Ast) (f : (w : ℕ) → BitVec w → BitVec w → Value) : Prop :=
  ∀ σ e e' w (x y : BitVec w), val σ e = .bv ⟨w, x⟩ → val σ e' = .bv ⟨w, y⟩ →
    val σ (F e e') = f w x y

/-- What a predicate of the sum, the difference or the product says: that it is not above
the largest integer. -/
def noOverflow (f : ℤ → ℤ → ℤ) (is_signed : Bool) (w : ℕ) (x y : BitVec w) : Bool :=
  if is_signed then decide (f x.toInt y.toInt < 2 ^ (w - 1))
  else decide (f x.toNat y.toNat < 2 ^ w)

/-- It is not below the smallest integer. -/
def noUnderflow (f : ℤ → ℤ → ℤ) (is_signed : Bool) (w : ℕ) (x y : BitVec w) : Bool :=
  if is_signed then decide (-2 ^ (w - 1) ≤ f x.toInt y.toInt)
  else decide (0 ≤ f x.toNat y.toNat)

/-- A predicate on vectors of one size. -/
def IsPredicate (F : Ast → Ast → Ast) (p : (w : ℕ) → BitVec w → BitVec w → Bool) : Prop :=
  IsBinaryOp val F fun w x y => .bool (p w x y)

/-- The functions of Z3 do what its documentation says. There is a clause for each function that the
file calls, for terms of the sorts that it calls the function with. -/
structure Sound (Z : Z3 ν Ast) : Prop where
  get_bv_sort_size : ∀ σ e c, val σ e = .bv c → Z.get_bv_sort_size e = c.width
  mk_int : ∀ σ v size, 0 < size → val σ (Z.mk_int v size) = .bv (.ofNat size v)
  mk_unsigned_int64 : ∀ σ v size, 0 < size →
    val σ (Z.mk_unsigned_int64 v size) = .bv (.ofNat size v.toNat)
  mk_numeral : ∀ σ n size, 0 < size →
    val σ (Z.mk_numeral (Nat.toDigits 10 n) size) = .bv (.ofNat size n)
  mk_const : ∀ σ name size, 0 < size → val σ (Z.mk_const name size) = .bv ⟨size, σ name size⟩
  mk_eq : IsPredicate val Z.mk_eq fun _ x y => x == y
  mk_ite : ∀ σ e l r b w (x y : BitVec w), val σ e = .bool b → val σ l = .bv ⟨w, x⟩ →
    val σ r = .bv ⟨w, y⟩ → val σ (Z.mk_ite e l r) = .bv ⟨w, if b then x else y⟩
  mk_bvslt : IsPredicate val Z.mk_bvslt fun _ x y => x.slt y
  mk_bvsle : IsPredicate val Z.mk_bvsle fun _ x y => x.sle y
  mk_bvsgt : IsPredicate val Z.mk_bvsgt fun _ x y => y.slt x
  mk_bvsge : IsPredicate val Z.mk_bvsge fun _ x y => y.sle x
  mk_bvult : IsPredicate val Z.mk_bvult fun _ x y => x.ult y
  mk_bvule : IsPredicate val Z.mk_bvule fun _ x y => x.ule y
  mk_bvugt : IsPredicate val Z.mk_bvugt fun _ x y => y.ult x
  mk_bvuge : IsPredicate val Z.mk_bvuge fun _ x y => y.ule x
  mk_extract : ∀ high low σ e w (x : BitVec w), low ≤ high → high < w → val σ e = .bv ⟨w, x⟩ →
    val σ (Z.mk_extract high low e) = .bv ⟨_, x.extractLsb high low⟩
  mk_zero_ext : ∀ i, IsUnaryOp val (Z.mk_zero_ext i) fun w x => .bv ⟨w + i, x.setWidth (w + i)⟩
  mk_sign_ext : ∀ i, IsUnaryOp val (Z.mk_sign_ext i) fun w x => .bv ⟨w + i, x.signExtend (w + i)⟩
  mk_bvredand : IsUnaryOp val Z.mk_bvredand fun w x =>
    .bv (.ofBool (x == BitVec.allOnes w))
  mk_bvredor : IsUnaryOp val Z.mk_bvredor fun w x => .bv (.ofBool (x != 0#w))
  mk_bvnot : IsUnaryOp val Z.mk_bvnot fun w x => .bv ⟨w, ~~~x⟩
  mk_bvneg : IsUnaryOp val Z.mk_bvneg fun w x => .bv ⟨w, -x⟩
  mk_binary : ∀ op, IsBinaryOp val (Z.mk_binary op) fun w x y => .bv ⟨w, evalBinary op x y⟩
  mk_bvneg_no_overflow : IsUnaryOp val Z.mk_bvneg_no_overflow fun w x =>
    .bool (x != BitVec.intMin w)
  mk_bvadd_no_overflow : ∀ is_signed, IsPredicate val (Z.mk_bvadd_no_overflow · · is_signed)
    (noOverflow (· + ·) is_signed)
  mk_bvadd_no_underflow : IsPredicate val Z.mk_bvadd_no_underflow (noUnderflow (· + ·) true)
  mk_bvsub_no_overflow : IsPredicate val Z.mk_bvsub_no_overflow (noOverflow (· - ·) true)
  mk_bvsub_no_underflow : ∀ is_signed, IsPredicate val (Z.mk_bvsub_no_underflow · · is_signed)
    (noUnderflow (· - ·) is_signed)
  mk_bvmul_no_overflow : ∀ is_signed, IsPredicate val (Z.mk_bvmul_no_overflow · · is_signed)
    (noOverflow (· * ·) is_signed)
  mk_bvmul_no_underflow : IsPredicate val Z.mk_bvmul_no_underflow (noUnderflow (· * ·) true)
  mk_bvsdiv_no_overflow : IsPredicate val Z.mk_bvsdiv_no_overflow fun _ x y =>
    !decide (SDivOverflows x y)

end Semantics

/-- The digits of a number, without leading zeros. -/
def Decimal (A : Conversion) : Prop := ∀ v, A.toStringUnsigned v 10 = Nat.toDigits 10 v.toNat

/-! ## The functions of the theory -/

section Facts

variable {Z : Z3 ν Ast} {A : Conversion} {val : Assignment ν → Ast → Value} {σ : Assignment ν}
  {e e' : Ast} {b b' : Bool} {c : APInt} {w : ℕ} {x y : BitVec w}

@[simp] theorem vector_eq_some {v : Value} : v.vector = some c ↔ v = .bv c := by
  cases v <;> simp [Value.vector]

theorem bvtrue_val (hZ : Z.Sound val) : val σ Z.bvtrue = .bv ⟨1, 1#1⟩ :=
  hZ.mk_int σ 1 1 Nat.one_pos

theorem bvfalse_val (hZ : Z.Sound val) : val σ Z.bvfalse = .bv ⟨1, 0#1⟩ :=
  hZ.mk_int σ 0 1 Nat.one_pos

theorem bv2bool_val (hZ : Z.Sound val) {x : BitVec 1} (h : val σ e = .bv ⟨1, x⟩) :
    val σ (Z.bv2bool e) = .bool (x == 1#1) :=
  hZ.mk_eq σ e _ 1 x _ h (bvtrue_val hZ)

theorem bool2bv_val (hZ : Z.Sound val) (h : val σ e = .bool b) :
    val σ (Z.bool2bv e) = .bv (.ofBool b) := by
  rw [bool2bv, hZ.mk_ite σ e _ _ b 1 _ _ h (bvtrue_val hZ) (bvfalse_val hZ)]
  cases b <;> rfl

theorem fails_val (hZ : Z.Sound val) (h : val σ e = .bool b) :
    val σ (Z.fails e) = .bv (.ofBool !b) := by
  rw [fails, hZ.mk_bvnot σ _ 1 _ (bool2bv_val hZ h)]
  cases b <;> rfl

/-- The disjunction of two formulas that were turned into vectors. -/
theorem bvor_val (hZ : Z.Sound val) (h : val σ e = .bv (.ofBool b))
    (h' : val σ e' = .bv (.ofBool b')) : val σ (Z.bvor e e') = .bv (.ofBool (b || b')) := by
  rw [bvor, hZ.mk_binary .or σ e e' 1 _ _ h h']
  cases b <;> cases b' <;> rfl

/-- A signed operation overflows when one of the two predicates fails. -/
theorem signed_val (hZ : Z.Sound val) {f : ℤ → ℤ → ℤ}
    (h : val σ e = .bool (noOverflow f true w x y))
    (h' : val σ e' = .bool (noUnderflow f true w x y)) :
    val σ (Z.bvor (Z.fails e) (Z.fails e')) = .bv (.ofBool
      (decide (f x.toInt y.toInt ≥ 2 ^ (w - 1)) || decide (f x.toInt y.toInt < -2 ^ (w - 1)))) := by
  rw [bvor_val hZ (fails_val hZ h) (fails_val hZ h'), noOverflow, noUnderflow, if_pos rfl,
    if_pos rfl, ← decide_not, ← decide_not]
  simp only [not_lt, not_le, ge_iff_le]

/-- An unsigned operation overflows when the predicate fails. -/
theorem unsigned_val (hZ : Z.Sound val) {p q : Prop} [Decidable p] [Decidable q]
    (h : val σ e = .bool (decide p)) (hq : ¬ p ↔ q) :
    val σ (Z.fails e) = .bv (.ofBool (decide q)) := by
  rw [fails_val hZ h, ← decide_not]
  simp only [hq]

theorem cmp_val (hZ : Z.Sound val) (op : Cmp) (h : val σ e = .bv ⟨w, x⟩)
    (h' : val σ e' = .bv ⟨w, y⟩) : val σ (Z.cmp op e e') = .bv (.ofBool (evalCmp op x y)) := by
  cases op with
  | eq => exact bool2bv_val hZ (hZ.mk_eq σ e e' w x y h h')
  | ne => exact fails_val hZ (hZ.mk_eq σ e e' w x y h h')
  | slt => exact bool2bv_val hZ (hZ.mk_bvslt σ e e' w x y h h')
  | sle => exact bool2bv_val hZ (hZ.mk_bvsle σ e e' w x y h h')
  | sgt => exact bool2bv_val hZ (hZ.mk_bvsgt σ e e' w x y h h')
  | sge => exact bool2bv_val hZ (hZ.mk_bvsge σ e e' w x y h h')
  | ult => exact bool2bv_val hZ (hZ.mk_bvult σ e e' w x y h h')
  | ule => exact bool2bv_val hZ (hZ.mk_bvule σ e e' w x y h h')
  | ugt => exact bool2bv_val hZ (hZ.mk_bvugt σ e e' w x y h h')
  | uge => exact bool2bv_val hZ (hZ.mk_bvuge σ e e' w x y h h')

/-- The predicates of overflow are those of the theory. Signed operations need the predicates about
overflow and about underflow; unsigned ones need a single predicate. -/
theorem overflow_val (hZ : Z.Sound val) (op : OverflowOp) (h : val σ e = .bv ⟨w, x⟩)
    (h' : val σ e' = .bv ⟨w, y⟩) :
    val σ (Z.overflow op e e') = .bv (.ofBool (evalOverflow op x y)) := by
  cases op with
  | sadd =>
    exact signed_val hZ (hZ.mk_bvadd_no_overflow true σ e e' w x y h h')
      (hZ.mk_bvadd_no_underflow σ e e' w x y h h')
  | ssub =>
    exact signed_val hZ (hZ.mk_bvsub_no_overflow σ e e' w x y h h')
      (hZ.mk_bvsub_no_underflow true σ e e' w x y h h')
  | smul =>
    exact signed_val hZ (hZ.mk_bvmul_no_overflow true σ e e' w x y h h')
      (hZ.mk_bvmul_no_underflow σ e e' w x y h h')
  | uadd =>
    refine unsigned_val hZ (hZ.mk_bvadd_no_overflow false σ e e' w x y h h') ?_
    show ¬ (x.toNat + y.toNat : ℤ) < 2 ^ w ↔ 2 ^ w ≤ x.toNat + y.toNat
    rw [not_lt]
    norm_cast
  | usub =>
    refine unsigned_val hZ (hZ.mk_bvsub_no_underflow false σ e e' w x y h h') ?_
    rw [not_le, sub_neg, Nat.cast_lt]
  | umul =>
    refine unsigned_val hZ (hZ.mk_bvmul_no_overflow false σ e e' w x y h h') ?_
    show ¬ (x.toNat * y.toNat : ℤ) < 2 ^ w ↔ 2 ^ w ≤ x.toNat * y.toNat
    rw [not_lt]
    norm_cast

/-- A constant of up to 64 bits is a number, a wider one is read from its digits. -/
theorem bvconst_val (hZ : Z.Sound val) (hA : Decimal A) (hc : 0 < c.width) :
    val σ (Z.bvconst A c) = .bv c := by
  have hnat : APInt.ofNat c.width c.toNat = c :=
    APInt.ext_toNat rfl ((APInt.toNat_ofNat _ _).trans (Nat.mod_eq_of_lt c.toNat_lt))
  simp only [bvconst]
  split
  case isTrue hle =>
    have hlt : c.toNat < 2 ^ 64 := c.toNat_lt.trans_le (Nat.pow_le_pow_right Nat.two_pos hle)
    rw [hZ.mk_unsigned_int64 σ _ _ hc, BitVec.toNat_ofNat, Nat.mod_eq_of_lt hlt, hnat]
  case isFalse => rw [hA, hZ.mk_numeral σ _ _ hc, hnat]

/-- The functions of `SMTZ3.cc` are those of the theory, for all operands. -/
theorem sound (hZ : Z.Sound val) (hA : Decimal A) :
    (Z.solver A).Sound (fun σ e => (val σ e).vector) .none where
  bvwidth e w h := by
    obtain ⟨x, hx⟩ := h fun _ _ => 0
    exact hZ.get_bv_sort_size _ e _ (vector_eq_some.mp hx)
  bvfalse σ := vector_eq_some.mpr (bvfalse_val hZ)
  bvtrue σ := vector_eq_some.mpr (bvtrue_val hZ)
  bvconst c hc := ⟨_, rfl, fun σ => vector_eq_some.mpr (bvconst_val hZ hA hc)⟩
  bvvar w name hw σ := vector_eq_some.mpr (hZ.mk_const σ name w hw)
  ite σ e l r c w x y he hl hr := by
    rw [vector_eq_some] at he hl hr ⊢
    refine (hZ.mk_ite σ _ _ _ _ w x y (bv2bool_val hZ he) hl hr).trans ?_
    simp only [beq_iff_eq]
  cmp op σ e e' w x y h h' :=
    vector_eq_some.mpr (cmp_val hZ op (vector_eq_some.mp h) (vector_eq_some.mp h'))
  extract high low σ e w x hle hlt h :=
    vector_eq_some.mpr (hZ.mk_extract high low σ e w x hle hlt (vector_eq_some.mp h))
  zero_extend i σ e w x h := vector_eq_some.mpr (hZ.mk_zero_ext i σ e w x (vector_eq_some.mp h))
  sign_extend i σ e w x h := vector_eq_some.mpr (hZ.mk_sign_ext i σ e w x (vector_eq_some.mp h))
  bvredand σ e w x h := vector_eq_some.mpr (hZ.mk_bvredand σ e w x (vector_eq_some.mp h))
  bvredor σ e w x h := vector_eq_some.mpr (hZ.mk_bvredor σ e w x (vector_eq_some.mp h))
  bvnot σ e w x h := vector_eq_some.mpr (hZ.mk_bvnot σ e w x (vector_eq_some.mp h))
  bvneg σ e w x h := vector_eq_some.mpr (hZ.mk_bvneg σ e w x (vector_eq_some.mp h))
  binary op e e' w he he' _ := by
    have hval : ∀ σ (x y : BitVec w), (val σ e).vector = some ⟨w, x⟩ →
        (val σ e').vector = some ⟨w, y⟩ →
          (val σ (Z.mk_binary op e e')).vector = some ⟨w, evalBinary op x y⟩ :=
      fun σ x y h h' => vector_eq_some.mpr
        (hZ.mk_binary op σ e e' w x y (vector_eq_some.mp h) (vector_eq_some.mp h'))
    refine ⟨_, rfl, fun σ => ?_, fun σ x y h h' _ => hval σ x y h h'⟩
    obtain ⟨x, hx⟩ := he σ
    obtain ⟨y, hy⟩ := he' σ
    exact ⟨_, hval σ x y hx hy⟩
  bvneg_overflow σ e w x _ h := by
    rw [vector_eq_some] at h ⊢
    refine (fails_val hZ (hZ.mk_bvneg_no_overflow σ e w x h)).trans ?_
    rw [bne, Bool.not_not]
  overflow op σ e e' w x y h h' :=
    vector_eq_some.mpr (overflow_val hZ op (vector_eq_some.mp h) (vector_eq_some.mp h'))
  bvsdiv_overflow σ e e' w x y h h' := by
    rw [vector_eq_some] at h h' ⊢
    refine (fails_val hZ (hZ.mk_bvsdiv_no_overflow σ e e' w x y h h')).trans ?_
    rw [Bool.not_not]
    rfl

end Facts

end Z3

end Kint.SMT
