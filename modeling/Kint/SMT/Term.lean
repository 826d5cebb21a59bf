import Kint.Iteration
import Kint.LLVM.Arith

/-!
# Terms of the solver

Bit-vector terms over variables of a type `ν`, as `SMTSolver` builds them.  A term is indexed by
its width, so that a term is always well-sorted; an expression (`SMTExpr`) is a term together
with its width, and the operations of `SMTSolver` on expressions fail where the solver aborts on
operands of different widths.  The meaning of a term (`eval`) is that of the theory of
fixed-size bit vectors; in particular a division by zero and a shift by too much have values.

## Main definitions

* `Term`, `Term.eval`: terms and their values.  An assignment gives each name a vector for every
  width, since the source makes variables by name and width.
* `evalBinary`, `evalCmp`, `evalOverflow`: the operators of the theory.
* `Term.Holds`: a formula is a term of one bit, and it is true if the bit is one.  The
  connectives of the source are the bitwise operators.
* `SMTExpr`: with `zip` for operations on two expressions, `formula` and `ofFormula` for those
  of one bit, and the functions of `SMTSolver` under their names.

## Simp lemmas

The lemmas `holds_` describe formulas by logic; with those about `zip` and `formula` they are
what the generators of terms are reasoned about with.
-/

namespace Kint.SMT

open Iteration

/-- The comparisons of `SMTSolver`. -/
inductive Cmp
  | eq | ne | slt | sle | sgt | sge | ult | ule | ugt | uge
  deriving DecidableEq

/-- Bit-vector terms by width. Comparisons and overflow predicates are terms of one bit, since the
source treats formulas as such. -/
inductive Term (ν : Type) : ℕ → Type
  | const {w : ℕ} (c : BitVec w) : Term ν w
  | var (w : ℕ) (name : ν) : Term ν w
  | binary {w : ℕ} (op : BinaryOp) (lhs rhs : Term ν w) : Term ν w
  | cmp {w : ℕ} (op : Cmp) (lhs rhs : Term ν w) : Term ν 1
  | overflow {w : ℕ} (op : OverflowOp) (lhs rhs : Term ν w) : Term ν 1
  | ite {w : ℕ} (e : Term ν 1) (lhs rhs : Term ν w) : Term ν w
  | extract {w : ℕ} (high low : ℕ) (e : Term ν w) : Term ν (high - low + 1)
  | zeroExtend {w : ℕ} (i : ℕ) (e : Term ν w) : Term ν (w + i)
  | signExtend {w : ℕ} (i : ℕ) (e : Term ν w) : Term ν (w + i)
  | not {w : ℕ} (e : Term ν w) : Term ν w

/-- Bit-vectors for the variables, one for each width at which a name is used. -/
abbrev Assignment (ν : Type) := ν → (w : ℕ) → BitVec w

variable {ν : Type}

/-- The binary operators of the theory. -/
def evalBinary (op : BinaryOp) {w : ℕ} (x y : BitVec w) : BitVec w :=
  match op with
  | .add => x + y
  | .sub => x - y
  | .mul => x * y
  | .udiv => x.smtUDiv y
  | .sdiv => x.smtSDiv y
  | .urem => x % y
  | .srem => x.srem y
  | .shl => x <<< y
  | .lshr => x >>> y
  | .ashr => x.sshiftRight' y
  | .and => x &&& y
  | .or => x ||| y
  | .xor => x ^^^ y

/-- The comparisons of the theory. -/
def evalCmp (op : Cmp) {w : ℕ} (x y : BitVec w) : Bool :=
  match op with
  | .eq => x == y
  | .ne => x != y
  | .slt => x.slt y
  | .sle => x.sle y
  | .sgt => y.slt x
  | .sge => y.sle x
  | .ult => x.ult y
  | .ule => x.ule y
  | .ugt => y.ult x
  | .uge => y.ule x

/-- The overflow predicates of the solver. -/
def evalOverflow (op : OverflowOp) {w : ℕ} (x y : BitVec w) : Bool :=
  match op with
  | .sadd => x.saddOverflow y
  | .uadd => x.uaddOverflow y
  | .ssub => x.ssubOverflow y
  | .usub => x.usubOverflow y
  | .smul => x.smulOverflow y
  | .umul => x.umulOverflow y

namespace Term

/-- The value of a term. -/
def eval (σ : Assignment ν) : {w : ℕ} → Term ν w → BitVec w
  | _, const c => c
  | w, var _ name => σ name w
  | _, binary op lhs rhs => evalBinary op (lhs.eval σ) (rhs.eval σ)
  | _, cmp op lhs rhs => BitVec.ofBool (evalCmp op (lhs.eval σ) (rhs.eval σ))
  | _, overflow op lhs rhs => BitVec.ofBool (evalOverflow op (lhs.eval σ) (rhs.eval σ))
  | _, ite e lhs rhs => if e.eval σ = 1#1 then lhs.eval σ else rhs.eval σ
  | _, extract high low e => (e.eval σ).extractLsb high low
  | _, zeroExtend (w := w) i e => (e.eval σ).setWidth (w + i)
  | _, signExtend (w := w) i e => (e.eval σ).signExtend (w + i)
  | _, not e => ~~~ e.eval σ

/-- A formula is true under an assignment. -/
def Holds (σ : Assignment ν) (e : Term ν 1) : Prop := e.eval σ = 1#1

instance (σ : Assignment ν) (e : Term ν 1) : Decidable (e.Holds σ) :=
  inferInstanceAs (Decidable (_ = _))

/-- `bvtrue` -/
def bvtrue : Term ν 1 := const 1#1

/-- `bvfalse` -/
def bvfalse : Term ν 1 := const 0#1

/-- `bvand` of formulas -/
def bvand (lhs rhs : Term ν 1) : Term ν 1 := binary .and lhs rhs

/-- `bvor` of formulas -/
def bvor (lhs rhs : Term ν 1) : Term ν 1 := binary .or lhs rhs

/-- `bvnot` of a formula -/
def bvnot (e : Term ν 1) : Term ν 1 := not e

variable {σ : Assignment ν} {e e' : Term ν 1}

@[simp] theorem holds_bvtrue : (bvtrue : Term ν 1).Holds σ := rfl

@[simp] theorem not_holds_bvfalse : ¬ (bvfalse : Term ν 1).Holds σ := by
  show (0#1 : BitVec 1) ≠ 1#1
  decide

@[simp] theorem holds_bvand : (bvand e e').Holds σ ↔ e.Holds σ ∧ e'.Holds σ := by
  have hbits : ∀ x y : BitVec 1, x &&& y = 1#1 ↔ x = 1#1 ∧ y = 1#1 := by decide
  exact hbits _ _

@[simp] theorem holds_bvor : (bvor e e').Holds σ ↔ e.Holds σ ∨ e'.Holds σ := by
  have hbits : ∀ x y : BitVec 1, x ||| y = 1#1 ↔ x = 1#1 ∨ y = 1#1 := by decide
  exact hbits _ _

@[simp] theorem holds_bvnot : (bvnot e).Holds σ ↔ ¬ e.Holds σ := by
  have hbits : ∀ x : BitVec 1, ~~~x = 1#1 ↔ ¬ x = 1#1 := by decide
  exact hbits _

/-- A bit is one if it stands for what is true. -/
theorem ofBool_eq_one {b : Bool} : BitVec.ofBool b = 1#1 ↔ b = true := by
  cases b <;> decide

theorem holds_cmp {w : ℕ} {op : Cmp} {lhs rhs : Term ν w} :
    (cmp op lhs rhs).Holds σ ↔ evalCmp op (lhs.eval σ) (rhs.eval σ) = true :=
  ofBool_eq_one

theorem holds_eq {w : ℕ} {lhs rhs : Term ν w} :
    (cmp .eq lhs rhs).Holds σ ↔ lhs.eval σ = rhs.eval σ := by
  rw [holds_cmp]
  exact beq_iff_eq

end Term

/-! ## Expressions -/

/-- `SMTExpr`: a term of some width. -/
structure SMTExpr (ν : Type) where
  width : ℕ
  term : Term ν width

namespace SMTExpr

/-- The value of an expression. -/
def eval (σ : Assignment ν) (E : SMTExpr ν) : APInt := ⟨E.width, E.term.eval σ⟩

@[simp] theorem eval_mk (σ : Assignment ν) {w : ℕ} (e : Term ν w) :
    (⟨w, e⟩ : SMTExpr ν).eval σ = ⟨w, e.eval σ⟩ := rfl

/-- The two operands of an operation must have one width. -/
def zip {α : Type} (f : (w : ℕ) → Term ν w → Term ν w → α) (lhs rhs : SMTExpr ν) :
    Except Stop α :=
  if h : rhs.width = lhs.width then .ok (f lhs.width lhs.term (h ▸ rhs.term))
  else .error .fatal

/-- On terms of one width the operation is carried out. -/
theorem zip_mk {α : Type} (f : (w : ℕ) → Term ν w → Term ν w → α) {w : ℕ}
    (lhs rhs : Term ν w) : zip f ⟨w, lhs⟩ ⟨w, rhs⟩ = .ok (f w lhs rhs) := by
  simp [zip]

/-- The operation is carried out on terms of one width only. -/
theorem zip_eq_ok {α : Type} {f : (w : ℕ) → Term ν w → Term ν w → α} {lhs rhs : SMTExpr ν}
    {a : α} : zip f lhs rhs = .ok a ↔
      ∃ w x y, lhs = ⟨w, x⟩ ∧ rhs = ⟨w, y⟩ ∧ f w x y = a := by
  constructor
  · intro h
    obtain ⟨w, x⟩ := lhs
    obtain ⟨w', y⟩ := rhs
    unfold zip at h
    split at h
    · rename_i hw
      obtain rfl : w' = w := hw
      exact ⟨w', x, y, rfl, rfl, Except.ok.inj h⟩
    · cases h
  · rintro ⟨w, x, y, rfl, rfl, rfl⟩
    exact zip_mk f x y

/-- `bvconst` -/
def bvconst (c : APInt) : SMTExpr ν := ⟨c.width, .const c.bits⟩

/-- `bvvar` -/
def bvvar (w : ℕ) (name : ν) : SMTExpr ν := ⟨w, .var w name⟩

/-- `bvadd` and the other binary operators. -/
def binary (op : BinaryOp) : SMTExpr ν → SMTExpr ν → Except Stop (SMTExpr ν) :=
  zip fun w x y => ⟨w, .binary op x y⟩

/-- `eq` and the other comparisons. -/
def cmp (op : Cmp) : SMTExpr ν → SMTExpr ν → Except Stop (Term ν 1) :=
  zip fun _ x y => .cmp op x y

/-- `bvsadd_overflow` and the other overflow predicates. -/
def overflow (op : OverflowOp) : SMTExpr ν → SMTExpr ν → Except Stop (Term ν 1) :=
  zip fun _ x y => .overflow op x y

/-- A formula, as an expression of one bit. -/
def ofFormula (e : Term ν 1) : SMTExpr ν := ⟨1, e⟩

/-- An expression of one bit, as a formula. -/
def formula (E : SMTExpr ν) : Except Stop (Term ν 1) :=
  if h : E.width = 1 then .ok (h ▸ E.term) else .error .fatal

/-- The expressions of one bit are the formulas. -/
theorem formula_eq_ok {E : SMTExpr ν} {e : Term ν 1} :
    E.formula = .ok e ↔ E = ofFormula e := by
  obtain ⟨w, x⟩ := E
  unfold formula
  constructor
  · intro h
    split at h
    · rename_i hw
      obtain rfl : w = 1 := hw
      rw [← Except.ok.inj h]
      rfl
    · cases h
  · intro h
    obtain ⟨rfl, hx⟩ := SMTExpr.mk.inj h
    obtain rfl := eq_of_heq hx
    rfl

/-- Different formulas are different expressions. -/
theorem ofFormula_inj {e e' : Term ν 1} : ofFormula e = ofFormula e' ↔ e = e' := by
  constructor
  · intro h
    exact eq_of_heq (SMTExpr.mk.inj h).2
  · intro h
    rw [h]

/-- A formula, taken as an expression and back. -/
@[simp] theorem formula_ofFormula (e : Term ν 1) : (ofFormula e).formula = .ok e := rfl

/-- `ite` -/
def ite (e lhs rhs : SMTExpr ν) : Except Stop (SMTExpr ν) := do
  let c ← e.formula
  zip (fun w x y => ⟨w, .ite c x y⟩) lhs rhs

/-- `extract`; the solver aborts when the bits are not there. -/
def extract (high low : ℕ) (E : SMTExpr ν) : Except Stop (SMTExpr ν) :=
  if low ≤ high ∧ high < E.width then .ok ⟨high - low + 1, .extract high low E.term⟩
  else .error .fatal

/-- `zero_extend` -/
def zeroExtend (i : ℕ) (E : SMTExpr ν) : SMTExpr ν := ⟨E.width + i, .zeroExtend i E.term⟩

/-- `sign_extend` -/
def signExtend (i : ℕ) (E : SMTExpr ν) : SMTExpr ν := ⟨E.width + i, .signExtend i E.term⟩

end SMTExpr

end Kint.SMT
