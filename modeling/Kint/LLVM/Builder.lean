import Kint.LLVM.IR

/-!
# Instructions made by an `IRBuilder`

A pass that rewrites instructions makes new ones over the values it finds.  What it makes is
kept as an expression over these values.  The builder folds constants; a folded expression and
the one that is kept here have the same value.

An expression is evaluated in an environment that gives the values in sight their integers, the
ones that an execution has reached them with.

## Main definitions

* `Built`: a value that was there, or an instruction over what was made before.  A call of an
  intrinsic with overflow appears with the `extractvalue` of its result or of its bit.
* `Env`: integers for the values of a program.  It carries proofs that constants have their own
  value and that every integer has the width of its type, so that environments are those an
  execution can be in.
* `Built.eval`: the value of an expression; it has none where an operator has none.
* `createdWidths`: the integer types that the builder was asked for, of which some are not
  simple types of the target.

The `simp` set of this module evaluates an expression from the values of its operands, one rule
for each constructor; a proof that a rewritten instruction means the same is an evaluation by
these rules and a fact about bit vectors.
-/

namespace Kint

/-- What a builder makes: a value that was there, or a new instruction.
`overflow` is a call of an intrinsic with overflow together with the
`extractvalue` of one of its components. -/
inductive Built
  | value (V : Value)
  | binary (op : BinaryOp) (lhs rhs : Built)
  | icmp (pred : ICmpPredicate) (lhs rhs : Built)
  | cast (op : CastOp) (v : Built) (w : ℕ)
  | overflow (op : OverflowOp) (idx : ℕ) (lhs rhs : Built)
  deriving DecidableEq

/-- Integers for the values of a program: constants have their own, and every
integer is of the width of its type. -/
structure Env (P : Program) where
  val : Value → Option APInt
  constInt : ∀ c, val (.constInt c) = some c
  width : ∀ V w x, P.typeOf V = .int w → val V = some x → x.width = w

/-- The environment with given numbers for the values of integer type. -/
def Env.ofNumbers (P : Program) (num : Value → ℕ) : Env P where
  val V :=
    match V with
    | .constInt c => some c
    | V =>
      match P.typeOf V with
      | .int w => some (.ofNat w (num V))
      | _ => none
  constInt _ := rfl
  width V w x hty hx := by
    split at hx
    · obtain rfl := Option.some.inj hx
      exact Ty.int.inj hty
    · rw [hty] at hx
      obtain rfl := Option.some.inj hx
      rfl

/-- One function with two arguments of `w` bits and instructions over them. -/
def Program.ofArguments (w : ℕ) (insts : List Instruction) : Program where
  insts := insts
  blocks := []
  funcs := [⟨⟨"f", .external, ""⟩, false, [.int w, .int w], .other, []⟩]
  globals := []
  structs := []
  consts := []

namespace Built

/-- `Builder->getInt` -/
def getInt (c : APInt) : Built := .value (.constInt c)

/-- `Builder->getFalse` -/
def getFalse : Built := getInt (.ofBool false)

/-- The value of what the builder made, `none` where an operation has none. -/
def eval {P : Program} (ρ : Env P) : Built → Option APInt
  | value V => ρ.val V
  | binary op lhs rhs =>
    (lhs.eval ρ).bind fun x => (rhs.eval ρ).bind (binaryValue op x)
  | icmp pred lhs rhs =>
    (lhs.eval ρ).bind fun x => (rhs.eval ρ).bind (icmpValue pred x)
  | cast op v w => (v.eval ρ).bind (castValue op w)
  | overflow op idx lhs rhs =>
    (lhs.eval ρ).bind fun x => (rhs.eval ρ).bind (overflowValue op idx x)

/-- The widths of the integer types that the builder was asked for. -/
def createdWidths : Built → List ℕ
  | value _ => []
  | binary _ lhs rhs => lhs.createdWidths ++ rhs.createdWidths
  | icmp _ lhs rhs => lhs.createdWidths ++ rhs.createdWidths
  | cast _ v w => w :: v.createdWidths
  | overflow _ _ lhs rhs => lhs.createdWidths ++ rhs.createdWidths

section Eval

variable {P : Program} (ρ : Env P)

@[simp] theorem eval_value (V : Value) : (value V).eval ρ = ρ.val V := rfl

@[simp] theorem eval_getInt (c : APInt) : (getInt c).eval ρ = some c := ρ.constInt c

@[simp] theorem eval_getFalse : getFalse.eval ρ = some (.ofBool false) := ρ.constInt _

variable {ρ} {A B : Built} {w : ℕ} {x y : BitVec w}

/-- An operator has the value of the operator on bit vectors, if that has one. -/
theorem eval_binary (op : BinaryOp) (hA : A.eval ρ = some ⟨w, x⟩) (hB : B.eval ρ = some ⟨w, y⟩) :
    (binary op A B).eval ρ = (op.eval x y).map fun z => ⟨w, z⟩ := by
  simp [eval, hA, hB, binaryValue]

theorem eval_icmp (pred : ICmpPredicate) (hA : A.eval ρ = some ⟨w, x⟩)
    (hB : B.eval ρ = some ⟨w, y⟩) :
    (icmp pred A B).eval ρ = some (.ofBool (pred.eval x y)) := by
  simp [eval, hA, hB, icmpValue]

/-- The result of an intrinsic with overflow, cut to the width. -/
theorem eval_result (op : OverflowOp) (hA : A.eval ρ = some ⟨w, x⟩)
    (hB : B.eval ρ = some ⟨w, y⟩) :
    (overflow op 0 A B).eval ρ = some ⟨w, op.result x y⟩ := by
  simp [eval, hA, hB, overflowValue]

theorem eval_overflow (op : OverflowOp) (hA : A.eval ρ = some ⟨w, x⟩)
    (hB : B.eval ρ = some ⟨w, y⟩) :
    (overflow op 1 A B).eval ρ = some (.ofBool (op.overflow x y)) := by
  simp [eval, hA, hB, overflowValue]

/-- The operators on truth values. -/
theorem eval_or {b c : Bool} (hA : A.eval ρ = some (.ofBool b))
    (hB : B.eval ρ = some (.ofBool c)) :
    (binary .or A B).eval ρ = some (.ofBool (b || c)) := by
  rw [eval_binary .or hA hB]
  cases b <;> cases c <;> rfl

theorem eval_and {b c : Bool} (hA : A.eval ρ = some (.ofBool b))
    (hB : B.eval ρ = some (.ofBool c)) :
    (binary .and A B).eval ρ = some (.ofBool (b && c)) := by
  rw [eval_binary .and hA hB]
  cases b <;> cases c <;> rfl

/-- The negation of a truth value, as the exclusive or with true. -/
theorem eval_not {b : Bool} (hA : A.eval ρ = some (.ofBool b)) :
    (binary .xor A (getInt (.ofBool true))).eval ρ = some (.ofBool !b) := by
  have hB : (getInt (.ofBool true)).eval ρ = some ⟨1, BitVec.ofBool true⟩ := eval_getInt ρ _
  rw [eval_binary .xor hA hB]
  cases b <;> rfl

end Eval

end Built

end Kint
