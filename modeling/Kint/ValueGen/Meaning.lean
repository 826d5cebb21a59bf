import Kint.ValueGen.Pass

/-!
# What a value means

The meaning of a value in the intermediate language, for given values of the leaves: constants,
the integer operators, casts, comparisons, selections, the intrinsics with overflow and address
computations mean what the language says; every other value is a leaf.  The meaning is undefined
(`none`) where an operation below the value is, where the types do not fit, and where the graph
of operands has a cycle.

At the end, the operators of the solver are compared with those of the language:  they agree
wherever the language defines a value.

## Main definitions

* `leafValue`: what a leaf holds, in the width of its type.
* `gepValue`, with `gepOffset` and `stepOffset`: address computations, in integers; the sum is
  taken modulo the size of the address space at the end.
* `instValue`, `stepValue`: the value of an instruction, or of any value, from those of its
  operands.
* `value`: the value from the leaves on, for operands up to a given depth.  `HasValue` says that
  some depth is enough.

This semantics owes nothing to the visitor of `ValueGen.cc`: which values are leaves is the only
thing that the two have in common.  Division by zero, shifts by too much and the quotient of the
minimum by `-1` have no value here, although the solver gives them one.
-/

namespace Kint.ValueGen

open Iteration Memo SMT

section Value

variable (DL : DataLayout) (P : Program) (σ : Assignment Value)

/-- The bytes that one index adds: the offset of a struct field, or the index,
extended or truncated to the width of a pointer, times the size of an element. -/
def stepOffset (v : Value → Option APInt) (ty : Ty) (V : Value) : Option ℤ :=
  match ty with
  | .struct s => (constantInt? V).map fun C => (DL.elementOffset s C.toNat : ℤ)
  | _ => (v V).map fun x =>
    (x.bits.signExtend DL.pointerSizeInBits).toInt * DL.typeAllocSize (indexedType P ty V)

/-- The bytes that the indices of an address computation add. -/
def gepOffset (v : Value → Option APInt) : Ty → List Value → Option ℤ
  | _, [] => some 0
  | ty, V :: idx =>
    (stepOffset DL P v ty V).bind fun step =>
      (gepOffset v (indexedType P ty V) idx).map fun rest => step + rest

/-- The value of an address computation: base plus offset, modulo the size of
the address space. -/
def gepValue (v : Value → Option APInt) (base : Value) (idx : List Value) :
    Option APInt := do
  let x ← v base
  let offset ← gepOffset DL P v (P.typeOf base) idx
  if x.width = DL.pointerSizeInBits then
    return ⟨DL.pointerSizeInBits, BitVec.ofInt _ (x.toNat + offset)⟩
  else none

/-- The value of a leaf, with the width of its type. -/
def leafValue (V : Value) : Option APInt :=
  (typeSizeInBits DL (P.typeOf V)).map fun w => ⟨w, σ V w⟩

/-- The value of an instruction of `w` bits whose operands have the values `v`. -/
def instValue (v : Value → Option APInt) (w : ℕ) (i : InstId) : Option APInt :=
  match (P.inst i).op with
  | .cast .bitcast V =>
    if isAnalyzable (P.typeOf V) then (v V).bind (castValue .bitcast w)
    else leafValue DL P σ (.inst i)
  | .cast .inttoptr _ | .cast .floating _ => leafValue DL P σ (.inst i)
  | .cast op V => (v V).bind (castValue op w)
  | .binary op lhs rhs => (v lhs).bind fun x => (v rhs).bind (binaryValue op x)
  | .icmp pred lhs rhs => (v lhs).bind fun x => (v rhs).bind (icmpValue pred x)
  | .select cond ifTrue ifFalse =>
    (v cond).bind fun c => (v ifTrue).bind fun t => (v ifFalse).bind (selectValue c t)
  | .extractValue agg idx =>
    match overflowCall? P agg with
    | none => leafValue DL P σ (.inst i)
    | some (op, lhs, rhs) =>
      (v lhs).bind fun x => (v rhs).bind (overflowValue op idx x)
  | .gep base idx => gepValue DL P v base idx
  | _ => leafValue DL P σ (.inst i)

/-- The value of `V`, of `w` bits, when its operands have the values `v`. -/
def stepValue (v : Value → Option APInt) (w : ℕ) (V : Value) : Option APInt :=
  match V with
  | .inst i => instValue DL P σ v w i
  | .constInt c => some c
  | .null _ => some (.ofNat w 0)
  | .constExpr c =>
    match P.const c with
    | .gep base idx _ => gepValue DL P v base idx
    | _ => leafValue DL P σ V
  | _ => leafValue DL P σ V

/-- The value of `V` when the leaves have the values `σ`; `fuel` bounds the
depth of the operands. -/
def value : (fuel : ℕ) → Value → Option APInt
  | 0, _ => none
  | fuel + 1, V => do
    let w ← typeSizeInBits DL (P.typeOf V)
    let x ← stepValue DL P σ (value fuel) w V
    if x.width = w then return x else none

/-- `x` is the value of `V` when the leaves have the values `σ`. -/
def HasValue (V : Value) (x : APInt) : Prop := ∃ n, value DL P σ n V = some x

end Value

/-! ## The operators of the solver -/

section Operators

variable {w : ℕ} {x y z : BitVec w}

/-- The signed division of the theory differs at zero only. -/
theorem smtSDiv_eq_sdiv (hy : y ≠ 0) : x.smtSDiv y = x.sdiv y := by
  have hneg : -y ≠ 0#w := fun h => hy (by simpa using h)
  rw [BitVec.smtSDiv_eq, BitVec.sdiv_eq]
  cases x.msb <;> cases y.msb <;> simp [BitVec.smtUDiv_eq, hneg, show y ≠ 0#w from hy]

/-- Where the language defines the value of a binary operator, the solver
computes it. -/
theorem evalBinary_eq {op : BinaryOp} (h : op.eval x y = some z) :
    evalBinary op x y = z := by
  cases op with
  | add =>
    rw [← Option.some.inj h, BitVec.ofNat_add, BitVec.ofNat_toNat, BitVec.ofNat_toNat]
    simp [evalBinary]
  | sub =>
    rw [← Option.some.inj h, ofInt_sub, ofInt_toNat, ofInt_toNat]
    rfl
  | mul =>
    rw [← Option.some.inj h]
    apply BitVec.eq_of_toNat_eq
    simp [evalBinary]
  | udiv =>
    obtain ⟨hy, hz⟩ := Option.ite_none_left_eq_some.mp h
    rw [← Option.some.inj hz, ← BitVec.toNat_udiv, BitVec.ofNat_toNat, BitVec.setWidth_eq]
    exact (BitVec.smtUDiv_eq x y).trans (if_neg hy)
  | urem =>
    obtain ⟨-, hz⟩ := Option.ite_none_left_eq_some.mp h
    rw [← Option.some.inj hz, ← BitVec.toNat_umod, BitVec.ofNat_toNat, BitVec.setWidth_eq]
    rfl
  | sdiv =>
    obtain ⟨hxy, hz⟩ := Option.ite_none_left_eq_some.mp h
    obtain ⟨hy, hover⟩ := not_or.mp hxy
    have hfits : x ≠ BitVec.intMin w ∨ y ≠ -1#w := not_and_or.mp hover
    rw [← Option.some.inj hz, ← BitVec.toInt_sdiv_of_ne_or_ne x y hfits, BitVec.ofInt_toInt]
    exact smtSDiv_eq_sdiv hy
  | srem =>
    obtain ⟨-, hz⟩ := Option.ite_none_left_eq_some.mp h
    rw [← Option.some.inj hz, ← BitVec.toInt_srem, BitVec.ofInt_toInt]
    rfl
  | shl =>
    obtain ⟨-, hz⟩ := Option.ite_none_right_eq_some.mp h
    rw [← Option.some.inj hz]
    apply BitVec.eq_of_toNat_eq
    simp [evalBinary, Nat.shiftLeft_eq]
  | lshr =>
    obtain ⟨-, hz⟩ := Option.ite_none_right_eq_some.mp h
    rw [← Option.some.inj hz, ← Nat.shiftRight_eq_div_pow, ← BitVec.toNat_ushiftRight,
      BitVec.ofNat_toNat, BitVec.setWidth_eq]
    rfl
  | ashr =>
    obtain ⟨-, hz⟩ := Option.ite_none_right_eq_some.mp h
    have hpow : x.toInt / 2 ^ y.toNat = (x.sshiftRight y.toNat).toInt := by
      rw [BitVec.toInt_sshiftRight, Int.shiftRight_eq_div_pow]
      norm_cast
    rw [← Option.some.inj hz, hpow, BitVec.ofInt_toInt]
    rfl
  | and => exact Option.some.inj h
  | or => exact Option.some.inj h
  | xor => exact Option.some.inj h

/-- The comparisons of the solver are those of the language. -/
theorem evalCmp_eq (pred : ICmpPredicate) (x y : BitVec w) :
    evalCmp (cmpOf pred) x y = pred.eval x y := by
  rw [Bool.eq_iff_iff]
  cases pred with
  | eq => simp [cmpOf, evalCmp, ICmpPredicate.eval, BitVec.toNat_eq]
  | ne => simp [cmpOf, evalCmp, ICmpPredicate.eval, BitVec.toNat_eq]
  | _ => simp [cmpOf, evalCmp, ICmpPredicate.eval, BitVec.ult, BitVec.ule, BitVec.slt, BitVec.sle]

/-- The operator for the result of an intrinsic wraps as the intrinsic does. -/
theorem evalBinary_resultOp (op : OverflowOp) (x y : BitVec w) :
    evalBinary (resultOp op) x y = op.result x y := by
  cases op with
  | sadd =>
    rw [OverflowOp.result, BitVec.ofInt_add, BitVec.ofInt_toInt, BitVec.ofInt_toInt]
    rfl
  | uadd =>
    rw [OverflowOp.result, BitVec.ofNat_add, BitVec.ofNat_toNat, BitVec.ofNat_toNat]
    simp [evalBinary, resultOp]
  | ssub =>
    rw [OverflowOp.result, ofInt_sub, BitVec.ofInt_toInt, BitVec.ofInt_toInt]
    rfl
  | usub =>
    rw [OverflowOp.result, ofInt_sub, ofInt_toNat, ofInt_toNat]
    rfl
  | smul =>
    rw [OverflowOp.result, BitVec.ofInt_mul, BitVec.ofInt_toInt, BitVec.ofInt_toInt]
    rfl
  | umul =>
    apply BitVec.eq_of_toNat_eq
    simp [evalBinary, resultOp, OverflowOp.result]

/-- The overflow predicates of the solver are those of the intrinsics: both ask whether the exact
result fits. The predicates of `BitVec` say it by bounds on the result, signed or unsigned. -/
theorem evalOverflow_eq (op : OverflowOp) (x y : BitVec w) :
    evalOverflow op x y = op.overflow x y := by
  rw [Bool.eq_iff_iff]
  cases op with
  | sadd =>
    simp only [OverflowOp.overflow, decide_eq_true_eq]
    rw [OverflowOp.not_fitsSigned]
    simp [evalOverflow, BitVec.saddOverflow]
  | uadd =>
    simp only [OverflowOp.overflow, decide_eq_true_eq]
    rw [← Nat.cast_add, OverflowOp.not_fitsUnsigned]
    simp [evalOverflow, BitVec.uaddOverflow]
  | ssub =>
    simp only [OverflowOp.overflow, decide_eq_true_eq]
    rw [OverflowOp.not_fitsSigned]
    simp [evalOverflow, BitVec.ssubOverflow]
  | usub =>
    simp only [OverflowOp.overflow, decide_eq_true_eq, evalOverflow, BitVec.usubOverflow]
    have hx : ((x.toNat : ℤ)) < 2 ^ w := by exact_mod_cast x.isLt
    unfold OverflowOp.FitsUnsigned
    omega
  | smul =>
    simp only [OverflowOp.overflow, decide_eq_true_eq]
    rw [OverflowOp.not_fitsSigned]
    simp [evalOverflow, BitVec.smulOverflow]
  | umul =>
    simp only [OverflowOp.overflow, decide_eq_true_eq]
    rw [← Nat.cast_mul, OverflowOp.not_fitsUnsigned]
    simp [evalOverflow, BitVec.umulOverflow]

end Operators

end Kint.ValueGen
