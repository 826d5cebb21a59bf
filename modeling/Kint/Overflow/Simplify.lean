import Kint.LLVM.Builder
import Kint.Overflow.Thresholds

/-!
# `OverflowSimplify`

The pass replaces a call of an intrinsic with overflow that has a constant operand by the plain
operation and a comparison of the other operand with a threshold.  The threshold is computed
from the constant in wrapping arithmetic.

A call is judged by the pair of integers that its users see: the wrapped result and the overflow
bit (`Rewrite.pair`).

## Main definitions

* `simplifySAdd`, `simplifyUAdd`, `simplifySSub`, `simplifyUSub`, `simplifySMul`,
  `simplifyUMul`: the transcription, one definition for each function of the source, and
  `simplify` for the dispatch.
* `withConstant`: what the commutative operations have in common.  `canonicalize` moves a
  constant to the right, and orders two names.
* `Rewrite`: the call is kept, its operands are exchanged, or the pair is replaced.
* `Computes`, `Rewrite.Preserves`: the pair is what the intrinsic computes from the operands.

## How the pair is judged

The plain operation always computes the wrapped result, so a new pair is right exactly when its
comparison is (`plain_computes_iff`).  The comparison is one with a threshold
(`eval_threshold`).  For the operations that commute it is enough to look at the case of a
constant on the right (`constantSide_computes`).
-/

namespace Kint.Overflow

/-- What the pass does with a call: it keeps the call, exchanges its operands,
or replaces it by the pair `{Res, Cmp}`. -/
inductive Rewrite
  | keep
  | swap
  | replace (Res Cmp : Built)
  deriving DecidableEq

section Simplify

-- the name that `WriteAsOperand` prints for a value
variable (WriteAsOperand : Value → String)

/-- The constant operand of a commutative operation and the other operand. -/
def constantSide (L R : Value) : Option (Value × APInt) :=
  match constantInt? R, constantInt? L with
  | some C, _ => some (L, C)
  | none, some C => some (R, C)
  | none, none => none

/-- `canonicalize` of a call without constant operand: the operands are put into
the order of their names. -/
def orderOperands (L R : Value) : Rewrite :=
  if WriteAsOperand L ≤ WriteAsOperand R then .keep else .swap

/-- The common part of the commutative operations: `canonicalize`, and `make` on
the other operand and the constant if there is one. -/
def withConstant (L R : Value) (make : Value → APInt → Rewrite) : Rewrite :=
  match constantSide L R with
  | none => orderOperands WriteAsOperand L R
  | some (X, C) => make X C

/-- `simplifySAdd` -/
def simplifySAdd (L R : Value) : Rewrite :=
  withConstant WriteAsOperand L R fun X C =>
    .replace (.binary .add (.value X) (.getInt C))
      (if C.bits.toInt < 0 then
        .icmp .slt (.value X) (.getInt ⟨C.width, BitVec.intMin C.width - C.bits⟩)
      else
        .icmp .sgt (.value X) (.getInt ⟨C.width, BitVec.intMax C.width - C.bits⟩))

/-- `simplifyUAdd` -/
def simplifyUAdd (L R : Value) : Rewrite :=
  withConstant WriteAsOperand L R fun X C =>
    .replace (.binary .add (.value X) (.getInt C))
      (.icmp .ugt (.value X) (.getInt ⟨C.width, BitVec.allOnes C.width - C.bits⟩))

/-- `simplifySSub`; the width `N` of the operands is that of the constant.  Both
comparisons of the branch for a constant on the left are with the left operand. -/
def simplifySSub (L R : Value) : Rewrite :=
  let Res := .binary .sub (.value L) (.value R)
  match constantInt? R, constantInt? L with
  | some C, _ =>
    .replace Res
      (if C.bits.toInt < 0 then
        .icmp .sgt (.value L) (.getInt ⟨C.width, BitVec.intMax C.width + C.bits⟩)
      else
        .icmp .slt (.value L) (.getInt ⟨C.width, BitVec.intMin C.width + C.bits⟩))
  | none, some C =>
    .replace Res
      (if C.bits.toInt < 0 then
        .icmp .sgt (.value L) (.getInt ⟨C.width, C.bits - BitVec.intMin C.width⟩)
      else
        .icmp .slt (.value L) (.getInt ⟨C.width, C.bits - BitVec.intMax C.width⟩))
  | none, none => .keep

/-- `simplifyUSub` -/
def simplifyUSub (L R : Value) : Rewrite :=
  .replace (.binary .sub (.value L) (.value R))
    (if L.isConstant then .icmp .ugt (.value R) (.value L)
    else .icmp .ult (.value L) (.value R))

/-- `simplifySMul` -/
def simplifySMul (L R : Value) : Rewrite :=
  withConstant WriteAsOperand L R fun X C =>
    let Max := .getInt ⟨C.width, (BitVec.intMax C.width).sdiv C.bits⟩
    let Min := .getInt ⟨C.width, (BitVec.intMin C.width).sdiv C.bits⟩
    .replace (.binary .mul (.value X) (.getInt C))
      (if C.bits = 0 then .getFalse
      else if C.bits.toInt < 0 then
        .binary .or (.icmp .slt (.value X) Max) (.icmp .sgt (.value X) Min)
      else
        .binary .or (.icmp .sgt (.value X) Max) (.icmp .slt (.value X) Min))

/-- `simplifyUMul` -/
def simplifyUMul (L R : Value) : Rewrite :=
  withConstant WriteAsOperand L R fun X C =>
    .replace (.binary .mul (.value X) (.getInt C))
      (if C.bits = 0 then .getFalse
      else .icmp .ugt (.value X) (.getInt ⟨C.width, BitVec.allOnes C.width / C.bits⟩))

/-- The dispatch of `runOnFunction` on the intrinsic of a call. -/
def simplify (op : OverflowOp) (L R : Value) : Rewrite :=
  match op with
  | .sadd => simplifySAdd WriteAsOperand L R
  | .uadd => simplifyUAdd WriteAsOperand L R
  | .ssub => simplifySSub L R
  | .usub => simplifyUSub L R
  | .smul => simplifySMul WriteAsOperand L R
  | .umul => simplifyUMul WriteAsOperand L R

end Simplify

/-- A pair of values is what the intrinsic computes: the wrapped result, and
whether the mathematical one does not fit. -/
def Computes {P : Program} (ρ : Env P) (op : OverflowOp) {N : ℕ} (x y : BitVec N)
    (Res Cmp : Built) : Prop :=
  Res.eval ρ = some ⟨N, op.result x y⟩ ∧ Cmp.eval ρ = some (.ofBool (op.overflow x y))

/-- The pair that the users of a call see after the pass. -/
def Rewrite.pair (op : OverflowOp) (L R : Value) : Rewrite → Built × Built
  | keep => (.overflow op 0 (.value L) (.value R), .overflow op 1 (.value L) (.value R))
  | swap => (.overflow op 0 (.value R) (.value L), .overflow op 1 (.value R) (.value L))
  | replace Res Cmp => (Res, Cmp)

/-- What the pass does with a call leaves its users the right pair. -/
def Rewrite.Preserves {P : Program} (ρ : Env P) (op : OverflowOp) (L R : Value) {N : ℕ}
    (x y : BitVec N) (rw : Rewrite) : Prop :=
  Computes ρ op x y (rw.pair op L R).1 (rw.pair op L R).2

section Computes

variable {P : Program} {ρ : Env P} {W : Value → String} {L R X : Value} {op : OverflowOp} {N : ℕ}
  {x y c t : BitVec N} {C : APInt} {b : Bool} {Cmp : Built}

theorem call_computes (hL : ρ.val L = some ⟨N, x⟩) (hR : ρ.val R = some ⟨N, y⟩) :
    Computes ρ op x y (.overflow op 0 (.value L) (.value R))
      (.overflow op 1 (.value L) (.value R)) :=
  ⟨Built.eval_result (A := .value L) (B := .value R) op hL hR,
    Built.eval_overflow (A := .value L) (B := .value R) op hL hR⟩

/-- The plain operation computes the wrapped result, so the pair is right when
the comparison is. -/
theorem plain_computes_iff (hL : ρ.val L = some ⟨N, x⟩) (hR : ρ.val R = some ⟨N, y⟩)
    (hCmp : Cmp.eval ρ = some (.ofBool b)) :
    Computes ρ op x y (.binary (resultOp op) (.value L) (.value R)) Cmp ↔
      b = op.overflow x y := by
  have hRes : (Built.binary (resultOp op) (.value L) (.value R)).eval ρ =
      some ⟨N, op.result x y⟩ := by
    rw [Built.eval_binary (A := .value L) (B := .value R) _ hL hR, eval_resultOp]
    rfl
  unfold Computes
  rw [hCmp]
  constructor
  · rintro ⟨-, h⟩
    exact APInt.ofBool_injective (Option.some.inj h)
  · rintro rfl
    exact ⟨hRes, rfl⟩

/-- The comparison of an operand with a threshold. -/
theorem eval_threshold (pred : ICmpPredicate) (hX : ρ.val X = some ⟨N, x⟩) :
    (Built.icmp pred (.value X) (.getInt ⟨N, t⟩)).eval ρ = some (.ofBool (pred.eval x t)) :=
  Built.eval_icmp (A := .value X) pred hX (Built.eval_getInt ρ _)

theorem constInt_val (h : ρ.val (.constInt C) = some ⟨N, c⟩) : C = ⟨N, c⟩ :=
  Option.some.inj ((ρ.constInt C).symm.trans h)

/-! ## Commutative operations -/

/-- The operands of a commutative operation can be exchanged. -/
def Commutative (op : OverflowOp) : Prop :=
  ∀ {w : ℕ} (x y : BitVec w), op.result x y = op.result y x ∧ op.overflow x y = op.overflow y x

/-- Signed addition commutes, its overflow included. -/
theorem sadd_commutative : Commutative .sadd := fun x y => by
  simp [OverflowOp.result, OverflowOp.overflow, Int.add_comm x.toInt]

/-- Unsigned addition commutes, its overflow included. -/
theorem uadd_commutative : Commutative .uadd := fun x y => by
  simp [OverflowOp.result, OverflowOp.overflow, Nat.add_comm x.toNat, Int.add_comm (x.toNat : ℤ)]

/-- Unsigned multiplication commutes, its overflow included. -/
theorem umul_commutative : Commutative .umul := fun x y => by
  simp [OverflowOp.result, OverflowOp.overflow, Nat.mul_comm x.toNat, Int.mul_comm (x.toNat : ℤ)]

/-- A pair for exchanged operands is a pair for the operands. -/
theorem Computes.swap (hop : Commutative op) {Res : Built} (h : Computes ρ op y x Res Cmp) :
    Computes ρ op x y Res Cmp := by
  obtain ⟨hresult, hoverflow⟩ := hop x y
  rwa [Computes, hresult, hoverflow]

/-- Without a constant operand the call keeps its value, in either order of the
operands. -/
theorem orderOperands_preserves (hop : Commutative op) (hL : ρ.val L = some ⟨N, x⟩)
    (hR : ρ.val R = some ⟨N, y⟩) : (orderOperands W L R).Preserves ρ op L R x y := by
  unfold orderOperands
  split
  · exact call_computes hL hR
  · exact (call_computes hR hL).swap hop

/-- The constant and the other operand are the operands, up to their order. -/
theorem constantSide_eq_some (h : constantSide L R = some (X, C)) :
    (X = L ∧ R = .constInt C) ∨ (X = R ∧ L = .constInt C) := by
  unfold constantSide at h
  split at h
  · rename_i D hD
    obtain ⟨rfl, rfl⟩ := Prod.mk.inj (Option.some.inj h)
    exact .inl ⟨rfl, constantInt?_eq_some.mp hD⟩
  · rename_i D hR hD
    obtain ⟨rfl, rfl⟩ := Prod.mk.inj (Option.some.inj h)
    exact .inr ⟨rfl, constantInt?_eq_some.mp hD⟩
  · cases h

theorem constantSide_of_constInt (h : ∃ C, L = .constInt C ∨ R = .constInt C) :
    ∃ X C, constantSide L R = some (X, C) := by
  unfold constantSide
  obtain ⟨C, rfl | rfl⟩ := h
  · cases constantInt? R <;> exact ⟨_, _, rfl⟩
  · exact ⟨_, _, rfl⟩

/-- It is enough to compute the operation on the other operand and the constant. -/
theorem constantSide_computes (hop : Commutative op) (hL : ρ.val L = some ⟨N, x⟩)
    (hR : ρ.val R = some ⟨N, y⟩) (h : constantSide L R = some (X, C)) :
    ∃ x' c : BitVec N, C = ⟨N, c⟩ ∧ ρ.val X = some ⟨N, x'⟩ ∧
      ∀ Res Cmp, Computes ρ op x y Res Cmp ↔ Computes ρ op x' c Res Cmp := by
  rcases constantSide_eq_some h with ⟨rfl, rfl⟩ | ⟨rfl, rfl⟩
  · exact ⟨x, y, constInt_val hR, hL, fun _ _ => Iff.rfl⟩
  · exact ⟨y, x, constInt_val hL, hR, fun _ _ => ⟨.swap hop, .swap hop⟩⟩

end Computes

end Kint.Overflow
