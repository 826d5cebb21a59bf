import Kint.Range.Transfer
import Kint.Range.Termination

/-!
# Ranges of binary operators

For nine of the thirteen operators `visitBinaryOp` computes with the ranges of the operands.
For the remainders it returns the range of the right operand, and for the arithmetic shift and
the exclusive or that of the left one; the result lies there or not (`StaysIn`).

## What is relied on

The operations on ranges belong to the library of the compiler, and `SoundLaws` (in
`Kint.LLVM.Sound`) states what is documented of them: the range of a sum contains the sums, and
so on.  The ranges of the operands are those that `getRange` returns, so a result is said to be
contained for operands in these ranges.

## Main results

* `visitBinaryOp_contains` (in `Kint.Range.Transfer`): operators for which the library is asked.
* `visitBinaryOp_contains_iff`: all of them.  The range that is returned contains the result,
  except for the four operators above, where it does exactly if the result lies in the range of
  one operand.
* `remainder_not_contained`: the remainder of five by three is two, which is not in the range of
  the divisor.  This range is what the pass returns for the remainder.

A remainder by zero has no result, and neither has a shift by the width or more, so that nothing
is claimed for them; with zero as the divisor, `remainder_contains_iff` is about the exclusive
or.
-/

namespace Kint.Range

open Iteration

section Operators

variable {L : Library} {P : Program} {callees : CalleeMap} {taints : TaintMap}
  {s s₁ s₂ : State} {BB : BlockId} {lhs rhs : Value} {LR RR : ConstantRange} {a b c : APInt}

/-- For the operators that are not covered, the result is in the range of the operand that
is returned in its place. -/
def StaysIn (op : BinaryOp) (LR RR : ConstantRange) (c : APInt) : Prop :=
  match op with
  | .urem | .srem => RR.Contains c
  | .ashr | .xor => LR.Contains c
  | _ => True

instance (op : BinaryOp) (LR RR : ConstantRange) (c : APInt) :
    Decidable (StaysIn op LR RR c) := by
  unfold StaysIn
  split <;> infer_instance

/-- The range that `visitBinaryOp` returns contains the result of the operation, except
where an operand's range is returned and the result is not in it. -/
theorem visitBinaryOp_contains_iff (hS : L.ranges.SoundLaws) (op : BinaryOp)
    (hl : getRange L P callees taints BB lhs s = .ok (LR, s₁))
    (hr : getRange L P callees taints BB rhs s₁ = .ok (RR, s₂)) (ha : LR.Contains a)
    (hb : RR.Contains b) (hc : binaryValue op a b = some c) :
    ∃ CR, visitBinaryOp L P callees taints BB op lhs rhs s = .ok (CR, s₂) ∧
      (CR.Contains c ↔ StaysIn op LR RR c) := by
  cases hop : covered op with
  | true =>
    obtain ⟨CR, h, hCR⟩ := visitBinaryOp_contains hS hop hl hr ha hb hc
    refine ⟨CR, h, iff_of_true hCR ?_⟩
    cases op with
    | urem | srem | ashr | xor => cases hop
    | _ => trivial
  | false =>
    -- the range of an operand is returned
    obtain ⟨hwa, hwb⟩ := binaryValue_width hc
    have hw : RR.width = LR.width := by rw [← hb.width_eq, ← ha.width_eq, hwa, hwb]
    refine ⟨_, Query.bind_eq_ok.mpr ⟨LR, s₁, hl, Query.bind_eq_ok.mpr
      ⟨RR, s₂, hr, Query.pure_eq_ok.mpr ⟨rfl, rfl⟩⟩⟩, ?_⟩
    rw [convert_of_width hw]
    cases op with
    | urem | srem | ashr | xor => exact Iff.rfl
    | _ => cases hop

end Operators

/-- The loop of `tick` is entered with five. -/
def fiveTicks : State := { State.init with intRanges := fun _ => some (.ofAPInt (.ofNat 32 5)) }

/-- `5 % 3` is not in the range that is returned for it. -/
theorem remainder_not_contained : ∃ LR s₁ RR s₂ CR s₃,
    getRange .reference tickProgram (fun _ => none) .init 0 (.inst 0) fiveTicks = .ok (LR, s₁) ∧
    getRange .reference tickProgram (fun _ => none) .init 0 (.constInt (.ofNat 32 3)) s₁ =
      .ok (RR, s₂) ∧
    LR.Contains (.ofNat 32 5) ∧ RR.Contains (.ofNat 32 3) ∧
    binaryValue .urem (.ofNat 32 5) (.ofNat 32 3) = some (.ofNat 32 2) ∧
    visitBinaryOp .reference tickProgram (fun _ => none) .init 0 .urem (.inst 0)
      (.constInt (.ofNat 32 3)) fiveTicks = .ok (CR, s₃) ∧
    ¬ CR.Contains (.ofNat 32 2) :=
  ⟨_, _, _, _, _, _, rfl, rfl, by decide, by decide, by decide, rfl, by decide⟩

/-- Five and zero, with an exclusive or: the result is in the range of the left operand. -/
theorem remainder_contains_iff : ∃ CR s₁,
    visitBinaryOp .reference tickProgram (fun _ => none) .init 0 .xor (.inst 0)
      (.constInt (.ofNat 32 0)) fiveTicks = .ok (CR, s₁) ∧ CR.Contains (.ofNat 32 5) := by
  obtain ⟨CR, hCR, hiff⟩ := visitBinaryOp_contains_iff (P := tickProgram) (a := .ofNat 32 5)
    (b := .ofNat 32 0) (c := .ofNat 32 5) RangeOps.reference_soundLaws .xor
    (rfl : getRange .reference tickProgram (fun _ => none) .init 0 (.inst 0) fiveTicks = .ok (_, _))
    (rfl : getRange .reference tickProgram (fun _ => none) .init 0 (.constInt (.ofNat 32 0)) _ =
      .ok (_, _))
    (by decide) (by decide) (by decide)
  exact ⟨CR, _, hCR, hiff.mpr (by decide)⟩

end Kint.Range
