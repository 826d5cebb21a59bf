import Kint.Iteration
import Kint.LLVM.IR

/-!
# `CmpOverflow`

The pass looks for broken overflow checks.  From the arguments of calls it collects sums `A + X
* B` with constants `A` and `B`, and then it looks for comparisons of such an `X` with a
constant that is not the right bound `(UMAX - A) / B`, and for comparisons of a product with one
of its factors.  The transcription follows `CmpOverflow.cc` function by function.

The expressions that the pass matches are those of the compiler's scalar evolution analysis.  It
keeps them unique, so a `const SCEV *` is an index here, and pointer equality is equality of
indices.

## Where the transcription keeps the behaviour of the source

* `collectAll` goes through the call sites of a function before `checkAll` looks at a
  comparison, and each sum replaces the one that the map has for the same `X`.
* `checkAxB` asks for the constant on one side, exchanges the sides if it is on the left, and
  compares it with the three bounds in the order of the source.  A comparison of constants of
  different widths and a division by zero fail an assertion.
* `checkXY` computes a status and returns another one: its result is always the null pointer.
* A comparison is reported with the status of the first check that has one.
-/

namespace Kint.CmpOverflow

open Iteration

/-- `const SCEV *` -/
abbrev SCEVId := ℕ

/-- The expressions that the pass looks into. -/
inductive SCEV
  | constant (c : APInt)
  | add (operands : List SCEVId)
  | mul (operands : List SCEVId)
  | zeroExtend (operand : SCEVId)
  | other
  deriving DecidableEq

/-- `isa<SCEVConstant>` -/
def SCEV.isConstant : SCEV → Bool
  | constant _ => true
  | _ => false

/-- `ScalarEvolution`, as far as the pass calls it; `node` is what a pointer to an
expression points to. -/
structure ScalarEvolution where
  isSCEVable : Ty → Bool
  getSCEV : Value → SCEVId
  node : SCEVId → SCEV
  getType : SCEVId → Ty

/-- `CmpStatus`: the mode that a report names, and a null pointer is `none`. -/
inductive CmpStatus
  | axb0 | axb1 | xyX | xyExt
  deriving DecidableEq

/-- `DenseMap<const SCEV *, AxBTy>`: the `A` and `B` of an `X`. -/
abbrev AxBMap := SCEVId → Option (APInt × APInt)

section Pass

variable (SE : ScalarEvolution) (P : Program)

/-- The `X`, `A` and `B` of an expression `A + X * B`. -/
def matchAxB (S : SCEVId) : Option (SCEVId × APInt × APInt) :=
  match SE.node S with
  | .add [a, m] =>
    match SE.node a, SE.node m with
    | .constant A, .mul [b, X] =>
      match SE.node b with
      | .constant B => some (X, A, B)
      | _ => none
    | _, _ => none
  | _ => none

/-- One argument of a call in `collect`. -/
def collectArg (AxBs : AxBMap) (V : Value) : AxBMap :=
  if SE.isSCEVable (P.typeOf V) then
    match matchAxB SE (SE.getSCEV V) with
    | some (X, A, B) => Function.update AxBs X (some (A, B))
    | none => AxBs
  else AxBs

/-- `collect` -/
def collect (AxBs : AxBMap) (args : List Value) : AxBMap :=
  args.foldl (collectArg SE P) AxBs

/-- The bound `C` of a test `x <= C` for the sum `A + x * B`, as `checkAxB` judges
it. -/
def checkBound {n : ℕ} (A B C : BitVec n) : Option CmpStatus :=
  let Max := BitVec.allOnes n
  if C = (Max - A).udiv B then none
  else
    let C0 := Max.udiv B
    if C = C0 then some .axb0
    else
      let C1 := C0 - A
      if C = C1 then some .axb1 else none

/-- The operands of `checkAxB`, the constant second. -/
def constantRight (L R : SCEVId) : SCEVId × SCEVId :=
  if (SE.node L).isConstant then (R, L) else (L, R)

/-- `checkAxB`.  Constants of different widths and a division by zero fail an
assertion of `APInt`. -/
def checkAxB (AxBs : AxBMap) (L R : SCEVId) : Except Stop (Option CmpStatus) :=
  match SE.getType L with
  | .int n =>
    match SE.node (constantRight SE L R).2 with
    | .constant C =>
      match AxBs (constantRight SE L R).1 with
      | some (A, B) =>
        if h : A.width = n ∧ B.width = n ∧ C.width = n then
          if B.bits = 0 then .error .fatal
          else .ok (checkBound (A.bits.cast h.1) (B.bits.cast h.2.1) (C.bits.cast h.2.2))
        else .error .fatal
      | none => .ok none
    | _ => .ok none
  | _ => .ok none

/-- `checkMul` -/
def checkMul (MS S : SCEVId) : Option CmpStatus :=
  match SE.node MS with
  | .zeroExtend operand =>
    match SE.node operand with
    | .mul _ => some .xyExt
    | _ => none
  | .mul [a, b] => if S = a ∨ S = b then some .xyX else none
  | _ => none

/-- `checkXY`: the status that it computes is not the one it returns. -/
def checkXY (L R : SCEVId) : Option CmpStatus :=
  let _Status := (checkMul SE L R).or (checkMul SE R L)
  none

/-- `check`; the result is the status that is reported. -/
def check (AxBs : AxBMap) (lhs rhs : Value) : Except Stop (Option CmpStatus) := do
  let L := SE.getSCEV lhs
  let R := SE.getSCEV rhs
  let Status ← checkAxB SE AxBs L R
  return Status.or (checkXY SE L R)

/-- The loop over the call sites of a function. -/
def collectAll (AxBs : AxBMap) (is : List InstId) : AxBMap :=
  is.foldl (fun AxBs i =>
    match (P.inst i).op with
    | .call _ args | .invoke _ args _ _ => collect SE P AxBs args
    | _ => AxBs) AxBs

/-- The loop over the comparisons of a function: the reports. -/
def checkAll (AxBs : AxBMap) : List InstId → Except Stop (List (InstId × CmpStatus))
  | [] => .ok []
  | i :: is => do
    let Status ←
      match (P.inst i).op with
      | .icmp _ lhs rhs => check SE AxBs lhs rhs
      | _ => .ok none
    let reports ← checkAll AxBs is
    return (Status.map (Prod.mk i)).toList ++ reports

/-- `runOnFunction`: the reports, and the map that it leaves. -/
def runOnFunction (AxBs : AxBMap) (F : FuncId) :
    Except Stop (List (InstId × CmpStatus) × AxBMap) := do
  let reports ← checkAll SE P (collectAll SE P AxBs (P.instsOf F)) (P.instsOf F)
  return (reports, fun _ => none)

end Pass

end Kint.CmpOverflow
