import Kint.Iteration
import Kint.LLVM.Builder
import Kint.LLVM.Insert
import Kint.Sink

/-!
# Calls of `int.sat`

A check is a condition that is computed in front of an instruction, and a call of `int.sat` that
passes the condition, in front of the instruction or at the end of another block.  `IntRewrite`
and `IntLibcalls` insert checks for different instructions; what they have in common is here.

## The state of the rewriting

`Rewrite` has the function as it has been rewritten so far, the calls that were inserted, the
instructions whose flag `nsw` was cleared, and whether anything was changed.  An `IntSatCall`
remembers what it is about and in front of which instruction it stands: the call itself is an
instruction like any other, and the rest is there to state what it does.

## The builder

`Compiler` is what the passes take from the compiler.  `IRBuilder` folds constants and other
trivial operations: it then makes no instruction and returns a value instead (`fold`, in
`create`).  `build` makes the instructions for a condition (`Built`), operands first.

## The insertion

`insertIntSat` asserts that the condition is an `i1`, inserts the call, and gives it the
metadata of the operation and what the search for sinks finds (`Kint.Sink`).  `insertCheck`
builds a condition once and passes it at each of the points, which for a deferred check are the
ends of other blocks.
-/

namespace Kint.IntRewrite

open Iteration

/-- `MDNode *` -/
abbrev MDNode := ℕ

/-- What the passes take from the compiler.

* `fold` is the folder of the builder: a value that it returns instead of an instruction;
* `intSat` is what `getOrInsertFunction` returns for `int.sat`, and `intrinsic` what
  `Intrinsic::getDeclaration` returns;
* `useList` are the instructions that use an instruction, in order;
* `floating` are the binary operators on floating-point numbers among the remaining
  instructions;
* `taint` and `sink` are metadata of the instructions. -/
structure Compiler where
  fold : Program → Opcode → Option Value
  intSat : FuncId
  intrinsic : OverflowOp → ℕ → FuncId
  useList : Program → InstId → List InstId
  floating : InstId → Bool
  taint : InstId → Option MDNode
  sink : InstId → Option MDNode

/-- A call of `int.sat`: the condition that it passes, the instruction that it is about,
the instruction in front of which it is, and its metadata; `check` is what the condition
was built from. -/
structure IntSatCall extends Sink.IntSat MDNode where
  call : InstId
  cond : Value
  check : Built
  about : InstId
  point : InstId
  deriving DecidableEq

/-- The function as it is rewritten, the instructions whose flag `nsw` was cleared, the
inserted calls, and the returned bit. -/
structure Rewrite where
  prog : Program
  cleared : List InstId
  calls : List IntSatCall
  changed : Bool

section Build

variable (C : Compiler)

/-- The type of what the builder makes. -/
def resultTy (Q : Program) : Opcode → Ty
  | .icmp .. => .int 1
  | .binary _ lhs _ => Q.typeOf lhs
  | _ => .other

/-- `Builder->CreateICmp` and others, in front of `ip`. -/
def create (ip : InstId) (op : Opcode) (Q : Program) : Value × Program :=
  match C.fold Q op with
  | some V => (V, Q)
  | none => (.inst Q.insts.length, Q.insertBefore ip (resultTy Q op) op)

/-- `getIntegerBitWidth` -/
def integerBitWidth : Ty → ℕ
  | .int w => w
  | _ => 0

/-- `Builder->CreateCall2` of an intrinsic, and `CreateExtractValue` of the result. -/
def createOverflow (ip : InstId) (op : OverflowOp) (idx : ℕ) (lhs rhs : Value) (Q : Program) :
    Value × Program :=
  let w := integerBitWidth (Q.typeOf lhs)
  let CI : Value := .inst Q.insts.length
  let Q := Q.insertBefore ip .other (.call (.func (C.intrinsic op w)) [lhs, rhs])
  (.inst Q.insts.length,
    Q.insertBefore ip (.int (if idx = 0 then w else 1)) (.extractValue CI idx))

/-- The instructions that the builder makes in front of `ip`. -/
def build (ip : InstId) : Built → Program → Value × Program
  | .value V, Q => (V, Q)
  | .binary op lhs rhs, Q =>
    let (L, Q) := build ip lhs Q
    let (R, Q) := build ip rhs Q
    create C ip (.binary op L R) Q
  | .icmp pred lhs rhs, Q =>
    let (L, Q) := build ip lhs Q
    let (R, Q) := build ip rhs Q
    create C ip (.icmp pred L R) Q
  | .cast op v w, Q =>
    let (V, Q) := build ip v Q
    (.inst Q.insts.length, Q.insertBefore ip (.int w) (.cast op V))
  | .overflow op idx lhs rhs, Q =>
    let (L, Q) := build ip lhs Q
    let (R, Q) := build ip rhs Q
    createOverflow C ip op idx L R Q

/-- `insertIntSat`, in front of `IP`. -/
def insertIntSat (fuel : ℕ) (check : Built) (V : Value) (I IP : InstId) (Bug : String)
    (s : Rewrite) : Except Stop Rewrite :=
  if s.prog.typeOf V = .int 1 then
    let Q := s.prog.insertBefore IP .other (.call (.func C.intSat) [V])
    match Sink.insertIntSat Q C.floating C.taint C.sink (C.useList Q) fuel I Bug with
    | none => .error .fuel
    | some MD => .ok { s with
        prog := Q
        calls := s.calls ++ [{
          toIntSat := MD
          call := s.prog.insts.length
          cond := V
          check := check
          about := I
          point := IP }] }
  else .error .fatal

/-- What `insertIntSat` leaves behind: one more call, with the metadata of the operation. -/
theorem insertIntSat_eq_ok {fuel : ℕ} {check : Built} {V : Value} {I IP : InstId} {Bug : String}
    {s s' : Rewrite} (h : insertIntSat C fuel check V I IP Bug s = .ok s') :
    s.prog.typeOf V = .int 1 ∧ ∃ MD : Sink.IntSat MDNode,
      MD.bug = Bug ∧ s' = { s with
        prog := s.prog.insertBefore IP .other (.call (.func C.intSat) [V])
        calls := s.calls ++ [⟨MD, s.prog.insts.length, V, check, I, IP⟩] } := by
  unfold insertIntSat at h
  split at h
  · rename_i hty
    refine ⟨hty, ?_⟩
    simp only at h
    split at h
    · cases h
    · rename_i MD hMD
      obtain rfl := Except.ok.inj h
      obtain ⟨_, -, rfl⟩ := Option.map_eq_some_iff.mp hMD
      exact ⟨_, rfl, rfl⟩
  · cases h

/-- A check of `I`: the condition is built in front of `I`, and is passed in front of the
instructions `points`, which are looked for after that. -/
def insertCheck (fuel : ℕ) (check : Built) (I : InstId) (Bug : String)
    (points : Program → Except Stop (List InstId)) (s : Rewrite) : Except Stop Rewrite := do
  let (V, Q) := build C I check s.prog
  (← points Q).foldlM (fun s IP => insertIntSat C fuel check V I IP Bug s)
    { s with prog := Q, changed := true }

end Build

end Kint.IntRewrite
