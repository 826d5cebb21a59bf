import Kint.IntRewrite.ArrayCheck
import Kint.IntRewrite.Calls
import Kint.IntRewrite.Defer

/-!
# `IntRewrite`

The pass goes through the instructions of a function and inserts a check for every addition,
subtraction and multiplication, every division, every shift and every address computation with
an array index.  There is none for the remainders.

## The transcription

* `insertOverflowCalls`: `insertOverflowCheck`.  Where the calls come is computed by
  `insertOverflowCheck` of `Kint.IntRewrite.Defer`: in front of the operation, or at the ends of
  the blocks where its result is observed.  The name of the intrinsic gives the name of the bug
  (`anno`), and a signed operation whose check is deferred loses its flag `nsw`.
* `insertDivCheck`: a division by zero, and for a signed one also the quotient of the minimum by
  `-1`.
* `insertShiftCheck`: a shift by the width or more.
* `insertArrayCalls`: `insertArrayCheck`, with the condition of `Kint.IntRewrite.ArrayCheck`.
* `visit`, `runOnFunction`: the loop.  The source advances its iterator before it rewrites an
  instruction; what is inserted comes in front of the iterator, or is a call of `int.sat`, which
  the loop does nothing about.  So the loop is one over the instructions that were there before
  the pass.

`isObservable` asks the analyses of the compiler about the user of a value; they are fields of
`Config`.
-/

namespace Kint.IntRewrite

open Iteration

/-- The option `-fwrapv`, the flags `nsw` of the function before the pass, and the
analyses: `isLoopExiting` of the block, in its loop if it has one, the test
`isSafeToSpeculativelyExecute`, the dominator tree, and the order in which a `SmallPtrSet`
of blocks is iterated. -/
structure Config extends Compiler where
  WrapOpt : Bool
  hasNoSignedWrap : InstId → Bool
  isLoopExiting : BlockId → Bool
  isSafeToSpeculativelyExecute : Program → InstId → Bool
  dominates : BlockId → BlockId → Bool
  elements : Finset BlockId → List BlockId

/-- `getOpcodeName` -/
def getOpcodeName : BinaryOp → String
  | .add => "add"
  | .sub => "sub"
  | .mul => "mul"
  | .udiv => "udiv"
  | .sdiv => "sdiv"
  | .urem => "urem"
  | .srem => "srem"
  | .shl => "shl"
  | .lshr => "lshr"
  | .ashr => "ashr"
  | .and => "and"
  | .or => "or"
  | .xor => "xor"

/-- `llvm.[s|u][add|sub|mul].with.overflow.*`: four letters from the fifth on. -/
def anno (name : String) : String := String.ofList ((name.toList.drop 5).take 4)

/-- The instruction of an insertion point. -/
def InsertPoint.inst (Q : Program) : InsertPoint → InstId
  | before i => i
  | terminator BB => (Q.block BB).term

section Pass

variable (C : Config)

/-- `isObservable` of an instruction: `indirectbr` has destinations, the other terminators
that are kept together with it have none. -/
def isObservable (Q : Program) (I : InstId) : Bool :=
  match (Q.inst I).op with
  | .br _ | .condBr .. | .switch .. | .otherTerm _ (_ :: _) => C.isLoopExiting (Q.inst I).parent
  -- observable if unsafe to speculately execute
  | _ => !C.isSafeToSpeculativelyExecute Q I

namespace Rewrite

/-- `insertOverflowCheck`, with the operations of the two intrinsics: the calls at the points
that `IntRewrite.insertOverflowCheck` finds. -/
def insertOverflowCalls (fuel : ℕ) (s : Rewrite) (I : InstId) (SID UID : OverflowOp)
    (L R : Value) : Except Stop Rewrite :=
  -- skip pointer subtraction
  if isPtrToInt s.prog L || isPtrToInt s.prog R then .ok s
  else
    match s.prog.typeOf (.inst I) with
    | .int w =>
      let hasNSW := C.hasNoSignedWrap I
      let ID := if hasNSW then SID else UID
      insertCheck C.toCompiler fuel (.overflow ID 1 (.value L) (.value R)) I
        (anno (s.prog.func (C.intrinsic ID w)).name)
        (fun Q => do
          let c ← IntRewrite.insertOverflowCheck Q (C.useList Q) (isObservable C Q) C.dominates
            C.WrapOpt C.hasNoSignedWrap C.elements fuel I
          return c.points.map (·.inst Q))
        -- clear the flag given -fwrapv
        { s with cleared := if hasNSW && C.WrapOpt then I :: s.cleared else s.cleared }
    | _ => .error .fatal

/-- The condition of `insertDivCheck`, with the width of the operands. -/
def divCondition (op : BinaryOp) (L R : Value) (w : ℕ) : Built :=
  -- `R == 0`
  let V : Built := .icmp .eq (.value R) (.getInt (.ofNat w 0))
  match op with
  -- `L == INT_MIN && R == -1`
  | .sdiv => .binary .or V (.binary .and
      (.icmp .eq (.value L) (.getInt ⟨w, .intMin w⟩))
      (.icmp .eq (.value R) (.getInt ⟨w, .allOnes w⟩)))
  | _ => V

/-- `insertDivCheck` -/
def insertDivCheck (fuel : ℕ) (s : Rewrite) (I : InstId) (op : BinaryOp) (L R : Value) :
    Except Stop Rewrite :=
  match s.prog.typeOf (.inst I) with
  | .int w => insertCheck C.toCompiler fuel (divCondition op L R w) I (getOpcodeName op)
      (fun _ => .ok [I]) s
  | _ => .error .fatal

/-- `insertShiftCheck` -/
def insertShiftCheck (fuel : ℕ) (s : Rewrite) (I : InstId) (op : BinaryOp) (Amount : Value) :
    Except Stop Rewrite :=
  match s.prog.typeOf Amount with
  | .int w => insertCheck C.toCompiler fuel
      (.icmp .uge (.value Amount) (.getInt (.ofNat w w))) I (getOpcodeName op)
      (fun _ => .ok [I]) s
  | _ => .error .fatal

/-- `insertArrayCheck`: the call with the condition of `IntRewrite.insertArrayCheck`. -/
def insertArrayCalls (fuel : ℕ) (s : Rewrite) (I : InstId) : Except Stop Rewrite := do
  match ← IntRewrite.insertArrayCheck s.prog I with
  | none => return s
  | some V => insertCheck C.toCompiler fuel V I "array" (fun _ => .ok [I]) s

/-- The body of the loop of `runOnFunction`. -/
def visit (fuel : ℕ) (s : Rewrite) (I : InstId) : Except Stop Rewrite :=
  match (s.prog.inst I).op with
  | .binary .add L R => s.insertOverflowCalls C fuel I .sadd .uadd L R
  | .binary .sub L R => s.insertOverflowCalls C fuel I .ssub .usub L R
  | .binary .mul L R => s.insertOverflowCalls C fuel I .smul .umul L R
  | .binary .sdiv L R => s.insertDivCheck C fuel I .sdiv L R
  | .binary .udiv L R => s.insertDivCheck C fuel I .udiv L R
  | .binary .shl _ R => s.insertShiftCheck C fuel I .shl R
  | .binary .lshr _ R => s.insertShiftCheck C fuel I .lshr R
  | .binary .ashr _ R => s.insertShiftCheck C fuel I .ashr R
  | .gep .. => s.insertArrayCalls C fuel I
  | _ => .ok s

end Rewrite

/-- `IntRewrite::runOnFunction`: what is inserted is in front of the iterator, or is a
call, which the loop skips. -/
def runOnFunction (fuel : ℕ) (P : Program) (F : FuncId) : Except Stop Rewrite :=
  (P.instsOf F).foldlM (fun s I => s.visit C fuel I) ⟨P, [], [], false⟩

end Pass

end Kint.IntRewrite
