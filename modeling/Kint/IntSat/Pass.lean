import Kint.CmpSat
import Kint.Once

/-!
# `IntSat`

`IntSat` asks the solver for each call of `int.sat` whether the condition that is passed can be
true when the path condition of the block is; here the path condition is the one without a
dominator tree.  A condition that was found satisfiable is not asked for again.  With a time
limit, each query runs in a child process that a timer may kill; the status of the child stands
for the answer.

## The transcription

* `operands`: the condition and the path condition, from empty tables.  Which of the two is made
  first is left open by the language, so both orders are allowed (`Config`).
* `query`: `IntSat::query`: the assertion about the width of the condition, the query, and the
  model.
* `child`, `SMTJoin`, `forkJoin`: the two processes.  The child reports what it finds, and ends
  with the status as its exit code; the parent reads this code, or finds that the child was
  killed.
* `suspect`, `check`: `IntSat::check`.  Constants, calls without location and calls without
  `bug` metadata are passed over; a condition in `ReportedBugs` is not asked for again.
* `runOnFunction`, `runOnModule`: the loops.

The solver is a parameter, and so is the timer of each child: whether it runs out, and if so,
before or after the report of the child.
-/

namespace Kint

open Iteration Memo SMT PathGen ValueGen

/-- The number of a status. -/
def SMTStatus.toInt : SMTStatus → ℤ
  | .timeout => -1
  | .undef => 0
  | .unsat => 1
  | .sat => 2

/-- The solver: the answer to a query, for the formulas that are assumed, and the model
of a satisfiable one. -/
structure Solver where
  query : List (Term Value 1) → Term Value 1 → SMTStatus
  model : List (Term Value 1) → Term Value 1 → Assignment Value

namespace IntSat

/-! ## Processes -/

/-- What the timer of a child does: it does not run down before the child exits, or it kills the
child before or after the report, with its model, was printed.  A timer that strikes while these
are being printed, and leaves a part of them in the output, is left out. -/
inductive Timer
  | spares
  | strikes (answered : Bool)
  deriving DecidableEq

/-- The status that `waitpid` stores. -/
inductive WaitStatus
  | exited (code : ℕ)
  | signaled
  deriving DecidableEq

/-- The code with which `_exit(*status)` ends: the low eight bits. -/
def exitCode (r : SMTStatus) : ℕ := (r.toInt % 256).toNat

/-- The child process: the answer that it gives before it ends, if any, and its status.
It ends by a signal when an assertion fails.  A query that needs more fuel is not
described. -/
def child {α : Type} (t : Timer) (q : Except Stop (SMTStatus × α)) :
    Except Stop (Option (SMTStatus × α) × WaitStatus) :=
  match t, q with
  | .strikes false, _ => .ok (none, .signaled)
  | _, .error .fuel => .error .fuel
  | _, .error .fatal => .ok (none, .signaled)
  | .strikes true, .ok r => .ok (some r, .signaled)
  | .spares, .ok r => .ok (some r, .exited (exitCode r.1))

/-- `SMTJoin` in the parent process. -/
def SMTJoin : WaitStatus → ℤ
  | .exited code => code
  | .signaled => -1

/-- From `SMTFork` to `SMTJoin`: the answer that was given, if any, and `SMTRes`.
Without a time limit the query is made in the process itself. -/
def forkJoin {α : Type} (SMTTimeoutOpt : ℕ) (t : Timer) (q : Except Stop (SMTStatus × α)) :
    Except Stop (Option (SMTStatus × α) × ℤ) :=
  if SMTTimeoutOpt = 0 then do
    let r ← q
    return (some r, r.1.toInt)
  else do
    let (answer, status) ← child t q
    return (answer, SMTJoin status)

/-! ## The pass -/

/-- The options, the solver, and what is known of a call next to its operands: the timer
of its child process, whether its `DebugLoc` is unknown, and its `bug` metadata.  The
order in which the two operands of the query are made is not fixed by the language. -/
structure Config where
  SMTTimeoutOpt : ℕ
  SMTModelOpt : Bool
  solver : Solver
  valueFirst : Bool
  timer : InstId → Timer
  isUnknown : InstId → Bool
  bug : InstId → Option String

/-- A report: the call, the `bug` metadata, and the model, if it is printed. -/
structure BugReport where
  call : InstId
  bug : String
  model : Value → Option APInt

/-- `ReportedBugs`, and the output. -/
structure Reports where
  ReportedBugs : List Value
  out : List BugReport

section Pass

variable (DL : DataLayout) (P : Program)
  (intrange : InstId → Option (List (APInt × APInt)))
  (Backedges : List (BlockId × BlockId)) (C : Config)

/-- The operands of the query, in the order in which they are made: the condition that is
passed and the path condition, and the tables after that. -/
def operands (fuel : ℕ) (V : Value) (BB : BlockId) :
    Except Stop (Term Value 1 × Term Value 1 × PathGen.State) :=
  if C.valueFirst then do
    let (E, s) ← PathGen.get DL P intrange Backedges none fuel (.inl V) .init
    let (G, s) ← PathGen.get DL P intrange Backedges none fuel (.inr BB) s
    return (← E.formula, ← G.formula, s)
  else do
    let (G, s) ← PathGen.get DL P intrange Backedges none fuel (.inr BB) .init
    let (E, s) ← PathGen.get DL P intrange Backedges none fuel (.inl V) s
    return (← E.formula, ← G.formula, s)

/-- The model as it is printed: the values in the table of `ValueGen`, without the
constants. -/
def printedModel (s : PathGen.State) (σ : Assignment Value) (V : Value) : Option APInt :=
  if V.isConstant then none else (s.cache (.inl V)).map fun E => E.eval σ

/-- `IntSat::query`: the status, and the model if there is one and it is to be printed. -/
def query (fuel : ℕ) (V : Value) (I : InstId) :
    Except Stop (SMTStatus × (Value → Option APInt)) := do
  let (ValuePred, PathPred, s) ← operands DL P intrange Backedges C fuel V (P.inst I).parent
  let Query := Term.bvand ValuePred PathPred
  return (C.solver.query s.out Query,
    if C.SMTModelOpt then printedModel s (C.solver.model s.out Query) else fun _ => none)

/-- The condition that a call passes, if it is to be checked: it is no constant, and the
location and the `bug` metadata are there. -/
def suspect (I : InstId) : Except Stop (Option (Value × String)) :=
  match (P.inst I).op with
  | .call _ (V :: _) =>
    if P.typeOf V = .int 1 then
      if (constantInt? V).isSome then .ok none
      else if C.isUnknown I then .ok none
      else .ok ((C.bug I).map fun Bug => (V, Bug))
    else .error .fatal
  | _ => .error .fatal

/-- `IntSat::check` -/
def check (fuel : ℕ) (s : Reports) (I : InstId) : Except Stop Reports := do
  match ← suspect P C I with
  | none => return s
  | some (V, Bug) =>
    if V ∈ s.ReportedBugs then return s
    else do
      let (answer, SMTRes) ←
        forkJoin C.SMTTimeoutOpt (C.timer I) (query DL P intrange Backedges C fuel V I)
      return {
        ReportedBugs :=
          -- save to suppress further warnings
          if SMTRes = SMTStatus.toInt .sat then V :: s.ReportedBugs else s.ReportedBugs
        out := match answer with
          | some (.sat, model) => s.out ++ [⟨I, Bug, model⟩]
          | _ => s.out }

/-- `IntSat::runOnFunction` -/
def runOnFunction (Trap : FuncId) (fuel : ℕ) (F : FuncId) : Except Stop (List BugReport) := do
  let s ← ((P.instsOf F).filter fun I => P.calledFunction I = some Trap).foldlM
    (check DL P intrange Backedges C fuel) ⟨[], []⟩
  return s.out

end Pass

/-- `IntSat::runOnModule` -/
def runOnModule (DL : DataLayout) (P : Program)
    (intrange : InstId → Option (List (APInt × APInt)))
    (findFunctionBackedges : FuncId → List (BlockId × BlockId)) (C : Config) (fuel : ℕ)
    (M : Module) : Except Stop (List BugReport) :=
  match M.functions.find? fun F => (P.func F).name = "int.sat" with
  | none => .ok []
  | some Trap => do
    let reports ← (M.functions.filter fun F => !(P.func F).empty).mapM fun F =>
      runOnFunction DL P intrange (findFunctionBackedges F) C Trap fuel F
    return reports.flatten

end IntSat

end Kint
