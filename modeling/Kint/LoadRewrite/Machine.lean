import Kint.LoadRewrite.Pass

/-!
# Executions before and after `hoist`

One machine runs both programs: the operands of an instruction are read through a parameter, as
what their names hold (`original`), or as what `hoist` put in their place (`rewritten`).  Next
to what both programs have, a state has the value of the inserted load and the variable of
`SSAUpdater`, which no instruction of the original program reads: the variable is set at the end
of a block where a value is available, and a use that was rewritten reads what is live into its
block, or, at a phi node, out of the incoming block.  What an instruction computes, and which
way a terminator goes, are parameters, apart from loads and stores.

## The parts

* `Language`: the parameter: how an address is computed, and what an instruction other than a
  load or a store does with its operands and the memory.
* `State`, `Step`, `start`: the machine.  The memory is a function of an address and a type, and
  an instruction may modify any of it.
* `CellStep`, `Runs`: the runs that `LoadRewrite` counts on: the expression for a pointer is the
  address it stands for, and the cell is modified only by a store of its type to its address.
* `Receives`: what is to be shown of a step: the uses of loads of the cell receive what the
  loads have read.
* `Above`, `DefinedAt`, `AvailableAt`, `WellFormed`: dominance, and what the verifier checks of
  the function.  Dominance is that of `Kint.Digraph`, over the edges of the function.

`SSAUpdater` is not modelled by the phi nodes that it inserts but by what it is documented to
do: a use reads the value that was last made available on the way to it, and that is what the
variable of the state is.
-/

namespace Kint.LoadRewrite

/-- What the language says about addresses and instructions: `exec` relates an
instruction, its operands and the memory to its result and the memory after it. -/
structure Language (Val : Type) where
  addOffset : Val → APInt → Val
  exec : InstId → List Val → (Val → Ty → Val) → Val → (Val → Ty → Val) → Prop
  goes : InstId → List Val → BlockId → Prop

/-- A state: the current block, its instructions that ran and that did not, what the
names and the memory hold, the value of the inserted load, the variable of
`SSAUpdater`, and what the cell held when the block was entered. -/
structure State (Val : Type) where
  block : BlockId
  done : List Item
  rest : List Item
  env : Value → Val
  mem : Val → Ty → Val
  ld : Val
  var : Option Val
  entryCell : Val

section Machine

variable {Val : Type} (L : Language Val) (P : Program) (scev : InstId → SCEV) (H : Target)
  (subst : Value → Source) (available : List (BlockId × Source))

/-- The pointer operand of a load or store. -/
def pointerOperand (i : InstId) : Option Value :=
  match (P.inst i).op with
  | .load pointer _ => some pointer
  | .store _ pointer => some pointer
  | _ => none

/-- What an instruction computes. -/
def Effect (i : InstId) (vals : List Val) (mem : Val → Ty → Val) (x : Val)
    (mem' : Val → Ty → Val) : Prop :=
  match (P.inst i).op, vals with
  | .load _ false, [p] => x = mem p (P.inst i).ty ∧ mem' = mem
  -- what other cells overlap is left open
  | .store value _, [v, p] => mem' p (P.typeOf value) = v
  | _, _ => L.exec i vals mem x mem'

/-- The address of the cell. -/
def address (env : Value → Val) : Val :=
  match H.Offset with
  | none => env H.BaseV
  | some c => L.addOffset (env H.BaseV) c

/-- What the cell holds. -/
def cell (s : State Val) : Val := s.mem (address L H s.env) H.T

/-! ## Operands -/

/-- The value of an operand of the rewritten program. -/
def sourceValue (s : State Val) : Source → Val
  | .value V => s.env V
  | .loadV => s.ld

/-- The variable at the end of a block. -/
def varEnd (s : State Val) : Option Val :=
  match available.lookup s.block with
  | some V => some (sourceValue s V)
  | none => s.var

/-- The use is rewritten by `SSAUpdater`: after the scan, its operand is still a load
of the cell. -/
def viaSSA (U : Value) : Bool :=
  match subst U with
  | .value (.inst I) => isLoadOf P scev H I
  | _ => false

/-- How operands are read, in the middle of a block and at its end. -/
structure Reader (Val : Type) where
  mid : State Val → Value → Option Val
  fin : State Val → Value → Option Val

/-- The operands of the original program. -/
def original : Reader Val where
  mid s U := some (s.env U)
  fin s U := some (s.env U)

/-- The operands of the rewritten program. -/
def rewritten : Reader Val where
  mid s U := if viaSSA P scev H subst U then s.var else some (sourceValue s (subst U))
  fin s U :=
    if viaSSA P scev H subst U then varEnd available s else some (sourceValue s (subst U))

/-! ## Steps -/

/-- The state after an instruction with result `x`. -/
def State.ran (s : State Val) (i : InstId) (rest : List Item) (x : Val)
    (mem : Val → Ty → Val) : State Val :=
  { s with
    done := s.done ++ [.inst i]
    rest := rest
    env := Function.update s.env (.inst i) x
    mem := mem }

/-- The state after the inserted load. -/
def State.loaded (s : State Val) (rest : List Item) (x : Val) : State Val :=
  { s with
    done := s.done ++ [.loadV]
    rest := rest
    ld := x }

/-- The state after the edge to `BB`. -/
def enter (s : State Val) (BB : BlockId) (env : Value → Val) : State Val :=
  { s with
    block := BB
    done := (phis P BB).map .inst
    rest := bodyItems P H BB
    env := env
    var := varEnd available s
    entryCell := s.mem (address L H env) H.T }

/-- One step: an instruction of the original program, the inserted load, or an edge. Operands are
read through `R`, so that the same relation describes both programs; the inserted load is a step of
both of them. -/
inductive Step (R : Reader Val) : State Val → State Val → Prop
  | exec {s : State Val} {i : InstId} {rest : List Item} {vals : List Val} {x : Val}
      {mem' : Val → Ty → Val} :
      s.rest = .inst i :: rest → (P.inst i).op.operands.mapM (R.mid s) = some vals →
      Effect L P i vals s.mem x mem' → Step R s (s.ran i rest x mem')
  | load {s : State Val} {rest : List Item} : s.rest = .loadV :: rest →
      Step R s (s.loaded rest (cell L H s))
  | edge {s : State Val} {BB : BlockId} {vals : List Val} {env : Value → Val} :
      s.rest = [] →
      (P.inst (P.block s.block).term).op.operands.mapM (R.mid s) = some vals →
      L.goes (P.block s.block).term vals BB → Edge P s.block BB →
      (∀ i ∈ phis P BB, ∀ incoming V, (P.inst i).op = .phi incoming →
        incomingValue? incoming s.block = some V → R.fin s V = some (env (.inst i))) →
      (∀ V, (∀ i ∈ phis P BB, V ≠ .inst i) → env V = s.env V) →
      Step R s (enter L P H available s BB env)

/-- The state in which a run starts. -/
def start (env : Value → Val) (mem : Val → Ty → Val) (ld : Val) : State Val where
  block := H.entry
  done := (phis P H.entry).map .inst
  rest := bodyItems P H H.entry
  env := env
  mem := mem
  ld := ld
  var := none
  entryCell := mem (address L H env) H.T

/-- A step of the original program in which the cell is modified only by a store of
its type to its address, and in which the expressions for pointer operands are right. -/
structure CellStep (s s' : State Val) : Prop where
  step : Step L P H available original s s'
  only : ∀ i rest, s.rest = .inst i :: rest → storeOf P scev H i = none →
    s'.mem (address L H s.env) H.T = cell L H s
  scev : ∀ i rest pointer, s.rest = .inst i :: rest → pointerOperand P i = some pointer →
    scev i = H.S → s.env pointer = address L H s.env

/-- The states of the runs of the original program. -/
def Runs (s₀ s : State Val) : Prop :=
  Relation.ReflTransGen (CellStep L P scev H available) s₀ s

/-! ## Uses of loads -/

/-- The next instruction, or the terminator of the edge, reads the operand. -/
def Reads (s : State Val) (U : Value) : Prop :=
  (∃ i rest, s.rest = .inst i :: rest ∧ U ∈ (P.inst i).op.operands) ∨
    (s.rest = [] ∧ U ∈ (P.inst (P.block s.block).term).op.operands)

/-- A phi node of `BB` reads the operand on the edge to `BB`. -/
def PhiReads (s : State Val) (BB : BlockId) (U : Value) : Prop :=
  s.rest = [] ∧ ∃ i ∈ phis P BB, ∃ incoming, (P.inst i).op = .phi incoming ∧
    incomingValue? incoming s.block = some U

/-- In the step, each use of a load of the cell receives in the rewritten program what
the load has read in the original one. -/
def Receives (s s' : State Val) : Prop :=
  ∀ I, isLoadOf P scev H I = true →
    (Reads P s (.inst I) →
      (rewritten P scev H subst available).mid s (.inst I) = some (s.env (.inst I))) ∧
    (PhiReads P s s'.block (.inst I) →
      (rewritten P scev H subst available).fin s (.inst I) = some (s.env (.inst I)))

/-! ## Well-formed functions -/

/-- The block of an instruction. -/
def Item.home : Item → BlockId
  | .inst i => (P.inst i).parent
  | .loadV => loadBlock P H

/-- The instruction whose result an operand is. -/
def Source.item? : Source → Option Item
  | .value (.inst i) => some (.inst i)
  | .value _ => none
  | .loadV => some .loadV

/-- The block of an instruction strictly dominates `BB`. -/
def Above (BB : BlockId) (x : Item) : Prop :=
  x ∈ items P H (x.home P H) ∧ x.home P H ≠ BB ∧ Dominates P H.entry (x.home P H) BB

/-- An instruction dominates the point in the block before which `done` ran. -/
def DefinedAt (BB : BlockId) (done : List Item) (x : Item) : Prop :=
  Above P H BB x ∨ (x.home P H = BB ∧ x ∈ done)

/-- The definition of an operand dominates the point in the block before which `done`
ran. -/
def AvailableAt (BB : BlockId) (done : List Item) (V : Source) : Prop :=
  ∀ x, V.item? = some x → DefinedAt P H BB done x

/-- What the verifier checks of the function, and that the expression for a pointer
mentions values that are defined where it is used. -/
structure WellFormed : Prop where
  entry_block : (P.func H.F).blocks.head? = some H.entry
  mem_blocks : ∀ BB, Reachable P H.entry BB → BB ∈ (P.func H.F).blocks
  nodup_blocks : (P.func H.F).blocks.Nodup
  inst_parent : ∀ BB ∈ (P.func H.F).blocks, ∀ i ∈ (P.block BB).insts, (P.inst i).parent = BB
  nodup : ∀ BB ∈ (P.func H.F).blocks, (P.block BB).insts.Nodup
  phis_first : ∀ BB, ∀ i ∈ body P BB, (P.inst i).op.isPhi = false
  term : ∀ BB, Reachable P H.entry BB → (P.inst (P.block BB).term).op.isPhi = false
  use : ∀ BB, Reachable P H.entry BB → ∀ pre i post, items P H BB = pre ++ .inst i :: post →
    (P.inst i).op.isPhi = false → ∀ U ∈ (P.inst i).op.operands,
      AvailableAt P H BB pre (.value U)
  incoming : ∀ BB, Reachable P H.entry BB → ∀ i ∈ phis P BB, ∀ incoming,
    (P.inst i).op = .phi incoming → ∀ V Pred, (V, Pred) ∈ incoming →
      AvailableAt P H Pred (items P H Pred) (.value V)
  base_mem : ∀ b, H.BaseV = .inst b → b ∈ (P.block (P.inst b).parent).insts
  base : ∀ BB, Reachable P H.entry BB → ∀ pre i post, items P H BB = pre ++ .inst i :: post →
    (pointerOperand P i).isSome = true → scev i = H.S →
      AvailableAt P H BB pre (.value H.BaseV)

end Machine

end Kint.LoadRewrite
