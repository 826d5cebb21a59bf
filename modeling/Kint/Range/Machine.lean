import Kint.LLVM.SSA
import Kint.Range.Visit

/-!
# Executions of the linked program

A machine that runs activations of the functions of all modules in any interleaving, on one
memory.  It allows more than the program does: a call returns any value, an activation may start
at any time with any arguments, and a store leaves open what it does to other cells; so code
outside of the modules is included.  Names hold integers or addresses.

Next to what a program has, a state says which values the analysis follows.  A name is followed
if its value was computed from followed ones by operators that the analysis covers, or if it was
read under an identifier under which a followed value was written before; `written` collects
these writes.

## Why some values are not followed

The analysis promises nothing about a value that comes from somewhere it does not look: what an
unknown function returns, what a loop carries over its back edge, the results of remainders, and
what a terminator compares when it is an argument.  A value that is not followed makes no
promise, and what is computed from it is not followed either.  Each clause of `FollowsResult`
and `Starts` belongs to one visitor of the pass.

## The form of functions

`SSAForm` is what the verifier of the compiler checks.  `Layout` is the order of blocks in which
a single visit meets predecessors first: an edge that is no back edge leads to a later block,
and every block but the entry has such an edge to it.
-/

namespace Kint.Range

/-- An activation of a function: the current block, the instructions of it that did not
run yet, what the names hold, and the names whose values are followed. -/
structure Activation where
  function : FuncId
  block : BlockId
  rest : List InstId
  ints : Value → APInt
  addrs : Value → ℕ
  followed : Value → Prop

/-- A state of the machine: the activations, what the memory holds at an address in a
width, and the followed values that were written under an identifier. -/
structure MachineState where
  activations : List Activation
  mem : ℕ → ℕ → ℕ
  written : String → APInt → Prop

/-- The operators that `visitBinaryOp` does more for than to return an operand. -/
def covered : BinaryOp → Bool
  | .urem | .srem | .ashr | .xor => false
  | _ => true

section Machine

variable (L : Library) (P : Program) (callees : CalleeMap) (taints : TaintMap)
  (modules : List Module) (globalAddress : GlobalId → ℕ)

/-! ## Values -/

/-- `x` is the value of an integer operand; an undefined one may be any. -/
def Activation.HasInt (A : Activation) (V : Value) (x : APInt) : Prop :=
  match V with
  | .constInt c => x = c
  | .inst _ | .argument _ _ => x = A.ints V
  | _ => P.typeOf V = .int x.width

/-- The address that a pointer operand holds. -/
def Activation.address (A : Activation) (V : Value) : ℕ :=
  match V with
  | .global g => globalAddress g
  | V => A.addrs V

/-- The value of an operand is followed. -/
def Activation.Follows (A : Activation) (V : Value) : Prop :=
  match V with
  | .constInt _ => True
  | .inst _ | .argument _ _ => A.followed V
  | _ => False

/-- `x` may be the result of an instruction of type `int w`. -/
def Computes (A : Activation) (mem : ℕ → ℕ → ℕ) (i : InstId) (w : ℕ) (x : APInt) : Prop :=
  x.width = w ∧
    match (P.inst i).op with
    | .binary op lhs rhs =>
      ∃ a b, A.HasInt P lhs a ∧ A.HasInt P rhs b ∧ binaryValue op a b = some x
    | .cast op V =>
      match op with
      | .trunc | .zext | .sext | .bitcast => ∃ a, A.HasInt P V a ∧ castValue op w a = some x
      | _ => True
    | .select cond ifTrue ifFalse =>
      ∃ c, A.HasInt P cond (.ofBool c) ∧ A.HasInt P (if c then ifTrue else ifFalse) x
    | .icmp pred lhs rhs => (P.typeOf lhs).isIntegerTy = true →
      ∃ a b, A.HasInt P lhs a ∧ A.HasInt P rhs b ∧ icmpValue pred a b = some x
    | .load pointer _ => x = .ofNat w (mem (A.address globalAddress pointer) w)
    | _ => True

/-- The result of an instruction is followed. -/
def FollowsResult (A : Activation) (written : String → APInt → Prop) (i : InstId) (x : APInt) :
    Prop :=
  match (P.inst i).op with
  | .binary op lhs rhs => covered op = true ∧ A.Follows lhs ∧ A.Follows rhs
  | .cast op V =>
    match op with
    | .trunc | .zext | .sext | .bitcast => A.Follows V
    | _ => True
  | .select cond ifTrue ifFalse =>
    ∃ c, A.HasInt P cond (.ofBool c) ∧ A.HasInt P (if c then ifTrue else ifFalse) x ∧
      A.Follows (if c then ifTrue else ifFalse)
  | .phi _ => False
  | .load _ _ => getValueId L P (.inst i) ≠ "" ∧
    (taints.isSource (getValueId L P (.inst i)) = true ∨ written (getValueId L P (.inst i)) x)
  | .call _ _ => P.isInlineAsm i = false ∧ ∃ CEEs, callees i = some CEEs ∧ ∃ f ∈ CEEs,
    taints.isSource (getRetId L P f) = true ∨ written (getRetId L P f) x
  | _ => True

/-! ## Writes under identifiers -/

/-- All that the modules write under an identifier has one width. -/
def Uniform (sID : String) : Prop := ∃ N, ∀ w, Written L P callees modules sID w → w = N

/-- The initial values that `collectInitializers` finds. -/
def Initial (sID : String) (x : APInt) : Prop :=
  Uniform L P callees modules sID ∧ ∃ M ∈ modules, (sID, .ofAPInt x) ∈ initializerRanges L P M

/-- The followed values that an instruction writes under an identifier: it stores,
returns or passes them; or it is a call with a followed result `x`. -/
inductive Puts (A : Activation) (i : InstId) (follows : Prop) (x : APInt) :
    String → APInt → Prop
  | store {value pointer : Value} {w : ℕ} {y : APInt} : (P.inst i).op = .store value pointer →
      P.typeOf value = .int w → getValueId L P (.inst i) ≠ "" → A.Follows value →
      A.HasInt P value y → Puts A i follows x (getValueId L P (.inst i)) y
  | ret {V : Value} {w : ℕ} {y : APInt} : (P.inst i).op = .ret (some V) →
      P.typeOf V = .int w → A.Follows V → A.HasInt P V y →
      Puts A i follows x (getRetId L P A.function) y
  | argument {callee : Value} {args : List Value} {CEEs : FuncSet} {f : FuncId}
      {arg : Value × ℕ} {w : ℕ} {y : APInt} : (P.inst i).op = .call callee args →
      P.isInlineAsm i = false → callees i = some CEEs → f ∈ CEEs → skipsCallee P f = false →
      arg ∈ args.zipIdx → P.typeOf arg.1 = .int w → A.Follows arg.1 → A.HasInt P arg.1 y →
      Puts A i follows x (getArgId L P f arg.2) y
  | result {callee : Value} {args : List Value} {CEEs : FuncSet} {w : ℕ} :
      (P.inst i).op = .call callee args → P.isInlineAsm i = false → callees i = some CEEs →
      (P.inst i).ty = .int w → follows → Puts A i follows x (getCallRetId L P i) x

/-- What is written under identifiers after an instruction. -/
def writtenAfter (A : Activation) (i : InstId) (follows : Prop) (x : APInt)
    (written : String → APInt → Prop) (sID : String) (y : APInt) : Prop :=
  written sID y ∨ (Uniform L P callees modules sID ∧ Puts L P callees A i follows x sID y)

/-- What an instruction does to the memory. -/
def MemAfter (A : Activation) (mem mem' : ℕ → ℕ → ℕ) (i : InstId) : Prop :=
  match (P.inst i).op with
  | .store value pointer => ∀ w, P.typeOf value = .int w →
    ∃ y, A.HasInt P value y ∧ mem' (A.address globalAddress pointer) w = y.toNat
  | .call _ _ => True
  | .other _ => True
  | _ => mem' = mem

/-! ## Steps -/

/-- The terminator chooses its `k`-th successor. -/
def Activation.Takes (A : Activation) (op : Opcode) (k : ℕ) : Prop :=
  match op, k with
  | .condBr cond _ _, 0 => A.HasInt P cond (.ofBool true)
  | .condBr cond _ _, _ + 1 => A.HasInt P cond (.ofBool false)
  | .switch cond _ cases, 0 => ∃ x, A.HasInt P cond x ∧ ∀ c ∈ cases, c.1 ≠ x
  | .switch cond _ cases, k + 1 => ∃ c, cases[k]? = some c ∧ A.HasInt P cond c.1
  | _, _ => True

/-- The phi nodes of a block. -/
def phiNodes (BB : BlockId) : List InstId :=
  (P.block BB).insts.filter fun i => (P.inst i).op.isPhi

/-- The instructions of a block but for the phi nodes. -/
def afterPhis (BB : BlockId) : List InstId :=
  (P.block BB).insts.filter fun i => !(P.inst i).op.isPhi

/-- Some terminator tests the value. -/
def Tested (V : Value) : Prop := ∃ i, TestedBy P i V

/-- A new activation of `F`.  An argument that is not tested is followed if its value was
written under its identifier. -/
structure Starts (written : String → APInt → Prop) (F : FuncId) (A : Activation) : Prop where
  function : A.function = F
  block : (P.func F).blocks.head? = some A.block
  rest : A.rest = afterPhis P A.block
  followed : ∀ V, A.followed V → ∃ no w, V = .argument F no ∧ P.typeOf V = .int w ∧
    (A.ints V).width = w ∧ ¬ Tested P V ∧ written (getArgId L P F no) (A.ints V)

/-- The activation after an instruction with the results `x` and `p`. -/
def Activation.ran (A : Activation) (i : InstId) (rest : List InstId) (x : APInt) (p : ℕ)
    (follows : Prop) : Activation :=
  { A with
    rest := rest
    ints := Function.update A.ints (.inst i) x
    addrs := Function.update A.addrs (.inst i) p
    followed := Function.update A.followed (.inst i) follows }

section Ran

variable {A : Activation} {i : InstId} {rest : List InstId} {x : APInt} {p : ℕ} {follows : Prop}
  {V : Value}

@[simp] theorem Activation.ran_ints_self : (A.ran i rest x p follows).ints (.inst i) = x :=
  Function.update_self ..

@[simp] theorem Activation.ran_followed_self :
    (A.ran i rest x p follows).followed (.inst i) = follows :=
  Function.update_self ..

theorem Activation.ran_ints_of_ne (hV : V ≠ .inst i) :
    (A.ran i rest x p follows).ints V = A.ints V :=
  Function.update_of_ne hV _ _

theorem Activation.ran_followed_of_ne (hV : V ≠ .inst i) :
    (A.ran i rest x p follows).followed V = A.followed V :=
  Function.update_of_ne hV _ _

end Ran

/-- The activation enters `BB`: the phi nodes take the values that come in, and these
are followed if the edge is no back edge. -/
structure Enters (A A' : Activation) (BB : BlockId) : Prop where
  function : A'.function = A.function
  block : A'.block = BB
  rest : A'.rest = afterPhis P BB
  phi : ∀ i ∈ phiNodes P BB, ∀ incoming V w, (P.inst i).op = .phi incoming →
    incomingValue? incoming A.block = some V → (P.inst i).ty = .int w →
    A.HasInt P V (A'.ints (.inst i))
  followed : ∀ i ∈ phiNodes P BB, A'.followed (.inst i) →
    isBackEdge (L.findFunctionBackedges P A.function) (A.block, BB) = false ∧
    ∃ incoming V w, (P.inst i).op = .phi incoming ∧
      incomingValue? incoming A.block = some V ∧ (P.inst i).ty = .int w ∧ A.Follows V
  same : ∀ V, (∀ i ∈ phiNodes P BB, V ≠ .inst i) →
    A'.ints V = A.ints V ∧ A'.addrs V = A.addrs V ∧ (A'.followed V → A.followed V)

/-- One step; its label is the instruction that ran, with its result. An activation starts, runs its
next instruction, or goes over an edge to another block; a call may start one of its callee at any
time. -/
inductive Step : MachineState → Option (InstId × APInt) → MachineState → Prop
  | start {s : MachineState} {M : Module} {F : FuncId} {A : Activation} : M ∈ modules →
      F ∈ M.functions → Starts L P s.written F A →
      Step s none { s with activations := A :: s.activations }
  | exec {s : MachineState} {As As' : List Activation} {A : Activation} {i : InstId}
      {rest : List InstId} {x : APInt} {p : ℕ} {mem' : ℕ → ℕ → ℕ} {follows : Prop} :
      s.activations = As ++ A :: As' → A.rest = i :: rest →
      (∀ w, (P.inst i).ty = .int w → Computes P globalAddress A s.mem i w x) →
      (follows → (P.inst i).ty.isIntegerTy = true ∧
        FollowsResult L P callees taints A s.written i x) →
      MemAfter P globalAddress A s.mem mem' i →
      Step s (some (i, x)) ⟨As ++ A.ran i rest x p follows :: As', mem',
        writtenAfter L P callees modules A i follows x s.written⟩
  | edge {s : MachineState} {As As' : List Activation} {A A' : Activation} {BB : BlockId}
      {k : ℕ} : s.activations = As ++ A :: As' → A.rest = [] →
      (P.inst (P.block A.block).term).op.successors[k]? = some BB →
      A.Takes P (P.inst (P.block A.block).term).op k → Enters L P A A' BB →
      Step s none { s with activations := As ++ A' :: As' }

/-- The states of the executions that start with some memory. -/
def Runs (s : MachineState) : Prop :=
  ∃ mem, Relation.ReflTransGen
    (fun s s' => ∃ e, Step L P callees taints modules globalAddress s e s')
    ⟨[], mem, Initial L P callees modules⟩ s

/-! ## Well-formed functions -/

/-- The definition of an operand dominates the point in the block before which `done`
ran. -/
def AvailableAt (entry BB : BlockId) (done : List InstId) (V : Value) : Prop :=
  ∀ j, V = .inst j → (j ∈ done ∧ (P.inst j).parent = BB) ∨
    (j ∈ (P.block (P.inst j).parent).insts ∧ (P.inst j).parent ≠ BB ∧
      Dominates P entry (P.inst j).parent BB)

/-- What the verifier of the compiler checks of a function. The blocks are listed once, edges agree
with the lists of predecessors, and definitions dominate their uses. -/
structure SSAForm (F : FuncId) (entry : BlockId) : Prop where
  entry_block : (P.func F).blocks.head? = some entry
  nodup_blocks : (P.func F).blocks.Nodup
  mem_blocks : ∀ BB, Kint.Reachable P entry BB → BB ∈ (P.func F).blocks
  succ_iff_pred : ∀ Pred BB,
    BB ∈ (P.inst (P.block Pred).term).op.successors ↔ Pred ∈ (P.block BB).preds
  inst_parent : ∀ BB ∈ (P.func F).blocks, ∀ i ∈ (P.block BB).insts, (P.inst i).parent = BB
  nodup : ∀ BB ∈ (P.func F).blocks, (P.block BB).insts.Nodup
  phis_first : ∀ BB ∈ (P.func F).blocks, (P.block BB).insts = phiNodes P BB ++ afterPhis P BB
  use : ∀ BB, Kint.Reachable P entry BB → ∀ pre i post, (P.block BB).insts = pre ++ i :: post →
    (P.inst i).op.isPhi = false → ∀ V ∈ (P.inst i).op.operands, AvailableAt P entry BB pre V
  incoming : ∀ BB, Kint.Reachable P entry BB → ∀ i ∈ phiNodes P BB, ∀ incoming,
    (P.inst i).op = .phi incoming → ∀ V Pred, (V, Pred) ∈ incoming →
      AvailableAt P entry Pred (P.block Pred).insts V

/-- The order of the blocks in which one visit meets predecessors first: every block but the entry
block has an edge to it that is no back edge, and all these edges lead to later blocks. -/
structure Layout (F : FuncId) (entry : BlockId) : Prop where
  entered : ∀ BB ∈ (P.func F).blocks, BB ≠ entry → ∃ Pred ∈ (P.block BB).preds,
    isBackEdge (L.findFunctionBackedges P F) (Pred, BB) = false
  forward : ∀ BB ∈ (P.func F).blocks, ∀ Pred ∈ (P.block BB).preds,
    isBackEdge (L.findFunctionBackedges P F) (Pred, BB) = false → Precedes P F Pred BB

instance (F : FuncId) (entry : BlockId) : Decidable (Layout L P F entry) :=
  decidable_of_iff
    ((∀ BB ∈ (P.func F).blocks, BB ≠ entry → ∃ Pred ∈ (P.block BB).preds,
      isBackEdge (L.findFunctionBackedges P F) (Pred, BB) = false) ∧
    ∀ BB ∈ (P.func F).blocks, ∀ Pred ∈ (P.block BB).preds,
      isBackEdge (L.findFunctionBackedges P F) (Pred, BB) = false → Precedes P F Pred BB)
    ⟨fun h => ⟨h.1, h.2⟩, fun h => ⟨h.entered, h.forward⟩⟩

end Machine

end Kint.Range
