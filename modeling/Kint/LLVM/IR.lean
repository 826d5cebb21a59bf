import Kint.LLVM.ConstantRange

/-!
# Programs

The part of the compiler's intermediate representation that the passes read.  Objects that the
C++ code handles by pointer (instructions, basic blocks, functions, globals, struct types,
constant expressions) live in the lists of a `Program`, the heap, and a pointer is an index into
one of them.  Pointer equality is equality of indices.  Constants that the compiler keeps
unique, such as integers, are values themselves.

A module lists the globals and functions it owns; a pass receives a list of modules next to the
heap, so that one heap can be visited in any module order.

## What is kept of an instruction

An instruction has its block, its type, its opcode with the operands, the identifier that
`AnnotationPass` has attached to it, and its taint source, if any.  The opcodes are those that
some pass tells apart; all others are `Opcode.other` with their operands.  What only one pass
reads, such as the debug location or the metadata of a report, is a parameter of that pass.

## Lookups that fail

The lookups `Program.inst`, `Program.block` and so on are total: an index that is in no list
leads to an object of which nothing is true, an instruction without type and operands, or a
block without instructions.  A statement about all instructions of a program is therefore one
about the instructions in the list and this one.

`Library` collects what the passes use of code that is not part of the repository: the range
operations, the stems of paths, the back edges of a function and the like.  Each result states
which properties of the library it needs.
-/

namespace Kint

/-- `Function *` -/
abbrev FuncId := ℕ

/-- `BasicBlock *` -/
abbrev BlockId := ℕ

/-- `Instruction *` -/
abbrev InstId := ℕ

/-- `GlobalVariable *` -/
abbrev GlobalId := ℕ

/-- `StructType *` -/
abbrev StructId := ℕ

/-- `ConstantExpr *` -/
abbrev ConstId := ℕ

/-- Types.  `other` stands for void, labels, floating point and vectors, which
no pass looks into. -/
inductive Ty
  | int (bits : ℕ)
  | ptr (elem : Ty)
  | array (count : ℕ) (elem : Ty)
  | struct (s : StructId)
  | func
  | other
  deriving DecidableEq

/-- `isIntegerTy` -/
def Ty.isIntegerTy : Ty → Bool
  | int _ => true
  | _ => false

/-- `isFunctionPointer` -/
def isFunctionPointer : Ty → Bool
  | .ptr .func => true
  | _ => false

/-- `GlobalValue::LinkageTypes` -/
inductive Linkage
  | external | availableExternally | linkOnce | weak | appending | internal | privateLinkage
  | dllImport | dllExport | externalWeak | common
  deriving DecidableEq

/-- `Value *` -/
inductive Value
  | constInt (c : APInt)
  | null (ty : Ty)
  | undef (ty : Ty)
  /-- Any other constant without operands, such as a floating-point one. -/
  | constOther (ty : Ty)
  | constExpr (c : ConstId)
  | func (f : FuncId)
  | global (g : GlobalId)
  | argument (f : FuncId) (no : ℕ)
  | inst (i : InstId)
  | inlineAsm (n : ℕ)
  deriving DecidableEq

/-- `isa<Constant>` -/
def Value.isConstant : Value → Bool
  | constInt _ | null _ | undef _ | constOther _ | constExpr _ | func _ | global _ => true
  | argument .. | inst _ | inlineAsm _ => false

/-- `dyn_cast<ConstantInt>` -/
def constantInt? : Value → Option APInt
  | .constInt c => some c
  | _ => none

/-- `dyn_cast<ConstantInt>` finds the integer constants. -/
theorem constantInt?_eq_some {V : Value} {C : APInt} :
    constantInt? V = some C ↔ V = .constInt C := by
  cases V <;> simp [constantInt?]

/-- Constant expressions: casts, binary operators and address computations are
looked into. -/
inductive ConstantExpr
  | cast (op : CastOp) (v : Value) (ty : Ty)
  | binary (op : BinaryOp) (lhs rhs : Value) (ty : Ty)
  | gep (base : Value) (idx : List Value) (ty : Ty)
  | other (ty : Ty)
  deriving DecidableEq

/-- The type of a constant expression. -/
def ConstantExpr.ty : ConstantExpr → Ty
  | cast _ _ ty => ty
  | binary _ _ _ ty => ty
  | gep _ _ ty => ty
  | other ty => ty

/-- Global initializers, as trees of constants. Only what the passes look into is kept: integers,
functions, structs and arrays, and whether an aggregate is zero. -/
inductive Initializer
  | int (c : APInt)
  | func (f : FuncId)
  | struct (s : StructId) (operands : List Initializer)
  | array (elem : Ty) (operands : List Initializer)
  /-- `ConstantAggregateZero`: a struct or an array all of whose scalars are zero. -/
  | aggregateZero
  /-- Null pointers, undefined values, strings, constant expressions and others. -/
  | other

/-- Instructions by opcode, with their operands. Operands that no pass reads, such as alignments,
are left out; an opcode that no pass tells apart from others is `other`. -/
inductive Opcode
  | store (value pointer : Value)
  | load (pointer : Value) (isVolatile : Bool)
  | call (callee : Value) (args : List Value)
  | ret (value : Option Value)
  | br (dest : BlockId)
  | condBr (cond : Value) (ifTrue ifFalse : BlockId)
  | switch (cond : Value) (defaultDest : BlockId) (cases : List (APInt × BlockId))
  | invoke (callee : Value) (args : List Value) (normalDest unwindDest : BlockId)
  /-- `indirectbr`, `unreachable` and `resume`. -/
  | otherTerm (operands : List Value) (dests : List BlockId)
  | binary (op : BinaryOp) (lhs rhs : Value)
  | cast (op : CastOp) (v : Value)
  | select (cond ifTrue ifFalse : Value)
  | phi (incoming : List (Value × BlockId))
  | icmp (pred : ICmpPredicate) (lhs rhs : Value)
  | extractValue (agg : Value) (idx : ℕ)
  | gep (base : Value) (idx : List Value)
  /-- `alloca`, floating-point and all remaining instructions. -/
  | other (operands : List Value)
  deriving DecidableEq

/-- The value operands of an instruction, in operand order. -/
def Opcode.operands : Opcode → List Value
  | store value pointer => [value, pointer]
  | load pointer _ => [pointer]
  | call callee args => args ++ [callee]
  | ret value => value.toList
  | br _ => []
  | condBr cond _ _ => [cond]
  | switch cond _ cases => cond :: cases.map fun c => .constInt c.1
  | invoke callee args _ _ => args ++ [callee]
  | otherTerm operands _ => operands
  | binary _ lhs rhs => [lhs, rhs]
  | cast _ v => [v]
  | select cond ifTrue ifFalse => [cond, ifTrue, ifFalse]
  | phi incoming => incoming.map Prod.fst
  | icmp _ lhs rhs => [lhs, rhs]
  | extractValue agg _ => [agg]
  | gep base idx => base :: idx
  | other operands => operands

/-- The blocks a terminator may transfer control to. -/
def Opcode.successors : Opcode → List BlockId
  | br dest => [dest]
  | condBr _ ifTrue ifFalse => [ifTrue, ifFalse]
  | switch _ defaultDest cases => defaultDest :: cases.map Prod.snd
  | invoke _ _ normalDest unwindDest => [normalDest, unwindDest]
  | otherTerm _ dests => dests
  | _ => []

/-- An instruction with the metadata that the passes read: `id` is the string of
its `MD_ID` node and `taintSrc` that of its `MD_TaintSrc` node. -/
structure Instruction where
  parent : BlockId
  ty : Ty
  op : Opcode
  id : Option String
  taintSrc : Option String
  deriving DecidableEq

/-- A basic block: its instructions up to the terminator, the terminator, and
its predecessors in the order of `pred_begin`. -/
structure BasicBlock where
  parent : FuncId
  body : List InstId
  term : InstId
  preds : List BlockId
  deriving DecidableEq

/-- All instructions of a block, the terminator last. -/
def BasicBlock.insts (B : BasicBlock) : List InstId := B.body ++ [B.term]

/-- What functions and global variables have in common; `moduleIdentifier` is
`getParent()->getModuleIdentifier()`. -/
structure GlobalValue where
  name : String
  linkage : Linkage
  moduleIdentifier : String
  deriving DecidableEq

/-- A function; it is a declaration when it has no blocks. -/
structure Function extends GlobalValue where
  isVarArg : Bool
  params : List Ty
  retTy : Ty
  blocks : List BlockId
  deriving DecidableEq

/-- `F->empty()` -/
def Function.empty (F : Function) : Bool := F.blocks.isEmpty

/-- A global variable of type `valueTy *`. -/
structure GlobalVariable extends GlobalValue where
  valueTy : Ty
  initializer : Option Initializer

/-- A struct type; a literal one has no name, an identified one may have none. -/
structure StructType where
  isLiteral : Bool
  name : String
  elements : List Ty
  deriving DecidableEq

/-- A translation unit: the globals and functions it owns, in order. -/
structure Module where
  identifier : String
  globals : List GlobalId
  functions : List FuncId
  deriving DecidableEq

/-- The heap of a set of modules. Instructions, blocks, functions and globals are numbered, and
refer to each other by their numbers, as pointers do in the source. Looking up a number that does
not exist gives a default. -/
structure Program where
  insts : List Instruction
  blocks : List BasicBlock
  funcs : List Function
  globals : List GlobalVariable
  structs : List StructType
  consts : List ConstantExpr

namespace Program

variable (P : Program)

/-- The instruction behind a pointer; a dangling one has no operands. -/
def inst (i : InstId) : Instruction :=
  P.insts.getD i ⟨0, .other, .other [], none, none⟩

/-- The basic block behind a pointer. -/
def block (b : BlockId) : BasicBlock := P.blocks.getD b ⟨0, [], P.insts.length, []⟩

/-- The function behind a pointer. -/
def func (f : FuncId) : Function :=
  P.funcs.getD f ⟨⟨"", .external, ""⟩, false, [], .other, []⟩

/-- The global variable behind a pointer. -/
def global (g : GlobalId) : GlobalVariable :=
  P.globals.getD g ⟨⟨"", .external, ""⟩, .other, none⟩

/-- The struct type behind a pointer. -/
def struct (s : StructId) : StructType := P.structs.getD s ⟨true, "", []⟩

/-- The constant expression behind a pointer. -/
def const (c : ConstId) : ConstantExpr := P.consts.getD c (.other .other)

/-- `getType` -/
def typeOf : Value → Ty
  | .constInt c => .int c.width
  | .null ty => ty
  | .undef ty => ty
  | .constOther ty => ty
  | .constExpr c => (P.const c).ty
  | .func _ => .ptr .func
  | .global g => .ptr (P.global g).valueTy
  | .argument f no => (P.func f).params.getD no .other
  | .inst i => (P.inst i).ty
  | .inlineAsm _ => .ptr .func

/-- `dyn_cast<Instruction>`, followed by a look at the opcode. -/
def opcode? : Value → Option Opcode
  | .inst i => some (P.inst i).op
  | _ => none

/-- `getCalledFunction`: the callee of a direct call. -/
def calledFunction (i : InstId) : Option FuncId :=
  match (P.inst i).op with
  | .call (.func f) _ => some f
  | _ => none

/-- `isInlineAsm` of a call. -/
def isInlineAsm (i : InstId) : Bool :=
  match (P.inst i).op with
  | .call (.inlineAsm _) _ => true
  | _ => false

/-- The instructions of a function in the order of `inst_iterator`. -/
def instsOf (f : FuncId) : List InstId :=
  (P.func f).blocks.flatMap fun b => (P.block b).insts

end Program

/-- The functions of the compiler library that the global passes call.

* `stem` is `sys::path::stem`, a file name without directory and extension;
* `findFunctionBackedges` is `FindFunctionBackedges`;
* `stripPointerCasts` is the method of `Value` of that name;
* `elements` is the order in which a `SmallPtrSet` of functions is iterated. -/
structure Library where
  ranges : RangeOps
  stem : String → String
  findFunctionBackedges : Program → FuncId → List (BlockId × BlockId)
  stripPointerCasts : Program → Value → Value
  elements : Finset FuncId → List FuncId
  mem_elements : ∀ S f, f ∈ elements S ↔ f ∈ S

end Kint
