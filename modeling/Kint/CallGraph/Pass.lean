import Kint.IntGlobal

/-!
# `CallGraphPass`

The pass collects, for every identifier, the functions that may flow into a function pointer of
that identifier, and from them the callees of every call.  The transcription follows
`CallGraph.cc` function by function.

## The phases

* `doInitialization` records the definitions with external linkage in `Funcs`, and puts the
  functions that stand in the initializers of variables under the identifiers of the variables
  and fields.
* `doModulePass` visits the instructions.  A stored, returned or passed function pointer has its
  functions put under the identifier of the place that it is stored to, of the return value, or
  of the argument of each possible callee.
* `doFinalization` searches the callees of each call.

## The search

`findFunctions` follows a value to what it may come from: through phi nodes, selects and casts
to the operands, and to functions, to the identifier of a load or of an argument, or to the
return values of callees.  The set of visited values is passed down by value, so it holds the
values on the path from the start.  A value of any other kind ends the program
(`llvm_unreachable`), which is `Stop.fatal` here.

When the set to be filled is the entry of an identifier and the search comes to that identifier,
the set is merged into itself.  `findFunctionsInto` therefore is not `findFunctions` into a
local set: the search sees what it has added so far, and the transcription keeps the two apart.
-/

namespace Kint.CallGraph

open Iteration

/-- The part of the context that the pass writes: `Funcs`, `FuncPtrs`,
`Callees`. -/
structure State where
  funcs : FuncMap
  funcPtrs : FuncPtrMap
  callees : CalleeMap

/-- The state before the pass. -/
def State.init : State := ⟨fun _ => none, fun _ => ∅, fun _ => none⟩

section Pass

variable (L : Library) (P : Program)

/-! ## Initializers -/

mutual

/-- `processInitializers` in the module with identifier `M`; `V` is the global
variable at the top and `none` (`NULL`) below.  The result lists what is
inserted into `FuncPtrs`. -/
def processInitializers (M : String) (V : Option GlobalValue) :
    Initializer → List (String × FuncId)
  | .struct s operands =>
    if (P.struct s).name = "" then []
    else processFields M s 0 (P.struct s).elements operands
  | .array elem operands =>
    match elem with
    | .struct _ => processElements M operands
    | _ => []
  | .func f =>
    match V with
    | some V => [(getVarId L V, f)]
    | none => []
  | .int _ => []
  | .aggregateZero => []
  | .other => []

/-- The loop over the fields of a struct, from field `i` on. -/
def processFields (M : String) (s : StructId) (i : ℕ) :
    List Ty → List Initializer → List (String × FuncId)
  | ETy :: tys, operand :: operands =>
    (match ETy with
      | .struct _ => processInitializers M none operand
      | .array _ _ => processInitializers M none operand
      | .ptr .func =>
        match operand with
        | .func f => [(getStructId L P (.struct s) M i, f)]
        | _ => []
      | _ => []) ++ processFields M s (i + 1) tys operands
  | _, _ => []

/-- The loop over the elements of an array. -/
def processElements (M : String) : List Initializer → List (String × FuncId)
  | [] => []
  | operand :: operands => processInitializers M none operand ++ processElements M operands

end

/-! ## Function sets -/

/-- `mergeFuncSet` -/
def mergeFuncSet (src : FuncSet) : Pass FuncSet Empty :=
  fun S => .ok ⟨decide ¬ src ⊆ S, S ∪ src, []⟩

/-- `mergeFuncSet` from an identifier.  When the destination is itself the entry
of that identifier, the set is merged with itself. -/
def mergeFuncSetId (funcPtrs : FuncPtrMap) (dst : Option String) (id : String) :
    Pass FuncSet Empty :=
  fun S => mergeFuncSet (if dst = some id then S else funcPtrs id) S

/-- The function that a function value stands for: prefer the real definition to
declarations. -/
def resolve (funcs : FuncMap) (f : FuncId) : FuncId :=
  if (P.func f).empty then (funcs (P.func f).name).getD f else f

/-- The cases of `findFunctions` at a value that was not visited; `go` is the
recursive call.  `dst` is the identifier whose entry is the destination, if it
is one. -/
def findFunctionsAt (s : State) (dst : Option String) (go : Value → Pass FuncSet Empty) :
    Value → Pass FuncSet Empty
  | .func f => mergeFuncSet {resolve P s.funcs f}
  | .constExpr c =>
    match P.const c with
    | .cast _ v _ => go v
    | _ => fun S => .ok (.idle S)
  | .argument f no => mergeFuncSetId s.funcPtrs dst (getArgId L P f no)
  | .inst i =>
    match (P.inst i).op with
    | .cast .bitcast v => go v
    | .phi incoming => forEach go (incoming.map Prod.fst)
    | .select _ ifTrue ifFalse => forEach go [ifTrue, ifFalse]
    | .call _ _ =>
      match P.calledFunction i with
      | some CF => mergeFuncSetId s.funcPtrs dst (getRetId L P CF)
      -- TODO in the source: indirect calls
      | none => fun S => .ok (.idle S)
    | .load _ _ => mergeFuncSetId s.funcPtrs dst (getLoadStoreId P i)
    | .cast .inttoptr _ => fun S => .ok (.idle S)
    -- unhandled value type
    | _ => fun _ => .error .fatal
  | .constInt _ | .null _ | .undef _ | .constOther _ | .global _ | .inlineAsm _ =>
    fun S => .ok (.idle S)

/-- `findFunctions` with the set `Visited`, which is passed by value. -/
def findFunctionsFrom (s : State) (dst : Option String) :
    (fuel : ℕ) → (visited : List Value) → Value → Pass FuncSet Empty
  | 0, _, _ => fun _ => .error .fuel
  | fuel + 1, visited, V =>
    if V ∈ visited then fun S => .ok (.idle S)
    else findFunctionsAt L P s dst (findFunctionsFrom s dst fuel (V :: visited)) V

/-- `findFunctions` into a local set. -/
def findFunctions (fuel : ℕ) (s : State) (V : Value) : Pass FuncSet Empty :=
  findFunctionsFrom L P s none fuel [] V

/-- `findFunctions(V, Ctx->FuncPtrs[Id])` -/
def findFunctionsInto (fuel : ℕ) (Id : String) (V : Value) : Pass State Empty := fun s => do
  let r ← findFunctionsFrom L P s (some Id) fuel [] V (s.funcPtrs Id)
  return ⟨r.changed, { s with funcPtrs := Function.update s.funcPtrs Id r.state }, []⟩

/-- `mergeFuncSet(Ctx->FuncPtrs[Id], VS)` -/
def mergeFuncSetInto (Id : String) (VS : FuncSet) : Pass State Empty := fun s => do
  let r ← mergeFuncSet VS (s.funcPtrs Id)
  return ⟨r.changed, { s with funcPtrs := Function.update s.funcPtrs Id r.state }, []⟩

/-! ## The pass -/

/-- `Function::isIntrinsic` -/
def isIntrinsic (f : FuncId) : Bool := startswith (P.func f).name "llvm."

/-- Calls that the pass ignores: inline asm and intrinsics. -/
def ignoresCall (i : InstId) : Bool :=
  P.isInlineAsm i || (P.calledFunction i).any (isIntrinsic P)

/-- One argument of a call with possible callees `FS`. -/
def passArgument (fuel : ℕ) (FS : FuncSet) (arg : Value × ℕ) : Pass State Empty := fun s =>
  if isFunctionPointer (P.typeOf arg.1) then do
    let VS ← findFunctions L P fuel s arg.1 ∅
    if VS.changed then
      forEach (fun CF => mergeFuncSetInto (getArgId L P CF arg.2) VS.state)
        (L.elements FS) s
    else return .idle s
  else .ok (.idle s)

/-- The body of the loop of `runOnFunction`. -/
def visitInst (fuel : ℕ) (F : FuncId) (i : InstId) : Pass State Empty := fun s =>
  match (P.inst i).op with
  | .store V _ =>
    if isFunctionPointer (P.typeOf V) ∧ getLoadStoreId P i ≠ "" then
      findFunctionsInto L P fuel (getLoadStoreId P i) V s
    else .ok (.idle s)
  | .ret V =>
    if isFunctionPointer (P.func F).retTy then
      match V with
      | some V => findFunctionsInto L P fuel (getRetId L P F) V s
      -- a null `getReturnValue`
      | none => .error .fatal
    else .ok (.idle s)
  | .call callee args =>
    if ignoresCall P i then .ok (.idle s)
    else do
      -- might be an indirect call, find all possible callees
      let FS ← findFunctions L P fuel s callee ∅
      if FS.changed then forEach (passArgument L P fuel FS.state) args.zipIdx s
      else return .idle s
  | _ => .ok (.idle s)

/-- `runOnFunction` -/
def runOnFunction (fuel : ℕ) (F : FuncId) : Pass State Empty :=
  forEach (visitInst L P fuel F) (P.instsOf F)

/-- What `doInitialization` inserts into `FuncPtrs`. -/
def initializerEntries (M : Module) : List (String × FuncId) :=
  M.globals.flatMap fun g =>
    match (P.global g).initializer with
    | some I => processInitializers L P M.identifier (some (P.global g).toGlobalValue) I
    | none => []

/-- `hasExternalLinkage() && !empty()` -/
def isExternalDefinition (f : FuncId) : Bool :=
  (P.func f).linkage = .external && !(P.func f).empty

/-- `doInitialization` -/
def doInitialization (M : Module) : Pass State Empty := fun s => .ok ⟨true,
  { s with
    funcPtrs := (initializerEntries L P M).foldl
      (fun m e => Function.update m e.1 (insert e.2 (m e.1))) s.funcPtrs
    funcs := (M.functions.filter (isExternalDefinition P)).foldl
      (fun m f => Function.update m (P.func f).name (some f)) s.funcs }, []⟩

/-- `doModulePass` -/
def doModulePass (fuel : ℕ) (M : Module) : Pass State Empty :=
  whileChanged (fun _ => forEach (runOnFunction L P fuel) M.functions) fuel 1

/-- `findFunctions(CI->getCalledValue(), Ctx->Callees[CI])` -/
def mapCallee (fuel : ℕ) (i : InstId) : Pass State Empty := fun s =>
  match (P.inst i).op with
  | .call callee _ => do
    let r ← findFunctions L P fuel s callee ((s.callees i).getD ∅)
    return ⟨false, { s with callees := Function.update s.callees i (some r.state) }, []⟩
  | _ => .ok (.idle s)

/-- `doFinalization` -/
def doFinalization (fuel : ℕ) (M : Module) : Pass State Empty :=
  forEach (fun f => forEach (mapCallee L P fuel) (P.instsOf f)) M.functions

/-- `CallGraphPass` -/
def callGraphPass : IterativeModulePass State Empty where
  doInitialization := doInitialization L P
  doModulePass := doModulePass L P
  doFinalization := doFinalization L P

end Pass

end Kint.CallGraph
