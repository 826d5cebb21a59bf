import Kint.IntGlobal

/-!
# `RangePass`

The pass computes a range for every identifier, a set that contains the values stored, passed or
returned under it, by propagating ranges through functions until nothing changes.  Within a
function, ranges are kept per basic block and propagated forward only, along edges that are not
back edges.  The transcription follows `Range.cc`.

A computation that returns a range may cache it in the map of a block but leaves everything else
alone; such computations are `Query`s.  The others are `Pass`es, which report.  A trace records
what a run does to the ranges of identifiers.

## The transcription

* `State`: the ranges of identifiers, `Changes`, and the maps of the blocks of the current
  function.
* `unionRange`, `unionBlockRange`: the two overloads.
* `lookupRange`, `getRange`: a value that has no entry in the map of a block is looked up, by
  the identifiers of callees, of a load or of an argument.
* `collectInitializers`, `doInitialization`: initial values.
* `visitBinaryOp` to `visitReturnInst`: one definition for each visitor of instructions.
* `visitBranchInst`, `visitSwitchInst`, `mergeVRM`, `propagate`: what a block starts with.
* `updateRangeForInst`, `updateRangeForBlock`, `updateRangeForFunction`: the overloads of
  `updateRangeFor`.
* `widen`, `iteration`, `doModulePass`: the loop with widening.
* `intrange`, `doFinalization`: the metadata that is written back.

Operations on ranges, the dominator tree, back edges and names are those of a `Library`, which
is a parameter.  The loop over modules is that of `IterativeModulePass` (`Kint.Iteration`),
which the three passes share.
-/

namespace Kint.Range

open Iteration

/-- `ValueRangeMap` -/
abbrev ValueRangeMap := Value → Option ConstantRange

/-- The data members: `Ctx->IntRanges`, `Changes` and `FuncVRMs`. -/
structure State where
  intRanges : RangeMap
  changes : Finset String
  funcVRMs : BlockId → ValueRangeMap

/-- The state before the pass. -/
def State.init : State := ⟨fun _ => none, ∅, fun _ _ => none⟩

/-- What a run does to the ranges of identifiers.

* `union sID R`: the non-empty range `R` was joined into the range of `sID`;
* `widen sIDs`: the ranges of `sIDs` were set to the full set;
* `call`: `doModulePass` was called;
* `iteration before after`: one iteration of its loop, after widening, took the
  ranges from `before` to `after`;
* `metadata i range`: the `intrange` metadata of `i` was set. -/
inductive Event
  | union (sID : String) (R : ConstantRange)
  | widen (sIDs : Finset String)
  | call
  | iteration (before after : RangeMap)
  | metadata (i : InstId) (range : Option (APInt × APInt))

/-- A computation that reads ranges and may cache them. -/
abbrev Query := StateT State (Except Stop)

/-- Go on with the result of a query. -/
def withQuery {α : Type} (q : Query α) (k : α → Pass State Event) : Pass State Event :=
  fun s => do
    let (a, s') ← q s
    k a s'

/-- Set the range of a value in a block. -/
def State.setRange (s : State) (BB : BlockId) (V : Value) (R : ConstantRange) : State :=
  { s with
    funcVRMs := Function.update s.funcVRMs BB
      (Function.update (s.funcVRMs BB) V (some R)) }

/-- An entry of a map is no range of an identifier. -/
@[simp] theorem State.setRange_intRanges (s : State) (BB : BlockId) (V : Value)
    (R : ConstantRange) : (s.setRange BB V R).intRanges = s.intRanges := rfl

/-- An entry of a map is not recorded as a change. -/
@[simp] theorem State.setRange_changes (s : State) (BB : BlockId) (V : Value)
    (R : ConstantRange) : (s.setRange BB V R).changes = s.changes := rfl

/-- `std::map::insert`, which keeps an existing entry. -/
def ValueRangeMap.insert (m : ValueRangeMap) (V : Value) (R : ConstantRange) :
    ValueRangeMap :=
  if (m V).isSome then m else Function.update m V (some R)

/-- `MaxIterations` -/
def maxIterations : ℕ := 5

section Pass

variable (L : Library) (P : Program) (callees : CalleeMap) (taints : TaintMap)

/-! ## Joining and looking up ranges -/

/-- The range that an entry has after `R` is joined to it, and whether that is
a change. -/
def joined (entry : Option ConstantRange) (R : ConstantRange) : Bool × ConstantRange :=
  match entry with
  | some S => L.ranges.safeUnion S R
  | none => (true, R)

/-- `unionRange` of an identifier -/
def unionRange (sID : String) (R : ConstantRange) : Pass State Event := fun s =>
  if R.isEmptySet then .ok (.idle s)
  else .ok ⟨(joined L (s.intRanges sID) R).1,
    { s with
      intRanges := Function.update s.intRanges sID (some (joined L (s.intRanges sID) R).2)
      changes := if (joined L (s.intRanges sID) R).1 then insert sID s.changes
        else s.changes },
    [.union sID R]⟩

/-- `unionRange` of a value in a block; no caller reads the returned bit. -/
def unionBlockRange (BB : BlockId) (V : Value) (R : ConstantRange) (s : State) : State :=
  if R.isEmptySet then s else s.setRange BB V (joined L (s.funcVRMs BB V) R).2

/-- `V must be integer or pointer to integer` -/
def integerWidth : Ty → Option ℕ
  | .int w => some w
  | .ptr (.int w) => some w
  | _ => none

/-- The loop over possible callees in `getRange`. -/
def unionOfReturns (w : ℕ) (m : RangeMap) : List FuncId → ConstantRange → ConstantRange
  | [], CR => CR
  | f :: fs, CR =>
    if taints.isSource (getRetId L P f) then .full w
    else
      match m (getRetId L P f) with
      | some S => unionOfReturns w m fs (L.ranges.safeUnion CR S).2
      | none => unionOfReturns w m fs CR

/-- The part of `getRange` that looks up the ranges of identifiers; an unknown
value has the empty set. -/
def lookupRange (w : ℕ) (m : RangeMap) (V : Value) : ConstantRange :=
  match V, P.opcode? V with
  | .inst i, some (.call _ _) =>
    if P.isInlineAsm i then .empty w
    else
      match callees i with
      | some CEEs => unionOfReturns L P taints w m (L.elements CEEs) (.empty w)
      | none => .empty w
  | V, _ =>
    -- arguments and loads; might load part of a struct field
    let sID := getValueId L P V
    let CR :=
      if sID = "" then .empty w
      else if taints.isSource sID then .full w
      else (m sID).getD (.empty w)
    L.ranges.zextOrTrunc CR w

/-- `getRange` -/
def getRange (BB : BlockId) (V : Value) : Query ConstantRange := fun s =>
  match V with
  | .constInt c => .ok (.ofAPInt c, s)
  | V =>
    match s.funcVRMs BB V with
    | some R => .ok (R, s)
    | none =>
      match integerWidth (P.typeOf V) with
      -- the assertion on the type of `V`
      | none => .error .fatal
      | some w =>
        let CR := lookupRange L P callees taints w s.intRanges V
        .ok (CR, if CR.isEmptySet then s else s.setRange BB V CR)

/-! ## Initializers -/

/-- Structs that are skipped: those without a name and those of anonymous
types. -/
def isAnonymous (name : String) : Bool :=
  name = "" || name = "struct.anon" || startswith name "struct.anon."

/-- `isStructTy() || isIntegerTy()` -/
def Ty.isStructOrInteger : Ty → Bool
  | .struct _ | .int _ => true
  | _ => false

mutual

/-- `collectInitializers`, as the list of calls of `unionRange`. -/
def collectInitializers (GV : GlobalValue) : Initializer → List (String × ConstantRange)
  | .int c => [(getVarId L GV, .ofAPInt c)]
  | .struct s operands =>
    if isAnonymous (P.struct s).name then []
    else collectFields GV s 0 (P.struct s).elements operands
  | .array elem operands =>
    if Ty.isStructOrInteger elem then collectElements GV operands else []
  | .func _ => []
  | .aggregateZero => []
  | .other => []

/-- The loop over the fields of a struct, from field `i` on. -/
def collectFields (GV : GlobalValue) (s : StructId) (i : ℕ) :
    List Ty → List Initializer → List (String × ConstantRange)
  | ty :: tys, operand :: operands =>
    (match ty with
      | .struct _ => collectInitializers GV operand
      | .int _ =>
        match operand with
        | .int c =>
          let sID := getStructId L P (.struct s) GV.moduleIdentifier i
          if sID = "" then [] else [(sID, .ofAPInt c)]
        | _ => []
      | _ => []) ++ collectFields GV s (i + 1) tys operands
  | _, _ => []

/-- The loop over the elements of an array. -/
def collectElements (GV : GlobalValue) : List Initializer → List (String × ConstantRange)
  | [] => []
  | operand :: operands => collectInitializers GV operand ++ collectElements GV operands

end

/-- The calls of `unionRange` in `doInitialization`; string literals are
skipped. -/
def initializerRanges (M : Module) : List (String × ConstantRange) :=
  M.globals.flatMap fun g =>
    match (P.global g).initializer with
    | some I =>
      if startswith (P.global g).name "." then []
      else collectInitializers L P (P.global g).toGlobalValue I
    | none => []

/-- `doInitialization` -/
def doInitialization (M : Module) : Pass State Event :=
  forEach (fun e => unionRange L e.1 e.2) (initializerRanges L P M)

/-! ## Instructions -/

/-- `visitBinaryOp` -/
def visitBinaryOp (BB : BlockId) (op : BinaryOp) (lhs rhs : Value) : Query ConstantRange := do
  let LR ← getRange L P callees taints BB lhs
  let RR ← getRange L P callees taints BB rhs
  let RR := L.ranges.convert RR LR
  return match op with
    | .add => L.ranges.add LR RR
    | .sub => L.ranges.sub LR RR
    | .mul => L.ranges.multiply LR RR
    | .udiv => L.ranges.udiv LR RR
    | .sdiv => RangeOps.sdiv LR RR
    | .urem => RR -- FIXME in the source
    | .srem => RR -- FIXME in the source
    | .shl => L.ranges.shl LR RR
    | .lshr => L.ranges.lshr LR RR
    | .ashr => LR -- FIXME in the source
    | .and => L.ranges.binaryAnd LR RR
    | .or => L.ranges.binaryOr LR RR
    | .xor => LR -- FIXME in the source

/-- `visitCastInst` -/
def visitCastInst (BB : BlockId) (bits : ℕ) (op : CastOp) (V : Value) :
    Query ConstantRange :=
  match op with
  | .trunc | .zext => do
    let R ← getRange L P callees taints BB V
    return L.ranges.zextOrTrunc R bits
  | .sext => do
    let R ← getRange L P callees taints BB V
    return L.ranges.signExtend R bits
  | .bitcast => getRange L P callees taints BB V
  | .ptrtoint | .inttoptr | .floating => return .full bits

/-- `visitSelectInst` -/
def visitSelectInst (BB : BlockId) (ifTrue ifFalse : Value) : Query ConstantRange := do
  let T ← getRange L P callees taints BB ifTrue
  let F ← getRange L P callees taints BB ifFalse
  return (L.ranges.safeUnion T F).2

/-- `isBackEdge` -/
def isBackEdge (backEdges : List (BlockId × BlockId)) (E : BlockId × BlockId) : Bool :=
  backEdges.contains E

/-- `visitPHINode`: incoming values over back edges are skipped. -/
def visitPHINode (backEdges : List (BlockId × BlockId)) (BB : BlockId) :
    List (Value × BlockId) → ConstantRange → Query ConstantRange
  | [], CR => return CR
  | (V, Pred) :: incoming, CR =>
    if isBackEdge backEdges (Pred, BB) then visitPHINode backEdges BB incoming CR
    else do
      let R ← getRange L P callees taints Pred V
      visitPHINode backEdges BB incoming (L.ranges.safeUnion CR R).2

/-- Callees that are skipped: variadic and builtin functions. -/
def skipsCallee (f : FuncId) : Bool := (P.func f).isVarArg || hasDot (P.func f).name

/-- One argument of a possible callee. -/
def passArgument (BB : BlockId) (f : FuncId) (arg : Value × ℕ) : Pass State Event :=
  if (P.typeOf arg.1).isIntegerTy then
    withQuery (getRange L P callees taints BB arg.1) (unionRange L (getArgId L P f arg.2))
  else fun s => .ok (.idle s)

/-- `visitCallInst` -/
def visitCallInst (i : InstId) (args : List Value) : Pass State Event :=
  if P.isInlineAsm i then fun s => .ok (.idle s)
  else
    match callees i with
    | none => fun s => .ok (.idle s)
    | some CEEs =>
      -- update arguments of all possible callees
      (forEach (fun f =>
        if skipsCallee P f then fun s => .ok (.idle s)
        else forEach (passArgument L P callees taints (P.inst i).parent f) args.zipIdx)
        (L.elements CEEs)).seq <|
      -- range for the return value of this call site
      if (P.inst i).ty.isIntegerTy then
        withQuery (getRange L P callees taints (P.inst i).parent (.inst i))
          (unionRange L (getCallRetId L P i))
      else fun s => .ok (.idle s)

/-- `visitStoreInst` -/
def visitStoreInst (i : InstId) (value pointer : Value) : Pass State Event :=
  if (P.typeOf value).isIntegerTy ∧ getValueId L P (.inst i) ≠ "" then
    withQuery (getRange L P callees taints (P.inst i).parent value) fun CR s =>
      unionRange L (getValueId L P (.inst i)) CR
        (unionBlockRange L (P.inst i).parent pointer CR s)
  else fun s => .ok (.idle s)

/-- `visitReturnInst` in function `F`. -/
def visitReturnInst (F : FuncId) (i : InstId) (value : Option Value) : Pass State Event :=
  match value with
  | some V =>
    if (P.typeOf V).isIntegerTy then
      withQuery (getRange L P callees taints (P.inst i).parent V)
        (unionRange L (getRetId L P F))
    else fun s => .ok (.idle s)
  | none => fun s => .ok (.idle s)

/-- The range of the result of an instruction of type `int w`. -/
def instRange (backEdges : List (BlockId × BlockId)) (i : InstId) (w : ℕ) :
    Query ConstantRange :=
  match (P.inst i).op with
  | .binary op lhs rhs => visitBinaryOp L P callees taints (P.inst i).parent op lhs rhs
  | .cast op V => visitCastInst L P callees taints (P.inst i).parent w op V
  | .select _ ifTrue ifFalse =>
    visitSelectInst L P callees taints (P.inst i).parent ifTrue ifFalse
  | .phi incoming =>
    visitPHINode L P callees taints backEdges (P.inst i).parent incoming (.empty w)
  | .load _ _ => getRange L P callees taints (P.inst i).parent (.inst i)
  | .call _ _ => getRange L P callees taints (P.inst i).parent (.inst i)
  | _ => return .full w

/-- Stores, returns and calls update the ranges of identifiers. -/
def updateGlobal (F : FuncId) (i : InstId) : Pass State Event :=
  match (P.inst i).op with
  | .store value pointer => visitStoreInst L P callees taints i value pointer
  | .ret value => visitReturnInst L P callees taints F i value
  | .call _ args => visitCallInst L P callees taints i args
  | _ => fun s => .ok (.idle s)

/-- The range of an integer instruction in its block. -/
def updateLocal (backEdges : List (BlockId × BlockId)) (i : InstId) : Pass State Event :=
  match (P.inst i).ty with
  | .int w =>
    withQuery (instRange L P callees taints backEdges i w) fun CR s =>
      .ok (.idle (unionBlockRange L (P.inst i).parent (.inst i) CR s))
  | _ => fun s => .ok (.idle s)

/-- `updateRangeFor(Instruction *)` in function `F`. -/
def updateRangeForInst (backEdges : List (BlockId × BlockId)) (F : FuncId) (i : InstId) :
    Pass State Event :=
  (updateGlobal L P callees taints F i).seq (updateLocal L P callees taints backEdges i)

/-! ## Blocks -/

/-- `visitBranchInst` at a conditional branch: refine the map `VRM` for the
target `BB`. -/
def visitBranchInst (cond : Value) (ifTrue BB : BlockId) (VRM : ValueRangeMap) :
    Query ValueRangeMap :=
  match cond with
  | .inst c =>
    match (P.inst c).op with
    | .icmp pred LHS RHS =>
      if (P.typeOf LHS).isIntegerTy && (P.typeOf RHS).isIntegerTy then do
        let LCR ← getRange L P callees taints (P.inst c).parent LHS
        let RCR ← getRange L P callees taints (P.inst c).parent RHS
        let RCR := L.ranges.convert RCR LCR
        let PLCR :=
          if ifTrue = BB then L.ranges.makeICmpRegion pred.swapped LCR
          else L.ranges.makeICmpRegion pred.swapped.inverse RCR
        let PRCR :=
          if ifTrue = BB then L.ranges.makeICmpRegion pred RCR
          else L.ranges.makeICmpRegion pred.inverse RCR
        return (VRM.insert LHS (L.ranges.intersectWith LCR PRCR)).insert RHS
          (L.ranges.intersectWith LCR PLCR)
      else return VRM
    | _ => return VRM
  | _ => return VRM

/-- The union of case values. -/
def unionOfCases (w : ℕ) (cases : List (APInt × BlockId)) : ConstantRange :=
  cases.foldl (fun CR c => (L.ranges.safeUnion CR (.ofAPInt c.1)).2) (.empty w)

/-- `visitSwitchInst`: refine the map `VRM` for the target `BB`. -/
def visitSwitchInst (i : InstId) (cond : Value) (defaultDest : BlockId)
    (cases : List (APInt × BlockId)) (BB : BlockId) (VRM : ValueRangeMap) :
    Query ValueRangeMap :=
  match P.typeOf cond with
  | .int w => do
    let VCR ← getRange L P callees taints (P.inst i).parent cond
    let CR :=
      if defaultDest ≠ BB then unionOfCases L w (cases.filter fun c => c.2 = BB)
      else L.ranges.inverse (unionOfCases L w cases)
    return VRM.insert cond (L.ranges.intersectWith VCR CR)
  | _ => return VRM

/-- `visitTerminator` -/
def visitTerminator (i : InstId) (BB : BlockId) (VRM : ValueRangeMap) :
    Query ValueRangeMap :=
  match (P.inst i).op with
  | .condBr cond ifTrue _ => visitBranchInst L P callees taints cond ifTrue BB VRM
  | .switch cond defaultDest cases =>
    visitSwitchInst L P callees taints i cond defaultDest cases BB VRM
  | _ => return VRM

/-- `union with other predecessors` -/
def mergeVRM (into VRM : ValueRangeMap) : ValueRangeMap := fun V =>
  match VRM V with
  | none => into V
  | some R => some (joined L (into V) R).2

/-- Propagate value ranges from one predecessor. -/
def propagateFrom (backEdges : List (BlockId × BlockId)) (BB Pred : BlockId) :
    Query Unit := fun s =>
  if isBackEdge backEdges (Pred, BB) then .ok ((), s)
  else do
    let (VRM, s') ←
      visitTerminator L P callees taints (P.block Pred).term BB (s.funcVRMs Pred) s
    return ((), { s' with
      funcVRMs := Function.update s'.funcVRMs BB (mergeVRM L (s'.funcVRMs BB) VRM) })

/-- Propagate value ranges from all predecessors. -/
def propagate (backEdges : List (BlockId × BlockId)) (BB : BlockId) :
    List BlockId → Query Unit
  | [] => return ()
  | Pred :: preds => do
    propagateFrom L P callees taints backEdges BB Pred
    propagate backEdges BB preds

/-- `updateRangeFor(BasicBlock *)` in function `F`. -/
def updateRangeForBlock (backEdges : List (BlockId × BlockId)) (F : FuncId) (BB : BlockId) :
    Pass State Event :=
  withQuery (propagate L P callees taints backEdges BB (P.block BB).preds) fun _ =>
    forEach (updateRangeForInst L P callees taints backEdges F) (P.block BB).insts

/-- `updateRangeFor(Function *)` -/
def updateRangeForFunction (F : FuncId) : Pass State Event := fun s =>
  forEach (updateRangeForBlock L P callees taints (L.findFunctionBackedges P F) F)
    (P.func F).blocks { s with funcVRMs := fun _ _ => none }

/-! ## Modules -/

/-- Expand the ranges of identifiers to the full set. -/
def widenRanges (sIDs : Finset String) (m : RangeMap) : RangeMap := fun sID =>
  if sID ∈ sIDs then (m sID).map fun R => .full R.width else m sID

/-- Expand the ranges that changed last to the full set. -/
def widen (s : State) : State := { s with intRanges := widenRanges s.changes s.intRanges }

/-- What an iteration of `doModulePass` starts with: widening if some values
converge too slowly, and clearing `Changes`. -/
def beginIteration (itr : ℕ) (s : State) : State :=
  { (if itr > maxIterations then widen s else s) with changes := ∅ }

/-- The functions that an iteration visits. -/
def visitFunctions (M : Module) : Pass State Event :=
  forEach (updateRangeForFunction L P callees taints)
    (M.functions.filter fun f => !(P.func f).empty)

/-- One iteration of the loop of `doModulePass`. -/
def iteration (M : Module) (itr : ℕ) : Pass State Event := fun s => do
  let r ← visitFunctions L P callees taints M (beginIteration itr s)
  return { r with trace :=
    (if itr > maxIterations then [.widen s.changes] else []) ++ r.trace ++
      [.iteration (beginIteration itr s).intRanges r.state.intRanges] }

/-- `doModulePass` -/
def doModulePass (fuel : ℕ) (M : Module) : Pass State Event := fun s => do
  let r ← whileChanged (iteration L P callees taints M) fuel 1 s
  return { r with trace := .call :: r.trace }

/-- The `intrange` metadata of a load or a call: the bounds of the range of its
identifier, unless that is missing, empty or full. -/
def intrange (m : RangeMap) (i : InstId) : Option (APInt × APInt) :=
  let id := getValueId L P (.inst i)
  if id = "" then none
  else
    match m id with
    | none => none
    | some R =>
      if R.isEmptySet || R.isFullSet then none
      else some (.ofNat R.width R.lower, .ofNat R.width R.upper)

/-- `isa<LoadInst>(I) || isa<CallInst>(I)` -/
def isLoadOrCall (i : InstId) : Bool :=
  match (P.inst i).op with
  | .load .. | .call .. => true
  | _ => false

/-- `doFinalization` -/
def doFinalization (M : Module) : Pass State Event :=
  forEach (fun i s => .ok ⟨true, s,
    if isLoadOrCall P i then [.metadata i (intrange L P s.intRanges i)] else []⟩)
    (M.functions.flatMap P.instsOf)

/-- `RangePass` -/
def rangePass : IterativeModulePass State Event where
  doInitialization := doInitialization L P
  doModulePass := doModulePass L P callees taints
  doFinalization _ := doFinalization L P

end Pass

end Kint.Range
