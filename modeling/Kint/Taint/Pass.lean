import Kint.IntGlobal

/-!
# `TaintPass`

The pass propagates taint descriptors from the instructions that the annotation marks as taint
sources: along operands to the instructions that use them, and between functions through
identifiers.  The transcription follows `Taint.cc`.

What a run reads and what it adds is recorded as a trace of events, which the pass itself never
looks at: `TaintMap::add` reports only the first descriptor of an identifier, so the reports
alone do not say what happened.

## What the source does at a value

`getTaint` looks for descriptors of the value itself, or of the value that it is a cast of.  If
there are none, it takes over those of the identifiers of the value (`globalEntries`), and from
then on the value has taint of its own, and the identifiers are not looked at again.
`copyTaint` is what this does to the maps and `localTaint` the answer.  A later descriptor of an
identifier is then missed, which an event records as a *masked* read.

## Two transcriptions

The source tells a missing entry from an empty one, since `TaintMap::get` returns a pointer.
Here the two are the same; `Kint.Taint.Maps` has the pass on maps that tell them apart, and
shows that the difference never shows.  Results about what flows where are proved here, and
results about the run itself, such as that it terminates, are stated for the maps of the source.
-/

namespace Kint.Taint

open Iteration

/-- The entries of a `TaintMap`. -/
inductive Entry
  | value (V : Value)
  | id (ID : String)
  deriving DecidableEq

/-- `TaintMap::get` -/
def get (s : TaintMap) : Entry → DescSet
  | .value V => s.vts V
  | .id ID => s.getId ID

/-- What happens in a run.

* `grow e`: a descriptor was added to `e` that was not there;
* `read es masked`: the taint of a value was computed from the entries `es`,
  after they were updated; `masked` says that one of them has a descriptor that
  the result does not have;
* `metadata i D`: the taint metadata of `i` was set to `D`. -/
inductive Event
  | grow (e : Entry)
  | read (es : List Entry) (masked : Bool)
  | metadata (i : InstId) (D : DescSet)
  deriving DecidableEq

section Pass

variable (L : Library) (P : Program) (callees : CalleeMap)

/-- `TaintMap::add` to a value. -/
def addValue (V : Value) (D : DescSet) : Pass TaintMap Event := fun s => .ok ⟨false,
  { s with vts := Function.update s.vts V (s.vts V ∪ D) },
  if D ⊆ s.vts V then [] else [.grow (.value V)]⟩

/-- `TaintMap::add` to an identifier: the returned bit is `isNew`. -/
def addId (ID : String) (D : DescSet) (isSource : Bool) : Pass TaintMap Event := fun s =>
  if ID = "" then .ok (.idle s)
  else .ok ⟨decide ((s.gts ID).1 = ∅),
    { s with gts := Function.update s.gts ID ((s.gts ID).1 ∪ D, (s.gts ID).2 || isSource) },
    if D ⊆ (s.gts ID).1 then [] else [.grow (.id ID)]⟩

/-- The possible callees of a call whose callees were computed. -/
def calleesOf (V : Value) : List FuncId :=
  match V with
  | .inst i =>
    match (P.inst i).op with
    | .call _ _ =>
      if P.isInlineAsm i then []
      else (callees i).elim [] L.elements
    | _ => []
  | _ => []

/-- The identifiers whose taint a value takes over. -/
def globalEntries (V : Value) : List Entry :=
  (calleesOf L P callees V).map (fun f => .id (getRetId L P f)) ++ [.id (getValueId L P V)]

/-- `if (DescSet *DS = TM.get(e)) TM.add(V, *DS);` -/
def copyEntry (V : Value) (e : Entry) : Pass TaintMap Event := fun s =>
  addValue V (get s e) s

/-- The descriptors found for a value: its own or those of the value it is a
cast of. -/
def localTaint (s : TaintMap) (V : Value) : DescSet :=
  if s.vts V ≠ ∅ then s.vts V else s.vts (L.stripPointerCasts P V)

/-- The entries that the taint of a value depends on. -/
def dependsOn (V : Value) : List Entry :=
  .value V :: .value (L.stripPointerCasts P V) :: globalEntries L P callees V

/-- What `getTaint` does to the taints: when a value has no local taint, it takes
over that of its identifiers. -/
def copyTaint (V : Value) : Pass TaintMap Event := fun s =>
  if localTaint L P s V = ∅ then forEach (copyEntry V) (globalEntries L P callees V) s
  else .ok (.idle s)

/-- `getTaint`; the result is `localTaint` afterwards. -/
def getTaint (V : Value) : Pass TaintMap Event := fun s => do
  let r ← copyTaint L P callees V s
  let masked := (dependsOn L P callees V).any fun e =>
    !decide (get r.state e ⊆ localTaint L P r.state V)
  return { r with trace := r.trace ++ [.read (dependsOn L P callees V) masked] }

/-- Go on with the taint of `V`. -/
def withTaint (V : Value) (k : DescSet → Pass TaintMap Event) : Pass TaintMap Event :=
  fun s => do
    let r ← getTaint L P callees V s
    let r' ← k (localTaint L P r.state V) r.state
    return r.andThen r'

/-- Go on with the union of the taints of values. -/
def withTaints : List Value → DescSet → (DescSet → Pass TaintMap Event) →
    Pass TaintMap Event
  | [], D, k => k D
  | V :: Vs, D, k => withTaint L P callees V fun D' => withTaints Vs (D ∪ D') k

/-- Go on with the descriptors of a value itself: `*TM.get(V)`. -/
def withValue (V : Value) (k : DescSet → Pass TaintMap Event) : Pass TaintMap Event :=
  fun s => do
    let r ← k (s.vts V) s
    return { r with trace := .read [.value V] false :: r.trace }

/-- The identifiers of the fields of the struct that a pointer type points to. -/
def fieldIds (ty : Ty) (M : String) : List String :=
  match ty with
  | .ptr (.struct s) =>
    (List.range (P.struct s).elements.length).map (getStructId L P (.struct s) M)
  | _ => []

/-- `checkTaintSource` -/
def checkTaintSource (F : FuncId) (i : InstId) : Pass TaintMap Event :=
  match (P.inst i).taintSrc with
  | none => fun s => .ok (.idle s)
  | some d =>
    (addValue (.inst i) {d}).seq <| withValue (.inst i) fun D =>
      -- all struct members become sources, too
      forEach (fun ID => addId ID D true)
        (getValueId L P (.inst i) :: fieldIds L P (P.inst i).ty (P.func F).moduleIdentifier)

/-- Callees that are skipped: variadic and builtin functions. -/
def skipsCallee (f : FuncId) : Bool := (P.func f).isVarArg || hasDot (P.func f).name

/-- Mark one argument of a possible callee. -/
def markArgument (f : FuncId) (arg : Value × ℕ) : Pass TaintMap Event :=
  withTaint L P callees arg.1 fun D =>
    if D = ∅ then fun s => .ok (.idle s) else addId (getArgId L P f arg.2) D false

/-- Mark the arguments of the possible callees of a call. -/
def visitCall (i : InstId) (args : List Value) : Pass TaintMap Event :=
  forEach (fun f =>
    if skipsCallee P f then fun s => .ok (.idle s)
    else forEach (markArgument L P callees f) args.zipIdx) (calleesOf L P callees (.inst i))

/-- What an instruction does with the descriptors of its operands. -/
def propagate (F : FuncId) (i : InstId) (D : DescSet) : Pass TaintMap Event :=
  if D = ∅ then fun s => .ok (.idle s)
  else (addValue (.inst i) D).seq <|
    match (P.inst i).op with
    | .store _ _ =>
      match (P.inst i).id with
      | some ID => addId ID D false
      | none => fun s => .ok (.idle s)
    | .ret _ => addId (getRetId L P F) D false
    | _ => fun s => .ok (.idle s)

/-- The body of the loop of `runOnFunction`. -/
def visitInst (F : FuncId) (i : InstId) : Pass TaintMap Event :=
  (checkTaintSource L P F i).seq <|
    match (P.inst i).op with
    -- taint goes to the arguments, not from them
    | .call _ args => visitCall L P callees i args
    | op => withTaints L P callees op.operands ∅ (propagate L P F i)

/-- `runOnFunction` -/
def runOnFunction (F : FuncId) : Pass TaintMap Event :=
  forEach (visitInst L P callees F) (P.instsOf F)

/-- `doModulePass` -/
def doModulePass (fuel : ℕ) (M : Module) : Pass TaintMap Event :=
  whileChanged (fun _ => forEach (runOnFunction L P callees) M.functions) fuel 1

/-- `doFinalization` -/
def doFinalization (M : Module) : Pass TaintMap Event :=
  forEach (fun f => forEach (fun i => withTaint L P callees (.inst i) fun D s =>
    .ok ⟨true, s, [.metadata i D]⟩) (P.instsOf f)) M.functions

/-- `TaintPass` -/
def taintPass : IterativeModulePass TaintMap Event where
  doInitialization _ s := .ok ⟨true, s, []⟩
  doModulePass := doModulePass L P callees
  doFinalization _ := doFinalization L P callees

end Pass

end Kint.Taint
