import Kint.LLVM.SSA
import Kint.ValueGen.Correct

/-!
# `PathGen`

`PathGen::get` builds the condition for a block to be reached: the disjunction over its
predecessors of the condition of the predecessor, the guard of its terminator and the equations
of the phi nodes.  Without a dominator tree, back edges are skipped; with one, a block with an
incoming back edge gets the condition of the nearest common dominator of its predecessors.  The
transcription follows `PathGen.cc`; `VG.get` is `ValueGen::get`, with its own table next to that
of the blocks.

## The form of the transcription

`get` calls itself for other blocks and `VG.get` for values.  A computation that makes such
calls is a `Visit`: it says which key it asks for and how it goes on with the answer, and
`analyze` is the body of both functions in this form.  The recursion and the tables are those of
`Kint.Memo`, so that what they have in common is proved once: that a table holds what would be
computed again, that more fuel changes nothing, and the induction on the calls.

* `getTermGuard`, with `getSwitchGuard`, `getBranchGuard` and `caseGuard`: the guard of a
  terminator.
* `phiGuard`, `getPHIGuard`: the equations of the phi nodes.
* `predGuard`, `analyzeBlock`: the loop over the predecessors and the body of `get`.
* `keep`: a condition that is taken from a common dominator is not put into the table.
* `State`, `get`, `Reached`: the tables, the functions, and the states that their calls leave.
-/

namespace Kint.PathGen

open Iteration Memo SMT

/-- The tables are keyed by values, for `VG`, and by blocks. -/
abbrev Key := Value ⊕ BlockId

/-- A computation that calls `VG.get` and `get`. -/
abbrev Visit := Calls Key (SMTExpr Value) (Term Value 1)

/-- `isa<UndefValue>` -/
def isUndef : Value → Bool
  | .undef _ => true
  | _ => false

section Pass

variable (DL : DataLayout) (P : Program)
  (intrange : InstId → Option (List (APInt × APInt)))
  (Backedges : List (BlockId × BlockId)) (DT : Option (BlockId → BlockId → BlockId))

/-- `findCommonDominator` of the predecessors of a block. -/
def findCommonDominator (ncd : BlockId → BlockId → BlockId) : List BlockId → BlockId
  | [] => 0
  | Pred :: preds => preds.foldl ncd Pred

/-- `isBackedge` -/
def isBackedge (From To : BlockId) : Bool := Backedges.contains (From, To)

/-- `VG.get` -/
def getValue (V : Value) : Visit (SMTExpr Value) := .ask (.inl V)

/-! ## Guards -/

/-- The disjunction of `L = C` over the cases of a switch that satisfy `p`. -/
def caseGuard (L : SMTExpr Value) (p : BlockId → Bool) :
    List (APInt × BlockId) → Term Value 1 → Visit (Term Value 1)
  | [], E => .ret E
  | (C, Succ) :: cases, E =>
    if p Succ then do
      let CI ← getValue (.constInt C)
      let Cond ← .lift (L.cmp .eq CI)
      caseGuard L p cases (.bvor E Cond)
    else caseGuard L p cases E

/-- `getTermGuard` of a switch -/
def getSwitchGuard (cond : Value) (defaultDest : BlockId) (cases : List (APInt × BlockId))
    (BB : BlockId) : Visit (Term Value 1) := do
  let L ← getValue cond
  if defaultDest ≠ BB then caseGuard L (fun Succ => Succ = BB) cases .bvfalse
  else do
    let E ← caseGuard L (fun _ => true) cases .bvfalse
    return .bvnot E

/-- `getTermGuard` of a conditional branch -/
def getBranchGuard (cond : Value) (ifTrue ifFalse BB : BlockId) : Visit (Term Value 1) := do
  let V ← getValue cond
  let E ← .lift V.formula
  if ifTrue ≠ BB then
    if ifFalse = BB then return .bvnot E else .stop
  else return E

/-- `getTermGuard`; a terminator that is none of these has no successors. -/
def getTermGuard (op : Opcode) (BB : BlockId) : Visit (Term Value 1) :=
  match op with
  | .br _ => .ret .bvtrue
  | .condBr cond ifTrue ifFalse => getBranchGuard cond ifTrue ifFalse BB
  | .switch cond defaultDest cases => getSwitchGuard cond defaultDest cases BB
  -- `indirectbr` and `invoke`
  | .otherTerm _ _ | .invoke _ _ _ _ => .ret .bvtrue
  | _ => .stop

/-- The loop of `getPHIGuard`; undefined values and non-integral types are
skipped. -/
def phiGuard (Pred : BlockId) : List InstId → Term Value 1 → Visit (Term Value 1)
  | [], E => .ret E
  | i :: is, E =>
    match (P.inst i).op with
    | .phi incoming =>
      match incomingValue? incoming Pred with
      | none => .stop
      | some V =>
        if isUndef V || !isAnalyzable (P.typeOf V) then phiGuard Pred is E
        else do
          let I ← getValue (.inst i)
          let V' ← getValue V
          let PN ← .lift (I.cmp .eq V')
          phiGuard Pred is (.bvand E PN)
    | _ => .ret E

/-- `getPHIGuard` -/
def getPHIGuard (BB Pred : BlockId) : Visit (Term Value 1) :=
  phiGuard P Pred (P.block BB).insts .bvtrue

/-! ## Blocks -/

/-- `BB == &BB->getParent()->getEntryBlock()` -/
def isEntryBlock (BB : BlockId) : Bool :=
  (P.func (P.block BB).parent).blocks.head? = some BB

/-- Some edge into `BB` is a back edge. -/
def hasBackedge (BB : BlockId) : Bool :=
  (P.block BB).preds.any fun Pred => isBackedge Backedges Pred BB

/-- The guard of the edge from `Pred`: the terminator and the phi nodes. -/
def edgeGuard (BB Pred : BlockId) : Visit (Term Value 1) := do
  let Term ← getTermGuard (P.inst (P.block Pred).term).op BB
  let PN ← getPHIGuard P BB Pred
  return .bvand Term PN

/-- The disjunction over predecessors. -/
def predGuard (BB : BlockId) : List BlockId → Term Value 1 → Visit (SMTExpr Value)
  | [], G => .ret (.ofFormula G)
  | Pred :: preds, G =>
    -- skip back edges
    if DT.isNone && isBackedge Backedges Pred BB then predGuard BB preds G
    else do
      let TermWithPN ← edgeGuard P BB Pred
      let GPred ← .ask (.inr Pred)
      let GPred ← .lift GPred.formula
      predGuard BB preds (.bvor G (.bvand TermWithPN GPred))

/-- `get` of a block that is not in the table. -/
def analyzeBlock (BB : BlockId) : Visit (SMTExpr Value) :=
  if isEntryBlock P BB then .ret (.ofFormula .bvtrue)
  else
    match DT with
    | some ncd =>
      -- fall back to common ancestors if any back edges
      if hasBackedge P Backedges BB then
        .ask (.inr (findCommonDominator ncd (P.block BB).preds))
      else predGuard P Backedges DT BB (P.block BB).preds .bvfalse
    | none => predGuard P Backedges DT BB (P.block BB).preds .bvfalse

/-- Both functions: `ValueGen::get` and `PathGen::get`. -/
def analyze : Key → Visit (SMTExpr Value)
  | .inl V => (ValueGen.analyze DL P intrange V).mapKey Sum.inl
  | .inr BB => analyzeBlock P Backedges DT BB

/-- What is kept in the tables: all but the conditions that fall back to a common
dominator. -/
def keep : Key → Bool
  | .inl _ => true
  | .inr BB => isEntryBlock P BB || !(DT.isSome && hasBackedge P Backedges BB)

/-- The tables and the assumed formulas. -/
abbrev State := Memo.State Key (SMTExpr Value) (Term Value 1)

/-- `PathGen::get` of a block, and `ValueGen::get` of a value. -/
def get (fuel : ℕ) (k : Key) (s : State) : Except Stop (SMTExpr Value × State) :=
  Memo.get (analyze DL P intrange Backedges DT) (keep P Backedges DT) fuel k s

/-- The states that calls of `get` leave, on any values and blocks. -/
inductive Reached : State → Prop
  | init : Reached .init
  | get {s s' : State} {n : ℕ} {k : Key} {E : SMTExpr Value} : Reached s →
      get DL P intrange Backedges DT n k s = .ok (E, s') → Reached s'

end Pass

section Facts

variable {DL : DataLayout} {P : Program} {intrange : InstId → Option (List (APInt × APInt))}
  {Backedges : List (BlockId × BlockId)} {DT : Option (BlockId → BlockId → BlockId)}

/-- In every such state the tables hold what would be computed again. -/
theorem Reached.consistent {s : State} (h : Reached DL P intrange Backedges DT s) :
    Consistent (analyze DL P intrange Backedges DT) s := by
  induction h with
  | init => exact consistent_init
  | get _ hget ih => exact (get_sound ih hget).2

/-- On values, the function is `ValueGen::get`. -/
theorem solve_inl (n : ℕ) (V : Value) :
    solve (analyze DL P intrange Backedges DT) n (.inl V) =
      solve (ValueGen.analyze DL P intrange) n V := by
  induction n generalizing V with
  | zero => rfl
  | succ n ih =>
    show ((ValueGen.analyze DL P intrange V).mapKey Sum.inl).eval _ = _
    rw [Calls.eval_mapKey]
    congr 1
    funext V
    exact ih V

end Facts

end Kint.PathGen
