import Kint.CmpSat
import Kint.ValueGen.Counted

/-!
# `PathGen` and the two checks with their references

The functions of `PathGen.cc` with the references that they hold, and the two users of the
generators, `IntSat::query` and `CmpSat::check`, from the construction of the solver to its
destruction.  A guard has one reference when it is returned; `get` returns a condition whose
reference the table keeps, also where it falls back to a common dominator.  The checks therefore
end with as many references as the tables have entries, which the destructors give up
(`references_balance`).

## The transcription

The names are those of `Kint.PathGen.Pass`, in a namespace of their own.  Each definition is the
one from there with its calls of `incref` and `decref`; the two are compared by `Implements`
(`Kint.RefCount`), which says that the counted code returns what the code without references
returns, and what it owns then.

## The lemmas

A lemma with `_owned` says that a function returns a formula whose only reference belongs to the
caller (`FormulaOwned`).  The disjunctions are built in loops that pass one owned reference on,
and so are the equations of the phi nodes.  `analyze_implements` puts the functions together:
what `get` has made belongs to the table if the result is kept, and to nobody if it is not.

`Balanced` is what is left for the code around the generators: it owns nothing in the end.
`references_balance` is about the runs of both checks, from empty tables on, with any answers of
the solver and any order in which the destructors visit the tables.
-/

namespace Kint.PathGen.Counted

open Iteration Memo SMT RefCount RefCount.Code ValueGen.Counted

/-- A computation that calls `VG.get` and `get`. -/
abbrev Visit := SMTCode Key

/-- `bvtrue` -/
def bvtrue : Visit SMTRef := create (.ok (.ofFormula .bvtrue))

/-- `bvfalse` -/
def bvfalse : Visit SMTRef := create (.ok (.ofFormula .bvfalse))

/-- `bvnot` of a formula -/
def bvnot (E : SMTRef) : Visit SMTRef :=
  create (E.term.formula.map fun e => .ofFormula (.bvnot e))

section Pass

variable (DL : DataLayout) (P : Program)
  (intrange : InstId → Option (List (APInt × APInt)))
  (Backedges : List (BlockId × BlockId)) (DT : Option (BlockId → BlockId → BlockId))

/-! ## Guards -/

/-- The disjunction of `L = C` over the cases of a switch that satisfy `p`. -/
def caseGuard (L : SMTRef) (p : BlockId → Bool) :
    List (APInt × BlockId) → SMTRef → Visit SMTRef
  | [], E => .ret E
  | (C, Succ) :: cases, E =>
    if p Succ then do
      let CI ← ask (.inl (.constInt C))
      let Cond ← mkCmp .eq L CI
      let Tmp ← mkBinary .or E Cond
      decref Cond
      decref E
      caseGuard L p cases Tmp
    else caseGuard L p cases E

/-- `getTermGuard` of a switch -/
def getSwitchGuard (cond : Value) (defaultDest : BlockId) (cases : List (APInt × BlockId))
    (BB : BlockId) : Visit SMTRef := do
  let L ← ask (.inl cond)
  if defaultDest ≠ BB then do
    let E ← bvfalse
    caseGuard L (fun Succ => Succ = BB) cases E
  else do
    let E ← bvfalse
    let E ← caseGuard L (fun _ => true) cases E
    let NotE ← bvnot E
    decref E
    return NotE

/-- `getTermGuard` of a conditional branch -/
def getBranchGuard (cond : Value) (ifTrue ifFalse BB : BlockId) : Visit SMTRef := do
  let E ← ask (.inl cond)
  -- the condition has one bit
  let _ ← lift E.term.formula
  incref E
  if ifTrue ≠ BB then
    if ifFalse = BB then do
      let Tmp ← bvnot E
      decref E
      return Tmp
    else .stop
  else return E

/-- `getTermGuard`; a terminator that is none of these has no successors. -/
def getTermGuard (op : Opcode) (BB : BlockId) : Visit SMTRef :=
  match op with
  | .br _ => bvtrue
  | .condBr cond ifTrue ifFalse => getBranchGuard cond ifTrue ifFalse BB
  | .switch cond defaultDest cases => getSwitchGuard cond defaultDest cases BB
  -- `indirectbr` and `invoke`
  | .otherTerm _ _ | .invoke _ _ _ _ => bvtrue
  | _ => .stop

/-- The loop of `getPHIGuard`; undefined values and non-integral types are
skipped. -/
def phiGuard (Pred : BlockId) : List InstId → SMTRef → Visit SMTRef
  | [], E => .ret E
  | i :: is, E =>
    match (P.inst i).op with
    | .phi incoming =>
      match incomingValue? incoming Pred with
      | none => .stop
      | some V =>
        if isUndef V || !isAnalyzable (P.typeOf V) then phiGuard Pred is E
        else do
          let I ← ask (.inl (.inst i))
          let V' ← ask (.inl V)
          let PN ← mkCmp .eq I V'
          let Tmp ← mkBinary .and E PN
          decref E
          decref PN
          phiGuard Pred is Tmp
    | _ => .ret E

/-- `getPHIGuard` -/
def getPHIGuard (BB Pred : BlockId) : Visit SMTRef := do
  let E ← bvtrue
  phiGuard P Pred (P.block BB).insts E

/-! ## Blocks -/

/-- The guard of the edge from `Pred`: the terminator and the phi nodes. -/
def edgeGuard (BB Pred : BlockId) : Visit SMTRef := do
  let Term ← getTermGuard (P.inst (P.block Pred).term).op BB
  let PN ← getPHIGuard P BB Pred
  let TermWithPN ← mkBinary .and Term PN
  decref Term
  decref PN
  return TermWithPN

/-- The disjunction over predecessors. -/
def predGuard (BB : BlockId) : List BlockId → SMTRef → Visit SMTRef
  | [], G => .ret G
  | Pred :: preds, G =>
    -- skip back edges
    if DT.isNone && isBackedge Backedges Pred BB then predGuard BB preds G
    else do
      let TermWithPN ← edgeGuard P BB Pred
      let GPred ← ask (.inr Pred)
      let _ ← lift GPred.term.formula
      let Br ← mkBinary .and TermWithPN GPred
      decref TermWithPN
      let Tmp ← mkBinary .or G Br
      decref G
      decref Br
      predGuard BB preds Tmp

/-- `get` of a block that is not in the table. -/
def analyzeBlock (BB : BlockId) : Visit SMTRef :=
  if isEntryBlock P BB then bvtrue
  else
    match DT with
    | some ncd =>
      -- fall back to common ancestors if any back edges
      if hasBackedge P Backedges BB then
        ask (.inr (findCommonDominator ncd (P.block BB).preds))
      else do
        let G ← bvfalse
        predGuard P Backedges DT BB (P.block BB).preds G
    | none => do
      let G ← bvfalse
      predGuard P Backedges DT BB (P.block BB).preds G

/-- Both functions: `ValueGen::get` and `PathGen::get`. -/
def analyze : Key → Visit SMTRef
  | .inl V => (ValueGen.Counted.analyze DL P intrange V).mapKey Sum.inl
  | .inr BB => analyzeBlock P Backedges DT BB

/-- The tables and the references. -/
abbrev State := RefCount.State Key (SMTExpr Value) (Term Value 1)

/-- `PathGen::get` of a block, and `ValueGen::get` of a value. -/
def get (nodes : ℕ → ℕ) (fuel : ℕ) (k : Key) (s : State) : Except Failure (SMTRef × State) :=
  RefCount.get (analyze DL P intrange Backedges DT) (keep P Backedges DT) nodes fuel k s

/-! ## The checks -/

/-- `IntSat::query`, with the answer of the solver; the output of the model reads the
terms of the table only. -/
def query (Res : SMTStatus) (V : Value) (BB : BlockId) : Visit SMTStatus := do
  let E ← ask (.inl V)
  let G ← ask (.inr BB)
  let Query ← mkBinary .and E G
  decref Query
  return Res

/-- `CmpSat::check`, with the answers of the solver to the two queries. -/
def check (Status Status' : SMTStatus) (V : Value) (BB : BlockId) :
    Visit (Option String) := do
  let ValuePred ← ask (.inl V)
  let PathPred ← ask (.inr BB)
  let Query ← mkBinary .and ValuePred PathPred
  decref Query
  if Status = .unsat then return some CmpSat.cmpFalse
  else do
    let NotValuePred ← bvnot ValuePred
    let Query ← mkBinary .and NotValuePred PathPred
    decref Query
    decref NotValuePred
    return if Status' = .unsat then some CmpSat.cmpTrue else none

/-- The terms of the entries of the table whose keys satisfy `p`. -/
def entries (p : Key → Bool) (s : State) : List SMTRef :=
  (s.cache.entries.filter fun e => p e.1).map Sigma.snd

/-- A check with its solver and the two generators: the destructors of `PathGen` and
`ValueGen` give up the references of their tables, in the order in which these are
iterated, and the destructor of the solver asserts that there are no others. -/
def withSolver {α : Type} (nodes : ℕ → ℕ)
    (order : (l : List SMTRef) → { l' : List SMTRef // l'.Perm l }) (fuel : ℕ)
    (check : Visit α) : Except Failure α := do
  let (a, s) ← check.run nodes (get DL P intrange Backedges DT nodes fuel) .init
  let s ← releaseAll (order (entries Sum.isRight s)).1 s
  let s ← releaseAll (order (entries Sum.isLeft s)).1 s
  if s.refs = 0 then return a else .error .leak

end Pass

/-! ## Ownership -/

/-- The result stands for a formula and has one reference, which the caller owns. -/
def FormulaOwned (r : SMTRef) (A : Multiset ℕ) (e : Term Value 1) : Prop :=
  r.term = .ofFormula e ∧ A = {r.node}

section Pass

variable {DL : DataLayout} {P : Program} {intrange : InstId → Option (List (APInt × APInt))}
  {Backedges : List (BlockId × BlockId)} {DT : Option (BlockId → BlockId → BlockId)}

/-- The constant has one reference when it is returned. -/
theorem bvtrue_owned : bvtrue.Implements FormulaOwned 0 (.ret .bvtrue) :=
  fun _ hr => ⟨_, rfl, (Except.ok.inj hr).symm, add_zero _⟩

/-- The disjunction that is passed on has one reference, as the one that was passed in. -/
theorem caseGuard_owned {L E : SMTRef} {p : BlockId → Bool} {cases : List (APInt × BlockId)}
    {e : Term Value 1} (hE : E.term = .ofFormula e) :
    (caseGuard L p cases E).Implements FormulaOwned {E.node}
      (PathGen.caseGuard L.term p cases e) := by
  induction cases generalizing E e with
  | nil => exact ⟨e, rfl, hE, rfl⟩
  | cons c cases ih =>
    obtain ⟨C, Succ⟩ := c
    unfold caseGuard PathGen.caseGuard
    split
    · refine implements_ask fun CI => ?_
      refine implements_create fun Cond hCond => ?_
      obtain ⟨cond, hcond, hCond⟩ := map_formula hCond
      refine implements_of_ok hcond ?_
      refine implements_create fun Tmp hTmp => ?_
      refine implements_decref (B := {Tmp.node} + {E.node}) (by abel) ?_
      refine implements_decref (B := {Tmp.node}) (by abel) ?_
      exact ih (binary_formula hE hCond hTmp)
    · exact ih hE

/-- The guard of a switch edge has one reference. -/
theorem getSwitchGuard_owned {cond : Value} {defaultDest BB : BlockId}
    {cases : List (APInt × BlockId)} :
    (getSwitchGuard cond defaultDest cases BB).Implements FormulaOwned 0
      (PathGen.getSwitchGuard cond defaultDest cases BB) := by
  refine implements_ask fun L => ?_
  split
  · refine implements_create fun E hE => ?_
    rw [add_zero]
    exact caseGuard_owned (Except.ok.inj hE).symm
  · refine implements_create fun E hE => ?_
    rw [add_zero]
    refine (caseGuard_owned (Except.ok.inj hE).symm).bind fun E A e h => ?_
    obtain ⟨hE, rfl⟩ := h
    refine implements_create fun NotE hNotE => ?_
    refine implements_decref (B := {NotE.node}) (by abel) ?_
    rw [hE] at hNotE
    exact implements_pure ⟨(Except.ok.inj hNotE).symm, rfl⟩

/-- The guard of an edge of a conditional branch has one reference. -/
theorem getBranchGuard_owned {cond : Value} {ifTrue ifFalse BB : BlockId} :
    (getBranchGuard cond ifTrue ifFalse BB).Implements FormulaOwned 0
      (PathGen.getBranchGuard cond ifTrue ifFalse BB) := by
  refine implements_ask fun E => implements_lift fun e he => ?_
  refine implements_incref ?_
  have hE := SMTExpr.formula_eq_ok.mp he
  split
  · split
    · refine implements_create fun Tmp hTmp => ?_
      refine implements_decref (B := {Tmp.node}) (by abel) ?_
      rw [he] at hTmp
      exact implements_pure ⟨(Except.ok.inj hTmp).symm, rfl⟩
    · trivial
  · exact implements_pure ⟨hE, add_zero _⟩

/-- The guard of a terminator has one reference. -/
theorem getTermGuard_owned {op : Opcode} {BB : BlockId} :
    (getTermGuard op BB).Implements FormulaOwned 0 (PathGen.getTermGuard op BB) := by
  cases op with
  | br dest => exact bvtrue_owned
  | condBr cond ifTrue ifFalse => exact getBranchGuard_owned
  | switch cond d cases => exact getSwitchGuard_owned
  | otherTerm operands dests => exact bvtrue_owned
  | invoke callee args normalDest unwindDest => exact bvtrue_owned
  | _ => trivial

/-- The conjunction that is passed on has one reference. -/
theorem phiGuard_owned {Pred : BlockId} {is : List InstId} {E : SMTRef} {e : Term Value 1}
    (hE : E.term = .ofFormula e) :
    (phiGuard P Pred is E).Implements FormulaOwned {E.node} (PathGen.phiGuard P Pred is e) := by
  induction is generalizing E e with
  | nil => exact ⟨e, rfl, hE, rfl⟩
  | cons i is ih =>
    unfold phiGuard PathGen.phiGuard
    cases (P.inst i).op with
    | phi incoming =>
      simp only
      cases incomingValue? incoming Pred with
      | none => trivial
      | some V =>
        simp only
        split
        · exact ih hE
        · refine implements_ask fun I => implements_ask fun V' => ?_
          refine implements_create fun PN hPN => ?_
          obtain ⟨pn, hpn, hPN⟩ := map_formula hPN
          refine implements_of_ok hpn ?_
          refine implements_create fun Tmp hTmp => ?_
          refine implements_decref (B := {Tmp.node} + {PN.node}) (by abel) ?_
          refine implements_decref (B := {Tmp.node}) (by abel) ?_
          exact ih (binary_formula hE hPN hTmp)
    | _ => exact ⟨e, rfl, hE, rfl⟩

/-- The equations of the phi nodes have one reference. -/
theorem getPHIGuard_owned {BB Pred : BlockId} :
    (getPHIGuard P BB Pred).Implements FormulaOwned 0 (PathGen.getPHIGuard P BB Pred) := by
  refine implements_create fun E hE => ?_
  rw [add_zero]
  exact phiGuard_owned (Except.ok.inj hE).symm

/-- The guard of an edge has one reference: those of its parts are given up. -/
theorem edgeGuard_owned {BB Pred : BlockId} :
    (edgeGuard P BB Pred).Implements FormulaOwned 0 (PathGen.edgeGuard P BB Pred) := by
  refine getTermGuard_owned.bind fun Term A t h => ?_
  obtain ⟨hTerm, rfl⟩ := h
  refine getPHIGuard_owned.bind_frame fun PN A p h => ?_
  obtain ⟨hPN, rfl⟩ := h
  refine implements_create fun TermWithPN hBoth => ?_
  refine implements_decref (B := {TermWithPN.node} + {PN.node}) (by abel) ?_
  refine implements_decref (B := {TermWithPN.node}) (by abel) ?_
  exact implements_pure ⟨binary_formula hTerm hPN hBoth, rfl⟩

/-- The disjunction over predecessors has one reference. The conditions of the predecessors belong
to the table. -/
theorem predGuard_owned {BB : BlockId} {preds : List BlockId} {G : SMTRef} {g : Term Value 1}
    (hG : G.term = .ofFormula g) :
    (predGuard P Backedges DT BB preds G).Implements Owned {G.node}
      (PathGen.predGuard P Backedges DT BB preds g) := by
  induction preds generalizing G g with
  | nil => exact ⟨_, rfl, hG, rfl⟩
  | cons Pred preds ih =>
    unfold predGuard PathGen.predGuard
    split
    · exact ih hG
    · refine edgeGuard_owned.bind_frame fun TermWithPN A t h => ?_
      obtain ⟨hTerm, rfl⟩ := h
      refine implements_ask fun GPred => implements_lift fun gPred hgPred => ?_
      refine implements_create fun Br hBr => ?_
      refine implements_decref (B := {Br.node} + {G.node}) (by abel) ?_
      refine implements_create fun Tmp hTmp => ?_
      refine implements_decref (B := {Tmp.node} + {Br.node}) (by abel) ?_
      refine implements_decref (B := {Tmp.node}) (by abel) ?_
      have hformula := binary_formula hTerm (SMTExpr.formula_eq_ok.mp hgPred) hBr
      exact ih (binary_formula hG hformula hTmp)

/-- `get` of a block owns one reference in the end if it puts the result into the table,
and none if it falls back to a common dominator. -/
theorem analyzeBlock_owned {BB : BlockId} :
    (analyzeBlock P Backedges DT BB).Implements
      (fun r A t => r.term = t ∧ A = if keep P Backedges DT (.inr BB) then {r.node} else 0) 0
      (PathGen.analyzeBlock P Backedges DT BB) := by
  have hpreds : (bvfalse >>= predGuard P Backedges DT BB (P.block BB).preds).Implements
      Owned 0 (PathGen.predGuard P Backedges DT BB (P.block BB).preds .bvfalse) := by
    refine implements_create fun G hG => ?_
    rw [add_zero]
    exact predGuard_owned (Except.ok.inj hG).symm
  have hkeep : keep P Backedges DT (.inr BB) =
      (isEntryBlock P BB || !(DT.isSome && hasBackedge P Backedges BB)) := rfl
  simp only [hkeep]
  unfold analyzeBlock PathGen.analyzeBlock
  cases isEntryBlock P BB with
  | true => exact fun _ hr => ⟨_, rfl, (Except.ok.inj hr).symm, add_zero _⟩
  | false =>
    cases DT with
    | none => exact hpreds
    | some ncd =>
      cases hasBackedge P Backedges BB with
      | true => exact ⟨_, rfl, fun r => ⟨_, rfl, rfl, rfl⟩⟩
      | false => exact hpreds

/-- Both functions return what they return without references, and own a reference of the result
exactly if the table keeps it. -/
theorem analyze_implements (k : Key) :
    (analyze DL P intrange Backedges DT k).Implements
      (fun r A t => r.term = t ∧ A = if keep P Backedges DT k then {r.node} else 0) 0
      (PathGen.analyze DL P intrange Backedges DT k) := by
  cases k with
  | inl V => exact analyze_owned.mapKey Sum.inl
  | inr BB => exact analyzeBlock_owned

/-! ## The checks -/

/-- Code that owns nothing in the end. -/
def Balanced {α : Type} (p : Visit α) : Prop :=
  ∃ c : PathGen.Visit Unit, p.Implements (fun _ A _ => A = 0) 0 c

/-- `IntSat::query` gives up the references that it takes. -/
theorem query_balanced {Res : SMTStatus} {V : Value} {BB : BlockId} :
    Balanced (query Res V BB) := by
  refine ⟨Calls.ask (.inl V) >>= fun _ => Calls.ask (.inr BB) >>= fun _ => pure (), ?_⟩
  refine implements_ask fun E => implements_ask fun G => ?_
  refine implements_create fun Query _ => ?_
  exact implements_decref rfl (implements_pure rfl)

/-- `CmpSat::check` gives up the references that it takes, on every way through it. -/
theorem check_balanced {Status Status' : SMTStatus} {V : Value} {BB : BlockId} :
    Balanced (check Status Status' V BB) := by
  refine ⟨Calls.ask (.inl V) >>= fun _ => Calls.ask (.inr BB) >>= fun _ => pure (), ?_⟩
  refine implements_ask fun ValuePred => implements_ask fun PathPred => ?_
  refine implements_create fun Query _ => implements_decref rfl ?_
  split
  · exact implements_pure rfl
  · refine implements_create fun NotValuePred _ => ?_
    refine implements_create fun Query _ => implements_decref rfl ?_
    exact implements_decref rfl (implements_pure rfl)

/-- The entries of the two tables. -/
theorem owned_eq (s : State) : s.owned =
    (((entries Sum.isRight s).map Ref.node : List ℕ) : Multiset ℕ) +
      ((entries Sum.isLeft s).map Ref.node : List ℕ) := by
  have hsplit := List.filter_append_perm (fun e => Sum.isRight e.1) s.cache.entries
  have hleft : ∀ e : (_ : Key) × SMTRef, (!Sum.isRight e.1) = Sum.isLeft e.1 :=
    fun e => by cases e.1 <;> rfl
  simp only [hleft] at hsplit
  have hnodes := hsplit.map fun e => e.2.node
  rw [List.map_append] at hnodes
  have hcoe := Multiset.coe_eq_coe.mpr hnodes.symm
  rw [← Multiset.coe_add] at hcoe
  simpa [State.owned, entries, List.map_map, Function.comp_def] using hcoe

/-- The destructors find the references of the entries, in any order. -/
theorem releaseAll_order {F : Multiset ℕ} {s : State} {l : List SMTRef}
    (order : (l : List SMTRef) → { l' : List SMTRef // l'.Perm l })
    (h : s.refs = (l.map Ref.node : List ℕ) + F) :
    releaseAll (order l).1 s = .ok { s with refs := F } := by
  refine releaseAll_eq ?_
  rw [h, Multiset.coe_eq_coe.mpr ((order l).2.map Ref.node)]

variable (DL P intrange Backedges DT) in
/-- The runs of a check keep the references in balance: when it is done, every entry of
the two tables owns one reference and nothing else does, and the destructors leave none;
no reference is given up that is not outstanding. -/
def KeepsBalance {α : Type} (nodes : ℕ → ℕ)
    (order : (l : List SMTRef) → { l' : List SMTRef // l'.Perm l }) (p : Visit α) : Prop :=
  ∀ fuel, (∀ a s, p.run nodes (get DL P intrange Backedges DT nodes fuel) .init = .ok (a, s) →
      Accounts s 0 ∧ withSolver DL P intrange Backedges DT nodes order fuel p = .ok a) ∧
    ∀ e, withSolver DL P intrange Backedges DT nodes order fuel p = .error e →
      ∃ e', e = .stop e'

/-- A call of `get` returns what it returns without references, and afterwards the tables own what
they say. -/
theorem get_balance (nodes : ℕ → ℕ) (fuel : ℕ) (k : Key) (s : State) (F : Multiset ℕ)
    (hs : Consistent (PathGen.analyze DL P intrange Backedges DT) s.erase)
    (hacc : Accounts s F) :
    Safe (get DL P intrange Backedges DT nodes fuel k s) fun a =>
      PathGen.get DL P intrange Backedges DT fuel k s.erase = .ok (a.1.term, a.2.erase) ∧
      Consistent (PathGen.analyze DL P intrange Backedges DT) a.2.erase ∧ Accounts a.2 F :=
  get_safe analyze_implements fuel k s F hs hacc

/-- Balanced code leaves the references of the two tables, and the destructors give these up. The
accounts of the run are those of `get_balance` and of the code around it; in the end the multiset of
the references that exist is that of the entries. -/
theorem Balanced.keepsBalance {α : Type} {p : Visit α} (hp : Balanced p) (nodes : ℕ → ℕ)
    (order : (l : List SMTRef) → { l' : List SMTRef // l'.Perm l }) :
    KeepsBalance DL P intrange Backedges DT nodes order p := by
  intro fuel
  obtain ⟨c, hc⟩ := hp
  have hinit : Consistent (PathGen.analyze DL P intrange Backedges DT)
      (State.erase (.init : State)) := by
    rw [erase_init]
    exact consistent_init
  have hrun := run_safe nodes (get_balance nodes fuel) hc hinit (F := 0) accounts_init
  have hdone : ∀ a s, p.run nodes (get DL P intrange Backedges DT nodes fuel) .init =
      .ok (a, s) → Accounts s 0 ∧
        withSolver DL P intrange Backedges DT nodes order fuel p = .ok a := by
    intro a s h
    obtain ⟨A', -, rfl, -, -, hacc⟩ := hrun.of_ok h
    refine ⟨hacc, ?_⟩
    have hrefs : s.refs = ((entries Sum.isRight s).map Ref.node : List ℕ) +
        ((entries Sum.isLeft s).map Ref.node : List ℕ) := by
      rw [← owned_eq, show s.refs = 0 + 0 + s.owned from hacc, zero_add, zero_add]
    have hleft : ((entries Sum.isLeft s).map Ref.node : Multiset ℕ) =
      ((entries Sum.isLeft s).map Ref.node : List ℕ) + 0 := (add_zero _).symm
    unfold withSolver
    rw [h]
    simp only [ok_bind]
    rw [releaseAll_order order hrefs]
    simp only [ok_bind]
    rw [releaseAll_order order hleft]
    rfl
  refine ⟨hdone, fun e he => ?_⟩
  cases hresult : p.run nodes (get DL P intrange Backedges DT nodes fuel) .init with
  | ok r =>
    obtain ⟨a, s⟩ := r
    rw [(hdone a s hresult).2] at he
    cases he
  | error e' =>
    unfold withSolver at he
    rw [hresult] at he
    obtain rfl : e' = e := Except.error.inj he
    exact hrun.not_error hresult

end Pass

/-- `IntSat::query` and `CmpSat::check` keep the references of the solver in balance, for
every function, whatever the solver answers, whichever nodes its constructors return and
in whatever order the maps are iterated; and every call of `ValueGen::get` and
`PathGen::get` that is made with a table that earlier calls left, while its callers own `F`,
leaves a table whose entries own one reference each, and `F` to its callers. -/
theorem references_balance (DL : DataLayout) (P : Program)
    (intrange : InstId → Option (List (APInt × APInt))) (Backedges : List (BlockId × BlockId))
    (DT : Option (BlockId → BlockId → BlockId)) (nodes : ℕ → ℕ)
    (order : (l : List SMTRef) → { l' : List SMTRef // l'.Perm l }) :
    (∀ Res V BB, KeepsBalance DL P intrange Backedges DT nodes order (query Res V BB)) ∧
    (∀ Status Status' V BB,
      KeepsBalance DL P intrange Backedges DT nodes order (check Status Status' V BB)) ∧
    ∀ fuel k s F, Consistent (PathGen.analyze DL P intrange Backedges DT) s.erase →
      Accounts s F →
      Safe (get DL P intrange Backedges DT nodes fuel k s) fun a =>
        Consistent (PathGen.analyze DL P intrange Backedges DT) a.2.erase ∧ Accounts a.2 F := by
  refine ⟨fun _ _ _ => query_balanced.keepsBalance nodes order,
    fun _ _ _ _ => check_balanced.keepsBalance nodes order, fun fuel k s F hs hacc => ?_⟩
  exact Safe.imp (get_balance nodes fuel k s F hs hacc) fun _ h => h.2

/-- A query about a constant in the entry block, with a constructor that returns three
nodes in turn. -/
example : withSolver ValueGen.fieldLayout CmpSat.recheckProgram (fun _ => none) [(2, 1)] none
    (fun n => n % 3) (fun l => ⟨l.reverse, List.reverse_perm l⟩) 2
    (query .sat (.constInt (.ofNat 1 1)) 0) = .ok .sat := by
  rfl

end Kint.PathGen.Counted
