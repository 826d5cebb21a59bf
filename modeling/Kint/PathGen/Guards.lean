import Kint.PathGen.Pass
import Kint.ValueGen.Support

/-!
# Guards of edges

What the disjunction over the predecessors of a block says (`predGuard_yields`), and which names
the guard of an edge depends on (`termGuard_readsOnly`, `phiGuard_readsOnly`).

## What a condition says

`EdgeHolds` and `ConditionHolds` state the truth of a guard and of a condition without the
terms: a condition holds if for some predecessor that is not skipped its own condition and the
guard of its edge hold.  `predGuard_yields` and `predGuard_eval` connect this with the loop of
the source, which builds the disjunction from the last predecessor that it has seen.

## What a guard reads

A term of `VG.get` for a value reads the leaves from which the value is computed (`Known`).  The
guard of a terminator reads what the terms of its operands read, and the constants of the case
table, which read nothing; the equations of the phi nodes read the phi nodes and what comes in.
The lemmas with `_ensures` follow the structure of the code: they are stated with `Ensures` of
`Kint.Memo`, so that they speak of every result that the calls may return.

The frame lemmas of `Kint.PathGen.Dominator` and `Kint.PathGen.Forward` rest on these: a guard
that does not read a name stays as it is while the name changes.
-/

namespace Kint.PathGen

open Iteration Memo SMT Calls ValueGen

section Guards

variable {DL : DataLayout} {P : Program} {intrange : InstId → Option (List (APInt × APInt))}
  {Backedges : List (BlockId × BlockId)} {DT : Option (BlockId → BlockId → BlockId)}
  {σ : Assignment Value} {BB Pred : BlockId}

variable (DL P intrange Backedges DT) in
/-- The terminator guard of an edge and the equations of the phi nodes are true
under an assignment. -/
def EdgeHolds (σ : Assignment Value) (Pred BB : BlockId) : Prop :=
  ∃ t p, Yields (analyze DL P intrange Backedges DT)
      (getTermGuard (P.inst (P.block Pred).term).op BB) t ∧
    Yields (analyze DL P intrange Backedges DT) (getPHIGuard P BB Pred) p ∧
    t.Holds σ ∧ p.Holds σ

/-- The guard of an edge is true where the edge holds. -/
theorem holds_edgeGuard {g : Term Value 1}
    (h : Yields (analyze DL P intrange Backedges DT) (edgeGuard P BB Pred) g) :
    g.Holds σ ↔ EdgeHolds DL P intrange Backedges DT σ Pred BB := by
  obtain ⟨t, ht, h⟩ := yields_bind.mp h
  obtain ⟨p, hp, h⟩ := yields_bind.mp h
  obtain rfl := yields_pure.mp h
  rw [Term.holds_bvand]
  constructor
  · rintro ⟨ht', hp'⟩
    exact ⟨t, p, ht, hp, ht', hp'⟩
  · rintro ⟨t', p', ht', hp', hholds⟩
    rwa [ht.unique ht', hp.unique hp']

/-! ## The disjunction over predecessors -/

variable (DL P intrange Backedges DT) in
/-- The condition of a block is true under an assignment. -/
def ConditionHolds (σ : Assignment Value) (BB : BlockId) : Prop :=
  ∃ G, Memo.Value (analyze DL P intrange Backedges DT) (.inr BB) (.ofFormula G) ∧ G.Holds σ

/-- The condition of a block is true where the block holds. -/
theorem holds_iff_conditionHolds {G : Term Value 1}
    (h : Memo.Value (analyze DL P intrange Backedges DT) (.inr BB) (.ofFormula G)) :
    G.Holds σ ↔ ConditionHolds DL P intrange Backedges DT σ BB := by
  constructor
  · intro hG
    exact ⟨G, h, hG⟩
  · rintro ⟨G', hG', hholds⟩
    obtain rfl := SMTExpr.ofFormula_inj.mp (h.unique hG')
    exact hholds

/-- What the condition computed from `preds` on says. By induction on the predecessors, with the
disjunction that was built so far in `G`. -/
theorem predGuard_yields {preds : List BlockId} {G : Term Value 1} {E : SMTExpr Value}
    (h : Yields (analyze DL P intrange Backedges DT)
      (predGuard P Backedges DT BB preds G) E) :
    ∃ G', E = .ofFormula G' ∧ ∀ σ, G'.Holds σ ↔ G.Holds σ ∨
      ∃ Pred ∈ preds, (DT.isNone && isBackedge Backedges Pred BB) = false ∧
        EdgeHolds DL P intrange Backedges DT σ Pred BB ∧
        ConditionHolds DL P intrange Backedges DT σ Pred := by
  induction preds generalizing G with
  | nil => exact ⟨G, (yields_ret.mp h).symm, by simp⟩
  | cons Pred preds ih =>
    unfold predGuard at h
    cases hskip : DT.isNone && isBackedge Backedges Pred BB with
    | true =>
      rw [if_pos hskip] at h
      obtain ⟨G', rfl, hholds⟩ := ih h
      refine ⟨G', rfl, fun σ => ?_⟩
      rw [hholds, List.exists_mem_cons_iff]
      simp [hskip]
    | false =>
      rw [if_neg (ne_true_of_eq_false hskip)] at h
      obtain ⟨g, hg, h⟩ := yields_bind.mp h
      obtain ⟨EPred, hEPred, h⟩ := yields_bind.mp h
      obtain ⟨GP, hGP, hnext⟩ := yields_bind.mp h
      obtain rfl := SMTExpr.formula_eq_ok.mp (yields_lift.mp hGP)
      obtain ⟨G', rfl, hholds⟩ := ih hnext
      refine ⟨G', rfl, fun σ => ?_⟩
      rw [hholds, Term.holds_bvor, Term.holds_bvand, holds_edgeGuard hg,
        holds_iff_conditionHolds (yields_ask.mp hEPred), List.exists_mem_cons_iff, or_assoc]
      simp only [hskip, true_and]

/-- What a computation of the condition from `preds` on has computed. The loop stops at the first
assertion that fails, so when it comes to an end every predecessor that is not skipped has a guard
and a condition. -/
theorem predGuard_eval {preds : List BlockId} {G : Term Value 1} {E : SMTExpr Value}
    {f : Key → Except Stop (SMTExpr Value)}
    (h : (predGuard P Backedges DT BB preds G).eval f = .ok E) (hPred : Pred ∈ preds)
    (hskip : (DT.isNone && isBackedge Backedges Pred BB) = false) :
    (∃ g, (edgeGuard P BB Pred).eval f = .ok g) ∧ ∃ EPred, f (.inr Pred) = .ok EPred := by
  induction preds generalizing G with
  | nil => cases hPred
  | cons Pred' preds ih =>
    unfold predGuard at h
    rcases List.mem_cons.mp hPred with rfl | hPred
    · rw [if_neg (ne_true_of_eq_false hskip)] at h
      simp only [eval_bind, eval_ask] at h
      obtain ⟨g, hg, h⟩ := bind_eq_ok.mp h
      obtain ⟨EPred, hEPred, -⟩ := bind_eq_ok.mp h
      exact ⟨⟨g, hg⟩, EPred, hEPred⟩
    · split at h
      · exact ih h hPred
      · simp only [eval_bind, eval_ask] at h
        obtain ⟨g, -, h⟩ := bind_eq_ok.mp h
        obtain ⟨EPred, -, h⟩ := bind_eq_ok.mp h
        obtain ⟨GP, -, h⟩ := bind_eq_ok.mp h
        exact ih h hPred

/-! ## Names in guards -/

variable {A : Key → SMTExpr Value → Prop} {W : Term Value 1 → Prop} {S : Value → Prop}

variable (A S) in
/-- An answer of `VG.get` for `V` reads names that satisfy `S` only. -/
def AsksValue (V : Value) : Prop := ∀ E, A (.inl V) E → ReadsOnly S E

/-- The disjunction over cases reads what the condition of the switch reads. -/
theorem caseGuard_ensures {L : SMTExpr Value} {p : BlockId → Bool}
    {cases : List (APInt × BlockId)} {E : Term Value 1} (hL : ReadsOnly S L)
    (hS : ∀ C, AsksValue A S (.constInt C)) (hE : ReadsOnly S (.ofFormula E)) :
    (caseGuard L p cases E).Ensures A W fun t => ReadsOnly S (.ofFormula t) := by
  induction cases generalizing E with
  | nil => exact hE
  | cons c cases ih =>
    obtain ⟨C, Succ⟩ := c
    unfold caseGuard
    split
    · simp only [getValue, ensures_bind, ensures_ask, ensures_lift]
      exact fun CI hCI Cond hCond => ih (hE.bvor (hL.cmp (hS C CI hCI) hCond))
    · exact ih hE

/-- The guard of a terminator reads what its operands read. -/
theorem getTermGuard_ensures {op : Opcode} (hop : ∀ V ∈ op.operands, AsksValue A S V)
    (hS : ∀ C, AsksValue A S (.constInt C)) :
    (getTermGuard op BB).Ensures A W fun t => ReadsOnly S (.ofFormula t) := by
  unfold getTermGuard
  split
  · exact readsOnly_bvtrue
  · simp only [getBranchGuard, getValue, ensures_bind, ensures_ask, ensures_lift]
    intro E hE e he
    have he' := (hop _ List.mem_cons_self E hE).formula he
    split
    · split
      · exact he'.bvnot
      · trivial
    · exact he'
  · simp only [getSwitchGuard, getValue, ensures_bind, ensures_ask]
    intro L hL
    have hL' := hop _ List.mem_cons_self L hL
    split
    · exact caseGuard_ensures hL' hS readsOnly_bvfalse
    · rw [ensures_bind]
      exact (caseGuard_ensures hL' hS readsOnly_bvfalse).mono fun e he => he.bvnot
  · exact readsOnly_bvtrue
  · exact readsOnly_bvtrue
  · trivial

variable (P A S) in
/-- The answers for a phi node and for what comes in from `Pred` read names that
satisfy `S` only. -/
def AsksPhi (Pred : BlockId) (i : InstId) : Prop :=
  ∀ incoming V, (P.inst i).op = .phi incoming → incomingValue? incoming Pred = some V →
    AsksValue A S (.inst i) ∧ AsksValue A S V

/-- The equations of the phi nodes read the phi nodes and what comes in. -/
theorem phiGuard_ensures {is : List InstId} {E : Term Value 1}
    (his : ∀ i ∈ is, AsksPhi P A S Pred i) (hE : ReadsOnly S (.ofFormula E)) :
    (phiGuard P Pred is E).Ensures A W fun t => ReadsOnly S (.ofFormula t) := by
  induction is generalizing E with
  | nil => exact hE
  | cons i is ih =>
    have his' : ∀ i ∈ is, AsksPhi P A S Pred i := fun j hj => his j (List.mem_cons_of_mem _ hj)
    unfold phiGuard
    split
    · rename_i incoming hop
      split
      · trivial
      · rename_i V hV
        obtain ⟨hi, hV'⟩ := his i List.mem_cons_self incoming V hop hV
        split
        · exact ih his' hE
        · simp only [getValue, ensures_bind, ensures_ask, ensures_lift]
          exact fun I hI J hJ PN hPN => ih his' (hE.bvand ((hi I hI).cmp (hV' J hJ) hPN))
    · exact hE

variable (P) in
/-- What is known of a term of `get`: the term of a value reads what the value is
computed from. -/
def Known : Key → SMTExpr Value → Prop
  | .inl V, E => ReadsOnly (Below P V) E
  | .inr _, _ => True

variable (DL P intrange Backedges DT) in
/-- The terms of values read what the values are computed from. -/
theorem analyze_known (k : Key) : (analyze DL P intrange Backedges DT k).Ensures (Known P)
    (fun _ => True) (Known P k) := by
  cases k with
  | inl V =>
    show ((ValueGen.analyze DL P intrange V).mapKey Sum.inl).Ensures _ _ _
    rw [ensures_mapKey]
    refine analyze_ensures .refl (fun U hU E hE => ?_) fun _ _ _ => trivial
    exact ReadsOnly.mono hE fun U' hU' => hU.trans hU'
  | inr BB => exact ensures_true _

variable (P S) in
/-- `S` has the value and what it is computed from. -/
def Covers (V : Value) : Prop := ∀ U, Below P V U → S U

/-- A value that is covered has a term that reads covered names only. -/
theorem Covers.asks {V : Value} (h : Covers P S V) : AsksValue (Known P) S V :=
  fun _ hE => ReadsOnly.mono hE h

theorem covers_constInt {C : APInt} (h : S (.constInt C)) : Covers P S (.constInt C) := by
  intro U hU
  rcases Relation.ReflTransGen.cases_head hU with rfl | ⟨U', hU', -⟩
  · exact h
  · cases hU'

/-- The guard of a terminator reads what its operands are computed from. -/
theorem termGuard_readsOnly {op : Opcode} {t : Term Value 1}
    (h : Yields (analyze DL P intrange Backedges DT) (getTermGuard op BB) t)
    (hop : ∀ V ∈ op.operands, Covers P S V) (hS : ∀ C, S (.constInt C)) :
    ReadsOnly S (.ofFormula t) :=
  h.ensures (analyze_known DL P intrange Backedges DT)
    (getTermGuard_ensures (fun V hV => (hop V hV).asks) fun C => (covers_constInt (hS C)).asks)

/-- The equations of the phi nodes read the phi nodes and what comes in. -/
theorem phiGuard_readsOnly {p : Term Value 1}
    (h : Yields (analyze DL P intrange Backedges DT) (getPHIGuard P BB Pred) p)
    (hphis : ∀ i ∈ (P.block BB).insts, ∀ incoming V, (P.inst i).op = .phi incoming →
      incomingValue? incoming Pred = some V → Covers P S (.inst i) ∧ Covers P S V) :
    ReadsOnly S (.ofFormula p) := by
  refine h.ensures (analyze_known DL P intrange Backedges DT)
    (phiGuard_ensures (fun i hi incoming V hop hV => ?_) readsOnly_bvtrue)
  obtain ⟨hi', hV'⟩ := hphis i hi incoming V hop hV
  exact ⟨hi'.asks, hV'.asks⟩

/-! ## Assumptions -/

/-- The disjunction over the predecessors assumes nothing but what the calls assume. -/
theorem predGuard_ensures {preds : List BlockId} {G : Term Value 1} :
    (predGuard P Backedges DT BB preds G).Ensures (fun _ _ => True) W fun _ => True := by
  have hasks : ∀ V, AsksValue (fun _ _ => True) (fun _ => True) V := fun _ _ _ => readsOnly_top
  induction preds generalizing G with
  | nil => trivial
  | cons Pred preds ih =>
    unfold predGuard
    split
    · exact ih
    · simp only [edgeGuard, ensures_bind]
      refine (getTermGuard_ensures (fun V _ => hasks V) fun C => hasks _).mono fun t _ => ?_
      refine (phiGuard_ensures (fun i _ incoming V _ _ => ⟨hasks _, hasks V⟩)
        readsOnly_bvtrue).mono fun p _ => ?_
      simp only [ensures_pure, ensures_ask, ensures_lift]
      exact fun _ _ _ _ => ih

variable (DL P intrange Backedges DT) in
/-- What is assumed on the way are range conditions. -/
theorem analyze_assumes (k : Key) : (analyze DL P intrange Backedges DT k).Ensures
    (fun _ _ => True) (fun Cond => ∃ i, Assumes DL P intrange i Cond) fun _ => True := by
  cases k with
  | inl V =>
    show ((ValueGen.analyze DL P intrange V).mapKey Sum.inl).Ensures _ _ _
    rw [ensures_mapKey]
    exact ValueGen.analyze_assumes V
  | inr BB =>
    show (analyzeBlock P Backedges DT BB).Ensures _ _ _
    unfold analyzeBlock
    split
    · trivial
    · split
      · split
        · exact fun _ _ => trivial
        · exact predGuard_ensures
      · exact predGuard_ensures

end Guards

end Kint.PathGen
