import Kint.CmpSat
import Kint.DepthFirst
import Kint.PathGen.Exact

/-!
# When `PathGen::get` ends

`get` of a block calls itself for the predecessors of the block, except along back edges, or for
their nearest common dominator.  The back edges come from a depth-first search that starts at
the entry block, so it says nothing about blocks that the entry block does not reach; the
dominator tree says nothing about them either.

Among the reachable blocks every call goes to a block that the search leaves later (`rank_lt`):
this is so for the edges that are not back edges, and also for the jump to a common dominator,
which lies on the path by which the search came to the block.  Blocks that are not reachable are
followed along all edges.  So the recursion is finite exactly if it does not come to a cycle of
unreachable blocks (`get_terminates_iff`).

## From the code to the graph

`CallsGet` is read off the code: for some answers to the calls before, `get` of one block is
called.  `Follows` is the relation on blocks.  They agree (`callsGet_iff`): the guards ask for
values only (the lemmas with `not_asks_`), and where all answers are the formula *true*, no
assertion fails and the loop runs to its end (those with `_returns`).

## The example

`deadLoop` has a loop that nothing leads to and that leads to a block which control does reach.
No fuel is enough for that block (`dead_loop_diverges`).
-/

namespace Kint.PathGen

open Iteration Memo SMT Calls Relation

section Recursion

variable (P : Program) (Backedges : List (BlockId × BlockId))
  (DT : Option (BlockId → BlockId → BlockId))

/-- `get` of `BB` calls `get` of `X`, for some results of the calls before it. -/
def CallsGet (X BB : BlockId) : Prop := (analyzeBlock P Backedges DT BB).Asks (.inr X)

/-- Every sequence of nested calls of `get` that starts with `get` of the block is finite,
whatever is in the tables.  As there is at most one call for each predecessor, these are
finitely many calls. -/
def FinitelyManyCalls (BB : BlockId) : Prop := Acc (CallsGet P Backedges DT) BB

/-- The loop over the predecessors of `BB` comes to `Pred`. -/
def FollowsEdge (Pred BB : BlockId) : Prop :=
  Pred ∈ (P.block BB).preds ∧
    ((DT = none ∧ isBackedge Backedges Pred BB = false) ∨
      (DT ≠ none ∧ hasBackedge P Backedges BB = false))

/-- The blocks that `get` of `BB` looks at: predecessors, or their nearest common
dominator. -/
def Follows (X BB : BlockId) : Prop :=
  isEntryBlock P BB = false ∧ (FollowsEdge P Backedges DT X BB ∨
    ∃ ncd, DT = some ncd ∧ hasBackedge P Backedges BB = true ∧
      X = findCommonDominator ncd (P.block BB).preds)

/-- What the verifier checks of the control flow of a function, in all its blocks. Unlike `SSAForm`,
this includes dead blocks, which the recursion may come to. -/
structure ControlFlow (F : FuncId) (entry : BlockId) : Prop where
  entry_block : (P.func F).blocks.head? = some entry
  parent : ∀ BB ∈ (P.func F).blocks, (P.block BB).parent = F
  closed : ∀ Pred BB, Edge P Pred BB → (Pred ∈ (P.func F).blocks ↔ BB ∈ (P.func F).blocks)
  succ_of_pred : ∀ Pred BB, Edge P Pred BB →
    BB ∈ (P.inst (P.block Pred).term).op.successors
  incoming : ∀ Pred BB, Edge P Pred BB → ∀ i ∈ (P.block BB).insts, ∀ incoming,
    (P.inst i).op = .phi incoming → ∃ V, incomingValue? incoming Pred = some V

/-- The guards of the edges that are followed into a block are defined: `ValueGen::get`
returns for the values in them, and no assertion fails. -/
def GuardsReturn (DL : DataLayout) (intrange : InstId → Option (List (APInt × APInt)))
    (BB : BlockId) : Prop :=
  ∀ Pred, FollowsEdge P Backedges DT Pred BB →
    ∃ g, Yields (analyze DL P intrange Backedges DT) (edgeGuard P BB Pred) g

end Recursion

section Calls

variable {P : Program} {Backedges : List (BlockId × BlockId)}
  {DT : Option (BlockId → BlockId → BlockId)} {F : FuncId} {entry BB Pred X : BlockId}

/-! ## The calls -/

theorem isBackedge_iff : isBackedge Backedges Pred BB = true ↔ (Pred, BB) ∈ Backedges := by
  simp [isBackedge]

/-- Where no edge into a block is a back edge, none is. -/
theorem isBackedge_of_hasBackedge (h : hasBackedge P Backedges BB = false)
    (hPred : Pred ∈ (P.block BB).preds) : isBackedge Backedges Pred BB = false := by
  simp only [hasBackedge, List.any_eq_false] at h
  exact eq_false_of_ne_true (h Pred hPred)

/-! ### Guards call nothing but `VG.get` -/

theorem not_asks_getValue {V : Value} : ¬ (getValue V).Asks (.inr X) := by
  intro h
  cases asks_ask.mp h

/-- The disjunction over cases asks for values only. -/
theorem not_asks_caseGuard {L : SMTExpr Value} {p : BlockId → Bool}
    {cases : List (APInt × BlockId)} {E : Term Value 1} :
    ¬ (caseGuard L p cases E).Asks (.inr X) := by
  induction cases generalizing E with
  | nil => exact asks_ret
  | cons c cases ih =>
    intro h
    unfold caseGuard at h
    split at h
    · rcases asks_bind h with h | ⟨CI, h⟩
      · exact not_asks_getValue h
      · rcases asks_bind h with h | ⟨Cond, h⟩
        · exact asks_lift h
        · exact ih h
    · exact ih h

/-- The guard of a terminator asks for values only. -/
theorem not_asks_getTermGuard {op : Opcode} : ¬ (getTermGuard op BB).Asks (.inr X) := by
  intro h
  unfold getTermGuard at h
  split at h
  · exact asks_ret h
  · rcases asks_bind h with h | ⟨V, h⟩
    · exact not_asks_getValue h
    · rcases asks_bind h with h | ⟨E, h⟩
      · exact asks_lift h
      · split at h
        · split at h
          · exact asks_pure h
          · exact asks_stop h
        · exact asks_pure h
  · rcases asks_bind h with h | ⟨L, h⟩
    · exact not_asks_getValue h
    · split at h
      · exact not_asks_caseGuard h
      · rcases asks_bind h with h | ⟨E, h⟩
        · exact not_asks_caseGuard h
        · exact asks_pure h
  · exact asks_ret h
  · exact asks_ret h
  · exact asks_stop h

/-- The equations of the phi nodes ask for values only. -/
theorem not_asks_phiGuard {is : List InstId} {E : Term Value 1} :
    ¬ (phiGuard P Pred is E).Asks (.inr X) := by
  induction is generalizing E with
  | nil => exact asks_ret
  | cons i is ih =>
    intro h
    unfold phiGuard at h
    split at h
    · split at h
      · exact asks_stop h
      · split at h
        · exact ih h
        · rcases asks_bind h with h | ⟨I, h⟩
          · exact not_asks_getValue h
          · rcases asks_bind h with h | ⟨V', h⟩
            · exact not_asks_getValue h
            · rcases asks_bind h with h | ⟨PN, h⟩
              · exact asks_lift h
              · exact ih h
    · exact asks_ret h

theorem not_asks_edgeGuard : ¬ (edgeGuard P BB Pred).Asks (.inr X) := by
  intro h
  rcases asks_bind h with h | ⟨t, h⟩
  · exact not_asks_getTermGuard h
  · rcases asks_bind h with h | ⟨p, h⟩
    · exact not_asks_phiGuard h
    · exact asks_pure h

/-! ### Guards are defined when every value has a formula -/

/-- An answer to every call: a formula. -/
def trueAnswer : Key → Except Stop (SMTExpr Value) := fun _ => .ok (.ofFormula .bvtrue)

theorem trueAnswer_apply (k : Key) : trueAnswer k = .ok (.ofFormula .bvtrue) := rfl

/-- With formulas as answers, the disjunction over cases fails no assertion. -/
theorem caseGuard_returns {p : BlockId → Bool} {cases : List (APInt × BlockId)}
    {E : Term Value 1} :
    ∃ t, (caseGuard (.ofFormula .bvtrue) p cases E).eval trueAnswer = .ok t := by
  induction cases generalizing E with
  | nil => exact ⟨E, rfl⟩
  | cons c cases ih =>
    unfold caseGuard
    split
    · exact ih
    · exact ih

/-- With formulas as answers, the guard of a terminator for one of its successors fails no
assertion. -/
theorem getTermGuard_returns {op : Opcode} (hsucc : BB ∈ op.successors) :
    ∃ t, (getTermGuard op BB).eval trueAnswer = .ok t := by
  cases op with
  | br dest => exact ⟨_, rfl⟩
  | otherTerm operands dests => exact ⟨_, rfl⟩
  | invoke callee args normalDest unwindDest => exact ⟨_, rfl⟩
  | condBr cond ifTrue ifFalse =>
    by_cases hT : ifTrue = BB
    · exact ⟨.bvtrue, by
        simp [getTermGuard, getBranchGuard, getValue, hT, trueAnswer_apply, Calls.lift]⟩
    · have hF : ifFalse = BB := by
        rcases List.mem_pair.mp hsucc with h | h
        · exact absurd h.symm hT
        · exact h.symm
      exact ⟨.bvnot .bvtrue,
        by simp [getTermGuard, getBranchGuard, getValue, hT, hF, trueAnswer_apply, Calls.lift]⟩
  | switch cond defaultDest cases =>
    by_cases hd : defaultDest = BB
    · obtain ⟨t, ht⟩ : ∃ t, (caseGuard (.ofFormula .bvtrue) (fun _ => true) cases .bvfalse).eval
        trueAnswer = .ok t := caseGuard_returns
      exact ⟨.bvnot t, by simp [getTermGuard, getSwitchGuard, getValue, hd, trueAnswer_apply, ht]⟩
    · obtain ⟨t, ht⟩ : ∃ t, (caseGuard (.ofFormula .bvtrue) (fun Succ => Succ = BB) cases
        .bvfalse).eval trueAnswer = .ok t := caseGuard_returns
      exact ⟨t, by simp [getTermGuard, getSwitchGuard, getValue, hd, trueAnswer_apply, ht]⟩
  | _ => cases hsucc

/-- With formulas as answers, the equations fail no assertion where every phi node has a value for
the predecessor. -/
theorem phiGuard_returns {is : List InstId} {E : Term Value 1}
    (his : ∀ i ∈ is, ∀ incoming, (P.inst i).op = .phi incoming →
      ∃ V, incomingValue? incoming Pred = some V) :
    ∃ t, (phiGuard P Pred is E).eval trueAnswer = .ok t := by
  induction is generalizing E with
  | nil => exact ⟨E, rfl⟩
  | cons i is ih =>
    have his' := fun j hj => his j (List.mem_cons_of_mem i hj)
    unfold phiGuard
    split
    · next incoming hop =>
      obtain ⟨V, hV⟩ := his i List.mem_cons_self incoming hop
      rw [hV]
      simp only
      split
      · exact ih his'
      · exact ih his'
    · exact ⟨E, rfl⟩

/-- With formulas as answers, the guard of an edge fails no assertion. -/
theorem edgeGuard_returns (hcfg : ControlFlow P F entry) (hedge : Edge P Pred BB) :
    ∃ g, (edgeGuard P BB Pred).eval trueAnswer = .ok g := by
  obtain ⟨t, ht⟩ := getTermGuard_returns (hcfg.succ_of_pred Pred BB hedge)
  obtain ⟨p, hp⟩ : ∃ p, (phiGuard P Pred (P.block BB).insts .bvtrue).eval trueAnswer = .ok p :=
    phiGuard_returns (hcfg.incoming Pred BB hedge)
  exact ⟨.bvand t p, by simp [edgeGuard, getPHIGuard, ht, hp]⟩

/-! ### The calls of a block -/

theorem not_skipped (h : FollowsEdge P Backedges DT Pred BB) :
    (DT.isNone && isBackedge Backedges Pred BB) = false := by
  have hback : isBackedge Backedges Pred BB = false := by
    rcases h.2 with ⟨-, hskip⟩ | ⟨-, hback⟩
    · exact hskip
    · exact isBackedge_of_hasBackedge hback h.1
  rw [hback, Bool.and_false]

/-- The loop asks for predecessors that it does not skip. -/
theorem asks_predGuard {preds : List BlockId} {G : Term Value 1}
    (h : (predGuard P Backedges DT BB preds G).Asks (.inr X)) :
    X ∈ preds ∧ (DT.isNone && isBackedge Backedges X BB) = false := by
  induction preds generalizing G with
  | nil => exact absurd h asks_ret
  | cons Pred preds ih =>
    unfold predGuard at h
    split at h
    · exact (ih h).imp_left (List.mem_cons_of_mem Pred)
    · next hskip =>
      rcases asks_bind h with h | ⟨g, h⟩
      · exact absurd h not_asks_edgeGuard
      · rcases asks_bind h with h | ⟨E, h⟩
        · obtain rfl := Sum.inr.inj (asks_ask.mp h)
          exact ⟨List.mem_cons_self, eq_false_of_ne_true hskip⟩
        · rcases asks_bind h with h | ⟨G', h⟩
          · exact absurd h asks_lift
          · exact (ih h).imp_left (List.mem_cons_of_mem Pred)

/-- The loop asks for each of these, if the guards before it are defined. -/
theorem predGuard_asks {preds : List BlockId} {G : Term Value 1}
    (hguard : ∀ Pred ∈ preds, ∃ g, (edgeGuard P BB Pred).eval trueAnswer = .ok g)
    (hX : X ∈ preds) (hskip : (DT.isNone && isBackedge Backedges X BB) = false) :
    (predGuard P Backedges DT BB preds G).Asks (.inr X) := by
  induction preds generalizing G with
  | nil => cases hX
  | cons Pred preds ih =>
    have hguard' := fun Q hQ => hguard Q (List.mem_cons_of_mem Pred hQ)
    obtain ⟨g, hg⟩ := hguard Pred List.mem_cons_self
    unfold predGuard
    rcases List.mem_cons.mp hX with rfl | hX
    · rw [if_neg (ne_true_of_eq_false hskip)]
      exact Asks.after hg (Asks.bind (asks_ask.mpr rfl))
    · split
      · exact ih hguard' hX
      · have hask : (ask (.inr Pred) : Visit (SMTExpr Value)).eval trueAnswer =
            .ok (.ofFormula .bvtrue) := eval_ask ..
        exact Asks.after hg (Asks.after hask (Asks.after (f := trueAnswer) rfl (ih hguard' hX)))

/-- The calls of the code are those along the edges that are followed. An answer to every call that
lets the code go on is given by `trueAnswer`; that the code asks for nothing else is read off its
parts. -/
theorem callsGet_iff (hcfg : ControlFlow P F entry) :
    CallsGet P Backedges DT X BB ↔ Follows P Backedges DT X BB := by
  unfold CallsGet Follows analyzeBlock
  cases hentry : isEntryBlock P BB with
  | true => simp
  | false =>
    have hguard : ∀ Pred ∈ (P.block BB).preds,
        ∃ g, (edgeGuard P BB Pred).eval trueAnswer = .ok g :=
      fun Pred hPred => edgeGuard_returns hcfg hPred
    rw [if_neg Bool.false_ne_true]
    cases DT with
    | none =>
      refine ⟨fun h => ⟨rfl, .inl ?_⟩, ?_⟩
      · obtain ⟨hX, hskip⟩ := asks_predGuard h
        exact ⟨hX, .inl ⟨rfl, hskip⟩⟩
      · rintro ⟨-, h | ⟨ncd, h, -⟩⟩
        · exact predGuard_asks hguard h.1 (not_skipped h)
        · cases h
    | some ncd =>
      cases hback : hasBackedge P Backedges BB with
      | true =>
        simp only [if_true]
        rw [asks_ask]
        constructor
        · intro h
          exact ⟨trivial, .inr ⟨ncd, rfl, trivial, Sum.inr.inj h⟩⟩
        · rintro ⟨-, ⟨-, ⟨h, -⟩ | ⟨-, h⟩⟩ | ⟨ncd', h, -, rfl⟩⟩
          · cases h
          · cases hback.symm.trans h
          · obtain rfl := Option.some.inj h
            rfl
      | false =>
        simp only [Bool.false_eq_true, if_false]
        refine ⟨fun h => ⟨trivial, .inl ⟨(asks_predGuard h).1, .inr ⟨by simp, hback⟩⟩⟩, ?_⟩
        rintro ⟨-, h | ⟨ncd', -, h, -⟩⟩
        · exact predGuard_asks hguard h.1 (not_skipped h)
        · cases h

/-! ## Reachable and unreachable blocks -/

theorem ControlFlow.isEntryBlock_iff (hcfg : ControlFlow P F entry)
    (hBB : BB ∈ (P.func F).blocks) : isEntryBlock P BB = true ↔ BB = entry := by
  unfold isEntryBlock
  rw [hcfg.parent BB hBB, hcfg.entry_block, decide_eq_true_eq, Option.some_inj]
  exact eq_comm

/-- The reachable blocks belong to the function. -/
theorem ControlFlow.reachable_mem (hcfg : ControlFlow P F entry)
    (h : Reachable P entry BB) : BB ∈ (P.func F).blocks := by
  induction h with
  | start => exact List.mem_of_mem_head? hcfg.entry_block
  | step _ hedge _ ih => exact (hcfg.closed _ _ hedge).mp ih

section Search

/-- The search finds no back edge into an unreachable block. -/
theorem hasBackedge_of_unreachable
    (hback : DepthFirst.IsBackEdges (Edge P) entry Backedges) (hBB : ¬ Reachable P entry BB) :
    hasBackedge P Backedges BB = false := by
  obtain ⟨-, -, -, hreach⟩ := hback.exists_rank
  simp only [hasBackedge, List.any_eq_false]
  intro Pred hPred he
  exact hBB ((hreach Pred BB (isBackedge_iff.mp he)).1.step hPred)

/-- All edges into an unreachable block are followed, and nothing else. -/
theorem follows_iff_of_unreachable (hcfg : ControlFlow P F entry)
    (hback : DepthFirst.IsBackEdges (Edge P) entry Backedges)
    (hmem : BB ∈ (P.func F).blocks) (hBB : ¬ Reachable P entry BB) :
    Follows P Backedges DT X BB ↔ Edge P X BB := by
  have hnot := hasBackedge_of_unreachable hback hBB
  have hentry : isEntryBlock P BB = false := by
    refine eq_false_of_ne_true fun h => hBB ?_
    rw [(hcfg.isEntryBlock_iff hmem).mp h]
    exact .start
  constructor
  · rintro ⟨-, h | ⟨ncd, -, h, -⟩⟩
    · exact h.1
    · cases hnot.symm.trans h
  · intro hedge
    refine ⟨hentry, .inl ⟨hedge, ?_⟩⟩
    by_cases h : DT = none
    · exact .inl ⟨h, isBackedge_of_hasBackedge hnot hedge⟩
    · exact .inr ⟨h, hnot⟩

/-- The nearest common dominator of the predecessors of a reachable block dominates the
block strictly. -/
theorem commonDominator_strict {ncd : BlockId → BlockId → BlockId}
    (hncd : NearestCommonDominators P ncd entry) (hBB : Reachable P entry BB) (hne : BB ≠ entry) :
    Reachable P entry (findCommonDominator ncd (P.block BB).preds) ∧
      Dominates P entry (findCommonDominator ncd (P.block BB).preds) BB ∧
      findCommonDominator ncd (P.block BB).preds ≠ BB := by
  have hdom : ∀ Pred, Edge P Pred BB →
      Dominates P entry (findCommonDominator ncd (P.block BB).preds) Pred :=
    fun Pred hPred => (findCommonDominator_spec hncd hPred).1
  obtain ⟨Pred, havoid, hedge⟩ := hBB.first_arrival hne
  refine ⟨Dominates.reachable (hdom Pred hedge) havoid.reach, fun hpath => ?_, fun heq => ?_⟩
  · cases hpath with
    | start _ => exact hne rfl
    | step hu huv _ => exact hdom _ huv hu
  · have := hdom Pred hedge
    rw [heq] at this
    exact this havoid

/-- Every block that is called stays in the function. -/
theorem follows_mem (hcfg : ControlFlow P F entry)
    (hback : DepthFirst.IsBackEdges (Edge P) entry Backedges)
    (hDT : ∀ ncd, DT = some ncd → NearestCommonDominators P ncd entry)
    (hmem : BB ∈ (P.func F).blocks) (h : Follows P Backedges DT X BB) :
    X ∈ (P.func F).blocks := by
  obtain ⟨hentry, h | ⟨ncd, hncd, hheader, rfl⟩⟩ := h
  · exact (hcfg.closed X BB h.1).mpr hmem
  · have hBB : Reachable P entry BB := by
      by_contra hBB
      cases (hasBackedge_of_unreachable hback hBB).symm.trans hheader
    have hne : BB ≠ entry := fun heq =>
      Bool.false_ne_true (hentry.symm.trans ((hcfg.isEntryBlock_iff hmem).mpr heq))
    exact hcfg.reachable_mem (commonDominator_strict (hDT ncd hncd) hBB hne).1

/-- The blocks that are called from reachable blocks are unreachable, or the search left
them later. -/
theorem rank_lt (hcfg : ControlFlow P F entry)
    (hDT : ∀ ncd, DT = some ncd → NearestCommonDominators P ncd entry) {rank : BlockId → ℕ}
    (hrank : ∀ u v, Reachable P entry u → DepthFirst.Forward (Edge P) Backedges u v →
      rank u < rank v)
    (hforward : ∀ v, Reachable P entry v →
      Digraph.Reach (DepthFirst.Forward (Edge P) Backedges) entry v)
    (hBB : Reachable P entry BB) (hX : Reachable P entry X)
    (h : Follows P Backedges DT X BB) : rank X < rank BB := by
  obtain ⟨hentry, h | ⟨ncd, hncd, -, rfl⟩⟩ := h
  · refine hrank X BB hX ⟨h.1, fun he => ?_⟩
    have hskip : isBackedge Backedges X BB = false := by
      rcases h.2 with ⟨-, hskip⟩ | ⟨-, hnot⟩
      · exact hskip
      · exact isBackedge_of_hasBackedge hnot h.1
    exact Bool.false_ne_true (hskip.symm.trans (isBackedge_iff.mpr he))
  · have hne : BB ≠ entry := fun heq => Bool.false_ne_true
      (hentry.symm.trans ((hcfg.isEntryBlock_iff (hcfg.reachable_mem hBB)).mpr heq))
    obtain ⟨-, hdom, hstrict⟩ := commonDominator_strict (hDT ncd hncd) hBB hne
    exact DepthFirst.rank_lt_of_dom hrank (hforward BB hBB) hdom hstrict

/-! ## The recursion -/

variable (P Backedges DT entry) in
/-- No cycle of blocks that are unreachable from the entry block leads to `BB` along what
`get` looks at. -/
def NoUnreachableCycle (BB : BlockId) : Prop :=
  ∀ X, ¬ Reachable P entry X → TransGen (Edge P) X X →
    ¬ ReflTransGen (Follows P Backedges DT) X BB

/-- Without such a cycle, the blocks that the recursion comes to are well-founded. Among reachable
blocks the rank of the depth-first search decreases, and unreachable blocks form a finite graph
without a cycle; from a reachable block the recursion may come to an unreachable one, but never
back. -/
theorem acc_of_noUnreachableCycle (hcfg : ControlFlow P F entry)
    (hback : DepthFirst.IsBackEdges (Edge P) entry Backedges)
    (hDT : ∀ ncd, DT = some ncd → NearestCommonDominators P ncd entry)
    (hmem : BB ∈ (P.func F).blocks)
    (h : NoUnreachableCycle P Backedges DT entry BB) : Acc (Follows P Backedges DT) BB := by
  obtain ⟨rank, hrank, hforward, -⟩ := hback.exists_rank
  -- the edges between unreachable blocks that the recursion may follow
  let U : BlockId → BlockId → Prop := fun X Y =>
    Edge P X Y ∧ ¬ Reachable P entry Y ∧ ReflTransGen (Follows P Backedges DT) Y BB
  have hwf : WellFounded U := by
    refine Digraph.wellFounded_of_acyclic ?_ fun X hcycle => ?_
    · refine (edge_targets_finite P).subset ?_
      rintro Y ⟨X, hXY⟩
      exact ⟨X, hXY.1⟩
    · obtain ⟨Y, -, -, hX, hlead⟩ := TransGen.tail'_iff.mp hcycle
      exact h X hX (hcycle.lift id fun _ _ hXY => hXY.1) hlead
  have hunreachable : ∀ X, X ∈ (P.func F).blocks → ¬ Reachable P entry X →
      ReflTransGen (Follows P Backedges DT) X BB → Acc (Follows P Backedges DT) X := by
    intro X
    induction X using hwf.induction with
    | _ X ih =>
      intro hX hnot hlead
      refine ⟨_, fun Y hY => ?_⟩
      have hedge := (follows_iff_of_unreachable hcfg hback hX hnot).mp hY
      exact ih Y ⟨hedge, hnot, hlead⟩ (follows_mem hcfg hback hDT hX hY)
        (fun hreach => hnot (hreach.step hedge)) (.head hY hlead)
  -- the search left the reachable blocks that are called later
  have hreachable : ∀ X, Reachable P entry X →
      ReflTransGen (Follows P Backedges DT) X BB → Acc (Follows P Backedges DT) X := by
    intro X
    induction X using (measure rank).wf.induction with
    | _ X ih =>
      intro hX hlead
      refine ⟨_, fun Y hY => ?_⟩
      by_cases hreach : Reachable P entry Y
      · exact ih Y (rank_lt hcfg hDT hrank hforward hX hreach hY) hreach (.head hY hlead)
      · exact hunreachable Y (follows_mem hcfg hback hDT (hcfg.reachable_mem hX) hY) hreach
          (.head hY hlead)
  by_cases hreach : Reachable P entry BB
  · exact hreachable BB hreach .refl
  · exact hunreachable BB hmem hreach .refl

/-- Where every sequence of nested calls is finite, there is no such cycle. A cycle is an infinite
sequence of nested calls. -/
theorem noUnreachableCycle_of_acc (hcfg : ControlFlow P F entry)
    (hback : DepthFirst.IsBackEdges (Edge P) entry Backedges)
    (hDT : ∀ ncd, DT = some ncd → NearestCommonDominators P ncd entry)
    (hmem : BB ∈ (P.func F).blocks) (h : Acc (Follows P Backedges DT) BB) :
    NoUnreachableCycle P Backedges DT entry BB := by
  intro X hX hcycle hlead
  obtain ⟨hXmem, hacc⟩ : X ∈ (P.func F).blocks ∧ Acc (Follows P Backedges DT) X := by
    clear hX hcycle
    induction hlead using ReflTransGen.head_induction_on with
    | refl => exact ⟨hmem, h⟩
    | head hfollows _ ih => exact ⟨follows_mem hcfg hback hDT ih.1 hfollows, ih.2.inv hfollows⟩
  -- all blocks of the cycle are unreachable, so it is followed
  have hbefore : ∀ Y, ReflTransGen (Edge P) Y X →
      Y ∈ (P.func F).blocks ∧ ¬ Reachable P entry Y := by
    intro Y hY
    induction hY using ReflTransGen.head_induction_on with
    | refl => exact ⟨hXmem, hX⟩
    | head hedge _ ih =>
      exact ⟨(hcfg.closed _ _ hedge).mpr ih.1, fun hreach => ih.2 (hreach.step hedge)⟩
  have hfollows : ∀ Y Z, Edge P Y Z → ReflTransGen (Edge P) Z X →
      Follows P Backedges DT Y Z := fun Y Z hedge hZ =>
    (follows_iff_of_unreachable hcfg hback (hbefore Z hZ).1 (hbefore Z hZ).2).mpr hedge
  have hpath : ∀ Y, TransGen (Edge P) Y X → TransGen (Follows P Backedges DT) Y X := by
    intro Y hY
    induction hY using TransGen.head_induction_on with
    | single hedge => exact .single (hfollows _ X hedge .refl)
    | head hedge hpath ih => exact .head (hfollows _ _ hedge hpath.to_reflTransGen) ih
  exact Digraph.not_transGen_of_acc hacc (hpath X hcycle)

end Search

/-! ## The tables -/

variable {DL : DataLayout} {intrange : InstId → Option (List (APInt × APInt))}

/-- A result for a block has come from results for all blocks that `get` looks at. The calls of the
body are made in order, and each of them has a result where the body has one. -/
theorem solve_follows {n : ℕ} {E : SMTExpr Value}
    (hE : solve (analyze DL P intrange Backedges DT) (n + 1) (.inr BB) = .ok E)
    (hX : Follows P Backedges DT X BB) :
    ∃ E', solve (analyze DL P intrange Backedges DT) n (.inr X) = .ok E' := by
  obtain ⟨hentry, hX⟩ := hX
  change (analyzeBlock P Backedges DT BB).eval _ = _ at hE
  unfold analyzeBlock at hE
  rw [hentry, if_neg Bool.false_ne_true] at hE
  cases DT with
  | none =>
    rcases hX with hX | ⟨ncd, h, -⟩
    · exact (predGuard_eval hE hX.1 (not_skipped hX)).2
    · cases h
  | some ncd =>
    rcases hX with hX | ⟨ncd', h, hback, rfl⟩
    · have hback : hasBackedge P Backedges BB = false := by
        rcases hX.2 with ⟨h, -⟩ | ⟨-, hback⟩
        · cases h
        · exact hback
      simp only [hback, Bool.false_eq_true, if_false] at hE
      exact (predGuard_eval hE hX.1 (not_skipped hX)).2
    · obtain rfl := Option.some.inj h
      simp only [hback, if_true, eval_ask] at hE
      exact ⟨E, hE⟩

/-- Where a condition was made, the blocks that were looked at are well-founded. -/
theorem acc_of_value {E : SMTExpr Value}
    (hE : Memo.Value (analyze DL P intrange Backedges DT) (.inr BB) E) :
    Acc (Follows P Backedges DT) BB := by
  obtain ⟨n, hn⟩ := hE
  induction n generalizing BB E with
  | zero => cases hn
  | succ n ih =>
    refine ⟨_, fun X hX => ?_⟩
    obtain ⟨E', hE'⟩ := solve_follows hn hX
    exact ih hE'

/-- The predecessors that the loop does not skip are those that it follows. -/
theorem followsEdge_of_not_skipped {Pred : BlockId}
    (hno : DT = none ∨ hasBackedge P Backedges BB = false) (hPred : Pred ∈ (P.block BB).preds)
    (hskip : (DT.isNone && isBackedge Backedges Pred BB) = false) :
    FollowsEdge P Backedges DT Pred BB := by
  refine ⟨hPred, ?_⟩
  by_cases hDT : DT = none
  · subst hDT
    exact .inl ⟨rfl, hskip⟩
  · exact .inr ⟨hDT, hno.resolve_left hDT⟩

/-- The loop over the predecessors yields a condition if the blocks that it looks at have
one. -/
theorem predGuard_value (hno : DT = none ∨ hasBackedge P Backedges BB = false)
    (hentry : isEntryBlock P BB = false) (hguards : GuardsReturn P Backedges DT DL intrange BB)
    (hvalues : ∀ X, Follows P Backedges DT X BB →
      ∃ G, Memo.Value (analyze DL P intrange Backedges DT) (.inr X) (.ofFormula G)) :
    ∃ G, Yields (analyze DL P intrange Backedges DT)
      (predGuard P Backedges DT BB (P.block BB).preds .bvfalse) (.ofFormula G) := by
  have hfollows : ∀ Pred ∈ (P.block BB).preds,
      (DT.isNone && isBackedge Backedges Pred BB) = false → FollowsEdge P Backedges DT Pred BB :=
    fun Pred hPred hskip => followsEdge_of_not_skipped hno hPred hskip
  obtain ⟨E, hE⟩ := predGuard_defined
    (fun Pred hPred hskip => hguards Pred (hfollows Pred hPred hskip))
    fun Pred hPred hskip => hvalues Pred ⟨hentry, .inl (hfollows Pred hPred hskip)⟩
  obtain ⟨G, rfl, -⟩ := predGuard_yields hE
  exact ⟨G, hE⟩

/-- The body of `get` yields a condition if the blocks that it looks at have one. With formulas for
these blocks the loop comes to its end, and what it has built is a formula. -/
theorem analyzeBlock_value (hguards : GuardsReturn P Backedges DT DL intrange BB)
    (hvalues : ∀ X, Follows P Backedges DT X BB →
      ∃ G, Memo.Value (analyze DL P intrange Backedges DT) (.inr X) (.ofFormula G)) :
    ∃ G, Yields (analyze DL P intrange Backedges DT)
      (analyzeBlock P Backedges DT BB) (.ofFormula G) := by
  unfold analyzeBlock
  cases hentry : isEntryBlock P BB with
  | true => exact ⟨.bvtrue, yields_ret.mpr rfl⟩
  | false =>
    rw [if_neg Bool.false_ne_true]
    cases DT with
    | none => exact predGuard_value (.inl rfl) hentry hguards hvalues
    | some ncd =>
      cases hback : hasBackedge P Backedges BB with
      | true =>
        obtain ⟨G, hG⟩ := hvalues _ ⟨hentry, .inr ⟨ncd, rfl, hback, rfl⟩⟩
        refine ⟨G, ?_⟩
        simp only [if_true]
        exact yields_ask.mpr hG
      | false =>
        simp only [Bool.false_eq_true, if_false]
        exact predGuard_value (.inr hback) hentry hguards hvalues

/-- A block has a condition where the recursion ends and no guard on the way fails. -/
theorem exists_value_of_acc (h : Acc (Follows P Backedges DT) BB)
    (hguards : ∀ B, ReflTransGen (Follows P Backedges DT) B BB →
      GuardsReturn P Backedges DT DL intrange B) :
    ∃ G, Memo.Value (analyze DL P intrange Backedges DT) (.inr BB) (.ofFormula G) := by
  induction h with
  | intro BB _ ih =>
    obtain ⟨G, hG⟩ := analyzeBlock_value (hguards BB .refl) fun X hX =>
      ih X hX fun B hB => hguards B (hB.tail hX)
    exact ⟨G, value_iff_yields.mpr hG⟩

/-- `PathGen::get` of a block of a function makes finitely many recursive calls exactly if
no cycle of blocks that the entry block does not reach leads to the block, with and
without a dominator tree.  Otherwise it never returns, whatever was asked before; and if
so, it returns unless a guard on the way does not. -/
theorem get_terminates_iff (DL : DataLayout)
    (intrange : InstId → Option (List (APInt × APInt))) (hcfg : ControlFlow P F entry)
    (hback : DepthFirst.IsBackEdges (Edge P) entry Backedges)
    (hDT : ∀ ncd, DT = some ncd → NearestCommonDominators P ncd entry)
    (hmem : BB ∈ (P.func F).blocks) :
    (FinitelyManyCalls P Backedges DT BB ↔ NoUnreachableCycle P Backedges DT entry BB) ∧
    (¬ NoUnreachableCycle P Backedges DT entry BB →
      ∀ s, Reached DL P intrange Backedges DT s → ∀ m E s',
        get DL P intrange Backedges DT m (.inr BB) s ≠ .ok (E, s')) ∧
    (NoUnreachableCycle P Backedges DT entry BB →
      (∀ B, ReflTransGen (Follows P Backedges DT) B BB →
        GuardsReturn P Backedges DT DL intrange B) →
      ∃ n, ∀ s, Reached DL P intrange Backedges DT s → ∀ m, n ≤ m →
        ∃ E s', get DL P intrange Backedges DT m (.inr BB) s = .ok (E, s')) := by
  have hcalls : CallsGet P Backedges DT = Follows P Backedges DT := by
    funext X BB
    exact propext (callsGet_iff hcfg)
  unfold FinitelyManyCalls
  rw [hcalls]
  have hacc := fun h => noUnreachableCycle_of_acc hcfg hback hDT hmem h
  refine ⟨⟨hacc, acc_of_noUnreachableCycle hcfg hback hDT hmem⟩,
    fun hno s hs m E s' hget => hno ?_, fun hno hguards => ?_⟩
  · exact hacc (acc_of_value (get_sound hs.consistent hget).1)
  · obtain ⟨G, hG⟩ := exists_value_of_acc
      (acc_of_noUnreachableCycle hcfg hback hDT hmem hno) hguards
    obtain ⟨n, hn⟩ := hG.get (keep P Backedges DT)
    refine ⟨n, fun s hs m hm => ?_⟩
    obtain ⟨s', hs'⟩ := hn s hs.consistent m hm
    exact ⟨_, s', hs'⟩

end Calls

/-! ## A loop in dead code -/

/-- The entry block and a loop that nothing leads to (block 1) both branch to block 2. -/
def deadLoop : Program where
  insts := [
    ⟨0, .other, .br 2, none, none⟩,
    ⟨1, .other, .condBr (.argument 0 0) 1 2, none, none⟩,
    ⟨2, .other, .ret none, none, none⟩]
  blocks := [⟨0, [], 0, []⟩, ⟨0, [], 1, [1]⟩, ⟨0, [], 2, [0, 1]⟩]
  funcs := [⟨⟨"dead", .external, "a.c"⟩, false, [.int 1], .other, [0, 1, 2]⟩]
  globals := []
  structs := []
  consts := []

theorem deadLoop_edge {Pred BB : BlockId} (h : Edge deadLoop Pred BB) :
    (BB = 1 ∧ Pred = 1) ∨ (BB = 2 ∧ (Pred = 0 ∨ Pred = 1)) := by
  match BB with
  | 0 => cases h
  | 1 => simpa [Edge, deadLoop, Program.block] using h
  | 2 => simpa [Edge, deadLoop, Program.block] using h
  | BB + 3 => cases h

theorem deadLoop_controlFlow : ControlFlow deadLoop 0 0 where
  entry_block := rfl
  parent := by decide
  closed Pred BB h := by
    rcases deadLoop_edge h with ⟨rfl, rfl⟩ | ⟨rfl, rfl | rfl⟩ <;> decide
  succ_of_pred Pred BB h := by
    rcases deadLoop_edge h with ⟨rfl, rfl⟩ | ⟨rfl, rfl | rfl⟩ <;> decide
  incoming Pred BB h i hi incoming hop := by
    have hno : ∀ B ∈ [1, 2], ∀ i ∈ (deadLoop.block B).insts,
        (deadLoop.inst i).op.isPhi = false := by decide
    have hphi : (deadLoop.inst i).op.isPhi = false := by
      rcases deadLoop_edge h with ⟨rfl, -⟩ | ⟨rfl, -⟩
      · exact hno 1 (by decide) i hi
      · exact hno 2 (by decide) i hi
    rw [hop] at hphi
    cases hphi

/-- The successors in `deadLoop`. -/
def deadLoopSuccessors (BB : BlockId) : List BlockId := [[2], [1, 2]].getD BB []

/-- The search finds no back edge: it never comes to the loop. -/
theorem deadLoop_backEdges : DepthFirst.IsBackEdges (Edge deadLoop) 0 [] := by
  refine ⟨deadLoopSuccessors, fun Pred BB => ⟨fun h => ?_, fun h => ?_⟩, 3, by decide, fun e => ?_⟩
  · match Pred with
    | 0 =>
      obtain rfl := List.mem_singleton.mp h
      exact List.mem_cons_self
    | 1 =>
      rcases List.mem_pair.mp h with rfl | rfl
      · exact List.mem_cons_self
      · exact List.mem_cons_of_mem _ List.mem_cons_self
    | Pred + 2 => cases h
  · rcases deadLoop_edge h with ⟨rfl, rfl⟩ | ⟨rfl, rfl | rfl⟩ <;> decide
  · have hnone : ((DepthFirst.step deadLoopSuccessors)^[3]
        (.init deadLoopSuccessors 0)).back = [] := by decide
    rw [hnone]

section Divergence

variable (DT : Option (BlockId → BlockId → BlockId))

/-- `get` of the loop asks for the condition of the branch and then for itself. -/
theorem deadLoop_body : ∃ next,
    analyze ValueGen.fieldLayout deadLoop (fun _ => none) [] DT (.inr 1) =
      .call (.inl (.argument 0 0)) next ∧
    ∀ G, ∃ next', next (.ofFormula G) = .call (.inr 1) next' := by
  cases DT <;> exact ⟨_, rfl, fun G => ⟨_, rfl⟩⟩

/-- `get` of block 2 asks for the entry block, the condition of the branch, and the loop. -/
theorem deadLoop_exit : ∃ next,
    analyze ValueGen.fieldLayout deadLoop (fun _ => none) [] DT (.inr 2) =
      .call (.inr 0) next ∧
    ∀ G, ∃ next', next (.ofFormula G) = .call (.inl (.argument 0 0)) next' ∧
      ∀ G, ∃ next'', next' (.ofFormula G) = .call (.inr 1) next'' := by
  cases DT <;> exact ⟨_, rfl, fun G => ⟨_, rfl, fun G => ⟨_, rfl⟩⟩⟩

/-- Once the term of the condition is in the table, `get` of the loop calls itself without end. By
induction on the fuel: the table does not change between two calls, so each call is like the one
before it. -/
theorem deadLoop_get {s : PathGen.State} {G : Term Value 1}
    (hvalue : s.cache (.inl (.argument 0 0)) = some (.ofFormula G))
    (hblock : s.cache (.inr 1) = none) (fuel : ℕ) :
    get ValueGen.fieldLayout deadLoop (fun _ => none) [] DT fuel (.inr 1) s = .error .fuel := by
  induction fuel with
  | zero => rfl
  | succ fuel ih =>
    obtain ⟨next, hbody, hnext⟩ := deadLoop_body DT
    obtain ⟨next', hnext'⟩ := hnext G
    unfold get Memo.get
    simp only [hblock, hbody, Calls.run]
    cases fuel with
    | zero => rfl
    | succ fuel =>
      have hcond : Memo.get (analyze ValueGen.fieldLayout deadLoop (fun _ => none) [] DT)
          (keep deadLoop [] DT) (fuel + 1) (.inl (.argument 0 0)) s = .ok (.ofFormula G, s) := by
        unfold Memo.get
        rw [hvalue]
      have hloop : Memo.get (analyze ValueGen.fieldLayout deadLoop (fun _ => none) [] DT)
          (keep deadLoop [] DT) (fuel + 1) (.inr 1) s = .error .fuel := ih
      simp only [hcond, ok_bind, hnext', Calls.run, hloop]
      rfl

theorem deadLoop_callsGet_loop : CallsGet deadLoop [] DT 1 1 := by
  obtain ⟨next, hbody, hnext⟩ := deadLoop_body DT
  obtain ⟨next', hnext'⟩ := hnext .bvtrue
  have hanalyze : analyzeBlock deadLoop [] DT 1 = .call (.inl (.argument 0 0)) next := hbody
  unfold CallsGet
  rw [hanalyze]
  refine .inr ⟨.ofFormula .bvtrue, ?_⟩
  rw [hnext']
  exact .inl rfl

theorem deadLoop_callsGet_exit : CallsGet deadLoop [] DT 1 2 := by
  obtain ⟨next, hbody, hnext⟩ := deadLoop_exit DT
  obtain ⟨next', hnext', hvalue⟩ := hnext .bvtrue
  obtain ⟨next'', hnext''⟩ := hvalue .bvtrue
  have hanalyze : analyzeBlock deadLoop [] DT 2 = .call (.inr 0) next := hbody
  unfold CallsGet
  rw [hanalyze]
  refine .inr ⟨.ofFormula .bvtrue, ?_⟩
  rw [hnext']
  refine .inr ⟨.ofFormula .bvtrue, ?_⟩
  rw [hnext'']
  exact .inl rfl

/-- From empty tables, no fuel is enough for block 2. -/
theorem deadLoop_get_exit (fuel : ℕ) :
    get ValueGen.fieldLayout deadLoop (fun _ => none) [] DT fuel (.inr 2) .init =
      .error .fuel := by
  obtain ⟨next, hbody, hnext⟩ := deadLoop_exit DT
  obtain ⟨next', hnext', hvalue⟩ := hnext .bvtrue
  obtain ⟨next'', hnext''⟩ := hvalue (.var 1 (.argument 0 0))
  have hinit : (.init : PathGen.State).cache (.inr 2) = none := rfl
  match fuel with
  | 0 => rfl
  | 1 =>
    unfold get Memo.get
    rw [hinit, hbody]
    rfl
  | fuel + 2 =>
    -- the tables after the entry block, and after the condition of the branch
    let s₁ : PathGen.State :=
      ⟨Function.update (fun _ => none) (.inr 0) (some (.ofFormula .bvtrue)), []⟩
    let s₂ : PathGen.State :=
      ⟨Function.update s₁.cache (.inl (.argument 0 0))
        (some (.ofFormula (.var 1 (.argument 0 0)))), []⟩
    have hentry : Memo.get (analyze ValueGen.fieldLayout deadLoop (fun _ => none) [] DT)
        (keep deadLoop [] DT) (fuel + 1) (.inr 0) .init = .ok (.ofFormula .bvtrue, s₁) := rfl
    have hcond : Memo.get (analyze ValueGen.fieldLayout deadLoop (fun _ => none) [] DT)
        (keep deadLoop [] DT) (fuel + 1) (.inl (.argument 0 0)) s₁ =
          .ok (.ofFormula (.var 1 (.argument 0 0)), s₂) := rfl
    have hcached : s₂.cache (.inl (.argument 0 0)) =
        some (.ofFormula (.var 1 (.argument 0 0))) := rfl
    have hloop : Memo.get (analyze ValueGen.fieldLayout deadLoop (fun _ => none) [] DT)
        (keep deadLoop [] DT) (fuel + 1) (.inr 1) s₂ = .error .fuel :=
      deadLoop_get DT hcached rfl (fuel + 1)
    unfold get Memo.get
    rw [hinit, hbody]
    simp only [Calls.run, hentry, ok_bind, hnext', hcond, hnext'', hloop]
    rfl

/-- `get` of block 2 does not end, with and without a dominator tree: not all of its calls
of itself return, and no fuel is enough. -/
theorem dead_loop_diverges : ControlFlow deadLoop 0 0 ∧
    DepthFirst.IsBackEdges (Edge deadLoop) 0 [] ∧ Reachable deadLoop 0 2 ∧
    ∀ DT, ¬ FinitelyManyCalls deadLoop [] DT 2 ∧ ∀ fuel,
      get ValueGen.fieldLayout deadLoop (fun _ => none) [] DT fuel (.inr 2) .init =
        .error .fuel := by
  refine ⟨deadLoop_controlFlow, deadLoop_backEdges, ?_,
    fun DT => ⟨fun h => ?_, deadLoop_get_exit DT⟩⟩
  · exact Digraph.Reach.start.step (by unfold Edge; decide)
  · have hloop : Acc (CallsGet deadLoop [] DT) 1 := h.inv (deadLoop_callsGet_exit DT)
    exact Digraph.not_transGen_of_acc hloop (.single (deadLoop_callsGet_loop DT))

end Divergence

/-! ## A loop that the entry block reaches -/

section Recheck

open CmpSat

theorem recheck_controlFlow : ControlFlow recheckProgram 0 0 where
  entry_block := rfl
  parent := by decide
  closed Pred BB h := by
    rcases recheck_edge h with ⟨rfl, rfl | rfl⟩ | ⟨rfl, rfl⟩ | ⟨rfl, rfl | rfl⟩ <;> decide
  succ_of_pred Pred BB h := (recheck_ssaForm.succ_iff_pred Pred BB).mpr h
  incoming Pred BB h i hi incoming hop := by
    have hphi : ∀ B ∈ [1, 2, 3], ∀ i ∈ (recheckProgram.block B).insts,
        (recheckProgram.inst i).op.isPhi = true → B = 1 ∧ i = 1 := by decide
    have hBB : BB ∈ [1, 2, 3] := by
      rcases recheck_edge h with ⟨rfl, -⟩ | ⟨rfl, -⟩ | ⟨rfl, -⟩ <;> decide
    obtain ⟨rfl, rfl⟩ := hphi BB hBB i hi (by rw [hop]; rfl)
    obtain rfl := Opcode.phi.inj hop
    rcases recheck_edge h with ⟨-, rfl | rfl⟩ | ⟨h, -⟩ | ⟨h, -⟩
    · exact ⟨_, rfl⟩
    · exact ⟨_, rfl⟩
    · cases h
    · cases h

/-- The successors in the order of the terminators. -/
def recheckSuccessors (Pred : BlockId) : List BlockId :=
  (recheckProgram.inst (recheckProgram.block Pred).term).op.successors

theorem recheck_backEdges : DepthFirst.IsBackEdges (Edge recheckProgram) 0 [(2, 1)] := by
  refine ⟨recheckSuccessors, recheck_ssaForm.succ_iff_pred, 9, by decide, fun e => ?_⟩
  have hback : ((DepthFirst.step recheckSuccessors)^[9] (.init recheckSuccessors 0)).back =
      [(2, 1)] := by decide
  rw [hback]

theorem recheck_terminates :
    FinitelyManyCalls recheckProgram [(2, 1)] (some recheckNcd) 3 := by
  refine (get_terminates_iff ValueGen.fieldLayout (fun _ => none) recheck_controlFlow
    recheck_backEdges (fun ncd h => Option.some.inj h ▸ recheck_ncd) (by decide)).1.mpr ?_
  -- every block with a predecessor is reachable
  intro X hX hcycle
  obtain ⟨Pred, -, hedge⟩ := TransGen.tail'_iff.mp hcycle
  have hone : Reachable recheckProgram 0 1 := .step .start (by unfold Edge; decide)
  have htwo : Reachable recheckProgram 0 2 := hone.step (by unfold Edge; decide)
  rcases recheck_edge hedge with ⟨rfl, -⟩ | ⟨rfl, -⟩ | ⟨rfl, -⟩
  · exact absurd hone hX
  · exact absurd htwo hX
  · exact absurd (hone.step (by unfold Edge; decide)) hX

end Recheck

end Kint.PathGen
