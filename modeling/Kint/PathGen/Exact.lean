import Kint.Digraph
import Kint.PathGen.Guards

/-!
# `PathGen` without a dominator tree is exact

Without a dominator tree, `get` follows the edges that are not back edges.  When these have no
cycle, the condition of a block is true under an assignment exactly if some path from the entry
block leads to it along which every guard is true, by well-founded induction on the edges.

## Main definitions

* `ForwardEdge`, `InnerEdge`: the edges that are followed.  An edge into the entry block is
  never followed, since the condition of that block is true at once.
* `AcyclicBefore`: no cycle of such edges leads to the block in question.  Cycles elsewhere do
  not matter: in dead blocks, say, or in other functions, whose back edges are not in the list.
* `GuardedPath`: a path of forward edges along which all guards are true.
* `GuardsDefined`: no assertion fails in the guards of the edges into a block.

## Main results

* `value_exact`: a condition, once made, is exact: by induction on the depth of the calls.
* `exists_value`: a condition is made if the recursion ends and no guard fails.
* `get_exact`: `get` returns a condition that is exact if and only if no cycle leads to the
  block and the guards before it are defined; with enough fuel, whatever is in the tables.

## The example

`loopProgram` is a counting loop with the back edge from its body to its header.  The condition
of the exit is that of the first round, as `loop_exact` says of every state of the tables.
-/

namespace Kint.PathGen

open Iteration Memo SMT Calls

section Exact

variable {DL : DataLayout} {P : Program} {intrange : InstId → Option (List (APInt × APInt))}
  {Backedges : List (BlockId × BlockId)} {σ : Assignment Value} {BB Pred : BlockId}

variable (P Backedges) in
/-- An edge that is not skipped as a back edge. -/
def ForwardEdge (Pred BB : BlockId) : Prop :=
  Pred ∈ (P.block BB).preds ∧ isBackedge Backedges Pred BB = false

variable (P Backedges) in
/-- An edge along which `get` of `BB` calls `get` of `Pred`: a forward edge that does not
lead to the entry block, whose condition is true without further calls. -/
def InnerEdge (Pred BB : BlockId) : Prop :=
  ForwardEdge P Backedges Pred BB ∧ isEntryBlock P BB = false

variable (P Backedges) in
/-- No cycle of such edges leads to the block.  What happens elsewhere, in blocks of the
function from which the block is not reached or in other functions, does not matter. -/
def AcyclicBefore (BB : BlockId) : Prop :=
  ∀ B, Relation.ReflTransGen (InnerEdge P Backedges) B BB →
    ¬ Relation.TransGen (InnerEdge P Backedges) B B

variable (DL P intrange Backedges) in
/-- A path from the entry block that uses no back edge and along which all guards
are true. -/
inductive GuardedPath (σ : Assignment Value) : BlockId → Prop
  | entry {BB : BlockId} : isEntryBlock P BB = true → GuardedPath σ BB
  | edge {Pred BB : BlockId} : GuardedPath σ Pred → ForwardEdge P Backedges Pred BB →
      EdgeHolds DL P intrange Backedges none σ Pred BB → GuardedPath σ BB

variable (DL P intrange Backedges) in
/-- No assertion fails in the guards of the edges into a block. -/
def GuardsDefined (BB : BlockId) : Prop :=
  ∀ Pred, ForwardEdge P Backedges Pred BB →
    ∃ g, Yields (analyze DL P intrange Backedges none) (edgeGuard P BB Pred) g

/-- The disjunction over `preds` is defined if the guards and the conditions of the
predecessors that are not skipped are. -/
theorem predGuard_defined {DT : Option (BlockId → BlockId → BlockId)} {preds : List BlockId}
    {G : Term Value 1}
    (hguard : ∀ Pred ∈ preds, (DT.isNone && isBackedge Backedges Pred BB) = false →
      ∃ g, Yields (analyze DL P intrange Backedges DT) (edgeGuard P BB Pred) g)
    (hpred : ∀ Pred ∈ preds, (DT.isNone && isBackedge Backedges Pred BB) = false →
      ∃ G, Memo.Value (analyze DL P intrange Backedges DT) (.inr Pred) (.ofFormula G)) :
    ∃ E, Yields (analyze DL P intrange Backedges DT)
      (predGuard P Backedges DT BB preds G) E := by
  induction preds generalizing G with
  | nil => exact ⟨_, yields_ret.mpr rfl⟩
  | cons Pred preds ih =>
    have hguard' := fun Q hQ => hguard Q (List.mem_cons_of_mem Pred hQ)
    have hpred' := fun Q hQ => hpred Q (List.mem_cons_of_mem Pred hQ)
    unfold predGuard
    cases hskip : DT.isNone && isBackedge Backedges Pred BB with
    | true => exact ih hguard' hpred'
    | false =>
      obtain ⟨g, hg⟩ := hguard Pred List.mem_cons_self hskip
      obtain ⟨GP, hGP⟩ := hpred Pred List.mem_cons_self hskip
      obtain ⟨E, hE⟩ := ih (G := .bvor G (.bvand g GP)) hguard' hpred'
      refine ⟨E, ?_⟩
      rw [if_neg Bool.false_ne_true]
      exact yields_bind.mpr ⟨g, hg, yields_bind.mpr
        ⟨.ofFormula GP, yields_ask.mpr hGP, yields_bind.mpr ⟨GP, yields_lift.mpr rfl, hE⟩⟩⟩

/-- The guards and the conditions from which a condition was made. -/
theorem solve_pred {n : ℕ} {E : SMTExpr Value}
    (h : solve (analyze DL P intrange Backedges none) (n + 1) (.inr BB) = .ok E)
    (hedge : InnerEdge P Backedges Pred BB) :
    (∃ g, Yields (analyze DL P intrange Backedges none) (edgeGuard P BB Pred) g) ∧
      ∃ E, solve (analyze DL P intrange Backedges none) n (.inr Pred) = .ok E := by
  change (analyzeBlock P Backedges none BB).eval _ = _ at h
  rw [analyzeBlock, if_neg (ne_true_of_eq_false hedge.2)] at h
  obtain ⟨⟨g, hg⟩, hE⟩ := predGuard_eval h hedge.1.1 hedge.1.2
  exact ⟨⟨g, n, hg⟩, hE⟩

/-- A block with a condition has the guards of the edges into it, and its predecessors
have conditions. -/
theorem value_pred {E : SMTExpr Value}
    (h : Memo.Value (analyze DL P intrange Backedges none) (.inr BB) E)
    (hedge : InnerEdge P Backedges Pred BB) :
    (∃ g, Yields (analyze DL P intrange Backedges none) (edgeGuard P BB Pred) g) ∧
      ∃ E, Memo.Value (analyze DL P intrange Backedges none) (.inr Pred) E := by
  obtain ⟨n, hn⟩ := h
  cases n with
  | zero => cases hn
  | succ n =>
    obtain ⟨hg, EPred, hEPred⟩ := solve_pred hn hedge
    exact ⟨hg, EPred, n, hEPred⟩

/-- Where `get` returns, no cycle leads to the block. -/
theorem acc_innerEdge {E : SMTExpr Value}
    (h : Memo.Value (analyze DL P intrange Backedges none) (.inr BB) E) :
    Acc (InnerEdge P Backedges) BB := by
  obtain ⟨n, hn⟩ := h
  induction n generalizing BB E with
  | zero => cases hn
  | succ n ih =>
    refine ⟨_, fun Pred hedge => ?_⟩
    obtain ⟨-, EPred, hEPred⟩ := solve_pred hn hedge
    exact ih hEPred

/-- What the condition of a block says, by induction on the depth of the calls that made
it.  Back edges that are left out, and cycles among the others, play no role here: where
there is a cycle, no condition is made. -/
theorem value_exact {E : SMTExpr Value}
    (h : Memo.Value (analyze DL P intrange Backedges none) (.inr BB) E) :
    ∃ G, E = .ofFormula G ∧ ∀ σ, G.Holds σ ↔ GuardedPath DL P intrange Backedges σ BB := by
  obtain ⟨n, hn⟩ := h
  induction n generalizing BB E with
  | zero => cases hn
  | succ n ih =>
    have h' : Yields _ (analyzeBlock P Backedges none BB) E := value_iff_yields.mp ⟨n + 1, hn⟩
    unfold analyzeBlock at h'
    by_cases hentry : isEntryBlock P BB = true
    · rw [if_pos hentry] at h'
      refine ⟨.bvtrue, (yields_ret.mp h').symm, fun σ => ?_⟩
      exact iff_of_true Term.holds_bvtrue (.entry hentry)
    · rw [if_neg hentry] at h'
      have hinner : ∀ {Pred}, ForwardEdge P Backedges Pred BB → InnerEdge P Backedges Pred BB :=
        fun hforward => ⟨hforward, eq_false_of_ne_true hentry⟩
      obtain ⟨G, rfl, hholds⟩ := predGuard_yields h'
      refine ⟨G, rfl, fun σ => (hholds σ).trans ?_⟩
      constructor
      · rintro (hfalse | ⟨Pred, hPred, hback, hedge, GP, hGP, hcond⟩)
        · exact absurd hfalse Term.not_holds_bvfalse
        · obtain ⟨-, EPred, hEPred⟩ := solve_pred hn (hinner ⟨hPred, hback⟩)
          obtain ⟨G', rfl, hpath⟩ := ih hEPred
          obtain rfl := SMTExpr.ofFormula_inj.mp (hGP.unique ⟨n, hEPred⟩)
          exact .edge ((hpath σ).mp hcond) ⟨hPred, hback⟩ hedge
      · intro hpath
        cases hpath with
        | entry h => exact absurd h hentry
        | edge hpath hforward hedge =>
          obtain ⟨-, EPred, hEPred⟩ := solve_pred hn (hinner hforward)
          obtain ⟨GP, rfl, hGP⟩ := ih hEPred
          exact .inr ⟨_, hforward.1, hforward.2, hedge, GP, ⟨n, hEPred⟩, (hGP σ).mpr hpath⟩

/-- A block has a condition if the recursion ends and no guard on the way to it fails. By
well-founded induction on the edges that `get` follows: the predecessors have conditions, and with
these the loop over the predecessors fails no assertion. -/
theorem exists_value (h : Acc (InnerEdge P Backedges) BB)
    (hguards : ∀ B, Relation.ReflTransGen (InnerEdge P Backedges) B BB →
      GuardsDefined DL P intrange Backedges B) :
    ∃ E, Memo.Value (analyze DL P intrange Backedges none) (.inr BB) E := by
  induction h with
  | intro BB _ ih =>
    by_cases hentry : isEntryBlock P BB = true
    · refine ⟨.ofFormula .bvtrue, value_iff_yields.mpr ?_⟩
      show Yields _ (analyzeBlock P Backedges none BB) _
      rw [analyzeBlock, if_pos hentry]
      exact yields_ret.mpr rfl
    · have hpred : ∀ Pred ∈ (P.block BB).preds, isBackedge Backedges Pred BB = false →
          ∃ G, Memo.Value (analyze DL P intrange Backedges none) (.inr Pred) (.ofFormula G) := by
        intro Pred hPred hback
        have hedge : InnerEdge P Backedges Pred BB :=
          ⟨⟨hPred, hback⟩, eq_false_of_ne_true hentry⟩
        obtain ⟨E, hE⟩ := ih Pred hedge fun B hB => hguards B (hB.tail hedge)
        obtain ⟨G, rfl, -⟩ := value_exact hE
        exact ⟨G, hE⟩
      obtain ⟨E, hE⟩ := predGuard_defined (G := .bvfalse)
        (fun Pred hPred hback => hguards BB .refl Pred ⟨hPred, hback⟩) hpred
      refine ⟨E, value_iff_yields.mpr ?_⟩
      show Yields _ (analyzeBlock P Backedges none BB) _
      rw [analyzeBlock, if_neg hentry]
      exact hE

/-- Only the blocks of the program have predecessors. -/
theorem edge_targets_finite (P : Program) : {BB | ∃ Pred, Edge P Pred BB}.Finite := by
  refine (Set.finite_lt_nat P.blocks.length).subset ?_
  rintro BB ⟨Pred, hPred⟩
  by_contra hBB
  have hnil : (P.block BB).preds = [] := by
    unfold Program.block
    rw [List.getD_eq_getElem?_getD, List.getElem?_eq_none (not_lt.mp hBB)]
    rfl
  unfold Edge at hPred
  rw [hnil] at hPred
  cases hPred

/-- Where no cycle leads to the block, the recursion ends. -/
theorem AcyclicBefore.acc (h : AcyclicBefore P Backedges BB) :
    Acc (InnerEdge P Backedges) BB := by
  refine Digraph.acc_of_acyclic ((edge_targets_finite P).subset ?_) h
  rintro BB ⟨Pred, hPred⟩
  exact ⟨Pred, hPred.1.1⟩

/-- `PathGen::get` without a dominator tree returns a condition that is true under an
assignment exactly if there is a path of true guards from the entry that uses no back edge;
it is the same whatever was asked before.  It returns one if no cycle of other edges leads
to the block, unless an assertion fails in a guard on the way. -/
theorem get_exact :
    (∀ s, Reached DL P intrange Backedges none s → ∀ m E s',
      get DL P intrange Backedges none m (.inr BB) s = .ok (E, s') →
      ∃ G, E = .ofFormula G ∧ ∀ σ, G.Holds σ ↔ GuardedPath DL P intrange Backedges σ BB) ∧
    (∀ s₁ s₂, Reached DL P intrange Backedges none s₁ →
      Reached DL P intrange Backedges none s₂ → ∀ m₁ m₂ E₁ E₂ s₁' s₂',
      get DL P intrange Backedges none m₁ (.inr BB) s₁ = .ok (E₁, s₁') →
      get DL P intrange Backedges none m₂ (.inr BB) s₂ = .ok (E₂, s₂') → E₁ = E₂) ∧
    (AcyclicBefore P Backedges BB →
      (∀ B, Relation.ReflTransGen (InnerEdge P Backedges) B BB →
        GuardsDefined DL P intrange Backedges B) →
      ∃ n, ∀ s, Reached DL P intrange Backedges none s → ∀ m, n ≤ m →
        ∃ E s', get DL P intrange Backedges none m (.inr BB) s = .ok (E, s')) := by
  refine ⟨fun s hs m E s' h => ?_, fun s₁ s₂ hs₁ hs₂ m₁ m₂ E₁ E₂ s₁' s₂' h₁ h₂ => ?_,
    fun hacyclic hguards => ?_⟩
  · exact value_exact (get_sound hs.consistent h).1
  · exact (get_sound hs₁.consistent h₁).1.unique (get_sound hs₂.consistent h₂).1
  · obtain ⟨E, hE⟩ := exists_value hacyclic.acc hguards
    obtain ⟨n, hn⟩ := hE.get (keep P Backedges none)
    refine ⟨n, fun s hs m hm => ?_⟩
    obtain ⟨s', hs'⟩ := hn s hs.consistent m hm
    exact ⟨E, s', hs'⟩

end Exact

/-- A counting loop: block 1 is the header, block 2 the body, block 3 the exit. -/
def loopProgram : Program where
  insts := [
    ⟨0, .other, .br 1, none, none⟩,
    ⟨1, .int 8, .phi [(.constInt (.ofNat 8 0), 0), (.inst 3, 2)], none, none⟩,
    ⟨1, .int 1, .icmp .ult (.inst 1) (.argument 0 0), none, none⟩,
    ⟨2, .int 8, .binary .add (.inst 1) (.constInt (.ofNat 8 1)), none, none⟩,
    ⟨1, .other, .condBr (.inst 2) 2 3, none, none⟩,
    ⟨2, .other, .br 1, none, none⟩,
    ⟨3, .other, .ret none, none, none⟩]
  blocks := [⟨0, [], 0, []⟩, ⟨0, [1, 2], 4, [0, 2]⟩, ⟨0, [3], 5, [1]⟩, ⟨0, [], 6, [1]⟩]
  funcs := [⟨⟨"count", .external, "a.c"⟩, false, [.int 8], .other, [0, 1, 2, 3]⟩]
  globals := []
  structs := []
  consts := []

/-- The edges of the loop that are not back edges. -/
theorem loop_forwardEdge {Pred BB : BlockId} (h : ForwardEdge loopProgram [(2, 1)] Pred BB) :
    (Pred = 0 ∧ BB = 1) ∨ (Pred = 1 ∧ BB = 2) ∨ (Pred = 1 ∧ BB = 3) := by
  obtain ⟨hPred, hback⟩ := h
  match BB with
  | 0 => cases hPred
  | 1 =>
    rcases List.mem_pair.mp hPred with rfl | rfl
    · exact .inl ⟨rfl, rfl⟩
    · cases hback
  | 2 => exact .inr (.inl ⟨List.mem_singleton.mp hPred, rfl⟩)
  | 3 => exact .inr (.inr ⟨List.mem_singleton.mp hPred, rfl⟩)
  | BB + 4 => cases hPred

/-- These edges lead to blocks with larger numbers. -/
theorem loop_lt {A B : BlockId}
    (h : Relation.TransGen (InnerEdge loopProgram [(2, 1)]) A B) : A < B := by
  have hlt : ∀ {A B}, InnerEdge loopProgram [(2, 1)] A B → A < B := by
    intro A B hedge
    rcases loop_forwardEdge hedge.1 with ⟨rfl, rfl⟩ | ⟨rfl, rfl⟩ | ⟨rfl, rfl⟩ <;> decide
  induction h with
  | single hedge => exact hlt hedge
  | tail _ hedge ih => exact ih.trans (hlt hedge)

theorem loop_guardsDefined (B : BlockId) :
    GuardsDefined ValueGen.fieldLayout loopProgram (fun _ => none) [(2, 1)] B := by
  intro Pred hedge
  rcases loop_forwardEdge hedge with ⟨rfl, rfl⟩ | ⟨rfl, rfl⟩ | ⟨rfl, rfl⟩
  · exact ⟨_, 3, rfl⟩
  · exact ⟨_, 3, rfl⟩
  · exact ⟨_, 3, rfl⟩

/-- The condition of the exit of the loop is exact. -/
theorem loop_exact : ∃ n, ∀ s,
    Reached ValueGen.fieldLayout loopProgram (fun _ => none) [(2, 1)] none s → ∀ m, n ≤ m →
      ∃ G s', get ValueGen.fieldLayout loopProgram (fun _ => none) [(2, 1)] none m (.inr 3) s =
          .ok (.ofFormula G, s') ∧
        ∀ σ, G.Holds σ ↔
          GuardedPath ValueGen.fieldLayout loopProgram (fun _ => none) [(2, 1)] σ 3 := by
  obtain ⟨hholds, -, hdefined⟩ := @get_exact ValueGen.fieldLayout loopProgram
    (fun _ => none) [(2, 1)] 3
  obtain ⟨n, hn⟩ := hdefined (fun B _ hB => lt_irrefl B (loop_lt hB))
    fun B _ => loop_guardsDefined B
  refine ⟨n, fun s hs m hm => ?_⟩
  obtain ⟨E, s', hget⟩ := hn s hs m hm
  obtain ⟨G, rfl, hG⟩ := hholds s hs m E s' hget
  exact ⟨G, s', hget, hG⟩

end Kint.PathGen
