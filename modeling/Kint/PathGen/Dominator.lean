import Kint.PathGen.Machine

/-!
# `PathGen` with a dominator tree

With a dominator tree, `get` of a block with an incoming back edge is `get` of the nearest
common dominator of its predecessors.  In a loop the names in a condition belong to different
iterations, so the condition of a block is compared with what the names hold whenever the block
is dominated by it.

The argument rests on the recursion of `get` itself: below a block that `D` dominates, it comes
to `D` before it is done (`returns_of_dominates`).  So a block that `get` of `D` calls is not
dominated by `D`, and no name in the condition of `D` is changed before the run leaves the
blocks that `D` dominates (`Sat.frame`).

## Main definitions

* `NearestCommonDominators`: what the dominator tree is asked for, as a specification of the
  parameter.
* `Returns`: `get` of a block returns within a number of nested calls.  The smallest such number
  is the measure of the induction in `Sat.frame`.
* `Sat`: the condition of a block is true because of a predecessor that can be reached.  It is a
  little more than that the condition is true, and it is what a run keeps.
* `Invariant`: the conditions of all blocks that dominate the current one are true.  For the
  current block alone the claim would not be inductive: the condition may be that of a
  dominator.

## Main results

* `Runs.invariant`: the invariant holds in every state of every run.
* `Runs.holds`: hence the formula that `get` returns for the current block is true.

The guard of an edge is assumed to be true when the edge is taken (`GuardsTrue`), and the terms
to denote what the names hold (`TermsDenote`).  Both follow from the language in SSA form; see
`Kint.PathGen.Denote` and `Kint.CmpSat.Language`.
-/

namespace Kint.PathGen

open Iteration Memo SMT Calls ValueGen

section Dominator

variable {DL : DataLayout} {P : Program} {intrange : InstId → Option (List (APInt × APInt))}
  {Backedges : List (BlockId × BlockId)} {ncd : BlockId → BlockId → BlockId}
  {entry : BlockId} {F : FuncId} {BB Pred D N B : BlockId} {σ σ' : Assignment Value} {n m : ℕ}

/-! ## The recursion of `get` -/

variable (DL P intrange Backedges ncd) in
/-- `get` of the block returns, with `n` levels of calls. -/
def Returns (n : ℕ) (BB : BlockId) : Prop :=
  ∃ E, solve (analyze DL P intrange Backedges (some ncd)) n (.inr BB) = .ok E

variable (P entry ncd) in
/-- `findNearestCommonDominator` -/
def NearestCommonDominators : Prop :=
  ∀ A B, Dominates P entry (ncd A B) A ∧ Dominates P entry (ncd A B) B ∧
    ∀ D, Dominates P entry D A → Dominates P entry D B → Dominates P entry D (ncd A B)

/-- What returns within a number of calls returns within more. -/
theorem Returns.mono (h : Returns DL P intrange Backedges ncd n BB) (hnm : n ≤ m) :
    Returns DL P intrange Backedges ncd m BB :=
  h.imp fun _ => solve_mono hnm

theorem Returns.pos (h : Returns DL P intrange Backedges ncd n BB) : ∃ k, n = k + 1 := by
  cases n with
  | zero =>
    obtain ⟨E, hE⟩ := h
    cases hE
  | succ k => exact ⟨k, rfl⟩

/-- What `get` calls when a predecessor is reached by a back edge. -/
theorem Returns.header (h : Returns DL P intrange Backedges ncd (n + 1) BB)
    (hentry : isEntryBlock P BB = false) (hback : hasBackedge P Backedges BB = true) :
    Returns DL P intrange Backedges ncd n (findCommonDominator ncd (P.block BB).preds) := by
  obtain ⟨E, hE⟩ := h
  change (analyzeBlock P Backedges (some ncd) BB).eval _ = _ at hE
  refine ⟨E, ?_⟩
  simpa [analyzeBlock, hentry, hback] using hE

/-- What `get` calls otherwise. -/
theorem Returns.pred (h : Returns DL P intrange Backedges ncd (n + 1) BB)
    (hentry : isEntryBlock P BB = false) (hback : hasBackedge P Backedges BB = false)
    (hPred : Pred ∈ (P.block BB).preds) :
    Returns DL P intrange Backedges ncd n Pred ∧
      ∃ g, Yields (analyze DL P intrange Backedges (some ncd)) (edgeGuard P BB Pred) g := by
  obtain ⟨E, hE⟩ := h
  change (analyzeBlock P Backedges (some ncd) BB).eval _ = _ at hE
  have hpreds : (predGuard P Backedges (some ncd) BB (P.block BB).preds .bvfalse).eval
      (solve (analyze DL P intrange Backedges (some ncd)) n) = .ok E := by
    simpa [analyzeBlock, hentry, hback] using hE
  obtain ⟨⟨g, hg⟩, EPred, hEPred⟩ := predGuard_eval hpreds hPred rfl
  exact ⟨⟨EPred, hEPred⟩, g, n, hg⟩

/-- The loop over the predecessors finds the nearest common dominator of all of them. -/
theorem foldl_ncd (hncd : NearestCommonDominators P ncd entry) (preds : List BlockId)
    (A : BlockId) :
    Dominates P entry (preds.foldl ncd A) A ∧
      (∀ Pred ∈ preds, Dominates P entry (preds.foldl ncd A) Pred) ∧
      ∀ D, Dominates P entry D A → (∀ Pred ∈ preds, Dominates P entry D Pred) →
        Dominates P entry D (preds.foldl ncd A) := by
  induction preds generalizing A with
  | nil => exact ⟨.refl A, fun _ h => (by cases h), fun D hD _ => hD⟩
  | cons Pred preds ih =>
    obtain ⟨hA, hPred, hnearest⟩ := hncd A Pred
    obtain ⟨hfold, hpreds, hleast⟩ := ih (ncd A Pred)
    refine ⟨hfold.trans hA, ?_, fun D hD hDs => ?_⟩
    · intro Q hQ
      rcases List.mem_cons.mp hQ with rfl | hQ
      · exact hfold.trans hPred
      · exact hpreds Q hQ
    · exact hleast D (hnearest D hD (hDs Pred List.mem_cons_self))
        fun Q hQ => hDs Q (List.mem_cons_of_mem _ hQ)

/-- The common dominator of the predecessors dominates each of them, and is
dominated by whatever dominates all of them. -/
theorem findCommonDominator_spec (hncd : NearestCommonDominators P ncd entry)
    (hPred : Pred ∈ (P.block BB).preds) :
    Dominates P entry (findCommonDominator ncd (P.block BB).preds) Pred ∧
      ∀ D, (∀ Q ∈ (P.block BB).preds, Dominates P entry D Q) →
        Dominates P entry D (findCommonDominator ncd (P.block BB).preds) := by
  cases hpreds : (P.block BB).preds with
  | nil =>
    rw [hpreds] at hPred
    cases hPred
  | cons A preds =>
    rw [hpreds] at hPred
    obtain ⟨hA, hdom, hleast⟩ := foldl_ncd hncd preds A
    refine ⟨?_, fun D hD => hleast D (hD A List.mem_cons_self)
      fun Q hQ => hD Q (List.mem_cons_of_mem _ hQ)⟩
    rcases List.mem_cons.mp hPred with rfl | hPred
    · exact hA
    · exact hdom Pred hPred

/-- From a block that `D` dominates, the recursion of `get` comes to `D`. By induction on the number
of calls. Every predecessor of the block is dominated by `D` as well, or is `D`; and so is the
common dominator to which `get` may jump. -/
theorem returns_of_dominates (hssa : SSAForm P entry F)
    (hncd : NearestCommonDominators P ncd entry) (hBB : Reachable P entry BB)
    (h : Returns DL P intrange Backedges ncd n BB) (hdom : Dominates P entry D BB)
    (hne : D ≠ BB) : ∃ m < n, Returns DL P intrange Backedges ncd m D := by
  induction n generalizing BB with
  | zero =>
    obtain ⟨k, hk⟩ := h.pos
    cases hk
  | succ n ih =>
    have hentry : BB ≠ entry := by
      rintro rfl
      exact hne hdom.eq_entry
    have hnot : isEntryBlock P BB = false :=
      eq_false_of_ne_true (mt (isEntryBlock_iff hssa hBB).mp hentry)
    -- every block that is called is dominated by `D` too
    have hcall : ∀ X, Reachable P entry X → Dominates P entry D X →
        Returns DL P intrange Backedges ncd n X →
        ∃ m < n + 1, Returns DL P intrange Backedges ncd m D := by
      intro X hX hDX hret
      by_cases heq : D = X
      · exact ⟨n, Nat.lt_succ_self n, heq ▸ hret⟩
      · obtain ⟨m, hm, hD⟩ := ih hX hret hDX heq
        exact ⟨m, hm.trans (Nat.lt_succ_self n), hD⟩
    obtain ⟨Pred, hPred, hreach⟩ := exists_pred hBB hentry
    cases hback : hasBackedge P Backedges BB with
    | true =>
      obtain ⟨hN, hleast⟩ := findCommonDominator_spec hncd hPred
      exact hcall _ (Dominates.reachable hN hreach)
        (hleast D fun Q hQ => hdom.pred hne hQ) (h.header hnot hback)
    | false => exact hcall Pred hreach (hdom.pred hne hPred) (h.pred hnot hback hPred).1

/-! ## Conditions along reachable blocks -/

variable (DL P intrange Backedges ncd entry) in
/-- The condition of a block is true under an assignment because of reachable
predecessors. -/
inductive Sat (σ : Assignment Value) : BlockId → Prop
  | entry : Sat σ entry
  | header {BB : BlockId} : isEntryBlock P BB = false → hasBackedge P Backedges BB = true →
      Sat σ (findCommonDominator ncd (P.block BB).preds) → Sat σ BB
  | edge {Pred BB : BlockId} : isEntryBlock P BB = false →
      hasBackedge P Backedges BB = false → Pred ∈ (P.block BB).preds →
      Reachable P entry Pred →
      EdgeHolds DL P intrange Backedges (some ncd) σ Pred BB → Sat σ Pred → Sat σ BB

/-- The formula that `get` returns is true. By induction on why the condition is true: the
disjunction over the predecessors has a true part. -/
theorem Sat.holds (hssa : SSAForm P entry F)
    (h : Sat DL P intrange Backedges ncd entry σ BB) {E : SMTExpr Value}
    (hE : Memo.Value (analyze DL P intrange Backedges (some ncd)) (.inr BB) E) :
    ∃ G, E = .ofFormula G ∧ G.Holds σ := by
  induction h generalizing E with
  | entry =>
    have hE' : Yields _ (analyzeBlock P Backedges (some ncd) entry) E := value_iff_yields.mp hE
    have hentry := (isEntryBlock_iff hssa .start).mpr rfl
    rw [analyzeBlock, if_pos hentry, yields_ret] at hE'
    exact ⟨.bvtrue, hE'.symm, Term.holds_bvtrue⟩
  | @header BB hentry hback _ ih =>
    have hE' : Yields _ (analyzeBlock P Backedges (some ncd) BB) E := value_iff_yields.mp hE
    simp only [analyzeBlock, hentry, hback, Bool.false_eq_true, if_false, if_true,
      yields_ask] at hE'
    exact ih hE'
  | @edge Pred BB hentry hback hPred _ hedge _ ih =>
    have hE' : Yields _ (analyzeBlock P Backedges (some ncd) BB) E := value_iff_yields.mp hE
    simp only [analyzeBlock, hentry, hback, Bool.false_eq_true, if_false] at hE'
    obtain ⟨G, rfl, hholds⟩ := predGuard_yields hE'
    obtain ⟨n, hn⟩ := hE'
    obtain ⟨-, EPred, hEPred⟩ := predGuard_eval hn hPred rfl
    obtain ⟨GP, rfl, hGP⟩ := ih ⟨n, hEPred⟩
    exact ⟨G, rfl, (hholds σ).mpr (.inr ⟨Pred, hPred, rfl, hedge, GP, ⟨n, hEPred⟩, hGP⟩)⟩

/-! ## Names that change in a block -/

variable (P) in
/-- The value is defined by an instruction of the block. -/
def DefinedIn (B : BlockId) (V : Value) : Prop := ∃ i, V = .inst i ∧ (P.inst i).parent = B

/-- What is available in a block that `B` does not dominate is not defined in `B`. -/
theorem AvailableAt.not_definedIn {V : Value} (h : AvailableAt P entry BB V)
    (hdom : ¬ Dominates P entry B BB) : ¬ DefinedIn P B V := by
  rintro ⟨i, rfl, rfl⟩
  exact hdom (h i rfl).2

/-- A phi node is not computed from anything. -/
theorem below_phi {i : InstId} {U : Value} (hphi : (P.inst i).op.isPhi = true)
    (h : Below P (.inst i) U) : U = .inst i := by
  rcases Relation.ReflTransGen.cases_head h with rfl | ⟨U', hU', -⟩
  · rfl
  · cases hU' with
    | inst hnot _ => exact absurd hphi (ne_true_of_eq_false hnot)

/-- What is available in a block that `B` does not dominate is computed from names
that keep their values while names defined in `B` change. -/
theorem covers_unchanged (hssa : SSAForm P entry F) (hPred : Reachable P entry Pred)
    (hdom : ¬ Dominates P entry B Pred) (hσ : ∀ V, ¬ DefinedIn P B V → σ V = σ' V)
    {V : Value} (hV : AvailableAt P entry Pred V) : Covers P (fun U => σ U = σ' U) V :=
  fun U hU => hσ U ((hV.below hssa hPred hU).not_definedIn hdom)

/-- The guard of a terminator stays true while only names change that are defined in
a block that does not dominate it. -/
theorem termGuard_frame (hssa : SSAForm P entry F)
    {DT : Option (BlockId → BlockId → BlockId)} {t : Term Value 1}
    (hPred : Reachable P entry Pred) (hdom : ¬ Dominates P entry B Pred)
    (hσ : ∀ V, ¬ DefinedIn P B V → σ V = σ' V)
    (ht : Yields (analyze DL P intrange Backedges DT)
      (getTermGuard (P.inst (P.block Pred).term).op BB) t) (h : t.Holds σ) : t.Holds σ' := by
  have hterm : (P.inst (P.block Pred).term).op.isPhi = false := by
    by_contra hnot
    cases hop : (P.inst (P.block Pred).term).op with
    | phi _ =>
      rw [hop] at ht
      exact not_yields_stop ht
    | _ =>
      rw [hop] at hnot
      exact hnot rfl
  have hmem : (P.block Pred).term ∈ (P.block Pred).insts := by simp [BasicBlock.insts]
  have hreads := termGuard_readsOnly (S := fun U => σ U = σ' U) ht
    (fun V hV => covers_unchanged hssa hPred hdom hσ (hssa.use Pred hPred _ hmem hterm V hV))
    fun C => hσ _ (by rintro ⟨i, hi, -⟩; cases hi)
  exact (hreads.holds fun U hU => hU).mp h

/-- The guard of an edge stays true while only names change that are defined in a
block that does not dominate the source of the edge, apart from the phi nodes. -/
theorem EdgeHolds.frame (hssa : SSAForm P entry F)
    {DT : Option (BlockId → BlockId → BlockId)} (hBB : Reachable P entry BB)
    (hPred : Reachable P entry Pred) (hdom : ¬ Dominates P entry B Pred)
    (hσ : ∀ V, ¬ DefinedIn P B V → σ V = σ' V)
    (hphi : ∀ i ∈ (P.block BB).insts, (P.inst i).op.isPhi = true → σ (.inst i) = σ' (.inst i))
    (h : EdgeHolds DL P intrange Backedges DT σ Pred BB) :
    EdgeHolds DL P intrange Backedges DT σ' Pred BB := by
  obtain ⟨t, p, ht, hp, htσ, hpσ⟩ := h
  have hreads := phiGuard_readsOnly (S := fun U => σ U = σ' U) hp fun i hi incoming V hop hV => by
    have hV' := hssa.incoming BB hBB i hi incoming hop V Pred (incoming_mem hV)
    refine ⟨fun U hU => ?_, covers_unchanged hssa hPred hdom hσ hV'⟩
    have hisPhi : (P.inst i).op.isPhi = true := by rw [hop]; rfl
    rw [below_phi hisPhi hU]
    exact hphi i hi hisPhi
  exact ⟨t, p, ht, hp, termGuard_frame hssa hPred hdom hσ ht htσ,
    (hreads.holds fun U hU => hU).mp hpσ⟩

/-- A block whose recursion does not come to `B` is not dominated by `B`. -/
theorem not_dominates_of_returns (hssa : SSAForm P entry F)
    (hncd : NearestCommonDominators P ncd entry) (hBB : Reachable P entry BB)
    (h : Returns DL P intrange Backedges ncd n BB)
    (hB : ¬ Returns DL P intrange Backedges ncd n B) : ¬ Dominates P entry B BB := by
  intro hdom
  by_cases heq : B = BB
  · exact hB (heq ▸ h)
  · obtain ⟨m, hm, hret⟩ := returns_of_dominates hssa hncd hBB h hdom heq
    exact hB (hret.mono hm.le)

/-- The condition of a block stays true while only names change that are defined in
a block to which its recursion does not come. -/
theorem Sat.frame (hssa : SSAForm P entry F) (hncd : NearestCommonDominators P ncd entry)
    (hσ : ∀ V, ¬ DefinedIn P B V → σ V = σ' V) (hBB : Reachable P entry BB)
    (hret : Returns DL P intrange Backedges ncd n BB)
    (hB : ¬ Returns DL P intrange Backedges ncd n B)
    (h : Sat DL P intrange Backedges ncd entry σ BB) :
    Sat DL P intrange Backedges ncd entry σ' BB := by
  induction h generalizing n with
  | entry => exact .entry
  | @header BB hentry hback _ ih =>
    obtain ⟨k, rfl⟩ := hret.pos
    have hne : BB ≠ entry := fun h =>
      ne_true_of_eq_false hentry ((isEntryBlock_iff hssa hBB).mpr h)
    obtain ⟨Pred, hPred, hreach⟩ := exists_pred hBB hne
    obtain ⟨hN, -⟩ := findCommonDominator_spec hncd hPred
    exact .header hentry hback (ih (Dominates.reachable hN hreach) (hret.header hentry hback)
      fun hk => hB (hk.mono (Nat.le_succ k)))
  | @edge Pred BB hentry hback hPred hreach hedge _ ih =>
    obtain ⟨k, rfl⟩ := hret.pos
    have hk := (hret.pred hentry hback hPred).1
    have hBk : ¬ Returns DL P intrange Backedges ncd k B :=
      fun hk => hB (hk.mono (Nat.le_succ k))
    refine .edge hentry hback hPred hreach ?_ (ih hreach hk hBk)
    refine hedge.frame hssa hBB hreach (not_dominates_of_returns hssa hncd hreach hk hBk) hσ ?_
    intro i hi _
    refine hσ _ ?_
    rintro ⟨j, hj, hparent⟩
    obtain rfl := Value.inst.inj hj
    rw [hssa.inst_parent BB hBB i hi] at hparent
    exact hB (hparent ▸ hret)

/-! ## Executions -/

/-- There is a least number of calls with which `get` returns. -/
theorem exists_least (h : Returns DL P intrange Backedges ncd n D) :
    ∃ k, Returns DL P intrange Backedges ncd k D ∧
      ∀ m < k, ¬ Returns DL P intrange Backedges ncd m D := by
  classical
  have hex : ∃ n, Returns DL P intrange Backedges ncd n D := ⟨n, h⟩
  exact ⟨Nat.find hex, Nat.find_spec hex, fun _ => Nat.find_min hex⟩

/-- The condition of a strict dominator of `BB` stays true while names defined in
`BB` change. -/
theorem Sat.frame_dominates (hssa : SSAForm P entry F)
    (hncd : NearestCommonDominators P ncd entry) (hBB : Reachable P entry BB)
    (hσ : ∀ V, ¬ DefinedIn P BB V → σ V = σ' V) (hdom : Dominates P entry D BB)
    (hne : D ≠ BB) (hret : Returns DL P intrange Backedges ncd n D)
    (h : Sat DL P intrange Backedges ncd entry σ D) :
    Sat DL P intrange Backedges ncd entry σ' D := by
  obtain ⟨k, hk, hleast⟩ := exists_least hret
  refine h.frame hssa hncd hσ (Dominates.reachable hdom hBB) hk fun hBBk => ?_
  obtain ⟨m, hm, hD⟩ := returns_of_dominates hssa hncd hBB hBBk hdom hne
  exact hleast m hm hD

/-- The condition of a block stays true while names that the block defines change,
apart from its phi nodes. -/
theorem Sat.frame_self (hssa : SSAForm P entry F)
    (hncd : NearestCommonDominators P ncd entry) (hBB : Reachable P entry BB)
    (hσ : ∀ V, ¬ DefinedIn P BB V → σ V = σ' V)
    (hphi : ∀ i ∈ (P.block BB).insts, (P.inst i).op.isPhi = true → σ (.inst i) = σ' (.inst i))
    (hret : Returns DL P intrange Backedges ncd n BB)
    (h : Sat DL P intrange Backedges ncd entry σ BB) :
    Sat DL P intrange Backedges ncd entry σ' BB := by
  obtain ⟨l, hl, hleast⟩ := exists_least hret
  obtain ⟨k, rfl⟩ := hl.pos
  have hnot := hleast k (Nat.lt_succ_self k)
  cases h with
  | entry => exact .entry
  | header hentry hback hN =>
    have hne : BB ≠ entry := fun h =>
      ne_true_of_eq_false hentry ((isEntryBlock_iff hssa hBB).mpr h)
    obtain ⟨Pred, hPred, hreach⟩ := exists_pred hBB hne
    obtain ⟨hdom, -⟩ := findCommonDominator_spec hncd hPred
    exact .header hentry hback (hN.frame hssa hncd hσ (Dominates.reachable hdom hreach)
      (hl.header hentry hback) hnot)
  | edge hentry hback hPred hreach hedge hsat =>
    have hk := (hl.pred hentry hback hPred).1
    exact .edge hentry hback hPred hreach
      (hedge.frame hssa hBB hreach (not_dominates_of_returns hssa hncd hreach hk hnot) hσ hphi)
      (hsat.frame hssa hncd hσ hreach hk hnot)

variable {Exec : InstId → Assignment Value → Assignment Value → Prop} {σ₀ : Assignment Value}
  {s s' : MachineState}

variable (DL P Exec entry intrange Backedges ncd σ₀) in
/-- The guard of a terminator is true when its edge is taken. -/
def GuardsTrue : Prop :=
  ∀ s, Runs DL P Exec entry σ₀ s → s.rest = [] → ∀ k BB,
    (P.inst (P.block s.block).term).op.successors[k]? = some BB →
    Takes DL P s.env (P.inst (P.block s.block).term).op k → ∀ t,
    Yields (analyze DL P intrange Backedges (some ncd))
      (getTermGuard (P.inst (P.block s.block).term).op BB) t → t.Holds s.env

variable (DL P Exec entry intrange σ₀) in
/-- At the end of a block, the terms of the names defined so far denote what the
names hold. -/
def TermsDenote : Prop :=
  ∀ s, Runs DL P Exec entry σ₀ s → s.rest = [] → ∀ i E x,
    AvailableAt P entry s.block (.inst i) → TermOf DL P intrange (.inst i) E →
    leafValue DL P s.env (.inst i) = some x → E.eval s.env = x

variable (DL P intrange Backedges ncd entry) in
/-- The invariant of the runs: the conditions of all dominators of the current
block are true. -/
structure Invariant (s : MachineState) : Prop where
  reachable : Reachable P entry s.block
  rest : ∀ i ∈ s.rest, i ∈ (P.block s.block).insts ∧ (P.inst i).op.isPhi = false
  sat : ∀ D n, Dominates P entry D s.block → Returns DL P intrange Backedges ncd n D →
    Sat DL P intrange Backedges ncd entry s.env D

/-- The term of a value that is available denotes its current value. -/
theorem TermsDenote.current (hdenote : TermsDenote DL P intrange entry Exec σ₀)
    (hs : Runs DL P Exec entry σ₀ s) (hrest : s.rest = []) {V : Value} {x : APInt}
    {E : SMTExpr Value} (hV : AvailableAt P entry s.block V) (hx : Current DL P s.env V x)
    (hE : TermOf DL P intrange V E) : E.eval s.env = x := by
  cases V with
  | inst i => exact hdenote s hs hrest i E x hV hE hx
  | _ => exact term_denotes hx hE

/-- The tables have the term of a value as `ValueGen` makes it. -/
theorem value_inl_iff {DT : Option (BlockId → BlockId → BlockId)} {V : Value}
    {E : SMTExpr Value} :
    Memo.Value (analyze DL P intrange Backedges DT) (.inl V) E ↔ TermOf DL P intrange V E :=
  exists_congr fun n => by rw [solve_inl]

/-- A run stays in blocks that the entry block reaches. -/
theorem Runs.reachable (hssa : SSAForm P entry F) (hs : Runs DL P Exec entry σ₀ s) :
    Reachable P entry s.block := by
  unfold Runs at hs
  induction hs with
  | refl => exact .start
  | tail _ hstep ih =>
    cases hstep with
    | exec _ _ => exact ih
    | edge hsucc _ _ _ =>
      exact ih.step ((hssa.succ_iff_pred _ _).mp (List.mem_of_getElem? hsucc))

/-- The guard of a conditional branch to two different blocks is true when its edge
is taken. -/
theorem branchGuard_holds (hssa : SSAForm P entry F)
    (hdenote : TermsDenote DL P intrange entry Exec σ₀) (hs : Runs DL P Exec entry σ₀ s)
    (hrest : s.rest = []) {DT : Option (BlockId → BlockId → BlockId)} {cond : Value}
    {ifTrue ifFalse : BlockId}
    (hop : (P.inst (P.block s.block).term).op = .condBr cond ifTrue ifFalse)
    (hne : ifTrue ≠ ifFalse) {k : ℕ}
    (hsucc : (Opcode.condBr cond ifTrue ifFalse).successors[k]? = some BB)
    (htakes : Takes DL P s.env (.condBr cond ifTrue ifFalse) k) {t : Term Value 1}
    (ht : Yields (analyze DL P intrange Backedges DT)
      (getTermGuard (.condBr cond ifTrue ifFalse) BB) t) : t.Holds s.env := by
  have hcond : AvailableAt P entry s.block cond :=
    hssa.use s.block (hs.reachable hssa) (P.block s.block).term (by simp [BasicBlock.insts])
      (by rw [hop]; rfl) cond (by rw [hop]; exact List.mem_cons_self)
  change Yields _ (getBranchGuard cond ifTrue ifFalse BB) t at ht
  obtain ⟨V, hV, hnext⟩ := yields_bind.mp ht
  obtain ⟨E, hE, hret⟩ := yields_bind.mp hnext
  obtain rfl := SMTExpr.formula_eq_ok.mp (yields_lift.mp hE)
  have heval : ∀ b, Current DL P s.env cond (.ofBool b) → E.eval s.env = BitVec.ofBool b := by
    intro b hb
    have h := hdenote.current hs hrest hcond hb (value_inl_iff.mp (yields_ask.mp hV))
    exact eq_of_heq (APInt.mk.inj h).2
  match k with
  | 0 =>
    obtain rfl : ifTrue = BB := Option.some.inj hsucc
    rw [if_neg (not_not.mpr rfl), yields_pure] at hret
    rw [← hret]
    exact heval true htakes
  | 1 =>
    obtain rfl : ifFalse = BB := Option.some.inj hsucc
    rw [if_pos hne, if_pos rfl, yields_pure] at hret
    rw [← hret, Term.holds_bvnot]
    show ¬ E.eval s.env = 1#1
    rw [heval false htakes]
    decide
  | k + 2 => cases hsucc

/-- The term of a phi node is its name. -/
theorem hasValue_phi {i : InstId} {x : APInt} (hphi : (P.inst i).op.isPhi = true)
    (h : leafValue DL P σ (.inst i) = some x) : HasValue DL P σ (.inst i) x := by
  have hvalue : ∀ w, instValue DL P σ (fun _ => none) w i = leafValue DL P σ (.inst i) := by
    intro w
    cases hop : (P.inst i).op with
    | phi _ => simp [instValue, hop]
    | _ =>
      rw [hop] at hphi
      cases hphi
  refine ⟨1, ?_⟩
  obtain ⟨w, hw, rfl⟩ := Option.map_eq_some_iff.mp h
  show (do
    let w ← typeSizeInBits DL (P.typeOf (.inst i))
    let x ← instValue DL P σ (fun _ => none) w i
    if x.width = w then some x else none) = _
  simp [hw, hvalue, h]

/-- An equation is true if the two sides have one value. -/
theorem eq_holds_iff {L R : SMTExpr Value} {e : Term Value 1} (h : L.cmp .eq R = .ok e) :
    e.Holds σ ↔ L.eval σ = R.eval σ := by
  obtain ⟨w, x, y, rfl, rfl, rfl⟩ := SMTExpr.zip_eq_ok.mp h
  rw [Term.holds_eq]
  constructor
  · intro heq
    exact congrArg (APInt.mk w) heq
  · intro heq
    exact eq_of_heq (APInt.mk.inj heq).2

/-- The equations of the phi nodes hold after the edge was taken. Each equation compares the name of
a phi node with the term of the value that has come in. Undefined values and values that are not
analyzed have no equation. -/
theorem phiGuard_holds {DT : Option (BlockId → BlockId → BlockId)} {is : List InstId}
    {G p : Term Value 1}
    (his : ∀ i ∈ is, ∀ incoming V, (P.inst i).op = .phi incoming →
      incomingValue? incoming Pred = some V → isUndef V = false →
      isAnalyzable (P.typeOf V) = true → ∃ x, leafValue DL P σ (.inst i) = some x ∧
        ∀ E, TermOf DL P intrange V E → E.eval σ = x)
    (h : Yields (analyze DL P intrange Backedges DT) (phiGuard P Pred is G) p)
    (hG : G.Holds σ) : p.Holds σ := by
  induction is generalizing G with
  | nil => rwa [← yields_ret.mp h]
  | cons i is ih =>
    have his' := fun j hj => his j (List.mem_cons_of_mem i hj)
    unfold phiGuard at h
    split at h
    · rename_i incoming hop
      split at h
      · exact absurd h not_yields_stop
      · rename_i V hV
        split at h
        · exact ih his' h hG
        · rename_i hskip
          rw [Bool.or_eq_true, not_or, Bool.not_eq_true, Bool.not_eq_true', Bool.not_eq_false]
            at hskip
          obtain ⟨x, hx, hdenote⟩ := his i List.mem_cons_self incoming V hop hV hskip.1 hskip.2
          obtain ⟨I, hI, h⟩ := yields_bind.mp h
          obtain ⟨J, hJ, h⟩ := yields_bind.mp h
          obtain ⟨PN, hPN, h⟩ := yields_bind.mp h
          have hIx : I.eval σ = x := term_denotes (hasValue_phi (by rw [hop]; rfl) hx)
            (value_inl_iff.mp (yields_ask.mp hI))
          have hJx : J.eval σ = x := hdenote J (value_inl_iff.mp (yields_ask.mp hJ))
          refine ih his' h (Term.holds_bvand.mpr ⟨hG, ?_⟩)
          exact (eq_holds_iff (yields_lift.mp hPN)).mpr (hIx.trans hJx.symm)
    · rwa [← yields_ret.mp h]

/-- Running an instruction keeps the invariant. The instruction changes a name that is defined in
the current block. The conditions of the strict dominators do not read it, and that of the block
itself reads phi nodes of the block only. -/
theorem Invariant.exec (hssa : SSAForm P entry F) (hncd : NearestCommonDominators P ncd entry)
    {i : InstId} {is : List InstId}
    (h : Invariant DL P intrange Backedges ncd entry ⟨BB, i :: is, σ⟩)
    (hσ : ∀ V, V ≠ .inst i → σ V = σ' V) :
    Invariant DL P intrange Backedges ncd entry ⟨BB, is, σ'⟩ := by
  obtain ⟨hi, hphi⟩ := h.rest i List.mem_cons_self
  have hchange : ∀ V, ¬ DefinedIn P BB V → σ V = σ' V := by
    intro V hV
    refine hσ V ?_
    rintro rfl
    exact hV ⟨i, rfl, hssa.inst_parent BB h.reachable i hi⟩
  have hphis : ∀ j ∈ (P.block BB).insts, (P.inst j).op.isPhi = true →
      σ (.inst j) = σ' (.inst j) := by
    intro j _ hj
    refine hσ _ ?_
    rintro heq
    obtain rfl := Value.inst.inj heq
    exact absurd hj (ne_true_of_eq_false hphi)
  refine ⟨h.reachable, fun j hj => h.rest j (List.mem_cons_of_mem _ hj), fun D n hdom hret => ?_⟩
  have hsat := h.sat D n hdom hret
  by_cases hne : D = BB
  · subst hne
    exact hsat.frame_self hssa hncd h.reachable hchange hphis hret
  · exact hsat.frame_dominates hssa hncd h.reachable hchange hdom hne hret

/-- Taking an edge keeps the invariant. A dominator of the new block dominates the old block or is
the new one. For the former the phi nodes that change are defined in a block that does not dominate
it; for the latter the guard of the edge is true. -/
theorem Invariant.edge (hssa : SSAForm P entry F) (hncd : NearestCommonDominators P ncd entry)
    (hguard : GuardsTrue DL P intrange Backedges ncd entry Exec σ₀)
    (hdenote : TermsDenote DL P intrange entry Exec σ₀) {k : ℕ}
    (hs : Runs DL P Exec entry σ₀ ⟨Pred, [], σ⟩)
    (h : Invariant DL P intrange Backedges ncd entry ⟨Pred, [], σ⟩)
    (hsucc : (P.inst (P.block Pred).term).op.successors[k]? = some BB)
    (htakes : Takes DL P σ (P.inst (P.block Pred).term).op k)
    (hphis : PhiValues DL P σ σ' Pred BB)
    (hσ : ∀ V, (∀ i ∈ (P.block BB).insts, (P.inst i).op.isPhi = true → V ≠ .inst i) →
      σ V = σ' V) : Invariant DL P intrange Backedges ncd entry (enter P BB σ') := by
  have hPred : Pred ∈ (P.block BB).preds :=
    (hssa.succ_iff_pred Pred BB).mp (List.mem_of_getElem? hsucc)
  have hBB : Reachable P entry BB := h.reachable.step hPred
  have hchange : ∀ V, ¬ DefinedIn P BB V → σ V = σ' V := by
    intro V hV
    refine hσ V fun i hi _ => ?_
    rintro rfl
    exact hV ⟨i, rfl, hssa.inst_parent BB hBB i hi⟩
  refine ⟨hBB, fun i hi => ?_, fun D n hdom hret => ?_⟩
  · obtain ⟨hmem, hphi⟩ := List.mem_filter.mp hi
    exact ⟨hmem, by simpa using hphi⟩
  by_cases hne : D = BB
  swap
  · exact (h.sat D n (hdom.pred hne hPred) hret).frame_dominates hssa hncd hBB hchange hdom
      hne hret
  subst hne
  cases hentry : isEntryBlock P D with
  | true =>
    obtain rfl := (isEntryBlock_iff hssa hBB).mp hentry
    exact .entry
  | false =>
    obtain ⟨l, hl, hleast⟩ := exists_least hret
    obtain ⟨k, rfl⟩ := hl.pos
    have hnot := hleast k (Nat.lt_succ_self k)
    cases hback : hasBackedge P Backedges D with
    | true =>
      obtain ⟨hN, -⟩ := findCommonDominator_spec hncd hPred
      have hk := hl.header hentry hback
      exact .header hentry hback ((h.sat _ k hN hk).frame hssa hncd hchange
        (Dominates.reachable hN h.reachable) hk hnot)
    | false =>
      obtain ⟨hk, g, hg⟩ := hl.pred hentry hback hPred
      have hdom' := not_dominates_of_returns hssa hncd h.reachable hk hnot
      refine .edge hentry hback hPred h.reachable ?_
        ((h.sat Pred k (.refl _) hk).frame hssa hncd hchange h.reachable hk hnot)
      obtain ⟨t, ht, hg⟩ := yields_bind.mp hg
      obtain ⟨p, hp, -⟩ := yields_bind.mp hg
      refine ⟨t, p, ht, hp, ?_, ?_⟩
      · exact termGuard_frame hssa h.reachable hdom' hchange ht
          (hguard _ hs rfl _ D hsucc htakes t ht)
      · refine phiGuard_holds (fun i hi incoming V hop hV hundef hty => ?_) hp Term.holds_bvtrue
        obtain ⟨x, hx, hleaf⟩ := hphis i hi incoming V hop hV hundef hty
        refine ⟨x, hleaf, fun E hE => ?_⟩
        have hV' := hssa.incoming D hBB i hi incoming hop V Pred (incoming_mem hV)
        rw [← hdenote.current hs rfl hV' hx hE]
        exact (term_readsOnly hE σ σ'
          (covers_unchanged hssa h.reachable hdom' hchange hV')).symm

/-- The invariant holds in every state of every run. -/
theorem Runs.invariant (hssa : SSAForm P entry F)
    (hncd : NearestCommonDominators P ncd entry)
    (hguard : GuardsTrue DL P intrange Backedges ncd entry Exec σ₀)
    (hdenote : TermsDenote DL P intrange entry Exec σ₀) (hs : Runs DL P Exec entry σ₀ s) :
    Invariant DL P intrange Backedges ncd entry s := by
  unfold Runs at hs
  induction hs with
  | refl =>
    refine ⟨.start, fun i hi => ?_, fun D n hdom _ => ?_⟩
    · obtain ⟨hmem, hphi⟩ := List.mem_filter.mp hi
      exact ⟨hmem, by simpa using hphi⟩
    · obtain rfl : D = entry := hdom.eq_entry
      exact .entry
  | tail hrun hstep ih =>
    cases hstep with
    | exec _ hσ => exact ih.exec hssa hncd hσ
    | edge hsucc htakes hphis hσ =>
      exact ih.edge hssa hncd hguard hdenote hrun hsucc htakes hphis hσ

/-- The formula of the current block is true. -/
theorem Runs.holds (hssa : SSAForm P entry F) (hncd : NearestCommonDominators P ncd entry)
    (hguard : GuardsTrue DL P intrange Backedges ncd entry Exec σ₀)
    (hdenote : TermsDenote DL P intrange entry Exec σ₀) (hs : Runs DL P Exec entry σ₀ s)
    {E : SMTExpr Value}
    (hE : Memo.Value (analyze DL P intrange Backedges (some ncd)) (.inr s.block) E) :
    ∃ G, E = .ofFormula G ∧ G.Holds s.env := by
  obtain ⟨n, hn⟩ := hE
  have hsat := (hs.invariant hssa hncd hguard hdenote).sat s.block n (.refl _) ⟨E, hn⟩
  exact hsat.holds hssa ⟨n, hn⟩

end Dominator

end Kint.PathGen
