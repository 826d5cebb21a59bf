import Kint.PathGen.Denote
import Kint.PathGen.Exact
import Kint.PathGen.TermGuard

/-!
# Runs without back edges

Without a dominator tree the condition of a block leaves out what comes in along back edges, so
it need not be true in a loop.  A run that takes no back edge stays on the paths that it
describes: the guard of an edge is true when the edge is taken (`termGuard_taken`), and stays
true, since no name that it depends on is defined further along the path (`Along.frame`).  So in
every state of such a run the condition of the current block is true (`forward_condition_true`).

## The induction on runs

`Along` is the invariant: from the entry on, the block was reached along a path of true guards.
It is `GuardedPath` of `Kint.PathGen.Exact` along edges that `get` follows, none of which leads
back to the entry block; so the end of the path does not dominate the blocks before it, which is
what the frame lemmas need.

* An instruction changes its own name, which is defined in the current block.  No guard of the
  path reads it: the guards are those of blocks that the current block does not dominate
  (`Along.not_dominates`).
* An edge changes the phi nodes of the block that it leads to, and then it becomes the last edge
  of the path (`Along.step`).

## Edges to one block

The guard of an edge is that of a destination.  Where two edges of a terminator lead to one
block it may be false though one of them is taken (`Kint.PathGen.TermGuard`); hence
`DistinctTargets`.
-/

namespace Kint.PathGen

open Iteration Memo SMT Calls ValueGen
open CmpSat (recheckProgram recheck_blocks recheck_edge recheck_ssaForm)

/-- No two edges of the terminator lead to one block: the successors of a branch differ,
and no case of a switch shares its destination with the default. -/
def DistinctTargets (op : Opcode) : Prop :=
  match op with
  | .condBr _ ifTrue ifFalse => ifTrue ≠ ifFalse
  | .switch _ defaultDest cases => ∀ c ∈ cases, c.2 ≠ defaultDest
  | _ => True

section Machine

variable (DL : DataLayout) (P : Program) (Backedges : List (BlockId × BlockId))
  (Exec : InstId → Assignment Value → Assignment Value → Prop) (entry : BlockId)

/-- A step that takes no back edge. -/
def ForwardStep (s s' : MachineState) : Prop :=
  Step DL P Exec s s' ∧ (s.rest = [] → isBackedge Backedges s.block s'.block = false)

/-- The states of the runs without back edges that start with `σ₀`. -/
def ForwardRuns (σ₀ : Assignment Value) (s : MachineState) : Prop :=
  Relation.ReflTransGen (ForwardStep DL P Backedges Exec) (enter P entry σ₀) s

end Machine

section Forward

variable {DL : DataLayout} {P : Program} {intrange : InstId → Option (List (APInt × APInt))}
  {Backedges : List (BlockId × BlockId)} {DT : Option (BlockId → BlockId → BlockId)}
  {Exec : InstId → Assignment Value → Assignment Value → Prop} {entry : BlockId} {F : FuncId}
  {σ σ' σ₀ : Assignment Value} {s s' : MachineState} {BB Pred B : BlockId} {k : ℕ}

theorem ForwardRuns.runs (h : ForwardRuns DL P Backedges Exec entry σ₀ s) :
    Runs DL P Exec entry σ₀ s :=
  Relation.ReflTransGen.mono (r := ForwardStep DL P Backedges Exec)
    (fun _ _ hstep => hstep.1) _ _ h

/-! ## Edges that are taken -/

/-- Which edge of a conditional branch is taken can be told from its condition. -/
theorem takes_ofBool {cond : Value} {ifTrue ifFalse : BlockId}
    (hdistinct : ifTrue ≠ ifFalse)
    (hsucc : (Opcode.condBr cond ifTrue ifFalse).successors[k]? = some BB)
    (htakes : Takes DL P σ (.condBr cond ifTrue ifFalse) k) :
    ∃ b, Current DL P σ cond (.ofBool b) ∧ (ifTrue = BB ↔ b = true) := by
  match k with
  | 0 =>
    obtain rfl : ifTrue = BB := Option.some.inj hsucc
    exact ⟨true, htakes, by simp⟩
  | 1 =>
    obtain rfl : ifFalse = BB := Option.some.inj hsucc
    exact ⟨false, htakes, by simp [hdistinct]⟩
  | k + 2 => cases hsucc

/-- Which edge of a switch is taken can be told from its condition. -/
theorem takes_case {cond : Value} {d : BlockId} {cases : List (APInt × BlockId)}
    (hdistinct : ∀ c ∈ cases, c.2 ≠ d)
    (hsucc : (Opcode.switch cond d cases).successors[k]? = some BB)
    (htakes : Takes DL P σ (.switch cond d cases) k) :
    ∃ x, Current DL P σ cond x ∧ if d = BB then ∀ c ∈ cases, c.1 ≠ x else (x, BB) ∈ cases := by
  match k with
  | 0 =>
    obtain rfl : d = BB := Option.some.inj hsucc
    obtain ⟨x, hx, hnone⟩ := htakes
    exact ⟨x, hx, by simpa using hnone⟩
  | k + 1 =>
    obtain ⟨c, hc, hx⟩ := htakes
    have hmem := List.mem_of_getElem? hc
    obtain rfl : c.2 = BB := by
      have hsucc' : (cases.map Prod.snd)[k]? = some BB := hsucc
      rw [List.getElem?_map, hc] at hsucc'
      exact Option.some.inj hsucc'
    refine ⟨c.1, hx, ?_⟩
    rw [if_neg (hdistinct c hmem).symm]
    exact hmem

/-- The guard of a terminator is true when its edge is taken. The term of the condition denotes its
current value, and at this value the guard of the destination is true, as no other edge leads there.
-/
theorem termGuard_taken (hssa : SSAForm P entry F)
    (hdenote : TermsDenote DL P intrange entry Exec σ₀) (hs : Runs DL P Exec entry σ₀ s)
    (hrest : s.rest = [])
    (hdistinct : DistinctTargets (P.inst (P.block s.block).term).op)
    (hsucc : (P.inst (P.block s.block).term).op.successors[k]? = some BB)
    (htakes : Takes DL P s.env (P.inst (P.block s.block).term).op k) {t : Term Value 1}
    (ht : Yields (analyze DL P intrange Backedges DT)
      (getTermGuard (P.inst (P.block s.block).term).op BB) t) : t.Holds s.env := by
  have hcond : ∀ cond x E, cond ∈ (P.inst (P.block s.block).term).op.operands →
      (P.inst (P.block s.block).term).op.isPhi = false → Current DL P s.env cond x →
      Memo.Value (analyze DL P intrange Backedges DT) (.inl cond) E → E.eval s.env = x := by
    intro cond x E hmem hphi hx hE
    exact hdenote.current hs hrest (hssa.use s.block (hs.reachable hssa) (P.block s.block).term
      (by simp [BasicBlock.insts]) hphi cond hmem) hx (value_inl_iff.mp hE)
  cases hop : (P.inst (P.block s.block).term).op with
  | condBr cond ifTrue ifFalse =>
    rw [hop] at hcond hdistinct hsucc htakes ht
    obtain ⟨b, hb, hBB⟩ := takes_ofBool hdistinct hsucc htakes
    obtain ⟨E, hE, -⟩ := yields_bind.mp ht
    have hE' := yields_ask.mp hE
    rw [branchGuard_yields hE' ht, hcond cond _ E List.mem_cons_self rfl hb hE', hBB]
    cases b <;> decide
  | switch cond d cases =>
    rw [hop] at hcond hdistinct hsucc htakes ht
    obtain ⟨x, hx, hBB⟩ := takes_case hdistinct hsucc htakes
    obtain ⟨E, hE, -⟩ := yields_bind.mp ht
    have hE' := yields_ask.mp hE
    rwa [switchGuard_yields hE' ht, hcond cond x E List.mem_cons_self rfl hx hE']
  | br _ | invoke _ _ _ _ | otherTerm _ _ =>
    rw [hop] at ht
    rw [← yields_ret.mp ht]
    exact Term.holds_bvtrue
  | _ =>
    rw [hop] at ht
    exact absurd ht not_yields_stop

/-! ## Paths of true guards -/

variable (DL P intrange Backedges entry) in
/-- The block is reached along a path of true guards without back edges, from the entry
block on. -/
inductive Along (σ : Assignment Value) : BlockId → Prop
  | entry : Along σ entry
  | edge {Pred BB : BlockId} : Along σ Pred → InnerEdge P Backedges Pred BB →
      EdgeHolds DL P intrange Backedges none σ Pred BB → Along σ BB

/-- Such a path leads to a block that the entry block reaches. -/
theorem Along.reachable (h : Along DL P intrange Backedges entry σ BB) :
    Reachable P entry BB := by
  induction h with
  | entry => exact .start
  | edge _ hinner _ ih => exact ih.step hinner.1.1

/-- Such a path consists of edges that `get` follows. -/
theorem Along.inner (h : Along DL P intrange Backedges entry σ BB) :
    Relation.ReflTransGen (InnerEdge P Backedges) entry BB := by
  induction h with
  | entry => exact .refl
  | edge _ hinner _ ih => exact ih.tail hinner

theorem Along.guardedPath (hssa : SSAForm P entry F)
    (h : Along DL P intrange Backedges entry σ BB) :
    GuardedPath DL P intrange Backedges σ BB := by
  induction h with
  | entry => exact .entry ((isEntryBlock_iff hssa .start).mpr rfl)
  | edge _ hinner hholds ih => exact .edge ih hinner.1 hholds

/-- A path of forward edges from the entry passes what dominates its end. -/
theorem inner_of_dominates (h : Relation.ReflTransGen (InnerEdge P Backedges) entry BB)
    (hdom : Dominates P entry B BB) : Relation.ReflTransGen (InnerEdge P Backedges) B BB := by
  induction h with
  | refl => rw [hdom.eq_entry]
  | @tail Pred BB _ hedge ih =>
    by_cases hne : B = BB
    · rw [hne]
    · exact (ih (hdom.pred hne hedge.1.1)).tail hedge

/-- The end of such a path does not dominate the blocks before it. -/
theorem Along.not_dominates (hacc : Acc (InnerEdge P Backedges) B)
    (hB : Relation.TransGen (InnerEdge P Backedges) BB B)
    (h : Along DL P intrange Backedges entry σ BB) : ¬ Dominates P entry B BB := by
  intro hdom
  exact Digraph.not_transGen_of_acc hacc (hB.trans_right (inner_of_dominates h.inner hdom))

/-- The path stays true while only names change that are defined in a block to which it
leads. -/
theorem Along.frame (hssa : SSAForm P entry F) (hacc : Acc (InnerEdge P Backedges) B)
    (hσ : ∀ V, ¬ DefinedIn P B V → σ V = σ' V)
    (hB : Relation.TransGen (InnerEdge P Backedges) BB B)
    (h : Along DL P intrange Backedges entry σ BB) :
    Along DL P intrange Backedges entry σ' BB := by
  induction h with
  | entry => exact .entry
  | @edge Pred BB hpath hinner hholds ih =>
    have hPredB := Relation.TransGen.head hinner hB
    have hBB := hpath.reachable.step hinner.1.1
    refine .edge (ih hPredB) hinner (hholds.frame hssa hBB hpath.reachable
      (hpath.not_dominates hacc hPredB) hσ fun i hi _ => hσ _ ?_)
    rintro ⟨j, hj, hparent⟩
    obtain rfl := Value.inst.inj hj
    rw [hssa.inst_parent BB hBB i hi] at hparent
    exact Digraph.not_transGen_of_acc hacc (hparent ▸ hB)

/-- The path to a block stays true while names that the block defines change, apart from
its phi nodes. -/
theorem Along.frame_self (hssa : SSAForm P entry F) (hacc : Acc (InnerEdge P Backedges) BB)
    (hσ : ∀ V, ¬ DefinedIn P BB V → σ V = σ' V)
    (hphi : ∀ i ∈ (P.block BB).insts, (P.inst i).op.isPhi = true → σ (.inst i) = σ' (.inst i))
    (h : Along DL P intrange Backedges entry σ BB) :
    Along DL P intrange Backedges entry σ' BB := by
  cases h with
  | entry => exact .entry
  | @edge Pred _ hpath hinner hholds =>
    have hBB := hpath.reachable.step hinner.1.1
    exact .edge (hpath.frame hssa hacc hσ (.single hinner)) hinner
      (hholds.frame hssa hBB hpath.reachable (hpath.not_dominates hacc (.single hinner)) hσ hphi)

/-! ## Executions -/

section Runs

variable (hssa : SSAForm P entry F)
  (hdistinct : ∀ BB, Reachable P entry BB → DistinctTargets (P.inst (P.block BB).term).op)
  (hord : OrderedUses P entry) (hexec : ExecMeans DL P Exec)
include hssa hdistinct hord hexec

/-- Taking a forward edge goes on along the path. The phi nodes of the new block change when it is
entered. The old path does not read them, since its blocks are not dominated by the new one, and the
equations of the new edge become true. -/
theorem Along.step (hs : Runs DL P Exec entry σ₀ ⟨Pred, [], σ⟩)
    (h : Along DL P intrange Backedges entry σ Pred)
    (hsucc : (P.inst (P.block Pred).term).op.successors[k]? = some BB)
    (htakes : Takes DL P σ (P.inst (P.block Pred).term).op k)
    (hphis : PhiValues DL P σ σ' Pred BB)
    (hσ : ∀ V, (∀ i ∈ (P.block BB).insts, (P.inst i).op.isPhi = true → V ≠ .inst i) →
      σ V = σ' V)
    (hinner : InnerEdge P Backedges Pred BB) (hacc : Acc (InnerEdge P Backedges) BB)
    {g : Term Value 1}
    (hg : Yields (analyze DL P intrange Backedges none) (edgeGuard P BB Pred) g) :
    Along DL P intrange Backedges entry σ' BB := by
  have hBB := h.reachable.step hinner.1.1
  have hdom := h.not_dominates hacc (.single hinner)
  have hchange : ∀ V, ¬ DefinedIn P BB V → σ V = σ' V := by
    intro V hV
    refine hσ V fun i hi _ => ?_
    rintro rfl
    exact hV ⟨i, rfl, hssa.inst_parent BB hBB i hi⟩
  have hdenote : TermsDenote DL P intrange entry Exec σ₀ := termsDenote hssa hord hexec
  obtain ⟨t, ht, hg⟩ := yields_bind.mp hg
  obtain ⟨p, hp, -⟩ := yields_bind.mp hg
  refine .edge (h.frame hssa hacc hchange (.single hinner)) hinner ⟨t, p, ht, hp, ?_, ?_⟩
  · exact termGuard_frame hssa h.reachable hdom hchange ht
      (termGuard_taken hssa hdenote hs rfl (hdistinct Pred h.reachable) hsucc htakes ht)
  · refine phiGuard_holds (fun i hi incoming V hop hV hundef hty => ?_) hp Term.holds_bvtrue
    obtain ⟨x, hx, hleaf⟩ := hphis i hi incoming V hop hV hundef hty
    refine ⟨x, hleaf, fun E hE => ?_⟩
    have hV' := hssa.incoming BB hBB i hi incoming hop V Pred (incoming_mem hV)
    rw [← hdenote.current hs rfl hV' hx hE]
    exact (term_readsOnly hE σ σ'
      (covers_unchanged hssa h.reachable hdom hchange hV')).symm

/-- In every state of a run without back edges, if the current block has a condition, the
run came along a path of true guards. -/
theorem ForwardRuns.along (hs : ForwardRuns DL P Backedges Exec entry σ₀ s)
    {E : SMTExpr Value}
    (hE : Memo.Value (analyze DL P intrange Backedges none) (.inr s.block) E) :
    Along DL P intrange Backedges entry s.env s.block := by
  unfold ForwardRuns at hs
  induction hs generalizing E with
  | refl => exact .entry
  | tail hrun hstep ih =>
    have hruns := ForwardRuns.runs hrun
    obtain ⟨hstep, hback⟩ := hstep
    cases hstep with
    | @exec BB i is σ σ' _ hσ =>
      obtain ⟨hi, hphi⟩ :=
        (hruns.settled hssa hord hexec).mem_rest (List.mem_cons_self (a := i))
      have hparent := hssa.inst_parent BB (hruns.reachable hssa) i hi
      refine (ih hE).frame_self hssa (acc_innerEdge hE) (fun V hV => hσ V ?_) fun j _ hj => hσ _ ?_
      · rintro rfl
        exact hV ⟨i, rfl, hparent⟩
      · rintro heq
        obtain rfl := Value.inst.inj heq
        exact absurd hj (ne_true_of_eq_false hphi)
    | @edge Pred BB k σ σ' hsucc htakes hphis hσ =>
      have hPred := (hssa.succ_iff_pred _ _).mp (List.mem_of_getElem? hsucc)
      have hBB := (hruns.reachable hssa).step hPred
      cases hentry : isEntryBlock P BB with
      | true =>
        obtain rfl := (isEntryBlock_iff hssa hBB).mp hentry
        exact .entry
      | false =>
        have hinner : InnerEdge P Backedges Pred BB := ⟨⟨hPred, hback rfl⟩, hentry⟩
        obtain ⟨⟨g, hg⟩, EPred, hEPred⟩ := value_pred hE hinner
        exact (ih hEPred).step hssa hdistinct hord hexec hruns hsucc htakes hphis hσ hinner
          (acc_innerEdge hE) hg

/-- In every state of a run without back edges, the condition that `get` returns for the
current block is true. -/
theorem forward_condition_true (hs : ForwardRuns DL P Backedges Exec entry σ₀ s)
    {T T' : State} {n : ℕ} {E : SMTExpr Value} (hT : Reached DL P intrange Backedges none T)
    (hget : get DL P intrange Backedges none n (.inr s.block) T = .ok (E, T')) :
    ∃ G, E = .ofFormula G ∧ G.Holds s.env := by
  have hE := (get_sound hT.consistent hget).1
  obtain ⟨G, rfl, hG⟩ := value_exact hE
  exact ⟨G, rfl, (hG _).mpr ((hs.along hssa hdistinct hord hexec hE).guardedPath hssa)⟩

end Runs

end Forward

/-! ## The first round of a loop -/

/-- The edges of the loop lead to different blocks. -/
theorem recheck_distinct (BB : BlockId) (hBB : Reachable recheckProgram 0 BB) :
    DistinctTargets (recheckProgram.inst (recheckProgram.block BB).term).op := by
  rcases recheck_blocks hBB with rfl | rfl | rfl | rfl
  · trivial
  · exact (by decide : (2 : ℕ) ≠ 3)
  · exact (by decide : (3 : ℕ) ≠ 1)
  · trivial

theorem recheck_forwardVisit (BB : BlockId) (is : List InstId) :
    Relation.ReflTransGen (ForwardStep fieldLayout recheckProgram [(2, 1)]
      (Means fieldLayout recheckProgram)) ⟨BB, is, recheckState⟩ ⟨BB, [], recheckState⟩ := by
  induction is with
  | nil => exact .refl
  | cons i is ih => exact .head ⟨.exec (recheck_means i) fun _ _ => rfl, nofun⟩ ih

/-- The first time in the body. -/
theorem recheck_first : ForwardRuns fieldLayout recheckProgram [(2, 1)]
    (Means fieldLayout recheckProgram) 0 recheckState (enter recheckProgram 2 recheckState) := by
  have hedge : ∀ {Pred BB k}, Pred = 0 ∨ Pred = 1 ∨ Pred = 2 → BB = 1 ∨ BB = 2 →
      (recheckProgram.inst (recheckProgram.block Pred).term).op.successors[k]? = some BB →
      Takes fieldLayout recheckProgram recheckState
        (recheckProgram.inst (recheckProgram.block Pred).term).op k →
      isBackedge [(2, 1)] Pred BB = false →
      ForwardStep fieldLayout recheckProgram [(2, 1)] (Means fieldLayout recheckProgram)
        ⟨Pred, [], recheckState⟩ (enter recheckProgram BB recheckState) :=
    fun hPred hBB hsucc htakes hback =>
      ⟨.edge hsucc htakes (recheck_phi hPred hBB) fun _ _ => rfl, fun _ => hback⟩
  have hheader : ForwardRuns fieldLayout recheckProgram [(2, 1)]
      (Means fieldLayout recheckProgram) 0 recheckState (enter recheckProgram 1 recheckState) :=
    (recheck_forwardVisit 0 _).tail (hedge (k := 0) (.inl rfl) (.inl rfl) rfl trivial rfl)
  exact (hheader.trans (recheck_forwardVisit 1 _)).tail
    (hedge (k := 0) (.inr (.inl rfl)) (.inr rfl) rfl rfl rfl)

/-- The condition of the body of the loop is true in the first round. -/
theorem recheck_condition : ∃ G T, get fieldLayout recheckProgram (fun _ => none) [(2, 1)] none 5
    (.inr 2) .init = .ok (.ofFormula G, T) ∧ G.Holds recheckState := by
  obtain ⟨E, T, hget⟩ : ∃ E T, get fieldLayout recheckProgram (fun _ => none) [(2, 1)] none 5
      (.inr 2) .init = .ok (E, T) := ⟨_, _, rfl⟩
  obtain ⟨G, rfl, hG⟩ := forward_condition_true recheck_ssaForm recheck_distinct
    recheck_orderedUses (fun _ _ _ h => h) recheck_first .init hget
  exact ⟨G, T, hget, hG⟩

end Kint.PathGen
