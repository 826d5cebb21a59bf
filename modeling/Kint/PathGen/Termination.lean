import Kint.PathGen.Denote
import Kint.PathGen.Recursion
import Kint.ValueGen.Termination

/-!
# `ValueGen::get` and `PathGen::get` come to an end

Both functions call themselves, and each other: the term of a value is made from the terms of
its operands, the condition of a block from the terms of the conditions of branches and of phi
nodes, and from the conditions of the blocks before it.  This module shows that in a function in
SSA form without dead blocks these calls come to an end (`Analysable.ends_value`,
`Analysable.ends_block`): from any tables, given enough fuel, either a term is returned or an
assertion fails.

* The operands of an instruction are defined before it (`acc_operand`).  Inside a block the
  order of the instructions decreases (`OrderedUses`), and from one block to another the order
  of dominance, which is well-founded on the blocks that are reachable.
* Without a dominator tree, `get` goes along edges that are not back edges, to blocks that the
  depth-first search left later (`acc_of_backEdges`).
* What the guard of an edge asks for is defined at the end of the block that the edge leaves
  (`asksOnly_edgeGuard`, `EdgeValue.acc`).

## Dead blocks

In blocks that the entry block does not reach, the verifier lets an instruction be its own
operand and blocks form cycles without a back edge, so that neither recursion has to end
(`Kint.PathGen.get_terminates_iff` says exactly when that of the blocks does).  The passes run
after dead blocks have been removed; this is what `Analysable` asks for.
-/

namespace Kint.PathGen

open Iteration Memo SMT ValueGen Calls Relation

section Termination

variable (P : Program) (Backedges : List (BlockId × BlockId)) (entry : BlockId) (F : FuncId)

/-- Constant expressions are built from the bottom: none contains itself. -/
def ConstantsNest : Prop := ∀ c, Acc (fun U V => Operand P V U) (.constExpr c)

/-- A function on which the two generators work: in SSA form, the definitions of a block
before their uses, with exactly the blocks that the entry block reaches and the back edges of
a depth-first search. -/
structure Analysable : Prop where
  ssa : SSAForm P entry F
  ord : OrderedUses P entry
  blocks : ∀ BB, BB ∈ (P.func F).blocks ↔ Reachable P entry BB
  pred : ∀ Pred BB, Edge P Pred BB → Reachable P entry BB → Reachable P entry Pred
  backedges : DepthFirst.IsBackEdges (Edge P) entry Backedges
  constants : ConstantsNest P

/-- What the guard of an edge is made from: an operand of the terminator, a constant of its
case table, a phi node, or what comes into one. -/
def EdgeValue (Pred BB : BlockId) (V : Value) : Prop :=
  ((P.inst (P.block Pred).term).op.isPhi = false ∧
      V ∈ (P.inst (P.block Pred).term).op.operands) ∨
    (∃ C, V = .constInt C) ∨
    ∃ i ∈ (P.block BB).insts, ∃ incoming, (P.inst i).op = .phi incoming ∧
      (V = .inst i ∨ incomingValue? incoming Pred = some V)

end Termination

section Facts

variable {DL : DataLayout} {P : Program} {intrange : InstId → Option (List (APInt × APInt))}
  {Backedges : List (BlockId × BlockId)} {entry BB Pred : BlockId} {F : FuncId} {V : Value}
  {i : InstId}

/-! ## Values -/

theorem acc_phi (h : (P.inst i).op.isPhi = true) :
    Acc (fun U V => Operand P V U) (.inst i) := by
  refine ⟨_, fun U hU => ?_⟩
  cases hU with
  | inst hphi _ => exact absurd h (ne_true_of_eq_false hphi)

/-- No instruction of a reachable block is computed from itself. By induction on dominance and, in a
block, on the order of the instructions: an operand is defined in a strict dominator, or earlier in
the block. -/
theorem acc_inst (hssa : SSAForm P entry F) (hord : OrderedUses P entry)
    (hconst : ConstantsNest P) (hBB : Reachable P entry BB) (hi : i ∈ (P.block BB).insts) :
    Acc (fun U V => Operand P V U) (.inst i) := by
  have hwf : WellFounded fun D BB => Reachable P entry BB ∧ Dominates P entry D BB ∧ D ≠ BB :=
    Digraph.wellFounded_strictDom (edge_targets_finite P)
  induction BB using hwf.induction generalizing i with
  | _ BB ihdom =>
    -- the instructions of the block, from the first one on
    have hblock : ∀ pre post, (P.block BB).insts = pre ++ post → ∀ i ∈ pre,
        Acc (fun U V => Operand P V U) (.inst i) := by
      intro pre
      induction pre using List.reverseRecOn with
      | nil => exact fun _ _ _ hi => absurd hi List.not_mem_nil
      | append_singleton pre i ih =>
        intro post hinsts j hj
        rw [List.append_assoc, List.singleton_append] at hinsts
        rcases List.mem_append.mp hj with hj | hj
        · exact ih (i :: post) hinsts j hj
        · obtain rfl := List.mem_singleton.mp hj
          have hmem : j ∈ (P.block BB).insts := by simp [hinsts]
          refine ⟨_, fun U hU => ?_⟩
          cases hU with
          | inst hphi hU =>
            cases U with
            | inst k =>
              obtain ⟨hk, hdom⟩ := hssa.use BB hBB j hmem hphi _ hU k rfl
              by_cases hparent : (P.inst k).parent = BB
              · exact ih (j :: post) hinsts k
                  (hord.use BB hBB pre j post hinsts hphi k hU hparent)
              · exact ihdom _ ⟨hBB, hdom, hparent⟩ (Dominates.reachable hdom hBB) hk
            | constExpr c => exact hconst c
            | _ => exact ⟨_, by rintro U ⟨⟩⟩
    exact hblock _ [] (List.append_nil _).symm i hi

/-- No value that is defined at a reachable block is computed from itself. -/
theorem acc_operand (hssa : SSAForm P entry F) (hord : OrderedUses P entry)
    (hconst : ConstantsNest P) (hBB : Reachable P entry BB) (hV : AvailableAt P entry BB V) :
    Acc (fun U V => Operand P V U) V := by
  cases V with
  | inst i =>
    obtain ⟨hi, hdom⟩ := hV i rfl
    exact acc_inst hssa hord hconst (Dominates.reachable hdom hBB) hi
  | constExpr c => exact hconst c
  | _ => exact ⟨_, by rintro U ⟨⟩⟩

/-- The calls of `ValueGen::get` for such a value come to an end. -/
theorem acc_asks_value {DT : Option (BlockId → BlockId → BlockId)}
    (h : Acc (fun U V => Operand P V U) V) :
    Acc (fun k' k => (analyze DL P intrange Backedges DT k).Asks k') (.inl V) := by
  have hacc : Acc (TransGen fun U V => Operand P V U) V := h.transGen
  induction hacc with
  | intro V _ ih =>
    refine ⟨_, fun k hk => ?_⟩
    have hasks : AsksOnly (fun k => ∃ U, k = .inl U ∧ TransGen (Operand P) V U)
        (analyze DL P intrange Backedges DT (.inl V)) :=
      asksOnly_analyze.mapKey fun U hU => ⟨U, rfl, hU⟩
    obtain ⟨U, rfl, hU⟩ := hasks k hk
    have hUV : TransGen (fun U V => Operand P V U) U V := transGen_swap.mpr hU
    exact ih U hUV (h.inv_of_transGen hUV)

/-! ## Guards -/

section Guards

variable {S : Key → Prop}

theorem asksOnly_getValue (h : S (.inl V)) : AsksOnly S (getValue V) := asksOnly_ask h

/-- The disjunction over cases asks for constants. -/
theorem asksOnly_caseGuard {L : SMTExpr Value} {p : BlockId → Bool}
    {cases : List (APInt × BlockId)} {E : Term Value 1} (h : ∀ C, S (.inl (.constInt C))) :
    AsksOnly S (caseGuard L p cases E) := by
  induction cases generalizing E with
  | nil => exact asksOnly_ret
  | cons c cases ih =>
    unfold caseGuard
    split
    · exact (asksOnly_getValue (h c.1)).bind fun _ => asksOnly_lift.bind fun _ => ih
    · exact ih

/-- The guard of a terminator asks for its condition and for constants. -/
theorem asksOnly_getTermGuard {op : Opcode}
    (hop : op.isPhi = false → ∀ V ∈ op.operands, S (.inl V))
    (hconst : ∀ C, S (.inl (.constInt C))) : AsksOnly S (getTermGuard op BB) := by
  unfold getTermGuard
  split
  · exact asksOnly_ret
  · refine (asksOnly_getValue (hop rfl _ List.mem_cons_self)).bind fun V =>
      asksOnly_lift.bind fun E => ?_
    split
    · split
      · exact asksOnly_pure
      · exact asksOnly_stop
    · exact asksOnly_pure
  · refine (asksOnly_getValue (hop rfl _ List.mem_cons_self)).bind fun L => ?_
    split
    · exact asksOnly_caseGuard hconst
    · exact (asksOnly_caseGuard hconst).bind fun _ => asksOnly_pure
  · exact asksOnly_ret
  · exact asksOnly_ret
  · exact asksOnly_stop

/-- The equations of the phi nodes ask for the phi nodes and for what comes in. -/
theorem asksOnly_phiGuard {is : List InstId} {E : Term Value 1}
    (h : ∀ i ∈ is, ∀ incoming, (P.inst i).op = .phi incoming → S (.inl (.inst i)) ∧
      ∀ V, incomingValue? incoming Pred = some V → S (.inl V)) :
    AsksOnly S (phiGuard P Pred is E) := by
  induction is generalizing E with
  | nil => exact asksOnly_ret
  | cons i is ih =>
    have ih' := fun {E} => ih (E := E) fun j hj => h j (List.mem_cons_of_mem i hj)
    unfold phiGuard
    split
    · rename_i incoming hop
      obtain ⟨hi, hincoming⟩ := h i List.mem_cons_self incoming hop
      split
      · exact asksOnly_stop
      · rename_i V hV
        split
        · exact ih'
        · exact (asksOnly_getValue hi).bind fun _ => (asksOnly_getValue (hincoming V hV)).bind
            fun _ => asksOnly_lift.bind fun _ => ih'
    · exact asksOnly_ret

/-- The guard of an edge asks for the values that it is made from. -/
theorem asksOnly_edgeGuard (h : ∀ V, EdgeValue P Pred BB V → S (.inl V)) :
    AsksOnly S (edgeGuard P BB Pred) := by
  have hterm := fun hphi V hV => h V (.inl ⟨hphi, hV⟩)
  refine (asksOnly_getTermGuard hterm fun C => h _ (.inr (.inl ⟨C, rfl⟩))).bind fun _ => ?_
  refine (asksOnly_phiGuard fun i hi incoming hop => ⟨?_, fun V hV => ?_⟩).bind
    fun _ => asksOnly_pure
  · exact h _ (.inr (.inr ⟨i, hi, incoming, hop, .inl rfl⟩))
  · exact h V (.inr (.inr ⟨i, hi, incoming, hop, .inr hV⟩))

/-- Without a dominator tree, the loop over the predecessors asks for those whose edges are not back
edges, and for what the guards are made from. -/
theorem asksOnly_predGuard {preds : List BlockId} {G : Term Value 1}
    (h : ∀ Pred ∈ preds, isBackedge Backedges Pred BB = false →
      (∀ V, EdgeValue P Pred BB V → S (.inl V)) ∧ S (.inr Pred)) :
    AsksOnly S (predGuard P Backedges none BB preds G) := by
  induction preds generalizing G with
  | nil => exact asksOnly_ret
  | cons Pred preds ih =>
    have ih' := fun {G} => ih (G := G) fun B hB => h B (List.mem_cons_of_mem Pred hB)
    unfold predGuard
    split
    · exact ih'
    · rename_i hskip
      obtain ⟨hguard, hPred⟩ := h Pred List.mem_cons_self (by simpa using hskip)
      exact (asksOnly_edgeGuard hguard).bind fun _ => (asksOnly_ask hPred).bind fun _ =>
        asksOnly_lift.bind fun _ => ih'

/-- Without a dominator tree, `get` of a block asks for the blocks from which edges into it
are followed, and for what the guards of these edges are made from. -/
theorem asksOnly_analyzeBlock
    (h : ∀ Pred, InnerEdge P Backedges Pred BB →
      (∀ V, EdgeValue P Pred BB V → S (.inl V)) ∧ S (.inr Pred)) :
    AsksOnly S (analyzeBlock P Backedges none BB) := by
  unfold analyzeBlock
  split
  · exact asksOnly_ret
  · rename_i hentry
    exact asksOnly_predGuard fun Pred hPred hback =>
      h Pred ⟨⟨hPred, hback⟩, eq_false_of_ne_true hentry⟩

end Guards

/-! ## Blocks -/

/-- What the guard of an edge is made from is not computed from itself. -/
theorem EdgeValue.acc (hssa : SSAForm P entry F) (hord : OrderedUses P entry)
    (hconst : ConstantsNest P) (hPred : Reachable P entry Pred) (hedge : Edge P Pred BB)
    (h : EdgeValue P Pred BB V) : Acc (fun U V => Operand P V U) V := by
  have hBB := hPred.step hedge
  rcases h with ⟨hphi, hV⟩ | ⟨C, rfl⟩ | ⟨i, hi, incoming, hop, rfl | hV⟩
  · have hterm : (P.block Pred).term ∈ (P.block Pred).insts := by simp [BasicBlock.insts]
    exact acc_operand hssa hord hconst hPred (hssa.use Pred hPred _ hterm hphi V hV)
  · exact acc_operand hssa hord hconst hPred (availableAt_of_isConstant rfl)
  · exact acc_phi (by rw [hop]; rfl)
  · exact acc_operand hssa hord hconst hPred
      (hssa.incoming BB hBB i hi incoming hop V Pred (incoming_mem hV))

/-- Edges that are not back edges come from blocks that the depth-first search left later. -/
theorem acc_of_backEdges (hback : DepthFirst.IsBackEdges (Edge P) entry Backedges)
    (hpred : ∀ Pred BB, Edge P Pred BB → Reachable P entry BB → Reachable P entry Pred)
    (hBB : Reachable P entry BB) : Acc (InnerEdge P Backedges) BB := by
  obtain ⟨rank, hrank, -, -⟩ := hback.exists_rank
  induction BB using (measure rank).wf.induction with
  | _ BB ih =>
    refine ⟨_, fun Pred hedge => ?_⟩
    have hPred := hpred Pred BB hedge.1.1 hBB
    refine ih Pred (hrank Pred BB hPred ⟨hedge.1.1, fun he => ?_⟩) hPred
    exact Bool.false_ne_true (hedge.1.2.symm.trans (isBackedge_iff.mpr he))

variable (DL intrange) in
/-- `ValueGen::get` of a value that is defined at a block comes to an end. -/
theorem Analysable.ends_value (h : Analysable P Backedges entry F)
    (hBB : Reachable P entry BB) (hV : AvailableAt P entry BB V) :
    Ends (analyze DL P intrange Backedges none) (keep P Backedges none) (.inl V) :=
  ends_of_acc _ (acc_asks_value (acc_operand h.ssa h.ord h.constants hBB hV))

variable (DL intrange) in
/-- `PathGen::get` of a block comes to an end: by induction on the blocks that it goes to,
where the guards of the edges in between come to an end by what is known of values. -/
theorem Analysable.ends_block (h : Analysable P Backedges entry F)
    (hBB : Reachable P entry BB) :
    Ends (analyze DL P intrange Backedges none) (keep P Backedges none) (.inr BB) := by
  refine ends_of_acc _ ?_
  have hacc := acc_of_backEdges h.backedges h.pred hBB
  induction hacc with
  | intro BB _ ih =>
    refine ⟨_, fun k hk => ?_⟩
    refine asksOnly_analyzeBlock (S := fun k =>
      Acc (fun k' k => (analyze DL P intrange Backedges none k).Asks k') k) ?_ k hk
    intro Pred hedge
    have hPred := h.pred Pred BB hedge.1.1 hBB
    exact ⟨fun V hV => acc_asks_value (hV.acc h.ssa h.ord h.constants hPred hedge.1.1),
      ih Pred hedge hPred⟩

end Facts

end Kint.PathGen
