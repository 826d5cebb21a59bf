import Kint.Digraph
import Kint.LLVM.IR

/-!
# Control flow and dominance

The control-flow graph of a function by the predecessor lists of its blocks, and dominance in
it, for a given entry block; phi nodes.

The graph is read from the predecessor lists, as the passes do (`pred_begin`), and not from the
terminators.  Where an execution is concerned, the two are tied together by the well-formedness
of the function.

## Main definitions

* `Edge P Pred BB`: control may pass from `Pred` to `BB`.
* `Reachable P entry BB` and `Dominates P entry D BB`: the notions of `Kint.Digraph` for this
  graph.  `DT->dominates` is the second one, so a block dominates itself.
* `incomingValue?`: what a phi node takes on an edge; the first entry for a predecessor counts.

## Main results

* `Dominates.reachable`: control gets to a block only through its dominators, so these can be
  reached if the block can.
* `exists_pred`: a block that can be reached, other than the entry block, has a predecessor that
  can be reached.
-/

namespace Kint

/-- `isa<PHINode>` -/
def Opcode.isPhi : Opcode → Bool
  | phi _ => true
  | _ => false

/-- `getIncomingValueForBlock` -/
def incomingValue? (incoming : List (Value × BlockId)) (Pred : BlockId) : Option Value :=
  (incoming.find? fun e => e.2 = Pred).map Prod.fst

/-- What a phi node takes on an edge is one of its entries. -/
theorem incoming_mem {incoming : List (Value × BlockId)} {Pred : BlockId} {V : Value}
    (h : incomingValue? incoming Pred = some V) : (V, Pred) ∈ incoming := by
  obtain ⟨e, he, rfl⟩ := Option.map_eq_some_iff.mp h
  have hPred : e.2 = Pred := by simpa using List.find?_some he
  rw [← hPred]
  exact List.mem_of_find?_eq_some he

section Blocks

variable (P : Program) (entry : BlockId)

/-- Control may pass from `Pred` to `BB`. -/
def Edge (Pred BB : BlockId) : Prop := Pred ∈ (P.block BB).preds

/-- `DT->dominates` -/
abbrev Dominates (D BB : BlockId) : Prop := Digraph.Dom (Edge P) entry D BB

/-- Some path leads from the entry block to the block. -/
abbrev Reachable (BB : BlockId) : Prop := Digraph.Reach (Edge P) entry BB

end Blocks

variable {P : Program} {entry D BB : BlockId}

/-- A block that dominates a reachable block is reachable. -/
theorem Dominates.reachable (h : Dominates P entry D BB) (hBB : Reachable P entry BB) :
    Reachable P entry D := by
  rcases Digraph.AvoidReach.cut hBB D with hpath | hpath
  · exact absurd (hpath.mono fun _ hw => .inr hw) h
  · exact hpath

/-- A reachable block other than the entry block has a reachable predecessor. -/
theorem exists_pred (hBB : Reachable P entry BB) (hne : BB ≠ entry) :
    ∃ Pred ∈ (P.block BB).preds, Reachable P entry Pred := by
  cases hBB with
  | start _ => exact absurd rfl hne
  | step hPred hedge _ => exact ⟨_, hedge, hPred⟩

end Kint
