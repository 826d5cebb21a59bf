import Kint.PathGen.Guards

/-!
# Executions of a function

A machine that runs one function in SSA form: every name holds a bit-vector, the phi nodes of a
block take their values together when the block is entered, the other instructions run one after
the other, and the terminator chooses an edge.  What an instruction computes is a parameter
(`Exec`); it changes its own name only.  `SSAForm` is what the verifier of the compiler checks
about the shape of the function, in particular that definitions dominate uses.

## Main definitions

* `MachineState`, `Step`, `Runs`: the machine.  A state consists of the current block, the
  instructions of it that are still to run, and what the names hold.
* `Current`: the value of an operand: a name holds it, a constant has it.
* `Takes`: the successor that a terminator chooses.
* `PhiValues`: the values of the phi nodes after an edge.  A phi node with an undefined value
  may hold anything.
* `AvailableAt`: the definition dominates the block.
* `SSAForm`: the entry block is the first one, the lists of successors and predecessors agree,
  an instruction knows its block, and definitions dominate uses, those in phi nodes at the end
  of the incoming block.

Names hold their last values: in a loop, those of the instructions further down are the values
of the round before.  What may be said about them anyway is the subject of
`Kint.PathGen.Dominator` and `Kint.PathGen.Denote`.
-/

namespace Kint.PathGen

open Iteration Memo SMT ValueGen

/-- A state of the machine: the current block, the instructions of it that did not
run yet, and what the names hold. -/
structure MachineState where
  block : BlockId
  rest : List InstId
  env : Assignment Value

section Machine

variable (DL : DataLayout) (P : Program)
  (Exec : InstId → Assignment Value → Assignment Value → Prop) (entry : BlockId)

/-- `x` is the current value of `V`: what the name of an instruction holds. -/
def Current (σ : Assignment Value) (V : Value) (x : APInt) : Prop :=
  match V with
  | .inst i => leafValue DL P σ (.inst i) = some x
  | V => HasValue DL P σ V x

/-- The terminator chooses the `k`-th of its successors. -/
def Takes (σ : Assignment Value) (op : Opcode) (k : ℕ) : Prop :=
  match op, k with
  | .condBr cond _ _, 0 => Current DL P σ cond (.ofBool true)
  | .condBr cond _ _, 1 => Current DL P σ cond (.ofBool false)
  | .switch cond _ cases, 0 => ∃ x, Current DL P σ cond x ∧ ∀ c ∈ cases, c.1 ≠ x
  | .switch cond _ cases, k + 1 => ∃ c, cases[k]? = some c ∧ Current DL P σ cond c.1
  | _, _ => True

/-- The phi nodes of `BB` take the values that come in from `Pred`; an undefined
value may be any. -/
def PhiValues (σ σ' : Assignment Value) (Pred BB : BlockId) : Prop :=
  ∀ i ∈ (P.block BB).insts, ∀ incoming V, (P.inst i).op = .phi incoming →
    incomingValue? incoming Pred = some V → isUndef V = false →
    isAnalyzable (P.typeOf V) = true →
    ∃ x, Current DL P σ V x ∧ leafValue DL P σ' (.inst i) = some x

/-- The state in which a block is entered. -/
def enter (BB : BlockId) (σ : Assignment Value) : MachineState :=
  ⟨BB, (P.block BB).insts.filter fun i => !(P.inst i).op.isPhi, σ⟩

/-- One step: an instruction runs, or an edge is taken. An instruction changes its own name only,
and an edge the names of the phi nodes of its target. -/
inductive Step : MachineState → MachineState → Prop
  | exec {BB : BlockId} {i : InstId} {is : List InstId} {σ σ' : Assignment Value} :
      Exec i σ σ' → (∀ V, V ≠ .inst i → σ V = σ' V) → Step ⟨BB, i :: is, σ⟩ ⟨BB, is, σ'⟩
  | edge {Pred BB : BlockId} {k : ℕ} {σ σ' : Assignment Value} :
      (P.inst (P.block Pred).term).op.successors[k]? = some BB →
      Takes DL P σ (P.inst (P.block Pred).term).op k → PhiValues DL P σ σ' Pred BB →
      (∀ V, (∀ i ∈ (P.block BB).insts, (P.inst i).op.isPhi = true → V ≠ .inst i) →
        σ V = σ' V) →
      Step ⟨Pred, [], σ⟩ (enter P BB σ')

/-- The states of the runs that start with `σ₀`. -/
def Runs (σ₀ : Assignment Value) (s : MachineState) : Prop :=
  Relation.ReflTransGen (Step DL P Exec) (enter P entry σ₀) s

/-! ## SSA form -/

/-- The definition of a value dominates the block. -/
def AvailableAt (BB : BlockId) (V : Value) : Prop :=
  ∀ i, V = .inst i → i ∈ (P.block (P.inst i).parent).insts ∧
    Dominates P entry (P.inst i).parent BB

/-- What the verifier checks of a function `F`. The clauses are about reachable blocks, except for
those about edges and about constants: what stands in dead blocks is not restricted. -/
structure SSAForm (F : FuncId) : Prop where
  entry_block : (P.func F).blocks.head? = some entry
  parent : ∀ BB, Reachable P entry BB → (P.block BB).parent = F
  succ_iff_pred : ∀ Pred BB,
    BB ∈ (P.inst (P.block Pred).term).op.successors ↔ Pred ∈ (P.block BB).preds
  inst_parent : ∀ BB, Reachable P entry BB → ∀ i ∈ (P.block BB).insts, (P.inst i).parent = BB
  constant : ∀ c, ∀ V ∈ (P.const c).operands, V.isConstant = true
  use : ∀ BB, Reachable P entry BB → ∀ i ∈ (P.block BB).insts, (P.inst i).op.isPhi = false →
    ∀ V ∈ (P.inst i).op.operands, AvailableAt P entry BB V
  incoming : ∀ BB, Reachable P entry BB → ∀ i ∈ (P.block BB).insts, ∀ incoming,
    (P.inst i).op = .phi incoming → ∀ V Pred, (V, Pred) ∈ incoming →
    AvailableAt P entry Pred V

end Machine

section SSA

variable {P : Program} {entry : BlockId} {F : FuncId} {BB D : BlockId} {V U : Value}

theorem availableAt_of_isConstant (h : V.isConstant = true) : AvailableAt P entry BB V := by
  intro i hi
  subst hi
  cases h

/-- What is available in a block is available in the blocks that it dominates. -/
theorem AvailableAt.mono (h : AvailableAt P entry D V) (hdom : Dominates P entry D BB) :
    AvailableAt P entry BB V :=
  fun i hi => ⟨(h i hi).1, (h i hi).2.trans hdom⟩

/-- What an available value is computed from is available. -/
theorem AvailableAt.operand (hssa : SSAForm P entry F) (hBB : Reachable P entry BB)
    (h : AvailableAt P entry BB V) (hU : Operand P V U) : AvailableAt P entry BB U := by
  cases hU with
  | @inst i _ hphi hmem =>
    obtain ⟨hi, hdom⟩ := h i rfl
    exact (hssa.use _ (Dominates.reachable hdom hBB) i hi hphi U hmem).mono hdom
  | const hmem => exact availableAt_of_isConstant (hssa.constant _ U hmem)

/-- What an available value is computed from, in any number of steps, is available. -/
theorem AvailableAt.below (hssa : SSAForm P entry F) (hBB : Reachable P entry BB)
    (h : AvailableAt P entry BB V) (hU : Below P V U) : AvailableAt P entry BB U := by
  induction hU with
  | refl => exact h
  | tail _ hstep ih => exact ih.operand hssa hBB hstep

/-- Among the reachable blocks, the test for the entry block is right. -/
theorem isEntryBlock_iff (hssa : SSAForm P entry F) (hBB : Reachable P entry BB) :
    isEntryBlock P BB = true ↔ BB = entry := by
  unfold isEntryBlock
  rw [hssa.parent BB hBB, hssa.entry_block, decide_eq_true_eq, Option.some_inj]
  exact eq_comm

end SSA

end Kint.PathGen
