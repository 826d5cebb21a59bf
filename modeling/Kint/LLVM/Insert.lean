import Kint.LLVM.SSA
import Kint.Splice

/-!
# Inserting instructions

A pass that instruments a function inserts new instructions before old ones.  The new
instruction gets the next free place of the heap, so that every pointer keeps its meaning:  a
program `Extends` another one when the old instructions are the same and are in the same order
in their blocks, and the edges between the blocks are the same.

## Main definitions

* `Program.insertBefore ip ty op`: a new instruction before `ip`, in the block of `ip`.
* `Closed P`: no block or operand points outside of the heap.  Without that, the place of the
  new instruction could be one that something points to already.
* `Value.Old P V`: the value is no instruction that is not in the heap.
* `Extends P P'`: what the insertion of any number of instructions keeps.

## Main results

* `extends_insertBefore`, `Extends.trans`: one insertion extends a program, and so do many.  A
  pass is treated as a sequence of insertions, and its results are stated for any program that
  extends the one it was given.
* `Extends.edge`, `Extends.typeOf`, `Extends.termOp`: the control flow, the types of old values
  and the terminators stay.
* `Closed.insertBefore`: the new program is closed if the operands of the new instruction are
  old.
-/

namespace Kint

open Splice

/-- A block with the instruction `m` before the instruction `ip`. -/
def BasicBlock.insertBefore (B : BasicBlock) (ip m : InstId) : BasicBlock :=
  { B with body := splice ip m B.body ++ if B.term = ip then [m] else [] }

/-- The instructions of a block with a new one are spliced. -/
theorem BasicBlock.insts_insertBefore (B : BasicBlock) (ip m : InstId) :
    (B.insertBefore ip m).insts = splice ip m B.insts := by
  unfold insertBefore insts
  rw [splice_append]
  by_cases h : B.term = ip
  · simp [h]
  · rw [if_neg h, splice_of_ne h, List.append_nil]
    rfl

/-- A new instruction before the instruction `ip`, in the same block. -/
def Program.insertBefore (P : Program) (ip : InstId) (ty : Ty) (op : Opcode) : Program :=
  { P with
    insts := P.insts ++ [⟨(P.inst ip).parent, ty, op, none, none⟩]
    blocks := P.blocks.map fun B => B.insertBefore ip P.insts.length }

/-- No pointer dangles, and an instruction knows its block. The passes that insert instructions
append to the heap, and this is what keeps old numbers from referring to new instructions. -/
structure Closed (P : Program) : Prop where
  blocks : ∀ F, ∀ b ∈ (P.func F).blocks, b < P.blocks.length
  insts : ∀ b < P.blocks.length, ∀ i ∈ (P.block b).insts, i < P.insts.length
  parent : ∀ b < P.blocks.length, ∀ i ∈ (P.block b).insts, (P.inst i).parent = b
  operands : ∀ i j, .inst j ∈ (P.inst i).op.operands → j < P.insts.length

/-- The value is no instruction that is not in the heap. -/
def Value.Old (P : Program) (V : Value) : Prop := ∀ i, V = .inst i → i < P.insts.length

/-- `P'` is `P` with some more instructions in its blocks. Blocks keep their terminators and
predecessors, and the old instructions of a block stand in the same order. -/
structure Extends (P P' : Program) : Prop where
  length_insts : P.insts.length ≤ P'.insts.length
  inst : ∀ i < P.insts.length, P'.inst i = P.inst i
  length_blocks : P'.blocks.length = P.blocks.length
  preds : ∀ b, (P'.block b).preds = (P.block b).preds
  parent : ∀ b, (P'.block b).parent = (P.block b).parent
  term : ∀ b < P.blocks.length, (P'.block b).term = (P.block b).term
  insts : ∀ b < P.blocks.length,
    (P'.block b).insts.filter (· < P.insts.length) = (P.block b).insts
  funcs : P'.funcs = P.funcs
  globals : P'.globals = P.globals
  structs : P'.structs = P.structs
  consts : P'.consts = P.consts

section Program

variable {P P' P'' : Program} {ip i : InstId} {ty : Ty} {op : Opcode} {b BB D : BlockId}
  {V : Value} {entry : BlockId}

/-! ## The new program -/

theorem insertBefore_inst_of_lt (h : i < P.insts.length) :
    (P.insertBefore ip ty op).inst i = P.inst i := by
  simp [Program.insertBefore, Program.inst, List.getElem?_append_left h]

/-- The new instruction stands in the block of the one that it is inserted before. -/
theorem insertBefore_inst_self : (P.insertBefore ip ty op).inst P.insts.length =
    ⟨(P.inst ip).parent, ty, op, none, none⟩ := by
  simp [Program.insertBefore, Program.inst]

/-- Each block has the new instruction before the old one, if it has that. -/
theorem insertBefore_block (h : b < P.blocks.length) :
    (P.insertBefore ip ty op).block b = (P.block b).insertBefore ip P.insts.length := by
  simp [Program.insertBefore, Program.block, h]

theorem block_of_le (h : P.blocks.length ≤ b) : P.block b = ⟨0, [], P.insts.length, []⟩ := by
  simp [Program.block, h]

/-- An instruction that is not in the heap is none of any interest. -/
theorem inst_of_le (h : P.insts.length ≤ i) : P.inst i = ⟨0, .other, .other [], none, none⟩ := by
  simp [Program.inst, h]

theorem length_insertBefore : (P.insertBefore ip ty op).insts.length = P.insts.length + 1 := by
  simp [Program.insertBefore]

/-- The instructions of a block after an insertion. -/
theorem insertBefore_insts (h : b < P.blocks.length) :
    ((P.insertBefore ip ty op).block b).insts = splice ip P.insts.length (P.block b).insts := by
  rw [insertBefore_block h, BasicBlock.insts_insertBefore]

/-- The place of the new instruction is in no block. -/
theorem Closed.not_mem (hP : Closed P) (h : b < P.blocks.length) :
    P.insts.length ∉ (P.block b).insts :=
  fun hmem => lt_irrefl _ (hP.insts b h _ hmem)

/-- A program with a new instruction extends the old one. The new instruction has the number after
the last one, so the filter on old numbers removes it from its block. -/
theorem extends_insertBefore (hP : Closed P) : Extends P (P.insertBefore ip ty op) where
  length_insts := by rw [length_insertBefore]; exact Nat.le_succ _
  inst _ h := insertBefore_inst_of_lt h
  length_blocks := by simp [Program.insertBefore]
  preds b := by
    rcases Nat.lt_or_ge b P.blocks.length with h | h
    · rw [insertBefore_block h]
      rfl
    · rw [block_of_le h, block_of_le (by simpa [Program.insertBefore] using h)]
  parent b := by
    rcases Nat.lt_or_ge b P.blocks.length with h | h
    · rw [insertBefore_block h]
      rfl
    · rw [block_of_le h, block_of_le (by simpa [Program.insertBefore] using h)]
  term b h := by
    rw [insertBefore_block h]
    rfl
  insts b h := by
    rw [insertBefore_insts h]
    have hfilter := filter_splice (x := ip) (hP.not_mem h)
    refine Eq.trans (List.filter_congr fun j hj => ?_) hfilter
    rcases mem_splice.mp hj with hj | ⟨rfl, -⟩
    · have hlt := hP.insts b h j hj
      simp [hlt, hlt.ne]
    · simp
  funcs := rfl
  globals := rfl
  structs := rfl
  consts := rfl

/-! ## Extensions -/

theorem Extends.refl (hP : Closed P) : Extends P P where
  length_insts := le_rfl
  inst _ _ := rfl
  length_blocks := rfl
  preds _ := rfl
  parent _ := rfl
  term _ _ := rfl
  insts b h := List.filter_eq_self.mpr fun i hi => decide_eq_true (hP.insts b h i hi)
  funcs := rfl
  globals := rfl
  structs := rfl
  consts := rfl

theorem Extends.trans (h : Extends P P') (h' : Extends P' P'') : Extends P P'' where
  length_insts := h.length_insts.trans h'.length_insts
  inst i hi := (h'.inst i (hi.trans_le h.length_insts)).trans (h.inst i hi)
  length_blocks := h'.length_blocks.trans h.length_blocks
  preds b := (h'.preds b).trans (h.preds b)
  parent b := (h'.parent b).trans (h.parent b)
  term b hb := (h'.term b (h.length_blocks ▸ hb)).trans (h.term b hb)
  insts b hb := by
    rw [← h.insts b hb, ← h'.insts b (h.length_blocks ▸ hb), List.filter_filter]
    refine List.filter_congr fun i _ => ?_
    have hle := h.length_insts
    by_cases hi : i < P.insts.length
    · simp [hi, hi.trans_le hle]
    · simp [hi]
  funcs := h'.funcs.trans h.funcs
  globals := h'.globals.trans h.globals
  structs := h'.structs.trans h.structs
  consts := h'.consts.trans h.consts

/-- The edges between the blocks stay, and with them reachability and dominance. -/
theorem Extends.edge (h : Extends P P') : Edge P' = Edge P := by
  funext Pred BB
  unfold Edge
  rw [h.preds]

theorem Extends.func (h : Extends P P') (F : FuncId) : P'.func F = P.func F := by
  unfold Program.func
  rw [h.funcs]

theorem Extends.const (h : Extends P P') (c : ConstId) : P'.const c = P.const c := by
  unfold Program.const
  rw [h.consts]

/-- The terminator of a block stays. -/
theorem Extends.termOp (hP : Closed P) (h : Extends P P') (b : BlockId) :
    (P'.inst (P'.block b).term).op = (P.inst (P.block b).term).op := by
  rcases Nat.lt_or_ge b P.blocks.length with hb | hb
  · have hterm : (P.block b).term < P.insts.length := hP.insts b hb _ (by simp [BasicBlock.insts])
    rw [h.term b hb, h.inst _ hterm]
  · rw [block_of_le hb, block_of_le (h.length_blocks ▸ hb), inst_of_le le_rfl, inst_of_le le_rfl]

theorem Extends.typeOf (h : Extends P P') (hV : V.Old P) : P'.typeOf V = P.typeOf V := by
  cases V with
  | inst i => exact congrArg Instruction.ty (h.inst i (hV i rfl))
  | constExpr c => exact congrArg ConstantExpr.ty (h.const c)
  | global g =>
    show Ty.ptr (P'.global g).valueTy = Ty.ptr (P.global g).valueTy
    unfold Program.global
    rw [h.globals]
  | argument f no =>
    show (P'.func f).params.getD no .other = (P.func f).params.getD no .other
    rw [h.func]
  | _ => rfl

theorem Extends.old (h : Extends P P') (hV : V.Old P) : V.Old P' :=
  fun i hi => (hV i hi).trans_le h.length_insts

theorem Extends.mem_insts (h : Extends P P') (hb : b < P.blocks.length)
    (hi : i ∈ (P.block b).insts) : i ∈ (P'.block b).insts := by
  rw [← h.insts b hb] at hi
  exact (List.mem_filter.mp hi).1

/-- The old instructions are in the blocks in which they were. -/
theorem Extends.mem_insts_of_lt (h : Extends P P') (hi : i < P.insts.length)
    (hmem : i ∈ (P'.block b).insts) : i ∈ (P.block b).insts := by
  rcases Nat.lt_or_ge b P.blocks.length with hb | hb
  · rw [← h.insts b hb, List.mem_filter]
    exact ⟨hmem, decide_eq_true hi⟩
  · rw [block_of_le (h.length_blocks ▸ hb)] at hmem
    have hle := h.length_insts
    have hnew : i = P'.insts.length := List.mem_singleton.mp hmem
    rw [hnew] at hi
    exact absurd hle (Nat.not_le.mpr hi)

/-- A block that control reaches is in the heap. -/
theorem lt_of_reachable (hentry : entry < P.blocks.length) (h : Reachable P entry b) :
    b < P.blocks.length := by
  cases h with
  | start _ => exact hentry
  | step _ hedge _ =>
    by_contra hb
    rw [Edge, block_of_le (Nat.not_lt.mp hb)] at hedge
    cases hedge

/-- The operands of the new instruction are in the heap. It knows its block, which is that of the
instruction in front of which it is inserted. -/
theorem Closed.insertBefore (hP : Closed P) (hop : ∀ V ∈ op.operands, V.Old P) :
    Closed (P.insertBefore ip ty op) where
  blocks F b hb := by
    rw [(extends_insertBefore hP).func] at hb
    rw [(extends_insertBefore hP).length_blocks]
    exact hP.blocks F b hb
  insts b hb i hi := by
    rw [(extends_insertBefore hP).length_blocks] at hb
    rw [insertBefore_insts hb] at hi
    rw [length_insertBefore]
    rcases mem_splice.mp hi with hi | ⟨rfl, -⟩
    · exact (hP.insts b hb i hi).trans (Nat.lt_succ_self _)
    · exact Nat.lt_succ_self _
  parent b hb i hi := by
    rw [(extends_insertBefore hP).length_blocks] at hb
    rw [insertBefore_insts hb] at hi
    rcases mem_splice.mp hi with hi | ⟨rfl, hip⟩
    · rw [insertBefore_inst_of_lt (hP.insts b hb i hi)]
      exact hP.parent b hb i hi
    · rw [insertBefore_inst_self]
      exact hP.parent b hb ip hip
  operands i j hj := by
    rw [length_insertBefore]
    rcases Nat.lt_trichotomy i P.insts.length with hi | rfl | hi
    · rw [insertBefore_inst_of_lt hi] at hj
      exact (hP.operands i j hj).trans (Nat.lt_succ_self _)
    · rw [insertBefore_inst_self] at hj
      exact (hop _ hj j rfl).trans (Nat.lt_succ_self _)
    · rw [inst_of_le (by rw [length_insertBefore]; exact hi)] at hj
      cases hj

end Program

end Kint
