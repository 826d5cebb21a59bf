import Kint.LLVM.Insert
import Kint.PathGen.Forward

/-!
# Instrumented functions

A function with a new instruction is in SSA form when the operands of the new instruction can be
used where it stands (`ssaForm_insertBefore`).  The old values keep their meaning
(`Extends.current`).

## Old values

`Extends` (in `Kint.LLVM.Insert`) says that a program has more instructions than another one and
is the same otherwise; `Value.Old` are the values that exist in both.  An old value is computed
from old values only (`Closed`), so its type, the offset of its address, its constants and its
meaning are the same in both programs.  The lemmas `Extends.leafValue` to `Extends.current` go
through the definitions of the semantics one after the other.

## Inserting an instruction

* `InsertionPoint`: an instruction before which another one can be inserted: it is in its block,
  and is no phi node.
* `UsableAt`: a value that an instruction inserted there can use.  The operands of the
  instruction at that place can be used (`usableAt_operand`), and so can constants
  (`usableAt_constant`), and what was inserted just before (`usableAt_new`).
* `InsertionPoint.insertBefore`, `UsableAt.insertBefore`: both notions survive an insertion
  elsewhere.  So a pass that inserts many instructions is treated one instruction after the
  other.

Dominance and reachability are not changed, because terminators and blocks are not
(`Extends.reachable`, `Extends.dominates`).
-/

namespace Kint

open Iteration Memo SMT PathGen ValueGen Splice

/-! ## Meaning -/

section Meaning

variable {DL : DataLayout} {P P' : Program} {σ σ' : Assignment Value}
  {v v' : Value → Option APInt} {V : Value} {i : InstId} {w : ℕ}

theorem Value.old_of_ne_inst (h : ∀ i, V ≠ .inst i) : V.Old P := fun i hi => absurd hi (h i)

theorem Extends.leafValue (h : Extends P P') (hσ : ∀ U, U.Old P → σ' U = σ U) (hV : V.Old P) :
    leafValue DL P' σ' V = leafValue DL P σ V := by
  unfold ValueGen.leafValue
  rw [h.typeOf hV, hσ V hV]

/-- The types into which an address steps stay. -/
theorem Extends.indexedType (h : Extends P P') (ty : Ty) (V : Value) :
    ValueGen.indexedType P' ty V = ValueGen.indexedType P ty V := by
  cases ty with
  | struct s =>
    show (constantInt? V).elim _ _ = (constantInt? V).elim _ _
    unfold Program.struct
    rw [h.structs]
  | _ => rfl

theorem Extends.gepOffset (h : Extends P P') {idx : List Value} (hv : ∀ U ∈ idx, v' U = v U)
    (ty : Ty) : gepOffset DL P' v' ty idx = gepOffset DL P v ty idx := by
  induction idx generalizing ty with
  | nil => rfl
  | cons U idx ih =>
    have hstep : stepOffset DL P' v' ty U = stepOffset DL P v ty U := by
      unfold stepOffset
      rw [hv U List.mem_cons_self, h.indexedType]
    unfold ValueGen.gepOffset
    rw [hstep, h.indexedType, ih fun W hW => hv W (List.mem_cons_of_mem _ hW)]

theorem Extends.gepValue (h : Extends P P') {base : Value} {idx : List Value}
    (hbase : base.Old P) (hv : ∀ U ∈ base :: idx, v' U = v U) :
    gepValue DL P' v' base idx = gepValue DL P v base idx := by
  unfold ValueGen.gepValue
  rw [hv base List.mem_cons_self, h.typeOf hbase,
    h.gepOffset fun U hU => hv U (List.mem_cons_of_mem _ hU)]

/-- The calls of intrinsics with overflow stay. -/
theorem Extends.overflowCall (h : Extends P P') (hV : V.Old P) :
    overflowCall? P' V = overflowCall? P V := by
  unfold overflowCall?
  cases V with
  | inst i =>
    simp only [h.inst i (hV i rfl), h.func]
  | _ => rfl

/-- The operands of an old instruction are old. -/
theorem Closed.operand_old (hP : Closed P) (hV : V ∈ (P.inst i).op.operands) : V.Old P := by
  rintro j rfl
  exact hP.operands i j hV

/-- The operands of an intrinsic with overflow are old. -/
theorem overflowCall_old (hP : Closed P) {op : OverflowOp} {lhs rhs : Value}
    (h : overflowCall? P V = some (op, lhs, rhs)) : lhs.Old P ∧ rhs.Old P := by
  obtain ⟨hlhs, hrhs⟩ := overflowCall_operands h
  have hold : ∀ U, ValueGen.Operand P V U → V.Old P → U.Old P := by
    intro U hU hV
    cases hU with
    | inst _ hmem => exact hP.operand_old hmem
    | const hmem =>
      unfold overflowCall? at h
      cases h
  have hV : V.Old P := by
    rintro i rfl
    by_contra hi
    unfold overflowCall? at h
    simp only [inst_of_le (Nat.not_lt.mp hi)] at h
    cases h
  exact ⟨hold _ hlhs hV, hold _ hrhs hV⟩

/-- What an old instruction computes stays. The old program and the new one have the same
instruction, and its operands are old values with the same types. -/
theorem Extends.instValue (hP : Closed P) (h : Extends P P') (hi : i < P.insts.length)
    (hσ : ∀ U, U.Old P → σ' U = σ U) (hv : ∀ U, U.Old P → v' U = v U) :
    instValue DL P' σ' v' w i = instValue DL P σ v w i := by
  have hop : ∀ U ∈ (P.inst i).op.operands, U.Old P := fun U => hP.operand_old
  have hleaf : ValueGen.leafValue DL P' σ' (.inst i) = ValueGen.leafValue DL P σ (.inst i) :=
    h.leafValue hσ fun j hj => Value.inst.inj hj ▸ hi
  unfold ValueGen.instValue
  rw [h.inst i hi, hleaf]
  cases hi : (P.inst i).op with
  | cast op U =>
    rw [hi] at hop
    have hU := hop U List.mem_cons_self
    cases op <;> simp only [h.typeOf hU, hv U hU]
  | binary op lhs rhs =>
    rw [hi] at hop
    simp only [hv lhs (hop lhs (by simp [Opcode.operands])),
      hv rhs (hop rhs (by simp [Opcode.operands]))]
  | icmp pred lhs rhs =>
    rw [hi] at hop
    simp only [hv lhs (hop lhs (by simp [Opcode.operands])),
      hv rhs (hop rhs (by simp [Opcode.operands]))]
  | select cond ifTrue ifFalse =>
    rw [hi] at hop
    simp only [hv cond (hop cond (by simp [Opcode.operands])),
      hv ifTrue (hop ifTrue (by simp [Opcode.operands])),
      hv ifFalse (hop ifFalse (by simp [Opcode.operands]))]
  | extractValue agg idx =>
    rw [hi] at hop
    simp only [h.overflowCall (hop agg List.mem_cons_self)]
    cases hcall : overflowCall? P agg with
    | none => rfl
    | some call =>
      obtain ⟨op, lhs, rhs⟩ := call
      obtain ⟨hlhs, hrhs⟩ := overflowCall_old hP hcall
      simp only [hv lhs hlhs, hv rhs hrhs]
  | gep base idx =>
    rw [hi] at hop
    exact h.gepValue (hop base List.mem_cons_self) fun U hU => hv U (hop U hU)
  | _ => rfl

/-- What a constant means stays. Constants are computed from constants, so the induction never comes
to an instruction. -/
theorem Extends.value (h : Extends P P')
    (hconst : ∀ c, ∀ U ∈ (P.const c).operands, U.isConstant = true)
    (hσ : ∀ U, U.Old P → σ' U = σ U) {n : ℕ} (hV : ∀ i, V ≠ .inst i) :
    value DL P' σ' n V = value DL P σ n V := by
  induction n generalizing V with
  | zero => rfl
  | succ n ih =>
    have hleaf : ∀ W, (∀ i, W ≠ .inst i) → ValueGen.leafValue DL P' σ' W =
        ValueGen.leafValue DL P σ W := fun W hW => h.leafValue hσ (Value.old_of_ne_inst hW)
    have hstep : ∀ w, stepValue DL P' σ' (ValueGen.value DL P' σ' n) w V =
        stepValue DL P σ (ValueGen.value DL P σ n) w V := by
      intro w
      unfold stepValue
      cases V with
      | inst i => exact absurd rfl (hV i)
      | constExpr c =>
        simp only [h.const, hleaf _ hV]
        cases hc : P.const c with
        | gep base idx ty =>
          have hold : ∀ U ∈ base :: idx, ∀ i, U ≠ .inst i := by
            rintro U hU i rfl
            have hU' := hconst c (.inst i) (by rw [hc]; exact hU)
            cases hU'
          exact h.gepValue (Value.old_of_ne_inst (hold base List.mem_cons_self))
            fun U hU => ih (hold U hU)
        | _ => rfl
      | constInt | null => rfl
      | _ => exact hleaf _ hV
    unfold ValueGen.value
    rw [h.typeOf (Value.old_of_ne_inst hV)]
    simp only [hstep]

theorem Extends.current (h : Extends P P')
    (hconst : ∀ c, ∀ U ∈ (P.const c).operands, U.isConstant = true)
    (hσ : ∀ U, U.Old P → σ' U = σ U) (hV : V.Old P) :
    current DL P' σ' V = current DL P σ V := by
  have hmeaning : (∀ i, V ≠ .inst i) → meaning DL P' σ' V = meaning DL P σ V := by
    intro hne
    refine Option.ext fun x => meaning_eq_some.trans (Iff.trans ?_ meaning_eq_some.symm)
    exact exists_congr fun n => by rw [h.value hconst hσ hne]
  cases V with
  | inst i => exact h.leafValue hσ hV
  | _ => exact hmeaning fun _ => nofun

end Meaning

/-! ## SSA form -/

/-- `V` can be used by an instruction that is inserted before `ip`. Its definition dominates the
block, and in the block itself it stands before `ip`. The conditions are for reachable blocks only,
as those of SSA form are. -/
structure UsableAt (P : Program) (entry : BlockId) (ip : InstId) (V : Value) : Prop where
  old : V.Old P
  available : Reachable P entry (P.inst ip).parent → AvailableAt P entry (P.inst ip).parent V
  before : Reachable P entry (P.inst ip).parent → ∀ j, V = .inst j →
    (P.inst j).parent = (P.inst ip).parent → ∀ pre post,
    (P.block (P.inst ip).parent).insts = pre ++ ip :: post → j ∈ pre

/-- An instruction of the function before which one can be inserted. -/
structure InsertionPoint (P : Program) (ip : InstId) : Prop where
  lt_blocks : (P.inst ip).parent < P.blocks.length
  mem : ip ∈ (P.block (P.inst ip).parent).insts
  nonphi : (P.inst ip).op.isPhi = false

section SSA

variable {P P' : Program} {entry BB : BlockId} {F : FuncId} {ip i : InstId} {ty : Ty}
  {op : Opcode} {V : Value}

theorem Extends.reachable (h : Extends P P') : Reachable P' entry BB ↔ Reachable P entry BB := by
  unfold Reachable
  rw [h.edge]

theorem Extends.dominates (h : Extends P P') {D : BlockId} :
    Dominates P' entry D BB ↔ Dominates P entry D BB := by
  unfold Dominates
  rw [h.edge]

/-- The instructions of a reachable block exist. -/
theorem lt_of_mem_insts (hP : Closed P) (hentry : entry < P.blocks.length)
    (hBB : Reachable P entry BB) (hi : i ∈ (P.block BB).insts) : i < P.insts.length :=
  hP.insts BB (lt_of_reachable hentry hBB) i hi

/-- An instruction that is in its block is in the heap. -/
theorem lt_of_placed (hP : Closed P) (hentry : entry < P.blocks.length)
    (h : i ∈ (P.block (P.inst i).parent).insts) :
    i < P.insts.length ∧ (P.inst i).parent < P.blocks.length := by
  have hi : i < P.insts.length := by
    by_contra hi
    rw [inst_of_le (Nat.not_lt.mp hi)] at h
    exact hi (hP.insts 0 (Nat.zero_lt_of_lt hentry) i h)
  refine ⟨hi, ?_⟩
  by_contra hb
  rw [block_of_le (Nat.not_lt.mp hb)] at h
  exact hi.ne (List.mem_singleton.mp h)

/-- What is available stays available in a program with new instructions. -/
theorem PathGen.AvailableAt.extends (hP : Closed P) (h : Extends P P')
    (hentry : entry < P.blocks.length) (hV : AvailableAt P entry BB V) :
    AvailableAt P' entry BB V := by
  intro i hi
  obtain ⟨hmem, hdom⟩ := hV i hi
  obtain ⟨hlt, hb⟩ := lt_of_placed hP hentry hmem
  rw [h.inst i hlt, h.dominates]
  exact ⟨h.mem_insts hb hmem, hdom⟩

section Inserted

variable (hP : Closed P) (hentry : entry < P.blocks.length) (hssa : SSAForm P entry F)
  (hip : InsertionPoint P ip) (hphi : op.isPhi = false)
  (hop : ∀ V ∈ op.operands, UsableAt P entry ip V)
include hP

/-- The instruction at the insertion point exists. -/
theorem InsertionPoint.lt (hip : InsertionPoint P ip) : ip < P.insts.length :=
  hP.insts _ hip.lt_blocks ip hip.mem

include hip in
/-- The blocks of the new instruction. -/
theorem mem_insertBefore (hBB : BB < P.blocks.length) :
    i ∈ ((P.insertBefore ip ty op).block BB).insts ↔
      i ∈ (P.block BB).insts ∨ i = P.insts.length ∧ BB = (P.inst ip).parent := by
  rw [insertBefore_insts hBB, mem_splice]
  refine or_congr_right (and_congr_right fun _ => ⟨fun hmem => ?_, ?_⟩)
  · exact (hP.parent BB hBB ip hmem).symm
  · rintro rfl
    exact hip.mem

include hentry hssa hop

/-- In a block of the new function, definitions still come before uses. The old instructions keep
their order, and the new one has operands that stand before its place. -/
theorem orderedUses_insertBefore (hord : OrderedUses P entry) :
    OrderedUses (P.insertBefore ip ty op) entry := by
  have hext : Extends P (P.insertBefore ip ty op) := extends_insertBefore hP
  constructor
  case nodup =>
    intro BB hBB
    rw [hext.reachable] at hBB
    have hb := lt_of_reachable hentry hBB
    rw [insertBefore_insts hb]
    exact nodup_splice (hord.nodup BB hBB) (hP.not_mem hb)
  case use =>
    intro BB hBB pre i post hinsts hiphi j hj hparent
    rw [hext.reachable] at hBB
    have hb := lt_of_reachable hentry hBB
    rw [insertBefore_insts hb] at hinsts
    by_cases hi : i = P.insts.length
    · -- the new instruction is where `ip` was
      subst hi
      obtain ⟨post', rfl, hold⟩ :=
        append_cons_of_splice_self (hord.nodup BB hBB) (hP.not_mem hb) hinsts
      have hBBip : (P.inst ip).parent = BB := hssa.inst_parent BB hBB ip (by simp [hold])
      rw [insertBefore_inst_self] at hj
      have husable := hop _ hj
      rw [hext.inst j (husable.old j rfl)] at hparent
      subst hBBip
      exact husable.before hBB j rfl hparent pre post' hold
    · have hold := append_cons_of_splice (hP.not_mem hb) hi hinsts
      have hlt := lt_of_mem_insts hP hentry hBB (i := i) (by simp [hold])
      rw [hext.inst i hlt] at hj hiphi
      rw [hext.inst j (hP.operands i j hj)] at hparent
      have hmem := hord.use BB hBB _ i _ hold hiphi j hj hparent
      exact (List.mem_filter.mp hmem).1

include hip hphi

/-- The function with the new instruction is in SSA form. Blocks, edges and dominance are those of
the old function, so the only new obligation is that the operands of the new instruction are
available. -/
theorem ssaForm_insertBefore : SSAForm (P.insertBefore ip ty op) entry F := by
  have hext : Extends P (P.insertBefore ip ty op) := extends_insertBefore hP
  have hmem : ∀ {BB i}, Reachable P entry BB →
      (i ∈ ((P.insertBefore ip ty op).block BB).insts ↔
        i ∈ (P.block BB).insts ∨ i = P.insts.length ∧ BB = (P.inst ip).parent) :=
    fun hBB => mem_insertBefore hP hip (lt_of_reachable hentry hBB)
  constructor
  case entry_block => rw [hext.func]; exact hssa.entry_block
  case parent =>
    intro BB hBB
    rw [hext.parent]
    exact hssa.parent BB (hext.reachable.mp hBB)
  case succ_iff_pred =>
    intro Pred BB
    rw [hext.termOp hP, hext.preds]
    exact hssa.succ_iff_pred Pred BB
  case inst_parent =>
    intro BB hBB i hi
    rw [hext.reachable] at hBB
    rcases (hmem hBB).mp hi with hi | ⟨rfl, rfl⟩
    · rw [hext.inst i (lt_of_mem_insts hP hentry hBB hi)]
      exact hssa.inst_parent BB hBB i hi
    · rw [insertBefore_inst_self]
  case constant =>
    intro c
    rw [hext.const]
    exact hssa.constant c
  case use =>
    intro BB hBB i hi hiphi V hV
    rw [hext.reachable] at hBB
    rcases (hmem hBB).mp hi with hi | ⟨rfl, rfl⟩
    · rw [hext.inst i (lt_of_mem_insts hP hentry hBB hi)] at hiphi hV
      exact (hssa.use BB hBB i hi hiphi V hV).extends hP hext hentry
    · rw [insertBefore_inst_self] at hV
      exact ((hop V hV).available hBB).extends hP hext hentry
  case incoming =>
    intro BB hBB i hi incoming hinc V Pred hincoming
    rw [hext.reachable] at hBB
    rcases (hmem hBB).mp hi with hi | ⟨rfl, rfl⟩
    · rw [hext.inst i (lt_of_mem_insts hP hentry hBB hi)] at hinc
      exact (hssa.incoming BB hBB i hi incoming hinc V Pred hincoming).extends hP hext hentry
    · rw [insertBefore_inst_self] at hinc
      obtain rfl : op = .phi incoming := hinc
      cases hphi

end Inserted

/-! ### Where values can be used -/

/-- The operands of the instruction at the insertion point can be used there. -/
theorem usableAt_operand (hP : Closed P) (hssa : SSAForm P entry F) (hord : OrderedUses P entry)
    (hip : InsertionPoint P ip) (hV : V ∈ (P.inst ip).op.operands) : UsableAt P entry ip V where
  old := hP.operand_old hV
  available hreach := hssa.use _ hreach ip hip.mem hip.nonphi V hV
  before hreach j hj hparent pre post hinsts :=
    hord.use _ hreach pre ip post hinsts hip.nonphi j (hj ▸ hV) hparent

/-- What is no instruction can be used everywhere. -/
theorem usableAt_constant (h : ∀ i, V ≠ .inst i) : UsableAt P entry ip V where
  old i hi := absurd hi (h i)
  available _ i hi := absurd hi (h i)
  before _ i hi := absurd hi (h i)

theorem usableAt_func {f : FuncId} : UsableAt P entry ip (.func f) := usableAt_constant nofun

/-- What can be used in a block can be used in the blocks that it strictly dominates. -/
theorem usableAt_of_dominates (hV : UsableAt P entry i V)
    (hdom : Dominates P entry (P.inst i).parent (P.inst ip).parent)
    (hne : (P.inst i).parent ≠ (P.inst ip).parent) : UsableAt P entry ip V where
  old := hV.old
  available hreach := (hV.available (Dominates.reachable hdom hreach)).mono hdom
  before hreach j hj hparent := by
    have hi := Dominates.reachable hdom hreach
    obtain ⟨-, hback⟩ := hV.available hi j hj
    exact absurd (Digraph.Dom.antisymm hdom (hparent ▸ hback) hi) hne

section Inserted

variable (hP : Closed P) (hentry : entry < P.blocks.length)
include hP

/-- After an insertion, another place is still one where instructions can be inserted. -/
theorem InsertionPoint.insertBefore (hi : InsertionPoint P i) :
    InsertionPoint (P.insertBefore ip ty op) i where
  lt_blocks := by
    rw [insertBefore_inst_of_lt (hi.lt hP), (extends_insertBefore hP).length_blocks]
    exact hi.lt_blocks
  mem := by
    rw [insertBefore_inst_of_lt (hi.lt hP)]
    exact (extends_insertBefore hP).mem_insts hi.lt_blocks hi.mem
  nonphi := by
    rw [insertBefore_inst_of_lt (hi.lt hP)]
    exact hi.nonphi

/-- The new instruction. -/
theorem insertionPoint_new (hip : InsertionPoint P ip) (hphi : op.isPhi = false) :
    InsertionPoint (P.insertBefore ip ty op) P.insts.length where
  lt_blocks := by
    rw [insertBefore_inst_self, (extends_insertBefore hP).length_blocks]
    exact hip.lt_blocks
  mem := by
    rw [insertBefore_inst_self]
    exact (mem_insertBefore hP hip hip.lt_blocks).mpr (.inr ⟨rfl, rfl⟩)
  nonphi := by
    rw [insertBefore_inst_self]
    exact hphi

include hentry

/-- After an insertion, what could be used somewhere still can. -/
theorem UsableAt.insertBefore (hi : InsertionPoint P i) (hV : UsableAt P entry i V) :
    UsableAt (P.insertBefore ip ty op) entry i V where
  old := (extends_insertBefore hP).old hV.old
  available hreach := by
    rw [insertBefore_inst_of_lt (hi.lt hP), (extends_insertBefore hP).reachable] at hreach
    rw [insertBefore_inst_of_lt (hi.lt hP)]
    exact (hV.available hreach).extends hP (extends_insertBefore hP) hentry
  before hreach j hj hparent pre post hinsts := by
    have hilt := hi.lt hP
    rw [insertBefore_inst_of_lt hilt, (extends_insertBefore hP).reachable] at hreach
    rw [insertBefore_inst_of_lt hilt] at hparent hinsts
    rw [insertBefore_inst_of_lt (hV.old j hj)] at hparent
    rw [insertBefore_insts hi.lt_blocks] at hinsts
    have hold := append_cons_of_splice (hP.not_mem hi.lt_blocks) hilt.ne hinsts
    exact (List.mem_filter.mp (hV.before hreach j hj hparent _ _ hold)).1

omit hentry in
/-- The new instruction can be used where it stands. -/
theorem usableAt_new (hord : OrderedUses P entry) (hip : InsertionPoint P ip) :
    UsableAt (P.insertBefore ip ty op) entry ip (.inst P.insts.length) := by
  have hlt := hip.lt hP
  constructor
  case old =>
    intro j hj
    obtain rfl := Value.inst.inj hj
    rw [length_insertBefore]
    exact Nat.lt_succ_self _
  case available =>
    intro _ j hj
    obtain rfl := Value.inst.inj hj
    rw [insertBefore_inst_of_lt hlt, insertBefore_inst_self]
    exact ⟨(mem_insertBefore hP hip hip.lt_blocks).mpr (.inr ⟨rfl, rfl⟩), .refl _⟩
  case before =>
    intro hreach j hj _ pre post hinsts
    obtain rfl := Value.inst.inj hj
    rw [insertBefore_inst_of_lt hlt, (extends_insertBefore hP).reachable] at hreach
    rw [insertBefore_inst_of_lt hlt, insertBefore_insts hip.lt_blocks] at hinsts
    exact mem_of_splice_self (hord.nodup _ hreach) (hP.not_mem hip.lt_blocks) hinsts

end Inserted

end SSA

end Kint
