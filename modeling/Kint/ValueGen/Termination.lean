import Kint.ValueGen.Support

/-!
# What `ValueGen` asks for

`ValueGen::get` calls itself for the operands of an instruction.  Every key that a visit may ask
for is something that the value is computed from (`asksOnly_analyze`), in one step or, for a
member of the result of an intrinsic call, in two.  A phi node asks for nothing: it gets a fresh
variable, so that the calls do not follow what flows around a loop.  So the calls come to an end
where no value is computed from itself (`Kint.PathGen.acc_operand` says where that is).

The lemmas follow the visitor: one for each function, put together along its sequence of calls
(`AsksOnly.bind`).
-/

namespace Kint.ValueGen

open Iteration Memo SMT Calls Relation

section Asks

variable {DL : DataLayout} {P : Program} {intrange : InstId → Option (List (APInt × APInt))}
  {V U : Value} {i : InstId} {S : Value → Prop}

theorem asksOnly_getBitWidth : AsksOnly S (getBitWidth DL P V) := by
  unfold getBitWidth
  split
  · exact asksOnly_ret
  · exact asksOnly_stop

theorem asksOnly_mkFresh : AsksOnly S (mkFresh DL P V) :=
  asksOnly_getBitWidth.bind fun _ => asksOnly_pure

theorem asksOnly_addRangeConstraints {E : SMTExpr Value} {MD : List (APInt × APInt)} :
    AsksOnly S (addRangeConstraints E MD) := by
  induction MD with
  | nil => exact asksOnly_ret
  | cons m MD ih =>
    unfold addRangeConstraints
    split
    · exact ih
    · exact asksOnly_lift.bind fun Cond => asksOnly_output.bind fun _ => ih

theorem asksOnly_visitInstruction : AsksOnly S (visitInstruction DL P intrange i) := by
  refine asksOnly_mkFresh.bind fun E => ?_
  split
  · exact asksOnly_addRangeConstraints.bind fun _ => asksOnly_pure
  · exact asksOnly_pure

theorem asksOnly_addIndex {ty : Ty} {Offset : SMTExpr Value} (h : S V) :
    AsksOnly S (addIndex DL P ty V Offset) := by
  unfold addIndex
  split
  · exact asksOnly_stop
  · exact (asksOnly_ask h).bind fun _ => asksOnly_lift.bind fun _ => asksOnly_lift.bind
      fun _ => asksOnly_lift

theorem asksOnly_visitIndices {ty : Ty} {idx : List Value} {Offset : SMTExpr Value}
    {ConstOffset : BitVec DL.pointerSizeInBits} (h : ∀ U ∈ idx, S U) :
    AsksOnly S (visitIndices DL P ty idx Offset ConstOffset) := by
  induction idx generalizing ty Offset ConstOffset with
  | nil =>
    unfold visitIndices
    split
    · exact asksOnly_ret
    · exact asksOnly_lift
  | cons V idx ih =>
    obtain ⟨hV, hidx⟩ := List.forall_mem_cons.mp h
    unfold visitIndices
    split
    · split
      · exact ih hidx
      · exact ih hidx
    · exact (asksOnly_addIndex hV).bind fun _ => ih hidx

/-- An address computation asks for the base and the indices. -/
theorem asksOnly_visitGEPOperator {base : Value} {idx : List Value}
    (h : ∀ U ∈ base :: idx, S U) : AsksOnly S (visitGEPOperator DL P base idx) :=
  (asksOnly_ask (h base List.mem_cons_self)).bind fun _ =>
    asksOnly_visitIndices fun U hU => h U (List.mem_cons_of_mem base hU)

/-- A member of the result of an intrinsic asks for the operands of the call. -/
theorem asksOnly_visitExtractValueInst {agg : Value} {idx : ℕ}
    (h : ∀ op lhs rhs, overflowCall? P agg = some (op, lhs, rhs) → S lhs ∧ S rhs) :
    AsksOnly S (visitExtractValueInst DL P i agg idx) := by
  unfold visitExtractValueInst
  split
  · exact asksOnly_mkFresh
  · rename_i op lhs rhs hcall
    obtain ⟨hl, hr⟩ := h op lhs rhs hcall
    refine (asksOnly_ask hl).bind fun L => (asksOnly_ask hr).bind fun R => ?_
    split
    · exact asksOnly_lift
    · exact asksOnly_lift.bind fun _ => asksOnly_pure
    · exact asksOnly_stop

/-- An instruction that is no phi node may ask for its operands. -/
theorem asksOnly_operand {op : Opcode} (U : Value) (h : (P.inst i).op = op)
    (hphi : op.isPhi = false) (hU : U ∈ op.operands) :
    AsksOnly (TransGen (Operand P) (.inst i)) (ask U : Visit (SMTExpr Value)) := by
  subst h
  exact asksOnly_ask (.single (.inst hphi hU))

/-- An instruction asks for what it is computed from. The operands of a phi node are not asked for,
as the instruction is a leaf. -/
theorem asksOnly_visit :
    AsksOnly (TransGen (Operand P) (.inst i)) (visit DL P intrange i) := by
  unfold visit
  split
  · rename_i U h
    exact asksOnly_getBitWidth.bind fun _ =>
      (asksOnly_operand U h rfl (by simp [Opcode.operands])).bind fun _ => asksOnly_lift
  · rename_i U h
    exact asksOnly_getBitWidth.bind fun _ => asksOnly_getBitWidth.bind fun _ =>
      (asksOnly_operand U h rfl (by simp [Opcode.operands])).bind fun _ => asksOnly_pure
  · rename_i U h
    exact asksOnly_getBitWidth.bind fun _ => asksOnly_getBitWidth.bind fun _ =>
      (asksOnly_operand U h rfl (by simp [Opcode.operands])).bind fun _ => asksOnly_pure
  · rename_i U h
    unfold visitBitCastInst
    split
    · exact asksOnly_operand U h rfl (by simp [Opcode.operands])
    · exact asksOnly_mkFresh
  · rename_i U h
    refine (asksOnly_operand U h rfl (by simp [Opcode.operands])).bind fun _ =>
      asksOnly_getBitWidth.bind fun _ => asksOnly_getBitWidth.bind fun _ => ?_
    split
    · exact asksOnly_pure
    · split
      · exact asksOnly_lift
      · exact asksOnly_pure
  · rename_i op lhs rhs h
    exact (asksOnly_operand lhs h rfl (by simp [Opcode.operands])).bind fun _ =>
      (asksOnly_operand rhs h rfl (by simp [Opcode.operands])).bind fun _ => asksOnly_lift
  · rename_i pred lhs rhs h
    exact (asksOnly_operand lhs h rfl (by simp [Opcode.operands])).bind fun _ =>
      (asksOnly_operand rhs h rfl (by simp [Opcode.operands])).bind fun _ =>
        asksOnly_lift.bind fun _ => asksOnly_pure
  · rename_i cond ifTrue ifFalse h
    exact (asksOnly_operand cond h rfl (by simp [Opcode.operands])).bind fun _ =>
      (asksOnly_operand ifTrue h rfl (by simp [Opcode.operands])).bind fun _ =>
        (asksOnly_operand ifFalse h rfl (by simp [Opcode.operands])).bind fun _ => asksOnly_lift
  · rename_i agg idx h
    have hagg : Operand P (.inst i) agg := .inst (by rw [h]; rfl) (by simp [h, Opcode.operands])
    exact asksOnly_visitExtractValueInst fun op lhs rhs hcall => overflowCall_operand hagg hcall
  · rename_i base idx h
    exact asksOnly_visitGEPOperator fun U hU =>
      .single (.inst (by rw [h]; rfl) (by simpa [h, Opcode.operands] using hU))
  · exact asksOnly_visitInstruction

/-- A constant expression asks for what it is computed from. -/
theorem asksOnly_visitConstant :
    AsksOnly (TransGen (Operand P) V) (visitConstant DL P V) := by
  unfold visitConstant
  split
  · exact asksOnly_ret
  · exact asksOnly_getBitWidth.bind fun _ => asksOnly_pure
  · rename_i c
    split
    · rename_i base idx ty hc
      refine asksOnly_visitGEPOperator fun U hU => .single (.const ?_)
      rw [hc]
      exact hU
    · exact asksOnly_mkFresh
  · exact asksOnly_mkFresh

/-- The term of a value is made from the terms of what the value is computed from. -/
theorem asksOnly_analyze : AsksOnly (TransGen (Operand P) V) (analyze DL P intrange V) := by
  unfold analyze
  split
  · split
    · exact asksOnly_visit
    · split
      · exact asksOnly_visitConstant
      · exact asksOnly_mkFresh
  · exact asksOnly_stop

end Asks

end Kint.ValueGen
