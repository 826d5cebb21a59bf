import Kint.RefCount
import Kint.ValueGen.Pass

/-!
# `ValueGen` with its references

The functions of `ValueGen.cc` with the references that they hold: the constructors of the
solver return a term with a reference, `incref` and `decref` stand where they stand in the
source, and `get` returns a term whose reference the table keeps.  Every visitor returns a term
with one reference for the table, and does what its counterpart in `ValueGen` does
(`analyze_owned`).

## The transcription

The names are those of `Kint.ValueGen.Pass`, in a namespace of their own.  A computation of the
visitor is code in the language of `Kint.RefCount`: it makes nodes, gives up references, calls
`get`, and assumes formulas.  `SMTRef` is a node together with the term that it stands for; the
number of a node is what its references are counted by.

## The lemmas

`Implements` compares counted code with the code without references: it takes the multiset of
the references that are owned before, and says what is owned after it.  A lemma with `_owned` is
about code that starts with nothing and ends with one reference to its result (`Owned`).  Code
that passes an accumulated term on takes one reference and returns one (`visitIndices_owned`),
and the conditions of ranges, which are assumed and given up, leave everything as it was
(`addRangeConstraints_implements`).

A failed assertion ends the program, so that nothing is claimed about what it owns.
-/

namespace Kint.ValueGen.Counted

open Iteration Memo SMT RefCount RefCount.Code

/-- `SMTExpr` -/
abbrev SMTRef := Ref (SMTExpr Value)

/-- Code that makes terms of the solver and assumes formulas. -/
abbrev SMTCode (κ : Type) := Code κ (SMTExpr Value) (Term Value 1)

/-- A computation of the visitor. -/
abbrev Visit := SMTCode Value

section Constructors

variable {κ : Type}

/-- `eq` and the other comparisons. -/
def mkCmp (op : Cmp) (L R : SMTRef) : SMTCode κ SMTRef :=
  create ((L.term.cmp op R.term).map SMTExpr.ofFormula)

/-- `bvadd` and the other binary operators. -/
def mkBinary (op : BinaryOp) (L R : SMTRef) : SMTCode κ SMTRef :=
  create (L.term.binary op R.term)

/-- `bvconst` -/
def bvconst (C : APInt) : SMTCode κ SMTRef := create (.ok (.bvconst C))

/-- `assume` -/
def assume (E : SMTRef) : SMTCode κ Unit := do
  let w ← lift E.term.formula
  output w

end Constructors

section Visitor

variable (DL : DataLayout) (P : Program)
  (intrange : InstId → Option (List (APInt × APInt)))

/-- `getBitWidth` of a value -/
def getBitWidth (V : Value) : Visit ℕ :=
  match typeSizeInBits DL (P.typeOf V) with
  | some w => .ret w
  | none => .stop

/-- `mk_fresh` -/
def mkFresh (V : Value) : Visit SMTRef := do
  let w ← getBitWidth DL P V
  create (.ok (.bvvar w V))

/-! ## Range constraints -/

/-- The comparison with one bound of a range; null for the bound zero, which is
ignored. -/
def rangeBound (op : Cmp) (E : SMTRef) (C : APInt) : Visit (Option SMTRef) :=
  if C.toNat = 0 then return none
  else do
    let Tmp ← bvconst C
    let Cmp ← mkCmp op E Tmp
    decref Tmp
    return some Cmp

/-- The condition that an expression lies in `[Lo, Hi)`, for `Lo ≠ Hi`. -/
def rangeCondition (E : SMTRef) (Lo Hi : APInt) : Visit SMTRef := do
  let Cmp0 ← rangeBound .uge E Lo
  let Cmp1 ← rangeBound .ult E Hi
  match Cmp0, Cmp1 with
  | none, none => .stop
  | none, some Cmp1 => return Cmp1
  | some Cmp0, none => return Cmp0
  | some Cmp0, some Cmp1 => do
    let Cond ← mkBinary (if Lo.toNat ≤ Hi.toNat then .and else .or) Cmp0 Cmp1
    decref Cmp0
    decref Cmp1
    return Cond

/-- `addRangeConstraints` -/
def addRangeConstraints (E : SMTRef) : List (APInt × APInt) → Visit Unit
  | [] => .ret ()
  | (Lo, Hi) :: MD =>
    if Lo = Hi then addRangeConstraints E MD
    else do
      let Cond ← rangeCondition E Lo Hi
      assume Cond
      decref Cond
      addRangeConstraints E MD

/-! ## Instructions and constants -/

/-- `visitInstruction` -/
def visitInstruction (i : InstId) : Visit SMTRef := do
  let E ← mkFresh DL P (.inst i)
  match intrange i with
  | some MD => do
    addRangeConstraints E MD
    return E
  | none => return E

/-- `visitTruncInst` -/
def visitTruncInst (i : InstId) (V : Value) : Visit SMTRef := do
  let DstWidth ← getBitWidth DL P (.inst i)
  let E ← ask V
  create (E.term.extract (DstWidth - 1) 0)

/-- `visitZExtInst` -/
def visitZExtInst (i : InstId) (V : Value) : Visit SMTRef := do
  let DstWidth ← getBitWidth DL P (.inst i)
  let SrcWidth ← getBitWidth DL P V
  let E ← ask V
  create (.ok (E.term.zeroExtend (DstWidth - SrcWidth)))

/-- `visitSExtInst` -/
def visitSExtInst (i : InstId) (V : Value) : Visit SMTRef := do
  let DstWidth ← getBitWidth DL P (.inst i)
  let SrcWidth ← getBitWidth DL P V
  let E ← ask V
  create (.ok (E.term.signExtend (DstWidth - SrcWidth)))

/-- `visitBinaryOperator` -/
def visitBinaryOperator (op : BinaryOp) (lhs rhs : Value) : Visit SMTRef := do
  let L ← ask lhs
  let R ← ask rhs
  mkBinary op L R

/-- `visitICmpInst` -/
def visitICmpInst (pred : ICmpPredicate) (lhs rhs : Value) : Visit SMTRef := do
  let L ← ask lhs
  let R ← ask rhs
  mkCmp (cmpOf pred) L R

/-- `visitSelectInst` -/
def visitSelectInst (cond ifTrue ifFalse : Value) : Visit SMTRef := do
  let C ← ask cond
  let T ← ask ifTrue
  let F ← ask ifFalse
  create (C.term.ite T.term F.term)

/-- `visitExtractValueInst` -/
def visitExtractValueInst (i : InstId) (agg : Value) (idx : ℕ) : Visit SMTRef :=
  match overflowCall? P agg with
  | none => mkFresh DL P (.inst i)
  | some (op, lhs, rhs) => do
    let L ← ask lhs
    let R ← ask rhs
    match idx with
    | 0 => mkBinary (resultOp op) L R
    | 1 => create ((L.term.overflow op R.term).map SMTExpr.ofFormula)
    | _ => .stop

/-- Bring an index to the width of a pointer, with a reference of its own. -/
def resizeIndex (SIdx : SMTRef) : Visit SMTRef :=
  if SIdx.term.width ≠ DL.pointerSizeInBits then
    if SIdx.term.width < DL.pointerSizeInBits then
      create (.ok (SIdx.term.signExtend (DL.pointerSizeInBits - SIdx.term.width)))
    else create (SIdx.term.extract (DL.pointerSizeInBits - 1) 0)
  else do
    incref SIdx
    return SIdx

/-- Add the scaled element offset of an index that is not constant. -/
def addIndex (ty : Ty) (V : Value) (Offset : SMTRef) : Visit SMTRef :=
  match ty with
  -- the assertion on constant field numbers
  | .struct _ => .stop
  | _ => do
    let SIdx ← ask V
    let SIdx ← resizeIndex DL SIdx
    let SElemSize ← bvconst ⟨_, elemSize DL P ty V⟩
    let LocalOffset ← mkBinary .mul SIdx SElemSize
    let Tmp ← mkBinary .add Offset LocalOffset
    decref SIdx
    decref SElemSize
    decref Offset
    decref LocalOffset
    return Tmp

/-- The loop of `visitGEPOperator` over the indices, and what follows it; zero
indices are skipped. -/
def visitIndices : Ty → List Value → SMTRef → BitVec DL.pointerSizeInBits → Visit SMTRef
  | _, [], Offset, ConstOffset =>
    if ConstOffset = 0 then return Offset
    else do
      let SConstOffset ← bvconst ⟨_, ConstOffset⟩
      let Tmp ← mkBinary .add Offset SConstOffset
      decref Offset
      decref SConstOffset
      return Tmp
  | ty, V :: idx, Offset, ConstOffset =>
    match constantInt? V with
    | some C =>
      if C.toNat = 0 then visitIndices (indexedType P ty V) idx Offset ConstOffset
      else
        visitIndices (indexedType P ty V) idx Offset (ConstOffset + constOffset DL P ty V C)
    | none => do
      let Offset' ← addIndex DL P ty V Offset
      visitIndices (indexedType P ty V) idx Offset' ConstOffset

/-- `visitGEPOperator` -/
def visitGEPOperator (base : Value) (idx : List Value) : Visit SMTRef := do
  let Offset ← ask base
  incref Offset
  visitIndices DL P (P.typeOf base) idx Offset 0

/-- `visitBitCastInst`; the operand can be floating point. -/
def visitBitCastInst (i : InstId) (V : Value) : Visit SMTRef :=
  if isAnalyzable (P.typeOf V) then do
    let E ← ask V
    incref E
    return E
  else mkFresh DL P (.inst i)

/-- `visitPtrToIntInst` -/
def visitPtrToIntInst (i : InstId) (V : Value) : Visit SMTRef := do
  let E ← ask V
  let PtrSize ← getBitWidth DL P V
  let IntSize ← getBitWidth DL P (.inst i)
  if IntSize > PtrSize then create (.ok (E.term.zeroExtend (IntSize - PtrSize)))
  else if IntSize < PtrSize then create (E.term.extract (IntSize - 1) 0)
  else do
    incref E
    return E

/-- `visitConstant` -/
def visitConstant (V : Value) : Visit SMTRef :=
  match V with
  | .constInt c => bvconst c
  | .null _ => do
    let w ← getBitWidth DL P V
    bvconst ⟨w, 0⟩
  | .constExpr c =>
    match P.const c with
    | .gep base idx _ => visitGEPOperator DL P base idx
    | _ => mkFresh DL P V
  | _ => mkFresh DL P V

/-- `visit`: the dispatch on the opcode of an instruction. -/
def visit (i : InstId) : Visit SMTRef :=
  match (P.inst i).op with
  | .cast .trunc V => visitTruncInst DL P i V
  | .cast .zext V => visitZExtInst DL P i V
  | .cast .sext V => visitSExtInst DL P i V
  | .cast .bitcast V => visitBitCastInst DL P i V
  | .cast .ptrtoint V => visitPtrToIntInst DL P i V
  | .binary op lhs rhs => visitBinaryOperator op lhs rhs
  | .icmp pred lhs rhs => visitICmpInst pred lhs rhs
  | .select cond ifTrue ifFalse => visitSelectInst cond ifTrue ifFalse
  | .extractValue agg idx => visitExtractValueInst DL P i agg idx
  | .gep base idx => visitGEPOperator DL P base idx
  | _ => visitInstruction DL P intrange i

/-- `analyze` -/
def analyze (V : Value) : Visit SMTRef :=
  if isAnalyzable (P.typeOf V) then
    match V with
    | .inst i => visit DL P intrange i
    | V => if V.isConstant then visitConstant DL P V else mkFresh DL P V
  else .stop

end Visitor

/-! ## Ownership -/

/-- The result has one reference, which the caller owns, and nothing else is owned. -/
def Owned (r : SMTRef) (A : Multiset ℕ) (t : SMTExpr Value) : Prop :=
  r.term = t ∧ A = {r.node}

/-- A computation that does not fail is its result. -/
theorem lift_eq_ret {κ τ ω α : Type} {x : Except Stop α} {a : α} (h : x = .ok a) :
    (Calls.lift x : Calls κ τ ω α) = .ret a := by
  rw [h]
  rfl

/-- A constructor of the solver returns a reference that the caller owns. -/
theorem create_owned {t : Except Stop (SMTExpr Value)} {c : ValueGen.Visit (SMTExpr Value)}
    (h : ∀ a, t = .ok a → c = .ret a) : (create t).Implements Owned 0 c :=
  fun r hr => ⟨r.term, h _ hr, rfl, add_zero _⟩

/-- A binary operator returns a reference that the caller owns. -/
theorem binary_owned {op : BinaryOp} {L R : SMTRef} :
    (mkBinary op L R : Visit SMTRef).Implements Owned 0 (.lift (L.term.binary op R.term)) :=
  create_owned fun _ => lift_eq_ret

/-- A constructor of a formula returns a reference that the caller owns. -/
theorem formula_owned {x : Except Stop (Term Value 1)} :
    (create (x.map SMTExpr.ofFormula) : Visit SMTRef).Implements Owned 0
      (Calls.lift x >>= fun E => pure (SMTExpr.ofFormula E) : ValueGen.Visit _) := by
  cases x with
  | ok e => exact create_owned fun a ha => by rw [← Except.ok.inj ha]; rfl
  | error e => exact create_owned fun a ha => by cases ha

theorem binary_formula {op : BinaryOp} {L R E : SMTRef} {l r : Term Value 1}
    (hL : L.term = .ofFormula l) (hR : R.term = .ofFormula r)
    (hE : L.term.binary op R.term = .ok E.term) : E.term = .ofFormula (.binary op l r) := by
  rw [hL, hR] at hE
  exact (Except.ok.inj ((SMTExpr.zip_mk _ l r).symm.trans hE)).symm

/-- What a constructor of a formula returns is a formula. -/
theorem map_formula {x : Except Stop (Term Value 1)} {f : Term Value 1 → SMTExpr Value}
    {E : SMTRef} (h : x.map f = .ok E.term) : ∃ e, x = .ok e ∧ E.term = f e := by
  cases x with
  | ok e => exact ⟨e, rfl, (Except.ok.inj h).symm⟩
  | error e => cases h

section Visitor

variable {DL : DataLayout} {P : Program} {intrange : InstId → Option (List (APInt × APInt))}

theorem getBitWidth_implements {V : Value} {A : Multiset ℕ} :
    (getBitWidth DL P V).Implements (fun w A' w' => w = w' ∧ A' = A) A
      (ValueGen.getBitWidth DL P V) := by
  unfold getBitWidth ValueGen.getBitWidth
  cases typeSizeInBits DL (P.typeOf V) with
  | some w => exact ⟨w, rfl, rfl, rfl⟩
  | none => trivial

theorem mkFresh_owned {V : Value} :
    (mkFresh DL P V).Implements Owned 0 (ValueGen.mkFresh DL P V) := by
  refine getBitWidth_implements.bind fun w A' w' h => ?_
  obtain ⟨rfl, rfl⟩ := h
  exact create_owned fun a ha => by rw [← Except.ok.inj ha]; rfl

/-! ### Range constraints -/

/-- The comparison with one bound of a range: the bound zero is left out, and with another one the
comparison has a reference. -/
theorem rangeBound_bind {op : Cmp} {E : SMTRef} {C : APInt} {A : Multiset ℕ} {α β : Type}
    {c : ValueGen.Visit β} {q : Option SMTRef → Visit α} {Q : α → Multiset ℕ → β → Prop}
    (hzero : C.toNat = 0 → (q none).Implements Q A c)
    (hcmp : C.toNat ≠ 0 → ∀ (Cmp : SMTRef) e, E.term.cmp op (.bvconst C) = .ok e →
      Cmp.term = .ofFormula e → (q (some Cmp)).Implements Q ({Cmp.node} + A) c) :
    (rangeBound op E C >>= q).Implements Q A c := by
  unfold rangeBound
  split
  · next hC => exact hzero hC
  · next hC =>
    intro Tmp hTmp Cmp hCmp
    refine ⟨{Cmp.node} + A, by abel, ?_⟩
    rw [← Except.ok.inj hTmp] at hCmp
    obtain ⟨e, he, hCmp⟩ := map_formula hCmp
    exact hcmp hC Cmp e he hCmp

/-- The result of `rangeCondition` has one reference. -/
theorem rangeCondition_implements {E : SMTRef} {Lo Hi : APInt} :
    (rangeCondition E Lo Hi).Implements (fun r A e => r.term = .ofFormula e ∧ A = {r.node}) 0
      (.lift (ValueGen.rangeCondition E.term Lo Hi)) := by
  unfold rangeCondition ValueGen.rangeCondition
  refine rangeBound_bind (fun hLo => ?_) fun hLo Cmp0 e₀ he₀ hCmp0 => ?_
  · rw [if_pos hLo]
    refine rangeBound_bind (fun hHi => trivial) fun hHi Cmp1 e₁ he₁ hCmp1 => ?_
    exact ⟨e₁, lift_eq_ret he₁, hCmp1, add_zero _⟩
  · rw [if_neg hLo]
    refine rangeBound_bind (fun hHi => ?_) fun hHi Cmp1 e₁ he₁ hCmp1 => ?_
    · rw [if_pos hHi]
      exact ⟨e₀, lift_eq_ret he₀, hCmp0, add_zero _⟩
    · rw [if_neg hHi, he₀, he₁]
      intro Cond hCond
      refine ⟨{Cond.node} + {Cmp1.node}, by abel, {Cond.node}, by abel, _, rfl, ?_, rfl⟩
      have hterm := binary_formula hCmp0 hCmp1 hCond
      rw [hterm]
      split
      · rfl
      · rfl

/-- The conditions of ranges are given up after they were assumed. -/
theorem addRangeConstraints_implements {E : SMTRef} {MD : List (APInt × APInt)}
    {A : Multiset ℕ} :
    (addRangeConstraints E MD).Implements (fun _ A' _ => A' = A) A
      (ValueGen.addRangeConstraints E.term MD) := by
  induction MD with
  | nil => exact ⟨(), rfl, rfl⟩
  | cons bounds MD ih =>
    obtain ⟨Lo, Hi⟩ := bounds
    unfold addRangeConstraints ValueGen.addRangeConstraints
    split
    · exact ih
    · refine rangeCondition_implements.bind_frame fun Cond A' e h => ?_
      obtain ⟨hCond, rfl⟩ := h
      unfold assume
      rw [hCond]
      exact ⟨_, rfl, A, rfl, ih⟩

/-! ### Instructions and constants -/

/-- A leaf, with the conditions of its metadata. -/
theorem visitInstruction_owned {i : InstId} :
    (visitInstruction DL P intrange i).Implements Owned 0
      (ValueGen.visitInstruction DL P intrange i) := by
  refine mkFresh_owned.bind fun E A t h => ?_
  obtain ⟨rfl, rfl⟩ := h
  cases intrange i with
  | some MD =>
    refine addRangeConstraints_implements.bind fun _ A' _ h => ?_
    exact ⟨_, rfl, rfl, h⟩
  | none => exact ⟨_, rfl, rfl, rfl⟩

theorem visitTruncInst_owned {i : InstId} {V : Value} :
    (visitTruncInst DL P i V).Implements Owned 0 (ValueGen.visitTruncInst DL P i V) := by
  refine getBitWidth_implements.bind fun w A' w' h => ?_
  obtain ⟨rfl, rfl⟩ := h
  exact implements_ask fun E => create_owned fun _ => lift_eq_ret

/-- `visitZExtInst` and `visitSExtInst` -/
theorem visitExtend_owned {i : InstId} {V : Value} {extend : ℕ → SMTExpr Value → SMTExpr Value} :
    (do
      let DstWidth ← getBitWidth DL P (.inst i)
      let SrcWidth ← getBitWidth DL P V
      let E ← ask V
      create (.ok (extend (DstWidth - SrcWidth) E.term)) : Visit SMTRef).Implements Owned 0
    (do
      let DstWidth ← ValueGen.getBitWidth DL P (.inst i)
      let SrcWidth ← ValueGen.getBitWidth DL P V
      let E ← Calls.ask V
      return extend (DstWidth - SrcWidth) E) := by
  refine getBitWidth_implements.bind fun w A' w' h => ?_
  obtain ⟨rfl, rfl⟩ := h
  refine getBitWidth_implements.bind fun w A' w' h => ?_
  obtain ⟨rfl, rfl⟩ := h
  exact implements_ask fun E => create_owned fun a ha => by rw [← Except.ok.inj ha]; rfl

/-- Binary operators: the operands belong to the table. -/
theorem visitBinaryOperator_owned {op : BinaryOp} {lhs rhs : Value} :
    (visitBinaryOperator op lhs rhs).Implements Owned 0
      (ValueGen.visitBinaryOperator op lhs rhs) :=
  implements_ask fun _ => implements_ask fun _ => binary_owned

theorem visitICmpInst_owned {pred : ICmpPredicate} {lhs rhs : Value} :
    (visitICmpInst pred lhs rhs).Implements Owned 0 (ValueGen.visitICmpInst pred lhs rhs) :=
  implements_ask fun _ => implements_ask fun _ => formula_owned

theorem visitSelectInst_owned {cond ifTrue ifFalse : Value} :
    (visitSelectInst cond ifTrue ifFalse).Implements Owned 0
      (ValueGen.visitSelectInst cond ifTrue ifFalse) :=
  implements_ask fun _ => implements_ask fun _ => implements_ask fun _ =>
    create_owned fun _ => lift_eq_ret

/-- The members of the result of an intrinsic with overflow, and those of other aggregates. -/
theorem visitExtractValueInst_owned {i : InstId} {agg : Value} {idx : ℕ} :
    (visitExtractValueInst DL P i agg idx).Implements Owned 0
      (ValueGen.visitExtractValueInst DL P i agg idx) := by
  unfold visitExtractValueInst ValueGen.visitExtractValueInst
  cases overflowCall? P agg with
  | none => exact mkFresh_owned
  | some call =>
    obtain ⟨op, lhs, rhs⟩ := call
    refine implements_ask fun L => implements_ask fun R => ?_
    match idx with
    | 0 => exact binary_owned
    | 1 => exact formula_owned
    | _ + 2 => trivial

/-! ### Address computations -/

/-- A resized index has a reference of its own, also if it is the index itself. -/
theorem resizeIndex_owned {SIdx : SMTRef} :
    (resizeIndex DL SIdx).Implements Owned 0 (.lift (ValueGen.resizeIndex DL SIdx.term)) := by
  unfold resizeIndex ValueGen.resizeIndex
  split
  · split
    · exact create_owned fun _ => lift_eq_ret
    · exact create_owned fun _ => lift_eq_ret
  · exact ⟨_, rfl, rfl, rfl⟩

/-- The offset that is passed on has one reference, as the one that was passed in. The terms of the
index, of the size and of the product are given up once the sum is made. -/
theorem addIndex_owned {ty : Ty} {V : Value} {Offset : SMTRef} :
    (addIndex DL P ty V Offset).Implements Owned {Offset.node}
      (ValueGen.addIndex DL P ty V Offset.term) := by
  have hindex : (do
      let SIdx ← ask V
      let SIdx ← resizeIndex DL SIdx
      let SElemSize ← bvconst ⟨_, elemSize DL P ty V⟩
      let LocalOffset ← mkBinary .mul SIdx SElemSize
      let Tmp ← mkBinary .add Offset LocalOffset
      decref SIdx
      decref SElemSize
      decref Offset
      decref LocalOffset
      return Tmp : Visit SMTRef).Implements Owned {Offset.node} (do
      let SIdx ← Calls.ask V
      let SIdx ← Calls.lift (ValueGen.resizeIndex DL SIdx)
      let LocalOffset ← Calls.lift (SIdx.binary .mul (.bvconst ⟨_, elemSize DL P ty V⟩))
      Calls.lift (Offset.term.binary .add LocalOffset)) := by
    refine implements_ask fun SIdx => ?_
    refine resizeIndex_owned.bind_frame fun SIdx A' t h => ?_
    obtain ⟨rfl, rfl⟩ := h
    refine implements_create fun SElemSize hSize => ?_
    refine implements_create fun LocalOffset hLocal => ?_
    refine implements_create fun Tmp hTmp => ?_
    refine implements_decref
      (B := {Tmp.node} + {LocalOffset.node} + {SElemSize.node} + {Offset.node}) (by abel) ?_
    refine implements_decref (B := {Tmp.node} + {LocalOffset.node} + {Offset.node}) (by abel) ?_
    refine implements_decref (B := {Tmp.node} + {LocalOffset.node}) (by abel) ?_
    refine implements_decref (B := {Tmp.node}) (by abel) ?_
    rw [← Except.ok.inj hSize] at hLocal
    refine ⟨Tmp.term, ?_, rfl, rfl⟩
    rw [hLocal]
    exact lift_eq_ret hTmp
  cases ty with
  | struct s => trivial
  | _ => exact hindex

/-- The loop over the indices gives the reference of the offset up for that of the sum. By induction
on the indices; at the end the constant part is added, if there is one. -/
theorem visitIndices_owned {ty : Ty} {idx : List Value} {Offset : SMTRef}
    {ConstOffset : BitVec DL.pointerSizeInBits} :
    (visitIndices DL P ty idx Offset ConstOffset).Implements Owned {Offset.node}
      (ValueGen.visitIndices DL P ty idx Offset.term ConstOffset) := by
  induction idx generalizing ty Offset ConstOffset with
  | nil =>
    unfold visitIndices ValueGen.visitIndices
    split
    · exact ⟨_, rfl, rfl, rfl⟩
    · refine implements_create fun SConstOffset hConst => ?_
      refine implements_create fun Tmp hTmp => ?_
      refine implements_decref (B := {Tmp.node} + {SConstOffset.node}) (by abel) ?_
      refine implements_decref (B := {Tmp.node}) (by abel) ?_
      rw [← Except.ok.inj hConst] at hTmp
      exact ⟨Tmp.term, lift_eq_ret hTmp, rfl, rfl⟩
  | cons V idx ih =>
    unfold visitIndices ValueGen.visitIndices
    cases constantInt? V with
    | some C =>
      by_cases hC : C.toNat = 0
      · simp only [if_pos hC]
        exact ih
      · simp only [if_neg hC]
        exact ih
    | none =>
      refine addIndex_owned.bind fun Offset' A' t h => ?_
      obtain ⟨rfl, rfl⟩ := h
      exact ih

theorem visitGEPOperator_owned {base : Value} {idx : List Value} :
    (visitGEPOperator DL P base idx).Implements Owned 0
      (ValueGen.visitGEPOperator DL P base idx) :=
  implements_ask fun _ => implements_incref visitIndices_owned

/-! ### The visitor -/

/-- Casts take a reference to the term of the operand. -/
theorem visitBitCastInst_owned {i : InstId} {V : Value} :
    (visitBitCastInst DL P i V).Implements Owned 0 (ValueGen.visitBitCastInst DL P i V) := by
  unfold visitBitCastInst ValueGen.visitBitCastInst
  split
  · exact ⟨_, rfl, fun E => ⟨_, rfl, rfl, rfl⟩⟩
  · exact mkFresh_owned

theorem visitPtrToIntInst_owned {i : InstId} {V : Value} :
    (visitPtrToIntInst DL P i V).Implements Owned 0 (ValueGen.visitPtrToIntInst DL P i V) := by
  refine implements_ask fun E => ?_
  refine getBitWidth_implements.bind fun PtrSize A' w' h => ?_
  obtain ⟨rfl, rfl⟩ := h
  refine getBitWidth_implements.bind fun IntSize A' w' h => ?_
  obtain ⟨rfl, rfl⟩ := h
  split
  · exact create_owned fun a ha => by rw [← Except.ok.inj ha]; rfl
  · split
    · exact create_owned fun _ => lift_eq_ret
    · exact ⟨_, rfl, rfl, rfl⟩

/-- A constant has a reference when it is returned. -/
theorem bvconst_owned {C : APInt} :
    (bvconst C : Visit SMTRef).Implements Owned 0 (.ret (.bvconst C)) :=
  create_owned fun a ha => by rw [← Except.ok.inj ha]

theorem visitConstant_owned {V : Value} :
    (visitConstant DL P V).Implements Owned 0 (ValueGen.visitConstant DL P V) := by
  cases V with
  | constInt c => exact bvconst_owned
  | null ty =>
    refine getBitWidth_implements.bind fun w A' w' h => ?_
    obtain ⟨rfl, rfl⟩ := h
    exact bvconst_owned
  | constExpr c =>
    unfold visitConstant ValueGen.visitConstant
    simp only
    cases P.const c with
    | gep base idx ty => exact visitGEPOperator_owned
    | _ => exact mkFresh_owned
  | _ => exact mkFresh_owned

theorem visit_owned {i : InstId} :
    (visit DL P intrange i).Implements Owned 0 (ValueGen.visit DL P intrange i) := by
  unfold visit ValueGen.visit
  cases (P.inst i).op with
  | cast op V =>
    cases op with
    | trunc => exact visitTruncInst_owned
    | zext => exact visitExtend_owned
    | sext => exact visitExtend_owned
    | bitcast => exact visitBitCastInst_owned
    | ptrtoint => exact visitPtrToIntInst_owned
    | _ => exact visitInstruction_owned
  | binary op lhs rhs => exact visitBinaryOperator_owned
  | icmp pred lhs rhs => exact visitICmpInst_owned
  | select cond ifTrue ifFalse => exact visitSelectInst_owned
  | extractValue agg idx => exact visitExtractValueInst_owned
  | gep base idx => exact visitGEPOperator_owned
  | _ => exact visitInstruction_owned

/-- The visitor computes the term that `ValueGen` computes, and owns one reference to it
in the end. -/
theorem analyze_owned {V : Value} :
    (analyze DL P intrange V).Implements Owned 0 (ValueGen.analyze DL P intrange V) := by
  unfold analyze ValueGen.analyze
  split
  · have hother : (if V.isConstant then visitConstant DL P V else mkFresh DL P V).Implements
        Owned 0 (if V.isConstant then ValueGen.visitConstant DL P V
          else ValueGen.mkFresh DL P V) := by
      split
      · exact visitConstant_owned
      · exact mkFresh_owned
    cases V with
    | inst i => exact visit_owned
    | _ => exact hother
  · trivial

end Visitor

end Kint.ValueGen.Counted
