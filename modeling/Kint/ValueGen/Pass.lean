import Kint.Annotation
import Kint.Memo
import Kint.SMT.Term

/-!
# `ValueGen`

`ValueGen::get` translates a value into a term of the solver, visiting its operands first, and
keeps every term in `Cache`.  The visitor of `ValueGen.cc` is transcribed as the tree of its
calls of `get` (`analyze`); the variables of a term are the values that are not looked into.
The references to expressions are left out here.

## The form of the transcription

A visitor is a `Visit`: it asks for the terms of operands, assumes formulas about range
metadata, and fails where the source fails an assertion.  The table and the recursion are those
of `Kint.Memo` (`get`); there the fuel bounds the depth of nested calls.

* `visitInstruction`: a fresh variable, with the conditions of the range metadata
  (`addRangeConstraints`).
* `visitTruncInst` to `visitPtrToIntInst`: one definition for each visitor of the source.
* `visitGEPOperator`, `visitIndices`, `addIndex`, `resizeIndex`: address computations.  A
  constant index goes into a machine integer, another one is scaled by the solver.
* `visitConstant`, `visit`, `analyze`: the dispatch.

`DataLayout` is a parameter with what the visitor asks of it: sizes, the offsets of struct
fields and the width of a pointer.  The references are put back in `Kint.ValueGen.Counted`.
-/

namespace Kint

open Iteration Memo SMT

/-- `DataLayout`: sizes and offsets in memory; a struct starts with its first
field. -/
structure DataLayout where
  pointerSizeInBits : ℕ
  elementOffset : StructId → ℕ → ℕ
  typeAllocSize : Ty → ℕ
  pointerSizeInBits_pos : 0 < pointerSizeInBits
  elementOffset_zero : ∀ s, elementOffset s 0 = 0

/-- `ValueGen::isAnalyzable` -/
def isAnalyzable : Ty → Bool
  | .int _ | .ptr _ | .func => true
  | _ => false

namespace ValueGen

/-- What the visitor does on the way to a term: it calls `get` and assumes
formulas. -/
abbrev Visit := Calls Value (SMTExpr Value) (Term Value 1)

/-- Recognize the intrinsics with overflow by name. -/
def overflowOp? (name : String) : Option OverflowOp :=
  if startswith name "llvm.sadd.with.overflow." then some .sadd
  else if startswith name "llvm.uadd.with.overflow." then some .uadd
  else if startswith name "llvm.ssub.with.overflow." then some .ssub
  else if startswith name "llvm.usub.with.overflow." then some .usub
  else if startswith name "llvm.smul.with.overflow." then some .smul
  else if startswith name "llvm.umul.with.overflow." then some .umul
  else none

/-- The comparison for an integer predicate. -/
def cmpOf : ICmpPredicate → Cmp
  | .eq => .eq
  | .ne => .ne
  | .sge => .sge
  | .sgt => .sgt
  | .sle => .sle
  | .slt => .slt
  | .uge => .uge
  | .ugt => .ugt
  | .ule => .ule
  | .ult => .ult

section Visitor

variable (DL : DataLayout) (P : Program)
  (intrange : InstId → Option (List (APInt × APInt)))

/-- `getTypeSizeInBits` of a sized type that is analyzable. -/
def typeSizeInBits : Ty → Option ℕ
  | .int w => some w
  | .ptr _ => some DL.pointerSizeInBits
  | _ => none

/-- `getBitWidth` of a value -/
def getBitWidth (V : Value) : Visit ℕ :=
  match typeSizeInBits DL (P.typeOf V) with
  | some w => .ret w
  | none => .stop

/-- `mk_fresh` -/
def mkFresh (V : Value) : Visit (SMTExpr Value) := do
  let w ← getBitWidth DL P V
  return .bvvar w V

/-! ## Range constraints -/

/-- The condition that an expression lies in `[Lo, Hi)`, for `Lo ≠ Hi`. -/
def rangeCondition (E : SMTExpr Value) (Lo Hi : APInt) : Except Stop (Term Value 1) :=
  if Lo.toNat = 0 then E.cmp .ult (.bvconst Hi)
  else if Hi.toNat = 0 then E.cmp .uge (.bvconst Lo)
  else do
    let Cmp0 ← E.cmp .uge (.bvconst Lo)
    let Cmp1 ← E.cmp .ult (.bvconst Hi)
    return if Lo.toNat ≤ Hi.toNat then .bvand Cmp0 Cmp1 else .bvor Cmp0 Cmp1

/-- `addRangeConstraints` -/
def addRangeConstraints (E : SMTExpr Value) : List (APInt × APInt) → Visit Unit
  | [] => .ret ()
  | (Lo, Hi) :: MD =>
    if Lo = Hi then addRangeConstraints E MD
    else do
      let Cond ← .lift (rangeCondition E Lo Hi)
      .output Cond
      addRangeConstraints E MD

/-! ## Instructions and constants -/

/-- `visitInstruction` -/
def visitInstruction (i : InstId) : Visit (SMTExpr Value) := do
  let E ← mkFresh DL P (.inst i)
  match intrange i with
  | some MD => do
    addRangeConstraints E MD
    return E
  | none => return E

/-- `visitTruncInst` -/
def visitTruncInst (i : InstId) (V : Value) : Visit (SMTExpr Value) := do
  let DstWidth ← getBitWidth DL P (.inst i)
  let E ← .ask V
  .lift (E.extract (DstWidth - 1) 0)

/-- `visitZExtInst` -/
def visitZExtInst (i : InstId) (V : Value) : Visit (SMTExpr Value) := do
  let DstWidth ← getBitWidth DL P (.inst i)
  let SrcWidth ← getBitWidth DL P V
  let E ← .ask V
  return E.zeroExtend (DstWidth - SrcWidth)

/-- `visitSExtInst` -/
def visitSExtInst (i : InstId) (V : Value) : Visit (SMTExpr Value) := do
  let DstWidth ← getBitWidth DL P (.inst i)
  let SrcWidth ← getBitWidth DL P V
  let E ← .ask V
  return E.signExtend (DstWidth - SrcWidth)

/-- `visitBinaryOperator` -/
def visitBinaryOperator (op : BinaryOp) (lhs rhs : Value) : Visit (SMTExpr Value) := do
  let L ← .ask lhs
  let R ← .ask rhs
  .lift (L.binary op R)

/-- `visitICmpInst` -/
def visitICmpInst (pred : ICmpPredicate) (lhs rhs : Value) : Visit (SMTExpr Value) := do
  let L ← .ask lhs
  let R ← .ask rhs
  let E ← .lift (L.cmp (cmpOf pred) R)
  return .ofFormula E

/-- `visitSelectInst` -/
def visitSelectInst (cond ifTrue ifFalse : Value) : Visit (SMTExpr Value) := do
  let C ← .ask cond
  let T ← .ask ifTrue
  let F ← .ask ifFalse
  .lift (C.ite T F)

/-- The intrinsic call that an aggregate is the result of, with its first two
arguments.  Only the intrinsics with overflow have `.with.overflow.` in their
names, so that the other cases of the source are not reached. -/
def overflowCall? (agg : Value) : Option (OverflowOp × Value × Value) :=
  match agg with
  | .inst i =>
    match (P.inst i).op with
    | .call (.func f) (lhs :: rhs :: _) =>
      (overflowOp? (P.func f).name).map fun op => (op, lhs, rhs)
    | _ => none
  | _ => none

/-- `visitExtractValueInst` -/
def visitExtractValueInst (i : InstId) (agg : Value) (idx : ℕ) : Visit (SMTExpr Value) :=
  match overflowCall? P agg with
  | none => mkFresh DL P (.inst i)
  | some (op, lhs, rhs) => do
    let L ← .ask lhs
    let R ← .ask rhs
    match idx with
    | 0 => .lift (L.binary (resultOp op) R)
    | 1 => do
      let E ← .lift (L.overflow op R)
      return .ofFormula E
    | _ => .stop

/-- The type that an address computation goes on with after an index:
`gep_type_iterator`. -/
def indexedType (ty : Ty) (V : Value) : Ty :=
  match ty with
  | .ptr elem => elem
  | .array _ elem => elem
  | .struct s => (constantInt? V).elim .other fun C => (P.struct s).elements.getD C.toNat .other
  | _ => .other

/-- Bring an index to the width of a pointer: sometimes a 64-bit index is
32-bit. -/
def resizeIndex (SIdx : SMTExpr Value) : Except Stop (SMTExpr Value) :=
  if SIdx.width ≠ DL.pointerSizeInBits then
    if SIdx.width < DL.pointerSizeInBits then
      .ok (SIdx.signExtend (DL.pointerSizeInBits - SIdx.width))
    else SIdx.extract (DL.pointerSizeInBits - 1) 0
  else .ok SIdx

/-- The size of the elements that an index into type `ty` counts. -/
def elemSize (ty : Ty) (V : Value) : BitVec DL.pointerSizeInBits :=
  BitVec.ofNat _ (DL.typeAllocSize (indexedType P ty V))

/-- What a constant index adds: the offset of a struct member, or a scaled
element offset; the index can be sign-extended. -/
def constOffset (ty : Ty) (V : Value) (C : APInt) : BitVec DL.pointerSizeInBits :=
  match ty with
  | .struct s => BitVec.ofNat _ (DL.elementOffset s C.toNat)
  | _ => elemSize DL P ty V * C.bits.signExtend _

/-- Add the scaled element offset of an index that is not constant. -/
def addIndex (ty : Ty) (V : Value) (Offset : SMTExpr Value) : Visit (SMTExpr Value) :=
  match ty with
  -- the assertion on constant field numbers
  | .struct _ => .stop
  | _ => do
    let SIdx ← .ask V
    let SIdx ← .lift (resizeIndex DL SIdx)
    let LocalOffset ← .lift (SIdx.binary .mul (.bvconst ⟨_, elemSize DL P ty V⟩))
    .lift (Offset.binary .add LocalOffset)

/-- The loop of `visitGEPOperator` over the indices, and what follows it; zero
indices are skipped. -/
def visitIndices : Ty → List Value → SMTExpr Value → BitVec DL.pointerSizeInBits →
    Visit (SMTExpr Value)
  | _, [], Offset, ConstOffset =>
    if ConstOffset = 0 then .ret Offset
    else .lift (Offset.binary .add (.bvconst ⟨_, ConstOffset⟩))
  | ty, V :: idx, Offset, ConstOffset =>
    match constantInt? V with
    | some C =>
      if C.toNat = 0 then visitIndices (indexedType P ty V) idx Offset ConstOffset
      else
        visitIndices (indexedType P ty V) idx Offset (ConstOffset + constOffset DL P ty V C)
    | none => do
      let Offset' ← addIndex DL P ty V Offset
      visitIndices (indexedType P ty V) idx Offset' ConstOffset

/-- `visitGEPOperator` -/
def visitGEPOperator (base : Value) (idx : List Value) : Visit (SMTExpr Value) := do
  let Offset ← .ask base
  visitIndices DL P (P.typeOf base) idx Offset 0

/-- `visitBitCastInst`; the operand can be floating point. -/
def visitBitCastInst (i : InstId) (V : Value) : Visit (SMTExpr Value) :=
  if isAnalyzable (P.typeOf V) then .ask V else mkFresh DL P (.inst i)

/-- `visitPtrToIntInst` -/
def visitPtrToIntInst (i : InstId) (V : Value) : Visit (SMTExpr Value) := do
  let E ← .ask V
  let PtrSize ← getBitWidth DL P V
  let IntSize ← getBitWidth DL P (.inst i)
  if IntSize > PtrSize then return E.zeroExtend (IntSize - PtrSize)
  else if IntSize < PtrSize then .lift (E.extract (IntSize - 1) 0)
  else return E

/-- `visitConstant` -/
def visitConstant (V : Value) : Visit (SMTExpr Value) :=
  match V with
  | .constInt c => .ret (.bvconst c)
  | .null _ => do
    let w ← getBitWidth DL P V
    return .bvconst ⟨w, 0⟩
  | .constExpr c =>
    match P.const c with
    | .gep base idx _ => visitGEPOperator DL P base idx
    | _ => mkFresh DL P V
  | _ => mkFresh DL P V

/-- `visit`: the dispatch on the opcode of an instruction. -/
def visit (i : InstId) : Visit (SMTExpr Value) :=
  match (P.inst i).op with
  | .cast .trunc V => visitTruncInst DL P i V
  | .cast .zext V => visitZExtInst DL P i V
  | .cast .sext V => visitSExtInst DL P i V
  | .cast .bitcast V => visitBitCastInst DL P i V
  | .cast .ptrtoint V => visitPtrToIntInst DL P i V
  | .binary op lhs rhs => visitBinaryOperator op lhs rhs
  | .icmp pred lhs rhs => visitICmpInst pred lhs rhs
  | .select cond ifTrue ifFalse => visitSelectInst cond ifTrue ifFalse
  | .extractValue agg idx => visitExtractValueInst DL P i agg idx
  | .gep base idx => visitGEPOperator DL P base idx
  | _ => visitInstruction DL P intrange i

/-- `analyze` -/
def analyze (V : Value) : Visit (SMTExpr Value) :=
  if isAnalyzable (P.typeOf V) then
    match V with
    | .inst i => visit DL P intrange i
    | V => if V.isConstant then visitConstant DL P V else mkFresh DL P V
  else .stop

/-- `ValueGen::get`, with the table `Cache` and the assumed formulas as state. -/
def get (fuel : ℕ) (V : Value) :
    Memo.State Value (SMTExpr Value) (Term Value 1) →
      Except Stop (SMTExpr Value × Memo.State Value (SMTExpr Value) (Term Value 1)) :=
  Memo.get (analyze DL P intrange) (fun _ => true) fuel V

/-- `E` is the term that `ValueGen::get` returns for `V`. -/
def TermOf (V : Value) (E : SMTExpr Value) : Prop := Memo.Value (analyze DL P intrange) V E

end Visitor

end ValueGen

end Kint
