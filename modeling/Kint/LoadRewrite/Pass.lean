import Kint.LLVM.SSA

/-!
# `LoadRewrite`

`LoadRewrite::hoist` inserts a volatile load right after the definition of the base pointer of a
load, and rewrites the uses of all loads of the same cell.  It scans every block: a load that
follows a store to the cell, or the inserted load, in its own block is replaced by the stored
value, or by the inserted load; and the last such value of a block is what `SSAUpdater` is told
to be available at its end.  The uses of the remaining loads are left to
`SSAUpdater::RewriteUse`.

The rewritten program is given by the original one, the place of the inserted load (`items`),
the current operand for every original one (`subst`) and the values that are available at the
ends of blocks.  `ScalarEvolution` is a parameter: `scev` is the expression for the pointer
operand of a load or store.

## The transcription

* `target`: the conditions under which `hoist` does anything: the load has uses, and its address
  is a base pointer with a constant offset (`extractPointerBaseAndOffset`).
* `loadBlock`, `insertAfter`, `items`: where the new load comes.
* `storeOf`, `isLoadOf`: the two questions of the scan about an instruction.
* `scanItem`, `scanBlock`, `scanBlocks`: the loops.
* `replaceAllUsesWith`: an operand that was the load becomes the value, including those that
  were put in its place before.
* `hoist`: the function.
-/

namespace Kint.LoadRewrite

/-- `SCEV`, as far as the pass looks into it. -/
inductive SCEV
  | unknown (V : Value)
  /-- The sum of a constant and an unknown. -/
  | addConstant (c : APInt) (V : Value)
  | other (n : ℕ)
  deriving DecidableEq

/-- An instruction of the rewritten program. -/
inductive Item
  | inst (i : InstId)
  /-- The inserted load. -/
  | loadV
  deriving DecidableEq

/-- An operand of the rewritten program. -/
inductive Source
  | value (V : Value)
  | loadV
  deriving DecidableEq

/-- What a call of `hoist` is about: the function, its entry block, the address and
the type of the loads, and base and offset of the address. -/
structure Target where
  F : FuncId
  entry : BlockId
  S : SCEV
  T : Ty
  BaseV : Value
  Offset : Option APInt

section Pass

variable (P : Program) (scev : InstId → SCEV)

/-- `isPointerTy` -/
def isPointerTy : Ty → Bool
  | .ptr _ => true
  | _ => false

/-- `extractPointerBaseAndOffset` -/
def extractPointerBaseAndOffset (S : SCEV) : Option (Value × Option APInt) :=
  match S with
  -- p + 0
  | .unknown V => if isPointerTy (P.typeOf V) then some (V, none) else none
  -- p + offset
  | .addConstant c V => if isPointerTy (P.typeOf V) then some (V, some c) else none
  | .other _ => none

/-- `use_empty` -/
def useEmpty (F : FuncId) (I : InstId) : Bool :=
  (P.instsOf F).all fun i => !(P.inst i).op.operands.contains (.inst I)

/-- What `hoist` does before it rewrites anything; `none` where it returns false. -/
def target (I : InstId) : Option Target :=
  let F := (P.block (P.inst I).parent).parent
  if useEmpty P F I then none
  else do
    let (BaseV, Offset) ← extractPointerBaseAndOffset P (scev I)
    let entry ← (P.func F).blocks.head?
    return ⟨F, entry, scev I, (P.inst I).ty, BaseV, Offset⟩

variable (H : Target)

/-! ## The inserted load -/

/-- The phi nodes of a block. -/
def phis (BB : BlockId) : List InstId :=
  (P.block BB).insts.takeWhile fun i => (P.inst i).op.isPhi

/-- The instructions after the phi nodes. -/
def body (BB : BlockId) : List InstId :=
  (P.block BB).insts.dropWhile fun i => (P.inst i).op.isPhi

/-- The block of the inserted load: that of the base pointer, if it is an
instruction, or else the entry block. -/
def loadBlock : BlockId :=
  match H.BaseV with
  | .inst b => (P.inst b).parent
  | _ => H.entry

/-- Insert the load after `b`. -/
def insertAfter (b : InstId) : List InstId → List Item
  | [] => []
  | i :: is =>
    if i = b then .inst i :: .loadV :: is.map .inst else .inst i :: insertAfter b is

/-- The rewritten block after its phi nodes, which the inserted load skips. -/
def bodyItems (BB : BlockId) : List Item :=
  if BB = loadBlock P H then
    match H.BaseV with
    | .inst b =>
      if b ∈ body P BB then insertAfter b (body P BB)
      else .loadV :: (body P BB).map .inst
    | _ => .loadV :: (body P BB).map .inst
  else (body P BB).map .inst

/-- The instructions of the rewritten block. -/
def items (BB : BlockId) : List Item := (phis P BB).map .inst ++ bodyItems P H BB

/-! ## The scan -/

/-- The value operand of a store of the type to the address. -/
def storeOf (i : InstId) : Option Value :=
  match (P.inst i).op with
  | .store value _ => if P.typeOf value = H.T ∧ scev i = H.S then some value else none
  | _ => none

/-- A load of the type from the address that is not volatile. -/
def isLoadOf (i : InstId) : Bool :=
  match (P.inst i).op with
  | .load _ false => (P.inst i).ty = H.T && scev i = H.S
  | _ => false

/-- The state of the scan: the value of the cell, if it is known in the current
block, and the current operands. -/
structure Scan where
  V : Option Source
  subst : Value → Source

/-- `replaceAllUsesWith` -/
def replaceAllUsesWith (subst : Value → Source) (I : InstId) (V : Source) : Value → Source :=
  fun U => if subst U = .value (.inst I) then V else subst U

/-- One round of the inner loop. -/
def scanItem (st : Scan) : Item → Scan
  | .inst i =>
    match storeOf P scev H i with
    | some StoreV => { st with V := some (st.subst StoreV) }
    | none =>
      match st.V with
      | none => st
      | some V =>
        if isLoadOf P scev H i then { st with subst := replaceAllUsesWith st.subst i V }
        else st
  | .loadV =>
    match st.V with
    | none => { st with V := some .loadV }
    -- it is volatile
    | some _ => st

/-- The inner loop. -/
def scanBlock (BB : BlockId) (subst : Value → Source) : Scan :=
  (items P H BB).foldl (scanItem P scev H) ⟨none, subst⟩

/-- The outer loop: the operands in the end, and what is available at the ends of
blocks. -/
def scanBlocks : List BlockId → (Value → Source) → (Value → Source) × List (BlockId × Source)
  | [], subst => (subst, [])
  | BB :: BBs, subst =>
    let st := scanBlock P scev H BB subst
    let (subst', available) := scanBlocks BBs st.subst
    (subst', (st.V.map fun V => (BB, V)).toList ++ available)

/-- `hoist` of a load; `none` where it returns false. -/
def hoist (I : InstId) : Option (Target × (Value → Source) × List (BlockId × Source)) :=
  (target P scev I).map fun H => (H, scanBlocks P scev H (P.func H.F).blocks .value)

end Pass

end Kint.LoadRewrite
