import Kint.IntRewrite.Insert
import Kint.IntRewrite.Pass

/-!
# What `IntRewrite` checks

For an operation the pass builds a condition over its operands.  The condition is true just when
the operation overflows, is undefined, or has an index that the comparison refuses, on the
current values of the operands (`checkOf_exact`).

## What a bug is

* `HasBug`: for an operation on two numbers.  An addition, subtraction or multiplication
  overflows, as a signed or as an unsigned one; a division is by zero, or the quotient of the
  minimum by `-1`; a shift is by the width or more.
* `Buggy`: for an instruction.  An address computation is said to have a bug when an index is
  above what the comparison compares it with.  This is not the same as an index out of bounds:
  `buggy_gep_iff` says when it is.

## The condition

`checkOf` is the condition that is built for an instruction, if one is; `checkOf_typed` that it
is a condition over the operands of the instruction and constants, and `checkOf_exact` that it
is true just when the instruction has a bug.

## The points

The second part is about where the condition is passed.  For a deferred check these are the ends
of blocks that the block of the operation dominates (`DeferPoint`,
`insertOverflowCheck_points`), which is what is needed for the operands to be available there.
-/

namespace Kint.IntRewrite

open Iteration Memo SMT PathGen ValueGen

/-- The operation of the intrinsic for an addition, a subtraction or a multiplication. -/
def intrinsicOp (op : BinaryOp) (hasNSW : Bool) : OverflowOp :=
  match op, hasNSW with
  | .sub, true => .ssub
  | .sub, false => .usub
  | .mul, true => .smul
  | .mul, false => .umul
  | _, true => .sadd
  | _, false => .uadd

section Conditions

variable (C : Config) (P : Program)

/-- The condition that is checked for an instruction, if one is. -/
def checkOf (I : InstId) : Option Built :=
  match (P.inst I).op, (P.inst I).ty with
  | .binary op L R, .int w =>
    match op with
    | .add | .sub | .mul =>
      if isPtrToInt P L || isPtrToInt P R then none
      else some (.overflow (intrinsicOp op (C.hasNoSignedWrap I)) 1 (.value L) (.value R))
    | .sdiv | .udiv => some (Rewrite.divCondition op L R w)
    | .shl | .lshr | .ashr => some (.icmp .uge (.value R) (.getInt (.ofNat w w)))
    | _ => none
  | .gep .., _ =>
    match IntRewrite.insertArrayCheck P I with
    | .ok V => V
    | .error _ => none
  | _, _ => none

/-- The addition, subtraction or multiplication overflows, as a signed one if it has the flag
`nsw` and else as an unsigned one; any other operation is undefined. -/
def HasBug (op : BinaryOp) (hasNSW : Bool) {w : ℕ} (x y : BitVec w) : Prop :=
  match op with
  | .add | .sub | .mul => (intrinsicOp op hasNSW).overflow x y = true
  | _ => op.eval x y = none

/-- When the operands have the values `v`, the operation has a bug; an address computation
has one when the index of an array step is, as an unsigned number, above the number of
elements, where that is `INT_MAX` for zero or one element and loses the bits that the type of
the index does not have. -/
def Buggy (v : Value → Option APInt) (I : InstId) : Prop :=
  match (P.inst I).op with
  | .binary op L R => ∃ (w : ℕ) (x y : BitVec w), v L = some ⟨w, x⟩ ∧ v R = some ⟨w, y⟩ ∧
    HasBug op (C.hasNoSignedWrap I) x y
  | .gep .. => ∃ s ∈ gepSteps P I, ∃ n elem x, s.1 = .array n elem ∧ v s.2 = some x ∧
    upperBound n % 2 ^ x.width < x.toNat
  | _ => False

end Conditions

section Facts

variable {DL : DataLayout} {C : Config} {P : Program} {V L R : Value} {w : ℕ} {I : InstId}
  {b : Built} {op : BinaryOp} {σ : Assignment Value} {steps : List GepStep} {W W' : Option Built}

/-! ## Array checks -/

/-- The loop over the array steps builds a typed condition over the indices. What the condition is
over is a parameter `S`; the loop adds only the indices of its steps and constants. -/
theorem arrayChecks_typed (hP : Verified P) {S : Value → Prop}
    (hS : ∀ s ∈ steps, S s.2) (hconst : ∀ c, S (.constInt c))
    (hW : ∀ b ∈ W, Typed DL P b 1 ∧ Over S b) (h : arrayChecks P W steps = .ok W') :
    ∀ b ∈ W', Typed DL P b 1 ∧ Over S b := by
  induction steps generalizing W with
  | nil =>
    obtain rfl := Except.ok.inj h
    exact hW
  | cons s steps ih =>
    obtain ⟨T, Idx⟩ := s
    have hrest : ∀ s ∈ steps, S s.2 := fun s hs => hS s (List.mem_cons_of_mem _ hs)
    cases T with
    | array n elem =>
      rw [arrayChecks] at h
      cases hty : P.typeOf Idx with
      | int w =>
        simp only [hty] at h
        refine ih hrest ?_ h
        have hcheck : Typed DL P (.icmp .ugt (.value Idx) (.getInt (.ofNat w (upperBound n)))) 1 :=
          ⟨rfl, w, hP.hasWidth hty, hasWidth_constInt _⟩
        have hover : Over S (.icmp .ugt (.value Idx) (.getInt (.ofNat w (upperBound n)))) :=
          ⟨hS _ List.mem_cons_self, hconst _⟩
        rintro b hb
        obtain rfl := Option.some.inj hb
        cases W with
        | none => exact ⟨hcheck, hover⟩
        | some V =>
          obtain ⟨hV, hVover⟩ := hW V rfl
          exact ⟨⟨.inr rfl, hV, hcheck⟩, hVover, hover⟩
      | _ =>
        simp only [hty] at h
        cases h
    | _ => exact ih hrest hW h

/-! ## All conditions -/

theorem gepStepsFrom_mem {T : Option Ty} {idx : List Value} {s : GepStep}
    (h : s ∈ gepStepsFrom P T idx) : s.2 ∈ idx := by
  induction idx generalizing T with
  | nil => cases T <;> cases h
  | cons V Vs ih =>
    cases T with
    | none => cases h
    | some T =>
      rcases List.mem_cons.mp h with rfl | h
      · exact List.mem_cons_self
      · exact List.mem_cons_of_mem _ (ih h)

/-- The operands of the steps are operands of the instruction. -/
theorem gepSteps_mem {s : GepStep} (h : s ∈ gepSteps P I) : s.2 ∈ (P.inst I).op.operands := by
  unfold gepSteps at h
  split at h
  · rename_i base idx hop
    rw [hop]
    exact List.mem_cons_of_mem _ (gepStepsFrom_mem h)
  · cases h

/-- A condition is typed, and its values are operands of the instruction or constants. Each case is
the condition of one kind of operation, with the operands as the program verifier knows their types.
-/
theorem checkOf_typed (hP : Verified P) (DL : DataLayout) (h : checkOf C P I = some b) :
    Typed DL P b 1 ∧
    Over (fun V => V ∈ (P.inst I).op.operands ∨ ∃ c, V = .constInt c) b := by
  unfold checkOf at h
  split at h
  · rename_i op L R w hop hty
    obtain ⟨hL, hR⟩ := hP.binary I op L R hop
    rw [hty] at hL hR
    have hwL : HasWidth DL P L w := hP.hasWidth hL
    have hwR : HasWidth DL P R w := hP.hasWidth hR
    have hwC : ∀ x : BitVec w, HasWidth DL P (.constInt ⟨w, x⟩) w := hasWidth_constInt
    have hmemL : L ∈ (P.inst I).op.operands := by simp [hop, Opcode.operands]
    have hmemR : R ∈ (P.inst I).op.operands := by simp [hop, Opcode.operands]
    have hcompare : ∀ V c, HasWidth DL P V w → V ∈ (P.inst I).op.operands → ∀ pred,
        Typed DL P (.icmp pred (.value V) (.getInt ⟨w, c⟩)) 1 ∧
          Over (fun V => V ∈ (P.inst I).op.operands ∨ ∃ c, V = .constInt c)
            (.icmp pred (.value V) (.getInt ⟨w, c⟩)) :=
      fun V c hV hmem pred => ⟨⟨rfl, w, hV, hwC c⟩, .inl hmem, .inr ⟨_, rfl⟩⟩
    cases op with
    | add | sub | mul =>
      obtain ⟨-, h⟩ := Option.ite_none_left_eq_some.mp h
      obtain rfl := Option.some.inj h
      exact ⟨⟨rfl, rfl, w, hwL, hwR⟩, .inl hmemL, .inl hmemR⟩
    | sdiv =>
      obtain rfl := Option.some.inj h
      obtain ⟨hzero, hzero'⟩ := hcompare R 0#w hwR hmemR .eq
      obtain ⟨hmin, hmin'⟩ := hcompare L (.intMin w) hwL hmemL .eq
      obtain ⟨hones, hones'⟩ := hcompare R (.allOnes w) hwR hmemR .eq
      exact ⟨⟨.inr rfl, hzero, .inl rfl, hmin, hones⟩, hzero', hmin', hones'⟩
    | udiv =>
      obtain rfl := Option.some.inj h
      exact hcompare R _ hwR hmemR .eq
    | shl | lshr | ashr =>
      obtain rfl := Option.some.inj h
      exact hcompare R _ hwR hmemR .uge
    | _ => cases h
  · cases hV : IntRewrite.insertArrayCheck P I with
    | ok V =>
      rw [hV] at h
      exact arrayChecks_typed hP (fun s hs => .inl (gepSteps_mem hs)) (fun c => .inr ⟨c, rfl⟩)
        (fun _ hb => by cases hb) hV b h
    | error =>
      rw [hV] at h
      cases h
  · cases h

variable (C P) in
/-- The condition is the one of the instruction. -/
def IsCheck (I : InstId) (b : Built) : Prop := checkOf C P I = some b

/-- The conditions of the pass are typed, and are over operands and constants. -/
theorem checks_isCheck (hP : Verified P) (DL : DataLayout) : Checks DL P (IsCheck C P) :=
  fun _ _ h => checkOf_typed hP DL h

/-! ## What the conditions say -/

section Bugs

variable (hasNSW : Bool) (x y : BitVec w)

theorem isNull_iff : ICmpPredicate.eval .eq y 0#w = true ↔ HasBug .udiv hasNSW x y := by
  simp [ICmpPredicate.eval, HasBug, BinaryOp.eval, BitVec.toNat_eq]

theorem division_iff : (ICmpPredicate.eval .eq y 0#w || (ICmpPredicate.eval .eq x (.intMin w) &&
    ICmpPredicate.eval .eq y (.allOnes w))) = true ↔ HasBug .sdiv hasNSW x y := by
  have hones : BitVec.allOnes w = -1#w := BitVec.neg_one_eq_allOnes.symm
  have hnone : HasBug .sdiv hasNSW x y ↔ y = 0#w ∨ SDivOverflows x y := by
    unfold HasBug BinaryOp.eval
    exact ite_eq_left_iff.trans (by simp [or_iff_not_imp_left])
  rw [hnone, SDivOverflows, ← hones]
  simp only [ICmpPredicate.eval, Bool.or_eq_true, Bool.and_eq_true, decide_eq_true_eq,
    BitVec.toNat_inj]

theorem shift_iff (h : op = .shl ∨ op = .lshr ∨ op = .ashr) :
    ICmpPredicate.eval .uge y (BitVec.ofNat w w) = true ↔ HasBug op hasNSW x y := by
  have hw : w % 2 ^ w = w := Nat.mod_eq_of_lt Nat.lt_two_pow_self
  rcases h with rfl | rfl | rfl <;>
    simp [ICmpPredicate.eval, HasBug, BinaryOp.eval, hw]

end Bugs

/-- Where the numbers of elements fit the widths of the indices, an address computation has a
bug just when an index of an array step is negative or greater than the number of elements. -/
theorem buggy_gep_iff {v : Value → Option APInt} {base : Value} {idx : List Value}
    (hop : (P.inst I).op = .gep base idx)
    (hfits : ∀ s ∈ gepSteps P I, ∀ n elem x, s.1 = .array n elem → v s.2 = some x →
      FitsIndex n x.width) :
    Buggy C P v I ↔ ∃ s ∈ gepSteps P I, ∃ n elem x, s.1 = .array n elem ∧ v s.2 = some x ∧
      OutOfBounds n x := by
  unfold Buggy
  rw [hop]
  refine exists_congr fun s => and_congr_right fun hs => exists_congr fun n => exists_congr
    fun elem => exists_congr fun x => and_congr_right fun hT => and_congr_right fun hx => ?_
  rw [← (hfits s hs n elem x hT hx).comparison_iff, comparison_eq_true]

/-- The condition is true just when the operation has a bug. There is one case for each kind of
check; the value is computed by the machine from the current operands. -/
theorem checkOf_exact (hP : Verified P) (DL : DataLayout) (h : checkOf C P I = some b)
    (σ : Assignment Value) :
    ∃ c : Bool, b.eval (machineEnv DL P σ) = some (.ofBool c) ∧
      (c = true ↔ Buggy C P (current DL P σ) I) := by
  unfold checkOf at h
  split at h
  · rename_i op L R w hop hty
    obtain ⟨hL, hR⟩ := hP.binary I op L R hop
    rw [hty] at hL hR
    obtain ⟨x, hx⟩ : ∃ x : BitVec w, current DL P σ L = some ⟨w, x⟩ := hP.hasWidth hL σ
    obtain ⟨y, hy⟩ : ∃ y : BitVec w, current DL P σ R = some ⟨w, y⟩ := hP.hasWidth hR σ
    have hevalL : (Built.value L).eval (machineEnv DL P σ) = some ⟨w, x⟩ := hx
    have hevalR : (Built.value R).eval (machineEnv DL P σ) = some ⟨w, y⟩ := hy
    have hvalues : ∀ Bug : ∀ w, BitVec w → BitVec w → Prop,
        (∃ w x y, current DL P σ L = some ⟨w, x⟩ ∧ current DL P σ R = some ⟨w, y⟩ ∧ Bug w x y) ↔
          Bug w x y := by
      refine fun Bug => ⟨?_, fun hbug => ⟨w, x, y, hx, hy, hbug⟩⟩
      rintro ⟨w', x', y', hx', hy', hbug⟩
      obtain ⟨rfl, rfl⟩ := APInt.mk.inj (Option.some.inj (hx'.symm.trans hx))
      obtain ⟨-, rfl⟩ := APInt.mk.inj (Option.some.inj (hy'.symm.trans hy))
      exact hbug
    have hcompare : ∀ V z c, (Built.value V).eval (machineEnv DL P σ) = some ⟨w, z⟩ → ∀ pred,
        (Built.icmp pred (.value V) (.getInt ⟨w, c⟩)).eval (machineEnv DL P σ) =
          some (.ofBool (pred.eval z c)) :=
      fun V z c hz pred => Built.eval_icmp pred hz (Built.eval_getInt _ _)
    have hbuggy : Buggy C P (current DL P σ) I ↔ HasBug op (C.hasNoSignedWrap I) x y := by
      unfold Buggy
      rw [hop]
      exact hvalues fun w x y => HasBug op (C.hasNoSignedWrap I) x y
    rw [hbuggy]
    cases op with
    | add | sub | mul =>
      obtain ⟨-, h⟩ := Option.ite_none_left_eq_some.mp h
      obtain rfl := Option.some.inj h
      exact ⟨_, Built.eval_overflow _ hevalL hevalR, Iff.rfl⟩
    | sdiv =>
      obtain rfl := Option.some.inj h
      exact ⟨_, Built.eval_or (hcompare R y _ hevalR .eq) (Built.eval_and
        (hcompare L x _ hevalL .eq) (hcompare R y _ hevalR .eq)), division_iff _ x y⟩
    | udiv =>
      obtain rfl := Option.some.inj h
      exact ⟨_, hcompare R y _ hevalR .eq, isNull_iff _ x y⟩
    | shl | lshr | ashr =>
      obtain rfl := Option.some.inj h
      exact ⟨_, hcompare R y _ hevalR .uge, shift_iff _ x y (by simp)⟩
    | _ => cases h
  · rename_i base idx hop
    cases hV : IntRewrite.insertArrayCheck P I with
    | ok V =>
      rw [hV] at h
      obtain rfl : V = some b := h
      have hnone : Evaluates (machineEnv DL P σ) none false := rfl
      have hdef : Defined (machineEnv DL P σ) (gepSteps P I) := by
        intro s hs n elem hT
        obtain ⟨w, hty⟩ := integerIndices_of_ok hV s hs n elem hT
        obtain ⟨x, hx⟩ := hP.hasWidth hty σ
        exact Option.isSome_iff_exists.mpr ⟨_, hx⟩
      have heval := arrayChecks_evaluates hdef hnone hV
      rw [Bool.false_or] at heval
      refine ⟨_, heval, ?_⟩
      unfold Buggy
      rw [hop, List.any_eq_true]
      refine exists_congr fun s => and_congr_right fun _ => fires_eq_true.trans ?_
      simp only [comparison_eq_true]
      rfl
    | error =>
      rw [hV] at h
      cases h
  · cases h

end Facts

/-- What is relied on of the analyses: a use list has instructions that are in their blocks,
the tree knows which blocks dominate which, and a set has its elements. -/
structure Config.Sound (C : Config) (DL : DataLayout) (P : Program) (entry : BlockId) : Prop
    extends Compiler.Sound C.toCompiler DL P where
  users : ∀ Q E, ∀ U ∈ C.useList Q E, U ∈ (Q.block (Q.inst U).parent).insts
  dominates : ∀ D BB, C.dominates D BB = true → Dominates P entry D BB
  elements : ∀ S, ∀ b ∈ C.elements S, b ∈ S

/-! ## Where deferred checks are -/

section Points

variable {P Q : Program} {useList : InstId → List InstId} {isObservable : InstId → Bool}
  {dominates : BlockId → BlockId → Bool} {BB : BlockId}

variable (Q useList dominates) in
/-- A block with a deferred check: it is another block, which is dominated, with a user of
some value. -/
def DeferPoint (BB b : BlockId) : Prop :=
  b ≠ BB ∧ dominates BB b = true ∧ ∃ E, ∃ U ∈ useList E, (Q.inst U).parent = b

/-- The loop over the users collects blocks that are dominated. -/
theorem visitUses_points {uses : List InstId} {s s' : DeferState}
    (huses : ∀ U ∈ uses, ∃ E, U ∈ useList E)
    (hs : ∀ b ∈ s.ObPoints, DeferPoint Q useList dominates BB b)
    (h : visitUses Q useList isObservable dominates BB uses s = some s') :
    ∀ b ∈ s'.ObPoints, DeferPoint Q useList dominates BB b := by
  fun_induction visitUses Q useList isObservable dominates BB uses s with
  | case1 s =>
    obtain rfl := Option.some.inj h
    exact hs
  | case2 => cases h
  | case3 U uses s hobs ObBB hdom ih =>
    obtain ⟨hne, hdom⟩ := not_or.mp hdom
    obtain ⟨E, hU⟩ := huses U List.mem_cons_self
    refine ih (fun V hV => huses V (List.mem_cons_of_mem _ hV)) (fun b hb => ?_) h
    rcases Finset.mem_insert.mp hb with rfl | hb
    · exact ⟨hne, eq_true_of_ne_false hdom, E, U, hU, rfl⟩
    · exact hs b hb
  | case4 U uses s hobs hempty ih | case5 U uses s hobs hempty hvisited ih
  | case6 U uses s hobs hempty hvisited ih =>
    exact ih (fun V hV => huses V (List.mem_cons_of_mem _ hV)) hs h

/-- The loop over the worklist collects blocks that are dominated. -/
theorem deferLoop_points {fuel : ℕ} {s : DeferState} {ObPoints : Finset BlockId}
    (hs : ∀ b ∈ s.ObPoints, DeferPoint Q useList dominates BB b)
    (h : deferLoop Q useList isObservable dominates BB fuel s = .ok (some ObPoints)) :
    ∀ b ∈ ObPoints, DeferPoint Q useList dominates BB b := by
  induction fuel generalizing s with
  | zero => cases h
  | succ fuel ih =>
    rw [deferLoop] at h
    split at h
    · obtain rfl := Option.some.inj (Except.ok.inj h)
      exact hs
    · rename_i E Worklist _
      split at h
      · cases Except.ok.inj h
      · rename_i s' hvisit
        have hs' : ∀ b ∈ s'.ObPoints, DeferPoint Q useList dominates BB b :=
          visitUses_points (fun U hU => ⟨E, hU⟩) (by exact hs) hvisit
        exact ih hs' h

/-- The points of an overflow check: the operation itself, or the ends of other blocks. The
traversal collects a block only when one of its instructions observes the result, and the block of
the operation dominates it. -/
theorem insertOverflowCheck_points {WrapOpt : Bool} {hasNoSignedWrap : InstId → Bool}
    {elements : Finset BlockId → List BlockId} (helements : ∀ S, ∀ b ∈ elements S, b ∈ S)
    {fuel : ℕ} {I : InstId} {c : OverflowCheck}
    (h : insertOverflowCheck Q useList isObservable dominates WrapOpt hasNoSignedWrap elements
      fuel I = .ok c) : ∀ p ∈ c.points, p = .before I ∨
        ∃ b, p = .terminator b ∧ DeferPoint Q useList dominates (Q.inst I).parent b := by
  intro p hp
  unfold insertOverflowCheck at h
  split at h
  · split at h
    · obtain rfl := Except.ok.inj h
      cases hp
    · simp only at h
      split at h
      · obtain rfl := Except.ok.inj h
        exact .inl (List.mem_singleton.mp hp)
      · obtain ⟨out, hout, h⟩ := bind_eq_ok.mp h
        cases out with
        | none =>
          obtain rfl := Except.ok.inj h
          exact .inl (List.mem_singleton.mp hp)
        | some ObPoints =>
          obtain rfl := Except.ok.inj h
          obtain ⟨b, hb, rfl⟩ := List.mem_map.mp hp
          exact .inr ⟨b, rfl, deferLoop_points (fun b hb => absurd hb (Finset.notMem_empty b)) hout
            b (helements _ b hb)⟩
  · cases h

/-- With the flag `nsw`, and without the option `-fwrapv`, the check is at the operation. -/
theorem insertOverflowCheck_eager {WrapOpt : Bool} {hasNoSignedWrap : InstId → Bool}
    {elements : Finset BlockId → List BlockId} {fuel : ℕ} {I : InstId} {c : OverflowCheck}
    {op : BinaryOp} {L R : Value} (hop : (Q.inst I).op = .binary op L R)
    (hpointer : (isPtrToInt Q L || isPtrToInt Q R) = false)
    (heager : (hasNoSignedWrap I && !WrapOpt) = true)
    (h : insertOverflowCheck Q useList isObservable dominates WrapOpt hasNoSignedWrap elements
      fuel I = .ok c) : c.points = [.before I] := by
  simp only [insertOverflowCheck, hop, hpointer, heager, Bool.false_eq_true, if_false,
    if_true] at h
  obtain rfl := Except.ok.inj h
  rfl

end Points

end Kint.IntRewrite
