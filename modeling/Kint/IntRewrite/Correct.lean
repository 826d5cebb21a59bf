import Kint.IntRewrite.Condition
import Kint.LLVM.Reference

/-!
# `IntRewrite` is correct

The instrumented function does what the function does (`runOnFunction_preserves`), and each call
of `int.sat` passes a condition that is true just when the operation that it is about overflows,
is undefined, or has an index that the comparison refuses, on the values that its operands hold
there (`calls_exact`).  This is so for the deferred checks, too: in SSA form the operands still
hold the values that the operation was computed from.

## The loop of the pass

The pass goes through the instructions of the function as it was before the pass; what it
inserts it does not come to.  `Visits` says what visiting one instruction does, with the
conditions for the rest of the function kept (`Valid`, from `Kint.IntRewrite.Insert`).  There is
one lemma for the checks that are passed in front of the instruction (`visits_insertCheck`) and
one for those of overflow (`visits_insertOverflowCalls`), and the loop is the induction
`visits_run`.

The condition of an operation is that of the function before the pass, although it is computed
from the function as it is at the time: the lemmas with `_extends` say that the old instructions
look the same.

## Main results

* `runOnFunction_spec`: what the pass makes of a function.
* `runOnFunction_preserves`: every run of the instrumented function is one of the function,
  without the new instructions, and every run of the function comes from one of the instrumented
  function.
* `calls_exact`: the truth of the conditions when a run comes to the calls.

## The example

`sumProgram` has an addition whose check is deferred to the end of another block, and a division
that is checked where it stands.
-/

namespace Kint.IntRewrite

open Iteration Memo SMT PathGen ValueGen

section Facts

variable {C : Config} {DL : DataLayout} {P Q : Program} {Backedges : List (BlockId × BlockId)}
  {entry : BlockId} {F : FuncId} {c : IntSatCall} {s s' : Rewrite} {I : InstId} {V : Value}
  {check : Built} {Bug : String} {fuel : ℕ}

/-! ## The loop -/

theorem isPtrToInt_extends (h : Extends P Q) (hV : V.Old P) : isPtrToInt Q V = isPtrToInt P V := by
  unfold isPtrToInt
  cases V with
  | inst i => simp only [Program.opcode?, h.inst i (hV i rfl)]
  | _ => rfl

theorem gepStepsFrom_extends (h : Extends P Q) (T : Option Ty) (idx : List Value) :
    gepStepsFrom Q T idx = gepStepsFrom P T idx := by
  have hty : ∀ T V, Q.typeAtIndex T V = P.typeAtIndex T V := by
    intro T V
    unfold Program.typeAtIndex Program.struct
    rw [h.structs]
  induction idx generalizing T with
  | nil => cases T <;> rfl
  | cons V Vs ih =>
    cases T with
    | none => rfl
    | some T => simp only [gepStepsFrom, hty, ih]

/-- The comparisons of an address computation stay. -/
theorem arrayChecks_extends (h : Extends P Q) {W : Option Built} {steps : List GepStep}
    (hsteps : ∀ s ∈ steps, s.2.Old P) : arrayChecks Q W steps = arrayChecks P W steps := by
  induction steps generalizing W with
  | nil => rfl
  | cons s steps ih =>
    obtain ⟨T, Idx⟩ := s
    have hrest := fun {W} => ih (W := W) fun s hs => hsteps s (List.mem_cons_of_mem _ hs)
    cases T with
    | array n elem =>
      simp only [arrayChecks, h.typeOf (hsteps _ List.mem_cons_self), hrest]
    | _ => exact hrest

/-- The condition of an address computation stays. -/
theorem insertArrayCheck_extends (hP : Closed P) (h : Extends P Q) (hI : I < P.insts.length) :
    IntRewrite.insertArrayCheck Q I = IntRewrite.insertArrayCheck P I := by
  have hsteps : gepSteps Q I = gepSteps P I := by
    unfold gepSteps
    rw [h.inst I hI]
    split
    · rename_i base idx hop
      have hbase : base.Old P := hP.operand_old (i := I) (by rw [hop]; exact List.mem_cons_self)
      rw [h.typeOf hbase, gepStepsFrom_extends h]
    · rfl
  unfold IntRewrite.insertArrayCheck
  rw [hsteps]
  exact arrayChecks_extends h fun s hs => hP.operand_old (gepSteps_mem hs)

variable (C P I) in
/-- The check of the instruction may be made at the end of other blocks. -/
def isDeferred : Bool :=
  match (P.inst I).op with
  | .binary .add _ _ | .binary .sub _ _ | .binary .mul _ _ => !C.hasNoSignedWrap I || C.WrapOpt
  | _ => false

section Overflow

variable {op : BinaryOp} {L R : Value} {w : ℕ} (hop : (P.inst I).op = .binary op L R)
  (hkind : op = .add ∨ op = .sub ∨ op = .mul)
include hop hkind

/-- There is no check of a subtraction of pointers. -/
theorem checkOf_pointer (hptr : (isPtrToInt P L || isPtrToInt P R) = true) :
    checkOf C P I = none := by
  unfold checkOf
  rw [hop]
  split
  · rename_i op' L' R' w hop' _
    obtain ⟨rfl, rfl, rfl⟩ := Opcode.binary.inj hop'
    rcases hkind with rfl | rfl | rfl <;> exact if_pos hptr
  · rename_i hop'
    cases hop'
  · rfl

/-- The check of an addition, a subtraction or a multiplication is the overflow bit of its
intrinsic. -/
theorem checkOf_overflow (hty : (P.inst I).ty = .int w)
    (hptr : (isPtrToInt P L || isPtrToInt P R) = false) : checkOf C P I =
      some (.overflow (intrinsicOp op (C.hasNoSignedWrap I)) 1 (.value L) (.value R)) := by
  unfold checkOf
  rw [hop, hty]
  rcases hkind with rfl | rfl | rfl <;> exact if_neg (ne_true_of_eq_false hptr)

/-- A check is not deferred for a signed operation, unless signed operations wrap. -/
theorem isDeferred_eq_false (h : isDeferred C P I = false) :
    (C.hasNoSignedWrap I && !C.WrapOpt) = true := by
  unfold isDeferred at h
  rw [hop] at h
  rcases hkind with rfl | rfl | rfl <;> simpa using h

end Overflow

variable (C I fuel) in
/-- Where the check of an addition, a subtraction or a multiplication is passed. -/
def overflowPoints (Q : Program) : Except Stop (List InstId) := do
  let c ← IntRewrite.insertOverflowCheck Q (C.useList Q) (isObservable C Q) C.dominates C.WrapOpt
    C.hasNoSignedWrap C.elements fuel I
  return c.points.map (·.inst Q)

/-- A check is at the operation or at the ends of blocks that its block dominates. -/
theorem overflowPoints_spec (hC : C.Sound DL P entry) (hentry : entry < P.blocks.length)
    (hext : Extends P Q) (hQ : Closed Q) (hI : I < P.insts.length) {ps : List InstId}
    (h : overflowPoints C I fuel Q = .ok ps) : ∀ IP ∈ ps, IP = I ∨ ∃ b < P.blocks.length,
      IP = (Q.block b).term ∧ b ≠ (P.inst I).parent ∧ Dominates P entry (P.inst I).parent b := by
  intro IP hIP
  obtain ⟨c, hc, hps⟩ := bind_eq_ok.mp h
  obtain rfl := Except.ok.inj hps
  obtain ⟨p, hp, rfl⟩ := List.mem_map.mp hIP
  rcases insertOverflowCheck_points hC.elements hc p hp with
    rfl | ⟨b, rfl, hne, hdom, E, U, hU, rfl⟩
  · exact .inl rfl
  · obtain ⟨-, hb⟩ := lt_of_placed hQ (hext.length_blocks ▸ hentry) (hC.users Q E U hU)
    rw [hext.inst I hI] at hne hdom
    exact .inr ⟨_, hext.length_blocks ▸ hb, rfl, hne, hC.dominates _ _ hdom⟩

/-- What visiting an instruction does. It proceeds as every insertion does, and what is not deferred
is checked in front of the operation itself. -/
structure Visits (C : Config) (DL : DataLayout) (P : Program)
    (Backedges : List (BlockId × BlockId)) (entry : BlockId) (F : FuncId) (I : InstId)
    (s s' : Rewrite) : Prop where
  proceeds : Proceeds C.toCompiler (IsCheck C P) DL P Backedges entry F s s'
  eager : ∀ check, checkOf C P I = some check → isDeferred C P I = false →
    ∃ c ∈ s'.calls, c.about = I ∧ c.point = I

section Visit

variable (hentry : entry < P.blocks.length) (hP : Verified P) (hC : C.Sound DL P entry)
  (hssa : SSAForm P entry F) (hord : OrderedUses P entry) (hI : InsertionPoint P I)
  (hs : Valid C.toCompiler (IsCheck C P) DL P Backedges entry F s)
include hentry hP hC hssa hord hI hs

/-- A check that is made and passed in front of the instruction. -/
theorem visits_insertCheck (hcheck : checkOf C P I = some check)
    (h : insertCheck C.toCompiler fuel check I Bug (fun _ => .ok [I]) s = .ok s') :
    Visits C DL P Backedges entry F I s s' := by
  obtain ⟨hproceeds, Q, ps, -, hps, hcalls⟩ := insertCheck_spec (checks_isCheck hP DL) hentry hP hs
    hC.toSound hssa hord hI hcheck
    (fun Q ps _ _ hps IP hIP => by
      obtain rfl := Except.ok.inj hps
      exact .inl (List.mem_singleton.mp hIP)) h
  obtain rfl := Except.ok.inj hps
  obtain ⟨c, hc, habout, hpoint, -⟩ := hcalls I List.mem_cons_self
  exact ⟨hproceeds, fun _ _ _ => ⟨c, hc, habout, hpoint⟩⟩

/-- A check of overflow, wherever it is passed. Its calls stand in front of the operation or at the
ends of the blocks that the traversal found, and the operands can be used in either place. -/
theorem visits_insertOverflowCalls {op : BinaryOp} {L R : Value} {SID UID : OverflowOp}
    (hop : (P.inst I).op = .binary op L R) (hkind : op = .add ∨ op = .sub ∨ op = .mul)
    (hID : intrinsicOp op (C.hasNoSignedWrap I) = if C.hasNoSignedWrap I then SID else UID)
    (h : s.insertOverflowCalls C fuel I SID UID L R = .ok s') :
    Visits C DL P Backedges entry F I s s' := by
  have hlt := hI.lt hP.toClosed
  have hL : L.Old P := hP.toClosed.operand_old (i := I) (by simp [hop, Opcode.operands])
  have hR : R.Old P := hP.toClosed.operand_old (i := I) (by simp [hop, Opcode.operands])
  have hpointer : ∀ Q, Extends P Q → (isPtrToInt Q L || isPtrToInt Q R) =
      (isPtrToInt P L || isPtrToInt P R) := fun Q hext => by
    rw [isPtrToInt_extends hext hL, isPtrToInt_extends hext hR]
  unfold Rewrite.insertOverflowCalls at h
  rw [hpointer _ hs.later.ext] at h
  have hty : s.prog.typeOf (.inst I) = (P.inst I).ty :=
    congrArg Instruction.ty (hs.later.ext.inst I hlt)
  rw [hty] at h
  split at h
  case isTrue hptr =>
    obtain rfl := Except.ok.inj h
    refine ⟨.refl hs, fun check hcheck => ?_⟩
    rw [checkOf_pointer hop hkind hptr] at hcheck
    cases hcheck
  case isFalse hptr =>
    cases hint : (P.inst I).ty with
    | int w =>
      rw [hint] at h
      simp only at h
      have hcheck := checkOf_overflow hop hkind hint (Bool.eq_false_of_not_eq_true hptr) (C := C)
      rw [hID] at hcheck
      replace h : insertCheck C.toCompiler fuel _ I _ (overflowPoints C I fuel)
        { s with cleared := _ } = .ok s' := h
      have hpoints : ∀ Q ps, Extends P Q → Closed Q → overflowPoints C I fuel Q = .ok ps →
          ∀ IP ∈ ps, _ := fun Q ps hext hQ => overflowPoints_spec hC hentry hext hQ hlt
      have hs' : ∀ cleared, Valid C.toCompiler (IsCheck C P) DL P Backedges entry F
          { s with cleared := cleared } :=
        fun _ => ⟨hs.later, hs.instruments, hs.calls⟩
      obtain ⟨hproceeds, Q, ps, hext, hps, hcalls⟩ :=
        insertCheck_spec (checks_isCheck hP DL) hentry hP (hs' _) hC.toSound hssa hord hI hcheck
          hpoints h
      refine ⟨⟨hproceeds.valid, hproceeds.later, hproceeds.calls⟩, fun _ _ heager => ?_⟩
      obtain ⟨c, hc, hps⟩ := bind_eq_ok.mp hps
      obtain rfl := Except.ok.inj hps
      have hpoints := insertOverflowCheck_eager (by rw [hext.inst I hlt]; exact hop)
        ((hpointer Q hext).trans (Bool.eq_false_of_not_eq_true hptr))
        (isDeferred_eq_false hop hkind heager) hc
      rw [hpoints] at hcalls
      obtain ⟨c, hc, habout, hpoint, -⟩ := hcalls I List.mem_cons_self
      exact ⟨c, hc, habout, hpoint⟩
    | _ =>
      rw [hint] at h
      cases h

/-- What the body of the loop does. Overflow, division, shift and address computation are the cases;
every other instruction leaves the state as it is. -/
theorem visit_spec (h : s.visit C fuel I = .ok s') : Visits C DL P Backedges entry F I s s' := by
  have hlt := hI.lt hP.toClosed
  have hinst := hs.later.ext.inst I hlt
  have hty : s.prog.typeOf (.inst I) = (P.inst I).ty := congrArg Instruction.ty hinst
  -- an instruction for which nothing is inserted
  have hnone : checkOf C P I = none → s' = s → Visits C DL P Backedges entry F I s s' := by
    rintro hnone rfl
    refine ⟨.refl hs, fun check hcheck => ?_⟩
    rw [hnone] at hcheck
    cases hcheck
  unfold Rewrite.visit at h
  rw [hinst] at h
  cases hop : (P.inst I).op with
  | binary op L R =>
    rw [hop] at h
    obtain ⟨hL, hR⟩ := hP.binary I op L R hop
    cases op with
    | add | sub | mul =>
      refine visits_insertOverflowCalls hentry hP hC hssa hord hI hs hop (by simp) ?_ h
      cases C.hasNoSignedWrap I <;> rfl
    | sdiv | udiv =>
      simp only [Rewrite.insertDivCheck, hty] at h
      split at h
      · rename_i w hw
        refine visits_insertCheck hentry hP hC hssa hord hI hs ?_ h
        simp only [checkOf, hop, hw]
      · cases h
    | shl | lshr | ashr =>
      have hR' : s.prog.typeOf R = (P.inst I).ty :=
        (hs.later.ext.typeOf
          (hP.toClosed.operand_old (i := I) (by simp [hop, Opcode.operands]))).trans hR
      simp only [Rewrite.insertShiftCheck, hR'] at h
      split at h
      · rename_i w hw
        refine visits_insertCheck hentry hP hC hssa hord hI hs ?_ h
        simp only [checkOf, hop, hw]
      · cases h
    | _ =>
      refine hnone ?_ (Except.ok.inj h).symm
      unfold checkOf
      rw [hop]
      cases (P.inst I).ty <;> rfl
  | gep base idx =>
    rw [hop] at h
    obtain ⟨W, hW, h⟩ := bind_eq_ok.mp h
    rw [insertArrayCheck_extends hP.toClosed hs.later.ext hlt] at hW
    have hcheck : checkOf C P I = W := by
      unfold checkOf
      rw [hop]
      simp only [hW]
    cases W with
    | none => exact hnone hcheck (Except.ok.inj h).symm
    | some V => exact visits_insertCheck hentry hP hC hssa hord hI hs hcheck h
  | _ =>
    rw [hop] at h
    refine hnone ?_ (Except.ok.inj h).symm
    unfold checkOf
    rw [hop]

end Visit

section Run

variable (hentry : entry < P.blocks.length) (hP : Verified P) (hC : C.Sound DL P entry)
  (hssa : SSAForm P entry F) (hord : OrderedUses P entry)
include hentry hP hC hssa hord

/-- The body of the loop, for an instruction of the function. -/
theorem visits_of_mem (hI : I ∈ P.instsOf F)
    (hs : Valid C.toCompiler (IsCheck C P) DL P Backedges entry F s)
    (h : s.visit C fuel I = .ok s') : Visits C DL P Backedges entry F I s s' := by
  cases hphi : (P.inst I).op.isPhi with
  | false =>
    exact visit_spec hentry hP hC hssa hord (insertionPoint_of_mem hP.toClosed hI hphi) hs h
  | true =>
    -- the loop passes over phi nodes
    obtain ⟨b, hb, hmem⟩ := List.mem_flatMap.mp hI
    have hlt := hP.insts b (hP.blocks F b hb) I hmem
    unfold Rewrite.visit at h
    rw [hs.later.ext.inst I hlt] at h
    cases hop : (P.inst I).op with
    | phi incoming =>
      rw [hop] at h
      obtain rfl := Except.ok.inj h
      refine ⟨.refl hs, fun check hcheck => ?_⟩
      unfold checkOf at hcheck
      rw [hop] at hcheck
      cases hcheck
    | _ =>
      rw [hop] at hphi
      cases hphi

theorem visits_run {is : List InstId} (his : ∀ I ∈ is, I ∈ P.instsOf F)
    (hs : Valid C.toCompiler (IsCheck C P) DL P Backedges entry F s)
    (h : is.foldlM (fun s I => s.visit C fuel I) s = .ok s') :
    Proceeds C.toCompiler (IsCheck C P) DL P Backedges entry F s s' ∧
      ∀ I ∈ is, ∀ check, checkOf C P I = some check →
        isDeferred C P I = false → ∃ c ∈ s'.calls, c.about = I ∧ c.point = I := by
  induction is generalizing s with
  | nil =>
    obtain rfl := Except.ok.inj h
    exact ⟨.refl hs, nofun⟩
  | cons I is ih =>
    rw [List.foldlM_cons] at h
    obtain ⟨s₁, h₁, h⟩ := bind_eq_ok.mp h
    have hvisit := visits_of_mem hentry hP hC hssa hord (his I List.mem_cons_self) hs h₁
    obtain ⟨hrest, hcalls⟩ :=
      ih (fun J hJ => his J (List.mem_cons_of_mem _ hJ)) hvisit.proceeds.valid h
    refine ⟨hvisit.proceeds.trans hrest, fun J hJ check hcheck heager => ?_⟩
    rcases List.mem_cons.mp hJ with rfl | hJ
    · obtain ⟨c, hc, hcall⟩ := hvisit.eager check hcheck heager
      exact ⟨c, hrest.calls c hc, hcall⟩
    · exact hcalls J hJ check hcheck heager

variable (DL Backedges) in
/-- What the pass makes of a function. -/
theorem runOnFunction_spec (h : runOnFunction C fuel P F = .ok s) :
    Valid C.toCompiler (IsCheck C P) DL P Backedges entry F s ∧
      ∀ I ∈ P.instsOf F, ∀ check, checkOf C P I = some check →
        isDeferred C P I = false → ∃ c ∈ s.calls, c.about = I ∧ c.point = I := by
  obtain ⟨hproceeds, hcalls⟩ := visits_run hentry hP hC hssa hord (fun _ hI => hI)
    (Valid.refl hentry hP.toClosed hssa hord) h
  exact ⟨hproceeds.valid, hcalls⟩

/-- The pass preserves what a function does: every run of the instrumented function is one of
the function, without the new instructions, and every run of the function is one of the
instrumented function; this is so for the runs that take no edge of `Backedges`, which may be
empty. -/
theorem runOnFunction_preserves (h : runOnFunction C fuel P F = .ok s) (σ₀ : Assignment Value) :
    (∀ t, ForwardRuns DL s.prog Backedges (Means DL s.prog) entry σ₀ t →
      ∃ u, ForwardRuns DL P Backedges (Means DL P) entry σ₀ u ∧ Erased P t u) ∧
    ∀ u, ForwardRuns DL P Backedges (Means DL P) entry σ₀ u →
      ∃ t, ForwardRuns DL s.prog Backedges (Means DL s.prog) entry σ₀ t ∧ Erased P t u := by
  obtain ⟨hvalid, -⟩ := runOnFunction_spec DL Backedges hentry hP hC hssa hord h
  exact ⟨fun t => hvalid.later.ext.erase_run hP.toClosed hssa hentry,
    fun u => hvalid.instruments.lifts σ₀ u⟩

omit hentry hC hord in
/-- When a run comes to a call, the condition has a value, which is true just when the
operation has a bug. -/
theorem Inserted.condition {Q : Program} (hQ : Instruments DL P Backedges entry F Q)
    (hc : Inserted C.toCompiler (IsCheck C P) DL P Backedges entry Q c) {σ₀ : Assignment Value}
    {t : MachineState}
    (ht : ForwardRuns DL Q Backedges (Means DL Q) entry σ₀ t) (hhead : t.rest.head? = some c.call) :
    ∃ b : Bool, current DL Q t.env c.cond = some (.ofBool b) ∧
      (b = true ↔ Buggy C P (current DL P t.env) c.about) := by
  obtain ⟨b, heval, hbug⟩ := checkOf_exact hP DL hc.check t.env
  exact ⟨b, hc.value (checks_isCheck hP DL) hP.toClosed hssa hQ ht hhead heval, hbug⟩

/-- Whenever a run of the instrumented function comes to an inserted call, the condition that
the call passes is true if and only if the operation that it is about overflows, is undefined,
or has an index that is above the number of elements as the comparison sees it (`Buggy`), on
the values that its operands have there.  Where the numbers of elements fit the widths of the
indices, the last case says that an index is out of bounds. -/
theorem calls_exact (h : runOnFunction C fuel P F = .ok s) (hc : c ∈ s.calls)
    {σ₀ : Assignment Value} {t : MachineState}
    (ht : ForwardRuns DL s.prog Backedges (Means DL s.prog) entry σ₀ t)
    (hhead : t.rest.head? = some c.call) :
    (s.prog.inst c.call).op = .call (.func C.intSat) [c.cond] ∧
      ∃ b : Bool, current DL s.prog t.env c.cond = some (.ofBool b) ∧
        (b = true ↔ Buggy C P (current DL P t.env) c.about) ∧
        ∀ base idx, (P.inst c.about).op = .gep base idx →
          (∀ s ∈ gepSteps P c.about, ∀ n elem x, s.1 = .array n elem →
            current DL P t.env s.2 = some x → FitsIndex n x.width) →
          (b = true ↔ ∃ s ∈ gepSteps P c.about, ∃ n elem x, s.1 = .array n elem ∧
            current DL P t.env s.2 = some x ∧ OutOfBounds n x) := by
  obtain ⟨hvalid, -⟩ := runOnFunction_spec DL Backedges hentry hP hC hssa hord h
  have hcall := hvalid.calls c hc
  obtain ⟨b, hcond, hbug⟩ := hcall.condition hP hssa hvalid.instruments ht hhead
  exact ⟨hcall.op, b, hcond, hbug, fun _ _ hop hfits => hbug.trans (buggy_gep_iff hop hfits)⟩

end Run

end Facts

/-! ## A sum and a division -/

/-- The sum of two bytes, by which a byte is divided in block 1. -/
def sumProgram : Program where
  insts := [
    ⟨0, .int 8, .binary .add (.argument 0 0) (.argument 0 1), none, none⟩,
    ⟨0, .other, .condBr (.argument 0 2) 1 2, none, none⟩,
    ⟨1, .int 8, .binary .udiv (.argument 0 0) (.inst 0), none, none⟩,
    ⟨1, .other, .br 2, none, none⟩,
    ⟨2, .other, .ret none, none, none⟩]
  blocks := [⟨0, [0], 1, []⟩, ⟨0, [2], 3, [0]⟩, ⟨0, [], 4, [0, 1]⟩]
  funcs := [
    ⟨⟨"mean", .external, "a.c"⟩, false, [.int 8, .int 8, .int 1], .other, [0, 1, 2]⟩,
    ⟨⟨"int.sat", .external, "a.c"⟩, false, [.int 1], .other, []⟩,
    ⟨⟨"llvm.sadd.with.overflow.i8", .external, "a.c"⟩, false, [.int 8, .int 8], .other, []⟩,
    ⟨⟨"llvm.uadd.with.overflow.i8", .external, "a.c"⟩, false, [.int 8, .int 8], .other, []⟩,
    ⟨⟨"llvm.ssub.with.overflow.i8", .external, "a.c"⟩, false, [.int 8, .int 8], .other, []⟩,
    ⟨⟨"llvm.usub.with.overflow.i8", .external, "a.c"⟩, false, [.int 8, .int 8], .other, []⟩,
    ⟨⟨"llvm.smul.with.overflow.i8", .external, "a.c"⟩, false, [.int 8, .int 8], .other, []⟩,
    ⟨⟨"llvm.umul.with.overflow.i8", .external, "a.c"⟩, false, [.int 8, .int 8], .other, []⟩]
  globals := []
  structs := []
  consts := []

/-- Nothing is folded, and only a division is unsafe to execute. -/
def sumConfig : Config where
  fold _ _ := none
  intSat := 1
  intrinsic op _ :=
    match op with
    | .sadd => 2
    | .uadd => 3
    | .ssub => 4
    | .usub => 5
    | .smul => 6
    | .umul => 7
  useList Q E := (List.range Q.insts.length).filter fun U =>
    (Q.inst U).op.operands.contains (.inst E) && (Q.block (Q.inst U).parent).insts.contains U
  floating _ := false
  taint _ := none
  sink _ := none
  WrapOpt := false
  hasNoSignedWrap _ := false
  isLoopExiting _ := false
  isSafeToSpeculativelyExecute Q I :=
    match (Q.inst I).op with
    | .binary .udiv _ _ => false
    | _ => true
  dominates D BB := D = BB || D = 0
  elements := Library.reference.elements

theorem sum_edge {Pred BB : BlockId} (h : Edge sumProgram Pred BB) :
    (Pred = 0 ∧ BB = 1) ∨ (Pred = 0 ∧ BB = 2) ∨ (Pred = 1 ∧ BB = 2) := by
  match BB with
  | 0 => cases h
  | 1 => exact .inl ⟨List.mem_singleton.mp h, rfl⟩
  | 2 =>
    rcases List.mem_pair.mp h with rfl | rfl
    · exact .inr (.inl ⟨rfl, rfl⟩)
    · exact .inr (.inr ⟨rfl, rfl⟩)
  | BB + 3 => cases h

theorem sum_blocks {BB : BlockId} (h : Reachable sumProgram 0 BB) : BB < 3 := by
  cases h with
  | start _ => exact Nat.zero_lt_succ _
  | step _ hedge _ => rcases sum_edge hedge with ⟨-, rfl⟩ | ⟨-, rfl⟩ | ⟨-, rfl⟩ <;> decide

/-- The name that a value has, if it is an instruction. -/
def instOf? : Value → Option InstId
  | .inst j => some j
  | _ => none

theorem sum_verified : Verified sumProgram where
  blocks F b hb := by
    have hlt : ∀ F < 8, ∀ b ∈ (sumProgram.func F).blocks, b < 3 := by decide
    by_cases hF : F < 8
    · exact hlt F hF b hb
    · simp [Program.func, sumProgram, Nat.not_lt.mp hF] at hb
  insts := by decide
  parent := by decide
  operands i j hj := by
    have hlt : ∀ i < 5, ∀ V ∈ (sumProgram.inst i).op.operands, ∀ j ∈ instOf? V, j < 5 := by decide
    by_cases hi : i < 5
    · exact hlt i hi _ hj j rfl
    · rw [inst_of_le (Nat.not_lt.mp hi)] at hj
      cases hj
  term := by decide
  binary i op L R hop := by
    match i with
    | 0 | 2 =>
      obtain ⟨-, rfl, rfl⟩ := Opcode.binary.inj hop
      exact ⟨rfl, rfl⟩
    | 1 | 3 | 4 | i + 5 => cases hop
  gep c base idx ty hc := by cases c <;> cases hc

theorem sum_ssaForm : SSAForm sumProgram 0 0 where
  entry_block := rfl
  parent BB hBB := by
    have hparent : ∀ BB < 3, (sumProgram.block BB).parent = 0 := by decide
    exact hparent BB (sum_blocks hBB)
  succ_iff_pred Pred BB := by
    constructor
    · intro h
      match Pred with
      | 0 => rcases List.mem_pair.mp h with rfl | rfl <;> decide
      | 1 =>
        obtain rfl := List.mem_singleton.mp h
        decide
      | 2 => cases h
      | Pred + 3 => cases h
    · intro h
      rcases sum_edge h with ⟨rfl, rfl⟩ | ⟨rfl, rfl⟩ | ⟨rfl, rfl⟩ <;> decide
  inst_parent BB hBB := sum_verified.parent BB (sum_blocks hBB)
  constant c V hV := by cases c <;> cases hV
  use BB hBB i hi hphi V hV := by
    -- only the sum is used, and it is in the entry block
    have huse : ∀ BB < 3, ∀ i ∈ (sumProgram.block BB).insts,
        ∀ V ∈ (sumProgram.inst i).op.operands, ∀ j ∈ instOf? V, j = 0 := by decide
    rintro j rfl
    obtain rfl := huse BB (sum_blocks hBB) i hi _ hV j rfl
    exact ⟨by decide, Digraph.dom_entry⟩
  incoming BB hBB i hi incoming hop := by
    have hphi : ∀ BB < 3, ∀ i ∈ (sumProgram.block BB).insts,
        (sumProgram.inst i).op.isPhi = false := by decide
    have hi' := hphi BB (sum_blocks hBB) i hi
    rw [hop] at hi'
    cases hi'

theorem sum_orderedUses : OrderedUses sumProgram 0 :=
  orderedUses_of fun BB hBB => by
    have hord : ∀ BB < 3, (sumProgram.block BB).insts.Nodup ∧
        usesOrdered sumProgram BB [] (sumProgram.block BB).insts = true := by decide
    exact hord BB (sum_blocks hBB)

theorem sum_sound : sumConfig.Sound fieldLayout sumProgram 0 where
  constant _ _ _ h := by cases h
  operand _ _ _ h := by cases h
  value _ _ _ h := by cases h
  intrinsic op _ := by
    have hname : ∀ f ∈ [(2, OverflowOp.sadd), (3, .uadd), (4, .ssub), (5, .usub), (6, .smul),
        (7, .umul)], overflowOp? (sumProgram.func f.1).name = some f.2 := by decide +kernel
    cases op with
    | sadd => exact hname (2, .sadd) (by decide)
    | uadd => exact hname (3, .uadd) (by decide)
    | ssub => exact hname (4, .ssub) (by decide)
    | usub => exact hname (5, .usub) (by decide)
    | smul => exact hname (6, .smul) (by decide)
    | umul => exact hname (7, .umul) (by decide)
  users Q E U hU := by
    obtain ⟨-, hU⟩ := List.mem_filter.mp hU
    obtain ⟨-, hU⟩ := Bool.and_eq_true_iff.mp hU
    exact List.contains_iff_mem.mp hU
  dominates D BB h := by
    rcases Bool.or_eq_true_iff.mp h with h | h
    · rw [of_decide_eq_true h]
      exact .refl BB
    · rw [of_decide_eq_true h]
      exact Digraph.dom_entry
  elements S b hb := (Library.reference.mem_elements S b).mp hb

/-- The check of the division is in front of it, the one of the sum at the end of block 1. -/
def sumChecked : Program :=
  { sumProgram with
    insts := sumProgram.insts ++ [
      ⟨0, .other, .call (.func 3) [.argument 0 0, .argument 0 1], none, none⟩,
      ⟨0, .int 1, .extractValue (.inst 5) 1, none, none⟩,
      ⟨1, .other, .call (.func 1) [.inst 6], none, none⟩,
      ⟨1, .int 1, .icmp .eq (.inst 0) (.constInt (.ofNat 8 0)), none, none⟩,
      ⟨1, .other, .call (.func 1) [.inst 8], none, none⟩]
    blocks := [⟨0, [5, 6, 0], 1, []⟩, ⟨0, [8, 9, 2, 7], 3, [0]⟩, ⟨0, [], 4, [0, 1]⟩] }

theorem sum_runs : ∃ s, runOnFunction sumConfig 8 sumProgram 0 = .ok s ∧ s.prog = sumChecked ∧
    s.calls.map (fun c => (c.call, c.about, c.point, c.cond)) =
      [(7, 0, 3, .inst 6), (9, 2, 2, .inst 8)] :=
  ⟨_, rfl, rfl, rfl⟩

/-- Two hundred and `n` are added, and two hundred is divided by the sum. -/
def sumState (n : ℕ) : Assignment Value := fun V w =>
  match V with
  | .argument _ 0 => 200#w
  | .argument _ 1 => BitVec.ofNat w n
  | .inst 0 => BitVec.ofNat w (200 + n)
  | .inst 2 => BitVec.ofNat w (200 / ((200 + n) % 256))
  | _ => 1#w

section Run

variable {n : ℕ}

theorem sum_argument (no : ℕ) (hno : no < 2) :
    current fieldLayout sumProgram (sumState n) (.argument 0 no) =
      some ⟨8, sumState n (.argument 0 no) 8⟩ := by
  have hty : typeSizeInBits fieldLayout (sumProgram.typeOf (.argument 0 no)) = some 8 := by
    match no with
    | 0 | 1 => rfl
    | no + 2 => simp at hno
  exact meaning_eq_some.mpr ⟨1, value_eq_some.mpr ⟨hty, by simp [stepValue, leafValue, hty]⟩⟩

theorem sum_inst : current fieldLayout sumProgram (sumState n) (.inst 0) =
    some ⟨8, BitVec.ofNat 8 (200 + n)⟩ := rfl

/-- The sum and, when it is not zero, the quotient. -/
theorem sum_means {i : InstId} (hi : i = 2 → (200 + n) % 256 ≠ 0) :
    Means fieldLayout sumProgram i (sumState n) (sumState n) := by
  intro x hx
  match i with
  | 0 =>
    obtain rfl := Option.some.inj hx
    have hop : (sumProgram.inst 0).op = .binary .add (.argument 0 0) (.argument 0 1) := rfl
    simp only [stepValue, instValue, hop, sum_argument 0 Nat.two_pos,
      sum_argument 1 Nat.one_lt_two]
    simp [binaryValue, BinaryOp.eval, sumState, BitVec.ofNat_add]
  | 2 =>
    obtain rfl := Option.some.inj hx
    have hop : (sumProgram.inst 2).op = .binary .udiv (.argument 0 0) (.inst 0) := rfl
    have hzero : BitVec.ofNat 8 (200 + n) ≠ 0#8 := by
      intro h
      have htoNat := congrArg BitVec.toNat h
      rw [BitVec.toNat_ofNat] at htoNat
      exact hi rfl htoNat
    simp only [stepValue, instValue, hop, sum_argument 0 Nat.two_pos, sum_inst]
    simp [binaryValue, BinaryOp.eval, sumState, hzero]
  | 1 | 3 | 4 => cases hx
  | i + 5 => cases hx

/-- The run up to the division. -/
theorem sum_run : ForwardRuns fieldLayout sumProgram [] (Means fieldLayout sumProgram) 0
    (sumState n) ⟨1, [2, 3], sumState n⟩ := by
  have hexec : ∀ BB i is, i ≠ 2 → ForwardStep fieldLayout sumProgram []
      (Means fieldLayout sumProgram) ⟨BB, i :: is, sumState n⟩ ⟨BB, is, sumState n⟩ :=
    fun BB i is hi => ⟨.exec (sum_means fun h => absurd h hi) fun _ _ => rfl, nofun⟩
  have hphis : PhiValues fieldLayout sumProgram (sumState n) (sumState n) 0 1 := by
    intro i hi incoming V hop
    have hphi : ∀ i ∈ (sumProgram.block 1).insts, (sumProgram.inst i).op.isPhi = false := by
      decide
    have hi' := hphi i hi
    rw [hop] at hi'
    cases hi'
  exact .tail (.head (hexec 0 0 [1] (by simp)) (.single (hexec 0 1 [] (by simp))))
    ⟨.edge (k := 0) rfl ⟨1, rfl⟩ hphis fun _ _ => rfl, fun _ => rfl⟩

/-- The run up to the end of block 1. -/
theorem sum_run_end (hn : (200 + n) % 256 ≠ 0) : ForwardRuns fieldLayout sumProgram []
    (Means fieldLayout sumProgram) 0 (sumState n) ⟨1, [3], sumState n⟩ :=
  sum_run.tail ⟨.exec (sum_means fun _ => hn) fun _ _ => rfl, nofun⟩

end Run

/-- The run goes through the instrumented function, too. -/
theorem sum_preserves : ∃ s, runOnFunction sumConfig 8 sumProgram 0 = .ok s ∧
    ∃ t, ForwardRuns fieldLayout s.prog [] (Means fieldLayout s.prog) 0 (sumState 57) t ∧
      Erased sumProgram t ⟨1, [3], sumState 57⟩ := by
  obtain ⟨s, hs, -, -⟩ := sum_runs
  obtain ⟨-, hlifts⟩ := runOnFunction_preserves (by decide) sum_verified sum_sound sum_ssaForm
    sum_orderedUses hs (sumState 57)
  exact ⟨s, hs, hlifts _ (sum_run_end (by decide))⟩

/-- The sum is one, so that the check at the end of block 1 tells of an overflow. -/
theorem sum_calls : ∃ s, runOnFunction sumConfig 8 sumProgram 0 = .ok s ∧ ∃ c ∈ s.calls,
    c.about = 0 ∧ ∃ t, ForwardRuns fieldLayout s.prog [] (Means fieldLayout s.prog) 0
      (sumState 57) t ∧ t.rest.head? = some c.call ∧
        current fieldLayout s.prog t.env c.cond = some (.ofBool true) := by
  obtain ⟨s, hs, -, hcalls⟩ := sum_runs
  have hmem : (7, 0, 3, .inst 6) ∈ s.calls.map fun c => (c.call, c.about, c.point, c.cond) := by
    simp [hcalls]
  obtain ⟨c, hc, hcall⟩ := List.mem_map.mp hmem
  simp only [Prod.mk.injEq] at hcall
  obtain ⟨-, habout, hpoint, -⟩ := hcall
  obtain ⟨hvalid, -⟩ := runOnFunction_spec fieldLayout [] (by decide) sum_verified sum_sound
    sum_ssaForm sum_orderedUses hs
  obtain ⟨t, ht, -, hhead, henv⟩ := (hvalid.calls c hc).comes (sumState 57) ⟨1, [3], sumState 57⟩
    (sum_run_end (by decide)) (by rw [hpoint]; rfl)
  obtain ⟨-, b, hb, hbug, -⟩ := calls_exact (by decide) sum_verified sum_sound sum_ssaForm
    sum_orderedUses hs hc ht hhead
  refine ⟨s, hs, c, hc, habout, t, ht, hhead, ?_⟩
  have hval : ∀ no < 2, current fieldLayout sumProgram t.env (.argument 0 no) =
      some ⟨8, sumState 57 (.argument 0 no) 8⟩ := fun no hno =>
    ((Extends.refl sum_verified.toClosed).current sum_ssaForm.constant henv
      (Value.old_of_ne_inst fun _ h => by cases h)).trans (sum_argument no hno)
  have hoverflow : OverflowOp.uadd.overflow 200#8 57#8 = true := by decide
  obtain rfl : b = true := hbug.mpr (by
    rw [habout]
    exact ⟨8, _, _, hval 0 (by simp), hval 1 (by simp), hoverflow⟩)
  exact hb

end Kint.IntRewrite
