import Kint.IntRewrite.Instrument

/-!
# Inserting a check

A check is built in front of an operation, and is passed there or at the ends of blocks that the
block of the operation dominates, where its condition can be used (`insertCheck_spec`).  The
calls keep what is known of them while other instructions are inserted (`Inserted.later`).

## What is known of a call

`Inserted` says that the call passes the condition of the instruction that it is about, in a
value that computes the condition, and that the runs that come to its point come to it, before
the instruction at that point runs.  It is stated of the function as it is at the time, and it
is kept by everything that is inserted later.

## What is known of the function

`Valid` collects this for all calls, with what makes the rewritten function one that a run can
be carried over to: it has the instructions of the function and others, it is in SSA form, and
what was known of the function before is known of it (`Later`).  `Proceeds` is the relation of
two such states, and it is transitive, so the passes are treated step by step.

## Conditions

The passes differ in the conditions that they insert: `K` is the relation of an instruction to
its condition, and `Checks` says what is needed of it.  `Verified` is what the verifier of the
compiler checks next to SSA form.
-/

namespace Kint.IntRewrite

open Iteration Memo SMT PathGen ValueGen

/-- What the verifier of the compiler checks of a program next to its SSA form: terminators
are no phi nodes, the operands of a binary operator have the type of its result, and address
computations are no integers. -/
structure Verified (P : Program) : Prop extends Closed P where
  term : ∀ b < P.blocks.length, (P.inst (P.block b).term).op.isPhi = false
  binary : ∀ i op L R, (P.inst i).op = .binary op L R →
    P.typeOf L = (P.inst i).ty ∧ P.typeOf R = (P.inst i).ty
  gep : ∀ c base idx ty, P.const c = .gep base idx ty → ∀ w, ty ≠ .int w

/-- The conditions `K` of instructions are typed, and are over the operands of the instruction
and constants. -/
def Checks (DL : DataLayout) (P : Program) (K : InstId → Built → Prop) : Prop :=
  ∀ I b, K I b → Typed DL P b 1 ∧
    Over (fun V => V ∈ (P.inst I).op.operands ∨ ∃ c, V = .constInt c) b

/-! ## Inserted calls -/

section Calls

variable (C : Compiler) (K : InstId → Built → Prop) (DL : DataLayout) (P : Program)
  (Backedges : List (BlockId × BlockId)) (entry : BlockId) (F : FuncId)

/-- The call passes the condition of the instruction that it is about, and runs that come to
its point come to it. -/
structure Inserted (Q : Program) (c : IntSatCall) : Prop where
  op : (Q.inst c.call).op = .call (.func C.intSat) [c.cond]
  place : InsertionPoint Q c.call
  comes : Comes DL P Backedges entry Q c.point c.call
  old : c.cond.Old Q
  ty : Q.typeOf c.cond = .int 1
  check : K c.about c.check
  computes : Computes DL Q Backedges entry c.check c.cond

/-- What holds of the function as it is rewritten. -/
structure Valid (s : Rewrite) : Prop where
  later : Later DL P Backedges entry P s.prog
  instruments : Instruments DL P Backedges entry F s.prog
  calls : ∀ c ∈ s.calls, Inserted C K DL P Backedges entry s.prog c

/-- What a part of the pass does: it keeps what was known, and inserts calls. -/
structure Proceeds (s s' : Rewrite) : Prop where
  valid : Valid C K DL P Backedges entry F s'
  later : Later DL P Backedges entry s.prog s'.prog
  calls : ∀ c ∈ s.calls, c ∈ s'.calls

end Calls

section Facts

variable {C : Compiler} {K : InstId → Built → Prop} {DL : DataLayout} {P Q Q' : Program}
  {Backedges : List (BlockId × BlockId)} {entry : BlockId} {F : FuncId} {c : IntSatCall}
  {s s' s'' : Rewrite} {I IP : InstId}
  {V : Value} {check : Built} {Bug : String} {fuel w : ℕ} {σ : Assignment Value}

/-! ## Widths -/

/-- A value of an integer type has the width of the type. An assignment gives every value a number
of its width, and what the instructions compute keeps to their types. -/
theorem Verified.hasWidth (hP : Verified P) (hV : P.typeOf V = .int w) : HasWidth DL P V w := by
  intro σ
  have hleaf : leafValue DL P σ V = some ⟨w, σ V w⟩ := by
    rw [leafValue, hV]
    rfl
  have hmeaning : (∀ v, stepValue DL P σ v w V = some ⟨w, σ V w⟩) →
      meaning DL P σ V = some ⟨w, σ V w⟩ := fun h =>
    meaning_eq_some.mpr ⟨1, value_eq_some.mpr ⟨by rw [hV]; rfl, h _⟩⟩
  cases V with
  | inst i => exact ⟨_, hleaf⟩
  | constInt c =>
    obtain rfl : c.width = w := Ty.int.inj hV
    exact ⟨c.bits, meaning_eq_some.mpr ⟨1, value_eq_some.mpr ⟨rfl, rfl⟩⟩⟩
  | null ty =>
    obtain rfl : ty = .int w := hV
    exact ⟨BitVec.ofNat w 0, meaning_eq_some.mpr ⟨1, value_eq_some.mpr ⟨rfl, rfl⟩⟩⟩
  | constExpr c =>
    refine ⟨_, hmeaning fun v => ?_⟩
    rw [stepValue]
    cases hc : P.const c with
    | gep base idx ty =>
      refine absurd ?_ (hP.gep c base idx ty hc w)
      have hty : (P.const c).ty = .int w := hV
      rwa [hc] at hty
    | _ => exact hleaf
  | _ => exact ⟨_, hmeaning fun _ => hleaf⟩

theorem current_constInt (c : APInt) : current DL P σ (.constInt c) = some c :=
  meaning_eq_some.mpr ⟨1, value_eq_some.mpr ⟨rfl, rfl⟩⟩

theorem hasWidth_constInt (x : BitVec w) : HasWidth DL P (.constInt ⟨w, x⟩) w :=
  fun _ => ⟨x, current_constInt _⟩

/-! ## Conditions -/

theorem Checks.old (hK : Checks DL P K) (hP : Closed P) (hcheck : K I check) :
    Over (Value.Old P) check := by
  refine (hK I check hcheck).2.mono fun V hV => ?_
  rcases hV with hV | ⟨c, rfl⟩
  · exact hP.operand_old hV
  · exact Value.old_of_ne_inst nofun

/-- The values in the condition can be used where the condition is built. -/
theorem Checks.usable (hK : Checks DL P K) (hP : Closed P) (hssa : SSAForm P entry F)
    (hord : OrderedUses P entry) (hI : InsertionPoint P I) (hcheck : K I check) :
    Over (UsableAt P entry I) check := by
  refine (hK I check hcheck).2.mono fun V hV => ?_
  rcases hV with hV | ⟨c, rfl⟩
  · exact usableAt_operand hP hssa hord hI hV
  · exact usableAt_constant nofun

/-- What is known of a call is kept by what is inserted later. -/
theorem Inserted.later (hK : Checks DL P K) (hP : Closed P) (hext : Extends P Q) (hQ : Closed Q)
    (hlater : Later DL P Backedges entry Q Q') (h : Inserted C K DL P Backedges entry Q c) :
    Inserted C K DL P Backedges entry Q' c where
  op := by
    rw [hlater.ext.inst _ (h.place.lt hQ)]
    exact h.op
  place := hlater.point _ h.place
  comes := hlater.comes _ _ h.comes
  old := hlater.ext.old h.old
  ty := by
    rw [hlater.ext.typeOf h.old]
    exact h.ty
  check := h.check
  computes :=
    hlater.computes _ _ ((hK.old hP h.check).mono fun _ => hext.old) h.old h.computes

/-- When a run comes to a call, the condition that it passes has the value of the check. -/
theorem Inserted.value (hK : Checks DL P K) (hP : Closed P) (hssa : SSAForm P entry F)
    (hQ : Instruments DL P Backedges entry F Q) (hc : Inserted C K DL P Backedges entry Q c)
    {σ₀ : Assignment Value} {t : MachineState}
    (ht : ForwardRuns DL Q Backedges (Means DL Q) entry σ₀ t) (hhead : t.rest.head? = some c.call)
    {x : APInt} (heval : c.check.eval (machineEnv DL P t.env) = some x) :
    current DL Q t.env c.cond = some x := by
  rw [← eval_extends hQ.ext hssa.constant (fun _ _ => rfl) (hK.old hP hc.check)] at heval
  refine hc.computes σ₀ t ht ?_ _ heval
  obtain ⟨BB, rest, σ⟩ := t
  obtain ⟨is, rfl⟩ := List.head?_eq_some_iff.mp hhead
  have hsettled := ht.runs.settled hQ.ssa hQ.ord fun _ _ _ h => h
  exact hsettled.next hQ.ssa hQ.ord
    (.inst (by rw [hc.op]; rfl) (by rw [hc.op]; simp [Opcode.operands]))

theorem Valid.refl (hentry : entry < P.blocks.length) (hP : Closed P)
    (hssa : SSAForm P entry F) (hord : OrderedUses P entry) :
    Valid C K DL P Backedges entry F ⟨P, [], [], false⟩ where
  later := .refl hP
  instruments := {
    ext := .refl hP
    closed := hP
    ssa := hssa
    ord := hord
    comes := fun i σ₀ s hs hhead => ⟨s, hs, rfl, hhead, fun _ _ => rfl⟩
    lifts := fun σ₀ s hs => by
      have hsettled := hs.runs.settled hssa hord fun _ _ _ h => h
      have hrest : ∀ i ∈ s.rest, i < P.insts.length := fun i hi =>
        lt_of_mem_insts hP hentry (hs.runs.reachable hssa) (hsettled.mem_rest hi).1
      exact ⟨s, hs, rfl, (List.filter_eq_self.mpr (by simpa using hrest)).symm, fun _ _ => rfl⟩ }
  calls := nofun

theorem Proceeds.refl (h : Valid C K DL P Backedges entry F s) :
    Proceeds C K DL P Backedges entry F s s :=
  ⟨h, .refl h.instruments.closed, fun _ hc => hc⟩

/-- Two parts of the pass, one after the other. -/
theorem Proceeds.trans (h : Proceeds C K DL P Backedges entry F s s')
    (h' : Proceeds C K DL P Backedges entry F s' s'') : Proceeds C K DL P Backedges entry F s s'' :=
  ⟨h'.valid, h.later.trans h'.later, fun c hc => h'.calls c (h.calls c hc)⟩

/-- A function that goes on from a valid one. -/
theorem Valid.goOn (hK : Checks DL P K) (hP : Closed P) (h : Valid C K DL P Backedges entry F s)
    (hlater : Later DL P Backedges entry s.prog Q) (hQ : Instruments DL P Backedges entry F Q) :
    Valid C K DL P Backedges entry F { s with prog := Q } where
  later := h.later.trans hlater
  instruments := hQ
  calls c hc := (h.calls c hc).later hK hP h.instruments.ext h.instruments.closed hlater

/-- Something can be inserted at the end of a block. -/
theorem insertionPoint_term (hP : Verified P) (hext : Extends P Q) (hQ : Closed Q) {b : BlockId}
    (hb : b < Q.blocks.length) :
    (Q.inst (Q.block b).term).parent = b ∧ InsertionPoint Q (Q.block b).term := by
  have hmem : (Q.block b).term ∈ (Q.block b).insts := by simp [BasicBlock.insts]
  have hparent := hQ.parent b hb _ hmem
  refine ⟨hparent, ⟨by rwa [hparent], by rwa [hparent], ?_⟩⟩
  rw [hext.termOp hP.toClosed]
  exact hP.term b (hext.length_blocks ▸ hb)

/-- An instruction of the function that is no phi node. -/
theorem insertionPoint_of_mem (hP : Closed P) (hI : I ∈ P.instsOf F)
    (hphi : (P.inst I).op.isPhi = false) : InsertionPoint P I := by
  obtain ⟨b, hb, hmem⟩ := List.mem_flatMap.mp hI
  have hlt := hP.blocks F b hb
  have hparent := hP.parent b hlt I hmem
  exact ⟨hparent ▸ hlt, by rwa [hparent], hphi⟩

section Steps

variable (hK : Checks DL P K) (hentry : entry < P.blocks.length) (hP : Verified P)
  (hs : Valid C K DL P Backedges entry F s)
include hK hentry hP hs

/-- `insertIntSat` inserts a call, which passes a condition that can be used there. The function has
one more call, and everything that was said about it so far is still true. -/
theorem insertIntSat_spec (hIP : InsertionPoint s.prog IP) (hV : UsableAt s.prog entry IP V)
    (hcheck : K I check) (hcomp : Computes DL s.prog Backedges entry check V)
    (h : insertIntSat C fuel check V I IP Bug s = .ok s') :
    Proceeds C K DL P Backedges entry F s s' ∧
      ∃ c ∈ s'.calls, c.about = I ∧ c.point = IP ∧ c.check = check := by
  obtain ⟨hty, MD, -, rfl⟩ := insertIntSat_eq_ok C h
  have hQ := hs.instruments
  let op : Opcode := .call (.func C.intSat) [V]
  have hop : ∀ U ∈ op.operands, UsableAt s.prog entry IP U := by
    intro U hU
    rcases List.mem_pair.mp hU with rfl | rfl
    · exact hV
    · exact usableAt_func
  have hinst : (s.prog.insertBefore IP .other op).inst s.prog.insts.length =
      ⟨(s.prog.inst IP).parent, .other, op, none, none⟩ := insertBefore_inst_self
  have hrun : Runnable DL (s.prog.insertBefore IP .other op) s.prog.insts.length :=
    runnable_of_other (by rw [hinst])
  have hlater := later_insertBefore hentry hQ hIP rfl hrun
  have hvalid := hs.goOn hK hP.toClosed hlater
    (instruments_insertBefore hentry hQ hIP rfl hop hrun)
  refine ⟨⟨⟨hvalid.later, hvalid.instruments, fun c hc => ?_⟩, hlater,
    fun c hc => List.mem_append_left _ hc⟩, _, List.mem_append_right _ List.mem_cons_self,
    rfl, rfl, rfl⟩
  rcases List.mem_append.mp hc with hc | hc
  · exact hvalid.calls c hc
  · obtain rfl := List.mem_singleton.mp hc
    have hover := (hK.old hP.toClosed hcheck).mono fun _ => hQ.ext.old
    constructor
    case op => exact congrArg Instruction.op hinst
    case place => exact insertionPoint_new hQ.closed hIP rfl
    case comes => exact (comes_insertBefore hentry hQ hIP rfl hrun (hQ.comes IP)).2 rfl
    case old => exact hlater.ext.old hV.old
    case ty => exact (hlater.ext.typeOf hV.old).trans hty
    case check => exact hcheck
    case computes => exact hlater.computes _ _ hover hV.old hcomp

/-- The same condition can be passed by several calls. The induction is on the points: each call is
inserted into a function where the next points are still points. -/
theorem insertIntSats_spec {points : List InstId}
    (hpoints : ∀ IP ∈ points, InsertionPoint s.prog IP ∧ UsableAt s.prog entry IP V)
    (hcheck : K I check) (hV : V.Old s.prog)
    (hcomp : Computes DL s.prog Backedges entry check V)
    (h : points.foldlM (fun s IP => insertIntSat C fuel check V I IP Bug s) s =
      .ok s') :
    Proceeds C K DL P Backedges entry F s s' ∧
      ∀ IP ∈ points, ∃ c ∈ s'.calls, c.about = I ∧ c.point = IP ∧ c.check = check := by
  induction points generalizing s with
  | nil =>
    obtain rfl := Except.ok.inj h
    exact ⟨.refl hs, nofun⟩
  | cons IP points ih =>
    rw [List.foldlM_cons] at h
    obtain ⟨s₁, h₁, h⟩ := bind_eq_ok.mp h
    obtain ⟨hIP, hVIP⟩ := hpoints IP List.mem_cons_self
    obtain ⟨hstep, hcall⟩ := insertIntSat_spec hK hentry hP hs hIP hVIP hcheck hcomp h₁
    have hover := (hK.old hP.toClosed hcheck).mono fun _ => hs.instruments.ext.old
    obtain ⟨hrest, hcalls⟩ := ih hstep.valid (fun IP' hIP' => by
      obtain ⟨hpoint, husable⟩ := hpoints IP' (List.mem_cons_of_mem _ hIP')
      exact ⟨hstep.later.point IP' hpoint, hstep.later.usable IP' V hpoint husable⟩)
      (hstep.later.ext.old hV) (hstep.later.computes _ _ hover hV hcomp) h
    refine ⟨hstep.trans hrest, fun IP' hIP' => ?_⟩
    rcases List.mem_cons.mp hIP' with rfl | hIP'
    · obtain ⟨c, hc, hcall⟩ := hcall
      exact ⟨c, hrest.calls c hc, hcall⟩
    · exact hcalls IP' hIP'

/-- A check of `I` is made in front of `I` and is passed at the points, which are at `I` or at
the ends of blocks that the block of `I` dominates. -/
theorem insertCheck_spec (hC : C.Sound DL P) (hssa : SSAForm P entry F)
    (hord : OrderedUses P entry) (hI : InsertionPoint P I) (hcheck : K I check)
    {points : Program → Except Stop (List InstId)}
    (hpoints : ∀ Q ps, Extends P Q → Closed Q → points Q = .ok ps → ∀ IP ∈ ps, IP = I ∨
      ∃ b < P.blocks.length, IP = (Q.block b).term ∧ b ≠ (P.inst I).parent ∧
        Dominates P entry (P.inst I).parent b)
    (h : insertCheck C fuel check I Bug points s = .ok s') :
    Proceeds C K DL P Backedges entry F s s' ∧ ∃ Q ps, Extends P Q ∧ points Q = .ok ps ∧
      ∀ IP ∈ ps, ∃ c ∈ s'.calls, c.about = I ∧ c.point = IP ∧ c.check = check := by
  have htyped : Typed DL P check 1 := (hK I check hcheck).1
  have husable := hK.usable hP.toClosed hssa hord hI hcheck
  have hip := hs.later.point I hI
  have hmakes := build_spec hentry hC check s.prog 1 hs.instruments hip
    (htyped.later hs.later husable.old) (husable.later hI hs.later)
  unfold insertCheck at h
  generalize build C I check s.prog = r at h hmakes
  obtain ⟨V, Q⟩ := r
  obtain ⟨ps, hps, h⟩ := bind_eq_ok.mp h
  have hvalid := hs.goOn hK hP.toClosed hmakes.later hmakes.instruments
  have hext := hmakes.instruments.ext
  have hcalls := insertIntSats_spec hK hentry hP (s := { s with prog := Q, changed := true })
    ⟨hvalid.later, hvalid.instruments, hvalid.calls⟩ (fun IP hIP => ?_) hcheck hmakes.usable.old
    hmakes.computes h
  · obtain ⟨hproceeds, hcalls⟩ := hcalls
    exact ⟨⟨hproceeds.valid, hmakes.later.trans hproceeds.later, hproceeds.calls⟩, Q, ps, hext,
      hps, hcalls⟩
  · rcases hpoints Q ps hext hmakes.instruments.closed hps IP hIP with rfl | ⟨b, hb, rfl, hne, hdom⟩
    · exact ⟨hmakes.later.point _ hip, hmakes.usable⟩
    · obtain ⟨hparent, hpoint⟩ := insertionPoint_term hP hext hmakes.instruments.closed
        (hext.length_blocks.symm ▸ hb)
      have hI' := hext.inst I (hI.lt hP.toClosed)
      refine ⟨hpoint, usableAt_of_dominates hmakes.usable ?_ ?_⟩
      · rw [hparent, hI', hext.dominates]
        exact hdom
      · rw [hparent, hI']
        exact hne.symm

end Steps

end Facts

end Kint.IntRewrite
