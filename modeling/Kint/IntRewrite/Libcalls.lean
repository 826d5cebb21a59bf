import Kint.IntRewrite.Correct

/-!
# `IntLibcalls`

The pass checks the sizes that are passed to well-known functions: in front of a call there is a
call of `int.sat` for each parameter of the tables, which asks whether the argument is negative.
It goes through all functions of a module, and changes what none of them does
(`runOnModule_preserves`).

## The transcription

* `LLVMSize`, `LinuxSize`: the tables.  An entry is the name of a function and the number of a
  parameter.
* `rewriteParam`, `rewriteSizeAt`: the loop over the entries of a table, for one call.
* `visit`, `rewriteSize`, `runOnModule`: the loops over instructions and functions.

What is inserted is in front of the iterator, so that the loop over a function goes through the
instructions that the function has when the loop starts.  New ones may be among them if a
function is visited again.  They call no function but `int.sat` (`NewCalls`), and `int.sat` is
in no table (`int_sat_not_listed`), so nothing is done for them.

## Main results

* `sizeCheck_exact`: the condition is true just when the size is negative.
* `runOnModule_spec`: what the pass does to the functions of a module.
* `runOnModule_preserves`: the runs of every function stay what they were.
* `sizes_checked`: each size that a call of the module passes is checked, by a call of `int.sat`
  that stands in front of it.
-/

namespace Kint.IntLibcalls

open Iteration IntRewrite Memo SMT PathGen ValueGen

/-- A parameter of a function. -/
structure NamedParam where
  Name : String
  Index : ℕ
  deriving DecidableEq

/-- `LLVMSize` -/
def LLVMSize : List NamedParam := [
  ⟨"llvm.memcpy.p0i8.p0i8.i32", 2⟩,
  ⟨"llvm.memcpy.p0i8.p0i8.i64", 2⟩,
  ⟨"llvm.memmove.p0i8.p0i8.i32", 2⟩,
  ⟨"llvm.memmove.p0i8.p0i8.i64", 2⟩,
  ⟨"llvm.memset.p0i8.i32", 2⟩,
  ⟨"llvm.memset.p0i8.i64", 2⟩]

/-- `LinuxSize` -/
def LinuxSize : List NamedParam := [
  ⟨"copy_from_user", 2⟩,
  ⟨"copy_in_user", 2⟩,
  ⟨"copy_to_user", 2⟩,
  ⟨"dma_free_coherent", 1⟩,
  ⟨"memcpy", 2⟩,
  ⟨"memcpy_fromiovec", 2⟩,
  ⟨"memcpy_fromiovecend", 2⟩,
  ⟨"memcpy_fromiovecend", 3⟩,
  ⟨"memcpy_toiovec", 2⟩,
  ⟨"memcpy_toiovecend", 2⟩,
  ⟨"memcpy_toiovecend", 3⟩,
  ⟨"memmove", 2⟩,
  ⟨"memset", 2⟩,
  ⟨"pci_free_consistent", 1⟩,
  ⟨"sock_alloc_send_skb", 1⟩,
  ⟨"sock_alloc_send_pskb", 1⟩,
  ⟨"sock_alloc_send_pskb", 2⟩]

section Pass

variable (C : Compiler)

/-- `getArgOperand` -/
def getArgOperand (Q : Program) (I : InstId) (Index : ℕ) : Option Value :=
  match (Q.inst I).op with
  | .call _ args => args[Index]?
  | _ => none

/-- The condition for a size of `w` bits. -/
def sizeCheck (Arg : Value) (w : ℕ) : Built := .icmp .slt (.value Arg) (.getInt (.ofNat w 0))

/-- The body of the loop of `rewriteSizeAt`, for a call of a function with the name `Name`. -/
def rewriteParam (fuel : ℕ) (I : InstId) (Name : String) (s : Rewrite) (NP : NamedParam) :
    Except Stop Rewrite :=
  if Name ≠ NP.Name then .ok s
  else
    match getArgOperand s.prog I NP.Index with
    | none => .error .fatal
    | some Arg =>
      match s.prog.typeOf Arg with
      | .int w => insertCheck C fuel (sizeCheck Arg w) I "size" (fun _ => .ok [I]) s
      | _ => .error .fatal

/-- `rewriteSizeAt` -/
def rewriteSizeAt (fuel : ℕ) (I : InstId) (Name : String) (NPs : List NamedParam) (s : Rewrite) :
    Except Stop Rewrite :=
  NPs.foldlM (rewriteParam C fuel I Name) s

/-- The body of the loop of `rewriteSize`. -/
def visit (fuel : ℕ) (s : Rewrite) (I : InstId) : Except Stop Rewrite :=
  match s.prog.calledFunction I with
  | none => .ok s
  | some f => do
    let Name := (s.prog.func f).name
    let s ← rewriteSizeAt C fuel I Name LLVMSize s
    rewriteSizeAt C fuel I Name LinuxSize s

/-- `rewriteSize`: what is inserted is in front of the iterator. -/
def rewriteSize (fuel : ℕ) (s : Rewrite) (F : FuncId) : Except Stop Rewrite :=
  (s.prog.instsOf F).foldlM (visit C fuel) s

/-- `IntLibcalls::runOnModule` -/
def runOnModule (fuel : ℕ) (P : Program) (M : Module) : Except Stop Rewrite :=
  (M.functions.filter fun F => !(P.func F).empty).foldlM (rewriteSize C fuel)
    ⟨P, [], [], true⟩

end Pass

section Facts

variable {C : Compiler} {DL : DataLayout} {P Q : Program} {M : Module}
  {Backedges : List (BlockId × BlockId)} {entry : BlockId} {F G : FuncId} {s s' : Rewrite}
  {I ip : InstId} {f : FuncId} {Arg : Value} {b : Built} {c : IntSatCall} {Bug Name : String}
  {NP : NamedParam} {NPs : List NamedParam} {fuel n w : ℕ} {ty : Ty} {op : Opcode}

/-! ## Sizes -/

variable (P) in
/-- An integer that a call passes as a size, to a function of the tables. It is listed with its
position under the name of the function, and the call passes that many arguments at least. -/
structure IsSize (I : InstId) (NP : NamedParam) (Arg : Value) (w : ℕ) : Prop where
  listed : NP ∈ LLVMSize ++ LinuxSize
  called : ∃ f, P.calledFunction I = some f ∧ (P.func f).name = NP.Name
  arg : getArgOperand P I NP.Index = some Arg
  ty : P.typeOf Arg = .int w

variable (P) in
/-- The condition asks for the sign of a size. -/
def IsSizeCheck (I : InstId) (b : Built) : Prop :=
  ∃ NP Arg w, IsSize P I NP Arg w ∧ b = sizeCheck Arg w

/-- The arguments of a call are among its operands. -/
theorem getArgOperand_mem (h : getArgOperand P I n = some Arg) :
    Arg ∈ (P.inst I).op.operands := by
  unfold getArgOperand at h
  split at h
  · rename_i callee args hop
    rw [hop]
    exact List.mem_append_left _ (List.mem_of_getElem? h)
  · cases h

/-- The conditions of the pass are typed, and are over operands and constants. -/
theorem checks_sizeCheck (hP : Verified P) (DL : DataLayout) : Checks DL P (IsSizeCheck P) := by
  rintro I b ⟨NP, Arg, w, h, rfl⟩
  exact ⟨⟨rfl, w, hP.hasWidth h.ty, hasWidth_constInt _⟩, .inl (getArgOperand_mem h.arg),
    .inr ⟨_, rfl⟩⟩

/-- The condition is true just when the size is negative. -/
theorem sizeCheck_exact (hP : Verified P) (hty : P.typeOf Arg = .int w) (σ : Assignment Value) :
    ∃ x : BitVec w, current DL P σ Arg = some ⟨w, x⟩ ∧
      (sizeCheck Arg w).eval (machineEnv DL P σ) = some (.ofBool (decide (x.toInt < 0))) := by
  obtain ⟨x, hx⟩ : ∃ x : BitVec w, current DL P σ Arg = some ⟨w, x⟩ := hP.hasWidth hty σ
  have hArg : (Built.value Arg).eval (machineEnv DL P σ) = some ⟨w, x⟩ := hx
  refine ⟨x, hx, (Built.eval_icmp .slt hArg (Built.eval_getInt _ _)).trans ?_⟩
  simp [ICmpPredicate.eval]

/-! ## New instructions -/

/-- The instructions from `n` on call no function but `int.sat`. -/
def NewCalls (C : Compiler) (n : ℕ) (Q : Program) : Prop :=
  ∀ i f, n ≤ i → Q.calledFunction i = some f → f = C.intSat

/-- One more instruction that calls nothing else. -/
theorem NewCalls.insertBefore (hop : ∀ f args, op = .call (.func f) args → f = C.intSat)
    (h : NewCalls C n Q) : NewCalls C n (Q.insertBefore ip ty op) := by
  intro i f hi hf
  unfold Program.calledFunction at hf
  rcases Nat.lt_trichotomy i Q.insts.length with hlt | rfl | hlt
  · rw [insertBefore_inst_of_lt hlt] at hf
    exact h i f hi hf
  · rw [insertBefore_inst_self] at hf
    split at hf
    · rename_i g args hcall
      obtain rfl := Option.some.inj hf
      exact hop g args hcall
    · cases hf
  · rw [inst_of_le (by rw [length_insertBefore]; exact hlt)] at hf
    cases hf

/-- A check inserts a comparison, if that is not folded, and a call of `int.sat`. -/
theorem NewCalls.insertCheck (h : NewCalls C n s.prog)
    (hrun : IntRewrite.insertCheck C fuel (sizeCheck Arg w) I Bug (fun _ => .ok [I]) s = .ok s') :
    NewCalls C n s'.prog := by
  have hbuild : NewCalls C n (build C I (sizeCheck Arg w) s.prog).2 := by
    simp only [sizeCheck, Built.getInt, build, create]
    split
    · exact h
    · exact h.insertBefore nofun
  unfold IntRewrite.insertCheck at hrun
  generalize build C I (sizeCheck Arg w) s.prog = r at hrun hbuild
  obtain ⟨V, Q⟩ := r
  obtain ⟨ps, hps, hrun⟩ := bind_eq_ok.mp hrun
  obtain rfl := Except.ok.inj hps
  rw [List.foldlM_cons] at hrun
  obtain ⟨s₁, h₁, hrun⟩ := bind_eq_ok.mp hrun
  obtain rfl := Except.ok.inj hrun
  obtain ⟨-, MD, -, rfl⟩ := insertIntSat_eq_ok C h₁
  refine hbuild.insertBefore fun f args hcall => ?_
  exact (Value.func.inj (Opcode.call.inj hcall).1).symm

/-! ## The loops -/

/-- What a part of the pass does. It proceeds as every insertion does, and the new instructions call
nothing but `int.sat`. -/
structure Does (C : Compiler) (DL : DataLayout) (P : Program)
    (Backedges : List (BlockId × BlockId)) (entry : BlockId) (F : FuncId) (s s' : Rewrite) :
    Prop where
  proceeds : Proceeds C (IsSizeCheck P) DL P Backedges entry F s s'
  calls : NewCalls C P.insts.length s'.prog

/-- Two parts of the pass, one after the other. -/
theorem Does.trans {s'' : Rewrite} (h : Does C DL P Backedges entry F s s')
    (h' : Does C DL P Backedges entry F s' s'') : Does C DL P Backedges entry F s s'' :=
  ⟨h.proceeds.trans h'.proceeds, h'.calls⟩

/-- The sizes of a table that `I` passes are checked in front of `I`. -/
def Checked (P : Program) (I : InstId) (NPs : List NamedParam) (s : Rewrite) : Prop :=
  ∀ NP ∈ NPs, ∀ Arg w, IsSize P I NP Arg w →
    ∃ c ∈ s.calls, c.about = I ∧ c.point = I ∧ c.check = sizeCheck Arg w

theorem Checked.mono (h : Checked P I NPs s) (hcalls : ∀ c ∈ s.calls, c ∈ s'.calls) :
    Checked P I NPs s' := by
  intro NP hNP Arg w hsize
  obtain ⟨c, hc, hcall⟩ := h NP hNP Arg w hsize
  exact ⟨c, hcalls c hc, hcall⟩

theorem Checked.append {NPs' : List NamedParam} (h : Checked P I NPs s) (h' : Checked P I NPs' s) :
    Checked P I (NPs ++ NPs') s := by
  intro NP hNP
  rcases List.mem_append.mp hNP with hNP | hNP
  · exact h NP hNP
  · exact h' NP hNP

section Steps

variable (hentry : entry < P.blocks.length) (hP : Verified P) (hC : C.Sound DL P)
  (hssa : SSAForm P entry F) (hord : OrderedUses P entry) (hI : InsertionPoint P I)
  (hs : Valid C (IsSizeCheck P) DL P Backedges entry F s)
  (hnew : NewCalls C P.insts.length s.prog)
include hentry hP hC hssa hord hI hs hnew

/-- What the body of the loop of `rewriteSizeAt` does. A row of another function leaves the state as
it is; for a row of this one the argument is compared with zero. -/
theorem rewriteParam_spec (hf : P.calledFunction I = some f) (hNP : NP ∈ LLVMSize ++ LinuxSize)
    (h : rewriteParam C fuel I (P.func f).name s NP = .ok s') :
    Does C DL P Backedges entry F s s' ∧ Checked P I [NP] s' := by
  have hlt := hI.lt hP.toClosed
  have hargs : getArgOperand s.prog I NP.Index = getArgOperand P I NP.Index := by
    unfold getArgOperand
    rw [hs.later.ext.inst I hlt]
  unfold rewriteParam at h
  split at h
  case isTrue hname =>
    obtain rfl := Except.ok.inj h
    refine ⟨⟨.refl hs, hnew⟩, fun NP' hNP' Arg w hsize => absurd ?_ hname⟩
    obtain rfl := List.mem_singleton.mp hNP'
    obtain ⟨g, hg, hcalled⟩ := hsize.called
    obtain rfl := Option.some.inj (hf.symm.trans hg)
    exact hcalled
  case isFalse hname =>
    replace hname := not_not.mp hname
    rw [hargs] at h
    split at h
    · cases h
    · rename_i Arg harg
      rw [hs.later.ext.typeOf (hP.operand_old (getArgOperand_mem harg))] at h
      split at h
      · rename_i w hty
        have hsize : IsSize P I NP Arg w := ⟨hNP, ⟨f, hf, hname⟩, harg, hty⟩
        obtain ⟨hproceeds, Q, ps, -, hps, hcalls⟩ := insertCheck_spec (checks_sizeCheck hP DL)
          hentry hP hs hC hssa hord hI ⟨NP, Arg, w, hsize, rfl⟩ (fun Q ps _ _ hps IP hIP => by
            obtain rfl := Except.ok.inj hps
            exact .inl (List.mem_singleton.mp hIP)) h
        refine ⟨⟨hproceeds, hnew.insertCheck h⟩, fun NP' hNP' Arg' w' hsize' => ?_⟩
        obtain rfl := List.mem_singleton.mp hNP'
        obtain rfl := Option.some.inj (harg.symm.trans hsize'.arg)
        obtain rfl := Ty.int.inj (hty.symm.trans hsize'.ty)
        obtain rfl := Except.ok.inj hps
        exact hcalls I List.mem_cons_self
      · cases h

theorem rewriteSizeAt_spec (hf : P.calledFunction I = some f)
    (hNPs : ∀ NP ∈ NPs, NP ∈ LLVMSize ++ LinuxSize)
    (h : rewriteSizeAt C fuel I (P.func f).name NPs s = .ok s') :
    Does C DL P Backedges entry F s s' ∧ Checked P I NPs s' := by
  unfold rewriteSizeAt at h
  induction NPs generalizing s with
  | nil =>
    obtain rfl := Except.ok.inj h
    exact ⟨⟨.refl hs, hnew⟩, nofun⟩
  | cons NP NPs ih =>
    rw [List.foldlM_cons] at h
    obtain ⟨s₁, h₁, h⟩ := bind_eq_ok.mp h
    obtain ⟨hstep, hchecked⟩ := rewriteParam_spec hentry hP hC hssa hord hI hs hnew hf
      (hNPs NP List.mem_cons_self) h₁
    obtain ⟨hrest, hchecked'⟩ := ih hstep.proceeds.valid hstep.calls
      (fun NP hNP => hNPs NP (List.mem_cons_of_mem _ hNP)) h
    exact ⟨hstep.trans hrest, (hchecked.mono hrest.proceeds.calls).append hchecked'⟩

end Steps

/-- There is nothing to do for a call of a function that the table does not name. -/
theorem rewriteSizeAt_eq (h : ∀ NP ∈ NPs, NP.Name ≠ Name) :
    rewriteSizeAt C fuel I Name NPs s = .ok s := by
  unfold rewriteSizeAt
  induction NPs with
  | nil => rfl
  | cons NP NPs ih =>
    rw [List.foldlM_cons, rewriteParam, if_pos (h NP List.mem_cons_self).symm]
    exact ih fun NP hNP => h NP (List.mem_cons_of_mem _ hNP)

/-- `int.sat` is in no table. -/
theorem int_sat_not_listed : ∀ NP ∈ LLVMSize ++ LinuxSize, NP.Name ≠ "int.sat" := by
  decide +kernel

section Run

variable (hentry : entry < P.blocks.length) (hP : Verified P) (hC : C.Sound DL P)
  (hname : (P.func C.intSat).name = "int.sat")
  (hssa : SSAForm P entry F) (hord : OrderedUses P entry)
include hentry hP hC hname hssa hord

/-- The body of the loop of `rewriteSize`, for an instruction of the function, which may be a
new one. -/
theorem visit_spec (hI : I < P.insts.length → I ∈ P.instsOf G)
    (hs : Valid C (IsSizeCheck P) DL P Backedges entry F s)
    (hnew : NewCalls C P.insts.length s.prog) (h : visit C fuel s I = .ok s') :
    Does C DL P Backedges entry F s s' ∧
      (I < P.insts.length → Checked P I (LLVMSize ++ LinuxSize) s') := by
  have hext := hs.later.ext
  have hcalled : I < P.insts.length → s.prog.calledFunction I = P.calledFunction I := by
    intro hlt
    unfold Program.calledFunction
    rw [hext.inst I hlt]
  unfold visit at h
  cases hf : s.prog.calledFunction I with
  | none =>
    rw [hf] at h
    obtain rfl := Except.ok.inj h
    refine ⟨⟨.refl hs, hnew⟩, fun hlt NP hNP Arg w hsize => ?_⟩
    obtain ⟨g, hg, -⟩ := hsize.called
    rw [← hcalled hlt, hf] at hg
    cases hg
  | some f =>
    simp only [hf, hext.func] at h
    obtain ⟨s₁, h₁, h⟩ := bind_eq_ok.mp h
    rcases Nat.lt_or_ge I P.insts.length with hlt | hge
    · rw [hcalled hlt] at hf
      have hpoint : InsertionPoint P I := by
        refine insertionPoint_of_mem hP.toClosed (hI hlt) ?_
        unfold Program.calledFunction at hf
        split at hf
        · rename_i hop
          rw [hop]
          rfl
        · cases hf
      obtain ⟨hstep, hchecked⟩ := rewriteSizeAt_spec hentry hP hC hssa hord hpoint hs hnew hf
        (fun NP hNP => List.mem_append_left _ hNP) h₁
      obtain ⟨hstep', hchecked'⟩ := rewriteSizeAt_spec hentry hP hC hssa hord hpoint
        hstep.proceeds.valid hstep.calls hf (fun NP hNP => List.mem_append_right _ hNP) h
      exact ⟨hstep.trans hstep', fun _ => (hchecked.mono hstep'.proceeds.calls).append hchecked'⟩
    · -- a new instruction calls `int.sat`
      obtain rfl := hnew I f hge hf
      rw [hname] at h₁ h
      rw [rewriteSizeAt_eq fun NP hNP => int_sat_not_listed NP (List.mem_append_left _ hNP)] at h₁
      obtain rfl := Except.ok.inj h₁
      rw [rewriteSizeAt_eq fun NP hNP => int_sat_not_listed NP (List.mem_append_right _ hNP)] at h
      obtain rfl := Except.ok.inj h
      exact ⟨⟨.refl hs, hnew⟩, fun hlt => absurd hge (Nat.not_le.mpr hlt)⟩

theorem visit_run {is : List InstId} (his : ∀ I ∈ is, I < P.insts.length → I ∈ P.instsOf G)
    (hs : Valid C (IsSizeCheck P) DL P Backedges entry F s)
    (hnew : NewCalls C P.insts.length s.prog) (h : is.foldlM (visit C fuel) s = .ok s') :
    Does C DL P Backedges entry F s s' ∧
      ∀ I ∈ is, I < P.insts.length → Checked P I (LLVMSize ++ LinuxSize) s' := by
  induction is generalizing s with
  | nil =>
    obtain rfl := Except.ok.inj h
    exact ⟨⟨.refl hs, hnew⟩, nofun⟩
  | cons I is ih =>
    rw [List.foldlM_cons] at h
    obtain ⟨s₁, h₁, h⟩ := bind_eq_ok.mp h
    obtain ⟨hstep, hchecked⟩ :=
      visit_spec hentry hP hC hname hssa hord (his I List.mem_cons_self) hs hnew h₁
    obtain ⟨hrest, hcalls⟩ := ih (fun J hJ => his J (List.mem_cons_of_mem _ hJ))
      hstep.proceeds.valid hstep.calls h
    refine ⟨hstep.trans hrest, fun J hJ hlt => ?_⟩
    rcases List.mem_cons.mp hJ with rfl | hJ
    · exact (hchecked hlt).mono hrest.proceeds.calls
    · exact hcalls J hJ hlt

/-- What the pass does to a function. -/
theorem rewriteSize_spec (hs : Valid C (IsSizeCheck P) DL P Backedges entry F s)
    (hnew : NewCalls C P.insts.length s.prog) (h : rewriteSize C fuel s G = .ok s') :
    Does C DL P Backedges entry F s s' ∧
      ∀ I ∈ P.instsOf G, Checked P I (LLVMSize ++ LinuxSize) s' := by
  have hext := hs.later.ext
  obtain ⟨hdoes, hchecked⟩ := visit_run hentry hP hC hname hssa hord (G := G) (fun I hI hlt => by
    obtain ⟨b, hb, hmem⟩ := List.mem_flatMap.mp hI
    rw [hext.func] at hb
    exact List.mem_flatMap.mpr ⟨b, hb, hext.mem_insts_of_lt hlt hmem⟩) hs hnew h
  refine ⟨hdoes, fun I hI => ?_⟩
  obtain ⟨b, hb, hmem⟩ := List.mem_flatMap.mp hI
  have hlt := hP.blocks G b hb
  refine hchecked I ?_ (hP.insts b hlt I hmem)
  exact List.mem_flatMap.mpr ⟨b, (hext.func G).symm ▸ hb, hext.mem_insts hlt hmem⟩

theorem rewriteSize_run {Gs : List FuncId} (hs : Valid C (IsSizeCheck P) DL P Backedges entry F s)
    (hnew : NewCalls C P.insts.length s.prog) (h : Gs.foldlM (rewriteSize C fuel) s = .ok s') :
    Does C DL P Backedges entry F s s' ∧
      ∀ G ∈ Gs, ∀ I ∈ P.instsOf G, Checked P I (LLVMSize ++ LinuxSize) s' := by
  induction Gs generalizing s with
  | nil =>
    obtain rfl := Except.ok.inj h
    exact ⟨⟨.refl hs, hnew⟩, nofun⟩
  | cons G Gs ih =>
    rw [List.foldlM_cons] at h
    obtain ⟨s₁, h₁, h⟩ := bind_eq_ok.mp h
    obtain ⟨hstep, hchecked⟩ := rewriteSize_spec hentry hP hC hname hssa hord hs hnew h₁
    obtain ⟨hrest, hcalls⟩ := ih hstep.proceeds.valid hstep.calls h
    refine ⟨hstep.trans hrest, fun G' hG' => ?_⟩
    rcases List.mem_cons.mp hG' with rfl | hG'
    · exact fun I hI => (hchecked I hI).mono hrest.proceeds.calls
    · exact hcalls G' hG'

variable (DL Backedges) in
theorem runOnModule_spec (h : runOnModule C fuel P M = .ok s) :
    Valid C (IsSizeCheck P) DL P Backedges entry F s ∧ ∀ G ∈ M.functions,
      (P.func G).empty = false → ∀ I ∈ P.instsOf G, Checked P I (LLVMSize ++ LinuxSize) s := by
  have hrefl : Valid C (IsSizeCheck P) DL P Backedges entry F _ :=
    .refl hentry hP.toClosed hssa hord
  obtain ⟨hdoes, hchecked⟩ := rewriteSize_run hentry hP hC hname hssa hord
    (s := ⟨P, [], [], true⟩) ⟨hrefl.later, hrefl.instruments, nofun⟩ (fun i f hi hf => by
      unfold Program.calledFunction at hf
      rw [inst_of_le hi] at hf
      cases hf) h
  exact ⟨hdoes.proceeds.valid, fun G hG hempty => hchecked G (List.mem_filter.mpr ⟨hG, by
    rw [hempty]
    rfl⟩)⟩

/-- No function of the module does anything else after the pass: the runs of the functions
before and after it are the same, up to the new instructions. -/
theorem runOnModule_preserves (h : runOnModule C fuel P M = .ok s) (σ₀ : Assignment Value) :
    (∀ t, ForwardRuns DL s.prog Backedges (Means DL s.prog) entry σ₀ t →
      ∃ u, ForwardRuns DL P Backedges (Means DL P) entry σ₀ u ∧ Erased P t u) ∧
    ∀ u, ForwardRuns DL P Backedges (Means DL P) entry σ₀ u →
      ∃ t, ForwardRuns DL s.prog Backedges (Means DL s.prog) entry σ₀ t ∧ Erased P t u := by
  obtain ⟨hvalid, -⟩ := runOnModule_spec DL Backedges hentry hP hC hname hssa hord h
  exact ⟨fun t => hvalid.later.ext.erase_run hP.toClosed hssa hentry,
    fun u => hvalid.instruments.lifts σ₀ u⟩

variable (Backedges) in
/-- Each size that a call of the module passes is checked: there is a call of `int.sat` about
it whose point is the call itself, a run that comes to the call comes to that call of `int.sat`
first, in the same block and with the same values, and what `int.sat` gets is true if and only
if the size is negative. -/
theorem sizes_checked (h : runOnModule C fuel P M = .ok s) (hG : G ∈ M.functions)
    (hempty : (P.func G).empty = false) (hI : I ∈ P.instsOf G) (hsize : IsSize P I NP Arg w) :
    ∃ c ∈ s.calls, c.about = I ∧ c.point = I ∧
      (s.prog.inst c.call).op = .call (.func C.intSat) [c.cond] ∧
      (∀ σ₀ u, ForwardRuns DL P Backedges (Means DL P) entry σ₀ u → u.rest.head? = some I →
        ∃ t, ForwardRuns DL s.prog Backedges (Means DL s.prog) entry σ₀ t ∧ t.block = u.block ∧
          t.rest.head? = some c.call ∧ ∀ V, V.Old P → t.env V = u.env V) ∧
      ∀ σ₀ t, ForwardRuns DL s.prog Backedges (Means DL s.prog) entry σ₀ t →
        t.rest.head? = some c.call → ∃ x : BitVec w, current DL P t.env Arg = some ⟨w, x⟩ ∧
          current DL s.prog t.env c.cond = some (.ofBool (decide (x.toInt < 0))) := by
  obtain ⟨hvalid, hchecked⟩ := runOnModule_spec DL Backedges hentry hP hC hname hssa hord h
  obtain ⟨c, hc, habout, hpoint, hcheck⟩ :=
    hchecked G hG hempty I hI NP hsize.listed Arg w hsize
  have hcall := hvalid.calls c hc
  refine ⟨c, hc, habout, hpoint, hcall.op, fun σ₀ u hu hhead => ?_, fun σ₀ t ht hhead => ?_⟩
  · rw [← hpoint] at hhead
    exact hcall.comes σ₀ u hu hhead
  · obtain ⟨x, hx, heval⟩ := sizeCheck_exact hP hsize.ty t.env
    rw [← hcheck] at heval
    exact ⟨x, hx, hcall.value (checks_sizeCheck hP DL) hP.toClosed hssa hvalid.instruments ht hhead
      heval⟩

end Run

end Facts

/-! ## A copy -/

/-- `n` bytes are copied. -/
def copyProgram : Program where
  insts := [
    ⟨0, .other, .call (.func 8) [.argument 0 0, .argument 0 1, .argument 0 2], none, none⟩,
    ⟨0, .other, .ret none, none, none⟩]
  blocks := [⟨0, [0], 1, []⟩]
  funcs :=
    ⟨⟨"copy", .external, "a.c"⟩, false, [.ptr (.int 8), .ptr (.int 8), .int 32], .other, [0]⟩ ::
    sumProgram.funcs.tail ++
    [⟨⟨"memcpy", .external, "a.c"⟩, false, [.ptr (.int 8), .ptr (.int 8), .int 32], .other, []⟩]
  globals := []
  structs := []
  consts := []

def copyModule : Module := ⟨"a.c", [], [0, 1, 8]⟩

theorem copy_edge {Pred BB : BlockId} (h : Edge copyProgram Pred BB) : False := by
  rcases BB with - | BB <;> cases h

theorem copy_blocks {BB : BlockId} (h : Reachable copyProgram 0 BB) : BB = 0 := by
  cases h with
  | start _ => rfl
  | step _ hedge _ => exact (copy_edge hedge).elim

/-- There is a call, and nothing that is a binary operator or a phi node. -/
theorem copy_inst (i : InstId) :
    (∃ args, (copyProgram.inst i).op = .call (.func 8) args ∧ ∀ j, .inst j ∉ args) ∨
      (copyProgram.inst i).op = .ret none ∨ (copyProgram.inst i).op = .other [] := by
  rcases i with - | - | i
  · exact .inl ⟨_, rfl, by simp⟩
  · exact .inr (.inl rfl)
  · exact .inr (.inr rfl)

/-- No instruction is an operand. -/
theorem copy_operands {i j : InstId} (h : .inst j ∈ (copyProgram.inst i).op.operands) : False := by
  rcases copy_inst i with ⟨args, hop, hargs⟩ | hop | hop
  · rw [hop] at h
    rcases List.mem_append.mp h with h | h
    · exact hargs j h
    · cases List.mem_singleton.mp h
  · rw [hop] at h
    cases h
  · rw [hop] at h
    cases h

theorem copy_verified : Verified copyProgram where
  blocks F b hb := by
    have hlt : ∀ F < 9, ∀ b ∈ (copyProgram.func F).blocks, b < 1 := by decide
    by_cases hF : F < 9
    · exact hlt F hF b hb
    · simp [Program.func, copyProgram, sumProgram, Nat.not_lt.mp hF] at hb
  insts := by decide
  parent := by decide
  operands i j hj := (copy_operands hj).elim
  term := by decide
  binary i op L R hop := by
    rcases copy_inst i with ⟨args, hop', -⟩ | hop' | hop' <;> rw [hop'] at hop <;> cases hop
  gep c base idx ty hc := by cases c <;> cases hc

theorem copy_ssaForm : SSAForm copyProgram 0 0 where
  entry_block := rfl
  parent BB hBB := by rw [copy_blocks hBB]; rfl
  succ_iff_pred Pred BB := by
    refine ⟨fun h => ?_, fun h => (copy_edge h).elim⟩
    rcases Pred with - | Pred <;> cases h
  inst_parent BB hBB := copy_verified.parent BB (by rw [copy_blocks hBB]; decide)
  constant c V hV := by cases c <;> cases hV
  use BB hBB i hi hphi V hV := by
    rintro j rfl
    exact (copy_operands hV).elim
  incoming BB hBB i hi incoming hop := by
    rcases copy_inst i with ⟨args, hop', -⟩ | hop' | hop' <;> rw [hop'] at hop <;> cases hop

theorem copy_orderedUses : OrderedUses copyProgram 0 :=
  orderedUses_of fun BB hBB => by
    obtain rfl := copy_blocks hBB
    decide

theorem copy_sound : sumConfig.toCompiler.Sound fieldLayout copyProgram where
  constant _ _ _ h := by cases h
  operand _ _ _ h := by cases h
  value _ _ _ h := by cases h
  intrinsic op w := by
    have hfunc : ∀ f ∈ [2, 3, 4, 5, 6, 7], copyProgram.func f = sumProgram.func f := by
      decide +kernel
    rw [hfunc (sumConfig.intrinsic op w) (by cases op <;> simp [sumConfig])]
    exact sum_sound.intrinsic op w

/-- There is one size, of which a comparison and a call of `int.sat` tell whether it is
negative. -/
theorem copy_runs : ∃ s, runOnModule sumConfig.toCompiler 8 copyProgram copyModule = .ok s ∧
    s.calls.map (fun c => (c.call, c.about, c.point, c.cond)) = [(3, 0, 0, .inst 2)] :=
  ⟨_, rfl, rfl⟩

/-- A run comes to the call of `memcpy`, and goes on. -/
theorem copy_run (σ : Assignment Value) : ForwardRuns fieldLayout copyProgram []
    (Means fieldLayout copyProgram) 0 σ ⟨0, [1], σ⟩ :=
  .single ⟨.exec (fun x hx => by cases hx) fun _ _ => rfl, nofun⟩

/-- The run goes through the instrumented function, too. -/
theorem copy_preserves : ∃ s, runOnModule sumConfig.toCompiler 8 copyProgram copyModule = .ok s ∧
    ∀ σ, ∃ t, ForwardRuns fieldLayout s.prog [] (Means fieldLayout s.prog) 0 σ t ∧
      Erased copyProgram t ⟨0, [1], σ⟩ := by
  obtain ⟨s, hs, -⟩ := copy_runs
  refine ⟨s, hs, fun σ => ?_⟩
  obtain ⟨-, hlifts⟩ := runOnModule_preserves (by decide) copy_verified copy_sound rfl
    copy_ssaForm copy_orderedUses hs σ
  exact hlifts _ (copy_run σ)

/-- When the size is `-1`, the call of `int.sat` in front of `memcpy` tells of it. -/
theorem copy_checked : ∃ s, runOnModule sumConfig.toCompiler 8 copyProgram copyModule = .ok s ∧
    ∃ c ∈ s.calls, ∃ t, ForwardRuns fieldLayout s.prog [] (Means fieldLayout s.prog) 0
      (fun _ w => BitVec.allOnes w) t ∧ t.rest.head? = some c.call ∧
        current fieldLayout s.prog t.env c.cond = some (.ofBool true) := by
  obtain ⟨s, hs, -⟩ := copy_runs
  have hsize : IsSize copyProgram 0 ⟨"memcpy", 2⟩ (.argument 0 2) 32 :=
    ⟨by decide +kernel, ⟨8, rfl, rfl⟩, rfl, rfl⟩
  obtain ⟨c, hc, -, -, -, hcomes, hexact⟩ := sizes_checked [] (by decide) copy_verified copy_sound
    rfl copy_ssaForm copy_orderedUses hs (G := 0) (by decide) rfl (by decide) hsize
  obtain ⟨t, ht, -, hhead, henv⟩ := hcomes (fun _ w => BitVec.allOnes w) ⟨0, [0, 1], _⟩ .refl rfl
  obtain ⟨x, hx, hcond⟩ := hexact _ t ht hhead
  have hval : current fieldLayout copyProgram t.env (.argument 0 2) =
      some ⟨32, BitVec.allOnes 32⟩ := by
    rw [(Extends.refl copy_verified.toClosed).current copy_ssaForm.constant henv
      (Value.old_of_ne_inst fun _ h => by cases h)]
    exact meaning_eq_some.mpr ⟨1, value_eq_some.mpr ⟨rfl, rfl⟩⟩
  obtain rfl := eq_of_heq (APInt.mk.inj (Option.some.inj (hx.symm.trans hval))).2
  exact ⟨s, hs, c, hc, t, ht, hhead, hcond⟩

end Kint.IntLibcalls
