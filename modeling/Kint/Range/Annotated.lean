import Mathlib.Tactic.IntervalCases
import Kint.Range.Execution
import Kint.Range.Forms

/-!
# What the metadata promises

After a run of the range pass, `intrange` metadata stands on loads and calls, and the solver
takes it for a fact.  It is one for the values that the analysis follows: whenever an annotated
instruction produces a value that a followed write has put under its identifier, the bounds have
the width of the value and allow it (`annotated_sound`).

For other values it is none (`sensor_excludes`).  The analysis leaves out what an unknown
function returns, what a loop carries over its back edge, what it has no operator for, and what
is stored through a pointer without an identifier; in each case a load gets metadata that
excludes what the load produces.

## Main results

* `annotated_sound`: soundness for followed values, in every execution of the linked program.
* `sensor_allows`, `sensor_excludes`: one program with a load for each case.
* `forward_needed`, `entered_needed`, `untested_needed`, `uniform_needed`: each condition of
  `annotated_sound` on blocks, arguments and identifiers rules out a program for which the
  metadata excludes a value although all other conditions hold.
-/

namespace Kint.Range

open Iteration

/-! ## The metadata -/

section Execution

variable {L : Library} {P : Program} {callees : CalleeMap} {taints : TaintMap}
  {modules : List Module} {globalAddress : GlobalId → ℕ} {fuel : ℕ} {r : Report State Event}
  {s s' : MachineState}

/-- Whenever an annotated instruction produces a value that is written under its identifier, the
bounds have the width of the value, and the metadata allows it. -/
theorem annotated_sound (hL : L.ranges.UnionLaws) (hW : L.ranges.WidthLaws)
    (hS : L.ranges.SoundLaws) (hP : WellTyped P) (hforms : WellFormed L P modules)
    (hrun : (rangePass L P callees taints).run fuel modules .init = .ok r)
    (hs : Runs L P callees taints modules globalAddress s) {i : InstId} {x lo hi : APInt}
    (hstep : Step L P callees taints modules globalAddress s (some (i, x)) s')
    (hmd : (i, some (lo, hi)) ∈ annotations r.trace)
    (hx : s'.written (getValueId L P (.inst i)) x) :
    lo.width = x.width ∧ hi.width = x.width ∧ Allows (lo, hi) x.toNat := by
  have hm := run_final hL hW hP hrun
  have hsound := (hs.sound hL hW hS hP hforms hm).step hL hW hS hP hforms hm hstep
  exact hsound.allows (run_metadata hrun (mem_annotations.mp hmd)).symm hx

end Execution

/-! ## A program with one variable for each case -/

/-- Four variables, each with a function that returns it.  `fetch` stores what an unknown
function returns, `count` stores the rounds of a loop, `spread` a remainder, and `poke`
stores through a pointer that has no identifier. -/
def sensorProgram : Program where
  insts := [
    ⟨0, .int 32, .call (.func 8) [], none, none⟩,
    ⟨0, .other, .store (.inst 0) (.global 0), some "var.limit", none⟩,
    ⟨0, .other, .ret none, none, none⟩,
    ⟨1, .int 32, .load (.global 0) false, some "var.limit", none⟩,
    ⟨1, .other, .ret (some (.inst 3)), none, none⟩,
    ⟨2, .other, .br 3, none, none⟩,
    ⟨3, .int 32, .phi [(.constInt (.ofNat 32 0), 2), (.inst 8, 3)], none, none⟩,
    ⟨3, .other, .store (.inst 6) (.global 1), some "var.rounds", none⟩,
    ⟨3, .int 32, .binary .add (.inst 6) (.constInt (.ofNat 32 1)), none, none⟩,
    ⟨3, .other, .br 3, none, none⟩,
    ⟨4, .int 32, .load (.global 1) false, some "var.rounds", none⟩,
    ⟨4, .other, .ret (some (.inst 10)), none, none⟩,
    ⟨5, .int 32, .binary .urem (.argument 4 0) (.constInt (.ofNat 32 4)), none, none⟩,
    ⟨5, .other, .store (.inst 12) (.global 2), some "var.bucket", none⟩,
    ⟨5, .other, .ret none, none, none⟩,
    ⟨6, .int 32, .load (.global 2) false, some "var.bucket", none⟩,
    ⟨6, .other, .ret (some (.inst 15)), none, none⟩,
    ⟨7, .other, .store (.constInt (.ofNat 32 9)) (.argument 6 0), none, none⟩,
    ⟨7, .other, .ret none, none, none⟩,
    ⟨8, .int 32, .load (.global 3) false, some "var.mode", none⟩,
    ⟨8, .other, .ret (some (.inst 19)), none, none⟩]
  blocks := [⟨0, [0, 1], 2, []⟩, ⟨1, [3], 4, []⟩, ⟨2, [], 5, []⟩, ⟨2, [6, 7, 8], 9, [2, 3]⟩,
    ⟨3, [10], 11, []⟩, ⟨4, [12, 13], 14, []⟩, ⟨5, [15], 16, []⟩, ⟨6, [17], 18, []⟩,
    ⟨7, [19], 20, []⟩]
  funcs := [⟨⟨"fetch", .external, "a.c"⟩, false, [], .other, [0]⟩,
    ⟨⟨"get_limit", .external, "a.c"⟩, false, [], .int 32, [1]⟩,
    ⟨⟨"count", .external, "a.c"⟩, false, [], .other, [2, 3]⟩,
    ⟨⟨"get_rounds", .external, "a.c"⟩, false, [], .int 32, [4]⟩,
    ⟨⟨"spread", .external, "a.c"⟩, false, [.int 32], .other, [5]⟩,
    ⟨⟨"get_bucket", .external, "a.c"⟩, false, [], .int 32, [6]⟩,
    ⟨⟨"poke", .external, "a.c"⟩, false, [.ptr (.int 32)], .other, [7]⟩,
    ⟨⟨"get_mode", .external, "a.c"⟩, false, [], .int 32, [8]⟩,
    ⟨⟨"read_limit", .external, "a.c"⟩, false, [], .int 32, []⟩]
  globals := [⟨⟨"limit", .external, "a.c"⟩, .int 32, some (.int (.ofNat 32 5))⟩,
    ⟨⟨"rounds", .external, "a.c"⟩, .int 32, none⟩,
    ⟨⟨"bucket", .external, "a.c"⟩, .int 32, some (.int (.ofNat 32 4))⟩,
    ⟨⟨"mode", .external, "a.c"⟩, .int 32, some (.int (.ofNat 32 5))⟩]
  structs := []
  consts := []

/-- The module of `sensorProgram`. -/
def sensorModules : List Module := [⟨"a.c", [0, 1, 2, 3], [0, 1, 2, 3, 4, 5, 6, 7, 8]⟩]

section Sensor

variable {callees : CalleeMap} {taints : TaintMap}

/-- The executions of `sensorProgram`, the variables at the addresses `0` to `3`. -/
abbrev SensorRuns (callees : CalleeMap) (taints : TaintMap) : MachineState → Prop :=
  Runs .reference sensorProgram callees taints sensorModules id

/-- The initial values of the variables. -/
def sensorMem : ℕ → ℕ → ℕ := fun g _ => [5, 0, 4, 5].getD g 0

theorem sensor_init : SensorRuns callees taints
    ⟨[], sensorMem, Initial .reference sensorProgram callees sensorModules⟩ :=
  ⟨_, .refl⟩

/-- The unknown function returns 9, which `fetch` stores. -/
theorem fetch_run : ∃ s, SensorRuns callees taints s ∧ s.mem 0 32 = 9 := by
  have h₀ : SensorRuns callees taints _ := sensor_init
  have h₁ := h₀.step (.init List.mem_cons_self (show 0 ∈ _ by decide) rfl
    (fun _ => .ofNat 32 0) (fun _ => 0) _)
  have h₂ := h₁.step (.next 0 rfl rfl (.ofNat 32 9) sensorMem
    (by rintro _ ⟨⟩; exact ⟨rfl, trivial⟩) trivial)
  have h₃ := h₂.step (.next 1 rfl rfl (.ofNat 32 0) (Function.update sensorMem 0 fun _ => 9)
    nofun (by rintro _ ⟨⟩; exact ⟨_, rfl, rfl⟩))
  exact ⟨_, h₃, rfl⟩

/-- `spread` is called with 5. -/
theorem spread_run : ∃ s, SensorRuns callees taints s ∧ s.mem 2 32 = 1 := by
  have h₀ : SensorRuns callees taints _ := sensor_init
  have h₁ := h₀.step (.init List.mem_cons_self (show 4 ∈ _ by decide) rfl
    (fun _ => .ofNat 32 5) (fun _ => 0) _)
  have h₂ := h₁.step (.next 12 rfl rfl (.ofNat 32 1) sensorMem
    (by rintro _ ⟨⟩; exact ⟨rfl, _, _, rfl, rfl, by decide⟩) rfl)
  have h₃ := h₂.step (.next 13 rfl rfl (.ofNat 32 0) (Function.update sensorMem 2 fun _ => 1)
    nofun (by rintro _ ⟨⟩; exact ⟨_, rfl, rfl⟩))
  exact ⟨_, h₃, rfl⟩

/-- `poke` is called with the address of `mode`. -/
theorem poke_run : ∃ s, SensorRuns callees taints s ∧ s.mem 3 32 = 9 := by
  have h₀ : SensorRuns callees taints _ := sensor_init
  have h₁ := h₀.step (.init List.mem_cons_self (show 6 ∈ _ by decide) rfl
    (fun _ => .ofNat 32 0) (fun _ => 3) _)
  have h₂ := h₁.step (.next 17 rfl rfl (.ofNat 32 0) (Function.update sensorMem 3 fun _ => 9)
    nofun (by rintro _ ⟨⟩; exact ⟨_, rfl, rfl⟩))
  exact ⟨_, h₂, rfl⟩

/-- The activation of `count` in the loop with the value `x` for the round. -/
def Activation.round (A : Activation) (x : APInt) (follows : Prop) : Activation :=
  ⟨2, 3, [7, 8, 9], Function.update A.ints (.inst 6) x, A.addrs,
    fun V => V = .inst 6 ∧ follows⟩

/-- `count` enters the next round with the value that comes in. -/
theorem enters_round {A : Activation} {V : Value} {x : APInt} {follows : Prop}
    (hF : A.function = 2) (hV : incomingValue? [(.constInt (.ofNat 32 0), 2), (.inst 8, 3)]
      A.block = some V) (hx : A.HasInt sensorProgram V x)
    (hfollows : follows → isBackEdge (findBackedges sensorProgram 2) (A.block, 3) = false ∧
      A.Follows V) : Enters .reference sensorProgram A (A.round x follows) 3 := by
  have hphi : phiNodes sensorProgram 3 = [6] := rfl
  refine ⟨hF.symm, rfl, rfl, ?_, ?_, ?_⟩
  · rw [hphi]
    rintro i hi incoming V' w hop hV' -
    obtain rfl := List.mem_singleton.mp hi
    obtain rfl := Opcode.phi.inj hop
    obtain rfl := Option.some.inj (hV.symm.trans hV')
    show A.HasInt sensorProgram V (Function.update A.ints (.inst 6) x (.inst 6))
    rwa [Function.update_self]
  · rw [hphi]
    rintro i hi ⟨-, hfol⟩
    obtain rfl := List.mem_singleton.mp hi
    rw [hF]
    exact ⟨(hfollows hfol).1, _, V, 32, rfl, hV, rfl, (hfollows hfol).2⟩
  · intro V' hV'
    have hne : V' ≠ .inst 6 := hV' 6 (hphi ▸ List.mem_cons_self)
    exact ⟨Function.update_of_ne hne _ _, rfl, fun h => absurd h.1 hne⟩

/-- In the first round of `count`, the value 0 is followed. -/
theorem first_round : ∃ A W,
    SensorRuns callees taints ⟨[Activation.round A (.ofNat 32 0) True], sensorMem, W⟩ := by
  have h₀ : SensorRuns callees taints _ := sensor_init
  have h₁ := h₀.step (.init List.mem_cons_self (show 2 ∈ _ by decide) rfl
    (fun _ => .ofNat 32 0) (fun _ => 0) _)
  have h₂ := h₁.step (.next 5 rfl rfl (.ofNat 32 0) _ nofun rfl)
  exact ⟨_, _, h₂.step (.enter _ 0 rfl rfl rfl trivial
    (enters_round rfl rfl rfl fun _ => ⟨by decide, trivial⟩))⟩

/-- `count` stores 1 in the second round. -/
theorem second_round : ∃ s, SensorRuns callees taints s ∧ s.mem 1 32 = 1 := by
  obtain ⟨A, W, h₀⟩ : ∃ A W, SensorRuns callees taints
      ⟨[Activation.round A (.ofNat 32 0) True], sensorMem, W⟩ := first_round
  have h₁ := h₀.step (.next 7 rfl rfl (.ofNat 32 0) (Function.update sensorMem 1 fun _ => 0)
    nofun (by rintro _ ⟨⟩; exact ⟨_, rfl, rfl⟩))
  have h₂ := h₁.step (.next 8 rfl rfl (.ofNat 32 1) _
    (by rintro _ ⟨⟩; exact ⟨rfl, _, _, rfl, rfl, rfl⟩) rfl)
  have h₃ := h₂.step (.next 9 rfl rfl (.ofNat 32 0) _ nofun rfl)
  have h₄ := h₃.step (.enter _ 0 rfl rfl rfl trivial
    (enters_round rfl rfl rfl False.elim))
  have h₅ := h₄.step (.next 7 rfl rfl (.ofNat 32 0) (Function.update sensorMem 1 fun _ => 1)
    nofun (by rintro _ ⟨⟩; exact ⟨_, rfl, rfl⟩))
  exact ⟨_, h₅, rfl⟩

/-- A load at the beginning of a function, after an execution that has left `n` in the
variable. -/
theorem sensor_load {F : FuncId} {BB : BlockId} {i : InstId} {rest : List InstId} {g : GlobalId}
    {v : Bool} {n : ℕ} (h : ∃ s, SensorRuns callees taints s ∧ s.mem g 32 = n)
    (hF : F ∈ [0, 1, 2, 3, 4, 5, 6, 7, 8]) (hblock : (sensorProgram.func F).blocks.head? = some BB)
    (hrest : afterPhis sensorProgram BB = i :: rest)
    (hop : (sensorProgram.inst i).op = .load (.global g) v)
    (hty : (sensorProgram.inst i).ty = .int 32) :
    ∃ s s', SensorRuns callees taints s ∧
      Step .reference sensorProgram callees taints sensorModules id s (some (i, .ofNat 32 n))
        s' := by
  obtain ⟨s, hs, rfl⟩ := h
  obtain ⟨s₁, s₂, hs₁, hstep, -⟩ := hs.loads List.mem_cons_self hF hblock hrest hop hty
  exact ⟨s₁, s₂, hs₁, hstep⟩

end Sensor

/-! ## The conditions hold -/

theorem sensor_typed : WellTyped sensorProgram := by
  refine wellTyped_of_lt (n := 21) rfl fun i hi => ?_
  have hphi : InstTyped sensorProgram 6 := by
    show ∀ e ∈ [(Value.constInt (.ofNat 32 0), 2), (.inst 8, 3)],
      sensorProgram.typeOf e.1 = .int 32
    decide
  interval_cases i <;> trivial

theorem sensor_edges (Pred BB : BlockId) :
    BB ∈ (sensorProgram.inst (sensorProgram.block Pred).term).op.successors ↔
      Pred ∈ (sensorProgram.block BB).preds :=
  succ_iff_pred_of_lt rfl (by decide) (by decide) (by decide) Pred BB

/-- All integers of `sensorProgram` have 32 bits. -/
theorem sensor_widths {callees : CalleeMap} {sID : String} {w : ℕ}
    (h : Written .reference sensorProgram callees sensorModules sID w) : w = 32 :=
  width_of_writtenTypes (by decide) (by decide) h

/-- The function with the loop. -/
theorem count_forms : SSAForm sensorProgram 2 2 ∧ Layout .reference sensorProgram 2 2 := by
  have hreach : ∀ BB, Kint.Reachable sensorProgram 2 BB → BB ∈ [2, 3] := fun BB h =>
    mem_of_reachable sensor_edges (by decide) (by decide) h
  have hparent : ∀ BB ∈ [2, 3], ∀ i ∈ (sensorProgram.block BB).insts,
      (sensorProgram.inst i).parent = BB := by decide
  have huse : ∀ BB ∈ [2, 3], UsesKnown sensorProgram [] BB := by decide
  refine ⟨⟨rfl, by decide, hreach, sensor_edges, hparent, by decide, by decide, ?_, ?_⟩,
    by decide⟩
  · intro BB hBB pre i post hinsts hphi V hV
    exact (huse BB (hreach BB hBB)).availableAt (hparent BB (hreach BB hBB)) nofun hinsts hphi hV
  · intro BB hBB i hi incoming hop V Pred hV j hj
    subst hj
    obtain rfl | rfl : BB = 2 ∨ BB = 3 := by simpa using hreach BB hBB
    · cases hi
    · obtain rfl : i = 6 := List.mem_singleton.mp hi
      obtain rfl := Opcode.phi.inj hop
      obtain ⟨rfl, rfl⟩ : j = 8 ∧ Pred = 3 := by simpa using hV
      exact .inl (by decide)

/-- The functions have the form of the compiler. -/
theorem sensor_forms : WellFormed .reference sensorProgram sensorModules := by
  intro M hM F hF hne
  obtain rfl := List.mem_singleton.mp hM
  have hblock : ∀ BB, (sensorProgram.func F).blocks = [BB] →
      (sensorProgram.inst (sensorProgram.block BB).term).op.successors = [] →
      (sensorProgram.block BB).preds = [] → (∀ i ∈ (sensorProgram.block BB).insts,
        (sensorProgram.inst i).parent = BB ∧ (sensorProgram.inst i).op.isPhi = false) →
      (sensorProgram.block BB).insts.Nodup → UsesKnown sensorProgram [] BB →
      ∃ entry, SSAForm sensorProgram F entry ∧ Layout .reference sensorProgram F entry :=
    fun BB h₁ h₂ h₃ h₄ h₅ h₆ => ⟨BB, forms_of_block h₁ sensor_edges h₂ h₃ h₄ h₅ h₆⟩
  simp only [List.mem_cons, List.not_mem_nil, or_false] at hF
  rcases hF with rfl | rfl | rfl | rfl | rfl | rfl | rfl | rfl | rfl
  · exact hblock 0 rfl rfl rfl (by decide) (by decide) (by decide)
  · exact hblock 1 rfl rfl rfl (by decide) (by decide) (by decide)
  · exact ⟨2, count_forms⟩
  · exact hblock 4 rfl rfl rfl (by decide) (by decide) (by decide)
  · exact hblock 5 rfl rfl rfl (by decide) (by decide) (by decide)
  · exact hblock 6 rfl rfl rfl (by decide) (by decide) (by decide)
  · exact hblock 7 rfl rfl rfl (by decide) (by decide) (by decide)
  · exact hblock 8 rfl rfl rfl (by decide) (by decide) (by decide)
  · cases hne

/-- What `count` stores in the first round is allowed by the metadata of the load. -/
theorem sensor_allows : ∃ out lo hi s s', mainWorkflow .reference sensorProgram 6 sensorModules =
      .ok out ∧
    SensorRuns out.callGraph.callees out.taints s ∧
    Step .reference sensorProgram out.callGraph.callees out.taints sensorModules id s
      (some (10, .ofNat 32 0)) s' ∧
    (10, some (lo, hi)) ∈ annotations out.ranges.trace ∧
    s'.written "var.rounds" (.ofNat 32 0) ∧
    lo.width = 32 ∧ hi.width = 32 ∧ Allows (lo, hi) (APInt.ofNat 32 0).toNat := by
  have hrun : resultIs (mainWorkflow .reference sensorProgram 6 sensorModules) (fun out =>
      decide ((10, some (.ofNat 32 0, .ofNat 32 1)) ∈ annotations out.ranges.trace)) = true := by
    decide +kernel
  obtain ⟨out, hout, hrun⟩ := of_resultIs hrun
  have hmd := of_decide_eq_true hrun
  obtain ⟨A, W, h₀⟩ : ∃ A W, SensorRuns out.callGraph.callees out.taints
      ⟨[Activation.round A (.ofNat 32 0) True], sensorMem, W⟩ := first_round
  have h₁ := h₀.step (.next 7 rfl rfl (.ofNat 32 0) (Function.update sensorMem 1 fun _ => 0)
    nofun (by rintro _ ⟨⟩; exact ⟨_, rfl, rfl⟩))
  obtain ⟨s, s', hs, hstep, hkept⟩ := h₁.loads List.mem_cons_self (show 3 ∈ _ by decide) rfl rfl
    rfl rfl
  have hID : getValueId .reference sensorProgram (.inst 7) = "var.rounds" := by decide
  have hx : s'.written "var.rounds" (.ofNat 32 0) := by
    refine hkept _ _ (.inr ⟨⟨32, fun w => sensor_widths⟩, ?_⟩)
    rw [← hID]
    exact .store rfl rfl (by rw [hID]; decide) ⟨rfl, trivial⟩ rfl
  refine ⟨out, _, _, s, s', hout, hs, hstep, hmd, hx, ?_⟩
  exact annotated_sound RangeOps.reference_unionLaws RangeOps.reference_widthLaws
    RangeOps.reference_soundLaws sensor_typed sensor_forms (mainWorkflow_ranges hout) hs hstep
    hmd hx

/-- The metadata of each load excludes a value that the load produces. -/
theorem sensor_excludes : ∃ out,
    mainWorkflow .reference sensorProgram 6 sensorModules = .ok out ∧
    ∀ i ∈ [3, 10, 15, 19], ∃ s s' x range,
      SensorRuns out.callGraph.callees out.taints s ∧
      Step .reference sensorProgram out.callGraph.callees out.taints sensorModules id s
        (some (i, x)) s' ∧
      (i, some range) ∈ annotations out.ranges.trace ∧ ¬ Allows range x.toNat := by
  have hrun : resultIs (mainWorkflow .reference sensorProgram 6 sensorModules) (fun out =>
      decide ((3, some (.ofNat 32 5, .ofNat 32 6)) ∈ annotations out.ranges.trace ∧
        (10, some (.ofNat 32 0, .ofNat 32 1)) ∈ annotations out.ranges.trace ∧
        (15, some (.ofNat 32 4, .ofNat 32 5)) ∈ annotations out.ranges.trace ∧
        (19, some (.ofNat 32 5, .ofNat 32 6)) ∈ annotations out.ranges.trace)) = true := by
    decide +kernel
  obtain ⟨out, hout, hrun⟩ := of_resultIs hrun
  obtain ⟨hlimit, hrounds, hbucket, hmode⟩ := of_decide_eq_true hrun
  refine ⟨out, hout, fun i hi => ?_⟩
  simp only [List.mem_cons, List.not_mem_nil, or_false] at hi
  rcases hi with rfl | rfl | rfl | rfl
  · obtain ⟨s, s', hs, hstep⟩ := sensor_load fetch_run (F := 1) (by decide) rfl rfl rfl rfl
    exact ⟨s, s', _, _, hs, hstep, hlimit, by decide⟩
  · obtain ⟨s, s', hs, hstep⟩ := sensor_load second_round (F := 3) (by decide) rfl rfl rfl rfl
    exact ⟨s, s', _, _, hs, hstep, hrounds, by decide⟩
  · obtain ⟨s, s', hs, hstep⟩ := sensor_load spread_run (F := 5) (by decide) rfl rfl rfl rfl
    exact ⟨s, s', _, _, hs, hstep, hbucket, by decide⟩
  · obtain ⟨s, s', hs, hstep⟩ := sensor_load poke_run (F := 7) (by decide) rfl rfl rfl rfl
    exact ⟨s, s', _, _, hs, hstep, hmode, by decide⟩

/-! ## What the conditions are for -/

/-- Some execution loads a value that was written under `sID` and that the metadata excludes. -/
def Excludes (P : Program) (callees : CalleeMap) (modules : List Module) (sID : String) : Prop :=
  ∃ r s s' i x range, (rangePass .reference P callees .init).run 4 modules .init = .ok r ∧
    Runs .reference P callees .init modules id s ∧
    Step .reference P callees .init modules id s (some (i, x)) s' ∧ s'.written sID x ∧
    (i, some range) ∈ annotations r.trace ∧ ¬ Allows range x.toNat

/-- `get_out` returns the variable `out`; `set_out`, which has the blocks of `order`, stores to it.
The variable `in` is 50. -/
def outProgram (insts : List Instruction) (blocks : List BasicBlock) (order : List BlockId)
    (callers : List Function) : Program where
  insts := [
    ⟨0, .int 8, .load (.global 0) false, some "var.out", none⟩,
    ⟨0, .other, .ret (some (.inst 0)), none, none⟩] ++ insts
  blocks := ⟨0, [0], 1, []⟩ :: blocks
  funcs := [⟨⟨"get_out", .external, "a.c"⟩, false, [], .int 8, [0]⟩,
    ⟨⟨"set_out", .external, "a.c"⟩, false, [.int 8], .other, order⟩] ++ callers
  globals := [⟨⟨"out", .external, "a.c"⟩, .int 8, some (.int (.ofNat 8 0))⟩,
    ⟨⟨"in", .external, "a.c"⟩, .int 8, some (.int (.ofNat 8 50))⟩]
  structs := []
  consts := []

/-- The module of an `outProgram`. -/
def outModules (callers : List FuncId) : List Module := [⟨"a.c", [0, 1], [0, 1] ++ callers⟩]

section Out

variable {P : Program} {callees : CalleeMap} {functions : List FuncId} {s : MachineState}

/-- Once `out` is 50, the metadata of its load in `get_out`, which allows 0 only, excludes a
value. -/
theorem excludes_of_runs {sID : String}
    (hrun : resultIs ((rangePass .reference P callees .init).run 4 [⟨"a.c", [0, 1], functions⟩]
      .init) (fun r => decide ((0, some (.ofNat 8 0, .ofNat 8 1)) ∈ annotations r.trace)) = true)
    (hs : Runs .reference P callees .init [⟨"a.c", [0, 1], functions⟩] id s)
    (hF : 0 ∈ functions) (hblock : (P.func 0).blocks.head? = some 0)
    (hrest : afterPhis P 0 = [0, 1]) (hop : (P.inst 0).op = .load (.global 0) false)
    (hty : (P.inst 0).ty = .int 8) (hmem : s.mem 0 8 = 50) (hx : s.written sID (.ofNat 8 50)) :
    Excludes P callees [⟨"a.c", [0, 1], functions⟩] sID := by
  obtain ⟨r, hr, hrun⟩ := of_resultIs hrun
  obtain ⟨s₁, s₂, hs₁, hstep, hkept⟩ := hs.loads List.mem_cons_self hF hblock hrest hop hty
  rw [show s.mem (id 0) 8 = 50 from hmem] at hstep
  exact ⟨r, s₁, s₂, 0, _, _, hr, hs₁, hstep, hkept _ _ hx, of_decide_eq_true hrun, by decide⟩

end Out

/-- The block that stores stands before the one that it is entered from. -/
abbrev laterProgram : Program := outProgram
  [⟨1, .int 8, .other [], none, none⟩,
    ⟨1, .other, .br 2, none, none⟩,
    ⟨2, .other, .br 3, none, none⟩,
    ⟨3, .other, .store (.inst 2) (.global 0), some "var.out", none⟩,
    ⟨3, .other, .ret none, none, none⟩]
  [⟨1, [2], 3, []⟩, ⟨1, [], 4, [1]⟩, ⟨1, [5], 6, [2]⟩] [1, 3, 2] []

/-- Edges must lead to later blocks: the visit of the block that stores finds nothing about the
value in the map of its predecessor. -/
theorem forward_needed : WellTyped laterProgram ∧ (∀ F ∈ [0, 1], SSAForm laterProgram F F) ∧
    Layout .reference laterProgram 0 0 ∧
    (∀ BB ∈ (laterProgram.func 1).blocks, BB ≠ 1 → ∃ Pred ∈ (laterProgram.block BB).preds,
      isBackEdge (findBackedges laterProgram 1) (Pred, BB) = false) ∧
    Excludes laterProgram (fun _ => none) (outModules []) "var.out" := by
  have hedges := succ_iff_pred_of_lt (P := laterProgram) rfl (by decide) (by decide) (by decide)
  refine ⟨wellTyped_of_lt (n := 7) rfl fun i hi => by interval_cases i <;> trivial, ?_, by decide,
    by decide, ?_⟩
  · rintro F hF
    obtain rfl | rfl : F = 0 ∨ F = 1 := by simpa using hF
    · exact ssaForm_of_usesKnown [0] rfl (by decide) hedges (by decide) (by decide) (by decide)
        (by decide) (by decide) (by decide)
    · exact ssaForm_of_usesKnown [1, 2, 3] rfl (by decide) hedges (by decide) (by decide)
        (by decide) (by decide) (by decide) (by decide)
  · have h₀ : Runs .reference laterProgram (fun _ => none) .init (outModules []) id _ :=
      ⟨fun _ _ => 0, .refl⟩
    have h₁ := h₀.step (.init List.mem_cons_self (show 1 ∈ _ by decide) rfl
      (fun _ => .ofNat 8 0) (fun _ => 0) _)
    have h₂ := h₁.step (.follow 2 rfl rfl (.ofNat 8 50) (fun _ _ => 0)
      (by rintro _ ⟨⟩; exact ⟨rfl, trivial⟩) ⟨rfl, trivial⟩ trivial)
    have h₃ := (h₂.step (.next 3 rfl rfl (.ofNat 8 0) _ nofun rfl)).step
      (.goto 2 0 rfl rfl rfl trivial rfl)
    have h₄ := (h₃.step (.next 4 rfl rfl (.ofNat 8 0) _ nofun rfl)).step
      (.goto 3 0 rfl rfl rfl trivial rfl)
    have h₅ := h₄.step (.next 5 rfl rfl (.ofNat 8 0) (fun _ _ => 50) nofun
      (by rintro _ ⟨⟩; exact ⟨_, rfl, rfl⟩))
    refine excludes_of_runs (by decide +kernel) h₅ (by decide) rfl rfl rfl rfl rfl ?_
    refine .inr ⟨⟨8, fun w => width_of_writtenTypes (by decide) (by decide)⟩, ?_⟩
    have hID : getValueId .reference laterProgram (.inst 5) = "var.out" := by decide
    rw [← hID]
    exact .store rfl rfl (by rw [hID]; decide) trivial rfl

/-- Nothing leads to the block that tests the loaded value. -/
abbrev unenteredProgram : Program := outProgram
  [⟨1, .other, .br 3, none, none⟩,
    ⟨2, .int 1, .icmp .ult (.inst 5) (.constInt (.ofNat 8 10)), none, none⟩,
    ⟨2, .other, .condBr (.inst 3) 3 4, none, none⟩,
    ⟨3, .int 8, .load (.global 1) false, some "var.in", none⟩,
    ⟨3, .other, .store (.inst 5) (.global 0), some "var.out", none⟩,
    ⟨3, .other, .ret none, none, none⟩,
    ⟨4, .other, .ret none, none, none⟩]
  [⟨1, [], 2, []⟩, ⟨1, [3], 4, []⟩, ⟨1, [5, 6], 7, [1, 2]⟩, ⟨1, [], 8, [2]⟩] [1, 2, 3, 4] []

/-- Every block must have an edge to it: what a block that never runs tests restricts the values
in the blocks behind it. -/
theorem entered_needed : WellTyped unenteredProgram ∧
    (∀ F ∈ [0, 1], SSAForm unenteredProgram F F) ∧ Layout .reference unenteredProgram 0 0 ∧
    (∀ BB ∈ (unenteredProgram.func 1).blocks, ∀ Pred ∈ (unenteredProgram.block BB).preds,
      isBackEdge (findBackedges unenteredProgram 1) (Pred, BB) = false →
        Precedes unenteredProgram 1 Pred BB) ∧
    Excludes unenteredProgram (fun _ => none) (outModules []) "var.out" := by
  have hedges := succ_iff_pred_of_lt (P := unenteredProgram) rfl (by decide) (by decide) (by decide)
  have huniform : ∀ sID, Uniform .reference unenteredProgram (fun _ => none) (outModules []) sID :=
    fun _ => ⟨8, fun _ => width_of_writtenTypes (by decide) (by decide)⟩
  refine ⟨wellTyped_of_lt (n := 9) rfl fun i hi => by interval_cases i <;> trivial, ?_, by decide,
    by decide, ?_⟩
  · rintro F hF
    obtain rfl | rfl : F = 0 ∨ F = 1 := by simpa using hF
    · exact ssaForm_of_usesKnown [0] rfl (by decide) hedges (by decide) (by decide) (by decide)
        (by decide) (by decide) (by decide)
    · exact ssaForm_of_usesKnown [1, 3] rfl (by decide) hedges (by decide) (by decide)
        (by decide) (by decide) (by decide) (by decide)
  · have h₀ : Runs .reference unenteredProgram (fun _ => none) .init (outModules []) id _ :=
      ⟨fun _ _ => 50, .refl⟩
    have h₁ := h₀.step (.init List.mem_cons_self (show 1 ∈ _ by decide) rfl
      (fun _ => .ofNat 8 0) (fun _ => 0) _)
    have h₂ := (h₁.step (.next 2 rfl rfl (.ofNat 8 0) _ nofun rfl)).step
      (.goto 3 0 rfl rfl rfl trivial rfl)
    have hin : getValueId .reference unenteredProgram (.inst 5) = "var.in" := by decide
    have hinit : Initial .reference unenteredProgram (fun _ => none) (outModules []) "var.in"
        (.ofNat 8 50) := ⟨huniform _, _, List.mem_cons_self, by decide⟩
    have h₃ := h₂.step (.follow 5 rfl rfl (.ofNat 8 50) _
      (by rintro _ ⟨⟩; exact ⟨rfl, rfl⟩)
      ⟨rfl, by rw [hin]; decide, .inr (by rw [hin]; exact .inl hinit)⟩ rfl)
    have h₄ := h₃.step (.next 6 rfl rfl (.ofNat 8 0) (fun _ _ => 50) nofun
      (by rintro _ ⟨⟩; exact ⟨_, rfl, rfl⟩))
    refine excludes_of_runs (by decide +kernel) h₄ (by decide) rfl rfl rfl rfl rfl ?_
    refine .inr ⟨huniform _, ?_⟩
    have hout : getValueId .reference unenteredProgram (.inst 6) = "var.out" := by decide
    rw [← hout]
    exact .store rfl rfl (by rw [hout]; decide) trivial rfl

/-- On one way to the block that stores, the argument is tested; `2` calls the function with
50. -/
abbrev testingProgram : Program := outProgram
  [⟨1, .int 1, .other [], none, none⟩,
    ⟨1, .other, .condBr (.inst 2) 2 3, none, none⟩,
    ⟨2, .int 1, .icmp .ult (.argument 1 0) (.constInt (.ofNat 8 10)), none, none⟩,
    ⟨2, .other, .condBr (.inst 4) 3 4, none, none⟩,
    ⟨3, .other, .store (.argument 1 0) (.global 0), some "var.out", none⟩,
    ⟨3, .other, .ret none, none, none⟩,
    ⟨4, .other, .ret none, none, none⟩,
    ⟨5, .other, .call (.func 1) [.constInt (.ofNat 8 50)], none, none⟩,
    ⟨5, .other, .ret none, none, none⟩]
  [⟨1, [2], 3, []⟩, ⟨1, [4], 5, [1]⟩, ⟨1, [6], 7, [1, 2]⟩, ⟨1, [], 8, [2]⟩, ⟨2, [9], 10, []⟩]
  [1, 2, 3, 4] [⟨⟨"caller", .external, "a.c"⟩, false, [], .other, [5]⟩]

/-- Its call graph. -/
def testingCallees : CalleeMap := fun i => if i = 9 then some {1} else none

/-- An argument that a terminator tests must be left out, although the value that is passed for it
is followed: `set_out` stores it, and the metadata excludes it. -/
theorem untested_needed : WellTyped testingProgram ∧
    WellFormed .reference testingProgram (outModules [2]) ∧ Tested testingProgram (.argument 1 0) ∧
    Excludes testingProgram testingCallees (outModules [2]) "arg.set_out.0" := by
  have hedges := succ_iff_pred_of_lt (P := testingProgram) rfl (by decide) (by decide) (by decide)
  refine ⟨wellTyped_of_lt (n := 11) rfl fun i hi => by interval_cases i <;> trivial, ?_, ⟨5, ?_⟩,
    ?_⟩
  · intro M hM F hF _
    obtain rfl := List.mem_singleton.mp hM
    obtain rfl | rfl | rfl : F = 0 ∨ F = 1 ∨ F = 2 := by simpa using hF
    · exact ⟨0, ssaForm_of_usesKnown [0] rfl (by decide) hedges (by decide) (by decide) (by decide)
        (by decide) (by decide) (by decide), by decide⟩
    · exact ⟨1, ssaForm_of_usesKnown [1, 2, 3, 4] rfl (by decide) hedges (by decide) (by decide)
        (by decide) (by decide) (by decide) (by decide), by decide⟩
    · exact ⟨5, ssaForm_of_usesKnown [5] rfl (by decide) hedges (by decide) (by decide) (by decide)
        (by decide) (by decide) (by decide), by decide⟩
  · exact .inl rfl
  · have h₀ : Runs .reference testingProgram testingCallees .init (outModules [2]) id _ :=
      ⟨fun _ _ => 0, .refl⟩
    have h₁ := h₀.step (.init List.mem_cons_self (show 2 ∈ _ by decide) rfl
      (fun _ => .ofNat 8 0) (fun _ => 0) _)
    have h₂ := h₁.step (.next 9 rfl rfl (.ofNat 8 0) (fun _ _ => 0) nofun trivial)
    have h₃ := h₂.step (.init List.mem_cons_self (show 1 ∈ _ by decide) rfl
      (fun _ => .ofNat 8 50) (fun _ => 0) _)
    have h₄ := (h₃.step (.next 2 rfl rfl (.ofNat 1 0) (fun _ _ => 0)
      (by rintro _ ⟨⟩; exact ⟨rfl, trivial⟩) trivial)).step
      (.next 3 rfl rfl (.ofNat 8 0) _ nofun rfl)
    have h₅ := h₄.step (.goto 3 1 rfl rfl rfl rfl rfl)
    have h₆ := h₅.step (.next 6 rfl rfl (.ofNat 8 0) (fun _ _ => 50) nofun
      (by rintro _ ⟨⟩; exact ⟨_, rfl, rfl⟩))
    refine excludes_of_runs (by decide +kernel) h₆ (by decide) rfl rfl rfl rfl rfl ?_
    refine .inl (.inl (.inl (.inr ⟨⟨8, fun _ => width_of_writtenTypes (by decide)
      (by decide)⟩, ?_⟩)))
    have harg : (Value.constInt (.ofNat 8 50), 0) ∈ [Value.constInt (.ofNat 8 50)].zipIdx :=
      List.mem_singleton_self _
    exact .argument rfl rfl rfl (Finset.mem_singleton_self 1) rfl harg rfl trivial rfl

/-- The variable `out` has 16 bits in one module and is declared with 8 bits in the other, where
`set_out` stores 5 and `get_out` loads it. -/
def mixedProgram : Program where
  insts := [
    ⟨0, .int 8, .load (.global 1) false, some "var.out", none⟩,
    ⟨0, .other, .ret (some (.inst 0)), none, none⟩,
    ⟨1, .other, .store (.constInt (.ofNat 8 5)) (.global 1), some "var.out", none⟩,
    ⟨1, .other, .ret none, none, none⟩]
  blocks := [⟨0, [0], 1, []⟩, ⟨1, [2], 3, []⟩]
  funcs := [⟨⟨"get_out", .external, "b.c"⟩, false, [], .int 8, [0]⟩,
    ⟨⟨"set_out", .external, "b.c"⟩, false, [], .other, [1]⟩]
  globals := [⟨⟨"out", .external, "a.c"⟩, .int 16, some (.int (.ofNat 16 300))⟩,
    ⟨⟨"out", .external, "b.c"⟩, .int 8, none⟩]
  structs := []
  consts := []

/-- The modules of `mixedProgram`. -/
def mixedModules : List Module := [⟨"a.c", [0], []⟩, ⟨"b.c", [1], [0, 1]⟩]

/-- Writes under an identifier must have one width: the load of the constant that was stored has
metadata of another width. -/
theorem uniform_needed : WellTyped mixedProgram ∧
    WellFormed .reference mixedProgram mixedModules ∧
    (∀ A x, Puts .reference mixedProgram (fun _ => none) A 2 False x "var.out" (.ofNat 8 5)) ∧
    ∃ r s s' lo hi, (rangePass .reference mixedProgram (fun _ => none) .init).run 4 mixedModules
        .init = .ok r ∧
      Runs .reference mixedProgram (fun _ => none) .init mixedModules (fun _ => 0) s ∧
      Step .reference mixedProgram (fun _ => none) .init mixedModules (fun _ => 0) s
        (some (0, .ofNat 8 5)) s' ∧
      (0, some (lo, hi)) ∈ annotations r.trace ∧ lo.width = 16 := by
  have hedges := succ_iff_pred_of_lt (P := mixedProgram) rfl (by decide) (by decide) (by decide)
  refine ⟨wellTyped_of_lt (n := 4) rfl fun i hi => by interval_cases i <;> trivial, ?_,
    fun A x => ?_, ?_⟩
  · intro M hM F hF _
    obtain rfl | rfl : M = ⟨"a.c", [0], []⟩ ∨ M = ⟨"b.c", [1], [0, 1]⟩ := by
      simpa [mixedModules] using hM
    · cases hF
    · obtain rfl | rfl : F = 0 ∨ F = 1 := by simpa using hF
      · exact ⟨0, forms_of_block rfl hedges rfl rfl (by decide) (by decide) (by decide)⟩
      · exact ⟨1, forms_of_block rfl hedges rfl rfl (by decide) (by decide) (by decide)⟩
  · have hID : getValueId .reference mixedProgram (.inst 2) = "var.out" := by decide
    rw [← hID]
    exact .store rfl rfl (by rw [hID]; decide) trivial rfl
  · have hrun : resultIs ((rangePass .reference mixedProgram (fun _ => none) .init).run 4
        mixedModules .init) (fun r => decide ((0, some (.ofNat 16 5, .ofNat 16 301)) ∈
          annotations r.trace)) = true := by
      decide +kernel
    obtain ⟨r, hr, hrun⟩ := of_resultIs hrun
    have h₀ : Runs .reference mixedProgram (fun _ => none) .init mixedModules (fun _ => 0) _ :=
      ⟨fun _ _ => 0, .refl⟩
    have h₁ := h₀.step (.init (List.mem_cons_of_mem _ List.mem_cons_self)
      (show 1 ∈ _ by decide) rfl (fun _ => .ofNat 8 0) (fun _ => 0) _)
    have h₂ := h₁.step (.next 2 rfl rfl (.ofNat 8 0) (fun _ _ => 5) nofun
      (by rintro _ ⟨⟩; exact ⟨_, rfl, rfl⟩))
    obtain ⟨s, s', hs, hstep, -⟩ := h₂.loads (List.mem_cons_of_mem _ List.mem_cons_self)
      (show 0 ∈ _ by decide) rfl rfl rfl rfl
    exact ⟨r, s, s', _, _, hr, hs, hstep, of_decide_eq_true hrun, rfl⟩

end Kint.Range
