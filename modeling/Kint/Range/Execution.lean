import Kint.Range.Soundness

/-!
# Soundness over whole executions

An execution of the linked program starts activations, lets each of them run an instruction or
take an edge in any interleaving, and records the followed values that were written under an
identifier.  In all its states these values lie in the ranges that a run of the pass ends with.

## Main ideas

* `Final` collects what is needed of the ranges of a run: a visit of any function leaves them as
  they are, they have the widths of what is written, and they contain the initial values.
* `Sound` is the invariant: the written values are in the ranges, and every activation is
  tracked by such a visit (`Tracked`).  A new activation is tracked because only arguments are
  followed in it (`Starts.tracks`); instructions and edges keep it tracked (`Tracks.exec`,
  `Tracks.edge`), and what an instruction writes is in the range of the identifier
  (`Tracks.puts`).
* Activations share the memory and the written values only, so one that does not run stays
  tracked (`Sound.replace`).

## Main results

* `Sound.step` and `Runs.sound`: each step, and so every execution, keeps the invariant.
* `Sound.allows`: what the invariant says of an instruction with metadata.
* `Step.next`, `Step.follow`, `Step.goto`, `Runs.loads`: steps of the activation that was
  started last, from which particular executions are put together.
-/

namespace Kint.Range

open Iteration

section Execution

variable {L : Library} {P : Program} {callees : CalleeMap} {taints : TaintMap}
  {modules : List Module} {globalAddress : GlobalId → ℕ} {m : RangeMap} {fuel : ℕ}
  {r : Report State Event} {s s' : MachineState} {e : Option (InstId × APInt)}

/-- A new activation is tracked. Its followed arguments are looked up under their identifiers, where
the ranges cover the values that were passed. -/
theorem Starts.tracks (hS : L.ranges.SoundLaws) {written : String → APInt → Prop} {F : FuncId}
    {A : Activation} {entry : BlockId} {v : State} (h : Starts L P written F A)
    (hssa : SSAForm P F entry) (hwritten : ∀ sID x, written sID x → Covers v.intRanges sID x) :
    Tracks L P callees taints entry v (phiNodes P A.block) A := by
  obtain ⟨rfl, hblock, hrest, hfollowed⟩ := h
  have hmem : A.block ∈ (P.func A.function).blocks := List.mem_of_mem_head? hblock
  -- only arguments are followed in the beginning
  have hinst : ∀ j, ¬ A.followed (.inst j) := by
    intro j hj
    obtain ⟨no, w, heq, -⟩ := hfollowed _ hj
    cases heq
  refine ⟨hmem, ?_, fun V hV => ?_, fun j _ hj => absurd hj (hinst j),
    fun j _ hj => absurd hj (hinst j)⟩
  · rw [hrest]
    exact hssa.phis_first A.block hmem
  · obtain ⟨no, w, rfl, hty, rfl, htested, hx⟩ := hfollowed V hV
    refine .inr ⟨no, _, rfl, hty, htested, ?_⟩
    have hid : getValueId L P (.argument A.function no) = getArgId L P A.function no := rfl
    refine looked_contains hS (fun i hi => by cases hi) hty ?_ (.inr ?_)
    · rw [hid]
      exact getArgId_ne_empty L P A.function no
    · rw [hid]
      exact hwritten _ _ hx

/-- The ranges that a run ends with, and what the proofs below need of them. The last iteration
visits every function without a change, the joined widths agree, and the initializers are in the
ranges. -/
structure Final (L : Library) (P : Program) (callees : CalleeMap) (taints : TaintMap)
    (modules : List Module) (m : RangeMap) : Prop where
  quiet : ∀ M ∈ modules, ∀ F ∈ M.functions, (P.func F).empty = false →
    ∃ v, v.intRanges = m ∧ QuietVisit L P callees taints F v
  uniform : ∀ sID, Uniform L P callees modules sID → ∀ w, Written L P callees modules sID w →
    ∀ S, m sID = some S → S.width = w
  initial : ∀ sID x, Initial L P callees modules sID x → Covers m sID x

theorem run_final (hL : L.ranges.UnionLaws) (hW : L.ranges.WidthLaws) (hP : WellTyped P)
    (h : (rangePass L P callees taints).run fuel modules .init = .ok r) :
    Final L P callees taints modules r.state.intRanges where
  quiet _ hM _ hF hne := run_quietVisit hL h hM hF hne
  uniform sID := by
    rintro ⟨N, hN⟩ w hw S hS
    rw [hN w hw]
    exact run_uniform hL hW hP h hN hS
  initial _ _ hx := run_initial hL hW hP h hx

/-- The functions of the modules are in the form that the compiler keeps them in, and the
blocks are in an order in which one visit meets predecessors first. -/
def WellFormed (L : Library) (P : Program) (modules : List Module) : Prop :=
  ∀ M ∈ modules, ∀ F ∈ M.functions, (P.func F).empty = false →
    ∃ entry, SSAForm P F entry ∧ Layout L P F entry

/-- Activations other than the one that runs stay tracked. -/
theorem Sound.replace {As As' : List Activation} {A A' : Activation}
    (h : Sound L P callees taints modules m s) (hAs : s.activations = As ++ A :: As')
    (hA' : Tracked L P callees taints modules m A') :
    ∀ B ∈ As ++ A' :: As', Tracked L P callees taints modules m B := by
  have htracked := h.tracked
  rw [hAs, List.forall_mem_append, List.forall_mem_cons] at htracked
  rw [List.forall_mem_append, List.forall_mem_cons]
  exact ⟨htracked.1, hA', htracked.2.2⟩

/-- Each step keeps the followed writes in the final ranges. An activation starts, runs an
instruction or goes over an edge, and each of the three has its own lemma. -/
theorem Sound.step (hL : L.ranges.UnionLaws) (hW : L.ranges.WidthLaws)
    (hS : L.ranges.SoundLaws) (hP : WellTyped P) (hforms : WellFormed L P modules)
    (hm : Final L P callees taints modules m) (h : Sound L P callees taints modules m s)
    (hstep : Step L P callees taints modules globalAddress s e s') :
    Sound L P callees taints modules m s' := by
  have hhere : ∀ {As As' : List Activation} {A : Activation}, s.activations = As ++ A :: As' →
      Tracked L P callees taints modules m A := by
    intro As As' A hAs
    refine h.tracked A ?_
    rw [hAs]
    exact List.mem_append_right _ List.mem_cons_self
  cases hstep with
  | @start M F A hM hF hstarts =>
    refine ⟨h.written, List.forall_mem_cons.mpr ⟨?_, h.tracked⟩⟩
    have hne : (P.func F).empty = false := by
      have hblock := hstarts.block
      cases hblocks : (P.func F).blocks with
      | nil => simp [hblocks] at hblock
      | cons => simp [Function.empty, hblocks]
    obtain ⟨entry, hssa, hlayout⟩ := hforms M hM F hF hne
    obtain ⟨v, rfl, hvisit⟩ := hm.quiet M hM F hF hne
    have hfunction := hstarts.function
    exact ⟨M, hM, entry, v, _, by rwa [hfunction], by rwa [hfunction], by rwa [hfunction], rfl,
      by rwa [hfunction], hstarts.tracks hS hssa h.written⟩
  | @exec As As' A i rest x p mem' follows hAs hrest hcomputes hfollows hmem =>
    obtain ⟨M, hM, entry, v, done, hF, hssa, hlayout, rfl, hvisit, htracks⟩ := hhere hAs
    refine ⟨?_, h.replace hAs ⟨M, hM, entry, v, done ++ [i], hF, hssa, hlayout, rfl, hvisit,
      htracks.exec hL hW hS hP hssa hlayout hrest h.written hcomputes hfollows⟩⟩
    rintro sID y (hold | ⟨huniform, hputs⟩)
    · exact h.written sID y hold
    · exact htracks.puts hL hW hP hssa hlayout hvisit hM hF hrest h.written hcomputes hfollows
        (hm.uniform sID huniform) hputs
  | @edge As As' A A' BB k hAs hrest hsucc htakes henters =>
    obtain ⟨M, hM, entry, v, done, hF, hssa, hlayout, rfl, hvisit, htracks⟩ := hhere hAs
    have hfunction := henters.function
    refine ⟨h.written, h.replace hAs ⟨M, hM, entry, v, _, by rwa [hfunction], by rwa [hfunction],
      by rwa [hfunction], rfl, by rwa [hfunction],
      htracks.edge hL hW hP hssa hlayout hrest (List.mem_of_getElem? hsucc) henters⟩⟩

/-- All states of all executions are sound. -/
theorem Runs.sound (hL : L.ranges.UnionLaws) (hW : L.ranges.WidthLaws)
    (hS : L.ranges.SoundLaws) (hP : WellTyped P) (hforms : WellFormed L P modules)
    (hm : Final L P callees taints modules m)
    (h : Runs L P callees taints modules globalAddress s) :
    Sound L P callees taints modules m s := by
  obtain ⟨mem, hsteps⟩ := h
  induction hsteps with
  | refl => exact ⟨hm.initial, nofun⟩
  | tail _ hstep ih =>
    obtain ⟨e, hstep⟩ := hstep
    exact ih.step hL hW hS hP hforms hm hstep

/-- A followed value that is written under the identifier of an annotated instruction is
allowed by the metadata. -/
theorem Sound.allows (h : Sound L P callees taints modules m s) {i : InstId} {x lo hi : APInt}
    (hrange : intrange L P m i = some (lo, hi))
    (hx : s.written (getValueId L P (.inst i)) x) :
    lo.width = x.width ∧ hi.width = x.width ∧ Allows (lo, hi) x.toNat := by
  obtain ⟨R, hR, hRx⟩ := h.written _ x hx
  obtain ⟨S, hS, hlo, hhi⟩ := intrange_width hrange
  obtain rfl := Option.some.inj (hR.symm.trans hS)
  rw [hlo, hhi, hRx.width_eq]
  exact ⟨rfl, rfl, allows_of_intrange hrange hR hRx.2⟩

/-! ## Particular executions -/

/-- An activation of which nothing is followed. -/
def Activation.init (P : Program) (F : FuncId) (BB : BlockId) (ints : Value → APInt)
    (addrs : Value → ℕ) : Activation :=
  ⟨F, BB, afterPhis P BB, ints, addrs, fun _ => False⟩

theorem Runs.step (h : Runs L P callees taints modules globalAddress s)
    (hstep : Step L P callees taints modules globalAddress s e s') :
    Runs L P callees taints modules globalAddress s' := by
  obtain ⟨mem, hsteps⟩ := h
  exact ⟨mem, hsteps.tail ⟨e, hstep⟩⟩

theorem Step.init {M : Module} {F : FuncId} {BB : BlockId} (hM : M ∈ modules)
    (hF : F ∈ M.functions) (hblock : (P.func F).blocks.head? = some BB) (ints : Value → APInt)
    (addrs : Value → ℕ) (s : MachineState) :
    Step L P callees taints modules globalAddress s none
      { s with activations := .init P F BB ints addrs :: s.activations } :=
  .start hM hF ⟨rfl, hblock, rfl, fun _ h => h.elim⟩

/-- The activation that was started last runs its next instruction, whose result is not
followed. -/
theorem Step.next {A : Activation} {As : List Activation} (i : InstId) {rest : List InstId}
    (hAs : s.activations = A :: As) (hrest : A.rest = i :: rest) (x : APInt)
    (mem' : ℕ → ℕ → ℕ)
    (hcomputes : ∀ w, (P.inst i).ty = .int w → Computes P globalAddress A s.mem i w x)
    (hmem : MemAfter P globalAddress A s.mem mem' i) :
    Step L P callees taints modules globalAddress s (some (i, x))
      ⟨A.ran i rest x 0 False :: As, mem',
        writtenAfter L P callees modules A i False x s.written⟩ :=
  .exec (show s.activations = [] ++ A :: As from hAs) hrest hcomputes nofun hmem

/-- The activation that was started last enters a block. -/
theorem Step.enter {A : Activation} {As : List Activation} (A' : Activation) {BB : BlockId}
    (k : ℕ) (hAs : s.activations = A :: As) (hrest : A.rest = [])
    (hsucc : (P.inst (P.block A.block).term).op.successors[k]? = some BB)
    (htakes : A.Takes P (P.inst (P.block A.block).term).op k) (henters : Enters L P A A' BB) :
    Step L P callees taints modules globalAddress s none
      { s with activations := A' :: As } :=
  .edge (show s.activations = [] ++ A :: As from hAs) hrest hsucc htakes henters

/-- The activation that was started last runs an instruction whose result is followed. -/
theorem Step.follow {A : Activation} {As : List Activation} (i : InstId) {rest : List InstId}
    (hAs : s.activations = A :: As) (hrest : A.rest = i :: rest) (x : APInt)
    (mem' : ℕ → ℕ → ℕ)
    (hcomputes : ∀ w, (P.inst i).ty = .int w → Computes P globalAddress A s.mem i w x)
    (hfollows : (P.inst i).ty.isIntegerTy = true ∧
      FollowsResult L P callees taints A s.written i x)
    (hmem : MemAfter P globalAddress A s.mem mem' i) :
    Step L P callees taints modules globalAddress s (some (i, x))
      ⟨A.ran i rest x 0 True :: As, mem',
        writtenAfter L P callees modules A i True x s.written⟩ :=
  .exec (show s.activations = [] ++ A :: As from hAs) hrest hcomputes (fun _ => hfollows) hmem

/-- An activation at the beginning of another block. -/
def Activation.goto (P : Program) (A : Activation) (BB : BlockId) : Activation :=
  { A with block := BB, rest := afterPhis P BB }

/-- The activation that was started last enters a block without phi nodes. -/
theorem Step.goto {A : Activation} {As : List Activation} (BB : BlockId) (k : ℕ)
    (hAs : s.activations = A :: As) (hrest : A.rest = [])
    (hsucc : (P.inst (P.block A.block).term).op.successors[k]? = some BB)
    (htakes : A.Takes P (P.inst (P.block A.block).term).op k) (hphis : phiNodes P BB = []) :
    Step L P callees taints modules globalAddress s none
      { s with activations := A.goto P BB :: As } := by
  refine .enter (A.goto P BB) k hAs hrest hsucc htakes ⟨rfl, rfl, rfl, ?_, ?_, ?_⟩
  · rw [hphis]
    nofun
  · rw [hphis]
    nofun
  · exact fun V _ => ⟨rfl, rfl, id⟩

/-- A function that loads a variable first reads what the memory holds. -/
theorem Runs.loads {M : Module} {F : FuncId} {BB : BlockId} {i : InstId} {rest : List InstId}
    {g : GlobalId} {v : Bool} {w : ℕ} (h : Runs L P callees taints modules globalAddress s)
    (hM : M ∈ modules) (hF : F ∈ M.functions) (hblock : (P.func F).blocks.head? = some BB)
    (hrest : afterPhis P BB = i :: rest) (hop : (P.inst i).op = .load (.global g) v)
    (hty : (P.inst i).ty = .int w) :
    ∃ s₁ s₂, Runs L P callees taints modules globalAddress s₁ ∧
      Step L P callees taints modules globalAddress s₁
        (some (i, .ofNat w (s.mem (globalAddress g) w))) s₂ ∧
      ∀ sID y, s.written sID y → s₂.written sID y := by
  refine ⟨_, _, h.step (.init hM hF hblock (fun _ => .ofNat 0 0) (fun _ => 0) s),
    .next i rfl hrest _ s.mem (fun w' hw => ?_) ?_, fun _ _ h => .inl h⟩
  · obtain rfl := Ty.int.inj (hty.symm.trans hw)
    refine ⟨rfl, ?_⟩
    rw [hop]
    rfl
  · rw [MemAfter, hop]

end Execution

end Kint.Range
