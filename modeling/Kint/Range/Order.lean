import Kint.LLVM.Cover
import Kint.Range.Footprint

/-!
# The order of modules

`RangePass::run` does not end with the same ranges for every order of the modules:  the union of
intervals is not associative, and `doModulePass` counts iterations per module.  What the order
of two modules cannot change is the outcome if they share no identifier.

## Main definitions

* `Shares`: one of two modules updates the range of an identifier, and the other one updates it
  too or looks it up.  This is read off the functions and initializers of the modules, not off a
  run.

## Main results

* `forEach_modules`: a loop over modules whose bodies have footprints, for a permutation that
  keeps modules in order which share an identifier.  It is an instance of the general fact about
  computations with disjoint footprints (`forEach_perm`, in `Kint.Commute`).
* `rangePass_order`: the run of the pass: the three loops over the modules one after the other,
  the middle one repeated until nothing changes.

## Examples

`modeProgram` stores 0, 100 and 200 from three modules to one variable of eight bits.  The
smallest interval that covers 0 and 200 wraps around, so the order in which the three are joined
decides about the range (`mode_order_matters`).  A module that stores to another variable may
come earlier (`mode_reordered`).
-/

namespace Kint.Range

open Iteration

section Order

variable (L : Library) (P : Program) (callees : CalleeMap) (taints : TaintMap)

/-- Two modules share an identifier: one updates its range, and the other updates
it too or looks it up. -/
def Shares (M N : Module) : Prop :=
  ∃ sID, (sID ∈ moduleUpdates L P callees M ∧ sID ∈ moduleAccesses L P callees taints N) ∨
    (sID ∈ moduleUpdates L P callees N ∧ sID ∈ moduleAccesses L P callees taints M)

variable {L P callees taints} {modules modules' : List Module} {fuel : ℕ}
  {r : Report State Event}

/-- Passes with the footprints of their modules may run in every order that keeps
modules which share an identifier in theirs. -/
theorem forEach_modules {f : Module → Pass State Event}
    (hf : ∀ M, Footprint State.intRanges (moduleAccesses L P callees taints M)
      (moduleUpdates L P callees M) (f M))
    (hl : modules.Nodup) (hperm : modules.Perm modules')
    (horder : ∀ M N, Shares L P callees taints M N → [M, N].Sublist modules →
      [M, N].Sublist modules') :
    Matches (SameView State.intRanges) (forEach f modules) (forEach f modules') := by
  refine forEach_perm (R := SameView State.intRanges) (fun _ => rfl) Eq.trans
    (fun M => (hf M).matches_self) (fun M N hMN => (hf M).seq_comm (hf N) ?_ ?_) hl hperm horder
  · exact Set.disjoint_left.mpr fun sID hM hN => hMN ⟨sID, .inl ⟨hM, hN⟩⟩
  · exact Set.disjoint_left.mpr fun sID hN hM => hMN ⟨sID, .inr ⟨hN, hM⟩⟩

/-- For every list of modules and every permutation of it in which modules that
share an identifier keep their order, `RangePass::run` ends with the same
ranges. -/
theorem rangePass_order (hl : modules.Nodup) (hperm : modules.Perm modules')
    (horder : ∀ M N, Shares L P callees taints M N → [M, N].Sublist modules →
      [M, N].Sublist modules')
    (h : (rangePass L P callees taints).run fuel modules .init = .ok r) :
    ∃ r', (rangePass L P callees taints).run fuel modules' .init = .ok r' ∧
      r'.state.intRanges = r.state.intRanges := by
  obtain ⟨r₁, r₂, r₃, h₁, h₂, h₃, rfl⟩ := IterativeModulePass.run_eq_ok.mp h
  have hinit := forEach_modules (fun M => doInitialization_footprint M) hl hperm horder
    State.init State.init rfl
  rw [show forEach (doInitialization L P) modules State.init = .ok r₁ from h₁] at hinit
  obtain ⟨r₁', h₁', -, hr₁⟩ := hinit.of_ok
  have hround : Matches (SameView State.intRanges)
      (forEach (doModulePass L P callees taints fuel) modules)
      (forEach (doModulePass L P callees taints fuel) modules') :=
    forEach_modules (fun M => doModulePass_footprint M fuel) hl hperm horder
  have hiter := Matches.whileChanged (fun _ => hround) fuel 1 r₁.state r₁'.state hr₁
  rw [show whileChanged (fun _ => forEach (doModulePass L P callees taints fuel) modules) fuel 1
    r₁.state = .ok r₂ from h₂] at hiter
  obtain ⟨r₂', h₂', -, hr₂⟩ := hiter.of_ok
  obtain ⟨r₃', h₃', hst'⟩ := finalize_ok (L := L) (P := P) modules' r₂'.state
  obtain ⟨r₃'', h₃'', hst⟩ := finalize_ok (L := L) (P := P) modules r₂.state
  obtain rfl := Except.ok.inj (h₃''.symm.trans h₃)
  refine ⟨_, IterativeModulePass.run_eq_ok.mpr ⟨r₁', r₂', r₃', h₁', h₂', h₃', rfl⟩, ?_⟩
  show r₃'.state.intRanges = r₃''.state.intRanges
  rw [hst', hst]
  exact hr₂.symm

end Order

/-- Three modules store 0, 100 and 200 to one variable, a fourth module stores to
another one. -/
def modeProgram : Program where
  insts := [
    ⟨0, .other, .store (.constInt (.ofNat 8 0)) (.global 0), some "var.mode", none⟩,
    ⟨0, .other, .ret none, none, none⟩,
    ⟨1, .other, .store (.constInt (.ofNat 8 100)) (.global 0), some "var.mode", none⟩,
    ⟨1, .other, .ret none, none, none⟩,
    ⟨2, .other, .store (.constInt (.ofNat 8 200)) (.global 0), some "var.mode", none⟩,
    ⟨2, .other, .ret none, none, none⟩,
    ⟨3, .other, .store (.constInt (.ofNat 8 7)) (.global 1), some "var.last", none⟩,
    ⟨3, .other, .ret none, none, none⟩]
  blocks := [⟨0, [0], 1, []⟩, ⟨1, [2], 3, []⟩, ⟨2, [4], 5, []⟩, ⟨3, [6], 7, []⟩]
  funcs := [⟨⟨"off", .external, "a.c"⟩, false, [], .other, [0]⟩,
    ⟨⟨"half", .external, "b.c"⟩, false, [], .other, [1]⟩,
    ⟨⟨"most", .external, "c.c"⟩, false, [], .other, [2]⟩,
    ⟨⟨"note", .external, "d.c"⟩, false, [], .other, [3]⟩]
  globals := [⟨⟨"mode", .external, "a.c"⟩, .int 8, none⟩,
    ⟨⟨"last", .external, "d.c"⟩, .int 8, none⟩]
  structs := []
  consts := []

/-- The run of the pass on modules of `modeProgram`. -/
def modeRun (modules : List Module) : Except Stop (Report State Event) :=
  (rangePass .bridging modeProgram (fun _ => none) .init).run 4 modules .init

/-- The modules of `modeProgram`. -/
def moduleA : Module := ⟨"a.c", [0], [0]⟩

@[inherit_doc moduleA]
def moduleB : Module := ⟨"b.c", [], [1]⟩

@[inherit_doc moduleA]
def moduleC : Module := ⟨"c.c", [], [2]⟩

@[inherit_doc moduleA]
def moduleD : Module := ⟨"d.c", [1], [3]⟩

/-- With a union that returns the smallest covering interval, the range of the
variable ends as `[200, 101)` for one order and as `[100, 1)` for another. -/
theorem mode_order_matters : ∃ r r',
    Library.bridging.ranges.SmallestUnion ∧
    [moduleA, moduleB, moduleC].Perm [moduleA, moduleC, moduleB] ∧
    modeRun [moduleA, moduleB, moduleC] = .ok r ∧ modeRun [moduleA, moduleC, moduleB] = .ok r' ∧
    r.state.intRanges "var.mode" = some (.ofBounds 8 200 101) ∧
    r'.state.intRanges "var.mode" = some (.ofBounds 8 100 1) ∧
    r.state.intRanges ≠ r'.state.intRanges := by
  have hrun : resultIs (modeRun [moduleA, moduleB, moduleC]) (fun r =>
      decide (r.state.intRanges "var.mode" = some (.ofBounds 8 200 101))) = true := by
    decide +kernel
  have hrun' : resultIs (modeRun [moduleA, moduleC, moduleB]) (fun r =>
      decide (r.state.intRanges "var.mode" = some (.ofBounds 8 100 1))) = true := by
    decide +kernel
  obtain ⟨r, hr, hmode⟩ := of_resultIs hrun
  obtain ⟨r', hr', hmode'⟩ := of_resultIs hrun'
  have hmode := of_decide_eq_true hmode
  have hmode' := of_decide_eq_true hmode'
  refine ⟨r, r', RangeOps.bridging_smallestUnion, .cons _ (.swap _ _ _), hr, hr', hmode, hmode',
    fun heq => ?_⟩
  rw [heq, hmode'] at hmode
  exact absurd hmode (by decide)

/-- The module that stores to another variable may come earlier. Neither of the two modules that
change places reads an identifier. -/
theorem mode_reordered : ∃ r r', modeRun [moduleA, moduleB, moduleD] = .ok r ∧
    modeRun [moduleA, moduleD, moduleB] = .ok r' ∧
    r'.state.intRanges = r.state.intRanges := by
  have hrun : resultIs (modeRun [moduleA, moduleB, moduleD]) (fun _ => true) = true := by
    decide +kernel
  obtain ⟨r, hr, -⟩ := of_resultIs hrun
  have hreads : ∀ M ∈ [moduleB, moduleD], ∀ sID,
      ¬ ModuleReads .bridging modeProgram (fun _ => none) .init M sID := by
    have hnone : ∀ M ∈ [moduleB, moduleD], ∀ F ∈ M.functions,
        ∀ BB ∈ (modeProgram.func F).blocks, ∀ V ∈ queried .bridging modeProgram BB,
          lookupIds .bridging modeProgram (fun _ => none) .init V = [] := by decide
    rintro M hM sID ⟨F, hF, BB, hBB, V, hV, hsID⟩
    rw [hnone M hM F hF BB hBB V hV] at hsID
    cases hsID
  have hapart : ∀ sID, sID ∈ moduleUpdates .bridging modeProgram (fun _ => none) moduleB →
      sID ∉ moduleUpdates .bridging modeProgram (fun _ => none) moduleD := by
    have hids : ∀ sID ∈ moduleWrites .bridging modeProgram (fun _ => none) moduleB,
        sID ∉ moduleWrites .bridging modeProgram (fun _ => none) moduleD := by decide
    exact fun sID ⟨w, h⟩ ⟨w', h'⟩ => hids sID h.mem_moduleWrites h'.mem_moduleWrites
  have hfree : ¬ Shares .bridging modeProgram (fun _ => none) .init moduleB moduleD := by
    rintro ⟨sID, ⟨hB, hD | hD⟩ | ⟨hD, hB | hB⟩⟩
    · exact hapart sID hB hD
    · exact hreads moduleD (by simp) sID hD
    · exact hapart sID hB hD
    · exact hreads moduleB (by simp) sID hB
  have horder : ∀ M N, Shares .bridging modeProgram (fun _ => none) .init M N →
      [M, N].Sublist [moduleA, moduleB, moduleD] →
      [M, N].Sublist [moduleA, moduleD, moduleB] := by
    intro M N hMN h
    have hpairs : (M = moduleA ∧ N = moduleB) ∨ (M = moduleA ∧ N = moduleD) ∨
        (M = moduleB ∧ N = moduleD) := by
      simpa [List.sublists] using List.mem_sublists.mpr h
    rcases hpairs with ⟨rfl, rfl⟩ | ⟨rfl, rfl⟩ | ⟨rfl, rfl⟩
    · decide
    · decide
    · exact absurd hMN hfree
  obtain ⟨r', hr', heq⟩ := rangePass_order (by decide) (.cons _ (.swap _ _ _)) horder hr
  exact ⟨r, r', hr, hr', heq⟩

end Kint.Range
