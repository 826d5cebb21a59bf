import Kint.Annotation
import Kint.Iteration

/-!
# The context and the driver of the global passes

The maps that the three global passes share through `GlobalContext`, and their driver.  Each
pass is an `IterativeModulePass`: it initializes on every module, then calls `doModulePass` on
the modules in turn until a whole round reports no change, and finalizes on every module.

## Main definitions

* `FuncMap`, `FuncPtrMap`, `CalleeMap`, `RangeMap`, `TaintMap`: the maps of the context, as
  functions from their keys.  Where the source does not tell a missing entry from an empty one,
  neither does the model.
* `IterativeModulePass`: the three virtual functions of a pass, each returning a report.
* `IterativeModulePass.run`: the driver.  The bits that the first and the last phase return are
  not read, and the loop of the middle phase need not end, so it takes fuel.

## Main results

* `run_eq_ok`: a run is its three phases, one after the other.
* `iterate_last_round`, `iterate_last`: when the iteration stops, another call of `doModulePass`
  on any module would report nothing.  All fixpoint results of the three passes start from here.
-/

namespace Kint

open Iteration

/-- `FuncSet` -/
abbrev FuncSet := Finset FuncId

/-- `FuncMap` -/
abbrev FuncMap := String → Option FuncId

/-- `FuncPtrMap`; an identifier without an entry has the empty set. -/
abbrev FuncPtrMap := String → FuncSet

/-- `CalleeMap` -/
abbrev CalleeMap := InstId → Option FuncSet

/-- `DescSet` -/
abbrev DescSet := Finset String

/-- `RangeMap` -/
abbrev RangeMap := String → Option ConstantRange

/-- `TaintMap`: the descriptors of an identifier, with the source bit, and those
of a value.  An entry that was never added to is empty, and no descriptor set
that is added is empty, so a missing entry and an empty one are the same. -/
structure TaintMap where
  gts : String → DescSet × Bool
  vts : Value → DescSet

/-- The taints before any pass. -/
def TaintMap.init : TaintMap := ⟨fun _ => (∅, false), fun _ => ∅⟩

/-- `TaintMap::get` of an identifier -/
def TaintMap.getId (s : TaintMap) (ID : String) : DescSet :=
  if ID = "" then ∅ else (s.gts ID).1

/-- `TaintMap::isSource` -/
def TaintMap.isSource (s : TaintMap) (ID : String) : Bool := ID ≠ "" && (s.gts ID).2

/-- The virtual functions of an `IterativeModulePass`, with the returned bit in
the report.  `fuel` bounds the loops inside one call. -/
structure IterativeModulePass (σ : Type*) (τ : Type*) where
  doInitialization : Module → Pass σ τ
  doModulePass : (fuel : ℕ) → Module → Pass σ τ
  doFinalization : (fuel : ℕ) → Module → Pass σ τ

namespace IterativeModulePass

variable {σ : Type*} {τ : Type*} (p : IterativeModulePass σ τ)

/-- The iterative part of `IterativeModulePass::run`. -/
def iterate (fuel : ℕ) (modules : List Module) : Pass σ τ :=
  whileChanged (fun _ => forEach (p.doModulePass fuel) modules) fuel 1

/-- `IterativeModulePass::run`; the bits that the first and the last phase return
are not read. -/
def run (fuel : ℕ) (modules : List Module) : Pass σ τ :=
  (forEach p.doInitialization modules).seq
    ((p.iterate fuel modules).seq (forEach (p.doFinalization fuel) modules))

variable {p}

/-- The three phases of a run. -/
theorem run_eq_ok {fuel : ℕ} {modules : List Module} {s : σ} {r : Report σ τ} :
    p.run fuel modules s = .ok r ↔
      ∃ r₁ r₂ r₃, forEach p.doInitialization modules s = .ok r₁ ∧
        p.iterate fuel modules r₁.state = .ok r₂ ∧
        forEach (p.doFinalization fuel) modules r₂.state = .ok r₃ ∧
        r = r₁.andThen (r₂.andThen r₃) := by
  unfold run
  constructor
  · intro h
    obtain ⟨r₁, r₂₃, h₁, h₂₃, rfl⟩ := Pass.seq_eq_ok.mp h
    obtain ⟨r₂, r₃, h₂, h₃, rfl⟩ := Pass.seq_eq_ok.mp h₂₃
    exact ⟨r₁, r₂, r₃, h₁, h₂, h₃, rfl⟩
  · rintro ⟨r₁, r₂, r₃, h₁, h₂, h₃, rfl⟩
    exact Pass.seq_eq_ok.mpr ⟨r₁, _, h₁, Pass.seq_eq_ok.mpr ⟨r₂, r₃, h₂, h₃, rfl⟩, rfl⟩

/-- A run that has ended is the run with any more fuel. -/
theorem run_persists (hp : ∀ M, Persists fun fuel => p.doModulePass fuel M)
    (hf : ∀ M, Persists fun fuel => p.doFinalization fuel M) (modules : List Module) :
    Persists fun fuel => p.run fuel modules :=
  (persists_const _).seq <|
    (persists_whileChanged (f := fun fuel _ => forEach (p.doModulePass fuel) modules)
      (fun _ => persists_forEach fun M _ => hp M) 1).seq
    (persists_forEach fun M _ => hf M)

/-- The states in which the rounds of an iteration start. A round calls `doModulePass` on every
module, and another one follows if some call has reported a change. -/
inductive RoundStart (p : IterativeModulePass σ τ) (fuel : ℕ) (modules : List Module)
    (s₀ : σ) : σ → Prop
  | first : RoundStart p fuel modules s₀ s₀
  | next {s : σ} {r : Report σ τ} : RoundStart p fuel modules s₀ s →
      forEach (p.doModulePass fuel) modules s = .ok r → r.changed = true →
      RoundStart p fuel modules s₀ r.state

/-- An iteration that stops ends with a round that reports nothing. -/
theorem iterate_last_round {fuel : ℕ} {modules : List Module} {s : σ} {r : Report σ τ}
    (h : p.iterate fuel modules s = .ok r) :
    ∃ s' r', RoundStart p fuel modules s s' ∧
      forEach (p.doModulePass fuel) modules s' = .ok r' ∧ r'.changed = false ∧
      r'.state = r.state := by
  obtain ⟨_, s', r', -, hs', hr', hc', hst⟩ :=
    whileChanged_last (I := RoundStart p fuel modules s)
      (fun _ _ _ hs hr hc => .next hs hr hc) .first h
  exact ⟨s', r', hs', hr', hc', hst⟩

/-- When the iteration stops, one more call of `doModulePass` on any module, in
a state that looks the same, reports nothing. -/
theorem iterate_last {α : Type*} {view : σ → α} {fuel : ℕ} {modules : List Module}
    {s : σ} {r : Report σ τ}
    (hsilent : ∀ M ∈ modules, ∀ s r, p.doModulePass fuel M s = .ok r → r.Silent view s)
    (h : p.iterate fuel modules s = .ok r) :
    ∀ M ∈ modules, ∃ s' r', view s' = view r.state ∧
      p.doModulePass fuel M s' = .ok r' ∧ r'.changed = false := by
  intro M hM
  obtain ⟨s₀, r₀, -, hr₀, hc₀, hst⟩ := iterate_last_round h
  obtain ⟨s', r', hview, hr', hc'⟩ := forEach_silent hsilent hr₀ hc₀ M hM
  have hround : view r₀.state = view s₀ :=
    (sequential_silent view).forEach_spec hsilent hr₀ hc₀
  exact ⟨s', r', by rw [hview, ← hround, hst], hr', hc'⟩

end IterativeModulePass

end Kint
