import Kint.LLVM.Branch
import Kint.LLVM.Builder
import Kint.PathGen.Dominator

/-!
# Guards of terminators

`getTermGuard` computes a condition for a destination block, not for an edge.  It says that
control is transferred there (`Opcode.destination`), except where two edges of the terminator
lead to one block: a branch whose successors are the same block has the guard of its true edge,
and the guard of the default edge excludes every case, also those that lead to the same block.

## Main results

* `caseGuard_yields`: the disjunction over the cases says that the value is one of them.
* `switchGuard_yields`, `branchGuard_yields`: what the guard says at a value of the condition.
* `termGuard_exact_iff`: the guard is defined, and it is true at exactly the values at which
  control goes to the block, unless it is another edge to the same block that is taken
  (`TakesShared`).

The first three are about `Yields` of `Kint.Memo`: whatever the calls of `VG.get` return, the
guard that is made from the answers is the one described.  That a guard is made at all is shown
by the lemmas with `_defined`: the widths of the condition and of the cases agree, and the block
is one of the successors.

## The example

`sharedSwitch` has a case that leads to the default block.  The guard of that block is false at
the value of the case (`sharedSwitch_wrong`).
-/

namespace Kint.PathGen

open Iteration Memo SMT Calls ValueGen

/-- The edge to `BB` that is taken at `x` is not the one that the guard is for: the
false edge where both lead to `BB`, or a case that shares its destination with the
default. -/
def TakesShared (op : Opcode) (BB : BlockId) (x : APInt) : Prop :=
  match op with
  | .condBr _ ifTrue ifFalse => ifTrue = BB ∧ ifFalse = BB ∧ x ≠ .ofBool true
  | .switch _ defaultDest cases => defaultDest = BB ∧ (x, BB) ∈ cases
  | _ => False

/-! ## What the guards say -/

section Guard

variable {DL : DataLayout} {P : Program} {intrange : InstId → Option (List (APInt × APInt))}
  {Backedges : List (BlockId × BlockId)} {DT : Option (BlockId → BlockId → BlockId)}
  {σ : Assignment Value} {BB : BlockId} {L CI E : SMTExpr Value} {C : APInt}
  {p : BlockId → Bool} {cases : List (APInt × BlockId)} {G t : Term Value 1}

theorem hasValue_constInt : HasValue DL P σ (.constInt C) C := by
  refine ⟨1, ?_⟩
  show (do
    let w ← typeSizeInBits DL (.int C.width)
    let x ← some C
    if x.width = w then some x else none) = _
  simp [typeSizeInBits]

/-- The term of a constant evaluates to the constant. -/
theorem termOf_constInt
    (h : Memo.Value (analyze DL P intrange Backedges DT) (.inl (.constInt C)) CI) :
    CI.eval σ = C :=
  term_denotes hasValue_constInt (value_inl_iff.mp h)

/-- The disjunction over the cases says that the value is one of them. -/
theorem caseGuard_yields
    (h : Yields (analyze DL P intrange Backedges DT) (caseGuard L p cases G) t) :
    t.Holds σ ↔ G.Holds σ ∨ ∃ c ∈ cases, p c.2 = true ∧ c.1 = L.eval σ := by
  induction cases generalizing G with
  | nil =>
    obtain rfl := yields_ret.mp h
    simp
  | cons c cases ih =>
    obtain ⟨C, Succ⟩ := c
    unfold caseGuard at h
    rw [List.exists_mem_cons_iff]
    by_cases hp : p Succ = true
    · rw [if_pos hp] at h
      obtain ⟨CI, hCI, h⟩ := yields_bind.mp h
      obtain ⟨Cond, hCond, h⟩ := yields_bind.mp h
      rw [ih h, Term.holds_bvor, eq_holds_iff (yields_lift.mp hCond),
        termOf_constInt (yields_ask.mp hCI), or_assoc]
      simp only [hp, true_and, eq_comm]
    · rw [if_neg hp] at h
      rw [ih h]
      simp only [hp, false_and, false_or, Bool.false_eq_true]

/-- The guard of a switch edge, at a value of the condition. For the default block no case may
match; for another block some case with this destination must. -/
theorem switchGuard_yields {cond : Value} {d : BlockId}
    (hE : Memo.Value (analyze DL P intrange Backedges DT) (.inl cond) E)
    (h : Yields (analyze DL P intrange Backedges DT) (getSwitchGuard cond d cases BB) t) :
    t.Holds σ ↔ if d = BB then ∀ c ∈ cases, c.1 ≠ E.eval σ else (E.eval σ, BB) ∈ cases := by
  obtain ⟨L, hL, h⟩ := yields_bind.mp h
  obtain rfl := hE.unique (yields_ask.mp hL)
  by_cases hd : d = BB
  · rw [if_neg (not_not.mpr hd)] at h
    obtain ⟨G, hG, h⟩ := yields_bind.mp h
    obtain rfl := yields_pure.mp h
    rw [if_pos hd, Term.holds_bvnot, caseGuard_yields hG, not_or,
      and_iff_right Term.not_holds_bvfalse, not_exists]
    simp only [true_and, not_and, ne_eq]
  · rw [if_pos hd] at h
    rw [if_neg hd, caseGuard_yields h]
    constructor
    · rintro (hfalse | ⟨⟨C, Succ⟩, hmem, hSucc, hC⟩)
      · exact absurd hfalse Term.not_holds_bvfalse
      · rw [← hC, ← of_decide_eq_true hSucc]
        exact hmem
    · intro hmem
      exact .inr ⟨_, hmem, decide_eq_true rfl, rfl⟩

/-- The guard of an edge of a conditional branch, at a value of the condition. For a block that is
both successors this is the guard of the true edge. -/
theorem branchGuard_yields {cond : Value} {ifTrue ifFalse : BlockId}
    (hE : Memo.Value (analyze DL P intrange Backedges DT) (.inl cond) E)
    (h : Yields (analyze DL P intrange Backedges DT)
      (getBranchGuard cond ifTrue ifFalse BB) t) :
    t.Holds σ ↔ (ifTrue = BB ↔ E.eval σ = .ofBool true) := by
  obtain ⟨V, hV, hnext⟩ := yields_bind.mp h
  obtain ⟨e, he, hret⟩ := yields_bind.mp hnext
  obtain rfl := hE.unique (yields_ask.mp hV)
  obtain rfl := SMTExpr.formula_eq_ok.mp (yields_lift.mp he)
  have heval : (SMTExpr.ofFormula e).eval σ = .ofBool true ↔ e.Holds σ := by
    constructor
    · intro heq
      exact eq_of_heq (APInt.mk.inj heq).2
    · intro hholds
      exact congrArg (APInt.mk 1) hholds
  rw [heval]
  by_cases hT : ifTrue = BB
  · rw [if_neg (not_not.mpr hT)] at hret
    obtain rfl := yields_pure.mp hret
    simp [hT]
  · rw [if_pos hT] at hret
    by_cases hF : ifFalse = BB
    · rw [if_pos hF] at hret
      obtain rfl := yields_pure.mp hret
      simp [hT]
    · rw [if_neg hF] at hret
      exact absurd hret not_yields_stop

/-! ## Guards exist -/

theorem cmp_ok (h : L.width = CI.width) : ∃ e, L.cmp .eq CI = .ok e := by
  obtain ⟨w, x⟩ := L
  obtain ⟨w', y⟩ := CI
  obtain rfl : w = w' := h
  exact ⟨_, SMTExpr.zip_mk _ x y⟩

/-- The disjunction over cases is defined if they have the width of the condition. -/
theorem caseGuard_defined (hcases : ∀ c ∈ cases, c.1.width = L.width) :
    ∃ t, Yields (analyze DL P intrange Backedges DT) (caseGuard L p cases G) t := by
  induction cases generalizing G with
  | nil => exact ⟨G, yields_ret.mpr rfl⟩
  | cons c cases ih =>
    obtain ⟨C, Succ⟩ := c
    have htail : ∀ c ∈ cases, c.1.width = L.width :=
      fun c hc => hcases c (List.mem_cons_of_mem _ hc)
    unfold caseGuard
    by_cases hp : p Succ = true
    · rw [if_pos hp]
      have hCI :
          Memo.Value (analyze DL P intrange Backedges DT) (.inl (.constInt C)) (.bvconst C) :=
        ⟨1, rfl⟩
      obtain ⟨Cond, hCond⟩ := cmp_ok (show L.width = (SMTExpr.bvconst C).width from
        (hcases _ List.mem_cons_self).symm)
      obtain ⟨t, ht⟩ := ih (G := .bvor G Cond) htail
      exact ⟨t, yields_bind.mpr ⟨_, yields_ask.mpr hCI,
        yields_bind.mpr ⟨Cond, yields_lift.mpr hCond, ht⟩⟩⟩
    · rw [if_neg hp]
      exact ih htail

theorem switchGuard_defined {cond : Value} {d : BlockId}
    (hE : Memo.Value (analyze DL P intrange Backedges DT) (.inl cond) E)
    (hcases : ∀ c ∈ cases, c.1.width = E.width) :
    ∃ t, Yields (analyze DL P intrange Backedges DT) (getSwitchGuard cond d cases BB) t := by
  by_cases hd : d = BB
  · obtain ⟨G, hG⟩ : ∃ G, Yields (analyze DL P intrange Backedges DT)
        (caseGuard E (fun _ => true) cases .bvfalse) G := caseGuard_defined hcases
    refine ⟨.bvnot G, yields_bind.mpr ⟨E, yields_ask.mpr hE, ?_⟩⟩
    rw [if_neg (not_not.mpr hd)]
    exact yields_bind.mpr ⟨G, hG, yields_pure.mpr rfl⟩
  · obtain ⟨t, ht⟩ : ∃ t, Yields (analyze DL P intrange Backedges DT)
        (caseGuard E (fun Succ => Succ = BB) cases .bvfalse) t := caseGuard_defined hcases
    refine ⟨t, yields_bind.mpr ⟨E, yields_ask.mpr hE, ?_⟩⟩
    rw [if_pos hd]
    exact ht

/-- The guard of an edge of a conditional branch is defined for both successors. -/
theorem branchGuard_defined {cond : Value} {ifTrue ifFalse : BlockId}
    (hE : Memo.Value (analyze DL P intrange Backedges DT) (.inl cond) E) (hwidth : E.width = 1)
    (hBB : ifTrue = BB ∨ ifFalse = BB) :
    ∃ t, Yields (analyze DL P intrange Backedges DT)
      (getBranchGuard cond ifTrue ifFalse BB) t := by
  obtain ⟨w, e⟩ := E
  obtain rfl : w = 1 := hwidth
  have hformula : Yields (analyze DL P intrange Backedges DT)
      (.lift (SMTExpr.ofFormula e).formula) e := yields_lift.mpr rfl
  by_cases hT : ifTrue = BB
  · refine ⟨e, yields_bind.mpr ⟨_, yields_ask.mpr hE, yields_bind.mpr ⟨e, hformula, ?_⟩⟩⟩
    rw [if_neg (not_not.mpr hT)]
    exact yields_pure.mpr rfl
  · refine ⟨.bvnot e, yields_bind.mpr ⟨_, yields_ask.mpr hE, yields_bind.mpr ⟨e, hformula, ?_⟩⟩⟩
    rw [if_pos hT, if_pos (hBB.resolve_left hT)]
    exact yields_pure.mpr rfl

end Guard

/-! ## Exactness -/

/-- The guard of a conditional branch or a switch for a successor is true under exactly
the assignments at which control goes there, except at those at which it goes by an edge
that shares its destination. -/
theorem termGuard_exact_iff (DL : DataLayout) (P : Program)
    (intrange : InstId → Option (List (APInt × APInt))) (Backedges : List (BlockId × BlockId))
    (DT : Option (BlockId → BlockId → BlockId)) (op : Opcode) (cond : Value) (BB : BlockId)
    (E : SMTExpr Value) (hcond : op.condition? = some cond) (hBB : BB ∈ op.successors)
    (hdistinct : op.DistinctCases) (hE : TermOf DL P intrange cond E)
    (hwidth : op.HasConditionWidth E.width) :
    ∃ t, Yields (analyze DL P intrange Backedges DT) (getTermGuard op BB) t ∧
      ∀ σ, ((t.Holds σ ↔ op.destination (E.eval σ) = some BB) ↔
          ¬ TakesShared op BB (E.eval σ)) ∧
        ∀ x, HasValue DL P σ cond x → E.eval σ = x := by
  have hE' : Memo.Value (analyze DL P intrange Backedges DT) (.inl cond) E :=
    value_inl_iff.mpr hE
  cases op with
  | condBr V ifTrue ifFalse =>
    obtain rfl : V = cond := Option.some.inj hcond
    have hsucc : ifTrue = BB ∨ ifFalse = BB := by
      rcases List.mem_pair.mp hBB with h | h
      · exact .inl h.symm
      · exact .inr h.symm
    obtain ⟨t, ht⟩ := branchGuard_defined hE' hwidth hsucc
    refine ⟨t, ht, fun σ => ⟨?_, fun x hx => term_denotes hx hE⟩⟩
    rw [branchGuard_yields hE' ht, Opcode.destination, TakesShared]
    by_cases hx : E.eval σ = .ofBool true
    · rw [if_pos hx, Option.some_inj]
      simp [hx]
    · rw [if_neg hx, Option.some_inj]
      rcases hsucc with h | h
      · simp [hx, h]
      · simp [hx, h]
  | switch V d cases =>
    obtain rfl : V = cond := Option.some.inj hcond
    obtain ⟨t, ht⟩ : ∃ t, Yields (analyze DL P intrange Backedges DT)
        (getSwitchGuard V d cases BB) t := switchGuard_defined hE' hwidth
    refine ⟨t, ht, fun σ => ⟨?_, fun x hx => term_denotes hx hE⟩⟩
    rw [switchGuard_yields hE' ht, TakesShared]
    by_cases hd : d = BB
    · subst hd
      rw [if_pos rfl, destination_default hdistinct, and_iff_right rfl]
      constructor
      · intro hiff hmem
        exact hiff.mpr (.inr hmem) _ hmem rfl
      · intro hmem
        exact ⟨.inl, fun h => h.resolve_right hmem⟩
    · rw [if_neg hd, destination_iff_of_ne hdistinct hd]
      exact iff_of_true Iff.rfl fun h => hd h.1
  | _ => cases hcond

/-- A function of two bytes. -/
def byteProgram : Program := .ofArguments 8 []

theorem termOf_byte : TermOf fieldLayout byteProgram (fun _ => none) (.argument 0 0)
    (.bvvar 8 (.argument 0 0)) := ⟨1, rfl⟩

/-- A switch on a byte whose case 3 leads to the default block. -/
def sharedSwitch : Opcode := .switch (.argument 0 0) 1 [(.ofNat 8 3, 1), (.ofNat 8 4, 2)]

/-- The switch goes to block 1 at 3, and the guard of block 1 is false there. -/
theorem sharedSwitch_wrong : ∃ (t : Term Value 1) (σ : Assignment Value),
    Yields (analyze fieldLayout byteProgram (fun _ => none) [] none)
      (getTermGuard sharedSwitch 1) t ∧
    HasValue fieldLayout byteProgram σ (.argument 0 0) (.ofNat 8 3) ∧
    sharedSwitch.destination (.ofNat 8 3) = some 1 ∧ ¬ t.Holds σ := by
  refine ⟨_, fun _ w => 3#w, ⟨1, rfl⟩, ⟨1, by decide⟩, by decide, by decide⟩

/-- At 5 the switch goes to the default block and the guard is true; at 4 neither. -/
theorem sharedSwitch_exact : ∃ t,
    Yields (analyze fieldLayout byteProgram (fun _ => none) [] none)
      (getTermGuard sharedSwitch 1) t ∧
    t.Holds (fun _ w => 5#w) ∧ ¬ t.Holds (fun _ w => 4#w) := by
  obtain ⟨t, ht, hexact⟩ := termGuard_exact_iff fieldLayout byteProgram (fun _ => none) [] none
    sharedSwitch (.argument 0 0) 1 (.bvvar 8 (.argument 0 0)) rfl (by decide) (by decide)
    termOf_byte (by decide)
  -- neither value is that of a case that leads to the default block
  have hfive : ¬ TakesShared sharedSwitch 1 (.ofNat 8 5) := by
    rintro ⟨-, hmem⟩
    exact absurd hmem (by decide)
  have hfour : ¬ TakesShared sharedSwitch 1 (.ofNat 8 4) := by
    rintro ⟨-, hmem⟩
    exact absurd hmem (by decide)
  refine ⟨t, ht, ?_, ?_⟩
  · exact ((hexact fun _ w => 5#w).1.mpr hfive).mpr (by decide)
  · intro h
    exact absurd (((hexact fun _ w => 4#w).1.mpr hfour).mp h) (by decide)

end Kint.PathGen
