import Kint.PathGen.Dominator

/-!
# `CmpSat`

`CmpSat` asks the solver whether the condition of a branch can be true, or false, when the path
condition of its block is.  The path condition is the one with a dominator tree, and it is true
in every state of every run (`Runs.holds`); so what `CmpSat` reports is never taken
(`check_sound`).

## Main definitions

* `reason`, `check`, `runOnFunction`: the transcription.  The solver is a parameter: a query is
  made for the conditions that were assumed and the formula.
* `MetadataHolds`: what the names hold is in the ranges of their metadata.  The terms of the
  values are made together with assumptions about them, and these are true if the metadata is.
* `SoundQuery`: all that is needed of the solver: it says *unsatisfiable* only if that is so.

## Main results

* `check_sound`: at the end of the block, the branch does not go where it is said not to go.
* `runOnFunction_sound`: for every state of every run: the formula that `PathGen` returns for
  the block is true, and a reported branch is never taken.

## An example with a loop

`recheckProgram` compares its variable with the argument in the header and again in the body.
The second comparison is always true there, although the variable changes in each round: all
names in the formula of the body belong to the current round.  The lemmas `recheck_` show that
the program has the form that the results ask for, and that its second comparison is reported.
-/

namespace Kint

open Iteration Memo SMT PathGen ValueGen

/-- `SMTStatus` -/
inductive SMTStatus
  | timeout | undef | unsat | sat
  deriving DecidableEq

namespace CmpSat

/-- `CMP_FALSE` -/
def cmpFalse : String := "comparison always false"

/-- `CMP_TRUE` -/
def cmpTrue : String := "comparison always true"

section Pass

variable (DL : DataLayout) (P : Program)
  (intrange : InstId → Option (List (APInt × APInt)))
  (Backedges : List (BlockId × BlockId)) (ncd : BlockId → BlockId → BlockId)
  (query : List (Term Value 1) → Term Value 1 → SMTStatus)

/-- The two queries of `check`, of which the second is not made when the first one
is answered. -/
def reason (assumed : List (Term Value 1)) (ValuePred PathPred : Term Value 1) :
    Option String :=
  if query assumed (.bvand ValuePred PathPred) = .unsat then some cmpFalse
  else if query assumed (.bvand (.bvnot ValuePred) PathPred) = .unsat then some cmpTrue
  else none

/-- `CmpSat::check`: what is reported about a conditional branch. -/
def check (fuel : ℕ) (I : InstId) : Except Stop (Option String) :=
  match (P.inst I).op with
  | .condBr V _ _ => do
    let (E, s) ← get DL P intrange Backedges (some ncd) fuel (.inl V) .init
    let ValuePred ← E.formula
    let (E, s) ← get DL P intrange Backedges (some ncd) fuel (.inr (P.inst I).parent) s
    let PathPred ← E.formula
    return reason query s.out ValuePred PathPred
  | _ => .ok none

/-- `CmpSat::runOnFunction`: the reports about the branches of a function. -/
def runOnFunction (fuel : ℕ) (F : FuncId) : Except Stop (List (InstId × Option String)) :=
  (P.func F).blocks.mapM fun BB => do
    let Reason ← check DL P intrange Backedges ncd query fuel (P.block BB).term
    return ((P.block BB).term, Reason)

end Pass

section Soundness

variable {DL : DataLayout} {P : Program} {intrange : InstId → Option (List (APInt × APInt))}
  {Backedges : List (BlockId × BlockId)} {ncd : BlockId → BlockId → BlockId}
  {query : List (Term Value 1) → Term Value 1 → SMTStatus} {entry : BlockId} {F : FuncId}
  {Exec : InstId → Assignment Value → Assignment Value → Prop} {σ₀ σ : Assignment Value}
  {s : MachineState}

/-! ## Range metadata -/

/-- `n` is in `[Lo, Hi)`, which may wrap around. -/
def InRange (n : ℕ) (Lo Hi : APInt) : Prop :=
  if Lo.toNat ≤ Hi.toNat then Lo.toNat ≤ n ∧ n < Hi.toNat
  else Lo.toNat ≤ n ∨ n < Hi.toNat

variable (DL P intrange) in
/-- What the names hold is in the ranges of their metadata; `[Lo, Lo)` is ignored. -/
def MetadataHolds (σ : Assignment Value) : Prop :=
  ∀ i MD w, intrange i = some MD → typeSizeInBits DL (P.typeOf (.inst i)) = some w →
    ∀ Lo Hi, (Lo, Hi) ∈ MD → Lo ≠ Hi → InRange (σ (.inst i) w).toNat Lo Hi

/-- The formula of an unsigned comparison with a constant. -/
theorem ult_holds {w : ℕ} {x : Term Value w} {C : APInt} {e : Term Value 1}
    (h : SMTExpr.cmp .ult ⟨w, x⟩ (.bvconst C) = .ok e) :
    e.Holds σ ↔ (x.eval σ).toNat < C.toNat := by
  obtain ⟨w', x', y, hx, hC, rfl⟩ := SMTExpr.zip_eq_ok.mp h
  obtain ⟨rfl, hx⟩ := SMTExpr.mk.inj hx
  obtain ⟨rfl, hy⟩ := SMTExpr.mk.inj hC
  obtain rfl := eq_of_heq hx
  obtain rfl := eq_of_heq hy
  rw [Term.holds_cmp]
  exact decide_eq_true_iff

theorem uge_holds {w : ℕ} {x : Term Value w} {C : APInt} {e : Term Value 1}
    (h : SMTExpr.cmp .uge ⟨w, x⟩ (.bvconst C) = .ok e) :
    e.Holds σ ↔ C.toNat ≤ (x.eval σ).toNat := by
  obtain ⟨w', x', y, hx, hC, rfl⟩ := SMTExpr.zip_eq_ok.mp h
  obtain ⟨rfl, hx⟩ := SMTExpr.mk.inj hx
  obtain ⟨rfl, hy⟩ := SMTExpr.mk.inj hC
  obtain rfl := eq_of_heq hx
  obtain rfl := eq_of_heq hy
  rw [Term.holds_cmp]
  exact decide_eq_true_iff

/-- The condition that is assumed for a range says that the value is in it. -/
theorem rangeCondition_holds {w : ℕ} {x : Term Value w} {Lo Hi : APInt} {e : Term Value 1}
    (h : rangeCondition ⟨w, x⟩ Lo Hi = .ok e) :
    e.Holds σ ↔ InRange (x.eval σ).toNat Lo Hi := by
  unfold rangeCondition at h
  unfold InRange
  split at h
  · rename_i hLo
    rw [ult_holds h, hLo, if_pos (Nat.zero_le _)]
    simp
  · rename_i hLo
    split at h
    · rename_i hHi
      rw [uge_holds h, hHi, if_neg (by omega)]
      simp
    · obtain ⟨c₀, h₀, h⟩ := bind_eq_ok.mp h
      obtain ⟨c₁, h₁, h⟩ := bind_eq_ok.mp h
      obtain rfl := Except.ok.inj h
      split <;> simp [uge_holds h₀, ult_holds h₁]

/-- What is assumed about a value is true if its metadata is. -/
theorem MetadataHolds.assumes (h : MetadataHolds DL P intrange σ) {i : InstId}
    {Cond : Term Value 1} (hCond : Assumes DL P intrange i Cond) : Cond.Holds σ := by
  obtain ⟨MD, w, Lo, Hi, hMD, hmem, hne, hw, hrange⟩ := hCond
  exact (rangeCondition_holds hrange).mpr (h i MD w hMD hw Lo Hi hmem hne)

/-- What was assumed when a table is filled is true. -/
theorem get_assumes (h : MetadataHolds DL P intrange σ) {n : ℕ} {k : Key}
    {t t' : PathGen.State} {E : SMTExpr Value} (ht : ∀ a ∈ t.out, a.Holds σ)
    (hget : get DL P intrange Backedges (some ncd) n k t = .ok (E, t')) :
    ∀ a ∈ t'.out, a.Holds σ :=
  get_out (W := fun a => a.Holds σ) (Q := fun _ _ => True)
    (fun k => (analyze_assumes DL P intrange Backedges (some ncd) k).mono_out
      fun _ ⟨_, hCond⟩ => h.assumes hCond) ht hget

/-! ## Reports -/

/-- The solver answers that a query is unsatisfiable only if it is. -/
def SoundQuery (query : List (Term Value 1) → Term Value 1 → SMTStatus) : Prop :=
  ∀ assumed Query, query assumed Query = .unsat →
    ∀ σ, (∀ a ∈ assumed, a.Holds σ) → ¬ Query.Holds σ

/-- A verdict about the condition is right wherever the assumptions and the path condition are true.
-/
theorem reason_sound (ValuePred : Term Value 1) (hsolver : SoundQuery query)
    {assumed : List (Term Value 1)} {PathPred : Term Value 1} (hassumed : ∀ a ∈ assumed, a.Holds σ)
    (hpath : PathPred.Holds σ) :
    (reason query assumed ValuePred PathPred = some cmpFalse → ¬ ValuePred.Holds σ) ∧
      (reason query assumed ValuePred PathPred = some cmpTrue → ValuePred.Holds σ) := by
  have hne : cmpFalse ≠ cmpTrue := by decide
  unfold reason
  split
  · rename_i hunsat
    refine ⟨fun _ hvalue => ?_, fun h => absurd (Option.some.inj h) hne⟩
    exact hsolver _ _ hunsat σ hassumed (Term.holds_bvand.mpr ⟨hvalue, hpath⟩)
  · split
    · rename_i hunsat
      refine ⟨fun h => absurd (Option.some.inj h).symm hne, fun _ => ?_⟩
      by_contra hvalue
      exact hsolver _ _ hunsat σ hassumed
        (Term.holds_bvand.mpr ⟨Term.holds_bvnot.mpr hvalue, hpath⟩)
    · exact ⟨fun h => (by cases h), fun h => (by cases h)⟩

/-- What is reported about the branch at the end of the current block. The state of the run
satisfies the assumptions and the path condition, so a solver that says *unsatisfiable* about one of
the two values of the condition excludes this value. -/
theorem check_sound (hssa : SSAForm P entry F) (hncd : NearestCommonDominators P ncd entry)
    (hguard : GuardsTrue DL P intrange Backedges ncd entry Exec σ₀)
    (hdenote : TermsDenote DL P intrange entry Exec σ₀)
    (hrange : ∀ s, Runs DL P Exec entry σ₀ s → MetadataHolds DL P intrange s.env)
    (hsolver : SoundQuery query) (hs : Runs DL P Exec entry σ₀ s) (hrest : s.rest = [])
    {n : ℕ} {Reason : String}
    (h : check DL P intrange Backedges ncd query n (P.block s.block).term = .ok (some Reason)) :
    (Reason = cmpFalse → ¬ Takes DL P s.env (P.inst (P.block s.block).term).op 0) ∧
      (Reason = cmpTrue → ¬ Takes DL P s.env (P.inst (P.block s.block).term).op 1) := by
  have hreach := (hs.invariant hssa hncd hguard hdenote).reachable
  have hmem : (P.block s.block).term ∈ (P.block s.block).insts := by simp [BasicBlock.insts]
  unfold check at h
  rw [hssa.inst_parent s.block hreach _ hmem] at h
  have huse := hssa.use s.block hreach _ hmem
  cases hop : (P.inst (P.block s.block).term).op with
  | condBr V ifTrue ifFalse =>
    rw [hop] at h huse
    obtain ⟨⟨EV, t⟩, hEV, h⟩ := bind_eq_ok.mp h
    obtain ⟨ValuePred, hValuePred, h⟩ := bind_eq_ok.mp h
    obtain ⟨⟨EP, t'⟩, hEP, h⟩ := bind_eq_ok.mp h
    obtain ⟨PathPred, hPathPred, h⟩ := bind_eq_ok.mp h
    obtain rfl := SMTExpr.formula_eq_ok.mp hValuePred
    obtain rfl := SMTExpr.formula_eq_ok.mp hPathPred
    obtain ⟨hvalue, ht⟩ := get_sound consistent_init hEV
    obtain ⟨G, hG, hpath⟩ := hs.holds hssa hncd hguard hdenote (get_sound ht hEP).1
    obtain rfl := SMTExpr.ofFormula_inj.mp hG
    have hassumed := get_assumes (hrange s hs) (get_assumes (hrange s hs)
      (fun _ ha => (by cases ha)) hEV) hEP
    obtain ⟨hfalse, htrue⟩ := reason_sound ValuePred hsolver hassumed hpath
    have hcurrent : ∀ b, Current DL P s.env V (.ofBool b) →
        ValuePred.eval s.env = BitVec.ofBool b := by
      intro b hb
      have hV := huse rfl V List.mem_cons_self
      have heval := hdenote.current hs hrest hV hb (value_inl_iff.mp hvalue)
      exact eq_of_heq (APInt.mk.inj heval).2
    constructor
    · rintro rfl htakes
      exact hfalse (Except.ok.inj h) (hcurrent true htakes)
    · rintro rfl htakes
      have hholds : ValuePred.eval s.env = 1#1 := htrue (Except.ok.inj h)
      rw [hcurrent false htakes] at hholds
      exact absurd hholds (by decide)
  | _ =>
    rw [hop] at h
    cases h

/-- What is reported about a branch is what `check` says of it. -/
theorem runOnFunction_mem {n : ℕ} {reports : List (InstId × Option String)}
    (h : runOnFunction DL P intrange Backedges ncd query n F = .ok reports) :
    ∀ r ∈ reports, check DL P intrange Backedges ncd query n r.1 = .ok r.2 := by
  unfold runOnFunction at h
  generalize (P.func F).blocks = blocks at h
  induction blocks generalizing reports with
  | nil =>
    obtain rfl := Except.ok.inj h
    exact fun r hr => (by cases hr)
  | cons BB blocks ih =>
    rw [List.mapM_cons] at h
    obtain ⟨r, hr, h⟩ := bind_eq_ok.mp h
    obtain ⟨rs, hrs, h⟩ := bind_eq_ok.mp h
    obtain rfl := Except.ok.inj h
    obtain ⟨Reason, hReason, hr⟩ := bind_eq_ok.mp hr
    obtain rfl := Except.ok.inj hr
    intro r' hr'
    rcases List.mem_cons.mp hr' with rfl | hr'
    · exact hReason
    · exact ih hrs r' hr'

/-- In every state of every run of a function in SSA form, the formula that
`PathGen::get` returns for the current block, with a dominator tree, is true of what
the names hold; and a branch that `CmpSat` reports as always false (always true)
does not take its true (false) edge. -/
theorem runOnFunction_sound (hssa : SSAForm P entry F)
    (hncd : NearestCommonDominators P ncd entry)
    (hguard : GuardsTrue DL P intrange Backedges ncd entry Exec σ₀)
    (hdenote : TermsDenote DL P intrange entry Exec σ₀)
    (hrange : ∀ s, Runs DL P Exec entry σ₀ s → MetadataHolds DL P intrange s.env)
    (hsolver : SoundQuery query) (hs : Runs DL P Exec entry σ₀ s) :
    (∀ t, PathGen.Reached DL P intrange Backedges (some ncd) t → ∀ n E t',
      PathGen.get DL P intrange Backedges (some ncd) n (.inr s.block) t = .ok (E, t') →
      ∃ G, E = .ofFormula G ∧ G.Holds s.env) ∧
    (s.rest = [] → ∀ n reports,
      runOnFunction DL P intrange Backedges ncd query n F = .ok reports →
      (((P.block s.block).term, some cmpFalse) ∈ reports →
        ¬ Takes DL P s.env (P.inst (P.block s.block).term).op 0) ∧
      (((P.block s.block).term, some cmpTrue) ∈ reports →
        ¬ Takes DL P s.env (P.inst (P.block s.block).term).op 1)) := by
  constructor
  · intro t ht n E t' hget
    exact hs.holds hssa hncd hguard hdenote (get_sound ht.consistent hget).1
  · intro hrest n reports h
    have hcheck : ∀ Reason, ((P.block s.block).term, some Reason) ∈ reports → _ :=
      fun Reason hmem => check_sound hssa hncd hguard hdenote hrange hsolver hs hrest
        (runOnFunction_mem h _ hmem)
    exact ⟨fun hmem => (hcheck _ hmem).1 rfl, fun hmem => (hcheck _ hmem).2 rfl⟩

end Soundness

/-! ## A comparison that is made twice -/

/-- A loop that compares its variable with the argument in the header (block 1), and
again in the body (block 2). -/
def recheckProgram : Program where
  insts := [
    ⟨0, .other, .br 1, none, none⟩,
    ⟨1, .int 8, .phi [(.constInt (.ofNat 8 0), 0), (.inst 4, 2)], none, none⟩,
    ⟨1, .int 1, .icmp .ult (.inst 1) (.argument 0 0), none, none⟩,
    ⟨1, .other, .condBr (.inst 2) 2 3, none, none⟩,
    ⟨2, .int 8, .other [], none, none⟩,
    ⟨2, .int 1, .icmp .uge (.inst 1) (.argument 0 0), none, none⟩,
    ⟨2, .other, .condBr (.inst 5) 3 1, none, none⟩,
    ⟨3, .other, .ret none, none, none⟩]
  blocks := [⟨0, [], 0, []⟩, ⟨0, [1, 2], 3, [0, 2]⟩, ⟨0, [4, 5], 6, [1]⟩, ⟨0, [], 7, [1, 2]⟩]
  funcs := [⟨⟨"recheck", .external, "a.c"⟩, false, [.int 8], .other, [0, 1, 2, 3]⟩]
  globals := []
  structs := []
  consts := []

/-- The nearest common dominators of its blocks; those from 4 on are not there. -/
def recheckNcd (A B : BlockId) : BlockId :=
  if 4 ≤ A then B else if 4 ≤ B then A else if A = B then A
  else if A = 0 ∨ B = 0 then 0 else 1

/-- The comparisons compute what they say, other instructions anything. -/
def recheckExec (i : InstId) (_ σ : Assignment Value) : Prop :=
  (i = 2 → σ (.inst 2) 1 = .ofBool ((σ (.inst 1) 8).ult (σ (.argument 0 0) 8))) ∧
    (i = 5 → σ (.inst 5) 1 = .ofBool ((σ (.argument 0 0) 8).ule (σ (.inst 1) 8)))

theorem recheck_edge {Pred BB : ℕ} (h : Edge recheckProgram Pred BB) :
    (BB = 1 ∧ (Pred = 0 ∨ Pred = 2)) ∨ (BB = 2 ∧ Pred = 1) ∨
      (BB = 3 ∧ (Pred = 1 ∨ Pred = 2)) := by
  match BB with
  | 0 => cases h
  | 1 => simpa [Edge, recheckProgram, Program.block] using h
  | 2 => simpa [Edge, recheckProgram, Program.block] using h
  | 3 => simpa [Edge, recheckProgram, Program.block] using h
  | BB + 4 => cases h

/-- Only the blocks of the program are reached. -/
theorem recheck_lt {BB : ℕ} (h : Reachable recheckProgram 0 BB) : BB < 4 := by
  cases h with
  | start _ => decide
  | step _ hedge _ => rcases recheck_edge hedge with h | h | h <;> omega

theorem recheck_body : Dominates recheckProgram 0 1 2 := by
  intro hpath
  cases hpath with
  | step hpath hedge _ =>
    obtain rfl := List.mem_singleton.mp hedge
    exact hpath.not_mem rfl

theorem recheck_exit : Dominates recheckProgram 0 1 3 := by
  intro hpath
  cases hpath with
  | step hpath hedge _ =>
    rcases List.mem_pair.mp hedge with rfl | rfl
    · exact hpath.not_mem rfl
    · exact recheck_body hpath

/-- The header dominates what follows it. -/
theorem recheck_header {C : ℕ} (h₀ : C ≠ 0) (h₄ : C < 4) :
    Dominates recheckProgram 0 1 C := by
  obtain rfl | rfl | rfl : C = 1 ∨ C = 2 ∨ C = 3 := by omega
  · exact .refl 1
  · exact recheck_body
  · exact recheck_exit

/-- A strict dominator of what follows the header dominates the header. -/
theorem recheck_above {C D : ℕ} (h₀ : C ≠ 0) (h₄ : C < 4) (hne : D ≠ C)
    (h : Dominates recheckProgram 0 D C) : Dominates recheckProgram 0 D 1 := by
  obtain rfl | rfl | rfl : C = 1 ∨ C = 2 ∨ C = 3 := by omega
  · exact h
  · exact h.pred hne (List.mem_singleton_self 1)
  · exact h.pred hne List.mem_cons_self

/-- The nearest common dominators of the blocks are what the table says. The blocks outside of the
program are dominated by everything, since they are not reached. -/
theorem recheck_ncd : NearestCommonDominators recheckProgram recheckNcd 0 := by
  have hjunk : ∀ D BB, 4 ≤ BB → Dominates recheckProgram 0 D BB := fun D BB hBB hpath =>
    absurd (recheck_lt hpath.reach) (not_lt.mpr hBB)
  intro A B
  unfold recheckNcd
  split
  · rename_i hA
    exact ⟨hjunk _ A hA, .refl B, fun D _ hD => hD⟩
  split
  · rename_i hB
    exact ⟨.refl A, hjunk _ B hB, fun D hD _ => hD⟩
  split
  · rename_i heq
    subst heq
    exact ⟨.refl A, .refl A, fun D hD _ => hD⟩
  split
  · rename_i h₀
    refine ⟨Digraph.dom_entry, Digraph.dom_entry, fun D hA hB => ?_⟩
    rcases h₀ with rfl | rfl
    · exact hA
    · exact hB
  · rename_i hA hB hne h₀
    obtain ⟨hA₀, hB₀⟩ := not_or.mp h₀
    refine ⟨recheck_header hA₀ (not_le.mp hA), recheck_header hB₀ (not_le.mp hB),
      fun D hDA hDB => ?_⟩
    by_cases heq : D = A
    · exact recheck_above hB₀ (not_le.mp hB) (fun h => hne (heq.symm.trans h)) hDB
    · exact recheck_above hA₀ (not_le.mp hA) heq hDA

theorem recheck_blocks {BB : ℕ} (h : Reachable recheckProgram 0 BB) :
    BB = 0 ∨ BB = 1 ∨ BB = 2 ∨ BB = 3 := by
  have hlt := recheck_lt h
  omega

/-- The uses of names in the loop. -/
def recheckUse (BB : BlockId) : Value → Bool
  | .inst i => [(1, 1), (1, 2), (2, 1), (2, 4), (2, 5)].contains (BB, i)
  | _ => true

/-- The uses in the loop are dominated by the definitions. -/
theorem recheck_available {BB : BlockId} {V : Value} (h : recheckUse BB V = true) :
    AvailableAt recheckProgram 0 BB V := by
  rintro i rfl
  simp only [recheckUse, List.contains_iff_mem, List.mem_cons, Prod.mk.injEq, List.not_mem_nil,
    or_false] at h
  rcases h with ⟨rfl, rfl⟩ | ⟨rfl, rfl⟩ | ⟨rfl, rfl⟩ | ⟨rfl, rfl⟩ | ⟨rfl, rfl⟩
  · exact ⟨by decide, .refl 1⟩
  · exact ⟨by decide, .refl 1⟩
  · exact ⟨by decide, recheck_body⟩
  · exact ⟨by decide, .refl 2⟩
  · exact ⟨by decide, .refl 2⟩

theorem recheck_ssaForm : SSAForm recheckProgram 0 0 where
  entry_block := rfl
  parent BB hBB := by
    rcases recheck_blocks hBB with rfl | rfl | rfl | rfl <;> rfl
  succ_iff_pred Pred BB := by
    constructor
    · intro h
      match Pred with
      | 0 =>
        obtain rfl := List.mem_singleton.mp h
        decide
      | 1 => rcases List.mem_pair.mp h with rfl | rfl <;> decide
      | 2 => rcases List.mem_pair.mp h with rfl | rfl <;> decide
      | 3 => cases h
      | Pred + 4 => cases h
    · intro h
      rcases recheck_edge h with ⟨rfl, rfl | rfl⟩ | ⟨rfl, rfl⟩ | ⟨rfl, rfl | rfl⟩ <;> decide
  inst_parent BB hBB := by
    rcases recheck_blocks hBB with rfl | rfl | rfl | rfl <;> decide
  constant c V hV := by
    cases c <;> cases hV
  use BB hBB i hi hphi V hV := by
    have huse : ∀ B ∈ [0, 1, 2, 3], ∀ i ∈ (recheckProgram.block B).insts,
        (recheckProgram.inst i).op.isPhi = false → ∀ V ∈ (recheckProgram.inst i).op.operands,
        recheckUse B V = true := by decide
    refine recheck_available (huse BB ?_ i hi hphi V hV)
    simpa using recheck_blocks hBB
  incoming BB hBB i hi incoming hop V Pred hmem := by
    obtain ⟨rfl, rfl⟩ : BB = 1 ∧ i = 1 := by
      have hphi : ∀ B ∈ [0, 1, 2, 3], ∀ i ∈ (recheckProgram.block B).insts,
          (recheckProgram.inst i).op.isPhi = true → B = 1 ∧ i = 1 := by decide
      refine hphi BB (by simpa using recheck_blocks hBB) i hi ?_
      rw [hop]
      rfl
    obtain rfl := Opcode.phi.inj hop
    rcases List.mem_pair.mp hmem with h | h
    · obtain ⟨rfl, rfl⟩ := Prod.mk.inj h
      exact fun j hj => by cases hj
    · obtain ⟨rfl, rfl⟩ := Prod.mk.inj h
      exact recheck_available rfl

/-- What the machine knows at a state of the loop. In a block other than the header, the result of
the first comparison is that for the current values; in the body, so is that of the second one, once
it ran. -/
structure RecheckInv (s : MachineState) : Prop where
  reachable : Reachable recheckProgram 0 s.block
  rest : ∀ i ∈ s.rest, i ∈ (enter recheckProgram s.block s.env).rest
  header : s.block ≠ 0 → (s.block = 1 → 2 ∉ s.rest) →
    s.env (.inst 2) 1 = .ofBool ((s.env (.inst 1) 8).ult (s.env (.argument 0 0) 8))
  body : s.block = 2 → 5 ∉ s.rest →
    s.env (.inst 5) 1 = .ofBool ((s.env (.argument 0 0) 8).ule (s.env (.inst 1) 8))

/-- Entering a block without phi nodes changes no name. -/
theorem recheck_frame {BB : BlockId} {σ σ' : Assignment Value} (hBB : BB = 2 ∨ BB = 3)
    (hσ : ∀ V, (∀ i ∈ (recheckProgram.block BB).insts,
      (recheckProgram.inst i).op.isPhi = true → V ≠ .inst i) → σ V = σ' V) (V : Value) :
    σ V = σ' V := by
  have hno : ∀ B ∈ [2, 3], ∀ i ∈ (recheckProgram.block B).insts,
      (recheckProgram.inst i).op.isPhi = false := by decide
  refine hσ V fun i hi hphi => ?_
  exact absurd hphi (ne_true_of_eq_false (hno BB (by simpa using hBB) i hi))

/-- The machine knows this in every state of a run. By induction on the run. The comparisons are
computed again in each round before they are used, and the edge to the header is where they become
outdated. -/
theorem recheck_inv {σ₀ : Assignment Value} {s : MachineState}
    (hs : Runs fieldLayout recheckProgram recheckExec 0 σ₀ s) : RecheckInv s := by
  unfold Runs at hs
  induction hs with
  | refl => exact ⟨.start, fun i hi => hi, fun h => absurd rfl h, fun h => by cases h⟩
  | tail hrun hstep ih =>
    cases hstep with
    | @exec BB i is σ σ' hexec hσ =>
      have h₁ : i ≠ 1 := by
        rintro rfl
        cases (List.mem_filter.mp (ih.rest 1 List.mem_cons_self)).2
      have hkeep : ∀ j, i ≠ j → σ (.inst j) = σ' (.inst j) :=
        fun j hj => hσ _ fun h => hj (Value.inst.inj h).symm
      have hn : σ (.argument 0 0) = σ' (.argument 0 0) := hσ _ nofun
      refine ⟨ih.reachable, fun j hj => ih.rest j (List.mem_cons_of_mem _ hj),
        fun hBB h₂ => ?_, fun hBB h₅ => ?_⟩
      · by_cases heq : i = 2
        · exact hexec.1 heq
        · show σ' (.inst 2) 1 = .ofBool ((σ' (.inst 1) 8).ult (σ' (.argument 0 0) 8))
          rw [← hkeep 2 heq, ← hkeep 1 h₁, ← hn]
          exact ih.header hBB fun h => List.not_mem_cons_of_ne_of_not_mem (Ne.symm heq) (h₂ h)
      · by_cases heq : i = 5
        · exact hexec.2 heq
        · show σ' (.inst 5) 1 = .ofBool ((σ' (.argument 0 0) 8).ule (σ' (.inst 1) 8))
          rw [← hkeep 5 heq, ← hkeep 1 h₁, ← hn]
          exact ih.body hBB (List.not_mem_cons_of_ne_of_not_mem (Ne.symm heq) h₅)
    | @edge Pred BB k σ σ' hsucc htakes hphis hσ =>
      have hedge : Edge recheckProgram Pred BB :=
        (recheck_ssaForm.succ_iff_pred Pred BB).mp (List.mem_of_getElem? hsucc)
      have hBB := ih.reachable.step hedge
      -- the comparison of the header is not made again on the way to blocks 2 and 3
      have hheader : BB = 2 ∨ BB = 3 → Pred ≠ 0 →
          σ' (.inst 2) 1 = .ofBool ((σ' (.inst 1) 8).ult (σ' (.argument 0 0) 8)) := by
        intro hBB hPred
        have hsame := recheck_frame hBB hσ
        rw [← hsame, ← hsame, ← hsame]
        exact ih.header hPred fun _ => List.not_mem_nil
      rcases recheck_edge hedge with ⟨rfl, -⟩ | ⟨rfl, rfl⟩ | ⟨rfl, hPred⟩
      · exact ⟨hBB, fun i hi => hi,
          fun _ h => absurd (List.mem_filter.mpr ⟨by decide, rfl⟩) (h rfl), fun h => by cases h⟩
      · exact ⟨hBB, fun i hi => hi, fun _ _ => hheader (.inl rfl) nofun,
          fun _ h => absurd (List.mem_filter.mpr ⟨by decide, rfl⟩) h⟩
      · refine ⟨hBB, fun i hi => hi, fun _ _ => hheader (.inr rfl) ?_, fun h => by cases h⟩
        rcases hPred with rfl | rfl <;> nofun

theorem recheck_body_only {BB : ℕ} (hBB : Reachable recheckProgram 0 BB)
    (h : Dominates recheckProgram 0 2 BB) : BB = 2 := by
  have hheader : ¬ Dominates recheckProgram 0 2 1 := fun h =>
    h ((Digraph.AvoidReach.start nofun).step List.mem_cons_self nofun)
  rcases recheck_blocks hBB with rfl | rfl | rfl | rfl
  · exact h.eq_entry.symm
  · exact absurd h hheader
  · rfl
  · exact absurd (h.pred nofun List.mem_cons_self) hheader

/-- At the end of a block, the names defined so far have the values that the
language gives them. -/
theorem recheck_current {σ₀ : Assignment Value} {s : MachineState}
    (hs : Runs fieldLayout recheckProgram recheckExec 0 σ₀ s) (hrest : s.rest = [])
    {i : InstId} {x : APInt} (hi : AvailableAt recheckProgram 0 s.block (.inst i))
    (hx : leafValue fieldLayout recheckProgram s.env (.inst i) = some x) :
    HasValue fieldLayout recheckProgram s.env (.inst i) x := by
  have hinv := recheck_inv hs
  have hdom := (hi i rfl).2
  match i with
  | 0 | 3 | 6 | 7 => cases hx
  | 1 => exact hasValue_phi rfl hx
  | 2 =>
    have hBB : s.block ≠ 0 := fun h => by
      rw [h] at hdom
      cases hdom.eq_entry
    have heq := hinv.header hBB fun _ => hrest ▸ List.not_mem_nil
    obtain rfl := Option.some.inj hx
    show HasValue fieldLayout recheckProgram s.env (.inst 2) ⟨1, s.env (.inst 2) 1⟩
    rw [heq]
    exact ⟨2, rfl⟩
  | 4 => exact ⟨1, hx⟩
  | 5 =>
    have heq := hinv.body (recheck_body_only hinv.reachable hdom) (hrest ▸ List.not_mem_nil)
    obtain rfl := Option.some.inj hx
    show HasValue fieldLayout recheckProgram s.env (.inst 5) ⟨1, s.env (.inst 5) 1⟩
    rw [heq]
    exact ⟨2, rfl⟩
  | i + 8 => cases hx

theorem recheck_denotes (σ₀ : Assignment Value) :
    TermsDenote fieldLayout recheckProgram (fun _ => none) 0 recheckExec σ₀ :=
  fun _ hs hrest _ _ _ hi hE hx => term_denotes (recheck_current hs hrest hi hx) hE

/-- The guard of an edge is true when the edge is taken. -/
theorem recheck_guards (σ₀ : Assignment Value) : GuardsTrue fieldLayout recheckProgram
    (fun _ => none) [(2, 1)] recheckNcd 0 recheckExec σ₀ := by
  intro s hs hrest k BB hsucc htakes t ht
  have hbranch : ∀ cond ifTrue ifFalse,
      (recheckProgram.inst (recheckProgram.block s.block).term).op =
        .condBr cond ifTrue ifFalse → ifTrue ≠ ifFalse → t.Holds s.env := by
    intro cond ifTrue ifFalse hop hne
    rw [hop] at hsucc htakes ht
    exact branchGuard_holds recheck_ssaForm (recheck_denotes σ₀) hs hrest hop hne hsucc htakes ht
  rcases recheck_blocks (hs.reachable recheck_ssaForm) with h | h | h | h
  · rw [h] at ht
    rw [← Calls.yields_ret.mp ht]
    exact Term.holds_bvtrue
  · exact hbranch (.inst 2) 2 3 (by rw [h]; rfl) (by decide)
  · exact hbranch (.inst 5) 3 1 (by rw [h]; rfl) (by decide)
  · rw [h] at hsucc
    cases hsucc

open Classical in
/-- A solver that decides every query. -/
noncomputable def idealQuery (assumed : List (Term Value 1)) (Query : Term Value 1) : SMTStatus :=
  if ∃ σ, (∀ a ∈ assumed, a.Holds σ) ∧ Query.Holds σ then .sat else .unsat

/-- The ideal solver answers *unsatisfiable* exactly where that is so. -/
theorem idealQuery_eq_unsat {assumed : List (Term Value 1)} {Query : Term Value 1} :
    idealQuery assumed Query = .unsat ↔ ∀ σ, (∀ a ∈ assumed, a.Holds σ) → ¬ Query.Holds σ := by
  unfold idealQuery
  split
  · rename_i h
    obtain ⟨σ, ha, hq⟩ := h
    exact iff_of_false nofun fun h => h σ ha hq
  · rename_i h
    exact iff_of_true rfl fun σ ha hq => h ⟨σ, ha, hq⟩

theorem idealQuery_sound : SoundQuery idealQuery := fun _ _ => idealQuery_eq_unsat.mp

/-- The term of the second comparison. -/
def recheckValue : Term Value 1 := .cmp .uge (.var 8 (.inst 1)) (.var 8 (.argument 0 0))

/-- The path condition of the body. -/
def recheckPath : Term Value 1 :=
  .bvor .bvfalse (.bvand (.bvand (.cmp .ult (.var 8 (.inst 1)) (.var 8 (.argument 0 0)))
    .bvtrue) .bvtrue)

/-- The negation of the second comparison and the path condition are not true together. -/
theorem recheck_unsat {σ : Assignment Value} (hvalue : recheckValue.Holds σ) :
    ¬ recheckPath.Holds σ := by
  intro hpath
  rcases Term.holds_bvor.mp hpath with hfalse | hedge
  · exact Term.not_holds_bvfalse hfalse
  · have hlt := Term.holds_cmp.mp (Term.holds_bvand.mp (Term.holds_bvand.mp hedge).1).1
    have hge := Term.holds_cmp.mp hvalue
    rw [evalCmp, BitVec.ult_iff_lt] at hlt
    rw [evalCmp, BitVec.ule_iff_le] at hge
    exact absurd hlt (BitVec.not_lt.mpr hge)

/-- The second comparison is reported. -/
theorem recheck_reported : ∃ n reports,
    runOnFunction fieldLayout recheckProgram (fun _ => none) [(2, 1)] recheckNcd idealQuery n 0 =
      .ok reports ∧ (6, some cmpFalse) ∈ reports := by
  have hreason : reason idealQuery [] recheckValue recheckPath = some cmpFalse := by
    refine if_pos (idealQuery_eq_unsat.mpr fun σ _ hquery => ?_)
    obtain ⟨hvalue, hpath⟩ := Term.holds_bvand.mp hquery
    exact recheck_unsat hvalue hpath
  obtain ⟨r₀, r₃, r₇, hrun⟩ : ∃ r₀ r₃ r₇, runOnFunction fieldLayout recheckProgram
      (fun _ => none) [(2, 1)] recheckNcd idealQuery 6 0 =
        .ok [r₀, r₃, (6, reason idealQuery [] recheckValue recheckPath), r₇] :=
    ⟨_, _, _, rfl⟩
  refine ⟨6, _, hrun, ?_⟩
  rw [hreason]
  simp

theorem recheck_sound :
    (∀ σ₀ s, Runs fieldLayout recheckProgram recheckExec 0 σ₀ s → ∀ t,
      PathGen.Reached fieldLayout recheckProgram (fun _ => none) [(2, 1)] (some recheckNcd) t →
      ∀ n E t', PathGen.get fieldLayout recheckProgram (fun _ => none) [(2, 1)]
        (some recheckNcd) n (.inr s.block) t = .ok (E, t') →
      ∃ G, E = .ofFormula G ∧ G.Holds s.env) ∧
    ∀ σ₀ s, Runs fieldLayout recheckProgram recheckExec 0 σ₀ s → s.rest = [] → s.block = 2 →
      ¬ Takes fieldLayout recheckProgram s.env (.condBr (.inst 5) 3 1) 0 := by
  have hsound := fun σ₀ (s : MachineState) hs => runOnFunction_sound recheck_ssaForm recheck_ncd
    (recheck_guards σ₀) (recheck_denotes σ₀) (fun _ _ _ _ _ h => (by cases h))
    idealQuery_sound (s := s) hs
  refine ⟨fun σ₀ s hs => (hsound σ₀ s hs).1, fun σ₀ s hs hrest hBB => ?_⟩
  obtain ⟨n, reports, hrun, hmem⟩ := recheck_reported
  have hnot := ((hsound σ₀ s hs).2 hrest n reports hrun).1
  rw [hBB] at hnot
  exact hnot hmem

end CmpSat

end Kint
