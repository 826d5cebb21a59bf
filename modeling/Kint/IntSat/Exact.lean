import Kint.IntSat.Assumed

/-!
# `IntSat` reports exactly the conditions that can be true

With a solver that decides its queries, a call of `int.sat` is reported just when the condition
that it passes can be true where it stands: under some assignment, the condition holds, a path
of true guards leads from the entry to the block, and the instructions that the query depends on
are in their ranges.  The first such call of a condition is the one that is reported
(`mem_reports_iff`).  A timer takes away the reports of its own queries only.

## One query

* `Feasible`, `Satisfiable`: what a query asks, without terms: an assignment and a path of
  guards.
* `Expressible`: the formulas of a query can be made.
* `query_sat_iff`, `query_model`: the answer and the model.

## The loop

A call that is to be checked is a `Suspect`.  What becomes of it depends on the suspects before
it only through the set of conditions that were found satisfiable, so the loop is described by
two functions of the list of suspects (`toldSuspects`, `isSaved`), and `checks_told` is the
induction.  A suspect may be told without being saved, if the timer strikes between the two;
this is why both are there.

## Main results

* `mem_reports_iff`: the calls that are reported, when the pass ends.
* `reports_nodup`: a condition is reported once.
* `runOnFunction_model`: the model of a report belongs to an assignment that makes the condition
  true.

That the pass ends is shown in `Kint.IntSat.Ends`, and `Kint.IntSat.Module` has both together,
for all functions of a module.
-/

namespace Kint

open Iteration Memo SMT PathGen ValueGen

/-- The solver answers that a query is satisfiable just when it is, and its model then
satisfies the assumed formulas and the query. -/
structure Solver.Decides (S : Solver) : Prop where
  sat : ∀ assumed Query, S.query assumed Query = .sat →
    (∀ a ∈ assumed, a.Holds (S.model assumed Query)) ∧ Query.Holds (S.model assumed Query)
  unsat : ∀ assumed Query, S.query assumed Query ≠ .sat →
    ∀ σ, (∀ a ∈ assumed, a.Holds σ) → ¬ Query.Holds σ

namespace IntSat

/-! ## What a query asks -/

section Query

variable (DL : DataLayout) (P : Program) (intrange : InstId → Option (List (APInt × APInt)))
  (Backedges : List (BlockId × BlockId)) (V : Value) (BB : BlockId)

/-- Under the assignment, the condition is true and the block is reached by a path of true
guards without back edges, and range metadata is right for what these depend on. -/
structure Feasible (σ : Assignment Value) : Prop where
  condition : ∃ e, Memo.Value (PathGen.analyze DL P intrange Backedges none) (.inl V)
    (.ofFormula e) ∧ e.Holds σ
  path : GuardedPath DL P intrange Backedges σ BB
  ranges : RangesHold DL P intrange
    (fun i => QueryNeeds DL P intrange Backedges V BB (.inl (.inst i))) σ

/-- The condition and the path condition are formulas: no assertion fails on the way. -/
def Expressible : Prop :=
  (∃ e, Memo.Value (PathGen.analyze DL P intrange Backedges none) (.inl V) (.ofFormula e)) ∧
    ∃ g, Memo.Value (PathGen.analyze DL P intrange Backedges none) (.inr BB) (.ofFormula g)

/-- The condition can be true in the block. -/
def Satisfiable : Prop :=
  Expressible DL P intrange Backedges V BB ∧ ∃ σ, Feasible DL P intrange Backedges V BB σ

variable {DL P intrange Backedges V BB} {C : Config} {n : ℕ} {I : InstId}

/-- Two calls from the empty table whose results exist fail no assertion. -/
theorem gets_ne_fatal {k k' : Key} {E E' : SMTExpr Value} {α : Type}
    (next : SMTExpr Value × PathGen.State → SMTExpr Value × PathGen.State → Except Stop α)
    (hk : Memo.Value (PathGen.analyze DL P intrange Backedges none) k E)
    (hk' : Memo.Value (PathGen.analyze DL P intrange Backedges none) k' E')
    (hnext : ∀ s s', next (E, s) (E', s') ≠ .error .fatal) :
    (PathGen.get DL P intrange Backedges none n k .init >>= fun r =>
      PathGen.get DL P intrange Backedges none n k' r.2 >>= next r) ≠ .error .fatal := by
  intro h
  rcases bind_eq_error.mp h with h | ⟨⟨E₁, t⟩, h₁, h⟩
  · exact get_ne_fatal consistent_init hk h
  · obtain ⟨hE₁, ht⟩ := get_sound consistent_init h₁
    rcases bind_eq_error.mp h with h | ⟨⟨E₂, t'⟩, h₂, h⟩
    · exact get_ne_fatal ht hk' h
    · obtain ⟨hE₂, -⟩ := get_sound ht h₂
      obtain rfl := hk.unique hE₁
      obtain rfl := hk'.unique hE₂
      exact hnext _ _ h

/-- Formulas that exist are made, given enough fuel. -/
theorem operands_ne_fatal (h : Expressible DL P intrange Backedges V BB) :
    operands DL P intrange Backedges C n V BB ≠ .error .fatal := by
  obtain ⟨⟨e, he⟩, g, hg⟩ := h
  unfold operands
  split
  · exact gets_ne_fatal (fun r r' => do
      return (← r.1.formula, ← r'.1.formula, r'.2)) he hg fun s s' => nofun
  · exact gets_ne_fatal (fun r r' => do
      return (← r'.1.formula, ← r.1.formula, r'.2)) hg he fun s s' => nofun

/-- Formulas that are made exist. -/
theorem expressible_of_operands {r : Term Value 1 × Term Value 1 × PathGen.State}
    (h : operands DL P intrange Backedges C n V BB = .ok r) :
    Expressible DL P intrange Backedges V BB := by
  obtain ⟨e, g, s⟩ := r
  obtain ⟨he, hg, -⟩ := operands_assumed h
  exact ⟨⟨e, he⟩, g, hg⟩

/-- The query is answered as satisfiable just when the condition can be true in the block
of the call. -/
theorem query_sat_iff
    (hsolver : C.solver.Decides) (hfuel : query DL P intrange Backedges C n V I ≠ .error .fuel) :
    (∃ model, query DL P intrange Backedges C n V I = .ok (.sat, model)) ↔
      Satisfiable DL P intrange Backedges V (P.inst I).parent := by
  cases hops : operands DL P intrange Backedges C n V (P.inst I).parent with
  | error err =>
    have hquery : query DL P intrange Backedges C n V I = .error err := by
      rw [query, hops]
      rfl
    refine iff_of_false ?_ ?_
    · rintro ⟨model, hmodel⟩
      rw [hquery] at hmodel
      cases hmodel
    · rintro ⟨hexpr, -⟩
      cases err with
      | fatal => exact operands_ne_fatal hexpr hops
      | fuel => exact hfuel hquery
  | ok egs =>
    obtain ⟨e, g, s⟩ := egs
    obtain ⟨hV, hBB, -, -, hassumed⟩ := operands_assumed hops
    obtain ⟨G, hG, hpath⟩ := value_exact hBB
    obtain rfl := SMTExpr.ofFormula_inj.mp hG
    have hquery : (∃ model, query DL P intrange Backedges C n V I = .ok (.sat, model)) ↔
        C.solver.query s.out (.bvand e g) = .sat := by
      rw [query, hops]
      constructor
      · rintro ⟨model, hmodel⟩
        exact (Prod.mk.inj (Except.ok.inj hmodel)).1
      · intro hsat
        exact ⟨_, congrArg (fun r => Except.ok (r, _)) hsat⟩
    rw [hquery]
    constructor
    · intro hsat
      obtain ⟨hranges, hholds⟩ := hsolver.sat _ _ hsat
      obtain ⟨he, hg⟩ := Term.holds_bvand.mp hholds
      exact ⟨⟨⟨e, hV⟩, g, hBB⟩, _, ⟨e, hV, he⟩, (hpath _).mp hg, (hassumed _).mp hranges⟩
    · rintro ⟨-, σ, ⟨e', hV', he'⟩, hguards, hranges⟩
      obtain rfl := SMTExpr.ofFormula_inj.mp (hV.unique hV')
      by_contra hunsat
      exact hsolver.unsat _ _ hunsat σ ((hassumed σ).mpr hranges)
        (Term.holds_bvand.mpr ⟨he', (hpath σ).mpr hguards⟩)

/-- A model that is printed belongs to an assignment under which the condition is true in
the block, and shows the values that the query depends on. -/
theorem query_model
    (hsolver : C.solver.Decides) (hopt : C.SMTModelOpt = true) {model : Value → Option APInt}
    (h : query DL P intrange Backedges C n V I = .ok (.sat, model)) :
    ∃ σ, Feasible DL P intrange Backedges V (P.inst I).parent σ ∧
      (∀ U, (∃ x, model U = some x) ↔ U.isConstant = false ∧
        QueryNeeds DL P intrange Backedges V (P.inst I).parent (.inl U)) ∧
      ∀ U x, model U = some x → ∃ E, TermOf DL P intrange U E ∧ E.eval σ = x := by
  obtain ⟨⟨e, g, s⟩, hops, h⟩ := bind_eq_ok.mp h
  obtain ⟨hsat, hmodel⟩ := Prod.mk.inj (Except.ok.inj h)
  obtain ⟨hV, hBB, hs, hcache, hassumed⟩ := operands_assumed hops
  obtain ⟨G, hG, hpath⟩ := value_exact hBB
  obtain rfl := SMTExpr.ofFormula_inj.mp hG
  obtain ⟨hranges, hholds⟩ := hsolver.sat _ _ hsat
  obtain ⟨he, hg⟩ := Term.holds_bvand.mp hholds
  rw [if_pos hopt] at hmodel
  subst hmodel
  refine ⟨_, ⟨⟨e, hV, he⟩, (hpath _).mp hg, (hassumed _).mp hranges⟩, fun U => ?_,
    fun U x hx => ?_⟩
  · rw [← hcache, Option.ne_none_iff_exists']
    unfold printedModel
    cases U.isConstant <;> simp
  · unfold printedModel at hx
    split at hx
    · cases hx
    · obtain ⟨E, hE, hx⟩ := Option.map_eq_some_iff.mp hx
      exact ⟨E, value_inl_iff.mp (hs _ E hE), hx⟩

end Query

/-! ## Processes -/

section Process

variable {SMTTimeoutOpt : ℕ} {t : Timer} {α : Type} {q : Except Stop (SMTStatus × α)}
  {a : Option (SMTStatus × α)} {r : ℤ}

/-- The timer does not take away the answer. -/
def Answered (C : Config) (I : InstId) : Prop :=
  C.SMTTimeoutOpt = 0 ∨ C.timer I ≠ .strikes false

/-- The status of the child process is that of the query. -/
def Saved (C : Config) (I : InstId) : Prop := C.SMTTimeoutOpt = 0 ∨ C.timer I = .spares

/-- The code of the process is that of *satisfiable* only for this status. -/
theorem exitCode_sat {r : SMTStatus} : (exitCode r : ℤ) = SMTStatus.toInt .sat ↔ r = .sat := by
  cases r <;> decide

/-- The number of a status is that of *satisfiable* only for this status. -/
theorem toInt_sat {r : SMTStatus} : r.toInt = SMTStatus.toInt .sat ↔ r = .sat := by
  cases r <;> decide

/-- A query that needs more fuel has no outcome, unless the timer strikes before. -/
theorem forkJoin_fuel (h : forkJoin SMTTimeoutOpt t q = .ok (a, r))
    (ht : SMTTimeoutOpt = 0 ∨ t ≠ .strikes false) : q ≠ .error .fuel := by
  rintro rfl
  unfold forkJoin at h
  split at h
  · cases h
  · rename_i hzero
    cases t with
    | spares => cases h
    | strikes answered =>
      cases answered with
      | true => cases h
      | false => exact ht.elim hzero fun h => h rfl

/-- A satisfiable query is told if the answer is given. -/
theorem forkJoin_told (h : forkJoin SMTTimeoutOpt t q = .ok (a, r)) {model : α} :
    a = some (.sat, model) ↔
      (SMTTimeoutOpt = 0 ∨ t ≠ .strikes false) ∧ q = .ok (.sat, model) := by
  unfold forkJoin at h
  split at h
  · rename_i hzero
    obtain ⟨r', hq, h⟩ := bind_eq_ok.mp h
    obtain ⟨rfl, -⟩ := Prod.mk.inj (Except.ok.inj h)
    simp [hzero, hq]
  · rename_i hzero
    obtain ⟨⟨a', status⟩, hchild, h⟩ := bind_eq_ok.mp h
    obtain ⟨rfl, -⟩ := Prod.mk.inj (Except.ok.inj h)
    unfold child at hchild
    split at hchild <;> cases hchild <;> simp_all

/-- A satisfiable query is saved if its status is that of the process. A timer that strikes, even
after the report, ends the child by a signal, and the parent then takes the status for that of a
failure. -/
theorem forkJoin_saved (h : forkJoin SMTTimeoutOpt t q = .ok (a, r)) :
    r = SMTStatus.toInt .sat ↔
      (SMTTimeoutOpt = 0 ∨ t = .spares) ∧ ∃ model, q = .ok (.sat, model) := by
  unfold forkJoin at h
  split at h
  · rename_i hzero
    obtain ⟨⟨r', m⟩, hq, h⟩ := bind_eq_ok.mp h
    obtain ⟨-, rfl⟩ := Prod.mk.inj (Except.ok.inj h)
    rw [toInt_sat, hq]
    simp [hzero]
  · rename_i hzero
    obtain ⟨⟨a', status⟩, hchild, h⟩ := bind_eq_ok.mp h
    obtain ⟨-, rfl⟩ := Prod.mk.inj (Except.ok.inj h)
    have hsignal : SMTJoin .signaled ≠ SMTStatus.toInt .sat := by decide
    unfold child at hchild
    split at hchild <;> cases hchild
    · simp [hsignal, hzero]
    · simp [hsignal]
    · simp [hsignal, hzero]
    · rename_i r'
      rw [SMTJoin, exitCode_sat]
      simp [Prod.ext_iff]

end Process

/-! ## The loop over the calls -/

section Loop

variable (DL : DataLayout) (P : Program) (intrange : InstId → Option (List (APInt × APInt)))
  (Backedges : List (BlockId × BlockId)) (C : Config) (n : ℕ)

/-- A call that is to be checked, with the condition that it passes and its `bug`. -/
abbrev Suspect := InstId × Value × String

/-- The call as a suspect, if it is one. -/
def toSuspect? (I : InstId) : Option Suspect :=
  match suspect P C I with
  | .ok (some (V, Bug)) => some (I, V, Bug)
  | _ => none

/-- What comes of the query of a suspect. -/
def outcome (x : Suspect) : Except Stop (Option (SMTStatus × (Value → Option APInt)) × ℤ) :=
  forkJoin C.SMTTimeoutOpt (C.timer x.1) (query DL P intrange Backedges C n x.2.1 x.1)

/-- The model that is found for a suspect, if it is satisfiable and the answer is given. -/
def foundModel (x : Suspect) : Option (Value → Option APInt) :=
  match outcome DL P intrange Backedges C n x with
  | .ok (some (.sat, model), _) => some model
  | _ => none

/-- The suspect is saved in `ReportedBugs`. -/
def isSaved (x : Suspect) : Bool :=
  match outcome DL P intrange Backedges C n x with
  | .ok (_, r) => r = SMTStatus.toInt .sat
  | _ => false

/-- The report about a suspect. -/
def reportOf (x : Suspect) : BugReport :=
  ⟨x.1, x.2.2, (foundModel DL P intrange Backedges C n x).getD fun _ => none⟩

/-- The suspects that are told. -/
abbrev toldSuspects (l : List Suspect) (seen : List Value) : List Suspect :=
  Once.told (fun x => x.2.1) (fun x => (foundModel DL P intrange Backedges C n x).isSome)
    (isSaved DL P intrange Backedges C n) l seen

variable {DL P intrange Backedges C n} {s s' : Reports} {I : InstId} {V : Value} {Bug : String}

/-- A call that is not checked leaves everything as it is. -/
theorem check_skip (h : check DL P intrange Backedges C n s I = .ok s')
    (hI : toSuspect? P C I = none) : s' = s := by
  obtain ⟨o, ho, h⟩ := bind_eq_ok.mp h
  cases o with
  | none => exact (Except.ok.inj h).symm
  | some x =>
    rw [toSuspect?, ho] at hI
    cases hI

/-- What a check does with a suspect. -/
theorem check_suspect (h : check DL P intrange Backedges C n s I = .ok s')
    (hI : suspect P C I = .ok (some (V, Bug))) :
    (V ∈ s.ReportedBugs ∧ s' = s) ∨
    (V ∉ s.ReportedBugs ∧ ∃ a r, outcome DL P intrange Backedges C n (I, V, Bug) = .ok (a, r) ∧
      s'.ReportedBugs =
        (if r = SMTStatus.toInt .sat then V :: s.ReportedBugs else s.ReportedBugs) ∧
      s'.out = match a with
        | some (.sat, model) => s.out ++ [⟨I, Bug, model⟩]
        | _ => s.out) := by
  obtain ⟨o, ho, h⟩ := bind_eq_ok.mp h
  obtain rfl := Except.ok.inj (hI.symm.trans ho)
  by_cases hV : V ∈ s.ReportedBugs
  · simp only [hV, if_true] at h
    exact .inl ⟨hV, (Except.ok.inj h).symm⟩
  · simp only [hV, if_false] at h
    obtain ⟨⟨a, r⟩, hout, h⟩ := bind_eq_ok.mp h
    obtain rfl := Except.ok.inj h
    exact .inr ⟨hV, a, r, hout, rfl, rfl⟩

theorem toSuspect?_eq_some {x : Suspect} :
    toSuspect? P C I = some x ↔ x.1 = I ∧ suspect P C I = .ok (some (x.2.1, x.2.2)) := by
  obtain ⟨J, V, Bug⟩ := x
  unfold toSuspect?
  split
  · rename_i V' Bug' heq
    rw [heq]
    simp [Prod.ext_iff, eq_comm]
  · rename_i hnot
    refine iff_of_false nofun ?_
    rintro ⟨-, h⟩
    exact hnot _ _ h

/-- What a check of a suspect leaves. -/
theorem check_step (h : check DL P intrange Backedges C n s I = .ok s') {x : Suspect}
    (hI : toSuspect? P C I = some x) :
    s'.ReportedBugs = Once.recorded (fun x => x.2.1) (isSaved DL P intrange Backedges C n)
      s.ReportedBugs x ∧
    s'.out = s.out ++ (if x.2.1 ∉ s.ReportedBugs ∧
      (foundModel DL P intrange Backedges C n x).isSome = true then
        [reportOf DL P intrange Backedges C n x] else []) ∧
    (x.2.1 ∉ s.ReportedBugs → ∃ r, outcome DL P intrange Backedges C n x = .ok r) := by
  obtain ⟨J, V, Bug⟩ := x
  obtain ⟨rfl, hsuspect⟩ := toSuspect?_eq_some.mp hI
  rcases check_suspect h hsuspect with ⟨hV, rfl⟩ | ⟨hV, a, r, hout, hbugs, hprinted⟩
  · refine ⟨?_, ?_, fun hnot => absurd hV hnot⟩
    · rw [Once.recorded, if_pos hV]
    · simp [hV]
  · refine ⟨?_, ?_, fun _ => ⟨_, hout⟩⟩
    · rw [hbugs, Once.recorded, if_neg hV]
      simp [isSaved, hout]
    · rw [hprinted]
      simp only [hV, not_false_eq_true, true_and, reportOf, foundModel, hout]
      split <;> simp_all

/-- The loop tells the suspects in order, none whose condition is saved; and it asks for
every suspect whose condition is not saved before. -/
theorem checks_told {l : List InstId}
    (h : l.foldlM (check DL P intrange Backedges C n) s = .ok s') :
    s'.out = s.out ++ (toldSuspects DL P intrange Backedges C n
      (l.filterMap (toSuspect? P C)) s.ReportedBugs).map (reportOf DL P intrange Backedges C n) ∧
    ∀ pre x post, l.filterMap (toSuspect? P C) = pre ++ x :: post → x.2.1 ∉ s.ReportedBugs →
      (∀ y ∈ pre, isSaved DL P intrange Backedges C n y = true → y.2.1 ≠ x.2.1) →
      ∃ r, outcome DL P intrange Backedges C n x = .ok r := by
  induction l generalizing s with
  | nil =>
    obtain rfl := Except.ok.inj h
    refine ⟨by simp [toldSuspects, Once.told], fun pre x post hsplit => ?_⟩
    exact absurd hsplit (by simp)
  | cons I l ih =>
    rw [List.foldlM_cons] at h
    obtain ⟨t, hcheck, h⟩ := bind_eq_ok.mp h
    obtain ⟨hout, hasked⟩ := ih h
    cases hI : toSuspect? P C I with
    | none =>
      obtain rfl := check_skip hcheck hI
      rw [List.filterMap_cons_none hI]
      exact ⟨hout, hasked⟩
    | some x =>
      obtain ⟨hbugs, hprinted, hone⟩ := check_step hcheck hI
      rw [List.filterMap_cons_some hI]
      rw [hbugs] at hout hasked
      refine ⟨?_, fun pre y post hsplit hy hpre => ?_⟩
      · rw [hout, hprinted, List.append_assoc]
        simp only [toldSuspects, Once.told]
        split <;> rfl
      · cases pre with
        | nil =>
          obtain ⟨rfl, -⟩ := List.cons.inj hsplit
          exact hone hy
        | cons z pre =>
          obtain ⟨rfl, hrest⟩ := List.cons.inj hsplit
          obtain ⟨hz, hpre⟩ := List.forall_mem_cons.mp hpre
          refine hasked pre y post hrest (fun hmem => ?_) hpre
          rcases Once.mem_recorded.mp hmem with hmem | ⟨hsaved, hkey⟩
          · exact hy hmem
          · exact hz hsaved hkey

/-! ## The reports -/

section Found

variable (hsolver : C.solver.Decides) {x : Suspect}
include hsolver

/-- A suspect that was asked for is found just when its condition can be true and the answer is
given. -/
theorem foundModel_iff (hasked : ∃ r, outcome DL P intrange Backedges C n x = .ok r) :
    (foundModel DL P intrange Backedges C n x).isSome = true ↔
      Answered C x.1 ∧ Satisfiable DL P intrange Backedges x.2.1 (P.inst x.1).parent := by
  obtain ⟨⟨a, r⟩, hout⟩ := hasked
  have htold : ∀ model, a = some (.sat, model) ↔ _ := fun model => forkJoin_told hout
  have hfound : (foundModel DL P intrange Backedges C n x).isSome = true ↔
      ∃ model, a = some (.sat, model) := by
    unfold foundModel
    rw [hout]
    split
    · rename_i heq
      obtain ⟨rfl, -⟩ := Prod.mk.inj (Except.ok.inj heq)
      simp
    · rename_i hnot
      refine iff_of_false nofun ?_
      rintro ⟨model, rfl⟩
      exact hnot _ _ rfl
  rw [hfound]
  simp only [htold, exists_and_left]
  refine and_congr_right fun hanswered => ?_
  exact query_sat_iff hsolver (forkJoin_fuel hout hanswered)

/-- A suspect that was asked for is saved just when its condition can be true and its status is that
of the process. -/
theorem isSaved_iff (hasked : ∃ r, outcome DL P intrange Backedges C n x = .ok r) :
    isSaved DL P intrange Backedges C n x = true ↔
      Saved C x.1 ∧ Satisfiable DL P intrange Backedges x.2.1 (P.inst x.1).parent := by
  obtain ⟨⟨a, r⟩, hout⟩ := hasked
  have hsaved : isSaved DL P intrange Backedges C n x = true ↔ r = SMTStatus.toInt .sat := by
    unfold isSaved
    rw [hout]
    exact decide_eq_true_iff
  rw [hsaved, forkJoin_saved hout]
  refine and_congr_right fun h => ?_
  refine query_sat_iff hsolver (forkJoin_fuel hout (h.imp_right ?_))
  rintro hspares hstrikes
  rw [hspares] at hstrikes
  cases hstrikes

end Found

variable (P C) in
/-- The instruction is a call of `int.sat` that passes the condition `V` and is to be
checked. -/
def IsSuspect (Trap : FuncId) (I : InstId) (V : Value) : Prop :=
  P.calledFunction I = some Trap ∧ ∃ Bug, suspect P C I = .ok (some (V, Bug))

/-- The condition of a suspect is the first operand of its call. -/
theorem suspect_passes (h : suspect P C I = .ok (some (V, Bug))) :
    (P.inst I).op.operands.head? = some V := by
  unfold suspect at h
  split at h
  · rename_i callee V' args hop
    split at h
    · split at h
      · cases h
      · split at h
        · cases h
        · obtain ⟨Bug', -, heq⟩ := Option.map_eq_some_iff.mp (Except.ok.inj h)
          rw [hop, ← (Prod.mk.inj heq).1]
          rfl
    · cases h
  · cases h

/-- The `bug` of a suspect is that of its call. -/
theorem suspect_bug (h : suspect P C I = .ok (some (V, Bug))) : C.bug I = some Bug := by
  unfold suspect at h
  split at h
  · split at h
    · split at h
      · cases h
      · split at h
        · cases h
        · obtain ⟨Bug', hBug, heq⟩ := Option.map_eq_some_iff.mp (Except.ok.inj h)
          rw [hBug, (Prod.mk.inj heq).2]
    · cases h
  · cases h

variable (P C) in
/-- A call of `int.sat` as a suspect. -/
def trapSuspect? (Trap : FuncId) (I : InstId) : Option Suspect :=
  if P.calledFunction I = some Trap then toSuspect? P C I else none

theorem filter_suspects {Trap : FuncId} {l : List InstId} :
    (l.filter fun I => P.calledFunction I = some Trap).filterMap (toSuspect? P C) =
      l.filterMap (trapSuspect? P C Trap) := by
  rw [List.filterMap_filter]
  unfold trapSuspect?
  simp only [decide_eq_true_eq]

/-- What is known of a call of `int.sat` that is a suspect. -/
theorem trapSuspect?_eq_some {Trap : FuncId} {x : Suspect} :
    trapSuspect? P C Trap I = some x ↔ x.1 = I ∧ P.calledFunction I = some Trap ∧
      suspect P C I = .ok (some (x.2.1, x.2.2)) := by
  rw [trapSuspect?, Option.ite_none_right_eq_some, toSuspect?_eq_some]
  exact and_left_comm

/-- The calls that are to be checked are the suspects. -/
theorem isSuspect_iff {Trap : FuncId} :
    IsSuspect P C Trap I V ↔
      ∃ x : Suspect, x.1 = I ∧ x.2.1 = V ∧ trapSuspect? P C Trap I = some x := by
  simp only [trapSuspect?_eq_some]
  constructor
  · rintro ⟨hcall, Bug, hsuspect⟩
    exact ⟨(I, V, Bug), rfl, rfl, rfl, hcall, hsuspect⟩
  · rintro ⟨⟨J, V', Bug⟩, rfl, rfl, -, hcall, hsuspect⟩
    exact ⟨hcall, Bug, hsuspect⟩

/-- A split of the image of a list comes from a split of the list. -/
theorem filterMap_split {α β : Type} {f : α → Option β} {l : List α} {pre post : List β}
    {x : β} : l.filterMap f = pre ++ x :: post ↔ ∃ l₁ a l₂, l = l₁ ++ a :: l₂ ∧ f a = some x ∧
      l₁.filterMap f = pre ∧ l₂.filterMap f = post := by
  constructor
  · intro h
    obtain ⟨l₁, l₂, rfl, hpre, hpost⟩ := List.filterMap_eq_append_iff.mp h
    obtain ⟨l₃, a, l₄, rfl, hnone, ha, hpost⟩ := List.filterMap_eq_cons_iff.mp hpost
    refine ⟨l₁ ++ l₃, a, l₄, by simp, ha, ?_, hpost⟩
    rw [List.filterMap_append, hpre, List.filterMap_eq_nil_iff.mpr hnone, List.append_nil]
  · rintro ⟨l₁, a, l₂, rfl, ha, rfl, rfl⟩
    rw [List.filterMap_append, List.filterMap_cons_some ha]

/-- A suspect that is told is saved, if the timer does not strike in between. -/
theorem saved_of_found {x : Suspect}
    (htimer : C.SMTTimeoutOpt = 0 ∨ C.timer x.1 ≠ .strikes true)
    (h : (foundModel DL P intrange Backedges C n x).isSome = true) :
    isSaved DL P intrange Backedges C n x = true := by
  unfold foundModel at h
  unfold isSaved
  split at h
  · rename_i model r hout
    obtain ⟨hanswered, hquery⟩ := (forkJoin_told hout).mp rfl
    rw [hout]
    refine decide_eq_true_iff.mpr ((forkJoin_saved hout).mpr ⟨?_, model, hquery⟩)
    rcases htimer with hzero | hprinted
    · exact .inl hzero
    · refine hanswered.imp_right fun hlost => ?_
      cases htimer : C.timer x.1 with
      | spares => rfl
      | strikes answered =>
        cases answered with
        | false => exact absurd htimer hlost
        | true => exact absurd htimer hprinted
  · cases h

/-- The query of a suspect that is saved has an outcome. -/
theorem outcome_of_isSaved {x : Suspect} (h : isSaved DL P intrange Backedges C n x = true) :
    ∃ r, outcome DL P intrange Backedges C n x = .ok r := by
  unfold isSaved at h
  split at h
  · rename_i a r hout
    exact ⟨_, hout⟩
  · cases h

/-- A condition is reported once, unless a timer strikes between the report and the end of
the process. -/
theorem reports_nodup {Trap F : FuncId} {reports : List BugReport}
    (htimer : ∀ I, C.SMTTimeoutOpt = 0 ∨ C.timer I ≠ .strikes true)
    (h : runOnFunction DL P intrange Backedges C Trap n F = .ok reports) :
    (reports.map fun r => (P.inst r.call).op.operands.head?).Nodup := by
  obtain ⟨s, hloop, h⟩ := bind_eq_ok.mp h
  obtain rfl := Except.ok.inj h
  obtain ⟨hout, -⟩ := checks_told hloop
  rw [List.nil_append, filter_suspects] at hout
  generalize hitems : (P.instsOf F).filterMap (trapSuspect? P C Trap) = items at hout
  have hkeys : s.out.map (fun r => (P.inst r.call).op.operands.head?) =
      ((toldSuspects DL P intrange Backedges C n items []).map fun x => x.2.1).map some := by
    rw [hout, List.map_map, List.map_map]
    refine List.map_congr_left fun x hx => ?_
    obtain ⟨pre, post, hsplit, -⟩ := Once.mem_told.mp hx
    obtain ⟨-, I, -, -, hI, -⟩ := filterMap_split.mp (hitems.trans hsplit)
    obtain ⟨rfl, -, hsuspect⟩ := trapSuspect?_eq_some.mp hI
    exact suspect_passes hsuspect
  rw [hkeys, List.nodup_map_iff (Option.some_injective _)]
  exact Once.nodup_told fun x => saved_of_found (htimer x.1)

variable (DL P intrange Backedges C) in
/-- The call is to be reported: it passes a condition that can be true in its block, the
timer leaves the answer, and no call before it that passes the same condition can be true
and was saved. -/
def ToReport (Trap F : FuncId) (I : InstId) : Prop :=
  ∃ pre post V, P.instsOf F = pre ++ I :: post ∧ IsSuspect P C Trap I V ∧ Answered C I ∧
    Satisfiable DL P intrange Backedges V (P.inst I).parent ∧
    ∀ J ∈ pre, IsSuspect P C Trap J V → Saved C J →
      ¬ Satisfiable DL P intrange Backedges V (P.inst J).parent

/-- The calls that are reported, when the pass ends. The loop tells the suspects that were found and
whose condition is not saved; the rest of the proof turns its bookkeeping, in terms of suspects,
into a statement about the calls of the function. -/
theorem mem_reports_iff
    (hsolver : C.solver.Decides) {Trap F : FuncId} {reports : List BugReport}
    (h : runOnFunction DL P intrange Backedges C Trap n F = .ok reports) :
    I ∈ reports.map BugReport.call ↔ ToReport DL P intrange Backedges C Trap F I := by
  obtain ⟨s, hloop, h⟩ := bind_eq_ok.mp h
  obtain rfl := Except.ok.inj h
  obtain ⟨hout, hasked⟩ := checks_told hloop
  rw [List.nil_append, filter_suspects] at hout
  rw [filter_suspects] at hasked
  generalize hitems : (P.instsOf F).filterMap (trapSuspect? P C Trap) = items at hout hasked
  have hmem : I ∈ s.out.map BugReport.call ↔
      ∃ x ∈ toldSuspects DL P intrange Backedges C n items [], x.1 = I := by
    rw [hout, List.map_map, List.mem_map]
    rfl
  rw [hmem]
  constructor
  · rintro ⟨x, hx, rfl⟩
    obtain ⟨pre, post, hsplit, hfound, hseen, hpre⟩ := Once.mem_told.mp hx
    obtain ⟨l₁, I, l₂, hl, hI, rfl, -⟩ := filterMap_split.mp (hitems.trans hsplit)
    obtain ⟨rfl, -⟩ := trapSuspect?_eq_some.mp hI
    obtain ⟨hanswered, hsat⟩ := (foundModel_iff hsolver
      (hasked _ x post hsplit hseen hpre)).mp hfound
    refine ⟨l₁, l₂, x.2.1, hl, isSuspect_iff.mpr ⟨x, rfl, rfl, hI⟩, hanswered, hsat,
      fun J hJ hsuspect hsaved hsatJ => ?_⟩
    obtain ⟨y, rfl, hkey, hy⟩ := isSuspect_iff.mp hsuspect
    have hmem : y ∈ l₁.filterMap (trapSuspect? P C Trap) :=
      List.mem_filterMap.mpr ⟨y.1, hJ, hy⟩
    obtain ⟨pre₁, pre₂, hpre₁⟩ := List.append_of_mem hmem
    rw [hpre₁] at hsplit hpre
    have hy_asked := hasked pre₁ y (pre₂ ++ x :: post) (by simpa using hsplit)
      List.not_mem_nil fun z hz hz_saved => hkey ▸ hpre z (by simp [hz]) hz_saved
    exact hpre y (by simp)
      ((isSaved_iff hsolver hy_asked).mpr ⟨hsaved, hkey ▸ hsatJ⟩) hkey
  · rintro ⟨l₁, l₂, V, hl, hsuspect, hanswered, hsat, hfirst⟩
    obtain ⟨x, rfl, rfl, hx⟩ := isSuspect_iff.mp hsuspect
    have hsplit := hitems.symm.trans (filterMap_split.mpr ⟨l₁, x.1, l₂, hl, hx, rfl, rfl⟩)
    have hpre : ∀ y ∈ l₁.filterMap (trapSuspect? P C Trap),
        isSaved DL P intrange Backedges C n y = true → y.2.1 ≠ x.2.1 := by
      intro y hy hsaved hkey
      obtain ⟨J, hJ, hJy⟩ := List.mem_filterMap.mp hy
      obtain ⟨rfl, -⟩ := trapSuspect?_eq_some.mp hJy
      obtain ⟨hsaved, hsatJ⟩ :=
        (isSaved_iff hsolver (outcome_of_isSaved hsaved)).mp hsaved
      exact hfirst y.1 hJ (isSuspect_iff.mpr ⟨y, rfl, hkey, hJy⟩) hsaved (hkey ▸ hsatJ)
    have hasked := hasked _ x _ hsplit List.not_mem_nil hpre
    refine ⟨x, Once.mem_told.mpr ⟨_, _, hsplit, ?_, List.not_mem_nil, hpre⟩, rfl⟩
    exact (foundModel_iff hsolver hasked).mpr ⟨hanswered, hsat⟩

/-- Each report shows the `bug` of its call and, where models are printed, the values
that the query depends on under an assignment under which the condition is true in the
block; what the language defines is printed with the value that it defines. -/
theorem runOnFunction_model
    (hsolver : C.solver.Decides) (hopt : C.SMTModelOpt = true) {Trap F : FuncId}
    {reports : List BugReport}
    (h : runOnFunction DL P intrange Backedges C Trap n F = .ok reports) :
    ∀ r ∈ reports, ∃ V σ, IsSuspect P C Trap r.call V ∧ C.bug r.call = some r.bug ∧
      Feasible DL P intrange Backedges V (P.inst r.call).parent σ ∧
      (∀ U, (∃ x, r.model U = some x) ↔ U.isConstant = false ∧
        QueryNeeds DL P intrange Backedges V (P.inst r.call).parent (.inl U)) ∧
      ∀ U x y, r.model U = some x → HasValue DL P σ U y → x = y := by
  obtain ⟨s, hloop, h⟩ := bind_eq_ok.mp h
  obtain rfl := Except.ok.inj h
  obtain ⟨hout, -⟩ := checks_told hloop
  rw [List.nil_append, filter_suspects] at hout
  intro r hr
  rw [hout] at hr
  obtain ⟨x, hx, rfl⟩ := List.mem_map.mp hr
  obtain ⟨pre, post, hsplit, hfound, -, -⟩ := Once.mem_told.mp hx
  obtain ⟨-, I, -, -, hI, -⟩ := filterMap_split.mp hsplit
  obtain ⟨rfl, hcall, hsuspect⟩ := trapSuspect?_eq_some.mp hI
  obtain ⟨model, hmodel⟩ := Option.isSome_iff_exists.mp hfound
  have hquery : query DL P intrange Backedges C n x.2.1 x.1 = .ok (.sat, model) := by
    unfold foundModel at hmodel
    split at hmodel
    · rename_i model' r hout
      obtain rfl := Option.some.inj hmodel
      exact ((forkJoin_told hout).mp rfl).2
    · cases hmodel
  obtain ⟨σ, hfeasible, hprinted, hterms⟩ := query_model hsolver hopt hquery
  have hreport : (reportOf DL P intrange Backedges C n x).model = model := by
    simp [reportOf, hmodel]
  rw [hreport]
  refine ⟨x.2.1, σ, ⟨hcall, x.2.2, hsuspect⟩, suspect_bug hsuspect, hfeasible, hprinted,
    fun U y z hy hz => ?_⟩
  obtain ⟨E, hE, rfl⟩ := hterms U y hy
  exact term_denotes hz hE

end Loop

/-! ## A division -/

/-- A division of two bytes, which runs when the dividend is above ten; block 1 checks the
divisor. -/
def quotientProgram : Program where
  insts := [
    ⟨0, .int 1, .icmp .ugt (.argument 0 0) (.constInt (.ofNat 8 10)), none, none⟩,
    ⟨0, .other, .condBr (.inst 0) 1 2, none, none⟩,
    ⟨1, .int 1, .icmp .eq (.argument 0 1) (.constInt (.ofNat 8 0)), none, none⟩,
    ⟨1, .other, .call (.func 1) [.inst 2], none, none⟩,
    ⟨1, .other, .br 2, none, none⟩,
    ⟨2, .other, .ret none, none, none⟩]
  blocks := [⟨0, [0], 1, []⟩, ⟨0, [2, 3], 4, [0]⟩, ⟨0, [], 5, [0, 1]⟩]
  funcs := [
    ⟨⟨"quotient", .external, "a.c"⟩, false, [.int 8, .int 8], .other, [0, 1, 2]⟩,
    ⟨⟨"int.sat", .external, "a.c"⟩, false, [.int 1], .other, []⟩]
  globals := []
  structs := []
  consts := []

open Classical in
/-- A solver that decides every query. -/
noncomputable def idealSolver : Solver where
  query := CmpSat.idealQuery
  model assumed Query :=
    if h : ∃ σ, (∀ a ∈ assumed, a.Holds σ) ∧ Query.Holds σ then h.choose else fun _ w => 0#w

open Classical in
theorem idealSolver_decides : idealSolver.Decides where
  sat assumed Query h := by
    have hex : ∃ σ, (∀ a ∈ assumed, a.Holds σ) ∧ Query.Holds σ := by
      by_contra hnot
      have hunsat : idealSolver.query assumed Query = .unsat := if_neg hnot
      cases hunsat.symm.trans h
    show (∀ a ∈ assumed, a.Holds (dite _ _ _)) ∧ Query.Holds (dite _ _ _)
    rw [dif_pos hex]
    exact hex.choose_spec
  unsat assumed Query h σ ha hQuery := h (if_pos ⟨σ, ha, hQuery⟩)

/-- No time limit; models are printed. -/
noncomputable def quotientConfig : Config where
  SMTTimeoutOpt := 0
  SMTModelOpt := true
  solver := idealSolver
  valueFirst := true
  timer _ := .spares
  isUnknown _ := false
  bug _ := some "division by zero"

theorem quotient_forward {Pred BB : BlockId} (h : ForwardEdge quotientProgram [] Pred BB) :
    (Pred = 0 ∧ BB = 1) ∨ (Pred = 0 ∧ BB = 2) ∨ (Pred = 1 ∧ BB = 2) := by
  match BB with
  | 0 => cases h.1
  | 1 => exact .inl ⟨List.mem_singleton.mp h.1, rfl⟩
  | 2 =>
    rcases List.mem_pair.mp h.1 with rfl | rfl
    · exact .inr (.inl ⟨rfl, rfl⟩)
    · exact .inr (.inr ⟨rfl, rfl⟩)
  | BB + 3 => cases h.1

theorem quotient_runs : ∃ reports, runOnFunction fieldLayout quotientProgram (fun _ => none) []
    quotientConfig 1 8 0 = .ok reports :=
  ⟨_, rfl⟩

theorem quotient_suspect : IsSuspect quotientProgram quotientConfig 1 3 (.inst 2) :=
  ⟨rfl, "division by zero", rfl⟩

/-- The divisor can be zero when the dividend is twenty. -/
theorem quotient_satisfiable :
    Satisfiable fieldLayout quotientProgram (fun _ => none) [] (.inst 2) 1 := by
  refine ⟨⟨⟨_, 4, rfl⟩, _, 5, rfl⟩, fun V w => if V = .argument 0 0 then 20#w else 0#w, ?_⟩
  refine ⟨⟨_, ⟨4, rfl⟩, by decide⟩, ?_, fun i _ _ MD w hMD => by cases hMD⟩
  exact .edge (.entry rfl) ⟨List.mem_singleton_self 0, rfl⟩
    ⟨_, _, ⟨4, rfl⟩, ⟨4, rfl⟩, by decide, by decide⟩

/-- No call comes before. -/
theorem quotient_first {J : InstId} {V : Value} {p : Prop} (hJ : J ∈ [0, 1, 2])
    (h : IsSuspect quotientProgram quotientConfig 1 J V) : p := by
  have hcalls : ∀ J ∈ [0, 1, 2], quotientProgram.calledFunction J = none := by decide
  cases (hcalls J hJ).symm.trans h.1

/-- It is to be reported: the divisor may be zero. -/
theorem quotient_toReport :
    ToReport fieldLayout quotientProgram (fun _ => none) [] quotientConfig 1 0 3 :=
  ⟨[0, 1, 2], [4, 5], .inst 2, rfl, quotient_suspect, .inl rfl, quotient_satisfiable,
    fun _ hJ hsuspect => quotient_first hJ hsuspect⟩

theorem quotient_called : ∃ reports, runOnFunction fieldLayout quotientProgram (fun _ => none)
    [] quotientConfig 1 8 0 = .ok reports ∧ ∃ r ∈ reports, r.call = 3 := by
  obtain ⟨reports, hrun⟩ := quotient_runs
  exact ⟨reports, hrun, List.mem_map.mp
    ((mem_reports_iff idealSolver_decides hrun).mpr quotient_toReport)⟩

/-- The report belongs to an assignment under which the divisor is zero. -/
theorem quotient_model : ∃ reports, runOnFunction fieldLayout quotientProgram (fun _ => none)
    [] quotientConfig 1 8 0 = .ok reports ∧ ∃ r ∈ reports, r.bug = "division by zero" ∧
      ∃ σ, Feasible fieldLayout quotientProgram (fun _ => none) [] (.inst 2) 1 σ ∧
        ∀ x, r.model (.argument 0 1) = some x → x = ⟨8, σ (.argument 0 1) 8⟩ := by
  obtain ⟨reports, hrun, r, hr, hcall⟩ := quotient_called
  obtain ⟨V, σ, hsuspect, hbug, hfeasible, -, hvalue⟩ :=
    runOnFunction_model idealSolver_decides rfl hrun r hr
  rw [hcall] at hsuspect hfeasible
  obtain ⟨-, Bug, hsuspect⟩ := hsuspect
  obtain rfl : Value.inst 2 = V := congrArg Prod.fst (Option.some.inj (Except.ok.inj hsuspect))
  exact ⟨reports, hrun, r, hr, (Option.some.inj hbug).symm, σ, hfeasible,
    fun x hx => hvalue _ _ _ hx ⟨1, rfl⟩⟩

end IntSat

end Kint
