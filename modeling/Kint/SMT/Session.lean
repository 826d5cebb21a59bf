import Kint.CmpSat
import Kint.SMT.Agreement

/-!
# Sessions with a solver

`assume` adds a formula to the context of a solver, and `query` asks about one more, which is
not kept: with Z3 it is in a scope of its own, and for Boolector and Sonolar it is an assumption
that holds for one question.  So each answer of a session is about the formulas that were
assumed before it, and about no other query (`sessions_right`).

## Main definitions

* `Context`: the states of a solver with `assume` and `query`; `Command` and `Context.run`: a
  sequence of both.
* `Right`, `Answers`: what the answers should be.  *Unsatisfiable* means that the query is false
  wherever the assumptions are true, and *satisfiable* that there is an assignment for all of
  them; without an answer nothing is claimed.
* `Context.Sound`: an invariant that says which expressions are assumed in a state.

## The three solvers

* `Z3.context`: formulas are asserted in scopes.  `query` pushes one, asserts, checks, and pops
  it again on every way out (`Z3.context_sound`).
* `Assumptions.context`: Boolector and Sonolar have formulas that are asserted and others that
  are assumed for the next question.  `query` assumes, and the question uses the assumption up
  (`Assumptions.context_sound`).

`Context.Sound.answers` is the induction on the session, the same for all three.  That the
checkers of the solvers can do what is asked of them is shown by ideal ones (`Z3.idealCheck`,
`Assumptions.idealSolve`).
-/

namespace Kint.SMT

open Iteration

/-- The context of a solver: its states, and `assume` and `query`. -/
structure Context (Node State : Type) where
  new : State
  assume : Node → State → State
  query : Node → State → SMTStatus × State

/-- What is asked of a solver. -/
inductive Command (ν : Type)
  | assume (e : Term ν 1)
  | query (e : Term ν 1)

variable {ν Node State : Type}

/-- The formula of a command. -/
def Command.formula : Command ν → Term ν 1
  | assume e | query e => e

/-- The answers to the queries of a session, in order. -/
def Context.run (M : Context Node State) (S : SMTSolver ν Node) :
    List (Command ν) → State → Except Stop (List SMTStatus)
  | [], _ => .ok []
  | .assume e :: cs, s => do
    let n ← S.build e
    run M S cs (M.assume n s)
  | .query e :: cs, s => do
    let n ← S.build e
    let (r, s) := M.query n s
    let rs ← run M S cs s
    return r :: rs

/-! ## Right answers -/

/-- The answer about a query is right: an unsatisfiable one is false for all values of the
variables that the solver takes and for which the assumed formulas are true, and for a satisfiable
one there are values for which all formulas are true for which they are taken. -/
structure Right (L : Limits) (assumed : List (Term ν 1)) (Query : Term ν 1) (r : SMTStatus) :
    Prop where
  unsat : r = .unsat → ∀ σ, (∀ a ∈ Query :: assumed, a.Fits L σ) →
    (∀ a ∈ assumed, a.Holds σ) → ¬ Query.Holds σ
  sat : r = .sat → ∃ σ, ∀ a ∈ Query :: assumed, a.Fits L σ → a.Holds σ

/-- The answers of a session are right, each for the formulas that were assumed before. An
assumption counts for all later queries, and a query for none. -/
inductive Answers (L : Limits) : List (Term ν 1) → List (Command ν) → List SMTStatus → Prop
  | nil {assumed : List (Term ν 1)} : Answers L assumed [] []
  | assume {assumed : List (Term ν 1)} {e : Term ν 1} {cs : List (Command ν)}
      {rs : List SMTStatus} (h : Answers L (e :: assumed) cs rs) :
      Answers L assumed (.assume e :: cs) rs
  | query {assumed : List (Term ν 1)} {e : Term ν 1} {r : SMTStatus} {cs : List (Command ν)}
      {rs : List SMTStatus} (hr : Right L assumed e r) (h : Answers L assumed cs rs) :
      Answers L assumed (.query e :: cs) (r :: rs)

section Run

variable (val : Assignment ν → Node → Option APInt)

/-- The expression is a true formula. -/
def IsTrue (σ : Assignment ν) (n : Node) : Prop := val σ n = some ⟨1, 1#1⟩

/-- What is relied on: `Inv` tells which expressions are assumed in a state, and a query is
answered for these and leaves them as they are. -/
structure Context.Sound (M : Context Node State) (Inv : State → List Node → Prop) : Prop where
  new : Inv M.new []
  assume : ∀ s ns n, SMTSolver.HasSort val n 1 → Inv s ns → Inv (M.assume n s) (n :: ns)
  query : ∀ s ns n, SMTSolver.HasSort val n 1 → Inv s ns → Inv (M.query n s).2 ns ∧
    ((M.query n s).1 = .unsat → ∀ σ, ¬ ∀ n' ∈ n :: ns, IsTrue val σ n') ∧
    ((M.query n s).1 = .sat → ∃ σ, ∀ n' ∈ n :: ns, IsTrue val σ n')

/-- The expression is one for the formula. -/
structure Stands (L : Limits) (n : Node) (a : Term ν 1) : Prop where
  sort : SMTSolver.HasSort val n 1
  val : ∀ σ, a.Fits L σ → val σ n = some ⟨1, a.eval σ⟩

variable {val} {S : SMTSolver ν Node} {M : Context Node State} {Inv : State → List Node → Prop}
  {L : Limits} {s : State} {ns : List Node} {assumed : List (Term ν 1)} {n : Node}
  {Query a : Term ν 1}

/-- An expression for a formula is true where the formula is. -/
theorem Stands.isTrue_iff (h : Stands val L n a) {σ : Assignment ν} (hfits : a.Fits L σ) :
    IsTrue val σ n ↔ a.Holds σ := by
  rw [IsTrue, h.val σ hfits, Term.Holds, Option.some_inj, APInt.mk.injEq]
  simp

/-- Each assumed expression stands for an assumed formula, and the other way round. -/
theorem exists_stands {R : Node → Term ν 1 → Prop} {as : List (Term ν 1)}
    (h : List.Forall₂ R ns as) :
    (∀ n ∈ ns, ∃ a ∈ as, R n a) ∧ ∀ a ∈ as, ∃ n ∈ ns, R n a := by
  induction h with
  | nil => exact ⟨nofun, nofun⟩
  | cons hR _ ih =>
    refine ⟨List.forall_mem_cons.mpr ⟨⟨_, List.mem_cons_self, hR⟩, fun n hn => ?_⟩,
      List.forall_mem_cons.mpr ⟨⟨_, List.mem_cons_self, hR⟩, fun a ha => ?_⟩⟩
    · obtain ⟨a, ha, hR⟩ := ih.1 n hn
      exact ⟨a, List.mem_cons_of_mem _ ha, hR⟩
    · obtain ⟨n, hn, hR⟩ := ih.2 a ha
      exact ⟨n, List.mem_cons_of_mem _ hn, hR⟩

/-- A query is answered right. -/
theorem Context.Sound.right (hM : M.Sound val Inv) (hs : Inv s ns) (hn : Stands val L n Query)
    (hns : List.Forall₂ (Stands val L) ns assumed) : Right L assumed Query (M.query n s).1 := by
  obtain ⟨-, hunsat, hsat⟩ := hM.query s ns n hn.sort hs
  obtain ⟨hterm, hnode⟩ := exists_stands (.cons hn hns)
  refine ⟨fun h σ hfits hassumed hquery => hunsat h σ fun n' hn' => ?_, fun h => ?_⟩
  · obtain ⟨a, ha, hstands⟩ := hterm n' hn'
    refine (hstands.isTrue_iff (hfits a ha)).mpr ?_
    rcases List.mem_cons.mp ha with rfl | ha
    · exact hquery
    · exact hassumed a ha
  · obtain ⟨σ, hσ⟩ := hsat h
    refine ⟨σ, fun a ha hfits => ?_⟩
    obtain ⟨n', hn', hstands⟩ := hnode a ha
    exact (hstands.isTrue_iff hfits).mp (hσ n' hn')

/-- A session is answered right. By induction on the session: the formula of each command is built,
and the invariant says that the solver has just the assumptions. -/
theorem Context.Sound.answers (hM : M.Sound val Inv) (hS : S.Sound val L) {cs : List (Command ν)}
    (hcs : ∀ c ∈ cs, c.formula.WellFormed L) (hs : Inv s ns)
    (hns : List.Forall₂ (Stands val L) ns assumed) :
    ∃ rs, M.run S cs s = .ok rs ∧ Answers L assumed cs rs := by
  induction cs generalizing s ns assumed with
  | nil => exact ⟨[], rfl, .nil⟩
  | cons c cs ih =>
    obtain ⟨n, hbuild, hsort, hval⟩ := SMTSolver.build_val hS c.formula (hcs c List.mem_cons_self)
    have hn : Stands val L n c.formula := ⟨hsort, hval⟩
    have hrest : ∀ c ∈ cs, c.formula.WellFormed L := fun c hc => hcs c (List.mem_cons_of_mem _ hc)
    cases c with
    | assume e =>
      obtain ⟨rs, hrun, hanswers⟩ := ih hrest (hM.assume s ns n hsort hs) (.cons hn hns)
      refine ⟨rs, ?_, .assume hanswers⟩
      rw [Context.run, show S.build e = .ok n from hbuild]
      exact hrun
    | query e =>
      obtain ⟨hs', -⟩ := hM.query s ns n hsort hs
      obtain ⟨rs, hrun, hanswers⟩ := ih hrest hs' hns
      refine ⟨(M.query n s).1 :: rs, ?_, .query (hM.right hs hn hns) hanswers⟩
      rw [Context.run, show S.build e = .ok n from hbuild]
      show (M.run S cs (M.query n s).2 >>= fun rs => .ok ((M.query n s).1 :: rs)) = _
      rw [hrun]
      rfl

end Run

/-! ## Z3 -/

namespace Z3

/-- `Z3_lbool` -/
inductive LBool
  | L_FALSE | L_UNDEF | L_TRUE
  deriving DecidableEq

/-- The asserted formulas by scopes, the innermost scope first. -/
abbrev Scopes (Ast : Type) := List (List Ast)

namespace Scopes

variable {Ast : Type}

def push (c : Scopes Ast) : Scopes Ast := [] :: c

def pop (num_scopes : ℕ) (c : Scopes Ast) : Scopes Ast := c.drop num_scopes

def assert_cnstr (e : Ast) : Scopes Ast → Scopes Ast
  | [] => [[e]]
  | s :: c => (e :: s) :: c

end Scopes

variable {Ast : Type}

/-- `assume` and `query` on top of Z3, where `check` is `Z3_check_and_get_model`. -/
def context (Z : Z3 ν Ast) (check : Scopes Ast → LBool) : Context Ast (Scopes Ast) where
  new := [[]]
  assume e c := c.assert_cnstr (Z.bv2bool e)
  query e c :=
    let c := c.push
    let c := c.assert_cnstr (Z.bv2bool e)
    let res := check c
    let c := c.pop 1
    match res with
    | .L_UNDEF => (.undef, c)
    | .L_FALSE => (.unsat, c)
    | .L_TRUE => (.sat, c)

/-- The formulas of all scopes are true. -/
def Satisfies (val : Assignment ν → Ast → Value) (σ : Assignment ν) (c : Scopes Ast) : Prop :=
  ∀ s ∈ c, ∀ e ∈ s, val σ e = .bool true

/-- The answers of Z3 are right, where it gives one. -/
structure CheckSound (val : Assignment ν → Ast → Value) (check : Scopes Ast → LBool) : Prop where
  l_false : ∀ c, check c = .L_FALSE → ∀ σ, ¬ Satisfies val σ c
  l_true : ∀ c, check c = .L_TRUE → ∃ σ, Satisfies val σ c

section Facts

variable {Z : Z3 ν Ast} {check : Scopes Ast → LBool} {val : Assignment ν → Ast → Value}
  {σ : Assignment ν} {n : Ast} {ns : List Ast}

/-- There is one scope, with the assumed formulas. -/
structure Assumed (Z : Z3 ν Ast) (val : Assignment ν → Ast → Value) (c : Scopes Ast)
    (ns : List Ast) : Prop where
  scopes : c = [ns.map Z.bv2bool]
  sort : ∀ n ∈ ns, SMTSolver.HasSort (fun σ e => (val σ e).vector) n 1

/-- The vector of one bit and the formula that is asserted for it. -/
theorem isTrue_bv2bool (hZ : Z.Sound val)
    (hn : SMTSolver.HasSort (fun σ e => (val σ e).vector) n 1) :
    val σ (Z.bv2bool n) = .bool true ↔ IsTrue (fun σ e => (val σ e).vector) σ n := by
  obtain ⟨x, hx⟩ : ∃ x : BitVec 1, (val σ n).vector = some ⟨1, x⟩ := hn σ
  rw [IsTrue, hx, bv2bool_val hZ (vector_eq_some.mp hx), Value.bool.injEq, beq_iff_eq,
    Option.some_inj, APInt.mk.injEq]
  simp

/-- In the scope of a query, the query and what was assumed before are asserted. -/
theorem satisfies_iff (hZ : Z.Sound val)
    (hns : ∀ n ∈ ns, SMTSolver.HasSort (fun σ e => (val σ e).vector) n 1)
    (hn : SMTSolver.HasSort (fun σ e => (val σ e).vector) n 1) :
    Satisfies val σ [[Z.bv2bool n], ns.map Z.bv2bool] ↔
      ∀ n' ∈ n :: ns, IsTrue (fun σ e => (val σ e).vector) σ n' := by
  rw [Satisfies, List.forall_mem_cons, List.forall_mem_singleton, List.forall_mem_singleton,
    List.forall_mem_map, List.forall_mem_cons, isTrue_bv2bool hZ hn]
  exact and_congr_right fun _ => forall₂_congr fun n' hn' => isTrue_bv2bool hZ (hns n' hn')

/-- A query is in a scope of its own. -/
theorem context_sound (hZ : Z.Sound val) (hcheck : CheckSound val check) :
    (Z.context check).Sound (fun σ e => (val σ e).vector) (Assumed Z val) where
  new := ⟨rfl, nofun⟩
  assume c ns n hn hc := by
    obtain ⟨rfl, hns⟩ := hc
    exact ⟨rfl, List.forall_mem_cons.mpr ⟨hn, hns⟩⟩
  query c ns n hn hc := by
    obtain ⟨rfl, hns⟩ := hc
    have hiff := fun σ => satisfies_iff (σ := σ) hZ hns hn
    have hquery : (Z.context check).query n [ns.map Z.bv2bool] =
        ((match check [[Z.bv2bool n], ns.map Z.bv2bool] with
          | .L_UNDEF => .undef
          | .L_FALSE => .unsat
          | .L_TRUE => .sat), [ns.map Z.bv2bool]) := by
      show (match check [[Z.bv2bool n], ns.map Z.bv2bool] with
        | .L_UNDEF => (SMTStatus.undef, [ns.map Z.bv2bool])
        | .L_FALSE => (.unsat, [ns.map Z.bv2bool])
        | .L_TRUE => (.sat, [ns.map Z.bv2bool])) = _
      cases check [[Z.bv2bool n], ns.map Z.bv2bool] <;> rfl
    rw [hquery]
    refine ⟨⟨rfl, hns⟩, fun h σ => ?_, fun h => ?_⟩
    · rw [← hiff]
      refine hcheck.l_false _ ?_ σ
      revert h
      cases check [[Z.bv2bool n], ns.map Z.bv2bool] <;> simp
    · obtain ⟨σ, hσ⟩ := hcheck.l_true [[Z.bv2bool n], ns.map Z.bv2bool] (by
        revert h
        cases check [[Z.bv2bool n], ns.map Z.bv2bool] <;> simp)
      exact ⟨σ, (hiff σ).mp hσ⟩

end Facts

end Z3

/-! ## Boolector and Sonolar -/

/-- What `boolector_sat` and `sonolar_solve` return. -/
inductive SolveResult
  | unsat | sat | unknown
  deriving DecidableEq

/-- The context of a solver with assumptions: the formulas that are asserted, and those that are
assumed for the next question. -/
structure Assumptions (Node : Type) where
  asserted : List Node
  assumed : List Node

namespace Assumptions

/-- `boolector_assert` and `sonolar_assert_formula` -/
def assertFormula (e : Node) (c : Assumptions Node) : Assumptions Node :=
  { c with asserted := e :: c.asserted }

/-- `boolector_assume` and `sonolar_assume_formula` -/
def assumeFormula (e : Node) (c : Assumptions Node) : Assumptions Node :=
  { c with assumed := e :: c.assumed }

/-- The question uses up what is assumed. -/
def forget (c : Assumptions Node) : Assumptions Node := { c with assumed := [] }

/-- `assume` and `query` on top of Boolector and of Sonolar, where `solve` is `boolector_sat`
or `sonolar_solve`. -/
def context (solve : Assumptions Node → SolveResult) : Context Node (Assumptions Node) where
  new := ⟨[], []⟩
  assume := assertFormula
  query e c :=
    let c := c.assumeFormula e
    match solve c with
    | .unknown => (.undef, c.forget)
    | .unsat => (.unsat, c.forget)
    | .sat => (.sat, c.forget)

/-- The answers of the solver are right, where it gives one. -/
structure SolveSound (val : Assignment ν → Node → Option APInt)
    (solve : Assumptions Node → SolveResult) : Prop where
  unsat : ∀ c, solve c = .unsat → ∀ σ, ¬ ∀ e ∈ c.assumed ++ c.asserted, IsTrue val σ e
  sat : ∀ c, solve c = .sat → ∃ σ, ∀ e ∈ c.assumed ++ c.asserted, IsTrue val σ e

/-- A query is assumed for one question. -/
theorem context_sound {val : Assignment ν → Node → Option APInt}
    {solve : Assumptions Node → SolveResult} (hsolve : SolveSound val solve) :
    (context solve).Sound val fun c ns => c = ⟨ns, []⟩ where
  new := rfl
  assume c ns n hn hc := by
    subst hc
    rfl
  query c ns n hn hc := by
    subst hc
    have hquery : (context solve).query n ⟨ns, []⟩ =
        ((match solve ⟨ns, [n]⟩ with
          | .unknown => .undef
          | .unsat => .unsat
          | .sat => .sat), ⟨ns, []⟩) := by
      show (match solve ⟨ns, [n]⟩ with
        | .unknown => (SMTStatus.undef, (⟨ns, []⟩ : Assumptions Node))
        | .unsat => (.unsat, ⟨ns, []⟩)
        | .sat => (.sat, ⟨ns, []⟩)) = _
      cases solve ⟨ns, [n]⟩ <;> rfl
    rw [hquery]
    refine ⟨rfl, fun h σ => hsolve.unsat ⟨ns, [n]⟩ ?_ σ, fun h => hsolve.sat ⟨ns, [n]⟩ ?_⟩
    · revert h
      cases solve ⟨ns, [n]⟩ <;> simp
    · revert h
      cases solve ⟨ns, [n]⟩ <;> simp

end Assumptions

/-! ## The three solvers -/

section Sessions

variable {Ast Term' Node : Type} {Z : Z3 ν Ast} {N : Sonolar ν Term'} {B : Boolector.Nodes ν Node}
  {A : Conversion} {zval : Assignment ν → Ast → Z3.Value} {nval : Assignment ν → Term' → APInt}
  {bval : Assignment ν → Node → APInt} {check : Z3.Scopes Ast → Z3.LBool}
  {solve : Assumptions Term' → SolveResult} {sat : Assumptions Node → SolveResult}

end Sessions

/-! ### A session -/

open Classical in
/-- Z3 when it always finds an answer. -/
noncomputable def Z3.idealCheck (c : Z3.Scopes (Z3.Formal String)) : Z3.LBool :=
  if ∃ σ, Z3.Satisfies Z3.Formal.val σ c then .L_TRUE else .L_FALSE

theorem Z3.idealCheck_sound : Z3.CheckSound Z3.Formal.val Z3.idealCheck where
  l_false c h σ hσ := by
    rw [idealCheck, if_pos ⟨σ, hσ⟩] at h
    cases h
  l_true c h := by
    by_contra hnot
    rw [idealCheck, if_neg hnot] at h
    cases h

open Classical in
/-- A solver with assumptions that always finds an answer. -/
noncomputable def Assumptions.idealSolve (c : Assumptions (Denoted String)) : SolveResult :=
  if ∃ σ, ∀ e ∈ c.assumed ++ c.asserted, IsTrue (SMTSolver.vectors Denoted.val) σ e then .sat
  else .unsat

/-- The ideal answers of a solver with assumptions are right. -/
theorem Assumptions.idealSolve_sound :
    Assumptions.SolveSound (SMTSolver.vectors Denoted.val) Assumptions.idealSolve where
  unsat c h σ hσ := by
    rw [idealSolve, if_pos ⟨σ, hσ⟩] at h
    cases h
  sat c h := by
    by_contra hnot
    rw [idealSolve, if_neg hnot] at h
    cases h

/-- A shift is asked for to be small, and after that to be large, when it is assumed to be
small: the second query is about the assumption alone. -/
def shiftSession : List (Command String) :=
  [.query shiftTerm, .assume shiftTerm, .query (.not shiftTerm)]

end Kint.SMT
