import Kint.SMT.Term

/-!
# The interface of the solvers

`SMTSolver.h` is implemented on top of three solvers.  What an implementation has to do is
stated here once: its functions make expressions that have the values of the theory
(`SMTSolver.Sound`).  A term is built by one call for each of its operators (`build`), and then
has its value (`build_val`), so that two implementations agree on it.

## Main definitions

* `SMTSolver`: the functions of the header that make expressions, for expressions of any type.
* `Limits`: what an implementation may leave out.  The widths of shifts are known when a term is
  built; whether the operands of an operator are among those for which it has the value of the
  theory depends on the values of the variables.
* `WellFormed`, `Fits`: the terms, and the assignments, that are within the limits.
* `HasSort`: an expression has a value of a certain width under every assignment.
* `Sound`: one clause for each function.

## The proof

`build_val` is an induction on the term.  An operator is built if its operands have the width
that it asks for, and that they have it is part of what is proved of each term (`Builds`).  The
width does not depend on the assignment, while the value does, and its clause has the condition
`Fits`.

Reductions, negation and the overflow of negations and quotients are functions of the header
that no term uses; `Sound` has clauses for them all the same.
-/

namespace Kint.SMT

open Iteration

/-- The functions of `SMTSolver` that make expressions.  Those that may fail an assertion, or
are undefined for some operands, return no expression then. -/
structure SMTSolver (ν Node : Type) where
  bvwidth : Node → ℕ
  bvfalse : Node
  bvtrue : Node
  bvconst : APInt → Except Stop Node
  bvvar : (width : ℕ) → (name : ν) → Node
  ite : Node → Node → Node → Node
  cmp : Cmp → Node → Node → Node
  extract : (high low : ℕ) → Node → Node
  zero_extend : (i : ℕ) → Node → Node
  sign_extend : (i : ℕ) → Node → Node
  bvredand : Node → Node
  bvredor : Node → Node
  bvnot : Node → Node
  bvneg : Node → Node
  binary : BinaryOp → Node → Node → Except Stop Node
  bvneg_overflow : Node → Node
  overflow : OverflowOp → Node → Node → Node
  bvsdiv_overflow : Node → Node → Node

/-- The operator shifts. -/
def isShift : BinaryOp → Bool
  | .shl | .lshr | .ashr => true
  | _ => false

/-- What an implementation may leave out: the widths of shifts that it takes, and the operands
for which an operator has the value of the theory. -/
structure Limits where
  width : ℕ → Prop
  operands : BinaryOp → {w : ℕ} → BitVec w → BitVec w → Prop

/-- Nothing is left out. -/
def Limits.none : Limits := ⟨fun _ => True, fun _ _ _ _ => True⟩

namespace Term

variable {ν : Type} (L : Limits)

/-- Widths are positive, shifts are of widths that are taken, and the bits that are
extracted are there. -/
def WellFormed : {w : ℕ} → Term ν w → Prop
  | w, const _ => 0 < w
  | w, var _ _ => 0 < w
  | w, binary op lhs rhs => (isShift op = true → L.width w) ∧ lhs.WellFormed ∧ rhs.WellFormed
  | _, cmp _ lhs rhs => lhs.WellFormed ∧ rhs.WellFormed
  | _, overflow _ lhs rhs => lhs.WellFormed ∧ rhs.WellFormed
  | _, ite e lhs rhs => e.WellFormed ∧ lhs.WellFormed ∧ rhs.WellFormed
  | _, extract (w := w) high low e => low ≤ high ∧ high < w ∧ e.WellFormed
  | _, zeroExtend _ e => e.WellFormed
  | _, signExtend _ e => e.WellFormed
  | _, not e => e.WellFormed

/-- Under the assignment, the operators get operands that are taken. -/
def Fits (σ : Assignment ν) : {w : ℕ} → Term ν w → Prop
  | _, const _ => True
  | _, var _ _ => True
  | _, binary op lhs rhs => L.operands op (lhs.eval σ) (rhs.eval σ) ∧ lhs.Fits σ ∧ rhs.Fits σ
  | _, cmp _ lhs rhs => lhs.Fits σ ∧ rhs.Fits σ
  | _, overflow _ lhs rhs => lhs.Fits σ ∧ rhs.Fits σ
  | _, ite e lhs rhs => e.Fits σ ∧ lhs.Fits σ ∧ rhs.Fits σ
  | _, extract _ _ e => e.Fits σ
  | _, zeroExtend _ e => e.Fits σ
  | _, signExtend _ e => e.Fits σ
  | _, not e => e.Fits σ

end Term

namespace SMTSolver

variable {ν Node Node' : Type} (S : SMTSolver ν Node)

/-- The expression for a term. -/
def build : {w : ℕ} → Term ν w → Except Stop Node
  | w, .const c => S.bvconst ⟨w, c⟩
  | w, .var _ name => .ok (S.bvvar w name)
  | _, .binary op lhs rhs => do
    let l ← build lhs
    let r ← build rhs
    S.binary op l r
  | _, .cmp op lhs rhs => do
    let l ← build lhs
    let r ← build rhs
    return S.cmp op l r
  | _, .overflow op lhs rhs => do
    let l ← build lhs
    let r ← build rhs
    return S.overflow op l r
  | _, .ite e lhs rhs => do
    let c ← build e
    let l ← build lhs
    let r ← build rhs
    return S.ite c l r
  | _, .extract high low e => do
    let v ← build e
    return S.extract high low v
  | _, .zeroExtend i e => do
    let v ← build e
    return S.zero_extend i v
  | _, .signExtend i e => do
    let v ← build e
    return S.sign_extend i v
  | _, .not e => do
    let v ← build e
    return S.bvnot v

section Values

variable (val : Assignment ν → Node → Option APInt)

/-- The expression has a value of `w` bits under every assignment. -/
def HasSort (e : Node) (w : ℕ) : Prop := ∀ σ, ∃ x : BitVec w, val σ e = some ⟨w, x⟩

/-- A function of one operand. -/
def IsUnaryOp (F : Node → Node) {g : ℕ → ℕ} (f : (w : ℕ) → BitVec w → BitVec (g w)) : Prop :=
  ∀ σ e w (x : BitVec w), val σ e = some ⟨w, x⟩ → val σ (F e) = some ⟨g w, f w x⟩

/-- A function of two operands of one width. -/
def IsBinaryOp (F : Node → Node → Node) {g : ℕ → ℕ}
    (f : (w : ℕ) → BitVec w → BitVec w → BitVec (g w)) : Prop :=
  ∀ σ e e' w (x y : BitVec w), val σ e = some ⟨w, x⟩ → val σ e' = some ⟨w, y⟩ →
    val σ (F e e') = some ⟨g w, f w x y⟩

/-- The functions are those of the theory, within the limits.  `bvredand`, `bvredor`, `bvneg`,
`bvneg_overflow` and `bvsdiv_overflow` are functions of the interface that no pass calls, so
that no `Term` is made with them; they are specified here all the same, for a back end to be
right as a whole. -/
structure Sound (L : Limits) : Prop where
  bvwidth : ∀ e w, HasSort val e w → S.bvwidth e = w
  bvfalse : ∀ σ, val σ S.bvfalse = some ⟨1, 0#1⟩
  bvtrue : ∀ σ, val σ S.bvtrue = some ⟨1, 1#1⟩
  bvconst : ∀ c : APInt, 0 < c.width → ∃ e, S.bvconst c = .ok e ∧ ∀ σ, val σ e = some c
  bvvar : ∀ w name, 0 < w → ∀ σ, val σ (S.bvvar w name) = some ⟨w, σ name w⟩
  ite : ∀ σ e l r (c : BitVec 1) w (x y : BitVec w), val σ e = some ⟨1, c⟩ →
    val σ l = some ⟨w, x⟩ → val σ r = some ⟨w, y⟩ →
      val σ (S.ite e l r) = some ⟨w, if c = 1#1 then x else y⟩
  cmp : ∀ op, IsBinaryOp val (S.cmp op) fun _ x y => BitVec.ofBool (evalCmp op x y)
  extract : ∀ high low σ e w (x : BitVec w), low ≤ high → high < w → val σ e = some ⟨w, x⟩ →
    val σ (S.extract high low e) = some ⟨_, x.extractLsb high low⟩
  zero_extend : ∀ i, IsUnaryOp val (S.zero_extend i) fun w x => x.setWidth (w + i)
  sign_extend : ∀ i, IsUnaryOp val (S.sign_extend i) fun w x => x.signExtend (w + i)
  bvredand : IsUnaryOp val S.bvredand fun w x => BitVec.ofBool (x == BitVec.allOnes w)
  bvredor : IsUnaryOp val S.bvredor fun w x => BitVec.ofBool (x != 0#w)
  bvnot : IsUnaryOp val S.bvnot fun _ x => ~~~x
  bvneg : IsUnaryOp val S.bvneg fun _ x => -x
  binary : ∀ op e e' w, HasSort val e w → HasSort val e' w → (isShift op = true → L.width w) →
    ∃ r, S.binary op e e' = .ok r ∧ HasSort val r w ∧ ∀ σ (x y : BitVec w),
      val σ e = some ⟨w, x⟩ → val σ e' = some ⟨w, y⟩ → L.operands op x y →
        val σ r = some ⟨w, evalBinary op x y⟩
  bvneg_overflow : ∀ σ e w (x : BitVec w), 0 < w → val σ e = some ⟨w, x⟩ →
    val σ (S.bvneg_overflow e) = some (.ofBool (x == BitVec.intMin w))
  overflow : ∀ op, IsBinaryOp val (S.overflow op) fun _ x y => BitVec.ofBool (evalOverflow op x y)
  bvsdiv_overflow : IsBinaryOp val S.bvsdiv_overflow fun _ x y =>
    BitVec.ofBool (decide (SDivOverflows x y))

end Values

section Facts

variable {S} {val : Assignment ν → Node → Option APInt} {L : Limits} {e e' : Node} {w w' : ℕ}
  {σ : Assignment ν}

/-- An operator of one operand has the width that its value has. -/
theorem IsUnaryOp.hasSort {F : Node → Node} {g : ℕ → ℕ} {f : (w : ℕ) → BitVec w → BitVec (g w)}
    (h : IsUnaryOp val F f) (he : HasSort val e w) : HasSort val (F e) (g w) := by
  intro σ
  obtain ⟨x, hx⟩ := he σ
  exact ⟨_, h σ e w x hx⟩

/-- An operator of two operands has the width that its value has. -/
theorem IsBinaryOp.hasSort {F : Node → Node → Node} {g : ℕ → ℕ}
    {f : (w : ℕ) → BitVec w → BitVec w → BitVec (g w)} (h : IsBinaryOp val F f)
    (he : HasSort val e w) (he' : HasSort val e' w) : HasSort val (F e e') (g w) := by
  intro σ
  obtain ⟨x, hx⟩ := he σ
  obtain ⟨y, hy⟩ := he' σ
  exact ⟨_, h σ e e' w x y hx hy⟩

variable (S val L) in
/-- What is to be shown of a term: there is an expression for it, which has the width of the
term, and its value where the operands are within the limits. -/
def Builds {w : ℕ} (t : Term ν w) : Prop :=
  ∃ e, S.build t = .ok e ∧ HasSort val e w ∧
    ∀ σ, t.Fits L σ → val σ e = some ⟨w, t.eval σ⟩

/-- Every well-formed term is built. By induction on the term. The operands have expressions of the
right width, and the clause for the operator in `Sound` gives the expression of the term. -/
theorem build_val (hS : S.Sound val L) {w : ℕ} (t : Term ν w) (ht : t.WellFormed L) :
    S.Builds val L t := by
  induction t with
  | const c =>
    obtain ⟨e, he, hval⟩ := hS.bvconst ⟨_, c⟩ ht
    exact ⟨e, he, fun σ => ⟨c, hval σ⟩, fun σ _ => hval σ⟩
  | var w name =>
    exact ⟨_, rfl, fun σ => ⟨_, hS.bvvar w name ht σ⟩, fun σ _ => hS.bvvar w name ht σ⟩
  | binary op lhs rhs ihl ihr =>
    obtain ⟨hwidth, hl, hr⟩ := ht
    obtain ⟨l, hl, hsortl, hvall⟩ := ihl hl
    obtain ⟨r, hr, hsortr, hvalr⟩ := ihr hr
    obtain ⟨e, he, hsort, hval⟩ := hS.binary op l r _ hsortl hsortr hwidth
    refine ⟨e, by simp [build, hl, hr, he], hsort, ?_⟩
    rintro σ ⟨hfits, hfitsl, hfitsr⟩
    exact hval σ _ _ (hvall σ hfitsl) (hvalr σ hfitsr) hfits
  | cmp op lhs rhs ihl ihr =>
    obtain ⟨l, hl, hsortl, hvall⟩ := ihl ht.1
    obtain ⟨r, hr, hsortr, hvalr⟩ := ihr ht.2
    refine ⟨S.cmp op l r, by simp [build, hl, hr], (hS.cmp op).hasSort hsortl hsortr, ?_⟩
    rintro σ ⟨hfitsl, hfitsr⟩
    exact hS.cmp op σ l r _ _ _ (hvall σ hfitsl) (hvalr σ hfitsr)
  | overflow op lhs rhs ihl ihr =>
    obtain ⟨l, hl, hsortl, hvall⟩ := ihl ht.1
    obtain ⟨r, hr, hsortr, hvalr⟩ := ihr ht.2
    refine ⟨S.overflow op l r, by simp [build, hl, hr],
      (hS.overflow op).hasSort hsortl hsortr, ?_⟩
    rintro σ ⟨hfitsl, hfitsr⟩
    exact hS.overflow op σ l r _ _ _ (hvall σ hfitsl) (hvalr σ hfitsr)
  | ite e lhs rhs ihe ihl ihr =>
    obtain ⟨he, hl, hr⟩ := ht
    obtain ⟨c, hc, hsortc, hvalc⟩ := ihe he
    obtain ⟨l, hl, hsortl, hvall⟩ := ihl hl
    obtain ⟨r, hr, hsortr, hvalr⟩ := ihr hr
    refine ⟨S.ite c l r, by simp [build, hc, hl, hr], fun σ => ?_, ?_⟩
    · obtain ⟨b, hb⟩ := hsortc σ
      obtain ⟨x, hx⟩ := hsortl σ
      obtain ⟨y, hy⟩ := hsortr σ
      exact ⟨_, hS.ite σ c l r b _ x y hb hx hy⟩
    · rintro σ ⟨hfitsc, hfitsl, hfitsr⟩
      exact hS.ite σ c l r _ _ _ _ (hvalc σ hfitsc) (hvall σ hfitsl) (hvalr σ hfitsr)
  | extract high low e ih =>
    obtain ⟨hle, hlt, he⟩ := ht
    obtain ⟨v, hv, hsort, hval⟩ := ih he
    refine ⟨S.extract high low v, by simp [build, hv], fun σ => ?_, fun σ hfits => ?_⟩
    · obtain ⟨x, hx⟩ := hsort σ
      exact ⟨_, hS.extract high low σ v _ x hle hlt hx⟩
    · exact hS.extract high low σ v _ _ hle hlt (hval σ hfits)
  | zeroExtend i e ih =>
    obtain ⟨v, hv, hsort, hval⟩ := ih ht
    exact ⟨S.zero_extend i v, by simp [build, hv], (hS.zero_extend i).hasSort hsort,
      fun σ hfits => hS.zero_extend i σ v _ _ (hval σ hfits)⟩
  | signExtend i e ih =>
    obtain ⟨v, hv, hsort, hval⟩ := ih ht
    exact ⟨S.sign_extend i v, by simp [build, hv], (hS.sign_extend i).hasSort hsort,
      fun σ hfits => hS.sign_extend i σ v _ _ (hval σ hfits)⟩
  | not e ih =>
    obtain ⟨v, hv, hsort, hval⟩ := ih ht
    exact ⟨S.bvnot v, by simp [build, hv], hS.bvnot.hasSort hsort,
      fun σ hfits => hS.bvnot σ v _ _ (hval σ hfits)⟩

end Facts

end SMTSolver

end Kint.SMT
