import Mathlib.Data.Set.Card
import Mathlib.Order.CompletePartialOrder
import Mathlib.Order.WellFounded
import Mathlib.Tactic.Common

/-!
# Change-driven iteration of reporting passes

A dataflow solver is often written as nested loops around functions that update a shared state
in place and return one bit, *did I change something?*:

``` while (changed) { changed = false; for (x : xs) changed |= f(x); ret |= changed; } ```

This module is the theory of such loops, for an arbitrary state `σ`, with nothing about any
particular analysis.

* `Pass σ τ` is a function that reports; it may also stop with an error, and it may record
  events of type `τ` (a trace that no pass reads back).
* `forEach` and `whileChanged` are the two loops above.
* `Sequential Q` says that a relation `Q` between a state and a report survives composition.  A
  specification proved of the loop body then holds of the loops (`forEach_spec`,
  `whileChanged_spec`).
* `Settles` is termination of a fuel-indexed pass: with enough fuel the outcome is fixed, and it
  is not "out of fuel".  `whileChanged_settles` derives it from a well-founded growth order.
* `whileChanged_last` and `forEach_silent` read off what holds when a loop stops: every part of
  the body was called once more and reported nothing.

### Why the reported bit is part of the outcome

The bit decides whether a loop goes on, so a pass that changes the state without reporting it
makes the loop stop too early, and one that reports without changing makes it run forever.
`Report.Exact`, `Report.Grows` and `Report.Silent` say how far the bit can be trusted: exactly,
in the direction that termination needs, and in the direction that a fixpoint needs.  A pass may
satisfy one of them only.
-/

namespace Kint.Iteration

universe u v w

/-- Why a computation ends without a result. The two are kept apart because more fuel helps against
the second one only. -/
inductive Stop
  /-- An assertion failed or an unhandled case was reported. -/
  | fatal
  /-- The fuel of a loop or of a recursion ran out. -/
  | fuel
  deriving DecidableEq, Repr

/-- Inversion of a monadic bind: a result of `x >>= f` comes from a result of
`x`. -/
theorem bind_eq_ok {ε : Type u} {α β : Type v} {x : Except ε α}
    {f : α → Except ε β} {b : β} :
    (x >>= f) = .ok b ↔ ∃ a, x = .ok a ∧ f a = .ok b := by
  refine ⟨fun h => ?_, fun ⟨a, hx, hf⟩ => by rw [hx]; exact hf⟩
  rcases x with e | a
  · exact absurd h (by simp [bind, Except.bind])
  · exact ⟨a, rfl, h⟩

/-- A bind fails where its first part fails or what follows a result of it does. -/
theorem bind_eq_error {ε : Type u} {α β : Type v} {x : Except ε α}
    {f : α → Except ε β} {e : ε} :
    (x >>= f) = .error e ↔ x = .error e ∨ ∃ a, x = .ok a ∧ f a = .error e := by
  cases x with
  | error e' =>
    constructor
    · intro h
      exact .inl (congrArg _ (Except.error.inj h))
    · rintro (h | ⟨a, ha, -⟩)
      · exact congrArg _ (Except.error.inj h)
      · cases ha
  | ok a =>
    constructor
    · intro h
      exact .inr ⟨a, rfl, h⟩
    · rintro (h | ⟨a', ha, h⟩)
      · cases h
      · rwa [Except.ok.inj ha]

@[simp] theorem ok_bind {ε : Type u} {α β : Type v} (a : α) (f : α → Except ε β) :
    ((.ok a : Except ε α) >>= f) = f a := rfl

@[simp] theorem error_bind {ε : Type u} {α β : Type v} (e : ε) (f : α → Except ε β) :
    ((.error e : Except ε α) >>= f) = .error e := rfl

@[simp] theorem pure_eq_ok {ε : Type u} {α : Type v} (a : α) :
    (pure a : Except ε α) = .ok a := rfl

/-- What a pass returns: the reported bit, the state it leaves, and the events
it recorded. -/
structure Report (σ : Type u) (τ : Type v) where
  changed : Bool
  state : σ
  trace : List τ
  deriving DecidableEq

/-- A function that updates a state and reports whether it changed it. -/
abbrev Pass (σ : Type u) (τ : Type v) := σ → Except Stop (Report σ τ)

variable {σ : Type u} {τ : Type v} {ι : Type w}

/-- A computation has a result, and the result satisfies `p`. -/
def resultIs {α : Type u} (x : Except Stop α) (p : α → Bool) : Bool :=
  match x with
  | .ok r => p r
  | .error _ => false

/-- A check of the result of a run that comes out true is about a run that ended. -/
theorem of_resultIs {α : Type u} {x : Except Stop α} {p : α → Bool}
    (h : resultIs x p = true) : ∃ r, x = .ok r ∧ p r = true := by
  cases x with
  | ok r => exact ⟨r, rfl, h⟩
  | error e => cases h

/-- The report of doing nothing. -/
def Report.idle (s : σ) : Report σ τ := ⟨false, s, []⟩

@[simp] theorem Report.idle_changed (s : σ) :
    (Report.idle s : Report σ τ).changed = false := rfl

@[simp] theorem Report.idle_state (s : σ) : (Report.idle s : Report σ τ).state = s := rfl

@[simp] theorem Report.idle_trace (s : σ) : (Report.idle s : Report σ τ).trace = [] := rfl

/-- The report of two passes in a row: `changed |= …`. -/
def Report.andThen (r r' : Report σ τ) : Report σ τ :=
  ⟨r.changed || r'.changed, r'.state, r.trace ++ r'.trace⟩

@[simp] theorem Report.andThen_changed (r r' : Report σ τ) :
    (r.andThen r').changed = (r.changed || r'.changed) := rfl

@[simp] theorem Report.andThen_state (r r' : Report σ τ) :
    (r.andThen r').state = r'.state := rfl

@[simp] theorem Report.andThen_trace (r r' : Report σ τ) :
    (r.andThen r').trace = r.trace ++ r'.trace := rfl

/-- Run `f`, then `g` on the state that `f` leaves. -/
def Pass.seq (f g : Pass σ τ) : Pass σ τ := fun s => do
  let r ← f s
  let r' ← g r.state
  return r.andThen r'

/-- A composition ends if its two parts do, the second one from the state that the first one leaves;
the reports are put together. -/
theorem Pass.seq_eq_ok {f g : Pass σ τ} {s : σ} {r : Report σ τ} :
    f.seq g s = .ok r ↔
      ∃ a b, f s = .ok a ∧ g a.state = .ok b ∧ r = a.andThen b := by
  unfold Pass.seq
  constructor
  · intro h
    obtain ⟨a, ha, h⟩ := bind_eq_ok.mp h
    obtain ⟨b, hb, h⟩ := bind_eq_ok.mp h
    exact ⟨a, b, ha, hb, (Except.ok.inj h).symm⟩
  · rintro ⟨a, b, ha, hb, rfl⟩
    simp [ha, hb]

/-- `for (x : xs) changed |= f(x);` -/
def forEach (f : ι → Pass σ τ) : List ι → Pass σ τ
  | [] => fun s => .ok (Report.idle s)
  | x :: xs => (f x).seq (forEach f xs)

@[simp] theorem forEach_nil (f : ι → Pass σ τ) (s : σ) :
    forEach f [] s = .ok (Report.idle s) := rfl

@[simp] theorem forEach_cons (f : ι → Pass σ τ) (x : ι) (xs : List ι) :
    forEach f (x :: xs) = (f x).seq (forEach f xs) := rfl

/-- A report that is followed by an idle one stays what it is. -/
@[simp] theorem Report.andThen_idle (r : Report σ τ) (s : σ) (hs : s = r.state) :
    r.andThen (.idle s) = r := by
  subst hs
  simp [Report.andThen]

theorem forEach_singleton (f : ι → Pass σ τ) (x : ι) : forEach f [x] = f x := by
  funext s
  cases h : f x s with
  | error e => simp [Pass.seq, h]
  | ok r => simp [Pass.seq, h]

/-- Bodies that agree on the elements of a list make the same loop. -/
theorem forEach_congr {f g : ι → Pass σ τ} :
    ∀ {xs : List ι}, (∀ x ∈ xs, f x = g x) → forEach f xs = forEach g xs := by
  intro xs
  induction xs with
  | nil => intro _; rfl
  | cons x xs ih =>
    intro h
    rw [forEach_cons, forEach_cons, h x (by simp),
      ih fun y hy => h y (List.mem_cons_of_mem _ hy)]

/-- A `for` loop has a result when its body has, in every state that the
invariant allows. -/
theorem forEach_ok {I : σ → Prop} {f : ι → Pass σ τ} :
    ∀ {xs : List ι}, (∀ x ∈ xs, ∀ s, I s → ∃ r, f x s = .ok r) →
      (∀ x ∈ xs, ∀ s r, I s → f x s = .ok r → I r.state) →
      ∀ {s}, I s → ∃ r, forEach f xs s = .ok r := by
  intro xs
  induction xs with
  | nil => intro _ _ s _; exact ⟨_, rfl⟩
  | cons x xs ih =>
    intro hok hI s hs
    obtain ⟨a, ha⟩ := hok x (by simp) s hs
    obtain ⟨b, hb⟩ := ih (fun y hy => hok y (List.mem_cons_of_mem _ hy))
      (fun y hy => hI y (List.mem_cons_of_mem _ hy)) (hI x (by simp) s a hs ha)
    exact ⟨_, Pass.seq_eq_ok.mpr ⟨a, b, ha, hb, rfl⟩⟩

/-- A loop over two lists is the loop over the one and then the loop over the other. -/
theorem forEach_append (f : ι → Pass σ τ) (xs ys : List ι) :
    forEach f (xs ++ ys) = (forEach f xs).seq (forEach f ys) := by
  induction xs with
  | nil =>
    funext s
    cases h : forEach f ys s with
    | error e => simp [Pass.seq, h]
    | ok r => simp [Pass.seq, h, Report.andThen]
  | cons x xs ih =>
    funext s
    rw [List.cons_append, forEach_cons, ih, forEach_cons]
    cases ha : f x s with
    | error e => simp [Pass.seq, ha]
    | ok a =>
      cases hb : forEach f xs a.state with
      | error e => simp [Pass.seq, ha, hb]
      | ok b =>
        cases hc : forEach f ys b.state with
        | error e => simp [Pass.seq, ha, hb, hc]
        | ok c => simp [Pass.seq, ha, hb, hc, Report.andThen, Bool.or_assoc]

/-- Two nested `for` loops are one loop over all inner elements. -/
theorem forEach_forEach {κ : Type*} (f : ι → Pass σ τ) (g : κ → List ι) (ks : List κ) :
    forEach (fun k => forEach f (g k)) ks = forEach f (ks.flatMap g) := by
  induction ks with
  | nil => rfl
  | cons k ks ih => rw [forEach_cons, ih, List.flatMap_cons, forEach_append]

/-- `while (changed) { changed = body(++itr); ret |= changed; }`, entered with
`changed` true.  The body is told the number of the iteration; the trace is the
trace of all iterations. -/
def whileChanged (body : ℕ → Pass σ τ) : (fuel itr : ℕ) → Pass σ τ
  | 0, _ => fun _ => .error .fuel
  | fuel + 1, itr => fun s => do
      let r ← body itr s
      if r.changed then
        let r' ← whileChanged body fuel (itr + 1) r.state
        return r.andThen r'
      else
        return r

/-- One unrolling of the loop: either the last iteration, or an iteration that
reports and then the rest. -/
theorem whileChanged_succ_eq_ok {body : ℕ → Pass σ τ} {fuel itr : ℕ} {s : σ}
    {r : Report σ τ} :
    whileChanged body (fuel + 1) itr s = .ok r ↔
      (body itr s = .ok r ∧ r.changed = false) ∨
      ∃ a b, body itr s = .ok a ∧ a.changed = true ∧
        whileChanged body fuel (itr + 1) a.state = .ok b ∧ r = a.andThen b := by
  simp only [whileChanged]
  constructor
  · intro h
    obtain ⟨a, ha, h⟩ := bind_eq_ok.mp h
    cases hc : a.changed with
    | false =>
      rw [hc, if_neg (by simp)] at h
      obtain rfl := Except.ok.inj h
      exact .inl ⟨ha, hc⟩
    | true =>
      rw [hc, if_pos rfl] at h
      obtain ⟨b, hb, h⟩ := bind_eq_ok.mp h
      exact .inr ⟨a, b, ha, hc, hb, (Except.ok.inj h).symm⟩
  · rintro (⟨ha, hc⟩ | ⟨a, b, ha, hc, hb, rfl⟩)
    · simp [ha, hc]
    · simp [ha, hc, hb]

/-! ## Specifications that survive composition -/

/-- A relation between the state before a pass and its report that holds of
doing nothing and of two passes in a row. -/
structure Sequential (Q : σ → Report σ τ → Prop) : Prop where
  idle : ∀ s, Q s (Report.idle s)
  andThen : ∀ {s r r'}, Q s r → Q r.state r' → Q s (r.andThen r')

namespace Sequential

variable {Q : σ → Report σ τ → Prop}

/-- A sequential specification of the body, for the elements of the list, holds of the loop. -/
theorem forEach_spec (hQ : Sequential Q) {f : ι → Pass σ τ} :
    ∀ {xs : List ι}, (∀ x ∈ xs, ∀ s r, f x s = .ok r → Q s r) →
      ∀ {s r}, forEach f xs s = .ok r → Q s r := by
  intro xs
  induction xs with
  | nil =>
    intro _ s r h
    obtain rfl := Except.ok.inj h
    exact hQ.idle s
  | cons x xs ih =>
    intro hf s r h
    obtain ⟨a, b, ha, hb, rfl⟩ := Pass.seq_eq_ok.mp h
    refine hQ.andThen (hf x (by simp) _ _ ha) (ih (fun y hy => hf y ?_) hb)
    exact List.mem_cons_of_mem _ hy

/-- A sequential specification of the body, in every iteration, holds of the loop. -/
theorem whileChanged_spec (hQ : Sequential Q) {body : ℕ → Pass σ τ}
    (hf : ∀ itr s r, body itr s = .ok r → Q s r) :
    ∀ {fuel itr s r}, whileChanged body fuel itr s = .ok r → Q s r := by
  intro fuel
  induction fuel with
  | zero => intro itr s r h; cases h
  | succ fuel ih =>
    intro itr s r h
    rcases whileChanged_succ_eq_ok.mp h with ⟨ha, -⟩ | ⟨a, b, ha, -, hb, rfl⟩
    · exact hf _ _ _ ha
    · exact hQ.andThen (hf _ _ _ ha) (ih hb)

/-- Two sequential relations hold together. -/
theorem and {Q' : σ → Report σ τ → Prop} (hQ : Sequential Q) (hQ' : Sequential Q') :
    Sequential fun s r => Q s r ∧ Q' s r where
  idle s := ⟨hQ.idle s, hQ'.idle s⟩
  andThen h h' := ⟨hQ.andThen h.1 h'.1, hQ'.andThen h.2 h'.2⟩

/-- Keeping an invariant is sequential. -/
theorem invariant (I : σ → Prop) :
    Sequential (fun s (r : Report σ τ) => I s → I r.state) where
  idle _ h := h
  andThen h h' hs := h' (h hs)

end Sequential

/-! ## Exact reports and growth -/

/-- The report is exact for a strict order `lt`: no report, and the state is
the same; or a report, and the state is strictly larger. -/
def Report.Exact (lt : σ → σ → Prop) (s : σ) (r : Report σ τ) : Prop :=
  (r.changed = false ∧ r.state = s) ∨ (r.changed = true ∧ lt s r.state)

/-- Exact reports for a transitive order are sequential: a loop whose parts report exactly does so.
-/
theorem sequential_exact {lt : σ → σ → Prop}
    (htrans : ∀ {a b c}, lt a b → lt b c → lt a c) :
    Sequential (τ := τ) (Report.Exact lt) where
  idle s := .inl ⟨rfl, rfl⟩
  andThen {s r r'} h h' := by
    rcases h with ⟨hc, hs⟩ | ⟨hc, hs⟩
    · rcases h' with ⟨hc', hs'⟩ | ⟨hc', hs'⟩
      · exact .inl ⟨by simp [hc, hc'], hs'.trans hs⟩
      · exact .inr ⟨by simp [hc, hc'], by simpa [hs] using hs'⟩
    · rcases h' with ⟨hc', hs'⟩ | ⟨hc', hs'⟩
      · exact .inr ⟨by simp [hc, hc'], by simpa [hs'] using hs⟩
      · exact .inr ⟨by simp [hc, hc'], htrans hs hs'⟩

section Growth

variable {α : Type*} [Preorder α]

/-- Seen through `view`, the state grows, and strictly when the pass reports. -/
def Report.Grows (view : σ → α) (s : σ) (r : Report σ τ) : Prop :=
  view s ≤ view r.state ∧ (r.changed = true → view s < view r.state)

/-- Passes under which the view of the state never shrinks are sequential. -/
theorem sequential_grows (view : σ → α) :
    Sequential (τ := τ) (Report.Grows view) where
  idle s := ⟨le_rfl, by simp⟩
  andThen {s r r'} h h' := by
    refine ⟨h.1.trans h'.1, fun hc => ?_⟩
    rcases Bool.or_eq_true_iff.mp hc with hc | hc
    · exact (h.2 hc).trans_le h'.1
    · exact h.1.trans_lt (h'.2 hc)

end Growth

/-- Seen through `view`, a pass that reports nothing leaves the state as it
was. -/
def Report.Silent {α : Type*} (view : σ → α) (s : σ) (r : Report σ τ) : Prop :=
  r.changed = false → view r.state = view s

/-- Passes that leave the view alone when they report nothing are sequential: if none of the parts
reports, none of them has changed the view. -/
theorem sequential_silent {α : Type*} (view : σ → α) :
    Sequential (τ := τ) (Report.Silent view) where
  idle _ _ := rfl
  andThen {s r r'} h h' hc := by
    obtain ⟨hc₁, hc₂⟩ := Bool.or_eq_false_iff.mp hc
    exact (h' hc₂).trans (h hc₁)

/-! ## When a loop stops -/

/-- A `for` loop that reports nothing has called its body on every element, in
a state that looks the same, without a report. -/
theorem forEach_silent {α : Type*} {view : σ → α} {f : ι → Pass σ τ} :
    ∀ {xs : List ι}, (∀ x ∈ xs, ∀ s r, f x s = .ok r → r.Silent view s) →
      ∀ {s r}, forEach f xs s = .ok r → r.changed = false →
        ∀ x ∈ xs, ∃ s' r', view s' = view s ∧ f x s' = .ok r' ∧ r'.changed = false := by
  intro xs
  induction xs with
  | nil => intro _ s r _ _ x hx; cases hx
  | cons y ys ih =>
    intro hf s r h hc x hx
    obtain ⟨a, b, ha, hb, rfl⟩ := Pass.seq_eq_ok.mp h
    obtain ⟨hca, hcb⟩ := Bool.or_eq_false_iff.mp hc
    rcases List.mem_cons.mp hx with rfl | hx
    · exact ⟨s, a, rfl, ha, hca⟩
    · have htail : ∀ z ∈ ys, ∀ s r, f z s = .ok r → r.Silent view s :=
        fun z hz => hf z (List.mem_cons_of_mem _ hz)
      obtain ⟨s', r', hs', hr', hc'⟩ := ih htail hb hcb x hx
      exact ⟨s', r', hs'.trans (hf y (by simp) _ _ ha hca), hr', hc'⟩

/-- A `while (changed)` loop that stops ends with an iteration without a report,
and an invariant of the iterations holds before that one. -/
theorem whileChanged_last {I : σ → Prop} {body : ℕ → Pass σ τ}
    (hI : ∀ itr s r, I s → body itr s = .ok r → r.changed = true → I r.state) :
    ∀ {fuel itr s r}, I s → whileChanged body fuel itr s = .ok r →
      ∃ itr' s' r', itr ≤ itr' ∧ I s' ∧ body itr' s' = .ok r' ∧
        r'.changed = false ∧ r'.state = r.state := by
  intro fuel
  induction fuel with
  | zero => intro itr s r _ h; cases h
  | succ fuel ih =>
    intro itr s r hs h
    rcases whileChanged_succ_eq_ok.mp h with ⟨ha, hc⟩ | ⟨a, b, ha, hca, hb, rfl⟩
    · exact ⟨itr, s, r, le_rfl, hs, ha, hc, rfl⟩
    · obtain ⟨itr', s', r', hle, hs', hr', hc', hst⟩ := ih (hI _ _ _ hs ha hca) hb
      exact ⟨itr', s', r', by omega, hs', hr', hc', hst⟩

/-- A loop that as a whole reports nothing has run its body exactly once. -/
theorem whileChanged_unchanged {body : ℕ → Pass σ τ} {fuel itr : ℕ} {s : σ}
    {r : Report σ τ} (h : whileChanged body fuel itr s = .ok r)
    (hc : r.changed = false) : body itr s = .ok r := by
  cases fuel with
  | zero => cases h
  | succ fuel =>
    rcases whileChanged_succ_eq_ok.mp h with ⟨ha, -⟩ | ⟨a, b, -, hca, -, rfl⟩
    · exact ha
    · simp [hca] at hc

/-! ## Termination -/

/-- With enough fuel the outcome of `f` at `s` is fixed, and it is not "out of
fuel". -/
def Settles (f : ℕ → Pass σ τ) (s : σ) : Prop :=
  ∃ out, out ≠ .error .fuel ∧ ∃ n, ∀ m, n ≤ m → f m s = out

/-- A pass that settles and never stops with a failed assertion has a result. -/
theorem Settles.ok {f : ℕ → Pass σ τ} {s : σ} (h : Settles f s) {n₀ : ℕ}
    (hne : ∀ m, n₀ ≤ m → f m s ≠ .error .fatal) :
    ∃ r n, ∀ m, n ≤ m → f m s = .ok r := by
  obtain ⟨out, hout, n, hn⟩ := h
  cases out with
  | ok r => exact ⟨r, n, hn⟩
  | error e =>
    cases e with
    | fuel => exact absurd rfl hout
    | fatal => exact absurd (hn (max n n₀) (by omega)) (hne (max n n₀) (by omega))

/-- A pass that has one and the same result for all large fuel settles. -/
theorem settles_of_ok {f : ℕ → Pass σ τ} {s : σ} {r : Report σ τ} {n : ℕ}
    (h : ∀ m, n ≤ m → f m s = .ok r) : Settles f s := ⟨.ok r, by simp, n, h⟩

/-- A composition settles if its first part does and the second one settles from wherever the first
one ends. -/
theorem Settles.seq {f g : ℕ → Pass σ τ} {s : σ} (hf : Settles f s)
    (hg : ∀ m r, f m s = .ok r → Settles g r.state) :
    Settles (fun m => (f m).seq (g m)) s := by
  obtain ⟨out, hout, n, hn⟩ := hf
  cases out with
  | error e =>
    refine ⟨.error e, hout, n, fun m hm => ?_⟩
    simp [Pass.seq, hn m hm]
  | ok r =>
    obtain ⟨out', hout', n', hn'⟩ := hg n r (hn n le_rfl)
    cases out' with
    | error e =>
      refine ⟨.error e, hout', max n n', fun m hm => ?_⟩
      simp [Pass.seq, hn m (by omega), hn' m (by omega)]
    | ok r' =>
      refine ⟨.ok (r.andThen r'), by simp, max n n', fun m hm => ?_⟩
      simp [Pass.seq, hn m (by omega), hn' m (by omega)]

/-- A `for` loop settles when its body does, in every state that the invariant
allows. -/
theorem forEach_settles {I : σ → Prop} {f : ℕ → ι → Pass σ τ} :
    ∀ {xs : List ι}, (∀ x ∈ xs, ∀ s, I s → Settles (fun m => f m x) s) →
      (∀ x ∈ xs, ∀ m s r, I s → f m x s = .ok r → I r.state) →
      ∀ {s}, I s → Settles (fun m => forEach (f m) xs) s := by
  intro xs
  induction xs with
  | nil => intro _ _ s _; exact ⟨.ok (Report.idle s), by simp, 0, fun _ _ => rfl⟩
  | cons x xs ih =>
    intro hset hI s hs
    refine Settles.seq (hset x (by simp) s hs) fun m r hr => ih ?_ ?_ ?_
    · exact fun y hy => hset y (List.mem_cons_of_mem _ hy)
    · exact fun y hy => hI y (List.mem_cons_of_mem _ hy)
    · exact hI x (by simp) m s r hs hr

/-- A `while (changed)` loop settles when its body does and every iteration that
reports goes up in an order without infinite ascents.  The fuel of the loop and
the fuel handed to its body are independent. -/
theorem whileChanged_settles_aux {I : σ → Prop} {R : σ → σ → Prop}
    {f : ℕ → ℕ → Pass σ τ} (hwf : WellFounded fun b a => I b ∧ R a b)
    (hset : ∀ itr s, I s → Settles (fun m => f m itr) s)
    (hI : ∀ m itr s r, I s → f m itr s = .ok r → I r.state)
    (hlt : ∀ m itr s r, I s → f m itr s = .ok r → r.changed = true → R s r.state)
    (s : σ) :
    I s → ∀ itr, ∃ out, out ≠ .error .fuel ∧ ∃ n, ∀ m k, n ≤ m → n ≤ k →
      whileChanged (f m) k itr s = out := by
  induction s using hwf.induction with
  | _ s ih =>
    intro hs itr
    obtain ⟨out, hout, n, hn⟩ := hset itr s hs
    cases out with
    | error e =>
      refine ⟨.error e, hout, n + 1, fun m k hm hk => ?_⟩
      obtain ⟨k, rfl⟩ := Nat.exists_eq_add_of_le' (show 1 ≤ k by omega)
      simp [whileChanged, hn m (by omega)]
    | ok r =>
      have hr := hn n le_rfl
      cases hc : r.changed with
      | false =>
        refine ⟨.ok r, by simp, n + 1, fun m k hm hk => ?_⟩
        obtain ⟨k, rfl⟩ := Nat.exists_eq_add_of_le' (show 1 ≤ k by omega)
        simp [whileChanged, hn m (by omega), hc]
      | true =>
        have hr' : I r.state := hI n itr s r hs hr
        obtain ⟨out', hout', n', hn'⟩ :=
          ih r.state ⟨hr', hlt n itr s r hs hr hc⟩ hr' (itr + 1)
        refine ⟨out'.map r.andThen, ?_, max n n' + 1, fun m k hm hk => ?_⟩
        · cases out' with
          | error e => simpa [Except.map] using hout'
          | ok b => simp [Except.map]
        · obtain ⟨k, rfl⟩ := Nat.exists_eq_add_of_le' (show 1 ≤ k by omega)
          simp only [whileChanged, hn m (by omega), ok_bind, hc, if_true,
            hn' m k (by omega) (by omega)]
          cases out' <;> rfl

/-- A loop settles if its body does, keeps an invariant, and makes a step in a well-founded order
whenever it reports a change; then only finitely many iterations report one. -/
theorem whileChanged_settles {I : σ → Prop} {R : σ → σ → Prop}
    {f : ℕ → ℕ → Pass σ τ} (hwf : WellFounded fun b a => I b ∧ R a b)
    (hset : ∀ itr s, I s → Settles (fun m => f m itr) s)
    (hI : ∀ m itr s r, I s → f m itr s = .ok r → I r.state)
    (hlt : ∀ m itr s r, I s → f m itr s = .ok r → r.changed = true → R s r.state)
    {s : σ} (hs : I s) (itr : ℕ) :
    Settles (fun m => whileChanged (f m) m itr) s := by
  obtain ⟨out, hout, n, hn⟩ := whileChanged_settles_aux hwf hset hI hlt s hs itr
  exact ⟨out, hout, n, fun m hm => hn m m hm hm⟩

/-- More fuel does not change an outcome other than "out of fuel". -/
def Persists (f : ℕ → Pass σ τ) : Prop :=
  ∀ m m' s, m ≤ m' → f m s ≠ .error .fuel → f m' s = f m s

theorem persists_const (f : Pass σ τ) : Persists fun _ => f := fun _ _ _ _ _ => rfl

theorem Persists.seq {f g : ℕ → Pass σ τ} (hf : Persists f) (hg : Persists g) :
    Persists fun m => (f m).seq (g m) := by
  intro m m' s hle hne
  simp only [Pass.seq] at hne ⊢
  have hfirst : f m' s = f m s := hf m m' s hle fun h => hne (by simp [h])
  rw [hfirst]
  cases ha : f m s with
  | error e => rfl
  | ok a =>
    have hsecond : g m' a.state = g m a.state :=
      hg m m' a.state hle fun h => hne (by simp [ha, h])
    simp only [ok_bind, hsecond]

/-- A loop over a list persists if its body does: an outcome with some fuel is the outcome with
more. -/
theorem persists_forEach {f : ℕ → ι → Pass σ τ} {xs : List ι}
    (hf : ∀ x ∈ xs, Persists fun m => f m x) : Persists fun m => forEach (f m) xs := by
  induction xs with
  | nil => exact persists_const _
  | cons x xs ih =>
    exact (hf x (by simp)).seq (ih fun y hy => hf y (List.mem_cons_of_mem _ hy))

/-- The loop persists although its fuel bounds the iterations and its body takes fuel, too. -/
theorem persists_whileChanged {f : ℕ → ℕ → Pass σ τ} (hf : ∀ itr, Persists fun m => f m itr)
    (itr : ℕ) : Persists fun m => whileChanged (f m) m itr := by
  have hloop : ∀ k k' m m' itr s, k ≤ k' → m ≤ m' →
      whileChanged (f m) k itr s ≠ .error .fuel →
      whileChanged (f m') k' itr s = whileChanged (f m) k itr s := by
    intro k
    induction k with
    | zero => intro k' m m' itr s _ _ hne; exact absurd rfl hne
    | succ k ih =>
      intro k' m m' itr s hk hm hne
      obtain ⟨k', rfl⟩ := Nat.exists_eq_add_of_le' (show 1 ≤ k' by omega)
      simp only [whileChanged] at hne ⊢
      have hbody : f m' itr s = f m itr s := hf itr m m' s hm fun h => hne (by simp [h])
      rw [hbody]
      cases ha : f m itr s with
      | error e => rfl
      | ok a =>
        simp only [ok_bind]
        split
        · rename_i hc
          rw [ih k' m m' (itr + 1) a.state (by omega) hm fun h => hne (by simp [ha, hc, h])]
        · rfl
  exact fun m m' s hle hne => hloop m m' m m' itr s hle hle hne

/-- A pass that has a result with some fuel fails no assertion with any other. -/
theorem Persists.ne_fatal {f : ℕ → Pass σ τ} (hf : Persists f) {n : ℕ} {s : σ}
    {r : Report σ τ} (h : f n s = .ok r) (m : ℕ) : f m s ≠ .error .fatal := by
  intro hm
  have hm' : f (max n m) s = f m s := hf m _ s (le_max_right n m) (by simp [hm])
  have hn' : f (max n m) s = f n s := hf n _ s (le_max_left n m) (by simp [h])
  rw [hm, hn', h] at hm'
  cases hm'

/-- A `for` loop does not stop with an error that its body never stops with. -/
theorem forEach_ne_error {e : Stop} {I : σ → Prop} {f : ι → Pass σ τ} :
    ∀ {xs : List ι}, (∀ x ∈ xs, ∀ s, I s → f x s ≠ .error e) →
      (∀ x ∈ xs, ∀ s r, I s → f x s = .ok r → I r.state) →
      ∀ {s}, I s → forEach f xs s ≠ .error e := by
  intro xs
  induction xs with
  | nil => intro _ _ s _ h; cases h
  | cons x xs ih =>
    intro hne hI s hs h
    cases ha : f x s with
    | error e' =>
      refine hne x (by simp) s hs ?_
      simpa [Pass.seq, ha] using h
    | ok a =>
      have htail := ih (fun y hy => hne y (List.mem_cons_of_mem _ hy))
        (fun y hy => hI y (List.mem_cons_of_mem _ hy)) (hI x (by simp) s a hs ha)
      cases hb : forEach f xs a.state with
      | error e' =>
        refine htail ?_
        simpa [Pass.seq, ha, hb] using h
      | ok b => simp [Pass.seq, ha, hb] at h

/-- A loop of a body that never stops with a failed assertion does not either. -/
theorem whileChanged_ne_fatal {I : σ → Prop} {body : ℕ → Pass σ τ}
    (hne : ∀ itr s, I s → body itr s ≠ .error .fatal)
    (hI : ∀ itr s r, I s → body itr s = .ok r → I r.state) :
    ∀ {fuel itr s}, I s → whileChanged body fuel itr s ≠ .error .fatal := by
  intro fuel
  induction fuel with
  | zero => intro itr s _ h; cases h
  | succ fuel ih =>
    intro itr s hs h
    cases ha : body itr s with
    | error e =>
      refine hne itr s hs ?_
      simpa [whileChanged, ha] using h
    | ok a =>
      have htail : whileChanged body fuel (itr + 1) a.state ≠ .error .fatal :=
        ih (hI itr s a hs ha)
      cases hc : a.changed with
      | false => simp [whileChanged, ha, hc] at h
      | true =>
        cases hb : whileChanged body fuel (itr + 1) a.state with
        | error e =>
          refine htail ?_
          simpa [whileChanged, ha, hc, hb] using h
        | ok b => simp [whileChanged, ha, hc, hb] at h

/-! ## Growth inside a finite set -/

/-- States seen as sets of facts: strict growth inside a finite set has no
infinite ascent. -/
theorem wellFounded_growth {α : Type*} {A : Set α} (hA : A.Finite) (facts : σ → Set α) :
    WellFounded fun b a => facts b ⊆ A ∧ facts a ⊂ facts b := by
  refine Subrelation.wf ?_ (measure fun s => (A \ facts s).ncard).wf
  rintro b a ⟨hb, hab⟩
  refine Set.ncard_lt_ncard ?_ hA.sdiff
  obtain ⟨x, hxb, hxa⟩ := Set.exists_of_ssubset hab
  refine Set.ssubset_iff_of_subset (Set.sdiff_subset_sdiff_right hab.subset) |>.mpr ?_
  exact ⟨x, ⟨hb hxb, hxa⟩, fun h => h.2 hxb⟩

end Kint.Iteration
