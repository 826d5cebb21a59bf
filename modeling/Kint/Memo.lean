import Kint.Iteration

/-!
# Memoised recursion

A recursive function that keeps its results in a table, to be looked up by later calls, over
arbitrary keys `κ` and results `ρ`:

``` R get(K k) { if (r = cache[k]) return r;  r = body(k);  cache[k] = r;  return r; } ```

The body is given as the tree of its calls (`Calls`): it ends with a value, fails an assertion,
asks for the result of another key, or emits an output of type `ω`.  Nothing says that the
recursion ends, so all runs take fuel.

## Main ideas

* Run without a table, a body defines the function: `solve` with fuel, and `Value body k r` if
  some fuel is enough.
* Run with a table, from any one that was left by earlier calls (`Consistent`), it returns the
  same results (`get_sound`, `get_complete`).  So a caller need not know what was asked before.
  Which results are kept is a parameter, since some results are never stored.
* `Asks` and `AsksOnly` say which keys a body may ask for.  If the keys that are asked for
  descend in a well-founded relation, the recursion ends (`Ends`, `ends_of_acc`).
* `Ensures` is a logic for bodies: what they ensure of results and outputs, given that the calls
  do, is true of the function (`Value.ensures`) and of the outputs of a run (`get_out`).

## What the rules are like

For each relation of a body there is one rule for each way to make a body (`ret`, `stop`, `ask`,
`output`, `lift`, `bind`, `mapKey`), tagged for `simp` where it is an equivalence, so that a
body written in `do` notation is taken apart by `simp`.
-/

namespace Kint.Memo

open Iteration

/-! ## Bodies -/

/-- A computation that calls the function being defined and emits outputs. It is a tree whose
branches are the possible results of a call; the function is given by the tree of each key. -/
inductive Calls (κ ρ ω α : Type)
  | ret (a : α)
  /-- An assertion fails. -/
  | stop
  | call (k : κ) (next : ρ → Calls κ ρ ω α)
  | emit (w : ω) (next : Calls κ ρ ω α)

variable {κ κ' ρ ω α β : Type}

namespace Calls

/-- Sequential composition. -/
def bind (p : Calls κ ρ ω α) (q : α → Calls κ ρ ω β) : Calls κ ρ ω β :=
  match p with
  | ret a => q a
  | stop => stop
  | call k next => call k fun r => (next r).bind q
  | emit w next => emit w (next.bind q)

instance : Monad (Calls κ ρ ω) where
  pure := ret
  bind := bind

/-- Call the function on `k`. -/
def ask (k : κ) : Calls κ ρ ω ρ := call k ret

/-- Go on with a result that may be missing. -/
def lift (x : Except Stop α) : Calls κ ρ ω α :=
  match x with
  | .ok a => ret a
  | .error _ => stop

/-- Emit an output. -/
def output (w : ω) : Calls κ ρ ω Unit := emit w (ret ())

/-- Call other keys. -/
def mapKey (g : κ → κ') (p : Calls κ ρ ω α) : Calls κ' ρ ω α :=
  match p with
  | ret a => ret a
  | stop => stop
  | call k next => call (g k) fun r => (next r).mapKey g
  | emit w next => emit w (next.mapKey g)

/-- The result when calls are answered by `f`. -/
def eval (f : κ → Except Stop ρ) : Calls κ ρ ω α → Except Stop α
  | ret a => .ok a
  | stop => .error .fatal
  | call k next => f k >>= fun r => (next r).eval f
  | emit _ next => next.eval f

/-- Results satisfy `Q` and outputs satisfy `W`, if the answer to a call of `k`
satisfies `A k`. -/
def Ensures (A : κ → ρ → Prop) (W : ω → Prop) (Q : α → Prop) : Calls κ ρ ω α → Prop
  | ret a => Q a
  | stop => True
  | call k next => ∀ r, A k r → (next r).Ensures A W Q
  | emit w next => W w ∧ next.Ensures A W Q

/-- The computation makes the call after some answers to the calls before it. -/
def Asks : Calls κ ρ ω α → κ → Prop
  | ret _, _ => False
  | stop, _ => False
  | call k next, k' => k' = k ∨ ∃ r, (next r).Asks k'
  | emit _ next, k' => next.Asks k'

section Eval

variable (f : κ → Except Stop ρ)

@[simp] theorem eval_pure (a : α) : (pure a : Calls κ ρ ω α).eval f = .ok a := rfl

@[simp] theorem eval_ret (a : α) : (ret a : Calls κ ρ ω α).eval f = .ok a := rfl

@[simp] theorem eval_stop : (stop : Calls κ ρ ω α).eval f = .error .fatal := rfl

@[simp] theorem eval_output (w : ω) : (output w : Calls κ ρ ω Unit).eval f = .ok () := rfl

/-- A body that asks for a key has the result of the key. -/
@[simp] theorem eval_ask (k : κ) : (ask k : Calls κ ρ ω ρ).eval f = f k := by
  show (f k >>= fun r => .ok r) = f k
  cases f k <;> rfl

/-- A computation without calls has its own value. -/
theorem eval_lift_ok {x : Except Stop α} {a : α} :
    (lift x : Calls κ ρ ω α).eval f = .ok a ↔ x = .ok a := by
  cases x with
  | ok b => exact Iff.rfl
  | error e =>
    constructor <;> intro h <;> cases h

/-- The value of a composition is that of its second part at the value of the first one. -/
@[simp] theorem eval_bind (p : Calls κ ρ ω α) (q : α → Calls κ ρ ω β) :
    (p >>= q).eval f = p.eval f >>= fun a => (q a).eval f := by
  show (p.bind q).eval f = _
  induction p with
  | ret a => rfl
  | stop => rfl
  | call k next ih =>
    simp only [bind, eval]
    cases f k with
    | ok r => exact ih r
    | error e => rfl
  | emit w next ih => exact ih

/-- Renaming the keys that a body asks for renames the arguments of the function. -/
theorem eval_mapKey (g : κ' → κ) (p : Calls κ' ρ ω α) :
    (p.mapKey g).eval f = p.eval fun k => f (g k) := by
  induction p with
  | ret a => rfl
  | stop => rfl
  | call k next ih =>
    simp only [mapKey, eval]
    cases f (g k) with
    | ok r => exact ih r
    | error e => rfl
  | emit w next ih => exact ih

end Eval

section Asks

variable {k k' : κ} {p : Calls κ ρ ω α} {q : α → Calls κ ρ ω β}

@[simp] theorem asks_ret {a : α} : ¬ (ret a : Calls κ ρ ω α).Asks k := id

@[simp] theorem asks_pure {a : α} : ¬ (pure a : Calls κ ρ ω α).Asks k := id

@[simp] theorem asks_stop : ¬ (stop : Calls κ ρ ω α).Asks k := id

@[simp] theorem asks_ask : (ask k : Calls κ ρ ω ρ).Asks k' ↔ k' = k :=
  or_iff_left fun ⟨_, h⟩ => h

/-- A computation without calls asks for nothing. -/
@[simp] theorem asks_lift {x : Except Stop α} : ¬ (lift x : Calls κ ρ ω α).Asks k := by
  cases x <;> exact id

/-- What a composition asks for, one of its parts asks for. -/
theorem asks_bind (h : (p >>= q).Asks k) : p.Asks k ∨ ∃ a, (q a).Asks k := by
  change (p.bind q).Asks k at h
  induction p with
  | ret a => exact .inr ⟨a, h⟩
  | stop => exact h.elim
  | call k next ih =>
    rcases h with rfl | ⟨r, h⟩
    · exact .inl (.inl rfl)
    · exact (ih r h).imp_left fun h => .inr ⟨r, h⟩
  | emit w next ih => exact ih h

/-- What the first part of a composition asks for, the composition asks for. -/
theorem Asks.bind (h : p.Asks k) : (p >>= q).Asks k := by
  show (p.bind q).Asks k
  induction p with
  | ret a => exact h.elim
  | stop => exact h.elim
  | call k next ih => exact h.imp_right fun ⟨r, h⟩ => ⟨r, ih r h⟩
  | emit w next ih => exact ih h

/-- A call that is made after a computation that can return `a`. -/
theorem Asks.after {f : κ → Except Stop ρ} {a : α} (hp : p.eval f = .ok a)
    (h : (q a).Asks k) : (p >>= q).Asks k := by
  show (p.bind q).Asks k
  induction p with
  | ret b =>
    obtain rfl := Except.ok.inj hp
    exact h
  | stop => cases hp
  | call k next ih =>
    obtain ⟨r, -, hp⟩ := bind_eq_ok.mp hp
    exact .inr ⟨r, ih r hp⟩
  | emit w next ih => exact ih hp

end Asks

/-! ### The keys that a computation asks for -/

/-- Whatever the answers are, the computation asks for keys that satisfy `S` only. -/
def AsksOnly (S : κ → Prop) (p : Calls κ ρ ω α) : Prop := ∀ k, p.Asks k → S k

section AsksOnly

variable {S : κ → Prop} {p : Calls κ ρ ω α} {q : α → Calls κ ρ ω β}

/-- A composition stays inside of a set of keys if its parts do. -/
theorem AsksOnly.bind (hp : AsksOnly S p) (hq : ∀ a, AsksOnly S (q a)) :
    AsksOnly S (p >>= q) := by
  intro k hk
  rcases asks_bind hk with hk | ⟨a, hk⟩
  · exact hp k hk
  · exact hq a k hk

theorem asksOnly_ret {a : α} : AsksOnly S (ret a : Calls κ ρ ω α) := fun _ h => h.elim

theorem asksOnly_pure {a : α} : AsksOnly S (pure a : Calls κ ρ ω α) := fun _ h => h.elim

theorem asksOnly_stop : AsksOnly S (stop : Calls κ ρ ω α) := fun _ h => h.elim

theorem asksOnly_output {w : ω} : AsksOnly S (output w : Calls κ ρ ω Unit) := fun _ h => h.elim

theorem asksOnly_lift {x : Except Stop α} : AsksOnly S (lift x : Calls κ ρ ω α) :=
  fun _ h => absurd h asks_lift

theorem asksOnly_ask {k : κ} (h : S k) : AsksOnly S (ask k : Calls κ ρ ω ρ) := by
  intro k' hk'
  rwa [asks_ask.mp hk']

/-- A body with renamed keys stays inside of the image of the set. -/
theorem AsksOnly.mapKey {S' : κ' → Prop} {g : κ → κ'} (h : AsksOnly S p)
    (hS : ∀ k, S k → S' (g k)) : AsksOnly S' (p.mapKey g) := by
  induction p with
  | ret a => exact asksOnly_ret
  | stop => exact asksOnly_stop
  | call k next ih =>
    rintro k' (rfl | ⟨r, hk'⟩)
    · exact hS k (h k (.inl rfl))
    · exact ih r (fun k' hk' => h k' (.inr ⟨r, hk'⟩)) k' hk'
  | emit w next ih => exact ih h

end AsksOnly

section Ensures

variable {A : κ → ρ → Prop} {W : ω → Prop} {Q Q' : α → Prop}

@[simp] theorem ensures_ret {a : α} : (ret a : Calls κ ρ ω α).Ensures A W Q ↔ Q a := Iff.rfl

@[simp] theorem ensures_pure {a : α} : (pure a : Calls κ ρ ω α).Ensures A W Q ↔ Q a := Iff.rfl

@[simp] theorem ensures_stop : (stop : Calls κ ρ ω α).Ensures A W Q := trivial

@[simp] theorem ensures_ask {k : κ} {R : ρ → Prop} :
    (ask k : Calls κ ρ ω ρ).Ensures A W R ↔ ∀ r, A k r → R r := Iff.rfl

@[simp] theorem ensures_output {w : ω} {R : Unit → Prop} :
    (output w : Calls κ ρ ω Unit).Ensures A W R ↔ W w ∧ R () := Iff.rfl

/-- A computation without calls ensures what is true of its value. -/
@[simp] theorem ensures_lift {x : Except Stop α} :
    (lift x : Calls κ ρ ω α).Ensures A W Q ↔ ∀ a, x = .ok a → Q a := by
  cases x with
  | ok a => exact ⟨fun h b hb => Except.ok.inj hb ▸ h, fun h => h a rfl⟩
  | error e => exact ⟨fun _ a ha => (by cases ha), fun _ => trivial⟩

/-- The rule of composition: the first part ensures what the second one needs. -/
@[simp] theorem ensures_bind {p : Calls κ ρ ω α} {q : α → Calls κ ρ ω β} {R : β → Prop} :
    (p >>= q).Ensures A W R ↔ p.Ensures A W fun a => (q a).Ensures A W R := by
  show (p.bind q).Ensures A W R ↔ _
  induction p with
  | ret a => rfl
  | stop => rfl
  | call k next ih => exact forall_congr' fun r => imp_congr_right fun _ => ih r
  | emit w next ih => exact and_congr_right fun _ => ih

/-- What is known of the calls is carried over to the renamed keys. -/
theorem ensures_mapKey {g : κ' → κ} {p : Calls κ' ρ ω α} :
    (p.mapKey g).Ensures A W Q ↔ p.Ensures (fun k => A (g k)) W Q := by
  induction p with
  | ret a => rfl
  | stop => rfl
  | call k next ih => exact forall_congr' fun r => imp_congr_right fun _ => ih r
  | emit w next ih => exact and_congr_right fun _ => ih

/-- The rule of consequence for the result of a body. -/
theorem Ensures.mono {p : Calls κ ρ ω α} (h : p.Ensures A W Q) (hQ : ∀ a, Q a → Q' a) :
    p.Ensures A W Q' := by
  induction p with
  | ret a => exact hQ a h
  | stop => trivial
  | call k next ih => exact fun r hr => ih r (h r hr)
  | emit w next ih => exact ⟨h.1, ih h.2⟩

/-- The rule of consequence for the outputs of a body. -/
theorem Ensures.mono_out {W' : ω → Prop} {p : Calls κ ρ ω α} (h : p.Ensures A W Q)
    (hW : ∀ w, W w → W' w) : p.Ensures A W' Q := by
  induction p with
  | ret a => exact h
  | stop => trivial
  | call k next ih => exact fun r hr => ih r (h r hr)
  | emit w next ih => exact ⟨hW w h.1, ih h.2⟩

/-- Every body ensures the trivial postcondition. -/
theorem ensures_true (p : Calls κ ρ ω α) :
    p.Ensures A (fun _ => True) fun _ => True := by
  induction p with
  | ret a => trivial
  | stop => trivial
  | call k next ih => exact fun r _ => ih r
  | emit w next ih => exact ⟨trivial, ih⟩

/-- Answers that satisfy `A` lead to a result that satisfies `Q`. -/
theorem Ensures.eval {p : Calls κ ρ ω α} (h : p.Ensures A W Q) {f : κ → Except Stop ρ}
    (hf : ∀ k r, f k = .ok r → A k r) {a : α} (ha : p.eval f = .ok a) : Q a := by
  induction p with
  | ret b => exact Except.ok.inj ha ▸ h
  | stop => cases ha
  | call k next ih =>
    obtain ⟨r, hr, ha⟩ := bind_eq_ok.mp ha
    exact ih r (h r (hf k r hr)) ha
  | emit w next ih => exact ih h.2 ha

end Ensures

end Calls

/-! ## The function without a table -/

section Solve

variable (body : κ → Calls κ ρ ω ρ)

/-- The recursion, with `fuel` for its depth. -/
def solve : (fuel : ℕ) → κ → Except Stop ρ
  | 0, _ => .error .fuel
  | fuel + 1, k => (body k).eval (solve fuel)

/-- `r` is the result for `k`. -/
def Value (k : κ) (r : ρ) : Prop := ∃ n, solve body n k = .ok r

variable {body}

/-- Calls that are answered by `f` are answered the same by a function that
extends `f`. -/
theorem Calls.eval_mono {f g : κ → Except Stop ρ} (hfg : ∀ k r, f k = .ok r → g k = .ok r)
    {p : Calls κ ρ ω α} {a : α} (h : p.eval f = .ok a) : p.eval g = .ok a := by
  induction p with
  | ret b => exact h
  | stop => cases h
  | call k next ih =>
    obtain ⟨r, hr, h⟩ := bind_eq_ok.mp h
    exact bind_eq_ok.mpr ⟨r, hfg k r hr, ih r h⟩
  | emit w next ih => exact ih h

theorem solve_mono {n m : ℕ} (hnm : n ≤ m) {k : κ} {r : ρ} (h : solve body n k = .ok r) :
    solve body m k = .ok r := by
  induction n generalizing m k r with
  | zero => cases h
  | succ n ih =>
    obtain ⟨m, rfl⟩ := Nat.exists_eq_add_of_le' (show 1 ≤ m by omega)
    exact Calls.eval_mono (fun k r hk => ih (by omega) hk) h

theorem Value.unique {k : κ} {r r' : ρ} (h : Value body k r) (h' : Value body k r') :
    r = r' := by
  obtain ⟨n, hn⟩ := h
  obtain ⟨m, hm⟩ := h'
  have hn' := solve_mono (le_max_left n m) hn
  have hm' := solve_mono (le_max_right n m) hm
  exact Except.ok.inj (hn'.symm.trans hm')

/-- What every body ensures, given that the calls do, is true of the function. -/
theorem Value.ensures {A : κ → ρ → Prop} {W : ω → Prop}
    (hbody : ∀ k, (body k).Ensures A W (A k)) {k : κ} {r : ρ} (h : Value body k r) :
    A k r := by
  obtain ⟨n, hn⟩ := h
  induction n generalizing k r with
  | zero => cases hn
  | succ n ih => exact (hbody k).eval (fun k r => ih) hn

/-- The computation returns `a`, with calls of the function. -/
def Calls.Yields (body : κ → Calls κ ρ ω ρ) (p : Calls κ ρ ω α) (a : α) : Prop :=
  ∃ n, p.eval (solve body n) = .ok a

namespace Calls

theorem Yields.unique {p : Calls κ ρ ω α} {a a' : α} (h : Yields body p a)
    (h' : Yields body p a') : a = a' := by
  obtain ⟨n, hn⟩ := h
  obtain ⟨m, hm⟩ := h'
  have hn' := eval_mono (fun k r => solve_mono (le_max_left n m)) hn
  have hm' := eval_mono (fun k r => solve_mono (le_max_right n m)) hm
  exact Except.ok.inj (hn'.symm.trans hm')

/-- The result of a key is what its body yields. -/
theorem value_iff_yields {k : κ} {r : ρ} : Value body k r ↔ Yields body (body k) r := by
  constructor
  · rintro ⟨n, hn⟩
    cases n with
    | zero => cases hn
    | succ n => exact ⟨n, hn⟩
  · rintro ⟨n, hn⟩
    exact ⟨n + 1, hn⟩

@[simp] theorem yields_ret {a b : α} : Yields body (ret a) b ↔ a = b :=
  ⟨fun ⟨_, h⟩ => Except.ok.inj h, fun h => ⟨0, by rw [h]; rfl⟩⟩

@[simp] theorem yields_pure {a b : α} : Yields body (pure a) b ↔ a = b := yields_ret

@[simp] theorem not_yields_stop {a : α} : ¬ Yields body stop a := fun ⟨_, h⟩ => by cases h

@[simp] theorem yields_ask {k : κ} {r : ρ} : Yields body (ask k) r ↔ Value body k r := by
  unfold Yields Value
  simp only [eval_ask]

/-- A computation without calls yields its value. -/
@[simp] theorem yields_lift {x : Except Stop α} {a : α} :
    Yields body (lift x) a ↔ x = .ok a :=
  ⟨fun ⟨_, h⟩ => (eval_lift_ok _).mp h, fun h => ⟨0, (eval_lift_ok _).mpr h⟩⟩

/-- A composition yields what its second part yields at what the first one does. -/
@[simp] theorem yields_bind {p : Calls κ ρ ω α} {q : α → Calls κ ρ ω β} {b : β} :
    Yields body (p >>= q) b ↔ ∃ a, Yields body p a ∧ Yields body (q a) b := by
  constructor
  · rintro ⟨n, h⟩
    rw [eval_bind] at h
    obtain ⟨a, ha, hb⟩ := bind_eq_ok.mp h
    exact ⟨a, ⟨n, ha⟩, n, hb⟩
  · rintro ⟨a, ⟨n, hn⟩, m, hm⟩
    refine ⟨max n m, ?_⟩
    rw [eval_bind]
    exact bind_eq_ok.mpr ⟨a, eval_mono (fun k r => solve_mono (le_max_left n m)) hn,
      eval_mono (fun k r => solve_mono (le_max_right n m)) hm⟩

/-- The logic of bodies is sound: what a body ensures is true of what it yields, if all bodies
ensure what is assumed of the calls. -/
theorem Yields.ensures {A : κ → ρ → Prop} {W : ω → Prop} {Q : α → Prop}
    (hbody : ∀ k, (body k).Ensures A W (A k)) {p : Calls κ ρ ω α} {a : α}
    (h : Yields body p a) (hp : p.Ensures A W Q) : Q a := by
  obtain ⟨n, hn⟩ := h
  exact hp.eval (fun k r hr => Value.ensures hbody ⟨n, hr⟩) hn

end Calls

end Solve

/-! ## The function with a table -/

/-- The table and the outputs so far. -/
structure State (κ ρ ω : Type) where
  cache : κ → Option ρ
  out : List ω

/-- The state before any call. -/
def State.init : State κ ρ ω := ⟨fun _ => none, []⟩

/-- Run a body; calls are answered by `f`. -/
def Calls.run (f : κ → State κ ρ ω → Except Stop (ρ × State κ ρ ω)) :
    Calls κ ρ ω α → State κ ρ ω → Except Stop (α × State κ ρ ω)
  | ret a, s => .ok (a, s)
  | stop, _ => .error .fatal
  | call k next, s => f k s >>= fun (r, s') => (next r).run f s'
  | emit w next, s => next.run f { s with out := s.out ++ [w] }

variable {body : κ → Calls κ ρ ω ρ}

/-- The table holds results of the function. -/
def Consistent (body : κ → Calls κ ρ ω ρ) (s : State κ ρ ω) : Prop :=
  ∀ k r, s.cache k = some r → Value body k r

theorem consistent_init : Consistent body .init := fun _ _ h => by cases h

/-- A body that runs with calls answered correctly computes what it computes
without a table. -/
theorem Calls.run_sound {f : κ → State κ ρ ω → Except Stop (ρ × State κ ρ ω)}
    (hf : ∀ k s r s', Consistent body s → f k s = .ok (r, s') →
      Value body k r ∧ Consistent body s') {p : Calls κ ρ ω α} {s s' : State κ ρ ω} {a : α}
    (hs : Consistent body s) (h : p.run f s = .ok (a, s')) :
    (∃ n, p.eval (solve body n) = .ok a) ∧ Consistent body s' := by
  induction p generalizing s with
  | ret b =>
    obtain ⟨rfl, rfl⟩ := Prod.mk.inj (Except.ok.inj h)
    exact ⟨⟨0, rfl⟩, hs⟩
  | stop => cases h
  | call k next ih =>
    obtain ⟨⟨r, t⟩, hr, h⟩ := bind_eq_ok.mp h
    obtain ⟨⟨n, hn⟩, ht⟩ := hf k s r t hs hr
    obtain ⟨⟨m, hm⟩, hs'⟩ := ih r ht h
    refine ⟨⟨max n m, bind_eq_ok.mpr ⟨r, solve_mono (le_max_left n m) hn, ?_⟩⟩, hs'⟩
    exact Calls.eval_mono (fun k r hk => solve_mono (le_max_right n m) hk) hm
  | emit w next ih => exact ih (s := { s with out := s.out ++ [w] }) hs h

/-- A body whose calls have results runs with any consistent table. -/
theorem Calls.run_complete {f : κ → State κ ρ ω → Except Stop (ρ × State κ ρ ω)} {n : ℕ}
    (hf : ∀ k s r, Consistent body s → solve body n k = .ok r →
      ∃ s', f k s = .ok (r, s') ∧ Consistent body s') {p : Calls κ ρ ω α}
    {s : State κ ρ ω} {a : α} (hs : Consistent body s)
    (h : p.eval (solve body n) = .ok a) :
    ∃ s', p.run f s = .ok (a, s') ∧ Consistent body s' := by
  induction p generalizing s with
  | ret b => exact ⟨s, by rw [Except.ok.inj h]; rfl, hs⟩
  | stop => cases h
  | call k next ih =>
    obtain ⟨r, hr, h⟩ := bind_eq_ok.mp h
    obtain ⟨t, ht, hcons⟩ := hf k s r hs hr
    obtain ⟨s', hs', hcons'⟩ := ih r hcons h
    exact ⟨s', bind_eq_ok.mpr ⟨(r, t), ht, hs'⟩, hcons'⟩
  | emit w next ih => exact ih (s := { s with out := s.out ++ [w] }) hs h

/-- What a body ensures of its outputs, whatever its calls return, is true of all outputs after a
run of it, if the calls keep it true. -/
theorem Calls.run_out {f : κ → State κ ρ ω → Except Stop (ρ × State κ ρ ω)} {W : ω → Prop}
    (hf : ∀ k s r s', (∀ w ∈ s.out, W w) → f k s = .ok (r, s') → ∀ w ∈ s'.out, W w)
    {p : Calls κ ρ ω α} {s s' : State κ ρ ω} {a : α} {Q : α → Prop}
    (hp : p.Ensures (fun _ _ => True) W Q) (hs : ∀ w ∈ s.out, W w)
    (h : p.run f s = .ok (a, s')) : ∀ w ∈ s'.out, W w := by
  induction p generalizing s with
  | ret b =>
    obtain ⟨-, rfl⟩ := Prod.mk.inj (Except.ok.inj h)
    exact hs
  | stop => cases h
  | call k next ih =>
    obtain ⟨⟨r, t⟩, hr, h⟩ := bind_eq_ok.mp h
    exact ih r (hp r trivial) (hf k s r t hs hr) h
  | emit w next ih =>
    refine ih hp.2 (fun w' hw' => ?_) h
    rcases List.mem_append.mp hw' with hw' | hw'
    · exact hs w' hw'
    · rw [List.mem_singleton.mp hw']
      exact hp.1

/-- The keys that get into the table while a body runs have results at every level of
calls at which all calls of the body have. -/
theorem Calls.run_cached {f : κ → State κ ρ ω → Except Stop (ρ × State κ ρ ω)} {j : κ}
    (hf : ∀ k s r s', Consistent body s → f k s = .ok (r, s') →
      Value body k r ∧ Consistent body s')
    (hcached : ∀ k s r s' n, Consistent body s → f k s = .ok (r, s') →
      solve body n k = .ok r → s.cache j = none → s'.cache j ≠ none →
      ∃ r', solve body n j = .ok r')
    {p : Calls κ ρ ω α} {s s' : State κ ρ ω} {a b : α} {n : ℕ} (hs : Consistent body s)
    (h : p.run f s = .ok (a, s')) (hp : p.eval (solve body n) = .ok b)
    (hj : s.cache j = none) (hj' : s'.cache j ≠ none) : ∃ r', solve body n j = .ok r' := by
  induction p generalizing s with
  | ret c =>
    obtain ⟨-, rfl⟩ := Prod.mk.inj (Except.ok.inj h)
    exact absurd hj hj'
  | stop => cases h
  | call k next ih =>
    obtain ⟨⟨r, t⟩, hr, h⟩ := bind_eq_ok.mp h
    obtain ⟨r', hr', hp⟩ := bind_eq_ok.mp hp
    obtain ⟨hvalue, ht⟩ := hf k s r t hs hr
    obtain rfl := hvalue.unique ⟨n, hr'⟩
    by_cases hcache : t.cache j = none
    · exact ih r ht h hp hcache
    · exact hcached k s r t n hs hr hr' hj hcache
  | emit w next ih => exact ih (s := { s with out := s.out ++ [w] }) hs h hp hj

section Get

variable [DecidableEq κ]

/-- Look the key up; when it is not there, run its body and, where `keep` says
so, keep the result. -/
def get (body : κ → Calls κ ρ ω ρ) (keep : κ → Bool) :
    (fuel : ℕ) → κ → State κ ρ ω → Except Stop (ρ × State κ ρ ω)
  | 0, _, _ => .error .fuel
  | fuel + 1, k, s =>
    match s.cache k with
    | some r => .ok (r, s)
    | none => do
      let (r, s') ← (body k).run (get body keep fuel) s
      return (r, if keep k then { s' with cache := Function.update s'.cache k (some r) }
        else s')

variable {keep : κ → Bool}

/-- A table stays consistent when the result of a key is stored in it, or is not. -/
theorem Consistent.store {s : State κ ρ ω} (hs : Consistent body s) {k : κ} {r : ρ}
    (h : Value body k r) (b : Bool) : Consistent body
      (if b then { s with cache := Function.update s.cache k (some r) } else s) := by
  cases b with
  | false => exact hs
  | true =>
    intro k' r' hk'
    by_cases heq : k' = k
    · subst heq
      have hr : (Function.update s.cache k' (some r)) k' = some r' := hk'
      rw [Function.update_self] at hr
      rwa [← Option.some.inj hr]
    · have hold : (Function.update s.cache k (some r)) k' = some r' := hk'
      rw [Function.update_of_ne heq] at hold
      exact hs k' r' hold

/-- What a call returns is the result of the function, and the table stays
consistent. -/
theorem get_sound {n : ℕ} {k : κ} {s s' : State κ ρ ω} {r : ρ} (hs : Consistent body s)
    (h : get body keep n k s = .ok (r, s')) : Value body k r ∧ Consistent body s' := by
  induction n generalizing k s r s' with
  | zero => cases h
  | succ n ih =>
    unfold get at h
    split at h
    · rename_i r' hcache
      obtain ⟨rfl, rfl⟩ := Prod.mk.inj (Except.ok.inj h)
      exact ⟨hs k r' hcache, hs⟩
    · obtain ⟨⟨r', t⟩, hrun, h⟩ := bind_eq_ok.mp h
      obtain ⟨rfl, rfl⟩ := Prod.mk.inj (Except.ok.inj h)
      obtain ⟨⟨m, hm⟩, ht⟩ := Calls.run_sound (fun k s r s' => ih) hs hrun
      have hvalue : Value body k r' := ⟨m + 1, hm⟩
      exact ⟨hvalue, ht.store hvalue (keep k)⟩

/-- A key that has a result gets it, whatever was computed before. -/
theorem get_complete {n m : ℕ} (hnm : n ≤ m) {k : κ} {s : State κ ρ ω} {r : ρ}
    (hs : Consistent body s) (h : solve body n k = .ok r) :
    ∃ s', get body keep m k s = .ok (r, s') ∧ Consistent body s' := by
  induction n generalizing m k s r with
  | zero => cases h
  | succ n ih =>
    obtain ⟨m, rfl⟩ := Nat.exists_eq_add_of_le' (show 1 ≤ m by omega)
    unfold get
    split
    · rename_i r' hcache
      obtain rfl := (hs k r' hcache).unique ⟨n + 1, h⟩
      exact ⟨s, rfl, hs⟩
    · obtain ⟨t, hrun, ht⟩ := Calls.run_complete
        (fun k s r hs hk => ih (m := m) (by omega) hs hk) hs h
      exact ⟨_, bind_eq_ok.mpr ⟨(r, t), hrun, rfl⟩, ht.store ⟨n + 1, h⟩ (keep k)⟩

variable (keep) in
/-- A key that has a result gets it, given enough fuel, from every consistent
table. -/
theorem Value.get {k : κ} {r : ρ} (h : Value body k r) :
    ∃ n, ∀ s, Consistent body s → ∀ m, n ≤ m →
      ∃ s', get body keep m k s = .ok (r, s') := by
  obtain ⟨n, hn⟩ := h
  refine ⟨n, fun s hs m hm => ?_⟩
  obtain ⟨s', hs', -⟩ := get_complete hm hs hn
  exact ⟨s', hs'⟩

/-- The keys that a call stores are keys that the function is defined for with the same fuel:
nothing else is asked for on the way. -/
theorem get_cached {m n : ℕ} {k : κ} {s s' : State κ ρ ω} {r : ρ} (hs : Consistent body s)
    (h : get body keep m k s = .ok (r, s')) (hk : solve body n k = .ok r) {j : κ}
    (hj : s.cache j = none) (hj' : s'.cache j ≠ none) : ∃ r', solve body n j = .ok r' := by
  induction m generalizing k s r s' n with
  | zero => cases h
  | succ m ih =>
    unfold get at h
    split at h
    · obtain ⟨-, rfl⟩ := Prod.mk.inj (Except.ok.inj h)
      exact absurd hj hj'
    · obtain ⟨⟨r', t⟩, hrun, h⟩ := bind_eq_ok.mp h
      obtain ⟨rfl, rfl⟩ := Prod.mk.inj (Except.ok.inj h)
      cases n with
      | zero => cases hk
      | succ n =>
        have hrun_cached := fun hcache => Calls.run_cached (j := j) (fun k s r s' => get_sound)
          (fun k s r s' n hs h hk => ih hs h hk) hs hrun hk hj hcache
        by_cases hcache : t.cache j = none
        · by_cases hjk : j = k
          · exact ⟨r', hjk ▸ hk⟩
          · refine absurd ?_ hj'
            split
            · simpa [Function.update_of_ne hjk] using hcache
            · exact hcache
        · obtain ⟨r'', hr''⟩ := hrun_cached hcache
          exact ⟨r'', solve_mono (Nat.le_succ n) hr''⟩

/-- The calls that the body of a key makes do not come back to the key before it is in
the table: a call that did would not end. -/
theorem run_fresh {m : ℕ} {k : κ} {s t : State κ ρ ω} {r : ρ} (hs : Consistent body s)
    (hk : s.cache k = none) (h : (body k).run (get body keep m) s = .ok (r, t)) :
    t.cache k = none := by
  obtain ⟨⟨n, hn⟩, -⟩ := Calls.run_sound (fun k s r s' => get_sound) hs h
  have hsolve : ∃ n, ∃ r, solve body n k = .ok r := ⟨n + 1, r, hn⟩
  classical
  -- the least level of calls at which the key has a result
  obtain ⟨r', hr'⟩ := Nat.find_spec hsolve
  have hleast := fun m => Nat.find_min hsolve (m := m)
  generalize Nat.find hsolve = d at hr' hleast
  cases d with
  | zero => cases hr'
  | succ d =>
    by_contra hcache
    obtain ⟨r'', hr''⟩ := Calls.run_cached (fun k s r s' => get_sound)
      (fun k s r s' n hs h hk => get_cached hs h hk) hs h hr' hk hcache
    exact hleast d (Nat.lt_succ_self d) ⟨r'', hr''⟩

/-- The calls of `k` come to an end: from the function with the table, on any consistent
table, given enough fuel, either a result comes back or an assertion fails. -/
def Ends (body : κ → Calls κ ρ ω ρ) (keep : κ → Bool) (k : κ) : Prop :=
  ∃ N, ∀ n, N ≤ n → ∀ s, Consistent body s → get body keep n k s ≠ .error .fuel

/-- A body ends if all keys that it may call do.  The answers to its calls are the values of
the function, the same for every table and every amount of fuel, so that the calls that it
really makes are finitely many although it may ask for more. -/
theorem Calls.run_ends {p : Calls κ ρ ω α} (hasks : ∀ k, p.Asks k → Ends body keep k) :
    ∃ N, ∀ n, N ≤ n → ∀ s, Consistent body s → p.run (get body keep n) s ≠ .error .fuel := by
  induction p with
  | ret a => exact ⟨0, fun _ _ _ _ => nofun⟩
  | stop => exact ⟨0, fun _ _ _ _ => nofun⟩
  | call k next ih =>
    obtain ⟨N, hN⟩ := hasks k (.inl rfl)
    by_cases hvalue : ∃ r, Value body k r
    · obtain ⟨r, hr⟩ := hvalue
      obtain ⟨M, hM⟩ := ih r fun k' hk' => hasks k' (.inr ⟨r, hk'⟩)
      refine ⟨max N M, fun n hn s hs h => ?_⟩
      rcases bind_eq_error.mp h with h | ⟨⟨r', t⟩, hr', h⟩
      · exact hN n (le_of_max_le_left hn) s hs h
      · obtain ⟨hr', ht⟩ := get_sound hs hr'
        obtain rfl := hr.unique hr'
        exact hM n (le_of_max_le_right hn) t ht h
    · -- no result comes back, so nothing after the call runs
      refine ⟨N, fun n hn s hs h => ?_⟩
      rcases bind_eq_error.mp h with h | ⟨⟨r', t⟩, hr', -⟩
      · exact hN n hn s hs h
      · exact hvalue ⟨r', (get_sound hs hr').1⟩
  | emit w next ih =>
    obtain ⟨N, hN⟩ := ih hasks
    exact ⟨N, fun n hn s hs => hN n hn { s with out := s.out ++ [w] } hs⟩

variable (keep) in
/-- Where every sequence of nested calls is finite, the calls come to an end. -/
theorem ends_of_acc {k : κ} (h : Acc (fun k' k => (body k).Asks k') k) : Ends body keep k := by
  induction h with
  | intro k _ ih =>
    obtain ⟨N, hN⟩ := Calls.run_ends fun k' hk' => ih k' hk'
    refine ⟨N + 1, fun n hn s hs h => ?_⟩
    obtain ⟨n, rfl⟩ := Nat.exists_eq_add_of_le' (show 1 ≤ n by omega)
    unfold get at h
    split at h
    · cases h
    · rcases bind_eq_error.mp h with h | ⟨⟨r, t⟩, -, h⟩
      · exact hN n (by omega) s hs h
      · cases h

/-- What all bodies ensure of their outputs is true of all outputs. -/
theorem get_out {W : ω → Prop} {Q : κ → ρ → Prop}
    (hbody : ∀ k, (body k).Ensures (fun _ _ => True) W (Q k)) {n : ℕ} {k : κ}
    {s s' : State κ ρ ω} {r : ρ} (hs : ∀ w ∈ s.out, W w)
    (h : get body keep n k s = .ok (r, s')) : ∀ w ∈ s'.out, W w := by
  induction n generalizing k s r s' with
  | zero => cases h
  | succ n ih =>
    unfold get at h
    split at h
    · obtain ⟨-, rfl⟩ := Prod.mk.inj (Except.ok.inj h)
      exact hs
    · obtain ⟨⟨r', t⟩, hrun, h⟩ := bind_eq_ok.mp h
      obtain ⟨-, rfl⟩ := Prod.mk.inj (Except.ok.inj h)
      have ht := Calls.run_out (fun k s r s' hs h => ih hs h) (hbody k) hs hrun
      split <;> exact ht

end Get

end Kint.Memo
