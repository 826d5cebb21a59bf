import Kint.Memo
import Mathlib.Algebra.Order.Group.Multiset
import Mathlib.Data.List.AList
import Mathlib.Tactic.Abel

/-!
# Reference counts of memoised terms

A memoised function whose results are nodes of a library with reference counts: making a node
gives one reference to it, `incref` and `decref` add and remove one, and the entries of the
table keep the references of what they hold.  `Code` is such a function written with its calls
of the library; which nodes the library returns is left open, so nodes may be shared.

`Code.Implements` is a logic of ownership.  It says, of code that owns the references `A`, that
it does what a body without references does (a tree of `Memo.Calls`), and which references it
owns in the end; `decref` needs a reference to give up.  From it follows that no reference is
given up twice and that the counts are those of the callers and of the entries of the table
(`Accounts`), over a whole recursion (`get_safe`).  The comparison with the function without
references shows that no entry of the table is written twice.

## Main ideas

* The references that are out are a multiset of nodes, kept in the state by `Code.run`.  A
  `decref` without one is a failure of its own kind (`Failure`), apart from a failed assertion,
  so that it can be excluded while assertions may fail.
* The rules of `Implements` follow the code from its beginning: each library call changes what
  is owned, and `ask` changes nothing, because the table owns the result of a call.
* `Implements.frame` is the frame rule: what else is owned stays as it is.  It carries the
  references of a caller over a call.

## Main results

* `run_safe`: code that implements a computation does what it does, and keeps the accounts.
* `get_safe`: the same for the whole recursion through the table.
-/

namespace Kint.RefCount

open Iteration Memo

/-- A reference to a node, which stands for a term. -/
structure Ref (τ : Type) where
  node : ℕ
  term : τ

/-- Why code ends without a result. Code that fails an assertion ends the program; the other two are
what a correct program never does. -/
inductive Failure
  | stop (e : Stop)
  /-- `decref` of a node without a reference. -/
  | dangling
  /-- References are left in the end. -/
  | leak
  deriving DecidableEq

/-- A computation that calls the function being defined, makes nodes, and counts
references. -/
inductive Code (κ τ ω α : Type)
  | ret (a : α)
  /-- An assertion fails. -/
  | stop
  | call (k : κ) (next : Ref τ → Code κ τ ω α)
  | make (t : Except Stop τ) (next : Ref τ → Code κ τ ω α)
  | copy (r : Ref τ) (next : Code κ τ ω α)
  | release (r : Ref τ) (next : Code κ τ ω α)
  | emit (w : ω) (next : Code κ τ ω α)

variable {κ κ' τ ω α β γ : Type}

namespace Code

/-- Sequential composition. -/
def bind (p : Code κ τ ω α) (q : α → Code κ τ ω β) : Code κ τ ω β :=
  match p with
  | ret a => q a
  | stop => stop
  | call k next => call k fun r => (next r).bind q
  | make t next => make t fun r => (next r).bind q
  | copy r next => copy r (next.bind q)
  | release r next => release r (next.bind q)
  | emit w next => emit w (next.bind q)

instance : Monad (Code κ τ ω) where
  pure := ret
  bind := bind

/-- Call the function on `k`; the table owns the result. -/
def ask (k : κ) : Code κ τ ω (Ref τ) := call k ret

/-- Make a node; the caller owns the result. -/
def create (t : Except Stop τ) : Code κ τ ω (Ref τ) := make t ret

/-- `incref` -/
def incref (r : Ref τ) : Code κ τ ω Unit := copy r (ret ())

/-- `decref` -/
def decref (r : Ref τ) : Code κ τ ω Unit := release r (ret ())

/-- Emit an output. -/
def output (w : ω) : Code κ τ ω Unit := emit w (ret ())

/-- Go on with a result that may be missing. -/
def lift (x : Except Stop α) : Code κ τ ω α :=
  match x with
  | .ok a => ret a
  | .error _ => stop

/-- Call other keys. -/
def mapKey (g : κ → κ') (p : Code κ τ ω α) : Code κ' τ ω α :=
  match p with
  | ret a => ret a
  | stop => stop
  | call k next => call (g k) fun r => (next r).mapKey g
  | make t next => make t fun r => (next r).mapKey g
  | copy r next => copy r (next.mapKey g)
  | release r next => release r (next.mapKey g)
  | emit w next => emit w (next.mapKey g)

end Code

/-! ## Execution -/

/-- The table, the outputs so far, the outstanding references, and the number of nodes
that were made. -/
structure State (κ τ ω : Type) where
  cache : AList fun _ : κ => Ref τ
  out : List ω
  refs : Multiset ℕ
  made : ℕ

/-- The state before any call. -/
def State.init : State κ τ ω := ⟨∅, [], 0, 0⟩

/-- The references of the entries of the table. -/
def State.owned (s : State κ τ ω) : Multiset ℕ := (s.cache.entries.map fun e => e.2.node : List ℕ)

/-- Run code: `nodes n` is what the library returns when it makes a node for the `n`-th
time, and `f` answers calls. -/
def Code.run (nodes : ℕ → ℕ)
    (f : κ → State κ τ ω → Except Failure (Ref τ × State κ τ ω)) :
    Code κ τ ω α → State κ τ ω → Except Failure (α × State κ τ ω)
  | ret a, s => .ok (a, s)
  | stop, _ => .error (.stop .fatal)
  | call k next, s => f k s >>= fun (r, s') => (next r).run nodes f s'
  | make t next, s =>
    match t with
    | .ok t => (next ⟨nodes s.made, t⟩).run nodes f
      { s with refs := {nodes s.made} + s.refs, made := s.made + 1 }
    | .error e => .error (.stop e)
  | copy r next, s => next.run nodes f { s with refs := {r.node} + s.refs }
  | release r next, s =>
    if r.node ∈ s.refs then next.run nodes f { s with refs := s.refs.erase r.node }
    else .error .dangling
  | emit w next, s => next.run nodes f { s with out := s.out ++ [w] }

/-- Give up one reference to each node. -/
def releaseAll : List (Ref τ) → State κ τ ω → Except Failure (State κ τ ω)
  | [], s => .ok s
  | r :: rs, s =>
    if r.node ∈ s.refs then releaseAll rs { s with refs := s.refs.erase r.node }
    else .error .dangling

section Get

variable [DecidableEq κ] (code : κ → Code κ τ ω (Ref τ)) (keep : κ → Bool) (nodes : ℕ → ℕ)

/-- Look the key up; when it is not there, run its code and, where `keep` says so, put
the result into the table. -/
def get : (fuel : ℕ) → κ → State κ τ ω → Except Failure (Ref τ × State κ τ ω)
  | 0, _, _ => .error (.stop .fuel)
  | fuel + 1, k, s =>
    match s.cache.lookup k with
    | some r => .ok (r, s)
    | none => do
      let (r, s') ← (code k).run nodes (get fuel) s
      return (r, if keep k then { s' with cache := s'.cache.insert k r } else s')

end Get

/-! ## Ownership -/

/-- Code that owns the references `A` does what `c` does, and satisfies `Q` with the
references it owns in the end. -/
def Code.Implements (Q : α → Multiset ℕ → β → Prop) :
    Code κ τ ω α → Multiset ℕ → Calls κ τ ω β → Prop
  | ret a, A, c => ∃ b, c = .ret b ∧ Q a A b
  | stop, _, _ => True
  | call k next, A, c => ∃ next', c = .call k next' ∧ ∀ r, (next r).Implements Q A (next' r.term)
  | make t next, A, c => ∀ r : Ref τ, t = .ok r.term → (next r).Implements Q ({r.node} + A) c
  | copy r next, A, c => next.Implements Q ({r.node} + A) c
  | release r next, A, c => ∃ A', A = {r.node} + A' ∧ next.Implements Q A' c
  | emit w next, A, c => ∃ next', c = .emit w next' ∧ next.Implements Q A next'

namespace Code

variable {Q Q' : α → Multiset ℕ → β → Prop} {A B : Multiset ℕ}

/-- What else is owned stays as it is. References that the code does not know of are neither given
up nor counted, so they can be added to both sides. -/
theorem Implements.frame {p : Code κ τ ω α} {c : Calls κ τ ω β} (h : p.Implements Q A c)
    (B : Multiset ℕ) :
    p.Implements (fun a A' b => ∃ A'', A' = A'' + B ∧ Q a A'' b) (A + B) c := by
  induction p generalizing A c with
  | ret a =>
    obtain ⟨b, hb, h⟩ := h
    exact ⟨b, hb, A, rfl, h⟩
  | stop => trivial
  | call k next ih =>
    obtain ⟨next', hc, h⟩ := h
    exact ⟨next', hc, fun r => ih r (h r)⟩
  | make t next ih =>
    intro r hr
    rw [← add_assoc]
    exact ih r (h r hr)
  | copy r next ih =>
    show next.Implements _ _ c
    rw [← add_assoc]
    exact ih h
  | release r next ih =>
    obtain ⟨A', hA, h⟩ := h
    exact ⟨A' + B, by rw [hA, add_assoc], ih h⟩
  | emit w next ih =>
    obtain ⟨next', hc, h⟩ := h
    exact ⟨next', hc, ih h⟩

/-- The rule of composition: the second part starts with what the first one owns in the end. As for
programs with pre- and postconditions, what holds after the first part is what is assumed before the
second one. -/
theorem Implements.bind {δ : Type} {p : Code κ τ ω α} {c : Calls κ τ ω β}
    {q : α → Code κ τ ω γ} {d : β → Calls κ τ ω δ} {R : γ → Multiset ℕ → δ → Prop}
    (h : p.Implements Q A c) (hq : ∀ a A b, Q a A b → (q a).Implements R A (d b)) :
    (p >>= q).Implements R A (c >>= d) := by
  show (p.bind q).Implements R A (c.bind d)
  induction p generalizing A c with
  | ret a =>
    obtain ⟨b, rfl, h⟩ := h
    exact hq a A b h
  | stop => trivial
  | call k next ih =>
    obtain ⟨next', rfl, h⟩ := h
    exact ⟨fun r => (next' r).bind d, rfl, fun r => ih r (h r)⟩
  | make t next ih => exact fun r hr => ih r (h r hr)
  | copy r next ih => exact ih h
  | release r next ih =>
    obtain ⟨A', hA, h⟩ := h
    exact ⟨A', hA, ih h⟩
  | emit w next ih =>
    obtain ⟨next', rfl, h⟩ := h
    exact ⟨next'.bind d, rfl, ih h⟩

/-- Code that owns nothing in the beginning may run while something is owned. -/
theorem Implements.bind_frame {δ : Type} {p : Code κ τ ω α} {c : Calls κ τ ω β}
    {q : α → Code κ τ ω γ} {d : β → Calls κ τ ω δ} {R : γ → Multiset ℕ → δ → Prop}
    (h : p.Implements Q 0 c) (hq : ∀ a A' b, Q a A' b → (q a).Implements R (A' + A) (d b)) :
    (p >>= q).Implements R A (c >>= d) := by
  have hframe := h.frame A
  rw [zero_add] at hframe
  refine hframe.bind fun a A' b hQ => ?_
  obtain ⟨A'', rfl, hQ⟩ := hQ
  exact hq a A'' b hQ

/-- Renaming the keys that are called does not touch references. -/
theorem Implements.mapKey {p : Code κ τ ω α} {c : Calls κ τ ω β} (h : p.Implements Q A c)
    (g : κ → κ') : (p.mapKey g).Implements Q A (c.mapKey g) := by
  induction p generalizing A c with
  | ret a =>
    obtain ⟨b, rfl, h⟩ := h
    exact ⟨b, rfl, h⟩
  | stop => trivial
  | call k next ih =>
    obtain ⟨next', rfl, h⟩ := h
    exact ⟨fun r => (next' r).mapKey g, rfl, fun r => ih r (h r)⟩
  | make t next ih => exact fun r hr => ih r (h r hr)
  | copy r next ih => exact ih h
  | release r next ih =>
    obtain ⟨A', hA, h⟩ := h
    exact ⟨A', hA, ih h⟩
  | emit w next ih =>
    obtain ⟨next', rfl, h⟩ := h
    exact ⟨next'.mapKey g, rfl, ih h⟩

/-! ### One step of code -/

section Steps

variable {q : Ref τ → Code κ τ ω α} {c : Calls κ τ ω β} {r : Ref τ}

theorem implements_pure {a : α} {b : β} (h : Q a A b) :
    (pure a : Code κ τ ω α).Implements Q A (pure b) := ⟨b, rfl, h⟩

/-- The result of a call belongs to the table, so the caller owns no more than before. -/
theorem implements_ask {k : κ} {d : τ → Calls κ τ ω β}
    (h : ∀ r, (q r).Implements Q A (d r.term)) :
    (ask k >>= q).Implements Q A (Calls.ask k >>= d) := ⟨d, rfl, h⟩

theorem implements_create {t : Except Stop τ}
    (h : ∀ r : Ref τ, t = .ok r.term → (q r).Implements Q ({r.node} + A) c) :
    (create t >>= q).Implements Q A c := h

theorem implements_incref {q : Unit → Code κ τ ω α}
    (h : (q ()).Implements Q ({r.node} + A) c) : (incref r >>= q).Implements Q A c := h

/-- Giving up a reference takes one that is owned. -/
theorem implements_decref {q : Unit → Code κ τ ω α} (hA : A = {r.node} + B)
    (h : (q ()).Implements Q B c) : (decref r >>= q).Implements Q A c := ⟨B, hA, h⟩

/-- Code may go on with the result of a computation that may fail an assertion. -/
theorem implements_lift {x : Except Stop γ} {q : γ → Code κ τ ω α} {d : γ → Calls κ τ ω β}
    (h : ∀ a, x = .ok a → (q a).Implements Q A (d a)) :
    (lift x >>= q).Implements Q A (Calls.lift x >>= d) := by
  cases x with
  | ok a => exact h a rfl
  | error e => trivial

/-- The other side goes on with a result that is known. -/
theorem implements_of_ok {p : Code κ τ ω α} {x : Except Stop γ} {a : γ}
    {d : γ → Calls κ τ ω β} (hx : x = .ok a) (h : p.Implements Q A (d a)) :
    p.Implements Q A (Calls.lift x >>= d) := by
  rw [hx]
  exact h

end Steps

end Code

/-! ## Safety -/

/-- The computation ends with `Q`, or an assertion fails or the fuel is used up. -/
def Safe (x : Except Failure α) (Q : α → Prop) : Prop :=
  match x with
  | .ok a => Q a
  | .error (.stop _) => True
  | .error _ => False

/-- Two computations that are safe one after the other. -/
theorem Safe.bind {x : Except Failure α} {f : α → Except Failure β} {Q : α → Prop}
    {R : β → Prop} (h : Safe x Q) (hf : ∀ a, x = .ok a → Q a → Safe (f a) R) :
    Safe (x >>= f) R := by
  cases x with
  | ok a => exact hf a rfl h
  | error e =>
    cases e with
    | stop e => trivial
    | _ => exact h.elim

/-- The rule of consequence for safe computations. -/
theorem Safe.imp {x : Except Failure α} {Q R : α → Prop} (h : Safe x Q)
    (hQ : ∀ a, Q a → R a) : Safe x R := by
  cases x with
  | ok a => exact hQ a h
  | error e =>
    cases e with
    | stop e => trivial
    | _ => exact h.elim

/-- A safe computation that has ended satisfies its postcondition. -/
theorem Safe.of_ok {x : Except Failure α} {Q : α → Prop} {a : α} (h : Safe x Q)
    (hx : x = .ok a) : Q a := by
  rw [hx] at h
  exact h

/-- A safe computation fails in one of the permitted ways only. -/
theorem Safe.not_error {x : Except Failure α} {Q : α → Prop} {e : Failure} (h : Safe x Q)
    (hx : x = .error e) : ∃ e', e = .stop e' := by
  rw [hx] at h
  cases e with
  | stop e' => exact ⟨e', rfl⟩
  | _ => exact h.elim

/-- Every entry of the table owns one reference, and the others are those of `F`. -/
def Accounts (s : State κ τ ω) (F : Multiset ℕ) : Prop := s.refs = F + s.owned

theorem accounts_init : Accounts (.init : State κ τ ω) 0 := rfl

/-- A reference that is owned is out, and giving it up leaves the other ones. -/
theorem mem_refs {s : State κ τ ω} {A F : Multiset ℕ} {n : ℕ}
    (h : Accounts s ({n} + A + F)) : n ∈ s.refs ∧ s.refs.erase n = A + F + s.owned := by
  unfold Accounts at h
  have hrefs : s.refs = n ::ₘ (A + F + s.owned) := by
    rw [h, ← Multiset.singleton_add]
    abel
  rw [hrefs]
  exact ⟨Multiset.mem_cons_self n _, Multiset.erase_cons_head n _⟩

/-- Giving up one reference to each node of a list that is owned succeeds. -/
theorem releaseAll_eq {F : Multiset ℕ} {rs : List (Ref τ)} {s : State κ τ ω}
    (h : s.refs = (rs.map Ref.node : List ℕ) + F) :
    releaseAll rs s = .ok { s with refs := F } := by
  induction rs generalizing s with
  | nil =>
    have hrefs : s.refs = F := by simpa using h
    rw [releaseAll, ← hrefs]
  | cons r rs ih =>
    have hrefs : s.refs = r.node ::ₘ ((rs.map Ref.node : List ℕ) + F) := by
      rw [h, List.map_cons, ← Multiset.cons_coe, Multiset.cons_add]
    rw [releaseAll, if_pos (by rw [hrefs]; exact Multiset.mem_cons_self _ _)]
    exact ih (by rw [hrefs]; exact Multiset.erase_cons_head _ _)

section Get

variable [DecidableEq κ]

/-- The state without references. -/
def State.erase (s : State κ τ ω) : Memo.State κ τ ω :=
  ⟨fun k => (s.cache.lookup k).map Ref.term, s.out⟩

/-- The first state without references is the first state. -/
theorem erase_init : (.init : State κ τ ω).erase = .init := by
  simp [State.erase, State.init, Memo.State.init]

variable {code : κ → Code κ τ ω (Ref τ)} {body : κ → Calls κ τ ω τ} {keep : κ → Bool}
  {nodes : ℕ → ℕ}

variable (nodes) in
/-- Code that implements a computation does what that does, and keeps the accounts. By induction on
the code. Making a node adds a reference that is owned, giving one up removes one that is owned, and
a call adds the references that the table keeps; so no count falls below what is owned. -/
theorem run_safe {f : κ → State κ τ ω → Except Failure (Ref τ × State κ τ ω)}
    {g : κ → Memo.State κ τ ω → Except Stop (τ × Memo.State κ τ ω)}
    (hf : ∀ k s F, Consistent body s.erase → Accounts s F → Safe (f k s) fun a =>
      g k s.erase = .ok (a.1.term, a.2.erase) ∧ Consistent body a.2.erase ∧ Accounts a.2 F)
    {p : Code κ τ ω α} {c : Calls κ τ ω β} {Q : α → Multiset ℕ → β → Prop}
    {A F : Multiset ℕ} {s : State κ τ ω} (h : p.Implements Q A c)
    (hs : Consistent body s.erase) (hacc : Accounts s (A + F)) :
    Safe (p.run nodes f s) fun a => ∃ A' b, Q a.1 A' b ∧
      c.run g s.erase = .ok (b, a.2.erase) ∧ Consistent body a.2.erase ∧
      Accounts a.2 (A' + F) := by
  induction p generalizing A c s with
  | ret a =>
    obtain ⟨b, rfl, hQ⟩ := h
    exact ⟨A, b, hQ, rfl, hs, hacc⟩
  | stop => trivial
  | call k next ih =>
    obtain ⟨next', rfl, h⟩ := h
    refine (hf k s (A + F) hs hacc).bind fun a _ ⟨hg, ht, hacc'⟩ => ?_
    obtain ⟨r, t⟩ := a
    simp only [Calls.run, hg, ok_bind]
    exact ih r (h r) ht hacc'
  | make t next ih =>
    cases t with
    | error e => trivial
    | ok t =>
      refine ih ⟨nodes s.made, t⟩ (h _ rfl) hs ?_
      show {nodes s.made} + s.refs = _
      rw [show s.refs = A + F + s.owned from hacc, add_assoc, add_assoc, add_assoc]
      rfl
  | copy r next ih =>
    refine ih h hs ?_
    show {r.node} + s.refs = _
    rw [show s.refs = A + F + s.owned from hacc, add_assoc, add_assoc, add_assoc]
    rfl
  | release r next ih =>
    obtain ⟨A', rfl, h⟩ := h
    obtain ⟨hmem, herase⟩ := mem_refs hacc
    unfold Code.run
    rw [if_pos hmem]
    exact ih h hs herase
  | emit w next ih =>
    obtain ⟨next', rfl, h⟩ := h
    exact ih h hs hacc

/-- `k` was not in the table. -/
theorem Accounts.insert {s : State κ τ ω} {F : Multiset ℕ} {k : κ} {r : Ref τ}
    (h : Accounts s ({r.node} + F)) (hk : s.cache.lookup k = none) :
    Accounts { s with cache := s.cache.insert k r } F := by
  have hentries : (s.cache.insert k r).entries = ⟨k, r⟩ :: s.cache.entries :=
    AList.entries_insert_of_notMem (AList.lookup_eq_none.mp hk)
  show s.refs = F + _
  rw [show s.refs = {r.node} + F + s.owned from h, State.owned, State.owned, hentries,
    List.map_cons, ← Multiset.cons_coe, ← Multiset.singleton_add]
  abel

/-- Putting a node into the table puts its term there. -/
theorem erase_insert (s : State κ τ ω) (k : κ) (r : Ref τ) :
    State.erase { s with cache := s.cache.insert k r } =
      { s.erase with cache := Function.update s.erase.cache k (some r.term) } := by
  unfold State.erase
  congr 1
  funext j
  by_cases hj : j = k
  · subst hj
    rw [AList.lookup_insert, Function.update_self]
    rfl
  · rw [AList.lookup_insert_ne hj, Function.update_of_ne hj]

/-- The function with references does what the function without does, and every entry
that it puts into the table owns one reference. -/
theorem get_safe (hcode : ∀ k, (code k).Implements
      (fun r A t => r.term = t ∧ A = if keep k then {r.node} else 0) 0 (body k))
    (n : ℕ) (k : κ) (s : State κ τ ω) (F : Multiset ℕ) (hs : Consistent body s.erase)
    (hacc : Accounts s F) :
    Safe (get code keep nodes n k s) fun a =>
      Memo.get body keep n k s.erase = .ok (a.1.term, a.2.erase) ∧
      Consistent body a.2.erase ∧ Accounts a.2 F := by
  induction n generalizing k s F with
  | zero => trivial
  | succ n ih =>
    unfold get
    cases hlookup : s.cache.lookup k with
    | some r =>
      refine ⟨?_, hs, hacc⟩
      simp [Memo.get, State.erase, hlookup]
    | none =>
      have hnone : s.erase.cache k = none := by simp [State.erase, hlookup]
      have hrun := run_safe nodes (f := get code keep nodes n)
        (g := Memo.get body keep n) ih (hcode k) hs (F := F) (by rwa [zero_add])
      refine hrun.bind fun a _ h => ?_
      obtain ⟨r, t⟩ := a
      obtain ⟨A', b, ⟨rfl, rfl⟩, hbody, ht, hacc'⟩ := h
      have hget : Memo.get body keep (n + 1) k s.erase = .ok (r.term,
          if keep k then { t.erase with cache := Function.update t.erase.cache k (some r.term) }
          else t.erase) := by
        unfold Memo.get
        rw [hnone]
        simp only [hbody, ok_bind]
        rfl
      have hfresh := run_fresh hs hnone hbody
      cases hkeep : keep k with
      | true =>
        rw [hkeep] at hget hacc'
        have herase := erase_insert t k r
        refine ⟨?_, ?_, hacc'.insert (by simpa [State.erase] using hfresh)⟩
        · rw [hget]
          simp [herase]
        · have hcons := (get_sound hs hget).2
          simpa [herase] using hcons
      | false =>
        rw [hkeep] at hget hacc'
        exact ⟨hget, ht, by simpa using hacc'⟩

end Get

end Kint.RefCount
