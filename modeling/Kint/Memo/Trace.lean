import Kint.Memo

/-!
# What a table was made from

A call of a memoised function runs the bodies of the keys that it needs and that are not in the
table yet, each of them once.  So after a call, from any table that earlier calls have left, the
table has the keys that it had and those that the call needs, and the outputs are those of the
bodies of the keys in the table (`Traced.get`).  All results are kept here.

## Main definitions

* `Calls.Emits body w`: a run of the body emits `w` itself, not in a call that it makes.
* `Needs body k j`: the result of `k` is computed from that of `j`, directly or through other
  keys; `k` needs itself.
* `Traced body s`: the keys in the table of `s` are closed under what they need, and the outputs
  of `s` are the ones that their bodies emit.
* `Extends body K out s s'`: from `s` to `s'`, the keys in `K` were added to the table, and the
  outputs in `out` were made.

## Why a table loses nothing

An output is made when the body of a key runs, which is when the key is stored.  If the key is
found in the table later, its body does not run again; but then the output was made before, and
by the invariant it is still there.  So to know which outputs a run of the program has made it
is enough to know which keys were needed, in whichever order they were asked for.
-/

namespace Kint.Memo

open Iteration

variable {κ ρ ω α β : Type} {body : κ → Calls κ ρ ω ρ}

namespace Calls

/-- The computation calls `k'`, with calls answered by the function. -/
def Makes (body : κ → Calls κ ρ ω ρ) : Calls κ ρ ω α → κ → Prop
  | ret _, _ => False
  | stop, _ => False
  | call k next, k' => k' = k ∨ ∃ r, Value body k r ∧ (next r).Makes body k'
  | emit _ next, k' => next.Makes body k'

/-- The computation emits `w`, with calls answered by the function. -/
def Emits (body : κ → Calls κ ρ ω ρ) : Calls κ ρ ω α → ω → Prop
  | ret _, _ => False
  | stop, _ => False
  | call k next, w => ∃ r, Value body k r ∧ (next r).Emits body w
  | emit w' next, w => w = w' ∨ next.Emits body w

section Rules

variable {k : κ} {w : ω} {p : Calls κ ρ ω α} {q : α → Calls κ ρ ω β}

@[simp] theorem emits_ret {a : α} : ¬ (ret a : Calls κ ρ ω α).Emits body w := id

@[simp] theorem emits_pure {a : α} : ¬ (pure a : Calls κ ρ ω α).Emits body w := id

@[simp] theorem emits_stop : ¬ (stop : Calls κ ρ ω α).Emits body w := id

@[simp] theorem emits_ask : ¬ (ask k : Calls κ ρ ω ρ).Emits body w := fun ⟨_, _, h⟩ => h

@[simp] theorem emits_lift {x : Except Stop α} : ¬ (lift x : Calls κ ρ ω α).Emits body w := by
  cases x <;> exact id

@[simp] theorem emits_output {w' : ω} :
    (output w' : Calls κ ρ ω Unit).Emits body w ↔ w = w' :=
  or_iff_left id

/-- A composition emits what its first part emits, and what the second part emits at the value that
the first part yields. -/
theorem emits_bind : (p >>= q).Emits body w ↔
    p.Emits body w ∨ ∃ a, Yields body p a ∧ (q a).Emits body w := by
  show (p.bind q).Emits body w ↔ _
  induction p with
  | ret a => simp [bind]
  | stop => simp [bind]
  | call k next ih =>
    constructor
    · rintro ⟨r, hr, h⟩
      rcases (ih r).mp h with h | ⟨a, ⟨n, hn⟩, h⟩
      · exact .inl ⟨r, hr, h⟩
      · obtain ⟨m, hm⟩ := hr
        refine .inr ⟨a, ⟨max n m, bind_eq_ok.mpr ⟨r, solve_mono (le_max_right n m) hm, ?_⟩⟩, h⟩
        exact eval_mono (fun k r => solve_mono (le_max_left n m)) hn
    · rintro (⟨r, hr, h⟩ | ⟨a, ⟨n, hn⟩, h⟩)
      · exact ⟨r, hr, (ih r).mpr (.inl h)⟩
      · obtain ⟨r, hr, hn⟩ := bind_eq_ok.mp hn
        exact ⟨r, ⟨n, hr⟩, (ih r).mpr (.inr ⟨a, ⟨n, hn⟩, h⟩)⟩
  | emit w' next ih =>
    refine (or_congr_right ih).trans ?_
    rw [← or_assoc]
    rfl

/-- A computation emits only what it ensures of its outputs. -/
theorem Ensures.emits {A : κ → ρ → Prop} {W : ω → Prop} {Q : α → Prop}
    (hA : ∀ k r, Value body k r → A k r) (hp : p.Ensures A W Q) (h : p.Emits body w) :
    W w := by
  induction p with
  | ret a => exact h.elim
  | stop => exact h.elim
  | call k next ih =>
    obtain ⟨r, hr, h⟩ := h
    exact ih r (hp r (hA k r hr)) h
  | emit w' next ih =>
    rcases h with rfl | h
    · exact hp.1
    · exact ih hp.2 h

end Rules

end Calls

/-- The key `k` is `j`, or its body calls, directly or not, `j`. -/
def Needs (body : κ → Calls κ ρ ω ρ) : κ → κ → Prop :=
  Relation.ReflTransGen fun k j => (body k).Makes body j

/-- The table has what its keys need. -/
def Closed (body : κ → Calls κ ρ ω ρ) (s : State κ ρ ω) : Prop :=
  ∀ k j, s.cache k ≠ none → Needs body k j → s.cache j ≠ none

/-- A table that is made of whole calls: it has what its keys need, and the outputs are
those of the bodies of its keys. -/
structure Traced (body : κ → Calls κ ρ ω ρ) (s : State κ ρ ω) : Prop where
  consistent : Consistent body s
  closed : Closed body s
  out : ∀ w, w ∈ s.out ↔ ∃ k, s.cache k ≠ none ∧ (body k).Emits body w

theorem traced_init : Traced body .init where
  consistent := consistent_init
  closed _ _ h := absurd rfl h
  out w := ⟨fun h => (by cases h), fun ⟨_, h, _⟩ => absurd rfl h⟩

/-- From `s` to `s'`, the keys `K` got into the table, and `out` was emitted next to what
the bodies of the new keys emit. -/
structure Extends (body : κ → Calls κ ρ ω ρ) (K : κ → Prop) (out : ω → Prop)
    (s s' : State κ ρ ω) : Prop where
  cache : ∀ j, s'.cache j ≠ none ↔ s.cache j ≠ none ∨ K j
  out : ∀ w, w ∈ s'.out ↔ w ∈ s.out ∨ out w ∨
    ∃ j, s.cache j = none ∧ s'.cache j ≠ none ∧ (body j).Emits body w

/-- A call that finds its key in the table adds nothing. -/
theorem Extends.refl (s : State κ ρ ω) :
    Extends body (fun _ => False) (fun _ => False) s s where
  cache j := (or_iff_left id).symm
  out w := by
    refine ⟨.inl, ?_⟩
    rintro (h | h | ⟨j, hnone, hsome, -⟩)
    · exact h
    · exact h.elim
    · exact absurd hnone hsome

theorem Extends.trans {K K' : κ → Prop} {out out' : ω → Prop} {s t s' : State κ ρ ω}
    (h : Extends body K out s t) (h' : Extends body K' out' t s') :
    Extends body (fun j => K j ∨ K' j) (fun w => out w ∨ out' w) s s' where
  cache j := by rw [h'.cache, h.cache, or_assoc]
  out w := by
    rw [h'.out, h.out]
    constructor
    · rintro ((hw | hw | ⟨j, hnone, hsome, hw⟩) | hw | ⟨j, hnone, hsome, hw⟩)
      · exact .inl hw
      · exact .inr (.inl (.inl hw))
      · exact .inr (.inr ⟨j, hnone, (h'.cache j).mpr (.inl hsome), hw⟩)
      · exact .inr (.inl (.inr hw))
      · refine .inr (.inr ⟨j, ?_, hsome, hw⟩)
        by_contra hs
        exact (h.cache j).mpr (.inl hs) hnone
    · rintro (hw | (hw | hw) | ⟨j, hnone, hsome, hw⟩)
      · exact .inl (.inl hw)
      · exact .inl (.inr (.inl hw))
      · exact .inr (.inl hw)
      · by_cases ht : t.cache j = none
        · exact .inr (.inr ⟨j, ht, hsome, hw⟩)
        · exact .inl (.inr (.inr ⟨j, hnone, ht, hw⟩))

/-- The sets of added keys and outputs count up to equivalence. -/
theorem Extends.congr {K K' : κ → Prop} {out out' : ω → Prop} {s s' : State κ ρ ω}
    (h : Extends body K out s s') (hK : ∀ j, K j ↔ K' j) (hout : ∀ w, out w ↔ out' w) :
    Extends body K' out' s s' where
  cache j := by rw [h.cache, hK]
  out w := by rw [h.out, hout]

/-- What is needed by a table that was closed and by new keys with all they need is
there. -/
theorem Extends.closed {k : κ} {out : ω → Prop} {s s' : State κ ρ ω}
    (h : Extends body (Needs body k) out s s') (hs : Closed body s) : Closed body s' := by
  intro i j hi hj
  rw [h.cache]
  rcases (h.cache i).mp hi with hi | hi
  · exact .inl (hs i j hi hj)
  · exact .inr (hi.trans hj)

/-- What a body does to the table, given what calls do. By induction on the body. The table grows by
the calls, each of which has been described by the hypothesis, and the outputs of the body itself
come in between. -/
theorem Calls.run_extends {f : κ → State κ ρ ω → Except Stop (ρ × State κ ρ ω)}
    (hf : ∀ k s r s', Consistent body s → Closed body s → f k s = .ok (r, s') →
      (Value body k r ∧ Consistent body s') ∧
        Extends body (Needs body k) (fun _ => False) s s')
    {p : Calls κ ρ ω α} {s s' : State κ ρ ω} {a : α} (hs : Consistent body s)
    (hclosed : Closed body s) (h : p.run f s = .ok (a, s')) :
    Extends body (fun j => ∃ k, p.Makes body k ∧ Needs body k j) (p.Emits body) s s' := by
  induction p generalizing s with
  | ret b =>
    obtain ⟨-, rfl⟩ := Prod.mk.inj (Except.ok.inj h)
    exact (Extends.refl s).congr (fun j => ⟨False.elim, fun ⟨_, h, _⟩ => h⟩) fun _ => Iff.rfl
  | stop => cases h
  | call k next ih =>
    obtain ⟨⟨r, t⟩, hr, h⟩ := bind_eq_ok.mp h
    obtain ⟨⟨hvalue, ht⟩, hext⟩ := hf k s r t hs hclosed hr
    refine (hext.trans (ih r ht (hext.closed hclosed) h)).congr (fun j => ?_) fun w => ?_
    · constructor
      · rintro (hj | ⟨k', hk', hj⟩)
        · exact ⟨k, .inl rfl, hj⟩
        · exact ⟨k', .inr ⟨r, hvalue, hk'⟩, hj⟩
      · rintro ⟨k', rfl | ⟨r', hr', hk'⟩, hj⟩
        · exact .inl hj
        · obtain rfl := hvalue.unique hr'
          exact .inr ⟨k', hk', hj⟩
    · constructor
      · rintro (hw | hw)
        · exact hw.elim
        · exact ⟨r, hvalue, hw⟩
      · rintro ⟨r', hr', hw⟩
        obtain rfl := hvalue.unique hr'
        exact .inr hw
  | emit w next ih =>
    have hnext := ih (s := { s with out := s.out ++ [w] }) hs hclosed h
    refine ⟨hnext.cache, fun w' => ?_⟩
    rw [hnext.out, List.mem_append, List.mem_singleton, or_assoc]
    exact or_congr_right or_assoc.symm

section Get

variable [DecidableEq κ] {keep : κ → Bool}

/-- What a call does to the table. By induction on the fuel. A key that is in the table adds
nothing; another one is computed by its body, whose outputs are made exactly once, since the key is
in the table from then on. -/
theorem get_extends (hkeep : ∀ k, keep k = true) {n : ℕ} {k : κ} {s s' : State κ ρ ω} {r : ρ}
    (hs : Consistent body s) (hclosed : Closed body s) (h : get body keep n k s = .ok (r, s')) :
    Extends body (Needs body k) (fun _ => False) s s' := by
  induction n generalizing k s r s' with
  | zero => cases h
  | succ n ih =>
    unfold get at h
    split at h
    · rename_i r' hcache
      obtain ⟨rfl, rfl⟩ := Prod.mk.inj (Except.ok.inj h)
      have hsome : s.cache k ≠ none := by simp [hcache]
      refine ⟨fun j => (or_iff_left_of_imp fun hj => hclosed k j hsome hj).symm, ?_⟩
      have hrefl : Extends body (fun _ => False) (fun _ => False) s s := .refl s
      exact hrefl.out
    · rename_i hcache
      obtain ⟨⟨r', t⟩, hrun, h⟩ := bind_eq_ok.mp h
      obtain ⟨-, rfl⟩ := Prod.mk.inj (Except.ok.inj h)
      have hext := Calls.run_extends (fun k s r s' hs hclosed h =>
        ⟨get_sound hs h, ih hs hclosed h⟩) hs hclosed hrun
      rw [if_pos (hkeep k)]
      have hstore : ∀ j, Function.update t.cache k (some r') j ≠ none ↔
          t.cache j ≠ none ∨ j = k := by
        intro j
        by_cases hj : j = k
        · simp [hj]
        · simp [hj]
      refine ⟨fun j => ?_, fun w => ?_⟩
      · show Function.update t.cache k (some r') j ≠ none ↔ _
        rw [hstore, hext.cache, or_assoc]
        refine or_congr_right ?_
        constructor
        · rintro (⟨k', hk', hj⟩ | rfl)
          · exact .head hk' hj
          · exact .refl
        · intro hj
          rcases Relation.ReflTransGen.cases_head hj with rfl | ⟨k', hk', hj⟩
          · exact .inr rfl
          · exact .inl ⟨k', hk', hj⟩
      · show w ∈ t.out ↔ _ ∨ _ ∨ ∃ j, _ ∧ Function.update t.cache k (some r') j ≠ none ∧ _
        simp only [hstore]
        rw [hext.out]
        refine or_congr_right ?_
        constructor
        · rintro (hw | ⟨j, hnone, hsome, hw⟩)
          · exact .inr ⟨k, hcache, .inr rfl, hw⟩
          · exact .inr ⟨j, hnone, .inl hsome, hw⟩
        · rintro (hw | ⟨j, hnone, hsome | rfl, hw⟩)
          · exact hw.elim
          · exact .inr ⟨j, hnone, hsome, hw⟩
          · exact .inl hw

/-- A call leaves a table with the keys that were there and those that it needs, and with
the outputs of their bodies. -/
theorem Traced.get (hkeep : ∀ k, keep k = true) {n : ℕ} {k : κ} {s s' : State κ ρ ω} {r : ρ}
    (hs : Traced body s) (h : get body keep n k s = .ok (r, s')) :
    Traced body s' ∧ ∀ j, s'.cache j ≠ none ↔ s.cache j ≠ none ∨ Needs body k j := by
  have hext := get_extends hkeep hs.consistent hs.closed h
  refine ⟨⟨(get_sound hs.consistent h).2, hext.closed hs.closed, fun w => ?_⟩, hext.cache⟩
  rw [hext.out, hs.out]
  constructor
  · rintro (⟨j, hj, hw⟩ | hw | ⟨j, -, hj, hw⟩)
    · exact ⟨j, (hext.cache j).mpr (.inl hj), hw⟩
    · exact hw.elim
    · exact ⟨j, hj, hw⟩
  · rintro ⟨j, hj, hw⟩
    by_cases hold : s.cache j = none
    · exact .inr (.inr ⟨j, hold, hj, hw⟩)
    · exact .inl ⟨j, hold, hw⟩

end Get

/-! ## Failing assertions -/

/-- A computation that has a result does not fail an assertion when it runs, if calls
that have results do not. -/
theorem Calls.run_ne_fatal {f : κ → State κ ρ ω → Except Stop (ρ × State κ ρ ω)}
    (hf : ∀ k s r s', Consistent body s → f k s = .ok (r, s') →
      Value body k r ∧ Consistent body s')
    (hfatal : ∀ k s r, Consistent body s → Value body k r → f k s ≠ .error .fatal)
    {p : Calls κ ρ ω α} {s : State κ ρ ω} {a : α} (hs : Consistent body s)
    (h : Yields body p a) : p.run f s ≠ .error .fatal := by
  induction p generalizing s with
  | ret b => exact fun h => (by cases h)
  | stop => exact absurd h not_yields_stop
  | call k next ih =>
    obtain ⟨n, hn⟩ := h
    obtain ⟨r, hr, hnext⟩ := bind_eq_ok.mp hn
    intro hrun
    cases hcall : f k s with
    | error e =>
      rw [run, hcall] at hrun
      exact hfatal k s r hs ⟨n, hr⟩ (hcall.trans (congrArg _ (Except.error.inj hrun)))
    | ok rt =>
      obtain ⟨r', t⟩ := rt
      obtain ⟨hvalue, ht⟩ := hf k s r' t hs hcall
      obtain rfl := hvalue.unique ⟨n, hr⟩
      rw [run, hcall] at hrun
      exact ih r' ht ⟨n, hnext⟩ hrun
  | emit w next ih => exact ih (s := { s with out := s.out ++ [w] }) hs h

/-- A key that has a result may need more fuel, but no assertion fails. -/
theorem get_ne_fatal [DecidableEq κ] {keep : κ → Bool} {n : ℕ} {k : κ} {s : State κ ρ ω}
    {r : ρ} (hs : Consistent body s) (h : Value body k r) :
    get body keep n k s ≠ .error .fatal := by
  induction n generalizing k s r with
  | zero => exact fun h => (by cases h)
  | succ n ih =>
    unfold get
    split
    · exact fun h => (by cases h)
    · have hrun := Calls.run_ne_fatal (fun k s r s' => get_sound)
        (fun k s r hs hk => ih hs hk) hs (Calls.value_iff_yields.mp h)
      intro hfatal
      cases hbody : (body k).run (get body keep n) s with
      | error e =>
        rw [hbody] at hfatal
        exact hrun (hbody.trans (congrArg _ (Except.error.inj hfatal)))
      | ok rt =>
        rw [hbody] at hfatal
        cases hfatal

end Kint.Memo
