import Kint.Iteration
import Mathlib.Data.List.Perm.Basic
import Mathlib.Data.Set.Disjoint

/-!
# Passes that may change places

Two runs are compared through a relation between their states.  `Matches R f g` says that `f`
and `g`, run from related states, both fail, or both succeed with the same reported bit and
related states; it goes through the loops of `Kint.Iteration`.

A pass has a footprint on a state that is seen as a map from keys: the keys that its behaviour
depends on, and among them the keys that it may write.  Passes whose footprints are apart may
run in either order, and a loop over a list of passes may run them in every order that keeps
dependent ones in their places (`forEach_perm`).

## Main definitions

* `Alike R x y`: two outcomes are alike.  Which assertion fails is not compared, because passes
  that change places may fail different ones.
* `Footprint view reads writes f`: on states that agree at the keys in `reads`, `f` does the
  same at the keys in `writes`, and leaves all other keys alone.
* `SameView view s s'`: the states agree at all keys; what a view does not show is free.

## Main results

* `Footprint.seq_comm`: two passes commute if neither writes what the other reads or writes.
* `forEach_perm`: from that, by induction on the list, a loop may run its passes in any order in
  which those that are not known to commute stay in place.
-/

namespace Kint.Iteration

universe u v w

variable {σ : Type u} {τ : Type v} {ι : Type w}

/-- Two runs end alike: both with an error, or both with the same bit and with
related states. -/
def Alike (R : σ → σ → Prop) : Except Stop (Report σ τ) → Except Stop (Report σ τ) → Prop
  | .ok r, .ok r' => r.changed = r'.changed ∧ R r.state r'.state
  | .error _, .error _ => True
  | _, _ => False

/-- From related states, `f` and `g` end alike. -/
def Matches (R : σ → σ → Prop) (f g : Pass σ τ) : Prop :=
  ∀ s s', R s s' → Alike R (f s) (g s')

section Alike

variable {R : σ → σ → Prop} {x y z : Except Stop (Report σ τ)}

/-- An outcome that is like a success is a success with the same bit and a related state. -/
theorem Alike.of_ok {r : Report σ τ} (h : Alike R (.ok r) y) :
    ∃ r', y = .ok r' ∧ r.changed = r'.changed ∧ R r.state r'.state := by
  cases y with
  | error e => exact h.elim
  | ok r' => exact ⟨r', rfl, h⟩

/-- An outcome that is like a failure is a failure. -/
theorem Alike.of_error {e : Stop} (h : Alike R (.error e) y) : ∃ e', y = .error e' := by
  cases y with
  | error e' => exact ⟨e', rfl⟩
  | ok r' => exact h.elim

/-- Being alike is transitive if the relation of the states is. -/
theorem Alike.trans (hR : ∀ {s t u}, R s t → R t u → R s u) (h : Alike R x y)
    (h' : Alike R y z) : Alike R x z := by
  cases x with
  | error e =>
    obtain ⟨e', rfl⟩ := h.of_error
    obtain ⟨e'', rfl⟩ := h'.of_error
    trivial
  | ok r =>
    obtain ⟨r', rfl, hc, hr⟩ := h.of_ok
    obtain ⟨r'', rfl, hc', hr'⟩ := h'.of_ok
    exact ⟨hc.trans hc', hR hr hr'⟩

end Alike

namespace Matches

variable {R : σ → σ → Prop} {f g h f' g' : Pass σ τ}

theorem idle : Matches R (fun s => .ok (.idle s) : Pass σ τ) fun s => .ok (.idle s) :=
  fun _ _ hs => ⟨rfl, hs⟩

theorem seq (hf : Matches R f f') (hg : Matches R g g') : Matches R (f.seq g) (f'.seq g') := by
  intro s s' hs
  have hfs := hf s s' hs
  cases ha : f s with
  | error e =>
    rw [ha] at hfs
    obtain ⟨e', ha'⟩ := hfs.of_error
    simp [Pass.seq, ha, ha', Alike]
  | ok a =>
    rw [ha] at hfs
    obtain ⟨a', ha', hc, hr⟩ := hfs.of_ok
    have hgs := hg a.state a'.state hr
    cases hb : g a.state with
    | error e =>
      rw [hb] at hgs
      obtain ⟨e', hb'⟩ := hgs.of_error
      simp [Pass.seq, ha, ha', hb, hb', Alike]
    | ok b =>
      rw [hb] at hgs
      obtain ⟨b', hb', hc', hr'⟩ := hgs.of_ok
      simpa [Pass.seq, ha, ha', hb, hb', Alike, hc, hc'] using hr'

/-- Loops over a list match if their bodies do, for the elements of the list. -/
theorem forEach {f g : ι → Pass σ τ} :
    ∀ {xs : List ι}, (∀ x ∈ xs, Matches R (f x) (g x)) →
      Matches R (forEach f xs) (forEach g xs) := by
  intro xs
  induction xs with
  | nil => exact fun _ => idle
  | cons x xs ih =>
    intro hf
    exact (hf x List.mem_cons_self).seq (ih fun y hy => hf y (List.mem_cons_of_mem _ hy))

/-- The loops match if their bodies do: they make the same number of iterations, since the bits are
the same. -/
theorem whileChanged {f g : ℕ → Pass σ τ} (hf : ∀ itr, Matches R (f itr) (g itr)) (fuel : ℕ) :
    ∀ itr, Matches R (whileChanged f fuel itr) (whileChanged g fuel itr) := by
  induction fuel with
  | zero => exact fun _ _ _ _ => trivial
  | succ fuel ih =>
    intro itr s s' hs
    have hfs := hf itr s s' hs
    cases ha : f itr s with
    | error e =>
      rw [ha] at hfs
      obtain ⟨e', ha'⟩ := hfs.of_error
      simp [Iteration.whileChanged, ha, ha', Alike]
    | ok a =>
      rw [ha] at hfs
      obtain ⟨a', ha', hc, hr⟩ := hfs.of_ok
      have hrest := ih (itr + 1) a.state a'.state hr
      cases hchanged : a.changed with
      | false =>
        have hchanged' : a'.changed = false := hc ▸ hchanged
        simpa [Iteration.whileChanged, ha, ha', hchanged, hchanged', Alike] using hr
      | true =>
        have hchanged' : a'.changed = true := hc ▸ hchanged
        cases hb : Iteration.whileChanged f fuel (itr + 1) a.state with
        | error e =>
          rw [hb] at hrest
          obtain ⟨e', hb'⟩ := hrest.of_error
          simp [Iteration.whileChanged, ha, ha', hchanged, hchanged', hb, hb', Alike]
        | ok b =>
          rw [hb] at hrest
          obtain ⟨b', hb', -, hr'⟩ := hrest.of_ok
          simpa [Iteration.whileChanged, ha, ha', hchanged, hchanged', hb, hb', Alike] using hr'

/-- Matching is transitive over a reflexive and transitive relation of the states. -/
theorem trans (hrefl : ∀ s, R s s) (hR : ∀ {s t u}, R s t → R t u → R s u)
    (hfg : Matches R f g) (hgh : Matches R g h) : Matches R f h :=
  fun s s' hs => (hfg s s (hrefl s)).trans hR (hgh s s' hs)

end Matches

/-! ## Footprints -/

section Footprint

variable {κ : Type*} {α : Type*} {view : σ → κ → α} {A B V W : Set κ} {f g : Pass σ τ}

/-- Two states agree on the keys in `A`. -/
def AgreeOn (view : σ → κ → α) (A : Set κ) (s s' : σ) : Prop := ∀ k ∈ A, view s k = view s' k

/-- The behaviour of `f` depends on the keys in `A` only, and `f` writes keys in
`W` only. -/
structure Footprint (view : σ → κ → α) (A W : Set κ) (f : Pass σ τ) : Prop where
  subset : W ⊆ A
  agree : Matches (AgreeOn view A) f f
  frame : ∀ s r, f s = .ok r → ∀ k ∉ W, view r.state k = view s k

/-- The states hold the same map. -/
def SameView (view : σ → κ → α) (s s' : σ) : Prop := view s = view s'

/-- From states with the same map, a pass with a footprint ends in such states. -/
theorem Footprint.matches_self (hf : Footprint view A W f) : Matches (SameView view) f f := by
  intro s s' hs
  have hagree := hf.agree s s' fun k _ => congrFun hs k
  cases ha : f s with
  | error e =>
    rw [ha] at hagree
    obtain ⟨e', ha'⟩ := hagree.of_error
    rw [ha']
    trivial
  | ok a =>
    rw [ha] at hagree
    obtain ⟨a', ha', hc, hr⟩ := hagree.of_ok
    rw [ha']
    refine ⟨hc, funext fun k => ?_⟩
    by_cases hk : k ∈ W
    · exact hr k (hf.subset hk)
    · rw [hf.frame s a ha k hk, hf.frame s' a' ha' k hk]
      exact congrFun hs k

/-- Passes with footprints apart may run in either order. Each of them reads nothing that the other
one writes, so each does after the other what it would have done before it; and what both leave as
it is, is as it was. -/
theorem Footprint.seq_comm (hf : Footprint view A W f) (hg : Footprint view B V g)
    (hWB : Disjoint W B) (hVA : Disjoint V A) :
    Matches (SameView view) (f.seq g) (g.seq f) := by
  intro s s' hs
  -- what one pass reads, the other leaves as it was
  have hfar : ∀ b, g s' = .ok b → AgreeOn view A s b.state := fun b hb k hk =>
    (congrFun hs k).trans (hg.frame s' b hb k (Set.disjoint_right.mp hVA hk)).symm
  have hnear : ∀ a, f s = .ok a → AgreeOn view B a.state s' := fun a ha k hk =>
    (hf.frame s a ha k (Set.disjoint_right.mp hWB hk)).trans (congrFun hs k)
  cases ha : f s with
  | error e =>
    cases hb : g s' with
    | error e' => simp [Pass.seq, ha, hb, Alike]
    | ok b =>
      have hagree := hf.agree s b.state (hfar b hb)
      rw [ha] at hagree
      obtain ⟨e', ha'⟩ := hagree.of_error
      simp [Pass.seq, ha, hb, ha', Alike]
  | ok a =>
    have hagree := hg.agree a.state s' (hnear a ha)
    cases hb : g a.state with
    | error e =>
      rw [hb] at hagree
      obtain ⟨e', hb'⟩ := hagree.of_error
      simp [Pass.seq, ha, hb, hb', Alike]
    | ok b =>
      rw [hb] at hagree
      obtain ⟨b', hb', hc, hr⟩ := hagree.of_ok
      have hagree' := hf.agree s b'.state (hfar b' hb')
      rw [ha] at hagree'
      obtain ⟨a', ha', hc', hr'⟩ := hagree'.of_ok
      have hview : view b.state = view a'.state := by
        funext k
        by_cases hW : k ∈ W
        · have hV : k ∉ V := fun hV => Set.disjoint_left.mp hWB hW (hg.subset hV)
          rw [hg.frame a.state b hb k hV]
          exact hr' k (hf.subset hW)
        · rw [hf.frame b'.state a' ha' k hW]
          by_cases hV : k ∈ V
          · exact hr k (hg.subset hV)
          · rw [hg.frame a.state b hb k hV, hf.frame s a ha k hW, hg.frame s' b' hb' k hV]
            exact congrFun hs k
      simpa [Pass.seq, ha, hb, ha', hb', Alike, SameView, hc, hc', Bool.or_comm] using hview

end Footprint

/-! ## Loops in another order -/

/-- Composition is associative, as the reports are put together in the same order. -/
theorem Pass.seq_assoc (f g h : Pass σ τ) : (f.seq g).seq h = f.seq (g.seq h) := by
  funext s
  cases ha : f s with
  | error e => simp [Pass.seq, ha]
  | ok a =>
    cases hb : g a.state with
    | error e => simp [Pass.seq, ha, hb]
    | ok b =>
      cases hc : h b.state with
      | error e => simp [Pass.seq, ha, hb, hc]
      | ok c => simp [Pass.seq, ha, hb, hc, Report.andThen, Bool.or_assoc]

section Order

variable {R : σ → σ → Prop} {f : ι → Pass σ τ}

/-- An element may run after those that it may change places with. -/
theorem forEach_middle (hrefl : ∀ s, R s s) (hR : ∀ {s t u}, R s t → R t u → R s u) {x : ι}
    (hself : ∀ y, Matches R (f y) (f y)) {ys : List ι} :
    ∀ {xs : List ι}, (∀ y ∈ xs, Matches R ((f x).seq (f y)) ((f y).seq (f x))) →
      Matches R (forEach f (x :: (xs ++ ys))) (forEach f (xs ++ x :: ys)) := by
  intro xs
  induction xs with
  | nil => exact fun _ => Matches.forEach fun y _ => hself y
  | cons y xs ih =>
    intro hcomm
    have hswap : Matches R (((f x).seq (f y)).seq (forEach f (xs ++ ys)))
        (((f y).seq (f x)).seq (forEach f (xs ++ ys))) :=
      (hcomm y List.mem_cons_self).seq (Matches.forEach fun z _ => hself z)
    rw [Pass.seq_assoc, Pass.seq_assoc] at hswap
    have hmove : Matches R ((f y).seq (forEach f (x :: (xs ++ ys))))
        ((f y).seq (forEach f (xs ++ x :: ys))) :=
      (hself y).seq (ih fun z hz => hcomm z (List.mem_cons_of_mem _ hz))
    exact hswap.trans hrefl hR hmove

/-- In a list without duplicates, two elements occur in one order only. -/
theorem not_sublist_swap {l : List ι} (hl : l.Nodup) {x y : ι} (h : [x, y].Sublist l) :
    ¬ [y, x].Sublist l := by
  induction l with
  | nil => cases h
  | cons z l ih =>
    obtain ⟨hz, hl⟩ := List.nodup_cons.mp hl
    intro h'
    cases h with
    | cons _ h =>
      cases h' with
      | cons _ h' => exact ih hl h h'
      | cons_cons _ h' => exact hz (h.subset (List.mem_cons_of_mem _ List.mem_cons_self))
    | cons_cons _ h =>
      cases h' with
      | cons _ h' => exact hz (h'.subset (List.mem_cons_of_mem _ List.mem_cons_self))
      | cons_cons _ h' => exact hz (h.subset List.mem_cons_self)

/-- A loop over a list may run its elements in every order that keeps dependent
elements in theirs. -/
theorem forEach_perm (hrefl : ∀ s, R s s) (hR : ∀ {s t u}, R s t → R t u → R s u)
    {D : ι → ι → Prop} (hself : ∀ x, Matches R (f x) (f x))
    (hcomm : ∀ x y, ¬ D x y → Matches R ((f x).seq (f y)) ((f y).seq (f x))) :
    ∀ {l l' : List ι}, l.Nodup → l.Perm l' →
      (∀ x y, D x y → [x, y].Sublist l → [x, y].Sublist l') →
      Matches R (forEach f l) (forEach f l') := by
  classical
  intro l
  induction l with
  | nil =>
    intro l' _ hperm _
    rw [← hperm.nil_eq]
    exact Matches.idle
  | cons x l ih =>
    intro l' hl hperm horder
    obtain ⟨hx, hl⟩ := List.nodup_cons.mp hl
    have hl' : l'.Nodup := hperm.nodup_iff.mp (List.nodup_cons.mpr ⟨hx, hl⟩)
    obtain ⟨l₁, l₂, rfl⟩ := List.append_of_mem (hperm.subset List.mem_cons_self)
    have hrest : l.Perm (l₁ ++ l₂) := (hperm.trans List.perm_middle).cons_inv
    have hx₁ : x ∉ l₁ := fun h => hx (hrest.mem_iff.mpr (List.mem_append_left _ h))
    -- what stands before `x` now does not depend on it
    have hbefore : ∀ y ∈ l₁, ¬ D x y := by
      intro y hy hxy
      have hmem : y ∈ l := hrest.mem_iff.mpr (List.mem_append_left _ hy)
      have hnow := horder x y hxy ((List.singleton_sublist.mpr hmem).cons_cons x)
      refine not_sublist_swap hl' hnow ?_
      exact (List.singleton_sublist.mpr hy).append
        (List.singleton_sublist.mpr (List.mem_cons_self (a := x) (l := l₂)))
    have hmiddle : Matches R (forEach f (x :: (l₁ ++ l₂))) (forEach f (l₁ ++ x :: l₂)) :=
      forEach_middle hrefl hR hself fun y hy => hcomm x y (hbefore y hy)
    refine Matches.trans hrefl hR ((hself x).seq (ih hl hrest fun y z hyz h => ?_)) hmiddle
    have hkeep := (horder y z hyz (h.cons x)).erase x
    have hy : y ≠ x := fun heq => hx (heq ▸ h.subset List.mem_cons_self)
    have hz : z ≠ x :=
      fun heq => hx (heq ▸ h.subset (List.mem_cons_of_mem _ List.mem_cons_self))
    rwa [List.erase_append_right _ hx₁, List.erase_cons_head,
      List.erase_of_not_mem (by simp [hy.symm, hz.symm])] at hkeep

end Order

end Kint.Iteration
