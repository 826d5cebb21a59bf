import Mathlib.Data.List.Perm.Basic
import Mathlib.Logic.Relation
import Mathlib.Order.WellFounded

/-!
# Search along the first match

A search through a directed graph that looks at the successors of a vertex in some order and
commits itself to the first one of interest: a successor with a result ends the search, and a
successor to pass through is where the search goes on, never to come back.  The order of the
successors is the only freedom, and what the search returns for every order can be read off the
graph (`search_exact_iff`).

## Main definitions

* `scan`, `search`: the loop over the successors and the search from a vertex.  The search may
  walk in a circle, so it takes fuel, and `Returns` says that it ends.
* `IsOrder edges succ`: `succ v` lists the successors that `edges v` has, in any order.
* `Next`: the step from a vertex to a successor that some order goes on with.
* `DeadEnd`, `Hit`: from the vertex, walks of such steps lead to one where there is nothing of
  interest, or where a successor has a result.

## Main results

* `deadEnd_or_hit`: what a search returns is explained by a walk in the graph.
* `exists_order_deadEnd`, `exists_order_hit`, `exists_order_endless`: conversely, some order
  makes the search take any walk there is.  The orders `prefer Q edges` look at the successors
  with the property `Q` first.
* `search_exact_iff`: the search is right about a proposition in every order just if no walk is
  endless, none leads to a dead end if the proposition holds, and none to a result if it does
  not.
-/

namespace Kint.FirstMatch

variable {α ρ : Type*} (result : α → Option ρ) (through : α → Bool)

/-- The loop over the successors; `next` is the search from a successor. -/
def scan (next : α → Option (Option ρ)) : List α → Option (Option ρ)
  | [] => some none
  | w :: ws =>
    match result w with
    | some r => some (some r)
    | none => if through w then next w else scan next ws

/-- The search from a vertex whose successors are looked at in the order `succ`;
`fuel` bounds the length of the walk, and `none` is a search that has not ended. -/
def search (succ : α → List α) : (fuel : ℕ) → α → Option (Option ρ)
  | 0, _ => none
  | fuel + 1, v => scan result through (search succ fuel) (succ v)

/-- The search ends with `r`. -/
def Returns (succ : α → List α) (v : α) (r : Option ρ) : Prop :=
  ∃ fuel, search result through succ fuel v = some r

section Scan

variable {result through} {next next' : α → Option (Option ρ)} {r : Option ρ} {l : List α}

/-- A successor of interest: it has a result or is passed through. -/
def Stops (result : α → Option ρ) (through : α → Bool) (w : α) : Prop :=
  (result w).isSome = true ∨ through w = true

/-- Without a successor of interest the loop finds nothing. -/
theorem scan_of_not_stops (h : ∀ w ∈ l, ¬Stops result through w) :
    scan result through next l = some none := by
  induction l with
  | nil => rfl
  | cons w ws ih =>
    have hw := h w (List.mem_cons_self ..)
    rw [Stops, not_or, Bool.not_eq_true, Option.isSome_eq_false_iff,
      Option.isNone_iff_eq_none] at hw
    rw [scan, hw.1]
    simp only [hw.2]
    exact ih fun u hu => h u (List.mem_cons_of_mem _ hu)

/-- What the loop returns comes from one of the successors of interest, or there
are none. -/
theorem scan_cases (h : scan result through next l = some r) :
    (r = none ∧ ∀ w ∈ l, ¬Stops result through w) ∨
      (∃ w ∈ l, (result w).isSome = true ∧ r = result w) ∨
        ∃ w ∈ l, result w = none ∧ through w = true ∧ next w = some r := by
  induction l with
  | nil => exact .inl ⟨(Option.some.inj h).symm, by simp⟩
  | cons w ws ih =>
    cases hw : result w with
    | some x =>
      rw [scan, hw] at h
      refine .inr (.inl ⟨w, List.mem_cons_self .., by simp [hw], ?_⟩)
      rw [hw]
      exact (Option.some.inj h).symm
    | none =>
      rw [scan, hw] at h
      cases ht : through w with
      | true =>
        rw [ht] at h
        exact .inr (.inr ⟨w, List.mem_cons_self .., hw, ht, h⟩)
      | false =>
        rw [ht] at h
        rcases ih h with ⟨hr, hno⟩ | ⟨u, hu, hsome⟩ | ⟨u, hu, hrest⟩
        · refine .inl ⟨hr, fun u hu => ?_⟩
          rcases List.mem_cons.mp hu with rfl | hu
          · simp [Stops, hw, ht]
          · exact hno u hu
        · exact .inr (.inl ⟨u, List.mem_cons_of_mem _ hu, hsome⟩)
        · exact .inr (.inr ⟨u, List.mem_cons_of_mem _ hu, hrest⟩)

/-- The loop returns the same if the searches that it goes on with do. -/
theorem scan_mono (hnext : ∀ w r, next w = some r → next' w = some r)
    (h : scan result through next l = some r) : scan result through next' l = some r := by
  induction l with
  | nil => exact h
  | cons w ws ih =>
    cases hw : result w with
    | some x => rwa [scan, hw] at h ⊢
    | none =>
      rw [scan, hw] at h ⊢
      cases ht : through w with
      | true =>
        rw [ht] at h
        exact hnext w r h
      | false =>
        rw [ht] at h
        exact ih h

/-- The loop ends if the search from every successor that is passed through does. -/
theorem scan_ends (h : ∀ w ∈ l, result w = none → through w = true → ∃ r, next w = some r) :
    ∃ r, scan result through next l = some r := by
  induction l with
  | nil => exact ⟨none, rfl⟩
  | cons w ws ih =>
    cases hw : result w with
    | some x => exact ⟨some x, by rw [scan, hw]⟩
    | none =>
      rw [scan, hw]
      cases ht : through w with
      | true => exact h w (List.mem_cons_self ..) hw ht
      | false => exact ih fun u hu => h u (List.mem_cons_of_mem _ hu)

end Scan

section Search

variable {result through} {succ : α → List α} {v w : α} {r r' : Option ρ} {n m : ℕ}

/-- A search that has ended returns the same with more fuel. -/
theorem search_mono (h : search result through succ n v = some r) (hnm : n ≤ m) :
    search result through succ m v = some r := by
  induction n generalizing v m r with
  | zero => cases h
  | succ n ih =>
    obtain ⟨m, rfl⟩ : ∃ k, m = k + 1 := ⟨m - 1, by omega⟩
    exact scan_mono (fun w r hw => ih hw (by omega)) h

/-- A search returns one thing in a given order. -/
theorem Returns.unique (h : Returns result through succ v r)
    (h' : Returns result through succ v r') : r = r' := by
  obtain ⟨n, hn⟩ := h
  obtain ⟨m, hm⟩ := h'
  have hn' := search_mono hn (Nat.le_max_left n m)
  exact Option.some.inj (hn'.symm.trans (search_mono hm (Nat.le_max_right n m)))

end Search

/-! ## What the search can return -/

section Graph

variable (edges : α → List α)

/-- The search may go on from `v` to `w`. -/
def Next (w v : α) : Prop := w ∈ edges v ∧ result w = none ∧ through w = true

/-- A vertex from which the search can get to one without successors of
interest. -/
inductive DeadEnd : α → Prop
  | here {v : α} : (∀ w ∈ edges v, ¬Stops result through w) → DeadEnd v
  | step {v w : α} : Next result through edges w v → DeadEnd w → DeadEnd v

/-- A vertex from which the search can get to a result. -/
inductive Hit : α → Prop
  | here {v w : α} : w ∈ edges v → (result w).isSome = true → Hit v
  | step {v w : α} : Next result through edges w v → Hit w → Hit v

/-- Dead ends, along the walks of the search. -/
theorem deadEnd_iff {v : α} : DeadEnd result through edges v ↔
    ∃ w, Relation.ReflTransGen (Function.swap (Next result through edges)) v w ∧
      ∀ u ∈ edges w, ¬Stops result through u := by
  constructor
  · intro h
    induction h with
    | here hno => exact ⟨_, .refl, hno⟩
    | step hnext _ ih =>
      obtain ⟨w, hw, hno⟩ := ih
      exact ⟨w, .head hnext hw, hno⟩
  · rintro ⟨w, hw, hno⟩
    induction hw using Relation.ReflTransGen.head_induction_on with
    | refl => exact .here hno
    | head hnext _ ih => exact .step hnext ih

/-- Results, along the walks of the search. -/
theorem hit_iff {v : α} : Hit result through edges v ↔
    ∃ w, Relation.ReflTransGen (Function.swap (Next result through edges)) v w ∧
      ∃ u ∈ edges w, (result u).isSome = true := by
  constructor
  · intro h
    induction h with
    | here hw hsome => exact ⟨_, .refl, _, hw, hsome⟩
    | step hnext _ ih =>
      obtain ⟨w, hw, hsome⟩ := ih
      exact ⟨w, .head hnext hw, hsome⟩
  · rintro ⟨w, hw, u, hu, hsome⟩
    induction hw using Relation.ReflTransGen.head_induction_on with
    | refl => exact .here hu hsome
    | head hnext _ ih => exact .step hnext ih

/-- An order in which the successors are looked at. -/
def IsOrder (succ : α → List α) : Prop := ∀ v, (succ v).Perm (edges v)

variable {result through edges}

section AnyOrder

variable {succ : α → List α} {v : α}

/-- Where no walk is endless the search ends, whatever the order. The fuel of a vertex is one more
than the largest fuel of its successors, so the induction gives one bound for all of them at a time.
-/
theorem returns_of_acc (horder : IsOrder edges succ) (h : Acc (Next result through edges) v) :
    ∃ r, Returns result through succ v r := by
  -- by induction along the edges, with one fuel for all successors
  suffices ∃ n r, search result through succ n v = some r by
    obtain ⟨n, r, hr⟩ := this
    exact ⟨r, n, hr⟩
  induction h with
  | intro v _ ih =>
    have hall : ∀ l : List α, (∀ w ∈ l, w ∈ edges v) → ∃ n, ∀ w ∈ l, result w = none →
        through w = true → ∃ r, search result through succ n w = some r := by
      intro l
      induction l with
      | nil => exact fun _ => ⟨0, by simp⟩
      | cons w ws ihl =>
        intro hl
        obtain ⟨n, hn⟩ := ihl fun u hu => hl u (List.mem_cons_of_mem _ hu)
        by_cases hw : result w = none ∧ through w = true
        · obtain ⟨m, r, hm⟩ := ih w ⟨hl w (List.mem_cons_self ..), hw⟩
          refine ⟨max n m, fun u hu hr ht => ?_⟩
          rcases List.mem_cons.mp hu with rfl | hu
          · exact ⟨r, search_mono hm (Nat.le_max_right n m)⟩
          · obtain ⟨r', hr'⟩ := hn u hu hr ht
            exact ⟨r', search_mono hr' (Nat.le_max_left n m)⟩
        · refine ⟨n, fun u hu hr ht => ?_⟩
          rcases List.mem_cons.mp hu with rfl | hu
          · exact absurd ⟨hr, ht⟩ hw
          · exact hn u hu hr ht
    obtain ⟨n, hn⟩ := hall (succ v) fun w hw => (horder v).subset hw
    obtain ⟨r, hr⟩ := scan_ends hn
    exact ⟨n + 1, r, hr⟩

/-- A search that finds nothing has come to a dead end, and one that finds something to a result; by
induction on the fuel. -/
theorem deadEnd_or_hit {n : ℕ} {r : Option ρ} (horder : IsOrder edges succ)
    (h : search result through succ n v = some r) :
    (r = none → DeadEnd result through edges v) ∧
      (r.isSome = true → Hit result through edges v) := by
  induction n generalizing v r with
  | zero => cases h
  | succ n ih =>
    rcases scan_cases h with ⟨rfl, hno⟩ | ⟨w, hw, hsome, rfl⟩ | ⟨w, hw, hnone, hthrough, hrest⟩
    · exact ⟨fun _ => .here fun w hw => hno w ((horder v).mem_iff.mpr hw), by simp⟩
    · refine ⟨fun hr => ?_, fun _ => .here ((horder v).subset hw) hsome⟩
      rw [hr] at hsome
      cases hsome
    · have hnext : Next result through edges w v := ⟨(horder v).subset hw, hnone, hthrough⟩
      exact ⟨fun hr => .step hnext ((ih hrest).1 hr), fun hr => .step hnext ((ih hrest).2 hr)⟩

end AnyOrder

/-! ## Orders that lead somewhere -/

section Prefer

open Classical

variable {v w : α} (Q : α → α → Prop)

/-- The order that looks at a successor with the property `Q` first, where there
is one. -/
noncomputable def prefer (edges : α → List α) (v : α) : List α :=
  if h : ∃ w ∈ edges v, Q v w then h.choose :: (edges v).erase h.choose else edges v

/-- The order that prefers some successors lists the same ones. -/
theorem prefer_isOrder : IsOrder edges (prefer Q edges) := by
  intro v
  unfold prefer
  split
  · rename_i h
    exact (List.perm_cons_erase h.choose_spec.1).symm
  · exact .refl _

/-- A preferred successor comes first, where there is one. -/
theorem prefer_of_exists (h : ∃ w ∈ edges v, Q v w) :
    ∃ w ws, prefer Q edges v = w :: ws ∧ w ∈ edges v ∧ Q v w := by
  unfold prefer
  rw [dif_pos h]
  exact ⟨_, _, rfl, h.choose_spec⟩

/-- Without a preferred successor the order stays. -/
theorem prefer_of_not_exists (h : ¬∃ w ∈ edges v, Q v w) : prefer Q edges v = edges v := by
  unfold prefer
  rw [dif_neg h]

/-- The successor that is looked at first is where the search goes on. -/
theorem search_prefer_step {n : ℕ} {ws : List α}
    (hpre : prefer Q edges v = w :: ws) (hnext : Next result through edges w v) :
    search result through (prefer Q edges) (n + 1) v =
      search result through (prefer Q edges) n w := by
  rw [search, hpre, scan, hnext.2.1]
  simp only [hnext.2.2, if_true]

/-- Some order runs into a dead end wherever there is one. -/
theorem exists_order_deadEnd : ∃ succ, IsOrder edges succ ∧
    ∀ v, Acc (Next result through edges) v → DeadEnd result through edges v →
      Returns result through succ v none := by
  let Q : α → α → Prop := fun v w => Next result through edges w v ∧ DeadEnd result through edges w
  refine ⟨prefer Q edges, prefer_isOrder Q, fun v hacc hdead => ?_⟩
  induction hacc with
  | intro v _ ih =>
    by_cases hQ : ∃ w ∈ edges v, Q v w
    · obtain ⟨w, ws, hpre, -, hnext, hw⟩ := prefer_of_exists Q hQ
      obtain ⟨n, hn⟩ := ih w hnext hw
      exact ⟨n + 1, (search_prefer_step Q hpre hnext).trans hn⟩
    · refine ⟨1, ?_⟩
      rw [search, prefer_of_not_exists Q hQ]
      cases hdead with
      | here hno => exact scan_of_not_stops hno
      | step hnext hw => exact absurd ⟨_, hnext.1, hnext, hw⟩ hQ

/-- Some order runs into a result wherever there is one. The order prefers successors that have a
result, or from which one can be reached; along such successors no walk is endless. -/
theorem exists_order_hit : ∃ succ, IsOrder edges succ ∧
    ∀ v, Acc (Next result through edges) v → Hit result through edges v →
      ∃ r, r.isSome = true ∧ Returns result through succ v r := by
  let Q : α → α → Prop := fun v w => (result w).isSome = true ∨
    (∀ u ∈ edges v, result u = none) ∧
      Next result through edges w v ∧ Hit result through edges w
  refine ⟨prefer Q edges, prefer_isOrder Q, fun v hacc hhit => ?_⟩
  induction hacc with
  | intro v _ ih =>
    have hQ : ∃ w ∈ edges v, Q v w := by
      by_cases hres : ∀ u ∈ edges v, result u = none
      · cases hhit with
        | here hw hsome =>
          rw [hres _ hw] at hsome
          cases hsome
        | step hnext hw => exact ⟨_, hnext.1, .inr ⟨hres, hnext, hw⟩⟩
      · obtain ⟨u, hu, hne⟩ : ∃ u ∈ edges v, result u ≠ none := by simpa using hres
        exact ⟨u, hu, .inl (Option.isSome_iff_ne_none.mpr hne)⟩
    obtain ⟨w, ws, hpre, -, hsome | ⟨-, hnext, hw⟩⟩ := prefer_of_exists Q hQ
    · obtain ⟨x, hx⟩ := Option.isSome_iff_exists.mp hsome
      refine ⟨some x, rfl, 1, ?_⟩
      rw [search, hpre, scan, hx]
    · obtain ⟨r, hr, n, hn⟩ := ih w hnext hw
      exact ⟨r, hr, n + 1, (search_prefer_step Q hpre hnext).trans hn⟩

/-- Some order never ends where there is no end. -/
theorem exists_order_endless : ∃ succ, IsOrder edges succ ∧
    ∀ v, ¬Acc (Next result through edges) v → ∀ r, ¬Returns result through succ v r := by
  let Q : α → α → Prop := fun v w =>
    Next result through edges w v ∧ ¬Acc (Next result through edges) w
  refine ⟨prefer Q edges, prefer_isOrder Q, fun v hacc r hret => ?_⟩
  obtain ⟨n, hn⟩ := hret
  induction n generalizing v with
  | zero => cases hn
  | succ n ih =>
    have hQ : ∃ w ∈ edges v, Q v w := by
      by_contra hno
      refine hacc ⟨v, fun w hw => ?_⟩
      by_contra hwacc
      exact hno ⟨w, hw.1, hw, hwacc⟩
    obtain ⟨w, ws, hpre, -, hnext, hw⟩ := prefer_of_exists Q hQ
    exact ih w hw ((search_prefer_step Q hpre hnext).symm.trans hn)

end Prefer

/-- In every order the search ends and finds something just when `C` holds: that
is, no walk is endless, and none leads to a dead end if `C` holds, or to a result
if it does not. -/
theorem search_exact_iff {v : α} (C : Prop) :
    (∀ succ, IsOrder edges succ →
      ∃ r, Returns result through succ v r ∧ (r.isSome = true ↔ C)) ↔
    Acc (Next result through edges) v ∧ (C → ¬DeadEnd result through edges v) ∧
      (¬C → ¬Hit result through edges v) := by
  constructor
  · intro h
    have hacc : Acc (Next result through edges) v := by
      by_contra hacc
      obtain ⟨succ, horder, hend⟩ :=
        @exists_order_endless _ _ result through edges
      obtain ⟨r, hr, -⟩ := h succ horder
      exact hend v hacc r hr
    refine ⟨hacc, fun hC hdead => ?_, fun hC hhit => ?_⟩
    · obtain ⟨succ, horder, hnone⟩ :=
        @exists_order_deadEnd _ _ result through edges
      obtain ⟨r, hr, hiff⟩ := h succ horder
      have hsome := hiff.mpr hC
      rw [hr.unique (hnone v hacc hdead)] at hsome
      cases hsome
    · obtain ⟨succ, horder, hsome⟩ :=
        @exists_order_hit _ _ result through edges
      obtain ⟨r, hr, hiff⟩ := h succ horder
      obtain ⟨r', hr', hret⟩ := hsome v hacc hhit
      rw [← hr.unique hret] at hr'
      exact hC (hiff.mp hr')
  · rintro ⟨hacc, hdead, hhit⟩ succ horder
    obtain ⟨r, n, hn⟩ := returns_of_acc horder hacc
    refine ⟨r, ⟨n, hn⟩, fun hr => ?_, fun hC => ?_⟩
    · by_contra hC
      exact hhit hC ((deadEnd_or_hit horder hn).2 hr)
    · by_contra hr
      exact hdead hC ((deadEnd_or_hit horder hn).1 (by simpa using hr))

end Graph

end Kint.FirstMatch
