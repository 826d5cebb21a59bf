import Mathlib.Logic.Function.Basic
import Mathlib.Logic.Equiv.Basic
import Mathlib.Data.List.Nodup
import Mathlib.Tactic.Common

/-!
# Maps that a loop fills

``` for (x : xs) for (e : entries(x)) map[e.key] = e.value; ```

Of several entries with one key the last one stays.  Which one that is depends on the order of
`xs`: every element with an entry of the key can come last, by changing places with the one that
is last now (`isLast_swap`).  So what holds of a key's entry in every order holds of the last
entry of each element on its own.

## Main definitions

* `fill m l`: the map after the entries of `l` were written into `m`.
* `IsLast l k v`: the last entry of `k` in `l` has the value `v`.

## Main results

* `fill_eq_some_iff`: the map has the value of the last entry.
* `exists_isLast`: a key with an entry has a last one.
* `IsLast.flatMap`, `IsLast.of_flatMap`: the last entry of all is the last one of the last
  element that has any.
* `isLast_swap`, `map_swap_perm`: the exchange of two elements, which is a permutation.
-/

namespace Kint.LastWrite

variable {κ β ι : Type*} [DecidableEq κ]

/-- The map after the entries of a list were written. -/
def fill (m : κ → Option β) (l : List (κ × β)) : κ → Option β :=
  l.foldl (fun m e => Function.update m e.1 (some e.2)) m

/-- `v` is the value of the last entry of `k`. -/
def IsLast (l : List (κ × β)) (k : κ) (v : β) : Prop :=
  ∃ pre post, l = pre ++ (k, v) :: post ∧ ∀ e ∈ post, e.1 ≠ k

variable {m : κ → Option β} {l l' : List (κ × β)} {k : κ} {v v' : β}

/-- Two lists of entries are written one after the other. -/
theorem fill_append : fill m (l ++ l') = fill (fill m l) l' := List.foldl_append

/-- A key without an entry keeps what it had. -/
theorem fill_of_ne (h : ∀ e ∈ l, e.1 ≠ k) : fill m l k = m k := by
  induction l generalizing m with
  | nil => rfl
  | cons e l ih =>
    have hrest := ih (m := Function.update m e.1 (some e.2)) fun e' he' =>
      h e' (List.mem_cons_of_mem _ he')
    refine Eq.trans hrest ?_
    exact Function.update_of_ne (Ne.symm (h e List.mem_cons_self)) _ _

omit [DecidableEq κ] in
theorem IsLast.mem (h : IsLast l k v) : (k, v) ∈ l := by
  obtain ⟨pre, post, rfl, -⟩ := h
  simp

/-- The value of the last entry stays, whatever was in the map before. -/
theorem IsLast.fill_eq (h : IsLast l k v) : fill m l k = some v := by
  obtain ⟨pre, post, rfl, hpost⟩ := h
  rw [fill_append]
  show fill (Function.update (fill m pre) k (some v)) post k = some v
  rw [fill_of_ne hpost, Function.update_self]

omit [DecidableEq κ] in
/-- A key with an entry has a last one. -/
theorem exists_isLast (h : (k, v) ∈ l) : ∃ v', IsLast l k v' := by
  induction l generalizing v with
  | nil => cases h
  | cons e l ih =>
    by_cases hlater : ∃ v', (k, v') ∈ l
    · obtain ⟨v', hv'⟩ := hlater
      obtain ⟨w, pre, post, rfl, hpost⟩ := ih hv'
      exact ⟨w, e :: pre, post, rfl, hpost⟩
    · refine ⟨v, [], l, ?_, fun e' he' hk => hlater ⟨e'.2, hk ▸ he'⟩⟩
      rcases List.mem_cons.mp h with rfl | h
      · rfl
      · exact absurd ⟨v, h⟩ hlater

/-- What the loop leaves for a key, from the empty map on. -/
theorem fill_eq_some_iff : fill (fun _ => none) l k = some v ↔ IsLast l k v := by
  refine ⟨fun h => ?_, IsLast.fill_eq⟩
  by_cases hentry : ∃ v', (k, v') ∈ l
  · obtain ⟨v', hv'⟩ := hentry
    obtain ⟨w, hw⟩ := exists_isLast hv'
    obtain rfl : w = v := Option.some.inj (hw.fill_eq.symm.trans h)
    exact hw
  · rw [fill_of_ne fun e he hk => hentry ⟨e.2, hk ▸ he⟩] at h
    cases h

theorem IsLast.unique (h : IsLast l k v) (h' : IsLast l k v') : v = v' :=
  Option.some.inj ((fill_eq_some_iff.mpr h).symm.trans (fill_eq_some_iff.mpr h'))

/-! ## The order of the elements -/

section Order

variable {f : ι → List (κ × β)} {is : List ι} {i j : ι}

omit [DecidableEq κ] in
/-- The last entry is one of the last element that has any. -/
theorem IsLast.flatMap {pre post : List ι} (h : IsLast (f i) k v)
    (hpost : ∀ j ∈ post, ∀ e ∈ f j, e.1 ≠ k) :
    IsLast ((pre ++ i :: post).flatMap f) k v := by
  obtain ⟨before, after, hi, hafter⟩ := h
  refine ⟨pre.flatMap f ++ before, after ++ post.flatMap f, ?_, fun e he => ?_⟩
  · simp [hi]
  · rcases List.mem_append.mp he with he | he
    · exact hafter e he
    · obtain ⟨j, hj, he⟩ := List.mem_flatMap.mp he
      exact hpost j hj e he

omit [DecidableEq κ] in
/-- An element with an entry of the key and none after it. -/
theorem exists_last_element (hi : i ∈ is) (hv : (k, v) ∈ f i) :
    ∃ pre j post, is = pre ++ j :: post ∧ (∃ v', (k, v') ∈ f j) ∧
      ∀ j' ∈ post, ∀ e ∈ f j', e.1 ≠ k := by
  induction is generalizing i v with
  | nil => cases hi
  | cons i' is ih =>
    by_cases hlater : ∃ j ∈ is, ∃ v', (k, v') ∈ f j
    · obtain ⟨j, hj, v', hv'⟩ := hlater
      obtain ⟨pre, j, post, rfl, hj, hpost⟩ := ih hj hv'
      exact ⟨i' :: pre, j, post, rfl, hj, hpost⟩
    · refine ⟨[], i', is, rfl, ?_, fun j hj e he hk => hlater ⟨j, hj, e.2, hk ▸ he⟩⟩
      rcases List.mem_cons.mp hi with rfl | hi
      · exact ⟨v, hv⟩
      · exact absurd ⟨i, hi, v, hv⟩ hlater

/-- The last entry of all is the last one of some element. -/
theorem IsLast.of_flatMap (h : IsLast (is.flatMap f) k v) : ∃ i ∈ is, IsLast (f i) k v := by
  obtain ⟨i, hi, hv⟩ := List.mem_flatMap.mp h.mem
  obtain ⟨pre, j, post, rfl, ⟨v', hv'⟩, hpost⟩ := exists_last_element hi hv
  obtain ⟨w, hw⟩ := exists_isLast hv'
  have hlast : IsLast ((pre ++ j :: post).flatMap f) k w := hw.flatMap hpost
  obtain rfl := hlast.unique h
  exact ⟨j, by simp, hw⟩

omit [DecidableEq κ] in
/-- An element with an entry of the key changes places with the last such element, and
then its last entry is the one that stays. -/
theorem isLast_swap [DecidableEq ι] (hnodup : is.Nodup) (hi : i ∈ is)
    (hv : IsLast (f i) k v) :
    ∃ j ∈ is, (∃ v', (k, v') ∈ f j) ∧
      IsLast ((is.map (Equiv.swap i j)).flatMap f) k v := by
  obtain ⟨pre, j, post, rfl, hj, hpost⟩ := exists_last_element hi hv.mem
  refine ⟨j, by simp, hj, ?_⟩
  have hfix : post.map (Equiv.swap i j) = post := by
    refine (List.map_congr_left fun j' hj' => ?_).trans (List.map_id _)
    refine Equiv.swap_apply_of_ne_of_ne ?_ ?_
    · rintro rfl
      exact hpost j' hj' _ hv.mem rfl
    · rintro rfl
      exact (List.nodup_middle.mp hnodup).notMem (List.mem_append_right _ hj')
  rw [List.map_append, List.map_cons, Equiv.swap_apply_right, hfix]
  exact hv.flatMap hpost

/-- Two elements of a list that change places permute it. -/
theorem map_swap_perm [DecidableEq ι] (hnodup : is.Nodup) (hi : i ∈ is) (hj : j ∈ is) :
    (is.map (Equiv.swap i j)).Perm is := by
  refine (List.perm_ext_iff_of_nodup (hnodup.map (Equiv.injective _)) hnodup).mpr fun a => ?_
  rw [List.mem_map_of_involutive (Equiv.swap_apply_self i j), Equiv.swap_apply_def]
  split
  · next h => exact ⟨fun _ => h ▸ hi, fun _ => hj⟩
  · split
    · next h => exact ⟨fun _ => h ▸ hj, fun _ => hi⟩
    · rfl

/-- A filter that drops both does not see it. -/
theorem filter_map_swap [DecidableEq ι] {p : ι → Bool} (hi : p i = false) (hj : p j = false) :
    (is.map (Equiv.swap i j)).filter p = is.filter p := by
  have hp : p ∘ Equiv.swap i j = p := by
    funext a
    rw [Function.comp_apply, Equiv.swap_apply_def]
    split
    · next h => rw [h, hi, hj]
    · split
      · next h => rw [h, hi, hj]
      · rfl
  rw [List.filter_map, hp]
  refine (List.map_congr_left fun a ha => ?_).trans (List.map_id _)
  have ha : p a = true := List.of_mem_filter ha
  refine Equiv.swap_apply_of_ne_of_ne ?_ ?_
  · rintro rfl
    exact Bool.false_ne_true (hi.symm.trans ha)
  · rintro rfl
    exact Bool.false_ne_true (hj.symm.trans ha)

end Order

end Kint.LastWrite
