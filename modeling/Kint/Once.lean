import Mathlib.Data.List.Basic
import Mathlib.Tactic.Common

/-!
# Telling each thing once

A loop over items that have keys, which skips the items whose key is recorded.  For any other
item it may be told, and its key may be recorded.  An item is told just when it is to be and no
item before it has recorded its key (`mem_told`).

``` for (i : items) { if (seen.count(key(i))) continue; if (tell(i)) print(i); if (record(i))
seen.insert(key(i)); } ```

Telling and recording are two decisions: what is told may be lost before it is recorded, and
then the key may be told again.

## Main results

* `mem_told`: which items are told.
* `exists_told`: where nothing is recorded that is not told, whatever is to be told has its key
  told.
* `nodup_told`: where everything that is told is recorded, no key is told twice.
-/

namespace Kint.Once

variable {ι κ : Type} [DecidableEq κ] (key : ι → κ) (tell record : ι → Bool)

/-- The keys that are recorded after an item. -/
def recorded (seen : List κ) (i : ι) : List κ :=
  if key i ∈ seen then seen else if record i then key i :: seen else seen

/-- The items that are told, in order. -/
def told : List ι → List κ → List ι
  | [], _ => []
  | i :: l, seen =>
    if key i ∉ seen ∧ tell i then i :: told l (recorded key record seen i)
    else told l (recorded key record seen i)

variable {key tell record} {l : List ι} {seen : List κ} {i j : ι} {k : κ}

/-- The keys after an item are the keys before it, and its own one if it is recorded. -/
theorem mem_recorded : k ∈ recorded key record seen i ↔
    k ∈ seen ∨ record i = true ∧ key i = k := by
  unfold recorded
  split
  · rename_i hmem
    refine (or_iff_left_of_imp ?_).symm
    rintro ⟨-, rfl⟩
    exact hmem
  · split
    · rename_i hrec
      rw [List.mem_cons, or_comm, eq_comm]
      simp [hrec]
    · rename_i hrec
      simp [hrec]

/-- An item is told just when it is to be told, its key was not recorded in the beginning, and no
item before it has recorded the key; by induction on the items. -/
theorem mem_told : i ∈ told key tell record l seen ↔
    ∃ pre post, l = pre ++ i :: post ∧ tell i = true ∧ key i ∉ seen ∧
      ∀ j ∈ pre, record j = true → key j ≠ key i := by
  induction l generalizing seen with
  | nil => simp [told]
  | cons a l ih =>
    have hrest : i ∈ told key tell record l (recorded key record seen a) ↔
        ∃ pre post, a :: l = a :: pre ++ i :: post ∧ tell i = true ∧ key i ∉ seen ∧
          ∀ j ∈ a :: pre, record j = true → key j ≠ key i := by
      rw [ih]
      refine exists_congr fun pre => exists_congr fun post => ?_
      simp only [List.cons_append, List.cons_inj_right, mem_recorded, not_or, not_and,
        List.forall_mem_cons, ne_eq]
      tauto
    have hsplit : (∃ pre post, a :: l = pre ++ i :: post ∧ tell i = true ∧ key i ∉ seen ∧
          ∀ j ∈ pre, record j = true → key j ≠ key i) ↔
        (a = i ∧ tell i = true ∧ key i ∉ seen) ∨
          i ∈ told key tell record l (recorded key record seen a) := by
      rw [hrest]
      constructor
      · rintro ⟨pre, post, heq, htell, hkey, hpre⟩
        cases pre with
        | nil => exact .inl ⟨(List.cons.inj heq).1, htell, hkey⟩
        | cons b pre =>
          obtain ⟨rfl, -⟩ := List.cons.inj heq
          exact .inr ⟨pre, post, heq, htell, hkey, hpre⟩
      · rintro (⟨rfl, htell, hkey⟩ | ⟨pre, post, heq, h⟩)
        · exact ⟨[], l, rfl, htell, hkey, fun j hj => (by cases hj)⟩
        · exact ⟨a :: pre, post, heq, h⟩
    rw [hsplit, told]
    split
    · rename_i h
      rw [List.mem_cons]
      refine or_congr_left ⟨?_, fun hi => hi.1.symm⟩
      rintro rfl
      exact ⟨rfl, h.2, h.1⟩
    · rename_i h
      refine (or_iff_right ?_).symm
      rintro ⟨rfl, htell, hkey⟩
      exact h ⟨hkey, htell⟩

variable (key) in
/-- When only what is told is recorded, the key of whatever is to be told is told. By induction on
the list: the first element with the key that is to be told, and was not seen, is told. -/
theorem exists_told (hrecord : ∀ j, record j = true → tell j = true) (hi : i ∈ l)
    (htell : tell i = true) :
    key i ∈ seen ∨ ∃ j ∈ told key tell record l seen, key j = key i := by
  induction l generalizing seen with
  | nil => cases hi
  | cons a l ih =>
    by_cases ha : key a ∉ seen ∧ tell a = true
    · rw [told, if_pos ha]
      rcases List.mem_cons.mp hi with rfl | hi
      · exact .inr ⟨i, List.mem_cons_self, rfl⟩
      · rcases ih hi with hseen | ⟨j, hj, hkey⟩
        · rcases mem_recorded.mp hseen with hseen | ⟨-, hkey⟩
          · exact .inl hseen
          · exact .inr ⟨a, List.mem_cons_self, hkey⟩
        · exact .inr ⟨j, List.mem_cons_of_mem _ hj, hkey⟩
    · rw [told, if_neg ha]
      rcases List.mem_cons.mp hi with rfl | hi
      · exact .inl (by_contra fun hkey => ha ⟨hkey, htell⟩)
      · refine (ih hi).imp_left fun hseen => ?_
        rcases mem_recorded.mp hseen with hseen | ⟨hrec, hkey⟩
        · exact hseen
        · rw [← hkey]
          exact by_contra fun hkey => ha ⟨hkey, hrecord a hrec⟩

/-- When what is told is recorded, no key is told twice. -/
theorem nodup_told (h : ∀ i, tell i = true → record i = true) :
    ((told key tell record l seen).map key).Nodup := by
  induction l generalizing seen with
  | nil => exact List.nodup_nil
  | cons a l ih =>
    unfold told
    split
    · rename_i ha
      rw [List.map_cons, List.nodup_cons]
      refine ⟨fun hmem => ?_, ih⟩
      obtain ⟨j, hj, hkey⟩ := List.mem_map.mp hmem
      obtain ⟨-, -, -, -, hseen, -⟩ := mem_told.mp hj
      exact hseen (mem_recorded.mpr (.inr ⟨h a ha.2, hkey.symm⟩))
    · exact ih

end Kint.Once
