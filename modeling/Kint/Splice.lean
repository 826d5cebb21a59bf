import Mathlib.Data.List.Nodup
import Mathlib.Tactic.Common

/-!
# Inserting into a list

`splice x m l` has a new element `m` before every `x` of the list.  The other elements stay in
their order, so what a position of the old list says about the elements before it can be read
off the new one, and the other way round (`append_cons_of_splice`).

A pass that inserts an instruction into a block splices the list of instructions of the block.
A position in a block is a split of that list, so facts about positions are stated for splits.

## Main results

* `splice_append`, `mem_splice`, `nodup_splice`: how splicing goes with the operations on lists.
* `filter_splice`: the old list is the new one without the new element.
* `append_cons_of_splice`: a split of the new list at an old element comes from one of the old
  list.
* `append_cons_of_splice_self`, `mem_of_splice_self`: the new element stands right before `x`.
-/

namespace Kint

variable {α : Type*} [DecidableEq α]

/-- Put `m` before every `x`. -/
def splice (x m : α) (l : List α) : List α := l.flatMap fun a => if a = x then [m, a] else [a]

namespace Splice

variable {x m a b : α} {l l' pre post : List α}

@[simp] theorem splice_nil : splice x m [] = [] := rfl

/-- The new element goes before the one that is looked for. -/
@[simp] theorem splice_self : splice x m (x :: l) = m :: x :: splice x m l := by
  simp [splice]

theorem splice_of_ne (h : a ≠ x) : splice x m (a :: l) = a :: splice x m l := by
  simp [splice, h]

theorem splice_append : splice x m (l ++ l') = splice x m l ++ splice x m l' :=
  List.flatMap_append

theorem splice_of_not_mem (h : x ∉ l) : splice x m l = l := by
  induction l with
  | nil => rfl
  | cons a l ih =>
    obtain ⟨hne, hl⟩ := List.ne_and_not_mem_of_not_mem_cons h
    rw [splice_of_ne hne.symm, ih hl]

/-- Only the new element is added, and only if there is a place for it. -/
theorem mem_splice : a ∈ splice x m l ↔ a ∈ l ∨ a = m ∧ x ∈ l := by
  induction l with
  | nil => simp
  | cons b l ih =>
    by_cases hb : b = x
    · subst hb
      rw [splice_self, List.mem_cons, List.mem_cons, ih, List.mem_cons]
      tauto
    · rw [splice_of_ne hb, List.mem_cons, ih, List.mem_cons, List.mem_cons]
      simp only [Ne.symm hb, false_or]
      tauto

/-- Without the new element, the list is the old one. -/
theorem filter_splice (h : m ∉ l) : (splice x m l).filter (· ≠ m) = l := by
  induction l with
  | nil => rfl
  | cons b l ih =>
    obtain ⟨hne, hl⟩ := List.ne_and_not_mem_of_not_mem_cons h
    have hb : (b :: splice x m l).filter (· ≠ m) = b :: l := by
      rw [List.filter_cons_of_pos (by simpa using hne.symm), ih hl]
    by_cases hbx : b = x
    · subst hbx
      rw [splice_self, List.filter_cons_of_neg (by simp), hb]
    · rw [splice_of_ne hbx, hb]

/-- A selection that takes both or none of the two elements. -/
theorem filter_splice_comm {p : α → Bool} (h : p m = true) (hx : p x = true) :
    (splice x m l).filter p = splice x m (l.filter p) := by
  induction l with
  | nil => rfl
  | cons b l ih =>
    by_cases hbx : b = x
    · subst hbx
      rw [splice_self, List.filter_cons_of_pos h, List.filter_cons_of_pos hx,
        List.filter_cons_of_pos hx, splice_self, ih]
    · rw [splice_of_ne hbx]
      cases hb : p b with
      | true => rw [List.filter_cons_of_pos hb, List.filter_cons_of_pos hb, splice_of_ne hbx, ih]
      | false =>
        rw [List.filter_cons_of_neg (ne_true_of_eq_false hb),
          List.filter_cons_of_neg (ne_true_of_eq_false hb), ih]

/-- A list without repetitions gets no repetitions from a new element. -/
theorem nodup_splice (hl : l.Nodup) (hm : m ∉ l) : (splice x m l).Nodup := by
  induction l with
  | nil => exact List.nodup_nil
  | cons b l ih =>
    obtain ⟨hb, hl⟩ := List.nodup_cons.mp hl
    obtain ⟨hne, hm⟩ := List.ne_and_not_mem_of_not_mem_cons hm
    by_cases hbx : b = x
    · subst hbx
      rw [splice_self, splice_of_not_mem hb]
      exact List.nodup_cons.mpr
        ⟨List.not_mem_cons_of_ne_of_not_mem hne hm, List.nodup_cons.mpr ⟨hb, hl⟩⟩
    · rw [splice_of_ne hbx]
      refine List.nodup_cons.mpr ⟨fun hmem => ?_, ih hl hm⟩
      rcases mem_splice.mp hmem with hmem | ⟨hbm, -⟩
      · exact hb hmem
      · exact hne hbm.symm

/-- A position of the new list at an old element is a position of the old one. -/
theorem append_cons_of_splice (hm : m ∉ l) (ha : a ≠ m) (h : splice x m l = pre ++ a :: post) :
    l = pre.filter (· ≠ m) ++ a :: post.filter (· ≠ m) := by
  rw [← filter_splice (x := x) hm, h, List.filter_append, List.filter_cons_of_pos (by simpa)]

/-- The position of the new element is that of `x`. -/
theorem append_cons_of_splice_self (hl : l.Nodup) (hm : m ∉ l)
    (h : splice x m l = pre ++ m :: post) : ∃ post', post = x :: post' ∧ l = pre ++ x :: post' := by
  have hx : x ∈ l := by
    have hmem : m ∈ splice x m l := by simp [h]
    exact ((mem_splice.mp hmem).resolve_left hm).2
  obtain ⟨p, q, rfl⟩ := List.append_of_mem hx
  obtain ⟨-, hxq, hdis⟩ := List.nodup_append.mp hl
  have hp : x ∉ p := fun hmem => hdis x hmem x List.mem_cons_self rfl
  have hq : x ∉ q := (List.nodup_cons.mp hxq).1
  have hmp : m ∉ p := fun hmem => hm (List.mem_append_left _ hmem)
  have hmq : m ∉ x :: q := fun hmem => hm (List.mem_append_right _ hmem)
  rw [splice_append, splice_of_not_mem hp, splice_self, splice_of_not_mem hq] at h
  obtain ⟨rfl, -, hcons⟩ := (List.append_cons_inj_of_notMem hmp hmq).mp h
  exact ⟨q, hcons.symm, rfl⟩

/-- The new element comes before `x`. -/
theorem mem_of_splice_self (hl : l.Nodup) (hm : m ∉ l) (h : splice x m l = pre ++ x :: post) :
    m ∈ pre := by
  have hx : x ∈ l := by
    have hmem : x ∈ splice x m l := by simp [h]
    exact (mem_splice.mp hmem).elim id And.right
  obtain ⟨p, q, rfl⟩ := List.append_of_mem hx
  obtain ⟨-, hxq, hdis⟩ := List.nodup_append.mp hl
  have hp : x ∉ p := fun hmem => hdis x hmem x List.mem_cons_self rfl
  have hq : x ∉ q := (List.nodup_cons.mp hxq).1
  have hxm : x ≠ m := by
    rintro rfl
    exact hm (by simp)
  have hpm : x ∉ p ++ [m] := by simp [hp, hxm]
  rw [splice_append, splice_of_not_mem hp, splice_self, splice_of_not_mem hq] at h
  have h' : (p ++ [m]) ++ x :: q = pre ++ x :: post := by simpa using h
  obtain ⟨rfl, -⟩ := (List.append_cons_inj_of_notMem hpm hq).mp h'
  simp

end Splice

end Kint
