import Mathlib.Data.List.Basic

/-!
# Dotted names

Names that are put together from parts with a dot in between.  The last dot of a name separates
its last part from the rest, so a part without dots can be taken off again; numbers are such
parts.

## Main definitions

* `dotted x a`: the name `x`, a dot, and the part `a`.
* `Dotless a`: the part has no dot.

## Main results

* `dotted_inj`: two dotted names with parts that have no dots are the same only if their
  beginnings and their parts are.
* `dotted_toString_inj`: decimal numbers have no dots, and different numbers are written
  differently, so a number at the end of a name can be read off.

The characters of a string are compared as a list, where a separator splits a list in one way if
the part behind it does not contain the separator.
-/

namespace Kint

/-- The name has no dot. -/
def Dotless (s : String) : Prop := '.' ∉ s.toList

instance (s : String) : Decidable (Dotless s) := inferInstanceAs (Decidable (_ ∉ _))

/-- `x`, a dot, `a`. -/
def dotted (x a : String) : String := x ++ "." ++ a

/-- Lists that are split at the last occurrence of an element are the same only if their parts are.
-/
theorem append_cons_inj_of_notMem_right {α : Type*} {c : α} {x y a b : List α} (ha : c ∉ a)
    (hb : c ∉ b) : x ++ c :: a = y ++ c :: b ↔ x = y ∧ a = b := by
  constructor
  · intro h
    rcases List.append_eq_append_iff.mp h with ⟨l, rfl, hl⟩ | ⟨l, rfl, hl⟩
    · rcases List.cons_eq_append_iff.mp hl with ⟨rfl, hb'⟩ | ⟨l', rfl, rfl⟩
      · exact ⟨by simp, (List.cons.inj hb').2.symm⟩
      · exact absurd (by simp) ha
    · rcases List.cons_eq_append_iff.mp hl with ⟨rfl, ha'⟩ | ⟨l', rfl, rfl⟩
      · exact ⟨by simp, (List.cons.inj ha').2⟩
      · exact absurd (by simp) hb
  · rintro ⟨rfl, rfl⟩
    rfl

theorem toList_dotted (x a : String) : (dotted x a).toList = x.toList ++ '.' :: a.toList := by
  simp [dotted]

/-- Parts without dots can be taken off. -/
theorem dotted_inj {x y a b : String} (ha : Dotless a) (hb : Dotless b) :
    dotted x a = dotted y b ↔ x = y ∧ a = b := by
  rw [← String.toList_inj, toList_dotted, toList_dotted, append_cons_inj_of_notMem_right ha hb,
    String.toList_inj, String.toList_inj]

theorem not_dotless_dotted (x a : String) : ¬Dotless (dotted x a) := by
  simp [Dotless, toList_dotted]

theorem dotless_toString (n : ℕ) : Dotless (toString n) := by
  intro h
  rw [Nat.toString_eq_repr, Nat.toList_repr] at h
  exact absurd (Nat.isDigit_of_mem_toDigits (by decide) (by decide) h) (by decide)

theorem toString_nat_inj {n m : ℕ} : toString n = toString m ↔ n = m := by
  refine ⟨fun h => ?_, fun h => h ▸ rfl⟩
  have hdigits := congrArg String.toList h
  rw [Nat.toString_eq_repr, Nat.toString_eq_repr, Nat.toList_repr, Nat.toList_repr] at hdigits
  simpa using congrArg (fun ds => Nat.ofDigitChars 10 ds 0) hdigits

/-- A number can be taken off. -/
theorem dotted_toString_inj {x y : String} {n m : ℕ} :
    dotted x (toString n) = dotted y (toString m) ↔ x = y ∧ n = m := by
  rw [dotted_inj (dotless_toString n) (dotless_toString m), toString_nat_inj]

end Kint
