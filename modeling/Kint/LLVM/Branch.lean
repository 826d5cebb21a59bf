import Kint.LLVM.IR

/-!
# Where terminators go

The block to which a conditional branch or a switch transfers control, at a value of its
condition; and what the verifier checks of the values in a case table.

## Main definitions

* `Opcode.condition?`: the value that a terminator tests, if it tests one.
* `Opcode.destination op x`: the block that control is transferred to at the value `x`.  A
  switch looks its cases up from the front and goes to its default block if none has the value.
* `Opcode.DistinctCases`: no two cases have one value, as the verifier demands.  Then the order
  of the cases does not matter.

## Main results

* `find_case`, `find_case_eq_none`: the lookup in a case table.
* `destination_iff_of_ne`: a block other than the default is entered at just the values of the
  cases that lead to it.
* `destination_default`: the default block is entered at the values without a case, and at those
  whose case leads there, too.

The passes that reason about an edge (which values a variable has behind it, which formula is
true there) split on these two ways into a block.
-/

namespace Kint

/-- The condition of a branch or a switch. -/
def Opcode.condition? : Opcode → Option Value
  | .condBr cond _ _ => some cond
  | .switch cond _ _ => some cond
  | _ => none

/-- The block to which control is transferred when the condition is `x`. -/
def Opcode.destination (op : Opcode) (x : APInt) : Option BlockId :=
  match op with
  | .condBr _ ifTrue ifFalse => if x = .ofBool true then some ifTrue else some ifFalse
  | .switch _ defaultDest cases =>
    some (((cases.find? fun c => c.1 = x).map Prod.snd).getD defaultDest)
  | _ => none

/-- The condition has the width that the verifier asks for. -/
def Opcode.HasConditionWidth (op : Opcode) (w : ℕ) : Prop :=
  match op with
  | .condBr .. => w = 1
  | .switch _ _ cases => ∀ c ∈ cases, c.1.width = w
  | _ => False

/-- No two cases have one value. -/
def Opcode.DistinctCases (op : Opcode) : Prop :=
  match op with
  | .switch _ _ cases => (cases.map Prod.fst).Nodup
  | _ => True

instance (op : Opcode) (w : ℕ) : Decidable (op.HasConditionWidth w) := by
  unfold Opcode.HasConditionWidth
  split <;> infer_instance

instance (op : Opcode) : Decidable (op.DistinctCases) := by
  unfold Opcode.DistinctCases
  split <;> infer_instance

section Cases

variable {cases : List (APInt × BlockId)} {x : APInt} {d BB : BlockId}

/-- The case of a value is the one that is found. -/
theorem find_case (hnodup : (cases.map Prod.fst).Nodup) (h : (x, BB) ∈ cases) :
    cases.find? (fun c => c.1 = x) = some (x, BB) := by
  induction cases with
  | nil => cases h
  | cons c cases ih =>
    rw [List.map_cons, List.nodup_cons] at hnodup
    rcases List.mem_cons.mp h with rfl | hmem
    · rw [List.find?_cons_of_pos (by simp)]
    · have hne : c.1 ≠ x := by
        intro hx
        rw [hx] at hnodup
        exact hnodup.1 (List.mem_map_of_mem (f := Prod.fst) hmem)
      rw [List.find?_cons_of_neg (by simpa using hne)]
      exact ih hnodup.2 hmem

theorem find_case_eq_none (h : ∀ c ∈ cases, c.1 ≠ x) :
    cases.find? (fun c => c.1 = x) = none := by
  rw [List.find?_eq_none]
  intro c hc
  simpa using h c hc

/-- A switch goes to a block that is not the default by a case. -/
theorem mem_of_destination {cond : Value}
    (h : (Opcode.switch cond d cases).destination x = some BB) (hne : d ≠ BB) :
    (x, BB) ∈ cases := by
  have hdest := Option.some.inj h
  cases hfind : cases.find? fun c => c.1 = x with
  | none =>
    rw [hfind] at hdest
    exact absurd hdest hne
  | some c =>
    rw [hfind] at hdest
    have hx : c.1 = x := by simpa using List.find?_some hfind
    have hBB : c.2 = BB := hdest
    rw [← hx, ← hBB]
    exact List.mem_of_find?_eq_some hfind

/-- A switch enters a block other than its default at the values of the cases that lead there. -/
theorem destination_iff_of_ne {cond : Value} (hnodup : (cases.map Prod.fst).Nodup) (hne : d ≠ BB) :
    (Opcode.switch cond d cases).destination x = some BB ↔ (x, BB) ∈ cases := by
  constructor
  · exact fun h => mem_of_destination h hne
  · intro h
    rw [Opcode.destination, find_case hnodup h]
    rfl

/-- A switch goes to the default block if no case has the value, or if one does that
leads there. -/
theorem destination_default {cond : Value} (hnodup : (cases.map Prod.fst).Nodup) :
    (Opcode.switch cond d cases).destination x = some d ↔
      (∀ c ∈ cases, c.1 ≠ x) ∨ (x, d) ∈ cases := by
  constructor
  · intro h
    by_cases hcase : ∀ c ∈ cases, c.1 ≠ x
    · exact .inl hcase
    · obtain ⟨⟨y, BB⟩, hc, hx⟩ : ∃ c ∈ cases, c.1 = x := by simpa using hcase
      obtain rfl : y = x := hx
      rw [Opcode.destination, find_case hnodup hc] at h
      obtain rfl : BB = d := Option.some.inj h
      exact .inr hc
  · rintro (hnone | hcase)
    · rw [Opcode.destination, find_case_eq_none hnone]
      rfl
    · rw [Opcode.destination, find_case hnodup hcase]
      rfl

end Cases

end Kint
