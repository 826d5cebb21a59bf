import Kint.Address
import Kint.Iteration
import Kint.LLVM.Builder

/-!
# The array checks of `IntRewrite`

For a `getelementptr` the pass compares the index of every array step with the number of
elements, in one unsigned comparison that is to catch negative indices as well.  The comparison
is made in the type of the index, and the number of elements is converted into that type.  This
works as long as the number is non-negative there (`FitsIndex`); for a narrow index it is cut
off, and the check misses negative indices or reports good ones (`insertArrayCheck_exact_iff`).

## One step

`OutOfBounds` is the condition that is meant: as a signed integer the index is negative or above
the number of elements.  `comparison` is the one that is made.  Both are unsigned bounds,
`lastIndex` and `cutBound`, so that they agree exactly if these do (`FitsIndex.comparison_iff`).

## The whole check

The condition of a `getelementptr` is the disjunction of the comparisons of its array steps, and
the steps are those of the instruction (`gepSteps`), whose types say which of them go into
arrays.  That each comparison is right is enough for the check to be right, but it is not
necessary:

* a constant index that is out of bounds makes the whole check true;
* an index that is used by several steps has to be below the least of their bounds only.

`FitsIndices` takes this into account, and `insertArrayCheck_exact_iff` says that the check of a
`getelementptr` is exact for all values of its indices if and only if it holds.  For the other
direction there are values that show the difference: one index has the value in question and the
others are zero (`oneIndex`).
-/

namespace Kint.IntRewrite

open Iteration

/-- What a `gep_type_iterator` points to: the type that is stepped into, and the
operand. -/
abbrev GepStep := Ty × Value

section ArrayCheck

variable (P : Program)

/-- The steps from `gep_type_begin` to `gep_type_end` from a type on: the first
step is that of the pointer itself. -/
def gepStepsFrom : Option Ty → List Value → List GepStep
  | some T, V :: Vs =>
    (T, V) :: gepStepsFrom (match T with | .ptr elem => some elem | T => P.typeAtIndex T V) Vs
  | _, _ => []

/-- The steps of a `getelementptr`. -/
def gepSteps (i : InstId) : List GepStep :=
  match (P.inst i).op with
  | .gep base idx => gepStepsFrom P (some (P.typeOf base)) idx
  | _ => []

/-- `INT_MAX` -/
def INT_MAX : ℕ := 2147483647

/-- The number that an index is compared with, for `n` elements: `a[0]` and `a[1]`
are idioms used at the end of a struct. -/
def upperBound (n : ℕ) : ℕ := if n ≤ 1 then INT_MAX else n

/-- The loop of `insertArrayCheck`, with the check so far; an index that is no
integer fails an assertion. -/
def arrayChecks : Option Built → List GepStep → Except Stop (Option Built)
  | V, [] => .ok V
  | V, (T, Idx) :: steps =>
    match T with
    | .array n _ =>
      match P.typeOf Idx with
      | .int w =>
        let Check : Built := .icmp .ugt (.value Idx) (.getInt (.ofNat w (upperBound n)))
        arrayChecks (some (match V with
          | some V => .binary .or V Check
          | none => Check)) steps
      | _ => .error .fatal
    | _ => arrayChecks V steps

/-- `insertArrayCheck`: the condition that is inserted, if there is one. -/
def insertArrayCheck (i : InstId) : Except Stop (Option Built) := arrayChecks P none (gepSteps P i)

end ArrayCheck

/-! ## One comparison -/

/-- As a signed integer of its width, the index is negative or greater than the
number of elements. -/
def OutOfBounds (n : ℕ) (x : APInt) : Prop := x.bits.toInt < 0 ∨ (upperBound n : ℤ) < x.bits.toInt

instance (n : ℕ) (x : APInt) : Decidable (OutOfBounds n x) :=
  inferInstanceAs (Decidable (_ ∨ _))

/-- The number of elements as the comparison has it: converted into the type of an index of
`w` bits, which keeps the low bits only. -/
def cutBound (w n : ℕ) : ℕ := upperBound n % 2 ^ w

/-- The greatest index of `w` bits that is in bounds, as an unsigned number. -/
def lastIndex (w n : ℕ) : ℕ := min (upperBound n) (2 ^ (w - 1) - 1)

/-- The number of elements is a non-negative signed integer of the width of the
index, or becomes the largest one when it is converted. -/
def FitsIndex (n w : ℕ) : Prop := cutBound w n = lastIndex w n

/-- What the inserted comparison computes. -/
def comparison (n : ℕ) (x : APInt) : Bool := decide (cutBound x.width n < x.toNat)

theorem comparison_eq_true {n : ℕ} {x : APInt} :
    comparison n x = true ↔ upperBound n % 2 ^ x.width < x.toNat := decide_eq_true_iff

/-- The negative integers are those with a large unsigned number. -/
theorem toInt_neg_iff {w : ℕ} (x : BitVec w) : x.toInt < 0 ↔ 0 < w ∧ 2 ^ (w - 1) ≤ x.toNat := by
  have hx := x.isLt
  cases w with
  | zero => simp [BitVec.eq_nil x]
  | succ w =>
    rw [BitVec.toInt_eq_toNat_cond, Nat.pow_succ, Nat.add_sub_cancel]
    rw [Nat.pow_succ] at hx
    split <;> omega

/-- The signed value of an index from its unsigned one. -/
theorem toInt_cases {w : ℕ} (x : BitVec (w + 1)) :
    (x.toNat < 2 ^ w ∧ x.toInt = x.toNat) ∨ (2 ^ w ≤ x.toNat ∧ x.toInt < 0) := by
  rcases Nat.lt_or_ge x.toNat (2 ^ w) with h | h
  · refine .inl ⟨h, BitVec.toInt_eq_toNat_of_lt ?_⟩
    rw [Nat.pow_succ]
    omega
  · exact .inr ⟨h, (toInt_neg_iff x).mpr ⟨Nat.succ_pos w, by simpa using h⟩⟩

/-- Both signed bounds as one unsigned bound: this is what a single comparison has to
express. -/
theorem outOfBounds_iff {n : ℕ} {x : APInt} : OutOfBounds n x ↔ lastIndex x.width n < x.toNat := by
  obtain ⟨w, x⟩ := x
  show (x.toInt < 0 ∨ (upperBound n : ℤ) < x.toInt) ↔
    min (upperBound n) (2 ^ (w - 1) - 1) < x.toNat
  cases w with
  | zero => simp [BitVec.eq_nil x]
  | succ w =>
    have hpos := Nat.two_pow_pos w
    rw [Nat.add_sub_cancel]
    rcases toInt_cases x with ⟨hlt, hint⟩ | ⟨hle, hint⟩ <;> omega

theorem cutBound_lt (w n : ℕ) : cutBound w n < 2 ^ w := Nat.mod_lt _ (Nat.two_pow_pos w)

theorem lastIndex_lt (w n : ℕ) : lastIndex w n < 2 ^ w := by
  have hpos := Nat.two_pow_pos (w - 1)
  have hle : 2 ^ (w - 1) ≤ 2 ^ w := Nat.pow_le_pow_right Nat.two_pos (Nat.sub_le w 1)
  have hmin : lastIndex w n ≤ 2 ^ (w - 1) - 1 := Nat.min_le_right _ _
  omega

/-- The comparison of one step is exact where the number of elements fits. -/
theorem FitsIndex.comparison_iff {n : ℕ} {x : APInt} (h : FitsIndex n x.width) :
    comparison n x = true ↔ OutOfBounds n x := by
  rw [comparison, decide_eq_true_iff, outOfBounds_iff, h]

/-! ## All steps of a computation -/

section Steps

variable {P : Program} {I : InstId}

/-- The step is an array step with an index out of bounds. -/
def BadStep (ρ : Env P) (s : GepStep) : Prop :=
  ∃ n elem x, s.1 = .array n elem ∧ ρ.val s.2 = some x ∧ OutOfBounds n x

/-- The check of the step fires. -/
def fires (ρ : Env P) (s : GepStep) : Bool :=
  match s.1, ρ.val s.2 with
  | .array n _, some x => comparison n x
  | _, _ => false

/-- What a condition that may be missing evaluates to. -/
def Evaluates (ρ : Env P) (V : Option Built) (b : Bool) : Prop :=
  match V with
  | some V => V.eval ρ = some (.ofBool b)
  | none => b = false

/-- The indices of array steps are integers, as the code asserts. -/
def IntegerIndices (P : Program) (steps : List GepStep) : Prop :=
  ∀ s ∈ steps, ∀ n elem, s.1 = .array n elem → ∃ w, P.typeOf s.2 = .int w

/-- Every index of an array step has a value. -/
def Defined (ρ : Env P) (steps : List GepStep) : Prop :=
  ∀ s ∈ steps, ∀ n elem, s.1 = .array n elem → (ρ.val s.2).isSome = true

/-- The inserted condition is true exactly when an array step has an index out of
bounds; where no condition is inserted, none has. -/
def ExactCheck (ρ : Env P) (I : InstId) : Prop :=
  ∃ V b, insertArrayCheck P I = .ok V ∧ Evaluates ρ V b ∧
    (b = true ↔ ∃ s ∈ gepSteps P I, BadStep ρ s)

/-- A condition has one value. -/
theorem Evaluates.unique {ρ : Env P} {V : Option Built} {b c : Bool}
    (hb : Evaluates ρ V b) (hc : Evaluates ρ V c) : b = c := by
  cases V with
  | none => exact Eq.trans hb (Eq.symm hc)
  | some V => exact APInt.ofBool_injective (Option.some.inj (Eq.trans (Eq.symm hb) hc))

/-- The check of a step fires if it is an array step whose comparison is true. -/
theorem fires_eq_true {ρ : Env P} {s : GepStep} : fires ρ s = true ↔
    ∃ n elem x, s.1 = .array n elem ∧ ρ.val s.2 = some x ∧ comparison n x = true := by
  unfold fires
  constructor
  · intro h
    split at h
    · rename_i n elem x hT hx
      exact ⟨n, elem, x, hT, hx, h⟩
    · cases h
  · rintro ⟨n, elem, x, hT, hx, h⟩
    simp only [hT, hx, h]

/-- No assertion fails in the loop. -/
theorem arrayChecks_ok {steps : List GepStep} (hty : IntegerIndices P steps) (V : Option Built) :
    ∃ V', arrayChecks P V steps = .ok V' := by
  induction steps generalizing V with
  | nil => exact ⟨V, rfl⟩
  | cons s steps ih =>
    obtain ⟨T, Idx⟩ := s
    have hrest : IntegerIndices P steps := fun s hs => hty s (List.mem_cons_of_mem _ hs)
    cases T with
    | array n elem =>
      obtain ⟨w, hw⟩ := hty _ List.mem_cons_self n elem rfl
      simp only [arrayChecks, hw]
      exact ih hrest _
    | int | ptr | struct | func | other => exact ih hrest V

/-- The assertions hold if the loop ends. -/
theorem integerIndices_of_ok {steps : List GepStep} {V V' : Option Built}
    (h : arrayChecks P V steps = .ok V') : IntegerIndices P steps := by
  induction steps generalizing V with
  | nil => exact fun s hs => absurd hs List.not_mem_nil
  | cons s steps ih =>
    obtain ⟨T, Idx⟩ := s
    rintro s hs n elem hT
    rcases List.mem_cons.mp hs with rfl | htail
    · obtain rfl : T = .array n elem := hT
      rw [arrayChecks] at h
      cases hty : P.typeOf Idx with
      | int w => exact ⟨w, rfl⟩
      | ptr | array | struct | func | other =>
        simp only [hty] at h
        cases h
    · cases T with
      | array =>
        rw [arrayChecks] at h
        cases hty : P.typeOf Idx with
        | int w =>
          simp only [hty] at h
          exact ih h s htail n elem hT
        | ptr | array | struct | func | other =>
          simp only [hty] at h
          cases h
      | int | ptr | struct | func | other => exact ih h s htail n elem hT

/-- The loop combines the comparisons of the array steps. It is true when it was true before, or
when one of the steps fires; the induction is on the steps. -/
theorem arrayChecks_evaluates {ρ : Env P} {steps : List GepStep} {V V' : Option Built} {b : Bool}
    (hdef : Defined ρ steps) (hV : Evaluates ρ V b) (h : arrayChecks P V steps = .ok V') :
    Evaluates ρ V' (b || steps.any (fires ρ)) := by
  induction steps generalizing V b with
  | nil =>
    obtain rfl := Except.ok.inj h
    simpa using hV
  | cons s steps ih =>
    obtain ⟨T, Idx⟩ := s
    have hrest : Defined ρ steps := fun s hs => hdef s (List.mem_cons_of_mem _ hs)
    rw [List.any_cons, ← Bool.or_assoc]
    cases T with
    | array n elem =>
      obtain ⟨⟨w, x⟩, hx⟩ := Option.isSome_iff_exists.mp (hdef _ List.mem_cons_self n elem rfl)
      rw [arrayChecks] at h
      cases hty : P.typeOf Idx with
      | int w' =>
        obtain rfl : w = w' := ρ.width Idx _ _ hty hx
        simp only [hty] at h
        refine ih hrest ?_ h
        have hIdx : (Built.value Idx).eval ρ = some ⟨w, x⟩ := hx
        have hcheck : (Built.icmp .ugt (.value Idx) (.getInt (.ofNat w (upperBound n)))).eval ρ =
            some (.ofBool (comparison n ⟨w, x⟩)) :=
          Built.eval_icmp .ugt hIdx (Built.eval_getInt ρ _)
        have hfires : fires ρ (.array n elem, Idx) = comparison n ⟨w, x⟩ := by
          simp only [fires, show ρ.val Idx = _ from hx]
        rw [hfires]
        cases V with
        | none =>
          obtain rfl : b = false := hV
          simpa [Evaluates] using hcheck
        | some V => exact Built.eval_or hV hcheck
      | ptr | array | struct | func | other =>
        simp only [hty] at h
        cases h
    | int | ptr | struct | func | other =>
      refine ih hrest ?_ h
      simpa [fires] using hV

/-- The check is exact when the comparisons say what the bounds say. -/
theorem exactCheck_iff {ρ : Env P} (hty : IntegerIndices P (gepSteps P I))
    (hdef : Defined ρ (gepSteps P I)) : ExactCheck ρ I ↔
      ((∃ s ∈ gepSteps P I, fires ρ s = true) ↔ ∃ s ∈ gepSteps P I, BadStep ρ s) := by
  obtain ⟨V, hV⟩ := arrayChecks_ok hty none
  have hnone : Evaluates ρ none false := rfl
  have heval := arrayChecks_evaluates hdef hnone hV
  rw [Bool.false_or] at heval
  rw [← List.any_eq_true]
  constructor
  · rintro ⟨V', b, hV', hb, hiff⟩
    obtain rfl := Except.ok.inj (hV.symm.trans hV')
    rwa [hb.unique heval] at hiff
  · exact fun hiff => ⟨V, _, hV, heval, hiff⟩

/-! ## When the check is exact -/

variable (P I) in
/-- The numbers of elements of the array steps with the index `V`. -/
def indexCounts (V : Value) : List ℕ :=
  (gepSteps P I).filterMap fun s =>
    match s.1 with
    | .array n _ => if s.2 = V then some n else none
    | _ => none

/-- The numbers of elements with which an index is compared. -/
theorem mem_indexCounts {V : Value} {n : ℕ} :
    n ∈ indexCounts P I V ↔ ∃ elem, (.array n elem, V) ∈ gepSteps P I := by
  unfold indexCounts
  rw [List.mem_filterMap]
  constructor
  · rintro ⟨⟨T, Idx⟩, hs, h⟩
    cases T with
    | array n' elem =>
      obtain ⟨rfl, hn⟩ := Option.ite_none_right_eq_some.mp h
      obtain rfl := Option.some.inj hn
      exact ⟨elem, hs⟩
    | int | ptr | struct | func | other => cases h
  · rintro ⟨elem, hs⟩
    exact ⟨_, hs, if_pos rfl⟩

variable (P I) in
/-- The condition under which the check of a `getelementptr` is exact.

* `constants`: an integer constant among the indices is caught by its comparison just when
  one is out of bounds;
* `others`: unless a constant is out of bounds, which makes the check true for all values of
  the other indices, the least number that such an index of `w` bits is compared with is the
  least of the last indices that are in bounds. -/
structure FitsIndices : Prop where
  constants : (∃ c, ∃ n ∈ indexCounts P I (.constInt c), cutBound c.width n < c.toNat) ↔
    ∃ c, ∃ n ∈ indexCounts P I (.constInt c), OutOfBounds n c
  others : (¬∃ c, ∃ n ∈ indexCounts P I (.constInt c), OutOfBounds n c) →
    ∀ V w, (∀ c, V ≠ .constInt c) → P.typeOf V = .int w →
      ((indexCounts P I V).map (cutBound w)).min? = ((indexCounts P I V).map (lastIndex w)).min?

/-- A number is above an element of a list just when it is above the least one. -/
theorem exists_lt_iff_min? {l : List ℕ} {x : ℕ} :
    (∃ a ∈ l, a < x) ↔ ∃ m, l.min? = some m ∧ m < x := by
  constructor
  · rintro ⟨a, ha, hlt⟩
    cases hm : l.min? with
    | none =>
      rw [List.min?_eq_none_iff.mp hm] at ha
      cases ha
    | some m => exact ⟨m, rfl, ((List.min?_eq_some_iff.mp hm).2 a ha).trans_lt hlt⟩
  · rintro ⟨m, hm, hlt⟩
    exact ⟨m, (List.min?_eq_some_iff.mp hm).1, hlt⟩

/-- Lists of bounds that reject the same numbers have the same least bound. -/
theorem min?_eq_of_forall {l l' : List ℕ} {N : ℕ} (hl : ∀ a ∈ l, a < N) (hl' : ∀ a ∈ l', a < N)
    (hnil : l = [] ↔ l' = []) (h : ∀ x < N, (∃ a ∈ l, a < x) ↔ ∃ a ∈ l', a < x) :
    l.min? = l'.min? := by
  cases hm : l.min? with
  | none => rw [hnil.mp (List.min?_eq_none_iff.mp hm), List.min?_nil]
  | some m =>
    cases hm' : l'.min? with
    | none =>
      rw [hnil.mpr (List.min?_eq_none_iff.mp hm')] at hm
      cases hm
    | some m' =>
      -- the greater of two different bounds is rejected by the other one only
      have hle : ∀ x < N, m < x ↔ m' < x := by
        intro x hx
        have hiff := h x hx
        rw [exists_lt_iff_min?, exists_lt_iff_min?, hm, hm'] at hiff
        simpa using hiff
      have hm_lt := hle m (hl m (List.min?_eq_some_iff.mp hm).1)
      have hm'_lt := hle m' (hl' m' (List.min?_eq_some_iff.mp hm').1)
      rw [show m = m' by omega]

section Above

variable {f g : ℕ → ℕ → ℕ} {ρ : Env P}

variable (P I) in
/-- Some index is above the bound `f` of one of its steps. -/
def Above (f : ℕ → ℕ → ℕ) (ρ : Env P) : Prop :=
  ∃ V, ∃ n ∈ indexCounts P I V, ∃ x, ρ.val V = some x ∧ f x.width n < x.toNat

variable (P I) in
/-- Some constant index is. -/
def ConstantAbove (f : ℕ → ℕ → ℕ) : Prop :=
  ∃ c, ∃ n ∈ indexCounts P I (.constInt c), f c.width n < c.toNat

theorem above_cutBound : Above P I cutBound ρ ↔ ∃ s ∈ gepSteps P I, fires ρ s = true := by
  simp only [Above, mem_indexCounts, fires_eq_true, comparison, decide_eq_true_iff]
  constructor
  · rintro ⟨V, n, ⟨elem, hs⟩, x, hx, h⟩
    exact ⟨_, hs, n, elem, x, rfl, hx, h⟩
  · rintro ⟨⟨T, Idx⟩, hs, n, elem, x, rfl, hx, h⟩
    exact ⟨Idx, n, ⟨elem, hs⟩, x, hx, h⟩

theorem above_lastIndex : Above P I lastIndex ρ ↔ ∃ s ∈ gepSteps P I, BadStep ρ s := by
  simp only [Above, mem_indexCounts, BadStep, outOfBounds_iff]
  constructor
  · rintro ⟨V, n, ⟨elem, hs⟩, x, hx, h⟩
    exact ⟨_, hs, n, elem, x, rfl, hx, h⟩
  · rintro ⟨⟨T, Idx⟩, hs, n, elem, x, rfl, hx, h⟩
    exact ⟨Idx, n, ⟨elem, hs⟩, x, hx, h⟩

/-- A constant index has its value whatever the others are. -/
theorem ConstantAbove.above (h : ConstantAbove P I f) : Above P I f ρ := by
  obtain ⟨c, n, hn, hlt⟩ := h
  exact ⟨_, n, hn, c, ρ.constInt c, hlt⟩

variable (P) in
/-- The index `V` is `x`, and the others that are no constants are zero. -/
def oneIndex (V : Value) (x : ℕ) : Env P := .ofNumbers P fun U => if U = V then x else 0

theorem val_oneIndex {U V : Value} {w x : ℕ} (hU : ∀ c, U ≠ .constInt c)
    (hty : P.typeOf U = .int w) :
    (oneIndex P V x).val U = some (.ofNat w (if U = V then x else 0)) := by
  cases U with
  | constInt c => exact absurd rfl (hU c)
  | _ => simp only [oneIndex, Env.ofNumbers, hty]

theorem defined_oneIndex {V : Value} {x : ℕ} (hty : IntegerIndices P (gepSteps P I)) :
    Defined (oneIndex P V x) (gepSteps P I) := by
  rintro ⟨T, Idx⟩ hs n elem hT
  obtain ⟨w, hw⟩ := hty _ hs n elem hT
  by_cases hc : ∃ c, Idx = .constInt c
  · obtain ⟨c, rfl⟩ := hc
    exact Option.isSome_iff_exists.mpr ⟨c, Env.constInt _ c⟩
  · rw [val_oneIndex (fun c h => hc ⟨c, h⟩) hw]
    rfl

/-- With one index that is not zero, it or a constant is above. The other indices are zero and above
nothing, so that only the steps that have the value as their index are left. -/
theorem above_oneIndex {V : Value} {w x : ℕ} (hty : IntegerIndices P (gepSteps P I))
    (hV : ∀ c, V ≠ .constInt c) (hVty : P.typeOf V = .int w) (hx : x < 2 ^ w) :
    Above P I f (oneIndex P V x) ↔
      ConstantAbove P I f ∨ ∃ n ∈ indexCounts P I V, f w n < x := by
  have hnat : (APInt.ofNat w x).toNat = x := by
    show (BitVec.ofNat w x).toNat = x
    rw [BitVec.toNat_ofNat, Nat.mod_eq_of_lt hx]
  constructor
  · rintro ⟨U, n, hn, y, hy, hlt⟩
    by_cases hc : ∃ c, U = .constInt c
    · obtain ⟨c, rfl⟩ := hc
      obtain rfl := Option.some.inj ((Env.constInt _ c).symm.trans hy)
      exact .inl ⟨c, n, hn, hlt⟩
    · obtain ⟨elem, hs⟩ := mem_indexCounts.mp hn
      obtain ⟨w', hw'⟩ := hty _ hs n elem rfl
      rw [val_oneIndex (fun c h => hc ⟨c, h⟩) hw'] at hy
      obtain rfl := Option.some.inj hy
      by_cases hUV : U = V
      · subst hUV
        obtain rfl := Ty.int.inj (hVty.symm.trans hw')
        rw [if_pos rfl, hnat] at hlt
        exact .inr ⟨n, hn, hlt⟩
      · rw [if_neg hUV] at hlt
        simp [APInt.ofNat, APInt.toNat] at hlt
  · rintro (h | ⟨n, hn, hlt⟩)
    · exact h.above
    · refine ⟨V, n, hn, _, val_oneIndex hV hVty, ?_⟩
      rwa [if_pos rfl, hnat]

/-- Where only constants may be above. -/
theorem above_zero (hty : IntegerIndices P (gepSteps P I)) :
    Above P I f (.ofNumbers P fun _ => 0) ↔ ConstantAbove P I f := by
  constructor
  · rintro ⟨U, n, hn, y, hy, hlt⟩
    by_cases hc : ∃ c, U = .constInt c
    · obtain ⟨c, rfl⟩ := hc
      obtain rfl := Option.some.inj ((Env.constInt _ c).symm.trans hy)
      exact ⟨c, n, hn, hlt⟩
    · obtain ⟨elem, hs⟩ := mem_indexCounts.mp hn
      obtain ⟨w', hw'⟩ := hty _ hs n elem rfl
      have hzero : (fun V : Value => if V = U then 0 else 0) = fun _ => 0 := by
        funext V
        exact ite_self 0
      have hval := val_oneIndex (V := U) (x := 0) (fun c h => hc ⟨c, h⟩) hw'
      rw [oneIndex, hzero, hy, ite_self] at hval
      obtain rfl := Option.some.inj hval
      simp [APInt.ofNat, APInt.toNat] at hlt
  · exact ConstantAbove.above

/-- Unless a constant is above, bounds that are passed alike by every value of one index have the
same least number for it. -/
theorem min?_eq_of_above {V : Value} {w : ℕ} (hty : IntegerIndices P (gepSteps P I))
    (hf : ∀ n, f w n < 2 ^ w) (hg : ∀ n, g w n < 2 ^ w) (hcf : ¬ConstantAbove P I f)
    (hcg : ¬ConstantAbove P I g) (hV : ∀ c, V ≠ .constInt c) (hVty : P.typeOf V = .int w)
    (h : ∀ x, Above P I f (oneIndex P V x) ↔ Above P I g (oneIndex P V x)) :
    ((indexCounts P I V).map (f w)).min? = ((indexCounts P I V).map (g w)).min? := by
  refine min?_eq_of_forall (N := 2 ^ w) ?_ ?_ (by simp) fun x hx => ?_
  · simpa using fun n _ => hf n
  · simpa using fun n _ => hg n
  · have hiff := h x
    rw [above_oneIndex hty hV hVty hx, above_oneIndex hty hV hVty hx, or_iff_right hcf,
      or_iff_right hcg] at hiff
    simpa using hiff

/-- The converse, for all indices: bounds with the same least number for each index are passed
alike. -/
theorem above_congr (hty : IntegerIndices P (gepSteps P I)) (hcf : ¬ConstantAbove P I f)
    (hcg : ¬ConstantAbove P I g)
    (hmin : ∀ V w, (∀ c, V ≠ .constInt c) → P.typeOf V = .int w →
      ((indexCounts P I V).map (f w)).min? = ((indexCounts P I V).map (g w)).min?) :
    Above P I f ρ ↔ Above P I g ρ := by
  refine exists_congr fun V => ?_
  by_cases hV : ∃ c, V = .constInt c
  · obtain ⟨c, rfl⟩ := hV
    refine iff_of_false ?_ ?_ <;> rintro ⟨n, hn, x, hx, hlt⟩ <;>
      obtain rfl := Option.some.inj ((ρ.constInt c).symm.trans hx)
    · exact hcf ⟨c, n, hn, hlt⟩
    · exact hcg ⟨c, n, hn, hlt⟩
  · cases hx : ρ.val V with
    | none => simp
    | some x =>
      by_cases hcounts : indexCounts P I V = []
      · simp [hcounts]
      · obtain ⟨n, hn⟩ := List.exists_mem_of_ne_nil _ hcounts
        obtain ⟨elem, hs⟩ := mem_indexCounts.mp hn
        obtain ⟨w, hw⟩ := hty _ hs n elem rfl
        obtain rfl := ρ.width V w x hw hx
        have hiff : (∃ a ∈ (indexCounts P I V).map (f x.width), a < x.toNat) ↔
            ∃ a ∈ (indexCounts P I V).map (g x.width), a < x.toNat := by
          rw [exists_lt_iff_min?, exists_lt_iff_min?, hmin V _ (fun c h => hV ⟨c, h⟩) hw]
        simpa using hiff

end Above

/-- For every `getelementptr`, with steps of any types and indices of any widths, the inserted
condition is exact on all values of the indices if and only if the numbers of elements fit the
widths of the indices that they are compared with (`FitsIndices`). -/
theorem insertArrayCheck_exact_iff (P : Program) (I : InstId)
    (hty : IntegerIndices P (gepSteps P I)) :
    (∀ ρ : Env P, Defined ρ (gepSteps P I) → ExactCheck ρ I) ↔ FitsIndices P I := by
  have hexact : ∀ ρ : Env P, Defined ρ (gepSteps P I) →
      (ExactCheck ρ I ↔ (Above P I cutBound ρ ↔ Above P I lastIndex ρ)) := fun ρ hdef => by
    rw [exactCheck_iff hty hdef, above_cutBound, above_lastIndex]
  have hbad : (∃ c, ∃ n ∈ indexCounts P I (.constInt c), OutOfBounds n c) ↔
      ConstantAbove P I lastIndex := by
    simp only [outOfBounds_iff, ConstantAbove]
  constructor
  · intro h
    have hzero : ∀ V x,
        Above P I cutBound (oneIndex P V x) ↔ Above P I lastIndex (oneIndex P V x) :=
      fun V x => (hexact _ (defined_oneIndex hty)).mp (h _ (defined_oneIndex hty))
    have hdef : Defined (.ofNumbers P fun _ => 0) (gepSteps P I) := by
      have hone := defined_oneIndex (V := .inst 0) (x := 0) hty
      rwa [oneIndex, funext fun V => ite_self 0] at hone
    have hconst := (hexact _ hdef).mp (h _ hdef)
    rw [above_zero hty, above_zero hty] at hconst
    refine ⟨hconst.trans hbad.symm, fun hgood V w hV hVty => ?_⟩
    rw [hbad] at hgood
    exact min?_eq_of_above hty (cutBound_lt w) (lastIndex_lt w) (mt hconst.mp hgood) hgood hV hVty
      (hzero V)
  · intro hfits ρ hdef
    rw [hexact ρ hdef]
    by_cases hconst : ConstantAbove P I lastIndex
    · exact iff_of_true (ConstantAbove.above (hfits.constants.mpr (hbad.mpr hconst))) hconst.above
    · have hcut : ¬ConstantAbove P I cutBound := fun h => hconst (hbad.mp (hfits.constants.mp h))
      exact above_congr hty hcut hconst (hfits.others (mt hbad.mp hconst))

/-- A function that takes the address of an element of a global array of 200 bytes;
the index has eight bits. -/
def tableProgram : Program where
  insts := [
    ⟨0, .ptr (.int 8), .gep (.global 0) [.constInt (.ofNat 64 0), .argument 0 0], none, none⟩,
    ⟨0, .other, .ret (some (.inst 0)), none, none⟩]
  blocks := [⟨0, [0], 1, []⟩]
  funcs := [⟨⟨"at", .external, "a.c"⟩, false, [.int 8], .ptr (.int 8), [0]⟩]
  globals := [⟨⟨"table", .external, "a.c"⟩, .array 200 (.int 8), none⟩]
  structs := []
  consts := []

/-- The index is `-60`, and the inserted condition is false. -/
theorem negative_index_missed :
    ¬ ExactCheck (.ofNumbers tableProgram fun _ => 196) 0 := by
  rintro ⟨V, b, hV, hb, hiff⟩
  have hcheck : insertArrayCheck tableProgram 0 =
      .ok (some (.icmp .ugt (.value (.argument 0 0)) (.getInt (.ofNat 8 200)))) := by decide
  obtain rfl := Except.ok.inj (hV.symm.trans hcheck)
  have hfalse : Evaluates (.ofNumbers tableProgram fun _ => 196)
      (some (.icmp .ugt (.value (.argument 0 0)) (.getInt (.ofNat 8 200)))) false := by
    unfold Evaluates
    decide
  have hbad : b = true := hiff.mpr ⟨(.array 200 (.int 8), .argument 0 0), by decide, 200, .int 8,
    .ofNat 8 196, rfl, by decide, by decide⟩
  rw [hb.unique hfalse] at hbad
  cases hbad

theorem table_indices : IntegerIndices tableProgram (gepSteps tableProgram 0) := by
  have hsteps : gepSteps tableProgram 0 = [(.ptr (.array 200 (.int 8)), .constInt (.ofNat 64 0)),
      (.array 200 (.int 8), .argument 0 0)] := by decide
  intro s hs n elem hT
  rw [hsteps] at hs
  rcases List.mem_pair.mp hs with rfl | rfl
  · cases hT
  · exact ⟨8, rfl⟩

/-- The array of 200 bytes is too large for an index of eight bits. -/
theorem table_not_exact :
    ¬∀ ρ : Env tableProgram, Defined ρ (gepSteps tableProgram 0) → ExactCheck ρ 0 := by
  rw [insertArrayCheck_exact_iff tableProgram 0 table_indices]
  intro hfits
  have hcounts : indexCounts tableProgram 0 (.argument 0 0) = [200] := by decide
  have hmin := hfits.others (fun ⟨c, n, hn, _⟩ => by
    obtain ⟨elem, hs⟩ := mem_indexCounts.mp hn
    have hsteps : gepSteps tableProgram 0 = [(.ptr (.array 200 (.int 8)),
      .constInt (.ofNat 64 0)), (.array 200 (.int 8), .argument 0 0)] := by decide
    rw [hsteps] at hs
    rcases List.mem_pair.mp hs with h | h <;> cases h) (.argument 0 0) 8 nofun rfl
  rw [hcounts] at hmin
  revert hmin
  decide

end Steps

end Kint.IntRewrite
