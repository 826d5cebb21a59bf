import Kint.Taint.Pass

/-!
# Running a part of the pass again

When nothing that a part of `TaintPass` has read is added to afterwards, running the same part
again in a later state adds nothing: it reads what it has read and finds everything it adds in
place.  `Replays` states this for every part of the pass, `Delivers` states in addition what is
in place, and both go through sequences and loops.

## Main definitions

* `Timely t`: in the trace `t`, no entry grows after it was read.
* `Evolves s s' t`: the entries of `s` grow to those of `s'`, and only those change that grow
  according to `t`.  A later state is one that the first state evolves to.
* `Grows f`, `Replays f`, `Delivers f C`: what `f` does to the taints; that it does nothing when
  it is run again; and that `C` holds after `f` for as long as what it has read stays.

## Why this is about traces

That a part has seen the final taints cannot be told from states alone: what it has read may
have grown in between and been read by others.  A trace has the reads and the growths in their
order, and a loop is taken apart at each of its elements: what comes later is the rest of the
loop and whatever follows it (`forEach_at`).
-/

namespace Kint.Taint

open Iteration

/-- The later event does not add to an entry that the earlier one has read. -/
def Undisturbed : Event → Event → Prop
  | .read es _, .grow e => e ∉ es
  | _, _ => True

instance : DecidableRel Undisturbed := fun x y => by
  cases x <;> cases y <;> unfold Undisturbed <;> infer_instance

/-- No entry grows after it was read. -/
def Timely (t : List Event) : Prop := t.Pairwise Undisturbed

instance (t : List Event) : Decidable (Timely t) :=
  inferInstanceAs (Decidable (t.Pairwise Undisturbed))

/-- The event is the reading of a value whose own taint lacks a descriptor of
another entry it depends on. -/
def isMasked : Event → Bool
  | .read _ masked => masked
  | _ => false

/-- No masked taint was read. -/
def Unmasked (t : List Event) : Prop := ∀ x ∈ t, isMasked x = false

instance (t : List Event) : Decidable (Unmasked t) :=
  inferInstanceAs (Decidable (∀ x ∈ t, isMasked x = false))

/-- The entries of `s` grow to those of `s'`, and only those that grow according
to `t` change. -/
structure Evolves (s s' : TaintMap) (t : List Event) : Prop where
  le : ∀ e, get s e ⊆ get s' e
  source : ∀ ID, (s.gts ID).2 = true → (s'.gts ID).2 = true
  same : ∀ e, .grow e ∉ t → get s' e = get s e

theorem Evolves.refl (s : TaintMap) : Evolves s s [] :=
  ⟨fun _ => Finset.Subset.refl _, fun _ => id, fun _ _ => rfl⟩

theorem Evolves.trans {a b c : TaintMap} {t t' : List Event} (h : Evolves a b t)
    (h' : Evolves b c t') : Evolves a c (t ++ t') where
  le e := (h.le e).trans (h'.le e)
  source ID hID := h'.source ID (h.source ID hID)
  same e he := by
    rw [List.mem_append, not_or] at he
    exact (h'.same e he.2).trans (h.same e he.1)

/-- Developing according to the trace is sequential. -/
theorem sequential_evolves :
    Sequential fun s (r : Report TaintMap Event) => Evolves s r.state r.trace where
  idle := Evolves.refl
  andThen := Evolves.trans

/-- What every part of the pass does to the taints. -/
def Grows (f : Pass TaintMap Event) : Prop :=
  ∀ s r, f s = .ok r → Evolves s r.state r.trace

/-- Running `f` again, in a later state in which what it has read is as it was,
leaves that state as it is. -/
def Replays (f : Pass TaintMap Event) : Prop :=
  ∀ s r t' s', f s = .ok r → Evolves r.state s' t' → Timely (r.trace ++ t') →
    ∃ r', f s' = .ok r' ∧ r'.state = s'

/-- After `f`, and as long as what it has read is as it was, `C` holds. -/
def Delivers (f : Pass TaintMap Event) (C : TaintMap → Prop) : Prop :=
  ∀ s r t' s', f s = .ok r → Evolves r.state s' t' → Timely (r.trace ++ t') →
    Unmasked r.trace → C s'

/-! ## Sequences and loops -/

section Compose

variable {f g : Pass TaintMap Event} {ι : Type*} {h : ι → Pass TaintMap Event} {xs : List ι}

theorem grows_idle : Grows fun s => .ok (.idle s) := by
  intro s r h
  obtain rfl := Except.ok.inj h
  exact Evolves.refl s

/-- Doing nothing is repeated by doing nothing. -/
theorem replays_idle : Replays fun s => .ok (.idle s) :=
  fun _ _ _ s' _ _ _ => ⟨.idle s', rfl, rfl⟩

/-- A composition makes the taints grow if its parts do. -/
theorem Grows.seq (hf : Grows f) (hg : Grows g) : Grows (f.seq g) := by
  intro s r h
  obtain ⟨a, b, ha, hb, rfl⟩ := Pass.seq_eq_ok.mp h
  exact (hf s a ha).trans (hg _ b hb)

theorem grows_forEach (hh : ∀ x ∈ xs, Grows (h x)) : Grows (forEach h xs) :=
  fun _ _ hr => sequential_evolves.forEach_spec hh hr

/-- What follows the first of two parts: the second one and what comes later. -/
theorem later_first {b : Report TaintMap Event} {s s' : TaintMap} {t t' : List Event}
    (hb : Evolves s b.state b.trace) (hs' : Evolves b.state s' t')
    (ht : Timely ((t ++ b.trace) ++ t')) :
    Evolves s s' (b.trace ++ t') ∧ Timely (t ++ (b.trace ++ t')) :=
  ⟨hb.trans hs', by rwa [← List.append_assoc]⟩

/-- The later part of a timely trace is timely. -/
theorem timely_second {t t' t'' : List Event} (ht : Timely ((t ++ t') ++ t'')) :
    Timely (t' ++ t'') := by
  rw [List.append_assoc] at ht
  exact (List.pairwise_append.mp ht).2.1

/-- A composition adds nothing when it is run again: for its first part, the second one is what
comes later. -/
theorem Replays.seq (hf : Replays f) (hg : Replays g) (hgrow : Grows g) :
    Replays (f.seq g) := by
  intro s r t' s' h hs' ht
  obtain ⟨a, b, ha, hb, rfl⟩ := Pass.seq_eq_ok.mp h
  obtain ⟨hs₁, ht₁⟩ := later_first (hgrow _ b hb) hs' ht
  obtain ⟨a', ha', rfl⟩ := hf s a _ s' ha hs₁ ht₁
  obtain ⟨b', hb', hst⟩ := hg _ b t' _ hb hs' (timely_second ht)
  exact ⟨_, Pass.seq_eq_ok.mpr ⟨a', b', ha', hb', rfl⟩, hst⟩

/-- A composition delivers what its parts do, the first one as long as the second one leaves alone
what it has read. -/
theorem Delivers.seq {C D : TaintMap → Prop} (hf : Delivers f C) (hg : Delivers g D)
    (hgrow : Grows g) : Delivers (f.seq g) fun s => C s ∧ D s := by
  intro s r t' s' h hs' ht hu
  obtain ⟨a, b, ha, hb, rfl⟩ := Pass.seq_eq_ok.mp h
  obtain ⟨hs₁, ht₁⟩ := later_first (hgrow _ b hb) hs' ht
  refine ⟨hf s a _ s' ha hs₁ ht₁ fun es he => hu es ?_,
    hg _ b t' s' hb hs' (timely_second ht) fun es he => hu es ?_⟩
  · exact List.mem_append_left _ he
  · exact List.mem_append_right _ he

/-- The rule of consequence for what is delivered. -/
theorem Delivers.mono {C D : TaintMap → Prop} (hf : Delivers f C) (hCD : ∀ s, C s → D s) :
    Delivers f D :=
  fun s r t' s' h hs' ht hu => hCD s' (hf s r t' s' h hs' ht hu)

/-- A loop is left in the middle for each of its elements: what comes later is
the rest of the loop and what follows it. -/
theorem forEach_at (hh : ∀ x ∈ xs, Grows (h x)) {s s' : TaintMap}
    {r : Report TaintMap Event} {t' : List Event} (hr : forEach h xs s = .ok r)
    (hs' : Evolves r.state s' t') (ht : Timely (r.trace ++ t')) :
    ∀ x ∈ xs, ∃ s₁ r₁ t₁, h x s₁ = .ok r₁ ∧ Evolves r₁.state s' t₁ ∧
      Timely (r₁.trace ++ t₁) ∧ (r.changed = false → r₁.changed = false) ∧
      (Unmasked r.trace → Unmasked r₁.trace) := by
  induction xs generalizing s r with
  | nil => intro x hx; cases hx
  | cons y ys ih =>
    intro x hx
    obtain ⟨a, b, ha, hb, rfl⟩ := Pass.seq_eq_ok.mp hr
    have htail := fun z hz => hh z (List.mem_cons_of_mem y hz)
    rcases List.mem_cons.mp hx with rfl | hx
    · obtain ⟨hs₁, ht₁⟩ := later_first (grows_forEach htail _ b hb) hs' ht
      refine ⟨s, a, _, ha, hs₁, ht₁, fun hc => (Bool.or_eq_false_iff.mp hc).1, fun hu es he => ?_⟩
      exact hu es (List.mem_append_left _ he)
    · obtain ⟨s₁, r₁, t₁, hr₁, hs₁, ht₁, hc₁, hu₁⟩ := ih htail hb hs' (timely_second ht) x hx
      refine ⟨s₁, r₁, t₁, hr₁, hs₁, ht₁, fun hc => hc₁ (Bool.or_eq_false_iff.mp hc).2,
        fun hu => hu₁ fun es he => hu es (List.mem_append_right _ he)⟩

/-- A loop adds nothing when it is run again if this is true of its body at each element. -/
theorem Replays.forEach (hh : ∀ x ∈ xs, Replays (h x)) (hgrow : ∀ x ∈ xs, Grows (h x)) :
    Replays (forEach h xs) := by
  intro s r t' s' hr hs' ht
  have hall : ∀ x ∈ xs, ∃ r', h x s' = .ok r' ∧ r'.state = s' := by
    intro x hx
    obtain ⟨s₁, r₁, t₁, hr₁, hs₁, ht₁, -, -⟩ := forEach_at hgrow hr hs' ht x hx
    exact hh x hx s₁ r₁ t₁ s' hr₁ hs₁ ht₁
  clear hr ht hh hgrow
  induction xs with
  | nil => exact ⟨_, rfl, rfl⟩
  | cons y ys ih =>
    obtain ⟨a, ha, hst⟩ := hall y List.mem_cons_self
    obtain ⟨b, hb, hst'⟩ := ih fun x hx => hall x (List.mem_cons_of_mem _ hx)
    exact ⟨_, Pass.seq_eq_ok.mpr ⟨a, b, ha, by rwa [hst], rfl⟩, hst'⟩

/-- A loop delivers what its body does at each element. -/
theorem Delivers.forEach {C : ι → TaintMap → Prop} (hh : ∀ x ∈ xs, Delivers (h x) (C x))
    (hgrow : ∀ x ∈ xs, Grows (h x)) : Delivers (forEach h xs) fun s => ∀ x ∈ xs, C x s := by
  intro s r t' s' hr hs' ht hu x hx
  obtain ⟨s₁, r₁, t₁, hr₁, hs₁, ht₁, -, hu₁⟩ := forEach_at hgrow hr hs' ht x hx
  exact hh x hx s₁ r₁ t₁ s' hr₁ hs₁ ht₁ (hu₁ hu)

end Compose

/-! ## Adding -/

/-- Adding descriptors to a value makes its entry grow. Entries of other values and of identifiers
stay as they are. -/
theorem addValue_grows {V : Value} {D : DescSet} : Grows (addValue V D) := by
  intro s r h
  obtain rfl := Except.ok.inj h
  refine ⟨fun e => ?_, fun ID => id, fun e he => ?_⟩
  · cases e with
    | id ID => exact Finset.Subset.refl _
    | value W =>
      by_cases hW : W = V
      · subst hW
        simp [get]
      · simp [get, hW]
  · cases e with
    | id ID => rfl
    | value W =>
      by_cases hW : W = V
      · subst hW
        have hD : D ⊆ s.vts W := by
          by_contra hD
          simp [hD] at he
        simp [get, Finset.union_eq_left.mpr hD]
      · simp [get, hW]

/-- The descriptors that were added to a value are there from then on. -/
theorem addValue_delivers {V : Value} {D : DescSet} :
    Delivers (addValue V D) fun s => D ⊆ s.vts V := by
  intro s r t' s' h hs' _ _
  obtain rfl := Except.ok.inj h
  refine Finset.Subset.trans ?_ (hs'.le (.value V))
  simp [get]

/-- Adding the same descriptors to a value again changes nothing. -/
theorem addValue_replays {V : Value} {D : DescSet} : Replays (addValue V D) := by
  intro s r t' s' h hs' _
  obtain rfl := Except.ok.inj h
  have hD : D ⊆ s'.vts V := by
    refine Finset.Subset.trans ?_ (hs'.le (.value V))
    simp [get]
  exact ⟨_, rfl, by simp [Finset.union_eq_left.mpr hD]⟩

/-- Adding descriptors to an identifier makes its entry grow. Nothing is done for the empty
identifier; otherwise the identifier is known from then on, and its entry grows. -/
theorem addId_grows {ID : String} {D : DescSet} {b : Bool} : Grows (addId ID D b) := by
  intro s r h
  unfold addId at h
  split at h
  · obtain rfl := Except.ok.inj h
    exact Evolves.refl s
  · rename_i hID
    obtain rfl := Except.ok.inj h
    refine ⟨fun e => ?_, fun ID' hID' => ?_, fun e he => ?_⟩
    · cases e with
      | value V => exact Finset.Subset.refl _
      | id ID' =>
        by_cases hEq : ID' = ID
        · subst hEq
          simp [get, TaintMap.getId, hID]
        · simp [get, TaintMap.getId, hEq]
    · by_cases hEq : ID' = ID
      · subst hEq
        simp [hID']
      · simpa [hEq] using hID'
    · cases e with
      | value V => rfl
      | id ID' =>
        by_cases hEq : ID' = ID
        · subst hEq
          have hD : D ⊆ (s.gts ID').1 := by
            by_contra hD
            simp [hD] at he
          simp [get, TaintMap.getId, hID, Finset.union_eq_left.mpr hD]
        · simp [get, TaintMap.getId, hEq]

/-- What `addId` has added is still there later. -/
theorem addId_later {ID : String} {D : DescSet} {b : Bool} {s s' : TaintMap}
    {r : Report TaintMap Event} {t' : List Event} (hID : ID ≠ "")
    (h : addId ID D b s = .ok r) (hs' : Evolves r.state s' t') :
    D ⊆ (s'.gts ID).1 ∧ (b = true → (s'.gts ID).2 = true) := by
  simp only [addId, hID, if_false] at h
  obtain rfl := Except.ok.inj h
  constructor
  · have hle := hs'.le (.id ID)
    simp only [get, TaintMap.getId, hID, if_false, Function.update_self] at hle
    exact Finset.subset_union_right.trans hle
  · intro hb
    exact hs'.source ID (by simp [hb])

/-- The descriptors that were added to an identifier are there from then on, unless it is the empty
string. -/
theorem addId_delivers {ID : String} {D : DescSet} {b : Bool} :
    Delivers (addId ID D b) fun s => ID ≠ "" → D ⊆ s.getId ID := by
  intro s r t' s' h hs' _ _ hID
  simpa [TaintMap.getId, hID] using (addId_later hID h hs').1

/-- Adding the same descriptors to an identifier again changes nothing. -/
theorem addId_replays {ID : String} {D : DescSet} {b : Bool} : Replays (addId ID D b) := by
  intro s r t' s' h hs' _
  by_cases hID : ID = ""
  · exact ⟨.idle s', by simp [addId, hID], rfl⟩
  · obtain ⟨hD, hb⟩ := addId_later hID h hs'
    refine ⟨_, by simp only [addId, hID, if_false]; rfl, ?_⟩
    have hbit : ((s'.gts ID).2 || b) = (s'.gts ID).2 := by
      cases b with
      | false => simp
      | true => simp [hb rfl]
    simp [Finset.union_eq_left.mpr hD, hbit]

end Kint.Taint
