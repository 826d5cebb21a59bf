import Kint.Taint.Replay
import Kint.LLVM.Reference

/-!
# When the taints are closed

`TaintPass::run` stops after a round in which no identifier received its first descriptor.  Such
a round may still have added descriptors: to values, or to identifiers that had one.  If none of
them was added to an entry after an instruction had read it, then every instruction has seen the
final taints, and the result is closed (`taintPass_closed`).  If moreover no value shadows an
identifier it takes taint from, every descriptor that flows is present.

## Main definitions

* `Flows`: what the pass is for, as an inductive relation: descriptors flow from taint sources
  along operands, from values to the identifiers that they are stored, returned or passed under,
  and from there to the values that read them.
* `Part f C`: all that is proved of a part of the pass: it grows, it replays, and it delivers
  `C`.  There is one rule for each way to put parts together, and one lemma for each function of
  the source.
* `SourceClosed`, `OperandsClosed`: the rules of the pass at an instruction.
* `QuietRounds C`: the rounds of a run that report nothing satisfy `C`.  The condition under
  which the result is closed speaks of such rounds, which the last one is.

## Main results

* `round_at`: in a round without a report, each function runs as if it came last.
* `taintPass_closed`: in a run whose quiet rounds are timely the result is closed, and where
  nothing is masked every descriptor that flows is there.
* `poll_not_closed`: a loop in which a value is read before it is tainted, and the pass stops.
-/

namespace Kint.Taint

open Iteration

section Closure

variable (L : Library) (P : Program) (callees : CalleeMap)

/-- Taint flows: descriptor `d` flows to an entry of the modules. There is one rule for each way in
which the pass adds descriptors, and the pass itself is not mentioned. In closed taints all that
flows is present (`flows_present`). -/
inductive Flows (modules : List Module) : Entry → String → Prop
  /-- A taint source has its descriptor. -/
  | source {M F i d} : M ∈ modules → F ∈ M.functions → i ∈ P.instsOf F →
      (P.inst i).taintSrc = some d → Flows modules (.value (.inst i)) d
  /-- From a taint source to its identifier and to the fields of its struct. -/
  | sourceId {M F i d d' ID} : M ∈ modules → F ∈ M.functions → i ∈ P.instsOf F →
      (P.inst i).taintSrc = some d' →
      ID ∈ getValueId L P (.inst i) ::
        fieldIds L P (P.inst i).ty (P.func F).moduleIdentifier →
      ID ≠ "" → Flows modules (.value (.inst i)) d → Flows modules (.id ID) d
  /-- From an operand to the instruction. -/
  | operand {M F i V e d} : M ∈ modules → F ∈ M.functions → i ∈ P.instsOf F →
      (∀ callee args, (P.inst i).op ≠ .call callee args) → V ∈ (P.inst i).op.operands →
      e ∈ dependsOn L P callees V → Flows modules e d →
      Flows modules (.value (.inst i)) d
  /-- From an operand of a store to its identifier. -/
  | store {M F i v p V e d ID} : M ∈ modules → F ∈ M.functions → i ∈ P.instsOf F →
      (P.inst i).op = .store v p → (P.inst i).id = some ID → ID ≠ "" →
      V ∈ (P.inst i).op.operands → e ∈ dependsOn L P callees V → Flows modules e d →
      Flows modules (.id ID) d
  /-- From a returned value to the return identifier. -/
  | ret {M F i v V e d} : M ∈ modules → F ∈ M.functions → i ∈ P.instsOf F →
      (P.inst i).op = .ret v → V ∈ (P.inst i).op.operands →
      e ∈ dependsOn L P callees V → Flows modules e d →
      Flows modules (.id (getRetId L P F)) d
  /-- From an argument of a call to the argument of a callee. -/
  | argument {M F i callee args f e d} {arg : Value × ℕ} : M ∈ modules → F ∈ M.functions →
      i ∈ P.instsOf F → (P.inst i).op = .call callee args →
      f ∈ calleesOf L P callees (.inst i) → skipsCallee P f = false →
      arg ∈ args.zipIdx → e ∈ dependsOn L P callees arg.1 → Flows modules e d →
      Flows modules (.id (getArgId L P f arg.2)) d

variable {L P callees}

/-! ## Reading -/

/-- Copying from an entry makes the taints grow. -/
theorem copyEntry_grows {V : Value} {e : Entry} : Grows (copyEntry V e) :=
  fun s r h => addValue_grows s r h

/-- Copying from identifiers changes the entry of `V` only, and that contains
what was copied. -/
theorem forEach_copyEntry {V : Value} {IDs : List String} {s : TaintMap}
    {r : Report TaintMap Event} (h : forEach (copyEntry V) (IDs.map .id) s = .ok r) :
    r.state.gts = s.gts ∧ ∀ ID ∈ IDs, s.getId ID ⊆ r.state.vts V := by
  induction IDs generalizing s r with
  | nil =>
    obtain rfl := Except.ok.inj h
    exact ⟨rfl, by simp⟩
  | cons ID IDs ih =>
    obtain ⟨a, b, ha, hb, rfl⟩ := Pass.seq_eq_ok.mp h
    obtain ⟨hgts, hcopied⟩ := ih hb
    have hgrow : Evolves a.state b.state b.trace :=
      grows_forEach (fun _ _ => copyEntry_grows) _ b hb
    obtain rfl := Except.ok.inj ha
    refine ⟨hgts, fun ID' hID' => ?_⟩
    rcases List.mem_cons.mp hID' with rfl | hID'
    · refine Finset.Subset.trans ?_ (hgrow.le (.value V))
      simp [get]
    · exact hcopied ID' hID'

/-- Copying what is there already changes nothing. -/
theorem forEach_copyEntry_idle {V : Value} {es : List Entry} {s : TaintMap}
    (hes : ∀ e ∈ es, get s e ⊆ s.vts V) :
    ∃ r, forEach (copyEntry V) es s = .ok r ∧ r.state = s := by
  induction es with
  | nil => exact ⟨_, rfl, rfl⟩
  | cons e es ih =>
    obtain ⟨b, hb, hst⟩ := ih fun e' he' => hes e' (List.mem_cons_of_mem _ he')
    have ha : copyEntry V e s = .ok ⟨false, s, []⟩ := by
      have he := hes e List.mem_cons_self
      simp [copyEntry, addValue, he, Finset.union_eq_left.mpr he]
    exact ⟨_, Pass.seq_eq_ok.mpr ⟨_, b, ha, hb, rfl⟩, hst⟩

/-- The entries that a value takes over are those of its identifiers. -/
theorem globalEntries_eq (V : Value) : globalEntries L P callees V =
    ((calleesOf L P callees V).map (getRetId L P) ++ [getValueId L P V]).map .id := by
  simp [globalEntries]

/-- Taking over the taint of the identifiers makes the taints grow. -/
theorem copyTaint_grows {V : Value} : Grows (copyTaint L P callees V) := by
  intro s r h
  unfold copyTaint at h
  split at h
  · exact grows_forEach (fun _ _ => copyEntry_grows) s r h
  · exact grows_idle s r h

/-- `getTaint` is a copy and a read. -/
theorem getTaint_eq_ok {V : Value} {s : TaintMap} {r : Report TaintMap Event} :
    getTaint L P callees V s = .ok r ↔ ∃ a, copyTaint L P callees V s = .ok a ∧
      r = { a with trace := a.trace ++ [.read (dependsOn L P callees V)
        ((dependsOn L P callees V).any fun e =>
          !decide (get a.state e ⊆ localTaint L P a.state V))] } := by
  constructor
  · intro h
    obtain ⟨a, ha, h⟩ := bind_eq_ok.mp h
    exact ⟨a, ha, (Except.ok.inj h).symm⟩
  · rintro ⟨a, ha, rfl⟩
    exact bind_eq_ok.mpr ⟨a, ha, rfl⟩

theorem getTaint_grows {V : Value} : Grows (getTaint L P callees V) := by
  intro s r h
  obtain ⟨a, ha, rfl⟩ := getTaint_eq_ok.mp h
  have hgrow := copyTaint_grows s a ha
  refine ⟨hgrow.le, hgrow.source, fun e he => hgrow.same e fun hmem => he ?_⟩
  exact List.mem_append_left _ hmem

/-- The taint of a value depends on some entries only. -/
theorem localTaint_congr {V : Value} {s s' : TaintMap}
    (h : ∀ e ∈ dependsOn L P callees V, get s' e = get s e) :
    localTaint L P s' V = localTaint L P s V := by
  have hV : s'.vts V = s.vts V := h (.value V) (by simp [dependsOn])
  have hstrip : s'.vts (L.stripPointerCasts P V) = s.vts (L.stripPointerCasts P V) :=
    h (.value (L.stripPointerCasts P V)) (by simp [dependsOn])
  simp only [localTaint, hV, hstrip]

/-- What was read is as it was. -/
theorem getTaint_later {V : Value} {s s' : TaintMap} {r : Report TaintMap Event}
    {t : List Event} (h : getTaint L P callees V s = .ok r) (hs' : Evolves r.state s' t)
    (ht : Timely (r.trace ++ t)) :
    ∀ e ∈ dependsOn L P callees V, get s' e = get r.state e := by
  obtain ⟨a, -, rfl⟩ := getTaint_eq_ok.mp h
  intro e he
  refine hs'.same e fun hgrow => ?_
  rw [List.append_assoc] at ht
  have hread := (List.pairwise_append.mp ht).2.1
  rw [List.singleton_append, List.pairwise_cons] at hread
  exact hread.1 _ hgrow he

/-- The same taint is found again. -/
theorem localTaint_later {V : Value} {s s' : TaintMap} {r : Report TaintMap Event}
    {t : List Event} (h : getTaint L P callees V s = .ok r) (hs' : Evolves r.state s' t)
    (ht : Timely (r.trace ++ t)) : localTaint L P s' V = localTaint L P r.state V :=
  localTaint_congr (getTaint_later h hs' ht)

/-- Nothing is copied that was not copied before. Where the entries that a value depends on are as
after an earlier copy, copying again finds them unchanged. -/
theorem copyTaint_again {V : Value} {s s' : TaintMap} {a : Report TaintMap Event}
    (ha : copyTaint L P callees V s = .ok a)
    (hsame : ∀ e ∈ dependsOn L P callees V, get s' e = get a.state e) :
    ∃ r, copyTaint L P callees V s' = .ok r ∧ r.state = s' := by
  unfold copyTaint
  split
  case isFalse => exact ⟨_, rfl, rfl⟩
  case isTrue hempty =>
    refine forEach_copyEntry_idle fun e he => ?_
    rw [localTaint_congr hsame] at hempty
    unfold copyTaint at ha
    split at ha
    case isFalse hne =>
      obtain rfl := Except.ok.inj ha
      exact absurd hempty hne
    case isTrue =>
      rw [globalEntries_eq] at ha
      obtain ⟨hgts, hcopied⟩ := forEach_copyEntry ha
      have hV : s'.vts V = a.state.vts V := hsame (.value V) (by simp [dependsOn])
      have he' : get s' e = get a.state e :=
        hsame e (List.mem_cons_of_mem _ (List.mem_cons_of_mem _ he))
      rw [globalEntries_eq] at he
      obtain ⟨ID, hID, rfl⟩ := List.mem_map.mp he
      rw [he', hV]
      simpa [get, TaintMap.getId, hgts] using hcopied ID hID

/-- `getTaint` again finds the same taint and copies nothing. -/
theorem getTaint_replays {V : Value} : Replays (getTaint L P callees V) := by
  intro s r t' s' h hs' ht
  have hsame := getTaint_later h hs' ht
  obtain ⟨a, ha, rfl⟩ := getTaint_eq_ok.mp h
  obtain ⟨b, hb, hst⟩ := copyTaint_again ha hsame
  exact ⟨_, getTaint_eq_ok.mpr ⟨b, hb, rfl⟩, hst⟩

/-- What was read contains all that the taint depends on, unless it is masked. -/
theorem getTaint_complete {V : Value} {s s' : TaintMap} {r : Report TaintMap Event}
    {t : List Event} (h : getTaint L P callees V s = .ok r) (hs' : Evolves r.state s' t)
    (ht : Timely (r.trace ++ t)) (hu : Unmasked r.trace) :
    ∀ e ∈ dependsOn L P callees V, get s' e ⊆ localTaint L P r.state V := by
  have hsame := getTaint_later h hs' ht
  obtain ⟨a, ha, rfl⟩ := getTaint_eq_ok.mp h
  intro e he
  rw [hsame e he]
  have hread := hu _ (List.mem_append_right _ List.mem_cons_self)
  simpa using List.any_eq_false.mp hread e he

/-! ## Going on with what was read -/

section With

variable {V : Value} {Vs : List Value} {k : DescSet → Pass TaintMap Event}

/-- Going on with the taint of a value is `getTaint` and what follows. -/
theorem withTaint_eq_ok {s : TaintMap} {r : Report TaintMap Event} :
    withTaint L P callees V k s = .ok r ↔ ∃ a b, getTaint L P callees V s = .ok a ∧
      k (localTaint L P a.state V) a.state = .ok b ∧ r = a.andThen b := by
  constructor
  · intro h
    obtain ⟨a, ha, h⟩ := bind_eq_ok.mp h
    obtain ⟨b, hb, h⟩ := bind_eq_ok.mp h
    exact ⟨a, b, ha, hb, (Except.ok.inj h).symm⟩
  · rintro ⟨a, b, ha, hb, rfl⟩
    exact bind_eq_ok.mpr ⟨a, ha, bind_eq_ok.mpr ⟨b, hb, rfl⟩⟩

/-- It makes the taints grow if what follows does. -/
theorem withTaint_grows (hk : ∀ D, Grows (k D)) : Grows (withTaint L P callees V k) := by
  intro s r h
  obtain ⟨a, b, ha, hb, rfl⟩ := withTaint_eq_ok.mp h
  exact (getTaint_grows s a ha).trans (hk _ _ b hb)

/-- It changes nothing when it is run again if what follows does not. -/
theorem withTaint_replays (hk : ∀ D, Replays (k D)) (hgrow : ∀ D, Grows (k D)) :
    Replays (withTaint L P callees V k) := by
  intro s r t' s' h hs' ht
  obtain ⟨a, b, ha, hb, rfl⟩ := withTaint_eq_ok.mp h
  obtain ⟨hs₁, ht₁⟩ := later_first (hgrow _ _ b hb) hs' ht
  have hlocal := localTaint_later ha hs₁ ht₁
  obtain ⟨a', ha', rfl⟩ := getTaint_replays s a _ s' ha hs₁ ht₁
  obtain ⟨b', hb', hst⟩ := hk _ _ b t' _ hb hs' (timely_second ht)
  exact ⟨_, withTaint_eq_ok.mpr ⟨a', b', ha', by rwa [hlocal], rfl⟩, hst⟩

/-- What follows is delivered for a set that contains all that the taint of the value depends on. -/
theorem withTaint_delivers {C : DescSet → TaintMap → Prop} (hk : ∀ D, Delivers (k D) (C D))
    (hgrow : ∀ D, Grows (k D)) : Delivers (withTaint L P callees V k) fun s =>
      ∃ D, (∀ e ∈ dependsOn L P callees V, get s e ⊆ D) ∧ C D s := by
  intro s r t' s' h hs' ht hu
  obtain ⟨a, b, ha, hb, rfl⟩ := withTaint_eq_ok.mp h
  obtain ⟨hs₁, ht₁⟩ := later_first (hgrow _ _ b hb) hs' ht
  refine ⟨_, getTaint_complete ha hs₁ ht₁ fun es he => hu es ?_,
    hk _ _ b t' s' hb hs' (timely_second ht) fun es he => hu es ?_⟩
  · exact List.mem_append_left _ he
  · exact List.mem_append_right _ he

/-- The same for the union of the taints of several values. -/
theorem withTaints_grows (hk : ∀ D, Grows (k D)) :
    ∀ D, Grows (withTaints L P callees Vs D k) := by
  induction Vs with
  | nil => exact hk
  | cons V Vs ih => exact fun D => withTaint_grows fun D' => ih (D ∪ D')

/-- The union of the taints of several values is found again. -/
theorem withTaints_replays (hk : ∀ D, Replays (k D)) (hgrow : ∀ D, Grows (k D)) :
    ∀ D, Replays (withTaints L P callees Vs D k) := by
  induction Vs with
  | nil => exact hk
  | cons V Vs ih =>
    exact fun D => withTaint_replays (fun D' => ih (D ∪ D'))
      fun D' => withTaints_grows hgrow (D ∪ D')

/-- What follows is delivered for a set that contains all that the taints of the values depend on.
-/
theorem withTaints_delivers {C : DescSet → TaintMap → Prop} (hk : ∀ D, Delivers (k D) (C D))
    (hgrow : ∀ D, Grows (k D)) : ∀ D, Delivers (withTaints L P callees Vs D k) fun s =>
      ∃ D', D ⊆ D' ∧ (∀ V ∈ Vs, ∀ e ∈ dependsOn L P callees V, get s e ⊆ D') ∧ C D' s := by
  induction Vs with
  | nil => exact fun D => (hk D).mono fun s hs => ⟨D, Finset.Subset.refl D, by simp, hs⟩
  | cons V Vs ih =>
    intro D
    refine (withTaint_delivers (fun D' => ih (D ∪ D'))
      fun D' => withTaints_grows hgrow (D ∪ D')).mono ?_
    rintro s ⟨D₁, hV, D', hsub, hVs, hC⟩
    refine ⟨D', Finset.union_subset_left hsub, fun W hW e he => ?_, hC⟩
    rcases List.mem_cons.mp hW with rfl | hW
    · exact (hV e he).trans (Finset.union_subset_right hsub)
    · exact hVs W hW e he

/-- Going on with the descriptors of a value itself reads its entry. -/
theorem withValue_eq_ok {s : TaintMap} {r : Report TaintMap Event} :
    withValue V k s = .ok r ↔ ∃ b, k (s.vts V) s = .ok b ∧
      r = { b with trace := .read [.value V] false :: b.trace } := by
  constructor
  · intro h
    obtain ⟨b, hb, h⟩ := bind_eq_ok.mp h
    exact ⟨b, hb, (Except.ok.inj h).symm⟩
  · rintro ⟨b, hb, rfl⟩
    exact bind_eq_ok.mpr ⟨b, hb, rfl⟩

/-- It makes the taints grow if what follows does. -/
theorem withValue_grows (hk : ∀ D, Grows (k D)) : Grows (withValue V k) := by
  intro s r h
  obtain ⟨b, hb, rfl⟩ := withValue_eq_ok.mp h
  have hgrow := hk _ s b hb
  refine ⟨hgrow.le, hgrow.source, fun e he => hgrow.same e fun hmem => he ?_⟩
  exact List.mem_cons_of_mem _ hmem

/-- The entry of the value itself is as it was. -/
theorem withValue_later {s s' : TaintMap} {b : Report TaintMap Event} {t' : List Event}
    (hb : Evolves s b.state b.trace) (hs' : Evolves b.state s' t')
    (ht : Timely ((.read [.value V] false :: b.trace) ++ t')) : s'.vts V = s.vts V := by
  refine (hb.trans hs').same (.value V) fun hmem => ?_
  rw [List.cons_append] at ht
  exact (List.pairwise_cons.mp ht).1 _ hmem (by simp)

/-- It changes nothing when it is run again if what follows does not. -/
theorem withValue_replays (hk : ∀ D, Replays (k D)) (hgrow : ∀ D, Grows (k D)) :
    Replays (withValue V k) := by
  intro s r t' s' h hs' ht
  obtain ⟨b, hb, rfl⟩ := withValue_eq_ok.mp h
  have hV := withValue_later (hgrow _ s b hb) hs' ht
  rw [List.cons_append] at ht
  obtain ⟨b', hb', hst⟩ := hk _ s b t' s' hb hs' (List.pairwise_cons.mp ht).2
  exact ⟨_, withValue_eq_ok.mpr ⟨b', by rwa [hV], rfl⟩, hst⟩

/-- What follows is delivered for the descriptors that the value has in the end. -/
theorem withValue_delivers {C : DescSet → TaintMap → Prop} (hk : ∀ D, Delivers (k D) (C D))
    (hgrow : ∀ D, Grows (k D)) : Delivers (withValue V k) fun s => C (s.vts V) s := by
  intro s r t' s' h hs' ht hu
  obtain ⟨b, hb, rfl⟩ := withValue_eq_ok.mp h
  have hV := withValue_later (hgrow _ s b hb) hs' ht
  rw [List.cons_append] at ht
  rw [hV]
  exact hk _ s b t' s' hb hs' (List.pairwise_cons.mp ht).2
    fun es he => hu es (List.mem_cons_of_mem _ he)

end With

/-! ## Instructions -/

/-- All that is proved about a part of the pass. -/
structure Part (f : Pass TaintMap Event) (C : TaintMap → Prop) : Prop where
  grows : Grows f
  replays : Replays f
  delivers : Delivers f C

namespace Part

variable {f g : Pass TaintMap Event} {C D : TaintMap → Prop}

/-- Doing nothing is a part that delivers what is always true. -/
theorem idle (hC : ∀ s, C s) : Part (fun s => .ok (.idle s)) C :=
  ⟨grows_idle, replays_idle, fun _ _ _ s' _ _ _ _ => hC s'⟩

theorem mono (hf : Part f C) (hCD : ∀ s, C s → D s) : Part f D :=
  ⟨hf.grows, hf.replays, hf.delivers.mono hCD⟩

theorem seq (hf : Part f C) (hg : Part g D) : Part (f.seq g) fun s => C s ∧ D s :=
  ⟨hf.grows.seq hg.grows, hf.replays.seq hg.replays hg.grows,
    hf.delivers.seq hg.delivers hg.grows⟩

theorem forEach {ι : Type*} {h : ι → Pass TaintMap Event} {B : ι → TaintMap → Prop}
    {xs : List ι} (hh : ∀ x ∈ xs, Part (h x) (B x)) :
    Part (forEach h xs) fun s => ∀ x ∈ xs, B x s :=
  ⟨grows_forEach fun x hx => (hh x hx).grows,
    Replays.forEach (fun x hx => (hh x hx).replays) fun x hx => (hh x hx).grows,
    Delivers.forEach (fun x hx => (hh x hx).delivers) fun x hx => (hh x hx).grows⟩

theorem addValue {V : Value} {S : DescSet} : Part (addValue V S) fun s => S ⊆ s.vts V :=
  ⟨addValue_grows, addValue_replays, addValue_delivers⟩

theorem addId {ID : String} {S : DescSet} {b : Bool} :
    Part (addId ID S b) fun s => ID ≠ "" → S ⊆ s.getId ID :=
  ⟨addId_grows, addId_replays, addId_delivers⟩

theorem withTaint {V : Value} {k : DescSet → Pass TaintMap Event}
    {B : DescSet → TaintMap → Prop} (hk : ∀ S, Part (k S) (B S)) :
    Part (withTaint L P callees V k) fun s =>
      ∃ S, (∀ e ∈ dependsOn L P callees V, get s e ⊆ S) ∧ B S s :=
  ⟨withTaint_grows fun S => (hk S).grows,
    withTaint_replays (fun S => (hk S).replays) fun S => (hk S).grows,
    withTaint_delivers (fun S => (hk S).delivers) fun S => (hk S).grows⟩

theorem withTaints {Vs : List Value} {k : DescSet → Pass TaintMap Event}
    {B : DescSet → TaintMap → Prop} (hk : ∀ S, Part (k S) (B S)) (S : DescSet) :
    Part (withTaints L P callees Vs S k) fun s =>
      ∃ S', S ⊆ S' ∧ (∀ V ∈ Vs, ∀ e ∈ dependsOn L P callees V, get s e ⊆ S') ∧ B S' s :=
  ⟨withTaints_grows (fun S => (hk S).grows) S,
    withTaints_replays (fun S => (hk S).replays) (fun S => (hk S).grows) S,
    withTaints_delivers (fun S => (hk S).delivers) (fun S => (hk S).grows) S⟩

/-- The rule for the descriptors of a value itself. -/
theorem withValue {V : Value} {k : DescSet → Pass TaintMap Event}
    {B : DescSet → TaintMap → Prop} (hk : ∀ S, Part (k S) (B S)) :
    Part (withValue V k) fun s => B (s.vts V) s :=
  ⟨withValue_grows fun S => (hk S).grows,
    withValue_replays (fun S => (hk S).replays) fun S => (hk S).grows,
    withValue_delivers (fun S => (hk S).delivers) fun S => (hk S).grows⟩

end Part

variable (L P callees) in
/-- The taints are closed under the rule for taint sources. -/
def SourceClosed (s : TaintMap) (F : FuncId) (i : InstId) : Prop :=
  ∀ d, (P.inst i).taintSrc = some d → d ∈ s.vts (.inst i) ∧
    ∀ ID ∈ getValueId L P (.inst i) :: fieldIds L P (P.inst i).ty (P.func F).moduleIdentifier,
      ID ≠ "" → s.vts (.inst i) ⊆ s.getId ID

variable (L P) in
/-- The descriptors `D` of the operands of an instruction are where they are
propagated to. -/
def Propagated (F : FuncId) (i : InstId) (D : DescSet) (s : TaintMap) : Prop :=
  D ⊆ s.vts (.inst i) ∧
    match (P.inst i).op with
    | .store _ _ => ∀ ID, (P.inst i).id = some ID → ID ≠ "" → D ⊆ s.getId ID
    | .ret _ => D ⊆ s.getId (getRetId L P F)
    | _ => True

variable (L P callees) in
/-- The taints are closed under the rule for operands, or for the arguments of a
call. -/
def OperandsClosed (s : TaintMap) (F : FuncId) (i : InstId) : Prop :=
  match (P.inst i).op with
  | .call _ args => ∀ f ∈ calleesOf L P callees (.inst i), skipsCallee P f = false →
      ∀ arg ∈ args.zipIdx, ∃ D, (∀ e ∈ dependsOn L P callees arg.1, get s e ⊆ D) ∧
        D ⊆ s.getId (getArgId L P f arg.2)
  | op => ∃ D, (∀ V ∈ op.operands, ∀ e ∈ dependsOn L P callees V, get s e ⊆ D) ∧
      Propagated L P F i D s

/-- The descriptors of the operands are where the instruction propagates them to. -/
theorem propagate_part {F : FuncId} {i : InstId} {D : DescSet} :
    Part (propagate L P F i D) (Propagated L P F i D) := by
  unfold propagate
  split
  case isTrue hD =>
    refine Part.idle fun s => ⟨by simp [hD], ?_⟩
    split <;> simp [hD]
  case isFalse =>
    unfold Propagated
    cases hop : (P.inst i).op with
    | store v p =>
      refine Part.addValue.seq ?_
      simp only
      cases hid : (P.inst i).id with
      | none => exact Part.idle (by simp)
      | some ID => exact Part.addId.mono (by simp)
    | ret v =>
      exact Part.addValue.seq (Part.addId.mono fun s h => h (getRetId_ne_empty L P F))
    | _ => exact Part.addValue.seq (Part.idle fun _ => trivial)

/-- The descriptor of a taint source is where it belongs. -/
theorem checkTaintSource_part {F : FuncId} {i : InstId} :
    Part (checkTaintSource L P F i) fun s => SourceClosed L P s F i := by
  unfold checkTaintSource
  split
  · next hsrc => exact Part.idle fun s d hd => by simp [hsrc] at hd
  · next d hsrc =>
    refine (Part.addValue.seq (Part.withValue fun D => Part.forEach fun ID _ =>
      Part.addId)).mono ?_
    rintro s ⟨hd, hids⟩ d' hd'
    obtain rfl : d = d' := by simpa [hsrc] using hd'
    exact ⟨Finset.singleton_subset_iff.mp hd, hids⟩

/-- The taint of each argument is at the argument of each callee that is not skipped. -/
theorem visitCall_part {i : InstId} {args : List Value} :
    Part (visitCall L P callees i args) fun s =>
      ∀ f ∈ calleesOf L P callees (.inst i), skipsCallee P f = false →
        ∀ arg ∈ args.zipIdx, ∃ D, (∀ e ∈ dependsOn L P callees arg.1, get s e ⊆ D) ∧
          D ⊆ s.getId (getArgId L P f arg.2) := by
  refine Part.forEach fun f _ => ?_
  split
  · next hskip => exact Part.idle fun s h => by simp [hskip] at h
  · refine (Part.forEach fun arg _ => Part.withTaint fun D => ?_).mono fun s h _ => h
    split
    · next hD => exact Part.idle fun s => by simp [hD]
    · exact Part.addId.mono fun s h => h (getArgId_ne_empty L P f arg.2)

/-- After a visit, the taints are closed under the two rules at the instruction. -/
theorem visitInst_part {F : FuncId} {i : InstId} :
    Part (visitInst L P callees F i) fun s =>
      SourceClosed L P s F i ∧ OperandsClosed L P callees s F i := by
  refine checkTaintSource_part.seq ?_
  cases hop : (P.inst i).op with
  | call callee args => simpa only [OperandsClosed, hop] using visitCall_part
  | _ =>
    refine (Part.withTaints (fun D => propagate_part) ∅).mono ?_
    rintro s ⟨D, -, hD, hprop⟩
    simp only [OperandsClosed, hop]
    exact ⟨D, hD, hprop⟩

/-- After a visit of a function, they are closed at all its instructions. -/
theorem runOnFunction_part {F : FuncId} : Part (runOnFunction L P callees F) fun s =>
    ∀ i ∈ P.instsOf F, SourceClosed L P s F i ∧ OperandsClosed L P callees s F i :=
  Part.forEach fun _ _ => visitInst_part

/-! ## The last round -/

variable {modules : List Module} {fuel : ℕ} {s : TaintMap} {r : Report TaintMap Event}

/-- The loop over a module makes the taints grow. -/
theorem doModulePass_grows {M : Module} : Grows (doModulePass L P callees fuel M) :=
  fun _ _ h => sequential_evolves.whileChanged_spec
    (fun _ => grows_forEach fun _ _ => runOnFunction_part.grows) h

/-- A round without a report runs every function once; each run is as if it came
last. -/
theorem round_at (h : forEach (doModulePass L P callees fuel) modules s = .ok r)
    (hc : r.changed = false) (ht : Timely r.trace) {M : Module} (hM : M ∈ modules)
    {F : FuncId} (hF : F ∈ M.functions) :
    ∃ s₁ r₁ t₁, runOnFunction L P callees F s₁ = .ok r₁ ∧ Evolves r₁.state r.state t₁ ∧
      Timely (r₁.trace ++ t₁) ∧ (Unmasked r.trace → Unmasked r₁.trace) := by
  obtain ⟨s₁, r₁, t₁, hr₁, hs₁, ht₁, hc₁, hu₁⟩ :=
    forEach_at (fun _ _ => doModulePass_grows) h (Evolves.refl _) (by simpa using ht) M hM
  obtain ⟨s₂, r₂, t₂, hr₂, hs₂, ht₂, -, hu₂⟩ :=
    forEach_at (fun _ _ => runOnFunction_part.grows) (whileChanged_unchanged hr₁ (hc₁ hc))
      hs₁ ht₁ F hF
  exact ⟨s₂, r₂, t₂, hr₂, hs₂, ht₂, hu₂ ∘ hu₁⟩

/-- In closed taints every descriptor that flows is present. By induction on the rules. Each of them
is a consequence of what it means for taints to be closed at one instruction. -/
theorem flows_present (hclosed : ∀ M ∈ modules, ∀ F ∈ M.functions, ∀ i ∈ P.instsOf F,
      SourceClosed L P s F i ∧ OperandsClosed L P callees s F i)
    {e : Entry} {d : String} (h : Flows L P callees modules e d) : d ∈ get s e := by
  have hoperands : ∀ {M F i V e d}, M ∈ modules → F ∈ M.functions → i ∈ P.instsOf F →
      (∀ callee args, (P.inst i).op ≠ .call callee args) → V ∈ (P.inst i).op.operands →
      e ∈ dependsOn L P callees V → d ∈ get s e → ∃ D, d ∈ D ∧ Propagated L P F i D s := by
    intro M F i V e d hM hF hi hnocall hV he hd
    have hop := (hclosed M hM F hF i hi).2
    unfold OperandsClosed at hop
    split at hop
    · next h => exact absurd h (hnocall _ _)
    · obtain ⟨D, hD, hprop⟩ := hop
      exact ⟨D, hD V hV e he hd, hprop⟩
  induction h with
  | source hM hF hi hsrc => exact ((hclosed _ hM _ hF _ hi).1 _ hsrc).1
  | sourceId hM hF hi hsrc hID hne _ ih =>
    exact ((hclosed _ hM _ hF _ hi).1 _ hsrc).2 _ hID hne ih
  | operand hM hF hi hnocall hV he _ ih =>
    obtain ⟨D, hd, hprop⟩ := hoperands hM hF hi hnocall hV he ih
    exact hprop.1 hd
  | store hM hF hi hop hid hne hV he _ ih =>
    obtain ⟨D, hd, -, hprop⟩ := hoperands hM hF hi (by simp [hop]) hV he ih
    simp only [hop] at hprop
    exact hprop _ hid hne hd
  | ret hM hF hi hop hV he _ ih =>
    obtain ⟨D, hd, -, hprop⟩ := hoperands hM hF hi (by simp [hop]) hV he ih
    simp only [hop] at hprop
    exact hprop hd
  | argument hM hF hi hop hf hskip harg he _ ih =>
    have hcall := (hclosed _ hM _ hF _ hi).2
    simp only [OperandsClosed, hop] at hcall
    obtain ⟨D, hD, hsub⟩ := hcall _ hf hskip _ harg
    exact hsub (hD _ he ih)

variable (L P callees) in
/-- The rounds of a run that report nothing satisfy `C`. -/
def QuietRounds (C : List Event → Prop) (fuel : ℕ) (modules : List Module) (s₀ : TaintMap) :
    Prop :=
  ∀ s, IterativeModulePass.RoundStart (taintPass L P callees) fuel modules s₀ s →
    ∀ r, forEach (doModulePass L P callees fuel) modules s = .ok r → r.changed = false →
      C r.trace

/-- In every run in which no round that reports nothing adds to an entry it has
read before, `TaintPass::run` stops with closed taints: running any function once
more adds nothing.  When these rounds do not find masked taint either, every
descriptor that flows is present. -/
theorem taintPass_closed {s₀ : TaintMap}
    (h : (taintPass L P callees).iterate fuel modules s₀ = .ok r)
    (htimely : QuietRounds L P callees Timely fuel modules s₀) :
    (∀ M ∈ modules, ∀ F ∈ M.functions,
      ∃ r', runOnFunction L P callees F r.state = .ok r' ∧ r'.state = r.state) ∧
    (QuietRounds L P callees Unmasked fuel modules s₀ →
      ∀ e d, Flows L P callees modules e d → d ∈ get r.state e) := by
  obtain ⟨s, r', hs, hr', hc, hst⟩ := IterativeModulePass.iterate_last_round h
  have ht := htimely s hs r' hr' hc
  rw [← hst]
  refine ⟨fun M hM F hF => ?_, fun hunmasked e d hflow => ?_⟩
  · obtain ⟨s₁, r₁, t₁, hr₁, hs₁, ht₁, -⟩ := round_at hr' hc ht hM hF
    exact runOnFunction_part.replays s₁ r₁ t₁ _ hr₁ hs₁ ht₁
  · refine flows_present (fun M hM F hF => ?_) hflow
    obtain ⟨s₁, r₁, t₁, hr₁, hs₁, ht₁, hu₁⟩ := round_at hr' hc ht hM hF
    exact runOnFunction_part.delivers s₁ r₁ t₁ _ hr₁ hs₁ ht₁
      (hu₁ (hunmasked s hs r' hr' hc))

end Closure

/-! ## A run that stops too early, and one that does not -/

/-- A loop that stores the previous value of a counter and taints the next one:
`p = phi [0, t]; x = p; t = p + 1; taint(t)`. -/
def pollProgram : Program where
  insts := [
    ⟨0, .other, .br 1, none, none⟩,
    ⟨1, .int 32, .phi [(.constInt (.ofNat 32 0), 0), (.inst 3, 1)], none, none⟩,
    ⟨1, .other, .store (.inst 1) (.global 0), some "var.x", none⟩,
    ⟨1, .int 32, .binary .add (.inst 1) (.constInt (.ofNat 32 1)), none, some "src"⟩,
    ⟨1, .int 1, .icmp .ult (.inst 3) (.constInt (.ofNat 32 10)), none, none⟩,
    ⟨1, .other, .condBr (.inst 4) 1 2, none, none⟩,
    ⟨2, .other, .ret none, none, none⟩]
  blocks := [⟨0, [], 0, []⟩, ⟨0, [1, 2, 3, 4], 5, [0, 1]⟩, ⟨0, [], 6, [1]⟩]
  funcs := [⟨⟨"poll", .external, "a.c"⟩, false, [], .other, [0, 1, 2]⟩]
  globals := [⟨⟨"x", .external, "a.c"⟩, .int 32, none⟩]
  structs := []
  consts := []

/-- The module of `pollProgram`. -/
def pollModules : List Module := [⟨"a.c", [0], [0]⟩]

/-- The run on `pollProgram` stops after one round, although the descriptor flows
on to the variable and running the function once more puts it there. -/
theorem poll_not_closed : ∃ r r',
    (taintPass .reference pollProgram fun _ => none).iterate 2 pollModules .init = .ok r ∧
    runOnFunction .reference pollProgram (fun _ => none) 0 r.state = .ok r' ∧
    "src" ∉ get r.state (.id "var.x") ∧ "src" ∈ get r'.state (.id "var.x") ∧
    Flows .reference pollProgram (fun _ => none) pollModules (.id "var.x") "src" := by
  have hrun : resultIs ((taintPass .reference pollProgram fun _ => none).iterate 2
      pollModules .init) (fun r =>
        resultIs (runOnFunction .reference pollProgram (fun _ => none) 0 r.state) fun r' =>
          decide ("src" ∉ get r.state (.id "var.x")) &&
            decide ("src" ∈ get r'.state (.id "var.x"))) = true := by
    decide +kernel
  obtain ⟨r, hr, hrun⟩ := of_resultIs hrun
  obtain ⟨r', hr', hrun⟩ := of_resultIs hrun
  obtain ⟨hbefore, hafter⟩ := Bool.and_eq_true_iff.mp hrun
  refine ⟨r, r', hr, hr', of_decide_eq_true hbefore, of_decide_eq_true hafter, ?_⟩
  have hM : (⟨"a.c", [0], [0]⟩ : Module) ∈ pollModules := List.mem_cons_self
  have hsource : Flows .reference pollProgram (fun _ => none) pollModules
      (.value (.inst 3)) "src" := .source hM (F := 0) (i := 3) (by decide) (by decide) rfl
  have hphi : Flows .reference pollProgram (fun _ => none) pollModules
      (.value (.inst 1)) "src" :=
    .operand hM (F := 0) (i := 1) (V := .inst 3) (by decide) (by decide)
      (fun _ _ h => by cases h) (by decide) List.mem_cons_self hsource
  exact .store hM (F := 0) (i := 2) (V := .inst 1) (by decide) (by decide) rfl rfl
    (by decide) (by decide) List.mem_cons_self hphi

/-- A value read from the network is stored by one function and returned by
another. -/
def packetProgram : Program where
  insts := [
    ⟨0, .int 32, .load (.global 0) false, some "var.packet", some "net"⟩,
    ⟨0, .other, .store (.inst 0) (.global 1), some "var.len", none⟩,
    ⟨0, .other, .ret none, none, none⟩,
    ⟨1, .int 32, .load (.global 1) false, some "var.len", none⟩,
    ⟨1, .int 32, .binary .add (.inst 3) (.inst 3), none, none⟩,
    ⟨1, .other, .ret (some (.inst 4)), none, none⟩]
  blocks := [⟨0, [0, 1], 2, []⟩, ⟨1, [3, 4], 5, []⟩]
  funcs := [⟨⟨"receive", .external, "a.c"⟩, false, [], .other, [0]⟩,
    ⟨⟨"size", .external, "a.c"⟩, false, [], .int 32, [1]⟩]
  globals := [⟨⟨"packet", .external, "a.c"⟩, .int 32, none⟩,
    ⟨⟨"len", .external, "a.c"⟩, .int 32, none⟩]
  structs := []
  consts := []

/-- The module of `packetProgram`. -/
def packetModules : List Module := [⟨"a.c", [0, 1], [0, 1]⟩]

/-- The result of the pass on `packetProgram` is closed, and has the descriptor at the load. The run
takes two rounds, of which the second one reports nothing. -/
theorem packet_closed : ∃ r,
    (taintPass .reference packetProgram fun _ => none).iterate 3 packetModules .init = .ok r ∧
    (∀ M ∈ packetModules, ∀ F ∈ M.functions,
      ∃ r', runOnFunction .reference packetProgram (fun _ => none) F r.state = .ok r' ∧
        r'.state = r.state) ∧
    ∀ e d, Flows .reference packetProgram (fun _ => none) packetModules e d →
      d ∈ get r.state e := by
  have hrun : resultIs ((taintPass .reference packetProgram fun _ => none).iterate 3
      packetModules .init) (fun _ => true) = true := by
    decide +kernel
  obtain ⟨r, hr, -⟩ := of_resultIs hrun
  -- the first round reports, the second one neither reports nor adds
  have hrounds : resultIs (forEach (doModulePass .reference packetProgram (fun _ => none) 3)
      packetModules .init) (fun r₁ => r₁.changed &&
        resultIs (forEach (doModulePass .reference packetProgram (fun _ => none) 3)
          packetModules r₁.state) fun r₂ => !r₂.changed &&
            (decide (Timely r₂.trace) && decide (Unmasked r₂.trace))) = true := by
    decide +kernel
  obtain ⟨r₁, hr₁, hrounds⟩ := of_resultIs hrounds
  obtain ⟨hc₁, hrounds⟩ := Bool.and_eq_true_iff.mp hrounds
  obtain ⟨r₂, hr₂, hrounds⟩ := of_resultIs hrounds
  obtain ⟨hc₂, hrounds⟩ := Bool.and_eq_true_iff.mp hrounds
  obtain ⟨htimely, hunmasked⟩ := Bool.and_eq_true_iff.mp hrounds
  have hstart : ∀ s, IterativeModulePass.RoundStart
      (taintPass .reference packetProgram fun _ => none) 3 packetModules .init s →
      s = .init ∨ s = r₁.state := by
    intro s hs
    induction hs with
    | first => exact .inl rfl
    | next _ hr hc ih =>
      rcases ih with rfl | rfl
      · obtain rfl := Except.ok.inj (hr₁.symm.trans hr)
        exact .inr rfl
      · obtain rfl := Except.ok.inj (hr₂.symm.trans hr)
        simp [hc] at hc₂
  have hquiet : ∀ C : List Event → Prop, C r₂.trace →
      QuietRounds .reference packetProgram (fun _ => none) C 3 packetModules .init := by
    intro C hC s hs r hr hc
    rcases hstart s hs with rfl | rfl
    · obtain rfl := Except.ok.inj (hr₁.symm.trans hr)
      simp [hc₁] at hc
    · obtain rfl := Except.ok.inj (hr₂.symm.trans hr)
      exact hC
  obtain ⟨hclosed, hflows⟩ :=
    taintPass_closed hr (hquiet Timely (of_decide_eq_true htimely))
  exact ⟨r, hr, hclosed, hflows (hquiet Unmasked (of_decide_eq_true hunmasked))⟩

end Kint.Taint
