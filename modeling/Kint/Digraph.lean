import Mathlib.Logic.Relation
import Mathlib.Order.WellFoundedSet
import Mathlib.Tactic.Common

/-!
# Directed graphs with an entry vertex

Reachability, dominance and acyclicity for a graph given by its edge relation `E` on an
arbitrary vertex type, with a distinguished `entry`.

Dominance is the textbook notion, *every path from the entry to `v` passes through `d`*, written
without path lists: `AvoidReach E entry A v` says that some path from the entry reaches `v` and
meets no vertex of `A`, and `d` dominates `v` when no path reaches `v` around `d`.  A vertex
that is not reachable at all is dominated by every vertex, as usual.

## Main results

* `AvoidReach.cut`: a path either avoids a vertex or can be cut off at it.
* `Reach.first_arrival`: a vertex can be reached by a path that meets it only at its end.
* `Dom.pred`: a dominator of a vertex, other than the vertex itself, dominates its predecessors.
  This is the step of every induction along paths.
* `Dom.antisymm`: of two vertices that dominate each other, one of which can be reached, the two
  are the same.
* `acc_of_acyclic`: where a vertex lies behind no cycle and only finitely many vertices have an
  edge to them, going back along edges ends.
* `wellFounded_strictDom`: going up from a vertex to its strict dominators ends, so recursion
  along immediate dominators is justified.
-/

namespace Kint.Digraph

variable {V : Type*} {E : V → V → Prop} {entry : V}

/-- A path from `entry` to the vertex that meets no vertex of `A`. -/
inductive AvoidReach (E : V → V → Prop) (entry : V) (A : V → Prop) : V → Prop
  | start : ¬ A entry → AvoidReach E entry A entry
  | step {u v : V} : AvoidReach E entry A u → E u v → ¬ A v → AvoidReach E entry A v

/-- Some path leads from `entry` to the vertex. -/
def Reach (E : V → V → Prop) (entry v : V) : Prop := AvoidReach E entry (fun _ => False) v

theorem Reach.start : Reach E entry entry := AvoidReach.start id

theorem Reach.step {u v : V} (h : Reach E entry u) (huv : E u v) : Reach E entry v :=
  AvoidReach.step h huv id

/-- `d` dominates `v`: no path from the entry to `v` goes around `d`. -/
def Dom (E : V → V → Prop) (entry d v : V) : Prop :=
  ¬ AvoidReach E entry (fun w => w = d) v

namespace AvoidReach

variable {A B : V → Prop} {v : V}

/-- A path that avoids a set does not end in it. -/
theorem not_mem (h : AvoidReach E entry A v) : ¬ A v := by
  cases h <;> assumption

/-- A path that avoids a set avoids every smaller one. -/
theorem mono (h : AvoidReach E entry A v) (hAB : ∀ w, B w → A w) :
    AvoidReach E entry B v := by
  induction h with
  | start hA => exact .start fun hB => hA (hAB _ hB)
  | step _ huv hA ih => exact .step ih huv fun hB => hA (hAB _ hB)

theorem reach (h : AvoidReach E entry A v) : Reach E entry v :=
  h.mono fun _ h => h.elim

/-- A path around `A` either also goes around `b`, or its initial part is a path
around `A` to `b`. -/
theorem cut (h : AvoidReach E entry A v) (b : V) :
    AvoidReach E entry (fun w => A w ∨ w = b) v ∨ AvoidReach E entry A b := by
  induction h with
  | start hA =>
    by_cases hb : entry = b
    · exact .inr (hb ▸ .start hA)
    · exact .inl (.start (by simp [hA, hb]))
  | @step u w hu huv hA ih =>
    rcases ih with ih | ih
    · by_cases hb : w = b
      · exact .inr (hb ▸ .step hu huv hA)
      · exact .inl (.step ih huv (by simp [hA, hb]))
    · exact .inr ih

/-- After its last visit to the entry, a path leaves the entry by an edge and
does not come back. -/
theorem leave (h : AvoidReach E entry A v) :
    v = entry ∨ ∃ u, E entry u ∧ AvoidReach E u (fun w => A w ∨ w = entry) v := by
  induction h with
  | start => exact .inl rfl
  | @step u v _ huv hA ih =>
    by_cases hv : v = entry
    · exact .inl hv
    · rcases ih with rfl | ⟨w, hw, hpath⟩
      · exact .inr ⟨v, huv, .start (by simp [hA, hv])⟩
      · exact .inr ⟨w, hw, hpath.step huv (by simp [hA, hv])⟩

/-- A path may be put together at its first edge. -/
theorem head {u : V} (h : AvoidReach E u A v) (hA : ¬ A entry) (huv : E entry u) :
    AvoidReach E entry A v := by
  induction h with
  | start hAu => exact (AvoidReach.start hA).step huv hAu
  | step _ hwv hAv ih => exact ih.step hwv hAv

end AvoidReach

/-- A path to a vertex other than the entry arrives there for a first time. -/
theorem Reach.first_arrival {v : V} (h : Reach E entry v) (hne : v ≠ entry) :
    ∃ u, AvoidReach E entry (fun w => w = v) u ∧ E u v := by
  have hstep : ∀ w, Reach E entry w → AvoidReach E entry (fun w => w = v) w ∨
      ∃ u, AvoidReach E entry (fun w => w = v) u ∧ E u v := by
    intro w hw
    induction hw with
    | start => exact .inl (.start (Ne.symm hne))
    | @step a b _ hab _ ih =>
      rcases ih with ih | ih
      · by_cases hb : b = v
        · exact .inr ⟨a, ih, hb ▸ hab⟩
        · exact .inl (.step ih hab hb)
      · exact .inr ih
  rcases hstep v h with h | h
  · exact absurd rfl h.not_mem
  · exact h

/-- A path may be extended by an edge at its beginning. -/
theorem Reach.head {u v : V} (huv : E entry u) (h : Reach E u v) : Reach E entry v :=
  AvoidReach.head h id huv

/-! ## Dominance -/

theorem Dom.refl (v : V) : Dom E entry v v := fun h => h.not_mem rfl

/-- Dominance is transitive: a path around the first vertex that reaches the last one would reach
the one in between. -/
theorem Dom.trans {a b c : V} (hab : Dom E entry a b) (hbc : Dom E entry b c) :
    Dom E entry a c := by
  intro h
  rcases h.cut b with h | h
  · exact hbc (h.mono fun _ => .inr)
  · exact hab h

/-- A strict dominator of `v` dominates every predecessor of `v`. -/
theorem Dom.pred {d u v : V} (h : Dom E entry d v) (hne : d ≠ v) (huv : E u v) :
    Dom E entry d u :=
  fun hu => h (.step hu huv (Ne.symm hne))

/-- Only the entry dominates the entry. -/
theorem Dom.eq_entry {d : V} (h : Dom E entry d entry) : d = entry := by
  by_contra hne
  exact h (.start (Ne.symm hne))

theorem dom_entry {v : V} : Dom E entry entry v := by
  intro h
  induction h with
  | start h => exact h rfl
  | step _ _ _ ih => exact ih

/-- Whichever of two vertices a path meets first is reached around the other. By induction on the
path: as long as it has met neither of the two, it avoids both. -/
theorem Reach.first_of_two {a b v : V} (hne : a ≠ b) (h : Reach E entry v) :
    AvoidReach E entry (fun w => w = a ∨ w = b) v ∨
      AvoidReach E entry (fun w => w = b) a ∨ AvoidReach E entry (fun w => w = a) b := by
  induction h with
  | start _ =>
    by_cases ha : entry = a
    · exact .inr (.inl (ha ▸ .start (by simpa [ha] using hne)))
    · by_cases hb : entry = b
      · exact .inr (.inr (hb ▸ .start (by simpa [hb] using hne.symm)))
      · exact .inl (.start (by simp [ha, hb]))
  | @step u w _ huw _ ih =>
    rcases ih with ih | ih
    · by_cases ha : w = a
      · refine .inr (.inl (ha ▸ .step (ih.mono fun _ => .inr) huw ?_))
        simpa [ha] using hne
      · by_cases hb : w = b
        · refine .inr (.inr (hb ▸ .step (ih.mono fun _ => .inl) huw ?_))
          simpa [hb] using hne.symm
        · exact .inl (.step ih huw (by simp [ha, hb]))
    · exact .inr ih

/-- Two vertices that dominate each other are equal, when one is reachable. -/
theorem Dom.antisymm {a b : V} (hab : Dom E entry a b) (hba : Dom E entry b a)
    (ha : Reach E entry a) : a = b := by
  by_contra hne
  rcases ha.first_of_two hne with h | h | h
  · exact h.not_mem (.inl rfl)
  · exact hba h
  · exact hab h

/-! ## Acyclic graphs -/

/-- Walking backwards along edges does not end on a cycle. -/
theorem not_transGen_of_acc {v : V} (h : Acc E v) : ¬ Relation.TransGen E v v := by
  induction h with
  | intro v _ ih =>
    intro hcycle
    obtain ⟨u, hpath, huv⟩ := Relation.TransGen.tail'_iff.mp hcycle
    exact ih u huv (.head' huv hpath)

/-- In an acyclic graph with finitely many edge targets, walking backwards along
edges always ends. -/
theorem wellFounded_of_acyclic (hfin : {v | ∃ u, E u v}.Finite)
    (hacyclic : ∀ v, ¬ Relation.TransGen E v v) : WellFounded E := by
  let T : Set V := {v | ∃ u, E u v}
  have hstrict : IsStrictOrder V (Relation.TransGen E) :=
    { irrefl := hacyclic, trans := fun _ _ _ => Relation.TransGen.trans }
  have hwf := Set.wellFoundedOn_iff.mp (hfin.wellFoundedOn (r := Relation.TransGen E))
  -- a vertex that is no target has nothing behind it
  have hsource : ∀ v, v ∉ T → Acc E v := fun v hv =>
    ⟨_, fun u huv => absurd ⟨u, huv⟩ hv⟩
  refine ⟨fun v => ?_⟩
  induction v using hwf.induction with
  | _ v ih =>
    refine ⟨_, fun u huv => ?_⟩
    by_cases hu : u ∈ T
    · exact ih u ⟨.single huv, hu, u, huv⟩
    · exact hsource u hu

/-- The same for a single vertex: only the cycles that lead to it matter. -/
theorem acc_of_acyclic (hfin : {v | ∃ u, E u v}.Finite) {v : V}
    (hacyclic : ∀ u, Relation.ReflTransGen E u v → ¬ Relation.TransGen E u u) : Acc E v := by
  -- the edges that lead to `v` have no cycle
  let R : V → V → Prop := fun u w => E u w ∧ Relation.ReflTransGen E w v
  have hwf : WellFounded R := by
    refine wellFounded_of_acyclic (hfin.subset ?_) fun u hcycle => ?_
    · rintro w ⟨u, huw⟩
      exact ⟨u, huw.1⟩
    · obtain ⟨w, -, -, hlead⟩ := Relation.TransGen.tail'_iff.mp hcycle
      exact hacyclic u hlead (hcycle.lift id fun _ _ huw => huw.1)
  have hacc : ∀ w, Relation.ReflTransGen E w v → Acc E w := by
    intro w
    induction w using hwf.induction with
    | _ w ih => exact fun hlead => ⟨_, fun u huw => ih u ⟨huw, hlead⟩ (.head huw hlead)⟩
  exact hacc v .refl

/-- Going up from a reachable vertex to its dominators ends at the entry. A cycle would make two
vertices dominate each other; and only vertices with an incoming edge have strict dominators, of
which there are finitely many. -/
theorem wellFounded_strictDom (hfin : {v | ∃ u, E u v}.Finite) :
    WellFounded fun d v => Reach E entry v ∧ Dom E entry d v ∧ d ≠ v := by
  refine wellFounded_of_acyclic (hfin.subset ?_) fun v hcycle => ?_
  · rintro v ⟨d, hv, hdom, hne⟩
    have hentry : v ≠ entry := by
      rintro rfl
      exact hne hdom.eq_entry
    obtain ⟨u, -, huv⟩ := hv.first_arrival hentry
    exact ⟨u, huv⟩
  · have hstrict : ∀ {u}, Relation.TransGen
        (fun d v => Reach E entry v ∧ Dom E entry d v ∧ d ≠ v) v u →
        Dom E entry v u ∧ v ≠ u ∧ Reach E entry u := by
      intro u h
      induction h with
      | single h => exact ⟨h.2.1, h.2.2, h.1⟩
      | @tail w u _ h ih =>
        obtain ⟨hvw, hne, hw⟩ := ih
        refine ⟨hvw.trans h.2.1, ?_, h.1⟩
        rintro rfl
        exact hne (hvw.antisymm h.2.1 h.1)
    exact (hstrict hcycle).2.1 rfl

end Kint.Digraph
