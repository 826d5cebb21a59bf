import Kint.Digraph
import Mathlib.Data.List.Basic
import Mathlib.Logic.Function.Iterate

/-!
# Depth-first search

A depth-first search from an entry vertex, one step at a time.  The stack holds the path to the
current vertex, with the successors that were not examined yet; an edge to a vertex on the stack
is a back edge.

The vertices that were found stand in the order in which they are left, the last one first
(`State.order`): a vertex that is found goes in between the stack and the vertices that were
left, and leaving a vertex does not move it.  So the order only grows, and every edge that was
examined either is a back edge or goes forward in it (`Invariant`).  At the end of the search
the edges that are not back edges therefore have no cycle among the vertices that are reachable
from the entry (`exists_rank`).

## Main definitions

* `step`: one step of the search; `State.init` and iteration of `step` make the search.
* `IsBackEdges E entry back`: `back` is what the search of some enumeration of the successors
  finds.  A pass that takes its back edges from a library uses them through this notion, so that
  its results do not depend on the order of successors.
* `FinishOrder E entry back l`: `l` lists the vertices that can be reached, each once, such that
  every edge between them that is not in `back` goes forward.

## Main results

* `invariant_step`, `invariant_iterate`: what one step and the search keep.
* `IsBackEdges.exists_order`: the search leaves a finish order.
* `exists_rank`: a rank that every edge but the back edges raises.
-/

namespace Kint.DepthFirst

variable {V : Type*}

/-- The path to the current vertex, the vertices that were left, the last one first, and
the back edges that were found. -/
structure State (V : Type*) where
  stack : List (V × List V)
  finished : List V
  back : List (V × V)

/-- The vertices that were found: those on the stack from the entry on, and then those
that were left. -/
def State.order (s : State V) : List V := (s.stack.map Prod.fst).reverse ++ s.finished

def State.init (succ : V → List V) (entry : V) : State V := ⟨[(entry, succ entry)], [], []⟩

section Search

variable [DecidableEq V]

/-- Examine the next successor of the current vertex, or leave the vertex. -/
def step (succ : V → List V) (s : State V) : State V :=
  match s.stack with
  | [] => s
  | (u, []) :: path => ⟨path, u :: s.finished, s.back⟩
  | (u, v :: vs) :: path =>
    if v ∈ u :: path.map Prod.fst then ⟨(u, vs) :: path, s.finished, s.back ++ [(u, v)]⟩
    else if v ∈ s.finished then ⟨(u, vs) :: path, s.finished, s.back⟩
    else ⟨(v, succ v) :: (u, vs) :: path, s.finished, s.back⟩

/-- `back` lists the back edges of a complete depth-first search of the graph, which may
examine the successors of a vertex in any order. -/
def IsBackEdges (E : V → V → Prop) (entry : V) (back : List (V × V)) : Prop :=
  ∃ succ : V → List V, (∀ u v, v ∈ succ u ↔ E u v) ∧
    ∃ n, ((step succ)^[n] (.init succ entry)).stack = [] ∧
      ∀ e, e ∈ back ↔ e ∈ ((step succ)^[n] (.init succ entry)).back

end Search

/-! ## Positions in a list -/

/-- In a list without repetitions, what stands before has the smaller index. -/
theorem idxOf_lt_idxOf [DecidableEq V] {u v : V} {l : List V} (hl : l.Nodup)
    (h : [u, v].Sublist l) : l.idxOf u < l.idxOf v := by
  induction l with
  | nil => cases h
  | cons a l ih =>
    obtain ⟨ha, hl⟩ := List.nodup_cons.mp hl
    rcases List.sublist_cons_iff.mp h with h | ⟨r, hr, h⟩
    · have hu : a ≠ u := fun heq => ha (heq ▸ h.subset List.mem_cons_self)
      have hv : a ≠ v := fun heq => ha (heq ▸ h.subset (by simp))
      rw [List.idxOf_cons_ne _ hu, List.idxOf_cons_ne _ hv]
      exact Nat.succ_lt_succ (ih hl h)
    · obtain ⟨rfl, rfl⟩ := List.cons.inj hr
      have hv : u ≠ v := fun heq => ha (heq ▸ h.subset List.mem_cons_self)
      rw [List.idxOf_cons_self, List.idxOf_cons_ne _ hv]
      exact Nat.succ_pos _

/-! ## The invariant -/

variable {succ : V → List V} {entry : V} {s : State V}

/-- The edge is a back edge or goes forward in the order. -/
def Examined (s : State V) (u v : V) : Prop := (u, v) ∈ s.back ∨ [u, v].Sublist s.order

/-- What holds in the course of a search. Vertices are listed in the order in which the search
leaves them, those that are still on the stack in front. An edge was `Examined` if it is a back edge
or leads to a vertex further down this list. -/
structure Invariant (succ : V → List V) (entry : V) (s : State V) : Prop where
  nodup : s.order.Nodup
  entry_mem : entry ∈ s.order
  back : ∀ u v, (u, v) ∈ s.back → u ∈ s.order ∧ v ∈ succ u ∧ (u = v ∨ [v, u].Sublist s.order)
  stack : ∀ u vs, (u, vs) ∈ s.stack → ∀ v,
    (v ∈ vs → v ∈ succ u) ∧ (v ∈ succ u → v ∈ vs ∨ Examined s u v)
  finished : ∀ u ∈ s.finished, ∀ v ∈ succ u, Examined s u v
  parent : ∀ v ∈ s.order, v = entry ∨ ∃ u, v ∈ succ u ∧ [u, v].Sublist s.order

/-- The search starts with the entry on the stack and nothing examined. -/
theorem invariant_init : Invariant succ entry (.init succ entry) where
  nodup := List.nodup_singleton entry
  entry_mem := List.mem_singleton_self entry
  back _ _ h := by cases h
  stack u vs h v := by
    obtain ⟨rfl, rfl⟩ := Prod.mk.inj (List.mem_singleton.mp h)
    exact ⟨id, .inl⟩
  finished _ h := by cases h
  parent v h := .inl (List.mem_singleton.mp h)

/-- An edge that was examined stays examined as the order and the back edges grow. -/
theorem Examined.mono {s' : State V} {u v : V} (h : Examined s u v)
    (horder : s.order.Sublist s'.order) (hback : s.back ⊆ s'.back) : Examined s' u v :=
  h.imp (fun h => hback h) fun h => h.trans horder

/-- The current vertex is left. -/
theorem Invariant.leave {u : V} {path : List (V × List V)} (h : Invariant succ entry s)
    (hs : s.stack = (u, []) :: path) :
    Invariant succ entry ⟨path, u :: s.finished, s.back⟩ := by
  have horder : State.order ⟨path, u :: s.finished, s.back⟩ = s.order := by
    simp [State.order, hs]
  have hexamined : ∀ {a b}, Examined s a b → Examined ⟨path, u :: s.finished, s.back⟩ a b :=
    fun he => he.mono (horder ▸ .refl _) fun _ => id
  refine ⟨horder ▸ h.nodup, horder ▸ h.entry_mem, horder ▸ h.back, fun a vs ha v => ?_,
    fun a ha v hv => ?_, horder ▸ h.parent⟩
  · obtain ⟨hsucc, hleft⟩ := h.stack a vs (by rw [hs]; exact List.mem_cons_of_mem _ ha) v
    exact ⟨hsucc, fun hv => (hleft hv).imp_right hexamined⟩
  · rcases List.mem_cons.mp ha with rfl | ha
    · have hleft := (h.stack a [] (by rw [hs]; exact List.mem_cons_self) v).2 hv
      exact hexamined (hleft.resolve_left List.not_mem_nil)
    · exact hexamined (h.finished a ha v hv)

/-- A successor was examined that is on the stack or was left. The list of vertices stays as it is,
and the edge is accounted for: it is a new back edge, or leads to a vertex that was left before. -/
theorem Invariant.pass {u v : V} {vs : List V} {path : List (V × List V)} {back : List (V × V)}
    (h : Invariant succ entry s) (hs : s.stack = (u, v :: vs) :: path)
    (hsub : s.back ⊆ back) (hback : ∀ e ∈ back, e ∈ s.back ∨ e = (u, v))
    (hedge : (u, v) ∈ back → u = v ∨ [v, u].Sublist s.order)
    (hexamined : (u, v) ∈ back ∨ [u, v].Sublist s.order) :
    Invariant succ entry ⟨(u, vs) :: path, s.finished, back⟩ := by
  have horder : State.order ⟨(u, vs) :: path, s.finished, back⟩ = s.order := by
    simp [State.order, hs]
  have hmono : ∀ {a b}, Examined s a b → Examined ⟨(u, vs) :: path, s.finished, back⟩ a b :=
    fun he => he.mono (horder ▸ .refl _) hsub
  have htop := h.stack u (v :: vs) (by rw [hs]; exact List.mem_cons_self)
  refine ⟨horder ▸ h.nodup, horder ▸ h.entry_mem, fun a b he => ?_, fun a ws ha b => ?_,
    fun a ha b hb => hmono (h.finished a ha b hb), horder ▸ h.parent⟩
  · rw [horder]
    rcases hback _ he with hold | hnew
    · exact h.back a b hold
    · obtain ⟨rfl, rfl⟩ := Prod.mk.inj hnew
      exact ⟨by simp [State.order, hs], (htop b).1 List.mem_cons_self, hedge he⟩
  · rcases List.mem_cons.mp ha with heq | ha
    · obtain ⟨rfl, rfl⟩ := Prod.mk.inj heq
      refine ⟨fun hb => (htop b).1 (List.mem_cons_of_mem v hb), fun hb => ?_⟩
      rcases (htop b).2 hb with hmem | he
      · rcases List.mem_cons.mp hmem with rfl | hmem
        · exact .inr (hexamined.imp_right fun h => horder ▸ h)
        · exact .inl hmem
      · exact .inr (hmono he)
    · obtain ⟨hsucc, hleft⟩ := h.stack a ws (by rw [hs]; exact List.mem_cons_of_mem _ ha) b
      exact ⟨hsucc, fun hb => (hleft hb).imp_right hmono⟩

/-- A vertex is found. The vertex is put on the stack. This keeps the order of the others, and adds
an edge from its predecessor on the stack. -/
theorem Invariant.find {u v : V} {vs : List V} {path : List (V × List V)}
    (h : Invariant succ entry s) (hs : s.stack = (u, v :: vs) :: path) (hv : v ∉ s.order) :
    Invariant succ entry ⟨(v, succ v) :: (u, vs) :: path, s.finished, s.back⟩ := by
  have hold : s.order = (path.map Prod.fst).reverse ++ u :: s.finished := by
    simp [State.order, hs]
  have hnew : State.order ⟨(v, succ v) :: (u, vs) :: path, s.finished, s.back⟩ =
      (path.map Prod.fst).reverse ++ u :: v :: s.finished := by
    simp [State.order]
  have hperm : ((path.map Prod.fst).reverse ++ u :: v :: s.finished).Perm (v :: s.order) := by
    rw [hold]
    exact ((List.Perm.swap v u _).append_left _).trans List.perm_middle
  have hgrow : s.order.Sublist ((path.map Prod.fst).reverse ++ u :: v :: s.finished) := by
    rw [hold]
    exact ((List.sublist_cons_self v _).cons_cons u).append_left _
  have hedge : [u, v].Sublist ((path.map Prod.fst).reverse ++ u :: v :: s.finished) :=
    ((List.nil_sublist _).cons_cons v |>.cons_cons u).trans (List.sublist_append_right _ _)
  have hmono : ∀ {a b}, Examined s a b →
      Examined ⟨(v, succ v) :: (u, vs) :: path, s.finished, s.back⟩ a b :=
    fun he => he.mono (hnew ▸ hgrow) fun _ => id
  have htop := h.stack u (v :: vs) (by rw [hs]; exact List.mem_cons_self)
  refine ⟨?_, ?_, fun a b he => ?_, fun a ws ha b => ?_,
    fun a ha b hb => hmono (h.finished a ha b hb), fun a ha => ?_⟩
  · rw [hnew, hperm.nodup_iff]
    exact List.nodup_cons.mpr ⟨hv, h.nodup⟩
  · rw [hnew]
    exact hgrow.subset h.entry_mem
  · rw [hnew]
    obtain ⟨ha, hb, horder⟩ := h.back a b he
    exact ⟨hgrow.subset ha, hb, horder.imp_right fun h => h.trans hgrow⟩
  · rcases List.mem_cons.mp ha with heq | ha
    · obtain ⟨rfl, rfl⟩ := Prod.mk.inj heq
      exact ⟨id, .inl⟩
    · rcases List.mem_cons.mp ha with heq | ha
      · obtain ⟨rfl, rfl⟩ := Prod.mk.inj heq
        refine ⟨fun hb => (htop b).1 (List.mem_cons_of_mem v hb), fun hb => ?_⟩
        rcases (htop b).2 hb with hmem | he
        · rcases List.mem_cons.mp hmem with rfl | hmem
          · exact .inr (.inr (hnew ▸ hedge))
          · exact .inl hmem
        · exact .inr (hmono he)
      · obtain ⟨hsucc, hleft⟩ := h.stack a ws (by rw [hs]; exact List.mem_cons_of_mem _ ha) b
        exact ⟨hsucc, fun hb => (hleft hb).imp_right hmono⟩
  · rw [hnew] at ha ⊢
    rcases List.mem_cons.mp (hperm.subset ha) with rfl | ha
    · exact .inr ⟨u, (htop a).1 List.mem_cons_self, hedge⟩
    · exact (h.parent a ha).imp_right fun ⟨b, hb, horder⟩ => ⟨b, hb, horder.trans hgrow⟩

variable [DecidableEq V]

/-- One step keeps the invariant: it examines an edge to a vertex that is new, that is on the stack,
or that was left before, or it leaves the top of the stack. -/
theorem invariant_step (h : Invariant succ entry s) : Invariant succ entry (step succ s) := by
  unfold step
  split
  · exact h
  · next u path hs => exact h.leave hs
  · next u v vs path hs =>
    have horder : s.order = (path.map Prod.fst).reverse ++ u :: s.finished := by
      simp [State.order, hs]
    split
    · next hv =>
      -- an edge to the stack
      refine h.pass hs (List.subset_append_left _ _) (fun e he => ?_) (fun _ => ?_)
        (.inl (List.mem_append_right _ List.mem_cons_self))
      · simpa using he
      · rcases List.mem_cons.mp hv with rfl | hv
        · exact .inl rfl
        · right
          rw [horder]
          exact (List.singleton_sublist.mpr (List.mem_reverse.mpr hv)).append
            (List.singleton_sublist.mpr List.mem_cons_self)
    · next hv =>
      split
      · next hfinished =>
        -- an edge to a vertex that was left
        have hforward : [u, v].Sublist s.order := by
          rw [horder]
          exact ((List.singleton_sublist.mpr hfinished).cons_cons u).trans
            (List.sublist_append_right _ _)
        refine h.pass hs (fun _ => id) (fun e he => .inl he) (fun he => ?_) (.inr hforward)
        exact (h.back u v he).2.2
      · next hfinished =>
        refine h.find hs ?_
        simp only [List.mem_cons, not_or] at hv
        simp [horder, hv.1, hv.2, hfinished]

/-- The invariant holds at every point of the search. -/
theorem invariant_iterate (n : ℕ) :
    Invariant succ entry ((step succ)^[n] (.init succ entry)) := by
  induction n with
  | zero => exact invariant_init
  | succ n ih =>
    rw [Function.iterate_succ_apply']
    exact invariant_step ih

/-! ## The end of the search -/

section Complete

variable {E : V → V → Prop} {back : List (V × V)} {u v : V}

/-- An edge that is not a back edge. -/
def Forward (E : V → V → Prop) (back : List (V × V)) (u v : V) : Prop := E u v ∧ (u, v) ∉ back

/-- What the search says about the list of all vertices in the order in which they were
left, the last one first. -/
structure FinishOrder (E : V → V → Prop) (entry : V) (back : List (V × V)) (l : List V) :
    Prop where
  nodup : l.Nodup
  entry_mem : entry ∈ l
  edge : ∀ u ∈ l, ∀ v, E u v → (u, v) ∈ back ∨ [u, v].Sublist l
  back : ∀ u v, (u, v) ∈ back → u ∈ l ∧ E u v ∧ (u = v ∨ [v, u].Sublist l)
  parent : ∀ v ∈ l, v = entry ∨ ∃ u, E u v ∧ [u, v].Sublist l

/-- The back edges that a search finds leave a finish order. -/
theorem IsBackEdges.exists_order (h : IsBackEdges E entry back) :
    ∃ l, FinishOrder E entry back l := by
  obtain ⟨succ, hsucc, n, hstack, hback⟩ := h
  have hinv : Invariant succ entry ((step succ)^[n] (.init succ entry)) := invariant_iterate n
  generalize (step succ)^[n] (.init succ entry) = s at hstack hback hinv
  have horder : s.order = s.finished := by
    simp [State.order, hstack]
  refine ⟨s.order, hinv.nodup, hinv.entry_mem, fun u hu v huv => ?_, fun u v huv => ?_,
    fun v hv => ?_⟩
  · exact (hinv.finished u (horder ▸ hu) v ((hsucc u v).mpr huv)).imp_left (hback _).mpr
  · obtain ⟨hu, hv, hle⟩ := hinv.back u v ((hback _).mp huv)
    exact ⟨hu, (hsucc u v).mp hv, hle⟩
  · exact (hinv.parent v hv).imp_right fun ⟨u, hu, hlt⟩ => ⟨u, (hsucc u v).mp hu, hlt⟩

variable {l : List V}

omit [DecidableEq V] in
/-- All vertices that can be reached are in the order. -/
theorem FinishOrder.mem (h : FinishOrder E entry back l) (hv : Digraph.Reach E entry v) :
    v ∈ l := by
  induction hv with
  | start => exact h.entry_mem
  | @step u v _ huv _ ih =>
    rcases h.edge u ih v huv with he | hlt
    · rcases (h.back u v he).2.2 with rfl | hlt
      · exact ih
      · exact hlt.subset List.mem_cons_self
    · exact hlt.subset (by simp)

/-- The edge to a vertex from the one that it was found from is no back edge. -/
theorem FinishOrder.not_back (h : FinishOrder E entry back l) (hlt : [u, v].Sublist l) :
    (u, v) ∉ back := by
  have hrank := idxOf_lt_idxOf h.nodup hlt
  intro he
  rcases (h.back u v he).2.2 with rfl | hgt
  · exact lt_irrefl _ hrank
  · exact lt_asymm hrank (idxOf_lt_idxOf h.nodup hgt)

/-- A vertex is reached from the one that it was found from; the induction is on its
position. -/
theorem FinishOrder.reach_forward (h : FinishOrder E entry back l) :
    ∀ n, ∀ v ∈ l, l.idxOf v ≤ n → Digraph.Reach (Forward E back) entry v := by
  intro n
  induction n with
  | zero =>
    intro v hv hn
    rcases h.parent v hv with rfl | ⟨u, -, hlt⟩
    · exact .start
    · exact absurd (idxOf_lt_idxOf h.nodup hlt) (by omega)
  | succ n ih =>
    intro v hv hn
    rcases h.parent v hv with rfl | ⟨u, huv, hlt⟩
    · exact .start
    · have hrank := idxOf_lt_idxOf h.nodup hlt
      have hu : Digraph.Reach (Forward E back) entry u :=
        ih u (hlt.subset List.mem_cons_self) (by omega)
      exact hu.step ⟨huv, h.not_back hlt⟩

/-- Only vertices that can be reached are in the order. -/
theorem FinishOrder.reach (h : FinishOrder E entry back l) (hv : v ∈ l) :
    Digraph.Reach E entry v := by
  have hpath := h.reach_forward _ v hv le_rfl
  clear hv
  induction hpath with
  | start => exact .start
  | step _ huv _ ih => exact ih.step huv.1

/-- The search finds what is reachable: there are numbers that grow along every edge
from a reachable vertex that is not a back edge, and every reachable vertex is reached
without back edges. -/
theorem IsBackEdges.exists_rank (h : IsBackEdges E entry back) : ∃ rank : V → ℕ,
    (∀ u v, Digraph.Reach E entry u → Forward E back u v → rank u < rank v) ∧
    (∀ v, Digraph.Reach E entry v → Digraph.Reach (Forward E back) entry v) ∧
    ∀ u v, (u, v) ∈ back → Digraph.Reach E entry u ∧ E u v := by
  obtain ⟨l, hl⟩ := h.exists_order
  refine ⟨l.idxOf, fun u v hu huv => ?_, fun v hv => hl.reach_forward _ v (hl.mem hv) le_rfl,
    fun u v huv => ⟨hl.reach (hl.back u v huv).1, (hl.back u v huv).2.1⟩⟩
  exact idxOf_lt_idxOf hl.nodup ((hl.edge u (hl.mem hu) v huv.1).resolve_left huv.2)

/-- Numbers that grow along the forward edges grow from a dominator to what it
dominates. -/
theorem rank_lt_of_dom {rank : V → ℕ} {d : V}
    (hrank : ∀ u v, Digraph.Reach E entry u → Forward E back u v → rank u < rank v)
    (hv : Digraph.Reach (Forward E back) entry v) (hdom : Digraph.Dom E entry d v)
    (hne : d ≠ v) : rank d < rank v := by
  -- the path without back edges to `v` goes through `d`
  have hpath : Digraph.Reach E entry v ∧
      (Digraph.AvoidReach E entry (fun w => w = d) v ∨ v = d ∨ rank d < rank v) := by
    clear hdom hne
    induction hv with
    | start =>
      refine ⟨.start, ?_⟩
      by_cases h : entry = d
      · exact .inr (.inl h)
      · exact .inl (.start h)
    | @step u w _ huw _ ih =>
      obtain ⟨hu, ih⟩ := ih
      refine ⟨hu.step huw.1, ?_⟩
      by_cases hw : w = d
      · exact .inr (.inl hw)
      · have hlt := hrank u w hu huw
        rcases ih with hpath | rfl | hd
        · exact .inl (hpath.step huw.1 hw)
        · exact .inr (.inr hlt)
        · exact .inr (.inr (hd.trans hlt))
  rcases hpath.2 with hpath | rfl | hlt
  · exact absurd hpath hdom
  · exact absurd rfl hne
  · exact hlt

end Complete

end Kint.DepthFirst
