import Kint.LLVM.Sound
import Kint.Range.Width

/-!
# The maps of blocks

What a part of `updateRangeFor` that changes no range of an identifier does to the maps of the
blocks: entries stay and grow (`Extends`), and the entry of a value that no terminator tests
contains what `getRange` looks up for it (`Clean`).  Both follow from the few ways in which the
maps are updated (`Touches`).  A block receives the entries of its predecessors, but for back
edges (`propagate_extends`).

## Touching a map

An entry comes into a map in one of three ways: `getRange` puts what it looks up there, a
visitor joins the range of its result to the entry, or the map of a predecessor is merged, after
a terminator has refined it.  `Touches T` says that a state has been changed in these ways,
where the second and the third are about values in `T` only.  So the entries of other values
have been looked up, and stay clean.

## Reports

`Quiet T` says of a part of the pass that it touches values in `T` only when it reports no
change.  The condition is needed since a join that does change the range of an identifier makes
what was looked up earlier too small.  `PassWithin.quiet` gets this from the access of a part
(`Kint.Range.Access`).

## Terminators

A terminator inserts entries into a copy of a map, where an entry that exists stays as it is
(`Refines`, `visitTerminator_refines`).
-/

namespace Kint.Range

open Iteration

/-! ## Updates of maps -/

section Touches

variable (L : Library) (P : Program) (callees : CalleeMap) (taints : TaintMap)

/-- The state after the map of `BB` was joined with `VRM`. -/
def State.merged (s : State) (BB : BlockId) (VRM : ValueRangeMap) : State :=
  { s with funcVRMs := Function.update s.funcVRMs BB (mergeVRM L (s.funcVRMs BB) VRM) }

/-- What `getRange` looks up for a value. -/
def looked (m : RangeMap) (V : Value) : ConstantRange :=
  lookupRange L P callees taints ((integerWidth (P.typeOf V)).getD 0) m V

/-- The entries for a value contain what is looked up. -/
def Clean (s : State) (V : Value) : Prop :=
  ∀ BB R, s.funcVRMs BB V = some R → looked L P callees taints s.intRanges V ≤ R

/-- The ranges of identifiers stay; the maps of blocks are updated by looking up missing
entries, and for values in `T` otherwise. -/
inductive Touches (T : Value → Prop) : State → State → Prop
  | same {s s' : State} : s'.intRanges = s.intRanges → s'.funcVRMs = s.funcVRMs → Touches T s s'
  | look {s : State} {BB : BlockId} {V : Value} : s.funcVRMs BB V = none →
      Touches T s (s.setRange BB V (looked L P callees taints s.intRanges V))
  | join {s : State} {BB : BlockId} {V : Value} {R : ConstantRange} : T V →
      Touches T s (s.setRange BB V (joined L (s.funcVRMs BB V) R).2)
  | merge {s t : State} {BB : BlockId} {VRM : ValueRangeMap} : Touches T s t →
      (∀ V R, ¬ T V → VRM V = some R → Clean L P callees taints s V →
        looked L P callees taints s.intRanges V ≤ R) →
      Touches T s (t.merged L BB VRM)
  | trans {s t u : State} : Touches T s t → Touches T t u → Touches T s u

/-- Entries stay, and they grow. -/
def Extends (s s' : State) : Prop :=
  ∀ BB V R, s.funcVRMs BB V = some R → ∃ R', s'.funcVRMs BB V = some R' ∧ R ≤ R'

end Touches

theorem Extends.refl (s : State) : Extends s s := fun _ _ R hR => ⟨R, hR, le_rfl⟩

theorem Extends.trans {s t u : State} (h : Extends s t) (h' : Extends t u) : Extends s u := by
  intro BB V R hR
  obtain ⟨S, hS, hle⟩ := h BB V R hR
  obtain ⟨S', hS', hle'⟩ := h' BB V S hS
  exact ⟨S', hS', hle.trans hle'⟩

theorem State.setRange_funcVRMs (s : State) (BB : BlockId) (V : Value) (R : ConstantRange)
    (BB' : BlockId) (V' : Value) :
    (s.setRange BB V R).funcVRMs BB' V' =
      if BB' = BB ∧ V' = V then some R else s.funcVRMs BB' V' := by
  show Function.update s.funcVRMs BB (Function.update (s.funcVRMs BB) V (some R)) BB' V' = _
  by_cases hBB : BB' = BB
  · subst hBB
    rw [Function.update_self]
    by_cases hV : V' = V
    · rw [if_pos ⟨rfl, hV⟩, hV, Function.update_self]
    · rw [if_neg fun h => hV h.2, Function.update_of_ne hV]
  · rw [if_neg fun h => hBB h.1, Function.update_of_ne hBB]

section Pass

variable {L : Library} {P : Program} {callees : CalleeMap} {taints : TaintMap}
  {T T' : Value → Prop} {s s' : State} {V : Value}

/-- The maps after a map was joined to that of a block. -/
theorem State.merged_funcVRMs (s : State) (BB : BlockId) (VRM : ValueRangeMap) (BB' : BlockId)
    (V : Value) : (s.merged L BB VRM).funcVRMs BB' V =
      if BB' = BB then mergeVRM L (s.funcVRMs BB) VRM V else s.funcVRMs BB' V := by
  show Function.update s.funcVRMs BB (mergeVRM L (s.funcVRMs BB) VRM) BB' V = _
  by_cases hBB : BB' = BB
  · rw [if_pos hBB, hBB, Function.update_self]
  · rw [if_neg hBB, Function.update_of_ne hBB]

namespace Touches

theorem refl (s : State) : Touches L P callees taints T s s := .same rfl rfl

theorem mono (hT : ∀ V, T V → T' V) (h : Touches L P callees taints T s s') :
    Touches L P callees taints T' s s' := by
  induction h with
  | same hr hm => exact .same hr hm
  | look hnone => exact .look hnone
  | join hV => exact .join (hT _ hV)
  | merge _ hVRM ih => exact .merge ih fun V R hV => hVRM V R fun hV' => hV (hT V hV')
  | trans _ _ ih ih' => exact .trans ih ih'

theorem intRanges (h : Touches L P callees taints T s s') : s'.intRanges = s.intRanges := by
  induction h with
  | same hr _ => exact hr
  | look => rfl
  | join => rfl
  | merge _ _ ih => exact ih
  | trans _ _ ih ih' => exact ih'.trans ih

theorem extends_maps (hL : L.ranges.UnionLaws) (h : Touches L P callees taints T s s') :
    Extends s s' := by
  induction h with
  | same _ hm => exact fun BB V R hR => ⟨R, by rwa [hm], le_rfl⟩
  | @look s BB V hnone =>
    intro BB' V' R hR
    rw [State.setRange_funcVRMs]
    split
    · rename_i heq
      rw [heq.1, heq.2, hnone] at hR
      cases hR
    · exact ⟨R, hR, le_rfl⟩
  | @join s BB V R _ =>
    intro BB' V' R' hR'
    rw [State.setRange_funcVRMs]
    split
    · rename_i heq
      rw [heq.1, heq.2] at hR'
      rw [hR']
      exact ⟨_, rfl, le_joined hL⟩
    · exact ⟨R', hR', le_rfl⟩
  | @merge s t BB VRM _ _ ih =>
    refine ih.trans fun BB' V R hR => ?_
    rw [State.merged_funcVRMs]
    split
    · rename_i heq
      rw [heq] at hR
      unfold mergeVRM
      cases VRM V with
      | none => exact ⟨R, hR, le_rfl⟩
      | some S =>
        rw [hR]
        exact ⟨_, rfl, le_joined hL⟩
    · exact ⟨R, hR, le_rfl⟩
  | trans _ _ ih ih' => exact ih.trans ih'

/-- A value that is not touched stays clean. The induction is on the updates of the maps, each of
which names the value whose entry it makes. -/
theorem clean (hL : L.ranges.UnionLaws) (hV : ¬ T V) (h : Touches L P callees taints T s s')
    (hs : Clean L P callees taints s V) : Clean L P callees taints s' V := by
  induction h with
  | same hr hm =>
    intro BB R hR
    rw [hr]
    exact hs BB R (by rwa [hm] at hR)
  | @look s BB V' hnone =>
    intro BB' R hR
    rw [State.setRange_funcVRMs] at hR
    split at hR
    · rename_i heq
      rw [← Option.some.inj hR, heq.2]
      exact le_rfl
    · exact hs BB' R hR
  | @join s BB V' R' hV' =>
    intro BB' R hR
    rw [State.setRange_funcVRMs, if_neg] at hR
    · exact hs BB' R hR
    · rintro ⟨-, rfl⟩
      exact hV hV'
  | @merge s t BB VRM hst hVRM ih =>
    intro BB' R hR
    rw [State.merged_funcVRMs] at hR
    split at hR
    · unfold mergeVRM at hR
      cases hnew : VRM V with
      | none =>
        rw [hnew] at hR
        exact ih hs BB R hR
      | some S =>
        rw [hnew] at hR
        rw [← Option.some.inj hR]
        cases hold : t.funcVRMs BB V with
        | none =>
          show looked L P callees taints t.intRanges V ≤ S
          rw [hst.intRanges]
          exact hVRM V S hV hnew hs
        | some S' => exact (ih hs BB S' hold).trans (le_joined hL)
    · exact ih hs BB' R hR
  | trans _ _ ih ih' => exact ih' (ih hs)

end Touches

/-! ## Queries -/

variable (L P callees taints) in
/-- A query only looks up. -/
def Looks {α : Type} (q : Query α) : Prop :=
  ∀ s a s', q s = .ok (a, s') → ∀ T, Touches L P callees taints T s s'

theorem looks_pure {α : Type} (a : α) : Looks L P callees taints (pure a : Query α) := by
  intro s a' s' h T
  obtain ⟨-, rfl⟩ := Query.pure_eq_ok.mp h
  exact .refl s

theorem Looks.bind {α β : Type} {q : Query α} {k : α → Query β}
    (hq : Looks L P callees taints q) (hk : ∀ a, Looks L P callees taints (k a)) :
    Looks L P callees taints (q >>= k) := by
  intro s b s' h T
  obtain ⟨a, t, ha, h⟩ := Query.bind_eq_ok.mp h
  exact .trans (hq s a t ha T) (hk a t b s' h T)

theorem getRange_looks (BB : BlockId) (V : Value) :
    Looks L P callees taints (getRange L P callees taints BB V) := by
  intro s R s' h T
  unfold getRange at h
  split at h
  · obtain ⟨-, rfl⟩ := Prod.mk.inj (Except.ok.inj h)
    exact .refl s
  · split at h
    · obtain ⟨-, rfl⟩ := Prod.mk.inj (Except.ok.inj h)
      exact .refl s
    · rename_i hnone
      split at h
      · cases h
      · rename_i w hw
        obtain ⟨-, rfl⟩ := Prod.mk.inj (Except.ok.inj h)
        have hlooked : looked L P callees taints s.intRanges V =
            lookupRange L P callees taints w s.intRanges V := by
          rw [looked, hw, Option.getD_some]
        rw [← hlooked]
        split
        · exact .refl s
        · exact .look hnone

/-- A query that joins no map to that of a block only looks up. -/
theorem QueryWithin.looks {A : Access} (hA : ∀ BB, ¬ A.merges BB) {α : Type} {q : Query α}
    (h : QueryWithin L P callees taints A q) : Looks L P callees taints q := by
  induction h with
  | pure a => exact looks_pure a
  | ask _ => exact getRange_looks _ _
  | copy _ =>
    intro s a s' h T
    obtain ⟨-, rfl⟩ := Prod.mk.inj (Except.ok.inj h)
    exact .refl s
  | merge h => exact absurd h (hA _)
  | bind _ _ ihq ihk => exact ihq.bind ihk

/-- Steps that ask for ranges, and join to those of identifiers. -/
def Access.joining : Access where
  asks _ _ := True
  copies _ := True
  merges _ := False
  records _ _ := False
  joins _ := True

/-- What is asked for at a terminator is looked up. -/
theorem visitTerminator_looks (i : InstId) (BB : BlockId) (VRM : ValueRangeMap) :
    Looks L P callees taints (visitTerminator L P callees taints i BB VRM) :=
  (visitTerminator_within (A := .joining) fun _ _ => trivial).looks fun _ h => h

/-! ## Passes -/

variable (L P callees taints) in
/-- A run that reports no change touches values in `T` only. -/
def Quiet (T : Value → Prop) (f : Pass State Event) : Prop :=
  ∀ s r, f s = .ok r → r.changed = false → Touches L P callees taints T s r.state

namespace Quiet

variable {f g : Pass State Event}

theorem mono (hT : ∀ V, T V → T' V) (hf : Quiet L P callees taints T f) :
    Quiet L P callees taints T' f := fun s r h hc => (hf s r h hc).mono hT

theorem idle : Quiet L P callees taints T fun s => .ok (.idle s) := by
  intro s r h _
  obtain rfl := Except.ok.inj h
  exact .refl s

theorem seq (hf : Quiet L P callees taints T f) (hg : Quiet L P callees taints T g) :
    Quiet L P callees taints T (f.seq g) := by
  intro s r h hc
  obtain ⟨a, b, ha, hb, rfl⟩ := Pass.seq_eq_ok.mp h
  obtain ⟨hca, hcb⟩ := Bool.or_eq_false_iff.mp hc
  exact .trans (hf s a ha hca) (hg _ b hb hcb)

theorem forEach {ι : Type} {h : ι → Pass State Event} {xs : List ι}
    (hh : ∀ x ∈ xs, Quiet L P callees taints T (h x)) :
    Quiet L P callees taints T (forEach h xs) := by
  induction xs with
  | nil => exact idle
  | cons x xs ih =>
    exact seq (hh x List.mem_cons_self) (ih fun y hy => hh y (List.mem_cons_of_mem x hy))

theorem withQuery {α : Type} {q : Query α} {k : α → Pass State Event}
    (hq : Looks L P callees taints q) (hk : ∀ a, Quiet L P callees taints T (k a)) :
    Quiet L P callees taints T (withQuery q k) := by
  intro s r h hc
  obtain ⟨⟨a, t⟩, ha, h⟩ := Iteration.bind_eq_ok.mp h
  exact .trans (hq s a t ha T) (hk a t r h hc)

/-- A join that reports nothing touches no map. -/
theorem union (hL : L.ranges.UnionLaws) (sID : String) (R : ConstantRange) :
    Quiet L P callees taints T (unionRange L sID R) := by
  intro s r h hc
  have hsame := (unionRange_grows hL h).2 hc
  unfold unionRange at h
  split at h
  · obtain rfl := Except.ok.inj h
    exact .refl s
  · obtain rfl := Except.ok.inj h
    exact .same hsame rfl

end Quiet

/-- A join to the entry of a value touches this value. -/
theorem unionBlockRange_touches {BB : BlockId} {R : ConstantRange} (hV : T V) :
    Touches L P callees taints T s (unionBlockRange L BB V R s) := by
  unfold unionBlockRange
  split
  · exact .refl s
  · exact .join hV

/-- A part of the pass that reports no change touches the values that it records. -/
theorem PassWithin.quiet (hL : L.ranges.UnionLaws) {A : Access} (hA : ∀ BB, ¬ A.merges BB)
    (hT : ∀ BB V, A.records BB V → T V) {f : Pass State Event}
    (h : PassWithin L P callees taints A f) : Quiet L P callees taints T f := by
  induction h with
  | idle => exact .idle
  | union _ => exact .union hL _ _
  | record hV _ ih =>
    intro s r h hc
    exact .trans (unionBlockRange_touches (hT _ _ hV)) (ih _ r h hc)
  | query hq _ ih => exact .withQuery (hq.looks hA) ih
  | seq _ _ ihf ihg => exact .seq ihf ihg

theorem passArgument_quiet (hL : L.ranges.UnionLaws) (BB : BlockId) (f : FuncId)
    (arg : Value × ℕ) : Quiet L P callees taints T (passArgument L P callees taints BB f arg) := by
  refine PassWithin.quiet hL ?_ ?_
    (passArgument_within (A := .joining) (fun _ => trivial) fun _ _ => trivial)
  · exact fun _ h => h
  · exact fun _ _ h => h.elim

/-- Passing the arguments of a call touches no value. -/
theorem passArguments_quiet (hL : L.ranges.UnionLaws) (BB : BlockId) (f : FuncId)
    (args : List (Value × ℕ)) : Quiet L P callees taints T
      (if skipsCallee P f then fun s => .ok (.idle s)
        else Iteration.forEach (passArgument L P callees taints BB f) args) := by
  split
  · exact .idle
  · exact .forEach fun arg _ => passArgument_quiet hL BB f arg

/-- The part about identifiers touches the pointer of a store. -/
theorem updateGlobal_quiet (hL : L.ranges.UnionLaws) (F : FuncId) (i : InstId) :
    Quiet L P callees taints (StoresTo P i) (updateGlobal L P callees taints F i) := by
  refine PassWithin.quiet hL ?_ ?_ updateGlobal_within
  · exact fun _ h => h
  · exact fun _ _ h => h.2

/-- The part about the map of the block touches the result. -/
theorem updateLocal_quiet (hL : L.ranges.UnionLaws) (backEdges : List (BlockId × BlockId))
    (i : InstId) :
    Quiet L P callees taints (· = .inst i) (updateLocal L P callees taints backEdges i) := by
  refine PassWithin.quiet hL ?_ ?_ updateLocal_within
  · exact fun _ h => h
  · exact fun _ _ h => h.2.2

/-- An instruction touches the values that it updates. -/
theorem updateRangeForInst_quiet (hL : L.ranges.UnionLaws)
    (backEdges : List (BlockId × BlockId)) (F : FuncId) (i : InstId) :
    Quiet L P callees taints (UpdatedBy P i)
      (updateRangeForInst L P callees taints backEdges F i) :=
  .seq ((updateGlobal_quiet hL F i).mono fun _ => .inr)
    ((updateLocal_quiet hL backEdges i).mono fun _ => .inl)

/-! ## Predecessors -/

variable (P) in
/-- The values that a terminator tests, which are refined for its targets. -/
def TestedBy (i : InstId) (V : Value) : Prop :=
  match (P.inst i).op with
  | .condBr (.inst c) _ _ =>
    match (P.inst c).op with
    | .icmp _ lhs rhs => V = lhs ∨ V = rhs
    | _ => False
  | .switch cond _ _ => V = cond
  | _ => False

theorem insert_of_some {m : ValueRangeMap} {R S : ConstantRange} {V' : Value}
    (h : m V = some R) : m.insert V' S V = some R := by
  unfold ValueRangeMap.insert
  split
  · exact h
  · rename_i hV'
    rw [Function.update_of_ne, h]
    rintro rfl
    rw [h] at hV'
    exact hV' rfl

theorem insert_of_ne {m : ValueRangeMap} {S : ConstantRange} {V' : Value} (h : V ≠ V') :
    m.insert V' S V = m V := by
  unfold ValueRangeMap.insert
  split
  · rfl
  · exact Function.update_of_ne h _ _

/-- What a query returns satisfies `post`. -/
def Returns {α : Type} (post : α → Prop) (q : Query α) : Prop :=
  ∀ s a s', q s = .ok (a, s') → post a

theorem returns_pure {α : Type} {post : α → Prop} {a : α} (ha : post a) :
    Returns post (pure a) := by
  intro s a' s' h
  obtain ⟨rfl, -⟩ := Query.pure_eq_ok.mp h
  exact ha

theorem Returns.bind {α β : Type} {post : β → Prop} {q : Query α} {k : α → Query β}
    (hk : ∀ a, Returns post (k a)) : Returns post (q >>= k) := by
  intro s b s' h
  obtain ⟨a, t, -, h⟩ := Query.bind_eq_ok.mp h
  exact hk a t b s' h

variable (P) in
/-- A map keeps the entries of another one; beyond them, it may have one for what the
terminator tests. -/
def Refines (i : InstId) (VRM VRM' : ValueRangeMap) : Prop :=
  (∀ V R, VRM V = some R → VRM' V = some R) ∧ ∀ V, ¬ TestedBy P i V → VRM' V = VRM V

/-- A refined map keeps the entries that are there. The map is filled by `insert`, which does
nothing for a value that has an entry. -/
theorem visitTerminator_refines (i : InstId) (BB : BlockId) (VRM : ValueRangeMap) :
    Returns (Refines P i VRM) (visitTerminator L P callees taints i BB VRM) := by
  have hsame : Returns (Refines P i VRM) (pure VRM) :=
    returns_pure ⟨fun _ _ h => h, fun _ _ => rfl⟩
  unfold visitTerminator
  split
  · rename_i cond ifTrue ifFalse hop
    unfold visitBranchInst
    split
    · rename_i c
      split
      · rename_i pred LHS RHS hc
        split
        · refine .bind fun LCR => .bind fun RCR => returns_pure ⟨fun V R hV => ?_, fun V hV => ?_⟩
          · exact insert_of_some (insert_of_some hV)
          · have htested : ¬ (V = LHS ∨ V = RHS) := by simpa only [TestedBy, hop, hc] using hV
            obtain ⟨hl, hr⟩ := not_or.mp htested
            rw [insert_of_ne hr, insert_of_ne hl]
        · exact hsame
      · exact hsame
    · exact hsame
  · rename_i cond defaultDest cases hop
    unfold visitSwitchInst
    split
    · refine .bind fun VCR => returns_pure ⟨fun V R hV => insert_of_some hV, fun V hV => ?_⟩
      exact insert_of_ne (by simpa only [TestedBy, hop] using hV)
    · exact hsame
  · exact hsame

variable {backEdges : List (BlockId × BlockId)} {BB Pred : BlockId}

/-- What comes from a predecessor touches the values that its terminator tests. -/
theorem propagateFrom_touches {u : Unit}
    (h : propagateFrom L P callees taints backEdges BB Pred s = .ok (u, s')) :
    Touches L P callees taints
      (fun V => isBackEdge backEdges (Pred, BB) = false ∧ TestedBy P (P.block Pred).term V)
      s s' := by
  unfold propagateFrom at h
  split at h
  · obtain ⟨-, rfl⟩ := Prod.mk.inj (Except.ok.inj h)
    exact .refl s
  · rename_i hback
    obtain ⟨⟨VRM, t⟩, hVRM, h⟩ := Iteration.bind_eq_ok.mp h
    obtain ⟨-, rfl⟩ := Prod.mk.inj (Except.ok.inj h)
    refine .merge (visitTerminator_looks _ _ _ s VRM t hVRM _) fun V R hV hR hclean => ?_
    have hrefines := visitTerminator_refines _ _ _ s VRM t hVRM
    rw [hrefines.2 V fun ht => hV ⟨Bool.eq_false_iff.mpr hback, ht⟩] at hR
    exact hclean Pred R hR

/-- What comes from all predecessors touches the values that their terminators test. -/
theorem propagate_touches {preds : List BlockId} {u : Unit}
    (h : propagate L P callees taints backEdges BB preds s = .ok (u, s')) :
    Touches L P callees taints (fun V => ∃ Pred ∈ preds,
      isBackEdge backEdges (Pred, BB) = false ∧ TestedBy P (P.block Pred).term V) s s' := by
  induction preds generalizing s with
  | nil =>
    obtain ⟨-, rfl⟩ := Query.pure_eq_ok.mp h
    exact .refl s
  | cons Pred preds ih =>
    obtain ⟨_, t, ht, h⟩ := Query.bind_eq_ok.mp h
    refine .trans ((propagateFrom_touches ht).mono fun V hV => ⟨Pred, List.mem_cons_self, hV⟩)
      ((ih h).mono ?_)
    rintro V ⟨Pred', hPred', hV⟩
    exact ⟨Pred', List.mem_cons_of_mem Pred hPred', hV⟩

/-- The entries of a predecessor reach the block. -/
theorem propagateFrom_extends (hL : L.ranges.UnionLaws) (hW : L.ranges.WidthLaws)
    (hP : WellTyped P) (hs : Typed P s) (hback : isBackEdge backEdges (Pred, BB) = false)
    {u : Unit} (h : propagateFrom L P callees taints backEdges BB Pred s = .ok (u, s'))
    {R : ConstantRange} (hR : s.funcVRMs Pred V = some R) :
    ∃ R', s'.funcVRMs BB V = some R' ∧ R ≤ R' := by
  unfold propagateFrom at h
  rw [hback, if_neg Bool.false_ne_true] at h
  obtain ⟨⟨VRM, t⟩, hVRM, h⟩ := Iteration.bind_eq_ok.mp h
  obtain ⟨-, rfl⟩ := Prod.mk.inj (Except.ok.inj h)
  obtain ⟨ht, hm⟩ := visitTerminator_typed hL hW hP (hs Pred) s VRM t hs hVRM
  have hentry : VRM V = some R := (visitTerminator_refines _ _ _ s VRM t hVRM).1 V R hR
  refine ⟨(joined L (t.funcVRMs BB V) R).2, ?_, le_joined_right hL fun S hS => ?_⟩
  · show (t.merged L BB VRM).funcVRMs BB V = _
    rw [State.merged_funcVRMs, if_pos rfl, mergeVRM, hentry]
  · exact Option.some.inj ((hm V R hentry).symm.trans (ht BB V S hS))

/-- After the loop, the entries of each predecessor are in those of the block. -/
theorem propagate_extends (hL : L.ranges.UnionLaws) (hW : L.ranges.WidthLaws)
    (hP : WellTyped P) {preds : List BlockId} (hs : Typed P s) (hmem : Pred ∈ preds)
    (hback : isBackEdge backEdges (Pred, BB) = false) {u : Unit}
    (h : propagate L P callees taints backEdges BB preds s = .ok (u, s'))
    {R : ConstantRange} (hR : s.funcVRMs Pred V = some R) :
    ∃ R', s'.funcVRMs BB V = some R' ∧ R ≤ R' := by
  induction preds generalizing s R with
  | nil => cases hmem
  | cons Pred' preds ih =>
    obtain ⟨_, t, ht, htail⟩ := Query.bind_eq_ok.mp h
    have htyped := (propagateFrom_typed hL hW hP _ _ _ s _ t hs ht).1
    rcases List.mem_cons.mp hmem with rfl | hmem
    · obtain ⟨S, hS, hle⟩ := propagateFrom_extends hL hW hP hs hback ht hR
      obtain ⟨S', hS', hle'⟩ := (propagate_touches htail).extends_maps hL BB V S hS
      exact ⟨S', hS', hle.trans hle'⟩
    · obtain ⟨S, hS, hle⟩ := (propagateFrom_touches ht).extends_maps hL Pred V R hR
      obtain ⟨S', hS', hle'⟩ := ih htyped hmem htail hS
      exact ⟨S', hS', hle.trans hle'⟩

end Pass

end Kint.Range
