import Kint.Commute
import Kint.Range.Termination

/-!
# What a module reads and writes

`doModulePass` on a module looks up the ranges of certain identifiers and updates those of
others (`moduleIds`).  All that it does depends on the ranges of these identifiers alone: its
footprint.

## Two directions

* It leaves the ranges of other identifiers as they are (`doModulePass_frame`).  An identifier
  that is not written is not in `Changes` either, so it is not widened.
* From two states that agree on the identifiers of the module it does the same
  (`doModulePass_matches`).

Together they make a `Footprint` in the sense of `Kint.Commute`, for which it is known when two
computations may change places.

## How the lemmas are built

`Agrees` is about two states within a visit: the ranges of some identifiers, the maps of some
blocks, and membership of some identifiers in `Changes`.  A query from states that agree returns
the same and leaves states that agree (`QueryAgrees`), and what a visit accesses is known from
`Kint.Range.Access` (`PassWithin.agrees`).  Maps of blocks are cleared before each visit of a
function, so that between two visits only the ranges of identifiers and `Changes` count
(`AgreesGlobally`), and between two calls of `doModulePass` only the ranges, since `Changes` is
cleared first (`iteration_one`).
-/

namespace Kint.Range

open Iteration

section Pass

variable (L : Library) (P : Program) (callees : CalleeMap) (taints : TaintMap)

/-! ## Identifiers that are looked up -/

/-- The identifiers under which `getRange` looks up the range of a value. -/
def lookupIds (V : Value) : List String :=
  (match V, P.opcode? V with
    | .inst i, some (.call _ _) =>
      if P.isInlineAsm i then [] else ((callees i).elim [] L.elements).map (getRetId L P)
    | V, _ => if getValueId L P V = "" then [] else [getValueId L P V]).filter
      fun sID => !taints.isSource sID

/-- The values whose ranges are asked for in a block: at the terminators of its
predecessors and at its instructions. -/
def queried (BB : BlockId) : List Value :=
  ((P.block BB).preds.flatMap fun Pred => queriedAtEnd P (P.block Pred).term) ++
    (P.block BB).insts.flatMap fun i =>
      queriedGlobally L P i ++ if (P.inst i).ty.isIntegerTy then queriedLocally P i else []

/-- A module looks up the range of an identifier. -/
def ModuleReads (M : Module) (sID : String) : Prop :=
  ∃ F ∈ M.functions, ∃ BB ∈ (P.func F).blocks, ∃ V ∈ queried L P BB,
    sID ∈ lookupIds L P callees taints V

/-- The identifiers whose ranges a module updates, in initializers or in
functions. -/
def moduleUpdates (M : Module) : Set String :=
  {sID | ∃ w, ModuleWrites L P callees M sID w}

/-- The identifiers whose ranges a module updates or looks up. -/
def moduleAccesses (M : Module) : Set String :=
  moduleUpdates L P callees M ∪ {sID | ModuleReads L P callees taints M sID}

end Pass

section Pass

variable {L : Library} {P : Program} {callees : CalleeMap} {taints : TaintMap}
  {A C : Set String} {B : Set BlockId} {BB : BlockId} {V : Value}

/-- A list that has all identifiers that a module updates. -/
def moduleWrites (L : Library) (P : Program) (callees : CalleeMap) (M : Module) : List String :=
  moduleIds L P callees M ++ (initializerRanges L P M).map Prod.fst

theorem ModuleWrites.mem_moduleWrites {M : Module} {sID : String} {w : ℕ}
    (h : ModuleWrites L P callees M sID w) : sID ∈ moduleWrites L P callees M := by
  cases h with
  | initializer h => exact List.mem_append_right _ (List.mem_map.mpr ⟨_, h, rfl⟩)
  | body h => exact List.mem_append_left _ h.mem_moduleIds

/-! ## Agreement -/

/-- Two states agree on the ranges of the identifiers in `A`, on the maps of the blocks in
`B`, and on which identifiers in `C` have changed. -/
structure Agrees (A : Set String) (B : Set BlockId) (C : Set String) (s s' : State) : Prop where
  intRanges : AgreeOn State.intRanges A s s'
  funcVRMs : AgreeOn State.funcVRMs B s s'
  changes : ∀ sID ∈ C, sID ∈ s.changes ↔ sID ∈ s'.changes

/-- From states that agree, a query fails, or it returns the same and leaves
states that agree. -/
def QueryAgrees (A : Set String) (B : Set BlockId) (C : Set String) {α : Type}
    (q : Query α) : Prop :=
  ∀ s s', Agrees A B C s s' →
    (∃ e e', q s = .error e ∧ q s' = .error e') ∨
      ∃ a t t', q s = .ok (a, t) ∧ q s' = .ok (a, t') ∧ Agrees A B C t t'

theorem queryAgrees_pure {α : Type} (a : α) : QueryAgrees A B C (pure a : Query α) :=
  fun s s' hs => .inr ⟨a, s, s', rfl, rfl, hs⟩

theorem QueryAgrees.bind {α β : Type} {q : Query α} {k : α → Query β}
    (hq : QueryAgrees A B C q) (hk : ∀ a, QueryAgrees A B C (k a)) :
    QueryAgrees A B C (q >>= k) := by
  intro s s' hs
  have hbind : ∀ s, (q >>= k) s = (q s >>= fun p => k p.1 p.2) := fun _ => rfl
  rcases hq s s' hs with ⟨e, e', h, h'⟩ | ⟨a, t, t', h, h', ht⟩
  · exact .inl ⟨e, e', by rw [hbind, h]; rfl, by rw [hbind, h']; rfl⟩
  · rw [hbind, hbind, h, h']
    exact hk a t t' ht

/-- The loop over callees depends on the ranges of their return identifiers, but for taint sources.
-/
theorem unionOfReturns_congr {w : ℕ} {m m' : RangeMap} {fs : List FuncId} :
    ∀ {CR : ConstantRange}, (∀ f ∈ fs, taints.isSource (getRetId L P f) = false →
        m (getRetId L P f) = m' (getRetId L P f)) →
      unionOfReturns L P taints w m fs CR = unionOfReturns L P taints w m' fs CR := by
  induction fs with
  | nil => exact fun _ => rfl
  | cons f fs ih =>
    intro CR hfs
    have htail := fun g hg => hfs g (List.mem_cons_of_mem f hg)
    unfold unionOfReturns
    split
    · rfl
    · rename_i hsource
      rw [hfs f List.mem_cons_self (Bool.eq_false_iff.mpr hsource)]
      split
      · exact ih htail
      · exact ih htail

/-- `getRange` depends on the identifiers that it looks up. Two maps that agree on these identifiers
give the same range for the value. -/
theorem lookupRange_congr {w : ℕ} {m m' : RangeMap}
    (h : ∀ k ∈ lookupIds L P callees taints V, m k = m' k) :
    lookupRange L P callees taints w m V = lookupRange L P callees taints w m' V := by
  have hid : ∀ sID : String, (∀ k ∈ (if sID = "" then [] else [sID]).filter
        fun sID => !taints.isSource sID, m k = m' k) →
      L.ranges.zextOrTrunc (if sID = "" then .empty w else if taints.isSource sID then .full w
        else (m sID).getD (.empty w)) w =
      L.ranges.zextOrTrunc (if sID = "" then .empty w else if taints.isSource sID then .full w
        else (m' sID).getD (.empty w)) w := by
    intro sID h
    by_cases hne : sID = ""
    · rw [if_pos hne, if_pos hne]
    · rw [if_neg hne] at h
      cases hsource : taints.isSource sID with
      | true => rfl
      | false => rw [h sID (by simp [hsource])]
  cases V with
  | inst i =>
    cases hop : (P.inst i).op with
    | call callee args =>
      simp only [lookupRange, lookupIds, Program.opcode?, hop] at h ⊢
      split
      · rfl
      · rename_i hasm
        rw [if_neg hasm] at h
        split
        · rename_i CEEs hcallees
          refine unionOfReturns_congr fun f hf hsource => h _ (List.mem_filter.mpr ⟨?_, ?_⟩)
          · exact List.mem_map.mpr ⟨f, by simpa [hcallees] using hf, rfl⟩
          · rw [hsource]
            rfl
        · rfl
    | _ =>
      simp only [lookupRange, lookupIds, Program.opcode?, hop] at h ⊢
      exact hid _ h
  | _ => exact hid _ h

/-- The same map is put in place in both states. -/
theorem Agrees.setMap {s s' : State} (hs : Agrees A B C s s') (m : ValueRangeMap) :
    Agrees A B C { s with funcVRMs := Function.update s.funcVRMs BB m }
      { s' with funcVRMs := Function.update s'.funcVRMs BB m } where
  intRanges := hs.intRanges
  changes := hs.changes
  funcVRMs BB' hBB' := by
    show Function.update s.funcVRMs BB m BB' = Function.update s'.funcVRMs BB m BB'
    by_cases heq : BB' = BB
    · rw [heq, Function.update_self, Function.update_self]
    · rw [Function.update_of_ne heq, Function.update_of_ne heq]
      exact hs.funcVRMs BB' hBB'

theorem Agrees.setRange {s s' : State} (hs : Agrees A B C s s') (hBB : BB ∈ B)
    (R : ConstantRange) : Agrees A B C (s.setRange BB V R) (s'.setRange BB V R) := by
  unfold State.setRange
  rw [show s'.funcVRMs BB = s.funcVRMs BB from (hs.funcVRMs BB hBB).symm]
  exact hs.setMap _

/-- `getRange` depends on the identifiers that it looks up and, unless the value is a
constant, on the map of the block. -/
theorem getRange_agrees (hV : ∀ k ∈ lookupIds L P callees taints V, k ∈ A)
    (hBB : constantInt? V = none → BB ∈ B) :
    QueryAgrees A B C (getRange L P callees taints BB V) := by
  intro s s' hs
  unfold getRange
  split
  · exact .inr ⟨_, s, s', rfl, rfl, hs⟩
  · rename_i hconst
    have hmem : BB ∈ B := by
      refine hBB (Option.eq_none_iff_forall_not_mem.mpr fun c hc => ?_)
      exact hconst c (constantInt?_eq_some.mp hc)
    rw [show s'.funcVRMs BB = s.funcVRMs BB from (hs.funcVRMs BB hmem).symm]
    split
    · exact .inr ⟨_, s, s', rfl, rfl, hs⟩
    · split
      · exact .inl ⟨_, _, rfl, rfl⟩
      · rename_i w _
        have hlookup : lookupRange L P callees taints w s.intRanges V =
            lookupRange L P callees taints w s'.intRanges V :=
          lookupRange_congr fun k hk => hs.intRanges k (hV k hk)
        refine .inr ⟨_, _, _, rfl, by rw [← hlookup], ?_⟩
        split
        · exact hs
        · exact hs.setRange hmem _

/-! ## Agreement of parts -/

variable (L P callees taints) in
/-- The identifiers whose ranges a part updates or looks up. -/
def Access.ids (X : Access) : Set String :=
  {sID | X.joins sID} ∪ {sID | ∃ BB V, X.asks BB V ∧ sID ∈ lookupIds L P callees taints V}

/-- The blocks whose maps a part updates: `getRange` records what it looks up, but for
constants. -/
def Access.updatedMaps (X : Access) : Set BlockId :=
  {BB | X.merges BB ∨ (∃ V, X.records BB V) ∨ ∃ V, X.asks BB V ∧ constantInt? V = none}

/-- The blocks whose maps a part updates or reads. -/
def Access.maps (X : Access) : Set BlockId := X.updatedMaps ∪ {BB | X.copies BB}

variable {X : Access}

/-- A query depends on what it accesses. -/
theorem QueryWithin.agrees (hids : X.ids L P callees taints ⊆ A) (hmaps : X.maps ⊆ B)
    {α : Type} {q : Query α} (h : QueryWithin L P callees taints X q) :
    QueryAgrees A B C q := by
  induction h with
  | pure a => exact queryAgrees_pure a
  | @ask BB V h =>
    exact getRange_agrees (fun k hk => hids (.inr ⟨BB, V, h, hk⟩))
      fun hconst => hmaps (.inl (.inr (.inr ⟨V, h, hconst⟩)))
  | @copy BB h =>
    intro s s' hs
    refine .inr ⟨_, s, s', rfl, ?_, hs⟩
    rw [copyMap, show s.funcVRMs BB = s'.funcVRMs BB from hs.funcVRMs BB (hmaps (.inr h))]
  | @merge BB VRM h =>
    intro s s' hs
    refine .inr ⟨(), _, _, rfl, rfl, ?_⟩
    rw [show s'.funcVRMs BB = s.funcVRMs BB from (hs.funcVRMs BB (hmaps (.inl (.inl h)))).symm]
    exact hs.setMap _
  | bind _ _ ihq ihk => exact ihq.bind ihk

/-- A query, and what follows it, from states that agree. -/
theorem withQuery_matches {α : Type} {q : Query α} {k : α → Pass State Event}
    (hq : QueryAgrees A B C q) (hk : ∀ a, Matches (Agrees A B C) (k a) (k a)) :
    Matches (Agrees A B C) (withQuery q k) (withQuery q k) := by
  intro s s' hs
  have hrun : ∀ s, withQuery q k s = (q s >>= fun p => k p.1 p.2) := fun _ => rfl
  rw [hrun, hrun]
  rcases hq s s' hs with ⟨e, e', h, h'⟩ | ⟨a, t, t', h, h', ht⟩
  · rw [h, h']
    trivial
  · rw [h, h']
    exact hk a t t' ht

/-- `unionRange` depends on the entry of the identifier. -/
theorem unionRange_alike {sID : String} {R : ConstantRange} {s s' : State} (hID : sID ∈ A)
    (hs : AgreeOn State.intRanges A s s') :
    Alike (AgreeOn State.intRanges A) (unionRange L sID R s) (unionRange L sID R s') := by
  unfold unionRange
  rw [hs sID hID]
  split
  · exact ⟨rfl, hs⟩
  · refine ⟨rfl, fun k hk => ?_⟩
    show Function.update s.intRanges sID _ k = Function.update s'.intRanges sID _ k
    by_cases heq : k = sID
    · rw [heq, Function.update_self, Function.update_self]
    · rw [Function.update_of_ne heq, Function.update_of_ne heq]
      exact hs k hk

/-- A join from states that agree on the identifier. -/
theorem unionRange_matches {sID : String} {R : ConstantRange} (hID : sID ∈ A) :
    Matches (Agrees A B C) (unionRange L sID R) (unionRange L sID R) := by
  intro s s' hs
  have halike := unionRange_alike (L := L) (R := R) hID hs.intRanges
  unfold unionRange at halike ⊢
  split
  · exact ⟨rfl, hs⟩
  · rename_i hR
    rw [if_neg hR, if_neg hR] at halike
    refine ⟨halike.1, halike.2, hs.funcVRMs, fun k hk => ?_⟩
    show k ∈ (if _ then _ else _) ↔ k ∈ if _ then _ else _
    rw [show (joined L (s.intRanges sID) R).1 = _ from halike.1]
    split
    · rw [Finset.mem_insert, Finset.mem_insert, hs.changes k hk]
    · exact hs.changes k hk

/-- A join to the entry of a map, from states that agree on the map. -/
theorem unionBlockRange_agrees {R : ConstantRange} {s s' : State} (hs : Agrees A B C s s')
    (hBB : BB ∈ B) : Agrees A B C (unionBlockRange L BB V R s) (unionBlockRange L BB V R s') := by
  unfold unionBlockRange
  rw [show s'.funcVRMs BB = s.funcVRMs BB from (hs.funcVRMs BB hBB).symm]
  split
  · exact hs
  · exact hs.setRange hBB _

/-- A part of the pass depends on what it accesses. -/
theorem PassWithin.agrees (hids : X.ids L P callees taints ⊆ A) (hmaps : X.maps ⊆ B)
    {f : Pass State Event} (h : PassWithin L P callees taints X f) :
    Matches (Agrees A B C) f f := by
  induction h with
  | idle => exact .idle
  | union hID => exact unionRange_matches (hids (.inl hID))
  | @record BB V R f hV _ ih =>
    intro s s' hs
    exact ih _ _ (unionBlockRange_agrees hs (hmaps (.inl (.inr (.inl ⟨V, hV⟩)))))
  | query hq _ ih => exact withQuery_matches (hq.agrees hids hmaps) ih
  | seq _ _ ihf ihg => exact ihf.seq ihg

variable {F : FuncId} {backEdges : List (BlockId × BlockId)}

/-! ## Functions and modules -/

/-- Two states agree on the ranges of the identifiers in `A` and on `Changes`. -/
structure AgreesGlobally (A : Set String) (s s' : State) : Prop where
  intRanges : AgreeOn State.intRanges A s s'
  changes : s.changes = s'.changes

variable {M : Module}

/-- What a block asks for is among the values that are asked for in it. They are the values at the
ends of the predecessors, and those that the instructions of the block ask for. -/
theorem mem_queried_of_asks {BB' : BlockId}
    (h : (blockAccess L P callees backEdges F BB).asks BB' V) : V ∈ queried L P BB := by
  unfold queried
  rcases h with ⟨Pred, hPred, -, h⟩ | ⟨i, hi, h⟩
  · refine List.mem_append_left _ (List.mem_flatMap.mpr ⟨Pred, hPred, ?_⟩)
    unfold askedAtEnd at h
    split at h
    · rename_i hop
      obtain ⟨U, hU, heq⟩ := List.mem_map.mp h
      obtain ⟨-, rfl⟩ := Prod.mk.inj heq
      rwa [queriedAtEnd, hop]
    · obtain ⟨U, hU, heq⟩ := List.mem_map.mp h
      obtain ⟨-, rfl⟩ := Prod.mk.inj heq
      exact hU
  · refine List.mem_append_right _ (List.mem_flatMap.mpr ⟨i, hi, ?_⟩)
    rcases h with ⟨-, h⟩ | ⟨hint, h⟩
    · exact List.mem_append_left _ h
    · rw [if_pos hint]
      refine List.mem_append_right _ ?_
      unfold askedLocally at h
      split at h
      · rename_i hop
        obtain ⟨e, he, heq⟩ := List.mem_map.mp h
        obtain ⟨-, rfl⟩ := Prod.mk.inj heq
        rw [queriedLocally, hop]
        exact List.mem_map_of_mem (List.mem_filter.mp he).1
      · obtain ⟨U, hU, heq⟩ := List.mem_map.mp h
        obtain ⟨-, rfl⟩ := Prod.mk.inj heq
        exact hU

/-- The visit of a function depends on the identifiers of its module. Two states that agree on these
identifiers give results that agree on them, whatever the maps of the blocks were before. -/
theorem updateRangeForFunction_matches (hF : F ∈ M.functions)
    (hA : moduleAccesses L P callees taints M ⊆ A) :
    Matches (AgreesGlobally A) (updateRangeForFunction L P callees taints F)
      (updateRangeForFunction L P callees taints F) := by
  intro s s' hs
  -- the maps of the blocks are empty in the beginning
  have hclear : Agrees A Set.univ Set.univ { s with funcVRMs := fun _ _ => none }
      { s' with funcVRMs := fun _ _ => none } :=
    ⟨hs.intRanges, fun _ _ => rfl, fun sID _ => by rw [hs.changes]⟩
  have hbody : Matches (Agrees A Set.univ Set.univ)
      (forEach (updateRangeForBlock L P callees taints (L.findFunctionBackedges P F) F)
        (P.func F).blocks)
      (forEach (updateRangeForBlock L P callees taints (L.findFunctionBackedges P F) F)
        (P.func F).blocks) := by
    refine Matches.forEach fun BB hBB => ?_
    refine updateRangeForBlock_within.agrees (fun sID hsID => hA ?_) (Set.subset_univ _)
    rcases hsID with ⟨i, hi, w, h⟩ | ⟨BB', V, h, hk⟩
    · exact .inl ⟨w, .body (.inst hF (List.mem_flatMap.mpr ⟨BB, hBB, hi⟩) h)⟩
    · exact .inr ⟨F, hF, BB, hBB, V, mem_queried_of_asks h, hk⟩
  have halike := hbody _ _ hclear
  unfold updateRangeForFunction
  revert halike
  cases forEach (updateRangeForBlock L P callees taints (L.findFunctionBackedges P F) F)
      (P.func F).blocks { s with funcVRMs := fun _ _ => none } with
  | error e =>
    intro halike
    obtain ⟨e', h'⟩ := halike.of_error
    rw [h']
    trivial
  | ok r =>
    intro halike
    obtain ⟨r', h', hc, hr⟩ := halike.of_ok
    rw [h']
    refine ⟨hc, hr.intRanges, ?_⟩
    ext sID
    exact hr.changes sID (Set.mem_univ sID)

/-- Widening depends on the range of each identifier by itself. -/
theorem widenRanges_agree {sIDs : Finset String} {m m' : RangeMap}
    (h : ∀ k ∈ A, m k = m' k) : ∀ k ∈ A, widenRanges sIDs m k = widenRanges sIDs m' k := by
  intro k hk
  unfold widenRanges
  rw [h k hk]

theorem beginIteration_agrees {itr : ℕ} {s s' : State} (hs : AgreesGlobally A s s') :
    AgreesGlobally A (beginIteration itr s) (beginIteration itr s') := by
  refine ⟨?_, rfl⟩
  show ∀ k ∈ A, (if itr > maxIterations then widen s else s).intRanges k =
    (if itr > maxIterations then widen s' else s').intRanges k
  split
  · simp only [widen, hs.changes]
    exact widenRanges_agree hs.intRanges
  · exact hs.intRanges

/-- An iteration depends on the identifiers of the module. The functions of the module are visited
one after the other, and each keeps the agreement. -/
theorem iteration_matches (hA : moduleAccesses L P callees taints M ⊆ A) (itr : ℕ) :
    Matches (AgreesGlobally A) (iteration L P callees taints M itr)
      (iteration L P callees taints M itr) := by
  intro s s' hs
  have hvisit : Matches (AgreesGlobally A) (visitFunctions L P callees taints M)
      (visitFunctions L P callees taints M) :=
    Matches.forEach fun F hF => updateRangeForFunction_matches (List.mem_filter.mp hF).1 hA
  have hbegin : AgreesGlobally A (beginIteration itr s) (beginIteration itr s') :=
    beginIteration_agrees hs
  have halike := hvisit _ _ hbegin
  unfold iteration
  cases hv : visitFunctions L P callees taints M (beginIteration itr s) with
  | error e =>
    rw [hv] at halike
    obtain ⟨e', h'⟩ := halike.of_error
    rw [h']
    trivial
  | ok v =>
    rw [hv] at halike
    obtain ⟨v', h', hc, hr⟩ := halike.of_ok
    rw [h']
    exact ⟨hc, hr⟩

/-- `Changes` is cleared before the first iteration. -/
theorem iteration_one (s : State) :
    iteration L P callees taints M 1 s =
      iteration L P callees taints M 1 { s with changes := ∅ } := rfl

/-- `doModulePass` depends on the identifiers of the module. Both runs make the same number of
iterations, as an iteration changes the one state exactly when it changes the other. -/
theorem doModulePass_matches (hA : moduleAccesses L P callees taints M ⊆ A) (fuel : ℕ) :
    Matches (AgreeOn State.intRanges A) (doModulePass L P callees taints fuel M)
      (doModulePass L P callees taints fuel M) := by
  intro s s' hs
  have hloop : ∀ s, whileChanged (iteration L P callees taints M) fuel 1 s =
      whileChanged (iteration L P callees taints M) fuel 1 { s with changes := ∅ } := by
    intro s
    cases fuel with
    | zero => rfl
    | succ fuel =>
      simp only [whileChanged]
      rw [iteration_one s]
  have halike := Matches.whileChanged (fun itr => iteration_matches hA itr) fuel 1
    { s with changes := ∅ } { s' with changes := ∅ } ⟨hs, rfl⟩
  rw [← hloop, ← hloop] at halike
  unfold doModulePass
  cases hb : whileChanged (iteration L P callees taints M) fuel 1 s with
  | error e =>
    rw [hb] at halike
    obtain ⟨e', h'⟩ := halike.of_error
    rw [h']
    trivial
  | ok b =>
    rw [hb] at halike
    obtain ⟨b', h', hc, hr⟩ := halike.of_ok
    rw [h']
    exact ⟨hc, hr.intRanges⟩

/-! ## What stays -/

variable {ids : String → Prop} {sID : String} {s : State} {r : Report State Event} {fuel : ℕ}

/-- The range of an identifier that a body does not write stays, and the
identifier is not added to `Changes`. -/
theorem Writes.frame (h : Writes L ids s r) (hID : ¬ ids sID) :
    r.state.intRanges sID = s.intRanges sID ∧
      (sID ∈ r.state.changes → sID ∈ s.changes) := by
  induction h with
  | caches hr hc => exact ⟨congrFun hr sID, fun hmem => by rwa [← hc]⟩
  | @union s sID' R r hID' h =>
    have hne : sID ≠ sID' := fun heq => hID (heq ▸ hID')
    unfold unionRange at h
    split at h
    · obtain rfl := Except.ok.inj h
      exact ⟨rfl, id⟩
    · obtain rfl := Except.ok.inj h
      refine ⟨Function.update_of_ne hne _ _, fun hmem => ?_⟩
      simp only at hmem
      split at hmem
      · exact (Finset.mem_insert.mp hmem).resolve_left hne
      · exact hmem
  | andThen _ _ ih ih' => exact ⟨ih'.1.trans ih.1, fun hmem => ih.2 (ih'.2 hmem)⟩

/-- An iteration keeps the range of an identifier that the module does not update, unless that is
widened. -/
theorem iteration_frame {itr : ℕ} (hID : sID ∉ moduleUpdates L P callees M)
    (hs : itr ≤ maxIterations ∨ sID ∉ s.changes)
    (h : iteration L P callees taints M itr s = .ok r) :
    r.state.intRanges sID = s.intRanges sID ∧ sID ∉ r.state.changes := by
  obtain ⟨v, hv, rfl⟩ := iteration_eq_ok.mp h
  obtain ⟨hr, hc⟩ := ((visitFunctions_writes M).writes _ v hv).frame
    fun ⟨w, h⟩ => hID ⟨w, .body h⟩
  refine ⟨hr.trans ?_, fun hmem => Finset.notMem_empty sID (hc hmem)⟩
  show (if itr > maxIterations then widen s else s).intRanges sID = _
  split
  · rename_i hitr
    have hmem : sID ∉ s.changes := hs.resolve_left (by omega)
    simp [widen, widenRanges, hmem]
  · rfl

/-- `doModulePass` keeps the ranges of all identifiers that no function of the
module writes. -/
theorem doModulePass_frame (hID : sID ∉ moduleUpdates L P callees M)
    (h : doModulePass L P callees taints fuel M s = .ok r) :
    r.state.intRanges sID = s.intRanges sID := by
  obtain ⟨b, hb, rfl⟩ := doModulePass_eq_ok.mp h
  have hloop : ∀ fuel itr s b, (itr ≤ maxIterations ∨ sID ∉ s.changes) →
      whileChanged (iteration L P callees taints M) fuel itr s = .ok b →
      b.state.intRanges sID = s.intRanges sID := by
    intro fuel
    induction fuel with
    | zero => intro itr s b _ h; cases h
    | succ fuel ih =>
      intro itr s b hs h
      rcases whileChanged_succ_eq_ok.mp h with ⟨ha, -⟩ | ⟨a, b', ha, -, hb', rfl⟩
      · exact (iteration_frame hID hs ha).1
      · obtain ⟨hr, hc⟩ := iteration_frame hID hs ha
        exact (ih (itr + 1) a.state b' (.inr hc) hb').trans hr
  exact hloop fuel 1 s b (.inl (by decide)) hb

/-! ## Footprints -/

/-- The footprint of `doModulePass`. -/
theorem doModulePass_footprint (M : Module) (fuel : ℕ) :
    Footprint State.intRanges (moduleAccesses L P callees taints M)
      (moduleUpdates L P callees M) (doModulePass L P callees taints fuel M) where
  subset := Set.subset_union_left
  agree := doModulePass_matches Set.Subset.rfl fuel
  frame _ _ h _ hk := doModulePass_frame hk h

/-- The footprint of `doInitialization`. -/
theorem doInitialization_footprint (M : Module) :
    Footprint State.intRanges (moduleAccesses L P callees taints M)
      (moduleUpdates L P callees M) (doInitialization L P M) where
  subset := Set.subset_union_left
  agree := Matches.forEach fun e he _ _ hs =>
    unionRange_alike (.inl ⟨e.2.width, .initializer he⟩) hs
  frame s r h k hk := by
    have hbody : Body L (· ∈ moduleUpdates L P callees M) (doInitialization L P M) :=
      Body.forEach fun e he => Body.union ⟨e.2.width, .initializer he⟩
    exact ((hbody.writes s r h).frame hk).1

end Pass

end Kint.Range
