import Kint.Iteration
import Kint.LLVM.Reference
import Kint.LLVM.SSA
import Mathlib.Data.Finset.Card

/-!
# The deferred overflow checks of `IntRewrite`

An overflow of an unsigned operation (or of a signed one under `-fwrapv`) is checked where its
result is observed.  From the instruction the pass follows the users that are not observable,
with a worklist, and collects the blocks of the observable ones; each of these gets a check at
its end.  When an observation is in the block of the instruction itself or in a block that this
one does not dominate, the pass drops what it has collected and checks at the instruction.

The results hold for every order of the use lists, which the traversal follows, and for every
predicate of observability (`deferred_checks_cover`).

## What the traversal computes

`Unobserved` and `Observes` define the result without a worklist: what is reached from the
operation through users that are not observable, and the observable users of these.
`DeferResult` says that the traversal found just the blocks of the observations, or that it
falls back and there is an observation.

## The invariant

`DeferInvariant` says that everything visited is reached, and everything collected is observed,
in a block that is dominated.  `Processed` says that the users of what was taken from the
worklist are settled; when the worklist is empty, nothing was forgotten (`Processed.complete`).
Each visited value goes through the worklist once, so the number of instructions that are not
visited or still pending decreases, and the loop ends (`deferLoop_result`).
-/

namespace Kint.IntRewrite

open Iteration

/-- Where a call of `int.sat` is inserted: before an instruction or before the
terminator of a block. -/
inductive InsertPoint
  | before (i : InstId)
  | terminator (BB : BlockId)
  deriving DecidableEq

/-- The block of an insertion point. -/
def InsertPoint.block (P : Program) : InsertPoint → BlockId
  | before i => (P.inst i).parent
  | terminator BB => BB

/-- What `insertOverflowCheck` does: the returned bit, whether the intrinsic is the
one for signed overflow, whether the flag `nsw` is cleared, and the insertion points. -/
structure OverflowCheck where
  changed : Bool
  signed : Bool
  clearsNSW : Bool
  points : List InsertPoint
  deriving DecidableEq

/-- `Visited`, `Worklist` and `ObPoints`; the back of the worklist is the head of the
list. -/
structure DeferState where
  Visited : Finset InstId
  Worklist : List InstId
  ObPoints : Finset BlockId
  deriving DecidableEq

section Defer

variable (P : Program)
  -- the use lists, `isObservable`, and the method `dominates` of the dominator tree
  (useList : InstId → List InstId) (isObservable : InstId → Bool)
  (dominates : BlockId → BlockId → Bool)

/-- The loop over the users of a value; `none` when the pass falls back. -/
def visitUses (BB : BlockId) : List InstId → DeferState → Option DeferState
  | [], s => some s
  | U :: uses, s =>
    if isObservable U then
      let ObBB := (P.inst U).parent
      -- e.g. due to loops
      if ObBB = BB ∨ dominates BB ObBB = false then none
      else visitUses BB uses { s with ObPoints := insert ObBB s.ObPoints }
    else if useList U = [] then visitUses BB uses s
    else if U ∈ s.Visited then visitUses BB uses s
    else visitUses BB uses
      { s with Visited := insert U s.Visited, Worklist := U :: s.Worklist }

/-- The loop over the worklist: the blocks of the observations, or `none` when the
pass falls back. -/
def deferLoop (BB : BlockId) : (fuel : ℕ) → DeferState → Except Stop (Option (Finset BlockId))
  | 0, _ => .error .fuel
  | fuel + 1, s =>
    match s.Worklist with
    | [] => .ok (some s.ObPoints)
    | E :: Worklist =>
      match visitUses P useList isObservable dominates BB (useList E) { s with Worklist } with
      | none => .ok none
      | some s => deferLoop BB fuel s

/-- The deferred check of `I`. -/
def deferCheck (fuel : ℕ) (I : InstId) : Except Stop (Option (Finset BlockId)) :=
  deferLoop P useList isObservable dominates (P.inst I).parent fuel ⟨{I}, [I], ∅⟩

/-- `isa<PtrToIntInst>` -/
def isPtrToInt (V : Value) : Bool :=
  match P.opcode? V with
  | some (.cast .ptrtoint _) => true
  | _ => false

/-- `insertOverflowCheck`, with the option `-fwrapv` and the flags `nsw`; `elements`
is the order in which a `SmallPtrSet` of blocks is iterated. -/
def insertOverflowCheck (WrapOpt : Bool) (hasNoSignedWrap : InstId → Bool)
    (elements : Finset BlockId → List BlockId) (fuel : ℕ) (I : InstId) :
    Except Stop OverflowCheck :=
  match (P.inst I).op with
  | .binary _ L R =>
    -- pointer subtraction
    if isPtrToInt P L || isPtrToInt P R then .ok ⟨false, false, false, []⟩
    else
      let hasNSW := hasNoSignedWrap I
      if hasNSW && !WrapOpt then .ok ⟨true, true, false, [.before I]⟩
      else do
        match ← deferCheck P useList isObservable dominates fuel I with
        | none => return ⟨true, hasNSW, hasNSW, [.before I]⟩
        | some ObPoints =>
          return ⟨true, hasNSW, hasNSW, (elements ObPoints).map .terminator⟩
  | _ => .error .fatal

/-! ## What is observed -/

/-- `E` is reached from `I` through users that are not observable. -/
def Unobserved (I E : InstId) : Prop :=
  Relation.ReflTransGen (fun E U => U ∈ useList E ∧ isObservable U = false) I E

/-- `U` is observable and uses `I`, or something that is reached from `I` through users
that are not observable. -/
def Observes (I U : InstId) : Prop :=
  isObservable U = true ∧ ∃ E, Unobserved useList isObservable I E ∧ U ∈ useList E

variable {P useList isObservable dominates} {I : InstId} {BB : BlockId}

/-! ## The loops -/

variable (P useList isObservable dominates) in
/-- What a visited user contributes: its block if it is observable, and otherwise it is
visited unless it has no users. -/
def Settled (s : DeferState) (U : InstId) : Prop :=
  if isObservable U then (P.inst U).parent ∈ s.ObPoints
  else useList U = [] ∨ U ∈ s.Visited

variable (P useList isObservable dominates) in
/-- The invariant of the traversal from `I` in block `BB`. The visited instructions are not observed
on the way from `I`, and each block that is collected holds an observer. -/
structure DeferInvariant (I : InstId) (BB : BlockId) (s : DeferState) : Prop where
  start : I ∈ s.Visited
  reached : ∀ E ∈ s.Visited, Unobserved useList isObservable I E
  pending : ∀ E ∈ s.Worklist, E ∈ s.Visited
  points : ∀ b ∈ s.ObPoints, dominates BB b = true ∧
    ∃ U, Observes useList isObservable I U ∧ (P.inst U).parent = b

/-- What a step may change: the sets grow, and each new visit is of an instruction and
is pending. -/
structure Grows (s s' : DeferState) : Prop where
  visited : s.Visited ⊆ s'.Visited
  points : s.ObPoints ⊆ s'.ObPoints
  worklist : ∀ E ∈ s.Worklist, E ∈ s'.Worklist
  fresh : ∀ E ∈ s'.Visited, E ∈ s.Visited ∨ E ∈ s'.Worklist

theorem Grows.refl (s : DeferState) : Grows s s :=
  ⟨Finset.Subset.refl _, Finset.Subset.refl _, fun _ h => h, fun _ h => .inl h⟩

theorem Grows.trans {s s' s'' : DeferState} (h : Grows s s') (h' : Grows s' s'') :
    Grows s s'' where
  visited := h.visited.trans h'.visited
  points := h.points.trans h'.points
  worklist E hE := h'.worklist E (h.worklist E hE)
  fresh E hE := by
    rcases h'.fresh E hE with hE | hE
    · exact (h.fresh E hE).imp_right (h'.worklist E)
    · exact .inr hE

theorem Settled.mono {s s' : DeferState} {U : InstId}
    (h : Settled P useList isObservable s U) (hs : Grows s s') :
    Settled P useList isObservable s' U := by
  unfold Settled at h ⊢
  by_cases hobs : isObservable U = true
  · rw [if_pos hobs] at h ⊢
    exact hs.points h
  · rw [if_neg hobs] at h ⊢
    exact h.imp_right fun h => hs.visited h

/-- The instructions that are not visited, and those on the worklist. -/
def DeferState.remaining (P : Program) (s : DeferState) : ℕ :=
  (Finset.range P.insts.length \ s.Visited).card + s.Worklist.length

/-! ### What one user changes -/

theorem DeferInvariant.observe {s : DeferState} {U : InstId}
    (hs : DeferInvariant P useList isObservable dominates I BB s)
    (hU : Observes useList isObservable I U) (hdom : dominates BB (P.inst U).parent = true) :
    DeferInvariant P useList isObservable dominates I BB
      { s with ObPoints := insert (P.inst U).parent s.ObPoints } := by
  refine ⟨hs.start, hs.reached, hs.pending, fun b hb => ?_⟩
  rcases Finset.mem_insert.mp hb with rfl | hb
  · exact ⟨hdom, U, hU, rfl⟩
  · exact hs.points b hb

theorem Grows.observe (s : DeferState) (b : BlockId) :
    Grows s { s with ObPoints := insert b s.ObPoints } :=
  ⟨Finset.Subset.refl _, Finset.subset_insert _ _, fun _ h => h, fun _ h => .inl h⟩

theorem DeferInvariant.visit {s : DeferState} {U : InstId}
    (hs : DeferInvariant P useList isObservable dominates I BB s)
    (hU : Unobserved useList isObservable I U) :
    DeferInvariant P useList isObservable dominates I BB
      { s with Visited := insert U s.Visited, Worklist := U :: s.Worklist } := by
  refine ⟨Finset.mem_insert_of_mem hs.start, fun V hV => ?_, fun V hV => ?_, hs.points⟩
  · rcases Finset.mem_insert.mp hV with rfl | hV
    · exact hU
    · exact hs.reached V hV
  · rcases List.mem_cons.mp hV with rfl | hV
    · exact Finset.mem_insert_self _ _
    · exact Finset.mem_insert_of_mem (hs.pending V hV)

theorem Grows.visit (s : DeferState) (U : InstId) :
    Grows s { s with Visited := insert U s.Visited, Worklist := U :: s.Worklist } := by
  refine ⟨Finset.subset_insert _ _, Finset.Subset.refl _,
    fun V hV => List.mem_cons_of_mem _ hV, fun V hV => ?_⟩
  rcases Finset.mem_insert.mp hV with rfl | hV
  · exact .inr List.mem_cons_self
  · exact .inl hV

/-- A new visit: one instruction less to visit, one more on the worklist. -/
theorem remaining_visit {s : DeferState} {U : InstId} (hU : U < P.insts.length)
    (hnew : U ∉ s.Visited) :
    DeferState.remaining P
      { s with Visited := insert U s.Visited, Worklist := U :: s.Worklist } =
      s.remaining P := by
  have hmem : U ∈ Finset.range P.insts.length \ s.Visited :=
    Finset.mem_sdiff.mpr ⟨Finset.mem_range.mpr hU, hnew⟩
  have hcard := Finset.card_erase_add_one hmem
  simp only [DeferState.remaining, List.length_cons, Finset.sdiff_insert]
  omega

variable (P useList isObservable dominates) in
/-- What the loop over `uses` makes of the state `s`: falling back means that a user is
observable, and otherwise the invariant holds and every user is settled. -/
def UsesResult (I : InstId) (BB : BlockId) (uses : List InstId) (s : DeferState) :
    Option DeferState → Prop
  | none => ∃ U, Observes useList isObservable I U
  | some s' => DeferInvariant P useList isObservable dominates I BB s' ∧ Grows s s' ∧
      s'.remaining P = s.remaining P ∧ ∀ U ∈ uses, Settled P useList isObservable s' U

/-- The loop goes on in a state where the first user is settled. -/
theorem UsesResult.cons {uses : List InstId} {U : InstId} {s s₁ : DeferState}
    {out : Option DeferState} (hgrows : Grows s s₁) (hremaining : s₁.remaining P = s.remaining P)
    (hU : Settled P useList isObservable s₁ U)
    (h : UsesResult P useList isObservable dominates I BB uses s₁ out) :
    UsesResult P useList isObservable dominates I BB (U :: uses) s out := by
  cases out with
  | none => exact h
  | some s' =>
    obtain ⟨hinv, hgrows', hremaining', hall⟩ := h
    refine ⟨hinv, hgrows.trans hgrows', hremaining'.trans hremaining, ?_⟩
    rintro V (_ | ⟨_, hV⟩)
    · exact hU.mono hgrows'
    · exact hall V hV

/-- The loop over the users of a reached value keeps the invariant and settles every
user. -/
theorem visitUses_spec (hrange : ∀ E, ∀ U ∈ useList E, U < P.insts.length) {E : InstId}
    (hE : Unobserved useList isObservable I E) {uses : List InstId} {s : DeferState}
    (huses : ∀ U ∈ uses, U ∈ useList E)
    (hs : DeferInvariant P useList isObservable dominates I BB s) :
    UsesResult P useList isObservable dominates I BB uses s
      (visitUses P useList isObservable dominates BB uses s) := by
  fun_induction visitUses P useList isObservable dominates BB uses s with
  | case1 s => exact ⟨hs, .refl s, rfl, by simp⟩
  | case2 U uses s hobs ObBB hfall => exact ⟨U, hobs, E, hE, huses U List.mem_cons_self⟩
  | case3 U uses s hobs ObBB hdom ih =>
    have hobserves : Observes useList isObservable I U :=
      ⟨hobs, E, hE, huses U List.mem_cons_self⟩
    obtain ⟨-, hdom⟩ := not_or.mp hdom
    refine .cons (.observe s _) rfl (by simp [Settled, hobs, ObBB])
      (ih (fun V hV => huses V (List.mem_cons_of_mem _ hV)) (hs.observe hobserves ?_))
    simpa using hdom
  | case4 U uses s hobs hempty ih =>
    exact .cons (.refl s) rfl (by simp [Settled, hobs, hempty])
      (ih (fun V hV => huses V (List.mem_cons_of_mem _ hV)) hs)
  | case5 U uses s hobs hempty hvisited ih =>
    exact .cons (.refl s) rfl (by simp [Settled, hobs, hvisited])
      (ih (fun V hV => huses V (List.mem_cons_of_mem _ hV)) hs)
  | case6 U uses s hobs hempty hvisited ih =>
    have hU : U ∈ useList E := huses U List.mem_cons_self
    have hreached : Unobserved useList isObservable I U := hE.tail ⟨hU, by simpa using hobs⟩
    exact .cons (.visit s U) (remaining_visit (hrange E U hU) hvisited)
      (by simp [Settled, hobs])
      (ih (fun V hV => huses V (List.mem_cons_of_mem _ hV)) (hs.visit hreached))

variable (P useList isObservable) in
/-- Every visited value that is not pending has settled users. -/
def Processed (s : DeferState) : Prop :=
  ∀ E ∈ s.Visited, E ∉ s.Worklist → ∀ U ∈ useList E, Settled P useList isObservable s U

/-- When nothing is pending, the blocks of all observations are known. -/
theorem Processed.complete {s : DeferState} (hs : Processed P useList isObservable s)
    (hI : I ∈ s.Visited) (hempty : s.Worklist = []) {U : InstId}
    (hU : Observes useList isObservable I U) : (P.inst U).parent ∈ s.ObPoints := by
  have hsettled : ∀ E ∈ s.Visited, ∀ U ∈ useList E, Settled P useList isObservable s U :=
    fun E hE => hs E hE (by simp [hempty])
  have hvisited : ∀ E, Unobserved useList isObservable I E → useList E = [] ∨ E ∈ s.Visited := by
    intro E hE
    induction hE with
    | refl => exact .inr hI
    | @tail E U _ hstep ih =>
      rcases ih with hnone | hE
      · rw [hnone] at hstep
        cases hstep.1
      · have hsettledU := hsettled E hE U hstep.1
        rwa [Settled, if_neg (by rw [hstep.2]; exact Bool.false_ne_true)] at hsettledU
  obtain ⟨hobs, E, hE, hmem⟩ := hU
  rcases hvisited E hE with hnone | hE
  · rw [hnone] at hmem
    cases hmem
  · have hsettledU := hsettled E hE U hmem
    rwa [Settled, if_pos hobs] at hsettledU

/-- Settling the users of the value that is taken from the worklist. -/
theorem Processed.pop {s s' : DeferState} {E : InstId} {Worklist : List InstId}
    (hs : Processed P useList isObservable s) (hlist : s.Worklist = E :: Worklist)
    (hgrows : Grows { s with Worklist } s')
    (hE : ∀ U ∈ useList E, Settled P useList isObservable s' U) :
    Processed P useList isObservable s' := by
  intro V hV hpending U hU
  by_cases hVE : V = E
  · exact hE U (hVE ▸ hU)
  · have hold : V ∈ s.Visited := (hgrows.fresh V hV).resolve_right hpending
    have hnot : V ∉ s.Worklist := by
      rw [hlist]
      rintro (_ | ⟨_, hmem⟩)
      · exact hVE rfl
      · exact hpending (hgrows.worklist V hmem)
    have hbefore : Settled P useList isObservable { s with Worklist } U := hs V hold hnot U hU
    exact hbefore.mono hgrows

variable (P useList isObservable dominates) in
/-- What the traversal finds out: there is an observation, or the collected blocks are
exactly those of the observations, and all of them are dominated. -/
def DeferResult (I : InstId) (BB : BlockId) : Option (Finset BlockId) → Prop
  | none => ∃ U, Observes useList isObservable I U
  | some ObPoints => (∀ b ∈ ObPoints, dominates BB b = true) ∧
      ∀ b, b ∈ ObPoints ↔ ∃ U, Observes useList isObservable I U ∧ (P.inst U).parent = b

/-- The loop over the worklist ends; the induction is on the number of instructions
that are not visited or still pending. -/
theorem deferLoop_result (hrange : ∀ E, ∀ U ∈ useList E, U < P.insts.length) :
    ∀ (n : ℕ) {s : DeferState}, s.remaining P = n →
      DeferInvariant P useList isObservable dominates I BB s →
      Processed P useList isObservable s →
      ∃ out, (∀ fuel, n < fuel →
          deferLoop P useList isObservable dominates BB fuel s = .ok out) ∧
        DeferResult P useList isObservable dominates I BB out := by
  intro n
  induction n using Nat.strong_induction_on with
  | _ n ih =>
    intro s hn hs hdone
    cases hlist : s.Worklist with
    | nil =>
      refine ⟨some s.ObPoints, fun fuel hfuel => ?_, fun b hb => (hs.points b hb).1,
        fun b => ⟨fun hb => (hs.points b hb).2, ?_⟩⟩
      · obtain ⟨fuel, rfl⟩ := Nat.exists_eq_add_one.mpr (Nat.zero_lt_of_lt hfuel)
        simp only [deferLoop, hlist]
      · rintro ⟨U, hU, rfl⟩
        exact hdone.complete hs.start hlist hU
    | cons E Worklist =>
      have hE : E ∈ s.Visited := hs.pending E (by simp [hlist])
      have hpop : DeferInvariant P useList isObservable dominates I BB { s with Worklist } := by
        refine ⟨hs.start, hs.reached, fun V hV => hs.pending V ?_, hs.points⟩
        rw [hlist]
        exact List.mem_cons_of_mem _ hV
      have hless : DeferState.remaining P { s with Worklist } + 1 = n := by
        rw [← hn]
        simp only [DeferState.remaining, hlist, List.length_cons]
        omega
      have hspec := visitUses_spec hrange (hs.reached E hE) (fun _ h => h) hpop
      cases hvisit : visitUses P useList isObservable dominates BB (useList E)
          { s with Worklist } with
      | none =>
        rw [hvisit] at hspec
        refine ⟨none, fun fuel hfuel => ?_, hspec⟩
        obtain ⟨fuel, rfl⟩ := Nat.exists_eq_add_one.mpr (Nat.zero_lt_of_lt hfuel)
        simp only [deferLoop, hlist, hvisit]
      | some s' =>
        rw [hvisit] at hspec
        obtain ⟨hinv, hgrows, hremaining, hsettled⟩ := hspec
        obtain ⟨out, hout, hresult⟩ :=
          ih (s'.remaining P) (by omega) rfl hinv (hdone.pop hlist hgrows hsettled)
        refine ⟨out, fun fuel hfuel => ?_, hresult⟩
        obtain ⟨fuel, rfl⟩ := Nat.exists_eq_add_one.mpr (Nat.zero_lt_of_lt hfuel)
        simp only [deferLoop, hlist, hvisit]
        exact hout fuel (by omega)

/-! ## Coverage -/

/-- The users of an instruction are instructions of the program. -/
theorem mem_range_of_use (huse : ∀ E, ∀ U ∈ useList E, .inst E ∈ (P.inst U).op.operands) :
    ∀ E, ∀ U ∈ useList E, U < P.insts.length := by
  intro E U hU
  by_contra hout
  have hoperand := huse E U hU
  simp [Program.inst, Nat.not_lt.mp hout, Opcode.operands] at hoperand

/-- The traversal from an instruction ends, with a result that the order of the use lists does not
matter for. -/
theorem deferCheck_result (huse : ∀ E, ∀ U ∈ useList E, .inst E ∈ (P.inst U).op.operands)
    (I : InstId) : ∃ out, (∀ fuel, P.insts.length + 1 < fuel →
        deferCheck P useList isObservable dominates fuel I = .ok out) ∧
      DeferResult P useList isObservable dominates I (P.inst I).parent out := by
  have hinit : DeferInvariant P useList isObservable dominates I (P.inst I).parent
      ⟨{I}, [I], ∅⟩ := by
    refine ⟨by simp, fun E hE => ?_, by simp, by simp⟩
    rw [Finset.mem_singleton.mp hE]
    exact .refl
  have hdone : Processed P useList isObservable ⟨{I}, [I], ∅⟩ :=
    fun E hE hpending => absurd (by simpa using hE) (by simpa using hpending)
  obtain ⟨out, hout, hresult⟩ := deferLoop_result (mem_range_of_use huse) _ rfl hinit hdone
  refine ⟨out, fun fuel hfuel => hout fuel (lt_of_le_of_lt ?_ hfuel), hresult⟩
  have hcard : (Finset.range P.insts.length \ {I}).card ≤ P.insts.length :=
    (Finset.card_le_card Finset.sdiff_subset).trans_eq (Finset.card_range _)
  simp only [DeferState.remaining, List.length_singleton]
  omega

/-- The deferred checks of an operation `I`, for every order of the use lists, every
predicate `isObservable` and the dominator tree of the function: the traversal ends;
every inserted call is in a block that the block of `I` dominates; every observable
instruction that is reached through users that are not observable has a call at `I` or
at the end of its block; and without such an instruction nothing is inserted. -/
theorem deferred_checks_cover {entry : BlockId} {WrapOpt : Bool}
    {hasNoSignedWrap : InstId → Bool} {elements : Finset BlockId → List BlockId}
    (huse : ∀ E, ∀ U ∈ useList E, .inst E ∈ (P.inst U).op.operands)
    (hdom : ∀ D BB, dominates D BB = true ↔ Dominates P entry D BB)
    (helements : ∀ S b, b ∈ elements S ↔ b ∈ S)
    {op : BinaryOp} {L R : Value} (hop : (P.inst I).op = .binary op L R)
    (hpointer : isPtrToInt P L = false ∧ isPtrToInt P R = false)
    (hdefer : (hasNoSignedWrap I && !WrapOpt) = false) :
    ∃ r, (∀ fuel, P.insts.length + 1 < fuel →
        insertOverflowCheck P useList isObservable dominates WrapOpt hasNoSignedWrap elements
          fuel I = .ok r) ∧
      (∀ p ∈ r.points, Dominates P entry (P.inst I).parent (p.block P)) ∧
      (∀ U, Observes useList isObservable I U →
        .before I ∈ r.points ∨ .terminator (P.inst U).parent ∈ r.points) ∧
      ((∀ U, ¬ Observes useList isObservable I U) → r.points = []) := by
  obtain ⟨out, hout, hresult⟩ : ∃ out, (∀ fuel, P.insts.length + 1 < fuel →
      deferCheck P useList isObservable dominates fuel I = .ok out) ∧
      DeferResult P useList isObservable dominates I (P.inst I).parent out :=
    deferCheck_result huse I
  have hrun : ∀ fuel, P.insts.length + 1 < fuel →
      insertOverflowCheck P useList isObservable dominates WrapOpt hasNoSignedWrap elements
        fuel I = .ok ⟨true, hasNoSignedWrap I, hasNoSignedWrap I, match out with
          | none => [.before I]
          | some ObPoints => (elements ObPoints).map .terminator⟩ := by
    intro fuel hfuel
    simp only [insertOverflowCheck, hop, hpointer, hdefer, hout fuel hfuel, ok_bind, Bool.or_self,
      Bool.false_eq_true, if_false]
    cases out <;> rfl
  refine ⟨_, hrun, ?_⟩
  cases out with
  | none =>
    obtain ⟨U, hU⟩ := hresult
    refine ⟨fun p hp => ?_, fun _ _ => .inl (by simp), fun hnone => absurd hU (hnone U)⟩
    rw [List.mem_singleton.mp hp]
    exact Digraph.Dom.refl _
  | some ObPoints =>
    obtain ⟨hdominated, hpoints⟩ := hresult
    refine ⟨fun p hp => ?_, fun U hU => .inr ?_, fun hnone => ?_⟩
    · obtain ⟨b, hb, rfl⟩ := List.mem_map.mp hp
      exact (hdom _ _).mp (hdominated b ((helements _ _).mp hb))
    · exact List.mem_map.mpr ⟨_, (helements _ _).mpr ((hpoints _).mpr ⟨U, hU, rfl⟩), rfl⟩
    · refine List.map_eq_nil_iff.mpr (List.eq_nil_iff_forall_not_mem.mpr fun b hb => ?_)
      obtain ⟨U, hU, -⟩ := (hpoints b).mp ((helements _ _).mp hb)
      exact hnone U hU

/-- A sum that goes around a loop through a phi node and is stored after the loop. -/
def loopProgram : Program where
  insts := [
    ⟨0, .int 32, .binary .add (.argument 0 0) (.argument 0 1), none, none⟩,
    ⟨0, .other, .br 1, none, none⟩,
    ⟨1, .int 32, .phi [(.inst 0, 0), (.inst 3, 1)], none, none⟩,
    ⟨1, .int 32, .binary .xor (.inst 2) (.argument 0 1), none, none⟩,
    ⟨1, .other, .condBr (.argument 0 2) 1 2, none, none⟩,
    ⟨2, .other, .store (.inst 3) (.argument 0 3), none, none⟩,
    ⟨2, .other, .ret none, none, none⟩]
  blocks := [⟨0, [0], 1, []⟩, ⟨0, [2, 3], 4, [0, 1]⟩, ⟨0, [5], 6, [1]⟩]
  funcs := [⟨⟨"mix", .external, "a.c"⟩, false, [.int 32, .int 32, .int 1, .ptr (.int 32)],
    .other, [0, 1, 2]⟩]
  globals := []
  structs := []
  consts := []

/-- The use lists of `loopProgram`. -/
def loopUses (E : InstId) : List InstId := [[2], [], [3], [5, 2]].getD E []

/-- The dominator tree of `loopProgram`; blocks that are not there are dominated by
all. -/
def loopDominates (D BB : BlockId) : Bool :=
  D = BB || D = 0 || (D = 1 && BB = 2) || decide (3 ≤ BB)

theorem loopDominates_iff (D BB : BlockId) :
    loopDominates D BB = true ↔ Dominates loopProgram 0 D BB := by
  simp only [loopDominates, Bool.or_eq_true, Bool.and_eq_true, decide_eq_true_eq]
  constructor
  · rintro (((rfl | rfl) | ⟨rfl, rfl⟩) | hBB)
    · exact Digraph.Dom.refl D
    · exact Digraph.dom_entry
    · intro hpath
      cases hpath with
      | step hu hedge _ =>
        -- the only predecessor of block 2 is block 1
        obtain rfl : _ = 1 := by simpa [Edge, loopProgram, Program.block] using hedge
        exact hu.not_mem rfl
    · intro hpath
      cases hpath with
      | start _ => exact absurd hBB (by decide)
      | step _ hedge _ => simp [Edge, loopProgram, Program.block, hBB] at hedge
  · intro h
    by_contra hne
    simp only [not_or, not_and, not_le] at hne
    obtain ⟨⟨⟨hBB, h0⟩, h1⟩, h3⟩ := hne
    have hstart : Digraph.AvoidReach (Edge loopProgram) 0 (fun w => w = D) 0 :=
      .start fun h => h0 h.symm
    have h01 : Edge loopProgram 0 1 := by unfold Edge; decide
    have h12 : Edge loopProgram 1 2 := by unfold Edge; decide
    match BB, h3 with
    | 0, _ => exact h hstart
    | 1, _ => exact h (hstart.step h01 fun h => hBB h.symm)
    | 2, _ =>
      exact h ((hstart.step h01 fun h => h1 h.symm rfl).step h12 fun h => hBB h.symm)

/-- The sum is checked at the end of the block where it is stored. -/
theorem loop_covered : ∃ r,
    (∀ fuel, loopProgram.insts.length + 1 < fuel →
      insertOverflowCheck loopProgram loopUses (fun i => i = 5) loopDominates false
        (fun _ => false) Library.reference.elements fuel 0 = .ok r) ∧
    (∀ p ∈ r.points, Dominates loopProgram 0 (loopProgram.inst 0).parent (p.block loopProgram)) ∧
    (∀ U, Observes loopUses (fun i => i = 5) 0 U →
      .before 0 ∈ r.points ∨ .terminator (loopProgram.inst U).parent ∈ r.points) ∧
    ((∀ U, ¬ Observes loopUses (fun i => i = 5) 0 U) → r.points = []) := by
  refine deferred_checks_cover (fun E U hU => ?_) loopDominates_iff
    Library.reference.mem_elements rfl (by decide) (by decide)
  have huses : ∀ E < 4, ∀ U ∈ loopUses E, .inst E ∈ (loopProgram.inst U).op.operands := by decide
  by_cases hE : E < 4
  · exact huses E hE U hU
  · simp [loopUses, Nat.not_lt.mp hE] at hU

end Defer

end Kint.IntRewrite
