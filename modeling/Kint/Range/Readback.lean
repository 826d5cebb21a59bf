import Kint.CallGraph.Run
import Kint.Range.Writeback

/-!
# Reading back what is written back

`doFinalization` looks up the range of a load or a call by `getValueId`.  `getRange` does so for
loads only: at a call it joins the ranges of the return identifiers of the callees.  The
placeholder calls `kint_arg.iN` that stand for the arguments of a function carry the identifier
of the argument, but their callee is the placeholder function, so the body of the function never
sees the range of its argument.

## Main definitions

* `Reachable`: the states that the pass can be in: joins to identifiers, changes of caches, and
  the start of an iteration.  It allows more than the pass does, and what is shown holds in all
  of them.
* `isPlaceholder`: the calls that `annotateArguments` inserts.
* `ReturnCovers`: the return identifier of the callee has a range that covers what the
  identifier of the argument has.

## Main results

* `run_reachable`: a run goes through reachable states.
* `getRange_covers_iff`: in a reachable state `getRange` at a load covers the range of its
  identifier, and at a placeholder it does exactly if the return identifier of the callee does.
  Placeholders have no body and nothing is joined under their return identifier, unless it is a
  taint source.
* `argument_not_covered`: a function that is called with 5, where the range of its argument is
  `[5, 6)` and `getRange` returns the empty set for it.

That no identifier ever has the empty set (`Reachable.noneEmpty`) is needed since a union with
an empty range returns the other one.
-/

namespace Kint.Range

open Iteration

section Reachable

variable {L : Library} {P : Program} {callees : CalleeMap} {taints : TaintMap}
  {s : State} {r : Report State Event}

/-! ## Reachable states -/

variable (L) in
/-- The states that the pass can be in.  Within a function body identifiers are
joined to and ranges are cached; between iterations ranges are expanded. -/
inductive Reachable : State → Prop
  | init : Reachable .init
  | body {s : State} {r : Report State Event} : Reachable s → Writes L (fun _ => True) s r →
      Reachable r.state
  | next {s : State} (itr : ℕ) : Reachable s → Reachable (beginIteration itr s)

/-- A function body leads to a reachable state. -/
theorem Reachable.writes {ids : String → Prop} (hs : Reachable L s) (h : Writes L ids s r) :
    Reachable L r.state :=
  hs.body (h.mono fun _ _ => trivial)

/-- Parts that lead to reachable states may be put one after the other. -/
theorem sequential_reachable :
    Sequential fun (s : State) (r : Report State Event) => Reachable L s → Reachable L r.state where
  idle _ hs := hs
  andThen h h' hs := h' (h hs)

theorem doModulePass_reachable {fuel : ℕ} {M : Module} (hs : Reachable L s)
    (h : doModulePass L P callees taints fuel M s = .ok r) : Reachable L r.state := by
  obtain ⟨b, hb, rfl⟩ := doModulePass_eq_ok.mp h
  show Reachable L b.state
  refine sequential_reachable.whileChanged_spec (fun itr s r hr hs => ?_) hb hs
  obtain ⟨v, hv, rfl⟩ := iteration_eq_ok.mp hr
  show Reachable L v.state
  exact (hs.next itr).writes ((visitFunctions_body M).writes _ v hv)

/-- A run passes through reachable states only: initialization, every call of
`doModulePass` and finalization lead from reachable states to reachable ones. -/
theorem run_reachable {fuel : ℕ} {modules : List Module}
    (h : (rangePass L P callees taints).run fuel modules .init = .ok r) :
    Reachable L r.state := by
  obtain ⟨r₁, r₂, r₃, h₁, h₂, h₃, rfl⟩ := IterativeModulePass.run_eq_ok.mp h
  have hinit : Reachable L r₁.state := sequential_reachable.forEach_spec
    (fun M _ s r h hs => hs.writes ((doInitialization_joins M).writes s r h)) h₁ .init
  have hiter : Reachable L r₂.state := sequential_reachable.whileChanged_spec (fun _ _ _ h =>
    sequential_reachable.forEach_spec (fun M _ s r h hs => doModulePass_reachable hs h) h) h₂ hinit
  show Reachable L r₃.state
  refine sequential_reachable.forEach_spec (fun M _ s r h => ?_) h₃ hiter
  refine sequential_reachable.forEach_spec (fun i _ s r h hs => ?_) h
  obtain rfl := Except.ok.inj h
  exact hs

/-- No identifier has the empty set. -/
def NoneEmpty (m : RangeMap) : Prop := ∀ sID R, m sID = some R → R.isEmptySet = false

theorem unionRange_noneEmpty (hL : L.ranges.UnionLaws) {sID : String} {R : ConstantRange}
    (hs : NoneEmpty s.intRanges) (h : unionRange L sID R s = .ok r) :
    NoneEmpty r.state.intRanges := by
  unfold unionRange at h
  split at h
  · obtain rfl := Except.ok.inj h
    exact hs
  · rename_i hR
    obtain rfl := Except.ok.inj h
    intro sID' R' hR'
    by_cases heq : sID' = sID
    · subst heq
      simp only [Function.update_self] at hR'
      obtain rfl := Option.some.inj hR'
      cases hentry : s.intRanges sID' with
      | none => exact Bool.eq_false_iff.mpr hR
      | some S => exact ConstantRange.isEmptySet_of_le (le_joined hL) (hs sID' S hentry)
    · simp only [Function.update_of_ne heq] at hR'
      exact hs sID' R' hR'

theorem Writes.noneEmpty (hL : L.ranges.UnionLaws) {ids : String → Prop}
    (h : Writes L ids s r) (hs : NoneEmpty s.intRanges) : NoneEmpty r.state.intRanges := by
  induction h with
  | caches hr _ => exact fun sID R hR => hs sID R ((congrFun hr sID).symm.trans hR)
  | union _ h => exact unionRange_noneEmpty hL hs h
  | andThen _ _ ih ih' => exact ih' (ih hs)

/-- No identifier has the empty set in a reachable state. -/
theorem Reachable.noneEmpty (hL : L.ranges.UnionLaws) (h : Reachable L s) :
    NoneEmpty s.intRanges := by
  induction h with
  | init => exact fun sID R hR => by cases hR
  | body _ h ih => exact h.noneEmpty hL ih
  | next itr _ ih =>
    intro sID R hR
    unfold beginIteration at hR
    split at hR
    · simp only [widen, widenRanges] at hR
      split at hR
      · obtain ⟨S, -, rfl⟩ := Option.map_eq_some_iff.mp hR
        rfl
      · exact ih sID R hR
    · exact ih sID R hR

end Reachable

/-! ## What `getRange` looks up -/

section Lookup

variable {L : Library} {P : Program} {callees : CalleeMap} {taints : TaintMap}
  {s : State} {i : InstId} {N : ℕ} {BB : BlockId} {R : ConstantRange}

variable (P) in
/-- `isa<LoadInst>` -/
def isLoad (i : InstId) : Bool :=
  match (P.inst i).op with
  | .load .. => true
  | _ => false

variable (P) in
/-- A call of a placeholder function `kint_arg.iN`, as `annotateArguments`
inserts them. -/
def isPlaceholder (i : InstId) : Bool :=
  (P.calledFunction i).any fun f => startswith (P.func f).name "kint_arg.i"

/-- At an integer instruction without an entry in the map of the block,
`getRange` returns what is looked up. -/
theorem getRange_eq_lookup (hty : (P.inst i).ty = .int N)
    (hmiss : s.funcVRMs BB (.inst i) = none) :
    ∃ s', getRange L P callees taints BB (.inst i) s =
      .ok (lookupRange L P callees taints N s.intRanges (.inst i), s') := by
  simp [getRange, hmiss, Program.typeOf, hty, integerWidth]

theorem lookupRange_load (hload : isLoad P i = true) {m : RangeMap}
    (hk : m (getValueId L P (.inst i)) = some R) :
    lookupRange L P callees taints N m (.inst i) =
      L.ranges.zextOrTrunc (if getValueId L P (.inst i) = "" then .empty N
        else if taints.isSource (getValueId L P (.inst i)) then .full N else R) N := by
  unfold isLoad at hload
  split at hload
  · rename_i hop
    simp [lookupRange, Program.opcode?, hop, hk]
  · cases hload

/-- What is looked up at a load covers the range of its identifier. -/
theorem le_lookupRange_load_iff (hL : L.ranges.UnionLaws) (hlookup : L.ranges.LookupLaws)
    (hload : isLoad P i = true) {m : RangeMap} (hR : R.isEmptySet = false)
    (hk : m (getValueId L P (.inst i)) = some R) :
    L.ranges.zextOrTrunc R N ≤ lookupRange L P callees taints N m (.inst i) ↔
      getValueId L P (.inst i) ≠ "" := by
  rw [lookupRange_load hload hk]
  have hself : ∀ S : ConstantRange, S.width = N → L.ranges.zextOrTrunc S N = S := by
    rintro S rfl
    exact hlookup.zextOrTrunc_self S
  by_cases hid : getValueId L P (.inst i) = ""
  · rw [if_pos hid, hself (.empty N) rfl]
    exact iff_of_false (ConstantRange.not_le_empty (hlookup.isEmptySet_zextOrTrunc N hR))
      (not_not.mpr hid)
  · rw [if_neg hid]
    refine iff_of_true ?_ hid
    split
    · rw [hself (.full N) rfl]
      have hle := ConstantRange.le_full (L.ranges.zextOrTrunc R N)
      rwa [hL.width_zextOrTrunc] at hle
    · exact le_rfl

/-- When all callees are `f`, the range is that of its return identifier. -/
theorem unionOfReturns_same (hL : L.ranges.UnionLaws) (hlookup : L.ranges.LookupLaws)
    {f : FuncId} {m : RangeMap} {S : ConstantRange} (hS : m (getRetId L P f) = some S)
    (hsource : taints.isSource (getRetId L P f) = false) {fs : List FuncId}
    (hfs : ∀ g ∈ fs, g = f) :
    unionOfReturns L P taints N m fs (L.ranges.zextOrTrunc S N) = L.ranges.zextOrTrunc S N := by
  induction fs with
  | nil => rfl
  | cons g fs ih =>
    obtain rfl := hfs g List.mem_cons_self
    have hunion : (L.ranges.safeUnion (L.ranges.zextOrTrunc S N) S).2 =
        L.ranges.zextOrTrunc S N := by
      show L.ranges.unionWith _ (L.ranges.convert S _) = _
      rw [hlookup.convert_eq, hL.width_zextOrTrunc, hlookup.unionWith_self]
    simp only [unionOfReturns, hsource, hS, hunion]
    exact ih fun g hg => hfs g (List.mem_cons_of_mem _ hg)

theorem unionOfReturns_singleton (hL : L.ranges.UnionLaws) (hlookup : L.ranges.LookupLaws)
    (f : FuncId) (m : RangeMap) :
    unionOfReturns L P taints N m (L.elements {f}) (.empty N) =
      if taints.isSource (getRetId L P f) then .full N
      else (m (getRetId L P f)).elim (.empty N) fun S => L.ranges.zextOrTrunc S N := by
  have hall : ∀ g ∈ L.elements {f}, g = f := fun g hg =>
    Finset.mem_singleton.mp ((L.mem_elements _ g).mp hg)
  have hmem : f ∈ L.elements {f} := (L.mem_elements _ f).mpr (Finset.mem_singleton_self f)
  generalize L.elements {f} = fs at hall hmem
  cases fs with
  | nil => cases hmem
  | cons g fs =>
    obtain rfl := hall g List.mem_cons_self
    have hrest : ∀ g' ∈ fs, g' = g := fun g' hg' => hall g' (List.mem_cons_of_mem _ hg')
    cases hsource : taints.isSource (getRetId L P g) with
    | true => simp [unionOfReturns, hsource]
    | false =>
      cases hS : m (getRetId L P g) with
      | some S =>
        have hunion : (L.ranges.safeUnion (.empty N) S).2 = L.ranges.zextOrTrunc S N := by
          show L.ranges.unionWith (.empty N) (L.ranges.convert S (.empty N)) = _
          have hempty := hlookup.empty_unionWith (L.ranges.zextOrTrunc S N)
          rw [hL.width_zextOrTrunc] at hempty
          rw [hlookup.convert_eq, ConstantRange.width_empty, hempty]
        simp only [unionOfReturns, hsource, hS, hunion]
        exact unionOfReturns_same hL hlookup hS hsource hrest
      | none =>
        simp only [unionOfReturns, hsource, hS]
        -- the rest of the list is `g` again
        clear hall hmem
        induction fs with
        | nil => rfl
        | cons g' fs ih =>
          obtain rfl := hrest g' List.mem_cons_self
          simp only [unionOfReturns, hsource, hS]
          exact ih fun g hg => hrest g (List.mem_cons_of_mem _ hg)

theorem isLoad_of_isPlaceholder (h : isPlaceholder P i = true) : isLoad P i = false := by
  unfold isPlaceholder Program.calledFunction at h
  unfold isLoad
  split at h
  · rename_i hop
    rw [hop]
  · cases h

theorem isPlaceholder_iff :
    isPlaceholder P i = true ↔ ∃ f args, (P.inst i).op = .call (.func f) args ∧
      startswith (P.func f).name "kint_arg.i" = true := by
  unfold isPlaceholder Program.calledFunction
  constructor
  · intro h
    split at h
    · rename_i f args hop
      exact ⟨f, args, hop, h⟩
    · cases h
  · rintro ⟨f, args, hop, h⟩
    rw [hop]
    exact h

/-- At a direct call `getRange` finds the range of the return identifier of the
callee. -/
theorem lookupRange_call (hL : L.ranges.UnionLaws) (hlookup : L.ranges.LookupLaws)
    {f g : FuncId} {args : List Value} (hop : (P.inst i).op = .call (.func f) args)
    (hcallees : callees i = some {g}) (m : RangeMap) :
    lookupRange L P callees taints N m (.inst i) =
      if taints.isSource (getRetId L P g) then .full N
      else (m (getRetId L P g)).elim (.empty N) fun S => L.ranges.zextOrTrunc S N := by
  rw [← unionOfReturns_singleton hL hlookup]
  simp [lookupRange, Program.opcode?, hop, Program.isInlineAsm, hcallees]

/-- Nothing is looked up at a call without callees. -/
theorem lookupRange_call_none {f : FuncId} {args : List Value}
    (hop : (P.inst i).op = .call (.func f) args) (hcallees : callees i = none) (m : RangeMap) :
    lookupRange L P callees taints N m (.inst i) = .empty N := by
  simp [lookupRange, Program.opcode?, hop, Program.isInlineAsm, hcallees]

variable (L P callees taints) in
/-- The return identifier of the callee of `i` is a taint source, or has a range
that contains `R` at width `N`. -/
def ReturnCovers (m : RangeMap) (i : InstId) (R : ConstantRange) (N : ℕ) : Prop :=
  ∃ f, callees i = some {f} ∧ (taints.isSource (getRetId L P f) = true ∨
    ∃ S, m (getRetId L P f) = some S ∧ L.ranges.zextOrTrunc R N ≤ L.ranges.zextOrTrunc S N)

/-- What is looked up at a placeholder covers a range exactly if the return identifier of its callee
does. -/
theorem le_lookupRange_placeholder_iff (hL : L.ranges.UnionLaws)
    (hlookup : L.ranges.LookupLaws) (hi : isPlaceholder P i = true)
    (hdirect : ∀ f args S, (P.inst i).op = .call (.func f) args → callees i = some S →
      ∃ g, S = {g}) {m : RangeMap} (hR : R.isEmptySet = false) :
    L.ranges.zextOrTrunc R N ≤ lookupRange L P callees taints N m (.inst i) ↔
      ReturnCovers L P callees taints m i R N := by
  obtain ⟨f, args, hop, -⟩ := isPlaceholder_iff.mp hi
  have hempty : ¬ L.ranges.zextOrTrunc R N ≤ .empty N :=
    ConstantRange.not_le_empty (hlookup.isEmptySet_zextOrTrunc N hR)
  cases hcallees : callees i with
  | none =>
    rw [lookupRange_call_none hop hcallees]
    refine iff_of_false hempty ?_
    rintro ⟨g, hg, -⟩
    cases hcallees.symm.trans hg
  | some S =>
    obtain ⟨g, rfl⟩ := hdirect f args S hop hcallees
    rw [lookupRange_call hL hlookup hop hcallees]
    have hcovers : ReturnCovers L P callees taints m i R N ↔
        taints.isSource (getRetId L P g) = true ∨ ∃ S, m (getRetId L P g) = some S ∧
          L.ranges.zextOrTrunc R N ≤ L.ranges.zextOrTrunc S N := by
      constructor
      · rintro ⟨g', hg', h⟩
        obtain rfl := Finset.singleton_inj.mp (Option.some.inj (hcallees.symm.trans hg'))
        exact h
      · exact fun h => ⟨g, hcallees, h⟩
    rw [hcovers]
    split
    · rename_i hsource
      have hle := ConstantRange.le_full (L.ranges.zextOrTrunc R N)
      rw [hL.width_zextOrTrunc] at hle
      exact iff_of_true hle (.inl hsource)
    · rename_i hsource
      cases hS : m (getRetId L P g) with
      | none => simpa [hsource] using hempty
      | some S => simp [hsource]

/-- In every reachable state, for every load and every placeholder call that has
a range under its identifier: what `getRange` returns, in a block without an entry
for it, contains that range exactly if it is a load, which is looked up by its
identifier, or if the return identifier of the placeholder function, which is
looked up instead, happens to have all of the range. -/
theorem getRange_covers_iff (hL : L.ranges.UnionLaws) (hlookup : L.ranges.LookupLaws)
    {fuel : ℕ} {modules : List Module} {CG : Report CallGraph.State Empty}
    (hCG : (CallGraph.callGraphPass L P).run fuel modules .init = .ok CG)
    (hs : Reachable L s) (hi : isLoad P i = true ∨ isPlaceholder P i = true)
    (hty : (P.inst i).ty = .int N) (hk : s.intRanges (getValueId L P (.inst i)) = some R)
    (hmiss : s.funcVRMs BB (.inst i) = none) :
    (∃ CR s', getRange L P CG.state.callees taints BB (.inst i) s = .ok (CR, s') ∧
        L.ranges.zextOrTrunc R N ≤ CR) ↔
      if isLoad P i then getValueId L P (.inst i) ≠ ""
      else ReturnCovers L P CG.state.callees taints s.intRanges i R N := by
  have hR : R.isEmptySet = false := hs.noneEmpty hL _ _ hk
  obtain ⟨s', hs'⟩ : ∃ s', getRange L P CG.state.callees taints BB (.inst i) s =
      .ok (lookupRange L P CG.state.callees taints N s.intRanges (.inst i), s') :=
    getRange_eq_lookup hty hmiss
  have hreturns : (∃ CR s', getRange L P CG.state.callees taints BB (.inst i) s = .ok (CR, s') ∧
        L.ranges.zextOrTrunc R N ≤ CR) ↔
      L.ranges.zextOrTrunc R N ≤
        lookupRange L P CG.state.callees taints N s.intRanges (.inst i) := by
    constructor
    · rintro ⟨CR, t, ht, hle⟩
      obtain ⟨rfl, -⟩ := Prod.mk.inj (Except.ok.inj (hs'.symm.trans ht))
      exact hle
    · exact fun hle => ⟨_, s', hs', hle⟩
  rw [hreturns]
  rcases hi with hload | hplace
  · rw [if_pos hload]
    exact le_lookupRange_load_iff hL hlookup hload hR hk
  · rw [if_neg (Bool.eq_false_iff.mp (isLoad_of_isPlaceholder hplace))]
    refine le_lookupRange_placeholder_iff hL hlookup hplace (fun f args S hop hS => ?_) hR
    exact ⟨_, (CallGraph.run_calleesOf hCG).direct hop hS⟩

end Lookup

/-- `f` adds its argument and a variable; it is called with 5. -/
def argumentProgram : Program where
  insts := [
    ⟨0, .int 32, .call (.func 1) [], some "arg.f.0", none⟩,
    ⟨0, .int 32, .load (.global 0) false, some "var.last", none⟩,
    ⟨0, .int 32, .binary .add (.inst 0) (.inst 1), none, none⟩,
    ⟨0, .other, .ret (some (.inst 2)), none, none⟩,
    ⟨1, .int 32, .call (.func 0) [.constInt (.ofNat 32 5)], none, none⟩,
    ⟨1, .other, .ret none, none, none⟩]
  blocks := [⟨0, [0, 1, 2], 3, []⟩, ⟨2, [4], 5, []⟩]
  funcs := [⟨⟨"f", .external, "a.c"⟩, false, [.int 32], .int 32, [0]⟩,
    ⟨⟨"kint_arg.i32", .external, "a.c"⟩, false, [], .int 32, []⟩,
    ⟨⟨"g", .external, "a.c"⟩, false, [], .other, [1]⟩]
  globals := [⟨⟨"last", .external, "a.c"⟩, .int 32, some (.int (.ofNat 32 7))⟩]
  structs := []
  consts := []

/-- The module of `argumentProgram`. -/
def argumentModules : List Module := [⟨"a.c", [0], [0, 1, 2]⟩]

/-- The load of the variable sees its range. -/
theorem argument_load_covers : ∃ CG s,
    (CallGraph.callGraphPass .reference argumentProgram).run 4 argumentModules .init = .ok CG ∧
    Reachable .reference s ∧
    ((∃ CR s', getRange .reference argumentProgram CG.state.callees .init 0 (.inst 1) s =
        .ok (CR, s') ∧ RangeOps.reference.zextOrTrunc (.ofAPInt (.ofNat 32 7)) 32 ≤ CR) ↔
      if isLoad argumentProgram 1 then
        getValueId .reference argumentProgram (.inst 1) ≠ ""
      else ReturnCovers .reference argumentProgram CG.state.callees .init s.intRanges 1
        (.ofAPInt (.ofNat 32 7)) 32) := by
  have hrun : resultIs
      ((CallGraph.callGraphPass .reference argumentProgram).run 4 argumentModules .init)
      (fun CG => resultIs ((rangePass .reference argumentProgram CG.state.callees .init).run 4
        argumentModules .init) fun r =>
          decide (r.state.intRanges "var.last" = some (.ofAPInt (.ofNat 32 7))) &&
            (r.state.funcVRMs 0 (.inst 1)).isNone) = true := by
    decide +kernel
  obtain ⟨CG, hCG, hrun⟩ := of_resultIs hrun
  obtain ⟨r, hr, hrun⟩ := of_resultIs hrun
  obtain ⟨hk, hmiss⟩ := Bool.and_eq_true_iff.mp hrun
  exact ⟨CG, r.state, hCG, run_reachable hr,
    getRange_covers_iff RangeOps.reference_unionLaws RangeOps.reference_lookupLaws hCG
      (run_reachable hr) (.inl rfl) rfl (of_decide_eq_true hk) (Option.isNone_iff_eq_none.mp hmiss)⟩

/-- After the run the argument of `f` has the range `[5, 6)`, and so the metadata
of its placeholder; `getRange` returns the empty set for it. -/
theorem argument_not_covered : ∃ out R,
    mainWorkflow .reference argumentProgram 4 argumentModules = .ok out ∧
    Reachable .reference out.ranges.state ∧
    (0, some (.ofNat 32 5, .ofNat 32 6)) ∈ annotations out.ranges.trace ∧
    isPlaceholder argumentProgram 0 = true ∧ (argumentProgram.inst 0).ty = .int 32 ∧
    out.ranges.state.intRanges (getValueId .reference argumentProgram (.inst 0)) = some R ∧
    out.ranges.state.funcVRMs 0 (.inst 0) = none ∧
    ¬ ∃ CR s', getRange .reference argumentProgram out.callGraph.callees out.taints 0 (.inst 0)
      out.ranges.state = .ok (CR, s') ∧ RangeOps.reference.zextOrTrunc R 32 ≤ CR := by
  have hrun : resultIs (mainWorkflow .reference argumentProgram 4 argumentModules) (fun out =>
      decide ((0, some (.ofNat 32 5, .ofNat 32 6)) ∈ annotations out.ranges.trace) &&
        decide (out.ranges.state.intRanges "arg.f.0" = some (.ofAPInt (.ofNat 32 5))) &&
        (out.ranges.state.funcVRMs 0 (.inst 0)).isNone &&
        resultIs (getRange .reference argumentProgram out.callGraph.callees out.taints 0 (.inst 0)
          out.ranges.state) fun a => decide (a.1 = .empty 32)) = true := by
    decide +kernel
  obtain ⟨out, hout, hrun⟩ := of_resultIs hrun
  obtain ⟨hrun, hget⟩ := Bool.and_eq_true_iff.mp hrun
  obtain ⟨hrun, hmiss⟩ := Bool.and_eq_true_iff.mp hrun
  obtain ⟨hmd, hk⟩ := Bool.and_eq_true_iff.mp hrun
  obtain ⟨⟨CR, s'⟩, hCR, hget⟩ := of_resultIs hget
  obtain rfl : CR = .empty 32 := of_decide_eq_true hget
  refine ⟨out, .ofAPInt (.ofNat 32 5), hout, run_reachable (mainWorkflow_ranges hout),
    of_decide_eq_true hmd, by decide, rfl, of_decide_eq_true hk,
    Option.isNone_iff_eq_none.mp hmiss, ?_⟩
  rintro ⟨CR', t, ht, hle⟩
  obtain ⟨rfl, -⟩ := Prod.mk.inj (Except.ok.inj (hCR.symm.trans ht))
  exact ConstantRange.not_le_empty (by decide) hle

end Kint.Range
