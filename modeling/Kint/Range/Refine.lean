import Kint.LLVM.Branch
import Kint.LLVM.Region
import Kint.Range.Operators

/-!
# Refinement along edges

What `visitBranchInst` and `visitSwitchInst` insert for the operands of a comparison and the
condition of a switch, and what the merge of the predecessors records.  A comparison constrains
both operands, but the second one by means of the range of the first; a switch constrains its
condition on the default edge by one interval that contains all cases; and the constraint is
inserted into a copy of the map of the predecessor, where an entry stays as it is.

## Branches

`edgeRanges` has the two ranges that are inserted.  The first one is the one that is meant.  The
second one is cut out of the range of the *first* operand as well, on the true edge by comparing
with the first operand and on the false edge by comparing with the second.  `EdgeKeeps` says
which pairs of values are in both ranges whatever the library does, and
`visitBranchInst_contains_iff` that it is right about the source.

## Switches

`switchRange` is the range for an edge.  On an edge of a case it contains the cases of that
edge; on the default edge it is the complement of a union of all cases, which as an interval may
contain more than these.  `visitSwitchInst_contains_iff` says when a value of the condition is
lost for some library.

## The merge

`recorded` is the range that a value has in the map of the block after the merge of a single
predecessor.  `TakesEffect` lists the cases in which the constraint of the branch reaches it
(`propagate_constrains_iff`).

`lessProgram` has one example for each of the three.
-/

namespace Kint.Range

open Iteration

section Edges

variable {L : Library} {P : Program} {callees : CalleeMap} {taints : TaintMap}
  {s s₁ s₂ : State} {BB : BlockId} {a b x v : APInt}

/-! ## Conditional branches -/

/-- The ranges that `visitBranchInst` inserts for the two operands. -/
def edgeRanges (K : RangeOps) (pred : ICmpPredicate) (onTrue : Bool) (LCR RCR : ConstantRange) :
    ConstantRange × ConstantRange :=
  if onTrue then
    (K.intersectWith LCR (K.makeICmpRegion pred RCR),
      K.intersectWith LCR (K.makeICmpRegion pred.swapped LCR))
  else
    (K.intersectWith LCR (K.makeICmpRegion pred.inverse RCR),
      K.intersectWith LCR (K.makeICmpRegion pred.swapped.inverse RCR))

section Branch

variable {c : InstId} {pred : ICmpPredicate} {LHS RHS : Value} {ifTrue ifFalse : BlockId}
  {LCR RCR : ConstantRange}

/-- What is inserted for a comparison of two integers. -/
theorem visitBranchInst_eq (hop : (P.inst c).op = .icmp pred LHS RHS)
    (hLHS : (P.typeOf LHS).isIntegerTy = true) (hRHS : (P.typeOf RHS).isIntegerTy = true)
    (hl : getRange L P callees taints (P.inst c).parent LHS s = .ok (LCR, s₁))
    (hr : getRange L P callees taints (P.inst c).parent RHS s₁ = .ok (RCR, s₂))
    (ifTrue BB : BlockId) (VRM : ValueRangeMap) :
    visitBranchInst L P callees taints (.inst c) ifTrue BB VRM s =
      .ok ((VRM.insert LHS (edgeRanges L.ranges pred (ifTrue = BB) LCR
          (L.ranges.convert RCR LCR)).1).insert RHS
        (edgeRanges L.ranges pred (ifTrue = BB) LCR (L.ranges.convert RCR LCR)).2, s₂) := by
  simp only [visitBranchInst, hop, hLHS, hRHS, Bool.and_self, if_true]
  refine Query.bind_eq_ok.mpr ⟨LCR, s₁, hl, Query.bind_eq_ok.mpr ⟨RCR, s₂, hr,
    Query.pure_eq_ok.mpr ⟨?_, rfl⟩⟩⟩
  by_cases hT : ifTrue = BB
  · simp [edgeRanges, hT]
  · simp [edgeRanges, hT]

/-- The elements of the operands' ranges that the inserted ranges keep in any case: the
second operand has to be in the range of the first one, and to compare with an element of
the range that is used for it. -/
def EdgeKeeps (pred : ICmpPredicate) (onTrue : Bool) (LCR RCR : ConstantRange) (a b : APInt) :
    Prop :=
  LCR.Contains b ∧
    if onTrue then (∃ r, RCR.Contains r ∧ pred.Holds a r) ∧ ∃ r, LCR.Contains r ∧ pred.Holds r b
    else ∃ r, RCR.Contains r ∧ pred.inverse.Holds r b

/-- On the edge to `BB` that a branch takes at `a` and `b`, the range inserted for the first
operand contains `a` and the one for the second operand contains `b`, whatever library is
used, exactly if `EdgeKeeps`. -/
theorem visitBranchInst_contains_iff (hop : (P.inst c).op = .icmp pred LHS RHS)
    (hLHS : (P.typeOf LHS).isIntegerTy = true) (hRHS : (P.typeOf RHS).isIntegerTy = true)
    (hl : getRange L P callees taints (P.inst c).parent LHS s = .ok (LCR, s₁))
    (hr : getRange L P callees taints (P.inst c).parent RHS s₁ = .ok (RCR, s₂))
    (ha : LCR.Contains a) (hb : RCR.Contains b) (hx : icmpValue pred a b = some x)
    (hdest : (Opcode.condBr (.inst c) ifTrue ifFalse).destination x = some BB) :
    (∀ VRM, visitBranchInst L P callees taints (.inst c) ifTrue BB VRM s =
      .ok ((VRM.insert LHS (edgeRanges L.ranges pred (ifTrue = BB) LCR RCR).1).insert RHS
        (edgeRanges L.ranges pred (ifTrue = BB) LCR RCR).2, s₂)) ∧
    ((∀ K : RangeOps, K.RegionLaws →
        (edgeRanges K pred (ifTrue = BB) LCR RCR).1.Contains a ∧
          (edgeRanges K pred (ifTrue = BB) LCR RCR).2.Contains b) ↔
      EdgeKeeps pred (ifTrue = BB) LCR RCR a b) := by
  have hw : a.width = b.width := by
    obtain ⟨w, y, z, rfl, rfl, -⟩ := APInt.map₂_eq_some.mp hx
    rfl
  have hconvert : L.ranges.convert RCR LCR = RCR :=
    convert_of_width (hb.width_eq.symm.trans (hw.symm.trans ha.width_eq))
  refine ⟨fun VRM => ?_, ?_⟩
  · rw [visitBranchInst_eq hop hLHS hRHS hl hr, hconvert]
  simp only [imp_and, forall_and]
  by_cases hT : ifTrue = BB
  · simp only [edgeRanges, EdgeKeeps, hT, decide_true, if_true, RangeOps.forall_region_iff,
      ICmpPredicate.holds_swapped]
    rw [and_iff_right ha, and_left_comm]
  · -- only the false edge leads to `BB`
    have hfalse : pred.inverse.Holds a b := by
      rw [ICmpPredicate.holds_inverse hw]
      intro hholds
      obtain rfl := Option.some.inj (hholds.symm.trans hx)
      exact hT (Option.some.inj hdest)
    simp only [edgeRanges, EdgeKeeps, hT, decide_false, Bool.false_eq_true, if_false,
      RangeOps.forall_region_iff, ICmpPredicate.inverse_swapped, ICmpPredicate.holds_swapped]
    rw [and_iff_right ⟨ha, b, hb, hfalse⟩]

end Branch

/-! ## Switches -/

section Switch

variable {K : Library} {i : InstId} {cond : Value} {d : BlockId} {cases : List (APInt × BlockId)}
  {w : ℕ} {VCR : ConstantRange}

/-- The range that `visitSwitchInst` intersects the range of the condition with. -/
def switchRange (K : Library) (w : ℕ) (cases : List (APInt × BlockId)) (d BB : BlockId) :
    ConstantRange :=
  if d ≠ BB then unionOfCases K w (cases.filter fun c => c.2 = BB)
  else K.ranges.inverse (unionOfCases K w cases)

/-- Unions cover both arguments, and one with the empty set adds nothing; the inverse is the
complement; intersections contain the common elements. -/
structure SwitchLaws (K : RangeOps) : Prop where
  union : K.UnionLaws
  empty_unionWith : ∀ R, K.unionWith (.empty R.width) R = R
  inverse : ∀ {R x}, (K.inverse R).Contains x ↔ x.width = R.width ∧ ¬ R.Contains x
  intersectWith : ∀ {R S a}, R.Contains a → S.Contains a → (K.intersectWith R S).Contains a

theorem visitSwitchInst_eq (hty : P.typeOf cond = .int w)
    (hv : getRange L P callees taints (P.inst i).parent cond s = .ok (VCR, s₁))
    (VRM : ValueRangeMap) :
    visitSwitchInst L P callees taints i cond d cases BB VRM s =
      .ok (VRM.insert cond (L.ranges.intersectWith VCR (switchRange L w cases d BB)), s₁) := by
  simp only [visitSwitchInst, hty]
  exact Query.bind_eq_ok.mpr ⟨VCR, s₁, hv, Query.pure_eq_ok.mpr ⟨rfl, rfl⟩⟩

/-- The fold over the cases contains what it starts with and every case. -/
theorem foldl_cases_contains (hK : K.ranges.UnionLaws) (CR : ConstantRange)
    (hCR : CR.width = w) (hwidth : ∀ c ∈ cases, c.1.width = w) :
    CR ≤ cases.foldl (fun CR c => (K.ranges.safeUnion CR (.ofAPInt c.1)).2) CR ∧
      ∀ c ∈ cases, (cases.foldl (fun CR c => (K.ranges.safeUnion CR (.ofAPInt c.1)).2)
        CR).Contains c.1 := by
  induction cases generalizing CR with
  | nil =>
    refine ⟨le_rfl, fun c hc => ?_⟩
    cases hc
  | cons c cases ih =>
    have hle := hK.le_safeUnion CR (.ofAPInt c.1)
    obtain ⟨hrest, hmem⟩ := ih _ ((ConstantRange.le_width hle).symm.trans hCR)
      fun c' hc' => hwidth c' (List.mem_cons_of_mem c hc')
    refine ⟨hle.trans hrest, fun c' hc' => ?_⟩
    rcases List.mem_cons.mp hc' with rfl | hc'
    · have hcover := hK.convert_le_safeUnion CR (.ofAPInt c'.1)
      rw [convert_of_width ((ConstantRange.width_ofAPInt _).trans
        ((hwidth c' List.mem_cons_self).trans hCR.symm))] at hcover
      exact ConstantRange.le_contains (hcover.trans hrest) (ConstantRange.ofAPInt_contains c'.1)
    · exact hmem c' hc'

theorem unionOfCases_contains (hK : K.ranges.UnionLaws) (hwidth : ∀ c ∈ cases, c.1.width = w)
    {c : APInt × BlockId} (hc : c ∈ cases) : (unionOfCases K w cases).Contains c.1 :=
  (foldl_cases_contains hK (.empty w) rfl hwidth).2 c hc

/-- With a given library, the condition is in the range that is inserted unless its value
is, on the default edge, in the interval that the union makes of the cases. -/
theorem switchRange_contains (hK : SwitchLaws K.ranges) (hwidth : ∀ c ∈ cases, c.1.width = w)
    (hvw : v.width = w) (hdest : (Opcode.switch cond d cases).destination v = some BB)
    (hout : d ≠ BB ∨ ¬ (unionOfCases K w cases).Contains v) :
    (switchRange K w cases d BB).Contains v := by
  by_cases hd : d = BB
  · rw [switchRange, if_neg (not_not.mpr hd), hK.inverse, width_unionOfCases hK.union]
    exact ⟨hvw, hout.resolve_left (not_not.mpr hd)⟩
  · rw [switchRange, if_pos hd]
    have hmem := mem_of_destination hdest hd
    have hfilter : ∀ c ∈ cases.filter fun c => c.2 = BB, c.1.width = w :=
      fun c hc => hwidth c (List.mem_of_mem_filter hc)
    exact unionOfCases_contains hK.union hfilter (c := (v, BB))
      (List.mem_filter.mpr ⟨hmem, decide_eq_true rfl⟩)

/-- A library whose unions are the full set, unless one argument is empty. -/
def coarseLibrary : Library :=
  { Library.reference with
    ranges := { RangeOps.reference with
      unionWith := fun R S => if R.isEmptySet then S else .full R.width
      intersectWith := fun _ S => S } }

theorem coarseLibrary_laws : SwitchLaws coarseLibrary.ranges where
  union := {
    width_zextOrTrunc := RangeOps.width_resizeRange
    left_le_unionWith := by
      intro R S hw
      show R ≤ if R.isEmptySet then S else .full R.width
      split
      · rename_i hR
        exact ⟨hw, fun x hx => absurd hx.not_isEmptySet (by simp [hR])⟩
      · exact ConstantRange.le_full R
    right_le_unionWith := by
      intro R S hw
      show S ≤ if R.isEmptySet then S else .full R.width
      split
      · exact le_rfl
      · rw [hw]
        exact ConstantRange.le_full S }
  empty_unionWith R := rfl
  inverse := ConstantRange.contains_inverseRange
  intersectWith _ hb := hb

theorem SwitchLaws.safeUnion_empty (hK : SwitchLaws K.ranges) {R : ConstantRange}
    (hR : R.width = w) : (K.ranges.safeUnion (.empty w) R).2 = R := by
  subst hR
  show K.ranges.unionWith (.empty R.width) (K.ranges.convert R (.empty R.width)) = R
  have hconvert : K.ranges.convert R (.empty R.width) = R := convert_of_width rfl
  rw [hconvert, hK.empty_unionWith]

/-- The union of two cases and more, in the coarse library. -/
theorem coarse_unionOfCases {c c' : APInt × BlockId} (hc : c.1.width = w)
    (hwidth : ∀ c ∈ cases, c.1.width = w) :
    unionOfCases coarseLibrary w (c :: c' :: cases) = .full w := by
  refine ConstantRange.eq_full_of_le ?_
  have hfirst := coarseLibrary_laws.safeUnion_empty (w := w) (R := .ofAPInt c.1)
    ((ConstantRange.width_ofAPInt _).trans hc)
  have hsecond : (coarseLibrary.ranges.safeUnion (.ofAPInt c.1) (.ofAPInt c'.1)).2 = .full w := by
    show (if (ConstantRange.ofAPInt c.1).isEmptySet then _ else ConstantRange.full _) = _
    rw [(ConstantRange.ofAPInt_contains c.1).not_isEmptySet, if_neg Bool.false_ne_true,
      ConstantRange.width_ofAPInt, hc]
  rw [unionOfCases, List.foldl_cons, List.foldl_cons, hfirst, hsecond]
  exact (foldl_cases_contains coarseLibrary_laws.union _ rfl hwidth).1

/-- The union of at most one case contains nothing else. -/
theorem unionOfCases_le_one (hK : SwitchLaws K.ranges) (hwidth : ∀ c ∈ cases, c.1.width = w)
    (hlen : cases.length ≤ 1) (hne : ∀ c ∈ cases, c.1 ≠ v) :
    ¬ (unionOfCases K w cases).Contains v := by
  match cases with
  | [] => exact ConstantRange.not_contains_empty w v
  | [c] =>
    have hc := hwidth c List.mem_cons_self
    rw [unionOfCases, List.foldl_cons, List.foldl_nil,
      hK.safeUnion_empty ((ConstantRange.width_ofAPInt _).trans hc),
      ConstantRange.contains_ofAPInt]
    exact fun h => hne c List.mem_cons_self h.symm
  | _ :: _ :: _ => simp at hlen

/-- Whatever library is used, the condition is in the range that is inserted exactly if the
edge is not the default one, or there is at most one case and the condition is not it. -/
theorem visitSwitchInst_contains_iff (hty : P.typeOf cond = .int w)
    (hwidth : ∀ c ∈ cases, c.1.width = w)
    (hv : getRange L P callees taints (P.inst i).parent cond s = .ok (VCR, s₁))
    (hx : VCR.Contains v) (hvw : v.width = w)
    (hdest : (Opcode.switch cond d cases).destination v = some BB) :
    (∀ VRM, visitSwitchInst L P callees taints i cond d cases BB VRM s =
      .ok (VRM.insert cond (L.ranges.intersectWith VCR (switchRange L w cases d BB)), s₁)) ∧
    ((∀ K : Library, SwitchLaws K.ranges →
        (K.ranges.intersectWith VCR (switchRange K w cases d BB)).Contains v) ↔
      d ≠ BB ∨ cases.length ≤ 1 ∧ ∀ c ∈ cases, c.1 ≠ v) ∧
    ∀ K : Library, SwitchLaws K.ranges → ¬ (unionOfCases K w cases).Contains v →
      (K.ranges.intersectWith VCR (switchRange K w cases d BB)).Contains v := by
  refine ⟨visitSwitchInst_eq hty hv, ?_, fun K hK hout => ?_⟩
  · constructor
    · intro h
      rw [or_iff_not_imp_left, not_not]
      intro hd
      have hin : (switchRange coarseLibrary w cases d BB).Contains v := h _ coarseLibrary_laws
      rw [switchRange, if_neg (not_not.mpr hd), coarseLibrary_laws.inverse] at hin
      refine ⟨?_, fun c hc hcv => hin.2 ?_⟩
      · match cases with
        | [] | [_] => simp
        | c :: c' :: rest =>
          rw [coarse_unionOfCases (hwidth c List.mem_cons_self) fun c hc => hwidth c
            (List.mem_cons_of_mem _ (List.mem_cons_of_mem _ hc))] at hin
          exact absurd ((ConstantRange.contains_full w v).mpr hvw) hin.2
      · rw [← hcv]
        exact unionOfCases_contains coarseLibrary_laws.union hwidth hc
    · intro hcond K hK
      refine hK.intersectWith hx (switchRange_contains hK hwidth hvw hdest ?_)
      exact hcond.imp_right fun h => unionOfCases_le_one hK hwidth h.1 h.2
  · exact hK.intersectWith hx (switchRange_contains hK hwidth hvw hdest (.inr hout))

end Switch

/-! ## The merge of one predecessor -/

section Merge

variable {c : InstId} {pred : ICmpPredicate} {LHS RHS V V' : Value}
  {ifTrue ifFalse Pred B B' : BlockId}
  {LCR RCR R Region : ConstantRange} {backEdges : List (BlockId × BlockId)}
  {be pe : Option ConstantRange}

/-- A range that is not empty stands in the map afterwards. -/
theorem getRange_entry (h : getRange L P callees taints B V s = .ok (R, s₁))
    (hV : ∀ k, V ≠ .constInt k) (hR : R.isEmptySet = false) : s₁.funcVRMs B V = some R := by
  unfold getRange at h
  split at h
  · rename_i k
    exact absurd rfl (hV k)
  · split at h
    · rename_i hentry
      obtain ⟨rfl, rfl⟩ := Prod.mk.inj (Except.ok.inj h)
      exact hentry
    · split at h
      · cases h
      · obtain ⟨rfl, rfl⟩ := Prod.mk.inj (Except.ok.inj h)
        rw [hR, if_neg Bool.false_ne_true]
        simp [State.setRange]

/-- Entries that exist stay, and the maps of other blocks stay. A lookup makes an entry only where
there is none, and only in the map of the block in which it is made. -/
theorem getRange_frame (h : getRange L P callees taints B V s = .ok (R, s₁))
    (hkeep : B' ≠ B ∨ (s.funcVRMs B' V').isSome = true) :
    s₁.funcVRMs B' V' = s.funcVRMs B' V' := by
  unfold getRange at h
  split at h
  · obtain ⟨rfl, rfl⟩ := Prod.mk.inj (Except.ok.inj h)
    rfl
  · split at h
    · obtain ⟨rfl, rfl⟩ := Prod.mk.inj (Except.ok.inj h)
      rfl
    · rename_i hnone
      split at h
      · cases h
      · obtain ⟨rfl, rfl⟩ := Prod.mk.inj (Except.ok.inj h)
        split
        · rfl
        · by_cases hB : B' = B
          · subst hB
            have hV : V' ≠ V := by
              rintro rfl
              simp [hnone] at hkeep
            simp [State.setRange, hV]
          · simp [State.setRange, hB]

/-- The entry after an insertion is the one that existed, or the new one. -/
theorem insert_self (m : ValueRangeMap) (V : Value) (R : ConstantRange) :
    (m.insert V R) V = some ((m V).getD R) := by
  unfold ValueRangeMap.insert
  cases hV : m V with
  | some S => simp [hV]
  | none => simp

/-- The range that the merge records for a value, with the entries `be` and `pe` of the
block and its predecessor. -/
def recorded (K : Library) (be pe : Option ConstantRange) (LCR Region : ConstantRange) :
    ConstantRange :=
  (joined K be (pe.getD (K.ranges.intersectWith LCR Region))).2

/-- The constraint takes effect: nothing is joined to it, and the predecessor has no entry,
or one inside the region already. -/
def TakesEffect (be pe : Option ConstantRange) (LCR Region : ConstantRange) : Prop :=
  match be, pe with
  | some e, _ => Region = .full e.width
  | none, some R => R ≤ Region
  | none, none => (∃ T, ConstantRange.IsCommon LCR Region T) ∨ Region.size < LCR.size

/-- The entry of `BB` at the merge: the comparison may have put the range there. -/
def entryAtMerge (s : State) (BB B : BlockId) (LHS : Value) (LCR : ConstantRange) :
    Option ConstantRange :=
  if B = BB then some LCR else s.funcVRMs BB LHS

/-- The region of the edge to `BB`. -/
def edgeRegion (K : RangeOps) (pred : ICmpPredicate) (onTrue : Bool) (RCR : ConstantRange) :
    ConstantRange :=
  K.makeICmpRegion (if onTrue then pred else pred.inverse) RCR

/-- The range for the first operand is intersected with the region of the edge. -/
theorem edgeRanges_fst (K : RangeOps) (pred : ICmpPredicate) (onTrue : Bool)
    (LCR RCR : ConstantRange) :
    (edgeRanges K pred onTrue LCR RCR).1 =
      K.intersectWith LCR (edgeRegion K pred onTrue RCR) := by
  cases onTrue <;> rfl

theorem propagate_single {VRM : ValueRangeMap} (hback : isBackEdge backEdges (Pred, BB) = false)
    (h : visitTerminator L P callees taints (P.block Pred).term BB (s.funcVRMs Pred) s =
      .ok (VRM, s₂)) :
    propagate L P callees taints backEdges BB [Pred] s = .ok ((), s₂.merged L BB VRM) := by
  refine Query.bind_eq_ok.mpr ⟨(), s₂.merged L BB VRM, ?_, Query.pure_eq_ok.mpr ⟨rfl, rfl⟩⟩
  rw [propagateFrom, hback, if_neg Bool.false_ne_true, h]
  rfl

/-- An entry after a map was joined to that of a block. -/
theorem merged_entry {VRM : ValueRangeMap} (h : VRM V = some R) :
    (s.merged L BB VRM).funcVRMs BB V = some (joined L (s.funcVRMs BB V) R).2 := by
  simp [State.merged, mergeVRM, h]

/-- What the merge of a predecessor with a comparison records for the first operand. -/
theorem propagate_records (hback : isBackEdge backEdges (Pred, BB) = false)
    (hterm : (P.inst (P.block Pred).term).op = .condBr (.inst c) ifTrue ifFalse)
    (hop : (P.inst c).op = .icmp pred LHS RHS) (hLHS : (P.typeOf LHS).isIntegerTy = true)
    (hRHS : (P.typeOf RHS).isIntegerTy = true) (hconst : ∀ k, LHS ≠ .constInt k)
    (hl : getRange L P callees taints (P.inst c).parent LHS s = .ok (LCR, s₁))
    (hr : getRange L P callees taints (P.inst c).parent RHS s₁ = .ok (RCR, s₂))
    (hempty : LCR.isEmptySet = false) :
    ∃ s', propagate L P callees taints backEdges BB [Pred] s = .ok ((), s') ∧
      s'.funcVRMs BB LHS =
        some (recorded L (entryAtMerge s BB (P.inst c).parent LHS LCR) (s.funcVRMs Pred LHS) LCR
          (edgeRegion L.ranges pred (ifTrue = BB) (L.ranges.convert RCR LCR))) := by
  have hvisit := visitBranchInst_eq hop hLHS hRHS hl hr ifTrue BB (s.funcVRMs Pred)
  have hentry : s₂.funcVRMs BB LHS = entryAtMerge s BB (P.inst c).parent LHS LCR := by
    have hl₁ := getRange_entry hl hconst hempty
    unfold entryAtMerge
    by_cases hB : (P.inst c).parent = BB
    · rw [if_pos hB, ← hB, getRange_frame hr (.inr (by rw [hl₁]; rfl)), hl₁]
    · rw [if_neg hB, getRange_frame hr (.inl (Ne.symm hB)), getRange_frame hl (.inl (Ne.symm hB))]
  have hterminator : visitTerminator L P callees taints (P.block Pred).term BB (s.funcVRMs Pred) s =
      visitBranchInst L P callees taints (.inst c) ifTrue BB (s.funcVRMs Pred) s := by
    rw [visitTerminator, hterm]
  refine ⟨_, propagate_single hback (hterminator.trans hvisit), ?_⟩
  · rw [merged_entry (insert_of_some (insert_self _ _ _)), hentry, edgeRanges_fst]
    rfl

/-- A library with given intersections whose unions are the full set. -/
def intersectLibrary (I : ConstantRange → ConstantRange → ConstantRange) : Library :=
  { Library.reference with
    ranges := { RangeOps.reference with
      unionWith := fun R _ => .full R.width
      intersectWith := I } }

/-- A library with given intersections has the laws. -/
theorem intersectLibrary_laws (I : ConstantRange → ConstantRange → ConstantRange) :
    (intersectLibrary I).ranges.UnionLaws where
  width_zextOrTrunc := RangeOps.width_resizeRange
  left_le_unionWith _ := ConstantRange.le_full _
  right_le_unionWith := by
    intro R S hw
    show S ≤ .full R.width
    rw [hw]
    exact ConstantRange.le_full S

/-- Whatever library is used, the recorded range is inside the region exactly if the
constraint takes effect. -/
theorem forall_recorded_le_iff (hw : LCR.width = Region.width) :
    (∀ K : Library, K.ranges.UnionLaws → K.ranges.IntersectLaws →
        recorded K be pe LCR Region ≤ Region) ↔ TakesEffect be pe LCR Region := by
  classical
  -- any smallest range may be what a library answers with
  have hlibrary : ∀ {T}, ConstantRange.IsIntersection LCR Region T → ∃ I,
      (intersectLibrary I).ranges.IntersectLaws ∧ I LCR Region = T := by
    intro T hT
    choose J hJ using ConstantRange.exists_isIntersection
    refine ⟨fun R S => if R = LCR ∧ S = Region then T else J R S, fun {R S} _ => ?_,
      if_pos ⟨rfl, rfl⟩⟩
    show ConstantRange.IsIntersection R S (if R = LCR ∧ S = Region then T else J R S)
    by_cases hc : R = LCR ∧ S = Region
    · rw [if_pos hc, hc.1, hc.2]
      exact hT
    · rw [if_neg hc]
      exact hJ R S
  obtain ⟨T₀, hT₀⟩ := ConstantRange.exists_isIntersection LCR Region
  obtain ⟨I₀, hI₀, -⟩ := hlibrary hT₀
  cases be with
  | some e =>
    show _ ↔ Region = .full e.width
    constructor
    · intro h
      exact ConstantRange.eq_full_of_le (h _ (intersectLibrary_laws I₀) hI₀)
    · intro hRegion K hK _
      refine (ConstantRange.le_full _).trans_eq ?_
      rw [hRegion]
      exact congrArg ConstantRange.full (ConstantRange.le_width (hK.le_safeUnion e _)).symm
  | none =>
    cases pe with
    | some R =>
      show _ ↔ R ≤ Region
      exact ⟨fun h => h _ (intersectLibrary_laws I₀) hI₀, fun h _ _ _ => h⟩
    | none =>
      show _ ↔ (∃ T, ConstantRange.IsCommon LCR Region T) ∨ Region.size < LCR.size
      rw [← ConstantRange.forall_isIntersection_le_iff hw]
      constructor
      · intro h T hT
        obtain ⟨I, hI, heq⟩ := hlibrary hT
        rw [← heq]
        exact h _ (intersectLibrary_laws I) hI
      · exact fun h K _ hK => h _ (hK hw)

/-- After the merge of its only predecessor, which ends in a branch on a comparison, the
range that a block records for the first operand is inside the region of the edge, whatever
library is used, exactly if the constraint takes effect. -/
theorem propagate_constrains_iff (hL : L.ranges.UnionLaws) (hW : L.ranges.WidthLaws)
    (hpreds : (P.block BB).preds = [Pred]) (hback : isBackEdge backEdges (Pred, BB) = false)
    (hterm : (P.inst (P.block Pred).term).op = .condBr (.inst c) ifTrue ifFalse)
    (hop : (P.inst c).op = .icmp pred LHS RHS) (hLHS : (P.typeOf LHS).isIntegerTy = true)
    (hRHS : (P.typeOf RHS).isIntegerTy = true) (hconst : ∀ k, LHS ≠ .constInt k)
    (hl : getRange L P callees taints (P.inst c).parent LHS s = .ok (LCR, s₁))
    (hr : getRange L P callees taints (P.inst c).parent RHS s₁ = .ok (RCR, s₂))
    (hempty : LCR.isEmptySet = false) (hRegion :
      Region = edgeRegion L.ranges pred (ifTrue = BB) (L.ranges.convert RCR LCR)) :
    (∃ s', propagate L P callees taints backEdges BB (P.block BB).preds s = .ok ((), s') ∧
      s'.funcVRMs BB LHS = some (recorded L (entryAtMerge s BB (P.inst c).parent LHS LCR)
        (s.funcVRMs Pred LHS) LCR Region)) ∧
    ((∀ K : Library, K.ranges.UnionLaws → K.ranges.IntersectLaws →
        recorded K (entryAtMerge s BB (P.inst c).parent LHS LCR) (s.funcVRMs Pred LHS) LCR
          Region ≤ Region) ↔
      TakesEffect (entryAtMerge s BB (P.inst c).parent LHS LCR) (s.funcVRMs Pred LHS) LCR
        Region) := by
  have hw : LCR.width = Region.width := by
    rw [hRegion, edgeRegion, hW.width_makeICmpRegion, hL.width_convert]
  refine ⟨?_, forall_recorded_le_iff hw⟩
  rw [hpreds, hRegion]
  exact propagate_records hback hterm hop hLHS hRHS hconst hl hr hempty

end Merge

end Edges

/-! ## A comparison of two bytes and a switch on one -/

/-- A function that loads two bytes, compares them, and switches on the first one. -/
def lessProgram : Program where
  insts := [
    ⟨0, .int 8, .load (.global 0) false, some "var.a", none⟩,
    ⟨0, .int 8, .load (.global 1) false, some "var.b", none⟩,
    ⟨0, .int 1, .icmp .ult (.inst 0) (.inst 1), none, none⟩,
    ⟨0, .other, .condBr (.inst 2) 1 2, none, none⟩,
    ⟨1, .other, .ret none, none, none⟩,
    ⟨2, .other, .switch (.inst 0) 3 [(.ofNat 8 1, 4), (.ofNat 8 5, 4)], none, none⟩,
    ⟨3, .other, .ret none, none, none⟩,
    ⟨4, .other, .ret none, none, none⟩]
  blocks := [⟨0, [0, 1, 2], 3, []⟩, ⟨0, [], 4, [0]⟩, ⟨0, [], 5, [0]⟩, ⟨0, [], 6, [2]⟩,
    ⟨0, [], 7, [2]⟩]
  funcs := [⟨⟨"less", .external, "a.c"⟩, false, [], .other, [0, 1, 2, 3, 4]⟩]
  globals := [⟨⟨"a", .external, "a.c"⟩, .int 8, none⟩, ⟨⟨"b", .external, "a.c"⟩, .int 8, none⟩]
  structs := []
  consts := []

/-- The state with given ranges for the two variables. -/
def loading (A B : ConstantRange) : State :=
  { State.init with
    intRanges := fun sID =>
      if sID = "var.a" then some A else if sID = "var.b" then some B else none }

/-- The bytes below 100. -/
def hundred : ConstantRange := .ofBounds 8 0 100

/-- `5 < 200` leads to block 1, and the range that is inserted for the second operand
there does not contain 200. -/
theorem second_operand_lost : ∃ LCR s₁ RCR s₂ VRM s₃ R,
    getRange .reference lessProgram (fun _ => none) .init 0 (.inst 0)
      (loading hundred (.ofAPInt (.ofNat 8 200))) = .ok (LCR, s₁) ∧
    getRange .reference lessProgram (fun _ => none) .init 0 (.inst 1) s₁ = .ok (RCR, s₂) ∧
    LCR.Contains (.ofNat 8 5) ∧ RCR.Contains (.ofNat 8 200) ∧
    icmpValue .ult (.ofNat 8 5) (.ofNat 8 200) = some (.ofBool true) ∧
    (Opcode.condBr (.inst 2) 1 2).destination (.ofBool true) = some 1 ∧
    visitBranchInst .reference lessProgram (fun _ => none) .init (.inst 2) 1 1 (fun _ => none)
      (loading hundred (.ofAPInt (.ofNat 8 200))) = .ok (VRM, s₃) ∧
    VRM (.inst 1) = some R ∧ ¬ R.Contains (.ofNat 8 200) :=
  ⟨_, _, _, _, _, _, _, rfl, rfl, by decide, by decide, by decide, rfl, rfl, rfl, by decide⟩

theorem branch_keeps_fifty : ∃ s₂,
    (∀ VRM, visitBranchInst .reference lessProgram (fun _ => none) .init (.inst 2) 1 1 VRM
        (loading hundred (.ofAPInt (.ofNat 8 50))) =
      .ok ((VRM.insert (.inst 0) (edgeRanges .reference .ult true hundred
          (.ofAPInt (.ofNat 8 50))).1).insert (.inst 1)
        (edgeRanges .reference .ult true hundred (.ofAPInt (.ofNat 8 50))).2, s₂)) ∧
    ∀ K : RangeOps, K.RegionLaws →
      (edgeRanges K .ult true hundred (.ofAPInt (.ofNat 8 50))).1.Contains (.ofNat 8 5) ∧
        (edgeRanges K .ult true hundred (.ofAPInt (.ofNat 8 50))).2.Contains (.ofNat 8 50) := by
  have hl : getRange .reference lessProgram (fun _ => none) .init 0 (.inst 0)
      (loading hundred (.ofAPInt (.ofNat 8 50))) = .ok (hundred, _) := rfl
  have hr : getRange .reference lessProgram (fun _ => none) .init 0 (.inst 1)
      ((loading hundred (.ofAPInt (.ofNat 8 50))).setRange 0 (.inst 0) hundred) =
        .ok (.ofAPInt (.ofNat 8 50), _) := rfl
  have hdest : (Opcode.condBr (.inst 2) 1 2).destination (.ofBool true) = some 1 := rfl
  obtain ⟨hinsert, hiff⟩ := visitBranchInst_contains_iff (c := 2) (a := .ofNat 8 5)
    (b := .ofNat 8 50) rfl rfl rfl hl hr (by decide) (by decide) (by decide) hdest
  refine ⟨_, hinsert, hiff.mpr ⟨by decide, ?_⟩⟩
  exact ⟨⟨.ofNat 8 50, by decide, by decide⟩, .ofNat 8 5, by decide, by decide⟩

/-- At 3 the switch goes to the default block, and the range that is inserted for it there
leaves out all values from 1 to 5. -/
theorem default_edge_lost : ∃ VCR s₁ VRM s₂ R,
    getRange .reference lessProgram (fun _ => none) .init 2 (.inst 0)
      (loading (.full 8) (.full 8)) = .ok (VCR, s₁) ∧
    VCR.Contains (.ofNat 8 3) ∧
    (lessProgram.inst 5).op = .switch (.inst 0) 3 [(.ofNat 8 1, 4), (.ofNat 8 5, 4)] ∧
    (lessProgram.inst 5).op.destination (.ofNat 8 3) = some 3 ∧
    visitSwitchInst .reference lessProgram (fun _ => none) .init 5 (.inst 0) 3
      [(.ofNat 8 1, 4), (.ofNat 8 5, 4)] 3 (fun _ => none) (loading (.full 8) (.full 8)) =
        .ok (VRM, s₂) ∧
    VRM (.inst 0) = some R ∧ ¬ R.Contains (.ofNat 8 3) :=
  ⟨_, _, _, _, _, rfl, by decide, rfl, rfl, rfl, rfl, by decide⟩

/-- The edge of the cases one and five keeps both. -/
theorem case_edge_keeps : ∃ s₁,
    (∀ VRM, visitSwitchInst .reference lessProgram (fun _ => none) .init 5 (.inst 0) 3
        [(.ofNat 8 1, 4), (.ofNat 8 5, 4)] 4 VRM (loading (.full 8) (.full 8)) =
      .ok (VRM.insert (.inst 0) (RangeOps.reference.intersectWith (.full 8)
        (switchRange .reference 8 [(.ofNat 8 1, 4), (.ofNat 8 5, 4)] 3 4)), s₁)) ∧
    ∀ K : Library, SwitchLaws K.ranges → (K.ranges.intersectWith (.full 8)
      (switchRange K 8 [(.ofNat 8 1, 4), (.ofNat 8 5, 4)] 3 4)).Contains (.ofNat 8 5) := by
  have hv : getRange .reference lessProgram (fun _ => none) .init (lessProgram.inst 5).parent
      (.inst 0) (loading (.full 8) (.full 8)) = .ok (.full 8, _) := rfl
  have hdest : (Opcode.switch (.inst 0) 3 [(.ofNat 8 1, 4), (.ofNat 8 5, 4)]).destination
      (.ofNat 8 5) = some 4 := rfl
  obtain ⟨hinsert, hiff, -⟩ := visitSwitchInst_contains_iff rfl (by decide) hv (by decide) rfl hdest
  exact ⟨_, hinsert, hiff.mpr (.inl (by decide))⟩

/-- After `less` was visited, the map of block 1, where the first byte is below 10, records
that it is below 100. -/
theorem constraint_lost : ∃ r s' R,
    updateRangeForBlock .reference lessProgram (fun _ => none) .init [] 0 0
      (loading hundred (.ofAPInt (.ofNat 8 10))) = .ok r ∧
    propagate .reference lessProgram (fun _ => none) .init [] 1 (lessProgram.block 1).preds
      r.state = .ok ((), s') ∧
    s'.funcVRMs 1 (.inst 0) = some R ∧ R.Contains (.ofNat 8 50) ∧
    ¬ (edgeRegion .reference .ult true (.ofAPInt (.ofNat 8 10))).Contains (.ofNat 8 50) :=
  ⟨_, _, _, rfl, rfl, rfl, by decide, by decide⟩

/-- Where the map of the predecessor has no entry, the constraint is recorded. -/
theorem constraint_recorded : ∃ s',
    propagate .reference lessProgram (fun _ => none) .init [] 1 (lessProgram.block 1).preds
      (loading hundred (.ofAPInt (.ofNat 8 10))) = .ok ((), s') ∧
    s'.funcVRMs 1 (.inst 0) = some (recorded .reference none none hundred (.ofBounds 8 0 10)) ∧
    ∀ K : Library, K.ranges.UnionLaws → K.ranges.IntersectLaws →
      recorded K none none hundred (.ofBounds 8 0 10) ≤ .ofBounds 8 0 10 := by
  have hl : getRange .reference lessProgram (fun _ => none) .init 0 (.inst 0)
      (loading hundred (.ofAPInt (.ofNat 8 10))) = .ok (hundred, _) := rfl
  have hr : getRange .reference lessProgram (fun _ => none) .init 0 (.inst 1)
      ((loading hundred (.ofAPInt (.ofNat 8 10))).setRange 0 (.inst 0) hundred) =
        .ok (.ofAPInt (.ofNat 8 10), _) := rfl
  have hRegion : ConstantRange.ofBounds 8 0 10 =
      edgeRegion .reference .ult (1 = 1)
        (RangeOps.reference.convert (.ofAPInt (.ofNat 8 10)) hundred) :=
    rfl
  have hle : ConstantRange.ofBounds 8 0 10 ≤ hundred := by
    refine ConstantRange.le_of_has rfl fun n _ hn => ?_
    have h10 : 0 ≤ n ∧ n < 10 := hn
    exact (⟨Nat.zero_le n, by omega⟩ : 0 ≤ n ∧ n < 100)
  have hback : isBackEdge [] (0, 1) = false := rfl
  obtain ⟨⟨s', hs', hentry⟩, hiff⟩ := propagate_constrains_iff (c := 2)
    RangeOps.reference_unionLaws RangeOps.reference_widthLaws
    (rfl : (lessProgram.block 1).preds = [0]) hback rfl rfl rfl rfl (fun k hk => by cases hk) hl hr
    rfl hRegion
  refine ⟨s', hs', hentry, hiff.mpr (.inl ⟨_, (ConstantRange.isCommon_of_le hle).symm rfl⟩)⟩

end Kint.Range
