import Kint.Range.Writeback

/-!
# Widths

Within a function every range has the width of the value it belongs to (`Typed`): `getRange` and
`safeUnion` convert what they look up.  The range of an identifier, however, keeps the width of
the first range that is joined to it, and `doFinalization` writes its bounds as they are.  So
the metadata of an instruction is well typed exactly if what is first written under its
identifier has its type.

## Within a function

`TypedMap` and `Typed` say that entries have the width of their values.  `Yields` is about
queries: they keep typed maps, and return ranges of a certain width.  The lemmas with `_typed`
go through the visitors; they use the typing rules of instructions (`InstTyped`) and the laws
about widths of the interval library.

## Identifiers

`Joins` and `AlwaysJoins` collect the widths of the ranges that are joined to identifiers, and
`run_joins` says for a whole run that these are widths of values that the program writes under
the identifier (`Written`).  In `Kint.Range.Soundness` this is used for identifiers all of whose
writes have one width.

## Main results

* `rangesAfter_first`: the first join fixes the width of a range.
* `metadata_width_iff`: the widths of the bounds in metadata, for every run.
* `redeclared_run`: a variable that is defined with 8 bits and declared with 32 elsewhere.
-/

namespace Kint.Range

open Iteration

/-! ## Metadata -/

section Metadata

variable {L : Library} {P : Program} {callees : CalleeMap} {taints : TaintMap}
  {r : Report State Event} {m : RangeMap} {sID : String} {i : InstId} {lo hi : APInt}

/-- The bounds have the width of the range. -/
theorem intrange_width (h : intrange L P m i = some (lo, hi)) :
    ∃ R, m (getValueId L P (.inst i)) = some R ∧ lo.width = R.width ∧ hi.width = R.width := by
  simp only [intrange] at h
  split at h
  · cases h
  · split at h
    · cases h
    · rename_i R hR
      split at h
      · cases h
      · obtain ⟨rfl, rfl⟩ := Prod.mk.inj (Option.some.inj h)
        exact ⟨R, hR, rfl, rfl⟩

/-- What is joined first to an identifier without a range fixes the width. Later unions keep the
width of the range that they are joined to. -/
theorem rangesAfter_first (hL : L.ranges.UnionLaws) {t : List Event} {S : ConstantRange}
    (hS : rangesAfter L (fun _ => none) t sID = some S) :
    ∃ R, (writes sID t).head? = some R ∧ S.width = R.width := by
  cases hwrites : writes sID t with
  | nil =>
    have hno : ∀ R, .union sID R ∉ t := fun R hR =>
      List.not_mem_nil (hwrites ▸ mem_writes.mpr hR)
    cases (rangesAfter_unwritten hno rfl).symm.trans hS
  | cons R rest =>
    refine ⟨R, rfl, ?_⟩
    obtain ⟨t₁, e, t₂, rfl, hbefore, he, -⟩ := List.filterMap_eq_cons_iff.mp hwrites
    obtain rfl : e = .union sID R := by
      cases e with
      | union sID' R' =>
        obtain ⟨rfl, hR⟩ := Option.ite_none_right_eq_some.mp he
        rw [Option.some.inj hR]
      | _ => cases he
    have hno : ∀ R, .union sID R ∉ t₁ := fun R hR => by simpa using hbefore _ hR
    have hnone : rangesAfter L (fun _ => none) t₁ sID = none := rangesAfter_unwritten hno rfl
    have hfirst : afterEvent L (rangesAfter L (fun _ => none) t₁) (.union sID R) sID = some R := by
      rw [afterEvent, Function.update_self, hnone]
      rfl
    rw [rangesAfter_append] at hS
    obtain ⟨S', hS', hle⟩ := rangesAfter_grown hL _ t₂ sID R hfirst
    obtain rfl := Option.some.inj (hS'.symm.trans hS)
    exact (ConstantRange.le_width hle).symm

/-- For every run and every integer load or call that it annotates: both bounds
have the width of the instruction exactly if the first range that the run joined
under its identifier has. -/
theorem metadata_width_iff (hL : L.ranges.UnionLaws) {fuel : ℕ} {modules : List Module}
    (h : (rangePass L P callees taints).run fuel modules .init = .ok r)
    (hmd : (i, some (lo, hi)) ∈ annotations r.trace) :
    ∀ N, (P.inst i).ty = .int N → (lo.width = N ∧ hi.width = N ↔
      ∃ R, (writes (getValueId L P (.inst i)) r.trace).head? = some R ∧ R.width = N) := by
  intro N _
  obtain ⟨S, hS, hlo, hhi⟩ :=
    intrange_width (run_metadata h (mem_annotations.mp hmd)).symm
  have htraced : r.state.intRanges = rangesAfter L (fun _ => none) r.trace := run_traced h
  rw [htraced] at hS
  obtain ⟨R, hR, hwidth⟩ := rangesAfter_first hL hS
  rw [hlo, hhi, and_self, hwidth]
  constructor
  · exact fun hN => ⟨R, hR, hN⟩
  · rintro ⟨R', hR', hN⟩
    rwa [Option.some.inj (hR.symm.trans hR')]

end Metadata

/-! ## Ranges within a function -/

section Typed

variable (P : Program)

/-- What the verifier of the compiler ensures about the types of operands, for
the instructions that the pass reads. -/
def InstTyped (i : InstId) : Prop :=
  match (P.inst i).op with
  | .binary _ lhs rhs => P.typeOf lhs = (P.inst i).ty ∧ P.typeOf rhs = (P.inst i).ty
  | .cast .bitcast V =>
    ∀ w w', (P.inst i).ty = .int w → integerWidth (P.typeOf V) = some w' → w' = w
  | .select _ ifTrue ifFalse =>
    P.typeOf ifTrue = (P.inst i).ty ∧ P.typeOf ifFalse = (P.inst i).ty
  | .phi incoming => ∀ e ∈ incoming, P.typeOf e.1 = (P.inst i).ty
  | .icmp _ lhs rhs => P.typeOf lhs = P.typeOf rhs
  | .store value pointer => P.typeOf pointer = .ptr (P.typeOf value)
  | _ => True

/-- All instructions are well typed. -/
def WellTyped : Prop := ∀ i, InstTyped P i

/-- Every range in the map of a block has the width of its value. -/
def TypedMap (m : ValueRangeMap) : Prop :=
  ∀ V R, m V = some R → integerWidth (P.typeOf V) = some R.width

/-- The maps of all blocks are typed. -/
def Typed (s : State) : Prop := ∀ BB, TypedMap P (s.funcVRMs BB)

end Typed

section Pass

variable {L : Library} {P : Program} {callees : CalleeMap} {taints : TaintMap}
  {s : State} {m : ValueRangeMap} {V : Value} {R : ConstantRange} {BB : BlockId}

theorem TypedMap.update (hm : TypedMap P m) (hR : integerWidth (P.typeOf V) = some R.width) :
    TypedMap P (Function.update m V (some R)) := by
  intro V' R' h
  by_cases heq : V' = V
  · subst heq
    rw [Function.update_self] at h
    rwa [← Option.some.inj h]
  · rw [Function.update_of_ne heq] at h
    exact hm V' R' h

theorem TypedMap.insert (hm : TypedMap P m) (hR : integerWidth (P.typeOf V) = some R.width) :
    TypedMap P (m.insert V R) := by
  unfold ValueRangeMap.insert
  split
  · exact hm
  · exact hm.update hR

theorem Typed.setMap (hs : Typed P s) (hm : TypedMap P m) :
    Typed P { s with funcVRMs := Function.update s.funcVRMs BB m } := by
  intro BB'
  show TypedMap P (Function.update s.funcVRMs BB m BB')
  by_cases heq : BB' = BB
  · subst heq
    rwa [Function.update_self]
  · rw [Function.update_of_ne heq]
    exact hs BB'

theorem width_joined (hL : L.ranges.UnionLaws) {entry : Option ConstantRange} {w : ℕ}
    (hentry : ∀ S, entry = some S → S.width = w) (hR : R.width = w) :
    (joined L entry R).2.width = w := by
  cases entry with
  | none => exact hR
  | some S => exact (ConstantRange.le_width (le_joined hL)).symm.trans (hentry S rfl)

/-- A safe union has the width of its first argument. -/
theorem width_safeUnion (hL : L.ranges.UnionLaws) (R S : ConstantRange) :
    (L.ranges.safeUnion R S).2.width = R.width :=
  (ConstantRange.le_width (hL.le_safeUnion R S)).symm

theorem Typed.unionBlockRange (hL : L.ranges.UnionLaws) (hs : Typed P s)
    (hR : integerWidth (P.typeOf V) = some R.width) : Typed P (unionBlockRange L BB V R s) := by
  unfold Range.unionBlockRange
  split
  · exact hs
  · refine hs.setMap ((hs BB).update ?_)
    rw [hR, width_joined hL (fun S hS => ?_) rfl]
    exact Option.some.inj ((hs BB V S hS).symm.trans hR)

variable (P) in
/-- A query keeps typed maps, and what it returns from them satisfies `post`. -/
def Yields {α : Type} (post : α → Prop) (q : Query α) : Prop :=
  ∀ s a s', Typed P s → q s = .ok (a, s') → Typed P s' ∧ post a

theorem yields_pure {α : Type} {post : α → Prop} {a : α} (ha : post a) :
    Yields P post (pure a) := by
  intro s a' s' hs h
  obtain ⟨rfl, rfl⟩ := Query.pure_eq_ok.mp h
  exact ⟨hs, ha⟩

theorem Yields.bind {α β : Type} {post : α → Prop} {post' : β → Prop} {q : Query α}
    {k : α → Query β} (hq : Yields P post q) (hk : ∀ a, post a → Yields P post' (k a)) :
    Yields P post' (q >>= k) := by
  intro s b s' hs h
  obtain ⟨a, t, h₁, h⟩ := Query.bind_eq_ok.mp h
  obtain ⟨ht, ha⟩ := hq s a t hs h₁
  exact hk a ha t b s' ht h

theorem width_unionOfReturns (hL : L.ranges.UnionLaws) {w : ℕ} {m : RangeMap}
    {fs : List FuncId} : ∀ {CR : ConstantRange}, CR.width = w →
      (unionOfReturns L P taints w m fs CR).width = w := by
  induction fs with
  | nil => exact fun h => h
  | cons f fs ih =>
    intro CR hCR
    unfold unionOfReturns
    split
    · rfl
    · split
      · exact ih ((width_safeUnion hL _ _).trans hCR)
      · exact ih hCR

/-- What is looked up has the width that is asked for. -/
theorem width_lookupRange (hL : L.ranges.UnionLaws) {w : ℕ} {m : RangeMap} :
    (lookupRange L P callees taints w m V).width = w := by
  unfold lookupRange
  split
  · split
    · rfl
    · split
      · exact width_unionOfReturns hL rfl
      · rfl
  · exact hL.width_zextOrTrunc _ _

/-- `getRange` returns a range of the width of the value. -/
theorem getRange_typed (hL : L.ranges.UnionLaws) {w : ℕ}
    (hV : ∀ w', integerWidth (P.typeOf V) = some w' → w' = w) :
    Yields P (·.width = w) (getRange L P callees taints BB V) := by
  intro s R s' hs h
  unfold getRange at h
  split at h
  · obtain ⟨rfl, rfl⟩ := Prod.mk.inj (Except.ok.inj h)
    exact ⟨hs, (ConstantRange.width_ofAPInt _).trans (hV _ rfl)⟩
  · split at h
    · rename_i R' hR'
      obtain ⟨rfl, rfl⟩ := Prod.mk.inj (Except.ok.inj h)
      exact ⟨hs, hV _ (hs BB _ _ hR')⟩
    · split at h
      · cases h
      · rename_i w' hw'
        obtain rfl := hV w' hw'
        obtain ⟨rfl, rfl⟩ := Prod.mk.inj (Except.ok.inj h)
        refine ⟨?_, width_lookupRange hL⟩
        split
        · exact hs
        · exact hs.setMap ((hs BB).update (by rw [hw', width_lookupRange hL]))

/-- `getRange` of an integer value. -/
theorem getRange_int (hL : L.ranges.UnionLaws) {w : ℕ} (hV : P.typeOf V = .int w) :
    Yields P (·.width = w) (getRange L P callees taints BB V) :=
  getRange_typed hL fun w' h => by rw [hV] at h; exact (Option.some.inj h).symm

/-- `getRange` of any value. -/
theorem getRange_any (hL : L.ranges.UnionLaws) :
    Yields P (·.width = (integerWidth (P.typeOf V)).getD 0) (getRange L P callees taints BB V) :=
  getRange_typed hL fun w' h => by rw [h]; rfl

theorem visitBinaryOp_typed (hL : L.ranges.UnionLaws) (hW : L.ranges.WidthLaws) {w : ℕ}
    {op : BinaryOp} {lhs rhs : Value} (hl : P.typeOf lhs = .int w) (hr : P.typeOf rhs = .int w) :
    Yields P (·.width = w) (visitBinaryOp L P callees taints BB op lhs rhs) := by
  refine (getRange_int hL hl).bind fun LR hLR => (getRange_int hL hr).bind fun RR _ => ?_
  have hRR : LR.width = (L.ranges.convert RR LR).width := (hL.width_convert RR LR).symm
  apply yields_pure
  rw [← hLR]
  cases op with
  | add => exact hW.width_add hRR
  | sub => exact hW.width_sub hRR
  | mul => exact hW.width_multiply hRR
  | udiv => exact hW.width_udiv hRR
  | sdiv => exact RangeOps.width_sdiv _ _
  | urem => exact hRR.symm
  | srem => exact hRR.symm
  | shl => exact hW.width_shl hRR
  | lshr => exact hW.width_lshr hRR
  | ashr => rfl
  | and => exact hW.width_binaryAnd hRR
  | or => exact hW.width_binaryOr hRR
  | xor => rfl

theorem visitPHINode_typed (hL : L.ranges.UnionLaws) {backEdges : List (BlockId × BlockId)}
    {w : ℕ} {incoming : List (Value × BlockId)}
    (hin : ∀ e ∈ incoming, P.typeOf e.1 = .int w) :
    ∀ {CR : ConstantRange}, CR.width = w →
      Yields P (·.width = w) (visitPHINode L P callees taints backEdges BB incoming CR) := by
  induction incoming with
  | nil => exact fun hCR => yields_pure hCR
  | cons e incoming ih =>
    intro CR hCR
    have htail : ∀ e ∈ incoming, P.typeOf e.1 = .int w :=
      fun e he => hin e (List.mem_cons_of_mem _ he)
    unfold visitPHINode
    split
    · exact ih htail hCR
    · refine (getRange_int hL (hin e List.mem_cons_self)).bind fun R _ => ih htail ?_
      exact (width_safeUnion hL _ _).trans hCR

/-- The range of the result of an instruction has its width. There is one case for each kind of
instruction; the other cases return the full range of the type. -/
theorem instRange_typed (hL : L.ranges.UnionLaws) (hW : L.ranges.WidthLaws)
    {backEdges : List (BlockId × BlockId)} {i : InstId} {w : ℕ} (hi : InstTyped P i)
    (hty : (P.inst i).ty = .int w) :
    Yields P (·.width = w) (instRange L P callees taints backEdges i w) := by
  have hself : P.typeOf (.inst i) = .int w := hty
  unfold InstTyped at hi
  unfold instRange
  cases hop : (P.inst i).op with
  | binary op lhs rhs =>
    simp only [hop, hty] at hi
    exact visitBinaryOp_typed hL hW hi.1 hi.2
  | cast op V =>
    cases op with
    | trunc => exact (getRange_any hL).bind fun R _ => yields_pure (hL.width_zextOrTrunc R w)
    | zext => exact (getRange_any hL).bind fun R _ => yields_pure (hL.width_zextOrTrunc R w)
    | sext => exact (getRange_any hL).bind fun R _ => yields_pure (hW.width_signExtend R w)
    | bitcast =>
      simp only [hop] at hi
      exact getRange_typed hL fun w' hw' => hi w w' hty hw'
    | ptrtoint => exact yields_pure rfl
    | inttoptr => exact yields_pure rfl
    | floating => exact yields_pure rfl
  | select cond ifTrue ifFalse =>
    simp only [hop, hty] at hi
    refine (getRange_int hL hi.1).bind fun T hT => (getRange_int hL hi.2).bind fun F _ => ?_
    exact yields_pure ((width_safeUnion hL T F).trans hT)
  | phi incoming =>
    simp only [hop, hty] at hi
    exact visitPHINode_typed hL hi rfl
  | load pointer isVolatile => exact getRange_int hL hself
  | call callee args => exact getRange_int hL hself
  | _ => exact yields_pure rfl

/-! ## Ranges between blocks -/

theorem width_of_int {w : ℕ} (hV : P.typeOf V = .int w) (hR : R.width = w) :
    integerWidth (P.typeOf V) = some R.width := by
  rw [hV, hR]
  rfl

theorem visitBranchInst_typed (hL : L.ranges.UnionLaws) (hW : L.ranges.WidthLaws)
    (hP : WellTyped P) {cond : Value} {ifTrue : BlockId} (hm : TypedMap P m) :
    Yields P (TypedMap P) (visitBranchInst L P callees taints cond ifTrue BB m) := by
  unfold visitBranchInst
  split
  · rename_i c
    split
    · rename_i pred LHS RHS hop
      split
      · rename_i hint
        have hc := hP c
        simp only [InstTyped, hop] at hc
        obtain ⟨w, hw⟩ := exists_of_isIntegerTy (Bool.and_eq_true_iff.mp hint).1
        refine (getRange_int hL hw).bind fun LCR hLCR =>
          (getRange_int hL (hc ▸ hw)).bind fun RCR _ => yields_pure ?_
        have hRCR := hL.width_convert RCR LCR
        -- both regions are of the width of the operands
        refine (hm.insert (width_of_int hw ?_)).insert (width_of_int (hc ▸ hw) ?_)
        · rw [hW.width_intersectWith, hLCR]
          split <;> rw [hW.width_makeICmpRegion, hRCR]
        · rw [hW.width_intersectWith, hLCR]
          split <;> rw [hW.width_makeICmpRegion]
          exact hRCR.symm
      · exact yields_pure hm
    · exact yields_pure hm
  · exact yields_pure hm

/-- The union of cases has the width of the condition. -/
theorem width_unionOfCases (hL : L.ranges.UnionLaws) {w : ℕ} (cases : List (APInt × BlockId)) :
    (unionOfCases L w cases).width = w := by
  unfold unionOfCases
  have hfold : ∀ CR : ConstantRange, CR.width = w →
      (cases.foldl (fun CR c => (L.ranges.safeUnion CR (.ofAPInt c.1)).2) CR).width = w := by
    induction cases with
    | nil => exact fun _ h => h
    | cons c cases ih => exact fun CR hCR => ih _ ((width_safeUnion hL _ _).trans hCR)
  exact hfold _ rfl

theorem visitSwitchInst_typed (hL : L.ranges.UnionLaws) (hW : L.ranges.WidthLaws)
    {i : InstId} {cond : Value} {defaultDest : BlockId} {cases : List (APInt × BlockId)}
    (hm : TypedMap P m) :
    Yields P (TypedMap P) (visitSwitchInst L P callees taints i cond defaultDest cases BB m) := by
  unfold visitSwitchInst
  split
  · rename_i w hw
    refine (getRange_int hL hw).bind fun VCR hVCR => yields_pure (hm.insert (width_of_int hw ?_))
    rw [hW.width_intersectWith, hVCR]
    split
    · rw [hVCR, width_unionOfCases hL]
    · rw [hVCR, hW.width_inverse, width_unionOfCases hL]
  · exact yields_pure hm

theorem visitTerminator_typed (hL : L.ranges.UnionLaws) (hW : L.ranges.WidthLaws)
    (hP : WellTyped P) {i : InstId} (hm : TypedMap P m) :
    Yields P (TypedMap P) (visitTerminator L P callees taints i BB m) := by
  unfold visitTerminator
  split
  · exact visitBranchInst_typed hL hW hP hm
  · exact visitSwitchInst_typed hL hW hm
  · exact yields_pure hm

theorem mergeVRM_typed (hL : L.ranges.UnionLaws) {into VRM : ValueRangeMap}
    (hinto : TypedMap P into) (hVRM : TypedMap P VRM) : TypedMap P (mergeVRM L into VRM) := by
  intro V R h
  unfold mergeVRM at h
  cases hV : VRM V with
  | none =>
    rw [hV] at h
    exact hinto V R h
  | some S =>
    rw [hV] at h
    obtain rfl := Option.some.inj h
    rw [hVRM V S hV, width_joined hL (fun S' hS' => ?_) rfl]
    exact Option.some.inj ((hinto V S' hS').symm.trans (hVRM V S hV))

/-- What comes from one predecessor keeps typed maps. -/
theorem propagateFrom_typed (hL : L.ranges.UnionLaws) (hW : L.ranges.WidthLaws)
    (hP : WellTyped P) (backEdges : List (BlockId × BlockId)) (BB Pred : BlockId) :
    Yields P (fun _ => True) (propagateFrom L P callees taints backEdges BB Pred) := by
  intro s u s' hs h
  unfold propagateFrom at h
  split at h
  · obtain ⟨-, rfl⟩ := Prod.mk.inj (Except.ok.inj h)
    exact ⟨hs, trivial⟩
  · obtain ⟨⟨VRM, t⟩, hVRM, h⟩ := Iteration.bind_eq_ok.mp h
    obtain ⟨-, rfl⟩ := Prod.mk.inj (Except.ok.inj h)
    obtain ⟨ht, hm⟩ := visitTerminator_typed hL hW hP (hs Pred) s VRM t hs hVRM
    exact ⟨ht.setMap (mergeVRM_typed hL (ht BB) hm), trivial⟩

/-- What comes from all predecessors keeps typed maps. -/
theorem propagate_typed (hL : L.ranges.UnionLaws) (hW : L.ranges.WidthLaws) (hP : WellTyped P)
    {backEdges : List (BlockId × BlockId)} (preds : List BlockId) :
    Yields P (fun _ => True) (propagate L P callees taints backEdges BB preds) := by
  induction preds with
  | nil => exact yields_pure trivial
  | cons Pred preds ih => exact (propagateFrom_typed hL hW hP _ _ _).bind fun _ _ => ih

/-! ## What is written under an identifier -/

variable (L P callees) in
/-- Some module writes a value of `w` bits under an identifier. -/
def Written (modules : List Module) (sID : String) (w : ℕ) : Prop :=
  ∃ M ∈ modules, ModuleWrites L P callees M sID w

variable (P) in
/-- A part of the pass keeps typed maps, and the ranges that it joins have widths
in `W`. -/
def Joins (W : String → ℕ → Prop) (s : State) (r : Report State Event) : Prop :=
  Typed P s → Typed P r.state ∧ ∀ sID R, .union sID R ∈ r.trace → W sID R.width

variable {W W' : String → ℕ → Prop} {f g : Pass State Event}

/-- Parts of the pass may be put one after the other. -/
theorem sequential_joins (W : String → ℕ → Prop) :
    Sequential fun s (r : Report State Event) => Joins P W s r where
  idle _ hs := ⟨hs, fun _ _ h => absurd h List.not_mem_nil⟩
  andThen h h' hs := by
    obtain ⟨ht, hjoin⟩ := h hs
    obtain ⟨ht', hjoin'⟩ := h' ht
    exact ⟨ht', fun sID R hR => (List.mem_append.mp hR).elim (hjoin sID R) (hjoin' sID R)⟩

variable (P) in
/-- Every run of `f` joins so. -/
def AlwaysJoins (W : String → ℕ → Prop) (f : Pass State Event) : Prop :=
  ∀ s r, f s = .ok r → Joins P W s r

namespace AlwaysJoins

theorem mono (hf : AlwaysJoins P W f) (hW : ∀ sID w, W sID w → W' sID w) :
    AlwaysJoins P W' f := by
  intro s r h hs
  obtain ⟨ht, hjoin⟩ := hf s r h hs
  exact ⟨ht, fun sID R hR => hW sID _ (hjoin sID R hR)⟩

theorem idle : AlwaysJoins P W fun s => .ok (.idle s) := by
  intro s r h
  obtain rfl := Except.ok.inj h
  exact (sequential_joins W).idle s

theorem seq (hf : AlwaysJoins P W f) (hg : AlwaysJoins P W g) : AlwaysJoins P W (f.seq g) := by
  intro s r h
  obtain ⟨a, b, ha, hb, rfl⟩ := Pass.seq_eq_ok.mp h
  exact (sequential_joins W).andThen (hf s a ha) (hg _ b hb)

theorem forEach {ι : Type} {h : ι → Pass State Event} {xs : List ι}
    (hh : ∀ x ∈ xs, AlwaysJoins P W (h x)) : AlwaysJoins P W (forEach h xs) :=
  fun _ _ hr => (sequential_joins W).forEach_spec (fun x hx s r => hh x hx s r) hr

theorem withQuery {α : Type} {post : α → Prop} {q : Query α} {k : α → Pass State Event}
    (hq : Yields P post q) (hk : ∀ a, post a → AlwaysJoins P W (k a)) :
    AlwaysJoins P W (withQuery q k) := by
  intro s r h hs
  obtain ⟨⟨a, t⟩, ha, h⟩ := Iteration.bind_eq_ok.mp h
  obtain ⟨ht, hpost⟩ := hq s a t hs ha
  exact hk a hpost t r h ht

theorem union {sID : String} (hW : W sID R.width) : AlwaysJoins P W (unionRange L sID R) := by
  intro s r h hs
  unfold unionRange at h
  split at h
  · obtain rfl := Except.ok.inj h
    exact ⟨hs, fun _ _ h => absurd h List.not_mem_nil⟩
  · obtain rfl := Except.ok.inj h
    refine ⟨hs, fun sID' R' hR' => ?_⟩
    obtain ⟨rfl, rfl⟩ := Event.union.inj (List.mem_singleton.mp hR')
    exact hW

end AlwaysJoins

/-- A call joins ranges of the widths of its arguments and of its result. The arguments are joined
under the parameters of each callee, and what `getRange` returns for the call under its own
identifier. -/
theorem visitCallInst_joins (hL : L.ranges.UnionLaws) {F : FuncId} {i : InstId} {callee : Value}
    {args : List Value} (hop : (P.inst i).op = .call callee args) :
    AlwaysJoins P (InstWrites L P callees F i) (visitCallInst L P callees taints i args) := by
  unfold visitCallInst
  split
  · exact .idle
  · split
    · exact .idle
    · rename_i CEEs hcallees
      refine .seq (.forEach fun f hf => ?_) ?_
      · split
        · exact .idle
        · rename_i hskip
          refine .forEach fun arg harg => ?_
          unfold passArgument
          split
          · rename_i hint
            obtain ⟨w, hw⟩ := exists_of_isIntegerTy hint
            refine .withQuery (getRange_int hL hw) fun R hR => .union ?_
            rw [hR]
            exact .argument hop hcallees ((L.mem_elements CEEs f).mp hf)
              (Bool.eq_false_iff.mpr hskip) harg hw
          · exact .idle
      · split
        · rename_i hint
          obtain ⟨w, hw⟩ := exists_of_isIntegerTy hint
          refine .withQuery (getRange_int hL (V := .inst i) hw) fun R hR => .union ?_
          rw [hR]
          exact .result hop hcallees hw
        · exact .idle

theorem updateGlobal_joins (hL : L.ranges.UnionLaws) (hP : WellTyped P) {F : FuncId}
    {i : InstId} : AlwaysJoins P (InstWrites L P callees F i)
      (updateGlobal L P callees taints F i) := by
  unfold updateGlobal
  cases hop : (P.inst i).op with
  | store value pointer =>
    have hi := hP i
    simp only [InstTyped, hop] at hi
    simp only [visitStoreInst]
    split
    · rename_i hc
      obtain ⟨w, hw⟩ := exists_of_isIntegerTy hc.1
      refine .withQuery (getRange_int hL hw) fun R hR => ?_
      intro s r h hs
      have hpointer : integerWidth (P.typeOf pointer) = some R.width := by
        rw [hi, hw, hR]
        rfl
      have hjoin : AlwaysJoins P (InstWrites L P callees F i)
          (unionRange L (getValueId L P (.inst i)) R) := .union (hR ▸ .store hop hw hc.2)
      exact hjoin _ r h (hs.unionBlockRange hL hpointer)
    · exact .idle
  | ret value =>
    simp only [visitReturnInst]
    split
    · rename_i V
      split
      · rename_i hint
        obtain ⟨w, hw⟩ := exists_of_isIntegerTy hint
        exact .withQuery (getRange_int hL hw) fun R hR => .union (hR ▸ .ret hop hw)
      · exact .idle
    · exact .idle
  | call callee args => exact visitCallInst_joins hL hop
  | _ => exact .idle

/-- The part of a visit about the map of the block joins nothing to identifiers. -/
theorem updateLocal_joins (hL : L.ranges.UnionLaws) (hW : L.ranges.WidthLaws)
    (hP : WellTyped P) {backEdges : List (BlockId × BlockId)} {i : InstId} :
    AlwaysJoins P W (updateLocal L P callees taints backEdges i) := by
  unfold updateLocal
  split
  · rename_i w hty
    refine .withQuery (instRange_typed hL hW (hP i) hty) fun R hR => ?_
    intro s r h hs
    obtain rfl := Except.ok.inj h
    refine ⟨hs.unionBlockRange hL ?_, fun _ _ h => absurd h List.not_mem_nil⟩
    exact width_of_int (V := .inst i) hty hR
  · exact .idle

/-- One instruction: the ranges that it joins to those of identifiers have the
widths of the values that it writes. -/
theorem updateRangeForInst_joins (hL : L.ranges.UnionLaws) (hW : L.ranges.WidthLaws)
    (hP : WellTyped P) {backEdges : List (BlockId × BlockId)} {F : FuncId} {i : InstId} :
    AlwaysJoins P (InstWrites L P callees F i)
      (updateRangeForInst L P callees taints backEdges F i) :=
  .seq (updateGlobal_joins hL hP) (updateLocal_joins hL hW hP)

variable {modules : List Module} {fuel : ℕ}

theorem updateRangeForFunction_joins (hL : L.ranges.UnionLaws) (hW : L.ranges.WidthLaws)
    (hP : WellTyped P) {M : Module} (hM : M ∈ modules) {F : FuncId} (hF : F ∈ M.functions) :
    AlwaysJoins P (Written L P callees modules) (updateRangeForFunction L P callees taints F) := by
  intro s r h _
  -- the maps of all blocks are empty in the beginning
  have hclear : Typed P { s with funcVRMs := fun _ _ => none } := fun BB V R h => by cases h
  refine AlwaysJoins.forEach (fun BB hBB => ?_) _ r h hclear
  refine .withQuery (propagate_typed hL hW hP _) fun _ _ => .forEach fun i hi => ?_
  refine (updateRangeForInst_joins hL hW hP).mono fun sID w h => ?_
  exact ⟨M, hM, .body (.inst hF (List.mem_flatMap.mpr ⟨BB, hBB, hi⟩) h)⟩

theorem doModulePass_joins (hL : L.ranges.UnionLaws) (hW : L.ranges.WidthLaws)
    (hP : WellTyped P) {M : Module} (hM : M ∈ modules) :
    AlwaysJoins P (Written L P callees modules) (doModulePass L P callees taints fuel M) := by
  intro s r h hs
  obtain ⟨b, hb, rfl⟩ := doModulePass_eq_ok.mp h
  have hloop : Joins P (Written L P callees modules) s b := by
    refine (sequential_joins _).whileChanged_spec (fun itr s r hr hs => ?_) hb
    obtain ⟨v, hv, rfl⟩ := iteration_eq_ok.mp hr
    have hbegin : Typed P (beginIteration itr s) := by
      unfold beginIteration
      split <;> exact hs
    obtain ⟨ht, hjoin⟩ := AlwaysJoins.forEach (fun F hF =>
      updateRangeForFunction_joins hL hW hP hM (List.mem_filter.mp hF).1) _ v hv hbegin
    refine ⟨ht, fun sID R hR => ?_⟩
    rcases List.mem_append.mp hR with hR | hR
    · rcases List.mem_append.mp hR with hR | hR
      · split at hR <;> simp at hR
      · exact hjoin sID R hR
    · simp at hR
  obtain ⟨ht, hjoin⟩ := hloop hs
  refine ⟨ht, fun sID R hR => ?_⟩
  rcases List.mem_cons.mp hR with heq | hR
  · cases heq
  · exact hjoin sID R hR

/-- Every range that a run joins to that of an identifier has the width of some
value that the program writes under it. -/
theorem run_joins (hL : L.ranges.UnionLaws) (hW : L.ranges.WidthLaws) (hP : WellTyped P)
    {r : Report State Event} (h : (rangePass L P callees taints).run fuel modules .init = .ok r) :
    ∀ sID, ∀ R ∈ writes sID r.trace, Written L P callees modules sID R.width := by
  obtain ⟨r₁, r₂, r₃, h₁, h₂, h₃, rfl⟩ := IterativeModulePass.run_eq_ok.mp h
  have hinit : AlwaysJoins P (Written L P callees modules)
      (forEach (doInitialization L P) modules) :=
    .forEach fun M hM => .forEach fun e he => .union ⟨M, hM, .initializer he⟩
  have hiter : Joins P (Written L P callees modules) r₁.state r₂ :=
    (sequential_joins _).whileChanged_spec
      (fun _ s r h => AlwaysJoins.forEach (fun M hM => doModulePass_joins hL hW hP hM) s r h) h₂
  have hfinal : AlwaysJoins P (Written L P callees modules)
      (forEach (doFinalization L P) modules) := by
    refine .forEach fun M _ => .forEach fun i _ s r h hs => ?_
    obtain rfl := Except.ok.inj h
    refine ⟨hs, fun sID R hR => ?_⟩
    split at hR <;> simp at hR
  have hstart : Typed P .init := fun BB V R h => by cases h
  obtain ⟨-, hjoin⟩ := (sequential_joins _).andThen (hinit _ _ h₁)
    ((sequential_joins _).andThen hiter (hfinal _ _ h₃)) hstart
  exact fun sID R hR => hjoin sID R (mem_writes.mp hR)

end Pass

/-- `a.c` defines a variable as an `i8`, `b.c` declares it as an `i32` and loads
it. -/
def redeclaredProgram : Program where
  insts := [
    ⟨0, .int 32, .load (.global 1) false, some "var.mode", none⟩,
    ⟨0, .other, .ret (some (.inst 0)), none, none⟩]
  blocks := [⟨0, [0], 1, []⟩]
  funcs := [⟨⟨"f", .external, "b.c"⟩, false, [], .int 32, [0]⟩]
  globals := [⟨⟨"mode", .external, "a.c"⟩, .int 8, some (.int (.ofNat 8 5))⟩,
    ⟨⟨"mode", .external, "b.c"⟩, .int 32, none⟩]
  structs := []
  consts := []

/-- The modules of `redeclaredProgram`. -/
def redeclaredModules : List Module := [⟨"a.c", [0], []⟩, ⟨"b.c", [1], [0]⟩]

/-- The run annotates the load of an `i32` with bounds of 8 bits. -/
theorem redeclared_run : ∃ r,
    (rangePass .reference redeclaredProgram (fun _ => none) .init).run 4 redeclaredModules .init =
      .ok r ∧ (0, some (.ofNat 8 5, .ofNat 8 6)) ∈ annotations r.trace := by
  have hrun : resultIs ((rangePass .reference redeclaredProgram (fun _ => none) .init).run 4
      redeclaredModules .init) (fun r =>
        decide ((0, some (.ofNat 8 5, .ofNat 8 6)) ∈ annotations r.trace)) = true := by
    decide +kernel
  obtain ⟨r, hr, hmd⟩ := of_resultIs hrun
  exact ⟨r, hr, of_decide_eq_true hmd⟩

/-- The bounds of 8 bits are on a load of 32 bits. -/
theorem redeclared_width : ∃ r lo hi N,
    (rangePass .reference redeclaredProgram (fun _ => none) .init).run 4 redeclaredModules .init =
      .ok r ∧ (0, some (lo, hi)) ∈ annotations r.trace ∧
    isLoadOrCall redeclaredProgram 0 = true ∧ (redeclaredProgram.inst 0).ty = .int N ∧
    ¬ (lo.width = N ∧ hi.width = N) := by
  obtain ⟨r, hr, hmd⟩ := redeclared_run
  exact ⟨r, _, _, 32, hr, hmd, rfl, rfl, by decide⟩

theorem redeclared_width_iff : ∃ r lo hi,
    (rangePass .reference redeclaredProgram (fun _ => none) .init).run 4 redeclaredModules .init =
      .ok r ∧ (0, some (lo, hi)) ∈ annotations r.trace ∧
    ∀ N, (redeclaredProgram.inst 0).ty = .int N → (lo.width = N ∧ hi.width = N ↔
      ∃ R, (writes (getValueId .reference redeclaredProgram (.inst 0)) r.trace).head? = some R ∧
        R.width = N) := by
  obtain ⟨r, hr, hmd⟩ := redeclared_run
  exact ⟨r, _, _, hr, hmd, metadata_width_iff RangeOps.reference_unionLaws hr hmd⟩

end Kint.Range
