import Kint.Range.Machine

/-!
# What an instruction does to known values

`Known s BB V x`: in the state `s`, the value `x` of `V` is among those that the analysis reads
for `V` in the block `BB`.  If the operands of an instruction are known, then so is its result,
and the values that it writes are in the ranges of their identifiers.

## Known values

A constant is known, and so is a value whose entry in the map of the block contains it.  Without
an entry, a value is known if it is in what would be looked up, and the entries of other blocks
contain what would be looked up too (`Clean`, of `Kint.Range.Maps`).  Being known is kept by
queries, which may make an entry of what they look up (`Known.looks`).

## Results

The lemmas with `_known` are about the visitors that return a range for a result: operators,
casts, selections and phi nodes.  What is looked up for a call or a load contains what was
written under the identifier (`looked_contains`, `looked_call_contains`).  `updateLocal_entry`
says that the entry for the result contains all that the visitor has computed.

## Writes

`Covers` is what a visit that reports nothing tells of the ranges of identifiers: a join without
a change means that the range contains what was joined (`unionRange_covers`).  The lemmas with
`_covers` follow the visitors of stores, returns and calls to the join in question, through the
loops over arguments and callees.
-/

namespace Kint.Range

open Iteration

section Pass

variable {L : Library} {P : Program} {callees : CalleeMap} {taints : TaintMap}
  {s s' : State} {BB : BlockId} {V : Value} {x : APInt} {CR : ConstantRange} {w : ℕ}
  {T : Value → Prop}

/-! ## Known values -/

variable (L P callees taints) in
/-- What `getRange` returns for `V` contains `x`: a constant, by an entry, or by what is
looked up, as long as all entries contain that. -/
inductive Known (s : State) (BB : BlockId) (V : Value) (x : APInt) : Prop
  | const : V = .constInt x → Known s BB V x
  | entry {R : ConstantRange} : (∀ c, V ≠ .constInt c) → s.funcVRMs BB V = some R →
      R.Contains x → Known s BB V x
  | clean : (∀ c, V ≠ .constInt c) → Clean L P callees taints s V →
      (looked L P callees taints s.intRanges V).Contains x → Known s BB V x

/-- A value is known while the entries of other values change. -/
theorem Known.touches (hL : L.ranges.UnionLaws) (hV : ¬ T V)
    (htouches : Touches L P callees taints T s s') (h : Known L P callees taints s BB V x) :
    Known L P callees taints s' BB V x := by
  cases h with
  | const heq => exact .const heq
  | entry hne hR hx =>
    obtain ⟨R', hR', hle⟩ := htouches.extends_maps hL BB V _ hR
    exact .entry hne hR' (ConstantRange.le_contains hle hx)
  | clean hne hclean hx =>
    exact .clean hne (htouches.clean hL hV hclean) (by rwa [htouches.intRanges])

/-- A value is known while others are looked up. -/
theorem Known.looks {α : Type} {q : Query α} {a : α} (hL : L.ranges.UnionLaws)
    (hq : Looks L P callees taints q) (ha : q s = .ok (a, s'))
    (h : Known L P callees taints s BB V x) : Known L P callees taints s' BB V x :=
  h.touches hL (T := fun _ => False) id (hq s a s' ha _)

/-- `getRange` returns a range with what is known. A constant is in its own range; for another value
the entry of the block is taken, or else what is looked up. -/
theorem Known.getRange {R : ConstantRange} (h : Known L P callees taints s BB V x)
    (hR : getRange L P callees taints BB V s = .ok (R, s')) : R.Contains x := by
  unfold Range.getRange at hR
  split at hR
  · rename_i c
    obtain ⟨rfl, -⟩ := Prod.mk.inj (Except.ok.inj hR)
    cases h with
    | const heq =>
      obtain rfl := Value.constInt.inj heq
      exact ConstantRange.ofAPInt_contains c
    | entry hne => exact absurd rfl (hne c)
    | clean hne => exact absurd rfl (hne c)
  · rename_i hne
    split at hR
    · rename_i R' hR'
      obtain ⟨rfl, -⟩ := Prod.mk.inj (Except.ok.inj hR)
      cases h with
      | const heq => exact absurd heq (hne x)
      | entry _ hS hx =>
        obtain rfl := Option.some.inj (hR'.symm.trans hS)
        exact hx
      | clean _ hclean hx => exact ConstantRange.le_contains (hclean BB _ hR') hx
    · rename_i hnone
      split at hR
      · cases hR
      · rename_i w hw
        obtain ⟨rfl, -⟩ := Prod.mk.inj (Except.ok.inj hR)
        cases h with
        | const heq => exact absurd heq (hne x)
        | entry _ hS => cases hnone.symm.trans hS
        | clean _ _ hx => rwa [looked, hw, Option.getD_some] at hx

/-- A known value has the width of the type. -/
theorem Known.width (hL : L.ranges.UnionLaws) (hs : Typed P s) (hV : P.typeOf V = .int w)
    (h : Known L P callees taints s BB V x) : x.width = w := by
  cases h with
  | const heq =>
    rw [heq] at hV
    exact Ty.int.inj hV
  | @entry R _ hR hx =>
    have hRw := hs BB V R hR
    rw [hV] at hRw
    exact hx.width_eq.trans (Option.some.inj hRw).symm
  | clean _ _ hx =>
    rw [hx.width_eq, looked, hV]
    exact width_lookupRange hL

/-! ## Operators -/

/-- A range that has the width already is not converted. -/
theorem convert_of_width {R S : ConstantRange} (h : R.width = S.width) :
    L.ranges.convert R S = R := if_neg (not_not.mpr h)

/-- The range for an operator that is covered contains the result. Both operands are asked for, in
this order, and the operation on ranges is sound by assumption. -/
theorem visitBinaryOp_contains (hS : L.ranges.SoundLaws) {op : BinaryOp} {lhs rhs : Value}
    {LR RR : ConstantRange} {s₁ s₂ : State} {a b c : APInt} (hop : covered op = true)
    (hl : getRange L P callees taints BB lhs s = .ok (LR, s₁))
    (hr : getRange L P callees taints BB rhs s₁ = .ok (RR, s₂)) (ha : LR.Contains a)
    (hb : RR.Contains b) (hc : binaryValue op a b = some c) :
    ∃ CR, visitBinaryOp L P callees taints BB op lhs rhs s = .ok (CR, s₂) ∧ CR.Contains c := by
  obtain ⟨hwa, hwb⟩ := binaryValue_width hc
  have hw : RR.width = LR.width := by rw [← hb.width_eq, ← ha.width_eq, hwa, hwb]
  refine ⟨_, Query.bind_eq_ok.mpr ⟨LR, s₁, hl, Query.bind_eq_ok.mpr
    ⟨RR, s₂, hr, Query.pure_eq_ok.mpr ⟨rfl, rfl⟩⟩⟩, ?_⟩
  rw [convert_of_width hw]
  cases op with
  | add => exact hS.add _ _ _ _ _ ha hb hc
  | sub => exact hS.sub _ _ _ _ _ ha hb hc
  | mul => exact hS.multiply _ _ _ _ _ ha hb hc
  | udiv => exact hS.udiv _ _ _ _ _ ha hb hc
  | sdiv => exact RangeOps.sdiv_sound _ _ _ _ _ ha hb hc
  | shl => exact hS.shl _ _ _ _ _ ha hb hc
  | lshr => exact hS.lshr _ _ _ _ _ ha hb hc
  | and => exact hS.binaryAnd _ _ _ _ _ ha hb hc
  | or => exact hS.binaryOr _ _ _ _ _ ha hb hc
  | urem => cases hop
  | srem => cases hop
  | ashr => cases hop
  | xor => cases hop

theorem visitBinaryOp_known (hL : L.ranges.UnionLaws) (hS : L.ranges.SoundLaws) {op : BinaryOp}
    {lhs rhs : Value} {a b : APInt} (hop : covered op = true)
    (hl : Known L P callees taints s BB lhs a) (hr : Known L P callees taints s BB rhs b)
    (hx : binaryValue op a b = some x)
    (h : visitBinaryOp L P callees taints BB op lhs rhs s = .ok (CR, s')) : CR.Contains x := by
  obtain ⟨LR, t, hLR, hrest⟩ := Query.bind_eq_ok.mp h
  obtain ⟨RR, t', hRR, -⟩ := Query.bind_eq_ok.mp hrest
  have ha := hl.getRange hLR
  have hb := (hr.looks hL (getRange_looks BB lhs) hLR).getRange hRR
  obtain ⟨CR', h', hc⟩ := visitBinaryOp_contains hS hop hLR hRR ha hb hx
  rw [h'] at h
  obtain ⟨rfl, -⟩ := Prod.mk.inj (Except.ok.inj h)
  exact hc

theorem visitCastInst_known (hS : L.ranges.SoundLaws) {op : CastOp} {a : APInt}
    (hop : op = .trunc ∨ op = .zext ∨ op = .sext ∨ op = .bitcast)
    (hV : Known L P callees taints s BB V a) (hx : castValue op w a = some x)
    (h : visitCastInst L P callees taints BB w op V s = .ok (CR, s')) : CR.Contains x := by
  rcases hop with rfl | rfl | rfl | rfl
  · obtain ⟨R, t, hR, h⟩ := Query.bind_eq_ok.mp h
    obtain ⟨rfl, -⟩ := Query.pure_eq_ok.mp h
    obtain ⟨-, ⟨⟩⟩ := Option.ite_none_right_eq_some.mp hx
    exact hS.zextOrTrunc w (hV.getRange hR)
  · obtain ⟨R, t, hR, h⟩ := Query.bind_eq_ok.mp h
    obtain ⟨rfl, -⟩ := Query.pure_eq_ok.mp h
    obtain ⟨-, ⟨⟩⟩ := Option.ite_none_right_eq_some.mp hx
    exact hS.zextOrTrunc w (hV.getRange hR)
  · obtain ⟨R, t, hR, h⟩ := Query.bind_eq_ok.mp h
    obtain ⟨rfl, -⟩ := Query.pure_eq_ok.mp h
    obtain ⟨hw, ⟨⟩⟩ := Option.ite_none_right_eq_some.mp hx
    exact hS.signExtend w hw (hV.getRange hR)
  · obtain ⟨-, ⟨⟩⟩ := Option.ite_none_right_eq_some.mp hx
    exact hV.getRange h

/-- The value that is selected is known; the other operand may be anything of the type. -/
theorem visitSelectInst_known (hL : L.ranges.UnionLaws) (hs : Typed P s)
    {ifTrue ifFalse : Value} (ht : P.typeOf ifTrue = .int w) (hf : P.typeOf ifFalse = .int w)
    {c : Bool} (hV : Known L P callees taints s BB (if c then ifTrue else ifFalse) x)
    (h : visitSelectInst L P callees taints BB ifTrue ifFalse s = .ok (CR, s')) :
    CR.Contains x := by
  obtain ⟨T, t, hT, h⟩ := Query.bind_eq_ok.mp h
  obtain ⟨F, t', hF, h⟩ := Query.bind_eq_ok.mp h
  obtain ⟨rfl, -⟩ := Query.pure_eq_ok.mp h
  obtain ⟨htyped, hTw⟩ := getRange_int hL ht s T t hs hT
  obtain ⟨-, hFw⟩ := getRange_int hL hf t F t' htyped hF
  cases c with
  | true => exact ConstantRange.le_contains (hL.le_safeUnion T F) (hV.getRange hT)
  | false =>
    have hx := (hV.looks hL (getRange_looks BB ifTrue) hT).getRange hF
    have hle := hL.convert_le_safeUnion T F
    rw [convert_of_width (hFw.trans hTw.symm)] at hle
    exact ConstantRange.le_contains hle hx

/-- The range of a phi node contains what the loop has started with. -/
theorem le_visitPHINode (hL : L.ranges.UnionLaws) {backEdges : List (BlockId × BlockId)}
    {incoming : List (Value × BlockId)} {R : ConstantRange}
    (h : visitPHINode L P callees taints backEdges BB incoming R s = .ok (CR, s')) :
    R ≤ CR := by
  induction incoming generalizing R s with
  | nil =>
    obtain ⟨rfl, -⟩ := Query.pure_eq_ok.mp h
    exact le_rfl
  | cons e incoming ih =>
    unfold visitPHINode at h
    split at h
    · exact ih h
    · obtain ⟨S, t, -, h⟩ := Query.bind_eq_ok.mp h
      exact (hL.le_safeUnion R S).trans (ih h)

/-- The value that comes in over an edge that is no back edge is known. The induction is on the
incoming values: the range only grows from one to the next. -/
theorem visitPHINode_known (hL : L.ranges.UnionLaws) {backEdges : List (BlockId × BlockId)}
    {incoming : List (Value × BlockId)} {R : ConstantRange} {Pred : BlockId}
    (hR : R.width = x.width) (hmem : (V, Pred) ∈ incoming)
    (hback : isBackEdge backEdges (Pred, BB) = false)
    (hV : Known L P callees taints s Pred V x)
    (h : visitPHINode L P callees taints backEdges BB incoming R s = .ok (CR, s')) :
    CR.Contains x := by
  induction incoming generalizing R s with
  | nil => cases hmem
  | cons e incoming ih =>
    unfold visitPHINode at h
    rcases List.mem_cons.mp hmem with rfl | hmem
    · rw [hback, if_neg Bool.false_ne_true] at h
      obtain ⟨S, t, hS, h⟩ := Query.bind_eq_ok.mp h
      have hx := hV.getRange hS
      have hle := hL.convert_le_safeUnion R S
      rw [convert_of_width (hx.width_eq.symm.trans hR.symm)] at hle
      exact ConstantRange.le_contains (hle.trans (le_visitPHINode hL h)) hx
    · split at h
      · exact ih hR hmem hV h
      · obtain ⟨S, t, hS, h⟩ := Query.bind_eq_ok.mp h
        exact ih ((width_safeUnion hL R S).trans hR) hmem
          (hV.looks hL (getRange_looks e.2 e.1) hS) h

/-! ## What is looked up -/

/-- The range of an identifier contains a value. -/
def Covers (m : RangeMap) (sID : String) (x : APInt) : Prop :=
  ∃ R, m sID = some R ∧ R.Contains x

/-- Arguments and loads: a value in the range of the identifier is looked up. A source of taint is
looked up as the full range, and so contains every value. -/
theorem looked_contains (hS : L.ranges.SoundLaws) {m : RangeMap}
    (hcall : ∀ i, V = .inst i → ∀ callee args, (P.inst i).op ≠ .call callee args)
    (hV : P.typeOf V = .int x.width) (hid : getValueId L P V ≠ "")
    (hx : taints.isSource (getValueId L P V) = true ∨ Covers m (getValueId L P V) x) :
    (looked L P callees taints m V).Contains x := by
  have hlookup : looked L P callees taints m V = L.ranges.zextOrTrunc
      (if taints.isSource (getValueId L P V) then .full x.width
        else (m (getValueId L P V)).getD (.empty x.width)) x.width := by
    unfold looked lookupRange
    rw [hV]
    split
    · rename_i i callee args hop
      exact absurd (Option.some.inj hop) (hcall i rfl callee args)
    · simp only [integerWidth, Option.getD_some, if_neg hid]
  rw [hlookup]
  refine hS.contains_zextOrTrunc ?_
  split
  · exact (ConstantRange.contains_full _ x).mpr rfl
  · rename_i hsource
    obtain ⟨R, hR, hRx⟩ := hx.resolve_left hsource
    rw [hR]
    exact hRx

/-- The loop over callees keeps what it has started with. -/
theorem le_unionOfReturns (hL : L.ranges.UnionLaws) {m : RangeMap} {fs : List FuncId}
    {R : ConstantRange} (hR : R.width = w) : R ≤ unionOfReturns L P taints w m fs R := by
  induction fs generalizing R with
  | nil => exact le_rfl
  | cons f fs ih =>
    unfold unionOfReturns
    split
    · rw [← hR]
      exact ConstantRange.le_full R
    · split
      · exact (hL.le_safeUnion R _).trans (ih ((width_safeUnion hL _ _).trans hR))
      · exact ih hR

/-- The loop over callees adds the range of each return identifier. -/
theorem unionOfReturns_contains (hL : L.ranges.UnionLaws) {m : RangeMap} {fs : List FuncId}
    {R : ConstantRange} {f : FuncId} (hR : R.width = x.width) (hf : f ∈ fs)
    (hx : taints.isSource (getRetId L P f) = true ∨ Covers m (getRetId L P f) x) :
    (unionOfReturns L P taints x.width m fs R).Contains x := by
  induction fs generalizing R with
  | nil => cases hf
  | cons g fs ih =>
    unfold unionOfReturns
    split
    · exact (ConstantRange.contains_full _ x).mpr rfl
    · rename_i hsource
      rcases List.mem_cons.mp hf with rfl | hf
      · obtain ⟨S, hS, hSx⟩ := hx.resolve_left hsource
        simp only [hS]
        have hle := hL.convert_le_safeUnion R S
        rw [convert_of_width (hSx.width_eq.symm.trans hR.symm)] at hle
        exact ConstantRange.le_contains
          (hle.trans (le_unionOfReturns hL ((width_safeUnion hL R S).trans hR))) hSx
      · split
        · exact ih ((width_safeUnion hL _ _).trans hR) hf
        · exact ih hR hf

/-- A value that a possible callee returns is looked up for the call. -/
theorem looked_call_contains (hL : L.ranges.UnionLaws) {m : RangeMap} {i : InstId}
    {callee : Value} {args : List Value} {CEEs : FuncSet} {f : FuncId}
    (hop : (P.inst i).op = .call callee args) (hty : (P.inst i).ty = .int x.width)
    (hasm : P.isInlineAsm i = false) (hcallees : callees i = some CEEs) (hf : f ∈ CEEs)
    (hx : taints.isSource (getRetId L P f) = true ∨ Covers m (getRetId L P f) x) :
    (looked L P callees taints m (.inst i)).Contains x := by
  have hV : P.typeOf (.inst i) = .int x.width := hty
  have hlookup : looked L P callees taints m (.inst i) =
      unionOfReturns L P taints x.width m (L.elements CEEs) (.empty x.width) := by
    unfold looked
    rw [hV]
    simp [lookupRange, integerWidth, Program.opcode?, hop, hasm, hcallees]
  rw [hlookup]
  exact unionOfReturns_contains hL rfl ((L.mem_elements CEEs f).mpr hf) hx

/-! ## Results -/

/-- The entry for the result of an instruction. -/
theorem updateLocal_entry (hL : L.ranges.UnionLaws) (hW : L.ranges.WidthLaws)
    (hP : WellTyped P) {backEdges : List (BlockId × BlockId)} {i : InstId}
    {r : Report State Event} (hs : Typed P s) (hty : (P.inst i).ty = .int w)
    (hx : ∀ CR t, instRange L P callees taints backEdges i w s = .ok (CR, t) → CR.Contains x)
    (h : updateLocal L P callees taints backEdges i s = .ok r) :
    ∃ R, r.state.funcVRMs (P.inst i).parent (.inst i) = some R ∧ R.Contains x := by
  unfold updateLocal at h
  rw [hty] at h
  obtain ⟨⟨CR, t⟩, hCR, h⟩ := Iteration.bind_eq_ok.mp h
  obtain rfl := Except.ok.inj h
  obtain ⟨ht, hCRw⟩ := instRange_typed hL hW (hP i) hty s CR t hs hCR
  have hCRx := hx CR t hCR
  refine ⟨(joined L (t.funcVRMs (P.inst i).parent (.inst i)) CR).2, ?_, ?_⟩
  · show (unionBlockRange L (P.inst i).parent (.inst i) CR t).funcVRMs _ _ = _
    rw [unionBlockRange, hCRx.not_isEmptySet, if_neg Bool.false_ne_true,
      State.setRange_funcVRMs, if_pos ⟨rfl, rfl⟩]
  · refine ConstantRange.le_contains (le_joined_right hL fun S hS => ?_) hCRx
    have hSw := ht _ _ S hS
    rw [show P.typeOf (.inst i) = .int w from hty] at hSw
    exact hCRw.trans (Option.some.inj hSw)

/-! ## Writes under identifiers -/

/-- A join that reports nothing adds nothing. -/
theorem unionRange_covers (hL : L.ranges.UnionLaws) {sID : String} {R : ConstantRange}
    {r : Report State Event} (hw : ∀ S, s.intRanges sID = some S → S.width = R.width)
    (hx : R.Contains x) (h : unionRange L sID R s = .ok r) (hc : r.changed = false) :
    Covers s.intRanges sID x := by
  unfold unionRange at h
  rw [hx.not_isEmptySet, if_neg Bool.false_ne_true] at h
  obtain rfl := Except.ok.inj h
  cases hentry : s.intRanges sID with
  | none =>
    have htrue : (joined L (s.intRanges sID) R).1 = true := by rw [hentry]; rfl
    cases htrue.symm.trans hc
  | some S =>
    have hc' : (L.ranges.safeUnion S R).1 = false := by rwa [hentry] at hc
    refine ⟨S, hentry, ConstantRange.le_contains ?_ hx⟩
    rcases hL.safeUnion_exact S R with ⟨-, hsame⟩ | ⟨htrue, -⟩
    · have hle := hL.convert_le_safeUnion S R
      rwa [convert_of_width (hw S hentry).symm, hsame] at hle
    · cases htrue.symm.trans hc'

/-- A range that was read for a known value and joined without a change. -/
theorem withQuery_covers (hL : L.ranges.UnionLaws) {sID : String} {r : Report State Event}
    {f : ConstantRange → State → State} (hf : ∀ CR t, (f CR t).intRanges = t.intRanges)
    (hs : Typed P s) (hV : P.typeOf V = .int w)
    (hw : ∀ S, s.intRanges sID = some S → S.width = w)
    (hx : Known L P callees taints s BB V x)
    (h : withQuery (getRange L P callees taints BB V)
      (fun CR t => unionRange L sID CR (f CR t)) s = .ok r) (hc : r.changed = false) :
    Covers s.intRanges sID x := by
  obtain ⟨⟨CR, t⟩, hCR, h⟩ := Iteration.bind_eq_ok.mp h
  have hsame : (f CR t).intRanges = s.intRanges :=
    (hf CR t).trans ((getRange_looks BB V s CR t hCR fun _ => False).intRanges)
  have hCRw := (getRange_int hL hV s CR t hs hCR).2
  rw [← hsame]
  refine unionRange_covers hL (fun S hS => ?_) (hx.getRange hCR) h hc
  rw [hsame] at hS
  exact (hw S hS).trans hCRw.symm

theorem visitStoreInst_covers (hL : L.ranges.UnionLaws) {i : InstId} {value pointer : Value}
    {r : Report State Event} (hs : Typed P s) (hV : P.typeOf value = .int w)
    (hid : getValueId L P (.inst i) ≠ "")
    (hw : ∀ S, s.intRanges (getValueId L P (.inst i)) = some S → S.width = w)
    (hx : Known L P callees taints s (P.inst i).parent value x)
    (h : visitStoreInst L P callees taints i value pointer s = .ok r)
    (hc : r.changed = false) : Covers s.intRanges (getValueId L P (.inst i)) x := by
  unfold visitStoreInst at h
  rw [if_pos ⟨by rw [hV]; rfl, hid⟩] at h
  exact withQuery_covers hL (fun CR t => (unionBlockRange_same _ _ CR t).1) hs hV hw hx h hc

theorem visitReturnInst_covers (hL : L.ranges.UnionLaws) {F : FuncId} {i : InstId}
    {r : Report State Event} (hs : Typed P s) (hV : P.typeOf V = .int w)
    (hw : ∀ S, s.intRanges (getRetId L P F) = some S → S.width = w)
    (hx : Known L P callees taints s (P.inst i).parent V x)
    (h : visitReturnInst L P callees taints F i (some V) s = .ok r)
    (hc : r.changed = false) : Covers s.intRanges (getRetId L P F) x := by
  simp only [visitReturnInst] at h
  rw [if_pos (by rw [hV]; rfl)] at h
  exact withQuery_covers hL (fun _ _ => rfl) hs hV hw hx h hc

/-- Where a loop that reports nothing runs its body. -/
theorem forEach_at_quiet {ι : Type} {f : ι → Pass State Event} {xs : List ι} {y : ι}
    {r : Report State Event} (h : forEach f xs s = .ok r) (hc : r.changed = false)
    (hy : y ∈ xs) : ∃ ys a r', forEach f ys s = .ok a ∧ a.changed = false ∧
      f y a.state = .ok r' ∧ r'.changed = false := by
  obtain ⟨ys, ys', rfl⟩ := List.append_of_mem hy
  obtain ⟨a, b, ha, hca, hb, hcb, -⟩ := forEach_append_quiet h hc
  obtain ⟨c, d, hfy, -, rfl⟩ := Pass.seq_eq_ok.mp hb
  rw [Report.andThen_changed, Bool.or_eq_false_iff] at hcb
  exact ⟨ys, a, c, ha, hca, hfy, hcb.1⟩

theorem passArgument_typed (hL : L.ranges.UnionLaws) (BB : BlockId) (f : FuncId)
    (arg : Value × ℕ) :
    AlwaysJoins P (fun _ _ => True) (passArgument L P callees taints BB f arg) := by
  unfold passArgument
  split
  · rename_i hint
    obtain ⟨w, hw⟩ := exists_of_isIntegerTy hint
    exact .withQuery (getRange_int hL hw) fun _ _ => .union trivial
  · exact .idle

/-- Passing the arguments of a call keeps typed maps. -/
theorem passArguments_typed (hL : L.ranges.UnionLaws) (BB : BlockId) (f : FuncId)
    (args : List (Value × ℕ)) : AlwaysJoins P (fun _ _ => True)
      (if skipsCallee P f then fun s => .ok (.idle s)
        else forEach (passArgument L P callees taints BB f) args) := by
  split
  · exact .idle
  · exact .forEach fun arg _ => passArgument_typed hL BB f arg

section Call

variable {i : InstId} {args : List Value} {CEEs : FuncSet} {r : Report State Event}

/-- The two parts of `visitCallInst`. -/
theorem visitCallInst_eq_ok (hasm : P.isInlineAsm i = false) (hcallees : callees i = some CEEs)
    (h : visitCallInst L P callees taints i args s = .ok r) (hc : r.changed = false) :
    ∃ a b, forEach (fun f => if skipsCallee P f then fun s => .ok (.idle s)
        else forEach (passArgument L P callees taints (P.inst i).parent f) args.zipIdx)
          (L.elements CEEs) s = .ok a ∧ a.changed = false ∧
      (if (P.inst i).ty.isIntegerTy then
        withQuery (getRange L P callees taints (P.inst i).parent (.inst i))
          (unionRange L (getCallRetId L P i))
      else fun s => .ok (.idle s)) a.state = .ok b ∧ b.changed = false := by
  simp only [visitCallInst, hasm, Bool.false_eq_true, if_false, hcallees] at h
  obtain ⟨a, b, ha, hb, rfl⟩ := Pass.seq_eq_ok.mp h
  rw [Report.andThen_changed, Bool.or_eq_false_iff] at hc
  exact ⟨a, b, ha, hc.1, hb, hc.2⟩

/-- An argument that is passed to a possible callee. The call joins the range of the argument to
that of the parameter, for each callee that is not skipped. -/
theorem visitCallInst_covers_argument (hL : L.ranges.UnionLaws) {f : FuncId} {arg : Value × ℕ}
    (hs : Typed P s) (hasm : P.isInlineAsm i = false) (hcallees : callees i = some CEEs)
    (hf : f ∈ CEEs) (hskip : skipsCallee P f = false) (harg : arg ∈ args.zipIdx)
    (hV : P.typeOf arg.1 = .int w)
    (hw : ∀ S, s.intRanges (getArgId L P f arg.2) = some S → S.width = w)
    (hx : Known L P callees taints s (P.inst i).parent arg.1 x)
    (h : visitCallInst L P callees taints i args s = .ok r) (hc : r.changed = false) :
    Covers s.intRanges (getArgId L P f arg.2) x := by
  obtain ⟨a, b, ha, hca, -, -⟩ := visitCallInst_eq_ok hasm hcallees h hc
  obtain ⟨fs, u, q, hu, hcu, hq, hcq⟩ :=
    forEach_at_quiet ha hca ((L.mem_elements CEEs f).mpr hf)
  rw [hskip, if_neg Bool.false_ne_true] at hq
  obtain ⟨args', v, q', hv, hcv, hq', hcq'⟩ := forEach_at_quiet hq hcq harg
  -- what was visited before only looks up
  have htouches : Touches L P callees taints (fun _ => False) s v.state :=
    .trans (Quiet.forEach (fun f _ => passArguments_quiet hL _ f _) s u hu hcu)
      (Quiet.forEach (fun arg _ => passArgument_quiet hL _ f arg) u.state v hv hcv)
  have htyped : Typed P v.state :=
    (AlwaysJoins.forEach (fun arg _ => passArgument_typed hL _ f arg) u.state v hv
      (AlwaysJoins.forEach (fun f _ => passArguments_typed hL _ f _) s u hu hs).1).1
  rw [passArgument, if_pos (by rw [hV]; rfl)] at hq'
  rw [← htouches.intRanges] at hw ⊢
  exact withQuery_covers hL (f := fun _ t => t) (fun _ _ => rfl) htyped hV hw
    (hx.touches hL id htouches) hq' hcq'

theorem visitCallInst_covers_result (hL : L.ranges.UnionLaws) (hs : Typed P s)
    (hasm : P.isInlineAsm i = false) (hcallees : callees i = some CEEs)
    (hty : (P.inst i).ty = .int w)
    (hw : ∀ S, s.intRanges (getCallRetId L P i) = some S → S.width = w)
    (hx : Known L P callees taints s (P.inst i).parent (.inst i) x)
    (h : visitCallInst L P callees taints i args s = .ok r) (hc : r.changed = false) :
    Covers s.intRanges (getCallRetId L P i) x := by
  obtain ⟨a, b, ha, hca, hb, hcb⟩ := visitCallInst_eq_ok hasm hcallees h hc
  have htouches : Touches L P callees taints (fun _ => False) s a.state :=
    Quiet.forEach (fun f _ => passArguments_quiet hL _ f _) s a ha hca
  have htyped : Typed P a.state :=
    (AlwaysJoins.forEach (fun f _ => passArguments_typed hL _ f _) s a ha hs).1
  have hV : P.typeOf (.inst i) = .int w := hty
  rw [hty] at hb
  rw [← htouches.intRanges] at hw ⊢
  exact withQuery_covers hL (f := fun _ t => t) (fun _ _ => rfl) htyped hV hw
    (hx.touches hL id htouches) hb hcb

end Call

end Pass

end Kint.Range
