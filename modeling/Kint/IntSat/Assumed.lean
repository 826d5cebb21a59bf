import Kint.IntSat.Pass
import Kint.Memo.Trace
import Kint.PathGen.Exact

/-!
# What is assumed when a query is made

`ValueGen` assumes the range metadata of an instruction when it makes a fresh variable for it.
So when the operands of a query have been made, in either order, the assumed formulas are the
range conditions of the instructions that the condition or the path condition depends on, and no
others (`operands_assumed`).

## From one visit to the table

A formula is assumed by the visit of one instruction (`visit_emits`), and a visit that ends has
assumed all conditions of its instruction (`visit_emitted`).  The tables grow by one entry for
each visit.  So at any time the assumed formulas are those of the instructions in the table
(`assumed_iff`), whatever the order in which the entries came there.  The general part of this,
which keys are in a table after a call, is that of `Kint.Memo.Trace`.

## The instructions that matter

* `readsRange`: the instructions whose metadata is read at all: those for which the visitor
  makes a fresh variable.
* `RangesHold`: the names of a set of these hold numbers in their ranges.
* `QueryNeeds`: the keys that the condition or the path condition depends on.

The order in which the two operands of a query are made is not fixed by the language, and it
does not matter: both orders leave the same keys (`traced_twice`).
-/

namespace Kint.IntSat

open Iteration Memo SMT PathGen ValueGen Calls

variable {DL : DataLayout} {P : Program} {intrange : InstId → Option (List (APInt × APInt))}
  {Backedges : List (BlockId × BlockId)} {DT : Option (BlockId → BlockId → BlockId)}
  {σ : Assignment Value} {V : Value} {BB : BlockId} {i : InstId} {Cond : Term Value 1}

/-! ## One visit -/

variable (P) in
/-- The visitor falls through to `visitInstruction`, which reads range metadata. -/
def readsRange (i : InstId) : Bool :=
  match (P.inst i).op with
  | .cast .inttoptr _ | .cast .floating _ => true
  | .cast _ _ | .binary .. | .icmp .. | .select .. | .extractValue .. | .gep .. => false
  | _ => true

/-- For these instructions a fresh variable is made. -/
theorem visit_of_readsRange (h : readsRange P i = true) :
    visit DL P intrange i = visitInstruction DL P intrange i := by
  unfold readsRange at h
  unfold visit
  cases hop : (P.inst i).op with
  | cast op V => cases op <;> first | rfl | (rw [hop] at h; cases h)
  | _ => first | rfl | (rw [hop] at h; cases h)

/-- Other instructions are translated without a look at the metadata. -/
theorem visit_of_not_readsRange (h : readsRange P i = false) :
    visit DL P intrange i = visit DL P (fun _ => none) i := by
  unfold readsRange at h
  unfold visit
  cases hop : (P.inst i).op with
  | cast op V => cases op <;> first | rfl | (rw [hop] at h; cases h)
  | _ => first | rfl | (rw [hop] at h; cases h)

/-- Renaming the keys changes nothing of what is assumed. -/
theorem emits_mapKey {κ κ' ρ ω α : Type} {g : κ' → κ} {body : κ → Calls κ ρ ω ρ}
    {body' : κ' → Calls κ' ρ ω ρ} (h : ∀ k r, Memo.Value body (g k) r ↔ Memo.Value body' k r)
    {p : Calls κ' ρ ω α} {w : ω} : (p.mapKey g).Emits body w ↔ p.Emits body' w := by
  induction p with
  | ret a => rfl
  | stop => rfl
  | call k next ih => exact exists_congr fun r => and_congr (h k r) (ih r)
  | emit w' next ih => exact or_congr_right ih

/-- When the loop ends, it has emitted the condition of each range. By induction on the ranges; a
range whose bounds agree has no condition. -/
theorem addRangeConstraints_emitted {body : Value → ValueGen.Visit (SMTExpr Value)}
    {E : SMTExpr Value} {MD : List (APInt × APInt)}
    (h : Yields body (addRangeConstraints E MD) ()) {Lo Hi : APInt} (hmem : (Lo, Hi) ∈ MD)
    (hne : Lo ≠ Hi) : ∃ Cond, rangeCondition E Lo Hi = .ok Cond ∧
      (addRangeConstraints E MD).Emits body Cond := by
  induction MD with
  | nil => cases hmem
  | cons r MD ih =>
    obtain ⟨Lo', Hi'⟩ := r
    unfold addRangeConstraints at h ⊢
    by_cases heq : Lo' = Hi'
    · rw [if_pos heq] at h ⊢
      rcases List.mem_cons.mp hmem with hhead | hmem
      · obtain ⟨rfl, rfl⟩ := Prod.mk.inj hhead
        exact absurd heq hne
      · exact ih h hmem
    · rw [if_neg heq] at h ⊢
      obtain ⟨C, hC, h⟩ := yields_bind.mp h
      obtain ⟨u, hu, h⟩ := yields_bind.mp h
      have hC' := yields_lift.mp hC
      simp only [emits_bind, emits_lift, false_or, yields_lift, emits_output]
      rcases List.mem_cons.mp hmem with hhead | hmem
      · obtain ⟨rfl, rfl⟩ := Prod.mk.inj hhead
        exact ⟨C, hC', C, hC', .inl rfl⟩
      · obtain ⟨Cond, hCond, hemits⟩ := ih h hmem
        exact ⟨Cond, hCond, C, hC', .inr ⟨u, hu, hemits⟩⟩

/-- What one visit emits are the range conditions of an instruction that reads them. Visits of other
instructions, and of constants, assume nothing. -/
theorem visit_emits {body : Value → ValueGen.Visit (SMTExpr Value)}
    (h : (ValueGen.analyze DL P intrange V).Emits body Cond) :
    ∃ i, V = .inst i ∧ readsRange P i = true ∧ Assumes DL P intrange i Cond := by
  have hasks : ∀ U, Asks (fun _ _ => True) (fun _ => True) U := fun _ _ _ => readsOnly_top
  have hemits : ∀ {W : Term Value 1 → Prop} {p : ValueGen.Visit (SMTExpr Value)},
      p.Ensures (fun _ _ => True) W (ReadsOnly fun _ => True) → p.Emits body Cond → W Cond :=
    fun hp => Calls.Ensures.emits (fun _ _ _ => trivial) hp
  unfold ValueGen.analyze at h
  split at h
  · split at h
    · rename_i i hty
      cases hreads : readsRange P i with
      | true => exact ⟨i, rfl, hreads, hemits (visit_ensures trivial (fun U _ => hasks U)
          fun _ hC => hC) h⟩
      | false =>
        rw [visit_of_not_readsRange hreads] at h
        refine (hemits (W := fun _ => False) (visit_ensures trivial (fun U _ => hasks U) ?_)
          h).elim
        rintro _ ⟨MD, -, -, -, hMD, -⟩
        cases hMD
    · refine (hemits (W := fun _ => False) ?_ h).elim
      split
      · exact visitConstant_ensures trivial fun U _ => hasks U
      · exact mkFresh_ensures trivial
  · exact h.elim

/-- An instruction that reads its metadata and has a term emits each range condition. -/
theorem visit_emitted {body : Value → ValueGen.Visit (SMTExpr Value)} {E : SMTExpr Value}
    (hE : Yields body (ValueGen.analyze DL P intrange (.inst i)) E)
    (hreads : readsRange P i = true) {MD : List (APInt × APInt)} (hMD : intrange i = some MD)
    {w : ℕ} (hw : typeSizeInBits DL (P.typeOf (.inst i)) = some w) {Lo Hi : APInt}
    (hmem : (Lo, Hi) ∈ MD) (hne : Lo ≠ Hi) :
    ∃ Cond, rangeCondition (.bvvar w (.inst i)) Lo Hi = .ok Cond ∧
      (ValueGen.analyze DL P intrange (.inst i)).Emits body Cond := by
  have hanalyze : ValueGen.analyze DL P intrange (.inst i) = visitInstruction DL P intrange i := by
    rw [ValueGen.analyze, if_pos (isAnalyzable_of_size hw)]
    exact visit_of_readsRange hreads
  rw [hanalyze] at hE ⊢
  have hfresh : Yields body (mkFresh DL P (.inst i)) (.bvvar w (.inst i)) :=
    ⟨0, by simp [mkFresh, eval_getBitWidth hw]⟩
  obtain ⟨E', hE', hE⟩ := yields_bind.mp hE
  obtain rfl := hfresh.unique hE'
  rw [hMD] at hE
  obtain ⟨⟨⟩, hranges, -⟩ := yields_bind.mp hE
  obtain ⟨Cond, hCond, hemits⟩ := addRangeConstraints_emitted hranges hmem hne
  refine ⟨Cond, hCond, emits_bind.mpr (.inr ⟨_, hfresh, ?_⟩)⟩
  rw [hMD]
  exact emits_bind.mpr (.inl hemits)

/-! ## The operands of a query -/

/-- What the body of a key emits are the range conditions of its instruction. -/
theorem analyze_emits {k : Key}
    (h : (PathGen.analyze DL P intrange Backedges DT k).Emits
      (PathGen.analyze DL P intrange Backedges DT) Cond) :
    ∃ i, k = .inl (.inst i) ∧ readsRange P i = true ∧ Assumes DL P intrange i Cond := by
  cases k with
  | inl V =>
    obtain ⟨i, rfl, hi⟩ := visit_emits ((emits_mapKey fun V r => value_inl_iff).mp h)
    exact ⟨i, rfl, hi⟩
  | inr BB =>
    have hens : (analyzeBlock P Backedges DT BB).Ensures (fun _ _ => True)
        (fun _ : Term Value 1 => False) fun _ => True := by
      unfold analyzeBlock
      split
      · trivial
      · split
        · split
          · exact fun _ _ => trivial
          · exact predGuard_ensures
        · exact predGuard_ensures
    exact (hens.emits (fun _ _ _ => trivial) h).elim

variable (DL P intrange) in
/-- The values of the instructions in `S` that read range metadata are in their ranges. -/
def RangesHold (S : InstId → Prop) (σ : Assignment Value) : Prop :=
  ∀ i, S i → readsRange P i = true → ∀ MD w, intrange i = some MD →
    typeSizeInBits DL (P.typeOf (.inst i)) = some w →
    ∀ Lo Hi, (Lo, Hi) ∈ MD → Lo ≠ Hi → CmpSat.InRange (σ (.inst i) w).toNat Lo Hi

/-- The assumed formulas are true just when the values of the instructions in the table
are in their ranges. -/
theorem assumed_iff {s : PathGen.State}
    (hs : Traced (PathGen.analyze DL P intrange Backedges DT) s) :
    (∀ a ∈ s.out, a.Holds σ) ↔
      RangesHold DL P intrange (fun i => s.cache (.inl (.inst i)) ≠ none) σ := by
  constructor
  · intro h i hi hreads MD w hMD hw Lo Hi hmem hne
    obtain ⟨E, hE⟩ := Option.ne_none_iff_exists'.mp hi
    have hvalue := value_iff_yields.mp (value_inl_iff.mp (hs.consistent _ E hE))
    obtain ⟨Cond, hCond, hemits⟩ := visit_emitted hvalue hreads hMD hw hmem hne
    refine (CmpSat.rangeCondition_holds hCond).mp (h Cond ((hs.out Cond).mpr ⟨_, hi, ?_⟩))
    exact (emits_mapKey fun V r => value_inl_iff).mpr hemits
  · intro h a ha
    obtain ⟨k, hk, hemits⟩ := (hs.out a).mp ha
    obtain ⟨i, rfl, hreads, MD, w, Lo, Hi, hMD, hmem, hne, hw, hrange⟩ := analyze_emits hemits
    exact (CmpSat.rangeCondition_holds hrange).mpr (h i hk hreads MD w hMD hw Lo Hi hmem hne)

variable (DL P intrange Backedges) in
/-- The condition that is passed, or the path condition, depends on the key. -/
def QueryNeeds (V : Value) (BB : BlockId) (k : Key) : Prop :=
  Needs (PathGen.analyze DL P intrange Backedges none) (.inl V) k ∨
    Needs (PathGen.analyze DL P intrange Backedges none) (.inr BB) k

/-- Without a dominator tree, everything is kept in the tables. -/
theorem keep_none (k : Key) : keep P Backedges none k = true := by
  cases k with
  | inl V => rfl
  | inr BB => simp [keep]

/-- Two calls from the empty table. -/
theorem traced_twice {n : ℕ} {k₁ k₂ : Key} {E₁ E₂ : SMTExpr Value} {t s : PathGen.State}
    (h₁ : PathGen.get DL P intrange Backedges none n k₁ .init = .ok (E₁, t))
    (h₂ : PathGen.get DL P intrange Backedges none n k₂ t = .ok (E₂, s)) :
    Memo.Value (PathGen.analyze DL P intrange Backedges none) k₁ E₁ ∧
    Memo.Value (PathGen.analyze DL P intrange Backedges none) k₂ E₂ ∧
    Traced (PathGen.analyze DL P intrange Backedges none) s ∧
    ∀ k, s.cache k ≠ none ↔ Needs (PathGen.analyze DL P intrange Backedges none) k₁ k ∨
      Needs (PathGen.analyze DL P intrange Backedges none) k₂ k := by
  obtain ⟨ht, hcache⟩ := traced_init.get keep_none h₁
  obtain ⟨hs, hcache'⟩ := ht.get keep_none h₂
  refine ⟨(get_sound consistent_init h₁).1, (get_sound ht.consistent h₂).1, hs, fun k => ?_⟩
  rw [hcache', hcache]
  exact or_congr_left (or_iff_right fun h => h rfl)

/-- The operands of a query are the formulas of the condition and of the block; the table
then has what they depend on; and what is assumed are the range conditions of the
instructions among these. -/
theorem operands_assumed {C : Config} {n : ℕ} {e g : Term Value 1} {s : PathGen.State}
    (h : operands DL P intrange Backedges C n V BB = .ok (e, g, s)) :
    Memo.Value (PathGen.analyze DL P intrange Backedges none) (.inl V) (.ofFormula e) ∧
    Memo.Value (PathGen.analyze DL P intrange Backedges none) (.inr BB) (.ofFormula g) ∧
    Consistent (PathGen.analyze DL P intrange Backedges none) s ∧
    (∀ k, s.cache k ≠ none ↔ QueryNeeds DL P intrange Backedges V BB k) ∧
    ∀ σ, (∀ a ∈ s.out, a.Holds σ) ↔
      RangesHold DL P intrange
        (fun i => QueryNeeds DL P intrange Backedges V BB (.inl (.inst i))) σ := by
  have hgets : ∃ E G, E.formula = .ok e ∧ G.formula = .ok g ∧
      Memo.Value (PathGen.analyze DL P intrange Backedges none) (.inl V) E ∧
      Memo.Value (PathGen.analyze DL P intrange Backedges none) (.inr BB) G ∧
      Traced (PathGen.analyze DL P intrange Backedges none) s ∧
      ∀ k, s.cache k ≠ none ↔ QueryNeeds DL P intrange Backedges V BB k := by
    unfold operands at h
    split at h
    · obtain ⟨⟨E, t⟩, hE, h⟩ := bind_eq_ok.mp h
      obtain ⟨⟨G, t'⟩, hG, h⟩ := bind_eq_ok.mp h
      obtain ⟨e', he, h⟩ := bind_eq_ok.mp h
      obtain ⟨g', hg, h⟩ := bind_eq_ok.mp h
      cases h
      obtain ⟨hV, hBB, hs, hcache⟩ := traced_twice hE hG
      exact ⟨E, G, he, hg, hV, hBB, hs, hcache⟩
    · obtain ⟨⟨G, t⟩, hG, h⟩ := bind_eq_ok.mp h
      obtain ⟨⟨E, t'⟩, hE, h⟩ := bind_eq_ok.mp h
      obtain ⟨e', he, h⟩ := bind_eq_ok.mp h
      obtain ⟨g', hg, h⟩ := bind_eq_ok.mp h
      cases h
      obtain ⟨hBB, hV, hs, hcache⟩ := traced_twice hG hE
      exact ⟨E, G, he, hg, hV, hBB, hs, fun k => (hcache k).trans or_comm⟩
  obtain ⟨E, G, he, hg, hV, hBB, hs, hcache⟩ := hgets
  obtain rfl := SMTExpr.formula_eq_ok.mp he
  obtain rfl := SMTExpr.formula_eq_ok.mp hg
  refine ⟨hV, hBB, hs.consistent, hcache, fun σ => ?_⟩
  rw [assumed_iff hs]
  simp only [hcache]

end Kint.IntSat
