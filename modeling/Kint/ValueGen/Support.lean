import Kint.LLVM.SSA
import Kint.ValueGen.Correct

/-!
# What a term depends on

The term of a value depends on the value and on what it is computed from: its operands, their
operands and so on, but not what flows into a phi node (`term_readsOnly`).  What `ValueGen`
assumes on the way are the conditions of range metadata (`analyze_assumes`).  Both are read off
one lemma about a visit.

## Operands

`Operand` is the relation of a value to what it is computed from in one step, and `Below` its
reflexive and transitive closure.  A phi node has no operands in this sense: its name is a leaf,
and what it holds was decided by the edge that was taken.

## Reading a set of names

`ReadsOnly S E` says that the value of `E` is the same under assignments that agree on `S`.
This is about values and not about variables that occur, so it is kept by every operator of the
solver for the same reason: the value of the result is computed from the values of the operands
(`ReadsOnly.zip` for two of them).

## One visit

The lemmas with `_ensures` say of a visitor: if each answer of `get` reads names of `S` only,
then so does the result, if the value itself is in `S`, and what is assumed are range
conditions.  They follow the code of the visitors.  `analyze_ensures` puts them together, and
the induction on the depth of calls is that of `Kint.Memo`.
-/

namespace Kint

/-- The operands of a constant expression. -/
def ConstantExpr.operands : ConstantExpr → List Value
  | cast _ v _ => [v]
  | binary _ lhs rhs _ => [lhs, rhs]
  | gep base idx _ => base :: idx
  | other _ => []

namespace ValueGen

open Iteration Memo SMT Calls

/-- An operand of an instruction other than a phi node, or of a constant expression. -/
inductive Operand (P : Program) : Value → Value → Prop
  | inst {i : InstId} {U : Value} : (P.inst i).op.isPhi = false →
      U ∈ (P.inst i).op.operands → Operand P (.inst i) U
  | const {c : ConstId} {U : Value} : U ∈ (P.const c).operands → Operand P (.constExpr c) U

/-- `U` is `V` or what `V` is computed from. -/
def Below (P : Program) (V U : Value) : Prop := Relation.ReflTransGen (Operand P) V U

/-- The value of an expression is determined by the names that satisfy `S`. -/
def ReadsOnly (S : Value → Prop) (E : SMTExpr Value) : Prop :=
  ∀ σ σ' : Assignment Value, (∀ U, S U → σ U = σ' U) → E.eval σ = E.eval σ'

section Operations

variable {S S' : Value → Prop} {E L R C : SMTExpr Value} {e : Term Value 1}

/-- What reads a set of names reads every larger one. -/
theorem ReadsOnly.mono (h : ReadsOnly S E) (hS : ∀ U, S U → S' U) : ReadsOnly S' E :=
  fun σ σ' hσ => h σ σ' fun U hU => hσ U (hS U hU)

theorem readsOnly_top : ReadsOnly (fun _ => True) E := by
  intro σ σ' hσ
  have heq : σ = σ' := funext fun U => hσ U trivial
  rw [heq]

theorem readsOnly_mk {w : ℕ} {e : Term Value w} : ReadsOnly S ⟨w, e⟩ ↔
    ∀ σ σ' : Assignment Value, (∀ U, S U → σ U = σ' U) → e.eval σ = e.eval σ' := by
  refine forall_congr' fun σ => forall_congr' fun σ' => imp_congr_right fun _ => ?_
  rw [SMTExpr.eval_mk, SMTExpr.eval_mk]
  constructor
  · intro h
    exact eq_of_heq (APInt.mk.inj h).2
  · intro h
    rw [h]

theorem readsOnly_bvconst {c : APInt} : ReadsOnly S (.bvconst c) := fun _ _ _ => rfl

theorem readsOnly_bvvar {w : ℕ} {V : Value} (h : S V) : ReadsOnly S (.bvvar w V) :=
  readsOnly_mk.mpr fun _ _ hσ => congrFun (hσ V h) w

/-- A formula that depends on `S` is true under both of two assignments that agree
there, or under none. -/
theorem ReadsOnly.holds (h : ReadsOnly S (.ofFormula e)) {σ σ' : Assignment Value}
    (hσ : ∀ U, S U → σ U = σ' U) : e.Holds σ ↔ e.Holds σ' := by
  unfold Term.Holds
  rw [readsOnly_mk.mp h σ σ' hσ]

theorem ReadsOnly.zip {α : Type} {f : (w : ℕ) → Term Value w → Term Value w → α} {a : α}
    {g : α → SMTExpr Value} (hL : ReadsOnly S L) (hR : ReadsOnly S R)
    (hf : ∀ (w : ℕ) (x y : Term Value w), ReadsOnly S ⟨w, x⟩ → ReadsOnly S ⟨w, y⟩ →
      ReadsOnly S (g (f w x y)))
    (h : SMTExpr.zip f L R = .ok a) : ReadsOnly S (g a) := by
  obtain ⟨w, x, y, rfl, rfl, rfl⟩ := SMTExpr.zip_eq_ok.mp h
  exact hf w x y hL hR

/-- Binary operators read what their operands read. -/
theorem ReadsOnly.binary {op : BinaryOp} (hL : ReadsOnly S L) (hR : ReadsOnly S R)
    (h : L.binary op R = .ok E) : ReadsOnly S E := by
  refine hL.zip (g := id) hR (fun w x y hx hy => readsOnly_mk.mpr fun σ σ' hσ => ?_) h
  rw [Term.eval, Term.eval, readsOnly_mk.mp hx σ σ' hσ, readsOnly_mk.mp hy σ σ' hσ]

theorem ReadsOnly.cmp {op : Cmp} (hL : ReadsOnly S L) (hR : ReadsOnly S R)
    (h : L.cmp op R = .ok e) : ReadsOnly S (.ofFormula e) := by
  refine hL.zip (g := .ofFormula) hR (fun w x y hx hy => readsOnly_mk.mpr fun σ σ' hσ => ?_) h
  rw [Term.eval, Term.eval, readsOnly_mk.mp hx σ σ' hσ, readsOnly_mk.mp hy σ σ' hσ]

/-- Overflow predicates read what their operands read. -/
theorem ReadsOnly.overflow {op : OverflowOp} (hL : ReadsOnly S L) (hR : ReadsOnly S R)
    (h : L.overflow op R = .ok e) : ReadsOnly S (.ofFormula e) := by
  refine hL.zip (g := .ofFormula) hR (fun w x y hx hy => readsOnly_mk.mpr fun σ σ' hσ => ?_) h
  rw [Term.eval, Term.eval, readsOnly_mk.mp hx σ σ' hσ, readsOnly_mk.mp hy σ σ' hσ]

theorem ReadsOnly.formula (hE : ReadsOnly S E) (h : E.formula = .ok e) :
    ReadsOnly S (.ofFormula e) := by
  obtain rfl := SMTExpr.formula_eq_ok.mp h
  exact hE

/-- Conditional terms read what their parts read. -/
theorem ReadsOnly.ite (hC : ReadsOnly S C) (hL : ReadsOnly S L) (hR : ReadsOnly S R)
    (h : C.ite L R = .ok E) : ReadsOnly S E := by
  obtain ⟨c, hc, h⟩ := bind_eq_ok.mp h
  have hc' := hC.formula hc
  refine hL.zip (g := id) hR (fun w x y hx hy => readsOnly_mk.mpr fun σ σ' hσ => ?_) h
  rw [Term.eval, Term.eval, readsOnly_mk.mp hc' σ σ' hσ, readsOnly_mk.mp hx σ σ' hσ,
    readsOnly_mk.mp hy σ σ' hσ]

theorem ReadsOnly.extract {high low : ℕ} (hE : ReadsOnly S E)
    (h : E.extract high low = .ok L) : ReadsOnly S L := by
  obtain ⟨w, x⟩ := E
  unfold SMTExpr.extract at h
  split at h
  · obtain rfl := Except.ok.inj h
    refine readsOnly_mk.mpr fun σ σ' hσ => ?_
    rw [Term.eval, Term.eval, readsOnly_mk.mp hE σ σ' hσ]
  · cases h

/-- Extensions by zeros read what the term reads. -/
theorem ReadsOnly.zeroExtend {i : ℕ} (hE : ReadsOnly S E) : ReadsOnly S (E.zeroExtend i) := by
  obtain ⟨w, x⟩ := E
  refine readsOnly_mk.mpr fun σ σ' hσ => ?_
  rw [Term.eval, Term.eval, readsOnly_mk.mp hE σ σ' hσ]

/-- Extensions by the sign read what the term reads. -/
theorem ReadsOnly.signExtend {i : ℕ} (hE : ReadsOnly S E) : ReadsOnly S (E.signExtend i) := by
  obtain ⟨w, x⟩ := E
  refine readsOnly_mk.mpr fun σ σ' hσ => ?_
  rw [Term.eval, Term.eval, readsOnly_mk.mp hE σ σ' hσ]

theorem readsOnly_bvtrue : ReadsOnly S (.ofFormula .bvtrue) := fun _ _ _ => rfl

theorem readsOnly_bvfalse : ReadsOnly S (.ofFormula .bvfalse) := fun _ _ _ => rfl

theorem ReadsOnly.bvnot (h : ReadsOnly S (.ofFormula e)) :
    ReadsOnly S (.ofFormula (.bvnot e)) := by
  refine readsOnly_mk.mpr fun σ σ' hσ => ?_
  rw [Term.bvnot, Term.eval, Term.eval, readsOnly_mk.mp h σ σ' hσ]

theorem ReadsOnly.bvand {e' : Term Value 1} (h : ReadsOnly S (.ofFormula e))
    (h' : ReadsOnly S (.ofFormula e')) : ReadsOnly S (.ofFormula (.bvand e e')) := by
  refine readsOnly_mk.mpr fun σ σ' hσ => ?_
  rw [Term.bvand, Term.eval, Term.eval, readsOnly_mk.mp h σ σ' hσ,
    readsOnly_mk.mp h' σ σ' hσ]

theorem ReadsOnly.bvor {e' : Term Value 1} (h : ReadsOnly S (.ofFormula e))
    (h' : ReadsOnly S (.ofFormula e')) : ReadsOnly S (.ofFormula (.bvor e e')) := by
  refine readsOnly_mk.mpr fun σ σ' hσ => ?_
  rw [Term.bvor, Term.eval, Term.eval, readsOnly_mk.mp h σ σ' hσ,
    readsOnly_mk.mp h' σ σ' hσ]

end Operations

/-! ## One visit -/

section Visit

variable {DL : DataLayout} {P : Program} {intrange : InstId → Option (List (APInt × APInt))}
  {A : Value → SMTExpr Value → Prop} {W : Term Value 1 → Prop} {S : Value → Prop}
  {V : Value} {i : InstId}

variable (A S) in
/-- An answer for `U` depends on `S`. -/
def Asks (U : Value) : Prop := ∀ E, A U E → ReadsOnly S E

variable (DL P intrange) in
/-- `Cond` is assumed for the range metadata of instruction `i`. -/
def Assumes (i : InstId) (Cond : Term Value 1) : Prop :=
  ∃ MD w Lo Hi, intrange i = some MD ∧ (Lo, Hi) ∈ MD ∧ Lo ≠ Hi ∧
    typeSizeInBits DL (P.typeOf (.inst i)) = some w ∧
    rangeCondition (.bvvar w (.inst i)) Lo Hi = .ok Cond

theorem getBitWidth_ensures {Q : ℕ → Prop}
    (h : ∀ w, typeSizeInBits DL (P.typeOf V) = some w → Q w) :
    (getBitWidth DL P V).Ensures A W Q := by
  unfold getBitWidth
  cases hw : typeSizeInBits DL (P.typeOf V) with
  | none => trivial
  | some w => exact h w hw

theorem mkFresh_ensures (hV : S V) : (mkFresh DL P V).Ensures A W (ReadsOnly S) := by
  unfold mkFresh
  rw [ensures_bind]
  exact getBitWidth_ensures fun w _ => readsOnly_bvvar hV

/-- What is assumed are the conditions of ranges. -/
theorem addRangeConstraints_ensures {E : SMTExpr Value} {MD : List (APInt × APInt)}
    (h : ∀ Lo Hi, (Lo, Hi) ∈ MD → Lo ≠ Hi → ∀ Cond, rangeCondition E Lo Hi = .ok Cond →
      W Cond) : (addRangeConstraints E MD).Ensures A W fun _ => True := by
  induction MD with
  | nil => trivial
  | cons r MD ih =>
    obtain ⟨Lo, Hi⟩ := r
    have hrest := ih fun Lo Hi hmem => h Lo Hi (List.mem_cons_of_mem _ hmem)
    unfold addRangeConstraints
    split
    · exact hrest
    · rename_i hne
      simp only [ensures_bind, ensures_lift, ensures_output]
      exact fun Cond hCond => ⟨h Lo Hi List.mem_cons_self hne Cond hCond, hrest⟩

theorem visitInstruction_ensures (hV : S (.inst i))
    (hW : ∀ Cond, Assumes DL P intrange i Cond → W Cond) :
    (visitInstruction DL P intrange i).Ensures A W (ReadsOnly S) := by
  unfold visitInstruction mkFresh
  simp only [ensures_bind]
  refine getBitWidth_ensures fun w hw => ?_
  rw [ensures_pure]
  split
  · rename_i MD hMD
    rw [ensures_bind]
    refine (addRangeConstraints_ensures fun Lo Hi hmem hne Cond hCond => ?_).mono
      fun _ _ => readsOnly_bvvar hV
    exact hW Cond ⟨MD, w, Lo, Hi, hMD, hmem, hne, hw, hCond⟩
  · exact readsOnly_bvvar hV

theorem visitBinaryOperator_ensures {op : BinaryOp} {lhs rhs : Value} (hl : Asks A S lhs)
    (hr : Asks A S rhs) : (visitBinaryOperator op lhs rhs).Ensures A W (ReadsOnly S) := by
  simp only [visitBinaryOperator, ensures_bind, ensures_ask, ensures_lift]
  exact fun L hL R hR E hE => (hl L hL).binary (hr R hR) hE

theorem visitICmpInst_ensures {pred : ICmpPredicate} {lhs rhs : Value} (hl : Asks A S lhs)
    (hr : Asks A S rhs) : (visitICmpInst pred lhs rhs).Ensures A W (ReadsOnly S) := by
  simp only [visitICmpInst, ensures_bind, ensures_ask, ensures_lift, ensures_pure]
  exact fun L hL R hR e he => (hl L hL).cmp (hr R hR) he

theorem visitSelectInst_ensures {cond ifTrue ifFalse : Value} (hc : Asks A S cond)
    (ht : Asks A S ifTrue) (hf : Asks A S ifFalse) :
    (visitSelectInst cond ifTrue ifFalse).Ensures A W (ReadsOnly S) := by
  simp only [visitSelectInst, ensures_bind, ensures_ask, ensures_lift]
  exact fun C hC T hT F hF E hE => (hc C hC).ite (ht T hT) (hf F hF) hE

theorem visitExtractValueInst_ensures {agg : Value} {idx : ℕ} (hV : S (.inst i))
    (hcall : ∀ op lhs rhs, overflowCall? P agg = some (op, lhs, rhs) →
      Asks A S lhs ∧ Asks A S rhs) :
    (visitExtractValueInst DL P i agg idx).Ensures A W (ReadsOnly S) := by
  unfold visitExtractValueInst
  split
  · exact mkFresh_ensures hV
  · rename_i op lhs rhs heq
    obtain ⟨hl, hr⟩ := hcall op lhs rhs heq
    simp only [ensures_bind, ensures_ask]
    intro L hL R hR
    split
    · rw [ensures_lift]
      exact fun E hE => (hl L hL).binary (hr R hR) hE
    · simp only [ensures_bind, ensures_lift, ensures_pure]
      exact fun e he => (hl L hL).overflow (hr R hR) he
    · trivial

theorem visitTruncInst_ensures (hV : Asks A S V) :
    (visitTruncInst DL P i V).Ensures A W (ReadsOnly S) := by
  simp only [visitTruncInst, ensures_bind, ensures_ask, ensures_lift]
  exact getBitWidth_ensures fun w _ E hE E' hE' => (hV E hE).extract hE'

theorem visitZExtInst_ensures (hV : Asks A S V) :
    (visitZExtInst DL P i V).Ensures A W (ReadsOnly S) := by
  simp only [visitZExtInst, ensures_bind, ensures_ask, ensures_pure]
  refine getBitWidth_ensures fun w _ => getBitWidth_ensures fun w' _ E hE => ?_
  exact (hV E hE).zeroExtend

theorem visitSExtInst_ensures (hV : Asks A S V) :
    (visitSExtInst DL P i V).Ensures A W (ReadsOnly S) := by
  simp only [visitSExtInst, ensures_bind, ensures_ask, ensures_pure]
  refine getBitWidth_ensures fun w _ => getBitWidth_ensures fun w' _ E hE => ?_
  exact (hV E hE).signExtend

theorem visitPtrToIntInst_ensures (hV : Asks A S V) :
    (visitPtrToIntInst DL P i V).Ensures A W (ReadsOnly S) := by
  simp only [visitPtrToIntInst, ensures_bind, ensures_ask]
  refine fun E hE => getBitWidth_ensures fun w _ => getBitWidth_ensures fun w' _ => ?_
  split
  · exact (hV E hE).zeroExtend
  · split
    · rw [ensures_lift]
      exact fun E' hE' => (hV E hE).extract hE'
    · exact hV E hE

theorem visitBitCastInst_ensures (hi : S (.inst i)) (hV : Asks A S V) :
    (visitBitCastInst DL P i V).Ensures A W (ReadsOnly S) := by
  unfold visitBitCastInst
  split
  · exact fun E hE => hV E hE
  · exact mkFresh_ensures hi

/-- A resized index reads what the index reads. -/
theorem resizeIndex_readsOnly {E E' : SMTExpr Value} (hE : ReadsOnly S E)
    (h : resizeIndex DL E = .ok E') : ReadsOnly S E' := by
  unfold resizeIndex at h
  split at h
  · split at h
    · obtain rfl := Except.ok.inj h
      exact hE.signExtend
    · exact hE.extract h
  · obtain rfl := Except.ok.inj h
    exact hE

/-- The offset of an index reads what the index reads. -/
theorem addIndex_ensures {ty : Ty} {Offset : SMTExpr Value} (hV : Asks A S V)
    (hO : ReadsOnly S Offset) : (addIndex DL P ty V Offset).Ensures A W (ReadsOnly S) := by
  unfold addIndex
  split
  · trivial
  · simp only [ensures_bind, ensures_ask, ensures_lift]
    intro E hE E' hE' M hM E'' hE''
    exact hO.binary ((resizeIndex_readsOnly (hV E hE) hE').binary readsOnly_bvconst hM) hE''

theorem visitIndices_ensures {ty : Ty} {idx : List Value} {Offset : SMTExpr Value}
    {ConstOffset : BitVec DL.pointerSizeInBits} (hidx : ∀ U ∈ idx, Asks A S U)
    (hO : ReadsOnly S Offset) :
    (visitIndices DL P ty idx Offset ConstOffset).Ensures A W (ReadsOnly S) := by
  induction idx generalizing ty Offset ConstOffset with
  | nil =>
    unfold visitIndices
    split
    · exact hO
    · rw [ensures_lift]
      exact fun E hE => hO.binary readsOnly_bvconst hE
  | cons U idx ih =>
    have hidx' : ∀ U ∈ idx, Asks A S U := fun U hU => hidx U (List.mem_cons_of_mem _ hU)
    unfold visitIndices
    split
    · split
      · exact ih hidx' hO
      · exact ih hidx' hO
    · rw [ensures_bind]
      exact (addIndex_ensures (hidx U List.mem_cons_self) hO).mono fun E hE => ih hidx' hE

theorem visitGEPOperator_ensures {base : Value} {idx : List Value}
    (h : ∀ U ∈ base :: idx, Asks A S U) :
    (visitGEPOperator DL P base idx).Ensures A W (ReadsOnly S) := by
  simp only [visitGEPOperator, ensures_bind, ensures_ask]
  intro E hE
  exact visitIndices_ensures (fun U hU => h U (List.mem_cons_of_mem _ hU))
    (h base List.mem_cons_self E hE)

/-- The arguments of an intrinsic call are below what extracts from its result. -/
theorem overflowCall_operand {agg lhs rhs : Value} {op : OverflowOp}
    (hagg : Operand P (.inst i) agg) (h : overflowCall? P agg = some (op, lhs, rhs)) :
    Relation.TransGen (Operand P) (.inst i) lhs ∧ Relation.TransGen (Operand P) (.inst i) rhs := by
  unfold overflowCall? at h
  split at h
  · rename_i j
    split at h
    · rename_i f l r args hop
      obtain ⟨op', -, heq⟩ := Option.map_eq_some_iff.mp h
      obtain ⟨-, rfl, rfl⟩ : op' = op ∧ l = lhs ∧ r = rhs := by simpa using heq
      have hphi : (P.inst j).op.isPhi = false := by rw [hop]; rfl
      have hl : Operand P (.inst j) l := .inst hphi (by rw [hop]; simp [Opcode.operands])
      have hr : Operand P (.inst j) r := .inst hphi (by rw [hop]; simp [Opcode.operands])
      exact ⟨.tail (.single hagg) hl, .tail (.single hagg) hr⟩
    · cases h
  · cases h

/-- Instructions read what they are computed from. The cases follow the dispatch of the source: a
visitor of its own, or a fresh variable with the conditions of its metadata. -/
theorem visit_ensures (hV : S (.inst i)) (hbelow : ∀ U, Below P (.inst i) U → Asks A S U)
    (hW : ∀ Cond, Assumes DL P intrange i Cond → W Cond) :
    (visit DL P intrange i).Ensures A W (ReadsOnly S) := by
  have hop : ∀ U, (P.inst i).op.isPhi = false → U ∈ (P.inst i).op.operands → Asks A S U :=
    fun U hphi hU => hbelow U (.single (.inst hphi hU))
  unfold visit
  split
  · rename_i U h
    exact visitTruncInst_ensures (hop U (by rw [h]; rfl) (by simp [h, Opcode.operands]))
  · rename_i U h
    exact visitZExtInst_ensures (hop U (by rw [h]; rfl) (by simp [h, Opcode.operands]))
  · rename_i U h
    exact visitSExtInst_ensures (hop U (by rw [h]; rfl) (by simp [h, Opcode.operands]))
  · rename_i U h
    exact visitBitCastInst_ensures hV (hop U (by rw [h]; rfl) (by simp [h, Opcode.operands]))
  · rename_i U h
    exact visitPtrToIntInst_ensures (hop U (by rw [h]; rfl) (by simp [h, Opcode.operands]))
  · rename_i op lhs rhs h
    exact visitBinaryOperator_ensures (hop lhs (by rw [h]; rfl) (by simp [h, Opcode.operands]))
      (hop rhs (by rw [h]; rfl) (by simp [h, Opcode.operands]))
  · rename_i pred lhs rhs h
    exact visitICmpInst_ensures (hop lhs (by rw [h]; rfl) (by simp [h, Opcode.operands]))
      (hop rhs (by rw [h]; rfl) (by simp [h, Opcode.operands]))
  · rename_i cond ifTrue ifFalse h
    exact visitSelectInst_ensures (hop cond (by rw [h]; rfl) (by simp [h, Opcode.operands]))
      (hop ifTrue (by rw [h]; rfl) (by simp [h, Opcode.operands]))
      (hop ifFalse (by rw [h]; rfl) (by simp [h, Opcode.operands]))
  · rename_i agg idx h
    have hagg : Operand P (.inst i) agg :=
      .inst (by rw [h]; rfl) (by simp [h, Opcode.operands])
    refine visitExtractValueInst_ensures hV fun op lhs rhs hcall => ?_
    obtain ⟨hl, hr⟩ := overflowCall_operand hagg hcall
    exact ⟨hbelow lhs hl.to_reflTransGen, hbelow rhs hr.to_reflTransGen⟩
  · rename_i base idx h
    exact visitGEPOperator_ensures fun U hU =>
      hop U (by rw [h]; rfl) (by simpa [h, Opcode.operands] using hU)
  · exact visitInstruction_ensures hV hW

/-- Constant expressions read what they are computed from. -/
theorem visitConstant_ensures (hV : S V) (hbelow : ∀ U, Below P V U → Asks A S U) :
    (visitConstant DL P V).Ensures A W (ReadsOnly S) := by
  unfold visitConstant
  split
  · exact readsOnly_bvconst
  · rw [ensures_bind]
    exact getBitWidth_ensures fun w _ => readsOnly_bvconst
  · rename_i c
    split
    · rename_i base idx ty hc
      refine visitGEPOperator_ensures fun U hU => hbelow U (.single (.const ?_))
      rw [hc]
      exact hU
    · exact mkFresh_ensures hV
  · exact mkFresh_ensures hV

/-- One visit: its result depends on what its calls depend on and on the value
itself, and it assumes range conditions only. -/
theorem analyze_ensures (hV : S V) (hbelow : ∀ U, Below P V U → Asks A S U)
    (hW : ∀ i Cond, Assumes DL P intrange i Cond → W Cond) :
    (analyze DL P intrange V).Ensures A W (ReadsOnly S) := by
  unfold analyze
  split
  · split
    · exact visit_ensures hV hbelow (hW _)
    · split
      · exact visitConstant_ensures hV hbelow
      · exact mkFresh_ensures hV
  · trivial

/-- The term of a value depends on the value and what it is computed from. -/
theorem term_readsOnly {E : SMTExpr Value} (h : TermOf DL P intrange V E) :
    ReadsOnly (Below P V) E := by
  refine Value.ensures (A := fun V E => ReadsOnly (Below P V) E) (W := fun _ => True)
    (fun V => ?_) h
  refine analyze_ensures .refl (fun U hU E hE => ?_) fun _ _ _ => trivial
  exact hE.mono fun U' hU' => hU.trans hU'

/-- What `ValueGen` assumes are range conditions. -/
theorem analyze_assumes (V : Value) : (analyze DL P intrange V).Ensures (fun _ _ => True)
    (fun Cond => ∃ i, Assumes DL P intrange i Cond) fun _ => True := by
  have h : (analyze DL P intrange V).Ensures (fun _ _ => True)
      (fun Cond => ∃ i, Assumes DL P intrange i Cond) (ReadsOnly fun _ => True) :=
    analyze_ensures trivial (fun U _ E _ => readsOnly_top) fun i Cond hCond => ⟨i, hCond⟩
  exact h.mono fun _ _ => trivial

end Visit

end ValueGen

end Kint
