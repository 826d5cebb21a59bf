import Kint.CmpSat
import Kint.ValueGen.Locality

/-!
# Terms denote what the names hold

In a loop a name holds the value of its last definition, while its operands may have been
defined again since.  In SSA form this does not happen to a name whose definition dominates the
current point: none of its operands is defined between its definition and its uses.  So in every
state of every run, each name that is defined there holds the value that the language gives it
from what its operands hold now (`Runs.settled`), and its term denotes this value
(`termOf_denotes_current`).

## Two values of a name

`HasValue` computes the value of a name from what the leaves hold; `Current` is what the name
itself holds, and for other values what is computed from names.  `meaning` and `current` are the
two as functions.  A state is *settled* if each name that is defined there holds what its
instruction computes from the current values of its operands (`Settled`).

## The induction on runs

* When an instruction runs, its own name becomes settled (`Means`), and the names that are
  computed from it are not defined at this point, since the order of uses follows dominance
  (`Settled.exec`).
* When an edge is taken, the phi nodes of the block change, and what is defined in a block that
  was entered is only its phi nodes (`isPhi_of_definedAt_enter`, `Settled.edge`).

## Order inside a block

`SSAForm` orders uses and definitions of different blocks.  Inside a block the order is that of
the instructions: `OrderedUses`, which `orderedUses_of` checks block by block.

The loop of `CmpSat` serves as the example: `recheck_second` follows its run into the second
round.
-/

namespace Kint.PathGen

open Iteration Memo SMT Calls ValueGen
open CmpSat (recheckProgram recheck_blocks recheck_ssaForm recheck_available)

section Machine

variable (DL : DataLayout) (P : Program)
  (Exec : InstId → Assignment Value → Assignment Value → Prop) (entry : BlockId)

open Classical in
/-- The value of `V` when the leaves have the values `σ`, if it has one. -/
noncomputable def meaning (σ : Assignment Value) (V : Value) : Option APInt :=
  if h : ∃ x, HasValue DL P σ V x then some h.choose else none

/-- The current value of a value, if it has one. -/
noncomputable def current (σ : Assignment Value) (V : Value) : Option APInt :=
  match V with
  | .inst i => leafValue DL P σ (.inst i)
  | V => meaning DL P σ V

/-- The instruction puts into its name what the language says about its operands. -/
def Means (i : InstId) (σ σ' : Assignment Value) : Prop :=
  ∀ x, leafValue DL P σ' (.inst i) = some x →
    stepValue DL P σ' (current DL P σ) x.width (.inst i) = some x

/-- Instructions that run do what the language says; one to which the language gives no
value does not run. -/
def ExecMeans : Prop := ∀ i σ σ', Exec i σ σ' → Means DL P i σ σ'

/-- In a block, definitions come before uses. No instruction stands twice in a block, so that
*before* has a meaning. -/
structure OrderedUses : Prop where
  nodup : ∀ BB, Reachable P entry BB → (P.block BB).insts.Nodup
  use : ∀ BB, Reachable P entry BB → ∀ pre i post, (P.block BB).insts = pre ++ i :: post →
    (P.inst i).op.isPhi = false → ∀ j, .inst j ∈ (P.inst i).op.operands →
    (P.inst j).parent = BB → j ∈ pre

/-- Of the uses in `is`, those of names of the block come after them, or are in `seen`. -/
def usesOrdered (BB : BlockId) : List InstId → List InstId → Bool
  | _, [] => true
  | seen, i :: is =>
    ((P.inst i).op.isPhi || (P.inst i).op.operands.all fun V =>
      match V with
      | .inst j => (P.inst j).parent ≠ BB || seen.contains j
      | _ => true) && usesOrdered BB (seen ++ [i]) is

/-- The value is defined at the current point: its definition dominates the block, and it
is not one of the instructions of the block that did not run yet. -/
def DefinedAt (s : MachineState) (V : Value) : Prop :=
  AvailableAt P entry s.block V ∧ ∀ i, V = .inst i → i ∉ s.rest

/-- What holds in every state of a run. The instructions that are left are the last ones of the
block, and every name that is defined and holds something holds what its instruction computes now.
-/
structure Settled (s : MachineState) : Prop where
  reachable : Reachable P entry s.block
  rest : ∃ done, ((P.block s.block).insts.filter fun i => !(P.inst i).op.isPhi) = done ++ s.rest
  settled : ∀ i x, DefinedAt P entry s (.inst i) → leafValue DL P s.env (.inst i) = some x →
    stepValue DL P s.env (current DL P s.env) x.width (.inst i) = some x

end Machine

section Facts

variable {DL : DataLayout} {P : Program} {intrange : InstId → Option (List (APInt × APInt))}
  {Exec : InstId → Assignment Value → Assignment Value → Prop} {entry : BlockId} {F : FuncId}
  {σ σ' σ₀ : Assignment Value} {s s' : MachineState} {V U : Value} {x : APInt} {i j : InstId}
  {BB D : BlockId}

/-! ## Current values -/

theorem meaning_eq_some : meaning DL P σ V = some x ↔ HasValue DL P σ V x := by
  unfold meaning
  split
  · rename_i h
    rw [Option.some_inj]
    constructor
    · rintro rfl
      exact h.choose_spec
    · exact h.choose_spec.unique
  · rename_i h
    exact iff_of_false nofun fun hx => h ⟨x, hx⟩

theorem current_eq_some : current DL P σ V = some x ↔ Current DL P σ V x := by
  cases V with
  | inst i => rfl
  | _ => exact meaning_eq_some

/-- The value of a name has the width of its type. -/
theorem hasValue_typed (h : HasValue DL P σ V x) :
    typeSizeInBits DL (P.typeOf V) = some x.width := by
  obtain ⟨n, hn⟩ := h
  cases n with
  | zero => cases hn
  | succ n => exact (value_eq_some.mp hn).1

/-- The current value of a name has the width of its type. -/
theorem current_typed (h : current DL P σ V = some x) :
    typeSizeInBits DL (P.typeOf V) = some x.width := by
  cases V with
  | inst i =>
    obtain ⟨w, hw, rfl⟩ := Option.map_eq_some_iff.mp h
    exact hw
  | _ => exact hasValue_typed (meaning_eq_some.mp h)

/-- What is no instruction is computed from what the names hold. -/
theorem current_of_ne (hV : ∀ i, V ≠ .inst i) : current DL P σ V = meaning DL P σ V := by
  cases V with
  | inst i => exact absurd rfl (hV i)
  | _ => rfl

/-- Constants are not computed from instructions. -/
theorem below_ne_inst (hssa : SSAForm P entry F) (hV : ∀ i, V ≠ .inst i)
    (h : Below P V U) : ∀ i, U ≠ .inst i := by
  induction h with
  | refl => exact hV
  | tail _ hUW ih =>
    rintro i rfl
    cases hUW with
    | inst _ _ => exact ih _ rfl
    | const hmem => cases hssa.constant _ _ hmem

/-- The current value of a value stays while names change that are not the value. -/
theorem current_congr (hssa : SSAForm P entry F)
    (hσ : ∀ W, W = V ∨ (∀ i, W ≠ .inst i) → σ W = σ' W) :
    current DL P σ V = current DL P σ' V := by
  cases V with
  | inst i =>
    show leafValue DL P σ (.inst i) = leafValue DL P σ' (.inst i)
    unfold leafValue
    rw [hσ _ (.inl rfl)]
  | _ =>
    refine Option.ext fun x => meaning_eq_some.trans (Iff.trans ?_ meaning_eq_some.symm)
    refine HasValue.congr fun U hU => hσ U ?_
    exact .inr (below_ne_inst hssa (fun _ h => by cases h) hU)

/-! ## Points of definition -/

/-- In a list of instructions whose uses are ordered, an operand comes before its user. -/
theorem usesOrdered_mem {seen pre is post : List InstId}
    (h : usesOrdered P BB seen is = true) (his : is = pre ++ i :: post)
    (hphi : (P.inst i).op.isPhi = false) (hop : .inst j ∈ (P.inst i).op.operands)
    (hparent : (P.inst j).parent = BB) : j ∈ seen ++ pre := by
  induction pre generalizing seen is with
  | nil =>
    subst his
    rw [List.nil_append, usesOrdered, Bool.and_eq_true, hphi, Bool.false_or, List.all_eq_true]
      at h
    simpa [hparent] using h.1 _ hop
  | cons a pre ih =>
    subst his
    rw [List.cons_append, usesOrdered, Bool.and_eq_true] at h
    simpa using ih h.2 rfl

/-- The order of uses can be checked block by block. -/
theorem orderedUses_of (h : ∀ BB, Reachable P entry BB →
    (P.block BB).insts.Nodup ∧ usesOrdered P BB [] (P.block BB).insts = true) :
    OrderedUses P entry where
  nodup BB hBB := (h BB hBB).1
  use BB hBB _ _ _ hinsts hphi _ hop hparent := usesOrdered_mem (h BB hBB).2 hinsts hphi hop hparent

/-- In the order in which a block runs, an operand of an instruction comes before it. -/
theorem OrderedUses.before (hord : OrderedUses P entry) (hBB : Reachable P entry BB)
    {d₁ d₂ : List InstId}
    (hrest : ((P.block BB).insts.filter fun i => !(P.inst i).op.isPhi) = d₁ ++ i :: d₂)
    (hop : .inst j ∈ (P.inst i).op.operands) (hparent : (P.inst j).parent = BB)
    (hphi : (P.inst j).op.isPhi = false) : j ∈ d₁ := by
  have hi : i ∈ (P.block BB).insts ∧ (P.inst i).op.isPhi = false := by
    have hmem : i ∈ d₁ ++ i :: d₂ := by simp
    rw [← hrest, List.mem_filter] at hmem
    simpa using hmem
  obtain ⟨pre, post, hinsts⟩ := List.append_of_mem hi.1
  have hnodup := (hord.nodup BB hBB).filter fun i => !(P.inst i).op.isPhi
  have hj := hord.use BB hBB pre i post hinsts hi.2 j hop hparent
  have hsplit : (pre.filter fun i => !(P.inst i).op.isPhi) ++
      i :: (post.filter fun i => !(P.inst i).op.isPhi) = d₁ ++ i :: d₂ := by
    rw [← hrest, hinsts, List.filter_append, List.filter_cons_of_pos (by simp [hi.2])]
  rw [hrest, ← hsplit] at hnodup
  obtain ⟨-, hpost, hne⟩ := List.nodup_append.mp hnodup
  obtain ⟨rfl, -⟩ := (List.append_cons_inj_of_notMem
    (fun hmem => hne i hmem i List.mem_cons_self rfl) (List.nodup_cons.mp hpost).1).mp hsplit
  rw [List.mem_filter]
  exact ⟨hj, by simp [hphi]⟩

/-- What did not run yet is in the block, and is no phi node. -/
theorem Settled.mem_rest (h : Settled DL P entry s) (hj : j ∈ s.rest) :
    j ∈ (P.block s.block).insts ∧ (P.inst j).op.isPhi = false := by
  obtain ⟨done, hdone⟩ := h.rest
  have hmem : j ∈ done ++ s.rest := List.mem_append_right _ hj
  rw [← hdone, List.mem_filter] at hmem
  simpa using hmem

/-- An operand of what is defined at the current point is defined there. Its definition comes before
that of the value, by dominance or by the order in the block, and so it has run as well. -/
theorem Settled.operand (hssa : SSAForm P entry F) (hord : OrderedUses P entry)
    (h : Settled DL P entry s) (hV : DefinedAt P entry s V) (hU : Operand P V U) :
    DefinedAt P entry s U := by
  refine ⟨hV.1.operand hssa h.reachable hU, ?_⟩
  rintro j rfl hj
  obtain ⟨hjmem, hjphi⟩ := h.mem_rest hj
  have hjparent := hssa.inst_parent s.block h.reachable j hjmem
  cases hU with
  | const hmem => exact absurd (hssa.constant _ _ hmem) (by simp [Value.isConstant])
  | @inst i _ hphi hop =>
    obtain ⟨hi, hdom⟩ := hV.1 i rfl
    -- the operand is in the block of the instruction
    have hparent : (P.inst i).parent = s.block := by
      have hjdom := (hssa.use _ (Dominates.reachable hdom h.reachable) i hi hphi (.inst j) hop
        j rfl).2
      rw [hjparent] at hjdom
      exact Digraph.Dom.antisymm hdom hjdom (Dominates.reachable hdom h.reachable)
    rw [hparent] at hi
    obtain ⟨done, hdone⟩ := h.rest
    -- the instruction ran, and so did what comes before it
    have hidone : i ∈ done := by
      have hi' : i ∈ done ++ s.rest := by
        rw [← hdone, List.mem_filter]
        simp [hi, hphi]
      exact (List.mem_append.mp hi').resolve_right (hV.2 i rfl)
    obtain ⟨d₁, d₂, rfl⟩ := List.append_of_mem hidone
    have hnodup := (hord.nodup s.block h.reachable).filter fun i => !(P.inst i).op.isPhi
    rw [hdone, List.nodup_append] at hnodup
    rw [List.append_assoc, List.cons_append] at hdone
    have hjd₁ := hord.before h.reachable hdone hop hjparent hjphi
    exact hnodup.2.2 j (List.mem_append_left _ hjd₁) j hj rfl

/-- What a settled name is computed from is defined where the name is. -/
theorem Settled.below (hssa : SSAForm P entry F) (hord : OrderedUses P entry)
    (h : Settled DL P entry s) (hV : DefinedAt P entry s V) (hU : Below P V U) :
    DefinedAt P entry s U := by
  induction hU with
  | refl => exact hV
  | tail _ hstep ih => exact h.operand hssa hord ih hstep

/-- An operand of the next instruction is defined at the current point. -/
theorem Settled.next (hssa : SSAForm P entry F) (hord : OrderedUses P entry)
    {is : List InstId} (h : Settled DL P entry ⟨BB, i :: is, σ⟩)
    (hU : Operand P (.inst i) U) : DefinedAt P entry ⟨BB, i :: is, σ⟩ U := by
  obtain ⟨hi, hphi⟩ := h.mem_rest (List.mem_cons_self (a := i))
  cases hU with
  | inst _ hop =>
    refine ⟨hssa.use BB h.reachable i hi hphi U hop, ?_⟩
    rintro j rfl hj
    obtain ⟨hjmem, hjphi⟩ := h.mem_rest hj
    obtain ⟨done, hdone⟩ := h.rest
    have hnodup := (hord.nodup BB h.reachable).filter fun i => !(P.inst i).op.isPhi
    rw [hdone, List.nodup_append] at hnodup
    have hjdone := hord.before h.reachable hdone hop
      (hssa.inst_parent BB h.reachable j hjmem) hjphi
    exact hnodup.2.2 j hjdone j hj rfl

/-! ## Steps -/

/-- While a name changes, the current value of another value does not. -/
theorem current_other (hssa : SSAForm P entry F) (hσ : ∀ V, V ≠ .inst i → σ V = σ' V)
    (hV : V ≠ .inst i) : current DL P σ V = current DL P σ' V := by
  refine current_congr hssa fun W hW => hσ W ?_
  rcases hW with rfl | hW
  · exact hV
  · exact hW i

/-- Running an instruction keeps the names settled. The name that changes becomes settled, and no
other name that is defined at this point is computed from it. -/
theorem Settled.exec (hssa : SSAForm P entry F) (hord : OrderedUses P entry)
    (hexec : ExecMeans DL P Exec) {is : List InstId}
    (h : Settled DL P entry ⟨BB, i :: is, σ⟩) (hi : Exec i σ σ')
    (hσ : ∀ V, V ≠ .inst i → σ V = σ' V) : Settled DL P entry ⟨BB, is, σ'⟩ := by
  refine ⟨h.reachable, ?_, fun j x hdef hx => ?_⟩
  · obtain ⟨done, hdone⟩ := h.rest
    exact ⟨done ++ [i], by simpa using hdone⟩
  -- what was defined before is not the name that changes
  have hother : ∀ U, DefinedAt P entry ⟨BB, i :: is, σ⟩ U →
      current DL P σ U = current DL P σ' U := by
    intro U hU
    refine current_other hssa hσ ?_
    rintro rfl
    exact hU.2 i rfl List.mem_cons_self
  by_cases hji : j = i
  · subst hji
    refine stepValue_local rfl (fun U hU y hy => ?_) (hexec j σ σ' hi x hx)
    obtain ⟨W, hW, hUW⟩ := Relation.TransGen.head'_iff.mp hU
    rwa [← hother U (h.below hssa hord (h.next hssa hord hW) hUW)]
  · have hj : DefinedAt P entry ⟨BB, i :: is, σ⟩ (.inst j) := by
      refine ⟨hdef.1, fun k hk => ?_⟩
      obtain rfl := Value.inst.inj hk
      exact fun hmem => (List.mem_cons.mp hmem).elim hji (hdef.2 j rfl)
    have hleaf := hother _ hj
    refine stepValue_local hleaf (fun U hU y hy => ?_) (h.settled j x hj (hleaf.trans hx))
    rwa [← hother U (h.below hssa hord hj hU.to_reflTransGen)]

/-- The name of a phi node is settled, whatever it holds. -/
theorem settled_phi (hphi : (P.inst i).op.isPhi = true)
    (hx : leafValue DL P σ (.inst i) = some x) {v : Value → Option APInt} :
    stepValue DL P σ v x.width (.inst i) = some x := by
  rw [← hx]
  cases hop : (P.inst i).op with
  | phi _ => simp [stepValue, instValue, hop]
  | _ =>
    rw [hop] at hphi
    cases hphi

/-- What is defined in the block that is entered is a phi node. -/
theorem isPhi_of_definedAt_enter (h : DefinedAt P entry (enter P BB σ) (.inst i))
    (hparent : (P.inst i).parent = BB) : (P.inst i).op.isPhi = true := by
  by_contra hphi
  refine h.2 i rfl (List.mem_filter.mpr ⟨?_, by simpa using hphi⟩)
  rw [← hparent]
  exact (h.1 i rfl).1

/-- Taking an edge keeps the names settled. What is defined in the new block is either a phi node or
was defined before the edge, in a block that strictly dominates the new one; its operands are no phi
nodes of the new block then. -/
theorem Settled.edge (hssa : SSAForm P entry F) {Pred : BlockId}
    (h : Settled DL P entry ⟨Pred, [], σ⟩) (hPred : Pred ∈ (P.block BB).preds)
    (hσ : ∀ V, (∀ i ∈ (P.block BB).insts, (P.inst i).op.isPhi = true → V ≠ .inst i) →
      σ V = σ' V) : Settled DL P entry (enter P BB σ') := by
  have hBB : Reachable P entry BB := h.reachable.step hPred
  refine ⟨hBB, ⟨[], rfl⟩, fun j x hdef hx => ?_⟩
  by_cases hparent : (P.inst j).parent = BB
  · exact settled_phi (isPhi_of_definedAt_enter hdef hparent) hx
  obtain ⟨hjmem, hdom⟩ := hdef.1 j rfl
  have hj : DefinedAt P entry ⟨Pred, [], σ⟩ (.inst j) := by
    refine ⟨fun k hk => ?_, fun k _ hk => by cases hk⟩
    obtain rfl := Value.inst.inj hk
    exact ⟨hjmem, hdom.pred hparent hPred⟩
  -- no phi node of the block is below a name that is defined above it
  have hother : ∀ U, Below P (.inst j) U → current DL P σ U = current DL P σ' U := by
    intro U hU
    have hD : Reachable P entry (P.inst j).parent := Dominates.reachable hdom hBB
    have havail : AvailableAt P entry (P.inst j).parent (.inst j) := by
      intro k hk
      obtain rfl := Value.inst.inj hk
      exact ⟨hjmem, .refl _⟩
    have hUavail := havail.below hssa hD hU
    refine current_congr hssa fun W hW => hσ W fun i hi _ hWi => ?_
    subst hWi
    rcases hW with rfl | hW
    · have hUdom := (hUavail i rfl).2
      rw [hssa.inst_parent BB hBB i hi] at hUdom
      exact hparent (Digraph.Dom.antisymm hdom hUdom hD)
    · exact hW i rfl
  have hleaf := hother _ .refl
  refine stepValue_local hleaf (fun U hU y hy => ?_) (h.settled j x hj (hleaf.trans hx))
  exact (hother U hU.to_reflTransGen).symm.trans hy

/-- In every state of every run, the names that are defined there are settled. -/
theorem Runs.settled (hssa : SSAForm P entry F) (hord : OrderedUses P entry)
    (hexec : ExecMeans DL P Exec) (hs : Runs DL P Exec entry σ₀ s) :
    Settled DL P entry s := by
  unfold Runs at hs
  induction hs with
  | refl =>
    refine ⟨.start, ⟨[], rfl⟩, fun j x hdef hx => ?_⟩
    exact settled_phi (isPhi_of_definedAt_enter hdef (hdef.1 j rfl).2.eq_entry) hx
  | tail _ hstep ih =>
    cases hstep with
    | exec hi hσ => exact ih.exec hssa hord hexec hi hσ
    | edge hsucc _ _ hσ =>
      exact ih.edge hssa ((hssa.succ_iff_pred _ _).mp (List.mem_of_getElem? hsucc)) hσ

/-! ## Terms -/

theorem eq_of_hasValue_constInt {c : APInt} (h : HasValue DL P σ (.constInt c) x) : x = c := by
  obtain ⟨n, hn⟩ := h
  cases n with
  | zero => cases hn
  | succ n => exact (Option.some.inj (value_eq_some.mp hn).2).symm

open Classical in
/-- The term of a value that is defined at the current point denotes its current value. The current
values of what is defined at this point are consistent with the meaning of each instruction, and
such a valuation is what the terms denote. -/
theorem Settled.denotes (hssa : SSAForm P entry F) (hord : OrderedUses P entry)
    (h : Settled DL P entry s) (hV : DefinedAt P entry s V) (hx : Current DL P s.env V x)
    {E : SMTExpr Value} (hE : TermOf DL P intrange V E) : E.eval s.env = x := by
  let v : Value → Option APInt := fun U =>
    if DefinedAt P entry s U then current DL P s.env U else none
  have hv : ∀ U y, v U = some y ↔ DefinedAt P entry s U ∧ current DL P s.env U = some y :=
    fun U y => by simp [v]
  refine denotes_of_consistent (v := v) (fun U y hy => current_typed ((hv U y).mp hy).2)
    (fun c y hy => ?_) (fun U y hy => ?_) ((hv V x).mpr ⟨hV, current_eq_some.mpr hx⟩) hE
  · exact eq_of_hasValue_constInt (meaning_eq_some.mp ((hv _ y).mp hy).2)
  · obtain ⟨hU, hy⟩ := (hv U y).mp hy
    cases U with
    | inst i =>
      refine stepValue_local rfl (fun W hW z hz => ?_) (h.settled i y hU hy)
      exact (hv W z).mpr ⟨h.below hssa hord hU hW.to_reflTransGen, hz⟩
    | _ =>
      obtain ⟨n, hn⟩ := meaning_eq_some.mp hy
      cases n with
      | zero => cases hn
      | succ n =>
        refine stepValue_local rfl (fun W hW z hz => ?_) (value_eq_some.mp hn).2
        refine (hv W z).mpr ⟨h.below hssa hord hU hW.to_reflTransGen, ?_⟩
        rw [current_of_ne (below_ne_inst hssa (fun _ h => by cases h) hW.to_reflTransGen)]
        exact meaning_eq_some.mpr ⟨n, hz⟩

/-- In every state of every run, what `VG.get` returns for a value that is defined there
denotes its current value. -/
theorem termOf_denotes_current (hssa : SSAForm P entry F) (hord : OrderedUses P entry)
    (hexec : ExecMeans DL P Exec) (hs : Runs DL P Exec entry σ₀ s)
    (hV : DefinedAt P entry s V) (hx : Current DL P s.env V x)
    {Backedges : List (BlockId × BlockId)} {DT : Option (BlockId → BlockId → BlockId)}
    {T T' : State} {n : ℕ} {E : SMTExpr Value} (hT : Reached DL P intrange Backedges DT T)
    (hget : get DL P intrange Backedges DT n (.inl V) T = .ok (E, T')) : E.eval s.env = x :=
  (hs.settled hssa hord hexec).denotes hssa hord hV hx
    (value_inl_iff.mp (get_sound hT.consistent hget).1)

/-- The terms of the names denote what the names hold at the end of a block. -/
theorem termsDenote (hssa : SSAForm P entry F) (hord : OrderedUses P entry)
    (hexec : ExecMeans DL P Exec) : TermsDenote DL P intrange entry Exec σ₀ := by
  intro s hs hrest i E x hV hE hx
  refine (hs.settled hssa hord hexec).denotes hssa hord ⟨hV, fun j _ hj => ?_⟩ hx hE
  rw [hrest] at hj
  cases hj

end Facts

/-! ## A second round of a loop -/

/-- What the names hold in a loop whose variable stays zero. -/
def recheckState : Assignment Value := fun V w =>
  match V with
  | .argument _ _ => 5#w
  | .inst 2 => 1#w
  | _ => 0#w

theorem recheck_orderedUses : OrderedUses recheckProgram 0 :=
  orderedUses_of fun BB hBB => by
    rcases recheck_blocks hBB with rfl | rfl | rfl | rfl <;> decide

theorem recheck_argument :
    current fieldLayout recheckProgram recheckState (.argument 0 0) = some (.ofNat 8 5) :=
  meaning_eq_some.mpr ⟨1, rfl⟩

/-- The two comparisons of the loop. -/
theorem recheck_compare {i : InstId} {pred : ICmpPredicate} {x : APInt} {w : ℕ}
    (hop : (recheckProgram.inst i).op = .icmp pred (.inst 1) (.argument 0 0))
    (hx : icmpValue pred (.ofNat 8 0) (.ofNat 8 5) = some x) :
    stepValue fieldLayout recheckProgram recheckState
      (current fieldLayout recheckProgram recheckState) w (.inst i) = some x := by
  rw [stepValue, instValue, hop]
  show ((current _ _ _ (.inst 1)).bind _) = _
  simp only [recheck_argument]
  exact hx

/-- With these values every instruction does what the language says and changes nothing. -/
theorem recheck_means (i : InstId) :
    Means fieldLayout recheckProgram i recheckState recheckState := by
  intro x hx
  match i with
  | 0 | 3 | 6 | 7 => cases hx
  | 1 => exact settled_phi rfl hx
  | 4 => exact hx
  | 2 | 5 =>
    obtain rfl := Option.some.inj hx
    exact recheck_compare rfl rfl
  | i + 8 => cases hx

/-- With these values, a run goes from the start of a block to its end. -/
theorem recheck_visit (BB : BlockId) (is : List InstId) :
    Relation.ReflTransGen (Step fieldLayout recheckProgram (Means fieldLayout recheckProgram))
      ⟨BB, is, recheckState⟩ ⟨BB, [], recheckState⟩ := by
  induction is with
  | nil => exact .refl
  | cons i is ih => exact .head (.exec (recheck_means i) fun _ _ => rfl) ih

/-- With these values an edge changes nothing either. -/
theorem recheck_phi {Pred BB : BlockId} (hPred : Pred = 0 ∨ Pred = 1 ∨ Pred = 2)
    (hBB : BB = 1 ∨ BB = 2) :
    PhiValues fieldLayout recheckProgram recheckState recheckState Pred BB := by
  intro i hi incoming V hop hV _ _
  have hphi : ∀ B ∈ [1, 2], ∀ i ∈ (recheckProgram.block B).insts,
      (recheckProgram.inst i).op.isPhi = true → i = 1 := by decide
  obtain rfl := hphi BB (by simpa using hBB) i hi (by rw [hop]; rfl)
  obtain rfl := Opcode.phi.inj hop
  rcases hPred with rfl | rfl | rfl
  · obtain rfl := Option.some.inj hV
    exact ⟨.ofNat 8 0, ⟨1, rfl⟩, rfl⟩
  · cases hV
  · obtain rfl := Option.some.inj hV
    exact ⟨.ofNat 8 0, rfl, rfl⟩

/-- One block of the loop after the other. -/
theorem recheck_next {Pred BB : BlockId} {k : ℕ} (hPred : Pred = 0 ∨ Pred = 1 ∨ Pred = 2)
    (hBB : BB = 1 ∨ BB = 2)
    (hsucc : (recheckProgram.inst (recheckProgram.block Pred).term).op.successors[k]? = some BB)
    (htakes : Takes fieldLayout recheckProgram recheckState
      (recheckProgram.inst (recheckProgram.block Pred).term).op k)
    (h : Runs fieldLayout recheckProgram (Means fieldLayout recheckProgram) 0 recheckState
      ⟨Pred, [], recheckState⟩) :
    Runs fieldLayout recheckProgram (Means fieldLayout recheckProgram) 0 recheckState
      ⟨BB, [], recheckState⟩ :=
  (h.tail (.edge hsucc htakes (recheck_phi hPred hBB) fun _ _ => rfl)).trans
    (recheck_visit BB _)

/-- The comparison of the body, in the second round. -/
theorem recheck_second : ∃ s, Runs fieldLayout recheckProgram
    (Means fieldLayout recheckProgram) 0 recheckState s ∧ s.block = 2 ∧
    ∃ E T, get fieldLayout recheckProgram (fun _ => none) [(2, 1)] none 3 (.inl (.inst 5)) .init =
      .ok (E, T) ∧ E.eval s.env = .ofBool false := by
  have hentry : Runs fieldLayout recheckProgram (Means fieldLayout recheckProgram) 0
      recheckState ⟨0, [], recheckState⟩ := recheck_visit 0 _
  have hheader := recheck_next (k := 0) (.inl rfl) (.inl rfl) rfl trivial hentry
  have hbody := recheck_next (k := 0) (.inr (.inl rfl)) (.inr rfl) rfl rfl hheader
  have hround := recheck_next (k := 1) (.inr (.inr rfl)) (.inl rfl) rfl rfl hbody
  have hruns := recheck_next (k := 0) (.inr (.inl rfl)) (.inr rfl) rfl rfl hround
  obtain ⟨E, T, hget⟩ : ∃ E T, get fieldLayout recheckProgram (fun _ => none) [(2, 1)] none 3
      (.inl (.inst 5)) .init = .ok (E, T) := ⟨_, _, rfl⟩
  have hvalue : Current fieldLayout recheckProgram recheckState (.inst 5) (.ofBool false) := rfl
  refine ⟨_, hruns, rfl, E, T, hget, ?_⟩
  exact termOf_denotes_current recheck_ssaForm recheck_orderedUses (fun _ _ _ h => h) hruns
    ⟨recheck_available rfl, fun _ _ => List.not_mem_nil⟩ hvalue .init hget

end Kint.PathGen
