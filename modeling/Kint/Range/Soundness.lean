import Kint.Range.Transfer

/-!
# Soundness of the ranges

In every execution of the linked program, each followed value that is written under an
identifier lies in its final range; so the metadata of a load or a call allows every value that
was written before under its identifier.  The invariant follows an execution through the states
of a visit that changes nothing any more (`Tracks`): the entries that a dominator of the current
block started with still contain the values of the names that were defined above it.

## An execution against a visit

The final ranges are those that one more visit of every function leaves as they are
(`run_quietVisit`).  Such a visit goes through the blocks once, in the order of the layout,
while an activation goes along edges, and may go around a loop many times.  The invariant
compares what an activation holds with the state of the visit at the same place:

* `done`: the results of the instructions that ran in the current block have entries there;
* `below`: a block that is dominated by the definition of a name has an entry for it when its
  visit starts, so that the entry is there whenever the activation enters the block
  (`EntryHas.below`).

Entries grow during the visit (`Kint.Range.Maps`), so an entry is there at all later positions.

## Steps

`Tracks.exec` and `Tracks.edge` keep the invariant, and `Tracks.puts` is what it is for: the
value that an instruction writes under an identifier is in the range of the identifier.  The
computation of the visitors themselves is the subject of `Kint.Range.Transfer`.
-/

namespace Kint.Range

open Iteration Kint.Digraph

/-! ## Dominators come first -/

section Layout

variable {L : Library} {P : Program} {F : FuncId} {entry BB D Pred : BlockId} {i : InstId}
  {done : List InstId}

/-- A block that precedes another one is a block of the function. -/
theorem Precedes.mem {A : BlockId} (h : Precedes P F A BB) : A ∈ (P.func F).blocks := by
  have hlt := lt_of_lt_of_le h (List.idxOf_le_length)
  exact List.idxOf_lt_length_iff.mp hlt

/-- What holds of the entry block, and of a block if it holds of its predecessors over edges that
are no back edges, holds of every block. -/
theorem Layout.induction (hlayout : Layout L P F entry) {p : BlockId → Prop} (hentry : p entry)
    (hstep : ∀ BB ∈ (P.func F).blocks, BB ≠ entry → ∀ Pred ∈ (P.block BB).preds,
      isBackEdge (L.findFunctionBackedges P F) (Pred, BB) = false → Precedes P F Pred BB →
        Pred ∈ (P.func F).blocks → p Pred → p BB)
    (hBB : BB ∈ (P.func F).blocks) : p BB := by
  generalize hn : (P.func F).blocks.idxOf BB = n
  induction n using Nat.strong_induction_on generalizing BB with
  | _ n ih =>
    subst hn
    by_cases hne : BB = entry
    · rw [hne]
      exact hentry
    · obtain ⟨Pred, hedge, hback⟩ := hlayout.entered BB hBB hne
      have hlt : Precedes P F Pred BB := hlayout.forward BB hBB Pred hedge hback
      exact hstep BB hBB hne Pred hedge hback hlt hlt.mem (ih _ hlt hlt.mem rfl)

/-- All blocks can be reached. -/
theorem Layout.reachable (hlayout : Layout L P F entry) (hBB : BB ∈ (P.func F).blocks) :
    Kint.Reachable P entry BB :=
  hlayout.induction .start (fun _ _ _ _ hedge _ _ _ hPred => hPred.step hedge) hBB

/-- A dominator is laid out before what it dominates. -/
theorem Layout.dominator_le (hlayout : Layout L P F entry) (hBB : BB ∈ (P.func F).blocks)
    (hdom : Dominates P entry D BB) :
    (P.func F).blocks.idxOf D ≤ (P.func F).blocks.idxOf BB := by
  refine hlayout.induction (p := fun BB => Dominates P entry D BB →
    (P.func F).blocks.idxOf D ≤ (P.func F).blocks.idxOf BB) ?_ ?_ hBB hdom
  · intro hdom
    rw [hdom.eq_entry]
  · intro BB hBB hne Pred hedge hback hlt hPred ih hdom
    by_cases hD : D = BB
    · rw [hD]
    · exact (ih (hdom.pred hD hedge)).trans hlt.le

/-- The block of an available result dominates the block. -/
theorem AvailableAt.dominates {j : InstId} (h : AvailableAt P entry BB done (.inst j)) :
    Dominates P entry (P.inst j).parent BB := by
  rcases h j rfl with ⟨-, heq⟩ | ⟨-, -, hdom⟩
  · rw [heq]
    exact Dom.refl BB
  · exact hdom

/-- The definition of what a terminator tests dominates the block. -/
theorem SSAForm.tested (hssa : SSAForm P F entry) (hPred : Kint.Reachable P entry Pred)
    (h : TestedBy P (P.block Pred).term (.inst i)) :
    Dominates P entry (P.inst i).parent Pred := by
  have hterm : ∀ V ∈ (P.inst (P.block Pred).term).op.operands,
      (P.inst (P.block Pred).term).op.isPhi = false →
        AvailableAt P entry Pred (P.block Pred).body V :=
    fun V hV hphi => hssa.use Pred hPred _ _ [] rfl hphi V hV
  unfold TestedBy at h
  split at h
  · rename_i c ifTrue ifFalse hop
    split at h
    · rename_i pred lhs rhs hc
      have hcond := hterm (.inst c) (by rw [hop]; exact List.mem_cons_self) (by rw [hop]; rfl)
      have hmem : c ∈ (P.block (P.inst c).parent).insts := by
        rcases hcond c rfl with ⟨hmem, heq⟩ | ⟨hmem, -, -⟩
        · rw [heq]
          exact List.mem_append_left _ hmem
        · exact hmem
      obtain ⟨pre, post, hsplit⟩ := List.append_of_mem hmem
      have hoperand : .inst i ∈ (P.inst c).op.operands := by
        rw [hc]
        rcases h with h | h <;> simp [Opcode.operands, h]
      have hreach := Dominates.reachable hcond.dominates hPred
      exact (hssa.use _ hreach pre c post hsplit (by rw [hc]; rfl) _ hoperand).dominates.trans
        hcond.dominates
    · cases h
  · rename_i cond defaultDest cases hop
    rw [← h] at hop
    exact (hterm (.inst i) (by rw [hop]; exact List.mem_cons_self) (by rw [hop]; rfl)).dominates
  · cases h

end Layout

section Visit

variable {L : Library} {P : Program} {callees : CalleeMap} {taints : TaintMap} {F : FuncId}
  {s t : State} {entry BB : BlockId} {i : InstId} {rest post : List InstId} {V : Value} {w : ℕ}

theorem not_storesTo (hP : WellTyped P) (hV : P.typeOf V = .int w) (j : InstId) :
    ¬ StoresTo P j V := by
  rintro ⟨value, hop⟩
  have hj := hP j
  simp only [InstTyped, hop, hV] at hj
  cases hj

/-- An argument that is not tested is clean throughout. -/
theorem Before.clean_argument (hL : L.ranges.UnionLaws) (hP : WellTyped P)
    (hnodup : (P.func F).blocks.Nodup) {f : FuncId} {no : ℕ}
    (hV : P.typeOf (.argument f no) = .int w) (htested : ¬ Tested P (.argument f no))
    (h : Before L P callees taints F s BB rest t) :
    Clean L P callees taints t (.argument f no) := by
  have hupdated : ∀ j, ¬ UpdatedBy P j (.argument f no) := by
    rintro j (heq | hstore)
    · cases heq
    · exact not_storesTo hP hV j hstore
  refine h.clean hL hnodup ?_ (fun Pred _ _ ht => htested ⟨_, ht⟩) fun _ _ j _ => hupdated j
  rintro A - (⟨Pred, -, -, ht⟩ | ⟨j, -, hj⟩)
  · exact htested ⟨_, ht⟩
  · exact hupdated j hj

/-- The result of an instruction is clean until the instruction is visited. -/
theorem Before.clean_inst (hL : L.ranges.UnionLaws) (hP : WellTyped P)
    (hssa : SSAForm P F entry) (hlayout : Layout L P F entry)
    (hBB : BB ∈ (P.func F).blocks) (hi : i ∈ (P.block BB).insts)
    (hty : (P.inst i).ty = .int w) (h : Before L P callees taints F s BB (i :: post) t) :
    Clean L P callees taints t (.inst i) := by
  have hparent := hssa.inst_parent BB hBB i hi
  have hV : P.typeOf (.inst i) = .int w := hty
  -- what tests the result is dominated by its block, and leads further on
  have htest : ∀ A ∈ (P.func F).blocks, ¬ Precedes P F BB A → ∀ Pred ∈ (P.block A).preds,
      isBackEdge (L.findFunctionBackedges P F) (Pred, A) = false →
        ¬ TestedBy P (P.block Pred).term (.inst i) := by
    intro A hA hle Pred hPred hback ht
    have hforward : Precedes P F Pred A := hlayout.forward A hA Pred hPred hback
    have hdom := hssa.tested (hlayout.reachable hforward.mem) ht
    rw [hparent] at hdom
    exact hle ((hlayout.dominator_le hforward.mem hdom).trans_lt hforward)
  refine h.clean hL hssa.nodup_blocks ?_ (htest BB hBB (lt_irrefl _)) ?_
  · rintro A hA (⟨Pred, hPred, hback, ht⟩ | ⟨j, hj, heq | hstore⟩)
    · exact htest A hA.mem (lt_asymm hA) Pred hPred hback ht
    · obtain rfl := Value.inst.inj heq
      rw [← hssa.inst_parent A hA.mem i hj, hparent] at hA
      exact lt_irrefl _ hA
    · exact not_storesTo hP hV j hstore
  · rintro is his j hj (heq | hstore)
    · obtain rfl := Value.inst.inj heq
      have hnodup := hssa.nodup BB hBB
      rw [his] at hnodup
      exact (List.nodup_append'.mp hnodup).2.2 hj List.mem_cons_self
    · exact not_storesTo hP hV j hstore

end Visit

/-! ## The end of a run -/

section Run

variable {L : Library} {P : Program} {callees : CalleeMap} {taints : TaintMap}
  {modules : List Module} {fuel : ℕ} {r : Report State Event} {sID : String}

/-- In the end, a visit of any function changes no range. -/
theorem run_quietVisit (hL : L.ranges.UnionLaws)
    (h : (rangePass L P callees taints).run fuel modules .init = .ok r) {M : Module} {F : FuncId}
    (hM : M ∈ modules) (hF : F ∈ M.functions) (hne : (P.func F).empty = false) :
    ∃ v, v.intRanges = r.state.intRanges ∧ QuietVisit L P callees taints F v := by
  obtain ⟨r₁, r₂, r₃, -, h₂, h₃, rfl⟩ := IterativeModulePass.run_eq_ok.mp h
  obtain ⟨s, q, hs, hq, hc⟩ := IterativeModulePass.iterate_last
    (fun M _ s r h => doModulePass_silent hL h) h₂ M hM
  obtain ⟨b, hb, rfl⟩ := doModulePass_eq_ok.mp hq
  obtain ⟨a, ha, rfl⟩ := iteration_eq_ok.mp (whileChanged_unchanged hb hc)
  have hmem : F ∈ M.functions.filter fun f => !(P.func f).empty :=
    List.mem_filter.mpr ⟨hF, by rw [hne]; rfl⟩
  have hsilent : ∀ f ∈ M.functions.filter fun f => !(P.func f).empty, ∀ s r,
      updateRangeForFunction L P callees taints f s = .ok r → r.Silent State.intRanges s :=
    fun f _ s r h => (((updateRangeForFunction_writes f).writes s r h).grows hL).2
  obtain ⟨v, q, hv, hq, hcq⟩ := forEach_silent hsilent ha hc F hmem
  obtain ⟨r₃', h₃', hst⟩ := finalize_ok (L := L) (P := P) modules r₂.state
  obtain rfl := Except.ok.inj (h₃'.symm.trans h₃)
  refine ⟨v, ?_, q, hq, hcq⟩
  rw [hv]
  show s.intRanges = r₃'.state.intRanges
  rw [hs, hst]

/-- The range of an identifier has the one width of what is written. -/
theorem run_uniform (hL : L.ranges.UnionLaws) (hW : L.ranges.WidthLaws) (hP : WellTyped P)
    (h : (rangePass L P callees taints).run fuel modules .init = .ok r) {N : ℕ}
    (hN : ∀ w, Written L P callees modules sID w → w = N) {S : ConstantRange}
    (hS : r.state.intRanges sID = some S) : S.width = N := by
  rw [run_traced h] at hS
  obtain ⟨R, hR, hwidth⟩ := rangesAfter_first hL hS
  rw [hwidth]
  exact hN _ (run_joins hL hW hP h sID R (List.mem_of_mem_head? hR))

theorem initializers_trace {es : List (String × ConstantRange)} {e : String × ConstantRange}
    {s : State} {r : Report State Event} (he : e ∈ es) (hne : e.2.isEmptySet = false)
    (h : forEach (fun e => unionRange L e.1 e.2) es s = .ok r) : .union e.1 e.2 ∈ r.trace := by
  obtain ⟨es, es', rfl⟩ := List.append_of_mem he
  rw [forEach_append] at h
  obtain ⟨a, b, -, hb, rfl⟩ := Pass.seq_eq_ok.mp h
  obtain ⟨c, d, hc, -, rfl⟩ := Pass.seq_eq_ok.mp hb
  have hc : unionRange L e.1 e.2 a.state = .ok c := hc
  unfold unionRange at hc
  rw [hne, if_neg Bool.false_ne_true] at hc
  obtain rfl := Except.ok.inj hc
  exact List.mem_append_right _ (List.mem_append_left _ List.mem_cons_self)

/-- Initial values are in the final ranges. -/
theorem run_initial (hL : L.ranges.UnionLaws) (hW : L.ranges.WidthLaws) (hP : WellTyped P)
    (h : (rangePass L P callees taints).run fuel modules .init = .ok r) {x : APInt}
    (hx : Initial L P callees modules sID x) : Covers r.state.intRanges sID x := by
  obtain ⟨⟨N, hN⟩, M, hM, hmem⟩ := hx
  have hne := (ConstantRange.ofAPInt_contains x).not_isEmptySet
  have hevent : .union sID (.ofAPInt x) ∈ r.trace := by
    obtain ⟨r₁, r₂, r₃, h₁, -, -, rfl⟩ := IterativeModulePass.run_eq_ok.mp h
    obtain ⟨Ms, Ms', rfl⟩ := List.append_of_mem hM
    rw [forEach_append] at h₁
    obtain ⟨a, b, -, hb, rfl⟩ := Pass.seq_eq_ok.mp h₁
    obtain ⟨c, d, hc, -, rfl⟩ := Pass.seq_eq_ok.mp hb
    have hunion : .union sID (.ofAPInt x) ∈ c.trace := initializers_trace hmem hne hc
    exact List.mem_append_left _ (List.mem_append_right _ (List.mem_append_left _ hunion))
  have hwidth : ∀ R ∈ writes sID r.trace, R.width = N :=
    fun R hR => hN _ (run_joins hL hW hP h sID R hR)
  have htraced : r.state.intRanges = rangesAfter L (fun _ => none) r.trace := run_traced h
  obtain ⟨S, hS⟩ := exists_rangesAfter_of_union (m := fun _ => none) hL hevent
  refine ⟨S, by rw [htraced, hS], ?_⟩
  exact ConstantRange.le_contains (le_rangesAfter_of_union hL hwidth hevent hS)
    (ConstantRange.ofAPInt_contains x)

end Run

/-! ## The invariant -/

section Invariant

variable (L : Library) (P : Program) (callees : CalleeMap) (taints : TaintMap)
  (modules : List Module)

/-- The entry for a value in a block contains `x`. -/
def EntryHas (s : State) (BB : BlockId) (V : Value) (x : APInt) : Prop :=
  ∃ R, s.funcVRMs BB V = some R ∧ R.Contains x

/-- The names of an activation that has run `done` in its block, against the states of
the visit that starts in `v`. -/
structure Tracks (entry : BlockId) (v : State) (done : List InstId) (A : Activation) : Prop where
  block : A.block ∈ (P.func A.function).blocks
  insts : (P.block A.block).insts = done ++ A.rest
  names : ∀ V, A.followed V → (∃ j w, V = .inst j ∧ (P.inst j).ty = .int w) ∨
    ∃ no w, V = .argument A.function no ∧ P.typeOf V = .int w ∧ ¬ Tested P V ∧
      (looked L P callees taints v.intRanges V).Contains (A.ints V)
  below : ∀ j ∈ (P.block (P.inst j).parent).insts, A.followed (.inst j) →
    ∀ D ∈ (P.func A.function).blocks, (P.inst j).parent ≠ D →
      Dominates P entry (P.inst j).parent D →
        ∀ t, Before L P callees taints A.function v D (P.block D).insts t →
          EntryHas t D (.inst j) (A.ints (.inst j))
  done : ∀ j ∈ done, A.followed (.inst j) →
    ∀ t, Before L P callees taints A.function v A.block A.rest t →
      EntryHas t A.block (.inst j) (A.ints (.inst j))

/-- An activation is tracked by a visit of its function that ends with the ranges `m` and
changes nothing. -/
def Tracked (m : RangeMap) (A : Activation) : Prop :=
  ∃ M ∈ modules, ∃ entry v done, A.function ∈ M.functions ∧ SSAForm P A.function entry ∧
    Layout L P A.function entry ∧ v.intRanges = m ∧
    QuietVisit L P callees taints A.function v ∧ Tracks L P callees taints entry v done A

/-- The followed writes are in the ranges `m`, and all activations are tracked. -/
structure Sound (m : RangeMap) (s : MachineState) : Prop where
  written : ∀ sID x, s.written sID x → Covers m sID x
  tracked : ∀ A ∈ s.activations, Tracked L P callees taints modules m A

end Invariant

section Tracks

variable {L : Library} {P : Program} {callees : CalleeMap} {taints : TaintMap}
  {modules : List Module} {entry BB D : BlockId} {v t t' : State} {done rest : List InstId}
  {A A' : Activation} {i : InstId} {V : Value} {x : APInt} {w : ℕ}

theorem EntryHas.extends_maps (h : EntryHas t BB V x) (hext : Extends t t') :
    EntryHas t' BB V x := by
  obtain ⟨R, hR, hx⟩ := h
  obtain ⟨R', hR', hle⟩ := hext BB V R hR
  exact ⟨R', hR', ConstantRange.le_contains hle hx⟩

/-- What the entry at the end of a block contains, the blocks that it dominates start with: they
receive it over the edges that are no back edges, whichever way an execution takes. -/
theorem EntryHas.below {F : FuncId} {J : BlockId} (hL : L.ranges.UnionLaws)
    (hW : L.ranges.WidthLaws) (hP : WellTyped P) (hssa : SSAForm P F entry)
    (hlayout : Layout L P F entry)
    (hend : ∀ t, Before L P callees taints F v J [] t → EntryHas t J V x)
    (hD : D ∈ (P.func F).blocks) (hne : J ≠ D) (hdom : Dominates P entry J D)
    (ht : Before L P callees taints F v D (P.block D).insts t) : EntryHas t D V x := by
  refine hlayout.induction (p := fun D => J ≠ D → Dominates P entry J D →
    ∀ t, Before L P callees taints F v D (P.block D).insts t → EntryHas t D V x) ?_ ?_ hD hne hdom
    t ht
  · intro hne hdom
    exact absurd hdom.eq_entry hne
  · intro D hD _ Pred hedge hback hlt _ ih hne hdom t ht
    obtain ⟨t', ht', -, hreceive⟩ := ht.edge hL hW hP hssa.nodup_blocks hedge hback hlt
    have hPred : EntryHas t' Pred V x := by
      by_cases hJ : J = Pred
      · subst hJ
        exact hend t' ht'
      · obtain ⟨t₀, ht₀, hext⟩ := ht'.start hL
        exact (ih hJ (hdom.pred hne hedge) t₀ ht₀).extends_maps hext
    obtain ⟨R, hR, hx⟩ := hPred
    obtain ⟨R', hR', hle⟩ := hreceive V R hR
    exact ⟨R', hR', ConstantRange.le_contains hle hx⟩

/-- The values of what is available at the current position. -/
theorem Tracks.entryHas (hL : L.ranges.UnionLaws) (h : Tracks L P callees taints entry v done A)
    (havail : AvailableAt P entry A.block done (.inst i)) (hfollowed : A.followed (.inst i))
    (ht : Before L P callees taints A.function v A.block A.rest t) :
    EntryHas t A.block (.inst i) (A.ints (.inst i)) := by
  rcases havail i rfl with ⟨hdone, -⟩ | ⟨hmem, hne, hdom⟩
  · exact h.done i hdone hfollowed t ht
  · obtain ⟨t₀, ht₀, hext⟩ := ht.start hL
    exact (h.below i hmem hfollowed A.block h.block hne hdom t₀ ht₀).extends_maps hext

/-- What an activation follows and has at hand is known, from its position on. -/
theorem Tracks.known_later (hL : L.ranges.UnionLaws) (hP : WellTyped P)
    (hssa : SSAForm P A.function entry) (h : Tracks L P callees taints entry v done A)
    (havail : AvailableAt P entry A.block done V) (hfollows : A.Follows V) (hx : A.HasInt P V x)
    (ht : Before L P callees taints A.function v A.block A.rest t)
    (ht' : Before L P callees taints A.function v BB rest t') (hext : Extends t t') :
    Known L P callees taints t' A.block V x := by
  cases V with
  | constInt c => exact .const (congrArg Value.constInt hx.symm)
  | inst j =>
    obtain rfl : x = A.ints (.inst j) := hx
    obtain ⟨R, hR, hRx⟩ := (h.entryHas hL havail hfollows ht).extends_maps hext
    exact .entry (fun c hc => by cases hc) hR hRx
  | argument f no =>
    obtain rfl : x = A.ints (.argument f no) := hx
    rcases h.names _ hfollows with ⟨j, w, hj, -⟩ | ⟨no', w, -, hV, htested, hlooked⟩
    · cases hj
    · refine .clean (fun c hc => by cases hc)
        (ht'.clean_argument hL hP hssa.nodup_blocks hV htested) ?_
      rwa [ht'.intRanges hL hssa.nodup_blocks]
  | _ => exact hfollows.elim

/-- What an activation follows and has at hand is known at its position. -/
theorem Tracks.known (hL : L.ranges.UnionLaws) (hP : WellTyped P)
    (hssa : SSAForm P A.function entry) (h : Tracks L P callees taints entry v done A)
    (havail : AvailableAt P entry A.block done V) (hfollows : A.Follows V) (hx : A.HasInt P V x)
    (ht : Before L P callees taints A.function v A.block A.rest t) :
    Known L P callees taints t A.block V x :=
  h.known_later hL hP hssa havail hfollows hx ht ht (.refl t)

/-! ## Instructions -/

/-- A followed result is in the range that is computed for the instruction. -/
theorem instRange_known (hL : L.ranges.UnionLaws) (hS : L.ranges.SoundLaws)
    {globalAddress : GlobalId → ℕ} {mem : ℕ → ℕ → ℕ} {written : String → APInt → Prop}
    {backEdges : List (BlockId × BlockId)} {CR : ConstantRange} (hP : WellTyped P)
    (ht : Typed P t) (hwritten : ∀ sID x, written sID x → Covers t.intRanges sID x)
    (hty : (P.inst i).ty = .int w) (hcomputes : Computes P globalAddress A mem i w x)
    (hfollows : FollowsResult L P callees taints A written i x)
    (hknown : ∀ V ∈ (P.inst i).op.operands, A.Follows V → ∀ y, A.HasInt P V y →
      Known L P callees taints t (P.inst i).parent V y)
    (hclean : Clean L P callees taints t (.inst i))
    (h : instRange L P callees taints backEdges i w t = .ok (CR, t')) : CR.Contains x := by
  obtain ⟨hxw, hx⟩ := hcomputes
  subst hxw
  have hself : P.typeOf (.inst i) = .int x.width := hty
  have hfull : ∀ {R : ConstantRange} {u : State},
      (pure (.full x.width) : Query ConstantRange) t = .ok (R, u) → R.Contains x := by
    intro R u h
    obtain ⟨rfl, -⟩ := Query.pure_eq_ok.mp h
    exact (ConstantRange.contains_full _ x).mpr rfl
  have hlooked : (looked L P callees taints t.intRanges (.inst i)).Contains x →
      ∀ {R : ConstantRange} {u : State},
        getRange L P callees taints (P.inst i).parent (.inst i) t = .ok (R, u) → R.Contains x :=
    fun hx {_ _} hR => (Known.clean (fun c hc => by cases hc) hclean hx).getRange hR
  have htyped := hP i
  cases hop : (P.inst i).op with
  | binary op lhs rhs =>
    simp only [instRange, hop] at h
    simp only [hop] at hx
    simp only [FollowsResult, hop] at hfollows
    obtain ⟨a, b, ha, hb, hx⟩ := hx
    obtain ⟨hcovered, hl, hr⟩ := hfollows
    exact visitBinaryOp_known hL hS hcovered (hknown lhs (by simp [hop, Opcode.operands]) hl a ha)
      (hknown rhs (by simp [hop, Opcode.operands]) hr b hb) hx h
  | cast op V =>
    simp only [instRange, hop] at h
    simp only [hop] at hx
    simp only [FollowsResult, hop] at hfollows
    have hcast : (op = .trunc ∨ op = .zext ∨ op = .sext ∨ op = .bitcast) → A.Follows V →
        (∃ a, A.HasInt P V a ∧ castValue op x.width a = some x) → CR.Contains x := by
      rintro hcases hV ⟨a, ha, hx⟩
      exact visitCastInst_known hS hcases (hknown V (by simp [hop, Opcode.operands]) hV a ha) hx h
    cases op with
    | trunc => exact hcast (.inl rfl) hfollows hx
    | zext => exact hcast (.inr (.inl rfl)) hfollows hx
    | sext => exact hcast (.inr (.inr (.inl rfl))) hfollows hx
    | bitcast => exact hcast (.inr (.inr (.inr rfl))) hfollows hx
    | ptrtoint => exact hfull h
    | inttoptr => exact hfull h
    | floating => exact hfull h
  | select cond ifTrue ifFalse =>
    simp only [instRange, hop] at h
    simp only [FollowsResult, hop] at hfollows
    simp only [InstTyped, hop, hty] at htyped
    obtain ⟨c, -, hc, hV⟩ := hfollows
    have hmem : (if c then ifTrue else ifFalse) ∈ (P.inst i).op.operands := by
      cases c <;> simp [hop, Opcode.operands]
    exact visitSelectInst_known hL ht htyped.1 htyped.2 (hknown _ hmem hV x hc) h
  | phi incoming =>
    simp only [FollowsResult, hop] at hfollows
  | load pointer isVolatile =>
    simp only [instRange, hop] at h
    simp only [FollowsResult, hop] at hfollows
    refine hlooked (looked_contains hS (fun j hj callee args => ?_) hself hfollows.1
      (hfollows.2.imp_right (hwritten _ x))) h
    obtain rfl := Value.inst.inj hj
    rw [hop]
    intro heq
    cases heq
  | call callee args =>
    simp only [instRange, hop] at h
    simp only [FollowsResult, hop] at hfollows
    obtain ⟨hasm, CEEs, hcallees, f, hf, hret⟩ := hfollows
    exact hlooked (looked_call_contains hL hop hty hasm hcallees hf
      (hret.imp_right (hwritten _ x))) h
  | _ =>
    simp only [instRange, hop] at h
    exact hfull h

/-- What a visit that changes nothing leaves for the result, from what it computes after
its part for the identifiers. -/
theorem updateRangeForInst_entry (hL : L.ranges.UnionLaws) (hW : L.ranges.WidthLaws)
    (hP : WellTyped P) {backEdges : List (BlockId × BlockId)} {F : FuncId}
    {r : Report State Event} (ht : Typed P t) (hty : (P.inst i).ty = .int w)
    (hx : ∀ s CR u, Touches L P callees taints (StoresTo P i) t s → Typed P s →
      instRange L P callees taints backEdges i w s = .ok (CR, u) → CR.Contains x)
    (hr : updateRangeForInst L P callees taints backEdges F i t = .ok r)
    (hc : r.changed = false) : EntryHas r.state (P.inst i).parent (.inst i) x := by
  obtain ⟨a, b, ha, hb, rfl⟩ := Pass.seq_eq_ok.mp hr
  have hglobal := updateGlobal_quiet hL F i t a ha (Bool.or_eq_false_iff.mp hc).1
  have htyped : Typed P a.state := (updateGlobal_joins hL hP t a ha ht).1
  show EntryHas b.state (P.inst i).parent (.inst i) x
  exact updateLocal_entry hL hW hP htyped hty (fun CR u hCR => hx _ CR u hglobal htyped hCR) hb

/-- Followed values are integers. -/
theorem Tracks.int (h : Tracks L P callees taints entry v done A) (hV : A.Follows V) :
    ∃ w, P.typeOf V = .int w := by
  cases V with
  | constInt c => exact ⟨c.width, rfl⟩
  | inst i =>
    rcases h.names _ hV with ⟨j, w, hj, hw⟩ | ⟨no, w, hno, -⟩
    · exact ⟨w, Value.inst.inj hj ▸ hw⟩
    · cases hno
  | argument f no =>
    rcases h.names _ hV with ⟨j, w, hj, -⟩ | ⟨no', w, -, hw, -⟩
    · cases hj
    · exact ⟨w, hw⟩
  | _ => exact hV.elim

section Step

variable {globalAddress : GlobalId → ℕ} {mem : ℕ → ℕ → ℕ} {written : String → APInt → Prop}
  {p : ℕ} {follows : Prop}

/-- The block of an activation consists of what it has done and what is left. -/
theorem Tracks.insts_eq (h : Tracks L P callees taints entry v done A)
    (hrest : A.rest = i :: rest) : (P.block A.block).insts = done ++ i :: rest := by
  rw [h.insts, hrest]

/-- The next instruction is in the block of the activation. -/
theorem Tracks.next_mem (h : Tracks L P callees taints entry v done A)
    (hrest : A.rest = i :: rest) : i ∈ (P.block A.block).insts := by
  rw [h.insts_eq hrest]
  exact List.mem_append_right _ List.mem_cons_self

/-- The entry for a followed result. -/
theorem Tracks.result (hL : L.ranges.UnionLaws) (hW : L.ranges.WidthLaws)
    (hS : L.ranges.SoundLaws) (hP : WellTyped P) (hssa : SSAForm P A.function entry)
    (hlayout : Layout L P A.function entry) (h : Tracks L P callees taints entry v done A)
    (hrest : A.rest = i :: rest)
    (hwritten : ∀ sID x, written sID x → Covers v.intRanges sID x)
    (hty : (P.inst i).ty = .int w) (hcomputes : Computes P globalAddress A mem i w x)
    (hfollows : FollowsResult L P callees taints A written i x)
    (ht : Before L P callees taints A.function v A.block (i :: rest) t) {r : Report State Event}
    (hr : updateRangeForInst L P callees taints (L.findFunctionBackedges P A.function) A.function
      i t = .ok r) (hc : r.changed = false) :
    EntryHas r.state A.block (.inst i) x := by
  have hinsts := h.insts_eq hrest
  have hmem := h.next_mem hrest
  have hparent := hssa.inst_parent A.block h.block i hmem
  have hphi : (P.inst i).op.isPhi = false := by
    cases hop : (P.inst i).op with
    | phi incoming => simp only [FollowsResult, hop] at hfollows
    | _ => rfl
  have hentry := updateRangeForInst_entry hL hW hP (ht.typed hL hW hP) hty (x := x)
    (fun s CR u hglobal htyped hCR => ?_) hr hc
  · rwa [hparent] at hentry
  · have hranges : s.intRanges = v.intRanges :=
      hglobal.intRanges.trans (ht.intRanges hL hssa.nodup_blocks)
    have hclean : Clean L P callees taints s (.inst i) :=
      hglobal.clean hL (not_storesTo hP (V := .inst i) hty i)
        (ht.clean_inst hL hP hssa hlayout h.block hmem hty)
    rw [← hranges] at hwritten
    refine instRange_known hL hS hP htyped hwritten hty hcomputes hfollows
      (fun V hV hVfollows y hy => ?_) hclean hCR
    obtain ⟨w', hw'⟩ := h.int hVfollows
    have havail := hssa.use A.block (hlayout.reachable h.block) done i rest hinsts hphi V hV
    have hknown := h.known hL hP hssa havail hVfollows hy (hrest ▸ ht)
    rw [hparent]
    exact hknown.touches hL (not_storesTo hP hw' i) hglobal

/-- An instruction keeps an activation tracked. -/
theorem Tracks.exec (hL : L.ranges.UnionLaws) (hW : L.ranges.WidthLaws)
    (hS : L.ranges.SoundLaws) (hP : WellTyped P) (hssa : SSAForm P A.function entry)
    (hlayout : Layout L P A.function entry) (h : Tracks L P callees taints entry v done A)
    (hrest : A.rest = i :: rest)
    (hwritten : ∀ sID x, written sID x → Covers v.intRanges sID x)
    (hcomputes : ∀ w, (P.inst i).ty = .int w → Computes P globalAddress A mem i w x)
    (hfollows : follows → (P.inst i).ty.isIntegerTy = true ∧
      FollowsResult L P callees taints A written i x) :
    Tracks L P callees taints entry v (done ++ [i]) (A.ran i rest x p follows) := by
  have hinsts := h.insts_eq hrest
  have hmem := h.next_mem hrest
  have hparent := hssa.inst_parent A.block h.block i hmem
  have hfresh : i ∉ done := by
    have hnodup := hssa.nodup A.block h.block
    rw [hinsts] at hnodup
    exact fun hi => (List.nodup_append'.mp hnodup).2.2 hi List.mem_cons_self
  refine ⟨h.block, ?_, fun V hV => ?_, fun j hj hfol D hD hne hdom t ht => ?_,
    fun j hj hfol t ht => ?_⟩
  · rw [List.append_assoc]
    exact hinsts
  · by_cases hVi : V = .inst i
    · subst hVi
      rw [Activation.ran_followed_self] at hV
      obtain ⟨w, hw⟩ := exists_of_isIntegerTy (hfollows hV).1
      exact .inl ⟨i, w, rfl, hw⟩
    · rw [Activation.ran_followed_of_ne hVi] at hV
      rw [Activation.ran_ints_of_ne hVi]
      exact h.names V hV
  · by_cases hji : Value.inst j = .inst i
    · obtain rfl := Value.inst.inj hji
      rw [Activation.ran_followed_self] at hfol
      rw [Activation.ran_ints_self]
      rw [hparent] at hne hdom
      obtain ⟨hint, hres⟩ := hfollows hfol
      obtain ⟨w, hw⟩ := exists_of_isIntegerTy hint
      refine EntryHas.below hL hW hP hssa hlayout (fun t' ht' => ?_) hD hne hdom ht
      obtain ⟨t₁, r, ht₁, hr, hc, hext⟩ := ht'.through hL
        (show (P.block A.block).insts = done ++ j :: (rest ++ []) by rw [hinsts, List.append_nil])
      rw [List.append_nil] at ht₁
      exact (h.result hL hW hS hP hssa hlayout hrest hwritten hw (hcomputes w hw) hres ht₁ hr
        hc).extends_maps hext
    · rw [Activation.ran_followed_of_ne hji] at hfol
      rw [Activation.ran_ints_of_ne hji]
      exact h.below j hj hfol D hD hne hdom t ht
  · obtain ⟨t₀, r, ht₀, hr, hc, rfl⟩ := ht.prev hinsts
    rcases List.mem_append.mp hj with hdone | hlast
    · have hji : Value.inst j ≠ .inst i := by
        intro heq
        obtain rfl := Value.inst.inj heq
        exact hfresh hdone
      rw [Activation.ran_followed_of_ne hji] at hfol
      rw [Activation.ran_ints_of_ne hji]
      exact (h.done j hdone hfol t₀ (hrest ▸ ht₀)).extends_maps
        ((updateRangeForInst_quiet hL _ _ i t₀ r hr hc).extends_maps hL)
    · obtain rfl := List.mem_singleton.mp hlast
      rw [Activation.ran_followed_self] at hfol
      rw [Activation.ran_ints_self]
      obtain ⟨hint, hres⟩ := hfollows hfol
      obtain ⟨w, hw⟩ := exists_of_isIntegerTy hint
      exact h.result hL hW hS hP hssa hlayout hrest hwritten hw (hcomputes w hw) hres ht₀ hr hc

/-- What an instruction puts under an identifier is in the range of the identifier. -/
theorem Tracks.puts (hL : L.ranges.UnionLaws) (hW : L.ranges.WidthLaws) (hP : WellTyped P)
    (hssa : SSAForm P A.function entry) (hlayout : Layout L P A.function entry)
    (h : Tracks L P callees taints entry v done A)
    (hvisit : QuietVisit L P callees taints A.function v) {M : Module} (hM : M ∈ modules)
    (hF : A.function ∈ M.functions) (hrest : A.rest = i :: rest)
    (hwritten : ∀ sID x, written sID x → Covers v.intRanges sID x)
    (hcomputes : ∀ w, (P.inst i).ty = .int w → Computes P globalAddress A mem i w x)
    (hfollows : follows → (P.inst i).ty.isIntegerTy = true ∧
      FollowsResult L P callees taints A written i x)
    {sID : String} {y : APInt} (huniform : ∀ w, Written L P callees modules sID w →
      ∀ S, v.intRanges sID = some S → S.width = w)
    (hputs : Puts L P callees A i follows x sID y) : Covers v.intRanges sID y := by
  have hinsts := h.insts_eq hrest
  have hmem := h.next_mem hrest
  have hparent := hssa.inst_parent A.block h.block i hmem
  have hwidth : ∀ w, InstWrites L P callees A.function i sID w →
      ∀ S, v.intRanges sID = some S → S.width = w := fun w hw => huniform w
    ⟨M, hM, .body (.inst hF (List.mem_flatMap.mpr ⟨A.block, h.block, hmem⟩) hw)⟩
  obtain ⟨t, ht⟩ := hvisit.exists_before h.block hinsts
  obtain ⟨r, hr, hc, -⟩ := ht.next hvisit
  obtain ⟨a, b, ha, -, rfl⟩ := Pass.seq_eq_ok.mp hr
  have hca := (Bool.or_eq_false_iff.mp hc).1
  have htyped := ht.typed hL hW hP
  have hranges : t.intRanges = v.intRanges := ht.intRanges hL hssa.nodup_blocks
  have hknown : ∀ V ∈ (P.inst i).op.operands, (P.inst i).op.isPhi = false → A.Follows V →
      ∀ y, A.HasInt P V y → Known L P callees taints t (P.inst i).parent V y := by
    intro V hV hphi hVfollows y hy
    rw [hparent]
    exact h.known hL hP hssa
      (hssa.use A.block (hlayout.reachable h.block) done i rest hinsts hphi V hV) hVfollows hy
      (hrest ▸ ht)
  rw [← hranges] at hwidth hwritten ⊢
  cases hputs with
  | store hop hV hid hfol hy =>
    simp only [updateGlobal, hop] at ha
    exact visitStoreInst_covers hL htyped hV hid (hwidth _ (.store hop hV hid))
      (hknown _ (by simp [hop, Opcode.operands]) (by rw [hop]; rfl) hfol _ hy) ha hca
  | ret hop hV hfol hy =>
    simp only [updateGlobal, hop] at ha
    exact visitReturnInst_covers hL htyped hV (hwidth _ (.ret hop hV))
      (hknown _ (by simp [hop, Opcode.operands]) (by rw [hop]; rfl) hfol _ hy) ha hca
  | @argument callee args CEEs f arg w y hop hasm hcallees hf hskip harg hV hfol hy =>
    simp only [updateGlobal, hop] at ha
    have hmem : arg.1 ∈ args := (List.mem_zipIdx' harg).2 ▸ List.getElem_mem _
    exact visitCallInst_covers_argument hL htyped hasm hcallees hf hskip harg hV
      (hwidth _ (.argument hop hcallees hf hskip harg hV))
      (hknown _ (by simp [hop, Opcode.operands, hmem]) (by rw [hop]; rfl) hfol _ hy) ha hca
  | @result callee args CEEs w hop hasm hcallees hty hfol =>
    simp only [updateGlobal, hop] at ha
    obtain ⟨-, hres⟩ := hfollows hfol
    simp only [FollowsResult, hop] at hres
    obtain ⟨-, CEEs', hcallees', f, hf, hret⟩ := hres
    obtain ⟨rfl, -⟩ := hcomputes w hty
    have hlooked := looked_call_contains hL hop hty hasm hcallees' hf
      (hret.imp_right (hwritten _ x))
    exact visitCallInst_covers_result hL htyped hasm hcallees hty
      (hwidth _ (.result hop hcallees hty))
      (.clean (fun c hc => by cases hc)
        (ht.clean_inst hL hP hssa hlayout h.block hmem hty) hlooked) ha hca

/-! ## Edges -/

/-- The entry for a phi node whose value has come in over an edge that is no back edge, at any
position behind the phi node. -/
theorem Tracks.phi (hL : L.ranges.UnionLaws) (hW : L.ranges.WidthLaws) (hP : WellTyped P)
    (hssa : SSAForm P A.function entry) (hlayout : Layout L P A.function entry)
    (h : Tracks L P callees taints entry v (P.block A.block).insts A) (hrest : A.rest = [])
    (hBB : BB ∈ (P.func A.function).blocks) (hedge : Edge P A.block BB)
    (hback : isBackEdge (L.findFunctionBackedges P A.function) (A.block, BB) = false)
    {incoming : List (Value × BlockId)} (hi : i ∈ phiNodes P BB)
    (hop : (P.inst i).op = .phi incoming) (hty : (P.inst i).ty = .int w)
    (hV : incomingValue? incoming A.block = some V) (hfollows : A.Follows V)
    (hx : A.HasInt P V x) {pre post : List InstId}
    (hinsts : (P.block BB).insts = pre ++ i :: (post ++ rest))
    (ht : Before L P callees taints A.function v BB rest t) : EntryHas t BB (.inst i) x := by
  have hmem := incoming_mem hV
  have hparent := hssa.inst_parent BB hBB i (List.mem_of_mem_filter hi)
  have hself := hP i
  simp only [InstTyped, hop, hty] at hself
  -- the visit of the phi node, and the end of the predecessor before it
  obtain ⟨t₁, r, ht₁, hr, hc, hext⟩ := ht.through hL hinsts
  obtain ⟨t₀, ht₀, hext₀⟩ := ht₁.start hL
  obtain ⟨t', ht', hext', -⟩ := ht₀.edge hL hW hP hssa.nodup_blocks hedge hback
    (hlayout.forward BB hBB A.block hedge hback)
  have havail := hssa.incoming BB (hlayout.reachable hBB) i hi incoming hop V A.block hmem
  have hknown := h.known_later hL hP hssa havail hfollows hx (hrest ▸ ht') ht₁
    (hext'.trans hext₀)
  have hwidth := hknown.width hL (ht₁.typed hL hW hP) (hself _ hmem)
  have hentry := updateRangeForInst_entry hL hW hP (ht₁.typed hL hW hP) hty (x := x)
    (fun s CR u hglobal _ hCR => ?_) hr hc
  · rw [hparent] at hentry
    exact EntryHas.extends_maps hentry hext
  · simp only [instRange, hop, hparent] at hCR
    exact visitPHINode_known hL (show (ConstantRange.empty w).width = x.width from hwidth.symm)
      hmem hback
      (hknown.touches hL (not_storesTo hP (hself _ hmem) i) hglobal) hCR

/-- An edge keeps an activation tracked. -/
theorem Tracks.edge (hL : L.ranges.UnionLaws) (hW : L.ranges.WidthLaws) (hP : WellTyped P)
    (hssa : SSAForm P A.function entry) (hlayout : Layout L P A.function entry)
    (h : Tracks L P callees taints entry v done A) (hrest : A.rest = [])
    (hsucc : BB ∈ (P.inst (P.block A.block).term).op.successors) (henters : Enters L P A A' BB) :
    Tracks L P callees taints entry v (phiNodes P BB) A' := by
  have hdone : done = (P.block A.block).insts := by rw [h.insts, hrest, List.append_nil]
  subst hdone
  have hedge : Edge P A.block BB := (hssa.succ_iff_pred _ _).mp hsucc
  have hreach : Kint.Reachable P entry BB := (hlayout.reachable h.block).step hedge
  have hBB := hssa.mem_blocks BB hreach
  obtain ⟨hfunction, hblock, hrest', hphi, hfollowed, hsame⟩ := henters
  -- a phi node that takes a followed value has it from there on
  have hentry : ∀ i ∈ phiNodes P BB, A'.followed (.inst i) → ∀ rest, (∃ post,
      afterPhis P BB = post ++ rest) → ∀ t, Before L P callees taints A.function v BB rest t →
        EntryHas t BB (.inst i) (A'.ints (.inst i)) := by
    rintro i hi hfol rest ⟨post, hpost⟩ t ht
    obtain ⟨hback, incoming, V, w, hop, hV, hty, hfollows⟩ := hfollowed i hi hfol
    obtain ⟨pre, post', hsplit⟩ := List.append_of_mem hi
    have hinsts : (P.block BB).insts = pre ++ i :: ((post' ++ post) ++ rest) := by
      rw [hssa.phis_first BB hBB, hsplit, hpost]
      simp
    exact h.phi hL hW hP hssa hlayout hrest hBB hedge hback hi hop hty hV hfollows
      (hphi i hi incoming V w hop hV hty) hinsts ht
  refine ⟨by rwa [hfunction, hblock], ?_, fun V hV => ?_, fun j hj hfol D hD hne hdom t ht => ?_,
    fun i hi hfol t ht => ?_⟩
  · rw [hblock, hrest']
    exact hssa.phis_first BB hBB
  · by_cases hnew : ∃ i ∈ phiNodes P BB, V = .inst i
    · obtain ⟨i, hi, rfl⟩ := hnew
      obtain ⟨-, -, -, w, -, -, hty, -⟩ := hfollowed i hi hV
      exact .inl ⟨i, w, rfl, hty⟩
    · have hV' := hsame V fun i hi heq => hnew ⟨i, hi, heq⟩
      rw [hV'.1, hfunction]
      exact h.names V (hV'.2.2 hV)
  · rw [hfunction] at hD ht
    by_cases hnew : j ∈ phiNodes P BB
    · have hparent := hssa.inst_parent BB hBB j (List.mem_of_mem_filter hnew)
      rw [hparent] at hne hdom
      exact EntryHas.below hL hW hP hssa hlayout
        (hentry j hnew hfol [] ⟨_, (List.append_nil _).symm⟩) hD hne hdom ht
    · have hold := hsame (.inst j) fun i hi heq => hnew (Value.inst.inj heq ▸ hi)
      rw [hold.1]
      exact h.below j hj (hold.2.2 hfol) D hD hne hdom t ht
  · rw [hblock, hrest', hfunction] at ht
    rw [hblock]
    exact hentry i hi hfol _ ⟨[], rfl⟩ t ht

end Step

end Tracks

end Kint.Range
