import Kint.LoadRewrite.Invariant

/-!
# What the uses of loads receive

A use that the scan rewrote receives what its load has read.  A use that was left to
`SSAUpdater` receives what the cell held when the block of the *user* was entered, or left, for
a phi node (`Invariant.mid_across`, `Invariant.fin_across`); that is what the load has read
exactly when no store came in between (`Survives`).

## Main results

* `receives_iff`: in one step from a state with the invariant, the uses receive what the loads
  have read if and only if the cell has survived.
* `hoist_receives_iff`: the same for every step of every run of a function that `hoist` changes;
  and in the runs in which the cell survives, every step is one of the rewritten program.
* `lateUse_lost`: a function in which it does not survive.

## The condition

`Survives` is about the original program: it names the loads that have no store, and not the
inserted load, before them in their blocks (`ReadsAcross`), and asks that the cell has not
changed between such a load and the entry of the block in which its result is used.  A load and
its use with a store between them, the use in a later block: that is the case in which
`SSAUpdater`, told of the stored value, hands it to the use.

## The example

`lateUse` has the load and the store in one block and the use of the load in the next one.  The
blocks of both differ from the entry block, in which the inserted load stands.
-/

namespace Kint.LoadRewrite

variable {Val : Type} {L : Language Val} {P : Program} {scev : InstId → SCEV} {H : Target}
  {subst : Value → Source} {available : List (BlockId × Source)} {s s' s₀ : State Val}
  {BB : BlockId} {i I : InstId} {U : Value}

variable (L P scev H) in
/-- Where a load that `ReadsAcross` is used in the step, the cell has not changed since
the load, up to the entry of the current block, or up to its end for a phi node. -/
def Survives (s s' : State Val) : Prop :=
  ∀ I, ReadsAcross P scev H I →
    (Reads P s (.inst I) → s.entryCell = s.env (.inst I)) ∧
    (PhiReads P s s'.block (.inst I) → cell L H s = s.env (.inst I))

/-- The inserted load is above every block where such a load is defined. -/
theorem ReadsAcross.above {done rest : List Item} (hwf : WellFormed P scev H)
    (hBB : Reachable P H.entry BB) (hdone : items P H BB = done ++ rest)
    (h : ReadsAcross P scev H I) (hI : AvailableAt P H BB done (.value (.inst I))) :
    Above P H BB .loadV := by
  induction h with
  | @here I hload hnone =>
    obtain ⟨hreach, hmem⟩ := Placed.inst ⟨BB, done, rest, hBB, hdone, hI⟩
    obtain ⟨pre, post, hpre⟩ := List.append_of_mem hmem
    obtain ⟨pointer, hop, -, hS⟩ := isLoadOf_eq_true hload
    have hbase := hwf.base _ hreach pre I post hpre (by simp [pointerOperand, hop]) hS
    have hV := loadV_available hwf hpre (by simp [hop, Opcode.isPhi]) hbase
    have hlast : lastStored P scev H pre = none := by
      refine Option.eq_none_iff_forall_ne_some.mpr fun K hK => hnone K ?_
      exact ⟨I, rfl, hload, _, hwf.mem_blocks _ hreach, pre, post, hpre, hK⟩
    have habove : Above P H ((Item.inst I).home P H) .loadV :=
      (hV _ rfl).resolve_right fun h => lastStored_eq_none hlast h.2
    rcases hI _ rfl with hI | ⟨hhome, -⟩
    · exact DefinedAt.above (.inl habove) hI hBB fun z hz => hpre ▸ List.mem_append_left _ hz
    · exact hhome ▸ habove
  | through hforward _ ih => exact ih (hforward.available hwf hBB hdone hI)

/-! ## Reading operands -/

/-- What the next instruction reads is available. -/
theorem Invariant.reads_available (hwf : WellFormed P scev H) (h : Invariant L P scev H s)
    (hU : Reads P s U) : AvailableAt P H s.block s.done (.value U) := by
  rcases hU with ⟨i, rest, hrest, hU⟩ | ⟨hrest, hU⟩
  · exact hwf.use _ h.reachable _ i rest (hrest ▸ h.items_eq) (h.not_phi hwf hrest) U hU
  · have hterm : Item.inst (P.block s.block).term ∈ items P H s.block :=
      inst_mem_items.mpr (by simp [BasicBlock.insts])
    obtain ⟨pre, post, hpre⟩ := List.append_of_mem hterm
    have huse := hwf.use _ h.reachable pre _ post hpre (hwf.term _ h.reachable) U hU
    refine huse.mono fun x hx => ?_
    rw [h.done_eq hrest, hpre]
    exact List.mem_append_left _ hx

/-- What a phi node reads is available at the end of the incoming block. -/
theorem Invariant.phiReads_available (hwf : WellFormed P scev H) (h : Invariant L P scev H s)
    (hedge : Edge P s.block BB) (hU : PhiReads P s BB U) :
    AvailableAt P H s.block s.done (.value U) := by
  obtain ⟨hrest, i, hi, incoming, hop, hin⟩ := hU
  rw [h.done_eq hrest]
  exact hwf.incoming BB (h.reachable.step hedge) i hi incoming hop U _ (incoming_mem hin)

/-- What is available in a state of a run is defined at a place that control may reach. -/
theorem Invariant.placed (h : Invariant L P scev H s)
    (hU : AvailableAt P H s.block s.done (.value U)) : Placed P H (.value U) :=
  ⟨s.block, s.done, s.rest, h.reachable, h.items_eq, hU⟩

section Operands

variable (hwf : WellFormed P scev H) (hh : Hoisted P scev H subst available)
  (h : Invariant L P scev H s) (hU : AvailableAt P H s.block s.done (.value U))
include hwf hh h hU

/-- An operand of which `SSAUpdater` keeps away. -/
theorem Invariant.other (hnot : ∀ I, U = .inst I → ¬ ReadsAcross P scev H I) :
    viaSSA P scev H subst U = false ∧ sourceValue s (subst U) = s.env U := by
  refine ⟨?_, h.chain hwf (hh.chained U) hU⟩
  rw [← Bool.not_eq_true, viaSSA_iff hh hwf (h.placed hU)]
  rintro ⟨I, hI, hacross⟩
  exact hnot I hI hacross

/-- Other operands are read as they are, in the middle of a block. -/
theorem Invariant.mid_other (hnot : ∀ I, U = .inst I → ¬ ReadsAcross P scev H I) :
    (rewritten P scev H subst available).mid s U = some (s.env U) := by
  obtain ⟨hvia, hvalue⟩ := h.other hwf hh hU hnot
  simp [rewritten, hvia, hvalue]

/-- Other operands are read as they are by phi nodes. -/
theorem Invariant.fin_other (hnot : ∀ I, U = .inst I → ¬ ReadsAcross P scev H I) :
    (rewritten P scev H subst available).fin s U = some (s.env U) := by
  obtain ⟨hvia, hvalue⟩ := h.other hwf hh hU hnot
  simp [rewritten, hvia, hvalue]

end Operands

section Across

variable (hwf : WellFormed P scev H) (hh : Hoisted P scev H subst available)
  (h : Invariant L P scev H s) (hacross : ReadsAcross P scev H I)
  (hI : AvailableAt P H s.block s.done (.value (.inst I)))
include hwf hh h hacross hI

/-- `SSAUpdater` in the middle of a block. -/
theorem Invariant.mid_across :
    (rewritten P scev H subst available).mid s (.inst I) = some s.entryCell := by
  have hvia : viaSSA P scev H subst (.inst I) = true :=
    (viaSSA_iff hh hwf (h.placed hI)).mpr ⟨I, rfl, hacross⟩
  rw [← h.var (hacross.above hwf h.reachable h.items_eq hI)]
  simp [rewritten, hvia]

/-- `SSAUpdater` at a phi node. -/
theorem Invariant.fin_across (hrest : s.rest = []) :
    (rewritten P scev H subst available).fin s (.inst I) = some (cell L H s) := by
  have hvia : viaSSA P scev H subst (.inst I) = true :=
    (viaSSA_iff hh hwf (h.placed hI)).mpr ⟨I, rfl, hacross⟩
  have habove := hacross.above hwf h.reachable h.items_eq hI
  rw [← h.varEnd hwf hh.registered hrest (.inl habove)]
  simp [rewritten, hvia]

end Across

/-! ## Steps and runs -/

/-- The edge that a step takes after the last instruction of a block. -/
theorem CellStep.edge (hstep : CellStep L P scev H available s s') (hrest : s.rest = []) :
    Edge P s.block s'.block := by
  cases hstep.step with
  | exec h => rw [hrest] at h; cases h
  | load h => rw [hrest] at h; cases h
  | edge _ _ _ hedge => exact hedge

/-- In one step. A use whose operand is no longer a load after the scan receives the right value
without any condition. For the others the variable of `SSAUpdater` is compared with what the load
has read. -/
theorem receives_iff (hwf : WellFormed P scev H) (hh : Hoisted P scev H subst available)
    (h : Invariant L P scev H s) (hstep : CellStep L P scev H available s s') :
    Receives P scev H subst available s s' ↔ Survives L P scev H s s' := by
  have hphi : ∀ {I}, PhiReads P s s'.block (.inst I) →
      AvailableAt P H s.block s.done (.value (.inst I)) := fun hI =>
    h.phiReads_available hwf (hstep.edge hI.1) hI
  constructor
  · intro hreceives I hacross
    obtain ⟨hmid, hfin⟩ := hreceives I hacross.isLoadOf
    refine ⟨fun hI => ?_, fun hI => ?_⟩
    · have hvalue := h.mid_across hwf hh hacross (h.reads_available hwf hI)
      exact Option.some.inj (hvalue.symm.trans (hmid hI))
    · have hvalue := h.fin_across hwf hh hacross (hphi hI) hI.1
      exact Option.some.inj (hvalue.symm.trans (hfin hI))
  · intro hsurvives I hload
    by_cases hacross : ReadsAcross P scev H I
    · obtain ⟨hmid, hfin⟩ := hsurvives I hacross
      refine ⟨fun hI => ?_, fun hI => ?_⟩
      · rw [h.mid_across hwf hh hacross (h.reads_available hwf hI), hmid hI]
      · rw [h.fin_across hwf hh hacross (hphi hI) hI.1, hfin hI]
    · have hnot : ∀ J, Value.inst I = .inst J → ¬ ReadsAcross P scev H J := by
        rintro J ⟨⟩
        exact hacross
      exact ⟨fun hI => h.mid_other hwf hh (h.reads_available hwf hI) hnot,
        fun hI => h.fin_other hwf hh (hphi hI) hnot⟩

/-- Operands that all receive their value. -/
theorem mapM_eq {R : Reader Val} {l : List Value}
    (h : ∀ U ∈ l, R.mid s U = some (s.env U)) : l.mapM (R.mid s) = l.mapM (original.mid s) := by
  induction l with
  | nil => rfl
  | cons U l ih =>
    rw [List.mapM_cons, List.mapM_cons, h U List.mem_cons_self,
      ih fun V hV => h V (List.mem_cons_of_mem _ hV)]
    rfl

/-- A step in which the cell survives is a step of the rewritten program. Each operand that the
instruction or the terminator reads has the value that it has in the original program, and the step
does the rest in the same way. -/
theorem rewritten_step (hwf : WellFormed P scev H) (hh : Hoisted P scev H subst available)
    (h : Invariant L P scev H s) (hstep : CellStep L P scev H available s s')
    (hsurvives : Survives L P scev H s s') :
    Step L P H available (rewritten P scev H subst available) s s' := by
  have hmid : ∀ U, Reads P s U →
      (rewritten P scev H subst available).mid s U = some (s.env U) := by
    intro U hU
    by_cases hacross : ∃ I, U = .inst I ∧ ReadsAcross P scev H I
    · obtain ⟨I, rfl, hacross⟩ := hacross
      rw [h.mid_across hwf hh hacross (h.reads_available hwf hU), (hsurvives I hacross).1 hU]
    · exact h.mid_other hwf hh (h.reads_available hwf hU) fun I hI hI' => hacross ⟨I, hI, hI'⟩
  have hfin : ∀ U, PhiReads P s s'.block U →
      (rewritten P scev H subst available).fin s U = some (s.env U) := by
    intro U hU
    have havail := h.phiReads_available hwf (hstep.edge hU.1) hU
    by_cases hacross : ∃ I, U = .inst I ∧ ReadsAcross P scev H I
    · obtain ⟨I, rfl, hacross⟩ := hacross
      rw [h.fin_across hwf hh hacross havail hU.1, (hsurvives I hacross).2 hU]
    · exact h.fin_other hwf hh havail fun I hI hI' => hacross ⟨I, hI, hI'⟩
  cases hstep.step with
  | @exec i rest vals x mem' hrest hvals heffect =>
    refine .exec hrest ?_ heffect
    rw [mapM_eq fun U hU => hmid U (.inl ⟨i, rest, hrest, hU⟩)]
    exact hvals
  | load hrest => exact .load hrest
  | @edge BB vals env hrest hvals hgoes hedge hphis henv =>
    refine .edge hrest ?_ hgoes hedge ?_ henv
    · rw [mapM_eq fun U hU => hmid U (.inr ⟨hrest, hU⟩)]
      exact hvals
    · intro i hi incoming V hop hin
      rw [hfin V ⟨hrest, i, hi, incoming, hop, hin⟩]
      exact hphis i hi incoming V hop hin

variable (L P scev H available) in
/-- The states of the runs in which every load survives up to its uses. -/
def SurvivingRuns (s₀ s : State Val) : Prop :=
  Relation.ReflTransGen
    (fun s s' => CellStep L P scev H available s s' ∧ Survives L P scev H s s') s₀ s

theorem SurvivingRuns.runs (h : SurvivingRuns L P scev H available s₀ s) :
    Runs L P scev H available s₀ s :=
  Relation.ReflTransGen.mono (fun _ _ hstep => hstep.1) _ _ h

/-- **What `hoist` preserves.**  In a run in which the cell is modified only by stores
of the type to the address, a load of the cell reads what the cell holds, and every use
in a step receives that value after `hoist` if and only if the cell survives from the
load to the entry of the block of the use (to its end, for a phi node), for each load
that is used across blocks.  A run in which it always does is a run of the rewritten
program. -/
theorem hoist_receives_iff (L : Language Val) {I : InstId}
    (h : hoist P scev I = some (H, subst, available)) (hwf : WellFormed P scev H)
    (env : Value → Val) (mem : Val → Ty → Val) (ld : Val) :
    (∀ s s', Runs L P scev H available (start L P H env mem ld) s →
      CellStep L P scev H available s s' →
      (∀ i rest, s.rest = .inst i :: rest → isLoadOf P scev H i = true →
        s'.env (.inst i) = cell L H s) ∧
      (Receives P scev H subst available s s' ↔ Survives L P scev H s s')) ∧
    (∀ s, SurvivingRuns L P scev H available (start L P H env mem ld) s →
      Relation.ReflTransGen (Step L P H available (rewritten P scev H subst available))
        (start L P H env mem ld) s) := by
  have hh := hoist_hoisted h hwf
  refine ⟨fun s s' hruns hstep => ⟨?_, ?_⟩, fun s hruns => ?_⟩
  · intro i rest hrest hload
    obtain ⟨hstep, -, hscev⟩ := hstep
    cases hstep with
    | exec hrest' hvals heffect =>
      obtain ⟨hi, -⟩ := List.cons.inj (hrest.symm.trans hrest')
      obtain rfl := Item.inst.inj hi
      rw [mapM_original] at hvals
      obtain rfl := Option.some.inj hvals
      rw [← effect_load hload heffect fun pointer => hscev _ _ pointer hrest]
      exact Function.update_self _ _ _
    | load hrest' => rw [hrest] at hrest'; cases hrest'
    | edge hrest' => rw [hrest] at hrest'; cases hrest'
  · exact receives_iff hwf hh (Runs.invariant hwf hh.registered hruns) hstep
  · induction hruns with
    | refl => exact .refl
    | tail hprefix hstep ih =>
      have hinv := Runs.invariant hwf hh.registered (SurvivingRuns.runs hprefix)
      exact ih.tail (rewritten_step hwf hh hinv hstep.1 hstep.2)

/-! ## A store between a load and its use -/

/-- `int f(int *p) { int x = *p; *p = 5; ...; return x; }`, where the `return` is in a
block of its own. -/
def lateUse : Program where
  insts := [
    ⟨0, .other, .br 1, none, none⟩,
    ⟨1, .int 32, .load (.argument 0 0) false, none, none⟩,
    ⟨1, .other, .store (.constInt (.ofNat 32 5)) (.argument 0 0), none, none⟩,
    ⟨1, .other, .br 2, none, none⟩,
    ⟨2, .other, .ret (some (.inst 1)), none, none⟩]
  blocks := [⟨0, [], 0, []⟩, ⟨0, [1, 2], 3, [0]⟩, ⟨0, [], 4, [1]⟩]
  funcs := [⟨⟨"f", .external, "a.c"⟩, false, [.ptr (.int 32)], .int 32, [0, 1, 2]⟩]
  globals := []
  structs := []
  consts := []

/-- The pointer operands of both accesses are the argument. -/
def lateUseScev (_ : InstId) : SCEV := .unknown (.argument 0 0)

/-- The call of `hoist` for the load. -/
def lateUseTarget : Target where
  F := 0
  entry := 0
  S := .unknown (.argument 0 0)
  T := .int 32
  BaseV := .argument 0 0
  Offset := none

/-- The operands after the scan, and what is available at the ends of blocks. -/
def lateUseScan : (Value → Source) × List (BlockId × Source) :=
  scanBlocks lateUse lateUseScev lateUseTarget [0, 1, 2] .value

/-- Other instructions than loads and stores do nothing. -/
def lateUseLanguage : Language ℕ where
  addOffset p _ := p
  exec _ _ mem x mem' := x = 0 ∧ mem' = mem
  goes _ _ _ := True

/-- The pointer is 100, constants are what they are, and the load has read `x`. -/
def lateUseEnv (x : ℕ) : Value → ℕ
  | .argument _ _ => 100
  | .constInt c => c.toNat
  | .inst 1 => x
  | _ => 0

/-- A state in which the cell holds `c`. -/
def lateUseState (block : BlockId) (done rest : List Item) (x c : ℕ) (var : Option ℕ)
    (entryCell : ℕ) : State ℕ where
  block := block
  done := done
  rest := rest
  env := lateUseEnv x
  mem _ _ := c
  ld := 7
  var := var
  entryCell := entryCell

theorem lateUse_hoist :
    hoist lateUse lateUseScev 1 = some (lateUseTarget, lateUseScan.1, lateUseScan.2) := rfl

theorem lateUse_edge {Pred BB : ℕ} (h : Edge lateUse Pred BB) :
    (BB = 1 ∧ Pred = 0) ∨ (BB = 2 ∧ Pred = 1) := by
  match BB with
  | 0 => cases h
  | 1 => simpa [Edge, lateUse, Program.block] using h
  | 2 => simpa [Edge, lateUse, Program.block] using h
  | BB + 3 => cases h

theorem lateUse_blocks {BB : ℕ} (h : Reachable lateUse 0 BB) : BB = 0 ∨ BB = 1 ∨ BB = 2 := by
  cases h with
  | start _ => exact .inl rfl
  | step _ hedge _ => rcases lateUse_edge hedge with h | h <;> omega

/-- The block of the load is above that of its use. -/
theorem lateUse_above : Above lateUse lateUseTarget 2 (.inst 1) := by
  refine ⟨by decide, by decide, fun hpath => ?_⟩
  cases hpath with
  | step hpath hedge _ =>
    obtain rfl := List.mem_singleton.mp hedge
    exact hpath.not_mem rfl

/-- The only name that is used. -/
def lateUseUse (BB : BlockId) : Value → Bool
  | .inst i => BB = 2 ∧ i = 1
  | _ => true

theorem lateUse_wellFormed : WellFormed lateUse lateUseScev lateUseTarget where
  entry_block := rfl
  mem_blocks BB hBB := by
    rcases lateUse_blocks hBB with rfl | rfl | rfl <;> decide
  nodup_blocks := by decide
  inst_parent := by decide
  nodup := by decide
  phis_first BB := by
    match BB with
    | 0 => decide
    | 1 => decide
    | 2 => decide
    | BB + 3 =>
      rw [show body lateUse (BB + 3) = [5] from rfl]
      decide
  term BB hBB := by
    rcases lateUse_blocks hBB with rfl | rfl | rfl <;> rfl
  use BB hBB pre i post hpre _ U hU := by
    have hmem : i ∈ (lateUse.block BB).insts :=
      inst_mem_items.mp (hpre ▸ List.mem_append_right _ List.mem_cons_self)
    have huse : lateUseUse BB U = true := by
      have hall : ∀ B ∈ [0, 1, 2], ∀ i ∈ (lateUse.block B).insts,
          ∀ U ∈ (lateUse.inst i).op.operands, lateUseUse B U = true := by decide
      refine hall BB ?_ i hmem U hU
      rcases lateUse_blocks hBB with rfl | rfl | rfl <;> decide
    cases U with
    | inst j =>
      obtain ⟨rfl, rfl⟩ := of_decide_eq_true huse
      rintro x ⟨⟩
      exact .inl lateUse_above
    | _ => exact availableAt_value nofun
  incoming BB hBB i hi := by
    have hphis : phis lateUse BB = [] := by
      rcases lateUse_blocks hBB with rfl | rfl | rfl <;> rfl
    rw [hphis] at hi
    cases hi
  base_mem := nofun
  base _ _ _ _ _ _ _ _ := availableAt_value nofun


theorem lateUse_pointer {i : InstId} {p : Value} (h : pointerOperand lateUse i = some p) :
    p = .argument 0 0 := by
  match i with
  | 1 => exact (Option.some.inj h).symm
  | 2 => exact (Option.some.inj h).symm
  | 0 => cases h
  | 3 => cases h
  | 4 => cases h
  | i + 5 => cases h

/-- A step of an instruction. The load changes `x` and the store changes `c`. -/
theorem lateUse_exec {block : BlockId} {done rest : List Item} {i : InstId} {x x' c c' : ℕ}
    {var : Option ℕ} {e : ℕ}
    (heffect : Effect lateUseLanguage lateUse i ((lateUse.inst i).op.operands.map (lateUseEnv x))
      (fun _ _ => c) (lateUseEnv x' (.inst i)) fun _ _ => c')
    (hx : i ≠ 1 → x' = x) (hc : i ≠ 2 → c' = c) :
    CellStep lateUseLanguage lateUse lateUseScev lateUseTarget lateUseScan.2
      (lateUseState block done (.inst i :: rest) x c var e)
      (lateUseState block (done ++ [.inst i]) rest x' c' var e) := by
  have henv : Function.update (lateUseEnv x) (.inst i) (lateUseEnv x' (.inst i)) =
      lateUseEnv x' := by
    funext V
    by_cases hV : V = .inst i
    · rw [hV, Function.update_self]
    · rw [Function.update_of_ne hV]
      by_cases hi : i = 1
      · unfold lateUseEnv
        split
        · rfl
        · rfl
        · exact absurd (hi ▸ rfl) hV
        · rfl
      · rw [hx hi]
  have hstep : Step lateUseLanguage lateUse lateUseTarget lateUseScan.2 original
      (lateUseState block done (.inst i :: rest) x c var e)
      { lateUseState block (done ++ [.inst i]) rest x c' var e with
        env := Function.update (lateUseEnv x) (.inst i) (lateUseEnv x' (.inst i)) } :=
    .exec rfl (mapM_original _) heffect
  rw [henv] at hstep
  refine ⟨hstep, fun j rest' hrest hj => ?_, fun j rest' p hrest hp _ => ?_⟩
  · obtain rfl := Item.inst.inj (List.cons.inj hrest).1
    refine hc ?_
    rintro rfl
    cases hj
  · obtain rfl := Item.inst.inj (List.cons.inj hrest).1
    rw [lateUse_pointer hp]
    rfl

/-- The states of the runs. -/
abbrev LateUseRuns (s : State ℕ) : Prop :=
  Runs lateUseLanguage lateUse lateUseScev lateUseTarget lateUseScan.2
    (start lateUseLanguage lateUse lateUseTarget (lateUseEnv 0) (fun _ _ => 7) 7) s

theorem lateUse_edge_step {block BB : BlockId} {done : List Item} {x c : ℕ} {var : Option ℕ}
    {e : ℕ} (hedge : Edge lateUse block BB) (hphis : phis lateUse BB = []) :
    CellStep lateUseLanguage lateUse lateUseScev lateUseTarget lateUseScan.2
      (lateUseState block done [] x c var e)
      (enter lateUseLanguage lateUse lateUseTarget lateUseScan.2
        (lateUseState block done [] x c var e) BB (lateUseEnv x)) := by
  refine ⟨.edge rfl (mapM_original _) trivial hedge ?_ fun _ _ => rfl, nofun, nofun⟩
  rw [hphis]
  exact nofun

/-- Before the `return`, the load has read 7, and its use receives 5. The run goes through both
blocks; the store is the last instruction of the first one that touches the cell. -/
theorem lateUse_run : ∃ s s' : State ℕ, LateUseRuns s ∧
    CellStep lateUseLanguage lateUse lateUseScev lateUseTarget lateUseScan.2 s s' ∧
    Reads lateUse s (.inst 1) ∧ s.env (.inst 1) = 7 ∧
    (rewritten lateUse lateUseScev lateUseTarget lateUseScan.1 lateUseScan.2).mid s (.inst 1) =
      some 5 := by
  have h₁ : LateUseRuns (lateUseState 0 [.loadV] [.inst 0] 0 7 none 7) :=
    .single ⟨.load rfl, nofun, nofun⟩
  have h₂ : LateUseRuns (lateUseState 0 [.loadV, .inst 0] [] 0 7 none 7) :=
    h₁.tail (lateUse_exec ⟨rfl, rfl⟩ (fun _ => rfl) (fun _ => rfl))
  have h₃ : LateUseRuns (lateUseState 1 [] [.inst 1, .inst 2, .inst 3] 0 7 (some 7) 7) :=
    h₂.tail (lateUse_edge_step (List.mem_singleton_self _) rfl)
  -- the load, and then the store
  have h₄ : LateUseRuns (lateUseState 1 [.inst 1] [.inst 2, .inst 3] 7 7 (some 7) 7) :=
    h₃.tail (lateUse_exec ⟨rfl, rfl⟩ (fun h => absurd rfl h) (fun _ => rfl))
  have h₅ : LateUseRuns (lateUseState 1 [.inst 1, .inst 2] [.inst 3] 7 5 (some 7) 7) :=
    h₄.tail (lateUse_exec rfl (fun _ => rfl) (fun h => absurd rfl h))
  have h₆ : LateUseRuns (lateUseState 1 [.inst 1, .inst 2, .inst 3] [] 7 5 (some 7) 7) :=
    h₅.tail (lateUse_exec ⟨rfl, rfl⟩ (fun _ => rfl) (fun _ => rfl))
  have h₇ : LateUseRuns (lateUseState 2 [] [.inst 4] 7 5 (some 5) 5) :=
    h₆.tail (lateUse_edge_step (List.mem_singleton_self _) rfl)
  have hstep : CellStep lateUseLanguage lateUse lateUseScev lateUseTarget lateUseScan.2
      (lateUseState 2 [] [.inst 4] 7 5 (some 5) 5) (lateUseState 2 [.inst 4] [] 7 5 (some 5) 5) :=
    lateUse_exec ⟨rfl, rfl⟩ (fun _ => rfl) (fun _ => rfl)
  exact ⟨_, _, h₇, hstep, .inl ⟨4, [], rfl, List.mem_cons_self⟩, rfl, rfl⟩

/-- `hoist` lets a use receive what its load has not read. -/
theorem lateUse_lost : ∃ H subst available,
    hoist lateUse lateUseScev 1 = some (H, subst, available) ∧
    WellFormed lateUse lateUseScev H ∧
    ∃ s s' : State ℕ,
      Runs lateUseLanguage lateUse lateUseScev H available
        (start lateUseLanguage lateUse H (lateUseEnv 0) (fun _ _ => 7) 7) s ∧
      CellStep lateUseLanguage lateUse lateUseScev H available s s' ∧
      ¬ Receives lateUse lateUseScev H subst available s s' := by
  obtain ⟨s, s', hruns, hstep, hreads, hread, hreceived⟩ := lateUse_run
  refine ⟨_, _, _, lateUse_hoist, lateUse_wellFormed, s, s', hruns, hstep, fun hreceives => ?_⟩
  have heq := (hreceives 1 rfl).1 hreads
  rw [hreceived, hread] at heq
  exact absurd heq (by decide)

theorem lateUse_receives_iff : ∃ H subst available,
    hoist lateUse lateUseScev 1 = some (H, subst, available) ∧
    WellFormed lateUse lateUseScev H ∧
    ∀ s s' : State ℕ,
      Runs lateUseLanguage lateUse lateUseScev H available
        (start lateUseLanguage lateUse H (lateUseEnv 0) (fun _ _ => 7) 7) s →
      CellStep lateUseLanguage lateUse lateUseScev H available s s' →
      (Receives lateUse lateUseScev H subst available s s' ↔
        Survives lateUseLanguage lateUse lateUseScev H s s') := by
  refine ⟨_, _, _, lateUse_hoist, lateUse_wellFormed, fun s s' hruns hstep => ?_⟩
  obtain ⟨hsteps, -⟩ := hoist_receives_iff lateUseLanguage lateUse_hoist lateUse_wellFormed
    (lateUseEnv 0) (fun _ _ => 7) 7
  exact (hsteps s s' hruns hstep).2

end Kint.LoadRewrite
