import Kint.LoadRewrite.Scan

/-!
# The cell during a run

What an execution of the original program keeps, where only stores of the type to the address
modify the cell: the value that is known of the cell is what the cell holds, what is forwarded
for a load is what the load has read, and below the inserted load the variable of `SSAUpdater`
is what the cell held when the block was entered (`Runs.invariant`).

## The invariant

`Invariant` has one clause for each of these, next to where the run stands: the instructions of
the block are those that ran and those that did not.  The clauses support each other.  A load
reads what the cell holds, and what is known of the cell at the load is that value; so what the
scan forwards is what the load has read, as long as the name that is known still holds the same
(it does: its definition dominates the load, and no instruction on the way back to it is left
out).

## One step

The three kinds of steps have a lemma each: `Invariant.exec` for an instruction of the program,
`Invariant.load` for the inserted load, and `Invariant.edge`.  An instruction changes its own
name, and the memory if it is a store; the lemmas with `ran_` say what remains of each clause
after it.  At an edge the phi nodes change, which are neither available before it nor part of an
address (`Above.not_phi`, `base_ne`).

The invariant is about the original program alone.  What the rewritten one reads is compared
with it in `Kint.LoadRewrite.Preservation`.
-/

namespace Kint.LoadRewrite

variable {Val : Type} {L : Language Val} {P : Program} {scev : InstId → SCEV} {H : Target}
  {subst : Value → Source} {available : List (BlockId × Source)} {s s' s₀ : State Val}
  {BB : BlockId} {i b : InstId} {x : Item} {U v : Value} {V K A : Source} {rest : List Item}

/-! ## What an instruction changes -/

/-- The result of an instruction in the block of which the base pointer is not. -/
theorem base_ne (h : Above P H ((Item.inst i).home P H) .loadV) : H.BaseV ≠ .inst i := by
  intro hbase
  refine h.2.1 ?_
  simp [Item.home, loadBlock, hbase]

/-- What is available before an instruction is not its result. -/
theorem AvailableAt.ne_next {done : List Item} (hwf : WellFormed P scev H)
    (hBB : Reachable P H.entry BB) (hplace : items P H BB = done ++ x :: rest)
    (h : AvailableAt P H BB done V) : V.item? ≠ some x := by
  intro hx
  have hblock := hwf.mem_blocks BB hBB
  rcases h x hx with ⟨-, hne, -⟩ | ⟨-, hmem⟩
  · exact hne (hwf.home hblock (by simp [hplace]))
  · have hnodup : (items P H BB).Nodup := items_nodup (hwf.nodup BB hblock)
    rw [hplace, List.nodup_middle, List.nodup_cons] at hnodup
    exact hnodup.1 (List.mem_append_left _ hmem)

/-- What is available after an instruction was available before it, or is its
result. -/
theorem AvailableAt.of_append {done : List Item} (h : AvailableAt P H BB (done ++ [x]) V)
    (hne : V.item? ≠ some x) : AvailableAt P H BB done V := by
  intro y hy
  refine (h y hy).imp_right fun hdone => ⟨hdone.1, ?_⟩
  rcases List.mem_append.mp hdone.2 with hmem | hmem
  · exact hmem
  · exact absurd (List.mem_singleton.mp hmem ▸ hy) hne

/-- Phi nodes stand in the rewritten block too. -/
theorem phi_mem_items {j : InstId} (hj : j ∈ phis P BB) : .inst j ∈ items P H BB := by
  rw [inst_mem_items, ← insts_eq]
  exact List.mem_append_left _ hj

/-- A load is no phi node. -/
theorem load_not_mem_phis (hload : isLoadOf P scev H i = true) :
    Item.inst i ∉ (phis P BB).map .inst := by
  obtain ⟨pointer, hop, -⟩ := isLoadOf_eq_true hload
  exact inst_not_mem_phis (by rw [hop]; rfl)

/-- What is above a block is no phi node of it. -/
theorem Above.not_phi {j : InstId} (hwf : WellFormed P scev H) (hBB : Reachable P H.entry BB)
    (hj : j ∈ phis P BB) : ¬ Above P H BB (.inst j) := by
  rintro ⟨-, hne, -⟩
  exact hne (hwf.home (hwf.mem_blocks BB hBB) (phi_mem_items hj))

/-- An operand of the rewritten program has the same value in states that agree on it. -/
theorem sourceValue_congr (henv : ∀ U, V = .value U → s'.env U = s.env U)
    (hld : V = .loadV → s'.ld = s.ld) : sourceValue s' V = sourceValue s V := by
  cases V with
  | value U => exact henv U rfl
  | loadV => exact hld rfl

/-- The address of the cell depends on the base pointer only. -/
theorem address_congr {env env' : Value → Val} (h : env' H.BaseV = env H.BaseV) :
    address L H env' = address L H env := by
  unfold address
  rw [h]

/-- An operand that is not the result of an instruction is another value. -/
theorem item?_value (h : (Source.value U).item? ≠ some (.inst i)) : U ≠ .inst i := by
  rintro rfl
  exact h rfl

/-- The values of the operands in the original program. -/
theorem mapM_original (l : List Value) :
    l.mapM ((original : Reader Val).mid s) = some (l.map s.env) :=
  List.mapM_pure

/-! ## The invariant -/

variable (L P scev H) in
/-- What holds of every state of a run. The clauses about the cell are stated with the two programs
at once: `sourceValue` is what an operand of the rewritten program has as its value in the state. -/
structure Invariant (s : State Val) : Prop where
  reachable : Reachable P H.entry s.block
  place : ∃ pre, s.done = (phis P s.block).map .inst ++ pre ∧
    bodyItems P H s.block = pre ++ s.rest
  forwarded : ∀ A K, Forwards P scev H A K → AvailableAt P H s.block s.done A →
    sourceValue s K = sourceValue s A
  known : ∀ K, lastStored P scev H s.done = some K → sourceValue s K = cell L H s
  unstored : lastStored P scev H s.done = none → Above P H s.block .loadV →
    cell L H s = s.entryCell
  var : Above P H s.block .loadV → s.var = some s.entryCell

/-- The block consists of what ran and of what did not. -/
theorem Invariant.items_eq (h : Invariant L P scev H s) :
    items P H s.block = s.done ++ s.rest := by
  obtain ⟨pre, hdone, hbody⟩ := h.place
  rw [items, hbody, hdone, List.append_assoc]

/-- After the last instruction of the block. -/
theorem Invariant.done_eq (h : Invariant L P scev H s) (hrest : s.rest = []) :
    s.done = items P H s.block := by
  rw [h.items_eq, hrest, List.append_nil]

/-- The instructions that are still to run are no phi nodes. -/
theorem Invariant.not_phi (hwf : WellFormed P scev H) (h : Invariant L P scev H s)
    (hrest : s.rest = .inst i :: rest) : (P.inst i).op.isPhi = false := by
  obtain ⟨pre, -, hbody⟩ := h.place
  have hmem : Item.inst i ∈ bodyItems P H s.block := by simp [hbody, hrest]
  exact hwf.phis_first s.block i (inst_mem_bodyItems.mp hmem)

/-- The values of a chain are the same. -/
theorem Invariant.chain (hwf : WellFormed P scev H) (h : Invariant L P scev H s)
    (hchain : Chain P scev H A K) (hA : AvailableAt P H s.block s.done A) :
    sourceValue s K = sourceValue s A := by
  induction hchain with
  | refl => rfl
  | tail hprefix hstep ih =>
    rw [← ih]
    exact h.forwarded _ _ hstep (chain_available hwf h.reachable h.items_eq hprefix hA)

theorem Invariant.start (env : Value → Val) (mem : Val → Ty → Val) (ld : Val) :
    Invariant L P scev H (start L P H env mem ld) := by
  have habove : ∀ x, ¬ Above P H H.entry x := fun x hx => hx.2.1 hx.2.2.eq_entry
  have hlast : lastStored P scev H ((phis P H.entry).map .inst) = none :=
    lastStored_phis _ fun _ => isPhi_of_mem_phis
  refine ⟨Digraph.Reach.start, ⟨[], (List.append_nil _).symm, rfl⟩, ?_, ?_, ?_, ?_⟩
  · rintro A K ⟨I, rfl, hload, -⟩ hA
    rcases hA _ rfl with hI | ⟨-, hmem⟩
    · exact absurd hI (habove _)
    · exact absurd hmem (load_not_mem_phis hload)
  · intro K hK
    exact absurd (hlast.symm.trans hK) nofun
  · exact fun _ h => absurd h (habove _)
  · exact fun h => absurd h (habove _)

/-- A load of the cell reads what the cell holds. -/
theorem effect_load {x : Val} {mem' : Val → Ty → Val} (hload : isLoadOf P scev H i = true)
    (heffect : Effect L P i ((P.inst i).op.operands.map s.env) s.mem x mem')
    (hscev : ∀ pointer, pointerOperand P i = some pointer → scev i = H.S →
      s.env pointer = address L H s.env) : x = cell L H s := by
  obtain ⟨pointer, hop, hT, hS⟩ := isLoadOf_eq_true hload
  simp only [Effect, hop, Opcode.operands, List.map_cons, List.map_nil] at heffect
  rw [heffect.1, hT, hscev pointer (by simp [pointerOperand, hop]) hS]
  rfl

/-- A store to the cell. -/
theorem effect_store {x : Val} {mem' : Val → Ty → Val} (hstore : storeOf P scev H i = some v)
    (heffect : Effect L P i ((P.inst i).op.operands.map s.env) s.mem x mem')
    (hscev : ∀ pointer, pointerOperand P i = some pointer → scev i = H.S →
      s.env pointer = address L H s.env) : mem' (address L H s.env) H.T = s.env v := by
  obtain ⟨pointer, hop, hT, hS⟩ := storeOf_eq_some hstore
  simp only [Effect, hop, Opcode.operands, List.map_cons, List.map_nil] at heffect
  rw [← hscev pointer (by simp [pointerOperand, hop]) hS, ← hT]
  exact heffect

section Ran

variable {x : Val} {mem' : Val → Ty → Val}

/-- An instruction changes no operand but its own result. -/
theorem ran_sourceValue (hV : V.item? ≠ some (.inst i)) :
    sourceValue (s.ran i rest x mem') V = sourceValue s V := by
  refine sourceValue_congr (fun U hU => ?_) fun _ => rfl
  exact Function.update_of_ne (item?_value (hU ▸ hV)) _ _

/-- The cell after an instruction. -/
theorem ran_cell (hbase : H.BaseV ≠ .inst i) :
    cell L H (s.ran i rest x mem') = mem' (address L H s.env) H.T := by
  have haddress : address L H (s.ran i rest x mem').env = address L H s.env :=
    address_congr (Function.update_of_ne hbase _ _)
  unfold cell
  rw [haddress]
  rfl

variable (hwf : WellFormed P scev H) (h : Invariant L P scev H s)
  (hrest : s.rest = .inst i :: rest)
  (heffect : Effect L P i ((P.inst i).op.operands.map s.env) s.mem x mem')
  (honly : storeOf P scev H i = none → mem' (address L H s.env) H.T = cell L H s)
  (hscev : ∀ pointer, pointerOperand P i = some pointer → scev i = H.S →
    s.env pointer = address L H s.env)

include h hrest in
/-- The next instruction stands where the two parts of the block meet. -/
theorem Invariant.items_next : items P H s.block = s.done ++ .inst i :: rest := by
  rw [h.items_eq, hrest]

include hwf h hrest in
/-- What is available before the instruction is kept. -/
theorem Invariant.ran_available (hV : AvailableAt P H s.block s.done V) :
    sourceValue (s.ran i rest x mem') V = sourceValue s V :=
  ran_sourceValue (hV.ne_next hwf h.reachable (h.items_next hrest))

include hwf h hrest heffect hscev in
/-- What is forwarded for a load is what the load has read. -/
theorem Invariant.ran_forwarded (hforward : Forwards P scev H A K)
    (hA : AvailableAt P H s.block (s.done ++ [.inst i]) A) :
    sourceValue (s.ran i rest x mem') K = sourceValue (s.ran i rest x mem') A := by
  have hitems := h.items_next hrest
  by_cases hAi : A.item? = some (.inst i)
  · -- the load itself
    obtain ⟨I, rfl, hload, -⟩ := id hforward
    obtain rfl : I = i := by simpa [Source.item?] using hAi
    have hlast := hforward.known hwf (hwf.mem_blocks _ h.reachable) hitems
    have hK := (lastStored_available hwf h.reachable hitems hlast).1
    rw [h.ran_available hwf hrest hK, h.known K hlast]
    show cell L H s = Function.update s.env (.inst I) x (.inst I)
    rw [Function.update_self, effect_load hload heffect hscev]
  · have hA' := hA.of_append hAi
    have hK := hforward.available hwf h.reachable hitems hA'
    rw [h.ran_available hwf hrest hK, ran_sourceValue hAi]
    exact h.forwarded A K hforward hA'

include hwf h hrest heffect honly hscev in
/-- The value that is known after the instruction is what the cell holds. Either the instruction is
a store to the cell, and its operand becomes what is known; or it is not, and then neither the cell
nor what is known of it changes. -/
theorem Invariant.ran_known (hK : lastStored P scev H (s.done ++ [.inst i]) = some K) :
    sourceValue (s.ran i rest x mem') K = cell L H (s.ran i rest x mem') := by
  have hitems := h.items_next hrest
  rw [lastStored_append] at hK
  cases hstore : storeOf P scev H i with
  | none =>
    rw [known_other hstore] at hK
    obtain ⟨hKavail, hbase⟩ := lastStored_available hwf h.reachable hitems hK
    rw [h.ran_available hwf hrest hKavail,
      ran_cell (item?_value (hbase.ne_next hwf h.reachable hitems)), honly hstore]
    exact h.known K hK
  | some v =>
    rw [known_store hstore] at hK
    obtain rfl := Option.some.inj hK
    obtain ⟨pointer, hop, -, hS⟩ := storeOf_eq_some hstore
    have hv : AvailableAt P H s.block s.done (.value v) :=
      hwf.use _ h.reachable _ i rest hitems (h.not_phi hwf hrest) v
        (by simp [hop, Opcode.operands])
    have hbase : AvailableAt P H s.block s.done (.value H.BaseV) :=
      hwf.base _ h.reachable _ i rest hitems (by simp [pointerOperand, hop]) hS
    rw [h.ran_available hwf hrest hv,
      ran_cell (item?_value (hbase.ne_next hwf h.reachable hitems))]
    exact (effect_store hstore heffect hscev).symm

include hwf h hrest honly in
/-- Without a store, the cell is as it was when the block was entered. -/
theorem Invariant.ran_unstored (hlast : lastStored P scev H (s.done ++ [.inst i]) = none)
    (habove : Above P H s.block .loadV) :
    cell L H (s.ran i rest x mem') = s.entryCell := by
  rw [lastStored_append] at hlast
  have hstore : storeOf P scev H i = none := by
    cases hstore : storeOf P scev H i with
    | none => rfl
    | some v => rw [known_store hstore] at hlast; cases hlast
  rw [known_other hstore] at hlast
  have hhome : (Item.inst i).home P H = s.block :=
    hwf.home (hwf.mem_blocks _ h.reachable) (by simp [h.items_next hrest])
  rw [ran_cell (base_ne (hhome ▸ habove)), honly hstore]
  exact h.unstored hlast habove

include hwf h hrest heffect honly hscev in
/-- An instruction keeps the invariant. -/
theorem Invariant.exec : Invariant L P scev H (s.ran i rest x mem') := by
  obtain ⟨pre, hdone, hbody⟩ := h.place
  refine ⟨h.reachable, ⟨pre ++ [.inst i], ?_, ?_⟩,
    fun _ _ hforward hA => h.ran_forwarded hwf hrest heffect hscev hforward hA,
    fun _ hK => h.ran_known hwf hrest heffect honly hscev hK,
    fun hlast habove => h.ran_unstored hwf hrest honly hlast habove, h.var⟩
  · show s.done ++ [.inst i] = _
    rw [hdone, List.append_assoc]
    rfl
  · show bodyItems P H s.block = _
    rw [hbody, hrest, List.append_assoc]
    rfl

end Ran

/-- The inserted load keeps the invariant. It reads what the cell holds. What is known of the cell,
if anything is, has this value too, and the names of the program are not touched. -/
theorem Invariant.load (hwf : WellFormed P scev H) (h : Invariant L P scev H s)
    (hrest : s.rest = .loadV :: rest) :
    Invariant L P scev H (s.loaded rest (cell L H s)) := by
  have hitems : items P H s.block = s.done ++ .loadV :: rest := by rw [h.items_eq, hrest]
  have hkeep : ∀ V, AvailableAt P H s.block s.done V →
      sourceValue (s.loaded rest (cell L H s)) V = sourceValue s V := by
    intro V hV
    refine sourceValue_congr (fun _ _ => rfl) ?_
    rintro rfl
    exact absurd rfl (hV.ne_next hwf h.reachable hitems)
  obtain ⟨pre, hdone, hbody⟩ := h.place
  refine ⟨h.reachable, ⟨pre ++ [.loadV], ?_, ?_⟩, ?_, ?_, ?_, h.var⟩
  · show s.done ++ [.loadV] = _
    rw [hdone, List.append_assoc]
    rfl
  · show bodyItems P H s.block = _
    rw [hbody, hrest, List.append_assoc]
    rfl
  · intro A K hforward hA
    have hne : A.item? ≠ some .loadV := by
      obtain ⟨I, rfl, -⟩ := hforward
      exact nofun
    have hA' := hA.of_append hne
    rw [hkeep K (hforward.available hwf h.reachable hitems hA'), hkeep A hA']
    exact h.forwarded A K hforward hA'
  · intro K hK
    have hK' : some ((lastStored P scev H s.done).getD .loadV) = some K :=
      lastStored_append.symm.trans hK
    cases hlast : lastStored P scev H s.done with
    | none =>
      rw [hlast] at hK'
      obtain rfl := Option.some.inj hK'
      rfl
    | some K' =>
      rw [hlast] at hK'
      obtain rfl : K' = K := Option.some.inj hK'
      rw [hkeep _ (lastStored_available hwf h.reachable hitems hlast).1]
      exact h.known _ hlast
  · intro hlast
    exact absurd (lastStored_eq_none hlast) (by simp [State.loaded])

/-- What `SSAUpdater` has at the end of a block below the inserted load, or of that of
the inserted load, is what the cell holds. -/
theorem Invariant.varEnd (hwf : WellFormed P scev H)
    (hregistered : Registered P scev H (P.func H.F).blocks available)
    (h : Invariant L P scev H s) (hrest : s.rest = [])
    (hload : DefinedAt P H s.block (items P H s.block) .loadV) :
    varEnd available s = some (cell L H s) := by
  have hdone := h.done_eq hrest
  unfold LoadRewrite.varEnd
  cases hlookup : available.lookup s.block with
  | some V =>
    obtain ⟨K, hK, hchain⟩ := hregistered.some _ _ hlookup
    have hitems : items P H s.block = items P H s.block ++ [] := (List.append_nil _).symm
    have hKavail := (lastStored_available hwf h.reachable hitems hK).1
    rw [← hdone] at hKavail hK
    show some (sourceValue s V) = some (cell L H s)
    rw [h.chain hwf hchain hKavail, h.known K hK]
  | none =>
    have hlast := hregistered.none _ (hwf.mem_blocks _ h.reachable) hlookup
    have habove : Above P H s.block .loadV := by
      rcases hload with hload | ⟨-, hmem⟩
      · exact hload
      · exact absurd hmem (lastStored_eq_none hlast)
    show s.var = some (cell L H s)
    rw [h.var habove, h.unstored (hdone ▸ hlast) habove]

/-- An edge keeps the invariant. What is known in a block is forgotten at its end. The variable of
`SSAUpdater` takes over: it is set if something is available at the end of the block, and stays as
it is otherwise, in which case no store was in the block. -/
theorem Invariant.edge {env : Value → Val} (hwf : WellFormed P scev H)
    (hregistered : Registered P scev H (P.func H.F).blocks available)
    (h : Invariant L P scev H s) (hrest : s.rest = []) (hedge : Edge P s.block BB)
    (henv : ∀ V, (∀ i ∈ phis P BB, V ≠ .inst i) → env V = s.env V) :
    Invariant L P scev H (enter L P H available s BB env) := by
  have hBB : Reachable P H.entry BB := h.reachable.step hedge
  have hdone := h.done_eq hrest
  -- what is above the block keeps its value
  have hkeep : ∀ V, (∀ x, V.item? = some x → Above P H BB x) →
      sourceValue (enter L P H available s BB env) V = sourceValue s V := by
    intro V hV
    refine sourceValue_congr ?_ fun _ => rfl
    rintro U rfl
    refine henv U fun j hj hU => Above.not_phi hwf hBB hj (hV _ ?_)
    rw [hU]
    rfl
  have hlast : lastStored P scev H ((phis P BB).map .inst) = none :=
    lastStored_phis _ fun _ => isPhi_of_mem_phis
  refine ⟨hBB, ⟨[], (List.append_nil _).symm, rfl⟩, ?_, ?_, fun _ _ => rfl, ?_⟩
  · intro A K hforward hA
    obtain ⟨I, rfl, hload, B, hB, pre, post, hpre, hK⟩ := id hforward
    have habove : Above P H BB (.inst I) :=
      (hA _ rfl).resolve_right fun hI => load_not_mem_phis hload hI.2
    obtain rfl : (Item.inst I).home P H = B := hwf.home hB (by simp [hpre])
    have hKavail := (lastStored_available hwf (habove.reachable hBB) hpre hK).1
    have hA' : ∀ x, (Source.value (.inst I)).item? = some x → Above P H BB x := by
      rintro x ⟨⟩
      exact habove
    have hK' : ∀ x, K.item? = some x → Above P H BB x := fun x hx =>
      (hKavail x hx).above habove hBB fun z hz => hpre ▸ List.mem_append_left _ hz
    rw [hkeep K hK', hkeep _ hA']
    refine h.forwarded _ K hforward fun x hx => ?_
    rw [hdone]
    exact (hA' x hx).pred hedge
  · intro K hK
    exact absurd (hlast.symm.trans hK) nofun
  · intro habove
    have hbase : address L H env = address L H s.env := by
      refine address_congr (henv _ fun j hj hV => ?_)
      refine habove.2.1 ?_
      show loadBlock P H = BB
      rw [← hwf.home (hwf.mem_blocks BB hBB) (phi_mem_items hj)]
      simp [Item.home, loadBlock, hV]
    show LoadRewrite.varEnd available s = some (s.mem (address L H env) H.T)
    rw [hbase]
    exact h.varEnd hwf hregistered hrest (habove.pred hedge)

/-- One step keeps the invariant. -/
theorem Invariant.step (hwf : WellFormed P scev H)
    (hregistered : Registered P scev H (P.func H.F).blocks available)
    (h : Invariant L P scev H s) (hstep : CellStep L P scev H available s s') :
    Invariant L P scev H s' := by
  obtain ⟨hstep, honly, hscev⟩ := hstep
  cases hstep with
  | exec hrest hvals heffect =>
    rw [mapM_original] at hvals
    obtain rfl := Option.some.inj hvals
    exact h.exec hwf hrest heffect (honly _ _ hrest) fun pointer => hscev _ _ pointer hrest
  | load hrest => exact h.load hwf hrest
  | edge hrest _ _ hedge _ henv => exact h.edge hwf hregistered hrest hedge henv

/-- Every state of a run has the invariant. -/
theorem Runs.invariant {env : Value → Val} {mem : Val → Ty → Val} {ld : Val}
    (hwf : WellFormed P scev H)
    (hregistered : Registered P scev H (P.func H.F).blocks available)
    (h : Runs L P scev H available (LoadRewrite.start L P H env mem ld) s) :
    Invariant L P scev H s := by
  induction h with
  | refl => exact .start env mem ld
  | tail _ hstep ih => exact ih.step hwf hregistered hstep

end Kint.LoadRewrite
