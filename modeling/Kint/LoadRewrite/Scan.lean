import Mathlib.Data.List.Basic
import Kint.LoadRewrite.Place

/-!
# The scan of `hoist`

What the scan does is stated without the scan.  In its block, a load of the cell comes after a
last store, or after the inserted load, or after neither (`lastStored`); in the first two cases
the scan forwards to the uses of the load what is known of the cell (`Forwards`).  The operands
in the end are the ends of such chains (`ScanInv`), so the loads whose uses are left to
`SSAUpdater` can be told from the function alone (`ReadsAcross`, `viaSSA_iff`).

## The invariant of the loops

`ScanInv` is about the instructions that were scanned.  The current operand for an original one
is the end of a chain of forwarded loads, and the chain is followed as far as the scan has come:
if its end is a load that was scanned, nothing is forwarded for that load (`Resolved`).  The
value that the scan knows of the cell is the current operand for what `lastStored` says.

`replaceAllUsesWith` changes all operands at once, those of the instructions that come later and
those that were replaced before.  So the invariant speaks of all operands, and not only of those
of the instructions behind.

## Main results

* `ScanInv.step`, `scanBlock_inv`, `scanBlocks_inv`: one round, one block and all blocks.
* `Registered`: what `SSAUpdater` is told of the ends of blocks.
* `hoist_hoisted`: all of this for a call of `hoist`, as one structure (`Hoisted`).
* `viaSSA_iff`: which uses are rewritten by `SSAUpdater`.
-/

namespace Kint.LoadRewrite

variable {P : Program} {scev : InstId → SCEV} {H : Target} {BB : BlockId} {i I : InstId}
  {x : Item} {pre post : List Item} {U v : Value} {V K : Source} {σ : Value → Source}

theorem storeOf_eq_some (h : storeOf P scev H i = some v) :
    ∃ pointer, (P.inst i).op = .store v pointer ∧ P.typeOf v = H.T ∧ scev i = H.S := by
  unfold storeOf at h
  split at h
  · rename_i value pointer hop
    obtain ⟨hmatch, hv⟩ := Option.ite_none_right_eq_some.mp h
    obtain rfl := Option.some.inj hv
    exact ⟨pointer, hop, hmatch⟩
  · cases h

theorem isLoadOf_eq_true (h : isLoadOf P scev H i = true) :
    ∃ pointer, (P.inst i).op = .load pointer false ∧ (P.inst i).ty = H.T ∧ scev i = H.S := by
  unfold isLoadOf at h
  split at h
  · rename_i pointer hop
    obtain ⟨hT, hS⟩ := Bool.and_eq_true_iff.mp h
    exact ⟨pointer, hop, of_decide_eq_true hT, of_decide_eq_true hS⟩
  · cases h

theorem storeOf_eq_none_of_isLoadOf (h : isLoadOf P scev H i = true) :
    storeOf P scev H i = none := by
  obtain ⟨pointer, hop, -⟩ := isLoadOf_eq_true h
  simp [storeOf, hop]

/-! ## What is known in a block -/

variable (P scev H) in
/-- What an instruction does to the value that is known of the cell, as an operand of
the original program. -/
def known (V : Option Source) : Item → Option Source
  | .inst i => (storeOf P scev H i).elim V fun v => some (.value v)
  | .loadV => some (V.getD .loadV)

variable (P scev H) in
/-- The value of the cell that is known after instructions of a block: that of the
last store, or the inserted load. -/
def lastStored (is : List Item) : Option Source := is.foldl (known P scev H) none

/-- Nothing is known at the beginning of a block. -/
@[simp] theorem lastStored_nil : lastStored P scev H [] = none := rfl

theorem lastStored_append : lastStored P scev H (pre ++ [x]) =
    known P scev H (lastStored P scev H pre) x := by
  simp [lastStored, List.foldl_append]

theorem known_store (h : storeOf P scev H i = some v) (V : Option Source) :
    known P scev H V (.inst i) = some (.value v) := by
  simp [known, h]

theorem known_other (h : storeOf P scev H i = none) (V : Option Source) :
    known P scev H V (.inst i) = V := by
  simp [known, h]

/-- Where nothing is known, the inserted load has not come yet. -/
theorem lastStored_eq_none (h : lastStored P scev H pre = none) : Item.loadV ∉ pre := by
  induction pre using List.reverseRecOn with
  | nil => exact List.not_mem_nil
  | append_singleton pre x ih =>
    rw [lastStored_append] at h
    cases x with
    | inst i =>
      have hpre : lastStored P scev H pre = none := by
        cases hstore : storeOf P scev H i with
        | none => rwa [known_other hstore] at h
        | some v => simp [known_store hstore] at h
      simpa using ih hpre
    | loadV => cases h

/-- Nothing is known after phi nodes. -/
theorem lastStored_phis (is : List InstId) (h : ∀ i ∈ is, (P.inst i).op.isPhi = true) :
    lastStored P scev H (is.map .inst) = none := by
  induction is using List.reverseRecOn with
  | nil => rfl
  | append_singleton is i ih =>
    have hstore : storeOf P scev H i = none := by
      have hphi := h i (by simp)
      unfold storeOf
      split
      · rename_i hop
        simp [hop, Opcode.isPhi] at hphi
      · rfl
    rw [List.map_append, List.map_singleton, lastStored_append, known_other hstore]
    exact ih fun j hj => h j (List.mem_append_left _ hj)

/-- The known value is defined, and so is the base pointer. A store has the base pointer in its
address, and its value is an operand; the inserted load stands behind the definition of the base
pointer. -/
theorem lastStored_available (hwf : WellFormed P scev H) (hBB : Reachable P H.entry BB)
    (hpre : items P H BB = pre ++ post) (hK : lastStored P scev H pre = some K) :
    AvailableAt P H BB pre K ∧ AvailableAt P H BB pre (.value H.BaseV) := by
  induction pre using List.reverseRecOn generalizing post with
  | nil => cases hK
  | append_singleton pre x ih =>
    rw [List.append_assoc] at hpre
    have hmono : ∀ {V : Source}, AvailableAt P H BB pre V → AvailableAt P H BB (pre ++ [x]) V :=
      fun h => h.mono fun _ hy => List.mem_append_left _ hy
    rw [lastStored_append] at hK
    cases x with
    | inst i =>
      cases hstore : storeOf P scev H i with
      | none =>
        rw [known_other hstore] at hK
        exact (ih hpre hK).imp hmono hmono
      | some v =>
        rw [known_store hstore] at hK
        obtain rfl := Option.some.inj hK
        obtain ⟨pointer, hop, -, hS⟩ := storeOf_eq_some hstore
        have hv : AvailableAt P H BB pre (.value v) :=
          hwf.use BB hBB pre i post hpre (by simp [hop, Opcode.isPhi]) v
            (by simp [hop, Opcode.operands])
        have hbase := hwf.base BB hBB pre i post hpre (by simp [pointerOperand, hop]) hS
        exact ⟨hmono hv, hmono hbase⟩
    | loadV =>
      cases hlast : lastStored P scev H pre with
      | none =>
        rw [hlast] at hK
        obtain rfl := Option.some.inj hK
        refine ⟨?_, hmono (base_available hwf hpre)⟩
        rintro x ⟨⟩
        have hmem : Item.loadV ∈ items P H BB := by simp [hpre]
        exact .inr ⟨(loadV_mem_items.mp hmem).symm, by simp⟩
      | some K' =>
        rw [hlast] at hK
        obtain rfl := Option.some.inj hK
        exact (ih hpre hlast).imp hmono hmono

/-! ## Forwarding in a block -/

variable (P scev H) in
/-- The first operand is a load of the cell, and the second one is known of the cell
before that load, in its block. -/
def Forwards (A K : Source) : Prop :=
  ∃ I, A = .value (.inst I) ∧ isLoadOf P scev H I = true ∧
    ∃ BB ∈ (P.func H.F).blocks, ∃ pre post, items P H BB = pre ++ .inst I :: post ∧
      lastStored P scev H pre = some K

variable (P scev H) in
/-- Some operands are forwarded one after the other. -/
abbrev Chain : Source → Source → Prop := Relation.ReflTransGen (Forwards P scev H)

/-- Where a load stands is known from the function. -/
theorem Forwards.known (hwf : WellFormed P scev H) (hBB : BB ∈ (P.func H.F).blocks)
    (hpre : items P H BB = pre ++ .inst I :: post)
    (h : Forwards P scev H (.value (.inst I)) K) : lastStored P scev H pre = some K := by
  obtain ⟨J, hJ, -, B, hB, pre', post', hpre', hK⟩ := h
  obtain rfl : I = J := by simpa using hJ
  have hhome : (Item.inst I).home P H = BB := hwf.home hBB (by simp [hpre])
  obtain rfl : B = BB := (hwf.home hB (by simp [hpre'])).symm.trans hhome
  have hnodup : (pre ++ .inst I :: post).Nodup :=
    hpre ▸ items_nodup (hwf.nodup B hB)
  have hnot : Item.inst I ∉ pre ∧ Item.inst I ∉ post := by
    rw [List.nodup_middle, List.nodup_cons, List.mem_append, not_or] at hnodup
    exact hnodup.1
  obtain ⟨rfl, -⟩ := (List.append_cons_inj_of_notMem hnot.1 hnot.2).mp (hpre'.symm.trans hpre).symm
  exact hK

theorem Forwards.unique {K' : Source} (hwf : WellFormed P scev H)
    (h : Forwards P scev H V K) (h' : Forwards P scev H V K') : K = K' := by
  obtain ⟨I, rfl, -, BB, hBB, pre, post, hpre, hK⟩ := h
  exact Option.some.inj (hK.symm.trans (h'.known hwf hBB hpre))

/-- What is forwarded for a load is defined wherever the load is. -/
theorem Forwards.available {done rest : List Item} (hwf : WellFormed P scev H)
    (hBB : Reachable P H.entry BB) (hdone : items P H BB = done ++ rest)
    (h : Forwards P scev H V K) (hV : AvailableAt P H BB done V) :
    AvailableAt P H BB done K := by
  obtain ⟨I, rfl, -, B, hB, pre, post, hpre, hK⟩ := h
  have hI : DefinedAt P H BB done (.inst I) := hV _ rfl
  obtain rfl : (Item.inst I).home P H = B := hwf.home hB (by simp [hpre])
  have hreach : Reachable P H.entry ((Item.inst I).home P H) := by
    rcases hI with hI | ⟨hhome, -⟩
    · exact hI.reachable hBB
    · exact hhome ▸ hBB
  exact (lastStored_available hwf hreach hpre hK).1.trans hwf hBB hpre hdone hI

theorem chain_available {done rest : List Item} (hwf : WellFormed P scev H)
    (hBB : Reachable P H.entry BB) (hdone : items P H BB = done ++ rest)
    (h : Chain P scev H V K) (hV : AvailableAt P H BB done V) : AvailableAt P H BB done K := by
  induction h with
  | refl => exact hV
  | tail _ hstep ih => exact hstep.available hwf hBB hdone ih

/-! ## The scan -/

variable (P H) in
/-- The operand is defined at some place that control may reach. -/
def Placed (V : Source) : Prop :=
  ∃ BB done rest, Reachable P H.entry BB ∧ items P H BB = done ++ rest ∧
    AvailableAt P H BB done V

/-- What a chain leads to is defined at a place that control may reach. -/
theorem Placed.chain (hwf : WellFormed P scev H) (h : Placed P H V)
    (hchain : Chain P scev H V K) : Placed P H K := by
  obtain ⟨BB, done, rest, hBB, hdone, hV⟩ := h
  exact ⟨BB, done, rest, hBB, hdone, chain_available hwf hBB hdone hchain hV⟩

/-- A load that is placed stands in a block that control may reach. -/
theorem Placed.inst (h : Placed P H (.value (.inst I))) :
    Reachable P H.entry ((Item.inst I).home P H) ∧
      .inst I ∈ items P H ((Item.inst I).home P H) := by
  obtain ⟨BB, done, rest, hBB, hdone, hI⟩ := h
  rcases hI _ rfl with hI | ⟨hhome, hmem⟩
  · exact ⟨hI.reachable hBB, hI.1⟩
  · rw [hhome, hdone]
    exact ⟨hBB, List.mem_append_left _ hmem⟩

variable (P scev H) in
/-- If the operand is a load that was scanned, nothing is forwarded for it. -/
def Resolved (scanned : List Item) (V : Source) : Prop :=
  ∀ I, V = .value (.inst I) → .inst I ∈ scanned → ∀ K, ¬ Forwards P scev H V K

/-- An operand stays resolved when one more instruction is scanned for which nothing is forwarded.
-/
theorem Resolved.append {scanned : List Item} (h : Resolved P scev H scanned V)
    (hx : ∀ I, x = .inst I → V = .value (.inst I) → ∀ K, ¬ Forwards P scev H V K) :
    Resolved P scev H (scanned ++ [x]) V := by
  intro I hI hmem
  rcases List.mem_append.mp hmem with hmem | hmem
  · exact h I hI hmem
  · exact hx I (List.mem_singleton.mp hmem).symm hI

variable (P scev H) in
/-- The state of the scan after `scanned` and, in the current block, `pre`. A chain is followed as
far as the scan has come (`resolved`), and what is known of the cell is the end of a chain, too. -/
structure ScanInv (scanned : List Item) (BB : BlockId) (pre : List Item) (st : Scan) :
    Prop where
  chained : ∀ U, Chain P scev H (.value U) (st.subst U)
  resolved : ∀ U, Placed P H (.value U) → Resolved P scev H (scanned ++ pre) (st.subst U)
  known_none : st.V = none ↔ lastStored P scev H pre = none
  known : ∀ V, st.V = some V → ∃ K, lastStored P scev H pre = some K ∧ Chain P scev H K V
  known_resolved : Reachable P H.entry BB → ∀ V, st.V = some V →
    Resolved P scev H (scanned ++ pre) V

variable {scanned : List Item} {st : Scan}

/-- What is known before an instruction is not the instruction itself. -/
theorem ScanInv.known_ne (hwf : WellFormed P scev H) (hBB : BB ∈ (P.func H.F).blocks)
    (hreach : Reachable P H.entry BB) (hpre : items P H BB = pre ++ .inst i :: post)
    (h : ScanInv P scev H scanned BB pre st) (hV : st.V = some V) :
    V ≠ .value (.inst i) := by
  rintro rfl
  obtain ⟨K, hK, hchain⟩ := h.known _ hV
  have hhome : (Item.inst i).home P H = BB := hwf.home hBB (by simp [hpre])
  have hnodup : (items P H BB).Nodup := items_nodup (hwf.nodup BB hBB)
  rcases chain_available hwf hreach hpre hchain
    (lastStored_available hwf hreach hpre hK).1 (.inst i) rfl with ⟨-, hne, -⟩ | ⟨-, hmem⟩
  · exact hne hhome
  · rw [hpre, List.nodup_middle, List.nodup_cons] at hnodup
    exact hnodup.1 (List.mem_append_left _ hmem)

/-- Nothing is forwarded for what is no load of the cell, nor for a load before which
nothing is known. -/
theorem not_forwards (hwf : WellFormed P scev H) (hBB : BB ∈ (P.func H.F).blocks)
    (hpre : items P H BB = pre ++ .inst i :: post)
    (h : isLoadOf P scev H i = true → lastStored P scev H pre = none) :
    ∀ I, Item.inst i = .inst I → V = .value (.inst I) → ∀ K, ¬ Forwards P scev H V K := by
  rintro I ⟨⟩ rfl K hK
  have hload : isLoadOf P scev H i = true := by
    obtain ⟨J, hJ, hload, -⟩ := hK
    obtain rfl : i = J := by simpa using hJ
    exact hload
  have hknown := hK.known hwf hBB hpre
  rw [h hload] at hknown
  cases hknown

/-- A store makes its value known. The value is the current operand for the one that the store has,
so it is at the end of a chain already. -/
theorem ScanInv.store {V₀ : Option Source} (hwf : WellFormed P scev H)
    (hBB : BB ∈ (P.func H.F).blocks) (hpre : items P H BB = pre ++ .inst i :: post)
    (h : ScanInv P scev H scanned BB pre ⟨V₀, σ⟩) (hstore : storeOf P scev H i = some v) :
    ScanInv P scev H scanned BB (pre ++ [.inst i]) ⟨some (σ v), σ⟩ := by
  have hnot : isLoadOf P scev H i = true → lastStored P scev H pre = none := by
    intro hload
    rw [storeOf_eq_none_of_isLoadOf hload] at hstore
    cases hstore
  have hlast : lastStored P scev H (pre ++ [.inst i]) = some (.value v) := by
    rw [lastStored_append, known_store hstore]
  have hresolved : ∀ U, Placed P H (.value U) →
      Resolved P scev H (scanned ++ (pre ++ [.inst i])) (σ U) := by
    intro U hU
    rw [← List.append_assoc]
    exact (h.resolved U hU).append (not_forwards hwf hBB hpre hnot)
  refine ⟨h.chained, hresolved, by simp [hlast], fun V hV => ?_, fun hreach V hV => ?_⟩
  · obtain rfl := Option.some.inj hV
    exact ⟨.value v, hlast, h.chained v⟩
  · obtain rfl := Option.some.inj hV
    obtain ⟨pointer, hop, -⟩ := storeOf_eq_some hstore
    refine hresolved v ⟨BB, pre, .inst i :: post, hreach, hpre, ?_⟩
    exact hwf.use BB hreach pre i post hpre (by simp [hop, Opcode.isPhi]) v
      (by simp [hop, Opcode.operands])

/-- What is known stays resolved. -/
theorem ScanInv.known_append (hwf : WellFormed P scev H) (hBB : BB ∈ (P.func H.F).blocks)
    (hpre : items P H BB = pre ++ .inst i :: post) (h : ScanInv P scev H scanned BB pre st)
    (hreach : Reachable P H.entry BB) (hV : st.V = some V) :
    Resolved P scev H (scanned ++ (pre ++ [.inst i])) V := by
  rw [← List.append_assoc]
  refine (h.known_resolved hreach V hV).append ?_
  rintro I ⟨⟩ heq
  exact absurd heq (h.known_ne hwf hBB hreach hpre hV)

/-- The scan passes over other instructions, and over loads before which nothing is
known. -/
theorem ScanInv.skip (hwf : WellFormed P scev H) (hBB : BB ∈ (P.func H.F).blocks)
    (hpre : items P H BB = pre ++ .inst i :: post) (h : ScanInv P scev H scanned BB pre st)
    (hstore : storeOf P scev H i = none)
    (hnot : isLoadOf P scev H i = true → lastStored P scev H pre = none) :
    ScanInv P scev H scanned BB (pre ++ [.inst i]) st := by
  have hlast : lastStored P scev H (pre ++ [.inst i]) = lastStored P scev H pre := by
    rw [lastStored_append, known_other hstore]
  refine ⟨h.chained, fun U hU => ?_, by rw [hlast]; exact h.known_none,
    by rw [hlast]; exact h.known, fun hreach V hV => h.known_append hwf hBB hpre hreach hV⟩
  rw [← List.append_assoc]
  exact (h.resolved U hU).append (not_forwards hwf hBB hpre hnot)

/-- A load is replaced by what is known. All operands that were the load become what is known. The
chain of such an operand is longer by one element, and the others stay. -/
theorem ScanInv.replace (hwf : WellFormed P scev H) (hBB : BB ∈ (P.func H.F).blocks)
    (hpre : items P H BB = pre ++ .inst i :: post)
    (h : ScanInv P scev H scanned BB pre ⟨some V, σ⟩) (hload : isLoadOf P scev H i = true) :
    ScanInv P scev H scanned BB (pre ++ [.inst i]) ⟨some V, replaceAllUsesWith σ i V⟩ := by
  have hlast : lastStored P scev H (pre ++ [.inst i]) = lastStored P scev H pre := by
    rw [lastStored_append, known_other (storeOf_eq_none_of_isLoadOf hload)]
  have hσ : ∀ U, Chain P scev H (.value U) (σ U) := h.chained
  obtain ⟨K, hK, hchain⟩ := h.known V rfl
  refine ⟨fun U => ?_, fun U hU => ?_, by rw [hlast]; exact h.known_none,
    by rw [hlast]; exact h.known, fun hreach V' hV' => h.known_append hwf hBB hpre hreach hV'⟩
  · show Chain P scev H (.value U) (if σ U = .value (.inst i) then V else σ U)
    split
    · rename_i heq
      have hi : Forwards P scev H (.value (.inst i)) K :=
        ⟨i, rfl, hload, BB, hBB, pre, post, hpre, hK⟩
      exact ((heq ▸ hσ U).tail hi).trans hchain
    · exact hσ U
  · show Resolved P scev H _ (if σ U = .value (.inst i) then V else σ U)
    split
    · rename_i heq
      have hreach := (hU.chain hwf (heq ▸ hσ U)).inst.1
      rw [hwf.home hBB (by simp [hpre])] at hreach
      exact h.known_append hwf hBB hpre hreach rfl
    · rename_i hne
      rw [← List.append_assoc]
      refine (h.resolved U hU).append ?_
      rintro I ⟨⟩ heq
      exact absurd heq hne

/-- The inserted load becomes known where nothing else is. Where something is known already, a load
that follows is replaced by that, and not by the inserted load. -/
theorem ScanInv.loadV {V₀ : Option Source}
    (h : ScanInv P scev H scanned BB pre ⟨V₀, σ⟩) :
    ScanInv P scev H scanned BB (pre ++ [.loadV]) ⟨some (V₀.getD .loadV), σ⟩ := by
  have hresolved : ∀ {V : Source}, Resolved P scev H (scanned ++ pre) V →
      Resolved P scev H (scanned ++ (pre ++ [.loadV])) V := by
    intro V hV
    rw [← List.append_assoc]
    refine hV.append ?_
    rintro I ⟨⟩
  have hlast : lastStored P scev H (pre ++ [.loadV]) =
      some ((lastStored P scev H pre).getD .loadV) := lastStored_append
  refine ⟨h.chained, fun U hU => hresolved (h.resolved U hU), by simp [hlast],
    fun V hV => ?_, fun hreach V hV => ?_⟩
  · obtain rfl := Option.some.inj hV
    cases V₀ with
    | none =>
      rw [hlast, h.known_none.mp rfl]
      exact ⟨.loadV, rfl, .refl⟩
    | some V =>
      obtain ⟨K, hK, hchain⟩ := h.known V rfl
      rw [hlast, hK]
      exact ⟨K, rfl, hchain⟩
  · obtain rfl := Option.some.inj hV
    cases V₀ with
    | none =>
      intro I hI
      cases hI
    | some V => exact hresolved (h.known_resolved hreach V rfl)

/-- One round of the inner loop. The cases are those of the source: a store, a load of the cell with
and without a known value, other instructions, and the inserted load. -/
theorem ScanInv.step (hwf : WellFormed P scev H) (hBB : BB ∈ (P.func H.F).blocks)
    (hpre : items P H BB = pre ++ x :: post) (h : ScanInv P scev H scanned BB pre st) :
    ScanInv P scev H scanned BB (pre ++ [x]) (scanItem P scev H st x) := by
  obtain ⟨V, σ⟩ := st
  cases x with
  | inst i =>
    cases hstore : storeOf P scev H i with
    | some v =>
      have hscan : scanItem P scev H ⟨V, σ⟩ (.inst i) = ⟨some (σ v), σ⟩ := by
        simp [scanItem, hstore]
      rw [hscan]
      exact h.store hwf hBB hpre hstore
    | none =>
      cases V with
      | none =>
        have hscan : scanItem P scev H ⟨none, σ⟩ (.inst i) = ⟨none, σ⟩ := by
          simp [scanItem, hstore]
        rw [hscan]
        exact h.skip hwf hBB hpre hstore fun _ => h.known_none.mp rfl
      | some V =>
        by_cases hload : isLoadOf P scev H i = true
        · have hscan : scanItem P scev H ⟨some V, σ⟩ (.inst i) =
              ⟨some V, replaceAllUsesWith σ i V⟩ := by
            simp [scanItem, hstore, hload]
          rw [hscan]
          exact h.replace hwf hBB hpre hload
        · have hscan : scanItem P scev H ⟨some V, σ⟩ (.inst i) = ⟨some V, σ⟩ := by
            simp [scanItem, hstore, hload]
          rw [hscan]
          exact h.skip hwf hBB hpre hstore fun h' => absurd h' hload
  | loadV =>
    have hscan : scanItem P scev H ⟨V, σ⟩ .loadV = ⟨some (V.getD .loadV), σ⟩ := by
      cases V <;> rfl
    rw [hscan]
    exact h.loadV

/-- The inner loop. -/
theorem scanBlock_inv (hwf : WellFormed P scev H) (hBB : BB ∈ (P.func H.F).blocks)
    (hchained : ∀ U, Chain P scev H (.value U) (σ U))
    (hresolved : ∀ U, Placed P H (.value U) → Resolved P scev H scanned (σ U)) :
    ScanInv P scev H scanned BB (items P H BB) (scanBlock P scev H BB σ) := by
  suffices hloop : ∀ pre post, items P H BB = pre ++ post →
      ScanInv P scev H scanned BB pre (pre.foldl (scanItem P scev H) ⟨none, σ⟩) from
    hloop _ [] (List.append_nil _).symm
  intro pre
  induction pre using List.reverseRecOn with
  | nil =>
    intro post hpre
    refine ⟨hchained, ?_, by simp, nofun, nofun⟩
    rwa [List.append_nil]
  | append_singleton pre x ih =>
    intro post hpre
    rw [List.append_assoc] at hpre
    rw [List.foldl_append, List.foldl_cons, List.foldl_nil]
    exact (ih _ hpre).step hwf hBB hpre

variable (P scev H) in
/-- What `SSAUpdater` is told of blocks. -/
structure Registered (BBs : List BlockId) (available : List (BlockId × Source)) : Prop where
  some : ∀ BB V, available.lookup BB = some V →
    ∃ K, lastStored P scev H (items P H BB) = some K ∧ Chain P scev H K V
  none : ∀ BB ∈ BBs, available.lookup BB = none → lastStored P scev H (items P H BB) = none

/-- What is told of one block is nothing about another. -/
theorem lookup_cons_of_ne {B : BlockId} {available : List (BlockId × Source)} (h : B ≠ BB) :
    List.lookup B ((BB, V) :: available) = List.lookup B available := by
  rw [List.lookup_cons, beq_eq_false_iff_ne.mpr h]

/-- One more block is told of, if something is known at its end. A block without a known value is
not told of, and then it contains neither a store nor the inserted load. -/
theorem Registered.cons {BBs : List BlockId} {available : List (BlockId × Source)}
    (hblock : ScanInv P scev H scanned BB (items P H BB) st)
    (hreg : Registered P scev H BBs available) :
    Registered P scev H (BB :: BBs) ((st.V.map fun V => (BB, V)).toList ++ available) := by
  cases hst : st.V with
  | none =>
    refine ⟨hreg.some, fun B hB hV => ?_⟩
    rcases List.mem_cons.mp hB with rfl | hB
    · exact hblock.known_none.mp hst
    · exact hreg.none B hB hV
  | some V =>
    rw [Option.map_some, Option.toList_some, List.singleton_append]
    refine ⟨fun B V' hV => ?_, fun B hB hV => ?_⟩
    · by_cases hB : B = BB
      · subst hB
        obtain rfl : V = V' := by simpa using hV
        exact hblock.known V hst
      · rw [lookup_cons_of_ne hB] at hV
        exact hreg.some B V' hV
    · by_cases hB' : B = BB
      · subst hB'
        simp at hV
      · rw [lookup_cons_of_ne hB'] at hV
        exact hreg.none B ((List.mem_cons.mp hB).resolve_left hB') hV

/-- The outer loop. -/
theorem scanBlocks_inv (hwf : WellFormed P scev H) {BBs : List BlockId}
    (hBBs : ∀ BB ∈ BBs, BB ∈ (P.func H.F).blocks)
    (hchained : ∀ U, Chain P scev H (.value U) (σ U))
    (hresolved : ∀ U, Placed P H (.value U) → Resolved P scev H scanned (σ U)) :
    (∀ U, Chain P scev H (.value U) ((scanBlocks P scev H BBs σ).1 U)) ∧
      (∀ U, Placed P H (.value U) →
        Resolved P scev H (scanned ++ BBs.flatMap (items P H)) ((scanBlocks P scev H BBs σ).1 U)) ∧
      Registered P scev H BBs (scanBlocks P scev H BBs σ).2 := by
  induction BBs generalizing σ scanned with
  | nil =>
    refine ⟨hchained, ?_, nofun, nofun⟩
    rwa [List.flatMap_nil, List.append_nil]
  | cons BB BBs ih =>
    have hblock := scanBlock_inv hwf (hBBs BB List.mem_cons_self) hchained hresolved
    obtain ⟨hc, hr, hreg⟩ := ih (fun B hB => hBBs B (List.mem_cons_of_mem _ hB))
      hblock.chained hblock.resolved
    refine ⟨hc, ?_, hreg.cons hblock⟩
    rwa [List.flatMap_cons, ← List.append_assoc]

/-! ## What is left to `SSAUpdater` -/

variable (P scev H) in
/-- A load of the cell before which nothing is known of the cell in its block, or for
which such a load is forwarded. -/
inductive ReadsAcross : InstId → Prop
  | here {I : InstId} : isLoadOf P scev H I = true →
      (∀ K, ¬ Forwards P scev H (.value (.inst I)) K) → ReadsAcross I
  | through {I J : InstId} : Forwards P scev H (.value (.inst I)) (.value (.inst J)) →
      ReadsAcross J → ReadsAcross I

theorem ReadsAcross.isLoadOf (h : ReadsAcross P scev H I) : isLoadOf P scev H I = true := by
  cases h with
  | here hload => exact hload
  | through hforward _ =>
    obtain ⟨J, hJ, hload, -⟩ := hforward
    obtain rfl : I = J := by simpa using hJ
    exact hload

/-- What such a load is replaced by is such a load. -/
theorem ReadsAcross.chain (hwf : WellFormed P scev H) (h : ReadsAcross P scev H I)
    (hchain : Chain P scev H (.value (.inst I)) V) :
    ∃ J, V = .value (.inst J) ∧ ReadsAcross P scev H J := by
  induction h with
  | @here I hload hnone =>
    rcases hchain.cases_head with rfl | ⟨K, hK, -⟩
    · exact ⟨I, rfl, .here hload hnone⟩
    · exact absurd hK (hnone K)
  | @through I J hJ hacross ih =>
    rcases hchain.cases_head with rfl | ⟨K, hK, hrest⟩
    · exact ⟨I, rfl, .through hJ hacross⟩
    · obtain rfl := hJ.unique hwf hK
      exact ih hrest

/-- A chain that ends at such a load starts at one. -/
theorem readsAcross_of_chain (h : ReadsAcross P scev H I)
    (hchain : Chain P scev H V (.value (.inst I))) :
    ∃ J, V = .value (.inst J) ∧ ReadsAcross P scev H J := by
  induction hchain using Relation.ReflTransGen.head_induction_on with
  | refl => exact ⟨I, rfl, h⟩
  | head hstep _ ih =>
    obtain ⟨J, rfl, hJ⟩ := ih
    obtain ⟨I', rfl, hrest⟩ := hstep
    exact ⟨I', rfl, .through ⟨I', rfl, hrest⟩ hJ⟩

/-- What a call of `hoist` leaves behind. This is all that the results about executions need to know
of the scan. -/
structure Hoisted (P : Program) (scev : InstId → SCEV) (H : Target) (subst : Value → Source)
    (available : List (BlockId × Source)) : Prop where
  chained : ∀ U, Chain P scev H (.value U) (subst U)
  resolved : ∀ U, Placed P H (.value U) → ∀ I, subst U = .value (.inst I) →
    ∀ K, ¬ Forwards P scev H (.value (.inst I)) K
  registered : Registered P scev H (P.func H.F).blocks available

theorem hoist_hoisted {available : List (BlockId × Source)}
    (h : hoist P scev I = some (H, σ, available)) (hwf : WellFormed P scev H) :
    Hoisted P scev H σ available := by
  obtain ⟨H', -, heq⟩ := Option.map_eq_some_iff.mp h
  obtain ⟨rfl, hscan⟩ := Prod.mk.inj heq
  have hnil : ∀ U, Placed P H' (.value U) → Resolved P scev H' [] (.value U) :=
    fun _ _ _ _ hmem => absurd hmem List.not_mem_nil
  obtain ⟨hchained, hresolved, hregistered⟩ :=
    scanBlocks_inv hwf (fun _ h => h) (fun _ => .refl) hnil
  rw [hscan] at hchained hresolved hregistered
  refine ⟨hchained, fun U hU I hI K hK => ?_, hregistered⟩
  have hplaced : Placed P H' (.value (.inst I)) := hU.chain hwf (hI ▸ hchained U)
  have hscanned : .inst I ∈ [] ++ (P.func H'.F).blocks.flatMap (items P H') :=
    List.mem_flatMap.mpr ⟨_, hwf.mem_blocks _ hplaced.inst.1, hplaced.inst.2⟩
  have hσ : Forwards P scev H' (σ U) K := by
    rw [hI]
    exact hK
  exact hresolved U hU I hI hscanned K hσ

/-- Which uses `SSAUpdater` rewrites. -/
theorem viaSSA_iff {available : List (BlockId × Source)} (h : Hoisted P scev H σ available)
    (hwf : WellFormed P scev H) (hU : Placed P H (.value U)) :
    viaSSA P scev H σ U = true ↔ ∃ I, U = .inst I ∧ ReadsAcross P scev H I := by
  constructor
  · intro hvia
    unfold viaSSA at hvia
    split at hvia
    · rename_i I hI
      obtain ⟨J, hJ, hacross⟩ := readsAcross_of_chain (.here hvia (h.resolved U hU I hI))
        (hI ▸ h.chained U)
      exact ⟨J, by simpa using hJ, hacross⟩
    · cases hvia
  · rintro ⟨I, rfl, hI⟩
    obtain ⟨J, hJ, hacross⟩ := hI.chain hwf (h.chained (.inst I))
    unfold viaSSA
    rw [hJ]
    exact hacross.isLoadOf

end Kint.LoadRewrite
