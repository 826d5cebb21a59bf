import Mathlib.Data.List.TakeWhile
import Kint.LoadRewrite.Machine

/-!
# Places in a rewritten function

Where the instructions of a block and the inserted load stand after `hoist`, and which
definitions dominate which places: the inserted load comes right after the base pointer, hence
before every instruction that the expression for the address is right for (`loadV_available`).

## Lists of instructions

The first lemmas are about `insertAfter` and `items` as lists: what is in them, that nothing is
in them twice, and where the inserted load stands (`insertAfter_split`, `insertAfter_before`).
Two splits of a block at the same instruction are the same split, since no instruction is there
twice (`prefix_of_mem`).

## Dominance

`AvailableAt` combines dominance of blocks with the order in a block.  It is transitive
(`AvailableAt.trans`): what is available where an instruction stands is available wherever the
result of the instruction is.  With this the base pointer is available at the inserted load
(`base_available`), and the inserted load at the loads and stores of the cell
(`loadV_available`), for each of them has the base pointer in its address.

The notions of dominance are those of `Kint.LoadRewrite.Machine`; they are about the original
function, whose blocks and edges `hoist` does not change.
-/

namespace Kint.LoadRewrite

section Items

variable {P : Program} {scev : InstId → SCEV} {H : Target} {BB B : BlockId} {i b : InstId}
  {x : Item} {pre post done : List Item} {V : Value}

/-! ## Instructions of a rewritten block -/

/-- The instructions are those that were there before. -/
theorem inst_mem_insertAfter {is : List InstId} : .inst i ∈ insertAfter b is ↔ i ∈ is := by
  induction is with
  | nil => simp [insertAfter]
  | cons j is ih =>
    unfold insertAfter
    split <;> simp [ih]

theorem insertAfter_nodup {is : List InstId} (h : is.Nodup) : (insertAfter b is).Nodup := by
  induction is with
  | nil => exact List.nodup_nil
  | cons j is ih =>
    obtain ⟨hj, his⟩ := List.nodup_cons.mp h
    have hmap : (is.map Item.inst).Nodup := his.map fun _ _ => Item.inst.inj
    unfold insertAfter
    split
    · refine List.nodup_cons.mpr ⟨by simpa using hj, List.nodup_cons.mpr ⟨by simp, hmap⟩⟩
    · refine List.nodup_cons.mpr ⟨?_, ih his⟩
      rwa [inst_mem_insertAfter]

theorem loadV_mem_insertAfter {is : List InstId} (h : b ∈ is) : .loadV ∈ insertAfter b is := by
  induction is with
  | nil => cases h
  | cons j is ih =>
    unfold insertAfter
    split
    · exact List.mem_cons_of_mem _ List.mem_cons_self
    · rename_i hne
      rcases List.mem_cons.mp h with rfl | h
      · exact absurd rfl hne
      · exact List.mem_cons_of_mem _ (ih h)

/-- The inserted load follows `b` at once. An instruction that stands behind `b` in the rewritten
block therefore stands behind the inserted load. -/
theorem insertAfter_split {is : List InstId} (h : insertAfter b is = pre ++ .inst i :: post)
    (hb : .inst b ∈ pre) : .loadV ∈ pre := by
  induction is generalizing pre with
  | nil =>
    cases pre <;> cases h
  | cons j is ih =>
    cases pre with
    | nil => cases hb
    | cons y pre =>
      unfold insertAfter at h
      split at h
      · have htail := (List.cons.inj h).2
        cases pre with
        | nil => cases htail
        | cons z pre =>
          obtain ⟨rfl, -⟩ := List.cons.inj htail
          exact List.mem_cons_of_mem _ List.mem_cons_self
      · rename_i hne
        obtain ⟨rfl, htail⟩ := List.cons.inj h
        rcases List.mem_cons.mp hb with hb | hb
        · exact absurd (Item.inst.inj hb).symm hne
        · exact List.mem_cons_of_mem _ (ih htail hb)

/-- The inserted load is preceded by `b`. -/
theorem insertAfter_before {is : List InstId} (h : insertAfter b is = pre ++ .loadV :: post) :
    .inst b ∈ pre := by
  induction is generalizing pre with
  | nil => cases pre <;> cases h
  | cons j is ih =>
    unfold insertAfter at h
    cases pre with
    | nil =>
      split at h <;> cases h
    | cons y pre =>
      split at h
      · rename_i heq
        obtain ⟨rfl, -⟩ := List.cons.inj h
        rw [heq]
        exact List.mem_cons_self
      · obtain ⟨-, h⟩ := List.cons.inj h
        exact List.mem_cons_of_mem _ (ih h)

/-- A block consists of its phi nodes and its body. -/
theorem insts_eq (BB : BlockId) : phis P BB ++ body P BB = (P.block BB).insts :=
  List.takeWhile_append_dropWhile

theorem isPhi_of_mem_phis (h : i ∈ phis P BB) : (P.inst i).op.isPhi = true :=
  List.mem_takeWhile_imp (p := fun i => (P.inst i).op.isPhi) h

/-- What is no phi node does not stand among the phi nodes. -/
theorem inst_not_mem_phis (hphi : (P.inst i).op.isPhi = false) :
    Item.inst i ∉ (phis P BB).map .inst := by
  intro h
  obtain ⟨j, hj, heq⟩ := List.mem_map.mp h
  obtain rfl := Item.inst.inj heq
  exact absurd (isPhi_of_mem_phis hj) (ne_true_of_eq_false hphi)

theorem inst_mem_bodyItems : .inst i ∈ bodyItems P H BB ↔ i ∈ body P BB := by
  unfold bodyItems
  split
  · split
    · split
      · exact inst_mem_insertAfter
      · simp
    · simp
  · simp

/-- The instructions of a rewritten block are those of the block. -/
theorem inst_mem_items : .inst i ∈ items P H BB ↔ i ∈ (P.block BB).insts := by
  rw [items, List.mem_append, inst_mem_bodyItems, ← insts_eq, List.mem_append]
  simp

/-- The inserted load stands in its block only. -/
theorem loadV_mem_items : .loadV ∈ items P H BB ↔ BB = loadBlock P H := by
  have hphis : Item.loadV ∉ (phis P BB).map Item.inst := by simp
  rw [items, List.mem_append]
  constructor
  · rintro (h | h)
    · exact absurd h hphis
    · unfold bodyItems at h
      split at h
      · assumption
      · simp at h
  · intro h
    refine .inr ?_
    unfold bodyItems
    rw [if_pos h]
    split
    · split
      · rename_i hb
        exact loadV_mem_insertAfter hb
      · exact List.mem_cons_self
    · exact List.mem_cons_self

/-- No instruction appears twice in a rewritten block. -/
theorem items_nodup (h : (P.block BB).insts.Nodup) : (items P H BB).Nodup := by
  rw [← insts_eq] at h
  obtain ⟨hphis, hbody, hdisj⟩ := List.nodup_append'.mp h
  have hmap : ∀ {is : List InstId}, is.Nodup → (is.map Item.inst).Nodup :=
    fun his => his.map fun _ _ => Item.inst.inj
  refine List.nodup_append'.mpr ⟨hmap hphis, ?_, ?_⟩
  · unfold bodyItems
    have hcons : (Item.loadV :: (body P BB).map Item.inst).Nodup :=
      List.nodup_cons.mpr ⟨by simp, hmap hbody⟩
    split
    · split
      · split
        · exact insertAfter_nodup hbody
        · exact hcons
      · exact hcons
    · exact hmap hbody
  · intro x hx hx'
    obtain ⟨i, hi, rfl⟩ := List.mem_map.mp hx
    exact hdisj hi (inst_mem_bodyItems.mp hx')

/-- What stands in a block of the function has that block as its own. -/
theorem WellFormed.home (hwf : WellFormed P scev H) (hBB : BB ∈ (P.func H.F).blocks)
    (hx : x ∈ items P H BB) : x.home P H = BB := by
  cases x with
  | inst i => exact hwf.inst_parent BB hBB i (inst_mem_items.mp hx)
  | loadV => exact (loadV_mem_items.mp hx).symm

/-- A split at an instruction other than a phi node is a split of what follows the phi
nodes. -/
theorem items_split (h : items P H BB = pre ++ x :: post) (hx : x ∉ (phis P BB).map .inst) :
    ∃ pre', pre = (phis P BB).map .inst ++ pre' ∧ bodyItems P H BB = pre' ++ x :: post := by
  rcases List.append_eq_append_iff.mp h with ⟨pre', hpre, hbody⟩ | ⟨c, hphis, hc⟩
  · exact ⟨pre', hpre, hbody⟩
  · cases c with
    | nil => exact ⟨[], by simpa using hphis.symm, by simpa using hc.symm⟩
    | cons y c =>
      obtain ⟨rfl, -⟩ := List.cons.inj hc
      exact absurd (hphis ▸ List.mem_append_right _ List.mem_cons_self) hx

/-! ## Definitions that dominate -/

/-- What is no instruction is available everywhere. -/
theorem availableAt_value (h : ∀ j, V ≠ .inst j) : AvailableAt P H BB done (.value V) := by
  intro x hx
  cases V with
  | inst i => exact absurd rfl (h i)
  | _ => cases hx

theorem AvailableAt.mono {done' : List Item} {V : Source} (h : AvailableAt P H BB done V)
    (hsub : ∀ x ∈ done, x ∈ done') : AvailableAt P H BB done' V :=
  fun x hx => (h x hx).imp_right fun hdone => ⟨hdone.1, hsub x hdone.2⟩

/-- Of two splits of a list without repetitions, the one at an element that the other
one has in its first part is the shorter one. -/
theorem prefix_of_mem {l pre done rest : List Item} (hnodup : l.Nodup)
    (hpre : l = pre ++ x :: post) (hdone : l = done ++ rest) (hx : x ∈ done) :
    ∀ y ∈ pre, y ∈ done := by
  intro y hy
  rcases List.append_eq_append_iff.mp (hpre.symm.trans hdone) with ⟨c, hc, -⟩ | ⟨c, hc, -⟩
  · rw [hc]
    exact List.mem_append_left _ hy
  · -- then `x` would stand both in `done` and after it
    rw [hpre, hc] at hnodup
    have hdisj := (List.nodup_append'.mp hnodup).2.2
    exact absurd (List.mem_cons_self) (hdisj (List.mem_append_left _ hx))

/-- What is above a block that control may reach is in a block that control may reach. -/
theorem Above.reachable (h : Above P H BB x) (hBB : Reachable P H.entry BB) :
    Reachable P H.entry (x.home P H) := h.2.2.reachable hBB

/-- What dominates an instruction is above every block that the instruction is above. -/
theorem DefinedAt.above {y : Item} (hy : DefinedAt P H (x.home P H) pre y)
    (hx : Above P H BB x) (hBB : Reachable P H.entry BB)
    (hpre : ∀ z ∈ pre, z ∈ items P H (x.home P H)) : Above P H BB y := by
  rcases hy with ⟨hmem, -, hdom⟩ | ⟨hhome, hmem⟩
  · refine ⟨hmem, ?_, hdom.trans hx.2.2⟩
    rintro rfl
    exact hx.2.1 (hx.2.2.antisymm hdom (hx.reachable hBB))
  · exact ⟨hhome ▸ hpre y hmem, hhome ▸ hx.2.1, hhome ▸ hx.2.2⟩

/-- What is available at an instruction is available wherever its result is. -/
theorem AvailableAt.trans {V : Source} {rest : List Item} (hwf : WellFormed P scev H)
    (hBB : Reachable P H.entry BB) (hpre : items P H (x.home P H) = pre ++ x :: post)
    (hdone : items P H BB = done ++ rest) (hV : AvailableAt P H (x.home P H) pre V)
    (hx : DefinedAt P H BB done x) : AvailableAt P H BB done V := by
  intro y hy
  rcases hx with hx | ⟨hhome, hmem⟩
  · exact .inl ((hV y hy).above hx hBB fun z hz => hpre ▸ List.mem_append_left _ hz)
  · rw [hhome] at hpre hV
    have hnodup := items_nodup (H := H) (hwf.nodup BB (hwf.mem_blocks BB hBB))
    exact (hV y hy).imp_right fun h => ⟨h.1, prefix_of_mem hnodup hpre hdone hmem y h.2⟩

/-- What is above a block is above its predecessors, or in them. -/
theorem Above.pred {Pred : BlockId} (h : Above P H BB x) (hedge : Edge P Pred BB) :
    DefinedAt P H Pred (items P H Pred) x := by
  obtain ⟨hmem, hne, hdom⟩ := h
  by_cases hPred : x.home P H = Pred
  · exact .inr ⟨hPred, hPred ▸ hmem⟩
  · exact .inl ⟨hmem, hPred, hdom.pred hne hedge⟩

/-- The inserted load comes before the instructions of its block to which the base
pointer is available. -/
theorem loadV_available (hwf : WellFormed P scev H)
    (hpre : items P H BB = pre ++ .inst i :: post) (hphi : (P.inst i).op.isPhi = false)
    (hbase : AvailableAt P H BB pre (.value H.BaseV)) : AvailableAt P H BB pre .loadV := by
  rintro x ⟨⟩
  obtain ⟨pre', rfl, hbody⟩ := items_split hpre (inst_not_mem_phis hphi)
  by_cases hBB : BB = loadBlock P H
  · refine .inr ⟨hBB.symm, List.mem_append_right _ ?_⟩
    have hfirst : Item.loadV :: (body P BB).map .inst = pre' ++ .inst i :: post →
        Item.loadV ∈ pre' := by
      intro h
      cases pre' with
      | nil => cases h
      | cons y pre' =>
        rw [(List.cons.inj h).1]
        exact List.mem_cons_self
    unfold bodyItems at hbody
    rw [if_pos hBB] at hbody
    split at hbody
    · rename_i b hV
      split at hbody
      · rename_i hb
        refine insertAfter_split hbody ?_
        have hhome : (Item.inst b).home P H = BB := by
          rw [hBB]
          simp [Item.home, loadBlock, hV]
        rcases hbase (.inst b) (by rw [hV]; rfl) with ⟨-, hne, -⟩ | ⟨-, hmem⟩
        · exact absurd hhome hne
        · rcases List.mem_append.mp hmem with hmem | hmem
          · exact absurd hmem (inst_not_mem_phis (hwf.phis_first BB b hb))
          · exact hmem
      · exact hfirst hbody
    · exact hfirst hbody
  · refine .inl ⟨loadV_mem_items.mpr rfl, fun h => hBB h.symm, ?_⟩
    show Dominates P H.entry (loadBlock P H) BB
    cases hV : H.BaseV with
    | inst b =>
      have hhome : loadBlock P H = (P.inst b).parent := by simp [loadBlock, hV]
      rcases hbase (.inst b) (by rw [hV]; rfl) with ⟨-, -, hdom⟩ | ⟨heq, -⟩
      · rw [hhome]
        exact hdom
      · exact absurd (hhome.trans heq).symm hBB
    | _ =>
      have hhome : loadBlock P H = H.entry := by simp [loadBlock, hV]
      rw [hhome]
      exact Digraph.dom_entry

/-- The base pointer is available at the inserted load. Either the base pointer is an instruction,
and the load stands right behind it, or it is not, and is available everywhere. -/
theorem base_available (hwf : WellFormed P scev H)
    (hpre : items P H BB = pre ++ .loadV :: post) :
    AvailableAt P H BB pre (.value H.BaseV) := by
  have hBB : BB = loadBlock P H :=
    loadV_mem_items.mp (hpre ▸ List.mem_append_right _ List.mem_cons_self)
  obtain ⟨pre', rfl, hbody⟩ := items_split hpre (by simp)
  cases hV : H.BaseV with
  | inst b =>
    rintro x ⟨⟩
    have hhome : loadBlock P H = (P.inst b).parent := by simp [loadBlock, hV]
    refine .inr ⟨(hBB.trans hhome).symm, ?_⟩
    have hmem : b ∈ (P.block BB).insts := by
      rw [hBB, hhome]
      exact hwf.base_mem b hV
    rw [← insts_eq] at hmem
    rcases List.mem_append.mp hmem with hmem | hmem
    · exact List.mem_append_left _ (List.mem_map_of_mem hmem)
    · unfold bodyItems at hbody
      rw [if_pos hBB, hV] at hbody
      simp only [if_pos hmem] at hbody
      exact List.mem_append_right _ (insertAfter_before hbody)
  | _ => exact availableAt_value nofun

end Items

end Kint.LoadRewrite
