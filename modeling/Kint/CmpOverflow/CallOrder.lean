import Kint.CmpOverflow.Reports

/-!
# The order of the call sites

Two call sites of a function can exchange their places.  So every call site with a sum of some
`X` comes last in some order, and then its own last sum of `X` is the one that `CmpOverflow`
knows.  The reports are complete in every order exactly when the call sites agree on the
comparisons that are to be reported.

## Main ideas

* `Program.exchange c d` puts two instructions at each other's places.  It permutes the heap and
  renames the two in the lists of the blocks, so that the instructions of a function are the old
  ones in another order.
* By `isLast_swap` of `Kint.LastWrite`, an exchange can make any entry of a key the last one.  A
  comparison that is reported in every order is therefore rejected for the last sum of each call
  site, and this is what the condition asks for.

## Main results

* `exists_reordersCallSites`: some order makes a given call site the last with a sum of `X`.
* `reports_complete_iff`: the reports are complete, in every order of the call sites and of the
  operands, if and only if the call sites agree.
* `reports_incomplete`: a program whose two comparisons are to be reported and are not, one
  because a later sum hides the earlier one, and one because `checkXY` drops its status.
-/

namespace Kint

namespace Program

variable (P : Program)

/-- The program with two instructions at each other's places. -/
def exchange (c d : InstId) : Program :=
  { P with
    insts := P.insts.mapIdx fun i I => { I with parent := (P.inst (Equiv.swap c d i)).parent }
    blocks := P.blocks.map fun B =>
      { B with body := B.body.map (Equiv.swap c d), term := Equiv.swap c d B.term } }

variable {P} {c d i : InstId} {F : FuncId}

/-- An exchange changes the block of an instruction at most. -/
theorem exchange_inst : (P.exchange c d).inst i =
    { P.inst i with parent := ((P.exchange c d).inst i).parent } := by
  unfold inst exchange
  simp only [List.getD_eq_getElem?_getD, List.getElem?_mapIdx]
  cases P.insts[i]? <;> rfl

theorem exchange_typeOf (V : Value) : (P.exchange c d).typeOf V = P.typeOf V := by
  cases V with
  | inst i =>
    show ((P.exchange c d).inst i).ty = (P.inst i).ty
    rw [exchange_inst]
  | _ => rfl

/-- The instructions of a block after an exchange. -/
theorem exchange_block_insts (hc : c < P.insts.length) (hd : d < P.insts.length)
    (b : BlockId) :
    ((P.exchange c d).block b).insts = (P.block b).insts.map (Equiv.swap c d) := by
  unfold block exchange BasicBlock.insts
  simp only [List.getD_eq_getElem?_getD, List.getElem?_map, List.length_mapIdx]
  cases P.blocks[b]? with
  | some B => simp
  | none => simp [Equiv.swap_apply_of_ne_of_ne hc.ne' hd.ne']

/-- The instructions of a function after an exchange. -/
theorem exchange_instsOf (hc : c < P.insts.length) (hd : d < P.insts.length) :
    (P.exchange c d).instsOf F = (P.instsOf F).map (Equiv.swap c d) := by
  unfold instsOf
  rw [List.map_flatMap]
  exact congrArg (List.flatMap · (P.func F).blocks) (funext (exchange_block_insts hc hd))

end Program

namespace CmpOverflow

open LastWrite

variable {SE : ScalarEvolution} {P : Program} {F : FuncId} {c d : InstId}

theorem lt_length_of_callArgs (h : (callArgs? (P.inst c).op).isSome = true) :
    c < P.insts.length := by
  by_contra hc
  have hdangling : P.inst c = ⟨0, .other, .other [], none, none⟩ :=
    by
      rw [Program.inst, List.getD_eq_getElem?_getD, List.getElem?_eq_none (not_lt.mp hc)]
      rfl
  rw [hdangling] at h
  cases h

/-- Two call sites that exchange their places are in another order. -/
theorem reordersCallSites_exchange (hnodup : (P.instsOf F).Nodup)
    (hc : c ∈ P.instsOf F) (hd : d ∈ P.instsOf F)
    (hcall : (callArgs? (P.inst c).op).isSome = true)
    (hdall : (callArgs? (P.inst d).op).isSome = true) :
    ReordersCallSites P (P.exchange c d) F := by
  have hinsts := P.exchange_instsOf (F := F) (lt_length_of_callArgs hcall)
    (lt_length_of_callArgs hdall)
  refine ⟨fun i => by rw [Program.exchange_inst], Program.exchange_typeOf, ?_, ?_⟩
  · rw [hinsts]
    exact map_swap_perm hnodup hc hd
  · rw [hinsts]
    refine filter_map_swap ?_ ?_
    · rw [← Option.not_isSome, hcall]
      rfl
    · rw [← Option.not_isSome, hdall]
      rfl

/-- Only call sites have sums among their arguments. -/
theorem isSome_callArgs_of_sum {e : SCEVId × APInt × APInt} (h : e ∈ sums SE P c) :
    (callArgs? (P.inst c).op).isSome = true := by
  unfold sums at h
  cases hargs : callArgs? (P.inst c).op with
  | some args => rfl
  | none => simp [hargs] at h

/-- In some order of the call sites, a call site's own last sum of `X` is the last one. -/
theorem exists_reordersCallSites {X : SCEVId} {A B : APInt} (hnodup : (P.instsOf F).Nodup)
    (hc : c ∈ P.instsOf F) (hlast : IsLast (sums SE P c) X (A, B)) :
    ∃ P', ReordersCallSites P P' F ∧
      IsLast ((P'.instsOf F).flatMap (sums SE P')) X (A, B) := by
  obtain ⟨d, hd, ⟨v, hv⟩, hexchanged⟩ := isLast_swap hnodup hc hlast
  have hcall := isSome_callArgs_of_sum hlast.mem
  have hdall := isSome_callArgs_of_sum hv
  have hreorders := reordersCallSites_exchange hnodup hc hd hcall hdall
  refine ⟨P.exchange c d, hreorders, ?_⟩
  rw [hreorders.sums_eq, P.exchange_instsOf (lt_length_of_callArgs hcall)
    (lt_length_of_callArgs hdall)]
  exact hexchanged

/-- Which `X` and which constant a comparison tests, when it tests some. -/
theorem Sides.unique {L R X K X' K' : SCEVId} (h : Sides L R X K) (h' : Sides L R X' K')
    (hK : (SE.node K).isConstant = true) (hX' : (SE.node X').isConstant = false) :
    X' = X ∧ K' = K := by
  have hne : X' ≠ K := by
    rintro rfl
    rw [hK] at hX'
    cases hX'
  rcases h with ⟨rfl, rfl⟩ | ⟨rfl, rfl⟩ <;> rcases h' with ⟨rfl, rfl⟩ | ⟨rfl, rfl⟩
  · exact ⟨rfl, rfl⟩
  · exact absurd rfl hne
  · exact absurd rfl hne
  · exact ⟨rfl, rfl⟩

/-- A comparison that is reported in every order is rejected for every call site. -/
theorem rejects_of_reordered {i : InstId} {L R X K : SCEVId} {A B : APInt}
    (hSE : SE.Sound P F) (hnodup : (P.instsOf F).Nodup)
    (h : IntegerComparison SE P F i L R) (hsides : Sides L R X K)
    (hK : (SE.node K).isConstant = true)
    (hreported : ∀ P', ReordersCallSites P P' F → Reported SE P' F i)
    (hc : c ∈ P.instsOf F) (hlast : IsLast (sums SE P c) X (A, B)) : Rejects SE X A B K := by
  obtain ⟨P', hreorders, hlast'⟩ := exists_reordersCallSites hnodup hc hlast
  have hSE' := hreorders.sound hSE
  obtain ⟨X', K', A', B', hsides', hK', hfound, hrejects⟩ :=
    (reported_iff_lastRejects hSE' (hreorders.integerComparison_iff.mpr h)).mp
      (hreported P' hreorders)
  obtain ⟨rfl, rfl⟩ := hsides.unique hsides' hK (hSE'.sum_of_isLast hfound).not_constant
  obtain ⟨rfl, rfl⟩ := Prod.mk.inj (hlast'.unique hfound)
  exact hrejects

/-- The reports are complete, in every order of the call sites and of the operands, if
and only if the call sites agree. -/
theorem reports_complete_iff (hSE : SE.Sound P F) (hnodup : (P.instsOf F).Nodup) :
    CompleteReports SE P F ↔ CallSitesAgree SE P F := by
  constructor
  · intro hcomplete i L R h hreport
    have hreported : Reported SE P F i := (hcomplete.complete i L R h).mpr hreport
    obtain ⟨X, K, A, B, hsides, hK, hlast, -⟩ := (reported_iff_lastRejects hSE h).mp hreported
    refine ⟨X, K, hsides, hK, ⟨A, B, sumArgument_of_isLast hlast⟩, fun c hc A' B' hclast => ?_⟩
    exact rejects_of_reordered hSE hnodup h hsides hK
      (fun P' hreorders => (hcomplete.reordered P' hreorders i).mpr hreported) hc hclast
  · intro hagree
    refine ⟨fun i L R h => ?_, fun P' hreorders i => hreorders.reported_iff hagree hSE,
      fun P' hswaps i => hswaps.reported_iff hSE⟩
    rw [hagree.reported_iff hSE]
    refine ⟨?_, fun hreport => ⟨L, R, h, hreport⟩⟩
    rintro ⟨L', R', h', hreport⟩
    obtain ⟨rfl, rfl⟩ := h.unique h'
    exact hreport

/-! ## Two functions -/

theorem bound_sound : boundEvolution.Sound boundProgram 0 where
  constant S C h := by
    rcases S with _ | _ | _ | _ | _ | _ | S <;> cases h <;> rfl
  add _ _ _ _ _ _ _ _ _ ha hb := Ty.int.inj (ha.symm.trans hb)
  mul _ _ _ _ _ := rfl
  folded S b X C h hb := by
    rcases S with _ | _ | _ | _ | _ | _ | S <;> cases h
    cases hb
    exact ⟨by decide, rfl⟩
  compared _ _ _ _ _ _ _ _ _ _ _ h := h

/-- The only sum in `boundProgram` is `10 + x * 2`, and its bound is rejected. -/
theorem bound_agrees : CallSitesAgree boundEvolution boundProgram 0 := by
  have honly : ∀ i ∈ boundProgram.instsOf 0, ∀ e ∈ sums boundEvolution boundProgram i,
      e = (0, .ofNat 8 10, .ofNat 8 2) := by decide
  have hsum : SumArgument boundEvolution boundProgram 0 0 (.ofNat 8 10) (.ofNat 8 2) :=
    ⟨3, by decide, by decide⟩
  have hrejects : Rejects boundEvolution 0 (.ofNat 8 10) (.ofNat 8 2) 5 :=
    ⟨.axb1, by decide +kernel⟩
  rintro i L R ⟨hmem, ⟨pred, lhs, rhs, hop, rfl, rfl⟩, -⟩ -
  have hi : i ∈ [0, 1, 2, 3, 4] := hmem
  obtain rfl | rfl | rfl | rfl | rfl := by simpa using hi
  all_goals cases hop
  refine ⟨0, 5, .inl ⟨rfl, rfl⟩, rfl, ⟨_, _, hsum⟩, fun c hc A B hlast => ?_⟩
  obtain ⟨rfl, rfl⟩ : A = .ofNat 8 10 ∧ B = .ofNat 8 2 := by
    simpa using honly c hc _ hlast.mem
  exact hrejects

/-- The reports about `boundProgram` are complete in every order. -/
theorem bound_reports_complete : CompleteReports boundEvolution boundProgram 0 :=
  (reports_complete_iff bound_sound (by decide)).mpr bound_agrees

/-- ```
unsigned f(unsigned x, unsigned y) {
  g(10 + x * 2);
  g(1 + x * 2);
  return (x > 0x7fffffff) | (x * y < x);
}
``` -/
def hiddenProgram : Program where
  insts := [
    ⟨0, .int 32, .binary .mul (.argument 0 0) (.constInt (.ofNat 32 2)), none, none⟩,
    ⟨0, .int 32, .binary .add (.inst 0) (.constInt (.ofNat 32 10)), none, none⟩,
    ⟨0, .other, .call (.func 1) [.inst 1], none, none⟩,
    ⟨0, .int 32, .binary .add (.inst 0) (.constInt (.ofNat 32 1)), none, none⟩,
    ⟨0, .other, .call (.func 1) [.inst 3], none, none⟩,
    ⟨0, .int 1, .icmp .ugt (.argument 0 0) (.constInt (.ofNat 32 0x7fffffff)), none, none⟩,
    ⟨0, .int 32, .binary .mul (.argument 0 0) (.argument 0 1), none, none⟩,
    ⟨0, .int 1, .icmp .ult (.inst 6) (.argument 0 0), none, none⟩,
    ⟨0, .int 1, .binary .or (.inst 5) (.inst 7), none, none⟩,
    ⟨0, .int 32, .cast .zext (.inst 8), none, none⟩,
    ⟨0, .other, .ret (some (.inst 9)), none, none⟩]
  blocks := [⟨0, [0, 1, 2, 3, 4, 5, 6, 7, 8, 9], 10, []⟩]
  funcs := [
    ⟨⟨"f", .external, "a.c"⟩, false, [.int 32, .int 32], .int 32, [0]⟩,
    ⟨⟨"g", .external, "a.c"⟩, false, [.int 32], .other, []⟩]
  globals := []
  structs := []
  consts := []

/-- The expressions of `hiddenProgram`. -/
def hiddenSCEVs : List SCEV :=
  [.other, .other, .constant (.ofNat 32 2), .mul [2, 0], .constant (.ofNat 32 10), .add [4, 3],
    .constant (.ofNat 32 1), .add [6, 3], .constant (.ofNat 32 0x7fffffff), .mul [0, 1]]

/-- The analysis of `hiddenProgram`. -/
def hiddenEvolution : ScalarEvolution where
  isSCEVable := Ty.isIntegerTy
  getSCEV V :=
    match V with
    | .argument _ no => no
    | .inst 0 => 3
    | .inst 1 => 5
    | .inst 3 => 7
    | .inst 6 => 9
    | .constInt c => hiddenSCEVs.idxOf (.constant c)
    | _ => 10
  node S := hiddenSCEVs.getD S .other
  getType S := if S < 10 then .int 32 else .other

/-- All expressions of `hiddenProgram` have 32 bits. -/
theorem hidden_width {S : SCEVId} {w : ℕ} (h : hiddenEvolution.getType S = .int w) :
    w = 32 := by
  simp only [hiddenEvolution] at h
  split at h <;> cases h
  rfl

/-- The comparisons of `hiddenProgram`. -/
theorem hidden_comparison {i : InstId} {pred : ICmpPredicate} {lhs rhs : Value}
    (hi : i ∈ hiddenProgram.instsOf 0) (hop : (hiddenProgram.inst i).op = .icmp pred lhs rhs) :
    hiddenEvolution.getSCEV lhs = 0 ∧ hiddenEvolution.getSCEV rhs = 8 ∨
      hiddenEvolution.getSCEV lhs = 9 ∧ hiddenEvolution.getSCEV rhs = 0 := by
  have hi : i ∈ [0, 1, 2, 3, 4, 5, 6, 7, 8, 9, 10] := hi
  obtain rfl | rfl | rfl | rfl | rfl | rfl | rfl | rfl | rfl | rfl | rfl := by simpa using hi
  all_goals cases hop
  · exact .inl ⟨rfl, rfl⟩
  · exact .inr ⟨rfl, rfl⟩

theorem hidden_sound : hiddenEvolution.Sound hiddenProgram 0 where
  constant S C h := by
    rcases S with _ | _ | _ | _ | _ | _ | _ | _ | _ | _ | S <;> cases h <;> rfl
  add _ _ _ _ _ _ _ _ _ ha hb := (hidden_width ha).trans (hidden_width hb).symm
  mul S operands h := by
    rcases S with _ | _ | _ | _ | _ | _ | _ | _ | _ | _ | S <;> cases h <;> decide
  folded S b X C h hb := by
    rcases S with _ | _ | _ | _ | _ | _ | _ | _ | _ | _ | S <;> cases h <;> cases hb
    exact ⟨by decide, rfl⟩
  compared i hi pred lhs rhs hop X K hsides _ w hw := by
    obtain rfl := hidden_width hw
    rcases hidden_comparison hi hop with ⟨hL, hR⟩ | ⟨hL, hR⟩ <;> rw [hL, hR] at hsides <;>
      rcases hsides with ⟨rfl, rfl⟩ | ⟨rfl, rfl⟩ <;> rfl

/-- Both comparisons of `hiddenProgram` are to be reported, and neither is.  The sum
`1 + x * 2` hides `10 + x * 2`; with the calls exchanged the first comparison is
reported. -/
theorem reports_incomplete :
    hiddenEvolution.Sound hiddenProgram 0 ∧
      ToReport hiddenEvolution hiddenProgram 0 0 8 ∧
      ToReport hiddenEvolution hiddenProgram 0 9 0 ∧
      runOnFunction hiddenEvolution hiddenProgram (fun _ => none) 0 = .ok ([], fun _ => none) ∧
      (runOnFunction hiddenEvolution (hiddenProgram.exchange 2 4) (fun _ => none) 0).map
        Prod.fst = .ok [(5, .axb0)] ∧
      ¬ CompleteReports hiddenEvolution hiddenProgram 0 := by
  have hsum : SumArgument hiddenEvolution hiddenProgram 0 0 (.ofNat 32 10) (.ofNat 32 2) :=
    ⟨2, by decide, by decide⟩
  have hbound : ToReport hiddenEvolution hiddenProgram 0 0 8 :=
    .inl ⟨0, 8, .inl ⟨rfl, rfl⟩, rfl, _, _, hsum, .axb0, by decide +kernel⟩
  have hproduct : ToReport hiddenEvolution hiddenProgram 0 9 0 :=
    .inr (.inl ⟨9, 0, 0, 1, .inl ⟨rfl, rfl⟩, rfl, .inl rfl⟩)
  have hrun : runOnFunction hiddenEvolution hiddenProgram (fun _ => none) 0 =
      .ok ([], fun _ => none) := rfl
  refine ⟨hidden_sound, hbound, hproduct, hrun, by decide +kernel, fun hcomplete => ?_⟩
  have hcomparison : IntegerComparison hiddenEvolution hiddenProgram 0 7 9 0 :=
    ⟨by decide, ⟨_, _, _, rfl, rfl, rfl⟩, 32, rfl⟩
  obtain ⟨reports, AxBs, hrun', status, hstatus⟩ :=
    (hcomplete.complete 7 9 0 hcomparison).mpr hproduct
  obtain ⟨rfl, -⟩ := Prod.mk.inj (Except.ok.inj (hrun.symm.trans hrun'))
  cases hstatus

end CmpOverflow

end Kint
