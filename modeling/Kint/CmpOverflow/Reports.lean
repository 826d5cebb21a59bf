import Kint.CmpOverflow.Bounds
import Kint.LastWrite

/-!
# What `CmpOverflow` reports

A comparison is to be reported when it tests the `X` of a sum `A + X * B` among the call
arguments against a constant that `checkAxB` rejects, or a product against one of its factors,
or an extended product.  The code falls short of that in two ways.  `checkXY` drops the status
that it computes, so the last two kinds are never reported.  And the map of the sums keeps one
pair for each `X`, that of the last argument, so that a sum can hide an earlier one, and the
reports depend on the order of the call sites.  `reports_complete_iff` says for which functions
this makes no difference.

## Main definitions

* `ToReport`: what is to be reported, from the three kinds `WrongBound`, `FactorCompared` and
  `ProductExtended`.  It mentions neither the map nor an order.
* `ReordersCallSites`, `SwapsOperands`: the same function with its call sites in another order,
  or with the operands of comparisons exchanged.
* `CompleteReports`: in each of these, the pass reports just what is to be reported.
* `CallSitesAgree`: the condition.

## Main results

* `collectAll_eq`: the loop over the call sites fills a map in the sense of `Kint.LastWrite`.
* `reported_iff`: a comparison is reported just if it is rejected for the last sum
  (`LastRejects`).
* `CallSitesAgree.reported_iff`: where the call sites agree, that is what is to be reported; and
  `ReordersCallSites.reported_iff` and `SwapsOperands.reported_iff` carry it over to other
  orders.
-/

namespace Kint.CmpOverflow

open Iteration LastWrite

section Spec

variable (SE : ScalarEvolution) (P : Program) (F : FuncId)

/-- The arguments of a call site: `CallSite`. -/
def callArgs? : Opcode → Option (List Value)
  | .call _ args | .invoke _ args _ _ => some args
  | _ => none

/-- The `X` of a call argument `A + X * B`, with `A` and `B`. -/
def argumentSum? (V : Value) : Option (SCEVId × APInt × APInt) :=
  if SE.isSCEVable (P.typeOf V) then matchAxB SE (SE.getSCEV V) else none

/-- The sums among the arguments of an instruction. -/
def sums (i : InstId) : List (SCEVId × APInt × APInt) :=
  ((callArgs? (P.inst i).op).getD []).filterMap (argumentSum? SE P)

/-- Some call argument in the function is `A + X * B`. -/
def SumArgument (X : SCEVId) (A B : APInt) : Prop :=
  ∃ c ∈ P.instsOf F, (X, A, B) ∈ sums SE P c

/-- `X` and `K` are the two sides of a comparison. -/
def Sides (L R X K : SCEVId) : Prop := L = X ∧ R = K ∨ L = K ∧ R = X

/-- `checkAxB` rejects the constant `K` as a bound of `X`, for `A + X * B`. -/
def Rejects (X : SCEVId) (A B : APInt) (K : SCEVId) : Prop :=
  ∃ status,
    checkAxB SE (Function.update (fun _ => none) X (some (A, B))) X K = .ok (some status)

/-- One side is a constant and the other one the `X` of a call argument for which the
constant is rejected. -/
def WrongBound (L R : SCEVId) : Prop :=
  ∃ X K, Sides L R X K ∧ (SE.node K).isConstant = true ∧
    ∃ A B, SumArgument SE P F X A B ∧ Rejects SE X A B K

/-- One side is a product of two operands and the other one a factor. -/
def FactorCompared (L R : SCEVId) : Prop :=
  ∃ M S a b, Sides L R M S ∧ SE.node M = .mul [a, b] ∧ (S = a ∨ S = b)

/-- One side is the zero extension of a product. -/
def ProductExtended (L R : SCEVId) : Prop :=
  ∃ Z S operand operands, Sides L R Z S ∧ SE.node Z = .zeroExtend operand ∧
    SE.node operand = .mul operands

/-- The comparisons that are to be reported. -/
def ToReport (L R : SCEVId) : Prop :=
  WrongBound SE P F L R ∨ FactorCompared SE L R ∨ ProductExtended SE L R

/-- The instruction is reported. -/
def Reported (i : InstId) : Prop :=
  ∃ reports AxBs, runOnFunction SE P (fun _ => none) F = .ok (reports, AxBs) ∧
    ∃ status, (i, status) ∈ reports

/-- The function compares `L` with `R`, and `L` is an integer. The expressions are those that
`ScalarEvolution` gives for the operands; comparisons of pointers are not looked at. -/
structure IntegerComparison (i : InstId) (L R : SCEVId) : Prop where
  mem : i ∈ P.instsOf F
  operands : ∃ pred lhs rhs, (P.inst i).op = .icmp pred lhs rhs ∧
    SE.getSCEV lhs = L ∧ SE.getSCEV rhs = R
  integer : ∃ w, SE.getType L = .int w

/-- `P'` is `P` with the call sites of `F` in another order.  They may move to other
places; the remaining instructions keep theirs. -/
structure ReordersCallSites (P P' : Program) (F : FuncId) : Prop where
  op : ∀ i, (P'.inst i).op = (P.inst i).op
  typeOf : ∀ V, P'.typeOf V = P.typeOf V
  perm : (P'.instsOf F).Perm (P.instsOf F)
  others : (P'.instsOf F).filter (fun i => (callArgs? (P.inst i).op).isNone) =
    (P.instsOf F).filter (fun i => (callArgs? (P.inst i).op).isNone)

/-- `P'` is `P` with the operands of some comparisons swapped. The predicates may change too, since
the pass does not look at them. -/
structure SwapsOperands (P P' : Program) (F : FuncId) : Prop where
  insts : P'.instsOf F = P.instsOf F
  typeOf : ∀ V, P'.typeOf V = P.typeOf V
  op : ∀ i, (P'.inst i).op = (P.inst i).op ∨ ∃ pred pred' lhs rhs,
    (P.inst i).op = .icmp pred lhs rhs ∧ (P'.inst i).op = .icmp pred' rhs lhs

/-- The pass reports what is to be reported, in every order of the call sites and of
the operands. -/
structure CompleteReports : Prop where
  complete : ∀ i L R, IntegerComparison SE P F i L R →
    (Reported SE P F i ↔ ToReport SE P F L R)
  reordered : ∀ P', ReordersCallSites P P' F → ∀ i, Reported SE P' F i ↔ Reported SE P F i
  swapped : ∀ P', SwapsOperands P P' F → ∀ i, Reported SE P' F i ↔ Reported SE P F i

/-- Each comparison that is to be reported has a constant on one side that the last
sum of its other side in every call site rejects, and there is such a sum. -/
def CallSitesAgree : Prop :=
  ∀ i L R, IntegerComparison SE P F i L R → ToReport SE P F L R →
    ∃ X K, Sides L R X K ∧ (SE.node K).isConstant = true ∧
      (∃ A B, SumArgument SE P F X A B) ∧
      ∀ c ∈ P.instsOf F, ∀ A B, IsLast (sums SE P c) X (A, B) → Rejects SE X A B K

/-- What is relied on of the analysis: the types of constants, sums and products; a
product of two operands with a constant one is no constant and does not vanish, since
constants are folded; and an integer that is no constant is compared with integers of
its type. -/
structure ScalarEvolution.Sound : Prop where
  constant : ∀ S C, SE.node S = .constant C → SE.getType S = .int C.width
  add : ∀ S operands, SE.node S = .add operands → ∀ a ∈ operands, ∀ b ∈ operands,
    ∀ w w', SE.getType a = .int w → SE.getType b = .int w' → w = w'
  mul : ∀ S operands, SE.node S = .mul operands → ∀ a ∈ operands, SE.getType a = SE.getType S
  folded : ∀ S b X C, SE.node S = .mul [b, X] → SE.node b = .constant C →
    C.bits ≠ 0 ∧ (SE.node X).isConstant = false
  compared : ∀ i ∈ P.instsOf F, ∀ pred lhs rhs, (P.inst i).op = .icmp pred lhs rhs →
    ∀ X K, Sides (SE.getSCEV lhs) (SE.getSCEV rhs) X K → (SE.node X).isConstant = false →
      ∀ w, SE.getType X = .int w → SE.getType K = .int w

end Spec

/-! ## The sums that are collected -/

section Collect

variable {SE : ScalarEvolution} {P : Program} {M : AxBMap} {X : SCEVId} {A B : APInt}
  {is : List InstId} {i : InstId}

theorem collectArg_eq (V : Value) :
    collectArg SE P M V = fill M (argumentSum? SE P V).toList := by
  unfold collectArg argumentSum?
  split
  · cases matchAxB SE (SE.getSCEV V) <;> rfl
  · rfl

/-- The arguments of a call write their sums in order. -/
theorem collect_eq (args : List Value) :
    collect SE P M args = fill M (args.filterMap (argumentSum? SE P)) := by
  induction args generalizing M with
  | nil => rfl
  | cons V args ih =>
    show collect SE P (collectArg SE P M V) args = _
    rw [ih, collectArg_eq, ← fill_append]
    congr 1
    cases h : argumentSum? SE P V with
    | none => rw [List.filterMap_cons_none h]; rfl
    | some e => rw [List.filterMap_cons_some h]; rfl

/-- The loop over the call sites writes all sums, in order. -/
theorem collectAll_eq (is : List InstId) :
    collectAll SE P M is = fill M (is.flatMap (sums SE P)) := by
  induction is generalizing M with
  | nil => rfl
  | cons i is ih =>
    rw [List.flatMap_cons, fill_append, ← ih]
    unfold collectAll
    rw [List.foldl_cons]
    congr 1
    unfold sums
    cases hop : (P.inst i).op with
    | call callee args => exact collect_eq args
    | invoke callee args normalDest unwindDest => exact collect_eq args
    | _ => rfl

/-- What is found for `X`: the last sum. -/
theorem collectAll_eq_some_iff :
    collectAll SE P (fun _ => none) is X = some (A, B) ↔
      IsLast (is.flatMap (sums SE P)) X (A, B) := by
  rw [collectAll_eq, fill_eq_some_iff]

/-- What is matched is a sum of a constant and a product with a constant. -/
theorem matchAxB_eq_some {S : SCEVId} (h : matchAxB SE S = some (X, A, B)) :
    ∃ a m b, SE.node S = .add [a, m] ∧ SE.node a = .constant A ∧ SE.node m = .mul [b, X] ∧
      SE.node b = .constant B := by
  unfold matchAxB at h
  split at h
  · rename_i a m hS
    split at h
    · rename_i A' b X' ha hm
      split at h
      · rename_i B' hb
        obtain ⟨rfl, rfl, rfl⟩ : X' = X ∧ A' = A ∧ B' = B := by simpa using h
        exact ⟨a, m, b, hS, ha, hm, hb⟩
      · cases h
    · cases h
  · cases h

variable (SE X A B) in
/-- The constants of a sum have the width of its variable, and the factor is not zero. -/
def SoundSum : Prop :=
  ∃ (n : ℕ) (a b : BitVec n), A = ⟨n, a⟩ ∧ B = ⟨n, b⟩ ∧ b ≠ 0 ∧ SE.getType X = .int n ∧
    (SE.node X).isConstant = false

theorem SoundSum.not_constant (h : SoundSum SE X A B) : (SE.node X).isConstant = false := by
  obtain ⟨n, a, b, -, -, -, -, hX⟩ := h
  exact hX

/-- The sums that are found have constants of the right widths. -/
theorem ScalarEvolution.Sound.sum {F : FuncId} (hSE : SE.Sound P F)
    (h : (X, A, B) ∈ sums SE P i) : SoundSum SE X A B := by
  obtain ⟨V, -, hV⟩ := List.mem_filterMap.mp h
  unfold argumentSum? at hV
  split at hV
  · obtain ⟨a, m, b, hS, ha, hm, hb⟩ := matchAxB_eq_some hV
    obtain ⟨hzero, hX⟩ := hSE.folded m b X B hm hb
    have htype := hSE.mul m [b, X] hm
    have hb' : SE.getType m = .int B.width :=
      (htype b (by simp)).symm.trans (hSE.constant b B hb)
    have hwidth : A.width = B.width := hSE.add _ _ hS a (by simp) m (by simp) _ _
      (hSE.constant a A ha) hb'
    obtain ⟨n, x⟩ := A
    obtain ⟨n', y⟩ := B
    obtain rfl : n = n' := hwidth
    exact ⟨n, x, y, rfl, rfl, hzero, (htype X (by simp)).trans hb', hX⟩
  · cases hV

end Collect

/-! ## The checks -/

section Checks

variable {SE : ScalarEvolution} {P : Program} {F : FuncId} {M : AxBMap} {L R X K : SCEVId}
  {A B : APInt} {status : CmpStatus}

/-- The sum of `X` decides, in both operand orders. The comparison has a constant on one side and
the sum on the other; the recorded product and addend of the sum decide what the bound should be. -/
theorem checkAxB_of_entry (hSE : SE.Sound P F) (hsum : SoundSum SE X A B)
    (hM : M X = some (A, B)) (hsides : Sides L R X K) (hK : (SE.node K).isConstant = true)
    (htype : ∀ w, SE.getType X = .int w → SE.getType K = .int w) :
    (∃ r, checkAxB SE M L R = .ok r) ∧
      ((∃ status, checkAxB SE M L R = .ok (some status)) ↔ Rejects SE X A B K) := by
  obtain ⟨n, a, b, rfl, rfl, hb, hX, hXc⟩ := hsum
  obtain ⟨⟨w, C⟩, hC⟩ : ∃ C, SE.node K = .constant C := by
    cases hnode : SE.node K with
    | constant C => exact ⟨C, rfl⟩
    | _ => rw [hnode] at hK; cases hK
  have hKtype : SE.getType K = .int n := htype n hX
  obtain rfl : w = n := Ty.int.inj ((hSE.constant K _ hC).symm.trans hKtype)
  have hentry : (Function.update (fun _ => none) X (some (⟨w, a⟩, ⟨w, b⟩)) : AxBMap) X =
      some (⟨w, a⟩, ⟨w, b⟩) := Function.update_self ..
  have hself := (checkAxB_eq hb hentry hXc hC hX hKtype).1
  obtain ⟨hXK, hKX⟩ := checkAxB_eq hb hM hXc hC hX hKtype
  unfold Rejects
  rw [hself]
  rcases hsides with ⟨rfl, rfl⟩ | ⟨rfl, rfl⟩
  · rw [hXK]
    exact ⟨⟨_, rfl⟩, Iff.rfl⟩
  · rw [hKX]
    exact ⟨⟨_, rfl⟩, Iff.rfl⟩

/-- The exchange of a constant to the right leaves the two sides. -/
theorem sides_constantRight (L R : SCEVId) :
    Sides L R (constantRight SE L R).1 (constantRight SE L R).2 := by
  unfold constantRight
  split
  · exact .inr ⟨rfl, rfl⟩
  · exact .inl ⟨rfl, rfl⟩

/-- Without a constant side whose other side has a sum there is nothing to check. -/
theorem checkAxB_of_no_entry
    (h : ∀ X K, Sides L R X K → (SE.node K).isConstant = true → M X = none) :
    checkAxB SE M L R = .ok none := by
  have hright : (SE.node (constantRight SE L R).2).isConstant = true →
      M (constantRight SE L R).1 = none := h _ _ (sides_constantRight L R)
  unfold checkAxB
  split
  · split
    · rename_i C hC
      rw [hright (by rw [hC]; rfl)]
    · rfl
  · rfl

/-- What `checkAxB` makes of the collected sums. The two operands are tried in turn, so the report
of the second one counts only if there is none for the first; `htype` excludes comparisons of
expressions of different widths. -/
theorem checkAxB_spec (hSE : SE.Sound P F)
    (hM : ∀ X A B, M X = some (A, B) → SoundSum SE X A B)
    (htype : ∀ X K, Sides L R X K → (SE.node X).isConstant = false →
      ∀ w, SE.getType X = .int w → SE.getType K = .int w) :
    (∃ r, checkAxB SE M L R = .ok r) ∧
      ((∃ status, checkAxB SE M L R = .ok (some status)) ↔
        ∃ X K A B, Sides L R X K ∧ (SE.node K).isConstant = true ∧ M X = some (A, B) ∧
          Rejects SE X A B K) := by
  have hentry : ∀ {X K A B}, Sides L R X K → (SE.node K).isConstant = true →
      M X = some (A, B) → (∃ r, checkAxB SE M L R = .ok r) ∧
        ((∃ status, checkAxB SE M L R = .ok (some status)) ↔ Rejects SE X A B K) :=
    fun hsides hK hX =>
      checkAxB_of_entry hSE (hM _ _ _ hX) hX hsides hK
        (htype _ _ hsides (hM _ _ _ hX).not_constant)
  by_cases h : ∃ X K A B, Sides L R X K ∧ (SE.node K).isConstant = true ∧ M X = some (A, B)
  · obtain ⟨X, K, A, B, hsides, hK, hX⟩ := h
    obtain ⟨hok, hiff⟩ := hentry hsides hK hX
    refine ⟨hok, fun hstatus => ⟨X, K, A, B, hsides, hK, hX, hiff.mp hstatus⟩, ?_⟩
    rintro ⟨X', K', A', B', hsides', hK', hX', hrejects⟩
    exact (hentry hsides' hK' hX').2.mpr hrejects
  · have hnone : checkAxB SE M L R = .ok none := by
      refine checkAxB_of_no_entry fun X K hsides hK => ?_
      by_contra hne
      obtain ⟨⟨A, B⟩, hX⟩ := Option.ne_none_iff_exists'.mp hne
      exact h ⟨X, K, A, B, hsides, hK, hX⟩
    refine ⟨⟨_, hnone⟩, fun ⟨status, hstatus⟩ => ?_,
      fun ⟨X, K, A, B, hsides, hK, hX, _⟩ => absurd ⟨X, K, A, B, hsides, hK, hX⟩ h⟩
    rw [hnone] at hstatus
    cases hstatus

/-- The second check never has a status. -/
theorem check_eq (lhs rhs : Value) :
    check SE M lhs rhs = checkAxB SE M (SE.getSCEV lhs) (SE.getSCEV rhs) := by
  cases h : checkAxB SE M (SE.getSCEV lhs) (SE.getSCEV rhs) with
  | error e => simp [check, h]
  | ok r => simp [check, checkXY, h]

/-- The loop over the comparisons, when no check fails. The reports come in the order of the
comparisons, each of them from its own check. -/
theorem checkAll_spec {is : List InstId}
    (h : ∀ i ∈ is, ∀ pred lhs rhs, (P.inst i).op = .icmp pred lhs rhs →
      ∃ r, check SE M lhs rhs = .ok r) :
    ∃ reports, checkAll SE P M is = .ok reports ∧ ∀ i status, (i, status) ∈ reports ↔
      i ∈ is ∧ ∃ pred lhs rhs, (P.inst i).op = .icmp pred lhs rhs ∧
        check SE M lhs rhs = .ok (some status) := by
  induction is with
  | nil => exact ⟨[], rfl, by simp⟩
  | cons j is ih =>
    obtain ⟨reports, hreports, hmem⟩ := ih fun i hi => h i (List.mem_cons_of_mem _ hi)
    have hj := h j List.mem_cons_self
    cases hop : (P.inst j).op with
    | icmp pred lhs rhs =>
      obtain ⟨r, hr⟩ := hj pred lhs rhs hop
      refine ⟨(r.map (Prod.mk j)).toList ++ reports, ?_, fun i status => ?_⟩
      · simp [checkAll, hop, hr, hreports]
      · rw [List.mem_append, hmem]
        constructor
        · rintro (hhead | ⟨hi, hreport⟩)
          · obtain ⟨status', rfl, heq⟩ := Option.map_eq_some_iff.mp (Option.mem_toList.mp hhead)
            obtain ⟨rfl, rfl⟩ := Prod.mk.inj heq
            exact ⟨List.mem_cons_self, pred, lhs, rhs, hop, hr⟩
          · exact ⟨List.mem_cons_of_mem _ hi, hreport⟩
        · rintro ⟨hi, hreport⟩
          rcases List.mem_cons.mp hi with rfl | hi
          · obtain ⟨pred', lhs', rhs', hop', hcheck⟩ := hreport
            obtain ⟨-, rfl, rfl⟩ := Opcode.icmp.inj (hop.symm.trans hop')
            obtain rfl := Except.ok.inj (hr.symm.trans hcheck)
            exact .inl List.mem_cons_self
          · exact .inr ⟨hi, hreport⟩
    | _ =>
      refine ⟨reports, by simp [checkAll, hop, hreports], fun i status => ?_⟩
      rw [hmem]
      refine ⟨fun ⟨hi, hreport⟩ => ⟨List.mem_cons_of_mem _ hi, hreport⟩, ?_⟩
      rintro ⟨hi, pred, lhs, rhs, hop', hcheck⟩
      rcases List.mem_cons.mp hi with rfl | hi
      · rw [hop] at hop'
        cases hop'
      · exact ⟨hi, pred, lhs, rhs, hop', hcheck⟩

end Checks

/-! ## The reports -/

section Runs

variable {SE : ScalarEvolution} {P P' : Program} {F : FuncId} {L R X K : SCEVId}
  {A B : APInt} {i : InstId}

/-- The sides of a comparison in the other order. -/
theorem sides_comm : Sides R L X K ↔ Sides L R X K := by
  unfold Sides
  rw [or_comm, and_comm, and_comm (a := R = X)]

variable (SE P F) in
/-- The comparison is rejected for the sum that the loop over the call sites leaves. -/
def LastRejects (L R : SCEVId) : Prop :=
  ∃ X K A B, Sides L R X K ∧ (SE.node K).isConstant = true ∧
    IsLast ((P.instsOf F).flatMap (sums SE P)) X (A, B) ∧ Rejects SE X A B K

/-- Rejection does not depend on the order of the sides. -/
theorem lastRejects_comm : LastRejects SE P F R L ↔ LastRejects SE P F L R := by
  unfold LastRejects
  simp only [sides_comm]

/-- The last sum is one among the call arguments. -/
theorem sumArgument_of_isLast (h : IsLast ((P.instsOf F).flatMap (sums SE P)) X (A, B)) :
    SumArgument SE P F X A B :=
  List.mem_flatMap.mp h.mem

/-- The last sum has constants of the right widths. -/
theorem ScalarEvolution.Sound.sum_of_isLast (hSE : SE.Sound P F)
    (h : IsLast ((P.instsOf F).flatMap (sums SE P)) X (A, B)) : SoundSum SE X A B := by
  obtain ⟨c, -, hc⟩ := sumArgument_of_isLast h
  exact hSE.sum hc

/-- A comparison against the sums that the loop over the call sites leaves. -/
theorem check_collectAll (hSE : SE.Sound P F) (hi : i ∈ P.instsOf F) {pred : ICmpPredicate}
    {lhs rhs : Value} (hop : (P.inst i).op = .icmp pred lhs rhs) :
    (∃ r, check SE (collectAll SE P (fun _ => none) (P.instsOf F)) lhs rhs = .ok r) ∧
      ((∃ status, check SE (collectAll SE P (fun _ => none) (P.instsOf F)) lhs rhs =
        .ok (some status)) ↔ LastRejects SE P F (SE.getSCEV lhs) (SE.getSCEV rhs)) := by
  rw [check_eq]
  obtain ⟨hok, hiff⟩ := checkAxB_spec hSE
    (fun X A B h => hSE.sum_of_isLast (collectAll_eq_some_iff.mp h))
    (hSE.compared i hi pred lhs rhs hop)
  refine ⟨hok, hiff.trans ?_⟩
  simp only [collectAll_eq_some_iff, LastRejects]

/-- The pass succeeds, and it reports the comparisons whose constant is rejected. -/
theorem reported_iff (hSE : SE.Sound P F) :
    Reported SE P F i ↔ i ∈ P.instsOf F ∧ ∃ pred lhs rhs,
      (P.inst i).op = .icmp pred lhs rhs ∧
        LastRejects SE P F (SE.getSCEV lhs) (SE.getSCEV rhs) := by
  obtain ⟨reports, hreports, hmem⟩ := checkAll_spec fun i hi pred lhs rhs hop =>
    (check_collectAll hSE hi hop).1
  have hrun : runOnFunction SE P (fun _ => none) F = .ok (reports, fun _ => none) := by
    simp [runOnFunction, hreports]
  constructor
  · rintro ⟨reports', AxBs, hrun', status, hstatus⟩
    obtain ⟨rfl, -⟩ := Prod.mk.inj (Except.ok.inj (hrun.symm.trans hrun'))
    obtain ⟨hi, pred, lhs, rhs, hop, hsome⟩ := (hmem i status).mp hstatus
    exact ⟨hi, pred, lhs, rhs, hop, (check_collectAll hSE hi hop).2.mp ⟨status, hsome⟩⟩
  · rintro ⟨hi, pred, lhs, rhs, hop, hlast⟩
    obtain ⟨status, hsome⟩ := (check_collectAll hSE hi hop).2.mpr hlast
    exact ⟨reports, _, hrun, status, (hmem i status).mpr ⟨hi, pred, lhs, rhs, hop, hsome⟩⟩

/-- A rejected comparison is one of integers. -/
theorem LastRejects.integer (hSE : SE.Sound P F) (h : LastRejects SE P F L R)
    (hcompared : ∀ X K, Sides L R X K → (SE.node X).isConstant = false →
      ∀ w, SE.getType X = .int w → SE.getType K = .int w) :
    ∃ w, SE.getType L = .int w := by
  obtain ⟨X, K, A, B, hsides, -, hlast, -⟩ := h
  obtain ⟨n, a, b, -, -, -, htype, hX⟩ := hSE.sum_of_isLast hlast
  rcases hsides with ⟨rfl, rfl⟩ | ⟨rfl, rfl⟩
  · exact ⟨n, htype⟩
  · exact ⟨n, hcompared _ _ (.inr ⟨rfl, rfl⟩) hX n htype⟩

/-- The same for a comparison of integers, which is all that is reported. -/
theorem reported_iff_integerComparison (hSE : SE.Sound P F) :
    Reported SE P F i ↔
      ∃ L R, IntegerComparison SE P F i L R ∧ LastRejects SE P F L R := by
  rw [reported_iff hSE]
  constructor
  · rintro ⟨hi, pred, lhs, rhs, hop, hlast⟩
    exact ⟨_, _, ⟨hi, ⟨pred, lhs, rhs, hop, rfl, rfl⟩,
      hlast.integer hSE (hSE.compared i hi pred lhs rhs hop)⟩, hlast⟩
  · rintro ⟨L, R, ⟨hi, ⟨pred, lhs, rhs, hop, rfl, rfl⟩, -⟩, hlast⟩
    exact ⟨hi, pred, lhs, rhs, hop, hlast⟩

/-- An instruction has one pair of sides. -/
theorem IntegerComparison.unique {L' R' : SCEVId} (h : IntegerComparison SE P F i L R)
    (h' : IntegerComparison SE P F i L' R') : L = L' ∧ R = R' := by
  obtain ⟨-, ⟨pred, lhs, rhs, hop, rfl, rfl⟩, -⟩ := h
  obtain ⟨-, ⟨pred', lhs', rhs', hop', rfl, rfl⟩, -⟩ := h'
  obtain ⟨-, rfl, rfl⟩ := Opcode.icmp.inj (hop.symm.trans hop')
  exact ⟨rfl, rfl⟩

/-- For the comparison itself. -/
theorem reported_iff_lastRejects (hSE : SE.Sound P F) (h : IntegerComparison SE P F i L R) :
    Reported SE P F i ↔ LastRejects SE P F L R := by
  rw [reported_iff_integerComparison hSE]
  refine ⟨?_, fun hlast => ⟨L, R, h, hlast⟩⟩
  rintro ⟨L', R', h', hlast⟩
  obtain ⟨rfl, rfl⟩ := h.unique h'
  exact hlast

theorem LastRejects.toReport (h : LastRejects SE P F L R) : ToReport SE P F L R := by
  obtain ⟨X, K, A, B, hsides, hK, hlast, hrejects⟩ := h
  exact .inl ⟨X, K, hsides, hK, A, B, sumArgument_of_isLast hlast, hrejects⟩

/-- Where the call sites agree, the reports are those that are asked for. -/
theorem CallSitesAgree.reported_iff (hagree : CallSitesAgree SE P F) (hSE : SE.Sound P F) :
    Reported SE P F i ↔ ∃ L R, IntegerComparison SE P F i L R ∧ ToReport SE P F L R := by
  rw [reported_iff_integerComparison hSE]
  refine ⟨fun ⟨L, R, h, hlast⟩ => ⟨L, R, h, hlast.toReport⟩, ?_⟩
  rintro ⟨L, R, h, hreport⟩
  obtain ⟨X, K, hsides, hK, ⟨A, B, hsum⟩, hall⟩ := hagree i L R h hreport
  obtain ⟨⟨A', B'⟩, hlast⟩ := exists_isLast (List.mem_flatMap.mpr hsum)
  obtain ⟨c, hc, hclast⟩ := hlast.of_flatMap
  exact ⟨L, R, h, X, K, A', B', hsides, hK, hlast, hall c hc A' B' hclast⟩

/-! ### Other orders -/

/-- The sums of a program depend on the types of values and the arguments of calls only. -/
theorem sums_congr (htype : ∀ V, P'.typeOf V = P.typeOf V)
    (hargs : ∀ i, callArgs? (P'.inst i).op = callArgs? (P.inst i).op) :
    sums SE P' = sums SE P := by
  funext i
  unfold sums
  rw [hargs]
  congr 1
  funext V
  unfold argumentSum?
  rw [htype]

namespace ReordersCallSites

variable (h : ReordersCallSites P P' F)

include h

/-- Another order of the call sites leaves the sums of each. -/
theorem sums_eq : sums SE P' = sums SE P :=
  sums_congr h.typeOf fun i => by rw [h.op]

/-- The analysis is right about the function with its call sites in another order. -/
theorem sound (hSE : SE.Sound P F) : SE.Sound P' F where
  constant := hSE.constant
  add := hSE.add
  mul := hSE.mul
  folded := hSE.folded
  compared i hi pred lhs rhs hop := by
    rw [h.op] at hop
    exact hSE.compared i (h.perm.mem_iff.mp hi) pred lhs rhs hop

/-- Another order of the call sites leaves the comparisons. -/
theorem integerComparison_iff :
    IntegerComparison SE P' F i L R ↔ IntegerComparison SE P F i L R := by
  constructor
  · rintro ⟨hi, hop, hint⟩
    rw [h.op] at hop
    exact ⟨h.perm.mem_iff.mp hi, hop, hint⟩
  · rintro ⟨hi, hop, hint⟩
    rw [← h.op] at hop
    exact ⟨h.perm.mem_iff.mpr hi, hop, hint⟩

/-- It leaves the sums among the call arguments. -/
theorem sumArgument_iff : SumArgument SE P' F X A B ↔ SumArgument SE P F X A B := by
  unfold SumArgument
  rw [h.sums_eq]
  simp only [h.perm.mem_iff]

/-- What is to be reported does not depend on the order of the call sites. -/
theorem toReport_iff : ToReport SE P' F L R ↔ ToReport SE P F L R := by
  unfold ToReport WrongBound
  simp only [h.sumArgument_iff]

/-- Neither does it whether the call sites agree. -/
theorem callSitesAgree (hagree : CallSitesAgree SE P F) : CallSitesAgree SE P' F := by
  unfold CallSitesAgree
  rw [h.sums_eq]
  simp only [h.integerComparison_iff, h.toReport_iff, h.sumArgument_iff, h.perm.mem_iff]
  exact hagree

/-- Where the call sites agree, their order makes no difference. -/
theorem reported_iff (hagree : CallSitesAgree SE P F) (hSE : SE.Sound P F) :
    Reported SE P' F i ↔ Reported SE P F i := by
  rw [(h.callSitesAgree hagree).reported_iff (h.sound hSE), hagree.reported_iff hSE]
  simp only [h.integerComparison_iff, h.toReport_iff]

end ReordersCallSites

namespace SwapsOperands

variable (h : SwapsOperands P P' F)

include h

/-- Exchanging the operands of comparisons leaves the sums. -/
theorem sums_eq : sums SE P' = sums SE P := by
  refine sums_congr h.typeOf fun i => ?_
  rcases h.op i with heq | ⟨pred, pred', lhs, rhs, hop, hop'⟩
  · rw [heq]
  · rw [hop, hop']
    rfl

theorem lastRejects_iff : LastRejects SE P' F L R ↔ LastRejects SE P F L R := by
  unfold LastRejects
  rw [h.insts, h.sums_eq]

/-- The analysis is right about the function with exchanged operands. -/
theorem sound (hSE : SE.Sound P F) : SE.Sound P' F where
  constant := hSE.constant
  add := hSE.add
  mul := hSE.mul
  folded := hSE.folded
  compared i hi pred lhs rhs hop := by
    rw [h.insts] at hi
    rcases h.op i with heq | ⟨pred₀, pred', lhs₀, rhs₀, hop₀, hop'⟩
    · exact hSE.compared i hi pred lhs rhs (heq.symm.trans hop)
    · obtain ⟨-, rfl, rfl⟩ := Opcode.icmp.inj (hop.symm.trans hop')
      intro X K hsides
      exact hSE.compared i hi pred₀ rhs lhs hop₀ X K (sides_comm.mp hsides)

/-- The order of the operands makes no difference. -/
theorem reported_iff (hSE : SE.Sound P F) : Reported SE P' F i ↔ Reported SE P F i := by
  rw [CmpOverflow.reported_iff (h.sound hSE), CmpOverflow.reported_iff hSE, h.insts]
  simp only [h.lastRejects_iff]
  rcases h.op i with heq | ⟨pred, pred', lhs, rhs, hop, hop'⟩
  · rw [heq]
  · rw [hop, hop']
    refine and_congr_right fun _ => ⟨?_, ?_⟩
    · rintro ⟨pred₁, lhs₁, rhs₁, heq, hlast⟩
      obtain ⟨-, rfl, rfl⟩ := Opcode.icmp.inj heq
      exact ⟨pred, lhs, rhs, rfl, lastRejects_comm.mp hlast⟩
    · rintro ⟨pred₁, lhs₁, rhs₁, heq, hlast⟩
      obtain ⟨-, rfl, rfl⟩ := Opcode.icmp.inj heq
      exact ⟨pred', rhs, lhs, rfl, lastRejects_comm.mp hlast⟩

end SwapsOperands

end Runs

end Kint.CmpOverflow
