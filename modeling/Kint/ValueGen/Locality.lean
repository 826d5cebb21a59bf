import Kint.ValueGen.Support

/-!
# What the meaning of a value depends on

The meaning of a value depends on the value itself, as a leaf, and on the values of what it is
computed from (`stepValue_local`).  So a valuation that agrees with the meaning of each value,
one step at a time, is what the terms denote (`denotes_of_consistent`): it need not be the
meaning from the leaves on, and the operands need not come in any order.

## What this is for

The meaning of `Kint.ValueGen.Meaning` starts at the leaves and bounds the depth of the
operands.  A run of a program does not compute values in that way: a name holds what its
instruction computed from the names at the time.  To compare the two it is enough to look at one
instruction at a time, with the values that the operands have.

## The lemmas

* `stepOffset_local`, `gepOffset_local`, `gepValue_local`: address computations, along their
  indices.
* `instValue_local`, `stepValue_local`: instructions and constants.  The second valuation may
  define more than the first one: a value that is defined stays the same.
* `value_local`: the same for any number of levels; in particular more levels define no other
  values.
* `HasValue.unique`, `HasValue.congr`: the meaning is a partial function of the leaves below the
  value.
* `denotes_of_consistent`: what is used in `Kint.PathGen.Denote`.
-/

namespace Kint.ValueGen

open Iteration Memo SMT

variable {DL : DataLayout} {P : Program} {intrange : InstId → Option (List (APInt × APInt))}
  {σ σ' : Assignment Value} {v v' : Value → Option APInt} {V : Value} {w : ℕ} {x : APInt}

/-- `U` is what `V` is computed from, other than `V` itself. -/
abbrev StrictlyBelow (P : Program) (V U : Value) : Prop := Relation.TransGen (Operand P) V U

/-! ## One step -/

section Step

variable {S : Value → Prop} (hv : ∀ U, S U → ∀ x, v U = some x → v' U = some x)
include hv

/-- An operand that is defined has the same value in both valuations. -/
theorem bind_local {U : Value} {f g : APInt → Option APInt} (hU : S U)
    (hfg : ∀ y, f y = some x → g y = some x) (h : (v U).bind f = some x) :
    (v' U).bind g = some x := by
  obtain ⟨y, hy, h⟩ := Option.bind_eq_some_iff.mp h
  exact Option.bind_eq_some_iff.mpr ⟨y, hv U hU y hy, hfg y h⟩

theorem stepOffset_local {ty : Ty} {U : Value} {n : ℤ} (hU : S U)
    (h : stepOffset DL P v ty U = some n) : stepOffset DL P v' ty U = some n := by
  cases ty with
  | struct s => exact h
  | _ =>
    obtain ⟨y, hy, rfl⟩ := Option.map_eq_some_iff.mp h
    exact Option.map_eq_some_iff.mpr ⟨y, hv U hU y hy, rfl⟩

/-- What the indices add depends on the indices. -/
theorem gepOffset_local {ty : Ty} {idx : List Value} {n : ℤ} (hidx : ∀ U ∈ idx, S U)
    (h : gepOffset DL P v ty idx = some n) : gepOffset DL P v' ty idx = some n := by
  induction idx generalizing ty n with
  | nil => exact h
  | cons U idx ih =>
    obtain ⟨step, hstep, h⟩ := Option.bind_eq_some_iff.mp h
    obtain ⟨rest, hrest, rfl⟩ := Option.map_eq_some_iff.mp h
    refine Option.bind_eq_some_iff.mpr
      ⟨step, stepOffset_local hv (hidx U List.mem_cons_self) hstep, ?_⟩
    exact Option.map_eq_some_iff.mpr
      ⟨rest, ih (fun U hU => hidx U (List.mem_cons_of_mem _ hU)) hrest, rfl⟩

/-- An address depends on the base and the indices. -/
theorem gepValue_local {base : Value} {idx : List Value} (hidx : ∀ U ∈ base :: idx, S U)
    (h : gepValue DL P v base idx = some x) : gepValue DL P v' base idx = some x := by
  refine bind_local hv (hidx base List.mem_cons_self) (fun y hy => ?_) h
  obtain ⟨offset, hoffset, hy⟩ := Option.bind_eq_some_iff.mp hy
  exact Option.bind_eq_some_iff.mpr
    ⟨offset, gepOffset_local hv (fun U hU => hidx U (List.mem_cons_of_mem _ hU)) hoffset, hy⟩

end Step

/-- The arguments of an intrinsic call are operands of the call. -/
theorem overflowCall_operands {agg lhs rhs : Value} {op : OverflowOp}
    (h : overflowCall? P agg = some (op, lhs, rhs)) : Operand P agg lhs ∧ Operand P agg rhs := by
  unfold overflowCall? at h
  split at h
  · split at h
    · rename_i f l r args hop
      obtain ⟨op', -, heq⟩ := Option.map_eq_some_iff.mp h
      obtain ⟨-, rfl, rfl⟩ : op' = op ∧ l = lhs ∧ r = rhs := by simpa using heq
      have hphi := congrArg Opcode.isPhi hop
      exact ⟨.inst hphi (by rw [hop]; simp [Opcode.operands]),
        .inst hphi (by rw [hop]; simp [Opcode.operands])⟩
    · cases h
  · cases h

/-- The value of an instruction is determined by its leaf and by the values of what it is
computed from. -/
theorem instValue_local {i : InstId}
    (hleaf : leafValue DL P σ (.inst i) = leafValue DL P σ' (.inst i))
    (hv : ∀ U, StrictlyBelow P (.inst i) U → ∀ x, v U = some x → v' U = some x)
    (h : instValue DL P σ v w i = some x) : instValue DL P σ' v' w i = some x := by
  have hop : ∀ U, (P.inst i).op.isPhi = false → U ∈ (P.inst i).op.operands →
      StrictlyBelow P (.inst i) U := fun U hphi hU => .single (.inst hphi hU)
  unfold instValue at h ⊢
  cases hi : (P.inst i).op with
  | cast op U =>
    rw [hi] at h hop
    have hU := hop U rfl List.mem_cons_self
    cases op with
    | bitcast =>
      by_cases hty : isAnalyzable (P.typeOf U) = true
      · simp only [hty, if_true] at h ⊢
        exact bind_local hv hU (fun _ => id) h
      · simp only [hty] at h ⊢
        exact hleaf ▸ h
    | inttoptr | floating => exact hleaf ▸ h
    | trunc | zext | sext | ptrtoint => exact bind_local hv hU (fun _ => id) h
  | binary op lhs rhs =>
    rw [hi] at h hop
    exact bind_local hv (hop lhs rfl (by simp [Opcode.operands]))
      (fun _ => bind_local hv (hop rhs rfl (by simp [Opcode.operands])) fun _ => id) h
  | icmp pred lhs rhs =>
    rw [hi] at h hop
    exact bind_local hv (hop lhs rfl (by simp [Opcode.operands]))
      (fun _ => bind_local hv (hop rhs rfl (by simp [Opcode.operands])) fun _ => id) h
  | select cond ifTrue ifFalse =>
    rw [hi] at h hop
    exact bind_local hv (hop cond rfl (by simp [Opcode.operands]))
      (fun _ => bind_local hv (hop ifTrue rfl (by simp [Opcode.operands]))
        fun _ => bind_local hv (hop ifFalse rfl (by simp [Opcode.operands])) fun _ => id) h
  | extractValue agg idx =>
    rw [hi] at h
    cases hcall : overflowCall? P agg with
    | none =>
      simp only [hcall] at h ⊢
      exact hleaf ▸ h
    | some call =>
      obtain ⟨op, lhs, rhs⟩ := call
      simp only [hcall] at h ⊢
      -- the operands of the call are two steps below
      have hagg : Operand P (.inst i) agg :=
        .inst (by rw [hi]; rfl) (by simp [hi, Opcode.operands])
      obtain ⟨hlhs, hrhs⟩ := overflowCall_operands hcall
      exact bind_local hv (.head hagg (.single hlhs))
        (fun _ => bind_local hv (.head hagg (.single hrhs)) fun _ => id) h
  | gep base idx =>
    rw [hi] at h hop
    exact gepValue_local hv (fun U hU => hop U rfl hU) h
  | _ =>
    rw [hi] at h
    exact hleaf ▸ h

/-- The value of `V` is determined by its leaf and by the values of what it is computed
from. -/
theorem stepValue_local (hleaf : leafValue DL P σ V = leafValue DL P σ' V)
    (hv : ∀ U, StrictlyBelow P V U → ∀ x, v U = some x → v' U = some x)
    (h : stepValue DL P σ v w V = some x) : stepValue DL P σ' v' w V = some x := by
  cases V with
  | inst i => exact instValue_local hleaf hv h
  | constExpr c =>
    unfold stepValue at h ⊢
    cases hc : P.const c with
    | gep base idx ty =>
      simp only [hc] at h ⊢
      refine gepValue_local hv (fun U hU => .single (.const ?_)) h
      rw [hc]
      exact hU
    | _ =>
      simp only [hc] at h ⊢
      exact hleaf ▸ h
  | constInt c => exact h
  | null ty => exact h
  | _ => exact hleaf.symm.trans h

/-! ## All levels -/

theorem value_eq_some {n : ℕ} : value DL P σ (n + 1) V = some x ↔
    typeSizeInBits DL (P.typeOf V) = some x.width ∧
      stepValue DL P σ (value DL P σ n) x.width V = some x := by
  refine ⟨value_succ, fun ⟨hw, h⟩ => ?_⟩
  refine Option.bind_eq_some_iff.mpr ⟨x.width, hw, Option.bind_eq_some_iff.mpr ⟨x, h, ?_⟩⟩
  exact if_pos rfl

/-- More levels of operands define no other values; and names other than those below the
value do not matter. -/
theorem value_local {n m : ℕ} (hnm : n ≤ m) (hσ : ∀ U, Below P V U → σ U = σ' U)
    (h : value DL P σ n V = some x) : value DL P σ' m V = some x := by
  induction n generalizing m V x with
  | zero => cases h
  | succ n ih =>
    obtain ⟨m, rfl⟩ := Nat.exists_eq_add_of_le' (show 1 ≤ m by omega)
    obtain ⟨hw, h⟩ := value_eq_some.mp h
    refine value_eq_some.mpr ⟨hw, stepValue_local ?_ (fun U hU y hy => ?_) h⟩
    · unfold leafValue
      rw [hσ V .refl]
    · exact ih (by omega) (fun W hW => hσ W (hU.to_reflTransGen.trans hW)) hy

theorem HasValue.unique {y : APInt} (h : HasValue DL P σ V x) (h' : HasValue DL P σ V y) :
    x = y := by
  obtain ⟨n, hn⟩ := h
  obtain ⟨m, hm⟩ := h'
  have hn' := value_local (le_max_left n m) (fun _ _ => rfl) hn
  have hm' := value_local (le_max_right n m) (fun _ _ => rfl) hm
  exact Option.some.inj (hn'.symm.trans hm')

/-- The meaning depends on the leaves below the value only. -/
theorem HasValue.congr (hσ : ∀ U, Below P V U → σ U = σ' U) :
    HasValue DL P σ V x ↔ HasValue DL P σ' V x :=
  exists_congr fun _ => ⟨value_local le_rfl hσ, value_local le_rfl fun U hU => (hσ U hU).symm⟩

/-! ## Consistent valuations -/

/-- The terms of values denote what a valuation says that is consistent with the meaning
of each value it defines. -/
theorem denotes_of_consistent
    (htyped : ∀ V x, v V = some x → typeSizeInBits DL (P.typeOf V) = some x.width)
    (hconst : ∀ c x, v (.constInt c) = some x → x = c)
    (hstep : ∀ V x, v V = some x → stepValue DL P σ v x.width V = some x)
    (hx : v V = some x) {E : SMTExpr Value} (hE : TermOf DL P intrange V E) :
    E.eval σ = x := by
  obtain ⟨n, hn⟩ := hE
  replace hn := solve_forget hn
  induction n generalizing V x E with
  | zero => cases hn
  | succ n ih =>
    -- where there is no term yet, a constant stands for the value
    let f : Value → Except Stop (SMTExpr Value) := fun U =>
      match solve (analyze DL P fun _ => none) n U, v U with
      | .ok E, _ => .ok E
      | .error _, some x => .ok (.bvconst x)
      | .error e, none => .error e
    have hf : Answers DL P σ f v := by
      refine ⟨fun U y hy => ?_, htyped, hconst⟩
      cases hU : solve (analyze DL P fun _ => none) n U with
      | ok E => exact ⟨E, by simp [f, hU], ih hy hU⟩
      | error e => exact ⟨.bvconst y, by simp [f, hU, hy], rfl⟩
    obtain ⟨E', hE', heval⟩ := analyze_computes hf rangesFit_none (htyped V x hx) (hstep V x hx)
    have hmono := Calls.eval_mono (g := f) (fun U E hU => by simp [f, hU]) hn
    obtain rfl := Except.ok.inj (hmono.symm.trans hE')
    exact heval

end Kint.ValueGen
