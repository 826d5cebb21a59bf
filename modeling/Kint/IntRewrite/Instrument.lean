import Kint.IntRewrite.Calls
import Kint.PathGen.Instrument

/-!
# Functions with checks

What is inserted does not change what a function does, comes before what it checks, and computes
its condition.  This is kept by each new instruction (`later_insertBefore`), so by the
instructions that the builder makes for a condition (`build_spec`) and by a call of `int.sat`
(`insertIntSat_spec`, in `Kint.IntRewrite.Insert`).

## Conditions

`Built` is what the builder of the compiler is asked to make.  `Typed` selects the conditions of
the passes: comparisons, disjunctions and conjunctions, and the bit of an intrinsic.  They have
a value whenever their operands have one, so that a new instruction never keeps a run from going
on (`Runnable`, of `Kint.PathGen.Instrument`).  `Over` says which values appear in a condition.

## One function after the other

* `Instruments`: a function with new instructions does what the function does.  It is in SSA
  form, and runs can be carried over in both directions.
* `Later`: what was known of values and of runs in the one holds in the other.
* `Computes`: a value holds the condition wherever it is defined.
* `Makes`: the builder has made the value for a condition.

All of these are kept when one more instruction is inserted, and `Later` is transitive.  The
builder may fold an operation into a constant or into one of its operands instead of making it;
`create_spec` treats both cases.
-/

namespace Kint.IntRewrite

open Iteration Memo SMT PathGen ValueGen

section Environment

variable (DL : DataLayout) (P : Program)

/-- The current values of a state, as an environment of what a builder makes. -/
noncomputable def machineEnv (σ : Assignment Value) : Env P where
  val := current DL P σ
  constInt _ := meaning_eq_some.mpr ⟨1, value_eq_some.mpr ⟨rfl, rfl⟩⟩
  width V w x hty hx := by
    have htyped := current_typed hx
    rw [hty] at htyped
    exact (Option.some.inj htyped).symm

/-- The value always holds an integer of `w` bits. -/
def HasWidth (V : Value) (w : ℕ) : Prop :=
  ∀ σ, ∃ x : BitVec w, current DL P σ V = some ⟨w, x⟩

/-- The values in a condition. -/
def Over (S : Value → Prop) : Built → Prop
  | .value V => S V
  | .binary _ lhs rhs => Over S lhs ∧ Over S rhs
  | .icmp _ lhs rhs => Over S lhs ∧ Over S rhs
  | .cast _ v _ => Over S v
  | .overflow _ _ lhs rhs => Over S lhs ∧ Over S rhs

/-- Conditions of `w` bits: comparisons, conjunctions, disjunctions, and what the intrinsics
say about overflow. -/
def Typed : Built → ℕ → Prop
  | .value V, w => HasWidth DL P V w
  | .binary op lhs rhs, w => (op = .and ∨ op = .or) ∧ Typed lhs w ∧ Typed rhs w
  | .icmp _ lhs rhs, w => w = 1 ∧ ∃ n, Typed lhs n ∧ Typed rhs n
  | .cast _ _ _, _ => False
  | .overflow _ idx lhs rhs, w => idx = 1 ∧ w = 1 ∧ ∃ n, Typed lhs n ∧ Typed rhs n

variable (Backedges : List (BlockId × BlockId)) (entry : BlockId)

/-- Where the value is defined, it is that of the condition. -/
def Computes (b : Built) (V : Value) : Prop :=
  ∀ σ₀ s, ForwardRuns DL P Backedges (Means DL P) entry σ₀ s → DefinedAt P entry s V →
    ∀ x, b.eval (machineEnv DL P s.env) = some x → current DL P s.env V = some x

/-- When a run of the function comes to `i`, one of the instrumented function comes to `j`
with the same values. -/
def Comes (Q : Program) (i j : InstId) : Prop :=
  ∀ σ₀ s, ForwardRuns DL P Backedges (Means DL P) entry σ₀ s → s.rest.head? = some i →
    ∃ t, ForwardRuns DL Q Backedges (Means DL Q) entry σ₀ t ∧ t.block = s.block ∧
      t.rest.head? = some j ∧ ∀ V, V.Old P → t.env V = s.env V

/-- `Q` is the function `P` with new instructions. It is closed and in SSA form, and its runs are
the runs of `P` with the new instructions added. -/
structure Instruments (F : FuncId) (Q : Program) : Prop where
  ext : Extends P Q
  closed : Closed Q
  ssa : SSAForm Q entry F
  ord : OrderedUses Q entry
  comes : ∀ i, Comes DL P Backedges entry Q i i
  lifts : ∀ σ₀ s, ForwardRuns DL P Backedges (Means DL P) entry σ₀ s →
    ∃ t, ForwardRuns DL Q Backedges (Means DL Q) entry σ₀ t ∧ Erased P t s

/-- What was known about `Q` holds of `Q'`. Positions, values that can be used, widths and computed
conditions all stay as instructions are added. -/
structure Later (Q Q' : Program) : Prop where
  ext : Extends Q Q'
  comes : ∀ i j, Comes DL P Backedges entry Q i j → Comes DL P Backedges entry Q' i j
  point : ∀ i, InsertionPoint Q i → InsertionPoint Q' i
  usable : ∀ i V, InsertionPoint Q i → UsableAt Q entry i V → UsableAt Q' entry i V
  width : ∀ V w, V.Old Q → HasWidth DL Q V w → HasWidth DL Q' V w
  computes : ∀ b V, Over (Value.Old Q) b → V.Old Q → Computes DL Q Backedges entry b V →
    Computes DL Q' Backedges entry b V

end Environment

/-- The value of a comparison or of a binary operator whose operands have the values `v`. -/
def opValue (v : Value → Option APInt) : Opcode → Option APInt
  | .binary op lhs rhs => (v lhs).bind fun x => (v rhs).bind (binaryValue op x)
  | .icmp pred lhs rhs => (v lhs).bind fun x => (v rhs).bind (icmpValue pred x)
  | _ => none

/-- What is relied on: a folded value is a constant or the one operand that is none, and has
the value of the instruction; and the intrinsics have their names. -/
structure Compiler.Sound (C : Compiler) (DL : DataLayout) (P : Program) : Prop where
  constant : ∀ Q op V, C.fold Q op = some V → V.isConstant = true ∨ V ∈ op.operands
  operand : ∀ Q op V, C.fold Q op = some V → ∀ U ∈ op.operands, U.isConstant = true ∨ U = V
  value : ∀ Q op V, C.fold Q op = some V → ∀ σ x, opValue (current DL Q σ) op = some x →
    current DL Q σ V = some x
  intrinsic : ∀ op w, overflowOp? (P.func (C.intrinsic op w)).name = some op

section Facts

variable {DL : DataLayout} {P Q Q' Q'' : Program} {Backedges : List (BlockId × BlockId)}
  {entry : BlockId} {F : FuncId} {V : Value} {b : Built} {w : ℕ} {i ip : InstId} {ty : Ty}
  {op : Opcode}

/-- The values in a condition are among more values. -/
theorem Over.mono {S S' : Value → Prop} (h : Over S b) (hS : ∀ V, S V → S' V) : Over S' b := by
  induction b with
  | value V => exact hS V h
  | cast _ _ _ ih => exact ih h
  | binary _ _ _ ihl ihr | icmp _ _ _ ihl ihr | overflow _ _ _ _ ihl ihr =>
    exact ⟨ihl h.1, ihr h.2⟩

/-- A condition over old values keeps its value. -/
theorem eval_extends (h : Extends Q Q')
    (hconst : ∀ c, ∀ U ∈ (Q.const c).operands, U.isConstant = true) {σ τ : Assignment Value}
    (hσ : ∀ V, V.Old Q → τ V = σ V) (hb : Over (Value.Old Q) b) :
    b.eval (machineEnv DL Q' τ) = b.eval (machineEnv DL Q σ) := by
  induction b with
  | value V => exact h.current hconst hσ hb
  | cast op v w ih => simp only [Built.eval, ih hb]
  | binary op lhs rhs ihl ihr | icmp pred lhs rhs ihl ihr | overflow op idx lhs rhs ihl ihr =>
    simp only [Built.eval, ihl hb.1, ihr hb.2]

theorem hasWidth_extends (h : Extends Q Q')
    (hconst : ∀ c, ∀ U ∈ (Q.const c).operands, U.isConstant = true) (hV : V.Old Q)
    (hw : HasWidth DL Q V w) : HasWidth DL Q' V w := by
  intro σ
  obtain ⟨x, hx⟩ := hw σ
  exact ⟨x, (h.current hconst (fun _ _ => rfl) hV).trans hx⟩

/-- What is defined in the instrumented function is defined without the new
instructions. -/
theorem definedAt_erased (h : Extends Q Q') {t s : MachineState} (he : Erased Q t s)
    (hV : V.Old Q) (hdef : DefinedAt Q' entry t V) : DefinedAt Q entry s V := by
  obtain ⟨havail, hrest⟩ := hdef
  refine ⟨fun i hi => ?_, fun i hi hmem => ?_⟩
  · obtain ⟨hmem, hdom⟩ := havail i hi
    have hlt := hV i hi
    rw [h.inst i hlt, h.dominates, ← he.block] at hdom
    rw [h.inst i hlt] at hmem
    exact ⟨h.mem_insts_of_lt hlt hmem, hdom⟩
  · rw [he.rest, List.mem_filter] at hmem
    exact hrest i hi hmem.1

theorem computes_extends (h : Extends Q Q') (hQ : Closed Q) (hssa : SSAForm Q entry F)
    (hentry : entry < Q.blocks.length) (hb : Over (Value.Old Q) b) (hV : V.Old Q)
    (hc : Computes DL Q Backedges entry b V) : Computes DL Q' Backedges entry b V := by
  intro σ₀ t ht hdef x hx
  obtain ⟨s, hs, he⟩ := h.erase_run hQ hssa hentry ht
  rw [h.current hssa.constant he.env hV]
  rw [eval_extends h hssa.constant he.env hb] at hx
  exact hc σ₀ s hs (definedAt_erased h he hV hdef) x hx

theorem Later.refl (hQ : Closed Q) : Later DL P Backedges entry Q Q :=
  ⟨.refl hQ, fun _ _ h => h, fun _ h => h, fun _ _ _ h => h, fun _ _ _ h => h,
    fun _ _ _ _ h => h⟩

theorem Later.trans (h : Later DL P Backedges entry Q Q')
    (h' : Later DL P Backedges entry Q' Q'') : Later DL P Backedges entry Q Q'' where
  ext := h.ext.trans h'.ext
  comes i j hc := h'.comes i j (h.comes i j hc)
  point i hi := h'.point i (h.point i hi)
  usable i V hi hV := h'.usable i V (h.point i hi) (h.usable i V hi hV)
  width V w hV hw := h'.width V w (h.ext.old hV) (h.width V w hV hw)
  computes b V hb hV hc :=
    h'.computes b V (hb.mono fun _ => h.ext.old) (h.ext.old hV) (h.computes b V hb hV hc)

/-! ## One new instruction -/

section Insert

variable (hentry : entry < P.blocks.length) (hQ : Instruments DL P Backedges entry F Q)
  (hip : InsertionPoint Q ip) (hphi : op.isPhi = false)
  (hop : ∀ V ∈ op.operands, UsableAt Q entry ip V)
  (hrun : Runnable DL (Q.insertBefore ip ty op) Q.insts.length)
include hentry hQ hip hphi hrun

/-- The runs that come to `j` still do, and those that come to `ip` come to the new
instruction. -/
theorem comes_insertBefore {j : InstId} (h : Comes DL P Backedges entry Q i j) :
    Comes DL P Backedges entry (Q.insertBefore ip ty op) i j ∧
      (j = ip → Comes DL P Backedges entry (Q.insertBefore ip ty op) i Q.insts.length) := by
  have hlift : ∀ {σ₀ t}, ForwardRuns DL Q Backedges (Means DL Q) entry σ₀ t → ∃ τ,
      ForwardRuns DL (Q.insertBefore ip ty op) Backedges (Means DL (Q.insertBefore ip ty op)) entry
        σ₀ τ ∧ Lifts Q ip t τ := fun ht =>
    lift_run hQ.closed (hQ.ext.length_blocks ▸ hentry) hip hphi hQ.ssa hQ.ord hrun ht
  have henv : ∀ {s t τ : MachineState}, (∀ V, V.Old P → t.env V = s.env V) →
      (∀ V, V ≠ .inst Q.insts.length → τ.env V = t.env V) →
      ∀ V, V.Old P → τ.env V = s.env V := fun ht hτ V hV =>
    (hτ V (hQ.ext.old hV).ne).trans (ht V hV)
  constructor
  · intro σ₀ s hs hhead
    obtain ⟨t, ht, hblock, hhead, ht'⟩ := h σ₀ s hs hhead
    obtain ⟨τ, hτ, hl⟩ := hlift ht
    obtain ⟨is, his⟩ := List.head?_eq_some_iff.mp hhead
    by_cases hj : j = ip
    · -- the new instruction runs first
      subst hj
      obtain ⟨B, rest, env⟩ := τ
      have hrest := hl.rest
      rw [his, Splice.splice_self] at hrest
      obtain rfl : rest = _ := hrest
      obtain ⟨env', henv', hstep⟩ := hrun.step B (j :: splice j Q.insts.length is) env
      refine ⟨_, hτ.tail hstep, hl.block.trans hblock, rfl, henv ht' fun V hV => ?_⟩
      exact (henv' V hV).symm.trans (hl.env V hV)
    · refine ⟨τ, hτ, hl.block.trans hblock, ?_, henv ht' hl.env⟩
      rw [hl.rest, his, Splice.splice_of_ne hj]
      rfl
  · rintro rfl σ₀ s hs hhead
    obtain ⟨t, ht, hblock, hhead, ht'⟩ := h σ₀ s hs hhead
    obtain ⟨τ, hτ, hl⟩ := hlift ht
    obtain ⟨is, his⟩ := List.head?_eq_some_iff.mp hhead
    refine ⟨τ, hτ, hl.block.trans hblock, ?_, henv ht' hl.env⟩
    rw [hl.rest, his, Splice.splice_self]
    rfl

include hop

/-- One more instruction does not change what the function does. -/
theorem instruments_insertBefore :
    Instruments DL P Backedges entry F (Q.insertBefore ip ty op) where
  ext := hQ.ext.trans (extends_insertBefore hQ.closed)
  closed := hQ.closed.insertBefore fun V hV => (hop V hV).old
  ssa := ssaForm_insertBefore hQ.closed (hQ.ext.length_blocks ▸ hentry) hQ.ssa hip hphi hop
  ord := orderedUses_insertBefore hQ.closed (hQ.ext.length_blocks ▸ hentry) hQ.ssa hop hQ.ord
  comes i := (comes_insertBefore hentry hQ hip hphi hrun (hQ.comes i)).1
  lifts σ₀ s hs := by
    have hb := hQ.ext.length_blocks ▸ hentry
    obtain ⟨t, ht, he⟩ := hQ.lifts σ₀ s hs
    obtain ⟨τ, hτ, hl⟩ : ∃ τ, ForwardRuns DL (Q.insertBefore ip ty op) Backedges
        (Means DL (Q.insertBefore ip ty op)) entry σ₀ τ ∧ Lifts Q ip t τ :=
      lift_run hQ.closed hb hip hphi hQ.ssa hQ.ord hrun ht
    refine ⟨τ, hτ, (hl.erased fun i hi => ?_).trans hQ.ext he⟩
    have hsettled := ht.runs.settled hQ.ssa hQ.ord fun _ _ _ h => h
    exact lt_of_mem_insts hQ.closed hb (ht.runs.reachable hQ.ssa) (hsettled.mem_rest hi).1

omit hop in
/-- What was known is known after one more instruction. -/
theorem later_insertBefore : Later DL P Backedges entry Q (Q.insertBefore ip ty op) where
  ext := extends_insertBefore hQ.closed
  comes _ _ h := (comes_insertBefore hentry hQ hip hphi hrun h).1
  point _ hi := hi.insertBefore hQ.closed
  usable _ _ hi hV := hV.insertBefore hQ.closed (hQ.ext.length_blocks ▸ hentry) hi
  width _ _ hV := hasWidth_extends (extends_insertBefore hQ.closed) hQ.ssa.constant hV
  computes _ _ := computes_extends (extends_insertBefore hQ.closed) hQ.closed hQ.ssa
    (hQ.ext.length_blocks ▸ hentry)

end Insert

/-! ## What the builder makes -/

variable (DL P Backedges entry F) in
/-- In `Q`, the builder made the value `r.1` for the condition `b`, which is of `w` bits and
can be used before `ip`. -/
structure Makes (Q : Program) (ip : InstId) (b : Built) (w : ℕ) (r : Value × Program) : Prop where
  later : Later DL P Backedges entry Q r.2
  instruments : Instruments DL P Backedges entry F r.2
  usable : UsableAt r.2 entry ip r.1
  width : HasWidth DL r.2 r.1 w
  computes : Computes DL r.2 Backedges entry b r.1

variable (DL P Backedges entry F) in
/-- The builder makes every condition of the form `b` that is typed and can be computed
before `ip`. -/
def Builds (C : Compiler) (ip : InstId) (b : Built) : Prop :=
  ∀ Q w, Instruments DL P Backedges entry F Q → InsertionPoint Q ip → Typed DL Q b w →
    Over (UsableAt Q entry ip) b → Makes DL P Backedges entry F Q ip b w (build C ip b Q)

/-- An instruction whose result is not analyzed can always run. -/
theorem runnable_of_other (h : (Q.inst i).ty = .other) : Runnable DL Q i := by
  refine fun σ => ⟨σ, fun x hx => ?_, fun _ _ => rfl⟩
  have hty : Q.typeOf (.inst i) = .other := h
  rw [leafValue, hty] at hx
  cases hx

/-- An instruction that has a value in every state can always run. -/
theorem runnable_of_value (hty : typeSizeInBits DL (Q.inst i).ty = some w)
    {f : (Value → Option APInt) → Option APInt} (hval : ∀ σ v, instValue DL Q σ v w i = f v)
    (h : ∀ σ, ∃ x : BitVec w, f (current DL Q σ) = some ⟨w, x⟩) : Runnable DL Q i := by
  intro σ
  obtain ⟨x, hx⟩ := h σ
  refine ⟨fun V n => if V = .inst i then x.setWidth n else σ V n, fun y hy => ?_, fun V hV => ?_⟩
  · have hleaf : leafValue DL Q (fun V n => if V = .inst i then x.setWidth n else σ V n)
        (.inst i) = some ⟨w, x⟩ := by
      have hty' : typeSizeInBits DL (Q.typeOf (.inst i)) = some w := hty
      simp [leafValue, hty']
    obtain rfl := Option.some.inj (hleaf.symm.trans hy)
    exact (hval _ _).trans hx
  · funext n
    simp [hV]

/-- A name that is defined has the value that its instruction computes. -/
theorem computes_inst (hssa : SSAForm Q entry F) (hord : OrderedUses Q entry)
    (hty : typeSizeInBits DL (Q.inst i).ty = some w)
    {f : (Value → Option APInt) → Option APInt} (hval : ∀ σ v, instValue DL Q σ v w i = f v)
    (h : ∀ σ₀ t, ForwardRuns DL Q Backedges (Means DL Q) entry σ₀ t →
      DefinedAt Q entry t (.inst i) → ∀ x, b.eval (machineEnv DL Q t.env) = some x →
      f (current DL Q t.env) = some x) : Computes DL Q Backedges entry b (.inst i) := by
  intro σ₀ t ht hdef x hx
  have hleaf : leafValue DL Q t.env (.inst i) = some ⟨w, t.env (.inst i) w⟩ := by
    have hty' : typeSizeInBits DL (Q.typeOf (.inst i)) = some w := hty
    rw [leafValue, hty']
    rfl
  have hstep := (ht.runs.settled hssa hord fun _ _ _ h => h).settled i _ hdef hleaf
  exact hleaf.trans (hstep.symm.trans ((hval _ _).trans (h σ₀ t ht hdef x hx)))

/-- An operation on two values that compute its operands. -/
theorem operands_eval {lhs rhs : Built} {L R : Value} {σ₀ : Assignment Value} {t : MachineState}
    (hL : Computes DL Q Backedges entry lhs L) (hR : Computes DL Q Backedges entry rhs R)
    (ht : ForwardRuns DL Q Backedges (Means DL Q) entry σ₀ t) (hdL : DefinedAt Q entry t L)
    (hdR : DefinedAt Q entry t R) {g : APInt → APInt → Option APInt} {x : APInt}
    (h : ((lhs.eval (machineEnv DL Q t.env)).bind fun x =>
      (rhs.eval (machineEnv DL Q t.env)).bind (g x)) = some x) :
    ((current DL Q t.env L).bind fun x => (current DL Q t.env R).bind (g x)) = some x := by
  obtain ⟨xl, hxl, h⟩ := Option.bind_eq_some_iff.mp h
  obtain ⟨xr, hxr, h⟩ := Option.bind_eq_some_iff.mp h
  rw [hL σ₀ t ht hdL xl hxl, hR σ₀ t ht hdR xr hxr]
  exact h

theorem definedAt_constant {t : MachineState} (h : V.isConstant = true) :
    DefinedAt Q entry t V := by
  refine ⟨availableAt_of_isConstant h, ?_⟩
  rintro i rfl
  cases h

/-- The width of a value is the size of its type. -/
theorem HasWidth.typed (h : HasWidth DL Q V w) : typeSizeInBits DL (Q.typeOf V) = some w := by
  obtain ⟨x, hx⟩ := h fun _ _ => 0#_
  exact current_typed hx

theorem Typed.later (h : Typed DL Q b w) (hlater : Later DL P Backedges entry Q Q')
    (hb : Over (Value.Old Q) b) : Typed DL Q' b w := by
  induction b generalizing w with
  | value V => exact hlater.width V w hb h
  | binary op lhs rhs ihl ihr => exact ⟨h.1, ihl h.2.1 hb.1, ihr h.2.2 hb.2⟩
  | icmp pred lhs rhs ihl ihr =>
    obtain ⟨hw, n, hl, hr⟩ := h
    exact ⟨hw, n, ihl hl hb.1, ihr hr hb.2⟩
  | cast => exact h.elim
  | overflow op idx lhs rhs ihl ihr =>
    obtain ⟨hidx, hw, n, hl, hr⟩ := h
    exact ⟨hidx, hw, n, ihl hl hb.1, ihr hr hb.2⟩

/-- What was made for a function with new instructions was made for the function. -/
theorem Makes.earlier {r : Value × Program} (hlater : Later DL P Backedges entry Q Q')
    (h : Makes DL P Backedges entry F Q' ip b w r) : Makes DL P Backedges entry F Q ip b w r :=
  ⟨hlater.trans h.later, h.instruments, h.usable, h.width, h.computes⟩

section Build

variable {C : Compiler} (hentry : entry < P.blocks.length)
  (hQ : Instruments DL P Backedges entry F Q) (hip : InsertionPoint Q ip)
include hentry hQ hip

/-- A new instruction that computes its value from operands that have theirs. Later positions may
use it, and where its operands have their values it has that of the condition. -/
theorem makes_insertBefore (hphi : op.isPhi = false)
    (husable : ∀ V ∈ op.operands, UsableAt Q entry ip V) (hty : typeSizeInBits DL ty = some w)
    {f : (Value → Option APInt) → Option APInt}
    (hval : ∀ σ v, instValue DL (Q.insertBefore ip ty op) σ v w Q.insts.length = f v)
    (hwidth : ∀ σ, ∃ x : BitVec w, f (current DL (Q.insertBefore ip ty op) σ) = some ⟨w, x⟩)
    (hb : Later DL P Backedges entry Q (Q.insertBefore ip ty op) →
      Instruments DL P Backedges entry F (Q.insertBefore ip ty op) → ∀ σ₀ t,
      ForwardRuns DL (Q.insertBefore ip ty op) Backedges (Means DL (Q.insertBefore ip ty op))
        entry σ₀ t → (∀ V ∈ op.operands, DefinedAt (Q.insertBefore ip ty op) entry t V) →
      ∀ x, b.eval (machineEnv DL (Q.insertBefore ip ty op) t.env) = some x →
      f (current DL (Q.insertBefore ip ty op) t.env) = some x) :
    Makes DL P Backedges entry F Q ip b w (.inst Q.insts.length, Q.insertBefore ip ty op) := by
  have hinst : (Q.insertBefore ip ty op).inst Q.insts.length =
    ⟨(Q.inst ip).parent, ty, op, none, none⟩ := insertBefore_inst_self
  have hty' : typeSizeInBits DL ((Q.insertBefore ip ty op).inst Q.insts.length).ty = some w := by
    rw [hinst]
    exact hty
  have hrun := runnable_of_value hty' hval hwidth
  have hlater := later_insertBefore hentry hQ hip hphi hrun
  have hQ' := instruments_insertBefore hentry hQ hip hphi husable hrun
  refine ⟨hlater, hQ', usableAt_new hQ.closed hQ.ord hip, fun σ => ?_, ?_⟩
  · have hty'' : typeSizeInBits DL ((Q.insertBefore ip ty op).typeOf (.inst Q.insts.length)) =
        some w := hty'
    refine ⟨σ (.inst Q.insts.length) w, ?_⟩
    rw [current, leafValue, hty'']
    rfl
  · refine computes_inst hQ'.ssa hQ'.ord hty' hval fun σ₀ t ht hdef => ?_
    have hsettled := ht.runs.settled hQ'.ssa hQ'.ord fun _ _ _ h => h
    refine hb hlater hQ' σ₀ t ht fun V hV => ?_
    exact hsettled.operand hQ'.ssa hQ'.ord hdef (.inst (by rw [hinst]; exact hphi)
      (by rw [hinst]; exact hV))

/-- The builder makes an instruction with two operands, or folds it. Folding gives a value with the
same meaning, which the soundness of the configuration states. -/
theorem create_spec (hC : C.Sound DL P) {L R : Value} (hop : op.operands = [L, R])
    (hphi : op.isPhi = false)
    (hval : ∀ Q σ v w i, (Q.inst i).op = op → instValue DL Q σ v w i = opValue v op)
    (hL : UsableAt Q entry ip L) (hR : UsableAt Q entry ip R)
    (hty : typeSizeInBits DL (resultTy Q op) = some w)
    (hwidth : ∀ Q', Extends Q Q' → ∀ σ,
      ∃ x : BitVec w, opValue (current DL Q' σ) op = some ⟨w, x⟩)
    (hb : ∀ Q', Later DL P Backedges entry Q Q' → ∀ σ₀ t,
      ForwardRuns DL Q' Backedges (Means DL Q') entry σ₀ t → DefinedAt Q' entry t L →
      DefinedAt Q' entry t R → ∀ x, b.eval (machineEnv DL Q' t.env) = some x →
      opValue (current DL Q' t.env) op = some x) :
    Makes DL P Backedges entry F Q ip b w (create C ip op Q) := by
  unfold create
  cases hfold : C.fold Q op with
  | some V =>
    have hlater : Later DL P Backedges entry Q Q := .refl hQ.closed
    refine ⟨hlater, hQ, ?_, fun σ => ?_, fun σ₀ t ht hdef x hx => ?_⟩
    · rcases hC.constant Q op V hfold with hV | hV
      · refine usableAt_constant ?_
        rintro i rfl
        cases hV
      · rw [hop] at hV
        rcases List.mem_pair.mp hV with rfl | rfl
        · exact hL
        · exact hR
    · obtain ⟨x, hx⟩ := hwidth Q hlater.ext σ
      exact ⟨x, hC.value Q op V hfold σ _ hx⟩
    · have hdefined : ∀ U ∈ op.operands, DefinedAt Q entry t U := by
        intro U hU
        rcases hC.operand Q op V hfold U hU with hU | rfl
        · exact definedAt_constant hU
        · exact hdef
      rw [hop] at hdefined
      exact hC.value Q op V hfold t.env x (hb Q hlater σ₀ t ht (hdefined L (by simp))
        (hdefined R (by simp)) x hx)
  | none =>
    refine makes_insertBefore hentry hQ hip hphi (by rw [hop]; simpa using ⟨hL, hR⟩) hty
      (f := fun v => opValue v op) (fun σ v => hval _ σ v w _ (by rw [insertBefore_inst_self]))
      (hwidth _ (extends_insertBefore hQ.closed)) fun hlater _ σ₀ t ht hdef => ?_
    rw [hop] at hdef
    exact hb _ hlater σ₀ t ht (hdef L (by simp)) (hdef R (by simp))

omit hentry hQ hip in
/-- The value of the second component of an intrinsic. -/
theorem instValue_overflow {a : InstId} {f : FuncId} {o : OverflowOp} {L R : Value}
    {σ : Assignment Value} {v : Value → Option APInt}
    (hi : (Q.inst i).op = .extractValue (.inst a) 1)
    (ha : (Q.inst a).op = .call (.func f) [L, R])
    (hname : overflowOp? (Q.func f).name = some o) :
    instValue DL Q σ v w i = (v L).bind fun x => (v R).bind (overflowValue o 1 x) := by
  have hcall : overflowCall? Q (.inst a) = some (o, L, R) := by
    simp only [overflowCall?, ha, hname, Option.map_some]
  simp only [instValue, hi, hcall]

/-- The builder makes a call of an intrinsic, and takes the component about overflow. The call gives
a pair, of which the second component is extracted; folding may replace either of the two. -/
theorem createOverflow_spec (hC : C.Sound DL P) {lhs rhs : Built} {L R : Value} {n : ℕ}
    {o : OverflowOp} (hL : UsableAt Q entry ip L) (hR : UsableAt Q entry ip R)
    (hwL : HasWidth DL Q L n) (hwR : HasWidth DL Q R n)
    (hcL : Computes DL Q Backedges entry lhs L) (hcR : Computes DL Q Backedges entry rhs R)
    (hl : Over (Value.Old Q) lhs) (hr : Over (Value.Old Q) rhs) :
    Makes DL P Backedges entry F Q ip (.overflow o 1 lhs rhs) 1
      (createOverflow C ip o 1 L R Q) := by
  let width := integerBitWidth (Q.typeOf L)
  let call : Opcode := .call (.func (C.intrinsic o width)) [L, R]
  have hcreate : createOverflow C ip o 1 L R Q =
      (.inst (Q.insertBefore ip .other call).insts.length,
        (Q.insertBefore ip .other call).insertBefore ip (.int 1)
          (.extractValue (.inst Q.insts.length) 1)) := rfl
  have hcall : ∀ V ∈ call.operands, UsableAt Q entry ip V := by
    intro V hV
    simp only [call, Opcode.operands, List.cons_append, List.nil_append, List.mem_cons,
      List.not_mem_nil, or_false] at hV
    rcases hV with rfl | rfl | rfl
    · exact hL
    · exact hR
    · exact usableAt_func
  have hinst : (Q.insertBefore ip .other call).inst Q.insts.length =
      ⟨(Q.inst ip).parent, .other, call, none, none⟩ := insertBefore_inst_self
  have hrun : Runnable DL (Q.insertBefore ip .other call) Q.insts.length :=
    runnable_of_other (by rw [hinst])
  have hlater := later_insertBefore hentry hQ hip rfl hrun
  have hQ' := instruments_insertBefore hentry hQ hip rfl hcall hrun
  have hagg : UsableAt (Q.insertBefore ip .other call) entry ip (.inst Q.insts.length) :=
    usableAt_new hQ.closed hQ.ord hip
  have hlt : Q.insts.length < (Q.insertBefore ip .other call).insts.length := by
    rw [length_insertBefore]
    exact Nat.lt_succ_self _
  rw [hcreate]
  generalize Q.insertBefore ip .other call = Q' at *
  obtain ⟨extract, hextract⟩ : ∃ op, op = Opcode.extractValue (.inst Q.insts.length) 1 :=
    ⟨_, rfl⟩
  rw [← hextract]
  have hext : Extends Q (Q'.insertBefore ip (.int 1) extract) :=
    hlater.ext.trans (extends_insertBefore hQ'.closed)
  have hold : ((Q'.insertBefore ip (.int 1) extract).inst Q.insts.length).op = call := by
    rw [insertBefore_inst_of_lt hlt, hinst]
  have hname : overflowOp? ((Q'.insertBefore ip (.int 1) extract).func
      (C.intrinsic o width)).name = some o := by
    rw [hext.func, hQ.ext.func]
    exact hC.intrinsic o width
  refine Makes.earlier hlater (makes_insertBefore hentry hQ' (hlater.point ip hip)
    (by rw [hextract]; rfl) ?_ rfl
    (f := fun v => (v L).bind fun x => (v R).bind (overflowValue o 1 x)) (fun σ v => ?_)
    (fun σ => ?_) fun hlater' hQ'' σ₀ t ht hdef x hx => ?_)
  · intro V hV
    rw [hextract] at hV
    rw [List.mem_singleton.mp hV]
    exact hagg
  · exact instValue_overflow (by rw [insertBefore_inst_self, hextract]) hold hname
  · obtain ⟨x, hx⟩ := hasWidth_extends hext hQ.ssa.constant hL.old hwL σ
    obtain ⟨y, hy⟩ := hasWidth_extends hext hQ.ssa.constant hR.old hwR σ
    exact ⟨BitVec.ofBool (o.overflow x y), by simp [hx, hy, overflowValue, APInt.ofBool]⟩
  · -- the arguments are operands of the call, which is one of the component
    have hlater'' := hlater.trans hlater'
    have hsettled := ht.runs.settled hQ''.ssa hQ''.ord fun _ _ _ h => h
    have hagg := hdef (.inst Q.insts.length) (by rw [hextract]; exact List.mem_cons_self)
    have harg : ∀ V ∈ call.operands, DefinedAt _ entry t V := fun V hV =>
      hsettled.operand hQ''.ssa hQ''.ord hagg (.inst (by rw [hold]; rfl) (by rw [hold]; exact hV))
    exact operands_eval (hlater''.computes lhs L hl hL.old hcL)
      (hlater''.computes rhs R hr hR.old hcR) ht (harg L (by simp [call, Opcode.operands]))
      (harg R (by simp [call, Opcode.operands])) hx

omit hentry hQ hip in
theorem Over.old (h : Over (UsableAt Q entry ip) b) : Over (Value.Old Q) b :=
  h.mono fun _ hV => hV.old

omit hentry hQ in
theorem Over.later (h : Over (UsableAt Q entry ip) b)
    (hlater : Later DL P Backedges entry Q Q') : Over (UsableAt Q' entry ip) b :=
  h.mono fun V hV => hlater.usable ip V hip hV

omit hentry in
/-- The two operands of an operation, one after the other. -/
theorem build_operands {lhs rhs : Built} {n : ℕ}
    (hlhs : Builds DL P Backedges entry F C ip lhs) (hrhs : Builds DL P Backedges entry F C ip rhs)
    (hl : Typed DL Q lhs n) (hr : Typed DL Q rhs n) (hol : Over (UsableAt Q entry ip) lhs)
    (hor : Over (UsableAt Q entry ip) rhs) :
    Makes DL P Backedges entry F Q ip lhs n
        ((build C ip lhs Q).1, (build C ip rhs (build C ip lhs Q).2).2) ∧
      Makes DL P Backedges entry F Q ip rhs n (build C ip rhs (build C ip lhs Q).2) := by
  have hL := hlhs Q n hQ hip hl hol
  have hR := hrhs _ n hL.instruments (hL.later.point ip hip) (hr.later hL.later hor.old)
    (hor.later hip hL.later)
  refine ⟨⟨hL.later.trans hR.later, hR.instruments, ?_, ?_, ?_⟩, hR.earlier hL.later⟩
  · exact hR.later.usable ip _ (hL.later.point ip hip) hL.usable
  · exact hR.later.width _ n hL.usable.old hL.width
  · exact hR.later.computes lhs _ (hol.old.mono fun _ => hL.later.ext.old) hL.usable.old hL.computes

omit hQ hip in
/-- What the builder makes for a condition computes the condition. The induction is on the
condition: the parts are built first, and stay computed while the rest is built. -/
theorem build_spec (hC : C.Sound DL P) (b : Built) : Builds DL P Backedges entry F C ip b := by
  induction b with
  | value V =>
    exact fun Q w hQ _ hb hover => ⟨.refl hQ.closed, hQ, hover, hb, fun _ _ _ _ _ hx => hx⟩
  | cast => exact fun Q w _ _ hb => hb.elim
  | binary op lhs rhs ihl ihr =>
    rintro Q w hQ hip ⟨hop, hl, hr⟩ hover
    obtain ⟨hL, hR⟩ := build_operands hQ hip ihl ihr hl hr hover.1 hover.2
    refine .earlier hL.later (create_spec hentry hL.instruments (hL.later.point ip hip) hC rfl rfl
      (fun Q σ v w i hi => by simp only [instValue, hi, opValue]) hL.usable hR.usable
      hL.width.typed (fun Q' h σ => ?_) fun Q' h σ₀ t ht hdL hdR x hx => ?_)
    · obtain ⟨x, hx⟩ := hasWidth_extends h hL.instruments.ssa.constant hL.usable.old hL.width σ
      obtain ⟨y, hy⟩ := hasWidth_extends h hL.instruments.ssa.constant hR.usable.old hR.width σ
      rcases hop with rfl | rfl
      · exact ⟨x &&& y, by simp [opValue, hx, hy, binaryValue, BinaryOp.eval]⟩
      · exact ⟨x ||| y, by simp [opValue, hx, hy, binaryValue, BinaryOp.eval]⟩
    · exact operands_eval (h.computes lhs _ (hover.1.old.mono fun _ => hL.later.ext.old)
        hL.usable.old hL.computes) (h.computes rhs _ (hover.2.old.mono fun _ => hR.later.ext.old)
        hR.usable.old hR.computes) ht hdL hdR hx
  | icmp pred lhs rhs ihl ihr =>
    rintro Q w hQ hip ⟨rfl, n, hl, hr⟩ hover
    obtain ⟨hL, hR⟩ := build_operands hQ hip ihl ihr hl hr hover.1 hover.2
    refine .earlier hL.later (create_spec hentry hL.instruments (hL.later.point ip hip) hC rfl rfl
      (fun Q σ v w i hi => by simp only [instValue, hi, opValue]) hL.usable hR.usable
      rfl (fun Q' h σ => ?_) fun Q' h σ₀ t ht hdL hdR x hx => ?_)
    · obtain ⟨x, hx⟩ := hasWidth_extends h hL.instruments.ssa.constant hL.usable.old hL.width σ
      obtain ⟨y, hy⟩ := hasWidth_extends h hL.instruments.ssa.constant hR.usable.old hR.width σ
      exact ⟨BitVec.ofBool (pred.eval x y), by simp [opValue, hx, hy, icmpValue, APInt.ofBool]⟩
    · exact operands_eval (h.computes lhs _ (hover.1.old.mono fun _ => hL.later.ext.old)
        hL.usable.old hL.computes) (h.computes rhs _ (hover.2.old.mono fun _ => hR.later.ext.old)
        hR.usable.old hR.computes) ht hdL hdR hx
  | overflow op idx lhs rhs ihl ihr =>
    rintro Q w hQ hip ⟨rfl, rfl, n, hl, hr⟩ hover
    obtain ⟨hL, hR⟩ := build_operands hQ hip ihl ihr hl hr hover.1 hover.2
    exact .earlier hL.later (createOverflow_spec hentry hL.instruments (hL.later.point ip hip) hC
      hL.usable hR.usable hL.width hR.width hL.computes hR.computes
      (hover.1.old.mono fun _ => hL.later.ext.old) (hover.2.old.mono fun _ => hR.later.ext.old))

end Build

end Facts

end Kint.IntRewrite
