import Kint.SMT.Z3
import Mathlib.Data.Nat.Digits.Lemmas
import Mathlib.Tactic.Positivity

/-!
# Boolector and Sonolar

`SMTBoolector.cc` and `SMTSonolar.cc` implement `SMTSolver` where formulas are vectors of one
bit.  Boolector lacks shifts of all widths and amounts, which limits what its terms mean
(`Boolector.Nodes.sound`).

## Sonolar

`Sonolar` has the functions of the solver that the file calls, and `Sonolar.solver` is the
transcription.  Most functions are calls of one function of the solver.  Reductions and the
overflow of a negation are built from others (`bvredand`, `bvredor`, `bvneg_overflow`), and a
constant is passed as the bytes of the machine words that hold it (`getRawData`, `ofWords`,
`bvconst_val`).  There are no limits: `Sonolar.sound`.

## Boolector

`Boolector.Nodes` has the functions next to those for shifts (`Kint.SMT.Boolector`) and for
constants (`Kint.SMT.Constant`).  The limits are those of the template `shift`: widths from 2 to
`2 ^ 31`, amounts below the next power of two, and, for an arithmetic shift to the right, an
operand whose sign survives the extension by zeros (`limits`).  Within these limits the
functions are those of the theory: `Boolector.Nodes.sound`.
-/

namespace Kint.SMT

open Iteration

variable {ν Node : Type}

namespace SMTSolver

/-- Every node of these solvers is a vector. -/
def vectors (val : Assignment ν → Node → APInt) (σ : Assignment ν) (e : Node) : Option APInt :=
  some (val σ e)

@[simp] theorem vectors_eq_some {val : Assignment ν → Node → APInt} {σ : Assignment ν} {e : Node}
    {c : APInt} : vectors val σ e = some c ↔ val σ e = c := by
  simp [vectors]

/-- A subtraction from zero overflows for the smallest integer. -/
theorem ssubOverflow_zero {w : ℕ} (hw : 0 < w) (x : BitVec w) :
    evalOverflow .ssub (0#w) x = (x == BitVec.intMin w) := by
  have hlt := BitVec.toInt_lt (x := x)
  have hle := BitVec.le_toInt (x := x)
  have hiff : x = BitVec.intMin w ↔ x.toInt = -2 ^ (w - 1) := by
    rw [← BitVec.toInt_inj, BitVec.toInt_intMin_of_pos hw]
  have hpow : (0 : ℤ) < 2 ^ (w - 1) := by positivity
  rw [evalOverflow, BitVec.ssubOverflow, BitVec.toInt_zero, Bool.eq_iff_iff, beq_iff_eq, hiff]
  simp only [Bool.or_eq_true, decide_eq_true_eq]
  omega

end SMTSolver

/-! ## Sonolar -/

/-- The functions of Sonolar that make terms.  `make_compare` stands for `make_equal`,
`make_distinct` and the `make_bv` functions of the orders, `make_bv` for those of the binary
operators, and `make_bv_ovfl` for those of overflow. -/
structure Sonolar (ν Node : Type) where
  get_bitwidth : Node → ℕ
  make_constant_false : Node
  make_constant_true : Node
  make_constant_0_bits : (width : ℕ) → Node
  make_constant_bytes : (data : List (BitVec 64)) → (width : ℕ) → Node
  make_variable : (width : ℕ) → (name : ν) → Node
  make_ite : Node → Node → Node → Node
  make_compare : Cmp → Node → Node → Node
  make_bv_extract : Node → (high low : ℕ) → Node
  make_bv_zero_extend : Node → (i : ℕ) → Node
  make_bv_sign_extend : Node → (i : ℕ) → Node
  make_is_zero : Node → Node
  make_not : Node → Node
  make_bv_not : Node → Node
  make_bv_neg : Node → Node
  make_bv : BinaryOp → Node → Node → Node
  make_bv_ovfl : OverflowOp → Node → Node → Node
  make_bv_sdiv_ovfl : Node → Node → Node

namespace Sonolar

open SMTSolver

/-- `getRawData`: the words of an integer, the lowest one first. -/
def getRawData (Val : APInt) : List (BitVec 64) :=
  (List.range ((Val.width + 63) / 64)).map fun i => BitVec.ofNat 64 (Val.toNat / (2 ^ 64) ^ i)

/-- The number with these words. -/
def ofWords (data : List (BitVec 64)) : ℕ := Nat.ofDigits (2 ^ 64) (data.map BitVec.toNat)

section Code

variable (N : Sonolar ν Node)

/-- `bvredand` -/
def bvredand (e : Node) : Node := N.make_is_zero (N.make_bv_not e)

/-- `bvredor` -/
def bvredor (e : Node) : Node := N.make_not (N.make_is_zero e)

/-- `bvneg_overflow` -/
def bvneg_overflow (e : Node) : Node :=
  N.make_bv_ovfl .ssub (N.make_constant_0_bits (N.get_bitwidth e)) e

/-- The functions of `SMTSonolar.cc`. -/
def solver : SMTSolver ν Node where
  bvwidth := N.get_bitwidth
  bvfalse := N.make_constant_false
  bvtrue := N.make_constant_true
  bvconst Val := .ok (N.make_constant_bytes (getRawData Val) Val.width)
  bvvar := N.make_variable
  ite := N.make_ite
  cmp := N.make_compare
  extract high low e := N.make_bv_extract e high low
  zero_extend i e := N.make_bv_zero_extend e i
  sign_extend i e := N.make_bv_sign_extend e i
  bvredand := N.bvredand
  bvredor := N.bvredor
  bvnot := N.make_bv_not
  bvneg := N.make_bv_neg
  binary op lhs rhs := .ok (N.make_bv op lhs rhs)
  bvneg_overflow := N.bvneg_overflow
  overflow := N.make_bv_ovfl
  bvsdiv_overflow := N.make_bv_sdiv_ovfl

end Code

/-- The functions of Sonolar do what their names say; a constant is read from its bytes in
the order of the machine, which stores the words of an integer from the lowest one on. -/
structure Sound (N : Sonolar ν Node) (val : Assignment ν → Node → APInt) : Prop where
  get_bitwidth : ∀ σ e, N.get_bitwidth e = (val σ e).width
  make_constant_false : ∀ σ, val σ N.make_constant_false = ⟨1, 0#1⟩
  make_constant_true : ∀ σ, val σ N.make_constant_true = ⟨1, 1#1⟩
  make_constant_0_bits : ∀ σ w, 0 < w → val σ (N.make_constant_0_bits w) = ⟨w, 0#w⟩
  make_constant_bytes : ∀ σ data w, 0 < w → w ≤ 64 * data.length →
    val σ (N.make_constant_bytes data w) = .ofNat w (ofWords data)
  make_variable : ∀ σ w name, 0 < w → val σ (N.make_variable w name) = ⟨w, σ name w⟩
  make_ite : ∀ σ e l r (c : BitVec 1), val σ e = ⟨1, c⟩ → (val σ l).width = (val σ r).width →
    val σ (N.make_ite e l r) = if c = 1#1 then val σ l else val σ r
  make_compare : ∀ op, IsBinaryOp (vectors val) (N.make_compare op) fun _ x y =>
    BitVec.ofBool (evalCmp op x y)
  make_bv_extract : ∀ high low σ e w (x : BitVec w), low ≤ high → high < w → val σ e = ⟨w, x⟩ →
    val σ (N.make_bv_extract e high low) = ⟨_, x.extractLsb high low⟩
  make_bv_zero_extend : ∀ i, IsUnaryOp (vectors val) (N.make_bv_zero_extend · i) fun w x =>
    x.setWidth (w + i)
  make_bv_sign_extend : ∀ i, IsUnaryOp (vectors val) (N.make_bv_sign_extend · i) fun w x =>
    x.signExtend (w + i)
  make_is_zero : IsUnaryOp (vectors val) N.make_is_zero fun w x => BitVec.ofBool (x == 0#w)
  make_not : ∀ σ e (x : BitVec 1), val σ e = ⟨1, x⟩ → val σ (N.make_not e) = ⟨1, ~~~x⟩
  make_bv_not : IsUnaryOp (vectors val) N.make_bv_not fun _ x => ~~~x
  make_bv_neg : IsUnaryOp (vectors val) N.make_bv_neg fun _ x => -x
  make_bv : ∀ op, IsBinaryOp (vectors val) (N.make_bv op) fun _ x y => evalBinary op x y
  make_bv_ovfl : ∀ op, IsBinaryOp (vectors val) (N.make_bv_ovfl op) fun _ x y =>
    BitVec.ofBool (evalOverflow op x y)
  make_bv_sdiv_ovfl : IsBinaryOp (vectors val) N.make_bv_sdiv_ovfl fun _ x y =>
    BitVec.ofBool (decide (SDivOverflows x y))

section Facts

variable {N : Sonolar ν Node} {val : Assignment ν → Node → APInt} {n k : ℕ} {c : APInt}

/-- The lowest words of a number. -/
theorem ofDigits_words (n k b : ℕ) :
    Nat.ofDigits b ((List.range k).map fun i => n / b ^ i % b) = n % b ^ k := by
  induction k with
  | zero => simp [Nat.mod_one]
  | succ k ih =>
    rw [List.range_succ, List.map_append, Nat.ofDigits_append, ih, List.length_map,
      List.length_range, List.map_singleton, Nat.ofDigits_singleton, pow_succ, Nat.mod_mul]

/-- The words of an integer are its digits to the base of a word. -/
theorem ofWords_getRawData (c : APInt) : ofWords (getRawData c) = c.toNat := by
  have hmap : (getRawData c).map BitVec.toNat =
      (List.range ((c.width + 63) / 64)).map fun i => c.toNat / (2 ^ 64) ^ i % 2 ^ 64 := by
    rw [getRawData, List.map_map]
    exact List.map_congr_left fun i _ => BitVec.toNat_ofNat _ _
  rw [ofWords, hmap, ofDigits_words, ← pow_mul]
  refine Nat.mod_eq_of_lt (c.toNat_lt.trans_le (Nat.pow_le_pow_right Nat.two_pos ?_))
  omega

theorem bvconst_val (hN : N.Sound val) (hc : 0 < c.width) (σ : Assignment ν) :
    val σ (N.make_constant_bytes (getRawData c) c.width) = c := by
  have hlength : c.width ≤ 64 * (getRawData c).length := by
    rw [getRawData, List.length_map, List.length_range]
    omega
  rw [hN.make_constant_bytes σ _ _ hc hlength, ofWords_getRawData]
  exact APInt.ext_toNat rfl ((APInt.toNat_ofNat _ _).trans (Nat.mod_eq_of_lt c.toNat_lt))

/-- The functions of `SMTSonolar.cc` are those of the theory, for all operands. -/
theorem sound (hN : N.Sound val) : N.solver.Sound (vectors val) .none where
  bvwidth e w h := by
    obtain ⟨x, hx⟩ := h fun _ _ => 0
    refine (hN.get_bitwidth (fun _ _ => 0) e).trans ?_
    rw [vectors_eq_some.mp hx]
  bvfalse σ := vectors_eq_some.mpr (hN.make_constant_false σ)
  bvtrue σ := vectors_eq_some.mpr (hN.make_constant_true σ)
  bvconst c hc := ⟨_, rfl, fun σ => vectors_eq_some.mpr (bvconst_val hN hc σ)⟩
  bvvar w name hw σ := vectors_eq_some.mpr (hN.make_variable σ w name hw)
  ite σ e l r c w x y he hl hr := by
    rw [vectors_eq_some] at he hl hr ⊢
    refine (hN.make_ite σ e l r c he (by rw [hl, hr])).trans ?_
    rw [hl, hr]
    split <;> rfl
  cmp := hN.make_compare
  extract high low σ e w x hle hlt h :=
    vectors_eq_some.mpr (hN.make_bv_extract high low σ e w x hle hlt (vectors_eq_some.mp h))
  zero_extend := hN.make_bv_zero_extend
  sign_extend := hN.make_bv_sign_extend
  bvredand σ e w x h := by
    refine (hN.make_is_zero σ _ w _ (hN.make_bv_not σ e w x h)).trans ?_
    have hbits : (~~~x == 0#w) = (x == BitVec.allOnes w) := by
      rw [Bool.eq_iff_iff, beq_iff_eq, beq_iff_eq, ← BitVec.not_allOnes, BitVec.not_inj]
    show some (APInt.ofBool (~~~x == 0#w)) = some (APInt.ofBool (x == BitVec.allOnes w))
    rw [hbits]
  bvredor σ e w x h := by
    have hzero := vectors_eq_some.mp (hN.make_is_zero σ e w x h)
    refine vectors_eq_some.mpr ((hN.make_not σ _ _ hzero).trans ?_)
    show (⟨1, ~~~BitVec.ofBool (x == 0#w)⟩ : APInt) = .ofBool (!(x == 0#w))
    cases x == 0#w <;> rfl
  bvnot := hN.make_bv_not
  bvneg := hN.make_bv_neg
  binary op e e' w he he' _ := ⟨_, rfl, (hN.make_bv op).hasSort he he',
    fun σ x y h h' _ => hN.make_bv op σ e e' w x y h h'⟩
  bvneg_overflow σ e w x hw h := by
    have hwidth : N.get_bitwidth e = w := by rw [hN.get_bitwidth σ, vectors_eq_some.mp h]
    have hzero := hN.make_constant_0_bits σ w hw
    rw [← ssubOverflow_zero hw]
    show vectors val σ (N.make_bv_ovfl .ssub (N.make_constant_0_bits (N.get_bitwidth e)) e) = _
    rw [hwidth]
    exact hN.make_bv_ovfl .ssub σ _ e w (0#w) x (vectors_eq_some.mpr hzero) h
  overflow := hN.make_bv_ovfl
  bvsdiv_overflow := hN.make_bv_sdiv_ovfl

end Facts

end Sonolar

/-! ## Boolector -/

namespace Boolector

open SMTSolver

/-- The functions of Boolector that make nodes, next to the shifts and the constants.  `compare`
stands for `boolector_eq`, `boolector_ne` and the functions of the orders, `arith` for those of
the binary operators that are no shifts, and `ovfl` for `boolector_saddo` and the others. -/
structure Nodes (ν Node : Type) extends Constants Node where
  const_false : Node
  const_true : Node
  zero : (width : ℕ) → Node
  var : (width : ℕ) → (name : ν) → Node
  cond : Node → Node → Node → Node
  compare : Cmp → Node → Node → Node
  sext : Node → (width : ℕ) → Node
  redand : Node → Node
  redor : Node → Node
  not : Node → Node
  neg : Node → Node
  arith : BinaryOp → Node → Node → Node
  ovfl : OverflowOp → Node → Node → Node
  sdivo : Node → Node → Node

/-- The shifts are of two bits or more, with a width that has a next power of two, by amounts
below that power; and an arithmetic shift to the right loses no sign. -/
def limits : Limits where
  width w := 2 ≤ w ∧ w ≤ 2 ^ 31
  operands op w x y :=
    match op with
    | .shl | .lshr => y.toNat < 2 ^ Nat.clog 2 w
    | .ashr => y.toNat < 2 ^ Nat.clog 2 w ∧ ((∃ k, w = 2 ^ k) ∨ x.msb = false ∨ y.toNat = 0)
    | _ => True

namespace Nodes

section Code

variable (B : Nodes ν Node) (A : Conversion)

/-- A shift that the C++ code defines. -/
def shifted (F : Node → Node → Node) (lhs rhs : Node) : Except Stop Node :=
  match B.shift F lhs rhs with
  | some e => .ok e
  | none => .error .fatal

/-- `bvadd` and the other binary operators. -/
def binary (op : BinaryOp) (lhs rhs : Node) : Except Stop Node :=
  match op with
  | .shl => B.shifted B.sll lhs rhs
  | .lshr => B.shifted B.srl lhs rhs
  | .ashr => B.shifted B.sra lhs rhs
  | _ => .ok (B.arith op lhs rhs)

/-- The functions of `SMTBoolector.cc`. -/
def solver : SMTSolver ν Node where
  bvwidth := B.get_width
  bvfalse := B.const_false
  bvtrue := B.const_true
  bvconst := B.bvconst A
  bvvar := B.var
  ite := B.cond
  cmp := B.compare
  extract high low e := B.slice e high low
  zero_extend i e := B.uext e i
  sign_extend i e := B.sext e i
  bvredand := B.redand
  bvredor := B.redor
  bvnot := B.not
  bvneg := B.neg
  binary := B.binary
  bvneg_overflow e := B.ovfl .ssub (B.zero (B.get_width e)) e
  overflow := B.ovfl
  bvsdiv_overflow := B.sdivo

end Code

/-- The functions of Boolector do what their names say; the shifts do so for a power of two. -/
structure Sound (B : Nodes ν Node) (val : Assignment ν → Node → APInt) : Prop where
  shifts : ∀ σ, B.toBoolector.Sound (val σ)
  constants : B.toConstants.Sound val
  const_false : ∀ σ, val σ B.const_false = ⟨1, 0#1⟩
  const_true : ∀ σ, val σ B.const_true = ⟨1, 1#1⟩
  zero : ∀ σ w, 0 < w → val σ (B.zero w) = ⟨w, 0#w⟩
  var : ∀ σ w name, 0 < w → val σ (B.var w name) = ⟨w, σ name w⟩
  cond : ∀ σ e l r (c : BitVec 1), val σ e = ⟨1, c⟩ → (val σ l).width = (val σ r).width →
    val σ (B.cond e l r) = if c = 1#1 then val σ l else val σ r
  compare : ∀ op, IsBinaryOp (vectors val) (B.compare op) fun _ x y =>
    BitVec.ofBool (evalCmp op x y)
  sext : ∀ i, IsUnaryOp (vectors val) (B.sext · i) fun w x => x.signExtend (w + i)
  redand : IsUnaryOp (vectors val) B.redand fun w x => BitVec.ofBool (x == BitVec.allOnes w)
  redor : IsUnaryOp (vectors val) B.redor fun w x => BitVec.ofBool (x != 0#w)
  not : IsUnaryOp (vectors val) B.not fun _ x => ~~~x
  neg : IsUnaryOp (vectors val) B.neg fun _ x => -x
  arith : ∀ op, isShift op = false → IsBinaryOp (vectors val) (B.arith op) fun _ x y =>
    evalBinary op x y
  ovfl : ∀ op, IsBinaryOp (vectors val) (B.ovfl op) fun _ x y =>
    BitVec.ofBool (evalOverflow op x y)
  sdivo : IsBinaryOp (vectors val) B.sdivo fun _ x y => BitVec.ofBool (decide (SDivOverflows x y))

section Facts

variable {B : Nodes ν Node} {A : Conversion} {val : Assignment ν → Node → APInt}
  {lhs rhs : Node} {w : ℕ} {F : Node → Node → Node} {f : (w : ℕ) → BitVec w → ℕ → BitVec w}

/-- A shift by the template, of operands of any value. -/
theorem shifted_val (hB : B.Sound val) (hF : ∀ σ, IsShift (val σ) F f)
    (hlimit : 2 ≤ w ∧ w ≤ 2 ^ 31) (hl : HasSort (vectors val) lhs w)
    (hr : HasSort (vectors val) rhs w) : ∃ e, B.shifted F lhs rhs = .ok e ∧
      ∀ σ (x y : BitVec w), val σ lhs = ⟨w, x⟩ → val σ rhs = ⟨w, y⟩ → val σ e = ⟨w,
        (f (2 ^ Nat.clog 2 w) (x.setWidth _) (y.toNat % 2 ^ Nat.clog 2 w)).setWidth w⟩ := by
  obtain ⟨x, hx⟩ := hl fun _ _ => 0
  obtain ⟨y, hy⟩ := hr fun _ _ => 0
  obtain ⟨e, he, -⟩ := shift_eval (hB.shifts _) (hF _) hlimit.1 hlimit.2 (vectors_eq_some.mp hx)
    (vectors_eq_some.mp hy)
  refine ⟨e, by rw [shifted, he], fun σ x y hx hy => ?_⟩
  obtain ⟨e', he', hval⟩ := shift_eval (hB.shifts σ) (hF σ) hlimit.1 hlimit.2 hx hy
  obtain rfl := Option.some.inj (he.symm.trans he')
  exact hval

/-- The limits are such that the shifts are those of the theory. For the arithmetic shift the sign
of the operand has to survive its extension by zeros: it does if the width is a power of two, or if
the operand is not negative. -/
theorem shift_eq {op : BinaryOp} {x y : BitVec w} (hlimit : limits.operands op x y) :
    (op = .shl → ((x.setWidth (2 ^ Nat.clog 2 w)) <<< (y.toNat % 2 ^ Nat.clog 2 w)).setWidth w =
      evalBinary op x y) ∧
    (op = .lshr → ((x.setWidth (2 ^ Nat.clog 2 w)) >>> (y.toNat % 2 ^ Nat.clog 2 w)).setWidth w =
      evalBinary op x y) ∧
    (op = .ashr → ((x.setWidth (2 ^ Nat.clog 2 w)).sshiftRight
      (y.toNat % 2 ^ Nat.clog 2 w)).setWidth w = evalBinary op x y) := by
  have hle : w ≤ 2 ^ Nat.clog 2 w := Nat.le_pow_clog Nat.one_lt_two w
  have hx : x.toNat % 2 ^ 2 ^ Nat.clog 2 w = x.toNat :=
    Nat.mod_eq_of_lt (x.isLt.trans_le (Nat.pow_le_pow_right Nat.two_pos hle))
  refine ⟨?_, ?_, ?_⟩
  · rintro rfl
    refine BitVec.eq_of_toNat_eq ?_
    rw [Nat.mod_eq_of_lt hlimit, BitVec.toNat_setWidth, BitVec.toNat_shiftLeft,
      BitVec.toNat_setWidth, hx, Nat.mod_mod_of_dvd _ (Nat.pow_dvd_pow 2 hle)]
    exact BitVec.toNat_shiftLeft.symm
  · rintro rfl
    refine BitVec.eq_of_toNat_eq ?_
    rw [Nat.mod_eq_of_lt hlimit, BitVec.toNat_setWidth, BitVec.toNat_ushiftRight,
      BitVec.toNat_setWidth, hx, Nat.shiftRight_eq_div_pow,
      Nat.mod_eq_of_lt ((Nat.div_le_self _ _).trans_lt x.isLt)]
    exact (BitVec.toNat_ushiftRight x y.toNat).symm ▸ (Nat.shiftRight_eq_div_pow _ _).symm
  · rintro rfl
    obtain ⟨hlt, hsign⟩ := hlimit
    rw [Nat.mod_eq_of_lt hlt]
    show _ = x.sshiftRight y.toNat
    rcases hle.lt_or_eq with hlt | heq
    · rw [setWidth_sshiftRight hlt, ushiftRight_eq_sshiftRight_iff]
      refine hsign.resolve_left ?_
      rintro ⟨k, rfl⟩
      rw [Nat.clog_pow 2 k Nat.one_lt_two] at hlt
      exact lt_irrefl _ hlt
    · rw [← heq, BitVec.setWidth_eq, BitVec.setWidth_eq]

/-- A shift by the template is that of the theory within the limits. -/
theorem shifted_sound (hB : B.Sound val) (hF : ∀ σ, IsShift (val σ) F f)
    (hlimit : 2 ≤ w ∧ w ≤ 2 ^ 31) (hl : HasSort (vectors val) lhs w)
    (hr : HasSort (vectors val) rhs w) {op : BinaryOp}
    (hop : ∀ x y : BitVec w, limits.operands op x y →
      (f (2 ^ Nat.clog 2 w) (x.setWidth _) (y.toNat % 2 ^ Nat.clog 2 w)).setWidth w =
        evalBinary op x y) :
    ∃ e, B.shifted F lhs rhs = .ok e ∧ HasSort (vectors val) e w ∧ ∀ σ (x y : BitVec w),
      vectors val σ lhs = some ⟨w, x⟩ → vectors val σ rhs = some ⟨w, y⟩ →
        limits.operands op x y → vectors val σ e = some ⟨w, evalBinary op x y⟩ := by
  obtain ⟨e, he, hval⟩ := shifted_val hB hF hlimit hl hr
  refine ⟨e, he, fun σ => ?_, fun σ x y hx hy hxy => ?_⟩
  · obtain ⟨x, hx⟩ := hl σ
    obtain ⟨y, hy⟩ := hr σ
    exact ⟨_, vectors_eq_some.mpr (hval σ x y (vectors_eq_some.mp hx) (vectors_eq_some.mp hy))⟩
  · rw [vectors_eq_some, hval σ x y (vectors_eq_some.mp hx) (vectors_eq_some.mp hy), hop x y hxy]

theorem bvconst_val (hB : B.Sound val) (hA : A.Sound) {c : APInt} (hc : 0 < c.width) :
    ∃ e, B.bvconst A c = .ok e ∧ ∀ σ, val σ e = c := by
  refine ⟨_, Constants.bvconst_eq hA hc, fun σ => ?_⟩
  split
  case isTrue hw => exact Constants.val_unsigned_int hB.constants hc hw σ
  case isFalse => exact Constants.val_const hB.constants hc σ

/-- The functions of `SMTBoolector.cc` are those of the theory, within the limits. -/
theorem sound (hB : B.Sound val) (hA : A.Sound) : (B.solver A).Sound (vectors val) limits where
  bvwidth e w h := by
    obtain ⟨x, hx⟩ := h fun _ _ => 0
    refine (hB.constants.get_width (fun _ _ => 0) e).trans ?_
    rw [vectors_eq_some.mp hx]
  bvfalse σ := vectors_eq_some.mpr (hB.const_false σ)
  bvtrue σ := vectors_eq_some.mpr (hB.const_true σ)
  bvconst c hc := by
    obtain ⟨e, he, hval⟩ := bvconst_val hB hA hc
    exact ⟨e, he, fun σ => vectors_eq_some.mpr (hval σ)⟩
  bvvar w name hw σ := vectors_eq_some.mpr (hB.var σ w name hw)
  ite σ e l r c w x y he hl hr := by
    rw [vectors_eq_some] at he hl hr ⊢
    refine (hB.cond σ e l r c he (by rw [hl, hr])).trans ?_
    rw [hl, hr]
    split <;> rfl
  cmp := hB.compare
  extract high low σ e w x hle hlt h := by
    rw [vectors_eq_some] at h ⊢
    refine ((hB.shifts σ).slice e high low hle (by rw [h]; exact hlt)).trans ?_
    rw [h]
  zero_extend i σ e w x h := by
    rw [vectors_eq_some] at h ⊢
    refine ((hB.shifts σ).uext e i).trans ?_
    rw [h]
  sign_extend := hB.sext
  bvredand := hB.redand
  bvredor := hB.redor
  bvnot := hB.not
  bvneg := hB.neg
  binary op e e' w he he' hwidth := by
    by_cases hshift : isShift op = true
    · have hlimit := hwidth hshift
      cases op with
      | shl =>
        exact shifted_sound hB (fun σ => (hB.shifts σ).sll) hlimit he he'
          fun x y h => (shift_eq h).1 rfl
      | lshr =>
        exact shifted_sound hB (fun σ => (hB.shifts σ).srl) hlimit he he'
          fun x y h => (shift_eq h).2.1 rfl
      | ashr =>
        exact shifted_sound hB (fun σ => (hB.shifts σ).sra) hlimit he he'
          fun x y h => (shift_eq h).2.2 rfl
      | _ => cases hshift
    · have harith := hB.arith op (Bool.eq_false_of_not_eq_true hshift)
      refine ⟨B.arith op e e', ?_, harith.hasSort he he',
        fun σ x y h h' _ => harith σ e e' w x y h h'⟩
      cases op <;> first | rfl | exact absurd rfl hshift
  bvneg_overflow σ e w x hw h := by
    have hwidth : B.get_width e = w := by
      rw [hB.constants.get_width σ, vectors_eq_some.mp h]
    have hzero := hB.zero σ w hw
    rw [← ssubOverflow_zero hw]
    show vectors val σ (B.ovfl .ssub (B.zero (B.get_width e)) e) = _
    rw [hwidth]
    exact hB.ovfl .ssub σ _ e w (0#w) x (vectors_eq_some.mpr hzero) h
  overflow := hB.ovfl
  bvsdiv_overflow := hB.sdivo

end Facts

end Nodes

end Boolector

end Kint.SMT
