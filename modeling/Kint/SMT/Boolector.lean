import Kint.LLVM.Arith
import Mathlib.Data.Nat.Log

/-!
# Shifts on top of Boolector

Boolector shifts operands of a power-of-two width by amounts of the logarithm of that width.
`SMTBoolector.cc` makes shifts of any width out of these: it extends the operand to the next
power of two, cuts the amount to its low bits and truncates the result.  The extension is by
zeros.  That is right for the shifts to the left and for the logical shift to the right
(`logical_shifts_eval`), but the arithmetic shift then does not see the sign of the operand
unless the width is a power of two (`bvashr_eval_iff`).

## The transcription

`Boolector` has the functions that the template calls; what is relied on is `Sound`.  The
logarithm is computed with `__builtin_clz`, which is undefined at zero, and the power of two
with a shift of an `unsigned`, which is undefined for large amounts: both return no value then,
and so does `shift`.  Widths from 2 to `2 ^ 31` are those for which all of it is defined
(`clog_eq`, `builtin_clz_eq`, `shiftOne_clog`).

## Main results

* `shift_eval`: what the template does, for each of the three shifts.
* `logical_shifts_eval`: the amount counts modulo the power of two above the width.
* `bvashr_eval_iff`: when the arithmetic shift is right.  The smallest 24-bit integer is one for
  which it is not (`bvashr_loses_sign`).
-/

namespace Kint.SMT

/-- The functions of Boolector that the shifts call, on its nodes. The nodes are of any type, so
that the same code can be run on values and on denotations. -/
structure Boolector (Node : Type) where
  get_width : Node → ℕ
  uext : Node → (width : ℕ) → Node
  slice : Node → (upper lower : ℕ) → Node
  sll : Node → Node → Node
  srl : Node → Node → Node
  sra : Node → Node → Node

namespace Boolector

variable {Node : Type} (B : Boolector Node)

/-- The bits of an `unsigned`: `sizeof(n) * CHAR_BIT`. -/
def unsignedBits : ℕ := 32

/-- `__builtin_clz`, which is undefined at zero. -/
def builtin_clz (x : BitVec unsignedBits) : Option ℕ := if x = 0 then none else some x.clz.toNat

/-- `1U << amount`, which is undefined for an amount of the width or more. -/
def shiftOne (amount : ℕ) : Option ℕ :=
  if amount < unsignedBits then some ((1 : BitVec unsignedBits) <<< amount).toNat else none

/-- The template `shift`, without the releases; `none` where the C++ code is
undefined. -/
def shift (F : Node → Node → Node) (e0 e1 : Node) : Option Node := do
  let n := B.get_width e1
  let clz ← builtin_clz (BitVec.ofNat unsignedBits n - 1)
  -- round up to the nearest power of 2
  let amount := unsignedBits - clz
  let power2 ← shiftOne amount
  let e0 := if power2 ≠ n then B.uext e0 (power2 - n) else e0
  let log2w := B.slice e1 (amount - 1) 0
  let result := F e0 log2w
  return if power2 ≠ n then B.slice result (n - 1) 0 else result

/-- `bvshl` -/
def bvshl : Node → Node → Option Node := B.shift B.sll

/-- `bvlshr` -/
def bvlshr : Node → Node → Option Node := B.shift B.srl

/-- `bvashr` -/
def bvashr : Node → Node → Option Node := B.shift B.sra

/-- A shift of operands of `2 ^ k` bits by amounts of `k` bits. -/
def IsShift (eval : Node → APInt) (F : Node → Node → Node)
    (f : (w : ℕ) → BitVec w → ℕ → BitVec w) : Prop :=
  ∀ e0 e1 k (a : BitVec (2 ^ k)) (s : BitVec k), 0 < k → eval e0 = ⟨2 ^ k, a⟩ →
    eval e1 = ⟨k, s⟩ → eval (F e0 e1) = ⟨2 ^ k, f (2 ^ k) a s.toNat⟩

/-- What is relied on: `uext` extends by zeros, `slice` selects bits, and the shifts
are those of the theory where Boolector takes them. -/
structure Sound (eval : Node → APInt) : Prop where
  get_width : ∀ e, B.get_width e = (eval e).width
  uext : ∀ e k, eval (B.uext e k) = ⟨_, (eval e).bits.setWidth ((eval e).width + k)⟩
  slice : ∀ e upper lower, lower ≤ upper → upper < (eval e).width →
    eval (B.slice e upper lower) = ⟨_, (eval e).bits.extractLsb upper lower⟩
  sll : IsShift eval B.sll fun _ a s => a <<< s
  srl : IsShift eval B.srl fun _ a s => a >>> s
  sra : IsShift eval B.sra fun _ a s => a.sshiftRight s

/-- Boolector on values. -/
def onValues : Boolector APInt where
  get_width := APInt.width
  uext e k := ⟨_, e.bits.setWidth (e.width + k)⟩
  slice e upper lower := ⟨_, e.bits.extractLsb upper lower⟩
  sll e0 e1 := ⟨_, e0.bits <<< e1.toNat⟩
  srl e0 e1 := ⟨_, e0.bits >>> e1.toNat⟩
  sra e0 e1 := ⟨_, e0.bits.sshiftRight e1.toNat⟩

/-- Boolector on values does what its functions say. -/
theorem sound_onValues : onValues.Sound id where
  get_width _ := rfl
  uext _ _ := rfl
  slice _ _ _ _ _ := rfl
  sll := by rintro _ _ k a s - rfl rfl; rfl
  srl := by rintro _ _ k a s - rfl rfl; rfl
  sra := by rintro _ _ k a s - rfl rfl; rfl

/-! ## The next power of two -/

section Width

variable {n m : ℕ}

/-- The logarithm, rounded up. -/
theorem clog_eq (hm : 2 ^ m < n) (hn : n ≤ 2 ^ (m + 1)) : Nat.clog 2 n = m + 1 := by
  refine le_antisymm (Nat.clog_le_of_le_pow hn) ?_
  exact (Nat.lt_clog_iff_pow_lt Nat.one_lt_two).mpr hm

/-- Counting the leading zeros of `n - 1` gives the logarithm. For `n = 1` the argument would be
zero, for which the builtin is undefined. -/
theorem builtin_clz_eq (h2 : 2 ≤ n) (hn : n ≤ 2 ^ 31) :
    ∃ z, builtin_clz (BitVec.ofNat unsignedBits n - 1) = some z ∧
      unsignedBits - z = Nat.clog 2 n := by
  have hx : (BitVec.ofNat unsignedBits n - 1).toNat = n - 1 := by
    have hmod : n % 2 ^ 32 = n := Nat.mod_eq_of_lt (by omega)
    have hone : (1 : BitVec unsignedBits) ≤ BitVec.ofNat unsignedBits n := by
      rw [BitVec.le_def, BitVec.toNat_ofNat, unsignedBits, hmod]
      show 1 ≤ n
      omega
    rw [BitVec.toNat_sub_of_le hone, BitVec.toNat_ofNat, unsignedBits, hmod]
    rfl
  generalize BitVec.ofNat unsignedBits n - 1 = x at hx
  have hne : x ≠ 0#(unsignedBits) := by
    rintro rfl
    rw [BitVec.toNat_ofNat, Nat.zero_mod] at hx
    omega
  refine ⟨x.clz.toNat, if_neg hne, ?_⟩
  -- `n - 1` has a leading one, at the position that the count leaves
  have hlow := BitVec.two_pow_sub_clz_le_toNat_of_ne_zero (by decide) hne
  have hhigh := BitVec.toNat_lt_two_pow_sub_clz (x := x)
  have hlt : x.clz.toNat < unsignedBits := BitVec.lt_def.mp (BitVec.clz_lt_iff_ne_zero.mpr hne)
  rw [hx] at hlow hhigh
  obtain ⟨m, hm⟩ : ∃ m, unsignedBits - x.clz.toNat = m + 1 := Nat.exists_eq_add_one.mpr (by omega)
  rw [show unsignedBits - 1 - x.clz.toNat = m by omega] at hlow
  rw [hm] at hhigh ⊢
  exact (clog_eq (by omega) (by omega)).symm

/-- The logarithm of a width is an amount for which `1U << amount` is defined. -/
theorem shiftOne_clog (hn : n ≤ 2 ^ 31) : shiftOne (Nat.clog 2 n) = some (2 ^ Nat.clog 2 n) := by
  have hm : Nat.clog 2 n ≤ 31 := Nat.clog_le_of_le_pow hn
  have hpow : 2 ^ Nat.clog 2 n < 2 ^ 32 := Nat.pow_lt_pow_right (by decide) (by omega)
  rw [shiftOne, if_pos (by rw [unsignedBits]; omega), BitVec.toNat_shiftLeft]
  congr 1
  rw [Nat.shiftLeft_eq]
  show 1 % 2 ^ 32 * 2 ^ Nat.clog 2 n % 2 ^ 32 = _
  rw [Nat.mod_eq_of_lt (by decide : 1 < 2 ^ 32), Nat.one_mul, Nat.mod_eq_of_lt hpow]

end Width

/-! ## The template -/

section Template

variable {B} {eval : Node → APInt} {e0 e1 : Node} {n : ℕ} {a s : BitVec n}

/-- A vector whose width is known by an equation. -/
theorem mk_eq_setWidth {w w' : ℕ} (x : BitVec w) (h : w = w') :
    (⟨w, x⟩ : APInt) = ⟨w', x.setWidth w'⟩ := by
  subst h
  rw [BitVec.setWidth_eq]

/-- The low bits of a vector. -/
theorem extractLsb_eq_setWidth {w : ℕ} (x : BitVec w) {m : ℕ} (hm : 0 < m) :
    (⟨_, x.extractLsb (m - 1) 0⟩ : APInt) = ⟨m, x.setWidth m⟩ := by
  refine APInt.ext_toNat (by show m - 1 - 0 + 1 = m; omega) ?_
  show (x.extractLsb (m - 1) 0).toNat = (x.setWidth m).toNat
  rw [BitVec.extractLsb_toNat, BitVec.toNat_setWidth, Nat.shiftRight_zero,
    show m - 1 - 0 + 1 = m by omega]

/-- The template extends the operand by zeros to the next power of two, shifts it by
the low bits of the amount, and takes the low bits of the result. -/
theorem shift_eval (hB : B.Sound eval) {F : Node → Node → Node}
    {f : (w : ℕ) → BitVec w → ℕ → BitVec w} (hF : IsShift eval F f) (h2 : 2 ≤ n)
    (hn : n ≤ 2 ^ 31) (h0 : eval e0 = ⟨n, a⟩) (h1 : eval e1 = ⟨n, s⟩) :
    ∃ e, B.shift F e0 e1 = some e ∧ eval e = ⟨n,
      (f (2 ^ Nat.clog 2 n) (a.setWidth _) (s.toNat % 2 ^ Nat.clog 2 n)).setWidth n⟩ := by
  have hw0 : (eval e0).width = n := by rw [h0]
  have hw1 : (eval e1).width = n := by rw [h1]
  obtain ⟨z, hz, hm⟩ := builtin_clz_eq h2 hn
  have hpos : 0 < Nat.clog 2 n := Nat.clog_pos Nat.one_lt_two h2
  have hle : n ≤ 2 ^ Nat.clog 2 n := Nat.le_pow_clog Nat.one_lt_two n
  have hlt : Nat.clog 2 n - 1 < n :=
    Nat.lt_two_pow_self.trans (Nat.pow_pred_clog_lt_self Nat.one_lt_two h2)
  have hslice : eval (B.slice e1 (Nat.clog 2 n - 1) 0) =
      ⟨Nat.clog 2 n, s.setWidth (Nat.clog 2 n)⟩ := by
    rw [hB.slice e1 _ _ (Nat.zero_le _) (by rw [hw1]; exact hlt), h1]
    exact extractLsb_eq_setWidth s hpos
  simp only [shift, hB.get_width, hw1, hz, Option.bind_eq_bind, Option.bind_some, hm,
    shiftOne_clog hn]
  by_cases hpower : 2 ^ Nat.clog 2 n = n
  · refine ⟨_, rfl, ?_⟩
    rw [if_neg (not_not.mpr hpower), if_neg (not_not.mpr hpower)]
    have h0' : eval e0 = ⟨2 ^ Nat.clog 2 n, a.setWidth _⟩ :=
      h0.trans (mk_eq_setWidth a hpower.symm)
    rw [hF _ _ _ _ _ hpos h0' hslice, BitVec.toNat_setWidth]
    exact mk_eq_setWidth _ hpower
  · refine ⟨_, rfl, ?_⟩
    rw [if_pos hpower, if_pos hpower]
    have hext : eval (B.uext e0 (2 ^ Nat.clog 2 n - n)) = ⟨2 ^ Nat.clog 2 n, a.setWidth _⟩ := by
      rw [hB.uext, h0]
      have hwidth : n + (2 ^ Nat.clog 2 n - n) = 2 ^ Nat.clog 2 n := by omega
      rw [mk_eq_setWidth _ hwidth, BitVec.setWidth_setWidth_of_le _ (by omega)]
    have hresult := hF _ _ _ _ _ hpos hext hslice
    rw [hB.slice _ _ _ (Nat.zero_le _) (by rw [hresult]; show n - 1 < 2 ^ Nat.clog 2 n; omega),
      hresult, BitVec.toNat_setWidth]
    exact extractLsb_eq_setWidth _ (by omega)

/-! ## The shifts -/

theorem bvshl_toNat (hB : B.Sound eval) (h2 : 2 ≤ n) (hn : n ≤ 2 ^ 31)
    (h0 : eval e0 = ⟨n, a⟩) (h1 : eval e1 = ⟨n, s⟩) :
    ∃ l, B.bvshl e0 e1 = some l ∧ (eval l).width = n ∧
      (eval l).toNat = a.toNat * 2 ^ (s.toNat % 2 ^ Nat.clog 2 n) % 2 ^ n := by
  obtain ⟨l, hl, heval⟩ := shift_eval hB hB.sll h2 hn h0 h1
  have hle : n ≤ 2 ^ Nat.clog 2 n := Nat.le_pow_clog Nat.one_lt_two n
  have ha : a.toNat % 2 ^ 2 ^ Nat.clog 2 n = a.toNat :=
    Nat.mod_eq_of_lt (a.isLt.trans_le (Nat.pow_le_pow_right (by decide) hle))
  refine ⟨l, hl, by rw [heval], ?_⟩
  rw [heval, APInt.toNat, BitVec.toNat_setWidth, BitVec.toNat_shiftLeft, BitVec.toNat_setWidth,
    ha, Nat.shiftLeft_eq, Nat.mod_mod_of_dvd _ (Nat.pow_dvd_pow 2 hle)]

/-- The logical shift to the right, as a number. -/
theorem bvlshr_toNat (hB : B.Sound eval) (h2 : 2 ≤ n) (hn : n ≤ 2 ^ 31)
    (h0 : eval e0 = ⟨n, a⟩) (h1 : eval e1 = ⟨n, s⟩) :
    ∃ r, B.bvlshr e0 e1 = some r ∧ (eval r).width = n ∧
      (eval r).toNat = a.toNat / 2 ^ (s.toNat % 2 ^ Nat.clog 2 n) := by
  obtain ⟨r, hr, heval⟩ := shift_eval hB hB.srl h2 hn h0 h1
  have hle : n ≤ 2 ^ Nat.clog 2 n := Nat.le_pow_clog Nat.one_lt_two n
  have ha : a.toNat % 2 ^ 2 ^ Nat.clog 2 n = a.toNat :=
    Nat.mod_eq_of_lt (a.isLt.trans_le (Nat.pow_le_pow_right (by decide) hle))
  refine ⟨r, hr, by rw [heval], ?_⟩
  rw [heval, APInt.toNat, BitVec.toNat_setWidth, BitVec.toNat_ushiftRight,
    BitVec.toNat_setWidth, ha, Nat.shiftRight_eq_div_pow]
  exact Nat.mod_eq_of_lt ((Nat.div_le_self _ _).trans_lt a.isLt)

/-- The value of `shl` for an amount below the width. -/
theorem shl_eq_of_toNat {x : APInt} (hs : s.toNat < n) (hw : x.width = n)
    (hx : x.toNat = a.toNat * 2 ^ s.toNat % 2 ^ n) :
    binaryValue .shl ⟨n, a⟩ ⟨n, s⟩ = some x := by
  rw [binaryValue, APInt.map₂_mk, BinaryOp.eval, if_pos hs, Option.map_some]
  congr 1
  refine APInt.ext_toNat hw.symm ?_
  rw [hx]
  exact BitVec.toNat_ofNat _ _

/-- The value of `lshr` for an amount below the width. -/
theorem lshr_eq_of_toNat {x : APInt} (hs : s.toNat < n) (hw : x.width = n)
    (hx : x.toNat = a.toNat / 2 ^ s.toNat) :
    binaryValue .lshr ⟨n, a⟩ ⟨n, s⟩ = some x := by
  rw [binaryValue, APInt.map₂_mk, BinaryOp.eval, if_pos hs, Option.map_some]
  congr 1
  refine APInt.ext_toNat hw.symm ?_
  rw [hx]
  refine (BitVec.toNat_ofNat _ _).trans (Nat.mod_eq_of_lt ?_)
  exact (Nat.div_le_self _ _).trans_lt a.isLt

/-- The logical shifts: the amount counts modulo the power of two above the width.
For amounts below the width they are the shifts of the language, and from there on
up to the power of two they give zero. -/
theorem logical_shifts_eval (hB : B.Sound eval) (h2 : 2 ≤ n) (hn : n ≤ 2 ^ 31)
    (h0 : eval e0 = ⟨n, a⟩) (h1 : eval e1 = ⟨n, s⟩) :
    ∃ l r, B.bvshl e0 e1 = some l ∧ B.bvlshr e0 e1 = some r ∧
      (eval l).width = n ∧
      (eval l).toNat = a.toNat * 2 ^ (s.toNat % 2 ^ Nat.clog 2 n) % 2 ^ n ∧
      (eval r).width = n ∧ (eval r).toNat = a.toNat / 2 ^ (s.toNat % 2 ^ Nat.clog 2 n) ∧
      (s.toNat < n → binaryValue .shl ⟨n, a⟩ ⟨n, s⟩ = some (eval l) ∧
        binaryValue .lshr ⟨n, a⟩ ⟨n, s⟩ = some (eval r)) ∧
      (n ≤ s.toNat → s.toNat < 2 ^ Nat.clog 2 n → (eval l).toNat = 0 ∧ (eval r).toNat = 0) := by
  obtain ⟨l, hl, hwl, htoNatl⟩ := bvshl_toNat hB h2 hn h0 h1
  obtain ⟨r, hr, hwr, htoNatr⟩ := bvlshr_toNat hB h2 hn h0 h1
  have hle : n ≤ 2 ^ Nat.clog 2 n := Nat.le_pow_clog Nat.one_lt_two n
  refine ⟨l, r, hl, hr, hwl, htoNatl, hwr, htoNatr, fun hs => ?_, fun hs hs' => ?_⟩
  · have hmod : s.toNat % 2 ^ Nat.clog 2 n = s.toNat := Nat.mod_eq_of_lt (hs.trans_le hle)
    rw [hmod] at htoNatl htoNatr
    exact ⟨shl_eq_of_toNat hs hwl htoNatl, lshr_eq_of_toNat hs hwr htoNatr⟩
  · rw [Nat.mod_eq_of_lt hs'] at htoNatl htoNatr
    have hpow : 2 ^ n ≤ 2 ^ s.toNat := Nat.pow_le_pow_right (by decide) hs
    constructor
    · rw [htoNatl]
      exact Nat.mod_eq_zero_of_dvd ((Nat.pow_dvd_pow 2 hs).mul_left _)
    · rw [htoNatr]
      exact Nat.div_eq_of_lt (a.isLt.trans_le hpow)

/-- Both shifts of a number of 24 bits by 25, which is less than 32. -/
theorem logical_shifts_eval_24 :
    ∃ l r, onValues.bvshl ⟨24, 0x800001#24⟩ ⟨24, 25#24⟩ = some l ∧
      onValues.bvlshr ⟨24, 0x800001#24⟩ ⟨24, 25#24⟩ = some r ∧
      (id l).width = 24 ∧
      (id l).toNat = (0x800001#24).toNat * 2 ^ ((25#24).toNat % 2 ^ Nat.clog 2 24) % 2 ^ 24 ∧
      (id r).width = 24 ∧
      (id r).toNat = (0x800001#24).toNat / 2 ^ ((25#24).toNat % 2 ^ Nat.clog 2 24) ∧
      ((25#24).toNat < 24 →
        binaryValue .shl ⟨24, 0x800001#24⟩ ⟨24, 25#24⟩ = some (id l) ∧
        binaryValue .lshr ⟨24, 0x800001#24⟩ ⟨24, 25#24⟩ = some (id r)) ∧
      (24 ≤ (25#24).toNat → (25#24).toNat < 2 ^ Nat.clog 2 24 →
        (id l).toNat = 0 ∧ (id r).toNat = 0) :=
  logical_shifts_eval sound_onValues (by decide) (by decide) rfl rfl

/-- A logical shift to the right by a positive amount clears the sign. -/
theorem ushiftRight_eq_sshiftRight_iff {t : ℕ} :
    a >>> t = a.sshiftRight t ↔ a.msb = false ∨ t = 0 := by
  constructor
  · intro h
    have hmsb := congrArg BitVec.msb h
    rw [BitVec.msb_sshiftRight, BitVec.msb_ushiftRight] at hmsb
    cases hsign : a.msb with
    | false => exact .inl rfl
    | true =>
      rw [hsign] at hmsb
      exact .inr (by simpa using hmsb)
  · rintro (h | rfl)
    · exact (BitVec.sshiftRight_eq_of_msb_false h).symm
    · rw [BitVec.sshiftRight_zero, BitVec.ushiftRight_zero]

/-- After an extension by zeros, the arithmetic shift is the logical one. -/
theorem setWidth_sshiftRight {w t : ℕ} (h : n < w) :
    ((a.setWidth w).sshiftRight t).setWidth n = a >>> t := by
  have ha := a.isLt
  have hpow : 2 ^ (n + 1) ≤ 2 ^ w := Nat.pow_le_pow_right (by decide) h
  have htoNat : (a.setWidth w).toNat = a.toNat := by
    rw [BitVec.toNat_setWidth, Nat.mod_eq_of_lt (by omega)]
  have hmsb : (a.setWidth w).msb = false := by
    rw [BitVec.msb_eq_false_iff_two_mul_lt, htoNat]
    omega
  rw [BitVec.sshiftRight_eq_of_msb_false hmsb]
  refine BitVec.eq_of_toNat_eq ?_
  rw [BitVec.toNat_setWidth, BitVec.toNat_ushiftRight, BitVec.toNat_ushiftRight, htoNat,
    Nat.shiftRight_eq_div_pow, Nat.mod_eq_of_lt ((Nat.div_le_self _ _).trans_lt ha)]

/-- The arithmetic shift by an amount below the width is right exactly when the width
is a power of two, the operand is not negative, or nothing is shifted. -/
theorem bvashr_eval_iff (hB : B.Sound eval) (h2 : 2 ≤ n) (hn : n ≤ 2 ^ 31)
    (h0 : eval e0 = ⟨n, a⟩) (h1 : eval e1 = ⟨n, s⟩) (hs : s.toNat < n) :
    (∃ e, B.bvashr e0 e1 = some e ∧ eval e = ⟨n, a.sshiftRight s.toNat⟩) ↔
      (∃ k, n = 2 ^ k) ∨ a.msb = false ∨ s.toNat = 0 := by
  obtain ⟨e, he, heval⟩ := shift_eval hB hB.sra h2 hn h0 h1
  have hle : n ≤ 2 ^ Nat.clog 2 n := Nat.le_pow_clog Nat.one_lt_two n
  rw [Nat.mod_eq_of_lt (hs.trans_le hle)] at heval
  have hiff : (∃ e, B.bvashr e0 e1 = some e ∧ eval e = ⟨n, a.sshiftRight s.toNat⟩) ↔
      ((a.setWidth (2 ^ Nat.clog 2 n)).sshiftRight s.toNat).setWidth n =
        a.sshiftRight s.toNat := by
    constructor
    · rintro ⟨e', he', heval'⟩
      obtain rfl := Option.some.inj (he.symm.trans he')
      exact eq_of_heq (APInt.mk.inj (heval.symm.trans heval')).2
    · intro h
      exact ⟨e, he, by rw [heval, h]⟩
  rw [hiff]
  rcases hle.lt_or_eq with hlt | heq
  · have hpower : ¬ ∃ k, n = 2 ^ k := by
      rintro ⟨k, rfl⟩
      rw [Nat.clog_pow 2 k Nat.one_lt_two] at hlt
      exact lt_irrefl _ hlt
    rw [setWidth_sshiftRight hlt, ushiftRight_eq_sshiftRight_iff]
    simp only [hpower, false_or]
  · refine iff_of_true ?_ (.inl ⟨_, heq⟩)
    rw [← heq, BitVec.setWidth_eq, BitVec.setWidth_eq]

theorem bvashr_eval_iff_24 :
    (∃ e, onValues.bvashr ⟨24, 0x800000#24⟩ ⟨24, 1#24⟩ = some e ∧
        id e = ⟨24, (0x800000#24).sshiftRight (1#24).toNat⟩) ↔
      (∃ k, 24 = 2 ^ k) ∨ (0x800000#24).msb = false ∨ (1#24).toNat = 0 :=
  bvashr_eval_iff sound_onValues (by decide) (by decide) rfl rfl (by decide)

/-- The smallest 24-bit integer shifted by one becomes positive. -/
theorem bvashr_loses_sign :
    ¬ ∃ e, onValues.bvashr ⟨24, 0x800000#24⟩ ⟨24, 1#24⟩ = some e ∧
      e = ⟨24, (0x800000#24).sshiftRight 1⟩ := by
  rintro ⟨e, he, heq⟩
  have hvalue : onValues.bvashr ⟨24, 0x800000#24⟩ ⟨24, 1#24⟩ = some ⟨24, 0x400000#24⟩ := by
    decide +kernel
  obtain rfl := Option.some.inj (hvalue.symm.trans he)
  exact absurd heq (by decide)

end Template

end Boolector

end Kint.SMT
