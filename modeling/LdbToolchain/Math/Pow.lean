import LdbToolchain.Math.Tables

/-!
# `pow` and `powf`

Which of the special results two numbers get, and what the logarithm and the exponential are computed
from otherwise. All of it is decided on the patterns: whether `y` is an integer, and an odd one, too.
-/

namespace LdbToolchain.Math

open Binary

/-! ## Tests on patterns -/

/-- The common code of the two `checkint`. -/
def checkintOf {w : Nat} (fracBits bias : Nat) (expMask iy : BitVec w) : Nat :=
  let e := (iy >>> fracBits &&& expMask).toNat
  if e < bias then 0
  else if e > bias + fracBits then 2
  else if iy &&& ((1#w <<< (bias + fracBits - e)) - 1#w) ≠ 0#w then 0
  else if iy &&& (1#w <<< (bias + fracBits - e)) ≠ 0#w then 1
  else 2

/-- Returns 0 if not int, 1 if odd int, 2 if even int. -/
def Pow.checkint : Word → Nat := checkintOf 52 0x3ff 0x7ff

def Powf.checkint : Word32 → Nat := checkintOf 23 0x7f 0xff

/-- The common code of the two `zeroinfnan`. -/
def zeroinfnanOf {w : Nat} (inf i : BitVec w) : Bool := decide (2#w * i - 1#w ≥ 2#w * inf - 1#w)

/-- Returns 1 if input is the bit representation of 0, infinity or nan. -/
def Pow.zeroinfnan : Word → Bool := zeroinfnanOf 0x7ff0000000000000

def Powf.zeroinfnan : Word32 → Bool := zeroinfnanOf 0x7f800000

/-- Top 12 bits of a double (sign and exponent bits). -/
def Pow.top12 (ix : Word) : Word32 := (ix >>> 52).setWidth 32

/-! ## Integers -/

/-- What `checkint` says of a number. -/
def IntCode (v : ℚ) : Nat → Prop
  | 0 => ∀ z : ℤ, v ≠ z
  | 1 => ∃ z : ℤ, v = z ∧ Odd z
  | 2 => ∃ z : ℤ, v = z ∧ Even z
  | _ => False

theorem IntCode.neg {v : ℚ} {code : Nat} (h : IntCode v code) : IntCode (-v) code := by
  match code with
  | 0 =>
      intro z hz
      refine h (-z) ?_
      push_cast
      rw [← hz, neg_neg]
  | 1 =>
      obtain ⟨z, hz, hodd⟩ := h
      exact ⟨-z, by rw [hz]; push_cast; rfl, hodd.neg⟩
  | 2 =>
      obtain ⟨z, hz, heven⟩ := h
      exact ⟨-z, by rw [hz]; push_cast; rfl, heven.neg⟩
  | _ + 3 => exact h

theorem intCode_value {F : Format} {n code : Nat} (h : IntCode (F.size (F.magnitude n)) code) :
    IntCode (F.value n) code := by
  rw [Format.value]
  split
  · exact h.neg
  · exact h

/-- The tests are those for an integer and an odd one, by the places of the bits. -/
theorem checkintOf_code {F : Format} {w : Nat} {iy : BitVec w} (hw : w = 1 + F.expBits + F.fracBits)
    (hbias : Odd F.bias) (hzero : ¬ F.IsZero iy.toNat) :
    IntCode (F.value iy.toNat)
      (checkintOf F.fracBits F.bias (BitVec.ofNat w (2 ^ F.expBits - 1)) iy) := by
  have he : (iy >>> F.fracBits &&& BitVec.ofNat w (2 ^ F.expBits - 1)).toNat
      = F.magnitude iy.toNat / 2 ^ F.fracBits := by
    rw [toNat_shiftRight_and_mask _ _ (by omega), Format.magnitude_div]
  refine intCode_value ?_
  rw [checkintOf, he]
  by_cases hsmall : F.magnitude iy.toNat / 2 ^ F.fracBits < F.bias
  · rw [if_pos hsmall]
    intro z hz
    have hpos : 0 < F.size (F.magnitude iy.toNat) := Format.size_pos.mpr hzero
    have hlt : F.size (F.magnitude iy.toNat) < 1 := by
      have hone : F.size (F.bias * 2 ^ F.fracBits) = 1 := by
        rw [Format.size_mul_two_pow (by omega), sub_self, zpow_zero]
      rw [← hone]
      exact Format.size_strictMono ((Nat.div_lt_iff_lt_mul (by positivity)).mp hsmall)
    rw [hz] at hpos hlt
    have hpos' : 0 < z := by exact_mod_cast hpos
    have hlt' : z < 1 := by exact_mod_cast hlt
    omega
  rw [if_neg hsmall]
  by_cases hlarge : F.magnitude iy.toNat / 2 ^ F.fracBits > F.bias + F.fracBits
  · rw [if_pos hlarge]
    exact Format.even_size hlarge
  rw [if_neg hlarge]
  have hexp : F.expBits ≠ 0 := by
    intro h
    rw [Format.bias, h] at hbias
    exact absurd hbias (by decide)
  have hinteger := @Format.integer_iff F (F.magnitude iy.toNat) hbias (by omega) (by omega)
  have hodd := @Format.odd_iff F (F.magnitude iy.toNat) hbias (by omega) (by omega)
  have hpoint : F.bias + F.fracBits - F.magnitude iy.toNat / 2 ^ F.fracBits ≤ F.fracBits := by omega
  generalize F.bias + F.fracBits - F.magnitude iy.toNat / 2 ^ F.fracBits = d at *
  rw [Format.dvd_magnitude (by omega)] at hinteger
  rw [Format.magnitude_div_mod_two (by omega)] at hodd
  by_cases hlow : iy &&& ((1#w <<< d) - 1#w) ≠ 0#w
  · rw [if_pos hlow]
    intro z hz
    exact hlow ((and_low_eq_zero_iff iy (by omega)).mpr (hinteger.mp ⟨z, hz⟩))
  rw [if_neg hlow]
  obtain ⟨z, hz⟩ := hinteger.mpr ((and_low_eq_zero_iff iy (by omega)).mp (not_not.mp hlow))
  by_cases hbit : iy &&& (1#w <<< d) ≠ 0#w
  · rw [if_pos hbit]
    exact ⟨z, hz, (hodd hz).mpr ((and_bit_ne_zero_iff iy (by omega)).mp hbit)⟩
  · rw [if_neg hbit]
    refine ⟨z, hz, ?_⟩
    rw [← Int.not_odd_iff_even, hodd hz, ← and_bit_ne_zero_iff iy (by omega)]
    exact hbit

/-- **`checkint` knows integers.** For every finite number other than 0, by its pattern, `pow` and
`powf` tell whether it is an odd integer, an even one, or none. -/
theorem checkint_code :
    (∀ iy : Word, ¬ double.IsZero iy.toNat → IntCode (double.value iy.toNat) (Pow.checkint iy)) ∧
      ∀ iy : Word32, ¬ single.IsZero iy.toNat →
        IntCode (single.value iy.toNat) (Powf.checkint iy) :=
  ⟨fun _ hzero => checkintOf_code (F := double) rfl (by decide) hzero,
    fun _ hzero => checkintOf_code (F := single) rfl (by decide) hzero⟩

/-! ## The functions -/

/-- Where `pow` returns, or what it goes on with. -/
inductive PowCase (w : Nat) where
  /-- `return 1.0` -/
  | one
  /-- `return 0.0` -/
  | zero
  /-- `return x + y` -/
  | sum
  /-- `return y * y` -/
  | square
  /-- `x * x`, its negation, or the reciprocal of either -/
  | zeroOrInf (negate reciprocal : Bool)
  /-- `__math_invalid(x)` -/
  | invalid
  /-- `return 1.0 + y`, or `1.0 - y` -/
  | nearOne (plus : Bool)
  /-- `__math_oflow(0)` -/
  | oflow
  /-- `__math_uflow(0)` -/
  | uflow
  /-- What the logarithm is computed from, and the bias for the sign of the exponential. -/
  | reduced (parts : Parts w) (invc : Option HexFloat) (signBias : Word32)

/-- The results for a `y` that is 0, infinite or no number. `issignaling_inline` is 0. -/
def specialY {w : Nat} (one inf ix iy : BitVec w) (negative : Bool) : PowCase w :=
  if 2#w * iy = 0#w then .one
  else if ix = one then .one
  else if 2#w * ix > 2#w * inf ∨ 2#w * iy > 2#w * inf then .sum
  else if 2#w * ix = 2#w * one then .one
  -- |x|<1 && y==inf or |x|>1 && y==-inf.
  else if decide (2#w * ix < 2#w * one) = !negative then .zero
  else .square

namespace Pow

def SIGN_BIAS : Word32 := 0x800#32 <<< 7

def logInline (ix : Word) (signBias : Word32) : PowCase 64 :=
  let r := split 52 7 (0xfff#64 <<< 52) 0x3fe6955500000000 ix
  .reduced r powInvc[r.i]? signBias

/-- The end of the special cases, for non-zero finite numbers: `ix` and `topx` are without the sign
of `x` by now. -/
def finite (x ix : Word) (topx topy signBias : Word32) : PowCase 64 :=
  if (topy &&& 0x7ff) - 0x3be ≥ 0x43e - 0x3be then
    if ix = 0x3ff0000000000000 then .one
    else if topy &&& 0x7ff < 0x3be then .nearOne (decide (ix > 0x3ff0000000000000))
    else if decide (ix > 0x3ff0000000000000) = decide (topy < 0x800) then .oflow
    else .uflow
  -- Normalize subnormal x so exponent becomes negative.
  else if topx = 0 then
    logInline ((timesTwoPow double x &&& 0x7fffffffffffffff) - (52#64 <<< 52)) signBias
  else logInline ix signBias

end Pow

def pow (ix iy : Word) : PowCase 64 :=
  let topx := Pow.top12 ix
  let topy := Pow.top12 iy
  if topx - 0x001 ≥ 0x7ff - 0x001 ∨ (topy &&& 0x7ff) - 0x3be ≥ 0x43e - 0x3be then
    if Pow.zeroinfnan iy then
      specialY 0x3ff0000000000000 0x7ff0000000000000 ix iy (decide (iy >>> 63 ≠ 0))
    else if Pow.zeroinfnan ix then
      .zeroOrInf (decide (ix >>> 63 ≠ 0 ∧ Pow.checkint iy = 1)) (decide (iy >>> 63 ≠ 0))
    else if ix >>> 63 ≠ 0 then
      let yint := Pow.checkint iy
      if yint = 0 then .invalid
      else
        Pow.finite ix (ix &&& 0x7fffffffffffffff) (topx &&& 0x7ff) topy
          (if yint = 1 then Pow.SIGN_BIAS else 0)
    else Pow.finite ix ix topx topy 0
  else Pow.logInline ix 0

namespace Powf

def SIGN_BIAS : Word32 := 1#32 <<< (5 + 11)

/-- Here `k` is what is left of `top`. -/
def log2Parts (ix : Word32) : Parts 32 :=
  let tmp := ix - 0x3f330000
  let top := tmp &&& 0xff800000
  { i := (tmp >>> (23 - 4)).toNat % 16
    iz := ix - top
    k := (top.sshiftRight 23).toInt }

def log2Inline (ix : Word32) (signBias : Word32) : PowCase 32 :=
  let r := log2Parts ix
  .reduced r powfInvc[r.i]? signBias

/-- The end of the special cases, for non-zero finite numbers: `ix` is without the sign of `x`. -/
def finite (x ix signBias : Word32) : PowCase 32 :=
  -- Normalize subnormal x so exponent becomes negative.
  if ix < 0x00800000 then
    log2Inline ((timesTwoPow single x &&& 0x7fffffff) - (23#32 <<< 23)) signBias
  else log2Inline ix signBias

end Powf

def powf (ix iy : Word32) : PowCase 32 :=
  if ix - 0x00800000 ≥ 0x7f800000 - 0x00800000 ∨ Powf.zeroinfnan iy then
    if Powf.zeroinfnan iy then
      specialY 0x3f800000 0x7f800000 ix iy (decide (iy &&& 0x80000000 ≠ 0))
    else if Powf.zeroinfnan ix then
      .zeroOrInf (decide (ix &&& 0x80000000 ≠ 0 ∧ Powf.checkint iy = 1)) (decide (iy &&& 0x80000000 ≠ 0))
    else if ix &&& 0x80000000 ≠ 0 then
      let yint := Powf.checkint iy
      if yint = 0 then .invalid
      else Powf.finite ix (ix &&& 0x7fffffff) (if yint = 1 then Powf.SIGN_BIAS else 0)
    else Powf.finite ix ix 0
  else Powf.log2Inline ix 0

end LdbToolchain.Math
