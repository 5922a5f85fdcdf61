import LdbToolchain.Lib.Rounding
import LdbToolchain.Math.ExpTables
import LdbToolchain.Math.PowCases

/-!
# `exp`, `exp2` and the exponential of `pow`

An exponential is computed as `2 ^ (k / N)` times a polynomial in what is left of its argument. `k` is
found by rounding a sum with the number `Shift`, which is so large that the low bits of the sum are an
integer, and the power comes from the table and from integer arithmetic on patterns. Here are the
special results, and for the others the scale and the tail that stand for the power. The polynomial is
left out. Arithmetic on numbers rounds to nearest.
-/

namespace LdbToolchain.Math

open Binary

/-! ## The code -/

/-- `asuint64(kd)`, where `kd` is the sum, rounded to nearest, of a number and of the `Shift` with
this pattern. -/
def shiftedSum (shift : Word) (x : ℚ) : Word :=
  BitVec.ofNat 64 (double.round (x + double.value shift.toNat))

/-- `InvLn2N` -/
def invLn2N : ℚ := double.value 0x40671547652b82fe

/-- `ki` of `exp`: exp(x) = 2^(k/N) * exp(r), with exp(r) in [2^(-1/2N),2^(1/2N)]. -/
def expKi (ix : Word) : Word :=
  let z := double.nearest (invLn2N * double.value ix.toNat)
  shiftedSum 0x4338000000000000 z

/-- `ki` of `exp2`: x = k/N + r, with int k and r in [-1/2N, 1/2N]. -/
def exp2Ki (ix : Word) : Word := shiftedSum 0x42c8000000000000 (double.value ix.toNat)

/-- `tail` and `sbits`. -/
def expScale (ki : Word) (signBias : Word32) : Option (Word × Word) := do
  let idx := 2 * (ki % 128)
  let top := (ki + signBias.setWidth 64) <<< (52 - 7)
  let tail ← expTab[idx.toNat]?
  let h ← expTab[(idx + 1).toNat]?
  return (tail, h + top)

/-- Where an exponential returns. -/
inductive ExpCase where
  /-- `1.0 + x`, or its negation -/
  | onePlus (negate : Bool)
  /-- `return 0.0` -/
  | zero
  /-- `__math_uflow(sign_bias)` -/
  | uflow
  /-- `__math_oflow(sign_bias)` -/
  | oflow
  /-- `scale + scale * tmp`, times `2 ^ factor`, where `tmp` begins with `tail` -/
  | scaled (tail scale : Word) (factor : Int)

/-- Handle cases that may overflow or underflow when computing the result. The exponent of `sbits` is
taken back by `excess`, or up, and the factor makes up for it. -/
def specialcase (excess : Nat) (tail sbits ki : Word) : ExpCase :=
  if ki &&& 0x80000000 = 0 then .scaled tail (sbits - (BitVec.ofNat 64 excess <<< 52)) excess
  else .scaled tail (sbits + (1022#64 <<< 52)) (-1022)

/-- The end of all three: `abstop` is 0 when the scale needs care. -/
def finish (excess : Nat) (abstop : Word32) (ki : Word) (signBias : Word32) : Option ExpCase := do
  let (tail, sbits) ← expScale ki signBias
  if abstop = 0 then return specialcase excess tail sbits ki
  else return .scaled tail sbits 0

def exp (ix : Word) : Option ExpCase :=
  let ki := expKi ix
  let abstop := Pow.top12 ix &&& 0x7ff
  if abstop - 0x3c9 ≥ 0x408 - 0x3c9 then
    if abstop - 0x3c9 ≥ 0x80000000 then some (.onePlus false)
    else if abstop ≥ 0x409 then
      if ix = 0xfff0000000000000 then some .zero
      else if abstop ≥ 0x7ff then some (.onePlus false)
      else if ix >>> 63 ≠ 0 then some .uflow
      else some .oflow
    -- Large x is special cased below.
    else finish 1009 0 ki 0
  else finish 1009 abstop ki 0

def exp2 (ix : Word) : Option ExpCase :=
  let ki := exp2Ki ix
  let abstop := Pow.top12 ix &&& 0x7ff
  -- Large x is special cased below.
  let rest := if 2 * ix > 2 * 0x408d000000000000 then finish 1 0 ki 0 else finish 1 abstop ki 0
  if abstop - 0x3c9 ≥ 0x408 - 0x3c9 then
    if abstop - 0x3c9 ≥ 0x80000000 then some (.onePlus false)
    else if abstop ≥ 0x409 then
      if ix = 0xfff0000000000000 then some .zero
      else if abstop ≥ 0x7ff then some (.onePlus false)
      else if ix >>> 63 = 0 then some .oflow
      else if ix ≥ 0xc090cc0000000000 then some .uflow
      else rest
    else rest
  else finish 1 abstop ki 0

/-- `exp_inline`, whose argument is finite. -/
def Pow.expInline (ix : Word) (signBias : Word32) : Option ExpCase :=
  let ki := expKi ix
  let abstop := Pow.top12 ix &&& 0x7ff
  if abstop - 0x3c9 ≥ 0x408 - 0x3c9 then
    if abstop - 0x3c9 ≥ 0x80000000 then some (.onePlus (decide (signBias ≠ 0)))
    else if abstop ≥ 0x409 then
      if ix >>> 63 ≠ 0 then some .uflow else some .oflow
    else finish 1009 0 ki signBias
  else finish 1009 abstop ki signBias

/-! ## The scale -/

/-- The bits that a step of the exponent and the sign add to a pattern. -/
def raise (e : ℤ) (negative : Bool) : Word := ((e * 2 ^ 52 + if negative then 2 ^ 63 else 0 : ℤ) : Word)

theorem toNat_raise (e : ℤ) (negative : Bool) :
    (raise e negative).toNat = ((e * 2 ^ 52 + if negative then 2 ^ 63 else 0) % 2 ^ 64).toNat :=
  BitVec.toNat_ofInt _

/-- The sign of a result. -/
def sign (negative : Bool) : ℚ := if negative then -1 else 1

/-- A number from 1 to 2, scaled and signed by its pattern. -/
theorem value_raise {h : Word} {e : ℤ} (hoctave : InOctave h) (hlow : -1022 ≤ e) (hhigh : e ≤ 1023)
    (negative : Bool) :
    double.value (h + raise e negative).toNat = sign negative * (2 ^ e * double.value h.toNat) ∧
      Ordinary double (h + raise e negative).toNat ∧
      2 ^ 52 ≤ double.magnitude (h + raise e negative).toNat := by
  obtain ⟨hlo, hhi⟩ := hoctave
  obtain ⟨m, hm⟩ : ∃ m : Nat, (m : ℤ) = h.toNat + e * 2 ^ 52 :=
    ⟨(h.toNat + e * 2 ^ 52).toNat, Int.toNat_of_nonneg (by omega)⟩
  have hle : 2 ^ 52 ≤ m := by omega
  have hlt : m < 2047 * 2 ^ 52 := by omega
  have hnat : (h + raise e negative).toNat = m + if negative then 2 ^ 63 else 0 := by
    rw [BitVec.toNat_add, toNat_raise]
    cases negative with
    | false =>
        simp only [Bool.false_eq_true, ↓reduceIte]
        omega
    | true =>
        simp only [↓reduceIte]
        omega
  have hmag : double.magnitude (h + raise e negative).toNat = m := by
    rw [hnat]
    show (m + _) % 2 ^ 63 = m
    split
    · omega
    · omega
  have hneg : double.negative (h + raise e negative).toNat = negative := by
    rw [hnat, Format.negative]
    cases negative with
    | false =>
        rw [decide_eq_false_iff_not]
        show ¬ 2 ^ 63 ≤ m + 0
        omega
    | true =>
        rw [decide_eq_true_iff]
        show 2 ^ 63 ≤ m + 2 ^ 63
        omega
  have hsize : double.size m = 2 ^ e * double.value h.toNat := by
    have hray : (m : ℤ) = h.toNat + e * 2 ^ double.fracBits := hm
    rw [Format.size_of_le hle, hray, Format.ray_add_mul, Format.value_of_lt (lt_trans hhi (by decide)),
      Format.size_of_le (show 2 ^ 52 ≤ h.toNat by omega)]
  refine ⟨?_, ordinary_iff.mpr ⟨by rw [hmag]; omega, by rw [hmag]; exact hlt⟩, by rw [hmag]; exact hle⟩
  rw [Format.value, hneg, hmag, hsize, sign]
  split
  · rw [neg_one_mul]
  · rw [one_mul]

/-- The argument `sign_bias`. -/
def bias (negative : Bool) : Word32 := if negative then Pow.SIGN_BIAS else 0

/-- Shifted to the place of the exponent, `ki` is the exponent of the power, the sign, and what the
table's entry lacks. -/
theorem shiftLeft_eq_raise {bits N : Nat} (htable : bits = 5 ∧ N = 32 ∨ bits = 7 ∧ N = 128) {c k : ℤ}
    {ki b : Word} (hki : (ki.toNat : ℤ) = c * 2 ^ 32 + k) {negative : Bool}
    (hb : b.toNat = if negative then 2048 * N else 0) :
    (ki + b) <<< (52 - bits)
      = (BitVec.ofNat 64 (k % N).toNat <<< (52 - bits)) + raise (k / N) negative := by
  rw [← BitVec.toNat_inj, BitVec.toNat_add, BitVec.toNat_shiftLeft, BitVec.toNat_shiftLeft,
    BitVec.toNat_add, BitVec.toNat_ofNat, toNat_raise, hb, Nat.shiftLeft_eq, Nat.shiftLeft_eq]
  rcases htable with ⟨rfl, rfl⟩ | ⟨rfl, rfl⟩
  all_goals
    cases negative with
    | false =>
        simp only [Bool.false_eq_true, ↓reduceIte]
        omega
    | true =>
        simp only [↓reduceIte]
        omega

theorem expScale_spec {c k : ℤ} {ki : Word} (hki : (ki.toNat : ℤ) = c * 2 ^ 32 + k)
    (negative : Bool) :
    ∃ t h, expScale ki (bias negative) = some (t, h + raise (k / 128) negative) ∧ InOctave h ∧
      |((double.value h.toNat * (1 + double.value t.toNat) : ℚ) : ℝ)
          - 2 ^ (((k % 128).toNat : ℝ) / 128)|
        ≤ 1 / 2 ^ 107 * 2 ^ (((k % 128).toNat : ℝ) / 128) := by
  have hmod : (ki % 128).toNat = (k % 128).toNat := by
    rw [BitVec.toNat_umod]
    show _ % 128 = _
    omega
  have hidx : (2 * (ki % 128)).toNat = 2 * (k % 128).toNat := by
    rw [BitVec.toNat_mul, hmod]
    show 2 * _ % 2 ^ 64 = _
    omega
  have hidx' : (2 * (ki % 128) + 1).toNat = 2 * (k % 128).toNat + 1 := by
    rw [BitVec.toNat_add, hidx]
    show (_ + 1) % 2 ^ 64 = _
    omega
  obtain ⟨t, h, ht, hh, hoctave, haccurate⟩ := exists_expTab (j := (k % 128).toNat) (by omega)
  refine ⟨t, entry 7 (k % 128).toNat h, ?_, hoctave, haccurate⟩
  have hbias : ((bias negative).setWidth 64).toNat = if negative then 2048 * 128 else 0 := by
    cases negative with
    | false => decide
    | true => decide
  have htop := shiftLeft_eq_raise (.inr ⟨rfl, rfl⟩) hki hbias
  rw [expScale, hidx, hidx', ht, hh]
  show some (t, h + ((ki + _) <<< (52 - 7))) = _
  rw [htop, ← add_assoc]
  rfl

/-! ## The power -/

/-- `scale * (1 + tail)` with the factor is `2 ^ (k / 128)` with its sign, but for an error below
`2 ^ -107` of it; and the scale is a normal number. -/
structure Approximates (k : ℤ) (negative : Bool) (tail scale : Word) (factor : ℤ) : Prop where
  ordinary : Ordinary double scale.toNat
  normal : 2 ^ 52 ≤ double.magnitude scale.toNat
  near : |(sign negative : ℝ) * 2 ^ ((k : ℝ) / 128)
      - 2 ^ factor * double.value scale.toNat * (1 + double.value tail.toNat)|
    ≤ 1 / 2 ^ 107 * 2 ^ ((k : ℝ) / 128)

theorem two_rpow_split {N : Nat} (hN : N ≠ 0) (k : ℤ) :
    (2 : ℝ) ^ ((k : ℝ) / N) = 2 ^ (k / N) * 2 ^ (((k % N).toNat : ℝ) / N) := by
  have hnonneg : 0 ≤ k % N := Int.emod_nonneg _ (by exact_mod_cast hN)
  have hsplit : (k : ℝ) = N * (k / N : ℤ) + (k % N).toNat := by
    rw [← Int.cast_natCast (k % N).toNat, Int.toNat_of_nonneg hnonneg]
    exact_mod_cast (Int.mul_ediv_add_emod k N).symm
  have hreal : (N : ℝ) ≠ 0 := by exact_mod_cast hN
  have hexp : (k : ℝ) / N = (k / N : ℤ) + ((k % N).toNat : ℝ) / N := by
    rw [div_eq_iff hreal, add_mul, div_mul_cancel₀ _ hreal, mul_comm]
    exact hsplit
  rw [hexp, Real.rpow_add two_pos, Real.rpow_intCast]

theorem abs_sign (negative : Bool) : |(sign negative : ℝ)| = 1 := by
  cases negative with
  | false => simp [sign]
  | true => simp [sign]

theorem approximates_of {t h : Word} {k factor : ℤ} (hoctave : InOctave h)
    (haccurate : |((double.value h.toNat * (1 + double.value t.toNat) : ℚ) : ℝ)
        - 2 ^ (((k % 128).toNat : ℝ) / 128)| ≤ 1 / 2 ^ 107 * 2 ^ (((k % 128).toNat : ℝ) / 128))
    (hlow : -1022 ≤ k / 128 - factor) (hhigh : k / 128 - factor ≤ 1023) (negative : Bool) :
    Approximates k negative t (h + raise (k / 128 - factor) negative) factor := by
  obtain ⟨hvalue, hordinary, hnormal⟩ := value_raise hoctave hlow hhigh negative
  refine ⟨hordinary, hnormal, ?_⟩
  have hsplit : (2 : ℝ) ^ ((k : ℝ) / 128) = 2 ^ (k / 128) * 2 ^ (((k % 128).toNat : ℝ) / 128) :=
    two_rpow_split (N := 128) (by decide) k
  have hpow : (0 : ℝ) < 2 ^ (k / 128) := by positivity
  have hfactor : (2 : ℝ) ^ factor * 2 ^ (k / 128 - factor) = 2 ^ (k / 128) := by
    rw [← zpow_add₀ two_ne_zero]
    congr 1
    ring
  have hdiff : (sign negative : ℝ) * 2 ^ ((k : ℝ) / 128)
      - 2 ^ factor * double.value (h + raise (k / 128 - factor) negative).toNat
        * (1 + double.value t.toNat)
      = sign negative * 2 ^ (k / 128) * (2 ^ (((k % 128).toNat : ℝ) / 128)
        - ((double.value h.toNat * (1 + double.value t.toNat) : ℚ) : ℝ)) := by
    rw [hsplit, hvalue, ← hfactor]
    push_cast
    ring
  rw [hdiff, abs_mul, abs_mul, abs_sign, one_mul, abs_of_pos hpow, hsplit, mul_left_comm,
    abs_sub_comm]
  exact mul_le_mul_of_nonneg_left haccurate hpow.le

/-- A further step of the exponent. -/
theorem raise_add (e d : ℤ) (negative : Bool) :
    raise e negative + raise d false = raise (e + d) negative := by
  rw [← BitVec.toNat_inj, BitVec.toNat_add, toNat_raise, toNat_raise, toNat_raise]
  cases negative with
  | false =>
      simp only [Bool.false_eq_true, ↓reduceIte]
      omega
  | true =>
      simp only [↓reduceIte, Bool.false_eq_true]
      omega

/-- Bit 31 of `ki` is the sign of `k`. -/
theorem bit_eq_zero_iff {c k : ℤ} {ki : Word} (hki : (ki.toNat : ℤ) = c * 2 ^ 32 + k)
    (hlow : -2 ^ 31 ≤ k) (hhigh : k < 2 ^ 31) : ki &&& 0x80000000 = 0 ↔ 0 ≤ k := by
  have hbit : ki &&& 0x80000000 ≠ 0 ↔ ki.toNat / 2 ^ 31 % 2 = 1 :=
    and_bit_ne_zero_iff ki (d := 31) (by decide)
  rw [← not_iff_not, ← Ne, hbit]
  omega

/-- The scale is in the range of normal numbers, at least after its exponent has been changed. -/
def Reach (excess : ℤ) (abstop : Word32) (k : ℤ) : Prop :=
  if abstop = 0 then
    -2 ^ 31 ≤ k ∧ k < 2 ^ 31 ∧
      if 0 ≤ k then -1022 ≤ k / 128 - excess ∧ k / 128 - excess ≤ 1023 else -2044 ≤ k / 128
  else -1022 ≤ k / 128 ∧ k / 128 ≤ 1023

theorem finish_of {excess : Nat} {abstop : Word32} {c k : ℤ} {ki : Word}
    (hexcess : -(BitVec.ofNat 64 excess <<< 52) = raise (-excess) false)
    (hki : (ki.toNat : ℤ) = c * 2 ^ 32 + k) (hreach : Reach excess abstop k) (negative : Bool) :
    ∃ t s f, finish excess abstop ki (bias negative) = some (.scaled t s f) ∧
      Approximates k negative t s f := by
  obtain ⟨t, h, hscale, hoctave, haccurate⟩ := expScale_spec hki negative
  have hfinish : finish excess abstop ki (bias negative)
      = if abstop = 0 then some (specialcase excess t (h + raise (k / 128) negative) ki)
        else some (.scaled t (h + raise (k / 128) negative) 0) := by
    rw [finish, hscale]
    rfl
  rw [hfinish]
  rw [Reach] at hreach
  by_cases hspecial : abstop = 0
  · rw [if_pos hspecial] at hreach ⊢
    obtain ⟨hlow, hhigh, hreach⟩ := hreach
    by_cases hk : 0 ≤ k
    · rw [if_pos hk] at hreach
      have hdown : h + raise (k / 128) negative - (BitVec.ofNat 64 excess <<< 52)
          = h + raise (k / 128 - excess) negative := by
        rw [sub_eq_add_neg, hexcess, add_assoc, raise_add, ← sub_eq_add_neg]
      refine ⟨t, h + raise (k / 128 - excess) negative, excess, ?_,
        approximates_of hoctave haccurate hreach.1 hreach.2 negative⟩
      rw [specialcase, if_pos ((bit_eq_zero_iff hki hlow hhigh).mpr hk), hdown]
    · rw [if_neg hk] at hreach
      have hup : h + raise (k / 128) negative + (1022#64 <<< 52)
          = h + raise (k / 128 - -1022) negative := by
        have hraise : (1022#64 <<< 52) = raise 1022 false := by decide
        rw [hraise, add_assoc, raise_add, sub_neg_eq_add]
      refine ⟨t, h + raise (k / 128 - -1022) negative, -1022, ?_,
        approximates_of hoctave haccurate (by omega) (by omega) negative⟩
      rw [specialcase, if_neg (fun h => hk ((bit_eq_zero_iff hki hlow hhigh).mp h)), hup]
  · rw [if_neg hspecial] at hreach ⊢
    have hnormal : Approximates k negative t (h + raise (k / 128 - 0) negative) 0 :=
      approximates_of hoctave haccurate (by omega) (by omega) negative
    rw [sub_zero] at hnormal
    exact ⟨t, h + raise (k / 128) negative, 0, rfl, hnormal⟩

end LdbToolchain.Math
