import LdbToolchain.Math.ExpCases

/-!
# `exp2f` and the exponential of `powf`

The same in single precision. The computation is in `double`, so that one number in the table is enough
for the power: the scale is the power of two rounded to nearest.
-/

namespace LdbToolchain.Math

open Binary

/-! ## The code -/

/-- `ki`, from the sum with `SHIFT`. -/
def exp2fKi (xd : ℚ) : Word := shiftedSum 0x42e8000000000000 xd

/-- `t` -/
def exp2fScale (ki : Word) (signBias : Word32) : Option Word := do
  let t ← exp2fTab[(ki % 32).toNat]?
  let ski := ki + signBias.setWidth 64
  return t + (ski <<< (52 - 5))

/-- Where an exponential returns. -/
inductive Exp2fCase where
  /-- `return 0.0f` -/
  | zero
  /-- `return x + x` -/
  | sum
  /-- `__math_oflowf(sign_bias)` -/
  | oflow
  /-- `__math_uflowf(sign_bias)` -/
  | uflow
  /-- The polynomial times `s`. -/
  | scaled (s : Word)

/-- The comparisons of numbers are on their values. -/
def exp2f (ix : Word32) : Option Exp2fCase :=
  let abstop := (ix >>> 20) &&& 0x7ff
  let rest := (exp2fScale (exp2fKi (single.value ix.toNat)) 0).map Exp2fCase.scaled
  if abstop ≥ 0x430 then
    -- |x| >= 128 or x is nan.
    if ix = 0xff800000 then some .zero
    else if abstop ≥ 0x7f8 then some .sum
    else if single.value ix.toNat > 0 then some .oflow
    else if single.value ix.toNat ≤ -150 then some .uflow
    else rest
  else rest

/-- The end of `powf`, where `ylogx` is finite. -/
def Powf.expOf (ylogx : Word) (signBias : Word32) : Option Exp2fCase :=
  let rest := (exp2fScale (exp2fKi (double.value ylogx.toNat)) signBias).map Exp2fCase.scaled
  if ylogx >>> 47 &&& 0xffff#64 ≥ 0x405f800000000000#64 >>> 47 then
    -- |y*log(x)| >= 126.
    if double.value ylogx.toNat > double.value 0x405fffffffd1d571 then some .oflow
    else if double.value ylogx.toNat ≤ -150 then some .uflow
    else rest
  else rest

/-! ## What the cases are for -/

/-- A number rounded to nearest in 53 bits: between `2 ^ e` and its double, half a unit in the last
place is `2 ^ (e - 53)`. -/
structure Rounds (k : ℤ) (negative : Bool) (s : Word) : Prop where
  ordinary : Ordinary double s.toNat
  normal : 2 ^ 52 ≤ double.magnitude s.toNat
  near : |(sign negative : ℝ) * 2 ^ ((k : ℝ) / 32) - double.value s.toNat| ≤ 2 ^ (k / 32 - 53)

/-- The constants: the format of the argument, and the numbers whose power is too large. -/
structure Exp2fFormat where
  F : Format
  tooLarge : Set ℚ

def Exp2fCase.Fits (P : Exp2fFormat) (negative : Bool) (nx : Nat) : Exp2fCase → Prop
  | .zero => P.F.IsInf nx ∧ P.F.negative nx = true
  | .sum => P.F.IsNaN nx ∨ P.F.IsInf nx ∧ P.F.negative nx = false
  | .oflow => P.F.IsFinite nx ∧ P.F.value nx ∈ P.tooLarge
  | .uflow => P.F.IsFinite nx ∧ P.F.value nx ≤ -150
  | .scaled s => P.F.IsFinite nx ∧ -150 < P.F.value nx ∧ P.F.value nx ∉ P.tooLarge ∧
      ∃ k : ℤ, |P.F.value nx - k / 32| ≤ 1 / 64 ∧ Rounds k negative s

/-! ## The scale -/

theorem rounds_of {h : Word} {k : ℤ} (hoctave : InOctave h)
    (hrounded : |(double.value h.toNat : ℝ) - 2 ^ (((k % 32).toNat : ℝ) / 32)| ≤ 1 / 2 ^ 53)
    (hlow : -1022 ≤ k / 32) (hhigh : k / 32 ≤ 1023) (negative : Bool) :
    Rounds k negative (h + raise (k / 32) negative) := by
  obtain ⟨hvalue, hordinary, hnormal⟩ := value_raise hoctave hlow hhigh negative
  refine ⟨hordinary, hnormal, ?_⟩
  have hsplit : (2 : ℝ) ^ ((k : ℝ) / 32) = 2 ^ (k / 32) * 2 ^ (((k % 32).toNat : ℝ) / 32) :=
    two_rpow_split (N := 32) (by decide) k
  have hpow : (0 : ℝ) < 2 ^ (k / 32) := by positivity
  have hdiff : (sign negative : ℝ) * 2 ^ ((k : ℝ) / 32)
      - double.value (h + raise (k / 32) negative).toNat
      = sign negative * 2 ^ (k / 32) * (2 ^ (((k % 32).toNat : ℝ) / 32) - double.value h.toNat) := by
    rw [hsplit, hvalue]
    push_cast
    ring
  rw [hdiff, abs_mul, abs_mul, abs_sign, one_mul, abs_of_pos hpow, abs_sub_comm,
    zpow_sub₀ two_ne_zero, div_eq_mul_one_div (2 ^ (k / 32) : ℝ)]
  exact mul_le_mul_of_nonneg_left hrounded hpow.le

/-- The argument `sign_bias`. -/
def Powf.bias (negative : Bool) : Word32 := if negative then SIGN_BIAS else 0

theorem exp2fScale_spec {c k : ℤ} {ki : Word} (hki : (ki.toNat : ℤ) = c * 2 ^ 32 + k)
    (hlow : -1022 ≤ k / 32) (hhigh : k / 32 ≤ 1023) (negative : Bool) :
    ∃ s, exp2fScale ki (Powf.bias negative) = some s ∧ Rounds k negative s := by
  have hbias : ((Powf.bias negative).setWidth 64).toNat = if negative then 2048 * 32 else 0 := by
    cases negative with
    | false => decide
    | true => decide
  have hmod : (ki % 32).toNat = (k % 32).toNat := by
    rw [BitVec.toNat_umod]
    show _ % 32 = _
    omega
  obtain ⟨h, hentry, hoctave, hrounded⟩ := exists_exp2fTab (j := (k % 32).toNat) (by omega)
  have htop := shiftLeft_eq_raise (.inl ⟨rfl, rfl⟩) hki hbias
  refine ⟨entry 5 (k % 32).toNat h + raise (k / 32) negative, ?_,
    rounds_of hoctave hrounded hlow hhigh negative⟩
  rw [exp2fScale, hmod, hentry]
  show some (h + ((ki + _) <<< (52 - 5))) = _
  rw [htop, ← add_assoc]
  rfl

/-- The `k` of `exp2f`. -/
theorem exists_exp2fKi {x : ℚ} (hlow : -150 < x) (hhigh : x < 128) :
    ∃ k : ℤ, ((exp2fKi x).toNat : ℤ) = ((1070 : Nat) * 2 ^ 20 + 2 ^ 19) * 2 ^ 32 + k ∧
      |x - k / 32| ≤ 1 / 64 := by
  have hunit : (2 ^ ((1070 : Nat) - 1075 : ℤ) : ℚ) = 1 / 32 := by norm_num
  have hx : |x| < 2 ^ 50 * 2 ^ ((1070 : Nat) - 1075 : ℤ) := by
    rw [hunit, abs_lt]
    constructor
    · linarith
    · linarith
  have hshift : double.value 0x42e8000000000000 = 3 * 2 ^ 51 * 2 ^ ((1070 : Nat) - 1075 : ℤ) := by
    rw [double_value_eq (by decide) (by decide)]
    norm_num
  obtain ⟨k, hki, hk⟩ := exists_shiftedSum 0x42e8000000000000 (by decide) (by decide) hshift hx
  refine ⟨k, hki, ?_⟩
  rw [hunit, mul_one_div] at hk
  exact hk.trans_eq (by norm_num)

/-- The end of both functions. -/
theorem scaled_fits {P : Exp2fFormat} {nx : Nat} (negative : Bool) (hfinite : P.F.IsFinite nx)
    (hlow : -150 < P.F.value nx) (hhigh : P.F.value nx < 128) (hnot : P.F.value nx ∉ P.tooLarge) :
    ∃ c, (exp2fScale (exp2fKi (P.F.value nx)) (Powf.bias negative)).map Exp2fCase.scaled = some c ∧
      c.Fits P negative nx := by
  obtain ⟨k, hki, hnear⟩ := exists_exp2fKi hlow hhigh
  obtain ⟨hleft, hright⟩ := abs_le.mp hnear
  have hup : k < 4097 := by
    have hlt : (k : ℚ) < 4097 := by linarith
    exact_mod_cast hlt
  have hdown : -4801 < k := by
    have hlt : (-4801 : ℚ) < k := by linarith
    exact_mod_cast hlt
  obtain ⟨s, hscale, hrounds⟩ := exp2fScale_spec hki (by omega) (by omega) negative
  exact ⟨.scaled s, by rw [hscale]; rfl, hfinite, hlow, hnot, k, hnear, hrounds⟩

/-! ## `exp2f` -/

def exp2fFormat : Exp2fFormat where
  F := single
  tooLarge := Set.Ici 128

theorem toNat_abstopf (x : Word32) :
    (x >>> 20 &&& 0x7ff).toNat = single.magnitude x.toNat / 2 ^ 20 := by
  have hmask : (x >>> 20 &&& 0x7ff).toNat = x.toNat / 2 ^ 20 % 2 ^ 11 :=
    toNat_shiftRight_and_mask x 20 (e := 11) (by decide)
  rw [hmask]
  show _ = x.toNat % 2 ^ 31 / 2 ^ 20
  omega

theorem large32_eq : (128 : ℚ) = single.size 0x43000000 := by
  norm_num [single, Format.size, Format.ray, Format.bias]

theorem large32_iff (x : Word32) : x >>> 20 &&& 0x7ff ≥ 0x430 ↔ 128 ≤ |single.value x.toNat| := by
  rw [large32_eq, Format.abs_value, Format.size_strictMono.le_iff_le, ge_iff_le, BitVec.le_def,
    toNat_abstopf]
  show 1072 ≤ _ ↔ _
  omega

theorem notFinite32_iff (x : Word32) : x >>> 20 &&& 0x7ff ≥ 0x7f8 ↔ ¬ single.IsFinite x.toNat := by
  rw [ge_iff_le, BitVec.le_def, toNat_abstopf, Format.IsFinite, not_lt]
  show 2040 ≤ _ ↔ 255 * 2 ^ 23 ≤ single.magnitude x.toNat
  omega

theorem negInfinity32_iff (x : Word32) :
    x = 0xff800000 ↔ single.IsInf x.toNat ∧ single.negative x.toNat = true := by
  rw [← BitVec.toNat_inj, Format.IsInf, Format.negative, decide_eq_true_iff]
  show _ = 255 * 2 ^ 23 + 2 ^ 31 ↔ x.toNat % 2 ^ 31 = 255 * 2 ^ 23 ∧ 2 ^ 31 ≤ x.toNat
  have hlt := x.isLt
  omega

theorem isFinite32_of_abs_value {n : Nat} (h : |single.value n| < 128) : single.IsFinite n := by
  rw [large32_eq, Format.abs_value, Format.size_strictMono.lt_iff_lt] at h
  exact h.trans (by decide)

theorem exp2f_fits (x : Word32) : ∃ c, exp2f x = some c ∧ c.Fits exp2fFormat false x.toNat := by
  rw [exp2f]
  by_cases hlarge : x >>> 20 &&& 0x7ff ≥ 0x430
  · rw [if_pos hlarge]
    rw [large32_iff] at hlarge
    by_cases hinf : x = 0xff800000
    · rw [if_pos hinf]
      exact ⟨_, rfl, (negInfinity32_iff x).mp hinf⟩
    rw [if_neg hinf]
    rw [negInfinity32_iff, not_and, Bool.not_eq_true] at hinf
    by_cases hnot : x >>> 20 &&& 0x7ff ≥ 0x7f8
    · rw [if_pos hnot]
      rw [notFinite32_iff] at hnot
      refine ⟨_, rfl, ?_⟩
      rcases lt_or_eq_of_le (not_lt.mp hnot) with hlt | heq
      · exact .inl hlt
      · exact .inr ⟨heq.symm, hinf heq.symm⟩
    rw [if_neg hnot]
    rw [notFinite32_iff, not_not] at hnot
    by_cases hpos : single.value x.toNat > 0
    · rw [if_pos hpos]
      rw [abs_of_pos hpos] at hlarge
      exact ⟨_, rfl, hnot, hlarge⟩
    rw [if_neg hpos]
    by_cases hunder : single.value x.toNat ≤ -150
    · rw [if_pos hunder]
      exact ⟨_, rfl, hnot, hunder⟩
    · rw [if_neg hunder]
      have hlt : single.value x.toNat < 128 := lt_of_le_of_lt (not_lt.mp hpos) (by norm_num)
      exact scaled_fits (P := exp2fFormat) false hnot (not_le.mp hunder) hlt (not_le.mpr hlt)
  · rw [if_neg hlarge]
    rw [large32_iff, not_le] at hlarge
    obtain ⟨hlow, hhigh⟩ := abs_lt.mp hlarge
    exact scaled_fits (P := exp2fFormat) false (isFinite32_of_abs_value hlarge) (lt_trans (by norm_num) hlow) hhigh
      (not_le.mpr hhigh)

/-! ## `powf` -/

namespace Powf

/-- The argument is `y * log2(x)` in `double`. -/
def expFormat : Exp2fFormat where
  F := double
  tooLarge := Set.Ioi (double.value 0x405fffffffd1d571)

theorem large_iff (x : Word) :
    x >>> 47 &&& 0xffff#64 ≥ 0x405f800000000000#64 >>> 47 ↔ 126 ≤ |double.value x.toNat| := by
  have hsize : (126 : ℚ) = double.size 0x405f800000000000 := by
    norm_num [double, Format.size, Format.ray, Format.bias]
  have hmask : (x >>> 47 &&& 0xffff#64).toNat = x.toNat / 2 ^ 47 % 2 ^ 16 :=
    toNat_shiftRight_and_mask x 47 (e := 16) (by decide)
  rw [hsize, Format.abs_value, Format.size_strictMono.le_iff_le, ge_iff_le, BitVec.le_def, hmask]
  show 0x405f800000000000 / 2 ^ 47 ≤ _ ↔ _ ≤ x.toNat % 2 ^ 63
  omega

theorem expOf_fits (x : Word) (hfinite : double.IsFinite x.toNat) (negative : Bool) :
    ∃ c, expOf x (bias negative) = some c ∧ c.Fits expFormat negative x.toNat := by
  have htop : double.value 0x405fffffffd1d571 < 128 := by
    rw [double_value_eq (by decide) (by decide)]
    norm_num
  have hbottom : 126 < double.value 0x405fffffffd1d571 := by
    rw [double_value_eq (by decide) (by decide)]
    norm_num
  rw [expOf]
  by_cases hlarge : x >>> 47 &&& 0xffff#64 ≥ 0x405f800000000000#64 >>> 47
  · rw [if_pos hlarge]
    by_cases hover : double.value x.toNat > double.value 0x405fffffffd1d571
    · rw [if_pos hover]
      exact ⟨_, rfl, hfinite, hover⟩
    rw [if_neg hover]
    by_cases hunder : double.value x.toNat ≤ -150
    · rw [if_pos hunder]
      exact ⟨_, rfl, hfinite, hunder⟩
    · rw [if_neg hunder]
      exact scaled_fits (P := expFormat) negative hfinite (not_le.mp hunder)
        (lt_of_le_of_lt (not_lt.mp hover) htop) hover
  · rw [if_neg hlarge]
    rw [large_iff, not_le] at hlarge
    obtain ⟨hlow, hhigh⟩ := abs_lt.mp hlarge
    exact scaled_fits (P := expFormat) negative hfinite (lt_trans (by norm_num) hlow) (hhigh.trans (by norm_num))
      (not_lt.mpr (hhigh.trans hbottom).le)

end Powf

/-- **The scale of the single exponentials.** The same for `exp2f` and for the end of `powf`: where the
result is neither special nor out of range, the scale is the signed power of the nearest `k / 32`,
rounded to nearest. -/
theorem single_exponentials_fit :
    (∀ x, ∃ c, exp2f x = some c ∧ c.Fits exp2fFormat false x.toNat) ∧
      ∀ x negative, double.IsFinite x.toNat →
        ∃ c, Powf.expOf x (Powf.bias negative) = some c ∧ c.Fits Powf.expFormat negative x.toNat :=
  ⟨exp2f_fits, fun x negative hfinite => Powf.expOf_fits x hfinite negative⟩

theorem single_exponentials_fit_one :
    ∃ c, Powf.expOf 0x3ff0000000000000 (Powf.bias true) = some c ∧
      c.Fits Powf.expFormat true 0x3ff0000000000000 :=
  single_exponentials_fit.2 0x3ff0000000000000 true (by decide)

end LdbToolchain.Math
