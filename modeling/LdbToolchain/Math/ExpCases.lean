import LdbToolchain.Math.Exp

/-!
# The cases of the exponentials

Each result of `exp`, `exp2` and of the exponential of `pow` stands for a range of numbers. For those
in the middle the scale and the tail are the power of one of the multiples of `step` next to the
number: the nearest one, but for the rounding of the product that `exp` finds it with.
-/

namespace LdbToolchain.Math

open Binary

/-! ## What the cases are for -/

/-- The constants of an exponential: what one step of `k` is worth, and where a result is taken for
0. -/
structure ExpFormat where
  step : ℝ
  bottom : ℚ

/-- `k` steps are close to `v`. -/
def Nearby (step : ℝ) (v : ℚ) (k : ℤ) : Prop := |(v : ℝ) - k * step| ≤ (1 / 2 + 1 / 2 ^ 10) * step

def ExpCase.Fits (P : ExpFormat) (negative : Bool) (nx : Nat) : ExpCase → Prop
  | .onePlus negate => negate = negative ∧ (double.IsNaN nx ∨
      double.IsInf nx ∧ double.negative nx = false ∨ |double.value nx| < 1 / 2 ^ 54)
  | .zero => double.IsInf nx ∧ double.negative nx = true
  | .oflow => double.IsFinite nx ∧ 1024 ≤ double.value nx
  | .uflow => double.IsFinite nx ∧ double.value nx ≤ P.bottom
  | .scaled tail scale factor => double.IsFinite nx ∧ 1 / 2 ^ 54 ≤ |double.value nx| ∧
      P.bottom < double.value nx ∧ double.value nx < 1024 ∧
      ∃ k : ℤ, Nearby P.step (double.value nx) k ∧ Approximates k negative tail scale factor

/-! ## The sum with `Shift` -/

/-- The low bits of a number `k` units above `3 * 2 ^ 51` of them. -/
theorem toNat_of_shifted {e n : Nat} {k : ℤ}
    (h : double.value n = (3 * 2 ^ 51 + k : ℤ) * 2 ^ (e - 1075 : ℤ)) (he : 1 ≤ e)
    (hlow : -2 ^ 51 ≤ k) (hhigh : k < 2 ^ 51) : (n : ℤ) = (e * 2 ^ 20 + 2 ^ 19) * 2 ^ 32 + k := by
  obtain ⟨m, hm⟩ : ∃ m : Nat, (m : ℤ) = e * 2 ^ 52 + (2 ^ 51 + k) :=
    ⟨(e * 2 ^ 52 + (2 ^ 51 + k)).toNat, Int.toNat_of_nonneg (by omega)⟩
  have hle : 2 ^ double.fracBits ≤ m := by
    show 2 ^ 52 ≤ m
    omega
  have hray : double.ray (e * 2 ^ 52 + (2 ^ 51 + k))
      = (2 ^ 52 + (2 ^ 51 + k) : ℤ) * 2 ^ (e - 1023 - 52 : ℤ) :=
    Format.ray_eq (F := double) (by omega) (show 2 ^ 51 + k < 2 ^ 52 by omega)
  have hsize : double.size m = double.value n := by
    rw [Format.size_of_le hle, hm, hray, h, sub_sub]
    congr 2
    ring
  rw [Format.eq_of_value_eq_size (by omega) hsize.symm, hm]
  ring

/-- The rounded sum is on the grid of its unit. -/
theorem exists_round_sum {e : Nat} {x shift : ℚ} (he : 1 ≤ e) (hlt : e < 2046)
    (hshift : shift = 3 * 2 ^ 51 * 2 ^ (e - 1075 : ℤ)) (hx : |x| < 2 ^ 50 * 2 ^ (e - 1075 : ℤ)) :
    ∃ k : ℤ, double.nearest (x + shift) = (3 * 2 ^ 51 + k : ℤ) * 2 ^ (e - 1075 : ℤ) ∧
      |x - k * 2 ^ (e - 1075 : ℤ)| ≤ 2 ^ (e - 1075 : ℤ) / 2 := by
  have hpos : (0 : ℚ) < 2 ^ (e - 1075 : ℤ) := by positivity
  have hscale : ∀ n : Nat, (2 : ℚ) ^ (e - 1075 + n : ℤ) = 2 ^ n * 2 ^ (e - 1075 : ℤ) := by
    intro n
    rw [zpow_add₀ two_ne_zero, zpow_natCast, mul_comm]
  obtain ⟨hlow, hhigh⟩ := abs_lt.mp hx
  have hnonneg : 0 ≤ x + shift := by
    rw [hshift]
    linarith
  have hle : 2 ^ (e - 1075 + (52 : Nat) : ℤ) ≤ |x + shift| := by
    rw [abs_of_nonneg hnonneg, hscale, hshift]
    linarith
  have hlt' : |x + shift| < 2 ^ (e - 1075 + (52 : Nat) + 1 : ℤ) := by
    rw [abs_of_nonneg hnonneg, add_assoc (e - 1075 : ℤ), ← Nat.cast_succ, hscale, hshift]
    linarith
  have hbound : |x + shift| ≤ 2 ^ ((double.bias : Nat) : ℤ) :=
    hlt'.le.trans ((zpow_le_zpow_iff_right₀ one_lt_two).mpr (show _ ≤ ((1023 : Nat) : ℤ) by omega))
  have hmin : (1 - double.bias : ℤ) ≤ e - 1075 + (52 : Nat) := by
    show (1 - (1023 : Nat) : ℤ) ≤ _
    omega
  have hunit : (e - 1075 + (52 : Nat) - double.fracBits : ℤ) = e - 1075 := by
    show (e - 1075 + (52 : Nat) - (52 : Nat) : ℤ) = _
    ring
  have hplace : double.place (x + shift) = e - 1075 := (Format.place_eq hle hlt' hmin).trans hunit
  obtain ⟨z, hz⟩ := Format.onGrid_nearest (by decide) (by decide) hbound
  have herror := Format.abs_nearest_sub_le_place (by decide) (by decide) hbound
  rw [hplace] at hz herror
  refine ⟨z - 3 * 2 ^ 51, by rw [hz, add_sub_cancel], ?_⟩
  rw [hz, hshift, ← abs_neg] at herror
  convert herror using 2
  push_cast
  ring

/-- The sum has the nearest multiple of its unit in its low bits. -/
theorem exists_shiftedSum (shift : Word) {e : Nat} {x : ℚ} (he : 1 ≤ e) (hlt : e < 2046)
    (hshift : double.value shift.toNat = 3 * 2 ^ 51 * 2 ^ (e - 1075 : ℤ))
    (hx : |x| < 2 ^ 50 * 2 ^ (e - 1075 : ℤ)) :
    ∃ k : ℤ, ((shiftedSum shift x).toNat : ℤ) = (e * 2 ^ 20 + 2 ^ 19) * 2 ^ 32 + k ∧
      |x - k * 2 ^ (e - 1075 : ℤ)| ≤ 2 ^ (e - 1075 : ℤ) / 2 := by
  obtain ⟨k, hvalue, hk⟩ := exists_round_sum he hlt hshift hx
  have hpos : (0 : ℚ) < 2 ^ (e - 1075 : ℤ) := by positivity
  have hrange : |(k : ℚ)| < 2 ^ 50 + 1 := by
    refine lt_of_mul_lt_mul_right ?_ hpos.le
    have htriangle := abs_sub_abs_le_abs_sub (k * 2 ^ (e - 1075 : ℤ) : ℚ) x
    rw [abs_sub_comm _ x, abs_mul, abs_of_pos hpos] at htriangle
    linarith
  obtain ⟨hlow, hhigh⟩ := abs_lt.mp hrange
  have hlow' : -(2 ^ 50 + 1) < k := by exact_mod_cast hlow
  have hhigh' : k < 2 ^ 50 + 1 := by exact_mod_cast hhigh
  have hnat := toNat_of_shifted hvalue he (by omega) (by omega)
  refine ⟨k, ?_, hk⟩
  rw [← hnat, shiftedSum, BitVec.toNat_ofNat, Nat.mod_eq_of_lt (by omega)]

/-- How far the multiples of `step` near a number can be. -/
theorem index_le {rate : Nat} {step : ℝ} {v : ℚ} {k : ℤ} (top : Nat) (hrate : 1 ≤ rate * step)
    (hstep : 0 < step) (hnear : Nearby step v k) (hv : v < top) : k ≤ rate * top := by
  by_contra hgt
  have hk : (rate * top + 1 : ℝ) ≤ k := by exact_mod_cast not_le.mp hgt
  have hv' : (v : ℝ) < top := by exact_mod_cast hv
  have hbelow : (k : ℝ) * step ≤ v + step := by
    rw [Nearby] at hnear
    linarith [(abs_le.mp hnear).1]
  have hprod : (rate * top + 1) * step ≤ k * step := mul_le_mul_of_nonneg_right hk hstep.le
  have htop : (top : ℝ) ≤ rate * step * top := le_mul_of_one_le_left (Nat.cast_nonneg top) hrate
  have hexpand : ((rate : ℝ) * top + 1) * step = rate * step * top + step := by ring
  linarith

theorem le_index {rate : Nat} {step : ℝ} {v : ℚ} {k : ℤ} (bottom : Nat) (hrate : 1 ≤ rate * step)
    (hstep : 0 < step) (hnear : Nearby step v k) (hv : -(bottom : ℚ) < v) :
    -(rate * bottom : ℤ) ≤ k := by
  have hflip : Nearby step (-v) (-k) := by
    rw [Nearby, ← abs_neg] at hnear
    rw [Nearby]
    convert hnear using 2
    push_cast
    ring
  have hle := index_le bottom hrate hstep hflip (by linarith)
  omega

/-- The end of the code for a number that gets there. -/
theorem finish_fits {P : ExpFormat} {excess : Nat} {abstop : Word32} {ki : Word} {nx : Nat} {c k : ℤ}
    (negative : Bool) (hexcess : -(BitVec.ofNat 64 excess <<< 52) = raise (-excess) false)
    (hfinite : double.IsFinite nx) (hsmall : 1 / 2 ^ 54 ≤ |double.value nx|)
    (hbottom : P.bottom < double.value nx) (htop : double.value nx < 1024)
    (hki : (ki.toNat : ℤ) = c * 2 ^ 32 + k) (hnear : Nearby P.step (double.value nx) k)
    (hreach : Reach excess abstop k) :
    ∃ c, finish excess abstop ki (bias negative) = some c ∧ c.Fits P negative nx := by
  obtain ⟨t, s, f, hfinish, happrox⟩ := finish_of hexcess hki hreach negative
  exact ⟨.scaled t s f, hfinish, hfinite, hsmall, hbottom, htop, k, hnear, happrox⟩

/-! ## The tests -/

section Tests

variable (x : Word)

theorem tiny_eq : (1 / 2 ^ 54 : ℚ) = 2 ^ ((0x3c9 : Nat) - double.bias : ℤ) := by
  norm_num [double, Format.bias]

theorem tiny_iff : (Pow.top12 x &&& 0x7ff) - 0x3c9 ≥ 0x80000000 ↔ |double.value x.toNat| < 1 / 2 ^ 54 := by
  rw [← not_le, tiny_eq, Format.two_pow_le_abs_value (by decide), ge_iff_le, BitVec.le_def,
    BitVec.toNat_sub, Pow.toNat_topy]
  have hlt : double.magnitude x.toNat < 2 ^ 63 := Format.magnitude_lt
  show 2 ^ 31 ≤ (2 ^ 32 - 969 + _) % 2 ^ 32 ↔ ¬ 969 ≤ double.magnitude x.toNat / 2 ^ 52
  omega

theorem usual_iff : (Pow.top12 x &&& 0x7ff) - 0x3c9 ≥ 0x408 - 0x3c9 ↔
    ¬ (1 / 2 ^ 54 ≤ |double.value x.toNat| ∧ |double.value x.toNat| < 512) := by
  have hlarge : (512 : ℚ) = 2 ^ ((0x408 : Nat) - double.bias : ℤ) := by norm_num [double, Format.bias]
  rw [ge_iff_le, ← BitVec.not_lt, sub_lt_sub_iff (by decide), BitVec.le_def, BitVec.lt_def,
    Pow.toNat_topy, ← not_le (a := (512 : ℚ)), tiny_eq, hlarge, Format.two_pow_le_abs_value (by decide),
    Format.two_pow_le_abs_value (by decide)]
  show ¬ (969 ≤ double.magnitude x.toNat / 2 ^ 52 ∧ double.magnitude x.toNat / 2 ^ 52 < 1032) ↔
    ¬ (969 ≤ double.magnitude x.toNat / 2 ^ 52 ∧ ¬ 1032 ≤ double.magnitude x.toNat / 2 ^ 52)
  omega

theorem large_eq : (1024 : ℚ) = 2 ^ ((0x409 : Nat) - double.bias : ℤ) := by
  norm_num [double, Format.bias]

theorem large_iff : Pow.top12 x &&& 0x7ff ≥ 0x409 ↔ 1024 ≤ |double.value x.toNat| := by
  rw [large_eq, Format.two_pow_le_abs_value (by decide), ge_iff_le, BitVec.le_def, Pow.toNat_topy]
  rfl

theorem notFinite_iff : Pow.top12 x &&& 0x7ff ≥ 0x7ff ↔ ¬ double.IsFinite x.toNat := by
  rw [ge_iff_le, BitVec.le_def, Pow.toNat_topy, Format.IsFinite, not_lt]
  show 2047 ≤ _ ↔ 2047 * 2 ^ 52 ≤ double.magnitude x.toNat
  omega

theorem negInfinity_iff :
    x = 0xfff0000000000000 ↔ double.IsInf x.toNat ∧ double.negative x.toNat = true := by
  rw [← BitVec.toNat_inj, Format.IsInf, Format.negative, decide_eq_true_iff]
  show _ = 2047 * 2 ^ 52 + 2 ^ 63 ↔ x.toNat % 2 ^ 63 = 2047 * 2 ^ 52 ∧ 2 ^ 63 ≤ x.toNat
  have hlt := x.isLt
  omega

theorem exponent_ne_zero (h : 1 / 2 ^ 54 ≤ |double.value x.toNat|) : Pow.top12 x &&& 0x7ff ≠ 0 := by
  intro hzero
  refine not_lt.mpr h ((tiny_iff x).mp ?_)
  rw [hzero]
  decide

/-- Infinities and NaNs other than the negative infinity. -/
theorem onePlus_fits (P : ExpFormat) (hinf : x ≠ 0xfff0000000000000)
    (hnot : ¬ double.IsFinite x.toNat) : (ExpCase.onePlus false).Fits P false x.toNat := by
  refine ⟨rfl, ?_⟩
  rw [Ne, negInfinity_iff, not_and, Bool.not_eq_true] at hinf
  rcases lt_or_eq_of_le (not_lt.mp hnot) with hlt | heq
  · exact .inl hlt
  · exact .inr (.inl ⟨heq.symm, hinf heq.symm⟩)

theorem value_le_of_sign {v : ℚ} (hv : v ≤ |double.value x.toNat|) (hneg : x >>> 63 ≠ 0) :
    double.value x.toNat ≤ -v := by
  rw [Format.value, (Pow.sign_iff x).mp hneg, if_pos rfl, ← Format.abs_value]
  exact neg_le_neg hv

theorem le_value_of_sign {v : ℚ} (hv : v ≤ |double.value x.toNat|) (hneg : ¬ x >>> 63 ≠ 0) :
    v ≤ double.value x.toNat := by
  rw [Pow.sign_iff, Bool.not_eq_true] at hneg
  rw [Format.value, hneg, if_neg Bool.false_ne_true, ← Format.abs_value]
  exact hv

end Tests

theorem isFinite_of_abs_value {n : Nat} (h : |double.value n| < 1024) : double.IsFinite n := by
  rw [← not_le, large_eq, Format.two_pow_le_abs_value (by decide)] at h
  rw [Format.IsFinite]
  show double.magnitude n < 2047 * 2 ^ 52
  have hdiv : ¬ 1033 ≤ double.magnitude n / 2 ^ 52 := h
  omega

/-- The usual range of the scale. -/
theorem reach_usual {excess : Nat} {abstop : Word32} {k : ℤ} (habstop : abstop ≠ 0)
    (hlow : -130816 ≤ k) (hhigh : k < 131072) : Reach excess abstop k := by
  rw [Reach, if_neg habstop]
  omega

/-- The range where the exponent of the scale is changed. -/
theorem reach_special {excess : Nat} {k : ℤ} (hlow : -261632 ≤ k)
    (hhigh : k < 131072 + 128 * excess) (hexcess : excess ≤ 1022) : Reach excess 0 k := by
  rw [Reach, if_pos rfl]
  refine ⟨by omega, by omega, ?_⟩
  split
  · omega
  · omega

/-! ## `exp` and the exponential of `pow` -/

/-- The constants of `exp`, and of the exponential of `pow`. -/
noncomputable def expFormat : ExpFormat where
  step := Real.log 2 / 128
  bottom := -1024

theorem expFormat_rate : 1 ≤ (185 : Nat) * expFormat.step := by
  have hlog := Real.log_two_gt_d9
  rw [expFormat]
  push_cast
  linarith

theorem expFormat_step_pos : 0 < expFormat.step := by
  have hlog := Real.log_two_gt_d9
  rw [expFormat]
  linarith

theorem invLn2N_eq : invLn2N = 6497320848556798 / 2 ^ 45 := by
  rw [invLn2N, double_value_eq (by decide) (by decide)]
  norm_num

/-- `InvLn2N` is what its name says, as far as the digits of `log 2` go here. -/
theorem abs_invLn2N_mul_sub : |1 - (invLn2N : ℝ) * expFormat.step| ≤ 1 / 10 ^ 9 := by
  have hlow := Real.log_two_gt_d9
  have hhigh := Real.log_two_lt_d9
  rw [invLn2N_eq, expFormat, abs_le]
  push_cast
  constructor
  · linarith
  · linarith

/-- The rounded product is close to the exact one. -/
theorem abs_product_sub {v : ℚ} (hv : |v| < 1024) :
    |double.nearest (invLn2N * v) - invLn2N * v| ≤ 1 / 2 ^ 36 ∧
      |invLn2N * v| < 2 ^ 18 := by
  have hprod : |invLn2N * v| < 2 ^ (17 + 1 : ℤ) := by
    rw [abs_mul, invLn2N_eq, abs_of_pos (by norm_num)]
    calc _ < 6497320848556798 / 2 ^ 45 * (1024 : ℚ) := mul_lt_mul_of_pos_left hv (by norm_num)
      _ < 2 ^ (17 + 1 : ℤ) := by norm_num
  have hbound : |invLn2N * v| ≤ 2 ^ (double.bias : ℤ) :=
    hprod.le.trans ((zpow_le_zpow_iff_right₀ one_lt_two).mpr (by decide))
  have hround := Format.abs_nearest_sub_le (by decide) (by decide) hbound hprod (by decide)
  have hulp : (2 ^ (17 - double.fracBits : ℤ) / 2 : ℚ) = 1 / 2 ^ 36 := by norm_num [double]
  exact ⟨hround.trans_eq hulp, hprod⟩

theorem abs_cast_le {a b : ℚ} (h : |a| ≤ b) : |(a : ℝ)| ≤ b := by
  rw [← Rat.cast_abs]
  exact_mod_cast h

/-- The `k` of `exp`. -/
theorem exists_expKi {x : Word} (hx : |double.value x.toNat| < 1024) :
    ∃ k : ℤ, ((expKi x).toNat : ℤ) = ((1075 : Nat) * 2 ^ 20 + 2 ^ 19) * 2 ^ 32 + k ∧
      Nearby expFormat.step (double.value x.toNat) k := by
  obtain ⟨hclose, hprod⟩ := abs_product_sub hx
  have hunit : (2 ^ ((1075 : Nat) - 1075 : ℤ) : ℚ) = 1 := by norm_num
  have hz : |double.nearest (invLn2N * double.value x.toNat)|
      < 2 ^ 50 * 2 ^ ((1075 : Nat) - 1075 : ℤ) := by
    have htriangle := abs_sub_abs_le_abs_sub
      (double.nearest (invLn2N * double.value x.toNat)) (invLn2N * double.value x.toNat)
    rw [hunit]
    linarith
  have hshift : double.value 0x4338000000000000 = 3 * 2 ^ 51 * 2 ^ ((1075 : Nat) - 1075 : ℤ) := by
    rw [double_value_eq (by decide) (by decide)]
    norm_num
  obtain ⟨k, hki, hk⟩ := exists_shiftedSum 0x4338000000000000 (by decide) (by decide) hshift hz
  rw [hunit, mul_one] at hk
  refine ⟨k, hki, ?_⟩
  generalize double.value x.toNat = v at *
  generalize double.nearest (invLn2N * v) = z at *
  have hstep := expFormat_step_pos
  have hrate := expFormat_rate
  have hsplit : (v : ℝ) - k * expFormat.step = v * (1 - invLn2N * expFormat.step)
      + ((invLn2N : ℝ) * v - z) * expFormat.step + ((z : ℝ) - k) * expFormat.step := by ring
  rw [abs_sub_comm] at hclose
  have hv := abs_cast_le hx.le
  have hproduct := abs_cast_le hclose
  have hnearest := abs_cast_le hk
  push_cast at hv hproduct hnearest
  have hconstant : |(v : ℝ) * (1 - invLn2N * expFormat.step)| ≤ 1024 * (1 / 10 ^ 9) := by
    rw [abs_mul]
    exact mul_le_mul hv abs_invLn2N_mul_sub (abs_nonneg _) (by norm_num)
  have hsum := abs_add_three ((v : ℝ) * (1 - invLn2N * expFormat.step))
    (((invLn2N : ℝ) * v - z) * expFormat.step) (((z : ℝ) - k) * expFormat.step)
  rw [abs_mul _ expFormat.step, abs_mul _ expFormat.step, abs_of_pos hstep] at hsum
  have hfirst := mul_le_mul_of_nonneg_right hproduct hstep.le
  have hsecond := mul_le_mul_of_nonneg_right hnearest hstep.le
  rw [Nearby, hsplit]
  push_cast at hrate
  linarith

theorem exp_usual {x : Word} (negative : Bool) (hsmall : 1 / 2 ^ 54 ≤ |double.value x.toNat|)
    (hlarge : |double.value x.toNat| < 512) :
    ∃ c, finish 1009 (Pow.top12 x &&& 0x7ff) (expKi x) (bias negative) = some c ∧
      c.Fits expFormat negative x.toNat := by
  have hlt : |double.value x.toNat| < 1024 := hlarge.trans (by norm_num)
  obtain ⟨hlow, hhigh⟩ := abs_lt.mp hlarge
  obtain ⟨k, hki, hnear⟩ := exists_expKi hlt
  have hup := index_le 512 expFormat_rate expFormat_step_pos hnear hhigh
  have hdown := le_index 512 expFormat_rate expFormat_step_pos hnear hlow
  exact finish_fits negative (by decide) (isFinite_of_abs_value hlt) hsmall (abs_lt.mp hlt).1
    (abs_lt.mp hlt).2 hki hnear (reach_usual (exponent_ne_zero x hsmall) (by omega) (by omega))

theorem exp_special {x : Word} (negative : Bool) (hsmall : 1 / 2 ^ 54 ≤ |double.value x.toNat|)
    (hlarge : |double.value x.toNat| < 1024) :
    ∃ c, finish 1009 0 (expKi x) (bias negative) = some c ∧ c.Fits expFormat negative x.toNat := by
  obtain ⟨hlow, hhigh⟩ := abs_lt.mp hlarge
  obtain ⟨k, hki, hnear⟩ := exists_expKi hlarge
  have hup := index_le 1024 expFormat_rate expFormat_step_pos hnear hhigh
  have hdown := le_index 1024 expFormat_rate expFormat_step_pos hnear hlow
  exact finish_fits negative (by decide) (isFinite_of_abs_value hlarge) hsmall hlow hhigh hki hnear
    (reach_special (by omega) (by omega) (by omega))

theorem exp_fits (x : Word) : ∃ c, exp x = some c ∧ c.Fits expFormat false x.toNat := by
  rw [exp]
  by_cases hunusual : (Pow.top12 x &&& 0x7ff) - 0x3c9 ≥ 0x408 - 0x3c9
  · rw [if_pos hunusual]
    by_cases htiny : (Pow.top12 x &&& 0x7ff) - 0x3c9 ≥ 0x80000000
    · rw [if_pos htiny]
      exact ⟨_, rfl, rfl, .inr (.inr ((tiny_iff x).mp htiny))⟩
    rw [if_neg htiny]
    rw [tiny_iff, not_lt] at htiny
    by_cases hlarge : Pow.top12 x &&& 0x7ff ≥ 0x409
    · rw [if_pos hlarge]
      rw [large_iff] at hlarge
      by_cases hinf : x = 0xfff0000000000000
      · rw [if_pos hinf]
        exact ⟨_, rfl, (negInfinity_iff x).mp hinf⟩
      rw [if_neg hinf]
      by_cases hnot : Pow.top12 x &&& 0x7ff ≥ 0x7ff
      · rw [if_pos hnot]
        exact ⟨_, rfl, onePlus_fits x _ hinf ((notFinite_iff x).mp hnot)⟩
      rw [if_neg hnot]
      rw [notFinite_iff, not_not] at hnot
      by_cases hneg : x >>> 63 ≠ 0
      · rw [if_pos hneg]
        exact ⟨_, rfl, hnot, value_le_of_sign x hlarge hneg⟩
      · rw [if_neg hneg]
        exact ⟨_, rfl, hnot, le_value_of_sign x hlarge hneg⟩
    · rw [if_neg hlarge]
      rw [large_iff, not_le] at hlarge
      exact exp_special false htiny hlarge
  · rw [if_neg hunusual]
    rw [usual_iff, not_not] at hunusual
    exact exp_usual false hunusual.1 hunusual.2

namespace Pow

theorem bias_ne_zero_iff (negative : Bool) : decide (bias negative ≠ 0) = negative := by
  cases negative with
  | false => decide
  | true => decide

theorem expInline_fits (x : Word) (hfinite : double.IsFinite x.toNat) (negative : Bool) :
    ∃ c, expInline x (bias negative) = some c ∧ c.Fits expFormat negative x.toNat := by
  rw [expInline]
  by_cases hunusual : (top12 x &&& 0x7ff) - 0x3c9 ≥ 0x408 - 0x3c9
  · rw [if_pos hunusual]
    by_cases htiny : (top12 x &&& 0x7ff) - 0x3c9 ≥ 0x80000000
    · rw [if_pos htiny, bias_ne_zero_iff]
      exact ⟨_, rfl, rfl, .inr (.inr ((tiny_iff x).mp htiny))⟩
    rw [if_neg htiny]
    rw [tiny_iff, not_lt] at htiny
    by_cases hlarge : top12 x &&& 0x7ff ≥ 0x409
    · rw [if_pos hlarge]
      rw [large_iff] at hlarge
      by_cases hneg : x >>> 63 ≠ 0
      · rw [if_pos hneg]
        exact ⟨_, rfl, hfinite, value_le_of_sign x hlarge hneg⟩
      · rw [if_neg hneg]
        exact ⟨_, rfl, hfinite, le_value_of_sign x hlarge hneg⟩
    · rw [if_neg hlarge]
      rw [large_iff, not_le] at hlarge
      exact exp_special negative htiny hlarge
  · rw [if_neg hunusual]
    rw [usual_iff, not_not] at hunusual
    exact exp_usual negative hunusual.1 hunusual.2

end Pow

/-! ## `exp2` -/

noncomputable def exp2Format : ExpFormat where
  step := 1 / 128
  bottom := -1075

theorem exp2Format_rate : 1 ≤ (128 : Nat) * exp2Format.step := by
  rw [exp2Format]
  norm_num

theorem exp2Format_step_pos : 0 < exp2Format.step := by
  rw [exp2Format]
  norm_num

/-- The `k` of `exp2`. -/
theorem exists_exp2Ki {x : Word} (hlow : -1075 < double.value x.toNat)
    (hhigh : double.value x.toNat < 1024) :
    ∃ k : ℤ, ((exp2Ki x).toNat : ℤ) = ((1068 : Nat) * 2 ^ 20 + 2 ^ 19) * 2 ^ 32 + k ∧
      Nearby exp2Format.step (double.value x.toNat) k := by
  have hunit : (2 ^ ((1068 : Nat) - 1075 : ℤ) : ℚ) = 1 / 128 := by norm_num
  have hx : |double.value x.toNat| < 2 ^ 50 * 2 ^ ((1068 : Nat) - 1075 : ℤ) := by
    rw [hunit, abs_lt]
    constructor
    · linarith
    · linarith
  have hshift : double.value 0x42c8000000000000 = 3 * 2 ^ 51 * 2 ^ ((1068 : Nat) - 1075 : ℤ) := by
    rw [double_value_eq (by decide) (by decide)]
    norm_num
  obtain ⟨k, hki, hk⟩ := exists_shiftedSum 0x42c8000000000000 (by decide) (by decide) hshift hx
  refine ⟨k, hki, ?_⟩
  rw [hunit] at hk
  have hnear := abs_cast_le hk
  push_cast at hnear
  rw [Nearby, exp2Format]
  exact hnear.trans (by norm_num)

theorem exp2_usual {x : Word} (hsmall : 1 / 2 ^ 54 ≤ |double.value x.toNat|)
    (hlarge : |double.value x.toNat| ≤ 928) :
    ∃ c, finish 1 (Pow.top12 x &&& 0x7ff) (exp2Ki x) 0 = some c ∧ c.Fits exp2Format false x.toNat := by
  have hlt : |double.value x.toNat| < (929 : Nat) := lt_of_le_of_lt hlarge (by norm_num)
  have hfinite := isFinite_of_abs_value (hlt.trans (by norm_num))
  obtain ⟨hlow, hhigh⟩ := abs_lt.mp hlt
  have hbottom : -1075 < double.value x.toNat := lt_trans (by norm_num) hlow
  have htop : double.value x.toNat < 1024 := hhigh.trans (by norm_num)
  obtain ⟨k, hki, hnear⟩ := exists_exp2Ki hbottom htop
  have hup := index_le 929 exp2Format_rate exp2Format_step_pos hnear hhigh
  have hdown := le_index 929 exp2Format_rate exp2Format_step_pos hnear hlow
  exact finish_fits false (by decide) hfinite hsmall hbottom htop hki hnear
    (reach_usual (exponent_ne_zero x hsmall) (by omega) (by omega))

theorem exp2_special {x : Word} (hfinite : double.IsFinite x.toNat)
    (hsmall : 1 / 2 ^ 54 ≤ |double.value x.toNat|) (hlow : -1075 < double.value x.toNat)
    (hhigh : double.value x.toNat < 1024) :
    ∃ c, finish 1 0 (exp2Ki x) 0 = some c ∧ c.Fits exp2Format false x.toNat := by
  obtain ⟨k, hki, hnear⟩ := exists_exp2Ki hlow hhigh
  have hup := index_le 1024 exp2Format_rate exp2Format_step_pos hnear hhigh
  have hdown := le_index 1075 exp2Format_rate exp2Format_step_pos hnear hlow
  exact finish_fits false (by decide) hfinite hsmall hlow hhigh hki hnear
    (reach_special (by omega) (by omega) (by omega))

theorem over928_iff (x : Word) : 2 * x > 2 * 0x408d000000000000 ↔ 928 < |double.value x.toNat| := by
  have hsize : (928 : ℚ) = double.size 0x408d000000000000 := by
    norm_num [double, Format.size, Format.ray, Format.bias]
  rw [hsize, Format.abs_value, Format.size_strictMono.lt_iff_lt, gt_iff_lt, BitVec.lt_def,
    BitVec.toNat_mul]
  show 2 * 0x408d000000000000 % 2 ^ 64 < 2 * x.toNat % 2 ^ 64 ↔ 0x408d000000000000 < x.toNat % 2 ^ 63
  omega

theorem under_iff {x : Word} (hneg : x >>> 63 ≠ 0) :
    x ≥ 0xc090cc0000000000 ↔ 1075 ≤ |double.value x.toNat| := by
  have hsize : (1075 : ℚ) = double.size 0x4090cc0000000000 := by
    norm_num [double, Format.size, Format.ray, Format.bias]
  rw [hsize, Format.abs_value, Format.size_strictMono.le_iff_le, ge_iff_le, BitVec.le_def]
  rw [Pow.sign_iff, Format.negative, decide_eq_true_iff] at hneg
  have hle : 2 ^ 63 ≤ x.toNat := hneg
  have hlt := x.isLt
  show 0xc090cc0000000000 ≤ x.toNat ↔ 0x4090cc0000000000 ≤ x.toNat % 2 ^ 63
  omega

/-- The end of `exp2` for numbers that are not too large. -/
theorem exp2_rest {x : Word} (hfinite : double.IsFinite x.toNat)
    (hsmall : 1 / 2 ^ 54 ≤ |double.value x.toNat|) (hlow : -1075 < double.value x.toNat)
    (hhigh : double.value x.toNat < 1024) :
    ∃ c, (if 2 * x > 2 * 0x408d000000000000 then finish 1 0 (exp2Ki x) 0
        else finish 1 (Pow.top12 x &&& 0x7ff) (exp2Ki x) 0) = some c ∧
      c.Fits exp2Format false x.toNat := by
  by_cases hlarge : 2 * x > 2 * 0x408d000000000000
  · rw [if_pos hlarge]
    exact exp2_special hfinite hsmall hlow hhigh
  · rw [if_neg hlarge]
    rw [over928_iff, not_lt] at hlarge
    exact exp2_usual hsmall hlarge

theorem exp2_fits (x : Word) : ∃ c, exp2 x = some c ∧ c.Fits exp2Format false x.toNat := by
  rw [exp2]
  by_cases hunusual : (Pow.top12 x &&& 0x7ff) - 0x3c9 ≥ 0x408 - 0x3c9
  · rw [if_pos hunusual]
    by_cases htiny : (Pow.top12 x &&& 0x7ff) - 0x3c9 ≥ 0x80000000
    · rw [if_pos htiny]
      exact ⟨_, rfl, rfl, .inr (.inr ((tiny_iff x).mp htiny))⟩
    rw [if_neg htiny]
    rw [tiny_iff, not_lt] at htiny
    by_cases hlarge : Pow.top12 x &&& 0x7ff ≥ 0x409
    · rw [if_pos hlarge]
      rw [large_iff] at hlarge
      by_cases hinf : x = 0xfff0000000000000
      · rw [if_pos hinf]
        exact ⟨_, rfl, (negInfinity_iff x).mp hinf⟩
      rw [if_neg hinf]
      by_cases hnot : Pow.top12 x &&& 0x7ff ≥ 0x7ff
      · rw [if_pos hnot]
        exact ⟨_, rfl, onePlus_fits x _ hinf ((notFinite_iff x).mp hnot)⟩
      rw [if_neg hnot]
      rw [notFinite_iff, not_not] at hnot
      by_cases hneg : x >>> 63 = 0
      · rw [if_pos hneg]
        exact ⟨_, rfl, hnot, le_value_of_sign x hlarge (not_not.mpr hneg)⟩
      rw [if_neg hneg]
      have hnonpos := value_le_of_sign x hlarge hneg
      by_cases hunder : x ≥ 0xc090cc0000000000
      · rw [if_pos hunder]
        exact ⟨_, rfl, hnot, value_le_of_sign x ((under_iff hneg).mp hunder) hneg⟩
      · rw [if_neg hunder]
        rw [under_iff hneg, not_le] at hunder
        exact exp2_rest hnot htiny (abs_lt.mp hunder).1 (lt_of_le_of_lt hnonpos (by norm_num))
    · rw [if_neg hlarge]
      rw [large_iff, not_le] at hlarge
      obtain ⟨hlow, hhigh⟩ := abs_lt.mp hlarge
      exact exp2_rest (isFinite_of_abs_value hlarge) htiny (lt_trans (by norm_num) hlow) hhigh
  · rw [if_neg hunusual]
    rw [usual_iff, not_not] at hunusual
    exact exp2_usual hunusual.1 (hunusual.2.le.trans (by norm_num))

/-- **What the exponentials are computed from.** Every pattern gets the result its kind asks for. For
the others the scale is a normal number, and with the tail and the factor it is `2 ^ (k / N)`, signed
as asked, for a multiple `k` of the step next to the number. -/
theorem exponentials_fit :
    (∀ x, ∃ c, exp x = some c ∧ c.Fits expFormat false x.toNat) ∧
      (∀ x, ∃ c, exp2 x = some c ∧ c.Fits exp2Format false x.toNat) ∧
      ∀ x negative, double.IsFinite x.toNat →
        ∃ c, Pow.expInline x (bias negative) = some c ∧ c.Fits expFormat negative x.toNat :=
  ⟨exp_fits, exp2_fits, fun x negative hfinite => Pow.expInline_fits x hfinite negative⟩

theorem exponentials_fit_one :
    ∃ c, Pow.expInline 0x3ff0000000000000 (bias true) = some c ∧
      c.Fits expFormat true 0x3ff0000000000000 :=
  exponentials_fit.2.2 0x3ff0000000000000 true (by decide)

end LdbToolchain.Math
