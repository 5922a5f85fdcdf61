import LdbToolchain.Math.Log
import LdbToolchain.Math.Pow

/-!
# The cases of `pow` and `powf`

Each result of `pow` and `powf` stands for what the standard asks of it, in terms of the numbers: which
of them are 0, infinite or no numbers, on which side of 1 the first one lies, and whether the second
one is an odd integer. What is left goes on to the logarithm with the absolute value of the first one,
taken apart, and with the sign of the result.
-/

namespace LdbToolchain.Math

open Binary

/-! ## What the cases are for -/

/-- Greater than 1 in absolute value. -/
def Above (F : Format) (n : Nat) : Prop := F.IsInf n ∨ F.IsFinite n ∧ 1 < |F.value n|

/-- Less than 1 in absolute value. -/
def Below (F : Format) (n : Nat) : Prop := F.IsFinite n ∧ |F.value n| < 1

def IsOdd (v : ℚ) : Prop := ∃ z : ℤ, v = z ∧ Odd z

def IsEven (v : ℚ) : Prop := ∃ z : ℤ, v = z ∧ Even z

/-- The sign of `x ^ y` as the exponential is told it. -/
def SignOf (signBias : Word32) (x y : ℚ) (bias : Word32) : Prop :=
  0 < x ∧ bias = 0 ∨ x < 0 ∧ (IsOdd y ∧ bias = signBias ∨ IsEven y ∧ bias = 0)

/-- The constants of one of the two functions. For `y` below `small` or from `large` on, its power is
near 1 or out of range. -/
structure PowFormat where
  F : Format
  tableBits : Nat
  off : Nat
  tab : List HexFloat
  bound : ℚ
  signBias : Word32
  small : ℚ
  large : ℚ

def PowCase.Fits {w : Nat} (P : PowFormat) (nx ny : Nat) : PowCase w → Prop
  | .one => P.F.IsZero ny ∨ P.F.value nx = 1 ∨
      |P.F.value nx| = 1 ∧ (P.F.IsInf ny ∨ P.F.IsFinite ny ∧ IsEven (P.F.value ny))
  | .zero => P.F.IsInf ny ∧
      (Below P.F nx ∧ P.F.negative ny = false ∨ Above P.F nx ∧ P.F.negative ny = true)
  | .sum => (P.F.IsNaN nx ∨ P.F.IsNaN ny) ∧ ¬ P.F.IsZero ny ∧ P.F.value nx ≠ 1
  | .square => P.F.IsInf ny ∧
      (Above P.F nx ∧ P.F.negative ny = false ∨ Below P.F nx ∧ P.F.negative ny = true)
  | .zeroOrInf negate reciprocal => ¬ Ordinary P.F nx ∧ Ordinary P.F ny ∧
      (negate = true ↔ P.F.negative nx = true ∧ IsOdd (P.F.value ny)) ∧
      (reciprocal = true ↔ P.F.value ny < 0)
  | .invalid => Ordinary P.F nx ∧ P.F.value nx < 0 ∧ Ordinary P.F ny ∧ ∀ z : ℤ, P.F.value ny ≠ z
  | .nearOne plus => Ordinary P.F nx ∧ Ordinary P.F ny ∧ |P.F.value ny| < P.small ∧
      0 < P.F.value nx ∧ P.F.value nx ≠ 1 ∧ (plus = true ↔ 1 < P.F.value nx)
  | .oflow => Ordinary P.F nx ∧ Ordinary P.F ny ∧ P.large ≤ |P.F.value ny| ∧
      (0 < P.F.value nx ∨ IsEven (P.F.value ny)) ∧
      (1 < |P.F.value nx| ∧ 0 < P.F.value ny ∨ |P.F.value nx| < 1 ∧ P.F.value ny < 0)
  | .uflow => Ordinary P.F nx ∧ Ordinary P.F ny ∧ P.large ≤ |P.F.value ny| ∧
      (0 < P.F.value nx ∨ IsEven (P.F.value ny)) ∧
      (1 < |P.F.value nx| ∧ P.F.value ny < 0 ∨ |P.F.value nx| < 1 ∧ 0 < P.F.value ny)
  | .reduced r invc bias => Ordinary P.F nx ∧ Ordinary P.F ny ∧
      P.small ≤ |P.F.value ny| ∧ |P.F.value ny| < P.large ∧
      SignOf P.signBias (P.F.value nx) (P.F.value ny) bias ∧
      r.Of P.F P.tableBits P.off |P.F.value nx| ∧ invc = P.tab[r.i]? ∧
      ∃ c, invc = some c ∧ |P.F.value r.iz.toNat * c.val - 1| < P.bound

/-! ## Numbers that are no ordinary ones -/

section Special

variable {F : Format} {w : Nat} (hw : w = 1 + F.expBits + F.fracBits)

include hw in
theorem two_pow_eq : 2 ^ w = 2 * F.signWeight := by
  rw [Format.signWeight, hw, ← pow_succ']
  congr 1
  omega

include hw in
theorem toNat_two_mul (x : BitVec w) : (2#w * x).toNat = 2 * F.magnitude x.toNat := by
  rw [BitVec.toNat_mul, BitVec.toNat_ofNat, Nat.mod_mul_mod, two_pow_eq hw, Nat.mul_mod_mul_left]
  rfl

include hw in
theorem zeroinfnanOf_iff {inf : BitVec w} (hinf : inf.toNat = F.infinity) (hpos : 0 < F.infinity)
    (x : BitVec w) : zeroinfnanOf inf x = true ↔ ¬ Ordinary F x.toNat := by
  have hweight := F.infinity_lt
  have hdouble := two_pow_eq hw
  have hone : (1#w).toNat = 1 := by
    rw [BitVec.toNat_ofNat]
    exact Nat.mod_eq_of_lt (by omega)
  have hmag : F.magnitude inf.toNat = F.infinity := by
    rw [hinf, Format.magnitude_of_lt hweight]
  rw [zeroinfnanOf, decide_eq_true_iff, ge_iff_le, ← BitVec.not_lt, sub_lt_sub_iff, BitVec.le_def,
    BitVec.lt_def, toNat_two_mul hw, toNat_two_mul hw, hmag, hone, ordinary_iff]
  · omega
  · rw [BitVec.le_def, hone, toNat_two_mul hw, hmag]
    omega

/-- The number 1 has one pattern. -/
theorem value_eq_one_iff {one n : Nat} (hone : F.size one = 1) (hlt : one < F.signWeight) :
    F.value n = 1 ↔ n = one := by
  constructor
  · intro h
    refine Format.eq_of_value_eq_size (F := F) ?_ (h.trans hone.symm)
    rintro rfl
    simp at hone
  · rintro rfl
    rw [Format.value_of_lt hlt, hone]

theorem abs_value_lt_one {one n : Nat} (hone : F.size one = 1) :
    |F.value n| < 1 ↔ F.magnitude n < one := by
  rw [Format.abs_value, ← hone, Format.size_strictMono.lt_iff_lt]

theorem one_lt_abs_value {one n : Nat} (hone : F.size one = 1) :
    1 < |F.value n| ↔ one < F.magnitude n := by
  rw [Format.abs_value, ← hone, Format.size_strictMono.lt_iff_lt]

theorem abs_value_eq_one {one n : Nat} (hone : F.size one = 1) :
    |F.value n| = 1 ↔ F.magnitude n = one := by
  rw [Format.abs_value, ← hone, Format.size_strictMono.injective.eq_iff]

include hw in
theorem specialY_fits {P : PowFormat} (hP : P.F = F) {one inf ix iy : BitVec w} {negative : Bool}
    (hone : F.size one.toNat = 1) (hlt : one.toNat < F.infinity) (hinf : inf.toNat = F.infinity)
    (hy : ¬ Ordinary F iy.toNat) (hneg : negative = F.negative iy.toNat) :
    (specialY one inf ix iy negative).Fits P ix.toNat iy.toNat := by
  subst hP
  have hweight := P.F.infinity_lt
  have hmag : P.F.magnitude inf.toNat = P.F.infinity := by
    rw [hinf, Format.magnitude_of_lt hweight]
  have hmagone : P.F.magnitude one.toNat = one.toNat := Format.magnitude_of_lt (by omega)
  have hzero : 2#w * iy = 0#w ↔ P.F.IsZero iy.toNat := by
    rw [← BitVec.toNat_inj, toNat_two_mul hw, BitVec.toNat_ofNat, Nat.zero_mod, Format.IsZero]
    omega
  have hnan : ∀ x : BitVec w, 2#w * x > 2#w * inf ↔ P.F.IsNaN x.toNat := by
    intro x
    rw [gt_iff_lt, BitVec.lt_def, toNat_two_mul hw, toNat_two_mul hw, hmag, Format.IsNaN]
    omega
  have heq : 2#w * ix = 2#w * one ↔ P.F.magnitude ix.toNat = one.toNat := by
    rw [← BitVec.toNat_inj, toNat_two_mul hw, toNat_two_mul hw, hmagone]
    omega
  have hbelow : 2#w * ix < 2#w * one ↔ P.F.magnitude ix.toNat < one.toNat := by
    rw [BitVec.lt_def, toNat_two_mul hw, toNat_two_mul hw, hmagone]
    omega
  have hvalue : ix = one ↔ P.F.value ix.toNat = 1 := by
    rw [value_eq_one_iff hone (by omega), BitVec.toNat_inj]
  rw [ordinary_iff] at hy
  rw [specialY]
  split_ifs with h0 h1 h2 h3 h4
  · exact .inl (hzero.mp h0)
  · exact .inr (.inl (hvalue.mp h1))
  · rw [hnan, hnan] at h2
    exact ⟨h2, fun h => h0 (hzero.mpr h), fun h => h1 (hvalue.mpr h)⟩
  all_goals
    rw [hnan, hnan, Format.IsNaN, Format.IsNaN, not_or] at h2
    rw [hzero, Format.IsZero] at h0
    have hyinf : P.F.IsInf iy.toNat := by
      rw [Format.IsInf]
      omega
  · exact .inr (.inr ⟨(abs_value_eq_one hone).mpr (heq.mp h3), .inl hyinf⟩)
  all_goals
    -- Neither is a NaN, and `x` is not 1 in absolute value.
    have hside : 2#w * ix < 2#w * one ∧ Below P.F ix.toNat ∨
        ¬ 2#w * ix < 2#w * one ∧ Above P.F ix.toNat := by
      rw [heq] at h3
      rw [hbelow]
      by_cases hlt' : P.F.magnitude ix.toNat < one.toNat
      · exact .inl ⟨hlt', lt_trans hlt' hlt, (abs_value_lt_one hone).mpr hlt'⟩
      · refine .inr ⟨hlt', ?_⟩
        rcases Nat.lt_or_ge (P.F.magnitude ix.toNat) P.F.infinity with hfin | hge
        · exact .inr ⟨hfin, (one_lt_abs_value hone).mpr (by omega)⟩
        · exact .inl (by rw [Format.IsInf]; omega)
    rw [hneg] at h4
  · refine ⟨hyinf, ?_⟩
    rcases hside with ⟨hb, hx⟩ | ⟨hb, hx⟩
    · left
      rw [decide_eq_true hb] at h4
      exact ⟨hx, by simpa using h4⟩
    · right
      rw [decide_eq_false hb] at h4
      exact ⟨hx, by simpa using h4⟩
  · refine ⟨hyinf, ?_⟩
    rcases hside with ⟨hb, hx⟩ | ⟨hb, hx⟩
    · right
      rw [decide_eq_true hb] at h4
      exact ⟨hx, by simpa using h4⟩
    · left
      rw [decide_eq_false hb] at h4
      exact ⟨hx, by simpa using h4⟩

end Special

theorem IntCode.eq_zero_iff {v : ℚ} {code : Nat} (h : IntCode v code) :
    code = 0 ↔ ∀ z : ℤ, v ≠ z := by
  match code with
  | 0 => exact ⟨fun _ => h, fun _ => rfl⟩
  | 1 | 2 =>
      obtain ⟨z, hz, -⟩ := h
      exact ⟨fun h => absurd h (by decide), fun h => absurd hz (h z)⟩
  | _ + 3 => exact h.elim

theorem IntCode.eq_one_iff {v : ℚ} {code : Nat} (h : IntCode v code) : code = 1 ↔ IsOdd v := by
  match code with
  | 0 =>
      refine ⟨fun h => absurd h (by decide), ?_⟩
      rintro ⟨z, hz, -⟩
      exact absurd hz (h z)
  | 1 => exact ⟨fun _ => h, fun _ => rfl⟩
  | 2 =>
      refine ⟨fun h => absurd h (by decide), ?_⟩
      rintro ⟨z, hz, hodd⟩
      obtain ⟨z', hz', heven⟩ := h
      have hsame : z = z' := by exact_mod_cast hz.symm.trans hz'
      rw [hsame] at hodd
      exact absurd heven (Int.not_even_iff_odd.mpr hodd)
  | _ + 3 => exact h.elim

theorem IntCode.isEven {v : ℚ} {code : Nat} (h : IntCode v code) (h0 : code ≠ 0) (h1 : code ≠ 1) :
    IsEven v := by
  match code with
  | 0 => exact absurd rfl h0
  | 1 => exact absurd rfl h1
  | 2 => exact h
  | _ + 3 => exact h.elim

/-- The bias that goes with what `checkint` says. -/
theorem signOf_of_code {signBias : Word32} {x y : ℚ} {code : Nat} (hx : x < 0) (h : IntCode y code)
    (hzero : code ≠ 0) : SignOf signBias x y (if code = 1 then signBias else 0) := by
  refine .inr ⟨hx, ?_⟩
  by_cases hone : code = 1
  · rw [if_pos hone]
    exact .inl ⟨h.eq_one_iff.mp hone, rfl⟩
  · rw [if_neg hone]
    exact .inr ⟨h.isEven hzero hone, rfl⟩

/-! ## `pow` -/

namespace Pow

def format : PowFormat where
  F := double
  tableBits := 7
  off := 0x3fe6955500000000
  tab := powInvc
  bound := 1 / 2 ^ 7
  signBias := SIGN_BIAS
  small := 1 / 2 ^ 65
  large := 2 ^ 63

theorem suited : Suited double 7 (0xfff#64 <<< 52) (0x3fe6955500000000 : Word) (52#64 <<< 52) :=
  ⟨by decide, by decide, by decide, by decide, by decide, by decide, by decide⟩

theorem toNat_top12 (x : Word) : (top12 x).toNat = x.toNat / 2 ^ 52 := by
  rw [top12, BitVec.toNat_setWidth, BitVec.toNat_ushiftRight, Nat.shiftRight_eq_div_pow]
  omega

theorem notNormal_iff (x : Word) : top12 x - 0x001 ≥ 0x7ff - 0x001 ↔
    ¬ (2 ^ 52 ≤ x.toNat ∧ x.toNat < double.infinity) := by
  rw [ge_iff_le, ← BitVec.not_lt, sub_lt_sub_iff (by decide), BitVec.le_def, BitVec.lt_def,
    toNat_top12]
  show ¬ (1 ≤ _ ∧ _ < 2047) ↔ ¬ (2 ^ 52 ≤ _ ∧ _ < 2047 * 2 ^ 52)
  omega

/-- The exponent of `y`. -/
theorem toNat_topy (y : Word) :
    (top12 y &&& 0x7ff).toNat = double.magnitude y.toNat / 2 ^ 52 := by
  have hmask : (top12 y &&& 0x7ff).toNat = (top12 y).toNat / 2 ^ 0 % 2 ^ 11 * 2 ^ 0 :=
    toNat_and_mask (top12 y) (s := 0) (e := 11) (by decide)
  rw [hmask, toNat_top12]
  show _ = y.toNat % 2 ^ 63 / 2 ^ 52
  omega

theorem small_le_iff (n : Nat) : format.small ≤ |double.value n| ↔
    0x3be ≤ double.magnitude n / 2 ^ 52 := by
  have hsmall : format.small = 2 ^ ((0x3be : Nat) - double.bias : ℤ) := by
    norm_num [format, double, Format.bias]
  rw [hsmall]
  exact Format.two_pow_le_abs_value (by decide)

theorem lt_large_iff (n : Nat) : |double.value n| < format.large ↔
    double.magnitude n / 2 ^ 52 < 0x43e := by
  have hlarge : format.large = 2 ^ ((0x43e : Nat) - double.bias : ℤ) := by
    norm_num [format, double, Format.bias]
  rw [← not_le, ← not_le, hlarge]
  exact (Format.two_pow_le_abs_value (by decide)).not

theorem outOfRange_iff (y : Word) : (top12 y &&& 0x7ff) - 0x3be ≥ 0x43e - 0x3be ↔
    ¬ (format.small ≤ |double.value y.toNat| ∧ |double.value y.toNat| < format.large) := by
  rw [ge_iff_le, ← BitVec.not_lt, sub_lt_sub_iff (by decide), BitVec.le_def, BitVec.lt_def, toNat_topy,
    small_le_iff, lt_large_iff]
  rfl

theorem sign_iff (x : Word) : x >>> 63 ≠ 0 ↔ double.negative x.toNat = true := by
  rw [Ne, ← BitVec.toNat_inj, BitVec.toNat_ushiftRight, Nat.shiftRight_eq_div_pow, Format.negative,
    decide_eq_true_iff]
  show ¬ x.toNat / 2 ^ 63 = 0 ↔ 2 ^ 63 ≤ x.toNat
  omega

theorem toNat_abs (x : Word) : (x &&& 0x7fffffffffffffff).toNat = double.magnitude x.toNat := by
  have hmask : (x &&& 0x7fffffffffffffff).toNat = x.toNat / 2 ^ 0 % 2 ^ 63 * 2 ^ 0 :=
    toNat_and_mask x (s := 0) (e := 63) (by decide)
  rw [hmask, pow_zero, Nat.div_one, Nat.mul_one]
  rfl

/-- An integer out of range is large, and even. -/
theorem even_of_outOfRange {n : Nat} (hn : Ordinary double n)
    (hinteger : IsOdd (double.value n) ∨ IsEven (double.value n))
    (hout : ¬ (format.small ≤ |double.value n| ∧ |double.value n| < format.large)) :
    format.large ≤ |double.value n| ∧ IsEven (double.value n) := by
  have hlarge : format.large ≤ |double.value n| := by
    by_contra hlt
    obtain ⟨z, hz⟩ : ∃ z : ℤ, double.value n = z := by
      rcases hinteger with ⟨z, hz, -⟩ | ⟨z, hz, -⟩
      · exact ⟨z, hz⟩
      · exact ⟨z, hz⟩
    have hne : z ≠ 0 := by
      rintro rfl
      exact hn.2 (Format.value_eq_zero_iff.mp (by rw [hz]; rfl))
    have habs : (1 : ℚ) ≤ |double.value n| := by
      rw [hz, ← Int.cast_abs]
      exact_mod_cast Int.one_le_abs hne
    have hsmall : format.small ≤ 1 := by norm_num [format]
    exact hout ⟨hsmall.trans habs, not_le.mp hlt⟩
  have heven : IntCode (double.value n) 2 := by
    refine intCode_value (Format.even_size ?_)
    rw [← not_lt, lt_large_iff] at hlarge
    show 1023 + 52 < double.magnitude n / 2 ^ 52
    omega
  exact ⟨hlarge, heven⟩

/-- What the logarithm gets. -/
theorem logInline_fits {nx ny : Nat} {ix : Word} {signBias : Word32} (hx : Ordinary double nx)
    (hy : Ordinary double ny) (hsmall : format.small ≤ |double.value ny|)
    (hlarge : |double.value ny| < format.large)
    (hsign : SignOf SIGN_BIAS (double.value nx) (double.value ny) signBias)
    (hof : (split 52 7 (0xfff#64 <<< 52) 0x3fe6955500000000 ix).Of double 7 0x3fe6955500000000
      |double.value nx|) :
    (logInline ix signBias).Fits format nx ny :=
  ⟨hx, hy, hsmall, hlarge, hsign, hof, rfl, hof.exists_invc powInvc_near (by decide +kernel)⟩

/-- A `y` that is too small or too large for the logarithm. -/
theorem outOfRange_fits {x y ix : Word} {signBias : Word32} (hx : Ordinary double x.toNat)
    (hy : Ordinary double y.toNat) (hix : ix.toNat = double.magnitude x.toNat)
    (hsign : SignOf SIGN_BIAS (double.value x.toNat) (double.value y.toNat) signBias)
    (hout : ¬ (format.small ≤ |double.value y.toNat| ∧ |double.value y.toNat| < format.large)) :
    (if ix = 0x3ff0000000000000 then .one
      else if top12 y &&& 0x7ff < 0x3be then .nearOne (decide (ix > 0x3ff0000000000000))
      else if decide (ix > 0x3ff0000000000000) = decide (top12 y < 0x800) then .oflow
      else .uflow : PowCase 64).Fits format x.toNat y.toNat := by
  have hone : double.size 0x3ff0000000000000 = 1 := double_one
  have hix_one : ix = 0x3ff0000000000000 ↔ |double.value x.toNat| = 1 := by
    rw [abs_value_eq_one hone, ← hix, ← BitVec.toNat_inj]
    rfl
  have hix_gt : ix > 0x3ff0000000000000 ↔ 1 < |double.value x.toNat| := by
    rw [one_lt_abs_value hone, ← hix]
    rfl
  have hsmall : top12 y &&& 0x7ff < 0x3be ↔ |double.value y.toNat| < format.small := by
    rw [← not_le, small_le_iff, not_le, ← toNat_topy]
    rfl
  have hpositive : top12 y < 0x800 ↔ 0 < double.value y.toNat := by
    rw [Format.value_pos_iff, and_iff_left hy.2, Format.negative, decide_eq_false_iff_not,
      BitVec.lt_def, toNat_top12]
    show y.toNat / 2 ^ 52 < 2048 ↔ ¬ 2 ^ 63 ≤ y.toNat
    omega
  -- For a negative `x` the number `y` is an integer, and then a large and even one.
  have heven : 0 < double.value x.toNat ∨
      format.large ≤ |double.value y.toNat| ∧ IsEven (double.value y.toNat) := by
    rcases hsign with ⟨hpos, -⟩ | ⟨-, ⟨hodd, -⟩ | ⟨heven, -⟩⟩
    · exact .inl hpos
    · exact .inr (even_of_outOfRange hy (.inl hodd) hout)
    · exact .inr (even_of_outOfRange hy (.inr heven) hout)
  split_ifs with h1 h2 h3
  · rw [hix_one] at h1
    rcases heven with hpos | ⟨-, heven⟩
    · rw [abs_of_pos hpos] at h1
      exact .inr (.inl h1)
    · exact .inr (.inr ⟨h1, .inr ⟨hy.1, heven⟩⟩)
  · rw [hix_one] at h1
    rw [hsmall] at h2
    have hpos : 0 < double.value x.toNat := by
      rcases heven with hpos | ⟨hlarge, -⟩
      · exact hpos
      · have hle : format.small ≤ format.large := by norm_num [format]
        exact absurd (lt_of_lt_of_le h2 hle) (not_lt.mpr hlarge)
    rw [abs_of_pos hpos] at h1 hix_gt
    exact ⟨hx, hy, h2, hpos, h1, by rw [decide_eq_true_iff, hix_gt]; rfl⟩
  all_goals
    rw [hix_one] at h1
    rw [hsmall, not_lt] at h2
    have hlarge : format.large ≤ |double.value y.toNat| := not_lt.mp fun hlt => hout ⟨h2, hlt⟩
    have hy0 : double.value y.toNat ≠ 0 := fun h => hy.2 (Format.value_eq_zero_iff.mp h)
    rw [decide_eq_decide, hix_gt, hpositive] at h3
    have hparity : 0 < double.value x.toNat ∨ IsEven (double.value y.toNat) :=
      heven.imp_right And.right
  · refine ⟨hx, hy, hlarge, hparity, ?_⟩
    by_cases hgt : 1 < |double.value x.toNat|
    · exact .inl ⟨hgt, h3.mp hgt⟩
    · exact .inr ⟨lt_of_le_of_ne (not_lt.mp hgt) h1,
        lt_of_le_of_ne (not_lt.mp fun h => hgt (h3.mpr h)) hy0⟩
  · refine ⟨hx, hy, hlarge, hparity, ?_⟩
    by_cases hgt : 1 < |double.value x.toNat|
    · exact .inl ⟨hgt, lt_of_le_of_ne (not_lt.mp fun h => h3 ⟨fun _ => h, fun _ => hgt⟩) hy0⟩
    · refine .inr ⟨lt_of_le_of_ne (not_lt.mp hgt) h1, ?_⟩
      by_contra hle
      exact h3 ⟨fun h => absurd h hgt, fun h => absurd h hle⟩

theorem finite_fits {x y ix : Word} {topx signBias : Word32} (hx : Ordinary double x.toNat)
    (hy : Ordinary double y.toNat) (hix : ix.toNat = double.magnitude x.toNat)
    (htopx : topx.toNat = double.magnitude x.toNat / 2 ^ 52)
    (hsign : SignOf SIGN_BIAS (double.value x.toNat) (double.value y.toNat) signBias) :
    (finite x ix topx (top12 y) signBias).Fits format x.toNat y.toNat := by
  have hordinary := ordinary_iff.mp hx
  rw [finite]
  by_cases hout : (top12 y &&& 0x7ff) - 0x3be ≥ 0x43e - 0x3be
  · rw [if_pos hout]
    rw [outOfRange_iff] at hout
    exact outOfRange_fits hx hy hix hsign hout
  · rw [if_neg hout]
    rw [outOfRange_iff, not_not] at hout
    by_cases hzero : topx = 0
    · rw [if_pos hzero]
      have hsub : double.magnitude x.toNat < 2 ^ 52 := by
        rw [hzero] at htopx
        exact (Nat.div_eq_zero_iff_lt (by decide)).mp htopx.symm
      have htimes : (timesTwoPow double x &&& 0x7fffffffffffffff).toNat
          = double.scaleUp (double.magnitude x.toNat) := by
        rw [toNat_abs]
        exact (suited.toNat_timesTwoPow hordinary.1 hsub).2
      have hof := suited.subnormal_of hordinary.1 hsub htimes
      rw [← Format.abs_value] at hof
      exact logInline_fits hx hy hout.1 hout.2 hsign hof
    · rw [if_neg hzero]
      have hnormal : 2 ^ 52 ≤ ix.toNat := by
        rw [hix]
        by_contra hlt
        refine hzero (BitVec.toNat_inj.mp ?_)
        rw [htopx]
        exact Nat.div_eq_of_lt (not_le.mp hlt)
      have hof := suited.normal_of hnormal (by rw [hix]; exact hordinary.2)
      rw [Format.value_of_lt (by rw [hix]; exact Format.magnitude_lt), hix, ← Format.abs_value] at hof
      exact logInline_fits hx hy hout.1 hout.2 hsign hof

theorem zeroinfnan_iff (x : Word) : zeroinfnan x = true ↔ ¬ Ordinary double x.toNat :=
  zeroinfnanOf_iff (F := double) rfl (by decide) (by decide) x

theorem pow_fits (x y : Word) : (pow x y).Fits format x.toNat y.toNat := by
  have hcode := checkint_code.1 y
  rw [pow]
  dsimp only
  by_cases hspecial : top12 x - 0x001 ≥ 0x7ff - 0x001 ∨ (top12 y &&& 0x7ff) - 0x3be ≥ 0x43e - 0x3be
  · rw [if_pos hspecial]
    by_cases hy : zeroinfnan y = true
    · rw [if_pos hy]
      rw [zeroinfnan_iff] at hy
      exact specialY_fits (F := double) rfl rfl double_one (by decide) (by decide) hy
        (Bool.eq_iff_iff.mpr (decide_eq_true_iff.trans (sign_iff y)))
    rw [if_neg hy]
    rw [zeroinfnan_iff, not_not] at hy
    have hcode := hcode hy.2
    by_cases hx : zeroinfnan x = true
    · rw [if_pos hx]
      rw [zeroinfnan_iff] at hx
      refine ⟨hx, hy, ?_, ?_⟩
      · rw [decide_eq_true_iff, sign_iff, hcode.eq_one_iff]
        rfl
      · rw [decide_eq_true_iff, sign_iff]
        exact (Format.value_neg_iff.trans (and_iff_left hy.2)).symm
    rw [if_neg hx]
    rw [zeroinfnan_iff, not_not] at hx
    by_cases hneg : x >>> 63 ≠ 0
    · rw [if_pos hneg]
      have hvalue : double.value x.toNat < 0 := Format.value_neg_iff.mpr ⟨(sign_iff x).mp hneg, hx.2⟩
      by_cases hzero : checkint y = 0
      · rw [if_pos hzero]
        exact ⟨hx, hvalue, hy, hcode.eq_zero_iff.mp hzero⟩
      · rw [if_neg hzero]
        exact finite_fits hx hy (toNat_abs x) (toNat_topy x) (signOf_of_code hvalue hcode hzero)
    · rw [if_neg hneg]
      have hnonneg : double.negative x.toNat = false := by
        rw [sign_iff, Bool.not_eq_true] at hneg
        exact hneg
      have hmag := Format.magnitude_of_negative hnonneg
      refine finite_fits hx hy hmag.symm ?_ (.inl ⟨Format.value_pos_iff.mpr ⟨hnonneg, hx.2⟩, rfl⟩)
      rw [toNat_top12, hmag]
  · rw [if_neg hspecial]
    rw [not_or, notNormal_iff, outOfRange_iff, not_not, not_not] at hspecial
    obtain ⟨⟨hle, hlt⟩, hsmall, hlarge⟩ := hspecial
    have hweight : x.toNat < double.signWeight := lt_trans hlt double.infinity_lt
    have hmag : double.magnitude x.toNat = x.toNat := Format.magnitude_of_lt hweight
    have hx : Ordinary double x.toNat := ordinary_iff.mpr ⟨by rw [hmag]; omega, by rw [hmag]; exact hlt⟩
    have hpos : 0 < double.value x.toNat :=
      Format.value_pos_iff.mpr ⟨Format.negative_eq_false hweight, hx.2⟩
    have hy : Ordinary double y.toNat := by
      rw [small_le_iff] at hsmall
      rw [lt_large_iff] at hlarge
      rw [ordinary_iff]
      show _ ∧ _ < 2047 * 2 ^ 52
      omega
    have hof := suited.normal_of hle hlt
    rw [← abs_of_pos hpos] at hof
    exact logInline_fits hx hy hsmall hlarge (.inl ⟨hpos, rfl⟩) hof

end Pow

/-! ## `powf` -/

namespace Powf

/-- Every `y` is in range here: the product with the logarithm is a `double`. -/
def format : PowFormat where
  F := single
  tableBits := 4
  off := 0x3f330000
  tab := powfInvc
  bound := 1 / 2 ^ 5
  signBias := SIGN_BIAS
  small := 1 / 2 ^ 149
  large := 2 ^ 128

theorem suited : Suited single 4 (0xff800000 : Word32) 0x3f330000 (23#32 <<< 23) :=
  ⟨by decide, by decide, by decide, by decide, by decide, by decide, by decide⟩

/-- The low bits that are shifted out of `top` are those it has not. -/
theorem log2Parts_eq (ix : Word32) : log2Parts ix = split 23 4 0xff800000 0x3f330000 ix := by
  have hk : ((ix - 0x3f330000) &&& 0xff800000).sshiftRight 23 = (ix - 0x3f330000).sshiftRight 23 := by
    rw [BitVec.sshiftRight_and_distrib]
    have hones : (0xff800000 : Word32).sshiftRight 23 = BitVec.allOnes 32 := by decide
    rw [hones, BitVec.and_allOnes]
  rw [log2Parts, split, hk]
  rfl

theorem inRange {n : Nat} (h : Ordinary single n) :
    format.small ≤ |single.value n| ∧ |single.value n| < format.large := by
  have hordinary := ordinary_iff.mp h
  have hsmall : format.small = single.size 1 := by
    norm_num [format, single, Format.size, Format.bias]
  have hlarge : format.large = single.size single.infinity := by
    norm_num [format, single, Format.infinity, Format.size, Format.ray, Format.bias]
  rw [hsmall, hlarge, Format.abs_value, Format.size_strictMono.le_iff_le,
    Format.size_strictMono.lt_iff_lt]
  omega

theorem sign_iff (x : Word32) : x &&& 0x80000000 ≠ 0 ↔ single.negative x.toNat = true := by
  have hbit := and_bit_ne_zero_iff x (d := 31) (by decide)
  rw [Format.negative, decide_eq_true_iff]
  refine hbit.trans ?_
  show _ ↔ 2 ^ 31 ≤ x.toNat
  have hlt := x.isLt
  omega

theorem toNat_abs (x : Word32) : (x &&& 0x7fffffff).toNat = single.magnitude x.toNat := by
  have hmask : (x &&& 0x7fffffff).toNat = x.toNat / 2 ^ 0 % 2 ^ 31 * 2 ^ 0 :=
    toNat_and_mask x (s := 0) (e := 31) (by decide)
  rw [hmask, pow_zero, Nat.div_one, Nat.mul_one]
  rfl

theorem zeroinfnan_iff (x : Word32) : zeroinfnan x = true ↔ ¬ Ordinary single x.toNat :=
  zeroinfnanOf_iff (F := single) rfl (by decide) (by decide) x

theorem log2Inline_fits {nx ny : Nat} {ix signBias : Word32} (hx : Ordinary single nx)
    (hy : Ordinary single ny)
    (hsign : SignOf SIGN_BIAS (single.value nx) (single.value ny) signBias)
    (hof : (split 23 4 0xff800000 0x3f330000 ix).Of single 4 0x3f330000 |single.value nx|) :
    (log2Inline ix signBias).Fits format nx ny := by
  rw [← log2Parts_eq] at hof
  exact ⟨hx, hy, (inRange hy).1, (inRange hy).2, hsign, hof, rfl, hof.exists_invc logfInvc_near rfl⟩

theorem finite_fits {x y ix signBias : Word32} (hx : Ordinary single x.toNat)
    (hy : Ordinary single y.toNat) (hix : ix.toNat = single.magnitude x.toNat)
    (hsign : SignOf SIGN_BIAS (single.value x.toNat) (single.value y.toNat) signBias) :
    (finite x ix signBias).Fits format x.toNat y.toNat := by
  have hordinary := ordinary_iff.mp hx
  have hsmall : ix < 0x00800000 ↔ single.magnitude x.toNat < 2 ^ 23 := by
    rw [← hix]
    rfl
  rw [finite]
  by_cases hlt : ix < 0x00800000
  · rw [if_pos hlt]
    rw [hsmall] at hlt
    have htimes : (timesTwoPow single x &&& 0x7fffffff).toNat
        = single.scaleUp (single.magnitude x.toNat) := by
      rw [toNat_abs]
      exact (suited.toNat_timesTwoPow hordinary.1 hlt).2
    have hof := suited.subnormal_of hordinary.1 hlt htimes
    rw [← Format.abs_value] at hof
    exact log2Inline_fits hx hy hsign hof
  · rw [if_neg hlt]
    rw [hsmall, not_lt, ← hix] at hlt
    have hof := suited.normal_of hlt (by rw [hix]; exact hordinary.2)
    rw [Format.value_of_lt (by rw [hix]; exact Format.magnitude_lt), hix, ← Format.abs_value] at hof
    exact log2Inline_fits hx hy hsign hof

theorem powf_fits (x y : Word32) : (powf x y).Fits format x.toNat y.toNat := by
  have hcode := checkint_code.2 y
  rw [powf]
  by_cases hspecial : x - 0x00800000 ≥ 0x7f800000 - 0x00800000 ∨ zeroinfnan y = true
  · rw [if_pos hspecial]
    by_cases hy : zeroinfnan y = true
    · rw [if_pos hy]
      rw [zeroinfnan_iff] at hy
      exact specialY_fits (F := single) rfl rfl single_one (by decide) (by decide) hy
        (Bool.eq_iff_iff.mpr (decide_eq_true_iff.trans (sign_iff y)))
    rw [if_neg hy]
    rw [zeroinfnan_iff, not_not] at hy
    have hcode := hcode hy.2
    by_cases hx : zeroinfnan x = true
    · rw [if_pos hx]
      rw [zeroinfnan_iff] at hx
      refine ⟨hx, hy, ?_, ?_⟩
      · rw [decide_eq_true_iff, sign_iff, hcode.eq_one_iff]
        rfl
      · rw [decide_eq_true_iff, sign_iff]
        exact (Format.value_neg_iff.trans (and_iff_left hy.2)).symm
    rw [if_neg hx]
    rw [zeroinfnan_iff, not_not] at hx
    by_cases hneg : x &&& 0x80000000 ≠ 0
    · rw [if_pos hneg]
      have hvalue : single.value x.toNat < 0 := Format.value_neg_iff.mpr ⟨(sign_iff x).mp hneg, hx.2⟩
      by_cases hzero : checkint y = 0
      · rw [if_pos hzero]
        exact ⟨hx, hvalue, hy, hcode.eq_zero_iff.mp hzero⟩
      · rw [if_neg hzero]
        exact finite_fits hx hy (toNat_abs x) (signOf_of_code hvalue hcode hzero)
    · rw [if_neg hneg]
      have hnonneg : single.negative x.toNat = false := by
        rw [sign_iff, Bool.not_eq_true] at hneg
        exact hneg
      exact finite_fits hx hy (Format.magnitude_of_negative hnonneg).symm
        (.inl ⟨Format.value_pos_iff.mpr ⟨hnonneg, hx.2⟩, rfl⟩)
  · rw [if_neg hspecial]
    rw [not_or, notNormalf_iff, zeroinfnan_iff, not_not, not_or, not_lt, not_le] at hspecial
    obtain ⟨⟨hle, hlt⟩, hy⟩ := hspecial
    have hweight : x.toNat < single.signWeight := lt_trans hlt single.infinity_lt
    have hmag : single.magnitude x.toNat = x.toNat := Format.magnitude_of_lt hweight
    have hx : Ordinary single x.toNat := ordinary_iff.mpr ⟨by rw [hmag]; omega, by rw [hmag]; exact hlt⟩
    have hpos : 0 < single.value x.toNat :=
      Format.value_pos_iff.mpr ⟨Format.negative_eq_false hweight, hx.2⟩
    have hof := suited.normal_of hle hlt
    rw [← abs_of_pos hpos] at hof
    exact log2Inline_fits hx hy (.inl ⟨hpos, rfl⟩) hof

end Powf

/-- **The cases of the powers.** For all patterns `x` and `y`, what `pow` and `powf` do is right for
the two numbers. -/
theorem powers_fit : (∀ x y, (pow x y).Fits Pow.format x.toNat y.toNat) ∧
    ∀ x y, (powf x y).Fits Powf.format x.toNat y.toNat :=
  ⟨Pow.pow_fits, Powf.powf_fits⟩

end LdbToolchain.Math
