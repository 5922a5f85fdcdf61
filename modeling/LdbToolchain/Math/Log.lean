import LdbToolchain.Math.Tables

/-!
# `log`, `log2`, `logf` and `log2f`

Up to where the polynomial begins: which of the special results a number gets, and what the
polynomial is evaluated on otherwise. The polynomials themselves, which round at every step, are left
out.
-/

namespace LdbToolchain.Math

open Binary

/-- Where a logarithm returns, or what it goes on with. -/
inductive LogCase (w : Nat) where
  /-- `return 0` -/
  | zero
  /-- The polynomial in `x - 1.0` for numbers close to 1. -/
  | nearOne
  /-- `__math_divzero(1)` -/
  | divzero
  /-- `return x` -/
  | same
  /-- `__math_invalid(x)` -/
  | invalid
  /-- The parts of the number and what the table has for them in `invc`. -/
  | reduced (parts : Parts w) (invc : Option HexFloat)

/-- Top 16 bits of a double. -/
def top16 (ix : Word) : Word32 := (ix >>> 48).setWidth 32

/-- The common code of `log` and `log2`. -/
def logOf (lo hi : Word) (tableBits : Nat) (tab : List HexFloat) (ix : Word) : LogCase 64 :=
  let reduce (ix : Word) : LogCase 64 :=
    let r := split 52 tableBits (0xfff#64 <<< 52) 0x3fe6000000000000 ix
    .reduced r tab[r.i]?
  let top := top16 ix
  if ix - lo < hi - lo then
    if ix = 0x3ff0000000000000 then .zero else .nearOne
  else if top - 0x0010 ≥ 0x7ff0 - 0x0010 then
    if ix * 2 = 0 then .divzero
    else if ix = 0x7ff0000000000000 then .same
    else if top &&& 0x8000 ≠ 0 ∨ top &&& 0x7ff0 = 0x7ff0 then .invalid
    -- x is subnormal, normalize it.
    else reduce (timesTwoPow double ix - (52#64 <<< 52))
  else reduce ix

def log : Word → LogCase 64 := logOf 0x3fee000000000000 0x3ff1090000000000 7 logInvc

def log2 : Word → LogCase 64 := logOf 0x3feea4af00000000 0x3ff0b55900000000 6 log2Invc

/-- The common code of `logf` and `log2f`. -/
def logfOf (tab : List HexFloat) (ix : Word32) : LogCase 32 :=
  let reduce (ix : Word32) : LogCase 32 :=
    let r := split 23 4 0xff800000 0x3f330000 ix
    .reduced r tab[r.i]?
  if ix = 0x3f800000 then .zero
  else if ix - 0x00800000 ≥ 0x7f800000 - 0x00800000 then
    if ix * 2 = 0 then .divzero
    else if ix = 0x7f800000 then .same
    else if ix &&& 0x80000000 ≠ 0 ∨ ix * 2 ≥ 0xff000000 then .invalid
    -- x is subnormal, normalize it.
    else reduce (timesTwoPow single ix - (23#32 <<< 23))
  else reduce ix

def logf : Word32 → LogCase 32 := logfOf logfInvc

def log2f : Word32 → LogCase 32 := logfOf log2fInvc

/-! ## What the cases are for -/

/-- The cases of a number with pattern `n`, for numbers from `lo` to `hi` handled apart. -/
def LogCase.Fits {w : Nat} (F : Format) (tableBits off : Nat) (lo hi : ℚ) (n : Nat) :
    LogCase w → Prop
  | .zero => F.value n = 1
  | .nearOne => F.IsFinite n ∧ lo ≤ F.value n ∧ F.value n < hi ∧ F.value n ≠ 1
  | .divzero => F.IsZero n
  | .same => F.IsInf n ∧ F.negative n = false
  | .invalid => F.IsNaN n ∨ F.negative n = true ∧ ¬ F.IsZero n
  | .reduced r invc => F.IsFinite n ∧ 0 < F.value n ∧ F.value n ≠ 1 ∧
      ¬ (lo ≤ F.value n ∧ F.value n < hi) ∧ r.Of F tableBits off (F.value n) ∧
      ∃ c, invc = some c ∧ |F.value r.iz.toNat * c.val - 1| < 1 / 2 ^ (tableBits + 1)

/-! ## The tests on `double` -/

theorem toNat_top16 (ix : Word) : (top16 ix).toNat = ix.toNat / 2 ^ 48 := by
  rw [top16, BitVec.toNat_setWidth, BitVec.toNat_ushiftRight, Nat.shiftRight_eq_div_pow]
  omega

theorem notNormal_iff (ix : Word) :
    top16 ix - 0x0010 ≥ 0x7ff0 - 0x0010 ↔ ix.toNat < 2 ^ 52 ∨ double.infinity ≤ ix.toNat := by
  rw [ge_iff_le, ← BitVec.not_lt, sub_lt_sub_iff (by decide), BitVec.le_def, BitVec.lt_def,
    toNat_top16]
  show ¬ (16 ≤ _ ∧ _ < 32752) ↔ _ < 2 ^ 52 ∨ 2047 * 2 ^ 52 ≤ _
  omega

theorem special_iff (ix : Word) :
    top16 ix &&& 0x8000 ≠ 0 ∨ top16 ix &&& 0x7ff0 = 0x7ff0 ↔ double.infinity ≤ ix.toNat := by
  have hsign := and_bit_ne_zero_iff (top16 ix) (d := 15) (by decide)
  have hexp := toNat_and_mask (top16 ix) (s := 4) (e := 11) (by decide)
  rw [toNat_top16] at hsign hexp
  have hspecial : top16 ix &&& 0x7ff0 = 0x7ff0 ↔
      ix.toNat / 2 ^ 48 / 2 ^ 4 % 2 ^ 11 * 2 ^ 4 = 0x7ff0 := by
    rw [← BitVec.toNat_inj, ← hexp]
    rfl
  rw [hspecial]
  refine (or_congr_left hsign).trans ?_
  show _ ↔ 2047 * 2 ^ 52 ≤ _
  have hlt := ix.isLt
  omega

theorem doubled_eq_zero_iff (ix : Word) : ix * 2 = 0 ↔ double.IsZero ix.toNat := by
  rw [← BitVec.toNat_inj, BitVec.toNat_mul]
  show ix.toNat * 2 % 2 ^ 64 = 0 ↔ ix.toNat % 2 ^ 63 = 0
  omega

/-! ## The tests on `float` -/

theorem notNormalf_iff (ix : Word32) :
    ix - 0x00800000 ≥ 0x7f800000 - 0x00800000 ↔ ix.toNat < 2 ^ 23 ∨ single.infinity ≤ ix.toNat := by
  rw [ge_iff_le, ← BitVec.not_lt, sub_lt_sub_iff (by decide), BitVec.le_def, BitVec.lt_def]
  show ¬ (8388608 ≤ _ ∧ _ < 2139095040) ↔ _ < 2 ^ 23 ∨ 255 * 2 ^ 23 ≤ _
  omega

theorem specialf_iff (ix : Word32) :
    ix &&& 0x80000000 ≠ 0 ∨ ix * 2 ≥ 0xff000000 ↔ single.infinity ≤ ix.toNat := by
  have hsign := and_bit_ne_zero_iff ix (d := 31) (by decide)
  have htwice : ix * 2 ≥ 0xff000000 ↔ 0xff000000 ≤ ix.toNat * 2 % 2 ^ 32 := by
    rw [ge_iff_le, BitVec.le_def, BitVec.toNat_mul]
    rfl
  rw [htwice]
  refine (or_congr_left hsign).trans ?_
  show _ ↔ 255 * 2 ^ 23 ≤ _
  have hlt := ix.isLt
  omega

theorem doubledf_eq_zero_iff (ix : Word32) : ix * 2 = 0 ↔ single.IsZero ix.toNat := by
  rw [← BitVec.toNat_inj, BitVec.toNat_mul]
  show ix.toNat * 2 % 2 ^ 32 = 0 ↔ ix.toNat % 2 ^ 31 = 0
  omega

/-! ## All numbers -/

section Fits

variable {F : Format} {w tableBits : Nat} {topMask off down ix : BitVec w} {tab : List HexFloat}
  {lo hi : ℚ}

theorem fits_normal (hs : Suited F tableBits topMask off down)
    (hnear : Near F (2 ^ (F.fracBits - tableBits)) (1 / 2 ^ (tableBits + 1)) off.toNat tab)
    (hlen : tab.length = 2 ^ tableBits) (hle : 2 ^ F.fracBits ≤ ix.toNat) (hlt : ix.toNat < F.infinity)
    (hone : F.value ix.toNat ≠ 1) (hfar : ¬ (lo ≤ F.value ix.toNat ∧ F.value ix.toNat < hi)) :
    (LogCase.reduced (split F.fracBits tableBits topMask off ix)
      tab[(split F.fracBits tableBits topMask off ix).i]?).Fits F tableBits off.toNat lo hi ix.toNat := by
  have hinf := F.infinity_lt
  have hpos : 0 < 2 ^ F.fracBits := by positivity
  have hof := hs.normal_of hle hlt
  refine ⟨?_, ?_, hone, hfar, hof, hof.exists_invc hnear hlen⟩
  · rw [Format.IsFinite, Format.magnitude_of_lt (by omega)]
    exact hlt
  · rw [Format.value_of_lt (by omega), Format.size_pos]
    omega

theorem fits_subnormal (hs : Suited F tableBits topMask off down)
    (hnear : Near F (2 ^ (F.fracBits - tableBits)) (1 / 2 ^ (tableBits + 1)) off.toNat tab)
    (hlen : tab.length = 2 ^ tableBits) (hne : ix.toNat ≠ 0) (hlt : ix.toNat < 2 ^ F.fracBits)
    (hone : F.value ix.toNat ≠ 1) (hfar : ¬ (lo ≤ F.value ix.toNat ∧ F.value ix.toNat < hi)) :
    (LogCase.reduced (split F.fracBits tableBits topMask off (timesTwoPow F ix - down))
      tab[(split F.fracBits tableBits topMask off (timesTwoPow F ix - down)).i]?).Fits F tableBits
        off.toNat lo hi ix.toNat := by
  have hinf := F.infinity_lt
  have hfinite := hs.finite
  have hmag : F.magnitude ix.toNat = ix.toNat := Format.magnitude_of_lt (by omega)
  have htimes : (timesTwoPow F ix).toNat = F.scaleUp ix.toNat := by
    have hnat := (hs.toNat_timesTwoPow (by rwa [hmag]) (by rwa [hmag])).1
    rw [Format.negative_eq_false (by omega), hmag] at hnat
    simpa using hnat
  have hof := hs.subnormal_of hne hlt htimes
  rw [← Format.value_of_lt (by omega)] at hof
  refine ⟨?_, ?_, hone, hfar, hof, hof.exists_invc hnear hlen⟩
  · rw [Format.IsFinite, Format.magnitude_of_lt (by omega)]
    omega
  · rw [Format.value_of_lt (by omega), Format.size_pos]
    exact hne

/-- The tests that follow when the number is not close to 1, whichever way they are made. -/
theorem fits_rest (hs : Suited F tableBits topMask off down)
    (hnear : Near F (2 ^ (F.fracBits - tableBits)) (1 / 2 ^ (tableBits + 1)) off.toNat tab)
    (hlen : tab.length = 2 ^ tableBits)
    (hfar : ix.toNat < F.infinity →
      F.value ix.toNat ≠ 1 ∧ ¬ (lo ≤ F.value ix.toNat ∧ F.value ix.toNat < hi))
    {notNormal zero same special : Prop} [Decidable notNormal] [Decidable zero] [Decidable same]
    [Decidable special] (hnotNormal : notNormal ↔ ix.toNat < 2 ^ F.fracBits ∨ F.infinity ≤ ix.toNat)
    (hzero : zero ↔ F.IsZero ix.toNat) (hsame : same ↔ ix.toNat = F.infinity)
    (hspecial : special ↔ F.infinity ≤ ix.toNat) :
    (if notNormal then
        if zero then .divzero
        else if same then .same
        else if special then .invalid
        else .reduced (split F.fracBits tableBits topMask off (timesTwoPow F ix - down))
          tab[(split F.fracBits tableBits topMask off (timesTwoPow F ix - down)).i]?
      else .reduced (split F.fracBits tableBits topMask off ix)
        tab[(split F.fracBits tableBits topMask off ix).i]?
      : LogCase w).Fits F tableBits off.toNat lo hi ix.toNat := by
  have hinf := F.infinity_lt
  have hfinite := hs.finite
  split_ifs with hn hz hi hsp
  · exact hzero.mp hz
  · rw [hsame] at hi
    refine ⟨?_, Format.negative_eq_false (by omega)⟩
    rw [Format.IsInf, Format.magnitude_of_lt (by omega), hi]
  · rw [hspecial] at hsp
    rw [hsame] at hi
    rw [hzero] at hz
    rcases Format.isNaN_or_negative (F := F) (n := ix.toNat) (by omega) with hnan | hneg
    · exact .inl hnan
    · exact .inr ⟨hneg, hz⟩
  · rw [hspecial] at hsp
    have hlt : ix.toNat < 2 ^ F.fracBits := by
      rcases hnotNormal.mp hn with hlt | hle
      · exact hlt
      · exact absurd hle hsp
    have hne : ix.toNat ≠ 0 := by
      intro h
      refine hz (hzero.mpr ?_)
      rw [h, Format.IsZero, Format.magnitude, Nat.zero_mod]
    obtain ⟨hone, hnot⟩ := hfar (by omega)
    exact fits_subnormal hs hnear hlen hne hlt hone hnot
  · rw [hnotNormal, not_or] at hn
    obtain ⟨hone, hnot⟩ := hfar (by omega)
    exact fits_normal hs hnear hlen (by omega) (by omega) hone hnot

end Fits

theorem logOf_fits {lo hi : Word} {tableBits : Nat} {tab : List HexFloat}
    (hs : Suited double tableBits (0xfff#64 <<< 52) (0x3fe6000000000000 : Word) (52#64 <<< 52))
    (hnear : Near double (2 ^ (52 - tableBits)) (1 / 2 ^ (tableBits + 1)) 0x3fe6000000000000 tab)
    (hlen : tab.length = 2 ^ tableBits) (hlo : lo.toNat ≤ 0x3ff0000000000000)
    (hone : 0x3ff0000000000000 < hi.toNat) (hhi : hi.toNat ≤ 0x7ff0000000000000) (ix : Word) :
    (logOf lo hi tableBits tab ix).Fits double tableBits 0x3fe6000000000000 (double.value lo.toNat)
      (double.value hi.toNat) ix.toNat := by
  have hrange : ix - lo < hi - lo ↔ lo.toNat ≤ ix.toNat ∧ ix.toNat < hi.toNat :=
    sub_lt_sub_iff (BitVec.le_def.mpr (by omega))
  have hpos : ∀ n : Nat, n ≤ 0x7ff0000000000000 → n < double.signWeight := by
    intro n hn
    show n < 2 ^ 63
    omega
  have heq : ∀ n : Nat, n ≤ 0x7ff0000000000000 → (double.value n = 1 ↔ n = 0x3ff0000000000000) := by
    intro n hn
    rw [← double_one, Format.value_inj (hpos n hn) (hpos _ (by decide))]
  have hinterval : ∀ n : Nat, n ≤ 0x7ff0000000000000 →
      (double.value lo.toNat ≤ double.value n ∧ double.value n < double.value hi.toNat ↔
        lo.toNat ≤ n ∧ n < hi.toNat) := by
    intro n hn
    rw [Format.value_le_value (hpos _ (by omega)) (hpos n hn),
      Format.value_lt_value (hpos n hn) (hpos _ hhi)]
  have hinf : double.infinity = 0x7ff0000000000000 := by decide
  rw [logOf]
  dsimp only
  by_cases hclose : ix - lo < hi - lo
  · rw [if_pos hclose]
    rw [hrange] at hclose
    by_cases hx : ix = 0x3ff0000000000000
    · rw [if_pos hx, hx]
      exact double_one
    · rw [if_neg hx]
      have hvalue := (hinterval ix.toNat (by omega)).mpr hclose
      refine ⟨?_, hvalue.1, hvalue.2, ?_⟩
      · rw [Format.IsFinite, Format.magnitude_of_lt (hpos _ (by omega)), hinf]
        omega
      · rw [Ne, heq _ (by omega)]
        exact fun h => hx (BitVec.toNat_inj.mp h)
  · rw [if_neg hclose]
    rw [hrange] at hclose
    refine fits_rest hs hnear hlen ?_ (notNormal_iff ix) (doubled_eq_zero_iff ix)
      BitVec.toNat_inj.symm (special_iff ix)
    intro h
    rw [hinterval _ (by omega), Ne, heq _ (by omega)]
    omega

theorem logfOf_fits {tab : List HexFloat}
    (hnear : Near single (2 ^ 19) (1 / 2 ^ 5) 0x3f330000 tab) (hlen : tab.length = 2 ^ 4)
    (ix : Word32) : (logfOf tab ix).Fits single 4 0x3f330000 1 1 ix.toNat := by
  have hs : Suited single 4 (0xff800000 : Word32) 0x3f330000 (23#32 <<< 23) :=
    ⟨by decide, by decide, by decide, by decide, by decide, by decide, by decide⟩
  rw [logfOf]
  dsimp only
  by_cases hx : ix = 0x3f800000
  · rw [if_pos hx, hx]
    exact single_one
  · rw [if_neg hx]
    refine fits_rest hs hnear hlen ?_ (notNormalf_iff ix) (doubledf_eq_zero_iff ix)
      BitVec.toNat_inj.symm (specialf_iff ix)
    intro h
    refine ⟨?_, by rintro ⟨hle, hlt⟩; exact absurd hle (not_le.mpr hlt)⟩
    rw [← single_one, Ne, Format.value_inj (lt_trans h single.infinity_lt) (by decide)]
    exact fun h' => hx (BitVec.toNat_inj.mp h')

theorem log_fits (x : Word) :
    (log x).Fits double 7 0x3fe6000000000000 (1 - 1 / 16) (1 + 265 / 4096) x.toNat := by
  have hsuited : Suited double 7 (0xfff#64 <<< 52) (0x3fe6000000000000 : Word) (52#64 <<< 52) :=
    ⟨by decide, by decide, by decide, by decide, by decide, by decide, by decide⟩
  have hlo : double.value 0x3fee000000000000 = 1 - 1 / 16 := by
    rw [double_value_eq (by decide) (by decide)]
    norm_num
  have hhi : double.value 0x3ff1090000000000 = 1 + 265 / 4096 := by
    rw [double_value_eq (by decide) (by decide)]
    norm_num
  rw [← hlo, ← hhi]
  exact logOf_fits hsuited logInvc_near (by decide +kernel) (by decide) (by decide) (by decide) x

theorem log2_fits (x : Word) :
    (log2 x).Fits double 6 0x3fe6000000000000 (1 - 88913 / 2097152) (1 + 46425 / 1048576) x.toNat := by
  have hsuited : Suited double 6 (0xfff#64 <<< 52) (0x3fe6000000000000 : Word) (52#64 <<< 52) :=
    ⟨by decide, by decide, by decide, by decide, by decide, by decide, by decide⟩
  have hlo : double.value 0x3feea4af00000000 = 1 - 88913 / 2097152 := by
    rw [double_value_eq (by decide) (by decide)]
    norm_num
  have hhi : double.value 0x3ff0b55900000000 = 1 + 46425 / 1048576 := by
    rw [double_value_eq (by decide) (by decide)]
    norm_num
  rw [← hlo, ← hhi]
  exact logOf_fits hsuited log2Invc_near (by decide +kernel) (by decide) (by decide) (by decide) x

/-- **What the logarithms are computed from.** Every pattern gets the result its kind asks for. A
positive number that is not close to 1 is `2 ^ k * z` exactly, with `z` in the `i`th interval from
`OFF` to `2 * OFF`, and the table's `invc` for it makes `z * invc - 1` smaller than `1 / (2 * N)`. -/
theorem logarithms_reduce :
    (∀ x, (log x).Fits double 7 0x3fe6000000000000 (1 - 1 / 16) (1 + 265 / 4096) x.toNat) ∧
      (∀ x, (log2 x).Fits double 6 0x3fe6000000000000 (1 - 88913 / 2097152) (1 + 46425 / 1048576)
        x.toNat) ∧
      (∀ x, (logf x).Fits single 4 0x3f330000 1 1 x.toNat) ∧
      ∀ x, (log2f x).Fits single 4 0x3f330000 1 1 x.toNat :=
  ⟨log_fits, log2_fits, logfOf_fits logfInvc_near rfl, logfOf_fits logfInvc_near rfl⟩

end LdbToolchain.Math
