import LdbToolchain.Math.PowHead

/-!
# The head of `log` and of `log2`

Both get `r`, which is close to `z/c - 1`, in one of two ways: with a fused multiply-add, or from the
center `c` of the interval, which the table has in two numbers. Then they add it to the logarithm of
`c` and to the multiple of `k` in two numbers, `hi` and `lo`. The polynomial is left out.
-/

namespace LdbToolchain.Math

open Binary

/-! ## The code -/

/-- `r ~= z/c - 1` -/
def reducedArg (fma : Bool) (z invc chi clo : ℚ) : ℚ :=
  if fma then double.nearest (z * invc + -1)
  else double.nearest (double.nearest (double.nearest (z - chi) - clo) * invc)

structure HiLo where
  r : ℚ
  hi : ℚ
  lo : ℚ

/-- `Ln2lo` -/
def ln2lo : ℚ := double.value 0x3d2ef35793c76730

/-- What `log` does from `r` on: hi + lo = r + log(c) + k*Ln2. -/
def logHiLo (r : ℚ) (k : ℤ) (logc : ℚ) : HiLo :=
  let w := Pow.t1 k logc
  let hi := double.nearest (w + r)
  { r, hi
    lo := double.nearest (double.nearest (double.nearest (w - hi) + r)
      + double.nearest (k * ln2lo)) }

def logHead (fma : Bool) (parts : Parts 64) (invc : HexFloat) : Option HiLo := do
  let logc ← logLogc[parts.i]?
  let chi ← logChi[parts.i]?
  let clo ← logClo[parts.i]?
  let r := reducedArg fma (double.value parts.iz.toNat) invc.val (double.value chi.toNat)
    (double.value clo.toNat)
  return logHiLo r parts.k (double.value logc.toNat)

/-- `InvLn2hi` -/
def invLn2hi : ℚ := double.value 0x3ff7154765200000

/-- `InvLn2lo` -/
def invLn2lo : ℚ := double.value 0x3de705fc2eefa200

/-- `rhi`: without the lower half of the pattern. -/
def upperHalf (r : ℚ) : ℚ :=
  double.value ((BitVec.ofNat 64 (double.round r)) &&& (-1#64 <<< 32)).toNat

/-- `t1` and `t2` of `log2`, which are `r/ln2`. -/
def overLn2 (fma : Bool) (r : ℚ) : ℚ × ℚ :=
  if fma then
    let t1 := double.nearest (r * invLn2hi)
    (t1, double.nearest (double.nearest (r * invLn2lo) + double.nearest (r * invLn2hi + -t1)))
  else
    let rhi := upperHalf r
    let rlo := double.nearest (r - rhi)
    (double.nearest (rhi * invLn2hi),
      double.nearest (double.nearest (rlo * invLn2hi) + double.nearest (r * invLn2lo)))

/-- What `log2` does from `r` on: hi + lo = r/ln2 + log2(c) + k. -/
def log2HiLo (fma : Bool) (r : ℚ) (k : ℤ) (logc : ℚ) : HiLo :=
  let t := overLn2 fma r
  let t3 := double.nearest (k + logc)
  let hi := double.nearest (t3 + t.1)
  { r, hi
    lo := double.nearest (double.nearest (double.nearest (t3 - hi) + t.1) + t.2) }

def log2Head (fma : Bool) (parts : Parts 64) (invc : HexFloat) : Option HiLo := do
  let logc ← log2Logc[parts.i]?
  let chi ← log2Chi[parts.i]?
  let clo ← log2Clo[parts.i]?
  let r := reducedArg fma (double.value parts.iz.toNat) invc.val (double.value chi.toNat)
    (double.value clo.toNat)
  return log2HiLo fma r parts.k (double.value logc.toNat)

/-! ## The error of `r` -/

/-- What is checked of a center: on the grid of the `z` of its interval, a reciprocal of `invc`, and
next to a point of the grid where the difference to `z` lies. `e` is the exponent that bounds `r`. -/
def Centered (e : ℤ) (invc chi clo : ℚ) : Prop :=
  (chi * 2 ^ 53).den = 1 ∧ |(chi + clo) * invc - 1| ≤ 1 / 2 ^ 100 ∧ |clo| ≤ 1 / 2 ^ 53 ∧
    2 / 3 ≤ invc ∧ invc ≤ 3 / 2 ∧
    (1 ≤ invc ∧ |roundEven (clo / 2 ^ (e - 52)) * 2 ^ (e - 52) - clo| ≤ 2 ^ (e - 55) ∨
      |roundEven (clo / 2 ^ (e - 51)) * 2 ^ (e - 51) - clo| ≤ 2 ^ (e - 55))

instance (e : ℤ) (invc chi clo : ℚ) : Decidable (Centered e invc chi clo) :=
  inferInstanceAs (Decidable (_ ∧ _))

section Error

variable {e : ℤ} {z invc chi clo : ℚ}

theorem two_pow_sub (n : Nat) : (2 : ℚ) ^ (e - n) = 2 ^ (e + 1) / 2 ^ (n + 1) := by
  rw [eq_div_iff (by positivity), ← zpow_natCast (2 : ℚ) (n + 1), ← zpow_add₀ two_ne_zero]
  congr 1
  push_cast
  ring

/-- A point of the grid that is close to `clo` bounds the error that `clo` makes. -/
theorem abs_sub_clo_le {p : ℤ} {d δ : ℚ} (hgrid : OnGrid (-53) d) (hp : p ≤ -53) (hlow : -1074 ≤ p)
    (hlt : |d - clo| < 2 ^ (p + 53)) (hclo : |roundEven (clo / 2 ^ p) * 2 ^ p - clo| ≤ δ) :
    |double.nearest (d - clo) - (d - clo)| ≤ δ := by
  have hplace : double.place (d - clo) ≤ p := by
    have hexp : p + 53 = p + 52 + 1 := by ring
    rw [hexp] at hlt
    have hle := Format.place_le (F := double) hlt (show (1 - (1023 : Nat) : ℤ) ≤ p + 52 by omega)
    have hfrac : (p + 52 - double.fracBits : ℤ) = p := add_sub_cancel_right p 52
    rwa [hfrac] at hle
  have hpoint : OnGrid p (d - roundEven (clo / 2 ^ p) * 2 ^ p) := (hgrid.mono hp).sub ⟨_, rfl⟩
  have hfin : |d - clo| ≤ 2 ^ (double.bias : ℤ) := by
    refine Pow.le_bias (n := 0) (hlt.le.trans ?_) (by decide)
    rw [pow_zero, ← zpow_zero (2 : ℚ)]
    exact (zpow_le_zpow_iff_right₀ one_lt_two).mpr (by omega)
  refine (Format.abs_nearest_sub_le_of_onGrid (by decide) (by decide) hfin (hpoint.mono hplace)).trans ?_
  rw [sub_sub_sub_cancel_left, abs_sub_comm]
  exact hclo

variable (he : e = -9 ∨ e = -8) (hz : OnGrid (-53) z)
  (hnear : |z * invc - 1| < 1023 / 1024 * 2 ^ (e + 1))

include he in
theorem exponent_bounds : (1 : ℚ) / 256 ≤ 2 ^ (e + 1) ∧ (2 : ℚ) ^ (e + 1) ≤ 1 / 128 := by
  rcases he with rfl | rfl
  · norm_num
  · norm_num

include he in
/-- The last rounding. -/
theorem abs_nearest_sub_le_half {q : ℚ} (hlt : |q| < 2 ^ (e + 1)) :
    |double.nearest q - q| ≤ 2 ^ (e + 1) / 2 ^ 54 := by
  obtain ⟨-, hbound⟩ := exponent_bounds he
  have hround := Format.abs_nearest_sub_le (F := double) (by decide) (by decide)
    (Pow.le_bias (n := 0) (hlt.le.trans (hbound.trans (by norm_num))) (by decide)) hlt
    (show (1 - (1023 : Nat) : ℤ) ≤ e by omega)
  have hulp : (2 : ℚ) ^ (e - double.fracBits : ℤ) = 2 ^ (e + 1) / 2 ^ 53 := two_pow_sub 52
  rw [hulp] at hround
  exact hround.trans_eq (by ring)

include hnear in
/-- The difference to the center. -/
theorem abs_sub_chi_mul_le (hcenter : |(chi + clo) * invc - 1| ≤ 1 / 2 ^ 100) (hclo : |clo| ≤ 1 / 2 ^ 53)
    (hpos : 0 < invc) (hle : invc ≤ 3 / 2) :
    |z - chi| * invc ≤ 1023 / 1024 * 2 ^ (e + 1) + 1 / 2 ^ 50 := by
  have hsplit : (z - chi) * invc = z * invc - 1 - ((chi + clo) * invc - 1) + clo * invc := by ring
  have hsmall : |clo * invc| ≤ 1 / 2 ^ 53 * (3 / 2) := by
    rw [abs_mul, abs_of_pos hpos]
    exact mul_le_mul hclo hle hpos.le (by norm_num)
  have hadd := abs_add_le (z * invc - 1 - ((chi + clo) * invc - 1)) (clo * invc)
  have hsub := abs_sub (z * invc - 1) ((chi + clo) * invc - 1)
  have hmul : |z - chi| * invc = |(z - chi) * invc| := by rw [abs_mul, abs_of_pos hpos]
  rw [hmul, hsplit]
  linarith

include he hz hnear in
/-- From the center: the first difference is exact, and the second has next to no error. -/
theorem abs_center_sub_le (hc : Centered e invc chi clo) :
    double.nearest (z - chi) = z - chi ∧
      |double.nearest (z - chi - clo) - (z - chi - clo)| ≤ 2 ^ (e + 1) / 2 ^ 56 := by
  obtain ⟨hchi, hcenter, hclo, hlow, hhigh, hpoint⟩ := hc
  have hpos : 0 < invc := by linarith
  obtain ⟨hmin, hmax⟩ := exponent_bounds he
  have hgrid : OnGrid (-53) (z - chi) := hz.sub (Pow.onGrid_of_den hchi)
  have hdist := abs_sub_chi_mul_le hnear hcenter hclo hpos hhigh
  have hnonneg := abs_nonneg (z - chi)
  have hfar : |z - chi| * (2 / 3) ≤ |z - chi| * invc := mul_le_mul_of_nonneg_left hlow hnonneg
  have hδ : (2 : ℚ) ^ (e - 55) = 2 ^ (e + 1) / 2 ^ 56 := two_pow_sub 55
  have htriangle := abs_sub (z - chi) clo
  refine ⟨Pow.nearest_eq hgrid ?_ (by norm_num) (by norm_num), ?_⟩
  · norm_num
    linarith
  rw [hδ] at hpoint
  rcases hpoint with ⟨hone, hpoint⟩ | hpoint
  · have hclose : |z - chi| * 1 ≤ |z - chi| * invc := mul_le_mul_of_nonneg_left hone hnonneg
    have hexp : e - 52 + 53 = e + 1 := by ring
    refine abs_sub_clo_le (p := e - 52) hgrid (by omega) (by omega) ?_ hpoint
    rw [hexp]
    linarith
  · have hexp : e - 51 + 53 = e + 1 + 1 := by ring
    refine abs_sub_clo_le (p := e - 51) hgrid (by omega) (by omega) ?_ hpoint
    rw [hexp, zpow_add_one₀ two_ne_zero]
    linarith

include he hz hnear in
/-- With a fused multiply-add `r` is off by half of the last place it can have, and without one by no
more than three quarters. -/
theorem reducedArg_close (hc : Centered e invc chi clo) (fma : Bool) :
    |reducedArg fma z invc chi clo - (z * invc - 1)| ≤ (if fma then 2 else 3) * 2 ^ (e + 1) / 2 ^ 55 ∧
      |reducedArg fma z invc chi clo| < 2 ^ (e + 1) ∧
      double.nearest (reducedArg fma z invc chi clo) = reducedArg fma z invc chi clo := by
  obtain ⟨hmin, hmax⟩ := exponent_bounds he
  obtain ⟨q, hr, hclose⟩ : ∃ q, reducedArg fma z invc chi clo = double.nearest q ∧
      |q - (z * invc - 1)| ≤ (if fma then 0 else 1) * 2 ^ (e + 1) / 2 ^ 55 := by
    cases fma with
    | true =>
      refine ⟨z * invc - 1, by rw [reducedArg, if_pos rfl, ← sub_eq_add_neg], ?_⟩
      rw [sub_self, abs_zero, if_pos rfl, zero_mul, zero_div]
    | false =>
      obtain ⟨hexact, herror⟩ := abs_center_sub_le he hz hnear hc
      obtain ⟨-, hcenter, -, hlow, hhigh, -⟩ := hc
      have hpos : 0 < invc := by linarith
      refine ⟨double.nearest (z - chi - clo) * invc, by rw [reducedArg, if_neg Bool.false_ne_true, hexact], ?_⟩
      have hsplit : double.nearest (z - chi - clo) * invc - (z * invc - 1)
          = (double.nearest (z - chi - clo) - (z - chi - clo)) * invc - ((chi + clo) * invc - 1) := by
        ring
      have hmul : |(double.nearest (z - chi - clo) - (z - chi - clo)) * invc|
          ≤ 2 ^ (e + 1) / 2 ^ 56 * (3 / 2) := by
        rw [abs_mul, abs_of_pos hpos]
        exact mul_le_mul herror hhigh hpos.le (by positivity)
      have hsub := abs_sub ((double.nearest (z - chi - clo) - (z - chi - clo)) * invc)
        ((chi + clo) * invc - 1)
      rw [hsplit, if_neg Bool.false_ne_true, one_mul]
      linarith
  have hle : (if fma then 0 else 1 : ℚ) * 2 ^ (e + 1) / 2 ^ 55 ≤ 2 ^ (e + 1) / 2 ^ 55 := by
    cases fma with
    | true =>
      rw [if_pos rfl, zero_mul, zero_div]
      positivity
    | false => rw [if_neg Bool.false_ne_true, one_mul]
  have hsum : (if fma then 2 else 3 : ℚ) * 2 ^ (e + 1) / 2 ^ 55
      = (if fma then 0 else 1) * 2 ^ (e + 1) / 2 ^ 55 + 2 ^ (e + 1) / 2 ^ 54 := by
    cases fma with
    | true =>
      rw [if_pos rfl, if_pos rfl]
      ring
    | false =>
      rw [if_neg Bool.false_ne_true, if_neg Bool.false_ne_true]
      ring
  have hq := abs_sub_abs_le_abs_sub q (z * invc - 1)
  have hqlt : |q| < 2 ^ (e + 1) := by linarith
  have hround := abs_nearest_sub_le_half he hqlt
  have htriangle := abs_sub_le (double.nearest q) q (z * invc - 1)
  have hback := abs_sub_abs_le_abs_sub (double.nearest q) q
  rw [hr, hsum]
  refine ⟨by linarith, by linarith, ?_⟩
  exact Format.nearest_nearest (by decide) (by decide)
    (Pow.le_bias (n := 0) (hqlt.le.trans (hmax.trans (by norm_num))) (by decide))

end Error

/-! ## The entries -/

/-- What is checked of an entry: its logarithm has few digits, and is not small but for the intervals
that the code for numbers close to 1 covers. -/
def LogEntry (e : ℤ) (digits step : Nat) (lo hi bound : ℚ) (i : Nat) :
    Option HexFloat → Option Word → Option Word → Option Word → Prop
  | some c, some l, some chi, some clo =>
    Centered e c.val (double.value chi.toNat) (double.value clo.toNat) ∧
      (double.value l.toNat * 2 ^ digits).den = 1 ∧ |double.value l.toNat| ≤ bound ∧
      (1 / 32 ≤ |double.value l.toNat| ∨ lo ≤ double.value (0x3fe6000000000000 + i * step) ∧
        double.value (0x3fe6000000000000 + (i + 1) * step) ≤ hi)
  | _, _, _, _ => False

instance (e : ℤ) (digits step : Nat) (lo hi bound : ℚ) (i : Nat) :
    (c : Option HexFloat) → (l chi clo : Option Word) →
      Decidable (LogEntry e digits step lo hi bound i c l chi clo)
  | some _, some _, some _, some _ => inferInstanceAs (Decidable (_ ∧ _))
  | some _, some _, some _, none => .isFalse id
  | some _, some _, none, _ => .isFalse id
  | some _, none, _, _ => .isFalse id
  | none, _, _, _ => .isFalse id

theorem log_entries : ∀ i < 128, LogEntry (-9) 43 (2 ^ 45) (1 - 1 / 16) (1 + 265 / 4096) (1 / 2) i
    logInvc[i]? logLogc[i]? logChi[i]? logClo[i]? := by
  decide +kernel

theorem log2_entries : ∀ i < 64, LogEntry (-8) 42 (2 ^ 46) (1 - 88913 / 2097152) (1 + 46425 / 1048576)
    (5 / 8) i log2Invc[i]? log2Logc[i]? log2Chi[i]? log2Clo[i]? := by
  decide +kernel

theorem logInvc_nearer : Near double (2 ^ 45) (1023 / 1024 * 2 ^ (-9 + 1 : ℤ)) 0x3fe6000000000000 logInvc := by
  decide +kernel

theorem log2Invc_nearer :
    Near double (2 ^ 46) (1023 / 1024 * 2 ^ (-8 + 1 : ℤ)) 0x3fe6000000000000 log2Invc := by
  decide +kernel

theorem logOf_table {lo hi ix : Word} {tableBits : Nat} {tab : List HexFloat} {parts : Parts 64}
    {invc : Option HexFloat} (h : logOf lo hi tableBits tab ix = .reduced parts invc) :
    invc = tab[parts.i]? := by
  rw [logOf] at h
  dsimp only at h
  split_ifs at h
  · obtain ⟨hparts, htab⟩ := LogCase.reduced.inj h
    rw [← htab, ← hparts]
  · obtain ⟨hparts, htab⟩ := LogCase.reduced.inj h
    rw [← htab, ← hparts]

theorem logOff_eq : double.value 0x3fe6000000000000 = 11 / 16 := by
  rw [double_value_eq (by decide) (by decide)]
  norm_num

/-- Numbers from 1/2 on have no digits below `2 ^ -53`. -/
theorem onGrid_value {n : Nat} (h : (2 : ℚ) ^ (-1 : ℤ) ≤ |double.value n|) :
    OnGrid (-53) (double.value n) := by
  have hhalf : (2 : ℚ) ^ (-1 : ℤ) = 2 ^ ((1022 : Nat) - double.bias : ℤ) := by
    norm_num [double, Format.bias]
  rw [hhalf, Format.two_pow_le_abs_value (by decide)] at h
  have hexp : 1022 ≤ double.magnitude n / 2 ^ 52 := h
  have hsize : OnGrid (-53) (double.size (double.magnitude n)) := by
    have hmul := Format.size_eq_mul (F := double) (e := double.magnitude n / 2 ^ 52)
      (f := double.magnitude n % 2 ^ 52) (by omega) (Nat.mod_lt _ (by decide)).le
    have hsplit : double.magnitude n / 2 ^ 52 * 2 ^ double.fracBits + double.magnitude n % 2 ^ 52
        = double.magnitude n := Nat.div_add_mod' _ _
    rw [hsplit] at hmul
    rw [hmul]
    refine OnGrid.mono ⟨_, rfl⟩ ?_
    show (-53 : ℤ) ≤ (double.magnitude n / 2 ^ 52 : Nat) - (1023 : Nat) - (52 : Nat)
    omega
  rw [Format.value]
  split
  · exact hsize.neg
  · exact hsize

section Reduced

variable {x : Word} {tableBits : Nat} {lo hi bound : ℚ} {digits : Nat} {parts : Parts 64} {e : ℤ}
  {c : HexFloat} {l chi clo : Option Word}

/-- What the cases of the logarithms, the table and the checks say together. -/
theorem reduced_entry (hfits : (LogCase.reduced parts (some c)).Fits double tableBits 0x3fe6000000000000
    lo hi x.toNat)
    (hentry : LogEntry e digits (2 ^ (52 - tableBits)) lo hi bound parts.i (some c) l chi clo) :
    ∃ logc h₁ h₂, l = some logc ∧ chi = some h₁ ∧ clo = some h₂ ∧
      Centered e c.val (double.value h₁.toNat) (double.value h₂.toNat) ∧
      OnGrid (-53) (double.value parts.iz.toNat) ∧ |parts.k| ≤ 1075 ∧
      OnGrid (-digits) (double.value logc.toNat) ∧ |double.value logc.toNat| ≤ bound ∧
      (parts.k = 0 → 1 / 32 ≤ |double.value logc.toNat|) := by
  obtain ⟨hfinite, hpos, -, hnot, hof, -⟩ := hfits
  rcases l with _ | logc
  · exact hentry.elim
  rcases chi with _ | h₁
  · exact hentry.elim
  rcases clo with _ | h₂
  · exact hentry.elim
  obtain ⟨hcentered, hgrid, hbound, hsmall⟩ := hentry
  have hoff : (2 : ℚ) ^ (-1 : ℤ) ≤ double.value 0x3fe6000000000000 := by
    rw [logOff_eq]
    norm_num
  have hoff' : 2 * double.value 0x3fe6000000000000 ≤ (2 : ℚ) ^ (1 : ℤ) := by
    rw [logOff_eq]
    norm_num
  have habs : parts.Of double tableBits 0x3fe6000000000000 |double.value x.toNat| := by
    rwa [abs_of_pos hpos]
  have hne : ¬ double.IsZero x.toNat := fun hzero => hpos.ne' (Format.value_eq_zero_iff.mpr hzero)
  have hk : |parts.k| ≤ 1075 := Pow.abs_k_le ⟨hfinite, hne⟩ habs hoff hoff'
  refine ⟨logc, h₁, h₂, rfl, rfl, rfl, hcentered, ?_, hk, Pow.onGrid_of_den hgrid, hbound, ?_⟩
  · exact onGrid_value ((hoff.trans hof.off_le).trans (le_abs_self _))
  · intro hk0
    rcases hsmall with hlarge | ⟨hlo, hhi⟩
    · exact hlarge
    · -- Such a number has its own code.
      have hvalue : double.value x.toNat = double.value parts.iz.toNat := by
        rw [hof.exact, hk0, zpow_zero, one_mul]
      rw [hvalue] at hnot
      exact absurd ⟨hlo.trans hof.interval_le, hof.lt_interval.trans_le hhi⟩ hnot

end Reduced

/-! ## The sums -/

theorem logHiLo_exact {k : ℤ} {logc r : ℚ} (hk : |k| ≤ 1075) (hgrid : OnGrid (-43) logc)
    (hle : |logc| ≤ 1 / 2) (hzero : k = 0 → 1 / 32 ≤ |logc|) (hself : double.nearest r = r)
    (hlt : |r| < 1 / 2 ^ 8) :
    Pow.t1 k logc = k * Pow.ln2hi + logc ∧ ∃ lost,
      (logHiLo r k logc).hi + lost = k * Pow.ln2hi + logc + r ∧
      (logHiLo r k logc).lo = double.nearest (lost + double.nearest (k * ln2lo)) := by
  obtain ⟨hw, hleading⟩ : Pow.t1 k logc = k * Pow.ln2hi + logc ∧ Pow.Leading (k * Pow.ln2hi + logc) 2 :=
    Pow.leading_of hk hgrid hle fun hk0 => .inr (le_trans (by norm_num) (hzero hk0))
  have hdominates : k * Pow.ln2hi + logc = 0 ∨ |r| ≤ |k * Pow.ln2hi + logc| := by
    rcases hleading.dominates with ⟨h0, -⟩ | hlarge
    · exact .inl h0
    · exact .inr (hlt.le.trans (le_trans (by norm_num) hlarge))
  have hsum := Pow.sum_exact hleading.nearest hself (hleading.le.trans (by norm_num))
    (hlt.le.trans (by norm_num)) hdominates
  rw [logHiLo, hw]
  exact ⟨rfl, _, hsum, rfl⟩

/-- **The head of `log`.** Whenever `log` gets to its polynomial, `r` is `z * invc - 1` but for the
error 0x1p-55/N of one rounding, or one and a half times as much without a fused multiply-add, and
smaller than 1/(2*N). The sum k*Ln2hi + logc has no rounding error, and what `hi` has lost of the sum
with `r` goes to `lo`. -/
theorem log_sum_exact {x : Word} {parts : Parts 64} {invc : HexFloat}
    (hlog : log x = .reduced parts (some invc)) (fma : Bool) :
    ∃ logc head lost, logLogc[parts.i]? = some logc ∧ logHead fma parts invc = some head ∧
      |head.r - (double.value parts.iz.toNat * invc.val - 1)| ≤ (if fma then 1 / 2 ^ 62 else 3 / 2 ^ 63) ∧
      |head.r| < 1 / 2 ^ 8 ∧
      Pow.t1 parts.k (double.value logc.toNat) = parts.k * Pow.ln2hi + double.value logc.toNat ∧
      head.hi + lost = parts.k * Pow.ln2hi + double.value logc.toNat + head.r ∧
      head.lo = double.nearest (lost + double.nearest (parts.k * ln2lo)) := by
  have hfits := log_fits x
  have hinvc := logOf_table (h := hlog)
  rw [hlog] at hfits
  have hindex : parts.i < 128 := hfits.2.2.2.2.1.index
  have hentry := log_entries parts.i hindex
  rw [← hinvc] at hentry
  obtain ⟨logc, h₁, h₂, hlogc, hchi, hclo, hcentered, hz, hk, hgrid, hbound, hzero⟩ :=
    reduced_entry hfits hentry
  obtain ⟨-, -, -, -, hof, -⟩ := hfits
  have hnear := logInvc_nearer.of_interval hinvc.symm invc.val_nonneg hof.interval_le hof.lt_interval
  obtain ⟨hclose, hlt, hself⟩ := reducedArg_close (.inl rfl) hz hnear hcentered fma
  have hunit : (2 : ℚ) ^ (-9 + 1 : ℤ) = 1 / 2 ^ 8 := by norm_num
  rw [hunit] at hclose hlt
  generalize hr : reducedArg fma (double.value parts.iz.toNat) invc.val (double.value h₁.toNat)
    (double.value h₂.toNat) = r at hclose hlt hself
  obtain ⟨hw, lost, hhi, hlo⟩ := logHiLo_exact hk hgrid hbound hzero hself hlt
  refine ⟨logc, logHiLo r parts.k (double.value logc.toNat), lost, hlogc, ?_,
    hclose.trans_eq (by split <;> norm_num), hlt, hw, hhi, hlo⟩
  rw [logHead, hlogc, hchi, hclo, ← hr]
  rfl

theorem log_sum_exact_oneAndHalf :
    ∃ logc head lost, logLogc[16]? = some logc ∧
      logHead false ⟨1, 16, 0x3fe8000000000000⟩ ⟨0x154725e2a77f93, 0⟩ = some head ∧ |head.r| < 1 / 2 ^ 8 ∧
      head.hi + lost = (1 : ℤ) * Pow.ln2hi + double.value logc.toNat + head.r := by
  have hlog : log 0x3ff8000000000000
      = .reduced ⟨1, 16, 0x3fe8000000000000⟩ (some ⟨0x154725e2a77f93, 0⟩) := rfl
  obtain ⟨logc, head, lost, hlogc, hhead, -, hsmall, -, hsum, -⟩ := log_sum_exact hlog false
  exact ⟨logc, head, lost, hlogc, hhead, hsmall, hsum⟩

theorem abs_upperHalf_le (r : ℚ) : |upperHalf r| ≤ |double.nearest r| := by
  rw [upperHalf, Format.nearest, Format.abs_value, Format.abs_value]
  refine Format.size_strictMono.monotone ?_
  rw [Pow.toNat_and_upper, BitVec.toNat_ofNat]
  show _ % 2 ^ 63 ≤ double.round r % 2 ^ 63
  omega

/-- The first part of `r/ln2`. -/
theorem overLn2_small {r : ℚ} (hself : double.nearest r = r) (hlt : |r| < 1 / 2 ^ 7) (fma : Bool) :
    |(overLn2 fma r).1| ≤ 1 / 64 ∧ double.nearest (overLn2 fma r).1 = (overLn2 fma r).1 := by
  have hvalue : invLn2hi = 3098164009 / 2 ^ 31 := by
    rw [invLn2hi, double_value_eq (by decide) (by decide)]
    norm_num
  obtain ⟨q, hq, hle⟩ : ∃ q, (overLn2 fma r).1 = double.nearest (q * invLn2hi) ∧ |q| ≤ |r| := by
    cases fma with
    | true => exact ⟨r, rfl, le_rfl⟩
    | false => exact ⟨upperHalf r, rfl, (abs_upperHalf_le r).trans_eq (by rw [hself])⟩
  have hprod : |q * invLn2hi| < 2 ^ (-7 + 1 : ℤ) := by
    rw [abs_mul, hvalue, abs_of_pos (by norm_num : (0 : ℚ) < 3098164009 / 2 ^ 31)]
    norm_num
    linarith
  have hfin : |q * invLn2hi| ≤ 2 ^ (double.bias : ℤ) :=
    Pow.le_bias (n := 0) (hprod.le.trans (by norm_num)) (by decide)
  have hround := Format.abs_nearest_sub_le (F := double) (by decide) (by decide) hfin hprod (by decide)
  have hulp : (2 : ℚ) ^ (-7 - double.fracBits : ℤ) / 2 = 1 / 2 ^ 60 := by norm_num [double]
  have hback := abs_sub_abs_le_abs_sub (double.nearest (q * invLn2hi)) (q * invLn2hi)
  have hthin : |q * invLn2hi| ≤ 1 / 2 ^ 7 * (3 / 2) := by
    rw [abs_mul, hvalue, abs_of_pos (by norm_num : (0 : ℚ) < 3098164009 / 2 ^ 31)]
    exact mul_le_mul (hle.trans hlt.le) (by norm_num) (by norm_num) (by norm_num)
  rw [hulp] at hround
  rw [hq]
  refine ⟨?_, Format.nearest_nearest (by decide) (by decide) hfin⟩
  linarith

/-- `t3` is exact, and not small. -/
theorem t3_exact {k : ℤ} {logc : ℚ} (hk : |k| ≤ 1075) (hgrid : OnGrid (-42) logc) (hle : |logc| ≤ 5 / 8)
    (hzero : k = 0 → 1 / 32 ≤ |logc|) :
    double.nearest (k + logc) = k + logc ∧ |(k + logc : ℚ)| ≤ 2 ^ 11 ∧ 1 / 32 ≤ |(k + logc : ℚ)| := by
  have hk' : |(k : ℚ)| ≤ 1075 := by exact_mod_cast hk
  have hint : OnGrid 0 (k : ℚ) := ⟨k, by rw [zpow_zero, mul_one]⟩
  have htriangle := abs_add_le (k : ℚ) logc
  have hbound : |(k + logc : ℚ)| ≤ 2 ^ 11 := by linarith
  refine ⟨Pow.nearest_eq ((hint.mono (by decide)).add hgrid) (hbound.trans (by norm_num)) (by decide)
    (by decide), hbound, ?_⟩
  by_cases hk0 : k = 0
  · rw [hk0, Int.cast_zero, zero_add]
    exact hzero hk0
  · have hone : (1 : ℚ) ≤ |(k : ℚ)| := by exact_mod_cast Int.one_le_abs hk0
    have hback := abs_sub_abs_le_abs_sub (k : ℚ) (-logc)
    rw [abs_neg, sub_neg_eq_add] at hback
    linarith

theorem log2HiLo_exact {k : ℤ} {logc r : ℚ} (hk : |k| ≤ 1075) (hgrid : OnGrid (-42) logc)
    (hle : |logc| ≤ 5 / 8) (hzero : k = 0 → 1 / 32 ≤ |logc|) (hself : double.nearest r = r)
    (hlt : |r| < 1 / 2 ^ 7) (fma : Bool) :
    double.nearest (k + logc) = k + logc ∧ ∃ lost,
      (log2HiLo fma r k logc).hi + lost = k + logc + (overLn2 fma r).1 ∧
      (log2HiLo fma r k logc).lo = double.nearest (lost + (overLn2 fma r).2) := by
  obtain ⟨ht1, ht1self⟩ := overLn2_small hself hlt fma
  obtain ⟨ht3, hfin, hlarge⟩ := t3_exact hk hgrid hle hzero
  have hsum := Pow.sum_exact ht3 ht1self hfin (ht1.trans (by norm_num))
    (.inr ((ht1.trans (by norm_num)).trans hlarge))
  rw [log2HiLo, ht3]
  exact ⟨rfl, _, hsum, rfl⟩

/-- **The head of `log2`.** The same for `log2`, where the sum is that of `t3`, which has no rounding
error, with the first part of `r/ln2`. -/
theorem log2_sum_exact {x : Word} {parts : Parts 64} {invc : HexFloat}
    (hlog : log2 x = .reduced parts (some invc)) (fma : Bool) :
    ∃ logc head lost, log2Logc[parts.i]? = some logc ∧ log2Head fma parts invc = some head ∧
      |head.r - (double.value parts.iz.toNat * invc.val - 1)| ≤ (if fma then 1 / 2 ^ 61 else 3 / 2 ^ 62) ∧
      |head.r| < 1 / 2 ^ 7 ∧
      double.nearest (parts.k + double.value logc.toNat) = parts.k + double.value logc.toNat ∧
      head.hi + lost = parts.k + double.value logc.toNat + (overLn2 fma head.r).1 ∧
      head.lo = double.nearest (lost + (overLn2 fma head.r).2) := by
  have hfits := log2_fits x
  have hinvc := logOf_table (h := hlog)
  rw [hlog] at hfits
  have hindex : parts.i < 64 := hfits.2.2.2.2.1.index
  have hentry := log2_entries parts.i hindex
  rw [← hinvc] at hentry
  obtain ⟨logc, h₁, h₂, hlogc, hchi, hclo, hcentered, hz, hk, hgrid, hbound, hzero⟩ :=
    reduced_entry hfits hentry
  obtain ⟨-, -, -, -, hof, -⟩ := hfits
  have hnear := log2Invc_nearer.of_interval hinvc.symm invc.val_nonneg hof.interval_le hof.lt_interval
  obtain ⟨hclose, hlt, hself⟩ := reducedArg_close (.inr rfl) hz hnear hcentered fma
  have hunit : (2 : ℚ) ^ (-8 + 1 : ℤ) = 1 / 2 ^ 7 := by norm_num
  rw [hunit] at hclose hlt
  generalize hr : reducedArg fma (double.value parts.iz.toNat) invc.val (double.value h₁.toNat)
    (double.value h₂.toNat) = r at hclose hlt hself
  obtain ⟨ht3, lost, hhi, hlo⟩ := log2HiLo_exact hk hgrid hbound hzero hself hlt fma
  refine ⟨logc, log2HiLo fma r parts.k (double.value logc.toNat), lost, hlogc, ?_,
    hclose.trans_eq (by split <;> norm_num), hlt, ht3, hhi, hlo⟩
  rw [log2Head, hlogc, hchi, hclo, ← hr]
  rfl

theorem log2_sum_exact_oneAndHalf :
    ∃ logc head lost, log2Logc[8]? = some logc ∧
      log2Head false ⟨1, 8, 0x3fe8000000000000⟩ ⟨0x153909590bf835, 0⟩ = some head ∧ |head.r| < 1 / 2 ^ 7 ∧
      head.hi + lost = (1 : ℤ) + double.value logc.toNat + (overLn2 false head.r).1 := by
  have hlog : log2 0x3ff8000000000000
      = .reduced ⟨1, 8, 0x3fe8000000000000⟩ (some ⟨0x153909590bf835, 0⟩) := rfl
  obtain ⟨logc, head, lost, hlogc, hhead, -, hsmall, -, hsum, -⟩ := log2_sum_exact hlog false
  exact ⟨logc, head, lost, hlogc, hhead, hsmall, hsum⟩

end LdbToolchain.Math
