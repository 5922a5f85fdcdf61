import LdbToolchain.Math.Reduction

/-!
# The tables of the logarithms

The columns `invc` of the tables: each holds a reciprocal of a number near the middle of its
interval. What is written about them next to the code, that `z * invc` is near 1, is checked once
for each interval (`Near`), and holds of every `z` then (`Near.of_interval`). Beside them are the
logarithms of these numbers and, for `log` and `log2`, the numbers themselves in two parts.
-/

namespace LdbToolchain.Math

open Binary

/-- `0x1.ddddddddddddd` with thirteen hexadecimal digits, times `2 ^ exp`. -/
structure HexFloat where
  digits : Nat
  exp : Int

def HexFloat.val (c : HexFloat) : ℚ := c.digits * 2 ^ (c.exp - 52)

/-! ## Near the middle -/

/-- The intervals of `step` patterns from `n` on: at both ends of each, the product with its number
is nearer to 1 than `bound`. -/
def Near (F : Format) (step : Nat) (bound : ℚ) : Nat → List HexFloat → Prop
  | _, [] => True
  | n, c :: T => (1 - bound < F.value n * c.val ∧ F.value (n + step) * c.val < 1 + bound) ∧
      Near F step bound (n + step) T

instance Near.decide (F : Format) (step : Nat) (bound : ℚ) :
    (n : Nat) → (T : List HexFloat) → Decidable (Near F step bound n T)
  | _, [] => .isTrue trivial
  | n, _ :: T => @instDecidableAnd _ _ inferInstance (Near.decide F step bound (n + step) T)

variable {F : Format} {step n : Nat} {bound : ℚ} {T : List HexFloat}

theorem Near.getElem (h : Near F step bound n T) {i : Nat} {c : HexFloat} (hc : T[i]? = some c) :
    1 - bound < F.value (n + i * step) * c.val ∧ F.value (n + (i + 1) * step) * c.val < 1 + bound := by
  induction T generalizing n i with
  | nil => simp at hc
  | cons c' T ih =>
      cases i with
      | zero =>
          cases hc
          simpa using h.1
      | succ i =>
          have hnext := ih h.2 (i := i) hc
          have hlow : n + step + i * step = n + (i + 1) * step := by ring
          have hhigh : n + step + (i + 1) * step = n + (i + 1 + 1) * step := by ring
          rwa [hlow, hhigh] at hnext

/-- Between the ends the product is as near. -/
theorem Near.of_interval (h : Near F step bound n T) {i : Nat} {c : HexFloat} (hc : T[i]? = some c)
    (hpos : 0 ≤ c.val) {z : ℚ} (hle : F.value (n + i * step) ≤ z)
    (hlt : z < F.value (n + (i + 1) * step)) : |z * c.val - 1| < bound := by
  obtain ⟨hlow, hhigh⟩ := h.getElem hc
  have hz := mul_le_mul_of_nonneg_right hle hpos
  have hz' := mul_le_mul_of_nonneg_right hlt.le hpos
  rw [abs_lt]
  constructor
  · linarith
  · linarith

theorem HexFloat.val_nonneg (c : HexFloat) : 0 ≤ c.val := by
  unfold HexFloat.val
  positivity

/-- What the table has for a number that was taken apart. -/
theorem Parts.Of.exists_invc {F : Format} {w tableBits off : Nat} {v : ℚ} {r : Parts w}
    {bound : ℚ} {tab : List HexFloat} (h : r.Of F tableBits off v)
    (hnear : Near F (2 ^ (F.fracBits - tableBits)) bound off tab) (hlen : tab.length = 2 ^ tableBits) :
    ∃ c, tab[r.i]? = some c ∧ |F.value r.iz.toNat * c.val - 1| < bound := by
  obtain ⟨c, hc⟩ : ∃ c, tab[r.i]? = some c := by
    have hlt : r.i < tab.length := by
      rw [hlen]
      exact h.index
    exact ⟨tab[r.i], List.getElem?_eq_getElem hlt⟩
  exact ⟨c, hc, hnear.of_interval hc c.val_nonneg h.interval_le h.lt_interval⟩

/-! ## The tables -/

/-- `log_data.c` -/
def logInvc : List HexFloat := [
  ⟨0x1734f0c3e0de9f, 0⟩, ⟨0x1713786a2ce91f, 0⟩, ⟨0x16f26008fab5a0, 0⟩, ⟨0x16d1a61f138c7d, 0⟩,
  ⟨0x16b1490bc5b4d1, 0⟩, ⟨0x169147332f0cba, 0⟩, ⟨0x16719f18224223, 0⟩, ⟨0x16524f99a51ed9, 0⟩,
  ⟨0x163356aa8f24c4, 0⟩, ⟨0x1614b36b9ddc14, 0⟩, ⟨0x15f66452c65c4c, 0⟩, ⟨0x15d867b5912c4f, 0⟩,
  ⟨0x15babccb5b90de, 0⟩, ⟨0x159d61f2d91a78, 0⟩, ⟨0x15805612465687, 0⟩, ⟨0x156397cee76bd3, 0⟩,
  ⟨0x154725e2a77f93, 0⟩, ⟨0x152aff42064583, 0⟩, ⟨0x150f22dbb2bddf, 0⟩, ⟨0x14f38f4734ded7, 0⟩,
  ⟨0x14d843cfde2840, 0⟩, ⟨0x14bd3ec078a3c8, 0⟩, ⟨0x14a27fc3e0258a, 0⟩, ⟨0x14880524d48434, 0⟩,
  ⟨0x146dce1b192d0b, 0⟩, ⟨0x1453d9d3391854, 0⟩, ⟨0x143a2744b4845a, 0⟩, ⟨0x1420b54115f8fb, 0⟩,
  ⟨0x140782da3ef4b1, 0⟩, ⟨0x13ee8f5d57fe8f, 0⟩, ⟨0x13d5d9a00b4ce9, 0⟩, ⟨0x13bd60c010c12b, 0⟩,
  ⟨0x13a5242b75dab8, 0⟩, ⟨0x138d22cd9fd002, 0⟩, ⟨0x13755bc5847a1c, 0⟩, ⟨0x135dce49ad36e2, 0⟩,
  ⟨0x134679984dd440, 0⟩, ⟨0x132f5cceffcb24, 0⟩, ⟨0x13187775a10d49, 0⟩, ⟨0x1301c8373e3990, 0⟩,
  ⟨0x12eb4ebb95f841, 0⟩, ⟨0x12d50a0219a9d1, 0⟩, ⟨0x12bef9a8b7fd2a, 0⟩, ⟨0x12a91c7a0c1bab, 0⟩,
  ⟨0x1293726014b530, 0⟩, ⟨0x127dfa5757a1f5, 0⟩, ⟨0x1268b39b1d3bbf, 0⟩, ⟨0x12539d838ff5bd, 0⟩,
  ⟨0x123eb7aac9083b, 0⟩, ⟨0x122a012ba940b6, 0⟩, ⟨0x12157996cc4132, 0⟩, ⟨0x1201201dd2fc9b, 0⟩,
  ⟨0x11ecf4494d480b, 0⟩, ⟨0x11d8f5528f6569, 0⟩, ⟨0x11c52311577e7c, 0⟩, ⟨0x11b17c74cb26e9, 0⟩,
  ⟨0x119e010c2c1ab6, 0⟩, ⟨0x118ab07bb670bd, 0⟩, ⟨0x11778a25efbcb6, 0⟩, ⟨0x11648d354c31da, 0⟩,
  ⟨0x1151b990275fdd, 0⟩, ⟨0x113f0ea432d24c, 0⟩, ⟨0x112c8b7210f9da, 0⟩, ⟨0x111a3028ecb531, 0⟩,
  ⟨0x1107fbda8434af, 0⟩, ⟨0x10f5ee0f4e6bb3, 0⟩, ⟨0x10e4065d2a9fce, 0⟩, ⟨0x10d244632ca521, 0⟩,
  ⟨0x10c0a77ce2981a, 0⟩, ⟨0x10af2f83c636d1, 0⟩, ⟨0x109ddb98a01339, 0⟩, ⟨0x108cabaf52e7df, 0⟩,
  ⟨0x107b9f2f4e28fb, 0⟩, ⟨0x106ab58c358f19, 0⟩, ⟨0x1059eea5ecf92c, 0⟩, ⟨0x104949cdd12c90, 0⟩,
  ⟨0x1038c6c6f0ada9, 0⟩, ⟨0x102865137932a9, 0⟩, ⟨0x10182427ea7348, 0⟩, ⟨0x1008040614b195, 0⟩,
  ⟨0x1fe01ff726fa1a, -1⟩, ⟨0x1fa11cc261ea74, -1⟩, ⟨0x1f6310b081992e, -1⟩, ⟨0x1f25f63ceeadcd, -1⟩,
  ⟨0x1ee9c8039113e7, -1⟩, ⟨0x1eae8078cbb1ab, -1⟩, ⟨0x1e741aa29d0c9b, -1⟩, ⟨0x1e3a91830a99b5, -1⟩,
  ⟨0x1e01e009609a56, -1⟩, ⟨0x1dca01e577bb98, -1⟩, ⟨0x1d92f20b7c9103, -1⟩, ⟨0x1d5cac66fb5cce, -1⟩,
  ⟨0x1d272caa5ede9d, -1⟩, ⟨0x1cf26e3e6b2ccd, -1⟩, ⟨0x1cbe6da2a77902, -1⟩, ⟨0x1c8b266d37086d, -1⟩,
  ⟨0x1c5894bd5d5804, -1⟩, ⟨0x1c26b533bb9f8c, -1⟩, ⟨0x1bf583eeece73f, -1⟩, ⟨0x1bc4fd75db96c1, -1⟩,
  ⟨0x1b951e0c864a28, -1⟩, ⟨0x1b65e2c5ef3e2c, -1⟩, ⟨0x1b374867c9888b, -1⟩, ⟨0x1b094b211d304a, -1⟩,
  ⟨0x1adbe885f2ef7e, -1⟩, ⟨0x1aaf1d31603da2, -1⟩, ⟨0x1a82e63fd358a7, -1⟩, ⟨0x1a5740ef09738b, -1⟩,
  ⟨0x1a2c2a90ab4b27, -1⟩, ⟨0x1a01a01393f2d1, -1⟩, ⟨0x19d79f24db3c1b, -1⟩, ⟨0x19ae2505c7b190, -1⟩,
  ⟨0x19852ef297ce2f, -1⟩, ⟨0x195cbaeea44b75, -1⟩, ⟨0x1934c69de74838, -1⟩, ⟨0x190d4f2f6752e6, -1⟩,
  ⟨0x18e6528effd79d, -1⟩, ⟨0x18bfce9fcc007c, -1⟩, ⟨0x1899c0dabec30e, -1⟩, ⟨0x187427aa2317fb, -1⟩,
  ⟨0x184f00acb39a08, -1⟩, ⟨0x182a49e8653e55, -1⟩, ⟨0x18060195f40260, -1⟩, ⟨0x17e22563e0a329, -1⟩,
  ⟨0x17beb377dcb5ad, -1⟩, ⟨0x179baa679725c2, -1⟩, ⟨0x177907f2170657, -1⟩, ⟨0x1756cadbd6130c, -1⟩]

/-- `log2_data.c` -/
def log2Invc : List HexFloat := [
  ⟨0x1724286bb1acf8, 0⟩, ⟨0x16e1f766d2cca1, 0⟩, ⟨0x16a13d0e30d48a, 0⟩, ⟨0x1661ec32d06c85, 0⟩,
  ⟨0x1623fa951198f8, 0⟩, ⟨0x15e75ba4cf026c, 0⟩, ⟨0x15ac055a214fb8, 0⟩, ⟨0x1571ed0f166e1e, 0⟩,
  ⟨0x153909590bf835, 0⟩, ⟨0x15014fed61addd, 0⟩, ⟨0x14cab88e487bd0, 0⟩, ⟨0x149539b4334fee, 0⟩,
  ⟨0x1460cbdfafd569, 0⟩, ⟨0x142d664ee4b953, 0⟩, ⟨0x13fb01111dd8a6, 0⟩, ⟨0x13c995b70c5836, 0⟩,
  ⟨0x13991c4ab6fd4a, 0⟩, ⟨0x13698e0ce099b5, 0⟩, ⟨0x133ae48213e7b2, 0⟩, ⟨0x130d191985bdb1, 0⟩,
  ⟨0x12e025cab271d7, 0⟩, ⟨0x12b404cf13cd82, 0⟩, ⟨0x1288b02c7ccb50, 0⟩, ⟨0x125e2263944de5, 0⟩,
  ⟨0x1234563d8615b1, 0⟩, ⟨0x120b46e33eaf38, 0⟩, ⟨0x11e2eefdcda3dd, 0⟩, ⟨0x11bb4a580b3930, 0⟩,
  ⟨0x119453847f2200, 0⟩, ⟨0x116e06c0d5d73c, 0⟩, ⟨0x11485f47b7e4c2, 0⟩, ⟨0x112358ad0085d1, 0⟩,
  ⟨0x10fef00f532227, 0⟩, ⟨0x10db2077d03a8f, 0⟩, ⟨0x10b7e6d65980d9, 0⟩, ⟨0x10953efe7b408d, 0⟩,
  ⟨0x107325cac53b83, 0⟩, ⟨0x105197e40d1b5c, 0⟩, ⟨0x103091c1208ea2, 0⟩, ⟨0x10101025b37e21, 0⟩,
  ⟨0x1fc07ef9caa76b, -1⟩, ⟨0x1f4465d3f6f184, -1⟩, ⟨0x1ecc079f84107f, -1⟩, ⟨0x1e573a99975ae8, -1⟩,
  ⟨0x1de5d6f0bd3de6, -1⟩, ⟨0x1d77b681ff38b3, -1⟩, ⟨0x1d0cb5724de943, -1⟩, ⟨0x1ca4b2dc0e7563, -1⟩,
  ⟨0x1c3f8ee8d6cb51, -1⟩, ⟨0x1bdd2b4f020c4c, -1⟩, ⟨0x1b7d6c006015ca, -1⟩, ⟨0x1b20366e2e338f, -1⟩,
  ⟨0x1ac57026295039, -1⟩, ⟨0x1a6d01bc2731dd, -1⟩, ⟨0x1a16d3bc3ff18b, -1⟩, ⟨0x19c2d14967fead, -1⟩,
  ⟨0x1970e4f47c9902, -1⟩, ⟨0x1920fb3982bcf2, -1⟩, ⟨0x18d30187f759f1, -1⟩, ⟨0x1886e5ebb9f66d, -1⟩,
  ⟨0x183c97b658b994, -1⟩, ⟨0x17f405ffc61022, -1⟩, ⟨0x17ad22181415ca, -1⟩, ⟨0x1767dcf99eff8c, -1⟩]

/-- `pow_data.c` -/
def powInvc : List HexFloat := [
  ⟨0x16a00000000000, 0⟩, ⟨0x16800000000000, 0⟩, ⟨0x16600000000000, 0⟩, ⟨0x16400000000000, 0⟩,
  ⟨0x16200000000000, 0⟩, ⟨0x16000000000000, 0⟩, ⟨0x15e00000000000, 0⟩, ⟨0x15c00000000000, 0⟩,
  ⟨0x15a00000000000, 0⟩, ⟨0x15800000000000, 0⟩, ⟨0x15600000000000, 0⟩, ⟨0x15600000000000, 0⟩,
  ⟨0x15400000000000, 0⟩, ⟨0x15200000000000, 0⟩, ⟨0x15000000000000, 0⟩, ⟨0x14e00000000000, 0⟩,
  ⟨0x14c00000000000, 0⟩, ⟨0x14a00000000000, 0⟩, ⟨0x14a00000000000, 0⟩, ⟨0x14800000000000, 0⟩,
  ⟨0x14600000000000, 0⟩, ⟨0x14400000000000, 0⟩, ⟨0x14200000000000, 0⟩, ⟨0x14000000000000, 0⟩,
  ⟨0x14000000000000, 0⟩, ⟨0x13e00000000000, 0⟩, ⟨0x13c00000000000, 0⟩, ⟨0x13a00000000000, 0⟩,
  ⟨0x13a00000000000, 0⟩, ⟨0x13800000000000, 0⟩, ⟨0x13600000000000, 0⟩, ⟨0x13400000000000, 0⟩,
  ⟨0x13400000000000, 0⟩, ⟨0x13200000000000, 0⟩, ⟨0x13000000000000, 0⟩, ⟨0x13000000000000, 0⟩,
  ⟨0x12e00000000000, 0⟩, ⟨0x12c00000000000, 0⟩, ⟨0x12c00000000000, 0⟩, ⟨0x12a00000000000, 0⟩,
  ⟨0x12800000000000, 0⟩, ⟨0x12600000000000, 0⟩, ⟨0x12600000000000, 0⟩, ⟨0x12400000000000, 0⟩,
  ⟨0x12400000000000, 0⟩, ⟨0x12200000000000, 0⟩, ⟨0x12000000000000, 0⟩, ⟨0x12000000000000, 0⟩,
  ⟨0x11e00000000000, 0⟩, ⟨0x11c00000000000, 0⟩, ⟨0x11c00000000000, 0⟩, ⟨0x11a00000000000, 0⟩,
  ⟨0x11a00000000000, 0⟩, ⟨0x11800000000000, 0⟩, ⟨0x11600000000000, 0⟩, ⟨0x11600000000000, 0⟩,
  ⟨0x11400000000000, 0⟩, ⟨0x11400000000000, 0⟩, ⟨0x11200000000000, 0⟩, ⟨0x11000000000000, 0⟩,
  ⟨0x11000000000000, 0⟩, ⟨0x10e00000000000, 0⟩, ⟨0x10e00000000000, 0⟩, ⟨0x10c00000000000, 0⟩,
  ⟨0x10c00000000000, 0⟩, ⟨0x10a00000000000, 0⟩, ⟨0x10a00000000000, 0⟩, ⟨0x10800000000000, 0⟩,
  ⟨0x10800000000000, 0⟩, ⟨0x10600000000000, 0⟩, ⟨0x10400000000000, 0⟩, ⟨0x10400000000000, 0⟩,
  ⟨0x10200000000000, 0⟩, ⟨0x10200000000000, 0⟩, ⟨0x10000000000000, 0⟩, ⟨0x10000000000000, 0⟩,
  ⟨0x1fc00000000000, -1⟩, ⟨0x1f800000000000, -1⟩, ⟨0x1f400000000000, -1⟩, ⟨0x1f000000000000, -1⟩,
  ⟨0x1ec00000000000, -1⟩, ⟨0x1e800000000000, -1⟩, ⟨0x1e400000000000, -1⟩, ⟨0x1e200000000000, -1⟩,
  ⟨0x1de00000000000, -1⟩, ⟨0x1da00000000000, -1⟩, ⟨0x1d600000000000, -1⟩, ⟨0x1d400000000000, -1⟩,
  ⟨0x1d000000000000, -1⟩, ⟨0x1cc00000000000, -1⟩, ⟨0x1ca00000000000, -1⟩, ⟨0x1c600000000000, -1⟩,
  ⟨0x1c400000000000, -1⟩, ⟨0x1c000000000000, -1⟩, ⟨0x1be00000000000, -1⟩, ⟨0x1ba00000000000, -1⟩,
  ⟨0x1b800000000000, -1⟩, ⟨0x1b400000000000, -1⟩, ⟨0x1b200000000000, -1⟩, ⟨0x1ae00000000000, -1⟩,
  ⟨0x1ac00000000000, -1⟩, ⟨0x1aa00000000000, -1⟩, ⟨0x1a600000000000, -1⟩, ⟨0x1a400000000000, -1⟩,
  ⟨0x1a000000000000, -1⟩, ⟨0x19e00000000000, -1⟩, ⟨0x19c00000000000, -1⟩, ⟨0x19a00000000000, -1⟩,
  ⟨0x19600000000000, -1⟩, ⟨0x19400000000000, -1⟩, ⟨0x19200000000000, -1⟩, ⟨0x19000000000000, -1⟩,
  ⟨0x18c00000000000, -1⟩, ⟨0x18a00000000000, -1⟩, ⟨0x18800000000000, -1⟩, ⟨0x18600000000000, -1⟩,
  ⟨0x18400000000000, -1⟩, ⟨0x18200000000000, -1⟩, ⟨0x17e00000000000, -1⟩, ⟨0x17c00000000000, -1⟩,
  ⟨0x17a00000000000, -1⟩, ⟨0x17800000000000, -1⟩, ⟨0x17600000000000, -1⟩, ⟨0x17400000000000, -1⟩,
  ⟨0x17200000000000, -1⟩, ⟨0x17000000000000, -1⟩, ⟨0x16e00000000000, -1⟩, ⟨0x16c00000000000, -1⟩]

/-- `logf_data.c`, and the same numbers in `log2f_data.c` and `powf_data.c` -/
def logfInvc : List HexFloat := [
  ⟨0x1661ec79f8f3be, 0⟩, ⟨0x1571ed4aaf883d, 0⟩, ⟨0x149539f0f010b0, 0⟩, ⟨0x13c995b0b80385, 0⟩,
  ⟨0x130d190c8864a5, 0⟩, ⟨0x125e227b0b8ea0, 0⟩, ⟨0x11bb4a4a1a343f, 0⟩, ⟨0x112358f08ae5ba, 0⟩,
  ⟨0x10953f419900a7, 0⟩, ⟨0x10000000000000, 0⟩, ⟨0x1e608cfd9a47ac, -1⟩, ⟨0x1ca4b31f026aa0, -1⟩,
  ⟨0x1b2036576afce6, -1⟩, ⟨0x19c2d163a1aa2d, -1⟩, ⟨0x1886e6037841ed, -1⟩, ⟨0x1767dcf5534862, -1⟩]

def log2fInvc : List HexFloat := logfInvc

def powfInvc : List HexFloat := logfInvc

/-! ## The logarithms beside them -/

/-- The column `logc` of `log_data.c`, as patterns -/
def logLogc : List Word := [
  0xbfd7cc7f79e69000, 0xbfd76feec20d0000, 0xbfd713e31351e000, 0xbfd6b85b38287800,
  0xbfd65d5590807800, 0xbfd602d076180000, 0xbfd5a8ca86909000, 0xbfd54f4356035000,
  0xbfd4f637c36b4000, 0xbfd49da7fda85000, 0xbfd445923989a800, 0xbfd3edf439b0b800,
  0xbfd396ce448f7000, 0xbfd3401e17bda000, 0xbfd2e9e2ef468000, 0xbfd2941b3830e000,
  0xbfd23ec58cda8800, 0xbfd1e9e129279000, 0xbfd1956d2b48f800, 0xbfd141679ab9f800,
  0xbfd0edd094ef9800, 0xbfd09aa518db1000, 0xbfd047e65263b800, 0xbfcfeb224586f000,
  0xbfcf474a7517b000, 0xbfcea4443d103000, 0xbfce020d44e9b000, 0xbfcd60a22977f000,
  0xbfccc00104959000, 0xbfcc202956891000, 0xbfcb81178d811000, 0xbfcae2c9ccd3d000,
  0xbfca45402e129000, 0xbfc9a877681df000, 0xbfc90c6d69483000, 0xbfc87120a645c000,
  0xbfc7d68fb4143000, 0xbfc73cb83c627000, 0xbfc6a39a9b376000, 0xbfc60b3154b7a000,
  0xbfc5737d76243000, 0xbfc4dc7b8fc23000, 0xbfc4462c51d20000, 0xbfc3b08abc830000,
  0xbfc31b996b490000, 0xbfc2875490a44000, 0xbfc1f3b9f879a000, 0xbfc160c8252ca000,
  0xbfc0ce7f57f72000, 0xbfc03cdc49fea000, 0xbfbf57bdbc4b8000, 0xbfbe370896404000,
  0xbfbd17983ef94000, 0xbfbbf9674ed8a000, 0xbfbadc79202f6000, 0xbfb9c0c3e7288000,
  0xbfb8a646b372c000, 0xbfb78d01b3ac0000, 0xbfb674f145380000, 0xbfb55e0e6d878000,
  0xbfb4485cdea1e000, 0xbfb333d94d6aa000, 0xbfb22079f8c56000, 0xbfb10e4698622000,
  0xbfaffa6c6ad20000, 0xbfadda8d4a774000, 0xbfabbcece4850000, 0xbfa9a1894012c000,
  0xbfa788583302c000, 0xbfa5715e67d68000, 0xbfa35c8a49658000, 0xbfa149e364154000,
  0xbf9e72c082eb8000, 0xbf9a55f152528000, 0xbf963d62cf818000, 0xbf9228fb8caa0000,
  0xbf8c317b20f90000, 0xbf8419355daa0000, 0xbf781203c2ec0000, 0xbf60040979240000,
  0x3f6feff384900000, 0x3f87dc41353d0000, 0x3f93cea3c4c28000, 0x3f9b9fc114890000,
  0x3fa1b0d8ce110000, 0x3fa58a5bd001c000, 0x3fa95c8340d88000, 0x3fad276aef578000,
  0x3fb07598e598c000, 0x3fb253f5e30d2000, 0x3fb42edd8b380000, 0x3fb606598757c000,
  0x3fb7da76356a0000, 0x3fb9ab434e1c6000, 0x3fbb78c7bb0d6000, 0x3fbd431332e72000,
  0x3fbf0a3171de6000, 0x3fc067152b914000, 0x3fc147858292b000, 0x3fc2266ecdca3000,
  0x3fc303d7a6c55000, 0x3fc3dfc33c331000, 0x3fc4ba366b7a8000, 0x3fc5933928d1f000,
  0x3fc66acd2418f000, 0x3fc740f8ec669000, 0x3fc815c0f51af000, 0x3fc8e92954f68000,
  0x3fc9bb3602f84000, 0x3fca8bed1c2c0000, 0x3fcb5b515c01d000, 0x3fcc2967ccbcc000,
  0x3fccf635d5486000, 0x3fcdc1bd3446c000, 0x3fce8c01b8cfe000, 0x3fcf5509c0179000,
  0x3fd00e6c121fb800, 0x3fd071b80e93d000, 0x3fd0d46b9e867000, 0x3fd13687334bd000,
  0x3fd1980d67234800, 0x3fd1f8ffe0cc8000, 0x3fd2595fd7636800, 0x3fd2b9300914a800,
  0x3fd3187210436000, 0x3fd377266dec1800, 0x3fd3d54ffbaf3000, 0x3fd432eee32fe000]

/-- `log2_data.c` -/
def log2Logc : List Word := [
  0xbfe1095feecdb000, 0xbfe08494bd76d000, 0xbfe00143aee8f800, 0xbfdefec5360b4000,
  0xbfddfdd91ab7e000, 0xbfdcffae0cc79000, 0xbfdc043811fda000, 0xbfdb0b67323ae000,
  0xbfda152f5a2db000, 0xbfd9217f5af86000, 0xbfd8304db0719000, 0xbfd74189f9a9e000,
  0xbfd6552bb5199000, 0xbfd56b23a29b1000, 0xbfd483650f5fa000, 0xbfd39de937f6a000,
  0xbfd2baa1538d6000, 0xbfd1d98340ca4000, 0xbfd0fa853a40e000, 0xbfd01d9c32e73000,
  0xbfce857da2fa6000, 0xbfccd3c8633d8000, 0xbfcb26034c14a000, 0xbfc97c1c2f4fe000,
  0xbfc7d6023f800000, 0xbfc633a71a05e000, 0xbfc494f5e9570000, 0xbfc2f9e424e0a000,
  0xbfc162595afdc000, 0xbfbf9c9a75bd8000, 0xbfbc7b575bf9c000, 0xbfb960c60ff48000,
  0xbfb64ce247b60000, 0xbfb33f78b2014000, 0xbfb0387d1a42c000, 0xbfaa6f9208b50000,
  0xbfa47a954f770000, 0xbf9d23a8c50c0000, 0xbf916a2629780000, 0xbf7720f8d8e80000,
  0x3f86fe53b1500000, 0x3fa11ccce10f8000, 0x3fac4dfc8c8b8000, 0x3fb3aa321e574000,
  0x3fb918a0d08b8000, 0x3fbe72e9da044000, 0x3fc1dcd2507f6000, 0x3fc476ab03dea000,
  0x3fc7074377e22000, 0x3fc98ede8ba94000, 0x3fcc0db86ad2e000, 0x3fce840aafcee000,
  0x3fd0790ab4678000, 0x3fd1ac056801c000, 0x3fd2db11d4fee000, 0x3fd406464ec58000,
  0x3fd52dbe093af000, 0x3fd651902050d000, 0x3fd771d2cdeaf000, 0x3fd88e9c857d9000,
  0x3fd9a80155e16000, 0x3fdabe186ed3d000, 0x3fdbd0f2aea0e000, 0x3fdce0a43dbf4000]

/-- `pow_data.c` -/
def powLogc : List Word := [
  0xbfd62c82f2b9c800, 0xbfd5d1bdbf580800, 0xbfd5767717455800, 0xbfd51aad872df800,
  0xbfd4be5f95777800, 0xbfd4618bc21c6000, 0xbfd404308686a800, 0xbfd3a64c55694800,
  0xbfd347dd9a988000, 0xbfd2e8e2bae12000, 0xbfd2895a13de8800, 0xbfd2895a13de8800,
  0xbfd22941fbcf7800, 0xbfd1c898c1699800, 0xbfd1675cababa800, 0xbfd1058bf9ae4800,
  0xbfd0a324e2739000, 0xbfd0402594b4d000, 0xbfd0402594b4d000, 0xbfcfb9186d5e4000,
  0xbfcef0adcbdc6000, 0xbfce27076e2af000, 0xbfcd5c216b4fc000, 0xbfcc8ff7c79aa000,
  0xbfcc8ff7c79aa000, 0xbfcbc286742d9000, 0xbfcaf3c94e80c000, 0xbfca23bc1fe2b000,
  0xbfca23bc1fe2b000, 0xbfc9525a9cf45000, 0xbfc87fa06520d000, 0xbfc7ab890210e000,
  0xbfc7ab890210e000, 0xbfc6d60fe719d000, 0xbfc5ff3070a79000, 0xbfc5ff3070a79000,
  0xbfc526e5e3a1b000, 0xbfc44d2b6ccb8000, 0xbfc44d2b6ccb8000, 0xbfc371fc201e9000,
  0xbfc29552f81ff000, 0xbfc1b72ad52f6000, 0xbfc1b72ad52f6000, 0xbfc0d77e7cd09000,
  0xbfc0d77e7cd09000, 0xbfbfec9131dbe000, 0xbfbe27076e2b0000, 0xbfbe27076e2b0000,
  0xbfbc5e548f5bc000, 0xbfba926d3a4ae000, 0xbfba926d3a4ae000, 0xbfb8c345d631a000,
  0xbfb8c345d631a000, 0xbfb6f0d28ae56000, 0xbfb51b073f062000, 0xbfb51b073f062000,
  0xbfb341d7961be000, 0xbfb341d7961be000, 0xbfb16536eea38000, 0xbfaf0a30c0118000,
  0xbfaf0a30c0118000, 0xbfab42dd71198000, 0xbfab42dd71198000, 0xbfa77458f632c000,
  0xbfa77458f632c000, 0xbfa39e87b9fec000, 0xbfa39e87b9fec000, 0xbf9f829b0e780000,
  0xbf9f829b0e780000, 0xbf97b91b07d58000, 0xbf8fc0a8b0fc0000, 0xbf8fc0a8b0fc0000,
  0xbf7fe02a6b100000, 0xbf7fe02a6b100000, 0x0000000000000000, 0x0000000000000000,
  0x3f80101575890000, 0x3f90205658938000, 0x3f98492528c90000, 0x3fa0415d89e74000,
  0x3fa466aed42e0000, 0x3fa894aa149fc000, 0x3faccb73cdddc000, 0x3faeea31c006c000,
  0x3fb1973bd1466000, 0x3fb3bdf5a7d1e000, 0x3fb5e95a4d97a000, 0x3fb700d30aeac000,
  0x3fb9335e5d594000, 0x3fbb6ac88dad6000, 0x3fbc885801bc4000, 0x3fbec739830a2000,
  0x3fbfe89139dbe000, 0x3fc1178e8227e000, 0x3fc1aa2b7e23f000, 0x3fc2d1610c868000,
  0x3fc365fcb0159000, 0x3fc4913d8333b000, 0x3fc527e5e4a1b000, 0x3fc6574ebe8c1000,
  0x3fc6f0128b757000, 0x3fc7898d85445000, 0x3fc8beafeb390000, 0x3fc95a5adcf70000,
  0x3fca93ed3c8ae000, 0x3fcb31d8575bd000, 0x3fcbd087383be000, 0x3fcc6ffbc6f01000,
  0x3fcdb13db0d49000, 0x3fce530effe71000, 0x3fcef5ade4dd0000, 0x3fcf991c6cb3b000,
  0x3fd07138604d5800, 0x3fd0c42d67616000, 0x3fd1178e8227e800, 0x3fd16b5ccbacf800,
  0x3fd1bf99635a6800, 0x3fd214456d0eb800, 0x3fd2bef07cdc9000, 0x3fd314f1e1d36000,
  0x3fd36b6776be1000, 0x3fd3c25277333000, 0x3fd419b423d5e800, 0x3fd4718dc271c800,
  0x3fd4c9e09e173000, 0x3fd522ae0738a000, 0x3fd57bf753c8d000, 0x3fd5d5bddf596000]

/-! ## The centers of the intervals -/

/-- The columns of `tab2` in `log_data.c`, as patterns -/
def logChi : List Word := [
  0x3fe61000014fb66b, 0x3fe63000034db495, 0x3fe650000d94d478, 0x3fe67000074e6fad,
  0x3fe68ffffedf0fae, 0x3fe6b0000763c5bc, 0x3fe6d0001e5cc1f6, 0x3fe6efffeb05f63e,
  0x3fe710000e869780, 0x3fe72ffffc67e912, 0x3fe74fffdf81116a, 0x3fe770000f679c90,
  0x3fe78ffffa7ec835, 0x3fe7affffe20c2e6, 0x3fe7cfffed3fc900, 0x3fe7efffe9261a76,
  0x3fe81000049ca3e8, 0x3fe8300017932c8f, 0x3fe850000633739c, 0x3fe87000204289c6,
  0x3fe88fffebf57904, 0x3fe8b00022bc04df, 0x3fe8cfffe50c1b8a, 0x3fe8effffc918e43,
  0x3fe910001efa5fc7, 0x3fe9300013467bb9, 0x3fe94fffe6ee076f, 0x3fe96fffde3c12d1,
  0x3fe98ffff4458a0d, 0x3fe9afffdd982e3e, 0x3fe9cfffed49fb66, 0x3fe9f00020f19c51,
  0x3fea10001145b006, 0x3fea300007bbf6fa, 0x3fea500010971d79, 0x3fea70001df52e48,
  0x3fea90001c593352, 0x3feab0002a4f3e4b, 0x3feacfffd7ae1ed1, 0x3feaefffee510478,
  0x3feb0fffdb650d5b, 0x3feb2ffffeaaca57, 0x3feb4fffd995badc, 0x3feb7000249e659c,
  0x3feb8ffff9871640, 0x3febafffd204cb4f, 0x3febcfffd2415c45, 0x3febeffff86309df,
  0x3fec0fffe1b57653, 0x3fec2ffff1fa57e3, 0x3fec4fffdcbfe424, 0x3fec6fffed54b9f7,
  0x3fec8fffeb998fd5, 0x3fecb0002125219a, 0x3feccfffdd94469c, 0x3fecefffeafdc476,
  0x3fed1000169af82b, 0x3fed30000d0ff71d, 0x3fed4fffea790fc4, 0x3fed70002edc87e5,
  0x3fed900021dc82aa, 0x3fedafffd86b0283, 0x3fedd000296c4739, 0x3fedefffe54490f5,
  0x3fee0fffcdabf694, 0x3fee2fffdb52c8dd, 0x3fee4ffff24216ef, 0x3fee6fffe88a5e11,
  0x3fee9000119eff0d, 0x3feeafffdfa51744, 0x3feed0001a127fa1, 0x3feef00007babcc4,
  0x3fef0ffff57a8d02, 0x3fef30001ee58ac7, 0x3fef4ffff5823494, 0x3fef6ffffca94c6b,
  0x3fef8fffe1f9c441, 0x3fefafffd2e0e37e, 0x3fefd0001c77e49e, 0x3fefeffff7e0c331,
  0x3ff00ffff465606e, 0x3ff02ffff3867a58, 0x3ff04ffffdfc0d17, 0x3ff0700003cd4d82,
  0x3ff08ffff9f2cbe8, 0x3ff0b000010cda65, 0x3ff0d00001a4d338, 0x3ff0effffadafdfd,
  0x3ff110000bbafd96, 0x3ff12ffffae5f45d, 0x3ff150000dd59ad9, 0x3ff170000f21559a,
  0x3ff18ffffc275426, 0x3ff1b000123d3c59, 0x3ff1cffff8299eb7, 0x3ff1effff48ad400,
  0x3ff210000c8b86a4, 0x3ff2300003854303, 0x3ff24fffffbcf684, 0x3ff26ffff52921d9,
  0x3ff2900014933a3c, 0x3ff2b00014556313, 0x3ff2cfffebfe523b, 0x3ff2f0000bb8ad96,
  0x3ff30ffffb7ae2af, 0x3ff32ffffeac5f7f, 0x3ff350000ca66756, 0x3ff3700011fbf721,
  0x3ff38ffff9592fb9, 0x3ff3b00004ddd242, 0x3ff3cffff5b2c957, 0x3ff3efffeab0b418,
  0x3ff410001532aff4, 0x3ff4300017478b29, 0x3ff44fffe795b463, 0x3ff46fffe80475e0,
  0x3ff48fffef6fc1e7, 0x3ff4afffe5bea704, 0x3ff4d000171027de, 0x3ff4f0000ff03ee2,
  0x3ff5100012dc4bd1, 0x3ff530001605277a, 0x3ff54fffecdb704c, 0x3ff56fffef5f54a9,
  0x3ff5900017e61012, 0x3ff5b00003c93e92, 0x3ff5d0001d4919bc, 0x3ff5efffe7b87a89]

def logClo : List Word := [
  0x3c7e026c91425b3c, 0x3c8dbfea48005d41, 0x3c8e7fa786d6a5b7, 0x3c61fcea6b54254c,
  0xbc7c7e274c590efd, 0xbc8ac16848dcda01, 0x3c833f1c9d499311, 0xbc7e80041ae22d53,
  0x3c7bff6671097952, 0x3c8c00e226bd8724, 0xbc6e02916ef101d2, 0xbc67fc71cd549c74,
  0x3c81bec19ef50483, 0xbc707e1729cc6465, 0xbc808072087b8b1c, 0x3c8dc0286d9df9ae,
  0x3c897fd251e54c33, 0xbc8afee9b630f381, 0x3c89bfbf6b6535bc, 0xbc8bbf65f3117b75,
  0xbc89006ea23dcb57, 0xbc7d00df38e04b0a, 0xbc88007146ff9f05, 0x3c83817bd07a7038,
  0x3c893e9176dfb403, 0x3c7f804e4b980276, 0xbc8f7ef0d9ff622e, 0xbc7082aa962638ba,
  0xbc87801b9164a8ef, 0xbc8740e08a5a9337, 0x3c3fce08c19be000, 0xbc8a3faa27885b0a,
  0x3c74ff489958da56, 0x3c8cbeab8a2b6d18, 0x3c88fecadd787930, 0xbc8f41763dd8abdb,
  0xbc8ebf0284c27612, 0xbc69fd043cff3f5f, 0xbc823ee7129070b4, 0x3c6a063ee00edea3,
  0x3c5a06c8381f0ab9, 0xbc79011e74233c1d, 0xbc79ff1068862a9f, 0x3c8aff45d0864f3e,
  0x3c7cfe7796c2c3f9, 0xbc63ff27eef22bc4, 0xbc6cffb7ee3bea21, 0xbc814103972e0b5c,
  0x3c8bc16494b76a19, 0xbc64feef8d30c6ed, 0xbc843f68bcec4775, 0x3c847ea3f053e0ec,
  0x3c7383068df992f1, 0xbc68fd8e64180e04, 0x3c8e7ebe1cc7ea72, 0x3c8ebe39ad9f88fe,
  0x3c757d91a8b95a71, 0x3c89c1906970c7da, 0xbc580e37c558fe0c, 0xbc7f80d64dc10f44,
  0xbc747c8f94fd5c5c, 0x3c8c7f1dc521617e, 0x3c88019eb2ffb153, 0x3c6e00d2c652cc89,
  0xbc7f8340202d69d2, 0x3c7b00c1ca1b0864, 0x3c72ffa8b094ab51, 0xbc57f673b1efbe59,
  0xbc84808d5e0bc801, 0x3c780006d54320b5, 0xbc5002f860565c92, 0xbc8540445d35e611,
  0xbc4ffb3139ef9105, 0x3c8a81acf2731155, 0x3c8a3f41d4d7c743, 0xbc6202f41c987875,
  0x3c777dd1f477e74b, 0xbc6f01199a7ca331, 0x3c7181ee4bceacb1, 0xbc6e05370170875a,
  0xbc8a7ead491c0ada, 0xbc977f69c3fcb2e0, 0x3c97bffe34cb945b, 0x3c820083c0e456cb,
  0xbc6dffdfbe37751a, 0xbc913f7faee626eb, 0x3c807dfa79489ff7, 0xbc77040570d66bc0,
  0x3c8e80d4846d0b62, 0x3c9dbffa64fd36ef, 0x3c9a0077701250ae, 0x3c8dfdf9e2e3deee,
  0x3c910030dc3b7273, 0x3c997f7980030188, 0xbc65f932ab9f8c67, 0x3c937fbf9da75beb,
  0x3c9f806b91fd5b22, 0x3c93ffc2eb9fbf33, 0x3c7601e77e2e2e72, 0x3c7ffcbb767f0c61,
  0xbc7202ca3c02412b, 0xbc92808233f21f02, 0xbc88ff7e384fdcf2, 0xbc85ff51503041c5,
  0xbc810071885e289d, 0xbc91ff5d3fb7b715, 0x3c957f82228b82bd, 0x3c8000bac40dd5cc,
  0xbc943f9d2db2a751, 0x3c857f6b707638e1, 0x3c7a023a10bf1231, 0x3c987f6d66b152b0,
  0x3c67f8375f198524, 0x3c8301e672dc5143, 0x3c89ff69b8b2895a, 0xbc95c0b19bc2f254,
  0x3c9b4009f23a2a72, 0xbc94ffb7bf0d7d45, 0xbc99c06471dc6a3d, 0x3c977f890b85531c,
  0x3c6004657166a436, 0xbc96bfcece233209, 0xbc8902720505a1d7, 0x3c9bbfe60ec96412,
  0x3c887ec581afef90, 0xbc9f41080abf0cc0, 0xbc98812afb254729, 0xbc947eb780ed6904]

/-- `log2_data.c` -/
def log2Chi : List Word := [
  0x3fe6200012b90a8e, 0x3fe66000045734a6, 0x3fe69fffc325f2c5, 0x3fe6e00038b95a04,
  0x3fe71fffe09994e3, 0x3fe7600015590e10, 0x3fe7a00012655bd5, 0x3fe7e0003259e9a6,
  0x3fe81fffedb4b2d2, 0x3fe860002dfafcc3, 0x3fe89ffff78c6b50, 0x3fe8e00039671566,
  0x3fe91fffe2bf1745, 0x3fe95fffcc5c9fd1, 0x3fe9a0003bba4767, 0x3fe9dfffe7b92da5,
  0x3fea1fffd72efdaf, 0x3fea5fffde04ff95, 0x3fea9fffca5e8d2b, 0x3feadfffddad03ea,
  0x3feb1ffff10d3d4d, 0x3feb5fffce21165a, 0x3feb9fffd950e674, 0x3febe000139ca8af,
  0x3fec20005b46df99, 0x3fec600040b9f7ae, 0x3feca0006255fd8a, 0x3fecdfffd94c095d,
  0x3fed1ffff975d6cf, 0x3fed5fffa2561c93, 0x3fed9fff9d228b0c, 0x3fede00065bc7e16,
  0x3fee200002f64791, 0x3fee600057d7a6d8, 0x3feea00027edc00c, 0x3feee0006cf5cb7c,
  0x3fef2000782b7dcc, 0x3fef6000260c450a, 0x3fef9fffe88cd533, 0x3fefdfffd50f8689,
  0x3ff0200004292367, 0x3ff05fffe3e3d668, 0x3ff0a0000a85a757, 0x3ff0e0001a5f3fcc,
  0x3ff11ffff8afbaf5, 0x3ff15fffe54d91ad, 0x3ff1a00011ac36e1, 0x3ff1e00019c84248,
  0x3ff220000ffe5e6e, 0x3ff26000269fd891, 0x3ff2a00029a6e6da, 0x3ff2dfffe0293e39,
  0x3ff31ffff7dcf082, 0x3ff35ffff05a8b60, 0x3ff3a0002e0eaecc, 0x3ff3e000043bb236,
  0x3ff4200002d187ff, 0x3ff460000d387cb1, 0x3ff4a00004569f89, 0x3ff4e000043543f3,
  0x3ff51fffcc027f0f, 0x3ff55ffffd87b36f, 0x3ff59ffff21df7ba, 0x3ff5dfffebfc3481]

def log2Clo : List Word := [
  0x3c8904ab0644b605, 0x3c61ff9bea62f7a9, 0x3c827ecfcb3c90ba, 0x3c88ff8856739326,
  0x3c8afd40275f82b1, 0xbc72fd75b4238341, 0x3c7808e67c242b76, 0xbc6208e426f622b7,
  0xbc8402461ea5c92f, 0x3c6df7f4a2f29a1f, 0xbc8e0453094995fd, 0xbc8a04f3bec77b45,
  0xbc77fa34400e203c, 0xbc76ff8005a0695d, 0x3c70f8c4c4ec7e03, 0x3c8e7fd9478c4602,
  0xbc6a0c554dcdae7e, 0x3c867da98ce9b26b, 0xbc8284c9b54c13de, 0x3c5812c8ea602e3c,
  0xbc8efaddad27789c, 0x3c53cb1719c61237, 0x3c73f7d94194ce00, 0x3c750ac4215d9bc0,
  0x3c6beea653e9c1c9, 0xbc7c079f274a70d6, 0xbc7a0b4076e84c1f, 0x3c88f933f99ab5d7,
  0xbc582c08665fe1be, 0xbc7b04289bd295f3, 0x3c870251340fa236, 0xbc75011e16a4d80c,
  0x3c89802f09ef62e0, 0xbc7e0b75580cf7fa, 0xbc8c848309459811, 0xbc8f8027951576f4,
  0xbc8f81d97274538f, 0xbc4071002727ffdc, 0xbc581bdce1fda8b0, 0x3c87f91acb918e6e,
  0x3c9b7ff365324681, 0x3c86fa08ddae957b, 0xbc57e2de80d3fb91, 0xbc91823305c5f014,
  0xbc8bfabb6680bac2, 0xbc9d7f121737e7ef, 0x3c9c000a0516f5ff, 0xbc9082fbe4da5da0,
  0xbc88fdd04c9cfb43, 0x3c8cfe2a7994d182, 0xbc700273715e8bc5, 0x3c9b7c39dab2a6f9,
  0x3c7df1336edc5254, 0xbc9e03564ccd31eb, 0x3c75f0e74bd3a477, 0x3c9c7dcb149d8833,
  0x3c7e08afcf2d3d28, 0x3c820837856599a6, 0xbc89fa5c904fbcd2, 0xbc781125ed175329,
  0x3c9883d8847754dc, 0xbc8709e731d02807, 0x3c87f79f68727b02, 0xbc9180902e30e93e]

/-! ## The checks -/

theorem logInvc_near : Near double (2 ^ 45) (1 / 2 ^ 8) 0x3fe6000000000000 logInvc := by
  decide +kernel

theorem log2Invc_near : Near double (2 ^ 46) (1 / 2 ^ 7) 0x3fe6000000000000 log2Invc := by
  decide +kernel

theorem powInvc_near : Near double (2 ^ 45) (1 / 2 ^ 7) 0x3fe6955500000000 powInvc := by
  decide +kernel

theorem logfInvc_near : Near single (2 ^ 19) (1 / 2 ^ 5) 0x3f330000 logfInvc := by
  decide +kernel

end LdbToolchain.Math
