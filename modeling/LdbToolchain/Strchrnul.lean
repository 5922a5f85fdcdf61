import LdbToolchain.Lib.Lanes
import LdbToolchain.Lib.Memory
import LdbToolchain.Spawn.Execvpe

/-!
# `__strchrnul`, a word at a time

`__strchrnul` looks for a character or the end of a string: byte by byte up to an aligned address,
then in words of eight bytes, then byte by byte in the word that stopped the word loop. The loops
may run on, so each takes a number of turns it may make at most; `none` is a run that needs more.

`HASZERO` subtracts one from every byte at once and looks for a borrow. It is exact as a test of the
whole word (`hasZero_iff`), although a byte above a zero byte may be taken for one.
-/

namespace LdbToolchain.Strchrnul

open LdbToolchain.Lanes LdbToolchain.Memory

abbrev Addr := BitVec 64

abbrev Byte := BitVec 8

/-- `size_t`. -/
abbrev Word := BitVec 64

def ONES : Word := (0 - 1) / 255
def HIGHS : Word := ONES * (255 / 2 + 1)

/-- `HASZERO`. -/
def hasZero (x : Word) : Bool := x - ONES &&& ~~~x &&& HIGHS ≠ 0

theorem toNat_mod_eight {s : Addr} : s % 8 = 0 ↔ s.toNat % 8 = 0 := by
  rw [← BitVec.toNat_inj]
  rfl

theorem alignLoop_decreases {s : Addr} (h : s % 8 ≠ 0) :
    (8 - (s + 1).toNat % 8) % 8 < (8 - s.toNat % 8) % 8 := by
  rw [Ne, toNat_mod_eight] at h
  have hone : (1 : Addr).toNat = 1 := rfl
  rw [BitVec.toNat_add, hone]
  omega

/-- `for (; (uintptr_t)s % ALIGN; s++) if (!*s || *(unsigned char *)s == c) return (char *)s;`: the
address returned, or else the one the loop ends at. -/
def alignLoop (m : Mem 64 Byte) (c : Byte) (s : Addr) : Addr ⊕ Addr :=
  if s % 8 ≠ 0 then
    if m s = 0 ∨ m s = c then .inl s else alignLoop m c (s + 1)
  else .inr s
termination_by (8 - s.toNat % 8) % 8
decreasing_by exact alignLoop_decreases ‹_›

/-- `for (w = (void *)s; !HASZERO(*w) && !HASZERO(*w^k); w++);`: where it ends, and the words it
reads. -/
def wordLoop (m : Mem 64 Byte) (k : Word) : Nat → Addr → Option (Addr × List Addr)
  | 0, _ => none
  | fuel + 1, w =>
    if ¬ hasZero (loadWord m w) ∧ ¬ hasZero (loadWord m w ^^^ k) then do
      let (last, words) ← wordLoop m k fuel (w + 8)
      return (last, w :: words)
    else some (w, [w])

/-- `for (; *s && *(unsigned char *)s != c; s++);` -/
def byteLoop (m : Mem 64 Byte) (c : Byte) : Nat → Addr → Option Addr
  | 0, _ => none
  | fuel + 1, s => if m s ≠ 0 ∧ m s ≠ c then byteLoop m c fuel (s + 1) else some s

/-- The C library's `strlen`. -/
def strlen (m : Mem 64 Byte) : Nat → Addr → Option Nat
  | 0, _ => none
  | fuel + 1, s => if m s = 0 then some 0 else (strlen m fuel (s + 1)).map (· + 1)

/-- `__strchrnul`, with the addresses of the words it reads. -/
def strchrnul (fuel : Nat) (m : Mem 64 Byte) (s : Addr) (c : BitVec 32) :
    Option (Addr × List Addr) :=
  let c : Byte := c.setWidth 8
  if c = 0 then do
    let n ← strlen m fuel s
    return (s + BitVec.ofNat 64 n, [])
  else
    match alignLoop m c s with
    | .inl s => some (s, [])
    | .inr s => do
      let k := ONES * c.setWidth 64
      let (w, words) ← wordLoop m k fuel s
      let s ← byteLoop m c fuel w
      return (s, words)

/-! ## `HASZERO` -/

theorem toNat_ONES : ONES.toNat = 0x0101010101010101 := by decide

/-- Bytes that are not zero are together at least as much as one in each. -/
theorem ones_le_mod {x i : Nat} (h : ∀ j < i, x / 2 ^ (8 * j) % 256 ≠ 0) :
    ∑ j ∈ Finset.range i, 2 ^ (8 * j) ≤ x % 2 ^ (8 * i) := by
  induction i with
  | zero => simp
  | succ i ih =>
      have hbelow := ih fun j hj => h j (Nat.lt_succ_of_lt hj)
      have hbyte : 1 ≤ x / 2 ^ (8 * i) % 256 := Nat.pos_of_ne_zero (h i (Nat.lt_succ_self i))
      have hsplit : x % 2 ^ (8 * (i + 1))
          = x % 2 ^ (8 * i) + 2 ^ (8 * i) * (x / 2 ^ (8 * i) % 256) := by
        rw [Nat.mul_succ, Nat.pow_add, Nat.mod_mul]
      rw [Finset.sum_range_succ, hsplit]
      have hone : 2 ^ (8 * i) * 1 ≤ 2 ^ (8 * i) * (x / 2 ^ (8 * i) % 256) :=
        Nat.mul_le_mul_left _ hbyte
      omega

/-- A byte with no zero byte below it: nothing is borrowed from it. -/
theorem lane_sub_ONES {x : Word} {i : Nat} (hi : i < 8) (h : ∀ j < i, lane 8 x j ≠ 0) :
    lane 8 (x - ONES) i = lane 8 x i - 1 := by
  have hbelow : ∀ j < i, x.toNat / 2 ^ (8 * j) % 256 ≠ 0 := by
    intro j hj hzero
    apply h j hj
    apply BitVec.eq_of_toNat_eq
    rw [toNat_lane]
    exact hzero
  have hlow := ones_le_mod hbelow
  have hx := x.isLt
  apply BitVec.eq_of_toNat_eq
  rw [toNat_lane, BitVec.toNat_sub, BitVec.toNat_sub, toNat_ONES, toNat_lane]
  generalize x.toNat = n at hlow hx ⊢
  interval_cases i <;> simp [Finset.sum_range_succ] at hlow ⊢ <;> omega

theorem lane_HIGHS {i : Nat} (hi : i < 8) : lane 8 HIGHS i = 128 := by
  interval_cases i <;> decide

/-- A byte that is not zero leaves no mark if nothing is borrowed from it. -/
theorem mark_of_ne_zero {b : Byte} (h : b ≠ 0) : (b - 1) &&& ~~~b &&& 128 = 0 := by
  revert b
  decide

/-- **`HASZERO` is exact**: it holds of a word exactly when one of its bytes is zero. -/
theorem hasZero_iff (x : Word) : hasZero x = true ↔ ∃ i < 8, lane 8 x i = 0 := by
  have hmark : ∀ i < 8, lane 8 (x - ONES &&& ~~~x &&& HIGHS) i
      = lane 8 (x - ONES) i &&& ~~~lane 8 x i &&& 128 := by
    intro i hi
    rw [lane_and, lane_and, lane_not x (by omega), lane_HIGHS hi]
  rw [hasZero, decide_eq_true_eq]
  constructor
  · intro hne
    by_contra hnone
    push Not at hnone
    apply hne
    have hzero : ∀ i < 8, lane 8 (x - ONES &&& ~~~x &&& HIGHS) i = lane 8 (0 : Word) i := by
      intro i hi
      rw [hmark i hi, lane_sub_ONES hi fun j hj => hnone j (hj.trans hi), lane_zero]
      exact mark_of_ne_zero (hnone i hi)
    exact eq_of_lanes hzero
  · intro hsome heq
    -- the lowest zero byte leaves a mark
    obtain ⟨hi, hzero⟩ := Nat.find_spec hsome
    have hbelow : ∀ j < Nat.find hsome, lane 8 x j ≠ 0 := by
      intro j hj hbyte
      exact Nat.find_min hsome hj ⟨hj.trans hi, hbyte⟩
    have hlane := hmark _ hi
    rw [heq, lane_zero, lane_sub_ONES hi hbelow, hzero] at hlane
    exact absurd hlane (by decide)

/-! ## The loops -/

/-- The scan stops at this address. -/
def Stops (m : Mem 64 Byte) (c : Byte) (a : Addr) : Prop := m a = 0 ∨ m a = c

/-- The scan from `a` stops `p` bytes on, and not before. -/
structure StopsAfter (m : Mem 64 Byte) (c : Byte) (a : Addr) (p : Nat) : Prop where
  goesOn : ∀ i < p, ¬ Stops m c (a + BitVec.ofNat 64 i)
  stops : Stops m c (a + BitVec.ofNat 64 p)

/-- What is left of a scan after `k` of its bytes. -/
theorem StopsAfter.drop {m : Mem 64 Byte} {c : Byte} {a : Addr} {p k : Nat}
    (h : StopsAfter m c a (k + p)) : StopsAfter m c (a + BitVec.ofNat 64 k) p where
  goesOn := by
    intro i hi
    rw [add_ofNat_add]
    exact h.goesOn (k + i) (by omega)
  stops := by
    rw [add_ofNat_add]
    exact h.stops

theorem add_one_add (s : Addr) (p : Nat) :
    s + 1 + BitVec.ofNat 64 p = s + BitVec.ofNat 64 (p + 1) := by
  have h := add_ofNat_add s 1 p
  rw [Nat.add_comm 1 p] at h
  exact h

variable {m : Mem 64 Byte} {c : Byte} {s : Addr} {p fuel : Nat}

theorem StopsAfter.zero (h : StopsAfter m c s 0) : Stops m c s := by
  simpa using h.stops

theorem StopsAfter.succ (h : StopsAfter m c s (p + 1)) :
    ¬ Stops m c s ∧ StopsAfter m c (s + 1) p := by
  constructor
  · simpa using h.goesOn 0 (Nat.succ_pos p)
  · rw [Nat.add_comm] at h
    exact h.drop

theorem byteLoop_of_stopsAfter (h : StopsAfter m c s p) (hfuel : p < fuel) :
    byteLoop m c fuel s = some (s + BitVec.ofNat 64 p) := by
  induction p generalizing s fuel with
  | zero =>
      obtain ⟨fuel, rfl⟩ : ∃ n, fuel = n + 1 := ⟨fuel - 1, by omega⟩
      have hstop : m s = 0 ∨ m s = c := h.zero
      have hcond : ¬ (m s ≠ 0 ∧ m s ≠ c) := by tauto
      rw [byteLoop, if_neg hcond]
      simp
  | succ p ih =>
      obtain ⟨fuel, rfl⟩ : ∃ n, fuel = n + 1 := ⟨fuel - 1, by omega⟩
      obtain ⟨hgo, hrest⟩ := h.succ
      have hcond : m s ≠ 0 ∧ m s ≠ c := not_or.mp hgo
      rw [byteLoop, if_pos hcond, ih hrest (Nat.lt_of_succ_lt_succ hfuel), add_one_add]

theorem strlen_of_stopsAfter (h : StopsAfter m 0 s p) (hfuel : p < fuel) :
    strlen m fuel s = some p := by
  induction p generalizing s fuel with
  | zero =>
      obtain ⟨fuel, rfl⟩ : ∃ n, fuel = n + 1 := ⟨fuel - 1, by omega⟩
      have hstop : m s = 0 := by simpa [Stops] using h.zero
      rw [strlen, if_pos hstop]
  | succ p ih =>
      obtain ⟨fuel, rfl⟩ : ∃ n, fuel = n + 1 := ⟨fuel - 1, by omega⟩
      obtain ⟨hgo, hrest⟩ := h.succ
      have hcond : ¬ m s = 0 := by simpa [Stops] using hgo
      rw [strlen, if_neg hcond, ih hrest (Nat.lt_of_succ_lt_succ hfuel)]
      rfl

/-- The first loop comes to the end of the scan, or to an aligned address before it. -/
theorem alignLoop_of_stopsAfter (h : StopsAfter m c s p) :
    alignLoop m c s = .inl (s + BitVec.ofNat 64 p) ∨
      ∃ j, j ≤ p ∧ (s + BitVec.ofNat 64 j) % 8 = 0 ∧
        alignLoop m c s = .inr (s + BitVec.ofNat 64 j) := by
  induction p generalizing s with
  | zero =>
      rw [alignLoop]
      split
      next =>
        have hstop : m s = 0 ∨ m s = c := h.zero
        rw [if_pos hstop]
        left
        simp
      next heven =>
        right
        exact ⟨0, le_rfl, by simpa using heven, by simp⟩
  | succ p ih =>
      rw [alignLoop]
      split
      next =>
        obtain ⟨hgo, hrest⟩ := h.succ
        have hcond : ¬ (m s = 0 ∨ m s = c) := hgo
        rw [if_neg hcond]
        rcases ih hrest with hfound | ⟨j, hj, halign, hrun⟩
        · left
          rw [hfound, add_one_add]
        · right
          rw [add_one_add] at halign hrun
          exact ⟨j + 1, Nat.succ_le_succ hj, halign, hrun⟩
      next heven =>
        right
        exact ⟨0, Nat.zero_le _, by simpa using heven, by simp⟩

/-! ### The word loop -/

/-- `k` holds `c` in each of its bytes. -/
theorem ONES_mul_eq (c : Byte) : ONES * c.setWidth 64 = ofLanes 64 (List.replicate 8 c) := by
  have hc : c.toNat < 256 := c.isLt
  have hnil : value ([] : List Byte) = 0 := rfl
  have hvalue : value (List.replicate 8 c) = 0x0101010101010101 * c.toNat := by
    simp only [List.replicate, value_cons, hnil]
    omega
  apply BitVec.eq_of_toNat_eq
  rw [BitVec.toNat_mul, toNat_ONES, BitVec.toNat_setWidth,
    Nat.mod_eq_of_lt (show c.toNat < 2 ^ 64 by omega), ofLanes, BitVec.toNat_ofNat, hvalue]

theorem lane_ONES_mul (c : Byte) {i : Nat} (hi : i < 8) :
    lane 8 (ONES * c.setWidth 64) i = c := by
  have hlt : i < (List.replicate 8 c).length := hi
  rw [ONES_mul_eq, lane_ofLanes _ (by rw [List.length_replicate]) hlt]
  exact List.getElem_replicate hlt

/-- The word loop goes on exactly while the scan stops at no byte of the word. -/
theorem wordLoop_cond (m : Mem 64 Byte) (c : Byte) (w : Addr) :
    (¬ hasZero (loadWord m w) ∧ ¬ hasZero (loadWord m w ^^^ (ONES * c.setWidth 64))) ↔
      ∀ i < 8, ¬ Stops m c (w + BitVec.ofNat 64 i) := by
  rw [hasZero_iff, hasZero_iff]
  push Not
  rw [← forall₂_and]
  apply forall₂_congr
  intro i hi
  rw [lane_xor, lane_loadWord m w hi, lane_ONES_mul c hi, Stops, not_or]
  exact and_congr_right fun _ => not_congr BitVec.xor_eq_zero_iff

/-- The word loop ends at the word the scan stops in, and reads none after it. -/
theorem wordLoop_of_stopsAfter (h : StopsAfter m c s p) (hfuel : p < fuel) :
    ∃ words, wordLoop m (ONES * c.setWidth 64) fuel s
        = some (s + BitVec.ofNat 64 (8 * (p / 8)), words) ∧
      ∀ w ∈ words, ∃ i ≤ p / 8, w = s + BitVec.ofNat 64 (8 * i) := by
  induction fuel generalizing s p with
  | zero => exact absurd hfuel (Nat.not_lt_zero p)
  | succ fuel ih =>
      rw [wordLoop]
      rcases Nat.lt_or_ge p 8 with hp | hp
      · have hstop : ¬ ∀ i < 8, ¬ Stops m c (s + BitVec.ofNat 64 i) := by
          intro hall
          exact hall p hp h.stops
        rw [if_neg ((wordLoop_cond m c s).not.mpr hstop), Nat.div_eq_of_lt hp]
        refine ⟨[s], by simp, ?_⟩
        intro w hw
        rw [List.mem_singleton.mp hw]
        exact ⟨0, le_rfl, by simp⟩
      · obtain ⟨q, rfl⟩ := Nat.exists_eq_add_of_le hp
        have hgo : ∀ i < 8, ¬ Stops m c (s + BitVec.ofNat 64 i) := by
          intro i hi
          exact h.goesOn i (by omega)
        have hdiv : (8 + q) / 8 = q / 8 + 1 := by omega
        have hrest : StopsAfter m c (s + 8) q := h.drop
        obtain ⟨words, hrun, hwords⟩ := ih hrest (by omega)
        have hadd : ∀ i, s + 8 + BitVec.ofNat 64 (8 * i) = s + BitVec.ofNat 64 (8 * (i + 1)) := by
          intro i
          rw [Nat.mul_succ, Nat.add_comm]
          exact add_ofNat_add s 8 (8 * i)
        rw [if_pos ((wordLoop_cond m c s).mpr hgo), hrun, hadd, hdiv]
        refine ⟨s :: words, rfl, ?_⟩
        intro w hw
        rcases List.mem_cons.mp hw with rfl | hw
        · exact ⟨0, Nat.zero_le _, by simp⟩
        · obtain ⟨i, hi, rfl⟩ := hwords w hw
          exact ⟨i + 1, Nat.succ_le_succ hi, hadd i⟩

theorem add_mul_eight_mod (hs : s % 8 = 0) (i : Nat) : (s + BitVec.ofNat 64 (8 * i)) % 8 = 0 := by
  rw [toNat_mod_eight] at hs ⊢
  rw [BitVec.toNat_add, BitVec.toNat_ofNat]
  omega

/-! ## Strings -/

/-- A NUL-terminated string of `n` bytes. -/
structure StringAt (m : Mem 64 Byte) (s : Addr) (n : Nat) : Prop where
  nonul : ∀ i < n, m (s + BitVec.ofNat 64 i) ≠ 0
  terminator : m (s + BitVec.ofNat 64 n) = 0

variable {n : Nat}

/-- The scan of a string stops, at its terminator at the latest. -/
theorem StringAt.stopsAfter (h : StringAt m s n) (c : Byte) :
    ∃ p ≤ n, StopsAfter m c s p ∧ (m (s + BitVec.ofNat 64 p) = c ∨ p = n) := by
  classical
  have hsome : ∃ p, Stops m c (s + BitVec.ofNat 64 p) := ⟨n, Or.inl h.terminator⟩
  have hle : Nat.find hsome ≤ n := Nat.find_min' hsome (Or.inl h.terminator)
  refine ⟨Nat.find hsome, hle, ⟨fun i hi => Nat.find_min hsome hi, Nat.find_spec hsome⟩, ?_⟩
  rcases Nat.find_spec hsome with hnul | hchar
  · right
    by_contra hne
    exact h.nonul _ (lt_of_le_of_ne hle hne) hnul
  · exact Or.inl hchar

/-- `__strchrnul` ends where the scan stops. Every word its loop reads is aligned and begins no
later than that. -/
theorem strchrnul_of_stopsAfter {c : BitVec 32} (h : StopsAfter m (c.setWidth 8) s p)
    (hfuel : p < fuel) :
    ∃ words, strchrnul fuel m s c = some (s + BitVec.ofNat 64 p, words) ∧
      ∀ w ∈ words, w % 8 = 0 ∧ ∃ i ≤ p, w = s + BitVec.ofNat 64 i := by
  rw [strchrnul]
  by_cases hzero : c.setWidth 8 = (0 : Byte)
  · rw [hzero] at h
    refine ⟨[], ?_, by simp⟩
    rw [if_pos hzero, strlen_of_stopsAfter h hfuel]
    rfl
  · rw [if_neg hzero]
    rcases alignLoop_of_stopsAfter h with hearly | ⟨j, hj, halign, hloop⟩
    · refine ⟨[], ?_, by simp⟩
      rw [hearly]
    · obtain ⟨q, rfl⟩ := Nat.exists_eq_add_of_le hj
      have hdiv : j + 8 * (q / 8) + q % 8 = j + q := by omega
      have hturns : q < fuel ∧ q % 8 < fuel := by omega
      obtain ⟨words, hwordLoop, hwords⟩ := wordLoop_of_stopsAfter h.drop hturns.1
      -- the byte loop starts in the word the word loop ended at
      have hrest : StopsAfter m (c.setWidth 8) (s + BitVec.ofNat 64 (j + 8 * (q / 8))) (q % 8) := by
        apply StopsAfter.drop
        rw [hdiv]
        exact h
      have hbyteLoop := byteLoop_of_stopsAfter hrest hturns.2
      refine ⟨words, ?_, ?_⟩
      · rw [hloop]
        show Option.bind (wordLoop m (ONES * (c.setWidth 8).setWidth 64) fuel _) _ = _
        rw [hwordLoop, Option.bind_some, add_ofNat_add]
        show Option.bind (byteLoop m (c.setWidth 8) fuel _) _ = _
        rw [hbyteLoop, Option.bind_some, add_ofNat_add, hdiv]
        rfl
      · intro w hw
        obtain ⟨i, hi, rfl⟩ := hwords w hw
        refine ⟨add_mul_eight_mod halign i, j + 8 * i, by omega, ?_⟩
        rw [add_ofNat_add]

/-- **`__strchrnul` is the byte scan.** On a string it returns the address of the first byte equal
to `(unsigned char)c`, or of the terminator when there is none before it, and every word its loop
reads is aligned and begins no later than the address returned. -/
theorem strchrnul_scans (h : StringAt m s n) (c : BitVec 32) (hfuel : n < fuel) :
    ∃ p words, strchrnul fuel m s c = some (s + BitVec.ofNat 64 p, words) ∧ p ≤ n ∧
      (∀ i < p, m (s + BitVec.ofNat 64 i) ≠ c.setWidth 8) ∧
      (m (s + BitVec.ofNat 64 p) = c.setWidth 8 ∨ p = n) ∧
      ∀ w ∈ words, w % 8 = 0 ∧ ∃ i ≤ p, w = s + BitVec.ofNat 64 i := by
  obtain ⟨p, hp, hstops, hfound⟩ := h.stopsAfter (c.setWidth 8)
  have hbefore : ∀ i < p, m (s + BitVec.ofNat 64 i) ≠ c.setWidth 8 := by
    intro i hi hchar
    exact hstops.goesOn i hi (Or.inr hchar)
  obtain ⟨words, hrun, hwords⟩ := strchrnul_of_stopsAfter hstops (Nat.lt_of_le_of_lt hp hfuel)
  exact ⟨p, words, hrun, hp, hbefore, hfound, hwords⟩

/-- The string `ab` at an address that is not aligned, with the `b` in the next word. -/
def abMemory : Mem 64 Byte := fun a =>
  if a = 0x1007 then 97 else if a = 0x1008 then 98 else 0

theorem abMemory_stringAt : StringAt abMemory 0x1007 2 where
  nonul := by
    intro i hi
    interval_cases i <;> decide
  terminator := by decide

theorem strchrnul_scans_ab :
    ∃ p words, strchrnul 3 abMemory 0x1007 98 = some (0x1007 + BitVec.ofNat 64 p, words) ∧
      p ≤ 2 ∧
      (∀ i < p, abMemory (0x1007 + BitVec.ofNat 64 i) ≠ (98 : BitVec 32).setWidth 8) ∧
      (abMemory (0x1007 + BitVec.ofNat 64 p) = (98 : BitVec 32).setWidth 8 ∨ p = 2) ∧
      ∀ w ∈ words, w % 8 = 0 ∧ ∃ i ≤ p, w = 0x1007 + BitVec.ofNat 64 i :=
  strchrnul_scans abMemory_stringAt 98 (by decide)

/-! ## The search for a colon in `PATH`

`__execvpe` is modelled over strings as lists of bytes, with `Spawn.strchrnul` in the place of
`__strchrnul`. -/

/-- The bytes of a string. -/
def bytesAt (m : Mem 64 Byte) (s : Addr) (n : Nat) : List UInt8 :=
  (readBytes m s n).map UInt8.ofBitVec

theorem length_bytesAt : (bytesAt m s n).length = n := by
  rw [bytesAt, List.length_map, length_readBytes]

theorem getElem_bytesAt {i : Nat} (hi : i < (bytesAt m s n).length) :
    (bytesAt m s n)[i] = UInt8.ofBitVec (m (s + BitVec.ofNat 64 i)) := by
  simp [bytesAt, readBytes]

/-- A byte of the string the scan goes on at is not the one looked for. -/
theorem StopsAfter.getElem_ne (h : StopsAfter m c s p) {i : Nat} (hi : i < p)
    (hlt : i < (bytesAt m s n).length) : (bytesAt m s n)[i] ≠ UInt8.ofBitVec c := by
  rw [getElem_bytesAt]
  intro heq
  exact h.goesOn i hi (Or.inr (congrArg UInt8.toBitVec heq))

/-- What is left of a string from where the scan stops is what `Spawn.strchrnul` returns. -/
theorem length_strchrnul_bytesAt (hp : p ≤ n) (hstops : StopsAfter m c s p)
    (hfound : m (s + BitVec.ofNat 64 p) = c ∨ p = n) :
    (Spawn.strchrnul (bytesAt m s n) (UInt8.ofBitVec c)).length = n - p := by
  have hidx : (bytesAt m s n).findIdx (fun b => !decide (b ≠ UInt8.ofBitVec c)) = p := by
    rcases Nat.lt_or_eq_of_le hp with hlt | rfl
    · have hchar := hfound.resolve_right hlt.ne
      rw [List.findIdx_eq (by rwa [length_bytesAt])]
      constructor
      · rw [getElem_bytesAt, hchar]
        simp
      · intro i hi
        simpa using hstops.getElem_ne hi _
    · have hnone : ∀ b ∈ bytesAt m s p, (!decide (b ≠ UInt8.ofBitVec c)) = false := by
        intro b hb
        obtain ⟨i, hi, rfl⟩ := List.mem_iff_getElem.mp hb
        simpa using hstops.getElem_ne (by rwa [length_bytesAt] at hi) hi
      have hend := List.findIdx_eq_length.mpr hnone
      rwa [length_bytesAt] at hend
  rw [Spawn.strchrnul, List.dropWhile_eq_drop_findIdx_not, List.length_drop, length_bytesAt, hidx]

/-- `__strchrnul` and `Spawn.strchrnul` agree on every string. -/
theorem strchrnul_refines (h : StringAt m s n) (c : BitVec 32) (hfuel : n < fuel) :
    ∃ words, strchrnul fuel m s c = some (s + BitVec.ofNat 64
      (n - (Spawn.strchrnul (bytesAt m s n) (UInt8.ofBitVec (c.setWidth 8))).length), words) := by
  obtain ⟨p, hp, hstops, hfound⟩ := h.stopsAfter (c.setWidth 8)
  obtain ⟨words, hrun, -⟩ := strchrnul_of_stopsAfter hstops (Nat.lt_of_le_of_lt hp hfuel)
  rw [length_strchrnul_bytesAt hp hstops hfound, Nat.sub_sub_self hp]
  exact ⟨words, hrun⟩

end LdbToolchain.Strchrnul
