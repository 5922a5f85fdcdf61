import LdbToolchain.Memcpy.Basic

/-!
# `inline_memcpy` copies

A run is followed through `Progress J W c s`: in the state `s`, exactly the offsets `W` of the job
`J` have been copied, nothing was done that `J` does not allow, and the branch for large sizes was
entered `c` times. Every block the program copies extends `W` by that block, whatever `W` was; the
program is right because the blocks it picks cover `[0, n)` and stay inside it. That some bytes are
copied twice is of no consequence, since a byte of the source is never disturbed
(`readBytes_copiedOn`).
-/

namespace LdbToolchain.Memcpy

open LdbToolchain.Memory

/-- What a call is asked to do: copy `n` bytes from `src` to `dst`. -/
structure Job where
  mem : Mem 64 Byte
  dst : Word
  src : Word
  n : Nat
  fits : n ≤ 2 ^ 64

/-- The two regions are disjoint or identical. -/
abbrev Job.Separate (J : Job) : Prop := SameOrSeparate J.dst J.src J.n

/-- The address of offset `o` of the destination. -/
def Job.dstAt (J : Job) (o : Nat) : Word := J.dst + BitVec.ofNat 64 o

/-- The address of offset `o` of the source. -/
def Job.srcAt (J : Job) (o : Nat) : Word := J.src + BitVec.ofNat 64 o

/-- What a run may do: load inside the source, store inside the destination, store aligned only
where the address is a multiple of 16, and subtract from `size` no more than it holds. -/
def Job.Allows (J : Job) : Event → Prop
  | .load a k => ∃ o, a = J.srcAt o ∧ o + k ≤ J.n
  | .store a k aligned => ∃ o, a = J.dstAt o ∧ o + k ≤ J.n ∧ (aligned = true → a % 16 = 0)
  | .subSize size k => k ≤ size
  | .large => True

/-- The offsets `W` have been copied and the branch for large sizes was entered `c` times. -/
structure Progress (J : Job) (W : Set Nat) (c : Nat) (s : Machine) : Prop where
  within : W ⊆ Set.Iio J.n
  mem_eq : J.Separate → s.mem = copiedOn J.mem J.dst J.src W
  allowed : ∀ e ∈ s.trace, J.Allows e
  entries : s.trace.count .large = c

variable {J : Job} {W : Set Nat} {c : Nat} {s : Machine}

/-! ## The primitive operations -/

@[simp] theorem wp_emit (e : Event) (Q : PUnit → Machine → Prop) (s : Machine) :
    wp (emit e) Q s ↔ Q ⟨⟩ (s.log e) := by
  simp [emit]

@[simp] theorem wp_load (a : Word) (k : Nat) (Q : List Byte → Machine → Prop) (s : Machine) :
    wp (load a k) Q s ↔ Q (readBytes s.mem a k) (s.log (.load a k)) := by
  simp [load]

@[simp] theorem wp_store (al : Bool) (a : Word) (bs : List Byte) (Q : PUnit → Machine → Prop)
    (s : Machine) :
    wp (store al a bs) Q s ↔ Q ⟨⟩ ((s.log (.store a bs.length al)).write a bs) := by
  simp [store]

@[simp] theorem wp_minusSize (size k : Word) (Q : Word → Machine → Prop) (s : Machine) :
    wp (minusSize size k) Q s ↔ Q (size - k) (s.log (.subSize size k)) := by
  simp [minusSize]

@[simp] theorem wp_fromEnd (p size k : Word) (Q : Word → Machine → Prop) (s : Machine) :
    wp (fromEnd p size k) Q s ↔ Q (p + size - k) (s.log (.subSize size k)) := by
  simp [fromEnd]

theorem Progress.log {e : Event} (h : Progress J W c s) (he : J.Allows e) (hne : e ≠ .large) :
    Progress J W c (s.log e) where
  within := h.within
  mem_eq := h.mem_eq
  allowed := by
    intro e' he'
    rcases List.mem_append.mp he' with h' | h'
    · exact h.allowed e' h'
    · rw [List.mem_singleton.mp h']; exact he
  entries := by
    show (s.trace ++ [e]).count .large = c
    rw [List.count_append, h.entries, List.count_singleton]
    simp [hne]

theorem Progress.large (h : Progress J W c s) : Progress J W (c + 1) (s.log .large) where
  within := h.within
  mem_eq := h.mem_eq
  allowed := by
    intro e' he'
    rcases List.mem_append.mp he' with h' | h'
    · exact h.allowed e' h'
    · rw [List.mem_singleton.mp h']; exact trivial
  entries := by
    show (s.trace ++ [Event.large]).count .large = c + 1
    rw [List.count_append, h.entries, List.count_singleton_self]

/-- A load of the source leaves the copied offsets as they are and returns original bytes. -/
theorem Progress.load (h : Progress J W c s) {o k : Nat} (hok : o + k ≤ J.n) :
    Progress J W c (s.log (.load (J.srcAt o) k)) ∧
      (J.Separate → readBytes s.mem (J.srcAt o) k = readBytes J.mem (J.srcAt o) k) := by
  refine ⟨h.log ⟨o, rfl, hok⟩ (by simp), fun hsep => ?_⟩
  rw [h.mem_eq hsep]
  exact readBytes_copiedOn hsep h.within J.fits hok

/-- Storing original bytes of the source copies the block they came from. -/
theorem Progress.store (h : Progress J W c s) {o k : Nat} {al : Bool} {bs : List Byte}
    (hok : o + k ≤ J.n) (hlen : bs.length = k) (hal : al = true → J.dstAt o % 16 = 0)
    (hbs : J.Separate → bs = readBytes J.mem (J.srcAt o) k) :
    Progress J (W ∪ Set.Ico o (o + k)) c
      ((s.log (.store (J.dstAt o) bs.length al)).write (J.dstAt o) bs) := by
  have hlog : Progress J W c (s.log (.store (J.dstAt o) bs.length al)) :=
    h.log ⟨o, rfl, hlen ▸ hok, hal⟩ (by simp)
  refine ⟨?_, fun hsep => ?_, hlog.allowed, hlog.entries⟩
  · exact Set.union_subset h.within fun i hi => lt_of_lt_of_le hi.2 hok
  · show writeBytes s.mem (J.dstAt o) bs = _
    rw [h.mem_eq hsep, hbs hsep]
    exact writeBytes_copiedOn (le_trans hok J.fits)

/-! ## Copying one block -/

theorem wp_builtinMemcpy (h : Progress J W c s) {o k : Nat} (hok : o + k ≤ J.n) :
    wp (builtinMemcpy (J.dstAt o) (J.srcAt o) k)
      (fun _ s' => Progress J (W ∪ Set.Ico o (o + k)) c s') s := by
  obtain ⟨hload, hbytes⟩ := h.load hok
  simp only [builtinMemcpy, wp_bind, wp_load, wp_store]
  exact hload.store hok (length_readBytes ..) (by simp) hbytes

variable {V : Simd}

/-- A register that holds the 16 bytes at offset `o` of the source. -/
def Holds (J : Job) (V : Simd) (o : Nat) (r : V.Reg) : Prop :=
  J.Separate → V.toBytes r = readBytes J.mem (J.srcAt o) 16

theorem wp_mmLoaduSi128 (h : Progress J W c s) {o : Nat} (hok : o + 16 ≤ J.n) :
    wp (mmLoaduSi128 V (J.srcAt o)) (fun r s' => Holds J V o r ∧ Progress J W c s') s := by
  obtain ⟨hload, hbytes⟩ := h.load hok
  simp only [mmLoaduSi128, wp_bind, wp_load, wp_pure]
  refine ⟨fun hsep => ?_, hload⟩
  rw [V.toBytes_ofBytes _ (length_readBytes ..), hbytes hsep]

theorem wp_mmStoreuSi128 (h : Progress J W c s) {o : Nat} (hok : o + 16 ≤ J.n) {r : V.Reg}
    (hr : Holds J V o r) :
    wp (mmStoreuSi128 V (J.dstAt o) r)
      (fun _ s' => Progress J (W ∪ Set.Ico o (o + 16)) c s') s := by
  simp only [mmStoreuSi128, wp_store]
  exact h.store hok (V.length_toBytes r) (by simp) hr

theorem wp_mmStoreSi128 (h : Progress J W c s) {o : Nat} (hok : o + 16 ≤ J.n)
    (hal : J.dstAt o % 16 = 0) {r : V.Reg} (hr : Holds J V o r) :
    wp (mmStoreSi128 V (J.dstAt o) r)
      (fun _ s' => Progress J (W ∪ Set.Ico o (o + 16)) c s') s := by
  have hnofault : ¬ (V.alignedOnly = true ∧ J.dstAt o % 16 ≠ 0) := fun hbad => hbad.2 hal
  simp only [mmStoreSi128, if_neg hnofault, wp_store]
  exact h.store hok (V.length_toBytes r) (fun _ => hal) hr

/-! ## The loops

The registers of a loop are `dstAt o`, `srcAt o` and what is left of `n` after `o`. -/

/-- At least the offsets `W` have been copied. -/
def Reaches (J : Job) (W : Set Nat) (c : Nat) (s : Machine) : Prop :=
  ∃ W', W ⊆ W' ∧ Progress J W' c s

theorem Job.dstAt_add (J : Job) (o k : Nat) :
    J.dstAt o + BitVec.ofNat 64 k = J.dstAt (o + k) := add_ofNat_add J.dst o k

theorem Job.srcAt_add (J : Job) (o k : Nat) :
    J.srcAt o + BitVec.ofNat 64 k = J.srcAt (o + k) := add_ofNat_add J.src o k

theorem Job.dstAt_end {size : Word} {o k : Nat} (hsize : size.toNat + o = J.n)
    (hk : k ≤ size.toNat) : J.dstAt o + size - BitVec.ofNat 64 k = J.dstAt (J.n - k) :=
  add_size_sub J.dst size hsize hk

theorem Job.srcAt_end {size : Word} {o k : Nat} (hsize : size.toNat + o = J.n)
    (hk : k ≤ size.toNat) : J.srcAt o + size - BitVec.ofNat 64 k = J.srcAt (J.n - k) :=
  add_size_sub J.src size hsize hk

theorem wp_mediumLoop {size : Word} {o : Nat} (h : Progress J W c s)
    (hsize : size.toNat + o = J.n) :
    wp (mediumLoop V (J.dstAt o) (J.srcAt o) size)
      (fun _ s' => Reaches J (W ∪ Set.Ico o (J.n - 16)) c s') s := by
  induction hk : size.toNat using Nat.strongRecOn generalizing size o W s with
  | ind k ih =>
    rw [mediumLoop]
    split
    · next hlt =>
      have hmore : 16 < size.toNat := by bv_omega
      -- the invariant for the next turn: `size` is what is left of `n` after `o + 16`
      have hnext : (size - 16).toNat + (o + 16) = J.n := by bv_omega
      simp only [wp_bind, wp_minusSize]
      refine wp_mono (wp_mmLoaduSi128 h (o := o) (by omega)) ?_
      rintro r s₁ ⟨hr, h₁⟩
      refine wp_mono (wp_mmStoreuSi128 h₁ (by omega) hr) fun _ s₂ h₂ => ?_
      have h₃ := h₂.log (e := .subSize size 16) (by show (16 : Word) ≤ size; bv_omega) (by simp)
      have hrec := ih (size - 16).toNat (by bv_omega) h₃ hnext rfl
      rw [← J.dstAt_add, ← J.srcAt_add] at hrec
      refine wp_mono hrec ?_
      rintro _ s' ⟨W', hW', h'⟩
      refine ⟨W', ?_, h'⟩
      refine Set.union_subset (fun i hi => hW' (.inl (.inl hi))) fun i hi => ?_
      by_cases hi' : i < o + 16
      · exact hW' (.inl (.inr ⟨hi.1, hi'⟩))
      · exact hW' (.inr ⟨by omega, hi.2⟩)
    · next hge =>
      have hnone : Set.Ico o (J.n - 16) = ∅ := Set.Ico_eq_empty (by bv_omega)
      rw [wp_pure, hnone, Set.union_empty]
      exact ⟨W, subset_rfl, h⟩

/-- Load `i` of the unrolled loop, with the rest of the program as continuation. -/
theorem wp_loadStep {β : Type} {f : V.Reg → M β} {Q : β → Machine → Prop} {a : Word} {o : Nat}
    (i : Nat) (hi : i < 8) (hroom : o + 128 ≤ J.n) (ha : a = J.srcAt (o + 16 * i))
    (h : Progress J W c s)
    (hf : ∀ r s', Holds J V (o + 16 * i) r → Progress J W c s' → wp (f r) Q s') :
    wp (mmLoaduSi128 V a >>= f) Q s := by
  rw [wp_bind, ha]
  exact wp_mono (wp_mmLoaduSi128 h (by omega)) fun r s' hr => hf r s' hr.1 hr.2

theorem toNat_mod_sixteen {a : Word} : a % 16 = 0 ↔ a.toNat % 16 = 0 := by
  rw [← BitVec.toNat_inj]
  rfl

theorem Job.dstAt_aligned_add {o k : Nat} (h : J.dstAt o % 16 = 0) (hk : k % 16 = 0) :
    J.dstAt (o + k) % 16 = 0 := by
  rw [toNat_mod_sixteen] at h ⊢
  rw [← J.dstAt_add, BitVec.toNat_add, BitVec.toNat_ofNat]
  omega

/-- Store `i` of the unrolled loop, with the rest of the program as continuation. -/
theorem wp_storeStep {β : Type} {f : PUnit → M β} {Q : β → Machine → Prop} {a : Word} {o : Nat}
    {r : V.Reg} (i : Nat) (hi : i < 8) (hroom : o + 128 ≤ J.n) (hal : J.dstAt o % 16 = 0)
    (ha : a = J.dstAt (o + 16 * i)) (hr : Holds J V (o + 16 * i) r)
    (h : Progress J (W ∪ Set.Ico o (o + 16 * i)) c s)
    (hf : ∀ s', Progress J (W ∪ Set.Ico o (o + 16 * (i + 1))) c s' → wp (f ⟨⟩) Q s') :
    wp (mmStoreSi128 V a r >>= f) Q s := by
  have hali : J.dstAt (o + 16 * i) % 16 = 0 := J.dstAt_aligned_add hal (Nat.mul_mod_right 16 i)
  rw [wp_bind, ha]
  refine wp_mono (wp_mmStoreSi128 h (by omega) hali hr) fun _ s' h' => hf s' ?_
  rwa [Set.union_assoc, Set.Ico_union_Ico_eq_Ico (by omega) (by omega)] at h'

theorem wp_largeLoop {size : Word} {o : Nat} (h : Progress J W c s)
    (hsize : size.toNat + o = J.n) (hal : J.dstAt o % 16 = 0) :
    wp (largeLoop V (J.dstAt o) (J.srcAt o) size)
      (fun r s' => ∃ o', o ≤ o' ∧ r.dst = J.dstAt o' ∧ r.src = J.srcAt o' ∧
        r.size.toNat + o' = J.n ∧ Reaches J (W ∪ Set.Ico o o') c s') s := by
  induction hk : size.toNat using Nat.strongRecOn generalizing size o W s with
  | ind k ih =>
    rw [largeLoop]
    split
    · next hge =>
      have hmore : 128 ≤ size.toNat := by bv_omega
      have hnext : (size - 128).toNat + (o + 128) = J.n := by bv_omega
      have hroom : o + 128 ≤ J.n := by omega
      refine wp_loadStep 0 (by decide) hroom (J.srcAt_add o (16 * 0)) h fun c0 _ hc0 h => ?_
      refine wp_loadStep 1 (by decide) hroom (J.srcAt_add o (16 * 1)) h fun c1 _ hc1 h => ?_
      refine wp_loadStep 2 (by decide) hroom (J.srcAt_add o (16 * 2)) h fun c2 _ hc2 h => ?_
      refine wp_loadStep 3 (by decide) hroom (J.srcAt_add o (16 * 3)) h fun c3 _ hc3 h => ?_
      refine wp_loadStep 4 (by decide) hroom (J.srcAt_add o (16 * 4)) h fun c4 _ hc4 h => ?_
      refine wp_loadStep 5 (by decide) hroom (J.srcAt_add o (16 * 5)) h fun c5 _ hc5 h => ?_
      refine wp_loadStep 6 (by decide) hroom (J.srcAt_add o (16 * 6)) h fun c6 _ hc6 h => ?_
      refine wp_loadStep 7 (by decide) hroom (J.srcAt_add o (16 * 7)) h fun c7 _ hc7 h => ?_
      rw [← Set.union_empty W, ← Set.Ico_self o] at h
      refine wp_storeStep 0 (by decide) hroom hal (J.dstAt_add o (16 * 0)) hc0 h fun _ h => ?_
      refine wp_storeStep 1 (by decide) hroom hal (J.dstAt_add o (16 * 1)) hc1 h fun _ h => ?_
      refine wp_storeStep 2 (by decide) hroom hal (J.dstAt_add o (16 * 2)) hc2 h fun _ h => ?_
      refine wp_storeStep 3 (by decide) hroom hal (J.dstAt_add o (16 * 3)) hc3 h fun _ h => ?_
      refine wp_storeStep 4 (by decide) hroom hal (J.dstAt_add o (16 * 4)) hc4 h fun _ h => ?_
      refine wp_storeStep 5 (by decide) hroom hal (J.dstAt_add o (16 * 5)) hc5 h fun _ h => ?_
      refine wp_storeStep 6 (by decide) hroom hal (J.dstAt_add o (16 * 6)) hc6 h fun _ h => ?_
      refine wp_storeStep 7 (by decide) hroom hal (J.dstAt_add o (16 * 7)) hc7 h fun _ h => ?_
      simp only [wp_bind, wp_minusSize]
      have h := h.log (e := .subSize size 128) hge (by simp)
      have hrec := ih (size - 128).toNat (by bv_omega) h hnext (J.dstAt_aligned_add hal rfl) rfl
      rw [← J.dstAt_add, ← J.srcAt_add] at hrec
      refine wp_mono hrec ?_
      rintro r s' ⟨o', hle, hdst, hsrc, hrest, W', hW', h'⟩
      refine ⟨o', by omega, hdst, hsrc, hrest, W', ?_, h'⟩
      rw [Set.union_assoc, Set.Ico_union_Ico_eq_Ico (by omega) hle] at hW'
      exact hW'
    · next hlt =>
      have hnone : W ∪ Set.Ico o o = W := by rw [Set.Ico_self, Set.union_empty]
      rw [wp_pure]
      exact ⟨o, le_rfl, rfl, rfl, hsize, W, hnone.subset, h⟩

/-! ## The branches of `tail`

All of them are entered at some offset `o` with everything before it copied. -/

/-- Two overlapping moves cover a block of at least `k` and at most `2 * k` bytes. -/
theorem wp_headTail {size : Word} {o k : Nat} (h : Progress J W c s)
    (hsize : size.toNat + o = J.n) (hk : k ≤ size.toNat) (hk2 : size.toNat ≤ 2 * k)
    (hk64 : k < 2 ^ 64) :
    wp (do
        builtinMemcpy (← fromEnd (J.dstAt o) size (BitVec.ofNat 64 k))
          (← fromEnd (J.srcAt o) size (BitVec.ofNat 64 k)) k
        builtinMemcpy (J.dstAt o) (J.srcAt o) k)
      (fun _ s' => Reaches J (W ∪ Set.Ico o J.n) c s') s := by
  have hsub : J.Allows (.subSize size (BitVec.ofNat 64 k)) := by
    show BitVec.ofNat 64 k ≤ size
    rw [BitVec.le_def, BitVec.toNat_ofNat, Nat.mod_eq_of_lt hk64]
    exact hk
  simp only [wp_bind, wp_fromEnd]
  rw [J.dstAt_end hsize hk, J.srcAt_end hsize hk]
  have h := (h.log hsub (by simp)).log hsub (by simp)
  refine wp_mono (wp_builtinMemcpy h (by omega)) fun _ s₁ h₁ => ?_
  refine wp_mono (wp_builtinMemcpy h₁ (by omega)) fun _ s₂ h₂ => ⟨_, ?_, h₂⟩
  -- an offset is in the head, or in the tail
  refine Set.union_subset (fun i hi => .inl (.inl hi)) fun i hi => ?_
  rcases Nat.lt_or_ge i (o + k) with hlt | hge
  · exact .inr ⟨hi.1, hlt⟩
  · exact .inl (.inr ⟨by omega, by have := hi.2; omega⟩)

theorem wp_copySmall {size : Word} {o : Nat} (h : Progress J W c s)
    (hsize : size.toNat + o = J.n) (hle : size ≤ 16) :
    wp (copySmall (J.dstAt o) (J.srcAt o) size)
      (fun _ s' => Reaches J (W ∪ Set.Ico o J.n) c s') s := by
  unfold copySmall
  split
  · exact wp_headTail h hsize (k := 8) (by bv_omega) (by bv_omega) (by decide)
  split
  · exact wp_headTail h hsize (k := 4) (by bv_omega) (by bv_omega) (by decide)
  split
  · exact wp_headTail h hsize (k := 2) (by bv_omega) (by bv_omega) (by decide)
  split
  · have hone : o + 1 = J.n := by bv_omega
    refine wp_mono (wp_builtinMemcpy h (k := 1) (by omega)) fun _ s' h' => ⟨_, ?_, h'⟩
    rw [hone]
  · have hnone : Set.Ico o J.n = ∅ := Set.Ico_eq_empty (by bv_omega)
    rw [wp_pure, hnone, Set.union_empty]
    exact ⟨W, subset_rfl, h⟩

theorem wp_copyMedium {size : Word} {o : Nat} (h : Progress J W c s)
    (hsize : size.toNat + o = J.n) (hgt : ¬ size ≤ 16) :
    wp (copyMedium V (J.dstAt o) (J.srcAt o) size)
      (fun _ s' => Reaches J (W ∪ Set.Ico o J.n) c s') s := by
  have hmore : 16 ≤ size.toNat := by bv_omega
  have hsub : J.Allows (.subSize size 16) := by show (16 : Word) ≤ size; bv_omega
  have hdst : J.dstAt o + size - 16 = J.dstAt (J.n - 16) := J.dstAt_end hsize hmore
  have hsrc : J.srcAt o + size - 16 = J.srcAt (J.n - 16) := J.srcAt_end hsize hmore
  unfold copyMedium
  simp only [wp_bind, wp_fromEnd, hdst, hsrc]
  have h := h.log hsub (by simp)
  refine wp_mono (wp_mmLoaduSi128 h (by omega)) ?_
  rintro r s₁ ⟨hr, h₁⟩
  have h₁ := h₁.log hsub (by simp)
  refine wp_mono (wp_mmStoreuSi128 h₁ (by omega) hr) fun _ s₂ h₂ => ?_
  refine wp_mono (wp_mediumLoop h₂ hsize) ?_
  rintro _ s₃ ⟨W', hW', h₃⟩
  refine ⟨W', ?_, h₃⟩
  refine Set.union_subset (fun i hi => hW' (.inl (.inl hi))) fun i hi => ?_
  rcases Nat.lt_or_ge i (J.n - 16) with hlt | hge
  · exact hW' (.inr ⟨hi.1, hlt⟩)
  · exact hW' (.inl (.inr ⟨hge, by have := hi.2; omega⟩))

/-- `padding` is what is missing to the next multiple of 16. -/
theorem padding_spec (a : Word) :
    ((16 - (a &&& 15)) &&& 15).toNat < 16 ∧ (a + ((16 - (a &&& 15)) &&& 15)) % 16 = 0 := by
  have mask : ∀ x : Word, (x &&& 15).toNat = x.toNat % 16 := by
    intro x
    rw [BitVec.toNat_and]
    exact Nat.and_two_pow_sub_one_eq_mod x.toNat 4
  have hpad : ((16 - (a &&& 15)) &&& 15).toNat = (16 - a.toNat % 16) % 16 := by
    rw [mask, BitVec.toNat_sub, mask]
    show (2 ^ 64 - a.toNat % 16 + 16) % 2 ^ 64 % 16 = _
    omega
  refine ⟨by omega, ?_⟩
  rw [toNat_mod_sixteen, BitVec.toNat_add, hpad]
  omega

theorem wp_alignHead {size : Word} {o : Nat} (h : Progress J W c s)
    (hsize : size.toNat + o = J.n) (hgt : ¬ size ≤ 128) :
    wp (alignHead V (J.dstAt o) (J.srcAt o) size)
      (fun r s' => ∃ o', o ≤ o' ∧ r.1 = J.dstAt o' ∧ r.2.1 = J.srcAt o' ∧
        r.2.2.toNat + o' = J.n ∧ J.dstAt o' % 16 = 0 ∧ Reaches J (W ∪ Set.Ico o o') c s') s := by
  obtain ⟨hpad, haligned⟩ := padding_spec (J.dstAt o)
  unfold alignHead
  generalize (16 - (J.dstAt o &&& 15)) &&& 15 = padding at hpad haligned ⊢
  have hof : padding = BitVec.ofNat 64 padding.toNat := by simp
  have hmore : 128 < size.toNat := by bv_omega
  dsimp only
  split
  · simp only [wp_bind, wp_minusSize, wp_pure]
    refine wp_mono (wp_mmLoaduSi128 h (by omega)) ?_
    rintro r s₁ ⟨hr, h₁⟩
    refine wp_mono (wp_mmStoreuSi128 h₁ (by omega) hr) fun _ s₂ h₂ => ?_
    have hsub : J.Allows (.subSize size padding) := by show padding ≤ size; bv_omega
    refine ⟨o + padding.toNat, by omega, ?_, ?_, by bv_omega, ?_, _, ?_, h₂.log hsub (by simp)⟩
    · rw [← J.dstAt_add, ← hof]
    · rw [← J.srcAt_add, ← hof]
    · rw [← J.dstAt_add, ← hof]; exact haligned
    · exact Set.union_subset_union_right W (Set.Ico_subset_Ico_right (by omega))
  · have hzero : padding = 0 := by bv_omega
    rw [wp_pure]
    refine ⟨o, le_rfl, rfl, rfl, hsize, ?_, W, ?_, h⟩
    · rw [hzero] at haligned
      simpa using haligned
    · rw [Set.Ico_self, Set.union_empty]

/-- Up to 128 bytes are copied without entering the large branch. -/
theorem wp_tail_le {size : Word} {o : Nat} (h : Progress J W c s)
    (hsize : size.toNat + o = J.n) (hle : size ≤ 128) :
    wp (tail V (J.dstAt o) (J.srcAt o) size)
      (fun _ s' => Reaches J (W ∪ Set.Ico o J.n) c s') s := by
  rw [tail, dif_pos hle]
  split
  · next hsmall => exact wp_copySmall h hsize hsmall
  · next hmedium => exact wp_copyMedium h hsize hmedium

/-- Any size is copied, and the large branch is entered at most once: what the unrolled loop
leaves is below 128 bytes. -/
theorem wp_tail {size : Word} {o : Nat} (h : Progress J W 0 s) (hsize : size.toNat + o = J.n) :
    wp (tail V (J.dstAt o) (J.srcAt o) size)
      (fun _ s' => ∃ c, c ≤ 1 ∧ Reaches J (W ∪ Set.Ico o J.n) c s') s := by
  by_cases hle : size ≤ 128
  · exact wp_mono (wp_tail_le h hsize hle) fun _ s' h' => ⟨0, by decide, h'⟩
  rw [tail, if_neg (by bv_omega), dif_neg hle]
  simp only [wp_bind, wp_emit]
  refine wp_mono (wp_alignHead h.large hsize hle) ?_
  rintro ⟨_, _, size₁⟩ s₁ ⟨o₁, hle₁, rfl, rfl, hsize₁, hal, W₁, hW₁, h₁⟩
  refine wp_mono (wp_largeLoop h₁ hsize₁ hal) ?_
  rintro ⟨_, _, size₂, hlt₂⟩ s₂ ⟨o₂, hle₂, rfl, rfl, hsize₂, W₂, hW₂, h₂⟩
  refine wp_mono (wp_tail_le h₂ hsize₂ (BitVec.le_of_lt hlt₂)) ?_
  rintro _ s₃ ⟨W₃, hW₃, h₃⟩
  -- the alignment copies up to `o₁`, the unrolled loop up to `o₂`, the last part the rest
  refine ⟨1, le_rfl, W₃, Set.union_subset (fun i hi => ?_) (fun i hi => ?_), h₃⟩
  · exact hW₃ (.inl (hW₂ (.inl (hW₁ (.inl hi)))))
  · rcases Nat.lt_or_ge i o₁ with hi₁ | hi₁
    · exact hW₃ (.inl (hW₂ (.inl (hW₁ (.inr ⟨hi.1, hi₁⟩)))))
    rcases Nat.lt_or_ge i o₂ with hi₂ | hi₂
    · exact hW₃ (.inl (hW₂ (.inr ⟨hi₁, hi₂⟩)))
    · exact hW₃ (.inr ⟨hi₂, hi.2⟩)

/-! ## The whole function -/

/-- The memory `mem'` is `mem` with the `n` bytes at `src` copied to `dst`. -/
def CopyOf (mem mem' : Mem 64 Byte) (dst src : Word) (n : Nat) : Prop :=
  (∀ i < n, mem' (dst + BitVec.ofNat 64 i) = mem (src + BitVec.ofNat 64 i)) ∧
    ∀ a, (∀ i < n, a ≠ dst + BitVec.ofNat 64 i) → mem' a = mem a

/-- A finished job has copied the whole block and nothing else. -/
theorem Progress.copyOf (h : Progress J W c s) (hall : Set.Iio J.n ⊆ W) (hsep : J.Separate) :
    CopyOf J.mem s.mem J.dst J.src J.n := by
  rw [h.mem_eq hsep]
  refine ⟨fun i hi => copiedOn_dst (lt_of_lt_of_le hi J.fits) (hall hi), fun a ha => ?_⟩
  refine copiedOn_of_notMem fun hmem => ?_
  exact ha _ (h.within hmem) (add_ofNat_sub_toNat J.dst a).symm

/-- Every run returns the original `dst`, and its trace keeps to what the job allows. -/
theorem wp_inlineMemcpy (V : Simd) (mem : Mem 64 Byte) (dst src size : Word) :
    wp (inlineMemcpy V dst src size)
      (fun r s' => r = dst ∧ ∃ c, c ≤ 1 ∧
        Progress ⟨mem, dst, src, size.toNat, size.isLt.le⟩ (Set.Iio size.toNat) c s')
      ⟨mem, []⟩ := by
  set J : Job := ⟨mem, dst, src, size.toNat, size.isLt.le⟩
  have hstart : Progress J ∅ 0 ⟨mem, []⟩ :=
    ⟨Set.empty_subset _, fun _ => copiedOn_empty.symm, by simp, rfl⟩
  have hdst : J.dstAt 0 = dst := by simp [Job.dstAt, J]
  have hsrc : J.srcAt 0 = src := by simp [Job.srcAt, J]
  have hrun := wp_tail (V := V) (o := 0) hstart (show size.toNat + 0 = J.n from rfl)
  rw [hdst, hsrc] at hrun
  simp only [inlineMemcpy, wp_bind, wp_pure]
  refine wp_mono hrun ?_
  rintro _ s' ⟨c, hc, W, hW, h⟩
  refine ⟨trivial, c, hc, ?_⟩
  have hWall : W = Set.Iio size.toNat := by
    refine h.within.antisymm fun i hi => hW (.inr ⟨Nat.zero_le i, hi⟩)
  exact hWall ▸ h

/-- **`inline_memcpy` is correct on both architectures.** -/
theorem inlineMemcpy_correct (mem : Mem 64 Byte) (dst src size : Word)
    (hdst : dst.toNat + size.toNat ≤ 2 ^ 64) (hsrc : src.toNat + size.toNat ≤ 2 ^ 64)
    (hsep : dst = src ∨ dst.toNat + size.toNat ≤ src.toNat ∨
      src.toNat + size.toNat ≤ dst.toNat) :
    (∃ s', X86.inlineMemcpy dst src size ⟨mem, []⟩ = .ok (dst, s') ∧
      CopyOf mem s'.mem dst src size.toNat) ∧
    (∃ s', Arm.inlineMemcpy dst src size ⟨mem, []⟩ = .ok (dst, s') ∧
      CopyOf mem s'.mem dst src size.toNat) := by
  have run : ∀ V, ∃ s', inlineMemcpy V dst src size ⟨mem, []⟩ = .ok (dst, s') ∧
      CopyOf mem s'.mem dst src size.toNat := by
    intro V
    obtain ⟨r, s', hrun, rfl, c, -, h⟩ := wp_inlineMemcpy V mem dst src size
    exact ⟨s', hrun, h.copyOf subset_rfl (SameOrSeparate.of_ranges hdst hsrc hsep)⟩
  exact ⟨run x86_64, run aarch64⟩

/-- 200 bytes, from address 0 to the unaligned address 1001. -/
theorem inlineMemcpy_correct_unaligned :
    ∃ s', X86.inlineMemcpy 1001 0 200 ⟨fun a => a.setWidth 8, []⟩ = .ok (1001, s') ∧
      CopyOf (fun a => a.setWidth 8) s'.mem 1001 0 200 :=
  (inlineMemcpy_correct (fun a => a.setWidth 8) 1001 0 200 (by decide) (by decide)
    (by decide)).1

/-! ## What a run touches

The same run seen from outside: its trace, in terms of the two regions `[src, src + size)` and
`[dst, dst + size)`. Whether they overlap does not matter here. -/

/-- Every byte of the access to `k` bytes at `a` lies in `[p, p + n)`. -/
def Inside (p : Word) (n : Nat) (a : Word) (k : Nat) : Prop :=
  ∀ i < k, p.toNat ≤ (a + BitVec.ofNat 64 i).toNat ∧ (a + BitVec.ofNat 64 i).toNat < p.toNat + n

/-- A block at an offset of a region that does not wrap around lies in that region. -/
theorem inside_of_offset {p : Word} {o k n : Nat} (hfit : p.toNat + n ≤ 2 ^ 64)
    (hok : o + k ≤ n) : Inside p n (p + BitVec.ofNat 64 o) k := by
  intro i hi
  have hval : (p + BitVec.ofNat 64 o + BitVec.ofNat 64 i).toNat = p.toNat + (o + i) := by
    rw [add_ofNat_add, BitVec.toNat_add, BitVec.toNat_ofNat]
    omega
  rw [hval]
  omega

/-- A trace that keeps to the source and the destination. -/
structure Disciplined (dst src size : Word) (trace : List Event) : Prop where
  loads : ∀ a k, .load a k ∈ trace → Inside src size.toNat a k
  stores : ∀ a k al, .store a k al ∈ trace → Inside dst size.toNat a k
  aligned : ∀ a k, .store a k true ∈ trace → a.toNat % 16 = 0
  noUnderflow : ∀ m k, .subSize m k ∈ trace → k.toNat ≤ m.toNat
  largeOnce : trace.count .large ≤ 1
  idle : size = 0 → trace = []

/-- A call with `size = 0` does nothing. -/
theorem inlineMemcpy_zero (V : Simd) (dst src : Word) (s : Machine) :
    inlineMemcpy V dst src 0 s = .ok (dst, s) := by
  have hsmall : copySmall dst src 0 = pure ⟨⟩ := by
    unfold copySmall
    rw [if_neg (by decide), if_neg (by decide), if_neg (by decide), if_neg (by decide)]
  have htail : tail V dst src 0 = pure ⟨⟩ := by
    rw [tail, if_pos (by decide), hsmall]
  unfold inlineMemcpy
  rw [htail]
  rfl

theorem Progress.disciplined {mem : Mem 64 Byte} {dst src size : Word}
    (h : Progress ⟨mem, dst, src, size.toNat, size.isLt.le⟩ W c s) (hc : c ≤ 1)
    (hdst : dst.toNat + size.toNat ≤ 2 ^ 64) (hsrc : src.toNat + size.toNat ≤ 2 ^ 64)
    (hidle : size = 0 → s.trace = []) : Disciplined dst src size s.trace where
  loads := by
    intro a k he
    obtain ⟨o, rfl, hok⟩ := h.allowed _ he
    exact inside_of_offset hsrc hok
  stores := by
    intro a k al he
    obtain ⟨o, rfl, hok, -⟩ := h.allowed _ he
    exact inside_of_offset hdst hok
  aligned := by
    intro a k he
    obtain ⟨o, -, -, hal⟩ := h.allowed _ he
    exact toNat_mod_sixteen.mp (hal rfl)
  noUnderflow := by
    intro m k he
    exact h.allowed _ he
  largeOnce := by
    rw [h.entries]
    exact hc
  idle := hidle

/-- **`inline_memcpy` keeps to the two regions on both architectures**, whether they overlap or
not. -/
theorem inlineMemcpy_disciplined (mem : Mem 64 Byte) (dst src size : Word)
    (hdst : dst.toNat + size.toNat ≤ 2 ^ 64) (hsrc : src.toNat + size.toNat ≤ 2 ^ 64) :
    (∃ s', X86.inlineMemcpy dst src size ⟨mem, []⟩ = .ok (dst, s') ∧
      Disciplined dst src size s'.trace) ∧
    (∃ s', Arm.inlineMemcpy dst src size ⟨mem, []⟩ = .ok (dst, s') ∧
      Disciplined dst src size s'.trace) := by
  have run : ∀ V, ∃ s', inlineMemcpy V dst src size ⟨mem, []⟩ = .ok (dst, s') ∧
      Disciplined dst src size s'.trace := by
    intro V
    obtain ⟨r, s', hrun, rfl, c, hc, h⟩ := wp_inlineMemcpy V mem dst src size
    refine ⟨s', hrun, h.disciplined hc hdst hsrc ?_⟩
    rintro rfl
    rw [inlineMemcpy_zero] at hrun
    cases hrun
    rfl
  exact ⟨run x86_64, run aarch64⟩

/-- Overlapping regions, the destination up to the end of the address space. -/
theorem inlineMemcpy_disciplined_atEnd :
    ∃ s', X86.inlineMemcpy (-144) (-150) 144 ⟨fun a => a.setWidth 8, []⟩ = .ok (-144, s') ∧
      Disciplined (-144) (-150) 144 s'.trace :=
  (inlineMemcpy_disciplined (fun a => a.setWidth 8) (-144) (-150) 144 (by decide)
    (by decide)).1

end LdbToolchain.Memcpy
