import LdbToolchain.Lib.Lanes

/-!
# Byte memories over a machine address space

A memory assigns one value to every address of width `w`; address arithmetic is modular, as it is
in hardware. Blocks are read and written as lists, and `copiedOn` names the memory one reaches after
copying *some* of the offsets of a block: the state an optimised copy routine is in while it runs.

The two rules a copy routine needs are `readBytes_copiedOn` (a source byte still has its original
value, whatever has been copied so far) and `writeBytes_copiedOn` (writing back a block read from
the source extends the set of copied offsets by exactly that block).
-/

namespace LdbToolchain.Memory

variable {w : Nat} {β : Type}

/-- A memory: one value at every address. -/
abbrev Mem (w : Nat) (β : Type) := BitVec w → β

/-- The `k` values found from address `a` on. -/
def readBytes (m : Mem w β) (a : BitVec w) (k : Nat) : List β :=
  (List.range k).map fun i => m (a + BitVec.ofNat w i)

/-- The memory after storing `bs` from address `a` on. -/
def writeBytes (m : Mem w β) (a : BitVec w) (bs : List β) : Mem w β :=
  fun x => bs[(x - a).toNat]?.getD (m x)

@[simp] theorem length_readBytes (m : Mem w β) (a : BitVec w) (k : Nat) :
    (readBytes m a k).length = k := by
  simp [readBytes]

theorem getElem?_readBytes (m : Mem w β) (a : BitVec w) (k i : Nat) :
    (readBytes m a k)[i]? = if i < k then some (m (a + BitVec.ofNat w i)) else none := by
  by_cases h : i < k <;> simp [readBytes, h]

/-! ## Offsets

An address `d + i` with `i < 2 ^ w` determines its offset `i`. -/

theorem add_ofNat_sub_self (d : BitVec w) (i : Nat) :
    d + BitVec.ofNat w i - d = BitVec.ofNat w i := by
  rw [BitVec.add_comm, BitVec.add_sub_cancel]

theorem toNat_add_sub_self (d : BitVec w) {i : Nat} (hi : i < 2 ^ w) :
    (d + BitVec.ofNat w i - d).toNat = i := by
  rw [add_ofNat_sub_self, BitVec.toNat_ofNat, Nat.mod_eq_of_lt hi]

theorem add_ofNat_sub_toNat (d x : BitVec w) :
    d + BitVec.ofNat w (x - d).toNat = x := by
  rw [BitVec.ofNat_toNat, BitVec.setWidth_eq, BitVec.add_comm, BitVec.sub_add_cancel]

theorem add_ofNat_add (d : BitVec w) (i j : Nat) :
    d + BitVec.ofNat w i + BitVec.ofNat w j = d + BitVec.ofNat w (i + j) := by
  rw [BitVec.add_assoc, BitVec.ofNat_add]

/-- The offset of `d + e` in the block that starts at `d + o`, which wraps when `e` comes first. -/
theorem toNat_offset_sub (d : BitVec w) {e o : Nat} (he : e < 2 ^ w) (ho : o ≤ 2 ^ w) :
    (d + BitVec.ofNat w e - (d + BitVec.ofNat w o)).toNat
      = if o ≤ e then e - o else 2 ^ w + e - o := by
  have hsub : d + BitVec.ofNat w e - (d + BitVec.ofNat w o)
      = BitVec.ofNat w e - BitVec.ofNat w o := by
    rw [← BitVec.sub_sub, add_ofNat_sub_self]
  rw [hsub, BitVec.toNat_sub, BitVec.toNat_ofNat, BitVec.toNat_ofNat, Nat.mod_eq_of_lt he]
  rcases Nat.lt_or_ge o (2 ^ w) with hlt | hge
  · rw [Nat.mod_eq_of_lt hlt]
    split
    · have hsplit : 2 ^ w - o + e = (e - o) + 2 ^ w := by omega
      rw [hsplit, Nat.add_mod_right, Nat.mod_eq_of_lt (by omega)]
    · rw [Nat.mod_eq_of_lt (by omega)]
      omega
  · obtain rfl : o = 2 ^ w := Nat.le_antisymm ho hge
    rw [Nat.mod_self, Nat.sub_zero, Nat.add_mod_left, Nat.mod_eq_of_lt he, if_neg (by omega)]
    omega

/-- From offset `o` of a block, going to its end and `k` back. -/
theorem add_size_sub (d size : BitVec w) {o n k : Nat} (hsize : size.toNat + o = n)
    (hk : k ≤ size.toNat) :
    d + BitVec.ofNat w o + size - BitVec.ofNat w k = d + BitVec.ofNat w (n - k) := by
  have hsplit : size = BitVec.ofNat w (size.toNat - k) + BitVec.ofNat w k := by
    rw [← BitVec.ofNat_add, Nat.sub_add_cancel hk, BitVec.ofNat_toNat, BitVec.setWidth_eq]
  have hn : n - k = o + (size.toNat - k) := by omega
  rw [hn, ← add_ofNat_add]
  conv_lhs => rw [hsplit]
  rw [← BitVec.add_assoc, BitVec.add_sub_cancel]

/-! ## Partial copies -/

/-- The memory in which the offsets `W` of the block at `src` have been copied to `dst`. -/
noncomputable def copiedOn (m : Mem w β) (dst src : BitVec w) (W : Set Nat) : Mem w β :=
  open Classical in
  fun x => if (x - dst).toNat ∈ W then m (src + (x - dst)) else m x

variable {m : Mem w β} {dst src : BitVec w} {W : Set Nat} {n : Nat}

@[simp] theorem copiedOn_empty : copiedOn m dst src ∅ = m := by
  funext x
  simp [copiedOn]

theorem copiedOn_dst {i : Nat} (hw : i < 2 ^ w) (hi : i ∈ W) :
    copiedOn m dst src W (dst + BitVec.ofNat w i) = m (src + BitVec.ofNat w i) := by
  have hoff := toNat_add_sub_self dst hw
  unfold copiedOn
  rw [if_pos (by rwa [hoff]), add_ofNat_sub_self]

theorem copiedOn_of_notMem {x : BitVec w} (hx : (x - dst).toNat ∉ W) :
    copiedOn m dst src W x = m x := by
  unfold copiedOn
  rw [if_neg hx]

/-- Two blocks of `n` values are separate, or they are one and the same block. -/
def SameOrSeparate (dst src : BitVec w) (n : Nat) : Prop :=
  dst = src ∨ ∀ i < n, ∀ j < n, dst + BitVec.ofNat w i ≠ src + BitVec.ofNat w j

/-- Blocks that do not wrap and whose address ranges do not meet are separate. -/
theorem SameOrSeparate.of_ranges (hd : dst.toNat + n ≤ 2 ^ w) (hs : src.toNat + n ≤ 2 ^ w)
    (h : dst = src ∨ dst.toNat + n ≤ src.toNat ∨ src.toNat + n ≤ dst.toNat) :
    SameOrSeparate dst src n := by
  have toNat_add : ∀ (a : BitVec w) (i : Nat), a.toNat + n ≤ 2 ^ w → i < n →
      (a + BitVec.ofNat w i).toNat = a.toNat + i := by
    intro a i ha hi
    rw [BitVec.toNat_add, BitVec.toNat_ofNat, Nat.add_mod_mod, Nat.mod_eq_of_lt (by omega)]
  rcases h with h | h
  · exact Or.inl h
  · refine Or.inr fun i hi j hj heq => ?_
    have hnat := congrArg BitVec.toNat heq
    rw [toNat_add dst i hd hi, toNat_add src j hs hj] at hnat
    omega

/-- **A copy in progress never disturbs what is still to be read.** -/
theorem readBytes_copiedOn (hsep : SameOrSeparate dst src n) (hW : W ⊆ Set.Iio n)
    {o k : Nat} (hn : n ≤ 2 ^ w) (hok : o + k ≤ n) :
    readBytes (copiedOn m dst src W) (src + BitVec.ofNat w o) k
      = readBytes m (src + BitVec.ofNat w o) k := by
  refine List.map_congr_left fun i hi => ?_
  have hik : i < k := List.mem_range.mp hi
  rw [add_ofNat_add]
  have hlt : o + i < n := by omega
  rcases hsep with rfl | hsep
  · by_cases hmem : o + i ∈ W
    · exact copiedOn_dst (by omega) hmem
    · exact copiedOn_of_notMem (by rwa [toNat_add_sub_self dst (by omega)])
  · refine copiedOn_of_notMem fun hmem => ?_
    exact hsep _ (hW hmem) (o + i) hlt (add_ofNat_sub_toNat dst _)

/-- **Writing back a block of the source copies exactly that block.** -/
theorem writeBytes_copiedOn {o k : Nat} (hok : o + k ≤ 2 ^ w) :
    writeBytes (copiedOn m dst src W) (dst + BitVec.ofNat w o)
        (readBytes m (src + BitVec.ofNat w o) k)
      = copiedOn m dst src (W ∪ Set.Ico o (o + k)) := by
  funext x
  -- `x` sits at offset `e` of the destination
  obtain ⟨e, he, rfl⟩ : ∃ e < 2 ^ w, x = dst + BitVec.ofNat w e :=
    ⟨(x - dst).toNat, BitVec.isLt _, (add_ofNat_sub_toNat dst x).symm⟩
  have hidx := toNat_offset_sub dst he (show o ≤ 2 ^ w by omega)
  have hoff := toNat_add_sub_self dst he
  unfold writeBytes
  rw [hidx, getElem?_readBytes]
  by_cases hin : o ≤ e ∧ e < o + k
  · obtain ⟨hoe, hek⟩ := hin
    have hmem : e ∈ W ∪ Set.Ico o (o + k) := Or.inr ⟨hoe, hek⟩
    rw [if_pos hoe, if_pos (by omega), Option.getD_some, add_ofNat_add,
      Nat.add_sub_cancel' hoe, copiedOn_dst he hmem]
  · have hlen : ¬ (if o ≤ e then e - o else 2 ^ w + e - o) < k := by
      split <;> omega
    rw [if_neg hlen, Option.getD_none]
    have hiff : e ∈ W ∪ Set.Ico o (o + k) ↔ e ∈ W :=
      ⟨fun h => h.resolve_right fun hico => hin hico, Or.inl⟩
    by_cases hmem : e ∈ W
    · rw [copiedOn_dst he hmem, copiedOn_dst he (hiff.mpr hmem)]
    · rw [copiedOn_of_notMem (by rwa [hoff]), copiedOn_of_notMem (by rwa [hoff, hiff])]

/-! ## Words -/

/-- The little-endian word of eight bytes at `a`. -/
def loadWord (m : Mem w (BitVec 8)) (a : BitVec w) : BitVec 64 :=
  Lanes.ofLanes 64 (readBytes m a 8)

/-- The bytes of a word are the bytes of memory. -/
theorem lane_loadWord (m : Mem w (BitVec 8)) (a : BitVec w) {i : Nat} (hi : i < 8) :
    Lanes.lane 8 (loadWord m a) i = m (a + BitVec.ofNat w i) := by
  have hroom : 8 * (readBytes m a 8).length ≤ 64 := by rw [length_readBytes]
  have hlt : i < (readBytes m a 8).length := by rwa [length_readBytes]
  rw [loadWord, Lanes.lane_ofLanes _ hroom hlt]
  simp [readBytes]

end LdbToolchain.Memory
