import LdbToolchain.Vdso.Lookup

/-!
# The vDSO as an image

An image is what the vDSO says: segments, dynamic entries, symbols, version definitions. `Image.At`
lays it out in memory the way the ELF format has it, and `Image.lookup` says which symbol a name and a
version mean: the first usable one of that name whose version has that name, where there are versions.
`vdsosym_finds` is that `__vdsosym` gives the address of this symbol, and `NULL` when there is none.
-/

namespace LdbToolchain.Vdso

open Memory

/-! ## Images -/

/-- What `__vdsosym` reads of a program header. -/
structure Segment where
  type : BitVec 32
  offset : Addr
  vaddr : Addr

/-- A symbol, with its entry of the version table. -/
structure Sym where
  name : List Byte
  info : Byte
  shndx : BitVec 16
  value : Addr
  version : BitVec 16

/-- A version definition, with the name in its first auxiliary entry. -/
structure Verdef where
  flags : BitVec 16
  ndx : BitVec 16
  name : List Byte

structure Image where
  segments : List Segment
  /-- The tags and values of the dynamic section. -/
  dyns : List (Addr × Addr)
  syms : List Sym
  verdefs : List Verdef

/-- A symbol with a definition, of type `NOTYPE`, `OBJECT`, `FUNC` or `COMMON`, bound `GLOBAL`, `WEAK`
or `GNU_UNIQUE`. -/
def Sym.Usable (s : Sym) : Prop :=
  s.info &&& 0xf ∈ ([0, 1, 2, 5] : List Byte) ∧ s.info >>> 4 ∈ ([1, 2, 10] : List Byte) ∧ s.shndx ≠ 0

instance (s : Sym) : Decidable s.Usable :=
  inferInstanceAs (Decidable (_ ∧ _ ∧ _))

/-- The version definition that an entry of the version table means; its top bit says "hidden". -/
def Verdef.Means (d : Verdef) (version : BitVec 16) : Prop :=
  d.flags &&& VER_FLG_BASE = 0 ∧ d.ndx &&& 0x7fff = version &&& 0x7fff

instance (d : Verdef) (version : BitVec 16) : Decidable (d.Means version) :=
  inferInstanceAs (Decidable (_ ∧ _))

namespace Image

/-- What the program headers give: `base` and `dynv`. -/
def found (img : Image) (eh : Addr) : Addr × Addr :=
  img.segments.foldl (fun found s => seeSegment eh s.type s.offset s.vaddr found) (-1, 0)

def base (img : Image) (eh : Addr) : Addr := (img.found eh).1

def dynv (img : Image) (eh : Addr) : Addr := (img.found eh).2

/-- What the dynamic section gives. -/
def tables (img : Image) (eh : Addr) : Tables :=
  img.dyns.foldl (fun t d => t.put d.1 (img.base eh + d.2)) ⟨0, 0, 0, 0, 0⟩

/-- The symbols have versions. -/
def Versioned (t : Tables) : Prop := t.versym ≠ 0 ∧ t.verdef ≠ 0

instance (t : Tables) : Decidable (Versioned t) := inferInstanceAs (Decidable (_ ∧ _))

/-- The version has this name. -/
def versionNamed (img : Image) (version : BitVec 16) (vername : List Byte) : Bool :=
  match img.verdefs.find? fun d => d.Means version with
  | some d => decide (d.name = vername)
  | none => false

/-- The first symbol that fits. -/
def lookup (img : Image) (t : Tables) (vername name : List Byte) : Option Sym :=
  img.syms.find? fun s =>
    s.Usable ∧ s.name = name ∧ (Versioned t → img.versionNamed s.version vername)

end Image

/-! ## In memory -/

/-- A string lies at this address. -/
structure StringAt (m : Mem 64 Byte) (a : Addr) (s : List Byte) : Prop where
  nonul : ∀ c ∈ s, c ≠ 0
  bytes : readBytes m a s.length = s
  nul : m (a + BitVec.ofNat 64 s.length) = 0

/-- A version definition lies at this address. -/
structure VerdefAt (m : Mem 64 Byte) (strings a : Addr) (d : Verdef) : Prop where
  flags : u16 m (a + 2) = d.flags
  ndx : u16 m (a + 4) = d.ndx
  name : StringAt m (strings + (u32 m (a + (u32 m (a + 12)).setWidth 64)).setWidth 64) d.name

/-- The version definitions from this address on; the last has 0 for the way to the next. -/
inductive ChainAt (m : Mem 64 Byte) (strings : Addr) : Addr → List Verdef → Prop where
  | last {a : Addr} {d : Verdef} (first : VerdefAt m strings a d) (next : u32 m (a + 16) = 0) :
      ChainAt m strings a [d]
  | cons {a : Addr} {d : Verdef} {ds : List Verdef} (first : VerdefAt m strings a d)
      (next : u32 m (a + 16) ≠ 0)
      (rest : ChainAt m strings (a + (u32 m (a + 16)).setWidth 64) ds) :
      ChainAt m strings a (d :: ds)

/-- A symbol lies at this address. -/
structure SymAt (m : Mem 64 Byte) (strings a : Addr) (s : Sym) : Prop where
  name : StringAt m (strings + (u32 m a).setWidth 64) s.name
  info : m (a + 4) = s.info
  shndx : u16 m (a + 6) = s.shndx
  value : u64 m (a + 8) = s.value

/-- A program header lies at this address. -/
structure SegmentAt (m : Mem 64 Byte) (a : Addr) (s : Segment) : Prop where
  type : u32 m a = s.type
  offset : u64 m (a + 8) = s.offset
  vaddr : u64 m (a + 16) = s.vaddr

/-- The image lies in memory from `eh` on. -/
structure Image.At (img : Image) (m : Mem 64 Byte) (eh : Addr) : Prop where
  nonnull : eh ≠ 0
  phnum : (u16 m (eh + 56)).toNat = img.segments.length
  segment : ∀ i s, img.segments[i]? = some s →
    SegmentAt m (eh + u64 m (eh + 32) + BitVec.ofNat 64 (i * (u16 m (eh + 54)).toNat)) s
  dyn : ∀ i d, img.dyns[i]? = some d →
    u64 m (img.dynv eh + BitVec.ofNat 64 (16 * i)) = d.1 ∧ d.1 ≠ 0 ∧
      u64 m (img.dynv eh + BitVec.ofNat 64 (16 * i) + 8) = d.2
  dynEnd : u64 m (img.dynv eh + BitVec.ofNat 64 (16 * img.dyns.length)) = 0
  nchain : (u32 m ((img.tables eh).hashtab + 4)).toNat = img.syms.length
  sym : ∀ i s, img.syms[i]? = some s →
    SymAt m (img.tables eh).strings ((img.tables eh).syms + BitVec.ofNat 64 (24 * i)) s
  version : Versioned (img.tables eh) → ∀ i s, img.syms[i]? = some s →
    u16 m ((img.tables eh).versym + BitVec.ofNat 64 (2 * i)) = s.version
  verdefs : Versioned (img.tables eh) →
    ChainAt m (img.tables eh).strings (img.tables eh).verdef img.verdefs

/-- The segments and the tables that a lookup needs are there. -/
structure Image.Complete (img : Image) (eh : Addr) : Prop where
  base : img.base eh ≠ -1
  dynv : img.dynv eh ≠ 0
  strings : (img.tables eh).strings ≠ 0
  syms : (img.tables eh).syms ≠ 0
  hashtab : (img.tables eh).hashtab ≠ 0

variable {m : Mem 64 Byte} {img : Image} {eh : Addr} {name vername : List Byte}

/-! ## The walks -/

theorem StringAt.cons {a : Addr} {c : Byte} {s : List Byte} (h : StringAt m a (c :: s)) :
    m a = c ∧ c ≠ 0 ∧ StringAt m (a + 1) s := by
  have hbytes : ∀ i (hi : i < (c :: s).length), m (a + BitVec.ofNat 64 i) = (c :: s)[i] := by
    intro i hi
    have hget := getElem?_readBytes m a (c :: s).length i
    rw [h.bytes, if_pos hi, List.getElem?_eq_getElem hi] at hget
    exact (Option.some.inj hget).symm
  have hshift : ∀ i, a + 1 + BitVec.ofNat 64 i = a + BitVec.ofNat 64 (i + 1) := by
    intro i
    rw [Nat.add_comm i 1]
    exact add_ofNat_add a 1 i
  refine ⟨?_, h.nonul c List.mem_cons_self, fun d hd => h.nonul d (List.mem_cons_of_mem c hd), ?_, ?_⟩
  · have hzero := hbytes 0 (Nat.succ_pos _)
    rwa [BitVec.add_zero] at hzero
  · apply List.ext_getElem?
    intro i
    rw [getElem?_readBytes, hshift]
    split
    · next hi =>
      rw [hbytes (i + 1) (Nat.succ_lt_succ hi), List.getElem?_eq_getElem hi]
      rfl
    · next hi => rw [List.getElem?_eq_none (Nat.not_lt.mp hi)]
  · rw [hshift]
    exact h.nul

theorem StringAt.nil {a : Addr} (h : StringAt m a []) : m a = 0 := by
  have hnul := h.nul
  rwa [List.length_nil, BitVec.add_zero] at hnul

/-- `strcmp` finds equal strings equal. -/
theorem strEq_iff {a : Addr} {s : List Byte} (h : StringAt m a s) (hname : ∀ c ∈ name, c ≠ 0) :
    strEq m name a = true ↔ s = name := by
  induction name generalizing a s with
  | nil =>
      rw [strEq, decide_eq_true_eq]
      cases s with
      | nil => exact iff_of_true h.nil rfl
      | cons c s =>
          obtain ⟨hc, hne, -⟩ := h.cons
          exact iff_of_false (hc ▸ hne) (List.cons_ne_nil c s)
  | cons c name ih =>
      obtain ⟨hc, hrest⟩ := List.forall_mem_cons.mp hname
      rw [strEq, decide_eq_true_eq]
      cases s with
      | nil =>
          rw [h.nil]
          exact iff_of_false (fun heq => hc heq.1.symm) (List.cons_ne_nil c name).symm
      | cons d s =>
          obtain ⟨hd, -, hs⟩ := h.cons
          rw [hd, ih hs hrest, List.cons.injEq]

/-- The bit masks are lists of types and of bindings. -/
theorem usable_iff (s : Sym) : usable s.info s.shndx = true ↔ s.Usable := by
  have htypes : ∀ info : Byte, (1 <<< (info &&& 0xf).toNat &&& OK_TYPES ≠ 0) ↔
      info &&& 0xf ∈ ([0, 1, 2, 5] : List Byte) := by decide +kernel
  have hbinds : ∀ info : Byte, (1 <<< (info >>> 4).toNat &&& OK_BINDS ≠ 0) ↔
      info >>> 4 ∈ ([1, 2, 10] : List Byte) := by decide +kernel
  rw [usable, decide_eq_true_eq, htypes, hbinds, Sym.Usable]

theorem scanPhdrs_eq {phentsize : BitVec 16} {ph : Addr} (segments : List Segment)
    (h : ∀ i s, segments[i]? = some s →
      SegmentAt m (ph + BitVec.ofNat 64 (i * phentsize.toNat)) s) (found : Addr × Addr) :
    scanPhdrs m eh phentsize segments.length ph found
      = segments.foldl (fun found s => seeSegment eh s.type s.offset s.vaddr found) found := by
  induction segments generalizing ph found with
  | nil => rfl
  | cons s segments ih =>
      have hfirst := h 0 s rfl
      rw [Nat.zero_mul, BitVec.add_zero] at hfirst
      rw [List.length_cons, scanPhdrs, List.foldl_cons, hfirst.type, hfirst.offset, hfirst.vaddr]
      apply ih
      intro i s' hs'
      have hrest := h (i + 1) s' hs'
      rwa [Nat.succ_mul, Nat.add_comm, ← add_ofNat_add, BitVec.ofNat_toNat] at hrest

theorem add_entry (d : Addr) (i : Nat) :
    d + BitVec.ofNat 64 (16 * (i + 1)) = d + 16 + BitVec.ofNat 64 (16 * i) := by
  rw [show 16 * (i + 1) = 16 + 16 * i by omega, ← add_ofNat_add]
  rfl

theorem scanDynv_eq {base d : Addr} (dyns : List (Addr × Addr))
    (h : ∀ i e, dyns[i]? = some e → u64 m (d + BitVec.ofNat 64 (16 * i)) = e.1 ∧ e.1 ≠ 0 ∧
      u64 m (d + BitVec.ofNat 64 (16 * i) + 8) = e.2)
    (hend : u64 m (d + BitVec.ofNat 64 (16 * dyns.length)) = 0) {fuel : Nat}
    (hfuel : dyns.length < fuel) (t : Tables) :
    scanDynv m base fuel d t = some (dyns.foldl (fun t e => t.put e.1 (base + e.2)) t) := by
  induction dyns generalizing d fuel t with
  | nil =>
      obtain ⟨fuel, rfl⟩ : ∃ k, fuel = k + 1 := ⟨fuel - 1, by simp at hfuel; omega⟩
      rw [List.length_nil, Nat.mul_zero, BitVec.add_zero] at hend
      rw [scanDynv, if_pos hend]
      rfl
  | cons e dyns ih =>
      rw [List.length_cons] at hfuel hend
      obtain ⟨fuel, rfl⟩ : ∃ k, fuel = k + 1 := ⟨fuel - 1, by omega⟩
      obtain ⟨htag, hne, hval⟩ := h 0 e rfl
      rw [Nat.mul_zero, BitVec.add_zero] at htag hval
      rw [scanDynv, htag, if_neg hne, hval, List.foldl_cons]
      apply ih
      · intro i e' he'
        have hrest := h (i + 1) e' he'
        rw [add_entry] at hrest
        exact hrest
      · rw [add_entry] at hend
        exact hend
      · omega

theorem checkver_eq {strings a : Addr} {ds : List Verdef} (h : ChainAt m strings a ds)
    (hname : ∀ c ∈ vername, c ≠ 0) {fuel : Nat} (hfuel : ds.length ≤ fuel) (version : BitVec 16) :
    checkver m version vername strings fuel a = some (match ds.find? fun d => d.Means version with
      | some d => decide (d.name = vername)
      | none => false) := by
  induction h generalizing fuel with
  | @last a d first next =>
      obtain ⟨fuel, rfl⟩ : ∃ k, fuel = k + 1 := ⟨fuel - 1, by simp at hfuel; omega⟩
      rw [checkver, first.flags, first.ndx, List.find?_cons]
      by_cases hmeans : d.Means version
      · rw [if_pos (show _ = (0 : BitVec 16) ∧ _ = version &&& 0x7fff from hmeans), decide_eq_true hmeans]
        exact congrArg some (Bool.eq_iff_iff.mpr
          ((strEq_iff first.name hname).trans decide_eq_true_iff.symm))
      · rw [if_neg (show ¬ (_ = (0 : BitVec 16) ∧ _ = version &&& 0x7fff) from hmeans), if_pos next,
          decide_eq_false hmeans]
        rfl
  | @cons a d ds first next rest ih =>
      rw [List.length_cons] at hfuel
      obtain ⟨fuel, rfl⟩ : ∃ k, fuel = k + 1 := ⟨fuel - 1, by omega⟩
      rw [checkver, first.flags, first.ndx, List.find?_cons]
      by_cases hmeans : d.Means version
      · rw [if_pos (show _ = (0 : BitVec 16) ∧ _ = version &&& 0x7fff from hmeans), decide_eq_true hmeans]
        exact congrArg some (Bool.eq_iff_iff.mpr
          ((strEq_iff first.name hname).trans decide_eq_true_iff.symm))
      · rw [if_neg (show ¬ (_ = (0 : BitVec 16) ∧ _ = version &&& 0x7fff) from hmeans), if_neg next,
          decide_eq_false hmeans]
        exact ih (by omega)

theorem scanSyms_eq {fuel : Nat} (base : Addr) {t : Tables} (ok : Sym → Bool)
    (hname : ∀ c ∈ name, c ≠ 0) (l : List Sym) (i : Nat)
    (h : ∀ j s, l[j]? = some s → SymAt m t.strings (t.syms + BitVec.ofNat 64 (24 * (i + j))) s)
    (hok : ∀ j s, l[j]? = some s → versionOk fuel m t vername (i + j) = some (ok s)) :
    scanSyms fuel m base t vername name l.length i
      = some ((l.find? fun s => s.Usable ∧ s.name = name ∧ ok s = true).map
          fun s => base + s.value) := by
  induction l generalizing i with
  | nil => rfl
  | cons s l ih =>
      have hfirst := h 0 s rfl
      have hversion := hok 0 s rfl
      rw [Nat.add_zero] at hfirst hversion
      have hrest := ih (i + 1)
        (fun j s' hs' => by rw [Nat.add_assoc, Nat.add_comm 1 j]; exact h (j + 1) s' hs')
        (fun j s' hs' => by rw [Nat.add_assoc, Nat.add_comm 1 j]; exact hok (j + 1) s' hs')
      rw [List.length_cons, scanSyms, List.find?_cons]
      rw [hfirst.info, hfirst.shndx, hfirst.value, hversion]
      by_cases hfits : s.Usable ∧ s.name = name
      · rw [if_pos ⟨(usable_iff s).mpr hfits.1, (strEq_iff hfirst.name hname).mpr hfits.2⟩]
        by_cases hs : ok s = true
        · rw [decide_eq_true (⟨hfits.1, hfits.2, hs⟩ : s.Usable ∧ s.name = name ∧ ok s = true)]
          simp [hs]
        · rw [decide_eq_false (fun hall : s.Usable ∧ s.name = name ∧ ok s = true => hs hall.2.2)]
          simpa [hs] using hrest
      · have hno : ¬ (usable s.info s.shndx = true ∧
            strEq m name (t.strings + (u32 m (t.syms + BitVec.ofNat 64 (24 * i))).setWidth 64) = true) :=
          fun hboth => hfits ⟨(usable_iff s).mp hboth.1, (strEq_iff hfirst.name hname).mp hboth.2⟩
        rw [if_neg hno,
          decide_eq_false (fun hall : s.Usable ∧ s.name = name ∧ ok s = true => hfits ⟨hall.1, hall.2.1⟩)]
        exact hrest

/-- The tables with `versym` dropped where there are no definitions. -/
def Tables.settle (t : Tables) : Tables := if t.verdef = 0 then { t with versym := 0 } else t

theorem versionOk_settle {fuel : Nat} (hat : img.At m eh) (hvername : ∀ c ∈ vername, c ≠ 0)
    (hfuel : img.verdefs.length ≤ fuel) {i : Nat} {s : Sym} (hs : img.syms[i]? = some s) :
    versionOk fuel m (img.tables eh).settle vername i
      = some (decide (Image.Versioned (img.tables eh) → img.versionNamed s.version vername = true)) := by
  by_cases hversioned : Image.Versioned (img.tables eh)
  · have hchain := checkver_eq (hat.verdefs hversioned) hvername hfuel s.version
    rw [versionOk, Tables.settle, if_neg hversioned.2, if_neg hversioned.1,
      hat.version hversioned i s hs, hchain]
    simp only [hversioned, forall_const, Bool.decide_eq_true]
    rfl
  · have hnone : (img.tables eh).settle.versym = 0 := by
      rw [Tables.settle]
      split
      · rfl
      · next hverdef => exact not_not.mp fun hversym => hversioned ⟨hversym, hverdef⟩
    rw [versionOk, if_pos hnone]
    simp [hversioned]

instance (img : Image) (eh : Addr) : Decidable (img.Complete eh) :=
  decidable_of_iff (img.base eh ≠ -1 ∧ img.dynv eh ≠ 0 ∧ (img.tables eh).strings ≠ 0 ∧
      (img.tables eh).syms ≠ 0 ∧ (img.tables eh).hashtab ≠ 0)
    ⟨fun h => ⟨h.1, h.2.1, h.2.2.1, h.2.2.2.1, h.2.2.2.2⟩,
      fun h => ⟨h.base, h.dynv, h.strings, h.syms, h.hashtab⟩⟩

/-- The address of the symbol that a name and a version mean in an image. -/
def Image.address (img : Image) (eh : Addr) (vername name : List Byte) : Option Addr :=
  if img.Complete eh then (img.lookup (img.tables eh) vername name).map fun s => img.base eh + s.value
  else none

theorem vdsosym_eq_address (hat : img.At m eh) (hname : ∀ c ∈ name, c ≠ 0)
    (hvername : ∀ c ∈ vername, c ≠ 0) {fuel : Nat} (hdyns : img.dyns.length < fuel)
    (hverdefs : img.verdefs.length ≤ fuel) :
    vdsosym fuel m eh vername name = some (img.address eh vername name) := by
  have hphdrs : scanPhdrs m eh (u16 m (eh + 54)) (u16 m (eh + 56)).toNat (eh + u64 m (eh + 32)) (-1, 0)
      = (img.base eh, img.dynv eh) := by
    rw [hat.phnum, scanPhdrs_eq img.segments hat.segment]
    rfl
  have hdynv : scanDynv m (img.base eh) fuel (img.dynv eh) ⟨0, 0, 0, 0, 0⟩ = some (img.tables eh) :=
    scanDynv_eq img.dyns hat.dyn hat.dynEnd hdyns _
  have hkept : (img.tables eh).settle.strings = (img.tables eh).strings ∧
      (img.tables eh).settle.syms = (img.tables eh).syms ∧
      (img.tables eh).settle.hashtab = (img.tables eh).hashtab := by
    unfold Tables.settle
    split
    · exact ⟨rfl, rfl, rfl⟩
    · exact ⟨rfl, rfl, rfl⟩
  have hsyms : scanSyms fuel m (img.base eh) (img.tables eh).settle vername name
      (u32 m ((img.tables eh).settle.hashtab + 4)).toNat 0
      = some ((img.lookup (img.tables eh) vername name).map fun s => img.base eh + s.value) := by
    rw [hkept.2.2, hat.nchain, Image.lookup]
    rw [scanSyms_eq (img.base eh) (fun s => decide (Image.Versioned (img.tables eh) →
      img.versionNamed s.version vername = true)) hname img.syms 0]
    · simp only [decide_eq_true_eq]
    · intro j s hs
      rw [hkept.1, hkept.2.1, Nat.zero_add]
      exact hat.sym j s hs
    · intro j s hs
      rw [Nat.zero_add]
      exact versionOk_settle hat hvername hverdefs hs
  unfold vdsosym
  rw [if_neg hat.nonnull, hphdrs, Image.address]
  dsimp only
  by_cases hsegments : img.dynv eh = 0 ∨ img.base eh = -1
  · rw [if_pos hsegments, if_neg]
    intro hcomplete
    exact hsegments.elim hcomplete.dynv hcomplete.base
  rw [if_neg hsegments, hdynv]
  obtain ⟨hdynv0, hbase⟩ := not_or.mp hsegments
  show (if (img.tables eh).strings = 0 ∨ (img.tables eh).syms = 0 ∨ (img.tables eh).hashtab = 0
    then some none else scanSyms fuel m (img.base eh) (img.tables eh).settle vername name
      (u32 m ((img.tables eh).settle.hashtab + 4)).toNat 0) = _
  by_cases htables : (img.tables eh).strings = 0 ∨ (img.tables eh).syms = 0 ∨
      (img.tables eh).hashtab = 0
  · rw [if_pos htables, if_neg]
    intro hcomplete
    exact htables.elim hcomplete.strings fun h => h.elim hcomplete.syms hcomplete.hashtab
  · obtain ⟨hstrings, hrest⟩ := not_or.mp htables
    obtain ⟨hsymtab, hhash⟩ := not_or.mp hrest
    rw [if_neg htables, if_pos ⟨hbase, hdynv0, hstrings, hsymtab, hhash⟩, hsyms]

/-- **`__vdsosym` finds the symbol.** -/
theorem vdsosym_finds (hat : img.At m eh) (hname : ∀ c ∈ name, c ≠ 0)
    (hvername : ∀ c ∈ vername, c ≠ 0) {fuel : Nat} (hdyns : img.dyns.length < fuel)
    (hverdefs : img.verdefs.length ≤ fuel) :
    vdsosym fuel m eh vername name = some (if img.Complete eh then
      (img.lookup (img.tables eh) vername name).map fun s => img.base eh + s.value else none) :=
  vdsosym_eq_address hat hname hvername hdyns hverdefs

/-- One function `f` of version `v`. -/
def oneSymbol : Image where
  segments := [⟨PT_LOAD, 0, 0⟩, ⟨PT_DYNAMIC, 176, 0⟩]
  dyns := [(DT_STRTAB, 272), (DT_SYMTAB, 280), (DT_HASH, 304), (DT_VERSYM, 312), (DT_VERDEF, 316)]
  syms := [⟨[102], 0x12, 1, 100, 2⟩]
  verdefs := [⟨0, 2, [118]⟩]

/-- The bytes of that image which are not 0, by their offsets. -/
def oneSymbolBytes : List (Nat × Byte) :=
  [(32, 64), (54, 56), (56, 2), (64, 1), (120, 2), (128, 176),
    (176, 5), (184, 0x10), (185, 1), (192, 6), (200, 0x18), (201, 1), (208, 4), (216, 0x30), (217, 1),
    (224, 0xf0), (225, 0xff), (226, 0xff), (227, 0x6f), (232, 0x38), (233, 1),
    (240, 0xfc), (241, 0xff), (242, 0xff), (243, 0x6f), (248, 0x3c), (249, 1),
    (273, 102), (275, 118), (280, 1), (284, 0x12), (286, 1), (288, 100),
    (308, 1), (312, 2), (320, 2), (328, 20), (336, 3)]

def oneSymbolMemory : Mem 64 Byte := fun a => (oneSymbolBytes.lookup (a - 4096).toNat).getD 0

theorem oneSymbol_at : oneSymbol.At oneSymbolMemory 4096 where
  nonnull := by decide
  phnum := by decide
  segment i s hs := by
    obtain ⟨rfl, rfl⟩ | ⟨rfl, rfl⟩ :
        (i = 0 ∧ s = ⟨PT_LOAD, 0, 0⟩) ∨ (i = 1 ∧ s = ⟨PT_DYNAMIC, 176, 0⟩) := by
      rcases i with _ | _ | i <;> simp_all [oneSymbol]
    · exact ⟨by decide, by decide, by decide⟩
    · exact ⟨by decide, by decide, by decide⟩
  dyn := by
    have h : ∀ i : Fin 5, u64 oneSymbolMemory (oneSymbol.dynv 4096 + BitVec.ofNat 64 (16 * i))
        = (oneSymbol.dyns.get i).1 ∧ (oneSymbol.dyns.get i).1 ≠ 0 ∧
          u64 oneSymbolMemory (oneSymbol.dynv 4096 + BitVec.ofNat 64 (16 * i) + 8)
            = (oneSymbol.dyns.get i).2 := by decide
    intro i d hd
    obtain ⟨hi, rfl⟩ := List.getElem?_eq_some_iff.mp hd
    exact h ⟨i, hi⟩
  dynEnd := by decide
  nchain := by decide
  sym i s hs := by
    obtain ⟨rfl, rfl⟩ : i = 0 ∧ s = ⟨[102], 0x12, 1, 100, 2⟩ := by
      rcases i with _ | i <;> simp_all [oneSymbol]
    exact ⟨⟨by decide, by decide, by decide⟩, by decide, by decide, by decide⟩
  version _ i s hs := by
    obtain ⟨rfl, rfl⟩ : i = 0 ∧ s = ⟨[102], 0x12, 1, 100, 2⟩ := by
      rcases i with _ | i <;> simp_all [oneSymbol]
    decide
  verdefs _ := .last ⟨by decide, by decide, by decide, by decide, by decide⟩ (by decide)

theorem vdsosym_finds_oneSymbol :
    vdsosym 6 oneSymbolMemory 4096 [118] [102] = some (some 4196) := by
  rw [vdsosym_finds oneSymbol_at (by decide) (by decide) (by decide) (by decide)]
  decide
end LdbToolchain.Vdso
