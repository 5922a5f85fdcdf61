import LdbToolchain.Lib.Memory

/-!
# `__vdsosym`

The kernel maps a small shared library into every process. `__vdsosym` finds a symbol in it, by name
and version, from the address `AT_SYSINFO_EHDR` gives: it walks the program headers, the dynamic
section, the symbols, and for the version the list of version definitions. Here the walks go over the
bytes of memory. Two of them end at a mark in memory and may run on, so they make `fuel` turns at
most; `none` is a run that needs more.
-/

namespace LdbToolchain.Vdso

open Memory

abbrev Addr := BitVec 64

abbrev Byte := BitVec 8

def u16 (m : Mem 64 Byte) (a : Addr) : BitVec 16 := Lanes.ofLanes 16 (readBytes m a 2)

def u32 (m : Mem 64 Byte) (a : Addr) : BitVec 32 := Lanes.ofLanes 32 (readBytes m a 4)

def u64 (m : Mem 64 Byte) (a : Addr) : BitVec 64 := loadWord m a

/-- `!strcmp(s, p)`, for the bytes of `s` without its end. -/
def strEq (m : Mem 64 Byte) : List Byte → Addr → Bool
  | [], a => m a = 0
  | c :: s, a => m a = c ∧ strEq m s (a + 1)

/-! ## The program headers -/

def PT_LOAD : BitVec 32 := 1
def PT_DYNAMIC : BitVec 32 := 2

/-- The body of the first loop: `base` and `dynv` after a header of this type. -/
def seeSegment (eh : Addr) (type : BitVec 32) (offset vaddr : Addr) : Addr × Addr → Addr × Addr
  | (base, dynv) =>
    if type = PT_LOAD then (eh + offset - vaddr, dynv)
    else if type = PT_DYNAMIC then (base, eh + offset)
    else (base, dynv)

/-- `for (i=0; i<eh->e_phnum; i++, ph=(void *)((char *)ph+eh->e_phentsize))` -/
def scanPhdrs (m : Mem 64 Byte) (eh : Addr) (phentsize : BitVec 16) :
    Nat → Addr → Addr × Addr → Addr × Addr
  | 0, _, found => found
  | n + 1, ph, found =>
    scanPhdrs m eh phentsize n (ph + phentsize.setWidth 64)
      (seeSegment eh (u32 m ph) (u64 m (ph + 8)) (u64 m (ph + 16)) found)

/-! ## The dynamic section -/

def DT_HASH : Addr := 4
def DT_STRTAB : Addr := 5
def DT_SYMTAB : Addr := 6
def DT_VERSYM : Addr := 0x6ffffff0
def DT_VERDEF : Addr := 0x6ffffffc

/-- The pointers of `__vdsosym`, 0 for `NULL`. -/
structure Tables where
  strings : Addr
  syms : Addr
  hashtab : Addr
  versym : Addr
  verdef : Addr

/-- The `switch`. -/
def Tables.put (t : Tables) (tag p : Addr) : Tables :=
  if tag = DT_STRTAB then { t with strings := p }
  else if tag = DT_SYMTAB then { t with syms := p }
  else if tag = DT_HASH then { t with hashtab := p }
  else if tag = DT_VERSYM then { t with versym := p }
  else if tag = DT_VERDEF then { t with verdef := p }
  else t

/-- `for (i=0; dynv[i]; i+=2)` -/
def scanDynv (m : Mem 64 Byte) (base : Addr) : Nat → Addr → Tables → Option Tables
  | 0, _, _ => none
  | fuel + 1, d, t =>
    if u64 m d = 0 then some t
    else scanDynv m base fuel (d + 16) (t.put (u64 m d) (base + u64 m (d + 8)))

/-! ## Versions -/

def VER_FLG_BASE : BitVec 16 := 1

/-- `checkver`. -/
def checkver (m : Mem 64 Byte) (vsym : BitVec 16) (vername : List Byte) (strings : Addr) :
    Nat → Addr → Option Bool
  | 0, _ => none
  | fuel + 1, d =>
    if u16 m (d + 2) &&& VER_FLG_BASE = 0 ∧ u16 m (d + 4) &&& 0x7fff = vsym &&& 0x7fff then
      let aux := d + (u32 m (d + 12)).setWidth 64
      some (strEq m vername (strings + (u32 m aux).setWidth 64))
    else if u32 m (d + 16) = 0 then some false
    else checkver m vsym vername strings fuel (d + (u32 m (d + 16)).setWidth 64)

/-! ## The symbols -/

/-- `1<<STT_NOTYPE | 1<<STT_OBJECT | 1<<STT_FUNC | 1<<STT_COMMON` -/
def OK_TYPES : BitVec 32 := 1 <<< 0 ||| 1 <<< 1 ||| 1 <<< 2 ||| 1 <<< 5

/-- `1<<STB_GLOBAL | 1<<STB_WEAK | 1<<STB_GNU_UNIQUE` -/
def OK_BINDS : BitVec 32 := 1 <<< 1 ||| 1 <<< 2 ||| 1 <<< 10

/-- The tests that skip a symbol for its `st_info` or `st_shndx`. -/
def usable (info : Byte) (shndx : BitVec 16) : Bool :=
  1 <<< (info &&& 0xf).toNat &&& OK_TYPES ≠ 0 ∧ 1 <<< (info >>> 4).toNat &&& OK_BINDS ≠ 0 ∧ shndx ≠ 0

/-- `versym && !checkver(verdef, versym[i], vername, strings)`, turned round. -/
def versionOk (fuel : Nat) (m : Mem 64 Byte) (t : Tables) (vername : List Byte) (i : Nat) :
    Option Bool :=
  if t.versym = 0 then some true
  else checkver m (u16 m (t.versym + BitVec.ofNat 64 (2 * i))) vername t.strings fuel t.verdef

/-- `for (i=0; i<hashtab[1]; i++)`, with `n` symbols to go. -/
def scanSyms (fuel : Nat) (m : Mem 64 Byte) (base : Addr) (t : Tables) (vername name : List Byte) :
    Nat → Nat → Option (Option Addr)
  | 0, _ => some none
  | n + 1, i =>
    let sym := t.syms + BitVec.ofNat 64 (24 * i)
    if usable (m (sym + 4)) (u16 m (sym + 6)) ∧
        strEq m name (t.strings + (u32 m sym).setWidth 64) then do
      if ← versionOk fuel m t vername i then
        return some (base + u64 m (sym + 8))
      else
        scanSyms fuel m base t vername name n (i + 1)
    else
      scanSyms fuel m base t vername name n (i + 1)

/-- `__vdsosym`, `eh` being what `getauxval(AT_SYSINFO_EHDR)` gives. -/
def vdsosym (fuel : Nat) (m : Mem 64 Byte) (eh : Addr) (vername name : List Byte) :
    Option (Option Addr) :=
  if eh = 0 then some none
  else
    let (base, dynv) := scanPhdrs m eh (u16 m (eh + 54)) (u16 m (eh + 56)).toNat
      (eh + u64 m (eh + 32)) (-1, 0)
    if dynv = 0 ∨ base = -1 then some none
    else do
      let t ← scanDynv m base fuel dynv ⟨0, 0, 0, 0, 0⟩
      if t.strings = 0 ∨ t.syms = 0 ∨ t.hashtab = 0 then return none
      let t := if t.verdef = 0 then { t with versym := 0 } else t
      scanSyms fuel m base t vername name (u32 m (t.hashtab + 4)).toNat 0

end LdbToolchain.Vdso
