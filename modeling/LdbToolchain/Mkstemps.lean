import LdbToolchain.Strchrnul
import LdbToolchain.Syscall

/-!
# `mkstemps`

`mkstemps` replaces the six characters `XXXXXX` before the suffix of a template and opens the name,
again with other letters as long as it exists already. The letters are written over those of the
attempt before, in place; `mkstemps_spec` says what is in the template at every exit.

The suffix length is an `int` that is compared with a `size_t`, so that a negative one counts as a
very large one.
-/

namespace LdbToolchain.Mkstemps

open LdbToolchain.Memory LdbToolchain.Strchrnul

/-- What one turn of the loop is given by its environment. -/
structure Attempt where
  /-- `ts.tv_nsec`, as `clock_gettime` leaves it. -/
  tvNsec : BitVec 64
  /-- `&ts`. -/
  ts : Addr
  /-- The descriptor `open` returns, or its error. -/
  outcome : Except Errno Nat

/-- How `mkstemps` leaves things. -/
structure Exit where
  result : Int
  errno : Int
  mem : Mem 64 Byte
  /-- The names given to `open`. -/
  names : List (List Byte)

/-- `"XXXXXX"`, without its terminator. -/
def placeholder : List Byte := List.replicate 6 88

/-- `'A' + (r & 15) + (r & 16) * 2`, as a `char`. -/
def randLetter (r : Word) : Byte := (65 + (r &&& 15) + (r &&& 16) * 2).setWidth 8

/-- `for (i = 0; i < 6; i++, r >>= 5)` of `__randname`, with `n` turns left. -/
def randnameLoop (template : Addr) : Nat → Nat → Word → Mem 64 Byte → Mem 64 Byte
  | 0, _, _, m => m
  | n + 1, i, r, m =>
    randnameLoop template n (i + 1) (r >>> 5)
      (Function.update m (template + BitVec.ofNat 64 i) (randLetter r))

/-- `__randname`. -/
def randname (m : Mem 64 Byte) (template : Addr) (tvNsec : BitVec 64) (ts : Addr) : Mem 64 Byte :=
  let r := tvNsec * 65537 ^^^ (ts.sdiv 16 + template)
  randnameLoop template 6 0 r m

/-- The string at an address. -/
def cString (fuel : Nat) (m : Mem 64 Byte) (s : Addr) : Option (List Byte) :=
  (strlen m fuel s).map (readBytes m s)

/-- The `do` loop, where `--retries` is going to give `retries`. The letters go to `name`. -/
def openLoop (fuel : Nat) (template name : Addr) (attempts : Nat → Attempt) :
    Nat → Nat → Mem 64 Byte → Int → Option Exit
  | retries, i, m, errno => do
    let m := randname m name (attempts i).tvNsec (attempts i).ts
    let opened ← cString fuel m template
    match (attempts i).outcome, retries with
    | .ok fd, _ => return ⟨fd, errno, m, [opened]⟩
    | .error e, retries + 1 =>
      if e = .EEXIST then do
        let exit ← openLoop fuel template name attempts retries (i + 1) m e.val
        return { exit with names := opened :: exit.names }
      else return ⟨-1, e.val, writeBytes m name placeholder, [opened]⟩
    | .error e, 0 => return ⟨-1, e.val, writeBytes m name placeholder, [opened]⟩

/-- `mkstemps`. -/
def mkstemps (fuel : Nat) (m : Mem 64 Byte) (template : Addr) (len : BitVec 32)
    (attempts : Nat → Attempt) (errno : Int) : Option Exit := do
  let l := BitVec.ofNat 64 (← strlen m fuel template)
  -- `len` is converted to `size_t`
  let len : Word := len.signExtend 64
  let name := template + l - len - 6
  if l < 6 ∨ len > l - 6 ∨ readBytes m name 6 ≠ placeholder then
    return ⟨-1, Errno.EINVAL.val, m, []⟩
  else openLoop fuel template name attempts (100 - 1) 0 m errno

/-! ## Letters -/

/-- A letter from A to P or from a to p. -/
def IsLetter (b : Byte) : Prop := (65 ≤ b ∧ b ≤ 80) ∨ (97 ≤ b ∧ b ≤ 112)

instance (b : Byte) : Decidable (IsLetter b) := inferInstanceAs (Decidable (_ ∨ _))

/-- Five bits decide the letter. -/
theorem randLetter_eq (r : Word) : randLetter r = randLetter ((r.setWidth 5).setWidth 64) := by
  have hlow : ∀ k : Nat, k < 32 →
      r &&& BitVec.ofNat 64 k = (r.setWidth 5).setWidth 64 &&& BitVec.ofNat 64 k := by
    intro k hk
    apply BitVec.eq_of_toNat_eq
    rw [BitVec.toNat_and, BitVec.toNat_and, BitVec.toNat_setWidth, BitVec.toNat_setWidth,
      BitVec.toNat_ofNat, Nat.mod_eq_of_lt (show k < 2 ^ 64 by omega),
      Nat.mod_eq_of_lt (show r.toNat % 2 ^ 5 < 2 ^ 64 by omega)]
    apply Nat.eq_of_testBit_eq
    intro j
    rw [Nat.testBit_and, Nat.testBit_and, Nat.testBit_mod_two_pow]
    by_cases hj : j < 5
    · simp [hj]
    · have hzero : k.testBit j = false := Nat.testBit_eq_false_of_lt
        (hk.trans_le (Nat.pow_le_pow_right (show 2 > 0 by decide) (not_lt.mp hj)))
      simp [hzero]
  have h15 := hlow 15 (by decide)
  have h16 := hlow 16 (by decide)
  rw [randLetter, randLetter]
  rw [show (15 : Word) = BitVec.ofNat 64 15 from rfl, show (16 : Word) = BitVec.ofNat 64 16 from rfl,
    h15, h16]

theorem isLetter_randLetter (r : Word) : IsLetter (randLetter r) := by
  rw [randLetter_eq]
  generalize r.setWidth 5 = b
  revert b
  decide

theorem IsLetter.ne_zero {b : Byte} (h : IsLetter b) : b ≠ 0 := by
  rintro rfl
  exact absurd h (by decide)

/-! ## What `__randname` writes -/

section

variable {m m' : Mem 64 Byte} {name template : Addr}

theorem randnameLoop_apply (n i : Nat) (hn : i + n ≤ 2 ^ 64) (r : Word) (m : Mem 64 Byte) (x : Addr) :
    randnameLoop template n i r m x =
      if i ≤ (x - template).toNat ∧ (x - template).toNat < i + n then
        randLetter (r >>> (5 * ((x - template).toNat - i)))
      else m x := by
  induction n generalizing i r m with
  | zero =>
      rw [if_neg (by omega)]
      rfl
  | succ n ih =>
      rw [randnameLoop, ih (i + 1) (by omega)]
      have hat : x = template + BitVec.ofNat 64 i ↔ (x - template).toNat = i := by
        constructor
        · rintro rfl
          exact toNat_add_sub_self template (by omega)
        · intro h
          rw [← h, add_ofNat_sub_toNat]
      by_cases hi : (x - template).toNat = i
      · rw [if_neg (by omega), if_pos (by omega), hi, Nat.sub_self, hat.mpr hi,
          Function.update_self]
        rfl
      · by_cases hin : i + 1 ≤ (x - template).toNat ∧ (x - template).toNat < i + 1 + n
        · rw [if_pos hin, if_pos (by omega), ← BitVec.shiftRight_add]
          congr 2
          omega
        · rw [if_neg hin, if_neg (by omega), Function.update_of_ne (fun h => hi (hat.mp h))]

/-- The same outside of the six characters. -/
def SameOutside (name : Addr) (m m' : Mem 64 Byte) : Prop :=
  ∀ x, 6 ≤ (x - name).toNat → m' x = m x

/-- The six characters are letters. -/
def Lettered (name : Addr) (m : Mem 64 Byte) : Prop :=
  ∀ i < 6, IsLetter (m (name + BitVec.ofNat 64 i))

/-- **`__randname` writes six letters** and nothing else. -/
theorem randname_spec (m : Mem 64 Byte) (name : Addr) (tvNsec : BitVec 64) (ts : Addr) :
    SameOutside name m (randname m name tvNsec ts) ∧ Lettered name (randname m name tvNsec ts) := by
  constructor
  · intro x hx
    rw [randname, randnameLoop_apply _ _ (by decide), if_neg (by omega)]
  · intro i hi
    rw [randname, randnameLoop_apply _ _ (by decide), toNat_add_sub_self name (by omega),
      if_pos (by omega)]
    exact isLetter_randLetter _

/-- Writing the placeholder again restores a memory that had it. -/
theorem writeBytes_placeholder (h : SameOutside name m m') (hm : readBytes m name 6 = placeholder) :
    writeBytes m' name placeholder = m := by
  funext x
  rw [writeBytes]
  by_cases hx : (x - name).toNat < 6
  · have hbyte : placeholder[(x - name).toNat]? = some (m x) := by
      rw [← hm, getElem?_readBytes, if_pos hx, add_ofNat_sub_toNat]
    rw [hbyte, Option.getD_some]
  · rw [List.getElem?_eq_none (by simpa [placeholder] using hx), Option.getD_none]
    exact h x (not_lt.mp hx)

end

/-! ## The template -/

/-- The template: a string of `l` bytes at `template`, the six characters at offset `o`. No object
is larger than `PTRDIFF_MAX`. -/
structure Template (m : Mem 64 Byte) (template : Addr) (l o : Nat) : Prop where
  string : StringAt m template l
  room : o + 6 ≤ l
  object : l < 2 ^ 63

section

variable {m m' : Mem 64 Byte} {template : Addr} {l o fuel : Nat}

theorem strlen_of_stringAt (h : StringAt m template l) (hfuel : l < fuel) :
    strlen m fuel template = some l := by
  apply strlen_of_stopsAfter _ hfuel
  constructor
  · intro i hi hstop
    rcases hstop with hnul | hnul
    · exact h.nonul i hi hnul
    · exact h.nonul i hi hnul
  · exact Or.inl h.terminator

theorem cString_of_stringAt (h : StringAt m template l) (hfuel : l < fuel) :
    cString fuel m template = some (readBytes m template l) := by
  rw [cString, strlen_of_stringAt h hfuel]
  rfl

/-- It stays a string of the same length when letters are written into it. -/
theorem Template.lettered (h : Template m template l o)
    (hsame : SameOutside (template + BitVec.ofNat 64 o) m m')
    (hletters : Lettered (template + BitVec.ofNat 64 o) m') : StringAt m' template l := by
  have hroom := h.room
  have hobject := h.object
  have hout : ∀ e ≤ l, (e < o ∨ o + 6 ≤ e) →
      m' (template + BitVec.ofNat 64 e) = m (template + BitVec.ofNat 64 e) := by
    intro e he hoff
    apply hsame
    rw [toNat_offset_sub template (by omega) (by omega)]
    split
    · omega
    · omega
  constructor
  · intro i hi
    by_cases hin : o ≤ i ∧ i < o + 6
    · have hletter := hletters (i - o) (by omega)
      rw [add_ofNat_add, show o + (i - o) = i by omega] at hletter
      exact hletter.ne_zero
    · rw [hout i hi.le (by omega)]
      exact h.string.nonul i hi
  · rw [hout l le_rfl (by omega)]
    exact h.string.terminator

theorem SameOutside.trans {name : Addr} {m'' : Mem 64 Byte} (h : SameOutside name m m')
    (h' : SameOutside name m' m'') : SameOutside name m m'' :=
  fun x hx => (h' x hx).trans (h x hx)

end

/-! ## The loop -/

/-- What the attempt that ended the loop leaves: a name that was opened and stands in the template, or
the template as it was. -/
def Leaves (m : Mem 64 Byte) (template name : Addr) (l : Nat) (exit : Exit) :
    Except Errno Nat → Prop
  | .ok fd => exit.result = fd ∧ SameOutside name m exit.mem ∧ Lettered name exit.mem ∧
      StringAt exit.mem template l ∧ exit.names.getLast? = some (readBytes exit.mem template l)
  | .error e => exit.result = -1 ∧ exit.errno = e.val ∧ exit.mem = m

/-- The loop made `n` attempts in vain, from the one numbered `i` on, and one more. -/
structure Ran (attempts : Nat → Attempt) (m : Mem 64 Byte) (template name : Addr) (l i n : Nat)
    (exit : Exit) : Prop where
  names : exit.names.length = n + 1
  retried : ∀ j < n, (attempts (i + j)).outcome = .error .EEXIST
  leaves : Leaves m template name l exit (attempts (i + n)).outcome

section

variable {m : Mem 64 Byte} {template : Addr} {l o fuel : Nat} {attempts : Nat → Attempt}

/-- The last attempt, when it gets a descriptor. -/
theorem ran_ok {name : Addr} {i fd : Nat} {mem : Mem 64 Byte}
    (houtcome : (attempts i).outcome = .ok fd) (hsame : SameOutside name m mem)
    (hletters : Lettered name mem) (hstring : StringAt mem template l) (errno : Int) :
    Ran attempts m template name l i 0 ⟨fd, errno, mem, [readBytes mem template l]⟩ where
  names := rfl
  retried j hj := absurd hj (Nat.not_lt_zero j)
  leaves := by
    rw [Nat.add_zero, houtcome]
    exact ⟨rfl, hsame, hletters, hstring, rfl⟩

/-- The last attempt, when it fails. -/
theorem ran_error {name : Addr} {i : Nat} {e : Errno} {mem : Mem 64 Byte}
    (houtcome : (attempts i).outcome = .error e) (hsame : SameOutside name m mem)
    (hplaceholder : readBytes m name 6 = placeholder) (opened : List Byte) :
    Ran attempts m template name l i 0 ⟨-1, e.val, writeBytes mem name placeholder, [opened]⟩ where
  names := rfl
  retried j hj := absurd hj (Nat.not_lt_zero j)
  leaves := by
    rw [Nat.add_zero, houtcome]
    exact ⟨rfl, rfl, writeBytes_placeholder hsame hplaceholder⟩

/-- One more attempt, before the others. -/
theorem Ran.retry {name : Addr} {i n : Nat} {exit : Exit}
    (h : Ran attempts m template name l (i + 1) n exit)
    (hexist : (attempts i).outcome = .error .EEXIST) (opened : List Byte) :
    Ran attempts m template name l i (n + 1) { exit with names := opened :: exit.names } where
  names := by rw [List.length_cons, h.names]
  retried := by
    intro j hj
    cases j with
    | zero => exact hexist
    | succ j =>
        have hretried := h.retried j (Nat.lt_of_succ_lt_succ hj)
        rwa [show i + 1 + j = i + (j + 1) by omega] at hretried
  leaves := by
    have hleaves := h.leaves
    rw [show i + 1 + n = i + (n + 1) by omega] at hleaves
    cases houtcome : (attempts (i + (n + 1))).outcome with
    | error e =>
        rw [houtcome] at hleaves
        exact hleaves
    | ok fd =>
        rw [houtcome] at hleaves
        obtain ⟨hresult, hsame, hletters, hstring, hlast⟩ := hleaves
        refine ⟨hresult, hsame, hletters, hstring, ?_⟩
        rw [List.getLast?_cons, hlast]
        rfl

/-- What an attempt writes, and the name it opens. -/
theorem attempt_spec (h : Template m template l o) (hfuel : l < fuel) {mem : Mem 64 Byte}
    (hsame : SameOutside (template + BitVec.ofNat 64 o) m mem) (attempt : Attempt) :
    let written := randname mem (template + BitVec.ofNat 64 o) attempt.tvNsec attempt.ts
    SameOutside (template + BitVec.ofNat 64 o) m written ∧
      Lettered (template + BitVec.ofNat 64 o) written ∧ StringAt written template l ∧
      cString fuel written template = some (readBytes written template l) := by
  intro written
  obtain ⟨hwritten, hletters⟩ := randname_spec mem (template + BitVec.ofNat 64 o) attempt.tvNsec
    attempt.ts
  have hnow := hsame.trans hwritten
  have hstring := h.lettered hnow hletters
  exact ⟨hnow, hletters, hstring, cString_of_stringAt hstring hfuel⟩

/-- **Every run of the loop**, by induction on the retries left. The memory it comes with differs from
the one at the start in the six characters alone. -/
theorem openLoop_spec (attempts : Nat → Attempt) (h : Template m template l o)
    (hplaceholder : readBytes m (template + BitVec.ofNat 64 o) 6 = placeholder)
    (hfuel : l < fuel) (retries i : Nat) {mem : Mem 64 Byte}
    (hsame : SameOutside (template + BitVec.ofNat 64 o) m mem) (errno : Int) :
    ∃ exit n, openLoop fuel template (template + BitVec.ofNat 64 o) attempts retries i mem errno
        = some exit ∧ n ≤ retries ∧
      Ran attempts m template (template + BitVec.ofNat 64 o) l i n exit := by
  induction retries generalizing i mem errno with
  | zero =>
      obtain ⟨hnow, hletters, hstring, hopened⟩ := attempt_spec h hfuel hsame (attempts i)
      rw [openLoop]
      simp only [hopened, Option.bind_eq_bind, Option.bind_some]
      cases houtcome : (attempts i).outcome with
      | ok fd => exact ⟨_, 0, rfl, le_rfl, ran_ok houtcome hnow hletters hstring errno⟩
      | error e => exact ⟨_, 0, rfl, le_rfl, ran_error houtcome hnow hplaceholder _⟩
  | succ retries ih =>
      obtain ⟨hnow, hletters, hstring, hopened⟩ := attempt_spec h hfuel hsame (attempts i)
      rw [openLoop]
      simp only [hopened, Option.bind_eq_bind, Option.bind_some]
      cases houtcome : (attempts i).outcome with
      | ok fd => exact ⟨_, 0, rfl, Nat.zero_le _, ran_ok houtcome hnow hletters hstring errno⟩
      | error e =>
          by_cases hexist : e = .EEXIST
          · obtain ⟨exit, n, hrun, hn, hran⟩ := ih (i + 1) hnow e.val
            subst hexist
            simp only [if_true, hrun, Option.bind_some]
            exact ⟨_, n + 1, rfl, Nat.succ_le_succ hn, hran.retry houtcome _⟩
          · simp only [if_neg hexist]
            exact ⟨_, 0, rfl, Nat.zero_le _, ran_error houtcome hnow hplaceholder _⟩

end

/-! ## The check -/

/-- The suffix leaves room for the six characters, and they are the placeholder. -/
structure Fits (m : Mem 64 Byte) (template : Addr) (l : Nat) (len : BitVec 32) : Prop where
  nonneg : 0 ≤ len.toInt
  le : len.toInt ≤ l - 6
  placeholder : readBytes m (template + BitVec.ofNat 64 (l - len.toNat - 6)) 6 = placeholder

/-- The comparisons of `mkstemps`, on `size_t`: a negative `len` is too large. -/
theorem check_iff {l : Nat} (hl : l < 2 ^ 63) (len : BitVec 32) :
    ¬ (BitVec.ofNat 64 l < 6 ∨ len.signExtend 64 > BitVec.ofNat 64 l - 6) ↔
      0 ≤ len.toInt ∧ len.toInt ≤ l - 6 := by
  have hlen := len.isLt
  have hlnat : (BitVec.ofNat 64 l).toNat = l := by
    rw [BitVec.toNat_ofNat, Nat.mod_eq_of_lt (by omega)]
  have hsix : (6 : BitVec 64).toNat = 6 := rfl
  have hsub : (BitVec.ofNat 64 l - 6).toNat = if 6 ≤ l then l - 6 else 2 ^ 64 - 6 + l := by
    rw [BitVec.toNat_sub, hlnat, hsix]
    split <;> omega
  have hext : (len.signExtend 64).toNat
      = len.toNat + if len.msb then 2 ^ 64 - 2 ^ 32 else 0 := by
    rw [BitVec.toNat_signExtend, BitVec.toNat_setWidth, Nat.mod_eq_of_lt (by omega)]
  rw [BitVec.lt_def, gt_iff_lt, BitVec.lt_def, hlnat, hsix, hsub, hext, BitVec.toInt_eq_msb_cond]
  cases hmsb : len.msb with
  | false =>
      have hsmall : len.toNat < 2 ^ 31 := by
        rw [BitVec.msb_eq_false_iff_two_mul_lt] at hmsb
        omega
      simp only [Bool.false_eq_true, if_false, Nat.add_zero]
      split <;> omega
  | true =>
      have hlarge : 2 ^ 31 ≤ len.toNat := by
        rw [BitVec.msb_eq_true_iff_two_mul_ge] at hmsb
        omega
      simp only [if_true]
      split <;> omega

/-- The address `template + l - len - 6`. -/
theorem name_eq {l : Nat} (template : Addr) {len : BitVec 32} (hnonneg : 0 ≤ len.toInt)
    (hle : len.toInt ≤ l - 6) :
    template + BitVec.ofNat 64 l - len.signExtend 64 - 6
      = template + BitVec.ofNat 64 (l - len.toNat - 6) := by
  have hmsb : len.msb = false := by
    rw [BitVec.msb_eq_toInt]
    simpa using hnonneg
  have hnat : len.toInt = len.toNat := BitVec.toInt_eq_toNat_of_msb hmsb
  have hlen : len.signExtend 64 = BitVec.ofNat 64 len.toNat := by
    rw [BitVec.signExtend_eq_setWidth_of_msb_false hmsb]
    apply BitVec.eq_of_toNat_eq
    rw [BitVec.toNat_setWidth, BitVec.toNat_ofNat]
  have hsplit : BitVec.ofNat 64 l
      = BitVec.ofNat 64 (l - len.toNat - 6) + 6 + BitVec.ofNat 64 len.toNat := by
    rw [show (6 : BitVec 64) = BitVec.ofNat 64 6 from rfl, ← BitVec.ofNat_add, ← BitVec.ofNat_add]
    congr 1
    omega
  rw [hlen, hsplit, ← BitVec.add_assoc, BitVec.add_sub_cancel, ← BitVec.add_assoc,
    BitVec.add_sub_cancel]

/-- **`mkstemps` touches its six characters only and undoes them on failure.** -/
theorem mkstemps_spec {m : Mem 64 Byte} {template : Addr} {l fuel : Nat}
    (hstring : StringAt m template l) (hobject : l < 2 ^ 63) (hfuel : l < fuel) (len : BitVec 32)
    (attempts : Nat → Attempt) (errno : Int) :
    ∃ exit, mkstemps fuel m template len attempts errno = some exit ∧
      (¬ Fits m template l len → exit = ⟨-1, Errno.EINVAL.val, m, []⟩) ∧
      (Fits m template l len → ∃ n < 100, Ran attempts m template
        (template + BitVec.ofNat 64 (l - len.toNat - 6)) l 0 n exit) := by
  rw [mkstemps, strlen_of_stringAt hstring hfuel]
  simp only [Option.bind_eq_bind, Option.bind_some]
  by_cases hroom : 0 ≤ len.toInt ∧ len.toInt ≤ l - 6
  · have hcheck := not_or.mp ((check_iff hobject len).mpr hroom)
    rw [name_eq template hroom.1 hroom.2]
    by_cases hplaceholder :
        readBytes m (template + BitVec.ofNat 64 (l - len.toNat - 6)) 6 = placeholder
    · rw [if_neg (by tauto)]
      have hlen := BitVec.toInt_eq_toNat_cond len
      have htemplate : Template m template l (l - len.toNat - 6) := ⟨hstring, by omega, hobject⟩
      obtain ⟨exit, n, hrun, hn, hran⟩ := openLoop_spec attempts htemplate hplaceholder
        hfuel (100 - 1) 0 (fun x _ => rfl) errno
      refine ⟨exit, hrun, fun hnot => ?_, fun _ => ⟨n, by omega, hran⟩⟩
      exact absurd ⟨hroom.1, hroom.2, hplaceholder⟩ hnot
    · rw [if_pos (by tauto)]
      exact ⟨_, rfl, fun _ => rfl, fun hfits => absurd hfits.placeholder hplaceholder⟩
  · have hcheck := not_not.mp (mt (check_iff hobject len).mp hroom)
    rw [if_pos (by tauto)]
    exact ⟨_, rfl, fun _ => rfl, fun hfits => absurd ⟨hfits.nonneg, hfits.le⟩ hroom⟩

/-- `XXXXXX.c` at 0x1000. -/
def templateMemory : Mem 64 Byte :=
  fun a => (placeholder ++ [46, 99])[(a - 0x1000).toNat]?.getD 0

theorem templateMemory_stringAt : StringAt templateMemory 0x1000 8 where
  nonul := by
    intro i hi
    interval_cases i <;> decide
  terminator := by decide

/-- The first name exists, the second gets the descriptor 3. -/
def secondTry (i : Nat) : Attempt := ⟨0, 0x7ff0, if i = 0 then .error .EEXIST else .ok 3⟩

theorem mkstemps_spec_dotC :
    ∃ exit, mkstemps 9 templateMemory 0x1000 2 secondTry 0 = some exit ∧
      ∃ n < 100, Ran secondTry templateMemory 0x1000 (0x1000 + BitVec.ofNat 64 0) 8 0 n exit := by
  obtain ⟨exit, hrun, -, hran⟩ := mkstemps_spec templateMemory_stringAt (by decide)
    (show 8 < 9 by decide) 2 secondTry 0
  exact ⟨exit, hrun, hran ⟨by decide, by decide, by decide⟩⟩

end LdbToolchain.Mkstemps
