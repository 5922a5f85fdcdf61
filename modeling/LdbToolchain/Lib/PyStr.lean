import LdbToolchain.Lib.Split
import Mathlib.Data.List.DropRight
import Mathlib.Data.List.TakeWhile
import Mathlib.Data.Nat.Notation
import Mathlib.Tactic.IntervalCases

/-!
# Python strings

The methods of `str` that take a text apart, and the two conversions between numbers and decimal
strings, as Python 3 has them (Unicode 14): a string is the list of its code points. `split(sep)` and
`sep.join` are `List.splitOn` and `List.intercalate`; that they are inverse to each other is known.
What there is to add: the words of a text that is put together from pieces, lines, and that `int`
undoes `str`.
-/

namespace LdbToolchain.Py

abbrev Str := List Char

/-! ## Characters -/

/-- `isspace`. -/
def isSpace (c : Char) : Bool :=
  (9 ≤ c.toNat && c.toNat ≤ 13) || (28 ≤ c.toNat && c.toNat ≤ 32) || c.toNat = 0x85
  || c.toNat = 0xa0 || c.toNat = 0x1680 || (0x2000 ≤ c.toNat && c.toNat ≤ 0x200a)
  || c.toNat = 0x2028 || c.toNat = 0x2029 || c.toNat = 0x202f || c.toNat = 0x205f
  || c.toNat = 0x3000

/-- The code points of the zeros. The nine digits after a zero follow it. -/
def zeros : List Nat :=
  [0x30, 0x660, 0x6f0, 0x7c0, 0x966, 0x9e6, 0xa66, 0xae6, 0xb66, 0xbe6, 0xc66, 0xce6, 0xd66, 0xde6,
    0xe50, 0xed0, 0xf20, 0x1040, 0x1090, 0x17e0, 0x1810, 0x1946, 0x19d0, 0x1a80, 0x1a90, 0x1b50,
    0x1bb0, 0x1c40, 0x1c50, 0xa620, 0xa8d0, 0xa900, 0xa9d0, 0xa9f0, 0xaa50, 0xabf0, 0xff10, 0x104a0,
    0x10d30, 0x11066, 0x110f0, 0x11136, 0x111d0, 0x112f0, 0x11450, 0x114d0, 0x11650, 0x116c0,
    0x11730, 0x118e0, 0x11950, 0x11c50, 0x11d50, 0x11da0, 0x16a60, 0x16ac0, 0x16b50, 0x1d7ce,
    0x1d7d8, 0x1d7e2, 0x1d7ec, 0x1d7f6, 0x1e140, 0x1e2f0, 0x1e950, 0x1fbf0]

/-- The value of a decimal digit. -/
def decimal? (c : Char) : Option Nat :=
  (zeros.find? fun z => z ≤ c.toNat && c.toNat < z + 10).map (c.toNat - ·)

/-- The digits that are not decimal, as ranges of code points: superscripts, circled digits, and so
on. -/
def otherDigits : List (Nat × Nat) :=
  [(0xb2, 0xb3), (0xb9, 0xb9), (0x1369, 0x1371), (0x19da, 0x19da), (0x2070, 0x2070),
    (0x2074, 0x2079), (0x2080, 0x2089), (0x2460, 0x2468), (0x2474, 0x247c), (0x2488, 0x2490),
    (0x24ea, 0x24ea), (0x24f5, 0x24fd), (0x24ff, 0x24ff), (0x2776, 0x277e), (0x2780, 0x2788),
    (0x278a, 0x2792), (0x10a40, 0x10a43), (0x10e60, 0x10e68), (0x11052, 0x1105a),
    (0x1f100, 0x1f10a)]

/-- `isdigit`, of a string. -/
def isDigit (s : Str) : Bool :=
  s ≠ [] && s.all fun c =>
    (decimal? c).isSome || otherDigits.any fun r => r.1 ≤ c.toNat && c.toNat ≤ r.2

/-! ## Taking a text apart -/

/-- `strip`. -/
def strip (s : Str) : Str := (s.dropWhile isSpace).rdropWhile isSpace

/-- `split`, without an argument. -/
def words (s : Str) : List Str := (s.splitOnP isSpace).filter (· ≠ [])

/-- A file opened for reading as text takes every kind of line end for a newline. -/
def newlines : Str → Str
  | '\r' :: '\n' :: s => '\n' :: newlines s
  | '\r' :: s => '\n' :: newlines s
  | c :: s => c :: newlines s
  | [] => []

/-- A text cut after each newline. -/
def linesOf : Str → List Str
  | [] => []
  | c :: s =>
    if c = '\n' then ['\n'] :: linesOf s
    else
      match linesOf s with
      | [] => [[c]]
      | line :: lines => (c :: line) :: lines

/-- The lines that a text file is read as. -/
def readLines (text : Str) : List Str := linesOf (newlines text)

/-! ## Numbers -/

/-- The space that `int` skips. -/
def intSpace (c : Char) : Bool :=
  if c.toNat < 128 then c ∈ [' ', '\t', '\n', '\x0b', '\x0c', '\r'] else isSpace c

/-- The value of digits with single underscores between them, after `acc`; `inside` says whether a
digit came just before. -/
def digits : Nat → Bool → Str → Option Nat
  | acc, inside, [] => if inside then some acc else none
  | acc, inside, c :: s =>
    if c = '_' then if inside then digits acc false s else none
    else
      match decimal? c with
      | some d => digits (acc * 10 + d) true s
      | none => none

/-- `int`, without the limit that newer interpreters put on the number of digits; `none` is a
`ValueError`. -/
def int (s : Str) : Option Int :=
  match (s.dropWhile intSpace).rdropWhile intSpace with
  | '-' :: ds => (digits 0 false ds).map fun n => -(n : Int)
  | '+' :: ds => (digits 0 false ds).map fun n => (n : Int)
  | ds => (digits 0 false ds).map fun n => (n : Int)

/-- `str`, of a number. -/
def str : Int → Str
  | .ofNat n => Nat.toDigits 10 n
  | .negSucc n => '-' :: Nat.toDigits 10 (n + 1)

/-! ## Words -/

theorem words_append_space {c : Char} (hc : isSpace c = true) (s t : Str) :
    words (s ++ c :: t) = words s ++ words t := by
  rw [words, List.splitOnP_append_cons s t hc, List.filter_append]
  rfl

@[simp] theorem words_nil : words [] = [] := rfl

theorem words_of_solid {s : Str} (hs : ∀ c ∈ s, isSpace c = false) (hne : s ≠ []) :
    words s = [s] := by
  rw [words, List.splitOnP_eq_singleton hs]
  exact List.filter_cons_of_pos (by simpa using hne)

/-- The first word of a text that does not start with a space. -/
theorem words_cons_of_solid {c : Char} (hc : isSpace c = false) (s : Str) :
    ∃ word rest, words (c :: s) = (c :: word) :: rest := by
  obtain ⟨first, rest, hsplit⟩ := List.exists_cons_of_ne_nil (List.splitOnP_ne_nil isSpace s)
  refine ⟨first, rest.filter (· ≠ []), ?_⟩
  rw [words, List.splitOnP_cons_eq_if_modifyHead, if_neg (by simp [hc]), hsplit,
    List.modifyHead_cons]
  exact List.filter_cons_of_pos (by simp)

theorem ne_nil_of_mem_words {s word : Str} (h : word ∈ words s) : word ≠ [] := by
  simpa using (List.mem_filter.mp h).2

/-- The words are what is left without the spaces. -/
theorem flatten_words (s : Str) : (words s).flatten = s.filter fun c => !isSpace c := by
  have hkeep : ∀ l : List Str, (l.filter (· ≠ [])).flatten = l.flatten := by
    intro l
    induction l with
    | nil => rfl
    | cons a l ih =>
        by_cases ha : a = []
        · rw [List.filter_cons_of_neg (by simpa using ha), ih, ha]
          rfl
        · rw [List.filter_cons_of_pos (by simpa using ha), List.flatten_cons, ih, List.flatten_cons]
  rw [words, hkeep]
  induction s with
  | nil => rfl
  | cons c s ih =>
      rw [List.splitOnP_cons_eq_if_modifyHead]
      cases hc : isSpace c with
      | true =>
          rw [if_pos rfl, List.flatten_cons, ih, List.filter_cons_of_neg (by rw [hc]; decide)]
          rfl
      | false =>
          rw [if_neg (by decide), List.filter_cons_of_pos (by rw [hc]; decide), ← ih]
          obtain ⟨a, l, hsplit⟩ := List.exists_cons_of_ne_nil (List.splitOnP_ne_nil isSpace s)
          rw [hsplit]
          rfl

theorem words_dropWhile (s : Str) : words (s.dropWhile isSpace) = words s := by
  induction s with
  | nil => rfl
  | cons c s ih =>
      rw [List.dropWhile_cons]
      split
      next hc =>
        rw [ih]
        exact (words_append_space hc [] s).symm
      next => rfl

theorem words_rdropWhile (s : Str) : words (s.rdropWhile isSpace) = words s := by
  induction s using List.reverseRecOn with
  | nil => rfl
  | append_singleton s c ih =>
      rw [List.rdropWhile_concat]
      split
      next hc => rw [ih, words_append_space hc, words_nil, List.append_nil]
      next => rfl

theorem words_strip (s : Str) : words (strip s) = words s := by
  rw [strip, words_rdropWhile, words_dropWhile]

theorem mem_of_mem_words {s word : Str} (hword : word ∈ words s) {c : Char} (hc : c ∈ word) :
    c ∈ s ∧ isSpace c = false := by
  have hflat : c ∈ (words s).flatten := List.mem_flatten_of_mem hword hc
  rw [flatten_words] at hflat
  simpa using hflat

/-! ## The ends of a text -/

theorem mem_of_mem_strip {s : Str} {c : Char} (hc : c ∈ strip s) : c ∈ s :=
  (List.dropWhile_sublist _).subset ((List.rdropWhile_prefix isSpace _).subset hc)

/-- A space at the end does not count. -/
theorem strip_concat_space {c : Char} (hc : isSpace c = true) (s : Str) :
    strip (s ++ [c]) = strip s := by
  rw [strip, strip, List.dropWhile_append]
  split
  next hall =>
    have hnil : s.dropWhile isSpace = [] := by simpa using hall
    rw [hnil, List.dropWhile_cons, if_pos hc]
    rfl
  next => rw [List.rdropWhile_concat_pos _ _ _ hc]

/-- A text that neither starts nor ends with a space. -/
theorem strip_eq_self {s : Str} (hfirst : ∀ c, s.head? = some c → isSpace c = false)
    (hlast : ∀ c, s.getLast? = some c → isSpace c = false) : strip s = s := by
  have hdrop : s.dropWhile isSpace = s := by
    cases s with
    | nil => rfl
    | cons c s => rw [List.dropWhile_cons, hfirst c rfl, if_neg (by decide)]
  rw [strip, hdrop, List.rdropWhile_eq_self_iff]
  intro hne hspace
  have := hlast _ (List.getLast?_eq_some_getLast hne)
  grind

/-- What is stripped does not start with a space. -/
theorem head_strip {s : Str} {c : Char} (hc : (strip s).head? = some c) : isSpace c = false := by
  have hhead : (s.dropWhile isSpace).head? = some c := by
    obtain ⟨rest, hrest⟩ := List.rdropWhile_prefix isSpace (s.dropWhile isSpace)
    rw [← hrest, List.head?_append, show ((s.dropWhile isSpace).rdropWhile isSpace).head? = some c
      from hc]
    rfl
  have := List.head?_dropWhile_not isSpace s
  rw [hhead] at this
  simpa using this

/-! ## Lines -/

theorem mem_newlines {s : Str} : '\r' ∉ newlines s := by
  fun_induction newlines s <;> grind

theorem newlines_eq_self {s : Str} (hs : '\r' ∉ s) : newlines s = s := by
  fun_induction newlines s <;> grind

/-- A line of a text, with or without its newline. -/
theorem body_of_mem_linesOf {s line : Str} (hline : line ∈ linesOf s) :
    ∃ body, (line = body ∨ line = body ++ ['\n']) ∧ '\n' ∉ body ∧ ∀ c ∈ body, c ∈ s := by
  induction s generalizing line with
  | nil => cases hline
  | cons c s ih =>
      have hrest : line ∈ linesOf s →
          ∃ body, (line = body ∨ line = body ++ ['\n']) ∧ '\n' ∉ body ∧ ∀ x ∈ body, x ∈ c :: s := by
        intro h
        obtain ⟨body, hbody, hnewline, hmem⟩ := ih h
        exact ⟨body, hbody, hnewline, fun x hx => List.mem_cons_of_mem c (hmem x hx)⟩
      rw [linesOf] at hline
      by_cases hc : c = '\n'
      · rw [if_pos hc] at hline
        rcases List.mem_cons.mp hline with rfl | hline
        · exact ⟨[], .inr rfl, List.not_mem_nil, fun x hx => absurd hx List.not_mem_nil⟩
        · exact hrest hline
      · rw [if_neg hc] at hline
        cases hlines : linesOf s with
        | nil =>
            rw [hlines] at hline
            rw [List.mem_singleton.mp hline]
            exact ⟨[c], .inl rfl, by grind, by grind⟩
        | cons first rest =>
            rw [hlines] at hline
            rcases List.mem_cons.mp hline with rfl | hline
            · -- the first line of the rest, one character longer
              have hfirst : first ∈ linesOf s := by
                rw [hlines]
                exact List.mem_cons_self
              obtain ⟨body, hbody, hnewline, hmem⟩ := ih hfirst
              refine ⟨c :: body, ?_, by grind, by grind⟩
              rcases hbody with rfl | rfl
              · exact .inl rfl
              · exact .inr rfl
            · exact hrest (by rw [hlines]; exact List.mem_cons_of_mem first hline)

/-- A stripped line has no line end in it. -/
theorem lineEnd_notMem_strip {text line : Str} (hline : line ∈ readLines text) :
    ∀ c ∈ strip line, c ≠ '\n' ∧ c ≠ '\r' := by
  obtain ⟨body, hbody, hnewline, hmem⟩ := body_of_mem_linesOf hline
  have hstrip : strip line = strip body := by
    rcases hbody with rfl | rfl
    · rfl
    · exact strip_concat_space (by decide) body
  intro c hc
  rw [hstrip] at hc
  have hbody := mem_of_mem_strip hc
  refine ⟨?_, ?_⟩
  · rintro rfl
    exact hnewline hbody
  · rintro rfl
    exact mem_newlines (hmem _ hbody)

theorem linesOf_append_newline {line : Str} (hline : '\n' ∉ line) (rest : Str) :
    linesOf (line ++ '\n' :: rest) = (line ++ ['\n']) :: linesOf rest := by
  induction line with
  | nil => rw [List.nil_append, linesOf, if_pos rfl, List.nil_append]
  | cons c line ih =>
      rw [List.mem_cons, not_or] at hline
      rw [List.cons_append, linesOf, if_neg (fun h => hline.1 h.symm), ih hline.2]
      rfl

/-- Lines that are printed one after the other are read back. -/
theorem readLines_printed {lines : List Str} (h : ∀ line ∈ lines, '\n' ∉ line ∧ '\r' ∉ line) :
    readLines (lines.flatMap (· ++ ['\n'])) = lines.map (· ++ ['\n']) := by
  have hreturn : '\r' ∉ lines.flatMap (· ++ ['\n']) := by
    intro hmem
    obtain ⟨line, hline, hc⟩ := List.mem_flatMap.mp hmem
    have := (h line hline).2
    grind
  rw [readLines, newlines_eq_self hreturn]
  clear hreturn
  induction lines with
  | nil => rfl
  | cons line lines ih =>
      rw [List.flatMap_cons, List.append_assoc, List.singleton_append,
        linesOf_append_newline (h line List.mem_cons_self).1,
        ih fun l hl => h l (List.mem_cons_of_mem line hl)]
      rfl

/-! ## Numbers -/

theorem decimal?_digitChar {d : Nat} (hd : d < 10) : decimal? d.digitChar = some d := by
  interval_cases d <;> decide

theorem digits_concat {acc m d : Nat} {inside : Bool} {s : Str} {c : Char}
    (hs : digits acc inside s = some m) (hc : decimal? c = some d) :
    digits acc inside (s ++ [c]) = some (m * 10 + d) := by
  have hunderscore : c ≠ '_' := by
    rintro rfl
    rw [show decimal? '_' = none by decide] at hc
    cases hc
  induction s generalizing acc inside with
  | nil =>
      rw [digits] at hs
      rw [List.nil_append, digits, if_neg hunderscore, hc]
      split at hs
      next =>
        cases hs
        rfl
      next => cases hs
  | cons x s ih =>
      rw [digits] at hs
      rw [List.cons_append, digits]
      by_cases hx : x = '_'
      · rw [if_pos hx] at hs ⊢
        split at hs
        next hinside =>
          rw [if_pos hinside]
          exact ih hs
        next => cases hs
      · rw [if_neg hx] at hs ⊢
        cases hdecimal : decimal? x with
        | none =>
            rw [hdecimal] at hs
            cases hs
        | some v =>
            rw [hdecimal] at hs
            exact ih hs

theorem digits_toDigits (n : Nat) : digits 0 false (Nat.toDigits 10 n) = some n := by
  induction n using Nat.strong_induction_on with
  | _ n ih =>
      by_cases hn : n < 10
      · rw [Nat.toDigits_of_lt_base hn]
        interval_cases n <;> decide
      · rw [Nat.toDigits_of_base_le (by decide) (by omega),
          digits_concat (ih (n / 10) (by omega)) (decimal?_digitChar (Nat.mod_lt n (by decide)))]
        congr 1
        omega

/-- A decimal digit is no space, and nothing else that means something in a line. -/
theorem solid_of_mem_toDigits {n : Nat} {c : Char} (hc : c ∈ Nat.toDigits 10 n) :
    isSpace c = false ∧ intSpace c = false ∧ c ≠ '-' ∧ c ≠ '+' ∧ c ≠ ';' := by
  have hdigit := Nat.isDigit_of_mem_toDigits (by decide) (by decide) hc
  rw [Char.isDigit, Bool.and_eq_true, decide_eq_true_eq, decide_eq_true_eq] at hdigit
  have hlow : 48 ≤ c.toNat := hdigit.1
  have hhigh : c.toNat ≤ 57 := hdigit.2
  have hne : ∀ x : Char, x.toNat < 48 ∨ 57 < x.toNat → c ≠ x := by
    rintro x hx rfl
    omega
  refine ⟨?_, ?_, hne _ (by decide), hne _ (by decide), hne _ (by decide)⟩
  · rw [isSpace]
    simp only [Bool.or_eq_false_iff, Bool.and_eq_false_iff, decide_eq_false_iff_not]
    omega
  · rw [intSpace, if_pos (by omega), decide_eq_false_iff_not]
    simp only [List.mem_cons, List.not_mem_nil, or_false, not_or]
    exact ⟨hne _ (by decide), hne _ (by decide), hne _ (by decide), hne _ (by decide),
      hne _ (by decide), hne _ (by decide)⟩

/-- A text none of whose characters is dropped at its ends. -/
theorem trim_eq_self {p : Char → Bool} {s : Str} (hs : ∀ c ∈ s, p c = false) :
    (s.dropWhile p).rdropWhile p = s := by
  have hdrop : s.dropWhile p = s := by
    cases s with
    | nil => rfl
    | cons c s => rw [List.dropWhile_cons, hs c List.mem_cons_self, if_neg (by decide)]
  rw [hdrop, List.rdropWhile_eq_self_iff]
  intro hne hlast
  have := hs _ (List.getLast_mem hne)
  grind

/-- `int` undoes `str`. -/
theorem int_str {n : Int} (hn : 0 ≤ n) : int (str n) = some n := by
  obtain ⟨k, rfl⟩ := Int.eq_ofNat_of_zero_le hn
  have hstr : str (k : Int) = Nat.toDigits 10 k := rfl
  rw [hstr, int, trim_eq_self fun c hc => (solid_of_mem_toDigits hc).2.1]
  split
  next ds hds =>
    have hminus : '-' ∈ Nat.toDigits 10 k := by
      rw [hds]
      exact List.mem_cons_self
    exact absurd rfl (solid_of_mem_toDigits hminus).2.2.1
  next ds hds =>
    have hplus : '+' ∈ Nat.toDigits 10 k := by
      rw [hds]
      exact List.mem_cons_self
    exact absurd rfl (solid_of_mem_toDigits hplus).2.2.2.1
  next =>
    rw [digits_toDigits]
    rfl

/-- What `str` makes of a number that is not negative. -/
theorem solid_of_mem_str {n : Int} (hn : 0 ≤ n) {c : Char} (hc : c ∈ str n) :
    isSpace c = false ∧ c ≠ ';' := by
  obtain ⟨k, rfl⟩ := Int.eq_ofNat_of_zero_le hn
  have hsolid := solid_of_mem_toDigits (n := k) hc
  exact ⟨hsolid.1, hsolid.2.2.2.2⟩

theorem str_ne_nil {n : Int} (hn : 0 ≤ n) : str n ≠ [] := by
  obtain ⟨k, rfl⟩ := Int.eq_ofNat_of_zero_le hn
  exact Nat.toDigits_ne_nil

end LdbToolchain.Py
