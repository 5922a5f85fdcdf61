import LdbToolchain.Tfg.Perf

/-!
# Samples as `perf script` prints them

A header line, frame lines `address symbol (module)`, blank lines. Printed samples are read back
(`parse_perfSamples`) as long as no symbol or module has a space in it; with one, a frame line may
have more than three fields, and then it is taken for a header.
-/

namespace LdbToolchain.Tfg

/-! ## Offsets -/

/-- `+0x` and at least one hexadecimal digit. -/
def IsOffset (s : Str) : Prop :=
  ∃ ds, s = '+' :: '0' :: 'x' :: ds ∧ ds ≠ [] ∧ ∀ c ∈ ds, isHex c = true

theorem trimOffset_append {name offset : Str} (h : IsOffset offset) :
    trimOffset (name ++ offset) = name := by
  obtain ⟨ds, rfl, hne, hhex⟩ := h
  have hrev : (name ++ '+' :: '0' :: 'x' :: ds).reverse
      = ds.reverse ++ 'x' :: '0' :: '+' :: name.reverse := by simp
  have hdigits : ∀ c ∈ ds.reverse, isHex c = true := by
    intro c hc
    exact hhex c (List.mem_reverse.mp hc)
  have hx : ¬ isHex 'x' = true := by decide
  rw [trimOffset, hrev, List.dropWhile_append_of_pos hdigits, List.dropWhile_cons_of_neg hx,
    List.takeWhile_append_of_pos hdigits, List.takeWhile_cons_of_neg hx, List.append_nil]
  simp [hne]

/-- `trim_offset` takes one offset off the end of a name that has one, and leaves other names as
they are. -/
theorem trimOffset_cases (name : Str) :
    (∃ offset, IsOffset offset ∧ name = trimOffset name ++ offset) ∨
      trimOffset name = name ∧ ∀ s offset, IsOffset offset → name ≠ s ++ offset := by
  by_cases hsome : ∃ s offset, IsOffset offset ∧ name = s ++ offset
  · obtain ⟨s, offset, hoffset, rfl⟩ := hsome
    rw [trimOffset_append hoffset]
    exact .inl ⟨offset, hoffset, rfl⟩
  · push Not at hsome
    refine .inr ⟨?_, hsome⟩
    rw [trimOffset]
    split
    next rest hrest =>
      split
      next => rfl
      next hdigits =>
        have hname : name = rest.reverse ++ '+' :: '0' :: 'x' ::
            (name.reverse.takeWhile isHex).reverse := by
          have happ : name.reverse.takeWhile isHex ++ name.reverse.dropWhile isHex = name.reverse :=
            List.takeWhile_append_dropWhile
          rw [hrest] at happ
          have hback := congrArg List.reverse happ
          rw [List.reverse_reverse] at hback
          apply hback.symm.trans
          simp
        refine absurd hname (hsome _ _ ⟨_, rfl, ?_, ?_⟩)
        · simpa using hdigits
        · intro c hc
          exact List.mem_takeWhile_imp (List.mem_reverse.mp hc)
    next => rfl

/-- The name of a module has no offset. -/
theorem trimOffset_toModuleName (module : Str) :
    trimOffset (toModuleName module) = toModuleName module := by
  have hlast : ∃ s, toModuleName module = s ++ [']'] := by
    rw [toModuleName]
    split
    next => exact ⟨'[' :: (module.splitOn '/').getLastD [], rfl⟩
    next h =>
      have hunknown : module = unknown := by simpa using h
      exact ⟨"[unknown".toList, by rw [hunknown]; decide⟩
  rcases trimOffset_cases (toModuleName module) with ⟨offset, hoffset, hname⟩ | ⟨hname, -⟩
  · obtain ⟨ds, rfl, hne, hhex⟩ := hoffset
    obtain ⟨s, hs⟩ := hlast
    obtain ⟨init, d, rfl⟩ := (List.eq_nil_or_concat' ds).resolve_left hne
    have hconcat : s ++ [']'] = (trimOffset (s ++ [']']) ++ '+' :: '0' :: 'x' :: init) ++ [d] := by
      rw [hs] at hname
      apply hname.trans
      simp
    have hd : ']' = d := by
      have hends := congrArg List.getLast? hconcat
      rw [List.getLast?_concat, List.getLast?_concat] at hends
      cases hends
      rfl
    have hbad := hhex d (by simp)
    rw [← hd] at hbad
    exact absurd hbad (by decide)
  · exact hname

/-! ## Frame lines -/

/-- Spaces of a line. -/
def Spaces (s : Str) : Prop := ∀ c ∈ s, Py.isSpace c = true

/-- No space in it, and so no line end. -/
def Solid (s : Str) : Prop := ∀ c ∈ s, Py.isSpace c = false

theorem Solid.oneLine {s : Str} (hs : Solid s) : OneLine s := by
  intro c hc
  have hsolid := hs c hc
  constructor
  · rintro rfl
    exact absurd hsolid (by decide)
  · rintro rfl
    exact absurd hsolid (by decide)

theorem solid_unknown : Solid unknown := by
  have hunknown : unknown = ['[', 'u', 'n', 'k', 'n', 'o', 'w', 'n', ']'] := by decide
  rw [hunknown]
  simp [Solid, Py.isSpace]

/-- What is printed on a line for a frame: an indented `address symbol (module)`. -/
structure PerfFrame where
  (indent address symbol module : Str)
  indent_spaces : Spaces indent
  indent_oneLine : OneLine indent
  address_solid : Solid address
  address_ne : address ≠ []
  symbol_ne : symbol ≠ []
  symbol_oneLine : OneLine symbol
  module_oneLine : OneLine module

namespace PerfFrame

variable (f : PerfFrame)

def line : Str := f.indent ++ (f.address ++ ' ' :: (f.symbol ++ ' ' :: ('(' :: f.module ++ [')'])))

/-- The same frame with another symbol. -/
def withSymbol (symbol : Str) (hne : symbol ≠ []) (hline : OneLine symbol) : PerfFrame :=
  { f with symbol, symbol_ne := hne, symbol_oneLine := hline }

theorem oneLine_line : OneLine f.line := by
  intro c hc
  have hparts : c ∈ f.indent ∨ c ∈ f.address ∨ c ∈ f.symbol ∨ c ∈ f.module ∨ c ∈ [' ', '(', ')'] := by
    simp only [line, List.mem_append, List.mem_cons] at hc
    simp only [List.mem_cons]
    tauto
  rcases hparts with h | h | h | h | h
  · exact f.indent_oneLine c h
  · exact f.address_solid.oneLine c h
  · exact f.symbol_oneLine c h
  · exact f.module_oneLine c h
  · have hfixed : ∀ c ∈ [' ', '(', ')'], c ≠ '\n' ∧ c ≠ '\r' := by simp
    exact hfixed c h

theorem words_line :
    Py.words f.line = f.address :: (Py.words f.symbol ++ Py.words ('(' :: f.module ++ [')'])) := by
  have hindent : ∀ s t : Str, Spaces s → Py.words (s ++ t) = Py.words t := by
    intro s t hs
    induction s with
    | nil => rfl
    | cons c s ih =>
        rw [List.cons_append, show c :: (s ++ t) = [] ++ c :: (s ++ t) from rfl,
          Py.words_append_space (hs c List.mem_cons_self), Py.words_nil, List.nil_append]
        exact ih fun c hc => hs c (List.mem_cons_of_mem _ hc)
  have hspace : Py.isSpace ' ' = true := by decide
  rw [line, hindent _ _ f.indent_spaces, Py.words_append_space hspace,
    Py.words_append_space hspace, Py.words_of_solid f.address_solid f.address_ne,
    List.singleton_append]

end PerfFrame

/-! ## Stripped lines -/

@[simp] theorem isHeader_strip (line : Str) : isHeader (Py.strip line) = isHeader line := by
  rw [isHeader, Py.words_strip, isHeader]

@[simp] theorem takesLine_strip (line : Str) : takesLine (Py.strip line) = takesLine line := by
  rw [takesLine, isHeader_strip, Py.words_strip, takesLine]

@[simp] theorem lineFrames_strip (line : Str) : lineFrames (Py.strip line) = lineFrames line := by
  rw [lineFrames, isHeader_strip, Py.words_strip, lineFrames]

@[simp] theorem commAfter_strip (comm line : Str) :
    commAfter comm (Py.strip line) = commAfter comm line := by
  rw [commAfter, isHeader_strip, Py.words_strip, commAfter]

@[simp] theorem hasHeader_map_strip (block : List Str) :
    hasHeader (block.map Py.strip) = hasHeader block := by
  simp [hasHeader, List.any_map, Function.comp_def]

@[simp] theorem blockFrames_map_strip (block : List Str) :
    blockFrames (block.map Py.strip) = blockFrames block := by
  simp [blockFrames, List.flatMap_map]

@[simp] theorem blockComm_map_strip (comm : Str) (block : List Str) :
    blockComm comm (block.map Py.strip) = blockComm comm block := by
  simp [blockComm, List.foldl_map]

@[simp] theorem blockSample_map_strip (block : List Str) :
    blockSample (block.map Py.strip) = blockSample block := by
  rw [blockSample, blockFrames_map_strip, blockComm_map_strip, blockSample]

theorem strip_ne_nil {line : Str} (h : Py.words line ≠ []) : Py.strip line ≠ [] := by
  intro hnil
  apply h
  rw [← Py.words_strip, hnil, Py.words_nil]

theorem strip_of_spaces {line : Str} (h : Spaces line) : Py.strip line = [] := by
  have hdrop : line.dropWhile Py.isSpace = [] := List.dropWhile_eq_nil_iff.mpr h
  rw [Py.strip, hdrop]
  rfl

/-! ## Printed samples -/

/-- Lines printed one after the other. -/
def printed (lines : List Str) : Str := lines.flatMap (· ++ ['\n'])

theorem strippedLines_printed {lines : List Str} (h : ∀ line ∈ lines, OneLine line) :
    strippedLines (printed lines) = lines.map Py.strip := by
  have hread : Py.readLines (printed lines) = lines.map (· ++ ['\n']) := by
    apply Py.readLines_printed
    intro line hline
    exact ⟨fun hc => (h line hline _ hc).1 rfl, fun hc => (h line hline _ hc).2 rfl⟩
  rw [strippedLines, hread, List.map_map]
  apply List.map_congr_left
  intro line _
  exact Py.strip_concat_space (by decide) line

/-- The lines of a sample: a header, frames, and blank lines after them. -/
structure PrintedSample where
  (body blanks : List Str)
  body_oneLine : ∀ line ∈ body, OneLine line
  body_words : ∀ line ∈ body, Py.words line ≠ []
  body_takes : ∀ line ∈ body, takesLine line = true
  body_header : hasHeader body = true
  blanks_ne : blanks ≠ []
  blanks_oneLine : ∀ line ∈ blanks, OneLine line
  blanks_spaces : ∀ line ∈ blanks, Spaces line

namespace PrintedSample

def lines (s : PrintedSample) : List Str := s.body ++ s.blanks

theorem oneLine_lines (s : PrintedSample) : ∀ line ∈ s.lines, OneLine line := by
  intro line hline
  rcases List.mem_append.mp hline with hline | hline
  · exact s.body_oneLine line hline
  · exact s.blanks_oneLine line hline

theorem strip_blank (s : PrintedSample) : ∀ line ∈ s.blanks, Py.strip line = [] :=
  fun line hline => strip_of_spaces (s.blanks_spaces line hline)

theorem takes_lines (s : PrintedSample) :
    ∀ line ∈ s.lines, Py.strip line ≠ [] → takesLine line = true := by
  intro line hline hne
  rcases List.mem_append.mp hline with hline | hline
  · exact s.body_takes line hline
  · exact absurd (s.strip_blank line hline) hne

end PrintedSample

/-- Blank lines between blocks report nothing. -/
theorem report_blanks {blanks : List Str} (h : ∀ line ∈ blanks, line = []) (lines : List Str) :
    report [] ((blanks ++ lines).splitOn []).dropLast = report [] (lines.splitOn []).dropLast := by
  induction blanks with
  | nil => rfl
  | cons line blanks ih =>
      rw [h line List.mem_cons_self, List.cons_append, splitOn_blank,
        List.dropLast_cons_of_ne_nil (List.splitOn_ne_nil _ _), report]
      apply ih
      exact fun l hl => h l (List.mem_cons_of_mem _ hl)

theorem report_samples (samples : List PrintedSample) :
    report [] (((samples.flatMap PrintedSample.lines).map Py.strip).splitOn []).dropLast
      = samples.map fun s => blockSample s.body := by
  induction samples with
  | nil => rfl
  | cons s samples ih =>
      obtain ⟨blank, blanks, hblanks⟩ := List.exists_cons_of_ne_nil s.blanks_ne
      have hblank : Py.strip blank = [] := s.strip_blank blank (by simp [hblanks])
      have hmore : ∀ line ∈ blanks.map Py.strip, line = [] := by
        intro line hline
        obtain ⟨raw, hraw, rfl⟩ := List.mem_map.mp hline
        exact s.strip_blank raw (by simp [hblanks, hraw])
      have hbody : [] ∉ s.body.map Py.strip := by
        intro hmem
        obtain ⟨line, hline, hnil⟩ := List.mem_map.mp hmem
        exact strip_ne_nil (s.body_words line hline) hnil
      have hheader : hasHeader (s.body.map Py.strip) = true := by
        rw [hasHeader_map_strip]
        exact s.body_header
      rw [List.flatMap_cons, PrintedSample.lines, hblanks, List.map_append, List.map_append,
        List.map_cons, hblank, List.append_assoc, List.cons_append,
        List.splitOn_append_cons_self_of_not_mem hbody,
        List.dropLast_cons_of_ne_nil (List.splitOn_ne_nil _ _), report, if_pos hheader,
        report_blanks hmore, ih, List.map_cons]
      simp [blockSample]

/-- Printed samples are read back, whatever lines they have. -/
theorem parse_printedSamples (samples : List PrintedSample) :
    FileType.perf.parse (printed (samples.flatMap PrintedSample.lines))
      = .ok (samples.map fun s => blockSample s.body) := by
  have hlines : ∀ line ∈ samples.flatMap PrintedSample.lines, OneLine line := by
    intro line hline
    obtain ⟨s, -, hline⟩ := List.mem_flatMap.mp hline
    exact s.oneLine_lines line hline
  have hstripped := strippedLines_printed hlines
  have htakes : ∀ line ∈ strippedLines (printed (samples.flatMap PrintedSample.lines)),
      line ≠ [] → takesLine line = true := by
    intro line hline hne
    rw [hstripped] at hline
    obtain ⟨raw, hraw, rfl⟩ := List.mem_map.mp hline
    obtain ⟨s, -, hraw⟩ := List.mem_flatMap.mp hraw
    rw [takesLine_strip]
    exact s.takes_lines raw hraw hne
  rw [parse_perf_of_takes htakes, pieces, hstripped, report_samples]

/-! ## Decoding -/

/-- A frame line in which neither the symbol nor the module has a space. -/
structure PlainFrame extends PerfFrame where
  symbol_solid : Solid symbol
  module_solid : Solid module

/-- The name of a frame: the symbol without its offset, or what is known of an unknown one. -/
def PlainFrame.name (f : PlainFrame) : Str :=
  if f.symbol = unknown then
    if f.module = unknown then unknown else '[' :: (f.module.splitOn '/').getLastD [] ++ [']']
  else trimOffset f.symbol

theorem PlainFrame.words_line (f : PlainFrame) :
    Py.words f.line = [f.address, f.symbol, '(' :: f.module ++ [')']] := by
  have hmodule : Solid ('(' :: f.module ++ [')']) := by
    intro c hc
    simp only [List.cons_append, List.mem_cons, List.mem_append, List.not_mem_nil, or_false] at hc
    rcases hc with rfl | hc | rfl
    · decide
    · exact f.module_solid c hc
    · decide
  rw [PerfFrame.words_line, Py.words_of_solid f.symbol_solid f.symbol_ne,
    Py.words_of_solid hmodule (by simp)]
  rfl

theorem PlainFrame.lineFrames_line (f : PlainFrame) : lineFrames f.line = [f.name] := by
  have hheader : isHeader f.line = false := by simp [isHeader, f.words_line]
  have hmodule : (('(' :: f.module ++ [')']).drop 1).dropLast = f.module := by simp
  have hname : (extractStackName (Py.words f.line)).map trimOffset = some f.name := by
    rw [f.words_line, extractStackName]
    simp only [List.getElem?_cons_succ, List.getElem?_cons_zero, PlainFrame.name]
    split
    next hunknown =>
      rw [Option.map_some, Option.map_some, hmodule, trimOffset_toModuleName, toModuleName]
      by_cases hmod : f.module = unknown
      · simp [hmod]
      · simp [hmod]
    next => rfl
  rw [lineFrames, if_neg (by simp [hheader]), hname]
  rfl

theorem PlainFrame.takes_line (f : PlainFrame) : takesLine f.line = true := by
  have hheader : isHeader f.line = false := by simp [isHeader, f.words_line]
  have hframes := f.lineFrames_line
  rw [lineFrames, if_neg (by simp [hheader])] at hframes
  rw [takesLine, if_neg (by simp [hheader])]
  cases hname : extractStackName (Py.words f.line) with
  | none =>
      rw [hname] at hframes
      cases hframes
  | some name => rfl

/-- A header line: the tokens of the command, which are not numbers, the process id, which is one,
and further fields. -/
structure PerfHeader where
  line : Str
  command : List Str
  pid : Str
  fields : List Str
  line_oneLine : OneLine line
  words_line : Py.words line = command ++ pid :: fields
  command_ne : command ≠ []
  command_text : ∀ token ∈ command, Py.isDigit token = false
  pid_digits : Py.isDigit pid = true
  long : 3 < (command ++ pid :: fields).length

namespace PerfHeader

variable (h : PerfHeader)

theorem isHeader_line : isHeader h.line = true := by
  rw [isHeader, h.words_line]
  exact decide_eq_true h.long

theorem extractComm_line : extractComm (Py.words h.line) = ['_'].intercalate h.command := by
  have htext : ∀ token ∈ h.command, (!Py.isDigit token) = true := by
    intro token htoken
    rw [h.command_text token htoken]
    rfl
  have hpid : (h.pid :: h.fields).takeWhile (fun x => !Py.isDigit x) = [] := by
    simp [h.pid_digits]
  rw [extractComm, h.words_line, List.takeWhile_append_of_pos htext, hpid, List.append_nil]

theorem takes_line : takesLine h.line = true := by
  rw [takesLine, if_pos h.isHeader_line, h.extractComm_line]
  obtain ⟨token, rest, hcommand⟩ := List.exists_cons_of_ne_nil h.command_ne
  have hword : token ∈ Py.words h.line := by simp [h.words_line, hcommand]
  obtain ⟨c, hc⟩ := List.exists_mem_of_ne_nil token (Py.ne_nil_of_mem_words hword)
  have hmem : c ∈ ['_'].intercalate h.command :=
    Split.mem_intercalate_of_mem (by simp [hcommand]) hc
  simpa using List.ne_nil_of_mem hmem

end PerfHeader

/-- A sample: a header, frames without spaces in their names, at least one blank line. -/
structure PerfSample where
  header : PerfHeader
  frames : List PlainFrame
  blanks : List Str
  blanks_ne : blanks ≠ []
  blanks_oneLine : ∀ line ∈ blanks, OneLine line
  blanks_spaces : ∀ line ∈ blanks, Spaces line

namespace PerfSample

variable (s : PerfSample)

def body : List Str := s.header.line :: s.frames.map fun f => f.line

def lines : List Str := s.body ++ s.blanks

/-- What a sample stands for. -/
def entry : List Str × Int :=
  (['_'].intercalate s.header.command :: (s.frames.map PlainFrame.name).reverse, 1)

theorem forall_body {P : Str → Prop} (hheader : P s.header.line)
    (hframe : ∀ f : PlainFrame, P f.line) : ∀ line ∈ s.body, P line := by
  intro line hline
  rcases List.mem_cons.mp hline with rfl | hline
  · exact hheader
  · obtain ⟨f, -, rfl⟩ := List.mem_map.mp hline
    exact hframe f

def toPrintedSample : PrintedSample where
  body := s.body
  blanks := s.blanks
  body_oneLine := s.forall_body s.header.line_oneLine fun f => f.oneLine_line
  body_words := s.forall_body (by simp [s.header.words_line]) fun f => by simp [f.words_line]
  body_takes := s.forall_body s.header.takes_line fun f => f.takes_line
  body_header := by simp [body, hasHeader, s.header.isHeader_line]
  blanks_ne := s.blanks_ne
  blanks_oneLine := s.blanks_oneLine
  blanks_spaces := s.blanks_spaces

theorem blockSample_body : blockSample s.body = s.entry := by
  have hframes : blockFrames s.body = s.frames.map PlainFrame.name := by
    have hheader : lineFrames s.header.line = [] := by
      rw [lineFrames, if_pos s.header.isHeader_line]
    have hnames : ∀ fs : List PlainFrame,
        (fs.map fun f => f.line).flatMap lineFrames = fs.map PlainFrame.name := by
      intro fs
      induction fs with
      | nil => rfl
      | cons f fs ih => rw [List.map_cons, List.flatMap_cons, ih, f.lineFrames_line]; rfl
    rw [blockFrames, body, List.flatMap_cons, hheader, List.nil_append, hnames]
  have hcomm : blockComm [] s.body = ['_'].intercalate s.header.command := by
    have hnone : hasHeader (s.frames.map fun f => f.line) = false := by
      rw [hasHeader, List.any_map, List.any_eq_false]
      intro f _
      simp [isHeader, f.words_line]
    show blockComm (commAfter [] s.header.line) (s.frames.map fun f => f.line) = _
    rw [blockComm_of_noHeader hnone, commAfter, if_pos s.header.isHeader_line,
      s.header.extractComm_line]
  rw [blockSample, hframes, hcomm, List.reverse_append]
  rfl

end PerfSample

/-- **`PerfCollapser` decodes what `perf script` prints**: one entry for each sample, in order. -/
theorem parse_perfSamples (samples : List PerfSample) :
    FileType.perf.parse (printed (samples.flatMap PerfSample.lines))
      = .ok (samples.map PerfSample.entry) := by
  have hrun := parse_printedSamples (samples.map PerfSample.toPrintedSample)
  rw [List.flatMap_map, List.map_map] at hrun
  apply hrun.trans
  congr 1
  apply List.map_congr_left
  intro s _
  exact s.blockSample_body

/-- `ab 7 0 c`, an unknown symbol below `f`, and a blank line. -/
def sampleAb : PerfSample where
  header := {
    line := ['a', 'b', ' ', '7', ' ', '0', ' ', 'c']
    command := [['a', 'b']]
    pid := ['7']
    fields := [['0'], ['c']]
    line_oneLine := by simp [OneLine]
    words_line := by decide
    command_ne := by simp
    command_text := by decide
    pid_digits := by decide
    long := by decide }
  frames := [
    { indent := [' ']
      address := ['1']
      symbol := ['f', '+', '0', 'x', '1']
      module := ['m']
      indent_spaces := by simp [Spaces, Py.isSpace]
      indent_oneLine := by simp [OneLine]
      address_solid := by simp [Solid, Py.isSpace]
      address_ne := by simp
      symbol_ne := by simp
      symbol_oneLine := by simp [OneLine]
      module_oneLine := by simp [OneLine]
      symbol_solid := by simp [Solid, Py.isSpace]
      module_solid := by simp [Solid, Py.isSpace] },
    { indent := [' ']
      address := ['2']
      symbol := unknown
      module := ['/', 'l', '/', 'm']
      indent_spaces := by simp [Spaces, Py.isSpace]
      indent_oneLine := by simp [OneLine]
      address_solid := by simp [Solid, Py.isSpace]
      address_ne := by simp
      symbol_ne := by decide
      symbol_oneLine := solid_unknown.oneLine
      module_oneLine := by simp [OneLine]
      symbol_solid := solid_unknown
      module_solid := by simp [Solid, Py.isSpace] }]
  blanks := [[]]
  blanks_ne := by simp
  blanks_oneLine := by simp [OneLine]
  blanks_spaces := by simp [Spaces]

/-- `x y 8 c`, and two blank lines. -/
def sampleXy : PerfSample where
  header := {
    line := ['x', ' ', 'y', ' ', '8', ' ', 'c']
    command := [['x'], ['y']]
    pid := ['8']
    fields := [['c']]
    line_oneLine := by simp [OneLine]
    words_line := by decide
    command_ne := by simp
    command_text := by decide
    pid_digits := by decide
    long := by decide }
  frames := []
  blanks := [[], [' ']]
  blanks_ne := by simp
  blanks_oneLine := by simp [OneLine]
  blanks_spaces := by simp [Spaces, Py.isSpace]

theorem parse_perfSamples_two :
    FileType.perf.parse
        "ab 7 0 c\n 1 f+0x1 (m)\n 2 [unknown] (/l/m)\n\nx y 8 c\n\n \n".toList
      = .ok [(["ab".toList, "[m]".toList, "f".toList], 1), (["x_y".toList], 1)] := by
  have htext : printed ([sampleAb, sampleXy].flatMap PerfSample.lines)
      = "ab 7 0 c\n 1 f+0x1 (m)\n 2 [unknown] (/l/m)\n\nx y 8 c\n\n \n".toList := by rfl
  have hentries : [sampleAb, sampleXy].map PerfSample.entry
      = [(["ab".toList, "[m]".toList, "f".toList], 1), (["x_y".toList], 1)] := by rfl
  rw [← htext, ← hentries]
  exact parse_perfSamples [sampleAb, sampleXy]

/-! ## Replacing a symbol -/

theorem length_lineFrames {line : Str} (h : takesLine line = true) :
    (lineFrames line).length = if isHeader line then 0 else 1 := by
  rw [lineFrames]
  rw [takesLine] at h
  split
  next => rfl
  next hheader =>
    rw [if_neg hheader] at h
    obtain ⟨name, hname⟩ := Option.isSome_iff_exists.mp h
    rw [hname]
    rfl

theorem length_blockFrames {frames : List PerfFrame}
    (h : ∀ g ∈ frames, takesLine g.line = true) :
    (blockFrames (frames.map PerfFrame.line)).length
      = (frames.filter fun g => !isHeader g.line).length := by
  induction frames with
  | nil => rfl
  | cons g frames ih =>
      have hg := length_lineFrames (h g List.mem_cons_self)
      have hrest := ih fun g hg => h g (List.mem_cons_of_mem _ hg)
      rw [blockFrames] at hrest
      rw [List.map_cons, blockFrames, List.flatMap_cons, List.length_append, hg, hrest,
        List.filter_cons]
      cases isHeader g.line with
      | true => simp
      | false => simp [Nat.add_comm]

/-- A frame line with at most three fields is always taken. -/
theorem PerfFrame.takes_of_short {f : PerfFrame} (h : isHeader f.line = false) :
    takesLine f.line = true := by
  have hparen : Py.isSpace '(' = false := by decide
  obtain ⟨word, rest, hmodule⟩ := Py.words_cons_of_solid hparen (f.module ++ [')'])
  rw [takesLine, if_neg (by simp [h]), f.words_line, List.cons_append, hmodule, extractStackName]
  cases Py.words f.symbol with
  | nil =>
      have hbracket : '(' :: word ≠ unknown := by
        intro heq
        have hhead := congrArg List.head? heq
        rw [List.head?_cons, show unknown.head? = some '[' by decide] at hhead
        exact absurd (Option.some.inj hhead) (by decide)
      simp [hbracket]
  | cons symbol symbols =>
      simp only [List.cons_append, List.getElem?_cons_succ, List.getElem?_cons_zero]
      split
      next =>
        -- the module is behind the symbol
        cases symbols with
        | nil => rfl
        | cons next symbols => rfl
      next => rfl

/-- One with more is taken if its address is not a number. -/
theorem PerfFrame.takes_iff_of_long {f : PerfFrame} (h : isHeader f.line = true) :
    takesLine f.line = true ↔ Py.isDigit f.address = false := by
  rw [takesLine, if_pos h, f.words_line, extractComm]
  cases hdigits : Py.isDigit f.address with
  | true => simp [hdigits]
  | false =>
      rw [List.takeWhile_cons_of_pos (by simp [hdigits])]
      obtain ⟨c, hc⟩ := List.exists_mem_of_ne_nil f.address f.address_ne
      have hmem : ∀ rest : List Str, c ∈ ['_'].intercalate (f.address :: rest) := by
        intro rest
        exact Split.mem_intercalate_of_mem List.mem_cons_self hc
      simpa using List.ne_nil_of_mem (hmem _)

/-- What is printed around one frame of a sample. -/
structure Surroundings where
  header : Str
  (before after : List PerfFrame)
  blank : Str
  header_oneLine : OneLine header
  header_long : isHeader header = true
  blank_oneLine : OneLine blank
  blank_spaces : Spaces blank

namespace Surroundings

variable (s : Surroundings) (f : PerfFrame)

def body : List Str := s.header :: (s.before ++ f :: s.after).map PerfFrame.line

/-- The text of the sample with the frame `f`. -/
def text : Str := printed (s.body f ++ [s.blank])

theorem forall_body {P : Str → Prop} (hheader : P s.header) (hframe : ∀ g : PerfFrame, P g.line) :
    ∀ line ∈ s.body f, P line := by
  intro line hline
  rcases List.mem_cons.mp hline with rfl | hline
  · exact hheader
  · obtain ⟨g, -, rfl⟩ := List.mem_map.mp hline
    exact hframe g

theorem oneLine_body : ∀ line ∈ s.body f, OneLine line :=
  s.forall_body f s.header_oneLine fun g => g.oneLine_line

theorem words_body : ∀ line ∈ s.body f, Py.words line ≠ [] := by
  apply s.forall_body
  · intro hnil
    have hlong := s.header_long
    rw [isHeader, hnil] at hlong
    exact absurd hlong (by decide)
  · intro g
    simp [g.words_line]

theorem parse_text (h : ∀ line ∈ s.body f, takesLine line = true) :
    FileType.perf.parse (s.text f) = .ok [blockSample (s.body f)] := by
  have hrun := parse_printedSamples [{
    body := s.body f
    blanks := [s.blank]
    body_oneLine := s.oneLine_body f
    body_words := s.words_body f
    body_takes := h
    body_header := by simp [body, hasHeader, s.header_long]
    blanks_ne := by simp
    blanks_oneLine := by simpa using s.blank_oneLine
    blanks_spaces := by simpa using s.blank_spaces }]
  rw [List.flatMap_singleton] at hrun
  exact hrun

/-- All lines of an accepted sample are taken. -/
theorem takes_of_parse {samples : List (List Str × Int)}
    (h : FileType.perf.parse (s.text f) = .ok samples) :
    ∀ line ∈ s.body f, takesLine line = true := by
  intro line hline
  have hlines : ∀ l ∈ s.body f ++ [s.blank], OneLine l := by
    intro l hl
    rcases List.mem_append.mp hl with hl | hl
    · exact s.oneLine_body f l hl
    · rw [List.mem_singleton.mp hl]
      exact s.blank_oneLine
  rw [← takesLine_strip]
  apply takesLine_of_parse h
  · rw [text, strippedLines_printed hlines]
    exact List.mem_map_of_mem (List.mem_append_left _ hline)
  · exact strip_ne_nil (s.words_body f line hline)

/-- The command name once the lines up to the frame are read. -/
def commBefore : Str := blockComm [] (s.header :: s.before.map PerfFrame.line)

def framesBefore : List Str := blockFrames (s.before.map PerfFrame.line)

def framesAfter : List Str := blockFrames (s.after.map PerfFrame.line)

/-- The command name at the end. -/
def comm : Str := blockComm (commAfter s.commBefore f.line) (s.after.map PerfFrame.line)

/-- The stack of the sample: the command comes first and then the frames, from the last line to the
first. -/
def stack : List Str :=
  s.comm f :: (s.framesAfter.reverse ++ (lineFrames f.line).reverse ++ s.framesBefore.reverse)

theorem blockSample_body : blockSample (s.body f) = (s.stack f, 1) := by
  have hframes : blockFrames (s.body f) = s.framesBefore ++ lineFrames f.line ++ s.framesAfter := by
    have hheader : lineFrames s.header = [] := by rw [lineFrames, if_pos s.header_long]
    simp [blockFrames, body, framesBefore, framesAfter, hheader]
  have hcomm : blockComm [] (s.body f) = s.comm f := by
    simp [blockComm, body, comm, commBefore]
  rw [blockSample, hframes, hcomm, stack]
  simp

theorem mem_body {g : PerfFrame} (h : g ∈ s.before ∨ g = f ∨ g ∈ s.after) : g.line ∈ s.body f := by
  apply List.mem_cons_of_mem
  apply List.mem_map_of_mem
  simpa using h

theorem takes_replaced {f' : PerfFrame} (h : ∀ line ∈ s.body f, takesLine line = true)
    (hf' : takesLine f'.line = true) : ∀ line ∈ s.body f', takesLine line = true := by
  intro line hline
  rcases List.mem_cons.mp hline with rfl | hline
  · exact h _ List.mem_cons_self
  · obtain ⟨g, hg, rfl⟩ := List.mem_map.mp hline
    rcases List.mem_append.mp hg with hg | hg
    · exact h _ (s.mem_body f (.inl hg))
    rcases List.mem_cons.mp hg with rfl | hg
    · exact hf'
    · exact h _ (s.mem_body f (.inr (.inr hg)))

/-- When two frame lines lead to the same command name. -/
theorem comm_eq_iff {f f' : PerfFrame} :
    s.comm f' = s.comm f ↔
      (∃ g ∈ s.after, isHeader g.line = true) ∨
        commAfter s.commBefore f'.line = commAfter s.commBefore f.line := by
  have hsome : (∃ g ∈ s.after, isHeader g.line = true) ↔
      hasHeader (s.after.map PerfFrame.line) = true := by simp [hasHeader, List.any_map]
  rw [hsome, comm, comm]
  cases hafter : hasHeader (s.after.map PerfFrame.line) with
  | true => simpa using blockComm_of_hasHeader hafter _ _
  | false =>
      rw [blockComm_of_noHeader hafter, blockComm_of_noHeader hafter]
      simp

end Surroundings

/-- Two stacks that agree but for the name of the frame at `i`. -/
structure SameShape (i : Nat) (stack stack' : List Str) : Prop where
  command : stack'.head? = stack.head?
  frames : stack'.length = stack.length
  others : ∀ j, j ≠ i → stack'[j]? = stack[j]?

theorem SameShape.replace (comm x y : Str) (as bs : List Str) :
    SameShape (as.length + 1) (comm :: (as ++ [x] ++ bs)) (comm :: (as ++ [y] ++ bs)) where
  command := rfl
  frames := by simp
  others := by
    intro j hj
    have hset : comm :: (as ++ [y] ++ bs) = (comm :: (as ++ [x] ++ bs)).set (as.length + 1) y := by
      simp
    rw [hset, List.getElem?_set_ne (Ne.symm hj)]

theorem SameShape.refl (i : Nat) (stack : List Str) : SameShape i stack stack :=
  ⟨rfl, rfl, fun _ _ => rfl⟩

/-- The two lines are both frames, or both are headers and what the second says of the command makes
no difference to the sample. -/
def SameRole (after : List PerfFrame) (f f' : PerfFrame) : Prop :=
  isHeader f.line = false ∧ isHeader f'.line = false ∨
    isHeader f.line = true ∧ isHeader f'.line = true ∧
      ((∃ g ∈ after, isHeader g.line = true) ∨
        extractComm (Py.words f'.line) = extractComm (Py.words f.line))

theorem commAfter_of_long {line : Str} (h : isHeader line = true) (comm : Str) :
    commAfter comm line = extractComm (Py.words line) := by
  rw [commAfter, if_pos h]

theorem commAfter_of_short {line : Str} (h : isHeader line = false) (comm : Str) :
    commAfter comm line = comm := by
  rw [commAfter, if_neg (by simp [h])]

namespace Surroundings

variable {s : Surroundings} {f f' : PerfFrame}

theorem sameRole_of_sameShape {i : Nat} (hf : takesLine f.line = true)
    (hf' : takesLine f'.line = true) (h : SameShape i (s.stack f) (s.stack f')) :
    SameRole s.after f f' := by
  have hlength : (lineFrames f'.line).length = (lineFrames f.line).length := by
    simpa [stack] using h.frames
  rw [length_lineFrames hf, length_lineFrames hf'] at hlength
  have hcomm : s.comm f' = s.comm f := by simpa [stack] using h.command
  by_cases hlong : isHeader f.line = true
  · have hlong' : isHeader f'.line = true := by
      by_contra hshort
      simp [hlong, hshort] at hlength
    rw [s.comm_eq_iff, commAfter_of_long hlong, commAfter_of_long hlong'] at hcomm
    exact .inr ⟨hlong, hlong', hcomm⟩
  · have hshort' : ¬ isHeader f'.line = true := by
      intro hlong'
      simp [hlong, hlong'] at hlength
    exact .inl ⟨by simpa using hlong, by simpa using hshort'⟩

theorem sameShape_of_sameRole (hf : takesLine f.line = true) (hf' : takesLine f'.line = true)
    (h : SameRole s.after f f') :
    SameShape (s.framesAfter.length + 1) (s.stack f) (s.stack f') := by
  have hframes := length_lineFrames hf
  have hframes' := length_lineFrames hf'
  rcases h with ⟨hshort, hshort'⟩ | ⟨hlong, hlong', hsame⟩
  · have hcomm : s.comm f' = s.comm f := by
      rw [s.comm_eq_iff, commAfter_of_short hshort, commAfter_of_short hshort']
      exact .inr rfl
    rw [if_neg (by simp [hshort])] at hframes
    rw [if_neg (by simp [hshort'])] at hframes'
    obtain ⟨x, hx⟩ := List.length_eq_one_iff.mp hframes
    obtain ⟨y, hy⟩ := List.length_eq_one_iff.mp hframes'
    have hplace : s.framesAfter.length = s.framesAfter.reverse.length := List.length_reverse.symm
    rw [stack, stack, hcomm, hx, hy, hplace]
    exact SameShape.replace ..
  · have hcomm : s.comm f' = s.comm f := by
      rw [s.comm_eq_iff, commAfter_of_long hlong, commAfter_of_long hlong']
      exact hsame
    have hnone : lineFrames f.line = [] := by rw [lineFrames, if_pos hlong]
    have hnone' : lineFrames f'.line = [] := by rw [lineFrames, if_pos hlong']
    rw [stack, stack, hcomm, hnone, hnone']
    exact SameShape.refl _ _

end Surroundings

/-- **A symbol's text may change the shape of a sample.** It does not exactly when the line of the
frame plays the same role before and after. -/
theorem parsePerf_symbol_iff (s : Surroundings) (f : PerfFrame) (symbol : Str) (hne : symbol ≠ [])
    (hline : OneLine symbol) {samples : List (List Str × Int)}
    (h : FileType.perf.parse (s.text f) = .ok samples) :
    let f' := f.withSymbol symbol hne hline
    let place := (s.after.filter fun g => !isHeader g.line).length + 1
    ∃ stack, samples = [(stack, 1)] ∧
      ((∃ stack', FileType.perf.parse (s.text f') = .ok [(stack', 1)] ∧
        SameShape place stack stack') ↔ SameRole s.after f f') := by
  intro f' place
  have htakes := s.takes_of_parse f h
  have hf := htakes _ (s.mem_body f (.inr (.inl rfl)))
  have hplace : place = s.framesAfter.length + 1 := by
    have hafter := length_blockFrames fun g hg => htakes _ (s.mem_body f (.inr (.inr hg)))
    rw [Surroundings.framesAfter, hafter]
  rw [s.parse_text f htakes, s.blockSample_body] at h
  cases h
  refine ⟨s.stack f, rfl, ?_, fun hrole => ?_⟩
  · rintro ⟨stack', hrun, hshape⟩
    have htakes' := s.takes_of_parse f' hrun
    have hf' := htakes' _ (s.mem_body f' (.inr (.inl rfl)))
    rw [s.parse_text f' htakes', s.blockSample_body] at hrun
    cases hrun
    exact Surroundings.sameRole_of_sameShape hf hf' hshape
  · have hf' : takesLine f'.line = true := by
      rcases hrole with ⟨-, hshort'⟩ | ⟨hlong, hlong', -⟩
      · exact PerfFrame.takes_of_short hshort'
      · -- the address is the same
        apply (PerfFrame.takes_iff_of_long hlong').mpr
        exact (PerfFrame.takes_iff_of_long hlong).mp hf
    have htakes' := s.takes_replaced f htakes hf'
    refine ⟨s.stack f', ?_, ?_⟩
    · rw [s.parse_text f' htakes', s.blockSample_body]
    · rw [hplace]
      exact Surroundings.sameShape_of_sameRole hf hf' hrole

/-- `p 1 0 c`, a frame, and a blank line. -/
def oneFrame : Surroundings where
  header := ['p', ' ', '1', ' ', '0', ' ', 'c']
  before := []
  after := []
  blank := []
  header_oneLine := by simp [OneLine]
  header_long := by decide
  blank_oneLine := by simp [OneLine]
  blank_spaces := by simp [Spaces]

/-- `1 f (m)`. -/
def frameF : PerfFrame where
  indent := []
  address := ['1']
  symbol := ['f']
  module := ['m']
  indent_spaces := by simp [Spaces]
  indent_oneLine := by simp [OneLine]
  address_solid := by
    intro c hc
    rw [List.mem_singleton.mp hc]
    decide
  address_ne := by simp
  symbol_ne := by simp
  symbol_oneLine := by simp [OneLine]
  module_oneLine := by simp [OneLine]

theorem parse_oneFrame : FileType.perf.parse (oneFrame.text frameF) = .ok [([['p'], ['f']], 1)] := by
  rw [oneFrame.parse_text frameF (by decide)]
  decide

theorem parsePerf_symbol_letter :
    ∃ stack', FileType.perf.parse (oneFrame.text (frameF.withSymbol ['g'] (by simp)
      (by simp [OneLine]))) = .ok [(stack', 1)] ∧ SameShape 1 [['p'], ['f']] stack' := by
  obtain ⟨stack, hstack, hiff⟩ :=
    parsePerf_symbol_iff oneFrame frameF ['g'] (by simp) (by simp [OneLine]) parse_oneFrame
  cases hstack
  exact hiff.mpr (.inl ⟨by decide, by decide⟩)

/-- `f(int, char)`. -/
def signature : Str := ['f', '(', 'i', 'n', 't', ',', ' ', 'c', 'h', 'a', 'r', ')']

/-- With a demangled C++ name in the place of `f` the sample is no longer accepted. -/
theorem parsePerf_rejects_signature :
    FileType.perf.parse (oneFrame.text frameF) = .ok [([['p'], ['f']], 1)] ∧
      ¬ ∃ samples, FileType.perf.parse (oneFrame.text (frameF.withSymbol signature
        (by simp [signature]) (by simp [OneLine, signature]))) = .ok samples := by
  refine ⟨parse_oneFrame, ?_⟩
  rintro ⟨samples, hrun⟩
  have htakes := oneFrame.takes_of_parse _ hrun
  exact absurd htakes (by decide)

end LdbToolchain.Tfg
