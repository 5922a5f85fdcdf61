import LdbToolchain.Lib.PyStr
import LdbToolchain.Tfg.CallTree

/-!
# The stack collapsers

The four parsers of `src/tfg/stackcollapsers`, from the text of a file to a list of stacks with their
counts. `StackCollapser` and `PySpyCollapser` take a line at a time; `DtraceCollapser` and
`PerfCollapser` gather frames over several lines.

What they return is one stack after the other of names without line ends (`parse_stacks`).
-/

namespace LdbToolchain.Tfg

/-- What `parse` raises. -/
inductive PyError where
  | stackCollapserException (message : Str)
  | valueError
deriving DecidableEq, Repr

/-- `[x.strip() for x in self._input_file]`, with the line numbers. -/
def inputLines (text : Str) : List (Str × Nat) := ((Py.readLines text).map Py.strip).zipIdx 1

def isHex (c : Char) : Bool :=
  ('0' ≤ c && c ≤ '9') || ('a' ≤ c && c ≤ 'f') || ('A' ≤ c && c ≤ 'F')

/-- `trim_offset`. No name has a newline at its end, which `$` would match before. -/
def trimOffset (name : Str) : Str :=
  match name.reverse.dropWhile isHex with
  | 'x' :: '0' :: '+' :: rest => if name.reverse.takeWhile isHex = [] then name else rest.reverse
  | _ => name

/-! ## One line at a time -/

/-- A loop over the lines that skips the empty ones and takes a stack from each of the others. -/
def parseLines (parseLine : Nat → Str → Except PyError (List Str × Int)) :
    List (Str × Nat) → Except PyError (List (List Str × Int))
  | [] => .ok []
  | (line, i) :: lines =>
    if line = [] then parseLines parseLine lines
    else do
      let stack ← parseLine i line
      let result ← parseLines parseLine lines
      return stack :: result

/-- The body of the loop in `StackCollapser.parse`. -/
def parseCollapsed (i : Nat) (line : Str) : Except PyError (List Str × Int) :=
  match Py.words line with
  | [frames, value] =>
    match Py.int value with
    | some count => .ok ((frames.splitOn ';').map trimOffset, count)
    | none => .error .valueError
  | _ => .error (.stackCollapserException ("Unable to parse line ".toList ++ Py.str i))

/-- The body of the loop in `PySpyCollapser.parse`. -/
def parsePySpy (_i : Nat) (line : Str) : Except PyError (List Str × Int) :=
  let vals := line.splitOn ';'
  let parts := (vals.getLastD []).splitOn ' '
  let vals := vals.dropLast ++ [[' '].intercalate parts.dropLast]
  match Py.int (parts.getLastD []) with
  | some count => .ok (vals, count)
  | none => .error .valueError

/-! ## DTrace -/

/-- The loop in `DtraceCollapser.parse`. -/
def parseDtrace (result : List (List Str × Int)) (stack : List Str) :
    List (Str × Nat) → Except PyError (List (List Str × Int))
  | [] => .ok result
  | (line, i) :: lines =>
    if line = [] then parseDtrace result stack lines
    else
      match Py.int line with
      | some count =>
        if stack = [] then
          .error (.stackCollapserException ("Found a number at line ".toList ++ Py.str i
            ++ " but the stack is empty".toList))
        else parseDtrace (result ++ [(stack.reverse, count)]) [] lines
      | none => parseDtrace result (stack ++ [trimOffset line]) lines

/-! ## perf -/

/-- `extract_comm`. -/
def extractComm (fields : List Str) : Str :=
  ['_'].intercalate (fields.takeWhile fun x => !Py.isDigit x)

/-- `'[unknown]'`. -/
def unknown : Str := "[unknown]".toList

/-- `to_module_name`. -/
def toModuleName (field : Str) : Str :=
  if field ≠ unknown then '[' :: (field.splitOn '/').getLastD [] ++ [']'] else field

/-- `extract_stack_name`; `none` is an `IndexError`. -/
def extractStackName (fields : List Str) : Option Str :=
  match fields[1]? with
  | none => none
  | some name =>
    if name = unknown then fields[2]?.map fun field => toModuleName (field.drop 1).dropLast
    else some name

/-- The loop in `PerfCollapser.parse`. -/
def parsePerf (result : List (List Str × Int)) (stack : List Str) (comm : Str) :
    List (Str × Nat) → Except PyError (List (List Str × Int))
  | [] => .ok result
  | (line, i) :: lines =>
    if line = [] then
      if comm ≠ [] then parsePerf (result ++ [((stack ++ [comm]).reverse, 1)]) [] [] lines
      else parsePerf result stack comm lines
    else
      let fields := Py.words line
      let failed := PyError.stackCollapserException ("Failed to parse line ".toList ++ Py.str i)
      if fields.length > 3 then
        let comm := extractComm fields
        if comm = [] then .error failed else parsePerf result stack comm lines
      else
        match extractStackName fields with
        | some name => parsePerf result (stack ++ [trimOffset name]) comm lines
        | none => .error failed

/-! ## `COLLAPSERS` -/

/-- The input file types. -/
inductive FileType where
  | none
  | dtrace
  | perf
  | pyspy
deriving DecidableEq, Repr

/-- The `parse` of the collapser for a file type. -/
def FileType.parse : FileType → Str → Except PyError (List (List Str × Int))
  | none, text => parseLines parseCollapsed (inputLines text)
  | dtrace, text => parseDtrace [] [] (inputLines text)
  | perf, text => parsePerf [] [] [] (inputLines text)
  | pyspy, text => parseLines parsePySpy (inputLines text)

/-! ## Names -/

theorem prefix_trimOffset (name : Str) : trimOffset name <+: name := by
  rw [trimOffset]
  split
  next rest hrest =>
    split
    next => exact List.prefix_rfl
    next =>
      have hsuffix : rest <:+ name.reverse := by
        have hdrop := List.dropWhile_suffix isHex (l := name.reverse)
        rw [hrest] at hdrop
        exact ((List.suffix_cons _ rest).trans
          ((List.suffix_cons _ _).trans (List.suffix_cons _ _))).trans hdrop
      rw [← List.reverse_suffix, List.reverse_reverse]
      exact hsuffix
  next => exact List.prefix_rfl

/-- No line ends in it. -/
def OneLine (s : Str) : Prop := ∀ c ∈ s, c ≠ '\n' ∧ c ≠ '\r'

/-- What a stack in a profile is: it has frames, and no name goes over a line. -/
structure IsStack (frames : List Str) : Prop where
  ne_nil : frames ≠ []
  oneLine : ∀ name ∈ frames, OneLine name

theorem OneLine.mono {s t : Str} (hs : OneLine s) (hsub : ∀ c ∈ t, c ∈ s) : OneLine t :=
  fun c hc => hs c (hsub c hc)

theorem OneLine.trimOffset {s : Str} (hs : OneLine s) : OneLine (trimOffset s) :=
  hs.mono fun _ hc => (prefix_trimOffset s).subset hc

theorem oneLine_of_mem_inputLines {text line : Str} {i : Nat}
    (h : (line, i) ∈ inputLines text) : OneLine line := by
  have hmem := List.fst_mem_of_mem_zipIdx h
  obtain ⟨raw, hraw, rfl⟩ := List.mem_map.mp hmem
  exact Py.lineEnd_notMem_strip hraw

theorem OneLine.of_mem_words {s word : Str} (hs : OneLine s) (hword : word ∈ Py.words s) :
    OneLine word :=
  hs.mono fun _ hc => (Py.mem_of_mem_words hword hc).1

theorem OneLine.intercalate {sep : Char} {parts : List Str} (hparts : ∀ p ∈ parts, OneLine p)
    (hsep : sep ≠ '\n' ∧ sep ≠ '\r') : OneLine ([sep].intercalate parts) := by
  intro c hc
  rcases Split.mem_intercalate hc with rfl | ⟨part, hpart, hc⟩
  · exact hsep
  · exact hparts part hpart c hc

theorem OneLine.extractComm {fields : List Str} (hfields : ∀ f ∈ fields, OneLine f) :
    OneLine (extractComm fields) := by
  apply OneLine.intercalate
  · intro f hf
    exact hfields f ((List.takeWhile_prefix _).subset hf)
  · decide

theorem OneLine.toModuleName {field : Str} (hfield : OneLine field) :
    OneLine (toModuleName field) := by
  rw [Tfg.toModuleName]
  split
  next =>
    have hlast : OneLine ((field.splitOn '/').getLastD []) := by
      have hne := List.splitOn_ne_nil '/' field
      rw [List.getLastD_eq_getLast?, List.getLast?_eq_some_getLast hne, Option.getD_some]
      exact hfield.mono fun c hc => Split.mem_of_mem_splitOn (List.getLast_mem hne) hc
    intro c hc
    rcases List.mem_append.mp hc with hc | hc
    · rcases List.mem_cons.mp hc with rfl | hc
      · decide
      · exact hlast c hc
    · rw [List.mem_singleton.mp hc]
      decide
  next => exact hfield

theorem OneLine.extractStackName {fields : List Str} {name : Str}
    (hfields : ∀ f ∈ fields, OneLine f) (h : extractStackName fields = some name) :
    OneLine name := by
  rw [Tfg.extractStackName] at h
  split at h
  next => cases h
  next name' hname =>
    split at h
    next =>
      obtain ⟨field, hfield, rfl⟩ := Option.map_eq_some_iff.mp h
      apply OneLine.toModuleName
      apply (hfields field (List.mem_of_getElem? hfield)).mono
      intro c hc
      exact List.mem_of_mem_drop ((List.dropLast_sublist _).subset hc)
    next =>
      cases h
      exact hfields _ (List.mem_of_getElem? hname)

/-! ## Stacks -/

theorem parseLines_forall {parseLine : Nat → Str → Except PyError (List Str × Int)}
    {P : List Str × Int → Prop} {lines : List (Str × Nat)} {samples : List (List Str × Int)}
    (hline : ∀ l ∈ lines, ∀ s, parseLine l.2 l.1 = .ok s → P s)
    (h : parseLines parseLine lines = .ok samples) : ∀ s ∈ samples, P s := by
  induction lines generalizing samples with
  | nil =>
      cases h
      intro s hs
      cases hs
  | cons l lines ih =>
      obtain ⟨line, i⟩ := l
      have hrest : ∀ rest, parseLines parseLine lines = .ok rest → ∀ s ∈ rest, P s := by
        intro rest
        exact ih fun l hl => hline l (List.mem_cons_of_mem _ hl)
      rw [parseLines] at h
      split at h
      next => exact hrest samples h
      next =>
        cases hstack : parseLine i line with
        | error e =>
            rw [hstack] at h
            cases h
        | ok stack =>
            cases hlines : parseLines parseLine lines with
            | error e =>
                rw [hstack, hlines] at h
                cases h
            | ok rest =>
                rw [hstack, hlines] at h
                cases h
                intro s hs
                rcases List.mem_cons.mp hs with rfl | hs
                · exact hline (line, i) List.mem_cons_self _ hstack
                · exact hrest rest hlines s hs

theorem isStack_of_parseCollapsed {i : Nat} {line : Str} {s : List Str × Int} (hline : OneLine line)
    (h : parseCollapsed i line = .ok s) : IsStack s.1 := by
  rw [parseCollapsed] at h
  split at h
  next frames value hwords =>
    split at h
    next count hcount =>
      cases h
      constructor
      · simp
      · intro name hname
        obtain ⟨part, hpart, rfl⟩ := List.mem_map.mp hname
        have hframes : OneLine frames := hline.of_mem_words (by rw [hwords]; exact List.mem_cons_self)
        exact (hframes.mono fun c hc => Split.mem_of_mem_splitOn hpart hc).trimOffset
    next => cases h
  next => cases h

theorem isStack_of_parseDtrace {lines : List (Str × Nat)} {result samples : List (List Str × Int)}
    {stack : List Str} (hlines : ∀ l ∈ lines, OneLine l.1) (hresult : ∀ s ∈ result, IsStack s.1)
    (hstack : ∀ name ∈ stack, OneLine name) (h : parseDtrace result stack lines = .ok samples) :
    ∀ s ∈ samples, IsStack s.1 := by
  fun_induction parseDtrace result stack lines with
  | case1 result stack =>
      cases h
      exact hresult
  | case2 result stack i lines ih =>
      exact ih (fun l hl => hlines l (List.mem_cons_of_mem _ hl)) hresult hstack h
  | case3 => cases h
  | case4 result stack line i lines hline count hcount hne ih =>
      apply ih (fun l hl => hlines l (List.mem_cons_of_mem _ hl))
      · intro s hs
        rcases List.mem_append.mp hs with hs | hs
        · exact hresult s hs
        · rw [List.mem_singleton.mp hs]
          exact ⟨by simpa using hne, fun name hname => hstack name (List.mem_reverse.mp hname)⟩
      · intro name hname
        cases hname
      · exact h
  | case5 result stack line i lines hline hnone ih =>
      apply ih (fun l hl => hlines l (List.mem_cons_of_mem _ hl)) hresult
      · intro name hname
        rcases List.mem_append.mp hname with hname | hname
        · exact hstack name hname
        · rw [List.mem_singleton.mp hname]
          exact (hlines (line, i) List.mem_cons_self).trimOffset
      · exact h

theorem isStack_of_parsePerf {lines : List (Str × Nat)} {result samples : List (List Str × Int)}
    {stack : List Str} {comm : Str} (hlines : ∀ l ∈ lines, OneLine l.1)
    (hresult : ∀ s ∈ result, IsStack s.1) (hstack : ∀ name ∈ stack, OneLine name)
    (hcomm : OneLine comm) (h : parsePerf result stack comm lines = .ok samples) :
    ∀ s ∈ samples, IsStack s.1 := by
  fun_induction parsePerf result stack comm lines with
  | case1 result stack comm =>
      cases h
      exact hresult
  | case2 result stack comm i lines hne ih =>
      apply ih (fun l hl => hlines l (List.mem_cons_of_mem _ hl))
      · intro s hs
        rcases List.mem_append.mp hs with hs | hs
        · exact hresult s hs
        · rw [List.mem_singleton.mp hs]
          refine ⟨by simp, ?_⟩
          intro name hname
          rcases List.mem_append.mp (List.mem_reverse.mp hname) with hname | hname
          · exact hstack name hname
          · rw [List.mem_singleton.mp hname]
            exact hcomm
      · intro name hname
        cases hname
      · intro c hc
        cases hc
      · exact h
  | case3 result stack comm i lines hnil ih =>
      exact ih (fun l hl => hlines l (List.mem_cons_of_mem _ hl)) hresult hstack hcomm h
  | case4 => cases h
  | case5 result stack comm line i lines hline fields hlen comm' hne ih =>
      apply ih (fun l hl => hlines l (List.mem_cons_of_mem _ hl)) hresult hstack _ h
      apply OneLine.extractComm
      intro f hf
      exact (hlines (line, i) List.mem_cons_self).of_mem_words hf
  | case6 result stack comm line i lines hline fields hlen name hname ih =>
      apply ih (fun l hl => hlines l (List.mem_cons_of_mem _ hl)) hresult _ hcomm h
      intro name' hname'
      rcases List.mem_append.mp hname' with hmem | hmem
      · exact hstack name' hmem
      · rw [List.mem_singleton.mp hmem]
        apply OneLine.trimOffset
        apply OneLine.extractStackName _ hname
        intro f hf
        exact (hlines (line, i) List.mem_cons_self).of_mem_words hf
  | case7 => cases h

theorem parsePySpy_eq {i : Nat} {line last value : Str} {init parts : List Str}
    (hline : line.splitOn ';' = init ++ [last]) (hlast : last.splitOn ' ' = parts ++ [value]) :
    parsePySpy i line =
      match Py.int value with
      | some count => .ok (init ++ [[' '].intercalate parts], count)
      | none => .error .valueError := by
  rw [parsePySpy]
  simp only [hline, List.getLastD_concat, List.dropLast_concat, hlast]

/-- A stack of a line that `PySpyCollapser` takes: the names are what was between semicolons, and the
line does not start with a space. -/
structure IsPySpyStack (frames : List Str) : Prop extends IsStack frames where
  semicolon : ∀ name ∈ frames, ';' ∉ name
  first : ∀ c, ([';'].intercalate frames).head? = some c → Py.isSpace c = false

theorem isPySpyStack_of_parsePySpy {i : Nat} {line : Str} {s : List Str × Int}
    (hline : OneLine line) (hfirst : ∀ c, line.head? = some c → Py.isSpace c = false)
    (h : parsePySpy i line = .ok s) : IsPySpyStack s.1 := by
  obtain ⟨init, last, hsplit⟩ := (List.eq_nil_or_concat' _).resolve_left (List.splitOn_ne_nil ';' line)
  obtain ⟨parts, value, hlast⟩ := (List.eq_nil_or_concat' _).resolve_left (List.splitOn_ne_nil ' ' last)
  rw [parsePySpy_eq hsplit hlast] at h
  split at h
  next count hcount =>
    cases h
    -- what is left of the last piece without the count
    have hname : [' '].intercalate parts <+: last := by
      have hjoin : [' '].intercalate (parts ++ [value]) = last := by
        rw [← hlast, List.intercalate_splitOn]
      rw [← hjoin]
      exact Split.prefix_intercalate parts value
    have hjoined : [';'].intercalate (init ++ [[' '].intercalate parts]) <+: line := by
      have hjoin : [';'].intercalate (init ++ [last]) = line := by
        rw [← hsplit, List.intercalate_splitOn]
      obtain ⟨rest, hrest⟩ := hname
      rw [← hjoin, ← hrest, ← Split.intercalate_concat_append]
      exact List.prefix_append _ _
    constructor
    · constructor
      · simp
      · intro name hmem
        exact hline.mono fun c hc => hjoined.subset (Split.mem_intercalate_of_mem hmem hc)
    · have hpiece : ∀ part ∈ init ++ [last], ';' ∉ part := by
        intro part hpart
        rw [← hsplit] at hpart
        exact Split.notMem_of_mem_splitOn hpart
      intro name hmem hsemicolon
      rcases List.mem_append.mp hmem with hmem | hmem
      · exact hpiece name (List.mem_append_left _ hmem) hsemicolon
      · rw [List.mem_singleton.mp hmem] at hsemicolon
        exact hpiece last (by simp) (hname.subset hsemicolon)
    · intro c hc
      apply hfirst
      obtain ⟨rest, hrest⟩ := hjoined
      rw [← hrest, List.head?_append, hc]
      rfl
  next => cases h

theorem isPySpyStack_of_parse {text : Str} {samples : List (List Str × Int)}
    (h : FileType.pyspy.parse text = .ok samples) : ∀ s ∈ samples, IsPySpyStack s.1 := by
  refine parseLines_forall (P := fun s => IsPySpyStack s.1) ?_ h
  intro l hl s hs
  apply isPySpyStack_of_parsePySpy (oneLine_of_mem_inputLines (i := l.2) hl) _ hs
  intro c hc
  obtain ⟨raw, -, hraw⟩ := List.mem_map.mp (List.fst_mem_of_mem_zipIdx hl)
  rw [← hraw] at hc
  exact Py.head_strip hc

/-- **What a collapser returns are stacks.** -/
theorem parse_stacks {ft : FileType} {text : Str} {samples : List (List Str × Int)}
    (h : ft.parse text = .ok samples) : ∀ s ∈ samples, IsStack s.1 := by
  have hlines : ∀ l ∈ inputLines text, OneLine l.1 := by
    intro l hl
    exact oneLine_of_mem_inputLines (i := l.2) hl
  have hnone : ∀ s ∈ ([] : List (List Str × Int)), IsStack s.1 := by
    intro s hs
    cases hs
  have hnil : ∀ name ∈ ([] : List Str), OneLine name := by
    intro name hname
    cases hname
  cases ft with
  | none => exact parseLines_forall (fun l hl s hs => isStack_of_parseCollapsed (hlines l hl) hs) h
  | dtrace => exact isStack_of_parseDtrace hlines hnone hnil h
  | perf =>
      apply isStack_of_parsePerf hlines hnone hnil _ h
      intro c hc
      cases hc
  | pyspy => exact fun s hs => (isPySpyStack_of_parse h s hs).toIsStack

end LdbToolchain.Tfg
