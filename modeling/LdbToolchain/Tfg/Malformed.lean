import LdbToolchain.Tfg.Collapser

/-!
# Malformed profiles

What cannot be parsed is to be reported by a `StackCollapserException`. Two of the collapsers convert
the count of a line outside of any `try`, so that the `ValueError` of `int` gets out; `reported_iff`
says for which files.
-/

namespace LdbToolchain.Tfg

/-- The stacks of the file, none of them empty, or the error made for it. -/
def Reported (fileType : FileType) (text : Str) : Prop :=
  (∃ samples, fileType.parse text = .ok samples ∧ ∀ s ∈ samples, s.1 ≠ []) ∨
    ∃ message, fileType.parse text = .error (.stackCollapserException message)

theorem reported_iff_ne (fileType : FileType) (text : Str) :
    Reported fileType text ↔ fileType.parse text ≠ .error .valueError := by
  constructor
  · rintro (⟨samples, hok, -⟩ | ⟨message, herror⟩) hvalue
    · rw [hok] at hvalue
      cases hvalue
    · rw [herror] at hvalue
      cases hvalue
  · intro hvalue
    cases hparse : fileType.parse text with
    | ok samples => exact .inl ⟨samples, hparse, fun s hs => (parse_stacks hparse s hs).ne_nil⟩
    | error e =>
        cases e with
        | stackCollapserException message => exact .inr ⟨message, hparse⟩
        | valueError => exact absurd hparse hvalue

/-! ## Over several lines -/

theorem parseDtrace_ne (result : List (List Str × Int)) (stack : List Str)
    (lines : List (Str × Nat)) : parseDtrace result stack lines ≠ .error .valueError := by
  fun_induction parseDtrace result stack lines with
  | case1 =>
      intro h
      cases h
  | case2 result stack i lines ih => exact ih
  | case3 =>
      intro h
      cases h
  | case4 result stack line i lines hline count hcount hne ih => exact ih
  | case5 result stack line i lines hline hnone ih => exact ih

theorem parsePerf_ne (result : List (List Str × Int)) (stack : List Str) (comm : Str)
    (lines : List (Str × Nat)) : parsePerf result stack comm lines ≠ .error .valueError := by
  fun_induction parsePerf result stack comm lines with
  | case1 =>
      intro h
      cases h
  | case2 result stack comm i lines hne ih => exact ih
  | case3 result stack comm i lines hnil ih => exact ih
  | case4 => simp +zetaDelta
  | case5 result stack comm line i lines hline fields hlen comm' hne ih => exact ih
  | case6 result stack comm line i lines hline fields hlen name hname ih => exact ih
  | case7 => simp +zetaDelta

/-! ## One line at a time -/

/-- The first bad element of a list is its head, or that of the tail when the head is quiet. -/
theorem exists_first_cons_iff {α : Type} {Bad Quiet : α → Prop} {a : α} {l : List α} :
    (∃ before x after, a :: l = before ++ x :: after ∧ Bad x ∧ ∀ m ∈ before, Quiet m) ↔
      Bad a ∨ Quiet a ∧
        ∃ before x after, l = before ++ x :: after ∧ Bad x ∧ ∀ m ∈ before, Quiet m := by
  constructor
  · intro ⟨before, x, after, hsplit, hbad, hquiet⟩
    cases before with
    | nil =>
        cases hsplit
        exact .inl hbad
    | cons m before =>
        cases hsplit
        have htail : ∀ m ∈ before, Quiet m := fun m hm => hquiet m (List.mem_cons_of_mem _ hm)
        exact .inr ⟨hquiet a List.mem_cons_self, before, x, after, rfl, hbad, htail⟩
  · rintro (hbad | ⟨ha, before, x, after, rfl, hbad, hquiet⟩)
    · exact ⟨[], a, l, rfl, hbad, by simp⟩
    · exact ⟨a :: before, x, after, rfl, hbad, by simpa using ⟨ha, hquiet⟩⟩

theorem bind_eq_error_iff {ε α β : Type} {x : Except ε α} {f : α → Except ε β} {e : ε} :
    x >>= f = .error e ↔ x = .error e ∨ ∃ a, x = .ok a ∧ f a = .error e := by
  cases x <;> simp [bind, Except.bind]

section

variable {parseLine : Nat → Str → Except PyError (List Str × Int)}

theorem parseLines_cons_valueError_iff (line : Str) (i : Nat) (lines : List (Str × Nat)) :
    parseLines parseLine ((line, i) :: lines) = .error .valueError ↔
      (line ≠ [] ∧ parseLine i line = .error .valueError) ∨
        (line ≠ [] → ∀ message, parseLine i line ≠ .error (.stackCollapserException message)) ∧
          parseLines parseLine lines = .error .valueError := by
  rw [parseLines]
  by_cases hblank : line = []
  · simp [hblank]
  · rw [if_neg hblank]
    simp only [bind_eq_error_iff]
    cases parseLine i line with
    | ok s => simp [pure, Except.pure]
    | error e => cases e <;> simp [hblank]

/-- **The `ValueError` that gets out** is that of a line, and no line before it is reported. -/
theorem parseLines_valueError_iff (lines : List (Str × Nat)) :
    parseLines parseLine lines = .error .valueError ↔
      ∃ before l after, lines = before ++ l :: after ∧
        (l.1 ≠ [] ∧ parseLine l.2 l.1 = .error .valueError) ∧
        ∀ m ∈ before, m.1 ≠ [] →
          ∀ message, parseLine m.2 m.1 ≠ .error (.stackCollapserException message) := by
  induction lines with
  | nil =>
      constructor
      · intro h
        cases h
      · intro ⟨before, l, after, h, _⟩
        cases before <;> cases h
  | cons l lines ih =>
      rw [parseLines_cons_valueError_iff, exists_first_cons_iff, ih]

end

/-- A line of two fields of which the second is not a number. -/
def BadCount (line : Str) : Prop :=
  ∃ frames value, Py.words line = [frames, value] ∧ Py.int value = none

theorem parseCollapsed_valueError_iff (i : Nat) (line : Str) :
    parseCollapsed i line = .error .valueError ↔ BadCount line := by
  rw [parseCollapsed, BadCount]
  split
  next frames value hwords =>
    rw [hwords]
    cases hcount : Py.int value with
    | some count =>
        constructor
        · intro h
          cases h
        · rintro ⟨frames', value', hsame, hnone⟩
          cases hsame
          rw [hcount] at hnone
          cases hnone
    | none => exact iff_of_true rfl ⟨frames, value, rfl, hcount⟩
  next hwords =>
    constructor
    · intro h
      cases h
    · rintro ⟨frames, value, hwords', -⟩
      exact absurd hwords' (hwords frames value)

theorem parseCollapsed_reported_iff (i : Nat) (line : Str) :
    (∃ message, parseCollapsed i line = .error (.stackCollapserException message)) ↔
      (Py.words line).length ≠ 2 := by
  rw [parseCollapsed]
  split
  next frames value hwords =>
    rw [hwords]
    constructor
    · rintro ⟨message, h⟩
      cases hcount : Py.int value with
      | some count =>
          rw [hcount] at h
          cases h
      | none =>
          rw [hcount] at h
          cases h
    · intro hlength
      exact absurd rfl hlength
  next hwords =>
    refine iff_of_true ⟨_, rfl⟩ ?_
    intro hlength
    obtain ⟨frames, value, htwo⟩ := List.length_eq_two.mp hlength
    exact hwords frames value htwo

/-- What `PySpyCollapser` takes for the count of a line. -/
def pySpyCount (line : Str) : Str := (((line.splitOn ';').getLastD []).splitOn ' ').getLastD []

theorem parsePySpy_cases (i : Nat) (line : Str) :
    (Py.int (pySpyCount line) = none ∧ parsePySpy i line = .error .valueError) ∨
      ∃ s, Py.int (pySpyCount line) = some s.2 ∧ parsePySpy i line = .ok s := by
  rw [parsePySpy, ← pySpyCount]
  cases hcount : Py.int (pySpyCount line) with
  | none => exact .inl ⟨rfl, rfl⟩
  | some count => exact .inr ⟨_, rfl, rfl⟩

/-! ## The files -/

/-- The files whose faults are reported. For collapsed stacks every line of two fields of which the
second is not a number comes after a line that has not got two fields; for py-spy the count of every
line is a number. -/
def ReportsFaults : FileType → Str → Prop
  | .none, text => ∀ before l after, inputLines text = before ++ l :: after → BadCount l.1 →
      ∃ m ∈ before, m.1 ≠ [] ∧ (Py.words m.1).length ≠ 2
  | .pyspy, text => ∀ l ∈ inputLines text, l.1 ≠ [] → (Py.int (pySpyCount l.1)).isSome = true
  | .dtrace, _ => True
  | .perf, _ => True

theorem BadCount.ne_nil {line : Str} (h : BadCount line) : line ≠ [] := by
  rintro rfl
  obtain ⟨frames, value, hwords, -⟩ := h
  cases hwords

/-- **When a malformed profile is reported.** -/
theorem reported_iff (fileType : FileType) (text : Str) :
    Reported fileType text ↔ ReportsFaults fileType text := by
  rw [reported_iff_ne]
  cases fileType with
  | dtrace => exact iff_of_true (parseDtrace_ne _ _ _) trivial
  | perf => exact iff_of_true (parsePerf_ne _ _ _ _) trivial
  | none =>
      rw [FileType.parse, Ne, parseLines_valueError_iff, ReportsFaults]
      constructor
      · intro hnone before l after hsplit hbad
        by_contra hreported
        apply hnone
        refine ⟨before, l, after, hsplit,
          ⟨hbad.ne_nil, (parseCollapsed_valueError_iff _ _).mpr hbad⟩, ?_⟩
        intro m hm hne message herror
        exact hreported ⟨m, hm, hne, (parseCollapsed_reported_iff m.2 m.1).mp ⟨message, herror⟩⟩
      · intro hall ⟨before, l, after, hsplit, ⟨_, herror⟩, hbefore⟩
        obtain ⟨m, hm, hne, hlength⟩ :=
          hall before l after hsplit ((parseCollapsed_valueError_iff _ _).mp herror)
        obtain ⟨message, hmessage⟩ := (parseCollapsed_reported_iff m.2 m.1).mpr hlength
        exact hbefore m hm hne message hmessage
  | pyspy =>
      rw [FileType.parse, Ne, parseLines_valueError_iff, ReportsFaults]
      constructor
      · intro hnone l hl hne
        rcases parsePySpy_cases l.2 l.1 with ⟨-, herror⟩ | ⟨s, hcount, -⟩
        · exfalso
          apply hnone
          obtain ⟨before, after, hsplit⟩ := List.append_of_mem hl
          refine ⟨before, l, after, hsplit, ⟨hne, herror⟩, ?_⟩
          intro m hm hne message hmessage
          rcases parsePySpy_cases m.2 m.1 with ⟨-, herror⟩ | ⟨s, -, hok⟩
          · rw [herror] at hmessage
            cases hmessage
          · rw [hok] at hmessage
            cases hmessage
        · rw [hcount]
          rfl
      · intro hall ⟨before, l, after, hsplit, ⟨hne, herror⟩, _⟩
        have hcount := hall l (by rw [hsplit]; simp) hne
        rcases parsePySpy_cases l.2 l.1 with ⟨hnone, -⟩ | ⟨s, -, hok⟩
        · rw [hnone] at hcount
          cases hcount
        · rw [hok] at herror
          cases herror

/-- A word where the count should be. -/
theorem unreported :
    FileType.none.parse "a b".toList = .error .valueError ∧
      ¬ Reported .none "a b".toList := by
  have hparse : FileType.none.parse "a b".toList = .error .valueError := by decide +kernel
  exact ⟨hparse, fun h => (reported_iff_ne _ _).mp h hparse⟩

end LdbToolchain.Tfg
