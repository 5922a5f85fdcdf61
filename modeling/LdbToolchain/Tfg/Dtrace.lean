import LdbToolchain.Tfg.Collapser

/-!
# What `DtraceCollapser` makes of a text

The non-blank lines of a text fall into segments, each of them frame lines with a count line at the
end, and a rest without a count line. There is one way to cut them so, and the parser finds it: a
segment is a sample, unless it has no frame line, which is an error.
-/

namespace LdbToolchain.Tfg

/-- `[x.strip() for x in self._input_file]`. -/
def strippedLines (text : Str) : List Str := (Py.readLines text).map Py.strip

theorem map_fst_inputLines (text : Str) : (inputLines text).map (·.1) = strippedLines text := by
  rw [inputLines, List.zipIdx_map_fst, strippedLines]

/-- The stripped lines of a text that are not blank. -/
def textLines (text : Str) : List Str := (strippedLines text).filter (· ≠ [])

/-- Frame lines, which `int` does not take, and the count line after them, which it takes. -/
structure Segment where
  frames : List Str
  countLine : Str
  count : Int
  int_frames : ∀ line ∈ frames, Py.int line = none
  int_countLine : Py.int countLine = some count

namespace Segment

def lines (s : Segment) : List Str := s.frames ++ [s.countLine]

/-- The sample a segment stands for. -/
def sample (s : Segment) : List Str × Int := ((s.frames.map trimOffset).reverse, s.count)

@[ext] theorem ext {s t : Segment} (hframes : s.frames = t.frames)
    (hline : s.countLine = t.countLine) : s = t := by
  obtain ⟨frames, countLine, count, _, hcount⟩ := s
  obtain ⟨frames', countLine', count', _, hcount'⟩ := t
  cases hframes
  cases hline
  rw [hcount] at hcount'
  cases hcount'
  rfl

end Segment

/-- The lines are cut into the segments and a rest. -/
structure CutInto (lines : List Str) (segments : List Segment) (rest : List Str) : Prop where
  eq : lines = segments.flatMap Segment.lines ++ rest
  int_rest : ∀ line ∈ rest, Py.int line = none

/-! ## Cutting lines -/

/-- The first count line cuts a list of lines at one place. -/
theorem firstCount_unique {a a' b b' : List Str} {x x' : Str}
    (h : a ++ x :: b = a' ++ x' :: b') (ha : ∀ line ∈ a, Py.int line = none)
    (ha' : ∀ line ∈ a', Py.int line = none) (hx : Py.int x ≠ none) (hx' : Py.int x' ≠ none) :
    a = a' ∧ x = x' ∧ b = b' := by
  induction a generalizing a' with
  | nil =>
      cases a' with
      | nil =>
          cases h
          exact ⟨rfl, rfl, rfl⟩
      | cons y a' =>
          cases h
          exact absurd (ha' x List.mem_cons_self) hx
  | cons y a ih =>
      cases a' with
      | nil =>
          cases h
          exact absurd (ha x' List.mem_cons_self) hx'
      | cons y' a' =>
          rw [List.cons_append, List.cons_append, List.cons.injEq] at h
          obtain ⟨rfl, h⟩ := h
          obtain ⟨rfl, hrest⟩ := ih h (fun line hline => ha line (List.mem_cons_of_mem _ hline))
            (fun line hline => ha' line (List.mem_cons_of_mem _ hline))
          exact ⟨rfl, hrest⟩

/-- Lines without a count line are all rest. -/
theorem CutInto.nil_of_frames {lines rest : List Str} {segments : List Segment}
    (h : CutInto lines segments rest) (hframes : ∀ line ∈ lines, Py.int line = none) :
    segments = [] := by
  cases segments with
  | nil => rfl
  | cons s segments =>
      have hmem : s.countLine ∈ lines := by
        rw [h.eq]
        simp [Segment.lines]
      have hnone := hframes _ hmem
      rw [s.int_countLine] at hnone
      cases hnone

/-- The first segment of lines with a count line ends there. -/
theorem CutInto.cons_of_count {frames more rest : List Str} {line : Str} {count : Int}
    {segments : List Segment} (h : CutInto (frames ++ line :: more) segments rest)
    (hframes : ∀ l ∈ frames, Py.int l = none) (hcount : Py.int line = some count) :
    ∃ segments', segments = ⟨frames, line, count, hframes, hcount⟩ :: segments' ∧
      CutInto more segments' rest := by
  cases segments with
  | nil =>
      have hnone : Py.int line = none := by
        apply h.int_rest
        rw [show rest = frames ++ line :: more from h.eq.symm]
        simp
      rw [hcount] at hnone
      cases hnone
  | cons s segments =>
      have heq := h.eq
      rw [List.flatMap_cons, Segment.lines, List.append_assoc, List.append_assoc,
        List.singleton_append] at heq
      obtain ⟨hf, hl, hmore⟩ := firstCount_unique heq hframes s.int_frames (by simp [hcount])
        (by simp [s.int_countLine])
      refine ⟨segments, ?_, hmore, h.int_rest⟩
      rw [List.cons.injEq]
      exact ⟨Segment.ext hf.symm hl.symm, rfl⟩

theorem exists_cutInto (lines : List Str) : ∃ segments rest, CutInto lines segments rest := by
  induction lines with
  | nil => exact ⟨[], [], rfl, by simp⟩
  | cons line lines ih =>
      obtain ⟨segments, rest, h⟩ := ih
      cases hint : Py.int line with
      | some count =>
          refine ⟨⟨[], line, count, by simp, hint⟩ :: segments, rest, ?_, h.int_rest⟩
          rw [h.eq]
          rfl
      | none =>
          cases segments with
          | nil =>
              refine ⟨[], line :: rest, ?_, ?_⟩
              · rw [h.eq]
                rfl
              · exact List.forall_mem_cons.mpr ⟨hint, h.int_rest⟩
          | cons s segments =>
              have hframes : ∀ l ∈ line :: s.frames, Py.int l = none :=
                List.forall_mem_cons.mpr ⟨hint, s.int_frames⟩
              refine ⟨⟨line :: s.frames, s.countLine, s.count, hframes, s.int_countLine⟩ :: segments,
                rest, ?_, h.int_rest⟩
              rw [h.eq]
              rfl

theorem CutInto.unique {lines rest rest' : List Str} {segments segments' : List Segment}
    (h : CutInto lines segments rest) (h' : CutInto lines segments' rest') :
    segments' = segments ∧ rest' = rest := by
  induction segments generalizing lines segments' with
  | nil =>
      have hlines : lines = rest := h.eq
      have hnil := h'.nil_of_frames (by rw [hlines]; exact h.int_rest)
      subst hnil
      exact ⟨rfl, h'.eq.symm.trans hlines⟩
  | cons s segments ih =>
      have hlines : lines = s.frames ++ s.countLine :: (segments.flatMap Segment.lines ++ rest) := by
        rw [h.eq, List.flatMap_cons, Segment.lines]
        simp
      rw [hlines] at h'
      obtain ⟨tail', rfl, htail'⟩ := h'.cons_of_count s.int_frames s.int_countLine
      obtain ⟨rfl, rfl⟩ := ih ⟨rfl, h.int_rest⟩ htail'
      exact ⟨rfl, rfl⟩

/-! ## The loop -/

/-- The loop from the middle of a segment on, with the frame lines `seen` behind it. -/
theorem parseDtrace_of_cutInto {lines : List (Str × Nat)} {seen rest : List Str}
    {segments : List Segment} (hseen : ∀ line ∈ seen, Py.int line = none)
    (h : CutInto (seen ++ (lines.map (·.1)).filter (· ≠ [])) segments rest)
    (result : List (List Str × Int)) :
    ((∃ s ∈ segments, s.frames = []) →
      ∃ message, parseDtrace result (seen.map trimOffset) lines
        = .error (.stackCollapserException message)) ∧
    ((∀ s ∈ segments, s.frames ≠ []) →
      parseDtrace result (seen.map trimOffset) lines
        = .ok (result ++ segments.map Segment.sample)) := by
  induction lines generalizing seen segments result with
  | nil =>
      have hnil : segments = [] := h.nil_of_frames (by simpa using hseen)
      subst hnil
      simp [parseDtrace]
  | cons numbered lines ih =>
      obtain ⟨line, i⟩ := numbered
      by_cases hblank : line = []
      · rw [List.map_cons, List.filter_cons_of_neg (by simp [hblank])] at h
        rw [parseDtrace, if_pos hblank]
        exact ih hseen h result
      rw [List.map_cons, List.filter_cons_of_pos (by simpa using hblank)] at h
      rw [parseDtrace, if_neg hblank]
      cases hint : Py.int line with
      | none =>
          -- a frame line is one more of the segment
          have hmore : ∀ l ∈ seen ++ [line], Py.int l = none :=
            List.forall_mem_append.mpr ⟨hseen, List.forall_mem_singleton.mpr hint⟩
          rw [← List.singleton_append, ← List.append_assoc] at h
          have hrun := ih hmore h result
          rw [List.map_append, List.map_singleton] at hrun
          exact hrun
      | some count =>
          -- a count line ends it
          obtain ⟨segments, rfl, htail⟩ := h.cons_of_count hseen hint
          obtain ⟨herror, hok⟩ := ih (List.forall_mem_nil _) htail
            (result ++ [((seen.map trimOffset).reverse, count)])
          dsimp only
          split
          next hempty =>
            have hnone : seen = [] := List.map_eq_nil_iff.mp hempty
            refine ⟨fun _ => ⟨_, rfl⟩, fun hall => ?_⟩
            exact absurd hnone (hall _ List.mem_cons_self)
          next hsome =>
            have hne : seen ≠ [] := fun hnone => hsome (List.map_eq_nil_iff.mpr hnone)
            constructor
            · rintro ⟨s, hs, hempty⟩
              rcases List.mem_cons.mp hs with rfl | hs
              · exact absurd hempty hne
              · exact herror ⟨s, hs, hempty⟩
            · intro hall
              have hrun := hok (List.forall_mem_cons.mp hall).2
              rw [List.map_nil] at hrun
              rw [hrun, List.map_cons, List.append_assoc]
              rfl

/-- **`DtraceCollapser` cuts its input at the count lines**: it fails exactly when some segment has
no frame line, and else returns the samples of the segments. -/
theorem parseDtrace_segments (text : Str) :
    ∃ segments rest,
      (∀ segments' rest', CutInto (textLines text) segments' rest' ↔
        segments' = segments ∧ rest' = rest) ∧
      ((∃ message, FileType.dtrace.parse text = .error (.stackCollapserException message)) ↔
        ∃ s ∈ segments, s.frames = []) ∧
      ((∀ s ∈ segments, s.frames ≠ []) →
        FileType.dtrace.parse text = .ok (segments.map Segment.sample)) := by
  obtain ⟨segments, rest, hcut⟩ := exists_cutInto (textLines text)
  have hinput : CutInto ([] ++ ((inputLines text).map (·.1)).filter (· ≠ [])) segments rest := by
    rw [map_fst_inputLines]
    exact hcut
  obtain ⟨herror, hok⟩ := parseDtrace_of_cutInto (List.forall_mem_nil _) hinput []
  refine ⟨segments, rest, fun segments' rest' => ⟨hcut.unique, ?_⟩, ⟨?_, herror⟩, hok⟩
  · rintro ⟨rfl, rfl⟩
    exact hcut
  · rintro ⟨message, hmessage⟩
    by_contra hnone
    push Not at hnone
    have hfine : FileType.dtrace.parse text = .ok (segments.map Segment.sample) := hok hnone
    rw [hmessage] at hfine
    cases hfine

end LdbToolchain.Tfg
