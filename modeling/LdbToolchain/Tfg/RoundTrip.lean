import LdbToolchain.Tfg.Collapser
import LdbToolchain.Tfg.Dump

/-!
# Loading a dump

A collapser that reads the lines of a dump back as its records rebuilds the tree
(`readsBack_of_records`). `PySpyCollapser` does so for every profile it has loaded itself
(`pyspy_readsBack`).

`StackCollapser` does not: it takes the words of a line, cuts at semicolons and trims offsets, so a
name with a space in it, or with one offset after another, comes back as something else or not at
all. What it makes of a stack, if it takes the line, is `reread`. That never joins names and never
makes one longer; so a profile that comes back the same has only stacks that `reread` leaves alone
(`plain_of_sameProfile`), and on those it works (`none_readsBack_iff`).
-/

namespace LdbToolchain.Tfg

open CallFrameTree

/-- The dump of the call tree of `samples` is accepted, and rebuilds that tree. -/
def ReadsBack (ft : FileType) (samples : List (List Str × Int)) : Prop :=
  ∃ samples', ft.parse (CallFrameTree.ofSamples samples).dump = .ok samples' ∧
    (CallFrameTree.ofSamples samples').shape = (CallFrameTree.ofSamples samples).shape

/-! ## The lines of a dump -/

section Lines

variable {samples : List (List Str × Int)} {r : List Str × Int}

theorem record_of_mem_records (hne : ∀ s ∈ samples, s.1 ≠ []) (hpos : ∀ s ∈ samples, 0 < s.2)
    (hr : r ∈ (CallFrameTree.ofSamples samples).records) : (∃ s ∈ samples, s.1 = r.1) ∧ 0 < r.2 := by
  obtain ⟨path, hp⟩ := ofSamples_profile samples
  constructor
  · have hkey := (records_same hp hne hpos).keys r.1
    exact List.mem_map.mp (hkey.mpr (List.mem_map_of_mem hr))
  · obtain ⟨root, hroot, -⟩ := hp.wired.root
    have hr' : r ∈ (CallFrameTree.ofSamples samples).recordsFrom 0 (path 0) := by
      rw [hp.wired.path_root]
      exact hr
    obtain ⟨b, m, -, rfl, hbase⟩ := exists_of_mem_recordsFrom hp.wired hroot hr'
    exact hbase

/-- Every stack that was added has its record. -/
theorem exists_record (hne : ∀ s ∈ samples, s.1 ≠ []) (hpos : ∀ s ∈ samples, 0 < s.2)
    {s : List Str × Int} (hs : s ∈ samples) :
    ∃ r ∈ (CallFrameTree.ofSamples samples).records, r.1 = s.1 := by
  obtain ⟨path, hp⟩ := ofSamples_profile samples
  have hkey := (records_same hp hne hpos).keys s.1
  exact List.mem_map.mp (hkey.mp (List.mem_map_of_mem hs))

/-- The records of a profile that was loaded. -/
theorem record_of_parse {ft : FileType} {text : Str} (h : ft.parse text = .ok samples)
    (hpos : ∀ s ∈ samples, 0 < s.2) (hr : r ∈ (CallFrameTree.ofSamples samples).records) :
    (∃ s ∈ samples, s.1 = r.1) ∧ IsStack r.1 ∧ 0 < r.2 := by
  have hstack := parse_stacks h
  obtain ⟨⟨s, hs, heq⟩, hcount⟩ := record_of_mem_records (fun s hs => (hstack s hs).ne_nil) hpos hr
  exact ⟨⟨s, hs, heq⟩, heq ▸ hstack s hs, hcount⟩

theorem record_oneLine {ft : FileType} {text : Str} (h : ft.parse text = .ok samples)
    (hpos : ∀ s ∈ samples, 0 < s.2) (hr : r ∈ (CallFrameTree.ofSamples samples).records) :
    (∀ name ∈ r.1, OneLine name) ∧ 0 ≤ r.2 := by
  obtain ⟨-, hframes, hcount⟩ := record_of_parse h hpos hr
  exact ⟨hframes.oneLine, hcount.le⟩

theorem lineOf_concat (init : List Str) (last : Str) (count : Int) :
    lineOf (init ++ [last], count) = [';'].intercalate (init ++ [last ++ ' ' :: Py.str count]) := by
  rw [lineOf, List.append_assoc, Split.intercalate_concat_append]
  rfl

theorem oneLine_lineOf (hnames : ∀ name ∈ r.1, OneLine name) (hcount : 0 ≤ r.2) :
    OneLine (lineOf r) := by
  intro c hc
  rw [lineOf] at hc
  rcases List.mem_append.mp hc with hc | hc
  · rcases List.mem_append.mp hc with hc | hc
    · exact OneLine.intercalate hnames (by decide) c hc
    · rw [List.mem_singleton.mp hc]
      decide
  · have hspace := (Py.solid_of_mem_str hcount hc).1
    constructor
    · rintro rfl
      exact absurd hspace (by decide)
    · rintro rfl
      exact absurd hspace (by decide)

theorem words_lineOf (hcount : 0 ≤ r.2) :
    Py.words (Py.strip (lineOf r)) = Py.words ([';'].intercalate r.1) ++ [Py.str r.2] := by
  rw [Py.words_strip, lineOf, List.append_assoc, List.singleton_append,
    Py.words_append_space (by decide), Py.words_of_solid _ (Py.str_ne_nil hcount)]
  intro c hc
  exact (Py.solid_of_mem_str hcount hc).1

theorem strip_lineOf_ne_nil (hcount : 0 ≤ r.2) : Py.strip (lineOf r) ≠ [] := by
  intro hnil
  have hwords := words_lineOf hcount
  rw [hnil, Py.words_nil] at hwords
  simp at hwords

/-- What a collapser gets to see of a dump. -/
theorem inputLines_dump {t : CallFrameTree}
    (hrecords : ∀ r ∈ t.records, (∀ name ∈ r.1, OneLine name) ∧ 0 ≤ r.2) :
    inputLines t.dump = (t.records.map fun r => Py.strip (lineOf r)).zipIdx 1 := by
  have hlines : ∀ line ∈ t.records.map lineOf, '\n' ∉ line ∧ '\r' ∉ line := by
    intro line hline
    obtain ⟨r, hr, rfl⟩ := List.mem_map.mp hline
    have hone := oneLine_lineOf (hrecords r hr).1 (hrecords r hr).2
    exact ⟨fun hc => (hone _ hc).1 rfl, fun hc => (hone _ hc).2 rfl⟩
  rw [inputLines, dump_eq, Py.readLines_printed hlines, List.map_map, List.map_map]
  congr 1
  apply List.map_congr_left
  intro r _
  exact Py.strip_concat_space (by decide) (lineOf r)

end Lines

/-! ## Loading it -/

section Loading

variable {parseLine : Nat → Str → Except PyError (List Str × Int)} {samples : List (List Str × Int)}

theorem parseLines_map {α : Type} {line : α → Str} {stack : α → List Str × Int} {l : List α}
    (hline : ∀ a ∈ l, line a ≠ [] ∧ ∀ i, parseLine i (line a) = .ok (stack a)) (k : Nat) :
    parseLines parseLine ((l.map line).zipIdx k) = .ok (l.map stack) := by
  induction l generalizing k with
  | nil => rfl
  | cons a l ih =>
      obtain ⟨hne, hparse⟩ := hline a List.mem_cons_self
      rw [List.map_cons, List.zipIdx_cons, parseLines, if_neg hne, hparse,
        ih (fun b hb => hline b (List.mem_cons_of_mem a hb))]
      rfl

theorem of_parseLines_map {α : Type} {line : α → Str} {stack : α → List Str × Int} {P : α → Prop}
    {l : List α} {k : Nat}
    (hline : ∀ a ∈ l, line a ≠ [] ∧ ∀ i s, parseLine i (line a) = .ok s → P a ∧ s = stack a)
    (h : parseLines parseLine ((l.map line).zipIdx k) = .ok samples) :
    (∀ a ∈ l, P a) ∧ samples = l.map stack := by
  induction l generalizing k samples with
  | nil =>
      cases h
      simp
  | cons a l ih =>
      obtain ⟨hne, hparse⟩ := hline a List.mem_cons_self
      rw [List.map_cons, List.zipIdx_cons, parseLines, if_neg hne] at h
      cases hstack : parseLine k (line a) with
      | error e =>
          rw [hstack] at h
          cases h
      | ok s =>
          cases hrest : parseLines parseLine ((l.map line).zipIdx (k + 1)) with
          | error e =>
              rw [hstack, hrest] at h
              cases h
          | ok rest =>
              rw [hstack, hrest] at h
              cases h
              obtain ⟨hP, rfl⟩ := hparse k s hstack
              obtain ⟨hall, rfl⟩ := ih (fun b hb => hline b (List.mem_cons_of_mem a hb)) hrest
              exact ⟨List.forall_mem_cons.mpr ⟨hP, hall⟩, rfl⟩

/-- **Lines that are read back as the records rebuild the tree.** -/
theorem readsBack_of_records {ft : FileType} (hne : ∀ s ∈ samples, s.1 ≠ [])
    (hpos : ∀ s ∈ samples, 0 < s.2)
    (h : ft.parse (CallFrameTree.ofSamples samples).dump
      = .ok (CallFrameTree.ofSamples samples).records) : ReadsBack ft samples :=
  ⟨(CallFrameTree.ofSamples samples).records, h, shape_ofSamples_records hne hpos⟩

end Loading

/-! ## Profiles of py-spy -/

/-- The line of a record whose first name is not blank does not change when it is stripped. -/
theorem strip_lineOf {frames : List Str} {count : Int} (hcount : 0 ≤ count)
    (hjoined : [';'].intercalate frames ≠ [])
    (hfirst : ∀ c, ([';'].intercalate frames).head? = some c → Py.isSpace c = false) :
    Py.strip (lineOf (frames, count)) = lineOf (frames, count) := by
  apply Py.strip_eq_self
  · intro c hc
    apply hfirst
    rw [lineOf, List.append_assoc, List.head?_append_of_ne_nil _ hjoined] at hc
    exact hc
  · intro c hc
    rw [lineOf, List.getLast?_append_of_ne_nil _ (Py.str_ne_nil hcount)] at hc
    exact (Py.solid_of_mem_str hcount (List.mem_of_getLast? hc)).1

theorem parsePySpy_lineOf {i : Nat} {frames : List Str} {count : Int} (hframes : IsPySpyStack frames)
    (hcount : 0 ≤ count) :
    parsePySpy i (Py.strip (lineOf (frames, count))) = .ok (frames, count) := by
  have hsolid : ';' ∉ Py.str count ∧ ' ' ∉ Py.str count := by
    constructor
    · intro hc
      exact (Py.solid_of_mem_str hcount hc).2 rfl
    · intro hc
      exact absurd (Py.solid_of_mem_str hcount hc).1 (by decide)
  obtain ⟨init, last, rfl⟩ := (List.eq_nil_or_concat' frames).resolve_left hframes.ne_nil
  by_cases hjoined : [';'].intercalate (init ++ [last]) = []
  · -- one empty name: the space before the count is stripped
    have hinit : init = [] := by
      by_contra hinit
      rw [Split.intercalate_concat hinit] at hjoined
      simp at hjoined
    rw [hinit, List.nil_append, List.intercalate_singleton] at hjoined
    subst hinit hjoined
    have hstrip : Py.strip (lineOf ([[]], count)) = Py.str count := by
      rw [lineOf, List.intercalate_singleton, List.nil_append, List.singleton_append, Py.strip,
        List.dropWhile_cons, if_pos (by decide)]
      exact Py.trim_eq_self fun c hc => (Py.solid_of_mem_str hcount hc).1
    have hline : (Py.str count).splitOn ';' = [] ++ [Py.str count] :=
      List.splitOn_eq_singleton hsolid.1
    have hlast : (Py.str count).splitOn ' ' = [] ++ [Py.str count] :=
      List.splitOn_eq_singleton hsolid.2
    rw [List.nil_append, hstrip, parsePySpy_eq hline hlast, Py.int_str hcount]
    rfl
  · have hlast : (last ++ ' ' :: Py.str count).splitOn ' ' = last.splitOn ' ' ++ [Py.str count] := by
      rw [List.splitOn_append_cons_self, List.splitOn_eq_singleton hsolid.2]
    have hline : (lineOf (init ++ [last], count)).splitOn ';'
        = init ++ [last ++ ' ' :: Py.str count] := by
      rw [lineOf_concat, List.splitOn_intercalate]
      · intro name hname
        rcases List.mem_append.mp hname with hname | hname
        · exact hframes.semicolon name (List.mem_append_left _ hname)
        · have hlast := hframes.semicolon last (by simp)
          rw [List.mem_singleton.mp hname]
          grind
      · simp
    rw [strip_lineOf hcount hjoined hframes.first, parsePySpy_eq hline hlast, Py.int_str hcount,
      List.intercalate_splitOn]

/-- **A profile of py-spy that was dumped is loaded back.** -/
theorem pyspy_readsBack {text : Str} {samples : List (List Str × Int)}
    (h : FileType.pyspy.parse text = .ok samples) (hpos : ∀ s ∈ samples, 0 < s.2) :
    ReadsBack .pyspy samples := by
  have hstack := isPySpyStack_of_parse h
  have hne : ∀ s ∈ samples, s.1 ≠ [] := fun s hs => (hstack s hs).ne_nil
  have hrecord : ∀ r ∈ (CallFrameTree.ofSamples samples).records,
      IsPySpyStack r.1 ∧ 0 ≤ r.2 := by
    intro r hr
    obtain ⟨⟨s, hs, heq⟩, hcount⟩ := record_of_mem_records hne hpos hr
    rw [← heq]
    exact ⟨hstack s hs, hcount.le⟩
  have hparse : ∀ r ∈ (CallFrameTree.ofSamples samples).records, Py.strip (lineOf r) ≠ [] ∧
      ∀ i, parsePySpy i (Py.strip (lineOf r)) = .ok (id r) := by
    intro r hr
    obtain ⟨hframes, hcount⟩ := hrecord r hr
    exact ⟨strip_lineOf_ne_nil hcount, fun i => parsePySpy_lineOf hframes hcount⟩
  apply readsBack_of_records hne hpos
  rw [FileType.parse, inputLines_dump fun r hr => record_oneLine h hpos hr,
    parseLines_map hparse, List.map_id]

theorem pyspy_readsBack_threeLines :
    ReadsBack .pyspy [(["a b".toList, "c".toList], 2), ([[]], 7), ([[], "x  y".toList], 3)] := by
  have hparse : FileType.pyspy.parse "a b;c 2\n7\n;x  y 3\n".toList
      = .ok [(["a b".toList, "c".toList], 2), ([[]], 7), ([[], "x  y".toList], 3)] := rfl
  exact pyspy_readsBack hparse (by decide)

/-! ## Collapsed stacks -/

/-- A stack that `StackCollapser` reads as it is printed. -/
structure Plain (frames : List Str) : Prop where
  not_blank : frames ≠ [[]]
  solid : ∀ name ∈ frames, ∀ c ∈ name, Py.isSpace c = false
  semicolon : ∀ name ∈ frames, ';' ∉ name
  trimmed : ∀ name ∈ frames, trimOffset name = name

/-- What `StackCollapser` makes of the names, if it takes the line. -/
def reread (frames : List Str) : List Str :=
  ((([';'].intercalate frames).filter fun c => !Py.isSpace c).splitOn ';').map trimOffset

/-- What it makes of one name without a semicolon. -/
def rereadName (name : Str) : Str := trimOffset (name.filter fun c => !Py.isSpace c)

section Collapsed

variable {frames : List Str} {count : Int}

/-- A line is taken if its names make up one word. -/
theorem parseCollapsed_lineOf {i : Nat} {s : List Str × Int} (hcount : 0 ≤ count) :
    parseCollapsed i (Py.strip (lineOf (frames, count))) = .ok s ↔
      (Py.words ([';'].intercalate frames)).length = 1 ∧ s = (reread frames, count) := by
  have hwords : Py.words (Py.strip (lineOf (frames, count)))
      = Py.words ([';'].intercalate frames) ++ [Py.str count] := words_lineOf hcount
  have hflatten := Py.flatten_words ([';'].intercalate frames)
  rw [parseCollapsed, hwords]
  cases hjoined : Py.words ([';'].intercalate frames) with
  | nil => simp
  | cons word rest =>
      cases rest with
      | nil =>
          rw [hjoined, List.flatten_singleton] at hflatten
          simp only [List.singleton_append, Py.int_str hcount, hflatten, reread]
          simp [eq_comm]
      | cons word' rest =>
          cases rest with
          | nil => simp
          | cons word'' rest => simp

/-- The names fall apart at their semicolons. -/
theorem reread_eq (hne : frames ≠ []) :
    reread frames = (frames.flatMap (List.splitOn ';')).map rereadName := by
  rw [reread, Split.splitOn_filter (by decide), Split.splitOn_intercalate_flatMap hne, List.map_map]
  rfl

theorem length_reread (hne : frames ≠ []) :
    (reread frames).length = (frames.map fun name => (name.splitOn ';').length).sum := by
  rw [reread_eq hne, List.length_map, List.length_flatMap]

theorem one_le_length_splitOn (name : Str) : 1 ≤ (name.splitOn ';').length :=
  List.length_pos_iff.mpr (List.splitOn_ne_nil ';' name)

theorem length_le_length_reread (hne : frames ≠ []) : frames.length ≤ (reread frames).length := by
  rw [length_reread hne]
  calc frames.length = (frames.map fun _ => 1).sum := by simp
    _ ≤ (frames.map fun name => (name.splitOn ';').length).sum := by
        apply List.sum_le_sum
        intro name _
        exact one_le_length_splitOn name

/-- As many names as there were: there are no semicolons in them. -/
theorem notMem_of_length_reread (hne : frames ≠ []) (h : frames.length = (reread frames).length) :
    ∀ name ∈ frames, ';' ∉ name := by
  by_contra hmem
  rw [length_reread hne] at h
  apply h.not_lt
  calc frames.length = (frames.map fun _ => 1).sum := by simp
    _ < (frames.map fun name => (name.splitOn ';').length).sum := by
        apply List.sum_lt_sum
        · intro name _
          exact one_le_length_splitOn name
        · push Not at hmem
          obtain ⟨name, hname, hmem⟩ := hmem
          refine ⟨name, hname, lt_of_le_of_ne (one_le_length_splitOn name) ?_⟩
          intro hone
          exact Split.notMem_of_length_splitOn hone.symm hmem

theorem reread_of_notMem (hne : frames ≠ []) (h : ∀ name ∈ frames, ';' ∉ name) :
    reread frames = frames.map rereadName := by
  rw [reread, Split.splitOn_filter (by decide), List.splitOn_intercalate ';' h hne, List.map_map]
  rfl

theorem length_rereadName_le (name : Str) : (rereadName name).length ≤ name.length :=
  (prefix_trimOffset _).length_le.trans (List.length_filter_le _ _)

theorem sum_length_rereadName_le (frames : List Str) :
    ((frames.map rereadName).map List.length).sum ≤ (frames.map List.length).sum := by
  rw [List.map_map]
  apply List.sum_le_sum
  intro name _
  exact length_rereadName_le name

theorem length_rereadName_of_sum
    (h : ((frames.map rereadName).map List.length).sum = (frames.map List.length).sum) :
    ∀ name ∈ frames, (rereadName name).length = name.length := by
  by_contra hshorter
  push Not at hshorter
  obtain ⟨name, hname, hne⟩ := hshorter
  apply h.not_lt
  rw [List.map_map]
  apply List.sum_lt_sum
  · intro name _
    exact length_rereadName_le name
  · exact ⟨name, hname, lt_of_le_of_ne (length_rereadName_le name) hne⟩

/-- A name as long as it was is the same, without spaces. -/
theorem solid_of_length_rereadName {name : Str} (h : (rereadName name).length = name.length) :
    (∀ c ∈ name, Py.isSpace c = false) ∧ trimOffset name = name := by
  have htrim := (prefix_trimOffset (name.filter fun c => !Py.isSpace c)).length_le
  have hfilter := List.length_filter_le (fun c => !Py.isSpace c) name
  rw [rereadName] at h
  have hsolid : ∀ c ∈ name, (!Py.isSpace c) = true :=
    List.length_filter_eq_length_iff.mp (by omega)
  rw [List.filter_eq_self.mpr hsolid] at h
  constructor
  · simpa using hsolid
  · exact (prefix_trimOffset name).eq_of_length h

/-- A plain stack is read as it is printed. -/
theorem Plain.parseCollapsed {i : Nat} (hp : Plain frames) (hne : frames ≠ [])
    (hcount : 0 ≤ count) :
    parseCollapsed i (Py.strip (lineOf (frames, count))) = .ok (frames, count) := by
  rw [parseCollapsed_lineOf hcount]
  have hsolid : ∀ c ∈ [';'].intercalate frames, Py.isSpace c = false := by
    intro c hc
    rcases Split.mem_intercalate hc with rfl | ⟨name, hname, hc⟩
    · decide
    · exact hp.solid name hname c hc
  constructor
  · have hjoined : [';'].intercalate frames ≠ [] := by
      intro hnil
      have hsplit := List.splitOn_intercalate ';' hp.semicolon hne
      rw [hnil] at hsplit
      exact hp.not_blank hsplit.symm
    rw [Py.words_of_solid hsolid hjoined]
    rfl
  · have hnames : frames.map rereadName = frames.map id := by
      apply List.map_congr_left
      intro name hname
      rw [rereadName, List.filter_eq_self.mpr, hp.trimmed name hname, id]
      intro c hc
      rw [hp.solid name hname c hc]
      rfl
    rw [reread_of_notMem hne hp.semicolon, hnames, List.map_id]

end Collapsed

/-! ## Any profile -/

section Any

variable {samples : List (List Str × Int)}

/-- What `StackCollapser` makes of a dump that it accepts. -/
theorem samples_of_parse_dump {ft : FileType} {text : Str} {samples' : List (List Str × Int)}
    (h : ft.parse text = .ok samples) (hpos : ∀ s ∈ samples, 0 < s.2)
    (hdump : FileType.none.parse (CallFrameTree.ofSamples samples).dump = .ok samples') :
    (∀ r ∈ (CallFrameTree.ofSamples samples).records,
      (Py.words ([';'].intercalate r.1)).length = 1) ∧
      samples' = (CallFrameTree.ofSamples samples).records.map fun r => (reread r.1, r.2) := by
  rw [FileType.parse, inputLines_dump fun r hr => record_oneLine h hpos hr] at hdump
  apply of_parseLines_map _ hdump
  intro r hr
  have hcount := (record_oneLine h hpos hr).2
  refine ⟨strip_lineOf_ne_nil hcount, ?_⟩
  intro i s hs
  exact (parseCollapsed_lineOf hcount).mp hs

section Kept

variable (hne : ∀ s ∈ samples, s.1 ≠ []) (hpos : ∀ s ∈ samples, 0 < s.2)
  (hsame : SameProfile (samples.map fun s => (reread s.1, s.2)) samples)

include hsame

theorem tally_reread (P : List Str → Prop) [DecidablePred P] :
    tally (fun frames => P (reread frames)) samples = tally P samples := by
  rw [← tally_map reread]
  exact tally_eq_of_same hsame.keys hsame.totals

include hne hpos

/-- No stack gets more names. -/
theorem notMem_of_sameProfile : ∀ s ∈ samples, ∀ name ∈ s.1, ';' ∉ name := by
  intro s hs
  apply notMem_of_length_reread (hne s hs)
  apply measure_eq_of_tally_eq (v := fun frames => (reread frames).length) hpos _ _ s hs
  · intro s hs
    exact length_le_length_reread (hne s hs)
  · intro i
    exact (tally_reread hsame fun frames => i < frames.length).symm

/-- And none gets shorter names. -/
theorem length_rereadName_of_sameProfile :
    ∀ s ∈ samples, ∀ name ∈ s.1, (rereadName name).length = name.length := by
  have hreread : ∀ s ∈ samples, reread s.1 = s.1.map rereadName := fun s hs =>
    reread_of_notMem (hne s hs) (notMem_of_sameProfile hne hpos hsame s hs)
  let size : List Str → Nat := fun frames => (frames.map List.length).sum
  have hsize : ∀ s ∈ samples, size (reread s.1) = size s.1 := by
    apply measure_eq_of_tally_eq (u := fun frames => size (reread frames)) hpos
    · intro s hs
      rw [hreread s hs]
      exact sum_length_rereadName_le s.1
    · intro i
      exact tally_reread hsame fun frames => i < size frames
  intro s hs
  apply length_rereadName_of_sum
  rw [← hreread s hs]
  exact hsize s hs

/-- **Samples that keep their profile when they are reread are plain.** -/
theorem plain_of_sameProfile
    (hword : ∀ s ∈ samples, (Py.words ([';'].intercalate s.1)).length = 1) :
    ∀ s ∈ samples, Plain s.1 := by
  have hlength := length_rereadName_of_sameProfile hne hpos hsame
  intro s hs
  constructor
  · intro hblank
    have hone := hword s hs
    rw [hblank] at hone
    simp at hone
  · intro name hname
    exact (solid_of_length_rereadName (hlength s hs name hname)).1
  · exact notMem_of_sameProfile hne hpos hsame s hs
  · intro name hname
    exact (solid_of_length_rereadName (hlength s hs name hname)).2

end Kept

/-- **When `StackCollapser` loads the dump of a profile back**: exactly if all its stacks are plain. -/
theorem none_readsBack_iff {ft : FileType} {text : Str} (h : ft.parse text = .ok samples)
    (hpos : ∀ s ∈ samples, 0 < s.2) : ReadsBack .none samples ↔ ∀ s ∈ samples, Plain s.1 := by
  have hne : ∀ s ∈ samples, s.1 ≠ [] := fun s hs => (parse_stacks h s hs).ne_nil
  have hrecord : ∀ r ∈ (CallFrameTree.ofSamples samples).records,
      (∃ s ∈ samples, s.1 = r.1) ∧ IsStack r.1 ∧ 0 < r.2 := fun r hr => record_of_parse h hpos hr
  constructor
  · rintro ⟨samples', hparse, hshape⟩
    obtain ⟨hword, hreread⟩ := samples_of_parse_dump h hpos hparse
    have hne' : ∀ s ∈ samples', s.1 ≠ [] := fun s hs => (parse_stacks hparse s hs).ne_nil
    have hpos' : ∀ s ∈ samples', 0 < s.2 := by
      intro s hs
      rw [hreread] at hs
      obtain ⟨r, hr, rfl⟩ := List.mem_map.mp hs
      exact (hrecord r hr).2.2
    -- the tree of the samples that were read back has the same records
    have hrecords : (CallFrameTree.ofSamples samples').records
        = (CallFrameTree.ofSamples samples).records := recordsFrom_congr hshape []
    obtain ⟨path', hp'⟩ := ofSamples_profile samples'
    have hsame := records_same hp' hne' hpos'
    rw [hrecords, hreread] at hsame
    have hplain := plain_of_sameProfile (fun r hr => (hrecord r hr).2.1.ne_nil)
      (fun r hr => (hrecord r hr).2.2) hsame hword
    intro s hs
    obtain ⟨r, hr, heq⟩ := exists_record hne hpos hs
    rw [← heq]
    exact hplain r hr
  · intro hplain
    have hparse : ∀ r ∈ (CallFrameTree.ofSamples samples).records, Py.strip (lineOf r) ≠ [] ∧
        ∀ i, parseCollapsed i (Py.strip (lineOf r)) = .ok (id r) := by
      intro r hr
      obtain ⟨⟨s, hs, heq⟩, hframes, hcount⟩ := hrecord r hr
      have hplain : Plain r.1 := heq ▸ hplain s hs
      exact ⟨strip_lineOf_ne_nil hcount.le,
        fun i => hplain.parseCollapsed hframes.ne_nil hcount.le⟩
    apply readsBack_of_records hne hpos
    rw [FileType.parse, inputLines_dump fun r hr => record_oneLine h hpos hr,
      parseLines_map hparse, List.map_id]

end Any

theorem none_readsBack_iff_perf :
    ReadsBack .none [(["Web".toList, "main".toList, "[libc.so]".toList], 1)] := by
  have hparse : FileType.perf.parse
      "Web 12 5.0: 1 cycles:\n 1f [unknown] (/lib/libc.so)\n 2f main+0x1c (/bin/web)\n\n".toList
      = .ok [(["Web".toList, "main".toList, "[libc.so]".toList], 1)] := rfl
  rw [none_readsBack_iff hparse (by decide)]
  intro s hs
  rw [List.mem_singleton.mp hs]
  exact ⟨by decide, by simp [Py.isSpace], by decide, by decide⟩

/-- A name with a space in it: the line has three fields. -/
theorem none_readsBack_space :
    FileType.pyspy.parse "main (app.py:3) 5\n".toList = .ok [(["main (app.py:3)".toList], 5)] ∧
      ¬ ReadsBack .none [(["main (app.py:3)".toList], 5)] := by
  have hparse : FileType.pyspy.parse "main (app.py:3) 5\n".toList
      = .ok [(["main (app.py:3)".toList], 5)] := rfl
  refine ⟨hparse, ?_⟩
  rintro ⟨samples', hdump, -⟩
  obtain ⟨r, hr, hnames⟩ := exists_record (by decide) (by decide)
    (List.mem_singleton_self (["main (app.py:3)".toList], (5 : Int)))
  have hword := (samples_of_parse_dump hparse (by decide) hdump).1 r hr
  rw [hnames] at hword
  exact absurd hword (by decide)

end LdbToolchain.Tfg
