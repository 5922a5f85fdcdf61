import LdbToolchain.Tfg.Dtrace

/-!
# What `PerfCollapser` makes of a text

A line that is not blank is a header if it has more than three fields, and else a frame. A header
sets the command name, a frame goes on the stack, and a blank line reports both if a command name
was seen. So the lines between two blank lines, a block, act together: `report` goes through the
blocks of a text, and is what the parser computes (`parse_perf_of_takes`).
-/

namespace LdbToolchain.Tfg

/-! ## Lines -/

/-- The line has more than three fields. -/
def isHeader (line : Str) : Bool := 3 < (Py.words line).length

/-- The parser takes the line. -/
def takesLine (line : Str) : Bool :=
  if isHeader line then extractComm (Py.words line) ≠ []
  else (extractStackName (Py.words line)).isSome

/-- The frames that a line adds: one, or none if it is a header. -/
def lineFrames (line : Str) : List Str :=
  if isHeader line then [] else ((extractStackName (Py.words line)).map trimOffset).toList

/-- The command name after a line. -/
def commAfter (comm line : Str) : Str :=
  if isHeader line then extractComm (Py.words line) else comm

theorem parsePerf_blank (result : List (List Str × Int)) (stack : List Str) (comm : Str) (i : Nat)
    (lines : List (Str × Nat)) :
    parsePerf result stack comm (([], i) :: lines) =
      if comm ≠ [] then parsePerf (result ++ [((stack ++ [comm]).reverse, 1)]) [] [] lines
      else parsePerf result stack comm lines := by
  rw [parsePerf, if_pos rfl]

/-- One line that is not blank. -/
theorem parsePerf_line {line : Str} (hne : line ≠ []) (result : List (List Str × Int))
    (stack : List Str) (comm : Str) (i : Nat) (lines : List (Str × Nat)) :
    parsePerf result stack comm ((line, i) :: lines) =
      if takesLine line then
        parsePerf result (stack ++ lineFrames line) (commAfter comm line) lines
      else .error (.stackCollapserException ("Failed to parse line ".toList ++ Py.str i)) := by
  rw [parsePerf, if_neg hne]
  unfold takesLine lineFrames commAfter
  by_cases hheader : isHeader line = true
  · have hlen : (Py.words line).length > 3 := by simpa [isHeader] using hheader
    simp only [hheader, if_true, if_pos hlen, List.append_nil]
    by_cases hcomm : extractComm (Py.words line) = []
    · simp [hcomm]
    · simp [hcomm]
  · have hlen : ¬ (Py.words line).length > 3 := by simpa [isHeader] using hheader
    simp only [hheader, if_false, if_neg hlen, Bool.false_eq_true]
    cases hname : extractStackName (Py.words line) with
    | none => simp
    | some name => simp

/-! ## Blocks -/

/-- The frames of a block. -/
def blockFrames (block : List Str) : List Str := block.flatMap lineFrames

/-- The command name a block leaves behind, the one of its last header. -/
def blockComm (comm : Str) (block : List Str) : Str := block.foldl commAfter comm

/-- Some line of the block is a header. -/
def hasHeader (block : List Str) : Bool := block.any isHeader

/-- A block without a header leaves the command name as it is. -/
theorem blockComm_of_noHeader {block : List Str} (h : hasHeader block = false) (comm : Str) :
    blockComm comm block = comm := by
  induction block with
  | nil => rfl
  | cons line block ih =>
      rw [hasHeader, List.any_cons, Bool.or_eq_false_iff] at h
      rw [blockComm, List.foldl_cons, commAfter, if_neg (by simp [h.1])]
      exact ih h.2

/-- A block with one does not use it. -/
theorem blockComm_of_hasHeader {block : List Str} (h : hasHeader block = true) (comm comm' : Str) :
    blockComm comm block = blockComm comm' block := by
  induction block generalizing comm comm' with
  | nil => cases h
  | cons line block ih =>
      rw [blockComm, blockComm, List.foldl_cons, List.foldl_cons]
      by_cases hline : isHeader line = true
      · rw [commAfter, commAfter, if_pos hline, if_pos hline]
      · rw [hasHeader, List.any_cons, Bool.or_eq_true] at h
        exact ih (h.resolve_left hline) _ _

/-- A block whose headers are taken leaves a command name behind if and only if it has a header. -/
theorem blockComm_ne_nil_iff {block : List Str}
    (hheaders : ∀ line ∈ block, isHeader line = true → takesLine line = true) :
    blockComm [] block ≠ [] ↔ hasHeader block = true := by
  induction block using List.reverseRecOn with
  | nil => simp [blockComm, hasHeader]
  | append_singleton block line ih =>
      have hblock := ih fun l hl => hheaders l (List.mem_append_left _ hl)
      rw [blockComm, List.foldl_append, hasHeader, List.any_append, Bool.or_eq_true]
      show commAfter (blockComm [] block) line ≠ [] ↔ _
      unfold commAfter
      split
      next hline =>
        have htake := hheaders line (by simp) hline
        simp only [takesLine, hline, if_true, decide_eq_true_eq] at htake
        simp [htake, hline]
      next hline =>
        rw [hblock]
        simp [hline, hasHeader]

theorem blockFrames_ne_nil {block : List Str} (hne : block ≠ []) (hheader : hasHeader block = false)
    (htakes : ∀ line ∈ block, takesLine line = true) : blockFrames block ≠ [] := by
  obtain ⟨line, rest, rfl⟩ := List.exists_cons_of_ne_nil hne
  have htake := htakes line List.mem_cons_self
  have hline : isHeader line = false := by
    rw [hasHeader, List.any_cons, Bool.or_eq_false_iff] at hheader
    exact hheader.1
  simp only [takesLine, hline, Bool.false_eq_true, if_false] at htake
  obtain ⟨name, hname⟩ := Option.isSome_iff_exists.mp htake
  simp [blockFrames, lineFrames, hline, hname]

/-! ## The blocks of a text -/

/-- The stripped lines of a text, cut at the blank ones. Between two blank lines that follow each
other there is an empty piece. -/
def pieces (text : Str) : List (List Str) := (strippedLines text).splitOn []

/-- The maximal blocks of consecutive lines that are not blank. -/
def blocks (text : Str) : List (List Str) := (pieces text).filter (· ≠ [])

/-- The sample that a block with a header stands for. -/
def blockSample (block : List Str) : List Str × Int :=
  ((blockFrames block ++ [blockComm [] block]).reverse, 1)

/-- What is reported for blocks that all have a blank line after them, `leaked` being the frames that
are still on the stack before the first. -/
def report (leaked : List Str) : List (List Str) → List (List Str × Int)
  | [] => []
  | block :: rest =>
    if hasHeader block then
      ((leaked ++ blockFrames block ++ [blockComm [] block]).reverse, 1) :: report [] rest
    else report (leaked ++ blockFrames block) rest

/-- What is accepted are lines the parser takes. -/
theorem takesLine_of_parsePerf {lines : List (Str × Nat)} {result samples : List (List Str × Int)}
    {stack : List Str} {comm : Str} (h : parsePerf result stack comm lines = .ok samples) :
    ∀ l ∈ lines, l.1 ≠ [] → takesLine l.1 = true := by
  induction lines generalizing result stack comm with
  | nil =>
      intro l hl
      cases hl
  | cons numbered lines ih =>
      obtain ⟨line, i⟩ := numbered
      intro l hl hne
      by_cases hblank : line = []
      · subst hblank
        rw [parsePerf_blank] at h
        rcases List.mem_cons.mp hl with rfl | hl
        · exact absurd rfl hne
        split at h
        next => exact ih h l hl hne
        next => exact ih h l hl hne
      · rw [parsePerf_line hblank] at h
        split at h
        next htake =>
          rcases List.mem_cons.mp hl with rfl | hl
          · exact htake
          · exact ih h l hl hne
        next => cases h

theorem splitOn_blank (lines : List Str) :
    ([] :: lines).splitOn [] = [] :: lines.splitOn [] := by
  rw [List.splitOn_cons_eq_if_modifyHead, if_pos (by simp)]

theorem splitOn_line {line : Str} (hne : line ≠ []) (lines : List Str) :
    (line :: lines).splitOn [] = (lines.splitOn []).modifyHead (line :: ·) := by
  rw [List.splitOn_cons_eq_if_modifyHead, if_neg (by simpa using hne)]

/-- The loop from the middle of a block on, with the lines `seen` behind it. -/
theorem parsePerf_report {lines : List (Str × Nat)}
    (htakes : ∀ l ∈ lines, l.1 ≠ [] → takesLine l.1 = true) {seen : List Str}
    (hseen : ∀ line ∈ seen, takesLine line = true) (result : List (List Str × Int))
    (leaked : List Str) :
    parsePerf result (leaked ++ blockFrames seen) (blockComm [] seen) lines =
      .ok (result ++
        report leaked ((((lines.map (·.1)).splitOn []).modifyHead (seen ++ ·)).dropLast)) := by
  induction lines generalizing seen result leaked with
  | nil => simp [parsePerf, report]
  | cons numbered lines ih =>
      obtain ⟨line, i⟩ := numbered
      have hlines : ∀ l ∈ lines, l.1 ≠ [] → takesLine l.1 = true :=
        fun l hl => htakes l (List.mem_cons_of_mem _ hl)
      rw [List.map_cons]
      by_cases hblank : line = []
      · subst hblank
        have hnext : ∀ result leaked, parsePerf result leaked [] lines =
            .ok (result ++ report leaked (((lines.map (·.1)).splitOn []).dropLast)) := by
          intro result leaked
          have hrun := ih hlines (List.forall_mem_nil _) result leaked
          rw [Split.modifyHead_nil_append] at hrun
          simpa [blockFrames, blockComm] using hrun
        have hcomm := blockComm_ne_nil_iff fun l hl _ => hseen l hl
        rw [splitOn_blank, List.modifyHead_cons, List.append_nil,
          List.dropLast_cons_of_ne_nil (List.splitOn_ne_nil _ _), report, parsePerf_blank]
        by_cases hheader : hasHeader seen = true
        · rw [if_pos (hcomm.mpr hheader), if_pos hheader, hnext, List.append_assoc]
          rfl
        · have hnone : blockComm [] seen = [] := by
            by_contra hne
            exact hheader (hcomm.mp hne)
          rw [if_neg (by simp [hnone]), if_neg hheader, hnone, hnext]
      · have htake := htakes _ List.mem_cons_self hblank
        have hmore : ∀ l ∈ seen ++ [line], takesLine l = true :=
          List.forall_mem_append.mpr ⟨hseen, List.forall_mem_singleton.mpr htake⟩
        have hrun := ih hlines hmore result leaked
        rw [parsePerf_line hblank, if_pos htake, splitOn_line hblank, List.modifyHead_modifyHead]
        rw [blockFrames, List.flatMap_append, ← List.append_assoc, blockComm,
          List.foldl_append] at hrun
        simpa [blockFrames, blockComm, Function.comp_def] using hrun

/-- What the parser returns for a text whose lines it takes. -/
theorem parse_perf_of_takes {text : Str}
    (htakes : ∀ line ∈ strippedLines text, line ≠ [] → takesLine line = true) :
    FileType.perf.parse text = .ok (report [] (pieces text).dropLast) := by
  have hinput : ∀ l ∈ inputLines text, l.1 ≠ [] → takesLine l.1 = true := by
    intro l hl
    apply htakes
    rw [← map_fst_inputLines]
    exact List.mem_map_of_mem hl
  have hrun := parsePerf_report hinput (List.forall_mem_nil _) [] []
  rw [map_fst_inputLines, Split.modifyHead_nil_append] at hrun
  exact hrun

theorem takesLine_of_parse {text : Str} {samples : List (List Str × Int)}
    (h : FileType.perf.parse text = .ok samples) :
    ∀ line ∈ strippedLines text, line ≠ [] → takesLine line = true := by
  intro line hline
  rw [← map_fst_inputLines] at hline
  obtain ⟨l, hl, rfl⟩ := List.mem_map.mp hline
  exact takesLine_of_parsePerf h l hl

/-! ## Neither mixed nor lost -/

theorem length_report (leaked : List Str) (bs : List (List Str)) :
    (report leaked bs).length = (bs.filter hasHeader).length := by
  induction bs generalizing leaked with
  | nil => rfl
  | cons block rest ih =>
      rw [report]
      split
      next hheader => rw [List.length_cons, ih, List.filter_cons_of_pos hheader, List.length_cons]
      next hheader => rw [ih, List.filter_cons_of_neg hheader]

/-- Only blocks with lines have a header. -/
theorem ne_nil_of_hasHeader {block : List Str} (h : hasHeader block = true) : block ≠ [] := by
  rintro rfl
  cases h

theorem filter_hasHeader (bs : List (List Str)) :
    (bs.filter (· ≠ [])).filter hasHeader = bs.filter hasHeader := by
  rw [List.filter_filter]
  apply List.filter_congr
  intro block _
  cases hheader : hasHeader block with
  | true => simpa using ne_nil_of_hasHeader hheader
  | false => rfl

/-- No block has a header if none with lines has. -/
theorem forall_noHeader_iff (bs : List (List Str)) :
    (∀ b ∈ bs.filter (· ≠ []), hasHeader b = true → false = true) ↔
      ∀ b ∈ bs, hasHeader b = false := by
  constructor
  · intro hall b hb
    by_contra hnot
    have hheader : hasHeader b = true := by simpa using hnot
    have hmem : b ∈ bs.filter (· ≠ []) := by
      apply List.mem_filter.mpr
      exact ⟨hb, by simpa using ne_nil_of_hasHeader hheader⟩
    cases hall b hmem hheader
  · intro hall b hb hheader
    rw [hall b (List.mem_filter.mp hb).1] at hheader
    cases hheader

/-- The report is right if and only if there is nothing to leak into a block with a header. -/
theorem report_eq_iff {bs : List (List Str)}
    (htakes : ∀ block ∈ bs, ∀ line ∈ block, takesLine line = true) (leaked : List Str) :
    report leaked bs = (bs.filter hasHeader).map blockSample ↔
      (leaked = [] ∨ ∀ block ∈ bs, hasHeader block = false) ∧
        (bs.filter (· ≠ [])).Pairwise fun b b' => hasHeader b' = true → hasHeader b = true := by
  induction bs generalizing leaked with
  | nil => simp [report]
  | cons block rest ih =>
      have ih := ih fun b hb => htakes b (List.mem_cons_of_mem _ hb)
      rw [report]
      by_cases hheader : hasHeader block = true
      · have hne := ne_nil_of_hasHeader hheader
        rw [if_pos hheader, List.filter_cons_of_pos hheader, List.map_cons, List.cons.injEq, ih,
          List.filter_cons_of_pos (by simpa using hne), List.pairwise_cons]
        have hsample : ((leaked ++ blockFrames block ++ [blockComm [] block]).reverse, (1 : Int))
            = blockSample block ↔ leaked = [] := by
          simp [blockSample]
        rw [hsample]
        simp [hheader]
      · have hnoHeader : hasHeader block = false := by simpa using hheader
        rw [if_neg hheader, List.filter_cons_of_neg hheader, ih, List.append_eq_nil_iff]
        by_cases hne : block = []
        · subst hne
          rw [List.filter_cons_of_neg (by simp)]
          simp [blockFrames, hasHeader]
        · -- the frames of this block would leak
          have hframes := blockFrames_ne_nil hne hnoHeader (htakes block List.mem_cons_self)
          rw [List.filter_cons_of_pos (by simpa using hne), List.pairwise_cons]
          simp only [hframes, and_false, false_or, List.forall_mem_cons, hnoHeader, true_and]
          rw [forall_noHeader_iff]
          tauto

/-- The lines of the pieces are lines that are not blank. -/
theorem takesLine_of_mem_pieces {text : Str}
    (htakes : ∀ line ∈ strippedLines text, line ≠ [] → takesLine line = true) {block : List Str}
    (hblock : block ∈ pieces text) : ∀ line ∈ block, takesLine line = true := by
  intro line hline
  apply htakes line (Split.mem_of_mem_splitOn hblock hline)
  rintro rfl
  exact Split.notMem_of_mem_splitOn hblock hline

/-- **Perf samples are neither mixed nor lost** exactly when no block without a header comes before a
block with one and the lines after the last blank line have no header. -/
theorem parsePerf_blocks_iff {text : Str} {samples : List (List Str × Int)}
    (h : FileType.perf.parse text = .ok samples) :
    samples = ((blocks text).filter hasHeader).map blockSample ↔
      (blocks text).Pairwise (fun b b' => hasHeader b' = true → hasHeader b = true) ∧
        hasHeader ((pieces text).getLastD []) = false := by
  have hlines := takesLine_of_parse h
  rw [parse_perf_of_takes hlines] at h
  cases h
  obtain ⟨init, last, hpieces⟩ :=
    (List.eq_nil_or_concat' (pieces text)).resolve_left (List.splitOn_ne_nil _ _)
  have hinit : ∀ block ∈ init, ∀ line ∈ block, takesLine line = true := by
    intro block hblock
    apply takesLine_of_mem_pieces hlines
    rw [hpieces]
    exact List.mem_append_left _ hblock
  unfold blocks
  rw [filter_hasHeader, hpieces, List.dropLast_concat, List.getLastD_concat]
  cases hlast : hasHeader last with
  | true =>
      -- the last block is not reported
      have hlength : report [] init ≠ ((init ++ [last]).filter hasHeader).map blockSample := by
        intro heq
        have hlen := congrArg List.length heq
        rw [length_report, List.length_map, List.filter_append, List.length_append,
          List.filter_cons_of_pos hlast] at hlen
        simp at hlen
      constructor
      · intro heq
        exact absurd heq hlength
      · intro hright
        cases hright.2
  | false =>
      have hnone : [last].filter hasHeader = [] := by simp [hlast]
      have hvacuous : ∀ b ∈ init.filter (· ≠ []), ∀ b' ∈ [last].filter (· ≠ []),
          hasHeader b' = true → hasHeader b = true := by
        intro b _ b' hb' hheader
        rw [List.mem_singleton.mp (List.mem_filter.mp hb').1, hlast] at hheader
        cases hheader
      have hone : ([last].filter (· ≠ [])).Pairwise fun b b' =>
          hasHeader b' = true → hasHeader b = true :=
        (List.pairwise_singleton _ last).filter _
      rw [List.filter_append, hnone, List.append_nil, report_eq_iff hinit, List.filter_append,
        List.pairwise_append]
      constructor
      · intro hright
        exact ⟨⟨hright.2, hone, hvacuous⟩, rfl⟩
      · intro hright
        exact ⟨.inl rfl, hright.1.1⟩

/-- `p 1 0 c`, once with a blank line after it and once without. -/
def headerOnly : Str := ['p', ' ', '1', ' ', '0', ' ', 'c', '\n']

theorem parsePerf_blocks_headerOnly :
    [([['p']], 1)] = ((blocks (headerOnly ++ ['\n'])).filter hasHeader).map blockSample :=
  (parsePerf_blocks_iff (by decide)).mpr (by decide)

/-- Without it the sample is lost. -/
theorem parsePerf_loses_last :
    ∃ samples, FileType.perf.parse headerOnly = .ok samples ∧
      samples ≠ ((blocks headerOnly).filter hasHeader).map blockSample :=
  ⟨[], by decide, by decide⟩

end LdbToolchain.Tfg
