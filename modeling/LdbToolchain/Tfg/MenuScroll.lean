import LdbToolchain.Tfg.Layout
import LdbToolchain.Tfg.MenuScreen

/-!
# Scrolling the menu

On a terminal that is too narrow drawing the menu ends in an error. It also ends in one when a
coloured part runs on, line by line, into the last cell of the window, which takes a filler of several
characters or negative counts. `MenuFits` says that neither happens; then every position that the keys
for up and down lead to shows its slice and highlights the selected entry.
-/

namespace LdbToolchain.Tfg

open LdbToolchain.Cells

namespace SelectVisualFrameWindow

variable {n : Nat} {terminal : Terminal} {win win' : SelectVisualFrameWindow}

/-! ## Where the keys lead -/

/-- The window is the same, but for the selection and the slice. -/
structure Moved (win win' : SelectVisualFrameWindow) : Prop where
  vf : win'.vf = win.vf
  height : win'.height = win.height
  numberSize : win'.numberSize = win.numberSize
  prefixSize : win'.prefixSize = win.prefixSize
  width : win'.width = win.width

theorem Moved.refl (win : SelectVisualFrameWindow) : Moved win win := ⟨rfl, rfl, rfl, rfl, rfl⟩

theorem Moved.trans {win'' : SelectVisualFrameWindow} (h : Moved win win') (h' : Moved win' win'') :
    Moved win win'' where
  vf := h'.vf.trans h.vf
  height := h'.height.trans h.height
  numberSize := h'.numberSize.trans h.numberSize
  prefixSize := h'.prefixSize.trans h.prefixSize
  width := h'.width.trans h.width

theorem moved_down (n : Nat) (win : SelectVisualFrameWindow) : Moved win (win.down n) := by
  rw [down]
  split <;> split <;> exact ⟨rfl, rfl, rfl, rfl, rfl⟩

theorem moved_up (win : SelectVisualFrameWindow) : Moved win win.up := by
  rw [up]
  split <;> split <;> exact ⟨rfl, rfl, rfl, rfl, rfl⟩

/-- One step down takes the slice along only if it must. -/
theorem down_of_lt (h : Scrolled n terminal win) (hlt : win.current + 1 < n) :
    (win.down n).current = win.current + 1 ∧
      (win.down n).displayTo = max win.displayTo (win.current + 2) := by
  have hto := h.lt_to
  have hcurrent : (if (win.current : Int) < n - 1 then win.current + 1 else win.current)
      = win.current + 1 := if_pos (by omega)
  rw [down, hcurrent]
  split
  · exact ⟨rfl, by dsimp only; omega⟩
  · exact ⟨rfl, by dsimp only; omega⟩

theorem current_up (win : SelectVisualFrameWindow) : win.up.current = win.current - 1 := by
  have hcurrent : win.up.current = if win.current > 0 then win.current - 1 else win.current :=
    (apply_ite SelectVisualFrameWindow.current _ _ _).trans (ite_self _)
  rw [hcurrent]
  split <;> omega

end SelectVisualFrameWindow

namespace TerminalBrowser

open VisualFrameTree SelectVisualFrameWindow

variable {t : CallFrameTree} {b : TerminalBrowser} {win : SelectVisualFrameWindow} {n : Nat}

theorem update_update (b : TerminalBrowser) (win win' : SelectVisualFrameWindow) :
    (b.update win).update win' = b.update win' := by
  rw [update, update, update]
  simp only [List.dropLast_concat]

theorem update_self (hopen : b.winStack.getLast? = some (.select win)) : b.update win = b := by
  obtain ⟨below, hbelow⟩ := List.getLast?_eq_some_iff.mp hopen
  obtain ⟨⟨vft, currentVf, winStack⟩, terminal, vfWin⟩ := b
  subst hbelow
  rw [update, List.dropLast_concat]

theorem update_inj {win' : SelectVisualFrameWindow} (h : b.update win = b.update win') :
    win = win' := by
  have hlast := congrArg (·.winStack.getLast?) h
  simpa only [getLast?_update, Option.some.injEq, Window.select.injEq] using hlast

theorem run_cons_down (hn : (b.vft.combinedFrames win.vf).length = n) (moves : List Key) :
    (b.update win).run t (.down :: moves) = (b.update (win.down n)).run t moves := by
  have hstep := processInput_down (t := t) (getLast?_update b win)
  rw [update_update, show (b.update win).vft = b.vft from rfl, hn] at hstep
  rw [run, List.foldlM_cons, hstep]
  rfl

theorem run_cons_up (moves : List Key) :
    (b.update win).run t (.up :: moves) = (b.update win.up).run t moves := by
  rw [run, List.foldlM_cons, processInput_up (getLast?_update b win), update_update]
  rfl

/-- The keys for up and down. -/
def Scrolling (keys : List Key) : Prop := ∀ key ∈ keys, key = .up ∨ key = .down

/-- They lead from one scroll position to another. -/
theorem run_moves (hn : (b.vft.combinedFrames win.vf).length = n)
    (h : Scrolled n b.terminal win) {moves : List Key} (hmoves : Scrolling moves) :
    ∃ win', (b.update win).run t moves = some (b.update win') ∧ Moved win win' ∧
      Scrolled n b.terminal win' := by
  induction moves generalizing win with
  | nil => exact ⟨win, rfl, .refl win, h⟩
  | cons key moves ih =>
      obtain ⟨hkey, hrest⟩ := List.forall_mem_cons.mp hmoves
      rcases hkey with rfl | rfl
      · obtain ⟨win', hrun, hmoved, h'⟩ := ih (by rwa [vf_up]) h.up hrest
        exact ⟨win', by rw [run_cons_up, hrun], (moved_up win).trans hmoved, h'⟩
      · obtain ⟨win', hrun, hmoved, h'⟩ := ih (by rwa [vf_down]) h.down hrest
        exact ⟨win', by rw [run_cons_down hn, hrun], (moved_down n win).trans hmoved, h'⟩

/-- All the way up. -/
theorem run_ups {k : Nat} (hn : (b.vft.combinedFrames win.vf).length = n)
    (h : Scrolled n b.terminal win) (hk : win.current ≤ k) :
    ∃ win', (b.update win).run t (List.replicate k .up) = some (b.update win') ∧
      Moved win win' ∧ Scrolled n b.terminal win' ∧ win'.current = 0 := by
  induction k generalizing win with
  | zero => exact ⟨win, rfl, .refl win, h, Nat.le_zero.mp hk⟩
  | succ k ih =>
      obtain ⟨win', hrun, hmoved, h', htop⟩ :=
        ih (by rwa [vf_up]) h.up (by rw [current_up]; omega)
      refine ⟨win', ?_, (moved_up win).trans hmoved, h', htop⟩
      rw [List.replicate_succ, run_cons_up, hrun]

/-- Some entries down. -/
theorem run_downs {k : Nat} (hn : (b.vft.combinedFrames win.vf).length = n)
    (h : Scrolled n b.terminal win) (hk : win.current + k < n) :
    ∃ win', (b.update win).run t (List.replicate k .down) = some (b.update win') ∧
      Moved win win' ∧ Scrolled n b.terminal win' ∧ win'.current = win.current + k ∧
      win'.displayTo = max win.displayTo (win.current + k + 1) := by
  induction k generalizing win with
  | zero =>
      have hlt := h.lt_to
      exact ⟨win, rfl, .refl win, h, rfl, by omega⟩
  | succ k ih =>
      obtain ⟨hcurrent, hto⟩ := down_of_lt h (by omega)
      obtain ⟨win', hrun, hmoved, h', hcurrent', hto'⟩ :=
        ih (by rwa [vf_down]) h.down (by omega)
      refine ⟨win', ?_, (moved_down n win).trans hmoved, h', by omega, by omega⟩
      rw [List.replicate_succ, run_cons_down hn, hrun]

/-- **Every entry can be on the lowest of its rows**: the last one of the window, unless there are not
so many entries above. -/
theorem exists_lowest (hn : (b.vft.combinedFrames win.vf).length = n)
    (h : Scrolled n b.terminal win) {i : Nat} (hi : i < n) :
    ∃ moves win', Scrolling moves ∧ (b.update win).run t moves = some (b.update win') ∧
      Moved win win' ∧ Scrolled n b.terminal win' ∧
      win'.displayFrom + min (i + 1 : Int) (win.height - borderSize) = i + 1 := by
  obtain ⟨top, hup, hmoved, htop, hzero⟩ := run_ups (t := t) hn h le_rfl
  obtain ⟨win', hdown, hmoved', h', -, hto⟩ :=
    run_downs (t := t) (k := i) (by rwa [hmoved.vf]) htop (by omega)
  refine ⟨List.replicate win.current .up ++ List.replicate i .down, win', ?_, ?_,
    hmoved.trans hmoved', h', ?_⟩
  · intro key hkey
    rcases List.mem_append.mp hkey with hkey | hkey
    · exact .inl (List.eq_of_mem_replicate hkey)
    · exact .inr (List.eq_of_mem_replicate hkey)
  · rw [run, List.foldlM_append]
    show ((b.update win).run t _).bind (run t · _) = _
    rw [hup]
    exact hdown
  · have hfrom := htop.from_nonneg
    have hle := htop.from_le
    have hinner := htop.inner
    have hinner' := h'.inner
    have hheight := hmoved.height
    have hheight' := hmoved'.height
    omega

/-! ## When the menu can be drawn -/

/-- The terminal has columns for the numbers and one for the names, and no coloured part, on the
lowest row of its entry, reaches the last cell of the window. -/
structure MenuFits (t : CallFrameTree) (b : TerminalBrowser) (win : SelectVisualFrameWindow) :
    Prop where
  cols : win.numberSize + 4 ≤ b.terminal.cols
  last : ∀ vf, b.vft.vf win.vf = some vf → ∀ (i : Nat) m cf,
    (b.vft.combinedFrames win.vf)[i]? = some m → m.cf = some cf →
    min (i + 1 : Int) (win.height - borderSize) * win.width + win.prefixSize + 1
        + colorLength t b.vft.wsFiller win vf.count m cf < win.height * win.width

/-- After any keys for up and down, the menu can be drawn. -/
def AlwaysDraws (t : CallFrameTree) (b : TerminalBrowser) : Prop :=
  ∀ moves, Scrolling moves → ∃ win, b.run t moves = some (b.update win) ∧
    ∀ cells, (win.draw t b.vft cells).isSome = true

/-- The rows of an open menu, wherever the keys have led. -/
theorem Inv.rows (hinv : Inv t b) (hopen : b.winStack.getLast? = some (.select win))
    {win' : SelectVisualFrameWindow} (hmoved : Moved win win')
    (h : Scrolled (b.vft.combinedFrames win.vf).length b.terminal win') :
    ∃ vf rows, b.vft.vf win.vf = some vf ∧ win'.rows t b.vft = some rows ∧
      (rows.length : Int) = win.height - borderSize ∧
      ∀ (i : Nat) row, rows[i]? = some row → ∃ m cf,
        (b.vft.combinedFrames win.vf)[win'.displayFrom.toNat + i]? = some m ∧ m.cf = some cf ∧
        row = drawRow t b.vft.wsFiller win' vf.count (1 + i) m cf := by
  obtain ⟨-, -, address, s, hat, hmembers⟩ := hinv.menu hopen
  rw [← hmoved.vf] at h hat hmembers ⊢
  rw [← hmoved.height]
  obtain ⟨rows, hrows, hlength, hspec⟩ := rows_spec h hat.vf hmembers
  exact ⟨s.label.toVisualFrame, rows, hat.vf, hrows, hlength, hspec⟩

/-- **When a row can be drawn**, in terms of the window as it was opened. -/
theorem inside_moved_iff {win' : SelectVisualFrameWindow} (hmoved : Moved win win')
    (h : Scrolled n b.terminal win') {count : Int} {r : Nat}
    (hr : (r : Int) < win.height - borderSize) (m : VisualFrame) (cf : Nat) :
    (∀ s ∈ (drawRow t b.vft.wsFiller win' count (1 + r) m cf).stamps,
        s.Inside win'.height win'.width) ↔
      win.numberSize + 4 ≤ win.width ∧
        (1 + r) * win.width + win.prefixSize + 1 + colorLength t b.vft.wsFiller win count m cf
          < win.height * win.width := by
  have hborder : borderSize = 2 := rfl
  have hheight := hmoved.height
  rw [inside_drawRow_iff h.prefixSize h.numberSize_nonneg ⟨by omega, by omega⟩, colorLength,
    colorLength, hmoved.numberSize, hmoved.prefixSize, hmoved.width, hheight]

/-- A menu that fits can be drawn wherever the keys have led. -/
theorem MenuFits.draw (hfits : MenuFits t b win) (hinv : Inv t b)
    (hopen : b.winStack.getLast? = some (.select win)) {win' : SelectVisualFrameWindow}
    (hmoved : Moved win win')
    (h : Scrolled (b.vft.combinedFrames win.vf).length b.terminal win') (cells : Grid MenuCell) :
    (win'.draw t b.vft cells).isSome = true := by
  obtain ⟨vf, rows, hvf, hrows, hlength, hspec⟩ := hinv.rows hopen hmoved h
  obtain ⟨longest, hwidth⟩ := h.width
  have hcols := hfits.cols
  have hindent := h.prefixSize
  have hfrom := h.from_nonneg
  have hsize := h.numberSize_nonneg
  have hborder : borderSize = 2 := rfl
  rw [hmoved.width, hmoved.prefixSize] at hwidth
  rw [hmoved.prefixSize, hmoved.numberSize] at hindent
  rw [hmoved.numberSize] at hsize
  rw [draw_isSome_iff hrows]
  intro row hrow
  obtain ⟨r, hr⟩ := List.mem_iff_getElem?.mp hrow
  obtain ⟨hlt, -⟩ := List.getElem?_eq_some_iff.mp hr
  obtain ⟨m, cf, hm, hcf, rfl⟩ := hspec r row hr
  rw [inside_moved_iff hmoved h (by omega)]
  refine ⟨by omega, ?_⟩
  -- the row is not below the lowest one of its entry
  have hrow : (1 + r : Int) * win.width
      ≤ min ((win'.displayFrom.toNat + r : Nat) + 1 : Int) (win.height - borderSize) * win.width :=
    mul_le_mul_of_nonneg_right (by omega) (by omega)
  have hbound := hfits.last vf hvf (win'.displayFrom.toNat + r) m cf hm hcf
  omega

/-- What drawing in some position says about its rows. -/
theorem AlwaysDraws.row_fits (hall : AlwaysDraws t b) (hinv : Inv t b)
    (hopen : b.winStack.getLast? = some (.select win)) {moves : List Key}
    (hmoves : Scrolling moves) {win' : SelectVisualFrameWindow}
    (hrun : b.run t moves = some (b.update win')) (hmoved : Moved win win')
    (h : Scrolled (b.vft.combinedFrames win.vf).length b.terminal win') {r : Nat}
    (hr : (r : Int) < win.height - borderSize) :
    ∃ vf m cf, b.vft.vf win.vf = some vf ∧
      (b.vft.combinedFrames win.vf)[win'.displayFrom.toNat + r]? = some m ∧ m.cf = some cf ∧
      win.numberSize + 4 ≤ win.width ∧
      (1 + r) * win.width + win.prefixSize + 1 + colorLength t b.vft.wsFiller win vf.count m cf
        < win.height * win.width := by
  obtain ⟨drawn, hrun', hdraw⟩ := hall moves hmoves
  rw [hrun, Option.some.injEq] at hrun'
  obtain rfl := update_inj hrun'
  obtain ⟨vf, rows, hvf, hrows, hlength, hspec⟩ := hinv.rows hopen hmoved h
  have hlt : r < rows.length := by omega
  obtain ⟨m, cf, hm, hcf, hrow⟩ := hspec r _ (List.getElem?_eq_getElem hlt)
  have hinside := (draw_isSome_iff hrows fun _ _ => ⟨' ', .plain⟩).mp (hdraw _) _
    (List.getElem_mem hlt)
  rw [hrow, inside_moved_iff hmoved h hr] at hinside
  exact ⟨vf, m, cf, hvf, hm, hcf, hinside⟩

/-- **When the menu can be drawn in every position.** -/
theorem alwaysDraws_iff (hinv : Inv t b) (hopen : b.winStack.getLast? = some (.select win))
    (h : Scrolled (b.vft.combinedFrames win.vf).length b.terminal win) :
    AlwaysDraws t b ↔ MenuFits t b win := by
  have hself := update_self hopen
  constructor
  · intro hall
    have hle := h.from_le
    have hlt := h.lt_to
    have hinner := h.inner
    constructor
    · -- the first row of the menu as it is
      obtain ⟨-, -, -, -, -, -, hcols, -⟩ := hall.row_fits hinv hopen
        (show Scrolling [] by simp [Scrolling]) (by rw [hself]; rfl) (.refl win) h
        (show ((0 : Nat) : Int) < win.height - borderSize by omega)
      obtain ⟨longest, hwidth⟩ := h.width
      omega
    · intro vf hvf i m cf hm hcf
      obtain ⟨hi, -⟩ := List.getElem?_eq_some_iff.mp hm
      obtain ⟨moves, win', hmoves, hrun, hmoved, h', hlowest⟩ := exists_lowest (t := t) rfl h hi
      rw [hself] at hrun
      have hfrom := h'.from_nonneg
      obtain ⟨r, hr⟩ := Int.eq_ofNat_of_zero_le
        (show 0 ≤ min (i + 1 : Int) (win.height - borderSize) - 1 by omega)
      obtain ⟨vf', m', cf', hvf', hm', hcf', -, hlast⟩ :=
        hall.row_fits hinv hopen hmoves hrun hmoved h' (show (r : Int) < _ by omega)
      rw [show win'.displayFrom.toNat + r = i by omega, hm] at hm'
      cases hm'
      cases hcf.symm.trans hcf'
      cases hvf.symm.trans hvf'
      rwa [show (1 + r : Int) = min (i + 1 : Int) (win.height - borderSize) by omega] at hlast
  · intro hfits moves hmoves
    obtain ⟨win', hrun, hmoved, h'⟩ := run_moves (t := t) rfl h hmoves
    rw [hself] at hrun
    exact ⟨win', hrun, hfits.draw hinv hopen hmoved h'⟩

/-! ## Non-negative counts -/

/-- The count of a '+' frame is that of the frames it combines. -/
def CountsMembers (label : VisualFrameNode) (_ : List (Rose VisualFrameNode)) : Prop :=
  label.combinedFrames = [] ∨ label.count = (label.combinedFrames.map (·.count)).sum

theorem countsMembers_of_at (h : Coherent t b.vft) (hw : 1 ≤ b.vft.width) {ref : VfRef}
    {address : List Nat} {s : Rose VisualFrameNode} (hat : b.vft.At ref address s) :
    CountsMembers s.label s.children := by
  obtain ⟨before, cs, hcs, hadopt⟩ := h.zoomed
  have hcanvas : b.vft.toCanvas = before.toCanvas := by
    rw [hadopt]
    rfl
  rw [hcanvas] at hw
  obtain ⟨tree, htree, -, hs⟩ := hat
  rw [hadopt, current_adopt, Option.some.injEq] at htree
  subst htree
  refine everywhere_zoomTree (fun _ _ _ _ => .inl rfl) (fun _ _ _ => .inr rfl)
    (fun _ _ _ _ _ _ => .inl rfl) hw (headVf_shows t before.toCanvas) rfl rfl
    (stacked_zoomFrames before.toCanvas 1 cs) place_zoomFrames address s hs

/-- **With non-negative counts and a filler of at most one character only the columns matter.** -/
theorem menuFits_iff_cols (hweighted : t.Weighted) (hinv : Inv t b)
    (hopen : b.winStack.getLast? = some (.select win))
    (h : Scrolled (b.vft.combinedFrames win.vf).length b.terminal win) (hw : 1 ≤ b.vft.width)
    (hfiller : b.vft.wsFiller.length ≤ 1) :
    MenuFits t b win ↔ win.numberSize + 4 ≤ b.terminal.cols := by
  refine ⟨MenuFits.cols, fun hcols => ⟨hcols, ?_⟩⟩
  intro vf hvf i m cf hm hcf
  obtain ⟨-, -, address, s, hat, -⟩ := hinv.menu hopen
  cases hat.vf.symm.trans hvf
  obtain ⟨longest, hwidth⟩ := h.width
  have hindent := h.prefixSize
  have hsize := h.numberSize_nonneg
  have hborder : borderSize = 2 := rfl
  rw [hat.combinedFrames] at hm
  have hmem := List.mem_of_getElem? hm
  have hnonneg : ∀ x ∈ s.label.combinedFrames.map (·.count), 0 ≤ x := by
    intro x hx
    obtain ⟨v, hv, rfl⟩ := List.mem_map.mp hx
    obtain ⟨tree, htree, -, hs⟩ := hat
    obtain ⟨f, ⟨-, hcount⟩, -⟩ :=
      member_lineage (hinv.coherent.genealogical_current htree) hs hv
    rw [hcount]
    exact (hweighted f).1
  have hsum : s.label.count = (s.label.combinedFrames.map (·.count)).sum := by
    rcases countsMembers_of_at hinv.coherent hw hat with hnil | hsum
    · rw [hnil] at hmem
      cases hmem
    · exact hsum
  have hcount : m.count ≤ s.label.count := by
    rw [hsum]
    exact List.single_le_sum hnonneg _ (List.mem_map_of_mem hmem)
  -- the share of the entry is no wider than the room beside the numbers
  have hroom : 0 ≤ win.width - win.prefixSize - borderSize := by omega
  have hm0 : 0 ≤ m.count := hnonneg _ (List.mem_map_of_mem hmem)
  have hshare : calculateWidth m.count s.label.count (win.width - win.prefixSize - borderSize)
      ≤ win.width - win.prefixSize - borderSize := by
    have hshares := sum_calculateWidth_le (hm0.trans hcount)
      (show [m.count].sum ≤ s.label.count by rwa [List.sum_singleton]) hroom
    rwa [List.map_singleton, List.sum_singleton] at hshares
  have hcolor : colorLength t b.vft.wsFiller win s.label.count m cf
      ≤ win.width - win.prefixSize - borderSize :=
    (fittedLength_le (by exact_mod_cast hfiller)
      (calculateWidth_nonneg hm0 (hm0.trans hcount) hroom)).trans hshare
  have hlines : (min (i + 1 : Int) (win.height - borderSize) + 1) * win.width
      ≤ win.height * win.width := mul_le_mul_of_nonneg_right (by omega) (by omega)
  rw [add_mul] at hlines
  omega

/-! ## A menu of ten entries -/

theorem length_rowFrames (t : CallFrameTree) (canvas : Canvas) (vf : VisualFrame) (shrunk : Bool)
    (x : Int) (cfs : List Nat) : (rowFrames t canvas vf shrunk x cfs).length = cfs.length := by
  induction cfs generalizing x with
  | nil => rfl
  | cons c cs ih => rw [rowFrames, List.length_cons, ih, List.length_cons]

/-- Children without a column are all combined. -/
theorem createVfChildren_allCombined {canvas : Canvas} {vf : VisualFrame} {cf : Nat}
    (hne : t.frames cf ≠ []) (hflag : canvas.withCombinedFrames = true) (hw : 0 < vf.width)
    (hzero : ∀ c ∈ t.frames cf, calculateWidth (t.node c).count vf.count vf.width = 0) :
    ∃ plus : VisualFrameNode, createVfChildren t canvas vf cf = [.node plus []] ∧
      plus.width = 1 ∧ plus.cf = none ∧ plus.combinedFrames.length = (t.frames cf).length := by
  have hwidths : vfWidths t vf cf = List.replicate (t.frames cf).length 0 := by
    rw [vfWidths, List.eq_replicate_iff]
    refine ⟨List.length_map _, ?_⟩
    intro w hw
    obtain ⟨c, hc, rfl⟩ := List.mem_map.mp hw
    exact hzero c hc
  have hcombined : hasCombined t canvas vf cf = true := by
    have hpos := List.length_pos_of_ne_nil hne
    rw [hasCombined, hflag, hwidths, Bool.true_and, decide_eq_true_eq, List.min?_eq_some_iff]
    exact ⟨List.mem_replicate.mpr ⟨hpos.ne', rfl⟩,
      fun x hx => (List.mem_replicate.mp hx).2.ge⟩
  have hkeeps : keepsColumn t canvas vf cf = false := by
    rw [keepsColumn, hwidths, hcombined, List.sum_replicate, smul_zero, Bool.true_and]
    exact decide_eq_false hw.ne
  have hnone : ∀ v ∈ childRow t canvas vf cf, v.width = 0 := by
    intro v hv
    rw [childRow, hkeeps] at hv
    obtain ⟨c, hc, -, -, hwidth⟩ := mem_rowFrames hv
    rw [hwidth]
    exact hzero c ((t.sortedFrames_perm cf).mem_iff.mp hc)
  have hvisible : visible (childRow t canvas vf cf) = [] := by
    rw [visible, List.filter_eq_nil_iff]
    intro v hv
    rw [hnone v hv]
    decide
  have hall : combined (childRow t canvas vf cf) = childRow t canvas vf cf := by
    rw [combined, List.filter_eq_self]
    intro v hv
    rw [hnone v hv]
    decide
  refine ⟨plusVf (rowEnd (vf.x + vf.width) (childRow t canvas vf cf)) (vf.y + 1)
    (combined (childRow t canvas vf cf)), ?_, rfl, rfl, ?_⟩
  · rw [createVfChildren_eq t canvas vf cf hne, hvisible, hcombined]
    rfl
  · show (combined (childRow t canvas vf cf)).length = _
    rw [hall, childRow, length_rowFrames, (t.sortedFrames_perm cf).length_eq]

/-- `a` to `j`, once each. -/
def tenStacks : CallFrameTree :=
  .ofSamples ("abcdefghij".toList.map fun c => ([[c]], 1))

theorem frames_tenStacks : tenStacks.frames 0 = [1, 2, 3, 4, 5, 6, 7, 8, 9, 10] := by
  decide +kernel

/-- The area of a terminal of five columns. -/
def fiveColumns : Canvas := ⟨0, 5, [' '], true⟩

theorem widths_tenStacks : ∀ c ∈ tenStacks.frames 0,
    calculateWidth (tenStacks.node c).count (headVf tenStacks fiveColumns).count
      (headVf tenStacks fiveColumns).width = 0 := by
  decide +kernel

/-- The picture of `tenStacks`: the head below a '+' frame. -/
theorem exists_plus :
    ∃ plus : VisualFrameNode, zoomedTree tenStacks fiveColumns []
        = .node (headVf tenStacks fiveColumns).single [.node plus []] ∧
      plus.width = 1 ∧ plus.cf = none ∧ plus.combinedFrames.length = 10 := by
  have hframes := frames_tenStacks
  have hne : tenStacks.frames 0 ≠ [] := by
    rw [hframes]
    decide
  obtain ⟨plus, hchildren, hwidth, hcf, hlength⟩ :=
    @createVfChildren_allCombined tenStacks fiveColumns (headVf tenStacks fiveColumns) 0 hne rfl
      (by decide) widths_tenStacks
  rw [hframes] at hlength
  refine ⟨plus, ?_, hwidth, hcf, hlength⟩
  rw [← hchildren]
  rfl

/-- Enter on a frame that combines others opens their menu. -/
theorem enter_opens (hcoherent : Coherent t b.vft) (hwindows : b.winStack = [.status, .flameGraph])
    {address : List Nat} {s : Rose VisualFrameNode} (hat : b.vft.At b.currentVf address s)
    (hcf : s.label.cf = none) (hne : s.label.combinedFrames ≠ []) :
    ∃ win, b.processInput t .enter = some { b with winStack := b.winStack ++ [.select win] } ∧
      win.vf = b.currentVf := by
  obtain ⟨win, hinit, hwin, -⟩ := exists_select_init b.terminal hcoherent hat hne
  refine ⟨win, ?_, hwin⟩
  rw [processInput, hwindows]
  simp only [List.getLast?_cons_cons, List.getLast?_singleton, flameGraphInput, hat.vf,
    Option.bind_eq_bind, Option.bind_some, hat.combinedFrames]
  rw [if_neg (not_not.mpr hcf), if_pos hne, hinit]
  rw [Option.bind_some, hwindows]
  rfl

/-- No child of the head gets a column, so one goes up to the '+' frame and opens its menu. -/
theorem exists_openMenu (lines : Int) :
    ∃ b win, (display tenStacks ⟨lines, 5⟩ [' ']).bind (run tenStacks · [.up, .enter]) = some b ∧
      b.winStack.getLast? = some (.select win) ∧
      (b.vft.combinedFrames win.vf).length = 10 ∧ b.vft.toCanvas = fiveColumns := by
  obtain ⟨plus, htree, hwidth, hcf, hlength⟩ := exists_plus
  let vft : VisualFrameTree :=
    { fiveColumns with builds := [zoomedTree tenStacks fiveColumns []], startVf := .frame 0 [] }
  let start : TerminalBrowser :=
    ⟨⟨vft, .frame 0 [], [.status, .flameGraph]⟩, ⟨lines, 5⟩, FlameGraphWindow.init ⟨lines, 5⟩⟩
  have hdisplay : display tenStacks ⟨lines, 5⟩ [' '] = some start := rfl
  have hcoherent : Coherent tenStacks vft := coherent_init (init_eq_adopt tenStacks fiveColumns)
  have hhead : vft.At (.frame 0 []) [] (zoomedTree tenStacks fiveColumns []) := ⟨_, rfl, rfl, rfl⟩
  have hat : vft.At (.frame 0 [0]) [0] (.node plus []) := by
    refine ⟨zoomedTree tenStacks fiveColumns [], rfl, rfl, ?_⟩
    rw [htree]
    rfl
  have hfirst : vft.firstVisible (.frame 0 []) = some (.frame 0 [0]) := by
    rw [firstVisible, hhead.node, htree]
    simp [hwidth]
  let b₁ : TerminalBrowser := start.goTo (.frame 0 [0])
    { start.vfWin with startLevel := if plus.y > 0 + start.vfWin.height - 2 then 0 + 1 else 0 }
  have hup : start.processInput tenStacks .up = some b₁ := by
    show (vft.vf ((vft.firstVisible (.frame 0 [])).getD (.frame 0 []))).bind _ = some b₁
    rw [hfirst, Option.getD_some, hat.vf]
    rfl
  have hne : plus.combinedFrames ≠ [] := by
    intro hnil
    rw [hnil] at hlength
    cases hlength
  obtain ⟨win, henter, hwin⟩ := enter_opens (b := b₁) hcoherent rfl hat hcf hne
  refine ⟨{ b₁ with winStack := b₁.winStack ++ [.select win] }, win, ?_, ?_, ?_, rfl⟩
  · rw [hdisplay, Option.bind_some, run, List.foldlM_cons, hup]
    show (b₁.processInput tenStacks .enter).bind _ = _
    rw [henter]
    rfl
  · exact List.getLast?_concat
  · show (vft.combinedFrames win.vf).length = 10
    rw [hwin]
    exact (congrArg List.length hat.combinedFrames).trans hlength

/-- The columns that their menu takes. -/
theorem exists_menu_tenStacks {lines : Int} (hlines : 3 ≤ lines) :
    ∃ b win, (display tenStacks ⟨lines, 5⟩ [' ']).bind (run tenStacks · [.up, .enter]) = some b ∧
      b.winStack.getLast? = some (.select win) ∧ (b.vft.combinedFrames win.vf).length = 10 ∧
      (MenuFits tenStacks b win ↔ ((toString (min (10 + borderSize) lines)).length : Int) ≤ 1) := by
  obtain ⟨b, win, hrun, hopen, hlength, hcanvas⟩ := exists_openMenu lines
  obtain ⟨hinv, hmenu, hterminal⟩ := exists_menu hlines hrun
  have hscrolled := hmenu win hopen
  have hweighted : tenStacks.Weighted := ofSamples_weighted_of_nonneg (by decide)
  have hwidth : b.vft.width = 5 := congrArg Canvas.width hcanvas
  have hfiller : b.vft.wsFiller = [' '] := congrArg Canvas.wsFiller hcanvas
  refine ⟨b, win, hrun, hopen, hlength, ?_⟩
  rw [menuFits_iff_cols hweighted hinv hopen hscrolled (by omega) (by rw [hfiller]; rfl),
    hscrolled.numberSize, hscrolled.height, hterminal, hlength]
  show ((toString (min (10 + borderSize) lines)).length : Int) + 4 ≤ 5 ↔ _
  omega

/-! ## The selected entry -/

/-- An element at a known index is all there is to filter out when no other satisfies `p`. -/
theorem filter_eq_singleton_of_index {α : Type} {p : α → Bool} {l : List α} {k : Nat} {a : α}
    (ha : l[k]? = some a) (h : ∀ (i : Nat) x, l[i]? = some x → (p x = true ↔ i = k)) :
    l.filter p = [a] := by
  induction l generalizing k with
  | nil => cases ha
  | cons x l ih =>
      cases k with
      | zero =>
          cases ha
          rw [List.filter_cons_of_pos ((h 0 a rfl).mpr rfl), List.filter_eq_nil_iff.mpr]
          intro y hy hpy
          obtain ⟨i, hi⟩ := List.mem_iff_getElem?.mp hy
          exact absurd ((h (i + 1) y hi).mp hpy) (Nat.succ_ne_zero i)
      | succ k =>
          have hx : ¬ p x = true := fun hpx => absurd ((h 0 x rfl).mp hpx) (Nat.zero_ne_add_one k)
          rw [List.filter_cons_of_neg hx]
          apply ih ha
          intro i y hy
          rw [h (i + 1) y hy, Nat.add_right_cancel_iff]

/-- The screen shows the slice, one entry on each row. Of the rows, one is highlighted, it shows the
selected entry, and Enter zooms into that one. -/
def ShowsSelected (t : CallFrameTree) (b : TerminalBrowser) (win : SelectVisualFrameWindow) : Prop :=
  let frames := b.vft.combinedFrames win.vf
  ∀ cells, ∃ rows screen row, win.rows t b.vft = some rows ∧
    win.draw t b.vft cells = some screen ∧ ShowsRows win rows screen ∧
    (rows.length : Int) = win.height - borderSize ∧
    (∀ (i : Nat) r, rows[i]? = some r →
      r.name.y = 1 + i ∧ frames[win.displayFrom.toNat + i]? = some r.vf) ∧
    rows.filter (·.highlight.isSome) = [row] ∧ frames[win.current]? = some row.vf ∧
    ∃ b', b.processInput t .enter = some b' ∧ row.vf.cf.isSome = true ∧
      b'.vft.cf b'.currentVf = row.vf.cf ∧ b'.winStack = [.status, .flameGraph]

/-- A menu that can be drawn shows the selected entry. -/
theorem showsSelected_of_draw (hinv : Inv t b) (hopen : b.winStack.getLast? = some (.select win))
    (h : Scrolled (b.vft.combinedFrames win.vf).length b.terminal win)
    (hdraw : ∀ cells, (win.draw t b.vft cells).isSome = true) : ShowsSelected t b win := by
  intro cells
  obtain ⟨screen, hscreen⟩ := Option.isSome_iff_exists.mp (hdraw cells)
  obtain ⟨vf, rows, -, hrows, hlength, hspec⟩ := hinv.rows hopen (.refl win) h
  have hfrom := h.from_nonneg
  have hle := h.from_le
  have hlt := h.lt_to
  have hinner := h.inner
  -- the row of the selected entry
  obtain ⟨k, hk⟩ := Int.eq_ofNat_of_zero_le (show 0 ≤ (win.current : Int) - win.displayFrom by omega)
  have hkrow : k < rows.length := by omega
  have hrow := List.getElem?_eq_getElem hkrow
  obtain ⟨m, cf, hm, hcf, hmrow⟩ := hspec k _ hrow
  rw [show win.displayFrom.toNat + k = win.current by omega] at hm
  have hvf : (rows[k]).vf = m := by
    rw [hmrow]
    rfl
  obtain ⟨b', henter, hzoomed, hstack⟩ := enter_select hinv hopen hm
  refine ⟨rows, screen, rows[k], hrows, hscreen, ?_, hlength, ?_, ?_, by rw [hvf]; exact hm,
    b', henter, ?_, ?_, hstack⟩
  · apply showsRows_of_draw h.numberSize_nonneg hrows ?_ hscreen
    intro i r hr
    obtain ⟨m, cf, -, -, hr⟩ := hspec i r hr
    exact ⟨_, m, cf, hr⟩
  · intro i r hr
    obtain ⟨m, cf, hm, -, rfl⟩ := hspec i r hr
    exact ⟨rfl, hm⟩
  · apply filter_eq_singleton_of_index hrow
    intro i r hr
    obtain ⟨m, cf, -, -, rfl⟩ := hspec i r hr
    show (if (win.current : Int) = 1 + i + win.displayFrom - 1 then _ else _ :
      Option Addstr).isSome = true ↔ i = k
    split
    next hi => exact iff_of_true rfl (by omega)
    next hi => exact iff_of_false (by simp) (by omega)
  · rw [hvf, hcf]
    rfl
  · rw [hvf, hzoomed]

/-- After any keys for up and down, the selected entry is in the slice, and the screen shows it. -/
def AlwaysShows (t : CallFrameTree) (b : TerminalBrowser) : Prop :=
  ∀ moves, Scrolling moves → ∃ win, b.run t moves = some (b.update win) ∧
    Scrolled (b.vft.combinedFrames win.vf).length b.terminal win ∧
    ShowsSelected t (b.update win) win

/-- What `AlwaysShows` comes to. -/
theorem alwaysShows_iff (hlines : 3 ≤ b.terminal.lines) (hinv : Inv t b) (hmenu : MenuScrolled b)
    (hopen : b.winStack.getLast? = some (.select win)) : AlwaysShows t b ↔ MenuFits t b win := by
  rw [← alwaysDraws_iff hinv hopen (hmenu win hopen)]
  constructor
  · intro hall moves hscrolling
    obtain ⟨win', hrun, -, hshows⟩ := hall moves hscrolling
    refine ⟨win', hrun, fun cells => ?_⟩
    obtain ⟨rows, screen, row, -, hdraw, -⟩ := hshows cells
    exact Option.isSome_iff_exists.mpr ⟨screen, hdraw⟩
  · intro hall moves hscrolling
    obtain ⟨win', hrun, hdraw⟩ := hall moves hscrolling
    obtain ⟨hinv', hmenu', -⟩ := menuScrolled_run hinv hmenu hlines hrun
    have hopen' := getLast?_update b win'
    have h' := hmenu' win' hopen'
    exact ⟨win', hrun, h', showsSelected_of_draw hinv' hopen' h' hdraw⟩

/-- **When the menu scrolls correctly.** Take any state that some keys lead to on a terminal of at
least three lines, with the menu open. Keys for up and down lead to positions whose slice fills the
window and holds the selected entry. All of these positions show their slice with the selected entry
highlighted, exactly when the menu fits. -/
theorem menu_scrolls_iff (t : CallFrameTree) {terminal : Terminal} (hlines : 3 ≤ terminal.lines)
    (wsFiller : Str) (keys : List Key) {b : TerminalBrowser} {win : SelectVisualFrameWindow}
    (hrun : (display t terminal wsFiller).bind (run t · keys) = some b)
    (hopen : b.winStack.getLast? = some (.select win)) :
    (∀ moves, Scrolling moves → ∃ win', b.run t moves = some (b.update win') ∧
      Scrolled (b.vft.combinedFrames win.vf).length terminal win') ∧
    (AlwaysShows t b ↔ MenuFits t b win) := by
  obtain ⟨hinv, hmenu, hterminal⟩ := exists_menu hlines hrun
  rw [← hterminal] at hlines ⊢
  refine ⟨?_, alwaysShows_iff hlines hinv hmenu hopen⟩
  intro moves hscrolling
  obtain ⟨win', hrun', -, h'⟩ := run_moves (t := t) rfl (hmenu win hopen) hscrolling
  rw [update_self hopen] at hrun'
  exact ⟨win', hrun', h'⟩

theorem menu_scrolls_iff_tenStacks :
    ∃ b win, (display tenStacks ⟨3, 5⟩ [' ']).bind (run tenStacks · [.up, .enter]) = some b ∧
      b.winStack.getLast? = some (.select win) ∧ AlwaysShows tenStacks b := by
  obtain ⟨b, win, hrun, hopen, -, hfits⟩ := exists_menu_tenStacks (show (3 : Int) ≤ 3 by decide)
  exact ⟨b, win, hrun, hopen, (menu_scrolls_iff tenStacks (by decide) [' '] _ hrun hopen).2.mpr
    (hfits.mpr (by decide))⟩

/-- On ten lines the numbers take two columns, and five columns are too few. -/
theorem menu_not_shown :
    ∃ b win, (display tenStacks ⟨10, 5⟩ [' ']).bind (run tenStacks · [.up, .enter]) = some b ∧
      b.winStack.getLast? = some (.select win) ∧ ¬ AlwaysShows tenStacks b := by
  obtain ⟨b, win, hrun, hopen, -, hfits⟩ := exists_menu_tenStacks (show (3 : Int) ≤ 10 by decide)
  obtain ⟨hinv, hmenu, hterminal⟩ := exists_menu (by decide) hrun
  refine ⟨b, win, hrun, hopen, ?_⟩
  rw [alwaysShows_iff (by rw [hterminal]; decide) hinv hmenu hopen, hfits]
  decide

end TerminalBrowser

end LdbToolchain.Tfg
