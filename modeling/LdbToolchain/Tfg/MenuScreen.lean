import LdbToolchain.Tfg.Menu

/-!
# The menu on the screen

`draw` puts the coloured part of a name to the right of the number without asking whether the window
has a column there (`inside_drawRow_iff`). A menu that can be drawn shows its rows, each string over
those before it, and highlights the number of the selected entry.
-/

namespace LdbToolchain.Tfg

open LdbToolchain.Cells

/-! ## Lengths of the strings -/

/-- The length that `fit_string` gives to a text of this length. -/
def fittedLength (length filler width : Int) : Int :=
  if length < width then length + (width - length) * filler
  else if 0 ≤ width then width
  else max 0 (length + width)

theorem length_fitString (text wsFiller : Str) (width : Int) :
    ((fitString text width wsFiller).length : Int)
      = fittedLength text.length wsFiller.length width := by
  rw [fitString, fittedLength]
  split
  next hlt =>
    have hmissing : ((width - text.length).toNat : Int) = width - text.length := by omega
    rw [sliceTo, if_pos (by omega), List.take_of_length_le (by omega), repeatStr,
      List.length_append, List.length_flatten, List.map_replicate, List.sum_replicate, smul_eq_mul,
      Nat.cast_add, Nat.cast_mul, hmissing]
  next hge =>
    rw [sliceTo]
    split
    next =>
      rw [List.length_take]
      omega
    next =>
      rw [List.length_take]
      omega

/-- With a filler of one character the text gets the width. -/
theorem fittedLength_one (length : Int) {width : Int} (hw : 0 ≤ width) :
    fittedLength length 1 width = width := by
  rw [fittedLength, if_pos hw]
  split <;> omega

/-- With none it gets no more. -/
theorem fittedLength_le {length filler width : Int} (hfiller : filler ≤ 1) (hw : 0 ≤ width) :
    fittedLength length filler width ≤ width := by
  rw [fittedLength, if_pos hw]
  split
  next hlt =>
    have hmissing := mul_le_mul_of_nonneg_left hfiller (show 0 ≤ width - length by omega)
    rw [mul_one] at hmissing
    omega
  next => exact le_rfl

/-! ## Strings on the window -/

namespace Addstr

variable {s : Addstr} {style : Style} {row column : Int}

theorem length_stamp : (s.stamp style).text.length = s.text.length := List.length_map _

theorem inside_stamp_iff {height width : Int} :
    (s.stamp style).Inside height width ↔ (0 ≤ s.y ∧ s.y < height) ∧ (0 ≤ s.x ∧ s.x < width) ∧
      s.y * width + s.x + s.text.length < height * width := by
  rw [← @length_stamp s style]
  constructor
  · intro h
    exact ⟨h.row, h.column, h.last⟩
  · rintro ⟨hrow, hcolumn, hlast⟩
    exact ⟨hrow, hcolumn, hlast⟩

theorem at?_stamp_isSome_iff : ((s.stamp style).at? row column).isSome = true ↔
    row = s.y ∧ s.x ≤ column ∧ column < s.x + s.text.length := by
  rw [Stamp.at?_isSome_iff, length_stamp]
  rfl

theorem style_at?_stamp {cell : MenuCell} (h : (s.stamp style).at? row column = some cell) :
    cell.style = style := by
  rw [Stamp.at?, Option.ite_none_right_eq_some] at h
  obtain ⟨-, h⟩ := h
  obtain ⟨c, -, rfl⟩ := List.mem_map.mp (List.mem_of_getElem? h)
  rfl

end Addstr

namespace SelectVisualFrameWindow

variable {t : CallFrameTree} {vft : VisualFrameTree} {wsFiller : Str} {n : Nat}
  {terminal : Terminal} {win win' : SelectVisualFrameWindow}

/-- The cells of the coloured part of an entry's name. -/
def colorLength (t : CallFrameTree) (wsFiller : Str) (win : SelectVisualFrameWindow) (count : Int)
    (vf : VisualFrame) (cf : Nat) : Int :=
  fittedLength (t.node cf).name.length wsFiller.length
    (calculateWidth vf.count count (win.width - win.prefixSize - borderSize))

theorem length_alignRight (number width : Int) :
    ((alignRight number width).length : Int) = max ((Py.str number).length : Int) width := by
  rw [alignRight, List.length_append, List.length_replicate]
  omega

/-- The number of the selected entry takes the columns there are for numbers. -/
theorem length_highlight {count y : Int} {vf : VisualFrame} {cf : Nat}
    (hsize : 0 ≤ win.numberSize) {highlight : Addstr}
    (h : (drawRow t wsFiller win count y vf cf).highlight = some highlight) :
    highlight.y = y ∧ highlight.x = 1 ∧ (highlight.text.length : Int) = win.numberSize := by
  have hlength := length_alignRight (y + win.displayFrom) win.numberSize
  simp only [drawRow, Option.ite_none_right_eq_some, Option.some.injEq] at h
  obtain ⟨-, rfl⟩ := h
  refine ⟨rfl, rfl, ?_⟩
  rw [length_fitString, fittedLength, List.length_append, List.length_singleton,
    if_neg (by omega), if_pos hsize]

/-! ## One row -/

theorem length_name (t : CallFrameTree) (wsFiller : Str) (win : SelectVisualFrameWindow)
    (count y : Int) (vf : VisualFrame) (cf : Nat) (hwidth : 2 ≤ win.width) :
    ((drawRow t wsFiller win count y vf cf).name.text.length : Int) = win.width - borderSize :=
  (length_fitString _ _ _).trans (fittedLength_one _ (show 0 ≤ win.width - 2 by omega))

theorem length_colorName (t : CallFrameTree) (wsFiller : Str) (win : SelectVisualFrameWindow)
    (count y : Int) (vf : VisualFrame) (cf : Nat) :
    ((drawRow t wsFiller win count y vf cf).colorName.text.length : Int)
      = colorLength t wsFiller win count vf cf :=
  length_fitString _ _ _

/-- **When a row can be drawn**: the column to the right of the number is in the window, and the
coloured part ends before the window's last cell. -/
theorem inside_drawRow_iff (hindent : win.prefixSize = win.numberSize + 2)
    (hsize : 0 ≤ win.numberSize) {count y : Int} (hy : 1 ≤ y ∧ y + 1 < win.height)
    (vf : VisualFrame) (cf : Nat) :
    (∀ s ∈ (drawRow t wsFiller win count y vf cf).stamps, s.Inside win.height win.width) ↔
      win.numberSize + 4 ≤ win.width ∧
        y * win.width + win.prefixSize + 1 + colorLength t wsFiller win count vf cf
          < win.height * win.width := by
  have hcolor := length_colorName t wsFiller win count y vf cf
  have hcolumn : (drawRow t wsFiller win count y vf cf).colorName.x = win.prefixSize + 1 := rfl
  have hrow : (drawRow t wsFiller win count y vf cf).colorName.y = y := rfl
  constructor
  · intro h
    have hinside := Addstr.inside_stamp_iff.mp (h _ (List.mem_cons_of_mem _ List.mem_cons_self))
    rw [hcolor, hcolumn, hrow] at hinside
    omega
  · rintro ⟨hcols, hlast⟩ s hs
    -- the line ends before the last cell
    have hline : (y + 2) * win.width ≤ win.height * win.width :=
      mul_le_mul_of_nonneg_right (by omega) (by omega)
    rw [add_mul] at hline
    rcases List.mem_cons.mp hs with rfl | hs
    · have hname := length_name t wsFiller win count y vf cf (by omega)
      have hborder : borderSize = 2 := rfl
      rw [Addstr.inside_stamp_iff, hname]
      show (0 ≤ y ∧ y < win.height) ∧ (0 ≤ (1 : Int) ∧ 1 < win.width) ∧ y * win.width + 1 + _ < _
      omega
    rcases List.mem_cons.mp hs with rfl | hs
    · rw [Addstr.inside_stamp_iff, hcolor, hcolumn, hrow]
      omega
    · obtain ⟨highlight, hhighlight, rfl⟩ := Option.map_eq_some_iff.mp (Option.mem_toList.mp hs)
      obtain ⟨hrow, hcolumn, hlength⟩ := length_highlight hsize hhighlight
      rw [Addstr.inside_stamp_iff, hrow, hcolumn, hlength]
      omega

/-! ## The whole menu -/

theorem Scrolled.numberSize_nonneg (h : Scrolled n terminal win) : 0 ≤ win.numberSize := by
  rw [h.numberSize]
  exact Int.natCast_nonneg _

/-- **When the menu can be drawn**: when each row can. -/
theorem draw_isSome_iff {rows : List MenuRow} (hrows : win.rows t vft = some rows)
    (cells : Grid MenuCell) :
    (win.draw t vft cells).isSome = true ↔
      ∀ row ∈ rows, ∀ s ∈ row.stamps, s.Inside win.height win.width := by
  rw [draw, hrows, Option.bind_eq_bind, Option.bind_some, addstrs_isSome_iff]
  simp only [List.forall_mem_flatMap]

/-- All strings of a row are on its line. -/
theorem stamps_drawRow_y {count y : Int} {vf : VisualFrame} {cf : Nat} :
    ∀ s ∈ (drawRow t wsFiller win count y vf cf).stamps, s.y = y := by
  intro s hs
  rcases List.mem_cons.mp hs with rfl | hs
  · rfl
  rcases List.mem_cons.mp hs with rfl | hs
  · rfl
  · obtain ⟨highlight, hhighlight, rfl⟩ := Option.map_eq_some_iff.mp (Option.mem_toList.mp hs)
    simp only [drawRow, Option.ite_none_right_eq_some, Option.some.injEq] at hhighlight
    obtain ⟨-, rfl⟩ := hhighlight
    rfl

/-- The name covers its line within the border, under the coloured part, and neither stands out. -/
theorem exists_under (t : CallFrameTree) (wsFiller : Str) (count y : Int) (vf : VisualFrame)
    (cf : Nat) {column : Int} (hcolumn : 1 ≤ column ∧ column < win.width - 1) :
    ∃ cell, (((drawRow t wsFiller win count y vf cf).colorName.stamp .normal).at? y column).or
        (((drawRow t wsFiller win count y vf cf).name.stamp .plain).at? y column) = some cell ∧
      cell.style ≠ .standout := by
  have hname : (((drawRow t wsFiller win count y vf cf).name.stamp .plain).at? y column).isSome
      = true := by
    have hborder : borderSize = 2 := rfl
    rw [Addstr.at?_stamp_isSome_iff, length_name _ _ _ _ _ _ _ (by omega)]
    show y = y ∧ 1 ≤ column ∧ column < 1 + (win.width - borderSize)
    omega
  obtain ⟨cell, hcell⟩ := Option.isSome_iff_exists.mp hname
  cases hcolor : ((drawRow t wsFiller win count y vf cf).colorName.stamp .normal).at? y column with
  | none =>
      refine ⟨cell, by rw [hcell]; rfl, ?_⟩
      rw [Addstr.style_at?_stamp hcell]
      decide
  | some color =>
      refine ⟨color, rfl, ?_⟩
      rw [Addstr.style_at?_stamp hcolor]
      decide

/-- What is on top of the line of a row, within the border: only the highlight stands out. -/
theorem top?_stamps_drawRow (t : CallFrameTree) (wsFiller : Str) (count y : Int)
    (vf : VisualFrame) (cf : Nat) (hsize : 0 ≤ win.numberSize) {column : Int}
    (hcolumn : 1 ≤ column ∧ column < win.width - 1) :
    ∃ cell, top? (drawRow t wsFiller win count y vf cf).stamps y column = some cell ∧
      (cell.style = .standout ↔
        (drawRow t wsFiller win count y vf cf).highlight.isSome = true ∧
          column ≤ win.numberSize) := by
  obtain ⟨under, hunder, hplain⟩ := exists_under t wsFiller count y vf cf hcolumn
  cases hhighlight : (drawRow t wsFiller win count y vf cf).highlight with
  | none =>
      refine ⟨under, ?_, iff_of_false hplain (by simp)⟩
      rw [MenuRow.stamps, hhighlight]
      exact hunder
  | some highlight =>
      have htop : top? (drawRow t wsFiller win count y vf cf).stamps y column
          = ((highlight.stamp .standout).at? y column).or (some under) := by
        rw [MenuRow.stamps, hhighlight, ← hunder]
        show (((none : Option MenuCell).or _).or _).or _ = _
        rw [Option.none_or, Option.or_assoc]
      have hcovers : ((highlight.stamp .standout).at? y column).isSome = true ↔
          column ≤ win.numberSize := by
        obtain ⟨hy, hx, hlength⟩ := length_highlight hsize hhighlight
        rw [Addstr.at?_stamp_isSome_iff, hlength]
        omega
      rw [htop]
      cases hat : (highlight.stamp .standout).at? y column with
      | none =>
          rw [hat] at hcovers
          refine ⟨under, rfl, iff_of_false hplain ?_⟩
          rintro ⟨-, hle⟩
          cases hcovers.mpr hle
      | some cell =>
          rw [hat] at hcovers
          exact ⟨cell, rfl, iff_of_true (Addstr.style_at?_stamp hat) ⟨rfl, hcovers.mp rfl⟩⟩

/-- The screen shows the rows of a menu, each on its line with its later strings on top, and has the
number of the selected entry in `A_STANDOUT`, and nothing else. -/
structure ShowsRows (win : SelectVisualFrameWindow) (rows : List MenuRow) (screen : Grid MenuCell) :
    Prop where
  text : ∀ (i : Nat) row, rows[i]? = some row → ∀ column, 1 ≤ column → column < win.width - 1 →
    top? row.stamps (1 + i) column = some (screen (1 + i) column)
  standout : ∀ (i : Nat) row, rows[i]? = some row → ∀ column, 1 ≤ column → column < win.width - 1 →
    ((screen (1 + i) column).style = .standout ↔
      row.highlight.isSome = true ∧ column ≤ win.numberSize)

/-- What there is on the screen after drawing. -/
theorem showsRows_of_draw (hsize : 0 ≤ win.numberSize) {rows : List MenuRow}
    (hrows : win.rows t vft = some rows)
    (hspec : ∀ (i : Nat) row, rows[i]? = some row → ∃ count m cf,
      row = drawRow t vft.wsFiller win count (1 + i) m cf)
    {cells screen : Grid MenuCell} (hdraw : win.draw t vft cells = some screen) :
    ShowsRows win rows screen := by
  rw [draw, hrows, Option.bind_eq_bind, Option.bind_some] at hdraw
  have htop : ∀ (i : Nat) row, rows[i]? = some row → ∀ column, 1 ≤ column →
      column < win.width - 1 → ∃ cell, top? row.stamps (1 + i) column = some cell ∧
        screen (1 + i) column = cell ∧
        (cell.style = .standout ↔ row.highlight.isSome = true ∧ column ≤ win.numberSize) := by
    intro i row hrow column hleft hright
    obtain ⟨hi, hget⟩ := List.getElem?_eq_some_iff.mp hrow
    have hsplit : rows = rows.take i ++ [row] ++ rows.drop (i + 1) := by
      rw [List.append_assoc, List.singleton_append, ← hget, List.getElem_cons_drop,
        List.take_append_drop]
    obtain ⟨count, m, cf, rfl⟩ := hspec i row hrow
    obtain ⟨cell, hcell, hstyle⟩ :=
      top?_stamps_drawRow t vft.wsFiller count (1 + i) m cf hsize ⟨hleft, hright⟩
    refine ⟨cell, hcell, ?_, hstyle⟩
    rw [hsplit, List.flatMap_append, List.flatMap_append, List.flatMap_singleton] at hdraw
    refine addstrs_middle (by omega) stamps_drawRow_y ?_ hdraw hcell
    -- the rows after this one are further down
    intro s hs
    obtain ⟨later, hlater, hs⟩ := List.mem_flatMap.mp hs
    obtain ⟨j, hj⟩ := List.mem_iff_getElem?.mp hlater
    rw [List.getElem?_drop] at hj
    obtain ⟨count', m', cf', rfl⟩ := hspec _ later hj
    rw [stamps_drawRow_y s hs]
    push_cast
    omega
  constructor
  · intro i row hrow column hleft hright
    obtain ⟨cell, hcell, rfl, -⟩ := htop i row hrow column hleft hright
    exact hcell
  · intro i row hrow column hleft hright
    obtain ⟨cell, -, rfl, hstyle⟩ := htop i row hrow column hleft hright
    exact hstyle

end SelectVisualFrameWindow

end LdbToolchain.Tfg
