import Mathlib.Algebra.Order.Ring.Int
import Mathlib.Data.List.Basic

/-!
# A window of character cells

A text goes into a window one character after the other, from a line's right end to the start of the
next, and ends in an error at the window's last cell. Every character takes one cell: there are no
double-width, tab or control characters here. A text that ends on its line is a stamp: what it puts on
each cell says all about it. Stamps that agree wherever they overlap can all be read off the window
afterwards. Of any texts that come line by line, the last one on a cell is what a line shows.
-/

namespace LdbToolchain.Cells

variable {α : Type}

/-- What is on each cell of a window: row and column. -/
abbrev Grid (α : Type) := Int → Int → α

/-- One cell. -/
def put (cells : Grid α) (y x : Int) (a : α) : Grid α :=
  fun row column => if row = y ∧ column = x then a else cells row column

/-- A text from a cell of the window on, of characters that take one cell each. The character for the
last cell is an error: the cursor has nowhere to go. -/
def write (height width : Int) : Int → Int → List α → Grid α → Option (Grid α)
  | _, _, [], cells => some cells
  | y, x, a :: text, cells =>
    if x + 1 < width then write height width y (x + 1) text (put cells y x a)
    else if y + 1 < height then write height width (y + 1) 0 text (put cells y x a)
    else none

/-- A text from a cell on, which may lie outside the window. -/
def addstr (height width : Int) (y x : Int) (text : List α) (cells : Grid α) :
    Option (Grid α) :=
  if 0 ≤ y ∧ y < height ∧ 0 ≤ x ∧ x < width then write height width y x text cells else none

/-! ## Stamps -/

/-- A text at its place. -/
structure Stamp (α : Type) where
  (y x : Int)
  text : List α

namespace Stamp

/-- What a stamp has for a cell. -/
def at? (s : Stamp α) (row column : Int) : Option α :=
  if row = s.y ∧ s.x ≤ column then s.text[(column - s.x).toNat]? else none

/-- A stamp on what is there. -/
def on (s : Stamp α) (cells : Grid α) : Grid α :=
  fun row column => (s.at? row column).getD (cells row column)

/-- The stamp lies on one line of the window, above the last one. -/
structure Fits (height width : Int) (s : Stamp α) : Prop where
  top : 0 ≤ s.y
  bottom : s.y + 1 < height
  left : 0 ≤ s.x ∧ s.x < width
  right : s.x + s.text.length ≤ width

theorem at?_nil (y x row column : Int) : (Stamp.mk y x ([] : List α)).at? row column = none := by
  rw [at?]
  split <;> rfl

/-- The first character, and the rest one column further. -/
theorem at?_cons (y x : Int) (a : α) (text : List α) (row column : Int) :
    (Stamp.mk y x (a :: text)).at? row column
      = if row = y ∧ column = x then some a else (Stamp.mk y (x + 1) text).at? row column := by
  rw [at?, at?]
  dsimp only
  by_cases hfirst : row = y ∧ column = x
  · obtain ⟨rfl, rfl⟩ := hfirst
    simp
  · rw [if_neg hfirst]
    by_cases hrest : row = y ∧ x + 1 ≤ column
    · obtain ⟨rfl, hx⟩ := hrest
      have hindex : (column - x).toNat = (column - (x + 1)).toNat + 1 := by omega
      rw [if_pos ⟨rfl, by omega⟩, if_pos ⟨rfl, hx⟩, hindex, List.getElem?_cons_succ]
    · rw [if_neg (by omega), if_neg hrest]

theorem on_nil (y x : Int) (cells : Grid α) : (Stamp.mk y x []).on cells = cells := by
  funext row column
  rw [on, at?_nil, Option.getD_none]

theorem on_cons (y x : Int) (a : α) (text : List α) (cells : Grid α) :
    (Stamp.mk y x (a :: text)).on cells = (Stamp.mk y (x + 1) text).on (put cells y x a) := by
  funext row column
  rw [on, on, at?_cons, put]
  by_cases hfirst : row = y ∧ column = x
  · obtain ⟨rfl, rfl⟩ := hfirst
    have hnone : (Stamp.mk row (column + 1) text).at? row column = none := by
      rw [at?, if_neg]
      show ¬ (row = row ∧ column + 1 ≤ column)
      omega
    simp [hnone]
  · rw [if_neg hfirst, if_neg hfirst]

/-- A cell that the stamp covers. -/
theorem at?_isSome_iff (s : Stamp α) (row column : Int) :
    (s.at? row column).isSome = true ↔
      row = s.y ∧ s.x ≤ column ∧ column < s.x + s.text.length := by
  rw [at?]
  split
  next h =>
    obtain ⟨rfl, hx⟩ := h
    rw [isSome_getElem?]
    omega
  next h =>
    simp only [Option.isSome_none, Bool.false_eq_true, false_iff]
    omega

end Stamp

/-- **A text that ends on its line is a stamp.** -/
theorem write_eq {height width y x : Int} {text : List α} (cells : Grid α)
    (hbottom : y + 1 < height) (hright : x + text.length ≤ width) :
    write height width y x text cells = some ((Stamp.mk y x text).on cells) := by
  induction text generalizing x cells with
  | nil => rw [write, Stamp.on_nil]
  | cons a text ih =>
      rw [List.length_cons] at hright
      rw [write, Stamp.on_cons]
      by_cases hx : x + 1 < width
      · rw [if_pos hx, ih _ (by omega)]
      · -- the last character of the line
        have hnil : text = [] := List.length_eq_zero_iff.mp (by omega)
        rw [if_neg hx, if_pos hbottom, hnil, write, Stamp.on_nil]

theorem addstr_eq {height width : Int} {s : Stamp α} (h : s.Fits height width)
    (cells : Grid α) : addstr height width s.y s.x s.text cells = some (s.on cells) := by
  have htop := h.top
  have hbottom := h.bottom
  rw [addstr, if_pos ⟨htop, by omega, h.left⟩]
  exact write_eq cells hbottom h.right

/-! ## Several stamps -/

/-- One text after the other. -/
def addstrs (height width : Int) (stamps : List (Stamp α)) (cells : Grid α) : Option (Grid α) :=
  stamps.foldlM (fun cells s => addstr height width s.y s.x s.text cells) cells

/-- The stamps agree wherever they overlap. -/
def Agree (stamps : List (Stamp α)) : Prop :=
  ∀ s ∈ stamps, ∀ s' ∈ stamps, ∀ row column a a', s.at? row column = some a →
    s'.at? row column = some a' → a = a'

theorem foldl_on_of_forall_none {stamps : List (Stamp α)} {row column : Int} (cells : Grid α)
    (h : ∀ s ∈ stamps, s.at? row column = none) :
    stamps.foldl (fun cells s => s.on cells) cells row column = cells row column := by
  induction stamps generalizing cells with
  | nil => rfl
  | cons s stamps ih =>
      obtain ⟨hs, hstamps⟩ := List.forall_mem_cons.mp h
      rw [List.foldl_cons, ih _ hstamps, Stamp.on, hs, Option.getD_none]

theorem foldl_on_of_mem {stamps : List (Stamp α)} {row column : Int} {a : α}
    (hcover : ∃ s ∈ stamps, s.at? row column = some a)
    (hagree : ∀ s ∈ stamps, ∀ a', s.at? row column = some a' → a' = a) (cells : Grid α) :
    stamps.foldl (fun cells s => s.on cells) cells row column = a := by
  induction stamps generalizing cells with
  | nil =>
      obtain ⟨s, hs, -⟩ := hcover
      cases hs
  | cons s stamps ih =>
      obtain ⟨hs, hrest⟩ := List.forall_mem_cons.mp hagree
      rw [List.foldl_cons]
      by_cases hlater : ∃ s' ∈ stamps, s'.at? row column = some a
      · exact ih hlater hrest _
      · -- the last stamp that covers the cell
        have hnone : ∀ s' ∈ stamps, s'.at? row column = none := by
          intro s' hs'
          cases hat : s'.at? row column with
          | none => rfl
          | some a' => exact absurd ⟨s', hs', by rw [hat, hrest s' hs' a' hat]⟩ hlater
        rw [foldl_on_of_forall_none _ hnone, Stamp.on]
        obtain ⟨s', hs', hat⟩ := hcover
        rcases List.mem_cons.mp hs' with rfl | hs'
        · rw [hat, Option.getD_some]
        · rw [hnone s' hs'] at hat
          cases hat

/-- **Stamps that fit and agree are all there in the end**, and the other cells are as before. -/
theorem addstrs_spec {height width : Int} {stamps : List (Stamp α)}
    (hfits : ∀ s ∈ stamps, s.Fits height width) (hagree : Agree stamps) (cells : Grid α) :
    ∃ cells', addstrs height width stamps cells = some cells' ∧
      (∀ s ∈ stamps, ∀ row column a, s.at? row column = some a → cells' row column = a) ∧
      ∀ row column, (∀ s ∈ stamps, s.at? row column = none) →
        cells' row column = cells row column := by
  have hrun : addstrs height width stamps cells
      = some (stamps.foldl (fun cells s => s.on cells) cells) := by
    clear hagree
    induction stamps generalizing cells with
    | nil => rfl
    | cons s stamps ih =>
        obtain ⟨hs, hrest⟩ := List.forall_mem_cons.mp hfits
        rw [addstrs, List.foldlM_cons, addstr_eq hs]
        exact ih hrest _
  refine ⟨_, hrun, ?_, fun row column h => foldl_on_of_forall_none cells h⟩
  intro s hs row column a ha
  apply foldl_on_of_mem ⟨s, hs, ha⟩
  intro s' hs' a' ha'
  exact hagree s' hs' s hs row column a' a ha' ha

/-! ## Texts of any length -/

variable {height width y x : Int} {text : List α} {cells cells' : Grid α}

/-- The text starts in the window and ends before the window's last cell. -/
structure Stamp.Inside (height width : Int) (s : Stamp α) : Prop where
  row : 0 ≤ s.y ∧ s.y < height
  column : 0 ≤ s.x ∧ s.x < width
  last : s.y * width + s.x + s.text.length < height * width

/-- Counted from the window's first cell, a text must end before the last one. -/
theorem write_isSome_iff (hy : y < height) (hx : 0 ≤ x ∧ x < width) (cells : Grid α) :
    (write height width y x text cells).isSome = true ↔
      y * width + x + text.length < height * width := by
  induction text generalizing y x cells with
  | nil =>
      have hlines : (y + 1) * width ≤ height * width :=
        mul_le_mul_of_nonneg_right (by omega) (by omega)
      rw [add_mul, one_mul] at hlines
      refine iff_of_true rfl ?_
      rw [List.length_nil, Nat.cast_zero]
      omega
  | cons a text ih =>
      rw [write, List.length_cons, Nat.cast_succ]
      by_cases hright : x + 1 < width
      · rw [if_pos hright, ih hy ⟨by omega, hright⟩]
        constructor <;> intro h <;> omega
      · have hend : x + 1 = width := by omega
        rw [if_neg hright]
        by_cases hbottom : y + 1 < height
        · rw [if_pos hbottom, ih hbottom ⟨le_rfl, by omega⟩, add_mul, one_mul]
          constructor <;> intro h <;> omega
        · -- the last cell
          rw [if_neg hbottom, show height = y + 1 by omega, add_mul, one_mul]
          refine iff_of_false (by simp) ?_
          omega

/-- **What a text leaves on the lines above it, and on its first line.** -/
theorem write_spec (h : write height width y x text cells = some cells') :
    (∀ row column, row < y → cells' row column = cells row column) ∧
    ∀ column, column < width → cells' y column = (Stamp.mk y x text).on cells y column := by
  induction text generalizing y x cells with
  | nil =>
      rw [write] at h
      cases h
      exact ⟨fun _ _ _ => rfl, fun _ _ => by rw [Stamp.on_nil]⟩
  | cons a text ih =>
      have hput : ∀ row column, row < y → put cells y x a row column = cells row column := by
        intro row column hrow
        rw [put, if_neg (by omega)]
      rw [write] at h
      rw [Stamp.on_cons]
      split at h
      next =>
        obtain ⟨habove, hline⟩ := ih h
        exact ⟨fun row column hrow => (habove row column hrow).trans (hput row column hrow), hline⟩
      next hright =>
        split at h
        next =>
          -- the rest is below
          obtain ⟨habove, -⟩ := ih h
          refine ⟨fun row column hrow => ?_, fun column hcolumn => ?_⟩
          · rw [habove row column (by omega), hput row column hrow]
          · rw [habove y column (by omega), Stamp.on, Stamp.at?, if_neg, Option.getD_none]
            show ¬ (y = y ∧ x + 1 ≤ column)
            omega
        next => cases h

theorem addstr_isSome_iff (s : Stamp α) (cells : Grid α) :
    (addstr height width s.y s.x s.text cells).isSome = true ↔ s.Inside height width := by
  rw [addstr]
  split
  next h =>
    obtain ⟨htop, hbottom, hleft, hright⟩ := h
    rw [write_isSome_iff hbottom ⟨hleft, hright⟩]
    exact ⟨fun hlast => ⟨⟨htop, hbottom⟩, ⟨hleft, hright⟩, hlast⟩, fun hinside => hinside.last⟩
  next h =>
    refine iff_of_false (by simp) fun hinside => h ?_
    exact ⟨hinside.row.1, hinside.row.2, hinside.column⟩

theorem addstr_spec {s : Stamp α} (h : addstr height width s.y s.x s.text cells = some cells') :
    (∀ row column, row < s.y → cells' row column = cells row column) ∧
    ∀ column, column < width → cells' s.y column = s.on cells s.y column := by
  rw [addstr, Option.ite_none_right_eq_some] at h
  exact write_spec h.2

theorem addstrs_cons_eq_some {s : Stamp α} {stamps : List (Stamp α)} :
    addstrs height width (s :: stamps) cells = some cells' ↔
      ∃ between, addstr height width s.y s.x s.text cells = some between ∧
        addstrs height width stamps between = some cells' := by
  rw [addstrs, List.foldlM_cons, Option.bind_eq_bind, Option.bind_eq_some_iff]
  rfl

/-- **All goes well exactly when no text reaches the last cell.** -/
theorem addstrs_isSome_iff {stamps : List (Stamp α)} (cells : Grid α) :
    (addstrs height width stamps cells).isSome = true ↔ ∀ s ∈ stamps, s.Inside height width := by
  induction stamps generalizing cells with
  | nil => exact iff_of_true rfl (by simp)
  | cons s stamps ih =>
      rw [List.forall_mem_cons, ← addstr_isSome_iff s cells, addstrs, List.foldlM_cons]
      cases addstr height width s.y s.x s.text cells with
      | none => exact iff_of_false (by simp) (by simp)
      | some between => exact (ih between).trans (and_iff_right rfl).symm

/-! ## Line by line -/

/-- What the last of the stamps on a cell has for it. -/
def top? : List (Stamp α) → Int → Int → Option α
  | [], _, _ => none
  | s :: stamps, row, column => (top? stamps row column).or (s.at? row column)

/-- Texts further down leave a line alone. -/
theorem addstrs_above {stamps : List (Stamp α)} {row column : Int}
    (hbelow : ∀ s ∈ stamps, row < s.y) (h : addstrs height width stamps cells = some cells') :
    cells' row column = cells row column := by
  induction stamps generalizing cells with
  | nil =>
      cases h
      rfl
  | cons s stamps ih =>
      obtain ⟨hs, hrest⟩ := List.forall_mem_cons.mp hbelow
      obtain ⟨between, hfirst, hrun⟩ := addstrs_cons_eq_some.mp h
      rw [ih hrest hrun, (addstr_spec hfirst).1 row column hs]

/-- What the texts of one line leave there. -/
theorem addstrs_line {stamps : List (Stamp α)} {row column : Int} (hcolumn : column < width)
    (hline : ∀ s ∈ stamps, s.y = row) (h : addstrs height width stamps cells = some cells') :
    cells' row column = (top? stamps row column).getD (cells row column) := by
  induction stamps generalizing cells with
  | nil =>
      cases h
      rfl
  | cons s stamps ih =>
      obtain ⟨rfl, hrest⟩ := List.forall_mem_cons.mp hline
      obtain ⟨between, hfirst, hrun⟩ := addstrs_cons_eq_some.mp h
      rw [ih hrest hrun, (addstr_spec hfirst).2 column hcolumn, Stamp.on, top?]
      cases top? stamps s.y column <;> rfl

/-- A line in the middle: the texts above may run into it, but its own come later. -/
theorem addstrs_middle {above line below : List (Stamp α)} {row column : Int} {a : α}
    (hcolumn : column < width) (hline : ∀ s ∈ line, s.y = row) (hbelow : ∀ s ∈ below, row < s.y)
    (h : addstrs height width (above ++ line ++ below) cells = some cells')
    (htop : top? line row column = some a) : cells' row column = a := by
  rw [addstrs, List.foldlM_append, List.foldlM_append, Option.bind_eq_bind,
    Option.bind_eq_some_iff] at h
  obtain ⟨through, hthrough, hlast⟩ := h
  obtain ⟨before, -, hmine⟩ := Option.bind_eq_some_iff.mp hthrough
  rw [addstrs_above hbelow hlast, addstrs_line hcolumn hline hmine, htop, Option.getD_some]

end LdbToolchain.Cells
