import LdbToolchain.Lib.Levels
import LdbToolchain.Tfg.Browser
import LdbToolchain.Tfg.Layout

/-!
# The rows of the picture

`level_traversal` cuts the breadth-first traversal where `y` changes. That gives the levels of the
tree because `y` is the depth, in zoomed trees too, and breadth first is by depth; `draw` paints one
level on each row of the screen, from the bottom up.
-/

namespace LdbToolchain.Tfg

open LdbToolchain.Levels

/-- A frame of a tree: its address, and what hangs there. -/
abbrev Place := List Nat × Rose VisualFrameNode

/-- `bfs_traversal`. -/
def bfsTraversal (tree : Rose VisualFrameNode) : List Place := Rose.bfs [([], tree)]

/-- `vf.y`. -/
def rowOf (vf : Place) : Int := vf.2.label.y

/-- `level_traversal`. -/
def levelTraversal (tree : Rose VisualFrameNode) : List (List Place) :=
  runs rowOf (bfsTraversal tree)

/-- What `addstr` puts on the screen for a frame; the colours are left out. -/
structure Painted where
  (y x : Int)
  text : Str
  /-- In the lighter colour of the zoomed frames. -/
  lighter : Bool
  /-- `A_STANDOUT`, for the current frame. -/
  standout : Bool
  deriving DecidableEq

/-- `_draw_frame`. -/
def drawFrame (currentVf : List Nat → Bool) (y : Int) (vf : Place) : Painted where
  y
  x := vf.2.label.x
  text := vf.2.label.text
  lighter := vf.2.label.zoomed
  standout := currentVf vf.1

/-- The loop of `FlameGraphWindow.draw`. No level is empty, so each has a first frame. -/
def drawLevels (startLevel : Int) (currentVf : List Nat → Bool) :
    Int → List (List Place) → List Painted
  | _, [] => []
  | y, vfs :: levels =>
    if (vfs.head?.map rowOf).getD 0 < startLevel then drawLevels startLevel currentVf y levels
    else
      let drawn := (vfs.filter fun vf => vf.2.label.width ≠ 0).map (drawFrame currentVf y)
      let y := y - 1
      if y < 0 then drawn else drawn ++ drawLevels startLevel currentVf y levels

/-- `FlameGraphWindow.draw`: what it paints of a tree, within the border. -/
def FlameGraphWindow.draw (win : FlameGraphWindow) (tree : Rose VisualFrameNode)
    (currentVf : List Nat → Bool) : List Painted :=
  drawLevels win.startLevel currentVf (win.height - 2) (levelTraversal tree)

/-! ## Levels -/

/-- The frames at a depth, breadth first. -/
def level (tree : Rose VisualFrameNode) (k : Nat) : List Place :=
  (bfsTraversal tree).filter fun vf => vf.1.length = k

variable {tree : Rose VisualFrameNode}

theorem map_fst_bfsTraversal (tree : Rose VisualFrameNode) :
    (bfsTraversal tree).map Prod.fst = tree.bfsTraversal := rfl

theorem mem_bfsTraversal {vf : Place} :
    vf ∈ bfsTraversal tree ↔ tree.subtree? vf.1 = some vf.2 := by
  constructor
  · apply Rose.subtree?_of_mem_bfs
    intro x hx
    rw [List.mem_singleton.mp hx]
    rfl
  · intro h
    have hmem : (([] : List Nat) ++ vf.1, vf.2) ∈ Rose.bfs [([], tree)] :=
      Rose.mem_bfs_of_subtree? List.mem_cons_self h
    exact hmem

theorem mem_level {k : Nat} {vf : Place} :
    vf ∈ level tree k ↔ tree.subtree? vf.1 = some vf.2 ∧ vf.1.length = k := by
  rw [level, List.mem_filter, mem_bfsTraversal, decide_eq_true_eq]

/-- A row of the picture is a depth of the tree. -/
def RowsAreDepths (tree : Rose VisualFrameNode) : Prop :=
  ∀ p s, tree.subtree? p = some s → s.label.y = p.length

theorem rowOf_of_mem (hrows : RowsAreDepths tree) {vf : Place} (hvf : vf ∈ bfsTraversal tree) :
    rowOf vf = vf.1.length :=
  hrows vf.1 vf.2 (mem_bfsTraversal.mp hvf)

/-- Breadth first, rows go up one at a time. -/
theorem climbs_bfsTraversal (hrows : RowsAreDepths tree) : Climbs rowOf (bfsTraversal tree) := by
  have hdepth := tree.depth_bfsTraversal
  rw [← map_fst_bfsTraversal, List.isChain_map] at hdepth
  refine List.IsChain.imp_of_mem_imp ?_ hdepth
  intro vf wf hvf hwf hstep
  rw [rowOf_of_mem hrows hvf, rowOf_of_mem hrows hwf]
  omega

/-- **The levels of the traversal are the levels of the tree**, from the head to the deepest. -/
theorem levelTraversal_eq (hrows : RowsAreDepths tree) :
    ∃ n, levelTraversal tree = (List.range (n + 1)).map (level tree) ∧
      ∀ k, (∃ p s, tree.subtree? p = some s ∧ p.length = k) ↔ k ≤ n := by
  have hhead : (bfsTraversal tree).head? = some ([], tree) := Rose.head?_bfs _
  obtain ⟨n, hruns, hle, vf, hvf, hlast⟩ := runs_eq hhead (climbs_bfsTraversal hrows)
  have hzero : rowOf ([], tree) = 0 := hrows [] tree rfl
  rw [hzero] at hruns hle hlast
  refine ⟨n, ?_, ?_⟩
  · rw [levelTraversal, hruns]
    apply List.map_congr_left
    intro k _
    apply List.filter_congr
    intro wf hwf
    rw [rowOf_of_mem hrows hwf, Int.zero_add, decide_eq_decide]
    exact Int.ofNat_inj
  · intro k
    constructor
    · rintro ⟨p, s, hs, rfl⟩
      have hmem : (p, s) ∈ bfsTraversal tree := mem_bfsTraversal.mpr hs
      have hrank := hle (p, s) hmem
      rw [rowOf_of_mem hrows hmem, Int.zero_add] at hrank
      exact Int.ofNat_le.mp hrank
    · intro hk
      -- on the way down to a deepest frame there is one at every depth
      have hdeep := mem_bfsTraversal.mp hvf
      have hlength : vf.1.length = n := by
        rw [rowOf_of_mem hrows hvf] at hlast
        omega
      rw [← List.take_append_drop k vf.1, Rose.subtree?_append, Option.bind_eq_some_iff] at hdeep
      obtain ⟨s, hs, -⟩ := hdeep
      exact ⟨vf.1.take k, s, hs, by rw [List.length_take, hlength, Nat.min_eq_left hk]⟩

/-! ## Painting -/

/-- The frames of a level that are painted, on the row `y` of the screen. -/
def paintLevel (tree : Rose VisualFrameNode) (currentVf : List Nat → Bool) (y : Int) (k : Nat) :
    List Painted :=
  ((level tree k).filter fun vf => vf.2.label.width ≠ 0).map (drawFrame currentVf y)

theorem exists_head_level {k : Nat} (hrows : RowsAreDepths tree)
    (hk : ∃ p s, tree.subtree? p = some s ∧ p.length = k) :
    (level tree k).head?.map rowOf = some (k : Int) := by
  obtain ⟨p, s, hs, hlength⟩ := hk
  have hmem : (p, s) ∈ level tree k := mem_level.mpr ⟨hs, hlength⟩
  obtain ⟨vf, rest, hlevel⟩ := List.exists_cons_of_ne_nil (List.ne_nil_of_mem hmem)
  have hvf : vf ∈ level tree k := by
    rw [hlevel]
    exact List.mem_cons_self
  obtain ⟨hsubtree, hdepth⟩ := mem_level.mp hvf
  rw [hlevel, List.head?_cons, Option.map_some, rowOf, hrows _ _ hsubtree, hdepth]

/-- The loop from a level on display on: one level after the other, each a row higher, up to the top
of the window. -/
theorem drawLevels_map (hrows : RowsAreDepths tree) (startLevel : Int)
    (currentVf : List Nat → Bool) {k m : Nat}
    (hdepths : ∀ j < k + m, ∃ p s, tree.subtree? p = some s ∧ p.length = j) (y : Int)
    (hstart : startLevel ≤ k) :
    drawLevels startLevel currentVf y ((List.range' k m).map (level tree))
      = ((List.range m).filter fun i : Nat => i = 0 ∨ (i : Int) ≤ y).flatMap fun i : Nat =>
          paintLevel tree currentVf (y - i) (k + i) := by
  induction m generalizing k y with
  | zero => rfl
  | succ m ih =>
      have hhead := exists_head_level hrows (hdepths k (by omega))
      rw [List.range'_succ, List.map_cons, drawLevels, hhead, Option.getD_some,
        if_neg (by omega), List.range_succ_eq_map, List.filter_cons_of_pos (by simp),
        List.flatMap_cons, Nat.cast_zero, Int.sub_zero, Nat.add_zero]
      by_cases hy : y - 1 < 0
      · have hnone : ((List.range m).map Nat.succ).filter (fun i : Nat => i = 0 ∨ (i : Int) ≤ y) = [] := by
          rw [List.filter_eq_nil_iff]
          intro i hi
          obtain ⟨j, -, rfl⟩ := List.mem_map.mp hi
          rw [decide_eq_true_eq]
          omega
        rw [if_pos hy, hnone, List.flatMap_nil, List.append_nil]
        rfl
      · rw [if_neg hy, ih (fun j hj => hdepths j (by omega)) (y - 1) (by omega), List.filter_map,
          List.flatMap_map]
        have hfilter : (List.range m).filter (fun i : Nat => i = 0 ∨ (i : Int) ≤ y - 1)
            = (List.range m).filter ((fun i : Nat => decide (i = 0 ∨ (i : Int) ≤ y)) ∘ Nat.succ) := by
          apply List.filter_congr
          intro i _
          show decide _ = decide _
          rw [decide_eq_decide]
          omega
        rw [hfilter]
        congr 1
        apply List.flatMap_congr
        intro i _
        have hrow : y - 1 - (i : Int) = y - (i.succ : Int) := by omega
        have hlevel : k + 1 + i = k + i.succ := by omega
        rw [hrow, hlevel]

/-- Levels below the first one on display are skipped. -/
theorem drawLevels_append {startLevel : Int} (currentVf : List Nat → Bool) (y : Int)
    {below : List (List Place)} (levels : List (List Place))
    (hbelow : ∀ vfs ∈ below, (vfs.head?.map rowOf).getD 0 < startLevel) :
    drawLevels startLevel currentVf y (below ++ levels)
      = drawLevels startLevel currentVf y levels := by
  induction below with
  | nil => rfl
  | cons vfs below ih =>
      obtain ⟨hfirst, hrest⟩ := List.forall_mem_cons.mp hbelow
      rw [List.cons_append, drawLevels, if_pos hfirst, ih hrest]

/-- The level on display on the lowest row. -/
def FlameGraphWindow.firstLevel (win : FlameGraphWindow) : Nat := win.startLevel.toNat

/-- What `draw` paints: the levels from the first one on, each a row higher than the one before, as
far as there are levels and rows. -/
theorem draw_eq (hrows : RowsAreDepths tree) {n : Nat}
    (hlevels : levelTraversal tree = (List.range (n + 1)).map (level tree))
    (hdepths : ∀ k, (∃ p s, tree.subtree? p = some s ∧ p.length = k) ↔ k ≤ n)
    (win : FlameGraphWindow) (currentVf : List Nat → Bool) :
    win.draw tree currentVf
      = ((List.range (n + 1 - win.firstLevel)).filter fun i : Nat =>
            i = 0 ∨ (i : Int) ≤ win.height - 2).flatMap fun i : Nat =>
          paintLevel tree currentVf (win.height - 2 - i) (win.firstLevel + i) := by
  have hdepth : ∀ j < n + 1, ∃ p s, tree.subtree? p = some s ∧ p.length = j := by
    intro j hj
    exact (hdepths j).mpr (by omega)
  have hskipped : ∀ m ≤ n + 1, (m : Int) ≤ win.firstLevel →
      ∀ vfs ∈ (List.range m).map (level tree),
        (vfs.head?.map rowOf).getD 0 < win.startLevel := by
    intro m hm hfirst vfs hvfs
    obtain ⟨k, hk, rfl⟩ := List.mem_map.mp hvfs
    have hk := List.mem_range.mp hk
    rw [FlameGraphWindow.firstLevel] at hfirst
    rw [exists_head_level hrows (hdepth k (by omega)), Option.getD_some]
    omega
  rw [FlameGraphWindow.draw, hlevels]
  rcases Nat.lt_or_ge n win.firstLevel with hlow | hhigh
  · -- the window is above the picture
    have hall := drawLevels_append currentVf (win.height - 2) []
      (hskipped (n + 1) le_rfl (by omega))
    rw [List.append_nil] at hall
    rw [hall, Nat.sub_eq_zero_of_le hlow]
    rfl
  · obtain ⟨m, hm⟩ := Nat.exists_eq_add_of_le hhigh
    have hsplit : List.range (n + 1)
        = List.range win.firstLevel ++ List.range' win.firstLevel (m + 1) := by
      have happend := List.range'_append_1 (s := 0) (m := win.firstLevel) (n := m + 1)
      rw [Nat.zero_add] at happend
      rw [List.range_eq_range', List.range_eq_range', happend, hm]
      rfl
    have hlength : n + 1 - win.firstLevel = m + 1 := by omega
    rw [hsplit, List.map_append, drawLevels_append currentVf _ _
      (hskipped win.firstLevel (by omega) le_rfl), hlength]
    apply drawLevels_map hrows
    · intro j hj
      exact hdepth j (by omega)
    · rw [FlameGraphWindow.firstLevel]
      omega

end LdbToolchain.Tfg
