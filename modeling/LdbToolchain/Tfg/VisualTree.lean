import LdbToolchain.Lib.Rose
import LdbToolchain.Tfg.CallTree

/-!
# The visual tree of the flame-graph browser

`rebuild_tree` lays the call tree out on the screen. A visual tree is a rose tree, so a visual frame
is named by its address in the tree and its parents are the labels above it; a call frame is an
address in the call tree. The members of a `combined_frames` list have no children and are labels
without more.

`createVfChildren_eq` takes the loop of `_create_vf_children` apart: the frames made for the children
one after the other (`rowFrames`), those of them that are visible, and the '+' frame.
-/

namespace LdbToolchain.Tfg

/-! ## Strings and widths -/

/-- `text[:n]`. -/
def sliceTo (text : Str) (n : Int) : Str :=
  if 0 ≤ n then text.take n.toNat else text.take (text.length + n).toNat

/-- `s * n`. -/
def repeatStr (s : Str) (n : Int) : Str := (List.replicate n.toNat s).flatten

/-- `fit_string`. -/
def fitString (text : Str) (width : Int) (wsFiller : Str) : Str :=
  if text.length < width then sliceTo text width ++ repeatStr wsFiller (width - text.length)
  else sliceTo text width

/-- `calculate_width`; `//` rounds down. -/
def calculateWidth (count parentCount parentWidth : Int) : Int :=
  if parentCount ≠ 0 then (count * parentWidth).fdiv parentCount else 0

/-! ## Frames -/

structure VisualFrame where
  (x y count width : Int)
  text : Str
  /-- The call frame drawn, none for the '+' frame. -/
  cf : Option Nat
  zoomed : Bool

structure VisualFrameNode extends VisualFrame where
  combinedFrames : List VisualFrame

/-- A frame that combines no others. -/
def VisualFrame.single (vf : VisualFrame) : VisualFrameNode := { vf with combinedFrames := [] }

/-- What `rebuild_tree` reads of the fields of a `VisualFrameTree`. -/
structure Canvas where
  (x width : Int)
  wsFiller : Str
  withCombinedFrames : Bool

/-- `sorted(cf.frames, key=lambda c: c.name, reverse=True)`. -/
def CallFrameTree.sortedFrames (t : CallFrameTree) (cf : Nat) : List Nat :=
  (t.frames cf).mergeSort fun c d => (t.node d).name ≤ (t.node c).name

theorem CallFrameTree.sortedFrames_perm (t : CallFrameTree) (cf : Nat) :
    (t.sortedFrames cf).Perm (t.frames cf) := List.mergeSort_perm _ _

/-- `_create_vf`. -/
def createVf (t : CallFrameTree) (canvas : Canvas) (x y : Int) (parentVf : VisualFrame) (cf : Nat)
    (hasCombined : Bool) : VisualFrame :=
  let width := if hasCombined then parentVf.width - 1 else parentVf.width
  let width := calculateWidth (t.node cf).count parentVf.count width
  let text := fitString (t.node cf).name width canvas.wsFiller
  { x := x - width, y, count := (t.node cf).count, width, text, cf := some cf, zoomed := false }

/-- The '+' frame of a row that ends at `x`. -/
def plusVf (x y : Int) (combinedVfs : List VisualFrame) : VisualFrameNode where
  x := x - 1
  y
  count := (combinedVfs.map (·.count)).sum
  width := 1
  text := ['+']
  cf := none
  zoomed := false
  combinedFrames := combinedVfs

/-- The variables of the loop of `_create_vf_children`. -/
structure RowState where
  x : Int
  frames : List (Rose VisualFrameNode)
  combinedVfs : List VisualFrame

/-- The widths of the first pass. -/
def vfWidths (t : CallFrameTree) (vf : VisualFrame) (cf : Nat) : List Int :=
  (t.frames cf).map fun c => calculateWidth (t.node c).count vf.count vf.width

/-- `has_combined`, where `min` of the widths is taken of a non-empty list. -/
def hasCombined (t : CallFrameTree) (canvas : Canvas) (vf : VisualFrame) (cf : Nat) : Bool :=
  canvas.withCombinedFrames && (vfWidths t vf cf).min? = some 0

/-- One column is kept free for the '+' frame. -/
def keepsColumn (t : CallFrameTree) (canvas : Canvas) (vf : VisualFrame) (cf : Nat) : Bool :=
  hasCombined t canvas vf cf && (vfWidths t vf cf).sum = vf.width

/-- The body of the loop of `_create_vf_children`, with the recursive call as `build`. -/
def placeChild (t : CallFrameTree) (canvas : Canvas) (vf : VisualFrame) (cf : Nat)
    (build : VisualFrame → List (Rose VisualFrameNode)) (row : RowState) (childCf : Nat) :
    RowState :=
  let childVf := createVf t canvas row.x (vf.y + 1) vf childCf (keepsColumn t canvas vf cf)
  let x := row.x - childVf.width
  if childVf.width > 0 then
    { row with x, frames := row.frames ++ [.node childVf.single (build childVf)] }
  else { row with x, combinedVfs := row.combinedVfs ++ [childVf] }

/-- `_create_vf_children`: the children it appends to `vf.frames`, which is empty before. -/
def createVfChildren (t : CallFrameTree) (canvas : Canvas) (vf : VisualFrame) (cf : Nat) :
    List (Rose VisualFrameNode) :=
  if t.frames cf = [] then []
  else
    let row := (t.sortedFrames cf).attach.foldl (fun row childCf =>
      placeChild t canvas vf cf (fun childVf => createVfChildren t canvas childVf childCf.1) row
        childCf.1) ⟨vf.x + vf.width, [], []⟩
    if hasCombined t canvas vf cf then
      row.frames ++ [.node (plusVf row.x (vf.y + 1) row.combinedVfs) []]
    else row.frames
termination_by t.heap.next - cf
decreasing_by
  have hmem := (t.sortedFrames_perm cf).mem_iff.mp childCf.2
  have hlt := CallFrameTree.lt_of_mem_frames hmem
  omega

/-! ## Zooming -/

/-- The frame `_create_start_vf` makes for one of the parents of the frame to zoom into. Without a
call frame, reading its name is an error. -/
def zoomedVf (t : CallFrameTree) (canvas : Canvas) (parent : VisualFrame) : Option VisualFrame :=
  parent.cf.map fun cf =>
    { x := canvas.x
      y := parent.y
      count := parent.count
      width := canvas.width
      text := fitString (t.node cf).name canvas.width canvas.wsFiller
      cf := some cf
      zoomed := true }

/-- The head of every visual tree. -/
def headVf (t : CallFrameTree) (canvas : Canvas) : VisualFrame where
  x := canvas.x
  y := 0
  count := (t.node t.head).count
  width := canvas.width
  text := fitString (t.node t.head).name canvas.width canvas.wsFiller
  cf := some t.head
  zoomed := true

/-- Zoomed frames, each the only child of the one before; the last gets the children `build` makes. -/
def zoomChain (build : VisualFrame → List (Rose VisualFrameNode)) :
    VisualFrame → List VisualFrame → Rose VisualFrameNode
  | vf, [] => .node vf.single (build vf)
  | vf, next :: rest => .node vf.single [zoomChain build next rest]

/-- `start_vf_parents[:-1][::-1]`, for a frame to zoom into given with its parents, from the frame
itself up to the head. -/
def startParents (startVf : Option (List VisualFrame)) : List VisualFrame :=
  (startVf.getD []).dropLast.reverse

/-- `rebuild_tree`: the new tree, if there is no error. The frame to zoom into is given with its
parents, from the frame itself up to the head. -/
def rebuildTree (t : CallFrameTree) (canvas : Canvas) (startVf : Option (List VisualFrame)) :
    Option (Rose VisualFrameNode) :=
  ((startParents startVf).mapM (zoomedVf t canvas)).map fun chain =>
    zoomChain (fun vf => vf.cf.elim [] (createVfChildren t canvas vf)) (headVf t canvas) chain

/-- A frame that can be zoomed into, with its parents: one that shows a call frame, or a member of
the frames combined below the frame at `p`. -/
inductive ZoomTarget (tree : Rose VisualFrameNode) : List VisualFrame → Prop
  | frame {p : List Nat} {s : Rose VisualFrameNode} {labels : List VisualFrameNode} :
      tree.subtree? p = some s → s.label.cf.isSome = true → tree.spine p = some labels →
      ZoomTarget tree (labels.map (·.toVisualFrame)).reverse
  | member {p : List Nat} {s plus : Rose VisualFrameNode} {labels : List VisualFrameNode}
      {m : VisualFrame} :
      tree.subtree? p = some s → plus ∈ s.children → m ∈ plus.label.combinedFrames →
      tree.spine p = some labels →
      ZoomTarget tree (m :: (labels.map (·.toVisualFrame)).reverse)

/-- The visual trees of a call tree: each is built by `rebuild_tree` without a frame to zoom into,
or with one of an earlier tree. -/
inductive Built (t : CallFrameTree) : Rose VisualFrameNode → Prop
  | initial {canvas : Canvas} {tree : Rose VisualFrameNode} :
      rebuildTree t canvas none = some tree → Built t tree
  | zoom {canvas : Canvas} {earlier tree : Rose VisualFrameNode} {startVf : List VisualFrame} :
      Built t earlier → ZoomTarget earlier startVf →
      rebuildTree t canvas (some startVf) = some tree → Built t tree

/-- The arguments of `rebuild_tree`: no frame to zoom into, or one of an earlier tree. -/
inductive StartVf (t : CallFrameTree) : Option (List VisualFrame) → Prop
  | head : StartVf t none
  | zoom {earlier : Rose VisualFrameNode} {startVf : List VisualFrame} :
      Built t earlier → ZoomTarget earlier startVf → StartVf t (some startVf)

/-- The address of the zoomed frame in the new tree. -/
def startAddress (startVf : Option (List VisualFrame)) : List Nat :=
  List.replicate (startParents startVf).length 0

/-! ## The loop -/

/-- The frames made for the call frames `cfs`, from `x` to the left. -/
def rowFrames (t : CallFrameTree) (canvas : Canvas) (vf : VisualFrame) (shrunk : Bool) :
    Int → List Nat → List VisualFrame
  | _, [] => []
  | x, c :: cs =>
      let childVf := createVf t canvas x (vf.y + 1) vf c shrunk
      childVf :: rowFrames t canvas vf shrunk (x - childVf.width) cs

/-- A frame with its children. -/
def expand (t : CallFrameTree) (canvas : Canvas) (vf : VisualFrame) : Rose VisualFrameNode :=
  .node vf.single (vf.cf.elim [] (createVfChildren t canvas vf))

/-- The row of children of `vf`. -/
def childRow (t : CallFrameTree) (canvas : Canvas) (vf : VisualFrame) (cf : Nat) :
    List VisualFrame :=
  rowFrames t canvas vf (keepsColumn t canvas vf cf) (vf.x + vf.width) (t.sortedFrames cf)

/-- The children that get a column. -/
def visible (row : List VisualFrame) : List VisualFrame := row.filter (·.width > 0)

/-- The children that get none. -/
def combined (row : List VisualFrame) : List VisualFrame := row.filter fun vf => ¬ vf.width > 0

/-- Where a row from `x` to the left ends. -/
def rowEnd (x : Int) (row : List VisualFrame) : Int := x - (row.map (·.width)).sum

/-- One turn of the loop. -/
theorem placeChild_eq (t : CallFrameTree) (canvas : Canvas) (vf : VisualFrame) (cf c : Nat)
    (row : RowState) :
    placeChild t canvas vf cf (fun childVf => createVfChildren t canvas childVf c) row c =
      let childVf := createVf t canvas row.x (vf.y + 1) vf c (keepsColumn t canvas vf cf)
      ⟨row.x - childVf.width, row.frames ++ (visible [childVf]).map (expand t canvas),
        row.combinedVfs ++ combined [childVf]⟩ := by
  have hexpand : expand t canvas
      (createVf t canvas row.x (vf.y + 1) vf c (keepsColumn t canvas vf cf))
      = .node (createVf t canvas row.x (vf.y + 1) vf c (keepsColumn t canvas vf cf)).single
          (createVfChildren t canvas
            (createVf t canvas row.x (vf.y + 1) vf c (keepsColumn t canvas vf cf)) c) := rfl
  unfold placeChild
  generalize createVf t canvas row.x (vf.y + 1) vf c (keepsColumn t canvas vf cf) = childVf
    at hexpand ⊢
  by_cases hwidth : childVf.width > 0
  · simp [hwidth, visible, combined, hexpand]
  · simp [hwidth, not_lt.mp hwidth, visible, combined]

/-- The loop, from any state. -/
theorem foldl_placeChild (t : CallFrameTree) (canvas : Canvas) (vf : VisualFrame) (cf : Nat)
    (cfs : List Nat) (row : RowState) :
    cfs.foldl (fun row c =>
      placeChild t canvas vf cf (fun childVf => createVfChildren t canvas childVf c) row c) row =
      let made := rowFrames t canvas vf (keepsColumn t canvas vf cf) row.x cfs
      ⟨rowEnd row.x made, row.frames ++ (visible made).map (expand t canvas),
        row.combinedVfs ++ combined made⟩ := by
  induction cfs generalizing row with
  | nil => simp [rowFrames, visible, combined, rowEnd]
  | cons c cs ih =>
      rw [List.foldl_cons, ih, placeChild_eq]
      simp only [rowFrames, visible, combined, rowEnd, List.filter_cons, List.map_cons,
        List.sum_cons, Int.sub_sub, List.filter_nil, List.append_assoc]
      by_cases hwidth :
          (createVf t canvas row.x (vf.y + 1) vf c (keepsColumn t canvas vf cf)).width > 0
      · simp [hwidth]
      · simp [hwidth]

/-- **The children of a frame**: those that get a column, each with its own children, and the '+'
frame. -/
theorem createVfChildren_eq (t : CallFrameTree) (canvas : Canvas) (vf : VisualFrame) (cf : Nat)
    (hne : t.frames cf ≠ []) :
    createVfChildren t canvas vf cf =
      (visible (childRow t canvas vf cf)).map (expand t canvas) ++
        if hasCombined t canvas vf cf then
          [.node (plusVf (rowEnd (vf.x + vf.width) (childRow t canvas vf cf)) (vf.y + 1)
            (combined (childRow t canvas vf cf))) []]
        else [] := by
  have hattach := List.foldl_attach (l := t.sortedFrames cf) (f := fun row c =>
    placeChild t canvas vf cf (fun childVf => createVfChildren t canvas childVf c) row c)
    (b := ⟨vf.x + vf.width, [], []⟩)
  rw [createVfChildren, if_neg hne]
  simp only at hattach ⊢
  rw [hattach, foldl_placeChild]
  cases hasCombined t canvas vf cf with
  | true => rfl
  | false => simp [childRow]

end LdbToolchain.Tfg
