import LdbToolchain.Lib.Heap

/-!
# The call tree of the flame-graph browser

`CallFrameNode` objects refer to each other, down by `frames` and up by `parent`; they live in a
heap. `Wired` says that these references form a tree, with every child younger than its parent, and
`CallFrameTree` carries that as a field. Its second argument labels every node with its path, the
names on the way down to it. The limit that the interpreter puts on the depth of a recursion is left
out, here and in the modules on this one.
-/

namespace LdbToolchain.Tfg

/-- A Python string. -/
abbrev Str := List Char

structure CallFrameNode where
  name : Str
  /-- The children, oldest first. -/
  frames : List Nat
  baseCount : Int
  count : Int
  parent : Option Nat

/-- `CallFrameNode(name, parent=parent)`. -/
def CallFrameNode.init (name : Str) (parent : Option Nat) : CallFrameNode where
  name
  frames := []
  baseCount := 0
  count := 0
  parent

abbrev CallHeap := Heap CallFrameNode

/-- The object at an address. Addresses of no object get a node without children. -/
def frameAt (h : CallHeap) (a : Nat) : CallFrameNode := (h.cell a).getD (.init [] none)

theorem frameAt_of_cell {h : CallHeap} {a : Nat} {n : CallFrameNode}
    (ha : h.cell a = some n) : frameAt h a = n := by
  unfold frameAt
  rw [ha, Option.getD_some]

/-! ## Adding stacks -/

/-- `_get_or_create_frame`, where `name` is `frames[0]`. -/
def getOrCreateFrame (h : CallHeap) (startFrame : Nat) (name : Str) : Nat × CallHeap :=
  match (frameAt h startFrame).frames.find? fun frame => (frameAt h frame).name = name with
  | some frame => (frame, h)
  | none =>
      let frame := h.next
      (frame, (h.alloc (.init name (some startFrame))).modify startFrame fun n =>
        { n with frames := n.frames ++ [frame] })

/-- The frame `_insert_frame` goes on from, with its counts updated. -/
def enterFrame (h : CallHeap) (startFrame : Nat) (name : Str) (rest : List Str) (count : Int) :
    Nat × CallHeap :=
  let (frame, h) := getOrCreateFrame h startFrame name
  let h := h.modify frame fun n => { n with count := n.count + count }
  -- `len(frames) == 1`
  let h := if (name :: rest).length = 1
    then h.modify frame fun n => { n with baseCount := n.baseCount + count } else h
  (frame, h)

/-- `_insert_frame`. -/
def insertFrame (h : CallHeap) (startFrame : Nat) : List Str → Int → CallHeap
  | [], _ => h
  | name :: rest, count =>
      let (frame, h) := enterFrame h startFrame name rest count
      insertFrame h frame rest count

/-! ## What a step does -/

/-- Counting a sample at a node. -/
def CallFrameNode.bump (count base : Int) (n : CallFrameNode) : CallFrameNode :=
  { n with count := n.count + count, baseCount := n.baseCount + base }

theorem CallFrameNode.bump_zero (count : Int) :
    CallFrameNode.bump count 0 = fun n => { n with count := n.count + count } := by
  funext n
  unfold CallFrameNode.bump
  rw [Int.add_zero]

/-- A new last child. -/
def hang (h : CallHeap) (a : Nat) (name : Str) : CallHeap :=
  (h.alloc (.init name (some a))).modify a fun n => { n with frames := n.frames ++ [h.next] }

/-- The child of `a` with a given name, if there is one. -/
def child? (h : CallHeap) (a : Nat) (name : Str) : Option Nat :=
  (frameAt h a).frames.find? fun f => (frameAt h f).name = name

/-- A step goes to the child of that name, which it creates if there is none, and counts there. -/
theorem enterFrame_eq (h : CallHeap) (a : Nat) (name : Str) (rest : List Str) (count : Int) :
    enterFrame h a name rest count =
      match child? h a name with
      | some f => (f, h.modify f (.bump count (if rest = [] then count else 0)))
      | none =>
          (h.next, (hang h a name).modify h.next (.bump count (if rest = [] then count else 0))) := by
  have hbump : ∀ (h : CallHeap) (f : Nat),
      (if (name :: rest).length = 1
        then (h.modify f fun n => { n with count := n.count + count }).modify f fun n =>
          { n with baseCount := n.baseCount + count }
        else h.modify f fun n => { n with count := n.count + count })
        = h.modify f (.bump count (if rest = [] then count else 0)) := by
    intro h f
    cases rest with
    | nil =>
        rw [if_pos (by rfl), if_pos rfl, Heap.modify_modify]
        rfl
    | cons x xs =>
        rw [if_neg (by simp), if_neg (by simp), CallFrameNode.bump_zero]
  unfold enterFrame getOrCreateFrame child?
  cases (frameAt h a).frames.find? fun f => (frameAt h f).name = name with
  | some f => exact congrArg (Prod.mk f) (hbump h f)
  | none => exact congrArg (Prod.mk h.next) (hbump (hang h a name) h.next)

theorem cell_hang {h : CallHeap} {a : Nat} {n : CallFrameNode} (ha : h.cell a = some n)
    (name : Str) (b : Nat) :
    (hang h a name).cell b =
      if b = h.next then some (.init name (some a))
      else if b = a then some { n with frames := n.frames ++ [h.next] }
      else h.cell b := by
  have hlt := Heap.lt_next ha
  unfold hang
  rw [Heap.cell_modify, Heap.cell_alloc, Heap.cell_alloc]
  by_cases hb : b = a
  · subst hb
    rw [if_pos rfl, if_neg hlt.ne, if_neg hlt.ne, if_pos rfl, ha]
    rfl
  · rw [if_neg hb, if_neg hb]

/-! ### Nodes before and after a step

Counting changes the counts of one node. A new child changes the children of one node and adds one
node. Everything else about a node is kept. -/

section Step

variable {h : CallHeap} {a b : Nat} {n m : CallFrameNode} {name : Str}

theorem cell_hang_next (ha : h.cell a = some n) :
    (hang h a name).cell h.next = some (.init name (some a)) := by
  rw [cell_hang ha, if_pos rfl]

/-- The new child, its parent, or a node that was not touched. -/
theorem cell_hang_cases (ha : h.cell a = some n) (hb : (hang h a name).cell b = some m) :
    (b = h.next ∧ m = .init name (some a)) ∨
    (b = a ∧ m = { n with frames := n.frames ++ [h.next] }) ∨ (b ≠ a ∧ h.cell b = some m) := by
  rw [cell_hang ha] at hb
  split at hb
  · next hbn =>
      cases hb
      exact .inl ⟨hbn, rfl⟩
  · split at hb
    · next hba =>
        cases hb
        exact .inr (.inl ⟨hba, rfl⟩)
    · next hba => exact .inr (.inr ⟨hba, hb⟩)

/-- An old node keeps its name, its parent and its children. -/
theorem exists_cell_hang (ha : h.cell a = some n) (name : Str) (hb : h.cell b = some m) :
    ∃ m', (hang h a name).cell b = some m' ∧ m'.name = m.name ∧ m'.parent = m.parent ∧
      ∀ f ∈ m.frames, f ∈ m'.frames := by
  rw [cell_hang ha, if_neg (Heap.lt_next hb).ne]
  split
  · next hba =>
      rw [hba, ha] at hb
      cases hb
      exact ⟨_, rfl, rfl, rfl, fun f hf => List.mem_append_left _ hf⟩
  · exact ⟨m, hb, rfl, rfl, fun f hf => hf⟩

theorem frameAt_hang_name (ha : h.cell a = some n) (name : Str) (hb : h.cell b = some m) :
    (frameAt (hang h a name) b).name = (frameAt h b).name := by
  obtain ⟨m', hm', hname, -⟩ := exists_cell_hang ha name hb
  rw [frameAt_of_cell hb, frameAt_of_cell hm', hname]

/-- A node after counting differs in its counts only. -/
theorem cell_bump_cases {f : Nat} {count base : Int}
    (hb : (h.modify f (.bump count base)).cell b = some m) :
    (b = f ∧ ∃ n, h.cell b = some n ∧ m = n.bump count base) ∨ (b ≠ f ∧ h.cell b = some m) := by
  rw [Heap.cell_modify] at hb
  split at hb
  · next hbf =>
      obtain ⟨n, hn, rfl⟩ := Option.map_eq_some_iff.mp hb
      exact .inl ⟨hbf, n, hbf ▸ hn, rfl⟩
  · next hbf => exact .inr ⟨hbf, hb⟩

theorem exists_cell_of_bump {f : Nat} {count base : Int}
    (hb : (h.modify f (.bump count base)).cell b = some m) :
    ∃ n, h.cell b = some n ∧ m.frames = n.frames := by
  rcases cell_bump_cases hb with ⟨-, n, hn, rfl⟩ | ⟨-, hn⟩
  · exact ⟨n, hn, rfl⟩
  · exact ⟨m, hn, rfl⟩

theorem exists_cell_bump (hb : h.cell b = some n) (f : Nat) (count base : Int) :
    ∃ m, (h.modify f (.bump count base)).cell b = some m ∧ m.frames = n.frames ∧
      m.name = n.name ∧ m.parent = n.parent := by
  rw [Heap.cell_modify]
  split
  · next hbf =>
      rw [← hbf, hb]
      exact ⟨_, rfl, rfl, rfl, rfl⟩
  · exact ⟨n, hb, rfl, rfl, rfl⟩

theorem frameAt_bump_name (h : CallHeap) (f : Nat) (count base : Int) (b : Nat) :
    (frameAt (h.modify f (.bump count base)) b).name = (frameAt h b).name := by
  unfold frameAt
  rw [Heap.cell_modify]
  split
  · next hbf =>
      rw [hbf]
      cases h.cell f <;> rfl
  · rfl

end Step

/-! ## Trees -/

/-- The name of the head. -/
def allName : Str := ['a', 'l', 'l']

/-- The references form a tree with its head at 0, in which `path` gives the names on the way from
the head to a node. -/
structure Wired (h : CallHeap) (path : Nat → List Str) : Prop where
  root : ∃ n, h.cell 0 = some n ∧ n.name = allName ∧ n.parent = none
  path_root : path 0 = []
  kid : ∀ a n f, h.cell a = some n → f ∈ n.frames →
    ∃ m, h.cell f = some m ∧ m.parent = some a ∧ a < f ∧ path f = path a ++ [m.name]
  hangs : ∀ b n, h.cell b = some n → b ≠ 0 → ∃ a m, h.cell a = some m ∧ b ∈ m.frames
  distinct : ∀ a n, h.cell a = some n → (n.frames.map fun f => (frameAt h f).name).Nodup

namespace Wired

variable {h : CallHeap} {path : Nat → List Str}

/-- Siblings with the same name are the same. -/
theorem sibling_inj (hw : Wired h path) {a f g : Nat} {n : CallFrameNode}
    (ha : h.cell a = some n) (hf : f ∈ n.frames) (hg : g ∈ n.frames)
    (hname : (frameAt h f).name = (frameAt h g).name) : f = g :=
  List.inj_on_of_nodup_map (hw.distinct a n ha) hf hg hname

/-- A path leads to one node only. -/
theorem path_inj (hw : Wired h path) {b b' : Nat} {n n' : CallFrameNode}
    (hb : h.cell b = some n) (hb' : h.cell b' = some n') (hpath : path b = path b') : b = b' := by
  induction hlen : (path b).length generalizing b b' n n' with
  | zero =>
      -- only the head has an empty path
      have hzero : ∀ c m, h.cell c = some m → path c = [] → c = 0 := by
        intro c m hc hempty
        by_contra hne
        obtain ⟨a, k, ha, hmem⟩ := hw.hangs c m hc hne
        obtain ⟨x, -, -, -, hchild⟩ := hw.kid a k c ha hmem
        rw [hempty] at hchild
        exact absurd hchild.symm (by simp)
      have hempty := List.length_eq_zero_iff.mp hlen
      rw [hzero b n hb hempty, hzero b' n' hb' (hpath ▸ hempty)]
  | succ k ih =>
      have hne : ∀ c, path c = path b → c ≠ 0 := by
        intro c hc h0
        rw [h0, hw.path_root] at hc
        rw [← hc] at hlen
        cases hlen
      obtain ⟨a, m, ha, hmem⟩ := hw.hangs b n hb (hne b rfl)
      obtain ⟨a', m', ha', hmem'⟩ := hw.hangs b' n' hb' (hne b' hpath.symm)
      obtain ⟨x, hx, -, -, hpx⟩ := hw.kid a m b ha hmem
      obtain ⟨x', hx', -, -, hpx'⟩ := hw.kid a' m' b' ha' hmem'
      rw [hpx, hpx'] at hpath
      obtain ⟨hparents, hnames⟩ := List.append_inj' hpath rfl
      -- the parents are the same by induction, so the two are siblings
      have haa : a = a' := ih ha ha' hparents (by
        rw [hpx, List.length_append, List.length_singleton] at hlen
        exact Nat.succ.inj hlen)
      subst haa
      rw [ha] at ha'
      cases ha'
      apply hw.sibling_inj ha hmem hmem'
      rw [frameAt_of_cell hx, frameAt_of_cell hx']
      exact List.singleton_inj.mp hnames

/-- Counting keeps the tree. -/
theorem modify_bump (hw : Wired h path) (f : Nat) (count base : Int) :
    Wired (h.modify f (.bump count base)) path := by
  constructor
  · obtain ⟨n, hn, hall, hparent⟩ := hw.root
    obtain ⟨n', hn', -, hname', hparent'⟩ := exists_cell_bump hn f count base
    exact ⟨n', hn', hname'.trans hall, hparent'.trans hparent⟩
  · exact hw.path_root
  · intro a n' g ha hg
    obtain ⟨n, hn, hframes⟩ := exists_cell_of_bump ha
    obtain ⟨m, hm, hparent, hlt, hpath⟩ := hw.kid a n g hn (hframes ▸ hg)
    obtain ⟨m', hm', -, hname', hparent'⟩ := exists_cell_bump hm f count base
    exact ⟨m', hm', hparent'.trans hparent, hlt, hname'.symm ▸ hpath⟩
  · intro b n' hb hne
    obtain ⟨n, hn, -⟩ := exists_cell_of_bump hb
    obtain ⟨a, m, ha, hmem⟩ := hw.hangs b n hn hne
    obtain ⟨m', hm', hframes, -⟩ := exists_cell_bump ha f count base
    exact ⟨a, m', hm', hframes.symm ▸ hmem⟩
  · intro a n' ha
    obtain ⟨n, hn, hframes⟩ := exists_cell_of_bump ha
    simp only [frameAt_bump_name, hframes]
    exact hw.distinct a n hn

/-- A new child leaves the names of the old children as they are. -/
theorem names_hang (hw : Wired h path) {a : Nat} {n : CallFrameNode} (ha : h.cell a = some n)
    (name : Str) {b : Nat} {m : CallFrameNode} (hb : h.cell b = some m) :
    m.frames.map (fun f => (frameAt (Tfg.hang h a name) f).name)
      = m.frames.map fun f => (frameAt h f).name := by
  apply List.map_congr_left
  intro f hf
  obtain ⟨k, hk, -⟩ := hw.kid b m f hb hf
  exact frameAt_hang_name ha name hk

/-- The old children hang where they did. -/
theorem kid_hang (hw : Wired h path) {a : Nat} {n : CallFrameNode} (ha : h.cell a = some n)
    (name : Str) {b f : Nat} {m : CallFrameNode} (hb : h.cell b = some m) (hf : f ∈ m.frames) :
    ∃ k, (Tfg.hang h a name).cell f = some k ∧ k.parent = some b ∧ b < f ∧
      Function.update path h.next (path a ++ [name]) f
        = Function.update path h.next (path a ++ [name]) b ++ [k.name] := by
  obtain ⟨k, hk, hparent, hbf, hpf⟩ := hw.kid b m f hb hf
  obtain ⟨k', hk', hname', hparent', -⟩ := exists_cell_hang ha name hk
  refine ⟨k', hk', hparent'.trans hparent, hbf, ?_⟩
  rw [Function.update_of_ne (Heap.lt_next hk).ne, Function.update_of_ne (Heap.lt_next hb).ne, hpf,
    hname']

/-- A new child keeps the tree, if its name is new among its siblings. -/
theorem hang (hw : Wired h path) {a : Nat} {n : CallFrameNode} (ha : h.cell a = some n)
    {name : Str} (hnew : ∀ f ∈ n.frames, (frameAt h f).name ≠ name) :
    Wired (hang h a name) (Function.update path h.next (path a ++ [name])) := by
  have hself : (Tfg.hang h a name).cell h.next = _ := cell_hang_next ha
  constructor
  · obtain ⟨m, hm, hall, hparent⟩ := hw.root
    obtain ⟨m', hm', hname', hparent', -⟩ := exists_cell_hang ha name hm
    exact ⟨m', hm', hname'.trans hall, hparent'.trans hparent⟩
  · obtain ⟨m, hm, -⟩ := hw.root
    rw [Function.update_of_ne (Heap.lt_next hm).ne]
    exact hw.path_root
  · -- the children of a node: those it had, and the new one
    intro b m f hb hf
    rcases cell_hang_cases ha hb with ⟨-, rfl⟩ | ⟨rfl, rfl⟩ | ⟨-, hb⟩
    · exact absurd hf List.not_mem_nil
    · rcases List.mem_append.mp hf with hf | hf
      · exact hw.kid_hang ha name ha hf
      · rw [List.mem_singleton] at hf
        subst hf
        refine ⟨_, hself, rfl, Heap.lt_next ha, ?_⟩
        rw [Function.update_self, Function.update_of_ne (Heap.lt_next ha).ne]
        rfl
    · exact hw.kid_hang ha name hb hf
  · intro b m hb hne
    have hold : ∀ k, h.cell b = some k →
        ∃ c x, (Tfg.hang h a name).cell c = some x ∧ b ∈ x.frames := by
      intro k hk
      obtain ⟨c, x, hx, hmem⟩ := hw.hangs b k hk hne
      obtain ⟨x', hx', -, -, hframes⟩ := exists_cell_hang ha name hx
      exact ⟨c, x', hx', hframes b hmem⟩
    rcases cell_hang_cases ha hb with ⟨rfl, -⟩ | ⟨rfl, -⟩ | ⟨-, hb⟩
    · -- the new child hangs under `a`
      refine ⟨a, { n with frames := n.frames ++ [h.next] }, ?_, ?_⟩
      · rw [cell_hang ha, if_neg (Heap.lt_next ha).ne, if_pos rfl]
      · exact List.mem_append_right _ (List.mem_singleton_self _)
    · exact hold n ha
    · exact hold m hb
  · intro b m hb
    rcases cell_hang_cases ha hb with ⟨-, rfl⟩ | ⟨rfl, rfl⟩ | ⟨-, hb⟩
    · exact List.nodup_nil
    · rw [List.map_append, hw.names_hang ha name ha, List.map_singleton, frameAt_of_cell hself,
        List.nodup_append]
      refine ⟨hw.distinct b n ha, List.nodup_singleton _, ?_⟩
      intro x hx y hy hxy
      obtain ⟨f, hf, hfx⟩ := List.mem_map.mp hx
      rw [List.mem_singleton] at hy
      exact hnew f hf (hfx.trans (hxy.trans hy))
    · rw [hw.names_hang ha name hb]
      exact hw.distinct b m hb

/-- **What a step does**: it counts at the child of that name, or at a new child if no child has
that name. -/
theorem enterFrame_cases (hw : Wired h path) {a : Nat} {n : CallFrameNode}
    (ha : h.cell a = some n) (name : Str) (rest : List Str) (count : Int) :
    (∃ f m, f ∈ n.frames ∧ h.cell f = some m ∧ m.name = name ∧ path f = path a ++ [name] ∧
      enterFrame h a name rest count
        = (f, h.modify f (.bump count (if rest = [] then count else 0)))) ∨
    ((∀ f ∈ n.frames, (frameAt h f).name ≠ name) ∧
      enterFrame h a name rest count
        = (h.next,
            (Tfg.hang h a name).modify h.next (.bump count (if rest = [] then count else 0)))) := by
  rw [enterFrame_eq]
  cases hf : child? h a name with
  | some f =>
      unfold child? at hf
      rw [frameAt_of_cell ha] at hf
      have hmem := List.mem_of_find?_eq_some hf
      have hname : (frameAt h f).name = name := by simpa using List.find?_some hf
      obtain ⟨m, hm, -, -, hpath⟩ := hw.kid a n f ha hmem
      rw [frameAt_of_cell hm] at hname
      exact .inl ⟨f, m, hmem, hm, hname, hname ▸ hpath, rfl⟩
  | none =>
      unfold child? at hf
      rw [frameAt_of_cell ha, List.find?_eq_none] at hf
      refine .inr ⟨fun f hmem => ?_, rfl⟩
      simpa using hf f hmem

/-- A step keeps the tree and leads to a node. -/
theorem enterFrame (hw : Wired h path) {a : Nat} {n : CallFrameNode} (ha : h.cell a = some n)
    (name : Str) (rest : List Str) (count : Int) :
    ∃ path' m, Wired (enterFrame h a name rest count).2 path' ∧
      (Tfg.enterFrame h a name rest count).2.cell (Tfg.enterFrame h a name rest count).1
        = some m := by
  rcases hw.enterFrame_cases ha name rest count with ⟨f, m, -, hm, -, -, hstep⟩ | ⟨hnew, hstep⟩
  · have hcell := Heap.cell_modify_self h f (.bump count (if rest = [] then count else 0))
    rw [hm] at hcell
    rw [hstep]
    exact ⟨path, _, hw.modify_bump f _ _, hcell⟩
  · have hcell := Heap.cell_modify_self (Tfg.hang h a name) h.next
      (.bump count (if rest = [] then count else 0))
    rw [cell_hang_next ha] at hcell
    rw [hstep]
    exact ⟨_, _, (hw.hang ha hnew).modify_bump h.next _ _, hcell⟩

/-- **`_insert_frame` keeps the tree.** -/
theorem insertFrame (hw : Wired h path) {a : Nat} {n : CallFrameNode} (ha : h.cell a = some n)
    (frames : List Str) (count : Int) : ∃ path', Wired (insertFrame h a frames count) path' := by
  induction frames generalizing h path a n with
  | nil => exact ⟨path, hw⟩
  | cons name rest ih =>
      obtain ⟨path', m, hw', hm⟩ := hw.enterFrame ha name rest count
      exact ih hw' hm

end Wired

/-! ## `CallFrameTree` -/

/-- A heap with the head only. -/
def freshHeap : CallHeap := Heap.empty.alloc (.init allName none)

theorem cell_freshHeap {a : Nat} {n : CallFrameNode} (ha : freshHeap.cell a = some n) :
    a = 0 ∧ n = .init allName none := by
  unfold freshHeap at ha
  rw [Heap.cell_alloc] at ha
  split at ha
  · next h0 =>
      cases ha
      exact ⟨h0, rfl⟩
  · cases ha

structure CallFrameTree where
  heap : CallHeap
  wired : ∃ path, Wired heap path

namespace CallFrameTree

/-- The head is the first node to be made. -/
def head (_ : CallFrameTree) : Nat := 0

def node (t : CallFrameTree) (a : Nat) : CallFrameNode := frameAt t.heap a

/-- The children of a node. -/
def frames (t : CallFrameTree) (a : Nat) : List Nat := (t.node a).frames

/-- A fresh tree. -/
def init : CallFrameTree where
  heap := freshHeap
  wired := by
    refine ⟨fun _ => [], ⟨_, rfl, rfl, rfl⟩, rfl, ?_, ?_, ?_⟩
    · intro a n f ha hf
      obtain ⟨-, rfl⟩ := cell_freshHeap ha
      exact absurd hf List.not_mem_nil
    · intro b n hb hne
      exact absurd (cell_freshHeap hb).1 hne
    · intro a n ha
      obtain ⟨-, rfl⟩ := cell_freshHeap ha
      exact List.nodup_nil

def addStack (t : CallFrameTree) (frames : List Str) (count : Int) : CallFrameTree where
  heap := insertFrame (t.heap.modify t.head fun n => { n with count := n.count + count }) t.head
    frames count
  wired := by
    obtain ⟨path, hw⟩ := t.wired
    obtain ⟨n, hn, -⟩ := hw.root
    rw [← CallFrameNode.bump_zero]
    apply (hw.modify_bump t.head count 0).insertFrame (n := CallFrameNode.bump count 0 n)
    unfold head
    rw [Heap.cell_modify_self, hn]
    rfl

/-- The tree of a list of stacks with their counts, added in order. -/
def ofSamples (samples : List (List Str × Int)) : CallFrameTree :=
  samples.foldl (fun t s => t.addStack s.1 s.2) init

/-- The nodes at a path, going down from `a`. -/
def nodesAt (t : CallFrameTree) (a : Nat) : List Str → List Nat
  | [] => [a]
  | name :: p =>
      ((t.frames a).filter fun f => (t.node f).name = name).flatMap fun f => t.nodesAt f p

/-- Children are younger than their parents, which makes every recursion down the tree end. -/
theorem lt_of_mem_frames {t : CallFrameTree} {a f : Nat} (hf : f ∈ t.frames a) :
    a < f ∧ f < t.heap.next := by
  obtain ⟨path, hw⟩ := t.wired
  unfold frames node frameAt at hf
  cases ha : t.heap.cell a with
  | none =>
      rw [ha] at hf
      exact absurd hf List.not_mem_nil
  | some n =>
      rw [ha] at hf
      obtain ⟨m, hm, -, hlt, -⟩ := hw.kid a n f ha hf
      exact ⟨hlt, Heap.lt_next hm⟩

end CallFrameTree

end LdbToolchain.Tfg
