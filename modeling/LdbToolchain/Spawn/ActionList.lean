import LdbToolchain.Lib.Linked
import LdbToolchain.Spawn.FileActions

/-!
# The list of file actions

Whatever calls are made on a `posix_spawn_file_actions_t` after `posix_spawn_file_actions_init`, some
of them failing, its nodes are a doubly linked list of the actions of those that succeeded (`Logs`).
`posix_spawn_file_actions_destroy` walks along it and frees every node.
-/

namespace LdbToolchain.Spawn

open LdbToolchain.Linked

/-! ## Destroying -/

/-- The loop of `posix_spawn_file_actions_destroy`: the nodes it frees, and the heap it leaves;
`none` when it comes to a node that is not allocated. -/
def destroyLoop (heap : Heap Fdop) (op : Option Nat) : Option (List Nat × Heap Fdop) :=
  match op with
  | none => some ([], heap)
  | some addr =>
    match _h : heap.cell addr with
    | none => none
    | some node => do
      let next := node.next
      let (freed, heap) ← destroyLoop (heap.free addr) next
      return (addr :: freed, heap)
termination_by heap.live
decreasing_by exact Heap.live_free_lt _h

/-- `posix_spawn_file_actions_destroy`. -/
def Recorder.destroy (r : Recorder) : Option (Int × List Nat × Heap Fdop) := do
  let (freed, heap) ← destroyLoop r.heap r.fa.actions
  return (0, freed, heap)

/-! ## Calls -/

/-- Some descriptor of the action is negative. -/
def Action.isBad : Action → Bool
  | .close fd => fd < 0
  | .dup2 srcfd fd => srcfd < 0 ∨ fd < 0
  | .openFile fd _ _ _ => fd < 0
  | .chdir _ => false
  | .fchdir fd => fd < 0

/-- What a call is to return. -/
def addCode (malloc : Malloc) (a : Action) : Int :=
  if a.isBad then EBADF else if malloc.isNone then ENOMEM else 0

/-- What the recording function for an action writes to its node. -/
def Action.fill : Action → Fdop → Fdop
  | .close fd, op => { op with cmd := FDOP_CLOSE, fd }
  | .dup2 srcfd fd, op => { op with cmd := FDOP_DUP2, srcfd, fd }
  | .openFile fd path oflag mode, op => { op with cmd := FDOP_OPEN, fd, oflag, mode, path }
  | .chdir path, op => { op with cmd := FDOP_CHDIR, fd := -1, path }
  | .fchdir fd, op => { op with cmd := FDOP_FCHDIR, fd }

/-- The action a node stands for, by its command. -/
def Fdop.action (op : Fdop) : Option Action :=
  if op.cmd = FDOP_CLOSE then some (.close op.fd)
  else if op.cmd = FDOP_DUP2 then some (.dup2 op.srcfd op.fd)
  else if op.cmd = FDOP_OPEN then some (.openFile op.fd op.path op.oflag op.mode)
  else if op.cmd = FDOP_CHDIR then some (.chdir op.path)
  else if op.cmd = FDOP_FCHDIR then some (.fchdir op.fd)
  else none

theorem Fdop.action_fill (a : Action) (op : Fdop) : (a.fill op).action = some a := by
  cases a <;> rfl

/-- The five functions check, allocate, fill in and link. -/
theorem Recorder.add_eq (malloc : Malloc) (a : Action) (r : Recorder) :
    r.add malloc a =
      if a.isBad then (EBADF, r)
      else malloc.elim (ENOMEM, r) fun junk => (0, r.link (a.fill junk)) := by
  cases a <;> cases malloc <;>
    simp [Recorder.add, Recorder.addclose, Recorder.adddup2, Recorder.addopen, Recorder.addchdirNp,
      Recorder.addfchdirNp, Recorder.record, Action.isBad, Action.fill]

/-- The calls of a caller, one after the other: what they return, and what they leave. -/
def Recorder.addAll : List (Malloc × Action) → Recorder → List Int × Recorder
  | [], r => ([], r)
  | (malloc, a) :: calls, r =>
    let (ret, r) := r.add malloc a
    let (rets, r) := addAll calls r
    (ret :: rets, r)

/-- The actions of the calls that succeed. -/
def succeeded (calls : List (Malloc × Action)) : List Action :=
  (calls.filter fun call => addCode call.1 call.2 = 0).map (·.2)

/-- What a call returns, and that one that fails changes nothing. -/
theorem Recorder.add_code (malloc : Malloc) (a : Action) (r : Recorder) :
    (r.add malloc a).1 = addCode malloc a ∧
      (addCode malloc a ≠ 0 → (r.add malloc a).2 = r) := by
  rw [Recorder.add_eq, addCode]
  by_cases hbad : a.isBad = true
  · simp [hbad]
  · cases malloc with
    | none => simp [hbad]
    | some junk => simp [hbad]

/-! ## The list -/

namespace Recorder

variable (r : Recorder)

/-- `op->next`. -/
def nextOf (op : Nat) : Option Nat := (r.heap.cell op).bind Fdop.next

/-- `op->prev`. -/
def prevOf (op : Nat) : Option Nat := (r.heap.cell op).bind Fdop.prev

def actionOf (op : Nat) : Option Action := (r.heap.cell op).bind Fdop.action

end Recorder

/-- The nodes, newest first, are linked both ways and hold the actions. -/
structure Logs (r : Recorder) (acts : List Action) (nodes : List Nat) : Prop where
  linked : DoublyLinked r.nextOf r.prevOf r.fa.actions nodes
  actions : nodes.map r.actionOf = acts.reverse.map some

theorem Logs.init (heap : Heap Fdop) : Logs (.init heap) [] [] := ⟨.nil, rfl⟩

theorem Logs.allocated {r : Recorder} {acts : List Action} {nodes : List Nat}
    (h : Logs r acts nodes) {op : Nat} (hop : op ∈ nodes) : ∃ node, r.heap.cell op = some node := by
  have hmem : r.actionOf op ∈ acts.reverse.map some := by
    rw [← h.actions]
    exact List.mem_map_of_mem hop
  obtain ⟨a, -, ha⟩ := List.mem_map.mp hmem
  obtain ⟨node, hnode, -⟩ := Option.bind_eq_some_iff.mp ha.symm
  exact ⟨node, hnode⟩

/-- The cells after `link`. -/
theorem Recorder.cell_link {r : Recorder} (hhead : r.fa.actions ≠ some r.heap.next) (op : Fdop)
    (b : Nat) :
    (r.link op).heap.cell b =
      if b = r.heap.next then some { op with next := r.fa.actions, prev := none }
      else if r.fa.actions = some b then
        (r.heap.cell b).map fun n => { n with prev := some r.heap.next }
      else r.heap.cell b := by
  unfold Recorder.link
  cases hactions : r.fa.actions with
  | none => simp [Heap.cell_alloc]
  | some head =>
      have hne : head ≠ r.heap.next := by
        intro heq
        exact hhead (by rw [hactions, heq])
      simp only [Heap.cell_modify, Heap.cell_alloc, if_neg hne, Option.some.injEq]
      by_cases hb : b = head
      · subst hb
        rw [if_pos rfl, if_neg hne, if_pos rfl]
      · rw [if_neg hb]
        by_cases hfresh : b = r.heap.next
        · rw [if_pos hfresh, if_pos hfresh]
        · rw [if_neg hfresh, if_neg hfresh, if_neg (Ne.symm hb)]

/-- A successful call puts a node in front. -/
theorem Logs.link {r : Recorder} {acts : List Action} {nodes : List Nat} (h : Logs r acts nodes)
    (a : Action) (junk : Fdop) :
    Logs (r.link (a.fill junk)) (acts ++ [a]) (r.heap.next :: nodes) := by
  have hused : ∀ op ∈ nodes, op ≠ r.heap.next := by
    intro op hop
    obtain ⟨node, hnode⟩ := h.allocated hop
    exact (Heap.lt_next hnode).ne
  have hhead : r.fa.actions ≠ some r.heap.next := by
    rw [h.linked.segment.start_eq]
    intro heq
    exact hused _ (List.mem_of_mem_head? heq) rfl
  have hcell := r.cell_link hhead (a.fill junk)
  have hnew := hcell r.heap.next
  rw [if_pos rfl] at hnew
  have hactions : (r.link (a.fill junk)).fa.actions = some r.heap.next := by
    unfold Recorder.link
    cases r.fa.actions <;> rfl
  constructor
  · rw [hactions]
    apply h.linked.push
    · exact fun hop => hused _ hop rfl
    · rw [Recorder.nextOf, hnew]
      rfl
    · rw [Recorder.prevOf, hnew]
      rfl
    · intro op hop
      rw [Recorder.nextOf, Recorder.nextOf, hcell, if_neg (hused op hop)]
      split
      next => cases r.heap.cell op <;> rfl
      next => rfl
    · intro op hop
      obtain ⟨node, hnode⟩ := h.allocated hop
      rw [Recorder.prevOf, hcell, if_neg (hused op hop), hnode]
      split
      next => rfl
      next => rw [Recorder.prevOf, hnode]
  · rw [List.map_cons, List.reverse_append, List.reverse_singleton, List.singleton_append,
      List.map_cons, ← h.actions, List.cons.injEq]
    refine ⟨?_, ?_⟩
    · rw [Recorder.actionOf, hnew]
      exact Fdop.action_fill a junk
    · apply List.map_congr_left
      intro op hop
      rw [Recorder.actionOf, Recorder.actionOf, hcell, if_neg (hused op hop)]
      split
      next => cases r.heap.cell op <;> rfl
      next => rfl

/-- One call. -/
theorem Logs.add {r : Recorder} {acts : List Action} {nodes : List Nat} (h : Logs r acts nodes)
    (malloc : Malloc) (a : Action) :
    ∃ nodes', Logs (r.add malloc a).2
      (acts ++ if addCode malloc a = 0 then [a] else []) nodes' := by
  rw [Recorder.add_eq, addCode]
  by_cases hbad : a.isBad = true
  · exact ⟨nodes, by simpa [hbad, EBADF] using h⟩
  · cases malloc with
    | none => exact ⟨nodes, by simpa [hbad, ENOMEM] using h⟩
    | some junk => exact ⟨_, by simpa [hbad] using h.link a junk⟩

/-- All calls. -/
theorem Logs.addAll {r : Recorder} {acts : List Action} {nodes : List Nat} (h : Logs r acts nodes)
    (calls : List (Malloc × Action)) :
    (r.addAll calls).1 = calls.map (fun call => addCode call.1 call.2) ∧
      ∃ nodes', Logs (r.addAll calls).2 (acts ++ succeeded calls) nodes' := by
  induction calls generalizing r acts nodes with
  | nil =>
      refine ⟨rfl, nodes, ?_⟩
      rw [show succeeded [] = [] from rfl, List.append_nil]
      exact h
  | cons call calls ih =>
      obtain ⟨malloc, a⟩ := call
      obtain ⟨nodes₁, h₁⟩ := h.add malloc a
      obtain ⟨hcodes, nodes₂, h₂⟩ := ih h₁
      refine ⟨?_, nodes₂, ?_⟩
      · rw [List.map_cons, ← hcodes, ← (r.add_code malloc a).1]
        rfl
      · have hacts : acts ++ succeeded ((malloc, a) :: calls)
            = (acts ++ if addCode malloc a = 0 then [a] else []) ++ succeeded calls := by
          by_cases hcode : addCode malloc a = 0
          · simp [succeeded, hcode]
          · simp [succeeded, hcode]
        rw [hacts]
        exact h₂

/-! ## Freeing the list -/

/-- The loop frees what is found by following `next`. -/
theorem destroyLoop_of_visits {heap : Heap Fdop} {op : Option Nat} {nodes : List Nat}
    (h : Visits (fun a => (heap.cell a).bind Fdop.next) op nodes) (hnodup : nodes.Nodup)
    (hcells : ∀ a ∈ nodes, ∃ node, heap.cell a = some node) :
    ∃ heap', destroyLoop heap op = some (nodes, heap') ∧
      ∀ b, heap'.cell b = if b ∈ nodes then none else heap.cell b := by
  induction nodes generalizing heap op with
  | nil =>
      have hnone : op = none := h
      rw [hnone, destroyLoop]
      exact ⟨heap, rfl, by simp⟩
  | cons a nodes ih =>
      obtain ⟨hop, hrest⟩ := h
      obtain ⟨ha, hnodup⟩ := List.nodup_cons.mp hnodup
      obtain ⟨node, hnode⟩ := hcells a List.mem_cons_self
      have hne : ∀ b ∈ nodes, b ≠ a := by
        intro b hb heq
        rw [heq] at hb
        exact ha hb
      have hnext : Visits (fun b => ((heap.free a).cell b).bind Fdop.next) node.next nodes := by
        have hwalk : Visits (fun b => (heap.cell b).bind Fdop.next) node.next nodes := by
          simpa [hnode] using hrest
        apply hwalk.congr
        intro b hb
        rw [Heap.cell_free, if_neg (hne b hb)]
      have hlater : ∀ b ∈ nodes, ∃ node, (heap.free a).cell b = some node := by
        intro b hb
        rw [Heap.cell_free, if_neg (hne b hb)]
        exact hcells b (List.mem_cons_of_mem _ hb)
      obtain ⟨heap', hrun, hcell⟩ := ih hnext hnodup hlater
      refine ⟨heap', ?_, ?_⟩
      · rw [hop, destroyLoop]
        split
        next hnone =>
          rw [hnode] at hnone
          cases hnone
        next node' hnode' =>
          rw [hnode] at hnode'
          cases hnode'
          dsimp only
          rw [hrun]
          rfl
      · intro b
        rw [hcell, Heap.cell_free]
        by_cases hb : b = a
        · simp [hb]
        · simp [hb]

/-- **The list of file actions is a faithful log.** After any calls the nodes are, from
`__actions` on by `next`, the actions of the calls that succeeded, newest first, and from the oldest
node on by `prev`, the same actions in the order in which they were added; the two links are inverse
to each other; `posix_spawn_file_actions_destroy` frees each of these nodes once, and no other. -/
theorem fileActions_log (heap : Heap Fdop) (calls : List (Malloc × Action)) :
    let run := (Recorder.init heap).addAll calls
    let r := run.2
    run.1 = calls.map (fun call => addCode call.1 call.2) ∧
      (∀ malloc a, (r.add malloc a).1 = addCode malloc a ∧
        (addCode malloc a ≠ 0 → (r.add malloc a).2 = r)) ∧
      ∃ nodes : List Nat, nodes.Nodup ∧
        Visits r.nextOf r.fa.actions nodes ∧
        nodes.map r.actionOf = (succeeded calls).reverse.map some ∧
        Visits r.prevOf nodes.getLast? nodes.reverse ∧
        nodes.reverse.map r.actionOf = (succeeded calls).map some ∧
        (∀ a ∈ nodes, ∀ b ∈ nodes, r.nextOf a = some b ↔ r.prevOf b = some a) ∧
        (∀ a, r.fa.actions = some a → r.prevOf a = none) ∧
        ∃ heap', r.destroy = some (0, nodes, heap') ∧
          ∀ b, heap'.cell b = if b ∈ nodes then none else r.heap.cell b := by
  intro run r
  obtain ⟨hcodes, nodes, hlogs⟩ := (Logs.init heap).addAll calls
  rw [List.nil_append] at hlogs
  have hnewest := hlogs.actions
  have holdest : nodes.reverse.map r.actionOf = (succeeded calls).map some := by
    rw [List.map_reverse]
    show (nodes.map r.actionOf).reverse = _
    rw [hnewest, List.map_reverse, List.reverse_reverse]
  obtain ⟨heap', hdestroy, hcell⟩ := destroyLoop_of_visits hlogs.linked.visits hlogs.linked.nodup
    fun _ hop => hlogs.allocated hop
  refine ⟨hcodes, fun malloc a => Recorder.add_code malloc a r, nodes, hlogs.linked.nodup,
    hlogs.linked.visits, hnewest, hlogs.linked.visits_back, holdest,
    fun a ha b hb => hlogs.linked.inverse ha hb, fun a ha => hlogs.linked.prev_head ha, heap', ?_,
    hcell⟩
  rw [Recorder.destroy, hdestroy]
  rfl

end LdbToolchain.Spawn
