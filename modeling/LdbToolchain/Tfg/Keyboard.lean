import LdbToolchain.Tfg.Inspect
import LdbToolchain.Tfg.MenuColumns
import LdbToolchain.Tfg.OnScreen

/-!
# What the keys lead to

The keys for left and right follow the links of `link_frames`, which run through the whole picture.
So either of them, pressed often enough, leads from any frame of the picture to any other. Together
with Enter, and with the keys for down and Enter in a menu, they lead to every call frame, from every
state in which the browser has not been left.
-/

namespace LdbToolchain.Tfg

namespace TerminalBrowser

open VisualFrameTree SelectVisualFrameWindow

variable {t : CallFrameTree} {b b' b'' : TerminalBrowser}

/-! ## Keys one after the other -/

/-- Some keys lead from one state to another. -/
def Leads (t : CallFrameTree) (b b' : TerminalBrowser) : Prop := ∃ keys, b.run t keys = some b'

theorem Leads.refl (b : TerminalBrowser) : Leads t b b := ⟨[], rfl⟩

theorem Leads.trans (h : Leads t b b') (h' : Leads t b' b'') : Leads t b b'' := by
  obtain ⟨keys, hrun⟩ := h
  obtain ⟨keys', hrun'⟩ := h'
  refine ⟨keys ++ keys', ?_⟩
  rw [run, List.foldlM_append]
  show (b.run t keys).bind (run t · keys') = some b''
  rw [hrun, Option.bind_some, hrun']

theorem Leads.key {key : Key} (h : b.processInput t key = some b') : Leads t b b' := by
  refine ⟨[key], ?_⟩
  rw [run, List.foldlM_cons, h]
  rfl

/-- The invariant holds wherever keys lead. -/
theorem Leads.inv (h : Leads t b b') (hinv : Inv t b) : Inv t b' := by
  obtain ⟨keys, hrun⟩ := h
  obtain ⟨c, hrun', hinv'⟩ := exists_run hinv keys
  cases hrun.symm.trans hrun'
  exact hinv'

/-! ## Left and right -/

/-- The browser, at another frame of the current picture. -/
def atFrame (b : TerminalBrowser) (address : List Nat) : TerminalBrowser :=
  { b with currentVf := .frame (b.vft.builds.length - 1) address }

/-- The flame-graph window has the focus. -/
theorem processInput_focus (hwindows : b.winStack = [.status, .flameGraph]) (key : Key) :
    b.processInput t key = b.flameGraphInput t key := by
  rw [processInput, hwindows]
  rfl

section Arrows

variable {tree : Rose VisualFrameNode} {i : Nat} {p q : List Nat}

theorem left_step (hwindows : b.winStack = [.status, .flameGraph])
    (htree : b.vft.current = some tree) (hp : tree.bfsTraversal[i]? = some p)
    (hq : tree.bfsTraversal[i + 1]? = some q) :
    (b.atFrame p).processInput t .left = some (b.atFrame q) := by
  have hnodup : ((pairwise tree.bfsTraversal).map Prod.fst).Nodup := by
    rw [map_fst_pairwise]
    exact tree.nodup_bfsTraversal.sublist (List.dropLast_sublist _)
  have hlookup := lookup_of_mem hnodup (mem_pairwise_of_getElem? hp hq)
  have hleft : b.vft.leftVf (.frame (b.vft.builds.length - 1) p)
      = some (.frame (b.vft.builds.length - 1) q) := by
    simp [VisualFrameTree.leftVf, current_build htree, hlookup]
  rw [processInput_focus (b := b.atFrame p) hwindows]
  show some { b with currentVf := (b.vft.leftVf (.frame _ p)).getD (.frame _ p) } = _
  rw [hleft]
  rfl

theorem right_step (hwindows : b.winStack = [.status, .flameGraph])
    (htree : b.vft.current = some tree) (hp : tree.bfsTraversal[i]? = some p)
    (hq : tree.bfsTraversal[i + 1]? = some q) :
    (b.atFrame q).processInput t .right = some (b.atFrame p) := by
  have hnodup : (((pairwise tree.bfsTraversal).map Prod.swap).map Prod.fst).Nodup := by
    rw [List.map_map, show Prod.fst ∘ Prod.swap = (Prod.snd : List Nat × List Nat → List Nat) from rfl,
      map_snd_pairwise]
    exact tree.nodup_bfsTraversal.tail
  have hlookup := lookup_of_mem hnodup
    (List.mem_map_of_mem (f := Prod.swap) (mem_pairwise_of_getElem? hp hq))
  have hright : b.vft.rightVf (.frame (b.vft.builds.length - 1) q)
      = some (.frame (b.vft.builds.length - 1) p) := by
    simp only [VisualFrameTree.rightVf, current_build htree, Option.bind_eq_bind, Option.bind_some]
    rw [hlookup]
    rfl
  rw [processInput_focus (b := b.atFrame q) hwindows]
  show some { b with currentVf := (b.vft.rightVf (.frame _ q)).getD (.frame _ q) } = _
  rw [hright]
  rfl

/-- Left, `n` times. -/
theorem run_left (hwindows : b.winStack = [.status, .flameGraph])
    (htree : b.vft.current = some tree) {n : Nat} (hp : tree.bfsTraversal[i]? = some p)
    (hq : tree.bfsTraversal[i + n]? = some q) :
    (b.atFrame p).run t (List.replicate n .left) = some (b.atFrame q) := by
  induction n generalizing i p with
  | zero =>
      cases hp.symm.trans hq
      rfl
  | succ n ih =>
      have hlt : i + 1 < tree.bfsTraversal.length := by
        have := (List.getElem?_eq_some_iff.mp hq).1
        omega
      have hnext := List.getElem?_eq_getElem hlt
      rw [List.replicate_succ, run, List.foldlM_cons, left_step hwindows htree hp hnext]
      exact ih hnext (by rwa [Nat.add_assoc, Nat.add_comm 1])

/-- Right, `n` times. -/
theorem run_right (hwindows : b.winStack = [.status, .flameGraph])
    (htree : b.vft.current = some tree) {n : Nat} (hp : tree.bfsTraversal[i]? = some p)
    (hq : tree.bfsTraversal[i + n]? = some q) :
    (b.atFrame q).run t (List.replicate n .right) = some (b.atFrame p) := by
  induction n generalizing q with
  | zero =>
      cases hp.symm.trans hq
      rfl
  | succ n ih =>
      have hlt : i + n < tree.bfsTraversal.length := by
        have := (List.getElem?_eq_some_iff.mp hq).1
        omega
      have hbefore := List.getElem?_eq_getElem hlt
      rw [List.replicate_succ, run, List.foldlM_cons, right_step hwindows htree hbefore hq]
      exact ih hbefore

end Arrows

theorem At.eq_atFrame {address : List Nat} {s : Rose VisualFrameNode}
    (hat : b.vft.At b.currentVf address s) : b = b.atFrame address := by
  obtain ⟨tree, htree, href, hs⟩ := hat
  rw [atFrame, ← href]

/-- One of the two keys leads to a frame of the picture, in fewer steps than there are frames. -/
theorem exists_arrows (hinv : Inv t b) (hwindows : b.winStack = [.status, .flameGraph])
    {tree s : Rose VisualFrameNode} (htree : b.vft.current = some tree) {address : List Nat}
    (hs : tree.subtree? address = some s) :
    ∃ key n, (key = .left ∨ key = .right) ∧ n < tree.bfsTraversal.length ∧
      b.run t (List.replicate n key) = some (b.atFrame address) := by
  obtain ⟨here, u, hat⟩ := hinv.current
  have hself := At.eq_atFrame hat
  obtain ⟨tree', htree', -, hu⟩ := hat
  cases htree.symm.trans htree'
  obtain ⟨i, hi⟩ := List.mem_iff_getElem?.mp (Rose.mem_bfsTraversal.mpr ⟨u, hu⟩)
  obtain ⟨j, hj⟩ := List.mem_iff_getElem?.mp (Rose.mem_bfsTraversal.mpr ⟨s, hs⟩)
  have hilt := (List.getElem?_eq_some_iff.mp hi).1
  have hjlt := (List.getElem?_eq_some_iff.mp hj).1
  rcases Nat.le_total i j with hle | hle
  · obtain ⟨n, rfl⟩ := Nat.exists_eq_add_of_le hle
    refine ⟨.left, n, .inl rfl, by omega, ?_⟩
    rw [hself]
    exact run_left hwindows htree hi hj
  · obtain ⟨n, rfl⟩ := Nat.exists_eq_add_of_le hle
    refine ⟨.right, n, .inr rfl, by omega, ?_⟩
    rw [hself]
    exact run_right hwindows htree hj hi

/-- **Left and right lead everywhere.** In every state that some keys lead to and in which the
flame-graph window has the focus: for each frame of the picture, the key for left or the key for
right, pressed fewer times than there are frames, makes it the current one and changes nothing
else. -/
theorem arrows_lead_everywhere (t : CallFrameTree) (terminal : Terminal) (wsFiller : Str)
    (keys : List Key) {b : TerminalBrowser}
    (hrun : (display t terminal wsFiller).bind (run t · keys) = some b)
    (hwindows : b.winStack = [.status, .flameGraph]) :
    ∃ tree, b.vft.current = some tree ∧ ∀ address s, tree.subtree? address = some s →
      ∃ key n, (key = .left ∨ key = .right) ∧ n < tree.bfsTraversal.length ∧
        b.run t (List.replicate n key)
          = some { b with currentVf := .frame (b.vft.builds.length - 1) address } := by
  obtain ⟨start, hdisplay, hstart, -⟩ := exists_display t terminal wsFiller
  rw [hdisplay, Option.bind_some] at hrun
  have hinv : Inv t b := Leads.inv ⟨keys, hrun⟩ hstart
  obtain ⟨tree, htree, -⟩ := hinv.coherent.current
  exact ⟨tree, htree, fun address s hs => exists_arrows hinv hwindows htree hs⟩

theorem arrows_lead_everywhere_oneStack :
    ∃ b tree, display oneStack fourLines [' '] = some b ∧ b.vft.current = some tree ∧
      ∀ address s, tree.subtree? address = some s →
        ∃ key n, (key = .left ∨ key = .right) ∧ n < tree.bfsTraversal.length ∧
          b.run oneStack (List.replicate n key)
            = some { b with currentVf := .frame (b.vft.builds.length - 1) address } := by
  obtain ⟨b, hdisplay, hinv, -⟩ := exists_display oneStack fourLines [' ']
  have hrun : (display oneStack fourLines [' ']).bind (run oneStack · []) = some b := by
    rw [hdisplay]
    rfl
  have hwindows : b.winStack = [.status, .flameGraph] := by
    cases hdisplay
    rfl
  obtain ⟨tree, htree, hall⟩ :=
    arrows_lead_everywhere oneStack fourLines [' '] [] hrun hwindows
  exact ⟨b, tree, hdisplay, htree, hall⟩

/-! ## Enter -/

/-- A frame with a call frame combines no others. -/
def PlainAt (label : VisualFrameNode) (_ : List (Rose VisualFrameNode)) : Prop :=
  label.cf.isSome = true → label.combinedFrames = []

theorem plain_zoomedTree (canvas : Canvas) (hw : 1 ≤ canvas.width) (cs : List Nat) :
    (zoomedTree t canvas cs).Everywhere PlainAt := by
  refine everywhere_zoomTree (fun _ _ _ _ _ => rfl) ?_ (fun _ _ _ _ _ _ _ => rfl) hw
    (headVf_shows t canvas) rfl rfl (stacked_zoomFrames canvas 1 cs) place_zoomFrames
  intro x y members hcf
  cases hcf

/-- The flame-graph window has the focus, combined frames are on, and the current frame is the zoomed
one and shows this call frame. -/
structure Inspects (t : CallFrameTree) (cf : Nat) (b : TerminalBrowser) : Prop where
  inv : Inv t b
  focus : b.winStack = [.status, .flameGraph]
  width : 1 ≤ b.vft.width
  combined : b.vft.withCombinedFrames = true
  zoomed : b.currentVf = b.vft.startVf
  cf : b.vft.cf b.vft.startVf = some cf

/-- What a rebuild around a frame leads to. -/
theorem inspects_adopt (hwindows : b.winStack = [.status, .flameGraph])
    (hw : 1 ≤ b.vft.width) {vft : VisualFrameTree} {cs : List Nat} {cf : Nat}
    (hcs : t.Lineage t.head cs) (hlast : CallFrameTree.lastOf t.head cs = cf)
    (hgen : ∀ tree ∈ vft.builds, Genealogical t tree) (hwidth : vft.width = b.vft.width)
    (hflag : vft.withCombinedFrames = true) :
    Inspects t cf
      { b with vft := vft.adopt t cs, currentVf := (vft.adopt t cs).startVf } := by
  have hcoherent := coherent_adopt hgen hcs
  obtain ⟨address, s, hat, -⟩ := hcoherent.at_startVf
  refine ⟨⟨hcoherent, hat.reachable, .inr (.inr (.inl hwindows))⟩, hwindows, ?_, hflag, rfl, ?_⟩
  · show 1 ≤ vft.width
    rw [hwidth]
    exact hw
  · show (vft.adopt t cs).cf (vft.adopt t cs).startVf = some cf
    rw [cf_startVf_adopt, hlast]

/-- Enter on a frame that shows a call frame. -/
theorem enter_inspects (hinv : Inv t b) (hwindows : b.winStack = [.status, .flameGraph])
    (hw : 1 ≤ b.vft.width) (hflag : b.vft.withCombinedFrames = true) {cf : Nat}
    (hcf : b.vft.cf b.currentVf = some cf) :
    ∃ b', b.processInput t .enter = some b' ∧ Inspects t cf b' := by
  obtain ⟨cs, hcs, hlast, hrun⟩ := rebuildTree_eq_adopt hinv.coherent.genealogical hcf
  refine ⟨_, ?_, inspects_adopt hwindows hw hcs hlast hinv.coherent.genealogical rfl hflag⟩
  obtain ⟨address, s, hat⟩ := hinv.current
  rw [hat.cf] at hcf
  rw [processInput_focus hwindows, flameGraphInput]
  simp only [hat.vf, Option.bind_eq_bind, Option.bind_some]
  rw [if_pos (by rw [hcf]; exact Option.some_ne_none cf), rebuild]
  show (b.vft.rebuildTree t (some b.currentVf)).bind _ = _
  rw [hrun]
  rfl

/-- The browser, with a menu open. -/
def withMenu (b : TerminalBrowser) (win : SelectVisualFrameWindow) : TerminalBrowser :=
  { b with winStack := b.winStack ++ [.select win] }

@[simp] theorem vft_withMenu (b : TerminalBrowser) (win : SelectVisualFrameWindow) :
    (b.withMenu win).vft = b.vft := rfl

@[simp] theorem getLast?_withMenu (b : TerminalBrowser) (win : SelectVisualFrameWindow) :
    (b.withMenu win).winStack.getLast? = some (.select win) := List.getLast?_concat ..

@[simp] theorem update_withMenu (b : TerminalBrowser) (win win' : SelectVisualFrameWindow) :
    (b.withMenu win).update win' = b.withMenu win' := by
  rw [update, withMenu, List.dropLast_concat]
  rfl

/-- Down, `k` times, in a menu with as many entries left. -/
theorem run_select (win : SelectVisualFrameWindow) {k : Nat}
    (hk : win.current + k < (b.vft.combinedFrames win.vf).length) :
    ∃ win', (b.withMenu win).run t (List.replicate k .down) = some (b.withMenu win') ∧
      win'.vf = win.vf ∧ win'.current = win.current + k := by
  induction k generalizing win with
  | zero => exact ⟨win, rfl, rfl, rfl⟩
  | succ k ih =>
      have hstep := processInput_down (t := t) (getLast?_withMenu b win)
      rw [update_withMenu, vft_withMenu] at hstep
      generalize hn : (b.vft.combinedFrames win.vf).length = n at hk hstep
      have hcurrent : (win.down n).current = win.current + 1 := by
        have hdown : (win.down n).current
            = if (win.current : Int) < n - 1 then win.current + 1 else win.current :=
          (apply_ite SelectVisualFrameWindow.current _ _ _).trans (ite_self _)
        rw [hdown, if_pos (by omega)]
      obtain ⟨win', hrun, hvf, hend⟩ := ih (win.down n) (by rw [vf_down, hn]; omega)
      refine ⟨win', ?_, hvf.trans (vf_down n win), by omega⟩
      rw [List.replicate_succ, run, List.foldlM_cons, hstep]
      exact hrun

/-- Enter on a frame that combines others. -/
theorem enter_withMenu (hcoherent : Coherent t b.vft)
    (hwindows : b.winStack = [.status, .flameGraph]) {address : List Nat}
    {s : Rose VisualFrameNode} (hat : b.vft.At b.currentVf address s) (hplus : s.label.cf = none)
    (hne : s.label.combinedFrames ≠ []) :
    ∃ win, b.processInput t .enter = some (b.withMenu win) ∧ win.vf = b.currentVf ∧
      win.current = 0 := by
  obtain ⟨win, hinit, hvf, hcurrent⟩ := exists_select_init b.terminal hcoherent hat hne
  refine ⟨win, ?_, hvf, hcurrent⟩
  rw [processInput_focus hwindows, flameGraphInput]
  simp only [hat.vf, Option.bind_eq_bind, Option.bind_some, hat.combinedFrames]
  rw [if_neg (not_not.mpr hplus), if_pos hne, hinit]
  rfl

/-- Enter in a menu. -/
theorem enter_member (hcoherent : Coherent t b.vft) {win : SelectVisualFrameWindow} {build : Nat}
    {address : List Nat} (hvf : win.vf = .frame build address) {cf : Nat}
    (hcf : b.vft.cf (.member build address win.current) = some cf) :
    ∃ cs, t.Lineage t.head cs ∧ CallFrameTree.lastOf t.head cs = cf ∧
      (b.withMenu win).processInput t .enter
        = some { b with vft := b.vft.adopt t cs, currentVf := (b.vft.adopt t cs).startVf } := by
  obtain ⟨cs, hcs, hlast, hrun⟩ := rebuildTree_eq_adopt hcoherent.genealogical hcf
  refine ⟨cs, hcs, hlast, ?_⟩
  rw [processInput, getLast?_withMenu]
  simp only [selectInput, hvf, rebuild, VisualFrameTree.step, hrun,
    Option.bind_eq_bind, Option.bind_some, Option.pure_def, pop, withMenu, List.dropLast_concat]

/-- Enter, down and Enter lead to a member of combined frames. -/
theorem member_inspects (hinv : Inv t b) (hwindows : b.winStack = [.status, .flameGraph])
    (hw : 1 ≤ b.vft.width) (hflag : b.vft.withCombinedFrames = true) {address : List Nat}
    {s : Rose VisualFrameNode} (hat : b.vft.At b.currentVf address s) (hplus : s.label.cf = none)
    {index : Nat} (hindex : index < s.label.combinedFrames.length) {cf : Nat}
    (hcf : b.vft.cf (.member (b.vft.builds.length - 1) address index) = some cf) :
    ∃ b', Leads t b b' ∧ Inspects t cf b' := by
  have hne : s.label.combinedFrames ≠ [] := List.ne_nil_of_length_pos (by omega)
  obtain ⟨win, hopen, hvf, hzero⟩ := enter_withMenu hinv.coherent hwindows hat hplus hne
  obtain ⟨win', hdown, hvf', hcurrent⟩ := run_select (t := t) (b := b) win (k := index) (by
    rw [hvf, hat.combinedFrames]
    omega)
  have href : win'.vf = .frame (b.vft.builds.length - 1) address := by
    obtain ⟨-, -, href, -⟩ := hat
    rw [hvf', hvf, href]
  rw [show index = win'.current by omega] at hcf
  obtain ⟨cs, hcs, hlast, henter⟩ := enter_member hinv.coherent href hcf
  refine ⟨_, ?_, inspects_adopt hwindows hw hcs hlast hinv.coherent.genealogical rfl hflag⟩
  exact (Leads.key hopen).trans (.trans ⟨_, hdown⟩ (Leads.key henter))

/-- **One call frame further**: from an inspected call frame to each of its children. -/
theorem Inspects.child (hweighted : t.Weighted) {a c : Nat} (h : Inspects t a b)
    (hc : c ∈ t.frames a) : ∃ b', Leads t b b' ∧ Inspects t c b' := by
  obtain ⟨ref, hoffers, hcf⟩ :=
    exists_zoom_child hweighted h.inv.coherent h.width h.combined h.cf hc
  obtain ⟨tree, address, s, htree, hs, -, href⟩ := hoffers
  obtain ⟨key, n, -, -, harrows⟩ := exists_arrows h.inv h.focus htree hs
  have hthere : Leads t b (b.atFrame address) := ⟨_, harrows⟩
  have hinv := hthere.inv h.inv
  have hat : (b.atFrame address).vft.At (b.atFrame address).currentVf address s :=
    ⟨tree, htree, rfl, hs⟩
  rcases href with rfl | ⟨index, hindex, rfl⟩
  · obtain ⟨b', henter, hinspects⟩ := enter_inspects hinv h.focus h.width h.combined hcf
    exact ⟨b', hthere.trans (Leads.key henter), hinspects⟩
  · have hplus : s.label.cf = none := by
      obtain ⟨before, cs, -, hadopt⟩ := h.inv.coherent.zoomed
      have hwidth := h.width
      rw [hadopt] at htree hwidth
      rw [current_adopt, Option.some.injEq] at htree
      have hplain := plain_zoomedTree (t := t) before.toCanvas hwidth cs
      rw [htree] at hplain
      by_contra hsome
      have hnil := hplain address s hs (Option.isSome_iff_ne_none.mpr hsome)
      rw [hnil] at hindex
      exact absurd hindex (Nat.not_lt_zero _)
    obtain ⟨b', hleads, hinspects⟩ :=
      member_inspects hinv h.focus h.width h.combined hat hplus hindex hcf
    exact ⟨b', hthere.trans hleads, hinspects⟩

/-- Along every line of call frames. -/
theorem Inspects.lineage (hweighted : t.Weighted) {a : Nat} (h : Inspects t a b) {cs : List Nat}
    (hcs : t.Lineage a cs) : ∃ b', Leads t b b' ∧ Inspects t (CallFrameTree.lastOf a cs) b' := by
  induction cs generalizing a b with
  | nil => exact ⟨b, .refl b, h⟩
  | cons c cs ih =>
      obtain ⟨b₁, hleads, h₁⟩ := h.child hweighted hcs.1
      obtain ⟨b', hleads', h'⟩ := ih h₁ hcs.2
      exact ⟨b', hleads.trans hleads', h'⟩

/-! ## Back to the head -/

/-- The flame-graph window is open. -/
def Open (b : TerminalBrowser) : Prop := Window.flameGraph ∈ b.winStack

theorem exists_focus (hinv : Inv t b) (hopen : b.Open) :
    ∃ b', Leads t b b' ∧ Inv t b' ∧ b'.winStack = [.status, .flameGraph] ∧ b'.vft = b.vft := by
  rcases hinv.windows with hw | hw | hw | ⟨win, hw, -⟩
  · rw [Open, hw] at hopen
    cases hopen
  · rw [Open, hw, List.mem_singleton] at hopen
    cases hopen
  · exact ⟨b, .refl b, hinv, hw, rfl⟩
  · have hq : b.processInput t .q = some b.pop := by
      rw [processInput, hw]
      rfl
    refine ⟨b.pop, Leads.key hq, hinv.pop, ?_, rfl⟩
    rw [pop, hw]
    rfl

/-- Flipping, when combined frames are off. -/
theorem exists_combined (hinv : Inv t b) (hwindows : b.winStack = [.status, .flameGraph]) :
    ∃ b', Leads t b b' ∧ Inv t b' ∧ b'.winStack = [.status, .flameGraph] ∧
      b'.vft.width = b.vft.width ∧ b'.vft.withCombinedFrames = true := by
  cases hflag : b.vft.withCombinedFrames with
  | true => exact ⟨b, .refl b, hinv, hwindows, rfl, hflag⟩
  | false =>
      obtain ⟨vft, hflip, -, hcanvas, -⟩ := rebuildTree_startVf hinv.coherent true
      have hstep : b.processInput t .c
          = some { b with vft, currentVf := vft.startVf } := by
        rw [processInput_focus hwindows]
        show b.rebuild t .flip = _
        rw [rebuild, show b.vft.step t .flip = some vft by
          rw [VisualFrameTree.step, hflag]; exact hflip]
        rfl
      refine ⟨_, Leads.key hstep, (Leads.key hstep).inv hinv, hwindows, ?_, ?_⟩
      · show vft.width = b.vft.width
        rw [hcanvas]
      · show vft.withCombinedFrames = true
        rw [hcanvas]

/-- Resetting inspects the head. -/
theorem exists_head (hinv : Inv t b) (hwindows : b.winStack = [.status, .flameGraph])
    (hw : 1 ≤ b.vft.width) (hflag : b.vft.withCombinedFrames = true) :
    ∃ b', Leads t b b' ∧ Inspects t t.head b' := by
  obtain ⟨s, hat, hcf⟩ := hinv.coherent.at_head
  obtain ⟨cs, hcs, hlast, hrun⟩ :=
    rebuildTree_eq_adopt hinv.coherent.genealogical (hat.cf.trans hcf)
  have hstep : b.processInput t .r
      = some { b with vft := b.vft.adopt t cs, currentVf := (b.vft.adopt t cs).startVf } := by
    rw [processInput_focus hwindows]
    show b.rebuild t .reset = _
    rw [rebuild, show b.vft.step t .reset = some (b.vft.adopt t cs) from hrun]
    rfl
  exact ⟨_, Leads.key hstep,
    inspects_adopt hwindows hw hcs hlast hinv.coherent.genealogical rfl hflag⟩

/-- No key changes the area of the picture, nor the filler. -/
theorem area_processInput {key : Key} (hinv : Inv t b) (h : b.processInput t key = some b') :
    b'.vft.x = b.vft.x ∧ b'.vft.width = b.vft.width ∧ b'.vft.wsFiller = b.vft.wsFiller := by
  have hrebuild : ∀ {op : Op} {c : TerminalBrowser}, b.rebuild t op = some c →
      c.vft.x = b.vft.x ∧ c.vft.width = b.vft.width ∧ c.vft.wsFiller = b.vft.wsFiller := by
    intro op c hc
    obtain ⟨vft, hstep, rfl⟩ := rebuild_eq_some.mp hc
    exact area_step hstep
  have hsame : b.vft.x = b.vft.x ∧ b.vft.width = b.vft.width ∧ b.vft.wsFiller = b.vft.wsFiller :=
    ⟨rfl, rfl, rfl⟩
  rcases hinv.processInput_cases h with ⟨-, rfl⟩ | ⟨-, rfl⟩ | ⟨-, h⟩ | ⟨win, -, -, h⟩
  · exact hsame
  · exact hsame
  · rcases flameGraphInput_cases h with ⟨_, _, rfl⟩ | rfl | ⟨op, hop, -⟩ | ⟨_, _, _, rfl⟩
    · exact hsame
    · exact hsame
    · exact hrebuild hop
    · exact hsame
  · rcases selectInput_cases h with ⟨-, rfl | rfl | ⟨_, rfl⟩⟩ | ⟨-, _, _, c, -, hc, rfl⟩
    · exact hsame
    · exact hsame
    · exact hsame
    · rw [show c.pop.vft = c.vft from rfl]
      exact hrebuild hc

theorem area_run {keys : List Key} (hinv : Inv t b) (hrun : b.run t keys = some b') :
    b'.vft.x = b.vft.x ∧ b'.vft.width = b.vft.width ∧ b'.vft.wsFiller = b.vft.wsFiller := by
  induction keys generalizing b with
  | nil =>
      cases hrun
      exact ⟨rfl, rfl, rfl⟩
  | cons key keys ih =>
      rw [run, List.foldlM_cons, Option.bind_eq_bind, Option.bind_eq_some_iff] at hrun
      obtain ⟨c, hstep, hrun⟩ := hrun
      obtain ⟨hx, hwidth, hfiller⟩ := ih ((Leads.key hstep).inv hinv) hrun
      obtain ⟨hx₁, hwidth₁, hfiller₁⟩ := area_processInput hinv hstep
      exact ⟨hx.trans hx₁, hwidth.trans hwidth₁, hfiller.trans hfiller₁⟩

/-- What the picture is drawn on in every reachable state. -/
theorem exists_area {terminal : Terminal} {wsFiller : Str} {keys : List Key}
    (hrun : (display t terminal wsFiller).bind (run t · keys) = some b) :
    Inv t b ∧ b.vft.x = 0 ∧ b.vft.width = terminal.cols ∧ b.vft.wsFiller = wsFiller := by
  obtain ⟨start, hdisplay, hstart, -⟩ := exists_display t terminal wsFiller
  rw [hdisplay, Option.bind_some] at hrun
  obtain ⟨hx, hwidth, hfiller⟩ := area_run hstart hrun
  cases hdisplay
  exact ⟨Leads.inv ⟨keys, hrun⟩ hstart, hx, hwidth, hfiller⟩

/-- **The keys lead to every call frame.** In the browser of stacks with non-negative counts, on a
terminal of at least one column: from every state that some keys lead to and in which the
flame-graph window is open, and for every call frame, some keys lead to a state in which that window
has the focus and the current frame is the zoomed one and shows this call frame. What is drawn
between the keys is not part of it. -/
theorem exists_keys_to_node {samples : List (List Str × Int)} (hnonneg : ∀ s ∈ samples, 0 ≤ s.2)
    (terminal : Terminal) (hcols : 1 ≤ terminal.cols) (wsFiller : Str) (keys : List Key)
    {b : TerminalBrowser}
    (hrun : (display (.ofSamples samples) terminal wsFiller).bind
      (run (.ofSamples samples) · keys) = some b) (hopen : b.Open) {n : Nat}
    (hn : ∃ p, n ∈ (CallFrameTree.ofSamples samples).nodesAt 0 p) :
    ∃ keys' b', b.run (.ofSamples samples) keys' = some b' ∧
      b'.winStack = [.status, .flameGraph] ∧ b'.currentVf = b'.vft.startVf ∧
      b'.vft.cf b'.currentVf = some n := by
  obtain ⟨hinv, -, hwidth, -⟩ := exists_area hrun
  -- close the menu, turn combined frames on and reset
  obtain ⟨b₁, hleads₁, hinv₁, hfocus₁, hvft₁⟩ := exists_focus hinv hopen
  obtain ⟨b₂, hleads₂, hinv₂, hfocus₂, hwidth₂, hflag₂⟩ := exists_combined hinv₁ hfocus₁
  obtain ⟨b₃, hleads₃, h₃⟩ := exists_head hinv₂ hfocus₂ (by rw [hwidth₂, hvft₁]; omega) hflag₂
  -- then call frame by call frame
  obtain ⟨p, hp⟩ := hn
  obtain ⟨cs, hcs, hlast⟩ := CallFrameTree.exists_lineage hp
  obtain ⟨b', hleads, h'⟩ := h₃.lineage (ofSamples_weighted_of_nonneg hnonneg) hcs
  obtain ⟨keys', hkeys'⟩ := hleads₁.trans (hleads₂.trans (hleads₃.trans hleads))
  refine ⟨keys', b', hkeys', h'.focus, h'.zoomed, ?_⟩
  rw [h'.zoomed, h'.cf]
  exact congrArg some hlast

/-- `m;f` nine times and `m;g` once, so that `g` has no frame of its own on five columns. -/
def twoStacks : List (List Str × Int) := [([['m'], ['f']], 9), ([['m'], ['g']], 1)]

theorem exists_keys_to_node_fiveColumns :
    ∃ b keys' b', display (.ofSamples twoStacks) ⟨10, 5⟩ [' '] = some b ∧
      b.run (.ofSamples twoStacks) keys' = some b' ∧ b'.winStack = [.status, .flameGraph] ∧
      b'.vft.cf b'.currentVf = some 3 := by
  obtain ⟨b, hdisplay, -⟩ := exists_display (.ofSamples twoStacks) ⟨10, 5⟩ [' ']
  have hrun : (display (.ofSamples twoStacks) ⟨10, 5⟩ [' ']).bind
      (run (.ofSamples twoStacks) · []) = some b := by
    rw [hdisplay]
    rfl
  have hopen : b.Open := by
    cases hdisplay
    exact List.mem_cons_of_mem _ List.mem_cons_self
  obtain ⟨keys', b', hkeys', hfocus, -, hcf⟩ := exists_keys_to_node (n := 3) (by decide) ⟨10, 5⟩
    (by decide) [' '] [] hrun hopen ⟨[['m'], ['g']], by decide +kernel⟩
  exact ⟨b, keys', b', hdisplay, hkeys', hfocus, hcf⟩

end TerminalBrowser

end LdbToolchain.Tfg
