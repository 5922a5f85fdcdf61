import LdbToolchain.Getauxval.Basic

/-!
# `AT_SECURE` along every run

`AT_SECURE` is answered from `__auxv_secure` by both lookup functions. The two initialisers differ
in how they fill that variable: `__auxv_init_environ` takes the entry of the vector it has just
located, `__auxv_init_procfs` asks `__getauxval_procfs`, which answers from `__auxv_secure` itself.
So the variable stays 0 on the procfs path, whatever the vector says, and
`getauxval_secure_faithful_iff` gives the exact condition under which the answer is nevertheless
right.
-/

namespace LdbToolchain.Getauxval

variable {v : Auxv} {s : State}

/-! ## Looking an entry up in memory -/

/-- `__find_auxv` finds the first entry of the type, wherever in memory the vector lies. -/
theorem findAuxv_entries (type : Word) (l : List Aux) (hl : ∀ a ∈ l, a.type ≠ AT_NULL)
    (before : List Word) :
    (findAuxv type (l.flatMap (fun a => [a.type, a.val]) ++ [AT_NULL, 0]) before.length).map
        (fun j => (before ++ (l.flatMap (fun a => [a.type, a.val]) ++ [AT_NULL, 0])).getD j 0)
      = (l.find? (·.type = type)).map Aux.val := by
  induction l generalizing before with
  | nil => rfl
  | cons a l ih =>
      have ha : a.type ≠ 0 := hl a (by simp)
      simp only [List.flatMap_cons, List.cons_append, List.nil_append, findAuxv, if_neg ha]
      by_cases htype : a.type = type
      · simp [htype]
      · have hrest := ih (fun b hb => hl b (by simp [hb])) (before ++ [a.type, a.val])
        simp only [List.length_append, List.length_cons, List.length_nil, List.append_assoc,
          List.cons_append, List.nil_append] at hrest
        rw [if_neg htype, List.find?_cons_of_neg (by simpa using htype)]
        exact hrest

theorem findAuxv_words (v : Auxv) (type : Word) :
    ((findAuxv type v.words 0).map fun j => v.words.getD j 0).getD 0 = v.value type := by
  have h := findAuxv_entries type v.entries v.nonnull []
  exact congrArg (Option.getD · 0) h

theorem pastEnviron_finds {env ws : List Word} (henv : ∀ p ∈ env, p ≠ 0) :
    pastEnviron (env ++ 0 :: ws) = ws := by
  induction env with
  | nil => rfl
  | cons p env ih =>
      have hp : p ≠ 0 := henv p (by simp)
      have hrest := ih fun q hq => henv q (by simp [hq])
      unfold pastEnviron at hrest ⊢
      rw [List.cons_append, List.dropWhile_cons_of_pos (by simpa using hp)]
      exact hrest

/-! ## What each function leaves alone -/

/-- `errno` and the procfs table are all that reading the vector changes. -/
def SameButTable (s s' : State) : Prop :=
  s'.auxvSecure = s.auxvSecure ∧ s'.auxvEnviron = s.auxvEnviron ∧
    s'.getauxvalFunc = s.getauxvalFunc

theorem SameButTable.trans {s₁ s₂ s₃ : State} (h₁ : SameButTable s₁ s₂)
    (h₂ : SameButTable s₂ s₃) : SameButTable s₁ s₃ :=
  ⟨h₂.1.trans h₁.1, h₂.2.1.trans h₁.2.1, h₂.2.2.trans h₁.2.2⟩

theorem wlp_retryRead (reads : List RawRead) (s : State) :
    wlp (retryRead reads) (fun _ s' => SameButTable s s') s := by
  induction reads generalizing s with
  | nil => simp [retryRead, SameButTable]
  | cons r reads ih =>
      cases r with
      | interrupted =>
          simp only [retryRead, wlp_bind, setErrno, wlp_modify, wlp_pure]
          exact wlp_mono (ih _) fun _ s' h => SameButTable.trans ⟨rfl, rfl, rfl⟩ h
      | failed e => simp [retryRead, setErrno]
      | short => simp [retryRead, SameButTable]
      | aux a => simp [retryRead, SameButTable]

theorem wlp_readAuxv (reads : List RawRead) (s : State) :
    wlp (readAuxv reads) (fun _ s' => SameButTable s s') s := by
  induction hn : reads.length using Nat.strongRecOn generalizing reads s with
  | ind n ih =>
    rw [readAuxv, wlp_bind]
    refine wlp_mono (wlp_retryRead reads s) ?_
    rintro (_ | ⟨⟨aux, rest⟩, hlt⟩) s₁ h₁
    · exact (wlp_pure ..).mpr h₁
    · have hrec := fun s₂ => ih rest.length (hn ▸ hlt) rest s₂ rfl
      dsimp only
      split
      · exact (wlp_pure ..).mpr h₁
      split
      · exact wlp_mono (hrec s₁) fun _ s' h => h₁.trans h
      split
      · rw [wlp_bind, wlp_modify]
        exact wlp_mono (hrec _) fun _ s' h => h₁.trans (SameButTable.trans ⟨rfl, rfl, rfl⟩ h)
      · simp

theorem wlp_getauxvalProcfs (type : Word) (s : State) :
    wlp (getauxvalProcfs type)
      (fun r s' => SameButTable s s' ∧ (type = AT_SECURE → r = s'.auxvSecure)) s := by
  unfold getauxvalProcfs
  split
  · simp [SameButTable]
  · next hne => split <;> simp [SameButTable, setErrno, hne]

theorem wlp_getauxvalEnviron (type : Word) (s : State) :
    wlp (getauxvalEnviron type)
      (fun r s' => SameButTable s s' ∧ (type = AT_SECURE → r = s'.auxvSecure)) s := by
  unfold getauxvalEnviron
  split
  · simp [SameButTable]
  · next hne =>
    rw [wlp_bind, wlp_get]
    split
    · split <;> simp [SameButTable, setErrno, hne]
    · simp [SameButTable, setErrno, hne]

/-! ## The invariant -/

/-- `getauxval_func` points at a lookup function: an initialiser has read the vector. -/
def State.VectorRead (s : State) : Prop :=
  s.getauxvalFunc = .procfs ∨ s.getauxvalFunc = .environ

/-- Where the state machine is after at least one call, and what `__auxv_secure` holds there. Which
of the two paths was taken depends on the first call alone. -/
def SecureInv (v : Auxv) (firstOpenFailed : Bool) (s : State) : Prop :=
  match firstOpenFailed, s.getauxvalFunc with
  | false, .procfs => s.auxvSecure = 0
  | true, .initEnviron => s.auxvSecure = 0
  | true, .environ => s.auxvSecure = v.value AT_SECURE
  | _, _ => False

theorem SecureInv.congr {b : Bool} {s s' : State} (h : SecureInv v b s)
    (hs : SameButTable s s') : SecureInv v b s' := by
  unfold SecureInv at h ⊢
  rwa [hs.1, hs.2.2]

/-- What a call leaves behind and, once the vector has been read, answers for `AT_SECURE`. -/
def Answers (v : Auxv) (b : Bool) (c : Call) (r : Word) (s : State) : Prop :=
  SecureInv v b s ∧ (c.type = AT_SECURE → s.VectorRead → r = s.auxvSecure)

def Call.openFailed (c : Call) : Bool :=
  match c.procfs with
  | .error _ => true
  | .ok _ => false

theorem wlp_auxvInitEnviron {c : Call} (hc : c.Finds v) (hfunc : s.getauxvalFunc = .initEnviron)
    (hsecure : s.auxvSecure = 0) :
    wlp (auxvInitEnviron c) (Answers v true c) s := by
  unfold auxvInitEnviron
  split
  · simp [setErrno, Answers, SecureInv, State.VectorRead, hfunc, hsecure]
  · next words hwords =>
    obtain ⟨env, henv, rfl⟩ := hc.environ words hwords
    have hvalue := findAuxv_words v AT_SECURE
    simp only [pastEnviron_finds henv, wlp_bind, wlp_modify]
    have finish : ∀ s₁ : State, s₁.getauxvalFunc = .initEnviron →
        s₁.auxvSecure = v.value AT_SECURE →
        wlp (do casFunc .initEnviron .environ; getauxvalEnviron c.type) (Answers v true c) s₁ := by
      intro s₁ hfunc₁ hsecure₁
      simp only [casFunc, wlp_bind, wlp_modify, if_pos hfunc₁]
      refine wlp_mono (wlp_getauxvalEnviron c.type _) ?_
      rintro r s₂ ⟨hs, hr⟩
      refine ⟨?_, fun ht _ => hr ht⟩
      exact SecureInv.congr (s := { s₁ with getauxvalFunc := .environ }) hsecure₁ hs
    cases hfind : findAuxv AT_SECURE v.words 0 with
    | none =>
        rw [hfind] at hvalue
        exact finish _ hfunc (hsecure.trans hvalue)
    | some index =>
        rw [hfind] at hvalue
        dsimp only
        rw [wlp_bind, wlp_modify]
        exact finish _ hfunc hvalue

/-- The first call decides which path is taken. -/
theorem wlp_getauxval_first {c : Call} (hc : c.Finds v) (e : Int) :
    wlp (getauxval c) (Answers v c.openFailed c) (State.initial e) := by
  unfold getauxval auxvInitProcfs
  rw [wlp_bind, wlp_get]
  cases hprocfs : c.procfs with
  | error e =>
      have hfailed : c.openFailed = true := by simp [Call.openFailed, hprocfs]
      simp only [State.initial, setErrno, casFunc, wlp_bind, wlp_modify, hfailed]
      exact wlp_auxvInitEnviron (s := ⟨_, _, _, .initEnviron, _⟩) hc rfl rfl
  | ok reads =>
      have hopened : c.openFailed = false := by simp [Call.openFailed, hprocfs]
      simp only [State.initial, wlp_bind, hopened]
      refine wlp_mono (wlp_readAuxv reads _) fun _ s₁ h₁ => ?_
      refine wlp_mono (wlp_getauxvalProcfs AT_SECURE s₁) ?_
      rintro secure s₂ ⟨h₂, hr₂⟩
      -- the value stored is the one the variable already had
      have hsecure : secure = 0 := (hr₂ rfl).trans (h₂.1.trans h₁.1)
      have hfunc : s₂.getauxvalFunc = .initProcfs := h₂.2.2.trans h₁.2.2
      simp only [casFunc, wlp_modify, if_pos hfunc]
      refine wlp_mono (wlp_getauxvalProcfs c.type _) ?_
      rintro r s₃ ⟨h₃, hr₃⟩
      refine ⟨?_, fun ht _ => hr₃ ht⟩
      exact SecureInv.congr
        (s := { s₂ with auxvSecure := secure, getauxvalFunc := .procfs }) hsecure h₃

/-- Every later call stays on it. -/
theorem wlp_getauxval_next {b : Bool} {c : Call} (hc : c.Finds v) (h : SecureInv v b s) :
    wlp (getauxval c) (Answers v b c) s := by
  unfold getauxval
  rw [wlp_bind, wlp_get]
  cases hfunc : s.getauxvalFunc with
  | initProcfs => cases b <;> simp [SecureInv, hfunc] at h
  | procfs =>
      refine wlp_mono (wlp_getauxvalProcfs c.type s) ?_
      rintro r s' ⟨hs, hr⟩
      exact ⟨h.congr hs, fun ht _ => hr ht⟩
  | initEnviron =>
      cases b with
      | false => simp [SecureInv, hfunc] at h
      | true =>
          simp only [SecureInv, hfunc] at h
          exact wlp_auxvInitEnviron hc hfunc h
  | environ =>
      refine wlp_mono (wlp_getauxvalEnviron c.type s) ?_
      rintro r s' ⟨hs, hr⟩
      exact ⟨h.congr hs, fun ht _ => hr ht⟩

/-- The invariant along a run: `calls` after a first call whose `open` failed or not. -/
theorem wlp_mapM_getauxval {b : Bool} (calls : List Call) (hcalls : ∀ c ∈ calls, c.Finds v)
    (h : SecureInv v b s) :
    wlp (calls.mapM getauxval) (fun _ s' => SecureInv v b s') s := by
  induction calls generalizing s with
  | nil => simpa using h
  | cons c calls ih =>
      rw [List.mapM_cons]
      simp only [wlp_bind, wlp_pure]
      refine wlp_mono (wlp_getauxval_next (hcalls c (by simp)) h) fun _ s₁ h₁ => ?_
      exact ih (fun c' hc' => hcalls c' (by simp [hc'])) h₁.1

/-- A run of at least one call, `c` being the last. -/
theorem wlp_run {calls : List Call} {c first : Call} (hcalls : ∀ c' ∈ calls ++ [c], c'.Finds v)
    (hfirst : (calls ++ [c]).head? = some first) (e : Int) :
    wlp (do let _ ← calls.mapM getauxval; getauxval c) (Answers v first.openFailed c)
      (State.initial e) := by
  cases calls with
  | nil =>
      obtain rfl : c = first := by simpa using hfirst
      simpa using wlp_getauxval_first (hcalls c (by simp)) e
  | cons c₀ calls =>
      obtain rfl : c₀ = first := by simpa using hfirst
      rw [List.mapM_cons]
      simp only [wlp_bind, wlp_pure]
      refine wlp_mono (wlp_getauxval_first (hcalls c₀ (by simp)) e) fun _ s₁ h₁ => ?_
      refine wlp_mono (wlp_mapM_getauxval calls (fun c' hc' => hcalls c' (by simp [hc'])) h₁.1)
        fun _ s₂ h₂ => ?_
      exact wlp_getauxval_next (hcalls c (by simp)) h₂

/-- One entry read: the body of the loop. -/
theorem readAuxv_aux (a : Aux) (rest : List RawRead) (s : State) :
    readAuxv (.aux a :: rest) s =
      if a.type = AT_NULL then .ok (⟨⟩, s)
      else if a.type = AT_IGNORE ∨ a.type = AT_IGNOREPPC then readAuxv rest s
      else if h : a.type.toNat < 128 then
        readAuxv rest
          { s with auxvProcfs := Function.update s.auxvProcfs ⟨a.type.toNat, h⟩ a.val }
      else .error (.outOfRange a.type) := by
  rw [readAuxv]
  simp only [retryRead, pure_bind]
  split
  · rfl
  split
  · rfl
  split <;> rfl

/-! ## When the answer is right -/

theorem secureGetenv_eq {Name Value : Type} (getenv : Name → Option Value) {c : Call}
    (hc : c.type = AT_SECURE) {r : Word} {s' : State} (hcall : getauxval c s = .ok (r, s'))
    (name : Name) :
    secureGetenv getenv c name s = .ok (if r ≠ 0 then none else getenv name, s') := by
  have hsame : ({ c with type := AT_SECURE } : Call) = c := by rw [← hc]
  unfold secureGetenv
  rw [hsame]
  simp only [bind, StateT.bind, hcall, Except.bind]
  split <;> rfl

/-- **When `AT_SECURE` is reported faithfully.** Take any run of calls that find the vector `v`, the
last of them asking for `AT_SECURE` and leaving the vector read. Its answer is the value of the
`AT_SECURE` entry, with `secure_getenv` refusing every name when that entry is 1, exactly when the
very first call could not open `/proc/self/auxv` or the entry is 0 (or absent). -/
theorem getauxval_secure_faithful_iff {Name Value : Type} (v : Auxv) (e : Int)
    (calls : List Call) (c first : Call) (hcalls : ∀ c' ∈ calls ++ [c], c'.Finds v)
    (hfirst : (calls ++ [c]).head? = some first) (hc : c.type = AT_SECURE)
    (rs : List Word) (r : Word) (s s' : State)
    (hrun : calls.mapM getauxval (State.initial e) = .ok (rs, s))
    (hcall : getauxval c s = .ok (r, s')) (hread : s'.VectorRead) :
    (r = v.value AT_SECURE ∧
      (v.value AT_SECURE = 1 → ∀ (getenv : Name → Option Value) (name : Name),
        secureGetenv getenv c name s = .ok (none, s'))) ↔
    (first.openFailed = true ∨ v.value AT_SECURE = 0) := by
  have hall : (do let _ ← calls.mapM getauxval; getauxval c) (State.initial e) = .ok (r, s') := by
    simp only [bind, StateT.bind, hrun, Except.bind, hcall]
  obtain ⟨hinv, hr⟩ := wlp_run hcalls hfirst e r s' hall
  have hr : r = s'.auxvSecure := hr hc hread
  constructor
  · rintro ⟨hvalue, -⟩
    cases hfailed : first.openFailed with
    | true => exact .inl rfl
    | false =>
        right
        rw [hfailed] at hinv
        rcases hread with hread | hread
        · simp only [SecureInv, hread] at hinv
          rw [← hvalue, hr, hinv]
        · simp [SecureInv, hread] at hinv
  · intro hcond
    have hvalue : r = v.value AT_SECURE := by
      rcases hread with hread | hread <;> cases hfailed : first.openFailed <;>
        simp only [SecureInv, hread, hfailed] at hinv
      · have hzero : v.value AT_SECURE = 0 := hcond.resolve_left (by simp [hfailed])
        rw [hr, hinv, hzero]
      · rw [hr, hinv]
    refine ⟨hvalue, fun hone getenv name => ?_⟩
    have hne : r ≠ 0 := by rw [hvalue, hone]; decide
    rw [secureGetenv_eq getenv hc hcall, if_pos hne]

/-- The vector of a process that runs with elevated privileges. -/
def elevated : Auxv where
  entries := [⟨AT_SECURE, 1⟩]
  nonnull := by decide

/-- It asks for `AT_SECURE` first, where procfs cannot be read and the environment is empty. -/
def askWithoutProcfs : Call where
  type := AT_SECURE
  procfs := .error ENOENT
  environ := some (0 :: elevated.words)

theorem askWithoutProcfs_finds : askWithoutProcfs.Finds elevated where
  procfs := by intro reads h; cases h
  environ := by
    intro words h
    exact ⟨[], by simp, (Option.some.inj h).symm⟩

theorem getauxval_secure_faithful_environ :
    ∃ r s', getauxval askWithoutProcfs (State.initial 0) = .ok (r, s') ∧ r = 1 ∧
      secureGetenv (fun _ : Unit => some ()) askWithoutProcfs () (State.initial 0)
        = .ok (none, s') := by
  have hfinds : ∀ c' ∈ [] ++ [askWithoutProcfs], c'.Finds elevated := by
    simpa using askWithoutProcfs_finds
  have hiff := @getauxval_secure_faithful_iff Unit Unit elevated 0 [] askWithoutProcfs
    askWithoutProcfs hfinds rfl rfl [] 1 (State.initial 0) _ rfl rfl (.inr rfl)
  obtain ⟨hr, hnull⟩ := hiff.mpr (.inl rfl)
  exact ⟨_, _, rfl, rfl, hnull rfl _ ()⟩

/-- It asks for `AT_SECURE` first, and procfs can be read. -/
def askWithProcfs : Call where
  type := AT_SECURE
  procfs := .ok [.aux ⟨AT_SECURE, 1⟩, .aux ⟨AT_NULL, 0⟩]
  environ := some (0 :: elevated.words)

/-- On the procfs path the process looks unprivileged and `secure_getenv` hands out variables. -/
theorem getauxval_secure_lost :
    askWithProcfs.Finds elevated ∧ elevated.value AT_SECURE = 1 ∧
      ∃ s', getauxval askWithProcfs (State.initial 0) = .ok (0, s') ∧ s'.VectorRead ∧
        secureGetenv (fun _ : Unit => some ()) askWithProcfs () (State.initial 0)
          = .ok (some (), s') := by
  refine ⟨⟨?_, ?_⟩, rfl, ?_⟩
  · intro reads h
    cases h
    decide
  · intro words h
    exact ⟨[], by simp, (Option.some.inj h).symm⟩
  · have hloop : ∀ s : State, readAuxv [.aux ⟨AT_SECURE, 1⟩, .aux ⟨AT_NULL, 0⟩] s = .ok
        (⟨⟩, { s with auxvProcfs := Function.update s.auxvProcfs ⟨23, by decide⟩ 1 }) := by
      intro s
      rw [readAuxv_aux, if_neg (by decide), if_neg (by decide), dif_pos (by decide), readAuxv_aux,
        if_pos rfl]
      rfl
    let s' : State :=
      { State.initial 0 with
        auxvProcfs := Function.update (fun _ => 0) ⟨23, by decide⟩ 1
        getauxvalFunc := .procfs }
    have hcall : getauxval askWithProcfs (State.initial 0) = .ok (0, s') := by
      show auxvInitProcfs askWithProcfs (State.initial 0) = _
      simp only [auxvInitProcfs, askWithProcfs, bind, StateT.bind, hloop, Except.bind]
      rfl
    exact ⟨s', hcall, .inl rfl, secureGetenv_eq _ rfl hcall ()⟩

end LdbToolchain.Getauxval
