import LdbToolchain.Getauxval.Secure

/-!
# Every other type along every run

For the types other than `AT_SECURE` the two lookup functions answer from a cache of their own:
`__getauxval_procfs` from a table of 128 slots, `__getauxval_environ` from the vector itself. Each
initialiser fills its cache before it moves `getauxval_func` on, so on every run the answer is the
value in the vector, except while the vector has not been found yet (`getauxval_faithful`).

They differ on what they say of a type that is not there. `__getauxval_environ` sets `errno` to
`ENOENT`; `__getauxval_procfs` does so only for a type outside its table, and an empty slot looks
like an entry of value 0. `backends_agree_iff` is the exact condition under which the two agree.
-/

namespace LdbToolchain.Getauxval

variable {v : Auxv} {s : State}

/-- The vector has an entry of this type. -/
def Auxv.Has (v : Auxv) (type : Word) : Prop := ∃ a ∈ v.entries, a.type = type

instance (v : Auxv) (type : Word) : Decidable (v.Has type) :=
  inferInstanceAs (Decidable (∃ a ∈ v.entries, a.type = type))

theorem Auxv.value_of_not_has {type : Word} (h : ¬ v.Has type) : v.value type = 0 := by
  have hnone : v.entries.find? (·.type = type) = none := by
    rw [List.find?_eq_none]
    intro a ha
    have hne : a.type ≠ type := fun heq => h ⟨a, ha, heq⟩
    simpa using hne
  simp [Auxv.value, hnone]

/-! ## The lookup functions -/

theorem getauxvalProcfs_eq {type : Word} (hsecure : type ≠ AT_SECURE) (s : State) :
    getauxvalProcfs type s =
      if h : type.toNat < 128 then .ok (s.auxvProcfs ⟨type.toNat, h⟩, s)
      else .ok (0, { s with errno := ENOENT }) := by
  unfold getauxvalProcfs
  rw [if_neg hsecure]
  split <;> rfl

/-- On the vector itself nothing is lost: the value, and `ENOENT` when there is none. -/
theorem getauxvalEnviron_eq {type : Word} (hsecure : type ≠ AT_SECURE)
    (hs : s.auxvEnviron = some v.words) :
    getauxvalEnviron type s =
      .ok (v.value type, if v.Has type then s else { s with errno := ENOENT }) := by
  have hfind : (findAuxv type v.words 0).map (v.words.getD · 0) =
      (v.entries.find? (·.type = type)).map Aux.val := findAuxv_entries type v.entries v.nonnull []
  have hhas : (v.entries.find? (·.type = type)).isSome ↔ v.Has type := by
    simp [List.find?_isSome, Auxv.Has]
  have hrun : getauxvalEnviron type s =
      (findAuxv type v.words 0).elim (.ok (0, { s with errno := ENOENT }))
        fun index => .ok (v.words.getD index 0, s) := by
    simp only [getauxvalEnviron, if_neg hsecure, bind, StateT.bind, get, getThe, MonadStateOf.get,
      StateT.get, pure, Except.pure, Except.bind, hs]
    cases findAuxv type v.words 0 with
    | some index => rw [← hs]; rfl
    | none => rw [← hs]; rfl
  rw [hrun]
  cases hindex : findAuxv type v.words 0 with
  | some index =>
      rw [hindex] at hfind
      have hsome : v.Has type := hhas.mp (by rw [← Option.isSome_map, ← hfind]; rfl)
      rw [if_pos hsome, Auxv.value, ← hfind]
      rfl
  | none =>
      rw [hindex] at hfind
      have hnot : ¬ v.Has type := by
        rw [← hhas, ← Option.isSome_map (f := Aux.val), ← hfind]
        simp
      rw [if_neg hnot, Auxv.value_of_not_has hnot]
      rfl

/-! ## Filling the table -/

/-- The types `__auxv_init_procfs` passes over. -/
def Ignored (type : Word) : Prop := type = AT_IGNORE ∨ type = AT_IGNOREPPC

instance (type : Word) : Decidable (Ignored type) :=
  inferInstanceAs (Decidable (type = AT_IGNORE ∨ type = AT_IGNOREPPC))

/-- What one entry does to the table. -/
def Aux.store (table : Fin 128 → Word) (a : Aux) : Fin 128 → Word :=
  if Ignored a.type then table
  else if h : a.type.toNat < 128 then Function.update table ⟨a.type.toNat, h⟩ a.val
  else table

theorem Aux.store_other (a : Aux) (table : Fin 128 → Word) {type : Word} (h : type.toNat < 128)
    (hne : a.type ≠ type) : a.store table ⟨type.toNat, h⟩ = table ⟨type.toNat, h⟩ := by
  have hslot : type.toNat ≠ a.type.toNat := fun heq => hne (BitVec.eq_of_toNat_eq heq.symm)
  unfold Aux.store
  split
  · rfl
  split
  · exact Function.update_of_ne (by simpa using hslot) ..
  · rfl

/-- When no two entries have one type, a slot holds its entry's value at the end. -/
theorem foldl_store (l : List Aux) (hdistinct : (l.map Aux.type).Nodup) (table : Fin 128 → Word)
    {type : Word} (h : type.toNat < 128) :
    l.foldl Aux.store table ⟨type.toNat, h⟩ =
      if Ignored type then table ⟨type.toNat, h⟩
      else ((l.find? (·.type = type)).map Aux.val).getD (table ⟨type.toNat, h⟩) := by
  induction l generalizing table with
  | nil => simp
  | cons a l ih =>
      obtain ⟨hnotin, hrest⟩ := List.nodup_cons.mp hdistinct
      rw [List.foldl_cons, ih hrest]
      by_cases htype : a.type = type
      · subst htype
        have hnone : l.find? (·.type = a.type) = none := by
          rw [List.find?_eq_none]
          intro b hb
          have hne : b.type ≠ a.type := fun heq => hnotin (heq ▸ List.mem_map_of_mem hb)
          simpa using hne
        by_cases hignored : Ignored a.type
        · simp [Aux.store, hignored]
        · simp [Aux.store, hignored, hnone, h]
      · rw [Aux.store_other a table h htype, List.find?_cons_of_neg (by simpa using htype)]

theorem readAuxv_interrupted (rest : List RawRead) (s : State) :
    readAuxv (.interrupted :: rest) s = readAuxv rest { s with errno := EINTR } := by
  rw [readAuxv, readAuxv.eq_def rest]
  simp only [retryRead, bind, StateT.bind, setErrno, modify, modifyGet, MonadStateOf.modifyGet,
    StateT.modifyGet, pure, Except.pure, Except.bind]
  cases retryRead rest { s with errno := EINTR } with
  | error e => rfl
  | ok p =>
      obtain ⟨_ | ⟨⟨aux, reads⟩, _⟩, s'⟩ := p
      · rfl
      · rfl

/-- Reading the whole vector stores every entry, however often it is interrupted. -/
theorem wp_readAuxv (reads : List RawRead) (l : List Aux) (hl : ∀ a ∈ l, a.type ≠ AT_NULL)
    (hrange : ∀ a ∈ l, a.type.toNat < 128)
    (hreads : reads.filter (· ≠ .interrupted) = l.map .aux ++ [.aux ⟨AT_NULL, 0⟩]) (s : State) :
    wp (readAuxv reads)
      (fun _ s' => SameButTable s s' ∧ s'.auxvProcfs = l.foldl Aux.store s.auxvProcfs) s := by
  induction reads generalizing l s with
  | nil => simp at hreads
  | cons r reads ih =>
      by_cases hr : r = .interrupted
      · subst hr
        have hrest := ih l hl hrange (by simpa using hreads) { s with errno := EINTR }
        obtain ⟨u, s', hrun, hsame, htable⟩ := hrest
        exact ⟨u, s', by rw [readAuxv_interrupted, hrun], hsame, htable⟩
      rw [List.filter_cons_of_pos (by simpa using hr)] at hreads
      cases l with
      | nil =>
          obtain ⟨rfl, -⟩ : r = .aux ⟨AT_NULL, 0⟩ ∧ _ := by simpa using hreads
          exact ⟨⟨⟩, s, by rw [readAuxv_aux, if_pos rfl], ⟨rfl, rfl, rfl⟩, rfl⟩
      | cons a l =>
          obtain ⟨rfl, hreads⟩ : r = .aux a ∧ _ := by simpa using hreads
          have hrest := ih l (fun b hb => hl b (by simp [hb])) (fun b hb => hrange b (by simp [hb]))
            (by simpa using hreads)
          have ha : a.type.toNat < 128 := hrange a (by simp)
          rw [wp, readAuxv_aux, if_neg (hl a (by simp)), dif_pos ha, List.foldl_cons]
          by_cases hignored : a.type = AT_IGNORE ∨ a.type = AT_IGNOREPPC
          · rw [if_pos hignored, show a.store s.auxvProcfs = s.auxvProcfs from if_pos hignored]
            exact hrest s
          · rw [if_neg hignored]
            obtain ⟨u, s', hrun, hsame, htable⟩ := hrest _
            refine ⟨u, s', hrun, SameButTable.trans ⟨rfl, rfl, rfl⟩ hsame, ?_⟩
            rw [htable, Aux.store, if_neg (show ¬ Ignored a.type from hignored), dif_pos ha]

/-! ## The invariant -/

/-- How a call may move `getauxval_func`. -/
inductive Func.Next : Func → Func → Prop where
  | read : Next .initProcfs .procfs
  | fallback : Next .initProcfs .initEnviron
  | locate : Next .initEnviron .environ

/-- The cache of the function `getauxval_func` points at. -/
def LookupInv (v : Auxv) (s : State) : Prop :=
  match s.getauxvalFunc with
  | .initProcfs => s.auxvProcfs = fun _ => 0
  | .procfs => s.auxvProcfs = v.entries.foldl Aux.store fun _ => 0
  | .initEnviron => True
  | .environ => s.auxvEnviron = some v.words

/-- This call has nowhere to find the vector: procfs is out of reach, and `__environ` not set. -/
def Pending (c : Call) (s : State) : Prop :=
  (s.getauxvalFunc = .initProcfs ∧ c.openFailed = true ∨ s.getauxvalFunc = .initEnviron) ∧
    c.environ = none

/-- The types a caller may ask for, `AT_SECURE` apart. -/
def Plain (type : Word) : Prop :=
  type ≠ AT_NULL ∧ type ≠ AT_IGNORE ∧ type ≠ AT_IGNOREPPC ∧ type ≠ AT_SECURE

/-- The vectors in question: distinct types in 2..127 other than `AT_IGNOREPPC`. -/
structure Auxv.Regular (v : Auxv) : Prop where
  distinct : (v.entries.map Aux.type).Nodup
  range : ∀ a ∈ v.entries, 2 ≤ a.type.toNat ∧ a.type.toNat < 128 ∧ a.type ≠ AT_IGNOREPPC

theorem Auxv.Regular.not_has (hv : v.Regular) {type : Word} (h : ¬ type.toNat < 128) :
    ¬ v.Has type := by
  rintro ⟨a, ha, rfl⟩
  exact h (hv.range a ha).2.1

/-- The table filled from a regular vector answers for every plain type. -/
theorem Auxv.Regular.table (hv : v.Regular) {type : Word} (hplain : Plain type) :
    (if h : type.toNat < 128 then v.entries.foldl Aux.store (fun _ => 0) ⟨type.toNat, h⟩ else 0)
      = v.value type := by
  split
  · next h =>
    have hignored : ¬ Ignored type := fun hi => hi.elim hplain.2.1 hplain.2.2.1
    rw [foldl_store _ hv.distinct, if_neg hignored, Auxv.value]
  · next h => rw [Auxv.value_of_not_has (hv.not_has h)]

/-! ## One call -/

/-- What a call with the right value, or none yet, leaves behind. -/
structure Faithful (v : Auxv) (c : Call) (s : State) (r : Word) (s' : State) : Prop where
  inv : LookupInv v s'
  pending : Plain c.type → Pending c s → r = 0
  found : Plain c.type → ¬ Pending c s → r = v.value c.type
  forward : Relation.ReflTransGen Func.Next s.getauxvalFunc s'.getauxvalFunc

theorem wp_getauxvalProcfs (type : Word) (s : State) :
    wp (getauxvalProcfs type)
      (fun r s' => (∃ e, s' = { s with errno := e }) ∧ (type ≠ AT_SECURE →
        r = if h : type.toNat < 128 then s.auxvProcfs ⟨type.toNat, h⟩ else 0)) s := by
  by_cases hsecure : type = AT_SECURE
  · subst hsecure
    exact ⟨s.auxvSecure, s, rfl, ⟨s.errno, rfl⟩, fun h => absurd rfl h⟩
  have hrun := getauxvalProcfs_eq hsecure s
  by_cases h : type.toNat < 128
  · rw [dif_pos h] at hrun
    exact ⟨_, _, hrun, ⟨s.errno, rfl⟩, fun _ => by rw [dif_pos h]⟩
  · rw [dif_neg h] at hrun
    exact ⟨_, _, hrun, ⟨ENOENT, rfl⟩, fun _ => by rw [dif_neg h]⟩

theorem wp_getauxvalEnviron {type : Word} (hs : s.auxvEnviron = some v.words) :
    wp (getauxvalEnviron type)
      (fun r s' => (∃ e, s' = { s with errno := e }) ∧ (Plain type → r = v.value type)) s := by
  by_cases hsecure : type = AT_SECURE
  · subst hsecure
    exact ⟨s.auxvSecure, s, rfl, ⟨s.errno, rfl⟩, fun h => absurd rfl h.2.2.2⟩
  refine ⟨_, _, getauxvalEnviron_eq hsecure hs, ?_, fun _ => rfl⟩
  split
  · exact ⟨s.errno, rfl⟩
  · exact ⟨ENOENT, rfl⟩

/-- The first initialiser, when it can read the file, fills its table and looks the type up. -/
theorem wp_auxvInitProcfs_read {c : Call} {reads : List RawRead} (hc : c.Finds v)
    (hprocfs : c.procfs = .ok reads) (hrange : ∀ a ∈ v.entries, a.type.toNat < 128) (s : State) :
    wp (auxvInitProcfs c)
      (fun r s' => s'.auxvProcfs = v.entries.foldl Aux.store s.auxvProcfs ∧
        (s.getauxvalFunc = .initProcfs → s'.getauxvalFunc = .procfs) ∧
        (c.type ≠ AT_SECURE →
          r = if h : c.type.toNat < 128 then s'.auxvProcfs ⟨c.type.toNat, h⟩ else 0)) s := by
  unfold auxvInitProcfs
  simp only [hprocfs, wp_bind]
  refine wp_mono (wp_readAuxv reads v.entries v.nonnull hrange (hc.procfs reads hprocfs) s) ?_
  rintro - s₁ ⟨hsame, htable⟩
  refine wp_mono (wp_getauxvalProcfs AT_SECURE s₁) ?_
  rintro secure s₂ ⟨⟨e, rfl⟩, -⟩
  have hfunc : s₁.getauxvalFunc = s.getauxvalFunc := hsame.2.2
  simp only [casFunc, wp_modify, hfunc]
  refine wp_mono (wp_getauxvalProcfs c.type _) ?_
  rintro r s' ⟨⟨e', rfl⟩, hr⟩
  by_cases hinit : s.getauxvalFunc = .initProcfs
  · rw [if_pos hinit] at hr ⊢
    exact ⟨htable, fun _ => rfl, hr⟩
  · rw [if_neg hinit] at hr ⊢
    exact ⟨htable, fun h => absurd h hinit, hr⟩

/-- The second one, once `__environ` is set. -/
theorem wp_auxvInitEnviron_locate {c : Call} {words : List Word} (hc : c.Finds v)
    (henviron : c.environ = some words) (s : State) :
    wp (auxvInitEnviron c)
      (fun r s' => s'.auxvEnviron = some v.words ∧
        (s.getauxvalFunc = .initEnviron → s'.getauxvalFunc = .environ) ∧
        (Plain c.type → r = v.value c.type)) s := by
  obtain ⟨env, henv, rfl⟩ := hc.environ words henviron
  have finish : ∀ s₁ : State, s₁.getauxvalFunc = s.getauxvalFunc →
      s₁.auxvEnviron = some v.words →
      wp (do casFunc .initEnviron .environ; getauxvalEnviron c.type)
        (fun r s' => s'.auxvEnviron = some v.words ∧
          (s.getauxvalFunc = .initEnviron → s'.getauxvalFunc = .environ) ∧
          (Plain c.type → r = v.value c.type)) s₁ := by
    intro s₁ hfunc hwords
    simp only [casFunc, wp_bind, wp_modify, hfunc]
    by_cases hinit : s.getauxvalFunc = .initEnviron
    · rw [if_pos hinit]
      refine wp_mono (wp_getauxvalEnviron hwords) ?_
      rintro r s' ⟨⟨e, rfl⟩, hr⟩
      exact ⟨hwords, fun _ => rfl, hr⟩
    · rw [if_neg hinit]
      refine wp_mono (wp_getauxvalEnviron hwords) ?_
      rintro r s' ⟨⟨e, rfl⟩, hr⟩
      exact ⟨hwords, fun h => absurd h hinit, hr⟩
  unfold auxvInitEnviron
  simp only [henviron, pastEnviron_finds henv, wp_bind, wp_modify]
  cases findAuxv AT_SECURE v.words 0 with
  | none => exact finish _ rfl rfl
  | some index => exact finish _ rfl rfl

/-- The second initialiser, wherever `getauxval_func` was when the call began. -/
theorem wp_auxvInitEnviron {c : Call} (hc : c.Finds v) (hfunc : s.getauxvalFunc = .initEnviron) :
    wp (auxvInitEnviron c)
      (fun r s' => LookupInv v s' ∧ (c.environ = none → r = 0) ∧
        (Plain c.type → c.environ ≠ none → r = v.value c.type) ∧
        Relation.ReflTransGen Func.Next .initEnviron s'.getauxvalFunc) s := by
  cases henviron : c.environ with
  | none =>
      unfold auxvInitEnviron
      simp [henviron, setErrno, LookupInv, hfunc, Relation.ReflTransGen.refl]
  | some words =>
      refine wp_mono (wp_auxvInitEnviron_locate hc henviron s) ?_
      rintro r s' ⟨hwords, hmoved, hr⟩
      have hfunc' := hmoved hfunc
      refine ⟨?_, by simp, fun hplain _ => hr hplain, ?_⟩
      · simpa only [LookupInv, hfunc'] using hwords
      · rw [hfunc']
        exact .single .locate

/-- One call keeps the invariant and answers as well as it can. -/
theorem wp_getauxval {c : Call} (hv : v.Regular) (hc : c.Finds v) (h : LookupInv v s) :
    wp (getauxval c) (Faithful v c s) s := by
  unfold getauxval
  rw [wp_bind, wp_get]
  cases hfunc : s.getauxvalFunc with
  | initProcfs =>
      simp only [LookupInv, hfunc] at h
      dsimp only
      cases hprocfs : c.procfs with
      | error e =>
          have hfailed : c.openFailed = true := by simp [Call.openFailed, hprocfs]
          unfold auxvInitProcfs
          simp only [hprocfs, setErrno, casFunc, wp_bind, wp_modify, if_pos hfunc]
          refine wp_mono (wp_auxvInitEnviron hc rfl) ?_
          rintro r s' ⟨hinv, hnone, hsome, hforward⟩
          refine ⟨hinv, fun _ hp => hnone hp.2, fun hplain hp => hsome hplain ?_, ?_⟩
          · exact fun henviron => hp ⟨.inl ⟨hfunc, hfailed⟩, henviron⟩
          · rw [hfunc]
            exact .head .fallback hforward
      | ok reads =>
          have hopened : ¬ Pending c s := by simp [Pending, hfunc, Call.openFailed, hprocfs]
          refine wp_mono (wp_auxvInitProcfs_read hc hprocfs (fun a ha => (hv.range a ha).2.1) s) ?_
          rintro r s' ⟨htable, hmoved, hr⟩
          have hfunc' := hmoved hfunc
          rw [h] at htable
          refine ⟨?_, fun _ hp => absurd hp hopened, fun hplain _ => ?_, ?_⟩
          · simpa only [LookupInv, hfunc'] using htable
          · rw [hr hplain.2.2.2, htable, hv.table hplain]
          · rw [hfunc, hfunc']
            exact .single .read
  | procfs =>
      simp only [LookupInv, hfunc] at h
      refine wp_mono (wp_getauxvalProcfs c.type s) ?_
      rintro r s' ⟨⟨e, rfl⟩, hr⟩
      refine ⟨by simpa [LookupInv, hfunc] using h, ?_, fun hplain _ => ?_, .refl⟩
      · simp [Pending, hfunc]
      · rw [hr hplain.2.2.2, h, hv.table hplain]
  | initEnviron =>
      refine wp_mono (wp_auxvInitEnviron hc hfunc) ?_
      rintro r s' ⟨hinv, hnone, hsome, hforward⟩
      refine ⟨hinv, fun _ hp => hnone hp.2, fun hplain hp => hsome hplain ?_, ?_⟩
      · exact fun henviron => hp ⟨.inr hfunc, henviron⟩
      · rwa [hfunc]
  | environ =>
      simp only [LookupInv, hfunc] at h
      refine wp_mono (wp_getauxvalEnviron h) ?_
      rintro r s' ⟨⟨e, rfl⟩, hr⟩
      refine ⟨by simpa [LookupInv, hfunc] using h, ?_, fun hplain _ => hr hplain, .refl⟩
      simp [Pending, hfunc]

/-! ## Every run -/

theorem wp_mapM_getauxval (hv : v.Regular) (calls : List Call) (hcalls : ∀ c ∈ calls, c.Finds v)
    (h : LookupInv v s) :
    wp (calls.mapM getauxval) (fun _ s' => LookupInv v s') s := by
  induction calls generalizing s with
  | nil => simpa using h
  | cons c calls ih =>
      rw [List.mapM_cons]
      simp only [wp_bind, wp_pure]
      apply wp_mono (wp_getauxval hv (hcalls c (by simp)) h)
      intro _ s₁ h₁
      exact ih (fun c' hc' => hcalls c' (by simp [hc'])) h₁.inv

/-- Somewhere among these calls `/proc/self/auxv` had to be opened, and could not be. -/
def OpenHasFailed (errno : Int) (calls : List Call) : Prop :=
  ∃ before c after rs s, calls = before ++ c :: after ∧
    before.mapM getauxval (State.initial errno) = .ok (rs, s) ∧
    s.getauxvalFunc = .initProcfs ∧ c.openFailed = true

/-- After at least one call, the first of them has decided the path. -/
theorem wlp_mapM_cons (first : Call) (calls : List Call) (hcalls : ∀ c ∈ first :: calls, c.Finds v)
    (errno : Int) :
    wlp ((first :: calls).mapM getauxval) (fun _ s' => SecureInv v first.openFailed s')
      (State.initial errno) := by
  rw [List.mapM_cons]
  simp only [wlp_bind, wlp_pure]
  refine wlp_mono (wlp_getauxval_first (hcalls first (by simp)) errno) fun _ s₁ h₁ => ?_
  exact wlp_mapM_getauxval calls (fun c hc => hcalls c (by simp [hc])) h₁.1

/-- Only the first call ever opens `/proc/self/auxv`. -/
theorem openHasFailed_iff {errno : Int} {first : Call} {calls : List Call}
    (hcalls : ∀ c ∈ first :: calls, c.Finds v) :
    OpenHasFailed errno (first :: calls) ↔ first.openFailed = true := by
  constructor
  · rintro ⟨before, c, after, rs, s, heq, hrun, hfunc, hfailed⟩
    cases before with
    | nil =>
        obtain ⟨rfl, -⟩ : first = c ∧ calls = after := by simpa using heq
        exact hfailed
    | cons c₀ before =>
        -- one call earlier, and `getauxval_func` would have moved on
        obtain ⟨rfl, rfl⟩ : first = c₀ ∧ calls = before ++ c :: after := by simpa using heq
        have hfinds : ∀ c' ∈ first :: before, c'.Finds v := fun c' hc' => hcalls c' (by grind)
        have hinv := wlp_mapM_cons first before hfinds errno rs s hrun
        simp only [SecureInv, hfunc] at hinv
        cases hb : first.openFailed <;> simp [hb] at hinv
  · intro hfailed
    exact ⟨[], first, calls, [], _, rfl, rfl, rfl, hfailed⟩

/-- What the history says about a call is what `getauxval_func` says about it. -/
theorem pending_iff {errno : Int} {calls : List Call} {c : Call}
    (hcalls : ∀ c' ∈ calls ++ [c], c'.Finds v) {rs : List Word} {s : State}
    (hrun : calls.mapM getauxval (State.initial errno) = .ok (rs, s)) :
    (OpenHasFailed errno (calls ++ [c]) ∧ ¬ s.VectorRead ∧ c.environ = none) ↔ Pending c s := by
  cases calls with
  | nil =>
      obtain rfl : State.initial errno = s := by cases hrun; rfl
      rw [List.nil_append, openHasFailed_iff (by simpa using hcalls)]
      simp [Pending, State.initial, State.VectorRead]
  | cons first calls =>
      have hfinds : ∀ c' ∈ first :: calls, c'.Finds v := fun c' hc' => hcalls c' (by grind)
      have hinv := wlp_mapM_cons first calls hfinds errno rs s hrun
      rw [List.cons_append] at hcalls ⊢
      rw [openHasFailed_iff hcalls]
      cases hfunc : s.getauxvalFunc <;> cases hb : first.openFailed <;>
        simp [SecureInv, hfunc, hb] at hinv <;> simp [Pending, State.VectorRead, hfunc]

/-- **`getauxval` on every run.** Take a regular vector and any calls that find it, `c` being the
last: none of them aborts, and a plain type is answered with its value in the vector (0 when it is
absent), unless opening procfs has failed by then, no lookup function has been reached and
`__environ` is still `NULL`, when the answer is 0. `getauxval_func` moves forward only and stays
where it is once it points at a lookup function. -/
theorem getauxval_faithful (v : Auxv) (hv : v.Regular) (errno : Int) (calls : List Call) (c : Call)
    (hcalls : ∀ c' ∈ calls ++ [c], c'.Finds v) :
    ∃ rs s r s', calls.mapM getauxval (State.initial errno) = .ok (rs, s) ∧
      getauxval c s = .ok (r, s') ∧
      (Plain c.type →
        (OpenHasFailed errno (calls ++ [c]) ∧ ¬ s.VectorRead ∧ c.environ = none → r = 0) ∧
        (¬ (OpenHasFailed errno (calls ++ [c]) ∧ ¬ s.VectorRead ∧ c.environ = none) →
          r = v.value c.type)) ∧
      Relation.ReflTransGen Func.Next s.getauxvalFunc s'.getauxvalFunc ∧
      (s.VectorRead → s'.getauxvalFunc = s.getauxvalFunc) := by
  have hbefore : ∀ c' ∈ calls, c'.Finds v := fun c' hc' => hcalls c' (by simp [hc'])
  obtain ⟨rs, s, hrun, hinv⟩ :=
    wp_mapM_getauxval (s := State.initial errno) hv calls hbefore (by rfl)
  obtain ⟨r, s', hcall, h⟩ := wp_getauxval hv (hcalls c (by simp)) hinv
  refine ⟨rs, s, r, s', hrun, hcall, fun hplain => ?_, h.forward, fun hread => ?_⟩
  · rw [pending_iff hcalls hrun]
    exact ⟨h.pending hplain, h.found hplain⟩
  · -- no arrow leaves a lookup function
    obtain heq | ⟨f, hnext, -⟩ := Relation.ReflTransGen.cases_head h.forward
    · exact heq.symm
    · rcases hread with hread | hread <;> rw [hread] at hnext <;> cases hnext

/-- A vector of two entries: `AT_PAGESZ` and `AT_FLAGS`, the latter 0. -/
def small : Auxv where
  entries := [⟨6, 4096⟩, ⟨8, 0⟩]
  nonnull := by simp [AT_NULL]

theorem small_regular : small.Regular where
  distinct := by decide
  range := by decide

/-- A first call from a sanitizer: neither procfs nor the environment is there yet. -/
def askTooEarly : Call where
  type := 6
  procfs := .error ENOENT
  environ := none

def askLater : Call where
  type := 6
  procfs := .error ENOENT
  environ := some (0 :: small.words)

theorem getauxval_faithful_fallback :
    ∃ rs s r s', [askTooEarly].mapM getauxval (State.initial 0) = .ok (rs, s) ∧
      getauxval askLater s = .ok (r, s') ∧ r = 4096 := by
  have hfinds : ∀ c' ∈ [askTooEarly] ++ [askLater], c'.Finds small := by
    intro c' hc'
    obtain rfl | rfl : c' = askTooEarly ∨ c' = askLater := by simpa using hc'
    · exact ⟨by rintro _ ⟨⟩, by rintro _ ⟨⟩⟩
    · exact ⟨by rintro _ ⟨⟩, fun words h => ⟨[], by simp, (Option.some.inj h).symm⟩⟩
  obtain ⟨rs, s, r, s', hrun, hcall, hvalue, -⟩ :=
    getauxval_faithful small small_regular 0 [askTooEarly] askLater hfinds
  refine ⟨rs, s, r, s', hrun, hcall, (hvalue ?_).2 ?_⟩
  · simp [Plain, askLater, AT_NULL, AT_IGNORE, AT_IGNOREPPC, AT_SECURE]
  · simp [askLater]

/-! ## Absent entries -/

/-- Asked for `type`, both back ends give one value, and `errno` is `ENOENT` afterwards when there
is no such entry and what it was otherwise. -/
def BackendsAgree (v : Auxv) (type : Word) (sp se : State) : Prop :=
  ∀ errno : Int, ∃ r sp' se',
    getauxvalProcfs type { sp with errno } = .ok (r, sp') ∧
    getauxvalEnviron type { se with errno } = .ok (r, se') ∧
    sp'.errno = (if v.Has type then errno else ENOENT) ∧
    se'.errno = (if v.Has type then errno else ENOENT)

/-- **When the back ends agree on absent entries.** After each has found the vector `v` in its own
place, `__getauxval_procfs` and `__getauxval_environ` give one value for `type` and both report its
absence by `ENOENT`, exactly when `type` lies outside the table, or has an entry which is either not
one of the two types passed over when the table is filled or has the value 0. -/
theorem backends_agree_iff (v : Auxv) (hdistinct : (v.entries.map Aux.type).Nodup)
    (hrange : ∀ a ∈ v.entries, a.type.toNat < 128) (type : Word) (hsecure : type ≠ AT_SECURE)
    (cp ce : Call) (hcp : cp.Finds v) (hce : ce.Finds v) (reads : List RawRead)
    (hprocfs : cp.procfs = .ok reads) (words : List Word) (henviron : ce.environ = some words)
    (errno : Int) (s : State) :
    ∃ rp sp re se, auxvInitProcfs cp (State.initial errno) = .ok (rp, sp) ∧
      auxvInitEnviron ce s = .ok (re, se) ∧
      (BackendsAgree v type sp se ↔
        128 ≤ type.toNat ∨ v.Has type ∧ (¬ Ignored type ∨ v.value type = 0)) := by
  obtain ⟨rp, sp, hp, htable, -⟩ :=
    wp_auxvInitProcfs_read hcp hprocfs hrange (State.initial errno)
  have htable : sp.auxvProcfs = v.entries.foldl Aux.store fun _ => 0 := htable
  obtain ⟨re, se, he, hwords, -⟩ := wp_auxvInitEnviron_locate hce henviron s
  refine ⟨rp, sp, re, se, hp, he, ?_⟩
  have hse : ∀ e, getauxvalEnviron type { se with errno := e } = _ := fun e =>
    getauxvalEnviron_eq (s := { se with errno := e }) hsecure hwords
  by_cases h : type.toNat < 128
  · -- a type the table has a slot for
    have hslot : sp.auxvProcfs ⟨type.toNat, h⟩ = if Ignored type then 0 else v.value type := by
      rw [htable, foldl_store _ hdistinct, Auxv.value]
    have hsp : ∀ e, getauxvalProcfs type { sp with errno := e } =
        .ok (if Ignored type then 0 else v.value type, { sp with errno := e }) := by
      intro e
      rw [getauxvalProcfs_eq hsecure, dif_pos h, ← hslot]
    have hiff : BackendsAgree v type sp se ↔
        v.Has type ∧ (if Ignored type then 0 else v.value type) = v.value type := by
      constructor
      · intro hagree
        obtain ⟨r, sp', se', hrunp, hrune, herrno, -⟩ := hagree 0
        rw [hsp] at hrunp
        rw [hse] at hrune
        cases hrunp
        refine ⟨?_, congrArg Prod.fst (Except.ok.inj hrune).symm⟩
        by_contra habsent
        rw [if_neg habsent] at herrno
        exact absurd herrno (by simp [ENOENT])
      · rintro ⟨hhas, hvalue⟩ e
        refine ⟨_, _, _, hsp e, hvalue ▸ hse e, ?_, ?_⟩
        · rw [if_pos hhas]
        · rw [if_pos hhas, if_pos hhas]
    rw [hiff]
    by_cases hignored : Ignored type
    · simp [hignored, eq_comm, h]
    · simp [hignored, h]
  · -- outside the table both know that there is no entry
    have habsent : ¬ v.Has type := by
      rintro ⟨a, ha, rfl⟩
      exact h (hrange a ha)
    refine iff_of_true (fun e => ?_) (.inl (Nat.le_of_not_lt h))
    refine ⟨0, { sp with errno := ENOENT }, { se with errno := ENOENT }, ?_, ?_, ?_, ?_⟩
    · rw [getauxvalProcfs_eq hsecure, dif_neg h]
    · rw [hse, Auxv.value_of_not_has habsent, if_neg habsent]
    · rw [if_neg habsent]
    · rw [if_neg habsent]

/-- A process that can find its vector in either place. -/
def askAnywhere (v : Auxv) (type : Word) : Call where
  type
  procfs := .ok (v.entries.map .aux ++ [.aux ⟨AT_NULL, 0⟩])
  environ := some (0 :: v.words)

theorem askAnywhere_finds (v : Auxv) (type : Word) : (askAnywhere v type).Finds v where
  procfs := by
    rintro _ ⟨⟩
    rw [List.filter_eq_self.mpr]
    intro r hr
    simp only [List.mem_append, List.mem_map, List.mem_singleton] at hr
    rcases hr with ⟨a, -, rfl⟩ | rfl <;> rfl
  environ := fun words h => ⟨[], by simp, (Option.some.inj h).symm⟩

theorem backends_agree_zero :
    ∃ rp sp re se, auxvInitProcfs (askAnywhere small 8) (State.initial 0) = .ok (rp, sp) ∧
      auxvInitEnviron (askAnywhere small 8) (State.initial 0) = .ok (re, se) ∧
      BackendsAgree small 8 sp se := by
  have hfinds := askAnywhere_finds small 8
  obtain ⟨rp, sp, re, se, hp, he, hiff⟩ := backends_agree_iff small small_regular.distinct
    (fun a ha => (small_regular.range a ha).2.1) 8 (by decide) _ _ hfinds hfinds _ rfl _ rfl 0
    (State.initial 0)
  exact ⟨rp, sp, re, se, hp, he, hiff.mpr (.inr ⟨by decide, .inl (by decide)⟩)⟩

/-- Asked for a type the vector does not have, `__getauxval_procfs` leaves `errno` alone. -/
theorem backends_differ :
    ¬ small.Has 3 ∧ ∃ rp sp re se,
      auxvInitProcfs (askAnywhere small 3) (State.initial 0) = .ok (rp, sp) ∧
      auxvInitEnviron (askAnywhere small 3) (State.initial 0) = .ok (re, se) ∧
      getauxvalProcfs 3 { sp with errno := 0 } = .ok (0, { sp with errno := 0 }) ∧
      getauxvalEnviron 3 { se with errno := 0 } = .ok (0, { se with errno := ENOENT }) := by
  have hfinds := askAnywhere_finds small 3
  obtain ⟨rp, sp, hp, htable, -⟩ := wp_auxvInitProcfs_read hfinds rfl
    (fun a ha => (small_regular.range a ha).2.1) (State.initial 0)
  obtain ⟨re, se, he, hwords, -⟩ :=
    wp_auxvInitEnviron_locate hfinds rfl (State.initial 0)
  refine ⟨by decide, rp, sp, re, se, hp, he, ?_, ?_⟩
  · rw [getauxvalProcfs_eq (by decide), dif_pos (by decide)]
    rw [htable]
    rfl
  · exact getauxvalEnviron_eq (s := { se with errno := 0 }) (by decide) hwords

end LdbToolchain.Getauxval
