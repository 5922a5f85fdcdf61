import LdbToolchain.Getauxval.Threaded

/-!
# The race on initialisation

Each slot of the table is empty or right at all times, and a slot once right stays so; the pointer to
the vector, once set, is the same for every thread; and `getauxval_func` points at a lookup function
only when what that function needs is complete. A thread that fills the table knows at the end of its
loop that all of it is right, whatever the other threads were writing meanwhile.
-/

namespace LdbToolchain.Getauxval

open Threads Linearizable

/-- The table filled from the vector. -/
def Auxv.table (v : Auxv) : Fin 128 → Word := v.entries.foldl Aux.store fun _ => 0

variable {v : Auxv} {s s' : Shared}

/-- What every thread keeps. -/
structure Racing (v : Auxv) (s : Shared) : Prop where
  slot : ∀ k, s.auxvProcfs k = 0 ∨ s.auxvProcfs k = v.table k
  secure : s.auxvSecure = 0 ∨ s.auxvSecure = v.value AT_SECURE
  environ : s.auxvEnviron = none ∨ s.auxvEnviron = some v.words
  /-- The lookup functions are published with their caches complete. -/
  filled : s.getauxvalFunc = .procfs → s.auxvProcfs = v.table
  located : s.getauxvalFunc = .environ → s.auxvEnviron = some v.words

/-- What does not change back. -/
structure Onward (v : Auxv) (s s' : Shared) : Prop where
  slot : ∀ k, s.auxvProcfs k = v.table k → s'.auxvProcfs k = v.table k
  environ : s.auxvEnviron = some v.words → s'.auxvEnviron = some v.words
  func : Relation.ReflTransGen Func.Next s.getauxvalFunc s'.getauxvalFunc

def protocol (v : Auxv) : Protocol Shared where
  Inv := Racing v
  Forward := Onward v
  refl _ := ⟨fun _ => id, id, .refl⟩
  trans h h' := ⟨fun k hk => h'.slot k (h.slot k hk), fun hw => h'.environ (h.environ hw),
    h.func.trans h'.func⟩

/-- The right answer for this type. Nothing but `0` is promised of `AT_SECURE` besides its value. -/
def Answer (v : Auxv) (type : Word) (r : Word) : Prop :=
  (Plain type → r = v.value type) ∧ (type = AT_SECURE → r = 0 ∨ r = v.value AT_SECURE)

/-! ## The table -/

/-- Entries of a regular vector are in the table under their types. -/
theorem Auxv.Regular.table_entry (hv : v.Regular) {a : Aux} (ha : a ∈ v.entries)
    (h : a.type.toNat < 128) : v.table ⟨a.type.toNat, h⟩ = a.val := by
  obtain ⟨hlow, -, hppc⟩ := hv.range a ha
  have hignored : ¬ Ignored a.type := by
    intro hi
    rcases hi with hi | hi
    · rw [hi] at hlow
      exact absurd hlow (by decide)
    · exact hppc hi
  have hsome : (v.entries.find? (·.type = a.type)).isSome := by
    rw [List.find?_isSome]
    exact ⟨a, ha, by simp⟩
  obtain ⟨b, hb⟩ := Option.isSome_iff_exists.mp hsome
  have htype : b.type = a.type := by simpa using List.find?_some hb
  have heq : b = a :=
    List.inj_on_of_nodup_map hv.distinct (List.mem_of_find?_eq_some hb) ha htype
  rw [Auxv.table, foldl_store _ hv.distinct, if_neg hignored, hb, heq]
  rfl

/-- Slots that belong to no entry are empty. -/
theorem Auxv.Regular.table_of_not_mem (hv : v.Regular) {k : Fin 128}
    (h : ∀ a ∈ v.entries, a.type.toNat ≠ k) : v.table k = 0 := by
  have hnat : (BitVec.ofNat 64 k : Word).toNat = k := by
    rw [BitVec.toNat_ofNat]
    omega
  have hlt : (BitVec.ofNat 64 k : Word).toNat < 128 := by omega
  have hk : (⟨(BitVec.ofNat 64 k : Word).toNat, hlt⟩ : Fin 128) = k := Fin.ext hnat
  have hnone : v.entries.find? (·.type = (BitVec.ofNat 64 k : Word)) = none := by
    rw [List.find?_eq_none]
    intro a ha htype
    exact h a ha (by rw [of_decide_eq_true htype, hnat])
  rw [Auxv.table, ← hk, foldl_store _ hv.distinct, hnone]
  simp

theorem Racing.complete (hv : v.Regular) (h : Racing v s)
    (hentries : ∀ a ∈ v.entries, ∀ h : a.type.toNat < 128,
      s.auxvProcfs ⟨a.type.toNat, h⟩ = v.table ⟨a.type.toNat, h⟩) :
    s.auxvProcfs = v.table := by
  funext k
  by_cases hk : ∃ a ∈ v.entries, a.type.toNat = k
  · obtain ⟨a, ha, hak⟩ := hk
    have heq := hentries a ha (by omega)
    rwa [show (⟨a.type.toNat, by omega⟩ : Fin 128) = k from Fin.ext hak] at heq
  · push Not at hk
    have hzero := hv.table_of_not_mem hk
    rcases h.slot k with h0 | h0
    · rw [h0, hzero]
    · exact h0

/-! ## The functions one by one -/

namespace Threaded

theorem answer_secure {r : Word} (h : r = 0 ∨ r = v.value AT_SECURE) : Answer v AT_SECURE r :=
  ⟨fun hplain => absurd rfl hplain.2.2.2, fun _ => h⟩

theorem answer_plain {type r : Word} (hsecure : type ≠ AT_SECURE)
    (h : Plain type → r = v.value type) : Answer v type r :=
  ⟨h, fun hs => absurd hs hsecure⟩

theorem safe_secure : Safe (protocol v) (fun r _ => Answer v AT_SECURE r)
    (.read fun s => s.auxvSecure) s :=
  Safe.read fun _ _ hinv _ _ _ => answer_secure hinv.secure

/-- Over the complete table. -/
theorem safe_getauxvalProcfs (hv : v.Regular) (hfull : s.auxvProcfs = v.table) (type : Word) :
    Safe (protocol v) (fun r _ => Answer v type r) (getauxvalProcfs type) s := by
  unfold getauxvalProcfs
  split
  · next hsecure => exact hsecure ▸ safe_secure
  · next hsecure =>
    split
    · next h =>
      apply Safe.read
      intro s' hforward _ s'' _ _
      apply answer_plain hsecure
      intro hplain
      rw [hforward.slot _ (congrFun hfull _), ← hv.table hplain, dif_pos h]
      rfl
    · next h =>
      apply Safe.pure
      intro s' _ _
      apply answer_plain hsecure
      intro hplain
      rw [← hv.table hplain, dif_neg h]

/-- The vector tells the value, or that there is none. -/
theorem value_of_findAuxv {type : Word} {index : Option Nat}
    (h : Getauxval.findAuxv type v.words 0 = index) :
    v.value type = (index.map (v.words.getD · 0)).getD 0 := by
  rw [← h, findAuxv_words]

theorem safe_findAuxv (hwords : s.auxvEnviron = some v.words) (type : Word) :
    Safe (protocol v)
      (fun r s' => r = Getauxval.findAuxv type v.words 0 ∧ s'.auxvEnviron = some v.words)
      (findAuxv type) s := by
  apply Safe.read
  intro s' hforward _ s'' hforward' _
  have hwords' := hforward.environ hwords
  exact ⟨by simp [hwords'], hforward'.environ hwords'⟩

theorem safe_environAt (hwords : s.auxvEnviron = some v.words) (index : Nat) :
    Safe (protocol v)
      (fun r s' => r = v.words.getD index 0 ∧ s'.auxvEnviron = some v.words)
      (environAt index) s := by
  apply Safe.read
  intro s' hforward _ s'' hforward' _
  have hwords' := hforward.environ hwords
  exact ⟨by simp [hwords'], hforward'.environ hwords'⟩

/-- Once the vector has been located. -/
theorem safe_getauxvalEnviron (hwords : s.auxvEnviron = some v.words) (type : Word) :
    Safe (protocol v) (fun r _ => Answer v type r) (getauxvalEnviron type) s := by
  unfold getauxvalEnviron
  split
  · next hsecure => exact hsecure ▸ safe_secure
  · next hsecure =>
    have hset : Safe (protocol v) (fun b s' => b = true ∧ s'.auxvEnviron = some v.words)
        (.read fun s => s.auxvEnviron.isSome) s := by
      apply Safe.read
      intro s' hforward _ s'' hforward' _
      have hwords' := hforward.environ hwords
      exact ⟨by simp [hwords'], hforward'.environ hwords'⟩
    refine hset.bind ?_
    intro b s₁ _ _ ⟨hb, hwords₁⟩
    rw [hb, if_pos rfl]
    refine (safe_findAuxv hwords₁ type).bind ?_
    intro r s₂ _ _ ⟨hr, hwords₂⟩
    cases r with
    | none =>
        apply Safe.pure
        intro _ _ _
        exact answer_plain hsecure fun _ => by rw [value_of_findAuxv hr.symm]; rfl
    | some index =>
        refine (safe_environAt hwords₂ index).mono ?_
        intro x _ _ _ ⟨hx, _⟩
        exact answer_plain hsecure fun _ => by rw [value_of_findAuxv hr.symm, hx]; rfl

theorem safe_copySecure (hwords : s.auxvEnviron = some v.words) :
    Safe (protocol v) (fun _ s' => s'.auxvEnviron = some v.words) copySecure s := by
  refine (safe_findAuxv hwords AT_SECURE).bind ?_
  intro r s₁ _ _ ⟨hr, hwords₁⟩
  cases r with
  | none => exact Safe.pure fun _ hforward _ => hforward.environ hwords₁
  | some index =>
      refine (safe_environAt hwords₁ index).bind ?_
      intro secure s₂ _ _ ⟨hsecure, hwords₂⟩
      apply Safe.write
      intro s₃ hforward hinv
      have hvalue : secure = v.value AT_SECURE := by
        rw [value_of_findAuxv hr.symm, hsecure]
        rfl
      refine ⟨⟨hinv.slot, .inr hvalue, hinv.environ, hinv.filled, hinv.located⟩,
        ⟨fun _ => id, id, .refl⟩, ?_⟩
      intro _ hforward' _
      exact hforward'.environ (hforward.environ hwords₂)

/-- `getauxval_func` moves on when what the next function needs is there. -/
theorem safe_casFunc {old new : Func} (hnext : Func.Next old new)
    (hfilled : new = .procfs → s.auxvProcfs = v.table)
    (hlocated : new = .environ → s.auxvEnviron = some v.words) :
    Safe (protocol v) (fun _ s' => (protocol v).Forward s s') (casFunc old new) s := by
  apply Safe.write
  intro s' hforward hinv
  by_cases hold : s'.getauxvalFunc = old
  · rw [if_pos hold]
    have hmoved : Onward v s' { s' with getauxvalFunc := new } :=
      ⟨fun _ => id, id, .single (hold ▸ hnext)⟩
    refine ⟨⟨hinv.slot, hinv.secure, hinv.environ, ?_, ?_⟩, hmoved, ?_⟩
    · intro hnew
      funext k
      exact hforward.slot k (congrFun (hfilled hnew) k)
    · exact fun hnew => hforward.environ (hlocated hnew)
    · intro _ hforward' _
      exact (protocol v).trans hforward ((protocol v).trans hmoved hforward')
  · rw [if_neg hold]
    refine ⟨hinv, (protocol v).refl s', ?_⟩
    intro _ hforward' _
    exact (protocol v).trans hforward hforward'

theorem safe_auxvInitEnviron {c : Call} (hc : c.Finds v) {words : List Word}
    (henviron : c.environ = some words) :
    Safe (protocol v) (fun r _ => Answer v c.type r) (auxvInitEnviron c) s := by
  obtain ⟨env, henv, rfl⟩ := hc.environ words henviron
  unfold auxvInitEnviron
  rw [henviron]
  dsimp only
  rw [pastEnviron_finds henv]
  have hset : Safe (protocol v) (fun _ s' => s'.auxvEnviron = some v.words)
      (.write fun s => { s with auxvEnviron := some v.words }) s := by
    apply Safe.write
    intro s' _ hinv
    refine ⟨⟨hinv.slot, hinv.secure, .inr rfl, hinv.filled, fun _ => rfl⟩,
      ⟨fun _ => id, fun _ => rfl, .refl⟩, ?_⟩
    intro _ hforward _
    exact hforward.environ rfl
  refine hset.bind fun _ s₁ _ _ hwords₁ => ?_
  refine (safe_copySecure hwords₁).bind fun _ s₂ _ _ hwords₂ => ?_
  refine (safe_casFunc .locate (fun h => by cases h) (fun _ => hwords₂)).bind
    fun _ s₃ _ _ hforward => ?_
  exact safe_getauxvalEnviron (hforward.environ hwords₂) c.type

/-- A slot that holds its entry's value. -/
def Stored (v : Auxv) (l : List Aux) (s : Shared) : Prop :=
  ∀ a ∈ l, ∀ h : a.type.toNat < 128, s.auxvProcfs ⟨a.type.toNat, h⟩ = v.table ⟨a.type.toNat, h⟩

theorem safe_store (hv : v.Regular) {a : Aux} (ha : a ∈ v.entries) (h : a.type.toNat < 128) :
    Safe (protocol v)
      (fun _ s' => s'.auxvProcfs ⟨a.type.toNat, h⟩ = v.table ⟨a.type.toNat, h⟩)
      (.write fun s => { s with
        auxvProcfs := Function.update s.auxvProcfs ⟨a.type.toNat, h⟩ a.val }) s := by
  have hentry := hv.table_entry ha h
  have hslot : ∀ (table : Fin 128 → Word) (k : Fin 128), k = ⟨a.type.toNat, h⟩ →
      Function.update table ⟨a.type.toNat, h⟩ a.val k = v.table k := by
    intro table k hk
    rw [hk, Function.update_self, hentry]
  have hkept : ∀ (table : Fin 128 → Word) (k : Fin 128), table k = v.table k →
      Function.update table ⟨a.type.toNat, h⟩ a.val k = v.table k := by
    intro table k hk
    by_cases hak : k = ⟨a.type.toNat, h⟩
    · exact hslot table k hak
    · rw [Function.update_of_ne hak, hk]
  apply Safe.write
  intro s' _ hinv
  refine ⟨⟨?_, hinv.secure, hinv.environ, ?_, hinv.located⟩, ⟨fun k => hkept _ k, id, .refl⟩, ?_⟩
  · intro k
    by_cases hak : k = ⟨a.type.toNat, h⟩
    · exact .inr (hslot _ k hak)
    · dsimp only
      rw [Function.update_of_ne hak]
      exact hinv.slot k
  · intro hfunc
    funext k
    exact hkept _ k (congrFun (hinv.filled hfunc) k)
  · intro _ hforward _
    exact hforward.slot _ (hslot _ _ rfl)

/-- The loop stores every entry, and nothing else is stored over it. -/
theorem safe_readAuxv (hv : v.Regular) (reads : List RawRead) (l : List Aux)
    (hl : ∀ a ∈ l, a ∈ v.entries)
    (hreads : reads.filter (· ≠ .interrupted) = l.map .aux ++ [.aux ⟨AT_NULL, 0⟩]) :
    Safe (protocol v) (fun r s' => r = .ok () ∧ Stored v l s') (readAuxv reads) s := by
  induction reads generalizing l s with
  | nil => simp at hreads
  | cons r reads ih =>
      by_cases hr : r = .interrupted
      · subst hr
        exact ih l hl (by simpa using hreads)
      rw [List.filter_cons_of_pos (by simpa using hr)] at hreads
      cases l with
      | nil =>
          obtain ⟨rfl, -⟩ : r = .aux ⟨AT_NULL, 0⟩ ∧ _ := by simpa using hreads
          rw [readAuxv, if_pos rfl]
          apply Safe.pure
          intro _ _ _
          refine ⟨rfl, ?_⟩
          intro a ha
          cases ha
      | cons a l =>
          obtain ⟨rfl, hreads⟩ : r = .aux a ∧ _ := by simpa using hreads
          have ha : a ∈ v.entries := hl a List.mem_cons_self
          obtain ⟨hlow, hrange, hppc⟩ := hv.range a ha
          have hignored : ¬ (a.type = AT_IGNORE ∨ a.type = AT_IGNOREPPC) := by
            intro hi
            rcases hi with hi | hi
            · rw [hi] at hlow
              exact absurd hlow (by decide)
            · exact hppc hi
          rw [readAuxv, if_neg (v.nonnull a ha), if_neg hignored, dif_pos hrange]
          refine (safe_store hv ha hrange).bind fun _ s₁ _ _ hstored => ?_
          have hrest := ih (s := s₁) l (fun b hb => hl b (List.mem_cons_of_mem a hb))
            (by simpa using hreads)
          refine hrest.mono ?_
          rintro r s' hforward - ⟨hr, hstored'⟩
          refine ⟨hr, ?_⟩
          intro b hb h
          rcases List.mem_cons.mp hb with rfl | hb
          · exact hforward.slot _ hstored
          · exact hstored' b hb h

/-- The end of the first initialiser. -/
theorem safe_finishProcfs (hv : v.Regular) (hfull : s.auxvProcfs = v.table) (type : Word) :
    Safe (protocol v) (fun r _ => Answer v type r) (finishProcfs type) s := by
  have still : ∀ {s s' : Shared}, s.auxvProcfs = v.table → Onward v s s' →
      s'.auxvProcfs = v.table :=
    fun h hforward => funext fun k => hforward.slot k (congrFun h k)
  refine (safe_getauxvalProcfs hv hfull AT_SECURE).bind fun secure s₁ hforward₁ _ hsecure => ?_
  have hset : Safe (protocol v) (fun _ s' => s'.auxvProcfs = v.table)
      (.write fun s => { s with auxvSecure := secure }) s₁ := by
    apply Safe.write
    intro s' hforward hinv
    refine ⟨⟨hinv.slot, hsecure.2 rfl, hinv.environ, hinv.filled, hinv.located⟩,
      ⟨fun _ => id, id, .refl⟩, ?_⟩
    intro _ hforward' _
    have hfull' : s'.auxvProcfs = v.table := still (still hfull hforward₁) hforward
    exact funext fun k => hforward'.slot k (congrFun hfull' k)
  refine hset.bind fun _ s₂ _ _ hfull₂ => ?_
  refine (safe_casFunc .read (fun _ => hfull₂) (fun h => by cases h)).bind
    fun _ s₃ _ _ hforward₃ => ?_
  exact safe_getauxvalProcfs hv (still hfull₂ hforward₃) type

/-- What a finished call has answered: nothing but 0 while there is no vector to be found. -/
def Answers (v : Auxv) (c : Call) (r : Except Abort Word) : Prop :=
  ∃ x, r = .ok x ∧ (Answer v c.type x ∨ c.environ = none ∧ x = 0)

theorem safe_initEnviron {c : Call} (hc : c.Finds v) :
    Safe (protocol v) (fun r _ => Answers v c r) (do return .ok (← auxvInitEnviron c)) s := by
  cases henviron : c.environ with
  | none =>
      unfold auxvInitEnviron
      rw [henviron]
      exact Safe.pure fun _ _ _ => ⟨0, rfl, .inr ⟨henviron, rfl⟩⟩
  | some words =>
      refine (safe_auxvInitEnviron hc henviron).bind fun x _ _ _ hx => ?_
      exact Safe.pure fun _ _ _ => ⟨x, rfl, .inl hx⟩

/-- **One call among others.** -/
theorem safe_getauxval (hv : v.Regular) {c : Call} (hc : c.Finds v) :
    Safe (protocol v) (fun r _ => Answers v c r) (getauxval c) s := by
  have hfound : ∀ {p : Prog Shared Word} {s : Shared},
      Safe (protocol v) (fun r _ => Answer v c.type r) p s →
      Safe (protocol v) (fun r _ => Answers v c r) (do return .ok (← p)) s := by
    intro p s hp
    refine hp.bind fun x _ _ _ hx => ?_
    exact Safe.pure fun _ _ _ => ⟨x, rfl, .inl hx⟩
  have hfunc : Safe (protocol v)
      (fun f s' => (f = .procfs → s'.auxvProcfs = v.table) ∧
        (f = .environ → s'.auxvEnviron = some v.words)) (.read fun s => s.getauxvalFunc) s := by
    apply Safe.read
    intro s' _ hinv s'' hforward _
    refine ⟨?_, ?_⟩
    · intro hf
      funext k
      exact hforward.slot k (congrFun (hinv.filled hf) k)
    · exact fun hf => hforward.environ (hinv.located hf)
  refine hfunc.bind fun f s₁ _ _ hknown => ?_
  obtain ⟨hfilled, hlocated⟩ := hknown
  cases f with
  | procfs => exact hfound (safe_getauxvalProcfs hv (hfilled rfl) c.type)
  | environ => exact hfound (safe_getauxvalEnviron (hlocated rfl) c.type)
  | initEnviron => exact safe_initEnviron hc
  | initProcfs =>
      unfold dispatch auxvInitProcfs
      cases hprocfs : c.procfs with
      | error e =>
          refine (safe_casFunc .fallback (fun h => by cases h) (fun h => by cases h)).bind ?_
          exact fun _ _ _ _ _ => safe_initEnviron hc
      | ok reads =>
          refine (safe_readAuxv hv reads v.entries (fun _ => id) (hc.procfs reads hprocfs)).bind ?_
          intro r s₂ _ hinv ⟨hr, hstored⟩
          subst hr
          exact hfound (safe_finishProcfs hv (hinv.complete hv hstored) c.type)

end Threaded

/-! ## All threads -/

/-- How the process starts. -/
def Shared.initial : Shared := (State.initial 0).shared

theorem racing_initial (v : Auxv) : Racing v .initial where
  slot _ := .inl rfl
  secure := .inl rfl
  environ := .inl rfl
  filled h := by cases h
  located h := by cases h

/-- **`getauxval` from any number of threads.** Whatever they do first, and then, the answers are right
and the pointer has its cache behind it; and from one of these states to the other it has moved
forward, if at all. -/
theorem getauxval_threads {ι : Type} [DecidableEq ι] (hv : v.Regular)
    {es es' : List (Ev ι { c : Call // c.Finds v } (Except Abort Word))}
    {threads threads' : ι → Thread { c : Call // c.Finds v } (Prog Shared (Except Abort Word))}
    (hrun : ((impl ι fun c : { c : Call // c.Finds v } => Threaded.getauxval c.val).system
      (· = .initial)).Run (.initial, fun _ => .idle) es (s, threads))
    (hrun' : ((impl ι fun c : { c : Call // c.Finds v } => Threaded.getauxval c.val).system
      (· = .initial)).Run (s, threads) es' (s', threads')) :
    (∀ i c r, threads' i = .running c (.ret r) →
      ∃ x, r = .ok x ∧ ((Plain c.val.type → x = v.value c.val.type) ∧
          (c.val.type = AT_SECURE → x = 0 ∨ x = v.value AT_SECURE) ∨
        c.val.environ = none ∧ x = 0)) ∧
      (s'.getauxvalFunc = .procfs → s'.auxvProcfs = v.table) ∧
      (s'.getauxvalFunc = .environ → s'.auxvEnviron = some v.words) ∧
      Relation.ReflTransGen Func.Next s.getauxvalFunc s'.getauxvalFunc := by
  have hcode : ∀ (c : { c : Call // c.Finds v }) s, (protocol v).Inv s →
      Safe (protocol v) (fun r _ => Threaded.Answers v c.val r) (Threaded.getauxval c.val) s :=
    fun c _ _ => Threaded.safe_getauxval hv c.property
  have hkeeps := (keeps_run hcode (racing_initial v) hrun).run hcode hrun'
  refine ⟨?_, hkeeps.inv.filled, hkeeps.inv.located, hkeeps.forward.func⟩
  intro i c r hi
  exact hkeeps.safe i c _ hi s' ((protocol v).refl s') hkeeps.inv

/-- A call that finds the vector in procfs, after an interrupted read. -/
def askProcfs : { c : Call // c.Finds small } where
  val := ⟨6, .ok [.aux ⟨6, 4096⟩, .interrupted, .aux ⟨8, 0⟩, .aux ⟨AT_NULL, 0⟩], none⟩
  property := ⟨by rintro _ ⟨⟩; rfl, by rintro _ ⟨⟩⟩

/-- A second thread starts to fill the table, and is still at it when the first has its answer: the
pointer has moved from the initialiser to the table. -/
theorem getauxval_threads_overlap : (∃ x : Word, (.ok 4096 : Except Abort Word) = .ok x ∧
    ((Plain 6 → x = small.value 6) ∧ (6 = AT_SECURE → x = 0 ∨ x = small.value AT_SECURE) ∨
      (none : Option (List Word)) = none ∧ x = 0)) ∧
    Relation.ReflTransGen Func.Next .initProcfs .procfs := by
  obtain ⟨s, threads, hrun, hfunc, t, hrun', hdone, hfunc'⟩ : ∃ s threads,
      ((impl Bool fun c : { c : Call // c.Finds small } => Threaded.getauxval c.val).system
        (· = .initial)).Run (.initial, fun _ => .idle) [.call true askProcfs] (s, threads) ∧
      s.getauxvalFunc = .initProcfs ∧ ∃ t,
      ((impl Bool fun c : { c : Call // c.Finds small } => Threaded.getauxval c.val).system
        (· = .initial)).Run (s, threads) [.call false askProcfs] t ∧
      t.2 true = .running askProcfs (.ret (.ok 4096)) ∧ t.1.getauxvalFunc = .procfs :=
    ⟨_, _, .visible (.call rfl) (.nil _), rfl, _, .visible (.call rfl) <|
      .silent (.work (i := true) rfl ⟨_, _, rfl, rfl, rfl⟩) <|
      .silent (.work (i := false) rfl ⟨_, _, rfl, rfl, rfl⟩) <|
      .silent (.work (i := true) rfl ⟨_, _, rfl, rfl, rfl⟩) <|
      .silent (.work (i := true) rfl ⟨_, _, rfl, rfl, rfl⟩) <|
      .silent (.work (i := false) rfl ⟨_, _, rfl, rfl, rfl⟩) <|
      .silent (.work (i := true) rfl ⟨_, _, rfl, rfl, rfl⟩) <|
      .silent (.work (i := true) rfl ⟨_, _, rfl, rfl, rfl⟩) <|
      .silent (.work (i := true) rfl ⟨_, _, rfl, rfl, rfl⟩) <|
      .silent (.work (i := true) rfl ⟨_, _, rfl, rfl, rfl⟩) <| .nil _, rfl, rfl⟩
  have hthreads := getauxval_threads small_regular hrun hrun'
  rw [hfunc, hfunc'] at hthreads
  exact ⟨hthreads.1 true askProcfs _ hdone, hthreads.2.2.2⟩

end LdbToolchain.Getauxval
