import LdbToolchain.Lib.Linearizable

/-!
# Read-modify-write of one word

Threads update a shared word by one locked instruction, by a loop around compare-and-swap, by a loop
of load-linked and store-conditional, or by a plain store. Whatever the other threads do in between,
each update takes effect at once.
-/

namespace LdbToolchain.Rmw

open Function Linearizable

variable {ι α Op : Type} {i : ι} {f : α → α} {g : α → Option α} {v old : α}

/-! ## The shared word -/

/-- The word, and the threads whose reservation stands. -/
structure Shared (ι α : Type) where
  word : α
  monitor : ι → Bool

/-- A write ends every reservation. -/
def Shared.write (_ : Shared ι α) (v : α) : Shared ι α := ⟨v, fun _ => false⟩

@[simp] theorem Shared.write_word (s : Shared ι α) (v : α) : (s.write v).word = v := rfl

@[simp] theorem Shared.write_monitor (s : Shared ι α) (v : α) (i : ι) :
    (s.write v).monitor i = false := rfl

section

variable [DecidableEq ι]

/-- Load-linked reserves the word. -/
def Shared.reserve (s : Shared ι α) (i : ι) : Shared ι α := { s with monitor := update s.monitor i true }

/-- A store-conditional ends the reservation of its thread. -/
def Shared.release (s : Shared ι α) (i : ι) : Shared ι α :=
  { s with monitor := update s.monitor i false }

@[simp] theorem Shared.reserve_word (s : Shared ι α) (i : ι) : (s.reserve i).word = s.word := rfl

@[simp] theorem Shared.release_word (s : Shared ι α) (i : ι) : (s.release i).word = s.word := rfl

@[simp] theorem Shared.reserve_monitor_of_ne (s : Shared ι α) {i j : ι} (h : j ≠ i) :
    (s.reserve i).monitor j = s.monitor j := update_of_ne h _ _

@[simp] theorem Shared.release_monitor_of_ne (s : Shared ι α) {i j : ι} (h : j ≠ i) :
    (s.release i).monitor j = s.monitor j := update_of_ne h _ _

end

/-! ## Code -/

/-- How an update is carried out. -/
inductive Body (α : Type) where
  /-- One locked instruction. -/
  | locked (f : α → α)
  /-- `do old = *p; while (cas(p, old, f(old)) != old)`. -/
  | casLoop (f : α → α)
  /-- `do old = ll(p); while (!sc(p, f(old)))`, left when there is nothing to store. -/
  | llsc (f : α → Option α)
  | store (v : α)

/-- Where a thread is in the code: `old` is what it read. -/
inductive Pc (α : Type) where
  | start
  | loaded (old : α)
  | done (old : α)

/-- The code of an operation, and whether it returns what it read. -/
structure Method (α : Type) where
  body : Body α
  returns : Bool

inductive Step [DecidableEq ι] (i : ι) : Body α → Pc α → Shared ι α → Pc α → Shared ι α → Prop where
  | locked {f : α → α} {s : Shared ι α} :
      Step i (.locked f) .start s (.done s.word) (s.write (f s.word))
  | read {f : α → α} {s : Shared ι α} : Step i (.casLoop f) .start s (.loaded s.word) s
  | hit {f : α → α} {old : α} {s : Shared ι α} (h : s.word = old) :
      Step i (.casLoop f) (.loaded old) s (.done old) (s.write (f old))
  | miss {f : α → α} {old : α} {s : Shared ι α} (h : s.word ≠ old) :
      Step i (.casLoop f) (.loaded old) s .start s
  | ll {g : α → Option α} {s : Shared ι α} :
      Step i (.llsc g) .start s (.loaded s.word) (s.reserve i)
  | leave {g : α → Option α} {old : α} {s : Shared ι α} (h : g old = none) :
      Step i (.llsc g) (.loaded old) s (.done old) s
  | sc {g : α → Option α} {old v : α} {s : Shared ι α} (h : g old = some v)
      (hm : s.monitor i = true) : Step i (.llsc g) (.loaded old) s (.done old) (s.write v)
  /-- A store-conditional may fail for no reason. -/
  | scFail {g : α → Option α} {old v : α} {s : Shared ι α} (h : g old = some v) :
      Step i (.llsc g) (.loaded old) s .start (s.release i)
  | store {v : α} {s : Shared ι α} : Step i (.store v) .start s (.done s.word) (s.write v)

/-- What the operation returns. -/
def Method.result (m : Method α) (old : α) : Option α := if m.returns then some old else none

/-- The operations of an object in code. Reservations may be lost at any moment. -/
def impl [DecidableEq ι] (code : Op → Method α) : Impl ι (Shared ι α) Op (Option α) (Pc α) where
  start _ := .start
  step i op pc s pc' s' := Step i (code op).body pc s pc' s'
  result op
    | .done old => some ((code op).result old)
    | _ => none
  env s s' := s'.word = s.word ∧ ∀ i, s'.monitor i = true → s.monitor i = true

/-! ## What the code is for -/

/-- The update, made at once. -/
def Body.effect : Body α → α → α
  | .locked f, a => f a
  | .casLoop f, a => f a
  | .llsc g, a => (g a).getD a
  | .store v, _ => v

def Method.obj (m : Method α) (a : α) : α × Option α := (m.body.effect a, m.result a)

/-- A loop that has read a word for which there is nothing to store is served. -/
def committed (code : Op → Method α) (op : Op) : Pc α → Option (Option α)
  | .start => none
  | .loaded old =>
    match (code op).body with
    | .llsc g => if (g old).isNone then some ((code op).result old) else none
    | _ => none
  | .done old => some ((code op).result old)

/-- While the reservation stands, the word is what the thread read. -/
def Reserved (code : Op → Method α) (i : ι) (op : Op) (pc : Pc α) (s : Shared ι α) : Prop :=
  ∀ g old, (code op).body = .llsc g → pc = .loaded old → s.monitor i = true → s.word = old

variable [DecidableEq ι] {code : Op → Method α} {op : Op} {pc pc' : Pc α} {s s' : Shared ι α}

/-- What a step does to the word and to the reservations of others. -/
theorem Step.others {b : Body α} (h : Step i b pc s pc' s') :
    (s'.word = s.word ∧ ∀ j, j ≠ i → s'.monitor j = s.monitor j) ∨ ∀ j, s'.monitor j = false := by
  cases h with
  | locked => exact .inr fun _ => rfl
  | read => exact .inl ⟨rfl, fun _ _ => rfl⟩
  | hit h => exact .inr fun _ => rfl
  | miss h => exact .inl ⟨rfl, fun _ _ => rfl⟩
  | ll => exact .inl ⟨rfl, fun j hj => s.reserve_monitor_of_ne hj⟩
  | leave h => exact .inl ⟨rfl, fun _ _ => rfl⟩
  | sc h hm => exact .inr fun _ => rfl
  | scFail h => exact .inl ⟨rfl, fun j hj => s.release_monitor_of_ne hj⟩
  | store => exact .inr fun _ => rfl

theorem work (hinv : Reserved code i op pc s) (h : Step i (code op).body pc s pc' s') :
    (committed code op pc' = committed code op pc ∧ s'.word = s.word) ∨
      (committed code op pc = none ∧ committed code op pc' = some ((code op).obj s.word).2 ∧
        s'.word = ((code op).obj s.word).1) := by
  generalize hb : (code op).body = b at h
  cases h with
  | locked => exact .inr ⟨rfl, rfl, by simp [Method.obj, hb, Body.effect]⟩
  | read => exact .inl ⟨by simp [committed, hb], rfl⟩
  | @hit f old _ h =>
      -- the word may have changed and changed back
      subst h
      exact .inr ⟨by simp [committed, hb], rfl, by simp [Method.obj, hb, Body.effect]⟩
  | miss h => exact .inl ⟨by simp [committed, hb], rfl⟩
  | @ll g _ =>
      by_cases hg : (g s.word).isNone
      · -- served by the load itself
        have hnone := Option.isNone_iff_eq_none.mp hg
        exact .inr ⟨rfl, by simp [committed, hb, hg, Method.obj],
          by simp [Method.obj, hb, Body.effect, hnone]⟩
      · exact .inl ⟨by simp [committed, hb, hg], rfl⟩
  | @leave g old _ h => exact .inl ⟨by simp [committed, hb, h], rfl⟩
  | @sc g old v _ h hm =>
      have hword := hinv g old hb rfl hm
      subst hword
      exact .inr ⟨by simp [committed, hb, h], rfl, by simp [Method.obj, hb, Body.effect, h]⟩
  | @scFail g old v _ h => exact .inl ⟨by simp [committed, hb, h], rfl⟩
  | store => exact .inr ⟨rfl, rfl, by simp [Method.obj, hb, Body.effect]⟩

theorem Step.own {b : Body α} (h : Step i b pc s pc' s') (hb : (code op).body = b) :
    Reserved code i op pc' s' := by
  intro g old hg hpc hm
  cases h with
  | ll =>
      cases hpc
      rfl
  | read =>
      rw [hb] at hg
      cases hg
  | _ => cases hpc

/-- **Every history of the code is one of the atomic word.** -/
theorem linearizes (ι : Type) [DecidableEq ι] (code : Op → Method α) :
    Linearizes (impl (ι := ι) code) (fun op => (code op).obj) Shared.word (committed code)
      (Reserved code) where
  start i op s := by
    refine ⟨rfl, ?_⟩
    intro g old _ hpc
    cases hpc
  work hinv h := work hinv h
  own _ h := h.own rfl
  others {i j op pc op' q s q' s'} hij hinv h g old hg hpc hm := by
    rcases Step.others h with ⟨hword, hmonitor⟩ | hlost
    · rw [hword]
      exact hinv g old hg hpc (by rwa [hmonitor i hij] at hm)
    · rw [hlost i] at hm
      cases hm
  env {s s'} h := by
    obtain ⟨hword, hmonitor⟩ := h
    refine ⟨hword, ?_⟩
    intro i op pc hinv g old hg hpc hm
    rw [hword]
    exact hinv g old hg hpc (hmonitor i hm)
  result {op pc r} h := by
    cases pc with
    | done old => exact h
    | start => cases h
    | loaded old => cases h

end LdbToolchain.Rmw
