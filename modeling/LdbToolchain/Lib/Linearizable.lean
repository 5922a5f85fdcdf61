import LdbToolchain.Lib.Lts
import Mathlib.Algebra.BigOperators.Group.Finset.Piecewise
import Mathlib.Data.Fintype.Basic
import Mathlib.Tactic.Abel

/-!
# Operations that take effect at once

Threads call operations on a shared object. In the atomic object a call takes effect in one step, at
some moment between its call and its return. An implementation carries an operation out in several
steps, between which other threads make theirs. It is linearizable when every history of calls and
returns is one of the atomic object; `Linearizes` is the rule for that: each operation has one step at
which it takes effect.
-/

namespace LdbToolchain.Linearizable

open Function

variable {ι σ α Op Res Pc : Type}

/-- What a thread shows: the call of an operation, and its return with a result. -/
inductive Ev (ι Op Res : Type) where
  | call (i : ι) (op : Op)
  | ret (i : ι) (r : Res)

/-! ## The atomic object -/

/-- What an operation does to a value, and what it returns. -/
abbrev Obj (α Op Res : Type) := Op → α → α × Res

/-- A client of the atomic object: its call has not taken effect yet, or it has. -/
inductive Client (Op Res : Type) where
  | idle
  | called (op : Op)
  | served (r : Res)

section Atomic

variable [DecidableEq ι]

inductive AtomicStep (obj : Obj α Op Res) :
    α × (ι → Client Op Res) → Option (Ev ι Op Res) → α × (ι → Client Op Res) → Prop where
  | call {a : α} {c : ι → Client Op Res} {i : ι} {op : Op} (h : c i = .idle) :
      AtomicStep obj (a, c) (some (.call i op)) (a, update c i (.called op))
  | commit {a : α} {c : ι → Client Op Res} {i : ι} {op : Op} (h : c i = .called op) :
      AtomicStep obj (a, c) none ((obj op a).1, update c i (.served (obj op a).2))
  | ret {a : α} {c : ι → Client Op Res} {i : ι} {r : Res} (h : c i = .served r) :
      AtomicStep obj (a, c) (some (.ret i r)) (a, update c i .idle)

/-- The object with this value, before any call. -/
def atomicObject (obj : Obj α Op Res) (a : α) : Lts (α × (ι → Client Op Res)) (Ev ι Op Res) where
  init s := s = (a, fun _ => .idle)
  step := AtomicStep obj

end Atomic

/-! ## Implementations -/

/-- The code of the operations: where they start, their steps, and the result at their end. The
environment may change the shared state too. -/
structure Impl (ι σ Op Res Pc : Type) where
  start : Op → Pc
  step : ι → Op → Pc → σ → Pc → σ → Prop
  result : Op → Pc → Option Res
  env : σ → σ → Prop

/-- A thread, and where it is in the code of an operation. -/
inductive Thread (Op Pc : Type) where
  | idle
  | running (op : Op) (pc : Pc)

section System

variable [DecidableEq ι]

inductive SystemStep (impl : Impl ι σ Op Res Pc) :
    σ × (ι → Thread Op Pc) → Option (Ev ι Op Res) → σ × (ι → Thread Op Pc) → Prop where
  | call {s : σ} {c : ι → Thread Op Pc} {i : ι} {op : Op} (h : c i = .idle) :
      SystemStep impl (s, c) (some (.call i op)) (s, update c i (.running op (impl.start op)))
  | work {s s' : σ} {c : ι → Thread Op Pc} {i : ι} {op : Op} {pc pc' : Pc}
      (h : c i = .running op pc) (hstep : impl.step i op pc s pc' s') :
      SystemStep impl (s, c) none (s', update c i (.running op pc'))
  | env {s s' : σ} {c : ι → Thread Op Pc} (henv : impl.env s s') :
      SystemStep impl (s, c) none (s', c)
  | ret {s : σ} {c : ι → Thread Op Pc} {i : ι} {op : Op} {pc : Pc} {r : Res}
      (h : c i = .running op pc) (hr : impl.result op pc = some r) :
      SystemStep impl (s, c) (some (.ret i r)) (s, update c i .idle)

/-- A running thread is the one that has just moved, or was running before. -/
theorem running_update {c : ι → Thread Op Pc} {i j : ι} {x : Thread Op Pc} {op : Op} {pc : Pc}
    (h : update c i x j = .running op pc) :
    (j = i ∧ x = .running op pc) ∨ (j ≠ i ∧ c j = .running op pc) := by
  by_cases hji : j = i
  · rw [hji, update_self] at h
    exact .inl ⟨hji, h⟩
  · rw [update_of_ne hji] at h
    exact .inr ⟨hji, h⟩

/-- The threads, from these shared states on. -/
def Impl.system (impl : Impl ι σ Op Res Pc) (init : σ → Prop) :
    Lts (σ × (ι → Thread Op Pc)) (Ev ι Op Res) where
  init s := init s.1 ∧ s.2 = fun _ => .idle
  step := SystemStep impl

end System

/-! ## The rule -/

/-- Each operation takes effect at one of its steps. `committed` tells the result once it has, `inv`
is what a thread knows of the shared state. -/
structure Linearizes (impl : Impl ι σ Op Res Pc) (obj : Obj α Op Res) (abs : σ → α)
    (committed : Op → Pc → Option Res) (inv : ι → Op → Pc → σ → Prop) : Prop where
  start : ∀ i op s, committed op (impl.start op) = none ∧ inv i op (impl.start op) s
  work : ∀ {i op pc s pc' s'}, inv i op pc s → impl.step i op pc s pc' s' →
    (committed op pc' = committed op pc ∧ abs s' = abs s) ∨
      (committed op pc = none ∧ committed op pc' = some (obj op (abs s)).2 ∧
        abs s' = (obj op (abs s)).1)
  own : ∀ {i op pc s pc' s'}, inv i op pc s → impl.step i op pc s pc' s' → inv i op pc' s'
  /-- The steps of other threads do not disturb it. -/
  others : ∀ {i j op pc op' q s q' s'}, i ≠ j → inv i op pc s → impl.step j op' q s q' s' →
    inv i op pc s'
  env : ∀ {s s'}, impl.env s s' → abs s' = abs s ∧ ∀ i op pc, inv i op pc s → inv i op pc s'
  result : ∀ {op pc r}, impl.result op pc = some r → committed op pc = some r

namespace Linearizes

variable {impl : Impl ι σ Op Res Pc} {obj : Obj α Op Res} {abs : σ → α}
  {committed : Op → Pc → Option Res} {inv : ι → Op → Pc → σ → Prop}

/-- What the atomic object knows of a thread. -/
def client (committed : Op → Pc → Option Res) : Thread Op Pc → Client Op Res
  | .idle => .idle
  | .running op pc =>
    match committed op pc with
    | none => .called op
    | some r => .served r

/-- The states of the two systems that belong together. -/
structure Corresponds (abs : σ → α) (committed : Op → Pc → Option Res)
    (inv : ι → Op → Pc → σ → Prop) (s : σ × (ι → Thread Op Pc)) (t : α × (ι → Client Op Res)) :
    Prop where
  value : t.1 = abs s.1
  clients : t.2 = fun i => client committed (s.2 i)
  inv : ∀ i op pc, s.2 i = .running op pc → inv i op pc s.1

variable [DecidableEq ι]

theorem client_update (c : ι → Thread Op Pc) (i : ι) (x : Thread Op Pc) :
    (fun j => client committed (update c i x j))
      = update (fun j => client committed (c j)) i (client committed x) := by
  funext j
  by_cases hj : j = i
  · rw [hj, update_self, update_self]
  · rw [update_of_ne hj, update_of_ne hj]

theorem step (h : Linearizes impl obj abs committed inv) {s s' : σ × (ι → Thread Op Pc)}
    {t : α × (ι → Client Op Res)} {l : Option (Ev ι Op Res)}
    (hrel : Corresponds abs committed inv s t) (hstep : SystemStep impl s l s') (a : α) :
    ∃ t', (atomicObject obj a).Run t l.toList t' ∧ Corresponds abs committed inv s' t' := by
  obtain ⟨b, d⟩ := t
  obtain ⟨hvalue, hclients, hinv⟩ := hrel
  dsimp only at hvalue hclients
  subst hvalue
  subst hclients
  cases hstep with
  | @call s c i op hidle =>
      obtain ⟨hnone, -⟩ := h.start i op s
      refine ⟨_, .single (.call (by simp only [hidle, client])), rfl, ?_, ?_⟩
      · dsimp only
        rw [client_update]
        simp only [client, hnone]
      · intro j op' pc hj
        obtain ⟨-, hx⟩ | ⟨-, hj⟩ := running_update hj
        · cases hx
          exact (h.start j op s).2
        · exact hinv j op' pc hj
  | @work s s' c i op pc pc' hi hwork =>
      have hkept : ∀ j op' q, update c i (.running op pc') j = .running op' q → inv j op' q s' := by
        intro j op' q hj
        obtain ⟨rfl, hx⟩ | ⟨hji, hj⟩ := running_update hj
        · cases hx
          exact h.own (hinv j op pc hi) hwork
        · exact h.others hji (hinv j op' q hj) hwork
      rcases h.work (hinv i op pc hi) hwork with ⟨hsame, habs⟩ | ⟨hnone, hsome, habs⟩
      · -- nothing to see
        refine ⟨_, .nil _, habs.symm, ?_, hkept⟩
        have hthread : client committed (.running op pc') = client committed (c i) := by
          simp only [hi, client, hsame]
        dsimp only
        rw [client_update, hthread, update_eq_self (f := fun i => client committed (c i))]
      · -- the operation takes effect
        refine ⟨_, .single (.commit (i := i) ?_), habs.symm, ?_, hkept⟩
        · simp only [hi, client, hnone]
        · dsimp only
          rw [client_update]
          simp only [client, hsome]
  | @env s s' c henv =>
      obtain ⟨habs, hkeeps⟩ := h.env henv
      exact ⟨_, .nil _, habs.symm, rfl, fun i op pc hi => hkeeps i op pc (hinv i op pc hi)⟩
  | @ret s c i op pc r hi hr =>
      have hserved := h.result hr
      refine ⟨_, .single (.ret (i := i) (r := r) ?_), rfl, ?_, ?_⟩
      · simp only [hi, client, hserved]
      · dsimp only
        rw [client_update]
        rfl
      · intro j op' q hj
        obtain ⟨-, hx⟩ | ⟨-, hj⟩ := running_update hj
        · cases hx
        · exact hinv j op' q hj

/-- The atomic object simulates the threads. -/
theorem simulates (h : Linearizes impl obj abs committed inv) (s₀ : σ) :
    Lts.Simulates (impl.system (· = s₀)) (atomicObject obj (abs s₀))
      (Corresponds abs committed inv) where
  init := by
    intro s hs
    obtain ⟨hs, hidle⟩ := hs
    refine ⟨_, rfl, ?_, ?_, ?_⟩
    · rw [hs]
    · rw [hidle]
      rfl
    · intro i op pc hi
      rw [hidle] at hi
      cases hi
  step s t l s' hrel hstep := h.step hrel hstep (abs s₀)

/-- **Every history is one of the atomic object.** -/
theorem linearizable (h : Linearizes impl obj abs committed inv) {s₀ : σ}
    {es : List (Ev ι Op Res)} (htrace : (impl.system (· = s₀)).Trace es) :
    (atomicObject obj (abs s₀)).Trace es := (h.simulates s₀).trace htrace

end Linearizes

/-! ## Additions -/

section Additive

variable [AddCommMonoid α] (delta : Op → α)

/-- What a called operation will still add. -/
def Client.pending : Client Op Res → α
  | .called op => delta op
  | _ => 0

@[simp] theorem Client.pending_idle : (idle : Client Op Res).pending delta = 0 := rfl

@[simp] theorem Client.pending_called (op : Op) :
    (called op : Client Op Res).pending delta = delta op := rfl

@[simp] theorem Client.pending_served (r : Res) :
    (served r : Client Op Res).pending delta = 0 := rfl

/-- What the calls among the events add. -/
def added : List (Ev ι Op Res) → α
  | [] => 0
  | .call _ op :: es => delta op + added es
  | .ret _ _ :: es => added es

theorem added_append (es es' : List (Ev ι Op Res)) :
    added delta (es ++ es') = added delta es + added delta es' := by
  induction es with
  | nil => rw [List.nil_append, added, zero_add]
  | cons e es ih =>
      cases e with
      | call i op => rw [List.cons_append, added, added, ih, add_assoc]
      | ret i r => rw [List.cons_append, added, added, ih]

variable [Fintype ι]

/-- The value, with what is still to come. -/
def total (t : α × (ι → Client Op Res)) : α := t.1 + ∑ i, (t.2 i).pending delta

variable [DecidableEq ι]

theorem sum_pending_update (c : ι → Client Op Res) (i : ι) (x : Client Op Res) :
    (∑ j, (update c i x j).pending delta) + (c i).pending delta
      = (∑ j, (c j).pending delta) + x.pending delta := by
  have hcomp : (fun j => (update c i x j).pending delta)
      = update (fun j => (c j).pending delta) i (x.pending delta) := by
    funext j
    by_cases hj : j = i
    · rw [hj, update_self, update_self]
    · rw [update_of_ne hj, update_of_ne hj]
  rw [hcomp, Finset.sum_update_of_mem (Finset.mem_univ i),
    Finset.sum_eq_add_sum_sdiff_singleton_of_mem (Finset.mem_univ i) (fun j => (c j).pending delta)]
  abel

theorem AtomicStep.total {obj : Obj α Op Res} (hadd : ∀ op a, (obj op a).1 = a + delta op)
    {t t' : α × (ι → Client Op Res)} {l : Option (Ev ι Op Res)} (h : AtomicStep obj t l t') :
    total delta t' = total delta t + added delta l.toList := by
  unfold Linearizable.total
  cases h with
  | @call a c i op h =>
      have hsum := sum_pending_update delta c i (.called op)
      rw [h, Client.pending_idle, Client.pending_called, add_zero] at hsum
      simp only [Option.toList, added, add_zero, hsum, add_assoc]
  | @commit a c i op h =>
      have hsum := sum_pending_update delta c i (.served (obj op a).2)
      rw [h, Client.pending_called, Client.pending_served, add_zero] at hsum
      simp only [Option.toList, added, add_zero, hadd, ← hsum]
      ac_rfl
  | @ret a c i r h =>
      have hsum := sum_pending_update delta c i .idle
      rw [h, Client.pending_idle, Client.pending_served, add_zero, add_zero] at hsum
      simp only [Option.toList, added, add_zero, hsum]

theorem total_run {obj : Obj α Op Res} (hadd : ∀ op a, (obj op a).1 = a + delta op) {a : α}
    {t t' : α × (ι → Client Op Res)} {es : List (Ev ι Op Res)}
    (h : (atomicObject obj a).Run t es t') : total delta t' = total delta t + added delta es := by
  induction h with
  | nil => rw [added, add_zero]
  | cons first rest ih => rw [ih, AtomicStep.total delta hadd first, added_append, add_assoc]

/-- **No update is lost**: when every call has returned, the word holds all that was added. -/
theorem Linearizes.no_lost_update {impl : Impl ι σ Op Res Pc} {obj : Obj α Op Res} {abs : σ → α}
    {committed : Op → Pc → Option Res} {inv : ι → Op → Pc → σ → Prop}
    (h : Linearizes impl obj abs committed inv) (hadd : ∀ op a, (obj op a).1 = a + delta op)
    {s₀ s : σ} {es : List (Ev ι Op Res)}
    (hrun : (impl.system (· = s₀)).Run (s₀, fun _ => .idle) es (s, fun _ => .idle)) :
    abs s = abs s₀ + added delta es := by
  obtain ⟨t, ht, hrel⟩ := (h.simulates s₀).init (s₀, fun _ => .idle) ⟨rfl, rfl⟩
  obtain ⟨t', hrun', hrel'⟩ := (h.simulates s₀).run hrun hrel
  have htotal := total_run delta hadd hrun'
  subst ht
  simpa [Linearizable.total, hrel'.value, hrel'.clients, Linearizes.client]
    using htotal

end Additive

end LdbToolchain.Linearizable
