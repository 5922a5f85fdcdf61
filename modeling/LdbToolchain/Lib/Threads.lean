import LdbToolchain.Lib.Linearizable

/-!
# Threads over shared variables

A program is a sequence of accesses to the shared state, each made at once; between two of them the
other threads make theirs. A protocol is what all of them keep: an invariant of the shared state, and
a preorder that says what never changes back. `Safe` is the rule for one program among such threads.
-/

namespace LdbToolchain.Threads

open Function Linearizable

/-- An access changes the shared state and goes on with what it saw. -/
inductive Prog (σ α : Type) where
  | ret (a : α)
  | access (write : σ → σ) (next : σ → Prog σ α)

variable {ι σ α β Op : Type}

namespace Prog

def bind : Prog σ α → (α → Prog σ β) → Prog σ β
  | .ret a, f => f a
  | .access write next, f => .access write fun s => (next s).bind f

instance : Monad (Prog σ) where
  pure := .ret
  bind := bind

def read (g : σ → α) : Prog σ α := .access id fun s => .ret (g s)

def write (f : σ → σ) : Prog σ Unit := .access f fun _ => .ret ()

/-- The program with no other thread around. -/
def alone : Prog σ α → σ → α × σ
  | .ret a, s => (a, s)
  | .access write next, s => (next s).alone (write s)

@[simp] theorem alone_pure (a : α) (s : σ) : (pure a : Prog σ α).alone s = (a, s) := rfl

@[simp] theorem alone_read (g : σ → α) (s : σ) : (read g).alone s = (g s, s) := rfl

@[simp] theorem alone_write (f : σ → σ) (s : σ) : (write f).alone s = ((), f s) := rfl

@[simp] theorem alone_bind (p : Prog σ α) (f : α → Prog σ β) (s : σ) :
    (p >>= f).alone s = (f (p.alone s).1).alone (p.alone s).2 := by
  induction p generalizing s with
  | ret a => rfl
  | access write next ih => exact ih s (write s)

end Prog

/-! ## Protocols -/

/-- What every thread keeps, and what it may rely on. -/
structure Protocol (σ : Type) where
  Inv : σ → Prop
  Forward : σ → σ → Prop
  refl : ∀ s, Forward s s
  trans : ∀ {s s' s''}, Forward s s' → Forward s' s'' → Forward s s''

variable {P : Protocol σ} {s s' : σ}

/-- Started in `s`, the program keeps the protocol and ends with `Q`, whatever the others do. -/
def Safe (P : Protocol σ) (Q : α → σ → Prop) : Prog σ α → σ → Prop
  | .ret a, s => ∀ s', P.Forward s s' → P.Inv s' → Q a s'
  | .access write next, s => ∀ s', P.Forward s s' → P.Inv s' →
      P.Inv (write s') ∧ P.Forward s' (write s') ∧ Safe P Q (next s') (write s')

namespace Safe

/-- The others may move first. -/
theorem forward {Q : α → σ → Prop} {p : Prog σ α} (h : Safe P Q p s) (hforward : P.Forward s s') :
    Safe P Q p s' := by
  cases p with
  | ret a => exact fun s'' hs'' => h s'' (P.trans hforward hs'')
  | access write next => exact fun s'' hs'' => h s'' (P.trans hforward hs'')

theorem of_forall {Q : α → σ → Prop} {p : Prog σ α}
    (h : ∀ s', P.Forward s s' → P.Inv s' → Safe P Q p s') : Safe P Q p s := by
  cases p with
  | ret a => exact fun s' hs' hinv => h s' hs' hinv s' (P.refl s') hinv
  | access write next => exact fun s' hs' hinv => h s' hs' hinv s' (P.refl s') hinv

theorem pure {Q : α → σ → Prop} {a : α} (h : ∀ s', P.Forward s s' → P.Inv s' → Q a s') :
    Safe P Q (pure a) s := h

theorem bind {Q : α → σ → Prop} {Q' : β → σ → Prop} {p : Prog σ α} {f : α → Prog σ β}
    (hp : Safe P Q p s)
    (hf : ∀ a s', P.Forward s s' → P.Inv s' → Q a s' → Safe P Q' (f a) s') :
    Safe P Q' (p >>= f) s := by
  induction p generalizing s with
  | ret a => exact of_forall fun s' hs' hinv => hf a s' hs' hinv (hp s' hs' hinv)
  | access write next ih =>
      intro s' hs' hinv
      obtain ⟨hinv', hforward, hnext⟩ := hp s' hs' hinv
      refine ⟨hinv', hforward, ih s' hnext ?_⟩
      intro a s'' hs'' hinv'' hq
      exact hf a s'' (P.trans (P.trans hs' hforward) hs'') hinv'' hq

theorem mono {Q Q' : α → σ → Prop} {p : Prog σ α} (hp : Safe P Q p s)
    (h : ∀ a s', P.Forward s s' → P.Inv s' → Q a s' → Q' a s') : Safe P Q' p s := by
  induction p generalizing s with
  | ret a => exact fun s' hs' hinv => h a s' hs' hinv (hp s' hs' hinv)
  | access write next ih =>
      intro s' hs' hinv
      obtain ⟨hinv', hforward, hnext⟩ := hp s' hs' hinv
      refine ⟨hinv', hforward, ih s' hnext ?_⟩
      intro a s'' hs''
      exact h a s'' (P.trans (P.trans hs' hforward) hs'')

theorem read {Q : α → σ → Prop} {g : σ → α}
    (h : ∀ s', P.Forward s s' → P.Inv s' → ∀ s'', P.Forward s' s'' → P.Inv s'' → Q (g s') s'') :
    Safe P Q (.read g) s :=
  fun s' hs' hinv => ⟨hinv, P.refl s', h s' hs' hinv⟩

theorem write {Q : Unit → σ → Prop} {f : σ → σ}
    (h : ∀ s', P.Forward s s' → P.Inv s' → P.Inv (f s') ∧ P.Forward s' (f s') ∧
      ∀ s'', P.Forward (f s') s'' → P.Inv s'' → Q () s'') :
    Safe P Q (.write f) s := h

end Safe

/-! ## The threads together -/

/-- The code of each operation is a program. -/
def impl (ι : Type) (code : Op → Prog σ α) : Impl ι σ Op α (Prog σ α) where
  start := code
  step _ _ p s p' s' := ∃ write next, p = .access write next ∧ p' = next s ∧ s' = write s
  result
    | _, .ret a => some a
    | _, .access _ _ => none
  env _ _ := False

variable [DecidableEq ι] {code : Op → Prog σ α} {Q : Op → α → σ → Prop}

/-- The invariant of the threads together. -/
structure Keeps (P : Protocol σ) (Q : Op → α → σ → Prop) (s₀ : σ)
    (t : σ × (ι → Thread Op (Prog σ α))) : Prop where
  inv : P.Inv t.1
  forward : P.Forward s₀ t.1
  safe : ∀ i op p, t.2 i = .running op p → Safe P (Q op) p t.1

theorem Keeps.step {s₀ : σ} {t t' : σ × (ι → Thread Op (Prog σ α))} {l : Option (Ev ι Op α)}
    (hcode : ∀ op s, P.Inv s → Safe P (Q op) (code op) s) (h : Keeps P Q s₀ t)
    (hstep : SystemStep (impl ι code) t l t') : Keeps P Q s₀ t' := by
  obtain ⟨hinv, hforward, hsafe⟩ := h
  cases hstep with
  | @call s c i op hidle =>
      refine ⟨hinv, hforward, ?_⟩
      intro j op' p hj
      obtain ⟨-, hx⟩ | ⟨-, hj⟩ := running_update hj
      · cases hx
        exact hcode op s hinv
      · exact hsafe j op' p hj
  | @work s s' c i op p p' hi hwork =>
      obtain ⟨write, next, rfl, rfl, rfl⟩ := hwork
      obtain ⟨hinv', hmoved, hnext⟩ := hsafe i op _ hi s (P.refl s) hinv
      refine ⟨hinv', P.trans hforward hmoved, ?_⟩
      intro j op' q hj
      obtain ⟨-, hx⟩ | ⟨-, hj⟩ := running_update hj
      · cases hx
        exact hnext
      · exact (hsafe j op' q hj).forward hmoved
  | env henv => exact henv.elim
  | @ret s c i op p a hi hr =>
      refine ⟨hinv, hforward, ?_⟩
      intro j op' q hj
      obtain ⟨-, hx⟩ | ⟨-, hj⟩ := running_update hj
      · cases hx
      · exact hsafe j op' q hj

/-- A run may be looked at from any of its states on. -/
theorem Keeps.run {s₀ : σ} {t t' : σ × (ι → Thread Op (Prog σ α))} {init : σ → Prop}
    {es : List (Ev ι Op α)} (hcode : ∀ op s, P.Inv s → Safe P (Q op) (code op) s)
    (h : Keeps P Q s₀ t) (hrun : ((impl ι code).system init).Run t es t') : Keeps P Q t.1 t' :=
  Lts.Run.invariant (fun h hstep => h.step hcode hstep) hrun ⟨h.inv, P.refl t.1, h.safe⟩

/-- **Threads that are safe one by one are safe together.** -/
theorem keeps_run {s₀ s : σ} {c : ι → Thread Op (Prog σ α)} {es : List (Ev ι Op α)}
    (hcode : ∀ op s, P.Inv s → Safe P (Q op) (code op) s) (hinit : P.Inv s₀)
    (hrun : ((impl ι code).system (· = s₀)).Run (s₀, fun _ => .idle) es (s, c)) :
    Keeps P Q s₀ (s, c) := by
  have hstart : Keeps (ι := ι) P Q s₀ (s₀, fun _ => .idle) := by
    refine ⟨hinit, P.refl s₀, ?_⟩
    intro i op p hi
    cases hi
  exact hstart.run hcode hrun

/-- A thread whose call has begun may be served any time before it returns. -/
def client : Thread Op (Prog σ α) → Client Op α
  | .idle => .idle
  | .running op _ => .called op

theorem client_update (c : ι → Thread Op (Prog σ α)) (i : ι) (x : Thread Op (Prog σ α)) :
    (fun j => client (update c i x j)) = update (fun j => client (c j)) i (client x) := by
  funext j
  by_cases hj : j = i
  · rw [hj, update_self, update_self]
  · rw [update_of_ne hj, update_of_ne hj]

/-- **What always has one answer** is answered as by a function of the call. -/
theorem linearizable {answer : Op → α} {s₀ : σ} {es : List (Ev ι Op α)}
    (hcode : ∀ op s, P.Inv s → Safe P (fun a _ => a = answer op) (code op) s) (hinit : P.Inv s₀)
    (htrace : ((impl ι code).system (· = s₀)).Trace es) :
    (atomicObject (fun op (u : Unit) => (u, answer op)) ()).Trace es := by
  refine Lts.Simulates.trace (R := fun s t =>
    Keeps P (fun op a _ => a = answer op) s₀ s ∧ t = ((), fun i => client (s.2 i))) ?_ htrace
  constructor
  · intro ⟨s, c⟩ ⟨hs, hc⟩
    dsimp only at hs hc
    subst hs hc
    refine ⟨_, rfl, ⟨hinit, P.refl s, ?_⟩, rfl⟩
    intro i op p hi
    cases hi
  · intro s t l s' ⟨hkeeps, ht⟩ hstep
    have hkeeps' := hkeeps.step hcode hstep
    subst ht
    cases hstep with
    | @call s c i op hidle =>
        refine ⟨_, .single (.call (by simp only [hidle, client])), hkeeps', ?_⟩
        rw [client_update]
        rfl
    | @work s s' c i op p p' hi hwork =>
        refine ⟨_, .nil _, hkeeps', ?_⟩
        have hthread : client (.running op p') = client (c i) := by rw [hi]; rfl
        dsimp only
        rw [client_update, hthread, update_eq_self (f := fun i => client (c i))]
    | env henv => exact henv.elim
    | @ret s c i op p a hi hr =>
        -- the call is served at its return
        have hanswer : a = answer op := by
          cases p with
          | ret b =>
              cases hr
              exact hkeeps.safe i op _ hi s (P.refl s) hkeeps.inv
          | access write next => cases hr
        subst hanswer
        have hcommit : AtomicStep (fun op (u : Unit) => (u, answer op)) ((), fun j => client (c j))
            none ((), update (fun j => client (c j)) i (.served (answer op))) :=
          .commit (by simp only [hi, client])
        refine ⟨_, .silent hcommit (.single (.ret (update_self ..))), hkeeps', ?_⟩
        dsimp only
        rw [client_update, update_idem]
        rfl

end LdbToolchain.Threads
