import Mathlib

/-!
# Weakest preconditions for stateful computations that may fail

`wp x Q s` says that `x`, run from the state `s`, returns normally and that its result and final
state satisfy `Q`. It is total correctness: a run that fails satisfies no postcondition. `wlp` is
the partial counterpart. The rules below are the ones a straight-line program needs; loops are
handled by induction on their own definitions, with `wp_mono` passing from an invariant to what the
caller wants.
-/

namespace LdbToolchain

variable {σ ε α β : Type}

/-- `x` succeeds from `s`, in a result and a state that satisfy `Q`. -/
def wp (x : StateT σ (Except ε) α) (Q : α → σ → Prop) (s : σ) : Prop :=
  ∃ a s', x s = .ok (a, s') ∧ Q a s'

@[simp] theorem wp_pure (a : α) (Q : α → σ → Prop) (s : σ) :
    wp (pure a : StateT σ (Except ε) α) Q s ↔ Q a s := by
  constructor
  · rintro ⟨b, t, hrun, hQ⟩
    cases hrun
    exact hQ
  · intro hQ
    exact ⟨a, s, rfl, hQ⟩

@[simp] theorem wp_bind (x : StateT σ (Except ε) α) (f : α → StateT σ (Except ε) β)
    (Q : β → σ → Prop) (s : σ) :
    wp (x >>= f) Q s ↔ wp x (fun a s' => wp (f a) Q s') s := by
  constructor
  · rintro ⟨b, t, hrun, hQ⟩
    cases hx : x s with
    | error e =>
        have : (x >>= f) s = .error e := by simp [bind, StateT.bind, hx, Except.bind]
        rw [this] at hrun
        cases hrun
    | ok r =>
        obtain ⟨a, s'⟩ := r
        have : (x >>= f) s = f a s' := by simp [bind, StateT.bind, hx, Except.bind]
        exact ⟨a, s', hx, b, t, this ▸ hrun, hQ⟩
  · rintro ⟨a, s', hx, b, t, hf, hQ⟩
    refine ⟨b, t, ?_, hQ⟩
    simp [bind, StateT.bind, hx, Except.bind, hf]

@[simp] theorem wp_map (f : α → β) (x : StateT σ (Except ε) α) (Q : β → σ → Prop) (s : σ) :
    wp (f <$> x) Q s ↔ wp x (fun a s' => Q (f a) s') s := by
  rw [map_eq_pure_bind, wp_bind]
  simp only [wp_pure]

@[simp] theorem wp_get (Q : σ → σ → Prop) (s : σ) :
    wp (get : StateT σ (Except ε) σ) Q s ↔ Q s s := by
  constructor
  · rintro ⟨a, t, hrun, hQ⟩
    cases hrun
    exact hQ
  · intro hQ
    exact ⟨s, s, rfl, hQ⟩

@[simp] theorem wp_modify (f : σ → σ) (Q : PUnit → σ → Prop) (s : σ) :
    wp (modify f : StateT σ (Except ε) PUnit) Q s ↔ Q ⟨⟩ (f s) := by
  constructor
  · rintro ⟨a, t, hrun, hQ⟩
    cases hrun
    exact hQ
  · intro hQ
    exact ⟨⟨⟩, f s, rfl, hQ⟩

/-- Postconditions may be weakened. -/
theorem wp_mono {x : StateT σ (Except ε) α} {Q R : α → σ → Prop} {s : σ}
    (h : wp x Q s) (hQR : ∀ a s', Q a s' → R a s') : wp x R s := by
  obtain ⟨a, s', hrun, hQ⟩ := h
  exact ⟨a, s', hrun, hQR a s' hQ⟩

/-! ## Partial correctness

`wlp x Q s` constrains the normal returns of `x` only, so it is what one learns from a run that is
already known to have returned. -/

/-- Whatever `x` returns from `s`, its result and final state satisfy `Q`. -/
def wlp (x : StateT σ (Except ε) α) (Q : α → σ → Prop) (s : σ) : Prop :=
  ∀ a s', x s = .ok (a, s') → Q a s'

@[simp] theorem wlp_pure (a : α) (Q : α → σ → Prop) (s : σ) :
    wlp (pure a : StateT σ (Except ε) α) Q s ↔ Q a s := by
  constructor
  · intro h
    exact h a s rfl
  · intro hQ b t hrun
    cases hrun
    exact hQ

@[simp] theorem wlp_bind (x : StateT σ (Except ε) α) (f : α → StateT σ (Except ε) β)
    (Q : β → σ → Prop) (s : σ) :
    wlp (x >>= f) Q s ↔ wlp x (fun a s' => wlp (f a) Q s') s := by
  constructor
  · intro h a s' hx b t hf
    exact h b t (by simp [bind, StateT.bind, hx, Except.bind, hf])
  · intro h b t hrun
    cases hx : x s with
    | error e => simp [bind, StateT.bind, hx, Except.bind] at hrun
    | ok r =>
        obtain ⟨a, s'⟩ := r
        simp only [bind, StateT.bind, hx, Except.bind] at hrun
        exact h a s' hx b t hrun

@[simp] theorem wlp_map (f : α → β) (x : StateT σ (Except ε) α) (Q : β → σ → Prop) (s : σ) :
    wlp (f <$> x) Q s ↔ wlp x (fun a s' => Q (f a) s') s := by
  rw [map_eq_pure_bind, wlp_bind]
  simp only [wlp_pure]

@[simp] theorem wlp_get (Q : σ → σ → Prop) (s : σ) :
    wlp (get : StateT σ (Except ε) σ) Q s ↔ Q s s := by
  constructor
  · intro h
    exact h s s rfl
  · intro hQ a t hrun
    cases hrun
    exact hQ

@[simp] theorem wlp_modify (f : σ → σ) (Q : PUnit → σ → Prop) (s : σ) :
    wlp (modify f : StateT σ (Except ε) PUnit) Q s ↔ Q ⟨⟩ (f s) := by
  constructor
  · intro h
    exact h ⟨⟩ (f s) rfl
  · intro hQ a t hrun
    cases hrun
    exact hQ

@[simp] theorem wlp_throw (e : ε) (Q : α → σ → Prop) (s : σ) :
    wlp (throw e : StateT σ (Except ε) α) Q s ↔ True := by
  refine iff_true_intro fun a t hrun => ?_
  cases hrun

theorem wlp_mono {x : StateT σ (Except ε) α} {Q R : α → σ → Prop} {s : σ}
    (h : wlp x Q s) (hQR : ∀ a s', Q a s' → R a s') : wlp x R s :=
  fun a s' hrun => hQR a s' (h a s' hrun)

end LdbToolchain
