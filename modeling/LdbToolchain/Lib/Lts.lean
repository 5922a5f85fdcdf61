import Mathlib.Logic.Function.Basic

/-!
# Labelled transition systems

A step may have a label, which can be seen from outside, or none. A simulation answers each step by a
run with the same labels; so every trace of the one system is a trace of the other.
-/

namespace LdbToolchain

/-- States `σ`, labels `ε`; a step without a label is silent. -/
structure Lts (σ ε : Type) where
  init : σ → Prop
  step : σ → Option ε → σ → Prop

namespace Lts

variable {σ τ ε : Type} {M : Lts σ ε} {N : Lts τ ε} {s s' s'' : σ} {es es' : List ε}

/-- A run with these labels. -/
inductive Run (M : Lts σ ε) : σ → List ε → σ → Prop where
  | nil (s : σ) : Run M s [] s
  | cons {s s' s'' : σ} {l : Option ε} {es : List ε} (first : M.step s l s')
      (rest : Run M s' es s'') : Run M s (l.toList ++ es) s''

theorem Run.silent (h : M.step s none s') (rest : M.Run s' es s'') : M.Run s es s'' := .cons h rest

theorem Run.visible {e : ε} (h : M.step s (some e) s') (rest : M.Run s' es s'') :
    M.Run s (e :: es) s'' := .cons h rest

theorem Run.single {l : Option ε} (h : M.step s l s') : M.Run s l.toList s' := by
  have hrun := Run.cons h (.nil s')
  rwa [List.append_nil] at hrun

theorem Run.trans (h : M.Run s es s') (h' : M.Run s' es' s'') : M.Run s (es ++ es') s'' := by
  induction h with
  | nil => exact h'
  | cons first rest ih =>
      rw [List.append_assoc]
      exact .cons first (ih h')

/-- What every step preserves holds after a run. -/
theorem Run.invariant {I : σ → Prop} (hstep : ∀ {s l s'}, I s → M.step s l s' → I s')
    (h : M.Run s es s') (hs : I s) : I s' := by
  induction h with
  | nil => exact hs
  | cons first rest ih => exact ih (hstep hs first)

/-- What can be seen from outside. -/
def Trace (M : Lts σ ε) (es : List ε) : Prop := ∃ s s', M.init s ∧ M.Run s es s'

/-- `N` answers the steps of `M`. -/
structure Simulates (M : Lts σ ε) (N : Lts τ ε) (R : σ → τ → Prop) : Prop where
  init : ∀ s, M.init s → ∃ t, N.init t ∧ R s t
  step : ∀ s t l s', R s t → M.step s l s' → ∃ t', N.Run t l.toList t' ∧ R s' t'

theorem Simulates.run {R : σ → τ → Prop} (h : Simulates M N R) (hrun : M.Run s es s') {t : τ}
    (ht : R s t) : ∃ t', N.Run t es t' ∧ R s' t' := by
  induction hrun generalizing t with
  | nil s => exact ⟨t, .nil t, ht⟩
  | cons first rest ih =>
      obtain ⟨t₁, hfirst, ht₁⟩ := h.step _ _ _ _ ht first
      obtain ⟨t', hrest, ht'⟩ := ih ht₁
      exact ⟨t', hfirst.trans hrest, ht'⟩

/-- **A simulation includes the traces.** -/
theorem Simulates.trace {R : σ → τ → Prop} (h : Simulates M N R) (htrace : M.Trace es) :
    N.Trace es := by
  obtain ⟨s, s', hinit, hrun⟩ := htrace
  obtain ⟨t, ht, hrel⟩ := h.init s hinit
  obtain ⟨t', hrun', -⟩ := h.run hrun hrel
  exact ⟨t, t', ht, hrun'⟩

end Lts

end LdbToolchain
