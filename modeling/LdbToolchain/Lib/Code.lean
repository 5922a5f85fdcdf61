import Mathlib

/-!
# Code with forward jumps

The body of a routine is a list of instructions. An instruction goes on to the next one, jumps ahead
to a label, or leaves the routine. Jumps go forward only, so that every run ends: with `some` state
in which the routine was left, or with `none` when it ran past its last instruction.

`run_next`, `run_skip` and `run_leave` execute one instruction; `run_preserves` is the rule for what
every instruction of a routine leaves as it is.
-/

namespace LdbToolchain.Code

/-- What becomes of an instruction. -/
inductive Outcome (σ : Type) where
  | next (s : σ)
  | skip (label : Nat) (s : σ)
  | leave (s : σ)

/-- The state it is left in. -/
def Outcome.state {σ : Type} : Outcome σ → σ
  | next s => s
  | skip _ s => s
  | leave s => s

/-- What the instructions `ι` of a machine do to its states `σ`, and which of them are labels. -/
structure Isa (ι σ : Type) where
  exec : ι → σ → Outcome σ
  label : ι → Option Nat

variable {ι σ : Type} {isa : Isa ι σ}

/-- The code from the next occurrence of a label on. -/
def Isa.target (isa : Isa ι σ) (l : Nat) (code : List ι) : List ι :=
  code.dropWhile fun i => isa.label i ≠ some l

theorem Isa.length_target_le (isa : Isa ι σ) (l : Nat) (code : List ι) :
    (isa.target l code).length ≤ code.length := (List.dropWhile_sublist _).length_le

def Isa.run (isa : Isa ι σ) : List ι → σ → Option σ
  | [], _ => none
  | i :: code, s =>
    match isa.exec i s with
    | .next s => isa.run code s
    | .skip l s => isa.run (isa.target l code) s
    | .leave s => some s
termination_by code => code.length
decreasing_by
  · exact Nat.lt_succ_self _
  · exact Nat.lt_succ_of_le (isa.length_target_le l code)

variable {i : ι} {code : List ι} {s s' : σ}

theorem run_next (h : isa.exec i s = .next s') : isa.run (i :: code) s = isa.run code s' := by
  rw [Isa.run, h]

theorem run_skip {l : Nat} (h : isa.exec i s = .skip l s') :
    isa.run (i :: code) s = isa.run (isa.target l code) s' := by
  rw [Isa.run, h]

theorem run_leave (h : isa.exec i s = .leave s') : isa.run (i :: code) s = some s' := by
  rw [Isa.run, h]

/-- What every instruction of a routine preserves, its runs preserve. -/
theorem run_preserves {P : σ → Prop} (hexec : ∀ i ∈ code, ∀ s, P s → P (isa.exec i s).state)
    (hrun : isa.run code s = some s') (hs : P s) : P s' := by
  induction hn : code.length using Nat.strong_induction_on generalizing code s with
  | _ n ih =>
      cases code with
      | nil => simp [Isa.run] at hrun
      | cons i code =>
          have hstep := hexec i List.mem_cons_self s hs
          have hlt : code.length < n := by rw [← hn]; exact Nat.lt_succ_self _
          cases he : isa.exec i s with
          | next t =>
              rw [he] at hstep
              rw [run_next he] at hrun
              exact ih _ hlt (fun j hj => hexec j (List.mem_cons_of_mem i hj)) hrun hstep rfl
          | skip l t =>
              rw [he] at hstep
              rw [run_skip he] at hrun
              have hsub : isa.target l code ⊆ code := (List.dropWhile_sublist _).subset
              exact ih _ (Nat.lt_of_le_of_lt (isa.length_target_le l code) hlt)
                (fun j hj => hexec j (List.mem_cons_of_mem i (hsub hj))) hrun hstep rfl
          | leave t =>
              rw [he] at hstep
              rw [run_leave he] at hrun
              cases hrun
              exact hstep

end LdbToolchain.Code
