import Mathlib

/-!
# A heap of objects

Objects of one type, addressed by natural numbers. Addresses from `next` on have never been used;
that is a field, so an allocated address is always new. A nullable pointer is an `Option Nat`.

The lemmas give the content of every address after every operation, in the form `simp` uses.
-/

namespace LdbToolchain

structure Heap (α : Type) where
  cell : Nat → Option α
  next : Nat
  unused : ∀ a, next ≤ a → cell a = none

namespace Heap

variable {α : Type}

def empty : Heap α where
  cell _ := none
  next := 0
  unused _ _ := rfl

/-- A new object, at address `h.next`. -/
def alloc (h : Heap α) (x : α) : Heap α where
  cell := Function.update h.cell h.next (some x)
  next := h.next + 1
  unused a ha := by
    rw [Function.update_of_ne (by omega)]
    exact h.unused a (by omega)

/-- Change the object at `a`, if there is one. -/
def modify (h : Heap α) (a : Nat) (f : α → α) : Heap α where
  cell := Function.update h.cell a ((h.cell a).map f)
  next := h.next
  unused b hb := by
    by_cases hab : b = a
    · subst hab
      rw [Function.update_self, h.unused b hb, Option.map_none]
    · rw [Function.update_of_ne hab]
      exact h.unused b hb

def free (h : Heap α) (a : Nat) : Heap α where
  cell := Function.update h.cell a none
  next := h.next
  unused b hb := by
    by_cases hab : b = a
    · rw [hab, Function.update_self]
    · rw [Function.update_of_ne hab]
      exact h.unused b hb

theorem lt_next {h : Heap α} {a : Nat} {x : α} (ha : h.cell a = some x) : a < h.next := by
  by_contra hge
  rw [h.unused a (by omega)] at ha
  cases ha

@[simp] theorem cell_empty (a : Nat) : (empty : Heap α).cell a = none := rfl

@[simp] theorem next_alloc (h : Heap α) (x : α) : (h.alloc x).next = h.next + 1 := rfl

@[simp] theorem next_modify (h : Heap α) (a : Nat) (f : α → α) : (h.modify a f).next = h.next := rfl

theorem cell_alloc (h : Heap α) (x : α) (b : Nat) :
    (h.alloc x).cell b = if b = h.next then some x else h.cell b := by
  simp only [alloc, Function.update_apply]

@[simp] theorem cell_alloc_next (h : Heap α) (x : α) : (h.alloc x).cell h.next = some x := by
  rw [cell_alloc, if_pos rfl]

theorem cell_modify (h : Heap α) (a : Nat) (f : α → α) (b : Nat) :
    (h.modify a f).cell b = if b = a then (h.cell a).map f else h.cell b := by
  simp only [modify, Function.update_apply]

@[simp] theorem cell_modify_self (h : Heap α) (a : Nat) (f : α → α) :
    (h.modify a f).cell a = (h.cell a).map f := by
  rw [cell_modify, if_pos rfl]

theorem modify_modify (h : Heap α) (a : Nat) (f g : α → α) :
    (h.modify a f).modify a g = h.modify a fun x => g (f x) := by
  simp only [modify, Function.update_self, Function.update_idem, Option.map_map]
  rfl

theorem cell_free (h : Heap α) (a b : Nat) :
    (h.free a).cell b = if b = a then none else h.cell b := by
  simp only [free, Function.update_apply]

/-- The number of objects. -/
def live (h : Heap α) : Nat := ((Finset.range h.next).filter fun a => (h.cell a).isSome = true).card

/-- Freeing an object leaves one less. -/
theorem live_free_lt {h : Heap α} {a : Nat} {x : α} (ha : h.cell a = some x) :
    (h.free a).live < h.live := by
  apply Finset.card_lt_card
  rw [Finset.ssubset_iff_of_subset]
  · refine ⟨a, ?_, ?_⟩
    · simp [ha, lt_next ha]
    · simp [cell_free]
  · intro b hb
    rw [Finset.mem_filter, cell_free] at hb
    obtain ⟨hlt, hsome⟩ := hb
    split at hsome
    · cases hsome
    · exact Finset.mem_filter.mpr ⟨hlt, hsome⟩

end Heap

end LdbToolchain
