import Mathlib.Logic.Function.Basic

set_option autoImplicit false

/-! # Assignments one after another

A loop that copies within one memory assigns place after place from places of that same memory.
It does what assigning all of them at once does as long as no place is read after it was assigned;
`InOrder` is that condition on the sequence of assignments. -/

namespace Moves

open Function

variable {α β : Type} [DecidableEq α]

/-- Assign to the place `p.1` what is at `p.2`. -/
def move (m : α → β) (p : α × α) : α → β := update m p.1 (m p.2)

/-- The assignments of a list, one after another. -/
def moves (m : α → β) (l : List (α × α)) : α → β := l.foldl move m

/-- No place is assigned twice, and none is read after it was assigned. -/
def InOrder (l : List (α × α)) : Prop := l.Pairwise fun p q => p.1 ≠ q.1 ∧ p.1 ≠ q.2

variable {m : α → β} {l : List (α × α)} {p : α × α} {a : α}

@[simp] theorem moves_nil : moves m [] = m := rfl

@[simp] theorem moves_cons : moves m (p :: l) = moves (move m p) l := rfl

@[simp] theorem move_self : move m p p.1 = m p.2 := update_self _ _ _

theorem move_of_ne (h : p.1 ≠ a) : move m p a = m a := update_of_ne (Ne.symm h) _ _

/-- A place that is not assigned keeps what it has. -/
theorem moves_of_notMem (h : ∀ q ∈ l, q.1 ≠ a) : moves m l a = m a := by
  induction l generalizing m with
  | nil => rfl
  | cons q l ih =>
    rw [moves_cons, ih fun r hr => h r (List.mem_cons_of_mem q hr)]
    exact move_of_ne (h q List.mem_cons_self)

/-- In order, a place gets what its source had before the first assignment. -/
theorem InOrder.moves_of_mem (h : InOrder l) (hp : p ∈ l) : moves m l p.1 = m p.2 := by
  induction l generalizing m with
  | nil => cases hp
  | cons q l ih =>
    obtain ⟨hq, hl⟩ := List.pairwise_cons.mp h
    rw [moves_cons]
    cases hp with
    | head => rw [moves_of_notMem fun r hr => Ne.symm (hq r hr).1, move_self]
    | tail _ hp =>
      -- the assignment before it did not change what is read
      rw [ih hl hp, move_of_ne (hq p hp).2]

end Moves
