import Mathlib.Data.Fintype.Card

set_option autoImplicit false

/-! # Counting the places where a table has a property

`tally f q` is the number of places `x` of a finite table `f` whose entry satisfies `q`. What the
kernel keeps in a counter (a reference count, the number of system calls in progress) is such a
tally; `tally_update` says what changing one entry does to it. -/

section Tally

variable {ι α β : Type} [Fintype ι]

/-- The number of places of the table `f` whose entry satisfies `q`. -/
def tally (f : ι → α) (q : α → Prop) [DecidablePred q] : Nat :=
  (Finset.univ.filter fun x => q (f x)).card

/-- One for an entry with the property, none for another. -/
def tallyOne (q : α → Prop) [DecidablePred q] (a : α) : Nat := if q a then 1 else 0

variable {f : ι → α} {q : α → Prop} [DecidablePred q]

@[simp] theorem tallyOne_pos {a : α} (h : q a) : tallyOne q a = 1 := if_pos h

@[simp] theorem tallyOne_neg {a : α} (h : ¬ q a) : tallyOne q a = 0 := if_neg h

theorem tally_eq_zero_iff : tally f q = 0 ↔ ∀ x, ¬ q (f x) := by
  simp [tally, Finset.filter_eq_empty_iff]

theorem tally_pos_iff : 0 < tally f q ↔ ∃ x, q (f x) := by
  rw [Nat.pos_iff_ne_zero, ne_eq, tally_eq_zero_iff]
  simp

theorem tally_pos_of {x : ι} (h : q (f x)) : 0 < tally f q := tally_pos_iff.2 ⟨x, h⟩

theorem tally_le_card : tally f q ≤ Fintype.card ι := Finset.card_filter_le _ _

/-- Tables that have the property at the same places have the same tally. -/
theorem tally_congr {g : ι → β} {r : β → Prop} [DecidablePred r] (h : ∀ x, q (f x) ↔ r (g x)) :
    tally f q = tally g r := by
  unfold tally
  congr 1
  ext x
  simp [h x]

variable [DecidableEq ι]

/-- Changing one entry moves the tally by what the old and the new entry count for. -/
theorem tally_update (x : ι) (a : α) :
    tally (Function.update f x a) q + tallyOne q (f x) = tally f q + tallyOne q a := by
  have hsplit : ∀ g : ι → α, tally g q
      = (Finset.univ.filter fun y => y ≠ x ∧ q (g y)).card + tallyOne q (g x) := by
    intro g
    have hunion : (Finset.univ.filter fun y => q (g y))
        = (Finset.univ.filter fun y => y ≠ x ∧ q (g y)) ∪ (if q (g x) then {x} else ∅) := by
      ext y
      by_cases hyx : y = x
      · subst hyx
        by_cases hq : q (g y) <;> simp [hq]
      · by_cases hq : q (g x) <;> simp [hq, hyx]
    have hdisj : Disjoint (Finset.univ.filter fun y => y ≠ x ∧ q (g y))
        (if q (g x) then {x} else ∅) := by
      rw [Finset.disjoint_left]
      intro y hy hyx
      simp only [Finset.mem_filter] at hy
      split at hyx
      · exact hy.2.1 (Finset.mem_singleton.1 hyx)
      · simp at hyx
    rw [tally, hunion, Finset.card_union_of_disjoint hdisj]
    by_cases hq : q (g x) <;> simp [hq]
  have hrest : (Finset.univ.filter fun y => y ≠ x ∧ q (Function.update f x a y))
      = Finset.univ.filter fun y => y ≠ x ∧ q (f y) := by
    ext y
    by_cases hyx : y = x
    · simp [hyx]
    · simp [hyx]
  rw [hsplit (Function.update f x a), hsplit f, hrest, Function.update_self]
  omega

theorem tally_update_same {x : ι} {a : α} (h : q a ↔ q (f x)) :
    tally (Function.update f x a) q = tally f q := by
  have := tally_update (f := f) (q := q) x a
  by_cases hq : q (f x)
  · rw [tallyOne_pos hq, tallyOne_pos (h.2 hq)] at this
    omega
  · rw [tallyOne_neg hq, tallyOne_neg (fun ha => hq (h.1 ha))] at this
    omega

theorem tally_update_gain {x : ι} {a : α} (h : ¬ q (f x)) (ha : q a) :
    tally (Function.update f x a) q = tally f q + 1 := by
  have := tally_update (f := f) (q := q) x a
  rw [tallyOne_neg h, tallyOne_pos ha] at this
  omega

theorem tally_update_lose {x : ι} {a : α} (h : q (f x)) (ha : ¬ q a) :
    tally (Function.update f x a) q + 1 = tally f q := by
  have := tally_update (f := f) (q := q) x a
  rw [tallyOne_pos h, tallyOne_neg ha] at this
  omega

end Tally
