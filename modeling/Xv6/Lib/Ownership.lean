import Mathlib.Data.Set.Card

set_option autoImplicit false

/-! # Owned numbers

A range of numbers `[lo, hi)` is handed out to places: `R k` is the number at the place `k`, or `0`
for none. A mark is kept for each number below `hi`. `Owns lo hi R mark` says that the marked numbers
of the range are those at some place, that no number is at two places, and that the numbers below
`lo` are marked and at no place. Giving a free number to an empty place (`Owns.take`) and taking it
away (`Owns.give`) keep this. -/

section Ownership

variable {κ : Type} {lo hi : Nat}

structure Owns (lo hi : Nat) (R : κ → Nat) (mark : Nat → Bool) : Prop where
  range : ∀ k, R k ≠ 0 → lo ≤ R k ∧ R k < hi
  marked : ∀ k, R k ≠ 0 → mark (R k) = true
  inj : ∀ k l, R k ≠ 0 → R k = R l → k = l
  owned : ∀ b, lo ≤ b → b < hi → mark b = true → ∃ k, R k = b
  reserved : ∀ b, b < lo → mark b = true

variable {R : κ → Nat} {mark : Nat → Bool}

/-- A number that is not marked is at no place. -/
theorem Owns.ne_of_not_marked (h : Owns lo hi R mark) {b : Nat} (hb : mark b = false) (hb0 : b ≠ 0)
    (k : κ) : R k ≠ b := by
  rintro rfl
  rw [h.marked k hb0] at hb
  cases hb

/-- Below `hi` the marks say which numbers are in use. -/
theorem Owns.marked_iff (h : Owns lo hi R mark) (hlo : 0 < lo) {b : Nat} (hb : b < hi) :
    mark b = true ↔ b < lo ∨ ∃ k, R k = b := by
  refine ⟨fun hm => ?_, ?_⟩
  · by_cases hbl : b < lo
    · exact Or.inl hbl
    · exact Or.inr (h.owned b (Nat.le_of_not_lt hbl) hb hm)
  · rintro (hbl | ⟨k, rfl⟩)
    · exact h.reserved b hbl
    · by_cases hk : R k = 0
      · exact h.reserved _ (by omega)
      · exact h.marked k hk

variable {R' : κ → Nat} {mark' : Nat → Bool}

theorem Owns.mark_congr (h : Owns lo hi R mark) (h' : Owns lo hi R mark') (hlo : 0 < lo) {b : Nat}
    (hb : b < hi) : mark' b = mark b := by
  rw [Bool.eq_iff_iff, h.marked_iff hlo hb, h'.marked_iff hlo hb]

/-- The numbers that are at no place. -/
def unowned (lo hi : Nat) (R : κ → Nat) : Set Nat := {b | lo ≤ b ∧ b < hi ∧ ∀ k, R k ≠ b}

theorem finite_unowned : (unowned lo hi R).Finite := (Set.finite_lt_nat hi).subset fun _ hb => hb.2.1

theorem Owns.unowned_eq_empty (h : Owns lo hi R mark) (hfull : ∀ b, b < hi → mark b = true) :
    unowned lo hi R = ∅ := by
  refine Set.eq_empty_of_forall_notMem fun b hb => ?_
  obtain ⟨k, hk⟩ := h.owned b hb.1 hb.2.1 (hfull b hb.2.1)
  exact hb.2.2 k hk

/-- What has come to an empty place was at no place. -/
theorem Owns.mem_unowned (h' : Owns lo hi R' mark') (hkeep : ∀ k, R k ≠ 0 → R' k = R k) {k : κ}
    (hk : R k = 0) (hk' : R' k ≠ 0) : R' k ∈ unowned lo hi R := by
  refine ⟨(h'.range k hk').1, (h'.range k hk').2, fun l hl => ?_⟩
  have hll : R' l = R' k := (hkeep l (by rwa [hl])).trans hl
  have hlk : l = k := h'.inj l k (by rwa [hll]) hll
  rw [hlk, hk] at hl
  exact hk' hl.symm

/-- One empty place has been filled, so one number is not free any more. -/
theorem Owns.mark_filled (h : Owns lo hi R mark) (h' : Owns lo hi R' mark') (hlo : 0 < lo) {k : κ}
    (hrest : ∀ l, l ≠ k → R' l = R l) (hk : R k = 0) (hk' : R' k ≠ 0) :
    mark (R' k) = false ∧ ∀ b, b < hi → (mark' b = false ↔ b ≠ R' k ∧ mark b = false) := by
  obtain ⟨hlk, hkh⟩ := h'.range k hk'
  refine ⟨?_, fun b hb => ?_⟩
  · by_contra hm
    obtain ⟨l, hl⟩ := h.owned _ hlk hkh (by simpa using hm)
    have hlk' : l ≠ k := by
      rintro rfl
      exact hk' (by rw [← hl, hk])
    have hll : R' l = R' k := by rw [hrest l hlk', hl]
    exact hlk' (h'.inj l k (by rwa [hll]) hll)
  · have hiff : mark' b = true ↔ b = R' k ∨ mark b = true := by
      rw [h.marked_iff hlo hb, h'.marked_iff hlo hb]
      refine ⟨?_, ?_⟩
      · rintro (hbl | ⟨l, rfl⟩)
        · exact Or.inr (Or.inl hbl)
        · by_cases hlk' : l = k
          · exact Or.inl (by rw [hlk'])
          · exact Or.inr (Or.inr ⟨l, (hrest l hlk').symm⟩)
      · rintro (rfl | hbl | ⟨l, rfl⟩)
        · exact Or.inr ⟨k, rfl⟩
        · exact Or.inl hbl
        · by_cases hlk' : l = k
          · rw [hlk', hk]
            exact Or.inl hlo
          · exact Or.inr ⟨l, hrest l hlk'⟩
    rw [← Bool.not_eq_true, hiff, not_or, Bool.not_eq_true]

variable [DecidableEq κ]

/-- Give a free number to an empty place. -/
theorem Owns.take (h : Owns lo hi R mark) (hlo : 0 < lo) {k : κ} {b : Nat} (hk : R k = 0)
    (hb : b < hi) (hfree : mark b = false) :
    Owns lo hi (Function.update R k b) (Function.update mark b true) := by
  have hlob : lo ≤ b := by
    by_contra hlt
    rw [h.reserved b (by omega)] at hfree
    cases hfree
  have hne : ∀ l, R l ≠ b := h.ne_of_not_marked hfree (by omega)
  constructor
  · intro l hl
    by_cases hlk : l = k
    · subst hlk
      rw [Function.update_self]
      exact ⟨hlob, hb⟩
    · rw [Function.update_of_ne hlk] at hl ⊢
      exact h.range l hl
  · intro l hl
    by_cases hlk : l = k
    · subst hlk
      simp
    · rw [Function.update_of_ne hlk] at hl ⊢
      rw [Function.update_of_ne (hne l)]
      exact h.marked l hl
  · intro l m hl hlm
    by_cases hlk : l = k <;> by_cases hmk : m = k
    · rw [hlk, hmk]
    · rw [hlk, Function.update_self, Function.update_of_ne hmk] at hlm
      exact absurd hlm.symm (hne m)
    · rw [hmk, Function.update_self, Function.update_of_ne hlk] at hlm
      exact absurd hlm (hne l)
    · rw [Function.update_of_ne hlk] at hl hlm
      rw [Function.update_of_ne hmk] at hlm
      exact h.inj l m hl hlm
  · intro c hlc hch hc
    by_cases hcb : c = b
    · exact ⟨k, by rw [hcb, Function.update_self]⟩
    · rw [Function.update_of_ne hcb] at hc
      obtain ⟨l, hl⟩ := h.owned c hlc hch hc
      have hlk : l ≠ k := by
        rintro rfl
        omega
      exact ⟨l, by rw [Function.update_of_ne hlk, hl]⟩
  · intro c hc
    rw [Function.update_of_ne (by omega)]
    exact h.reserved c hc

/-- Take the number at a place away. -/
theorem Owns.give (h : Owns lo hi R mark) {k : κ} (hk : R k ≠ 0) :
    Owns lo hi (Function.update R k 0) (Function.update mark (R k) false) := by
  have hother : ∀ l, Function.update R k 0 l ≠ 0 → l ≠ k ∧ R l ≠ 0 ∧ R l ≠ R k := by
    intro l hl
    have hlk : l ≠ k := by
      rintro rfl
      rw [Function.update_self] at hl
      exact hl rfl
    rw [Function.update_of_ne hlk] at hl
    exact ⟨hlk, hl, fun he => hlk (h.inj l k hl he)⟩
  constructor
  · intro l hl
    obtain ⟨hlk, hl0, -⟩ := hother l hl
    rw [Function.update_of_ne hlk]
    exact h.range l hl0
  · intro l hl
    obtain ⟨hlk, hl0, hne⟩ := hother l hl
    rw [Function.update_of_ne hlk, Function.update_of_ne hne]
    exact h.marked l hl0
  · intro l m hl hlm
    obtain ⟨hlk, hl0, -⟩ := hother l hl
    obtain ⟨hmk, -, -⟩ := hother m (hlm ▸ hl)
    rw [Function.update_of_ne hlk, Function.update_of_ne hmk] at hlm
    exact h.inj l m hl0 hlm
  · intro c hlc hch hc
    by_cases hcb : c = R k
    · rw [hcb, Function.update_self] at hc
      cases hc
    · rw [Function.update_of_ne hcb] at hc
      obtain ⟨l, hl⟩ := h.owned c hlc hch hc
      have hlk : l ≠ k := by
        rintro rfl
        exact hcb hl.symm
      exact ⟨l, by rw [Function.update_of_ne hlk, hl]⟩
  · intro c hc
    have := (h.range k hk).1
    rw [Function.update_of_ne (by omega)]
    exact h.reserved c hc

end Ownership
