import Mathlib.Data.Nat.Digits.Lemmas

set_option autoImplicit false

/-! # Numerals

The digits of a number the most significant first, as they are written: at least one of them, and
no zero in front. `padded` has a fixed number of digits instead. -/

namespace Numeral

variable {b n k : ℕ}

/-- The digits of `n` in base `b`, the most significant first. -/
def numeral (b n : ℕ) : List ℕ := if n = 0 then [0] else (b.digits n).reverse

theorem numeral_of_div_eq_zero (hb : 1 < b) (h : n / b = 0) : numeral b n = [n % b] := by
  have hlt : n < b := (Nat.div_eq_zero_iff_lt (by omega)).mp h
  unfold numeral
  split
  · rename_i h0
    rw [h0, Nat.zero_mod]
  · rename_i h0
    rw [Nat.digits_of_lt b n h0 hlt, Nat.mod_eq_of_lt hlt]
    rfl

/-- The last digit is the remainder, the others are the numeral of the quotient. -/
theorem numeral_of_div_ne_zero (hb : 1 < b) (h : n / b ≠ 0) :
    numeral b n = numeral b (n / b) ++ [n % b] := by
  have h0 : n ≠ 0 := by
    rintro rfl
    exact h (Nat.zero_div b)
  unfold numeral
  rw [if_neg h0, if_neg h, Nat.digits_def' hb (Nat.pos_of_ne_zero h0), List.reverse_cons]

theorem length_numeral_pos (b n : ℕ) : 0 < (numeral b n).length := by
  unfold numeral
  split
  · exact Nat.one_pos
  · rename_i h0
    rw [List.length_reverse, List.length_pos_iff]
    exact Nat.digits_ne_nil_iff_ne_zero.mpr h0

/-- `k` digits are enough for the numbers below `b ^ k`. -/
theorem length_numeral_le_iff (hb : 1 < b) (hk : 0 < k) :
    (numeral b n).length ≤ k ↔ n < b ^ k := by
  unfold numeral
  split
  · rename_i h0
    subst h0
    exact ⟨fun _ => Nat.pow_pos (by omega), fun _ => hk⟩
  · rw [List.length_reverse, Nat.digits_length_le_iff hb]

theorem length_numeral_mono {m : ℕ} (h : n ≤ m) : (numeral b n).length ≤ (numeral b m).length := by
  rcases Nat.eq_zero_or_pos n with rfl | hn
  · exact length_numeral_pos b m
  · rw [numeral, numeral, if_neg (by omega), if_neg (by omega), List.length_reverse,
      List.length_reverse]
    exact Nat.le_length_digits_le b n m h

theorem lt_of_mem_numeral (hb : 1 < b) {d : ℕ} (h : d ∈ numeral b n) : d < b := by
  unfold numeral at h
  split at h
  · rw [List.mem_singleton.mp h]
    omega
  · exact Nat.digits_lt_base hb (List.mem_reverse.mp h)

theorem numeral_injective (b : ℕ) : Function.Injective (numeral b) := by
  have hval : ∀ n, Nat.ofDigits b (numeral b n).reverse = n := by
    intro n
    unfold numeral
    split
    · rename_i h0
      rw [h0, List.reverse_singleton, Nat.ofDigits_singleton]
    · rw [List.reverse_reverse, Nat.ofDigits_digits]
  intro n m h
  rw [← hval n, h, hval m]

/-- The `k` lowest digits of `n` in base `b`, the most significant first. -/
def padded (b k n : ℕ) : List ℕ := (Nat.digitsAppend b k n).reverse

/-- The first digit, and the others are those of the remainder. -/
theorem padded_succ (hb : 1 < b) (h : n < b ^ (k + 1)) :
    padded b (k + 1) n = n / b ^ k :: padded b k (n % b ^ k) := by
  have hpos : 0 < b ^ k := Nat.pow_pos (by omega)
  have hlow : n % b ^ k < b ^ k := Nat.mod_lt n hpos
  have hlen := Nat.length_digitsAppend hb k hlow
  have hval : Nat.ofDigits b (Nat.digitsAppend b k (n % b ^ k) ++ [n / b ^ k]) = n := by
    rw [Nat.ofDigits_append, Nat.ofDigits_singleton, hlen,
      (Nat.setInvOn_digitsAppend_ofDigits hb k).2 hlow, Nat.mod_add_div]
  -- a list of `k + 1` digits is the only one with its value
  have hdig : Nat.digitsAppend b k (n % b ^ k) ++ [n / b ^ k] ∈
      {L : List ℕ | L.length = k + 1 ∧ ∀ x ∈ L, x < b} := by
    refine ⟨by rw [List.length_append, hlen, List.length_singleton], ?_⟩
    intro x hx
    obtain hx | hx := List.mem_append.mp hx
    · exact Nat.lt_of_mem_digitsAppend hb k x hx
    · rw [List.mem_singleton.mp hx]
      exact Nat.div_lt_of_lt_mul (by rwa [← Nat.pow_succ])
  have huniq := (Nat.setInvOn_digitsAppend_ofDigits hb (k + 1)).1 hdig
  rw [hval] at huniq
  unfold padded
  rw [huniq, List.reverse_append, List.reverse_singleton, List.singleton_append]

end Numeral
