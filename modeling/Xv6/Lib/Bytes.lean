import Mathlib.Algebra.Ring.Nat

set_option autoImplicit false

/-! # Words as bytes

A 64-bit word is eight bytes, the least significant first, and an array of words is an array of
bytes. `put` writes bytes into such an array, whole words being taken apart and put together. -/

namespace Bytes

abbrev Byte : Type := BitVec 8

/-- Byte `k` of a word. -/
def byteOf (w : BitVec 64) (k : Nat) : Byte := w.extractLsb' (8 * k) 8

/-- The word of eight bytes. -/
def ofBytes (f : Nat → Byte) : BitVec 64 :=
  f 7 ++ f 6 ++ f 5 ++ f 4 ++ f 3 ++ f 2 ++ f 1 ++ f 0

theorem byteOf_ofBytes (f : Nat → Byte) {k : Nat} (hk : k < 8) : byteOf (ofBytes f) k = f k := by
  apply BitVec.eq_of_getLsbD_eq
  intro i hi
  unfold byteOf ofBytes
  rw [BitVec.getLsbD_extractLsb']
  simp only [BitVec.getLsbD_append]
  -- the bit is in the byte that its position says
  obtain rfl | rfl | rfl | rfl | rfl | rfl | rfl | rfl : k = 0 ∨ k = 1 ∨ k = 2 ∨ k = 3 ∨ k = 4 ∨
    k = 5 ∨ k = 6 ∨ k = 7 := by omega
  all_goals grind

theorem ofBytes_byteOf (w : BitVec 64) : ofBytes (byteOf w) = w := by
  apply BitVec.eq_of_getLsbD_eq
  intro i hi
  unfold byteOf ofBytes
  simp only [BitVec.getLsbD_append, BitVec.getLsbD_extractLsb']
  grind

/-- Byte `j` of an array of words. -/
def get (p : Nat → BitVec 64) (j : Nat) : Byte := byteOf (p (j / 8)) (j % 8)

/-- Write `n` bytes from `off` on. -/
def put (p : Nat → BitVec 64) (off n : Nat) (f : Nat → Byte) (i : Nat) : BitVec 64 :=
  ofBytes fun k => if off ≤ 8 * i + k ∧ 8 * i + k < off + n then f (8 * i + k - off)
    else get p (8 * i + k)

variable {p q : Nat → BitVec 64}

theorem get_put (p : Nat → BitVec 64) (off n : Nat) (f : Nat → Byte) (j : Nat) :
    get (put p off n f) j = if off ≤ j ∧ j < off + n then f (j - off) else get p j := by
  have hj : 8 * (j / 8) + j % 8 = j := Nat.div_add_mod j 8
  unfold get put
  rw [byteOf_ofBytes _ (Nat.mod_lt j (by decide)), hj]
  rfl

/-- Arrays with the same bytes are the same. -/
theorem ext_get (h : ∀ j, get p j = get q j) : p = q := by
  funext i
  rw [← ofBytes_byteOf (p i), ← ofBytes_byteOf (q i)]
  have hbyte : ∀ k, k < 8 → byteOf (p i) k = byteOf (q i) k := by
    intro k hk
    have hik := h (8 * i + k)
    unfold get at hik
    rwa [Nat.mul_add_div (by decide), Nat.div_eq_of_lt hk, Nat.add_zero, Nat.mul_add_mod,
      Nat.mod_eq_of_lt hk] at hik
  unfold ofBytes
  rw [hbyte 0 (by decide), hbyte 1 (by decide), hbyte 2 (by decide), hbyte 3 (by decide),
    hbyte 4 (by decide), hbyte 5 (by decide), hbyte 6 (by decide), hbyte 7 (by decide)]

end Bytes
