import Xv6.Param

set_option autoImplicit false

/-! # Disk blocks

A block is `BSIZE` bytes. The kernel looks at a block in three ways: as bytes (`memmove` into and
out of `bp->data`), as an array of `uint` (an indirect block, the log header) and as an array of
structures. The first two are here; words are stored in the byte order of the machine, the least
significant byte first. -/

namespace Xv6

/-- The contents of a disk block, `uchar data[BSIZE]`. -/
def Block : Type := Fin BSIZE → UInt8

namespace Block

/-- What `memset(bp->data, 0, BSIZE)` leaves. -/
def zero : Block := fun _ => 0

/-- The byte at index `i`. -/
def get (b : Block) (i : Nat) : UInt8 := if h : i < BSIZE then b ⟨i, h⟩ else 0

/-- `memmove(b->data + off, src, m)`. -/
def splice (b : Block) (off m : Nat) (src : Nat → UInt8) : Block :=
  fun i => if off ≤ i.val ∧ i.val < off + m then src (i.val - off) else b i

/-- `((uint*)b->data)[k]`. -/
def word (b : Block) (k : Nat) : Nat :=
  (b.get (4 * k)).toNat + 256 * (b.get (4 * k + 1)).toNat + 65536 * (b.get (4 * k + 2)).toNat
    + 16777216 * (b.get (4 * k + 3)).toNat

/-- `((uint*)b->data)[k] = v`. -/
def setWord (b : Block) (k v : Nat) : Block :=
  b.splice (4 * k) 4 (fun j => UInt8.ofNat (v / 256 ^ j))

@[simp] theorem get_zero (i : Nat) : zero.get i = 0 := by
  simp [get, zero]

@[simp] theorem word_zero (k : Nat) : zero.word k = 0 := by
  simp [word]

@[ext] theorem ext {a b : Block} (h : ∀ i < BSIZE, a.get i = b.get i) : a = b := by
  funext i
  have := h i.val i.isLt
  simpa [get] using this

theorem get_splice (b : Block) (off m : Nat) (src : Nat → UInt8) (i : Nat) (hi : i < BSIZE) :
    (b.splice off m src).get i = if off ≤ i ∧ i < off + m then src (i - off) else b.get i := by
  simp [get, splice, hi]

theorem get_splice_in (b : Block) (off m : Nat) (src : Nat → UInt8) (i : Nat) (hi : i < BSIZE)
    (h1 : off ≤ i) (h2 : i < off + m) : (b.splice off m src).get i = src (i - off) := by
  rw [get_splice b off m src i hi, if_pos ⟨h1, h2⟩]

theorem get_splice_out (b : Block) (off m : Nat) (src : Nat → UInt8) (i : Nat)
    (h : i < off ∨ off + m ≤ i) : (b.splice off m src).get i = b.get i := by
  by_cases hi : i < BSIZE
  · rw [get_splice b off m src i hi, if_neg (by omega)]
  · simp [get, hi]

/-- A word written is the word read back. -/
theorem word_setWord_self (b : Block) (k v : Nat) (hk : k < BSIZE / 4) (hv : v < 2 ^ 32) :
    (b.setWord k v).word k = v := by
  have hbyte : ∀ j < 4, ((b.setWord k v).get (4 * k + j)).toNat = v / 256 ^ j % 256 := by
    intro j hj
    rw [setWord, get_splice_in _ _ _ _ _ (by omega) (by omega) (by omega)]
    simp
  have h0 := hbyte 0 (by omega)
  simp only [Nat.add_zero] at h0
  unfold word
  rw [h0, hbyte 1 (by omega), hbyte 2 (by omega), hbyte 3 (by omega)]
  simp only [Nat.reducePow]
  omega

/-- Writing one word leaves the others. -/
theorem word_setWord_of_ne (b : Block) {k k' : Nat} (v : Nat) (h : k' ≠ k) :
    (b.setWord k v).word k' = b.word k' := by
  have hbyte : ∀ j < 4, (b.setWord k v).get (4 * k' + j) = b.get (4 * k' + j) := by
    intro j hj
    rw [setWord, get_splice_out]
    omega
  have h0 := hbyte 0 (by omega)
  simp only [Nat.add_zero] at h0
  unfold word
  rw [h0, hbyte 1 (by omega), hbyte 2 (by omega), hbyte 3 (by omega)]

end Block

/-- A 32-bit word read as a C `int`. -/
def toInt (w : Nat) : Int := if w < 2 ^ 31 then w else (w : Int) - 2 ^ 32

theorem toInt_of_lt {w : Nat} (h : w < 2 ^ 31) : toInt w = w := if_pos h

end Xv6
