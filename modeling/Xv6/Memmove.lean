import Mathlib.Algebra.Ring.Nat
import Xv6.Lib.Moves

set_option autoImplicit false

/-! # `memmove`

`memmove` of `kernel/string.c` and of `user/ulib.c`. Both copy upwards or downwards, whichever reads
every byte before it is overwritten, and they choose by different tests: the kernel copies downwards
only when the regions overlap with the source below the destination, the user library whenever the
source is not above the destination. -/

namespace Xv6.Memmove

open Moves Function

abbrev Memory : Type := UInt64 → UInt8

/-! ## The source -/

/-- `while(n-- > 0) *d++ = *s++;` -/
def copyUp : Nat → UInt64 → UInt64 → Memory → Memory
  | 0, _, _, m => m
  | n + 1, d, s, m => copyUp n (d + 1) (s + 1) (update m d (m s))

/-- `while(n-- > 0) *--d = *--s;` -/
def copyDown : Nat → UInt64 → UInt64 → Memory → Memory
  | 0, _, _, m => m
  | n + 1, d, s, m => copyDown n (d - 1) (s - 1) (update m (d - 1) (m (s - 1)))

/-- `memmove` of `kernel/string.c`; `n` is a `uint`. -/
def Kernel.memmove (dst src : UInt64) (n : UInt32) : StateM Memory UInt64 := do
  if n = 0 then return dst
  else
    let s := src
    let d := dst
    if s < d ∧ s + n.toUInt64 > d then
      let s := s + n.toUInt64
      let d := d + n.toUInt64
      modify (copyDown n.toNat d s)
    else
      modify (copyUp n.toNat d s)
    return dst

/-- `memmove` of `user/ulib.c`; `n` is an `int`, and neither loop is entered when it is negative. -/
def User.memmove (vdst vsrc : UInt64) (n : Int32) : StateM Memory UInt64 := do
  let dst := vdst
  let src := vsrc
  if src > dst then
    modify (copyUp n.toNatClampNeg dst src)
  else
    let dst := dst + n.toInt64.toUInt64
    let src := src + n.toInt64.toUInt64
    modify (copyDown n.toNatClampNeg dst src)
  return vdst

/-! ## What a move is -/

/-- The `n` bytes at `dst` are those that were at `src`, and no other byte has changed. -/
structure Moved (m m' : Memory) (dst src : UInt64) (n : Nat) : Prop where
  copied : ∀ i < n, m' (dst + UInt64.ofNat i) = m (src + UInt64.ofNat i)
  frame : ∀ a, ¬ (dst.toNat ≤ a.toNat ∧ a.toNat < dst.toNat + n) → m' a = m a

variable {m m' m'' : Memory} {d s : UInt64} {n : Nat}

theorem toNat_add_ofNat {p : UInt64} {i : Nat} (hp : p.toNat + n ≤ 2 ^ 64) (hi : i < n) :
    (p + UInt64.ofNat i).toNat = p.toNat + i := by
  rw [UInt64.toNat_add, UInt64.toNat_ofNat']
  omega

/-- There is one result of a move. -/
theorem Moved.unique (h : Moved m m' d s n) (h' : Moved m m'' d s n) : m' = m'' := by
  funext a
  by_cases ha : d.toNat ≤ a.toNat ∧ a.toNat < d.toNat + n
  · have hlt := a.toNat_lt
    have he : a = d + UInt64.ofNat (a.toNat - d.toNat) := by
      apply UInt64.toNat_inj.mp
      rw [UInt64.toNat_add, UInt64.toNat_ofNat']
      omega
    have hi : a.toNat - d.toNat < n := by omega
    rw [he, h.copied _ hi, h'.copied _ hi]
  · rw [h.frame a ha, h'.frame a ha]

/-! ## The two directions -/

/-- The places that are written and read, from the lowest on. -/
def places (d s : UInt64) (n : Nat) : List (UInt64 × UInt64) :=
  (List.range n).map fun i => (d + UInt64.ofNat i, s + UInt64.ofNat i)

theorem copyUp_eq (n : Nat) (d s : UInt64) (m : Memory) :
    copyUp n d s m = moves m (places d s n) := by
  induction n generalizing d s m with
  | zero => rfl
  | succ n ih =>
    have hnext : ∀ (p : UInt64) (i : Nat), p + 1 + UInt64.ofNat i = p + UInt64.ofNat (i + 1) := by
      intro p i
      rw [UInt64.ofNat_add, UInt64.add_assoc, UInt64.add_comm 1]
      rfl
    rw [copyUp, ih]
    unfold places
    rw [List.range_succ_eq_map, List.map_cons, List.map_map, moves_cons]
    congr 1
    · simp [move]
    · refine List.map_congr_left fun i _ => ?_
      simp only [hnext, comp_apply, Nat.succ_eq_add_one]

theorem copyDown_eq (n : Nat) (d s : UInt64) (m : Memory) :
    copyDown n (d + UInt64.ofNat n) (s + UInt64.ofNat n) m = moves m (places d s n).reverse := by
  induction n generalizing m with
  | zero => rfl
  | succ n ih =>
    have hprev : ∀ p : UInt64, p + UInt64.ofNat (n + 1) - 1 = p + UInt64.ofNat n := by
      intro p
      rw [UInt64.ofNat_add, ← UInt64.add_assoc]
      exact UInt64.add_sub_cancel _ _
    rw [copyDown, hprev, hprev, ih]
    unfold places
    rw [List.range_succ, List.map_append, List.reverse_append]
    rfl

/-- Moves of the places that lie in order, in either direction, are a move. -/
theorem moved_of_inOrder {l : List (UInt64 × UInt64)} (hd : d.toNat + n ≤ 2 ^ 64) (hl : InOrder l)
    (hmem : ∀ p, p ∈ l ↔ p ∈ places d s n) : Moved m (moves m l) d s n := by
  constructor
  · intro i hi
    exact hl.moves_of_mem (p := (d + UInt64.ofNat i, s + UInt64.ofNat i))
      ((hmem _).mpr (List.mem_map.mpr ⟨i, List.mem_range.mpr hi, rfl⟩))
  · intro a ha
    apply moves_of_notMem
    intro q hq he
    obtain ⟨i, hi, rfl⟩ := List.mem_map.mp ((hmem q).mp hq)
    apply ha
    have hi := List.mem_range.mp hi
    rw [← he, toNat_add_ofNat hd hi]
    omega

theorem pairwise_places {r : UInt64 × UInt64 → UInt64 × UInt64 → Prop}
    (h : ∀ i j, i < j → j < n → r (d + UInt64.ofNat i, s + UInt64.ofNat i)
      (d + UInt64.ofNat j, s + UInt64.ofNat j)) : (places d s n).Pairwise r := by
  apply List.pairwise_map.mpr
  apply List.pairwise_lt_range.imp_of_mem
  intro i j _ hj hij
  exact h i j hij (List.mem_range.mp hj)

/-- What is written is read later only where the regions overlap with the source below. -/
theorem places_inOrder (hd : d.toNat + n ≤ 2 ^ 64) (hs : s.toNat + n ≤ 2 ^ 64)
    (h : ¬ (s.toNat < d.toNat ∧ d.toNat < s.toNat + n)) : InOrder (places d s n) := by
  apply pairwise_places
  intro i j hij hj
  simp only [ne_eq, ← UInt64.toNat_inj, toNat_add_ofNat hd hj, toNat_add_ofNat hs hj,
    toNat_add_ofNat hd (Nat.lt_trans hij hj)]
  omega

/-- Downwards, what is written is read later only where the source is above. -/
theorem places_reverse_inOrder (hd : d.toNat + n ≤ 2 ^ 64) (hs : s.toNat + n ≤ 2 ^ 64)
    (h : s.toNat ≤ d.toNat) : InOrder (places d s n).reverse := by
  apply List.pairwise_reverse.mpr
  apply pairwise_places
  intro i j hij hj
  simp only [ne_eq, ← UInt64.toNat_inj, toNat_add_ofNat hd hj,
    toNat_add_ofNat hs (Nat.lt_trans hij hj), toNat_add_ofNat hd (Nat.lt_trans hij hj)]
  omega

theorem moved_copyUp (hd : d.toNat + n ≤ 2 ^ 64) (hs : s.toNat + n ≤ 2 ^ 64)
    (h : ¬ (s.toNat < d.toNat ∧ d.toNat < s.toNat + n)) : Moved m (copyUp n d s m) d s n := by
  rw [copyUp_eq]
  exact moved_of_inOrder hd (places_inOrder hd hs h) fun p => Iff.rfl

theorem moved_copyDown (hd : d.toNat + n ≤ 2 ^ 64) (hs : s.toNat + n ≤ 2 ^ 64)
    (h : s.toNat ≤ d.toNat) :
    Moved m (copyDown n (d + UInt64.ofNat n) (s + UInt64.ofNat n) m) d s n := by
  rw [copyDown_eq]
  exact moved_of_inOrder hd (places_reverse_inOrder hd hs h) fun p => List.mem_reverse

/-! ## Both implementations -/

theorem Kernel.memmove_moved (m : Memory) (n : UInt32) (hs : s.toNat + n.toNat ≤ 2 ^ 64)
    (hd : d.toNat + n.toNat ≤ 2 ^ 64) :
    (Kernel.memmove d s n m).1 = d ∧ Moved m (Kernel.memmove d s n m).2 d s n.toNat := by
  by_cases h0 : n = 0
  · subst h0
    exact ⟨rfl, moved_copyUp (n := 0) hd hs (by omega)⟩
  · have hn : n.toUInt64 = UInt64.ofNat n.toNat := by simp
    by_cases hdir : s < d ∧ s + n.toUInt64 > d
    · have he : Kernel.memmove d s n m = (d, copyDown n.toNat (d + n.toUInt64) (s + n.toUInt64) m) := by
        simp only [Kernel.memmove, h0, hdir, if_true, if_false, and_self]
        rfl
      rw [he, hn]
      exact ⟨rfl, moved_copyDown hd hs (Nat.le_of_lt (UInt64.lt_iff_toNat_lt.mp hdir.1))⟩
    · have he : Kernel.memmove d s n m = (d, copyUp n.toNat d s m) := by
        simp only [Kernel.memmove, h0, hdir, if_false]
        rfl
      rw [he]
      refine ⟨rfl, moved_copyUp hd hs ?_⟩
      rintro ⟨hlt, hov⟩
      -- the end of the source is below that of the destination, so `s + n` does not wrap
      apply hdir
      simp only [gt_iff_lt, UInt64.lt_iff_toNat_lt, UInt64.toNat_add, UInt32.toNat_toUInt64]
      omega

theorem toUInt64_of_nonneg {n : Int32} (h : 0 ≤ n.toInt) :
    n.toInt64.toUInt64 = UInt64.ofNat n.toNatClampNeg := by
  apply UInt64.toNat_inj.mp
  have hext : n.toInt64.toBitVec.toInt = n.toInt := Int32.toInt_toInt64 n
  have hbits : n.toInt64.toUInt64.toNat = n.toInt64.toBitVec.toNat := rfl
  have hclamp : n.toNatClampNeg = n.toInt.toNat := rfl
  have hlt := n.toInt_lt
  rw [BitVec.toInt_eq_toNat_cond] at hext
  rw [UInt64.toNat_ofNat', hbits, hclamp]
  split at hext <;> omega

theorem User.memmove_moved (m : Memory) (n : Int32) (hs : s.toNat + n.toNatClampNeg ≤ 2 ^ 64)
    (hd : d.toNat + n.toNatClampNeg ≤ 2 ^ 64) :
    (User.memmove d s n m).1 = d ∧ Moved m (User.memmove d s n m).2 d s n.toNatClampNeg := by
  by_cases hdir : s > d
  · have he : User.memmove d s n m = (d, copyUp n.toNatClampNeg d s m) := by
      simp only [User.memmove, hdir, if_true]
      rfl
    rw [he]
    have hlt := UInt64.lt_iff_toNat_lt.mp hdir
    exact ⟨rfl, moved_copyUp hd hs (by omega)⟩
  · have he : User.memmove d s n m =
        (d, copyDown n.toNatClampNeg (d + n.toInt64.toUInt64) (s + n.toInt64.toUInt64) m) := by
      simp only [User.memmove, hdir, if_false]
      rfl
    rw [he]
    refine ⟨rfl, ?_⟩
    by_cases hneg : n.toInt < 0
    · -- no byte is copied, wherever the pointers are
      have hn : n.toNatClampNeg = 0 := Int.toNat_of_nonpos (Int.le_of_lt hneg)
      rw [hn] at hd hs ⊢
      exact moved_copyUp hd hs (by omega)
    · have hn : n.toInt64.toUInt64 = UInt64.ofNat n.toNatClampNeg := toUInt64_of_nonneg (by omega)
      have hle : s.toNat ≤ d.toNat := Nat.le_of_not_lt fun h => hdir (UInt64.lt_iff_toNat_lt.mpr h)
      rw [hn]
      exact moved_copyDown hd hs hle

/-- Each `memmove` leaves at `dst` the bytes that were at `src` and changes no others, and for a
number of bytes that is both a `uint` and an `int` the two do the same. -/
theorem memmove_exact (m : Memory) (dst src : UInt64) :
    (∀ n : UInt32, src.toNat + n.toNat ≤ 2 ^ 64 → dst.toNat + n.toNat ≤ 2 ^ 64 →
      (Kernel.memmove dst src n m).1 = dst ∧
        Moved m (Kernel.memmove dst src n m).2 dst src n.toNat) ∧
    (∀ n : Int32, src.toNat + n.toNatClampNeg ≤ 2 ^ 64 → dst.toNat + n.toNatClampNeg ≤ 2 ^ 64 →
      (User.memmove dst src n m).1 = dst ∧
        Moved m (User.memmove dst src n m).2 dst src n.toNatClampNeg) ∧
    (∀ (k : UInt32) (n : Int32), n.toInt = k.toNat → src.toNat + k.toNat ≤ 2 ^ 64 →
      dst.toNat + k.toNat ≤ 2 ^ 64 → Kernel.memmove dst src k m = User.memmove dst src n m) := by
  refine ⟨fun n hs hd => Kernel.memmove_moved m n hs hd, fun n hs hd => User.memmove_moved m n hs hd,
    ?_⟩
  intro k n hkn hs hd
  have hn : n.toNatClampNeg = k.toNat := by
    change n.toInt.toNat = k.toNat
    rw [hkn, Int.toNat_natCast]
  obtain ⟨hk, hkm⟩ := Kernel.memmove_moved m k hs hd
  obtain ⟨hu, hum⟩ := User.memmove_moved m n (hn ▸ hs) (hn ▸ hd)
  rw [hn] at hum
  exact Prod.ext (hk.trans hu.symm) (hkm.unique hum)

/-- The memory whose bytes are their own addresses. -/
def ramp : Memory := UInt64.toUInt8

/-- Five bytes moved up by two, and five bytes at the top of the memory moved down by one. -/
theorem memmove_exact_ramp :
    (Kernel.memmove 3 1 5 ramp).2 7 = 5 ∧ (User.memmove 3 1 5 ramp).2 8 = 8 ∧
      Kernel.memmove 0xfffffffffffffffa 0xfffffffffffffffb 5 ramp =
        User.memmove 0xfffffffffffffffa 0xfffffffffffffffb 5 ramp := by
  obtain ⟨hk, hu, -⟩ := memmove_exact ramp 3 1
  refine ⟨?_, ?_, ?_⟩
  · exact (hk 5 (by decide) (by decide)).2.copied 4 (by decide)
  · exact (hu 5 (by decide) (by decide)).2.frame 8 (by decide)
  · exact (memmove_exact ramp _ _).2.2 5 5 (by decide) (by decide) (by decide)

end Xv6.Memmove
