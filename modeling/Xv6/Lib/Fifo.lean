import Mathlib.Data.List.Basic
import Mathlib.Data.Nat.ModEq

set_option autoImplicit false

/-! # A queue in a ring of cells

A queue is kept in `m` cells, with a counter `r` of the elements taken out and a counter `w` of those
put in. The counters wrap at `W`, a multiple of `m`, and an element is in the cell of its number
modulo `m`. `Fifo m W cell r w l` says that `l` is what is in the queue, the oldest element first.
Putting in (`Fifo.push`, or `Fifo.store` and then `Fifo.advance`) and taking out (`Fifo.pop`) need no
more than the comparison of the counters that tells a full and an empty queue (`Fifo.full_iff`,
`Fifo.empty_iff`). The newest element can be taken back (`Fifo.unpush`). A third counter may mark a
place inside the queue: what is before it (`Fifo.front`) and what is after it (`Fifo.back`) are
queues in the same cells. -/

variable {α : Type} {m W : Nat} {cell : Nat → α} {r w : Nat} {l : List α}

structure Fifo (m W : Nat) (cell : Nat → α) (r w : Nat) (l : List α) : Prop where
  r_lt : r < W
  w_eq : w = (r + l.length) % W
  length_le : l.length ≤ m
  get : ∀ i (h : i < l.length), cell ((r + i) % m) = l[i]

theorem Fifo.nil (hW : 0 < W) (cell : Nat → α) : Fifo m W cell 0 0 [] where
  r_lt := hW
  w_eq := (Nat.zero_mod W).symm
  length_le := Nat.zero_le m
  get := fun _ h => absurd h (Nat.not_lt_zero _)

namespace Fifo

open Function

/-- The counters tell how many elements there are. -/
theorem length_eq (h : Fifo m W cell r w l) (hm : m < W) : l.length = (w + W - r) % W := by
  have hr := h.r_lt
  have hlen := h.length_le
  rw [h.w_eq]
  rcases Nat.lt_or_ge (r + l.length) W with hlt | hge
  · rw [Nat.mod_eq_of_lt hlt, show r + l.length + W - r = l.length + W by omega,
      Nat.add_mod_right, Nat.mod_eq_of_lt (by omega)]
  · rw [Nat.mod_eq_sub_mod hge, Nat.mod_eq_of_lt (by omega : r + l.length - W < W),
      show r + l.length - W + W - r = l.length by omega, Nat.mod_eq_of_lt (by omega)]

/-- Adding less than `W` to a counter tells how much was added. -/
theorem add_mod_inj {a i j : Nat} (hi : i < W) (hj : j < W) (h : (a + i) % W = (a + j) % W) :
    i = j := by
  have hij : Nat.ModEq W i j := Nat.ModEq.add_left_cancel' a h
  rwa [Nat.ModEq, Nat.mod_eq_of_lt hi, Nat.mod_eq_of_lt hj] at hij

theorem empty_iff (h : Fifo m W cell r w l) (hm : m < W) : r = w ↔ l = [] := by
  rw [← List.length_eq_zero_iff, h.w_eq]
  constructor
  · intro heq
    have hmod : (r + 0) % W = (r + l.length) % W := by
      rw [Nat.add_zero, Nat.mod_eq_of_lt h.r_lt]
      exact heq
    exact (add_mod_inj (by omega) (Nat.lt_of_le_of_lt h.length_le hm) hmod).symm
  · intro hzero
    rw [hzero, Nat.add_zero, Nat.mod_eq_of_lt h.r_lt]

theorem full_iff (h : Fifo m W cell r w l) (hm : m < W) : w = (r + m) % W ↔ l.length = m := by
  rw [h.w_eq]
  constructor
  · exact add_mod_inj (Nat.lt_of_le_of_lt h.length_le hm) hm
  · intro hlen
    rw [hlen]

/-- The cells of the elements in the queue and of the next one are different. -/
theorem cell_ne (h : Fifo m W cell r w l) (hdvd : m ∣ W) (hroom : l.length < m) {i : Nat}
    (hi : i < l.length) : (r + i) % m ≠ w % m := by
  intro heq
  rw [h.w_eq, Nat.mod_mod_of_dvd _ hdvd] at heq
  have := add_mod_inj (a := r) (by omega) hroom heq
  omega

/-- The next element may be written before it is counted. -/
theorem store (h : Fifo m W cell r w l) (hdvd : m ∣ W) (hroom : l.length < m) (x : α) :
    Fifo m W (update cell (w % m) x) r w l where
  r_lt := h.r_lt
  w_eq := h.w_eq
  length_le := h.length_le
  get := by
    intro i hi
    rw [update_of_ne (h.cell_ne hdvd hroom hi), h.get i hi]

/-- Counting the element that was written next. -/
theorem advance {x : α} (h : Fifo m W cell r w l) (hdvd : m ∣ W) (hroom : l.length < m)
    (hx : cell (w % m) = x) : Fifo m W cell r ((w + 1) % W) (l ++ [x]) where
  r_lt := h.r_lt
  w_eq := by
    rw [h.w_eq, Nat.mod_add_mod, List.length_append]
    rfl
  length_le := by
    rw [List.length_append]
    exact hroom
  get := by
    intro i hi
    rw [List.length_append, List.length_singleton] at hi
    rcases Nat.lt_or_ge i l.length with hlt | hge
    · rw [h.get i hlt, List.getElem_append_left]
    · have hlast : i = l.length := by omega
      subst hlast
      rw [h.w_eq, Nat.mod_mod_of_dvd _ hdvd] at hx
      rw [hx]
      simp

theorem push (h : Fifo m W cell r w l) (hdvd : m ∣ W) (hroom : l.length < m) (x : α) :
    Fifo m W (update cell (w % m) x) r ((w + 1) % W) (l ++ [x]) :=
  (h.store hdvd hroom x).advance hdvd hroom (update_self ..)

theorem head_eq {x : α} (h : Fifo m W cell r w (x :: l)) : cell (r % m) = x :=
  h.get 0 (Nat.zero_lt_succ _)

theorem pop {x : α} (h : Fifo m W cell r w (x :: l)) (hdvd : m ∣ W) :
    Fifo m W cell ((r + 1) % W) w l where
  r_lt := Nat.mod_lt _ (Nat.lt_of_le_of_lt (Nat.zero_le r) h.r_lt)
  w_eq := by
    rw [h.w_eq, Nat.mod_add_mod, List.length_cons]
    congr 1
    omega
  length_le := Nat.le_of_succ_le h.length_le
  get := by
    intro i hi
    have hnext := h.get (i + 1) (Nat.succ_lt_succ hi)
    rw [List.getElem_cons_succ] at hnext
    rw [← hnext, Nat.add_mod, Nat.mod_mod_of_dvd _ hdvd, ← Nat.add_mod]
    congr 2
    omega

/-- Stepping a counter back undoes stepping it on. -/
theorem succ_pred_mod {a : Nat} (ha : a < W) : ((a + 1) % W + W - 1) % W = a := by
  rcases Nat.lt_or_ge (a + 1) W with hlt | hge
  · rw [Nat.mod_eq_of_lt hlt, show a + 1 + W - 1 = a + W by omega, Nat.add_mod_right,
      Nat.mod_eq_of_lt ha]
  · have hW : a + 1 = W := by omega
    rw [hW, Nat.mod_self, Nat.zero_add, Nat.mod_eq_of_lt (by omega)]
    omega

theorem pred_eq {x : α} (h : Fifo m W cell r w (l ++ [x])) :
    (w + W - 1) % W = (r + l.length) % W := by
  have hlast : w = ((r + l.length) % W + 1) % W := by
    rw [h.w_eq, Nat.mod_add_mod, List.length_append, List.length_singleton, Nat.add_assoc]
  rw [hlast]
  exact succ_pred_mod (Nat.mod_lt _ (Nat.lt_of_le_of_lt (Nat.zero_le r) h.r_lt))

theorem last_eq {x : α} (h : Fifo m W cell r w (l ++ [x])) (hdvd : m ∣ W) :
    cell ((w + W - 1) % W % m) = x := by
  have hlen : l.length < (l ++ [x]).length := by simp
  rw [h.pred_eq, Nat.mod_mod_of_dvd _ hdvd, h.get _ hlen]
  simp

theorem front {l' : List α} (h : Fifo m W cell r w (l ++ l')) :
    Fifo m W cell r ((r + l.length) % W) l where
  r_lt := h.r_lt
  w_eq := rfl
  length_le := by
    have := h.length_le
    rw [List.length_append] at this
    omega
  get := by
    intro i hi
    rw [h.get i (by rw [List.length_append]; omega), List.getElem_append_left]

/-- Taking back the newest element. -/
theorem unpush {x : α} (h : Fifo m W cell r w (l ++ [x])) :
    Fifo m W cell r ((w + W - 1) % W) l := by
  rw [h.pred_eq]
  exact h.front

theorem back {l' : List α} (h : Fifo m W cell r w (l ++ l')) (hdvd : m ∣ W) :
    Fifo m W cell ((r + l.length) % W) w l' := by
  induction l generalizing r with
  | nil => rwa [List.length_nil, Nat.add_zero, Nat.mod_eq_of_lt h.r_lt]
  | cons x l ih =>
    have hpop := ih (h.pop hdvd)
    rwa [Nat.mod_add_mod, Nat.add_assoc, Nat.add_comm 1] at hpop

end Fifo
