import Mathlib.Data.List.Perm.Basic
import Mathlib.Data.List.Nodup

set_option autoImplicit false

/-! # Locks and who holds them

`lock l` is the agent that holds the lock `l`, if there is one, and `has c` lists the locks of the
agent `c`. `Held lock has` says that the two agree. An agent that takes a free lock
(`Held.acquire`) or gives one back (`Held.release`) keeps this, and no lock is in the lists of two
agents (`Held.excl`). -/

section Locks

variable {L C : Type} {lock : L → Option C} {has : C → List L}

structure Held (lock : L → Option C) (has : C → List L) : Prop where
  mem_iff : ∀ l c, lock l = some c ↔ l ∈ has c
  nodup : ∀ c, (has c).Nodup

theorem Held.excl (h : Held lock has) {l : L} {c d : C} (hc : l ∈ has c) (hd : l ∈ has d) :
    c = d := by
  have hlc : lock l = some c := (h.mem_iff l c).2 hc
  have hld : lock l = some d := (h.mem_iff l d).2 hd
  rw [hlc] at hld
  exact Option.some.inj hld

theorem Held.not_mem_of_free (h : Held lock has) {l : L} (hl : lock l = none) (c : C) :
    l ∉ has c := by
  intro hmem
  rw [(h.mem_iff l c).2 hmem] at hl
  cases hl

variable [DecidableEq L] [DecidableEq C]

theorem Held.acquire (h : Held lock has) {l : L} (hl : lock l = none) (c : C) :
    Held (Function.update lock l (some c)) (Function.update has c (l :: has c)) where
  mem_iff l' c' := by
    by_cases hc : c' = c
    · subst hc
      by_cases hll : l' = l
      · subst hll
        simp
      · simp [hll, h.mem_iff]
    · by_cases hll : l' = l
      · subst hll
        have hno := h.not_mem_of_free hl c'
        simp [hc, hno, Ne.symm hc]
      · simp [hll, hc, h.mem_iff]
  nodup c' := by
    by_cases hc : c' = c
    · subst hc
      simpa using ⟨h.not_mem_of_free hl c', h.nodup c'⟩
    · simpa [hc] using h.nodup c'

theorem Held.release (h : Held lock has) {l : L} {c : C} {ls : List L}
    (hls : (has c).Perm (l :: ls)) :
    Held (Function.update lock l none) (Function.update has c ls) := by
  have hnodup : (l :: ls).Nodup := hls.nodup_iff.1 (h.nodup c)
  constructor
  · intro l' c'
    by_cases hll : l' = l
    · subst hll
      have hnot : l' ∉ Function.update has c ls c' := by
        by_cases hc : c' = c
        · subst hc
          simpa using (List.nodup_cons.1 hnodup).1
        · intro hmem
          rw [Function.update_of_ne hc] at hmem
          exact hc (h.excl hmem (hls.mem_iff.2 List.mem_cons_self))
      simp [hnot]
    · rw [Function.update_of_ne hll, h.mem_iff]
      by_cases hc : c' = c
      · subst hc
        rw [Function.update_self, hls.mem_iff, List.mem_cons]
        simp [hll]
      · rw [Function.update_of_ne hc]
  · intro c'
    by_cases hc : c' = c
    · subst hc
      simpa using (List.nodup_cons.1 hnodup).2
    · simpa [hc] using h.nodup c'

end Locks
