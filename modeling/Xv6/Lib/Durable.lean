import Mathlib.Logic.Function.Basic

set_option autoImplicit false

/-! # Computations over durable storage

A store maps keys to values and survives a crash; a computation reads the store and issues writes
to it, one key at a time. `Durable κ β α` is such a computation: run on a store it yields a result
and the list of writes in the order they are issued, each later read seeing the earlier writes.

A crash keeps a prefix of the writes and loses the computation (`Durable.crash`). Recovery is again
a `Durable` computation, so it can crash itself; `Durable.restarts` crashes it any number of times.
The rule for reasoning about all of these at once is `Durable.restarts_run`: a predicate on stores
that every prefix of the recovery keeps still holds when the recovery finally runs to its end. -/

namespace Durable

open Function

variable {κ β α γ : Type} [DecidableEq κ]

/-! ## Lists of writes -/

/-- The store after the writes `ws`, the first of them first. -/
def applyWrites (d : κ → β) (ws : List (κ × β)) : κ → β :=
  ws.foldl (fun d w => update d w.1 w.2) d

@[simp] theorem applyWrites_nil (d : κ → β) : applyWrites d [] = d := rfl

@[simp] theorem applyWrites_cons (d : κ → β) (w : κ × β) (ws : List (κ × β)) :
    applyWrites d (w :: ws) = applyWrites (update d w.1 w.2) ws := rfl

theorem applyWrites_append (d : κ → β) (ws vs : List (κ × β)) :
    applyWrites d (ws ++ vs) = applyWrites (applyWrites d ws) vs := by
  simp [applyWrites, List.foldl_append]

/-- A key that no write names keeps its value. -/
theorem applyWrites_of_not_mem (ws : List (κ × β)) (d : κ → β) (k : κ)
    (h : k ∉ ws.map Prod.fst) : applyWrites d ws k = d k := by
  induction ws generalizing d with
  | nil => rfl
  | cons w ws ih =>
    simp only [List.map_cons, List.mem_cons, not_or] at h
    rw [applyWrites_cons, ih _ h.2, update_of_ne h.1]

/-- When every write to `k` carries the value `v`, the key holds `v` once one of them is applied. -/
theorem applyWrites_of_mem (ws : List (κ × β)) (d : κ → β) (k : κ) (v : β)
    (hmem : k ∈ ws.map Prod.fst) (hv : ∀ w ∈ ws, w.1 = k → w.2 = v) :
    applyWrites d ws k = v := by
  induction ws generalizing d with
  | nil => simp at hmem
  | cons w ws ih =>
    have hrest : ∀ w' ∈ ws, w'.1 = k → w'.2 = v := fun w' hw' => hv w' (List.mem_cons_of_mem _ hw')
    rw [applyWrites_cons]
    by_cases hin : k ∈ ws.map Prod.fst
    · exact ih _ hin hrest
    · -- the head is then the last write to `k`
      simp only [List.map_cons, List.mem_cons, hin, or_false] at hmem
      rw [applyWrites_of_not_mem ws _ k hin, hmem, update_self]
      exact hv w List.mem_cons_self hmem.symm

end Durable

/-- A computation over the store `κ → β`: its result, and the writes it issues in order. -/
def Durable (κ β α : Type) : Type := (κ → β) → α × List (κ × β)

namespace Durable

open Function

variable {κ β α γ : Type} [DecidableEq κ]

instance : Monad (Durable κ β) where
  pure a := fun _ => (a, [])
  bind m f := fun d =>
    let r := m d
    let r' := f r.1 (applyWrites d r.2)
    (r'.1, r.2 ++ r'.2)

/-- Read one key. -/
def read (k : κ) : Durable κ β β := fun d => (d k, [])

/-- Write one key: a single atomic and durable write. -/
def write (k : κ) (v : β) : Durable κ β Unit := fun _ => ((), [(k, v)])

/-- The result of a computation that is not interrupted. -/
def result (m : Durable κ β α) (d : κ → β) : α := (m d).1

/-- The writes of a computation that is not interrupted. -/
def trace (m : Durable κ β α) (d : κ → β) : List (κ × β) := (m d).2

/-- The store a computation leaves when it is not interrupted. -/
def run (m : Durable κ β α) (d : κ → β) : κ → β := applyWrites d (m.trace d)

/-- The store a crash after the first `n` writes leaves. -/
def crash (m : Durable κ β α) (n : Nat) (d : κ → β) : κ → β := applyWrites d ((m.trace d).take n)

/-- The store after the computation is started and crashed once for each number of the list. -/
def restarts (m : Durable κ β α) (ns : List Nat) (d : κ → β) : κ → β :=
  ns.foldl (fun d n => m.crash n d) d

@[simp] theorem trace_pure (a : α) (d : κ → β) : (pure a : Durable κ β α).trace d = [] := rfl

omit [DecidableEq κ] in
@[simp] theorem trace_read (k : κ) (d : κ → β) : (read k : Durable κ β β).trace d = [] := rfl

omit [DecidableEq κ] in
@[simp] theorem result_read (k : κ) (d : κ → β) : (read k : Durable κ β β).result d = d k := rfl

omit [DecidableEq κ] in
@[simp] theorem trace_write (k : κ) (v : β) (d : κ → β) : (write k v).trace d = [(k, v)] := rfl

@[simp] theorem run_read (k : κ) (d : κ → β) : (read k : Durable κ β β).run d = d := rfl

@[simp] theorem run_write (k : κ) (v : β) (d : κ → β) :
    (write k v).run d = update d k v := rfl

@[simp] theorem trace_bind (m : Durable κ β α) (f : α → Durable κ β γ) (d : κ → β) :
    (m >>= f).trace d = m.trace d ++ (f (m.result d)).trace (m.run d) := rfl

@[simp] theorem result_bind (m : Durable κ β α) (f : α → Durable κ β γ) (d : κ → β) :
    (m >>= f).result d = (f (m.result d)).result (m.run d) := rfl

/-- A crash after all the writes is no crash. -/
theorem crash_of_length_le (m : Durable κ β α) (n : Nat) (d : κ → β)
    (h : (m.trace d).length ≤ n) : m.crash n d = m.run d := by
  rw [crash, List.take_of_length_le h, run]

/-- A predicate kept by every prefix of the writes is kept by any number of crashed restarts. -/
theorem restarts_keep (m : Durable κ β α) (I : (κ → β) → Prop)
    (hI : ∀ d, I d → ∀ n, I (m.crash n d)) (ns : List Nat) (d : κ → β) (hd : I d) :
    I (m.restarts ns d) := by
  induction ns generalizing d with
  | nil => exact hd
  | cons n ns ih => exact ih (m.crash n d) (hI d hd n)

/-- **Recovery.** Crash the recovery any number of times and then let it run: what it establishes
    from every store in `I` it establishes here too, when all its prefixes stay in `I`. -/
theorem restarts_run (m : Durable κ β α) (I Q : (κ → β) → Prop)
    (hI : ∀ d, I d → ∀ n, I (m.crash n d)) (hQ : ∀ d, I d → Q (m.run d))
    (ns : List Nat) (d : κ → β) (hd : I d) : Q (m.run (m.restarts ns d)) :=
  hQ _ (restarts_keep m I hI ns d hd)

end Durable
