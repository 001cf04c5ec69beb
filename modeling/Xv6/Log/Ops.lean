import Xv6.Param
import Xv6.Lib.Machine
import Xv6.Lib.Tally

set_option autoImplicit false

/-! # Operations on the log

`begin_op`, `log_write` and `end_op` of `kernel/log.c` as the steps of any number of processes. The
three functions run under `log.lock`; a process takes the lock (`Event.enter`) and later leaves the
critical section with what it did there (`Event.leave`), or goes to sleep in it. `commit` runs
without the lock, while `log.committing` keeps the others away; of what it does only
`log.lh.n = 0` concerns the log itself (`Event.clear`), and its other work is in `Xv6.Log.Pins`.

`sleep(&log, &log.lock)` holds the process's own lock from before `log.lock` is released until the
process sleeps, and `wakeup(&log)` takes that lock, so giving up the lock and falling asleep is one
step. `kill` may wake a sleeper at any time (`Event.wake`); it then goes round the loop again. -/

namespace Xv6.Log

open Machine Function

/-- Where a process is, outside the critical sections. -/
inductive Pc where
  /-- Not between `begin_op` and `end_op`. -/
  | out
  /-- `SLEEPING` on `&log` in `begin_op`. -/
  | sleeping
  /-- Woken in `begin_op`, about to reacquire `log.lock`. -/
  | woken
  /-- Between `begin_op` and `end_op`. -/
  | inOp
  /-- In `commit`, called by `end_op`. -/
  | commit
  /-- Back from `commit`, about to reacquire `log.lock`. -/
  | finish
  deriving DecidableEq, Repr

/-- What a process takes `log.lock` for. -/
inductive Act where
  | beginOp
  | logWrite (b : Nat)
  | endOp
  /-- The end of `end_op`, after `commit`. -/
  | finish
  deriving DecidableEq, Repr

/-- The panics of `kernel/log.c`. -/
inductive Panic where
  | tooBig
  | outsideOfTrans
  | committing
  deriving DecidableEq, Repr

/-- `struct log` and the processes that use it. -/
structure State (P : Type) where
  size : Nat
  /-- Who holds `log.lock`, and in which critical section. -/
  lock : Option (P × Act)
  outstanding : Int
  committing : Bool
  /-- The entries `lh.block[0..n)`. -/
  block : List Nat
  pc : P → Pc

inductive Event (P : Type) where
  | enter (p : P) (a : Act)
  | leave (p : P) (a : Act)
  | clear (p : P)
  | ret (p : P)
  | wake (p : P)
  deriving DecidableEq, Repr

variable {P : Type} [DecidableEq P]

/-- `log.lh.n`. -/
def State.n (s : State P) : Nat := s.block.length

/-- The state after `initlog` on a clean disk with `sb.nlog = nlog`. -/
def State.init (P : Type) (nlog : Nat) : State P :=
  { size := nlog, lock := none, outstanding := 0, committing := false, block := [],
    pc := fun _ => .out }

/-- `nlog` as `mkfs` chooses it. -/
def mkfsNlog : Nat := LOGSIZE

/-- Processes that may take the lock for `a`. -/
def Act.from : Act → Pc → Bool
  | .beginOp, .out => true
  | .beginOp, .woken => true
  | .logWrite _, .inOp => true
  | .endOp, .inOp => true
  | .finish, .finish => true
  | _, _ => false

/-- `wakeup(&log)`. -/
def wakeup (pc : P → Pc) : P → Pc := fun p => if pc p = .sleeping then .woken else pc p

/-- `log.committing`, or this op might exhaust log space. -/
def State.mustWait (s : State P) : Prop :=
  s.committing = true ∨ (s.n : Int) + (s.outstanding + 1) * MAXOPBLOCKS > LOGSIZE

instance (s : State P) : Decidable s.mustWait :=
  inferInstanceAs (Decidable (_ ∨ _))

/-- The loop of `begin_op`, one round. -/
def beginOp (s : State P) (p : P) : Outcome Panic (State P) :=
  if s.mustWait then
    .next { s with lock := none, pc := update s.pc p .sleeping }
  else
    .next { s with lock := none, outstanding := s.outstanding + 1,
                   pc := update s.pc p .inOp }

/-- Record block `b` unless it is there already (log absorption). -/
def record (block : List Nat) (b : Nat) : List Nat := if b ∈ block then block else block ++ [b]

/-- `log_write` of a buffer of block `b`. -/
def logWrite (s : State P) (b : Nat) : Outcome Panic (State P) :=
  if s.n ≥ LOGSIZE ∨ (s.n : Int) ≥ (s.size : Int) - 1 then .panic .tooBig
  else if s.outstanding < 1 then .panic .outsideOfTrans
  else .next { s with lock := none, block := record s.block b }

/-- `end_op` up to its first `release`. -/
def endOp (s : State P) (p : P) : Outcome Panic (State P) :=
  if s.committing then .panic .committing
  else if s.outstanding - 1 = 0 then
    .next { s with lock := none, outstanding := s.outstanding - 1, committing := true,
                   pc := update s.pc p .commit }
  else
    .next { s with lock := none, outstanding := s.outstanding - 1,
                   pc := wakeup (update s.pc p .out) }

/-- `end_op` after `commit`. -/
def finish (s : State P) (p : P) : Outcome Panic (State P) :=
  .next { s with lock := none, committing := false, pc := wakeup (update s.pc p .out) }

def step (s : State P) : Event P → Outcome Panic (State P)
  | .enter p a =>
    Outcome.guard (s.lock = none ∧ a.from (s.pc p)) (.next { s with lock := some (p, a) })
  | .leave p a =>
    Outcome.guard (s.lock = some (p, a)) <|
      match a with
      | .beginOp => beginOp s p
      | .logWrite b => logWrite s b
      | .endOp => endOp s p
      | .finish => finish s p
  | .clear p => Outcome.guard (s.pc p = .commit) (.next { s with block := [] })
  | .ret p =>
    Outcome.guard (s.pc p = .commit ∧ s.block = [])
      (.next { s with pc := update s.pc p .finish })
  | .wake p =>
    Outcome.guard (s.pc p = .sleeping) (.next { s with pc := update s.pc p .woken })

/-! ## What a step can do -/

/-- The steps that go on, each with its guard and its effect. -/
inductive Step (s : State P) : Event P → State P → Prop where
  | enter (p : P) (a : Act) (hl : s.lock = none) (ha : a.from (s.pc p) = true) :
      Step s (.enter p a) { s with lock := some (p, a) }
  | sleep (p : P) (hl : s.lock = some (p, .beginOp)) (hw : s.mustWait) :
      Step s (.leave p .beginOp) { s with lock := none, pc := update s.pc p .sleeping }
  | admitted (p : P) (hl : s.lock = some (p, .beginOp)) (hw : ¬ s.mustWait) :
      Step s (.leave p .beginOp)
        { s with lock := none, outstanding := s.outstanding + 1,
                 pc := update s.pc p .inOp }
  | write (p : P) (b : Nat) (hl : s.lock = some (p, .logWrite b)) (hn : s.n < LOGSIZE)
      (hsize : (s.n : Int) < (s.size : Int) - 1) (ho : 1 ≤ s.outstanding) :
      Step s (.leave p (.logWrite b)) { s with lock := none, block := record s.block b }
  | last (p : P) (hl : s.lock = some (p, .endOp)) (hc : s.committing = false)
      (ho : s.outstanding = 1) :
      Step s (.leave p .endOp)
        { s with lock := none, outstanding := 0, committing := true,
                 pc := update s.pc p .commit }
  | done (p : P) (hl : s.lock = some (p, .endOp)) (hc : s.committing = false)
      (ho : s.outstanding ≠ 1) :
      Step s (.leave p .endOp)
        { s with lock := none, outstanding := s.outstanding - 1,
                 pc := wakeup (update s.pc p .out) }
  | finish (p : P) (hl : s.lock = some (p, .finish)) :
      Step s (.leave p .finish)
        { s with lock := none, committing := false,
                 pc := wakeup (update s.pc p .out) }
  | clear (p : P) (hp : s.pc p = .commit) : Step s (.clear p) { s with block := [] }
  | ret (p : P) (hp : s.pc p = .commit) (hb : s.block = []) :
      Step s (.ret p) { s with pc := update s.pc p .finish }
  | wake (p : P) (hp : s.pc p = .sleeping) :
      Step s (.wake p) { s with pc := update s.pc p .woken }

theorem step_eq_next {s s' : State P} {e : Event P} (h : step s e = .next s') : Step s e s' := by
  cases e with
  | enter p a =>
    simp only [step, Outcome.guard_eq_next, Outcome.next.injEq] at h
    obtain ⟨⟨hl, ha⟩, rfl⟩ := h
    exact .enter p a hl ha
  | leave p a =>
    simp only [step, Outcome.guard_eq_next] at h
    obtain ⟨hl, h⟩ := h
    cases a with
    | beginOp =>
      simp only [beginOp] at h
      split at h
      · next hw => cases h; exact .sleep p hl hw
      · next hw => cases h; exact .admitted p hl hw
    | logWrite b =>
      simp only [logWrite] at h
      split at h
      · cases h
      · next hbig =>
          split at h
          · cases h
          · next hout =>
              cases h
              exact .write p b hl (by omega) (by omega) (by omega)
    | endOp =>
      simp only [endOp] at h
      split at h
      · cases h
      · next hc =>
          simp only [Bool.not_eq_true] at hc
          split at h
          · next ho =>
              cases h
              rw [ho]
              exact .last p hl hc (by omega)
          · next ho =>
              cases h
              exact .done p hl hc (by omega)
    | finish => cases h; exact .finish p hl
  | clear p =>
    simp only [step, Outcome.guard_eq_next, Outcome.next.injEq] at h
    obtain ⟨hp, rfl⟩ := h
    exact .clear p hp
  | ret p =>
    simp only [step, Outcome.guard_eq_next, Outcome.next.injEq] at h
    obtain ⟨⟨hp, hb⟩, rfl⟩ := h
    exact .ret p hp hb
  | wake p =>
    simp only [step, Outcome.guard_eq_next, Outcome.next.injEq] at h
    obtain ⟨hp, rfl⟩ := h
    exact .wake p hp

/-- The ways a step panics. -/
theorem step_panic_cases {s : State P} {e : Event P} {π : Panic} (h : step s e = .panic π) :
    (∃ p b, e = .leave p (.logWrite b) ∧ s.lock = some (p, .logWrite b) ∧ π = .tooBig ∧
      (s.n ≥ LOGSIZE ∨ (s.n : Int) ≥ (s.size : Int) - 1)) ∨
    (∃ p b, e = .leave p (.logWrite b) ∧ s.lock = some (p, .logWrite b) ∧ π = .outsideOfTrans ∧
      s.outstanding < 1) ∨
    (∃ p, e = .leave p .endOp ∧ s.lock = some (p, .endOp) ∧ π = .committing ∧
      s.committing = true) := by
  cases e with
  | leave p a =>
    simp only [step, Outcome.guard_eq_panic] at h
    obtain ⟨hl, h⟩ := h
    cases a with
    | beginOp => simp only [beginOp] at h; split at h <;> cases h
    | logWrite b =>
      simp only [logWrite] at h
      split at h
      · next hbig => cases h; exact Or.inl ⟨p, b, rfl, hl, rfl, hbig⟩
      · split at h
        · next hout => cases h; exact Or.inr (Or.inl ⟨p, b, rfl, hl, rfl, hout⟩)
        · cases h
    | endOp =>
      simp only [endOp] at h
      split at h
      · next hc => cases h; exact Or.inr (Or.inr ⟨p, rfl, hl, rfl, hc⟩)
      · split at h <;> cases h
    | finish => cases h
  | enter | clear | ret | wake => simp [step] at h

end Xv6.Log
