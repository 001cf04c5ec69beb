import Xv6.Lib.Machine

set_option autoImplicit false

/-! # What a CPU does for a spin-lock

`push_off` and `pop_off` of `kernel/spinlock.c`, `acquire` and `release` between them, and the checks
of `sched` in `kernel/proc.c`, as functions of the fields that they read. The machines of `Sched` and
`SleepLock` are made of them: the first has a step for each instruction, with interrupts in between,
the second a step for each call. -/

namespace Xv6

open Machine

/-- `enum procstate`. -/
inductive ProcState where
  | unused
  | used
  | sleeping
  | runnable
  | running
  | zombie
  deriving DecidableEq, Repr

namespace Spinlock

/-- The interrupt state of a CPU: `noff`, `intena` and the SIE bit of `sstatus`. -/
structure Intr where
  noff : Nat
  intena : Bool
  sie : Bool
  deriving DecidableEq, Repr

inductive Panic where
  | popOffInterruptible
  | popOff
  | acquire
  | release
  | schedLock
  | schedLocks
  | schedRunning
  | schedInterruptible
  /-- `myproc()` is 0 and its lock is used. -/
  | noProc
  deriving DecidableEq, Repr

/-- `int old`, `intr_off()`, and then with interrupts off. -/
def Intr.pushOff (c : Intr) (old : Bool) : Intr :=
  ⟨c.noff + 1, if c.noff = 0 then old else c.intena, false⟩

/-- `pop_off` after its checks. -/
def Intr.popped (c : Intr) : Intr :=
  ⟨c.noff - 1, c.intena, if c.noff - 1 = 0 ∧ c.intena = true then true else c.sie⟩

def Intr.popOff (c : Intr) : Outcome Panic Intr :=
  if c.sie then .panic .popOffInterruptible
  else if c.noff < 1 then .panic .popOff
  else .next c.popped

variable {H : Type} [DecidableEq H]

/-- `acquire` on CPU `h` after its `push_off`; `holder` is `lk->cpu`. -/
def lock (holder : Option H) (h : H) : Outcome Panic (Option H) :=
  match holder with
  | none => .next (some h)
  -- spins until the lock is released
  | some h' => if h' = h then .panic .acquire else .disabled

/-- `release` on CPU `h` before its `pop_off`. -/
def unlock (holder : Option H) (h : H) : Outcome Panic (Option H) :=
  if holder ≠ some h then .panic .release else .next none

/-- The checks of `sched` on CPU `h`, for a process in state `st` whose lock `holder` has. -/
def schedChecks (holder : Option H) (h : H) (i : Intr) (st : ProcState) : Outcome Panic Unit :=
  if holder ≠ some h then .panic .schedLock
  else if i.noff ≠ 1 then .panic .schedLocks
  else if st = .running then .panic .schedRunning
  else if i.sie then .panic .schedInterruptible
  else .next ()

theorem lock_eq_next {holder o : Option H} {h : H} (he : lock holder h = .next o) :
    holder = none ∧ o = some h := by
  unfold lock at he
  split at he
  · cases he
    exact ⟨rfl, rfl⟩
  · split at he <;> cases he

theorem lock_ne_panic {holder : Option H} {h : H} (hne : holder ≠ some h) (m : Panic) :
    lock holder h ≠ .panic m := by
  unfold lock
  split
  · simp
  · rw [if_neg (fun he => hne (congrArg some he))]
    simp

@[simp] theorem unlock_self (h : H) : unlock (some h) h = .next none := if_neg fun hne => hne rfl

theorem unlock_eq_next {holder o : Option H} {h : H} (he : unlock holder h = .next o) : o = none := by
  unfold unlock at he
  split at he <;> cases he
  rfl

theorem schedChecks_eq_next {h : H} {i : Intr} {st : ProcState} (hnoff : i.noff = 1)
    (hst : st ≠ .running) (hsie : i.sie = false) : schedChecks (some h) h i st = .next () := by
  simp [schedChecks, hnoff, hst, hsie]

theorem Intr.popOff_eq_next {c : Intr} (hnoff : 0 < c.noff) (hsie : c.sie = false) :
    c.popOff = .next c.popped := by
  have hlt : ¬ c.noff < 1 := Nat.not_lt.2 hnoff
  simp [Intr.popOff, hsie, hlt]

theorem Intr.eq_popped {c i : Intr} (h : c.popOff = .next i) : i = c.popped := by
  unfold Intr.popOff at h
  split at h
  · cases h
  · split at h <;> cases h
    rfl

/-- Interrupts stay off while a lock is held. -/
theorem Intr.popped_sie {c : Intr} (hsie : c.sie = false) (h : 0 < c.popped.noff) :
    c.popped.sie = false := by
  have hne : c.noff - 1 ≠ 0 := Nat.pos_iff_ne_zero.1 h
  simp [Intr.popped, hne, hsie]

end Spinlock

end Xv6
