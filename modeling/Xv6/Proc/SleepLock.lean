import Xv6.Lib.Locks
import Xv6.Proc.Spinlock

set_option autoImplicit false

/-! # Sleep-locks, instruction by instruction

`acquiresleep`, `releasesleep` and `holdingsleep` of `kernel/sleeplock.c` on one sleep-lock, with
`sleep`, `wakeup`, `kill`, `yield`, `sched` and `scheduler` of `kernel/proc.c`, as the steps of any
number of CPUs that run any number of processes. Every `acquire`, every `release` and every assignment
between them is a step of its own, with what `push_off` and `pop_off` do to the CPU (`Spinlock`).

What a process does next is the instruction at its place in the code (`Pc.instr`), and where it goes
on is `Pc.next`. A spin-lock is held by a CPU, as `lk->cpu` says: when a process calls `sched` with its
own lock held, `swtch` leaves the lock to the scheduler of the same CPU, which releases it; and the
scheduler acquires the lock of a process and leaves it to the process. `sched` keeps `intena` of the CPU
for the process and gives it to the CPU that takes the process up again. A timer interrupt comes only
while interrupts are on, and makes the process `yield`.

A process calls `acquiresleep` without the sleep-lock and `releasesleep` with it. `p->killed` and the
result of `kill` are left out: nothing here reads them. -/

namespace Xv6.SleepLock

open Machine Spinlock Function

/-- The spin-locks. -/
inductive Lock (P : Type) where
  /-- `lk->lk`, inside the sleep-lock. -/
  | lk
  /-- `p->lock`. -/
  | proc (p : P)
  deriving DecidableEq, Repr

/-- The places without a spin-lock, outside of an interrupt; `own` says whether the process holds the
sleep-lock. -/
inductive Outer (P : Type) where
  /-- In none of the functions. -/
  | user (own : Bool)
  /-- `acquiresleep`: `acquire(&lk->lk)`, at its start and at the end of `sleep`. -/
  | acquiresleep
  /-- `releasesleep`: `acquire(&lk->lk)`. -/
  | releasesleep
  /-- `holdingsleep`: `acquire(&lk->lk)`. -/
  | holdingsleep (own : Bool)
  /-- `kill`: the processes still to visit; `none` is a pid that no process has. -/
  | kill (own : Bool) (target : Option P) (todo : List P)
  deriving DecidableEq, Repr

/-- The parts of `yield`. -/
inductive YieldPc where
  /-- `acquire(&p->lock)`. -/
  | acquire
  /-- `p->state = RUNNABLE`. -/
  | setState
  /-- `sched()`. -/
  | sched
  /-- `release(&p->lock)`. -/
  | release
  deriving DecidableEq, Repr

/-- What a process is about to do. -/
inductive Pc (P : Type) where
  | outer (o : Outer P)
  /-- A timer interrupt came at `o`. -/
  | yield (y : YieldPc) (o : Outer P)
  /-- `forkret`: `release(&p->lock)`. -/
  | forkret
  /-- `sret`, at the end of an interrupt at `o` and of `usertrapret`. -/
  | sret (o : Outer P)
  /-- `while (lk->locked)`. -/
  | test
  /-- `sleep`: `acquire(&p->lock)`. -/
  | sleepAcquire
  /-- `release(lk)`. -/
  | sleepRelease
  /-- `p->chan = chan`. -/
  | setChan
  /-- `p->state = SLEEPING`. -/
  | setSleeping
  /-- `sched()`. -/
  | sleepSched
  /-- `p->chan = 0`. -/
  | clearChan
  /-- `release(&p->lock)`. -/
  | sleepUnlock
  /-- `lk->locked = 1`. -/
  | setLocked
  /-- `lk->pid = myproc()->pid`. -/
  | setPid
  /-- `release(&lk->lk)` at the end of `acquiresleep`. -/
  | acquireEnd
  /-- `lk->locked = 0`. -/
  | clearLocked
  /-- `lk->pid = 0`. -/
  | clearPid
  /-- `wakeup`: the processes still to visit; `release(&lk->lk)` when there are none. -/
  | wakeup (todo : List P)
  /-- `wakeup` holds the lock of `x`, about to look at its state. -/
  | wakeTest (x : P) (todo : List P)
  | wakeUnlock (x : P) (todo : List P)
  /-- `r = lk->locked && (lk->pid == myproc()->pid)`. -/
  | holdTest (own : Bool)
  /-- `release(&lk->lk)` at the end of `holdingsleep`, which returns `r`. -/
  | holdEnd (own r : Bool)
  /-- `kill` holds the lock of `x`, about to compare its pid. -/
  | killTest (own : Bool) (target : Option P) (x : P) (todo : List P)
  | killUnlock (own : Bool) (x : P)
  deriving DecidableEq, Repr

inductive Instr (P : Type) where
  | acquire (l : Lock P)
  | release (l : Lock P)
  /-- `lk->locked = b`. -/
  | setLocked (b : Bool)
  /-- `lk->pid`, of a process or 0. -/
  | setPid (q : Option P)
  /-- `p->chan = lk`, or 0. -/
  | setChan (b : Bool)
  | setState (st : ProcState)
  /-- `if(x->state == SLEEPING && x->chan == lk) x->state = RUNNABLE`. -/
  | wakeIf (x : P)
  /-- `if(x->state == SLEEPING) x->state = RUNNABLE`. -/
  | killIf (x : P)
  | sched
  | sret
  /-- A test, or a loop that is at its end. -/
  | branch
  deriving DecidableEq, Repr

/-- What a CPU is about to do. -/
inductive Ctx (P : Type) where
  /-- `scheduler`, between two processes. -/
  | loop
  /-- It holds the lock of `p`, about to look at its state. -/
  | locked (p : P)
  /-- `p->state = RUNNING` is done, about to `swtch` to `p`. -/
  | switching (p : P)
  /-- It runs `p`. -/
  | running (p : P)
  /-- Back from `p`, about to release its lock. -/
  | back (p : P)
  deriving DecidableEq, Repr

structure State (C P : Type) where
  /-- The CPU that holds a spin-lock. -/
  lock : Lock P → Option C
  intr : C → Intr
  /-- `intena` in the `sched` that a process is in. -/
  saved : P → Option Bool
  /-- `lk->locked`. -/
  locked : Bool
  /-- The process whose pid is `lk->pid`. -/
  pid : Option P
  pstate : P → ProcState
  /-- `p->chan == lk`. -/
  chan : P → Bool
  pc : P → Pc P
  ctx : C → Ctx P

/-- The calls of a process. -/
inductive Call (P : Type) where
  | acquiresleep
  | releasesleep
  | holdingsleep
  | kill (target : Option P)
  deriving DecidableEq, Repr

inductive Event (C P : Type) where
  /-- The scheduler of `c` comes to `p`: `acquire(&p->lock)`. -/
  | pick (c : C) (p : P)
  /-- The next step of the scheduler; `intr_on()` between two processes. -/
  | scheduler (c : C)
  /-- The process on `c` makes a call. -/
  | call (c : C) (f : Call P)
  /-- A timer interrupt. -/
  | timer (c : C)
  /-- The next instruction of the process on `c`. -/
  | instr (c : C)
  deriving DecidableEq, Repr

variable {C P : Type} [DecidableEq C] [DecidableEq P]

/-! ## The code of a process -/

/-- The instruction that process `p` is about to execute; a process in none of the functions is in
its own code. -/
def Pc.instr (p : P) : Pc P → Option (Instr P)
  | .outer (.user _) => none
  | .outer .acquiresleep => some (.acquire .lk)
  | .outer .releasesleep => some (.acquire .lk)
  | .outer (.holdingsleep _) => some (.acquire .lk)
  | .outer (.kill _ _ []) => some .branch
  | .outer (.kill _ _ (x :: _)) => some (.acquire (.proc x))
  | .yield .acquire _ => some (.acquire (.proc p))
  | .yield .setState _ => some (.setState .runnable)
  | .yield .sched _ => some .sched
  | .yield .release _ => some (.release (.proc p))
  | .forkret => some (.release (.proc p))
  | .test => some .branch
  | .sleepAcquire => some (.acquire (.proc p))
  | .sleepRelease => some (.release .lk)
  | .setChan => some (.setChan true)
  | .setSleeping => some (.setState .sleeping)
  | .sleepSched => some .sched
  | .clearChan => some (.setChan false)
  | .sleepUnlock => some (.release (.proc p))
  | .setLocked => some (.setLocked true)
  | .setPid => some (.setPid (some p))
  | .acquireEnd => some (.release .lk)
  | .clearLocked => some (.setLocked false)
  | .clearPid => some (.setPid none)
  | .wakeup [] => some (.release .lk)
  | .wakeup (x :: _) => some (.acquire (.proc x))
  | .wakeTest x _ => some (.wakeIf x)
  | .wakeUnlock x _ => some (.release (.proc x))
  | .holdTest _ => some .branch
  | .holdEnd _ _ => some (.release .lk)
  | .killTest _ target x _ => some (if target = some x then .killIf x else .release (.proc x))
  | .killUnlock _ x => some (.release (.proc x))
  | .sret _ => some .sret

/-- Where process `p` goes on. `procs` is the process table, `locked` is `lk->locked`, and `mine` says
whether `lk->pid` is the pid of `p`. -/
def Pc.next (procs : List P) (p : P) (locked mine : Bool) : Pc P → Pc P
  | .outer (.user own) => .outer (.user own)
  | .outer .acquiresleep => .test
  | .outer .releasesleep => .clearLocked
  | .outer (.holdingsleep own) => .holdTest own
  | .outer (.kill own _ []) => .outer (.user own)
  | .outer (.kill own target (x :: todo)) => .killTest own target x todo
  | .yield .acquire o => .yield .setState o
  | .yield .setState o => .yield .sched o
  | .yield .sched o => .yield .release o
  | .yield .release o => .sret o
  | .forkret => .sret (.user false)
  | .sret o => .outer o
  | .test => if locked then .sleepAcquire else .setLocked
  | .sleepAcquire => .sleepRelease
  | .sleepRelease => .setChan
  | .setChan => .setSleeping
  | .setSleeping => .sleepSched
  | .sleepSched => .clearChan
  | .clearChan => .sleepUnlock
  | .sleepUnlock => .outer .acquiresleep
  | .setLocked => .setPid
  | .setPid => .acquireEnd
  | .acquireEnd => .outer (.user true)
  | .clearLocked => .clearPid
  | .clearPid => .wakeup (procs.filter (· ≠ p))
  | .wakeup [] => .outer (.user false)
  | .wakeup (x :: todo) => .wakeTest x todo
  | .wakeTest x todo => .wakeUnlock x todo
  | .wakeUnlock _ todo => .wakeup todo
  | .holdTest own => .holdEnd own (locked && mine)
  | .holdEnd own _ => .outer (.user own)
  | .killTest own target x todo =>
    if target = some x then .killUnlock own x else .outer (.kill own target todo)
  | .killUnlock own _ => .outer (.user own)

/-- Where a call starts. -/
def Call.start (procs : List P) : Call P → Outer P → Option (Outer P)
  | .acquiresleep, .user false => some .acquiresleep
  | .releasesleep, .user true => some .releasesleep
  | .holdingsleep, .user own => some (.holdingsleep own)
  | .kill target, .user own => some (.kill own target procs)
  | _, _ => none

/-! ## Steps -/

def State.goto (s : State C P) (p : P) (k : Pc P) : State C P :=
  { s with pc := update s.pc p k }

def State.setCtx (s : State C P) (c : C) (x : Ctx P) : State C P :=
  { s with ctx := update s.ctx c x }

def State.setPstate (s : State C P) (x : P) (st : ProcState) : State C P :=
  { s with pstate := update s.pstate x st }

def State.setChan (s : State C P) (x : P) (b : Bool) : State C P :=
  { s with chan := update s.chan x b }

def State.setIntr (s : State C P) (c : C) (i : Intr) : State C P :=
  { s with intr := update s.intr c i }

def State.setLock (s : State C P) (l : Lock P) (o : Option C) : State C P :=
  { s with lock := update s.lock l o }

/-- The spin-lock is taken, with `push_off`. -/
def State.take (s : State C P) (c : C) (l : Lock P) : State C P :=
  (s.setIntr c ((s.intr c).pushOff (s.intr c).sie)).setLock l (some c)

/-- The spin-lock is free again, with `pop_off`. -/
def State.drop (s : State C P) (c : C) (l : Lock P) : State C P :=
  (s.setLock l none).setIntr c (s.intr c).popped

/-- `intena = mycpu()->intena`, and `swtch` to the scheduler. -/
def State.leave (s : State C P) (c : C) (p : P) : State C P :=
  { s.setCtx c (.back p) with saved := update s.saved p (some (s.intr c).intena) }

/-- `swtch` to process `p`, and `mycpu()->intena = intena` if it comes back to `sched`. -/
def State.resume (s : State C P) (c : C) (p : P) : State C P :=
  (s.setIntr c { s.intr c with intena := (s.saved p).getD (s.intr c).intena }).setCtx c (.running p)

/-- `intr_on()` or `intr_off()`. -/
def State.setSie (s : State C P) (c : C) (b : Bool) : State C P :=
  s.setIntr c { s.intr c with sie := b }

/-- `acquire` on CPU `c`; it waits for a lock that another CPU holds. -/
def acquire (s : State C P) (c : C) (l : Lock P) : Outcome Panic (State C P) :=
  (lock (s.lock l) c).bind fun o =>
    .next ((s.setIntr c ((s.intr c).pushOff (s.intr c).sie)).setLock l o)

/-- `release` on CPU `c`. -/
def release (s : State C P) (c : C) (l : Lock P) : Outcome Panic (State C P) :=
  (unlock (s.lock l) c).bind fun o =>
    (s.intr c).popOff.bind fun i => .next ((s.setLock l o).setIntr c i)

/-- `sched` of process `p` on CPU `c`, up to `swtch`. -/
def sched (s : State C P) (c : C) (p : P) : Outcome Panic (State C P) :=
  (schedChecks (s.lock (.proc p)) c (s.intr c) (s.pstate p)).bind fun _ => .next (s.leave c p)

/-- What an instruction of process `p` on CPU `c` does, apart from where `p` goes on. -/
def Instr.exec (s : State C P) (c : C) (p : P) : Instr P → Outcome Panic (State C P)
  | .acquire l => SleepLock.acquire s c l
  | .release l => SleepLock.release s c l
  | .setLocked b => .next { s with locked := b }
  | .setPid q => .next { s with pid := q }
  | .setChan b => .next (s.setChan p b)
  | .setState st => .next (s.setPstate p st)
  | .wakeIf x =>
    if s.pstate x = .sleeping ∧ s.chan x = true then .next (s.setPstate x .runnable) else .next s
  | .killIf x => if s.pstate x = .sleeping then .next (s.setPstate x .runnable) else .next s
  | .sched => SleepLock.sched s c p
  | .sret => .next (s.setSie c true)
  | .branch => .next s

/-- A step of the scheduler of `c`. -/
def scheduler (s : State C P) (c : C) : Outcome Panic (State C P) :=
  match s.ctx c with
  | .loop => .next (s.setSie c true)
  | .locked p =>
    if s.pstate p = .runnable then .next ((s.setPstate p .running).setCtx c (.switching p))
    else (release s c (.proc p)).bind fun t => .next (t.setCtx c .loop)
  | .switching p => .next (s.resume c p)
  | .back p => (release s c (.proc p)).bind fun t => .next (t.setCtx c .loop)
  | .running _ => .disabled

/-- A step of process `p`, that CPU `c` runs. -/
def procStep (procs : List P) (s : State C P) (c : C) (p : P) : Outcome Panic (State C P) :=
  match (s.pc p).instr p with
  | some i =>
    (i.exec s c p).bind fun t =>
      .next (t.goto p ((s.pc p).next procs p s.locked (s.pid = some p)))
  | none => .disabled

/-- Process `p` makes a call. -/
def callStep (procs : List P) (s : State C P) (p : P) (f : Call P) : Outcome Panic (State C P) :=
  match s.pc p with
  | .outer o =>
    match f.start procs o with
    | some o' => .next (s.goto p (.outer o'))
    | none => .disabled
  | _ => .disabled

/-- A timer interrupt in process `p`, on CPU `c`. -/
def timerStep (s : State C P) (c : C) (p : P) : Outcome Panic (State C P) :=
  match s.pc p with
  | .outer o =>
    Outcome.guard ((s.intr c).sie = true) (.next ((s.setSie c false).goto p (.yield .acquire o)))
  | _ => .disabled

/-- The process that CPU `c` runs. -/
def State.myproc (s : State C P) (c : C) : Option P :=
  match s.ctx c with
  | .running p => some p
  | _ => none

def step (procs : List P) (s : State C P) : Event C P → Outcome Panic (State C P)
  | .pick c p =>
    Outcome.guard (s.ctx c = .loop) <|
      (acquire s c (.proc p)).bind fun t => .next (t.setCtx c (.locked p))
  | .scheduler c => scheduler s c
  | .call c f => match s.myproc c with
      | some p => callStep procs s p f
      | none => .disabled
  | .timer c => match s.myproc c with
      | some p => timerStep s c p
      | none => .disabled
  | .instr c => match s.myproc c with
      | some p => procStep procs s c p
      | none => .disabled

/-- The sleep-lock is new, all processes are new, and no CPU runs one. -/
def State.init (C P : Type) : State C P :=
  { lock := fun _ => none, intr := fun _ => ⟨0, false, false⟩, saved := fun _ => none,
    locked := false, pid := none, pstate := fun _ => .runnable, chan := fun _ => false, pc := fun _ => .forkret,
    ctx := fun _ => .loop }

/-! ## What a step can do -/

/-- Where process `p` goes on in state `s`. -/
def State.nextPc (procs : List P) (s : State C P) (p : P) : Pc P :=
  (s.pc p).next procs p s.locked (s.pid = some p)

/-- An instruction that finds nothing to change. -/
def Instr.Idle (s : State C P) : Instr P → Prop
  | .branch => True
  | .wakeIf x => ¬ (s.pstate x = .sleeping ∧ s.chan x = true)
  | .killIf x => s.pstate x ≠ .sleeping
  | _ => False

inductive Step (procs : List P) (s : State C P) : State C P → Prop
  | pick (c : C) (p : P) (hc : s.ctx c = .loop) (hl : s.lock (.proc p) = none) :
      Step procs s ((s.take c (.proc p)).setCtx c (.locked p))
  | choose (c : C) (p : P) (hc : s.ctx c = .locked p) (hp : s.pstate p = .runnable) :
      Step procs s ((s.setPstate p .running).setCtx c (.switching p))
  | leave (c : C) (p : P) (hc : s.ctx c = .locked p ∨ s.ctx c = .back p) :
      Step procs s ((s.drop c (.proc p)).setCtx c .loop)
  | switch (c : C) (p : P) (hc : s.ctx c = .switching p) : Step procs s (s.resume c p)
  | intrOn (c : C) (hc : s.ctx c = .loop) : Step procs s (s.setSie c true)
  | call (c : C) (p : P) (f : Call P) (o o' : Outer P) (hc : s.ctx c = .running p)
      (hpc : s.pc p = .outer o) (ho : f.start procs o = some o') :
      Step procs s (s.goto p (.outer o'))
  | timer (c : C) (p : P) (o : Outer P) (hc : s.ctx c = .running p) (hpc : s.pc p = .outer o)
      (hsie : (s.intr c).sie = true) : Step procs s ((s.setSie c false).goto p (.yield .acquire o))
  | acquire (c : C) (p : P) (l : Lock P) (hc : s.ctx c = .running p)
      (hi : (s.pc p).instr p = some (.acquire l)) (hl : s.lock l = none) :
      Step procs s ((s.take c l).goto p (s.nextPc procs p))
  | release (c : C) (p : P) (l : Lock P) (hc : s.ctx c = .running p)
      (hi : (s.pc p).instr p = some (.release l)) :
      Step procs s ((s.drop c l).goto p (s.nextPc procs p))
  | setLocked (c : C) (p : P) (b : Bool) (hc : s.ctx c = .running p)
      (hi : (s.pc p).instr p = some (.setLocked b)) :
      Step procs s ({ s with locked := b }.goto p (s.nextPc procs p))
  | setPid (c : C) (p : P) (q : Option P) (hc : s.ctx c = .running p)
      (hi : (s.pc p).instr p = some (.setPid q)) :
      Step procs s ({ s with pid := q }.goto p (s.nextPc procs p))
  | setChan (c : C) (p : P) (b : Bool) (hc : s.ctx c = .running p)
      (hi : (s.pc p).instr p = some (.setChan b)) :
      Step procs s ((s.setChan p b).goto p (s.nextPc procs p))
  | setState (c : C) (p : P) (st : ProcState) (hc : s.ctx c = .running p)
      (hi : (s.pc p).instr p = some (.setState st)) :
      Step procs s ((s.setPstate p st).goto p (s.nextPc procs p))
  | wake (c : C) (p x : P) (hc : s.ctx c = .running p)
      (hi : (s.pc p).instr p = some (.wakeIf x) ∨ (s.pc p).instr p = some (.killIf x))
      (hx : s.pstate x = .sleeping) :
      Step procs s ((s.setPstate x .runnable).goto p (s.nextPc procs p))
  | idle (c : C) (p : P) (i : Instr P) (hc : s.ctx c = .running p)
      (hi : (s.pc p).instr p = some i) (hidle : i.Idle s) : Step procs s (s.goto p (s.nextPc procs p))
  | sched (c : C) (p : P) (hc : s.ctx c = .running p) (hi : (s.pc p).instr p = some .sched) :
      Step procs s ((s.leave c p).goto p (s.nextPc procs p))
  | sret (c : C) (p : P) (hc : s.ctx c = .running p) (hi : (s.pc p).instr p = some .sret) :
      Step procs s ((s.setSie c true).goto p (s.nextPc procs p))

variable {s t : State C P} {c : C} {procs : List P} {p : P} {l : Lock P}

theorem acquire_eq_next (h : acquire s c l = .next t) :
    s.lock l = none ∧ t = s.take c l := by
  obtain ⟨o, hlock, ht⟩ := Outcome.bind_eq_next.1 h
  obtain ⟨hfree, rfl⟩ := lock_eq_next hlock
  cases ht
  exact ⟨hfree, rfl⟩

theorem release_eq_next (h : release s c l = .next t) :
    t = s.drop c l := by
  obtain ⟨o, hlock, h⟩ := Outcome.bind_eq_next.1 h
  obtain ⟨i, hpop, ht⟩ := Outcome.bind_eq_next.1 h
  cases ht
  rw [unlock_eq_next hlock, Intr.eq_popped hpop]
  rfl

theorem sched_eq_next (h : sched s c p = .next t) :
    t = s.leave c p := by
  obtain ⟨u, -, ht⟩ := Outcome.bind_eq_next.1 h
  cases ht
  rfl

omit [DecidableEq C] [DecidableEq P] in
theorem ctx_of_myproc (h : s.myproc c = some p) :
    s.ctx c = .running p := by
  unfold State.myproc at h
  split at h
  · next q hq =>
      cases h
      exact hq
  · cases h

theorem scheduler_eq_next (h : scheduler s c = .next t) : Step procs s t := by
  unfold scheduler at h
  split at h
  · next hc =>
      cases h
      exact .intrOn c hc
  · next p hc =>
      split at h
      · next hp =>
          cases h
          exact .choose c p hc hp
      · obtain ⟨t', hrel, ht⟩ := Outcome.bind_eq_next.1 h
        cases ht
        rw [release_eq_next hrel]
        exact .leave c p (.inl hc)
  · next p hc =>
      cases h
      exact .switch c p hc
  · next p hc =>
      obtain ⟨t', hrel, ht⟩ := Outcome.bind_eq_next.1 h
      cases ht
      rw [release_eq_next hrel]
      exact .leave c p (.inr hc)
  · cases h

theorem procStep_eq_next (hc : s.ctx c = .running p) (h : procStep procs s c p = .next t) :
    Step procs s t := by
  unfold procStep at h
  split at h
  · next i hi =>
      obtain ⟨t', hexec, ht⟩ := Outcome.bind_eq_next.1 h
      cases ht
      cases i with
      | acquire l =>
        obtain ⟨hl, rfl⟩ := acquire_eq_next hexec
        exact .acquire c p l hc hi hl
      | release l =>
        rw [release_eq_next hexec]
        exact .release c p l hc hi
      | setLocked b =>
        cases hexec
        exact .setLocked c p b hc hi
      | setPid q =>
        cases hexec
        exact .setPid c p q hc hi
      | setChan b =>
        cases hexec
        exact .setChan c p b hc hi
      | setState st =>
        cases hexec
        exact .setState c p st hc hi
      | wakeIf x =>
        simp only [Instr.exec] at hexec
        split at hexec
        · next hx =>
            cases hexec
            exact .wake c p x hc (.inl hi) hx.1
        · next hx =>
            cases hexec
            exact .idle c p _ hc hi hx
      | killIf x =>
        simp only [Instr.exec] at hexec
        split at hexec
        · next hx =>
            cases hexec
            exact .wake c p x hc (.inr hi) hx
        · next hx =>
            cases hexec
            exact .idle c p _ hc hi hx
      | sched =>
        rw [sched_eq_next hexec]
        exact .sched c p hc hi
      | sret =>
        cases hexec
        exact .sret c p hc hi
      | branch =>
        cases hexec
        exact .idle c p _ hc hi trivial
  · cases h

theorem step_eq_next {e : Event C P} (h : step procs s e = .next t) : Step procs s t := by
  cases e with
  | pick c p =>
    obtain ⟨hc, h⟩ := Outcome.guard_eq_next.1 h
    obtain ⟨t', hacq, ht⟩ := Outcome.bind_eq_next.1 h
    cases ht
    obtain ⟨hl, rfl⟩ := acquire_eq_next hacq
    exact .pick c p hc hl
  | scheduler c => exact scheduler_eq_next h
  | call c f =>
    simp only [step] at h
    split at h
    · next p hp =>
        unfold callStep at h
        split at h
        · next o hpc =>
            split at h
            · next o' ho =>
                cases h
                exact .call c p f o o' (ctx_of_myproc hp) hpc ho
            · cases h
        · cases h
    · cases h
  | timer c =>
    simp only [step] at h
    split at h
    · next p hp =>
        unfold timerStep at h
        split at h
        · next o hpc =>
            obtain ⟨hsie, ht⟩ := Outcome.guard_eq_next.1 h
            cases ht
            exact .timer c p o (ctx_of_myproc hp) hpc hsie
        · cases h
    · cases h
  | instr c =>
    simp only [step] at h
    split at h
    · next p hp => exact procStep_eq_next (ctx_of_myproc hp) h
    · cases h

end Xv6.SleepLock
