import Mathlib.Logic.Function.Basic
import Xv6.Proc.Spinlock

set_option autoImplicit false

/-! # The process table

`fork`, `exit`, `wait`, `kill` and the scheduling of processes, from `kernel/proc.c`, as the steps of
any number of processes. A step is one critical section under `wait_lock` or under a `p->lock`. A
section under a `p->lock` is never interrupted by another one on the same process, so it is one step;
`wait_lock` is held over many of them, so it is part of the state, and `wait` and `exit` go through
the table slot by slot while others run.

`sleep` and the scheduler hold `p->lock` across `swtch`: falling asleep is one step with giving up
`wait_lock`, and coming back is one step with `p->state = RUNNING`. Any process that is `RUNNABLE` may
be started at any time, so the number of CPUs does not matter. A process that holds `wait_lock` has
interrupts off and does not yield.

Memory, files and names of processes are left out: `allocproc` and `copyout` fail or succeed as the
event says. `serial` and `log` are not in the kernel. They number the processes, so that one process
in a slot is not taken for the next one, and write down what happened to them. -/

namespace Xv6.Table

open Machine Function

/-- What a process sleeps on: a process, as in `wait`, or anything else. -/
inductive Chan (P : Type) where
  | proc (p : P)
  | other
  deriving DecidableEq, Repr

/-- What a process is about to do. -/
inductive Pc (P : Type) where
  /-- In none of the functions. -/
  | user
  /-- `allocproc`, in `fork`: the slots still to visit. -/
  | alloc (todo : List P)
  /-- `np->parent = p`, under `wait_lock`; `pid` is what `fork` returns. -/
  | setParent (np : P) (pid : Int32)
  /-- `np->state = RUNNABLE`. -/
  | start (np : P) (pid : Int32)
  /-- `exit`: `acquire(&wait_lock)`. -/
  | exit (status : Int32)
  /-- `reparent`: the slots still to visit. -/
  | reparent (status : Int32) (todo : List P)
  /-- `wakeup(initproc)`, inside `reparent`. -/
  | wakeInit (status : Int32) (todo scan : List P)
  /-- `wakeup(p->parent)`. -/
  | wakeParent (status : Int32) (scan : List P)
  /-- `p->xstate = status`, `p->state = ZOMBIE`. -/
  | zombie (status : Int32)
  /-- After the last `sched`. -/
  | gone
  /-- `wait`: `acquire(&wait_lock)`, at its start and at the end of `sleep`; `addr` says whether there
  is an address for the status. -/
  | wait (addr : Bool)
  /-- The children still to look at. -/
  | waitScan (addr havekids : Bool) (todo : List P)
  /-- `sleep(p, &wait_lock)`. -/
  | waitSleep (addr : Bool)
  /-- Inside `sleep`, in `wait`. -/
  | waitAsleep (addr : Bool)
  /-- Inside `sleep`, on another channel. -/
  | asleep
  /-- `kill`: the slots still to visit. -/
  | kill (pid : Int32) (todo : List P)
  deriving DecidableEq, Repr

/-- What happened to a process. -/
inductive Rec (P : Type) where
  /-- `exit(status)`. -/
  | exited (serial : Nat) (status : Int32)
  /-- `wait` of the process in slot `parent` returned it. -/
  | reaped (serial : Nat) (parent : P) (status : Int32)
  /-- `kill(pid)` found it. -/
  | killed (serial : Nat) (pid : Int32)
  /-- An unhandled trap. -/
  | trapped (serial : Nat)
  deriving DecidableEq, Repr

/-- The fields of `struct proc`, slot by slot, and the locks and counters. -/
structure State (P : Type) where
  state : P → ProcState
  chan : P → Option (Chan P)
  killed : P → Bool
  xstate : P → Int32
  pid : P → Int32
  parent : P → Option P
  /-- `p->trapframe->a0`, the result of the last system call. -/
  a0 : P → Int32
  pc : P → Pc P
  serial : P → Nat
  /-- The process that holds `wait_lock`. -/
  waitLock : Option P
  nextpid : Int32
  nextSerial : Nat
  log : List (Rec P)

inductive Event (P : Type) where
  | fork (p : P)
  | exit (p : P) (status : Int32)
  | wait (p : P) (addr : Bool)
  | kill (p : P) (pid : Int32)
  /-- `setkilled(p)` in `usertrap`. -/
  | trap (p : P)
  /-- `if(killed(p)) exit(-1)` in `usertrap`. -/
  | check (p : P)
  /-- `p` sleeps on another channel. -/
  | sleep (p : P)
  /-- `wakeup` on another channel comes to `p`. -/
  | wake (p : P)
  | yield (p : P)
  /-- The scheduler starts `p`. -/
  | dispatch (p : P)
  /-- The next section of `p`; `ok` says whether an allocation or `copyout` in it succeeds. -/
  | critical (p : P) (ok : Bool)
  deriving DecidableEq, Repr

inductive Panic where
  | initExiting
  deriving DecidableEq, Repr

variable {P : Type} [DecidableEq P]

/-! ## Changes -/

def State.goto (s : State P) (p : P) (k : Pc P) : State P :=
  { s with pc := update s.pc p k }

/-- A system call of `p` returns `v`. -/
def State.ret (s : State P) (p : P) (v : Int32) : State P :=
  { s with pc := update s.pc p .user, a0 := update s.a0 p v }

def State.setState (s : State P) (x : P) (st : ProcState) : State P :=
  { s with state := update s.state x st }

def State.setParent (s : State P) (x : P) (q : Option P) : State P :=
  { s with parent := update s.parent x q }

def State.setChan (s : State P) (x : P) (ch : Option (Chan P)) : State P :=
  { s with chan := update s.chan x ch }

def State.setKilled (s : State P) (x : P) : State P :=
  { s with killed := update s.killed x true }

def State.setXstate (s : State P) (x : P) (status : Int32) : State P :=
  { s with xstate := update s.xstate x status }

def State.record (s : State P) (r : Rec P) : State P := { s with log := s.log ++ [r] }

def State.lock (s : State P) (p : P) : State P := { s with waitLock := some p }

def State.unlock (s : State P) : State P := { s with waitLock := none }

/-- `freeproc`. -/
def State.freeproc (s : State P) (x : P) : State P :=
  { s with
    pid := update s.pid x 0
    parent := update s.parent x none
    chan := update s.chan x none
    killed := update s.killed x false
    xstate := update s.xstate x 0
    state := update s.state x .unused }

/-- `allocproc` in slot `x`, up to the end of the section in `fork`. `p->killed` stays as it is. -/
def State.allocproc (s : State P) (x : P) : State P :=
  { s with
    pid := update s.pid x s.nextpid
    state := update s.state x .used
    a0 := update s.a0 x 0
    pc := update s.pc x .user
    serial := update s.serial x s.nextSerial
    nextpid := s.nextpid + 1
    nextSerial := s.nextSerial + 1 }

/-- `allocproc`, or the copy of the memory after it, fails in slot `x`. -/
def State.allocFail (s : State P) (x : P) : State P :=
  { s.freeproc x with nextpid := s.nextpid + 1 }

/-- The state of slot `x` after `wakeup(chan)`. -/
def State.woken (s : State P) (x : P) (chan : Option (Chan P)) : ProcState :=
  if s.state x = .sleeping ∧ s.chan x = chan then .runnable else s.state x

/-- `wakeup(chan)` at slot `x`. -/
def State.wakeup (s : State P) (x : P) (chan : Option (Chan P)) : State P :=
  s.setState x (s.woken x chan)

/-- `kill` at the slot it looks for. -/
def State.hit (s : State P) (x : P) : State P :=
  (s.setKilled x).setState x (if s.state x = .sleeping then .runnable else s.state x)

/-- Where a process goes on that the scheduler starts. -/
def Pc.resume : Pc P → Pc P
  | .waitAsleep addr => .wait addr
  | .asleep => .user
  | k => k

/-- Inside `sleep`, which ends with `p->chan = 0`. -/
def Pc.inSleep : Pc P → Bool
  | .waitAsleep _ => true
  | .asleep => true
  | _ => false

/-- The scheduler starts `p`. -/
def State.resume (s : State P) (p : P) : State P :=
  { s with
    state := update s.state p .running
    chan := update s.chan p (if (s.pc p).inSleep then none else s.chan p)
    pc := update s.pc p (s.pc p).resume }

/-- The process goes to sleep on `ch`, inside `k`. -/
def State.fall (s : State P) (p : P) (ch : Chan P) (k : Pc P) : State P :=
  ((s.setChan p (some ch)).setState p .sleeping).goto p k

/-- The last section of `exit`. -/
def State.die (s : State P) (p : P) (status : Int32) : State P :=
  (((s.setXstate p status).setState p .zombie).record (.exited (s.serial p) status)).unlock.goto p .gone

/-- `wait` of process `p` returns the child in slot `x`. -/
def State.reap (s : State P) (p x : P) : State P :=
  ((s.freeproc x).record (.reaped (s.serial x) p (s.xstate x))).unlock.ret p (s.pid x)

/-! ## Steps

`procs` is the table in the order of the slots, and `init` is `initproc`. -/

/-- Take `wait_lock` and go on; the process waits while another holds it. -/
def State.withLock (s : State P) (t : State P) : Outcome Panic (State P) :=
  Outcome.guard (s.waitLock = none) (.next t)

/-- `allocproc` of process `p` comes to slot `x`. -/
def allocSlot (s : State P) (p x : P) (todo : List P) (ok : Bool) : State P :=
  if s.state x = .unused then
    if ok then (s.allocproc x).goto p (.setParent x s.nextpid) else (s.allocFail x).ret p (-1)
  else s.goto p (.alloc todo)

/-- `reparent` of process `p` comes to slot `x`. -/
def reparentSlot (procs : List P) (init : P) (s : State P) (p x : P) (status : Int32)
    (todo : List P) : State P :=
  if s.parent x = some p then
    (s.setParent x (some init)).goto p
      (.wakeInit status todo (procs.filter (· ≠ p)))
  else s.goto p (.reparent status todo)

/-- `wakeup(chan)` of process `p` comes to slot `x`; `p` goes on at `k`. -/
def wakeSlot (s : State P) (p x : P) (chan : Option (Chan P)) (k : Pc P) : State P :=
  (s.wakeup x chan).goto p k

/-- `wait` of process `p` comes to slot `x`. -/
def waitSlot (s : State P) (p x : P) (addr havekids : Bool) (todo : List P) (ok : Bool) : State P :=
  if s.parent x = some p then
    if s.state x = .zombie then
      if addr && !ok then s.unlock.ret p (-1)
      else s.reap p x
    else s.goto p (.waitScan addr true todo)
  else s.goto p (.waitScan addr havekids todo)

/-- `wait` of process `p` has been through the table. -/
def waitEnd (s : State P) (p : P) (addr havekids : Bool) : State P :=
  if !havekids || s.killed p then s.unlock.ret p (-1) else s.goto p (.waitSleep addr)

/-- `kill(pid)` of process `p` comes to slot `x`. -/
def killSlot (s : State P) (p x : P) (pid : Int32) (todo : List P) : State P :=
  if s.pid x = pid then
    ((s.hit x).record (.killed (s.serial x) pid)).ret p 0
  else s.goto p (.kill pid todo)

/-- The next section of process `p`. -/
def criticalStep (procs : List P) (init : P) (s : State P) (p : P) (ok : Bool) :
    Outcome Panic (State P) :=
  match s.pc p with
  | .alloc [] => .next (s.ret p (-1))
  | .alloc (x :: todo) => .next (allocSlot s p x todo ok)
  | .setParent np pid =>
    s.withLock ((s.setParent np (some p)).goto p (.start np pid))
  | .start np pid => .next ((s.setState np .runnable).ret p pid)
  | .exit status => s.withLock ((s.lock p).goto p (.reparent status procs))
  | .reparent status [] => .next (s.goto p (.wakeParent status (procs.filter (· ≠ p))))
  | .reparent status (x :: todo) => .next (reparentSlot procs init s p x status todo)
  | .wakeInit status todo [] => .next (s.goto p (.reparent status todo))
  | .wakeInit status todo (x :: scan) =>
    .next (wakeSlot s p x (some (.proc init)) (.wakeInit status todo scan))
  | .wakeParent status [] => .next (s.goto p (.zombie status))
  | .wakeParent status (x :: scan) =>
    .next (wakeSlot s p x ((s.parent p).map .proc) (.wakeParent status scan))
  | .zombie status =>
    .next (s.die p status)
  | .wait addr => s.withLock ((s.lock p).goto p (.waitScan addr false procs))
  | .waitScan addr havekids [] => .next (waitEnd s p addr havekids)
  | .waitScan addr havekids (x :: todo) => .next (waitSlot s p x addr havekids todo ok)
  | .waitSleep addr =>
    .next (s.unlock.fall p (.proc p) (.waitAsleep addr))
  | .kill _ [] => .next (s.ret p (-1))
  | .kill pid (x :: todo) => .next (killSlot s p x pid todo)
  | _ => .disabled

/-- `exit(status)` is called. -/
def exitCall (init : P) (s : State P) (p : P) (status : Int32) : Outcome Panic (State P) :=
  if p = init then .panic .initExiting else .next (s.goto p (.exit status))

/-- A process that runs and is in none of the functions. -/
def State.free (s : State P) (p : P) : Prop :=
  s.state p = .running ∧ s.pc p = .user

instance (s : State P) (p : P) : Decidable (s.free p) := inferInstanceAs (Decidable (_ ∧ _))

def step (procs : List P) (init : P) (s : State P) : Event P → Outcome Panic (State P)
  | .fork p => Outcome.guard (s.free p) (.next (s.goto p (.alloc procs)))
  | .exit p status => Outcome.guard (s.free p) (exitCall init s p status)
  | .wait p addr => Outcome.guard (s.free p) (.next (s.goto p (.wait addr)))
  | .kill p pid => Outcome.guard (s.free p) (.next (s.goto p (.kill pid procs)))
  | .trap p =>
    Outcome.guard (s.free p)
      (.next ((s.setKilled p).record (.trapped (s.serial p))))
  | .check p =>
    Outcome.guard (s.free p ∧ s.killed p = true) (exitCall init s p (-1))
  | .sleep p =>
    Outcome.guard (s.free p) (.next (s.fall p .other .asleep))
  | .wake p => .next (s.wakeup p (some .other))
  | .yield p =>
    Outcome.guard (s.state p = .running ∧ s.waitLock ≠ some p)
      (.next (s.setState p .runnable))
  | .dispatch p =>
    Outcome.guard (s.state p = .runnable) (.next (s.resume p))
  | .critical p ok =>
    Outcome.guard (s.state p = .running) (criticalStep procs init s p ok)

/-- After `userinit`. -/
def State.init (init : P) : State P :=
  { state := update (fun _ => .unused) init .runnable
    chan := fun _ => none
    killed := fun _ => false
    xstate := fun _ => 0
    pid := update (fun _ => 0) init 1
    parent := fun _ => none
    a0 := fun _ => 0
    pc := fun _ => .user
    serial := fun _ => 0
    waitLock := none
    nextpid := 2
    nextSerial := 1
    log := [] }

/-! ## What a step can do -/

/-- Process `p` goes on to `k` and nothing else changes. -/
inductive Quiet (procs : List P) (init : P) (s : State P) (p : P) : Event P → Pc P → Prop
  | fork {e : Event P} (hk : s.pc p = .user) : Quiet procs init s p e (.alloc procs)
  | exit {e : Event P} (status : Int32) (hk : s.pc p = .user) (hne : p ≠ init) :
      Quiet procs init s p e (.exit status)
  | wait {e : Event P} (addr : Bool) (hk : s.pc p = .user) : Quiet procs init s p e (.wait addr)
  | kill (pid : Int32) (hk : s.pc p = .user) : Quiet procs init s p (.kill p pid) (.kill pid procs)
  | allocNext {e : Event P} (x : P) (todo : List P) (hk : s.pc p = .alloc (x :: todo)) :
      Quiet procs init s p e (.alloc todo)
  | reparentNext {e : Event P} (status : Int32) (x : P) (todo : List P)
      (hk : s.pc p = .reparent status (x :: todo)) (hx : s.parent x ≠ some p) :
      Quiet procs init s p e (.reparent status todo)
  | reparentEnd {e : Event P} (status : Int32) (hk : s.pc p = .reparent status []) :
      Quiet procs init s p e (.wakeParent status (procs.filter (· ≠ p)))
  | wakeInitEnd {e : Event P} (status : Int32) (todo : List P) (hk : s.pc p = .wakeInit status todo []) :
      Quiet procs init s p e (.reparent status todo)
  | wakeParentEnd {e : Event P} (status : Int32) (hk : s.pc p = .wakeParent status []) :
      Quiet procs init s p e (.zombie status)
  | waitChild {e : Event P} (addr havekids : Bool) (x : P) (todo : List P)
      (hk : s.pc p = .waitScan addr havekids (x :: todo)) (hx : s.state x ≠ .zombie) :
      Quiet procs init s p e (.waitScan addr true todo)
  | waitNext {e : Event P} (addr havekids : Bool) (x : P) (todo : List P)
      (hk : s.pc p = .waitScan addr havekids (x :: todo)) (hx : s.parent x ≠ some p) :
      Quiet procs init s p e (.waitScan addr havekids todo)
  | waitEnd {e : Event P} (addr havekids : Bool) (hk : s.pc p = .waitScan addr havekids []) :
      Quiet procs init s p e (.waitSleep addr)
  | killNext {e : Event P} (pid : Int32) (x : P) (todo : List P) (hk : s.pc p = .kill pid (x :: todo)) :
      Quiet procs init s p e (.kill pid todo)

inductive Step (procs : List P) (init : P) (s : State P) (e : Event P) : State P → Prop
  | quiet (p : P) (k : Pc P) (hp : s.state p = .running) (hq : Quiet procs init s p e k) :
      Step procs init s e { s with pc := update s.pc p k }
  | fail (p : P) (hp : s.state p = .running)
      (hk : s.pc p = .alloc [] ∨ ∃ pid, s.pc p = .kill pid []) :
      Step procs init s e
        { s with pc := update s.pc p .user, a0 := update s.a0 p (-1) }
  | alloc (p x : P) (todo : List P) (hp : s.state p = .running)
      (hk : s.pc p = .alloc (x :: todo)) (hx : s.state x = .unused) :
      Step procs init s e
        { s with
          pid := update s.pid x s.nextpid
          state := update s.state x .used
          a0 := update s.a0 x 0
          pc := update (update s.pc x .user) p (.setParent x s.nextpid)
          serial := update s.serial x s.nextSerial
          nextpid := s.nextpid + 1
          nextSerial := s.nextSerial + 1 }
  | allocFail (p x : P) (todo : List P) (hp : s.state p = .running)
      (hk : s.pc p = .alloc (x :: todo)) (hx : s.state x = .unused) :
      Step procs init s e
        { s with
          pid := update s.pid x 0
          parent := update s.parent x none
          chan := update s.chan x none
          killed := update s.killed x false
          xstate := update s.xstate x 0
          state := update s.state x .unused
          nextpid := s.nextpid + 1
          pc := update s.pc p .user
          a0 := update s.a0 p (-1) }
  | setParent (p np : P) (pid : Int32) (hp : s.state p = .running)
      (hk : s.pc p = .setParent np pid) (hl : s.waitLock = none) :
      Step procs init s e
        { s with
          parent := update s.parent np (some p)
          pc := update s.pc p (.start np pid) }
  | start (p np : P) (pid : Int32) (hp : s.state p = .running)
      (hk : s.pc p = .start np pid) :
      Step procs init s e
        { s with
          state := update s.state np .runnable
          pc := update s.pc p .user
          a0 := update s.a0 p pid }
  | lockExit (p : P) (status : Int32) (hp : s.state p = .running)
      (hk : s.pc p = .exit status) (hl : s.waitLock = none) :
      Step procs init s e
        { s with waitLock := some p, pc := update s.pc p (.reparent status procs) }
  | adopt (p x : P) (status : Int32) (todo : List P) (hp : s.state p = .running)
      (hk : s.pc p = .reparent status (x :: todo)) (hx : s.parent x = some p) :
      Step procs init s e
        { s with
          parent := update s.parent x (some init)
          pc := update s.pc p (.wakeInit status todo (procs.filter (· ≠ p))) }
  | wakeInit (p x : P) (status : Int32) (todo scan : List P) (hp : s.state p = .running)
      (hk : s.pc p = .wakeInit status todo (x :: scan)) :
      Step procs init s e
        { s with
          state := update s.state x (s.woken x (some (.proc init)))
          pc := update s.pc p (.wakeInit status todo scan) }
  | wakeParent (p x : P) (status : Int32) (scan : List P) (hp : s.state p = .running)
      (hk : s.pc p = .wakeParent status (x :: scan)) :
      Step procs init s e
        { s with
          state := update s.state x (s.woken x ((s.parent p).map .proc))
          pc := update s.pc p (.wakeParent status scan) }
  | zombie (p : P) (status : Int32) (hp : s.state p = .running)
      (hk : s.pc p = .zombie status) :
      Step procs init s e
        { s with
          xstate := update s.xstate p status
          state := update s.state p .zombie
          log := s.log ++ [.exited (s.serial p) status]
          waitLock := none
          pc := update s.pc p .gone }
  | lockWait (p : P) (addr : Bool) (hp : s.state p = .running)
      (hk : s.pc p = .wait addr) (hl : s.waitLock = none) :
      Step procs init s e
        { s with waitLock := some p, pc := update s.pc p (.waitScan addr false procs) }
  | reap (p x : P) (addr havekids : Bool) (todo : List P) (hp : s.state p = .running)
      (hk : s.pc p = .waitScan addr havekids (x :: todo))
      (hx : s.parent x = some p) (hz : s.state x = .zombie) :
      Step procs init s e
        { s with
          pid := update s.pid x 0
          parent := update s.parent x none
          chan := update s.chan x none
          killed := update s.killed x false
          xstate := update s.xstate x 0
          state := update s.state x .unused
          log := s.log ++ [.reaped (s.serial x) p (s.xstate x)]
          waitLock := none
          pc := update s.pc p .user
          a0 := update s.a0 p (s.pid x) }
  | giveUp (p : P) (addr havekids : Bool) (todo : List P) (hp : s.state p = .running)
      (hk : s.pc p = .waitScan addr havekids todo) :
      Step procs init s e
        { s with
          waitLock := none
          pc := update s.pc p .user
          a0 := update s.a0 p (-1) }
  | waitSleep (p : P) (addr : Bool) (hp : s.state p = .running)
      (hk : s.pc p = .waitSleep addr) :
      Step procs init s e
        { s with
          waitLock := none
          chan := update s.chan p (some (.proc p))
          state := update s.state p .sleeping
          pc := update s.pc p (.waitAsleep addr) }
  | kill (p x : P) (pid : Int32) (todo : List P) (hp : s.state p = .running)
      (hk : s.pc p = .kill pid (x :: todo)) (hx : s.pid x = pid) :
      Step procs init s e
        { s with
          killed := update s.killed x true
          state := update s.state x (if s.state x = .sleeping then .runnable else s.state x)
          log := s.log ++ [.killed (s.serial x) pid]
          pc := update s.pc p .user
          a0 := update s.a0 p 0 }
  | trap (p : P) (hp : s.state p = .running) (hk : s.pc p = .user) :
      Step procs init s e
        { s with
          killed := update s.killed p true
          log := s.log ++ [.trapped (s.serial p)] }
  | sleep (p : P) (hp : s.state p = .running) (hk : s.pc p = .user) :
      Step procs init s e
        { s with
          chan := update s.chan p (some .other)
          state := update s.state p .sleeping
          pc := update s.pc p .asleep }
  | wake (p : P) :
      Step procs init s e { s with state := update s.state p (s.woken p (some .other)) }
  | yield (p : P) (hp : s.state p = .running) (hl : s.waitLock ≠ some p) :
      Step procs init s e { s with state := update s.state p .runnable }
  | dispatch (p : P) (hp : s.state p = .runnable) :
      Step procs init s e
        { s with
          state := update s.state p .running
          chan := update s.chan p (if (s.pc p).inSleep then none else s.chan p)
          pc := update s.pc p (s.pc p).resume }

variable {procs : List P} {init : P} {s t : State P} {e : Event P} {p : P}

omit [DecidableEq P] in
theorem withLock_eq_next {u : State P} (h : s.withLock u = .next t) : s.waitLock = none ∧ t = u := by
  obtain ⟨hl, ht⟩ := Outcome.guard_eq_next.1 h
  cases ht
  exact ⟨hl, rfl⟩

theorem exitCall_eq_next {status : Int32} (h : exitCall init s p status = .next t) :
    p ≠ init ∧ t = s.goto p (.exit status) := by
  unfold exitCall at h
  split at h
  · cases h
  · next hne =>
      cases h
      exact ⟨hne, rfl⟩

theorem criticalStep_eq_next {ok : Bool} (hp : s.state p = .running)
    (h : criticalStep procs init s p ok = .next t) : Step procs init s e t := by
  unfold criticalStep at h
  split at h
  · next hk =>
      cases h
      exact .fail p hp (.inl hk)
  · next x todo hk =>
      cases h
      unfold allocSlot
      split
      · next hx =>
          split
          · exact .alloc p x todo hp hk hx
          · exact .allocFail p x todo hp hk hx
      · exact .quiet p _ hp (.allocNext x todo hk)
  · next np pid hk =>
      obtain ⟨hl, rfl⟩ := withLock_eq_next h
      exact .setParent p np pid hp hk hl
  · next np pid hk =>
      cases h
      exact .start p np pid hp hk
  · next status hk =>
      obtain ⟨hl, rfl⟩ := withLock_eq_next h
      exact .lockExit p status hp hk hl
  · next status hk =>
      cases h
      exact .quiet p _ hp (.reparentEnd status hk)
  · next status x todo hk =>
      cases h
      unfold reparentSlot
      split
      · next hx => exact .adopt p x status todo hp hk hx
      · next hx => exact .quiet p _ hp (.reparentNext status x todo hk hx)
  · next status todo hk =>
      cases h
      exact .quiet p _ hp (.wakeInitEnd status todo hk)
  · next status todo x scan hk =>
      cases h
      exact .wakeInit p x status todo scan hp hk
  · next status hk =>
      cases h
      exact .quiet p _ hp (.wakeParentEnd status hk)
  · next status x scan hk =>
      cases h
      exact .wakeParent p x status scan hp hk
  · next status hk =>
      cases h
      exact .zombie p status hp hk
  · next addr hk =>
      obtain ⟨hl, rfl⟩ := withLock_eq_next h
      exact .lockWait p addr hp hk hl
  · next addr havekids hk =>
      cases h
      unfold waitEnd
      split
      · exact .giveUp p addr havekids [] hp hk
      · exact .quiet p _ hp (.waitEnd addr havekids hk)
  · next addr havekids x todo hk =>
      cases h
      unfold waitSlot
      split
      · next hx =>
          split
          · next hz =>
              split
              · exact .giveUp p addr havekids _ hp hk
              · exact .reap p x addr havekids todo hp hk hx hz
          · next hz => exact .quiet p _ hp (.waitChild addr havekids x todo hk hz)
      · next hx => exact .quiet p _ hp (.waitNext addr havekids x todo hk hx)
  · next addr hk =>
      cases h
      exact .waitSleep p addr hp hk
  · next pid hk =>
      cases h
      exact .fail p hp (.inr ⟨pid, hk⟩)
  · next pid x todo hk =>
      cases h
      unfold killSlot
      split
      · next hx => exact .kill p x pid todo hp hk hx
      · exact .quiet p _ hp (.killNext pid x todo hk)
  · cases h

theorem step_eq_next (h : step procs init s e = .next t) : Step procs init s e t := by
  cases e with
  | fork p =>
    obtain ⟨hf, ht⟩ := Outcome.guard_eq_next.1 h
    cases ht
    exact .quiet p _ hf.1 (.fork hf.2)
  | exit p status =>
    obtain ⟨hf, ht⟩ := Outcome.guard_eq_next.1 h
    obtain ⟨hne, rfl⟩ := exitCall_eq_next ht
    exact .quiet p _ hf.1 (.exit status hf.2 hne)
  | wait p addr =>
    obtain ⟨hf, ht⟩ := Outcome.guard_eq_next.1 h
    cases ht
    exact .quiet p _ hf.1 (.wait addr hf.2)
  | kill p pid =>
    obtain ⟨hf, ht⟩ := Outcome.guard_eq_next.1 h
    cases ht
    exact .quiet p _ hf.1 (.kill pid hf.2)
  | trap p =>
    obtain ⟨hf, ht⟩ := Outcome.guard_eq_next.1 h
    cases ht
    exact .trap p hf.1 hf.2
  | check p =>
    obtain ⟨⟨hf, -⟩, ht⟩ := Outcome.guard_eq_next.1 h
    obtain ⟨hne, rfl⟩ := exitCall_eq_next ht
    exact .quiet p _ hf.1 (.exit (-1) hf.2 hne)
  | sleep p =>
    obtain ⟨hf, ht⟩ := Outcome.guard_eq_next.1 h
    cases ht
    exact .sleep p hf.1 hf.2
  | wake p =>
    cases h
    exact .wake p
  | yield p =>
    obtain ⟨⟨hp, hl⟩, ht⟩ := Outcome.guard_eq_next.1 h
    cases ht
    exact .yield p hp hl
  | dispatch p =>
    obtain ⟨hp, ht⟩ := Outcome.guard_eq_next.1 h
    cases ht
    exact .dispatch p hp
  | critical p ok =>
    obtain ⟨hp, ht⟩ := Outcome.guard_eq_next.1 h
    exact criticalStep_eq_next hp ht

end Xv6.Table
