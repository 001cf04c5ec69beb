import Mathlib.Logic.Function.Basic
import Mathlib.Tactic.Simps.Basic
import Xv6.Proc.Spinlock

set_option autoImplicit false

/-! # Interrupts and context switches

`push_off`, `pop_off` and the locks of `kernel/spinlock.c` (`Spinlock`), `scheduler`, `sched`, `yield` and
`sleep` of `kernel/proc.c` and `kerneltrap` of `kernel/trap.c`, on any number of CPUs. `noff` and
`intena` are fields of a CPU; a kernel thread may be switched out on one CPU and go on on another.

What a thread, or the scheduler of a CPU, has to do is a list of instructions. A function is the list
of its instructions, with its local variables in them; a call puts the list in front, and so does an
interrupt, which comes whenever interrupts are enabled. At `Instr.idle` the code is free to call any
function, as long as its calls are well bracketed: it pops only what it has pushed, releases only
locks that it holds, calls `yield` with nothing held and `sleep` with its lock only. The fields of a
CPU are touched by no other CPU, so what is done with interrupts off is one instruction as long as it
makes no difference to the rest. -/

namespace Xv6.Sched

open Machine Spinlock
open Function (update)

/-- The spinlocks: `p->lock` of each process, and any others. -/
inductive Lock (T L : Type) where
  | proc (t : T)
  | other (l : L)
  deriving DecidableEq, Repr

/-- What runs on a CPU: the scheduler of the CPU or the kernel thread of a process. -/
inductive Ctx (T H : Type) where
  | scheduler (h : H)
  | thread (t : T)
  deriving DecidableEq, Repr

/-- The process of a thread. -/
def Ctx.owner {T H : Type} : Ctx T H → Option T
  | .scheduler _ => none
  | .thread t => some t

/-- `push_off` calls and locks that code has still to undo. -/
structure Brackets (T L : Type) where
  pushes : Nat
  locks : List (Lock T L)
  deriving DecidableEq, Repr

def Brackets.empty {T L : Type} : Brackets T L := ⟨0, []⟩

/-- Code that may call any function. -/
inductive Kind where
  /-- A system call, or a trap from user space. -/
  | process
  /-- The loop of `scheduler`. -/
  | scheduler
  /-- `devintr` in `kerneltrap`. -/
  | handler
  deriving DecidableEq, Repr

/-- What is done with the result of `myproc()`. -/
inductive Use (T L : Type) where
  | yield
  | sleep (l : Lock T L)
  | sched
  | forkret
  /-- `if(which_dev == 2 && myproc() != 0) yield();` -/
  | timer
  deriving DecidableEq, Repr

inductive Instr (T L : Type) where
  /-- `int old = intr_get();` -/
  | pushOff
  /-- `intr_off();` and the rest of `push_off`. -/
  | intrOff (old : Bool)
  | popOff
  /-- `acquire` after its `push_off`. -/
  | lock (l : Lock T L)
  /-- `release` before its `pop_off`. -/
  | unlock (l : Lock T L)
  /-- `struct proc *p = c->proc;` in `myproc` -/
  | myproc (u : Use T L)
  /-- `p->state = st;` -/
  | setState (t : T) (st : ProcState)
  /-- The four checks of `sched`. -/
  | checks (t : T)
  /-- `intena = mycpu()->intena; swtch(&p->context, &mycpu()->context);` -/
  | swtch
  /-- `mycpu()->intena = intena;` -/
  | restore (intena : Bool)
  /-- `if(p->state == RUNNABLE)` in `scheduler`, up to its `swtch`. -/
  | dispatch (t : T)
  /-- `c->proc = 0;` -/
  | clearProc
  /-- `yield()` is called. -/
  | yield
  /-- `sleep(chan, l)` is called. -/
  | sleep (l : Lock T L)
  /-- `yield` or `sleep` returns; `c` is how the CPU was when it was called. -/
  | returned (c : Intr)
  /-- The end of `kerneltrap`, and `sret`. -/
  | sret
  | idle (k : Kind) (b : Brackets T L)
  deriving DecidableEq, Repr

structure Cpu (T : Type) where
  intr : Intr
  /-- `c->proc`. -/
  proc : Option T
  /-- The thread that runs on the CPU; the scheduler if none. -/
  run : Option T
  deriving DecidableEq, Repr

structure State (T H L : Type) where
  cpu : H → Cpu T
  /-- The CPU that holds a lock, `lk->cpu`. -/
  lock : Lock T L → Option H
  state : T → ProcState
  code : Ctx T H → List (Instr T L)

/-- A call of code that is free to make it. -/
inductive Op (T L : Type) where
  | pushOff
  | popOff
  | acquire (l : Lock T L)
  | release (l : Lock T L)
  | yield
  | sleep (l : Lock T L)
  /-- A turn of the loop of `wakeup`, with `p->lock` held. -/
  | wakeup (t : T)
  | intrOn
  | intrOff
  /-- A turn of the loop of `scheduler`. -/
  | schedule (t : T)
  /-- `devintr` returns. -/
  | done (timer : Bool)
  deriving DecidableEq, Repr

inductive Event (T H L : Type) where
  | call (h : H) (o : Op T L)
  | exec (h : H)
  | interrupt (h : H)

/-! ## Functions as lists of instructions -/

section Code

variable {T L : Type}

def acquire (l : Lock T L) : List (Instr T L) := [.pushOff, .lock l]

def release (l : Lock T L) : List (Instr T L) := [.unlock l, .popOff]

def sched : List (Instr T L) := [.pushOff, .myproc .sched]

/-- `yield` after `myproc` has read `c->proc`. -/
def yieldBody (p : T) : List (Instr T L) :=
  .popOff :: acquire (.proc p) ++ .setState p .runnable :: sched ++ release (.proc p)

/-- `sleep` after `myproc` has read `c->proc`. -/
def sleepBody (l : Lock T L) (p : T) : List (Instr T L) :=
  .popOff :: acquire (.proc p) ++ release l ++ .setState p .sleeping :: sched ++
    release (.proc p) ++ acquire l

/-- What comes after `myproc` has read `c->proc`. -/
def Use.body (p : T) : Use T L → List (Instr T L)
  | .yield => yieldBody p
  | .sleep l => sleepBody l p
  | .sched => [.popOff, .checks p, .swtch]
  | .forkret => .popOff :: release (.proc p)
  | .timer => [.popOff, .yield]

/-- The context that `allocproc` gives to a new process. -/
def forkret : List (Instr T L) := [.pushOff, .myproc .forkret, .idle .process .empty]

end Code

variable {T H L : Type} [DecidableEq T] [DecidableEq H] [DecidableEq L]

/-! ## Instructions -/

def State.ctx (s : State T H L) (h : H) : Ctx T H :=
  match (s.cpu h).run with
  | some t => .thread t
  | none => .scheduler h

@[simps -fullyApplied]
def State.goto (s : State T H L) (x : Ctx T H) (c : List (Instr T L)) : State T H L :=
  { s with code := update s.code x c }

@[simps -fullyApplied]
def State.setIntr (s : State T H L) (h : H) (i : Intr) : State T H L :=
  { s with cpu := update s.cpu h { s.cpu h with intr := i } }

@[simps -fullyApplied]
def State.setLock (s : State T H L) (l : Lock T L) (h : Option H) : State T H L :=
  { s with lock := update s.lock l h }

@[simps -fullyApplied]
def State.setState (s : State T H L) (t : T) (st : ProcState) : State T H L :=
  { s with state := update s.state t st }

/-- `c->proc` and what runs on the CPU. -/
@[simps -fullyApplied]
def State.setCpu (s : State T H L) (h : H) (proc run : Option T) : State T H L :=
  { s with cpu := update s.cpu h ⟨(s.cpu h).intr, proc, run⟩ }

/-- `x`, which runs on `h`, executes an instruction and has `c` left to do. -/
def instr (s : State T H L) (h : H) (x : Ctx T H) (c : List (Instr T L)) :
    Instr T L → Outcome Panic (State T H L)
  | .pushOff => .next (s.goto x (.intrOff (s.cpu h).intr.sie :: c))
  | .intrOff old => .next ((s.setIntr h ((s.cpu h).intr.pushOff old)).goto x c)
  | .popOff => (s.cpu h).intr.popOff.bind fun i => .next ((s.setIntr h i).goto x c)
  | .lock l => (lock (s.lock l) h).bind fun o => .next ((s.setLock l o).goto x c)
  | .unlock l => (unlock (s.lock l) h).bind fun o => .next ((s.setLock l o).goto x c)
  | .myproc u =>
    match (s.cpu h).proc with
    | some p => .next (s.goto x (u.body p ++ c))
    | none => if u = .timer then .next (s.goto x (.popOff :: c)) else .panic .noProc
  | .setState t st => .next ((s.setState t st).goto x c)
  | .checks t =>
    (schedChecks (s.lock (.proc t)) h (s.cpu h).intr (s.state t)).bind fun _ => .next (s.goto x c)
  | .swtch =>
    .next ((s.setCpu h (s.cpu h).proc none).goto x (.restore (s.cpu h).intr.intena :: c))
  | .restore i => .next ((s.setIntr h { (s.cpu h).intr with intena := i }).goto x c)
  | .dispatch t =>
    if s.state t = .runnable then
      .next (((s.setState t .running).setCpu h (some t) (some t)).goto x (.clearProc :: c))
    else .next (s.goto x c)
  | .clearProc => .next ((s.setCpu h none (s.cpu h).run).goto x c)
  | .yield => .next (s.goto x (.pushOff :: .myproc .yield :: .returned (s.cpu h).intr :: c))
  | .sleep l => .next (s.goto x (.pushOff :: .myproc (.sleep l) :: .returned (s.cpu h).intr :: c))
  | .returned _ => .next (s.goto x c)
  | .sret => .next ((s.setIntr h { (s.cpu h).intr with sie := true }).goto x c)
  | .idle _ _ => .disabled

/-! ## Free code -/

/-- The calls that well-bracketed code makes. -/
def allowed (x : Ctx T H) (k : Kind) (b : Brackets T L) : Op T L → Bool
  | .pushOff => k ≠ .scheduler
  | .popOff => 0 < b.pushes
  | .acquire l => k ≠ .scheduler ∧ l ∉ b.locks
  | .release l => l ∈ b.locks
  | .yield => k = .process ∧ b = .empty
  | .sleep l => k = .process ∧ b = ⟨0, [l]⟩ ∧ x.owner.all (fun t => l ≠ .proc t) = true
  | .wakeup t => .proc t ∈ b.locks
  | .intrOn => k ≠ .handler ∧ b = .empty
  | .intrOff => k = .process ∧ b = .empty
  | .schedule _ => k = .scheduler
  | .done _ => k = .handler ∧ b = .empty

/-- `x`, which runs on `h`, makes a call; `c` is what it does after the free code. -/
def State.call (s : State T H L) (h : H) (x : Ctx T H) (k : Kind) (b : Brackets T L)
    (c : List (Instr T L)) : Op T L → State T H L
  | .pushOff => s.goto x (.pushOff :: .idle k { b with pushes := b.pushes + 1 } :: c)
  | .popOff => s.goto x (.popOff :: .idle k { b with pushes := b.pushes - 1 } :: c)
  | .acquire l => s.goto x (acquire l ++ .idle k { b with locks := l :: b.locks } :: c)
  | .release l => s.goto x (release l ++ .idle k { b with locks := b.locks.erase l } :: c)
  | .yield => s.goto x (.yield :: .idle k b :: c)
  | .sleep l => s.goto x (.sleep l :: .idle k b :: c)
  | .wakeup t => if s.state t = .sleeping then s.setState t .runnable else s
  | .intrOn => s.setIntr h { (s.cpu h).intr with sie := true }
  | .intrOff => s.setIntr h { (s.cpu h).intr with sie := false }
  | .schedule t =>
    s.goto x (acquire (.proc t) ++ .dispatch t :: release (.proc t) ++ .idle k b :: c)
  | .done timer => s.goto x (if timer then .pushOff :: .myproc .timer :: .sret :: c else .sret :: c)

def step (s : State T H L) : Event T H L → Outcome Panic (State T H L)
  | .call h o =>
    match s.code (s.ctx h) with
    | .idle k b :: c =>
      Outcome.guard (allowed (s.ctx h) k b o = true) (.next (s.call h (s.ctx h) k b c o))
    | _ => .disabled
  | .exec h =>
    match s.code (s.ctx h) with
    | i :: c => instr s h (s.ctx h) c i
    | [] => .disabled
  | .interrupt h =>
    Outcome.guard ((s.cpu h).intr.sie = true)
      (.next ((s.setIntr h { (s.cpu h).intr with sie := false }).goto (s.ctx h)
        (.idle .handler .empty :: s.code (s.ctx h))))

/-- The schedulers are about to start their loops, and all processes are new. -/
def State.init : State T H L where
  cpu _ := ⟨⟨0, false, false⟩, none, none⟩
  lock _ := none
  state _ := .runnable
  code
    | .scheduler _ => [.idle .scheduler .empty]
    | .thread _ => forkret

end Xv6.Sched
