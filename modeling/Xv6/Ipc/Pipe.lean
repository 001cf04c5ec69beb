import Xv6.Fs.State
import Xv6.Lib.Machine

set_option autoImplicit false

/-! # Readers and writers of a pipe

`pipewrite`, `piperead` and `pipeclose` of `kernel/pipe.c` as the steps of any number of processes on
one pipe. A process takes `pi->lock` (`Event.acquire`) and then makes one step for every turn of its
loop (`Event.turn`), until it sleeps or returns. `kill` does not take `pi->lock`, so it may come
between any two steps.

`sleep(chan, &pi->lock)` holds the process's own lock from before `pi->lock` is released until the
process sleeps, and `wakeup` takes that lock, so giving up the lock and falling asleep is one step.
The page of the pipe is not freed here: a process in the middle of a call keeps its end open. -/

namespace Xv6.Ipc

open Machine Function
open Fs (PIPESIZE)

/-- Where a process is. `n` is the length it asked for, `i` the number of bytes done. -/
inductive Pc where
  /-- Not in a function of the pipe; the last one returned `r`. -/
  | ret (r : Int)
  /-- About to acquire `pi->lock`, at the start of `pipewrite` or in `sleep`. -/
  | writeAcquire (n : Int) (i : Nat)
  /-- Holds the lock, at the head of the loop. -/
  | writeLoop (n : Int) (i : Nat)
  /-- Holds the lock, about to copy in a byte. -/
  | writeCopy (n : Int) (i : Nat)
  /-- `SLEEPING` on `&pi->nwrite`. -/
  | writeSleep (n : Int) (i : Nat)
  | readAcquire (n : Int)
  /-- Holds the lock, at the head of the first loop. -/
  | readWait (n : Int)
  /-- `SLEEPING` on `&pi->nread`. -/
  | readSleep (n : Int)
  /-- Holds the lock, in the second loop; `out` is what it has taken out of the pipe. -/
  | readCopy (n : Int) (i : Nat) (out : List UInt8)
  deriving DecidableEq, Repr

/-- The pipe and the processes. -/
structure State (P : Type) where
  pipe : Fs.Pipe
  /-- Who holds `pi->lock`. -/
  lock : Option P
  pc : P → Pc
  killed : P → Bool
  /-- The holder of the lock has put a byte into the pipe since it took the lock. -/
  stored : Bool
  /-- The bytes put into the pipe so far. -/
  accepted : List UInt8
  /-- The bytes taken out of it so far. -/
  taken : List UInt8
  /-- What each `piperead` that has returned took out, in the order in which they returned. -/
  reads : List (P × List UInt8)

inductive Event (P : Type) where
  | pipewrite (p : P) (n : Int)
  | piperead (p : P) (n : Int)
  | acquire (p : P)
  /-- A turn of a loop; `c` is what `copyin` reads, or whether `copyout` succeeds. -/
  | turn (p : P) (c : Option UInt8)
  | pipeclose (writable : Bool)
  | kill (p : P)
  /-- The slot of a process that is not in a call is given to a new process. -/
  | reuse (p : P)

variable {P : Type} [DecidableEq P]

/-! ## The pipe -/

/-- `pi->nwrite == pi->nread + PIPESIZE`. -/
def isFull (q : Fs.Pipe) : Prop := q.nwrite = (q.nread + PIPESIZE) % 2 ^ 32

/-- `pi->nread == pi->nwrite`. -/
def isEmpty (q : Fs.Pipe) : Prop := q.nread = q.nwrite

instance (q : Fs.Pipe) : Decidable (isFull q) := inferInstanceAs (Decidable (_ = _))

instance (q : Fs.Pipe) : Decidable (isEmpty q) := inferInstanceAs (Decidable (_ = _))

/-- `pi->data[pi->nwrite++ % PIPESIZE] = ch`. -/
def put (q : Fs.Pipe) (ch : UInt8) : Fs.Pipe :=
  { q with data := update q.data (q.nwrite % PIPESIZE) ch, nwrite := (q.nwrite + 1) % 2 ^ 32 }

/-- `pi->data[pi->nread % PIPESIZE]`. -/
def front (q : Fs.Pipe) : UInt8 := q.data (q.nread % PIPESIZE)

/-- `pi->nread++`. -/
def drop (q : Fs.Pipe) : Fs.Pipe := { q with nread := (q.nread + 1) % 2 ^ 32 }

/-- `pi->writeopen = 0` or `pi->readopen = 0`. -/
def close (q : Fs.Pipe) (writable : Bool) : Fs.Pipe :=
  if writable then { q with writeopen := false } else { q with readopen := false }

/-! ## Processes -/

/-- What `wakeup(&pi->nread)` does to a process. -/
def Pc.wakeNread : Pc → Pc
  | .readSleep n => .readAcquire n
  | c => c

/-- What `wakeup(&pi->nwrite)` does to a process. -/
def Pc.wakeNwrite : Pc → Pc
  | .writeSleep n i => .writeAcquire n i
  | c => c

@[simps -fullyApplied] def State.goto (s : State P) (p : P) (c : Pc) : State P := { s with pc := update s.pc p c }

@[simps -fullyApplied] def State.release (s : State P) : State P := { s with lock := none }

/-- `wakeup(&pi->nread)`. -/
@[simps -fullyApplied] def State.wakeNread (s : State P) : State P := { s with pc := fun q => (s.pc q).wakeNread }

/-- `wakeup(&pi->nwrite)`. -/
@[simps -fullyApplied] def State.wakeNwrite (s : State P) : State P := { s with pc := fun q => (s.pc q).wakeNwrite }

/-- `pi->data[pi->nwrite++ % PIPESIZE] = ch`. -/
@[simps -fullyApplied] def State.put (s : State P) (ch : UInt8) : State P :=
  { s with pipe := Ipc.put s.pipe ch, stored := true, accepted := s.accepted ++ [ch] }

/-- `ch = pi->data[pi->nread++ % PIPESIZE]`. -/
@[simps -fullyApplied] def State.take (s : State P) : State P :=
  { s with pipe := drop s.pipe, taken := s.taken ++ [front s.pipe] }

/-- The end of `pipewrite`. -/
def endWrite (s : State P) (p : P) (i : Nat) : State P := ((s.wakeNread).goto p (.ret i)).release

/-- The end of `piperead`. -/
def endRead (s : State P) (p : P) (i : Nat) (out : List UInt8) : State P :=
  { ((s.wakeNwrite).goto p (.ret i)).release with reads := s.reads ++ [(p, out)] }

/-- A turn of the process that holds the lock. -/
def turn (s : State P) (p : P) (c : Option UInt8) : Outcome Empty (State P) :=
  match s.pc p with
  | .writeLoop n i =>
    if (i : Int) < n then
      if s.pipe.readopen = false ∨ s.killed p = true then .next (s.goto p (.ret (-1))).release
      else if isFull s.pipe then .next ((s.wakeNread).goto p (.writeSleep n i)).release
      else .next (s.goto p (.writeCopy n i))
    else .next (endWrite s p i)
  | .writeCopy n i =>
    match c with
    | none => .next (endWrite s p i)
    | some ch => .next ((s.put ch).goto p (.writeLoop n (i + 1)))
  | .readWait n =>
    if isEmpty s.pipe ∧ s.pipe.writeopen = true then
      if s.killed p = true then .next (s.goto p (.ret (-1))).release
      else .next (s.goto p (.readSleep n)).release
    else .next (s.goto p (.readCopy n 0 []))
  | .readCopy n i out =>
    if (i : Int) < n ∧ ¬ isEmpty s.pipe then
      if c.isSome then .next (s.take.goto p (.readCopy n (i + 1) (out ++ [front s.pipe])))
      else .next (endRead s.take p i (out ++ [front s.pipe]))
    else .next (endRead s p i out)
  | _ => .disabled

def step (s : State P) : Event P → Outcome Empty (State P)
  | .pipewrite p n =>
    match s.pc p with
    | .ret _ => .next (s.goto p (.writeAcquire n 0))
    | _ => .disabled
  | .piperead p n =>
    match s.pc p with
    | .ret _ => .next (s.goto p (.readAcquire n))
    | _ => .disabled
  | .acquire p =>
    Outcome.guard (s.lock = none) <|
      match s.pc p with
      | .writeAcquire n i =>
        .next { s.goto p (.writeLoop n i) with lock := some p, stored := false }
      | .readAcquire n => .next { s.goto p (.readWait n) with lock := some p, stored := false }
      | _ => .disabled
  | .turn p c => Outcome.guard (s.lock = some p) (turn s p c)
  | .pipeclose writable =>
    Outcome.guard (s.lock = none) <|
      if writable then .next { s.wakeNread with pipe := close s.pipe true }
      else .next { s.wakeNwrite with pipe := close s.pipe false }
  | .kill p =>
    .next { s.goto p (s.pc p).wakeNread.wakeNwrite with killed := update s.killed p true }
  | .reuse p =>
    match s.pc p with
    | .ret _ => .next { s with killed := update s.killed p false }
    | _ => .disabled

/-- The pipe as `pipealloc` makes it. -/
def State.init (P : Type) (killed : P → Bool) (data : Nat → UInt8) : State P :=
  { pipe := { data := data, nread := 0, nwrite := 0, readopen := true, writeopen := true },
    lock := none, pc := fun _ => .ret 0, killed := killed, stored := false, accepted := [],
    taken := [], reads := [] }

/-! ## What a step can do -/

inductive Step (s : State P) : Event P → State P → Prop where
  | pipewrite (p : P) (n r : Int) (hp : s.pc p = .ret r) :
      Step s (.pipewrite p n) (s.goto p (.writeAcquire n 0))
  | piperead (p : P) (n r : Int) (hp : s.pc p = .ret r) :
      Step s (.piperead p n) (s.goto p (.readAcquire n))
  | acquireWrite (p : P) (n : Int) (i : Nat) (hl : s.lock = none) (hp : s.pc p = .writeAcquire n i) :
      Step s (.acquire p) { s.goto p (.writeLoop n i) with lock := some p, stored := false }
  | acquireRead (p : P) (n : Int) (hl : s.lock = none) (hp : s.pc p = .readAcquire n) :
      Step s (.acquire p) { s.goto p (.readWait n) with lock := some p, stored := false }
  | writeQuit (p : P) (c : Option UInt8) (n : Int) (i : Nat) (hl : s.lock = some p)
      (hp : s.pc p = .writeLoop n i) (hq : s.pipe.readopen = false ∨ s.killed p = true) :
      Step s (.turn p c) (s.goto p (.ret (-1))).release
  | writeFull (p : P) (c : Option UInt8) (n : Int) (i : Nat) (hl : s.lock = some p)
      (hp : s.pc p = .writeLoop n i) (ho : s.pipe.readopen = true) (hf : isFull s.pipe) :
      Step s (.turn p c) ((s.wakeNread).goto p (.writeSleep n i)).release
  | writeReady (p : P) (c : Option UInt8) (n : Int) (i : Nat) (hl : s.lock = some p)
      (hp : s.pc p = .writeLoop n i) (ho : s.pipe.readopen = true) (hk : s.killed p = false)
      (hf : ¬ isFull s.pipe) :
      Step s (.turn p c) (s.goto p (.writeCopy n i))
  | writeEnd (p : P) (c : Option UInt8) (n : Int) (i : Nat) (hl : s.lock = some p)
      (hp : s.pc p = .writeLoop n i ∨ s.pc p = .writeCopy n i) :
      Step s (.turn p c) (endWrite s p i)
  | writeByte (p : P) (ch : UInt8) (n : Int) (i : Nat) (hl : s.lock = some p)
      (hp : s.pc p = .writeCopy n i) :
      Step s (.turn p (some ch)) ((s.put ch).goto p (.writeLoop n (i + 1)))
  | readQuit (p : P) (c : Option UInt8) (n : Int) (hl : s.lock = some p) (hp : s.pc p = .readWait n) :
      Step s (.turn p c) (s.goto p (.ret (-1))).release
  | readSleep (p : P) (c : Option UInt8) (n : Int) (hl : s.lock = some p) (hp : s.pc p = .readWait n)
      (he : isEmpty s.pipe) (ho : s.pipe.writeopen = true) :
      Step s (.turn p c) (s.goto p (.readSleep n)).release
  | readReady (p : P) (c : Option UInt8) (n : Int) (hl : s.lock = some p)
      (hp : s.pc p = .readWait n) :
      Step s (.turn p c) (s.goto p (.readCopy n 0 []))
  | readByte (p : P) (c : Option UInt8) (n : Int) (i : Nat) (out : List UInt8) (hl : s.lock = some p)
      (hp : s.pc p = .readCopy n i out) (he : ¬ isEmpty s.pipe) :
      Step s (.turn p c) (s.take.goto p (.readCopy n (i + 1) (out ++ [front s.pipe])))
  | readLast (p : P) (c : Option UInt8) (n : Int) (i : Nat) (out : List UInt8) (hl : s.lock = some p)
      (hp : s.pc p = .readCopy n i out) (he : ¬ isEmpty s.pipe) :
      Step s (.turn p c) (endRead s.take p i (out ++ [front s.pipe]))
  | readEnd (p : P) (c : Option UInt8) (n : Int) (i : Nat) (out : List UInt8) (hl : s.lock = some p)
      (hp : s.pc p = .readCopy n i out) :
      Step s (.turn p c) (endRead s p i out)
  | closeWrite (hl : s.lock = none) :
      Step s (.pipeclose true) { s.wakeNread with pipe := close s.pipe true }
  | closeRead (hl : s.lock = none) :
      Step s (.pipeclose false) { s.wakeNwrite with pipe := close s.pipe false }
  | kill (p : P) :
      Step s (.kill p)
        { s.goto p (s.pc p).wakeNread.wakeNwrite with killed := update s.killed p true }
  | reuse (p : P) (r : Int) (hp : s.pc p = .ret r) :
      Step s (.reuse p) { s with killed := update s.killed p false }

theorem turn_eq_next {s s' : State P} {p : P} {c : Option UInt8} (hl : s.lock = some p)
    (h : turn s p c = .next s') : Step s (.turn p c) s' := by
  unfold turn at h
  split at h
  · next n i hp =>
      split at h
      · split at h
        · next hq =>
            cases h
            exact .writeQuit p c n i hl hp hq
        · next hq =>
            rw [not_or, Bool.not_eq_false, Bool.not_eq_true] at hq
            split at h
            · next hf =>
                cases h
                exact .writeFull p c n i hl hp hq.1 hf
            · next hf =>
                cases h
                exact .writeReady p c n i hl hp hq.1 hq.2 hf
      · cases h
        exact .writeEnd p c n i hl (Or.inl hp)
  · next n i hp =>
      split at h
      · cases h
        exact .writeEnd p none n i hl (Or.inr hp)
      · next ch =>
          cases h
          exact .writeByte p ch n i hl hp
  · next n hp =>
      split at h
      · next he =>
          split at h
          · cases h
            exact .readQuit p c n hl hp
          · cases h
            exact .readSleep p c n hl hp he.1 he.2
      · cases h
        exact .readReady p c n hl hp
  · next n i out hp =>
      split at h
      · next he =>
          split at h
          · cases h
            exact .readByte p c n i out hl hp he.2
          · cases h
            exact .readLast p c n i out hl hp he.2
      · cases h
        exact .readEnd p c n i out hl hp
  · cases h

theorem step_eq_next {s s' : State P} {e : Event P} (h : step s e = .next s') : Step s e s' := by
  cases e with
  | pipewrite p n =>
    simp only [step] at h
    split at h
    · next r hp =>
        cases h
        exact .pipewrite p n r hp
    · cases h
  | piperead p n =>
    simp only [step] at h
    split at h
    · next r hp =>
        cases h
        exact .piperead p n r hp
    · cases h
  | acquire p =>
    simp only [step, Outcome.guard_eq_next] at h
    obtain ⟨hl, h⟩ := h
    split at h
    · next n i hp =>
        cases h
        exact .acquireWrite p n i hl hp
    · next n hp =>
        cases h
        exact .acquireRead p n hl hp
    · cases h
  | turn p c =>
    simp only [step, Outcome.guard_eq_next] at h
    exact turn_eq_next h.1 h.2
  | pipeclose writable =>
    simp only [step, Outcome.guard_eq_next] at h
    obtain ⟨hl, h⟩ := h
    cases writable with
    | true =>
      cases h
      exact .closeWrite hl
    | false =>
      cases h
      exact .closeRead hl
  | kill p =>
    cases h
    exact .kill p
  | reuse p =>
    simp only [step] at h
    split at h
    · next r hp =>
        cases h
        exact .reuse p r hp
    · cases h

/-! ## The lock -/

/-- The process holds `pi->lock`. -/
def Pc.holds : Pc → Bool
  | .writeLoop _ _ => true
  | .writeCopy _ _ => true
  | .readWait _ => true
  | .readCopy _ _ _ => true
  | _ => false

@[simp] theorem Pc.holds_wakeNread (c : Pc) : c.wakeNread.holds = c.holds := by
  cases c <;> rfl

@[simp] theorem Pc.holds_wakeNwrite (c : Pc) : c.wakeNwrite.holds = c.holds := by
  cases c <;> rfl

/-- The lock is held by the process that is between `acquire` and `release`. -/
def Excl (s : State P) : Prop := ∀ p, (s.pc p).holds = true ↔ s.lock = some p

variable {s s' : State P} {p : P}

/-- A step that concerns the lock is one of a process that has it or takes it. -/
theorem Excl.move (h : Excl s) (hl : s.lock = none ∨ s.lock = some p)
    (hpc : ∀ q, q ≠ p → (s'.pc q).holds = (s.pc q).holds)
    (hl' : s'.lock = if (s'.pc p).holds then some p else none) : Excl s' := by
  intro q
  by_cases hq : q = p
  · subst hq
    rw [hl']
    cases (s'.pc q).holds <;> simp
  · have hother : ¬ s.lock = some q := by
      rcases hl with hl | hl <;> rw [hl]
      · simp
      · simpa using Ne.symm hq
    rw [hpc q hq, h q, iff_false_left hother, hl']
    split
    · simpa using Ne.symm hq
    · simp

omit [DecidableEq P] in
theorem Excl.congr (h : Excl s) (hl : s'.lock = s.lock)
    (hpc : ∀ q, (s'.pc q).holds = (s.pc q).holds) : Excl s' := by
  intro q
  rw [hpc q, hl]
  exact h q

theorem goto_holds_of_ne (s : State P) (c : Pc) {q : P} (hq : q ≠ p) :
    ((s.goto p c).pc q).holds = (s.pc q).holds := by
  rw [State.goto_pc, update_of_ne hq]

theorem goto_holds {c : Pc} (hc : c.holds = (s.pc p).holds) (q : P) :
    ((s.goto p c).pc q).holds = (s.pc q).holds := by
  by_cases hq : q = p
  · subst hq
    rw [State.goto_pc, update_self, hc]
  · exact goto_holds_of_ne s c hq

theorem Excl.step {e : Event P} (h : Excl s) (hs : Step s e s') : Excl s' := by
  cases hs with
  | pipewrite _ _ _ hp | piperead _ _ _ hp | readReady _ _ _ _ hp =>
    exact h.congr rfl (goto_holds (by rw [hp]; rfl))
  | acquireWrite _ _ _ hl | acquireRead _ _ hl =>
    refine h.move (Or.inl hl) (fun q hq => goto_holds_of_ne s _ hq) ?_
    simp [Pc.holds]
  | writeQuit _ _ _ _ hl _ hq | readQuit _ _ _ hl | readSleep _ _ _ hl =>
    refine h.move (Or.inr hl) (fun q hq => goto_holds_of_ne s _ hq) ?_
    simp [Pc.holds]
  | writeFull p c n i hl hp ho hf =>
    refine h.move (Or.inr hl) (fun q hq => ?_) ?_
    · simp [hq]
    · simp [Pc.holds]
  | writeReady p c n i hl hp ho hk hf =>
    exact h.congr rfl (goto_holds (by rw [hp]; rfl))
  | writeEnd p c n i hl hp =>
    refine h.move (Or.inr hl) (fun q hq => ?_) ?_
    · simp [endWrite, hq]
    · simp [endWrite, Pc.holds]
  | writeByte p ch n i hl hp =>
    exact h.congr rfl (goto_holds (by rw [State.put_pc, hp]; rfl))
  | readByte p c n i out hl hp he =>
    exact h.congr rfl (goto_holds (by rw [State.take_pc, hp]; rfl))
  | readLast _ _ _ _ _ hl | readEnd _ _ _ _ _ hl =>
    refine h.move (Or.inr hl) (fun q hq => ?_) ?_
    · simp [endRead, hq]
    · simp [endRead, Pc.holds]
  | closeWrite | closeRead => exact h.congr rfl (fun q => by simp)
  | kill p => exact h.congr rfl (goto_holds (by simp))
  | reuse p r hp => exact h.congr rfl (fun q => rfl)

end Xv6.Ipc
