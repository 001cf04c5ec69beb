import Xv6.Ipc.PipeFifo

set_option autoImplicit false

/-! # Sleepers on a pipe are woken

A reader may sleep while the pipe is empty and a writer can still come, a writer while the pipe is
full and a reader can still come. While a process holds the lock and has not come to its `wakeup` yet
this may be broken; when the lock is free it is not, as long as no writer is killed half way
(`spared`). A writer that has put bytes into the pipe and then finds itself killed returns without a
`wakeup`, and leaves the readers asleep (`reader_stranded`). -/

namespace Xv6.Ipc

open Machine Function
open Fs (PIPESIZE)

variable {P : Type} {s s' : State P} {p q : P}

/-- Holds the lock in `pipewrite`. -/
def Pc.inWrite : Pc → Bool
  | .writeLoop _ _ => true
  | .writeCopy _ _ => true
  | _ => false

/-- Holds the lock in the second loop of `piperead`. -/
def Pc.inCopy : Pc → Bool
  | .readCopy _ _ _ => true
  | _ => false

theorem Pc.holds_of_inWrite {c : Pc} (h : c.inWrite = true) : c.holds = true := by
  cases c <;> first | rfl | cases h

theorem Pc.holds_of_inCopy {c : Pc} (h : c.inCopy = true) : c.holds = true := by
  cases c <;> first | rfl | cases h

theorem Pc.wake_ne_readSleep (c : Pc) (n : Int) : c.wakeNread.wakeNwrite ≠ .readSleep n := by
  cases c <;> simp [Pc.wakeNread, Pc.wakeNwrite]

theorem Pc.wake_ne_writeSleep (c : Pc) (n : Int) (i : Nat) :
    c.wakeNread.wakeNwrite ≠ .writeSleep n i := by
  cases c <;> simp [Pc.wakeNread, Pc.wakeNwrite]

theorem Pc.wake_inWrite (c : Pc) : c.wakeNread.wakeNwrite.inWrite = c.inWrite := by
  cases c <;> rfl

theorem Pc.wake_inCopy (c : Pc) : c.wakeNread.wakeNwrite.inCopy = c.inCopy := by
  cases c <;> rfl

def State.Writing (s : State P) : Prop := ∃ q, (s.pc q).inWrite = true

def State.Copying (s : State P) : Prop := ∃ q, (s.pc q).inCopy = true

/-- The process has passed a check of `killed` since it took the lock for `pipewrite`. -/
def State.past (s : State P) (p : P) : Bool :=
  match s.pc p with
  | .writeCopy _ _ => true
  | .writeLoop _ _ => s.stored
  | _ => false

/-- The process is `SLEEPING` on `&pi->nread`. -/
def State.sleepsRead (s : State P) (p : P) : Prop := ∃ n, s.pc p = .readSleep n

/-- The process is `SLEEPING` on `&pi->nwrite`. -/
def State.sleepsWrite (s : State P) (p : P) : Prop := ∃ n i, s.pc p = .writeSleep n i

structure WakeInv (s : State P) : Prop where
  fifo : FifoInv s
  readers : ∀ p, s.sleepsRead p →
    (isEmpty s.pipe ∧ s.pipe.writeopen = true) ∨ (s.stored = true ∧ s.Writing)
  writers : ∀ p, s.sleepsWrite p → (isFull s.pipe ∧ s.pipe.readopen = true) ∨ s.Copying
  past : ∀ p, s.past p = true → s.killed p = false ∧ s.pipe.readopen = true

/-! ## Who holds the lock -/

theorem Excl.eq_of_holds (h : Excl s) (hl : s.lock = some p) (hq : (s.pc q).holds = true) : q = p :=
  Option.some.inj (((h q).1 hq).symm.trans hl)

theorem Excl.not_writing (h : Excl s) (hl : s.lock = some p) (hp : (s.pc p).inWrite = false) :
    ¬ s.Writing := by
  rintro ⟨q, hq⟩
  rw [h.eq_of_holds hl (Pc.holds_of_inWrite hq), hp] at hq
  cases hq

theorem Excl.not_copying (h : Excl s) (hl : s.lock = some p) (hp : (s.pc p).inCopy = false) :
    ¬ s.Copying := by
  rintro ⟨q, hq⟩
  rw [h.eq_of_holds hl (Pc.holds_of_inCopy hq), hp] at hq
  cases hq

theorem Excl.not_writing_free (h : Excl s) (hl : s.lock = none) : ¬ s.Writing := by
  rintro ⟨q, hq⟩
  have := (h q).1 (Pc.holds_of_inWrite hq)
  rw [hl] at this
  cases this

theorem Excl.not_copying_free (h : Excl s) (hl : s.lock = none) : ¬ s.Copying := by
  rintro ⟨q, hq⟩
  have := (h q).1 (Pc.holds_of_inCopy hq)
  rw [hl] at this
  cases this

theorem Excl.lock_of_past (h : Excl s) (hp : s.past p = true) : s.lock = some p := by
  refine (h p).1 (Pc.holds_of_inWrite ?_)
  unfold State.past at hp
  cases hc : s.pc p <;> rw [hc] at hp <;> first | rfl | cases hp

/-! ## Who sleeps -/

theorem WakeInv.empty_of_sleepsRead (h : WakeInv s) (hw : ¬ s.Writing) {r : P}
    (hr : s.sleepsRead r) : isEmpty s.pipe ∧ s.pipe.writeopen = true :=
  (h.readers r hr).resolve_right (fun hst => hw hst.2)

theorem WakeInv.full_of_sleepsWrite (h : WakeInv s) (hc : ¬ s.Copying) {r : P}
    (hr : s.sleepsWrite r) : isFull s.pipe ∧ s.pipe.readopen = true :=
  (h.writers r hr).resolve_right hc

variable [DecidableEq P]

theorem sleepsRead_goto {c : Pc} (hc : ∀ n, c ≠ .readSleep n) (h : (s.goto p c).sleepsRead q) :
    s.sleepsRead q := by
  obtain ⟨n, hn⟩ := h
  by_cases hq : q = p
  · subst hq
    rw [State.goto_pc, update_self] at hn
    exact absurd hn (hc n)
  · rw [State.goto_pc, update_of_ne hq] at hn
    exact ⟨n, hn⟩

theorem sleepsWrite_goto {c : Pc} (hc : ∀ n i, c ≠ .writeSleep n i)
    (h : (s.goto p c).sleepsWrite q) : s.sleepsWrite q := by
  obtain ⟨n, i, hn⟩ := h
  by_cases hq : q = p
  · subst hq
    rw [State.goto_pc, update_self] at hn
    exact absurd hn (hc n i)
  · rw [State.goto_pc, update_of_ne hq] at hn
    exact ⟨n, i, hn⟩

omit [DecidableEq P] in
theorem not_sleepsRead_wakeNread : ¬ (s.wakeNread).sleepsRead q := by
  rintro ⟨n, hn⟩
  rw [State.wakeNread_pc] at hn
  cases hc : s.pc q <;> simp [hc, Pc.wakeNread] at hn

omit [DecidableEq P] in
theorem not_sleepsWrite_wakeNwrite : ¬ (s.wakeNwrite).sleepsWrite q := by
  rintro ⟨n, i, hn⟩
  rw [State.wakeNwrite_pc] at hn
  cases hc : s.pc q <;> simp [hc, Pc.wakeNwrite] at hn

omit [DecidableEq P] in
theorem sleepsWrite_wakeNread (h : (s.wakeNread).sleepsWrite q) : s.sleepsWrite q := by
  obtain ⟨n, i, hn⟩ := h
  rw [State.wakeNread_pc] at hn
  refine ⟨n, i, ?_⟩
  cases hc : s.pc q <;> simp [hc, Pc.wakeNread] at hn ⊢
  exact hn

omit [DecidableEq P] in
theorem sleepsRead_wakeNwrite (h : (s.wakeNwrite).sleepsRead q) : s.sleepsRead q := by
  obtain ⟨n, hn⟩ := h
  rw [State.wakeNwrite_pc] at hn
  refine ⟨n, ?_⟩
  cases hc : s.pc q <;> simp [hc, Pc.wakeNwrite] at hn ⊢
  exact hn

theorem State.Writing.goto {c : Pc} (h : s.Writing) (hc : (s.pc p).inWrite = true → c.inWrite = true) :
    (s.goto p c).Writing := by
  obtain ⟨q, hq⟩ := h
  refine ⟨q, ?_⟩
  by_cases hqp : q = p
  · subst hqp
    rw [State.goto_pc, update_self]
    exact hc hq
  · rwa [State.goto_pc, update_of_ne hqp]

theorem State.Copying.goto {c : Pc} (h : s.Copying) (hc : (s.pc p).inCopy = true → c.inCopy = true) :
    (s.goto p c).Copying := by
  obtain ⟨q, hq⟩ := h
  refine ⟨q, ?_⟩
  by_cases hqp : q = p
  · subst hqp
    rw [State.goto_pc, update_self]
    exact hc hq
  · rwa [State.goto_pc, update_of_ne hqp]

/-! ## Steps -/

/-- `kill` does not hit a process that holds the lock in `pipewrite` and has already passed a check of
    `killed` there. -/
def spared (s : State P) : Event P → Bool
  | .kill p => !s.past p
  | _ => true

theorem WakeInv.readers_step {e : Event P} (h : WakeInv s) (hs : Step s e s') (r : P)
    (hr : s'.sleepsRead r) :
    (isEmpty s'.pipe ∧ s'.pipe.writeopen = true) ∨ (s'.stored = true ∧ s'.Writing) := by
  have hexcl := h.fifo.excl
  cases hs with
  | pipewrite _ _ _ hp | piperead _ _ _ hp =>
    rcases h.readers r (sleepsRead_goto (by simp) hr) with hok | ⟨hst, hw⟩
    · exact Or.inl hok
    · exact Or.inr ⟨hst, hw.goto (by simp [hp, Pc.inWrite])⟩
  | acquireWrite p n i hl hp =>
    exact Or.inl (h.empty_of_sleepsRead (hexcl.not_writing_free hl)
      (sleepsRead_goto (c := .writeLoop n i) (by simp) hr))
  | acquireRead p n hl hp =>
    exact Or.inl (h.empty_of_sleepsRead (hexcl.not_writing_free hl)
      (sleepsRead_goto (c := .readWait n) (by simp) hr))
  | writeQuit p c n i hl hp hq =>
    have hr' : s.sleepsRead r := sleepsRead_goto (c := .ret (-1)) (by simp) hr
    rcases h.readers r hr' with hok | ⟨hst, -⟩
    · exact Or.inl hok
    · -- a byte has been stored, so the process was not killed and the other end open
      have hpast : s.past p = true := by
        rw [State.past, hp]
        exact hst
      obtain ⟨hk, ho⟩ := h.past p hpast
      rw [hk, ho] at hq
      simp at hq
  | writeFull p c n i hl hp ho hf =>
    exact absurd (sleepsRead_goto (c := .writeSleep n i) (by simp) hr) not_sleepsRead_wakeNread
  | writeReady p c n i hl hp ho hk hf =>
    rcases h.readers r (sleepsRead_goto (by simp) hr) with hok | ⟨hst, hw⟩
    · exact Or.inl hok
    · exact Or.inr ⟨hst, hw.goto (fun _ => rfl)⟩
  | writeEnd p c n i hl hp =>
    exact absurd (sleepsRead_goto (c := .ret i) (by simp) hr) not_sleepsRead_wakeNread
  | writeByte p ch n i hl hp =>
    refine Or.inr ⟨rfl, p, ?_⟩
    rw [State.goto_pc, update_self]
    rfl
  | readQuit p c n hl hp =>
    exact Or.inl (h.empty_of_sleepsRead (hexcl.not_writing hl (by rw [hp]; rfl))
      (sleepsRead_goto (c := .ret (-1)) (by simp) hr))
  | readSleep p c n hl hp he ho => exact Or.inl ⟨he, ho⟩
  | readReady p c n hl hp =>
    exact Or.inl (h.empty_of_sleepsRead (hexcl.not_writing hl (by rw [hp]; rfl))
      (sleepsRead_goto (by simp) hr))
  | readByte p c n i out hl hp he =>
    have hr' : s.take.sleepsRead r := sleepsRead_goto (by simp) hr
    exact absurd (h.empty_of_sleepsRead (hexcl.not_writing hl (by rw [hp]; rfl)) hr').1 he
  | readLast p c n i out hl hp he =>
    have hr' : s.sleepsRead r :=
      sleepsRead_wakeNwrite (s := s.take) (sleepsRead_goto (c := .ret i) (by simp) hr)
    exact absurd (h.empty_of_sleepsRead (hexcl.not_writing hl (by rw [hp]; rfl)) hr').1 he
  | readEnd p c n i out hl hp =>
    exact Or.inl (h.empty_of_sleepsRead (hexcl.not_writing hl (by rw [hp]; rfl))
      (sleepsRead_wakeNwrite (sleepsRead_goto (c := .ret i) (by simp) hr)))
  | closeWrite hl => exact absurd hr not_sleepsRead_wakeNread
  | closeRead hl =>
    exact Or.inl (h.empty_of_sleepsRead (hexcl.not_writing_free hl) (sleepsRead_wakeNwrite hr))
  | kill p =>
    have hr' : s.sleepsRead r := sleepsRead_goto (Pc.wake_ne_readSleep (s.pc p)) hr
    rcases h.readers r hr' with hok | ⟨hst, hw⟩
    · exact Or.inl hok
    · exact Or.inr ⟨hst, hw.goto (fun hin => by rw [Pc.wake_inWrite, hin])⟩
  | reuse p r' hp => exact h.readers r hr

theorem WakeInv.writers_step {e : Event P} (h : WakeInv s) (hs : Step s e s') (r : P)
    (hr : s'.sleepsWrite r) : (isFull s'.pipe ∧ s'.pipe.readopen = true) ∨ s'.Copying := by
  have hexcl := h.fifo.excl
  cases hs with
  | pipewrite _ _ _ hp | piperead _ _ _ hp =>
    rcases h.writers r (sleepsWrite_goto (by simp) hr) with hok | hc
    · exact Or.inl hok
    · exact Or.inr (hc.goto (by simp [hp, Pc.inCopy]))
  | acquireWrite p n i hl hp =>
    exact Or.inl (h.full_of_sleepsWrite (hexcl.not_copying_free hl)
      (sleepsWrite_goto (c := .writeLoop n i) (by simp) hr))
  | acquireRead p n hl hp =>
    exact Or.inl (h.full_of_sleepsWrite (hexcl.not_copying_free hl)
      (sleepsWrite_goto (c := .readWait n) (by simp) hr))
  | writeQuit _ c _ _ hl hp | readQuit _ c _ hl hp =>
    exact Or.inl (h.full_of_sleepsWrite (hexcl.not_copying hl (by rw [hp]; rfl))
      (sleepsWrite_goto (c := .ret (-1)) (by simp) hr))
  | writeFull p c n i hl hp ho hf => exact Or.inl ⟨hf, ho⟩
  | writeReady p c n i hl hp ho hk hf =>
    exact Or.inl (h.full_of_sleepsWrite (hexcl.not_copying hl (by rw [hp]; rfl))
      (sleepsWrite_goto (by simp) hr))
  | writeEnd p c n i hl hp =>
    have hcopy : (s.pc p).inCopy = false := by
      rcases hp with hp | hp <;> rw [hp] <;> rfl
    exact Or.inl (h.full_of_sleepsWrite (hexcl.not_copying hl hcopy)
      (sleepsWrite_wakeNread (sleepsWrite_goto (c := .ret i) (by simp) hr)))
  | writeByte p ch n i hl hp =>
    have hr' : (s.put ch).sleepsWrite r := sleepsWrite_goto (by simp) hr
    exact absurd (h.full_of_sleepsWrite (hexcl.not_copying hl (by rw [hp]; rfl)) hr').1
      (h.fifo.room p n i hl hp)
  | readSleep p c n hl hp he ho =>
    exact Or.inl (h.full_of_sleepsWrite (hexcl.not_copying hl (by rw [hp]; rfl))
      (sleepsWrite_goto (c := .readSleep n) (by simp) hr))
  | readReady p | readByte p =>
    refine Or.inr ⟨p, ?_⟩
    rw [State.goto_pc, update_self]
    rfl
  | readLast _ c _ i | readEnd _ c _ i =>
    exact absurd (sleepsWrite_goto (c := .ret i) (by simp) hr) not_sleepsWrite_wakeNwrite
  | closeWrite hl =>
    exact Or.inl (h.full_of_sleepsWrite (hexcl.not_copying_free hl) (sleepsWrite_wakeNread hr))
  | closeRead hl => exact absurd hr not_sleepsWrite_wakeNwrite
  | kill p =>
    have hr' : s.sleepsWrite r := sleepsWrite_goto (Pc.wake_ne_writeSleep (s.pc p)) hr
    rcases h.writers r hr' with hok | hc
    · exact Or.inl hok
    · exact Or.inr (hc.goto (fun hin => by rw [Pc.wake_inCopy, hin]))
  | reuse p r' hp => exact h.writers r hr

theorem past_goto_of_ne {c : Pc} (hq : q ≠ p) : (s.goto p c).past q = s.past q := by
  unfold State.past
  rw [State.goto_pc, update_of_ne hq]
  rfl

theorem past_goto {c : Pc} (hc : c.inWrite = false) : (s.goto p c).past p = false := by
  unfold State.past
  rw [State.goto_pc, update_self]
  cases c <;> first | rfl | cases hc

theorem WakeInv.past_step {e : Event P} (h : WakeInv s) (hspared : spared s e = true)
    (hs : Step s e s') (q : P) (hq : s'.past q = true) :
    s'.killed q = false ∧ s'.pipe.readopen = true := by
  have hl' : s'.lock = some q := (h.fifo.excl.step hs).lock_of_past hq
  -- a process that has left `pipewrite`, or not entered it, has not passed the check
  have hout : ∀ {t : State P} {p : P} {c : Pc}, c.inWrite = false → (t.goto p c).past q = true →
      t.past q = true := by
    intro t p c hc hpast
    by_cases hqp : q = p
    · subst hqp
      rw [past_goto hc] at hpast
      cases hpast
    · rwa [past_goto_of_ne hqp] at hpast
  cases hs with
  | pipewrite | piperead | readReady => exact h.past q (hout rfl hq)
  | acquireWrite | acquireRead =>
    cases hl'
    simp [State.past] at hq
  | writeReady p c n i hl hp ho hk hf =>
    obtain rfl : p = q := Option.some.inj (hl.symm.trans hl')
    exact ⟨hk, ho⟩
  | writeByte p ch n i hl hp =>
    obtain rfl : p = q := Option.some.inj (hl.symm.trans hl')
    exact h.past p (by rw [State.past, hp])
  | readByte p c n i out hl hp he => exact h.past q (hout (t := s.take) rfl hq)
  | closeWrite hl | closeRead hl =>
    rw [show s.lock = some q from hl'] at hl
    cases hl
  | kill p =>
    by_cases hqp : q = p
    · subst hqp
      have hsame : s.past q = true := by
        unfold State.past at hq ⊢
        rw [State.goto_pc, update_self] at hq
        cases hc : s.pc q <;> rw [hc] at hq <;> exact hq
      simp [spared, hsame] at hspared
    · have hpast : s.past q = true := by
        rwa [← past_goto_of_ne (c := (s.pc p).wakeNread.wakeNwrite) hqp]
      obtain ⟨hk, ho⟩ := h.past q hpast
      refine ⟨?_, ho⟩
      rw [← hk]
      exact update_of_ne hqp ..
  | reuse p r hp =>
    have hqp : q ≠ p := by
      rintro rfl
      rw [State.past, show s.pc q = .ret r from hp] at hq
      cases hq
    obtain ⟨hk, ho⟩ := h.past q hq
    refine ⟨?_, ho⟩
    rw [← hk]
    exact update_of_ne hqp ..
  | _ => cases hl'

theorem WakeInv.keep {e : Event P} (h : WakeInv s)
    (hs : restrict spared step s e = .next s') : WakeInv s' := by
  obtain ⟨hspared, hnext⟩ := restrict_eq_next.1 hs
  have hstep := step_eq_next hnext
  exact ⟨h.fifo.keep hnext, h.readers_step hstep, h.writers_step hstep, h.past_step hspared hstep⟩

omit [DecidableEq P] in
theorem WakeInv.init (killed : P → Bool) (data : Nat → UInt8) : WakeInv (State.init P killed data) where
  fifo := FifoInv.init killed data
  readers := by
    rintro p ⟨n, hn⟩
    cases hn
  writers := by
    rintro p ⟨n, i, hn⟩
    cases hn
  past := by
    intro p hp
    cases hp

/-! ## Results -/

/-- No reader sleeps although there is something to read or no writer left, and no writer sleeps
    although there is room or no reader left. -/
def State.NoneStranded (s : State P) : Prop :=
  (∀ p, s.sleepsRead p → ¬ (s.pipe.nread ≠ s.pipe.nwrite ∨ s.pipe.writeopen = false)) ∧
    ∀ p, s.sleepsWrite p →
      ¬ (s.pipe.nwrite ≠ (s.pipe.nread + PIPESIZE) % 2 ^ 32 ∨ s.pipe.readopen = false)

/-- As long as no writer is killed half way, nobody is stranded when the lock is free. -/
theorem no_one_stranded (killed : P → Bool) (data : Nat → UInt8) (es : List (Event P)) (s : State P)
    (hs : run (restrict spared step) (State.init P killed data) es = .next s) (hl : s.lock = none) :
    s.NoneStranded := by
  have h : WakeInv s :=
    run_keeps WakeInv (fun _ _ _ h hstep => h.keep hstep) es (WakeInv.init killed data) hs
  refine ⟨fun p hp => ?_, fun p hp => ?_⟩
  · obtain ⟨he, ho⟩ := h.empty_of_sleepsRead (h.fifo.excl.not_writing_free hl) hp
    rintro (hne | hclosed)
    · exact hne he
    · rw [ho] at hclosed
      cases hclosed
  · obtain ⟨hf, ho⟩ := h.full_of_sleepsWrite (h.fifo.excl.not_copying_free hl) hp
    rintro (hne | hclosed)
    · exact hne hf
    · rw [ho] at hclosed
      cases hclosed

/-- A reader sleeps on the empty pipe; a writer puts a byte into it, and is killed before the next. -/
def killedWriter : List (Event Bool) :=
  [.piperead false 1, .acquire false, .turn false none,
    .pipewrite true 2, .acquire true, .turn true none, .turn true (some 10), .kill true,
    .turn true none]

theorem reader_stranded :
    ∃ s, run step (State.init Bool (fun _ => false) (fun _ => 0)) killedWriter = .next s ∧
      s.lock = none ∧ ¬ s.NoneStranded := by
  have hany : (run step (State.init Bool (fun _ => false) (fun _ => 0)) killedWriter).any
      (fun s => s.lock = none ∧ s.pc false = .readSleep 1 ∧ s.pipe.nread ≠ s.pipe.nwrite) = true := by
    decide +kernel
  obtain ⟨s, hs, hafter⟩ := Outcome.exists_of_any hany
  obtain ⟨hl, hsleep, hne⟩ := of_decide_eq_true hafter
  exact ⟨s, hs, hl, fun hok => hok.1 false ⟨1, hsleep⟩ (Or.inl hne)⟩

/-- The same, but the writer is killed only after it has returned. -/
def sparedWriter : List (Event Bool) :=
  [.piperead false 1, .acquire false, .turn false none,
    .pipewrite true 2, .acquire true, .turn true none, .turn true (some 10), .turn true none,
    .turn true (some 11), .turn true none, .kill true]

theorem no_one_stranded_sparedWriter :
    ∃ s, run (restrict spared step) (State.init Bool (fun _ => false) (fun _ => 0)) sparedWriter =
      .next s ∧ s.lock = none ∧ s.pipe.nread ≠ s.pipe.nwrite ∧ s.NoneStranded := by
  have hany : (run (restrict spared step) (State.init Bool (fun _ => false) (fun _ => 0))
      sparedWriter).any (fun s => s.lock = none ∧ s.pipe.nread ≠ s.pipe.nwrite) = true := by
    decide +kernel
  obtain ⟨s, hs, hafter⟩ := Outcome.exists_of_any hany
  obtain ⟨hl, hne⟩ := of_decide_eq_true hafter
  exact ⟨s, hs, hl, hne, no_one_stranded _ _ sparedWriter s hs hl⟩

end Xv6.Ipc
