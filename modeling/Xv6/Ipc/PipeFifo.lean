import Xv6.Ipc.Pipe
import Xv6.Lib.Fifo

set_option autoImplicit false

/-! # A pipe is a queue

In every reachable state the bytes in the pipe are those that have been put in and not yet been taken
out, in the order in which they were put in (`Queue`). The counters of a pipe are 32 bits long and
wrap; `Fifo` does not mind. What is taken out in one `piperead` is taken out in one piece, because
the lock is held (`Pieces`). -/

namespace Xv6.Ipc

open Machine Function
open Fs (PIPESIZE)

variable {P : Type} {s s' : State P} {p : P} {l : List UInt8}

/-! ## What is in the pipe -/

/-- The bytes `l` are in the pipe. -/
structure Queue (s : State P) (l : List UInt8) : Prop where
  fifo : Fifo PIPESIZE (2 ^ 32) s.pipe.data s.pipe.nread s.pipe.nwrite l
  accepted : s.accepted = s.taken ++ l

theorem PIPESIZE_dvd : PIPESIZE ∣ 2 ^ 32 := by decide

theorem PIPESIZE_lt : PIPESIZE < 2 ^ 32 := by decide

theorem Queue.isFull_iff (h : Queue s l) : isFull s.pipe ↔ l.length = PIPESIZE :=
  h.fifo.full_iff PIPESIZE_lt

theorem Queue.isEmpty_iff (h : Queue s l) : isEmpty s.pipe ↔ l = [] :=
  h.fifo.empty_iff PIPESIZE_lt

theorem Queue.put (h : Queue s l) (hroom : ¬ isFull s.pipe) (ch : UInt8) :
    Queue (s.put ch) (l ++ [ch]) := by
  have hlt : l.length < PIPESIZE :=
    Nat.lt_of_le_of_ne h.fifo.length_le (fun heq => hroom (h.isFull_iff.2 heq))
  refine ⟨h.fifo.push PIPESIZE_dvd hlt ch, ?_⟩
  rw [State.put_accepted, State.put_taken, h.accepted, List.append_assoc]

theorem Queue.take (h : Queue s l) (hne : ¬ isEmpty s.pipe) : Queue s.take l.tail := by
  cases l with
  | nil => exact absurd (h.isEmpty_iff.2 rfl) hne
  | cons x l =>
    refine ⟨h.fifo.pop PIPESIZE_dvd, ?_⟩
    have hfront : front s.pipe = x := h.fifo.head_eq
    rw [State.take_accepted, State.take_taken, h.accepted, hfront, List.append_assoc]
    rfl

theorem Queue.congr (h : Queue s l) (hdata : s'.pipe.data = s.pipe.data)
    (hnread : s'.pipe.nread = s.pipe.nread) (hnwrite : s'.pipe.nwrite = s.pipe.nwrite)
    (haccepted : s'.accepted = s.accepted) (htaken : s'.taken = s.taken) : Queue s' l := by
  refine ⟨?_, ?_⟩
  · rw [hdata, hnread, hnwrite]
    exact h.fifo
  · rw [haccepted, htaken]
    exact h.accepted

/-! ## What a call takes out -/

/-- What the process has taken out in its call. -/
def Pc.out : Pc → List UInt8
  | .readCopy _ _ out => out
  | _ => []

@[simp] theorem Pc.out_wakeNread (c : Pc) : c.wakeNread.out = c.out := by
  cases c <;> rfl

@[simp] theorem Pc.out_wakeNwrite (c : Pc) : c.wakeNwrite.out = c.out := by
  cases c <;> rfl

/-- What the holder of the lock has taken out in its call. -/
def State.pending (s : State P) : List UInt8 :=
  match s.lock with
  | some p => (s.pc p).out
  | none => []

/-- The bytes of the calls that have returned, and of the one that holds the lock. -/
def Pieces (s : State P) : Prop := s.taken = (s.reads.map Prod.snd).flatten ++ s.pending

theorem Pieces.congr (h : Pieces s) (htaken : s'.taken = s.taken) (hreads : s'.reads = s.reads)
    (hpending : s'.pending = s.pending) : Pieces s' := by
  unfold Pieces
  rw [htaken, hreads, hpending]
  exact h

theorem pending_of_none (hl : s.lock = none) : s.pending = [] := by
  rw [State.pending, hl]

theorem pending_of_some (hl : s.lock = some p) : s.pending = (s.pc p).out := by
  rw [State.pending, hl]

theorem pending_congr (hl : s'.lock = s.lock) (hpc : ∀ q, (s'.pc q).out = (s.pc q).out) :
    s'.pending = s.pending := by
  unfold State.pending
  rw [hl]
  cases s.lock with
  | none => rfl
  | some q => exact hpc q

/-- The holder has taken out nothing in its call, before and after the step. -/
theorem Pieces.idle (h : Pieces s) (hl : s.lock = some p) (hout : (s.pc p).out = [])
    (htaken : s'.taken = s.taken) (hreads : s'.reads = s.reads) (hpending : s'.pending = []) :
    Pieces s' := by
  refine h.congr htaken hreads ?_
  rw [hpending, pending_of_some hl, hout]

variable [DecidableEq P]

theorem goto_out {c : Pc} (hc : c.out = (s.pc p).out) (q : P) :
    ((s.goto p c).pc q).out = (s.pc q).out := by
  by_cases hq : q = p
  · subst hq
    rw [State.goto_pc, update_self, hc]
  · rw [State.goto_pc, update_of_ne hq]

theorem pending_goto (s : State P) (c : Pc) (hl : s.lock = some p) :
    (s.goto p c).pending = c.out := by
  rw [pending_of_some (s := s.goto p c) hl, State.goto_pc, update_self]

theorem Pieces.endRead (h : Pieces s) (hl : s.lock = some p) (i : Nat) :
    Pieces (endRead s p i (s.pc p).out) := by
  unfold Pieces at h ⊢
  rw [pending_of_some hl] at h
  have hnone : (Ipc.endRead s p i (s.pc p).out).lock = none := rfl
  rw [pending_of_none hnone, List.append_nil]
  show s.taken = ((s.reads ++ [(p, (s.pc p).out)]).map Prod.snd).flatten
  rw [h]
  simp

theorem Pieces.take (h : Pieces s) (hl : s.lock = some p) (n : Int) (i : Nat) :
    Pieces (s.take.goto p (.readCopy n i ((s.pc p).out ++ [front s.pipe]))) := by
  unfold Pieces at h ⊢
  rw [pending_goto s.take _ hl, State.goto_taken, State.take_taken, h, pending_of_some hl]
  exact List.append_assoc ..

/-! ## The invariant -/

structure FifoInv (s : State P) : Prop where
  excl : Excl s
  queue : ∃ l, Queue s l
  room : ∀ p n i, s.lock = some p → s.pc p = .writeCopy n i → ¬ isFull s.pipe
  pieces : Pieces s

omit [DecidableEq P] in
theorem FifoInv.init (killed : P → Bool) (data : Nat → UInt8) : FifoInv (State.init P killed data) where
  excl := by
    intro p
    simp [State.init, Pc.holds]
  queue := ⟨[], Fifo.nil (by decide) data, rfl⟩
  room := by
    intro p n i hl
    cases hl
  pieces := rfl

theorem FifoInv.queue_step {e : Event P} (h : FifoInv s) (hs : Step s e s') : ∃ l, Queue s' l := by
  obtain ⟨l, hq⟩ := h.queue
  cases hs with
  | writeByte p ch n i hl hp =>
    exact ⟨l ++ [ch], (hq.put (h.room p n i hl hp) ch).congr rfl rfl rfl rfl rfl⟩
  | readByte _ _ _ _ _ _ _ he | readLast _ _ _ _ _ _ _ he =>
    exact ⟨l.tail, (hq.take he).congr rfl rfl rfl rfl rfl⟩
  | _ => exact ⟨l, hq.congr rfl rfl rfl rfl rfl⟩

theorem FifoInv.room_step {e : Event P} (h : FifoInv s) (hs : Step s e s') :
    ∀ p n i, s'.lock = some p → s'.pc p = .writeCopy n i → ¬ isFull s'.pipe := by
  intro q n i hl' hp'
  cases hs with
  | writeReady p c n i hl hp ho hk hf => exact hf
  | kill p =>
    refine h.room q n i hl' ?_
    by_cases hq : q = p
    · subst hq
      rw [State.goto_pc, update_self] at hp'
      cases hc : s.pc q <;> rw [hc] at hp' <;> first | exact hp' | cases hp'
    · rwa [State.goto_pc, update_of_ne hq] at hp'
  | reuse p r hp => exact h.room q n i hl' hp'
  | pipewrite p | piperead p =>
    by_cases hq : q = p
    · subst hq
      simp at hp'
    · rw [State.goto_pc, update_of_ne hq] at hp'
      exact h.room q n i hl' hp'
  | acquireWrite | acquireRead =>
    cases hl'
    simp at hp'
  | writeByte p _ _ _ hl | readReady p _ _ hl | readByte p _ _ _ _ hl =>
    obtain rfl : p = q := Option.some.inj (hl.symm.trans hl')
    simp at hp'
  | closeWrite hl | closeRead hl =>
    rw [show s.lock = some q from hl'] at hl
    cases hl
  | _ => cases hl'

theorem FifoInv.pieces_step {e : Event P} (h : FifoInv s) (hs : Step s e s') : Pieces s' := by
  have hp0 := h.pieces
  cases hs with
  | pipewrite _ _ _ hp | piperead _ _ _ hp =>
    exact hp0.congr rfl rfl (pending_congr rfl (goto_out (by rw [hp]; rfl)))
  | acquireWrite _ _ _ hl | acquireRead _ _ hl =>
    refine hp0.congr rfl rfl ?_
    rw [pending_of_none hl]
    simp [State.pending, Pc.out]
  | readByte p c n i out hl hp he =>
    have := hp0.take hl n (i + 1)
    rwa [hp] at this
  | readLast p c n i out hl hp he =>
    have hlast := (hp0.take hl n i).endRead (p := p) hl i
    rw [hp, State.goto_pc, update_self] at hlast
    exact hlast.congr rfl rfl rfl
  | readEnd p c n i out hl hp =>
    have hend := hp0.endRead hl i
    rwa [hp] at hend
  | kill p => exact hp0.congr rfl rfl (pending_congr rfl (goto_out (by simp)))
  | reuse p r hp => exact hp0.congr rfl rfl rfl
  | closeWrite | closeRead => exact hp0.congr rfl rfl (pending_congr rfl (fun q => by simp))
  | writeQuit _ _ _ _ hl hp | writeFull _ _ _ _ hl hp | readQuit _ _ _ hl hp
    | readSleep _ _ _ hl hp => exact hp0.idle hl (by rw [hp]; rfl) rfl rfl rfl
  | writeReady p c n i hl hp ho hk hf =>
    exact hp0.idle hl (by rw [hp]; rfl) rfl rfl (pending_goto s _ hl)
  | writeEnd p c n i hl hp =>
    refine hp0.idle hl ?_ rfl rfl rfl
    rcases hp with hp | hp <;> rw [hp] <;> rfl
  | writeByte p ch n i hl hp =>
    exact hp0.idle hl (by rw [hp]; rfl) rfl rfl (pending_goto (s.put ch) _ hl)
  | readReady p c n hl hp => exact hp0.idle hl (by rw [hp]; rfl) rfl rfl (pending_goto s _ hl)

theorem FifoInv.keep {e : Event P} (h : FifoInv s) (hs : step s e = .next s') : FifoInv s' := by
  have hstep := step_eq_next hs
  exact ⟨h.excl.step hstep, h.queue_step hstep, h.room_step hstep, h.pieces_step hstep⟩

theorem FifoInv.of_run {killed : P → Bool} {data : Nat → UInt8} (es : List (Event P))
    (hs : run step (State.init P killed data) es = .next s) : FifoInv s :=
  run_keeps FifoInv (fun _ _ _ h hstep => h.keep hstep) es (FifoInv.init killed data) hs

/-! ## Results -/

/-- The number of bytes in the pipe, `(nwrite - nread) mod 2^32`. -/
def count (q : Fs.Pipe) : Nat := (q.nwrite + 2 ^ 32 - q.nread) % 2 ^ 32

/-- `data[nread % PIPESIZE], ..., data[(nwrite - 1) % PIPESIZE]`. -/
def contents (q : Fs.Pipe) : List UInt8 :=
  (List.range (count q)).map fun i => q.data ((q.nread + i) % 2 ^ 32 % PIPESIZE)

omit [DecidableEq P] in
theorem Queue.contents_eq (h : Queue s l) : contents s.pipe = l := by
  have hcount : count s.pipe = l.length := (h.fifo.length_eq PIPESIZE_lt).symm
  refine List.ext_getElem (by simp [contents, hcount]) (fun i hi hi' => ?_)
  simp only [contents, List.getElem_map, List.getElem_range]
  rw [Nat.mod_mod_of_dvd _ PIPESIZE_dvd]
  exact h.fifo.get i hi'

/-- The pipe holds the bytes accepted last, and what is taken out is what was put in: first what the
    calls that have returned took, each in one piece, then what the call in its loop has so far, then
    what is still in the pipe. -/
theorem pipe_is_fifo (killed : P → Bool) (data : Nat → UInt8) (es : List (Event P)) (s : State P)
    (hs : run step (State.init P killed data) es = .next s) :
    count s.pipe ≤ PIPESIZE ∧
      contents s.pipe = s.accepted.drop (s.accepted.length - count s.pipe) ∧
      s.accepted = s.taken ++ contents s.pipe ∧
      s.taken = (s.reads.map Prod.snd).flatten ++ s.pending := by
  have h := FifoInv.of_run es hs
  obtain ⟨l, hq⟩ := h.queue
  have hcount : count s.pipe = l.length := (hq.fifo.length_eq PIPESIZE_lt).symm
  rw [hq.contents_eq]
  refine ⟨hcount ▸ hq.fifo.length_le, ?_, hq.accepted, h.pieces⟩
  rw [hq.accepted, hcount, List.length_append, Nat.add_sub_cancel, List.drop_left]

/-- One process writes three bytes, and another one reads two of them. -/
def threeBytes : List (Event Bool) :=
  [.pipewrite true 3, .acquire true, .turn true none, .turn true (some 10), .turn true none,
    .turn true (some 11), .turn true none, .turn true (some 12), .turn true none,
    .piperead false 2, .acquire false, .turn false none, .turn false (some 0), .turn false (some 0),
    .turn false none]

theorem pipe_is_fifo_threeBytes :
    ∃ s, run step (State.init Bool (fun _ => false) (fun _ => 0)) threeBytes = .next s ∧
      s.reads = [(false, [10, 11])] ∧ s.accepted = s.taken ++ contents s.pipe ∧
      s.taken = (s.reads.map Prod.snd).flatten ++ s.pending := by
  have hany : (run step (State.init Bool (fun _ => false) (fun _ => 0)) threeBytes).any
      (fun s => s.reads = [(false, [10, 11])]) = true := by decide +kernel
  obtain ⟨s, hs, hreads⟩ := Outcome.exists_of_any hany
  exact ⟨s, hs, of_decide_eq_true hreads, (pipe_is_fifo _ _ threeBytes s hs).2.2⟩

end Xv6.Ipc
