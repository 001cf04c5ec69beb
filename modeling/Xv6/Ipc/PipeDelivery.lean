import Mathlib.Algebra.Ring.Nat
import Xv6.Ipc.PipeFifo

set_option autoImplicit false

/-! # What readers of a pipe get

`piperead` takes a byte out of the pipe before `copyout` has put it into the reader's memory, and
counts it after that. A run is watched for the bytes that have been copied to the memory of readers and
for the results of `piperead`. As long as no `copyout` fails, nothing is lost (`pipe_loses_nothing`);
when one fails, a byte is (`copyout_loses_byte`). -/

namespace Xv6.Ipc

open Machine Function

variable {P : Type}

/-- The pipe with its readers and writers, and what the readers have got. -/
structure Watched (P : Type) where
  pipe : State P
  /-- The bytes copied to the memory of readers and counted, in that order. -/
  delivered : List UInt8
  /-- The results of the calls of `piperead` that came to the end. -/
  returned : List Nat

variable [DecidableEq P]

/-- There is a byte to take out. -/
def mayTake (s : State P) (n : Int) (i : Nat) : Prop := (i : Int) < n ∧ ¬ isEmpty s.pipe

omit [DecidableEq P] in
instance (s : State P) (n : Int) (i : Nat) : Decidable (mayTake s n i) := inferInstanceAs (Decidable (_ ∧ _))

/-- What a turn of `p` copies to its memory. -/
def Pc.copied (s : State P) (c : Option UInt8) : Pc → List UInt8
  | .readCopy n i _ => if mayTake s n i ∧ c.isSome then [front s.pipe] else []
  | _ => []

/-- What a turn of `p` returns from `piperead`. -/
def Pc.returns (s : State P) (c : Option UInt8) : Pc → List Nat
  | .readCopy n i _ => if mayTake s n i ∧ c.isSome then [] else [i]
  | _ => []

/-- The turn of `p` takes a byte out of the pipe and `copyout` fails. -/
def Pc.loses (s : State P) (c : Option UInt8) : Pc → Bool
  | .readCopy n i _ => decide (mayTake s n i) && c.isNone
  | _ => false

def copied (s : State P) : Event P → List UInt8
  | .turn p c => (s.pc p).copied s c
  | _ => []

def returns (s : State P) : Event P → List Nat
  | .turn p c => (s.pc p).returns s c
  | _ => []

/-- No `copyout` fails. -/
def copyoutOk (w : Watched P) : Event P → Bool
  | .turn p c => !(w.pipe.pc p).loses w.pipe c
  | _ => true

def watch (w : Watched P) (e : Event P) : Outcome Empty (Watched P) :=
  (step w.pipe e).map id fun s' => ⟨s', w.delivered ++ copied w.pipe e, w.returned ++ returns w.pipe e⟩

def Watched.init (P : Type) (killed : P → Bool) (data : Nat → UInt8) : Watched P :=
  ⟨State.init P killed data, [], []⟩

/-- What the process has counted in its call of `piperead`. -/
def Pc.progress : Pc → Nat
  | .readCopy _ i _ => i
  | _ => 0

/-- What the holder of the lock has counted in its call. -/
def State.progress (s : State P) : Nat :=
  match s.lock with
  | some p => (s.pc p).progress
  | none => 0

variable {s s' : State P} {p : P} {c : Option UInt8} {e : Event P}

omit [DecidableEq P] in
theorem progress_of_none (hl : s.lock = none) : s.progress = 0 := by
  rw [State.progress, hl]

omit [DecidableEq P] in
theorem progress_of_some (hl : s.lock = some p) : s.progress = (s.pc p).progress := by
  rw [State.progress, hl]

/-- A turn in the second loop of `piperead`. -/
theorem turn_read {n : Int} {i : Nat} {out : List UInt8} (hl : s.lock = some p) (hp : s.pc p = .readCopy n i out)
    (h : turn s p c = .next s') :
    (s'.taken = if mayTake s n i then s.taken ++ [front s.pipe] else s.taken) ∧
      s'.progress = if mayTake s n i ∧ c.isSome then i + 1 else 0 := by
  rw [turn, hp] at h
  change (if mayTake s n i then _ else _) = _ at h
  by_cases hm : mayTake s n i
  · rw [if_pos hm] at h
    rw [if_pos hm]
    by_cases hc : c.isSome = true
    · rw [if_pos hc] at h
      cases h
      have hl' : (s.take.goto p (.readCopy n (i + 1) (out ++ [front s.pipe]))).lock = some p := hl
      rw [if_pos ⟨hm, hc⟩, progress_of_some hl', State.goto_pc, update_self]
      exact ⟨rfl, rfl⟩
    · rw [if_neg hc] at h
      cases h
      rw [if_neg fun h => hc h.2]
      exact ⟨rfl, progress_of_none rfl⟩
  · rw [if_neg hm] at h
    cases h
    rw [if_neg hm, if_neg fun h => hm h.1]
    exact ⟨rfl, progress_of_none rfl⟩

@[simp] theorem Pc.progress_wakeNread (c : Pc) : c.wakeNread.progress = c.progress := by
  cases c <;> rfl

@[simp] theorem Pc.progress_wakeNwrite (c : Pc) : c.wakeNwrite.progress = c.progress := by
  cases c <;> rfl

omit [DecidableEq P] in
theorem progress_congr (hl : s'.lock = s.lock) (hpc : ∀ q, (s'.pc q).progress = (s.pc q).progress) :
    s'.progress = s.progress := by
  unfold State.progress
  rw [hl]
  cases s.lock with
  | none => rfl
  | some q => exact hpc q

theorem goto_progress {k : Pc} (hk : k.progress = (s.pc p).progress) (q : P) :
    ((s.goto p k).pc q).progress = (s.pc q).progress := by
  by_cases hq : q = p
  · subst hq
    rw [State.goto_pc, update_self, hk]
  · rw [State.goto_pc, update_of_ne hq]

omit [DecidableEq P] in
/-- The holder of the lock is not in the second loop of `piperead`, before and after the step. -/
theorem progress_release (hl : s.lock = some p) (hp : (s.pc p).progress = 0) (hl' : s'.lock = none) :
    s'.progress = s.progress := by
  rw [progress_of_none hl', progress_of_some hl, hp]

/-- Other steps take nothing out of the pipe and count nothing. -/
theorem step_other (hs : Step s e s')
    (hread : ∀ p c n i out, e = .turn p c → s.lock = some p → s.pc p ≠ .readCopy n i out) :
    s'.taken = s.taken ∧ s'.progress = s.progress := by
  cases hs with
  | pipewrite _ _ _ hp | piperead _ _ _ hp | writeReady _ _ _ _ _ hp | readReady _ _ _ _ hp =>
    exact ⟨rfl, progress_congr rfl (goto_progress (by rw [hp]; rfl))⟩
  | acquireWrite p _ _ hl | acquireRead p _ hl =>
    refine ⟨rfl, ?_⟩
    rw [progress_of_none hl, progress_of_some (p := p) rfl, State.goto_pc, update_self]
    rfl
  | writeQuit _ _ _ _ hl hp | writeFull _ _ _ _ hl hp | readQuit _ _ _ hl hp
    | readSleep _ _ _ hl hp => exact ⟨rfl, progress_release hl (by rw [hp]; rfl) rfl⟩
  | writeEnd p c n i hl hp =>
    refine ⟨rfl, progress_release hl ?_ rfl⟩
    rcases hp with hp | hp <;> rw [hp] <;> rfl
  | writeByte p ch n i hl hp =>
    exact ⟨rfl, progress_congr (s := s) rfl (goto_progress (s := s.put ch) (by rw [State.put_pc, hp]; rfl))⟩
  | readByte p c n i out hl hp | readLast p c n i out hl hp | readEnd p c n i out hl hp =>
    exact absurd hp (hread p c n i out rfl hl)
  | closeWrite | closeRead => exact ⟨rfl, progress_congr rfl fun q => by simp⟩
  | kill p => exact ⟨rfl, progress_congr rfl (goto_progress (by simp))⟩
  | reuse p r hp => exact ⟨rfl, progress_congr rfl fun _ => rfl⟩

/-- What is taken out without a failing `copyout` is delivered, and what is delivered is counted. -/
structure Delivery (w : Watched P) : Prop where
  delivered : w.delivered = w.pipe.taken
  counted : w.delivered.length = w.returned.sum + w.pipe.progress

omit [DecidableEq P] in
theorem Delivery.init (killed : P → Bool) (data : Nat → UInt8) : Delivery (Watched.init P killed data) :=
  ⟨rfl, rfl⟩

theorem Delivery.quiet {delivered : List UInt8} {returned : List Nat} (h : Delivery ⟨s, delivered, returned⟩)
    (hs : Step s e s')
    (hread : ∀ p c n i out, e = .turn p c → s.lock = some p → s.pc p ≠ .readCopy n i out)
    (hcopied : copied s e = []) (hreturns : returns s e = []) :
    Delivery ⟨s', delivered ++ copied s e, returned ++ returns s e⟩ := by
  obtain ⟨htaken, hprogress⟩ := step_other hs hread
  rw [hcopied, hreturns, List.append_nil, List.append_nil]
  exact ⟨h.delivered.trans htaken.symm, h.counted.trans (by rw [← hprogress])⟩

theorem Delivery.keep {w w' : Watched P} (h : Delivery w) (hok : copyoutOk w e = true)
    (hs : watch w e = .next w') : Delivery w' := by
  obtain ⟨s', hstep, rfl⟩ := Outcome.map_eq_next.mp hs
  obtain ⟨s, delivered, returned⟩ := w
  cases e with
  | turn p c =>
    obtain ⟨hl, hturn⟩ := Outcome.guard_eq_next.mp hstep
    cases hp : s.pc p with
    | readCopy n i out =>
      have hdelivered : delivered = s.taken := h.delivered
      have hcounted : delivered.length = returned.sum + s.progress := h.counted
      have hprogress : s.progress = i := by
        rw [progress_of_some hl, hp]
        rfl
      have hloses : ¬ mayTake s n i ∨ c.isSome = true := by
        simpa [copyoutOk, Pc.loses, hp] using hok
      obtain ⟨htaken, hprogress'⟩ := turn_read hl hp hturn
      have hcopied : copied s (.turn p c) = if mayTake s n i ∧ c.isSome then [front s.pipe] else [] := by
        rw [copied, hp, Pc.copied]
      have hreturns : returns s (.turn p c) = if mayTake s n i ∧ c.isSome then [] else [i] := by
        rw [returns, hp, Pc.returns]
      by_cases hm : mayTake s n i
      · -- the byte that is taken out is delivered
        have hc : c.isSome = true := hloses.resolve_left fun hn => hn hm
        rw [if_pos ⟨hm, hc⟩] at hcopied hreturns hprogress'
        rw [if_pos hm] at htaken
        refine ⟨?_, ?_⟩
        · dsimp only
          rw [hcopied, htaken, hdelivered]
        · dsimp only
          rw [hcopied, hreturns, hprogress', List.length_append, hcounted, hprogress, List.append_nil,
            List.length_singleton, Nat.add_assoc]
      · have hno : ¬ (mayTake s n i ∧ c.isSome = true) := fun hh => hm hh.1
        rw [if_neg hno] at hcopied hreturns hprogress'
        rw [if_neg hm] at htaken
        refine ⟨?_, ?_⟩
        · dsimp only
          rw [hcopied, htaken, hdelivered, List.append_nil]
        · dsimp only
          rw [hcopied, hreturns, hprogress', List.append_nil, hcounted, hprogress, List.sum_append,
            List.sum_singleton, Nat.add_zero]
    | _ =>
      refine h.quiet (step_eq_next hstep) ?_ ?_ ?_
      · rintro p' c' n i out ⟨⟩ - hp'
        rw [hp] at hp'
        cases hp'
      · rw [copied, hp]
        rfl
      · rw [returns, hp]
        rfl
  | _ => exact h.quiet (step_eq_next hstep) (by rintro p c n i out ⟨⟩) rfl rfl

/-! ## Results -/

/-- In every run in which no `copyout` fails, what the readers have got and what is still in the pipe is
what was put in. -/
theorem pipe_loses_nothing (killed : P → Bool) (data : Nat → UInt8) (es : List (Event P)) (w : Watched P)
    (hw : run (restrict copyoutOk watch) (Watched.init P killed data) es = .next w) :
    w.delivered ++ contents w.pipe.pipe = w.pipe.accepted ∧
      w.delivered.length = w.returned.sum + w.pipe.progress := by
  have h : Delivery w ∧ FifoInv w.pipe := by
    refine run_keeps (fun w => Delivery w ∧ FifoInv w.pipe) ?_ es
      ⟨Delivery.init killed data, FifoInv.init killed data⟩ hw
    rintro u e v ⟨hd, hf⟩ hs
    obtain ⟨hok, hs⟩ := restrict_eq_next.mp hs
    refine ⟨hd.keep hok hs, ?_⟩
    obtain ⟨s', hstep, rfl⟩ := Outcome.map_eq_next.mp hs
    exact hf.keep hstep
  obtain ⟨l, hq⟩ := h.2.queue
  rw [hq.contents_eq, h.1.delivered]
  exact ⟨hq.accepted.symm, h.1.delivered ▸ h.1.counted⟩

theorem pipe_loses_nothing_threeBytes :
    ∃ w, run (restrict copyoutOk watch) (Watched.init Bool (fun _ => false) (fun _ => 0)) threeBytes = .next w ∧
      (w.delivered = [10, 11] ∧ w.returned = [2]) ∧ w.delivered ++ contents w.pipe.pipe = w.pipe.accepted ∧
      w.delivered.length = w.returned.sum + w.pipe.progress := by
  have hany : (run (restrict copyoutOk watch) (Watched.init Bool (fun _ => false) (fun _ => 0)) threeBytes).any
      (fun w => w.delivered = [10, 11] ∧ w.returned = [2]) = true := by decide +kernel
  obtain ⟨w, hw, hsays⟩ := Outcome.exists_of_any hany
  exact ⟨w, hw, of_decide_eq_true hsays, pipe_loses_nothing _ _ threeBytes w hw⟩

/-- One process writes a byte, and another one reads it to a page that is not mapped. -/
def badAddress : List (Event Bool) :=
  [.pipewrite true 1, .acquire true, .turn true none, .turn true (some 10), .turn true none,
    .piperead false 1, .acquire false, .turn false none, .turn false none]

/-- The byte is in nobody's memory and in no return value, and is not in the pipe any more. -/
theorem copyout_loses_byte :
    ∃ w, run watch (Watched.init Bool (fun _ => false) (fun _ => 0)) badAddress = .next w ∧
      w.pipe.accepted = [10] ∧ w.delivered = [] ∧ w.returned = [0] ∧ contents w.pipe.pipe = [] := by
  have hany : (run watch (Watched.init Bool (fun _ => false) (fun _ => 0)) badAddress).any (fun w =>
      w.pipe.accepted = [10] ∧ w.delivered = [] ∧ w.returned = [0] ∧ contents w.pipe.pipe = []) = true := by
    decide +kernel
  obtain ⟨w, hw, hsays⟩ := Outcome.exists_of_any hany
  exact ⟨w, hw, of_decide_eq_true hsays⟩

end Xv6.Ipc
