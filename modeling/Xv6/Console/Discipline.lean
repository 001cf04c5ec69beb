import Mathlib.Data.List.Induction
import Xv6.Console.Line
import Xv6.Lib.Fifo

set_option autoImplicit false

/-! # The ring of the console keeps the line discipline

`Represents` says how the three indices and the ring hold a queue of committed bytes and a line.
`consoleintr` and `consoleread` do to the ring what `Line.intr` and `Line.read` do to the queue and
the line (`kernel_simulates`), so every run of the kernel's console is a run of the line discipline
with the same echo, the same calls and the same results. -/

namespace Xv6.Console

open Machine

/-! ## Simulation of one console by another -/

section Simulation

variable {P D A : Type}

/-- The same processes with another console. -/
def State.withCons (s : State P D) (a : A) : State P A := ⟨a, s.pc, s.uart, s.taken, s.reads⟩

/-- `abs` answers every key and every reader as `dev` does, from consoles related by `R`. -/
structure Simulates (R : D → A → Prop) (dev : Device D) (abs : Device A) : Prop where
  intr : ∀ d a c, R d a →
    ∃ a', abs.intr a c = ⟨a', (dev.intr d c).echo, (dev.intr d c).wakeup⟩ ∧ R (dev.intr d c).dev a'
  read : ∀ d a k, R d a →
    ∃ a', abs.read a k = ⟨a', (dev.read d k).read, (dev.read d k).taken, (dev.read d k).stop⟩ ∧
      R (dev.read d k).dev a'

variable {R : D → A → Prop} {dev : Device D} {abs : Device A} [DecidableEq P]

theorem State.leave_withCons (s : State P D) (a a' : A) (p : P) (killed : Bool) (t : Turn D) :
    (s.withCons a).leave p killed ⟨a', t.read, t.taken, t.stop⟩ =
      (s.leave p killed t).withCons a' := by
  unfold State.leave
  dsimp only
  cases t.stop with
  | some e => rfl
  | none => cases killed <;> rfl

theorem State.leave_cons (s : State P D) (p : P) (killed : Bool) (t : Turn D) :
    (s.leave p killed t).cons = t.dev := by
  unfold State.leave
  dsimp only
  cases t.stop with
  | some e => rfl
  | none => cases killed <;> rfl

theorem Simulates.step (h : Simulates R dev abs) {s s' : State P D} {e : Event P} {a : A}
    (hR : R s.cons a) (hs : step dev s e = .next s') :
    ∃ a', Console.step abs (s.withCons a) e = .next (s'.withCons a') ∧ R s'.cons a' := by
  cases e with
  | consoleintr c =>
    cases hs
    obtain ⟨a', ha, hR'⟩ := h.intr s.cons a c hR
    refine ⟨a', ?_, hR'⟩
    change Outcome.next ((s.withCons a).press (abs.intr a c)) = _
    rw [ha]
    rfl
  | consoleread p n room =>
    refine ⟨a, ?_⟩
    simp only [Console.step, State.withCons] at hs ⊢
    split at hs
    · cases hs
      exact ⟨rfl, hR⟩
    · cases hs
  | turn p killed =>
    simp only [Console.step] at hs
    split at hs
    · next k hp =>
        cases hs
        obtain ⟨a', ha, hR'⟩ := h.read s.cons a k hR
        refine ⟨a', ?_, by rwa [State.leave_cons]⟩
        simp only [Console.step]
        rw [show (s.withCons a).pc p = .acquire k from hp]
        change Outcome.next ((s.withCons a).leave p killed (abs.read a k)) = _
        rw [ha, State.leave_withCons]
    · cases hs
  | kill p =>
    cases hs
    exact ⟨a, rfl, hR⟩

theorem Simulates.run (h : Simulates R dev abs) {s s' : State P D} {a : A} (hR : R s.cons a)
    {es : List (Event P)} (hs : run (Console.step dev) s es = .next s') :
    ∃ a', Machine.run (Console.step abs) (s.withCons a) es = .next (s'.withCons a') ∧ R s'.cons a' := by
  induction es generalizing s a with
  | nil =>
    cases hs
    exact ⟨a, rfl, hR⟩
  | cons e es ih =>
    obtain ⟨s₁, h1, h2⟩ := run_cons_eq_next hs
    obtain ⟨a₁, ha, hR₁⟩ := h.step hR h1
    rw [run_cons_next es ha]
    exact ih hR₁ h2

end Simulation

/-! ## The queue and the line in the ring -/

structure Represents (s : Cons) (q : Line) : Prop where
  fifo : Fifo INPUT_BUF_SIZE (2 ^ 32) s.buf s.r s.e q.unread
  w_eq : s.w = (s.r + q.committed.length) % 2 ^ 32
  /-- So control-U stops at `w` and not before. -/
  text : newline ∉ q.line

namespace Represents

theorem size_dvd : INPUT_BUF_SIZE ∣ 2 ^ 32 := by decide

theorem size_lt : INPUT_BUF_SIZE < 2 ^ 32 := by decide

variable {s : Cons} {q : Line}

theorem front (h : Represents s q) : Fifo INPUT_BUF_SIZE (2 ^ 32) s.buf s.r s.w q.committed := by
  rw [h.w_eq]
  exact h.fifo.front

theorem back (h : Represents s q) : Fifo INPUT_BUF_SIZE (2 ^ 32) s.buf s.w s.e q.line := by
  rw [h.w_eq]
  exact h.fifo.back size_dvd

theorem usub_e_r (h : Represents s q) : usub s.e s.r = q.unread.length :=
  (h.fifo.length_eq size_lt).symm

theorem usub_w_r (h : Represents s q) : usub s.w s.r = q.committed.length :=
  (h.front.length_eq size_lt).symm

theorem usub_e_w (h : Represents s q) : usub s.e s.w = q.line.length :=
  (h.back.length_eq size_lt).symm

theorem r_eq_w (h : Represents s q) : s.r = s.w ↔ q.committed = [] := h.front.empty_iff size_lt

theorem e_ne_w (h : Represents s q) : s.e ≠ s.w ↔ q.line ≠ [] :=
  not_congr (eq_comm.trans (h.back.empty_iff size_lt))

theorem boot : Represents Cons.init Line.init where
  fifo := Fifo.nil (by decide) _
  w_eq := rfl
  text := List.not_mem_nil

/-! ## Editing -/

theorem erase (h : Represents s q) {l : List UInt8} {c : UInt8} (hl : q.line = l ++ [c]) :
    Represents { s with e := usub s.e 1 } { q with line := l } where
  fifo := by
    have hf := h.fifo
    rw [Line.unread, hl, ← List.append_assoc] at hf
    exact hf.unpush
  w_eq := h.w_eq
  text hmem := h.text (by rw [hl]; exact List.mem_append_left _ hmem)

theorem last_ne (h : Represents s q) {l : List UInt8} {c : UInt8} (hl : q.line = l ++ [c]) :
    s.buf (usub s.e 1 % INPUT_BUF_SIZE) ≠ newline := by
  have hf := h.back
  rw [hl] at hf
  have hc : s.buf (usub s.e 1 % INPUT_BUF_SIZE) = c := hf.last_eq size_dvd
  rw [hc]
  rintro rfl
  exact h.text (by rw [hl]; simp)

/-- The loop of control-U erases the line and nothing else. -/
theorem killLine (h : Represents s q) :
    ∃ s', Console.killLine q.line.length s =
        (s', (List.replicate q.line.length (consputc BACKSPACE)).flatten) ∧
      Represents s' { q with line := [] } := by
  obtain ⟨committed, line, entered⟩ := q
  induction line using List.reverseRecOn generalizing s with
  | nil => exact ⟨s, rfl, h⟩
  | append_singleton l c ih =>
    obtain ⟨s', hs', hrep⟩ := ih (h.erase rfl)
    refine ⟨s', ?_, hrep⟩
    have hturn : s.e ≠ s.w ∧ s.buf (usub s.e 1 % INPUT_BUF_SIZE) ≠ newline :=
      ⟨h.e_ne_w.mpr (by simp), h.last_ne rfl⟩
    rw [show (l ++ [c]).length = l.length + 1 by simp, Console.killLine, if_pos hturn, hs',
      List.replicate_succ, List.flatten_cons]

theorem append (h : Represents s q) (hroom : q.unread.length < INPUT_BUF_SIZE) {c : UInt8}
    (hc : c ≠ newline) :
    Represents { s with
        buf := Function.update s.buf (s.e % INPUT_BUF_SIZE) c, e := (s.e + 1) % 2 ^ 32 }
      (q.append c) where
  fifo := by
    rw [Line.unread, Line.append, ← List.append_assoc]
    exact h.fifo.push size_dvd hroom c
  w_eq := h.w_eq
  text hmem := by
    rcases List.mem_append.mp hmem with hmem | hmem
    · exact h.text hmem
    · exact hc (List.mem_singleton.mp hmem).symm

theorem commit (h : Represents s q) (hroom : q.unread.length < INPUT_BUF_SIZE) (c : UInt8) :
    Represents { s with
        buf := Function.update s.buf (s.e % INPUT_BUF_SIZE) c
        e := (s.e + 1) % 2 ^ 32
        w := (s.e + 1) % 2 ^ 32 }
      (q.append c).commit := by
  have hf := h.fifo.push size_dvd hroom c
  refine ⟨?_, ?_, List.not_mem_nil⟩
  · rw [Line.unread, Line.commit, Line.append, List.append_nil, ← List.append_assoc]
    exact hf
  · rw [Line.commit, Line.append, ← List.append_assoc]
    exact hf.w_eq

/-- `consoleintr` is what the key does to the queue and the line. -/
theorem intr (h : Represents s q) (c : UInt8) :
    ∃ q', q.intr c = ⟨q', (consoleintr s c).echo, (consoleintr s c).wakeup⟩ ∧
      Represents (consoleintr s c).dev q' := by
  unfold Line.intr consoleintr
  split
  · exact ⟨q, rfl, h⟩
  split
  · obtain ⟨s', hs', hrep⟩ := h.killLine
    rw [h.usub_e_w, hs']
    exact ⟨_, rfl, hrep⟩
  split
  · rcases List.eq_nil_or_concat q.line with hnil | ⟨l, b, hl⟩
    · rw [if_pos hnil, if_neg (not_not.mpr (not_ne_iff.mp (mt h.e_ne_w.mp (not_not.mpr hnil)))), hnil]
      refine ⟨_, rfl, ?_⟩
      rwa [List.dropLast_nil, ← hnil]
    · rw [List.concat_eq_append] at hl
      have hne : q.line ≠ [] := by simp [hl]
      rw [if_neg hne, if_pos (h.e_ne_w.mpr hne)]
      refine ⟨_, rfl, ?_⟩
      rw [hl, List.dropLast_concat]
      exact h.erase hl
  rw [h.usub_e_r]
  split
  · next hc =>
      have hlen : usub ((s.e + 1) % 2 ^ 32) s.r = (q.append (translate c)).unread.length := by
        have := (h.commit hc.2 (translate c)).usub_e_r
        simpa [Line.unread, Line.commit, Line.append] using this
      dsimp only
      rw [hlen]
      split
      · exact ⟨_, rfl, h.commit hc.2 _⟩
      · next hplain => exact ⟨_, rfl, h.append hc.2 fun he => hplain (.inl he)⟩
  · exact ⟨q, rfl, h⟩

/-! ## Reading -/

theorem pop (h : Represents s q) {c : UInt8} {l : List UInt8} (hl : q.committed = c :: l) :
    Represents { s with r := (s.r + 1) % 2 ^ 32 } { q with committed := l } := by
  have hf := h.fifo
  have hw := h.front
  rw [Line.unread, hl, List.cons_append] at hf
  rw [hl] at hw
  exact ⟨hf.pop size_dvd, (hw.pop size_dvd).w_eq, h.text⟩

theorem readLoop (h : Represents s q) (target room n : Nat) (out : List UInt8) :
    ∃ l, drain target room n out q.committed =
        ⟨l, (Console.readLoop target room n out s).read,
          (Console.readLoop target room n out s).taken, (Console.readLoop target room n out s).stop⟩ ∧
      Represents (Console.readLoop target room n out s).dev { q with committed := l } := by
  induction n generalizing s q out with
  | zero => exact ⟨q.committed, rfl, h⟩
  | succ n ih =>
    unfold Console.readLoop
    cases hq : q.committed with
    | nil =>
      rw [if_pos (h.r_eq_w.mpr hq)]
      refine ⟨[], rfl, ?_⟩
      rwa [← hq]
    | cons c l =>
      have hne : ¬ s.r = s.w := fun he => by
        rw [h.r_eq_w.mp he] at hq
        cases hq
      have hpop := h.pop hq
      have hc : s.buf (s.r % INPUT_BUF_SIZE) = c := by
        have hf := h.front
        rw [hq] at hf
        exact hf.head_eq
      have hback : usub ((s.r + 1) % 2 ^ 32) 1 = s.r := Fifo.succ_pred_mod h.fifo.r_lt
      rw [if_neg hne, drain, hc]
      dsimp only
      rw [hback]
      split
      · split
        · refine ⟨c :: l, rfl, ?_⟩
          rwa [← hq]
        · exact ⟨l, rfl, hpop⟩
      split
      · exact ⟨l, rfl, hpop⟩
      split
      · exact ⟨l, rfl, hpop⟩
      · obtain ⟨l', hl', hrep⟩ := ih hpop (out ++ [c])
        refine ⟨l', ?_, hrep⟩
        rw [hl']

end Represents

theorem kernel_simulates : Simulates Represents kernel discipline where
  intr _ _ c h := h.intr c
  read _ q k h := by
    obtain ⟨l, hl, hrep⟩ := h.readLoop k.target k.room k.n k.out
    refine ⟨{ q with committed := l }, ?_, hrep⟩
    change Line.read q k = _
    unfold Line.read
    rw [hl]
    rfl

/-! ## Every run -/

variable {P : Type} [DecidableEq P]

/-- What holds of the console after the events `es`. The run is one of the line discipline too, with
    the same echo, calls and results. -/
structure Keeps (s : State P Cons) (es : List (Event P)) (q : Line) : Prop where
  refines : run (step discipline) (State.init Line.init) es = .next (s.withCons q)
  represents : Represents s.cons q
  books : Books (s.withCons q)
  /-- The indices are in order, and no more bytes are unread than fit. -/
  order : usub s.cons.w s.cons.r ≤ usub s.cons.e s.cons.r
  room : usub s.cons.e s.cons.r ≤ INPUT_BUF_SIZE
  /-- No key takes a committed byte away. -/
  safe : ∀ c, q.committed <+: (q.intr c).dev.committed
  /-- A call that was not killed returns the number of bytes it wrote. -/
  results : ∀ x ∈ s.reads, x.2.2 ≠ .killed → x.2.2.result x.2.1 = x.2.1.out.length
  /-- Nobody sleeps while there is something to read. -/
  awake : ∀ p k, s.pc p = .asleep k → s.cons.r = s.cons.w

theorem Read.Ended.result {k : Read} {e : End} (h : k.Ended e) (hk : e ≠ .killed) :
    e.result k = k.out.length := by
  have hopen : ∀ {k : Read}, k.Open → (k.target : Int) - k.n = k.out.length := by
    intro k ho
    have := ho.length
    omega
  cases e with
  | full | eof | fault => exact hopen h.1
  | line =>
    obtain ⟨out, hout, ho, -⟩ := h
    have hlen : k.n + 1 + out.length = k.target := ho.length
    rw [hout, List.length_append, List.length_singleton]
    change (k.target : Int) - k.n = _
    omega
  | killed => exact absurd rfl hk

theorem line_discipline {es : List (Event P)} {s : State P Cons}
    (h : run (step kernel) (State.init Cons.init) es = .next s) : ∃ q, Keeps s es q := by
  obtain ⟨q, hrun, hrep⟩ := kernel_simulates.run Represents.boot h
  have hbooks : Books (s.withCons q) := run_keeps Books (fun _ _ _ => Books.keep) es Books.boot hrun
  refine ⟨q, hrun, hrep, hbooks, ?_, ?_, fun c => ?_, ?_, ?_⟩
  · rw [hrep.usub_w_r, hrep.usub_e_r, Line.unread, List.length_append]
    exact Nat.le_add_right _ _
  · rw [hrep.usub_e_r]
    exact hrep.fifo.length_le
  · obtain ⟨l, hl, -⟩ := (q.pressed c).commits
    exact ⟨l, hl.symm⟩
  · intro x hx
    exact (hbooks.ended x hx).result
  · intro p k hp
    exact hrep.r_eq_w.mpr (hbooks.sleep p k hp)

/-- A reader sleeps, "hi" is typed, its last character erased and replaced, and the line ended. -/
def typing : List (Event Unit) :=
  [.consoleread () 10 10, .turn () false, .consoleintr 'h'.toUInt8, .consoleintr 'i'.toUInt8,
    .consoleintr (C 'H'), .consoleintr 'o'.toUInt8, .consoleintr '\r'.toUInt8, .turn () false]

theorem line_discipline_typing :
    ∃ s, run (step kernel) (State.init Cons.init) typing = .next s ∧ s.pc () = .ret 3 ∧
      s.reads = [((), ⟨10, 7, 10, ['h'.toUInt8, 'o'.toUInt8, newline]⟩, .line)] ∧
      ∃ q, Keeps s typing q := by
  have hany : (run (step kernel) (State.init Cons.init) typing).any (fun s =>
      decide (s.pc () = .ret 3 ∧
        s.reads = [((), ⟨10, 7, 10, ['h'.toUInt8, 'o'.toUInt8, newline]⟩, .line)])) = true := by
    decide +kernel
  obtain ⟨s, hs, h⟩ := Outcome.exists_of_any hany
  obtain ⟨hret, hreads⟩ := of_decide_eq_true h
  exact ⟨s, hs, hret, hreads, line_discipline hs⟩

end Xv6.Console
