import Xv6.Sched.Cpu

set_option autoImplicit false

/-! # Interrupt state that belongs to a thread

`Irq` is the interrupt state as a thread sees it, as if `noff` and `intena` were its own: `push_off` and
`pop_off` nest in it, and a context switch leaves it as it is. `Safe x c v` says that `x`, which has
the code `c` to do and sees `v`, can do it without a panic, whatever the other CPUs do and whichever
CPU it goes on on after a switch; the only thing not known after a switch is the flag `intena` that
the CPU then has. -/

namespace Xv6.Sched

open Spinlock

/-! ## Interrupts as a thread sees them -/

inductive Irq where
  /-- Nothing pushed, interrupts enabled. -/
  | on
  /-- Nothing pushed, interrupts disabled; `intena` is left over from before. -/
  | off (intena : Bool)
  /-- `n + 1` times pushed. -/
  | nested (n : Nat) (intena : Bool)
  deriving DecidableEq, Repr

namespace Irq

def sie : Irq → Bool
  | .on => true
  | _ => false

def noff : Irq → Nat
  | .nested n _ => n + 1
  | _ => 0

/-- Whether interrupts are enabled once everything is popped. -/
def base : Irq → Bool
  | .on => true
  | .off _ => false
  | .nested _ i => i

def push (old : Bool) : Irq → Irq
  | .nested n i => .nested (n + 1) i
  | _ => .nested 0 old

def pop : Irq → Irq
  | .nested 0 true => .on
  | .nested 0 false => .off false
  | .nested (n + 1) i => .nested n i
  | q => q

/-- `push_off` without an interruption. -/
def enter (q : Irq) : Irq := q.push q.sie

/-- The flag left over is forgotten. -/
def settle : Irq → Irq
  | .off _ => .off false
  | q => q

variable {q : Irq} {c : Intr}

@[simp] theorem pop_enter (q : Irq) : q.enter.pop = q.settle := by
  cases q with
  | nested n i => cases n <;> cases i <;> rfl
  | _ => rfl

@[simp] theorem noff_enter (q : Irq) : q.enter.noff = q.noff + 1 := by cases q <;> rfl

@[simp] theorem base_enter (q : Irq) : q.enter.base = q.base := by cases q <;> rfl

@[simp] theorem base_pop (q : Irq) : q.pop.base = q.base := by
  cases q with
  | nested n i => cases n <;> cases i <;> rfl
  | _ => rfl

@[simp] theorem noff_pop (q : Irq) : q.pop.noff = q.noff - 1 := by
  cases q with
  | nested n i => cases n <;> cases i <;> rfl
  | _ => rfl

@[simp] theorem noff_settle (q : Irq) : q.settle.noff = q.noff := by cases q <;> rfl

theorem enter_settle (q : Irq) : q.settle.enter = q.enter := by cases q <;> rfl

theorem noff_of_pop_eq_on (h : q.pop = .on) (hq : 0 < q.noff) : q.noff = 1 := by
  have := congrArg noff h
  rw [noff_pop] at this
  have hon : Irq.on.noff = 0 := rfl
  omega

/-- With nothing pushed a single `push_off` saves the status. -/
theorem enter_of_noff (h : q.noff = 0) : q.enter = .nested 0 q.base := by
  cases q with
  | nested n i => cases h
  | _ => rfl

theorem pop_nested_base (h : q.noff = 0) : (Irq.nested 0 q.base).pop = q.settle := by
  rw [← enter_of_noff h, pop_enter]

theorem eq_off (h : q.noff = 0) (hb : q.base = false) : ∃ i, q = .off i := by
  cases q with
  | on => cases hb
  | off i => exact ⟨i, rfl⟩
  | nested n i => cases h

/-- What a CPU has in its fields. -/
def Shows : Irq → Intr → Prop
  | .on, c => c.noff = 0 ∧ c.sie = true
  | .off i, c => c = ⟨0, i, false⟩
  | .nested n i, c => c = ⟨n + 1, i, false⟩

theorem Shows.noff_eq (h : q.Shows c) : c.noff = q.noff := by
  cases q with
  | on => exact h.1
  | off | nested => cases h; rfl

theorem Shows.sie_eq (h : q.Shows c) : c.sie = q.sie := by
  cases q with
  | on => exact h.2
  | off | nested => cases h; rfl

theorem Shows.pushOff (h : q.Shows c) (old : Bool) :
    (q.push old).Shows (c.pushOff old) := by
  cases q with
  | on => simp [push, Shows, Intr.pushOff, h.1]
  | off | nested => cases h; rfl

theorem Shows.popOff (h : q.Shows c) (hn : 0 < q.noff) :
    ∃ c', c.popOff = .next c' ∧ q.pop.Shows c' := by
  cases q with
  | on | off => cases hn
  | nested n i =>
    cases h
    cases n with
    | zero => cases i <;> exact ⟨_, rfl, by simp [pop, Shows, Intr.popped]⟩
    | succ n => exact ⟨_, rfl, by simp [pop, Shows, Intr.popped]⟩

/-- `yield` or `sleep`, called when the CPU had `c`, returns to `q`. -/
def Returns (c : Intr) : Irq → Prop
  | .on => c.noff = 0 ∧ c.sie = true
  | .off i => c.noff = 0 ∧ c.sie = false ∧ (c.intena = false → i = false)
  | .nested n i => c = ⟨n + 1, i, false⟩

theorem Shows.returns (h : q.Shows c) : q.settle.Returns c := by
  cases q with
  | on | nested => exact h
  | off i => cases h; exact ⟨rfl, rfl, fun _ => rfl⟩

end Irq

/-! ## Code that cannot go wrong -/

variable {T H L : Type}

/-- What a context sees: its interrupt state, `c->proc` of its CPU, the locks it holds, the newest
    first, and whether it has given up its state RUNNING. -/
structure View (T L : Type) where
  irq : Irq
  proc : Option T
  held : List (Lock T L)
  stopped : Bool

/-- With interrupts enabled no lock is held and `c->proc` is right. -/
def Good (x : Ctx T H) (v : View T L) : Prop :=
  v.irq = .on → v.held = [] ∧ v.proc = x.owner ∧ v.stopped = false

/-- What a context sees when `swtch` returns to it, for the process `t` that was or is to be run. -/
def resumed (t : T) (intena : Bool) : View T L := ⟨.nested 0 intena, some t, [.proc t], false⟩

/-- The context and the brackets that free code of a kind has. -/
def Kind.Fits (x : Ctx T H) (b : Brackets T L) (q : Irq) : Kind → Prop
  | .process => ∃ t, x = .thread t
  | .scheduler => (∃ h, x = .scheduler h) ∧ b = .empty
  | .handler => q.base = false

theorem good_of_noff {x : Ctx T H} {v : View T L} (h : 0 < v.irq.noff) : Good x v := by
  intro he
  rw [he] at h
  cases h

variable [DecidableEq T] [DecidableEq L]

inductive Safe (x : Ctx T H) : List (Instr T L) → View T L → Prop where
  | pushOff {c v} (h : Safe x (.intrOff v.irq.sie :: c) v) : Safe x (.pushOff :: c) v
  | intrOff {c v old} (h : Safe x c { v with irq := v.irq.push old }) : Safe x (.intrOff old :: c) v
  | popOff {c v} (hn : 0 < v.irq.noff) (hg : Good x { v with irq := v.irq.pop })
      (h : Safe x c { v with irq := v.irq.pop }) : Safe x (.popOff :: c) v
  | lock {c v l} (hn : 0 < v.irq.noff) (hl : l ∉ v.held)
      (h : Safe x c { v with held := l :: v.held }) : Safe x (.lock l :: c) v
  | unlock {c v l} (hn : 0 < v.irq.noff) (hl : l ∈ v.held) (hs : v.stopped = false)
      (h : Safe x c { v with held := v.held.erase l }) : Safe x (.unlock l :: c) v
  | myproc {c v u p} (hp : v.proc = some p) (h : Safe x (u.body p ++ c) v) :
      Safe x (.myproc u :: c) v
  | noTimer {c v} (hp : v.proc = none) (h : Safe x (.popOff :: c) v) : Safe x (.myproc .timer :: c) v
  | setState {c v t st} (hn : 0 < v.irq.noff) (hx : x = .thread t) (hl : .proc t ∈ v.held)
      (hst : st ≠ .running) (h : Safe x c { v with stopped := true }) :
      Safe x (.setState t st :: c) v
  | checks {c v t} (hx : x = .thread t) (hn : v.irq.noff = 1) (hl : .proc t ∈ v.held)
      (hs : v.stopped = true) (h : Safe x c v) : Safe x (.checks t :: c) v
  | swtch {c t i} (hx : x = .thread t) (h : ∀ j, Safe x (.restore i :: c) (resumed t j)) :
      Safe x (.swtch :: c) ⟨.nested 0 i, some t, [.proc t], true⟩
  | restore {c v i j} (hirq : v.irq = .nested 0 j) (h : Safe x c { v with irq := .nested 0 i }) :
      Safe x (.restore i :: c) v
  | dispatch {c t i} (g : H) (hx : x = .scheduler g)
      (hskip : Safe x c ⟨.nested 0 i, none, [.proc t], false⟩)
      (h : ∀ j, Safe x (.clearProc :: c) (resumed t j)) :
      Safe x (.dispatch t :: c) ⟨.nested 0 i, none, [.proc t], false⟩
  | clearProc {c v} (hn : 0 < v.irq.noff) (h : Safe x c { v with proc := none }) :
      Safe x (.clearProc :: c) v
  | yield {c v} (htrap : ∀ c', c = .sret :: c' → v.irq = .off false)
      (h : ∀ r, v.irq.Shows r → Safe x (.pushOff :: .myproc .yield :: .returned r :: c) v) :
      Safe x (.yield :: c) v
  | sleep {c v l}
      (h : ∀ r, v.irq.Shows r → Safe x (.pushOff :: .myproc (.sleep l) :: .returned r :: c) v) :
      Safe x (.sleep l :: c) v
  | returned {c v r} (hr : v.irq.Returns r) (h : Safe x c v) : Safe x (.returned r :: c) v
  | sret {c i} (h : Safe x c ⟨.on, x.owner, [], false⟩) : Safe x (.sret :: c) ⟨.off i, x.owner, [], false⟩
  | idle {c q k b} (hdepth : q.noff = b.pushes + b.locks.length) (hk : k.Fits x b q)
      (hnext : k = .handler → Safe x c ⟨.on, x.owner, [], false⟩) :
      Safe x (.idle k b :: c) ⟨q, x.owner, b.locks, false⟩

namespace Safe

variable {x : Ctx T H} {c : List (Instr T L)} {v : View T L} {l : Lock T L} {t : T} {i : Bool}

theorem push (h : Safe x c { v with irq := v.irq.enter }) : Safe x (.pushOff :: c) v :=
  .pushOff (.intrOff h)

theorem acquire (hl : l ∉ v.held) (h : Safe x c { v with irq := v.irq.enter, held := l :: v.held }) :
    Safe x (Sched.acquire l ++ c) v :=
  .push (.lock (by simp) hl h)

theorem release (hn : 0 < v.irq.noff) (hl : l ∈ v.held) (hs : v.stopped = false)
    (hg : Good x { v with irq := v.irq.pop, held := v.held.erase l })
    (h : Safe x c { v with irq := v.irq.pop, held := v.held.erase l }) :
    Safe x (Sched.release l ++ c) v :=
  .unlock hn hl hs (.popOff hn hg h)

/-- With the last lock gone interrupts may be enabled. -/
theorem releaseLast (h : Safe x c ⟨(Irq.nested 0 i).pop, x.owner, [], false⟩) :
    Safe x (Sched.release l ++ c) ⟨.nested 0 i, x.owner, [l], false⟩ := by
  have herase : [l].erase l = [] := List.erase_cons_head ..
  refine .release (Nat.succ_pos _) (List.mem_singleton_self _) rfl (fun _ => ⟨herase, rfl, rfl⟩) ?_
  simp only [herase]
  exact h

theorem call_myproc {u : Use T L} {p : T} (hp : v.proc = some p)
    (h : Safe x (u.body p ++ c) { v with irq := v.irq.enter }) :
    Safe x (.pushOff :: .myproc u :: c) v :=
  .push (.myproc hp h)

/-- `sched` comes back as it was called. -/
theorem sched (h : Safe (.thread t : Ctx T H) c ⟨.nested 0 i, some t, [.proc t], false⟩) :
    Safe (.thread t : Ctx T H) (Sched.sched ++ c) ⟨.nested 0 i, some t, [.proc t], true⟩ := by
  refine .call_myproc rfl ?_
  refine .popOff (Nat.succ_pos _) (good_of_noff (Nat.succ_pos _)) ?_
  refine .checks rfl rfl (List.mem_singleton_self _) rfl ?_
  exact .swtch rfl fun j => .restore rfl h

/-- `yield` comes back as it was called. -/
theorem yieldBody {q : Irq} (hq : q.noff = 0)
    (h : Safe (.thread t : Ctx T H) c ⟨q.settle, some t, [], false⟩) :
    Safe (.thread t : Ctx T H) (Sched.yieldBody t ++ c) ⟨q.enter, some t, [], false⟩ := by
  have hirq : q.enter.pop.enter = .nested 0 q.base := by
    rw [Irq.pop_enter, Irq.enter_settle, Irq.enter_of_noff hq]
  rw [← Irq.pop_nested_base hq] at h
  unfold Sched.yieldBody
  rw [List.append_assoc, List.append_assoc, List.cons_append]
  refine .popOff (by simp) (fun _ => ⟨rfl, rfl, rfl⟩) ?_
  refine .acquire List.not_mem_nil ?_
  rw [List.cons_append]
  refine .setState (by simp) rfl (List.mem_singleton_self _) nofun ?_
  simp only [hirq]
  refine .sched ?_
  exact .releaseLast h

/-- `sleep` comes back as it was called. -/
theorem sleepBody (hl : l ≠ .proc t)
    (h : Safe (.thread t : Ctx T H) c ⟨.nested 0 i, some t, [l], false⟩) :
    Safe (.thread t : Ctx T H) (Sched.sleepBody l t ++ c) ⟨.nested 1 i, some t, [l], false⟩ := by
  have herase : [.proc t, l].erase l = [.proc t] := by
    rw [List.erase_cons_tail (by simpa using hl.symm), List.erase_cons_head]
  unfold Sched.sleepBody
  simp only [List.append_assoc, List.cons_append]
  refine .popOff (Nat.succ_pos _) (good_of_noff (Nat.succ_pos _)) ?_
  refine .acquire (by simpa using hl.symm) ?_
  refine .release (Nat.succ_pos _) (by simp) rfl (good_of_noff (Nat.succ_pos _)) ?_
  simp only [herase]
  refine .setState (Nat.succ_pos _) rfl (List.mem_singleton_self _) nofun ?_
  refine .sched ?_
  refine .releaseLast (.acquire List.not_mem_nil ?_)
  cases i <;> exact h

theorem callYield {q : Irq} (hq : q.noff = 0) (htrap : ∀ c', c = .sret :: c' → q = .off false)
    (h : Safe (.thread t : Ctx T H) c ⟨q.settle, some t, [], false⟩) :
    Safe (.thread t : Ctx T H) (.yield :: c) ⟨q, some t, [], false⟩ :=
  .yield htrap fun _ hr => .call_myproc rfl (.yieldBody hq (.returned hr.returns h))

theorem callSleep (hl : l ≠ .proc t)
    (h : Safe (.thread t : Ctx T H) c ⟨.nested 0 i, some t, [l], false⟩) :
    Safe (.thread t : Ctx T H) (.sleep l :: c) ⟨.nested 0 i, some t, [l], false⟩ :=
  .sleep fun _ hr => .call_myproc rfl (.sleepBody hl (.returned hr h))

end Safe

/-! ## Free code -/

omit [DecidableEq T] [DecidableEq L] in
theorem Kind.Fits.change {x : Ctx T H} {b b' : Brackets T L} {q q' : Irq} {k : Kind}
    (h : k.Fits x b q) (hk : k ≠ .scheduler) (hq : q'.base = q.base) : k.Fits x b' q' := by
  cases k with
  | process => exact h
  | scheduler => exact absurd rfl hk
  | handler => exact hq.trans h

namespace Safe

variable {x : Ctx T H} {c : List (Instr T L)} {v : View T L} {k : Kind} {b : Brackets T L} {q : Irq}

omit [DecidableEq T] [DecidableEq L] in
/-- Popping a bracket of free code leaves nothing held if it enables interrupts. -/
theorem good_pop (b' : Brackets T L) (hdepth : q.noff = b.pushes + b.locks.length)
    (hb : b'.pushes + b'.locks.length + 1 = b.pushes + b.locks.length) :
    Good x ⟨q.pop, x.owner, b'.locks, false⟩ := by
  intro hon
  have hone := Irq.noff_of_pop_eq_on hon (by omega)
  have hnil : b'.locks = [] := List.eq_nil_of_length_eq_zero (by omega)
  exact ⟨hnil, rfl, rfl⟩

theorem idle_pushOff (h : Safe x (.idle k b :: c) v) (hk : k ≠ .scheduler) :
    Safe x (.pushOff :: .idle k { b with pushes := b.pushes + 1 } :: c) v := by
  cases h with
  | idle hdepth hfits hnext =>
    refine .push (.idle ?_ (hfits.change hk (Irq.base_enter _)) hnext)
    rw [Irq.noff_enter, hdepth, Nat.add_right_comm]

theorem idle_popOff (h : Safe x (.idle k b :: c) v) (hb : 0 < b.pushes) :
    Safe x (.popOff :: .idle k { b with pushes := b.pushes - 1 } :: c) v := by
  cases h with
  | idle hdepth hfits hnext =>
    have hk : k ≠ .scheduler := by
      rintro rfl
      rw [hfits.2] at hb
      cases hb
    refine .popOff (by dsimp only; omega) (good_pop { b with pushes := b.pushes - 1 } hdepth
      (by dsimp only; omega)) ?_
    exact .idle (by rw [Irq.noff_pop]; dsimp only; omega) (hfits.change hk (Irq.base_pop _)) hnext

theorem idle_acquire {l : Lock T L} (h : Safe x (.idle k b :: c) v) (hk : k ≠ .scheduler)
    (hl : l ∉ b.locks) :
    Safe x (Sched.acquire l ++ .idle k { b with locks := l :: b.locks } :: c) v := by
  cases h with
  | idle hdepth hfits hnext =>
    refine .acquire hl (.idle ?_ (hfits.change hk (Irq.base_enter _)) hnext)
    rw [Irq.noff_enter, hdepth, List.length_cons, Nat.add_assoc]

theorem idle_release {l : Lock T L} (h : Safe x (.idle k b :: c) v) (hl : l ∈ b.locks) :
    Safe x (Sched.release l ++ .idle k { b with locks := b.locks.erase l } :: c) v := by
  cases h with
  | idle hdepth hfits hnext =>
    have hk : k ≠ .scheduler := by
      rintro rfl
      rw [hfits.2] at hl
      cases hl
    have hlen := List.length_erase_of_mem hl
    have hpos := List.length_pos_of_mem hl
    refine .release (by dsimp only; omega) hl rfl
      (good_pop { b with locks := b.locks.erase l } hdepth (by dsimp only; omega)) ?_
    exact .idle (by rw [Irq.noff_pop]; dsimp only; omega) (hfits.change hk (Irq.base_pop _)) hnext

theorem idle_yield (h : Safe x (.idle .process .empty :: c) v) :
    Safe x (.yield :: .idle .process .empty :: c) v := by
  cases h with
  | idle hdepth hfits hnext =>
    obtain ⟨t, rfl⟩ := hfits
    refine .callYield hdepth (fun _ he => by cases he) ?_
    exact .idle ((Irq.noff_settle _).trans hdepth) ⟨t, rfl⟩ nofun

theorem idle_sleep {l : Lock T L} (h : Safe x (.idle .process ⟨0, [l]⟩ :: c) v)
    (hl : x.owner.all (fun t => decide (l ≠ .proc t)) = true) :
    Safe x (.sleep l :: .idle .process ⟨0, [l]⟩ :: c) v := by
  cases h with
  | @idle _ q _ _ hdepth hfits hnext =>
    obtain ⟨t, rfl⟩ := hfits
    have hl' : l ≠ .proc t := of_decide_eq_true hl
    cases q with
    | on => cases hdepth
    | off i => cases hdepth
    | nested n i =>
      obtain rfl : n = 0 := Nat.succ.inj hdepth
      exact .callSleep hl' (.idle rfl ⟨t, rfl⟩ nofun)

/-- The scheduler tries a process. -/
theorem idle_schedule (h : Safe x (.idle .scheduler b :: c) v) (t : T) :
    Safe x (Sched.acquire (.proc t) ++ .dispatch t :: Sched.release (.proc t) ++
      .idle .scheduler b :: c) v := by
  cases h with
  | @idle _ q _ _ hdepth hfits hnext =>
    obtain ⟨⟨g, rfl⟩, rfl⟩ := hfits
    have hq : q.noff = 0 := hdepth
    -- what is left to do once the lock is held and `c->proc` is 0
    have hrest : ∀ i, Safe (.scheduler g) (Sched.release (.proc t) ++ .idle .scheduler .empty :: c)
        ⟨.nested 0 i, none, [.proc t], false⟩ := by
      intro i
      exact .releaseLast (.idle (b := .empty) (Irq.noff_pop _) ⟨⟨g, rfl⟩, rfl⟩ nofun)
    rw [List.append_assoc]
    refine .acquire (by simp [Brackets.empty]) ?_
    rw [Irq.enter_of_noff hq]
    exact .dispatch g rfl (hrest _) fun j => .clearProc (Nat.succ_pos _) (hrest j)

/-- `kerneltrap` after `devintr`. -/
theorem idle_done (h : Safe x (.idle .handler .empty :: c) v) (timer : Bool) :
    Safe x (if timer then .pushOff :: .myproc .timer :: .sret :: c else .sret :: c) v := by
  cases h with
  | @idle _ q _ _ hdepth hfits hnext =>
    obtain ⟨i, rfl⟩ := Irq.eq_off hdepth hfits
    have hret := hnext rfl
    cases timer with
    | false => exact .sret hret
    | true =>
      refine .push ?_
      cases hx : x with
      | scheduler g =>
        subst hx
        exact .noTimer rfl (.popOff (Nat.succ_pos _) (fun _ => ⟨rfl, rfl, rfl⟩) (.sret hret))
      | thread t =>
        subst hx
        refine .myproc rfl (.popOff (Nat.succ_pos _) (fun _ => ⟨rfl, rfl, rfl⟩) ?_)
        exact .callYield rfl (fun _ _ => rfl) (.sret hret)

theorem idle_intrOn (h : Safe x (.idle k .empty :: c) v) (hk : k ≠ .handler) :
    v.irq.noff = 0 ∧ Good x { v with irq := .on } ∧
      Safe x (.idle k .empty :: c) { v with irq := .on } := by
  cases h with
  | idle hdepth hfits hnext =>
    refine ⟨hdepth, fun _ => ⟨rfl, rfl, rfl⟩, .idle (b := .empty) rfl ?_ hnext⟩
    cases k with
    | process => exact hfits
    | scheduler => exact hfits
    | handler => exact absurd rfl hk

theorem idle_intrOff (h : Safe x (.idle .process .empty :: c) v) (i : Bool) :
    v.irq.noff = 0 ∧ Safe x (.idle .process .empty :: c) { v with irq := .off i } := by
  cases h with
  | idle hdepth hfits hnext => exact ⟨hdepth, .idle (b := .empty) rfl hfits nofun⟩

/-- An interrupt that comes while interrupts are enabled. -/
theorem interrupt (h : Safe x c v) (hg : Good x v) (hon : v.irq = .on) (i : Bool) :
    Safe x (.idle .handler .empty :: c) { v with irq := .off i } := by
  obtain ⟨hheld, hproc, hs⟩ := hg hon
  obtain ⟨q, proc, held, stopped⟩ := v
  dsimp only at hon hheld hproc hs
  subst hon hheld hproc hs
  exact .idle (b := .empty) rfl rfl fun _ => h

/-- A new process, when the scheduler first switches to it. -/
theorem forkret (t : T) (i : Bool) :
    Safe (.thread t : Ctx T H) (Sched.forkret : List (Instr T L)) (resumed t i) := by
  refine .call_myproc rfl ?_
  refine .popOff (Nat.succ_pos _) (good_of_noff (Nat.succ_pos _)) ?_
  exact .releaseLast (.idle (b := .empty) (Irq.noff_pop _) ⟨t, rfl⟩ nofun)

end Safe

end Xv6.Sched
