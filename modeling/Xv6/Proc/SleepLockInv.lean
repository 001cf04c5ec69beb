import Xv6.Proc.SleepLock

set_option autoImplicit false

/-! # Sleep-locks: spin-locks and processes on CPUs

Two invariants of the machine of `SleepLock.lean` that lean on each other (`Inv`):

* `Locks`: a CPU holds exactly the spin-locks that its place in the code says, `noff` counts them, and
  interrupts are off while there are any.
* `Placed`: a process runs on at most one CPU, one that runs nowhere is new or waits inside `sched`, and
  `p->state` is `RUNNING` while it runs, up to the last instruction before `sched`.

The first part says of every place in the code which spin-locks are held there, who owns the sleep-lock
and who is on the way to sleep or to wake others, and how an instruction changes that. -/

namespace Xv6.SleepLock

open Machine Spinlock Function

variable {C P : Type}

/-! ## What the places in the code say -/

/-- The spin-locks that process `p` holds at a place. -/
def Pc.locks (p : P) : Pc P → List (Lock P)
  | .outer _ => []
  | .yield .acquire _ => []
  | .yield _ _ => [.proc p]
  | .forkret => [.proc p]
  | .test => [.lk]
  | .sleepAcquire => [.lk]
  | .sleepRelease => [.proc p, .lk]
  | .setChan => [.proc p]
  | .setSleeping => [.proc p]
  | .sleepSched => [.proc p]
  | .clearChan => [.proc p]
  | .sleepUnlock => [.proc p]
  | .setLocked => [.lk]
  | .setPid => [.lk]
  | .acquireEnd => [.lk]
  | .clearLocked => [.lk]
  | .clearPid => [.lk]
  | .wakeup _ => [.lk]
  | .wakeTest x _ => [.proc x, .lk]
  | .wakeUnlock x _ => [.proc x, .lk]
  | .holdTest _ => [.lk]
  | .holdEnd _ _ => [.lk]
  | .killTest _ _ x _ => [.proc x]
  | .killUnlock _ x => [.proc x]
  | .sret _ => []

/-- The spin-locks that a CPU holds. -/
def Ctx.locks (pc : P → Pc P) : Ctx P → List (Lock P)
  | .loop => []
  | .locked p => [.proc p]
  | .switching p => [.proc p]
  | .running p => (pc p).locks p
  | .back p => [.proc p]

def State.holding (s : State C P) (c : C) : List (Lock P) := (s.ctx c).locks s.pc

/-- The process that a CPU runs or is about to run. -/
def Ctx.active : Ctx P → Option P
  | .switching p => some p
  | .running p => some p
  | _ => none

/-- The process is new, or inside `sched`. -/
def Pc.parked : Pc P → Bool
  | .forkret => true
  | .clearChan => true
  | .yield .release _ => true
  | _ => false

/-- The state is set, and `sched` comes next. -/
def Pc.leaving : Pc P → Bool
  | .sleepSched => true
  | .yield .sched _ => true
  | _ => false

def Outer.owns : Outer P → Bool
  | .user own => own
  | .acquiresleep => false
  | .releasesleep => true
  | .holdingsleep own => own
  | .kill own _ _ => own

/-- The process owns the sleep-lock: from `lk->locked = 1` to `lk->locked = 0`. -/
def Pc.owns : Pc P → Bool
  | .outer o => o.owns
  | .yield _ o => o.owns
  | .sret o => o.owns
  | .setPid => true
  | .acquireEnd => true
  | .clearLocked => true
  | .holdTest own => own
  | .holdEnd own _ => own
  | .killTest own _ _ _ => own
  | .killUnlock own _ => own
  | _ => false

/-- The process has found the sleep-lock taken and still holds `lk->lk`. -/
def Pc.checked : Pc P → Bool
  | .sleepAcquire => true
  | .sleepRelease => true
  | _ => false

/-- The process has found the sleep-lock free, or has freed it, and still holds `lk->lk`. -/
def Pc.vacant : Pc P → Bool
  | .setLocked => true
  | .clearPid => true
  | _ => false

/-- The process has given up `lk->lk` and is about to sleep. -/
def Pc.falling : Pc P → Bool
  | .setChan => true
  | .setSleeping => true
  | .sleepSched => true
  | _ => false

/-- The process is on its way to wake `x`. -/
def Pc.Wakes (x : P) : Pc P → Prop
  | .clearPid => True
  | .wakeup todo => x ∈ todo
  | .wakeTest y todo => x = y ∨ x ∈ todo
  | .wakeUnlock _ todo => x ∈ todo
  | _ => False

/-- The process owns the sleep-lock, and `lk->pid` is set. -/
def Pc.named : Pc P → Bool
  | .setPid => false
  | k => k.owns

section Places

attribute [local simp] Pc.locks Pc.parked Pc.leaving Pc.checked Pc.vacant Pc.falling Pc.Wakes

theorem Pc.locks_nodup (p : P) (k : Pc P) : (k.locks p).Nodup := by
  rcases k with o | ⟨y, o⟩ <;> try cases y
  all_goals simp

theorem Pc.lk_of_wakes {x p : P} {k : Pc P} (h : k.Wakes x) : Lock.lk ∈ k.locks p := by
  cases k <;> simp at h ⊢

theorem Pc.lk_of_checked {p : P} {k : Pc P} (h : k.checked = true) : Lock.lk ∈ k.locks p := by
  cases k <;> simp at h ⊢

theorem Pc.lk_of_vacant {p : P} {k : Pc P} (h : k.vacant = true) : Lock.lk ∈ k.locks p := by
  cases k <;> simp at h ⊢

theorem Pc.own_of_falling {p : P} {k : Pc P} (h : k.falling = true) : k.locks p = [.proc p] := by
  cases k <;> simp at h ⊢

theorem Pc.own_of_leaving {p : P} {k : Pc P} (h : k.leaving = true) : k.locks p = [.proc p] := by
  rcases k with o | ⟨y, o⟩ <;> try cases y
  all_goals simp at h ⊢

theorem Pc.own_of_parked {p : P} {k : Pc P} (h : k.parked = true) : k.locks p = [.proc p] := by
  rcases k with o | ⟨y, o⟩ <;> try cases y
  all_goals simp at h ⊢

theorem Pc.not_leaving_of_parked {k : Pc P} (h : k.parked = true) : k.leaving = false := by
  rcases k with o | ⟨y, o⟩ <;> try cases y
  all_goals simp at h ⊢

end Places

/-! ## What an instruction does to them -/

section Tables

variable [DecidableEq P] {procs : List P} {p : P} {locked mine : Bool} {k : Pc P} {i : Instr P}
  {x : P}

/-- The instruction is about a spin-lock. -/
def Instr.isLock : Instr P → Bool
  | .acquire _ => true
  | .release _ => true
  | _ => false

/-- The instruction writes a field of the sleep-lock. -/
def Instr.isWrite : Instr P → Bool
  | .setLocked _ => true
  | .setPid _ => true
  | _ => false

/-- At place `k`, process `p` carries out `i`: the lines of `Pc.instr`. -/
inductive Pc.Runs (p : P) : Pc P → Instr P → Prop
  | acquiresleep : Runs p (.outer .acquiresleep) (.acquire .lk)
  | releasesleep : Runs p (.outer .releasesleep) (.acquire .lk)
  | holdingsleep (own : Bool) : Runs p (.outer (.holdingsleep own)) (.acquire .lk)
  | killDone (own : Bool) (target : Option P) : Runs p (.outer (.kill own target [])) .branch
  | kill (own : Bool) (target : Option P) (x : P) (todo : List P) :
      Runs p (.outer (.kill own target (x :: todo))) (.acquire (.proc x))
  | yieldAcquire (o : Outer P) : Runs p (.yield .acquire o) (.acquire (.proc p))
  | yieldSetState (o : Outer P) : Runs p (.yield .setState o) (.setState .runnable)
  | yieldSched (o : Outer P) : Runs p (.yield .sched o) .sched
  | yieldRelease (o : Outer P) : Runs p (.yield .release o) (.release (.proc p))
  | forkret : Runs p .forkret (.release (.proc p))
  | test : Runs p .test .branch
  | sleepAcquire : Runs p .sleepAcquire (.acquire (.proc p))
  | sleepRelease : Runs p .sleepRelease (.release .lk)
  | setChan : Runs p .setChan (.setChan true)
  | setSleeping : Runs p .setSleeping (.setState .sleeping)
  | sleepSched : Runs p .sleepSched .sched
  | clearChan : Runs p .clearChan (.setChan false)
  | sleepUnlock : Runs p .sleepUnlock (.release (.proc p))
  | setLocked : Runs p .setLocked (.setLocked true)
  | setPid : Runs p .setPid (.setPid (some p))
  | acquireEnd : Runs p .acquireEnd (.release .lk)
  | clearLocked : Runs p .clearLocked (.setLocked false)
  | clearPid : Runs p .clearPid (.setPid none)
  | wakeupDone : Runs p (.wakeup []) (.release .lk)
  | wakeup (x : P) (todo : List P) : Runs p (.wakeup (x :: todo)) (.acquire (.proc x))
  | wakeTest (x : P) (todo : List P) : Runs p (.wakeTest x todo) (.wakeIf x)
  | wakeUnlock (x : P) (todo : List P) : Runs p (.wakeUnlock x todo) (.release (.proc x))
  | holdTest (own : Bool) : Runs p (.holdTest own) .branch
  | holdEnd (own r : Bool) : Runs p (.holdEnd own r) (.release .lk)
  | killHit (own : Bool) (x : P) (todo : List P) : Runs p (.killTest own (some x) x todo) (.killIf x)
  | killMiss (own : Bool) (target : Option P) (x : P) (todo : List P) (h : target ≠ some x) :
      Runs p (.killTest own target x todo) (.release (.proc x))
  | killUnlock (own : Bool) (x : P) : Runs p (.killUnlock own x) (.release (.proc x))
  | sret (o : Outer P) : Runs p (.sret o) .sret

theorem Pc.runs (h : k.instr p = some i) : Pc.Runs p k i := by
  unfold Pc.instr at h
  split at h
  case h_31 own target x todo =>
    by_cases ht : target = some x
    · subst ht
      rw [if_pos rfl] at h
      cases h
      exact .killHit own x todo
    · rw [if_neg ht] at h
      cases h
      exact .killMiss own target x todo ht
  all_goals cases h <;> constructor

@[simp] theorem Pc.next_killHit {own : Bool} {todo : List P} :
    Pc.next procs p locked mine (.killTest own (some x) x todo) = .killUnlock own x :=
  if_pos rfl

theorem Pc.next_killMiss {own : Bool} {target : Option P} {todo : List P} (h : target ≠ some x) :
    Pc.next procs p locked mine (.killTest own target x todo) = .outer (.kill own target todo) :=
  if_neg h

theorem Pc.locks_acquire {l : Lock P} (h : k.instr p = some (.acquire l)) :
    (k.next procs p locked mine).locks p = l :: k.locks p := by
  cases Pc.runs h <;> rfl

theorem Pc.locks_release {l : Lock P} (h : k.instr p = some (.release l)) :
    (k.locks p).Perm (l :: (k.next procs p locked mine).locks p) := by
  cases Pc.runs h with
  | sleepRelease => exact List.Perm.swap _ _ _
  | killMiss own target x todo ht => rw [Pc.next_killMiss ht]; exact .refl _
  | _ => exact .refl _

theorem Pc.locks_same (h : k.instr p = some i) (hi : i.isLock = false) :
    (k.next procs p locked mine).locks p = k.locks p := by
  cases Pc.runs h with
  | test => cases locked <;> rfl
  | killHit own x todo => rw [Pc.next_killHit]; rfl
  | _ => first | rfl | cases hi

theorem Pc.locks_sret (h : k.instr p = some .sret) : k.locks p = [] := by
  cases Pc.runs h
  rfl

/-- `sched` is called at the places that leave. -/
theorem Pc.leaving_iff (h : k.instr p = some i) : k.leaving = true ↔ i = .sched := by
  cases Pc.runs h with
  | yieldSched | sleepSched => exact ⟨fun _ => rfl, fun _ => rfl⟩
  | _ => exact ⟨nofun, nofun⟩

theorem Pc.parked_of_sched (h : k.instr p = some .sched) :
    (k.next procs p locked mine).parked = true := by
  cases Pc.runs h <;> rfl

/-- A process leaves only after an assignment to its state. -/
theorem Pc.leaving_next (h : k.instr p = some i) (hl : (k.next procs p locked mine).leaving = true) :
    ∃ st, i = .setState st := by
  cases Pc.runs h with
  | test => cases locked <;> cases hl
  | killHit own x todo => rw [Pc.next_killHit] at hl; cases hl
  | killMiss own target x todo ht => rw [Pc.next_killMiss ht] at hl; cases hl
  | _ => first | exact ⟨_, rfl⟩ | cases hl

theorem Pc.setState_cases {st : ProcState} (h : k.instr p = some (.setState st)) :
    (k = .setSleeping ∧ st = .sleeping) ∨ (∃ o, k = .yield .setState o ∧ st = .runnable) := by
  cases Pc.runs h with
  | setSleeping => exact .inl ⟨rfl, rfl⟩
  | yieldSetState o => exact .inr ⟨o, rfl, rfl⟩

theorem Pc.setLocked_cases {b : Bool} (h : k.instr p = some (.setLocked b)) :
    (k = .setLocked ∧ b = true) ∨ (k = .clearLocked ∧ b = false) := by
  cases Pc.runs h with
  | setLocked => exact .inl ⟨rfl, rfl⟩
  | clearLocked => exact .inr ⟨rfl, rfl⟩

theorem Pc.setPid_cases {q : Option P} (h : k.instr p = some (.setPid q)) :
    (k = .setPid ∧ q = some p) ∨ (k = .clearPid ∧ q = none) := by
  cases Pc.runs h with
  | setPid => exact .inl ⟨rfl, rfl⟩
  | clearPid => exact .inr ⟨rfl, rfl⟩

theorem Pc.setChan_cases {b : Bool} (h : k.instr p = some (.setChan b)) :
    (k = .setChan ∧ b = true) ∨ (k = .clearChan ∧ b = false) := by
  cases Pc.runs h with
  | setChan => exact .inl ⟨rfl, rfl⟩
  | clearChan => exact .inr ⟨rfl, rfl⟩

/-- A process that sets another one's state holds its lock. -/
theorem Pc.proc_of_wake (h : k.instr p = some (.wakeIf x) ∨ k.instr p = some (.killIf x)) :
    Lock.proc x ∈ k.locks p := by
  rcases h with h | h
  · cases Pc.runs h with
    | wakeTest _ todo => exact List.mem_cons_self
  · cases Pc.runs h with
    | killHit own _ todo => exact List.mem_cons_self

/-- A process starts to fall asleep after it has found the sleep-lock taken. -/
theorem Pc.falling_next (h : k.instr p = some i) (hf : (k.next procs p locked mine).falling = true) :
    k.falling = true ∨ k.checked = true := by
  cases Pc.runs h with
  | sleepRelease => exact .inr rfl
  | setChan | setSleeping => exact .inl rfl
  | test => cases locked <;> cases hf
  | killHit own x todo => rw [Pc.next_killHit] at hf; cases hf
  | killMiss own target x todo ht => rw [Pc.next_killMiss ht] at hf; cases hf
  | _ => cases hf

/-- A `wakeup` stays on its way to `x` until it looks at the state of `x`. -/
theorem Pc.wakes_next (h : k.instr p = some i) (hx : x ∈ procs) (hxp : x ≠ p) (hw : k.Wakes x) :
    (k.next procs p locked mine).Wakes x ∨ i = .wakeIf x := by
  cases Pc.runs h with
  | clearPid => exact .inl (List.mem_filter.2 ⟨hx, by simpa using hxp⟩)
  | wakeupDone => cases hw
  | wakeup y todo => exact .inl (List.mem_cons.1 hw)
  | wakeTest y todo =>
    rcases hw with rfl | hw
    · exact .inr rfl
    · exact .inl hw
  | wakeUnlock y todo => exact .inl hw
  | _ => cases hw

/-- What a process keeps that goes from `k` to `k'` without a write to the sleep-lock. -/
structure Pc.Keeps (locked mine : Bool) (k k' : Pc P) : Prop where
  owns : k'.owns = k.owns
  named : k'.named = k.named
  checked : k'.checked = true → k.checked = true ∨ locked = true
  vacant : k'.vacant = true → locked = false
  result : ∀ own r, k' = .holdEnd own r → k = .holdTest own ∧ r = (locked && mine)

theorem Pc.keeps_next (h : k.instr p = some i) (hi : i.isWrite = false) :
    Pc.Keeps locked mine k (k.next procs p locked mine) := by
  cases Pc.runs h with
  | test => cases locked <;> constructor <;> simp [Pc.next, Pc.owns, Pc.named, Pc.checked, Pc.vacant]
  | killMiss own target x todo ht =>
    rw [Pc.next_killMiss ht]
    constructor <;> simp [Pc.owns, Outer.owns, Pc.named, Pc.checked, Pc.vacant]
  | setLocked | clearLocked | setPid | clearPid => cases hi
  | _ => constructor <;> simp [Pc.next, Pc.owns, Outer.owns, Pc.named, Pc.checked, Pc.vacant]

omit [DecidableEq P] in
theorem Pc.keeps_call {f : Call P} {o o' : Outer P} (h : f.start procs o = some o') :
    Pc.Keeps locked mine (.outer o) (.outer o') := by
  have howns : o'.owns = o.owns := by
    unfold Call.start at h
    split at h <;> cases h <;> rfl
  constructor <;> simp [Pc.owns, Pc.named, Pc.checked, Pc.vacant, howns]

omit [DecidableEq P] in
theorem Pc.keeps_timer (o : Outer P) :
    Pc.Keeps locked mine (.outer o) (.yield .acquire o) := by
  constructor <;> simp [Pc.owns, Pc.named, Pc.checked, Pc.vacant]

end Tables

/-! ## The spin-locks -/

structure Locks (s : State C P) : Prop where
  held : Held s.lock s.holding
  noff : ∀ c, (s.intr c).noff = (s.holding c).length
  off : ∀ c, 0 < (s.intr c).noff → (s.intr c).sie = false

theorem holding_setCtx [DecidableEq C] (s : State C P) (c : C) (x : Ctx P) :
    (s.setCtx c x).holding = update s.holding c (x.locks s.pc) := by
  funext d
  by_cases hd : d = c
  · subst hd
    simp [State.holding, State.setCtx]
  · simp [State.holding, State.setCtx, hd]

/-- A process that moves changes what its own CPU holds. -/
theorem holding_goto [DecidableEq C] [DecidableEq P] {s : State C P} {c : C} {p : P} (hc : s.ctx c = .running p)
    (halone : ∀ d, s.ctx d = .running p → d = c) (k : Pc P) :
    (s.goto p k).holding = update s.holding c (k.locks p) := by
  funext d
  by_cases hd : d = c
  · subst hd
    simp [State.holding, State.goto, Ctx.locks, hc]
  · rw [update_of_ne hd]
    simp only [State.holding, State.goto]
    cases hx : s.ctx d with
    | running q =>
      have hqp : q ≠ p := by
        rintro rfl
        exact hd (halone d hx)
      simp [Ctx.locks, hqp]
    | _ => rfl

namespace Locks

variable {s t : State C P} {c : C} {l : Lock P}

theorem of_same (h : Locks s) (hl : t.lock = s.lock) (hi : t.intr = s.intr)
    (hh : t.holding = s.holding) : Locks t := by
  constructor
  · rw [hl, hh]
    exact h.held
  · rw [hi, hh]
    exact h.noff
  · rw [hi]
    exact h.off

/-- The interrupt state of a CPU changes along with what it holds. -/
theorem of_intr [DecidableEq C] {i : Intr} {ls : List (Lock P)} (h : Locks s)
    (hheld : Held t.lock t.holding) (hi : t.intr = update s.intr c i)
    (hh : t.holding = update s.holding c ls) (hnoff : i.noff = ls.length)
    (hoff : 0 < i.noff → i.sie = false) : Locks t := by
  refine ⟨hheld, fun d => ?_, fun d => ?_⟩
  · rw [hi, hh]
    by_cases hd : d = c
    · subst hd
      simpa using hnoff
    · simpa [hd] using h.noff d
  · rw [hi]
    by_cases hd : d = c
    · subst hd
      simpa using hoff
    · simpa [hd] using h.off d

/-- The interrupt state of a CPU changes, apart from `noff`. -/
theorem of_same_noff [DecidableEq C] {i : Intr} (h : Locks s) (hl : t.lock = s.lock)
    (hi : t.intr = update s.intr c i) (hh : t.holding = s.holding)
    (hnoff : i.noff = (s.intr c).noff) (hoff : 0 < i.noff → i.sie = false) : Locks t := by
  have hself : t.holding = update s.holding c (s.holding c) := by rw [hh, update_eq_self]
  refine h.of_intr ?_ hi hself (hnoff.trans (h.noff c)) hoff
  rw [hl, hh]
  exact h.held

/-- Interrupts are turned on where nothing is held. -/
theorem of_on [DecidableEq C] (h : Locks s) (hl : t.lock = s.lock)
    (hi : t.intr = update s.intr c { s.intr c with sie := true })
    (hh : t.holding = s.holding) (hnil : s.holding c = []) : Locks t := by
  refine h.of_same_noff hl hi hh rfl fun hpos => ?_
  have hzero : (s.intr c).noff = 0 := by rw [h.noff, hnil, List.length_nil]
  exact absurd hpos (by simp [hzero])

theorem of_take [DecidableEq C] [DecidableEq P] (h : Locks s) (hfree : s.lock l = none)
    (hl : t.lock = update s.lock l (some c))
    (hi : t.intr = update s.intr c ((s.intr c).pushOff (s.intr c).sie))
    (hh : t.holding = update s.holding c (l :: s.holding c)) : Locks t := by
  refine h.of_intr ?_ hi hh ?_ (fun _ => rfl)
  · rw [hl, hh]
    exact h.held.acquire hfree c
  · simp [Intr.pushOff, h.noff]

theorem of_drop [DecidableEq C] [DecidableEq P] {ls : List (Lock P)} (h : Locks s)
    (hls : (s.holding c).Perm (l :: ls)) (hl : t.lock = update s.lock l none)
    (hi : t.intr = update s.intr c (s.intr c).popped)
    (hh : t.holding = update s.holding c ls) : Locks t := by
  have hnoff : (s.intr c).noff = ls.length + 1 := by rw [h.noff, hls.length_eq, List.length_cons]
  refine h.of_intr ?_ hi hh ?_ (Intr.popped_sie (h.off c (by omega)))
  · rw [hl, hh]
    exact h.held.release hls
  · simp [Intr.popped, hnoff]

end Locks

/-! ## Processes on CPUs -/

structure Placed (s : State C P) : Prop where
  alone : ∀ c d p, (s.ctx c).active = some p → (s.ctx d).active = some p → c = d
  parked : ∀ p, (∀ c, s.ctx c ≠ .running p) → (s.pc p).parked = true
  active : ∀ c p, (s.ctx c).active = some p → s.pstate p = .running ∨ (s.pc p).leaving = true
  leaving : ∀ p, (s.pc p).leaving = true → s.pstate p ≠ .running

section Placed

variable {s t : State C P} {c d : C} {p q x : P}

theorem Placed.alone_running (h : Placed s) (hc : s.ctx c = .running p)
    (hd : s.ctx d = .running p) : d = c :=
  h.alone d c p (by rw [hd]; rfl) (by rw [hc]; rfl)

/-- A process that is not about to leave is `RUNNING` while it runs. -/
theorem Placed.running (h : Placed s) (hc : s.ctx c = .running p) (hk : (s.pc p).leaving = false) :
    s.pstate p = .running := by
  have hact : (s.ctx c).active = some p := by
    rw [hc]
    rfl
  rcases h.active c p hact with hp | hl
  · exact hp
  · rw [hk] at hl
    cases hl

/-- A process at a place that is not parked runs on some CPU. -/
theorem Placed.exists_cpu (h : Placed s) (hp : (s.pc p).locks p ≠ [.proc p]) :
    ∃ c, s.ctx c = .running p := by
  by_contra hno
  push Not at hno
  exact hp (Pc.own_of_parked (h.parked p hno))

/-- The lock of a process that runs or is about to run, but is not `RUNNING`, is held by its CPU. -/
theorem Placed.own_of_active (h : Placed s) (hd : (s.ctx d).active = some p)
    (hp : s.pstate p ≠ .running) : Lock.proc p ∈ s.holding d := by
  have hl : (s.pc p).leaving = true := (h.active d p hd).resolve_left hp
  unfold State.holding
  cases hx : s.ctx d with
  | running q =>
    rw [hx] at hd
    cases hd
    simp [Ctx.locks, Pc.own_of_leaving hl]
  | switching q =>
    rw [hx] at hd
    cases hd
    simp [Ctx.locks]
  | _ =>
    rw [hx] at hd
    cases hd

theorem Locks.excl (h : Locks s) {l : Lock P} (hc : l ∈ s.holding c) (hd : l ∈ s.holding d) :
    c = d := h.held.excl hc hd

/-- While a CPU holds the lock of `x`, `x` is `RUNNING` or runs there. -/
theorem Placed.not_active (h : Placed s) (hl : Locks s) (hc : Lock.proc x ∈ s.holding c)
    (hx : s.pstate x ≠ .running) (hcx : (s.ctx c).active ≠ some x) (d : C) :
    (s.ctx d).active ≠ some x := by
  intro hd
  have hcd : c = d := hl.excl hc (h.own_of_active hd hx)
  rw [hcd] at hcx
  exact hcx hd

/-- A step of process `p` that stays on its CPU. -/
theorem Placed.of_proc [DecidableEq P] {k : Pc P} (h : Placed s) (hc : s.ctx c = .running p) (hctx : t.ctx = s.ctx)
    (hpc : t.pc = update s.pc p k)
    (hp : k.leaving = false ∧ t.pstate p = .running ∨ k.leaving = true ∧ t.pstate p ≠ .running)
    (hother : ∀ q, q ≠ p → t.pstate q = s.pstate q
      ∨ t.pstate q = .runnable ∧ ∀ d, (s.ctx d).active ≠ some q) : Placed t := by
  constructor
  · rw [hctx]
    exact h.alone
  · intro q hq
    rw [hctx] at hq
    have hqp : q ≠ p := by
      rintro rfl
      exact hq c hc
    rw [hpc, update_of_ne hqp]
    exact h.parked q hq
  · intro d q hd
    rw [hctx] at hd
    by_cases hqp : q = p
    · subst hqp
      rw [hpc, update_self]
      rcases hp with hp | hp
      · exact .inl hp.2
      · exact .inr hp.1
    · rw [hpc, update_of_ne hqp]
      rcases hother q hqp with hsame | ⟨-, hno⟩
      · rw [hsame]
        exact h.active d q hd
      · exact absurd hd (hno d)
  · intro q hq
    by_cases hqp : q = p
    · subst hqp
      rw [hpc, update_self] at hq
      rcases hp with hp | hp
      · rw [hp.1] at hq
        cases hq
      · exact hp.2
    · rw [hpc, update_of_ne hqp] at hq
      rcases hother q hqp with hsame | ⟨hrun, -⟩
      · rw [hsame]
        exact h.leaving q hq
      · rw [hrun]
        decide

/-- A step of a CPU that leaves its process, or the process it looked at. -/
theorem Placed.of_inactive [DecidableEq C] {y : Ctx P} (h : Placed s) (hctx : t.ctx = update s.ctx c y)
    (hy : y.active = none) (hpstate : t.pstate = s.pstate) (hpc : t.pc = s.pc)
    (hrun : ∀ q, s.ctx c ≠ .running q) : Placed t := by
  have hact : ∀ d q, (t.ctx d).active = some q → (s.ctx d).active = some q := by
    intro d q hd
    rw [hctx] at hd
    by_cases hdc : d = c
    · rw [hdc, update_self, hy] at hd
      cases hd
    · rwa [update_of_ne hdc] at hd
  constructor
  · intro d e q hd he
    exact h.alone d e q (hact d q hd) (hact e q he)
  · intro q hq
    rw [hpc]
    apply h.parked q
    intro d hd
    by_cases hdc : d = c
    · exact hrun q (hdc ▸ hd)
    · exact hq d (by rw [hctx, update_of_ne hdc, hd])
  · intro d q hd
    rw [hpstate, hpc]
    exact h.active d q (hact d q hd)
  · rw [hpstate, hpc]
    exact h.leaving

end Placed

variable [DecidableEq C] [DecidableEq P] {procs : List P}

/-- The scheduler of `c` starts a process whose lock it holds. -/
theorem Placed.choose {s : State C P} {c : C} {p : P} (h : Placed s) (hl : Locks s)
    (hc : s.ctx c = .locked p) (hp : s.pstate p = .runnable) :
    Placed ((s.setPstate p .running).setCtx c (.switching p)) := by
  have hnot : ∀ d, (s.ctx d).active ≠ some p := by
    apply h.not_active hl (c := c)
    · simp [State.holding, hc, Ctx.locks]
    · simp [hp]
    · simp [hc, Ctx.active]
  have hparked : (s.pc p).parked = true := by
    apply h.parked p
    intro d hd
    exact hnot d (by rw [hd]; rfl)
  -- every other CPU is as before, and `c` had no process
  have hact : ∀ d q, (((s.setPstate p .running).setCtx c (.switching p)).ctx d).active = some q →
      d = c ∧ q = p ∨ d ≠ c ∧ q ≠ p ∧ (s.ctx d).active = some q := by
    intro d q hd
    by_cases hdc : d = c
    · subst hdc
      simp only [State.setCtx, update_self, Ctx.active, Option.some.injEq] at hd
      exact .inl ⟨rfl, hd.symm⟩
    · simp only [State.setCtx, State.setPstate, update_of_ne hdc] at hd
      have hqp : q ≠ p := by
        rintro rfl
        exact hnot d hd
      exact .inr ⟨hdc, hqp, hd⟩
  constructor
  · intro d e q hd he
    rcases hact d q hd with ⟨rfl, rfl⟩ | ⟨-, hqp, hd⟩
    · rcases hact e q he with ⟨rfl, -⟩ | ⟨-, hne, -⟩
      · rfl
      · exact absurd rfl hne
    · rcases hact e q he with ⟨-, rfl⟩ | ⟨-, -, he⟩
      · exact absurd rfl hqp
      · exact h.alone d e q hd he
  · intro q hq
    by_cases hqp : q = p
    · exact hqp ▸ hparked
    · apply h.parked q
      intro d hd
      have hdc : d ≠ c := by
        rintro rfl
        rw [hc] at hd
        cases hd
      exact hq d (by simp [State.setCtx, State.setPstate, hdc, hd])
  · intro d q hd
    rcases hact d q hd with ⟨-, rfl⟩ | ⟨-, hqp, hd⟩
    · exact .inl (by simp [State.setCtx, State.setPstate])
    · simpa [State.setCtx, State.setPstate, hqp] using h.active d q hd
  · intro q hq
    by_cases hqp : q = p
    · subst hqp
      have := Pc.not_leaving_of_parked hparked
      simp [State.setCtx, State.setPstate, this] at hq
    · simpa [State.setCtx, State.setPstate, hqp] using h.leaving q hq

omit [DecidableEq P] in
theorem Placed.switch {s : State C P} {c : C} {p : P} (h : Placed s)
    (hc : s.ctx c = .switching p) : Placed (s.resume c p) := by
  have hact : ∀ d, ((s.resume c p).ctx d).active = (s.ctx d).active := by
    intro d
    by_cases hdc : d = c
    · subst hdc
      simp [State.resume, State.setIntr, State.setCtx, hc, Ctx.active]
    · simp [State.resume, State.setIntr, State.setCtx, hdc]
  constructor
  · intro d e q hd he
    rw [hact] at hd he
    exact h.alone d e q hd he
  · intro q hq
    apply h.parked q
    intro d hd
    have hdc : d ≠ c := by
      rintro rfl
      rw [hc] at hd
      cases hd
    exact hq d (by simp [State.resume, State.setIntr, State.setCtx, hdc, hd])
  · intro d q hd
    rw [hact] at hd
    exact h.active d q hd
  · exact h.leaving

/-- `sched` leaves the CPU to the scheduler. -/
theorem Placed.sched {s : State C P} {c : C} {p : P} {k : Pc P} (h : Placed s)
    (hc : s.ctx c = .running p) (hk : k.parked = true) :
    Placed ((s.leave c p).goto p k) := by
  have hact : ∀ d q, (((s.leave c p).goto p k).ctx d).active = some q →
      d ≠ c ∧ q ≠ p ∧ (s.ctx d).active = some q := by
    intro d q hd
    by_cases hdc : d = c
    · subst hdc
      simp [State.leave, State.setCtx, State.goto, Ctx.active] at hd
    · simp only [State.leave, State.setCtx, State.goto, update_of_ne hdc] at hd
      have hqp : q ≠ p := by
        rintro rfl
        exact hdc (h.alone d c q hd (by rw [hc]; rfl))
      exact ⟨hdc, hqp, hd⟩
  constructor
  · intro d e q hd he
    exact h.alone d e q (hact d q hd).2.2 (hact e q he).2.2
  · intro q hq
    by_cases hqp : q = p
    · subst hqp
      simpa [State.goto] using hk
    · simp only [State.goto, update_of_ne hqp]
      apply h.parked q
      intro d hd
      have hdc : d ≠ c := by
        rintro rfl
        rw [hc] at hd
        cases hd
        exact hqp rfl
      exact hq d (by simp [State.leave, State.setCtx, State.goto, hdc, hd])
  · intro d q hd
    obtain ⟨-, hqp, hd⟩ := hact d q hd
    simpa [State.goto, State.leave, State.setCtx, hqp] using h.active d q hd
  · intro q hq
    by_cases hqp : q = p
    · subst hqp
      simp [State.goto, Pc.not_leaving_of_parked hk] at hq
    · simp only [State.goto, update_of_ne hqp] at hq
      exact h.leaving q hq

structure Inv (s : State C P) : Prop where
  locks : Locks s
  placed : Placed s

section Inv

variable {s t : State C P} {c d : C} {p q x : P}

omit [DecidableEq C] [DecidableEq P] in
theorem holding_running (hc : s.ctx c = .running p) : s.holding c = (s.pc p).locks p := by
  simp [State.holding, hc, Ctx.locks]

theorem Inv.holding_goto (h : Inv s) (hc : s.ctx c = .running p) (k : Pc P) :
    (s.goto p k).holding = update s.holding c (k.locks p) :=
  SleepLock.holding_goto hc (fun _ hd => h.placed.alone_running hc hd) k

/-- A move to a place with the same spin-locks. -/
theorem Inv.holding_goto_same (h : Inv s) (hc : s.ctx c = .running p) {k : Pc P}
    (hk : k.locks p = (s.pc p).locks p) : (s.goto p k).holding = s.holding := by
  rw [h.holding_goto hc k, hk, ← holding_running hc, update_eq_self]

theorem locks_step (h : Inv s) (hs : Step procs s t) : Locks t := by
  cases hs with
  | pick c p hc hl =>
    refine h.locks.of_take (c := c) hl rfl rfl ?_
    have hnil : s.holding c = [] := by simp [State.holding, hc, Ctx.locks]
    rw [holding_setCtx, hnil]
    rfl
  | choose c p hc hp =>
    refine h.locks.of_same rfl rfl ?_
    have hown : s.holding c = [.proc p] := by simp [State.holding, hc, Ctx.locks]
    rw [holding_setCtx]
    exact update_eq_self_iff.2 hown.symm
  | leave c p hc =>
    have hown : s.holding c = [.proc p] := by
      rcases hc with hc | hc <;> simp [State.holding, hc, Ctx.locks]
    refine h.locks.of_drop (c := c) (by rw [hown]) rfl rfl ?_
    rw [holding_setCtx]
    rfl
  | switch c p hc =>
    refine h.locks.of_same_noff (c := c) rfl rfl ?_ rfl (h.locks.off c)
    have hown : s.holding c = [.proc p] := by simp [State.holding, hc, Ctx.locks]
    have hparked : (s.pc p).parked = true := by
      apply h.placed.parked p
      intro d hd
      have hdc : d = c := h.placed.alone d c p (by rw [hd]; rfl) (by rw [hc]; rfl)
      rw [hdc, hc] at hd
      cases hd
    refine (holding_setCtx _ c _).trans (update_eq_self_iff.2 ?_)
    exact (Pc.own_of_parked hparked).trans hown.symm
  | intrOn c hc =>
    have hnil : s.holding c = [] := by simp [State.holding, hc, Ctx.locks]
    exact h.locks.of_on (c := c) rfl rfl rfl hnil
  | call c p f o o' hc hpc ho =>
    exact h.locks.of_same rfl rfl (h.holding_goto_same hc (by rw [hpc]; rfl))
  | timer c p o hc hpc hsie =>
    refine h.locks.of_same_noff (c := c) rfl rfl ?_ rfl (fun _ => rfl)
    exact h.holding_goto_same hc (by rw [hpc]; rfl)
  | sret c p hc hi =>
    have hsame : (s.nextPc procs p).locks p = (s.pc p).locks p := Pc.locks_same hi rfl
    have hnil : s.holding c = [] := by rw [holding_running hc, Pc.locks_sret hi]
    exact h.locks.of_on (c := c) rfl rfl (h.holding_goto_same hc hsame) hnil
  | acquire c p l hc hi hl =>
    have hnext : (s.nextPc procs p).locks p = l :: s.holding c := by
      rw [holding_running hc]
      exact Pc.locks_acquire hi
    refine h.locks.of_take (c := c) hl rfl rfl ?_
    rw [← hnext]
    exact h.holding_goto hc _
  | release c p l hc hi =>
    refine h.locks.of_drop (c := c) ?_ rfl rfl (h.holding_goto hc _)
    rw [holding_running hc]
    exact Pc.locks_release hi
  | setLocked _ _ _ hc hi | setPid _ _ _ hc hi | setChan _ _ _ hc hi | setState _ _ _ hc hi =>
    exact h.locks.of_same rfl rfl (h.holding_goto_same hc (Pc.locks_same hi rfl))
  | wake c p x hc hi hx =>
    have hsame : (s.nextPc procs p).locks p = (s.pc p).locks p := by
      rcases hi with hi | hi <;> exact Pc.locks_same hi rfl
    exact h.locks.of_same rfl rfl (h.holding_goto_same hc hsame)
  | idle c p i hc hi hidle =>
    have hlock : i.isLock = false := by
      cases i <;> first | rfl | cases hidle
    exact h.locks.of_same rfl rfl (h.holding_goto_same hc (Pc.locks_same hi hlock))
  | sched c p hc hi =>
    refine h.locks.of_same rfl rfl ?_
    have hown : (s.pc p).locks p = [.proc p] :=
      Pc.own_of_leaving ((Pc.leaving_iff hi).2 rfl)
    have hnext : (s.nextPc procs p).locks p = (s.pc p).locks p := Pc.locks_same hi rfl
    have hback : ((s.goto p (s.nextPc procs p)).setCtx c (.back p)).holding
        = update s.holding c [.proc p] := by
      rw [holding_setCtx, h.holding_goto_same hc hnext]
      rfl
    rw [← hown, ← holding_running hc, update_eq_self] at hback
    exact hback

omit [DecidableEq C] in
/-- A process is `RUNNING` until it comes to `sched`. -/
theorem Inv.running_of_instr {i : Instr P} (h : Inv s) (hc : s.ctx c = .running p)
    (hi : (s.pc p).instr p = some i) (hsched : i ≠ .sched) : s.pstate p = .running := by
  apply h.placed.running hc
  by_contra hl
  rw [Bool.not_eq_false] at hl
  exact hsched ((Pc.leaving_iff hi).1 hl)

omit [DecidableEq C] in
theorem Inv.not_leaving_next {i : Instr P} (hi : (s.pc p).instr p = some i)
    (hstate : ∀ st, i ≠ .setState st) : (s.nextPc procs p).leaving = false := by
  by_contra hl
  rw [Bool.not_eq_false] at hl
  obtain ⟨st, hst⟩ := Pc.leaving_next hi hl
  exact hstate st hst

omit [DecidableEq C] in
/-- An instruction of process `p` that leaves all states as they are. -/
theorem Inv.placed_instr {i : Instr P} (h : Inv s) (hc : s.ctx c = .running p)
    (hi : (s.pc p).instr p = some i) (hsched : i ≠ .sched) (hstate : ∀ st, i ≠ .setState st)
    (hctx : t.ctx = s.ctx) (hpc : t.pc = update s.pc p (s.nextPc procs p))
    (hpstate : t.pstate = s.pstate) : Placed t := by
  refine h.placed.of_proc hc hctx hpc (.inl ⟨Inv.not_leaving_next hi hstate, ?_⟩) ?_
  · rw [hpstate]
    exact h.running_of_instr hc hi hsched
  · intro q _
    exact .inl (by rw [hpstate])

theorem placed_step (h : Inv s) (hs : Step procs s t) : Placed t := by
  cases hs with
  | pick c p hc hl => exact h.placed.of_inactive rfl rfl rfl rfl (by simp [hc])
  | choose c p hc hp => exact h.placed.choose h.locks hc hp
  | leave c p hc =>
    refine h.placed.of_inactive rfl rfl rfl rfl ?_
    intro q hq
    rcases hc with hc | hc <;> simp [hc] at hq
  | switch c p hc => exact h.placed.switch hc
  | intrOn c hc =>
    have hsame : s.ctx = update s.ctx c .loop := (update_eq_self_iff.2 hc.symm).symm
    exact h.placed.of_inactive hsame rfl rfl rfl (by simp [hc])
  | call _ _ _ _ _ hc hpc | timer _ _ _ hc hpc =>
    refine h.placed.of_proc hc rfl rfl (.inl ⟨rfl, ?_⟩) (fun _ _ => .inl rfl)
    exact h.placed.running hc (by rw [hpc]; rfl)
  | acquire _ _ _ hc hi | release _ _ _ hc hi | setLocked _ _ _ hc hi | setPid _ _ _ hc hi
    | setChan _ _ _ hc hi | sret _ _ hc hi => exact h.placed_instr hc hi (by simp) (by simp) rfl rfl rfl
  | setState c p st hc hi =>
    refine h.placed.of_proc hc rfl rfl (.inr ?_) ?_
    · simp only [State.goto, State.setPstate, State.nextPc, update_self]
      rcases Pc.setState_cases hi with ⟨hk, rfl⟩ | ⟨o, hk, rfl⟩ <;> simp [hk, Pc.next, Pc.leaving]
    · intro q hqp
      exact .inl (by simp [State.goto, State.setPstate, hqp])
  | wake c p x hc hi hx =>
    -- `x` sleeps and `p` holds its lock, so no CPU runs `x`
    obtain ⟨i, hi', hsched, hstate⟩ : ∃ i, (s.pc p).instr p = some i ∧ i ≠ .sched ∧
        ∀ st, i ≠ .setState st := by
      rcases hi with hi | hi
      · exact ⟨_, hi, by simp, by simp⟩
      · exact ⟨_, hi, by simp, by simp⟩
    have hp : s.pstate p = .running := h.running_of_instr hc hi' hsched
    have hxp : x ≠ p := by
      rintro rfl
      rw [hp] at hx
      cases hx
    have hno : ∀ d, (s.ctx d).active ≠ some x := by
      apply h.placed.not_active h.locks (c := c)
      · rw [holding_running hc]
        exact Pc.proc_of_wake hi
      · simp [hx]
      · simp [hc, Ctx.active, hxp.symm]
    refine h.placed.of_proc hc rfl rfl (.inl ⟨Inv.not_leaving_next hi' hstate, ?_⟩) ?_
    · simpa [State.goto, State.setPstate, hxp.symm] using hp
    · intro q _
      by_cases hqx : q = x
      · subst hqx
        exact .inr ⟨by simp [State.goto, State.setPstate], hno⟩
      · exact .inl (by simp [State.goto, State.setPstate, hqx])
  | idle c p i hc hi hidle =>
    refine h.placed_instr hc hi ?_ ?_ rfl rfl rfl
    · rintro rfl
      exact hidle
    · rintro st rfl
      exact hidle
  | sched c p hc hi => exact h.placed.sched hc (Pc.parked_of_sched hi)

theorem Inv.step (h : Inv s) (hs : Step procs s t) : Inv t := ⟨locks_step h hs, placed_step h hs⟩

omit [DecidableEq C] [DecidableEq P] in
theorem Inv.init : Inv (State.init C P) := by
  constructor
  · constructor
    · constructor
      · intro l c
        simp [State.init, State.holding, Ctx.locks]
      · intro c
        simp [State.init, State.holding, Ctx.locks]
    · intro c
      rfl
    · intro c
      exact fun _ => rfl
  · constructor
    · intro c d p hc
      cases hc
    · intro p _
      rfl
    · intro c p hc
      cases hc
    · intro p hp
      cases hp

/-! ## No panic -/

theorem Locks.acquire_ne_panic {l : Lock P} {m : Panic} (h : Locks s) (hl : l ∉ s.holding c) :
    acquire s c l ≠ .panic m := by
  have hlock : s.lock l ≠ some c := fun hd => hl ((h.held.mem_iff l c).1 hd)
  exact Outcome.bind_next_ne_panic (lock_ne_panic hlock m)

theorem Locks.release_ne_panic {l : Lock P} {m : Panic} (h : Locks s) (hl : l ∈ s.holding c) :
    release s c l ≠ .panic m := by
  have hpos : 0 < (s.intr c).noff := by
    rw [h.noff]
    exact List.length_pos_of_mem hl
  have hheld : s.lock l = some c := (h.held.mem_iff l c).2 hl
  rw [release, hheld, unlock_self, Outcome.bind, Intr.popOff_eq_next hpos (h.off c hpos)]
  simp [Outcome.bind]

theorem Inv.sched_ne_panic {m : Panic} (h : Inv s) (hc : s.ctx c = .running p)
    (hl : (s.pc p).leaving = true) : sched s c p ≠ .panic m := by
  have hown : s.holding c = [.proc p] := by rw [holding_running hc, Pc.own_of_leaving hl]
  have hlock : s.lock (.proc p) = some c := (h.locks.held.mem_iff _ c).2 (by simp [hown])
  have hnoff : (s.intr c).noff = 1 := by simp [h.locks.noff, hown]
  rw [sched, hlock, schedChecks_eq_next hnoff (h.placed.leaving p hl) (h.locks.off c (by omega))]
  simp [Outcome.bind]

theorem Inv.procStep_ne_panic {m : Panic} (h : Inv s) (hc : s.ctx c = .running p) :
    procStep procs s c p ≠ .panic m := by
  unfold procStep
  split
  · next i hi =>
      apply Outcome.bind_next_ne_panic
      cases i with
      | acquire l =>
        apply h.locks.acquire_ne_panic
        have hnodup := Pc.locks_nodup p (s.nextPc procs p)
        rw [State.nextPc, Pc.locks_acquire hi] at hnodup
        rw [holding_running hc]
        exact (List.nodup_cons.1 hnodup).1
      | release l =>
        apply h.locks.release_ne_panic
        have hperm : ((s.pc p).locks p).Perm (l :: (s.nextPc procs p).locks p) :=
          Pc.locks_release hi
        rw [holding_running hc]
        exact hperm.mem_iff.2 List.mem_cons_self
      | sched => exact h.sched_ne_panic hc ((Pc.leaving_iff hi).2 rfl)
      | _ => grind [Instr.exec]
  · simp

theorem Inv.step_ne_panic {e : Event C P} {m : Panic} (h : Inv s) :
    SleepLock.step procs s e ≠ .panic m := by
  cases e with
  | pick c p =>
    simp only [SleepLock.step, ne_eq, Outcome.guard_eq_panic, not_and]
    intro hc
    apply Outcome.bind_next_ne_panic
    apply h.locks.acquire_ne_panic
    simp [State.holding, hc, Ctx.locks]
  | scheduler c =>
    simp only [SleepLock.step]
    unfold scheduler
    split
    all_goals try split
    all_goals try simp
    -- the scheduler lets go of the lock of the process
    all_goals
      apply Outcome.bind_next_ne_panic
      apply h.locks.release_ne_panic
      simp [State.holding, Ctx.locks, *]
  | call c f =>
    simp only [SleepLock.step, callStep]
    repeat' split
    all_goals simp
  | timer c =>
    simp only [SleepLock.step, timerStep]
    repeat' split
    all_goals simp
  | instr c =>
    simp only [SleepLock.step]
    split
    · next p hp => exact h.procStep_ne_panic (ctx_of_myproc hp)
    · simp

/-- No run panics: no spin-lock is acquired twice or released by another CPU, `pop_off` undoes a
`push_off` with interrupts off, and `sched` is called with the lock of the process, and no other, held
and with interrupts off. -/
theorem never_panics (es : List (Event C P)) (m : Panic) :
    run (SleepLock.step procs) (State.init C P) es ≠ .panic m :=
  run_ne_panic Inv (fun _ _ _ h hs => h.step (step_eq_next hs)) (fun _ _ h => h.step_ne_panic) es
    Inv.init

end Inv

end Xv6.SleepLock
