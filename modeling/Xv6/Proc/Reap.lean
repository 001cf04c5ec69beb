import Xv6.Proc.Tree

set_option autoImplicit false

/-! # Reaping

`Told` ties the log to the table: a process exits at most once, and `wait` returns it at most once, after
that, with the status it gave. `process_tree` puts this together with the tree of `Tree.lean`. A `wait`
that cannot copy the status out leaves the child to a later `wait`: `reapable` runs `wait` of the parent
until it returns that child. -/

namespace Xv6.Table

open Machine

variable {P : Type}

/-! ## The log -/

def Rec.isExit (i : Nat) : Rec P → Bool
  | .exited j _ => j = i
  | _ => false

def Rec.isReap (i : Nat) : Rec P → Bool
  | .reaped j _ _ => j = i
  | _ => false

structure Told (s : State P) : Prop where
  serial_lt : ∀ p, s.state p ≠ .unused → s.serial p < s.nextSerial
  serial_inj : ∀ p q, s.state p ≠ .unused → s.state q ≠ .unused → s.serial p = s.serial q → p = q
  exited_lt : ∀ i status, .exited i status ∈ s.log → i < s.nextSerial
  exited : ∀ p status, .exited (s.serial p) status ∈ s.log → s.state p ≠ .unused →
    s.state p = .zombie ∧ s.xstate p = status
  zombie : ∀ p, s.state p = .zombie → .exited (s.serial p) (s.xstate p) ∈ s.log
  reaped : ∀ p q status, .reaped (s.serial p) q status ∈ s.log → s.state p = .unused
  reaped_exited : ∀ i q status, .reaped i q status ∈ s.log → .exited i status ∈ s.log
  exit_once : ∀ i, (s.log.filter (Rec.isExit i)).length ≤ 1
  reap_once : ∀ i, (s.log.filter (Rec.isReap i)).length ≤ 1

theorem filter_isExit_eq_nil {l : List (Rec P)} {i : Nat} (h : ∀ status, .exited i status ∉ l) :
    l.filter (Rec.isExit i) = [] := by
  rw [List.filter_eq_nil_iff]
  intro r hr hexit
  cases r with
  | exited j status =>
    have hij : j = i := by simpa [Rec.isExit] using hexit
    exact h status (hij ▸ hr)
  | _ => cases hexit

theorem filter_isReap_eq_nil {l : List (Rec P)} {i : Nat} (h : ∀ q status, .reaped i q status ∉ l) :
    l.filter (Rec.isReap i) = [] := by
  rw [List.filter_eq_nil_iff]
  intro r hr hreap
  cases r with
  | reaped j q status =>
    have hij : j = i := by simpa [Rec.isReap] using hreap
    exact h q status (hij ▸ hr)
  | _ => cases hreap

section Log

variable [DecidableEq P] {procs : List P} {init : P} {s t : State P} {e : Event P}

theorem Told.serial_lt_step (hinv : Inv init s) (h : Told s) (hs : Step procs init s e t) (p : P)
    (hp : t.state p ≠ .unused) : t.serial p < t.nextSerial := by
  have hlt := h.serial_lt
  have hchild := hinv.child
  cases hs with
  | quiet w k hw hquiet => exact hlt p hp
  | _ => grind [State.woken, Pc.child]

theorem Told.serial_inj_step (hinv : Inv init s) (h : Told s) (hs : Step procs init s e t) (p q : P)
    (hp : t.state p ≠ .unused) (hq : t.state q ≠ .unused) (hpq : t.serial p = t.serial q) :
    p = q := by
  have hlt := h.serial_lt
  have hinj := h.serial_inj
  have hchild := hinv.child
  cases hs with
  | quiet w k hw hquiet => exact hinj p q hp hq hpq
  | _ => grind [State.woken, Pc.child]

theorem Told.exited_lt_step (h : Told s) (hs : Step procs init s e t) (i : Nat) (status : Int32)
    (hi : .exited i status ∈ t.log) : i < t.nextSerial := by
  have hlt := h.serial_lt
  have hpast := h.exited_lt
  cases hs with
  | quiet w k hw hquiet => exact hpast i status hi
  | _ => grind

theorem Told.exited_step (hinv : Inv init s) (h : Told s) (hs : Step procs init s e t) (p : P)
    (status : Int32) (hp : .exited (t.serial p) status ∈ t.log) (hst : t.state p ≠ .unused) :
    t.state p = .zombie ∧ t.xstate p = status := by
  have hexited := h.exited
  have hpast := h.exited_lt
  have hinj := h.serial_inj
  have hchild := hinv.child
  cases hs with
  | quiet w k hw hquiet => exact hexited p status hp hst
  | _ => grind [State.woken, Pc.child]

theorem Told.zombie_step (hinv : Inv init s) (h : Told s) (hs : Step procs init s e t) (p : P)
    (hp : t.state p = .zombie) : .exited (t.serial p) (t.xstate p) ∈ t.log := by
  have hzombie := h.zombie
  have hchild := hinv.child
  cases hs with
  | quiet w k hw hquiet => exact hzombie p hp
  | _ => grind [State.woken, Pc.child]

theorem Told.reaped_step (hinv : Inv init s) (h : Told s) (hs : Step procs init s e t) (p q : P)
    (status : Int32) (hp : .reaped (t.serial p) q status ∈ t.log) : t.state p = .unused := by
  have hreaped := h.reaped
  have hpast := h.exited_lt
  have hexit := h.reaped_exited
  have hinj := h.serial_inj
  have hchild := hinv.child
  cases hs with
  | quiet w k hw hquiet => exact hreaped p q status hp
  | _ => grind [State.woken, Pc.child]

theorem Told.reaped_exited_step (h : Told s) (hs : Step procs init s e t) (i : Nat) (q : P)
    (status : Int32) (hi : .reaped i q status ∈ t.log) : .exited i status ∈ t.log := by
  have hexit := h.reaped_exited
  have hzombie := h.zombie
  cases hs with
  | quiet w k hw hquiet => exact hexit i q status hi
  | _ => grind

/-- A process exits when it is `RUNNING`, so it has not exited before. -/
theorem Told.exit_once_step (h : Told s) (hs : Step procs init s e t) (i : Nat) :
    (t.log.filter (Rec.isExit i)).length ≤ 1 := by
  have honce := h.exit_once i
  cases hs with
  | zombie w status hw hk =>
    by_cases hi : s.serial w = i
    · have hnone : s.log.filter (Rec.isExit i) = [] := by
        apply filter_isExit_eq_nil
        intro st hmem
        have hz := (h.exited w st (hi ▸ hmem) (by simp [hw])).1
        rw [hw] at hz
        cases hz
      simp [List.filter_append, hnone, Rec.isExit, hi]
    · simpa [List.filter_append, Rec.isExit, hi] using honce
  | reap | kill | trap => simpa [List.filter_append, Rec.isExit] using honce
  | _ => exact honce

/-- A process is returned when it is `ZOMBIE`, and its slot is free afterwards. -/
theorem Told.reap_once_step (h : Told s) (hs : Step procs init s e t) (i : Nat) :
    (t.log.filter (Rec.isReap i)).length ≤ 1 := by
  have honce := h.reap_once i
  cases hs with
  | reap w x addr havekids todo hw hk hx hz =>
    by_cases hi : s.serial x = i
    · have hnone : s.log.filter (Rec.isReap i) = [] := by
        apply filter_isReap_eq_nil
        intro q st hmem
        have hunused := h.reaped x q st (hi ▸ hmem)
        rw [hz] at hunused
        cases hunused
      simp [List.filter_append, hnone, Rec.isReap, hi]
    · simpa [List.filter_append, Rec.isReap, hi] using honce
  | zombie | kill | trap => simpa [List.filter_append, Rec.isReap] using honce
  | _ => exact honce

theorem Told.keep (hinv : Inv init s) (h : Told s) (hs : Step procs init s e t) : Told t where
  serial_lt := h.serial_lt_step hinv hs
  serial_inj := h.serial_inj_step hinv hs
  exited_lt := h.exited_lt_step hs
  exited := h.exited_step hinv hs
  zombie := h.zombie_step hinv hs
  reaped := h.reaped_step hinv hs
  reaped_exited := h.reaped_exited_step hs
  exit_once := h.exit_once_step hs
  reap_once := h.reap_once_step hs

theorem Told.boot : Told (State.init init) := by
  have hunused : ∀ p, (State.init init).state p ≠ .unused → p = init := by
    intro p hp
    by_contra hne
    exact hp (by simp [State.init, hne])
  constructor
  case serial_inj =>
    intro p q hp hq _
    rw [hunused p hp, hunused q hq]
  case zombie =>
    intro p hp
    have hpi := hunused p (by simp [hp])
    subst hpi
    simp [State.init] at hp
  all_goals simp [State.init]

end Log

/-! ## A later `wait` -/

section Later

variable [DecidableEq P] {procs : List P} {init : P} {s : State P} {p q : P}

/-- `q` is a `ZOMBIE` child of `p`. -/
def State.waitsFor (s : State P) (p q : P) : Prop := s.parent q = some p ∧ s.state q = .zombie

/-- `wait` of `p` has returned the child in slot `x`, and the other slots are as they were. -/
structure Returned (p x : P) (s u : State P) : Prop where
  running : u.state p = .running
  user : u.pc p = .user
  free : u.waitLock = none
  told : .reaped (s.serial x) p (s.xstate x) ∈ u.log
  unused : u.state x = .unused
  state : ∀ y, y ≠ x → u.state y = s.state y
  parent : ∀ y, y ≠ x → u.parent y = s.parent y
  serial : ∀ y, u.serial y = s.serial y
  xstate : ∀ y, y ≠ x → u.xstate y = s.xstate y

theorem returned_reap {x : P} (hp : s.state p = .running) (hx : s.waitsFor p x) :
    Returned p x s (s.reap p x) := by
  have hpx : p ≠ x := by
    rintro rfl
    have hz := hx.2
    rw [hp] at hz
    cases hz
  constructor
  case running => simpa [State.reap, State.freeproc, State.record, State.unlock, State.ret, hpx]
  case told => simp [State.reap, State.record, State.unlock, State.ret]
  case state =>
    intro y hy
    simp [State.reap, State.freeproc, State.record, State.unlock, State.ret, hy]
  case parent =>
    intro y hy
    simp [State.reap, State.freeproc, State.record, State.unlock, State.ret, hy]
  case xstate =>
    intro y hy
    simp [State.reap, State.freeproc, State.record, State.unlock, State.ret, hy]
  all_goals simp [State.reap, State.freeproc, State.record, State.unlock, State.ret]

/-- Going on through the table changes nothing but the place. -/
theorem Returned.of_goto {x : P} {k : Pc P} {u : State P} (h : Returned p x (s.goto p k) u) :
    Returned p x s u :=
  ⟨h.running, h.user, h.free, h.told, h.unused, h.state, h.parent, h.serial, h.xstate⟩

theorem critical_eq {t : State P} {ok : Bool} (hp : s.state p = .running)
    (h : criticalStep procs init s p ok = .next t) :
    step procs init s (.critical p ok) = .next t := Outcome.guard_eq_next.2 ⟨hp, h⟩

/-- `wait` without an address returns a `ZOMBIE` child if there is one in the part of the table that
is left. -/
theorem scan_returns (todo : List P) (havekids : Bool) (hp : s.state p = .running)
    (hk : s.pc p = .waitScan false havekids todo) (hq : q ∈ todo) (hz : s.waitsFor p q) :
    ∃ es u x, run (step procs init) s es = .next u ∧ s.waitsFor p x ∧ Returned p x s u := by
  induction todo generalizing s havekids with
  | nil => cases hq
  | cons y todo ih =>
    by_cases hy : s.waitsFor p y
    · refine ⟨[.critical p true], s.reap p y, y, ?_, hy, returned_reap hp hy⟩
      have hstep : step procs init s (.critical p true) = .next (s.reap p y) := by
        apply critical_eq hp
        simp [criticalStep, hk, waitSlot, hy.1, hy.2]
      rw [run_cons_next _ hstep, run_nil]
    · have hqy : q ∈ todo := by
        rcases List.mem_cons.1 hq with rfl | hq
        · exact absurd hz hy
        · exact hq
      -- the child at hand is not a `ZOMBIE`, or is none of ours
      obtain ⟨kids, hstep⟩ : ∃ kids, step procs init s (.critical p true)
          = .next (s.goto p (.waitScan false kids todo)) := by
        by_cases hpar : s.parent y = some p
        · have hst : s.state y ≠ .zombie := fun hst => hy ⟨hpar, hst⟩
          exact ⟨true, critical_eq hp (by simp [criticalStep, hk, waitSlot, hpar, hst])⟩
        · exact ⟨havekids, critical_eq hp (by simp [criticalStep, hk, waitSlot, hpar])⟩
      obtain ⟨es, u, x, hrun, hx, hret⟩ := ih (s := s.goto p (.waitScan false kids todo)) kids hp
        (by simp [State.goto]) hqy hz
      exact ⟨.critical p true :: es, u, x, by rw [run_cons_next _ hstep, hrun], hx, hret.of_goto⟩

/-- A process that runs outside all calls, with `wait_lock` free, gets a `ZOMBIE` child from `wait`. -/
theorem wait_returns (hprocs : ∀ x, x ∈ procs) (hp : s.state p = .running) (hk : s.pc p = .user)
    (hfree : s.waitLock = none) (hz : s.waitsFor p q) :
    ∃ es u x, run (step procs init) s es = .next u ∧ s.waitsFor p x ∧ Returned p x s u := by
  have hcall : step procs init s (.wait p false) = .next (s.goto p (.wait false)) :=
    Outcome.guard_eq_next.2 ⟨⟨hp, hk⟩, rfl⟩
  have hlock : step procs init (s.goto p (.wait false)) (.critical p true)
      = .next (((s.goto p (.wait false)).lock p).goto p (.waitScan false false procs)) := by
    refine critical_eq (s := s.goto p (.wait false)) hp ?_
    simp [criticalStep, State.goto, State.withLock, Outcome.guard, hfree]
  let s' := ((s.goto p (.wait false)).lock p).goto p (.waitScan false false procs)
  obtain ⟨es, u, x, hrun, hx, hret⟩ : ∃ es u x, run (step procs init) s' es = .next u ∧
      s'.waitsFor p x ∧ Returned p x s' u :=
    scan_returns procs false hp (by simp [s', State.goto]) (hprocs q) hz
  refine ⟨.wait p false :: .critical p true :: es, u, x, ?_, hx, ?_⟩
  · rw [run_cons_next _ hcall, run_cons_next _ hlock, hrun]
  · exact ⟨hret.running, hret.user, hret.free, hret.told, hret.unused, hret.state, hret.parent,
      hret.serial, hret.xstate⟩

/-- Any `ZOMBIE` child of such a process is returned by one of its next calls of `wait`. The induction
is on a list of the `ZOMBIE` children that may be returned before. -/
theorem reapable (hprocs : ∀ x, x ∈ procs) (l : List P) (hl : ∀ y, s.waitsFor p y → y ∈ l)
    (hp : s.state p = .running) (hk : s.pc p = .user) (hfree : s.waitLock = none)
    (hz : s.waitsFor p q) :
    ∃ es u, run (step procs init) s es = .next u ∧ .reaped (s.serial q) p (s.xstate q) ∈ u.log := by
  induction hn : l.length using Nat.strongRecOn generalizing s l with
  | ind n ih =>
    obtain ⟨es, u, x, hrun, hx, hret⟩ : ∃ es u x, run (step procs init) s es = .next u ∧
        s.waitsFor p x ∧ Returned p x s u := wait_returns hprocs hp hk hfree hz
    by_cases hxq : x = q
    · exact ⟨es, u, hrun, hxq ▸ hret.told⟩
    · have hback : ∀ y, u.waitsFor p y → y ≠ x ∧ s.waitsFor p y := by
        intro y hy
        have hyx : y ≠ x := by
          rintro rfl
          have hst := hy.2
          rw [hret.unused] at hst
          cases hst
        exact ⟨hyx, hret.parent y hyx ▸ hy.1, hret.state y hyx ▸ hy.2⟩
      have hql : q ≠ x := Ne.symm hxq
      have hzu : u.waitsFor p q := ⟨by rw [hret.parent q hql, hz.1], by rw [hret.state q hql, hz.2]⟩
      have hlen : (l.erase x).length < n := by
        have hpos : 0 < l.length := List.length_pos_of_mem (hl x hx)
        rw [List.length_erase_of_mem (hl x hx)]
        omega
      have hcover : ∀ y, u.waitsFor p y → y ∈ l.erase x := by
        intro y hy
        obtain ⟨hyx, hys⟩ := hback y hy
        exact (List.mem_erase_of_ne hyx).2 (hl y hys)
      obtain ⟨fs, v, hrun', hmem⟩ := ih _ hlen (l.erase x) hcover hret.running hret.user hret.free
        hzu rfl
      refine ⟨es ++ fs, v, ?_, ?_⟩
      · rw [run_append es fs hrun, hrun']
      · rwa [hret.serial q, hret.xstate q hql] at hmem

end Later

/-! ## Whole runs -/

section Runs

variable [DecidableEq P] {procs : List P} {init : P} {s t : State P} {e : Event P}

structure Sound (init : P) (s : State P) : Prop where
  inv : Inv init s
  awake : Awake init s
  told : Told s

theorem Sound.of_run (hprocs : ∀ x, x ∈ procs) (es : List (Event P))
    (hrun : run (step procs init) (State.init init) es = .next s) : Sound init s := by
  refine run_keeps (Sound init) ?_ es ⟨Inv.boot, Awake.boot, Told.boot⟩ hrun
  intro u e v h hs
  have hstep := step_eq_next hs
  exact ⟨h.inv.keep hprocs hstep, h.awake.keep hprocs h.inv hstep, h.told.keep h.inv hstep⟩

/-- A slot with a process in it becomes `UNUSED` only by `wait` of the parent, after an exit. -/
theorem unused_of_step (hs : Step procs init s e t) {q : P}
    (hq : (s.state q).live = true ∨ s.state q = .zombie) (ht : t.state q = .unused) :
    s.state q = .zombie ∧ ∃ p, s.parent q = some p ∧ t.a0 p = s.pid q ∧
      t.log = s.log ++ [.reaped (s.serial q) p (s.xstate q)] := by
  cases hs with
  | reap p x addr havekids todo hp hk hx hz =>
    by_cases hqx : q = x
    · subst hqx
      exact ⟨hz, p, hx, by simp, rfl⟩
    · simp only [Function.update_of_ne hqx] at ht
      simp [ht] at hq
  | quiet p k hp hquiet =>
    simp only at ht
    simp [ht] at hq
  | _ => grind [State.woken]

/-- What a `wait` that reports a child says about it. -/
theorem reaped_of_step (hs : Step procs init s e t) {i : Nat} {p : P} {status : Int32}
    (hlog : t.log = s.log ++ [.reaped i p status]) :
    ∃ q, s.serial q = i ∧ s.parent q = some p ∧ s.state q = .zombie ∧ s.xstate q = status ∧
      t.state q = .unused := by
  cases hs with
  | reap w x addr havekids todo hw hk hx hz =>
    simp only [List.append_cancel_left_eq, List.cons.injEq, Rec.reaped.injEq, and_true] at hlog
    obtain ⟨rfl, rfl, rfl⟩ := hlog
    exact ⟨x, rfl, hx, hz, rfl, by simp⟩
  | _ => simp at hlog

/-- `copyout` fails in `wait`: the call returns -1 and the child stays as it is. -/
theorem copyout_fails {p q : P} {havekids : Bool} {todo : List P}
    (hk : s.pc p = .waitScan true havekids (q :: todo)) (hq : s.waitsFor p q)
    (hs : step procs init s (.critical p false) = .next t) :
    s.state p = .running ∧ t = s.unlock.ret p (-1) := by
  obtain ⟨hp, h⟩ := Outcome.guard_eq_next.1 hs
  simp only [criticalStep, hk, waitSlot, hq.1, hq.2, if_true, Bool.not_false, Bool.and_self] at h
  cases h
  exact ⟨hp, rfl⟩

/-- What holds of the processes in a state. -/
structure Accounted (procs : List P) (init : P) (s : State P) : Prop where
  /-- Every process but `init` has a parent that has not exited. -/
  parents : ∀ q, q ≠ init → (s.state q).live = true ∨ s.state q = .zombie →
    ∃ p, s.parent q = some p ∧ s.state p ≠ .unused ∧ s.state p ≠ .zombie
  /-- A process exits at most once, and at most one `wait` returns it. -/
  once : ∀ i, (s.log.filter (Rec.isExit i)).length ≤ 1 ∧ (s.log.filter (Rec.isReap i)).length ≤ 1
  /-- It is returned with the status it gave. -/
  status : ∀ i p status, .reaped i p status ∈ s.log → .exited i status ∈ s.log
  /-- It is returned by its parent at that time. -/
  current : ∀ e t i p status, step procs init s e = .next t →
    t.log = s.log ++ [.reaped i p status] →
    ∃ q, s.serial q = i ∧ s.parent q = some p ∧ s.state q = .zombie ∧ s.xstate q = status ∧
      t.state q = .unused
  /-- Its slot becomes `UNUSED` only then. -/
  unused : ∀ e t q, step procs init s e = .next t →
    (s.state q).live = true ∨ s.state q = .zombie → t.state q = .unused →
    s.state q = .zombie ∧ ∃ p, s.parent q = some p ∧ t.a0 p = s.pid q ∧
      t.log = s.log ++ [.reaped (s.serial q) p (s.xstate q)]
  /-- After a failed `copyout` it is still there, and a later `wait` returns it. -/
  failed : ∀ p q havekids todo t, s.pc p = .waitScan true havekids (q :: todo) → s.waitsFor p q →
    step procs init s (.critical p false) = .next t →
    t.waitsFor p q ∧ t.xstate q = s.xstate q ∧ t.a0 p = -1 ∧
      ∃ es u, run (step procs init) t es = .next u ∧ .reaped (s.serial q) p (s.xstate q) ∈ u.log
  /-- With `wait_lock` free, nobody sleeps in `wait` who has a `ZOMBIE` child. -/
  awake : s.waitLock = none → ∀ p q, s.sleepsInWait p → ¬ s.waitsFor p q

/-- Every state of every run accounts for its processes. -/
theorem process_tree (procs : List P) (init : P) (hprocs : ∀ p, p ∈ procs) (es : List (Event P))
    (s : State P) (hrun : run (step procs init) (State.init init) es = .next s) :
    Accounted procs init s := by
  have h : Sound init s := Sound.of_run hprocs es hrun
  constructor
  · intro q hq hlive
    obtain ⟨p, hp⟩ := Option.ne_none_iff_exists'.1 (h.inv.has_parent q hq hlive)
    have hpl := h.inv.parent_live p q hp
    refine ⟨p, hp, ?_, ?_⟩
    · intro hst
      simp [hst] at hpl
    · intro hst
      simp [hst] at hpl
  · intro i
    exact ⟨h.told.exit_once i, h.told.reap_once i⟩
  · exact h.told.reaped_exited
  · intro e t i p status hs hlog
    exact reaped_of_step (step_eq_next hs) hlog
  · intro e t q hs hq ht
    exact unused_of_step (step_eq_next hs) hq ht
  · intro p q havekids todo t hk hq hs
    obtain ⟨hp, rfl⟩ := copyout_fails hk hq hs
    refine ⟨hq, rfl, by simp [State.ret], ?_⟩
    exact reapable (s := s.unlock.ret p (-1)) hprocs procs (fun y _ => hprocs y) hp
      (by simp [State.ret]) rfl hq
  · intro hfree p q hp hq
    exact h.awake.no_zombie_of_free h.inv hfree hp hq.1 hq.2

/-- `init` forks a child that exits with status 7; a first `wait` cannot copy the status out, and a
second one returns the child. -/
def twoWaits : List (Event Bool) :=
  [.dispatch false, .fork false, .critical false true, .critical false true, .critical false true,
    .critical false true, .dispatch true, .exit true 7, .critical true true, .critical true true,
    .critical true true, .critical true true, .critical true true, .critical true true,
    .critical true true, .wait false true, .critical false true, .critical false true,
    .critical false false, .wait false true, .critical false true, .critical false true,
    .critical false true]

theorem process_tree_twoWaits :
    ∃ s, run (step [false, true] false) (State.init false) twoWaits = .next s ∧
      s.log = [.exited 1 7, .reaped 1 false 7] ∧ Accounted [false, true] false s := by
  have hany : (run (step [false, true] false) (State.init false) twoWaits).any (fun s =>
      decide (s.log = [.exited 1 7, .reaped 1 false 7])) = true := by decide +kernel
  obtain ⟨s, hs, h⟩ := Outcome.exists_of_any hany
  exact ⟨s, hs, of_decide_eq_true h,
    process_tree [false, true] false (by decide) twoWaits s hs⟩

end Runs

end Xv6.Table
