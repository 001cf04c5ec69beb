import Xv6.Proc.Table

set_option autoImplicit false

/-! # The process tree

What `wait_lock` protects, over any interleaving of the steps of `Table.lean`.

`Inv` is about the tree: a slot that `fork` has taken stays `USED` until its parent is set and it is
started, and every process has a parent that has not exited. `exit` hands its children to `init` slot
by slot; a child that is still its own is in the part of the table that `reparent` has to visit
(`Pc.mayParent`).

`Awake` is about sleeping parents: a parent that sleeps in `wait` has a `ZOMBIE` child only while some
`exit` holds `wait_lock` and is on its way to wake it. -/

namespace Xv6

/-- The process exists and has not exited. -/
def ProcState.live : ProcState → Bool
  | .sleeping => true
  | .runnable => true
  | .running => true
  | _ => false

@[simp, grind =] theorem ProcState.live_unused : ProcState.unused.live = false := rfl

@[simp, grind =] theorem ProcState.live_used : ProcState.used.live = false := rfl

@[simp, grind =] theorem ProcState.live_zombie : ProcState.zombie.live = false := rfl

@[simp, grind =] theorem ProcState.live_running : ProcState.running.live = true := rfl

@[simp, grind =] theorem ProcState.live_runnable : ProcState.runnable.live = true := rfl

@[simp, grind =] theorem ProcState.live_sleeping : ProcState.sleeping.live = true := rfl

end Xv6

namespace Xv6.Table

open Machine Function

variable {P : Type}

/-! ## What the places in the code say -/

/-- The process holds `wait_lock`. -/
def Pc.holds : Pc P → Bool
  | .reparent _ _ => true
  | .wakeInit _ _ _ => true
  | .wakeParent _ _ => true
  | .zombie _ => true
  | .waitScan _ _ _ => true
  | .waitSleep _ => true
  | _ => false

/-- The process is in `exit`. -/
def Pc.exiting : Pc P → Bool
  | .exit _ => true
  | .reparent _ _ => true
  | .wakeInit _ _ _ => true
  | .wakeParent _ _ => true
  | .zombie _ => true
  | _ => false

/-- The process has nothing to do. -/
def Pc.still : Pc P → Bool
  | .user => true
  | .gone => true
  | _ => false

/-- The slot that `fork` has taken. -/
def Pc.child : Pc P → Option P
  | .setParent np _ => some np
  | .start np _ => some np
  | _ => none

/-- The process may still be the parent of `q`: `reparent` has not come to it. -/
def Pc.mayParent (q : P) : Pc P → Prop
  | .reparent _ todo => q ∈ todo
  | .wakeInit _ todo _ => q ∈ todo
  | .wakeParent _ _ => False
  | .zombie _ => False
  | _ => True

@[simp, grind =] theorem Pc.resume_holds (k : Pc P) : k.resume.holds = k.holds := by
  cases k <;> rfl

@[simp, grind =] theorem Pc.resume_exiting (k : Pc P) : k.resume.exiting = k.exiting := by
  cases k <;> rfl

@[simp, grind =] theorem Pc.resume_child (k : Pc P) : k.resume.child = k.child := by
  cases k <;> rfl

@[simp, grind =] theorem Pc.resume_mayParent (k : Pc P) (q : P) :
    k.resume.mayParent q ↔ k.mayParent q := by
  cases k <;> rfl

theorem Pc.resume_eq_start {k : Pc P} {x : P} {pid : Int32} :
    k.resume = .start x pid ↔ k = .start x pid := by
  cases k <;> simp [Pc.resume]

theorem Pc.mayParent_of_not_exiting {k : Pc P} (q : P) (h : k.exiting = false) : k.mayParent q := by
  cases k <;> simp [Pc.exiting, Pc.mayParent] at h ⊢

@[grind →] theorem Pc.still_holds {k : Pc P} (h : k.still = true) : k.holds = false := by
  cases k <;> simp [Pc.holds, Pc.still] at h ⊢

@[simp, grind =] theorem woken_live [DecidableEq P] (s : State P) (x : P) (ch : Option (Chan P)) :
    (s.woken x ch).live = (s.state x).live := by
  unfold State.woken
  split
  · next h => rw [h.1]; rfl
  · rfl

/-! ## The tree -/

structure Inv (init : P) (s : State P) : Prop where
  lock : ∀ p, s.waitLock = some p ↔ (s.pc p).holds = true
  holder : ∀ p, (s.pc p).holds = true → s.state p = .running
  still : ∀ p, (s.state p).live = false → (s.pc p).still = true
  child : ∀ p x, (s.pc p).child = some x → s.state x = .used
  child_inj : ∀ p q x, (s.pc p).child = some x → (s.pc q).child = some x → p = q
  started : ∀ p x pid, s.pc p = .start x pid → s.parent x = some p
  init_live : (s.state init).live = true
  exiting : ∀ p, (s.pc p).exiting = true → p ≠ init
  parent_live : ∀ p q, s.parent q = some p → (s.state p).live = true
  orphans : ∀ p q, s.parent q = some p → (s.pc p).mayParent q
  has_parent : ∀ q, q ≠ init → (s.state q).live = true ∨ s.state q = .zombie → s.parent q ≠ none

section Tree

variable [DecidableEq P] {procs : List P} {init : P} {s t : State P} {e : Event P}

theorem Inv.lock_step (h : Inv init s) (hs : Step procs init s e t) (p : P) :
    t.waitLock = some p ↔ (t.pc p).holds = true := by
  have hlock := h.lock
  have hstill := h.still
  cases hs with
  | quiet w k hp hquiet => cases hquiet <;> grind [Pc.holds]
  | _ => grind [Pc.holds]

theorem Inv.holder_step (h : Inv init s) (hs : Step procs init s e t) (p : P)
    (hp : (t.pc p).holds = true) : t.state p = .running := by
  have hlock := h.lock
  have hholder := h.holder
  have hstill := h.still
  cases hs with
  | quiet w k hw hquiet => cases hquiet <;> grind [Pc.holds]
  | start w np pid hw hk =>
    -- the new process has not run yet
    have hnew : s.state np = .used := h.child w np (by rw [hk]; rfl)
    grind [Pc.holds]
  | _ => grind [Pc.holds, State.woken]

theorem Inv.still_step (h : Inv init s) (hs : Step procs init s e t) (p : P)
    (hp : (t.state p).live = false) : (t.pc p).still = true := by
  have hstill := h.still
  cases hs with
  | quiet w k hw hquiet => grind
  | _ => grind [Pc.still]

theorem Inv.child_step (h : Inv init s) (hs : Step procs init s e t) (p x : P)
    (hp : (t.pc p).child = some x) : t.state x = .used := by
  have hchild := h.child
  have hinj := h.child_inj
  cases hs with
  | quiet w k hw hquiet => cases hquiet <;> grind [Pc.child]
  | start w np pid hw hk =>
    -- only one process has taken the slot, and it is done with it
    have hwc : (s.pc w).child = some np := by rw [hk]; rfl
    grind [Pc.child]
  | _ => grind [Pc.child, State.woken]

theorem Inv.child_inj_step (h : Inv init s) (hs : Step procs init s e t) (p q x : P)
    (hp : (t.pc p).child = some x) (hq : (t.pc q).child = some x) : p = q := by
  have hchild := h.child
  have hinj := h.child_inj
  cases hs with
  | quiet w k hw hquiet => cases hquiet <;> grind [Pc.child]
  | _ => grind [Pc.child]

theorem Inv.started_step (h : Inv init s) (hs : Step procs init s e t) (p x : P) (pid : Int32)
    (hp : t.pc p = .start x pid) : t.parent x = some p := by
  have hstarted := h.started
  have hchild := h.child
  have hinj := h.child_inj
  cases hs with
  | quiet w k hw hquiet => cases hquiet <;> grind
  | _ => grind [Pc.child, Pc.resume_eq_start]

theorem Inv.init_live_step (h : Inv init s) (hs : Step procs init s e t) :
    (t.state init).live = true := by
  have hinit := h.init_live
  have hexiting := h.exiting
  cases hs with
  | quiet w k hw hquiet => exact hinit
  | _ => grind [Pc.exiting]

theorem Inv.exiting_step (h : Inv init s) (hs : Step procs init s e t) (p : P)
    (hp : (t.pc p).exiting = true) : p ≠ init := by
  have hexiting := h.exiting
  cases hs with
  | quiet w k hw hquiet => cases hquiet <;> grind [Pc.exiting]
  | _ => grind [Pc.exiting]

theorem Inv.parent_live_step (h : Inv init s) (hs : Step procs init s e t) (p q : P)
    (hq : t.parent q = some p) : (t.state p).live = true := by
  have hlive := h.parent_live
  have horphans := h.orphans
  have hinit := h.init_live
  cases hs with
  | quiet w k hw hquiet => grind
  | zombie w status hw hk =>
    -- all children have been given away
    have hnone : s.parent q ≠ some w := by
      intro hw
      have hmay := h.orphans w q hw
      rw [hk] at hmay
      exact hmay
    grind
  | _ => grind

theorem Inv.orphans_step (h : Inv init s) (hprocs : ∀ x, x ∈ procs) (hs : Step procs init s e t)
    (p q : P) (hq : t.parent q = some p) : (t.pc p).mayParent q := by
  have horphans := h.orphans
  have hexiting := h.exiting
  cases hs with
  | quiet w k hw hquiet => cases hquiet <;> grind [Pc.mayParent]
  | adopt w x status todo hw hk hx =>
    -- `init` never exits, so it may have any children
    have hinit : (s.pc init).mayParent q := by
      apply Pc.mayParent_of_not_exiting
      by_contra hex
      exact h.exiting init (by simpa using hex) rfl
    have hne : w ≠ init := h.exiting w (by rw [hk]; rfl)
    grind [Pc.mayParent]
  | _ => grind [Pc.mayParent]

theorem Inv.has_parent_step (h : Inv init s) (hs : Step procs init s e t) (q : P) (hq : q ≠ init)
    (hlive : (t.state q).live = true ∨ t.state q = .zombie) : t.parent q ≠ none := by
  have hparent := h.has_parent
  have hstarted := h.started
  cases hs with
  | quiet w k hw hquiet => grind
  | _ => grind [State.woken]

theorem Inv.keep (hprocs : ∀ x, x ∈ procs) (h : Inv init s) (hs : Step procs init s e t) :
    Inv init t where
  lock := h.lock_step hs
  holder := h.holder_step hs
  still := h.still_step hs
  child := h.child_step hs
  child_inj := h.child_inj_step hs
  started := h.started_step hs
  init_live := h.init_live_step hs
  exiting := h.exiting_step hs
  parent_live := h.parent_live_step hs
  orphans := h.orphans_step hprocs hs
  has_parent := h.has_parent_step hs

theorem Inv.boot : Inv init (State.init init) := by
  have hstate : ∀ q, q ≠ init → (State.init init).state q = .unused := by
    intro q hq
    simp [State.init, hq]
  constructor
  case init_live => simp [State.init]
  case has_parent =>
    intro q hq hlive
    simp [hstate q hq] at hlive
  all_goals simp [State.init, Pc.holds, Pc.still, Pc.child, Pc.exiting]

omit [DecidableEq P] in
/-- At most one process holds `wait_lock`. -/
theorem Inv.holds_inj (h : Inv init s) {p q : P} (hp : (s.pc p).holds = true)
    (hq : (s.pc q).holds = true) : p = q := by
  have hlp := (h.lock p).2 hp
  have hlq := (h.lock q).2 hq
  rw [hlp] at hlq
  exact Option.some.inj hlq

end Tree

/-! ## Sleeping parents -/

/-- `p` is `SLEEPING` inside `wait`. -/
def State.sleepsInWait (s : State P) (p : P) : Prop :=
  (∃ addr, s.pc p = .waitAsleep addr) ∧ s.state p = .sleeping

/-- `wait` has not come to `q` yet, or is not on its way to sleep. -/
def Pc.mayZombie (q : P) : Pc P → Prop
  | .waitScan _ _ todo => q ∈ todo
  | .waitSleep _ => False
  | _ => True

/-- `reparent` is on its way to wake `p`. -/
def Pc.waking (p : P) : Pc P → Prop
  | .wakeInit _ _ scan => p ∈ scan
  | _ => False

structure Awake (init : P) (s : State P) : Prop where
  chan : ∀ p, s.sleepsInWait p → s.chan p = some (.proc p)
  scan : ∀ p q, s.parent q = some p → s.state q = .zombie → (s.pc p).mayZombie q
  asleep : ∀ p q, s.sleepsInWait p → s.parent q = some p → s.state q = .zombie →
    p = init ∧ ∃ w, (s.pc w).waking p
  visit : ∀ w status scan p, s.pc w = .wakeParent status scan → s.parent w = some p →
    s.sleepsInWait p → p ∈ scan
  dying : ∀ w status p, s.pc w = .zombie status → s.parent w = some p → ¬ s.sleepsInWait p

@[simp, grind =] theorem Pc.resume_mayZombie (k : Pc P) (q : P) :
    k.resume.mayZombie q ↔ k.mayZombie q := by
  cases k <;> rfl

section Parents

variable [DecidableEq P] {procs : List P} {init : P} {s t : State P} {e : Event P}

theorem Awake.chan_step (hinv : Inv init s) (h : Awake init s) (hs : Step procs init s e t) (p : P)
    (hp : t.sleepsInWait p) : t.chan p = some (.proc p) := by
  have hchan := h.chan
  have hstill := hinv.still
  cases hs with
  | quiet w k hw hquiet => cases hquiet <;> grind [State.sleepsInWait]
  | _ => grind [State.sleepsInWait, State.woken, Pc.still]

theorem Awake.scan_step (hinv : Inv init s) (h : Awake init s) (hprocs : ∀ x, x ∈ procs)
    (hs : Step procs init s e t) (p q : P) (hq : t.parent q = some p) (hz : t.state q = .zombie) :
    (t.pc p).mayZombie q := by
  have hscan := h.scan
  have hchild := hinv.child
  cases hs with
  | quiet w k hw hquiet => cases hquiet <;> grind [Pc.mayZombie]
  | adopt w x status todo hw hk hx =>
    -- `w` holds the lock, so `init` does not look through the table
    have hwh : (s.pc w).holds = true := by rw [hk]; rfl
    have hinj : ∀ r, (s.pc r).holds = true → r = w := fun r hr => hinv.holds_inj hr hwh
    have hne : w ≠ init := hinv.exiting w (by rw [hk]; rfl)
    have hinit : (s.pc init).mayZombie q := by
      cases hki : s.pc init <;> first
        | exact trivial
        | exact absurd (hinj init (by rw [hki]; rfl)) hne.symm
    grind [Pc.mayZombie]
  | zombie w status hw hk =>
    have hwh : (s.pc w).holds = true := by rw [hk]; rfl
    have hother : ∀ r, r ≠ w → (s.pc r).mayZombie q := by
      intro r hr
      cases hkr : s.pc r <;> first
        | exact trivial
        | exact absurd (hinv.holds_inj (by rw [hkr]; rfl) hwh) hr
    grind [Pc.mayZombie]
  | _ => grind [Pc.mayZombie, State.woken, Pc.child]

omit [DecidableEq P] in
theorem Pc.holds_of_waking {p : P} {k : Pc P} (h : k.waking p) : k.holds = true := by
  cases k <;> first | rfl | cases h

omit [DecidableEq P] in
/-- While a process that wakes nobody holds the lock, no sleeping parent has a `ZOMBIE` child. -/
theorem Awake.no_zombie_of_holds (hinv : Inv init s) (h : Awake init s) {w p q : P}
    (hw : (s.pc w).holds = true) (hk : ¬ (s.pc w).waking p) (hp : s.sleepsInWait p)
    (hq : s.parent q = some p) : s.state q ≠ .zombie := by
  intro hz
  obtain ⟨-, v, hv⟩ := h.asleep p q hp hq hz
  have hvw : v = w := hinv.holds_inj (Pc.holds_of_waking hv) hw
  exact hk (hvw ▸ hv)

omit [DecidableEq P] in
/-- While `wait_lock` is free, no sleeping parent has a `ZOMBIE` child. -/
theorem Awake.no_zombie_of_free (hinv : Inv init s) (h : Awake init s) (hfree : s.waitLock = none)
    {p q : P} (hp : s.sleepsInWait p) (hq : s.parent q = some p) : s.state q ≠ .zombie := by
  intro hz
  obtain ⟨-, v, hv⟩ := h.asleep p q hp hq hz
  have hlock := (hinv.lock v).2 (Pc.holds_of_waking hv)
  rw [hfree] at hlock
  cases hlock

/-- `wakeup` at a parent that sleeps in `wait` makes it `RUNNABLE`. -/
theorem Awake.woken_parent (h : Awake init s) {p : P} (hp : s.sleepsInWait p) :
    s.woken p (some (.proc p)) = .runnable := by
  unfold State.woken
  rw [if_pos ⟨hp.2, h.chan p hp⟩]

/-- A step of `w` that leaves the sleeping parents and their children alone. -/
theorem Awake.asleep_of {w p q : P} {k : Pc P} (h : Awake init s) (hp : s.sleepsInWait p)
    (hq : s.parent q = some p) (hz : s.state q = .zombie) (hw : ¬ (s.pc w).waking p)
    (hpc : t.pc = update s.pc w k) : p = init ∧ ∃ w, (t.pc w).waking p := by
  obtain ⟨hpi, v, hv⟩ := h.asleep p q hp hq hz
  have hvw : v ≠ w := by
    rintro rfl
    exact hw hv
  exact ⟨hpi, v, by rwa [hpc, update_of_ne hvw]⟩

/-- A quiet step leaves all sleeping processes as they are. -/
theorem sleepsInWait_of_quiet {w p : P} {k : Pc P} (hw : s.state w = .running)
    (hp : ({ s with pc := update s.pc w k } : State P).sleepsInWait p) :
    p ≠ w ∧ s.sleepsInWait p := by
  have hpw : p ≠ w := by
    rintro rfl
    have hst : s.state p = .sleeping := hp.2
    rw [hw] at hst
    cases hst
  refine ⟨hpw, ?_, hp.2⟩
  obtain ⟨addr, hpc⟩ := hp.1
  exact ⟨addr, by simpa [hpw] using hpc⟩

theorem Awake.asleep_quiet {w p q : P} {k : Pc P} (h : Awake init s)
    (hw : s.state w = .running) (hquiet : Quiet procs init s w e k)
    (hp : ({ s with pc := update s.pc w k } : State P).sleepsInWait p)
    (hq : s.parent q = some p) (hz : s.state q = .zombie) :
    p = init ∧ ∃ v, (update s.pc w k v).waking p := by
  have hps := (sleepsInWait_of_quiet hw hp).2
  have hnot : ¬ (s.pc w).waking p := by
    cases hquiet with
    | wakeInitEnd status todo hk =>
      -- the scan has been through the whole table
      rw [hk]
      exact List.not_mem_nil
    | _ => simp_all [Pc.waking]
  exact h.asleep_of (t := { s with pc := update s.pc w k }) hps hq hz hnot rfl

theorem Awake.asleep_step (hinv : Inv init s) (h : Awake init s) (hprocs : ∀ x, x ∈ procs)
    (hs : Step procs init s e t) (p q : P) (hp : t.sleepsInWait p) (hq : t.parent q = some p)
    (hz : t.state q = .zombie) : p = init ∧ ∃ w, (t.pc w).waking p := by
  have hstill := hinv.still
  have hchild := hinv.child
  cases hs with
  | quiet w k hw hquiet => exact h.asleep_quiet hw hquiet hp hq hz
  | alloc w x todo hw hk hx =>
    have hps : s.sleepsInWait p := by grind [State.sleepsInWait]
    obtain ⟨hpi, v, hv⟩ := h.asleep p q hps hq (by grind)
    have hvw : v ≠ w := by
      rintro rfl
      simp [hk, Pc.waking] at hv
    have hvx : v ≠ x := by
      rintro rfl
      have := Pc.still_holds (hstill v (by rw [hx]; rfl))
      simp [Pc.holds_of_waking hv] at this
    exact ⟨hpi, v, by simpa [hvw, hvx] using hv⟩
  | adopt w x status todo hw hk hx =>
    have hps : s.sleepsInWait p := by grind [State.sleepsInWait]
    by_cases hqx : q = x
    · have hpi : p = init := by grind
      have hne : w ≠ init := hinv.exiting w (by rw [hk]; rfl)
      refine ⟨hpi, w, ?_⟩
      simpa [Pc.waking, hpi, hne.symm] using hprocs init
    · have hqs : s.parent q = some p := by grind
      have hwh : (s.pc w).holds = true := by rw [hk]; rfl
      exact absurd hz (h.no_zombie_of_holds hinv hwh (by simp [hk, Pc.waking]) hps hqs)
  | wakeInit w x status todo scan hw hk =>
    have hps : s.sleepsInWait p := by grind [State.sleepsInWait, State.woken]
    have hzs : s.state q = .zombie := by grind [State.woken]
    obtain ⟨hpi, v, hv⟩ := h.asleep p q hps hq hzs
    have hvw : v = w := hinv.holds_inj (Pc.holds_of_waking hv) (by rw [hk]; rfl)
    rw [hvw, hk] at hv
    have hpx : p ≠ x := by
      rintro rfl
      have hst := hp.2
      simp only [update_self, ← hpi, h.woken_parent hps] at hst
      cases hst
    refine ⟨hpi, w, ?_⟩
    simpa [Pc.waking] using (List.mem_cons.1 hv).resolve_left hpx
  | wakeParent w x status scan hw hk =>
    have hps : s.sleepsInWait p := by grind [State.sleepsInWait, State.woken]
    have hzs : s.state q = .zombie := by grind [State.woken]
    have hwh : (s.pc w).holds = true := by rw [hk]; rfl
    exact absurd hzs (h.no_zombie_of_holds hinv hwh (by simp [hk, Pc.waking]) hps hq)
  | zombie w status hw hk =>
    have hps : s.sleepsInWait p := by grind [State.sleepsInWait]
    have hwh : (s.pc w).holds = true := by rw [hk]; rfl
    by_cases hqw : q = w
    · subst hqw
      exact absurd hps (h.dying q status p hk hq)
    · have hzs : s.state q = .zombie := by grind
      exact absurd hzs (h.no_zombie_of_holds hinv hwh (by simp [hk, Pc.waking]) hps hq)
  | waitSleep w addr hw hk =>
    have hzs : s.state q = .zombie := by grind
    by_cases hpw : p = w
    · -- `w` has just seen that it has no `ZOMBIE` child
      subst hpw
      have hscan := h.scan p q hq hzs
      rw [hk] at hscan
      exact hscan.elim
    · have hps : s.sleepsInWait p := by grind [State.sleepsInWait]
      have hwh : (s.pc w).holds = true := by rw [hk]; rfl
      exact absurd hzs (h.no_zombie_of_holds hinv hwh (by simp [hk, Pc.waking]) hps hq)
  | fail w hw hk =>
    refine h.asleep_of (w := w) ?_ hq hz ?_ rfl
    · grind [State.sleepsInWait]
    · rcases hk with hk | ⟨pid, hk⟩ <;> simp [hk, Pc.waking]
  | dispatch w hw =>
    have hps : s.sleepsInWait p := by grind [State.sleepsInWait, Pc.resume]
    obtain ⟨hpi, v, hv⟩ := h.asleep p q hps hq (by grind)
    have hvw : v ≠ w := by
      rintro rfl
      have := hinv.holder v (Pc.holds_of_waking hv)
      rw [hw] at this
      cases this
    exact ⟨hpi, v, by simpa [hvw] using hv⟩
  | trap w hw hk => exact h.asleep p q hp hq hz
  | wake w => exact h.asleep p q (by grind [State.sleepsInWait, State.woken]) hq (by grind [State.woken])
  | yield w hw hl => exact h.asleep p q (by grind [State.sleepsInWait]) hq (by grind)
  | allocFail w _ _ _ hk | reap w _ _ _ _ _ hk =>
    exact h.asleep_of (w := w) (q := q) (by grind [State.sleepsInWait]) (by grind) (by grind)
      (by simp [hk, Pc.waking]) rfl
  | setParent w np pid hw hk hl =>
    have hnew : s.state np = .used := hinv.child w np (by rw [hk]; rfl)
    exact h.asleep_of (w := w) (q := q) (by grind [State.sleepsInWait]) (by grind) hz
      (by simp [hk, Pc.waking]) rfl
  | start w _ _ _ hk | kill w _ _ _ _ hk | sleep w _ hk =>
    exact h.asleep_of (w := w) (by grind [State.sleepsInWait]) hq (by grind)
      (by simp [hk, Pc.waking]) rfl
  | lockExit w _ _ hk | lockWait w _ _ hk | giveUp w _ _ _ _ hk =>
    exact h.asleep_of (w := w) (by grind [State.sleepsInWait]) hq hz (by simp [hk, Pc.waking]) rfl

/-- The process that the scheduler starts does not hold the lock. -/
theorem Inv.ne_of_dispatch (hinv : Inv init s) {v w : P} (hv : s.state v = .runnable)
    (hw : (update s.pc v (s.pc v).resume w).holds = true) : w ≠ v := by
  rintro rfl
  rw [update_self, Pc.resume_holds] at hw
  have hrun := hinv.holder w hw
  rw [hv] at hrun
  cases hrun

theorem Awake.visit_step (hinv : Inv init s) (h : Awake init s) (hprocs : ∀ x, x ∈ procs)
    (hs : Step procs init s e t) (w : P) (status : Int32) (scan : List P) (p : P)
    (hw : t.pc w = .wakeParent status scan) (hq : t.parent w = some p) (hp : t.sleepsInWait p) :
    p ∈ scan := by
  have hvisit := h.visit
  have hchild := hinv.child
  have hstill := hinv.still
  cases hs with
  | quiet v k hv hquiet =>
    obtain ⟨hpv, hps⟩ := sleepsInWait_of_quiet hv hp
    cases hquiet with
    | reparentEnd status' hk =>
      by_cases hwv : w = v
      · have hscan : scan = procs.filter (· ≠ v) := by
          subst hwv
          have heq := hw.symm
          simp only [update_self, Pc.wakeParent.injEq] at heq
          exact heq.2
        simpa [hscan, hpv] using hprocs p
      · exact h.visit w status scan p (by simpa [hwv] using hw) hq hps
    | _ => grind
  | adopt v _ _ _ _ hk | waitSleep v _ _ hk =>
    -- the lock has one holder
    have hwv : w ≠ v := by
      rintro rfl
      simp at hw
    have hws : s.pc w = .wakeParent status scan := by simpa [hwv] using hw
    exact absurd (hinv.holds_inj (by rw [hws]; rfl) (by rw [hk]; rfl)) hwv
  | wakeParent v x status' scan' hv hk =>
    have hps : s.sleepsInWait p := by grind [State.sleepsInWait, State.woken]
    by_cases hwv : w = v
    · subst hwv
      simp only [update_self, Pc.wakeParent.injEq] at hw
      have hmem := h.visit w status' (x :: scan') p hk hq hps
      have hpx : p ≠ x := by
        rintro rfl
        have hpar : (s.parent w).map Chan.proc = some (.proc p) := congrArg (Option.map Chan.proc) hq
        have hst := hp.2
        simp only [update_self, hpar, h.woken_parent hps] at hst
        cases hst
      exact hw.2 ▸ (List.mem_cons.1 hmem).resolve_left hpx
    · exact h.visit w status scan p (by simpa [hwv] using hw) hq hps
  | setParent v np pid hv hk hl =>
    have hws : s.pc w = .wakeParent status scan := by grind
    have hlock := (hinv.lock w).2 (by rw [hws]; rfl)
    rw [hl] at hlock
    cases hlock
  | dispatch v hv =>
    have hwv := hinv.ne_of_dispatch hv (w := w) (congrArg Pc.holds hw)
    grind [State.sleepsInWait, Pc.resume]
  | _ => grind [State.sleepsInWait, State.woken, Pc.resume, Pc.still, Pc.child]

theorem Awake.dying_step (hinv : Inv init s) (h : Awake init s) (hs : Step procs init s e t) (w : P)
    (status : Int32) (p : P) (hw : t.pc w = .zombie status) (hq : t.parent w = some p) :
    ¬ t.sleepsInWait p := by
  have hdying := h.dying
  have hchild := hinv.child
  have hstill := hinv.still
  intro hp
  cases hs with
  | quiet v k hv hquiet =>
    obtain ⟨-, hps⟩ := sleepsInWait_of_quiet hv hp
    cases hquiet with
    | wakeParentEnd status' hk =>
      by_cases hwv : w = v
      · subst hwv
        exact List.not_mem_nil (h.visit w status' [] p hk hq hps)
      · exact h.dying w status p (by simpa [hwv] using hw) hq hps
    | _ => grind
  | adopt v _ _ _ _ hk | waitSleep v _ _ hk =>
    have hwv : w ≠ v := by
      rintro rfl
      simp at hw
    have hws : s.pc w = .zombie status := by simpa [hwv] using hw
    exact absurd (hinv.holds_inj (by rw [hws]; rfl) (by rw [hk]; rfl)) hwv
  | setParent v np pid hv hk hl =>
    have hws : s.pc w = .zombie status := by grind
    have hlock := (hinv.lock w).2 (by rw [hws]; rfl)
    rw [hl] at hlock
    cases hlock
  | dispatch v hv =>
    have hwv := hinv.ne_of_dispatch hv (w := w) (congrArg Pc.holds hw)
    grind [State.sleepsInWait, Pc.resume]
  | _ => grind [State.sleepsInWait, State.woken, Pc.resume, Pc.still, Pc.child]

theorem Awake.keep (hprocs : ∀ x, x ∈ procs) (hinv : Inv init s) (h : Awake init s)
    (hs : Step procs init s e t) : Awake init t where
  chan := h.chan_step hinv hs
  scan := h.scan_step hinv hprocs hs
  asleep := h.asleep_step hinv hprocs hs
  visit := h.visit_step hinv hprocs hs
  dying := h.dying_step hinv hs

theorem Awake.boot : Awake init (State.init init) := by
  constructor <;> simp [State.init, State.sleepsInWait]

end Parents

end Xv6.Table
