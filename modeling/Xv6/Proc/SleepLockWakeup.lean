import Xv6.Proc.SleepLockInv

set_option autoImplicit false

/-! # Sleep-locks exclude and lose no wakeup

`Guarded`: `lk->locked` says whether a process owns the sleep-lock, there is at most one owner, and
`lk->pid` names it, so that `holdingsleep` tells the truth.

`Watched`: a process that sleeps on the lock, or is about to, sleeps on a lock that is taken, or is
still to be visited by a `wakeup`. A `wakeup` that visits a process holds its lock, and the process
holds it from before it gives up `lk->lk` until it sleeps: that is why the visit cannot come in
between. -/

namespace Xv6.SleepLock

open Machine Function

variable {C P : Type}

/-! ## The owner -/

structure Guarded (s : State C P) : Prop where
  owned : s.locked = true ↔ ∃ p, (s.pc p).owns = true
  owner : ∀ p q, (s.pc p).owns = true → (s.pc q).owns = true → p = q
  checked : ∀ p, (s.pc p).checked = true → s.locked = true
  vacant : ∀ p, (s.pc p).vacant = true → s.locked = false
  named : ∀ p, (s.pc p).named = true → s.pid = some p
  result : ∀ p own r, s.pc p = .holdEnd own r → r = own

section Owner

variable {s t : State C P} {c : C} {p q x : P}

/-- At most one process holds `lk->lk`. -/
theorem Inv.lk_excl (h : Inv s) (hp : Lock.lk ∈ (s.pc p).locks p) (hq : Lock.lk ∈ (s.pc q).locks q) :
    p = q := by
  have hrun : ∀ x, Lock.lk ∈ (s.pc x).locks x → ∃ c, s.ctx c = .running x := by
    intro x hx
    apply h.placed.exists_cpu
    intro heq
    simp [heq] at hx
  obtain ⟨c, hc⟩ := hrun p hp
  obtain ⟨d, hd⟩ := hrun q hq
  have hcd : c = d := by
    rw [← holding_running hc] at hp
    rw [← holding_running hd] at hq
    exact h.locks.excl hp hq
  rw [hcd, hd] at hc
  cases hc
  rfl

theorem Pc.owns_of_named {k : Pc P} (h : k.named = true) : k.owns = true := by
  cases k <;> first | exact h | cases h

theorem Guarded.locked_of_owns (h : Guarded s) (hp : (s.pc p).owns = true) : s.locked = true :=
  h.owned.2 ⟨p, hp⟩

/-- `holdingsleep` finds out whether its caller owns the sleep-lock. -/
theorem Guarded.holds_iff [DecidableEq P] (h : Guarded s) (hinv : Inv s) {own : Bool}
    (hp : s.pc p = .holdTest own) : (s.locked && decide (s.pid = some p)) = own := by
  cases own with
  | true =>
    have hlocked : s.locked = true := h.locked_of_owns (p := p) (by rw [hp]; rfl)
    have hpid : s.pid = some p := h.named p (by rw [hp]; rfl)
    simp [hlocked, hpid]
  | false =>
    by_contra hne
    simp only [Bool.not_eq_false, Bool.and_eq_true, decide_eq_true_eq] at hne
    obtain ⟨q, hq⟩ := h.owned.1 hne.1
    -- the owner has set `lk->pid`, because `p` holds `lk->lk`
    have hqp : q ≠ p := by
      rintro rfl
      rw [hp] at hq
      cases hq
    have hnamed : (s.pc q).named = true := by
      cases hk : s.pc q with
      | setPid =>
        have hlk : q = p := hinv.lk_excl (by simp [hk, Pc.locks]) (by simp [hp, Pc.locks])
        exact absurd hlk hqp
      | _ =>
        rw [hk] at hq
        exact hq
    have hpid := h.named q hnamed
    rw [hne.2] at hpid
    exact hqp (Option.some.inj hpid).symm

theorem Guarded.not_owns (h : Guarded s) (hfree : s.locked = false) (q : P) :
    (s.pc q).owns = false := by
  by_contra hq
  rw [Bool.not_eq_false] at hq
  rw [h.locked_of_owns hq] at hfree
  cases hfree

theorem Guarded.not_owns_of_ne (h : Guarded s) (hp : (s.pc p).owns = true) (hqp : q ≠ p) :
    (s.pc q).owns = false := by
  by_contra hq
  rw [Bool.not_eq_false] at hq
  exact hqp (h.owner q p hq hp)

variable [DecidableEq P] {procs : List P}

/-- A process moves without a write to the sleep-lock. -/
theorem Guarded.of_keeps {k : Pc P} (h : Guarded s) (hinv : Inv s)
    (hk : Pc.Keeps s.locked (decide (s.pid = some p)) (s.pc p) k) (hlocked : t.locked = s.locked)
    (hpid : t.pid = s.pid) (hpc : t.pc = update s.pc p k) : Guarded t := by
  have hto : ∀ q, t.pc q = if q = p then k else s.pc q := fun q => by rw [hpc, update_apply]
  have howns : ∀ q, (t.pc q).owns = (s.pc q).owns := by grind [hk.owns]
  have hnamed : ∀ q, (t.pc q).named = (s.pc q).named := by grind [hk.named]
  constructor
  · simp only [hlocked, howns]
    exact h.owned
  · intro q r hq hr
    rw [howns] at hq hr
    exact h.owner q r hq hr
  · intro q hq
    have hnow := hk.checked
    have hbefore := h.checked
    grind
  · intro q hq
    have hnow := hk.vacant
    have hbefore := h.vacant
    grind
  · intro q hq
    rw [hnamed] at hq
    rw [hpid]
    exact h.named q hq
  · intro q own r hq
    rw [hto] at hq
    split at hq
    · obtain ⟨htest, hr⟩ := hk.result own r hq
      rw [hr]
      exact h.holds_iff hinv htest
    · exact h.result q own r hq

/-- A process that writes the sleep-lock holds `lk->lk`, so that no other is at a place that depends
on it. -/
theorem Guarded.of_write {k : Pc P} (h : Guarded s) (hinv : Inv s)
    (hp : Lock.lk ∈ (s.pc p).locks p) (hpc : t.pc = update s.pc p k)
    (howned : t.locked = true ↔ k.owns = true) (hvacant : k.vacant = true → t.locked = false)
    (hk : k.checked = false) (hres : ∀ own r, k ≠ .holdEnd own r)
    (hother : ∀ q, q ≠ p → (s.pc q).owns = false) (hpid : k.named = true → t.pid = some p) :
    Guarded t := by
  have hto : ∀ q, t.pc q = if q = p then k else s.pc q := fun q => by rw [hpc, update_apply]
  have howner : ∀ q, (t.pc q).owns = true → q = p := by grind
  have hlk : ∀ q, q ≠ p → Lock.lk ∉ (s.pc q).locks q :=
    fun q hqp hq => hqp (hinv.lk_excl hq hp)
  constructor
  · rw [howned]
    exact ⟨fun hko => ⟨p, by rwa [hto, if_pos rfl]⟩, fun hq => by grind⟩
  · intro q r hq hr
    rw [howner q hq, howner r hr]
  · intro q hq
    have hqp : q ≠ p := by grind
    rw [hto, if_neg hqp] at hq
    exact absurd (Pc.lk_of_checked hq) (hlk q hqp)
  · intro q hq
    rw [hto] at hq
    split at hq
    · exact hvacant hq
    · next hqp => exact absurd (Pc.lk_of_vacant hq) (hlk q hqp)
  · intro q hq
    have hqp := howner q (Pc.owns_of_named hq)
    rw [hto, if_pos hqp] at hq
    rw [hqp, hpid hq]
  · intro q own r hq
    have hqp : q ≠ p := by grind
    exact h.result q own r (by rwa [hto, if_neg hqp] at hq)

theorem Guarded.setLocked {b : Bool} (h : Guarded s) (hinv : Inv s)
    (hi : (s.pc p).instr p = some (.setLocked b)) :
    Guarded ({ s with locked := b }.goto p (s.nextPc procs p)) := by
  rcases Pc.setLocked_cases hi with ⟨hk, rfl⟩ | ⟨hk, rfl⟩
  · have hfree : s.locked = false := h.vacant p (by rw [hk]; rfl)
    have hnext : s.nextPc procs p = .setPid := by simp [State.nextPc, hk, Pc.next]
    refine h.of_write hinv (p := p) (by simp [hk, Pc.locks]) rfl ?_ ?_ ?_ ?_
      (fun q _ => h.not_owns hfree q) ?_ <;>
      simp [hnext, State.goto, Pc.owns, Pc.vacant, Pc.checked, Pc.named]
  · have hown : (s.pc p).owns = true := by rw [hk]; rfl
    have hnext : s.nextPc procs p = .clearPid := by simp [State.nextPc, hk, Pc.next]
    refine h.of_write hinv (p := p) (by simp [hk, Pc.locks]) rfl ?_ ?_ ?_ ?_
      (fun q hqp => h.not_owns_of_ne hown hqp) ?_ <;>
      simp [hnext, State.goto, Pc.owns, Pc.checked, Pc.named]

theorem Guarded.setPid {r : Option P} (h : Guarded s) (hinv : Inv s)
    (hi : (s.pc p).instr p = some (.setPid r)) :
    Guarded ({ s with pid := r }.goto p (s.nextPc procs p)) := by
  rcases Pc.setPid_cases hi with ⟨hk, rfl⟩ | ⟨hk, rfl⟩
  · have hown : (s.pc p).owns = true := by rw [hk]; rfl
    have hnext : s.nextPc procs p = .acquireEnd := by simp [State.nextPc, hk, Pc.next]
    refine h.of_write hinv (p := p) (by simp [hk, Pc.locks]) rfl ?_ ?_ ?_ ?_
      (fun q hqp => h.not_owns_of_ne hown hqp) ?_ <;>
      simp [hnext, State.goto, Pc.owns, Pc.vacant, Pc.checked, h.locked_of_owns hown]
  · have hfree : s.locked = false := h.vacant p (by rw [hk]; rfl)
    have hnext : s.nextPc procs p = .wakeup (procs.filter (· ≠ p)) := by
      simp [State.nextPc, hk, Pc.next]
    refine h.of_write hinv (p := p) (by simp [hk, Pc.locks]) rfl ?_ ?_ ?_ ?_
      (fun q _ => h.not_owns hfree q) ?_ <;>
      simp [hnext, State.goto, Pc.owns, Pc.vacant, Pc.checked, Pc.named, hfree]

theorem guarded_step [DecidableEq C] (hinv : Inv s) (h : Guarded s) (hs : Step procs s t) : Guarded t := by
  cases hs with
  | pick | choose | leave | switch | intrOn =>
    exact ⟨h.owned, h.owner, h.checked, h.vacant, h.named, h.result⟩
  | call c p f o o' hc hpc ho => exact h.of_keeps hinv (hpc ▸ Pc.keeps_call ho) rfl rfl rfl
  | timer c p o hc hpc hsie => exact h.of_keeps hinv (hpc ▸ Pc.keeps_timer o) rfl rfl rfl
  | acquire _ _ _ _ hi | release _ _ _ _ hi | setChan _ _ _ _ hi | setState _ _ _ _ hi
    | sched _ _ _ hi | sret _ _ _ hi => exact h.of_keeps hinv (Pc.keeps_next hi rfl) rfl rfl rfl
  | setLocked c p b hc hi => exact h.setLocked hinv hi
  | setPid c p q hc hi => exact h.setPid hinv hi
  | wake c p x hc hi hx =>
    rcases hi with hi | hi <;> exact h.of_keeps hinv (Pc.keeps_next hi rfl) rfl rfl rfl
  | idle c p i hc hi hidle =>
    have hwrite : i.isWrite = false := by
      cases i <;> first | rfl | cases hidle
    exact h.of_keeps hinv (Pc.keeps_next hi hwrite) rfl rfl rfl

end Owner

/-! ## Wakeups -/

/-- The process sleeps on the sleep-lock, or is about to. -/
def State.Dozes (s : State C P) (x : P) : Prop :=
  (s.pc x).falling = true ∨ (s.pstate x = .sleeping ∧ s.chan x = true)

/-- Whoever sleeps on a free sleep-lock, or is about to, is still to be visited by a `wakeup`. -/
def Watched (s : State C P) : Prop :=
  ∀ x, s.Dozes x → s.locked = true ∨ ∃ q, q ≠ x ∧ (s.pc q).Wakes x

section Wakeups

variable {s t : State C P} {c : C} {p x : P}

theorem Watched.of_same (h : Watched s) (hpc : t.pc = s.pc) (hlocked : t.locked = s.locked)
    (hdoze : ∀ x, t.Dozes x → s.Dozes x) : Watched t := by
  intro x hx
  rw [hlocked, hpc]
  exact h x (hdoze x hx)

/-- A process that holds the lock of `x` finds `x` not on its way to sleep. -/
theorem Inv.not_falling (hinv : Inv s) (hc : s.ctx c = .running p)
    (hx : Lock.proc x ∈ (s.pc p).locks p) (hxp : x ≠ p) : (s.pc x).falling = false := by
  by_contra hf
  rw [Bool.not_eq_false] at hf
  obtain ⟨d, hd⟩ : ∃ d, s.ctx d = .running x := by
    by_contra hno
    push Not at hno
    have hparked := hinv.placed.parked x hno
    cases hk : s.pc x <;> rw [hk] at hf hparked <;> simp [Pc.falling, Pc.parked] at hf hparked
  have hcd : c = d := by
    refine hinv.locks.excl (l := .proc x) ?_ ?_
    · rwa [holding_running hc]
    · rw [holding_running hd, Pc.own_of_falling hf]
      exact List.mem_cons_self
  rw [hcd, hd] at hc
  cases hc
  exact hxp rfl

variable [DecidableEq P] {procs : List P}

/-- Process `p` goes on to `k`. -/
theorem Watched.of_proc {k : Pc P} (h : Watched s) (hpc : t.pc = update s.pc p k)
    (hlocked : t.locked = s.locked) (hdoze : ∀ x, t.Dozes x → s.Dozes x ∨ s.locked = true)
    (hwake : ∀ x, t.Dozes x → x ≠ p → (s.pc p).Wakes x → k.Wakes x) : Watched t := by
  intro x hx
  rw [hlocked]
  rcases hdoze x hx with hs | hl
  · rcases h x hs with hl | ⟨q, hqx, hq⟩
    · exact .inl hl
    · right
      refine ⟨q, hqx, ?_⟩
      by_cases hqp : q = p
      · subst hqp
        rw [hpc, update_self]
        exact hwake x hx hqx.symm hq
      · rwa [hpc, update_of_ne hqp]
  · exact .inl hl

/-- An instruction of process `p` that leaves `lk->locked` as it is. A `wakeup` that is done with a
process leaves it awake. -/
theorem Watched.of_instr {i : Instr P} (h : Watched s) (hinv : Inv s) (hg : Guarded s)
    (hprocs : ∀ x, x ∈ procs) (hc : s.ctx c = .running p) (hi : (s.pc p).instr p = some i)
    (hpc : t.pc = update s.pc p (s.nextPc procs p)) (hlocked : t.locked = s.locked)
    (hsleep : ∀ x, t.pstate x = .sleeping → t.chan x = true → s.Dozes x)
    (hdone : ∀ x, i = .wakeIf x → ¬ (t.pstate x = .sleeping ∧ t.chan x = true)) : Watched t := by
  apply h.of_proc hpc hlocked
  · intro x hx
    rcases hx with hf | ⟨hst, hch⟩
    · by_cases hxp : x = p
      · subst hxp
        rw [hpc, update_self] at hf
        rcases Pc.falling_next hi hf with hf | hck
        · exact .inl (.inl hf)
        · exact .inr (hg.checked x hck)
      · rw [hpc, update_of_ne hxp] at hf
        exact .inl (.inl hf)
    · exact .inl (hsleep x hst hch)
  · intro x hx hxp hw
    rcases Pc.wakes_next hi (hprocs x) hxp hw with hnext | rfl
    · exact hnext
    · -- the visit: `p` holds the lock of `x`
      exfalso
      rcases hx with hf | hst
      · rw [hpc, update_of_ne hxp] at hf
        rw [hinv.not_falling hc (Pc.proc_of_wake (.inl hi)) hxp] at hf
        cases hf
      · exact hdone x rfl hst

/-- A process outside the spin-locks starts a call or is interrupted. -/
theorem Watched.of_outer {o : Outer P} {k : Pc P} (h : Watched s) (hpc : s.pc p = .outer o)
    (hk : k.falling = false) (ht : t.pc = update s.pc p k) (hlocked : t.locked = s.locked)
    (hpstate : t.pstate = s.pstate) (hchan : t.chan = s.chan) : Watched t := by
  refine h.of_proc ht hlocked ?_ ?_
  · intro x hx
    rcases hx with hf | hst
    · by_cases hxp : x = p
      · subst hxp
        rw [ht, update_self, hk] at hf
        cases hf
      · rw [ht, update_of_ne hxp] at hf
        exact .inl (.inl hf)
    · rw [hpstate, hchan] at hst
      exact .inl (.inr hst)
  · intro x _ _ hw
    rw [hpc] at hw
    cases hw

/-- `lk->locked = 0` is followed by a `wakeup` for all others. -/
theorem Watched.setLocked {b : Bool} (hinv : Inv s) (hc : s.ctx c = .running p)
    (hi : (s.pc p).instr p = some (.setLocked b)) :
    Watched ({ s with locked := b }.goto p (s.nextPc procs p)) := by
  intro x hx
  rcases Pc.setLocked_cases hi with ⟨hk, rfl⟩ | ⟨hk, rfl⟩
  · exact .inl rfl
  · right
    have hnext : s.nextPc procs p = .clearPid := by simp [State.nextPc, hk, Pc.next]
    have hrunning : s.pstate p = .running := hinv.running_of_instr hc hi (by simp)
    refine ⟨p, ?_, by simp [State.goto, hnext, Pc.Wakes]⟩
    rintro rfl
    rcases hx with hf | ⟨hst, -⟩
    · simp [State.goto, hnext, Pc.falling] at hf
    · simp [State.goto, hrunning] at hst

theorem watched_step [DecidableEq C] (hprocs : ∀ x, x ∈ procs) (hinv : Inv s) (hg : Guarded s)
    (h : Watched s) (hs : Step procs s t) : Watched t := by
  have hkept : ∀ x, s.pstate x = .sleeping → s.chan x = true → s.Dozes x :=
    fun x hst hch => .inr ⟨hst, hch⟩
  cases hs with
  | pick | leave | switch | intrOn => exact h.of_same rfl rfl fun _ hx => hx
  | choose c p hc hp =>
    refine h.of_same rfl rfl ?_
    intro x hx
    rcases hx with hf | ⟨hst, hch⟩
    · exact .inl hf
    · have hxp : x ≠ p := by
        rintro rfl
        simp [State.setCtx, State.setPstate] at hst
      exact .inr ⟨by simpa [State.setCtx, State.setPstate, hxp] using hst, hch⟩
  | call _ _ _ _ _ _ hpc | timer _ _ _ _ hpc => exact h.of_outer hpc rfl rfl rfl rfl rfl
  | acquire _ _ _ hc hi | release _ _ _ hc hi | setPid _ _ _ hc hi | sched _ _ hc hi
    | sret _ _ hc hi =>
    exact h.of_instr hinv hg hprocs hc hi rfl rfl hkept (fun _ hne => by cases hne)
  | setLocked c p b hc hi => exact Watched.setLocked hinv hc hi
  | setChan c p b hc hi =>
    refine h.of_instr hinv hg hprocs hc hi rfl rfl ?_ (fun _ hne => by cases hne)
    intro x hst hch
    by_cases hxp : x = p
    · subst hxp
      rcases Pc.setChan_cases hi with ⟨hk, -⟩ | ⟨-, rfl⟩
      · exact .inl (by rw [hk]; rfl)
      · simp [State.goto, State.setChan] at hch
    · exact .inr ⟨hst, by simpa [State.goto, State.setChan, hxp] using hch⟩
  | setState c p st hc hi =>
    refine h.of_instr hinv hg hprocs hc hi rfl rfl ?_ (fun _ hne => by cases hne)
    intro x hst hch
    by_cases hxp : x = p
    · subst hxp
      rcases Pc.setState_cases hi with ⟨hk, -⟩ | ⟨o, -, rfl⟩
      · exact .inl (by rw [hk]; rfl)
      · simp [State.goto, State.setPstate] at hst
    · exact .inr ⟨by simpa [State.goto, State.setPstate, hxp] using hst, hch⟩
  | wake c p y hc hi hy =>
    have hawake : ∀ x, ((s.setPstate y .runnable).goto p (s.nextPc procs p)).pstate x = .sleeping →
        x ≠ y ∧ s.pstate x = .sleeping := by
      intro x hst
      have hxy : x ≠ y := by
        rintro rfl
        simp [State.goto, State.setPstate] at hst
      exact ⟨hxy, by simpa [State.goto, State.setPstate, hxy] using hst⟩
    obtain ⟨i, hi, hdone⟩ : ∃ i, (s.pc p).instr p = some i ∧ ∀ x, i = .wakeIf x → x = y := by
      rcases hi with hi | hi
      · exact ⟨_, hi, fun x hx => by cases hx; rfl⟩
      · exact ⟨_, hi, fun x hx => by cases hx⟩
    refine h.of_instr hinv hg hprocs hc hi rfl rfl ?_ ?_
    · intro x hst hch
      exact hkept x (hawake x hst).2 hch
    · intro x hx hst
      exact (hawake x hst.1).1 (hdone x hx)
  | idle c p i hc hi hidle =>
    refine h.of_instr hinv hg hprocs hc hi rfl rfl hkept ?_
    rintro x rfl
    exact hidle

end Wakeups

/-! ## Whole runs -/

structure Sound (s : State C P) : Prop where
  inv : Inv s
  guarded : Guarded s
  watched : Watched s

theorem Sound.init : Sound (State.init C P) := by
  refine ⟨Inv.init, ?_, ?_⟩
  · constructor <;> simp [State.init, Pc.owns, Pc.checked, Pc.vacant, Pc.named]
  · intro x hx
    rcases hx with hf | ⟨hst, -⟩
    · cases hf
    · cases hst

/-- With `lk->lk` and the sleep-lock free, nobody sleeps on it. -/
theorem Sound.awake {s : State C P} (h : Sound s) (hlk : s.lock .lk = none)
    (hfree : s.locked = false) (x : P) : ¬ (s.pstate x = .sleeping ∧ s.chan x = true) := by
  intro hx
  rcases h.watched x (.inr hx) with hl | ⟨q, -, hq⟩
  · rw [hfree] at hl
    cases hl
  · -- a `wakeup` on its way holds `lk->lk`
    have hmem : Lock.lk ∈ (s.pc q).locks q := Pc.lk_of_wakes hq
    obtain ⟨c, hc⟩ := h.inv.placed.exists_cpu (p := q) (by
      intro heq
      simp [heq] at hmem)
    rw [← holding_running hc] at hmem
    exact h.inv.locks.held.not_mem_of_free hlk c hmem

variable [DecidableEq C] [DecidableEq P] {procs : List P}

theorem Sound.of_step (hprocs : ∀ x, x ∈ procs) {s t : State C P} {e : Event C P} (h : Sound s)
    (hs : step procs s e = .next t) : Sound t := by
  have hstep := step_eq_next hs
  exact ⟨h.inv.step hstep, guarded_step h.inv h.guarded hstep,
    watched_step hprocs h.inv h.guarded h.watched hstep⟩

theorem Sound.of_run (hprocs : ∀ x, x ∈ procs) {s : State C P} (es : List (Event C P))
    (hrun : run (step procs) (State.init C P) es = .next s) : Sound s :=
  run_keeps Sound (fun _ _ _ h hs => h.of_step hprocs hs) es Sound.init hrun

/-- In every state of every run, at most one process holds the sleep-lock; and if `lk->lk` is free and
`lk->locked` is 0, no process is `SLEEPING` on it. -/
theorem sleeplock_excludes_and_wakes (procs : List P) (hprocs : ∀ p, p ∈ procs)
    (es : List (Event C P)) (s : State C P)
    (hrun : run (step procs) (State.init C P) es = .next s) :
    (∀ p q, (s.pc p).owns = true → (s.pc q).owns = true → p = q) ∧
      ¬ (s.lock .lk = none ∧ s.locked = false ∧ ∃ p, s.pstate p = .sleeping ∧ s.chan p = true) := by
  have h : Sound s := Sound.of_run hprocs es hrun
  refine ⟨h.guarded.owner, ?_⟩
  rintro ⟨hlk, hfree, p, hp⟩
  exact h.awake hlk hfree p hp

/-- Two processes on two CPUs: the second one sleeps on the lock of the first, which then releases
it. -/
def handOver : List (Event Bool Bool) :=
  [.pick false false, .scheduler false, .scheduler false, .instr false, .instr false,
    .pick true true, .scheduler true, .scheduler true, .instr true, .instr true,
    .call false .acquiresleep, .instr false, .instr false, .instr false, .instr false, .instr false,
    .call true .acquiresleep, .instr true, .instr true, .instr true, .instr true, .instr true,
    .instr true, .instr true, .scheduler true,
    .call false .releasesleep, .instr false, .instr false, .instr false, .instr false, .instr false,
    .instr false, .instr false]

theorem sleeplock_excludes_and_wakes_handOver :
    ∃ s, run (step [false, true]) (State.init Bool Bool) handOver = .next s ∧
      (s.lock .lk = none ∧ s.locked = false ∧ s.pc true = .clearChan ∧ s.pstate true = .runnable) ∧
      (∀ p q, (s.pc p).owns = true → (s.pc q).owns = true → p = q) ∧
      ¬ (s.lock .lk = none ∧ s.locked = false ∧ ∃ p, s.pstate p = .sleeping ∧ s.chan p = true) := by
  have hany : (run (step [false, true]) (State.init Bool Bool) handOver).any (fun s =>
      decide (s.lock .lk = none ∧ s.locked = false ∧ s.pc true = .clearChan ∧
        s.pstate true = .runnable)) = true := by decide +kernel
  obtain ⟨s, hs, h⟩ := Outcome.exists_of_any hany
  exact ⟨s, hs, of_decide_eq_true h,
    sleeplock_excludes_and_wakes [false, true] (by decide) handOver s hs⟩

end Xv6.SleepLock
