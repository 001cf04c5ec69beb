import Xv6.Log.Ops

set_option autoImplicit false

/-! # The invariant of the log operations

`log.outstanding` counts the processes between `begin_op` and `end_op`; a commit runs only while
there are none, by one process; a process that sleeps in `begin_op` still has a reason to. Each step
keeps the invariant (`Inv.keep`), so every run from an initial state does (`group_commit`). The panics
`log_write outside of trans` and `log.committing` cannot happen in such a state, and
`too big a transaction` happens exactly when the group has used up its entries. -/

namespace Xv6.Log

open Machine Function

variable {P : Type}

/-- In `commit`, or on the way back from it. -/
def Pc.committing : Pc → Bool
  | .commit => true
  | .finish => true
  | _ => false

/-- The invariant of the log operations. -/
structure Inv [Fintype P] (s : State P) : Prop where
  /-- `log.outstanding` is the number of operations in progress. -/
  count : s.outstanding = tally s.pc (· = Pc.inOp)
  /-- A commit runs only when no operation is in progress. -/
  quiet : s.committing = true → s.outstanding = 0
  /-- `log.committing` is set while a process is in `commit`. -/
  busy : ∀ p, (s.pc p).committing = true → s.committing = true
  /-- One process commits at a time. -/
  single : ∀ p q, (s.pc p).committing = true → (s.pc q).committing = true → p = q
  /-- The holder of `log.lock` is where its critical section starts from. -/
  holder : ∀ p a, s.lock = some (p, a) → a.from (s.pc p) = true
  /-- A process asleep in `begin_op` has to wait. -/
  asleep : ∀ p, s.pc p = .sleeping → s.mustWait
  /-- The entries are pairwise distinct. -/
  nodup : s.block.Nodup
  /-- After `commit` the log is empty. -/
  erased : ∀ p, s.pc p = .finish → s.block = []

theorem Act.from_inOp {a : Act} {c : Pc} (h : a.from c = true)
    (ha : a = .endOp ∨ ∃ b, a = .logWrite b) : c = .inOp := by
  rcases ha with rfl | ⟨b, rfl⟩ <;> cases c <;> simp_all [Act.from]

theorem Act.from_finish {c : Pc} (h : Act.finish.from c = true) : c = .finish := by
  cases c <;> simp_all [Act.from]

theorem Act.from_beginOp {c : Pc} (h : Act.beginOp.from c = true) : c = .out ∨ c = .woken := by
  cases c <;> simp_all [Act.from]

/-! ## `wakeup` -/

theorem wakeup_ne_sleeping (pc : P → Pc) (p : P) : wakeup pc p ≠ .sleeping := by
  unfold wakeup
  split
  · simp
  · assumption

/-- Waking up concerns sleepers only. -/
theorem wakeup_eq_iff {c : Pc} (h1 : c ≠ .sleeping) (h2 : c ≠ .woken) (pc : P → Pc) (p : P) :
    wakeup pc p = c ↔ pc p = c := by
  unfold wakeup
  split
  · next h => rw [h]; constructor <;> intro h' <;> simp_all
  · rfl

theorem wakeup_committing (pc : P → Pc) (p : P) : (wakeup pc p).committing = (pc p).committing := by
  unfold wakeup
  split
  · next h => rw [h]; rfl
  · rfl

theorem record_nodup {block : List Nat} (h : block.Nodup) (b : Nat) : (record block b).Nodup := by
  unfold record
  split
  · exact h
  · next hb => exact List.nodup_append.2 ⟨h, by simp, by
      intro x hx y hy
      rw [List.mem_singleton.1 hy]
      exact fun he => hb (he ▸ hx)⟩

theorem length_record_le (block : List Nat) (b : Nat) :
    block.length ≤ (record block b).length := by
  unfold record
  split <;> simp

section Steps

variable [Fintype P]

theorem Inv.outstanding_pos {s : State P} (h : Inv s) {p : P} (hp : s.pc p = .inOp) :
    1 ≤ s.outstanding := by
  have := tally_pos_of (f := s.pc) (q := (· = Pc.inOp)) hp
  rw [h.count]
  omega

/-- No operation is in progress while a commit runs. -/
theorem Inv.not_inOp {s : State P} (h : Inv s) (hc : s.committing = true) (p : P) :
    s.pc p ≠ .inOp := by
  intro hp
  have h1 := h.outstanding_pos hp
  have h2 := h.quiet hc
  omega

theorem Inv.holder_inOp {s : State P} (h : Inv s) {p : P} {a : Act} (hl : s.lock = some (p, a))
    (ha : a = .endOp ∨ ∃ b, a = .logWrite b) : s.pc p = .inOp :=
  Act.from_inOp (h.holder p a hl) ha

omit [Fintype P] in
/-- Waiting for log space does not end by logging more or by admitting others. -/
theorem mustWait_mono {s s' : State P} (h : s.mustWait) (hc : s'.committing = s.committing)
    (hn : s.n ≤ s'.n) (ho : s.outstanding ≤ s'.outstanding) : s'.mustWait := by
  rcases h with h | h
  · exact Or.inl (hc.trans h)
  · right
    have hM : (MAXOPBLOCKS : Int) = 10 := rfl
    rw [hM] at h ⊢
    omega

/-- The invariant holds initially. -/
theorem Inv.init (nlog : Nat) : Inv (State.init P nlog) where
  count := by
    have : tally (State.init P nlog).pc (· = Pc.inOp) = 0 :=
      tally_eq_zero_iff.2 (fun x => by simp [State.init])
    rw [this]; rfl
  quiet := fun _ => rfl
  busy := fun p hp => by simp [State.init, Pc.committing] at hp
  single := fun p q hp => by simp [State.init, Pc.committing] at hp
  holder := fun p a hl => by simp [State.init] at hl
  asleep := fun p hp => by simp [State.init] at hp
  nodup := List.nodup_nil
  erased := fun p hp => by simp [State.init] at hp

theorem tally_inOp_wakeup (pc : P → Pc) :
    tally (wakeup pc) (· = Pc.inOp) = tally pc (· = Pc.inOp) :=
  tally_congr (fun x => wakeup_eq_iff (by simp) (by simp) pc x)

end Steps

/-! ## Each step keeps the invariant -/

section Preservation

variable [DecidableEq P]

theorem committing_update {pc : P → Pc} {p q : P} {c : Pc} (hc : c.committing = false)
    (h : (update pc p c q).committing = true) : (pc q).committing = true := by
  by_cases hqp : q = p
  · subst hqp
    rw [update_self, hc] at h
    cases h
  · rwa [update_of_ne hqp] at h

theorem update_eq_of_ne {pc : P → Pc} {p q : P} {c c' : Pc} (hc : c ≠ c')
    (h : update pc p c q = c') : pc q = c' := by
  by_cases hqp : q = p
  · subst hqp
    rw [update_self] at h
    exact absurd h hc
  · rwa [update_of_ne hqp] at h

theorem wakeup_update_committing {pc : P → Pc} {p q : P}
    (h : (wakeup (update pc p .out) q).committing = true) :
    (pc q).committing = true := by
  rw [wakeup_committing] at h
  exact committing_update rfl h

variable {s s' : State P} {e : Event P}

/-- Entering `commit` or leaving it: where the process in `commit` was before the step. -/
theorem Step.committing_of (hs : Step s e s') {q : P} (hq : (s'.pc q).committing = true) :
    (s.pc q).committing = true ∨
      (e = .leave q .endOp ∧ s.lock = some (q, .endOp) ∧ s.committing = false ∧
        s'.committing = true) := by
  cases hs with
  | enter | write | clear => exact Or.inl hq
  | sleep | admitted | wake => exact Or.inl (committing_update rfl hq)
  | last p hl hc ho =>
    by_cases hqp : q = p
    · subst hqp; exact Or.inr ⟨rfl, hl, hc, rfl⟩
    · simp only [update_of_ne hqp] at hq; exact Or.inl hq
  | done | finish => exact Or.inl (wakeup_update_committing hq)
  | ret p hp hb =>
    by_cases hqp : q = p
    · subst hqp; rw [hp]; exact Or.inl rfl
    · simp only [update_of_ne hqp] at hq; exact Or.inl hq

variable [Fintype P]

theorem Inv.step_count (h : Inv s) (hs : Step s e s') :
    s'.outstanding = tally s'.pc (· = Pc.inOp) := by
  have hcount := h.count
  cases hs with
  | enter | write | clear => exact hcount
  | sleep p hl hw =>
    rw [tally_update_same, hcount]
    rcases Act.from_beginOp (h.holder p _ hl) with hp | hp <;> simp [hp]
  | admitted p hl hw =>
    have hp : ¬ s.pc p = .inOp := by
      rcases Act.from_beginOp (h.holder p _ hl) with hp | hp <;> simp [hp]
    have := tally_update_gain (f := s.pc) (q := (· = Pc.inOp)) (a := .inOp) hp rfl
    simp only
    omega
  | last p hl hc ho =>
    have := tally_update_lose (f := s.pc) (q := (· = Pc.inOp)) (a := .commit)
      (h.holder_inOp hl (Or.inl rfl)) (by simp)
    simp only
    omega
  | done p hl hc ho =>
    have := tally_update_lose (f := s.pc) (q := (· = Pc.inOp)) (a := .out)
      (h.holder_inOp hl (Or.inl rfl)) (by simp)
    simp only [tally_inOp_wakeup]
    omega
  | finish p hl =>
    rw [tally_inOp_wakeup, tally_update_same, hcount]
    simp [Act.from_finish (h.holder p _ hl)]
  | ret _ hp | wake _ hp => rw [tally_update_same, hcount]; simp [hp]

theorem Inv.step_quiet (h : Inv s) (hs : Step s e s') (hc' : s'.committing = true) :
    s'.outstanding = 0 := by
  cases hs with
  | admitted p hl hw => exact absurd (Or.inl hc') hw
  | last p hl hc ho => rfl
  | done p hl hc ho => rw [show s.committing = true from hc'] at hc; cases hc
  | finish p hl => cases hc'
  | _ => exact h.quiet hc'

/-- While a process is in `commit` the flag stays set: it is cleared by that process only, when it
    leaves. -/
theorem Inv.step_busy (h : Inv s) (hs : Step s e s') (q : P) (hq : (s'.pc q).committing = true) :
    s'.committing = true := by
  rcases hs.committing_of hq with hq0 | ⟨-, -, -, hc'⟩
  · have hc := h.busy q hq0
    cases hs with
    | finish p hl =>
      have hp := Act.from_finish (h.holder p _ hl)
      have hqp : q = p := h.single q p hq0 (by rw [hp]; rfl)
      subst hqp
      simp only [wakeup_committing, update_self] at hq
      cases hq
    | last p hl hc0 ho => rfl
    | _ => exact hc
  · exact hc'

theorem Inv.step_single (h : Inv s) (hs : Step s e s') (q r : P)
    (hq : (s'.pc q).committing = true) (hr : (s'.pc r).committing = true) : q = r := by
  rcases hs.committing_of hq with hq0 | ⟨he, hl, hc, -⟩
  · rcases hs.committing_of hr with hr0 | ⟨he', hl', hc', -⟩
    · exact h.single q r hq0 hr0
    · rw [h.busy q hq0] at hc'; cases hc'
  · rcases hs.committing_of hr with hr0 | ⟨he', hl', hc', -⟩
    · rw [h.busy r hr0] at hc; cases hc
    · rw [hl] at hl'
      simp only [Option.some.injEq, Prod.mk.injEq] at hl'
      exact hl'.1

theorem Inv.step_holder (h : Inv s) (hs : Step s e s') (q : P) (a : Act)
    (hl' : s'.lock = some (q, a)) : a.from (s'.pc q) = true := by
  cases hs with
  | enter p b hl hb =>
    simp only [Option.some.injEq, Prod.mk.injEq] at hl'
    obtain ⟨rfl, rfl⟩ := hl'
    exact hb
  | clear p hp => exact h.holder q a hl'
  | ret p hp | wake p hp =>
    have hq := h.holder q a hl'
    by_cases hqp : q = p
    · subst hqp
      rw [hp] at hq
      cases a <;> simp [Act.from] at hq
    · simpa only [update_of_ne hqp] using hq
  | _ => cases hl'

/-- Nobody is left asleep without a reason: a step that removes the reason wakes the sleepers. -/
theorem Inv.step_asleep (h : Inv s) (hs : Step s e s') (q : P) (hq : s'.pc q = .sleeping) :
    s'.mustWait := by
  cases hs with
  | enter p a hl ha => exact h.asleep q hq
  | sleep p hl hw => exact hw
  | admitted p hl hw =>
    have hq0 := update_eq_of_ne (by simp) hq
    exact mustWait_mono (h.asleep q hq0) rfl (Nat.le_refl _) (by simp only; omega)
  | write p b hl hn hsize ho =>
    exact mustWait_mono (h.asleep q hq) rfl (length_record_le _ _) (Int.le_refl _)
  | last p hl hc ho => exact Or.inl rfl
  | done | finish => exact absurd hq (wakeup_ne_sleeping _ q)
  | clear p hp => exact Or.inl (h.busy p (by rw [hp]; rfl))
  | ret | wake => exact h.asleep q (update_eq_of_ne (by simp) hq)

theorem Inv.step_nodup (h : Inv s) (hs : Step s e s') : s'.block.Nodup := by
  cases hs with
  | write p b hl hn hsize ho => exact record_nodup h.nodup b
  | clear p hp => exact List.nodup_nil
  | _ => exact h.nodup

theorem Inv.step_erased (h : Inv s) (hs : Step s e s') (q : P) (hq : s'.pc q = .finish) :
    s'.block = [] := by
  cases hs with
  | enter p a hl ha => exact h.erased q hq
  | sleep | admitted | last | wake => exact h.erased q (update_eq_of_ne (by simp) hq)
  | write p b hl hn hsize ho =>
    -- an operation is in progress, so nobody is on the way back from `commit`
    have hc : s.committing = true := h.busy q (by rw [show s.pc q = .finish from hq]; rfl)
    exact absurd (h.holder_inOp hl (Or.inr ⟨b, rfl⟩)) (h.not_inOp hc p)
  | done | finish =>
    exact h.erased q (update_eq_of_ne (by simp) ((wakeup_eq_iff (by simp) (by simp) _ q).1 hq))
  | clear p hp => rfl
  | ret p hp hb => exact hb

theorem Inv.keep (h : Inv s) (hs : Step s e s') : Inv s' where
  count := h.step_count hs
  quiet := h.step_quiet hs
  busy := h.step_busy hs
  single := h.step_single hs
  holder := h.step_holder hs
  asleep := h.step_asleep hs
  nodup := h.step_nodup hs
  erased := h.step_erased hs

theorem Inv.step_panic {π : Panic} (h : Inv s) (hp : step s e = .panic π) : π = .tooBig := by
  rcases step_panic_cases hp with ⟨p, b, -, -, rfl, -⟩ | ⟨p, b, -, hl, -, ho⟩ | ⟨p, -, hl, -, hc⟩
  · rfl
  · have := h.outstanding_pos (h.holder_inOp hl (Or.inr ⟨b, rfl⟩))
    omega
  · exact absurd (h.holder_inOp hl (Or.inl rfl)) (h.not_inOp hc p)

/-- Every run from the initial state keeps the invariant, and can panic only as the log is full. -/
theorem group_commit (nlog : Nat) (es : List (Event P)) :
    (∀ s, run step (State.init P nlog) es = .next s → Inv s) ∧
      ∀ π, π ≠ .tooBig → run step (State.init P nlog) es ≠ .panic π := by
  have hkeep : ∀ (s : State P) e s', Inv s → step s e = .next s' → Inv s' := fun _ _ _ hi hs =>
    hi.keep (step_eq_next hs)
  exact ⟨fun s => run_keeps Inv hkeep es (Inv.init nlog), fun π hne =>
    run_ne_panic Inv hkeep (fun _ _ hi hp => hne (hi.step_panic hp)) es (Inv.init nlog)⟩

end Preservation

end Xv6.Log
