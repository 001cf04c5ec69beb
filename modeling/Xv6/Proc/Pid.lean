import Xv6.Proc.Kill
import Xv6.Proc.Tree

set_option autoImplicit false

/-! # Process ids

`allocpid` counts up from 1 and never looks whether a number is in use. As long as the counter has not
run past the largest `int`, the processes of the table have different positive pids, and the pid that
`fork` returns is that of the child and of no other process (`fork_pid_unique`). After that `fork`
returns a negative pid (`fork_pid_negative`). -/

namespace Xv6.Table

open Machine Function

variable {P : Type}

/-- The slot that `fork` has taken and the pid it is going to return. -/
def Pc.kid : Pc P → Option (P × Int32)
  | .setParent np pid => some (np, pid)
  | .start np pid => some (np, pid)
  | _ => none

/-- The process is in `fork`. -/
def Pc.forking : Pc P → Bool
  | .alloc _ => true
  | .setParent _ _ => true
  | .start _ _ => true
  | _ => false

theorem Pc.child_of_kid {k : Pc P} {c : P × Int32} (h : k.kid = some c) : k.child = some c.1 := by
  cases k with
  | setParent | start =>
    cases h
    rfl
  | _ => cases h

theorem Pc.kid_resume (k : Pc P) : k.resume.kid = k.kid := by
  cases k <;> rfl

/-! ## What a step does to the pids -/

/-- No pid is given out, or one is given to slot `x`, or slot `x` is cleared. -/
inductive Pids (s t : State P) [DecidableEq P] : Prop
  | same (hpid : t.pid = s.pid) (hnext : t.nextpid = s.nextpid)
      (hstate : ∀ x, t.state x ≠ .unused → s.state x ≠ .unused)
      (hkid : ∀ q c, (t.pc q).kid = some c → (s.pc q).kid = some c)
  | alloc (x : P) (hx : s.state x = .unused) (hpid : t.pid = update s.pid x s.nextpid)
      (hnext : t.nextpid = s.nextpid + 1) (hstate : t.state = update s.state x .used)
      (hkid : ∀ q c, (t.pc q).kid = some c → (s.pc q).kid = some c ∨ c = (x, s.nextpid))
  | free (x : P) (hx : s.state x ≠ .used) (hpid : t.pid = update s.pid x 0)
      (hnext : t.nextpid = s.nextpid ∨ t.nextpid = s.nextpid + 1)
      (hstate : t.state = update s.state x .unused)
      (hkid : ∀ q c, (t.pc q).kid = some c → (s.pc q).kid = some c)

section Step

variable [DecidableEq P] {procs : List P} {init : P} {s t : State P} {e : Event P} {p x : P}

omit [DecidableEq P] in
theorem used_of_woken {ch : Option (Chan P)} [DecidableEq P] (h : s.woken x ch ≠ .unused) :
    s.state x ≠ .unused := by
  intro hx
  refine h ?_
  rw [State.woken, if_neg fun hw => ?_]
  · exact hx
  · rw [hx] at hw
    cases hw.1

theorem used_update {v : ProcState} (hv : v ≠ .unused → s.state x ≠ .unused) (y : P)
    (hy : update s.state x v y ≠ .unused) : s.state y ≠ .unused := by
  by_cases hyx : y = x
  · rw [hyx, update_self] at hy
    exact hyx ▸ hv hy
  · rwa [update_of_ne hyx] at hy

theorem kid_update {k : Pc P} (hk : ∀ c, k.kid = some c → (s.pc p).kid = some c) (q : P) (c : P × Int32)
    (hq : (update s.pc p k q).kid = some c) : (s.pc q).kid = some c := by
  by_cases hqp : q = p
  · rw [hqp, update_self] at hq
    exact hqp ▸ hk c hq
  · rwa [update_of_ne hqp] at hq

theorem Quiet.kid {k : Pc P} (h : Quiet procs init s p e k) : k.kid = none := by
  cases h <;> rfl

/-- A step of `p` that goes on to a place without a child. -/
theorem kid_goto {k : Pc P} (hk : k.kid = none) : ∀ q c, (update s.pc p k q).kid = some c →
    (s.pc q).kid = some c :=
  kid_update fun c hc => by
    rw [hk] at hc
    cases hc

theorem step_pids (hinv : Inv init s) (hs : Step procs init s e t) : Pids s t := by
  have hrun : ∀ {v : ProcState} {q : P}, s.state q = .running → v ≠ .unused → s.state q ≠ .unused := by
    intro v q hq _ hunused
    rw [hq] at hunused
    cases hunused
  cases hs with
  | quiet p k hp hq => exact .same rfl rfl (fun _ h => h) (kid_goto hq.kid)
  | fail | lockExit | adopt | lockWait | giveUp => exact .same rfl rfl (fun _ h => h) (kid_goto rfl)
  | alloc p x todo hp hk hx =>
    refine .alloc x hx rfl rfl rfl fun q c hc => ?_
    dsimp only at hc
    by_cases hqp : q = p
    · rw [hqp, update_self] at hc
      exact .inr (Option.some.inj hc).symm
    · rw [update_of_ne hqp] at hc
      exact .inl (kid_goto rfl q c hc)
  | allocFail p x todo hp hk hx =>
    refine .free x (fun h => ?_) rfl (.inr rfl) rfl (kid_goto rfl)
    rw [hx] at h
    cases h
  | setParent p np pid hp hk hl =>
    refine .same rfl rfl (fun _ h => h) (kid_update fun c hc => ?_)
    rw [hk]
    exact hc
  | start p np pid hp hk =>
    have hnp : s.state np = .used := hinv.child p np (by rw [hk]; rfl)
    refine .same rfl rfl (used_update fun _ h => ?_) (kid_goto rfl)
    rw [hnp] at h
    cases h
  | wakeInit | wakeParent => exact .same rfl rfl (used_update used_of_woken) (kid_goto rfl)
  | zombie _ _ hp | waitSleep _ _ hp | sleep _ hp =>
    exact .same rfl rfl (used_update (hrun hp)) (kid_goto rfl)
  | reap p x addr havekids todo hp hk hx hz =>
    refine .free x (fun h => ?_) rfl (.inl rfl) rfl (kid_goto rfl)
    rw [hz] at h
    cases h
  | kill p x pid todo hp hk hx =>
    refine .same rfl rfl (used_update fun h hx => h ?_) (kid_goto rfl)
    rw [hx]
    rfl
  | trap p hp hk => exact .same rfl rfl (fun _ h => h) (fun _ _ h => h)
  | wake p => exact .same rfl rfl (used_update used_of_woken) (fun _ _ h => h)
  | yield p hp hl => exact .same rfl rfl (used_update (hrun hp)) (fun _ _ h => h)
  | dispatch p hp =>
    refine .same rfl rfl (used_update fun _ h => ?_) (kid_update fun c hc => ?_)
    · rw [hp] at h
      cases h
    · rwa [Pc.kid_resume] at hc

/-! ## Different processes have different pids -/

/-- The step calls `allocpid`. -/
def allocates (s : State P) : Event P → Bool
  | .critical p _ =>
    match s.pc p with
    | .alloc (x :: _) => decide (s.state x = .unused)
    | _ => false
  | _ => false

/-- `allocpid` is only called while `nextpid` is positive. -/
def pidsLeft (s : State P) (e : Event P) : Bool := !allocates s e || decide (0 < s.nextpid)

theorem criticalStep_nextpid {ok : Bool} (h : criticalStep procs init s p ok = .next t)
    (hno : allocates s (.critical p ok) = false) : t.nextpid = s.nextpid := by
  unfold criticalStep at h
  split at h
  case h_2 x todo hk =>
    have hx : s.state x ≠ .unused := by
      simpa [allocates, hk] using hno
    cases h
    rw [allocSlot, if_neg hx]
    rfl
  case h_3 => rw [(withLock_eq_next h).2]; rfl
  case h_5 => rw [(withLock_eq_next h).2]; rfl
  case h_7 =>
    cases h
    unfold reparentSlot
    split <;> rfl
  case h_13 => rw [(withLock_eq_next h).2]; rfl
  case h_14 =>
    cases h
    unfold waitEnd
    split <;> rfl
  case h_15 =>
    cases h
    unfold waitSlot
    split
    · split
      · split <;> rfl
      · rfl
    · rfl
  case h_18 =>
    cases h
    unfold killSlot
    split <;> rfl
  all_goals
    cases h
  all_goals rfl

theorem step_nextpid (h : step procs init s e = .next t) (hno : allocates s e = false) :
    t.nextpid = s.nextpid := by
  cases e with
  | critical p ok => exact criticalStep_nextpid (Outcome.guard_eq_next.1 h).2 hno
  | exit | check =>
    obtain ⟨-, rfl⟩ := exitCall_eq_next (Outcome.guard_eq_next.1 h).2
    rfl
  | wake p =>
    cases h
    rfl
  | _ =>
    obtain ⟨-, ht⟩ := Outcome.guard_eq_next.1 h
    cases ht
    rfl

structure PidInv (s : State P) : Prop where
  pos : ∀ x, s.state x ≠ .unused → 0 < s.pid x
  below : 0 < s.nextpid → ∀ x, s.state x ≠ .unused → s.pid x < s.nextpid
  inj : ∀ x y, s.state x ≠ .unused → s.state y ≠ .unused → s.pid x = s.pid y → x = y
  kid : ∀ p c, (s.pc p).kid = some c → s.pid c.1 = c.2

theorem lt_add_one {n : Int32} (h : 0 < n) (h' : 0 < n + 1) : n < n + 1 := by
  have hlt := n.toInt_lt
  rw [Int32.lt_iff_toInt_lt, Int32.toInt_zero] at h h'
  rw [Int32.lt_iff_toInt_lt]
  rw [Int32.toInt_add, Int32.toInt_one, Int.bmod_def] at h' ⊢
  omega

theorem add_one_ne (n : Int32) : n + 1 ≠ n := by
  intro h
  have htoInt := congrArg Int32.toInt h
  have hlt := n.toInt_lt
  have hle := n.le_toInt
  rw [Int32.toInt_add, Int32.toInt_one, Int.bmod_def] at htoInt
  omega

/-- A step that changes the counter has found it positive. -/
theorem pos_of_pidsLeft (hleft : pidsLeft s e = true) (h : step procs init s e = .next t)
    (hnext : t.nextpid = s.nextpid + 1) : 0 < s.nextpid := by
  cases halloc : allocates s e with
  | true => simpa [pidsLeft, halloc] using hleft
  | false => exact absurd (hnext.symm.trans (step_nextpid h halloc)) (add_one_ne _)

theorem PidInv.keep (hinv : Inv init s) (h : PidInv s) (hleft : pidsLeft s e = true)
    (hstep : step procs init s e = .next t) : PidInv t := by
  have hused : ∀ p c, (s.pc p).kid = some c → s.state c.1 = .used := fun p c hc =>
    hinv.child p c.1 (Pc.child_of_kid hc)
  cases step_pids hinv (step_eq_next hstep) with
  | same hpid hnext hstate hkid =>
    refine ⟨fun x hx => ?_, fun hpos x hx => ?_, fun x y hx hy hxy => ?_, fun p c hc => ?_⟩
    · rw [hpid]
      exact h.pos x (hstate x hx)
    · rw [hnext] at hpos
      rw [hpid, hnext]
      exact h.below hpos x (hstate x hx)
    · rw [hpid] at hxy
      exact h.inj x y (hstate x hx) (hstate y hy) hxy
    · rw [hpid]
      exact h.kid p c (hkid p c hc)
  | alloc x hx hpid hnext hstate hkid =>
    have hpos := pos_of_pidsLeft hleft hstep hnext
    have hother : ∀ y, y ≠ x → t.state y ≠ .unused → s.state y ≠ .unused ∧ t.pid y = s.pid y := by
      intro y hyx hy
      rw [hstate, update_of_ne hyx] at hy
      exact ⟨hy, by rw [hpid, update_of_ne hyx]⟩
    have hself : t.pid x = s.nextpid := by rw [hpid, update_self]
    -- the new pid is above all others
    have hlt : ∀ y, y ≠ x → t.state y ≠ .unused → t.pid y < s.nextpid := by
      intro y hyx hy
      obtain ⟨hy', hpid'⟩ := hother y hyx hy
      rw [hpid']
      exact h.below hpos y hy'
    refine ⟨fun y hy => ?_, fun hpos' y hy => ?_, fun y z hy hz hyz => ?_, fun p c hc => ?_⟩
    · by_cases hyx : y = x
      · rw [hyx, hself]
        exact hpos
      · obtain ⟨hy', hpid'⟩ := hother y hyx hy
        rw [hpid']
        exact h.pos y hy'
    · rw [hnext] at hpos' ⊢
      have hnew := lt_add_one hpos hpos'
      by_cases hyx : y = x
      · rw [hyx, hself]
        exact hnew
      · exact Int32.lt_trans (hlt y hyx hy) hnew
    · by_cases hyx : y = x
      · by_cases hzx : z = x
        · exact hyx.trans hzx.symm
        · rw [hyx, hself] at hyz
          exact absurd hyz.symm (Int32.ne_of_lt (hlt z hzx hz))
      · by_cases hzx : z = x
        · rw [hzx, hself] at hyz
          exact absurd hyz (Int32.ne_of_lt (hlt y hyx hy))
        · obtain ⟨hy', hpidy⟩ := hother y hyx hy
          obtain ⟨hz', hpidz⟩ := hother z hzx hz
          rw [hpidy, hpidz] at hyz
          exact h.inj y z hy' hz' hyz
    · rcases hkid p c hc with hc' | rfl
      · have hne : c.1 ≠ x := by
          intro hcx
          have hst := hused p c hc'
          rw [hcx, hx] at hst
          cases hst
        rw [hpid, update_of_ne hne]
        exact h.kid p c hc'
      · exact hself
  | free x hx hpid hnext hstate hkid =>
    have hother : ∀ y, t.state y ≠ .unused → s.state y ≠ .unused ∧ t.pid y = s.pid y := by
      intro y hy
      have hyx : y ≠ x := by
        rintro rfl
        exact hy (by rw [hstate, update_self])
      rw [hstate, update_of_ne hyx] at hy
      exact ⟨hy, by rw [hpid, update_of_ne hyx]⟩
    refine ⟨fun y hy => ?_, fun hpos' y hy => ?_, fun y z hy hz hyz => ?_, fun p c hc => ?_⟩
    · obtain ⟨hy', hpid'⟩ := hother y hy
      rw [hpid']
      exact h.pos y hy'
    · obtain ⟨hy', hpid'⟩ := hother y hy
      rw [hpid']
      rcases hnext with hnext | hnext
      · rw [hnext] at hpos' ⊢
        exact h.below hpos' y hy'
      · have hpos := pos_of_pidsLeft hleft hstep hnext
        rw [hnext] at hpos' ⊢
        exact Int32.lt_trans (h.below hpos y hy') (lt_add_one hpos hpos')
    · obtain ⟨hy', hpidy⟩ := hother y hy
      obtain ⟨hz', hpidz⟩ := hother z hz
      rw [hpidy, hpidz] at hyz
      exact h.inj y z hy' hz' hyz
    · have hc' := hkid p c hc
      have hne : c.1 ≠ x := fun hcx => hx (hcx ▸ hused p c hc')
      rw [hpid, update_of_ne hne]
      exact h.kid p c hc'

theorem PidInv.boot : PidInv (State.init init) := by
  have hstate : ∀ x, (State.init init).state x ≠ .unused → x = init := by
    intro x hx
    by_contra hne
    exact hx (by simp [State.init, hne])
  have hpid : (State.init init).pid init = 1 := by simp [State.init]
  refine ⟨fun x hx => ?_, fun _ x hx => ?_, fun x y hx hy _ => ?_, fun p c hc => by cases hc⟩
  · rw [hstate x hx, hpid]
    decide
  · rw [hstate x hx, hpid]
    exact show (1 : Int32) < 2 by decide
  · rw [hstate x hx, hstate y hy]

/-- When `fork` returns to process `p`, then with -1 or with the pid of one process, which is positive. -/
structure ForkReturns (t : State P) (p : P) : Prop where
  pid : t.a0 p = -1 ∨ 0 < t.a0 p ∧ ∃ np, t.state np ≠ .unused ∧ t.pid np = t.a0 p ∧
    ∀ q, t.state q ≠ .unused → q ≠ np → t.pid q ≠ t.a0 p

/-- A process comes out of `fork` by a step of its own, from the end of `fork` or without a child. -/
theorem fork_returns (hinv : Inv init s) (hs : Step procs init s e t) (hfork : (s.pc p).forking = true)
    (ht : t.pc p = .user) :
    t.a0 p = -1 ∨ ∃ np pid, s.pc p = .start np pid ∧ t = (s.setState np .runnable).ret p pid := by
  have hmove : ∀ {w : P} {k : Pc P}, update s.pc w k p = .user → w = p ∧ k = .user := by
    intro w k hk
    by_cases hw : p = w
    · rw [hw, update_self] at hk
      exact ⟨hw.symm, hk⟩
    · rw [update_of_ne hw] at hk
      rw [hk] at hfork
      cases hfork
  cases hs with
  | quiet w k hw hq =>
    obtain ⟨rfl, rfl⟩ := hmove ht
    cases hq
  | fail | allocFail =>
    obtain ⟨rfl, -⟩ := hmove ht
    exact .inl (update_self ..)
  | alloc w x todo hw hk hx =>
    -- the new slot was in no function
    have hstill := hinv.still x (by rw [hx]; rfl)
    by_cases hpw : p = w
    · dsimp only at ht
      rw [hpw, update_self] at ht
      cases ht
    · dsimp only at ht
      rw [update_of_ne hpw] at ht
      obtain ⟨rfl, -⟩ := hmove ht
      cases hpc : s.pc x <;> rw [hpc] at hstill hfork <;> cases hstill <;> cases hfork
  | start w np pid hw hk =>
    obtain ⟨rfl, -⟩ := hmove ht
    exact .inr ⟨np, pid, hk, rfl⟩
  | reap _ _ _ _ _ _ hk | giveUp _ _ _ _ _ hk | kill _ _ _ _ _ hk =>
    obtain ⟨rfl, -⟩ := hmove ht
    rw [hk] at hfork
    cases hfork
  | trap | wake | yield =>
    rw [show s.pc p = .user from ht] at hfork
    cases hfork
  | dispatch w hw =>
    obtain ⟨rfl, hk⟩ := hmove ht
    cases hpc : s.pc w <;> rw [hpc] at hk hfork <;> cases hk <;> cases hfork
  | _ =>
    obtain ⟨-, hk⟩ := hmove ht
    cases hk

/-- In every run in which `allocpid` is only called while the counter is positive, `fork` returns a
positive pid that no other process has. -/
theorem fork_pid_unique (procs : List P) (init : P) (hprocs : ∀ x, x ∈ procs) (es : List (Event P))
    (s : State P)
    (hrun : run (restrict pidsLeft (step procs init)) (State.init init) es = .next s) :
    ∀ e t p, step procs init s e = .next t → (s.pc p).forking = true → t.pc p = .user → ForkReturns t p := by
  have hboth : Inv init s ∧ PidInv s := by
    refine run_keeps (fun u => Inv init u ∧ PidInv u) ?_ es ⟨Inv.boot, PidInv.boot⟩ hrun
    rintro u e v ⟨hinv, hpid⟩ hstep
    obtain ⟨hleft, hstep⟩ := restrict_eq_next.1 hstep
    exact ⟨hinv.keep hprocs (step_eq_next hstep), hpid.keep hinv hleft hstep⟩
  obtain ⟨hinv, hpid⟩ := hboth
  intro e t p hstep hfork ht
  refine ⟨(fork_returns hinv (step_eq_next hstep) hfork ht).imp_right ?_⟩
  rintro ⟨np, pid, hk, rfl⟩
  have hkid : (s.pc p).kid = some (np, pid) := by
    rw [hk]
    rfl
  have hnp : s.state np = .used := hinv.child p np (Pc.child_of_kid hkid)
  have hne : s.state np ≠ .unused := by
    rw [hnp]
    exact ProcState.noConfusion
  have hpid' : s.pid np = pid := hpid.kid p _ hkid
  have ha0 : ((s.setState np .runnable).ret p pid).a0 p = pid := update_self ..
  have hnp' : (s.setState np .runnable).state np = .runnable := update_self ..
  rw [ha0]
  refine ⟨hpid' ▸ hpid.pos np hne, np, ?_, hpid', fun q hq hqnp heq => hqnp ?_⟩
  · exact fun h => ProcState.noConfusion (hnp'.symm.trans h)
  · refine hpid.inj q np (used_update (fun _ => hne) q hq) hne ?_
    exact heq.trans hpid'.symm

/-- `init` forks a child. -/
def forkOnce : List (Event Bool) :=
  [.dispatch false, .fork false, .critical false true, .critical false true, .critical false true]

theorem fork_pid_unique_forkOnce :
    ∃ s t, run (restrict pidsLeft (step [false, true] false)) (State.init false) forkOnce = .next s ∧
      step [false, true] false s (.critical false true) = .next t ∧
      (t.pc false = .user ∧ t.a0 false = 2) ∧ ForkReturns t false := by
  have hany : (run (restrict pidsLeft (step [false, true] false)) (State.init false) forkOnce).any (fun s =>
      decide ((s.pc false).forking = true) && (step [false, true] false s (.critical false true)).any
        (fun t => decide (t.pc false = .user ∧ t.a0 false = 2))) = true := by
    decide +kernel
  obtain ⟨s, hs, h⟩ := Outcome.exists_of_any hany
  obtain ⟨hfork, h⟩ := (Bool.and_eq_true _ _).mp h
  obtain ⟨t, ht, h⟩ := Outcome.exists_of_any h
  have huser := of_decide_eq_true h
  exact ⟨s, t, hs, ht, huser, fork_pid_unique [false, true] false (by decide) forkOnce s hs _ t false ht
    (of_decide_eq_true hfork) huser.1⟩

end Step

/-! ## The counter runs over -/

/-- `init` forks, and there is no memory for the child. -/
def forkFails : List (Event (Fin NPROC)) := [.fork slot0, .critical slot0 true, .critical slot0 false]

/-- `init` runs, `n` forks have failed, and its last call has returned `r`. -/
def tired (r : Int32) (n : Nat) : State (Fin NPROC) :=
  { State.init slot0 with
    state := update (fun _ => .unused) slot0 .running
    a0 := update (fun _ => 0) slot0 r
    nextpid := Int32.ofNat (n + 2) }

theorem finRange_eq : List.finRange NPROC = slot0 :: slot1 :: (List.finRange NPROC).drop 2 := by decide +kernel

theorem run_forkFails (r : Int32) (n : Nat) (rest : List (Fin NPROC)) :
    run (step (slot0 :: slot1 :: rest) slot0) (tired r n) forkFails = .next (tired (-1) (n + 1)) := by
  have h1 : step (slot0 :: slot1 :: rest) slot0 (tired r n) (.fork slot0) =
      .next ((tired r n).goto slot0 (.alloc (slot0 :: slot1 :: rest))) := rfl
  have h2 : step (slot0 :: slot1 :: rest) slot0 ((tired r n).goto slot0 (.alloc (slot0 :: slot1 :: rest)))
      (.critical slot0 true) =
        .next (((tired r n).goto slot0 (.alloc (slot0 :: slot1 :: rest))).goto slot0 (.alloc (slot1 :: rest))) := rfl
  have h3 : step (slot0 :: slot1 :: rest) slot0
      (((tired r n).goto slot0 (.alloc (slot0 :: slot1 :: rest))).goto slot0 (.alloc (slot1 :: rest)))
      (.critical slot0 false) = .next ((((((tired r n).goto slot0 (.alloc (slot0 :: slot1 :: rest))).goto slot0
        (.alloc (slot1 :: rest))).allocFail slot1).ret slot0 (-1))) := rfl
  rw [forkFails, run_cons_next _ h1, run_cons_next _ h2, run_cons_next _ h3, run_nil]
  -- the free slot is cleared again, and `init` is where it was
  have hclear : ∀ {α : Type} (f : Fin NPROC → α) (v : α), f slot1 = v → update f slot1 v = f :=
    fun f v hf => hf ▸ update_eq_self ..
  have hnext : Int32.ofNat (n + 2) + 1 = Int32.ofNat (n + 1 + 2) := by
    rw [Nat.add_right_comm n 1 2, Int32.ofNat_add (n + 2) 1]
    rfl
  have hpc : update (update (update (fun _ => Pc.user) slot0
      (Pc.alloc (slot0 :: slot1 :: rest))) slot0 (Pc.alloc (slot1 :: rest))) slot0 Pc.user = fun _ => Pc.user := by
    rw [update_idem, update_idem]
    exact update_eq_self ..
  simp only [State.ret, State.allocFail, State.freeproc, State.goto, tired, State.init, Outcome.next.injEq,
    State.mk.injEq]
  refine ⟨hclear _ _ rfl, hclear _ _ rfl, hclear _ _ rfl, hclear _ _ rfl, hclear _ _ rfl, hclear _ _ rfl,
    update_idem .., hpc, trivial, trivial, hnext, trivial, trivial⟩

theorem run_dispatch : run (step (List.finRange NPROC) slot0) (State.init slot0) [.dispatch slot0] =
    .next (tired 0 0) := by
  have h : step (List.finRange NPROC) slot0 (State.init slot0) (.dispatch slot0) =
      .next ((State.init slot0).resume slot0) := rfl
  rw [run_cons_next _ h, run_nil]
  simp only [State.resume, tired, State.init, Outcome.next.injEq, State.mk.injEq]
  refine ⟨update_idem .., ?_, trivial, trivial, trivial, trivial, ?_, ?_, trivial, trivial, rfl, trivial,
    trivial⟩
  · exact update_eq_self ..
  · exact (update_eq_self ..).symm
  · exact update_eq_self ..

theorem run_rounds (r : Int32) (n : Nat) : run (step (List.finRange NPROC) slot0) (tired r 0)
    (List.replicate (n + 1) forkFails).flatten = .next (tired (-1) (n + 1)) := by
  have hround : ∀ r k, run (step (List.finRange NPROC) slot0) (tired r k) forkFails = .next (tired (-1) (k + 1)) := by
    intro r k
    rw [finRange_eq]
    exact run_forkFails r k _
  induction n with
  | zero => exact hround r 0
  | succ n ih =>
    rw [List.replicate_succ', List.flatten_append, run_append _ _ ih]
    exact hround (-1) (n + 1)

/-- After `2 ^ 31 - 2` failed forks, `fork` returns a negative pid. -/
theorem fork_pid_negative :
    ∃ es s t, run (step (List.finRange NPROC) slot0) (State.init slot0) es = .next s ∧
      (s.pc slot0).forking = true ∧ step (List.finRange NPROC) slot0 s (.critical slot0 true) = .next t ∧
      t.pc slot0 = .user ∧ t.a0 slot0 = -2147483648 ∧ t.pid slot1 = -2147483648 := by
  have hany : (run (step (List.finRange NPROC) slot0) (tired (-1) (2 ^ 31 - 3 + 1))
      [.fork slot0, .critical slot0 true, .critical slot0 true, .critical slot0 true]).any (fun s =>
        decide ((s.pc slot0).forking = true) && (step (List.finRange NPROC) slot0 s (.critical slot0 true)).any
          (fun t => decide (t.pc slot0 = .user ∧ t.a0 slot0 = -2147483648 ∧ t.pid slot1 = -2147483648))) = true := by
    decide +kernel
  obtain ⟨s, hs, h⟩ := Outcome.exists_of_any hany
  obtain ⟨hfork, h⟩ := (Bool.and_eq_true _ _).mp h
  obtain ⟨t, ht, h⟩ := Outcome.exists_of_any h
  have hrun := (run_append _ _ run_dispatch).trans (run_rounds 0 (2 ^ 31 - 3))
  exact ⟨_, s, t, (run_append _ _ hrun).trans hs, of_decide_eq_true hfork, ht, of_decide_eq_true h⟩

end Xv6.Table
