import Mathlib.Init

set_option autoImplicit false

/-! # Machines that can panic

A machine is a step function on states and events. A step goes on to a new state, stops the whole
machine in a panic, or is `disabled`: the event cannot happen in that state. `Machine.run` takes the
events of a list one by one; what holds initially and is kept by every step holds after every run
(`Machine.run_keeps`), and a panic that no step from such a state gives is given by no run
(`Machine.run_ne_panic`). -/

namespace Machine

/-- What an event does to a machine with states `σ` and panics `π`. -/
inductive Outcome (π σ : Type) where
  | next (s : σ)
  | panic (p : π)
  | disabled
  deriving DecidableEq, Repr

variable {π σ ε : Type} {o : Outcome π σ} {s s' : σ} {e : ε} {p : π}

/-- Continue with the new state, if there is one. -/
def Outcome.bind {τ : Type} : Outcome π σ → (σ → Outcome π τ) → Outcome π τ
  | .next s, f => f s
  | .panic p, _ => .panic p
  | .disabled, _ => .disabled

/-- Put the result of a component into a larger machine. -/
def Outcome.map {π' τ : Type} (f : π → π') (g : σ → τ) : Outcome π σ → Outcome π' τ
  | .next s => .next (g s)
  | .panic p => .panic (f p)
  | .disabled => .disabled

@[simp] theorem Outcome.map_eq_next {π' τ : Type} {f : π → π'} {g : σ → τ} {t : τ} :
    o.map f g = .next t ↔ ∃ s, o = .next s ∧ g s = t := by
  cases o <;> simp [Outcome.map]

theorem Outcome.bind_eq_next {τ : Type} {f : σ → Outcome π τ} {t : τ} :
    o.bind f = .next t ↔ ∃ s, o = .next s ∧ f s = .next t := by
  cases o <;> simp [Outcome.bind]

theorem Outcome.bind_next_ne_panic {τ : Type} {f : σ → τ} (h : o ≠ .panic p) :
    (o.bind fun t => .next (f t)) ≠ .panic p := by
  cases o with
  | next | disabled => simp [Outcome.bind]
  | panic q => simpa [Outcome.bind] using h

/-- Go on when the condition holds; the event is disabled otherwise. -/
def Outcome.guard (c : Prop) [Decidable c] (o : Outcome π σ) : Outcome π σ :=
  if c then o else .disabled

@[simp] theorem Outcome.guard_eq_next {c : Prop} [Decidable c] :
    Outcome.guard c o = .next s ↔ c ∧ o = .next s := by
  unfold Outcome.guard
  split <;> simp [*]

@[simp] theorem Outcome.guard_eq_panic {c : Prop} [Decidable c] :
    Outcome.guard c o = .panic p ↔ c ∧ o = .panic p := by
  unfold Outcome.guard
  split <;> simp [*]

theorem Outcome.guard_of_not {c : Prop} [Decidable c] (o : Outcome π σ) (h : ¬ c) :
    Outcome.guard c o = .disabled := if_neg h

theorem Outcome.ne_disabled (h : o = .next s) : o ≠ .disabled := by
  simp [h]

/-- Whether the machine goes on, to a state with a property. -/
def Outcome.any (q : σ → Bool) : Outcome π σ → Bool
  | .next s => q s
  | _ => false

theorem Outcome.exists_of_any {q : σ → Bool} (h : o.any q = true) :
    ∃ s, o = .next s ∧ q s = true := by
  cases o with
  | next s => exact ⟨s, rfl, h⟩
  | panic | disabled => cases h

/-- The panic, if it is one. -/
def Outcome.reason : Outcome π σ → Option π
  | .panic p => some p
  | _ => none

theorem Outcome.eq_panic_of_reason (h : o.reason = some p) : o = .panic p := by
  cases o with
  | next | disabled => cases h
  | panic q => exact congrArg _ (Option.some.inj h)

/-- Whatever happens is no panic, and a state in `I` if it is a state. -/
def Outcome.All (I : σ → Prop) : Outcome π σ → Prop
  | .next s => I s
  | .panic _ => False
  | .disabled => True

theorem Outcome.All.next {I : σ → Prop} (h : o.All I) (ho : o = .next s) :
    I s := by
  rw [ho] at h
  exact h

theorem Outcome.All.ne_panic {I : σ → Prop} (h : o.All I) (p : π) :
    o ≠ .panic p := by
  rintro rfl
  exact h

theorem Outcome.All.guard {I : σ → Prop} {c : Prop} [Decidable c] (h : c → o.All I) :
    (Outcome.guard c o).All I := by
  unfold Outcome.guard
  split
  · next hc => exact h hc
  · exact trivial

/-- The events one after the other, as long as none panics. -/
def run (step : σ → ε → Outcome π σ) : σ → List ε → Outcome π σ
  | s, [] => .next s
  | s, e :: es => (step s e).bind fun s' => run step s' es

variable {step : σ → ε → Outcome π σ}

@[simp] theorem run_nil (s : σ) : run step s [] = .next s := rfl

theorem run_cons_next (es : List ε) (h : step s e = .next s') :
    run step s (e :: es) = run step s' es := by
  simp [run, h, Outcome.bind]

theorem run_cons_panic (es : List ε) (h : step s e = .panic p) :
    run step s (e :: es) = .panic p := by
  simp [run, h, Outcome.bind]

theorem run_cons_disabled (es : List ε) (h : step s e = .disabled) :
    run step s (e :: es) = .disabled := by
  simp [run, h, Outcome.bind]

/-- A run that reaches a state makes a first step and reaches it from there. -/
theorem run_cons_eq_next {es : List ε} (h : run step s (e :: es) = .next s') :
    ∃ s₁, step s e = .next s₁ ∧ run step s₁ es = .next s' := by
  cases hs : step s e with
  | next s₁ => exact ⟨s₁, rfl, by rwa [run_cons_next es hs] at h⟩
  | panic p => rw [run_cons_panic es hs] at h; cases h
  | disabled => rw [run_cons_disabled es hs] at h; cases h

theorem run_append {s₁ : σ} (es fs : List ε) (h : run step s es = .next s₁) :
    run step s (es ++ fs) = run step s₁ fs := by
  induction es generalizing s with
  | nil => cases h; rfl
  | cons e es ih =>
    obtain ⟨s₂, h1, h2⟩ := run_cons_eq_next h
    rw [List.cons_append, run_cons_next _ h1, ih h2]

/-- What every step keeps, every run keeps. -/
theorem run_keeps (I : σ → Prop) (hstep : ∀ s e s', I s → step s e = .next s' → I s') (es : List ε)
    (hs : I s) (h : run step s es = .next s') : I s' := by
  induction es generalizing s with
  | nil => cases h; exact hs
  | cons e es ih =>
    obtain ⟨s₁, h1, h2⟩ := run_cons_eq_next h
    exact ih (hstep s e s₁ hs h1) h2

/-- A machine that never panics from a state in `I` and stays in `I`. -/
theorem run_all (I : σ → Prop) (hstep : ∀ s e, I s → (step s e).All I) (es : List ε) (hs : I s) :
    (run step s es).All I := by
  induction es generalizing s with
  | nil => exact hs
  | cons e es ih =>
    have he := hstep s e hs
    cases h : step s e with
    | next s₁ =>
      rw [run_cons_next es h]
      exact ih (he.next h)
    | panic q => exact absurd h (he.ne_panic q)
    | disabled =>
      rw [run_cons_disabled es h]
      exact trivial

/-- The machine with only those events that meet a condition. -/
def restrict (c : σ → ε → Bool) (step : σ → ε → Outcome π σ) (s : σ) (e : ε) : Outcome π σ :=
  Outcome.guard (c s e = true) (step s e)

theorem restrict_eq_next {c : σ → ε → Bool} :
    restrict c step s e = .next s' ↔ c s e = true ∧ step s e = .next s' :=
  Outcome.guard_eq_next

/-- A panic that no step from a state in `I` gives is given by no run from one. -/
theorem run_ne_panic (I : σ → Prop) (hstep : ∀ s e s', I s → step s e = .next s' → I s')
    (hp : ∀ s e, I s → step s e ≠ .panic p) (es : List ε) (hs : I s) :
    run step s es ≠ .panic p := by
  induction es generalizing s with
  | nil => simp
  | cons e es ih =>
    cases h : step s e with
    | next s₁ => rw [run_cons_next es h]; exact ih (hstep s e s₁ hs h)
    | panic q => rw [run_cons_panic es h]; exact h ▸ hp s e hs
    | disabled => rw [run_cons_disabled es h]; simp

end Machine
