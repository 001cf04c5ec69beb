import Xv6.Lib.Wp

set_option autoImplicit false

/-! # Simulation of programs

Two programs over different states, with a relation between the states. `sim R x y s t` says that
what `x` returns in `s` is what `y` returns in `t`, and that the states are related again. Nothing is
said when `x` fails. The rules take both programs apart in step. -/

namespace Wp

variable {σ τ ε α β : Type} {R : σ → τ → Prop} {s : σ} {t : τ}

/-- A result of `x` is a result of `y`. -/
def sim (R : σ → τ → Prop) (x : StateT σ (Except ε) α) (y : StateT τ (Except ε) α) (s : σ) (t : τ) :
    Prop :=
  wp x (fun a s' => ∃ t', y t = .ok (a, t') ∧ R s' t') (fun _ => True) s

variable {x x' : StateT σ (Except ε) α} {y y' : StateT τ (Except ε) α}

theorem sim_pure (a : α) (h : R s t) :
    sim R (pure a : StateT σ (Except ε) α) (pure a) s t :=
  ⟨t, rfl, h⟩

theorem sim_throw (e : ε) : sim R (throw e) y s t := trivial

theorem sim_bind {f : α → StateT σ (Except ε) β} {g : α → StateT τ (Except ε) β}
    (h : sim R x y s t) (hf : ∀ a s' t', R s' t' → sim R (f a) (g a) s' t') :
    sim R (x >>= f) (y >>= g) s t := by
  unfold sim
  rw [wp_bind]
  refine wp.mono h (fun a s' => ?_) (fun _ he => he)
  rintro ⟨t', hy, hr⟩
  refine wp.mono (hf a s' t' hr) (fun b s'' => ?_) (fun _ he => he)
  rintro ⟨t'', hg, hr'⟩
  exact ⟨t'', by rw [bind_of_ok hy, hg], hr'⟩

/-- The first two steps as one. -/
theorem sim_assoc {γ : Type} {x : StateT σ (Except ε) γ} {f : γ → StateT σ (Except ε) β}
    {g : β → StateT σ (Except ε) α} (h : sim R ((x >>= f) >>= g) y s t) :
    sim R (x >>= fun a => f a >>= g) y s t := by
  rwa [bind_assoc] at h

/-- Both programs look at their states. -/
theorem sim_get {f : σ → StateT σ (Except ε) β} {g : τ → StateT τ (Except ε) β}
    (h : sim R (f s) (g t) s t) : sim R (get >>= f) (get >>= g) s t := h

theorem sim_modify {f : σ → σ} {g : τ → τ} (h : R (f s) (g t)) :
    sim R (modify f : StateT σ (Except ε) PUnit) (modify g) s t :=
  ⟨g t, rfl, h⟩

theorem sim_ite {c : Prop} [Decidable c] (h : c → sim R x y s t) (h' : ¬ c → sim R x' y' s t) :
    sim R (if c then x else x') (if c then y else y') s t := by
  split
  · next hc => exact h hc
  · next hc => exact h' hc

/-- A check of the first program that the second one does not make. -/
theorem sim_check {c : Prop} [Decidable c] {e : ε} (h : c → sim R x y s t) :
    sim R (if c then x else throw e) y s t := by
  split
  · next hc => exact h hc
  · exact sim_throw e

end Wp
