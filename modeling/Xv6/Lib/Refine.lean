import Xv6.Lib.Wp

set_option autoImplicit false

/-! # Weakest preconditions through an abstraction

`R v s` says that the abstract value `v` describes the state `s`. `rwp R x Q E v` says that `x`,
started in any state that `v` describes, ends in a state that is described again, by a value in `Q`,
or fails with an error in `E`. The rules are those of `Wp.wp`, with abstract values in the place of
states, so a program that only works through operations with such a rule is verified without
looking at the states. -/

namespace Wp

variable {σ ε α β ν : Type} {R : ν → σ → Prop}

/-- `x` takes what `v` describes into `Q`, or fails in `E`. -/
def rwp (R : ν → σ → Prop) (x : StateT σ (Except ε) α) (Q : α → ν → Prop) (E : ε → Prop) (v : ν) :
    Prop :=
  ∀ s, R v s → wp x (fun a s' => ∃ v', R v' s' ∧ Q a v') E s

variable {Q : α → ν → Prop} {E : ε → Prop} {v : ν}

theorem rwp_pure {a : α} (h : Q a v) : rwp R (pure a : StateT σ (Except ε) α) Q E v :=
  fun _ hs => ⟨v, hs, h⟩

theorem rwp_throw {e : ε} (h : E e) : rwp R (throw e : StateT σ (Except ε) α) Q E v :=
  fun _ _ => h

theorem rwp_get {Q : σ → ν → Prop} (h : ∀ s, R v s → Q s v) :
    rwp R (get : StateT σ (Except ε) σ) Q E v :=
  fun s hs => ⟨v, hs, h s hs⟩

theorem rwp_bind {x : StateT σ (Except ε) α} {f : α → StateT σ (Except ε) β} {P : β → ν → Prop}
    (h : rwp R x (fun a v' => rwp R (f a) P E v') E v) : rwp R (x >>= f) P E v := by
  intro s hs
  rw [wp_bind]
  refine (h s hs).mono (fun a s' => ?_) (fun _ he => he)
  rintro ⟨v', hs', hf⟩
  exact hf s' hs'

/-- A rule for two statements, used at the front of a longer sequence. -/
theorem rwp_then {x : StateT σ (Except ε) PUnit} {y : StateT σ (Except ε) α}
    {f : α → StateT σ (Except ε) β} {P : β → ν → Prop}
    (h : rwp R (do x; y) (fun a v' => rwp R (f a) P E v') E v) :
    rwp R (do x; let a ← y; f a) P E v := by
  have := rwp_bind h
  rwa [bind_assoc] at this

theorem rwp_ite {c : Prop} [Decidable c] {x y : StateT σ (Except ε) α} (hx : c → rwp R x Q E v)
    (hy : ¬ c → rwp R y Q E v) : rwp R (if c then x else y) Q E v := by
  split
  · next hc => exact hx hc
  · next hc => exact hy hc

/-- The rule of consequence. -/
theorem rwp.mono {Q' : α → ν → Prop} {x : StateT σ (Except ε) α} (h : rwp R x Q E v)
    (hQ : ∀ a v', Q a v' → Q' a v') : rwp R x Q' E v := by
  intro s hs
  refine (h s hs).mono (fun a s' => ?_) (fun _ he => he)
  rintro ⟨v', hs', hq⟩
  exact ⟨v', hs', hQ a v' hq⟩

/-- What every state described by a value has in common may be assumed. -/
theorem rwp.of_inv {x : StateT σ (Except ε) α} (I : ν → Prop) (hI : ∀ v s, R v s → I v)
    (h : I v → rwp R x Q E v) : rwp R x Q E v :=
  fun s hs => h (hI v s hs) s hs

/-- A loop over a list: the invariant says what holds when the rounds of a front part are done. -/
theorem rwp_forM {ι : Type} {f : ι → StateT σ (Except ε) PUnit} {l : List ι}
    (I : List ι → ν → Prop) {Q : PUnit → ν → Prop} (h0 : I [] v)
    (hstep : ∀ done i rest v', l = done ++ i :: rest → I done v' →
      rwp R (f i) (fun _ v'' => I (done ++ [i]) v'') E v')
    (hend : ∀ v', I l v' → Q ⟨⟩ v') : rwp R (l.forM f) Q E v := by
  intro s hs
  refine wp_forM (fun done s' => ∃ v', R v' s' ∧ I done v') ⟨v, hs, h0⟩ ?_ ?_
  · rintro done i rest s' hl ⟨v', hs', hI⟩
    exact hstep done i rest v' hl hI s' hs'
  · rintro s' ⟨v', hs', hI⟩
    exact ⟨v', hs', hend v' hI⟩

end Wp
