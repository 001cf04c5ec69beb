import Mathlib.Init

set_option autoImplicit false

/-! # Weakest preconditions of programs with a state and failures

A program over a state `σ` that can fail with an `ε` is a `StateT σ (Except ε)`. `wp x Q E s` says
that `x`, started in `s`, ends with a result and a state in `Q` or fails with an error in `E`. The
rules below take a program apart along its `do` block; a loop over a list of rounds is handled with
an invariant (`wp_forM`). -/

namespace Wp

variable {σ ε α β : Type}

/-- What must hold of the state for `x` to end in `Q` or to fail in `E`. -/
def wp (x : StateT σ (Except ε) α) (Q : α → σ → Prop) (E : ε → Prop) (s : σ) : Prop :=
  match x s with
  | .ok (a, s') => Q a s'
  | .error e => E e

variable {Q : α → σ → Prop} {R : β → σ → Prop} {E : ε → Prop} {s : σ}

@[simp] theorem wp_pure (a : α) : wp (pure a : StateT σ (Except ε) α) Q E s ↔ Q a s := Iff.rfl

@[simp] theorem wp_bind (x : StateT σ (Except ε) α) (f : α → StateT σ (Except ε) β) :
    wp (x >>= f) R E s ↔ wp x (fun a s' => wp (f a) R E s') E s := by
  unfold wp
  show (match (x s >>= fun p => f p.1 p.2) with
    | .ok (b, s') => R b s'
    | .error e => E e) ↔ _
  cases x s with
  | error | ok => rfl

@[simp] theorem wp_get {Q : σ → σ → Prop} :
    wp (get : StateT σ (Except ε) σ) Q E s ↔ Q s s := Iff.rfl

@[simp] theorem wp_set {Q : PUnit → σ → Prop} (s' : σ) :
    wp (set s' : StateT σ (Except ε) PUnit) Q E s ↔ Q ⟨⟩ s' := Iff.rfl

@[simp] theorem wp_modify {Q : PUnit → σ → Prop} (f : σ → σ) :
    wp (modify f : StateT σ (Except ε) PUnit) Q E s ↔ Q ⟨⟩ (f s) := Iff.rfl

@[simp] theorem wp_throw (e : ε) : wp (throw e : StateT σ (Except ε) α) Q E s ↔ E e := Iff.rfl

@[simp] theorem wp_ite (c : Prop) [Decidable c] (x y : StateT σ (Except ε) α) :
    wp (if c then x else y) Q E s ↔ (c → wp x Q E s) ∧ (¬ c → wp y Q E s) := by
  by_cases hc : c <;> simp [hc]

/-- The rule of consequence. -/
theorem wp.mono {Q' : α → σ → Prop} {E' : ε → Prop} {x : StateT σ (Except ε) α}
    (h : wp x Q E s) (hQ : ∀ a s', Q a s' → Q' a s') (hE : ∀ e, E e → E' e) : wp x Q' E' s := by
  unfold wp at h ⊢
  split
  · next hx => rw [hx] at h; exact hQ _ _ h
  · next hx => rw [hx] at h; exact hE _ h

/-- What holds of every result holds of a result. -/
theorem wp.of_ok {x : StateT σ (Except ε) α} {a : α} {s' : σ} (h : wp x Q E s)
    (hx : x s = .ok (a, s')) : Q a s' := by
  unfold wp at h
  rw [hx] at h
  exact h

theorem wp_of_eq {x : StateT σ (Except ε) α} {a : α} {s' : σ} (hx : x s = .ok (a, s'))
    (h : Q a s') : wp x Q E s := by
  unfold wp
  rw [hx]
  exact h

theorem wp.of_error {x : StateT σ (Except ε) α} {e : ε} (h : wp x Q E s)
    (hx : x s = .error e) : E e := by
  unfold wp at h
  rw [hx] at h
  exact h

/-- A program that cannot fail and has one result. -/
theorem wp.eq_ok {x : StateT σ (Except ε) α} {a : α} {s' : σ}
    (h : wp x (fun b t => b = a ∧ t = s') (fun _ => False) s) : x s = .ok (a, s') := by
  unfold wp at h
  split at h
  · next hx => rw [hx, h.1, h.2]
  · exact h.elim

/-- A program that cannot fail has a result. -/
theorem wp.exists_ok {x : StateT σ (Except ε) α} (h : wp x Q (fun _ => False) s) :
    ∃ a s', x s = .ok (a, s') ∧ Q a s' := by
  unfold wp at h
  split at h
  · next hx => exact ⟨_, _, hx, h⟩
  · exact h.elim

/-- A program on a part of a larger state, with its errors among others. -/
def zoom {τ δ : Type} (part : τ → σ) (put : τ → σ → τ) (err : ε → δ) (x : StateT σ (Except ε) α) :
    StateT τ (Except δ) α := fun t =>
  match x (part t) with
  | .ok (a, s') => .ok (a, put t s')
  | .error e => .error (err e)

@[simp] theorem wp_zoom {τ δ : Type} {part : τ → σ} {put : τ → σ → τ} {err : ε → δ}
    {x : StateT σ (Except ε) α} {Q : α → τ → Prop} {E : δ → Prop} {t : τ} :
    wp (zoom part put err x) Q E t ↔
      wp x (fun a s' => Q a (put t s')) (fun e => E (err e)) (part t) := by
  unfold wp zoom
  cases x (part t) with
  | error | ok => rfl

/-- What evaluating a program on a state has shown. -/
theorem exists_ok_of_any {x : Except ε α} {q : α → Bool} (h : x.toOption.any q = true) :
    ∃ a, x = .ok a ∧ q a = true := by
  cases x with
  | error e => cases h
  | ok a => exact ⟨a, rfl, h⟩

theorem bind_of_ok {x : StateT σ (Except ε) α} {f : α → StateT σ (Except ε) β} {a : α} {s' : σ}
    (h : x s = .ok (a, s')) : (x >>= f) s = f a s' := by
  show (x s >>= fun p => f p.1 p.2) = _
  rw [h]
  rfl

/-- A loop over a list: the invariant says what holds when the rounds of a front part are done. -/
theorem wp_forM {ι : Type} {f : ι → StateT σ (Except ε) PUnit} {l : List ι}
    (I : List ι → σ → Prop) {Q : PUnit → σ → Prop} (h0 : I [] s)
    (hstep : ∀ done i rest s', l = done ++ i :: rest → I done s' →
      wp (f i) (fun _ s'' => I (done ++ [i]) s'') E s')
    (hend : ∀ s', I l s' → Q ⟨⟩ s') : wp (l.forM f) Q E s := by
  have hmain : ∀ rest done s', l = done ++ rest → I done s' → wp (rest.forM f) Q E s' := by
    intro rest
    induction rest with
    | nil =>
      intro done s' hl hI
      rw [List.append_nil] at hl
      subst hl
      exact hend s' hI
    | cons i rest ih =>
      intro done s' hl hI
      show wp (f i >>= fun _ => rest.forM f) Q E s'
      rw [wp_bind]
      refine (hstep done i rest s' hl hI).mono (fun _ s'' hI' => ?_) (fun _ he => he)
      exact ih (done ++ [i]) s'' (by rw [hl]; simp) hI'
  exact hmain l [] s rfl h0

/-- A loop over `0, …, n-1`: the invariant says what holds after a number of rounds. -/
theorem wp_forM_range {f : Nat → StateT σ (Except ε) PUnit} {n : Nat} (I : Nat → σ → Prop)
    {Q : PUnit → σ → Prop} (h0 : I 0 s)
    (hstep : ∀ k s', k < n → I k s' → wp (f k) (fun _ s'' => I (k + 1) s'') E s')
    (hend : ∀ s', I n s' → Q ⟨⟩ s') : wp ((List.range n).forM f) Q E s := by
  refine wp_forM (fun done s' => I done.length s') h0 (fun done i rest s' hl hI => ?_)
    (fun s' hI => hend s' (by simpa using hI))
  have hi : i = done.length ∧ i < n := by
    have hlen : done.length < n := by
      have := congrArg List.length hl
      simp at this
      omega
    have hget : (List.range n)[done.length]? = some i := by
      rw [hl]
      simp
    rw [List.getElem?_range hlen] at hget
    have := Option.some.inj hget
    omega
  rw [← hi.1] at hI
  rw [List.length_append, List.length_singleton, ← hi.1]
  exact hstep i s' hi.2 hI

end Wp
