import Mathlib.Data.List.Perm.Basic

set_option autoImplicit false

/-! # Footprints

A memory has contents for addresses. A program that is handed some addresses works on these only, and
gives back the same addresses, in some order: what it allocates comes from among them, and what it
frees stays there. Such steps compose, and everything outside stays as it was. -/

namespace Footprint

variable {ν γ : Type} {own own' own'' : List ν} {m m' m'' : ν → γ}

/-- A step from `m` to `m'` that works on `own` and hands over `own'`. -/
structure Within (own own' : List ν) (m m' : ν → γ) : Prop where
  perm : own'.Perm own
  other : ∀ x, x ∉ own → m' x = m x

namespace Within

theorem refl (own : List ν) (m : ν → γ) : Within own own m m := ⟨.refl _, fun _ _ => rfl⟩

theorem trans (h : Within own own' m m') (h' : Within own' own'' m' m'') :
    Within own own'' m m'' := by
  refine ⟨h'.perm.trans h.perm, fun x hx => ?_⟩
  rw [h'.other x (fun hx' => hx (h.perm.subset hx')), h.other x hx]

theorem nodup (h : Within own own' m m') (hown : own.Nodup) : own'.Nodup :=
  h.perm.nodup_iff.mpr hown

/-- More may be there that the step does not touch. -/
theorem frame (h : Within own own' m m') (rest : List ν) :
    Within (rest ++ own) (rest ++ own') m m' :=
  ⟨h.perm.append_left rest, fun x hx => h.other x (fun hx' => hx (List.mem_append_right _ hx'))⟩

/-- What is there besides stays as it was. -/
theorem kept (h : Within own own' m m') {rest : List ν} (hnodup : (rest ++ own).Nodup) :
    ∀ x ∈ rest, m' x = m x :=
  fun x hx => h.other x (fun hx' => (List.nodup_append.mp hnodup).2.2 x hx x hx' rfl)

end Within

end Footprint
