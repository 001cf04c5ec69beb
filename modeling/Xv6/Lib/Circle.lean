import Mathlib.Data.List.Nodup

set_option autoImplicit false

/-! # Circular singly linked lists

`Linked f l y` says that the pointer `f` of every node of `l` leads to the next one, and that of the
last one to `y`. With `y` the first node the nodes are a circle, which may be entered anywhere
(`Linked.rotate`). A node is taken out by an assignment to the pointer of the one before it, and a
loop that follows the pointers round the circle finds a node that meets its condition if there is one
(`search_linked`). -/

namespace Circle

open Function

variable {ν : Type} {f g : ν → ν} {l l₁ l₂ : List ν} {x y z : ν}

def Linked (f : ν → ν) : List ν → ν → Prop
  | [], _ => True
  | x :: l, y => f x = l.headD y ∧ Linked f l y

theorem linked_append : Linked f (l₁ ++ l₂) y ↔ Linked f l₁ (l₂.headD y) ∧ Linked f l₂ y := by
  induction l₁ with
  | nil => simp [Linked]
  | cons x l₁ ih =>
    cases l₁ with
    | nil => simp [Linked]
    | cons z l₁ =>
      simp only [List.cons_append, Linked, List.headD_cons] at ih ⊢
      rw [ih]
      tauto

theorem Linked.congr (h : Linked f l y) (hfg : ∀ x ∈ l, g x = f x) : Linked g l y := by
  induction l with
  | nil => trivial
  | cons x l ih =>
    refine ⟨(hfg x List.mem_cons_self).trans h.1, ih h.2 fun z hz => ?_⟩
    exact hfg z (List.mem_cons_of_mem x hz)

/-- The pointer of a node leads to what comes after it. -/
theorem Linked.next (h : Linked f (l₁ ++ x :: l₂) y) : f x = l₂.headD y :=
  (linked_append.mp h).2.1

/-- The circle, entered at another node. -/
theorem Linked.rotate (h : Linked f (x :: l) x) (hl : x :: l = l₁ ++ z :: l₂) :
    Linked f (z :: (l₂ ++ l₁)) z := by
  rw [hl] at h
  obtain ⟨h1, h2⟩ := linked_append.mp h
  rw [← List.cons_append, linked_append]
  cases l₁ with
  | nil =>
    rw [List.nil_append, List.cons.injEq] at hl
    rw [hl.1] at h2
    exact ⟨h2, trivial⟩
  | cons w l₁ =>
    rw [List.cons_append, List.cons.injEq] at hl
    rw [hl.1] at h2
    exact ⟨h2, h1⟩

section Update

variable [DecidableEq ν]

/-- `p->next = c->next;` where `c` comes after `p`. -/
theorem Linked.unlink {p c : ν} (h : Linked f (l₁ ++ p :: c :: l₂) y) (hp : p ∉ l₁ ∧ p ∉ l₂) :
    Linked (update f p (f c)) (l₁ ++ p :: l₂) y := by
  obtain ⟨h1, -, h3, h4⟩ := linked_append.mp h
  refine linked_append.mpr ⟨h1.congr fun x hx => ?_, ?_, h4.congr fun x hx => ?_⟩
  · exact update_of_ne (fun he : x = p => hp.1 (he ▸ hx)) ..
  · rw [update_self, h3]
  · exact update_of_ne (fun he : x = p => hp.2 (he ▸ hx)) ..

end Update

/-- `for(p = x; !stop(p); p = f(p))`, with at most `fuel` turns. -/
def search (stop : ν → Bool) (f : ν → ν) : Nat → ν → Option ν
  | 0, _ => none
  | fuel + 1, x => if stop x then some x else search stop f fuel (f x)

/-- The loop finds a node of the list at which it stops. -/
theorem search_linked {stop : ν → Bool} {fuel : Nat} (h : Linked f (x :: l) y)
    (hstop : ∃ z ∈ x :: l, stop z = true) (hfuel : l.length < fuel) :
    ∃ z ∈ x :: l, search stop f fuel x = some z ∧ stop z = true := by
  induction l generalizing x fuel with
  | nil =>
    obtain ⟨z, hz, hs⟩ := hstop
    obtain rfl := List.mem_singleton.mp hz
    obtain ⟨fuel, rfl⟩ : ∃ n, fuel = n + 1 := ⟨fuel - 1, by simp at hfuel; omega⟩
    exact ⟨_, List.mem_singleton_self _, by simp [search, hs], hs⟩
  | cons w l ih =>
    obtain ⟨fuel, rfl⟩ : ∃ n, fuel = n + 1 := ⟨fuel - 1, by simp at hfuel; omega⟩
    by_cases hx : stop x = true
    · exact ⟨x, List.mem_cons_self, by simp [search, hx], hx⟩
    · obtain ⟨z, hz, hs⟩ := hstop
      have hz' : z ∈ w :: l := by
        rcases List.mem_cons.mp hz with rfl | hz
        · exact absurd hs hx
        · exact hz
      have hnext : f x = w := h.1
      obtain ⟨q, hq, hfound, hsq⟩ := ih h.2 ⟨z, hz', hs⟩ (by simpa using hfuel)
      refine ⟨q, List.mem_cons_of_mem x hq, ?_, hsq⟩
      rw [search, if_neg hx, hnext, hfound]

end Circle
