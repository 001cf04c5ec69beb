import Mathlib.Data.List.Nodup

set_option autoImplicit false

/-! # Circular doubly linked lists

Nodes with `next` and `prev` pointers, linked in a circle through a sentinel. A pointer is an
`Option α`: `some a` points to the node `a`, `none` to the sentinel. `Rep k l` says that following
`next` from the sentinel visits the nodes of `l` in order and comes back, and that following `prev`
visits them in the opposite order. Insertion behind the sentinel and unlinking are the pointer
assignments a C program makes; on the ring they are `b :: l` and the removal of `b`. A loop along
the pointers is a search of the list. -/

namespace Ring

open Function

variable {α ν : Type}

/-! ## Paths along one pointer -/

/-- Following `f` from `x` visits the nodes of the list in order and then `y`. -/
def Path (f : ν → ν) : ν → List ν → ν → Prop
  | x, [], y => f x = y
  | x, z :: zs, y => f x = z ∧ Path f z zs y

theorem path_append (f : ν → ν) (x z y : ν) (l₁ l₂ : List ν) :
    Path f x (l₁ ++ z :: l₂) y ↔ Path f x l₁ z ∧ Path f z l₂ y := by
  induction l₁ generalizing x with
  | nil => rfl
  | cons w l₁ ih => simp only [List.cons_append, Path, ih, and_assoc]

/-- A path depends on the pointers of its nodes only, and on where the first one leads. -/
theorem Path.congr {f g : ν → ν} {x x' y : ν} {l : List ν} (h : Path f x l y)
    (hx : g x' = f x) (hl : ∀ z ∈ l, g z = f z) : Path g x' l y := by
  induction l generalizing x x' with
  | nil => exact hx.trans h
  | cons z l ih =>
    obtain ⟨h1, h2⟩ := h
    refine ⟨hx.trans h1, ih h2 (hl z List.mem_cons_self) (fun w hw => hl w ?_)⟩
    exact List.mem_cons_of_mem _ hw

/-- The first node of a path, or its end. -/
theorem Path.first {f : ν → ν} {x y : ν} {l : List ν} (h : Path f x l y) : f x = l.headD y := by
  cases l with
  | nil => exact h
  | cons z l => exact h.1

/-- The node in front of the end: the last one of the list, or the start. -/
theorem Path.bypass [DecidableEq ν] {f : ν → ν} {x y b : ν} {l₁ l₂ : List ν}
    (h : Path f x (l₁ ++ b :: l₂) y) (hnd : (x :: (l₁ ++ b :: l₂)).Nodup) :
    Path (update f ((x :: l₁).getLast (by simp)) (f b)) x (l₁ ++ l₂) y := by
  obtain ⟨h1, h2⟩ := (path_append f x b y l₁ l₂).1 h
  rcases List.eq_nil_or_concat l₁ with rfl | ⟨l, a, rfl⟩
  · simp only [List.getLast_singleton, List.nil_append]
    refine h2.congr (update_self ..) (fun z hz => ?_)
    have hzx : z ≠ x := by
      rintro rfl
      simp only [List.nil_append, List.nodup_cons, List.mem_cons, not_or] at hnd
      exact hnd.1.2 hz
    exact update_of_ne hzx _ _
  · simp only [List.concat_eq_append] at h1 hnd ⊢
    obtain ⟨h3, h4⟩ := (path_append f x a b l []).1 h1
    have hlast : ((x :: (l ++ [a])).getLast (by simp)) = a := by simp
    rw [hlast, List.append_assoc, List.singleton_append, path_append]
    have hne : ∀ z ∈ x :: (l ++ l₂), z ≠ a := by
      rintro z hz rfl
      simp only [List.append_assoc, List.singleton_append, List.nodup_cons, List.nodup_append,
        List.mem_append, List.mem_cons] at hnd
      simp only [List.mem_cons, List.mem_append] at hz
      rcases hz with rfl | hz | hz
      · exact hnd.1 (Or.inr (Or.inl rfl))
      · exact hnd.2.2.2 z hz z (Or.inl rfl) rfl
      · exact hnd.2.2.1.1 (Or.inr hz)
    refine ⟨h3.congr (update_of_ne (hne x (by simp)) _ _) (fun z hz => ?_),
      h2.congr (update_self ..) (fun z hz => ?_)⟩
    · exact update_of_ne (hne z (by simp [hz])) _ _
    · exact update_of_ne (hne z (by simp [hz])) _ _

/-! ## Rings -/

/-- The `next` and `prev` pointers of the nodes and of the sentinel. -/
structure Links (α : Type) where
  next : Option α → Option α
  prev : Option α → Option α

/-- The pointers form a circle through the sentinel and the nodes of `l`, in this order. -/
structure Rep (k : Links α) (l : List α) : Prop where
  fwd : Path k.next none (l.map some) none
  bwd : Path k.prev none (l.reverse.map some) none
  nodup : l.Nodup

variable [DecidableEq α]

/-- `b->next = head.next; b->prev = &head; head.next->prev = b; head.next = b;` -/
def insertFront (k : Links α) (b : α) : Links α :=
  let k₁ : Links α := { k with next := update k.next (some b) (k.next none) }
  let k₂ : Links α := { k₁ with prev := update k₁.prev (some b) none }
  let k₃ : Links α := { k₂ with prev := update k₂.prev (k₂.next none) (some b) }
  { k₃ with next := update k₃.next none (some b) }

/-- `b->next->prev = b->prev; b->prev->next = b->next;` -/
def unlink (k : Links α) (b : α) : Links α :=
  let k₁ : Links α := { k with prev := update k.prev (k.next (some b)) (k.prev (some b)) }
  { k₁ with next := update k₁.next (k₁.prev (some b)) (k₁.next (some b)) }

/-- The sentinel alone: `head.prev = &head; head.next = &head;` -/
def empty : Links α := { next := fun _ => none, prev := fun _ => none }

omit [DecidableEq α] in
theorem rep_empty : Rep (empty : Links α) [] := ⟨rfl, rfl, List.nodup_nil⟩

omit [DecidableEq α] in
theorem nodup_ptrs {l : List α} (h : l.Nodup) : (none :: l.map some).Nodup := by
  rw [List.nodup_cons]
  exact ⟨by simp, h.map (fun _ _ he => Option.some.inj he)⟩

theorem Rep.insertFront {k : Links α} {l : List α} (h : Rep k l) {b : α} (hb : b ∉ l) :
    Rep (insertFront k b) (b :: l) := by
  have hfirst := h.fwd.first
  have hnext : k.next none ≠ some b := by
    rw [hfirst]
    cases l with
    | nil => simp
    | cons c l => simp only [List.map_cons, List.headD_cons, ne_eq, Option.some.injEq]
                  exact fun he => hb (he ▸ List.mem_cons_self)
  refine ⟨?_, ?_, List.nodup_cons.2 ⟨hb, h.nodup⟩⟩
  · -- `next`: the sentinel leads to `b`, and `b` to where the sentinel led
    refine ⟨by simp [Ring.insertFront], h.fwd.congr (by simp [Ring.insertFront]) (fun z hz => ?_)⟩
    obtain ⟨c, hc, rfl⟩ := List.mem_map.1 hz
    have hcb : c ≠ b := fun he => hb (he ▸ hc)
    simp [Ring.insertFront, hcb]
  · -- `prev`: the old first node now leads to `b`
    have hprev : (Ring.insertFront k b).prev
        = update (update k.prev (some b) none) (k.next none) (some b) := by
      simp [Ring.insertFront]
    have hb0 : (Ring.insertFront k b).prev (some b) = none := by
      rw [hprev, update_of_ne (Ne.symm hnext), update_self]
    rw [List.reverse_cons, List.map_append, List.map_singleton, path_append]
    refine ⟨?_, hb0⟩
    have hbwd := h.bwd
    cases l with
    | nil =>
      have hn : k.next none = none := hfirst
      show (Ring.insertFront k b).prev none = some b
      rw [hprev, hn, update_self]
    | cons c l =>
      have hn : k.next none = some c := hfirst
      rw [List.reverse_cons, List.map_append, List.map_singleton, path_append] at hbwd ⊢
      have hkeep : ∀ z : Option α, z ≠ some b → z ≠ some c →
          (Ring.insertFront k b).prev z = k.prev z := by
        intro z h1 h2
        rw [hprev, hn, update_of_ne h2, update_of_ne h1]
      refine ⟨hbwd.1.congr (hkeep none (by simp) (by simp)) (fun z hz => ?_), ?_⟩
      · obtain ⟨w, hw, rfl⟩ := List.mem_map.1 hz
        rw [List.mem_reverse] at hw
        refine hkeep _ ?_ ?_
        · simp only [ne_eq, Option.some.injEq]
          exact fun he => hb (he ▸ List.mem_cons_of_mem _ hw)
        · simp only [ne_eq, Option.some.injEq]
          exact fun he => (List.nodup_cons.1 h.nodup).1 (he ▸ hw)
      · show (Ring.insertFront k b).prev (some c) = some b
        rw [hprev, hn, update_self]

/-- Inserting nodes one after the other gives the ring of them, the last one first. -/
theorem Rep.insertAll {k : Links α} {l : List α} (h : Rep k l) {bs : List α} (hnd : bs.Nodup)
    (hbs : ∀ b ∈ bs, b ∉ l) : Rep (bs.foldl Ring.insertFront k) (bs.reverse ++ l) := by
  induction bs generalizing k l with
  | nil => exact h
  | cons b bs ih =>
    rw [List.nodup_cons] at hnd
    rw [List.foldl_cons, List.reverse_cons, List.append_assoc, List.singleton_append]
    refine ih (h.insertFront (hbs b List.mem_cons_self)) hnd.2 (fun c hc hmem => ?_)
    rcases List.mem_cons.1 hmem with rfl | hcl
    · exact hnd.1 hc
    · exact hbs c (List.mem_cons_of_mem _ hc) hcl

theorem Rep.unlink {k : Links α} {l₁ l₂ : List α} {b : α} (h : Rep k (l₁ ++ b :: l₂)) :
    Rep (unlink k b) (l₁ ++ l₂) := by
  have hrev : (l₁ ++ b :: l₂).reverse = l₂.reverse ++ b :: l₁.reverse := by simp
  have hfwd := h.fwd
  have hbwd := h.bwd
  rw [hrev] at hbwd
  simp only [List.map_append, List.map_cons] at hfwd hbwd
  -- the neighbours of `b` are the nodes next to it in the list
  have hprevb : k.prev (some b) = (none :: l₁.map some).getLast (by simp) := by
    rw [((path_append ..).1 hbwd).2.first]
    rcases List.eq_nil_or_concat l₁ with rfl | ⟨l, a, rfl⟩ <;> simp
  have hnextb : k.next (some b) = (none :: l₂.reverse.map some).getLast (by simp) := by
    rw [((path_append ..).1 hfwd).2.first]
    cases l₂ with
    | nil => rfl
    | cons c l => simp
  have hself : k.next (some b) ≠ some b := by
    rw [((path_append ..).1 hfwd).2.first]
    cases l₂ with
    | nil => simp
    | cons c l =>
      simp only [List.map_cons, List.headD_cons, ne_eq, Option.some.injEq]
      rintro rfl
      have := (List.nodup_append.1 h.nodup).2.1
      simp at this
  have hnext : (Ring.unlink k b).next
      = update k.next (k.prev (some b)) (k.next (some b)) := by
    simp [Ring.unlink, update_of_ne (Ne.symm hself)]
  have hprev : (Ring.unlink k b).prev
      = update k.prev (k.next (some b)) (k.prev (some b)) := rfl
  refine ⟨?_, ?_, ?_⟩
  · rw [hnext, hprevb, List.map_append]
    refine hfwd.bypass ?_
    have := nodup_ptrs h.nodup
    rwa [List.map_append, List.map_cons] at this
  · rw [hprev, hnextb, List.reverse_append, List.map_append]
    refine hbwd.bypass ?_
    have := nodup_ptrs (List.nodup_reverse.2 h.nodup)
    rwa [hrev, List.map_append, List.map_cons] at this
  · exact h.nodup.sublist ((List.Sublist.refl l₁).append (List.sublist_cons_self b l₂))

/-! ## Neighbours -/

section Neighbours

omit [DecidableEq α]

variable {k : Links α} {l l₁ l₂ : List α}

theorem Rep.next_of_split {b : α} (h : Rep k (l₁ ++ b :: l₂)) :
    k.next (some b) = (l₂.map some).headD none := by
  have hfwd := h.fwd
  simp only [List.map_append, List.map_cons] at hfwd
  exact ((path_append ..).1 hfwd).2.first

theorem Rep.prev_of_split {b : α} (h : Rep k (l₁ ++ b :: l₂)) :
    k.prev (some b) = (l₁.reverse.map some).headD none := by
  have hbwd := h.bwd
  simp only [List.reverse_append, List.reverse_cons, List.append_assoc, List.singleton_append,
    List.map_append, List.map_cons] at hbwd
  exact ((path_append ..).1 hbwd).2.first

/-- In a ring, `prev` undoes `next`. -/
theorem Rep.prev_next (h : Rep k l) {x : Option α} (hx : x ∈ none :: l.map some) :
    k.prev (k.next x) = x := by
  rcases List.mem_cons.1 hx with rfl | hx
  · rw [h.fwd.first]
    cases l with
    | nil => exact h.bwd
    | cons c l =>
      have h' : Rep k ([] ++ c :: l) := h
      exact h'.prev_of_split
  · obtain ⟨b, hb, rfl⟩ := List.mem_map.1 hx
    obtain ⟨l₁, l₂, rfl⟩ := List.append_of_mem hb
    rw [h.next_of_split]
    cases l₂ with
    | nil =>
      have := h.bwd.first
      simpa using this
    | cons c l₂ =>
      have h' : Rep k ((l₁ ++ [b]) ++ c :: l₂) := by simpa using h
      have := h'.prev_of_split
      simpa using this

/-- In a ring, `next` undoes `prev`. -/
theorem Rep.next_prev (h : Rep k l) {x : Option α} (hx : x ∈ none :: l.map some) :
    k.next (k.prev x) = x := by
  rcases List.mem_cons.1 hx with rfl | hx
  · rw [h.bwd.first]
    rcases List.eq_nil_or_concat l with rfl | ⟨l, c, rfl⟩
    · exact h.fwd
    · have h' : Rep k (l ++ c :: []) := by simpa using h
      have := h'.next_of_split
      simpa using this
  · obtain ⟨b, hb, rfl⟩ := List.mem_map.1 hx
    obtain ⟨l₁, l₂, rfl⟩ := List.append_of_mem hb
    rw [h.prev_of_split]
    rcases List.eq_nil_or_concat l₁ with rfl | ⟨l₁, c, rfl⟩
    · have := h.fwd.first
      simpa using this
    · have h' : Rep k (l₁ ++ c :: (b :: l₂)) := by simpa using h
      have := h'.next_of_split
      simpa using this

end Neighbours

/-! ## Loops along the pointers -/

/-- `for(b = ...; b != &head; b = f(b)) if(p(b)) return b;`, giving up after `n` rounds. -/
def findFrom (f : Option α → Option α) (p : α → Bool) : Nat → Option α → Option α
  | 0, _ => none
  | _ + 1, none => none
  | n + 1, some b => if p b then some b else findFrom f p n (f (some b))

omit [DecidableEq α] in
/-- A loop with enough rounds finds what a search of the list finds. -/
theorem Path.findFrom_eq {f : Option α → Option α} {p : α → Bool} {x : Option α} {l : List α}
    (h : Path f x (l.map some) none) {n : Nat} (hn : l.length < n) :
    findFrom f p n (f x) = l.find? p := by
  induction l generalizing x n with
  | nil =>
    obtain ⟨m, rfl⟩ : ∃ m, n = m + 1 := ⟨n - 1, by omega⟩
    rw [show f x = none from h]
    rfl
  | cons b l ih =>
    obtain ⟨m, rfl⟩ : ∃ m, n = m + 1 := ⟨n - 1, by omega⟩
    obtain ⟨h1, h2⟩ := h
    rw [h1, List.find?_cons]
    simp only [findFrom]
    split
    · next hp => simp [hp]
    · next hp =>
        simp only [Bool.not_eq_true] at hp
        simp only [hp]
        exact ih h2 (by simpa using hn)

end Ring
