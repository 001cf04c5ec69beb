import Mathlib.Data.List.Nodup
import Mathlib.Data.List.Pairwise
import Mathlib.Data.List.Perm.Basic

set_option autoImplicit false

/-! # Radix trees in a memory

Nodes `ν` have a slot for every digit `ι`, and `next x i` is the node that the slot `i` of `x` leads to,
if any. `follow next x p` walks along the digits `p`; `nodes next ixs d x` lists the nodes that can be
reached from `x` in at most `d` steps along digits of `ixs`, once for each way to reach them. The tree
has no sharing when this list has no duplicates: then two walks that end at the same node are the same
(`follow_inj`). A new empty node is hung into an empty slot by `graft`. -/

namespace Radix

variable {ν ι : Type} {next next' : ν → ι → Option ν} {ixs : List ι} {d : Nat} {x y z : ν}
  {p q : List ι}

def follow (next : ν → ι → Option ν) : ν → List ι → Option ν
  | x, [] => some x
  | x, i :: p => (next x i).bind fun y => follow next y p

/-- The nodes under `x`, to the depth `d`. -/
def nodes (next : ν → ι → Option ν) (ixs : List ι) : Nat → ν → List ν
  | 0, x => [x]
  | d + 1, x => x :: ixs.flatMap fun i => (next x i).elim [] (nodes next ixs d)

theorem follow_cons {i : ι} : follow next x (i :: p) = some z ↔
    ∃ y, next x i = some y ∧ follow next y p = some z := Option.bind_eq_some_iff

theorem follow_concat {i : ι} : follow next x (p ++ [i]) = some z ↔
    ∃ y, follow next x p = some y ∧ next y i = some z := by
  induction p generalizing x with
  | nil => simp [follow]
  | cons j p ih =>
    rw [List.cons_append, follow_cons]
    simp only [ih, follow_cons]
    exact ⟨fun ⟨y, h1, w, h2, h3⟩ => ⟨w, ⟨y, h1, h2⟩, h3⟩, fun ⟨w, ⟨y, h1, h2⟩, h3⟩ => ⟨y, h1, w, h2, h3⟩⟩

theorem self_mem_nodes : x ∈ nodes next ixs d x := by
  cases d <;> exact List.mem_cons_self

theorem mem_nodes_succ : z ∈ nodes next ixs (d + 1) x ↔
    z = x ∨ ∃ i ∈ ixs, ∃ y, next x i = some y ∧ z ∈ nodes next ixs d y := by
  rw [nodes, List.mem_cons, List.mem_flatMap]
  refine or_congr_right (exists_congr fun i => and_congr_right fun _ => ?_)
  cases next x i <;> simp

/-- The nodes are the ends of the walks. -/
theorem mem_nodes_iff : z ∈ nodes next ixs d x ↔
    ∃ p, p.length ≤ d ∧ p ⊆ ixs ∧ follow next x p = some z := by
  induction d generalizing x with
  | zero =>
    rw [nodes, List.mem_singleton]
    constructor
    · rintro rfl
      exact ⟨[], Nat.le_refl 0, List.nil_subset _, rfl⟩
    · rintro ⟨p, hp, -, hz⟩
      rw [List.length_eq_zero_iff.mp (Nat.le_zero.mp hp)] at hz
      exact (Option.some.inj hz).symm
  | succ d ih =>
    rw [mem_nodes_succ]
    constructor
    · rintro (rfl | ⟨i, hi, y, hy, hz⟩)
      · exact ⟨[], Nat.zero_le _, List.nil_subset _, rfl⟩
      · obtain ⟨p, hp, hsub, hz⟩ := ih.mp hz
        exact ⟨i :: p, Nat.succ_le_succ hp, List.cons_subset.mpr ⟨hi, hsub⟩, follow_cons.mpr ⟨y, hy, hz⟩⟩
    · rintro ⟨p, hp, hsub, hz⟩
      cases p with
      | nil => exact .inl (Option.some.inj hz).symm
      | cons i p =>
        obtain ⟨y, hy, hz⟩ := follow_cons.mp hz
        obtain ⟨hi, hsub⟩ := List.cons_subset.mp hsub
        exact .inr ⟨i, hi, y, hy, ih.mpr ⟨p, Nat.le_of_succ_le_succ hp, hsub, hz⟩⟩

theorem mem_nodes_of_follow (hp : p.length ≤ d) (hsub : p ⊆ ixs) (h : follow next x p = some z) :
    z ∈ nodes next ixs d x := mem_nodes_iff.mpr ⟨p, hp, hsub, h⟩

theorem mem_nodes_mono (h : z ∈ nodes next ixs d x) : z ∈ nodes next ixs (d + 1) x := by
  obtain ⟨p, hp, hsub, hz⟩ := mem_nodes_iff.mp h
  exact mem_nodes_of_follow (Nat.le_succ_of_le hp) hsub hz

section Nodup

variable (hnodup : (nodes next ixs (d + 1) x).Nodup)
include hnodup

theorem not_mem_child {i : ι} (hi : i ∈ ixs) (hy : next x i = some y) : x ∉ nodes next ixs d y := by
  intro hx
  refine (List.nodup_cons.mp hnodup).1 (List.mem_flatMap.mpr ⟨i, hi, ?_⟩)
  rw [hy]
  exact hx

theorem nodup_child {i : ι} (hi : i ∈ ixs) (hy : next x i = some y) : (nodes next ixs d y).Nodup := by
  have h := (List.nodup_flatMap.mp (List.nodup_cons.mp hnodup).2).1 i hi
  rwa [hy] at h

/-- Two slots do not lead to the same node. -/
theorem digit_eq {i j : ι} {y₁ y₂ : ν} (hi : i ∈ ixs) (hj : j ∈ ixs) (h1 : next x i = some y₁)
    (h2 : next x j = some y₂) (hz1 : z ∈ nodes next ixs d y₁) (hz2 : z ∈ nodes next ixs d y₂) : i = j := by
  by_contra hne
  have hpair := (List.nodup_flatMap.mp (List.nodup_cons.mp hnodup).2).2
  have hsym : Std.Symm (Function.onFun List.Disjoint fun i => (next x i).elim [] (nodes next ixs d)) :=
    ⟨fun _ _ h _ hb ha => h ha hb⟩
  have hdisj : List.Disjoint ((next x i).elim [] (nodes next ixs d))
      ((next x j).elim [] (nodes next ixs d)) := hpair.forall hi hj hne
  rw [h1, h2] at hdisj
  exact hdisj hz1 hz2

end Nodup

/-- In a tree without sharing, two walks to the same node are the same. -/
theorem follow_inj (hnodup : (nodes next ixs d x).Nodup) (hp : p.length ≤ d) (hq : q.length ≤ d)
    (hpix : p ⊆ ixs) (hqix : q ⊆ ixs) (h1 : follow next x p = some z) (h2 : follow next x q = some z) :
    p = q := by
  induction d generalizing x p q with
  | zero =>
    rw [List.length_eq_zero_iff.mp (Nat.le_zero.mp hp), List.length_eq_zero_iff.mp (Nat.le_zero.mp hq)]
  | succ d ih =>
    cases p with
    | nil =>
      cases q with
      | nil => rfl
      | cons j q =>
        obtain rfl := Option.some.inj h1
        obtain ⟨y, hy, h2⟩ := follow_cons.mp h2
        obtain ⟨hj, hqix⟩ := List.cons_subset.mp hqix
        exact absurd (mem_nodes_of_follow (Nat.le_of_succ_le_succ hq) hqix h2)
          (not_mem_child hnodup hj hy)
    | cons i p =>
      obtain ⟨y₁, hy₁, h1⟩ := follow_cons.mp h1
      obtain ⟨hi, hpix⟩ := List.cons_subset.mp hpix
      have hz1 := mem_nodes_of_follow (Nat.le_of_succ_le_succ hp) hpix h1
      cases q with
      | nil =>
        obtain rfl := Option.some.inj h2
        exact absurd hz1 (not_mem_child hnodup hi hy₁)
      | cons j q =>
        obtain ⟨y₂, hy₂, h2⟩ := follow_cons.mp h2
        obtain ⟨hj, hqix'⟩ := List.cons_subset.mp hqix
        have hz2 := mem_nodes_of_follow (Nat.le_of_succ_le_succ hq) hqix' h2
        obtain rfl := digit_eq hnodup hi hj hy₁ hy₂ hz1 hz2
        obtain rfl := Option.some.inj (hy₁.symm.trans hy₂)
        rw [ih (nodup_child hnodup hi hy₁) (Nat.le_of_succ_le_succ hp) (Nat.le_of_succ_le_succ hq)
          hpix hqix' h1 h2]

/-! ## Changes -/

/-- Only the slots of the nodes above the last level matter. -/
theorem nodes_congr (h : ∀ a ∈ nodes next ixs d x, ∀ i ∈ ixs, next' a i = next a i) :
    nodes next' ixs (d + 1) x = nodes next ixs (d + 1) x := by
  induction d generalizing x with
  | zero =>
    rw [nodes, nodes]
    refine congrArg _ (List.flatMap_congr fun i hi => ?_)
    rw [h x self_mem_nodes i hi]
    cases next x i <;> rfl
  | succ d ih =>
    rw [nodes, nodes]
    refine congrArg _ (List.flatMap_congr fun i hi => ?_)
    rw [h x self_mem_nodes i hi]
    cases hy : next x i with
    | none => rfl
    | some y =>
      exact ih fun a ha j hj => h a (mem_nodes_succ.mpr (.inr ⟨i, hi, y, hy, ha⟩)) j hj

theorem follow_congr (h : ∀ a ∈ nodes next ixs d x, ∀ i ∈ ixs, next' a i = next a i)
    (hp : p.length ≤ d + 1) (hpix : p ⊆ ixs) : follow next' x p = follow next x p := by
  induction d generalizing x p with
  | zero =>
    cases p with
    | nil => rfl
    | cons i p =>
      obtain ⟨hi, -⟩ := List.cons_subset.mp hpix
      rw [List.length_eq_zero_iff.mp (Nat.le_zero.mp (Nat.le_of_succ_le_succ hp)), follow, follow,
        h x self_mem_nodes i hi]
      rfl
  | succ d ih =>
    cases p with
    | nil => rfl
    | cons i p =>
      obtain ⟨hi, hpix⟩ := List.cons_subset.mp hpix
      rw [follow, follow, h x self_mem_nodes i hi]
      cases hy : next x i with
      | none => rfl
      | some y =>
        exact ih (fun a ha j hj => h a (mem_nodes_succ.mpr (.inr ⟨i, hi, y, hy, ha⟩)) j hj)
          (Nat.le_of_succ_le_succ hp) hpix

/-- An empty node. -/
theorem nodes_of_empty (h : ∀ i ∈ ixs, next x i = none) : nodes next ixs d x = [x] := by
  cases d with
  | zero => rfl
  | succ d =>
    rw [nodes, List.cons_eq_cons]
    refine ⟨rfl, List.flatMap_eq_nil_iff.mpr fun i hi => ?_⟩
    rw [h i hi]
    rfl

theorem perm_flatMap_insert {α β : Type} {l : List α} {f f' : α → List β} {a : α} {b : β}
    (hl : l.Nodup) (ha : a ∈ l) (hfa : (f' a).Perm (b :: f a)) (hf : ∀ c ∈ l, c ≠ a → f' c = f c) :
    (l.flatMap f').Perm (b :: l.flatMap f) := by
  obtain ⟨l₁, l₂, rfl⟩ := List.append_of_mem ha
  have hnot := (List.nodup_middle.mp hl |> List.nodup_cons.mp).1
  rw [List.mem_append, not_or] at hnot
  have h1 : l₁.flatMap f' = l₁.flatMap f := List.flatMap_congr fun c hc =>
    hf c (List.mem_append_left _ hc) fun he => hnot.1 (he ▸ hc)
  have h2 : l₂.flatMap f' = l₂.flatMap f := List.flatMap_congr fun c hc =>
    hf c (List.mem_append_right _ (List.mem_cons_of_mem a hc)) fun he => hnot.2 (he ▸ hc)
  rw [List.flatMap_append, List.flatMap_append, List.flatMap_cons, List.flatMap_cons, h1, h2]
  refine (List.Perm.append_left _ (hfa.append_right _)).trans ?_
  exact List.perm_middle

/-- The empty node `y` is new in `next'`, in the slot `i` of `n`. -/
structure Graft (next next' : ν → ι → Option ν) (ixs : List ι) (n : ν) (i : ι) (y : ν) : Prop where
  slot : next n i = none
  slot' : next' n i = some y
  empty : ∀ j ∈ ixs, next' y j = none
  same : ∀ a j, a ≠ y → ¬ (a = n ∧ j = i) → next' a j = next a j

namespace Graft

variable {n : ν} {i : ι}

/-- A walk that does not start at the new node is still there. -/
theorem follow (hg : Graft next next' ixs n i y) (hy : y ∉ nodes next ixs d x) (hp : p.length ≤ d)
    (hpix : p ⊆ ixs) (h : Radix.follow next x p = some z) : Radix.follow next' x p = some z := by
  induction p generalizing x d with
  | nil => exact h
  | cons j p ih =>
    obtain ⟨d, rfl⟩ : ∃ m, d = m + 1 := ⟨d - 1, by simp at hp; omega⟩
    obtain ⟨hj, hpix⟩ := List.cons_subset.mp hpix
    obtain ⟨w, hw, h⟩ := follow_cons.mp h
    have hxy : x ≠ y := fun he => hy (he ▸ self_mem_nodes)
    have hslot : ¬ (x = n ∧ j = i) := by
      rintro ⟨rfl, rfl⟩
      rw [hg.slot] at hw
      cases hw
    refine follow_cons.mpr ⟨w, (hg.same x j hxy hslot).trans hw, ih ?_ (Nat.le_of_succ_le_succ hp) hpix h⟩
    exact fun hyw => hy (mem_nodes_succ.mpr (.inr ⟨j, hj, w, hw, hyw⟩))

/-- A walk was there before, or it leads to the new node. -/
theorem follow_cases (hg : Graft next next' ixs n i y) (hy : y ∉ nodes next ixs d x) (hp : p.length ≤ d)
    (hpix : p ⊆ ixs) (h : Radix.follow next' x p = some z) : Radix.follow next x p = some z ∨ z = y := by
  induction p generalizing x d with
  | nil => exact .inl h
  | cons j p ih =>
    obtain ⟨d, rfl⟩ : ∃ m, d = m + 1 := ⟨d - 1, by simp at hp; omega⟩
    obtain ⟨hj, hpix⟩ := List.cons_subset.mp hpix
    obtain ⟨w, hw, h⟩ := follow_cons.mp h
    have hxy : x ≠ y := fun he => hy (he ▸ self_mem_nodes)
    by_cases hslot : x = n ∧ j = i
    · obtain ⟨rfl, rfl⟩ := hslot
      obtain rfl := Option.some.inj (hg.slot'.symm.trans hw)
      cases p with
      | nil => exact .inr (Option.some.inj h).symm
      | cons k p =>
        obtain ⟨v, hv, -⟩ := follow_cons.mp h
        rw [hg.empty k (hpix List.mem_cons_self)] at hv
        cases hv
    · rw [hg.same x j hxy hslot] at hw
      have hyw : y ∉ nodes next ixs d w := fun hyw => hy (mem_nodes_succ.mpr (.inr ⟨j, hj, w, hw, hyw⟩))
      exact (ih hyw (Nat.le_of_succ_le_succ hp) hpix h).imp_left fun h => follow_cons.mpr ⟨w, hw, h⟩

/-- The tree has one node more. -/
theorem nodes (hg : Graft next next' ixs n i y) (hnodup : (Radix.nodes next ixs (d + 1) x).Nodup)
    (hy : y ∉ Radix.nodes next ixs (d + 1) x) (hn : n ∈ Radix.nodes next ixs d x) (hix : ixs.Nodup)
    (hi : i ∈ ixs) : (Radix.nodes next' ixs (d + 1) x).Perm (y :: Radix.nodes next ixs (d + 1) x) := by
  have hxy : x ≠ y := fun he => hy (he ▸ self_mem_nodes)
  induction d generalizing x with
  | zero =>
    obtain rfl := List.mem_singleton.mp hn
    refine .trans (.cons _ (perm_flatMap_insert hix hi ?_ fun j hj hji => ?_)) (.swap ..)
    · rw [hg.slot, hg.slot']
      exact .refl _
    · rw [hg.same n j hxy fun h => hji h.2]
      cases next n j <;> rfl
  | succ d ih =>
    -- the digit `j` under which something changes
    obtain ⟨j, hj, hperm, hother⟩ : ∃ j ∈ ixs,
        ((next' x j).elim [] (Radix.nodes next' ixs (d + 1))).Perm
          (y :: (next x j).elim [] (Radix.nodes next ixs (d + 1))) ∧
        ∀ k ∈ ixs, k ≠ j → ¬ (x = n ∧ k = i) ∧
          ∀ v, next x k = some v → n ∉ Radix.nodes next ixs (d + 1) v := by
      rcases mem_nodes_succ.mp hn with rfl | ⟨j, hj, w, hw, hnw⟩
      · refine ⟨i, hi, ?_, fun k hk hki => ⟨fun h => hki h.2, fun v hv => not_mem_child hnodup hk hv⟩⟩
        rw [hg.slot, hg.slot', Option.elim_some, Option.elim_none, nodes_of_empty hg.empty]
      · have hxn : x ≠ n := fun he => not_mem_child hnodup hj hw (he ▸ mem_nodes_mono hnw)
        have hyw : y ∉ Radix.nodes next ixs (d + 1) w := fun h =>
          hy (mem_nodes_succ.mpr (.inr ⟨j, hj, w, hw, h⟩))
        refine ⟨j, hj, ?_, fun k hk hkj => ⟨fun h => hxn h.1, fun v hv hnv => hkj ?_⟩⟩
        · rw [hg.same x j hxy fun h => hxn h.1, hw]
          exact ih (nodup_child hnodup hj hw) hyw hnw fun he => hyw (he ▸ self_mem_nodes)
        · exact digit_eq hnodup hk hj hv hw hnv (mem_nodes_mono hnw)
    refine .trans (.cons _ (perm_flatMap_insert hix hj hperm fun k hk hkj => ?_)) (.swap ..)
    obtain ⟨hslot, hnot⟩ := hother k hk hkj
    rw [hg.same x k hxy hslot]
    cases hv : next x k with
    | none => rfl
    | some v =>
      refine nodes_congr fun a ha l _ => hg.same a l ?_ fun h => ?_
      · rintro rfl
        exact hy (mem_nodes_succ.mpr (.inr ⟨k, hk, v, hv, mem_nodes_mono ha⟩))
      · exact hnot v hv (h.1 ▸ mem_nodes_mono ha)

end Graft

end Radix
