import Xv6.Vm.Grow

set_option autoImplicit false

/-! # The tables of processes

`freewalk` frees the pages of a table that maps nothing, and panics at a mapping that is left. A process
gets a table with the trampoline and the trapframe (`proc_pagetable`), and gives it back with all its
memory (`proc_freepagetable`). Pages only go from the free list to the address space and back; none of
the functions panics, and one that fails has given back what it took. -/

namespace Xv6.Vm

open Wp Footprint Function

variable {kend : Word} {m m' : Word → Nat → Word} {s s' s₁ s₂ : Mem} {root : Word} {n : Nat}
  {extra : Nat → Option Word} {E : String → Prop}

/-! ## Freeing the pages of a table -/

/-- The pages of a table with `d + 1` levels. -/
abbrev tree (m : Word → Nat → Word) (d : Nat) (x : Word) : List Word := Radix.nodes (next m) entries d x

/-- The table maps nothing, and its entries above the last level are not leaves. -/
def Bare (m : Word → Nat → Word) : Nat → Word → Prop
  | 0, x => ∀ i ∈ entries, valid (m x i) = false
  | d + 1, x => ∀ i ∈ entries, valid (m x i) = true →
      m x i &&& (PTE_R ||| PTE_W ||| PTE_X) = 0 ∧ Bare m d (PTE2PA (m x i))

theorem tree_congr {d : Nat} {x : Word} (h : ∀ y ∈ tree m d x, m' y = m y) :
    tree m' d x = tree m d x := by
  cases d with
  | zero => rfl
  | succ d =>
    refine Radix.nodes_congr fun y hy i _ => ?_
    rw [next, next, h y (Radix.mem_nodes_mono hy)]

theorem next_of_valid {x : Word} {i : Nat} (h : valid (m x i) = true) :
    next m x i = some (PTE2PA (m x i)) := if_pos h

theorem tree_subset {d : Nat} {x : Word} {i : Nat} (hi : i ∈ entries) (h : valid (m x i) = true) :
    tree m d (PTE2PA (m x i)) ⊆ tree m (d + 1) x := fun _ hy =>
  Radix.mem_nodes_succ.mpr (.inr ⟨i, hi, _, next_of_valid h, hy⟩)

theorem Bare.congr {d : Nat} {x : Word} (hb : Bare m d x) (h : ∀ y ∈ tree m d x, m' y = m y) :
    Bare m' d x := by
  have hx : m' x = m x := h x Radix.self_mem_nodes
  induction d generalizing x with
  | zero =>
    intro i hi
    rw [hx]
    exact hb i hi
  | succ d ih =>
    intro i hi hv
    rw [hx] at hv ⊢
    obtain ⟨hflags, hsub⟩ := hb i hi hv
    have hpages : ∀ y ∈ tree m d (PTE2PA (m x i)), m' y = m y := fun y hy => h y (tree_subset hi hv hy)
    exact ⟨hflags, ih hsub hpages (hpages _ Radix.self_mem_nodes)⟩

/-- The pages `own` have gone to the free list, and no other page has changed. -/
structure Freed (s s' : Mem) (own : List Word) : Prop where
  free : s'.freelist.Perm (own ++ s.freelist)
  other : ∀ y, y ∉ own → s'.pte y = s.pte y

/-- A loop over entries of a page `x` that frees the pages `child i` under each of them. -/
theorem wp_freeEntries {f : Nat → M Unit} {x : Word} {child : Nat → List Word} {l : List Nat}
    (hl : l.Nodup) (hchild : (l.flatMap child).Nodup)
    (hround : ∀ i ∈ l, ∀ s', s'.pte x i = s.pte x i → (∀ y ∈ child i, y ≠ x → s'.pte y = s.pte y) →
      wp (f i) (fun _ s'' => s''.freelist.Perm (child i ++ s'.freelist) ∧
        (∀ y, y ≠ x → y ∉ child i → s''.pte y = s'.pte y) ∧ ∀ j, j ≠ i → s''.pte x j = s'.pte x j) E s') :
    wp (l.forM f) (fun _ s' => s'.freelist.Perm (l.flatMap child ++ s.freelist) ∧
      ∀ y, y ≠ x → y ∉ l.flatMap child → s'.pte y = s.pte y) E s := by
  -- the pages under the entries that are done are free
  refine wp_forM (fun done s' => s'.freelist.Perm (done.flatMap child ++ s.freelist) ∧
    (∀ y, y ≠ x → y ∉ done.flatMap child → s'.pte y = s.pte y) ∧
    ∀ j, j ∉ done → s'.pte x j = s.pte x j) ⟨.refl _, fun _ _ _ => rfl, fun _ _ => rfl⟩ ?_
    fun s' h => ⟨h.1, h.2.1⟩
  rintro done i rest s' rfl ⟨hfree, hother, hslots⟩
  have hi : i ∉ done := (List.nodup_cons.mp (List.nodup_middle.mp hl)).1 ∘ List.mem_append_left _
  rw [List.flatMap_append, List.flatMap_cons] at hchild
  have hapart : ∀ y ∈ child i, y ∉ done.flatMap child := fun y hy hmem =>
    (List.nodup_append.mp hchild).2.2 y hmem y (List.mem_append_left _ hy) rfl
  refine (hround i (by simp) s' (hslots i hi) fun y hy hne => hother y hne (hapart y hy)).mono ?_
    fun _ he => he
  rintro _ s'' ⟨hfree', hother', hslots'⟩
  have hflat : (done ++ [i]).flatMap child = done.flatMap child ++ child i := by
    rw [List.flatMap_append, List.flatMap_singleton]
  refine ⟨?_, fun y hne hy => ?_, fun j hj => ?_⟩
  · rw [hflat]
    refine hfree'.trans ((hfree.append_left _).trans ?_)
    rw [← List.append_assoc]
    exact List.perm_append_comm.append_right _
  · rw [hflat, List.mem_append, not_or] at hy
    rw [hother' y hne hy.2, hother y hne hy.1]
  · rw [List.mem_append, List.mem_singleton, not_or] at hj
    rw [hslots' j hj.2, hslots j hj.1]

/-- One level: `child i` are the pages under the entry `i`. -/
theorem wp_freewalk_node {x : Word} (levels : Nat) (child : Nat → List Word) (hframe : Frame kend x)
    (hx : x ∉ entries.flatMap child) (hchild : (entries.flatMap child).Nodup)
    (hnone : ∀ i ∈ entries, valid (s.pte x i) = false → child i = [])
    (hsub : ∀ i ∈ entries, valid (s.pte x i) = true →
      s.pte x i &&& (PTE_R ||| PTE_W ||| PTE_X) = 0 ∧ ∀ s', (∀ y ∈ child i, s'.pte y = s.pte y) →
        wp (freewalk kend levels (PTE2PA (s.pte x i))) (fun _ s'' => Freed s' s'' (child i)) E s') :
    wp (freewalk kend (levels + 1) x) (fun _ s' => Freed s s' (x :: entries.flatMap child)) E s := by
  have hnot : ∀ i ∈ entries, x ∉ child i := fun i hi hxi => hx (List.mem_flatMap.mpr ⟨i, hi, hxi⟩)
  rw [freewalk, wp_bind]
  refine (wp_freeEntries (x := x) nodup_entries hchild fun i hi s' hpte hsame => ?_).mono ?_ fun _ he => he
  · simp only [wp_bind, wp_get, wp_ite, wp_throw, wp_pure, wp_modify, hpte]
    refine ⟨fun hv => ?_, fun hno => ⟨fun hv => absurd ⟨hv, (hsub i hi hv).1⟩ hno, fun hv => ?_⟩⟩
    · refine ((hsub i hi hv.1).2 s' fun y hy => hsame y hy fun he => hnot i hi (he ▸ hy)).mono ?_
        fun _ he => he
      rintro _ s'' ⟨hfree, hother⟩
      refine ⟨hfree, fun y hne hy => ?_, fun j hj => ?_⟩
      · show update s''.pte x _ y = _
        rw [update_of_ne hne, hother y hy]
      · show update s''.pte x _ x j = _
        rw [update_self, update_of_ne hj, hother x (hnot i hi)]
    · rw [hnone i hi (Bool.eq_false_iff.mpr hv)]
      exact ⟨.refl _, fun _ _ _ => trivial, fun _ _ => trivial⟩
  · rintro _ s' ⟨hfree, hother⟩
    refine wp_kfree hframe ⟨hfree.cons x, fun y hy => ?_⟩
    rw [List.mem_cons, not_or] at hy
    show update s'.pte x _ y = _
    rw [update_of_ne hy.1]
    exact hother y hy.1 hy.2

theorem tree_succ (d : Nat) (x : Word) : tree m (d + 1) x =
    x :: entries.flatMap fun i => (next m x i).elim [] (tree m d) := rfl

/-- All pages of the table are freed. -/
theorem wp_freewalk {d : Nat} {x : Word} (hb : Bare s.pte d x) (hnodup : (tree s.pte d x).Nodup)
    (hframe : ∀ y ∈ tree s.pte d x, Frame kend y) :
    wp (freewalk kend (d + 1) x) (fun _ s' => Freed s s' (tree s.pte d x)) E s := by
  induction d generalizing x s with
  | zero =>
    have hnil : (entries.flatMap fun _ => ([] : List Word)) = [] :=
      List.flatMap_eq_nil_iff.mpr fun _ _ => rfl
    refine (wp_freewalk_node 0 (fun _ => []) (hframe x Radix.self_mem_nodes) ?_ ?_ (fun _ _ _ => rfl)
      fun i hi hv => ?_).mono (fun _ s' h => ?_) fun _ he => he
    · rw [hnil]
      exact List.not_mem_nil
    · rw [hnil]
      exact List.nodup_nil
    · rw [hb i hi] at hv
      cases hv
    · rwa [hnil] at h
  | succ d ih =>
    have hchild := hnodup
    rw [tree_succ] at hchild ⊢
    refine wp_freewalk_node (d + 1) _ (hframe x Radix.self_mem_nodes) (List.nodup_cons.mp hchild).1
      (List.nodup_cons.mp hchild).2 (fun i hi hv => ?_) fun i hi hv => ?_
    · rw [next, if_neg (by rw [hv]; exact Bool.false_ne_true)]
      rfl
    · have hsub := hb i hi hv
      refine ⟨hsub.1, fun s' hsame => ?_⟩
      rw [next_of_valid hv] at hsame ⊢
      have htree := tree_congr hsame
      have hdown := Radix.nodup_child hnodup hi (next_of_valid hv)
      have hstep : wp (freewalk kend (d + 1) (PTE2PA (s.pte x i))) (fun _ s'' =>
          Freed s' s'' (tree s'.pte d (PTE2PA (s.pte x i)))) E s' :=
        ih (hsub.2.congr hsame) (by rwa [htree]) fun y hy =>
          hframe y (tree_subset hi hv (htree ▸ hy))
      rwa [htree] at hstep

theorem and_RWX {w : Word} (h : PTE_FLAGS w = PTE_V) : w &&& (PTE_R ||| PTE_W ||| PTE_X) = 0 := by
  have hmask : PTE_R ||| PTE_W ||| PTE_X = 0x3FF &&& (PTE_R ||| PTE_W ||| PTE_X) := by decide
  rw [hmask, ← BitVec.and_assoc]
  show PTE_FLAGS w &&& _ = 0
  rw [h]
  decide

theorem Table.bare (ht : Table m root) (hnone : ∀ k < SLOTS, lookup m root k = none) :
    Bare m 2 root := by
  intro i hi hvi
  refine ⟨and_RWX (ht.inner root Radix.self_mem_nodes i hi hvi), fun j hj hvj => ⟨and_RWX ?_, fun l hl => ?_⟩⟩
  · exact ht.inner _ (tree_subset hi hvi Radix.self_mem_nodes) j hj hvj
  · -- a valid entry would be the mapping of the page with these indices
    by_contra hvl
    rw [mem_entries] at hi hj hl
    have hpath : path (i * 2 ^ 18 + j * 2 ^ 9 + l) = [i, j] := by
      unfold path
      rw [show (i * 2 ^ 18 + j * 2 ^ 9 + l) / 2 ^ 18 % 512 = i by omega,
        show (i * 2 ^ 18 + j * 2 ^ 9 + l) / 2 ^ 9 % 512 = j by omega]
    have hleaf : leaf m root (i * 2 ^ 18 + j * 2 ^ 9 + l) = some (PTE2PA (m (PTE2PA (m root i)) j)) := by
      rw [leaf, hpath]
      refine Radix.follow_cons.mpr ⟨_, next_of_valid hvi, Radix.follow_cons.mpr ⟨_, next_of_valid hvj, rfl⟩⟩
    have hlookup := hnone (i * 2 ^ 18 + j * 2 ^ 9 + l) (by unfold SLOTS; omega)
    rw [lookup, hleaf, Option.bind_some, show (i * 2 ^ 18 + j * 2 ^ 9 + l) % 512 = l by omega,
      if_pos (Bool.not_eq_false _ ▸ hvl)] at hlookup
    cases hlookup

theorem Space.wp_freewalk (h : Space kend s root 0 fun _ => none) :
    wp (freewalk kend 3 root) (fun _ s' =>
      Within (owned s.pte root 0 ++ s.freelist) s'.freelist s.pte s'.pte) E s := by
  have howned : owned s.pte root 0 = tree s.pte 2 root := owned_zero ..
  have hnodup := h.nodup
  have hframe := h.frame
  rw [howned] at hnodup hframe ⊢
  refine (Vm.wp_freewalk (h.table.bare fun k hk => h.rest k (Nat.zero_le k) hk) hnodup.of_append_left
    fun y hy => hframe y (List.mem_append_left _ hy)).mono (fun _ s' hfreed => ?_) fun _ he => he
  exact ⟨hfreed.free, fun y hy => hfreed.other y fun hy' => hy (List.mem_append_left _ hy')⟩

/-- All memory of an address space that maps nothing else is freed. -/
theorem Space.wp_uvmfree {sz : Word} (h : Space kend s root (pages sz) fun _ => none) :
    wp (uvmfree kend root sz) (fun _ s' =>
      Within (owned s.pte root (pages sz) ++ s.freelist) s'.freelist s.pte s'.pte) E s := by
  have hsize := h.size_le
  unfold FRAMES at hsize
  rw [uvmfree, wp_ite]
  refine ⟨fun _ => ?_, fun hzero => ?_⟩
  · rw [wp_bind]
    have hva : (0 : Word).toNat = 0 * 4096 := by decide
    have hcount : (PGROUNDUP sz / PGSIZE).toNat = pages sz := by
      rw [BitVec.toNat_udiv, toNat_PGROUNDUP (by omega)]
      exact Nat.mul_div_cancel _ (by decide)
    have hspace : Space kend s root (0 + pages sz) fun _ => none := by rwa [Nat.zero_add]
    refine (hspace.wp_uvmunmap hva hcount).mono ?_ fun _ he => he
    rintro _ s₁ ⟨hmoved, -⟩
    rw [Nat.zero_add] at hmoved
    exact hmoved.space.wp_freewalk.mono (fun _ s' hw => hmoved.within.trans hw) fun _ he => he
  · have hpages : pages sz = 0 := by
      have hz : sz.toNat = 0 := Nat.eq_zero_of_not_pos hzero
      unfold pages
      omega
    rw [hpages] at h ⊢
    exact h.wp_freewalk

/-! ## Pages of the kernel -/

theorem Space.mapExtra {first : Nat} {pa perm : Word} (h : Space kend s root n extra)
    (hm : Mapped s s' root first 1 pa perm) (hfirst : FRAMES ≤ first) :
    Moved kend s s' root n n (update extra first (some (PA2PTE pa ||| perm ||| PTE_V))) := by
  have hle := h.le_FRAMES
  have hlookup : ∀ k < SLOTS, k ≠ first → lookup s'.pte root k = lookup s.pte root k :=
    fun k hk hne => hm.lookup k hk (by omega)
  refine h.extend hm (fun k hk => hlookup k (h.lt_SLOTS (Nat.le_of_lt hk)) (by omega))
    (fun k hk hlt => ?_) fun k hk => ?_
  · by_cases hne : k = first
    · subst hne
      rw [update_self]
      have hentry := hm.entry 0 Nat.zero_lt_one
      rwa [Nat.add_zero, page_zero] at hentry
    · rw [hlookup k hlt hne, update_of_ne hne]
      exact h.rest k hk hlt
  · rw [update_of_ne (by omega)]
    exact h.low k hk

theorem Space.unmapExtra {first : Nat} (h : Space kend s root n extra)
    (hu : Unmapped s s' root first 1 []) (hfirst : FRAMES ≤ first) :
    Moved kend s s' root n n (update extra first none) := by
  have hle := h.le_FRAMES
  have hlookup : ∀ k < SLOTS, k ≠ first → lookup s'.pte root k = lookup s.pte root k :=
    fun k hk hne => hu.lookup k hk (by omega)
  have hfree : s'.freelist = s.freelist := hu.free
  have hw : Within (owned s.pte root n ++ s.freelist) (owned s'.pte root n ++ s'.freelist) s.pte
      s'.pte := by
    rw [owned, owned, hu.nodes, hfree, frames_congr fun k hk => hlookup _ (h.lt_SLOTS (by omega)) (by omega)]
    refine ⟨.refl _, fun x hx => hu.other x (fun hx' => hx ?_) List.not_mem_nil⟩
    exact List.mem_append_left _ (List.mem_append_left _ hx')
  refine ⟨h.move hw hu.table (fun k hk => ?_) (fun k hk hlt => ?_) fun k hk => ?_, hw⟩
  · rw [hlookup k (h.lt_SLOTS (Nat.le_of_lt hk)) (by omega)]
    exact h.user k hk
  · by_cases hne : k = first
    · subst hne
      rw [update_self]
      exact hu.entry 0 Nat.zero_lt_one
    · rw [hlookup k hlt hne, update_of_ne hne]
      exact h.rest k hk hlt
  · rw [update_of_ne (by omega)]
    exact h.low k hk

theorem Space.wp_unmapExtra {va w : Word} (h : Space kend s root n extra) (hva : Aligned va)
    (hlt : va < MAXVA) (hfirst : FRAMES ≤ vpn va) (hw : extra (vpn va) = some w)
    (hflags : PTE_FLAGS w ≠ PTE_V) :
    wp (uvmunmap kend root va 1 false) (fun _ s' =>
      Moved kend s s' root n n (update extra (vpn va) none)) E s := by
  have hpages := vpn_lt hlt
  have hle := h.le_FRAMES
  have hcount : unmapCount va 1 = 1 := unmapCount_of_le hpages
  refine (Vm.wp_uvmunmap h.table (fun hno => by cases hno) fun hno => ?_).mono ?_ fun _ he => he
  · refine absurd ⟨hva, ?_⟩ hno
    rw [hcount]
    intro k hk
    obtain rfl : k = 0 := Nat.lt_one_iff.mp hk
    rw [Nat.add_zero, h.rest _ (by omega) (slot_lt hpages)]
    exact ⟨hpages, w, hw, hflags⟩
  · rintro _ s' ⟨-, hu⟩
    rw [hcount, if_neg Bool.false_ne_true] at hu
    exact h.unmapExtra hu hfirst

/-! ## The table of a process -/

/-- What the table of a process maps besides user memory. -/
def kernelPages (trampoline trapframe : Word) : Nat → Option Word :=
  update
    (update (fun _ => none) (vpn TRAMPOLINE)
      (some (PA2PTE trampoline ||| (PTE_R ||| PTE_X) ||| PTE_V)))
    (vpn TRAPFRAME) (some (PA2PTE trapframe ||| (PTE_R ||| PTE_W) ||| PTE_V))

theorem wp_uvmcreate (hnodup : s.freelist.Nodup) (hframe : ∀ x ∈ s.freelist, Frame kend x) :
    wp uvmcreate (fun r s' => (r = none ∧ Within s.freelist s'.freelist s.pte s'.pte) ∨
      ∃ root, r = some root ∧ Space kend s' root 0 (fun _ => none) ∧
        Within s.freelist (owned s'.pte root 0 ++ s'.freelist) s.pte s'.pte) E s := by
  rw [uvmcreate, wp_bind]
  refine wp_kalloc (.inl ⟨rfl, .refl _ _⟩) fun x rest hfree => ?_
  rw [hfree] at hnodup hframe ⊢
  rw [wp_bind, wp_modify, wp_pure]
  have hzero : ∀ i, (Mem.fill (Mem.fill ⟨s.pte, rest, s.fails.tail⟩ x 0x0505050505050505) x 0).pte x i = 0 := by
    intro i
    rw [Mem.fill_pte, update_self]
  obtain ⟨hspace, howned⟩ := Space.empty hzero hnodup hframe
  refine .inr ⟨x, rfl, hspace, ?_, fun y hy => ?_⟩
  · rw [howned]
    exact .refl _
  · have hne : y ≠ x := fun he => hy (he ▸ List.mem_cons_self)
    exact (update_of_ne hne ..).trans (update_of_ne hne ..)

theorem Space.wp_mapExtra {va pa perm : Word} {Q : Bool → Mem → Prop} (h : Space kend s root n extra)
    (hva : Aligned va) (hlt : va < MAXVA) (hfirst : FRAMES ≤ vpn va) (hnone : extra (vpn va) = none)
    (hfail : ∀ s', Moved kend s s' root n n extra → Q false s')
    (hok : ∀ s', Moved kend s s' root n n
      (update extra (vpn va) (some (PA2PTE pa ||| perm ||| PTE_V))) → Q true s') :
    wp (mappages root va PGSIZE pa perm) Q E s := by
  have hle := h.le_FRAMES
  have hlookup : lookup s.pte root (vpn va) = none := by
    rw [h.rest _ (by omega) (slot_lt (vpn_lt hlt)), hnone]
  refine (wp_mapPage h.ready hva hlt hlookup).mono (fun b s' hm => ?_) fun _ he => he
  cases b with
  | false => exact hfail s' (h.grown hm)
  | true => exact hok s' (h.mapExtra hm hfirst)

theorem trampoline_leaf (trampoline : Word) :
    PTE_FLAGS (PA2PTE trampoline ||| (PTE_R ||| PTE_X) ||| PTE_V) ≠ PTE_V := by
  rw [BitVec.or_assoc, PTE_FLAGS_PA2PTE _ (by decide)]
  decide

theorem trapframe_leaf (trapframe : Word) :
    PTE_FLAGS (PA2PTE trapframe ||| (PTE_R ||| PTE_W) ||| PTE_V) ≠ PTE_V := by
  rw [BitVec.or_assoc, PTE_FLAGS_PA2PTE _ (by decide)]
  decide

/-- The table has the two pages of the kernel and no user memory, or all pages are free again. -/
theorem wp_procPagetable {trampoline trapframe : Word} (hnodup : s.freelist.Nodup)
    (hframe : ∀ x ∈ s.freelist, Frame kend x) :
    wp (procPagetable kend trampoline trapframe) (fun r s' =>
      (r = none ∧ Within s.freelist s'.freelist s.pte s'.pte) ∨
      ∃ root, r = some root ∧ Space kend s' root 0 (kernelPages trampoline trapframe) ∧
        Within s.freelist (owned s'.pte root 0 ++ s'.freelist) s.pte s'.pte) E s := by
  have hpages : pages 0 = 0 := by decide
  rw [procPagetable, wp_bind]
  refine (wp_uvmcreate hnodup hframe).mono ?_ fun _ he => he
  rintro r s₁ (⟨rfl, hw₁⟩ | ⟨root, rfl, hspace₁, hw₁⟩)
  · exact .inl ⟨rfl, hw₁⟩
  · -- giving back a table without mappings
    have hundo : ∀ s₂, Space kend s₂ root 0 (fun _ => none) →
        Within s.freelist (owned s₂.pte root 0 ++ s₂.freelist) s.pte s₂.pte →
        wp (uvmfree kend root 0) (fun _ s' => Within s.freelist s'.freelist s.pte s'.pte) E s₂ := by
      intro s₂ hspace hw
      rw [← hpages] at hspace hw
      exact hspace.wp_uvmfree.mono (fun _ s' hw' => hw.trans hw') fun _ he => he
    have htramp : FRAMES ≤ vpn TRAMPOLINE := by decide
    have htrap : FRAMES ≤ vpn TRAPFRAME := by decide
    rw [wp_bind]
    refine hspace₁.wp_mapExtra (by decide) (by decide) htramp rfl (fun s₂ hm₂ => ?_) fun s₂ hm₂ => ?_
    · rw [if_neg Bool.false_ne_true, wp_bind]
      exact (hundo s₂ hm₂.space (hw₁.trans hm₂.within)).mono (fun _ s' hw => .inl ⟨rfl, hw⟩)
        fun _ he => he
    · rw [if_pos rfl, wp_bind]
      refine hm₂.space.wp_mapExtra (by decide) (by decide) htrap (by rfl) (fun s₃ hm₃ => ?_)
        fun s₃ hm₃ => ?_
      · rw [if_neg Bool.false_ne_true, wp_bind]
        refine (hm₃.space.wp_unmapExtra (by decide) (by decide) htramp (update_self ..)
          (trampoline_leaf trampoline)).mono (fun _ s₄ hm₄ => ?_) fun _ he => he
        have hspace₄ := hm₄.space
        rw [update_idem, update_eq_self] at hspace₄
        rw [wp_bind]
        exact (hundo s₄ hspace₄ (((hw₁.trans hm₂.within).trans hm₃.within).trans hm₄.within)).mono
          (fun _ s' hw => .inl ⟨rfl, hw⟩) fun _ he => he
      · exact .inr ⟨root, rfl, hm₃.space, (hw₁.trans hm₂.within).trans hm₃.within⟩

theorem kernelPages_erase (trampoline trapframe : Word) :
    update (update (kernelPages trampoline trapframe) (vpn TRAMPOLINE) none)
      (vpn TRAPFRAME) none = fun _ => none := by
  funext k
  by_cases hf : k = vpn TRAPFRAME
  · rw [hf, update_self]
  · rw [update_of_ne hf, kernelPages]
    by_cases ht : k = vpn TRAMPOLINE
    · rw [ht, update_self]
    · rw [update_of_ne ht, update_of_ne hf, update_of_ne ht]

/-- All memory of a process is freed. -/
theorem Space.wp_procFreepagetable {trampoline trapframe sz : Word}
    (h : Space kend s root (pages sz) (kernelPages trampoline trapframe)) :
    wp (procFreepagetable kend root sz) (fun _ s' =>
      Within (owned s.pte root (pages sz) ++ s.freelist) s'.freelist s.pte s'.pte) E s := by
  have hne : vpn TRAMPOLINE ≠ vpn TRAPFRAME := by decide
  have htramp : kernelPages trampoline trapframe (vpn TRAMPOLINE) =
      some (PA2PTE trampoline ||| (PTE_R ||| PTE_X) ||| PTE_V) := by
    rw [kernelPages, update_of_ne hne, update_self]
  have htrap : update (kernelPages trampoline trapframe) (vpn TRAMPOLINE) none (vpn TRAPFRAME) =
      some (PA2PTE trapframe ||| (PTE_R ||| PTE_W) ||| PTE_V) := by
    rw [update_of_ne hne.symm, kernelPages, update_self]
  rw [procFreepagetable, wp_bind]
  refine (h.wp_unmapExtra (by decide) (by decide) (by decide) htramp (trampoline_leaf _)).mono ?_
    fun _ he => he
  intro _ s₁ hm₁
  rw [wp_bind]
  refine (hm₁.space.wp_unmapExtra (by decide) (by decide) (by decide) htrap (trapframe_leaf _)).mono ?_
    fun _ he => he
  intro _ s₂ hm₂
  have hspace := hm₂.space
  rw [kernelPages_erase] at hspace
  exact hspace.wp_uvmfree.mono (fun _ s' hw => (hm₁.within.trans hm₂.within).trans hw) fun _ he => he

/-! ## A whole life -/

/-- A table is made, its process grows and shrinks, and all is given back. -/
def lifetime (kend trampoline trapframe : Word) (ns : List (BitVec 32)) : M Unit := do
  match ← procPagetable kend trampoline trapframe with
  | none => return
  | some root =>
    let sz ← ns.foldlM (fun sz n => do return (← growproc kend root sz n).2) 0
    procFreepagetable kend root sz

/-- A size below zero wraps to one above the old size, for which `uvmdealloc` does nothing. -/
theorem Space.moved_growprocs (ns : List (BitVec 32)) {sz : Word}
    (h : Space kend s root (pages sz) extra) :
    wp (ns.foldlM (fun sz n => do return (← growproc kend root sz n).2) sz)
      (fun sz' s' => Moved kend s s' root (pages sz) (pages sz') extra) E s := by
  induction ns generalizing s sz with
  | nil => exact Moved.refl h
  | cons n ns ih =>
    rw [List.foldlM_cons, wp_bind, wp_bind]
    refine (h.moved_growproc n).mono (fun r s₁ hm => ?_) fun _ he => he
    exact (ih hm.space).mono (fun _ _ hm' => hm.trans hm') fun _ he => he

/-- Whatever the process asks for and whichever allocations fail, all pages are free again and no page
    that was in use has changed. -/
theorem lifetime_leaks_nothing (trampoline trapframe : Word) (ns : List (BitVec 32))
    (hnodup : s.freelist.Nodup) (hframe : ∀ x ∈ s.freelist, Frame kend x) :
    wp (lifetime kend trampoline trapframe ns)
      (fun _ s' => Within s.freelist s'.freelist s.pte s'.pte) (fun _ => False) s := by
  rw [lifetime, wp_bind]
  refine (wp_procPagetable hnodup hframe).mono ?_ fun _ he => he
  rintro r s₁ (⟨rfl, hw⟩ | ⟨root, rfl, hspace, hw⟩)
  · exact hw
  · rw [wp_bind]
    refine wp.mono (Space.moved_growprocs ns hspace) (fun sz s₂ hm => ?_) fun _ he => he
    exact hm.space.wp_procFreepagetable.mono (fun _ s₃ hw' => (hw.trans hm.within).trans hw')
      fun _ he => he

theorem lifetime_leaks_nothing_fourFree :
    ∃ s, lifetime 0x80000000 0x80008000 0x80001000 [4096, -8192] fourFree = .ok ((), s) ∧
      s.freelist.Perm fourFree.freelist := by
  obtain ⟨_, s, hrun, hw⟩ := (lifetime_leaks_nothing 0x80008000 0x80001000 [4096, -8192] (by decide)
    fun x hx => fourFree_space.frame x (List.mem_append_right _ hx)).exists_ok
  exact ⟨s, hrun, hw.perm⟩

end Xv6.Vm
