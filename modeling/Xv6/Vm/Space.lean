import Mathlib.Data.List.Perm.Subperm
import Xv6.Lib.Footprint
import Xv6.Vm.UserMemory
import Xv6.Vm.UserVm

set_option autoImplicit false

/-! # What an address space owns

An address space of `n` pages owns the pages of its table and the `n` pages of user memory, and maps
other pages that it does not own: the trampoline and the trapframe. Together with the free list these
are different pages of RAM. The functions that make, grow, shrink and free address spaces move pages
between the address space and the free list and touch no other page; none of them panics. -/

namespace Xv6.Vm

open Wp Footprint

/-! ## Sizes -/

/-- The number of pages below a size. -/
def pages (sz : Word) : Nat := (sz.toNat + 4095) / 4096

theorem toNat_PGROUNDUP {sz : Word} (h : sz.toNat + 4095 < 2 ^ 64) :
    (PGROUNDUP sz).toNat = pages sz * 4096 := by
  have hsum : (sz + PGSIZE - 1).toNat = sz.toNat + 4095 := by
    rw [BitVec.toNat_sub, BitVec.toNat_add, show PGSIZE.toNat = 4096 from rfl,
      show (1 : Word).toNat = 1 from rfl]
    omega
  show (PGROUNDDOWN (sz + PGSIZE - 1)).toNat = _
  rw [toNat_PGROUNDDOWN, hsum, pages]

/-! ## Pages that are mapped -/

variable {m m' : Word → Nat → Word} {s s' s₁ s₂ : Mem} {root kend : Word} {n : Nat}
  {E : String → Prop} {pa perm : Word} {first : Nat}

theorem frames_snoc {w : Word} (h : lookup m root n = some w) :
    frames m root 0 (n + 1) = frames m root 0 n ++ [PTE2PA w] := by
  have hn : lookup m root (0 + n) = some w := by rwa [Nat.zero_add]
  rw [frames, List.range'_1_concat, List.filterMap_append, List.filterMap_cons, hn]
  rfl

theorem length_frames (h : ∀ k < n, lookup m root k ≠ none) : (frames m root 0 n).length = n := by
  induction n with
  | zero => rfl
  | succ n ih =>
    obtain ⟨w, hw⟩ := Option.ne_none_iff_exists'.1 (h n (Nat.lt_succ_self n))
    rw [frames_snoc hw, List.length_append, ih (fun k hk => h k (Nat.lt_succ_of_lt hk))]
    rfl

theorem mem_frames_iff {x : Word} :
    x ∈ frames m root 0 n ↔ ∃ k < n, ∃ w, lookup m root k = some w ∧ PTE2PA w = x := by
  refine ⟨fun hx => ?_, ?_⟩
  · obtain ⟨k, hk, hkx⟩ := List.mem_filterMap.1 hx
    obtain ⟨w, hw, rfl⟩ := Option.map_eq_some_iff.1 hkx
    exact ⟨k, by simpa using hk, w, hw, rfl⟩
  · rintro ⟨k, hk, w, hw, rfl⟩
    exact mem_frames hk (by rwa [Nat.zero_add])

/-- How many pages of RAM there can be. -/
def FRAMES : Nat := 0x88000

/-- Different pages from `kend` to `PHYSTOP` are not more than there are between the two. -/
theorem length_le_ram {l : List Word} (hnodup : l.Nodup) (hframe : ∀ x ∈ l, Frame kend x) :
    l.length ≤ FRAMES - kend.toNat / 4096 := by
  have hlow : ∀ x ∈ l, kend.toNat ≤ x.toNat := fun x hx => (hframe x hx).lower
  have hinj : (l.map fun x => x.toNat / 4096 - kend.toNat / 4096).Nodup := by
    refine (List.nodup_map_iff_inj_on hnodup).2 (fun x hx y hy he => BitVec.eq_of_toNat_eq ?_)
    have hx' := hlow x hx
    have hy' := hlow y hy
    have hx := (hframe x hx).aligned
    have hy := (hframe y hy).aligned
    unfold Aligned at hx hy
    omega
  have hsub : l.map (fun x => x.toNat / 4096 - kend.toNat / 4096) ⊆
      List.range (FRAMES - kend.toNat / 4096) := by
    intro k hk
    obtain ⟨x, hx, rfl⟩ := List.mem_map.1 hk
    have hlt : x.toNat < 0x88000000 := (hframe x hx).upper
    have hx := hlow x hx
    rw [List.mem_range]
    unfold FRAMES
    omega
  have hle := (hinj.subperm hsub).length_le
  rwa [List.length_map, List.length_range] at hle

theorem length_le_FRAMES {l : List Word} (hnodup : l.Nodup) (hframe : ∀ x ∈ l, Frame kend x) :
    l.length ≤ FRAMES :=
  (length_le_ram hnodup hframe).trans (Nat.sub_le ..)

/-! ## Address spaces -/

/-- The pages of the table, and the pages of user memory. -/
def owned (m : Word → Nat → Word) (root : Word) (n : Nat) : List Word :=
  nodes m root ++ frames m root 0 n

theorem owned_zero (m : Word → Nat → Word) (root : Word) : owned m root 0 = nodes m root :=
  List.append_nil _

/-- An address space of `n` pages, which maps `extra` besides. -/
structure Space (kend : Word) (s : Mem) (root : Word) (n : Nat) (extra : Nat → Option Word) :
    Prop where
  table : Table s.pte root
  nodup : (owned s.pte root n ++ s.freelist).Nodup
  frame : ∀ x ∈ owned s.pte root n ++ s.freelist, Frame kend x
  user : ∀ k < n, ∃ w, lookup s.pte root k = some w ∧ PTE_FLAGS w ≠ PTE_V
  rest : ∀ k, n ≤ k → k < SLOTS → lookup s.pte root k = extra k
  /-- User memory can be as large as RAM. -/
  low : ∀ k < FRAMES, extra k = none

variable {extra : Nat → Option Word}

namespace Space

theorem le_ram (h : Space kend s root n extra) :
    n + s.freelist.length ≤ FRAMES - kend.toNat / 4096 := by
  have hlen := length_le_ram h.nodup h.frame
  have hframes : (frames s.pte root 0 n).length = n := length_frames fun k hk hnone => by
    obtain ⟨w, hw, -⟩ := h.user k hk
    rw [hnone] at hw
    cases hw
  rw [owned, List.length_append, List.length_append, hframes] at hlen
  omega

theorem le_FRAMES (h : Space kend s root n extra) : n + s.freelist.length ≤ FRAMES :=
  h.le_ram.trans (Nat.sub_le ..)

theorem ready (h : Space kend s root n extra) : Ready s root := by
  refine ⟨h.table, h.nodup.sublist ?_, fun x hx => (h.frame x (List.mem_append_right _ hx)).aligned⟩
  exact (List.sublist_append_left _ _).append (List.Sublist.refl _)

theorem not_node (h : Space kend s root n extra) {k : Nat} {w : Word} (hk : k < n)
    (hw : lookup s.pte root k = some w) : PTE2PA w ∉ nodes s.pte root := fun hx =>
  (List.nodup_append.1 h.nodup.of_append_left).2.2 _ hx _ (mem_frames_iff.2 ⟨k, hk, w, hw, rfl⟩) rfl

/-- What is needed of a memory into which the pages went. -/
theorem move {n' : Nat} {extra' : Nat → Option Word} (h : Space kend s root n extra)
    (hw : Within (owned s.pte root n ++ s.freelist) (owned s'.pte root n' ++ s'.freelist) s.pte s'.pte)
    (ht : Table s'.pte root)
    (huser : ∀ k < n', ∃ w, lookup s'.pte root k = some w ∧ PTE_FLAGS w ≠ PTE_V)
    (hrest : ∀ k, n' ≤ k → k < SLOTS → lookup s'.pte root k = extra' k)
    (hlow : ∀ k < FRAMES, extra' k = none) : Space kend s' root n' extra' :=
  ⟨ht, hw.nodup h.nodup, fun x hx => h.frame x (hw.perm.subset hx), huser, hrest, hlow⟩

theorem lt_SLOTS (h : Space kend s root n extra) {k : Nat} (hk : k ≤ n) : k < SLOTS := by
  have := h.le_FRAMES
  unfold FRAMES at this
  unfold SLOTS
  omega

end Space

/-- An empty table and pages that are free. -/
theorem Space.empty (hzero : ∀ i, s.pte root i = 0) (hnodup : (root :: s.freelist).Nodup)
    (hframes : ∀ x ∈ root :: s.freelist, Frame kend x) :
    Space kend s root 0 (fun _ => none) ∧ owned s.pte root 0 = [root] := by
  have hempty := empty_of_zero hzero
  have howned : owned s.pte root 0 = [root] := by rw [owned_zero, hempty.nodes]
  refine ⟨⟨hempty.table, ?_, ?_, fun k hk => absurd hk (Nat.not_lt_zero k),
    fun k _ _ => hempty.lookup k, fun _ _ => rfl⟩, howned⟩
  · rwa [howned]
  · rwa [howned]

/-- An address space of `n` pages has become one of `n'` pages. -/
structure Moved (kend : Word) (s s' : Mem) (root : Word) (n n' : Nat) (extra' : Nat → Option Word) :
    Prop where
  space : Space kend s' root n' extra'
  within : Within (owned s.pte root n ++ s.freelist) (owned s'.pte root n' ++ s'.freelist) s.pte s'.pte

theorem Moved.trans {n₁ n₂ : Nat} {e₁ e₂ : Nat → Option Word} (h : Moved kend s s₁ root n n₁ e₁)
    (h' : Moved kend s₁ s₂ root n₁ n₂ e₂) : Moved kend s s₂ root n n₂ e₂ :=
  ⟨h'.space, h.within.trans h'.within⟩

theorem Moved.refl (h : Space kend s root n extra) : Moved kend s s root n n extra :=
  ⟨h, Within.refl _ _⟩

/-! ## Mapping a page -/

theorem perm_between {α : Type} {a a' c c' : List α} (b : List α) (h : (a' ++ c').Perm (a ++ c)) :
    (a' ++ b ++ c').Perm (a ++ b ++ c) := by
  have hswap : ∀ x y : List α, (x ++ b ++ y).Perm (b ++ (x ++ y)) := fun x y => by
    rw [List.append_assoc]
    exact List.perm_append_comm_assoc x b y
  exact (hswap a' c').trans ((h.append_left b).trans (hswap a c).symm)

/-- Memory is only needed for the table. -/
theorem wp_mapPage {va : Word} (h : Ready s root) (hva : Aligned va) (hlt : va < MAXVA)
    (hnone : lookup s.pte root (vpn va) = none) :
    wp (mappages root va PGSIZE pa perm) (fun b s' =>
      Mapped s s' root (vpn va) (if b then 1 else 0) pa perm) E s := by
  have hsize : PGSIZE.toNat / 4096 = 1 := rfl
  refine (wp_mappages h (fun hno => absurd hva hno) (fun hno => absurd (by decide) hno)
    (fun h0 => absurd h0 (by decide)) (fun hbig => ?_) (fun hmapped => ?_)).mono (fun b s' => ?_)
    (fun _ he => he)
  · have hlt : va.toNat < 2 ^ 38 := hlt
    have hmax : MAXVA.toNat = 2 ^ 38 := rfl
    have hpg : PGSIZE.toNat = 4096 := rfl
    unfold Aligned at hva
    omega
  · obtain ⟨k, hk, -, hne⟩ := hmapped
    obtain rfl : k = 0 := by omega
    exact absurd hnone hne
  · rintro ⟨count, hcount, hm⟩
    cases b with
    | true =>
      obtain rfl : count = 1 := hcount
      exact hm
    | false =>
      obtain rfl : count = 0 := Nat.lt_one_iff.1 hcount
      exact hm

/-- Mapping takes pages from the free list for the table only. -/
theorem Space.extend {count : Nat} {extra' : Nat → Option Word} (h : Space kend s root n extra)
    (hm : Mapped s s' root first count pa perm)
    (hlookup : ∀ k < n, lookup s'.pte root k = lookup s.pte root k)
    (hrest : ∀ k, n ≤ k → k < SLOTS → lookup s'.pte root k = extra' k)
    (hlow : ∀ k < FRAMES, extra' k = none) : Moved kend s s' root n n extra' := by
  have hframes : frames s'.pte root 0 n = frames s.pte root 0 n :=
    frames_congr fun k hk => hlookup _ (by rwa [Nat.zero_add])
  have hw : Within (owned s.pte root n ++ s.freelist) (owned s'.pte root n ++ s'.freelist) s.pte
      s'.pte := by
    rw [owned, owned, hframes]
    refine ⟨perm_between _ hm.frames, fun x hx => hm.other x (fun hx' => hx ?_)⟩
    rcases List.mem_append.1 (hm.frames.subset (List.mem_append_left _ hx')) with hx' | hx'
    · exact List.mem_append_left _ (List.mem_append_left _ hx')
    · exact List.mem_append_right _ hx'
  refine ⟨h.move hw hm.ready.table (fun k hk => ?_) hrest hlow, hw⟩
  rw [hlookup k hk]
  exact h.user k hk

theorem Space.grown (h : Space kend s root n extra) (hm : Mapped s s' root first 0 pa perm) :
    Moved kend s s' root n n extra := by
  have hlookup : ∀ k < SLOTS, lookup s'.pte root k = lookup s.pte root k :=
    fun k hk => hm.lookup k hk (by omega)
  refine h.extend hm (fun k hk => hlookup k (h.lt_SLOTS (Nat.le_of_lt hk))) (fun k hk hlt => ?_) h.low
  rw [hlookup k hlt]
  exact h.rest k hk hlt

/-- The pages below `p` are still there, with what is in them. -/
structure Kept (s s' : Mem) (root : Word) (p : Nat) : Prop where
  lookup : ∀ k < p, lookup s'.pte root k = lookup s.pte root k
  page : ∀ k < p, ∀ w, Vm.lookup s.pte root k = some w → s'.pte (PTE2PA w) = s.pte (PTE2PA w)

theorem Kept.refl (s : Mem) (root : Word) (p : Nat) : Kept s s root p :=
  ⟨fun _ _ => rfl, fun _ _ _ _ => rfl⟩

theorem Kept.mono {p : Nat} (h : Kept s s' root n) (hp : p ≤ n) : Kept s s' root p :=
  ⟨fun k hk => h.lookup k (Nat.lt_of_lt_of_le hk hp), fun k hk => h.page k (Nat.lt_of_lt_of_le hk hp)⟩

theorem Kept.trans (h : Kept s s₁ root n) (h' : Kept s₁ s₂ root n) : Kept s s₂ root n := by
  refine ⟨fun k hk => (h'.lookup k hk).trans (h.lookup k hk), fun k hk w hw => ?_⟩
  have hw₁ : Vm.lookup s₁.pte root k = some w := by rw [h.lookup k hk, hw]
  rw [h'.page k hk w hw₁, h.page k hk w hw]

/-- What the entries and the contents of the pages from `p` to `n` are. -/
def Filled (s : Mem) (root : Word) (p n : Nat) (new : Nat → Word → (Nat → Word) → Prop) : Prop :=
  ∀ k, p ≤ k → k < n → ∃ w, lookup s.pte root k = some w ∧ new k (PTE_FLAGS w) (s.pte (PTE2PA w))

section Filled

variable {p : Nat} {new : Nat → Word → (Nat → Word) → Prop}

theorem Filled.none (s : Mem) (root : Word) (p : Nat) : Filled s root p p new :=
  fun _ hk hk' => absurd hk' (Nat.not_lt.2 hk)

/-- One page more. -/
theorem Filled.snoc {w : Word} (h : Filled s root p n new) (hkept : Kept s s' root n)
    (hw : lookup s'.pte root n = some w) (hnew : new n (PTE_FLAGS w) (s'.pte (PTE2PA w))) :
    Filled s' root p (n + 1) new := by
  intro k hk hk'
  rcases Nat.lt_succ_iff_lt_or_eq.1 hk' with hlt | rfl
  · obtain ⟨v, hv, hold⟩ := h k hk hlt
    exact ⟨v, by rw [hkept.lookup k hlt, hv], by rwa [hkept.page k hlt v hv]⟩
  · exact ⟨w, hw, hnew⟩

end Filled

/-- An address space that is not touched. -/
structure Untouched (s s' : Mem) (root : Word) (n : Nat) : Prop where
  same : Same s.pte s'.pte root
  owned : owned s'.pte root n = owned s.pte root n
  kept : Kept s s' root n

theorem Space.untouched (h : Space kend s root n extra)
    (hkept : ∀ y ∈ owned s.pte root n, s'.pte y = s.pte y) : Untouched s s' root n := by
  have hsame : Same s.pte s'.pte root :=
    h.table.same fun y hy => hkept y (List.mem_append_left _ hy)
  refine ⟨hsame, ?_, fun k _ => hsame.lookup k, fun k hk w hw => hkept _ ?_⟩
  · rw [owned, owned, hsame.nodes, frames_congr fun k _ => hsame.lookup _]
  · exact List.mem_append_right _ (mem_frames_iff.2 ⟨k, hk, w, hw, rfl⟩)

/-- It is an address space still, with another free list. -/
theorem Space.transfer (h : Space kend s root n extra) (hu : Untouched s s' root n)
    (hnodup : (owned s.pte root n ++ s'.freelist).Nodup) (hframe : ∀ x ∈ s'.freelist, Frame kend x) :
    Space kend s' root n extra where
  table := hu.same.table
  nodup := by rwa [hu.owned]
  frame x hx := by
    rw [hu.owned] at hx
    rcases List.mem_append.1 hx with hx | hx
    · exact h.frame x (List.mem_append_left _ hx)
    · exact hframe x hx
  user k hk := by
    rw [hu.same.lookup]
    exact h.user k hk
  rest k hk hlt := by
    rw [hu.same.lookup]
    exact h.rest k hk hlt
  low := h.low

/-! ## A page in hand -/

/-- An address space, and a page that has been taken from the free list for it. -/
structure Held (kend : Word) (s s' : Mem) (root : Word) (n : Nat) (extra : Nat → Option Word)
    (x : Word) : Prop where
  space : Space kend s' root n extra
  frame : Frame kend x
  fresh : x ∉ owned s'.pte root n ++ s'.freelist
  within : Within (owned s.pte root n ++ s.freelist) (x :: (owned s'.pte root n ++ s'.freelist))
    s.pte s'.pte
  kept : Kept s s' root n
  free : (x :: s'.freelist).Sublist s.freelist

/-- Only the page in hand has changed. -/
theorem Space.held {x : Word} {rest : List Word} (h : Space kend s root n extra)
    (hfree : s.freelist = x :: rest) (hrest : s'.freelist = rest)
    (hne : ∀ y, y ≠ x → s'.pte y = s.pte y) : Held kend s s' root n extra x := by
  have hperm : (x :: (owned s.pte root n ++ rest)).Perm (owned s.pte root n ++ s.freelist) := by
    rw [hfree]
    exact List.perm_middle.symm
  obtain ⟨hfresh, hnodup⟩ := List.nodup_cons.1 (hperm.nodup_iff.2 h.nodup)
  have hu : Untouched s s' root n :=
    h.untouched fun y hy => hne y fun he => hfresh (he ▸ List.mem_append_left _ hy)
  subst hrest
  refine ⟨h.transfer hu hnodup fun y hy => ?_, ?_, ?_, ⟨?_, fun y hy => ?_⟩, hu.kept, ?_⟩
  · exact h.frame y (hperm.subset (List.mem_cons_of_mem _ (List.mem_append_right _ hy)))
  · exact h.frame x (hperm.subset List.mem_cons_self)
  · rwa [hu.owned]
  · rwa [hu.owned]
  · exact hne y fun he => hy (he ▸ hperm.subset List.mem_cons_self)
  · rw [hfree]

theorem Space.wp_kalloc {Q : Option Word → Mem → Prop} (h : Space kend s root n extra)
    (hnone : ∀ s', Moved kend s s' root n n extra → Kept s s' root n → Q none s')
    (hsome : ∀ x s', Held kend s s' root n extra x → Q (some x) s') : wp kalloc Q E s := by
  refine Vm.wp_kalloc (hnone _ ⟨?_, Within.refl _ _⟩ ⟨fun _ _ => rfl, fun _ _ _ _ => rfl⟩)
    fun x _ hfree => hsome x _ (h.held hfree rfl fun _ hy => Function.update_of_ne hy ..)
  exact ⟨h.table, h.nodup, h.frame, h.user, h.rest, h.low⟩

/-- A page that belongs to neither comes to the free list. -/
theorem Space.wp_kfree {x : Word} (h : Space kend s root n extra) (hframe : Frame kend x)
    (hfresh : x ∉ owned s.pte root n ++ s.freelist) :
    wp (kfree kend x) (fun _ s' => Space kend s' root n extra ∧ Untouched s s' root n ∧
      Within (x :: (owned s.pte root n ++ s.freelist)) (owned s'.pte root n ++ s'.freelist) s.pte
        s'.pte) E s := by
  refine Vm.wp_kfree hframe ?_
  generalize hs' : ({ s.fill x 0x0101010101010101 with freelist := x :: s.freelist } : Mem) = s'
  have hfree : s'.freelist = x :: s.freelist := by rw [← hs']
  have hne : ∀ y, y ≠ x → s'.pte y = s.pte y := fun y hy => by
    rw [← hs']
    exact Function.update_of_ne hy ..
  have hu : Untouched s s' root n :=
    h.untouched fun y hy => hne y fun he => hfresh (he ▸ List.mem_append_left _ hy)
  have hperm : (owned s.pte root n ++ s'.freelist).Perm (x :: (owned s.pte root n ++ s.freelist)) := by
    rw [hfree]
    exact List.perm_middle
  refine ⟨h.transfer hu (hperm.nodup_iff.2 (List.nodup_cons.2 ⟨hfresh, h.nodup⟩)) ?_, hu, ?_, ?_⟩
  · rw [hfree]
    exact List.forall_mem_cons.2 ⟨hframe, fun y hy => h.frame y (List.mem_append_right _ hy)⟩
  · rwa [hu.owned]
  · exact fun y hy => hne y fun he => hy (he ▸ List.mem_cons_self)

namespace Held

variable {x : Word}

theorem not_owned (h : Held kend s s₁ root n extra x) : x ∉ owned s₁.pte root n :=
  fun hx => h.fresh (List.mem_append_left _ hx)

/-- There is a page number left for it. -/
theorem lt_FRAMES (h : Held kend s s₁ root n extra x) : n < FRAMES := by
  have hlen := length_le_FRAMES (List.nodup_cons.2 ⟨h.fresh, h.space.nodup⟩)
    (List.forall_mem_cons.2 ⟨h.frame, h.space.frame⟩)
  have hframes : (frames s₁.pte root 0 n).length = n := length_frames fun k hk hnone => by
    obtain ⟨w, hw, -⟩ := h.space.user k hk
    rw [hnone] at hw
    cases hw
  rw [List.length_cons, owned, List.length_append, List.length_append, hframes] at hlen
  omega

/-- The step before, and one that keeps the page in hand. -/
theorem trans (h : Held kend s s₁ root n extra x) (h' : Moved kend s₁ s₂ root n n extra)
    (hkept : Kept s₁ s₂ root n) (hfree : s₂.freelist.Sublist s₁.freelist) :
    Held kend s s₂ root n extra x :=
  ⟨h'.space, h.frame, fun hx => h.fresh (h'.within.perm.subset hx),
    h.within.trans (h'.within.frame [x]), h.kept.trans hkept, (hfree.cons_cons x).trans h.free⟩

/-- Writing to the page in hand. -/
theorem write (h : Held kend s s₁ root n extra x) (hfree : s₂.freelist = s₁.freelist)
    (hne : ∀ y, y ≠ x → s₂.pte y = s₁.pte y) : Held kend s s₂ root n extra x := by
  have hu : Untouched s₁ s₂ root n :=
    h.space.untouched fun y hy => hne y fun he => h.not_owned (he ▸ hy)
  have hspace : Space kend s₂ root n extra := by
    refine h.space.transfer hu ?_ fun y hy => h.space.frame y (List.mem_append_right _ (hfree ▸ hy))
    rw [hfree]
    exact h.space.nodup
  refine ⟨hspace, h.frame, ?_, ⟨?_, fun y hy => ?_⟩, h.kept.trans hu.kept, hfree ▸ h.free⟩
  · rw [hu.owned, hfree]
    exact h.fresh
  · rw [hu.owned, hfree]
    exact h.within.perm
  · rw [hne y fun he => hy (he ▸ h.within.perm.subset List.mem_cons_self), h.within.other y hy]

theorem wp_kfree (h : Held kend s s₁ root n extra x) :
    wp (kfree kend x) (fun _ s₂ => Moved kend s s₂ root n n extra ∧ Kept s s₂ root n) E s₁ := by
  refine (h.space.wp_kfree h.frame h.fresh).mono ?_ fun _ he => he
  rintro _ s₂ ⟨hspace, hu, hw⟩
  exact ⟨⟨hspace, h.within.trans hw⟩, h.kept.trans hu.kept⟩

end Held

/-- Mapping takes pages for the table from the free list only. -/
theorem Mapped.not_node {count : Nat} {x : Word} (hm : Mapped s s' root first count pa perm)
    (hx : x ∉ nodes s.pte root) (hfree : x ∉ s.freelist) :
    x ∉ nodes s'.pte root := by
  intro hx'
  rcases List.mem_append.1 (hm.frames.subset (List.mem_append_left _ hx')) with hx' | hx'
  · exact hx hx'
  · exact hfree hx'

theorem Space.kept_of_mapped {count : Nat} (h : Space kend s root n extra)
    (hm : Mapped s s' root first count pa perm) (hfirst : n ≤ first) : Kept s s' root n := by
  refine ⟨fun k hk => hm.lookup k (h.lt_SLOTS (Nat.le_of_lt hk)) (Or.inl (by omega)),
    fun k hk w hw => hm.other _ (hm.not_node (h.not_node hk hw) fun hx => ?_)⟩
  have hmem : PTE2PA w ∈ owned s.pte root n :=
    List.mem_append_right _ (mem_frames_iff.2 ⟨k, hk, w, hw, rfl⟩)
  exact (List.nodup_append.1 h.nodup).2.2 _ hmem _ hx rfl

namespace Held

variable {x perm : Word}

/-- The page in hand is the next page of user memory. -/
theorem mapped (h : Held kend s s₁ root n extra x) (hm : Mapped s₁ s₂ root n 1 x perm)
    (hperm : perm.toNat < 1024) (hleaf : perm ||| PTE_V ≠ PTE_V) :
    Moved kend s s₂ root n (n + 1) extra ∧ Kept s s₂ root n ∧
      (x :: s₂.freelist).Sublist s.freelist ∧
      ∃ w, lookup s₂.pte root n = some w ∧ PTE_FLAGS w = perm ||| PTE_V ∧ PTE2PA w = x ∧
        s₂.pte x = s₁.pte x := by
  have hkept : Kept s₁ s₂ root n := h.space.kept_of_mapped hm (Nat.le_refl n)
  have hx : x ∉ nodes s₂.pte root := hm.not_node
    (fun hx => h.not_owned (List.mem_append_left _ hx)) (fun hx => h.fresh (List.mem_append_right _ hx))
  have hflags : (perm ||| PTE_V).toNat < 1024 := by
    have hor : (perm ||| PTE_V).toNat = perm.toNat ||| 1 := BitVec.toNat_or ..
    rw [hor]
    exact Nat.or_lt_two_pow (n := 10) hperm (by decide)
  have hentry := hm.entry 0 Nat.zero_lt_one
  rw [page_zero, Nat.add_zero, BitVec.or_assoc] at hentry
  have hpa := PTE2PA_PA2PTE h.frame.aligned hflags
  have hfl := PTE_FLAGS_PA2PTE x hflags
  have hframes : frames s₂.pte root 0 (n + 1) = frames s₁.pte root 0 n ++ [x] := by
    rw [frames_snoc hentry, hpa, frames_congr fun k hk => hkept.lookup _ (by omega)]
  have hperm₁ : (owned s₁.pte root n ++ [x] ++ s₁.freelist).Perm
      (x :: (owned s₁.pte root n ++ s₁.freelist)) := by
    rw [List.append_assoc]
    exact List.perm_middle
  have hperm₂ : (owned s₂.pte root (n + 1) ++ s₂.freelist).Perm
      (x :: (owned s₁.pte root n ++ s₁.freelist)) := by
    refine List.Perm.trans ?_ hperm₁
    rw [owned, owned, hframes, List.append_assoc (nodes s₁.pte root)]
    exact perm_between _ hm.frames
  have hw₁ : Within (x :: (owned s₁.pte root n ++ s₁.freelist)) (owned s₂.pte root (n + 1) ++ s₂.freelist)
      s₁.pte s₂.pte := by
    refine ⟨hperm₂, fun y hy => hm.other y fun hy' => hy (List.mem_cons_of_mem _ ?_)⟩
    rcases List.mem_append.1 (hm.frames.subset (List.mem_append_left _ hy')) with hy' | hy'
    · exact List.mem_append_left _ (List.mem_append_left _ hy')
    · exact List.mem_append_right _ hy'
  have hframe : ∀ y ∈ x :: (owned s₁.pte root n ++ s₁.freelist), Frame kend y :=
    List.forall_mem_cons.2 ⟨h.frame, h.space.frame⟩
  refine ⟨⟨⟨hm.ready.table, ?_, fun y hy => hframe y (hperm₂.subset hy), fun k hk => ?_,
    fun k hk hlt => ?_, h.space.low⟩, h.within.trans hw₁⟩, h.kept.trans hkept, ?_, ?_⟩
  · exact hperm₂.nodup_iff.2 (List.nodup_cons.2 ⟨h.fresh, h.space.nodup⟩)
  · rcases Nat.lt_succ_iff_lt_or_eq.1 hk with hlt | rfl
    · rw [hkept.lookup k hlt]
      exact h.space.user k hlt
    · exact ⟨_, hentry, by rwa [hfl]⟩
  · rw [hm.lookup k hlt (Or.inr (by omega))]
    exact h.space.rest k (by omega) hlt
  · exact (hm.free.sublist.cons_cons x).trans h.free
  · exact ⟨_, hentry, hfl, hpa, hm.other x hx⟩

theorem wp_map {a : Word} {Q : Bool → Mem → Prop} (h : Held kend s s₁ root n extra x)
    (ha : a.toNat = n * 4096) (hperm : perm.toNat < 1024) (hleaf : perm ||| PTE_V ≠ PTE_V)
    (hfail : ∀ s₂, Held kend s s₂ root n extra x → Q false s₂)
    (hok : ∀ s₂, Moved kend s s₂ root n (n + 1) extra → Kept s s₂ root n →
      (x :: s₂.freelist).Sublist s.freelist →
      (∃ w, lookup s₂.pte root n = some w ∧ PTE_FLAGS w = perm ||| PTE_V ∧ PTE2PA w = x ∧
        s₂.pte x = s₁.pte x) → Q true s₂) :
    wp (mappages root a PGSIZE x perm) Q E s₁ := by
  have hlt := h.lt_FRAMES
  have hn : vpn a = n := by
    unfold vpn
    omega
  have hva : Aligned a := by
    unfold Aligned
    omega
  have hmax : a < MAXVA := by
    show a.toNat < 2 ^ 38
    unfold FRAMES at hlt
    omega
  have hnone : lookup s₁.pte root (vpn a) = none := by
    rw [hn, h.space.rest n (Nat.le_refl n) (h.space.lt_SLOTS (Nat.le_refl n)), h.space.low n hlt]
  refine (wp_mapPage h.space.ready hva hmax hnone).mono ?_ fun _ he => he
  intro b s₂ hm
  rw [hn] at hm
  cases b with
  | false =>
    have hm : Mapped s₁ s₂ root n 0 x perm := hm
    exact hfail s₂ (h.trans (h.space.grown hm) (h.space.kept_of_mapped hm (Nat.le_refl n))
      hm.free.sublist)
  | true =>
    obtain ⟨hmoved, hkept, hfree, hnew⟩ := h.mapped hm hperm hleaf
    exact hok s₂ hmoved hkept hfree hnew

end Held

/-! ## Unmapping pages -/

theorem frames_append (m : Word → Nat → Word) (root : Word) (p c : Nat) :
    frames m root 0 (p + c) = frames m root 0 p ++ frames m root p c := by
  have hrange : List.range' 0 (p + c) = List.range' 0 p ++ List.range' p c := by
    have happ : List.range' 0 p ++ List.range' (0 + p) c = List.range' 0 (p + c) :=
      List.range'_append_1
    rwa [Nat.zero_add, eq_comm] at happ
  rw [frames, hrange, List.filterMap_append]
  rfl

/-- Pages at the end of user memory have gone to the free list. -/
theorem Space.shrunk {p c : Nat} (h : Space kend s root (p + c) extra)
    (hu : Unmapped s s' root p c (frames s.pte root p c)) :
    Moved kend s s' root (p + c) p extra ∧ Kept s s' root p := by
  have hsplit := frames_append s.pte root p c
  have hnodup := h.nodup
  rw [owned, hsplit, ← List.append_assoc] at hnodup
  have hlookup : ∀ k < p, lookup s'.pte root k = lookup s.pte root k :=
    fun k hk => hu.lookup k (h.lt_SLOTS (by omega)) (Or.inl hk)
  have hframes : frames s'.pte root 0 p = frames s.pte root 0 p :=
    frames_congr fun k hk => hlookup _ (by omega)
  have hperm : (owned s'.pte root p ++ s'.freelist).Perm (owned s.pte root (p + c) ++ s.freelist) := by
    rw [owned, owned, hu.nodes, hframes, hu.free, hsplit, ← List.append_assoc, ← List.append_assoc]
    exact ((List.reverse_perm _).append_left _).append_right _
  have hw : Within (owned s.pte root (p + c) ++ s.freelist) (owned s'.pte root p ++ s'.freelist) s.pte
      s'.pte := by
    refine ⟨hperm, fun x hx => hu.other x (fun hx' => hx ?_) fun hx' => hx ?_⟩
    · exact List.mem_append_left _ (List.mem_append_left _ hx')
    · rw [owned, hsplit]
      exact List.mem_append_left _ (List.mem_append_right _ (List.mem_append_right _ hx'))
  refine ⟨⟨h.move hw hu.table (fun k hk => ?_) (fun k hk hlt => ?_) h.low, hw⟩, hlookup,
    fun k hk w hw => hu.other _ (h.not_node (by omega) hw) fun hx => ?_⟩
  · rw [hlookup k hk]
    exact h.user k (by omega)
  · have hle := h.le_FRAMES
    by_cases hkc : k < p + c
    · have hentry := hu.entry (k - p) (by omega)
      rw [show p + (k - p) = k by omega] at hentry
      rw [hentry, h.low k (by omega)]
    · rw [hu.lookup k hlt (Or.inr (by omega))]
      exact h.rest k (by omega) hlt
  · -- a page below is none of those that were freed
    refine (List.nodup_append.1 hnodup.of_append_left).2.2 _ ?_ _ hx rfl
    exact List.mem_append_right _ (mem_frames_iff.2 ⟨k, hk, w, hw, rfl⟩)

theorem Space.wp_uvmunmap {p c : Nat} {va npages : Word} (h : Space kend s root (p + c) extra)
    (hva : va.toNat = p * 4096) (hc : npages.toNat = c) :
    wp (uvmunmap kend root va npages true) (fun _ s' =>
      Moved kend s s' root (p + c) p extra ∧ Kept s s' root p) E s := by
  have hp : vpn va = p := by
    unfold vpn
    omega
  have hle := h.le_FRAMES
  have hcount : unmapCount va npages = c := by
    rw [unmapCount_of_le, hc]
    rw [hp, hc]
    unfold FRAMES at hle
    unfold PAGES
    omega
  have hpages : ∀ k < c, p + k < PAGES := fun k hk => by
    unfold FRAMES at hle
    unfold PAGES
    omega
  have hleaves : Leaves s.pte root (vpn va) (unmapCount va npages) := by
    rw [hp, hcount]
    exact fun k hk => ⟨hpages k hk, h.user (p + k) (by omega)⟩
  refine (Vm.wp_uvmunmap h.table (fun _ k hk _ w hw => ?_) fun hno => ?_).mono ?_ fun _ he => he
  · rw [hcount] at hk
    rw [hp] at hw
    have hmem := mem_frames_iff.2 ⟨p + k, Nat.add_lt_add_left hk p, w, hw, rfl⟩
    exact ⟨h.frame _ (List.mem_append_left _ (List.mem_append_right _ hmem)),
      h.not_node (Nat.add_lt_add_left hk p) hw⟩
  · exact absurd ⟨show va.toNat % 4096 = 0 by omega, hleaves⟩ hno
  · rintro _ s' ⟨-, hu⟩
    rw [if_pos rfl, hp, hcount] at hu
    exact h.shrunk hu

end Xv6.Vm
