import Xv6.Vm.Table

set_option autoImplicit false

/-! # `mappages` and `uvmunmap` on the map

`mappages` enters consecutive pages into the map, all of them or, when there is no memory for the page
table, some of the first ones (`wp_mappages`). `uvmunmap` takes pages out of the map, and gives their
memory back if asked to (`wp_uvmunmap`). -/

namespace Xv6.Vm

open Wp

variable {s s' : Mem} {root : Word} {va a w pa perm kend : Word} {n first count : Nat}
  {m : Word → Nat → Word} {E : String → Prop}

theorem vpn_lt_iff : vpn va < PAGES ↔ va < MAXVA := by
  rw [BitVec.lt_def, show MAXVA.toNat = 2 ^ 38 from rfl]
  unfold vpn PAGES
  omega

theorem vpn_lt (h : va < MAXVA) : vpn va < PAGES := vpn_lt_iff.mpr h

/-- The next page. -/
theorem toNat_next (h : a < MAXVA) : (a + PGSIZE).toNat = a.toNat + 4096 := by
  have hlt : a.toNat < 2 ^ 38 := h
  rw [BitVec.toNat_add, show PGSIZE.toNat = 4096 from rfl, Nat.mod_eq_of_lt (by omega)]

theorem vpn_next (h : a < MAXVA) : vpn (a + PGSIZE) = vpn a + 1 := by
  rw [vpn, vpn, toNat_next h, Nat.add_div_right _ (by decide)]

/-- The address of the page that is `k` pages on. -/
def page (pa : Word) (k : Nat) : Word := pa + BitVec.ofNat 64 (k * 4096)

theorem page_zero (pa : Word) : page pa 0 = pa := by simp [page]

theorem page_succ (pa : Word) (k : Nat) : page (pa + PGSIZE) k = page pa (k + 1) := by
  rw [page, page, Nat.add_mul, Nat.one_mul, Nat.add_comm (k * 4096), BitVec.ofNat_add, ← BitVec.add_assoc]
  rfl

theorem mod_PGSIZE : w % PGSIZE ≠ 0 ↔ ¬ Aligned w := by
  rw [not_iff_not, ← BitVec.toNat_inj, BitVec.toNat_umod]
  rfl

/-! ## `mappages` -/

/-- The page numbers from `first` on have got entries for the pages from `pa` on, `count` of them. -/
structure Mapped (s s' : Mem) (root : Word) (first count : Nat) (pa perm : Word) : Prop where
  ready : Ready s' root
  frames : (nodes s'.pte root ++ s'.freelist).Perm (nodes s.pte root ++ s.freelist)
  grows : nodes s.pte root ⊆ nodes s'.pte root
  free : s'.freelist <:+ s.freelist
  inside : ∀ k < count, first + k < PAGES
  entry : ∀ k < count, lookup s'.pte root (first + k) = some (PA2PTE (page pa k) ||| perm ||| PTE_V)
  lookup : ∀ n < SLOTS, n < first ∨ first + count ≤ n → lookup s'.pte root n = lookup s.pte root n
  other : ∀ x, x ∉ nodes s'.pte root → s'.pte x = s.pte x

theorem Mapped.none (h : Ready s root) (hg : Grown s s' root) (first : Nat) (pa perm : Word) :
    Mapped s s' root first 0 pa perm :=
  ⟨hg.ready h, hg.frames, hg.grows, hg.free, nofun, nofun, fun n _ _ => hg.lookup n, hg.other⟩

theorem Stored.ready {s₁ s₂ : Mem} (hst : Stored s₁ s₂ root n w) (hfree : s₂.freelist = s₁.freelist)
    (h : Ready s₁ root) : Ready s₂ root :=
  ⟨hst.table, by rw [hst.nodes, hfree]; exact h.nodup, by rw [hfree]; exact h.aligned⟩

/-- One page, and then more. -/
theorem Mapped.cons {s₁ s₂ s₃ : Mem} (hg : Grown s s₁ root) (hfirst : first < PAGES)
    (hst : Stored s₁ s₂ root first (PA2PTE pa ||| perm ||| PTE_V))
    (hfree : s₂.freelist = s₁.freelist)
    (hm : Mapped s₂ s₃ root (first + 1) count (pa + PGSIZE) perm) :
    Mapped s s₃ root first (count + 1) pa perm := by
  have hsub : nodes s₁.pte root ⊆ nodes s₃.pte root := hst.nodes ▸ hm.grows
  refine ⟨hm.ready, ?_, List.Subset.trans hg.grows hsub, ?_, fun k hk => ?_, fun k hk => ?_, fun n hn hout => ?_,
    fun x hx => ?_⟩
  · have hframes := hm.frames
    rw [hst.nodes, hfree] at hframes
    exact hframes.trans hg.frames
  · exact (hfree ▸ hm.free).trans hg.free
  · cases k with
    | zero => exact hfirst
    | succ k =>
      have hinside := hm.inside k (Nat.lt_of_succ_lt_succ hk)
      rwa [Nat.add_assoc, Nat.add_comm 1 k] at hinside
  · cases k with
    | zero =>
      have hkeep := hm.lookup first (slot_lt hfirst) (.inl (Nat.lt_succ_self first))
      rw [Nat.add_zero, hkeep, hst.entry, valid_or, page_zero]
      rfl
    | succ k =>
      have hentry := hm.entry k (Nat.lt_of_succ_lt_succ hk)
      rwa [page_succ, Nat.add_assoc, Nat.add_comm 1 k] at hentry
  · rw [hm.lookup n hn (by omega), hst.lookup n hn (by omega), hg.lookup]
  · have hx₁ : x ∉ nodes s₁.pte root := fun hx' => hx (hsub hx')
    rw [hm.other x hx, hst.other x hx₁, hg.other x hx₁]

theorem Table.lookup_of_valid {x : Word} (hx : leaf m root n = some x)
    (hv : valid (m x (n % 512)) = true) : lookup m root n = some (m x (n % 512)) := by
  rw [lookup, hx, Option.bind_some, if_pos hv]

/-- One turn of the loop. -/
theorem wp_mapRound {Q : Bool → Mem → Prop} {last : Word} (h : Ready s root)
    (hwalk : a ≥ MAXVA → E "walk")
    (hremap : a < MAXVA → lookup s.pte root (vpn a) ≠ none → E "mappages: remap")
    (hfail : ∀ s₁, Grown s s₁ root → Q false s₁) (hnext : ∀ s₁ s₂, a < MAXVA → Grown s s₁ root →
      Stored s₁ s₂ root (vpn a) (PA2PTE pa ||| perm ||| PTE_V) → s₂.freelist = s₁.freelist →
      wp (if a = last then pure true else mappagesLoop root last perm n (a + PGSIZE) (pa + PGSIZE)) Q E s₂) :
    wp (mappagesLoop root last perm (n + 1) a pa) Q E s := by
  rw [mappagesLoop, wp_bind]
  refine (wp_walk h hwalk).mono ?_ fun _ he => he
  rintro (_ | ⟨x, i⟩) s₁ ⟨hg, hlt, hleaf⟩
  · exact hfail s₁ hg
  obtain ⟨hx, rfl⟩ := hleaf x i rfl
  dsimp only
  rw [wp_bind, wp_get, wp_ite]
  refine ⟨fun hv => hremap hlt ?_, fun _ => ?_⟩
  · rw [← hg.lookup, Table.lookup_of_valid hx hv]
    exact Option.some_ne_none _
  · rw [wp_bind, wp_modify]
    exact hnext s₁ _ hlt hg (hg.table.store (slot_lt (vpn_lt hlt)) hx _) rfl

attribute [local irreducible] mappagesLoop

theorem wp_mappagesLoop {last : Word} (h : Ready s root) (hlast : page a n = last)
    (hfirst : ∀ k < n, page a k ≠ last) (hwalk : MAXVA.toNat ≤ a.toNat + n * 4096 → E "walk")
    (hremap : (∃ k ≤ n, vpn a + k < PAGES ∧ lookup s.pte root (vpn a + k) ≠ none) → E "mappages: remap") :
    wp (mappagesLoop root last perm (n + 1) a pa) (fun b s' =>
      ∃ count, (if b then count = n + 1 else count ≤ n) ∧ Mapped s s' root (vpn a) count pa perm) E s := by
  have hge : ∀ {a : Word} {n : Nat}, a ≥ MAXVA → MAXVA.toNat ≤ a.toNat + n * 4096 := fun {a n} hge =>
    Nat.le_trans hge (Nat.le_add_right ..)
  induction n generalizing s a pa with
  | zero =>
    rw [page_zero] at hlast
    refine wp_mapRound h (fun h => hwalk (hge h)) (fun hlt hne => hremap ⟨0, Nat.le_refl 0, vpn_lt hlt, hne⟩)
      (fun s₁ hg => ⟨0, Nat.le_refl 0, .none h hg ..⟩) fun s₁ s₂ hlt hg hst hfree => ?_
    rw [if_pos hlast]
    have h₂ := hst.ready hfree (hg.ready h)
    exact ⟨1, rfl, .cons hg (vpn_lt hlt) hst hfree (.none h₂ (.refl h₂.table) ..)⟩
  | succ n ih =>
    refine wp_mapRound h (fun h => hwalk (hge h)) (fun hlt hne => hremap ⟨0, Nat.zero_le _, vpn_lt hlt, hne⟩)
      (fun s₁ hg => ⟨0, Nat.zero_le _, .none h hg ..⟩) fun s₁ s₂ hlt hg hst hfree => ?_
    have hne : a ≠ last := page_zero a ▸ hfirst 0 (Nat.succ_pos n)
    have hlookup : ∀ k, vpn a + 1 + k < PAGES →
        lookup s₂.pte root (vpn a + 1 + k) = lookup s.pte root (vpn a + (k + 1)) := by
      intro k hk
      rw [hst.lookup _ (slot_lt hk) (by omega), hg.lookup, Nat.add_assoc, Nat.add_comm 1 k]
    rw [if_neg hne]
    refine (ih (hst.ready hfree (hg.ready h)) ((page_succ a n).trans hlast) (fun k hk => ?_)
      (fun hle => hwalk ?_) ?_).mono ?_ fun _ he => he
    · rw [page_succ]
      exact hfirst (k + 1) (Nat.succ_lt_succ hk)
    · rw [toNat_next hlt] at hle
      omega
    · rintro ⟨k, hk, hlt', hne⟩
      rw [vpn_next hlt] at hlt' hne
      rw [hlookup k hlt'] at hne
      exact hremap ⟨k + 1, Nat.succ_le_succ hk, by omega, hne⟩
    · rintro b s₃ ⟨count, hcount, hm⟩
      rw [vpn_next hlt] at hm
      refine ⟨count + 1, ?_, .cons hg (vpn_lt hlt) hst hfree hm⟩
      cases b with
      | false => exact Nat.succ_le_succ hcount
      | true => exact congrArg Nat.succ hcount

theorem wp_mappages {size : Word} (h : Ready s root)
    (hva : ¬ Aligned va → E "mappages: va not aligned")
    (hsize : ¬ Aligned size → E "mappages: size not aligned")
    (hzero : size = 0 → E "mappages: size") (hwalk : MAXVA.toNat < va.toNat + size.toNat → E "walk")
    (hremap : (∃ k < size.toNat / 4096, vpn va + k < PAGES ∧ lookup s.pte root (vpn va + k) ≠ none) →
      E "mappages: remap") :
    wp (mappages root va size pa perm) (fun b s' => ∃ count,
      (if b then count = size.toNat / 4096 else count < size.toNat / 4096) ∧
        Mapped s s' root (vpn va) count pa perm) E s := by
  unfold mappages
  rw [wp_ite, wp_ite, wp_ite, mod_PGSIZE, mod_PGSIZE]
  refine ⟨hva, fun hva => ⟨hsize, fun hsize => ⟨hzero, fun hzero => ?_⟩⟩⟩
  rw [not_not, Aligned] at hva hsize
  have hpos : size.toNat ≠ 0 := fun he => hzero (BitVec.eq_of_toNat_eq he)
  have hlt := size.isLt
  obtain ⟨n, hn⟩ : ∃ n, size.toNat / 4096 = n + 1 := ⟨size.toNat / 4096 - 1, by omega⟩
  have hdiv : (size / PGSIZE).toNat = n + 1 := by
    rw [BitVec.toNat_udiv]
    exact hn
  have hlast : page va n = va + size - PGSIZE := by
    have hsize' : size = BitVec.ofNat 64 (n * 4096) + PGSIZE := by
      apply BitVec.eq_of_toNat_eq
      rw [BitVec.toNat_add, BitVec.toNat_ofNat, show PGSIZE.toNat = 4096 from rfl]
      omega
    rw [hsize', ← BitVec.add_assoc, BitVec.add_sub_cancel]
    rfl
  rw [hdiv]
  refine (wp_mappagesLoop h hlast (fun k hk he => ?_) (fun hle => hwalk (by omega)) ?_).mono ?_ fun _ he => he
  · have hk' := congrArg BitVec.toNat ((BitVec.add_right_inj va).mp (he.trans hlast.symm))
    rw [BitVec.toNat_ofNat, BitVec.toNat_ofNat] at hk'
    omega
  · rintro ⟨k, hk, hne⟩
    exact hremap ⟨k, by omega, hne⟩
  · rintro b s' ⟨count, hcount, hm⟩
    refine ⟨count, ?_, hm⟩
    rw [hn]
    cases b with
    | false => exact Nat.lt_succ_of_le hcount
    | true => exact hcount

theorem wp_mappages_any {size : Word} (h : Ready s root) :
    wp (mappages root va size pa perm) (fun b s' => ∃ count,
      (if b then count = size.toNat / 4096 else count < size.toNat / 4096) ∧
        Mapped s s' root (vpn va) count pa perm) (fun _ => True) s :=
  wp_mappages h (fun _ => trivial) (fun _ => trivial) (fun _ => trivial) (fun _ => trivial) fun _ => trivial

/-! ## `uvmunmap` -/

/-- A page that the allocator can have. -/
structure Frame (kend x : Word) : Prop where
  aligned : Aligned x
  lower : kend ≤ x
  upper : x < PHYSTOP

instance (kend x : Word) : Decidable (Frame kend x) :=
  decidable_of_iff (Aligned x ∧ kend ≤ x ∧ x < PHYSTOP) ⟨fun h => ⟨h.1, h.2.1, h.2.2⟩, fun h => ⟨h.1, h.2, h.3⟩⟩

/-- The addresses of the pages that are mapped at the page numbers from `first` on. -/
def frames (m : Word → Nat → Word) (root : Word) (first count : Nat) : List Word :=
  (List.range' first count).filterMap fun n => (lookup m root n).map PTE2PA

/-- The page numbers from `first` on are mapped, with a flag besides `PTE_V`. -/
def Leaves (m : Word → Nat → Word) (root : Word) (first count : Nat) : Prop :=
  ∀ k < count, first + k < PAGES ∧ ∃ w, lookup m root (first + k) = some w ∧ PTE_FLAGS w ≠ PTE_V

/-- The page numbers from `first` on are not mapped any more; the pages `freed` have been given back. -/
structure Unmapped (s s' : Mem) (root : Word) (first count : Nat) (freed : List Word) : Prop where
  table : Table s'.pte root
  nodes : nodes s'.pte root = nodes s.pte root
  free : s'.freelist = freed.reverse ++ s.freelist
  entry : ∀ k < count, lookup s'.pte root (first + k) = none
  lookup : ∀ n < SLOTS, n < first ∨ first + count ≤ n → lookup s'.pte root n = lookup s.pte root n
  other : ∀ x, x ∉ Vm.nodes s.pte root → x ∉ freed → s'.pte x = s.pte x

theorem frames_succ (h : lookup m root first = some w) (count : Nat) :
    frames m root first (count + 1) = PTE2PA w :: frames m root (first + 1) count := by
  rw [frames, List.range'_succ, List.filterMap_cons_some (b := PTE2PA w) (by rw [h]; rfl)]
  rfl

theorem frames_congr {m' : Word → Nat → Word}
    (h : ∀ k < count, lookup m' root (first + k) = lookup m root (first + k)) :
    frames m' root first count = frames m root first count := by
  refine List.filterMap_congr fun n hn => ?_
  obtain ⟨k, hk, rfl⟩ := List.mem_range'.mp hn
  rw [Nat.one_mul, h k hk]

theorem mem_frames {k : Nat} (hk : k < count) (hw : lookup m root (first + k) = some w) :
    PTE2PA w ∈ frames m root first count := by
  refine List.mem_filterMap.mpr ⟨first + k, ?_, by rw [hw]; rfl⟩
  exact List.mem_range'.mpr ⟨k, hk, by rw [Nat.one_mul]⟩

theorem Leaves.cons (hfirst : first < PAGES) (hw : lookup m root first = some w)
    (hflags : PTE_FLAGS w ≠ PTE_V) (h : Leaves m root (first + 1) count) :
    Leaves m root first (count + 1) := by
  intro k hk
  cases k with
  | zero => exact ⟨hfirst, w, hw, hflags⟩
  | succ k =>
    have hk' := h k (Nat.lt_of_succ_lt_succ hk)
    rwa [Nat.add_assoc, Nat.add_comm 1 k] at hk'

theorem Unmapped.nil (h : Table s.pte root) (first : Nat) : Unmapped s s root first 0 [] :=
  ⟨h, rfl, rfl, nofun, fun _ _ _ => rfl, fun _ _ _ => rfl⟩

/-- One page, and then more. -/
theorem Unmapped.cons {s₂ s₃ : Mem} {freed freed' : List Word} (hfirst : first < PAGES)
    (h : Unmapped s s₂ root first 1 freed) (h' : Unmapped s₂ s₃ root (first + 1) count freed') :
    Unmapped s s₃ root first (count + 1) (freed ++ freed') := by
  refine ⟨h'.table, h'.nodes.trans h.nodes, ?_, fun k hk => ?_, fun n hn hout => ?_, fun x hx hfreed => ?_⟩
  · rw [h'.free, h.free, List.reverse_append, List.append_assoc]
  · cases k with
    | zero => exact (h'.lookup first (slot_lt hfirst) (.inl (Nat.lt_succ_self first))).trans (h.entry 0 Nat.one_pos)
    | succ k =>
      have hentry := h'.entry k (Nat.lt_of_succ_lt_succ hk)
      rwa [Nat.add_assoc, Nat.add_comm 1 k] at hentry
  · rw [h'.lookup n hn (by omega), h.lookup n hn (by omega)]
  · rw [List.mem_append, not_or] at hfreed
    rw [h'.other x (h.nodes ▸ hx) hfreed.2, h.other x hx hfreed.1]

theorem wp_kfree {Q : Unit → Mem → Prop} (h : Frame kend pa)
    (hQ : Q () { s.fill pa 0x0101010101010101 with freelist := pa :: s.freelist }) :
    wp (kfree kend pa) Q E s := by
  have haligned : pa % PGSIZE = 0 := BitVec.eq_of_toNat_eq h.aligned
  unfold kfree
  rw [if_neg]
  · exact hQ
  · rintro (hne | hlt | hge)
    · exact hne haligned
    · exact BitVec.not_lt.mpr h.lower hlt
    · exact BitVec.not_le.mpr h.upper hge

/-- The entry of a page is cleared, in a memory that is the same for the page table. -/
theorem Unmapped.one {s₁ : Mem} {x : Word} {freed : List Word} (h : Table s.pte root)
    (hn : n < SLOTS) (hx : leaf s.pte root n = some x)
    (hfreed : ∀ y ∈ freed, y ∉ Vm.nodes s.pte root) (hs₁ : ∀ y, y ∉ freed → s₁.pte y = s.pte y)
    (hfree : s₁.freelist = freed.reverse ++ s.freelist) :
    Unmapped s (s₁.store x (n % 512) 0) root n 1 freed := by
  have hsame : Same s.pte s₁.pte root := h.same fun y hy => hs₁ y fun hf => hfreed y hf hy
  have hst := hsame.table.store hn ((hsame.leaf n).trans hx) 0
  refine ⟨hst.table, hst.nodes.trans hsame.nodes, hfree, fun k hk => ?_, fun k hk hout => ?_, fun y hy hf => ?_⟩
  · rw [Nat.lt_one_iff.mp hk]
    exact hst.entry
  · exact (hst.lookup k hk (by omega)).trans (hsame.lookup k)
  · exact (hst.other y (hsame.nodes ▸ hy)).trans (hs₁ y hf)

/-- One turn of the loop. -/
theorem wp_unmapRound {Q : Unit → Mem → Prop} {stop : Word} {do_free : Bool} (h : Table s.pte root)
    (hstop : a < stop)
    (hframe : do_free = true → vpn a < PAGES → ∀ w, lookup s.pte root (vpn a) = some w →
      Frame kend (PTE2PA w) ∧ PTE2PA w ∉ nodes s.pte root)
    (hE : ¬ (vpn a < PAGES ∧ ∃ w, lookup s.pte root (vpn a) = some w ∧ PTE_FLAGS w ≠ PTE_V) → ∀ e, E e)
    (hnext : ∀ w s₂, a < MAXVA → lookup s.pte root (vpn a) = some w → PTE_FLAGS w ≠ PTE_V →
      Unmapped s s₂ root (vpn a) 1 (if do_free then [PTE2PA w] else []) →
      wp (uvmunmapLoop kend root stop do_free n (a + PGSIZE)) Q E s₂) :
    wp (uvmunmapLoop kend root stop do_free (n + 1) a) Q E s := by
  rw [uvmunmapLoop, if_pos hstop]
  by_cases hlt : a < MAXVA
  · have hva := vpn_lt hlt
    rw [wp, bind_of_ok (walk_false hlt), ← wp]
    cases hx : leaf s.pte root (vpn a) with
    | none =>
      refine hE ?_ _
      rintro ⟨-, w, hw, -⟩
      rw [lookup, hx] at hw
      cases hw
    | some x =>
      dsimp only [Option.map_some]
      rw [wp_bind, wp_get, wp_ite, wp_ite]
      refine ⟨fun hv => hE ?_ _, fun hv => ?_⟩
      · rintro ⟨-, w, hw, -⟩
        rw [lookup, hx, Option.bind_some, if_neg (by simpa using hv)] at hw
        cases hw
      have hw : lookup s.pte root (vpn a) = some (s.pte x (vpn a % 512)) :=
        Table.lookup_of_valid hx (by simpa using hv)
      refine ⟨fun hflags => hE ?_ _, fun hflags => ?_⟩
      · rintro ⟨-, w, hw', hne⟩
        exact hne (Option.some.inj (hw'.symm.trans hw) ▸ hflags)
      · cases do_free with
        | true =>
          obtain ⟨hframe, hnode⟩ := hframe rfl hva _ hw
          rw [if_pos rfl, wp_bind]
          refine wp_kfree hframe ?_
          rw [wp_bind, wp_modify]
          refine hnext _ _ hlt hw hflags (.one h (slot_lt hva) hx ?_ ?_ rfl)
          · intro y hy
            rw [List.mem_singleton.mp hy]
            exact hnode
          · intro y hy
            exact Function.update_of_ne (fun he => hy (List.mem_singleton.mpr he)) ..
        | false =>
          rw [if_neg (by decide), wp_bind, wp_modify]
          exact hnext _ _ hlt hw hflags
            (.one h (slot_lt hva) hx (fun _ hy => absurd hy List.not_mem_nil) (fun _ _ => rfl) rfl)
  · have hthrow : walk root a false = throw "walk" := if_pos (BitVec.not_lt.mp hlt)
    rw [hthrow]
    refine hE ?_ _
    rintro ⟨hva, -⟩
    exact hlt (vpn_lt_iff.mp hva)

attribute [local irreducible] uvmunmapLoop

theorem wp_uvmunmapLoop {stop : Word} {do_free : Bool} {fuel : Nat} (h : Table s.pte root)
    (hfuel : n ≤ fuel) (hstop : stop.toNat - a.toNat = n * 4096)
    (hframe : do_free = true → ∀ k < n, vpn a + k < PAGES → ∀ w, lookup s.pte root (vpn a + k) = some w →
      Frame kend (PTE2PA w) ∧ PTE2PA w ∉ nodes s.pte root)
    (hE : ¬ Leaves s.pte root (vpn a) n → ∀ e, E e) :
    wp (uvmunmapLoop kend root stop do_free fuel a) (fun _ s' => Leaves s.pte root (vpn a) n ∧
      Unmapped s s' root (vpn a) n (if do_free then frames s.pte root (vpn a) n else [])) E s := by
  induction n generalizing s a fuel with
  | zero =>
    have hge : ¬ a < stop := by
      rw [BitVec.lt_def]
      omega
    have hpure : uvmunmapLoop kend root stop do_free fuel a = pure () := by
      cases fuel <;> rw [uvmunmapLoop, if_neg hge]
    have hfrees : (if do_free then frames s.pte root (vpn a) 0 else []) = [] := ite_self _
    rw [hpure, hfrees]
    exact ⟨nofun, .nil h _⟩
  | succ n ih =>
    obtain ⟨fuel, rfl⟩ : ∃ f, fuel = f + 1 := ⟨fuel - 1, by omega⟩
    have hlt : a < stop := by
      rw [BitVec.lt_def]
      omega
    refine wp_unmapRound h hlt (fun hf hva w hw => hframe hf 0 n.succ_pos hva w hw)
      (fun hbad => hE fun hl => hbad (hl 0 n.succ_pos)) fun w s₂ hlt hw hflags hun => ?_
    have hnext := vpn_next hlt
    have hlookup : ∀ k, vpn a + 1 + k < PAGES →
        lookup s₂.pte root (vpn a + 1 + k) = lookup s.pte root (vpn a + (k + 1)) := by
      intro k hk
      rw [hun.lookup _ (slot_lt hk) (by omega), Nat.add_assoc, Nat.add_comm 1 k]
    refine (ih hun.table (Nat.le_of_succ_le_succ hfuel) ?_ ?_ ?_).mono ?_ fun _ he => he
    · rw [toNat_next hlt]
      omega
    · intro hf k hk hlt' w' hw'
      rw [hnext] at hlt' hw'
      rw [hun.nodes]
      exact hframe hf (k + 1) (Nat.succ_lt_succ hk) (by omega) w' (hlookup k hlt' ▸ hw')
    · intro hbad
      refine hE fun hl => hbad fun k hk => ?_
      obtain ⟨hlt', hleaf⟩ := hl (k + 1) (Nat.succ_lt_succ hk)
      rw [hnext, hlookup k (by omega)]
      exact ⟨by omega, hleaf⟩
    · rintro ⟨⟩ s₃ ⟨hl, hun'⟩
      rw [hnext] at hl hun'
      have hl' : Leaves s.pte root (vpn a + 1) n := by
        intro k hk
        obtain ⟨hlt', hleaf⟩ := hl k hk
        rw [hlookup k hlt', ← Nat.add_assoc, Nat.add_right_comm] at hleaf
        exact ⟨hlt', hleaf⟩
      have hframes : frames s₂.pte root (vpn a + 1) n = frames s.pte root (vpn a + 1) n :=
        frames_congr fun k hk => hun.lookup _ (slot_lt (hl k hk).1) (by omega)
      refine ⟨.cons (vpn_lt hlt) hw hflags hl', ?_⟩
      have hun₃ := hun.cons (vpn_lt hlt) hun'
      rw [hframes] at hun₃
      cases do_free with
      | true =>
        rw [if_pos rfl, frames_succ hw]
        exact hun₃
      | false => exact hun₃

/-- The number of pages that `uvmunmap` goes over: `npages`, unless the end of the range wraps around. -/
def unmapCount (va npages : Word) : Nat := ((va + npages * PGSIZE).toNat - va.toNat) / 4096

theorem unmapCount_of_le {npages : Word} (h : vpn va + npages.toNat ≤ PAGES) :
    unmapCount va npages = npages.toNat := by
  have hva : va.toNat / 4096 + npages.toNat ≤ 2 ^ 26 := h
  rw [unmapCount, BitVec.toNat_add, BitVec.toNat_mul, show PGSIZE.toNat = 4096 from rfl]
  omega

theorem wp_uvmunmap {npages : Word} {do_free : Bool} (h : Table s.pte root)
    (hframe : do_free = true → ∀ k < unmapCount va npages, vpn va + k < PAGES →
      ∀ w, lookup s.pte root (vpn va + k) = some w → Frame kend (PTE2PA w) ∧ PTE2PA w ∉ nodes s.pte root)
    (hE : ¬ (Aligned va ∧ Leaves s.pte root (vpn va) (unmapCount va npages)) → ∀ e, E e) :
    wp (uvmunmap kend root va npages do_free) (fun _ s' =>
      Leaves s.pte root (vpn va) (unmapCount va npages) ∧
        Unmapped s s' root (vpn va) (unmapCount va npages)
          (if do_free then frames s.pte root (vpn va) (unmapCount va npages) else [])) E s := by
  unfold uvmunmap
  rw [wp_ite, mod_PGSIZE]
  refine ⟨fun hne => hE (fun hok => hne hok.1) _, fun haligned => ?_⟩
  rw [not_not, Aligned] at haligned
  have hstop : (va + npages * PGSIZE).toNat % 4096 = 0 ∧
      (va + npages * PGSIZE).toNat ≤ va.toNat + npages.toNat * 4096 := by
    rw [BitVec.toNat_add, BitVec.toNat_mul, show PGSIZE.toNat = 4096 from rfl]
    omega
  refine wp_uvmunmapLoop h ?_ ?_ hframe fun hl => hE fun hok => hl hok.2
  · unfold unmapCount
    omega
  · unfold unmapCount
    omega

end Xv6.Vm
