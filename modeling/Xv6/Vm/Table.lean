import Mathlib.Data.Nat.Bitwise
import Xv6.Lib.Radix
import Xv6.Vm.PageTable

set_option autoImplicit false

/-! # What a page table says

The pages of a page table are a radix tree (`next`), and `lookup` is the map from page numbers to entries
that it stands for. `Table` says that the tree has no sharing and that the entries above the last level
lead to pages. `walk` adds pages to the tree, from the free list, and leaves the map alone (`wp_walk`);
a store to the entry it finds changes the map for one page number (`Table.store`). -/

namespace Xv6.Vm

open Wp Function

/-! ## Entries -/

theorem toNat_PA2PTE (pa : Word) : (PA2PTE pa).toNat = pa.toNat / 4096 * 1024 := by
  unfold PA2PTE
  rw [BitVec.toNat_shiftLeft, BitVec.toNat_ushiftRight, Nat.shiftRight_eq_div_pow, Nat.shiftLeft_eq,
    Nat.mod_eq_of_lt]
  have := pa.isLt
  omega

/-- The flags of an entry stand below the address. -/
theorem toNat_entry (pa : Word) {flags : Word} (h : flags.toNat < 1024) :
    (PA2PTE pa ||| flags).toNat = pa.toNat / 4096 * 1024 + flags.toNat := by
  have hor := Nat.shiftLeft_add_eq_or_of_lt (show flags.toNat < 2 ^ 10 from h) (pa.toNat / 4096)
  rw [Nat.shiftLeft_eq] at hor
  rw [BitVec.toNat_or, toNat_PA2PTE]
  exact hor.symm

theorem toNat_PTE2PA {pte : Word} (h : pte.toNat < 2 ^ 62) :
    (PTE2PA pte).toNat = pte.toNat / 1024 * 4096 := by
  unfold PTE2PA
  rw [BitVec.toNat_shiftLeft, BitVec.toNat_ushiftRight, Nat.shiftRight_eq_div_pow, Nat.shiftLeft_eq,
    Nat.mod_eq_of_lt]
  omega

theorem toNat_PTE_FLAGS (pte : Word) : (PTE_FLAGS pte).toNat = pte.toNat % 1024 := by
  unfold PTE_FLAGS
  rw [BitVec.toNat_and]
  exact Nat.and_two_pow_sub_one_eq_mod _ 10

/-- The address of a page. -/
def Aligned (pa : Word) : Prop := pa.toNat % 4096 = 0

instance (pa : Word) : Decidable (Aligned pa) := inferInstanceAs (Decidable (_ = _))

/-- An entry holds the address it was made from. -/
theorem PTE2PA_PA2PTE {pa flags : Word} (hpa : Aligned pa) (hflags : flags.toNat < 1024) :
    PTE2PA (PA2PTE pa ||| flags) = pa := by
  have hlt := pa.isLt
  have hentry := toNat_entry pa hflags
  unfold Aligned at hpa
  apply BitVec.eq_of_toNat_eq
  rw [toNat_PTE2PA (by omega), hentry]
  omega

theorem PTE_FLAGS_PA2PTE (pa : Word) {flags : Word} (hflags : flags.toNat < 1024) :
    PTE_FLAGS (PA2PTE pa ||| flags) = flags := by
  apply BitVec.eq_of_toNat_eq
  rw [toNat_PTE_FLAGS, toNat_entry pa hflags]
  omega

theorem valid_or (w : Word) : valid (w ||| PTE_V) = true := by
  have h : (w ||| PTE_V) &&& PTE_V = PTE_V := by
    ext i
    simp only [BitVec.getElem_and, BitVec.getElem_or]
    cases w[i] <;> simp
  rw [valid, h]
  rfl

theorem PX_eq (level : Nat) (va : Word) : PX level va = va.toNat / 2 ^ (12 + 9 * level) % 512 := by
  unfold PX
  rw [BitVec.toNat_and, BitVec.toNat_ushiftRight, Nat.shiftRight_eq_div_pow]
  exact Nat.and_two_pow_sub_one_eq_mod _ 9

/-! ## The map of a page table -/

/-- The number of the page that an address is in. -/
def vpn (va : Word) : Nat := va.toNat / 4096

/-- The number of pages below `MAXVA`. -/
def PAGES : Nat := 2 ^ 26

/-- The entries of the last level: a page table has room for twice the address space. -/
def SLOTS : Nat := 2 ^ 27

/-- The page that an entry leads to. -/
def next (m : Word → Nat → Word) (x : Word) (i : Nat) : Option Word :=
  if valid (m x i) then some (PTE2PA (m x i)) else none

/-- The indices of the entries of a page. -/
@[irreducible]
def entries : List Nat := List.range 512

/-- The pages of the page table. -/
def nodes (m : Word → Nat → Word) (root : Word) : List Word := Radix.nodes (next m) entries 2 root

/-- The indices that lead to the entry for the page number `n`. -/
def path (n : Nat) : List Nat := [n / 2 ^ 18 % 512, n / 2 ^ 9 % 512]

/-- The page with the entry for the page number `n`. -/
def leaf (m : Word → Nat → Word) (root : Word) (n : Nat) : Option Word :=
  Radix.follow (next m) root (path n)

/-- The entry for the page number `n`, if it is valid. -/
def lookup (m : Word → Nat → Word) (root : Word) (n : Nat) : Option Word :=
  (leaf m root n).bind fun x => if valid (m x (n % 512)) then some (m x (n % 512)) else none

theorem slot_lt {n : Nat} (h : n < PAGES) : n < SLOTS := Nat.lt_of_lt_of_le h (by decide)

theorem mem_entries {i : Nat} : i ∈ entries ↔ i < 512 := by
  unfold entries
  exact List.mem_range

theorem nodup_entries : entries.Nodup := by
  unfold entries
  exact List.nodup_range

theorem digit_mem (n : Nat) : n % 512 ∈ entries := mem_entries.mpr (Nat.mod_lt _ (by decide))

theorem path_subset (n : Nat) : path n ⊆ entries :=
  List.cons_subset.mpr ⟨digit_mem _, List.cons_subset.mpr ⟨digit_mem _, List.nil_subset _⟩⟩

theorem path_length (n : Nat) : (path n).length = 2 := rfl

theorem PX_two (va : Word) : PX 2 va = vpn va / 2 ^ 18 % 512 := by
  rw [PX_eq, vpn, Nat.div_div_eq_div_mul]
  rfl

theorem PX_one (va : Word) : PX 1 va = vpn va / 2 ^ 9 % 512 := by
  rw [PX_eq, vpn, Nat.div_div_eq_div_mul]
  rfl

theorem PX_zero (va : Word) : PX 0 va = vpn va % 512 := PX_eq 0 va

structure Table (m : Word → Nat → Word) (root : Word) : Prop where
  /-- No page is there twice. -/
  nodup : (nodes m root).Nodup
  /-- The entries above the last level have no other flag than `PTE_V`. -/
  inner : ∀ x ∈ Radix.nodes (next m) entries 1 root, ∀ i ∈ entries, valid (m x i) = true →
    PTE_FLAGS (m x i) = PTE_V

variable {m m' : Word → Nat → Word} {root : Word}

theorem mem_nodes_of_leaf {n : Nat} {x : Word} (h : leaf m root n = some x) : x ∈ nodes m root :=
  Radix.mem_nodes_of_follow (Nat.le_of_eq (path_length n)) (path_subset n) h

namespace Table

/-- Two page numbers with the same entry are the same. -/
theorem slot_inj (ht : Table m root) {n n' : Nat} {x : Word} (hn : n < SLOTS) (hn' : n' < SLOTS)
    (h : leaf m root n = some x) (h' : leaf m root n' = some x) (hi : n % 512 = n' % 512) : n = n' := by
  have hpath : path n = path n' := Radix.follow_inj ht.nodup (Nat.le_of_eq (path_length n))
    (Nat.le_of_eq (path_length n')) (path_subset n) (path_subset n') h h'
  have h2 := (List.cons.inj hpath).1
  have h1 := (List.cons.inj (List.cons.inj hpath).2).1
  unfold SLOTS at hn hn'
  omega

/-- A page of the last level is no other page. -/
theorem leaf_not_inner (ht : Table m root) {n : Nat} {x : Word} (h : leaf m root n = some x) :
    x ∉ Radix.nodes (next m) entries 1 root := by
  intro hx
  obtain ⟨p, hp, hsub, hfollow⟩ := Radix.mem_nodes_iff.mp hx
  have hpath := Radix.follow_inj ht.nodup (Nat.le_succ_of_le hp) (Nat.le_of_eq (path_length n)) hsub
    (path_subset n) hfollow h
  rw [hpath, path_length] at hp
  exact absurd hp (by decide)

/-- What is stored in the last level does not change the tree. -/
theorem congr (ht : Table m root)
    (h : ∀ x ∈ Radix.nodes (next m) entries 1 root, ∀ i ∈ entries, m' x i = m x i) :
    Table m' root ∧ nodes m' root = nodes m root ∧ ∀ n, leaf m' root n = leaf m root n := by
  have hnext : ∀ x ∈ Radix.nodes (next m) entries 1 root, ∀ i ∈ entries, next m' x i = next m x i := by
    intro x hx i hi
    rw [next, next, h x hx i hi]
  have hnodes : nodes m' root = nodes m root := Radix.nodes_congr hnext
  have hinner : Radix.nodes (next m') entries 1 root = Radix.nodes (next m) entries 1 root :=
    Radix.nodes_congr fun x hx => hnext x (Radix.mem_nodes_mono hx)
  refine ⟨⟨hnodes ▸ ht.nodup, ?_⟩, hnodes, fun n => ?_⟩
  · intro x hx i hi
    rw [hinner] at hx
    rw [h x hx i hi]
    exact ht.inner x hx i hi
  · exact Radix.follow_congr hnext (Nat.le_of_eq (path_length n)) (path_subset n)

end Table

/-- The page table says in `m'` what it says in `m`, with the same pages. -/
structure Same (m m' : Word → Nat → Word) (root : Word) : Prop where
  table : Table m' root
  nodes : nodes m' root = nodes m root
  leaf : ∀ n, leaf m' root n = leaf m root n
  lookup : ∀ n, lookup m' root n = lookup m root n

/-- What is stored in other pages does not matter. -/
theorem Table.same (ht : Table m root) (h : ∀ x ∈ nodes m root, m' x = m x) : Same m m' root := by
  obtain ⟨ht', hnodes, hleaf⟩ : Table m' root ∧ nodes m' root = nodes m root ∧
      ∀ n, leaf m' root n = leaf m root n :=
    ht.congr fun x hx i _ => by rw [h x (Radix.mem_nodes_mono hx)]
  refine ⟨ht', hnodes, hleaf, fun n => ?_⟩
  rw [lookup, lookup, hleaf]
  cases hx : Vm.leaf m root n with
  | none => rfl
  | some x => rw [Option.bind_some, Option.bind_some, h x (mem_nodes_of_leaf hx)]

/-! ## Storing an entry -/

variable {s : Mem}

/-- The entry for one page number is `w`, and all others are as before. -/
structure Stored (s s' : Mem) (root : Word) (n : Nat) (w : Word) : Prop where
  table : Table s'.pte root
  nodes : nodes s'.pte root = nodes s.pte root
  entry : lookup s'.pte root n = if valid w then some w else none
  lookup : ∀ k < SLOTS, k ≠ n → lookup s'.pte root k = lookup s.pte root k
  other : ∀ x, x ∉ Vm.nodes s.pte root → s'.pte x = s.pte x

theorem Table.store (ht : Table s.pte root) {n : Nat} {x : Word} (hn : n < SLOTS)
    (hx : leaf s.pte root n = some x) (w : Word) : Stored s (s.store x (n % 512) w) root n w := by
  generalize hs' : s.store x (n % 512) w = s'
  have hne : ∀ a, a ≠ x → s'.pte a = s.pte a := fun a ha =>
    hs' ▸ update_of_ne ha ..
  have hx' : s'.pte x = update (s.pte x) (n % 512) w := hs' ▸ update_self ..
  obtain ⟨ht', hnodes, hleaf⟩ : Table s'.pte root ∧ nodes s'.pte root = nodes s.pte root ∧
      ∀ n, leaf s'.pte root n = leaf s.pte root n :=
    ht.congr fun a ha i _ => by rw [hne a fun he => ht.leaf_not_inner hx (he ▸ ha)]
  refine ⟨ht', hnodes, ?_, fun k hk hkn => ?_, fun a ha => hne a fun he => ha (he ▸ mem_nodes_of_leaf hx)⟩
  · rw [lookup, hleaf, hx, Option.bind_some, hx', update_self]
  · rw [lookup, lookup, hleaf]
    cases hy : leaf s.pte root k with
    | none => rfl
    | some y =>
      -- the same page of the last level, or not
      by_cases hyx : y = x
      · have hki : k % 512 ≠ n % 512 := fun hi => hkn (ht.slot_inj hk hn (hyx ▸ hy) hx hi)
        rw [Option.bind_some, Option.bind_some, hyx, hx', update_of_ne hki]
      · rw [Option.bind_some, Option.bind_some, hne y hyx]

/-! ## Adding a page -/

theorem valid_zero : valid 0 = false := rfl

/-- A page of zeros is a page table that maps nothing. -/
structure Empty (m : Word → Nat → Word) (root : Word) : Prop where
  table : Table m root
  nodes : nodes m root = [root]
  lookup : ∀ n, lookup m root n = none

theorem empty_of_zero (h : ∀ i, m root i = 0) : Empty m root := by
  have hnext : ∀ i ∈ entries, next m root i = none := by
    intro i _
    rw [next, h, valid_zero]
    rfl
  have hnodes : ∀ d, Radix.nodes (next m) entries d root = [root] := fun d =>
    Radix.nodes_of_empty hnext
  refine ⟨⟨?_, fun x hx i hi hv => ?_⟩, hnodes 2, fun n => ?_⟩
  · rw [nodes, hnodes]
    exact List.nodup_singleton root
  · rw [hnodes, List.mem_singleton] at hx
    rw [hx, h, valid_zero] at hv
    cases hv
  · rw [lookup, leaf, path, Radix.follow, hnext _ (digit_mem _)]
    rfl

/-- `page` was cleared and entered as the entry `i` of `n`. -/
structure Hung (m m' : Word → Nat → Word) (page n : Word) (i : Nat) : Prop where
  aligned : Aligned page
  ne : n ≠ page
  before : valid (m n i) = false
  entry : m' n i = PA2PTE page ||| PTE_V
  rest : ∀ j, j ≠ i → m' n j = m n j
  empty : ∀ j, m' page j = 0
  same : ∀ x, x ≠ n → x ≠ page → m' x = m x

namespace Hung

variable {page n : Word} {i : Nat}

theorem graft (h : Hung m m' page n i) : Radix.Graft (next m) (next m') entries n i page := by
  refine ⟨?_, ?_, fun j _ => ?_, fun a j ha hnot => ?_⟩
  · rw [next, h.before]
    rfl
  · rw [next, h.entry, valid_or, PTE2PA_PA2PTE h.aligned (by decide)]
    rfl
  · rw [next, h.empty, valid_zero]
    rfl
  · by_cases han : a = n
    · rw [next, next, han, h.rest j fun he => hnot ⟨han, he⟩]
    · rw [next, next, h.same a han ha]

variable (h : Hung m m' page n i) (ht : Table m root) (hpage : page ∉ nodes m root)
  (hn : n ∈ Radix.nodes (next m) entries 1 root)
include h ht hpage hn

theorem inner : ∀ x ∈ Radix.nodes (next m') entries 1 root, ∀ j ∈ entries, valid (m' x j) = true →
    PTE_FLAGS (m' x j) = PTE_V := by
  intro x hx j hj hv
  obtain ⟨q, hq, hqsub, hx⟩ := Radix.mem_nodes_iff.mp hx
  by_cases hxp : x = page
  · rw [hxp, h.empty, valid_zero] at hv
    cases hv
  · have hx := (h.graft.follow_cases hpage (Nat.le_succ_of_le hq) hqsub hx).resolve_right hxp
    by_cases hxn : x = n
    · rw [hxn] at hv ⊢
      by_cases hji : j = i
      · rw [hji, h.entry]
        exact PTE_FLAGS_PA2PTE page (by decide)
      · rw [h.rest j hji] at hv ⊢
        exact ht.inner n hn j hj hv
    · rw [h.same x hxn hxp] at hv ⊢
      exact ht.inner x (Radix.mem_nodes_of_follow hq hqsub hx) j hj hv

/-- The new page is empty, so no page number has got an entry. -/
theorem lookup (k : Nat) : lookup m' root k = Vm.lookup m root k := by
  have hlen := Nat.le_of_eq (path_length k)
  rw [Vm.lookup, Vm.lookup]
  cases hx : leaf m root k with
  | some x =>
    have hx' : leaf m' root k = some x := h.graft.follow hpage hlen (path_subset k) hx
    have hxn : x ≠ n := fun he => ht.leaf_not_inner hx (he ▸ hn)
    have hxp : x ≠ page := fun he => hpage (he ▸ mem_nodes_of_leaf hx)
    rw [hx', Option.bind_some, Option.bind_some, h.same x hxn hxp]
  | none =>
    cases hx' : leaf m' root k with
    | none => rfl
    | some x =>
      rcases h.graft.follow_cases hpage hlen (path_subset k) hx' with hx'' | rfl
      · exact absurd (hx.symm.trans hx'') (by simp)
      · rw [Option.bind_some, h.empty, valid_zero]
        rfl

end Hung

/-- The page table has the page `page` more, which is empty. -/
structure Added (m m' : Word → Nat → Word) (root page : Word) : Prop where
  table : Table m' root
  nodes : (nodes m' root).Perm (page :: nodes m root)
  leaf : ∀ k x, leaf m root k = some x → leaf m' root k = some x
  lookup : ∀ k, lookup m' root k = lookup m root k
  other : ∀ x, x ∉ Vm.nodes m' root → m' x = m x

theorem Table.add (ht : Table m root) {page n : Word} {i : Nat} (h : Hung m m' page n i)
    (hpage : page ∉ nodes m root) (hn : n ∈ Radix.nodes (next m) entries 1 root) (hi : i ∈ entries) :
    Added m m' root page := by
  have hperm : (nodes m' root).Perm (page :: nodes m root) :=
    h.graft.nodes ht.nodup hpage hn nodup_entries hi
  refine ⟨⟨?_, h.inner ht hpage hn⟩, hperm, fun k x hx => ?_, h.lookup ht hpage hn, fun x hx => h.same x ?_ ?_⟩
  · exact hperm.nodup_iff.mpr (List.nodup_cons.mpr ⟨hpage, ht.nodup⟩)
  · exact h.graft.follow hpage (Nat.le_of_eq (path_length k)) (path_subset k) hx
  · exact fun he => hx (hperm.mem_iff.mpr (List.mem_cons_of_mem _ (he ▸ Radix.mem_nodes_mono hn)))
  · exact fun he => hx (hperm.mem_iff.mpr (he ▸ List.mem_cons_self))

/-! ## `walk` -/

/-- The page table has its pages to itself. -/
structure Ready (s : Mem) (root : Word) : Prop where
  table : Table s.pte root
  nodup : (nodes s.pte root ++ s.freelist).Nodup
  aligned : ∀ x ∈ s.freelist, Aligned x

/-- Pages of the free list have become pages of the page table, and it says what it said before. -/
structure Grown (s s' : Mem) (root : Word) : Prop where
  table : Table s'.pte root
  frames : (nodes s'.pte root ++ s'.freelist).Perm (nodes s.pte root ++ s.freelist)
  grows : nodes s.pte root ⊆ nodes s'.pte root
  free : s'.freelist <:+ s.freelist
  leaf : ∀ k x, leaf s.pte root k = some x → leaf s'.pte root k = some x
  lookup : ∀ k, lookup s'.pte root k = lookup s.pte root k
  other : ∀ x, x ∉ nodes s'.pte root → s'.pte x = s.pte x

namespace Grown

variable {s₁ s₂ s₃ : Mem}

theorem ready (hg : Grown s₁ s₂ root) (h : Ready s₁ root) : Ready s₂ root :=
  ⟨hg.table, hg.frames.nodup_iff.mpr h.nodup, fun x hx => h.aligned x (hg.free.subset hx)⟩

theorem refl (h : Table s.pte root) : Grown s s root :=
  ⟨h, .refl _, List.Subset.refl _, List.suffix_refl _, fun _ _ hx => hx, fun _ => rfl, fun _ _ => rfl⟩

theorem trans (h : Grown s₁ s₂ root) (h' : Grown s₂ s₃ root) : Grown s₁ s₃ root where
  table := h'.table
  frames := h'.frames.trans h.frames
  grows := List.Subset.trans h.grows h'.grows
  free := h'.free.trans h.free
  leaf k x hx := h'.leaf k x (h.leaf k x hx)
  lookup k := (h'.lookup k).trans (h.lookup k)
  other x hx := (h'.other x hx).trans (h.other x fun hx' => hx (h'.grows hx'))

end Grown

theorem wp_kalloc {Q : Option Word → Mem → Prop} {E : String → Prop}
    (hfail : Q none { s with fails := s.fails.tail })
    (hok : ∀ r rest, s.freelist = r :: rest →
      Q (some r) ({ s with freelist := rest, fails := s.fails.tail }.fill r 0x0505050505050505)) :
    wp kalloc Q E s := by
  unfold kalloc
  rw [wp_bind, wp_get]
  split
  · exact hfail
  · exact hfail
  · next r rest hfree _ => exact hok r rest hfree

theorem wp_walkLevel {alloc : Bool} {va n : Word} {level : Nat} {E : String → Prop} (p : List Nat)
    (h : Ready s root) (hp : p.length ≤ 1) (hpsub : p ⊆ entries)
    (hn : Radix.follow (next s.pte) root p = some n) (hlevel : PX level va ∈ entries) :
    wp (walkLevel alloc va n level) (fun r s' => Grown s s' root ∧
      ∀ y, r = some y → Radix.follow (next s'.pte) root (p ++ [PX level va]) = some y) E s := by
  unfold walkLevel
  rw [wp_bind, wp_get, wp_ite]
  refine ⟨fun hv => ⟨.refl h.table, ?_⟩, fun hv => ?_⟩
  · rintro y ⟨⟩
    refine Radix.follow_concat.mpr ⟨n, hn, ?_⟩
    rw [next, hv]
    rfl
  rw [wp_ite]
  refine ⟨fun _ => ⟨.refl h.table, nofun⟩, fun _ => ?_⟩
  rw [wp_bind]
  refine wp_kalloc ⟨⟨h.table, .refl _, List.Subset.refl _, List.suffix_refl _, fun _ _ hx => hx, fun _ => rfl,
    fun _ _ => rfl⟩, nofun⟩ ?_
  intro page rest hfree
  rw [wp_bind, wp_modify, wp_pure]
  have hnodup := h.nodup
  rw [hfree] at hnodup
  have hpage : page ∉ nodes s.pte root := fun hx =>
    (List.nodup_append.mp hnodup).2.2 page hx page List.mem_cons_self rfl
  have hinner : n ∈ Radix.nodes (next s.pte) entries 1 root := Radix.mem_nodes_of_follow hp hpsub hn
  have hne : n ≠ page := fun he => hpage (he ▸ Radix.mem_nodes_mono hinner)
  generalize hs' : (({ s with freelist := rest, fails := s.fails.tail }.fill page
    0x0505050505050505).fill page 0).store n (PX level va) (PA2PTE page ||| PTE_V) = s'
  have hfree' : s'.freelist = rest := by rw [← hs']; rfl
  have hhung : Hung s.pte s'.pte page n (PX level va) := by
    have hsn : s'.pte n = update (s.pte n) (PX level va) (PA2PTE page ||| PTE_V) := by
      rw [← hs']
      simp [update_of_ne hne]
    refine ⟨h.aligned page (hfree ▸ List.mem_cons_self), hne, by simpa using hv, ?_, fun j hj => ?_,
      fun j => ?_, fun x hxn hxp => ?_⟩
    · rw [hsn, update_self]
    · rw [hsn, update_of_ne hj]
    · rw [← hs']
      simp [update_of_ne (Ne.symm hne)]
    · rw [← hs']
      simp [update_of_ne hxn, update_of_ne hxp]
  have hadd := h.table.add hhung hpage hinner hlevel
  refine ⟨⟨hadd.table, ?_, fun x hx => ?_, ?_, hadd.leaf, hadd.lookup, hadd.other⟩, ?_⟩
  · rw [hfree', hfree]
    exact (hadd.nodes.append_right rest).trans List.perm_middle.symm
  · exact hadd.nodes.mem_iff.mpr (List.mem_cons_of_mem page hx)
  · rw [hfree', hfree]
    exact List.suffix_cons page rest
  · rintro y ⟨⟩
    refine Radix.follow_concat.mpr ⟨n, ?_, hhung.graft.slot'⟩
    exact hhung.graft.follow hpage (Nat.le_succ_of_le hp) hpsub hn

theorem wp_walk {alloc : Bool} {va : Word} {E : String → Prop} (h : Ready s root)
    (hE : va ≥ MAXVA → E "walk") :
    wp (walk root va alloc) (fun r s' => Grown s s' root ∧ va < MAXVA ∧
      ∀ x i, r = some (x, i) → leaf s'.pte root (vpn va) = some x ∧ i = vpn va % 512) E s := by
  unfold walk
  rw [wp_ite]
  refine ⟨hE, fun hva => ?_⟩
  have hlt : va < MAXVA := BitVec.not_le.mp hva
  have hdigit : ∀ level, PX level va ∈ entries := fun level => PX_eq level va ▸ digit_mem _
  rw [wp_bind]
  refine (wp_walkLevel [] h (Nat.zero_le 1) (List.nil_subset _) rfl (hdigit 2)).mono ?_ fun _ he => he
  rintro (_ | y) s₁ ⟨hg₁, hy⟩
  · exact ⟨hg₁, hlt, nofun⟩
  dsimp only
  rw [wp_bind]
  have hsub : [PX 2 va] ⊆ entries := List.cons_subset.mpr ⟨hdigit 2, List.nil_subset _⟩
  refine (wp_walkLevel [PX 2 va] (hg₁.ready h) (Nat.le_refl 1) hsub (hy y rfl) (hdigit 1)).mono ?_ fun _ he => he
  rintro (_ | x) s₂ ⟨hg₂, hx⟩
  · exact ⟨hg₁.trans hg₂, hlt, nofun⟩
  refine ⟨hg₁.trans hg₂, hlt, ?_⟩
  rintro x' i ⟨⟩
  refine ⟨?_, PX_zero va⟩
  have hleaf := hx x rfl
  rwa [List.cons_append, List.nil_append, PX_two, PX_one] at hleaf

theorem walkLevel_false (va n : Word) (level : Nat) :
    walkLevel false va n level s = .ok (next s.pte n (PX level va), s) := by
  apply wp.eq_ok
  unfold walkLevel
  rw [wp_bind, wp_get, wp_ite]
  refine ⟨fun hv => ⟨?_, rfl⟩, fun hv => ⟨?_, rfl⟩⟩
  · rw [next, if_pos hv]
  · rw [next, if_neg hv]

/-- Without `alloc`, `walk` finds the entry, or else nothing. -/
theorem walk_false {va : Word} (h : va < MAXVA) :
    walk root va false s = .ok ((leaf s.pte root (vpn va)).map fun x => (x, vpn va % 512), s) := by
  have hleaf : leaf s.pte root (vpn va) = (next s.pte root (PX 2 va)).bind fun y => next s.pte y (PX 1 va) := by
    rw [leaf, path, ← PX_two, ← PX_one]
    simp only [Radix.follow, Option.bind_fun_some]
  unfold walk
  rw [if_neg (BitVec.not_le.mpr h), bind_of_ok (walkLevel_false ..), hleaf]
  cases next s.pte root (PX 2 va) with
  | none => rfl
  | some y =>
    dsimp only
    rw [bind_of_ok (walkLevel_false ..), Option.bind_some, PX_zero]
    cases next s.pte y (PX 1 va) with
    | none => rfl
    | some x => rfl

end Xv6.Vm
