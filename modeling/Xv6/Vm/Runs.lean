import Mathlib.Data.List.Perm.Subperm
import Xv6.Lib.Machine
import Xv6.Vm.Mappings

set_option autoImplicit false

/-! # A page table in use

A page table is built from an empty root by any sequence of `walk`, `mappages` and `uvmunmap`, while
other parts of the kernel take pages from the allocator, write to them and give them back. In every
state that is reached the page table stands for a finite map (`Refines`). -/

namespace Xv6.Vm

open Wp Machine

structure State where
  mem : Mem
  /-- The pages that others have from the allocator. -/
  out : List Word

inductive Event where
  | walk (va : Word) (alloc : Bool)
  | mappages (va size pa perm : Word)
  | uvmunmap (va npages : Word) (do_free : Bool)
  | kalloc
  | kfree (pa : Word)
  | write (page : Word) (i : Nat) (w : Word)

/-- The mapped pages of the range, each mapped once, are pages that others have from the allocator. -/
def Owned (root : Word) (s : State) (va npages : Word) : Prop :=
  (frames s.mem.pte root (vpn va) (unmapCount va npages)).Nodup ∧
    frames s.mem.pte root (vpn va) (unmapCount va npages) ⊆ s.out

instance (root : Word) (s : State) (va npages : Word) : Decidable (Owned root s va npages) :=
  inferInstanceAs (Decidable (_ ∧ _))

/-- The outcome of a call. -/
def after {α : Type} (f : α → Mem → State) : Except String (α × Mem) → Outcome String State
  | .ok (a, mem) => .next (f a mem)
  | .error e => .panic e

/-- Others free and write only what is theirs, and have `uvmunmap` free only what is theirs. -/
def step (kend root : Word) (s : State) : Event → Outcome String State
  | .walk va alloc => after (fun _ mem => ⟨mem, s.out⟩) (walk root va alloc s.mem)
  | .mappages va size pa perm => after (fun _ mem => ⟨mem, s.out⟩) (mappages root va size pa perm s.mem)
  | .uvmunmap va npages do_free =>
    .guard (do_free = true → Owned root s va npages)
      (after (fun _ mem => ⟨mem, if do_free then
          s.out.diff (frames s.mem.pte root (vpn va) (unmapCount va npages)) else s.out⟩)
        (uvmunmap kend root va npages do_free s.mem))
  | .kalloc => after (fun r mem => ⟨mem, r.toList ++ s.out⟩) (kalloc s.mem)
  | .kfree pa => .guard (pa ∈ s.out) (after (fun _ mem => ⟨mem, s.out.erase pa⟩) (kfree kend pa s.mem))
  | .write page i w => .guard (page ∈ s.out) (.next ⟨s.mem.store page i w, s.out⟩)

/-- An empty root, and pages that are all different. -/
structure Start (kend root : Word) extends State where
  empty : ∀ i, mem.pte root i = 0
  nodup : (root :: (mem.freelist ++ out)).Nodup
  frame : ∀ x ∈ mem.freelist ++ out, Frame kend x

/-! ## The map, in terms of `walk` -/

/-- The entry that `walk` finds for an address, if it is valid. -/
def mapping (root : Word) (m : Mem) (va : Word) : Option Word :=
  match walk root va false m with
  | .ok (some (x, i), _) => if valid (m.pte x i) then some (m.pte x i) else none
  | _ => none

/-- The pages from `va` on, `count` of them, are mapped as `f` says, and all others as before. -/
structure Updated (root : Word) (m m' : Mem) (va : Word) (count : Nat) (f : Nat → Option Word) : Prop where
  inside : ∀ k < count, page va k < MAXVA
  mapping : ∀ k < count, mapping root m' (page va k) = f k
  other : ∀ va' < MAXVA, (∀ k < count, vpn va' ≠ vpn (page va k)) → Vm.mapping root m' va' = Vm.mapping root m va'

/-- The page table is a tree that behaves as a finite map. -/
structure Refines (kend root : Word) (s : State) : Prop where
  /-- No node is shared. -/
  tree : (nodes s.mem.pte root).Nodup
  /-- Valid entries of the two upper levels have no other flag. -/
  interior : ∀ x ∈ Radix.nodes (next s.mem.pte) entries 1 root, ∀ i < 512, valid (s.mem.pte x i) = true →
    PTE_FLAGS (s.mem.pte x i) = PTE_V
  /-- Different pages have different entries. -/
  slots : ∀ va va' alloc alloc' p p' m m', walk root va alloc s.mem = .ok (some p, m) →
    walk root va' alloc' m = .ok (some p', m') → vpn va ≠ vpn va' → p ≠ p'
  mappages : ∀ va size pa perm b m, mappages root va size pa perm s.mem = .ok (b, m) →
    ∃ count, (if b then count = size.toNat / 4096 else count < size.toNat / 4096) ∧
      Updated root s.mem m va count fun k => some (PA2PTE (page pa k) ||| perm ||| PTE_V)
  uvmunmap : ∀ va npages do_free, Aligned va → va.toNat + npages.toNat * 4096 ≤ MAXVA.toNat →
    (∀ k < npages.toNat, ∃ w, mapping root s.mem (page va k) = some w ∧ PTE_FLAGS w ≠ PTE_V) →
    (do_free = true → Owned root s va npages) →
    ∃ m, uvmunmap kend root va npages do_free s.mem = .ok ((), m) ∧
      Updated root s.mem m va npages.toNat fun _ => none

variable {root : Word} {m m' : Mem}

theorem mapping_eq {va : Word} (h : va < MAXVA) : mapping root m va = lookup m.pte root (vpn va) := by
  rw [mapping, walk_false h, lookup]
  cases leaf m.pte root (vpn va) with
  | none | some => rfl

theorem vpn_page {va : Word} {k : Nat} (h : vpn va + k < PAGES) : vpn (page va k) = vpn va + k := by
  have hva : va.toNat / 4096 + k < 2 ^ 26 := h
  rw [page, vpn, vpn, BitVec.toNat_add, BitVec.toNat_ofNat]
  omega

/-- A change of the map, as a change for addresses. -/
theorem updated_of_lookup {va : Word} {count : Nat} {f : Nat → Option Word}
    (hinside : ∀ k < count, vpn va + k < PAGES)
    (hentry : ∀ k < count, lookup m'.pte root (vpn va + k) = f k)
    (hother : ∀ n < PAGES, n < vpn va ∨ vpn va + count ≤ n → lookup m'.pte root n = lookup m.pte root n) :
    Updated root m m' va count f := by
  have hlt : ∀ k < count, page va k < MAXVA := by
    intro k hk
    rw [← vpn_lt_iff, vpn_page (hinside k hk)]
    exact hinside k hk
  refine ⟨hlt, fun k hk => ?_, fun va' hva' hne => ?_⟩
  · rw [mapping_eq (hlt k hk), vpn_page (hinside k hk)]
    exact hentry k hk
  · rw [mapping_eq hva', mapping_eq hva']
    refine hother _ (vpn_lt hva') (Nat.lt_or_ge _ _ |>.imp_right fun hge => ?_)
    -- otherwise it is one of the pages of the range
    refine Nat.le_of_not_lt fun hlt' => ?_
    have hk : vpn va' - vpn va < count := by omega
    refine hne _ hk ?_
    rw [vpn_page (hinside _ hk)]
    omega

/-! ## What holds in every state -/

/-- The page table, the free list and the others have different pages. -/
structure Inv (kend root : Word) (s : State) : Prop where
  table : Table s.mem.pte root
  nodup : (nodes s.mem.pte root ++ (s.mem.freelist ++ s.out)).Nodup
  frame : ∀ x ∈ s.mem.freelist ++ s.out, Frame kend x

variable {kend : Word} {s s' : State}

theorem wp.of_after {α : Type} {x : M α} {f : α → Mem → State} {Q : α → Mem → Prop}
    (h : wp x Q (fun _ => True) m) (hs' : after f (x m) = .next s') : ∃ a mem, Q a mem ∧ f a mem = s' := by
  cases hx : x m with
  | error e =>
    rw [hx] at hs'
    cases hs'
  | ok p =>
    rw [hx] at hs'
    exact ⟨p.1, p.2, h.of_ok hx, Outcome.next.inj hs'⟩

namespace Inv

theorem ready (h : Inv kend root s) : Ready s.mem root := by
  have hnodup := h.nodup
  rw [← List.append_assoc] at hnodup
  exact ⟨h.table, hnodup.of_append_left, fun x hx => (h.frame x (List.mem_append_left _ hx)).aligned⟩

/-- The pages of the others are not pages of the page table. -/
theorem not_node (h : Inv kend root s) {x : Word} (hx : x ∈ s.mem.freelist ++ s.out) :
    x ∉ nodes s.mem.pte root := fun hn =>
  (List.nodup_append.mp h.nodup).2.2 x hn x hx rfl

/-- Pages went from the free list to the page table. -/
theorem grown (h : Inv kend root s) (ht : Table m.pte root)
    (hframes : (nodes m.pte root ++ m.freelist).Perm (nodes s.mem.pte root ++ s.mem.freelist))
    (hfree : m.freelist <:+ s.mem.freelist) : Inv kend root ⟨m, s.out⟩ := by
  refine ⟨ht, ?_, fun x hx => h.frame x ?_⟩
  · have hperm := hframes.append_right s.out
    rw [List.append_assoc, List.append_assoc] at hperm
    exact hperm.nodup_iff.mpr h.nodup
  · exact (List.append_subset.mpr ⟨List.Subset.trans hfree.subset (List.subset_append_left ..),
      List.subset_append_right ..⟩) hx

/-- Pages went from the free list to the others, or back. -/
theorem moved (h : Inv kend root s) (hnodes : nodes s'.mem.pte root = nodes s.mem.pte root)
    (ht : Table s'.mem.pte root) (hperm : (s'.mem.freelist ++ s'.out).Perm (s.mem.freelist ++ s.out)) :
    Inv kend root s' := by
  refine ⟨ht, ?_, fun x hx => h.frame x (hperm.mem_iff.mp hx)⟩
  rw [hnodes]
  exact (hperm.append_left _).nodup_iff.mpr h.nodup

end Inv

theorem step_walk {va : Word} {alloc : Bool} (h : Inv kend root s)
    (hs' : step kend root s (.walk va alloc) = .next s') : Inv kend root s' := by
  obtain ⟨r, m, ⟨hg, -⟩, rfl⟩ := wp.of_after (wp_walk h.ready fun _ => trivial) hs'
  exact h.grown hg.table hg.frames hg.free

theorem step_mappages {va size pa perm : Word} (h : Inv kend root s)
    (hs' : step kend root s (.mappages va size pa perm) = .next s') : Inv kend root s' := by
  obtain ⟨b, m, ⟨count, -, hm⟩, rfl⟩ := wp.of_after (wp_mappages_any h.ready) hs'
  exact h.grown hm.ready.table hm.frames hm.free

theorem Inv.wp_uvmunmap {E : String → Prop} {va npages : Word} {do_free : Bool} (h : Inv kend root s)
    (howned : do_free = true → Owned root s va npages)
    (hE : ¬ (Aligned va ∧ Leaves s.mem.pte root (vpn va) (unmapCount va npages)) → ∀ e, E e) :
    wp (uvmunmap kend root va npages do_free) (fun _ m =>
      Leaves s.mem.pte root (vpn va) (unmapCount va npages) ∧
        Unmapped s.mem m root (vpn va) (unmapCount va npages)
          (if do_free then frames s.mem.pte root (vpn va) (unmapCount va npages) else [])) E s.mem := by
  refine Vm.wp_uvmunmap h.table (fun hf k hk _ w hw => ?_) hE
  have hout : PTE2PA w ∈ s.mem.freelist ++ s.out :=
    List.mem_append_right _ ((howned hf).2 (mem_frames hk hw))
  exact ⟨h.frame _ hout, h.not_node hout⟩

theorem step_uvmunmap {va npages : Word} {do_free : Bool} (h : Inv kend root s)
    (hs' : step kend root s (.uvmunmap va npages do_free) = .next s') : Inv kend root s' := by
  obtain ⟨howned, hs'⟩ := Outcome.guard_eq_next.mp hs'
  obtain ⟨⟨⟩, m, ⟨-, hun⟩, rfl⟩ := wp.of_after (h.wp_uvmunmap howned fun _ _ => trivial) hs'
  refine h.moved hun.nodes hun.table ?_
  cases do_free with
  | false => exact List.Perm.of_eq (congrArg (· ++ s.out) hun.free)
  | true =>
    obtain ⟨hnodup, hsub⟩ := howned rfl
    have hcount : ∀ x ∈ frames s.mem.pte root (vpn va) (unmapCount va npages),
        List.count x (frames s.mem.pte root (vpn va) (unmapCount va npages)) ≤ List.count x s.out :=
      fun x _ => (hnodup.subperm hsub).count_le x
    have hfree : m.freelist ++ s.out.diff (frames s.mem.pte root (vpn va) (unmapCount va npages)) =
        (frames s.mem.pte root (vpn va) (unmapCount va npages)).reverse ++ (s.mem.freelist ++
          s.out.diff (frames s.mem.pte root (vpn va) (unmapCount va npages))) := by
      rw [hun.free, if_pos rfl, List.append_assoc]
    refine (List.Perm.of_eq hfree).trans (List.perm_append_comm_assoc _ _ _ |>.trans ?_)
    refine .append_left _ (.trans ?_ (List.subperm_append_diff_self_of_count_le hcount))
    exact (List.reverse_perm _).append_right _

/-- The pages of the page table are not touched. -/
theorem Inv.kept (h : Inv kend root s) (hm : ∀ x, x ∉ nodes s.mem.pte root ∨ s'.mem.pte x = s.mem.pte x)
    (hperm : (s'.mem.freelist ++ s'.out).Perm (s.mem.freelist ++ s.out)) : Inv kend root s' := by
  have hsame : Same s.mem.pte s'.mem.pte root :=
    h.table.same fun x hx => (hm x).resolve_left fun hn => hn hx
  exact h.moved hsame.nodes hsame.table hperm

theorem update_or {m : Word → Nat → Word} {x : Word} (f : Nat → Word) (hx : x ∉ nodes m root) (y : Word) :
    y ∉ nodes m root ∨ Function.update m x f y = m y := by
  by_cases hy : y = x
  · exact .inl (hy ▸ hx)
  · exact .inr (Function.update_of_ne hy ..)

theorem step_kalloc (h : Inv kend root s) (hs' : step kend root s .kalloc = .next s') : Inv kend root s' := by
  have hspec : wp kalloc (fun r m => Inv kend root ⟨m, r.toList ++ s.out⟩) (fun _ => True) s.mem := by
    refine wp_kalloc (h.kept (fun _ => .inr rfl) (.refl _)) fun r rest hfree => ?_
    refine h.kept (update_or _ (h.not_node ?_)) ?_
    · exact List.mem_append_left _ (hfree ▸ List.mem_cons_self)
    · rw [hfree]
      exact List.perm_middle
  obtain ⟨r, m, hinv, rfl⟩ := wp.of_after hspec hs'
  exact hinv

theorem step_kfree {pa : Word} (h : Inv kend root s)
    (hs' : step kend root s (.kfree pa) = .next s') : Inv kend root s' := by
  obtain ⟨hpa, hs'⟩ := Outcome.guard_eq_next.mp hs'
  have hmem : pa ∈ s.mem.freelist ++ s.out := List.mem_append_right _ hpa
  have hspec : wp (kfree kend pa) (fun _ m => Inv kend root ⟨m, s.out.erase pa⟩) (fun _ => True) s.mem := by
    refine wp_kfree (h.frame pa hmem) (h.kept (update_or _ (h.not_node hmem)) ?_)
    exact List.perm_middle.symm.trans ((List.perm_cons_erase hpa).symm.append_left _)
  obtain ⟨⟨⟩, m, hinv, rfl⟩ := wp.of_after hspec hs'
  exact hinv

theorem step_write {x : Word} {i : Nat} {w : Word} (h : Inv kend root s)
    (hs' : step kend root s (.write x i w) = .next s') : Inv kend root s' := by
  obtain ⟨hx, hs'⟩ := Outcome.guard_eq_next.mp hs'
  obtain rfl := Outcome.next.inj hs'
  exact h.kept (update_or _ (h.not_node (List.mem_append_right _ hx))) (.refl _)

theorem step_keeps (e : Event) (h : Inv kend root s) (hs' : step kend root s e = .next s') :
    Inv kend root s' := by
  cases e with
  | walk va alloc => exact step_walk h hs'
  | mappages va size pa perm => exact step_mappages h hs'
  | uvmunmap va npages do_free => exact step_uvmunmap h hs'
  | kalloc => exact step_kalloc h hs'
  | kfree pa => exact step_kfree h hs'
  | write x i w => exact step_write h hs'

theorem Start.inv (start : Start kend root) : Inv kend root start.toState := by
  have hempty := empty_of_zero start.empty
  refine ⟨hempty.table, ?_, start.frame⟩
  rw [hempty.nodes]
  exact start.nodup

theorem Inv.slots (h : Inv kend root s) {va va' : Word} {alloc alloc' : Bool} {p p' : Word × Nat} {m m' : Mem}
    (hp : walk root va alloc s.mem = .ok (some p, m)) (hp' : walk root va' alloc' m = .ok (some p', m'))
    (hne : vpn va ≠ vpn va') : p ≠ p' := by
  rintro rfl
  obtain ⟨hg, hlt, hleaf⟩ := (wp_walk (E := fun _ => True) h.ready fun _ => trivial).of_ok hp
  obtain ⟨hg', hlt', hleaf'⟩ := (wp_walk (E := fun _ => True) (hg.ready h.ready) fun _ => trivial).of_ok hp'
  obtain ⟨hx, hi⟩ := hleaf p.1 p.2 rfl
  obtain ⟨hx', hi'⟩ := hleaf' p.1 p.2 rfl
  exact hne (hg'.table.slot_inj (slot_lt (vpn_lt hlt)) (slot_lt (vpn_lt hlt')) (hg'.leaf _ _ hx) hx' (hi.symm.trans hi'))

theorem Inv.unmaps (h : Inv kend root s) {va npages : Word} {do_free : Bool} (haligned : Aligned va)
    (hinside : va.toNat + npages.toNat * 4096 ≤ MAXVA.toNat)
    (hmapped : ∀ k < npages.toNat, ∃ w, mapping root s.mem (page va k) = some w ∧ PTE_FLAGS w ≠ PTE_V)
    (howned : do_free = true → Owned root s va npages) :
    ∃ m, uvmunmap kend root va npages do_free s.mem = .ok ((), m) ∧
      Updated root s.mem m va npages.toNat fun _ => none := by
  have hle : vpn va + npages.toNat ≤ PAGES := by
    have hmax : MAXVA.toNat = 2 ^ 38 := rfl
    unfold vpn PAGES
    omega
  have hcount := unmapCount_of_le hle
  have hlt : ∀ k < npages.toNat, vpn va + k < PAGES := fun k hk => by omega
  have hleaves : Leaves s.mem.pte root (vpn va) (unmapCount va npages) := by
    intro k hk
    rw [hcount] at hk
    obtain ⟨w, hw, hflags⟩ := hmapped k hk
    rw [mapping_eq (by rw [← vpn_lt_iff, vpn_page (hlt k hk)]; exact hlt k hk), vpn_page (hlt k hk)] at hw
    exact ⟨hlt k hk, w, hw, hflags⟩
  have hspec := h.wp_uvmunmap (E := fun _ => False) howned fun hbad => (hbad ⟨haligned, hleaves⟩).elim
  obtain ⟨⟨⟩, m, hm, -, hun⟩ := hspec.exists_ok
  rw [hcount] at hun
  exact ⟨m, hm, updated_of_lookup hlt hun.entry fun n hn => hun.lookup n (slot_lt hn)⟩

theorem Inv.refines (h : Inv kend root s) : Refines kend root s where
  tree := h.table.nodup
  interior x hx i hi := h.table.inner x hx i (mem_entries.mpr hi)
  slots va va' alloc alloc' p p' m m' := h.slots
  mappages va size pa perm b m hm := by
    obtain ⟨count, hcount, hmap⟩ := (wp_mappages_any h.ready).of_ok hm
    exact ⟨count, hcount, updated_of_lookup hmap.inside hmap.entry fun n hn => hmap.lookup n (slot_lt hn)⟩
  uvmunmap va npages do_free := h.unmaps

/-- In every run from an empty root, whatever fails, the page table behaves as a finite map, whose
entries hold the addresses and the flags they were made from. -/
theorem page_table_refines_map (start : Start kend root) (es : List Event)
    (hs : run (step kend root) start.toState es = .next s) :
    Refines kend root s ∧ ∀ pa flags, Aligned pa → flags.toNat < 1024 →
      PTE2PA (PA2PTE pa ||| flags) = pa ∧ PTE_FLAGS (PA2PTE pa ||| flags) = flags := by
  have hinv : Inv kend root s := run_keeps (Inv kend root) (fun _ e _ h hs' => step_keeps e h hs') es start.inv hs
  exact ⟨hinv.refines, fun pa flags hpa hflags => ⟨PTE2PA_PA2PTE hpa hflags, PTE_FLAGS_PA2PTE pa hflags⟩⟩

/-- Five pages for the allocator. -/
def smallFree : List Word := [0x80002000, 0x80003000, 0x80004000, 0x80005000, 0x80006000]

theorem smallFree_frame : ∀ x ∈ smallFree ++ [], Frame 0x80000000 x := by
  have hall : (smallFree ++ []).all (fun x => Frame 0x80000000 x) = true := by decide +kernel
  exact fun x hx => of_decide_eq_true (List.all_eq_true.mp hall x hx)

theorem smallFree_nodup : (0x80001000 :: (smallFree ++ [])).Nodup := by decide +kernel

def small : Start 0x80000000 0x80001000 where
  mem := ⟨fun _ _ => 0, smallFree, []⟩
  out := []
  empty _ := rfl
  nodup := smallFree_nodup
  frame := smallFree_frame

/-- A page of the kernel is mapped, then a page from the allocator, which is freed. -/
def smallRun : List Event :=
  [.kalloc, .mappages 0x3ffffff000 0x1000 0x80000000 (PTE_R ||| PTE_X), .mappages 0 0x1000 0x80002000 PTE_R,
    .uvmunmap 0 1 true]

theorem page_table_refines_map_smallRun : ∃ s, run (step 0x80000000 0x80001000) small.toState smallRun = .next s ∧
    s.mem.freelist = [0x80002000] ∧ mapping 0x80001000 s.mem 0x3ffffff000 = some 0x2000000b ∧
      Refines 0x80000000 0x80001000 s ∧ ∀ pa flags, Aligned pa → flags.toNat < 1024 →
        PTE2PA (PA2PTE pa ||| flags) = pa ∧ PTE_FLAGS (PA2PTE pa ||| flags) = flags := by
  have hany : (run (step 0x80000000 0x80001000) small.toState smallRun).any (fun s =>
      s.mem.freelist = [0x80002000] ∧ mapping 0x80001000 s.mem 0x3ffffff000 = some 0x2000000b) = true := by
    decide +kernel
  obtain ⟨s, hs, hsays⟩ := Outcome.exists_of_any hany
  obtain ⟨hfree, hmapping⟩ := of_decide_eq_true hsays
  exact ⟨s, hs, hfree, hmapping, page_table_refines_map small smallRun hs⟩

/-- A page that is mapped without permissions cannot be unmapped. -/
theorem unmap_panics_without_permissions :
    (∃ s, run (step 0x80000000 0x80001000) small.toState [.mappages 0 0x1000 0x80005000 0] = .next s ∧
      mapping 0x80001000 s.mem 0 = some (PA2PTE 0x80005000 ||| PTE_V)) ∧
    run (step 0x80000000 0x80001000) small.toState [.mappages 0 0x1000 0x80005000 0, .uvmunmap 0 1 false] =
      .panic "uvmunmap: not a leaf" := by
  have hany : (run (step 0x80000000 0x80001000) small.toState [.mappages 0 0x1000 0x80005000 0]).any (fun s =>
      mapping 0x80001000 s.mem 0 = some (PA2PTE 0x80005000 ||| PTE_V)) = true := by decide +kernel
  obtain ⟨s, hs, hmapping⟩ := Outcome.exists_of_any hany
  exact ⟨⟨s, hs, of_decide_eq_true hmapping⟩, Outcome.eq_panic_of_reason (by decide +kernel)⟩

end Xv6.Vm
