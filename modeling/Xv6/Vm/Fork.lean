import Xv6.Vm.Lifetime

set_option autoImplicit false

/-! # Copying an address space

`uvmcopy` of `kernel/vm.c` gives the child of `fork` a copy of every page of the parent, or undoes what
it has done when memory runs out. The two address spaces share the free list and nothing else, so the
parent is not touched by what happens to the child. -/

namespace Xv6.Vm

open Wp Footprint Function

variable (kend : Word)

/-- What `goto err` leads to. -/
def uvmcopyErr (new i : Word) : M Bool := do
  uvmunmap kend new 0 (i / PGSIZE) true
  return false

/-- The loop of `uvmcopy`, with at most `fuel` turns. -/
def uvmcopyLoop (old new sz : Word) : Nat → Word → M Bool
  | 0, _ => throw "uvmcopy: no end"
  | fuel + 1, i => do
    if i < sz then
      match ← walk old i false with
      | none => throw "uvmcopy: pte should exist"
      | some (page, j) =>
        let pte := (← get).pte page j
        if !valid pte then throw "uvmcopy: page not present"
        else
          match ← kalloc with
          | none => uvmcopyErr kend new i
          | some mem =>
            modify fun s => { s with pte := update s.pte mem (s.pte (PTE2PA pte)) }
            if ← mappages new i PGSIZE mem (PTE_FLAGS pte) then
              uvmcopyLoop old new sz fuel (i + PGSIZE)
            else
              kfree kend mem
              uvmcopyErr kend new i
    else return true

/-- Copy the memory of `old` into `new`; `true` is 0, `false` is -1. -/
def uvmcopy (old new sz : Word) : M Bool := do
  let s ← get
  uvmcopyLoop kend old new sz (s.freelist.length + 1) 0

variable {kend} {m : Word → Nat → Word} {s s₀ s' : Mem} {old new root : Word} {n : Nat}
  {extra extra' : Nat → Option Word} {E : String → Prop}

theorem lookup_entry {w : Word} (h : lookup m root n = some w) :
    ∃ x, leaf m root n = some x ∧ m x (n % 512) = w ∧ valid w = true := by
  obtain ⟨x, hx, hw⟩ := Option.bind_eq_some_iff.1 h
  split at hw
  · next hv =>
      cases hw
      exact ⟨x, hx, rfl, hv⟩
  · cases hw

theorem PTE_FLAGS_valid {w : Word} (h : valid w = true) : PTE_FLAGS w ||| PTE_V = PTE_FLAGS w := by
  have hand : (w &&& PTE_V).toNat = w.toNat % 2 := by
    rw [BitVec.toNat_and]
    exact Nat.and_one_is_mod _
  have hbit : w &&& PTE_V = PTE_V := by
    have hne : w &&& PTE_V ≠ 0 := bne_iff_ne.mp h
    apply BitVec.eq_of_toNat_eq
    have hne : (w &&& PTE_V).toNat ≠ 0 := fun he => hne (BitVec.eq_of_toNat_eq he)
    show (w &&& PTE_V).toNat = 1
    omega
  calc PTE_FLAGS w ||| PTE_V = w &&& 0x3FF ||| w &&& PTE_V := by rw [hbit]; rfl
    _ = w &&& (0x3FF ||| PTE_V) := BitVec.and_or_distrib_left.symm
    _ = PTE_FLAGS w := rfl

theorem PTE_FLAGS_lt (w : Word) : (PTE_FLAGS w).toNat < 1024 := by
  rw [toNat_PTE_FLAGS]
  exact Nat.mod_lt _ (by decide)

/-- The flags and the contents of a page of `old`. -/
def copyOf (s : Mem) (old : Word) (k : Nat) (flags : Word) (page : Nat → Word) : Prop :=
  ∃ w, lookup s.pte old k = some w ∧ flags = PTE_FLAGS w ∧ page = s.pte (PTE2PA w)

/-- What `uvmcopy` does, for a parent of `n` pages. -/
structure UvmcopySpec (kend : Word) (s s' : Mem) (old new : Word) (n : Nat)
    (extra' : Nat → Option Word) (ok : Bool) : Prop where
  /-- The parent is not touched. -/
  parent : Untouched s s' old n
  child : Moved kend s s' new 0 (if ok then n else 0) extra'
  /-- The child has the same pages, with other frames. -/
  copied : ok = true → Filled s' new 0 n (copyOf s old)
  fresh : ok = true → frames s'.pte new 0 n ⊆ s.freelist

theorem wp_uvmcopyErr {i : Nat} {a : Word} (hparent : Space kend s₀ old n extra)
    (hapart : (owned s₀.pte old n ++ (owned s₀.pte new 0 ++ s₀.freelist)).Nodup)
    (hmoved : Moved kend s₀ s new 0 i extra') (ha : a.toNat = i * 4096) :
    wp (uvmcopyErr kend new a) (fun ok s' => UvmcopySpec kend s₀ s' old new n extra' ok) E s := by
  have hva : (0 : Word).toNat = 0 * 4096 := by decide
  have hcount : (a / PGSIZE).toNat = i := by
    rw [BitVec.toNat_udiv, ha]
    exact Nat.mul_div_cancel _ (by decide)
  have hspace : Space kend s new (0 + i) extra' := by
    rw [Nat.zero_add]
    exact hmoved.space
  rw [uvmcopyErr, wp_bind]
  refine (hspace.wp_uvmunmap hva hcount).mono ?_ fun _ he => he
  rintro _ s' ⟨hback, -⟩
  rw [Nat.zero_add] at hback
  have hchild := hmoved.trans hback
  refine ⟨hparent.untouched (hchild.within.kept hapart), hchild, fun h => ?_, fun h => ?_⟩
  · cases h
  · cases h

theorem wp_uvmcopyLoop {sz a : Word} {i fuel : Nat} (hparent : Space kend s₀ old (pages sz) extra)
    (hapart : (owned s₀.pte old (pages sz) ++ (owned s₀.pte new 0 ++ s₀.freelist)).Nodup)
    (hmoved : Moved kend s₀ s new 0 i extra') (hfill : Filled s new 0 i (copyOf s₀ old))
    (hfresh : frames s.pte new 0 i ⊆ s₀.freelist) (hfree : s.freelist ⊆ s₀.freelist)
    (ha : a.toNat = i * 4096) (hi : i ≤ pages sz) (hfuel : s.freelist.length < fuel) :
    wp (uvmcopyLoop kend old new sz fuel a)
      (fun ok s' => UvmcopySpec kend s₀ s' old new (pages sz) extra' ok) E s := by
  induction fuel generalizing s a i with
  | zero => omega
  | succ fuel ih =>
    have hle := hparent.le_FRAMES
    unfold FRAMES at hle
    have huntouched := hparent.untouched (hmoved.within.kept hapart)
    rw [uvmcopyLoop, wp_ite]
    refine ⟨fun hlt => ?_, fun hge => ?_⟩
    · have hlt : a.toNat < sz.toNat := hlt
      have hin : i < pages sz := by
        unfold pages
        omega
      have hmax : a < MAXVA := by
        show a.toNat < 2 ^ 38
        omega
      have hvpn : vpn a = i := by
        unfold vpn
        omega
      obtain ⟨w, hw, hleaf⟩ := hparent.user i hin
      have hw' : lookup s.pte old (vpn a) = some w := by rw [hvpn, huntouched.same.lookup, hw]
      obtain ⟨x, hx, hentry, hvalid⟩ := lookup_entry hw'
      rw [wp, bind_of_ok (walk_false hmax), ← wp, hx]
      dsimp only [Option.map_some]
      rw [wp_bind, wp_get, hentry, hvalid, Bool.not_true, if_neg Bool.false_ne_true, wp_bind]
      have herr : ∀ s₁, Moved kend s s₁ new i i extra' → Kept s s₁ new i →
          wp (uvmcopyErr kend new a)
            (fun ok s' => UvmcopySpec kend s₀ s' old new (pages sz) extra' ok) E s₁ :=
        fun s₁ hm _ => wp_uvmcopyErr hparent hapart (hmoved.trans hm) ha
      refine hmoved.space.wp_kalloc herr fun y s₁ hheld => ?_
      dsimp only
      rw [wp_bind, wp_modify, wp_bind]
      generalize hs₂ : ({ s₁ with pte := update s₁.pte y (s₁.pte (PTE2PA w)) } : Mem) = s₂
      -- the page of the parent has not changed since the start
      have hpage : s₂.pte y = s₀.pte (PTE2PA w) := by
        have hmem : PTE2PA w ∈ owned s₀.pte old (pages sz) :=
          List.mem_append_right _ (mem_frames_iff.2 ⟨i, hin, w, hw, rfl⟩)
        have hsame := (hmoved.within.trans hheld.within).kept hapart _ hmem
        rw [← hs₂]
        exact (update_self ..).trans hsame
      have hheld₂ : Held kend s s₂ new i extra' y := by
        rw [← hs₂]
        exact hheld.write rfl fun z hz => update_of_ne hz ..
      have hflags := PTE_FLAGS_valid hvalid
      refine hheld₂.wp_map ha (PTE_FLAGS_lt w) (by rwa [hflags]) (fun s₃ hheld₃ => ?_) ?_
      · rw [if_neg Bool.false_ne_true, wp_bind]
        exact hheld₃.wp_kfree.mono (fun _ s₄ h => herr s₄ h.1 h.2) fun _ he => he
      · rintro s₃ hm hk hsub ⟨v, hv, hvflags, hvpa, hvpage⟩
        have hfewer : s₃.freelist.length < s.freelist.length := hsub.length_le
        have hnext : (a + PGSIZE).toNat = (i + 1) * 4096 := by
          have hpg : PGSIZE.toNat = 4096 := rfl
          rw [BitVec.toNat_add, ha, hpg]
          omega
        rw [if_pos rfl]
        refine ih (hmoved.trans hm) (hfill.snoc hk hv ⟨w, hw, ?_, ?_⟩) ?_ ?_ hnext hin (by omega)
        · rw [hvflags, hflags]
        · rw [hvpa, hvpage, hpage]
        · rw [frames_snoc hv, hvpa, frames_congr fun k hk' => hk.lookup _ (by omega)]
          refine List.append_subset.2 ⟨hfresh, fun z hz => hfree (hsub.subset ?_)⟩
          rw [List.mem_singleton.1 hz]
          exact List.mem_cons_self
        · exact fun z hz => hfree (hsub.subset (List.mem_cons_of_mem _ hz))
    · have hge : ¬ a.toNat < sz.toNat := hge
      obtain rfl : i = pages sz := by
        unfold pages at hi ⊢
        omega
      exact ⟨huntouched, hmoved, fun _ => hfill, fun _ => hfresh⟩

/-- `uvmcopy` copies all pages, or takes back what it has done. -/
theorem Space.wp_uvmcopy {sz : Word} (hparent : Space kend s old (pages sz) extra)
    (hchild : Space kend s new 0 extra')
    (hapart : (owned s.pte old (pages sz) ++ (owned s.pte new 0 ++ s.freelist)).Nodup) :
    wp (uvmcopy kend old new sz) (fun ok s' => UvmcopySpec kend s s' old new (pages sz) extra' ok) E s := by
  rw [uvmcopy, wp_bind, wp_get]
  exact wp_uvmcopyLoop hparent hapart (Moved.refl hchild) (Filled.none s new 0) (List.nil_subset _)
    (List.Subset.refl _) (by decide) (Nat.zero_le _) (Nat.lt_succ_self _)

/-- The child has the pages of the parent, in frames that were free, and the parent is not touched. -/
structure Inherits (s s' : Mem) (old new : Word) (n : Nat) (extra' : Nat → Option Word) : Prop where
  pages : Filled s' new 0 n (copyOf s old)
  rest : ∀ k, n ≤ k → k < SLOTS → lookup s'.pte new k = extra' k
  distinct : (frames s'.pte new 0 n).Nodup
  fresh : frames s'.pte new 0 n ⊆ s.freelist
  parent : Untouched s s' old n

/-- The child has no user memory, and what is not in its table is free again. -/
structure Undone (s s' : Mem) (old new : Word) (n : Nat) (extra' : Nat → Option Word) : Prop where
  none : ∀ k < SLOTS, lookup s'.pte new k = extra' k
  freed : ∀ x ∈ s.freelist, x ∈ s'.freelist ∨ x ∈ nodes s'.pte new
  parent : Untouched s s' old n

namespace UvmcopySpec

theorem inherits (h : UvmcopySpec kend s s' old new n extra' true) :
    Inherits s s' old new n extra' where
  pages := h.copied rfl
  rest k hk hlt := h.child.space.rest k hk hlt
  distinct := h.child.space.nodup.of_append_left.of_append_right
  fresh := h.fresh rfl
  parent := h.parent

theorem undone (h : UvmcopySpec kend s s' old new n extra' false) :
    Undone s s' old new n extra' where
  none k hk := h.child.space.rest k (Nat.zero_le k) hk
  freed x hx := by
    have hchild : Moved kend s s' new 0 0 extra' := h.child
    have hmem := hchild.within.perm.symm.subset (List.mem_append_right _ hx)
    rw [owned_zero] at hmem
    exact (List.mem_append.1 hmem).symm
  parent := h.parent

end UvmcopySpec

end Xv6.Vm
