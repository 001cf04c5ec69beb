import Xv6.Vm.Space

set_option autoImplicit false

/-! # Growing and shrinking

`growproc` of `kernel/proc.c` and `sys_sbrk` of `kernel/sysproc.c`, over `uvmalloc` and `uvmdealloc`. The
change of the size is a C `int` that is added to a `uint64`: where the sum would be negative, `uvmdealloc`
finds a size that is larger than the old one and does nothing, and `growproc` reports success. -/

namespace Xv6.Vm

open Wp Footprint

variable (kend : Word)

/-- `growproc(n)` of a process of size `sz`: whether it returns 0, and `p->sz` afterwards. -/
def growproc (pagetable sz : Word) (n : BitVec 32) : M (Bool × Word) := do
  if n.toInt > 0 then
    let new ← uvmalloc kend pagetable sz (sz + n.signExtend 64) PTE_W
    if new = 0 then return (false, sz) else return (true, new)
  else if n.toInt < 0 then
    let new ← uvmdealloc kend pagetable sz (sz + n.signExtend 64)
    return (true, new)
  else return (true, sz)

/-- `sys_sbrk`: what it returns, and `p->sz` afterwards. -/
def sysSbrk (pagetable sz : Word) (n : BitVec 32) : M (Word × Word) := do
  let r ← growproc kend pagetable sz n
  if r.1 then return (sz, r.2) else return (-1, r.2)

variable {kend} {s s₀ s' : Mem} {root : Word} {extra : Nat → Option Word} {E : String → Prop}
  {sz oldsz newsz xperm : Word}

theorem toInt_of_lt {w : Word} (h : w.toNat < 2 ^ 31) : toInt w = w := by
  have hw : (w.setWidth 32).toNat = w.toNat := by
    rw [BitVec.toNat_setWidth, Nat.mod_eq_of_lt (by omega)]
  have hmsb : (w.setWidth 32).msb = false := by
    rw [BitVec.msb_eq_false_iff_two_mul_lt, hw]
    omega
  refine BitVec.eq_of_toNat_eq ?_
  rw [toInt, BitVec.signExtend_eq_setWidth_of_msb_false hmsb, BitVec.toNat_setWidth, hw]
  exact Nat.mod_eq_of_lt w.isLt

/-- A size that the pages are there for is far from the end of the addresses. -/
theorem Space.size_le (h : Space kend s root (pages sz) extra) :
    sz.toNat ≤ FRAMES * 4096 := by
  have hle := h.le_FRAMES
  unfold pages at hle
  omega

/-- Shrinking gives the pages above the new size to the free list. -/
theorem Space.wp_uvmdealloc (h : Space kend s root (pages oldsz) extra) (hle : newsz ≤ oldsz) :
    wp (uvmdealloc kend root oldsz newsz) (fun r s' => r = newsz ∧
      Moved kend s s' root (pages oldsz) (pages newsz) extra ∧ Kept s s' root (pages newsz)) E s := by
  have hsize := h.size_le
  have hmax : FRAMES * 4096 = 0x88000000 := rfl
  have hle' : newsz.toNat ≤ oldsz.toNat := hle
  have hup : (PGROUNDUP oldsz).toNat = pages oldsz * 4096 := toNat_PGROUNDUP (by omega)
  have hup' : (PGROUNDUP newsz).toNat = pages newsz * 4096 := toNat_PGROUNDUP (by omega)
  rw [uvmdealloc, wp_ite]
  refine ⟨fun hge => ?_, fun _ => ?_⟩
  · obtain rfl : newsz = oldsz := BitVec.le_antisymm hle hge
    exact ⟨rfl, Moved.refl h, Kept.refl ..⟩
  · by_cases hlt : PGROUNDUP newsz < PGROUNDUP oldsz
    · have hlt' : pages newsz * 4096 < pages oldsz * 4096 := by
        rw [← hup, ← hup']
        exact hlt
      have hcount : ((PGROUNDUP oldsz - PGROUNDUP newsz) / PGSIZE).toNat =
          pages oldsz - pages newsz := by
        rw [BitVec.toNat_udiv, BitVec.toNat_sub_of_le (BitVec.le_of_lt hlt), hup, hup',
          show PGSIZE.toNat = 4096 from rfl]
        omega
      have hpages := h.le_FRAMES
      unfold FRAMES at hpages
      obtain ⟨c, hc⟩ : ∃ c, pages oldsz = pages newsz + c := ⟨pages oldsz - pages newsz, by omega⟩
      rw [if_pos hlt, wp_bind, toInt_of_lt (by omega)]
      rw [hc] at h hcount ⊢
      refine (h.wp_uvmunmap hup' (hcount.trans (by omega))).mono ?_ fun _ he => he
      rintro _ s' ⟨hmoved, hkept⟩
      exact ⟨rfl, hmoved, hkept⟩
    · have hge : ¬ (PGROUNDUP newsz).toNat < (PGROUNDUP oldsz).toNat := hlt
      have heq : pages newsz = pages oldsz := by
        unfold pages at *
        omega
      rw [if_neg hlt, heq]
      exact ⟨rfl, Moved.refl h, Kept.refl ..⟩

/-- Back to where `uvmalloc` has started. -/
theorem wp_rollback {a : Word} {p i : Nat} (hmoved : Moved kend s₀ s root p i extra)
    (hkept : Kept s₀ s root p) (hpi : p ≤ i) (hold : oldsz.toNat = p * 4096)
    (ha : a.toNat = i * 4096) :
    wp (uvmdealloc kend root a oldsz) (fun _ s' =>
      Moved kend s₀ s' root p p extra ∧ Kept s₀ s' root p) E s := by
  have hi : pages a = i := by
    unfold pages
    omega
  have hp : pages oldsz = p := by
    unfold pages
    omega
  have hle : oldsz ≤ a := by
    show oldsz.toNat ≤ a.toNat
    omega
  subst hi
  refine (hmoved.space.wp_uvmdealloc hle).mono ?_ fun _ he => he
  rintro _ s' ⟨-, hback, hkept'⟩
  rw [hp] at hback hkept'
  exact ⟨hmoved.trans hback, hkept.trans hkept'⟩

/-- The page that `uvmalloc` makes. -/
def zeroPage (perm : Word) (_ : Nat) (flags : Word) (page : Nat → Word) : Prop :=
  flags = perm ||| PTE_V ∧ ∀ i, page i = 0

theorem userPerm_lt (h : xperm.toNat < 1024) :
    (PTE_R ||| PTE_U ||| xperm).toNat < 1024 := by
  rw [BitVec.toNat_or]
  exact Nat.or_lt_two_pow (n := 10) (by decide) h

theorem userPerm_leaf (xperm : Word) : PTE_R ||| PTE_U ||| xperm ||| PTE_V ≠ PTE_V := by
  intro he
  have hbit := congrArg (fun w => w.getLsbD 1) he
  simp [PTE_R, PTE_U, PTE_V] at hbit

/-- `uvmalloc` has failed, and everything is as before, or it has made the new pages. -/
def Allocated (kend : Word) (s : Mem) (root : Word) (p : Nat) (extra : Nat → Option Word)
    (newsz xperm r : Word) (s' : Mem) : Prop :=
  Kept s s' root p ∧ ((r = 0 ∧ Moved kend s s' root p p extra) ∨
    (r = newsz ∧ Moved kend s s' root p (pages newsz) extra ∧
      Filled s' root p (pages newsz) (zeroPage (PTE_R ||| PTE_U ||| xperm))))

/-- The loop makes all the pages, or it undoes the ones it has made. -/
theorem wp_uvmallocLoop {a : Word} {fuel p i : Nat} (hmoved : Moved kend s₀ s root p i extra)
    (hkept : Kept s₀ s root p) (hfill : Filled s root p i (zeroPage (PTE_R ||| PTE_U ||| xperm)))
    (hpi : p ≤ i) (hold : oldsz.toNat = p * 4096) (ha : a.toNat = i * 4096)
    (hx : xperm.toNat < 1024) (hi : i ≤ pages newsz) (hfuel : s.freelist.length < fuel) :
    wp (uvmallocLoop kend root oldsz newsz xperm fuel a)
      (Allocated kend s₀ root p extra newsz xperm) E s := by
  induction fuel generalizing s a i with
  | zero => omega
  | succ fuel ih =>
    rw [uvmallocLoop, wp_ite]
    refine ⟨fun hlt => ?_, fun hge => ?_⟩
    · have hlt : a.toNat < newsz.toNat := hlt
      have hback : ∀ s₁, Moved kend s s₁ root i i extra → Kept s s₁ root i →
          wp (do let _ ← uvmdealloc kend root a oldsz; return (0 : Word))
            (Allocated kend s₀ root p extra newsz xperm) E s₁ := by
        intro s₁ hm hk
        rw [wp_bind]
        refine (wp_rollback (hmoved.trans hm) (hkept.trans (hk.mono hpi)) hpi hold ha).mono ?_
          fun _ he => he
        exact fun _ s' h => ⟨h.2, Or.inl ⟨rfl, h.1⟩⟩
      rw [wp_bind]
      refine hmoved.space.wp_kalloc hback fun x s₁ hheld => ?_
      dsimp only
      rw [wp_bind, wp_modify, wp_bind]
      have hzero : Held kend s (s₁.fill x 0) root i extra x :=
        hheld.write rfl fun y hy => Function.update_of_ne hy ..
      refine hzero.wp_map ha (userPerm_lt hx) (userPerm_leaf xperm) (fun s₂ hheld₂ => ?_) ?_
      · rw [if_neg Bool.false_ne_true, wp_bind]
        refine hheld₂.wp_kfree.mono ?_ fun _ he => he
        rintro _ s₃ ⟨hm, hk⟩
        exact hback s₃ hm hk
      · rintro s₂ hm hk hfree ⟨w, hw, hflags, hpa, hpage⟩
        have hfewer : s₂.freelist.length < s.freelist.length := hfree.length_le
        have hnext : (a + PGSIZE).toNat = (i + 1) * 4096 := by
          have hpg : PGSIZE.toNat = 4096 := rfl
          have hbig := hmoved.space.le_FRAMES
          unfold FRAMES at hbig
          rw [BitVec.toNat_add, ha, hpg]
          omega
        have hpages : i + 1 ≤ pages newsz := by
          unfold pages
          omega
        rw [if_pos rfl]
        refine ih (hmoved.trans hm) (hkept.trans (hk.mono hpi)) (hfill.snoc hk hw ⟨hflags, ?_⟩)
          (by omega) hnext hpages (by omega)
        intro l
        rw [hpa, hpage, Mem.fill_pte, Function.update_self]
    · have hge : ¬ a.toNat < newsz.toNat := hge
      obtain rfl : i = pages newsz := by
        unfold pages at hi ⊢
        omega
      exact ⟨hkept, Or.inr ⟨rfl, hmoved, hfill⟩⟩

theorem Space.wp_uvmalloc (h : Space kend s root (pages oldsz) extra) (hle : oldsz ≤ newsz)
    (hx : xperm.toNat < 1024) :
    wp (uvmalloc kend root oldsz newsz xperm)
      (Allocated kend s root (pages oldsz) extra newsz xperm) E s := by
  have hsize := h.size_le
  have hmax : FRAMES * 4096 = 0x88000000 := rfl
  have hle' : oldsz.toNat ≤ newsz.toNat := hle
  have hup : (PGROUNDUP oldsz).toNat = pages oldsz * 4096 := toNat_PGROUNDUP (by omega)
  have hpages : pages oldsz ≤ pages newsz := by
    unfold pages
    omega
  rw [uvmalloc, if_neg (BitVec.not_lt.2 hle), wp_bind, wp_get]
  exact wp_uvmallocLoop (Moved.refl h) (Kept.refl ..) (Filled.none _ _ _) (Nat.le_refl _) hup hup hx hpages
    (Nat.lt_succ_self _)

theorem toNat_add_signExtend {n : BitVec 32} (h : 0 ≤ (sz.toNat : Int) + n.toInt)
    (hlt : sz.toNat < 2 ^ 63) :
    ((sz + n.signExtend 64).toNat : Int) = sz.toNat + n.toInt := by
  have hle := @BitVec.two_mul_toInt_lt 32 n
  have hge := @BitVec.le_two_mul_toInt 32 n
  have hext : (n.signExtend 64).toInt = n.toInt := BitVec.toInt_signExtend_of_le (by decide)
  have hnat : ((n.signExtend 64).toNat : Int) = if n.toInt < 0 then n.toInt + 2 ^ 64 else n.toInt := by
    rw [← hext, BitVec.toInt_eq_toNat_cond]
    have hlt := (n.signExtend 64).isLt
    split_ifs <;> omega
  rw [BitVec.toNat_add]
  split_ifs at hnat <;> omega

/-- What a process finds after `growproc(n)`. -/
structure GrowprocSpec (kend : Word) (s s' : Mem) (root sz sz' : Word) (n : Int)
    (extra : Nat → Option Word) (ok : Bool) : Prop where
  space : Moved kend s s' root (pages sz) (pages sz') extra
  kept : Kept s s' root (min (pages sz) (pages sz'))
  size : ok = true → (sz'.toNat : Int) = sz.toNat + n
  fresh : ok = true → Filled s' root (pages sz) (pages sz') (zeroPage (PTE_R ||| PTE_U ||| PTE_W))
  same : ok = false → sz' = sz
  mappings : ok = false → ∀ k < SLOTS, lookup s'.pte root k = lookup s.pte root k
  freed : ok = false → ∀ x ∈ s.freelist, x ∈ s'.freelist ∨ x ∈ nodes s'.pte root

/-- Nothing but the table has grown. -/
theorem Moved.failed {n : Nat} (h : Space kend s root n extra) (hm : Moved kend s s' root n n extra)
    (hk : Kept s s' root n) : (∀ k < SLOTS, lookup s'.pte root k = lookup s.pte root k) ∧
      ∀ x ∈ s.freelist, x ∈ s'.freelist ∨ x ∈ nodes s'.pte root := by
  refine ⟨fun k hlt => ?_, fun x hx => ?_⟩
  · rcases Nat.lt_or_ge k n with hkn | hkn
    · exact hk.lookup k hkn
    · rw [hm.space.rest k hkn hlt, h.rest k hkn hlt]
  · have hframes : frames s'.pte root 0 n = frames s.pte root 0 n :=
      frames_congr fun k hk' => hk.lookup _ (by omega)
    have hmem := hm.within.perm.symm.subset (List.mem_append_right _ hx)
    rw [owned, hframes] at hmem
    rcases List.mem_append.1 hmem with hmem | hmem
    · rcases List.mem_append.1 hmem with hmem | hmem
      · exact Or.inr hmem
      · exact absurd rfl ((List.nodup_append.1 h.nodup).2.2 _ (List.mem_append_right _ hmem) _ hx)
    · exact Or.inl hmem

theorem Space.wp_growproc (h : Space kend s root (pages sz) extra) {n : BitVec 32}
    (hn : 0 ≤ (sz.toNat : Int) + n.toInt) :
    wp (growproc kend root sz n) (fun r s' => GrowprocSpec kend s s' root sz r.2 n.toInt extra r.1) E
      s := by
  have hsize := h.size_le
  have hmax : FRAMES * 4096 = 0x88000000 := rfl
  have hsum := toNat_add_signExtend hn (by omega)
  unfold growproc
  rw [wp_ite]
  refine ⟨fun hpos => ?_, fun hnpos => ?_⟩
  · have hle : sz ≤ sz + n.signExtend 64 := by
      show sz.toNat ≤ (sz + n.signExtend 64).toNat
      omega
    rw [wp_bind]
    refine (h.wp_uvmalloc hle (by decide)).mono ?_ fun _ he => he
    rintro r s' ⟨hkept, ⟨rfl, hmoved⟩ | ⟨rfl, hmoved, hfill⟩⟩
    · obtain ⟨hmap, hfree⟩ := hmoved.failed h hkept
      rw [if_pos rfl]
      exact ⟨hmoved, hkept.mono (Nat.min_le_left ..), (fun hf => by cases hf), (fun hf => by cases hf),
        fun _ => rfl, fun _ => hmap, fun _ => hfree⟩
    · have hne : sz + n.signExtend 64 ≠ 0 := by
        intro h0
        rw [h0] at hsum
        have : ((0 : Word).toNat : Int) = 0 := rfl
        omega
      rw [if_neg hne]
      exact ⟨hmoved, hkept.mono (Nat.min_le_left ..), fun _ => hsum, fun _ => hfill,
        (fun hf => by cases hf), (fun hf => by cases hf), (fun hf => by cases hf)⟩
  · rw [wp_ite]
    refine ⟨fun hneg => ?_, fun hnneg => ?_⟩
    · have hle : sz + n.signExtend 64 ≤ sz := by
        show (sz + n.signExtend 64).toNat ≤ sz.toNat
        omega
      have hpages : pages (sz + n.signExtend 64) ≤ pages sz := by
        have hle : (sz + n.signExtend 64).toNat ≤ sz.toNat := hle
        unfold pages
        omega
      rw [wp_bind]
      refine (h.wp_uvmdealloc hle).mono ?_ fun _ he => he
      rintro r s' ⟨rfl, hmoved, hkept⟩
      refine ⟨hmoved, hkept.mono (Nat.min_le_right ..), fun _ => hsum, fun _ k hk hk' => ?_,
        (fun hf => by cases hf), (fun hf => by cases hf), (fun hf => by cases hf)⟩
      exact absurd hk' (Nat.not_lt.2 (hpages.trans hk))
    · refine ⟨Moved.refl h, Kept.refl .., fun _ => ?_, fun _ => Filled.none _ _ _,
        (fun hf => by cases hf), (fun hf => by cases hf), (fun hf => by cases hf)⟩
      show (sz.toNat : Int) = sz.toNat + n.toInt
      omega

/-- Below zero nothing is done, but `growproc` reports success. -/
theorem growproc_of_neg {n : BitVec 32} (hn : (sz.toNat : Int) + n.toInt < 0) :
    growproc kend root sz n s = .ok ((true, sz), s) := by
  have hge := @BitVec.le_two_mul_toInt 32 n
  -- far from zero the sum does not wrap, and shows which word `n` is
  have hsum := @toNat_add_signExtend 0x4000000000000000 n (by simp; omega) (by decide)
  rw [growproc, if_neg (by omega), if_pos (by omega), uvmdealloc, if_pos (by bv_omega)]
  rfl

theorem Space.moved_growproc (h : Space kend s root (pages sz) extra) (n : BitVec 32) :
    wp (growproc kend root sz n) (fun r s' => Moved kend s s' root (pages sz) (pages r.2) extra) E s := by
  by_cases hn : 0 ≤ (sz.toNat : Int) + n.toInt
  · exact (h.wp_growproc hn).mono (fun _ _ hs => hs.space) fun _ he => he
  · exact wp_of_eq (growproc_of_neg (by omega)) (Moved.refl h)

/-- `growproc(n)` does what it says exactly when the size does not become negative. -/
theorem growproc_exact {sz : Word} (h : Space kend s root (pages sz) extra) (n : BitVec 32) :
    (∃ ok sz' s', growproc kend root sz n s = .ok ((ok, sz'), s') ∧
      GrowprocSpec kend s s' root sz sz' n.toInt extra ok) ↔ 0 ≤ (sz.toNat : Int) + n.toInt := by
  constructor
  · rintro ⟨ok, sz', s', hrun, hspec⟩
    by_contra hn
    rw [growproc_of_neg (by omega)] at hrun
    injection hrun with hrun
    injection hrun with hrun
    injection hrun with hok hsz
    have := hspec.size hok.symm
    omega
  · intro hn
    obtain ⟨⟨ok, sz'⟩, s', hrun, hspec⟩ := (h.wp_growproc hn).exists_ok
    exact ⟨ok, sz', s', hrun, hspec⟩

/-- `sbrk(n)` returns the old size, or -1. -/
theorem sysSbrk_spec (h : Space kend s root (pages sz) extra) (n : BitVec 32)
    (hn : 0 ≤ (sz.toNat : Int) + n.toInt) :
    ∃ sz' s', (sysSbrk kend root sz n s = .ok ((sz, sz'), s') ∧
        GrowprocSpec kend s s' root sz sz' n.toInt extra true) ∨
      (sysSbrk kend root sz n s = .ok ((-1, sz'), s') ∧
        GrowprocSpec kend s s' root sz sz' n.toInt extra false) := by
  obtain ⟨⟨ok, sz'⟩, s', hrun, hspec⟩ := (h.wp_growproc hn).exists_ok
  refine ⟨sz', s', ?_⟩
  rw [sysSbrk, bind_of_ok hrun]
  cases ok with
  | true => exact Or.inl ⟨rfl, hspec⟩
  | false => exact Or.inr ⟨rfl, hspec⟩

/-- A process that does not grow does not run out of memory. -/
theorem growproc_of_le_zero {n : BitVec 32} (hn : n.toInt ≤ 0) :
    wp (growproc kend root sz n) (fun r _ => r.1 = true) (fun _ => True) s := by
  rw [growproc, if_neg (by omega)]
  split
  · rw [wp_bind, wp]
    split
    · rfl
    · trivial
  · rfl

/-- `sbrk(n)` for any `n`: it fails only if the process would have to grow. -/
theorem sysSbrk_moved (h : Space kend s root (pages sz) extra) (n : BitVec 32) :
    ∃ sz' s', Space kend s' root (pages sz') extra ∧ (sysSbrk kend root sz n s = .ok ((sz, sz'), s') ∨
      (0 < n.toInt ∧ sz' = sz ∧ sysSbrk kend root sz n s = .ok ((-1, sz'), s'))) := by
  by_cases hn : 0 ≤ (sz.toNat : Int) + n.toInt
  · obtain ⟨⟨ok, sz'⟩, s', hrun, hspec⟩ := (h.wp_growproc hn).exists_ok
    refine ⟨sz', s', hspec.space.space, ?_⟩
    rw [sysSbrk, bind_of_ok hrun]
    cases ok with
    | true => exact .inl rfl
    | false =>
      refine .inr ⟨?_, hspec.same rfl, rfl⟩
      by_contra hle
      cases (growproc_of_le_zero (by omega)).of_ok hrun
  · refine ⟨sz, s, h, .inl ?_⟩
    rw [sysSbrk, bind_of_ok (growproc_of_neg (by omega))]
    rfl

/-- Four pages are free, and the page before them is an empty table. -/
def fourFree : Mem := ⟨fun _ _ => 0, [0x80002000, 0x80003000, 0x80004000, 0x80005000], []⟩

theorem fourFree_space : Space 0x80000000 fourFree 0x80001000 (pages 0) fun _ => none := by
  have hall : (0x80001000 :: fourFree.freelist).all (fun x => Frame 0x80000000 x) = true := by
    decide +kernel
  exact (Space.empty (fun _ => rfl) (by decide) fun x hx =>
    of_decide_eq_true (List.all_eq_true.mp hall x hx)).1

theorem growproc_exact_page :
    ∃ ok sz' s', growproc 0x80000000 0x80001000 0 4096 fourFree = .ok ((ok, sz'), s') ∧
      GrowprocSpec 0x80000000 fourFree s' 0x80001000 0 sz' 4096 (fun _ => none) ok :=
  (growproc_exact fourFree_space 4096).2 (by decide)

/-- A process of one page cannot give back 4097 bytes, but it is told that it has. -/
theorem growproc_below_zero :
    ∃ s, growproc 0x80000000 0x80001000 0 4096 fourFree = .ok ((true, 4096), s) ∧
      growproc 0x80000000 0x80001000 4096 (-4097) s = .ok ((true, 4096), s) := by
  have hany : (growproc 0x80000000 0x80001000 0 4096 fourFree).toOption.any
      (fun r => r.1 == (true, 4096)) = true := by decide +kernel
  obtain ⟨⟨r, s⟩, hrun, hr⟩ := exists_ok_of_any hany
  obtain rfl : r = (true, 4096) := eq_of_beq hr
  exact ⟨s, hrun, rfl⟩

end Xv6.Vm
