import Xv6.Fs.Inode
import Xv6.Lib.Ownership

set_option autoImplicit false

/-! # Which blocks an inode has, and what is in them

The block numbers of an inode are at `NDIRECT + 1 + NINDIRECT` places: the direct ones, the indirect
block, and the entries of the indirect block. `refs` gives the number at each place of each
allocated inode. A disk is in order (`DiskOk`) when these places own the data blocks whose bit is set,
a file has a block for each of its bytes, and no file is too long. The contents of an inode are a
list of bytes. -/

namespace Xv6.Fs

open Function

variable (sb : Superblock)

/-! ## Places -/

/-- The block number at a place of an inode; 0 for none. -/
def blockAt (data : Nat → Block) (d : Dinode) (p : Nat) : Nat :=
  if p ≤ NDIRECT then d.addrs p
  else if p ≤ NDIRECT + NINDIRECT ∧ d.addrs NDIRECT ≠ 0 then
    (data (d.addrs NDIRECT)).word (p - NDIRECT - 1)
  else 0

/-- The place of block `bn` of a file. -/
def placeOf (bn : Nat) : Nat := if bn < NDIRECT then bn else bn + 1

/-- The inode is allocated. -/
def Alloc (dn : Nat → Dinode) (i : Nat) : Prop := 0 < i ∧ i < sb.ninodes ∧ (dn i).type ≠ .free

instance (dn : Nat → Dinode) (i : Nat) : Decidable (Alloc sb dn i) :=
  inferInstanceAs (Decidable (_ ∧ _))

/-- The block number at a place of an allocated inode. -/
def refs (dn : Nat → Dinode) (data : Nat → Block) (k : Nat × Nat) : Nat :=
  if Alloc sb dn k.1 then blockAt data (dn k.1) k.2 else 0

/-! ## Contents -/

/-- Byte `k` of a file. -/
def byteAt (data : Nat → Block) (d : Dinode) (k : Nat) : UInt8 :=
  (data (blockAt data d (placeOf (k / BSIZE)))).get (k % BSIZE)

/-- The contents of a file. -/
def content (data : Nat → Block) (d : Dinode) : List UInt8 :=
  (List.range d.size).map (byteAt data d)

/-! ## Disks in order -/

structure DiskOk (dn : Nat → Dinode) (bitmap : Nat → Bool) (data : Nat → Block) : Prop where
  /-- The data blocks whose bit is set are those at a place of an allocated inode, each at one. -/
  own : Owns sb.dataStart sb.size (refs sb dn data) bitmap
  /-- Files have no holes. -/
  filled : ∀ i, Alloc sb dn i → ∀ bn, bn * BSIZE < (dn i).size →
    blockAt data (dn i) (placeOf bn) ≠ 0
  size_le : ∀ i, Alloc sb dn i → (dn i).size ≤ MAXFILE * BSIZE

/-! ## Lemmas about places -/

section Places

variable {sb} {data data' : Nat → Block} {d : Dinode} {dn : Nat → Dinode} {p i : Nat}

theorem blockAt_direct (h : p ≤ NDIRECT) : blockAt data d p = d.addrs p := if_pos h

theorem blockAt_entry {j : Nat} (hj : j < NINDIRECT) (hd : d.addrs NDIRECT ≠ 0) :
    blockAt data d (NDIRECT + 1 + j) = (data (d.addrs NDIRECT)).word j := by
  have h1 : ¬ NDIRECT + 1 + j ≤ NDIRECT := by omega
  have h2 : NDIRECT + 1 + j ≤ NDIRECT + NINDIRECT := by omega
  have h3 : NDIRECT + 1 + j - NDIRECT - 1 = j := by omega
  rw [blockAt, if_neg h1, if_pos ⟨h2, hd⟩, h3]

theorem blockAt_no_indirect (hp : NDIRECT < p) (hd : d.addrs NDIRECT = 0) :
    blockAt data d p = 0 := by
  rw [blockAt, if_neg (by omega), if_neg (fun h => h.2 hd)]

/-- The places beyond the last one are empty. -/
theorem blockAt_beyond (hp : NDIRECT + NINDIRECT < p) : blockAt data d p = 0 := by
  rw [blockAt, if_neg (by omega), if_neg (by omega)]

/-- The places depend on `addrs` and on the indirect block. -/
theorem blockAt_congr {d' : Dinode} (ha : d'.addrs = d.addrs)
    (hd : d.addrs NDIRECT ≠ 0 → data' (d.addrs NDIRECT) = data (d.addrs NDIRECT)) :
    blockAt data' d' p = blockAt data d p := by
  unfold blockAt
  rw [ha]
  split
  · rfl
  · split
    · next h => rw [hd h.2]
    · rfl

theorem placeOf_ne_NDIRECT (bn : Nat) : placeOf bn ≠ NDIRECT := by
  unfold placeOf
  split
  · next h => exact Nat.ne_of_lt h
  · omega

theorem placeOf_inj {bn bn' : Nat} (h : placeOf bn = placeOf bn') : bn = bn' := by
  unfold placeOf at h
  split at h <;> split at h <;> omega

theorem refs_of_alloc (h : Alloc sb dn i) (p : Nat) :
    refs sb dn data (i, p) = blockAt data (dn i) p := if_pos h

theorem refs_of_not_alloc (h : ¬ Alloc sb dn i) (p : Nat) : refs sb dn data (i, p) = 0 := if_neg h

/-- A block behind the indirect block is there only if the indirect block is. -/
theorem refs_indirect_ne {bn : Nat} (hbn : NDIRECT ≤ bn) (h : refs sb dn data (i, placeOf bn) ≠ 0) :
    refs sb dn data (i, NDIRECT) ≠ 0 := by
  by_cases hi : Alloc sb dn i
  · rw [refs_of_alloc hi] at h ⊢
    rw [blockAt_direct (Nat.le_refl _)]
    refine fun hz => h (blockAt_no_indirect ?_ hz)
    rw [placeOf, if_neg (Nat.not_lt.2 hbn)]
    exact Nat.lt_succ_of_le hbn
  · exact absurd (refs_of_not_alloc hi _) h

/-- Whether an inode is allocated depends on its type only. -/
theorem alloc_update {d' : Dinode} (ht : d'.type = (dn i).type) (k : Nat) :
    Alloc sb (update dn i d') k ↔ Alloc sb dn k := by
  unfold Alloc
  by_cases hk : k = i
  · subst hk
    rw [update_self, ht]
  · rw [update_of_ne hk]

theorem alloc_update_of_ne {d' : Dinode} {k : Nat} (hk : k ≠ i) :
    Alloc sb (update dn i d') k ↔ Alloc sb dn k := by
  unfold Alloc
  rw [update_of_ne hk]

/-- The places depend on the types and the block numbers of the inodes only. -/
theorem refs_congr {dn' : Nat → Dinode} (htype : ∀ k, (dn' k).type = (dn k).type)
    (haddrs : ∀ k, (dn' k).addrs = (dn k).addrs) : refs sb dn' data = refs sb dn data := by
  funext ⟨k, q⟩
  have halloc : Alloc sb dn' k ↔ Alloc sb dn k := by
    unfold Alloc
    rw [htype k]
  by_cases hk : Alloc sb dn k
  · rw [refs_of_alloc hk, refs_of_alloc (halloc.2 hk)]
    exact blockAt_congr (haddrs k) (fun _ => rfl)
  · rw [refs_of_not_alloc hk, refs_of_not_alloc (fun h => hk (halloc.1 h))]

theorem DiskOk.congr {dn' : Nat → Dinode} {bitmap : Nat → Bool} (hok : DiskOk sb dn bitmap data)
    (htype : ∀ k, (dn' k).type = (dn k).type) (haddrs : ∀ k, (dn' k).addrs = (dn k).addrs)
    (hsize : ∀ k, (dn' k).size = (dn k).size) : DiskOk sb dn' bitmap data := by
  have halloc : ∀ k, Alloc sb dn' k → Alloc sb dn k := by
    intro k hk
    unfold Alloc at hk ⊢
    rwa [← htype k]
  refine ⟨refs_congr htype haddrs ▸ hok.own, fun k hk bn hbn => ?_, fun k hk => ?_⟩
  · rw [blockAt_congr (haddrs k) (fun _ => rfl)]
    exact hok.filled k (halloc k hk) bn (hsize k ▸ hbn)
  · rw [hsize k]
    exact hok.size_le k (halloc k hk)

end Places

/-! ## Growing files -/

/-- The disk has been changed by giving blocks to the inode `i`: what was at a place is still
    there, and so is what was in the blocks of files. -/
structure Ext (i : Nat) (dn dn' : Nat → Dinode) (data data' : Nat → Block) : Prop where
  other : ∀ k, k ≠ i → dn' k = dn k
  same : dn' i = { dn i with addrs := (dn' i).addrs }
  keep : ∀ k, refs sb dn data k ≠ 0 → refs sb dn' data' k = refs sb dn data k
  blocks : ∀ k bn, refs sb dn data (k, placeOf bn) ≠ 0 →
    data' (refs sb dn data (k, placeOf bn)) = data (refs sb dn data (k, placeOf bn))
  places : ∀ k, k.1 ≠ i → refs sb dn' data' k = refs sb dn data k

section Ext

variable {sb} {i b : Nat} {dn dn' dn'' : Nat → Dinode} {bitmap bitmap' : Nat → Bool}
  {data data' data'' : Nat → Block}

theorem Ext.refl (i : Nat) (dn : Nat → Dinode) (data : Nat → Block) : Ext sb i dn dn data data :=
  ⟨fun _ _ => rfl, rfl, fun _ _ => rfl, fun _ _ _ => rfl, fun _ _ => rfl⟩

theorem Ext.trans (h : Ext sb i dn dn' data data') (h' : Ext sb i dn' dn'' data' data'') :
    Ext sb i dn dn'' data data'' := by
  refine ⟨fun k hk => (h'.other k hk).trans (h.other k hk), ?_, fun k hk => ?_, fun k bn hk => ?_,
    fun k hk => (h'.places k hk).trans (h.places k hk)⟩
  · rw [h'.same, h.same]
  · have hk' : refs sb dn' data' k ≠ 0 := by rwa [h.keep k hk]
    rw [h'.keep k hk', h.keep k hk]
  · have hkeep := h.keep _ hk
    have hk' : refs sb dn' data' (k, placeOf bn) ≠ 0 := by rwa [hkeep]
    have hblocks := h'.blocks k bn hk'
    rw [hkeep] at hblocks
    rw [hblocks, h.blocks k bn hk]

theorem Ext.type (h : Ext sb i dn dn' data data') (k : Nat) : (dn' k).type = (dn k).type := by
  by_cases hk : k = i
  · subst hk
    rw [h.same]
  · rw [h.other k hk]

theorem Ext.size (h : Ext sb i dn dn' data data') (k : Nat) : (dn' k).size = (dn k).size := by
  by_cases hk : k = i
  · subst hk
    rw [h.same]
  · rw [h.other k hk]

theorem Ext.alloc (h : Ext sb i dn dn' data data') (k : Nat) : Alloc sb dn' k ↔ Alloc sb dn k := by
  unfold Alloc
  rw [h.type k]

/-- A byte in a block that was there already is unchanged. -/
theorem Ext.byteAt_eq (h : Ext sb i dn dn' data data') {k : Nat} (hk : Alloc sb dn k) {n : Nat}
    (hn : blockAt data (dn k) (placeOf (n / BSIZE)) ≠ 0) :
    byteAt data' (dn' k) n = byteAt data (dn k) n := by
  have hrefs : refs sb dn data (k, placeOf (n / BSIZE)) = blockAt data (dn k) (placeOf (n / BSIZE)) :=
    refs_of_alloc hk _
  have hkeep := h.keep (k, placeOf (n / BSIZE)) (by rwa [hrefs])
  have hblocks := h.blocks k (n / BSIZE) (by rwa [hrefs])
  rw [refs_of_alloc ((h.alloc k).2 hk), hrefs] at hkeep
  rw [hrefs] at hblocks
  unfold byteAt
  rw [hkeep, hblocks]

/-- Giving blocks to files does not change what is in them. -/
theorem Ext.content_eq (h : Ext sb i dn dn' data data') (hok : DiskOk sb dn bitmap data) {k : Nat}
    (hk : Alloc sb dn k) : content data' (dn' k) = content data (dn k) := by
  unfold content
  rw [h.size k]
  refine List.map_congr_left (fun n hn => h.byteAt_eq hk (hok.filled k hk _ ?_))
  have hlt := List.mem_range.1 hn
  exact Nat.lt_of_le_of_lt (Nat.div_mul_le_self n BSIZE) hlt

/-- One more block at an empty place, the rest as before. -/
theorem DiskOk.attach (hok : DiskOk sb dn bitmap data) {p : Nat} (hb : b < sb.size)
    (hfree : bitmap b = false) (hp : refs sb dn data (i, p) = 0)
    (hother : ∀ k, k ≠ i → dn' k = dn k) (hsame : dn' i = { dn i with addrs := (dn' i).addrs })
    (hrefs : refs sb dn' data' = update (refs sb dn data) (i, p) b)
    (hdata : ∀ c, c ≠ b → (∀ k, refs sb dn data (k, NDIRECT) ≠ c) → data' c = data c) :
    DiskOk sb dn' (update bitmap b true) data' ∧ Ext sb i dn dn' data data' := by
  have hkeep : ∀ k, refs sb dn data k ≠ 0 → refs sb dn' data' k = refs sb dn data k := by
    intro k hk
    rw [hrefs, update_of_ne]
    rintro rfl
    exact hk hp
  have hext : Ext sb i dn dn' data data' := by
    refine ⟨hother, hsame, hkeep, fun k bn hk => hdata _ ?_ (fun l hl => ?_), fun k hk => ?_⟩
    · intro he
      have := hok.own.marked _ hk
      rw [he, hfree] at this
      cases this
    · have hpair := hok.own.inj _ _ hk hl.symm
      exact placeOf_ne_NDIRECT bn (congrArg Prod.snd hpair)
    · rw [hrefs, update_of_ne (fun he => hk (congrArg Prod.fst he))]
  refine ⟨⟨?_, fun k hk bn hbn => ?_, fun k hk => ?_⟩, hext⟩
  · rw [hrefs]
    exact hok.own.take sb.dataStart_pos hp hb hfree
  · have hk' := (hext.alloc k).1 hk
    have hne := hok.filled k hk' bn (by rwa [hext.size k] at hbn)
    have := hkeep (k, placeOf bn) (by rwa [refs_of_alloc hk'])
    rw [refs_of_alloc hk, refs_of_alloc hk'] at this
    rwa [this]
  · rw [hext.size k]
    exact hok.size_le k ((hext.alloc k).1 hk)

/-- A free block is not the indirect block of an inode. -/
theorem DiskOk.indirect_ne (hok : DiskOk sb dn bitmap data) (hfree : bitmap b = false) {k : Nat}
    (hk : Alloc sb dn k) (hne : (dn k).addrs NDIRECT ≠ 0) : (dn k).addrs NDIRECT ≠ b := by
  intro he
  have hrefs : refs sb dn data (k, NDIRECT) = blockAt data (dn k) NDIRECT := refs_of_alloc hk _
  rw [blockAt_direct (Nat.le_refl _)] at hrefs
  have := hok.own.marked (k, NDIRECT) (by rwa [hrefs])
  rw [hrefs, he, hfree] at this
  cases this

/-- A new block in `addrs[j]` is at one more place. -/
theorem DiskOk.refs_attachAddr (hok : DiskOk sb dn bitmap data) (hi : Alloc sb dn i) {j : Nat}
    (hj : j ≤ NDIRECT) (hzero : (dn i).addrs j = 0) (hfree : bitmap b = false) :
    refs sb (update dn i ((dn i).setAddr j b)) (update data b Block.zero) =
      update (refs sb dn data) (i, j) b := by
  have halloc : ∀ k, Alloc sb (update dn i ((dn i).setAddr j b)) k ↔ Alloc sb dn k :=
    alloc_update rfl
  funext ⟨k, q⟩
  by_cases hk : Alloc sb dn k
  · rw [refs_of_alloc ((halloc k).2 hk)]
    by_cases hki : k = i
    · subst hki
      rw [update_self]
      by_cases hq : q ≤ NDIRECT
      · rw [blockAt_direct hq]
        by_cases hqj : q = j
        · subst hqj
          simp [Dinode.setAddr]
        · rw [update_of_ne (by simp [hqj]), refs_of_alloc hk, blockAt_direct hq]
          exact update_of_ne hqj _ _
      · have hqj : (k, q) ≠ (k, j) := by
          simp only [ne_eq, Prod.mk.injEq, true_and]
          omega
        rw [update_of_ne hqj, refs_of_alloc hk]
        by_cases hjN : j = NDIRECT
        · -- the new indirect block has no entries
          subst hjN
          rw [blockAt_no_indirect (by omega) hzero]
          unfold blockAt
          rw [if_neg hq]
          simp [Dinode.setAddr]
        · have hN : ((dn k).setAddr j b).addrs NDIRECT = (dn k).addrs NDIRECT :=
            update_of_ne (Ne.symm hjN) _ _
          unfold blockAt
          rw [if_neg hq, if_neg hq]
          simp only [hN]
          split
          · next h => rw [update_of_ne (hok.indirect_ne hfree hk h.2)]
          · rfl
    · rw [update_of_ne hki, update_of_ne (by simp [hki]), refs_of_alloc hk]
      exact blockAt_congr rfl (fun h => update_of_ne (hok.indirect_ne hfree hk h) _ _)
  · have hki : k ≠ i := by
      rintro rfl
      exact hk hi
    rw [refs_of_not_alloc (fun h => hk ((halloc k).1 h)), update_of_ne (by simp [hki]),
      refs_of_not_alloc hk]

/-- `bmap` puts a new block into `addrs[j]`. -/
theorem DiskOk.attachAddr (hok : DiskOk sb dn bitmap data) (hi : Alloc sb dn i) {j : Nat}
    (hj : j ≤ NDIRECT) (hzero : (dn i).addrs j = 0) (hb : b < sb.size) (hfree : bitmap b = false) :
    DiskOk sb (update dn i ((dn i).setAddr j b)) (update bitmap b true)
      (update data b Block.zero) ∧
    Ext sb i dn (update dn i ((dn i).setAddr j b)) data
      (update data b Block.zero) := by
  have hp : refs sb dn data (i, j) = 0 := by
    rw [refs_of_alloc hi, blockAt_direct hj, hzero]
  exact hok.attach hb hfree hp (fun k hk => update_of_ne hk _ _) (by simp [Dinode.setAddr])
    (hok.refs_attachAddr hi hj hzero hfree) (fun c hc _ => update_of_ne hc _ _)

/-- `bmap` puts a new block into the indirect block. -/
theorem DiskOk.attachEntry (hok : DiskOk sb dn bitmap data) (hi : Alloc sb dn i)
    (hind : (dn i).addrs NDIRECT ≠ 0) {j : Nat} (hj : j < NINDIRECT)
    (hzero : (data ((dn i).addrs NDIRECT)).word j = 0) (hb : b < sb.size) (hfree : bitmap b = false) :
    DiskOk sb dn (update bitmap b true)
      (update (update data b Block.zero) ((dn i).addrs NDIRECT)
        ((data ((dn i).addrs NDIRECT)).setWord j b)) ∧
    Ext sb i dn dn data
      (update (update data b Block.zero) ((dn i).addrs NDIRECT)
        ((data ((dn i).addrs NDIRECT)).setWord j b)) := by
  have hN : refs sb dn data (i, NDIRECT) = (dn i).addrs NDIRECT := by
    rw [refs_of_alloc hi, blockAt_direct (Nat.le_refl _)]
  have hp : refs sb dn data (i, NDIRECT + 1 + j) = 0 := by
    rw [refs_of_alloc hi, blockAt_entry hj hind, hzero]
  have hb32 : b < 2 ^ 32 := by
    have := sb.size_lt
    omega
  refine hok.attach hb hfree hp (fun _ _ => rfl) rfl ?_ (fun c hc hnot => ?_)
  · funext ⟨k, q⟩
    by_cases hk : Alloc sb dn k
    · rw [refs_of_alloc hk]
      by_cases hki : k = i
      · subst hki
        by_cases hq : NDIRECT < q ∧ q ≤ NDIRECT + NINDIRECT
        · obtain ⟨m, rfl⟩ : ∃ m, q = NDIRECT + 1 + m := ⟨q - NDIRECT - 1, by omega⟩
          rw [blockAt_entry (by omega) hind, update_self]
          by_cases hmj : m = j
          · subst hmj
            rw [update_self]
            exact Block.word_setWord_self _ _ _ hj hb32
          · rw [Block.word_setWord_of_ne _ _ hmj, update_of_ne, refs_of_alloc hk,
              blockAt_entry (by omega) hind]
            simp only [ne_eq, Prod.mk.injEq, true_and]
            omega
        · have hne : (k, q) ≠ (k, NDIRECT + 1 + j) := by
            simp only [ne_eq, Prod.mk.injEq, true_and]
            omega
          rw [update_of_ne hne, refs_of_alloc hk]
          unfold blockAt
          split
          · rfl
          · next hq' => rw [if_neg (fun h => hq ⟨by omega, h.1⟩), if_neg (fun h => hq ⟨by omega, h.1⟩)]
      · rw [update_of_ne (by simp [hki]), refs_of_alloc hk]
        refine blockAt_congr rfl (fun h => ?_)
        have hkN : refs sb dn data (k, NDIRECT) = (dn k).addrs NDIRECT := by
          rw [refs_of_alloc hk, blockAt_direct (Nat.le_refl _)]
        have hne : (dn k).addrs NDIRECT ≠ (dn i).addrs NDIRECT := by
          intro he
          have := hok.own.inj (k, NDIRECT) (i, NDIRECT) (by rwa [hkN]) (by rw [hkN, hN, he])
          exact hki (congrArg Prod.fst this)
        rw [update_of_ne hne, update_of_ne (hok.indirect_ne hfree hk h)]
    · have hki : k ≠ i := by
        rintro rfl
        exact hk hi
      rw [refs_of_not_alloc hk, update_of_ne (by simp [hki]), refs_of_not_alloc hk]
  · rw [update_of_ne (fun he => hnot i (hN.trans he.symm)), update_of_ne hc]

end Ext

/-! ## Writing into a block of a file -/

section Write

variable {sb} {i b bn : Nat} {dn : Nat → Dinode} {bitmap : Nat → Bool} {data : Nat → Block}
  (hok : DiskOk sb dn bitmap data) (hi : Alloc sb dn i) (hb : blockAt data (dn i) (placeOf bn) = b)
  (hne : b ≠ 0)

include hok hi hb hne

/-- A block of a file is not an indirect block. -/
theorem DiskOk.not_indirect {k : Nat} (hk : Alloc sb dn k) : (dn k).addrs NDIRECT ≠ b := by
  intro he
  have hR : refs sb dn data (i, placeOf bn) = b := by rw [refs_of_alloc hi, hb]
  have hkN : refs sb dn data (k, NDIRECT) = b := by
    rw [refs_of_alloc hk, blockAt_direct (Nat.le_refl _), he]
  have := hok.own.inj (i, placeOf bn) (k, NDIRECT) (by rwa [hR]) (by rw [hR, hkN])
  exact placeOf_ne_NDIRECT bn (congrArg Prod.snd this)

/-- Writing into a block of a file moves no block. -/
theorem DiskOk.blockAt_write (blk : Block) {k : Nat} (hk : Alloc sb dn k) (p : Nat) :
    blockAt (update data b blk) (dn k) p = blockAt data (dn k) p :=
  blockAt_congr rfl (fun _ => update_of_ne (hok.not_indirect hi hb hne hk) _ _)

theorem DiskOk.refs_write (blk : Block) :
    refs sb dn (update data b blk) = refs sb dn data := by
  funext ⟨k, p⟩
  by_cases hk : Alloc sb dn k
  · rw [refs_of_alloc hk, refs_of_alloc hk, hok.blockAt_write hi hb hne blk hk]
  · rw [refs_of_not_alloc hk, refs_of_not_alloc hk]

theorem DiskOk.write (blk : Block) : DiskOk sb dn bitmap (update data b blk) := by
  refine ⟨hok.refs_write hi hb hne blk ▸ hok.own, fun k hk n hn => ?_, hok.size_le⟩
  rw [hok.blockAt_write hi hb hne blk hk]
  exact hok.filled k hk n hn

/-- A byte after the write: of the block, or as before. -/
theorem DiskOk.byteAt_write (blk : Block) {k : Nat} (hk : Alloc sb dn k) (n : Nat) :
    byteAt (update data b blk) (dn k) n =
      if k = i ∧ n / BSIZE = bn then blk.get (n % BSIZE) else byteAt data (dn k) n := by
  unfold byteAt
  rw [hok.blockAt_write hi hb hne blk hk]
  split
  · next h =>
      obtain ⟨rfl, rfl⟩ := h
      rw [hb, update_self]
  · next h =>
      have hneb : blockAt data (dn k) (placeOf (n / BSIZE)) ≠ b := by
        intro he
        have hR : refs sb dn data (i, placeOf bn) = b := by rw [refs_of_alloc hi, hb]
        have hkR : refs sb dn data (k, placeOf (n / BSIZE)) = b := by rw [refs_of_alloc hk, he]
        have := hok.own.inj (k, placeOf (n / BSIZE)) (i, placeOf bn) (by rwa [hkR])
          (by rw [hR, hkR])
        exact h ⟨congrArg Prod.fst this, placeOf_inj (congrArg Prod.snd this)⟩
      rw [update_of_ne hneb]

/-- The other files are unchanged. -/
theorem DiskOk.content_write (blk : Block) {k : Nat} (hk : Alloc sb dn k) (hki : k ≠ i) :
    content (update data b blk) (dn k) = content data (dn k) := by
  unfold content
  refine List.map_congr_left (fun n _ => ?_)
  rw [hok.byteAt_write hi hb hne blk hk n, if_neg (fun h => hki h.1)]

end Write

end Xv6.Fs
