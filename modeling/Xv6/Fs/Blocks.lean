import Xv6.Fs.Layout
import Xv6.Lib.Wp

set_option autoImplicit false

/-! # Allocating and freeing the blocks of an inode

What `balloc`, `bmap` and `itrunc` do to a disk in order. While `bmap` and `itrunc` work, the copy of
the inode in memory is ahead of the one on disk; the disk is in order with the copy in memory put in
its place (`State.flush`), which is what `iupdate` does at the end. -/

namespace Xv6.Fs

open Wp Function

variable {sb : Superblock} {E : Stop → Prop} {s s' : State} {ip : InodeId} {b bn i : Nat}
  {Q : Unit → State → Prop}

/-- The panics of `log_write` are among the errors. -/
class LogErrs (E : Stop → Prop) : Prop where
  tooBig : E (.panic .tooBig)
  outsideOfTrans : E (.panic .outsideOfTrans)

instance : LogErrs fun _ => True := ⟨trivial, trivial⟩

/-- The panics of `log_write`. -/
def LogPanic (x : Stop) : Prop := x = .panic .tooBig ∨ x = .panic .outsideOfTrans

instance : LogErrs LogPanic := ⟨.inl rfl, .inr rfl⟩

/-- The inodes on disk, with the copy in memory of one of them. -/
def State.flush (s : State) (ip : InodeId) : Nat → Dinode :=
  update s.dinode (s.itable ip).inum (s.itable ip).toDinode

/-- The places of all inodes, with the copy in memory of one of them. -/
def State.places (sb : Superblock) (s : State) (ip : InodeId) : Nat × Nat → Nat :=
  refs sb (s.flush ip) s.data

/-- The disk is in order with the copy in memory of an allocated inode. -/
structure Ready (sb : Superblock) (s : State) (ip : InodeId) : Prop where
  disk : DiskOk sb (s.flush ip) s.bitmap s.data
  alloc : Alloc sb (s.flush ip) (s.itable ip).inum

/-- Blocks have been given to the inode, and nothing else has changed. -/
structure Grown (sb : Superblock) (s s' : State) (ip : InodeId) : Prop where
  ready : Ready sb s' ip
  ext : Ext sb (s.itable ip).inum (s.flush ip) (s'.flush ip) s.data s'.data
  frame : s' = { s with bitmap := s'.bitmap, data := s'.data, log := s'.log,
                        itable := update s.itable ip (s'.itable ip) }
  slot : s'.itable ip = { s.itable ip with addrs := (s'.itable ip).addrs }

@[simp] theorem flush_self (s : State) (ip : InodeId) :
    s.flush ip (s.itable ip).inum = (s.itable ip).toDinode := by
  simp [State.flush]

theorem flush_setAddr (s : State) (ip : InodeId) (j b : Nat) :
    (s.withInode ip (setAddr j b (s.itable ip))).flush ip =
      update (s.flush ip) (s.itable ip).inum
        ((s.flush ip (s.itable ip).inum).setAddr j b) := by
  simp [State.flush, setAddr]

theorem Grown.refl (h : Ready sb s ip) : Grown sb s s ip :=
  ⟨h, Ext.refl _ _ _, by rw [update_eq_self], rfl⟩

theorem Grown.inum (h : Grown sb s s' ip) :
    (s'.itable ip).inum = (s.itable ip).inum := by
  rw [h.slot]

theorem Grown.trans {s'' : State} (h : Grown sb s s' ip) (h' : Grown sb s' s'' ip) :
    Grown sb s s'' ip := by
  refine ⟨h'.ready, h.ext.trans (h.inum ▸ h'.ext), ?_, ?_⟩
  · rw [h'.frame, h.frame]
    simp
  · rw [h'.slot, h.slot]

/-! ## Finding a block -/

theorem wp_bread {Q : Block → State → Prop} (hb : sb.dataStart ≤ b ∧ b < sb.size)
    (hQ : Q (s.data b) s) : wp (bread sb b) Q E s := by
  unfold bread
  rw [if_pos hb]
  exact hQ

theorem wp_store {blk : Block} (hb : sb.dataStart ≤ b ∧ b < sb.size) (hQ : Q () (s.withBlock b blk)) :
    wp (store sb b blk) Q E s := by
  unfold store
  rw [if_pos hb]
  exact hQ

@[simp] theorem wp_getInode {Q : Inode → State → Prop} :
    wp (getInode ip) Q E s ↔ Q (s.itable ip) s := Iff.rfl

@[simp] theorem wp_setInode {f : Inode → Inode} :
    wp (setInode ip f) Q E s ↔ Q () (s.withInode ip (f (s.itable ip))) := Iff.rfl

/-- A block of the inode is a data block. -/
theorem Ready.block_range (h : Ready sb s ip) {p : Nat}
    (hp : blockAt s.data (s.itable ip).toDinode p = b) (hb : b ≠ 0) :
    sb.dataStart ≤ b ∧ b < sb.size := by
  have hR : refs sb (s.flush ip) s.data ((s.itable ip).inum, p) = b := by
    rw [refs_of_alloc h.alloc, flush_self, hp]
  exact hR ▸ h.disk.own.range _ (by rwa [hR])

theorem placeOf_direct (h : bn < NDIRECT) : placeOf bn = bn := if_pos h

theorem placeOf_entry (h : ¬ bn < NDIRECT) :
    placeOf bn = NDIRECT + 1 + (bn - NDIRECT) := by
  rw [placeOf, if_neg h]
  omega

theorem addrOrAlloc_found {w : Writer} (hne : (s.itable ip).addrs i ≠ 0) :
    addrOrAlloc w ip i s = .ok ((s.itable ip).addrs i, s) := by
  refine wp.eq_ok ?_
  unfold addrOrAlloc
  rw [wp_bind, wp_getInode, wp_ite]
  exact ⟨fun h => absurd h hne, fun _ => (wp_pure _).2 ⟨rfl, rfl⟩⟩

/-- A block that is there is found. -/
theorem bmapWith_found {w : Writer} (h : Ready sb s ip)
    (hne : blockAt s.data (s.itable ip).toDinode (placeOf bn) ≠ 0) :
    bmapWith sb w ip bn s =
      .ok (blockAt s.data (s.itable ip).toDinode (placeOf bn), s) := by
  unfold bmapWith
  by_cases hbn : bn < NDIRECT
  · rw [placeOf_direct hbn, blockAt_direct (Nat.le_of_lt hbn)] at hne ⊢
    rw [if_pos hbn]
    exact addrOrAlloc_found hne
  · have hplace := placeOf_entry hbn
    have hj : bn - NDIRECT < NINDIRECT := by
      by_contra hj
      exact hne (blockAt_beyond (by rw [hplace]; omega))
    have hind : (s.itable ip).addrs NDIRECT ≠ 0 := by
      intro h0
      exact hne (blockAt_no_indirect (by rw [hplace]; omega) h0)
    rw [hplace, blockAt_entry hj hind] at hne ⊢
    rw [if_neg hbn, if_pos hj, bind_of_ok (addrOrAlloc_found hind), if_neg hind]
    refine wp.eq_ok ?_
    rw [wp_bind]
    refine wp_bread (h.block_range (blockAt_direct (Nat.le_refl NDIRECT)) hind) ?_
    rw [wp_ite]
    exact ⟨fun h0 => absurd h0 hne, fun _ => (wp_pure _).2 ⟨rfl, rfl⟩⟩

variable [LogErrs E]

/-! ## `log_write`, `balloc`, `bfree` -/

theorem wp_logBlock (hQ : ∀ log, Q () (s.withLog log)) : wp (logBlock b) Q E s := by
  unfold logBlock
  rw [wp_bind, wp_get]
  split
  · exact LogErrs.outsideOfTrans
  · rw [wp_ite, wp_ite]
    exact ⟨fun _ => LogErrs.tooBig, fun _ => ⟨fun _ => hQ s.log, fun _ => hQ _⟩⟩

theorem wp_logWrite {blk : Block} (hb : sb.dataStart ≤ b ∧ b < sb.size)
    (hQ : ∀ log, Q () ((s.withBlock b blk).withLog log)) : wp (logWrite sb b blk) Q E s := by
  unfold logWrite
  rw [wp_bind]
  exact wp_store hb (wp_logBlock hQ)

/-- `balloc` marks and zeroes a free block, or all blocks are in use. -/
theorem wp_balloc {Q : Nat → State → Prop} (hres : ∀ b, b < sb.dataStart → s.bitmap b = true)
    (hnone : (∀ b, b < sb.size → s.bitmap b = true) → Q 0 s)
    (hsome : ∀ b log, b ≠ 0 → b < sb.size → s.bitmap b = false →
      Q b (((s.withBit b true).withBlock b Block.zero).withLog log)) :
    wp (balloc sb) Q E s := by
  unfold balloc
  simp only [wp_bind, wp_get]
  split
  · next b hb =>
      have hfree : s.bitmap b = false := by simpa using List.find?_some hb
      have hlt : b < sb.size := List.mem_range.1 (List.mem_of_find?_eq_some hb)
      have hdata : sb.dataStart ≤ b := by
        by_contra hlt'
        rw [hres b (by omega)] at hfree
        cases hfree
      have hpos := sb.dataStart_pos
      simp only [wp_bind, wp_modify]
      refine wp_logBlock (fun _ => wp_logWrite ⟨hdata, hlt⟩ (fun log => ?_))
      exact hsome b log (by omega) hlt hfree
  · next hb =>
      refine hnone (fun b hlt => ?_)
      simpa using List.find?_eq_none.1 hb b (List.mem_range.2 hlt)

/-- `bfree` of a block that is in use. -/
theorem wp_bfree (hb : b < sb.size) (hmark : s.bitmap b = true)
    (hQ : ∀ log, Q () ((s.withBit b false).withLog log)) : wp (bfree sb b) Q E s := by
  unfold bfree
  simp only [wp_bind, wp_get]
  rw [if_pos hb, if_neg (by rw [hmark]; simp), wp_bind, wp_modify]
  exact wp_logBlock hQ

/-! ## `bmap` -/

theorem wp_addrOrAlloc {j : Nat} (h : Ready sb s ip) (hj : j ≤ NDIRECT) {Q : Nat → State → Prop}
    (hold : (s.itable ip).addrs j ≠ 0 → Q ((s.itable ip).addrs j) s)
    (hnone : (s.itable ip).addrs j = 0 → (∀ b, b < sb.size → s.bitmap b = true) → Q 0 s)
    (hnew : ∀ b s', (s.itable ip).addrs j = 0 → b ≠ 0 → Grown sb s s' ip →
      (∀ k, k ≠ ((s.itable ip).inum, j) → s'.places sb ip k = s.places sb ip k) →
      (s'.itable ip).addrs j = b → Q b s') :
    wp (addrOrAlloc (.kernel sb) ip j) Q E s := by
  unfold addrOrAlloc
  simp only [wp_bind, wp_getInode, wp_ite]
  refine ⟨fun hzero => ?_, fun hne => hold hne⟩
  refine wp_balloc h.disk.own.reserved (fun hfull => ?_) (fun b log hb0 hb hfree => ?_)
  · exact ⟨fun _ => hnone hzero hfull, fun hne => absurd rfl hne⟩
  · refine ⟨fun he => absurd he hb0, fun _ => ?_⟩
    simp only [wp_setInode, wp_pure]
    have hzero' : (s.flush ip (s.itable ip).inum).addrs j = 0 := by
      rw [flush_self]
      exact hzero
    obtain ⟨hok, hext⟩ := h.disk.attachAddr h.alloc hj hzero' hb hfree
    refine hnew b _ hzero hb0 ⟨⟨?_, ?_⟩, ?_, ?_, ?_⟩ (fun k hk => ?_) ?_
    · rw [flush_setAddr]
      exact hok
    · rw [flush_setAddr]
      simp only [State.withInode_itable, update_self]
      exact (hext.alloc _).2 h.alloc
    · rw [flush_setAddr]
      exact hext
    · simp [State.withInode, State.withBlock, State.withBit, State.withLog]
    · simp [setAddr, Dinode.setAddr]
    · unfold State.places
      rw [flush_setAddr]
      exact (congrFun (h.disk.refs_attachAddr h.alloc hj hzero' hfree) k).trans
        (update_of_ne hk _ _)
    · simp [setAddr, Dinode.setAddr]

/-- The second half of `bmap` for a block behind the indirect block. -/
theorem wp_bmapEntry {j : Nat} (h : Ready sb s ip) (hj : j < NINDIRECT)
    (hind : (s.itable ip).addrs NDIRECT ≠ 0) {Q : Nat → State → Prop}
    (hold : blockAt s.data (s.itable ip).toDinode (NDIRECT + 1 + j) ≠ 0 →
      Q (blockAt s.data (s.itable ip).toDinode (NDIRECT + 1 + j)) s)
    (hnone : blockAt s.data (s.itable ip).toDinode (NDIRECT + 1 + j) = 0 →
      (∀ b, b < sb.size → s.bitmap b = true) → Q 0 s)
    (hnew : ∀ b s', blockAt s.data (s.itable ip).toDinode (NDIRECT + 1 + j) = 0 → b ≠ 0 →
      Grown sb s s' ip → blockAt s'.data (s'.itable ip).toDinode (NDIRECT + 1 + j) = b → Q b s') :
    wp (do
      let a ← bread sb ((s.itable ip).addrs NDIRECT)
      if a.word j = 0 then do
        let addr ← balloc sb
        if addr = 0 then pure 0
        else do
          logWrite sb ((s.itable ip).addrs NDIRECT) (a.setWord j addr)
          pure addr
      else pure (a.word j)) Q E s := by
  have hword : blockAt s.data (s.itable ip).toDinode (NDIRECT + 1 + j) =
      (s.data ((s.itable ip).addrs NDIRECT)).word j := blockAt_entry hj hind
  have hrange := h.block_range (blockAt_direct (Nat.le_refl NDIRECT)) hind
  rw [hword] at hold hnone hnew
  rw [wp_bind]
  refine wp_bread hrange ?_
  simp only [wp_ite, wp_pure]
  refine ⟨fun hzero => ?_, hold⟩
  rw [wp_bind]
  refine wp_balloc h.disk.own.reserved (fun hfull => ?_) (fun b log hb0 hb hfree => ?_)
  · exact (wp_ite ..).2 ⟨fun _ => hnone hzero hfull, fun hne => absurd rfl hne⟩
  · rw [if_neg hb0, wp_bind]
    refine wp_logWrite hrange (fun log => ?_)
    rw [wp_pure]
    have hflush := flush_self s ip
    obtain ⟨hok, hext⟩ := h.disk.attachEntry h.alloc (by rw [hflush]; exact hind) hj
      (by rw [hflush]; exact hzero) hb hfree
    rw [hflush] at hok hext
    refine hnew b _ hzero hb0 ⟨⟨hok, h.alloc⟩, hext, ?_, rfl⟩ ?_
    · simp [State.withBlock, State.withBit, State.withLog]
    simp only [State.withLog_itable, State.withBlock_itable, State.withBit_itable, State.withLog_data]
    rw [blockAt_entry hj hind, State.withBlock_data, update_self]
    exact Block.word_setWord_self _ _ _ hj (by have := sb.size_lt; omega)

/-- `bmap` has failed for block `bn` of the inode `i`, which may have got its indirect block. -/
structure NoBlock (i bn : Nat) (u u' : Nat × Nat → Nat) : Prop where
  missing : u (i, placeOf bn) = 0
  same : ∀ k, k ≠ (i, NDIRECT) ∨ bn < NDIRECT → u' k = u k

theorem Ready.places_self (h : Ready sb s ip) (q : Nat) :
    s.places sb ip ((s.itable ip).inum, q) = blockAt s.data (s.itable ip).toDinode q := by
  rw [State.places, refs_of_alloc h.alloc, flush_self]

/-- `bmap` finds the block, gives a new one to the inode, or all blocks are in use. -/
theorem wp_bmap (h : Ready sb s ip) (hbn : bn < MAXFILE) {Q : Nat → State → Prop}
    (hold : blockAt s.data (s.itable ip).toDinode (placeOf bn) ≠ 0 →
      Q (blockAt s.data (s.itable ip).toDinode (placeOf bn)) s)
    (hnone : ∀ s', blockAt s.data (s.itable ip).toDinode (placeOf bn) = 0 → Grown sb s s' ip →
      NoBlock (s.itable ip).inum bn (s.places sb ip) (s'.places sb ip) →
      (∀ b, b < sb.size → s'.bitmap b = true) → Q 0 s')
    (hnew : ∀ b s', blockAt s.data (s.itable ip).toDinode (placeOf bn) = 0 → b ≠ 0 →
      Grown sb s s' ip → blockAt s'.data (s'.itable ip).toDinode (placeOf bn) = b → Q b s') :
    wp (bmap sb ip bn) Q E s := by
  have hnone := fun s' (hz : blockAt s.data (s.itable ip).toDinode (placeOf bn) = 0) hg hsame =>
    hnone s' hz hg ⟨(h.places_self _).trans hz, hsame⟩
  unfold bmap bmapWith
  by_cases hd : bn < NDIRECT
  · rw [if_pos hd]
    have hdirect : ∀ t : State, blockAt t.data (t.itable ip).toDinode (placeOf bn)
        = (t.itable ip).addrs bn := fun t => by
      rw [placeOf_direct hd, blockAt_direct (Nat.le_of_lt hd)]
    rw [hdirect] at hold hnone hnew
    refine wp_addrOrAlloc h (Nat.le_of_lt hd) hold (fun hzero hfull => ?_)
      (fun b s' hzero hb hg _ hs' => ?_)
    · exact hnone s hzero (Grown.refl h) (fun _ _ => rfl) hfull
    · exact hnew b s' hzero hb hg (by rw [hdirect, hs'])
  · have hj : bn - NDIRECT < NINDIRECT := by
      have : MAXFILE = NDIRECT + NINDIRECT := rfl
      omega
    rw [if_neg hd, if_pos hj, wp_bind]
    rw [placeOf_entry hd] at hold hnone hnew
    refine wp_addrOrAlloc h (Nat.le_refl _) (fun hind => ?_) (fun hzero hfull => ?_)
      (fun ind s₁ hzero hind hg hplaces hs₁ => ?_)
    · rw [if_neg hind]
      exact wp_bmapEntry h hj hind hold
        (fun hz hfull => hnone s hz (Grown.refl h) (fun _ _ => rfl) hfull) hnew
    · rw [if_pos rfl, wp_pure]
      exact hnone s (blockAt_no_indirect (by omega) hzero) (Grown.refl h) (fun _ _ => rfl) hfull
    · have hold0 : blockAt s.data (s.itable ip).toDinode (NDIRECT + 1 + (bn - NDIRECT)) = 0 :=
        blockAt_no_indirect (by omega) hzero
      rw [if_neg hind]
      subst hs₁
      refine wp_bmapEntry hg.ready hj hind (fun hne => ?_) (fun hz hfull => ?_)
        (fun b s' hz hb hg' hs' => ?_)
      · exact hnew _ s₁ hold0 hne hg rfl
      · exact hnone s₁ hold0 hg (fun k hk => hplaces k (hk.resolve_right hd)) hfull
      · exact hnew b s' hold0 hb (hg.trans hg') hs'

/-! ## `itrunc` -/

/-- Clearing a direct block number empties one place. -/
theorem refs_setAddr_direct {dn : Nat → Dinode} {data : Nat → Block} {j : Nat} (hi : Alloc sb dn i)
    (hj : j < NDIRECT) :
    refs sb (update dn i ((dn i).setAddr j 0)) data =
      update (refs sb dn data) (i, j) 0 := by
  funext ⟨k, q⟩
  have halloc : Alloc sb (update dn i ((dn i).setAddr j 0)) k ↔ Alloc sb dn k :=
    alloc_update (by rfl) k
  by_cases hkq : (k, q) = (i, j)
  · cases hkq
    rw [update_self, refs_of_alloc (halloc.2 hi), update_self,
      blockAt_direct (Nat.le_of_lt hj)]
    exact update_self ..
  · rw [update_of_ne hkq]
    by_cases hk : Alloc sb dn k
    · rw [refs_of_alloc (halloc.2 hk), refs_of_alloc hk]
      by_cases hki : k = i
      · subst hki
        have hqj : q ≠ j := fun h => hkq (by rw [h])
        have hN : ((dn k).setAddr j 0).addrs NDIRECT = (dn k).addrs NDIRECT :=
          update_of_ne (Nat.ne_of_gt hj) _ _
        rw [update_self]
        unfold blockAt
        rw [hN, show ((dn k).setAddr j 0).addrs q = (dn k).addrs q from
          update_of_ne hqj _ _]
      · rw [update_of_ne hki]
    · rw [refs_of_not_alloc (fun h => hk (halloc.1 h)), refs_of_not_alloc hk]

/-- The places of an inode without the first `m` entries of its indirect block. -/
def cleared (R : Nat × Nat → Nat) (i m : Nat) : Nat × Nat → Nat := fun q =>
  if q.1 = i ∧ NDIRECT < q.2 ∧ q.2 < NDIRECT + 1 + m then 0 else R q

theorem cleared_zero (R : Nat × Nat → Nat) (i : Nat) : cleared R i 0 = R := by
  funext q
  exact if_neg (by omega)

theorem cleared_succ (R : Nat × Nat → Nat) (i m : Nat) :
    cleared R i (m + 1) = update (cleared R i m) (i, NDIRECT + 1 + m) 0 := by
  funext ⟨k, q⟩
  by_cases hkq : (k, q) = (i, NDIRECT + 1 + m)
  · cases hkq
    rw [update_self]
    exact if_pos ⟨rfl, by omega, by omega⟩
  · rw [update_of_ne hkq]
    have hne : ¬ (k = i ∧ q = NDIRECT + 1 + m) := fun h => hkq (by rw [h.1, h.2])
    unfold cleared
    simp only
    split <;> split <;> first | rfl | omega

/-- Dropping the indirect block empties its place, when the entries are cleared. -/
theorem refs_setAddr_indirect {dn : Nat → Dinode} {data : Nat → Block} (hi : Alloc sb dn i) :
    refs sb (update dn i ((dn i).setAddr NDIRECT 0)) data =
      update (cleared (refs sb dn data) i NINDIRECT) (i, NDIRECT) 0 := by
  funext ⟨k, q⟩
  have halloc : Alloc sb (update dn i ((dn i).setAddr NDIRECT 0)) k ↔ Alloc sb dn k :=
    alloc_update (by rfl) k
  have hN : ((dn i).setAddr NDIRECT 0).addrs NDIRECT = 0 := by simp [Dinode.setAddr]
  by_cases hk : Alloc sb dn k
  · rw [refs_of_alloc (halloc.2 hk)]
    by_cases hki : k = i
    · subst hki
      rw [update_self]
      by_cases hq : NDIRECT < q
      · rw [blockAt_no_indirect hq hN, update_of_ne (by simp; omega)]
        unfold cleared
        split
        · rfl
        · rw [refs_of_alloc hk, blockAt_beyond (by omega)]
      · rw [blockAt_direct (by omega)]
        by_cases hqN : q = NDIRECT
        · subst hqN
          rw [hN, update_self]
        · rw [update_of_ne (by simp [hqN]), cleared, if_neg (by omega), refs_of_alloc hk,
            blockAt_direct (by omega)]
          exact update_of_ne hqN _ _
    · rw [update_of_ne hki, update_of_ne (by simp [hki]), cleared,
        if_neg (fun h => hki h.1), refs_of_alloc hk]
  · have hki : k ≠ i := by
      rintro rfl
      exact hk hi
    rw [refs_of_not_alloc (fun h => hk (halloc.1 h)), update_of_ne (by simp [hki]),
      cleared, if_neg (fun h => hki h.1), refs_of_not_alloc hk]

/-- What the loops of `itrunc` leave alone: all but the free map and the block numbers of the
    inode in memory. -/
structure Cutting (s s' : State) (ip : InodeId) : Prop where
  frame : s' = { s with bitmap := s'.bitmap, log := s'.log,
                        itable := update s.itable ip (s'.itable ip) }
  slot : s'.itable ip = { s.itable ip with addrs := (s'.itable ip).addrs }

theorem Cutting.refl (s : State) (ip : InodeId) : Cutting s s ip :=
  ⟨by rw [update_eq_self], rfl⟩

theorem Cutting.trans {s'' : State} (h : Cutting s s' ip) (h' : Cutting s' s'' ip) :
    Cutting s s'' ip := by
  refine ⟨?_, ?_⟩
  · rw [h'.frame, h.frame]
    simp
  · rw [h'.slot, h.slot]

theorem Cutting.data (h : Cutting s s' ip) : s'.data = s.data := by
  rw [h.frame]

theorem Cutting.alloc (h : Cutting s s' ip) (halloc : Alloc sb (s.flush ip) (s.itable ip).inum) :
    Alloc sb (s'.flush ip) (s'.itable ip).inum := by
  have hinum : (s'.itable ip).inum = (s.itable ip).inum := by rw [h.slot]
  have htype : (s'.itable ip).type = (s.itable ip).type := by rw [h.slot]
  unfold Alloc at halloc ⊢
  rw [flush_self] at halloc ⊢
  rw [hinum, htype]
  exact halloc

theorem Cutting.setAddr (s : State) (ip : InodeId) (j b : Nat) (log : Option (List Nat)) :
    Cutting s (((s.withBit b false).withLog log).withInode ip (setAddr j 0 (s.itable ip))) ip :=
  ⟨by simp [State.withInode, State.withBit, State.withLog], by simp [Fs.setAddr, Dinode.setAddr]⟩

theorem wp_truncDirect (halloc : Alloc sb (s.flush ip) (s.itable ip).inum)
    (hown : Owns sb.dataStart sb.size (s.places sb ip) s.bitmap)
    (hQ : ∀ s', Cutting s s' ip → Owns sb.dataStart sb.size (s'.places sb ip) s'.bitmap →
      (∀ j, j < NDIRECT → (s'.itable ip).addrs j = 0) → Q () s') :
    wp ((List.range NDIRECT).forM fun i => do
      let x ← getInode ip
      if x.addrs i = 0 then pure ()
      else do
        bfree sb (x.addrs i)
        setInode ip (setAddr i 0)) Q E s := by
  refine wp_forM_range (fun k s' => Cutting s s' ip ∧
    Owns sb.dataStart sb.size (s'.places sb ip) s'.bitmap ∧
    ∀ j, j < k → (s'.itable ip).addrs j = 0) ⟨Cutting.refl s ip, hown, by omega⟩ ?_
    (fun s' h => hQ s' h.1 h.2.1 h.2.2)
  rintro k s' hk ⟨hcut, hown', hzero⟩
  have halloc' := hcut.alloc halloc
  have hplace : s'.places sb ip ((s'.itable ip).inum, k) = (s'.itable ip).addrs k := by
    rw [State.places, refs_of_alloc halloc', flush_self, blockAt_direct (Nat.le_of_lt hk)]
  simp only [wp_bind, wp_getInode, wp_ite, wp_pure]
  refine ⟨fun h0 => ⟨hcut, hown', fun j hj => ?_⟩, fun hne => ?_⟩
  · rcases Nat.lt_succ_iff_lt_or_eq.1 hj with hj | rfl
    · exact hzero j hj
    · exact h0
  · have hne' : s'.places sb ip ((s'.itable ip).inum, k) ≠ 0 := by rwa [hplace]
    have hrange := hown'.range _ hne'
    have hmark := hown'.marked _ hne'
    rw [hplace] at hrange hmark
    refine wp_bfree hrange.2 hmark (fun log => ?_)
    rw [wp_setInode]
    refine ⟨hcut.trans (Cutting.setAddr s' ip k _ log), ?_, fun j hj => ?_⟩
    · have hgive := hown'.give hne'
      rw [hplace] at hgive
      rw [State.places, flush_setAddr]
      rw [State.places, ← refs_setAddr_direct halloc' hk] at hgive
      exact hgive
    · rw [State.withInode_itable, update_self]
      show update (s'.itable ip).addrs k 0 j = 0
      rcases Nat.lt_succ_iff_lt_or_eq.1 hj with hj | rfl
      · rw [update_of_ne (Nat.ne_of_lt hj), hzero j hj]
      · exact update_self ..

theorem wp_truncIndirect (halloc : Alloc sb (s.flush ip) (s.itable ip).inum)
    (hown : Owns sb.dataStart sb.size (s.places sb ip) s.bitmap)
    (hind : (s.itable ip).addrs NDIRECT ≠ 0)
    (hQ : ∀ s', Cutting s s' ip → Owns sb.dataStart sb.size (s'.places sb ip) s'.bitmap →
      (s'.itable ip).addrs = update (s.itable ip).addrs NDIRECT 0 → Q () s') :
    wp (do
      let a ← bread sb ((s.itable ip).addrs NDIRECT)
      (List.range NINDIRECT).forM fun j =>
        if a.word j = 0 then pure () else bfree sb (a.word j)
      bfree sb ((s.itable ip).addrs NDIRECT)
      setInode ip (setAddr NDIRECT 0)) Q E s := by
  have hplace : s.places sb ip ((s.itable ip).inum, NDIRECT) = (s.itable ip).addrs NDIRECT := by
    rw [State.places, refs_of_alloc halloc, flush_self, blockAt_direct (Nat.le_refl _)]
  have hrange := hown.range ((s.itable ip).inum, NDIRECT) (by rwa [hplace])
  rw [hplace] at hrange
  rw [wp_bind]
  refine wp_bread hrange ?_
  rw [wp_bind]
  -- after `m` rounds the first `m` entries are freed; the block itself is not changed
  refine wp_forM_range (fun m s' => s' = { s with bitmap := s'.bitmap, log := s'.log } ∧
    Owns sb.dataStart sb.size (cleared (s.places sb ip) (s.itable ip).inum m) s'.bitmap)
    ⟨rfl, by rwa [cleared_zero]⟩ ?_ ?_
  · rintro m s' hm ⟨hs', hown'⟩
    have hentry : cleared (s.places sb ip) (s.itable ip).inum m ((s.itable ip).inum, NDIRECT + 1 + m)
        = (s.data ((s.itable ip).addrs NDIRECT)).word m := by
      rw [cleared, if_neg (by omega), State.places, refs_of_alloc halloc, flush_self,
        blockAt_entry hm hind]
    rw [cleared_succ]
    simp only [wp_ite, wp_pure]
    refine ⟨fun h0 => ⟨hs', ?_⟩, fun hne => ?_⟩
    · rw [← h0, ← hentry, update_eq_self]
      exact hown'
    · have hne' : cleared (s.places sb ip) (s.itable ip).inum m
          ((s.itable ip).inum, NDIRECT + 1 + m) ≠ 0 := by rwa [hentry]
      have hrange' := hown'.range _ hne'
      have hmark := hown'.marked _ hne'
      have hgive := hown'.give hne'
      rw [hentry] at hrange' hmark hgive
      refine wp_bfree hrange'.2 hmark (fun log => ⟨?_, hgive⟩)
      rw [hs']
      rfl
  · rintro s' ⟨hs', hown'⟩
    have hplace' : cleared (s.places sb ip) (s.itable ip).inum NINDIRECT
        ((s.itable ip).inum, NDIRECT) = (s.itable ip).addrs NDIRECT := by
      rw [cleared, if_neg (by omega), hplace]
    have hne' : cleared (s.places sb ip) (s.itable ip).inum NINDIRECT
        ((s.itable ip).inum, NDIRECT) ≠ 0 := by rwa [hplace']
    have hmark := hown'.marked _ hne'
    have hgive := hown'.give hne'
    rw [hplace'] at hmark hgive
    rw [State.places, ← refs_setAddr_indirect halloc] at hgive
    rw [wp_bind]
    refine wp_bfree hrange.2 hmark (fun log => ?_)
    rw [wp_setInode]
    have hcut : Cutting s s' ip := ⟨by rw [hs']; simp, by rw [hs']⟩
    have hcut' := hcut.trans (Cutting.setAddr s' ip NDIRECT ((s.itable ip).addrs NDIRECT) log)
    refine hQ _ hcut' ?_ ?_
    · rw [State.places, flush_setAddr]
      rw [hs'] at hgive ⊢
      exact hgive
    · rw [hs']
      simp [setAddr, Dinode.setAddr]

/-- `itrunc` has discarded the contents of the inode. -/
structure Truncated (sb : Superblock) (s s' : State) (ip : InodeId) : Prop where
  disk : DiskOk sb s'.dinode s'.bitmap s'.data
  frame : s' = { s with bitmap := s'.bitmap, log := s'.log,
                        itable := update s.itable ip (s'.itable ip),
                        dinode := update s.dinode (s.itable ip).inum
                          (s'.itable ip).toDinode }
  slot : s'.itable ip = { s.itable ip with size := 0, addrs := (s'.itable ip).addrs }

/-- An inode with no block numbers and size 0 has the disk in order when ownership is. -/
theorem DiskOk.empty {dn dn' : Nat → Dinode} {bitmap bitmap' : Nat → Bool} {data : Nat → Block}
    (hok : DiskOk sb dn bitmap data) (hother : ∀ k, k ≠ i → dn' k = dn k) (hsize : (dn' i).size = 0)
    (hown : Owns sb.dataStart sb.size (refs sb dn' data) bitmap') :
    DiskOk sb dn' bitmap' data := by
  refine ⟨hown, fun k hk bn hbn => ?_, fun k hk => ?_⟩
  · by_cases hki : k = i
    · subst hki
      omega
    · have hdn := hother k hki
      unfold Alloc at hk
      rw [hdn] at hk hbn ⊢
      exact hok.filled k hk bn hbn
  · by_cases hki : k = i
    · subst hki
      omega
    · have hdn := hother k hki
      unfold Alloc at hk
      rw [hdn] at hk ⊢
      exact hok.size_le k hk

theorem wp_iupdate (hi : (s.itable ip).inum < sb.ninodes)
    (hQ : ∀ log, Q () ((s.withDinode (s.itable ip).inum (s.itable ip).toDinode).withLog log)) :
    wp (iupdate sb ip) Q E s := by
  unfold iupdate writeDinode
  simp only [wp_bind, wp_getInode]
  rw [if_pos hi, wp_bind, wp_modify]
  exact wp_logBlock hQ

theorem flush_setSize (s : State) (ip : InodeId) (size : Nat) :
    (s.withInode ip { s.itable ip with size := size }).flush ip =
      update (s.flush ip) (s.itable ip).inum
        { s.flush ip (s.itable ip).inum with size := size } := by
  simp [State.flush]

/-- The end of `itrunc`. -/
theorem wp_truncEnd (h : Ready sb s ip) (hcut : Cutting s s' ip)
    (hown : Owns sb.dataStart sb.size (s'.places sb ip) s'.bitmap)
    (hzero : ∀ j, j ≤ NDIRECT → (s'.itable ip).addrs j = 0)
    (hQ : ∀ s', Truncated sb s s' ip → (∀ j, j ≤ NDIRECT → (s'.itable ip).addrs j = 0) → Q () s') :
    wp (do
      setInode ip fun x => { x with size := 0 }
      iupdate sb ip) Q E s' := by
  have hinum : (s'.itable ip).inum = (s.itable ip).inum := by rw [hcut.slot]
  have hslot := hcut.slot
  rw [wp_bind, wp_setInode]
  refine wp_iupdate (by simpa [hinum] using h.alloc.2.1) (fun log => hQ _ ⟨?_, ?_, ?_⟩ ?_)
  · -- the places do not depend on the size
    have hdn : ∀ k, k ≠ (s.itable ip).inum → s'.flush ip k = s.flush ip k := by
      intro k hk
      unfold State.flush
      rw [update_of_ne (hinum ▸ hk), update_of_ne hk, hcut.frame]
    have hrefs : refs sb ((s'.withInode ip { s'.itable ip with size := 0 }).flush ip) s'.data =
        s'.places sb ip := by
      rw [flush_setSize]
      funext ⟨k, q⟩
      have halloc : Alloc sb (update (s'.flush ip) (s'.itable ip).inum
          { s'.flush ip (s'.itable ip).inum with size := 0 }) k ↔ Alloc sb (s'.flush ip) k :=
        alloc_update (by rfl) k
      unfold State.places refs
      simp only [halloc]
      by_cases hk : k = (s'.itable ip).inum
      · subst hk
        rw [update_self]
        rfl
      · rw [update_of_ne hk]
    have hflush : ((s'.withInode ip { s'.itable ip with size := 0 }).withDinode
        (s'.itable ip).inum { (s'.itable ip).toDinode with size := 0 }).dinode =
        (s'.withInode ip { s'.itable ip with size := 0 }).flush ip := by
      simp [State.flush]
    simp only [State.withInode_itable, update_self, State.withLog_dinode]
    rw [hflush]
    have hok : DiskOk sb ((s'.withInode ip { s'.itable ip with size := 0 }).flush ip) s'.bitmap
        s.data := by
      refine h.disk.empty (i := (s.itable ip).inum) (fun k hk => ?_) ?_ ?_
      · rw [flush_setSize, update_of_ne (hinum ▸ hk), hdn k hk]
      · rw [flush_setSize, ← hinum, update_self]
      · rw [← hcut.data, hrefs]
        exact hown
    rw [← hcut.data] at hok
    exact hok
  · rw [hcut.frame]
    simp [State.withInode, State.withDinode, State.withLog, hinum]
  · simp only [State.withLog_itable, State.withDinode_itable, State.withInode_itable,
      update_self]
    rw [hslot]
  · intro j hj
    simpa using hzero j hj

/-- `itrunc` never panics: each block it frees is in use. -/
theorem wp_itrunc (h : Ready sb s ip)
    (hQ : ∀ s', Truncated sb s s' ip → (∀ j, j ≤ NDIRECT → (s'.itable ip).addrs j = 0) → Q () s') :
    wp (itrunc sb ip) Q E s := by
  unfold itrunc
  rw [wp_bind]
  refine wp_truncDirect h.alloc h.disk.own (fun s₁ hcut hown hzero => ?_)
  rw [wp_bind, wp_getInode]
  dsimp only
  rw [wp_ite]
  refine ⟨fun hind => ?_, fun hind => ?_⟩
  · refine wp_truncEnd h hcut hown (fun j hj => ?_) hQ
    rcases Nat.lt_or_eq_of_le hj with hj | rfl
    · exact hzero j hj
    · exact hind
  · have hwp := wp_truncIndirect (E := E) (Q := fun _ s₂ => wp (do
        setInode ip fun x => { x with size := 0 }
        iupdate sb ip) Q E s₂) (hcut.alloc h.alloc) hown hind
      (fun s₂ hcut' hown' haddrs => wp_truncEnd h (hcut.trans hcut') hown' (fun j hj => by
        rw [haddrs]
        rcases Nat.lt_or_eq_of_le hj with hj | rfl
        · rw [update_of_ne (Nat.ne_of_lt hj), hzero j hj]
        · exact update_self ..) hQ)
    simp only [wp_bind] at hwp ⊢
    exact hwp

end Xv6.Fs
