import Mathlib.Data.Finset.Card
import Xv6.Fs.LogRoom
import Xv6.Fs.Raw

set_option autoImplicit false

/-! # The blocks of one transaction

`filewrite` cuts a write into chunks so that each fits the `MAXOPBLOCKS` blocks which `begin_op`
reserves. The number of different blocks that `writei` logs is bounded by a charge for each block of
the chunk: the block itself and one of the free map, and once for the inode and for the indirect
block. The bound holds for any contents of the free map, also when `balloc` gives out a block that is
in use. -/

namespace Xv6.Fs.Raw

open Wp Function

variable (sb : Superblock)

/-! ## The charge -/

/-- The different blocks logged, with those that the indirect block at `ind` can still add: itself,
    and the block of the free map when it is not there yet. -/
def charge (logged : List Nat) (ind : Nat) : Nat :=
  logged.toFinset.card + if ind = 0 then 2 else if ind ∈ logged then 0 else 1

section Charge

variable {l : List Nat} {b ind : Nat}

theorem card_cons_le (l : List Nat) (b : Nat) :
    (b :: l).toFinset.card ≤ l.toFinset.card + 1 := by
  rw [List.toFinset_cons]
  exact Finset.card_insert_le b l.toFinset

theorem card_le_charge (l : List Nat) (ind : Nat) : l.toFinset.card ≤ charge l ind :=
  Nat.le_add_right _ _

theorem charge_nil_le (ind : Nat) : charge [] ind ≤ 2 := by
  unfold charge
  split
  · exact Nat.le_refl _
  · exact Nat.le_succ _

theorem charge_cons_le (l : List Nat) (b ind : Nat) : charge (b :: l) ind ≤ charge l ind + 1 := by
  have hcard := card_cons_le l b
  unfold charge
  by_cases h0 : ind = 0
  · rw [if_pos h0, if_pos h0]
    omega
  · rw [if_neg h0, if_neg h0]
    by_cases hm : ind ∈ l
    · rw [if_pos hm, if_pos (List.mem_cons_of_mem b hm)]
      omega
    · rw [if_neg hm]
      split <;> omega

theorem charge_cons_of_mem (h : b ∈ l) : charge (b :: l) ind = charge l ind := by
  have hset : (b :: l).toFinset = l.toFinset := by
    rw [List.toFinset_cons, Finset.insert_eq_self, List.mem_toFinset]
    exact h
  have hmem : ind ∈ b :: l ↔ ind ∈ l := by
    rw [List.mem_cons, or_iff_right_iff_imp]
    rintro rfl
    exact h
  unfold charge
  simp only [hset, hmem]

/-- Logging the indirect block is paid for. -/
theorem charge_cons_indirect (h0 : ind ≠ 0) : charge (ind :: l) ind ≤ charge l ind := by
  by_cases hm : ind ∈ l
  · rw [charge_cons_of_mem hm]
  · have hcard := card_cons_le l ind
    unfold charge
    rw [if_neg h0, if_neg h0, if_neg hm, if_pos List.mem_cons_self]
    exact hcard

/-- So is attaching it. -/
theorem charge_attach (m : Nat) (h0 : b ≠ 0) : charge (b :: m :: l) b ≤ charge l 0 := by
  have h1 := card_cons_le (m :: l) b
  have h2 := card_cons_le l m
  unfold charge
  rw [if_neg h0, if_pos List.mem_cons_self, if_pos rfl]
  omega

end Charge

/-- The charge of the log and the inode. -/
def Image.charge (s : Image) : Nat := Raw.charge s.logged (s.ip.addrs NDIRECT)

/-- A block is found for at most `c`, its own `log_write` included. -/
def Image.Within (s : Image) (c addr : Nat) (s' : Image) : Prop :=
  s'.charge ≤ s.charge + c ∧
    (addr ≠ 0 → Raw.charge (addr :: s'.logged) (s'.ip.addrs NDIRECT) ≤ s.charge + c)

section Steps

variable {sb} {s : Image} {E : Stop → Prop}

theorem Image.within_of_le {s' : Image} {c addr : Nat}
    (h : Raw.charge (addr :: s'.logged) (s'.ip.addrs NDIRECT) ≤ s.charge + c)
    (h' : s'.charge ≤ s.charge + c) : s.Within c addr s' :=
  ⟨h', fun _ => h⟩

/-- The block number 0 stands for a failure. -/
theorem Image.within_zero {s' : Image} {c : Nat} (h : s'.charge ≤ s.charge + c) :
    s.Within c 0 s' :=
  ⟨h, fun h0 => absurd rfl h0⟩

/-- `balloc` logs the block of the free map and the new block, which may be number 0. -/
theorem wp_balloc {Q : Nat → Image → Prop} (hnone : Q 0 s)
    (hsome : ∀ b m disk, Q b { s with disk := disk, logged := b :: m :: s.logged }) :
    wp (balloc sb) Q E s := by
  unfold balloc
  rw [wp_bind, wp_get]
  cases (List.range sb.size).find? (fun b => !bit (s.disk (BBLOCK sb b)) (b % BPB)) with
  | none => exact hnone
  | some b => exact hsome b _ _

/-- The charge of a block that `balloc` gave out. -/
theorem charge_allocated (l : List Nat) (b m ind : Nat) :
    charge (b :: m :: l) ind ≤ charge l ind + 2 := by
  have h1 := charge_cons_le (m :: l) b ind
  have h2 := charge_cons_le l m ind
  omega

theorem wp_addrOrAlloc {i : Nat} {Q : Nat → Image → Prop}
    (hthere : s.ip.addrs i ≠ 0 → Q (s.ip.addrs i) s)
    (hfail : ∀ s', s'.charge ≤ s.charge + 2 → Q 0 s')
    (hnew : s.ip.addrs i = 0 → ∀ b m disk, b ≠ 0 →
      Q b { s with disk := disk, ip := s.ip.setAddr i b, logged := b :: m :: s.logged }) :
    wp (addrOrAlloc sb i) Q E s := by
  unfold addrOrAlloc
  rw [wp_bind, wp_get, wp_ite]
  refine ⟨fun h0 => ?_, fun h0 => hthere h0⟩
  rw [wp_bind]
  refine wp_balloc ?_ (fun b m disk => ?_)
  · rw [if_pos rfl]
    exact hfail s (Nat.le_add_right _ _)
  · rw [wp_ite]
    refine ⟨fun hb => hfail _ (charge_allocated _ b m _), fun hb => hnew h0 b m disk hb⟩

/-- An entry of the indirect block. -/
theorem wp_indirectEntry {s₁ : Image} {ind j : Nat} (hind : ind ≠ 0)
    (hip : s₁.ip.addrs NDIRECT = ind) (hc : s₁.charge ≤ s.charge) :
    wp (do
      let s ← get
      let a := s.disk ind
      if a.word j = 0 then do
        let addr ← balloc sb
        if addr = 0 then pure 0
        else do
          logWrite ind (a.setWord j addr)
          pure addr
      else pure (a.word j)) (s.Within 2) E s₁ := by
  rw [wp_bind, wp_get, wp_ite]
  refine ⟨fun _ => ?_, fun _ => ?_⟩
  · rw [wp_bind]
    refine wp_balloc ?_ (fun b m disk => ?_)
    · rw [if_pos rfl]
      exact Image.within_zero (by omega)
    · have halloc := charge_allocated s₁.logged b m (s₁.ip.addrs NDIRECT)
      have hs₁ : Raw.charge s₁.logged (s₁.ip.addrs NDIRECT) ≤ s.charge := hc
      rw [wp_ite]
      refine ⟨fun _ => Image.within_zero ?_, fun _ => ?_⟩
      · exact Nat.le_trans halloc (Nat.add_le_add_right hs₁ 2)
      · have hlog : Raw.charge (ind :: b :: m :: s₁.logged) (s₁.ip.addrs NDIRECT) ≤ s.charge + 2 := by
          rw [hip] at halloc hs₁ ⊢
          have hpaid : Raw.charge (ind :: b :: m :: s₁.logged) ind ≤ _ := charge_cons_indirect hind
          omega
        refine Image.within_of_le ?_ hlog
        show Raw.charge (b :: ind :: b :: m :: s₁.logged) (s₁.ip.addrs NDIRECT) ≤ s.charge + 2
        rwa [charge_cons_of_mem (List.mem_cons_of_mem _ List.mem_cons_self)]
  · have hcons := charge_cons_le s₁.logged ((s₁.disk ind).word j) (s₁.ip.addrs NDIRECT)
    have hs₁ : Raw.charge s₁.logged (s₁.ip.addrs NDIRECT) ≤ s.charge := hc
    exact Image.within_of_le (by omega) (by omega)

/-- A block of the file costs two: itself, and a block of the free map. -/
theorem wp_bmap {bn : Nat} (hbn : bn < NDIRECT + NINDIRECT) : wp (bmap sb bn) (s.Within 2) E s := by
  unfold bmap
  rw [wp_ite]
  refine ⟨fun hdir => ?_, fun hdir => ?_⟩
  · refine wp_addrOrAlloc (fun _ => ?_) (fun s' h' => Image.within_zero h')
      (fun _ b m disk _ => ?_)
    · exact Image.within_of_le (Nat.le_succ_of_le (charge_cons_le ..)) (Nat.le_add_right _ _)
    · have hsame : (s.ip.setAddr bn b).addrs NDIRECT = s.ip.addrs NDIRECT :=
        update_of_ne (Nat.ne_of_gt hdir) ..
      have halloc : Raw.charge (b :: m :: s.logged) ((s.ip.setAddr bn b).addrs NDIRECT) ≤
          s.charge + 2 := by
        rw [hsame]
        exact charge_allocated ..
      refine Image.within_of_le ?_ halloc
      rwa [charge_cons_of_mem List.mem_cons_self]
  · rw [wp_ite]
    refine ⟨fun hind => ?_, fun hind => absurd hbn ?_⟩
    · rw [wp_bind]
      refine wp_addrOrAlloc (fun h0 => ?_) (fun s' h' => ?_) (fun h0 b m disk hb => ?_)
      · rw [if_neg h0]
        exact wp_indirectEntry h0 rfl (Nat.le_refl _)
      · rw [if_pos rfl]
        exact Image.within_zero h'
      · rw [if_neg hb]
        have hset : (s.ip.setAddr NDIRECT b).addrs NDIRECT = b := by
          show update s.ip.addrs NDIRECT b NDIRECT = b
          rw [update_self]
        refine wp_indirectEntry hb hset ?_
        show Raw.charge (b :: m :: s.logged) ((s.ip.setAddr NDIRECT b).addrs NDIRECT) ≤
          Raw.charge s.logged (s.ip.addrs NDIRECT)
        rw [hset, h0]
        exact charge_attach m hb
    · omega

/-- A block that is there already costs one. -/
theorem wp_bmap_filled {bn : Nat} (hbn : bn < NDIRECT + NINDIRECT)
    (hfilled : blockAt s.disk s.ip (placeOf bn) ≠ 0) : wp (bmap sb bn) (s.Within 1) E s := by
  have hone : ∀ addr, s.Within 1 addr s := fun addr =>
    Image.within_of_le (charge_cons_le ..) (Nat.le_succ _)
  unfold bmap
  rw [wp_ite]
  refine ⟨fun hdir => ?_, fun hdir => ?_⟩
  · rw [placeOf_direct hdir, blockAt_direct (Nat.le_of_lt hdir)] at hfilled
    unfold addrOrAlloc
    rw [wp_bind, wp_get, if_neg hfilled]
    exact hone _
  · rw [placeOf, if_neg hdir] at hfilled
    have h0 : s.ip.addrs NDIRECT ≠ 0 := by
      intro h0
      exact hfilled (blockAt_no_indirect (by omega) h0)
    have hj : bn - NDIRECT < NINDIRECT := by omega
    have hentry : (s.disk (s.ip.addrs NDIRECT)).word (bn - NDIRECT) ≠ 0 := by
      rw [← blockAt_entry hj h0]
      have hplace : NDIRECT + 1 + (bn - NDIRECT) = bn + 1 := by omega
      rwa [hplace]
    rw [if_pos hj, wp_bind]
    unfold addrOrAlloc
    rw [wp_bind, wp_get, if_neg h0, wp_pure, if_neg h0, wp_bind, wp_get, if_neg hentry]
    exact hone _

/-! ## Chunks -/

theorem blocksOf_le (off : Nat) {n : Nat} (hn : n ≤ writeMax) :
    blocksOf off n ≤ 4 ∧ (off % BSIZE = 0 → blocksOf off n ≤ 3) := by
  have hmax : n ≤ 3072 := hn
  have hlt : off % 1024 < 1024 := Nat.mod_lt _ (by decide)
  unfold blocksOf
  simp only [BSIZE]
  split
  · omega
  · omega

variable {src : Nat → Option UInt8} {n rounds tot off : Nat}

/-- A round of the loop, when its block is found for at most `c`. -/
theorem wp_writeiRound {c : Nat} {Q : Nat × Nat → Image → Prop} (htot : tot < n)
    (hbmap : wp (bmap sb (off / BSIZE)) (s.Within c) E s)
    (hstop : ∀ r s', s'.charge ≤ s.charge + c → Q r s')
    (hnext : ∀ s', s'.charge ≤ s.charge + c → wp (writeiLoop sb src n rounds
      (tot + min (n - tot) (BSIZE - off % BSIZE)) (off + min (n - tot) (BSIZE - off % BSIZE)))
        Q E s') :
    wp (writeiLoop sb src n (rounds + 1) tot off) Q E s := by
  rw [writeiLoop, if_pos htot, wp_bind]
  refine hbmap.mono (fun addr s₁ hw => ?_) (fun _ he => he)
  rw [wp_ite]
  refine ⟨fun _ => hstop _ s₁ hw.1, fun haddr => ?_⟩
  rw [wp_bind, wp_get]
  generalize eitherCopyin src tot (min (n - tot) (BSIZE - off % BSIZE)) = copied
  rw [wp_ite]
  refine ⟨fun _ => ?_, fun _ => ?_⟩
  · exact hnext _ (hw.2 haddr)
  · exact hstop _ _ hw.1

theorem wp_writeiLoop (hrounds : n - tot < rounds)
    (hfit : off + (n - tot) ≤ (NDIRECT + NINDIRECT) * BSIZE) :
    wp (writeiLoop sb src n rounds tot off)
      (fun _ s' => s'.charge ≤ s.charge + 2 * blocksOf off (n - tot)) E s := by
  induction rounds generalizing tot off s with
  | zero => omega
  | succ rounds ih =>
    by_cases htot : tot < n
    · have hb := blocksOf_round off (Nat.sub_pos_of_lt htot)
      have hmod : off % BSIZE < BSIZE := Nat.mod_lt _ (by decide)
      generalize hm : min (n - tot) (BSIZE - off % BSIZE) = m at hb
      have hm0 : 0 < m := by omega
      have hbn : off / BSIZE < NDIRECT + NINDIRECT :=
        Nat.div_lt_of_lt_mul (by rw [Nat.mul_comm]; omega)
      refine wp_writeiRound htot (wp_bmap hbn) (fun _ s' h' => by omega) (fun s' h' => ?_)
      rw [hm]
      refine (ih (by omega) (by omega)).mono (fun _ s'' h'' => ?_) (fun _ he => he)
      rw [Nat.sub_add_eq] at h''
      omega
    · rw [writeiLoop, if_neg htot]
      exact Nat.le_add_right _ _

/-- The loop when the first block is there already. -/
theorem wp_writeiLoop_filled (hn : 0 < n) (hfit : off + n ≤ (NDIRECT + NINDIRECT) * BSIZE)
    (hfilled : blockAt s.disk s.ip (placeOf (off / BSIZE)) ≠ 0) :
    wp (writeiLoop sb src n (n + 1) 0 off)
      (fun _ s' => s'.charge + 1 ≤ s.charge + 2 * blocksOf off n) E s := by
  have hb := blocksOf_round off hn
  have hbn : off / BSIZE < NDIRECT + NINDIRECT :=
    Nat.div_lt_of_lt_mul (by rw [Nat.mul_comm]; omega)
  refine wp_writeiRound hn (wp_bmap_filled hbn hfilled) (fun _ s' h' => by omega) (fun s' h' => ?_)
  rw [Nat.sub_zero, Nat.zero_add]
  have hmod : off % BSIZE < BSIZE := Nat.mod_lt _ (by decide)
  generalize hm : min n (BSIZE - off % BSIZE) = m at hb
  refine (wp_writeiLoop (by omega) (by omega)).mono (fun _ s'' h'' => ?_) (fun _ he => he)
  omega

end Steps

/-- One chunk fits one reservation, whatever is in the free map. -/
theorem writei_fits_reservation {disk : Nat → Block} {ip : Dinode} {off n : Nat} (inum : Nat)
    (src : Nat → Option UInt8)
    (hfilled : ∀ bn, bn * BSIZE < ip.size → blockAt disk ip (placeOf bn) ≠ 0)
    (hoff : off ≤ ip.size) (hn : n ≤ writeMax) :
    ∃ r s', writei sb src off n { disk := disk, ip := ip, inum := inum, logged := [] } =
      .ok (r, s') ∧ s'.logged.toFinset.card ≤ MAXOPBLOCKS := by
  generalize hs : ({ disk := disk, ip := ip, inum := inum, logged := [] } : Image) = s
  have hstart : s.charge ≤ 2 := by
    rw [← hs]
    exact charge_nil_le _
  have hlogged : s.logged.toFinset.card ≤ MAXOPBLOCKS := by
    rw [← hs]
    exact Nat.zero_le _
  have hwp : wp (writei sb src off n)
      (fun _ s' => s'.logged.toFinset.card ≤ MAXOPBLOCKS) (fun _ => False) s := by
    unfold writei
    rw [wp_bind, wp_get, wp_ite, wp_ite]
    refine ⟨fun _ => hlogged, fun hwrap => ⟨fun _ => hlogged, fun hbig => ?_⟩⟩
    have hfit : off + n ≤ (NDIRECT + NINDIRECT) * BSIZE := by
      have hmod : (off + n) % 2 ^ 32 = off + n := by
        have : n ≤ 3072 := hn
        omega
      rw [hmod] at hbig
      exact Nat.le_of_not_lt hbig
    -- an unaligned chunk starts in a block that is there
    have hloop : wp (writeiLoop sb src n (n + 1) 0 off)
        (fun _ s' => s'.logged.toFinset.card + 1 ≤ MAXOPBLOCKS) (fun _ => False) s := by
      obtain ⟨h4, h3⟩ := blocksOf_le off hn
      by_cases hcase : n = 0 ∨ off % BSIZE = 0
      · refine (wp_writeiLoop (by omega) hfit).mono (fun _ s' h' => ?_) (fun _ he => he)
        have hcard := card_le_charge s'.logged (s'.ip.addrs NDIRECT)
        have hblocks : blocksOf off n ≤ 3 := by
          rcases hcase with h0 | h0
          · rw [h0]
            exact Nat.zero_le _
          · exact h3 h0
        have h' : Raw.charge s'.logged (s'.ip.addrs NDIRECT) ≤ s.charge + 2 * blocksOf off n := h'
        show _ ≤ 10
        omega
      · have hstarted : off / BSIZE * BSIZE < ip.size := by
          have := Nat.div_add_mod' off BSIZE
          omega
        have hfirst : blockAt s.disk s.ip (placeOf (off / BSIZE)) ≠ 0 := by
          rw [← hs]
          exact hfilled _ hstarted
        refine (wp_writeiLoop_filled (by omega) hfit hfirst).mono (fun _ s' h' => ?_)
          (fun _ he => he)
        have hcard := card_le_charge s'.logged (s'.ip.addrs NDIRECT)
        have h' : Raw.charge s'.logged (s'.ip.addrs NDIRECT) + 1 ≤ s.charge + 2 * blocksOf off n := h'
        show _ ≤ 10
        omega
    rw [wp_bind]
    refine hloop.mono (fun r s' h' => ?_) (fun _ he => he)
    exact Nat.le_trans (card_cons_le _ _) h'
  exact hwp.exists_ok

/-- Three bytes at the end of the root directory. -/
theorem writei_fits_reservation_root :
    ∃ r s', writei tinySb (fun _ => some 0) 32 3
      { disk := tinyData, ip := rootDinode, inum := ROOTINO, logged := [] } = .ok (r, s') ∧
      s'.logged.toFinset.card ≤ MAXOPBLOCKS := by
  refine writei_fits_reservation tinySb ROOTINO _ (fun bn hbn => ?_) (by decide) (by decide)
  have hdisk : DiskOk tinySb tinyDinode tinyBitmap tinyData := tiny_diskOk
  exact hdisk.filled ROOTINO tiny_alloc_root bn hbn

end Xv6.Fs.Raw
