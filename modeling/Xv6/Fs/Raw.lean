import Mathlib.Algebra.Ring.Nat
import Mathlib.Data.List.Find
import Xv6.Fs.Boot
import Xv6.Lib.Simulation

set_option autoImplicit false

/-! # Writing on the blocks of the disk

For the code a disk is an array of blocks, with the free map in some of them and the inodes in
others. `Xv6.Fs.State` has the regions of the disk as data of their own. Here are `writei` and what it
calls on numbered blocks, with the numbers of the blocks passed to `log_write`; `Stores` says when the
blocks hold the regions, and `writei` on the regions is matched by `writei` on the blocks. The log has
no end here: the panics of `log_write` are on the side of the regions. -/

namespace Xv6.Fs.Raw

open Wp Function

variable (sb : Superblock)

/-! ## `writei` on the blocks of the disk -/

/-- The disk, the locked inode, and the block numbers passed to `log_write`, the last one first. -/
structure Image where
  disk : Nat → Block
  ip : Dinode
  inum : Nat
  logged : List Nat

abbrev RawM : Type → Type := StateT Image (Except Stop)

/-- `bp->data[bi/8] & (1 << (bi % 8))`. -/
def bit (blk : Block) (bi : Nat) : Bool := (blk.get (bi / 8)).toNat.testBit (bi % 8)

/-- `bp->data[bi/8] |= 1 << (bi % 8)`. -/
def setBit (blk : Block) (bi : Nat) : Block :=
  blk.splice (bi / 8) 1 fun _ => UInt8.ofNat ((blk.get (bi / 8)).toNat ||| 2 ^ (bi % 8))

/-- Change the buffer of a block. -/
def store (b : Nat) (blk : Block) : RawM Unit :=
  modify fun s => { s with disk := update s.disk b blk }

/-- Change the buffer of a block and `log_write` it. -/
def logWrite (b : Nat) (blk : Block) : RawM Unit :=
  modify fun s => { s with disk := update s.disk b blk, logged := b :: s.logged }

/-- Zero a block. -/
def bzero (b : Nat) : RawM Unit := logWrite b Block.zero

/-- Allocate a zeroed disk block; 0 if out of disk space. -/
def balloc : RawM Nat := do
  let s ← get
  match (List.range sb.size).find? (fun b => !bit (s.disk (BBLOCK sb b)) (b % BPB)) with
  | some b => do
    logWrite (BBLOCK sb b) (setBit (s.disk (BBLOCK sb b)) (b % BPB))
    bzero b
    pure b
  | none => pure 0

/-- `ip->addrs[i]`, allocating a block if there is none; 0 if out of disk space. -/
def addrOrAlloc (i : Nat) : RawM Nat := do
  let s ← get
  if s.ip.addrs i = 0 then do
    let addr ← balloc sb
    if addr = 0 then pure 0
    else do
      modify fun s => { s with ip := s.ip.setAddr i addr }
      pure addr
  else pure (s.ip.addrs i)

/-- The disk block address of the `bn`th block of the inode, allocating one if there is none. -/
def bmap (bn : Nat) : RawM Nat :=
  if bn < NDIRECT then addrOrAlloc sb bn
  else if bn - NDIRECT < NINDIRECT then do
    let ind ← addrOrAlloc sb NDIRECT
    if ind = 0 then pure 0
    else do
      let s ← get
      let a := s.disk ind
      if a.word (bn - NDIRECT) = 0 then do
        let addr ← balloc sb
        if addr = 0 then pure 0
        else do
          logWrite ind (a.setWord (bn - NDIRECT) addr)
          pure addr
      else pure (a.word (bn - NDIRECT))
  else throw (.panic .bmapOutOfRange)

/-- The number that stands for a type on the disk. -/
def typeCode : FileType → Int
  | .free => 0
  | .dir => 1
  | .file => 2
  | .device => 3

/-- A `short` in memory. -/
def halfBytes (x : Int) : List UInt8 :=
  (List.range 2).map fun j => UInt8.ofNat ((x % 2 ^ 16).toNat / 256 ^ j)

/-- A `uint` in memory. -/
def wordBytes (x : Nat) : List UInt8 := (List.range 4).map fun j => UInt8.ofNat (x / 256 ^ j)

/-- A `struct dinode` in memory. -/
def dinodeBytes (d : Dinode) : List UInt8 :=
  [typeCode d.type, d.major, d.minor, d.nlink].flatMap halfBytes ++ wordBytes d.size ++
    (List.range (NDIRECT + 1)).flatMap fun j => wordBytes (d.addrs j)

/-- Copy a modified in-memory inode to disk. -/
def iupdate : RawM Unit := do
  let s ← get
  logWrite (IBLOCK sb s.inum)
    (overwrite (s.disk (IBLOCK sb s.inum)) (s.inum % IPB * 64) (dinodeBytes s.ip))

/-- The loop of `writei`. -/
def writeiLoop (src : Nat → Option UInt8) (n : Nat) : Nat → Nat → Nat → RawM (Nat × Nat)
  | 0, _, _ => throw .outside
  | rounds + 1, tot, off =>
    if tot < n then do
      let addr ← bmap sb (off / BSIZE)
      if addr = 0 then pure (tot, off)
      else do
        let s ← get
        let m := min (n - tot) (BSIZE - off % BSIZE)
        let (bytes, ok) := eitherCopyin src tot m
        if ok then do
          logWrite addr (overwrite (s.disk addr) (off % BSIZE) bytes)
          writeiLoop src n rounds (tot + m) (off + m)
        else do
          -- what was copied before the failure stays in the buffer
          store addr (overwrite (s.disk addr) (off % BSIZE) bytes)
          pure (tot, off)
    else pure (tot, off)

/-- Write data to the inode. -/
def writei (src : Nat → Option UInt8) (off n : Nat) : RawM Int := do
  let s ← get
  if off > s.ip.size ∨ (off + n) % 2 ^ 32 < off then pure (-1)
  else if (off + n) % 2 ^ 32 > MAXFILE * BSIZE then pure (-1)
  else do
    let (tot, off) ← writeiLoop sb src n (n + 1) 0 off
    modify fun s => { s with ip := { s.ip with size := if off > s.ip.size then off else s.ip.size } }
    iupdate sb
    pure tot

/-! ## The regions of the disk -/

/-- The blocks hold the data, the free map and the inodes, the inode in memory is that at `ip`, and the
    same blocks are in the log. -/
structure Stores (sb : Superblock) (ip : InodeId) (s : State) (t : Image) : Prop where
  data : ∀ b, sb.dataStart ≤ b → b < sb.size → t.disk b = s.data b
  bits : ∀ b, b < sb.size → bit (t.disk (BBLOCK sb b)) (b % BPB) = s.bitmap b
  inodes : ∀ i, i < sb.ninodes →
    slice (t.disk (IBLOCK sb i)) (i % IPB * 64) 64 = dinodeBytes (s.dinode i)
  inode : t.ip = (s.itable ip).toDinode
  inum : t.inum = (s.itable ip).inum
  log : ∀ blocks, s.log = some blocks → ∀ b, b ∈ blocks ↔ b ∈ t.logged

section Regions

variable {sb} {ip : InodeId} {s : State} {t : Image}

theorem BBLOCK_lt {b : Nat} (hb : b < sb.size) : BBLOCK sb b < sb.dataStart := by
  have h1 : b / BPB ≤ sb.size / BPB := Nat.div_le_div_right (Nat.le_of_lt hb)
  unfold BBLOCK Superblock.dataStart
  omega

theorem IBLOCK_lt {i : Nat} (hi : i < sb.ninodes) :
    IBLOCK sb i < sb.bmapstart ∧ sb.bmapstart < sb.dataStart := by
  have h1 : i / IPB ≤ sb.ninodes / IPB := Nat.div_le_div_right (Nat.le_of_lt hi)
  have h2 := sb.inodes_fit
  unfold IBLOCK
  exact ⟨by omega, Nat.lt_add_of_pos_right (Nat.succ_pos _)⟩

theorem IBLOCK_ne_BBLOCK {i : Nat} (hi : i < sb.ninodes) (b : Nat) : IBLOCK sb i ≠ BBLOCK sb b := by
  have h1 := IBLOCK_lt hi
  have h2 : sb.bmapstart ≤ BBLOCK sb b := Nat.le_add_left _ _
  omega

theorem bit_setBit (blk : Block) {bi bj : Nat} (hi : bi < BPB) (hj : bj < BPB) :
    bit (setBit blk bi) bj = if bj = bi then true else bit blk bj := by
  have hi' : bi / 8 < BSIZE := Nat.div_lt_of_lt_mul hi
  have hj' : bj / 8 < BSIZE := Nat.div_lt_of_lt_mul hj
  have hlt : (blk.get (bi / 8)).toNat ||| 2 ^ (bi % 8) < 2 ^ 8 :=
    Nat.or_lt_two_pow (blk.get (bi / 8)).toNat_lt
      (Nat.pow_lt_pow_right (by decide) (Nat.mod_lt _ (by decide)))
  unfold bit setBit
  rw [Block.get_splice _ _ _ _ _ hj']
  split
  · rw [UInt8.toNat_ofNat', Nat.mod_eq_of_lt hlt, Nat.testBit_or, Nat.testBit_two_pow,
      show bj / 8 = bi / 8 by omega]
    split <;> simp <;> omega
  · rw [if_neg (by rintro rfl; omega)]

/-- A data block is in no other region. -/
theorem Stores.withBlock (h : Stores sb ip s t) {b : Nat} (hb : sb.dataStart ≤ b) (blk : Block) :
    Stores sb ip (s.withBlock b blk) { t with disk := update t.disk b blk } := by
  refine ⟨fun b' h1 h2 => ?_, fun b' h2 => ?_, fun i hi => ?_, h.inode, h.inum, h.log⟩ <;>
    simp only [State.withBlock, update_apply]
  · split
    · rfl
    · exact h.data b' h1 h2
  · have := BBLOCK_lt h2
    rw [if_neg (by omega), h.bits b' h2]
  · have := IBLOCK_lt hi
    rw [if_neg (by omega), h.inodes i hi]

theorem Stores.withBit (h : Stores sb ip s t) {b : Nat} (hb : b < sb.size) :
    Stores sb ip (s.withBit b true)
      { t with disk := update t.disk (BBLOCK sb b)
                 (setBit (t.disk (BBLOCK sb b)) (b % BPB)) } := by
  refine ⟨fun b' h1 h2 => ?_, fun b' h2 => ?_, fun i hi => ?_, h.inode, h.inum, h.log⟩ <;>
    simp only [State.withBit, update_apply]
  · have := BBLOCK_lt hb
    rw [if_neg (by omega), h.data b' h1 h2]
  · have hmod : ∀ k, k % BPB < BPB := fun k => Nat.mod_lt k (by decide)
    rw [← h.bits b' h2]
    by_cases hblk : BBLOCK sb b' = BBLOCK sb b
    · rw [if_pos hblk, bit_setBit _ (hmod b) (hmod b'), hblk]
      have h1 := Nat.div_add_mod b BPB
      have h2 := Nat.div_add_mod b' BPB
      unfold BBLOCK at hblk
      rw [show b' / BPB = b / BPB by omega] at h2
      exact if_congr (by omega) rfl rfl
    · rw [if_neg hblk, if_neg (fun he => hblk (by rw [he]))]
  · rw [if_neg (IBLOCK_ne_BBLOCK hi b), h.inodes i hi]

theorem slice_overwrite (blk : Block) {i j : Nat} (hj : j < IPB) (d : Dinode) :
    slice (overwrite blk (i * 64) (dinodeBytes d)) (j * 64) 64 =
      if j = i then dinodeBytes d else slice blk (j * 64) 64 := by
  have hlen : (dinodeBytes d).length = 64 := rfl
  have hmax : IPB * 64 = BSIZE := rfl
  split
  · next hji =>
    refine List.ext_getElem (by simp [slice, hlen]) fun k h1 h2 => ?_
    simp only [slice, List.getElem_map, List.getElem_range, overwrite]
    rw [Block.get_splice_in _ _ _ _ _ (by omega) (by omega) (by omega), hji, Nat.add_sub_cancel_left]
    simp [List.getD, h2]
  · refine List.map_congr_left fun k hk => Block.get_splice_out _ _ _ _ _ ?_
    rw [List.mem_range] at hk
    omega

theorem Stores.withDinode (h : Stores sb ip s t) {i : Nat} (hi : i < sb.ninodes) (d : Dinode) :
    Stores sb ip (s.withDinode i d)
      { t with disk := update t.disk (IBLOCK sb i)
                 (overwrite (t.disk (IBLOCK sb i)) (i % IPB * 64) (dinodeBytes d)) } := by
  refine ⟨fun b h1 h2 => ?_, fun b h2 => ?_, fun j hj => ?_, h.inode, h.inum, h.log⟩ <;>
    simp only [State.withDinode, update_apply]
  · have := IBLOCK_lt hi
    rw [if_neg (by omega), h.data b h1 h2]
  · rw [if_neg (IBLOCK_ne_BBLOCK hi b).symm, h.bits b h2]
  · by_cases hblk : IBLOCK sb j = IBLOCK sb i
    · rw [if_pos hblk, slice_overwrite _ (Nat.mod_lt j (by decide)), ← hblk, h.inodes j hj,
        apply_ite dinodeBytes]
      have h1 := Nat.div_add_mod i IPB
      have h2 := Nat.div_add_mod j IPB
      unfold IBLOCK at hblk
      rw [show j / IPB = i / IPB by omega] at h2
      exact if_congr (by omega) rfl rfl
    · rw [if_neg hblk, if_neg (fun he => hblk (by rw [he])), h.inodes j hj]

/-- The inode in memory changes on both sides. -/
theorem Stores.withInode (h : Stores sb ip s t) (d : Dinode) :
    Stores sb ip (s.withInode ip { s.itable ip with toDinode := d }) { t with ip := d } :=
  ⟨h.data, h.bits, h.inodes, by simp [State.withInode], by simp [State.withInode, h.inum],
    h.log⟩

/-! ## `writei` -/

/-- A change of the disk with its `log_write`. -/
theorem sim_log {f : State → State} {disk : Nat → Block} {b : Nat}
    (h : Stores sb ip (f s) { t with disk := disk }) {g : Image → Image}
    (hg : g t = { t with disk := disk, logged := b :: t.logged }) :
    sim (Stores sb ip) (do
      modify f
      logBlock b) (modify g) s t := by
  have hlogged : ∀ blocks, (f s).log = some blocks → ∀ c, c ∈ blocks ↔ c ∈ t.logged := h.log
  show wp (logBlock b) (fun _ s' => ∃ t', _ ∧ Stores sb ip s' t') (fun _ => True) (f s)
  unfold logBlock
  rw [wp_bind, wp_get]
  split
  · trivial
  · next blocks hblocks =>
      rw [wp_ite, wp_ite]
      refine ⟨fun _ => trivial, fun _ => ⟨fun hb => ⟨g t, rfl, ?_⟩, fun _ => ⟨g t, rfl, ?_⟩⟩⟩
      all_goals
        rw [hg]
        refine ⟨h.data, h.bits, h.inodes, h.inode, h.inum, fun l hl c => ?_⟩
      · have := hlogged l hl c
        rw [hblocks] at hl
        cases hl
        grind
      · cases hl
        have := hlogged blocks hblocks c
        grind

theorem sim_logWrite (h : Stores sb ip s t) (b : Nat) (blk : Block) :
    sim (Stores sb ip) (Fs.logWrite sb b blk) (logWrite b blk) s t := by
  unfold Fs.logWrite Fs.store
  split
  · next hb => exact sim_log (h.withBlock hb.1 blk) rfl
  · exact sim_throw _

theorem sim_bread {α : Type} {f : Block → FsM α} {g : Image → RawM α} {b : Nat}
    (hf : sb.dataStart ≤ b → b < sb.size → sim (Stores sb ip) (f (s.data b)) (g t) s t) :
    sim (Stores sb ip) (Fs.bread sb b >>= f) (get >>= g) s t := by
  unfold Fs.bread
  split
  · next hb => exact hf hb.1 hb.2
  · exact sim_throw _

theorem sim_balloc (h : Stores sb ip s t) :
    sim (Stores sb ip) (Fs.balloc sb) (balloc sb) s t := by
  have hfind : (List.range sb.size).find? (fun b => !bit (t.disk (BBLOCK sb b)) (b % BPB)) =
      (List.range sb.size).find? (fun b => !s.bitmap b) :=
    List.find?_congr (fun b hb => by rw [h.bits b (List.mem_range.1 hb)])
  unfold Fs.balloc balloc
  refine sim_get ?_
  rw [hfind]
  cases hb : (List.range sb.size).find? (fun b => !s.bitmap b) with
  | none => exact sim_pure 0 h
  | some b =>
    have hlt : b < sb.size := List.mem_range.1 (List.mem_of_find?_eq_some hb)
    exact sim_assoc (sim_bind (sim_log (h.withBit hlt) rfl) (fun _ _ _ h₁ =>
      sim_bind (sim_logWrite h₁ b Block.zero) (fun _ _ _ h₂ => sim_pure b h₂)))

theorem sim_getInode {α : Type} {f : Inode → FsM α} {g : Image → RawM α}
    (h : sim (Stores sb ip) (f (s.itable ip)) (g t) s t) :
    sim (Stores sb ip) (getInode ip >>= f) (get >>= g) s t := h

theorem sim_addrOrAlloc (h : Stores sb ip s t) (i : Nat) :
    sim (Stores sb ip) (Fs.addrOrAlloc (Writer.kernel sb) ip i) (addrOrAlloc sb i) s t := by
  unfold Fs.addrOrAlloc addrOrAlloc
  refine sim_getInode ?_
  rw [h.inode]
  refine sim_ite (fun _ => sim_bind (sim_balloc h) (fun addr _ _ h₁ => ?_))
    (fun _ => sim_pure _ h)
  refine sim_ite (fun _ => sim_pure 0 h₁) (fun _ => sim_bind (sim_modify ?_)
    (fun _ _ _ h₂ => sim_pure addr h₂))
  rw [h₁.inode]
  exact h₁.withInode _

theorem sim_bmap (h : Stores sb ip s t) (bn : Nat) :
    sim (Stores sb ip) (Fs.bmap sb ip bn) (bmap sb bn) s t := by
  unfold Fs.bmap bmapWith bmap
  refine sim_ite (fun _ => sim_addrOrAlloc h bn) (fun _ => sim_ite (fun _ => ?_)
    (fun _ => sim_throw _))
  refine sim_bind (sim_addrOrAlloc h NDIRECT) (fun ind _ _ h₁ => sim_ite (fun _ => sim_pure 0 h₁)
    (fun _ => sim_bread (fun hlo hhi => ?_)))
  dsimp only
  rw [h₁.data ind hlo hhi]
  refine sim_ite (fun _ => sim_bind (sim_balloc h₁) (fun addr _ _ h₂ => ?_))
    (fun _ => sim_pure _ h₁)
  exact sim_ite (fun _ => sim_pure 0 h₂) (fun _ => sim_bind (sim_logWrite h₂ _ _)
    (fun _ _ _ h₃ => sim_pure addr h₃))

theorem sim_writeiLoop (src : Nat → Option UInt8) (n : Nat) {rounds tot off : Nat}
    (h : Stores sb ip s t) :
    sim (Stores sb ip) (Fs.writeiLoop sb ip src n rounds tot off)
      (writeiLoop sb src n rounds tot off) s t := by
  induction rounds generalizing tot off s t with
  | zero => exact sim_throw _
  | succ rounds ih =>
    rw [Fs.writeiLoop, writeiLoop]
    refine sim_ite (fun _ => sim_bind (sim_bmap h _) (fun addr _ _ h₁ => ?_))
      (fun _ => sim_pure _ h)
    refine sim_ite (fun _ => sim_pure _ h₁) (fun _ => sim_bread (fun hlo hhi => ?_))
    dsimp only
    rw [h₁.data addr hlo hhi]
    generalize eitherCopyin src tot (min (n - tot) (BSIZE - off % BSIZE)) = copied
    obtain ⟨bytes, ok⟩ := copied
    cases ok with
    | true =>
      exact sim_assoc (sim_bind (sim_logWrite h₁ _ _) (fun _ _ _ h₂ => ih h₂))
    | false =>
      exact sim_bind (sim_check (fun hb => sim_modify (h₁.withBlock hb.1 _)))
        (fun _ _ _ h₂ => sim_pure _ h₂)

theorem sim_iupdate (h : Stores sb ip s t) :
    sim (Stores sb ip) (Fs.iupdate sb ip) (iupdate sb) s t := by
  unfold Fs.iupdate iupdate
  refine sim_getInode ?_
  rw [h.inode, h.inum]
  exact sim_check (fun hi => sim_log (h.withDinode hi _) rfl)

/-- `writei` on the regions is `writei` on the blocks that hold them. -/
theorem sim_writei (src : Nat → Option UInt8) (off n : Nat) (h : Stores sb ip s t) :
    sim (Stores sb ip) (Fs.writei sb ip src off n) (writei sb src off n) s t := by
  unfold Fs.writei writei
  refine sim_getInode ?_
  rw [h.inode]
  refine sim_ite (fun _ => sim_pure _ h) (fun _ => sim_ite (fun _ => sim_pure _ h) (fun _ => ?_))
  refine sim_bind (sim_writeiLoop src n h) (fun r _ _ h₁ => ?_)
  refine sim_bind (sim_modify ?_) (fun _ _ _ h₂ => sim_bind (sim_iupdate h₂)
    (fun _ _ _ h₃ => sim_pure _ h₃))
  rw [h₁.inode]
  exact h₁.withInode _

/-- In a transaction, an inode without blocks on a disk on which all data blocks are free. -/
def emptyState : State :=
  (blank (fun _ => .fresh .free) (fun b => decide (b < 4)) fun _ => Block.zero).withLog (some [])

def emptyImage : Image :=
  { disk := update (fun _ => Block.zero) 3 (Block.zero.splice 0 1 fun _ => 15),
    ip := .fresh .free, inum := 0, logged := [] }

theorem stores_empty : Stores tinySb rootSlot emptyState emptyImage := by
  refine ⟨fun b hlo _ => ?_, ?_, ?_, rfl, rfl, ?_⟩
  · have hb : b ≠ 3 := Nat.ne_of_gt hlo
    show update (fun _ => Block.zero) 3 _ b = Block.zero
    rw [update_of_ne hb]
  · show ∀ b, b < 16 → _
    decide +kernel
  · show ∀ i, i < 8 → _
    decide +kernel
  · intro blocks hlog b
    cases hlog
    rfl

/-- Three bytes are written. -/
theorem sim_writei_zeros :
    ∃ s' t', Fs.writei tinySb rootSlot (fun _ => some 7) 0 3 emptyState = .ok (3, s') ∧
      writei tinySb (fun _ => some 7) 0 3 emptyImage = .ok (3, t') ∧
      Stores tinySb rootSlot s' t' := by
  have hany : (Fs.writei tinySb rootSlot (fun _ => some 7) 0 3 emptyState).toOption.any
      (fun x => decide (x.1 = 3)) = true := by decide +kernel
  obtain ⟨⟨r, s'⟩, hs', hr⟩ := exists_ok_of_any hany
  obtain rfl : r = 3 := of_decide_eq_true hr
  obtain ⟨t', ht', hstores⟩ := (sim_writei (fun _ => some 7) 0 3 stores_empty).of_ok hs'
  exact ⟨s', t', hs', ht', hstores⟩

end Regions

end Xv6.Fs.Raw
