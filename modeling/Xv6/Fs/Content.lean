import Xv6.Fs.Blocks

set_option autoImplicit false

/-! # Reading and writing the contents of an inode

`readi` and `writei` work block by block, on blocks that `bmap` finds or makes. Seen from outside an
inode is a list of bytes (`content`): `readi` gives a part of the list, `writei` overwrites a part
and may make the list longer, and `itrunc` empties it. -/

namespace Xv6.Fs

open Wp Function

variable {sb : Superblock} {E : Stop → Prop}

/-- Overwrite a list of bytes from `off` on. -/
def writeBytes (old : List UInt8) (off : Nat) (bytes : List UInt8) : List UInt8 :=
  old.take off ++ bytes ++ old.drop (off + bytes.length)

/-- The bytes `[off, off + n)` of a list, as far as there are any. -/
def readBytes (old : List UInt8) (off n : Nat) : List UInt8 := (old.drop off).take n

@[simp] theorem content_length (data : Nat → Block) (d : Dinode) :
    (content data d).length = d.size := by
  simp [content]

theorem content_getElem? (data : Nat → Block) (d : Dinode) (k : Nat) :
    (content data d)[k]? = if k < d.size then some (byteAt data d k) else none := by
  unfold content
  rw [List.getElem?_map]
  split
  · next h => rw [List.getElem?_range h]; rfl
  · next h => rw [List.getElem?_eq_none (by simpa using h)]; rfl

theorem writeBytes_getElem? {old : List UInt8} {off : Nat} (h : off ≤ old.length)
    (bytes : List UInt8) (k : Nat) :
    (writeBytes old off bytes)[k]? =
      if off ≤ k ∧ k < off + bytes.length then bytes[k - off]? else old[k]? := by
  have hlen : (old.take off).length = off := by simp [h]
  unfold writeBytes
  rw [List.append_assoc]
  by_cases hk : k < off
  · rw [List.getElem?_append_left (by omega), if_neg (by omega), List.getElem?_take_of_lt hk]
  · rw [List.getElem?_append_right (by omega), hlen]
    by_cases hk' : k < off + bytes.length
    · rw [List.getElem?_append_left (by omega), if_pos (by omega)]
    · rw [List.getElem?_append_right (by omega), if_neg (by omega), List.getElem?_drop]
      congr 1
      omega

/-! ## Positions -/

section Positions

variable {off m k bn : Nat}

/-- The blocks up to the end of a round of copying. -/
theorem block_lt_round (hm : m ≤ BSIZE - off % BSIZE) (h : bn * BSIZE < off + m) :
    bn = off / BSIZE ∨ bn * BSIZE < off := by
  simp only [BSIZE] at *
  omega

/-- A round of copying stays in one block. -/
theorem round_block (hm : m ≤ BSIZE - off % BSIZE) (h1 : off ≤ k) (h2 : k < off + m) :
    k / BSIZE = off / BSIZE := by
  simp only [BSIZE] at *
  omega

theorem round_pos {n tot : Nat} (off : Nat) (h : tot < n) :
    0 < min (n - tot) (BSIZE - off % BSIZE) := by
  simp only [BSIZE]
  omega

/-- A round ends with the bytes or at the end of a block. -/
theorem round_end (off n : Nat) :
    min n (BSIZE - off % BSIZE) = n ∨ (off + min n (BSIZE - off % BSIZE)) % BSIZE = 0 := by
  simp only [BSIZE]
  omega

/-- Where a byte of a round is in the block. -/
theorem round_index (hk : k / BSIZE = off / BSIZE) :
    (off % BSIZE ≤ k % BSIZE ∧ k % BSIZE < off % BSIZE + m) ↔ (off ≤ k ∧ k < off + m) := by
  simp only [BSIZE] at *
  omega

theorem round_sub (hk : k / BSIZE = off / BSIZE) : k % BSIZE - off % BSIZE = k - off := by
  simp only [BSIZE] at *
  omega

theorem mod_BSIZE_lt (k : Nat) : k % BSIZE < BSIZE := Nat.mod_lt _ (by decide)

theorem div_mul_BSIZE_le (k : Nat) : k / BSIZE * BSIZE ≤ k := Nat.div_mul_le_self k BSIZE

theorem div_lt_MAXFILE (h : off < MAXFILE * BSIZE) : off / BSIZE < MAXFILE := by
  exact Nat.div_lt_of_lt_mul (by rwa [Nat.mul_comm])

end Positions

/-! ## `either_copyin` -/

/-- The source can be read, and these are the bytes. -/
def Readable (src : Nat → Option UInt8) (bytes : List UInt8) : Prop :=
  ∀ k, k < bytes.length → src k = bytes[k]?

theorem eitherCopyin_of_readable {src : Nat → Option UInt8} {bytes : List UInt8}
    (h : Readable src bytes) (k m : Nat) (hk : k + m ≤ bytes.length) :
    eitherCopyin src k m = (readBytes bytes k m, true) := by
  induction m generalizing k with
  | zero => simp [eitherCopyin, readBytes]
  | succ m ih =>
    have hlt : k < bytes.length := by omega
    have hsrc : src k = some bytes[k] := by rw [h k hlt, List.getElem?_eq_getElem hlt]
    have hdrop : readBytes bytes k (m + 1) = bytes[k] :: readBytes bytes (k + 1) m := by
      unfold readBytes
      rw [List.drop_eq_getElem_cons hlt, List.take_succ_cons]
    unfold eitherCopyin
    rw [hsrc, ih (k + 1) (by omega), hdrop]

/-! ## `writei` -/

/-- Between the rounds of `writei`: blocks have been given to the inode and written, there is one
    for each byte below `fin`, and the other inodes hold what they did. -/
structure Writing (sb : Superblock) (s s' : State) (ip : InodeId) (fin : Nat) : Prop where
  ready : Ready sb s' ip
  frame : s' = { s with bitmap := s'.bitmap, data := s'.data, log := s'.log,
                        itable := update s.itable ip (s'.itable ip) }
  slot : s'.itable ip = { s.itable ip with addrs := (s'.itable ip).addrs }
  filled : ∀ bn, bn * BSIZE < fin → blockAt s'.data (s'.itable ip).toDinode (placeOf bn) ≠ 0
  other : ∀ k, k ≠ (s.itable ip).inum → Alloc sb s.dinode k →
    content s'.data (s.dinode k) = content s.data (s.dinode k)
  places : ∀ k, k.1 ≠ (s.itable ip).inum → s'.places sb ip k = s.places sb ip k
  keep : ∀ k, s.places sb ip k ≠ 0 → s'.places sb ip k = s.places sb ip k

section Writing

variable {s s' s'' : State} {ip : InodeId} {fin : Nat} {n tot off : Nat} {src : Nat → Option UInt8}

theorem flush_of_ne {k : Nat} (hk : k ≠ (s.itable ip).inum) : s.flush ip k = s.dinode k :=
  update_of_ne hk _ _

theorem alloc_flush_of_ne {k : Nat} (hk : k ≠ (s.itable ip).inum) :
    Alloc sb (s.flush ip) k ↔ Alloc sb s.dinode k := by
  unfold Alloc
  rw [flush_of_ne hk]

theorem Writing.inum (h : Writing sb s s' ip fin) :
    (s'.itable ip).inum = (s.itable ip).inum := by
  rw [h.slot]

theorem Writing.dinode (h : Writing sb s s' ip fin) : s'.dinode = s.dinode := by
  rw [h.frame]

/-- A file as long as `fin` says has its blocks already. -/
theorem Writing.refl (h : Ready sb s ip) (hfin : fin ≤ (s.itable ip).size) :
    Writing sb s s ip fin := by
  refine ⟨h, by rw [update_eq_self], rfl, fun bn hbn => ?_, fun _ _ _ => rfl,
    fun _ _ => rfl, fun _ _ => rfl⟩
  have := h.disk.filled _ h.alloc bn (by rw [flush_self]; omega)
  rwa [flush_self] at this

theorem Writing.grow (h : Writing sb s s' ip fin) (hg : Grown sb s' s'' ip) :
    Writing sb s s'' ip fin := by
  refine ⟨hg.ready, ?_, ?_, fun bn hbn => ?_, fun k hk halloc => ?_,
    fun k hk => (hg.ext.places k (h.inum ▸ hk)).trans (h.places k hk),
    fun k hk => (hg.ext.keep k (by rw [← h.keep k hk] at hk; exact hk)).trans (h.keep k hk)⟩
  · rw [hg.frame, h.frame]
    simp
  · rw [hg.slot, h.slot]
  · have hne := h.filled bn hbn
    have hkeep := hg.ext.keep ((s'.itable ip).inum, placeOf bn)
    rw [refs_of_alloc h.ready.alloc, refs_of_alloc ((hg.ext.alloc _).2 h.ready.alloc), flush_self,
      ← hg.inum, flush_self] at hkeep
    rwa [hkeep hne]
  · have hk' : k ≠ (s'.itable ip).inum := h.inum ▸ hk
    have hk'' : k ≠ (s''.itable ip).inum := hg.inum ▸ hk'
    have hcontent := hg.ext.content_eq h.ready.disk
      ((alloc_flush_of_ne hk').2 (by rwa [h.dinode]))
    have hdn : s''.dinode = s'.dinode := by rw [hg.frame]
    rw [flush_of_ne hk', flush_of_ne hk'', hdn, h.dinode] at hcontent
    rw [hcontent, h.other k hk halloc]

theorem Writing.withLog (h : Writing sb s s' ip fin) (log : Option (List Nat)) :
    Writing sb s (s'.withLog log) ip fin :=
  ⟨⟨h.ready.disk, h.ready.alloc⟩, congrArg (State.withLog · log) h.frame, h.slot, h.filled, h.other,
    h.places, h.keep⟩

theorem Writing.store {bn b : Nat} (h : Writing sb s s' ip fin)
    (hb : blockAt s'.data (s'.itable ip).toDinode (placeOf bn) = b) (hne : b ≠ 0) (blk : Block) :
    Writing sb s (s'.withBlock b blk) ip fin := by
  have hb' : blockAt s'.data (s'.flush ip (s'.itable ip).inum) (placeOf bn) = b := by
    rwa [flush_self]
  have hsame : (s'.withBlock b blk).places sb ip = s'.places sb ip :=
    h.ready.disk.refs_write h.ready.alloc hb' hne blk
  refine ⟨⟨h.ready.disk.write h.ready.alloc hb' hne blk, h.ready.alloc⟩, ?_, h.slot,
    fun n hn => ?_, fun k hk halloc => ?_, by rw [hsame]; exact h.places, by rw [hsame]; exact h.keep⟩
  · rw [h.frame]
    simp [State.withBlock]
  · have := h.ready.disk.blockAt_write h.ready.alloc hb' hne blk h.ready.alloc (placeOf n)
    rw [flush_self] at this
    rw [State.withBlock_data, State.withBlock_itable, this]
    exact h.filled n hn
  · have hk' : k ≠ (s'.itable ip).inum := h.inum ▸ hk
    have := h.ready.disk.content_write h.ready.alloc hb' hne blk
      ((alloc_flush_of_ne hk').2 (by rwa [h.dinode])) hk'
    rw [flush_of_ne hk', h.dinode] at this
    rw [State.withBlock_data, this, h.other k hk halloc]

/-- There is a block for each byte up to the end of the round. -/
theorem Writing.fill {m : Nat} (h : Writing sb s s' ip off) (hm : m ≤ BSIZE - off % BSIZE)
    (hne : blockAt s'.data (s'.itable ip).toDinode (placeOf (off / BSIZE)) ≠ 0) :
    Writing sb s s' ip (off + m) := by
  refine { h with filled := fun bn hbn => ?_ }
  rcases block_lt_round hm hbn with rfl | hlt
  · exact hne
  · exact h.filled bn hlt

/-- The first `tot` bytes have been copied to `off`, and the rest of the file is as it was. -/
def Copied (bytes : List UInt8) (s s' : State) (ip : InodeId) (off tot : Nat) : Prop :=
  ∀ k, (k < (s.itable ip).size ∨ k < off + tot) →
    byteAt s'.data (s'.itable ip).toDinode k =
      if off ≤ k ∧ k < off + tot then bytes.getD (k - off) 0
      else byteAt s.data (s.itable ip).toDinode k

/-- A byte of a block that was there before `bmap` is unchanged by it. -/
theorem Grown.byteAt_eq (hg : Grown sb s s' ip) (h : Ready sb s ip) {k : Nat}
    (hk : blockAt s.data (s.itable ip).toDinode (placeOf (k / BSIZE)) ≠ 0) :
    byteAt s'.data (s'.itable ip).toDinode k = byteAt s.data (s.itable ip).toDinode k := by
  have := hg.ext.byteAt_eq h.alloc (n := k) (by rwa [flush_self])
  rwa [← hg.inum, flush_self, hg.inum, flush_self] at this

/-- A byte after a round of copying. -/
theorem Ready.byteAt_store {b : Nat} (h : Ready sb s ip)
    (hb : blockAt s.data (s.itable ip).toDinode (placeOf (off / BSIZE)) = b) (hne : b ≠ 0)
    (bytes : List UInt8) (hm : bytes.length ≤ BSIZE - off % BSIZE) (k : Nat) :
    byteAt (s.withBlock b (overwrite (s.data b) (off % BSIZE) bytes)).data (s.itable ip).toDinode k =
      if off ≤ k ∧ k < off + bytes.length then bytes.getD (k - off) 0
      else byteAt s.data (s.itable ip).toDinode k := by
  have hwrite := h.disk.byteAt_write h.alloc (by rwa [flush_self]) hne
    (overwrite (s.data b) (off % BSIZE) bytes) h.alloc k
  rw [flush_self] at hwrite
  rw [State.withBlock_data, hwrite]
  by_cases hk : k / BSIZE = off / BSIZE
  · rw [if_pos ⟨rfl, hk⟩, overwrite, Block.get_splice _ _ _ _ _ (mod_BSIZE_lt k), round_sub hk]
    simp only [round_index hk]
    split
    · rfl
    · rw [byteAt, hk, hb]
  · rw [if_neg (fun h => hk h.2), if_neg (fun h => hk (round_block hm h.1 h.2))]

/-- A byte of the file has a block. -/
theorem Writing.block_ne (hw : Writing sb s s' ip fin) {k : Nat}
    (hk : k < (s.itable ip).size ∨ k < fin) :
    blockAt s'.data (s'.itable ip).toDinode (placeOf (k / BSIZE)) ≠ 0 := by
  have hdiv := div_mul_BSIZE_le k
  rcases hk with hk | hk
  · have := hw.ready.disk.filled _ hw.ready.alloc (k / BSIZE)
    rw [flush_self] at this
    exact this (by rw [hw.slot]; exact Nat.lt_of_le_of_lt hdiv hk)
  · exact hw.filled _ (Nat.lt_of_le_of_lt hdiv hk)

theorem Copied.grow {bytes : List UInt8} (h : Copied bytes s s' ip off tot)
    (hw : Writing sb s s' ip (off + tot)) (hg : Grown sb s' s'' ip) :
    Copied bytes s s'' ip off tot := by
  intro k hk
  rw [hg.byteAt_eq hw.ready (hw.block_ne hk), h k hk]

/-- One round of copying. -/
theorem Copied.store {bytes : List UInt8} {m b : Nat} (h : Copied bytes s s' ip off tot)
    (hready : Ready sb s' ip)
    (hb : blockAt s'.data (s'.itable ip).toDinode (placeOf ((off + tot) / BSIZE)) = b) (hne : b ≠ 0)
    (hm : m ≤ BSIZE - (off + tot) % BSIZE) (hlen : tot + m ≤ bytes.length) :
    Copied bytes s (s'.withBlock b (overwrite (s'.data b) ((off + tot) % BSIZE)
      (readBytes bytes tot m))) ip off (tot + m) := by
  have hmlen : (readBytes bytes tot m).length = m := by
    simp only [readBytes, List.length_take, List.length_drop]
    omega
  intro k hk
  have hstore := hready.byteAt_store hb hne (readBytes bytes tot m) (by rwa [hmlen]) k
  rw [hmlen] at hstore
  rw [State.withBlock_itable, hstore]
  by_cases hin : off + tot ≤ k ∧ k < off + tot + m
  · rw [if_pos hin, if_pos (by omega)]
    simp only [readBytes, List.getD_eq_getElem?_getD]
    rw [List.getElem?_take_of_lt (by omega), List.getElem?_drop]
    congr 2
    omega
  · rw [if_neg hin, h k (by omega)]
    by_cases hin' : off ≤ k ∧ k < off + tot
    · rw [if_pos hin', if_pos (by omega)]
    · rw [if_neg hin', if_neg (by omega)]

/-- What `writei` has done when its loop ends after `tot` bytes. -/
structure Looped (sb : Superblock) (src : Nat → Option UInt8) (n off : Nat) (s s' : State)
    (ip : InodeId) (tot : Nat) : Prop where
  le : tot ≤ n
  writing : Writing sb s s' ip (off + tot)
  copied : ∀ bytes, Readable src bytes → bytes.length = n → Copied bytes s s' ip off tot
  /-- It stops at the end of a block. -/
  aligned : tot = 0 ∨ tot = n ∨ (off + tot) % BSIZE = 0
  /-- It stops early when a block is missing and the disk is full. -/
  full : ∀ bytes, Readable src bytes → bytes.length = n → tot < n →
    (s.itable ip).size ≤ off + tot ∧ ∀ b, b < sb.size → s'.bitmap b = true
  /-- If nothing is written, the inode has got an indirect block at most. -/
  nothing : ∀ bytes, Readable src bytes → bytes.length = n → 0 < n → tot = 0 →
    NoBlock (s.itable ip).inum (off / BSIZE) (s.places sb ip) (s'.places sb ip)

variable [LogErrs E]

/-- A round of `writei` after `bmap`; `g` is what follows a copy that succeeds. -/
theorem wp_writeiRound {b : Nat} {g : Nat → FsM (Nat × Nat)} {Q : Nat × Nat → State → Prop}
    (hlt : tot < n) (hw : Writing sb s s' ip (off + tot))
    (haligned : tot = 0 ∨ tot = n ∨ (off + tot) % BSIZE = 0)
    (hcopied : ∀ bytes, Readable src bytes → bytes.length = n → Copied bytes s s' ip off tot)
    (hb : blockAt s'.data (s'.itable ip).toDinode (placeOf ((off + tot) / BSIZE)) = b) (hne : b ≠ 0)
    (hnext : ∀ m s'', 0 < m → tot + m ≤ n → Writing sb s s'' ip (off + (tot + m)) →
      (tot + m = n ∨ (off + (tot + m)) % BSIZE = 0) →
      (∀ bytes, Readable src bytes → bytes.length = n → Copied bytes s s'' ip off (tot + m)) →
      wp (g m) Q E s'') (hend : ∀ s'', Looped sb src n off s s'' ip tot → Q (tot, off + tot) s'') :
    wp (do
      let blk ← bread sb b
      let m := min (n - tot) (BSIZE - (off + tot) % BSIZE)
      let (bytes, ok) := eitherCopyin src tot m
      store sb b (overwrite blk ((off + tot) % BSIZE) bytes)
      if ok then do
        logBlock b
        g m
      else pure (tot, off + tot)) Q E s' := by
  have hrange := hw.ready.block_range hb hne
  rw [wp_bind]
  refine wp_bread hrange ?_
  dsimp only
  rw [wp_bind]
  refine wp_store hrange ?_
  have hm : min (n - tot) (BSIZE - (off + tot) % BSIZE) ≤ BSIZE - (off + tot) % BSIZE :=
    Nat.min_le_right ..
  have hmn : min (n - tot) (BSIZE - (off + tot) % BSIZE) ≤ n - tot := Nat.min_le_left ..
  have hpos := round_pos (off + tot) hlt
  have hend' := round_end (off + tot) (n - tot)
  generalize min (n - tot) (BSIZE - (off + tot) % BSIZE) = m at *
  have hfill := hw.fill hm (hb ▸ hne)
  rw [wp_ite]
  refine ⟨fun _ => ?_, fun hbad => ?_⟩
  · rw [wp_bind]
    refine wp_logBlock (fun log => hnext m _ hpos (by omega) ?_ ?_ (fun bytes hread hlen => ?_))
    · rw [← Nat.add_assoc]
      exact (hfill.store hb hne _).withLog log
    · rw [← Nat.add_assoc]
      exact hend'.imp_left (fun h => by omega)
    · rw [eitherCopyin_of_readable hread tot m (by omega)]
      exact (hcopied bytes hread hlen).store hw.ready hb hne hm (by omega)
  · -- the source cannot be read
    have hnot : ∀ bytes, Readable src bytes → bytes.length ≠ n := by
      intro bytes hread hlen
      rw [eitherCopyin_of_readable hread tot m (by omega)] at hbad
      exact hbad rfl
    exact hend _ ⟨by omega, hw.store hb hne _, fun bytes hr hl => absurd hl (hnot bytes hr),
      haligned, fun bytes hr hl => absurd hl (hnot bytes hr),
      fun bytes hr hl => absurd hl (hnot bytes hr)⟩

/-- The loop of `writei`. With a source that can be read it stops early when the disk is full. -/
theorem wp_writeiLoop (hmax : off + n ≤ MAXFILE * BSIZE) (rounds tot : Nat) {s' : State}
    (hrounds : n < rounds + tot) (hle : tot ≤ n) (hw : Writing sb s s' ip (off + tot))
    (haligned : tot = 0 ∨ tot = n ∨ (off + tot) % BSIZE = 0)
    (hcopied : ∀ bytes, Readable src bytes → bytes.length = n → Copied bytes s s' ip off tot)
    (hfirst : tot = 0 → s'.places sb ip = s.places sb ip) :
    wp (writeiLoop sb ip src n rounds tot (off + tot))
      (fun r s'' => r.2 = off + r.1 ∧ Looped sb src n off s s'' ip r.1) E s' := by
  induction rounds generalizing tot s' with
  | zero => omega
  | succ rounds ih =>
    unfold writeiLoop
    rw [wp_ite]
    refine ⟨fun hlt => ?_, fun hge => ?_⟩
    · have hround := fun (b : Nat) (s₂ : State) (hb : b ≠ 0) (hg : Grown sb s' s₂ ip) hblock =>
        wp_writeiRound (E := E)
          (Q := fun r s'' => r.2 = off + r.1 ∧ Looped sb src n off s s'' ip r.1)
          (g := fun m => writeiLoop sb ip src n rounds (tot + m) (off + tot + m))
          hlt (hw.grow hg) haligned
          (fun bytes hread hlen => (hcopied bytes hread hlen).grow hw hg) hblock hb
          (fun m s₃ hpos hmn hw₃ haligned₃ hcopied₃ => by
            rw [Nat.add_assoc]
            exact ih (tot + m) (by omega) hmn hw₃ (Or.inr haligned₃) hcopied₃ (by omega))
          (fun s₃ h₃ => ⟨rfl, h₃⟩)
      rw [wp_bind]
      refine wp_bmap hw.ready (div_lt_MAXFILE (by omega)) (fun hne => ?_)
        (fun s₂ hzero hg hplaces hfull => ?_) (fun b s₂ _ hb hg hblock => ?_)
      · rw [if_neg hne]
        exact hround _ s' hne (Grown.refl hw.ready) rfl
      · rw [if_pos rfl]
        refine ⟨rfl, hle, hw.grow hg,
          fun bytes hread hlen => (hcopied bytes hread hlen).grow hw hg, haligned,
          fun _ _ _ _ => ⟨?_, hfull⟩, fun _ _ _ _ h0 => ?_⟩
        · by_contra hlt'
          exact hw.block_ne (Or.inl (by omega)) hzero
        · have htot : tot = 0 := h0
          rwa [hw.inum, hfirst h0, htot, Nat.add_zero] at hplaces
      · rw [if_neg hb]
        exact hround b s₂ hb hg hblock
    · exact ⟨rfl, hle, hw, hcopied, haligned, fun _ _ _ hlt => absurd hlt hge,
        fun _ _ _ hpos h0 => absurd (by omega) hge⟩

/-- `writei` has written `r` bytes at `off`, and the size is what it should be. -/
structure Written (sb : Superblock) (src : Nat → Option UInt8) (off n : Nat) (s s' : State)
    (ip : InodeId) (r : Nat) : Prop where
  le : r ≤ n
  disk : DiskOk sb s'.dinode s'.bitmap s'.data
  frame : s' = { s with bitmap := s'.bitmap, data := s'.data, log := s'.log,
                        itable := update s.itable ip (s'.itable ip),
                        dinode := update s.dinode (s.itable ip).inum
                          (s'.itable ip).toDinode }
  slot : s'.itable ip = { s.itable ip with size := max (s.itable ip).size (off + r),
                                           addrs := (s'.itable ip).addrs }
  other : ∀ k, k ≠ (s.itable ip).inum → Alloc sb s.dinode k →
    content s'.data (s.dinode k) = content s.data (s.dinode k)
  content_eq : ∀ bytes, Readable src bytes → bytes.length = n →
    content s'.data (s'.itable ip).toDinode =
      writeBytes (content s.data (s.itable ip).toDinode) off (bytes.take r)
  aligned : r = 0 ∨ r = n ∨ (off + r) % BSIZE = 0
  /-- Fewer bytes are written when a block is missing and the disk is full. -/
  full : ∀ bytes, Readable src bytes → bytes.length = n → r < n →
    (s.itable ip).size ≤ off + r ∧ ∀ b, b < sb.size → s'.bitmap b = true
  places : ∀ k, k.1 ≠ (s.itable ip).inum → refs sb s'.dinode s'.data k = s.places sb ip k
  keep : ∀ k, s.places sb ip k ≠ 0 → refs sb s'.dinode s'.data k = s.places sb ip k
  /-- If nothing is written, the inode has got an indirect block at most. -/
  nothing : ∀ bytes, Readable src bytes → bytes.length = n → 0 < n → r = 0 →
    NoBlock (s.itable ip).inum (off / BSIZE) (s.places sb ip) (refs sb s'.dinode s'.data)

theorem byteAt_setSize (data : Nat → Block) (d : Dinode) (size k : Nat) :
    byteAt data { d with size := size } k = byteAt data d k := rfl

/-- The contents when the size is set after the copying. -/
theorem Copied.content_eq {bytes : List UInt8} (h : Copied bytes s s' ip off tot)
    (hoff : off ≤ (s.itable ip).size) (hlen : tot ≤ bytes.length) :
    content s'.data { (s'.itable ip).toDinode with size := max (s.itable ip).size (off + tot) } =
      writeBytes (content s.data (s.itable ip).toDinode) off (bytes.take tot) := by
  have htake : (bytes.take tot).length = tot := by simp [hlen]
  apply List.ext_getElem?
  intro k
  rw [content_getElem?, writeBytes_getElem? (by simpa using hoff), htake, byteAt_setSize]
  by_cases hin : off ≤ k ∧ k < off + tot
  · have hk : k - off < bytes.length := by omega
    rw [if_pos hin, if_pos (by simp only; omega), h k (by omega), if_pos hin,
      List.getElem?_take_of_lt (by omega), List.getD_eq_getElem?_getD, List.getElem?_eq_getElem hk]
    rfl
  · rw [if_neg hin, content_getElem?]
    by_cases hk : k < (s.itable ip).size
    · rw [if_pos (by simp only; omega), if_pos hk, h k (Or.inl hk), if_neg hin]
    · rw [if_neg (by simp only; omega), if_neg hk]

/-- A file may be made longer up to where it has blocks. -/
theorem Writing.setSize {size : Nat} (h : Writing sb s s' ip fin)
    (hsize : size ≤ max (s.itable ip).size fin) (hmax : size ≤ MAXFILE * BSIZE) :
    DiskOk sb (update (s'.flush ip) (s'.itable ip).inum
      { s'.flush ip (s'.itable ip).inum with size := size }) s'.bitmap s'.data := by
  set dn := s'.flush ip with hdn
  set i := (s'.itable ip).inum with hi
  have halloc : ∀ k, Alloc sb (update dn i { dn i with size := size }) k ↔
      Alloc sb dn k := alloc_update (by rfl)
  have hblock : ∀ k p, blockAt s'.data (update dn i { dn i with size := size } k) p =
      blockAt s'.data (dn k) p := by
    intro k p
    by_cases hk : k = i
    · subst hk
      rw [update_self]
      rfl
    · rw [update_of_ne hk]
  have hrefs : refs sb (update dn i { dn i with size := size }) s'.data =
      refs sb dn s'.data := by
    funext ⟨k, p⟩
    unfold refs
    simp only [halloc, hblock]
  refine ⟨hrefs ▸ h.ready.disk.own, fun k hk bn hbn => ?_, fun k hk => ?_⟩
  · rw [hblock]
    by_cases hki : k = i
    · subst hki
      rw [update_self] at hbn
      have := h.block_ne (k := bn * BSIZE) (by simp only at hbn; omega)
      rw [Nat.mul_div_cancel _ (by decide : 0 < BSIZE)] at this
      rwa [hdn, hi, flush_self]
    · rw [update_of_ne hki] at hbn
      exact h.ready.disk.filled k ((halloc k).1 hk) bn hbn
  · by_cases hki : k = i
    · subst hki
      rw [update_self]
      exact hmax
    · rw [update_of_ne hki]
      exact h.ready.disk.size_le k ((halloc k).1 hk)

/-- The end of `writei`: the size is set and the inode written back. -/
theorem Looped.written (h : Looped sb src n off s s' ip tot) (hoff : off ≤ (s.itable ip).size)
    (hmax : off + n ≤ MAXFILE * BSIZE) (hsize : (s.itable ip).size ≤ MAXFILE * BSIZE)
    (log : Option (List Nat)) :
    Written sb src off n s (((s'.withInode ip { s'.itable ip with
        size := max (s.itable ip).size (off + tot) }).withDinode (s'.itable ip).inum
        { (s'.itable ip).toDinode with size := max (s.itable ip).size (off + tot) }).withLog log)
        ip tot := by
  have hw := h.writing
  have hle := h.le
  have hdisk := hw.setSize (Nat.le_refl _) (by omega)
  rw [flush_self] at hdisk
  have hrefs : refs sb (update s'.dinode (s'.itable ip).inum
      { (s'.itable ip).toDinode with size := max (s.itable ip).size (off + tot) }) s'.data =
      s'.places sb ip := by
    have hfield : ∀ {α : Type} (p : Dinode → α), p { (s'.itable ip).toDinode with
        size := max (s.itable ip).size (off + tot) } = p (s'.itable ip).toDinode → ∀ k,
        p (update s'.dinode (s'.itable ip).inum { (s'.itable ip).toDinode with
          size := max (s.itable ip).size (off + tot) } k) = p (s'.flush ip k) := by
      intro α p hp k
      by_cases hk : k = (s'.itable ip).inum
      · subst hk
        rw [update_self, hp, flush_self]
      · rw [update_of_ne hk, flush_of_ne hk]
    exact refs_congr (hfield Dinode.type rfl) (hfield Dinode.addrs rfl)
  refine ⟨hle, ?_, ?_, ?_, hw.other, fun bytes hread hlen => ?_, h.aligned, h.full, ?_, ?_, ?_⟩
  · unfold State.flush at hdisk
    rw [update_idem] at hdisk
    exact hdisk
  · rw [hw.frame]
    simp [State.withInode, State.withDinode, State.withLog, hw.inum]
  · rw [State.withLog_itable, State.withDinode_itable, State.withInode_itable, update_self,
      hw.slot]
  · rw [State.withLog_itable, State.withDinode_itable, State.withInode_itable, update_self]
    exact (h.copied bytes hread hlen).content_eq hoff (by omega)
  · exact hrefs ▸ hw.places
  · exact hrefs ▸ hw.keep
  · exact hrefs ▸ h.nothing

/-- The first block that has been written to is there. -/
theorem Written.block_ne {r : Nat} (h : Written sb src off n s s' ip r) (hready : Ready sb s ip)
    (hr : 0 < r) :
    refs sb s'.dinode s'.data ((s.itable ip).inum, placeOf (off / BSIZE)) ≠ 0 := by
  have hdn : s'.dinode = update s.dinode (s.itable ip).inum (s'.itable ip).toDinode :=
    congrArg State.dinode h.frame
  have hself : s'.dinode (s.itable ip).inum = (s'.itable ip).toDinode := by rw [hdn, update_self]
  have htype : (s'.itable ip).type = (s.itable ip).type := by rw [h.slot]
  have halloc : Alloc sb s'.dinode (s.itable ip).inum := by
    refine ⟨hready.alloc.1, hready.alloc.2.1, ?_⟩
    have := hready.alloc.2.2
    rw [flush_self] at this
    rw [hself]
    exact htype ▸ this
  have hsize : (s'.itable ip).size = max (s.itable ip).size (off + r) := by rw [h.slot]
  rw [refs_of_alloc halloc]
  refine h.disk.filled _ halloc _ ?_
  rw [hself]
  show _ < (s'.itable ip).size
  have := Nat.div_mul_le_self off BSIZE
  omega

/-- `writei` refuses to leave a hole or to exceed the maximum, and otherwise writes. -/
theorem wp_writei {Q : Int → State → Prop} (h : Ready sb s ip) (hn : n < 2 ^ 32)
    (hbad : (s.itable ip).size < off ∨ 2 ^ 32 ≤ off + n ∨ MAXFILE * BSIZE < off + n → Q (-1) s)
    (hgood : ∀ (r : Nat) s', off ≤ (s.itable ip).size → off + n < 2 ^ 32 →
      off + n ≤ MAXFILE * BSIZE → Written sb src off n s s' ip r → Q r s') :
    wp (writei sb ip src off n) Q E s := by
  have hsize : (s.itable ip).size ≤ MAXFILE * BSIZE := by
    have := h.disk.size_le _ h.alloc
    rwa [flush_self] at this
  have hcap : MAXFILE * BSIZE < 2 ^ 32 := by decide
  unfold writei
  simp only [wp_bind, wp_getInode, wp_ite, wp_pure]
  refine ⟨fun hc => hbad (by omega), fun hc => ⟨fun hbig => hbad (by omega), fun hbig => ?_⟩⟩
  have hoff : off ≤ (s.itable ip).size := by omega
  have hmax : off + n ≤ MAXFILE * BSIZE := by omega
  have hloop : wp (writeiLoop sb ip src n (n + 1) 0 off)
      (fun r s' => r.2 = off + r.1 ∧ Looped sb src n off s s' ip r.1) E s :=
    wp_writeiLoop hmax (n + 1) 0 (by omega) (by omega) (Writing.refl h (by omega)) (Or.inl rfl)
      (fun bytes _ _ k _ => by rw [if_neg (by omega)]) (fun _ => rfl)
  refine hloop.mono ?_ (fun _ he => he)
  rintro ⟨tot, off'⟩ s' ⟨heq, hl⟩
  simp only at heq hl
  subst heq
  have hslot : (s'.itable ip).size = (s.itable ip).size := by rw [hl.writing.slot]
  have hif : (if off + tot > (s'.itable ip).size then off + tot else (s'.itable ip).size) =
      max (s.itable ip).size (off + tot) := by
    rw [hslot]
    split <;> omega
  simp only [wp_setInode]
  rw [hif]
  refine wp_iupdate ?_ (fun log => hgood tot _ hoff (by omega) hmax ?_)
  · rw [State.withInode_itable, update_self]
    exact (hl.writing.inum ▸ h.alloc).2.1
  · rw [State.withInode_itable, update_self]
    exact hl.written hoff hmax hsize log

end Writing

/-! ## `readi` -/

section Reading

variable {s : State} {ip : InodeId} {dst : Nat → Bool}

theorem readBytes_append (old : List UInt8) (off m n : Nat) :
    readBytes old off m ++ readBytes old (off + m) n = readBytes old off (m + n) := by
  unfold readBytes
  rw [← List.drop_drop, ← List.take_add]

/-- The bytes of a round are those of the file. -/
theorem slice_eq_readBytes {data : Nat → Block} {d : Dinode} {off m : Nat}
    (hm : m ≤ BSIZE - off % BSIZE) (hsize : off + m ≤ d.size) :
    slice (data (blockAt data d (placeOf (off / BSIZE)))) (off % BSIZE) m =
      readBytes (content data d) off m := by
  apply List.ext_getElem?
  intro k
  unfold slice readBytes
  rw [List.getElem?_map]
  by_cases hk : k < m
  · have hdiv : (off + k) / BSIZE = off / BSIZE := round_block hm (by omega) (by omega)
    have hmod : off % BSIZE + k = (off + k) % BSIZE := by
      simp only [BSIZE] at *
      omega
    rw [List.getElem?_range hk, List.getElem?_take_of_lt hk, List.getElem?_drop, content_getElem?,
      if_pos (by omega), byteAt, hdiv, ← hmod]
    rfl
  · rw [List.getElem?_eq_none (by simpa using hk), List.getElem?_eq_none (by simp; omega)]
    rfl

/-- The loop of `readi` needs no new blocks. -/
theorem wp_readiLoop {w : Writer} {n off : Nat} (h : Ready sb s ip) (hsize : off + n ≤ (s.itable ip).size)
    {Q : Int × List UInt8 → State → Prop} (rounds tot : Nat) (out : List UInt8)
    (hrounds : n < rounds + tot) (hle : tot ≤ n)
    (hQ : ∀ r bytes, ((∀ k, k < n → dst k = true) → r = (n : Int) ∧ bytes = out ++
      readBytes (content s.data (s.itable ip).toDinode) (off + tot) (n - tot)) → Q (r, bytes) s) :
    wp (readiLoop sb w ip dst n rounds tot (off + tot) out) Q E s := by
  induction rounds generalizing tot out with
  | zero => omega
  | succ rounds ih =>
    unfold readiLoop
    rw [wp_ite]
    refine ⟨fun hlt => ?_, fun hge => ?_⟩
    · have hne : blockAt s.data (s.itable ip).toDinode (placeOf ((off + tot) / BSIZE)) ≠ 0 := by
        have := h.disk.filled _ h.alloc ((off + tot) / BSIZE)
        rw [flush_self] at this
        exact this (Nat.lt_of_le_of_lt (div_mul_BSIZE_le _) (by omega))
      have hm : min (n - tot) (BSIZE - (off + tot) % BSIZE) ≤ BSIZE - (off + tot) % BSIZE :=
        Nat.min_le_right ..
      have hmn : min (n - tot) (BSIZE - (off + tot) % BSIZE) ≤ n - tot := Nat.min_le_left ..
      have hpos := round_pos (off + tot) hlt
      rw [wp_bind]
      refine wp_of_eq (bmapWith_found h hne) ?_
      rw [if_neg hne, wp_bind]
      refine wp_bread (h.block_range rfl hne) ?_
      dsimp only
      generalize min (n - tot) (BSIZE - (off + tot) % BSIZE) = m at *
      rw [wp_ite]
      refine ⟨fun _ => ?_, fun hbad => hQ _ _ (fun hdst => ?_)⟩
      · rw [slice_eq_readBytes hm (by omega), Nat.add_assoc]
        refine ih (tot + m) _ (by omega) (by omega) (fun r bytes hr => hQ r bytes (fun hdst => ?_))
        obtain ⟨hr, hbytes⟩ := hr hdst
        refine ⟨hr, ?_⟩
        rw [hbytes, List.append_assoc, ← Nat.add_assoc, readBytes_append]
        congr 2
        omega
      · refine absurd (List.all_eq_true.2 (fun k hk => hdst _ ?_)) hbad
        have := List.mem_range.1 hk
        omega
    · refine hQ _ _ (fun _ => ⟨?_, ?_⟩)
      · omega
      · have htot : n - tot = 0 := by omega
        simp [htot, readBytes]

/-- `readi` gives the bytes of the file that are asked for, and changes nothing. -/
theorem wp_readi {off n : Nat} {Q : Int × List UInt8 → State → Prop} (h : Ready sb s ip)
    (hn : n < 2 ^ 32)
    (hQ : ∀ r bytes, ((∀ k, k < n → dst k = true) →
      bytes = (if off + n < 2 ^ 32 then
        readBytes (content s.data (s.itable ip).toDinode) off n else []) ∧
      r = (bytes.length : Int)) → Q (r, bytes) s) :
    wp (readi sb ip dst off n) Q E s := by
  have hsize : (s.itable ip).size ≤ MAXFILE * BSIZE := by
    have := h.disk.size_le _ h.alloc
    rwa [flush_self] at this
  have hcap : MAXFILE * BSIZE < 2 ^ 32 := by decide
  have hlen := content_length s.data (s.itable ip).toDinode
  unfold readi readiWith
  simp only [wp_bind, wp_getInode, wp_ite, wp_pure]
  refine ⟨fun hc => hQ _ _ (fun _ => ⟨?_, rfl⟩), fun hc => ?_⟩
  · split
    · rw [readBytes, List.drop_eq_nil_of_le (by omega), List.take_nil]
    · rfl
  · have hno : off + n < 2 ^ 32 := by omega
    have hmod : (off + n) % 2 ^ 32 = off + n := Nat.mod_eq_of_lt hno
    rw [hmod]
    generalize hn' : (if off + n > (s.itable ip).size then (s.itable ip).size - off else n) = n'
    have hle : off + n' ≤ (s.itable ip).size := by
      split at hn' <;> omega
    have hn'n : n' ≤ n := by
      split at hn' <;> omega
    have hread : readBytes (content s.data (s.itable ip).toDinode) off n' =
        readBytes (content s.data (s.itable ip).toDinode) off n := by
      unfold readBytes
      split at hn'
      · rw [List.take_of_length_le (by simp; omega), List.take_of_length_le (by simp; omega)]
      · rw [hn']
    show wp (readiLoop sb _ ip dst n' (n' + 1) 0 (off + 0) []) Q E s
    refine wp_readiLoop h hle (n' + 1) 0 [] (by omega) (by omega)
      (fun r bytes hr => hQ r bytes (fun hdst => ?_))
    obtain ⟨hr, hbytes⟩ := hr (fun k hk => hdst k (by omega))
    rw [List.nil_append, Nat.add_zero, Nat.sub_zero, hread] at hbytes
    rw [if_pos hno]
    refine ⟨hbytes, ?_⟩
    rw [hr, hbytes, ← hread]
    simp [readBytes]
    omega

end Reading

end Xv6.Fs
