import Mathlib.Data.Finset.Card
import Xv6.Fs.Blocks

set_option autoImplicit false

/-! # Room in the log

`log_write` panics outside a transaction, and in one that has `LOGSIZE - 1` blocks already. `Room sb k`
says that there is a transaction with room for the blocks of the free map and for `k` more, and
`Logs sb k x` that `x` needs no more than that: it does not stop in `log_write`. -/

namespace Xv6.Fs

open Wp

variable {sb : Superblock} {α β : Type}

/-- The blocks of the free map. -/
def Superblock.freeMap (sb : Superblock) : Finset Nat :=
  (Finset.range (sb.size / BPB + 1)).image (sb.bmapstart + ·)

theorem BBLOCK_mem {b : Nat} (h : b < sb.size) : BBLOCK sb b ∈ sb.freeMap := by
  refine Finset.mem_image.2 ⟨b / BPB, Finset.mem_range.2 ?_, Nat.add_comm ..⟩
  exact Nat.lt_succ_of_le (Nat.div_le_div_right (Nat.le_of_lt h))

/-- A transaction has room for `k` blocks, and for those of the free map. -/
def Room (sb : Superblock) (k : Nat) (s : State) : Prop :=
  ∃ blocks : List Nat, s.log = some blocks ∧ blocks.Nodup ∧
    (blocks.toFinset ∪ sb.freeMap).card + k < LOGSIZE - 1

/-- `x` passes at most `k` blocks to `log_write`, besides those of the free map. -/
def Logs (sb : Superblock) (k : Nat) (x : FsM α) : Prop :=
  ∀ j s, Room sb (k + j) s → wp x (fun _ s' => Room sb j s') (fun e => ¬ LogPanic e) s

theorem Room.mono {j k : Nat} {s : State} (h : Room sb k s) (hle : j ≤ k) : Room sb j s := by
  obtain ⟨blocks, hlog, hnodup, hlt⟩ := h
  exact ⟨blocks, hlog, hnodup, by omega⟩

theorem Logs.mono {k l : Nat} {x : FsM α} (h : Logs sb k x) (hle : k ≤ l) : Logs sb l x :=
  fun j s hroom => h j s (hroom.mono (by omega))

theorem Logs.pure (a : α) : Logs sb 0 (pure a : FsM α) :=
  fun _ _ hroom => hroom.mono (Nat.le_add_left ..)

theorem Logs.throw {e : Stop} (h : ¬ LogPanic e) : Logs sb 0 (throw e : FsM α) := fun _ _ _ => h

theorem Logs.bind {k l : Nat} {x : FsM α} {f : α → FsM β} (h : Logs sb k x)
    (hf : ∀ a, Logs sb l (f a)) : Logs sb (k + l) (x >>= f) := by
  intro j s hroom
  rw [wp_bind]
  rw [Nat.add_assoc] at hroom
  exact (h (l + j) s hroom).mono (fun a s' hs' => hf a j s' hs') (fun _ he => he)

/-- What reads the state first. -/
theorem Logs.get_bind {k : Nat} {f : State → FsM β} (hf : ∀ s, Logs sb k (f s)) :
    Logs sb k (get >>= f) := fun j s hroom => hf s j s hroom

theorem Logs.modify {f : State → State} (h : ∀ s, (f s).log = s.log) :
    Logs sb 0 (modify f : FsM Unit) := by
  intro j s hroom
  obtain ⟨blocks, hlog, hrest⟩ := hroom.mono (Nat.le_add_left ..)
  exact ⟨blocks, (h s).trans hlog, hrest⟩

theorem Logs.ite {k : Nat} {c : Prop} [Decidable c] {x y : FsM α} (hx : c → Logs sb k x)
    (hy : ¬ c → Logs sb k y) : Logs sb k (if c then x else y) := by
  split
  · next h => exact hx h
  · next h => exact hy h

theorem Logs.forM {ι : Type} {l : List ι} {f : ι → FsM Unit} (h : ∀ i, Logs sb 0 (f i)) :
    Logs sb 0 (l.forM f) := by
  induction l with
  | nil => exact Logs.pure _
  | cons i l ih => exact (h i).bind (fun _ => ih)

theorem Logs.getInode {k : Nat} {ip : InodeId} {f : Inode → FsM β} (hf : ∀ x, Logs sb k (f x)) :
    Logs sb k (Fs.getInode ip >>= f) := fun j s hroom => hf (s.itable ip) j s hroom

theorem Logs.setInode (ip : InodeId) (f : Inode → Inode) : Logs sb 0 (Fs.setInode ip f) :=
  Logs.modify (fun _ => rfl)

/-! ## `log_write` -/

/-- What `log_write` does to the blocks of the transaction, as a set with those of the free map. -/
theorem logs_logBlock_of {b k : Nat} (h : ∀ S : Finset Nat, sb.freeMap ⊆ S →
    (insert b S).card ≤ S.card + k) : Logs sb k (logBlock b) := by
  rintro j s ⟨blocks, hlog, hnodup, hlt⟩
  have hlen : blocks.length ≤ (blocks.toFinset ∪ sb.freeMap).card := by
    rw [← List.toFinset_card_of_nodup hnodup]
    exact Finset.card_le_card Finset.subset_union_left
  unfold logBlock
  rw [wp_bind, wp_get, hlog]
  simp only
  rw [if_neg (by omega), wp_ite]
  refine ⟨fun _ => ⟨blocks, hlog, hnodup, by omega⟩, fun hb => ?_⟩
  refine ⟨blocks ++ [b], rfl, List.Nodup.append hnodup (List.nodup_singleton b) (by simpa using hb), ?_⟩
  have hset : (blocks ++ [b]).toFinset ∪ sb.freeMap = insert b (blocks.toFinset ∪ sb.freeMap) := by
    ext x
    simp
  have hsub : sb.freeMap ⊆ blocks.toFinset ∪ sb.freeMap := Finset.subset_union_right
  have := h _ hsub
  rw [hset]
  omega

theorem logs_logBlock (b : Nat) : Logs sb 1 (logBlock b) :=
  logs_logBlock_of (fun _ _ => Finset.card_insert_le ..)

theorem logs_logBlock_freeMap {b : Nat} (h : b < sb.size) : Logs sb 0 (logBlock (BBLOCK sb b)) :=
  logs_logBlock_of (fun S hS => by rw [Finset.insert_eq_of_mem (hS (BBLOCK_mem h))]; rfl)

theorem not_logPanic_outside : ¬ LogPanic .outside := by
  rintro (h | h) <;> cases h

theorem logs_bread (b : Nat) : Logs sb 0 (bread sb b) :=
  Logs.ite (fun _ => Logs.get_bind (fun _ => Logs.pure _)) (fun _ => Logs.throw not_logPanic_outside)

theorem logs_store (b : Nat) (blk : Block) : Logs sb 0 (store sb b blk) :=
  Logs.ite (fun _ => Logs.modify (fun _ => rfl)) (fun _ => Logs.throw not_logPanic_outside)

theorem logs_logWrite (b : Nat) (blk : Block) : Logs sb 1 (logWrite sb b blk) :=
  (logs_store b blk).bind (fun _ => logs_logBlock b)

/-! ## Blocks -/

theorem logs_balloc : Logs sb 1 (balloc sb) := by
  refine Logs.get_bind (fun s => ?_)
  split
  · next b hfind =>
      have hlt : b < sb.size := List.mem_range.1 (List.mem_of_find?_eq_some hfind)
      exact Logs.bind (k := 0) (l := 1) (Logs.modify (fun _ => rfl)) (fun _ =>
        (logs_logBlock_freeMap hlt).bind (fun _ => (logs_logWrite b _).bind (fun _ => Logs.pure b)))
  · exact (Logs.pure 0).mono (Nat.zero_le 1)

theorem logs_bfree (b : Nat) : Logs sb 0 (bfree sb b) := by
  refine Logs.get_bind (fun s => Logs.ite (fun hlt => Logs.ite (fun _ => Logs.throw ?_) (fun _ => ?_))
    (fun _ => Logs.throw not_logPanic_outside))
  · rintro (h | h) <;> cases h
  · exact Logs.bind (k := 0) (l := 0) (Logs.modify (fun _ => rfl))
      (fun _ => logs_logBlock_freeMap hlt)

theorem logs_iupdate (ip : InodeId) : Logs sb 1 (iupdate sb ip) :=
  Logs.getInode (fun _ => Logs.ite
    (fun _ => Logs.bind (k := 0) (l := 1) (Logs.modify (fun _ => rfl)) (fun _ => logs_logBlock _))
    (fun _ => (Logs.throw not_logPanic_outside).mono (Nat.zero_le 1)))

theorem logs_addrOrAlloc (ip : InodeId) (i : Nat) :
    Logs sb 1 (addrOrAlloc (Writer.kernel sb) ip i) :=
  Logs.getInode (fun _ => Logs.ite
    (fun _ => (logs_balloc : Logs sb 1 (balloc sb)).bind (fun _ => Logs.ite (fun _ => Logs.pure 0)
      (fun _ => (Logs.setInode ip _).bind (fun _ => Logs.pure _))))
    (fun _ => (Logs.pure _).mono (Nat.zero_le 1)))

/-- The block and the indirect block may be new, and the number of the block is written to the
    indirect block. -/
theorem logs_bmap (ip : InodeId) (bn : Nat) : Logs sb 3 (bmap sb ip bn) := by
  refine Logs.ite (fun _ => (logs_addrOrAlloc ip bn).mono (by decide)) (fun _ => Logs.ite (fun _ => ?_)
    (fun _ => (Logs.throw ?_).mono (Nat.zero_le 3)))
  · refine (logs_addrOrAlloc ip NDIRECT).bind (l := 2) (fun ind => Logs.ite
      (fun _ => (Logs.pure 0).mono (Nat.zero_le 2)) (fun _ => ?_))
    refine (logs_bread ind).bind (l := 2) (fun a => Logs.ite (fun _ => ?_)
      (fun _ => (Logs.pure _).mono (Nat.zero_le 2)))
    exact (logs_balloc : Logs sb 1 (balloc sb)).bind (l := 1) (fun addr => Logs.ite
      (fun _ => (Logs.pure 0).mono (Nat.zero_le 1))
      (fun _ => (logs_logWrite ind _).bind (fun _ => Logs.pure addr)))
  · rintro (h | h) <;> cases h

/-! ## Contents -/

/-- The number of blocks that `m` bytes from `off` on are in. -/
def blocksOf (off m : Nat) : Nat := if m = 0 then 0 else (off % BSIZE + m - 1) / BSIZE + 1

theorem blocksOf_round (off : Nat) {n : Nat} (hn : 0 < n) :
    blocksOf off n = 1 + blocksOf (off + min n (BSIZE - off % BSIZE))
      (n - min n (BSIZE - off % BSIZE)) := by
  have hlt : off % 1024 < 1024 := Nat.mod_lt _ (by decide)
  unfold blocksOf
  simp only [BSIZE]
  rw [if_neg (Nat.ne_of_gt hn)]
  by_cases hle : n ≤ 1024 - off % 1024
  · rw [Nat.min_eq_left hle, Nat.sub_self, if_pos rfl]
    omega
  · rw [Nat.min_eq_right (by omega), if_neg (by omega)]
    omega

/-- Every round logs the block it writes, and what `bmap` logs. -/
theorem logs_writeiLoop (ip : InodeId) (src : Nat → Option UInt8) (n rounds tot off : Nat) :
    Logs sb (4 * blocksOf off (n - tot)) (writeiLoop sb ip src n rounds tot off) := by
  induction rounds generalizing tot off with
  | zero => exact (Logs.throw not_logPanic_outside).mono (Nat.zero_le _)
  | succ rounds ih =>
    unfold writeiLoop
    refine Logs.ite (fun hlt => ?_) (fun _ => (Logs.pure _).mono (Nat.zero_le _))
    rw [blocksOf_round off (Nat.sub_pos_of_lt hlt), ← Nat.sub_add_eq]
    generalize hm : min (n - tot) (BSIZE - off % BSIZE) = m
    refine (Logs.bind (l := 1 + 4 * blocksOf (off + m) (n - (tot + m))) (logs_bmap ip (off / BSIZE))
      (fun addr => ?_)).mono (by omega)
    refine Logs.ite (fun _ => (Logs.pure _).mono (Nat.zero_le _)) (fun _ => ?_)
    exact ((logs_bread addr).bind (fun blk => (logs_store addr _).bind (fun _ => Logs.ite
      (fun _ => (logs_logBlock addr).bind (fun _ => ih _ _))
      (fun _ => (Logs.pure _).mono (Nat.zero_le _))))).mono (by omega)

theorem logs_writei (ip : InodeId) (src : Nat → Option UInt8) (off n : Nat) :
    Logs sb (4 * blocksOf off n + 1) (writei sb ip src off n) := by
  refine Logs.getInode (fun _ => Logs.ite (fun _ => (Logs.pure _).mono (Nat.zero_le _))
    (fun _ => Logs.ite (fun _ => (Logs.pure _).mono (Nat.zero_le _)) (fun _ => ?_)))
  have hloop : Logs sb (4 * blocksOf off n) (writeiLoop sb ip src n (n + 1) 0 off) :=
    logs_writeiLoop ip src n (n + 1) 0 off
  exact hloop.bind (fun _ => (Logs.setInode ip _).bind (fun _ =>
    (logs_iupdate ip).bind (fun _ => Logs.pure _)))

/-- `itrunc` changes the free map and the inode. -/
theorem logs_itrunc (ip : InodeId) : Logs sb 1 (itrunc sb ip) := by
  refine Logs.bind (k := 0) (l := 1) (Logs.forM (fun i => Logs.getInode (fun x => Logs.ite
    (fun _ => Logs.pure ()) (fun _ => (logs_bfree _).bind (fun _ => Logs.setInode ip _)))))
    (fun _ => Logs.getInode (fun x => ?_))
  have hend : Logs sb 1 (do
      Fs.setInode ip fun x => { x with size := 0 }
      iupdate sb ip) := (Logs.setInode ip _).bind (fun _ => logs_iupdate ip)
  refine Logs.ite (fun _ => hend) (fun _ => ?_)
  exact (logs_bread _).bind (l := 1) (fun a => Logs.bind (k := 0) (l := 1)
    (Logs.forM (fun j => Logs.ite (fun _ => Logs.pure ()) (fun _ => logs_bfree _)))
    (fun _ => (logs_bfree _).bind (l := 1) (fun _ =>
      (Logs.setInode ip _).bind (l := 1) (fun _ => hend))))

end Xv6.Fs
