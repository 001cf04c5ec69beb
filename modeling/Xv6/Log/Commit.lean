import Xv6.Block
import Xv6.Lib.Durable

set_option autoImplicit false

/-! # Committing and recovering the log

The disk side of `kernel/log.c`: `commit` with its four phases (`writeLog`, `writeHead`,
`installTrans`, `writeHead`) and `recoverFromLog`, as computations over the disk. A `bwrite` is one
atomic and durable write, so a crash leaves a prefix of the writes (`Durable.crash`).

A buffer that `log_write` has pinned holds the new contents of its block while the disk still has
the old ones. A buffer that is not pinned holds what its disk block holds, so reading it is reading
the disk; after a crash no buffer is pinned. -/

namespace Xv6.Log

/-- The disk as the log sees it: block numbers to blocks. -/
abbrev Disk : Type := Nat → Block

/-- Computations that read blocks and issue `bwrite`s. -/
abbrev DiskM : Type → Type := Durable Nat Block

/-- `log.start` and `log.size`. -/
structure Region where
  start : Nat
  size : Nat

/-- The log region: the header block and `log.size - 1` blocks behind it. -/
def Region.Mem (log : Region) (b : Nat) : Prop :=
  b = log.start ∨ (log.start < b ∧ b < log.start + log.size)

instance (log : Region) (b : Nat) : Decidable (log.Mem b) :=
  inferInstanceAs (Decidable (_ ∨ _))

/-- The in-memory `struct logheader`: the entries `block[0..n)`. -/
structure Logheader where
  block : List Nat
  /-- The array has room for `LOGSIZE` entries. -/
  len_le : block.length ≤ LOGSIZE
  /-- Block numbers are 32-bit words. -/
  fits : ∀ b ∈ block, b < 2 ^ 32

/-- `log.lh.n`. -/
def Logheader.n (lh : Logheader) : Nat := lh.block.length

/-- A transaction group: the blocks that `log_write` recorded and what their pinned buffers hold. -/
structure Group where
  lh : Logheader
  data : Nat → Block

/-- The pinned buffers of a group. -/
def Group.pinned (g : Group) (b : Nat) : Option Block :=
  if b ∈ g.lh.block then some (g.data b) else none

/-- The contents of the disk once the group has taken effect. -/
def Group.after (g : Group) (d : Disk) (b : Nat) : Block := (g.pinned b).getD (d b)

/-! ## The code -/

/-- `bread(log.dev, b)`: the pinned buffer of the block if there is one, else the disk block. -/
def bread (pinned : Nat → Option Block) (b : Nat) : DiskM Block :=
  match pinned b with
  | some data => pure data
  | none => Durable.read b

/-- `bwrite` of a buffer of block `b` that holds `data`. -/
def bwrite (b : Nat) (data : Block) : DiskM Unit := Durable.write b data

/-- `write_log`: copy modified blocks from cache to log, the entries from `tail` on. -/
def writeLog (log : Region) (pinned : Nat → Option Block) : List Nat → Nat → DiskM Unit
  | [], _ => pure ()
  | b :: bs, tail => do
    let _to ← bread pinned (log.start + tail + 1)  -- overwritten as a whole
    let src ← bread pinned b
    bwrite (log.start + tail + 1) src
    writeLog log pinned bs (tail + 1)

/-- `install_trans`: copy committed blocks from log to their home location, from `tail` on. -/
def installTrans (log : Region) (pinned : Nat → Option Block) : List Nat → Nat → DiskM Unit
  | [], _ => pure ()
  | b :: bs, tail => do
    let lbuf ← bread pinned (log.start + tail + 1)
    let _dbuf ← bread pinned b  -- overwritten as a whole
    bwrite b lbuf
    installTrans log pinned bs (tail + 1)

/-- `hb->block[i] = log.lh.block[i]` for the entries from `i` on. -/
def storeBlocks (hb : Block) : List Nat → Nat → Block
  | [], _ => hb
  | b :: bs, i => storeBlocks (hb.setWord (1 + i) b) bs (i + 1)

/-- The header block as `write_head` fills it in; bytes past the entries are left as they are. -/
def fillHead (hb : Block) (block : List Nat) : Block :=
  storeBlocks (hb.setWord 0 block.length) block 0

/-- `lh->n` of a header block. -/
def headN (hb : Block) : Int := toInt (hb.word 0)

/-- The entries `read_head` copies out of a header block. -/
def loadHead (hb : Block) : List Nat :=
  (List.range (headN hb).toNat).map fun i => hb.word (1 + i)

/-- `write_head`: write the in-memory log header to disk. -/
def writeHead (log : Region) (pinned : Nat → Option Block) (block : List Nat) : DiskM Unit := do
  let buf ← bread pinned log.start
  bwrite log.start (fillHead buf block)

/-- `read_head`: the entries of the on-disk header. -/
def readHead (log : Region) (pinned : Nat → Option Block) : DiskM (List Nat) := do
  let buf ← bread pinned log.start
  pure (loadHead buf)

/-- `commit`. -/
def commit (log : Region) (g : Group) : DiskM Unit :=
  if 0 < g.lh.n then do
    writeLog log g.pinned g.lh.block 0
    writeHead log g.pinned g.lh.block  -- the real commit
    installTrans log g.pinned g.lh.block 0
    writeHead log g.pinned []  -- erase the transaction from the log
  else pure ()

/-- `recover_from_log`, run at boot, when no buffer is pinned. -/
def recoverFromLog (log : Region) : DiskM Unit := do
  let block ← readHead log (fun _ => none)
  installTrans log (fun _ => none) block 0
  writeHead log (fun _ => none) []  -- clear the log

/-! ## The header block -/

theorem storeBlocks_word_of_lt (bs : List Nat) (hb : Block) (i k : Nat) (hk : k < 1 + i) :
    (storeBlocks hb bs i).word k = hb.word k := by
  induction bs generalizing hb i with
  | nil => rfl
  | cons b bs ih =>
    rw [storeBlocks, ih _ _ (by omega), Block.word_setWord_of_ne _ _ (by omega)]

theorem storeBlocks_word (bs : List Nat) (hb : Block) (i : Nat) (hlen : 1 + i + bs.length ≤ BSIZE / 4)
    (hfit : ∀ b ∈ bs, b < 2 ^ 32) (j : Nat) (hj : j < bs.length) :
    (storeBlocks hb bs i).word (1 + (i + j)) = bs[j] := by
  induction bs generalizing hb i j with
  | nil => simp at hj
  | cons b bs ih =>
    simp only [List.length_cons] at hlen hj
    rw [storeBlocks]
    cases j with
    | zero =>
      rw [storeBlocks_word_of_lt _ _ _ _ (by omega)]
      exact Block.word_setWord_self _ _ _ (by omega) (hfit b List.mem_cons_self)
    | succ j =>
      have := ih (hb.setWord (1 + i) b) (i + 1) (by omega)
        (fun b' hb' => hfit b' (List.mem_cons_of_mem _ hb')) j (by omega)
      rw [show i + (j + 1) = i + 1 + j by omega, this]
      rfl

theorem headN_fillHead (hb : Block) (block : List Nat) (hlen : block.length ≤ LOGSIZE) :
    headN (fillHead hb block) = block.length := by
  have hlen' : block.length ≤ 30 := hlen
  have hw : (fillHead hb block).word 0 = block.length := by
    rw [fillHead, storeBlocks_word_of_lt _ _ _ _ (by omega)]
    exact Block.word_setWord_self _ _ _ (by decide) (by omega)
  rw [headN, hw]
  exact toInt_of_lt (by omega)

/-- What `write_head` stores, `read_head` loads. -/
theorem loadHead_fillHead (hb : Block) (lh : Logheader) :
    loadHead (fillHead hb lh.block) = lh.block := by
  have hlen : lh.block.length ≤ 30 := lh.len_le
  have hcap : BSIZE / 4 = 256 := rfl
  have hn := headN_fillHead hb lh.block hlen
  apply List.ext_getElem
  · simp [loadHead, hn]
  · intro j h1 h2
    have := storeBlocks_word lh.block (hb.setWord 0 lh.block.length) 0 (by omega) lh.fits j h2
    rw [Nat.zero_add] at this
    simpa [loadHead, fillHead] using this

theorem loadHead_of_headN_zero {hb : Block} (h : headN hb = 0) : loadHead hb = [] := by
  simp [loadHead, h]

/-! ## What each phase writes -/

section Traces

variable {log : Region} {pinned : Nat → Option Block}

@[simp] theorem trace_bread (b : Nat) (d : Disk) : (bread pinned b).trace d = [] := by
  unfold bread; split <;> rfl

@[simp] theorem run_bread (b : Nat) (d : Disk) : (bread pinned b).run d = d := by
  simp [Durable.run]

theorem result_bread (b : Nat) (d : Disk) :
    (bread pinned b).result d = (pinned b).getD (d b) := by
  unfold bread; split <;> rename_i h <;> rw [h] <;> rfl

/-- `write_log` writes the entries' pinned contents to the log blocks, in order. -/
theorem writeLog_trace (data : Nat → Block) (bs : List Nat) (tail : Nat) (d : Disk)
    (hpin : ∀ b ∈ bs, pinned b = some (data b)) :
    (writeLog log pinned bs tail).trace d =
      (bs.zipIdx tail).map fun e => (log.start + e.2 + 1, data e.1) := by
  induction bs generalizing tail d with
  | nil => rfl
  | cons b bs ih =>
    have hb := hpin b List.mem_cons_self
    have hbs : ∀ b' ∈ bs, pinned b' = some (data b') :=
      fun b' hb' => hpin b' (List.mem_cons_of_mem _ hb')
    simp [writeLog, bwrite, result_bread, hb, ih _ _ hbs, List.zipIdx_cons]

/-- `install_trans` copies home what the log blocks hold. The home blocks lie outside the log, so
    no copy changes a log block that is still to be read. -/
theorem installTrans_trace (data : Nat → Block) (bs : List Nat) (tail : Nat) (d : Disk)
    (hhome : ∀ b ∈ bs, ∀ i < bs.length, b ≠ log.start + (tail + i) + 1)
    (hpin : ∀ i < bs.length, pinned (log.start + (tail + i) + 1) = none)
    (hlog : ∀ i (hi : i < bs.length), d (log.start + (tail + i) + 1) = data bs[i]) :
    (installTrans log pinned bs tail).trace d = bs.map fun b => (b, data b) := by
  induction bs generalizing tail d with
  | nil => rfl
  | cons b bs ih =>
    have hres : (bread pinned (log.start + tail + 1)).result d = data b := by
      rw [result_bread, show pinned (log.start + tail + 1) = none from hpin 0 (by simp)]
      exact hlog 0 (by simp)
    have hrest : ∀ i < bs.length, log.start + (tail + 1 + i) + 1 = log.start + (tail + (i + 1)) + 1 :=
      fun i _ => by omega
    have htl := ih (tail + 1) (Function.update d b (data b))
      (fun b' hb' i hi => by
        rw [hrest i hi]
        exact hhome b' (List.mem_cons_of_mem _ hb') (i + 1) (by simpa using hi))
      (fun i hi => by rw [hrest i hi]; exact hpin (i + 1) (by simpa using hi))
      (fun i hi => by
        have hne := hhome b List.mem_cons_self (i + 1) (by simpa using hi)
        rw [hrest i hi, Function.update_of_ne (Ne.symm hne)]
        exact hlog (i + 1) (by simpa using hi))
    simp [installTrans, bwrite, hres, htl]

theorem writeHead_trace (block : List Nat) (d : Disk) (hpin : pinned log.start = none) :
    (writeHead log pinned block).trace d = [(log.start, fillHead (d log.start) block)] := by
  simp [writeHead, bwrite, result_bread, hpin]

end Traces

end Xv6.Log
