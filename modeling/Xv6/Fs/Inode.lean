import Mathlib.Data.List.FinRange
import Xv6.Fs.State

set_option autoImplicit false

/-! # Blocks and inodes

`kernel/fs.c` up to the directories: the block allocator, the inode table and the contents of an
inode. A block that is changed is stored in its buffer, and its number is passed to `log_write`
(`logBlock`). A user pointer is what the copying routines make of it: `src k` is the byte `k` behind the source pointer, `none` when
`either_copyin` cannot read it, and `dst k` says whether `either_copyout` can write the byte `k`
behind the destination; both copy up to the first page that is missing. -/

namespace Xv6.Fs

variable (sb : Superblock)

/-! ## Blocks -/

/-- `bread` of a data block. -/
def bread (b : Nat) : FsM Block :=
  if sb.dataStart ≤ b ∧ b < sb.size then do
    let s ← get
    pure (s.data b)
  else throw .outside

/-- Change the buffer of a data block to `blk`. -/
def store (b : Nat) (blk : Block) : FsM Unit :=
  if sb.dataStart ≤ b ∧ b < sb.size then
    modify fun s => s.withBlock b blk
  else throw .outside

/-- `log_write` of block `b`. `mkfs` makes a log of `LOGSIZE` blocks, one of them for the header. -/
def logBlock (b : Nat) : FsM Unit := do
  let s ← get
  match s.log with
  | none => panic .outsideOfTrans
  | some blocks =>
    if blocks.length ≥ LOGSIZE - 1 then panic .tooBig
    else if b ∈ blocks then pure ()
    else modify fun s => s.withLog (some (blocks ++ [b]))

/-- Change a data block and `log_write` it. -/
def logWrite (b : Nat) (blk : Block) : FsM Unit := do
  store sb b blk
  logBlock b

/-- The block of the free map with the bit of block `b`. -/
def BBLOCK (b : Nat) : Nat := b / BPB + sb.bmapstart

/-- The block with inode `i`. -/
def IBLOCK (i : Nat) : Nat := i / IPB + sb.inodestart

/-- Zero a block. -/
def bzero (b : Nat) : FsM Unit := logWrite sb b Block.zero

/-- Allocate a zeroed disk block: the first one whose bit is clear; 0 if out of disk space. -/
def balloc : FsM Nat := do
  let s ← get
  match (List.range sb.size).find? (fun b => !s.bitmap b) with
  | some b => do
    modify fun s => s.withBit b true
    logBlock (BBLOCK sb b)
    bzero sb b
    pure b
  | none => pure 0

/-- Free a disk block. -/
def bfree (b : Nat) : FsM Unit := do
  let s ← get
  if b < sb.size then
    if s.bitmap b = false then panic .freeingFreeBlock
    else do
      modify fun s => s.withBit b false
      logBlock (BBLOCK sb b)
  else throw .outside

/-! ## The inode table -/

/-- `dip` in the buffer of the inode block. -/
def readDinode (inum : Nat) : FsM Dinode :=
  if inum < sb.ninodes then do
    let s ← get
    pure (s.dinode inum)
  else throw .outside

/-- Change `*dip` and `log_write` its block. -/
def writeDinode (inum : Nat) (d : Dinode) : FsM Unit :=
  if inum < sb.ninodes then do
    modify fun s => s.withDinode inum d
    logBlock (IBLOCK sb inum)
  else throw .outside

/-- Copy a modified in-memory inode to disk. -/
def iupdate (ip : InodeId) : FsM Unit := do
  let x ← getInode ip
  writeDinode sb x.inum x.toDinode

/-- Find the inode with number `inum` and return the in-memory copy. -/
def iget (inum : Nat) : FsM InodeId := do
  let s ← get
  -- is the inode already in the table?
  match (List.finRange NINODE).find? (fun ip => (s.itable ip).ref > 0 ∧ (s.itable ip).inum = inum) with
  | some ip => do
    setInode ip fun x => { x with ref := x.ref + 1 }
    pure ip
  | none =>
    match (List.finRange NINODE).find? (fun ip => (s.itable ip).ref = 0) with
    | some ip => do
      setInode ip fun x => { x with inum := inum, ref := 1, valid := false }
      pure ip
    | none => panic .igetNoInodes

/-- Allocate an inode with type `type`, or none if there is no free inode. -/
def ialloc (type : FileType) : FsM (Option InodeId) := do
  let s ← get
  match (List.range' 1 (sb.ninodes - 1)).find? (fun inum => (s.dinode inum).type = .free) with
  | some inum => do
    writeDinode sb inum (Dinode.fresh type)
    let ip ← iget inum
    pure (some ip)
  | none => pure none

/-- Increment reference count for `ip`. -/
def idup (ip : InodeId) : FsM InodeId := do
  setInode ip fun x => { x with ref := x.ref + 1 }
  pure ip

/-- `acquiresleep(&ip->lock)`. -/
def acquiresleep (ip : InodeId) : FsM Unit := do
  let x ← getInode ip
  if x.locked then throw .stuck else setInode ip fun x => { x with locked := true }

/-- Lock the given inode; reads the inode from disk if necessary. -/
def ilock (ip : InodeId) : FsM Unit := do
  let x ← getInode ip
  if x.ref < 1 then panic .ilock
  else do
    acquiresleep ip
    if x.valid = false then do
      let d ← readDinode sb x.inum
      setInode ip fun x => { x with toDinode := d, valid := true }
      if d.type = .free then panic .ilockNoType else pure ()
    else pure ()

/-- Unlock the given inode. -/
def iunlock (ip : InodeId) : FsM Unit := do
  let x ← getInode ip
  if x.locked = false ∨ x.ref < 1 then panic .iunlock
  else setInode ip fun x => { x with locked := false }

/-! ## Inode content -/

/-- `addrs[i] = b`. -/
def Dinode.setAddr (d : Dinode) (i b : Nat) : Dinode :=
  { d with addrs := Function.update d.addrs i b }

/-- `ip->addrs[i] = b`. -/
def setAddr (i b : Nat) (x : Inode) : Inode := { x with toDinode := x.toDinode.setAddr i b }

/-- What changes the disk under `bmap`. That reading does not depend on it says that it changes
    nothing. -/
structure Writer where
  balloc : FsM Nat
  logWrite : Nat → Block → FsM Unit

/-- The allocator and the log of the kernel. -/
def Writer.kernel : Writer := { balloc := Fs.balloc sb, logWrite := Fs.logWrite sb }

/-- `ip->addrs[i]`, allocating a block if there is none; 0 if out of disk space. -/
def addrOrAlloc (w : Writer) (ip : InodeId) (i : Nat) : FsM Nat := do
  let x ← getInode ip
  if x.addrs i = 0 then do
    let addr ← w.balloc
    if addr = 0 then pure 0
    else do
      setInode ip (setAddr i addr)
      pure addr
  else pure (x.addrs i)

/-- The disk block address of the `bn`th block in inode `ip`. If there is no such block, `bmap`
    allocates one; 0 if out of disk space. -/
def bmapWith (w : Writer) (ip : InodeId) (bn : Nat) : FsM Nat :=
  if bn < NDIRECT then addrOrAlloc w ip bn
  else if bn - NDIRECT < NINDIRECT then do
    -- load indirect block, allocating if necessary
    let ind ← addrOrAlloc w ip NDIRECT
    if ind = 0 then pure 0
    else do
      let a ← bread sb ind
      if a.word (bn - NDIRECT) = 0 then do
        let addr ← w.balloc
        if addr = 0 then pure 0
        else do
          w.logWrite ind (a.setWord (bn - NDIRECT) addr)
          pure addr
      else pure (a.word (bn - NDIRECT))
  else panic .bmapOutOfRange

def bmap : InodeId → Nat → FsM Nat := bmapWith sb (Writer.kernel sb)

/-- Truncate inode (discard contents). -/
def itrunc (ip : InodeId) : FsM Unit := do
  (List.range NDIRECT).forM fun i => do
    let x ← getInode ip
    if x.addrs i = 0 then pure ()
    else do
      bfree sb (x.addrs i)
      setInode ip (setAddr i 0)
  let x ← getInode ip
  if x.addrs NDIRECT = 0 then pure ()
  else do
    let a ← bread sb (x.addrs NDIRECT)
    (List.range NINDIRECT).forM fun j =>
      if a.word j = 0 then pure () else bfree sb (a.word j)
    bfree sb (x.addrs NDIRECT)
    setInode ip (setAddr NDIRECT 0)
  setInode ip fun x => { x with size := 0 }
  iupdate sb ip

/-- Drop a reference to an in-memory inode. If that was the last reference and the inode has no
    links to it, free the inode (and its content) on disk. -/
def iput (ip : InodeId) : FsM Unit := do
  let x ← getInode ip
  if x.ref = 1 ∧ x.valid = true ∧ x.nlink = 0 then do
    acquiresleep ip
    itrunc sb ip
    setInode ip fun x => { x with type := .free }
    iupdate sb ip
    setInode ip fun x => { x with valid := false }
    setInode ip fun x => { x with locked := false }
  else pure ()
  setInode ip fun x => { x with ref := x.ref - 1 }

/-- Common idiom: unlock, then put. -/
def iunlockput (ip : InodeId) : FsM Unit := do
  iunlock ip
  iput sb ip

/-- `struct stat`. -/
structure Stat where
  ino : Nat
  type : FileType
  nlink : Int
  size : Nat

/-- Copy stat information from inode. -/
def stati (ip : InodeId) : FsM Stat := do
  let x ← getInode ip
  pure { ino := x.inum, type := x.type, nlink := x.nlink, size := x.size }

/-- The bytes `[off, off + m)` of a block. -/
def slice (blk : Block) (off m : Nat) : List UInt8 := (List.range m).map fun k => blk.get (off + k)

/-- The loop of `readi`; `out` is what has been copied out. Every round copies at least one byte. -/
def readiLoop (w : Writer) (ip : InodeId) (dst : Nat → Bool) (n : Nat) :
    Nat → Nat → Nat → List UInt8 → FsM (Int × List UInt8)
  | 0, _, _, _ => throw .outside
  | rounds + 1, tot, off, out =>
    if tot < n then do
      let addr ← bmapWith sb w ip (off / BSIZE)
      if addr = 0 then pure (tot, out)
      else do
        let blk ← bread sb addr
        let m := min (n - tot) (BSIZE - off % BSIZE)
        if (List.range m).all (fun k => dst (tot + k)) then
          readiLoop w ip dst n rounds (tot + m) (off + m) (out ++ slice blk (off % BSIZE) m)
        else pure (-1, out)
    else pure (tot, out)

/-- Read data from inode: the result of the call and the bytes it has copied to `dst`. -/
def readiWith (w : Writer) (ip : InodeId) (dst : Nat → Bool) (off n : Nat) :
    FsM (Int × List UInt8) := do
  let x ← getInode ip
  if off > x.size ∨ (off + n) % 2 ^ 32 < off then pure (0, [])
  else do
    let n := if (off + n) % 2 ^ 32 > x.size then x.size - off else n
    readiLoop sb w ip dst n (n + 1) 0 off []

def readi : InodeId → (Nat → Bool) → Nat → Nat → FsM (Int × List UInt8) :=
  readiWith sb (Writer.kernel sb)

/-- `either_copyin`: the bytes copied, and whether all `m` of them were. -/
def eitherCopyin (src : Nat → Option UInt8) : Nat → Nat → List UInt8 × Bool
  | _, 0 => ([], true)
  | k, m + 1 =>
    match src k with
    | none => ([], false)
    | some c => (c :: (eitherCopyin src (k + 1) m).1, (eitherCopyin src (k + 1) m).2)

/-- `memmove` of bytes into a block. -/
def overwrite (blk : Block) (off : Nat) (bytes : List UInt8) : Block :=
  blk.splice off bytes.length fun k => bytes.getD k 0

/-- The loop of `writei`. Every round copies at least one byte, or is the last. -/
def writeiLoop (ip : InodeId) (src : Nat → Option UInt8) (n : Nat) :
    Nat → Nat → Nat → FsM (Nat × Nat)
  | 0, _, _ => throw .outside
  | rounds + 1, tot, off =>
    if tot < n then do
      let addr ← bmap sb ip (off / BSIZE)
      if addr = 0 then pure (tot, off)
      else do
        let blk ← bread sb addr
        let m := min (n - tot) (BSIZE - off % BSIZE)
        let (bytes, ok) := eitherCopyin src tot m
        -- what was copied before a failure stays in the buffer
        store sb addr (overwrite blk (off % BSIZE) bytes)
        if ok then do
          logBlock addr
          writeiLoop ip src n rounds (tot + m) (off + m)
        else pure (tot, off)
    else pure (tot, off)

/-- Write data to inode. Returns the number of bytes successfully written. -/
def writei (ip : InodeId) (src : Nat → Option UInt8) (off n : Nat) : FsM Int := do
  let x ← getInode ip
  if off > x.size ∨ (off + n) % 2 ^ 32 < off then pure (-1)
  else if (off + n) % 2 ^ 32 > MAXFILE * BSIZE then pure (-1)
  else do
    let (tot, off) ← writeiLoop sb ip src n (n + 1) 0 off
    setInode ip fun x => { x with size := if off > x.size then off else x.size }
    -- write the i-node back to disk even if the size didn't change
    iupdate sb ip
    pure tot

/-- A source in kernel memory. -/
def kernelSrc (bytes : List UInt8) : Nat → Option UInt8 := fun k => bytes[k]?

/-- A destination in kernel memory. -/
def kernelDst : Nat → Bool := fun _ => true

end Xv6.Fs
