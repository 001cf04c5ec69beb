import Mathlib.Logic.Function.Basic
import Xv6.Block

set_option autoImplicit false

/-! # The state of the file system

What the system calls of `kernel/sysfile.c` work on: the disk as `kernel/fs.c` lays it out, the
inode table, the file table, the pipes and the processes. The calls run one after the other, so the
spin-locks are not here, and of the log (`Xv6.Log`) only the block numbers that the transaction has in
it. Neither is the buffer cache (`Xv6.Bio`): a `bread` gives the current contents of a block. A
sleep-lock of an inode is taken and given back by the running call; taking one that is taken already
never returns.

The disk has three regions. The inode blocks are an array of `Dinode`, the free map is an array of
bits, and the data blocks are blocks. There is one device, as `kernel/fs.c` says. -/

namespace Xv6.Fs

open Function

/-- The part of `struct superblock` that the file system reads, laid out as `mkfs` does. -/
structure Superblock where
  /-- Size of the file system image in blocks. -/
  size : Nat
  /-- Number of inodes. -/
  ninodes : Nat
  inodestart : Nat
  bmapstart : Nat
  /-- The boot block, the super block and the log come first. -/
  start_le : 2 ≤ inodestart
  inodes_fit : inodestart + (ninodes / IPB + 1) ≤ bmapstart
  bitmap_fits : bmapstart + (size / BPB + 1) ≤ size
  /-- Block numbers are C `int`s. -/
  size_lt : size < 2 ^ 31
  root_lt : ROOTINO < ninodes
  /-- A directory entry names an inode by a `ushort`. -/
  ninodes_le : ninodes ≤ 2 ^ 16

/-- The first data block. -/
def Superblock.dataStart (sb : Superblock) : Nat := sb.bmapstart + (sb.size / BPB + 1)

theorem Superblock.dataStart_pos (sb : Superblock) : 0 < sb.dataStart :=
  Nat.lt_of_lt_of_le (Nat.succ_pos _) (Nat.le_add_left _ _)

/-- `type` of an inode: `0`, `T_DIR`, `T_FILE`, `T_DEVICE`. -/
inductive FileType where
  | free
  | dir
  | file
  | device
  deriving DecidableEq, Repr

/-- A value stored in a C `short`. -/
def short (x : Int) : Int := Int.bmod x (2 ^ 16)

/-- `struct dinode`; `addrs` has `NDIRECT + 1` elements. -/
structure Dinode where
  type : FileType
  major : Int
  minor : Int
  nlink : Int
  size : Nat
  addrs : Nat → Nat

/-- `memset(dip, 0, sizeof(*dip)); dip->type = type`. -/
def Dinode.fresh (type : FileType) : Dinode :=
  { type := type, major := 0, minor := 0, nlink := 0, size := 0, addrs := fun _ => 0 }

/-- `struct inode`, an element of `itable.inode[]`. -/
structure Inode extends Dinode where
  inum : Nat
  ref : Int
  /-- The sleep-lock. -/
  locked : Bool
  valid : Bool

/-- `type` of a `struct file`. -/
inductive FdType where
  | none
  | pipe
  | inode
  | device
  deriving DecidableEq, Repr

/-- A pointer to a `struct inode`. -/
abbrev InodeId : Type := Fin NINODE

/-- A pointer to a `struct file`. -/
abbrev FileId : Type := Fin NFILE

/-- `struct file`; a pipe is known by the page it is in. -/
structure File where
  type : FdType
  ref : Int
  readable : Bool
  writable : Bool
  pipe : Nat
  ip : InodeId
  off : Nat
  major : Int

/-- Bytes a pipe holds. -/
abbrev PIPESIZE : Nat := 512

/-- `struct pipe`. -/
structure Pipe where
  data : Nat → UInt8
  nread : Nat
  nwrite : Nat
  readopen : Bool
  writeopen : Bool

/-- What the calls tell apart of `p->state`; `used` is any state but `UNUSED` and `ZOMBIE`. -/
inductive ProcStage where
  | unused
  | used
  | zombie
  deriving DecidableEq, Repr

/-- An element of `proc[]`. -/
abbrev ProcId : Type := Fin NPROC

/-- `struct proc`, the fields for files. -/
structure Proc where
  state : ProcStage
  parent : Option ProcId
  ofile : Fin NOFILE → Option FileId
  cwd : Option InodeId

/-- Disk and memory. -/
structure State where
  /-- The inode blocks. -/
  dinode : Nat → Dinode
  /-- The free map; `true` for a block in use. -/
  bitmap : Nat → Bool
  /-- The data blocks. -/
  data : Nat → Block
  itable : InodeId → Inode
  ftable : FileId → File
  /-- The pages that hold a pipe. -/
  pipe : Nat → Option Pipe
  proc : ProcId → Proc
  /-- `log.lh.block[]` between `begin_op` and `end_op`. -/
  log : Option (List Nat)

@[simps -fullyApplied] def State.withDinode (s : State) (inum : Nat) (d : Dinode) : State :=
  { s with dinode := update s.dinode inum d }

@[simps -fullyApplied] def State.withBit (s : State) (b : Nat) (used : Bool) : State :=
  { s with bitmap := update s.bitmap b used }

@[simps -fullyApplied] def State.withBlock (s : State) (b : Nat) (blk : Block) : State :=
  { s with data := update s.data b blk }

@[simps -fullyApplied] def State.withInode (s : State) (ip : InodeId) (x : Inode) : State :=
  { s with itable := update s.itable ip x }

@[simps -fullyApplied] def State.withFile (s : State) (f : FileId) (x : File) : State :=
  { s with ftable := update s.ftable f x }

@[simps -fullyApplied] def State.withPipe (s : State) (pi : Nat) (q : Option Pipe) : State :=
  { s with pipe := update s.pipe pi q }

@[simps -fullyApplied] def State.withProc (s : State) (p : ProcId) (x : Proc) : State :=
  { s with proc := update s.proc p x }

@[simps -fullyApplied] def State.withLog (s : State) (log : Option (List Nat)) : State :=
  { s with log := log }

/-- The panics of the modelled functions. -/
inductive Panic where
  | tooBig
  | outsideOfTrans
  | freeingFreeBlock
  | igetNoInodes
  | ilock
  | ilockNoType
  | iunlock
  | bmapOutOfRange
  | dirlookupNotDir
  | dirlookupRead
  | dirlinkRead
  | isdirempty
  | unlinkNlink
  | unlinkWritei
  | filedup
  | fileclose
  | fileread
  | filewrite
  | initExiting
  deriving DecidableEq, Repr

/-- Why a call does not return. -/
inductive Stop where
  | panic (p : Panic)
  /-- It waits for ever: for a sleep-lock that it holds itself, or in a pipe. -/
  | stuck
  /-- It reaches outside of the regions of the disk or of the tables, where the model says nothing.
      No call does, from a consistent state. -/
  | outside
  deriving DecidableEq, Repr

/-- Kernel code that works on the state. -/
abbrev FsM : Type → Type := StateT State (Except Stop)

/-- `panic(...)`. -/
def panic {α : Type} (p : Panic) : FsM α := throw (.panic p)

/-- What `begin_op` and `end_op` make of their middle. No other call is between them, so the log is empty
    at first, and `end_op` commits it. -/
def transaction {α : Type} (x : FsM α) : FsM α := do
  modify fun s => s.withLog (some [])
  let r ← x
  modify fun s => s.withLog none
  pure r

def getInode (ip : InodeId) : FsM Inode := do
  let s ← get
  pure (s.itable ip)

/-- Assign to fields of `*ip`. -/
def setInode (ip : InodeId) (f : Inode → Inode) : FsM Unit :=
  modify fun s => s.withInode ip (f (s.itable ip))

def getFile (f : FileId) : FsM File := do
  let s ← get
  pure (s.ftable f)

/-- Assign to fields of `*f`. -/
def setFile (f : FileId) (g : File → File) : FsM Unit :=
  modify fun s => s.withFile f (g (s.ftable f))

def getProc (p : ProcId) : FsM Proc := do
  let s ← get
  pure (s.proc p)

/-- Assign to fields of `*p`. -/
def setProc (p : ProcId) (g : Proc → Proc) : FsM Unit :=
  modify fun s => s.withProc p (g (s.proc p))

end Xv6.Fs
