import Mathlib.Algebra.Group.Int.Defs
import Mathlib.Algebra.Group.Nat.Defs

set_option autoImplicit false

/-! # Constants of the kernel

The macros of `kernel/param.h` and `kernel/fs.h` that the modelled code reads, in the configuration
the repository builds (`LAB=util`). They keep the names the source gives them. -/

namespace Xv6

/-- Maximum number of processes. -/
abbrev NPROC : Nat := 64

/-- Open files per process. -/
abbrev NOFILE : Nat := 16

/-- Open files per system. -/
abbrev NFILE : Nat := 100

/-- Maximum number of active i-nodes. -/
abbrev NINODE : Nat := 50

/-- Maximum major device number. -/
abbrev NDEV : Nat := 10

/-- Device number of the file system root disk. -/
abbrev ROOTDEV : Nat := 1

/-- Max number of blocks any FS op writes. -/
abbrev MAXOPBLOCKS : Nat := 10

/-- Max data blocks in the on-disk log. -/
abbrev LOGSIZE : Nat := MAXOPBLOCKS * 3

/-- Size of the disk block cache. -/
abbrev NBUF : Nat := MAXOPBLOCKS * 3

/-- Maximum file path name. -/
abbrev MAXPATH : Nat := 128

/-- Root i-number. -/
abbrev ROOTINO : Nat := 1

/-- Block size. -/
abbrev BSIZE : Nat := 1024

abbrev NDIRECT : Nat := 12

abbrev NINDIRECT : Nat := BSIZE / 4

abbrev MAXFILE : Nat := NDIRECT + NINDIRECT

/-- Inodes per block: a `struct dinode` takes 64 bytes. -/
abbrev IPB : Nat := BSIZE / 64

/-- Bitmap bits per block. -/
abbrev BPB : Nat := BSIZE * 8

/-- Longest name of a directory entry. -/
abbrev DIRSIZ : Nat := 14

end Xv6
