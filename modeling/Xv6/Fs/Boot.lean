import Xv6.Fs.Sysfile
import Xv6.Fs.View

set_option autoImplicit false

/-! # The first process

The state in which the first process starts, on a given disk. The tables are empty, but for the
process itself and its current directory, the root. At the end there is a small disk, as `mkfs`
makes it for no files. -/

namespace Xv6.Fs

open Function

/-- `userinit`: the first process, with the root as its current directory. -/
def userinit (sb : Superblock) : FsM Unit := do
  let ip ← namei sb initproc [slash]
  setProc initproc fun x => { x with cwd := ip, state := .used }

def Inode.blank : Inode :=
  { toDinode := Dinode.fresh .free, inum := 0, ref := 0, locked := false, valid := false }

def File.blank : File :=
  { type := .none, ref := 0, readable := false, writable := false, pipe := 0, ip := 0, off := 0,
    major := 0 }

def Proc.blank : Proc := { state := .unused, parent := none, ofile := fun _ => none, cwd := none }

/-- The kernel's memory is zero at first. -/
def blank (dinode : Nat → Dinode) (bitmap : Nat → Bool) (data : Nat → Block) : State :=
  { dinode := dinode, bitmap := bitmap, data := data, itable := fun _ => Inode.blank,
    ftable := fun _ => File.blank, pipe := fun _ => none, proc := fun _ => Proc.blank, log := none }

/-- The entry of the inode table for the root. -/
def Inode.rootEntry : Inode := { Inode.blank with inum := ROOTINO, ref := 1 }

/-- The place of that entry. -/
def rootSlot : InodeId := 0

/-- The state in which the first process starts. -/
def boot (dinode : Nat → Dinode) (bitmap : Nat → Bool) (data : Nat → Block) : State :=
  ((blank dinode bitmap data).withInode 0 Inode.rootEntry).withProc initproc
    { Proc.blank with cwd := some 0, state := .used }

/-! ## The boot state is consistent -/

variable {sb : Superblock} {dinode : Nat → Dinode} {bitmap : Nat → Bool} {data : Nat → Block}

/-- `userinit` starts the first process. -/
theorem userinit_blank :
    userinit sb (blank dinode bitmap data) = .ok ((), boot dinode bitmap data) := by
  rfl

theorem boot_itable (ip : InodeId) :
    (boot dinode bitmap data).itable ip = if ip = 0 then Inode.rootEntry else Inode.blank := by
  show update _ _ _ ip = _
  split
  · next h => rw [h, update_self]
  · next h => rw [update_of_ne h]; rfl

theorem boot_ref_pos {ip : InodeId} (h : 0 < ((boot dinode bitmap data).itable ip).ref) :
    ip = 0 := by
  by_contra hne
  rw [boot_itable, if_neg hne] at h
  simp [Inode.blank] at h

theorem boot_valid (ip : InodeId) : ((boot dinode bitmap data).itable ip).valid = false := by
  rw [boot_itable]
  split <;> rfl

/-- On a disk in order the boot state is consistent. -/
theorem boot_good (hdisk : DiskOk sb dinode bitmap data)
    (hshort : ∀ i, Alloc sb dinode i → short (dinode i).nlink = (dinode i).nlink) :
    Good sb (boot dinode bitmap data) := by
  refine ⟨hdisk, fun ip => ?_, fun ip hr => ?_, fun ip jp hr hr' _ => ?_, fun ip _ hv => ?_, hshort⟩
  · rw [boot_itable]
    split <;> simp [Inode.rootEntry, Inode.blank]
  · rw [boot_ref_pos hr]
    exact ⟨Nat.zero_lt_one, sb.root_lt⟩
  · rw [boot_ref_pos hr, boot_ref_pos hr']
  · rw [boot_valid] at hv
    cases hv

/-! ## A small disk -/

/-- Eight inodes and `size` blocks, with one block of the free map. -/
def smallSb (size : Nat) (h : 4 < size ∧ size < BPB) : Superblock where
  size := size
  ninodes := 8
  inodestart := 2
  bmapstart := 3
  start_le := by decide
  inodes_fit := by decide
  bitmap_fits := by
    rw [Nat.div_eq_of_lt h.2]
    omega
  size_lt := Nat.lt_trans h.2 (by decide)
  root_lt := by decide
  ninodes_le := by decide

/-- Sixteen blocks. -/
def tinySb : Superblock := smallSb 16 (by decide)

/-- The root directory has the entries "." and "..". -/
def rootBlock : Block :=
  overwrite Block.zero 0 (Dirent.encode { inum := ROOTINO, name := strncpy dot } ++
    Dirent.encode { inum := ROOTINO, name := strncpy dotdot })

def rootDinode : Dinode :=
  { type := .dir, major := 0, minor := 0, nlink := 1, size := 2 * DIRENT,
    addrs := fun j => if j = 0 then 4 else 0 }

def tinyDinode (i : Nat) : Dinode := if i = ROOTINO then rootDinode else Dinode.fresh .free

def tinyBitmap (b : Nat) : Bool := decide (b < 5)

def tinyData (b : Nat) : Block := if b = 4 then rootBlock else Block.zero

def tiny : State := boot tinyDinode tinyBitmap tinyData

variable {size : Nat} {h : 4 < size ∧ size < BPB}

theorem smallSb_dataStart : (smallSb size h).dataStart = 4 := by
  show 3 + (size / BPB + 1) = 4
  rw [Nat.div_eq_of_lt h.2]

theorem tiny_alloc {i : Nat} (hi : Alloc (smallSb size h) tinyDinode i) : i = ROOTINO := by
  by_contra hne
  exact hi.2.2 (by rw [tinyDinode, if_neg hne]; rfl)

theorem tiny_alloc_root : Alloc (smallSb size h) tinyDinode ROOTINO := by
  refine ⟨by decide, (smallSb size h).root_lt, ?_⟩
  rw [tinyDinode, if_pos rfl]
  decide

theorem tiny_blockAt (p : Nat) : blockAt tinyData rootDinode p = if p = 0 then 4 else 0 := by
  by_cases hp : p ≤ NDIRECT
  · exact blockAt_direct hp
  · rw [if_neg (by omega)]
    exact blockAt_no_indirect (by omega) rfl

theorem tiny_refs (k : Nat × Nat) :
    refs (smallSb size h) tinyDinode tinyData k = if k = (ROOTINO, 0) then 4 else 0 := by
  obtain ⟨i, p⟩ := k
  by_cases hi : i = ROOTINO
  · subst hi
    rw [refs_of_alloc tiny_alloc_root, tinyDinode, if_pos rfl, tiny_blockAt]
    simp
  · rw [refs_of_not_alloc (fun ha => hi (tiny_alloc ha)), if_neg (by simp [hi])]

theorem tiny_diskOk : DiskOk (smallSb size h) tinyDinode tinyBitmap tinyData := by
  have hne : ∀ k, refs (smallSb size h) tinyDinode tinyData k ≠ 0 → k = (ROOTINO, 0) := by
    intro k hk
    by_contra hne
    rw [tiny_refs, if_neg hne] at hk
    exact hk rfl
  refine ⟨⟨fun k hk => ?_, fun k hk => ?_, fun k l hk hkl => ?_, fun b hlo hhi hb => ?_,
    fun b hb => ?_⟩, fun i hi bn hbn => ?_, fun i hi => ?_⟩
  · rw [hne k hk, tiny_refs, if_pos rfl, smallSb_dataStart]
    exact ⟨Nat.le_refl 4, h.1⟩
  · rw [hne k hk, tiny_refs, if_pos rfl]
    decide
  · rw [hne k hk, hne l (hkl ▸ hk)]
  · refine ⟨(ROOTINO, 0), ?_⟩
    rw [smallSb_dataStart] at hlo
    have hb' : b < 5 := by simpa [tinyBitmap] using hb
    rw [tiny_refs, if_pos rfl]
    omega
  · rw [smallSb_dataStart] at hb
    simp only [tinyBitmap, decide_eq_true_eq]
    omega
  · rw [tiny_alloc hi, tinyDinode, if_pos rfl] at hbn ⊢
    have hbn0 : bn = 0 := by
      have : bn * 1024 < 32 := hbn
      omega
    subst hbn0
    rw [placeOf_direct (by decide), tiny_blockAt]
    decide
  · rw [tiny_alloc hi, tinyDinode, if_pos rfl]
    decide

theorem tiny_nlink_short (i : Nat) (hi : Alloc (smallSb size h) tinyDinode i) :
    short (tinyDinode i).nlink = (tinyDinode i).nlink := by
  rw [tiny_alloc hi, tinyDinode, if_pos rfl]
  decide

theorem tiny_good : Good (smallSb size h) tiny := boot_good tiny_diskOk tiny_nlink_short

/-- A call of the first process, with a path at the start of its memory. -/
def initCall (path : List UInt8) (call : Call) : Event :=
  { p := initproc, u := { read := fun a => (path ++ [0])[a]?, write := fun _ => true },
    env := { device := 0, killed := false, rings := [] }, call := call }

end Xv6.Fs
