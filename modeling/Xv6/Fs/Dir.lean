import Xv6.Fs.Inode

set_option autoImplicit false

/-! # Directories and paths

The last two layers of `kernel/fs.c`. A directory is a file of `struct dirent`s; a path is a C
string, here the list of its characters without the final `\0`. -/

namespace Xv6.Fs

variable (sb : Superblock)

/-! ## Directory entries -/

/-- `struct dirent`; `name` has `DIRSIZ` bytes. -/
structure Dirent where
  inum : Nat
  name : List UInt8
  deriving DecidableEq

/-- `sizeof(struct dirent)`. -/
abbrev DIRENT : Nat := 2 + DIRSIZ

/-- A C string in at most `DIRSIZ` bytes. -/
def cstr (s : List UInt8) : List UInt8 := (s.take DIRSIZ).takeWhile (· ≠ 0)

/-- `namecmp(s, t) == 0`. -/
def namecmp (s t : List UInt8) : Bool := cstr s = cstr t

/-- `strncpy(de.name, name, DIRSIZ)`. -/
def strncpy (name : List UInt8) : List UInt8 :=
  cstr name ++ List.replicate (DIRSIZ - (cstr name).length) 0

/-- The bytes of a `struct dirent`. -/
def Dirent.encode (de : Dirent) : List UInt8 :=
  [UInt8.ofNat de.inum, UInt8.ofNat (de.inum / 256)] ++ de.name

/-- The `struct dirent` in some bytes. -/
def Dirent.decode (bytes : List UInt8) : Dirent :=
  { inum := (bytes.getD 0 0).toNat + 256 * (bytes.getD 1 0).toNat, name := bytes.drop 2 }

/-- The offsets `start, start + DIRENT, …` below `size`. -/
def offsets (start size : Nat) : List Nat :=
  (List.range' (start / DIRENT) ((size + (DIRENT - 1)) / DIRENT - start / DIRENT)).map (DIRENT * ·)

/-- `readi` of one directory entry, with the caller's panic. -/
def readDirent (dp : InodeId) (off : Nat) (p : Panic) : FsM Dirent := do
  let (r, bytes) ← readi sb dp kernelDst off DIRENT
  if r = DIRENT then pure (Dirent.decode bytes) else panic p

def dirlookupLoop (dp : InodeId) (name : List UInt8) : List Nat → FsM (Option (InodeId × Nat))
  | [] => pure none
  | off :: offs => do
    let de ← readDirent sb dp off .dirlookupRead
    if de.inum ≠ 0 ∧ namecmp name de.name = true then do
      -- entry matches path element
      let ip ← iget de.inum
      pure (some (ip, off))
    else dirlookupLoop dp name offs

/-- Look for a directory entry in a directory. If found, also give the byte offset of entry. -/
def dirlookup (dp : InodeId) (name : List UInt8) : FsM (Option (InodeId × Nat)) := do
  let x ← getInode dp
  if x.type ≠ .dir then panic .dirlookupNotDir
  else dirlookupLoop sb dp name (offsets 0 x.size)

/-- The offset of the first empty entry, or the end. -/
def emptyDirent (dp : InodeId) (fin : Nat) : List Nat → FsM Nat
  | [] => pure fin
  | off :: offs => do
    let de ← readDirent sb dp off .dirlinkRead
    if de.inum = 0 then pure off else emptyDirent dp fin offs

/-- Write a new directory entry (name, inum) into the directory `dp`; whether it succeeds. -/
def dirlink (dp : InodeId) (name : List UInt8) (inum : Nat) : FsM Bool := do
  -- check that name is not present
  let found ← dirlookup sb dp name
  match found with
  | some (ip, _) => do
    iput sb ip
    pure false
  | none => do
    let x ← getInode dp
    let off ← emptyDirent sb dp (DIRENT * ((x.size + (DIRENT - 1)) / DIRENT)) (offsets 0 x.size)
    let de : Dirent := { inum := inum, name := strncpy name }
    let r ← writei sb dp (kernelSrc de.encode) off DIRENT
    pure (r = DIRENT)

def isdiremptyLoop (dp : InodeId) : List Nat → FsM Bool
  | [] => pure true
  | off :: offs => do
    let de ← readDirent sb dp off .isdirempty
    if de.inum ≠ 0 then pure false else isdiremptyLoop dp offs

/-- Is the directory `dp` empty except for "." and ".." ? -/
def isdirempty (dp : InodeId) : FsM Bool := do
  let x ← getInode dp
  isdiremptyLoop sb dp (offsets (2 * DIRENT) x.size)

/-! ## Paths -/

/-- The character `/`. -/
abbrev slash : UInt8 := 47

/-- The character `.`. -/
abbrev period : UInt8 := 46

/-- The next path element and the rest of the path, without leading slashes. -/
def skipelem (path : List UInt8) : Option (List UInt8 × List UInt8) :=
  let path := path.dropWhile (· = slash)
  if path = [] then none
  else some ((path.takeWhile (· ≠ slash)).take DIRSIZ,
    (path.dropWhile (· ≠ slash)).dropWhile (· = slash))

/-- The loop of `namex`: one round for each path element. -/
def namexLoop (nameiparent : Bool) :
    Nat → List UInt8 → InodeId → FsM (Option (InodeId × List UInt8))
  | 0, _, _ => throw .outside
  | rounds + 1, path, ip =>
    match skipelem path with
    | none =>
      if nameiparent then do
        iput sb ip
        pure none
      else pure (some (ip, []))
    | some (name, path) => do
      ilock sb ip
      let x ← getInode ip
      if x.type ≠ .dir then do
        iunlockput sb ip
        pure none
      else if nameiparent = true ∧ path = [] then do
        -- stop one level early
        iunlock ip
        pure (some (ip, name))
      else do
        let next ← dirlookup sb ip name
        match next with
        | none => do
          iunlockput sb ip
          pure none
        | some (next, _) => do
          iunlockput sb ip
          namexLoop nameiparent rounds path next

/-- Look up the inode for a path name, or its parent and the final path element. -/
def namex (p : ProcId) (path : List UInt8) (nameiparent : Bool) :
    FsM (Option (InodeId × List UInt8)) := do
  let s ← get
  let ip ←
    if path.head? = some slash then iget ROOTINO
    else
      match (s.proc p).cwd with
      | some cwd => idup cwd
      | none => throw .outside
  namexLoop sb nameiparent (path.length + 1) path ip

def namei (p : ProcId) (path : List UInt8) : FsM (Option InodeId) := do
  let r ← namex sb p path false
  pure (r.map Prod.fst)

def nameiparent (p : ProcId) (path : List UInt8) : FsM (Option (InodeId × List UInt8)) :=
  namex sb p path true

end Xv6.Fs
