import Xv6.Fs.Dir

set_option autoImplicit false

/-! # Open files and pipes

`kernel/file.c` and `kernel/pipe.c`. What comes from outside the file system is an argument: the
page `kalloc` finds, what a device driver returns, whether the process has been killed, and what
other processes have done to a pipe each time the call has slept on it (`Ring`). -/

namespace Xv6.Fs

variable (sb : Superblock)

/-- The contents of a pipe when a sleeping call goes on. -/
structure Ring where
  data : Nat → UInt8
  nread : Nat
  nwrite : Nat

/-! ## Pipes -/

/-- The pipe in a page. -/
def getPipe (pi : Nat) : FsM Pipe := do
  let s ← get
  match s.pipe pi with
  | some q => pure q
  | none => throw .outside

def setPipe (pi : Nat) (q : Pipe) : FsM Unit :=
  modify fun s => s.withPipe pi (some q)

/-- `kfree` of the page of a pipe. -/
def kfreePipe (pi : Nat) : FsM Unit := do
  let _ ← getPipe pi
  modify fun s => s.withPipe pi none

/-- `kalloc` has found the page: it is not in use. -/
def kallocPipe (pi : Nat) (q : Pipe) : FsM Unit := do
  let s ← get
  match s.pipe pi with
  | some _ => throw .outside
  | none => setPipe pi q

def pipeclose (pi : Nat) (writable : Bool) : FsM Unit := do
  let q ← getPipe pi
  let q := if writable then { q with writeopen := false } else { q with readopen := false }
  setPipe pi q
  if q.readopen = false ∧ q.writeopen = false then kfreePipe pi else pure ()

/-- `sleep` on a pipe: other calls leave it in the next state of the list. -/
def sleepPipe (pi : Nat) : List Ring → FsM (List Ring)
  | [] => throw .stuck
  | r :: rs => do
    let q ← getPipe pi
    setPipe pi { q with data := r.data, nread := r.nread, nwrite := r.nwrite }
    pure rs

def pipewriteLoop (pi : Nat) (src : Nat → Option UInt8) (n : Int) (killed : Bool) :
    Nat → Nat → List Ring → FsM Int
  | 0, _, _ => throw .outside
  | rounds + 1, i, rs =>
    if (i : Int) < n then do
      let q ← getPipe pi
      if q.readopen = false ∨ killed = true then pure (-1)
      else if q.nwrite = (q.nread + PIPESIZE) % 2 ^ 32 then do
        let rs ← sleepPipe pi rs
        pipewriteLoop pi src n killed rounds i rs
      else
        match src i with
        | none => pure i
        | some ch => do
          setPipe pi { q with data := Function.update q.data (q.nwrite % PIPESIZE) ch,
                              nwrite := (q.nwrite + 1) % 2 ^ 32 }
          pipewriteLoop pi src n killed rounds (i + 1) rs
    else pure i

/-- A round writes a byte or sleeps. -/
def pipewrite (pi : Nat) (src : Nat → Option UInt8) (n : Int) (killed : Bool) (rs : List Ring) :
    FsM Int :=
  pipewriteLoop pi src n killed (n.toNat + rs.length + 1) 0 rs

def pipereadWait (pi : Nat) (killed : Bool) : Nat → List Ring → FsM Bool
  | 0, _ => throw .outside
  | rounds + 1, rs => do
    let q ← getPipe pi
    if q.nread = q.nwrite ∧ q.writeopen = true then
      if killed then pure false
      else do
        let rs ← sleepPipe pi rs
        pipereadWait pi killed rounds rs
    else pure true

def pipereadCopy (pi : Nat) (dst : Nat → Bool) : Nat → Nat → FsM Int
  | 0, i => pure i
  | rounds + 1, i => do
    let q ← getPipe pi
    if q.nread = q.nwrite then pure i
    else do
      setPipe pi { q with nread := (q.nread + 1) % 2 ^ 32 }
      if dst i then pipereadCopy pi dst rounds (i + 1) else pure i

def piperead (pi : Nat) (dst : Nat → Bool) (n : Int) (killed : Bool) (rs : List Ring) :
    FsM Int := do
  let go ← pipereadWait pi killed (rs.length + 1) rs
  if go then pipereadCopy pi dst n.toNat 0 else pure (-1)

/-! ## Files -/

/-- Allocate a file structure. -/
def filealloc : FsM (Option FileId) := do
  let s ← get
  match (List.finRange NFILE).find? (fun f => (s.ftable f).ref = 0) with
  | some f => do
    setFile f fun x => { x with ref := 1 }
    pure (some f)
  | none => pure none

/-- Increment ref count for file `f`. -/
def filedup (f : FileId) : FsM Unit := do
  let x ← getFile f
  if x.ref < 1 then panic .filedup else setFile f fun x => { x with ref := x.ref + 1 }

/-- Close file `f`. (Decrement ref count, close when reaches 0.) -/
def fileclose (f : FileId) : FsM Unit := do
  let ff ← getFile f
  if ff.ref < 1 then panic .fileclose
  else if ff.ref - 1 > 0 then setFile f fun x => { x with ref := x.ref - 1 }
  else do
    setFile f fun x => { x with ref := 0, type := .none }
    match ff.type with
    | .pipe => pipeclose ff.pipe ff.writable
    | .inode => transaction (iput sb ff.ip)
    | .device => transaction (iput sb ff.ip)
    | .none => pure ()

/-- `pipealloc`, with the page that `kalloc` returns. -/
def pipealloc (page : Option Nat) : FsM (Option (FileId × FileId)) := do
  let f0 ← filealloc
  match f0 with
  | none => pure none
  | some f0 => do
    let f1 ← filealloc
    match f1, page with
    | some f1, some pi => do
      kallocPipe pi { data := fun _ => 0, nread := 0, nwrite := 0, readopen := true,
                      writeopen := true }
      setFile f0 fun x => { x with type := .pipe, readable := true, writable := false,
                                   pipe := pi }
      setFile f1 fun x => { x with type := .pipe, readable := false, writable := true,
                                   pipe := pi }
      pure (some (f0, f1))
    | some f1, none => do
      fileclose sb f0
      fileclose sb f1
      pure none
    | none, _ => do
      fileclose sb f0
      pure none

/-- Get metadata about file `f`; `addr` tells whether `copyout` succeeds. -/
def filestat (f : FileId) (addr : Bool) : FsM Int := do
  let x ← getFile f
  if x.type = .inode ∨ x.type = .device then do
    ilock sb x.ip
    let _ ← stati x.ip
    iunlock x.ip
    if addr then pure 0 else pure (-1)
  else pure (-1)

/-- What a call gets from outside the file system. -/
structure Env where
  /-- The next result of a device driver. -/
  device : Int
  killed : Bool
  rings : List Ring

/-- `devsw[major].read` and `devsw[major].write` are set for the console only. -/
abbrev CONSOLE : Int := 1

/-- The result of reading from or writing to a device. -/
def deviceCall (major : Int) (env : Env) : FsM Int :=
  if major < 0 ∨ major ≥ NDEV ∨ major ≠ CONSOLE then pure (-1) else pure env.device

/-- A C `int` passed as a `uint`. -/
def toUint (n : Int) : Nat := (n % 2 ^ 32).toNat

/-- Read from file `f`. -/
def filereadWith (w : Writer) (f : FileId) (dst : Nat → Bool) (n : Int) (env : Env) : FsM Int := do
  let x ← getFile f
  if x.readable = false then pure (-1)
  else
    match x.type with
    | .pipe => piperead x.pipe dst n env.killed env.rings
    | .device => deviceCall x.major env
    | .inode => do
      ilock sb x.ip
      let (r, _) ← readiWith sb w x.ip dst x.off (toUint n)
      if r > 0 then setFile f fun x => { x with off := (x.off + r.toNat) % 2 ^ 32 } else pure ()
      iunlock x.ip
      pure r
    | .none => panic .fileread

def fileread : FileId → (Nat → Bool) → Int → Env → FsM Int := filereadWith sb (Writer.kernel sb)

/-- Bytes `filewrite` writes in one transaction. -/
abbrev writeMax : Nat := (MAXOPBLOCKS - 1 - 1 - 2) / 2 * BSIZE

/-- The loop of `filewrite`; every round but the last writes `writeMax` bytes. -/
def filewriteLoop (f : FileId) (ip : InodeId) (src : Nat → Option UInt8) (n : Nat) :
    Nat → Nat → FsM Int
  | 0, _ => throw .outside
  | rounds + 1, i =>
    if i < n then do
      let n1 := min (n - i) writeMax
      let r ← transaction do
        let x ← getFile f
        ilock sb ip
        let r ← writei sb ip (fun k => src (i + k)) x.off n1
        if r > 0 then setFile f fun x => { x with off := (x.off + r.toNat) % 2 ^ 32 } else pure ()
        iunlock ip
        pure r
      if r ≠ n1 then pure (-1) else filewriteLoop f ip src n rounds (i + n1)
    else pure n

/-- Write to file `f`. -/
def filewrite (f : FileId) (src : Nat → Option UInt8) (n : Int) (env : Env) : FsM Int := do
  let x ← getFile f
  if x.writable = false then pure (-1)
  else
    match x.type with
    | .pipe => pipewrite x.pipe src n env.killed env.rings
    | .device => deviceCall x.major env
    | .inode =>
      -- a negative length writes nothing and is not reached by the loop
      if n < 0 then pure (-1) else filewriteLoop sb f x.ip src n.toNat (n.toNat + 1) 0
    | .none => panic .filewrite

end Xv6.Fs
