import Xv6.Fs.File
import Xv6.Lib.Machine

set_option autoImplicit false

/-! # System calls on files

`kernel/sysfile.c`, and of `kernel/proc.c` and `kernel/exec.c` what concerns files. A call is given
by its arguments, the user memory of the process (`User`) and what it gets from outside (`Env`).
`-1` is the result of every call that fails. `Xv6.Fs.step` runs one call of one process; a run of
the machine is a sequence of completed calls. -/

namespace Xv6.Fs

open Machine

variable (sb : Superblock)

/-- The user memory of a process: what can be read, and where it can be written. -/
structure User where
  read : Nat → Option UInt8
  write : Nat → Bool

/-- `copyinstr`: the string at `addr`, if it ends within `max` bytes. -/
def copyinstr (u : User) : Nat → Nat → Option (List UInt8)
  | _, 0 => none
  | addr, max + 1 =>
    match u.read addr with
    | none => none
    | some c => if c = 0 then some [] else (copyinstr u (addr + 1) max).map (c :: ·)

/-- `argstr` of a path. -/
def argstr (u : User) (addr : Nat) : Option (List UInt8) := copyinstr u addr MAXPATH

/-- A source in user memory. -/
def userSrc (u : User) (addr : Nat) : Nat → Option UInt8 := fun k => u.read ((addr + k) % 2 ^ 64)

/-- A destination in user memory. -/
def userDst (u : User) (addr : Nat) : Nat → Bool := fun k => u.write ((addr + k) % 2 ^ 64)

/-- Whether `copyout` of `len` bytes succeeds. -/
def copyout (u : User) (addr len : Nat) : Bool := (List.range len).all (userDst u addr)

/-! ## File descriptors -/

/-- `argfd`: the descriptor and the file. -/
def argfd (p : ProcId) (fd : Int) : FsM (Option (Fin NOFILE × FileId)) := do
  let x ← getProc p
  if h : 0 ≤ fd ∧ fd < NOFILE then
    let i : Fin NOFILE := ⟨fd.toNat, by omega⟩
    pure ((x.ofile i).map fun f => (i, f))
  else pure none

/-- `p->ofile[fd] = f`. -/
def setFd (p : ProcId) (fd : Fin NOFILE) (f : Option FileId) : FsM Unit :=
  setProc p fun x => { x with ofile := Function.update x.ofile fd f }

/-- Allocate a file descriptor for the given file. -/
def fdalloc (p : ProcId) (f : FileId) : FsM (Option (Fin NOFILE)) := do
  let x ← getProc p
  match (List.finRange NOFILE).find? (fun fd => x.ofile fd = none) with
  | some fd => do
    setFd p fd (some f)
    pure (some fd)
  | none => pure none

def sysDup (p : ProcId) (fd : Int) : FsM Int := do
  let r ← argfd p fd
  match r with
  | none => pure (-1)
  | some (_, f) => do
    let r ← fdalloc p f
    match r with
    | none => pure (-1)
    | some fd => do
      filedup f
      pure fd.val

def sysRead (p : ProcId) (u : User) (env : Env) (fd : Int) (addr : Nat) (n : Int) : FsM Int := do
  let r ← argfd p fd
  match r with
  | none => pure (-1)
  | some (_, f) => fileread sb f (userDst u addr) n env

def sysWrite (p : ProcId) (u : User) (env : Env) (fd : Int) (addr : Nat) (n : Int) : FsM Int := do
  let r ← argfd p fd
  match r with
  | none => pure (-1)
  | some (_, f) => filewrite sb f (userSrc u addr) n env

def sysClose (p : ProcId) (fd : Int) : FsM Int := do
  let r ← argfd p fd
  match r with
  | none => pure (-1)
  | some (fd, f) => do
    setFd p fd none
    fileclose sb f
    pure 0

/-- `sizeof(struct stat)`. -/
abbrev STAT : Nat := 24

def sysFstat (p : ProcId) (u : User) (fd : Int) (addr : Nat) : FsM Int := do
  let r ← argfd p fd
  match r with
  | none => pure (-1)
  | some (_, f) => filestat sb f (copyout u addr STAT)

/-! ## Names -/

/-- `ip->nlink += d`. -/
def addNlink (d : Int) (x : Inode) : Inode := { x with nlink := short (x.nlink + d) }

/-- The end of `sys_link` when the new name cannot be made. -/
def linkBad (ip : InodeId) : FsM Int := do
  ilock sb ip
  setInode ip (addNlink (-1))
  iupdate sb ip
  iunlockput sb ip
  pure (-1)

/-- Create the path `new` as a link to the same inode as `old`. -/
def sysLink (p : ProcId) (u : User) (old new : Nat) : FsM Int :=
  match argstr u old, argstr u new with
  | some old, some new => transaction do
    let r ← namei sb p old
    match r with
    | none => pure (-1)
    | some ip => do
      ilock sb ip
      let x ← getInode ip
      if x.type = .dir then do
        iunlockput sb ip
        pure (-1)
      else do
        setInode ip (addNlink 1)
        iupdate sb ip
        iunlock ip
        let r ← nameiparent sb p new
        match r with
        | none => linkBad sb ip
        | some (dp, name) => do
          ilock sb dp
          let ok ← dirlink sb dp name x.inum
          if ok = false then do
            iunlockput sb dp
            linkBad sb ip
          else do
            iunlockput sb dp
            iput sb ip
            pure 0
  | _, _ => pure (-1)

/-- The name ".". -/
abbrev dot : List UInt8 := [period]

/-- The name "..". -/
abbrev dotdot : List UInt8 := [period, period]

/-- The part of `sys_unlink` after the entry `name` of `dp` has been found at `off`. -/
def unlinkEntry (dp ip : InodeId) (off : Nat) : FsM Int := do
  ilock sb ip
  let x ← getInode ip
  if x.nlink < 1 then panic .unlinkNlink
  else do
    let busy ← if x.type = .dir then do
        let e ← isdirempty sb ip
        pure (!e)
      else pure false
    if busy then do
      iunlockput sb ip
      iunlockput sb dp
      pure (-1)
    else do
      let r ← writei sb dp (kernelSrc (List.replicate DIRENT 0)) off DIRENT
      if r ≠ DIRENT then panic .unlinkWritei
      else do
        if x.type = .dir then do
          setInode dp (addNlink (-1))
          iupdate sb dp
        else pure ()
        iunlockput sb dp
        setInode ip (addNlink (-1))
        iupdate sb ip
        iunlockput sb ip
        pure 0

def sysUnlink (p : ProcId) (u : User) (path : Nat) : FsM Int :=
  match argstr u path with
  | none => pure (-1)
  | some path => transaction do
    let r ← nameiparent sb p path
    match r with
    | none => pure (-1)
    | some (dp, name) => do
      ilock sb dp
      -- cannot unlink "." or ".."
      if namecmp name dot = true ∨ namecmp name dotdot = true then do
        iunlockput sb dp
        pure (-1)
      else do
        let r ← dirlookup sb dp name
        match r with
        | none => do
          iunlockput sb dp
          pure (-1)
        | some (ip, off) => unlinkEntry sb dp ip off

/-- The end of `create` when something went wrong: de-allocate `ip`. -/
def createFail (dp ip : InodeId) : FsM (Option InodeId) := do
  setInode ip fun x => { x with nlink := 0 }
  iupdate sb ip
  iunlockput sb ip
  iunlockput sb dp
  pure none

/-- The part of `create` that makes a new inode with the name `name` in `dp`. -/
def createNew (dp : InodeId) (name : List UInt8) (type : FileType) (major minor : Int) :
    FsM (Option InodeId) := do
  let r ← ialloc sb type
  match r with
  | none => do
    iunlockput sb dp
    pure none
  | some ip => do
    ilock sb ip
    setInode ip fun x => { x with major := short major, minor := short minor, nlink := 1 }
    iupdate sb ip
    let x ← getInode ip
    let d ← getInode dp
    -- create . and .. entries
    let ok ← if type = .dir then do
        let ok ← dirlink sb ip dot x.inum
        if ok then dirlink sb ip dotdot d.inum else pure false
      else pure true
    if ok = false then createFail sb dp ip
    else do
      let ok ← dirlink sb dp name x.inum
      if ok = false then createFail sb dp ip
      else do
        -- now that success is guaranteed
        if type = .dir then do
          setInode dp (addNlink 1)
          iupdate sb dp
        else pure ()
        iunlockput sb dp
        pure (some ip)

/-- `create` gives a locked inode. -/
def create (p : ProcId) (path : List UInt8) (type : FileType) (major minor : Int) :
    FsM (Option InodeId) := do
  let r ← nameiparent sb p path
  match r with
  | none => pure none
  | some (dp, name) => do
    ilock sb dp
    let r ← dirlookup sb dp name
    match r with
    | some (ip, _) => do
      iunlockput sb dp
      ilock sb ip
      let x ← getInode ip
      if type = .file ∧ (x.type = .file ∨ x.type = .device) then pure (some ip)
      else do
        iunlockput sb ip
        pure none
    | none => createNew sb dp name type major minor

/-! ## Opening files and directories -/

/-- `O_WRONLY`, `O_RDWR`, `O_CREATE` and `O_TRUNC` are bits of `omode`. -/
abbrev O_WRONLY : Nat := 0
abbrev O_RDWR : Nat := 1
abbrev O_CREATE : Nat := 9
abbrev O_TRUNC : Nat := 10

/-- The inode to open, locked. -/
def openInode (p : ProcId) (path : List UInt8) (omode : Nat) : FsM (Option InodeId) :=
  if omode.testBit O_CREATE then create sb p path .file 0 0
  else do
    let r ← namei sb p path
    match r with
    | none => pure none
    | some ip => do
      ilock sb ip
      let x ← getInode ip
      if x.type = .dir ∧ omode ≠ 0 then do
        iunlockput sb ip
        pure none
      else pure (some ip)

/-- `f` becomes an open file of `ip`. -/
def openFile (f : FileId) (ip : InodeId) (omode : Nat) : FsM Unit := do
  let x ← getInode ip
  if x.type = .device then setFile f fun y => { y with type := .device, major := x.major }
  else setFile f fun y => { y with type := .inode, off := 0 }
  setFile f fun y => { y with ip := ip, readable := !omode.testBit O_WRONLY,
                              writable := omode.testBit O_WRONLY || omode.testBit O_RDWR }
  if omode.testBit O_TRUNC = true ∧ x.type = .file then itrunc sb ip else pure ()

def sysOpen (p : ProcId) (u : User) (path omode : Nat) : FsM Int :=
  match argstr u path with
  | none => pure (-1)
  | some path => transaction do
    let r ← openInode sb p path omode
    match r with
    | none => pure (-1)
    | some ip => do
      let x ← getInode ip
      if x.type = .device ∧ (x.major < 0 ∨ x.major ≥ NDEV) then do
        iunlockput sb ip
        pure (-1)
      else do
        let r ← filealloc
        match r with
        | none => do
          iunlockput sb ip
          pure (-1)
        | some f => do
          let r ← fdalloc p f
          match r with
          | none => do
            fileclose sb f
            iunlockput sb ip
            pure (-1)
          | some fd => do
            openFile sb f ip omode
            iunlock ip
            pure fd.val

/-- `sys_mkdir` and `sys_mknod` after fetching their arguments. -/
def makeInode (p : ProcId) (u : User) (path : Nat) (type : FileType) (major minor : Int) :
    FsM Int :=
  match argstr u path with
  | none => pure (-1)
  | some path => transaction do
    let r ← create sb p path type major minor
    match r with
    | none => pure (-1)
    | some ip => do
      iunlockput sb ip
      pure 0

def sysMkdir (p : ProcId) (u : User) (path : Nat) : FsM Int := makeInode sb p u path .dir 0 0

def sysMknod (p : ProcId) (u : User) (path : Nat) (major minor : Int) : FsM Int :=
  makeInode sb p u path .device major minor

/-- `p->cwd`, which a process in use has. -/
def getCwd (p : ProcId) : FsM InodeId := do
  let x ← getProc p
  match x.cwd with
  | some cwd => pure cwd
  | none => throw .outside

def sysChdir (p : ProcId) (u : User) (path : Nat) : FsM Int :=
  match argstr u path with
  | none => pure (-1)
  | some path => transaction do
    let r ← namei sb p path
    match r with
    | none => pure (-1)
    | some ip => do
      ilock sb ip
      let x ← getInode ip
      if x.type ≠ .dir then do
        iunlockput sb ip
        pure (-1)
      else do
        iunlock ip
        let cwd ← getCwd p
        iput sb cwd
        setProc p fun x => { x with cwd := some ip }
        pure 0

/-- `sys_exec`: what it does with the file. Which parts it reads before it succeeds or gives up
    depends on the ELF headers and on the memory there is. -/
def sysExec (p : ProcId) (u : User) (path : Nat) (reads : List (UInt32 × UInt32)) : FsM Int :=
  match argstr u path with
  | none => pure (-1)
  | some path => transaction do
    let r ← namei sb p path
    match r with
    | none => pure (-1)
    | some ip => do
      ilock sb ip
      reads.forM fun r => do
        let _ ← readi sb ip kernelDst r.1.toNat r.2.toNat
        pure ()
      iunlockput sb ip
      pure 0

/-- `sys_pipe`, with the page that `kalloc` returns. -/
def sysPipe (p : ProcId) (u : User) (fdarray : Nat) (page : Option Nat) : FsM Int := do
  let r ← pipealloc sb page
  match r with
  | none => pure (-1)
  | some (rf, wf) => do
    let fd0 ← fdalloc p rf
    match fd0 with
    | none => do
      fileclose sb rf
      fileclose sb wf
      pure (-1)
    | some fd0 => do
      let fd1 ← fdalloc p wf
      match fd1 with
      | none => do
        setFd p fd0 none
        fileclose sb rf
        fileclose sb wf
        pure (-1)
      | some fd1 =>
        if copyout u fdarray 4 = true ∧ copyout u (fdarray + 4) 4 = true then pure 0
        else do
          setFd p fd0 none
          setFd p fd1 none
          fileclose sb rf
          fileclose sb wf
          pure (-1)

/-! ## Processes -/

/-- `initproc`. -/
abbrev initproc : ProcId := 0

/-- `fork`; `memory` tells whether there is enough of it for the child. -/
def sysFork (p : ProcId) (memory : Bool) : FsM Int := do
  let s ← get
  match (List.finRange NPROC).find? (fun q => (s.proc q).state = .unused) with
  | none => pure (-1)
  | some np =>
    if memory = false then pure (-1)
    else do
      -- increment reference counts on open file descriptors
      (List.finRange NOFILE).forM fun i => do
        let x ← getProc p
        match x.ofile i with
        | none => pure ()
        | some f => do
          filedup f
          setFd np i (some f)
      let cwd ← getCwd p
      let cwd ← idup cwd
      setProc np fun x => { x with cwd := some cwd, parent := some p, state := .used }
      pure np.val

/-- `exit` of a process other than `initproc`. -/
def sysExit (p : ProcId) : FsM Int := do
  if p = initproc then panic .initExiting
  else do
    -- close all open files
    (List.finRange NOFILE).forM fun fd => do
      let x ← getProc p
      match x.ofile fd with
      | none => pure ()
      | some f => do
        fileclose sb f
        setFd p fd none
    let cwd ← getCwd p
    transaction (iput sb cwd)
    setProc p fun x => { x with cwd := none, state := .zombie }
    -- give any children to init
    modify fun s => { s with proc := fun q =>
      if (s.proc q).parent = some p then { s.proc q with parent := some initproc } else s.proc q }
    pure 0

/-- `wait`, when there is something to return. -/
def sysWait (p : ProcId) (u : User) (env : Env) (addr : Nat) : FsM Int := do
  let s ← get
  match (List.finRange NPROC).find?
      (fun q => (s.proc q).parent = some p ∧ (s.proc q).state = .zombie) with
  | some q =>
    if addr ≠ 0 ∧ copyout u addr 4 = false then pure (-1)
    else do
      -- freeproc
      setProc q fun x => { x with state := .unused, parent := none }
      pure q.val
  | none =>
    if (List.finRange NPROC).all (fun q => (s.proc q).parent ≠ some p) ∨ env.killed = true then
      pure (-1)
    else throw .stuck

/-! ## Calls -/

/-- The system calls on files; addresses and integers as the process passes them. -/
inductive Call where
  | dup (fd : Int)
  | read (fd : Int) (addr : Nat) (n : Int)
  | write (fd : Int) (addr : Nat) (n : Int)
  | close (fd : Int)
  | fstat (fd : Int) (addr : Nat)
  | link (old new : Nat)
  | unlink (path : Nat)
  | open (path omode : Nat)
  | mkdir (path : Nat)
  | mknod (path : Nat) (major minor : Int)
  | chdir (path : Nat)
  | exec (path : Nat) (reads : List (UInt32 × UInt32))
  | pipe (fdarray : Nat) (page : Option Nat)
  | fork (memory : Bool)
  | exit
  | wait (addr : Nat)

/-- A call of a process, with all it depends on. -/
structure Event where
  p : ProcId
  u : User
  env : Env
  call : Call

/-- `syscall`. -/
def syscall (e : Event) : FsM Int :=
  match e.call with
  | .dup fd => sysDup e.p fd
  | .read fd addr n => sysRead sb e.p e.u e.env fd addr n
  | .write fd addr n => sysWrite sb e.p e.u e.env fd addr n
  | .close fd => sysClose sb e.p fd
  | .fstat fd addr => sysFstat sb e.p e.u fd addr
  | .link old new => sysLink sb e.p e.u old new
  | .unlink path => sysUnlink sb e.p e.u path
  | .open path omode => sysOpen sb e.p e.u path omode
  | .mkdir path => sysMkdir sb e.p e.u path
  | .mknod path major minor => sysMknod sb e.p e.u path major minor
  | .chdir path => sysChdir sb e.p e.u path
  | .exec path reads => sysExec sb e.p e.u path reads
  | .pipe fdarray page => sysPipe sb e.p e.u fdarray page
  | .fork memory => sysFork e.p memory
  | .exit => sysExit sb e.p
  | .wait addr => sysWait e.p e.u e.env addr

/-- A process that runs can make the call; `kalloc` never returns a page that is in use. -/
def Event.enabled (e : Event) (s : State) : Bool :=
  (s.proc e.p).state = .used &&
    match e.call with
    | .pipe _ (some pi) => (s.pipe pi).isNone
    | _ => true

/-- One completed call; a call that waits for ever does not complete. -/
def step (s : State) (e : Event) : Outcome Stop State :=
  Outcome.guard (e.enabled s) <|
    match syscall sb e s with
    | .ok (_, s') => .next s'
    | .error .stuck => .disabled
    | .error stop => .panic stop

end Xv6.Fs
