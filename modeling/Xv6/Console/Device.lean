import Mathlib.Algebra.Ring.Nat
import Mathlib.Logic.Function.Basic
import Xv6.Lib.Machine

set_option autoImplicit false

/-! # The console

`consoleintr` and `consoleread` of `kernel/console.c`. The input is in a ring of bytes with three
indices that wrap at 2^32: `r` of the next byte to read, `w` after the last byte that may be read and
`e` after the last byte of the line that is being edited.

Both functions hold `cons.lock` from their start until they return or sleep, and
`sleep(&cons.r, &cons.lock)` lets go of the lock only once the process can be woken, so a whole
critical section is one step. `kill` takes no `cons.lock`: it may come at any time, and what
`killed()` returns in a critical section is part of the event. -/

namespace Xv6.Console

open Machine Function

/-! ## The ring -/

def INPUT_BUF_SIZE : Nat := 128

/-- What `consputc` is given to erase a character. -/
def BACKSPACE : Nat := 0x100

/-- Control-x. -/
def C (x : Char) : UInt8 := x.toUInt8 - '@'.toUInt8

def newline : UInt8 := '\n'.toUInt8

/-- `(c == '\r') ? '\n' : c`. -/
def translate (c : UInt8) : UInt8 := if c = '\r'.toUInt8 then newline else c

/-- The difference of two `uint`s. -/
def usub (a b : Nat) : Nat := (a + 2 ^ 32 - b) % 2 ^ 32

/-- The bytes that `consputc(c)` sends to the uart. -/
def consputc (c : Nat) : List UInt8 :=
  if c = BACKSPACE then ['\x08'.toUInt8, ' '.toUInt8, '\x08'.toUInt8] else [c.toUInt8]

/-- `struct cons` without its lock. -/
structure Cons where
  buf : Nat → UInt8
  r : Nat
  w : Nat
  e : Nat

/-- What a key does to a console `D`: the bytes echoed, and whether `wakeup(&cons.r)` is called. -/
structure Key (D : Type) where
  dev : D
  echo : List UInt8
  wakeup : Bool

/-- The loop of control-U. `fuel` bounds the number of its turns. -/
def killLine : Nat → Cons → Cons × List UInt8
  | 0, s => (s, [])
  | fuel + 1, s =>
    if s.e ≠ s.w ∧ s.buf (usub s.e 1 % INPUT_BUF_SIZE) ≠ newline then
      let (s', echo) := killLine fuel { s with e := usub s.e 1 }
      (s', consputc BACKSPACE ++ echo)
    else (s, [])

/-- `consoleintr(c)`. What `procdump` prints for control-P is left out. -/
def consoleintr (s : Cons) (c : UInt8) : Key Cons :=
  if c = C 'P' then ⟨s, [], false⟩
  else if c = C 'U' then
    -- every turn moves `e` one step towards `w`
    let (s', echo) := killLine (usub s.e s.w) s
    ⟨s', echo, false⟩
  else if c = C 'H' ∨ c = 0x7f then
    if s.e ≠ s.w then ⟨{ s with e := usub s.e 1 }, consputc BACKSPACE, false⟩ else ⟨s, [], false⟩
  else if c ≠ 0 ∧ usub s.e s.r < INPUT_BUF_SIZE then
    let c := translate c
    let buf := update s.buf (s.e % INPUT_BUF_SIZE) c
    let e := (s.e + 1) % 2 ^ 32
    if c = newline ∨ c = C 'D' ∨ usub e s.r = INPUT_BUF_SIZE then
      ⟨{ s with buf, e, w := e }, consputc c.toNat, true⟩
    else ⟨{ s with buf, e }, consputc c.toNat, false⟩
  else ⟨s, [], false⟩

/-! ## Reading -/

/-- A call of `consoleread`: the length asked for, what is left of it, how many bytes of the
    destination can be written, and the bytes written there. -/
structure Read where
  target : Nat
  n : Nat
  room : Nat
  out : List UInt8
  deriving DecidableEq, Repr

/-- Why a call of `consoleread` ended. -/
inductive End where
  /-- `n` bytes are there. -/
  | full
  /-- A newline was read. -/
  | line
  /-- A control-D was read; it was put back if `kept`. -/
  | eof (kept : Bool)
  /-- The byte could not be written to the destination. -/
  | fault (c : UInt8)
  | killed
  deriving DecidableEq, Repr

/-- What the call returns. -/
def End.result (k : Read) : End → Int
  | .killed => -1
  | _ => (k.target : Int) - k.n

/-- What a critical section of `consoleread` does: the call as it is then, the bytes that are gone
    from the ring, and why the call ends if it has not run out of input (`cons.r == cons.w`). -/
structure Turn (D : Type) where
  dev : D
  read : Read
  taken : List UInt8
  stop : Option End

/-- The loop of `consoleread` up to the end of the call or a `sleep`. -/
def readLoop (target room : Nat) : Nat → List UInt8 → Cons → Turn Cons
  | 0, out, s => ⟨s, ⟨target, 0, room, out⟩, [], some .full⟩
  | n + 1, out, s =>
    if s.r = s.w then ⟨s, ⟨target, n + 1, room, out⟩, [], none⟩
    else
      let c := s.buf (s.r % INPUT_BUF_SIZE)
      let s' := { s with r := (s.r + 1) % 2 ^ 32 }
      if c = C 'D' then
        if n + 1 < target then
          ⟨{ s' with r := usub s'.r 1 }, ⟨target, n + 1, room, out⟩, [], some (.eof true)⟩
        else ⟨s', ⟨target, n + 1, room, out⟩, [c], some (.eof false)⟩
      -- either_copyout(user_dst, dst, &cbuf, 1) == -1
      else if room ≤ out.length then ⟨s', ⟨target, n + 1, room, out⟩, [c], some (.fault c)⟩
      else if c = newline then ⟨s', ⟨target, n, room, out ++ [c]⟩, [c], some .line⟩
      else
        let t := readLoop target room n (out ++ [c]) s'
        { t with taken := c :: t.taken }

/-- A critical section of `consoleread`. -/
def consoleread (s : Cons) (k : Read) : Turn Cons := readLoop k.target k.room k.n k.out s

/-! ## Keys and readers -/

/-- The two functions of a console. -/
structure Device (D : Type) where
  intr : D → UInt8 → Key D
  read : D → Read → Turn D

/-- The console of the kernel. -/
def kernel : Device Cons := ⟨consoleintr, consoleread⟩

/-- Where a process is. -/
inductive Pc where
  /-- Not in `consoleread`; the last call returned `r`. -/
  | ret (r : Int)
  /-- About to acquire `cons.lock`, at the start of `consoleread` or in `sleep`. -/
  | acquire (k : Read)
  /-- `SLEEPING` on `&cons.r`. -/
  | asleep (k : Read)
  deriving DecidableEq, Repr

/-- What `wakeup(&cons.r)` does to a process. -/
def Pc.wakeup : Pc → Pc
  | .asleep k => .acquire k
  | c => c

/-- A console and the processes that read from it. -/
structure State (P D : Type) where
  cons : D
  pc : P → Pc
  /-- The bytes echoed so far. -/
  uart : List UInt8
  /-- The bytes that are gone from the ring, with the process that took each. -/
  taken : List (P × UInt8)
  /-- The calls that have ended, in the order in which they did. -/
  reads : List (P × Read × End)

inductive Event (P : Type) where
  | consoleintr (c : UInt8)
  /-- `room` is the number of bytes of the destination before the first that cannot be written. -/
  | consoleread (p : P) (n : Int) (room : Nat)
  /-- The next critical section of the process's call. -/
  | turn (p : P) (killed : Bool)
  | kill (p : P)

variable {P D : Type} [DecidableEq P]

/-- The call of `p` ends. -/
def State.finish (s : State P D) (p : P) (k : Read) (e : End) : State P D :=
  { s with pc := update s.pc p (.ret (e.result k)), reads := s.reads ++ [(p, k, e)] }

/-- `p` has given up the lock, with the console as the section left it. -/
def State.leave (s : State P D) (p : P) (killed : Bool) (t : Turn D) : State P D :=
  let s' := { s with cons := t.dev, taken := s.taken ++ t.taken.map (p, ·) }
  match t.stop with
  | some e => s'.finish p t.read e
  | none =>
    if killed then s'.finish p t.read .killed
    else { s' with pc := update s.pc p (.asleep t.read) }

def State.press (s : State P D) (k : Key D) : State P D :=
  { s with
    cons := k.dev
    uart := s.uart ++ k.echo
    pc := if k.wakeup then fun p => (s.pc p).wakeup else s.pc }

def step (dev : Device D) (s : State P D) : Event P → Outcome Empty (State P D)
  | .consoleintr c => .next (s.press (dev.intr s.cons c))
  | .consoleread p n room =>
    match s.pc p with
    -- for a negative `n` the loop does not run and `target - n` is 0 too
    | .ret _ => .next { s with pc := update s.pc p (.acquire ⟨n.toNat, n.toNat, room, []⟩) }
    | _ => .disabled
  | .turn p killed =>
    match s.pc p with
    | .acquire k => .next (s.leave p killed (dev.read s.cons k))
    | _ => .disabled
  | .kill p => .next { s with pc := update s.pc p (s.pc p).wakeup }

/-- No key pressed and no call made. -/
def State.init (d : D) : State P D := ⟨d, fun _ => .ret 0, [], [], []⟩

/-- The console at boot. -/
def Cons.init : Cons := ⟨fun _ => 0, 0, 0, 0⟩

end Xv6.Console
