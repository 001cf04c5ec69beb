import Mathlib.Algebra.Ring.Nat
import Xv6.Lib.Circle
import Xv6.Lib.Machine

set_option autoImplicit false

/-! # The user-level memory allocator

`malloc`, `free` and `morecore` of `user/umalloc.c`. A block is a header, of 16 bytes, and the memory
behind it. A loop over the free list is given a number of turns that it may take (`turns`); a call whose
loop is not done by then is `stuck`.

What the functions work on is an `Arena`: a state with the headers in it, and `sbrk`. Here addresses are
counted in headers, and `sbrk` is the environment's (`headers`): it gives a region above all earlier ones,
or fails. It cannot give more than the machine has, which is what keeps the field `size`, a `uint`, from
wrapping. -/

namespace Xv6.Malloc

open Machine

/-- `sizeof(Header)`. -/
def HEADER : Nat := 16

/-- The headers in the memory of the machine, `PHYSTOP - KERNBASE` bytes. -/
def MEMORY : Nat := 128 * 1024 * 1024 / HEADER

/-- The headers by their address, and `freep`. -/
structure Heap where
  ptr : Nat → Nat
  size : Nat → Nat
  freep : Option Nat

/-- `a->s.ptr = b;` -/
@[simps -fullyApplied]
def Heap.setPtr (h : Heap) (a b : Nat) : Heap := { h with ptr := Function.update h.ptr a b }

/-- `a->s.size = n;` -/
@[simps -fullyApplied]
def Heap.setSize (h : Heap) (a n : Nat) : Heap := { h with size := Function.update h.size a n }

/-- How many turns a loop may take: twice round a list of all blocks that fit into the memory. -/
def turns : Nat := 2 * (MEMORY + 2)

/-! ## `free` -/

/-- `p` is where `bp` belongs: between `p` and the next block, or at the end where the list wraps. -/
def isPlace (h : Heap) (bp p : Nat) : Bool :=
  bp > p ∧ bp < h.ptr p ∨ p ≥ h.ptr p ∧ (bp > p ∨ bp < h.ptr p)

/-- Join `bp` to the block after it, or let it point there; headers next to each other are `unit` apart. -/
def joinUpper (unit : Nat) (h : Heap) (bp p : Nat) : Heap :=
  if bp + unit * h.size bp = h.ptr p then
    (h.setSize bp ((h.size bp + h.size (h.ptr p)) % 2 ^ 32)).setPtr bp (h.ptr (h.ptr p))
  else h.setPtr bp (h.ptr p)

/-- Join `p` to `bp`, or let it point there. -/
def joinLower (unit : Nat) (h : Heap) (bp p : Nat) : Heap :=
  if p + unit * h.size p = bp then
    (h.setSize p ((h.size p + h.size bp) % 2 ^ 32)).setPtr p (h.ptr bp)
  else h.setPtr p bp

/-- `free`, for the block with the header `bp`. -/
def free (unit : Nat) (h : Heap) (bp : Nat) : Option Heap :=
  match h.freep with
  | none => none
  | some start =>
    (Circle.search (isPlace h bp) h.ptr turns start).map fun p =>
      { joinLower unit (joinUpper unit h bp p) bp p with freep := some p }

/-! ## `morecore` -/

/-- What the functions work on. -/
structure Arena (σ : Type) where
  /-- The distance between headers next to each other. -/
  unit : Nat
  heap : σ → Heap
  put : σ → Heap → σ
  /-- `sbrk` for a number of headers: the address of the region, if it does not fail. -/
  sbrk : σ → Nat → Option (σ × Option Nat)
  unit_pos : 0 < unit
  heap_put : ∀ s h, heap (put s h) = h

section

variable {σ : Type} (A : Arena σ)

/-- `morecore(nu)`, with `freep` or 0. -/
def morecore (s : σ) (nu : Nat) : Option (σ × Option Nat) :=
  let nu := if nu < 4096 then 4096 else nu
  match A.sbrk s nu with
  | none => none
  | some (s', none) => some (s', none)
  | some (s', some hp) =>
    (free A.unit ((A.heap s').setSize hp nu) hp).map fun h => (A.put s' h, h.freep)

/-! ## `malloc` -/

/-- Take a block of `nunits` out of `p`, which comes after `prevp`. -/
def take (unit : Nat) (h : Heap) (nunits prevp p : Nat) : Heap × Nat :=
  if h.size p = nunits then ({ h.setPtr prevp (h.ptr p) with freep := some prevp }, p)
  else
    let h' := h.setSize p (h.size p - nunits)
    let q := p + unit * h'.size p
    ({ h'.setSize q nunits with freep := some prevp }, q)

/-- The loop of `malloc`. -/
def mallocLoop (nunits : Nat) : Nat → σ → Nat → Nat → Option (σ × Option Nat)
  | 0, _, _, _ => none
  | fuel + 1, s, prevp, p =>
    if (A.heap s).size p ≥ nunits then
      let (h, b) := take A.unit (A.heap s) nunits prevp p
      some (A.put s h, some b)
    else if (A.heap s).freep = some p then
      match morecore A s nunits with
      | none => none
      | some (s', none) => some (s', none)
      | some (s', some p') => mallocLoop nunits fuel s' p' ((A.heap s').ptr p')
    else mallocLoop nunits fuel s p ((A.heap s).ptr p)

/-- The number of headers that `malloc(nbytes)` needs. -/
def units (nbytes : Nat) : Nat := (nbytes + HEADER - 1) / HEADER + 1

/-- `if((prevp = freep) == 0)`: the list starts out as `base` alone. -/
def start (base : Nat) (h : Heap) : Heap × Nat :=
  match h.freep with
  | some p => (h, p)
  | none => ({ (h.setPtr base base).setSize base 0 with freep := some base }, base)

/-- `malloc(nbytes)`: the header of the block, if there is one. The pointer returned is the address after
it. -/
def malloc (base : Nat) (s : σ) (nbytes : Nat) : Option (σ × Option Nat) :=
  let (h, prevp) := start base (A.heap s)
  mallocLoop A (units nbytes) turns (A.put s h) prevp (h.ptr prevp)

end

/-! ## Calls -/

/-- What `sbrk` has given: the end of the last region and the number of headers. -/
structure Brk where
  top : Nat
  got : Nat
  deriving DecidableEq, Repr

/-- `sbrk` for `nu` headers: the region at `a`, if it is a fresh one. -/
def sbrk (k : Brk) (nu : Nat) : Option Nat → Option (Nat × Brk)
  | some a => if k.top ≤ a ∧ k.got + nu ≤ MEMORY then some (a, ⟨a + nu, k.got + nu⟩) else none
  | none => none

/-- The environment gives the regions `as`, one for every call of `sbrk`. -/
structure Env where
  heap : Heap
  brk : Brk
  as : List Nat

def headers : Arena Env where
  unit := 1
  heap := Env.heap
  put s h := { s with heap := h }
  sbrk s nu :=
    match sbrk s.brk nu s.as.head? with
    | none => some ({ s with as := s.as.tail }, none)
    | some (hp, k) => some ({ s with brk := k, as := s.as.tail }, some hp)
  unit_pos := Nat.one_pos
  heap_put _ _ := rfl

/-- A block that was returned and not freed since, with the length asked for. -/
structure Block where
  addr : Nat
  units : Nat
  nbytes : Nat
  deriving DecidableEq, Repr

structure State where
  heap : Heap
  brk : Brk
  live : List Block

inductive Event where
  /-- `malloc(nbytes)`, a `uint`; `as` is what the environment gives. -/
  | malloc (nbytes : Fin (2 ^ 32)) (as : List Nat)
  /-- `free` of the pointer that was returned for the block. -/
  | free (b : Block)
  /-- The program writes to its memory in the block, behind the header. -/
  | write (b : Block) (a ptr size : Nat)

/-- A loop has not ended. -/
inductive Stuck where
  | stuck
  deriving DecidableEq, Repr

def step (base : Nat) (s : State) : Event → Outcome Stuck State
  | .malloc nbytes as =>
    match malloc headers base ⟨s.heap, s.brk, as⟩ nbytes with
    | none => .panic .stuck
    | some (s', none) => .next ⟨s'.heap, s'.brk, s.live⟩
    | some (s', some p) => .next ⟨s'.heap, s'.brk, ⟨p, s'.heap.size p, nbytes⟩ :: s.live⟩
  | .free b =>
    Outcome.guard (b ∈ s.live)
      (match free headers.unit s.heap b.addr with
      | none => .panic .stuck
      | some h => .next ⟨h, s.brk, s.live.erase b⟩)
  | .write b a ptr size =>
    Outcome.guard (b ∈ s.live ∧ b.addr < a ∧ a < b.addr + b.units)
      (.next { s with heap := (s.heap.setPtr a ptr).setSize a size })

/-- A program starts: nothing is allocated, and all of the heap is above `base`. -/
def State.init (base : Nat) : State := ⟨⟨fun _ => 0, fun _ => 0, none⟩, ⟨base + 1, 0⟩, []⟩

end Xv6.Malloc
