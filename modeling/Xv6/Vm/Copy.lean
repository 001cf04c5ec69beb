import Xv6.Lib.Bytes
import Xv6.Vm.Mappings

set_option autoImplicit false

/-! # Copying to and from user memory

`copyout`, `copyin` and `copyinstr` of `kernel/vm.c`. They go through the page table page by page; a
page of memory is an array of bytes. Kernel memory is apart from the pages of a user: what `copyout`
copies is a function of the position, and what the other two store at `dst` is returned as a list. -/

namespace Xv6.Vm

open Bytes (Byte)

/-! ## Bytes of a page -/

/-- Byte `j` of the page at `x`. -/
def Mem.byte (s : Mem) (x : Word) (j : Nat) : Byte := Bytes.get (s.pte x) j

/-- `memmove` of `n` bytes into the page at `x`. -/
@[simps -fullyApplied]
def Mem.put (s : Mem) (x : Word) (off n : Nat) (src : Nat → Byte) : Mem :=
  { s with pte := Function.update s.pte x (Bytes.put (s.pte x) off n src) }

def PGROUNDDOWN (a : Word) : Word := a &&& ~~~(PGSIZE - 1)

/-! ## The routines -/

/-- The physical address of a user page, or 0 if not mapped. -/
def walkaddr (pagetable va : Word) : M Word := do
  if va ≥ MAXVA then return 0
  else
    match ← walk pagetable va false with
    | none => return 0
    | some (page, i) =>
      let pte := (← get).pte page i
      if !valid pte then return 0
      else if pte &&& PTE_U = 0 then return 0
      else return PTE2PA pte

/-- The bytes of one turn: up to the end of the page, and at most `len`. -/
def chunk (va len : Word) : Word :=
  if PGSIZE - (va - PGROUNDDOWN va) > len then len else PGSIZE - (va - PGROUNDDOWN va)

/-- The loop of `copyout`, with at most `fuel` turns. -/
def copyoutLoop (pagetable : Word) : Nat → Word → (Nat → Byte) → Word → M Bool
  | 0, _, _, _ => throw "copyout: no end"
  | fuel + 1, dstva, src, len => do
    if len > 0 then
      if PGROUNDDOWN dstva ≥ MAXVA then return false
      else
        match ← walk pagetable (PGROUNDDOWN dstva) false with
        | none => return false
        | some (page, i) =>
          let pte := (← get).pte page i
          if !valid pte ∨ pte &&& PTE_U = 0 ∨ pte &&& PTE_W = 0 then return false
          else
            let n := chunk dstva len
            modify fun s => s.put (PTE2PA pte) (dstva - PGROUNDDOWN dstva).toNat n.toNat src
            copyoutLoop pagetable fuel (PGROUNDDOWN dstva + PGSIZE) (fun k => src (n.toNat + k))
              (len - n)
    else return true

/-- Copy from kernel to user; `true` is 0, `false` is -1. -/
def copyout (pagetable dstva : Word) (src : Nat → Byte) (len : Word) : M Bool :=
  copyoutLoop pagetable (len.toNat + 1) dstva src len

/-- The loop of `copyin`, with at most `fuel` turns; `out` is what it has stored at `dst`. -/
def copyinLoop (pagetable : Word) : Nat → Word → Word → List Byte → M (Bool × List Byte)
  | 0, _, _, _ => throw "copyin: no end"
  | fuel + 1, srcva, len, out => do
    if len > 0 then
      let pa0 ← walkaddr pagetable (PGROUNDDOWN srcva)
      if pa0 = 0 then return (false, out)
      else
        let s ← get
        let n := chunk srcva len
        let off := (srcva - PGROUNDDOWN srcva).toNat
        copyinLoop pagetable fuel (PGROUNDDOWN srcva + PGSIZE) (len - n)
          (out ++ (List.range n.toNat).map fun k => s.byte pa0 (off + k))
    else return (true, out)

/-- Copy from user to kernel. -/
def copyin (pagetable srcva len : Word) : M (Bool × List Byte) :=
  copyinLoop pagetable (len.toNat + 1) srcva len []

/-- The inner loop of `copyinstr`: `got_null`, `max` and what is stored at `dst`. -/
def copyPage (byte : Nat → Byte) : Nat → Nat → Word → List Byte → Bool × Word × List Byte
  | 0, _, max, out => (false, max, out)
  | n + 1, p, max, out =>
    if byte p = 0 then (true, max, out ++ [0])
    else copyPage byte n (p + 1) (max - 1) (out ++ [byte p])

/-- The loop of `copyinstr`, with at most `fuel` turns. -/
def copyinstrLoop (pagetable : Word) : Nat → Word → Word → List Byte → M (Bool × List Byte)
  | 0, _, _, _ => throw "copyinstr: no end"
  | fuel + 1, srcva, max, out => do
    if max > 0 then
      let pa0 ← walkaddr pagetable (PGROUNDDOWN srcva)
      if pa0 = 0 then return (false, out)
      else
        let s ← get
        let n := chunk srcva max
        let r := copyPage (s.byte pa0) n.toNat (srcva - PGROUNDDOWN srcva).toNat max out
        if r.1 then return (true, r.2.2)
        else copyinstrLoop pagetable fuel (PGROUNDDOWN srcva + PGSIZE) r.2.1 r.2.2
    else return (false, out)

/-- Copy a null-terminated string from user to kernel. -/
def copyinstr (pagetable srcva max : Word) : M (Bool × List Byte) :=
  copyinstrLoop pagetable (max.toNat + 1) srcva max []

end Xv6.Vm
