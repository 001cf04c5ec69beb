import Mathlib.Algebra.Ring.Nat
import Mathlib.Logic.Function.Basic
import Xv6.Lib.Wp

set_option autoImplicit false

/-! # Page tables

`walk`, `mappages` and `uvmunmap` of `kernel/vm.c`, over the page allocator of `kernel/kalloc.c`.
Words and addresses have 64 bits. Physical memory is looked at as page-table pages, of 512 entries
each. The free list is a list of page addresses; the environment decides which calls of `kalloc` find no
memory (`fails`), even when there are pages left. -/

namespace Xv6.Vm

open Function

abbrev Word := BitVec 64

def PGSIZE : Word := 4096

def PTE_V : Word := 1
def PTE_R : Word := 1 <<< 1
def PTE_W : Word := 1 <<< 2
def PTE_X : Word := 1 <<< 3
def PTE_U : Word := 1 <<< 4

/-- Shift a physical address to the right place for a PTE. -/
def PA2PTE (pa : Word) : Word := (pa >>> 12) <<< 10

def PTE2PA (pte : Word) : Word := (pte >>> 10) <<< 12

def PTE_FLAGS (pte : Word) : Word := pte &&& 0x3FF

/-- One of the three 9-bit page table indices of a virtual address. -/
def PX (level : Nat) (va : Word) : Nat := ((va >>> (12 + 9 * level)) &&& 0x1FF).toNat

/-- One beyond the highest possible virtual address. -/
def MAXVA : Word := 1 <<< (9 + 9 + 9 + 12 - 1)

def PHYSTOP : Word := 0x80000000 + 128 * 1024 * 1024

/-- `*pte & PTE_V` -/
def valid (pte : Word) : Bool := pte &&& PTE_V != 0

/-- Physical memory, and what is known of the allocator. -/
structure Mem where
  /-- The page at an address, as entries of a page table. -/
  pte : Word → Nat → Word
  /-- `kmem.freelist` -/
  freelist : List Word
  /-- Whether the next calls of `kalloc` fail. -/
  fails : List Bool

abbrev M := StateT Mem (Except String)

/-- `pagetable[i] = w;` -/
@[simps -fullyApplied]
def Mem.store (s : Mem) (pagetable : Word) (i : Nat) (w : Word) : Mem :=
  { s with pte := update s.pte pagetable (update (s.pte pagetable) i w) }

/-- All entries of the page are `w`. -/
@[simps -fullyApplied]
def Mem.fill (s : Mem) (page w : Word) : Mem :=
  { s with pte := update s.pte page fun _ => w }

/-! ## The allocator -/

/-- The page comes filled with junk. -/
def kalloc : M (Option Word) := do
  let s ← get
  match s.fails.head?, s.freelist with
  | some true, _ =>
    set { s with fails := s.fails.tail }
    return none
  | _, [] =>
    set { s with fails := s.fails.tail }
    return none
  | _, r :: rest =>
    set ({ s with freelist := rest, fails := s.fails.tail }.fill r 0x0505050505050505)
    return some r

/-- `kend` is the first address after the kernel. -/
def kfree (kend pa : Word) : M Unit := do
  if pa % PGSIZE ≠ 0 ∨ pa < kend ∨ pa ≥ PHYSTOP then throw "kfree"
  else modify fun s => { s.fill pa 0x0101010101010101 with freelist := pa :: s.freelist }

/-! ## `walk` -/

/-- One turn of the loop of `walk`. -/
def walkLevel (alloc : Bool) (va pagetable : Word) (level : Nat) : M (Option Word) := do
  let s ← get
  if valid (s.pte pagetable (PX level va)) then return some (PTE2PA (s.pte pagetable (PX level va)))
  else if !alloc then return none
  else
    match ← kalloc with
    | none => return none
    | some page =>
      modify fun s => (s.fill page 0).store pagetable (PX level va) (PA2PTE page ||| PTE_V)
      return some page

/-- The entry for `va`: the page it is in, and its index there. -/
def walk (pagetable va : Word) (alloc : Bool) : M (Option (Word × Nat)) := do
  if va ≥ MAXVA then throw "walk"
  else
    match ← walkLevel alloc va pagetable 2 with
    | none => return none
    | some pagetable =>
      match ← walkLevel alloc va pagetable 1 with
      | none => return none
      | some pagetable => return some (pagetable, PX 0 va)

/-! ## `mappages` and `uvmunmap` -/

/-- The loop of `mappages`, with at most `n` turns. -/
def mappagesLoop (pagetable last perm : Word) : Nat → Word → Word → M Bool
  | 0, _, _ => throw "mappages: no end"
  | n + 1, a, pa => do
    match ← walk pagetable a true with
    | none => return false
    | some (page, i) =>
      if valid ((← get).pte page i) then throw "mappages: remap"
      else
        modify fun s => s.store page i (PA2PTE pa ||| perm ||| PTE_V)
        if a = last then return true
        else mappagesLoop pagetable last perm n (a + PGSIZE) (pa + PGSIZE)

/-- `true` is 0, `false` is -1. -/
def mappages (pagetable va size pa perm : Word) : M Bool :=
  if va % PGSIZE ≠ 0 then throw "mappages: va not aligned"
  else if size % PGSIZE ≠ 0 then throw "mappages: size not aligned"
  else if size = 0 then throw "mappages: size"
  else mappagesLoop pagetable (va + size - PGSIZE) perm (size / PGSIZE).toNat va pa

/-- The loop of `uvmunmap`, with at most `n` turns. -/
def uvmunmapLoop (kend pagetable stop : Word) (do_free : Bool) : Nat → Word → M Unit
  | 0, a => if a < stop then throw "uvmunmap: no end" else return ()
  | n + 1, a => do
    if a < stop then
      match ← walk pagetable a false with
      | none => throw "uvmunmap: walk"
      | some (page, i) =>
        let pte := (← get).pte page i
        if !valid pte then throw "uvmunmap: not mapped"
        else if PTE_FLAGS pte = PTE_V then throw "uvmunmap: not a leaf"
        else
          if do_free then kfree kend (PTE2PA pte) else pure ()
          modify fun s => s.store page i 0
          uvmunmapLoop kend pagetable stop do_free n (a + PGSIZE)
    else return ()

def uvmunmap (kend pagetable va npages : Word) (do_free : Bool) : M Unit :=
  if va % PGSIZE ≠ 0 then throw "uvmunmap: not aligned"
  else uvmunmapLoop kend pagetable (va + npages * PGSIZE) do_free npages.toNat va

end Xv6.Vm
