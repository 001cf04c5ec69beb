import Xv6.Vm.Copy

set_option autoImplicit false

/-! # Address spaces

The functions of `kernel/vm.c` that make, grow, shrink and free the memory of a process, and
`proc_pagetable` and `proc_freepagetable` of `kernel/proc.c`. `kend` is the first address after the
kernel, `trampoline` the page of the kernel that is mapped into every address space. -/

namespace Xv6.Vm

def PGROUNDUP (sz : Word) : Word := (sz + PGSIZE - 1) &&& ~~~(PGSIZE - 1)

def TRAMPOLINE : Word := MAXVA - PGSIZE

def TRAPFRAME : Word := TRAMPOLINE - PGSIZE

/-- An empty page table. -/
def uvmcreate : M (Option Word) := do
  match ← kalloc with
  | none => return none
  | some pagetable =>
    modify fun s => s.fill pagetable 0
    return some pagetable

variable (kend : Word)

/-- `int npages`, and back to the `uint64` that `uvmunmap` takes. -/
def toInt (w : Word) : Word := (w.setWidth 32).signExtend 64

/-- Deallocate pages to bring the size from `oldsz` to `newsz`. -/
def uvmdealloc (pagetable oldsz newsz : Word) : M Word := do
  if newsz ≥ oldsz then return oldsz
  else
    if PGROUNDUP newsz < PGROUNDUP oldsz then
      uvmunmap kend pagetable (PGROUNDUP newsz)
        (toInt ((PGROUNDUP oldsz - PGROUNDUP newsz) / PGSIZE)) true
    else pure ()
    return newsz

/-- The loop of `uvmalloc`. Each turn takes a page from the allocator: with one turn more than there are
pages the last one finds none. -/
def uvmallocLoop (pagetable oldsz newsz xperm : Word) : Nat → Word → M Word
  | 0, _ => throw "uvmalloc: no end"
  | fuel + 1, a => do
    if a < newsz then
      match ← kalloc with
      | none =>
        let _ ← uvmdealloc kend pagetable a oldsz
        return 0
      | some mem =>
        modify fun s => s.fill mem 0
        if ← mappages pagetable a PGSIZE mem (PTE_R ||| PTE_U ||| xperm) then
          uvmallocLoop pagetable oldsz newsz xperm fuel (a + PGSIZE)
        else
          kfree kend mem
          let _ ← uvmdealloc kend pagetable a oldsz
          return 0
    else return newsz

/-- Allocate pages to grow from `oldsz` to `newsz`; the new size, or 0. -/
def uvmalloc (pagetable oldsz newsz xperm : Word) : M Word := do
  if newsz < oldsz then return oldsz
  else
    let s ← get
    uvmallocLoop kend pagetable (PGROUNDUP oldsz) newsz xperm (s.freelist.length + 1)
      (PGROUNDUP oldsz)

/-- Free the pages of a table, of `levels` levels. -/
def freewalk : Nat → Word → M Unit
  | 0, _ => throw "freewalk: no end"
  | levels + 1, pagetable => do
    entries.forM fun i => do
      let pte := (← get).pte pagetable i
      if valid pte ∧ pte &&& (PTE_R ||| PTE_W ||| PTE_X) = 0 then
        freewalk levels (PTE2PA pte)
        modify fun s => s.store pagetable i 0
      else if valid pte then throw "freewalk: leaf"
      else pure ()
    kfree kend pagetable

/-- Free user memory, then the pages of the table. -/
def uvmfree (pagetable sz : Word) : M Unit := do
  if sz > 0 then uvmunmap kend pagetable 0 (PGROUNDUP sz / PGSIZE) true else pure ()
  freewalk kend 3 pagetable

variable (trampoline : Word)

/-- A page table with the trampoline and the trapframe, and no user memory. -/
def procPagetable (trapframe : Word) : M (Option Word) := do
  match ← uvmcreate with
  | none => return none
  | some pagetable =>
    if ← mappages pagetable TRAMPOLINE PGSIZE trampoline (PTE_R ||| PTE_X) then
      if ← mappages pagetable TRAPFRAME PGSIZE trapframe (PTE_R ||| PTE_W) then
        return some pagetable
      else
        uvmunmap kend pagetable TRAMPOLINE 1 false
        uvmfree kend pagetable 0
        return none
    else
      uvmfree kend pagetable 0
      return none

/-- Free a page table, and the memory it refers to. -/
def procFreepagetable (pagetable sz : Word) : M Unit := do
  uvmunmap kend pagetable TRAMPOLINE 1 false
  uvmunmap kend pagetable TRAPFRAME 1 false
  uvmfree kend pagetable sz

end Xv6.Vm
