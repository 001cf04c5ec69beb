import Xv6.Param
import Xv6.Proc.Spinlock
import Xv6.Vm.Fork

set_option autoImplicit false

/-! # The memory of `fork`

`allocproc`, `freeproc` and `fork` of `kernel/proc.c` with the memory of the processes. A `fork` that
fails, at whatever call of `kalloc`, gives back every page and leaves the table as it was; only
`nextpid` has moved on, and in the slot that was tried, which is not in use, the `context` may have been
set and `killed` is reset. The slot is under its lock all the time, so no other process comes between.
The reference counts of open files and of the current directory are not part of the state. -/

namespace Xv6.Fork

open Function

open Vm (Word Mem PGSIZE)
open Bytes (Byte)
open Wp Footprint

abbrev ProcId := Fin NPROC

/-- Saved registers for kernel context switches. -/
structure Context where
  ra : Word
  sp : Word
  /-- `s0` to `s11` -/
  s : Fin 12 → Word

/-- A context that starts at `forkret`, on a stack of its own. -/
def Context.fresh (forkret kstack : Word) : Context := ⟨forkret, kstack + PGSIZE, fun _ => 0⟩

/-- `struct proc`, without its lock. -/
structure Proc where
  state : ProcState
  chan : Word
  killed : Int32
  xstate : Int32
  pid : Int32
  parent : Option ProcId
  kstack : Word
  sz : Word
  pagetable : Word
  trapframe : Word
  context : Context
  ofile : Fin NOFILE → Option Nat
  cwd : Option Nat
  name : Nat → Byte

structure State where
  mem : Mem
  proc : ProcId → Proc
  nextpid : Int32

abbrev M := StateT State (Except String)

def onMem {α : Type} (x : Vm.M α) : M α := zoom State.mem (fun s m => { s with mem := m }) id x

def setProc (i : ProcId) (f : Proc → Proc) : M Unit :=
  modify fun s => { s with proc := update s.proc i (f (s.proc i)) }

/-! ## The functions -/

def allocpid : M Int32 := do
  let s ← get
  set { s with nextpid := s.nextpid + 1 }
  return s.nextpid

variable (kend trampoline forkret : Word)

def freeproc (i : ProcId) : M Unit := do
  let p := (← get).proc i
  if p.trapframe ≠ 0 then onMem (Vm.kfree kend p.trapframe) else pure ()
  setProc i fun p => { p with trapframe := 0 }
  if p.pagetable ≠ 0 then onMem (Vm.procFreepagetable kend p.pagetable p.sz) else pure ()
  setProc i fun p =>
    { p with pagetable := 0, sz := 0, pid := 0, parent := none, name := update p.name 0 0,
             chan := 0, killed := 0, xstate := 0, state := .unused }

/-- The process is `USED`, with a trapframe and an empty address space, or there is none. -/
def allocproc : M (Option ProcId) := do
  let s ← get
  match (List.finRange NPROC).find? fun i => (s.proc i).state = .unused with
  | none => return none
  | some i =>
    let pid ← allocpid
    setProc i fun p => { p with pid := pid, state := .used }
    match ← onMem Vm.kalloc with
    | none =>
      setProc i fun p => { p with trapframe := 0 }
      freeproc kend i
      return none
    | some trapframe =>
      setProc i fun p => { p with trapframe := trapframe }
      match ← onMem (Vm.procPagetable kend trampoline trapframe) with
      | none =>
        setProc i fun p => { p with pagetable := 0 }
        freeproc kend i
        return none
      | some pagetable =>
        setProc i fun p => { p with pagetable := pagetable }
        setProc i fun p => { p with context := .fresh forkret p.kstack }
        return some i

/-- `*(np->trapframe) = *(p->trapframe)`, of 36 words, and `np->trapframe->a0 = 0`. -/
def copyTrapframe (src dst : Word) (m : Mem) : Mem :=
  Mem.store { m with pte := update m.pte dst fun i => if i < 36 then m.pte src i else m.pte dst i }
    dst 14 0

/-- The loop of `safestrcpy`, from position `i` on: `n` bytes are left besides the last one. -/
def safestrcpyLoop (t : Nat → Byte) : Nat → Nat → (Nat → Byte) → Nat → Byte
  | 0, i, s => update s i 0
  | n + 1, i, s =>
    if t i ≠ 0 then safestrcpyLoop t n (i + 1) (update s i (t i))
    else update (update s i 0) (i + 1) 0

/-- The pid of the child, or `none` for -1. -/
def fork (p : ProcId) : M (Option Int32) := do
  match ← allocproc kend trampoline forkret with
  | none => return none
  | some np =>
    let s ← get
    let parent := s.proc p
    let child := s.proc np
    if ← onMem (Vm.uvmcopy kend parent.pagetable child.pagetable parent.sz) then
      setProc np fun c => { c with sz := parent.sz }
      onMem (modify (copyTrapframe parent.trapframe child.trapframe))
      setProc np fun c =>
        { c with ofile := fun fd => (parent.ofile fd).orElse fun _ => c.ofile fd, cwd := parent.cwd }
      setProc np fun c => { c with name := safestrcpyLoop parent.name 15 0 c.name }
      setProc np fun c => { c with parent := some p }
      setProc np fun c => { c with state := .runnable }
      return some child.pid
    else
      freeproc kend np
      return none

variable {kend trampoline forkret} {s : State} {i : ProcId} {E : String → Prop}

theorem wp_onMem {α : Type} {x : Vm.M α} {Q : α → State → Prop} :
    wp (onMem x) Q E s ↔ wp x (fun a m => Q a { s with mem := m }) E s.mem := wp_zoom

theorem wp_setProc {f : Proc → Proc} {Q : Unit → State → Prop} :
    wp (setProc i f) Q E s ↔ Q () { s with proc := update s.proc i (f (s.proc i)) } := Iff.rfl

/-! ## Giving back a slot -/

/-- What `freeproc` makes of a slot. -/
def Proc.reset (p : Proc) : Proc :=
  { p with trapframe := 0, pagetable := 0, sz := 0, pid := 0, parent := none,
           name := update p.name 0 0, chan := 0, killed := 0, xstate := 0, state := .unused }

/-- A slot that is not in use has nothing in it: it has never been used, or `freeproc` was the last to
    write to it. Only `killed` may have been set since, by `kill(0)`. -/
def Proc.Cleared (p : Proc) : Prop := { p.reset with killed := p.killed } = p

/-- What `freeproc` does to the memory. -/
def freeMem (kend : Word) (p : Proc) : Vm.M Unit := do
  if p.trapframe ≠ 0 then Vm.kfree kend p.trapframe else pure ()
  if p.pagetable ≠ 0 then Vm.procFreepagetable kend p.pagetable p.sz else pure ()

theorem wp_freeproc {Q : Unit → State → Prop} (h : wp (freeMem kend (s.proc i))
      (fun _ m => Q () { s with mem := m, proc := update s.proc i (s.proc i).reset }) E s.mem) :
    wp (freeproc kend i) Q E s := by
  simp only [freeproc, freeMem, wp_bind, wp_get, wp_ite, wp_pure, wp_onMem, wp_setProc,
    update_self, update_idem] at h ⊢
  exact h

section Memory

variable {m m₀ : Mem} {p : Proc} {x root : Word}

theorem frame_ne_zero (hk : 0 < kend) (h : Vm.Frame kend x) : x ≠ 0 := by
  rintro rfl
  have hlow : kend.toNat ≤ 0 := h.lower
  have hpos : 0 < kend.toNat := hk
  omega

theorem wp_freeMem_none {Q : Unit → Mem → Prop} (ht : p.trapframe = 0) (hp : p.pagetable = 0)
    (hQ : Q () m) : wp (freeMem kend p) Q E m := by
  rw [freeMem, if_neg (not_not.mpr ht), if_neg (not_not.mpr hp)]
  exact hQ

theorem wp_freeMem_trapframe (hk : 0 < kend) (ht : p.trapframe = x) (hp : p.pagetable = 0)
    (hx : Vm.Frame kend x) (hw : Within m₀.freelist (x :: m.freelist) m₀.pte m.pte) :
    wp (freeMem kend p) (fun _ m' => Within m₀.freelist m'.freelist m₀.pte m'.pte) E m := by
  rw [freeMem, ht, if_pos (frame_ne_zero hk hx), if_neg (not_not.mpr hp), wp_bind]
  refine Vm.wp_kfree hx (hw.trans ⟨.refl _, fun y hy => ?_⟩)
  have hne : y ≠ x := fun he => hy (he ▸ List.mem_cons_self)
  exact update_of_ne hne ..

/-- The slot has a trapframe and an address space without user memory. -/
theorem wp_freeMem_space (hk : 0 < kend) (ht : p.trapframe = x) (hp : p.pagetable = root)
    (hsz : p.sz = 0) (hspace : Vm.Space kend m root 0 (Vm.kernelPages trampoline x))
    (hx : Vm.Frame kend x) (hroot : root ≠ 0) (hnodup : m₀.freelist.Nodup)
    (hw : Within m₀.freelist (x :: (Vm.owned m.pte root 0 ++ m.freelist)) m₀.pte m.pte) :
    wp (freeMem kend p) (fun _ m' => Within m₀.freelist m'.freelist m₀.pte m'.pte) E m := by
  rw [freeMem, ht, hp, hsz, if_pos (frame_ne_zero hk hx), if_pos hroot, wp_bind]
  refine (hspace.wp_kfree hx (List.nodup_cons.mp (hw.nodup hnodup)).1).mono ?_ fun _ he => he
  rintro _ m₁ ⟨hspace₁, -, hw₁⟩
  have hpages : Vm.pages 0 = 0 := by decide
  rw [← hpages] at hspace₁
  refine hspace₁.wp_procFreepagetable.mono (fun _ m₂ hw₂ => ?_) fun _ he => he
  rw [hpages] at hw₂
  exact (hw.trans hw₁).trans hw₂

end Memory

/-! ## Taking a slot -/

/-- What `allocproc` sets in a slot. -/
def Proc.take (p : Proc) (pid : Int32) (trapframe pagetable : Word) (context : Context) : Proc :=
  { p with pid := pid, state := .used, trapframe := trapframe, pagetable := pagetable, context := context }

/-- Resetting a slot that was clear before it was taken. -/
theorem Proc.Cleared.reset_take {p : Proc} (h : p.Cleared) (pid : Int32) (trapframe pagetable : Word)
    (c : Context) : (p.take pid trapframe pagetable c).reset = { p with context := c, killed := 0 } := by
  show { { p.reset with killed := p.killed } with context := c, killed := 0 } = _
  rw [show { p.reset with killed := p.killed } = p from h]

theorem wp_freeproc_take {s₁ : State} (pid : Int32) (trapframe pagetable : Word) (c : Context)
    (hclear : (s.proc i).Cleared)
    (hproc : s₁.proc = update s.proc i ((s.proc i).take pid trapframe pagetable c))
    (hmem : wp (freeMem kend ((s.proc i).take pid trapframe pagetable c))
      (fun _ m' => Within s.mem.freelist m'.freelist s.mem.pte m'.pte) E s₁.mem) :
    wp (freeproc kend i) (fun _ s' =>
      s'.proc = update s.proc i { s.proc i with context := c, killed := 0 } ∧
      Within s.mem.freelist s'.mem.freelist s.mem.pte s'.mem.pte) E s₁ := by
  refine wp_freeproc ?_
  rw [hproc, update_self, update_idem, hclear.reset_take]
  exact hmem.mono (fun _ m' hw => ⟨rfl, hw⟩) fun _ he => he

/-- The slot that `allocproc` tries: the first one that is not in use. -/
def State.slot (s : State) : Option ProcId :=
  (List.finRange NPROC).find? fun i => (s.proc i).state = .unused

theorem State.slot_unused (h : s.slot = some i) : (s.proc i).state = .unused := by
  simpa using List.find?_some h

/-- A call that has failed: all pages are back, and the table is as it was, except that in the slot that
    was tried `killed` is 0 and the `context` may be that of a new process. -/
structure Failed (forkret : Word) (s s' : State) : Prop where
  memory : Within s.mem.freelist s'.mem.freelist s.mem.pte s'.mem.pte
  full : s.slot = none → s'.proc = s.proc
  tried : ∀ i, s.slot = some i → ∃ c, (c = (s.proc i).context ∨ c = .fresh forkret (s.proc i).kstack) ∧
    s'.proc = update s.proc i { s.proc i with context := c, killed := 0 }

theorem Failed.of_slot {s' : State} {c : Context} (hslot : s.slot = some i)
    (hc : c = (s.proc i).context ∨ c = .fresh forkret (s.proc i).kstack)
    (h : s'.proc = update s.proc i { s.proc i with context := c, killed := 0 } ∧
      Within s.mem.freelist s'.mem.freelist s.mem.pte s'.mem.pte) : Failed forkret s s' := by
  refine ⟨h.2, fun hnone => ?_, fun j hj => ?_⟩
  · rw [hnone] at hslot
    cases hslot
  · obtain rfl : i = j := Option.some.inj (hslot.symm.trans hj)
    exact ⟨c, hc, h.1⟩

/-- The slot `i` has been taken, with a trapframe and an address space without user memory. -/
structure Allocated (kend trampoline forkret : Word) (s s' : State) (i : ProcId)
    (trapframe root : Word) : Prop where
  slot : s.slot = some i
  proc : s'.proc = update s.proc i
    ((s.proc i).take s.nextpid trapframe root (.fresh forkret (s.proc i).kstack))
  frame : Vm.Frame kend trapframe
  space : Vm.Space kend s'.mem root 0 (Vm.kernelPages trampoline trapframe)
  within : Within s.mem.freelist (trapframe :: (Vm.owned s'.mem.pte root 0 ++ s'.mem.freelist))
    s.mem.pte s'.mem.pte

theorem wp_allocproc (hk : 0 < kend) (hnodup : s.mem.freelist.Nodup)
    (hframe : ∀ x ∈ s.mem.freelist, Vm.Frame kend x)
    (hclear : ∀ i, (s.proc i).state = .unused → (s.proc i).Cleared) :
    wp (allocproc kend trampoline forkret) (fun r s' =>
      (r = none ∧ Failed forkret s s') ∨
      ∃ i trapframe root, r = some i ∧ Allocated kend trampoline forkret s s' i trapframe root) E s := by
  rw [allocproc, wp_bind, wp_get, ← State.slot]
  cases hslot : s.slot with
  | none =>
    refine .inl ⟨rfl, .refl _ _, fun _ => rfl, fun i hi => ?_⟩
    rw [hslot] at hi
    cases hi
  | some i =>
    have hunused := State.slot_unused hslot
    have hpagetable : (s.proc i).pagetable = 0 := congrArg Proc.pagetable (hclear i hunused).symm
    dsimp only
    simp only [wp_bind, allocpid, wp_get, wp_set, wp_pure, wp_setProc, wp_onMem]
    refine Vm.wp_kalloc ?_ fun x rest hfree => ?_
    · simp only [wp_bind, wp_setProc, wp_pure, update_self, update_idem]
      refine (wp_freeproc_take s.nextpid 0 (s.proc i).pagetable (s.proc i).context (hclear i hunused)
        ?_ ?_).mono (fun _ s' h => ?_) fun _ he => he
      · rfl
      · exact wp_freeMem_none rfl hpagetable (.refl _ _)
      · exact .inl ⟨trivial, .of_slot hslot (.inl rfl) h⟩
    · simp only [wp_bind, wp_setProc, wp_onMem, update_self, update_idem]
      have hx : Vm.Frame kend x := hframe x (hfree ▸ List.mem_cons_self)
      generalize hm₁ : Mem.fill _ x _ = m₁
      have hw₁ : Within s.mem.freelist (x :: m₁.freelist) s.mem.pte m₁.pte := by
        rw [← hm₁, hfree]
        refine ⟨.refl _, fun y hy => update_of_ne (fun he => hy ?_) ..⟩
        rw [he]
        exact List.mem_cons_self
      have hnodup₁ := List.nodup_cons.mp (hw₁.nodup hnodup)
      refine (Vm.wp_procPagetable hnodup₁.2 fun y hy => hframe y ?_).mono ?_ fun _ he => he
      · exact hw₁.perm.subset (List.mem_cons_of_mem _ hy)
      · rintro r m₂ (⟨rfl, hw₂⟩ | ⟨root, rfl, hspace, hw₂⟩)
        · simp only [wp_bind, wp_setProc, wp_pure, update_self, update_idem]
          refine (wp_freeproc_take s.nextpid x 0 (s.proc i).context (hclear i hunused)
            ?_ ?_).mono (fun _ s' h => ?_) fun _ he => he
          · rfl
          · exact wp_freeMem_trapframe hk rfl rfl hx (hw₁.trans (hw₂.frame [x]))
          · exact .inl ⟨trivial, .of_slot hslot (.inl rfl) h⟩
        · simp only [wp_bind, wp_setProc, wp_pure, update_self, update_idem]
          exact .inr ⟨i, x, root, rfl, hslot, rfl, hx, hspace, hw₁.trans (hw₂.frame [x])⟩

/-! ## `fork` -/

section Parent

variable {s' : State} {trapframe root old : Word} {n : Nat} {extra : Nat → Option Word}

/-- Taking a slot does not touch the parent, and the address spaces have no page in common. -/
theorem Allocated.parent (h : Allocated kend trampoline forkret s s' i trapframe root)
    (hp : Vm.Space kend s.mem old n extra) :
    Vm.Untouched s.mem s'.mem old n ∧ Vm.Space kend s'.mem old n extra ∧
      (Vm.owned s'.mem.pte old n ++ (Vm.owned s'.mem.pte root 0 ++ s'.mem.freelist)).Nodup := by
  have hu : Vm.Untouched s.mem s'.mem old n := hp.untouched (h.within.kept hp.nodup)
  have hnodup := (h.within.frame (Vm.owned s.mem.pte old n)).nodup hp.nodup
  have hsub : (Vm.owned s.mem.pte old n ++ (Vm.owned s'.mem.pte root 0 ++ s'.mem.freelist)).Nodup :=
    hnodup.sublist ((List.Sublist.refl _).append (List.sublist_cons_self _ _))
  refine ⟨hu, hp.transfer hu ?_ fun x hx => ?_, ?_⟩
  · exact hsub.sublist ((List.Sublist.refl _).append (List.sublist_append_right _ _))
  · exact h.space.frame x (List.mem_append_right _ hx)
  · rwa [hu.owned]

/-- What `uvmcopy` has copied is still there after writing to the trapframe of the child. -/
theorem Allocated.inherits {m m' : Mem} (h : Allocated kend trampoline forkret s s' i trapframe root)
    (hp : Vm.Space kend s.mem old n extra)
    (hcopy : Vm.UvmcopySpec kend s'.mem m old root n (Vm.kernelPages trampoline trapframe) true)
    (hm : ∀ y, y ≠ trapframe → m'.pte y = m.pte y) :
    Vm.Inherits s.mem m' old root n (Vm.kernelPages trampoline trapframe) := by
  have hu := (h.parent hp).1
  have hchild : Vm.Moved kend s'.mem m root 0 n (Vm.kernelPages trampoline trapframe) := hcopy.child
  have hw : Within s.mem.freelist (trapframe :: (Vm.owned m.pte root n ++ m.freelist)) s.mem.pte m.pte :=
    h.within.trans (hchild.within.frame [trapframe])
  have hfresh := (List.nodup_cons.mp (hw.nodup hp.nodup.of_append_right)).1
  have hkept : Vm.Untouched m m' root n := hchild.space.untouched fun y hy =>
    hm y fun he => hfresh (he ▸ List.mem_append_left _ hy)
  have hframes : Vm.frames m'.pte root 0 n = Vm.frames m.pte root 0 n :=
    Vm.frames_congr fun k _ => hkept.same.lookup _
  refine ⟨fun k hk hlt => ?_, fun k hk hlt => ?_, ?_, fun y hy => ?_, ?_⟩
  · obtain ⟨w, hw, v, hv, hflags, hpage⟩ := hcopy.copied rfl k hk hlt
    have hv : Vm.lookup s.mem.pte old k = some v := by rwa [← hu.same.lookup]
    refine ⟨w, by rwa [hkept.same.lookup], v, hv, hflags, ?_⟩
    rw [hkept.kept.page k hlt w hw, hpage, hu.kept.page k hlt v hv]
  · rw [hkept.same.lookup]
    exact hchild.space.rest k hk hlt
  · rw [hframes]
    exact hcopy.inherits.distinct
  · rw [hframes] at hy
    exact h.within.perm.subset (List.mem_cons_of_mem _ (List.mem_append_right _ (hcopy.fresh rfl hy)))
  · refine hp.untouched ((hw.trans ⟨.refl _, fun y hy => hm y fun he => hy ?_⟩).kept hp.nodup)
    rw [he]
    exact List.mem_cons_self

end Parent

/-- The process `p` can call `fork`: it has its memory, and what is not in use is clear. -/
structure Forkable (kend : Word) (s : State) (p : ProcId) (extra : Nat → Option Word) : Prop where
  space : Vm.Space kend s.mem (s.proc p).pagetable (Vm.pages (s.proc p).sz) extra
  running : (s.proc p).state ≠ .unused
  clear : ∀ i, (s.proc i).state = .unused → (s.proc i).Cleared

/-- A `fork` that has made the child `np`. -/
structure Forked (trampoline : Word) (s s' : State) (p np : ProcId) : Prop where
  slot : (s.proc np).state = .unused
  others : ∀ q, q ≠ np → s'.proc q = s.proc q
  size : (s'.proc np).sz = (s.proc p).sz
  parent : (s'.proc np).parent = some p
  memory : Vm.Inherits s.mem s'.mem (s.proc p).pagetable (s'.proc np).pagetable
    (Vm.pages (s.proc p).sz) (Vm.kernelPages trampoline (s'.proc np).trapframe)

theorem Allocated.forked {s₁ s' : State} {p np : ProcId} {trapframe root : Word} {child : Proc}
    (h : Allocated kend trampoline forkret s s₁ np trapframe root)
    (hproc : s'.proc = update s.proc np child) (hsize : child.sz = (s.proc p).sz)
    (hparent : child.parent = some p) (hroot : child.pagetable = root)
    (htrapframe : child.trapframe = trapframe)
    (hmem : Vm.Inherits s.mem s'.mem (s.proc p).pagetable root (Vm.pages (s.proc p).sz)
      (Vm.kernelPages trampoline trapframe)) : Forked trampoline s s' p np := by
  have hchild : s'.proc np = child := by rw [hproc, update_self]
  refine ⟨State.slot_unused h.slot, fun q hq => ?_, ?_, ?_, ?_⟩
  · rw [hproc, update_of_ne hq]
  · rw [hchild, hsize]
  · rw [hchild, hparent]
  · rwa [hchild, hroot, htrapframe]

theorem copyTrapframe_of_ne {src dst y : Word} {m : Mem} (hy : y ≠ dst) :
    (copyTrapframe src dst m).pte y = m.pte y :=
  (update_of_ne hy ..).trans (update_of_ne hy ..)

theorem wp_fork {p : ProcId} {extra : Nat → Option Word} (hk : 0 < kend)
    (hs : Forkable kend s p extra) :
    wp (fork kend trampoline forkret p) (fun r s' =>
      (∀ pid, r = some pid → ∃ np, (s'.proc np).pid = pid ∧ Forked trampoline s s' p np) ∧
      (r = none → Failed forkret s s')) E s := by
  have hfree : s.mem.freelist.Nodup := hs.space.nodup.of_append_right
  rw [fork, wp_bind]
  refine (wp_allocproc hk hfree (fun x hx => hs.space.frame x (List.mem_append_right _ hx)) hs.clear).mono
    ?_ fun _ he => he
  rintro r s₁ (⟨rfl, hfail⟩ | ⟨np, x, root, rfl, halloc⟩)
  · refine ⟨fun pid h => ?_, fun _ => hfail⟩
    cases h
  · have hunused := State.slot_unused halloc.slot
    have hne : p ≠ np := fun he => hs.running (he ▸ hunused)
    obtain ⟨hu, hparent, hapart⟩ := halloc.parent hs.space
    have hp : s₁.proc p = s.proc p := by rw [halloc.proc, update_of_ne hne]
    have hnp : s₁.proc np =
        (s.proc np).take s.nextpid x root (.fresh forkret (s.proc np).kstack) := by
      rw [halloc.proc, update_self]
    dsimp only
    rw [wp_bind, wp_get, hp, hnp, wp_bind, wp_onMem]
    refine (hparent.wp_uvmcopy halloc.space hapart).mono (fun ok m hcopy => ?_) fun _ he => he
    cases ok with
    | true =>
      simp only [if_true, wp_bind, wp_setProc, wp_onMem, wp_modify, wp_pure, halloc.proc,
        update_self, update_idem]
      refine ⟨fun pid hpid => ⟨np, ?_, halloc.forked rfl rfl rfl rfl rfl ?_⟩, fun h => ?_⟩
      · rw [update_self]
        exact Option.some.inj hpid
      · exact halloc.inherits hs.space hcopy fun y hy => copyTrapframe_of_ne hy
      · cases h
    | false =>
      have hchild : Vm.Moved kend s₁.mem m root 0 0 (Vm.kernelPages trampoline x) := hcopy.child
      have hroot : root ≠ 0 := by
        refine frame_ne_zero hk (hchild.space.frame root (List.mem_append_left _ ?_))
        rw [Vm.owned_zero]
        exact Radix.self_mem_nodes
      have hclear := hs.clear np hunused
      rw [if_neg Bool.false_ne_true, wp_bind]
      refine (wp_freeproc_take s.nextpid x root (.fresh forkret (s.proc np).kstack) hclear ?_ ?_).mono ?_
        fun _ he => he
      · exact halloc.proc
      · exact wp_freeMem_space hk rfl rfl (congrArg Proc.sz hclear.symm) hchild.space halloc.frame hroot
          hfree (halloc.within.trans (hchild.within.frame [x]))
      · intro _ s' h
        refine ⟨fun pid hpid => ?_, fun _ => .of_slot halloc.slot (.inr rfl) h⟩
        cases hpid

/-- `uvmcopy` gives a child with an empty table the pages of the parent or none, whichever calls of
    `kalloc` fail, and a `fork` that fails leaves nothing behind. -/
theorem fork_copies_or_undoes (hk : 0 < kend) :
    (∀ (m : Mem) (old new sz : Word) (extra extra' : Nat → Option Word),
      Vm.Space kend m old (Vm.pages sz) extra → Vm.Space kend m new 0 extra' →
      (Vm.owned m.pte old (Vm.pages sz) ++ (Vm.owned m.pte new 0 ++ m.freelist)).Nodup →
      ∃ ok m', Vm.uvmcopy kend old new sz m = .ok (ok, m') ∧
        (ok = true → Vm.Inherits m m' old new (Vm.pages sz) extra') ∧
        (ok = false → Vm.Undone m m' old new (Vm.pages sz) extra')) ∧
    ∀ (s : State) (p : ProcId) (extra : Nat → Option Word), Forkable kend s p extra →
      ∃ r s', fork kend trampoline forkret p s = .ok (r, s') ∧
        (∀ pid, r = some pid → ∃ np, (s'.proc np).pid = pid ∧ Forked trampoline s s' p np) ∧
        (r = none → Failed forkret s s') := by
  constructor
  · intro m old new sz extra extra' hparent hchild hapart
    obtain ⟨ok, m', hrun, hspec⟩ := (hparent.wp_uvmcopy hchild hapart).exists_ok
    refine ⟨ok, m', hrun, fun hok => ?_, fun hok => ?_⟩
    · subst hok
      exact hspec.inherits
    · subst hok
      exact hspec.undone
  · intro s p extra hs
    exact (wp_fork hk hs).exists_ok

/-- Seven pages are free, and the page before them is an empty table. -/
def sevenFree : Mem :=
  ⟨fun _ _ => 0, (List.range 7).map fun i => 0x80002000 + 0x1000 * BitVec.ofNat 64 i, []⟩

/-- A slot that has never been used. -/
def newSlot : Proc :=
  ⟨.unused, 0, 0, 0, 0, none, 0, 0, 0, 0, ⟨0, 0, fun _ => 0⟩, fun _ => none, none, fun _ => 0⟩

def firstProc : ProcId := ⟨0, by decide⟩

def secondProc : ProcId := ⟨1, by decide⟩

/-- There is only the first process, with a page of memory. -/
def oneProcess (m : Mem) : State where
  mem := m
  proc := update (fun _ => newSlot) firstProc
    { newSlot with state := .running, pid := 1, sz := 4096, pagetable := 0x80001000 }
  nextpid := 2

theorem oneProcess_forkable {m : Mem} {extra : Nat → Option Word}
    (h : Vm.Space 0x80000000 m 0x80001000 (Vm.pages 4096) extra) :
    Forkable 0x80000000 (oneProcess m) firstProc extra := by
  refine ⟨h, fun hno => ?_, fun i hi => ?_⟩
  · cases hno
  · by_cases hi' : i = firstProc
    · subst hi'
      cases hi
    · have hslot : (oneProcess m).proc i = newSlot := by
        simp [oneProcess, hi']
      rw [hslot]
      show { newSlot.reset with killed := 0 } = newSlot
      rw [Proc.reset, newSlot, update_eq_self_iff.mpr rfl]

/-- The memory of the first process. -/
theorem sevenFree_grown : ∃ m, Vm.growproc 0x80000000 0x80001000 0 4096 sevenFree = .ok ((true, 4096), m) ∧
    Vm.Space 0x80000000 m 0x80001000 (Vm.pages 4096) (fun _ => none) ∧
    Within (0x80001000 :: sevenFree.freelist) (Vm.owned m.pte 0x80001000 (Vm.pages 4096) ++ m.freelist)
      sevenFree.pte m.pte := by
  have hall : (0x80001000 :: sevenFree.freelist).all (fun x => Vm.Frame 0x80000000 x) = true := by
    decide +kernel
  obtain ⟨hspace, howned⟩ := Vm.Space.empty (s := sevenFree) (fun _ => rfl)
    (show (0x80001000 :: sevenFree.freelist).Nodup by decide +kernel)
    fun x hx => of_decide_eq_true (List.all_eq_true.mp hall x hx)
  have hspace : Vm.Space 0x80000000 sevenFree 0x80001000 (Vm.pages 0) fun _ => none := hspace
  have hany : (Vm.growproc 0x80000000 0x80001000 0 4096 sevenFree).toOption.any
      (fun r => r.1 == (true, 4096)) = true := by decide +kernel
  obtain ⟨⟨r, m⟩, hrun, hr⟩ := exists_ok_of_any hany
  obtain rfl : r = (true, 4096) := eq_of_beq hr
  have hmoved := ((hspace.wp_growproc (E := fun _ => True) (by decide)).of_ok hrun).space
  have hwithin := hmoved.within
  rw [show Vm.pages 0 = 0 by decide, howned] at hwithin
  exact ⟨m, hrun, hmoved.space, hwithin⟩

theorem fork_copies_or_undoes_seven :
    ∃ m, Vm.growproc 0x80000000 0x80001000 0 4096 sevenFree = .ok ((true, 4096), m) ∧
      (∃ ok m', Vm.uvmcopy 0x80000000 0x80001000 0x80000000 4096 m = .ok (ok, m') ∧
        (ok = true → Vm.Inherits m m' 0x80001000 0x80000000 (Vm.pages 4096) fun _ => none) ∧
        (ok = false → Vm.Undone m m' 0x80001000 0x80000000 (Vm.pages 4096) fun _ => none)) ∧
      ∃ r s', fork 0x80000000 0x80000000 0x80000100 firstProc (oneProcess m) = .ok (r, s') ∧
        (∀ pid, r = some pid →
          ∃ np, (s'.proc np).pid = pid ∧ Forked 0x80000000 (oneProcess m) s' firstProc np) ∧
        (r = none → Failed 0x80000100 (oneProcess m) s') := by
  obtain ⟨m, hrun, hspace, hwithin⟩ := sevenFree_grown
  obtain ⟨hcopy, hfork⟩ := @fork_copies_or_undoes 0x80000000 0x80000000 0x80000100 (by decide)
  -- the page below the first one is not in use: an empty table
  have hnodup : (0x80000000 :: (Vm.owned m.pte 0x80001000 (Vm.pages 4096) ++ m.freelist)).Nodup :=
    (hwithin.perm.cons _).nodup_iff.mpr (by decide +kernel)
  have hframes : ∀ x ∈ 0x80000000 :: m.freelist, Vm.Frame 0x80000000 x :=
    List.forall_mem_cons.mpr ⟨by decide, fun x hx => hspace.frame x (List.mem_append_right _ hx)⟩
  have hzero : ∀ i, m.pte 0x80000000 i = 0 := fun i =>
    congrFun (hwithin.other 0x80000000 (by decide +kernel)) i
  obtain ⟨hchild, howned⟩ := Vm.Space.empty hzero
    (hnodup.sublist ((List.sublist_append_right _ _).cons_cons _)) hframes
  refine ⟨m, hrun, hcopy m _ _ _ _ _ hspace hchild ?_, hfork _ _ _ (oneProcess_forkable hspace)⟩
  rw [howned]
  exact List.perm_middle.nodup_iff.mpr hnodup

/-- The child has got as far as its context when memory runs out: it is not what it was before. -/
theorem fork_sets_context :
    ∃ m s', Vm.growproc 0x80000000 0x80001000 0 4096 sevenFree = .ok ((true, 4096), m) ∧
      fork 0x80000000 0x80000000 0x80000100 firstProc (oneProcess m) = .ok (none, s') ∧
      ((oneProcess m).proc secondProc).context.ra = 0 ∧
      (s'.proc secondProc).context.ra = 0x80000100 := by
  have hany : (Vm.growproc 0x80000000 0x80001000 0 4096 sevenFree).toOption.any (fun r =>
      r.1 == (true, 4096) &&
        (fork 0x80000000 0x80000000 0x80000100 firstProc (oneProcess r.2)).toOption.any fun r' =>
          r'.1 == none && (r'.2.proc secondProc).context.ra == 0x80000100) = true := by
    decide +kernel
  obtain ⟨⟨r, m⟩, hrun, hr⟩ := exists_ok_of_any hany
  obtain ⟨hr, hfork⟩ := (Bool.and_eq_true _ _).mp hr
  obtain rfl : r = (true, 4096) := eq_of_beq hr
  obtain ⟨⟨r', s'⟩, hcall, hs'⟩ := exists_ok_of_any hfork
  obtain ⟨hr', hra⟩ := (Bool.and_eq_true _ _).mp hs'
  obtain rfl : r' = none := eq_of_beq hr'
  exact ⟨m, s', hrun, hcall, rfl, eq_of_beq hra⟩

end Xv6.Fork
