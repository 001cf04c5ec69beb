import Xv6.Malloc.Runs
import Xv6.Vm.Grow

set_option autoImplicit false

/-! # The allocator in a process

`malloc` and `free` with the `sbrk` of the kernel. The size of a process need not be a multiple of 16, so
addresses are counted in bytes here, and headers next to each other are 16 apart.

`morecore` computes the number of bytes as a `size_t`, and `sbrk` takes it as an `int`. For a request of
2 GB or more it is negative, and the process shrinks; for the largest requests it is 0 or 16. The block is
taken to have all the headers that were asked for. -/

namespace Xv6.Malloc

open Vm (Word pages)
open Machine

/-- The headers in the memory of a process, and what the kernel has of it. -/
structure Process where
  heap : Heap
  mem : Vm.Mem
  pagetable : Word
  sz : Word

/-- Where `nu` headers are asked for, `sbrk` gets the number of bytes as an `int`. -/
def asInt (nu : Nat) : BitVec 32 := BitVec.ofNat 32 (nu * HEADER)

def processes (kend : Word) : Arena Process where
  unit := HEADER
  heap := Process.heap
  put s h := { s with heap := h }
  sbrk s nu :=
    match Vm.sysSbrk kend s.pagetable s.sz (asInt nu) s.mem with
    | .error _ => none
    | .ok ((p, sz), mem) =>
      some ({ s with mem := mem, sz := sz }, if p = -1 then none else some p.toNat)
  unit_pos := by decide
  heap_put _ _ := rfl

variable {kend : Word} {base : Nat} {h : Heap} {l : List Nat} {k : Brk} {live : List Block}

/-! ## What holds of a process between the calls -/

/-- The blocks of the allocator lie below the size of the process; the free list is `l`, and `got` is
what was obtained, in headers. -/
structure Fits (kend : Word) (base : Nat) (s : Process) (live : List Block)
    (extra : Nat → Option Word) (l : List Nat) (got : Nat) : Prop where
  space : Vm.Space kend s.mem s.pagetable (pages s.sz) extra
  sound : Sound HEADER base s.heap ⟨s.sz.toNat, got⟩ live l
  got_le : HEADER * got ≤ s.sz.toNat

variable {s : Process} {extra : Nat → Option Word} {got : Nat}

/-- A process is not larger than the memory of the machine. -/
theorem Space.size_le (hk : Vm.KERNBASE ≤ kend) {sz : Word} {mem : Vm.Mem} {root : Word}
    (hs : Vm.Space kend mem root (pages sz) extra) : sz.toNat ≤ 2 ^ 27 := by
  have hle := hs.le_ram
  have hbase : 0x80000000 ≤ kend.toNat := hk
  have hframes : Vm.FRAMES = 0x88000 := rfl
  unfold pages at hle
  omega

/-- A process of at least `low` bytes has obtained `k`. -/
structure Holds (kend : Word) (extra : Nat → Option Word) (low : Nat) (s : Process) (k : Brk) : Prop where
  space : Vm.Space kend s.mem s.pagetable (pages s.sz) extra
  top : k.top = s.sz.toNat
  got : HEADER * k.got ≤ s.sz.toNat
  low : low ≤ s.sz.toNat

theorem Holds.got_le (hk : Vm.KERNBASE ≤ kend) {low : Nat} (hs : Holds kend extra low s k) :
    k.got ≤ MEMORY := by
  have hsz := Space.size_le hk hs.space
  have hgot := hs.got
  have hm : MEMORY = 2 ^ 23 := by decide
  unfold HEADER at hgot
  omega

theorem toInt_asInt {nu : Nat} (hint : nu * HEADER < 2 ^ 31) : (asInt nu).toInt = (nu * HEADER : Nat) := by
  rw [asInt, BitVec.toInt_eq_toNat_of_lt] <;> rw [BitVec.toNat_ofNat, Nat.mod_eq_of_lt (by omega)]
  omega

theorem ne_neg_one (hk : Vm.KERNBASE ≤ kend) {mem : Vm.Mem} {root sz : Word}
    (hs : Vm.Space kend mem root (pages sz) extra) : sz ≠ -1 := by
  have hsz := Space.size_le hk hs
  rintro rfl
  exact absurd hsz (by decide)

/-- The `sbrk` of the kernel does what `malloc` needs, for bytes that are an `int`. -/
theorem processes_obtains (hk : Vm.KERNBASE ≤ kend) {low nu : Nat} (hint : nu * HEADER < 2 ^ 31) :
    Obtains (processes kend) (Holds kend extra low) nu where
  put _ hs := ⟨hs.space, hs.top, hs.got, hs.low⟩
  memory hs := hs.got_le hk
  sbrk := by
    intro s k hs
    have hbytes := toInt_asInt hint
    obtain ⟨sz', mem', ⟨hrun, hspec⟩ | ⟨hrun, hspec⟩⟩ := Vm.sysSbrk_spec hs.space (asInt nu) (by omega)
    · have hsize := hspec.size rfl
      have htop := hs.top
      have hgot := hs.got
      have hlow := hs.low
      have hcomm : HEADER * nu = nu * HEADER := Nat.mul_comm ..
      refine ⟨{ s with mem := mem', sz := sz' }, some s.sz.toNat, ?_, rfl,
        .inr ⟨s.sz.toNat, rfl, Nat.le_of_eq htop, ⟨hspec.space.space, ?_, ?_, ?_⟩⟩⟩
      · simp only [processes, hrun, if_neg (ne_neg_one hk hs.space)]
      · show s.sz.toNat + HEADER * nu = sz'.toNat
        omega
      · show HEADER * (k.got + nu) ≤ sz'.toNat
        rw [Nat.mul_add]
        omega
      · show low ≤ sz'.toNat
        omega
    · have hsame := hspec.same rfl
      subst hsame
      refine ⟨{ s with mem := mem' }, none, ?_, rfl, .inl ⟨rfl, hspec.space.space, hs.top, hs.got, hs.low⟩⟩
      simp only [processes, hrun, if_pos]

/-- `malloc` has not been called yet, or its blocks lie below the size of the process. -/
def Owned (kend : Word) (base : Nat) (s : Process) (live : List Block) : Prop :=
  ∃ extra, (s.heap.freep = none ∧ live = [] ∧ base < s.sz.toNat ∧
      Vm.Space kend s.mem s.pagetable (pages s.sz) extra) ∨
    ∃ l got, Fits kend base s live extra l got

theorem Owned.start (hs : Owned kend base s live) :
    ∃ extra l got, Holds kend extra s.sz.toNat s ⟨s.sz.toNat, got⟩ ∧
      Sound HEADER base (start base s.heap).1 ⟨s.sz.toNat, got⟩ live l := by
  obtain ⟨extra, ⟨hfreep, rfl, hbase, hspace⟩ | ⟨l, got, hf⟩⟩ := hs
  · refine ⟨extra, [], 0, ⟨hspace, rfl, Nat.zero_le _, Nat.le_refl _⟩, ?_⟩
    exact (sound_start (by decide) s.heap hfreep).raise hbase
  · rw [hf.sound.start]
    exact ⟨extra, l, got, ⟨hf.space, rfl, hf.got_le, Nat.le_refl _⟩, hf.sound⟩

theorem Owned.of_sound {low : Nat} (hs : Holds kend extra low s k) (hsound : Sound HEADER base s.heap k live l) :
    Owned kend base s live := by
  obtain ⟨top, got⟩ := k
  obtain rfl : top = s.sz.toNat := hs.top
  exact ⟨extra, .inr ⟨l, got, hs.space, hsound, hs.got⟩⟩

theorem Owned.malloc (hk : Vm.KERNBASE ≤ kend) (hs : Owned kend base s live) (nbytes : Nat)
    (hint : units nbytes * HEADER < 2 ^ 31) :
    ∃ s' r, Malloc.malloc (processes kend) base s nbytes = some (s', r) ∧ s.sz ≤ s'.sz ∧
      ((r = none ∧ Owned kend base s' live) ∨
        ∃ b, r = some b ∧ Owned kend base s' (⟨b, units nbytes, nbytes⟩ :: live)) := by
  have hreq : request (units nbytes) * HEADER < 2 ^ 31 := by
    unfold request
    split
    · decide
    · exact hint
  have hreq' : request (units nbytes) < 2 ^ 31 := by
    unfold HEADER at hreq
    omega
  obtain ⟨extra, l, got, hholds, hsound⟩ := hs.start
  obtain ⟨s', k', l', hs', hr⟩ := malloc_spec (processes_obtains hk hreq) hreq' hsound hholds
  rcases hr with ⟨hrun, hsound'⟩ | ⟨b, hrun, -, hsound'⟩
  · exact ⟨s', none, hrun, hs'.low, .inl ⟨rfl, .of_sound hs' hsound'⟩⟩
  · exact ⟨s', some b, hrun, hs'.low, .inr ⟨b, rfl, .of_sound hs' hsound'⟩⟩

theorem header_add_le (nbytes : Nat) : HEADER + nbytes ≤ HEADER * units nbytes := by
  unfold units HEADER
  omega

/-- The bytes behind the header of block `b` lie below the size of the process, and in no block in use. -/
def Usable (s : Process) (live : List Block) (b nbytes : Nat) : Prop :=
  b + HEADER + nbytes ≤ s.sz.toNat ∧
    ∀ c ∈ live, ∀ u, b + HEADER ≤ u → u < b + HEADER + nbytes → ¬ c.Has HEADER u

theorem Owned.first {b nbytes : Nat} (hs : Owned kend base s (⟨b, units nbytes, nbytes⟩ :: live)) :
    Usable s live b nbytes := by
  obtain ⟨extra, ⟨-, hnil, -⟩ | ⟨l, got, hf⟩⟩ := hs
  · cases hnil
  have hh : HEADER = 16 := rfl
  have hroom := header_add_le nbytes
  have hhas : ∀ u, b ≤ u → u < b + HEADER * units nbytes →
      Block.Has HEADER ⟨b, units nbytes, nbytes⟩ u := fun u hlow hhigh => ⟨hlow, hhigh⟩
  constructor
  · have hlast := (hf.sound.within _ List.mem_cons_self
      (b + HEADER * units nbytes - 1) (hhas _ (by omega) (by omega))).2
    dsimp only at hlast
    omega
  · intro c hc u hlow hhigh hcu
    exact (List.pairwise_cons.mp hf.sound.apart).1 c hc u (hhas u (by omega) (by omega)) hcu

/-! ## Requests for which the number of bytes is not an `int` -/

/-- The list has no block for such a request, so that `sbrk` is called. If it fails then so does `malloc`,
and otherwise `malloc` takes the block from what `sbrk` did not give. -/
theorem Owned.malloc_large (hk : Vm.KERNBASE ≤ kend) (hs : Owned kend base s live) {nbytes : Nat}
    (hbytes : nbytes < 2 ^ 32) (hlarge : 2 ^ 31 ≤ units nbytes * HEADER) :
    (0 < (asInt (units nbytes)).toInt ∧ ∃ sz mem,
      Vm.sysSbrk kend s.pagetable s.sz (asInt (units nbytes)) s.mem = .ok ((-1, sz), mem) ∧ sz = s.sz ∧
      Malloc.malloc (processes kend) base s nbytes =
        some ({ s with heap := (Malloc.start base s.heap).1, mem := mem, sz := sz }, none)) ∨
    ∃ sz mem s' b,
      Vm.sysSbrk kend s.pagetable s.sz (asInt (units nbytes)) s.mem = .ok ((s.sz, sz), mem) ∧
      Malloc.malloc (processes kend) base s nbytes = some (s', some b) ∧ s'.sz.toNat ≤ 2 ^ 27 := by
  obtain ⟨extra, l, got, hholds, hsound⟩ := hs.start
  have hgot := hholds.got_le hk
  have hlen := hsound.length_le hgot
  have hm : MEMORY = 2 ^ 23 := by decide
  have hunits : 2 ^ 27 ≤ units nbytes ∧ units nbytes ≤ 2 ^ 28 + 1 := by
    unfold units HEADER at hlarge ⊢
    omega
  have hreq : request (units nbytes) = units nbytes := if_neg (by omega)
  have hfreep : (Malloc.start base s.heap).1.freep = some (Malloc.start base s.heap).2 := start_freep s.heap
  obtain ⟨sz, mem, hspace, hrun | ⟨hpos, hsame, hrun⟩⟩ := Vm.sysSbrk_moved hholds.space (asInt (units nbytes))
  · right
    -- the region is taken to begin at the old size, above all blocks of the list
    obtain ⟨h', l', hfree, hs', hlen', b, hb, hsize⟩ := hsound.region (Nat.le_refl s.sz.toNat)
      (show got + units nbytes < 2 ^ 32 by dsimp only at hgot; omega) (units_pos nbytes) hlen
    obtain ⟨p, -, hp⟩ := hs'.list.freep
    have hmore : morecore (processes kend) { s with heap := (Malloc.start base s.heap).1 } (units nbytes) =
        some (⟨h', mem, s.pagetable, sz⟩, some p) := by
      have hsbrk : (processes kend).sbrk { s with heap := (Malloc.start base s.heap).1 }
          (request (units nbytes)) =
          some (⟨(Malloc.start base s.heap).1, mem, s.pagetable, sz⟩, some s.sz.toNat) := by
        simp only [processes, hreq, hrun, if_neg (ne_neg_one hk hholds.space)]
      rw [morecore_region hsbrk (by rw [hreq]; exact hfree), hp]
      rfl
    have hends := mallocLoop_ends (A := processes kend)
      (s := { s with heap := (Malloc.start base s.heap).1 })
      (Q := fun s l => FreeList HEADER base s.heap l ∧ l.length ≤ MEMORY + 1 ∧ s.sz.toNat ≤ 2 ^ 27)
      (fun hQ => ⟨hQ.1, hQ.2.1⟩) ⟨hsound.list, by omega, Space.size_le hk hholds.space⟩ hlen
      hfreep (units_pos nbytes)
      (.inr ⟨_, l', p, hmore, hp, ⟨hs'.list, by omega, Space.size_le hk hspace⟩, b, hb, hsize⟩)
    rcases hends with ⟨s', hnone, -⟩ | ⟨s', l', h', l'', b, ⟨-, -, hsz⟩, -, heq⟩
    · rw [hmore] at hnone
      cases hnone
    · exact ⟨sz, mem, _, b, hrun, heq, hsz⟩
  · left
    have hmore : morecore (processes kend) { s with heap := (Malloc.start base s.heap).1 } (units nbytes) =
        some (⟨(Malloc.start base s.heap).1, mem, s.pagetable, sz⟩, none) := by
      unfold request at hreq
      simp only [morecore, hreq, processes, hrun, if_pos]
    have hends := mallocLoop_ends (A := processes kend)
      (s := { s with heap := (Malloc.start base s.heap).1 })
      (Q := fun s' l' => FreeList HEADER base s'.heap l' ∧ l'.length ≤ MEMORY + 1 ∧ total s'.heap l' ≤ got)
      (fun hQ => ⟨hQ.1, hQ.2.1⟩) ⟨hsound.list, by omega, Nat.le.intro hsound.total⟩ hlen hfreep
      (units_pos nbytes) (.inl ⟨_, hmore⟩)
    rcases hends with ⟨s', hnone, heq⟩ | ⟨s', l', h', l'', b, ⟨-, -, htotal⟩, htaken, -⟩
    · refine ⟨hpos, sz, mem, hrun, hsame, ?_⟩
      rw [hmore] at hnone
      cases hnone
      exact heq
    · have htaken : total h' l'' + units nbytes = total s'.heap l' := htaken.total
      dsimp only at hgot
      omega

/-! ## Runs of a program -/

/-- A process and its blocks in use. -/
structure Running where
  proc : Process
  live : List Block

inductive ProcessEvent where
  | malloc (nbytes : Fin (2 ^ 32))
  | free (b : Block)
  /-- The program writes to its memory in the block, behind the header. -/
  | write (b : Block) (a ptr size : Nat)
  /-- The program calls `sbrk` itself; it gives no memory back. -/
  | sbrk (n : BitVec 32)

def processStep (kend : Word) (base : Nat) (s : Running) : ProcessEvent → Outcome Stuck Running
  | .malloc nbytes =>
    match malloc (processes kend) base s.proc nbytes with
    | none => .panic .stuck
    | some (s', none) => .next ⟨s', s.live⟩
    | some (s', some b) => .next ⟨s', ⟨b, units nbytes, nbytes⟩ :: s.live⟩
  | .free b =>
    Outcome.guard (b ∈ s.live)
      (match free HEADER s.proc.heap b.addr with
      | none => .panic .stuck
      | some h => .next ⟨{ s.proc with heap := h }, s.live.erase b⟩)
  | .write b a ptr size =>
    Outcome.guard (b ∈ s.live ∧ b.addr < a ∧ a < b.addr + HEADER * b.units)
      (.next { s with proc.heap := (s.proc.heap.setPtr a ptr).setSize a size })
  | .sbrk n =>
    Outcome.guard (0 ≤ n.toInt)
      (match Vm.sysSbrk kend s.proc.pagetable s.proc.sz n s.proc.mem with
      | .error _ => .panic .stuck
      | .ok ((_, sz), mem) => .next { s with proc.mem := mem, proc.sz := sz })

theorem Owned.free (hk : Vm.KERNBASE ≤ kend) (hs : Owned kend base s live) {b : Block} (hb : b ∈ live) :
    ∃ h', Malloc.free HEADER s.heap b.addr = some h' ∧
      Owned kend base { s with heap := h' } (live.erase b) := by
  obtain ⟨extra, ⟨-, rfl, -⟩ | ⟨l, got, hf⟩⟩ := hs
  · cases hb
  have hholds : Holds kend extra 0 s ⟨s.sz.toNat, got⟩ := ⟨hf.space, rfl, hf.got_le, Nat.zero_le _⟩
  have hgot := hholds.got_le hk
  obtain ⟨h', l', hfree, hsound⟩ := hf.sound.free hb (Nat.lt_of_le_of_lt hgot (by decide))
    (hf.sound.length_le hgot)
  exact ⟨h', hfree, extra, .inr ⟨l', got, hf.space, hsound, hf.got_le⟩⟩

theorem Owned.write (hs : Owned kend base s live) {b : Block} {a : Nat} (hb : b ∈ live)
    (hlow : b.addr < a) (hhigh : a < b.addr + HEADER * b.units) (ptr size : Nat) :
    Owned kend base { s with heap := (s.heap.setPtr a ptr).setSize a size } live := by
  obtain ⟨extra, ⟨-, rfl, -⟩ | ⟨l, got, hf⟩⟩ := hs
  · cases hb
  refine ⟨extra, .inr ⟨l, got, hf.space, ?_, hf.got_le⟩⟩
  refine hf.sound.write hb hlow hhigh (fun c hc => ⟨?_, ?_⟩) rfl
  · exact Function.update_of_ne hc ..
  · exact Function.update_of_ne hc ..

theorem Owned.sbrk (hs : Owned kend base s live) {n : BitVec 32} (hn : 0 ≤ n.toInt) :
    ∃ r sz mem, Vm.sysSbrk kend s.pagetable s.sz n s.mem = .ok ((r, sz), mem) ∧
      Owned kend base { s with mem := mem, sz := sz } live := by
  obtain ⟨extra, hs⟩ := hs
  have hspace : Vm.Space kend s.mem s.pagetable (pages s.sz) extra := by
    rcases hs with h | ⟨l, got, hf⟩
    exacts [h.2.2.2, hf.space]
  obtain ⟨r, sz, mem, hrun, hle, hspace'⟩ : ∃ r sz mem,
      Vm.sysSbrk kend s.pagetable s.sz n s.mem = .ok ((r, sz), mem) ∧ s.sz.toNat ≤ sz.toNat ∧
        Vm.Space kend mem s.pagetable (pages sz) extra := by
    obtain ⟨sz, mem, ⟨hrun, hspec⟩ | ⟨hrun, hspec⟩⟩ := Vm.sysSbrk_spec hspace n (by omega)
    · have hsize := hspec.size rfl
      exact ⟨_, sz, mem, hrun, by omega, hspec.space.space⟩
    · exact ⟨_, sz, mem, hrun, by rw [hspec.same rfl], hspec.space.space⟩
  refine ⟨r, sz, mem, hrun, extra, ?_⟩
  rcases hs with ⟨hfreep, hlive, hbase, -⟩ | ⟨l, got, hf⟩
  · exact .inl ⟨hfreep, hlive, Nat.lt_of_lt_of_le hbase hle, hspace'⟩
  · exact .inr ⟨l, got, hspace', hf.sound.raise hle, Nat.le_trans hf.got_le hle⟩

/-- What `malloc` returns lies below the size of the process and in no block in use, and the process has
    not shrunk, exactly if the bytes for the request are an `int`, or wrap to 16 bytes that are not there. -/
theorem malloc_below_size (hk : Vm.KERNBASE ≤ kend) (hs : Owned kend base s live)
    (nbytes : Fin (2 ^ 32)) :
    (∃ s' r, malloc (processes kend) base s nbytes = some (s', r) ∧ s.sz ≤ s'.sz ∧
      ∀ b, r = some b → Usable s' live b nbytes) ↔
    units nbytes * HEADER < 2 ^ 31 ∨ (2 ^ 32 - HEADER < nbytes.val ∧ ∃ sz mem,
      Vm.sysSbrk kend s.pagetable s.sz 16 s.mem = .ok ((-1, sz), mem)) := by
  have hbytes := nbytes.isLt
  constructor
  · rintro ⟨s', r, hrun, -, husable⟩
    refine or_iff_not_imp_left.2 fun hlarge => ?_
    rcases hs.malloc_large hk hbytes (by omega) with
      ⟨hpos, sz, mem, hsbrk, -⟩ | ⟨-, -, s₁, b, -, hrun', hsz⟩
    · have hwraps : units nbytes * HEADER = 2 ^ 32 + 16 := by
        rw [asInt, BitVec.toInt_eq_toNat_cond, BitVec.toNat_ofNat] at hpos
        unfold units HEADER at hlarge hpos ⊢
        omega
      have h16 : asInt (units nbytes) = 16 := by
        rw [asInt, hwraps]
        rfl
      refine ⟨?_, sz, mem, h16 ▸ hsbrk⟩
      unfold units HEADER at hwraps
      unfold HEADER
      omega
    · rw [hrun] at hrun'
      cases hrun'
      have hbelow := (husable b rfl).1
      unfold units HEADER at hlarge
      omega
  · rintro (hint | ⟨hlarge, sz, mem, hsbrk⟩)
    · obtain ⟨s', r, hrun, hsz, ⟨rfl, -⟩ | ⟨b, rfl, hs'⟩⟩ := hs.malloc hk nbytes hint
      · exact ⟨s', none, hrun, hsz, fun b hb => by cases hb⟩
      · refine ⟨s', some b, hrun, hsz, fun c hc => ?_⟩
        cases hc
        exact hs'.first
    · have hwraps : units nbytes * HEADER = 2 ^ 32 + 16 := by
        unfold HEADER at hlarge
        unfold units HEADER
        omega
      have h16 : asInt (units nbytes) = 16 := by
        rw [asInt, hwraps]
        rfl
      rcases hs.malloc_large hk hbytes (by omega) with
        ⟨-, sz', mem', -, rfl, hrun⟩ | ⟨sz', mem', -, -, hrun, -⟩
      · exact ⟨_, none, hrun, BitVec.le_refl _, fun b hb => by cases hb⟩
      · obtain ⟨extra, l, got, hholds, -⟩ := hs.start
        rw [h16, hsbrk] at hrun
        injection hrun with hrun
        injection hrun with hrun
        injection hrun with hneg
        exact absurd hneg.symm (ne_neg_one hk hholds.space)

/-- A process of 4136 bytes that has not called `malloc`. -/
def newProcess (mem : Vm.Mem) : Process := ⟨⟨fun _ => 0, fun _ => 0, none⟩, mem, 0x80001000, 4136⟩

/-- 24 pages are free, and the page before them is an empty table. -/
def freePages : Vm.Mem :=
  ⟨fun _ _ => 0, (List.range 24).map fun i => 0x80002000 + 0x1000 * BitVec.ofNat 64 i, []⟩

theorem freePages_space : Vm.Space 0x80000000 freePages 0x80001000 (pages 0) fun _ => none := by
  have hall : (0x80001000 :: freePages.freelist).all (fun x => Vm.Frame 0x80000000 x) = true := by
    decide +kernel
  exact (Vm.Space.empty (fun _ => rfl) (by decide +kernel) fun x hx =>
    of_decide_eq_true (List.all_eq_true.mp hall x hx)).1

theorem malloc_below_size_hundred :
    ∃ mem s', Vm.growproc 0x80000000 0x80001000 0 4136 freePages = .ok ((true, 4136), mem) ∧
      malloc (processes 0x80000000) 256 (newProcess mem) 100 = some (s', some 69544) ∧
      Usable s' [] 69544 100 := by
  have hany : (Vm.growproc 0x80000000 0x80001000 0 4136 freePages).toOption.any (fun r =>
      r.1 == (true, 4136) && (malloc (processes 0x80000000) 256 (newProcess r.2) 100).any
        fun r' => r'.2 == some 69544) = true := by decide +kernel
  obtain ⟨⟨r, mem⟩, hrun, hr⟩ := Wp.exists_ok_of_any hany
  obtain ⟨hr, hmalloc⟩ := (Bool.and_eq_true _ _).mp hr
  obtain rfl : r = (true, 4136) := eq_of_beq hr
  obtain ⟨r, mem', hrun', hspec⟩ := (freePages_space.wp_growproc (n := 4136) (by decide)).exists_ok
  obtain ⟨rfl, rfl⟩ : r = (true, 4136) ∧ mem' = mem := by
    rw [hrun] at hrun'
    cases hrun'
    exact ⟨rfl, rfl⟩
  have howned : Owned 0x80000000 256 (newProcess mem') [] :=
    ⟨_, .inl ⟨rfl, rfl, show 256 < (4136 : Word).toNat by decide, hspec.space.space⟩⟩
  obtain ⟨s', p, hcall, -, hp⟩ := (malloc_below_size (by decide) howned 100).2 (.inl (by decide))
  have hmalloc : (malloc (processes 0x80000000) 256 (newProcess mem') (100 : Fin (2 ^ 32))).any
      (fun r' => r'.2 == some 69544) = true := hmalloc
  rw [hcall] at hmalloc
  obtain rfl : p = some 69544 := eq_of_beq hmalloc
  exact ⟨mem', s', hrun, hcall, hp 69544 rfl⟩

/-- For 4 GB less 32 bytes `sbrk` is called with -16: the process shrinks, and `malloc` returns a pointer
    above its size. -/
theorem malloc_wraps :
    ∃ mem s', Vm.growproc 0x80000000 0x80001000 0 4136 Vm.fourFree = .ok ((true, 4136), mem) ∧
      malloc (processes 0x80000000) 256 (newProcess mem) 0xFFFFFFE0 = some (s', some 4136) ∧
      s'.sz = 4120 := by
  have hany : (Vm.growproc 0x80000000 0x80001000 0 4136 Vm.fourFree).toOption.any (fun r =>
      r.1 == (true, 4136) && (malloc (processes 0x80000000) 256 (newProcess r.2) 0xFFFFFFE0).any
        fun r' => r'.2 == some 4136 && r'.1.sz == 4120) = true := by decide +kernel
  obtain ⟨⟨r, mem⟩, hrun, hr⟩ := Wp.exists_ok_of_any hany
  obtain ⟨hr, hmalloc⟩ := (Bool.and_eq_true _ _).mp hr
  obtain rfl : r = (true, 4136) := eq_of_beq hr
  obtain ⟨⟨s', p⟩, hcall, hs'⟩ := (Option.any_eq_true _ _).mp hmalloc
  obtain ⟨hp, hsz⟩ := (Bool.and_eq_true _ _).mp hs'
  obtain rfl : p = some 4136 := eq_of_beq hp
  exact ⟨mem, s', hrun, hcall, eq_of_beq hsz⟩

/-- The bytes for a request are an `int`. -/
def intRequest (_ : Running) : ProcessEvent → Bool
  | .malloc nbytes => units nbytes * HEADER < 2 ^ 31
  | _ => true

/-- The blocks of a program stay below the size of its process, in every run in which the bytes for each
    request are an `int`. -/
theorem process_owned (hk : Vm.KERNBASE ≤ kend) {r : Running} (hr : Owned kend base r.proc r.live)
    (es : List ProcessEvent) :
    (run (restrict intRequest (processStep kend base)) r es).All fun r' =>
      Owned kend base r'.proc r'.live := by
  refine run_all (fun r : Running => Owned kend base r.proc r.live) (fun r e hr => ?_) es hr
  refine Outcome.All.guard fun hint => ?_
  cases e with
  | malloc nbytes =>
    obtain ⟨s', p, hrun, -, ⟨rfl, hs'⟩ | ⟨b, rfl, hs'⟩⟩ :=
      Owned.malloc hk hr nbytes (of_decide_eq_true hint)
    all_goals
      simp only [processStep, hrun]
      exact hs'
  | free b =>
    refine Outcome.All.guard fun hb => ?_
    obtain ⟨h', hfree, hs'⟩ := Owned.free hk hr hb
    rw [hfree]
    exact hs'
  | write b a ptr size =>
    exact Outcome.All.guard fun hin => Owned.write hr hin.1 hin.2.1 hin.2.2 ptr size
  | sbrk n =>
    refine Outcome.All.guard fun hn => ?_
    obtain ⟨p, sz, mem, hsbrk, hs'⟩ := Owned.sbrk hr hn
    rw [hsbrk]
    exact hs'

theorem process_owned_newProcess :
    ∃ mem, Owned 0x80000000 256 (newProcess mem) [] ∧ ∀ es,
      (run (restrict intRequest (processStep 0x80000000 256)) ⟨newProcess mem, []⟩ es).All fun r =>
        Owned 0x80000000 256 r.proc r.live := by
  have hany : (Vm.growproc 0x80000000 0x80001000 0 4136 freePages).toOption.any
      (fun r => r.1.2 == 4136) = true := by decide +kernel
  obtain ⟨⟨⟨ok, sz⟩, mem⟩, hrun, hsz⟩ := Wp.exists_ok_of_any hany
  obtain rfl : sz = 4136 := eq_of_beq hsz
  have hspec := (freePages_space.wp_growproc (n := 4136) (E := fun _ => True) (by decide)).of_ok hrun
  have howned : Owned 0x80000000 256 (newProcess mem) [] :=
    ⟨_, .inl ⟨rfl, rfl, show 256 < (4136 : Word).toNat by decide, hspec.space.space⟩⟩
  exact ⟨mem, howned, process_owned (r := ⟨newProcess mem, []⟩) (by decide) howned⟩

end Xv6.Malloc
