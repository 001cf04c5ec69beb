import Xv6.Block
import Xv6.Lib.Machine
import Xv6.Lib.Ring
import Xv6.Lib.Tally

set_option autoImplicit false

/-! # The buffer cache

`kernel/bio.c` as the steps of any number of processes. What `bget`, `brelse`, `bpin` and `bunpin`
do under `bcache.lock` is one step each. `bget` goes on to wait for the buffer's sleep-lock without
`bcache.lock`, and `brelse` gives the sleep-lock back before it takes `bcache.lock`; where a process
is in between is its `Place`.

The buffers are linked through `next` and `prev` as in the source, most recently used first
(`Xv6.Lib.Ring`); the loops of `bget` follow these pointers. `virtio_disk_rw` moves a whole block
between a buffer and the disk, which has the block number as its only address. -/

namespace Xv6.Bio

open Machine Function

/-- An element of `bcache.buf[]`. -/
abbrev BufId : Type := Fin NBUF

/-- `struct buf`, without its lock and its list pointers. -/
structure Buf where
  valid : Bool
  dev : Nat
  blockno : Nat
  refcnt : UInt32
  data : Block

/-- Where a process is in `bget` or `brelse`, outside `bcache.lock`. -/
inductive Place where
  | idle
  /-- In `acquiresleep(&b->lock)` of `bget`. -/
  | waiting (b : BufId)
  /-- In `brelse`, after `releasesleep(&b->lock)`. -/
  | releasing (b : BufId)
  deriving DecidableEq, Repr

/-- The panics of `kernel/bio.c`. -/
inductive Panic where
  | noBuffers
  | bwrite
  | brelse
  deriving DecidableEq, Repr

/-- `bcache`, the disk behind it and the processes that use it. -/
structure State (P : Type) where
  buf : BufId → Buf
  links : Ring.Links BufId
  /-- The process that holds `b->lock`. -/
  lock : BufId → Option P
  disk : Nat → Block
  place : P → Place
  /-- How often each buffer has been pinned and not yet unpinned. -/
  pins : BufId → Nat

inductive Event (P : Type) where
  /-- `bget` up to the `release` of `bcache.lock`. -/
  | bget (p : P) (dev blockno : Nat)
  /-- `acquiresleep(&b->lock)` returns in `bget`. -/
  | acquire (p : P)
  /-- `bread` fills a buffer that is not valid. -/
  | fill (p : P) (b : BufId)
  /-- The holder of a buffer changes its contents. -/
  | store (p : P) (b : BufId) (data : Block)
  | bwrite (p : P) (b : BufId)
  /-- `brelse` up to `releasesleep`. -/
  | brelse (p : P) (b : BufId)
  /-- `brelse` under `bcache.lock`. -/
  | unref (p : P)
  | bpin (p : P) (b : BufId)
  | bunpin (p : P) (b : BufId)

variable {P : Type} [DecidableEq P]

/-- The list `binit` builds. -/
def binitLinks : Ring.Links BufId :=
  (List.finRange NBUF).foldl Ring.insertFront Ring.empty

/-- After `binit`: all buffers free, their fields zero as all static data is. -/
def State.init (P : Type) (disk : Nat → Block) : State P :=
  { buf := fun _ => { valid := false, dev := 0, blockno := 0, refcnt := 0, data := Block.zero }
    links := binitLinks
    lock := fun _ => none
    disk := disk
    place := fun _ => .idle
    pins := fun _ => 0 }

/-- Replace one buffer. -/
@[simps -fullyApplied] def State.setBuf (s : State P) (b : BufId) (x : Buf) : State P :=
  { s with buf := update s.buf b x }

/-- A buffer with another reference count. -/
def State.setRefcnt (s : State P) (b : BufId) (r : UInt32) : State P :=
  s.setBuf b { s.buf b with refcnt := r }

/-- Move one process. -/
@[simps -fullyApplied] def State.goto (s : State P) (p : P) (c : Place) : State P :=
  { s with place := update s.place p c }

/-- Change the holder of a sleep-lock. -/
@[simps -fullyApplied] def State.setLock (s : State P) (b : BufId) (o : Option P) : State P :=
  { s with lock := update s.lock b o }

/-- Change the number of pins of a buffer. -/
@[simps -fullyApplied] def State.setPins (s : State P) (b : BufId) (n : Nat) : State P :=
  { s with pins := update s.pins b n }

/-- Is the block already cached? A ring of `NBUF` buffers is traversed in `NBUF` rounds. -/
def State.cached (s : State P) (dev blockno : Nat) : Option BufId :=
  Ring.findFrom s.links.next (fun b => decide ((s.buf b).dev = dev ∧ (s.buf b).blockno = blockno))
    (NBUF + 1) (s.links.next none)

/-- The least recently used unused buffer. -/
def State.unused (s : State P) : Option BufId :=
  Ring.findFrom s.links.prev (fun b => decide ((s.buf b).refcnt = 0)) (NBUF + 1) (s.links.prev none)

/-- The critical section of `bget`. -/
def bget (s : State P) (p : P) (dev blockno : Nat) : Outcome Panic (State P) :=
  match s.cached dev blockno with
  | some b => .next ((s.setBuf b { s.buf b with refcnt := (s.buf b).refcnt + 1 }).goto p (.waiting b))
  | none =>
    match s.unused with
    | some b =>
      .next ((s.setBuf b
        { s.buf b with dev := dev, blockno := blockno, valid := false, refcnt := 1 }).goto p
          (.waiting b))
    | none => .panic .noBuffers

/-- The critical section of `brelse`: drop the reference and, if no one is waiting for the buffer,
    move it to the head of the list. -/
def unref (s : State P) (p : P) (b : BufId) : State P :=
  let r := (s.buf b).refcnt - 1
  let s' := (s.setBuf b { s.buf b with refcnt := r }).goto p .idle
  if r = 0 then { s' with links := Ring.insertFront (Ring.unlink s.links b) b } else s'

def step (s : State P) : Event P → Outcome Panic (State P)
  | .bget p dev blockno => Outcome.guard (s.place p = .idle) (bget s p dev blockno)
  | .acquire p =>
    match s.place p with
    | .waiting b =>
      Outcome.guard (s.lock b = none)
        (.next ((s.setLock b (some p)).goto p .idle))
    | _ => .disabled
  | .fill p b =>
    Outcome.guard (s.place p = .idle ∧ s.lock b = some p ∧ (s.buf b).valid = false)
      (.next (s.setBuf b { s.buf b with data := s.disk (s.buf b).blockno, valid := true }))
  | .store p b data =>
    Outcome.guard (s.place p = .idle ∧ s.lock b = some p)
      (.next (s.setBuf b { s.buf b with data := data }))
  | .bwrite p b =>
    Outcome.guard (s.place p = .idle) <|
      if s.lock b = some p then
        .next { s with disk := update s.disk (s.buf b).blockno (s.buf b).data }
      else .panic .bwrite
  | .brelse p b =>
    Outcome.guard (s.place p = .idle) <|
      if s.lock b = some p then
        .next ((s.setLock b none).goto p (.releasing b))
      else .panic .brelse
  | .unref p =>
    match s.place p with
    | .releasing b => .next (unref s p b)
    | _ => .disabled
  | .bpin p b =>
    Outcome.guard (s.place p = .idle)
      (.next ((s.setBuf b { s.buf b with refcnt := (s.buf b).refcnt + 1 }).setPins b
        (s.pins b + 1)))
  | .bunpin p b =>
    -- a pin is undone at most once
    Outcome.guard (s.place p = .idle ∧ 0 < s.pins b)
      (.next ((s.setBuf b { s.buf b with refcnt := (s.buf b).refcnt - 1 }).setPins b
        (s.pins b - 1)))

/-! ## Frame lemmas for the updates -/

section Frame

variable (s : State P) (b : BufId)

omit [DecidableEq P]

@[simp] theorem setRefcnt_place (r : UInt32) : (s.setRefcnt b r).place = s.place := rfl
@[simp] theorem setRefcnt_pins (r : UInt32) : (s.setRefcnt b r).pins = s.pins := rfl

@[simp] theorem setRefcnt_refcnt (c : BufId) (r : UInt32) :
    ((s.setRefcnt b r).buf c).refcnt = if b = c then r else (s.buf c).refcnt := by
  by_cases hc : b = c
  · subst hc; simp [State.setRefcnt]
  · simp [State.setRefcnt, hc, Ne.symm hc]

/-- The other fields of a buffer. -/
theorem setRefcnt_rest (c : BufId) (r : UInt32) :
    (s.setRefcnt b r).buf c = { s.buf c with refcnt := ((s.setRefcnt b r).buf c).refcnt } := by
  by_cases hc : b = c
  · subst hc; simp [State.setRefcnt]
  · simp [State.setRefcnt, Ne.symm hc]

@[simp] theorem setRefcnt_dev (c : BufId) (r : UInt32) :
    ((s.setRefcnt b r).buf c).dev = (s.buf c).dev := by rw [setRefcnt_rest]

@[simp] theorem setRefcnt_blockno (c : BufId) (r : UInt32) :
    ((s.setRefcnt b r).buf c).blockno = (s.buf c).blockno := by rw [setRefcnt_rest]

@[simp] theorem setRefcnt_valid (c : BufId) (r : UInt32) :
    ((s.setRefcnt b r).buf c).valid = (s.buf c).valid := by rw [setRefcnt_rest]

@[simp] theorem setRefcnt_data (c : BufId) (r : UInt32) :
    ((s.setRefcnt b r).buf c).data = (s.buf c).data := by rw [setRefcnt_rest]

end Frame

/-! ## What a step can do -/

/-- The steps that do not panic, one constructor for each thing that can happen. -/
inductive Step (s : State P) : Event P → State P → Prop where
  | hit (p : P) (dev blockno : Nat) (b : BufId) (hp : s.place p = .idle)
      (hb : s.cached dev blockno = some b) :
      Step s (.bget p dev blockno) ((s.setRefcnt b ((s.buf b).refcnt + 1)).goto p (.waiting b))
  | recycle (p : P) (dev blockno : Nat) (b : BufId) (hp : s.place p = .idle)
      (hc : s.cached dev blockno = none) (hb : s.unused = some b) :
      Step s (.bget p dev blockno)
        ((s.setBuf b { s.buf b with dev := dev, blockno := blockno, valid := false, refcnt := 1 }).goto
          p (.waiting b))
  | acquire (p : P) (b : BufId) (hp : s.place p = .waiting b) (hl : s.lock b = none) :
      Step s (.acquire p) ((s.setLock b (some p)).goto p .idle)
  | fill (p : P) (b : BufId) (hp : s.place p = .idle) (hl : s.lock b = some p)
      (hv : (s.buf b).valid = false) :
      Step s (.fill p b)
        (s.setBuf b { s.buf b with data := s.disk (s.buf b).blockno, valid := true })
  | store (p : P) (b : BufId) (data : Block) (hp : s.place p = .idle) (hl : s.lock b = some p) :
      Step s (.store p b data) (s.setBuf b { s.buf b with data := data })
  | bwrite (p : P) (b : BufId) (hp : s.place p = .idle) (hl : s.lock b = some p) :
      Step s (.bwrite p b)
        { s with disk := update s.disk (s.buf b).blockno (s.buf b).data }
  | brelse (p : P) (b : BufId) (hp : s.place p = .idle) (hl : s.lock b = some p) :
      Step s (.brelse p b) ((s.setLock b none).goto p (.releasing b))
  | last (p : P) (b : BufId) (hp : s.place p = .releasing b) (hr : (s.buf b).refcnt - 1 = 0) :
      Step s (.unref p)
        (({ s with links := Ring.insertFront (Ring.unlink s.links b) b }.setRefcnt b
          ((s.buf b).refcnt - 1)).goto p .idle)
  | unref (p : P) (b : BufId) (hp : s.place p = .releasing b) (hr : (s.buf b).refcnt - 1 ≠ 0) :
      Step s (.unref p) ((s.setRefcnt b ((s.buf b).refcnt - 1)).goto p .idle)
  | bpin (p : P) (b : BufId) (hp : s.place p = .idle) :
      Step s (.bpin p b)
        ((s.setRefcnt b ((s.buf b).refcnt + 1)).setPins b (s.pins b + 1))
  | bunpin (p : P) (b : BufId) (hp : s.place p = .idle) (hpin : 0 < s.pins b) :
      Step s (.bunpin p b)
        ((s.setRefcnt b ((s.buf b).refcnt - 1)).setPins b (s.pins b - 1))

theorem bget_eq_next {s s' : State P} {p : P} {dev blockno : Nat} (hp : s.place p = .idle)
    (h : bget s p dev blockno = .next s') : Step s (.bget p dev blockno) s' := by
  unfold bget at h
  split at h
  · next b hb => cases h; exact .hit p dev blockno b hp hb
  · next hc =>
      split at h
      · next b hb => cases h; exact .recycle p dev blockno b hp hc hb
      · cases h

theorem step_eq_next {s s' : State P} {e : Event P} (h : step s e = .next s') : Step s e s' := by
  cases e with
  | bget p dev blockno =>
    simp only [step, Outcome.guard_eq_next] at h
    exact bget_eq_next h.1 h.2
  | acquire p =>
    simp only [step] at h
    split at h
    · next b hp =>
        simp only [Outcome.guard_eq_next, Outcome.next.injEq] at h
        obtain ⟨hl, rfl⟩ := h
        exact .acquire p b hp hl
    · cases h
  | fill p b =>
    simp only [step, Outcome.guard_eq_next, Outcome.next.injEq] at h
    obtain ⟨⟨hp, hl, hv⟩, rfl⟩ := h
    exact .fill p b hp hl hv
  | store p b data =>
    simp only [step, Outcome.guard_eq_next, Outcome.next.injEq] at h
    obtain ⟨⟨hp, hl⟩, rfl⟩ := h
    exact .store p b data hp hl
  | bwrite p b =>
    simp only [step, Outcome.guard_eq_next] at h
    obtain ⟨hp, h⟩ := h
    split at h
    · next hl => cases h; exact .bwrite p b hp hl
    · cases h
  | brelse p b =>
    simp only [step, Outcome.guard_eq_next] at h
    obtain ⟨hp, h⟩ := h
    split at h
    · next hl => cases h; exact .brelse p b hp hl
    · cases h
  | unref p =>
    simp only [step] at h
    split at h
    · next b hp =>
        simp only [unref, Outcome.next.injEq] at h
        split at h
        · next hr => cases h; exact .last p b hp hr
        · next hr => cases h; exact .unref p b hp hr
    · cases h
  | bpin p b =>
    simp only [step, Outcome.guard_eq_next, Outcome.next.injEq] at h
    obtain ⟨hp, rfl⟩ := h
    exact .bpin p b hp
  | bunpin p b =>
    simp only [step, Outcome.guard_eq_next, Outcome.next.injEq] at h
    obtain ⟨⟨hp, hpin⟩, rfl⟩ := h
    exact .bunpin p b hp hpin

end Xv6.Bio
