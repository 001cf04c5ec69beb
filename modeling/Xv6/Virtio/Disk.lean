import Mathlib.Data.List.Nodup
import Xv6.Lib.Machine
import Xv6.Param

set_option autoImplicit false

/-! # The disk driver

`kernel/virtio_disk.c` as a machine: threads in `virtio_disk_rw` and `virtio_disk_intr`, and the
device. `disk.vdisk_lock` keeps the threads apart, but the device reads and writes the shared memory at
any time, so what the threads do under the lock is cut where the device could see a difference.

A thread is a process, or a CPU that takes an interrupt. The callers of `virtio_disk_rw` (`bread` and
`bwrite`) hold the sleep-lock of the buffer. `kill` can end a sleep at any time, so a thread in `sleep`
goes on whenever the lock is free, and `wakeup` adds nothing to what may happen.

The device takes requests from the `avail` ring in order, carries them out and puts them on the `used`
ring in any order. Requests are numbered, and `completed`, `cleared` and `returned` count for each how
often the device put it on the `used` ring, how often `b->disk` was cleared for it, and how often its
`virtio_disk_rw` returned. -/

namespace Xv6.Virtio

open Machine Function

/-- Number of descriptors. -/
abbrev NUM : Nat := 8

/-- Chained with another descriptor. -/
abbrev VRING_DESC_F_NEXT : Nat := 1

/-- Device writes (vs read). -/
abbrev VRING_DESC_F_WRITE : Nat := 2

/-- Read the disk. -/
abbrev VIRTIO_BLK_T_IN : Nat := 0

/-- Write the disk. -/
abbrev VIRTIO_BLK_T_OUT : Nat := 1

/-- `sizeof(struct virtio_blk_req)`. -/
abbrev BLKREQ : Nat := 16

/-- What the address in a descriptor points to. -/
inductive Addr (B : Type) where
  | null
  /-- `&disk.ops[i]`. -/
  | op (i : Nat)
  /-- `b->data`. -/
  | data (b : B)
  /-- `&disk.info[i].status`. -/
  | status (i : Nat)
  deriving DecidableEq, Repr

/-- `struct virtq_desc`. -/
structure Desc (B : Type) where
  addr : Addr B
  len : Nat
  flags : Nat
  next : Nat
  deriving DecidableEq, Repr

/-- A descriptor of zeros. -/
def Desc.zero {B : Type} : Desc B := ⟨.null, 0, 0, 0⟩

/-- `struct virtio_blk_req`. -/
structure BlkReq where
  type : Nat
  reserved : Nat
  sector : Nat
  deriving DecidableEq, Repr

/-- An element of `disk.info`. -/
structure Info (B : Type) where
  b : Option B
  status : Nat
  deriving DecidableEq, Repr

/-- A call `virtio_disk_rw(b, write)`, with its number. -/
structure Call (B : Type) where
  b : B
  sector : Nat
  write : Bool
  req : Nat
  deriving DecidableEq, Repr

/-- Where a thread is. `i`, `j` and `k` are `idx[0]`, `idx[1]` and `idx[2]`. -/
inductive Pc (B : Type) where
  | idle
  /-- `acquire(&disk.vdisk_lock)`, at the start and at the end of `sleep(&disk.free[0], ..)`. -/
  | acquire (c : Call B)
  /-- `alloc3_desc(idx)`. -/
  | alloc (c : Call B)
  /-- The descriptors, `b->disk = 1` and `disk.info[idx[0]].b = b`. -/
  | format (c : Call B) (i j k : Nat)
  /-- `disk.avail->ring[disk.avail->idx % NUM] = idx[0]`. -/
  | ring (c : Call B) (i j k : Nat)
  /-- `disk.avail->idx += 1`. -/
  | publish (c : Call B) (i j k : Nat)
  /-- `while(b->disk == 1)`. -/
  | test (c : Call B) (i j k : Nat)
  /-- Inside `sleep(b, &disk.vdisk_lock)`. -/
  | wait (c : Call B) (i j k : Nat)
  /-- `disk.info[idx[0]].b = 0`. -/
  | clear (c : Call B) (i j k : Nat)
  /-- The loop of `free_chain`, at descriptor `i`; `left` are the descriptors that it has not freed. -/
  | freeChain (c : Call B) (i : Nat) (left : List Nat)
  /-- `release(&disk.vdisk_lock)` of `virtio_disk_rw`. -/
  | release (c : Call B)
  /-- `acquire(&disk.vdisk_lock)` of `virtio_disk_intr`. -/
  | intrAcquire
  /-- `while(disk.used_idx != disk.used->idx)`. -/
  | intrTest
  /-- The body of that loop. -/
  | intrBody
  /-- `release(&disk.vdisk_lock)` of `virtio_disk_intr`. -/
  | intrRelease
  deriving DecidableEq, Repr

/-- Threads `T`, buffers `B` with data `D`. -/
structure State (T B D : Type) where
  pc : T → Pc B
  /-- Who holds `disk.vdisk_lock`. -/
  lock : Option T
  /-- Who holds the sleep-lock of a buffer. -/
  owner : B → Option T
  /-- `b->disk`. -/
  busy : B → Bool
  /-- `b->data`. -/
  data : B → D
  free : Nat → Bool
  desc : Nat → Desc B
  ops : Nat → BlkReq
  info : Nat → Info B
  /-- `disk.avail->ring` and `disk.avail->idx`. -/
  availRing : Nat → Nat
  availIdx : Nat
  /-- `disk.used->ring[..].id` and `disk.used->idx`. -/
  usedRing : Nat → Nat
  usedIdx : Nat
  /-- `disk.used_idx`. -/
  seenIdx : Nat
  /-- How far the device has read the `avail` ring. -/
  devIdx : Nat
  /-- The requests that the device has taken and not carried out. -/
  taken : List Nat
  /-- The requests that the device has carried out. -/
  served : List Nat
  /-- The request in the next element of the `used` ring, before the device counts it. -/
  posting : Option Nat
  /-- The disk, by sectors. -/
  blocks : Nat → D
  nextReq : Nat
  /-- The last request whose chain starts at a descriptor. -/
  reqOf : Nat → Nat
  completed : Nat → Nat
  cleared : Nat → Nat
  returned : Nat → Nat

inductive Event (T B D : Type) where
  /-- `t` gets the sleep-lock of `b`. -/
  | acquiresleep (t : T) (b : B)
  | releasesleep (t : T) (b : B)
  /-- `t` writes to `b->data`. -/
  | store (t : T) (b : B) (d : D)
  | rw (t : T) (b : B) (blockno : Nat) (write : Bool)
  | intr (t : T)
  /-- The next section of `t`. -/
  | next (t : T)
  /-- The device takes a request from the `avail` ring. -/
  | fetch
  /-- The device carries out the request that starts at descriptor `h`. -/
  | serve (h : Nat)
  /-- The device writes it to the `used` ring. -/
  | post (h : Nat)
  /-- The device increments `disk.used->idx`. -/
  | count
  deriving DecidableEq, Repr

/-- Panics, and what must not happen. -/
inductive Panic where
  | freeDesc1
  | freeDesc2
  | intrStatus
  /-- `disk.info[id]` with `id` outside the array. -/
  | infoRange
  /-- `b->disk = 0` with `b` null. -/
  | nullBuf
  /-- The device gets a chain of descriptors that is no request. -/
  | badChain
  deriving DecidableEq, Repr

variable {T B D : Type}

/-! ## Descriptors -/

/-- `alloc_desc`: a free descriptor, marked non-free. -/
def allocDesc (s : State T B D) : Option (Nat × State T B D) :=
  ((List.range NUM).find? s.free).map fun i => (i, { s with free := update s.free i false })

/-- `free_desc`. -/
def freeDesc (s : State T B D) (i : Nat) : Outcome Panic (State T B D) :=
  if NUM ≤ i then .panic .freeDesc1
  else if s.free i then .panic .freeDesc2
  else .next { s with
    desc := update s.desc i Desc.zero
    free := update s.free i true }

/-- `free_desc` of one descriptor after the other. -/
def freeDescs : State T B D → List Nat → Outcome Panic (State T B D)
  | s, [] => .next s
  | s, i :: l => (freeDesc s i).bind fun s' => freeDescs s' l

/-- The loop of `alloc3_desc`: `n` more descriptors after those in `idx`. -/
def allocDescs : Nat → State T B D → List Nat → Outcome Panic (State T B D × Option (List Nat))
  | 0, s, idx => .next (s, some idx)
  | n + 1, s, idx =>
    match allocDesc s with
    | some (i, s') => allocDescs n s' (idx ++ [i])
    | none => (freeDescs s idx).bind fun s' => .next (s', none)

/-- `alloc3_desc`; `none` for the result `-1`. -/
def alloc3Desc (s : State T B D) : Outcome Panic (State T B D × Option (List Nat)) :=
  allocDescs 3 s []

/-! ## Threads -/

section Threads

variable [DecidableEq T] [DecidableEq B]

def State.goto (s : State T B D) (t : T) (k : Pc B) : State T B D :=
  { s with pc := update s.pc t k }

def State.unlock (s : State T B D) : State T B D := { s with lock := none }

/-- Take the lock and go on at `k`; the thread waits while another holds the lock. -/
def State.withLock (s : State T B D) (t : T) (k : Pc B) : Outcome Panic (State T B D) :=
  Outcome.guard (s.lock = none) (.next ({ s with lock := some t }.goto t k))

/-- The descriptors of a request, `b->disk` and `disk.info`. -/
def State.format (s : State T B D) (c : Call B) (i j k : Nat) : State T B D :=
  { s with
    ops := update s.ops i ⟨if c.write then VIRTIO_BLK_T_OUT else VIRTIO_BLK_T_IN, 0, c.sector⟩
    desc :=
      update
        (update
          (update s.desc i ⟨.op i, BLKREQ, VRING_DESC_F_NEXT, j⟩)
          j ⟨.data c.b, BSIZE, (if c.write then 0 else VRING_DESC_F_WRITE) ||| VRING_DESC_F_NEXT, k⟩)
        k ⟨.status i, 1, VRING_DESC_F_WRITE, 0⟩
    busy := update s.busy c.b true
    info := update s.info i ⟨some c.b, 0xff⟩
    reqOf := update s.reqOf i c.req }

/-- Where `free_chain` goes on after a descriptor with these flags. -/
def afterFree (c : Call B) (flags nxt : Nat) (left : List Nat) : Pc B :=
  if flags &&& VRING_DESC_F_NEXT ≠ 0 then .freeChain c nxt left else .release c

/-- The body of the loop in `virtio_disk_intr`. -/
def intrBody (s : State T B D) (t : T) : Outcome Panic (State T B D) :=
  let id := s.usedRing (s.seenIdx % NUM)
  if NUM ≤ id then .panic .infoRange
  else if (s.info id).status ≠ 0 then .panic .intrStatus
  else match (s.info id).b with
    | none => .panic .nullBuf
    | some b => .next ({ s with
        busy := update s.busy b false
        cleared := update s.cleared (s.reqOf id) (s.cleared (s.reqOf id) + 1)
        seenIdx := (s.seenIdx + 1) % 2 ^ 16 }.goto t .intrTest)

/-- The next section of thread `t`. -/
def threadStep (s : State T B D) (t : T) : Outcome Panic (State T B D) :=
  match s.pc t with
  | .idle => .disabled
  | .acquire c => s.withLock t (.alloc c)
  | .alloc c =>
    (alloc3Desc s).bind fun r =>
      match r.2 with
      | some [i, j, k] => .next (r.1.goto t (.format c i j k))
      -- `sleep(&disk.free[0], &disk.vdisk_lock)`
      | _ => .next (r.1.unlock.goto t (.acquire c))
  | .format c i j k => .next ((s.format c i j k).goto t (.ring c i j k))
  | .ring c i j k =>
    .next ({ s with availRing := update s.availRing (s.availIdx % NUM) i }.goto t
      (.publish c i j k))
  | .publish c i j k =>
    .next ({ s with availIdx := (s.availIdx + 1) % 2 ^ 16 }.goto t (.test c i j k))
  | .test c i j k =>
    if s.busy c.b then .next (s.unlock.goto t (.wait c i j k)) else .next (s.goto t (.clear c i j k))
  | .wait c i j k => s.withLock t (.test c i j k)
  | .clear c i j k =>
    .next ({ s with info := update s.info i { s.info i with b := none } }.goto t
      (.freeChain c i [i, j, k]))
  | .freeChain c i left =>
    (freeDesc s i).bind fun s' =>
      .next (s'.goto t (afterFree c (s.desc i).flags (s.desc i).next left.tail))
  | .release c =>
    .next ({ s.unlock with
      returned := update s.returned c.req (s.returned c.req + 1) }.goto t .idle)
  | .intrAcquire => s.withLock t .intrTest
  | .intrTest => .next (s.goto t (if s.seenIdx = s.usedIdx then .intrRelease else .intrBody))
  | .intrBody => intrBody s t
  | .intrRelease => .next (s.unlock.goto t .idle)

/-! ## The device -/

/-- What the device reads from a chain of descriptors. -/
structure Request (B : Type) where
  op : BlkReq
  b : B
  status : Nat

/-- The request that starts at descriptor `h`: header, data and status, with the right lengths and
directions. -/
def State.request (s : State T B D) (h : Nat) : Option (Request B) :=
  let d₀ := s.desc h
  let d₁ := s.desc d₀.next
  let d₂ := s.desc d₁.next
  match d₀.addr, d₁.addr, d₂.addr with
  | .op i, .data b, .status n =>
    if d₀.len = BLKREQ ∧ d₀.flags = VRING_DESC_F_NEXT ∧ d₁.len = BSIZE ∧
        d₁.flags = (if (s.ops i).type = VIRTIO_BLK_T_IN then VRING_DESC_F_WRITE else 0) |||
          VRING_DESC_F_NEXT ∧
        d₂.len = 1 ∧ d₂.flags = VRING_DESC_F_WRITE
    then some ⟨s.ops i, b, n⟩
    else none
  | _, _, _ => none

/-- The device reads or writes the sector and writes the status `0`. -/
def State.transfer (s : State T B D) (q : Request B) : State T B D :=
  { s with
    data := if q.op.type = VIRTIO_BLK_T_IN then update s.data q.b (s.blocks q.op.sector) else s.data
    blocks :=
      if q.op.type = VIRTIO_BLK_T_IN then s.blocks else update s.blocks q.op.sector (s.data q.b)
    info := update s.info q.status { s.info q.status with status := 0 } }

def serve (s : State T B D) (h : Nat) : Outcome Panic (State T B D) :=
  match s.request h with
  | none => .panic .badChain
  | some q => .next { s.transfer q with taken := s.taken.erase h, served := h :: s.served }

def count (s : State T B D) : Outcome Panic (State T B D) :=
  match s.posting with
  | none => .disabled
  | some h => .next { s with
      usedIdx := (s.usedIdx + 1) % 2 ^ 16
      posting := none
      completed := update s.completed (s.reqOf h) (s.completed (s.reqOf h) + 1) }

/-! ## Steps -/

def step (s : State T B D) : Event T B D → Outcome Panic (State T B D)
  | .acquiresleep t b =>
    Outcome.guard (s.pc t = .idle ∧ s.owner b = none)
      (.next { s with owner := update s.owner b (some t) })
  | .releasesleep t b =>
    Outcome.guard (s.pc t = .idle ∧ s.owner b = some t)
      (.next { s with owner := update s.owner b none })
  | .store t b d =>
    Outcome.guard (s.pc t = .idle ∧ s.owner b = some t)
      (.next { s with data := update s.data b d })
  | .rw t b blockno write =>
    Outcome.guard (s.pc t = .idle ∧ s.owner b = some t)
      (.next ({ s with nextReq := s.nextReq + 1 }.goto t
        (.acquire ⟨b, blockno * (BSIZE / 512) % 2 ^ 32, write, s.nextReq⟩)))
  | .intr t => Outcome.guard (s.pc t = .idle) (.next (s.goto t .intrAcquire))
  | .next t => threadStep s t
  | .fetch =>
    Outcome.guard (s.devIdx ≠ s.availIdx)
      (.next { s with
        devIdx := (s.devIdx + 1) % 2 ^ 16
        taken := s.availRing (s.devIdx % NUM) :: s.taken })
  | .serve h => Outcome.guard (h ∈ s.taken) (serve s h)
  | .post h =>
    Outcome.guard (h ∈ s.served ∧ s.posting = none)
      (.next { s with
        usedRing := update s.usedRing (s.usedIdx % NUM) h
        served := s.served.erase h
        posting := some h })
  | .count => count s

/-- After `virtio_disk_init`, with the data in the buffers and on the disk. -/
def State.init (T : Type) (data : B → D) (blocks : Nat → D) : State T B D where
  pc := fun _ => .idle
  lock := none
  owner := fun _ => none
  busy := fun _ => false
  data := data
  free := fun i => decide (i < NUM)
  desc := fun _ => Desc.zero
  ops := fun _ => ⟨0, 0, 0⟩
  info := fun _ => ⟨none, 0⟩
  availRing := fun _ => 0
  availIdx := 0
  usedRing := fun _ => 0
  usedIdx := 0
  seenIdx := 0
  devIdx := 0
  taken := []
  served := []
  posting := none
  blocks := blocks
  nextReq := 0
  reqOf := fun _ => 0
  completed := fun _ => 0
  cleared := fun _ => 0
  returned := fun _ => 0

end Threads

/-! ## What the functions do -/

/-- The descriptors that are free without those of the list. -/
def without (free : Nat → Bool) (l : List Nat) (d : Nat) : Bool := free d && !l.contains d

@[simp] theorem without_nil (free : Nat → Bool) : without free [] = free := by
  funext d
  simp [without]

theorem without_of_mem {free : Nat → Bool} {l : List Nat} {d : Nat} (h : d ∈ l) :
    without free l d = false := by
  simp [without, h]

theorem without_concat (free : Nat → Bool) (l : List Nat) (i : Nat) :
    without free (l ++ [i]) = update (without free l) i false := by
  funext d
  by_cases hd : d = i
  · subst hd
    simp [without]
  · simp [without, hd]

theorem without_cons {free : Nat → Bool} {l : List Nat} {i : Nat} (hi : free i = true) (hl : i ∉ l) :
    update (without free (i :: l)) i true = without free l := by
  funext d
  by_cases hd : d = i
  · subst hd
    simp [without, hi, hl]
  · simp [without, hd]

theorem allocDesc_eq_some {s s' : State T B D} {i : Nat} (h : allocDesc s = some (i, s')) :
    i < NUM ∧ s.free i = true ∧ s' = { s with free := update s.free i false } := by
  obtain ⟨j, hj, he⟩ := Option.map_eq_some_iff.1 h
  cases he
  exact ⟨List.mem_range.1 (List.mem_of_find?_eq_some hj), List.find?_some hj, rfl⟩

theorem freeDesc_eq_next {s s' : State T B D} {i : Nat} (h : freeDesc s i = .next s') :
    s' = { s with
      desc := update s.desc i Desc.zero
      free := update s.free i true } := by
  unfold freeDesc at h
  split at h
  · cases h
  · split at h
    · cases h
    · cases h
      rfl

theorem freeDesc_of_lt {s : State T B D} {i : Nat} (hi : i < NUM) (hf : s.free i = false) :
    freeDesc s i = .next { s with
      desc := update s.desc i Desc.zero
      free := update s.free i true } := by
  unfold freeDesc
  rw [if_neg (Nat.not_le.2 hi), if_neg (by simp [hf])]

/-- Freeing descriptors that were taken from `free` gives them back. -/
theorem freeDescs_without {free : Nat → Bool} {l : List Nat} {s : State T B D}
    (hl : ∀ i ∈ l, i < NUM ∧ free i = true) (hnd : l.Nodup) (hs : s.free = without free l) :
    ∃ desc, freeDescs s l = .next { s with free := free, desc := desc } ∧
      ∀ i, i ∉ l → desc i = s.desc i := by
  induction l generalizing s with
  | nil =>
    refine ⟨s.desc, ?_, fun _ _ => rfl⟩
    rw [without_nil] at hs
    rw [freeDescs, ← hs]
  | cons i l ih =>
    obtain ⟨hi, hfree⟩ := hl i List.mem_cons_self
    rw [List.nodup_cons] at hnd
    have hnot : s.free i = false := by rw [hs, without_of_mem List.mem_cons_self]
    have hs' : update s.free i true = without free l := by
      rw [hs, without_cons hfree hnd.1]
    obtain ⟨desc, heq, hdesc⟩ := ih (s := { s with
      desc := update s.desc i Desc.zero
      free := update s.free i true }) (fun j hj => hl j (List.mem_cons_of_mem _ hj)) hnd.2 hs'
    refine ⟨desc, ?_, ?_⟩
    · rw [freeDescs, freeDesc_of_lt hi hnot]
      exact heq
    · intro j hj
      rw [List.mem_cons, not_or] at hj
      exact (hdesc j hj.2).trans (update_of_ne hj.1 _ _)

/-- What `alloc3_desc` can return: all descriptors, marked non-free, or none, and then `free` is as it
was and the descriptors in use are unchanged. -/
inductive Allocated (s : State T B D) (idx : List Nat) (n : Nat) :
    State T B D × Option (List Nat) → Prop
  | all (l : List Nat) (hlen : l.length = n) (hl : ∀ i ∈ idx ++ l, i < NUM ∧ s.free i = true)
      (hnd : (idx ++ l).Nodup) :
      Allocated s idx n ({ s with free := without s.free (idx ++ l) }, some (idx ++ l))
  | none (desc : Nat → Desc B) (hdesc : ∀ i, s.free i = false → desc i = s.desc i) :
      Allocated s idx n ({ s with desc := desc }, Option.none)

theorem allocDescs_spec (s : State T B D) (n : Nat) (idx : List Nat)
    (hidx : ∀ i ∈ idx, i < NUM ∧ s.free i = true) (hnd : idx.Nodup) :
    ∃ r, allocDescs n { s with free := without s.free idx } idx = .next r ∧ Allocated s idx n r := by
  induction n generalizing idx with
  | zero =>
    refine ⟨_, rfl, ?_⟩
    have h : Allocated s idx 0 _ := .all [] rfl (by simpa using hidx) (by simpa using hnd)
    simpa using h
  | succ n ih =>
    rw [allocDescs]
    cases ha : allocDesc ({ s with free := without s.free idx } : State T B D) with
    | none =>
      obtain ⟨desc, heq, hdesc⟩ := freeDescs_without
        (s := ({ s with free := without s.free idx } : State T B D)) hidx hnd rfl
      refine ⟨({ s with desc := desc }, none), ?_, .none desc ?_⟩
      · simp only [heq]
        rfl
      · intro i hi
        apply hdesc
        intro hmem
        rw [(hidx i hmem).2] at hi
        cases hi
    | some r =>
      obtain ⟨i, s'⟩ := r
      obtain ⟨hi, hfree, rfl⟩ := allocDesc_eq_some ha
      have hnot : i ∉ idx := by
        intro hmem
        have hfalse : without s.free idx i = false := without_of_mem hmem
        rw [show without s.free idx i = true from hfree] at hfalse
        cases hfalse
      have hsi : s.free i = true := (Bool.and_eq_true_iff.1 hfree).1
      have hidx' : ∀ d ∈ idx ++ [i], d < NUM ∧ s.free d = true := by
        intro d hd
        rcases List.mem_append.1 hd with hd | hd
        · exact hidx d hd
        · rw [List.mem_singleton.1 hd]
          exact ⟨hi, hsi⟩
      have hnd' : (idx ++ [i]).Nodup := by
        rw [List.nodup_append]
        refine ⟨hnd, List.nodup_singleton i, ?_⟩
        rintro a ha b hb rfl
        exact hnot (List.mem_singleton.1 hb ▸ ha)
      obtain ⟨r, hr, hall⟩ := ih (idx ++ [i]) hidx' hnd'
      rw [without_concat] at hr
      refine ⟨r, hr, ?_⟩
      cases hall with
      | none desc hdesc => exact .none desc hdesc
      | all l hlen hl hnd =>
        rw [List.append_assoc, List.singleton_append] at hl hnd ⊢
        exact .all (i :: l) (by rw [List.length_cons, hlen]) hl hnd

/-- `alloc3_desc` never panics. -/
theorem alloc3Desc_spec (s : State T B D) :
    ∃ r, alloc3Desc s = .next r ∧ Allocated s [] 3 r := by
  have h := allocDescs_spec s 3 [] (by simp) List.nodup_nil
  rwa [without_nil] at h

/-- A failed `alloc3_desc` leaves the set of free descriptors as it was. -/
theorem alloc3Desc_free {s s' : State T B D} (h : alloc3Desc s = .next (s', none)) :
    s'.free = s.free := by
  obtain ⟨r, hr, hall⟩ := alloc3Desc_spec s
  rw [hr] at h
  cases h
  cases hall
  rfl

/-! ## What a step can do -/

section Steps

variable [DecidableEq T] [DecidableEq B]

/-- A thread goes on and nothing else changes. -/
inductive Quiet (s : State T B D) : Pc B → Pc B → Prop
  | intr : Quiet s .idle .intrAcquire
  | seen (c : Call B) (i j k : Nat) (hb : s.busy c.b = false) : Quiet s (.test c i j k) (.clear c i j k)
  | more (hidx : s.seenIdx ≠ s.usedIdx) : Quiet s .intrTest .intrBody
  | stop (hidx : s.seenIdx = s.usedIdx) : Quiet s .intrTest .intrRelease

/-- A thread goes on with the lock. -/
inductive Takes : Pc B → Pc B → Prop
  | rw (c : Call B) : Takes (.acquire c) (.alloc c)
  | wake (c : Call B) (i j k : Nat) : Takes (.wait c i j k) (.test c i j k)
  | intr : Takes .intrAcquire .intrTest

/-- A thread goes on without the lock. -/
inductive Drops : Pc B → Pc B → Prop
  | sleep (c : Call B) (i j k : Nat) : Drops (.test c i j k) (.wait c i j k)
  | intr : Drops .intrRelease .idle

inductive Step (s : State T B D) : State T B D → Prop
  | quiet (t : T) (k : Pc B) (hk : Quiet s (s.pc t) k) : Step s { s with pc := update s.pc t k }
  | take (t : T) (k : Pc B) (hk : Takes (s.pc t) k) (hl : s.lock = none) :
      Step s { s with lock := some t, pc := update s.pc t k }
  | drop (t : T) (k : Pc B) (hk : Drops (s.pc t) k) :
      Step s { s with lock := none, pc := update s.pc t k }
  | acquiresleep (t : T) (b : B) (ho : s.owner b = none) :
      Step s { s with owner := update s.owner b (some t) }
  | releasesleep (t : T) (b : B) (hk : s.pc t = .idle) (ho : s.owner b = some t) :
      Step s { s with owner := update s.owner b none }
  | store (b : B) (d : D) : Step s { s with data := update s.data b d }
  | rw (t : T) (b : B) (sector : Nat) (write : Bool) (hk : s.pc t = .idle) (ho : s.owner b = some t) :
      Step s { s with
        nextReq := s.nextReq + 1
        pc := update s.pc t (.acquire ⟨b, sector, write, s.nextReq⟩) }
  | alloc (t : T) (c : Call B) (i j k : Nat) (hk : s.pc t = .alloc c)
      (hf : ∀ d ∈ [i, j, k], d < NUM ∧ s.free d = true) (hnd : [i, j, k].Nodup) :
      Step s { s with
        free := without s.free [i, j, k]
        pc := update s.pc t (.format c i j k) }
  | allocFail (t : T) (c : Call B) (desc : Nat → Desc B) (hk : s.pc t = .alloc c)
      (hdesc : ∀ d, s.free d = false → desc d = s.desc d) :
      Step s { s with desc := desc, lock := none, pc := update s.pc t (.acquire c) }
  | format (t : T) (c : Call B) (i j k : Nat) (hk : s.pc t = .format c i j k) :
      Step s { s.format c i j k with pc := update s.pc t (.ring c i j k) }
  | ring (t : T) (c : Call B) (i j k : Nat) (hk : s.pc t = .ring c i j k) :
      Step s { s with
        availRing := update s.availRing (s.availIdx % NUM) i
        pc := update s.pc t (.publish c i j k) }
  | publish (t : T) (c : Call B) (i j k : Nat) (hk : s.pc t = .publish c i j k) :
      Step s { s with
        availIdx := (s.availIdx + 1) % 2 ^ 16
        pc := update s.pc t (.test c i j k) }
  | clear (t : T) (c : Call B) (i j k : Nat) (hk : s.pc t = .clear c i j k) :
      Step s { s with
        info := update s.info i { s.info i with b := none }
        pc := update s.pc t (.freeChain c i [i, j, k]) }
  | freeChain (t : T) (c : Call B) (i : Nat) (left : List Nat) (hk : s.pc t = .freeChain c i left) :
      Step s { s with
        desc := update s.desc i Desc.zero
        free := update s.free i true
        pc := update s.pc t (afterFree c (s.desc i).flags (s.desc i).next left.tail) }
  | release (t : T) (c : Call B) (hk : s.pc t = .release c) :
      Step s { s with
        lock := none
        returned := update s.returned c.req (s.returned c.req + 1)
        pc := update s.pc t .idle }
  | intrBody (t : T) (id : Nat) (b : B) (hk : s.pc t = .intrBody) (hid : s.usedRing (s.seenIdx % NUM) = id)
      (hb : (s.info id).b = some b) :
      Step s { s with
        busy := update s.busy b false
        cleared := update s.cleared (s.reqOf id) (s.cleared (s.reqOf id) + 1)
        seenIdx := (s.seenIdx + 1) % 2 ^ 16
        pc := update s.pc t .intrTest }
  | fetch (hidx : s.devIdx ≠ s.availIdx) :
      Step s { s with
        devIdx := (s.devIdx + 1) % 2 ^ 16
        taken := s.availRing (s.devIdx % NUM) :: s.taken }
  | serve (h : Nat) (q : Request B) (hmem : h ∈ s.taken) (hq : s.request h = some q) :
      Step s { s.transfer q with taken := s.taken.erase h, served := h :: s.served }
  | post (h : Nat) (hmem : h ∈ s.served) (hp : s.posting = none) :
      Step s { s with
        usedRing := update s.usedRing (s.usedIdx % NUM) h
        served := s.served.erase h
        posting := some h }
  | count (h : Nat) (hp : s.posting = some h) :
      Step s { s with
        usedIdx := (s.usedIdx + 1) % 2 ^ 16
        posting := none
        completed := update s.completed (s.reqOf h) (s.completed (s.reqOf h) + 1) }

variable {s s' : State T B D} {t : T}

theorem withLock_eq_next {k k' : Pc B} (hk : s.pc t = k) (hm : Takes k k')
    (h : s.withLock t k' = .next s') : Step s s' := by
  obtain ⟨hl, ht⟩ := Outcome.guard_eq_next.1 h
  cases ht
  exact .take t k' (hk ▸ hm) hl

theorem intrBody_eq_next (hk : s.pc t = .intrBody) (h : intrBody s t = .next s') : Step s s' := by
  unfold intrBody at h
  simp only at h
  split at h
  · cases h
  · split at h
    · cases h
    · split at h
      · cases h
      · next b hb =>
          cases h
          exact .intrBody t _ b hk rfl hb

theorem allocStep_eq_next {c : Call B} (hk : s.pc t = .alloc c) (h : threadStep s t = .next s') :
    Step s s' := by
  obtain ⟨r, hr, hall⟩ := alloc3Desc_spec s
  simp only [threadStep, hk, hr, Outcome.bind] at h
  cases hall with
  | none desc hdesc =>
    cases h
    exact .allocFail t c desc hk hdesc
  | all l hlen hl hnd =>
    obtain ⟨i, j, k, rfl⟩ := List.length_eq_three.mp hlen
    cases h
    exact .alloc t c i j k hk hl hnd

theorem threadStep_eq_next (h : threadStep s t = .next s') : Step s s' := by
  cases hk : s.pc t with
  | alloc c => exact allocStep_eq_next hk h
  | idle => simp [threadStep, hk] at h
  | acquire c => exact withLock_eq_next hk (.rw c) (by simpa [threadStep, hk] using h)
  | wait c i j k => exact withLock_eq_next hk (.wake c i j k) (by simpa [threadStep, hk] using h)
  | intrAcquire => exact withLock_eq_next hk .intr (by simpa [threadStep, hk] using h)
  | intrBody => exact intrBody_eq_next hk (by simpa [threadStep, hk] using h)
  | test c i j k =>
    simp only [threadStep, hk] at h
    split at h
    · cases h
      exact .drop t _ (hk ▸ .sleep c i j k)
    · next hb =>
        cases h
        exact .quiet t _ (hk ▸ .seen c i j k (by simpa using hb))
  | intrTest =>
    simp only [threadStep, hk] at h
    cases h
    apply Step.quiet
    rw [hk]
    split
    · next hidx => exact .stop hidx
    · next hidx => exact .more hidx
  | freeChain c i left =>
    simp only [threadStep, hk] at h
    obtain ⟨s₁, h1, h2⟩ := Outcome.bind_eq_next.1 h
    cases freeDesc_eq_next h1
    cases h2
    exact .freeChain t c i left hk
  | format c i j k =>
    simp only [threadStep, hk] at h
    cases h
    exact .format t c i j k hk
  | ring c i j k =>
    simp only [threadStep, hk] at h
    cases h
    exact .ring t c i j k hk
  | publish c i j k =>
    simp only [threadStep, hk] at h
    cases h
    exact .publish t c i j k hk
  | clear c i j k =>
    simp only [threadStep, hk] at h
    cases h
    exact .clear t c i j k hk
  | release c =>
    simp only [threadStep, hk] at h
    cases h
    exact .release t c hk
  | intrRelease =>
    simp only [threadStep, hk] at h
    cases h
    exact .drop t _ (hk ▸ .intr)

theorem serve_eq_next {h : Nat} (hmem : h ∈ s.taken) (hs : serve s h = .next s') : Step s s' := by
  unfold serve at hs
  split at hs
  · cases hs
  · next q hq =>
      cases hs
      exact .serve h q hmem hq

theorem count_eq_next (h : count s = .next s') : Step s s' := by
  unfold count at h
  split at h
  · cases h
  · next hp =>
      cases h
      exact .count _ hp

theorem step_eq_next {e : Event T B D} (h : step s e = .next s') : Step s s' := by
  cases e with
  | next t => exact threadStep_eq_next h
  | serve d =>
    obtain ⟨hmem, hs⟩ := Outcome.guard_eq_next.1 h
    exact serve_eq_next hmem hs
  | count => exact count_eq_next h
  | acquiresleep t b =>
    obtain ⟨⟨hk, ho⟩, hs⟩ := Outcome.guard_eq_next.1 h
    cases hs
    exact .acquiresleep t b ho
  | releasesleep t b =>
    obtain ⟨⟨hk, ho⟩, hs⟩ := Outcome.guard_eq_next.1 h
    cases hs
    exact .releasesleep t b hk ho
  | store t b d =>
    obtain ⟨-, hs⟩ := Outcome.guard_eq_next.1 h
    cases hs
    exact .store b d
  | rw t b blockno write =>
    obtain ⟨⟨hk, ho⟩, hs⟩ := Outcome.guard_eq_next.1 h
    cases hs
    exact .rw t b _ write hk ho
  | intr t =>
    obtain ⟨hk, hs⟩ := Outcome.guard_eq_next.1 h
    cases hs
    exact .quiet t _ (hk ▸ .intr)
  | fetch =>
    obtain ⟨hidx, hs⟩ := Outcome.guard_eq_next.1 h
    cases hs
    exact .fetch hidx
  | post d =>
    obtain ⟨⟨hmem, hp⟩, hs⟩ := Outcome.guard_eq_next.1 h
    cases hs
    exact .post d hmem hp

end Steps

end Xv6.Virtio
