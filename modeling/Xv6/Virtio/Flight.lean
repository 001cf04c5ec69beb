import Mathlib.Data.List.Perm.Subperm
import Xv6.Lib.Fifo
import Xv6.Virtio.Invariant

set_option autoImplicit false

/-! # The disk driver: requests in flight

Where a request is between `disk.avail->idx += 1` and `b->disk = 0`: on the `avail` ring, in the device,
or on the `used` ring (`Queues`). Each is there once, and it is there exactly while its thread waits
with `b->disk` set (`Awaited`). From this follows how often it has been completed and cleared
(`Counts`). -/

namespace Xv6.Virtio

open Machine Function

variable {T B D : Type}

/-! ## Phases of a call -/

/-- How far a call is: before it is on the `avail` ring, waiting for the chain that starts at `h`, or
after `b->disk` was seen clear. -/
inductive Phase where
  | before
  | flying (h : Nat)
  | after

def Pc.phase : Pc B → Option (Call B × Phase)
  | .acquire c => some (c, .before)
  | .alloc c => some (c, .before)
  | .format c _ _ _ => some (c, .before)
  | .ring c _ _ _ => some (c, .before)
  | .publish c _ _ _ => some (c, .before)
  | .test c i _ _ => some (c, .flying i)
  | .wait c i _ _ => some (c, .flying i)
  | .clear c _ _ _ => some (c, .after)
  | .freeChain c _ _ => some (c, .after)
  | .release c => some (c, .after)
  | _ => none

/-- The call whose request is written and not on the `avail` ring. -/
def Pc.submits : Pc B → Option (Call B)
  | .ring c _ _ _ => some c
  | .publish c _ _ _ => some c
  | _ => none

theorem Pc.call_of_phase {k : Pc B} {c : Call B} {ph : Phase} (h : k.phase = some (c, ph)) :
    k.call = some c := by
  cases k <;> cases h <;> rfl

theorem Pc.call_of_submits {k : Pc B} {c : Call B} (h : k.submits = some c) : k.call = some c := by
  cases k <;> cases h <;> rfl

theorem Pc.head_of_flying {k : Pc B} {c : Call B} {h : Nat} (hk : k.phase = some (c, .flying h)) :
    h ∈ k.chain := by
  cases k <;> cases hk <;> exact List.mem_cons_self

theorem Pc.Written.formatted {k : Pc B} {tb : Tables B} {c : Call B} {h : Nat} (hw : k.Written tb)
    (hk : k.phase = some (c, .flying h)) : ∃ i j, Formatted tb c h i j := by
  cases k <;> cases hk <;> exact ⟨_, _, hw⟩

theorem afterFree_phase (c : Call B) (flags nxt : Nat) (left : List Nat) :
    (afterFree c flags nxt left).phase = some (c, .after) := by
  unfold afterFree
  split <;> rfl

theorem Takes.phase_eq {k k' : Pc B} (h : Takes k k') : k'.phase = k.phase := by
  cases h <;> rfl

theorem Drops.phase_eq {k k' : Pc B} (h : Drops k k') : k'.phase = k.phase := by
  cases h <;> rfl

/-! ## Queues -/

/-- The rings and the requests in the hands of the device. -/
structure Rings where
  availRing : Nat → Nat
  availIdx : Nat
  usedRing : Nat → Nat
  usedIdx : Nat
  seenIdx : Nat
  devIdx : Nat
  taken : List Nat
  served : List Nat
  posting : Option Nat

def State.rings (s : State T B D) : Rings :=
  ⟨s.availRing, s.availIdx, s.usedRing, s.usedIdx, s.seenIdx, s.devIdx, s.taken, s.served, s.posting⟩

/-- The requests that have been given to the device and are not on the `used` ring; `a` is what is on
the `avail` ring. -/
def Rings.pending (r : Rings) (a : List Nat) : List Nat :=
  a ++ (r.taken ++ (r.served ++ r.posting.toList))

structure Queues (r : Rings) (a u : List Nat) : Prop where
  avail : Fifo NUM (2 ^ 16) r.availRing r.devIdx r.availIdx a
  used : Fifo NUM (2 ^ 16) r.usedRing r.seenIdx r.usedIdx u
  posted : ∀ h, r.posting = some h → r.usedRing (r.usedIdx % NUM) = h
  nodup : (r.pending a ++ u).Nodup

theorem num_dvd : NUM ∣ 2 ^ 16 := by decide

theorem num_lt : NUM < 2 ^ 16 := by decide

theorem length_lt_of_nodup {l : List Nat} {x m : Nat} (hnd : (x :: l).Nodup)
    (hlt : ∀ y ∈ x :: l, y < m) : l.length < m := by
  have hsub : x :: l ⊆ List.range m := fun y hy => List.mem_range.2 (hlt y hy)
  have hle := (List.subperm_of_subset hnd hsub).length_le
  rw [List.length_cons, List.length_range] at hle
  omega

namespace Queues

variable {r : Rings} {a u : List Nat} {h : Nat}

/-- There is room on the `avail` ring for one more request. -/
theorem avail_room (hq : Queues r a u) (hlt : ∀ d ∈ r.pending a ++ u, d < NUM) {i : Nat}
    (hi : i ∉ r.pending a ++ u) (hin : i < NUM) : a.length < NUM := by
  have hsub : ∀ d ∈ a, d ∈ r.pending a ++ u := by
    intro d hd
    exact List.mem_append_left _ (List.mem_append_left _ hd)
  have hnd : a.Nodup := (List.nodup_append.1 (List.nodup_append.1 hq.nodup).1).1
  refine length_lt_of_nodup (List.nodup_cons.2 ⟨fun hmem => hi (hsub i hmem), hnd⟩) ?_
  intro d hd
  rcases List.mem_cons.1 hd with rfl | hd
  · exact hin
  · exact hlt d (hsub d hd)

/-- There is room on the `used` ring for a request that the device has. -/
theorem used_room (hq : Queues r a u) (hlt : ∀ d ∈ r.pending a ++ u, d < NUM)
    (hh : h ∈ r.pending a) : u.length < NUM := by
  obtain ⟨-, hnd, hdisj⟩ := List.nodup_append.1 hq.nodup
  refine length_lt_of_nodup (List.nodup_cons.2 ⟨fun hmem => hdisj h hh h hmem rfl, hnd⟩) ?_
  intro d hd
  rcases List.mem_cons.1 hd with rfl | hd
  · exact hlt d (List.mem_append_left _ hh)
  · exact hlt d (List.mem_append_right _ hd)

/-- `disk.avail->ring[disk.avail->idx % NUM] = i`. -/
theorem ring (hq : Queues r a u) (hroom : a.length < NUM) (i : Nat) :
    Queues { r with availRing := update r.availRing (r.availIdx % NUM) i } a u where
  avail := hq.avail.store num_dvd hroom i
  used := hq.used
  posted := hq.posted
  nodup := hq.nodup

theorem perm_publish (r : Rings) (a u : List Nat) (i : Nat) :
    (r.pending (a ++ [i]) ++ u).Perm (i :: (r.pending a ++ u)) := by
  unfold Rings.pending
  simp only [List.append_assoc, List.cons_append]
  exact List.perm_middle

/-- `disk.avail->idx += 1`. -/
theorem publish (hq : Queues r a u) (hroom : a.length < NUM) {i : Nat}
    (hi : i ∉ r.pending a ++ u) (hslot : r.availRing (r.availIdx % NUM) = i) :
    Queues { r with availIdx := (r.availIdx + 1) % 2 ^ 16 } (a ++ [i]) u where
  avail := hq.avail.advance num_dvd hroom hslot
  used := hq.used
  posted := hq.posted
  nodup := (perm_publish r a u i).nodup_iff.2 (List.nodup_cons.2 ⟨hi, hq.nodup⟩)

/-- The device takes the oldest request. -/
theorem fetch (hq : Queues r a u) (hidx : r.devIdx ≠ r.availIdx) {r' : Rings}
    (hr' : r' = { r with
      devIdx := (r.devIdx + 1) % 2 ^ 16
      taken := r.availRing (r.devIdx % NUM) :: r.taken }) :
    ∃ a', Queues r' a' u ∧ (r'.pending a').Perm (r.pending a) := by
  subst hr'
  cases a with
  | nil => exact absurd ((hq.avail.empty_iff num_lt).2 rfl) hidx
  | cons x a =>
    rw [hq.avail.head_eq]
    have hperm : (Rings.pending { r with
        devIdx := (r.devIdx + 1) % 2 ^ 16
        taken := x :: r.taken } a).Perm (r.pending (x :: a)) := List.perm_middle
    exact ⟨a, ⟨hq.avail.pop num_dvd, hq.used, hq.posted, (hperm.append_right u).nodup_iff.2 hq.nodup⟩, hperm⟩

theorem perm_move {l m : List Nat} (hmem : h ∈ l) : (l.erase h ++ (h :: m)).Perm (l ++ m) := by
  refine List.perm_middle.trans ?_
  rw [← List.cons_append]
  exact (List.perm_cons_erase hmem).symm.append_right m

/-- The device has carried out a request. -/
theorem serve (hq : Queues r a u) (hmem : h ∈ r.taken) {r' : Rings}
    (hr' : r' = { r with taken := r.taken.erase h, served := h :: r.served }) :
    Queues r' a u ∧ (r'.pending a).Perm (r.pending a) := by
  subst hr'
  have hperm : (Rings.pending { r with taken := r.taken.erase h, served := h :: r.served } a).Perm
      (r.pending a) := (perm_move hmem).append_left a
  exact ⟨⟨hq.avail, hq.used, hq.posted, (hperm.append_right u).nodup_iff.2 hq.nodup⟩, hperm⟩

/-- The device writes the next element of the `used` ring. -/
theorem post (hq : Queues r a u) (hroom : u.length < NUM) (hmem : h ∈ r.served) (hp : r.posting = none)
    {r' : Rings}
    (hr' : r' = { r with
      usedRing := update r.usedRing (r.usedIdx % NUM) h
      served := r.served.erase h
      posting := some h }) :
    Queues r' a u ∧ (r'.pending a).Perm (r.pending a) := by
  subst hr'
  have hperm : (Rings.pending { r with
      usedRing := update r.usedRing (r.usedIdx % NUM) h
      served := r.served.erase h
      posting := some h } a).Perm (r.pending a) := by
    unfold Rings.pending
    rw [hp]
    exact ((perm_move (m := []) hmem).append_left _).append_left a
  refine ⟨⟨hq.avail, hq.used.store num_dvd hroom h, ?_, (hperm.append_right u).nodup_iff.2 hq.nodup⟩, hperm⟩
  intro g hg
  cases hg
  exact update_self ..

/-- The device increments `disk.used->idx`. -/
theorem count (hq : Queues r a u) (hroom : u.length < NUM) (hp : r.posting = some h) {r' : Rings}
    (hr' : r' = { r with usedIdx := (r.usedIdx + 1) % 2 ^ 16, posting := none }) :
    Queues r' a (u ++ [h]) ∧ (r.pending a).Perm (h :: r'.pending a) ∧
      (r'.pending a ++ (u ++ [h])).Perm (r.pending a ++ u) := by
  subst hr'
  have hpend : (r.pending a).Perm (h :: Rings.pending { r with
      usedIdx := (r.usedIdx + 1) % 2 ^ 16, posting := none } a) := by
    unfold Rings.pending
    rw [hp]
    simp only [Option.toList_none, Option.toList_some, List.append_nil, ← List.append_assoc]
    exact List.perm_append_singleton ..
  have hperm : (Rings.pending { r with
      usedIdx := (r.usedIdx + 1) % 2 ^ 16, posting := none } a ++ (u ++ [h])).Perm (r.pending a ++ u) := by
    refine .trans ?_ (hpend.symm.append_right u)
    rw [← List.append_assoc]
    exact List.perm_append_singleton ..
  exact ⟨⟨hq.avail, hq.used.advance num_dvd hroom (hq.posted h hp), nofun, hperm.nodup_iff.2 hq.nodup⟩,
    hpend, hperm⟩

/-- `virtio_disk_intr` has seen the oldest element of the `used` ring. -/
theorem seen (hq : Queues r a (h :: u)) : Queues { r with seenIdx := (r.seenIdx + 1) % 2 ^ 16 } a u where
  avail := hq.avail
  used := hq.used.pop num_dvd
  posted := hq.posted
  nodup := (List.nodup_cons.1 (List.perm_middle.nodup_iff.1 hq.nodup)).2

end Queues

/-! ## Waiting threads -/

/-- The requests in flight, `F`, are those of the threads that wait with `b->disk` set. -/
structure Awaited (busy : B → Bool) (F : List Nat) (phase : T → Option (Call B × Phase)) : Prop where
  busy_iff : ∀ t c h, phase t = some (c, .flying h) → (busy c.b = true ↔ h ∈ F)
  exists_of_mem : ∀ h ∈ F, ∃ t c, phase t = some (c, .flying h)

namespace Awaited

variable {busy : B → Bool} {F F' : List Nat} {phase : T → Option (Call B × Phase)} {t : T} {c : Call B}
  {h : Nat}

theorem congr (ha : Awaited busy F phase) (hF : ∀ d, d ∈ F' ↔ d ∈ F) : Awaited busy F' phase where
  busy_iff := by
    intro t c h ht
    rw [ha.busy_iff t c h ht, hF]
  exists_of_mem := by
    intro h hmem
    exact ha.exists_of_mem h ((hF h).1 hmem)

variable [DecidableEq T]

/-- A thread that does not wait goes on to a phase in which it does not wait. -/
theorem goto {ph : Option (Call B × Phase)} (ha : Awaited busy F phase)
    (ht : ∀ c h, phase t = some (c, .flying h) → h ∉ F) (hph : ∀ c h, ph ≠ some (c, .flying h)) :
    Awaited busy F (update phase t ph) where
  busy_iff u c h hu := by
    grind [update_apply, ha.busy_iff]
  exists_of_mem h hmem := by
    obtain ⟨u, c, hu⟩ := ha.exists_of_mem h hmem
    exact ⟨u, c, by grind [update_apply]⟩

/-- `disk.avail->idx += 1`. -/
theorem publish (ha : Awaited busy F phase) (ht : ∀ c h, phase t ≠ some (c, .flying h))
    (hother : ∀ u d g, phase u = some (d, .flying g) → g ≠ h) (hb : busy c.b = true)
    (hF : ∀ d, d ∈ F' ↔ d = h ∨ d ∈ F) :
    Awaited busy F' (update phase t (some (c, .flying h))) where
  busy_iff u d g hu := by
    grind [update_apply, ha.busy_iff]
  exists_of_mem g hmem := by
    rcases (hF g).1 hmem with rfl | hmem
    · exact ⟨t, c, update_self ..⟩
    · obtain ⟨u, d, hu⟩ := ha.exists_of_mem g hmem
      exact ⟨u, d, by grind [update_apply]⟩

omit [DecidableEq T] in
/-- `b->disk = 1`. -/
theorem format [DecidableEq B] (ha : Awaited busy F phase) {b : B}
    (hb : ∀ u d g, phase u = some (d, .flying g) → d.b ≠ b) :
    Awaited (update busy b true) F phase where
  busy_iff u d g hu := by
    rw [update_of_ne (hb u d g hu)]
    exact ha.busy_iff u d g hu
  exists_of_mem := ha.exists_of_mem

omit [DecidableEq T] in
/-- `b->disk = 0`. -/
theorem clear [DecidableEq B] (ha : Awaited busy F phase) (ht : phase t = some (c, .flying h))
    (hother : ∀ u d g, phase u = some (d, .flying g) → d.b = c.b ∨ g = h → u = t)
    (hF : ∀ d, d ∈ F' ↔ d ∈ F ∧ d ≠ h) : Awaited (update busy c.b false) F' phase where
  busy_iff u d g hu := by
    grind [update_apply, ha.busy_iff]
  exists_of_mem g hmem := ha.exists_of_mem g ((hF g).1 hmem).1

end Awaited

/-! ## How often -/

/-- How often a request has been completed; `P` are the requests that are not on the `used` ring yet. -/
def Phase.completed (P : List Nat) : Phase → Nat
  | .before => 0
  | .flying h => if h ∈ P then 0 else 1
  | .after => 1

/-- How often `b->disk` has been cleared for a request; `F` are the requests in flight. -/
def Phase.cleared (F : List Nat) : Phase → Nat
  | .before => 0
  | .flying h => if h ∈ F then 0 else 1
  | .after => 1

/-- The numbers of requests and how often things happened to them. -/
structure Tallies where
  nextReq : Nat
  completed : Nat → Nat
  cleared : Nat → Nat
  returned : Nat → Nat

def State.tallies (s : State T B D) : Tallies := ⟨s.nextReq, s.completed, s.cleared, s.returned⟩

structure Counts (n : Tallies) (P F : List Nat) (phase : T → Option (Call B × Phase)) : Prop where
  fresh : ∀ r, n.nextReq ≤ r → n.completed r = 0 ∧ n.cleared r = 0 ∧ n.returned r = 0
  active : ∀ t c ph, phase t = some (c, ph) →
    n.completed c.req = ph.completed P ∧ n.cleared c.req = ph.cleared F ∧ n.returned c.req = 0
  past : ∀ r, r < n.nextReq → (∀ t c ph, phase t = some (c, ph) → c.req ≠ r) →
    n.completed r = 1 ∧ n.cleared r = 1 ∧ n.returned r = 1

namespace Counts

variable {n : Tallies} {P P' F F' : List Nat} {phase : T → Option (Call B × Phase)} {t : T} {c : Call B}
  {h : Nat}

theorem congr (hc : Counts n P F phase) (hP : ∀ d, d ∈ P' ↔ d ∈ P) (hF : ∀ d, d ∈ F' ↔ d ∈ F) :
    Counts n P' F' phase where
  fresh := hc.fresh
  active t c ph ht := by
    have := hc.active t c ph ht
    cases ph <;> grind [Phase.completed, Phase.cleared]
  past := hc.past

/-- `b->disk = 0` for the request at `h`. -/
theorem clear (hc : Counts n P F phase) (ht : phase t = some (c, .flying h)) (hlt : c.req < n.nextReq)
    (hinj : ∀ u d ph, phase u = some (d, ph) → d.req = c.req → u = t)
    (hhead : ∀ u d g, phase u = some (d, .flying g) → g = h → u = t)
    (hh : h ∈ F) (hF : ∀ d, d ∈ F' ↔ d ∈ F ∧ d ≠ h) :
    Counts { n with cleared := update n.cleared c.req (n.cleared c.req + 1) } P F' phase where
  fresh r hr := by
    grind [hc.fresh r hr, update_apply]
  active u d ph hu := by
    -- the request of `t` is cleared, and no other thread has its number or its chain
    have := hc.active u d ph hu
    cases ph <;> grind [update_apply, Phase.cleared]
  past r hr hno := by
    grind [hc.past r hr hno, update_apply]

/-- The device puts the request at `h` on the `used` ring. -/
theorem count (hc : Counts n P F phase) (ht : phase t = some (c, .flying h)) (hlt : c.req < n.nextReq)
    (hinj : ∀ u d ph, phase u = some (d, ph) → d.req = c.req → u = t)
    (hhead : ∀ u d g, phase u = some (d, .flying g) → g = h → u = t)
    (hh : h ∈ P) (hP : ∀ d, d ∈ P' ↔ d ∈ P ∧ d ≠ h) (hF : ∀ d, d ∈ F' ↔ d ∈ F) :
    Counts { n with completed := update n.completed c.req (n.completed c.req + 1) } P' F' phase where
  fresh r hr := by
    grind [hc.fresh r hr, update_apply]
  active u d ph hu := by
    have := hc.active u d ph hu
    cases ph <;> grind [update_apply, Phase.completed, Phase.cleared]
  past r hr hno := by
    grind [hc.past r hr hno, update_apply]

variable [DecidableEq T]

/-- A thread goes on to another phase of its call. -/
theorem goto {ph : Phase} (hc : Counts n P F phase) (ht : phase t = some (c, ph)) (ph' : Phase)
    (hP : ph'.completed P' = ph.completed P) (hF : ph'.cleared F' = ph.cleared F)
    (hother : ∀ u d q, u ≠ t → phase u = some (d, q) →
      q.completed P' = q.completed P ∧ q.cleared F' = q.cleared F) :
    Counts n P' F' (update phase t (some (c, ph'))) where
  fresh := hc.fresh
  active u d q hu := by
    grind [hc.active, update_apply]
  past r hr hno := by
    refine hc.past r hr fun u d q hu => ?_
    grind [update_apply, hno u c ph', hno u d q]

/-- `virtio_disk_rw` is called. -/
theorem start (hc : Counts n P F phase) (ht : phase t = none) (hreq : c.req = n.nextReq) :
    Counts { n with nextReq := n.nextReq + 1 } P F
      (update phase t (some (c, .before))) where
  fresh r hr := hc.fresh r (Nat.le_of_succ_le hr)
  active u d q hu := by
    grind [hc.active, hc.fresh, update_apply, Phase.completed, Phase.cleared]
  past r hr hno := by
    have hne : c.req ≠ r := hno t c .before (update_self ..)
    refine hc.past r (by grind) fun u d q hu => ?_
    grind [update_apply, hno u d q]

/-- `virtio_disk_rw` returns. -/
theorem finish (hc : Counts n P F phase) (ht : phase t = some (c, .after)) (hlt : c.req < n.nextReq)
    (hinj : ∀ u d ph, phase u = some (d, ph) → d.req = c.req → u = t) :
    Counts { n with returned := update n.returned c.req (n.returned c.req + 1) } P F
      (update phase t none) where
  fresh r hr := by
    grind [hc.fresh r hr, update_apply]
  active u d q hu := by
    grind [hc.active, update_apply]
  past r hr hno := by
    by_cases hrc : r = c.req
    · subst hrc
      obtain ⟨h1, h2, h3⟩ := hc.active t c _ ht
      exact ⟨h1, h2, by simp [h3]⟩
    · have hpast := hc.past r hr fun u d q hu => by grind [update_apply, hno u d q]
      simpa [hrc] using hpast

end Counts

end Xv6.Virtio
