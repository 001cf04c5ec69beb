import Xv6.Lib.Locks
import Xv6.Virtio.Disk

set_option autoImplicit false

/-! # The disk driver: descriptors and their owners

What holds between any two steps of the machine of `Disk.lean` about the lock, the buffers and the
descriptors. A thread that has called `virtio_disk_rw` holds the sleep-lock of its buffer
(`Calls`); a descriptor is free or in the chain of one thread (`Chains`); and the tables hold, for
each chain, what its thread wrote there (`Pc.Written`). -/

namespace Xv6.Virtio

open Machine Function

variable {T B D : Type} {k k' : Pc B} {i j : Nat}

/-! ## What the places in the code say -/

/-- The thread holds `disk.vdisk_lock`. -/
def Pc.locked : Pc B → Bool
  | .alloc _ => true
  | .format _ _ _ _ => true
  | .ring _ _ _ _ => true
  | .publish _ _ _ _ => true
  | .test _ _ _ _ => true
  | .clear _ _ _ _ => true
  | .freeChain _ _ _ => true
  | .release _ => true
  | .intrTest => true
  | .intrBody => true
  | .intrRelease => true
  | _ => false

/-- The call that the thread is in. -/
def Pc.call : Pc B → Option (Call B)
  | .acquire c => some c
  | .alloc c => some c
  | .format c _ _ _ => some c
  | .ring c _ _ _ => some c
  | .publish c _ _ _ => some c
  | .test c _ _ _ => some c
  | .wait c _ _ _ => some c
  | .clear c _ _ _ => some c
  | .freeChain c _ _ => some c
  | .release c => some c
  | _ => none

/-- The descriptors that the thread has allocated and not freed. -/
def Pc.chain : Pc B → List Nat
  | .format _ i j k => [i, j, k]
  | .ring _ i j k => [i, j, k]
  | .publish _ i j k => [i, j, k]
  | .test _ i j k => [i, j, k]
  | .wait _ i j k => [i, j, k]
  | .clear _ i j k => [i, j, k]
  | .freeChain _ _ left => left
  | _ => []

theorem Quiet.locked_eq {s : State T B D} (h : Quiet s k k') : k'.locked = k.locked := by
  cases h <;> rfl

theorem Quiet.call_eq {s : State T B D} (h : Quiet s k k') : k'.call = k.call := by
  cases h <;> rfl

theorem Quiet.chain_eq {s : State T B D} (h : Quiet s k k') : k'.chain = k.chain := by
  cases h <;> rfl

theorem Takes.call_eq (h : Takes k k') : k'.call = k.call := by
  cases h <;> rfl

theorem Takes.chain_eq (h : Takes k k') : k'.chain = k.chain := by
  cases h <;> rfl

theorem Takes.locked (h : Takes k k') : k'.locked = true := by
  cases h <;> rfl

theorem Drops.call_eq (h : Drops k k') : k'.call = k.call := by
  cases h <;> rfl

theorem Drops.chain_eq (h : Drops k k') : k'.chain = k.chain := by
  cases h <;> rfl

theorem Drops.locked (h : Drops k k') : k.locked = true ∧ k'.locked = false := by
  cases h <;> exact ⟨rfl, rfl⟩

/-- A thread that moves to a place with the same value of `f` keeps what is said through `f`. -/
theorem keep_goto [DecidableEq T] {α : Type} {f : Pc B → α} {pc : T → Pc B} {t : T}
    {φ : (T → α) → Prop} (hφ : φ (f ∘ pc)) (hk : pc t = k) (h : f k' = f k) :
    φ (f ∘ update pc t k') := by
  rw [comp_update, h, ← hk]
  exact (update_eq_self t (f ∘ pc)).symm ▸ hφ

/-- A thread that moves changes what is said through `f` at itself. -/
theorem change_goto [DecidableEq T] {α : Type} {f : Pc B → α} {pc : T → Pc B} {t : T} {a : α}
    {φ : (T → α) → Prop} (hφ : φ (update (f ∘ pc) t a)) (h : f k' = a) :
    φ (f ∘ update pc t k') := by
  rw [comp_update, h]
  exact hφ

/-! ## The lock -/

/-- The thread that holds the lock is where the code holds it. -/
def LockOk (lock : Option T) (locked : T → Bool) : Prop := ∀ t, lock = some t ↔ locked t = true

namespace LockOk

variable {lock : Option T} {locked : T → Bool} {t u : T}

theorem excl (h : LockOk lock locked) (ht : locked t = true) (hu : locked u = true) : t = u := by
  have hlt := (h t).2 ht
  have hlu := (h u).2 hu
  rw [hlt] at hlu
  exact Option.some.inj hlu

variable [DecidableEq T]

theorem take (h : LockOk lock locked) (hl : lock = none) (t : T) :
    LockOk (some t) (update locked t true) := by
  intro u
  by_cases hu : u = t
  · subst hu
    simp
  · have hnot : locked u ≠ true := by
      intro hlu
      rw [(h u).2 hlu] at hl
      cases hl
    simp [hu, hnot, Ne.symm hu]

theorem drop (h : LockOk lock locked) (ht : locked t = true) :
    LockOk none (update locked t false) := by
  intro u
  by_cases hu : u = t
  · subst hu
    simp
  · have hnot : locked u ≠ true := fun hlu => hu (h.excl hlu ht)
    simp [hu, hnot]

end LockOk

/-! ## Buffers and requests -/

structure Calls (owner : B → Option T) (nextReq : Nat) (call : T → Option (Call B)) : Prop where
  owner : ∀ t c, call t = some c → owner c.b = some t
  req_lt : ∀ t c, call t = some c → c.req < nextReq
  req_inj : ∀ t u c d, call t = some c → call u = some d → c.req = d.req → t = u

namespace Calls

variable {owner : B → Option T} {call : T → Option (Call B)} {nextReq : Nat} {t u : T} {c d : Call B}

/-- Two threads are never in calls for one buffer. -/
theorem buf_inj (h : Calls owner nextReq call) (hc : call t = some c) (hd : call u = some d)
    (hb : c.b = d.b) : t = u := by
  have hot := h.owner t c hc
  have hou := h.owner u d hd
  rw [hb, hou] at hot
  exact (Option.some.inj hot).symm

theorem acquiresleep [DecidableEq B] (h : Calls owner nextReq call) {b : B} (hb : owner b = none) (t : T) :
    Calls (update owner b (some t)) nextReq call where
  owner := by
    intro u c hc
    have hne : c.b ≠ b := by
      rintro rfl
      rw [h.owner u c hc] at hb
      cases hb
    rw [update_of_ne hne]
    exact h.owner u c hc
  req_lt := h.req_lt
  req_inj := h.req_inj

theorem releasesleep [DecidableEq B] (h : Calls owner nextReq call) {b : B} (hb : owner b = some t)
    (ht : call t = none) : Calls (update owner b none) nextReq call where
  owner := by
    intro u c hc
    have hne : c.b ≠ b := by
      rintro rfl
      rw [h.owner u c hc] at hb
      cases hb
      rw [hc] at ht
      cases ht
    rw [update_of_ne hne]
    exact h.owner u c hc
  req_lt := h.req_lt
  req_inj := h.req_inj

variable [DecidableEq T]

theorem start (h : Calls owner nextReq call) (hb : owner c.b = some t) (hreq : c.req = nextReq) :
    Calls owner (nextReq + 1) (update call t (some c)) where
  owner u d hd := by
    grind [update_apply, h.owner]
  req_lt u d hd := by
    have := h.req_lt u d
    grind [update_apply]
  req_inj u v d e hd he hreq' := by
    -- the new number is not one of the others, which are all less
    have hu := h.req_lt u d
    have hv := h.req_lt v e
    have := h.req_inj u v d e
    grind [update_apply]

theorem finish (h : Calls owner nextReq call) (t : T) :
    Calls owner nextReq (update call t none) := by
  have hsome : ∀ u d, update call t none u = some d → call u = some d := by
    grind [update_apply]
  constructor
  · intro u d hd
    exact h.owner u d (hsome u d hd)
  · intro u d hd
    exact h.req_lt u d (hsome u d hd)
  · intro u v d e hd he
    exact h.req_inj u v d e (hsome u d hd) (hsome v e he)

end Calls

/-! ## Chains -/

/-- A descriptor is free or in the chain of its owner. -/
structure Chains (own : Nat → Option T) (free : Nat → Bool) (chain : T → List Nat) : Prop where
  held : Held own chain
  free_iff : ∀ d, free d = true ↔ d < NUM ∧ own d = none
  lt : ∀ d t, own d = some t → d < NUM

namespace Chains

variable {own : Nat → Option T} {free : Nat → Bool} {chain : T → List Nat} {t u : T} {d : Nat}

theorem lt_of_mem (h : Chains own free chain) (hd : d ∈ chain t) : d < NUM :=
  h.lt d t ((h.held.mem_iff d t).2 hd)

theorem not_free (h : Chains own free chain) (hd : d ∈ chain t) : free d = false := by
  have hown := (h.held.mem_iff d t).2 hd
  cases hf : free d with
  | false => rfl
  | true =>
    rw [((h.free_iff d).1 hf).2] at hown
    cases hown

theorem free_iff_not_mem (h : Chains own free chain) (d : Nat) :
    free d = true ↔ d < NUM ∧ ∀ t, d ∉ chain t := by
  rw [h.free_iff]
  constructor
  · rintro ⟨hlt, hnone⟩
    exact ⟨hlt, h.held.not_mem_of_free hnone⟩
  · rintro ⟨hlt, hno⟩
    refine ⟨hlt, ?_⟩
    cases hown : own d with
    | none => rfl
    | some t => exact absurd ((h.held.mem_iff d t).1 hown) (hno t)

variable [DecidableEq T]

theorem take (h : Chains own free chain) (hd : free d = true) (t : T) :
    Chains (update own d (some t)) (update free d false)
      (update chain t (d :: chain t)) where
  held := h.held.acquire ((h.free_iff d).1 hd).2 t
  free_iff e := by
    grind [update_apply, h.free_iff e]
  lt e u he := by
    have := h.lt e u
    grind [update_apply, h.free_iff d]

theorem takeAll {l : List Nat} (h : Chains own free chain) (ht : chain t = [])
    (hl : ∀ d ∈ l, free d = true) (hnd : l.Nodup) :
    ∃ own', Chains own' (without free l) (update chain t l) := by
  induction l with
  | nil =>
    refine ⟨own, ?_⟩
    rwa [without_nil, ← ht, update_eq_self]
  | cons d l ih =>
    rw [List.nodup_cons] at hnd
    obtain ⟨own', h'⟩ := ih (fun e he => hl e (List.mem_cons_of_mem d he)) hnd.2
    have hd : without free l d = true := by
      simp [without, hl d List.mem_cons_self, hnd.1]
    have hfree : update (without free l) d false = without free (d :: l) := by
      funext e
      by_cases he : e = d
      · subst he
        simp [without]
      · simp [without, he]
    have htake := h'.take hd t
    rw [hfree, update_self, update_idem] at htake
    exact ⟨_, htake⟩

theorem give {l : List Nat} (h : Chains own free chain) (ht : chain t = d :: l) :
    Chains (update own d none) (update free d true) (update chain t l) where
  held := h.held.release (by rw [ht])
  free_iff e := by
    have hlt : d < NUM := h.lt_of_mem (ht ▸ List.mem_cons_self)
    grind [update_apply, h.free_iff e]
  lt e u he := by
    have := h.lt e u
    grind [update_apply]

end Chains

/-! ## What the tables hold -/

/-- What a thread writes for the device and for `virtio_disk_intr`. -/
structure Tables (B : Type) where
  desc : Nat → Desc B
  ops : Nat → BlkReq
  buf : Nat → Option B
  reqOf : Nat → Nat

def State.tables (s : State T B D) : Tables B := ⟨s.desc, s.ops, fun i => (s.info i).b, s.reqOf⟩

/-- The tables hold the request of call `c` at the descriptors `i`, `j` and `k`. -/
structure Formatted (tb : Tables B) (c : Call B) (i j k : Nat) : Prop where
  header : tb.desc i = ⟨.op i, BLKREQ, VRING_DESC_F_NEXT, j⟩
  data : tb.desc j =
    ⟨.data c.b, BSIZE, (if c.write then 0 else VRING_DESC_F_WRITE) ||| VRING_DESC_F_NEXT, k⟩
  status : tb.desc k = ⟨.status i, 1, VRING_DESC_F_WRITE, 0⟩
  op : tb.ops i = ⟨if c.write then VIRTIO_BLK_T_OUT else VIRTIO_BLK_T_IN, 0, c.sector⟩
  buf : tb.buf i = some c.b
  req : tb.reqOf i = c.req

/-- Following the descriptors from the first of the list visits the list and stops. -/
def Linked (desc : Nat → Desc B) : List Nat → Prop
  | [] => False
  | [i] => (desc i).flags &&& VRING_DESC_F_NEXT = 0
  | i :: j :: l =>
    (desc i).flags &&& VRING_DESC_F_NEXT ≠ 0 ∧ (desc i).next = j ∧ Linked desc (j :: l)

theorem Linked.congr {desc desc' : Nat → Desc B} {l : List Nat} (h : Linked desc l)
    (hl : ∀ d ∈ l, desc' d = desc d) : Linked desc' l := by
  induction l with
  | nil => exact h
  | cons i l ih =>
    have hi := hl i List.mem_cons_self
    cases l with
    | nil =>
      rw [Linked, hi]
      exact h
    | cons j l =>
      obtain ⟨hflags, hnext, hrest⟩ := h
      rw [Linked, hi]
      exact ⟨hflags, hnext, ih hrest fun d hd => hl d (List.mem_cons_of_mem i hd)⟩

theorem Formatted.linked {tb : Tables B} {c : Call B} {k : Nat} (h : Formatted tb c i j k) :
    Linked tb.desc [i, j, k] := by
  simp only [Linked, h.header, h.data, h.status]
  cases c.write <;> simp

/-- The device reads the request that the thread has written. -/
theorem Formatted.request {s : State T B D} {c : Call B} {k : Nat} (h : Formatted s.tables c i j k) :
    s.request i = some ⟨s.ops i, c.b, i⟩ := by
  have hheader : s.desc i = _ := h.header
  have hdata : s.desc j = _ := h.data
  have hstatus : s.desc k = _ := h.status
  have hop : s.ops i = _ := h.op
  simp only [State.request, hheader, hdata, hstatus, hop]
  cases c.write <;> simp

/-- What the tables hold for a thread at this place. -/
def Pc.Written (tb : Tables B) : Pc B → Prop
  | .ring c i j k => Formatted tb c i j k
  | .publish c i j k => Formatted tb c i j k
  | .test c i j k => Formatted tb c i j k
  | .wait c i j k => Formatted tb c i j k
  | .clear c i j k => Formatted tb c i j k
  | .freeChain _ i left => left.head? = some i ∧ Linked tb.desc left
  | _ => True

/-- The tables agree at a descriptor. -/
structure SameAt (tb tb' : Tables B) (d : Nat) : Prop where
  desc : tb'.desc d = tb.desc d
  ops : tb'.ops d = tb.ops d
  buf : tb'.buf d = tb.buf d
  req : tb'.reqOf d = tb.reqOf d

theorem Formatted.congr {tb tb' : Tables B} {c : Call B} {k : Nat} (h : Formatted tb c i j k)
    (hs : ∀ d ∈ [i, j, k], SameAt tb tb' d) : Formatted tb' c i j k where
  header := (hs i (by simp)).desc.trans h.header
  data := (hs j (by simp)).desc.trans h.data
  status := (hs k (by simp)).desc.trans h.status
  op := (hs i (by simp)).ops.trans h.op
  buf := (hs i (by simp)).buf.trans h.buf
  req := (hs i (by simp)).req.trans h.req

theorem Pc.Written.congr {tb tb' : Tables B} (h : k.Written tb)
    (hs : ∀ d ∈ k.chain, SameAt tb tb' d) : k.Written tb' := by
  cases k with
  | ring | publish | test | wait | clear => exact Formatted.congr h hs
  | freeChain c i left => exact ⟨h.1, h.2.congr fun d hd => (hs d hd).desc⟩
  | _ => trivial

theorem Quiet.written {s : State T B D} {tb : Tables B} (hk : Quiet s k k') (h : k.Written tb) :
    k'.Written tb := by
  cases hk with
  | seen c i j k hb => exact h
  | _ => trivial

theorem Takes.written {tb : Tables B} (hk : Takes k k') (h : k.Written tb) :
    k'.Written tb := by
  cases hk with
  | wake c i j k => exact h
  | _ => trivial

theorem Drops.written {tb : Tables B} (hk : Drops k k') (h : k.Written tb) :
    k'.Written tb := by
  cases hk with
  | sleep c i j k => exact h
  | _ => trivial

theorem Linked.afterFree_chain {desc : Nat → Desc B} {l : List Nat} (h : Linked desc (i :: l))
    (c : Call B) : (afterFree c (desc i).flags (desc i).next l).chain = l := by
  unfold afterFree
  cases l with
  | nil => rw [if_neg fun hne => hne h]; rfl
  | cons j l => rw [if_pos h.1]; rfl

theorem Linked.afterFree_written {tb tb' : Tables B} {l : List Nat} (h : Linked tb.desc (i :: l))
    (hl : ∀ d ∈ l, tb'.desc d = tb.desc d) (c : Call B) :
    (afterFree c (tb.desc i).flags (tb.desc i).next l).Written tb' := by
  unfold afterFree
  cases l with
  | nil =>
    rw [if_neg fun hne => hne h]
    trivial
  | cons j l =>
    obtain ⟨hflags, hnext, hrest⟩ := h
    rw [if_pos hflags, hnext]
    exact ⟨rfl, hrest.congr hl⟩

/-- Formatting writes the request. -/
theorem formatted_format [DecidableEq B] (s : State T B D) (c : Call B) {k : Nat}
    (hnd : [i, j, k].Nodup) : Formatted (s.format c i j k).tables c i j k := by
  simp only [List.nodup_cons, List.mem_cons, List.not_mem_nil, or_false, not_or] at hnd
  obtain ⟨⟨hij, hik⟩, hjk, -⟩ := hnd
  constructor <;> simp [State.tables, State.format, hij, hik, hjk]

theorem sameAt_format [DecidableEq B] (s : State T B D) (c : Call B) {k d : Nat}
    (hd : d ∉ [i, j, k]) : SameAt s.tables (s.format c i j k).tables d := by
  simp only [List.mem_cons, List.not_mem_nil, or_false, not_or] at hd
  constructor <;> simp [State.tables, State.format, hd]

/-! ## The invariant -/

structure Inv (s : State T B D) (own : Nat → Option T) : Prop where
  lock : LockOk s.lock (Pc.locked ∘ s.pc)
  calls : Calls s.owner s.nextReq (Pc.call ∘ s.pc)
  chains : Chains own s.free (Pc.chain ∘ s.pc)
  written : ∀ t, (s.pc t).Written s.tables

section Steps

variable [DecidableEq T] [DecidableEq B] {s s' : State T B D} {own : Nat → Option T} {t u : T}

theorem Inv.lock_step (h : Inv s own) (hs : Step s s') : LockOk s'.lock (Pc.locked ∘ s'.pc) := by
  have hat : ∀ {t : T} {k : Pc B}, s.pc t = k → k.locked = true → (Pc.locked ∘ s.pc) t = true := by
    rintro t k rfl hl
    exact hl
  cases hs with
  | quiet t k hk => exact keep_goto h.lock rfl hk.locked_eq
  | take t k hk hl => exact change_goto (h.lock.take hl t) hk.locked
  | drop t k hk => exact change_goto (h.lock.drop (hat rfl hk.locked.1)) hk.locked.2
  | acquiresleep | releasesleep | store | fetch | serve | post | count => exact h.lock
  | rw _ _ _ _ hk | alloc _ _ _ _ _ hk | format _ _ _ _ _ hk | ring _ _ _ _ _ hk
    | publish _ _ _ _ _ hk | clear _ _ _ _ _ hk | intrBody _ _ _ hk => exact keep_goto h.lock hk rfl
  | allocFail _ _ _ hk | release _ _ hk => exact change_goto (h.lock.drop (hat hk rfl)) rfl
  | freeChain t c i left hk =>
    refine keep_goto h.lock hk ?_
    unfold afterFree
    split <;> rfl

theorem Inv.calls_step (h : Inv s own) (hs : Step s s') :
    Calls s'.owner s'.nextReq (Pc.call ∘ s'.pc) := by
  cases hs with
  | quiet _ _ hk | take _ _ hk | drop _ _ hk => exact keep_goto h.calls rfl hk.call_eq
  | acquiresleep t b ho => exact h.calls.acquiresleep ho t
  | releasesleep t b hk ho => exact h.calls.releasesleep ho (by rw [comp_apply, hk]; rfl)
  | store | fetch | serve | post | count => exact h.calls
  | rw t b sector write hk ho =>
    exact change_goto (h.calls.start (c := ⟨b, sector, write, s.nextReq⟩) ho rfl) rfl
  | alloc _ _ _ _ _ hk | allocFail _ _ _ hk | format _ _ _ _ _ hk | ring _ _ _ _ _ hk
    | publish _ _ _ _ _ hk | clear _ _ _ _ _ hk | intrBody _ _ _ hk =>
    exact keep_goto h.calls hk rfl
  | freeChain t c i left hk =>
    refine keep_goto h.calls hk ?_
    unfold afterFree
    split <;> rfl
  | release t c hk => exact change_goto (h.calls.finish t) rfl

omit [DecidableEq T] [DecidableEq B] in
/-- `free_chain` is at the first of the descriptors that are left. -/
theorem Inv.left_eq (h : Inv s own) {c : Call B} {left : List Nat}
    (hk : s.pc t = .freeChain c i left) :
    left = i :: left.tail ∧ (Pc.chain ∘ s.pc) t = i :: left.tail := by
  have hw := h.written t
  rw [hk] at hw
  have hleft : left = i :: left.tail := by
    cases left with
    | nil => cases hw.1
    | cons j l => rw [← Option.some.inj hw.1]; rfl
  refine ⟨hleft, ?_⟩
  rw [comp_apply, hk, ← hleft]
  rfl

theorem Inv.chains_step (h : Inv s own) (hs : Step s s') :
    ∃ own', Chains own' s'.free (Pc.chain ∘ s'.pc) := by
  cases hs with
  | quiet _ _ hk | take _ _ hk | drop _ _ hk => exact ⟨own, keep_goto h.chains rfl hk.chain_eq⟩
  | acquiresleep | releasesleep | store | fetch | serve | post | count => exact ⟨own, h.chains⟩
  | rw _ _ _ _ hk | allocFail _ _ _ hk | format _ _ _ _ _ hk | ring _ _ _ _ _ hk
    | publish _ _ _ _ _ hk | clear _ _ _ _ _ hk | release _ _ hk | intrBody _ _ _ hk =>
    exact ⟨own, keep_goto h.chains hk rfl⟩
  | alloc t c i j k hk hf hnd =>
    have ht : (Pc.chain ∘ s.pc) t = [] := by rw [comp_apply, hk]; rfl
    obtain ⟨own', h'⟩ := h.chains.takeAll ht (fun d hd => (hf d hd).2) hnd
    exact ⟨own', change_goto h' rfl⟩
  | freeChain t c i left hk =>
    obtain ⟨hleft, hchain⟩ := h.left_eq hk
    have hw := h.written t
    rw [hk, hleft] at hw
    exact ⟨_, change_goto (h.chains.give hchain) (hw.2.afterFree_chain c)⟩

omit [DecidableEq B] in
/-- Thread `t` writes only to the tables of its own chain. -/
theorem written_of {tb tb' : Tables B} {pc : T → Pc B} (h : ∀ u, (pc u).Written tb)
    (hsame : ∀ u d, u ≠ t → d ∈ (pc u).chain → SameAt tb tb' d) (hk : k.Written tb') (u : T) :
    (update pc t k u).Written tb' := by
  by_cases hu : u = t
  · subst hu
    rwa [update_self]
  · rw [update_of_ne hu]
    exact (h u).congr fun d hd => hsame u d hu hd

omit [DecidableEq B] in
theorem written_goto {tb : Tables B} {pc : T → Pc B} (h : ∀ u, (pc u).Written tb)
    (hk : k.Written tb) (u : T) : (update pc t k u).Written tb :=
  written_of h (fun _ _ _ _ => ⟨rfl, rfl, rfl, rfl⟩) hk u

omit [DecidableEq T] [DecidableEq B] in
theorem Inv.not_mem_chain (h : Inv s own) {d : Nat} (hk : s.pc t = k) (hut : u ≠ t)
    (hd : d ∈ (s.pc u).chain) : d ∉ k.chain := by
  intro hmem
  exact hut (h.chains.held.excl (c := u) (d := t) hd (by rwa [comp_apply, hk]))

theorem Inv.written_step (h : Inv s own) (hs : Step s s') (u : T) : (s'.pc u).Written s'.tables := by
  have hat : ∀ {t : T} {k : Pc B}, s.pc t = k → k.Written s.tables := by
    rintro t k rfl
    exact h.written t
  cases hs with
  | quiet t _ hk | take t _ hk | drop t _ hk =>
    exact written_goto h.written (hk.written (h.written t)) u
  | acquiresleep | releasesleep | store | fetch | post | count => exact h.written u
  | rw | alloc | release | intrBody =>
    refine written_goto h.written ?_ u
    trivial
  | allocFail t c desc hk hdesc =>
    refine written_of h.written ?_ ?_ u
    · intro v d _ hd
      exact ⟨hdesc d (h.chains.not_free (t := v) hd), rfl, rfl, rfl⟩
    · trivial
  | format t c i j k hk =>
    have hnd : [i, j, k].Nodup := by
      have := h.chains.held.nodup t
      rwa [comp_apply, hk] at this
    refine written_of h.written ?_ ?_ u
    · intro v d hv hd
      exact sameAt_format s c (h.not_mem_chain hk hv hd)
    · exact formatted_format s c hnd
  | ring _ c i j k hk | publish _ c i j k hk =>
    have hw : Formatted s.tables c i j k := hat hk
    refine written_goto h.written ?_ u
    exact hw
  | clear t c i j k hk =>
    have hw : Formatted s.tables c i j k := hat hk
    refine written_of h.written ?_ ?_ u
    · intro v d hv hd
      have hdi : d ≠ i := by
        rintro rfl
        exact h.not_mem_chain hk hv hd List.mem_cons_self
      exact ⟨rfl, rfl, by simp [State.tables, hdi], rfl⟩
    · exact ⟨rfl, hw.linked⟩
  | freeChain t c i left hk =>
    obtain ⟨hleft, hchain⟩ := h.left_eq hk
    have hw : Linked s.tables.desc (i :: left.tail) := hleft ▸ (hat hk).2
    have hnot : i ∉ left.tail := by
      have hnd := h.chains.held.nodup t
      rw [hchain, List.nodup_cons] at hnd
      exact hnd.1
    refine written_of h.written ?_ ?_ u
    · intro v d hv hd
      have hdi : d ≠ i := by
        rintro rfl
        refine h.not_mem_chain hk hv hd ?_
        show d ∈ left
        rw [hleft]
        exact List.mem_cons_self
      exact ⟨update_of_ne hdi _ _, rfl, rfl, rfl⟩
    · refine hw.afterFree_written ?_ c
      intro d hd
      have hdi : d ≠ i := by
        rintro rfl
        exact hnot hd
      exact update_of_ne hdi _ _
  | serve e q hmem hq =>
    -- the device writes the status, and the tables do not have it
    refine (h.written u).congr fun d _ => ⟨rfl, rfl, ?_, rfl⟩
    by_cases hd : d = q.status
    · subst hd
      simp [State.tables, State.transfer]
    · simp [State.tables, State.transfer, hd]

theorem Inv.keep (h : Inv s own) (hs : Step s s') : ∃ own', Inv s' own' := by
  obtain ⟨own', hchains⟩ := h.chains_step hs
  exact ⟨own', h.lock_step hs, h.calls_step hs, hchains, h.written_step hs⟩

end Steps

theorem Inv.boot (data : B → D) (blocks : Nat → D) :
    Inv (State.init T data blocks) fun _ => none where
  lock := by
    intro t
    simp [State.init, Pc.locked]
  calls := by
    constructor <;> simp [State.init, Pc.call]
  chains := by
    refine ⟨⟨?_, ?_⟩, ?_, ?_⟩ <;> simp [State.init, Pc.chain]
  written := fun _ => trivial

end Xv6.Virtio
