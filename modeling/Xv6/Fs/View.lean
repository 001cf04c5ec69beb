import Xv6.Fs.Content
import Xv6.Lib.Refine

set_option autoImplicit false

/-! # The file system without its blocks

Seen from above the inode layer, the disk is a map from inode numbers to nodes: type, device numbers,
link count and a list of bytes. A `View` is this map with the inode table (without the copies of the
inodes), the file table, the pipes and the processes. `Rep sb v s` says that the state `s` is
consistent (`Good`) and that `v` is what it looks like. The functions of the inode layer are given
rules on views here, so that the directories and the system calls need not speak of blocks. -/

namespace Xv6.Fs

open Wp Function

/-! ## Views -/

/-- An inode without its block numbers. -/
structure Node where
  type : FileType
  major : Int
  minor : Int
  nlink : Int
  bytes : List UInt8

/-- A free inode. -/
def Node.free : Node := { type := .free, major := 0, minor := 0, nlink := 0, bytes := [] }

/-- An inode that `ialloc` has just allocated. -/
def Node.fresh (type : FileType) : Node :=
  { type := type, major := 0, minor := 0, nlink := 0, bytes := [] }

/-- An element of the inode table without the copy of the inode. -/
structure Slot where
  inum : Nat
  ref : Int
  locked : Bool
  valid : Bool

def Inode.slot (x : Inode) : Slot :=
  { inum := x.inum, ref := x.ref, locked := x.locked, valid := x.valid }

@[simps -fullyApplied] def Slot.addRef (x : Slot) (d : Int) : Slot := { x with ref := x.ref + d }

@[simps -fullyApplied] def Slot.setLocked (x : Slot) (b : Bool) : Slot := { x with locked := b }

/-- The entry is locked and holds a copy of the inode. -/
@[simps -fullyApplied] def Slot.acquired (x : Slot) : Slot :=
  { x with locked := true, valid := true }

/-- The entry no longer holds a copy. -/
@[simps -fullyApplied] def Slot.dropped (x : Slot) : Slot :=
  { x with locked := false, valid := false }

/-- The entry is given to another inode. -/
@[simps -fullyApplied] def Slot.claim (x : Slot) (inum : Nat) : Slot :=
  { x with inum := inum, ref := 1, valid := false }

structure View where
  node : Nat → Node
  slot : InodeId → Slot
  ftable : FileId → File
  pipe : Nat → Option Pipe
  proc : ProcId → Proc

@[simps -fullyApplied] def View.withNode (v : View) (i : Nat) (n : Node) : View :=
  { v with node := update v.node i n }

@[simps -fullyApplied] def View.withSlot (v : View) (ip : InodeId) (x : Slot) : View :=
  { v with slot := update v.slot ip x }

@[simps -fullyApplied] def View.withFile (v : View) (f : FileId) (x : File) : View :=
  { v with ftable := update v.ftable f x }

@[simps -fullyApplied] def View.withPipe (v : View) (pi : Nat) (q : Option Pipe) : View :=
  { v with pipe := update v.pipe pi q }

@[simps -fullyApplied] def View.withProc (v : View) (p : ProcId) (x : Proc) : View :=
  { v with proc := update v.proc p x }

def Dinode.node (d : Dinode) (data : Nat → Block) : Node :=
  { type := d.type, major := d.major, minor := d.minor, nlink := d.nlink, bytes := content data d }

def State.node (sb : Superblock) (s : State) (i : Nat) : Node :=
  if Alloc sb s.dinode i then (s.dinode i).node s.data else Node.free

/-- What a state looks like. -/
def State.view (sb : Superblock) (s : State) : View :=
  { node := s.node sb, slot := fun ip => (s.itable ip).slot, ftable := s.ftable, pipe := s.pipe,
    proc := s.proc }

/-! ## Consistent states -/

/-- The disk is in order, and the inode table agrees with it. -/
structure Good (sb : Superblock) (s : State) : Prop where
  disk : DiskOk sb s.dinode s.bitmap s.data
  ref_nonneg : ∀ ip, 0 ≤ (s.itable ip).ref
  range : ∀ ip, 0 < (s.itable ip).ref → 0 < (s.itable ip).inum ∧ (s.itable ip).inum < sb.ninodes
  /-- No two entries in use hold the same inode. -/
  unique : ∀ ip jp, 0 < (s.itable ip).ref → 0 < (s.itable jp).ref →
    (s.itable ip).inum = (s.itable jp).inum → ip = jp
  /-- A valid entry is a copy of an allocated inode. -/
  coherent : ∀ ip, 0 < (s.itable ip).ref → (s.itable ip).valid = true →
    (s.itable ip).toDinode = s.dinode (s.itable ip).inum ∧ (s.itable ip).type ≠ .free
  /-- Link counts are C `short`s. -/
  nlink_short : ∀ i, Alloc sb s.dinode i → short (s.dinode i).nlink = (s.dinode i).nlink

/-- The state is consistent and looks like `v`. -/
def Rep (sb : Superblock) (v : View) (s : State) : Prop := Good sb s ∧ s.view sb = v

/-- What consistent states look like. -/
structure View.Ok (sb : Superblock) (v : View) : Prop where
  ref_nonneg : ∀ ip, 0 ≤ (v.slot ip).ref
  range : ∀ ip, 0 < (v.slot ip).ref → 0 < (v.slot ip).inum ∧ (v.slot ip).inum < sb.ninodes
  unique : ∀ ip jp, 0 < (v.slot ip).ref → 0 < (v.slot jp).ref →
    (v.slot ip).inum = (v.slot jp).inum → ip = jp
  valid : ∀ ip, 0 < (v.slot ip).ref → (v.slot ip).valid = true →
    (v.node (v.slot ip).inum).type ≠ .free
  free : ∀ i, (v.node i).type = .free → v.node i = Node.free
  alloc : ∀ i, (v.node i).type ≠ .free → 0 < i ∧ i < sb.ninodes
  nlink_short : ∀ i, short (v.node i).nlink = (v.node i).nlink
  size_le : ∀ i, (v.node i).bytes.length ≤ MAXFILE * BSIZE

variable {sb : Superblock} {E : Stop → Prop} {s s' : State} {v : View} {ip : InodeId}
  {Q : Unit → View → Prop} {i : Nat}

theorem node_of_alloc (h : Alloc sb s.dinode i) :
    s.node sb i = (s.dinode i).node s.data := if_pos h

theorem node_of_not_alloc (h : ¬ Alloc sb s.dinode i) : s.node sb i = Node.free :=
  if_neg h

theorem node_type_ne_free : (s.node sb i).type ≠ .free ↔ Alloc sb s.dinode i := by
  unfold State.node
  split
  · next h => exact ⟨fun _ => h, fun _ => h.2.2⟩
  · next h => exact ⟨fun hne => absurd rfl hne, fun ha => absurd ha h⟩

theorem Rep.ok (h : Rep sb v s) : v.Ok sb := by
  obtain ⟨hg, rfl⟩ := h
  refine ⟨hg.ref_nonneg, hg.range, hg.unique, fun ip hr hv => ?_, fun i hi => ?_, fun i hi => ?_,
    fun i => ?_, fun i => ?_⟩
  · obtain ⟨heq, htype⟩ := hg.coherent ip hr hv
    obtain ⟨h0, hlt⟩ := hg.range ip hr
    exact node_type_ne_free.2 ⟨h0, hlt, heq ▸ htype⟩
  · by_contra hne
    have halloc : ¬ Alloc sb s.dinode i := fun ha => node_type_ne_free.2 ha hi
    exact hne (node_of_not_alloc halloc)
  · have halloc := node_type_ne_free.1 hi
    exact ⟨halloc.1, halloc.2.1⟩
  · show short (s.node sb i).nlink = (s.node sb i).nlink
    unfold State.node
    split
    · next ha => exact hg.nlink_short i ha
    · rfl
  · show (s.node sb i).bytes.length ≤ MAXFILE * BSIZE
    unfold State.node
    split
    · next ha => simpa [Dinode.node] using hg.disk.size_le i ha
    · exact Nat.zero_le _

/-- The block at each place of each inode. -/
def State.usage (sb : Superblock) (s : State) : Nat × Nat → Nat := refs sb s.dinode s.data

/-- A relation that is `Rep` together with a condition on which blocks the inodes have. What does not
    allocate or free blocks has the same rule for all of these. -/
class Tracks (sb : outParam Superblock) (R : View → State → Prop) : Prop where
  rep : ∀ {v : View} {s : State}, R v s → Rep sb v s
  keep : ∀ {v v' : View} {s s' : State}, R v s → Rep sb v' s' → s'.usage sb = s.usage sb → R v' s'

instance : Tracks sb (Rep sb) := ⟨id, fun _ h _ => h⟩

/-- `Rep` for inodes that have the blocks `u`. -/
def RepU (sb : Superblock) (u : Nat × Nat → Nat) (v : View) (s : State) : Prop :=
  Rep sb v s ∧ s.usage sb = u

instance (u : Nat × Nat → Nat) : Tracks sb (RepU sb u) :=
  ⟨And.left, fun h h' hu => ⟨h', hu.trans h.2⟩⟩

/-- A view with the blocks of the inodes, or `none` where nothing is said about the state. -/
abbrev Watch : Type := Option (View × (Nat × Nat → Nat))

def RepW (sb : Superblock) (w : Watch) (s : State) : Prop := ∀ v u, w = some (v, u) → RepU sb u v s

section Watch

variable {α : Type} {x : FsM α} {u : Nat × Nat → Nat} {w : Watch}

theorem RepU.watch (h : RepU sb u v s) : RepW sb (some (v, u)) s := by
  rintro _ _ ⟨⟩
  exact h

/-- What keeps the blocks. -/
theorem rwp_tracked {Q : α → Watch → Prop}
    (h : rwp (RepU sb u) x (fun a v' => Q a (some (v', u))) E v) :
    rwp (RepW sb) x Q E (some (v, u)) := by
  intro s hs
  refine (h s (hs v u rfl)).mono ?_ (fun _ he => he)
  rintro a s' ⟨v', hv', hQ⟩
  exact ⟨_, hv'.watch, hQ⟩

theorem rwp_watched_ok {Q : α → Watch → Prop}
    (h : v.Ok sb → rwp (RepW sb) x Q E (some (v, u))) : rwp (RepW sb) x Q E (some (v, u)) :=
  fun s hs => h (hs v u rfl).1.ok s hs

/-- A free inode has no blocks. -/
theorem rwp_watched_free {Q : α → Watch → Prop}
    (h : (∀ k, (v.node k.1).type = .free → u k = 0) → rwp (RepW sb) x Q E (some (v, u))) :
    rwp (RepW sb) x Q E (some (v, u)) := by
  intro s hs
  obtain ⟨hv, hu⟩ := hs v u rfl
  refine h (fun k hk => ?_) s hs
  rw [← hu]
  refine refs_of_not_alloc (fun ha => ?_) k.2
  rw [← hv.2] at hk
  exact node_type_ne_free.2 ha hk

theorem rwp_of_watched {Q : α → View → Prop}
    (h : ∀ u, rwp (RepW sb) x (fun a w => ∃ v' u', w = some (v', u') ∧ Q a v') E (some (v, u))) :
    rwp (Rep sb) x Q E v := by
  intro s hs
  refine (h (s.usage sb) s (RepU.watch ⟨hs, rfl⟩)).mono ?_ (fun _ he => he)
  rintro a s' ⟨w, hw, v', u', rfl, hQ⟩
  exact ⟨v', (hw v' u' rfl).1, hQ⟩

/-- What may change the blocks. -/
theorem rwp_untracked {Q : α → Watch → Prop}
    (h : rwp (Rep sb) x (fun a v' => ∀ u', Q a (some (v', u'))) E v) :
    rwp (RepW sb) x Q E (some (v, u)) := by
  intro s hs
  refine (h s (hs v u rfl).1).mono ?_ (fun _ he => he)
  rintro a s' ⟨v', hv', hQ⟩
  exact ⟨_, RepU.watch ⟨hv', rfl⟩, hQ _⟩

end Watch

/-- The inode `i` has got blocks; no other place has changed. -/
structure Gained (i : Nat) (u u' : Nat × Nat → Nat) : Prop where
  other : ∀ k, k.1 ≠ i → u' k = u k
  keep : ∀ k, u k ≠ 0 → u' k = u k

theorem Gained.refl (i : Nat) (u : Nat × Nat → Nat) : Gained i u u := ⟨fun _ _ => rfl, fun _ _ => rfl⟩

theorem Gained.trans {u u' u'' : Nat × Nat → Nat} (h : Gained i u u') (h' : Gained i u' u'') :
    Gained i u u'' :=
  ⟨fun k hk => (h'.other k hk).trans (h.other k hk),
    fun k hk => (h'.keep k (by rwa [h.keep k hk])).trans (h.keep k hk)⟩

/-- The inode `i` has got an indirect block at most. -/
structure OnlyIndirect (i : Nat) (u u' : Nat × Nat → Nat) : Prop extends Gained i u u' where
  rest : ∀ k, k ≠ (i, NDIRECT) → u' k = u k

theorem OnlyIndirect.refl (i : Nat) (u : Nat × Nat → Nat) : OnlyIndirect i u u :=
  ⟨Gained.refl i u, fun _ _ => rfl⟩

/-- How many blocks `bmap` allocates for block `bn` of the inode `i`. -/
def blocksNeeded (u : Nat × Nat → Nat) (i bn : Nat) : Nat :=
  if u (i, placeOf bn) ≠ 0 then 0 else if NDIRECT ≤ bn ∧ u (i, NDIRECT) = 0 then 2 else 1

/-- There are as many free blocks. -/
def HasBlock (sb : Superblock) (u : Nat × Nat → Nat) (i bn : Nat) : Prop :=
  blocksNeeded u i bn ≤ (unowned sb.dataStart sb.size u).ncard

theorem NoBlock.not_hasBlock {bn : Nat} {u u' : Nat × Nat → Nat} (h : NoBlock i bn u u')
    (hgain : Gained i u u') (hfull : unowned sb.dataStart sb.size u' = ∅) :
    ¬ HasBlock sb u i bn := by
  unfold HasBlock blocksNeeded
  rw [if_neg (not_not.2 h.missing)]
  split
  · -- the only block that was free has become the indirect block
    have hsub : unowned sb.dataStart sb.size u ⊆ {u' (i, NDIRECT)} := by
      intro b hb
      by_contra hne
      have hb' : b ∈ unowned sb.dataStart sb.size u' := by
        refine ⟨hb.1, hb.2.1, fun k hk => ?_⟩
        by_cases hki : k = (i, NDIRECT)
        · exact hne (hki ▸ hk.symm)
        · exact hb.2.2 k ((h.same k (.inl hki)).symm.trans hk)
      rw [hfull] at hb'
      exact hb'
    have := Set.ncard_le_ncard hsub (Set.finite_singleton _)
    rw [Set.ncard_singleton] at this
    omega
  · next hone =>
    have hsame : u' = u := by
      funext k
      by_cases hk : k ≠ (i, NDIRECT) ∨ bn < NDIRECT
      · exact h.same k hk
      · rw [not_or, not_not, not_lt] at hk
        exact hgain.keep k fun hz => hone ⟨hk.2, hk.1 ▸ hz⟩
    rw [hsame] at hfull
    rw [hfull, Set.ncard_empty]
    omega

theorem Gained.hasBlock {bn : Nat} {u u' : Nat × Nat → Nat} {mark : Nat → Bool} (h : Gained i u u')
    (hown : Owns sb.dataStart sb.size u' mark) (hblock : u' (i, placeOf bn) ≠ 0)
    (hind : NDIRECT ≤ bn → u' (i, NDIRECT) ≠ 0) : HasBlock sb u i bn := by
  unfold HasBlock blocksNeeded
  split
  · exact Nat.zero_le _
  next hmissing =>
  have hmem := hown.mem_unowned h.keep (not_not.1 hmissing) hblock
  split
  · next htwo =>
    have hmem' := hown.mem_unowned h.keep htwo.2 (hind htwo.1)
    have hne : u' (i, placeOf bn) ≠ u' (i, NDIRECT) := fun he =>
      placeOf_ne_NDIRECT bn (congrArg Prod.snd (hown.inj _ _ hblock he))
    have := Set.ncard_le_ncard (Set.pair_subset hmem hmem') finite_unowned
    rwa [Set.ncard_pair hne] at this
  · exact (Set.ncard_pos finite_unowned).2 ⟨_, hmem⟩

/-- The places after the inode `i` has been freed. -/
def withoutBlocks (u : Nat × Nat → Nat) (i : Nat) : Nat × Nat → Nat :=
  fun k => if k.1 = i then 0 else u k

variable {R : View → State → Prop} [Tracks sb R]

/-- The log is not seen from above. -/
theorem Rep.withLog (h : Rep sb v s) (log : Option (List Nat)) : Rep sb v (s.withLog log) :=
  ⟨⟨h.1.disk, h.1.ref_nonneg, h.1.range, h.1.unique, h.1.coherent, h.1.nlink_short⟩, h.2⟩

include sb in
theorem Tracks.withLog (h : R v s) (log : Option (List Nat)) : R v (s.withLog log) :=
  Tracks.keep h ((Tracks.rep h).withLog log) rfl

theorem RepW.withLog {w : Watch} (h : RepW sb w s) (log : Option (List Nat)) :
    RepW sb w (s.withLog log) :=
  fun v u hw => ⟨(h v u hw).1.withLog log, (h v u hw).2⟩

theorem rwp_transaction_of {β α : Type} {S : β → State → Prop} {x : FsM α} {b : β}
    {Q : α → β → Prop} (hS : ∀ b s log, S b s → S b (s.withLog log)) (h : rwp S x Q E b) :
    rwp S (transaction x) Q E b := by
  intro s hs
  unfold transaction
  rw [wp_bind, wp_modify, wp_bind]
  refine (h _ (hS _ _ _ hs)).mono ?_ (fun _ he => he)
  rintro a s' ⟨b', hs', hQ⟩
  rw [wp_bind, wp_modify]
  exact ⟨b', hS _ _ _ hs', hQ⟩

include sb in
theorem rwp_transaction {α : Type} {x : FsM α} {Q : α → View → Prop} (h : rwp R x Q E v) :
    rwp R (transaction x) Q E v :=
  rwp_transaction_of (fun _ _ log hR => Tracks.withLog hR log) h

theorem rwp_transaction_watched {α : Type} {x : FsM α} {w : Watch} {Q : α → Watch → Prop}
    (h : rwp (RepW sb) x Q E w) : rwp (RepW sb) (transaction x) Q E w :=
  rwp_transaction_of (fun _ _ log hW => hW.withLog log) h

theorem rwp_ok {α : Type} {x : FsM α} {Q : α → View → Prop} (h : v.Ok sb → rwp R x Q E v) :
    rwp R x Q E v :=
  rwp.of_inv (View.Ok sb) (fun _ _ hs => (Tracks.rep hs).ok) h

/-- The copy in memory of a valid inode is the one on disk. -/
theorem Good.flush_eq (h : Good sb s) (hr : 0 < (s.itable ip).ref)
    (hv : (s.itable ip).valid = true) : s.flush ip = s.dinode := by
  rw [State.flush, (h.coherent ip hr hv).1, update_eq_self]

theorem Good.ready (h : Good sb s) (hr : 0 < (s.itable ip).ref) (hv : (s.itable ip).valid = true) :
    Ready sb s ip := by
  obtain ⟨heq, htype⟩ := h.coherent ip hr hv
  obtain ⟨h0, hlt⟩ := h.range ip hr
  refine ⟨?_, h0, hlt, ?_⟩
  · rw [h.flush_eq hr hv]
    exact h.disk
  · rwa [flush_self]

/-! ## Entries of the inode table -/

/-- An inode in memory agrees with a node. -/
structure Inode.Is (x : Inode) (n : Node) : Prop where
  type : x.type = n.type
  major : x.major = n.major
  minor : x.minor = n.minor
  nlink : x.nlink = n.nlink
  size : x.size = n.bytes.length

theorem Good.alloc_inum (h : Good sb s) (hr : 0 < (s.itable ip).ref)
    (hv : (s.itable ip).valid = true) : Alloc sb s.dinode (s.itable ip).inum := by
  obtain ⟨heq, htype⟩ := h.coherent ip hr hv
  obtain ⟨h0, hlt⟩ := h.range ip hr
  exact ⟨h0, hlt, heq ▸ htype⟩

theorem Good.is_node (h : Good sb s) (hr : 0 < (s.itable ip).ref)
    (hv : (s.itable ip).valid = true) : (s.itable ip).Is (s.node sb (s.itable ip).inum) := by
  rw [node_of_alloc (h.alloc_inum hr hv), ← (h.coherent ip hr hv).1]
  exact ⟨rfl, rfl, rfl, rfl, (content_length _ _).symm⟩

include sb in
theorem rwp_getInode {Q : Inode → View → Prop}
    (hQ : ∀ x : Inode, x.slot = v.slot ip →
      (0 < (v.slot ip).ref → (v.slot ip).valid = true → x.Is (v.node (v.slot ip).inum)) → Q x v) :
    rwp R (getInode ip) Q E v := by
  intro s hs
  obtain ⟨hg, rfl⟩ := Tracks.rep hs
  exact ⟨_, hs, hQ (s.itable ip) rfl (fun hr hv => hg.is_node hr hv)⟩

/-- Changing an entry of the table keeps the state consistent, under these conditions. -/
theorem Rep.withInode (h : Rep sb v s) (x : Inode) (hnonneg : 0 ≤ x.ref)
    (hrange : 0 < x.ref → 0 < x.inum ∧ x.inum < sb.ninodes)
    (hunique : 0 < x.ref → ∀ jp, jp ≠ ip → 0 < (v.slot jp).ref → (v.slot jp).inum ≠ x.inum)
    (hvalid : 0 < x.ref → x.valid = true → x.toDinode = s.dinode x.inum ∧ x.type ≠ .free) :
    Rep sb (v.withSlot ip x.slot) (s.withInode ip x) := by
  obtain ⟨hg, rfl⟩ := h
  have hself : (s.withInode ip x).itable ip = x := update_self ..
  have hother : ∀ jp, jp ≠ ip → (s.withInode ip x).itable jp = s.itable jp :=
    fun jp hj => update_of_ne hj _ _
  refine ⟨⟨hg.disk, fun jp => ?_, fun jp => ?_, fun jp kp => ?_, fun jp => ?_, hg.nlink_short⟩, ?_⟩
  · by_cases hj : jp = ip
    · subst hj
      rw [hself]
      exact hnonneg
    · rw [hother jp hj]
      exact hg.ref_nonneg jp
  · by_cases hj : jp = ip
    · subst hj
      rw [hself]
      exact hrange
    · rw [hother jp hj]
      exact hg.range jp
  · by_cases hj : jp = ip <;> by_cases hk : kp = ip
    · intros
      rw [hj, hk]
    · subst hj
      rw [hself, hother kp hk]
      intro hr hr' heq
      exact absurd heq.symm (hunique hr kp hk hr')
    · subst hk
      rw [hself, hother jp hj]
      intro hr hr' heq
      exact absurd heq (hunique hr' jp hj hr)
    · rw [hother jp hj, hother kp hk]
      exact hg.unique jp kp
  · by_cases hj : jp = ip
    · subst hj
      rw [hself]
      exact hvalid
    · rw [hother jp hj]
      exact hg.coherent jp
  · have hslot : (fun jp => ((s.withInode ip x).itable jp).slot) =
        update (fun jp => (s.itable jp).slot) ip x.slot := by
      funext jp
      by_cases hj : jp = ip
      · subst hj
        rw [hself, update_self]
      · rw [hother jp hj, update_of_ne hj]
    unfold State.view View.withSlot
    rw [hslot]
    rfl

include sb in
/-- An entry in use stays where it is; its reference count and its lock change. -/
theorem rwp_setInode_slot {f : Inode → Inode} (hinum : ∀ x, (f x).inum = x.inum)
    (hd : ∀ x, (f x).toDinode = x.toDinode) (hv : ∀ x, (f x).valid = true → x.valid = true)
    (hr : ∀ x : Inode, x.slot = v.slot ip → 0 ≤ (f x).ref ∧ (0 < (f x).ref → 0 < x.ref))
    (hQ : ∀ x, x.slot = v.slot ip → Q () (v.withSlot ip (f x).slot)) :
    rwp R (setInode ip f) Q E v := by
  intro s hR
  have hs := Tracks.rep hR
  have hg := hs.1
  have hslot : (s.itable ip).slot = v.slot ip := by
    rw [← hs.2]
    rfl
  obtain ⟨hnonneg, hpos⟩ := hr _ hslot
  rw [wp_setInode]
  refine ⟨_, Tracks.keep hR (hs.withInode _ hnonneg (fun h => ?_) (fun h jp hj hjr => ?_)
    (fun h hval => ?_)) rfl, hQ _ hslot⟩
  · rw [hinum]
    exact hg.range ip (hpos h)
  · rw [hinum]
    intro heq
    rw [← hs.2] at hjr heq
    exact hj (hg.unique jp ip hjr (hpos h) heq)
  · have := hg.coherent ip (hpos h) (hv _ hval)
    rw [hinum]
    show (f (s.itable ip)).toDinode = _ ∧ (f (s.itable ip)).toDinode.type ≠ _
    rw [hd]
    exact this

include sb in
theorem rwp_addRef {d : Int} (hnonneg : 0 ≤ (v.slot ip).ref + d)
    (hpos : 0 < (v.slot ip).ref + d → 0 < (v.slot ip).ref)
    (hQ : Q () (v.withSlot ip ((v.slot ip).addRef d))) :
    rwp R (setInode ip fun x => { x with ref := x.ref + d }) Q E v := by
  refine rwp_setInode_slot (fun _ => rfl) (fun _ => rfl) (fun _ h => h) (fun x hx => ?_)
    (fun x hx => ?_)
  · have : x.ref = (v.slot ip).ref := by rw [← hx]; rfl
    simp only
    rw [this]
    exact ⟨hnonneg, hpos⟩
  · have : ({ x with ref := x.ref + d } : Inode).slot = (v.slot ip).addRef d := by
      rw [← hx]
      rfl
    rw [this]
    exact hQ

include sb in
theorem rwp_setLocked {b : Bool} (hr : 0 < (v.slot ip).ref)
    (hQ : Q () (v.withSlot ip ((v.slot ip).setLocked b))) :
    rwp R (setInode ip fun x => { x with locked := b }) Q E v := by
  refine rwp_setInode_slot (fun _ => rfl) (fun _ => rfl) (fun _ h => h) (fun x hx => ?_)
    (fun x hx => ?_)
  · have : x.ref = (v.slot ip).ref := by rw [← hx]; rfl
    simp only
    omega
  · have : ({ x with locked := b } : Inode).slot = (v.slot ip).setLocked b := by
      rw [← hx]
      rfl
    rw [this]
    exact hQ

theorem Rep.slot_eq (h : Rep sb v s) (ip : InodeId) : (s.itable ip).slot = v.slot ip := by
  rw [← h.2]
  rfl

theorem Rep.ref_eq (h : Rep sb v s) (ip : InodeId) : (s.itable ip).ref = (v.slot ip).ref := by
  rw [← h.slot_eq ip]
  rfl

theorem Rep.inum_eq (h : Rep sb v s) (ip : InodeId) : (s.itable ip).inum = (v.slot ip).inum := by
  rw [← h.slot_eq ip]
  rfl

theorem Rep.valid_eq (h : Rep sb v s) (ip : InodeId) : (s.itable ip).valid = (v.slot ip).valid := by
  rw [← h.slot_eq ip]
  rfl

theorem rwp_iget {inum : Nat} (hi : 0 < inum ∧ inum < sb.ninodes) {Q : InodeId → View → Prop}
    (hfound : ∀ ip, 0 < (v.slot ip).ref → (v.slot ip).inum = inum →
      Q ip (v.withSlot ip ((v.slot ip).addRef 1)))
    (hnew : ∀ ip, (∀ jp, 0 < (v.slot jp).ref → (v.slot jp).inum ≠ inum) → (v.slot ip).ref = 0 →
      Q ip (v.withSlot ip ((v.slot ip).claim inum)))
    (hfull : (∀ ip, (v.slot ip).ref ≠ 0) → E (.panic .igetNoInodes)) :
    rwp R (iget inum) Q E v := by
  intro s hR
  have hs := Tracks.rep hR
  unfold iget
  rw [wp_bind, wp_get]
  split
  · next ip hip =>
      have hp : 0 < (v.slot ip).ref ∧ (v.slot ip).inum = inum := by
        rw [← hs.ref_eq, ← hs.inum_eq]
        simpa using List.find?_some hip
      have hset : rwp R (do
          setInode ip fun x => { x with ref := x.ref + 1 }
          pure ip) Q E v :=
        rwp_bind (rwp_addRef (by omega) (fun _ => hp.1) (rwp_pure (hfound ip hp.1 hp.2)))
      exact hset s hR
  · next hnone =>
      have hno : ∀ jp, 0 < (v.slot jp).ref → (v.slot jp).inum ≠ inum := by
        intro jp hr heq
        have := List.find?_eq_none.1 hnone jp (List.mem_finRange jp)
        rw [← hs.ref_eq] at hr
        rw [← hs.inum_eq] at heq
        simp [hr, heq] at this
      split
      · next ip hip =>
          have hzero : (v.slot ip).ref = 0 := by
            rw [← hs.ref_eq]
            simpa using List.find?_some hip
          rw [wp_bind, wp_setInode, wp_pure]
          have hQ := hnew ip hno hzero
          rw [← hs.slot_eq] at hQ
          refine ⟨_, Tracks.keep hR (hs.withInode _ ?_ (fun _ => hi) (fun _ jp _ hr => hno jp hr)
            (fun _ h => ?_)) rfl, hQ⟩
          · simp
          · simp at h
      · next hnone' =>
          refine hfull (fun ip h0 => ?_)
          have := List.find?_eq_none.1 hnone' ip (List.mem_finRange ip)
          rw [← hs.ref_eq] at h0
          simp [h0] at this

include sb in
theorem rwp_idup {Q : InodeId → View → Prop} (hr : 0 < (v.slot ip).ref)
    (hQ : Q ip (v.withSlot ip ((v.slot ip).addRef 1))) : rwp R (idup ip) Q E v :=
  rwp_bind (rwp_addRef (by omega) (fun _ => hr) (rwp_pure hQ))

include sb in
theorem rwp_acquiresleep (hr : 0 < (v.slot ip).ref)
    (hQ : (v.slot ip).locked = false → Q () (v.withSlot ip ((v.slot ip).setLocked true)))
    (hstuck : (v.slot ip).locked = true → E .stuck) : rwp R (acquiresleep ip) Q E v := by
  unfold acquiresleep
  refine rwp_bind (rwp_getInode (fun x hx _ => ?_))
  have hlocked : x.locked = (v.slot ip).locked := by rw [← hx]; rfl
  refine rwp_ite (fun hheld => rwp_throw (hstuck ?_)) (fun hfree => rwp_setLocked hr (hQ ?_))
  · rwa [← hlocked]
  · simpa [hlocked] using hfree

include sb in
theorem rwp_iunlock (hr : 0 < (v.slot ip).ref) (hl : (v.slot ip).locked = true)
    (hQ : Q () (v.withSlot ip ((v.slot ip).setLocked false))) :
    rwp R (iunlock ip) Q E v := by
  unfold iunlock
  refine rwp_bind (rwp_getInode (fun x hx _ => ?_))
  have hlocked : x.locked = (v.slot ip).locked := by rw [← hx]; rfl
  have href : x.ref = (v.slot ip).ref := by rw [← hx]; rfl
  refine rwp_ite (fun hbad => ?_) (fun _ => rwp_setLocked hr hQ)
  rw [hlocked, hl, href] at hbad
  simp at hbad
  omega

/-- Reading the inode from disk, in `ilock`. -/
theorem rwp_readInode {inum : Nat} (hr : 0 < (v.slot ip).ref) (hinum : inum = (v.slot ip).inum)
    (hQ : (v.node inum).type ≠ .free → Q () (v.withSlot ip { v.slot ip with valid := true }))
    (hfree : (v.node inum).type = .free → E (.panic .ilockNoType)) :
    rwp R (do
      let d ← readDinode sb inum
      setInode ip fun x => { x with toDinode := d, valid := true }
      if d.type = .free then panic .ilockNoType else pure ()) Q E v := by
  subst hinum
  intro s hR
  have hs := Tracks.rep hR
  have hr' := hr
  rw [← hs.ref_eq] at hr'
  obtain ⟨h0, hlt⟩ := hs.1.range ip hr'
  rw [hs.inum_eq] at h0 hlt
  have hnode : v.node = s.node sb := by
    rw [← hs.2]
    rfl
  unfold readDinode
  rw [if_pos hlt]
  simp only [wp_bind, wp_get, wp_pure, wp_setInode]
  by_cases htype : (s.dinode (v.slot ip).inum).type = .free
  · have halloc : ¬ Alloc sb s.dinode (v.slot ip).inum := fun h => h.2.2 htype
    rw [if_pos htype]
    refine hfree ?_
    rw [hnode, node_of_not_alloc halloc]
    rfl
  · rw [if_neg htype, wp_pure]
    have hQ' := hQ (by rw [hnode]; exact node_type_ne_free.2 ⟨h0, hlt, htype⟩)
    rw [← hs.slot_eq] at hQ'
    refine ⟨_, Tracks.keep hR (hs.withInode _ ?_ (fun _ => ?_) (fun _ jp hj hjr heq => ?_)
      (fun _ _ => ?_)) rfl, hQ'⟩
    · exact hs.1.ref_nonneg ip
    · exact hs.1.range ip hr'
    · rw [← hs.inum_eq] at heq
      rw [← hs.ref_eq] at hjr
      exact hj (hs.1.unique jp ip hjr hr' heq)
    · simp only
      rw [hs.inum_eq]
      exact ⟨rfl, htype⟩

theorem rwp_ilock (hr : 0 < (v.slot ip).ref)
    (hQ : (v.slot ip).locked = false → (v.node (v.slot ip).inum).type ≠ .free →
      Q () (v.withSlot ip (v.slot ip).acquired)) (hstuck : (v.slot ip).locked = true → E .stuck)
    (hfree : (v.node (v.slot ip).inum).type = .free → E (.panic .ilockNoType)) :
    rwp R (ilock sb ip) Q E v := by
  unfold ilock
  refine rwp_ok (fun hok => rwp_bind (rwp_getInode (fun x hx _ => ?_)))
  have href : x.ref = (v.slot ip).ref := by rw [← hx]; rfl
  have hinum : x.inum = (v.slot ip).inum := by rw [← hx]; rfl
  have hvalid : x.valid = (v.slot ip).valid := by rw [← hx]; rfl
  refine rwp_ite (fun h => by omega) (fun _ => ?_)
  refine rwp_bind (rwp_acquiresleep hr (fun hlocked => ?_) hstuck)
  refine rwp_ite (fun hv => ?_) (fun hv => ?_)
  · refine rwp_readInode ?_ ?_ (fun htype => ?_) (fun htype => ?_)
    · simpa using hr
    · simpa using hinum
    · have := hQ hlocked (by rw [← hinum]; exact htype)
      simpa [View.withSlot, Slot.setLocked, Slot.acquired] using this
    · rw [hinum] at htype
      exact hfree htype
  · have hval : (v.slot ip).valid = true := by
      rw [← hvalid]
      simpa using hv
    have := hQ hlocked (hok.valid ip hr hval)
    rw [show (v.slot ip).acquired = (v.slot ip).setLocked true by
      simp only [Slot.acquired, Slot.setLocked, hval]] at this
    exact rwp_pure this

/-! ## Nodes -/

/-- The state after an inode in memory has been changed to `d` and written back; blocks have
    changed as well. -/
def State.change (s : State) (ip : InodeId) (d : Dinode) (bitmap : Nat → Bool) (data : Nat → Block) :
    State :=
  { s with bitmap := bitmap, data := data,
           itable := update s.itable ip { s.itable ip with toDinode := d },
           dinode := update s.dinode (s.itable ip).inum d }

theorem Rep.change {d : Dinode} {bitmap : Nat → Bool} {data : Nat → Block} (h : Rep sb v s)
    (hr : 0 < (s.itable ip).ref) (hv : (s.itable ip).valid = true)
    (hdisk : DiskOk sb (update s.dinode (s.itable ip).inum d) bitmap data)
    (htype : d.type = (s.itable ip).type) (hshort : short d.nlink = d.nlink)
    (hother : ∀ k, k ≠ (s.itable ip).inum → Alloc sb s.dinode k →
      content data (s.dinode k) = content s.data (s.dinode k)) :
    Rep sb (v.withNode (s.itable ip).inum (d.node data)) (s.change ip d bitmap data) := by
  obtain ⟨hg, rfl⟩ := h
  obtain ⟨hcoh, htype'⟩ := hg.coherent ip hr hv
  obtain ⟨h0, hlt⟩ := hg.range ip hr
  have halloc : ∀ k, Alloc sb (update s.dinode (s.itable ip).inum d) k ↔
      Alloc sb s.dinode k := alloc_update (by rw [htype, hcoh])
  have hself : (s.change ip d bitmap data).itable ip = { s.itable ip with toDinode := d } :=
    update_self ..
  have hne : ∀ jp, jp ≠ ip → (s.change ip d bitmap data).itable jp = s.itable jp :=
    fun jp hj => update_of_ne hj _ _
  have hslot : ∀ jp, ((s.change ip d bitmap data).itable jp).slot = (s.itable jp).slot := by
    intro jp
    by_cases hj : jp = ip
    · subst hj
      rw [hself]
      rfl
    · rw [hne jp hj]
  have hr' : ∀ jp, ((s.change ip d bitmap data).itable jp).ref = (s.itable jp).ref :=
    fun jp => congrArg Slot.ref (hslot jp)
  have hi' : ∀ jp, ((s.change ip d bitmap data).itable jp).inum = (s.itable jp).inum :=
    fun jp => congrArg Slot.inum (hslot jp)
  refine ⟨⟨hdisk, fun jp => ?_, fun jp => ?_, fun jp kp => ?_, fun jp => ?_, fun k hk => ?_⟩, ?_⟩
  · rw [hr']
    exact hg.ref_nonneg jp
  · rw [hr', hi']
    exact hg.range jp
  · rw [hr', hr', hi', hi']
    exact hg.unique jp kp
  · by_cases hj : jp = ip
    · subst hj
      rw [hself]
      intro _ _
      show d = update s.dinode (s.itable jp).inum d (s.itable jp).inum ∧ d.type ≠ .free
      rw [update_self, htype]
      exact ⟨rfl, htype'⟩
    · rw [hne jp hj]
      intro hjr hjv
      have hinum : (s.itable jp).inum ≠ (s.itable ip).inum := fun he => hj (hg.unique jp ip hjr hr he)
      show _ = update s.dinode (s.itable ip).inum d (s.itable jp).inum ∧ _
      rw [update_of_ne hinum]
      exact hg.coherent jp hjr hjv
  · by_cases hki : k = (s.itable ip).inum
    · subst hki
      show short (update s.dinode _ d _).nlink = (update s.dinode _ d _).nlink
      rw [update_self]
      exact hshort
    · show short (update s.dinode _ d k).nlink = (update s.dinode _ d k).nlink
      rw [update_of_ne hki]
      exact hg.nlink_short k ((halloc k).1 hk)
  · have hnode : (s.change ip d bitmap data).node sb =
        update (s.node sb) (s.itable ip).inum (d.node data) := by
      funext k
      by_cases hki : k = (s.itable ip).inum
      · subst hki
        rw [update_self, node_of_alloc ((halloc _).2 ⟨h0, hlt, hcoh ▸ htype'⟩)]
        show (update s.dinode _ d _).node data = _
        rw [update_self]
      · rw [update_of_ne hki]
        by_cases hk : Alloc sb s.dinode k
        · rw [node_of_alloc hk, node_of_alloc ((halloc k).2 hk)]
          show (update s.dinode _ d k).node data = _
          rw [update_of_ne hki]
          unfold Dinode.node
          rw [hother k hki hk]
        · rw [node_of_not_alloc hk, node_of_not_alloc (fun h => hk ((halloc k).1 h))]
    unfold State.view View.withNode
    rw [hnode, funext hslot]
    rfl

theorem State.change_eq {d : Dinode} {bitmap : Nat → Bool} {data : Nat → Block}
    (hframe : s' = { s with bitmap := bitmap, data := data, log := s'.log,
                            itable := update s.itable ip (s'.itable ip),
                            dinode := update s.dinode (s.itable ip).inum
                              (s'.itable ip).toDinode })
    (hslot : s'.itable ip = { s.itable ip with toDinode := d }) :
    s' = (s.change ip d bitmap data).withLog s'.log := by
  rw [hframe, hslot]
  rfl

/-- `bytes` in the place of the bytes of a node. -/
@[simps -fullyApplied] def Node.withBytes (n : Node) (bytes : List UInt8) : Node :=
  { n with bytes := bytes }

/-- The node of an inode in memory. -/
theorem Good.node_eq (h : Good sb s) (hr : 0 < (s.itable ip).ref)
    (hv : (s.itable ip).valid = true) :
    s.node sb (s.itable ip).inum = (s.itable ip).toDinode.node s.data := by
  rw [node_of_alloc (h.alloc_inum hr hv), (h.coherent ip hr hv).1]

theorem Good.nlink_short_slot (h : Good sb s) (hr : 0 < (s.itable ip).ref)
    (hv : (s.itable ip).valid = true) : short (s.itable ip).nlink = (s.itable ip).nlink := by
  rw [(h.coherent ip hr hv).1]
  exact h.nlink_short _ (h.alloc_inum hr hv)

theorem Rep.node_eq (h : Rep sb v s) (hr : 0 < (s.itable ip).ref)
    (hv : (s.itable ip).valid = true) :
    v.node (v.slot ip).inum = (s.itable ip).toDinode.node s.data := by
  rw [← h.inum_eq, ← h.2]
  exact h.1.node_eq hr hv

theorem Rep.written {src : Nat → Option UInt8} {off n r : Nat} (h : Rep sb v s)
    (hr : 0 < (s.itable ip).ref) (hv : (s.itable ip).valid = true)
    (hw : Written sb src off n s s' ip r) :
    Rep sb (v.withNode (v.slot ip).inum ((v.node (v.slot ip).inum).withBytes
      (content s'.data (s'.itable ip).toDinode))) s' := by
  have heq := State.change_eq hw.frame hw.slot
  have hdisk := hw.disk
  rw [hw.frame, hw.slot] at hdisk
  have hchange := (h.change hr hv hdisk rfl (h.1.nlink_short_slot hr hv) hw.other).withLog s'.log
  rw [← heq] at hchange
  rw [h.node_eq hr hv, ← h.inum_eq, hw.slot]
  exact hchange

theorem Rep.truncated (h : Rep sb v s) (hr : 0 < (s.itable ip).ref)
    (hv : (s.itable ip).valid = true) (ht : Truncated sb s s' ip) :
    Rep sb (v.withNode (v.slot ip).inum ((v.node (v.slot ip).inum).withBytes [])) s' := by
  have heq := State.change_eq ht.frame ht.slot
  have hdisk := ht.disk
  rw [ht.frame, ht.slot] at hdisk
  have hchange :=
    (h.change hr hv hdisk rfl (h.1.nlink_short_slot hr hv) (fun _ _ _ => rfl)).withLog s'.log
  rw [← heq] at hchange
  rw [h.node_eq hr hv, ← h.inum_eq]
  exact hchange

section Contents

variable (hr : 0 < (v.slot ip).ref) (hv : (v.slot ip).valid = true)

include hr hv

theorem rwp_readi {dst : Nat → Bool} {off n : Nat} {Q : Int × List UInt8 → View → Prop}
    (hn : n < 2 ^ 32)
    (hQ : ∀ r bytes, ((∀ k, k < n → dst k = true) →
      bytes = (if off + n < 2 ^ 32 then readBytes (v.node (v.slot ip).inum).bytes off n else []) ∧
      r = (bytes.length : Int)) → Q (r, bytes) v) :
    rwp R (readi sb ip dst off n) Q E v := by
  intro s hR
  have hs := Tracks.rep hR
  rw [← hs.ref_eq] at hr
  rw [← hs.valid_eq] at hv
  refine wp_readi (hs.1.ready hr hv) hn (fun r bytes h => ⟨v, hR, hQ r bytes ?_⟩)
  rw [hs.node_eq hr hv]
  exact h

variable [LogErrs E]

/-- What a `writei` of `n` bytes that writes `r` of them makes of the bytes `old`. -/
structure Wrote (src : Nat → Option UInt8) (off n : Nat) (old bytes' : List UInt8) (r : Nat) :
    Prop where
  le : r ≤ n
  fits : off + n ≤ MAXFILE * BSIZE
  aligned : r = 0 ∨ r = n ∨ (off + r) % BSIZE = 0
  bytes : ∀ bytes, Readable src bytes → bytes.length = n →
    bytes' = writeBytes old off (bytes.take r) ∧ (r < n → old.length ≤ off + r)

/-- What a `writei` at `off` that writes `r` bytes makes of the blocks of the inode `i`: it writes
    nothing exactly if the first block is not to be had, and then it may leave an indirect block. -/
structure Taken (sb : Superblock) (i off : Nat) (u u' : Nat × Nat → Nat) (r : Nat) : Prop where
  nothing : r = 0 → ∀ k, k ≠ (i, NDIRECT) → u' k = u k
  none_iff : r = 0 ↔ ¬ HasBlock sb u i (off / BSIZE)

/-- `writei`; how much is written when it succeeds depends on the blocks there are. -/
theorem rwp_writei_watched {src : Nat → Option UInt8} {off n : Nat} {u : Nat × Nat → Nat}
    {Q : Int → Watch → Prop} (hn : n < 2 ^ 32)
    (hbad : (v.node (v.slot ip).inum).bytes.length < off ∨ 2 ^ 32 ≤ off + n ∨
      MAXFILE * BSIZE < off + n → Q (-1) (some (v, u)))
    (hgood : ∀ (r : Nat) bytes' u', Wrote src off n (v.node (v.slot ip).inum).bytes bytes' r →
      (∀ bytes, Readable src bytes → bytes.length = n → 0 < n →
        Taken sb (v.slot ip).inum off u u' r) →
      Gained (v.slot ip).inum u u' →
      Q r (some (v.withNode (v.slot ip).inum ((v.node (v.slot ip).inum).withBytes bytes'), u'))) :
    rwp (RepW sb) (writei sb ip src off n) Q E (some (v, u)) := by
  intro s hW
  obtain ⟨hs, hu⟩ := hW v u rfl
  rw [← hs.ref_eq] at hr
  rw [← hs.valid_eq] at hv
  have hnode := hs.node_eq hr hv
  have hlen : (v.node (v.slot ip).inum).bytes.length = (s.itable ip).size := by
    rw [hnode]
    exact content_length _ _
  have hplaces : s.places sb ip = u := by
    rw [State.places, hs.1.flush_eq hr hv]
    exact hu
  refine wp_writei (hs.1.ready hr hv) hn (fun hc => ⟨_, hW, hbad (by rwa [hlen])⟩)
    (fun r s' hoff hno hmax hw => ⟨_, RepU.watch ⟨hs.written hr hv hw, rfl⟩, ?_⟩)
  have hplace := hw.places
  have hkeep := hw.keep
  have hnothing := hw.nothing
  have hblock := hw.block_ne (hs.1.ready hr hv)
  rw [hplaces, hs.inum_eq] at hplace hnothing
  rw [hs.inum_eq] at hblock
  rw [hplaces] at hkeep
  have hgain : Gained (v.slot ip).inum u (s'.usage sb) := ⟨hplace, hkeep⟩
  refine hgood r _ _ ⟨hw.le, hmax, hw.aligned, fun bytes hread hl => ⟨?_, fun hlt => ?_⟩⟩
    (fun bytes hread hl hpos => ⟨fun h0 k hk => (hnothing bytes hread hl hpos h0).same k (.inl hk),
      fun h0 => ?_, fun hno => ?_⟩) hgain
  · rw [hnode]
    exact hw.content_eq bytes hread hl
  · rw [hlen]
    exact (hw.full bytes hread hl hlt).1
  · exact (hnothing bytes hread hl hpos h0).not_hasBlock hgain
      (hw.disk.own.unowned_eq_empty (hw.full bytes hread hl (h0 ▸ hpos)).2)
  · by_contra hne
    have hblock := hblock (Nat.pos_of_ne_zero hne)
    exact hno (hgain.hasBlock hw.disk.own hblock (fun hbn => refs_indirect_ne hbn hblock))

theorem rwp_writei {src : Nat → Option UInt8} {off n : Nat} {Q : Int → View → Prop}
    (hn : n < 2 ^ 32)
    (hbad : (v.node (v.slot ip).inum).bytes.length < off ∨ 2 ^ 32 ≤ off + n ∨
      MAXFILE * BSIZE < off + n → Q (-1) v)
    (hgood : ∀ (r : Nat) bytes', Wrote src off n (v.node (v.slot ip).inum).bytes bytes' r →
      Q r (v.withNode (v.slot ip).inum ((v.node (v.slot ip).inum).withBytes bytes'))) :
    rwp (Rep sb) (writei sb ip src off n) Q E v :=
  rwp_of_watched (fun _ => rwp_writei_watched hr hv hn (fun hb => ⟨v, _, rfl, hbad hb⟩)
    (fun r bytes' _ hw _ _ => ⟨_, _, rfl, hgood r bytes' hw⟩))

theorem rwp_itrunc
    (hQ : Q () (v.withNode (v.slot ip).inum ((v.node (v.slot ip).inum).withBytes []))) :
    rwp (Rep sb) (itrunc sb ip) Q E v := by
  intro s hs
  rw [← hs.ref_eq] at hr
  rw [← hs.valid_eq] at hv
  exact wp_itrunc (hs.1.ready hr hv) (fun s' ht _ => ⟨_, hs.truncated hr hv ht, hQ⟩)

/-- Assigning to the fields of an inode and `iupdate`. -/
theorem rwp_setFields {f : Inode → Inode} {g : Node → Node}
    (hf : ∀ x : Inode, f x = { x with toDinode := (f x).toDinode } ∧ (f x).type = x.type ∧
      (f x).size = x.size ∧ (f x).addrs = x.addrs)
    (hg : ∀ (x : Inode) data, (f x).toDinode.node data = g (x.toDinode.node data))
    (hshort : ∀ x : Inode, x.nlink = (v.node (v.slot ip).inum).nlink →
      short (f x).nlink = (f x).nlink)
    (hQ : Q () (v.withNode (v.slot ip).inum (g (v.node (v.slot ip).inum)))) :
    rwp R (do
      setInode ip f
      iupdate sb ip) Q E v := by
  intro s hR
  have hs := Tracks.rep hR
  rw [← hs.ref_eq] at hr
  rw [← hs.valid_eq] at hv
  have hnode := hs.node_eq hr hv
  obtain ⟨hslot, htype, hsize, haddrs⟩ := hf (s.itable ip)
  have hinum : (f (s.itable ip)).inum = (s.itable ip).inum := by rw [hslot]
  have halloc := hs.1.alloc_inum hr hv
  rw [wp_bind, wp_setInode]
  refine wp_iupdate (by simpa [hinum] using halloc.2.1) (fun log => ?_)
  have heq : (s.withInode ip (f (s.itable ip))).withDinode
      ((s.withInode ip (f (s.itable ip))).itable ip).inum
      ((s.withInode ip (f (s.itable ip))).itable ip).toDinode =
      s.change ip (f (s.itable ip)).toDinode s.bitmap s.data := by
    rw [State.withInode_itable, update_self, hinum]
    unfold State.change
    rw [← hslot]
    rfl
  rw [heq]
  have hcoh := (hs.1.coherent ip hr hv).1
  have hfield : ∀ {α : Type} (p : Dinode → α), p (f (s.itable ip)).toDinode =
      p (s.itable ip).toDinode → ∀ k, p (update s.dinode (s.itable ip).inum
        (f (s.itable ip)).toDinode k) = p (s.dinode k) := by
    intro α p hp k
    by_cases hk : k = (s.itable ip).inum
    · subst hk
      rw [update_self, hp, hcoh]
    · rw [update_of_ne hk]
  have hdisk : DiskOk sb (update s.dinode (s.itable ip).inum (f (s.itable ip)).toDinode)
      s.bitmap s.data :=
    hs.1.disk.congr (hfield Dinode.type htype) (hfield Dinode.addrs haddrs)
      (hfield Dinode.size hsize)
  refine ⟨_, Tracks.keep hR ((hs.change hr hv hdisk htype (hshort _ ?_)
    (fun _ _ _ => rfl)).withLog log)
    (refs_congr (hfield Dinode.type htype) (hfield Dinode.addrs haddrs)), ?_⟩
  · rw [hnode]
    rfl
  · rw [hnode, ← hs.inum_eq, ← hg] at hQ
    exact hQ

end Contents

/-! ## Allocating and freeing inodes -/

variable [LogErrs E]

theorem blockAt_of_addrs_zero {data : Nat → Block} {d : Dinode}
    (h : ∀ j, j ≤ NDIRECT → d.addrs j = 0) (p : Nat) : blockAt data d p = 0 := by
  by_cases hp : p ≤ NDIRECT
  · rw [blockAt_direct hp, h p hp]
  · exact blockAt_no_indirect (by omega) (h NDIRECT (Nat.le_refl _))

/-- An inode that has no blocks, before and after. -/
theorem refs_withEmpty {dn : Nat → Dinode} {data : Nat → Block} {d : Dinode}
    (hold : Alloc sb dn i → ∀ j, j ≤ NDIRECT → (dn i).addrs j = 0)
    (hnew : ∀ j, j ≤ NDIRECT → d.addrs j = 0) :
    refs sb (update dn i d) data = refs sb dn data := by
  funext ⟨k, q⟩
  by_cases hki : k = i
  · subst hki
    have hzero : refs sb dn data (k, q) = 0 := by
      by_cases hk : Alloc sb dn k
      · rw [refs_of_alloc hk, blockAt_of_addrs_zero (hold hk)]
      · exact refs_of_not_alloc hk q
    rw [hzero]
    unfold refs
    simp only [update_self, blockAt_of_addrs_zero hnew, ite_self]
  · unfold refs
    simp only [alloc_update_of_ne hki, update_of_ne hki]

theorem DiskOk.withEmpty {dn : Nat → Dinode} {bitmap : Nat → Bool} {data : Nat → Block} {d : Dinode}
    (hok : DiskOk sb dn bitmap data) (hold : Alloc sb dn i → ∀ j, j ≤ NDIRECT → (dn i).addrs j = 0)
    (hnew : ∀ j, j ≤ NDIRECT → d.addrs j = 0) (hsize : d.size = 0) :
    DiskOk sb (update dn i d) bitmap data := by
  refine hok.empty (fun k hk => update_of_ne hk _ _) (by rwa [update_self]) ?_
  rw [refs_withEmpty hold hnew]
  exact hok.own

/-- Changing an inode on disk of which there is no valid copy. -/
theorem Rep.withDinode {d : Dinode} (h : Rep sb v s)
    (hno : ∀ jp, 0 < (v.slot jp).ref → (v.slot jp).valid = true → (v.slot jp).inum ≠ i)
    (hdisk : DiskOk sb (update s.dinode i d) s.bitmap s.data) (hshort : short d.nlink = d.nlink) :
    Rep sb (v.withNode i ((s.withDinode i d).node sb i)) (s.withDinode i d) := by
  refine ⟨⟨hdisk, h.1.ref_nonneg, h.1.range, h.1.unique, fun jp hr hval => ?_, fun k hk => ?_⟩, ?_⟩
  · have hne := hno jp (by rwa [← h.ref_eq]) (by rwa [← h.valid_eq])
    rw [← h.inum_eq] at hne
    show _ = update s.dinode i d (s.itable jp).inum ∧ _
    rw [update_of_ne hne]
    exact h.1.coherent jp hr hval
  · show short (update s.dinode i d k).nlink = (update s.dinode i d k).nlink
    by_cases hki : k = i
    · subst hki
      rwa [update_self]
    · rw [update_of_ne hki]
      exact h.1.nlink_short k ((alloc_update_of_ne hki).1 hk)
  · have hnode : (s.withDinode i d).node sb =
        update (s.node sb) i ((s.withDinode i d).node sb i) := by
      funext k
      by_cases hki : k = i
      · subst hki
        rw [update_self]
      · rw [update_of_ne hki]
        unfold State.node
        simp only [State.withDinode_dinode, alloc_update_of_ne hki, update_of_ne hki]
        rfl
    rw [← h.2]
    unfold State.view View.withNode
    rw [← hnode]
    rfl

theorem rwp_ialloc {type : FileType} (ht : type ≠ .free) {Q : Option InodeId → View → Prop}
    (hnone : (∀ i, 0 < i → i < sb.ninodes → (v.node i).type ≠ .free) → Q none v)
    (hsome : ∀ inum, 0 < inum → inum < sb.ninodes → (v.node inum).type = .free →
      rwp R (iget inum) (fun ip v' => Q (some ip) v') E
        (v.withNode inum (Node.fresh type))) :
    rwp R (ialloc sb type) Q E v := by
  intro s hR
  have hs := Tracks.rep hR
  unfold ialloc
  rw [wp_bind, wp_get]
  split
  · next inum hfind =>
      have hfree : (s.dinode inum).type = .free := by simpa using List.find?_some hfind
      have hmem := List.mem_of_find?_eq_some hfind
      rw [List.mem_range'_1] at hmem
      have h0 : 0 < inum := by omega
      have hlt : inum < sb.ninodes := by omega
      have hnot : ¬ Alloc sb s.dinode inum := fun h => h.2.2 hfree
      have hnode : v.node inum = Node.free := by
        rw [← hs.2]
        exact node_of_not_alloc hnot
      have hrep := hs.withDinode (i := inum) (d := Dinode.fresh type)
        (fun jp hr hval he => hs.ok.valid jp hr hval (by rw [he, hnode]; rfl))
        (hs.1.disk.withEmpty (fun h => absurd h hnot) (fun _ _ => rfl) rfl) rfl
      have hfresh : (s.withDinode inum (Dinode.fresh type)).node sb inum = Node.fresh type := by
        rw [node_of_alloc ⟨h0, hlt, by simpa [Dinode.fresh] using ht⟩, State.withDinode_dinode,
          update_self]
        rfl
      rw [hfresh] at hrep
      unfold writeDinode
      rw [wp_bind, if_pos hlt, wp_bind, wp_modify]
      refine wp_logBlock (fun log => ?_)
      rw [wp_bind]
      refine (hsome inum h0 hlt (by rw [hnode]; rfl) _ (Tracks.keep hR (hrep.withLog log)
        (refs_withEmpty (fun h => absurd h hnot) (fun _ _ => rfl)))).mono ?_ (fun _ he => he)
      rintro ip s' ⟨v', hs', hQ⟩
      exact ⟨v', hs', hQ⟩
  · next hfind =>
    refine ⟨v, hR, hnone fun i h0 hi => ?_⟩
    have hused := List.find?_eq_none.1 hfind i (List.mem_range'_1.2 (by omega))
    rw [← hs.2]
    exact node_type_ne_free.2 ⟨h0, hi, by simpa using hused⟩

theorem refs_withoutBlocks {dn dn' : Nat → Dinode} {data data' : Nat → Block}
    (hother : ∀ k, k ≠ i → dn' k = dn k) (hfree : (dn' i).type = .free) (hdata : data' = data) :
    refs sb dn' data' = withoutBlocks (refs sb dn data) i := by
  funext ⟨k, q⟩
  unfold withoutBlocks
  subst hdata
  by_cases hk : k = i
  · subst hk
    rw [if_pos rfl, refs_of_not_alloc (fun h => h.2.2 hfree)]
  · have halloc : Alloc sb dn' k ↔ Alloc sb dn k := by
      unfold Alloc
      rw [hother k hk]
    rw [if_neg hk]
    unfold refs
    simp only [halloc, hother k hk]

/-- The inode `x` when `iput` has freed it. -/
def Inode.freed (x : Inode) : Inode := { x with type := .free, valid := false, locked := false }

/-- Freeing an inode that has no blocks. -/
theorem Rep.freed (h : Rep sb v s) (hr : 0 < (s.itable ip).ref) (hv : (s.itable ip).valid = true)
    (hzero : ∀ j, j ≤ NDIRECT → (s.itable ip).addrs j = 0) (hsize : (s.itable ip).size = 0) :
    Rep sb ((v.withSlot ip (v.slot ip).dropped).withNode (v.slot ip).inum Node.free)
      ((s.withInode ip (s.itable ip).freed).withDinode (s.itable ip).inum
        (s.itable ip).freed.toDinode) := by
  have hslot : (s.itable ip).freed.slot = (v.slot ip).dropped := by
    rw [← h.slot_eq]
    rfl
  have hdrop : Rep sb (v.withSlot ip (v.slot ip).dropped) (s.withInode ip (s.itable ip).freed) := by
    rw [← hslot]
    refine h.withInode _ (h.1.ref_nonneg ip) (h.1.range ip) (fun _ jp hj hjr he => ?_)
      (fun _ hval => ?_)
    · rw [← h.ref_eq] at hjr
      rw [← h.inum_eq] at he
      exact hj (h.1.unique jp ip hjr hr he)
    · simp [Inode.freed] at hval
  have hno : ∀ jp, 0 < ((v.withSlot ip (v.slot ip).dropped).slot jp).ref →
      ((v.withSlot ip (v.slot ip).dropped).slot jp).valid = true →
      ((v.withSlot ip (v.slot ip).dropped).slot jp).inum ≠ (s.itable ip).inum := by
    intro jp
    rw [View.withSlot_slot]
    by_cases hj : jp = ip
    · subst hj
      simp
    · rw [update_of_ne hj, h.inum_eq]
      exact fun hjr _ he => hj (h.ok.unique jp ip hjr (by rwa [← h.ref_eq]) he)
  have hempty : DiskOk sb (update s.dinode (s.itable ip).inum
      (s.itable ip).freed.toDinode) s.bitmap s.data := by
    refine h.1.disk.withEmpty (fun _ j hj => ?_) hzero hsize
    rw [← (h.1.coherent ip hr hv).1]
    exact hzero j hj
  have hfree := hdrop.withDinode hno hempty (h.1.nlink_short_slot hr hv)
  rw [node_of_not_alloc (fun h => h.2.2 (by simp [Inode.freed])), h.inum_eq] at hfree
  rw [h.inum_eq]
  exact hfree

/-- The part of `iput` that frees the inode on disk, with what follows. -/
theorem rwp_freeInode {k : Unit → FsM Unit} {u : Nat × Nat → Nat} {Q : Unit → Watch → Prop}
    (hr : 0 < (v.slot ip).ref) (hv : (v.slot ip).valid = true)
    (hQ : rwp (RepW sb) (k ()) Q E
      (some ((v.withSlot ip (v.slot ip).dropped).withNode (v.slot ip).inum Node.free,
        withoutBlocks u (v.slot ip).inum))) :
    rwp (RepW sb) (do
      itrunc sb ip
      setInode ip fun x => { x with type := .free }
      iupdate sb ip
      setInode ip fun x => { x with valid := false }
      let r ← setInode ip fun x => { x with locked := false }
      k r) Q E (some (v, u)) := by
  intro s hW
  obtain ⟨hs, hu⟩ := hW v u rfl
  have hr' := hr
  have hv' := hv
  rw [← hs.ref_eq] at hr'
  rw [← hs.valid_eq] at hv'
  have halloc := hs.1.alloc_inum hr' hv'
  rw [wp_bind]
  refine wp_itrunc (hs.1.ready hr' hv') (fun s₁ ht hzero => ?_)
  have hinum : (s₁.itable ip).inum = (s.itable ip).inum := by rw [ht.slot]
  simp only [wp_bind, wp_setInode]
  refine wp_iupdate (by simpa [hinum] using halloc.2.1) (fun log => ?_)
  simp only [State.withInode_itable, State.withLog_itable, State.withDinode_itable,
    update_self]
  have hfree := ((hs.truncated hr' hv' ht).freed (by rw [ht.slot]; exact hr')
    (by rw [ht.slot]; exact hv') hzero (by rw [ht.slot])).withLog log
  have hdn : s₁.dinode = update s.dinode (s.itable ip).inum (s₁.itable ip).toDinode :=
    congrArg State.dinode ht.frame
  refine hQ _ (RepU.watch ⟨?_, ?_⟩)
  · -- the assignments come in another order, which does not matter
    convert hfree using 1
    · simp only [View.withSlot, View.withNode, update_idem]
    · simp only [State.withInode, State.withDinode, State.withLog, update_idem]
      rfl
  · rw [← hs.inum_eq, ← hu]
    refine refs_withoutBlocks (fun k hk => ?_) ?_ ?_
    · rw [State.withInode_dinode, State.withInode_dinode, State.withLog_dinode,
        State.withDinode_dinode, State.withInode_dinode, hinum, update_of_ne hk, hdn,
        update_of_ne hk]
    · rw [State.withInode_dinode, State.withInode_dinode, State.withLog_dinode,
        State.withDinode_dinode, State.withInode_dinode, hinum, update_self]
    · rw [State.withInode_data, State.withInode_data, State.withLog_data, State.withDinode_data,
        State.withInode_data, ht.frame]

/-- The reference that is left keeps an inode without links. -/
def View.Last (v : View) (ip : InodeId) : Prop :=
  (v.slot ip).ref = 1 ∧ (v.slot ip).valid = true ∧ (v.node (v.slot ip).inum).nlink = 0

omit [LogErrs E] in
/-- `iput` of an inode that stays. -/
theorem rwp_iput_keep (hr : 0 < (v.slot ip).ref) (hkeep : ¬ v.Last ip)
    (hQ : Q () (v.withSlot ip ((v.slot ip).addRef (-1)))) :
    rwp R (iput sb ip) Q E v := by
  unfold iput
  refine rwp_bind (rwp_getInode (fun x hx his => ?_))
  have href : x.ref = (v.slot ip).ref := by rw [← hx]; rfl
  have hvalid : x.valid = (v.slot ip).valid := by rw [← hx]; rfl
  dsimp only
  rw [if_neg]
  · exact rwp_addRef (by omega) (fun _ => hr) hQ
  · rintro ⟨h1, hv, hn⟩
    rw [href] at h1
    rw [hvalid] at hv
    exact hkeep ⟨h1, hv, by rw [← hn, (his hr hv).nlink]⟩

theorem rwp_iput_watched {u : Nat × Nat → Nat} {Q : Unit → Watch → Prop} (hr : 0 < (v.slot ip).ref)
    (hput : ¬ v.Last ip → Q () (some (v.withSlot ip ((v.slot ip).addRef (-1)), u)))
    (hfree : v.Last ip → (v.slot ip).locked = false →
      Q () (some ((v.withSlot ip ((v.slot ip).dropped.addRef (-1))).withNode (v.slot ip).inum
        Node.free, withoutBlocks u (v.slot ip).inum)))
    (hstuck : v.Last ip → (v.slot ip).locked = true → E .stuck) :
    rwp (RepW sb) (iput sb ip) Q E (some (v, u)) := by
  by_cases hlast : v.Last ip
  · obtain ⟨h1, hv, hn⟩ := id hlast
    unfold iput
    refine rwp_bind (rwp_tracked (rwp_getInode (fun x hx his => ?_)))
    have href : x.ref = (v.slot ip).ref := by rw [← hx]; rfl
    have hvalid : x.valid = (v.slot ip).valid := by rw [← hx]; rfl
    dsimp only
    rw [if_pos ⟨by rw [href, h1], by rw [hvalid, hv], by rw [(his hr hv).nlink, hn]⟩]
    refine rwp_bind (rwp_tracked (rwp_acquiresleep hr (fun hlocked => ?_) (hstuck hlast)))
    refine rwp_freeInode (by simpa using hr) (by simpa using hv) (rwp_tracked (rwp_addRef ?_ ?_ ?_))
    · simp
      omega
    · simp
      omega
    · have := hfree hlast hlocked
      simpa [View.withSlot, View.withNode, Slot.dropped, Slot.addRef, Slot.setLocked] using this
  · exact rwp_tracked (rwp_iput_keep hr hlast (hput hlast))

theorem rwp_iput (hr : 0 < (v.slot ip).ref)
    (hput : ¬ v.Last ip → Q () (v.withSlot ip ((v.slot ip).addRef (-1))))
    (hfree : v.Last ip → (v.slot ip).locked = false →
      Q () ((v.withSlot ip ((v.slot ip).dropped.addRef (-1))).withNode (v.slot ip).inum Node.free))
    (hstuck : v.Last ip → (v.slot ip).locked = true → E .stuck) :
    rwp (Rep sb) (iput sb ip) Q E v :=
  rwp_of_watched (fun _ => rwp_iput_watched hr (fun h => ⟨_, _, rfl, hput h⟩)
    (fun hlast hl => ⟨_, _, rfl, hfree hlast hl⟩) hstuck)

end Xv6.Fs
