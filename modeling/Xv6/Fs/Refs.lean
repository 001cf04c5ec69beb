import Xv6.Fs.View
import Xv6.Lib.Tally

set_option autoImplicit false

/-! # References to inodes

Who refers to an entry of the inode table: the open files, the current directories, and the call
that is running. `Inodes v H O W L` says that the reference counts are exactly that. `H` and `O` are
the references the running call holds. With those in `H` it only looks at the inode; when it puts
one back, no inode is freed, because an inode without links has another reference. A reference in
`O` may be the last one of an inode without links. `W` are references that have been given up
already, although a current directory still shows them, and `L` are the entries that are locked.

The functions of `kernel/fs.c` that take and give references are given rules in these terms. -/

namespace Xv6.Fs

open Wp Function

/-! ## Counting references -/

/-- A reference of the running call: an entry of the table and the inode in it. -/
abbrev Hold : Type := InodeId × Nat

/-- How many references of the list are to this entry. -/
def holds (l : List Hold) (ip : InodeId) : Nat := l.countP fun h => h.1 = ip

@[simp] theorem holds_nil (ip : InodeId) : holds [] ip = 0 := rfl

@[simp, grind =] theorem holds_cons (h : Hold) (l : List Hold) (ip : InodeId) :
    holds (h :: l) ip = holds l ip + if h.1 = ip then 1 else 0 := by
  simp [holds, List.countP_cons]

theorem holds_pos {l : List Hold} {h : Hold} (hmem : h ∈ l) : 0 < holds l h.1 :=
  List.countP_pos_iff.2 ⟨h, hmem, by simp⟩

theorem holds_perm {l l' : List Hold} (h : l.Perm l') (ip : InodeId) : holds l ip = holds l' ip :=
  h.countP_eq _

/-- An open file of this inode. -/
def File.Uses (f : File) (ip : InodeId) : Prop :=
  0 < f.ref ∧ (f.type = .inode ∨ f.type = .device) ∧ f.ip = ip

instance (f : File) (ip : InodeId) : Decidable (f.Uses ip) :=
  inferInstanceAs (Decidable (_ ∧ _))

/-- The open files that point to an entry. -/
def View.files (v : View) (ip : InodeId) : Nat := tally v.ftable fun f => f.Uses ip

/-- The current directories that point to an entry. -/
def View.cwds (v : View) (ip : InodeId) : Nat := tally v.proc fun x => x.cwd = some ip

structure Inodes (v : View) (H O : List Hold) (W L : List InodeId) : Prop where
  refs : ∀ ip, (v.slot ip).ref = v.files ip + v.cwds ip + holds H ip + holds O ip - W.count ip
  owed : ∀ ip, W.count ip ≤ v.cwds ip
  held : ∀ h, h ∈ H ∨ h ∈ O → (v.slot h.1).inum = h.2
  locked : ∀ ip, (v.slot ip).locked = true ↔ ip ∈ L
  locked_held : ∀ ip, ip ∈ L → 0 < holds H ip + holds O ip ∧ (v.slot ip).valid = true
  /-- An inode without links is in the table, and not only because the call looks at it. -/
  orphan : ∀ i, (v.node i).type ≠ .free → (v.node i).nlink = 0 →
    ∃ ip, (v.slot ip).inum = i ∧ (v.slot ip).valid = true ∧ (holds H ip : Int) < (v.slot ip).ref
  file : ∀ f, 0 < (v.ftable f).ref → (v.ftable f).type = .inode ∨ (v.ftable f).type = .device →
    (v.slot (v.ftable f).ip).valid = true
  /-- What can be written through a file is not a directory. -/
  writable : ∀ f, 0 < (v.ftable f).ref → (v.ftable f).type = .inode →
    (v.ftable f).writable = true → (v.node (v.slot (v.ftable f).ip).inum).type = .file
  cwd : ∀ ip, W.count ip < v.cwds ip → (v.node (v.slot ip).inum).type = .dir

/-- Only the inode table differs, and in it no current directory. -/
structure SlotsOnly (v v' : View) : Prop where
  node : v'.node = v.node
  ftable : v'.ftable = v.ftable
  pipe : v'.pipe = v.pipe
  proc : v'.proc = v.proc
  inum : ∀ ip, 0 < v.cwds ip → (v'.slot ip).inum = (v.slot ip).inum

theorem SlotsOnly.refl (v : View) : SlotsOnly v v := ⟨rfl, rfl, rfl, rfl, fun _ _ => rfl⟩

theorem SlotsOnly.withSlot (v : View) (ip : InodeId) (x : Slot)
    (hx : 0 < v.cwds ip → x.inum = (v.slot ip).inum) : SlotsOnly v (v.withSlot ip x) := by
  refine ⟨rfl, rfl, rfl, rfl, fun jp hj => ?_⟩
  rw [View.withSlot_slot, update_apply]
  grind

theorem SlotsOnly.files {v v' : View} (h : SlotsOnly v v') (ip : InodeId) :
    v'.files ip = v.files ip := by
  unfold View.files
  rw [h.ftable]

theorem SlotsOnly.cwds {v v' : View} (h : SlotsOnly v v') (ip : InodeId) :
    v'.cwds ip = v.cwds ip := by
  unfold View.cwds
  rw [h.proc]

theorem SlotsOnly.trans {v v' v'' : View} (h : SlotsOnly v v') (h' : SlotsOnly v' v'') :
    SlotsOnly v v'' :=
  ⟨h'.node.trans h.node, h'.ftable.trans h.ftable, h'.pipe.trans h.pipe, h'.proc.trans h.proc,
    fun ip hc => (h'.inum ip (by rwa [h.cwds])).trans (h.inum ip hc)⟩

theorem SlotsOnly.withNode {v v' : View} (h : SlotsOnly v v') (i : Nat) (n : Node) :
    SlotsOnly (v.withNode i n) (v'.withNode i n) :=
  ⟨by rw [View.withNode_node, View.withNode_node, h.node], h.ftable, h.pipe, h.proc, h.inum⟩

/-! ## Changes to one entry -/

section Entries

variable {v : View} {ip jp : InodeId} {x : Slot} {i j : Nat} {n : Node}

@[grind =] theorem View.slot_withSlot : (v.withSlot ip x).slot jp = if jp = ip then x else v.slot jp :=
  update_apply ..

@[grind =] theorem View.node_withNode : (v.withNode i n).node j = if j = i then n else v.node j :=
  update_apply ..

@[grind =] theorem View.node_withSlot : (v.withSlot ip x).node j = v.node j := rfl

@[grind =] theorem View.slot_withNode : (v.withNode i n).slot ip = v.slot ip := rfl

@[grind =] theorem View.ftable_withSlot {f : FileId} : (v.withSlot ip x).ftable f = v.ftable f := rfl

@[grind =] theorem View.ftable_withNode {f : FileId} : (v.withNode i n).ftable f = v.ftable f := rfl

attribute [grind =] Slot.addRef_inum Slot.addRef_ref Slot.addRef_locked Slot.addRef_valid
  Slot.setLocked_inum Slot.setLocked_ref Slot.setLocked_locked Slot.setLocked_valid
  Slot.acquired_inum Slot.acquired_ref Slot.acquired_locked Slot.acquired_valid
  Slot.dropped_inum Slot.dropped_ref Slot.dropped_locked Slot.dropped_valid
  Slot.claim_inum Slot.claim_ref Slot.claim_locked Slot.claim_valid

end Entries

section Inodes

variable {v v' : View} {H O : List Hold} {W L : List InodeId} {ip : InodeId} {i : Nat}

theorem Inodes.ref_pos (h : Inodes v H O W L) (hh : 0 < holds H ip + holds O ip) :
    0 < (v.slot ip).ref := by
  have := h.refs ip
  have := h.owed ip
  omega

theorem Inodes.ref_pos_of_mem (h : Inodes v H O W L) {x : Hold} (hx : x ∈ H ∨ x ∈ O) :
    0 < (v.slot x.1).ref := by
  refine h.ref_pos ?_
  rcases hx with hx | hx
  · have := holds_pos hx
    omega
  · have := holds_pos hx
    omega

/-- An entry that is not in use is referred to by nobody. -/
theorem Inodes.unused (h : Inodes v H O W L) (hr : (v.slot ip).ref = 0) :
    holds H ip = 0 ∧ holds O ip = 0 ∧ v.files ip = 0 ∧ v.cwds ip = W.count ip := by
  have := h.refs ip
  have := h.owed ip
  omega

theorem View.files_pos {f : FileId} (hr : 0 < (v.ftable f).ref)
    (ht : (v.ftable f).type = .inode ∨ (v.ftable f).type = .device) :
    0 < v.files (v.ftable f).ip :=
  tally_pos_of ⟨hr, ht, rfl⟩

theorem View.cwds_pos {p : ProcId} (hp : (v.proc p).cwd = some ip) : 0 < v.cwds ip :=
  tally_pos_of hp

/-- An open file keeps its inode in the table. -/
theorem Inodes.ref_pos_of_file (h : Inodes v H O W L) (hf : 0 < v.files ip) :
    0 < (v.slot ip).ref := by
  have := h.refs ip
  have := h.owed ip
  omega

theorem Inodes.ref_pos_of_cwd (h : Inodes v H O [] L) (hc : 0 < v.cwds ip) :
    0 < (v.slot ip).ref := by
  have := h.refs ip
  simp at this
  omega

theorem Inodes.perm {H' O' : List Hold} (h : Inodes v H O W L) (hH : H.Perm H') (hO : O.Perm O') :
    Inodes v H' O' W L := by
  refine ⟨fun x => ?_, h.owed, fun x hx => h.held x ?_, h.locked, fun x hx => ?_, fun j ht hn => ?_,
    h.file, h.writable, h.cwd⟩
  · rw [← holds_perm hH, ← holds_perm hO]
    exact h.refs x
  · exact hx.imp hH.mem_iff.2 hO.mem_iff.2
  · rw [← holds_perm hH, ← holds_perm hO]
    exact h.locked_held x hx
  · obtain ⟨jp, h1, h2, h3⟩ := h.orphan j ht hn
    exact ⟨jp, h1, h2, by rwa [← holds_perm hH]⟩

theorem Inodes.permLocks {L' : List InodeId} (h : Inodes v H O W L) (hL : L.Perm L') :
    Inodes v H O W L' :=
  ⟨h.refs, h.owed, h.held, fun x => (h.locked x).trans hL.mem_iff,
    fun x hx => h.locked_held x (hL.mem_iff.2 hx), h.orphan, h.file, h.writable, h.cwd⟩

/-- The call takes responsibility for an inode it has looked at. -/
theorem Inodes.own (h : Inodes v ((ip, i) :: H) O W L) : Inodes v H ((ip, i) :: O) W L := by
  refine ⟨fun x => ?_, h.owed, fun x hx => h.held x (by grind), h.locked, fun x hx => ?_,
    fun j ht hn => ?_, h.file, h.writable, h.cwd⟩
  · grind [h.refs x]
  · grind [h.locked_held x hx]
  · obtain ⟨jp, h1, h2, h3⟩ := h.orphan j ht hn
    exact ⟨jp, h1, h2, by grind⟩

/-- A change of the table that keeps what is referred to. -/
theorem Inodes.change {H' O' : List Hold} {L' : List InodeId} (h : Inodes v H O W L)
    (hs : SlotsOnly v v')
    (hkeep : ∀ x, 0 < (v.slot x).ref →
      (v'.slot x).inum = (v.slot x).inum ∧ ((v.slot x).valid = true → (v'.slot x).valid = true))
    (hrefs : ∀ x, (v'.slot x).ref + holds H x + holds O x =
      (v.slot x).ref + holds H' x + holds O' x)
    (hheld : ∀ x, x ∈ H' ∨ x ∈ O' → (v'.slot x.1).inum = x.2)
    (hlocked : ∀ x, (v'.slot x).locked = true ↔ x ∈ L')
    (hlocked_held : ∀ x, x ∈ L' → 0 < holds H' x + holds O' x ∧ (v'.slot x).valid = true)
    (horphan : ∀ x, (v.slot x).ref + holds H' x ≤ (v'.slot x).ref + holds H x) :
    Inodes v' H' O' W L' := by
  refine ⟨fun x => ?_, fun x => ?_, hheld, hlocked, hlocked_held, fun j ht hn => ?_,
    fun f hr ht => ?_, fun f hr ht hw => ?_, fun x hx => ?_⟩
  · have := h.refs x
    have := hrefs x
    rw [hs.files, hs.cwds]
    omega
  · rw [hs.cwds]
    exact h.owed x
  · rw [hs.node] at ht hn
    obtain ⟨jp, h1, h2, h3⟩ := h.orphan j ht hn
    obtain ⟨hinum, hvalid⟩ := hkeep jp (by omega)
    have := horphan jp
    exact ⟨jp, hinum.trans h1, hvalid h2, by omega⟩
  · rw [hs.ftable] at hr ht ⊢
    exact (hkeep _ (h.ref_pos_of_file (View.files_pos hr ht))).2 (h.file f hr ht)
  · rw [hs.ftable] at hr ht hw ⊢
    rw [hs.node, (hkeep _ (h.ref_pos_of_file (View.files_pos hr (Or.inl ht)))).1]
    exact h.writable f hr ht hw
  · rw [hs.cwds] at hx
    have := h.refs x
    rw [hs.node, (hkeep x (by omega)).1]
    exact h.cwd x hx

/-- One more reference to an entry in use. -/
theorem Inodes.hold (h : Inodes v H O W L) (hi : (v.slot ip).inum = i) :
    Inodes (v.withSlot ip ((v.slot ip).addRef 1)) ((ip, i) :: H) O W L := by
  refine h.change (SlotsOnly.withSlot _ _ _ (fun _ => rfl)) (fun x _ => by grind) (fun x => by grind)
    (fun x hx => ?_) (fun x => ?_) (fun x hx => ?_) (fun x => by grind)
  · grind [h.held x]
  · grind [h.locked x]
  · grind [h.locked_held x hx]

/-- One reference less, of those the call only looks with. -/
theorem Inodes.put (h : Inodes v ((ip, i) :: H) O W L)
    (hl : ip ∈ L → 0 < holds H ip + holds O ip) :
    Inodes (v.withSlot ip ((v.slot ip).addRef (-1))) H O W L := by
  refine h.change (SlotsOnly.withSlot _ _ _ (fun _ => rfl)) (fun x _ => by grind) (fun x => by grind)
    (fun x hx => ?_) (fun x => ?_) (fun x hx => ?_) (fun x => by grind)
  · grind [h.held x]
  · grind [h.locked x]
  · grind [h.locked_held x hx]

theorem Inodes.slotsOnly_claim (h : Inodes v H O [] L) (hr : (v.slot ip).ref = 0) :
    SlotsOnly v (v.withSlot ip ((v.slot ip).claim i)) :=
  SlotsOnly.withSlot _ _ _ (fun hc => absurd (h.ref_pos_of_cwd hc) (by omega))

/-- An entry that was not in use is given to an inode that was not in the table. -/
theorem Inodes.claim (h : Inodes v H O [] L) (hr : (v.slot ip).ref = 0) :
    Inodes (v.withSlot ip ((v.slot ip).claim i)) ((ip, i) :: H) O [] L := by
  obtain ⟨hH, hO, -, -⟩ := h.unused hr
  have hunlocked : ip ∉ L := fun hip => by
    have := (h.locked_held ip hip).1
    omega
  have hnot : ∀ x : Hold, x ∈ H ∨ x ∈ O → x.1 ≠ ip := by
    rintro x hx rfl
    have := h.ref_pos_of_mem hx
    omega
  refine h.change (h.slotsOnly_claim hr) (fun x hx => by grind) (fun x => by grind) (fun x hx => ?_)
    (fun x => ?_) (fun x hx => ?_) (fun x => by grind)
  · grind [h.held x, hnot x]
  · grind [h.locked x]
  · grind [h.locked_held x hx]

/-- `ilock` of an inode that the call holds. -/
theorem Inodes.lock (h : Inodes v H O W L) (hh : 0 < holds H ip + holds O ip) :
    Inodes (v.withSlot ip (v.slot ip).acquired) H O W (ip :: L) := by
  refine h.change (SlotsOnly.withSlot _ _ _ (fun _ => rfl)) (fun x _ => by grind) (fun x => by grind)
    (fun x hx => ?_) (fun x => ?_) (fun x hx => ?_) (fun x => by grind)
  · grind [h.held x hx]
  · grind [h.locked x]
  · have hheld := h.locked_held x
    grind

theorem Inodes.unlock (h : Inodes v H O W (ip :: L)) (hip : ip ∉ L) :
    Inodes (v.withSlot ip ((v.slot ip).setLocked false)) H O W L := by
  refine h.change (SlotsOnly.withSlot _ _ _ (fun _ => rfl)) (fun x _ => by grind) (fun x => by grind)
    (fun x hx => ?_) (fun x => ?_) (fun x hx => ?_) (fun x => by grind)
  · grind [h.held x hx]
  · grind [h.locked x]
  · have hheld := h.locked_held x
    grind

/-- The call gives up a reference it is responsible for, and the inode stays. -/
theorem Inodes.putOwn (h : Inodes v H ((ip, i) :: O) W L) (hH : holds H ip = 0)
    (hl : ip ∈ L → 0 < holds O ip)
    (hstay : ¬ ((v.slot ip).ref = 1 ∧ (v.slot ip).valid = true ∧ (v.node i).nlink = 0)) :
    Inodes (v.withSlot ip ((v.slot ip).addRef (-1))) H O W L := by
  have hs := SlotsOnly.withSlot v ip ((v.slot ip).addRef (-1)) (fun _ => rfl)
  have hinum : (v.slot ip).inum = i := h.held (ip, i) (Or.inr List.mem_cons_self)
  refine ⟨fun x => ?_, fun x => ?_, fun x hx => ?_, fun x => ?_, fun x hx => ?_, fun j ht hn => ?_,
    fun f => ?_, fun f => ?_, fun x => ?_⟩
  · rw [hs.files, hs.cwds]
    grind [h.refs x]
  · rw [hs.cwds]
    exact h.owed x
  · grind [h.held x]
  · grind [h.locked x]
  · grind [h.locked_held x hx]
  · -- an inode without links stays because there is another reference
    obtain ⟨jp, h1, h2, h3⟩ := h.orphan j ht hn
    exact ⟨jp, by grind, by grind, by grind⟩
  · grind [h.file f]
  · grind [h.writable f]
  · rw [hs.cwds]
    grind [h.cwd x]

/-- The last reference to an inode without links is given up, and the inode is freed. -/
theorem Inodes.putLast {sb : Superblock} (hok : v.Ok sb) (h : Inodes v H ((ip, i) :: O) W L)
    (hr : (v.slot ip).ref = 1) (hfree : (v.slot ip).locked = false) :
    Inodes ((v.withSlot ip ((v.slot ip).dropped.addRef (-1))).withNode i Node.free) H O W L := by
  have hinum : (v.slot ip).inum = i := h.held (ip, i) (Or.inr List.mem_cons_self)
  have hcount := h.refs ip
  have howed := h.owed ip
  rw [holds_cons, if_pos rfl, hr] at hcount
  have hne_file : ∀ f, 0 < (v.ftable f).ref →
      (v.ftable f).type = .inode ∨ (v.ftable f).type = .device → (v.ftable f).ip ≠ ip := by
    rintro f hf ht rfl
    have := View.files_pos hf ht
    omega
  refine ⟨fun x => ?_, h.owed, fun x hx => ?_, fun x => ?_, fun x hx => ?_, fun j ht hn => ?_,
    fun f hf ht => ?_, fun f hf ht hw => ?_, fun x hx => ?_⟩
  · show _ = (v.files x : Int) + v.cwds x + holds H x + holds O x - W.count x
    grind [h.refs x]
  · grind [h.held x]
  · grind [h.locked x]
  · grind [h.locked_held x hx, h.locked x]
  · have hji : j ≠ i := by grind [Node.free]
    obtain ⟨jp, h1, h2, h3⟩ := h.orphan j (by grind) (by grind)
    exact ⟨jp, by grind, by grind, by grind⟩
  · grind [hne_file f hf ht, h.file f hf ht]
  · have hne := hne_file f hf (Or.inl ht)
    have hpos := h.ref_pos_of_file (View.files_pos hf (Or.inl ht))
    have hother : (v.slot (v.ftable f).ip).inum ≠ i := fun he =>
      hne (hok.unique _ _ hpos (by omega) (he.trans hinum.symm))
    grind [h.writable f hf ht hw]
  · change W.count x < v.cwds x at hx
    have hrx := h.refs x
    have hne : x ≠ ip := by
      rintro rfl
      omega
    have hother : (v.slot x).inum ≠ i := fun he =>
      hne (hok.unique _ _ (by omega) (by omega) (he.trans hinum.symm))
    grind [h.cwd x hx]

/-- A node changes that the call is responsible for, or one that keeps its links. -/
theorem Inodes.setNode {n : Node} (h : Inodes v H O W L) (htype : n.type = (v.node i).type)
    (horphan : n.nlink = 0 → (v.node i).nlink = 0 ∨ ∃ jp, (v.slot jp).inum = i ∧
      (v.slot jp).valid = true ∧ (holds H jp : Int) < (v.slot jp).ref) :
    Inodes (v.withNode i n) H O W L := by
  refine ⟨h.refs, h.owed, h.held, h.locked, h.locked_held, fun j ht hn => ?_, h.file,
    fun f hf ht hw => ?_, fun x hx => ?_⟩
  · have hold := h.orphan j
    grind
  · grind [h.writable f hf ht hw]
  · grind [h.cwd x hx]

/-- An inode the call is responsible for is not kept by lookers only. -/
theorem Inodes.own_lt (h : Inodes v H O W L) (hh : 0 < holds O ip) :
    (holds H ip : Int) < (v.slot ip).ref := by
  have := h.refs ip
  have := h.owed ip
  omega

/-- The node of an inode that was free, when no valid copy of it is around. -/
theorem Inodes.setFresh {n : Node} (h : Inodes v H O W L) (hfree : (v.node i).type = .free)
    (hno : ∀ f, 0 < (v.ftable f).ref → (v.ftable f).type = .inode →
      (v.slot (v.ftable f).ip).inum ≠ i)
    (hx : ∃ jp, (v.slot jp).inum = i ∧ (v.slot jp).valid = true ∧
      (holds H jp : Int) < (v.slot jp).ref) :
    Inodes (v.withNode i n) H O W L := by
  refine ⟨h.refs, h.owed, h.held, h.locked, h.locked_held, fun j ht hn => ?_, h.file,
    fun f hf ht hw => ?_, fun x hx => ?_⟩
  · have hold := h.orphan j
    grind
  · grind [h.writable f hf ht hw, hno f hf ht]
  · grind [h.cwd x hx]

end Inodes

/-! ## Rules -/

/-- The errors that taking and giving references can end in. -/
structure Errs (E : Stop → Prop) : Prop where
  stuck : E .stuck
  noInodes : E (.panic .igetNoInodes)

/-- Only the inode table differs, but for an inode without links that may have been freed. -/
structure Put (v v' : View) (i : Nat) : Prop where
  node : v'.node = v.node ∨
    (v.node i).nlink = 0 ∧ v'.node = update v.node i Node.free
  ftable : v'.ftable = v.ftable
  pipe : v'.pipe = v.pipe
  proc : v'.proc = v.proc
  inum : ∀ ip, 0 < v.cwds ip → (v'.slot ip).inum = (v.slot ip).inum

section Rules

variable {sb : Superblock} {E : Stop → Prop} {v : View} {H O : List Hold} {W L : List InodeId}
  {Q : Unit → View → Prop}
  {ip : InodeId} {i : Nat} {R : View → State → Prop} [Tracks sb R]

/-- The entries of the inode table that no file and no current directory points to. -/
def View.spare (v : View) : Nat := tally (fun ip => v.files ip + v.cwds ip) fun n => n = 0

theorem SlotsOnly.spare {v v' : View} (h : SlotsOnly v v') : v'.spare = v.spare :=
  tally_congr (fun ip => by rw [h.files, h.cwds])

/-- Each reference of the running call takes up at most one entry. -/
theorem Inodes.exists_unused (h : Inodes v H O [] L) (hroom : H.length + O.length < v.spare) :
    ∃ ip, (v.slot ip).ref = 0 := by
  have hlt : ((H ++ O).map Prod.fst).toFinset.card <
      (Finset.univ.filter fun ip => v.files ip + v.cwds ip = 0).card := by
    refine Nat.lt_of_le_of_lt (List.toFinset_card_le _) ?_
    rw [List.length_map, List.length_append]
    exact hroom
  obtain ⟨ip, hip, hno⟩ := Finset.exists_mem_notMem_of_card_lt_card hlt
  have hzero : ∀ l : List Hold, l ⊆ H ++ O → holds l ip = 0 := fun l hl =>
    List.countP_eq_zero.2 (fun x hx he => hno (List.mem_toFinset.2
      (List.mem_map.2 ⟨x, hl hx, of_decide_eq_true he⟩)))
  have hrefs := h.refs ip
  rw [hzero H (List.subset_append_left H O), hzero O (List.subset_append_right H O),
    List.count_nil] at hrefs
  have hnone := (Finset.mem_filter.1 hip).2
  exact ⟨ip, by omega⟩

/-- `iget` fails only if the table is full. -/
theorem Inodes.rwp_iget_room {Q : InodeId → View → Prop} (h : Inodes v H O [] L)
    (hfull : v.spare ≤ H.length + O.length → E (.panic .igetNoInodes))
    (hi : 0 < i ∧ i < sb.ninodes)
    (hQ : ∀ ip v', Inodes v' ((ip, i) :: H) O [] L → SlotsOnly v v' → Q ip v') :
    rwp R (iget i) Q E v := by
  refine Fs.rwp_iget hi (fun ip _ hinum => ?_) (fun ip _ hr => ?_) (fun hused => hfull ?_)
  · exact hQ ip _ (h.hold hinum) (SlotsOnly.withSlot _ _ _ (fun _ => rfl))
  · exact hQ ip _ (h.claim hr) (h.slotsOnly_claim hr)
  · by_contra hroom
    obtain ⟨ip, hip⟩ := h.exists_unused (Nat.lt_of_not_le hroom)
    exact hused ip hip

include sb in
theorem Inodes.rwp_idup {Q : InodeId → View → Prop} (h : Inodes v H O W L)
    (hr : 0 < (v.slot ip).ref)
    (hQ : ∀ v', Inodes v' ((ip, (v.slot ip).inum) :: H) O W L → SlotsOnly v v' → Q ip v') :
    rwp R (idup ip) Q E v :=
  Fs.rwp_idup hr (hQ _ (h.hold rfl) (SlotsOnly.withSlot _ _ _ (fun _ => rfl)))

theorem Inodes.holds_pos (_h : Inodes v H O W L) (hm : (ip, i) ∈ H ∨ (ip, i) ∈ O) :
    0 < holds H ip + holds O ip := by
  rcases hm with hm | hm
  · have := Fs.holds_pos hm
    simp only at this
    omega
  · have := Fs.holds_pos hm
    simp only at this
    omega

/-- `ilock` of an entry that is not locked. -/
theorem Inodes.rwp_ilock_free (h : Inodes v H O W L) (hstuck : ip ∈ L → E .stuck)
    (hm : (ip, i) ∈ H ∨ (ip, i) ∈ O) (hfree : (v.node i).type = .free → E (.panic .ilockNoType))
    (hQ : ∀ v', ip ∉ L → (v.node i).type ≠ .free → Inodes v' H O W (ip :: L) → SlotsOnly v v' →
      Q () v') : rwp R (ilock sb ip) Q E v := by
  have hinum : (v.slot ip).inum = i := h.held (ip, i) hm
  refine Fs.rwp_ilock (h.ref_pos_of_mem hm) (fun hlocked htype => ?_)
    (fun hlocked => hstuck ((h.locked ip).1 hlocked)) (fun htype => ?_)
  · refine hQ _ (fun hip => ?_) (by rwa [← hinum]) (h.lock (h.holds_pos hm))
      (SlotsOnly.withSlot _ _ _ (fun _ => rfl))
    rw [← h.locked, hlocked] at hip
    cases hip
  · rw [hinum] at htype
    exact hfree htype

theorem Inodes.rwp_ilock (h : Inodes v H O W L) (hE : Errs E) (hm : (ip, i) ∈ H ∨ (ip, i) ∈ O)
    (hfree : (v.node i).type = .free → E (.panic .ilockNoType))
    (hQ : ∀ v', ip ∉ L → (v.node i).type ≠ .free → Inodes v' H O W (ip :: L) → SlotsOnly v v' →
      Q () v') : rwp R (ilock sb ip) Q E v :=
  h.rwp_ilock_free (fun _ => hE.stuck) hm hfree hQ

include sb in
theorem Inodes.rwp_iunlock (h : Inodes v H O W (ip :: L)) (hip : ip ∉ L)
    (hQ : ∀ v', Inodes v' H O W L → SlotsOnly v v' → Q () v') :
    rwp R (iunlock ip) Q E v :=
  Fs.rwp_iunlock (h.ref_pos (h.locked_held ip List.mem_cons_self).1)
    ((h.locked ip).2 List.mem_cons_self) (hQ _ (h.unlock hip) (SlotsOnly.withSlot _ _ _ (fun _ => rfl)))

/-- `iput` of a reference that was only looked at: the inode has another one. -/
theorem Inodes.rwp_iput (h : Inodes v ((ip, i) :: H) O W L)
    (hl : ip ∈ L → 0 < holds H ip + holds O ip)
    (hQ : ∀ v', Inodes v' H O W L → SlotsOnly v v' → Q () v') :
    rwp R (iput sb ip) Q E v := by
  have hm : (ip, i) ∈ (ip, i) :: H ∨ (ip, i) ∈ O := Or.inl List.mem_cons_self
  have hlast : v.Ok sb → ¬ v.Last ip := by
    rintro hok ⟨h1, hv, hn⟩
    have htype := hok.valid ip (h.ref_pos_of_mem hm) hv
    obtain ⟨jp, hj1, hj2, hj3⟩ := h.orphan _ htype hn
    have hjp : jp = ip := hok.unique jp ip (by omega) (by omega) hj1
    subst hjp
    rw [holds_cons, if_pos rfl, h1] at hj3
    omega
  exact rwp_ok (fun hok => Fs.rwp_iput_keep (h.ref_pos_of_mem hm) (hlast hok)
    (hQ _ (h.put hl) (SlotsOnly.withSlot _ _ _ (fun _ => rfl))))

/-- If an inode is freed, nobody else refers to it. -/
theorem Inodes.last (h : Inodes v H ((ip, i) :: O) W L) (hok : v.Ok sb)
    (hr : (v.slot ip).ref = 1) (x : Hold) (hx : x ∈ H ∨ x ∈ O) : x.2 ≠ i := by
  have hinum : (v.slot ip).inum = i := h.held (ip, i) (Or.inr List.mem_cons_self)
  have howed := h.owed ip
  have hrefs := h.refs ip
  rw [holds_cons, if_pos rfl, hr] at hrefs
  rintro rfl
  have hx' : x ∈ H ∨ x ∈ (ip, x.2) :: O := hx.imp_right (List.mem_cons_of_mem _)
  have hxp : x.1 = ip := hok.unique _ _ (h.ref_pos_of_mem hx') (by omega)
    ((h.held x hx').trans hinum.symm)
  rcases hx with hx | hx
  · have := Fs.holds_pos hx
    rw [hxp] at this
    omega
  · have := Fs.holds_pos hx
    rw [hxp] at this
    omega

theorem Inodes.rwp_iputOwn [LogErrs E] (h : Inodes v H ((ip, i) :: O) W L) (hE : Errs E)
    (hH : holds H ip = 0) (hl : ip ∈ L → 0 < holds O ip)
    (hQ : ∀ v', Inodes v' H O W L → Put v v' i →
      (∀ x : Hold, x ∈ H ∨ x ∈ O → v'.node x.2 = v.node x.2) → Q () v') :
    rwp (Rep sb) (iput sb ip) Q E v := by
  have hm : (ip, i) ∈ H ∨ (ip, i) ∈ (ip, i) :: O := Or.inr List.mem_cons_self
  have hinum : (v.slot ip).inum = i := h.held (ip, i) hm
  refine rwp_ok (fun hok => Fs.rwp_iput (h.ref_pos_of_mem hm) (fun hstay => ?_)
    (fun hlast hfree => ?_) (fun _ _ => hE.stuck))
  · rw [View.Last, hinum] at hstay
    exact hQ _ (h.putOwn hH hl hstay) ⟨Or.inl rfl, rfl, rfl, rfl,
      fun jp _ => by grind⟩ (fun _ _ => rfl)
  · obtain ⟨h1, -, hn⟩ := hlast
    rw [hinum] at hn ⊢
    exact hQ _ (h.putLast hok h1 hfree) ⟨Or.inr ⟨hn, rfl⟩, rfl, rfl, rfl,
      fun jp _ => by grind⟩
      (fun x hx => update_of_ne (h.last hok h1 x hx) _ _)

theorem Inodes.rwp_iunlockput (h : Inodes v ((ip, i) :: H) O W (ip :: L)) (hip : ip ∉ L)
    (hQ : ∀ v', Inodes v' H O W L → SlotsOnly v v' → Q () v') :
    rwp R (iunlockput sb ip) Q E v :=
  rwp_bind (h.rwp_iunlock hip (fun _ h₁ hs₁ => h₁.rwp_iput (fun hm => absurd hm hip)
    (fun v₂ h₂ hs₂ => hQ v₂ h₂ (hs₁.trans hs₂))))

theorem Inodes.rwp_iunlockputOwn [LogErrs E] (h : Inodes v H ((ip, i) :: O) W (ip :: L))
    (hE : Errs E) (hH : holds H ip = 0) (hip : ip ∉ L) (hQ : ∀ v', Inodes v' H O W L → Put v v' i →
      (∀ x : Hold, x ∈ H ∨ x ∈ O → v'.node x.2 = v.node x.2) → Q () v') :
    rwp (Rep sb) (iunlockput sb ip) Q E v := by
  refine rwp_bind (h.rwp_iunlock hip (fun v₁ h₁ hs₁ => h₁.rwp_iputOwn hE hH
    (fun hm => absurd hm hip) (fun v₂ h₂ hp hkeep => hQ v₂ h₂ ?_
      (fun x hx => by rw [hkeep x hx, hs₁.node]))))
  refine ⟨?_, hp.ftable.trans hs₁.ftable, hp.pipe.trans hs₁.pipe, hp.proc.trans hs₁.proc,
    fun jp hj => (hp.inum jp (by rwa [hs₁.cwds])).trans (hs₁.inum jp hj)⟩
  rw [← hs₁.node]
  exact hp.node

/-- `iunlockput` of an inode without links that nobody else refers to. -/
theorem Inodes.rwp_iunlockputLast_watched [LogErrs E] {u : Nat × Nat → Nat} {Q : Unit → Watch → Prop}
    (h : Inodes v H ((ip, i) :: O) W (ip :: L)) (hE : Errs E) (hip : ip ∉ L)
    (hlast : v.files ip = 0 ∧ v.cwds ip = 0 ∧ holds H ip = 0 ∧ holds O ip = 0)
    (hnlink : (v.node i).nlink = 0)
    (hQ : ∀ v', Inodes v' H O W L → SlotsOnly (v.withNode i Node.free) v' →
      Q () (some (v', withoutBlocks u i))) :
    rwp (RepW sb) (iunlockput sb ip) Q E (some (v, u)) := by
  obtain ⟨hfiles, hcwds, hH, hO⟩ := hlast
  have hv := (h.locked_held ip List.mem_cons_self).2
  refine rwp_bind (rwp_tracked (Fs.rwp_iunlock (h.ref_pos (h.locked_held ip List.mem_cons_self).1)
    ((h.locked ip).2 List.mem_cons_self) ?_))
  have h₁ := h.unlock hip
  have hm : (ip, i) ∈ H ∨ (ip, i) ∈ (ip, i) :: O := Or.inr List.mem_cons_self
  have hinum : (v.slot ip).inum = i := h.held (ip, i) hm
  have hone : (v.slot ip).ref = 1 := by
    have := h.owed ip
    have := h.refs ip
    rw [holds_cons, if_pos rfl] at this
    omega
  refine rwp_watched_ok (fun hok => Fs.rwp_iput_watched (h₁.ref_pos_of_mem hm) (fun hstay => ?_)
    (fun hlast hfree => ?_) (fun _ _ => hE.stuck))
  · exact absurd ⟨by grind, by grind, by grind⟩ hstay
  · have hi : ((v.withSlot ip ((v.slot ip).setLocked false)).slot ip).inum = i := by grind
    rw [hi]
    exact hQ _ (h₁.putLast hok hlast.1 hfree) ⟨rfl, rfl, rfl, rfl, fun jp _ => by grind⟩

/-- `iput` of an inode that has links, or that a file or a current directory keeps. -/
theorem Inodes.rwp_iputStay (h : Inodes v H ((ip, i) :: O) [] L) (hH : holds H ip = 0)
    (hl : ip ∈ L → 0 < holds O ip) (hstay : (v.node i).nlink = 0 → 0 < v.files ip + v.cwds ip)
    (hQ : ∀ v', Inodes v' H O [] L → SlotsOnly v v' → Q () v') :
    rwp R (iput sb ip) Q E v := by
  have hm : (ip, i) ∈ H ∨ (ip, i) ∈ (ip, i) :: O := Or.inr List.mem_cons_self
  have hinum : (v.slot ip).inum = i := h.held (ip, i) hm
  have hkeep : ¬ ((v.slot ip).ref = 1 ∧ (v.slot ip).valid = true ∧ (v.node i).nlink = 0) := by
    rintro ⟨h1, -, hn⟩
    have hused := hstay hn
    have hrefs := h.refs ip
    rw [holds_cons, if_pos rfl, List.count_nil, h1] at hrefs
    omega
  exact Fs.rwp_iput_keep (h.ref_pos_of_mem hm) (by rwa [View.Last, hinum])
    (hQ _ (h.putOwn hH hl hkeep) (SlotsOnly.withSlot _ _ _ (fun _ => rfl)))

theorem Inodes.rwp_iunlockputStay (h : Inodes v H ((ip, i) :: O) [] (ip :: L)) (hH : holds H ip = 0)
    (hip : ip ∉ L) (hstay : (v.node i).nlink = 0 → 0 < v.files ip + v.cwds ip)
    (hQ : ∀ v', Inodes v' H O [] L → SlotsOnly v v' → Q () v') :
    rwp R (iunlockput sb ip) Q E v :=
  rwp_bind (h.rwp_iunlock hip (fun v₁ h₁ hs₁ => h₁.rwp_iputStay hH (fun hm => absurd hm hip)
    (by rw [hs₁.node, hs₁.files, hs₁.cwds]; exact hstay)
    (fun v₂ h₂ hs₂ => hQ v₂ h₂ (hs₁.trans hs₂))))

/-- An inode without links that the call looks at is kept by a file or a current directory. -/
theorem Inodes.used_of_orphan (h : Inodes v H [] [] L) (hok : v.Ok sb) (hm : (ip, i) ∈ H)
    (htype : (v.node i).type ≠ .free) (hn : (v.node i).nlink = 0) :
    0 < v.files ip + v.cwds ip := by
  obtain ⟨jp, hj, -, hlt⟩ := h.orphan i htype hn
  have hjp : jp = ip := hok.unique jp ip (by omega) (h.ref_pos_of_mem (Or.inl hm))
    (hj.trans (h.held (ip, i) (Or.inl hm)).symm)
  subst hjp
  have hrefs := h.refs jp
  rw [holds_nil, List.count_nil] at hrefs
  omega

include sb in
/-- Looking at an inode that is locked. -/
theorem Inodes.rwp_getInode {Q : Inode → View → Prop} (h : Inodes v H O W L) (hip : ip ∈ L)
    (hm : (ip, i) ∈ H ∨ (ip, i) ∈ O) (hQ : ∀ x : Inode, x.inum = i → x.Is (v.node i) → Q x v) :
    rwp R (getInode ip) Q E v := by
  have hinum : (v.slot ip).inum = i := h.held (ip, i) hm
  refine Fs.rwp_getInode (fun x hx his => hQ x ?_ ?_)
  · rw [← hinum, ← hx]
    rfl
  · rw [← hinum]
    exact his (h.ref_pos_of_mem hm) (h.locked_held ip hip).2

theorem Inodes.withBytes (h : Inodes v H O W L) (bytes : List UInt8) :
    Inodes (v.withNode i ((v.node i).withBytes bytes)) H O W L :=
  h.setNode rfl (fun hn => Or.inl hn)

theorem Inodes.rwp_readi {dst : Nat → Bool} {off n : Nat} {Q : Int × List UInt8 → View → Prop}
    (h : Inodes v H O W L) (hip : ip ∈ L) (hm : (ip, i) ∈ H ∨ (ip, i) ∈ O) (hn : n < 2 ^ 32)
    (hQ : ∀ r bytes, ((∀ k, k < n → dst k = true) →
      bytes = (if off + n < 2 ^ 32 then readBytes (v.node i).bytes off n else []) ∧
      r = (bytes.length : Int)) → Q (r, bytes) v) :
    rwp R (readi sb ip dst off n) Q E v := by
  have hinum : (v.slot ip).inum = i := h.held (ip, i) hm
  refine Fs.rwp_readi (h.ref_pos_of_mem hm) (h.locked_held ip hip).2 hn ?_
  rwa [hinum]

theorem Inodes.rwp_writei_watched [LogErrs E] {src : Nat → Option UInt8} {off n : Nat} {u : Nat × Nat → Nat}
    {Q : Int → Watch → Prop} (h : Inodes v H O W L) (hip : ip ∈ L) (hm : (ip, i) ∈ H ∨ (ip, i) ∈ O)
    (hn : n < 2 ^ 32)
    (hbad : (v.node i).bytes.length < off ∨ 2 ^ 32 ≤ off + n ∨ MAXFILE * BSIZE < off + n →
      Q (-1) (some (v, u)))
    (hgood : ∀ (r : Nat) bytes' u', Wrote src off n (v.node i).bytes bytes' r →
      (∀ bytes, Readable src bytes → bytes.length = n → 0 < n → Taken sb i off u u' r) →
      Gained i u u' → Inodes (v.withNode i ((v.node i).withBytes bytes')) H O W L →
      Q r (some (v.withNode i ((v.node i).withBytes bytes'), u'))) :
    rwp (RepW sb) (writei sb ip src off n) Q E (some (v, u)) := by
  have hinum : (v.slot ip).inum = i := h.held (ip, i) hm
  refine Fs.rwp_writei_watched (h.ref_pos_of_mem hm) (h.locked_held ip hip).2 hn ?_ ?_
  · rwa [hinum]
  · rw [hinum]
    exact fun r bytes' u' hw htaken hgain => hgood r bytes' u' hw htaken hgain (h.withBytes bytes')

theorem Inodes.rwp_writei [LogErrs E] {src : Nat → Option UInt8} {off n : Nat} {Q : Int → View → Prop}
    (h : Inodes v H O W L) (hip : ip ∈ L) (hm : (ip, i) ∈ H ∨ (ip, i) ∈ O) (hn : n < 2 ^ 32)
    (hbad : (v.node i).bytes.length < off ∨ 2 ^ 32 ≤ off + n ∨ MAXFILE * BSIZE < off + n → Q (-1) v)
    (hgood : ∀ (r : Nat) bytes', Wrote src off n (v.node i).bytes bytes' r →
      Inodes (v.withNode i ((v.node i).withBytes bytes')) H O W L →
      Q r (v.withNode i ((v.node i).withBytes bytes'))) :
    rwp (Rep sb) (writei sb ip src off n) Q E v :=
  rwp_of_watched (fun _ => h.rwp_writei_watched hip hm hn (fun hb => ⟨v, _, rfl, hbad hb⟩)
    (fun r bytes' _ hw _ _ h' => ⟨_, _, rfl, hgood r bytes' hw h'⟩))

/-- The link count of a node changed by `d`. -/
@[simps -fullyApplied] def Node.addNlink (n : Node) (d : Int) : Node :=
  { n with nlink := short (n.nlink + d) }

theorem short_short (x : Int) : short (short x) = short x := Int.bmod_bmod

/-- Assigning to the fields of a locked inode and `iupdate`. -/
theorem Inodes.rwp_setFields [LogErrs E] {f : Inode → Inode} {g : Node → Node}
    (h : Inodes v H O W L) (hip : ip ∈ L) (hm : (ip, i) ∈ H ∨ (ip, i) ∈ O)
    (hf : ∀ x : Inode, f x = { x with toDinode := (f x).toDinode } ∧ (f x).type = x.type ∧
      (f x).size = x.size ∧ (f x).addrs = x.addrs)
    (hg : ∀ (x : Inode) data, (f x).toDinode.node data = g (x.toDinode.node data))
    (hshort : ∀ x : Inode, short (f x).nlink = (f x).nlink)
    (htype : (g (v.node i)).type = (v.node i).type)
    (horphan : (g (v.node i)).nlink = 0 → (v.node i).nlink = 0 ∨ (ip, i) ∈ O)
    (hQ : Inodes (v.withNode i (g (v.node i))) H O W L → Q () (v.withNode i (g (v.node i)))) :
    rwp R (do
      setInode ip f
      iupdate sb ip) Q E v := by
  have hinum : (v.slot ip).inum = i := h.held (ip, i) hm
  have hv := (h.locked_held ip hip).2
  refine Fs.rwp_setFields (h.ref_pos_of_mem hm) hv hf hg (fun x _ => hshort x) ?_
  rw [hinum]
  refine hQ (h.setNode htype (fun hn => (horphan hn).imp_right (fun hO => ⟨ip, hinum, hv, ?_⟩)))
  exact h.own_lt (Fs.holds_pos hO)

/-- `ip->nlink += d; iupdate(ip)`. -/
theorem Inodes.rwp_addNlink [LogErrs E] {d : Int} (h : Inodes v H O W L) (hip : ip ∈ L)
    (hm : (ip, i) ∈ H ∨ (ip, i) ∈ O)
    (horphan : ((v.node i).addNlink d).nlink = 0 → (v.node i).nlink = 0 ∨ (ip, i) ∈ O)
    (hQ : Inodes (v.withNode i ((v.node i).addNlink d)) H O W L →
      Q () (v.withNode i ((v.node i).addNlink d))) :
    rwp R (do
      setInode ip (fun x => { x with nlink := short (x.nlink + d) })
      iupdate sb ip) Q E v :=
  h.rwp_setFields (g := fun n => n.addNlink d) hip hm (fun _ => ⟨rfl, rfl, rfl, rfl⟩)
    (fun _ _ => rfl) (fun _ => short_short _) rfl horphan hQ

/-- `ialloc`, and the `ilock` of what it has found: an inode that nobody else refers to. -/
theorem Inodes.rwp_ialloc [LogErrs E] {type : FileType} {Q : Option InodeId → View → Prop}
    (h : Inodes v H O [] L) (hE : Errs E) (ht : type ≠ .free)
    (hnone : (∀ i, 0 < i → i < sb.ninodes → (v.node i).type ≠ .free) → Q none v)
    (hsome : ∀ ip i v₁, 0 < i → i < sb.ninodes → (v.node i).type = .free →
      v.files ip = 0 → v.cwds ip = 0 →
      (∀ T : Unit → View → Prop, (∀ v₂, ip ∉ L → Inodes v₂ H ((ip, i) :: O) [] (ip :: L) →
        SlotsOnly (v.withNode i (Node.fresh type)) v₂ → T () v₂) →
        rwp R (ilock sb ip) T E v₁) → Q (some ip) v₁) :
    rwp R (ialloc sb type) Q E v := by
  refine rwp_ok (fun hok => Fs.rwp_ialloc ht hnone (fun i hi0 hi hfree => ?_))
  -- the table changes as if the inode had not been allocated yet
  have hgo : ∀ ip v', Inodes v' ((ip, i) :: H) O [] L → SlotsOnly v v' →
      (∀ jp, 0 < (v'.slot jp).ref → (v'.slot jp).inum = i → (v'.slot jp).valid = false) →
      Q (some ip) (v'.withNode i (Node.fresh type)) := by
    intro ip v' h' hs' hinvalid
    have hmem : (ip, i) ∈ (ip, i) :: H ∨ (ip, i) ∈ O := Or.inl List.mem_cons_self
    have hinum : (v'.slot ip).inum = i := h'.held (ip, i) hmem
    have hnofile : ∀ f, 0 < (v'.ftable f).ref →
        (v'.ftable f).type = .inode ∨ (v'.ftable f).type = .device →
        (v'.slot (v'.ftable f).ip).inum ≠ i := by
      intro f hf hft he
      have hpos := h'.ref_pos_of_file (View.files_pos hf hft)
      have := hinvalid _ hpos he
      rw [h'.file f hf hft] at this
      cases this
    have hfiles : v.files ip = 0 := by
      rw [← hs'.files, View.files, tally_eq_zero_iff]
      rintro f ⟨hf, hft, rfl⟩
      exact hnofile f hf hft hinum
    have hcwds : v.cwds ip = 0 := by
      by_contra hne
      have hdir := h'.cwd ip (by rw [hs'.cwds]; exact Nat.pos_of_ne_zero hne)
      rw [hinum, hs'.node, hfree] at hdir
      cases hdir
    refine hsome ip i _ hi0 hi hfree hfiles hcwds (fun T hT => ?_)
    refine Fs.rwp_ilock (h'.ref_pos_of_mem hmem) (fun hlocked htype => ?_)
      (fun _ => hE.stuck) (fun htype => ?_)
    · have hown := (h'.lock (h'.holds_pos hmem)).own
      have hsame : ∀ jp, ((v'.withSlot ip (v'.slot ip).acquired).slot jp).inum = (v'.slot jp).inum := by
        grind
      refine hT _ (fun hip => ?_) (hown.setFresh ?_ (fun f hf hft => ?_) ⟨ip, ?_, ?_, ?_⟩)
        ⟨?_, hs'.ftable, hs'.pipe, hs'.proc, fun jp hj => (hsame jp).trans (hs'.inum jp hj)⟩
      · rw [← h'.locked, show (v'.slot ip).locked = false from hlocked] at hip
        cases hip
      · rw [View.withSlot_node, hs'.node]
        exact hfree
      · rw [hsame]
        exact hnofile f hf (Or.inl hft)
      · rw [hsame]
        exact hinum
      · rw [View.withSlot_slot, update_self]
        rfl
      · exact hown.own_lt (Fs.holds_pos List.mem_cons_self)
      · show update v'.node i _ = update v.node i _
        rw [hs'.node]
    · rw [View.withNode_slot, hinum, View.withNode_node, update_self] at htype
      exact absurd htype ht
  have hinvalid : ∀ jp, 0 < (v.slot jp).ref → (v.slot jp).inum = i → (v.slot jp).valid = false := by
    intro jp hr hj
    by_contra hv
    exact hok.valid jp hr (by simpa using hv) (hj ▸ hfree)
  refine Fs.rwp_iget ⟨hi0, hi⟩ (fun ip hr hinum => ?_) (fun ip hno hr => ?_)
    (fun _ => hE.noInodes)
  · refine hgo ip _ (h.hold hinum) (SlotsOnly.withSlot _ _ _ (fun _ => rfl)) (fun jp hjr hj => ?_)
    grind [hinvalid jp]
  · refine hgo ip _ (h.claim hr) (h.slotsOnly_claim hr) (fun jp hjr hj => ?_)
    grind [hinvalid jp]

end Rules

end Xv6.Fs
