import Xv6.Fs.Runs

set_option autoImplicit false

/-! # Failed calls

A call on names that returns -1 has left everything as it was, whichever of its steps failed. Names,
inodes and contents are those before. Of the free blocks at most one is gone: when a full disk stops
`dirlink`, `bmap` may already have attached the indirect block of the directory. A failed `open` can
leave a new file behind; `failed_open_unchanged` says when it does not. -/

namespace Xv6.Fs

open Wp Machine

variable {sb : Superblock}

/-! ## Free blocks -/

/-- The blocks whose bit is clear. -/
def State.freeBlocks (sb : Superblock) (s : State) : Finset Nat :=
  {b ∈ Finset.range sb.size | s.bitmap b = false}

/-- The free blocks are those before, or `d` has got one of them as its indirect block. -/
def KeptFree (sb : Superblock) (d : Option Nat) (s s' : State) : Prop :=
  s'.freeBlocks sb = s.freeBlocks sb ∨
    ∃ i b, d = some i ∧ (s.dinode i).addrs NDIRECT = 0 ∧ (s'.dinode i).addrs NDIRECT = b ∧
      b ∈ s.freeBlocks sb ∧ s'.freeBlocks sb = (s.freeBlocks sb).erase b

theorem Good.freeBlocks_eq {s s' : State} (h : Good sb s) (h' : Good sb s')
    (hu : s'.usage sb = s.usage sb) : s'.freeBlocks sb = s.freeBlocks sb := by
  have hown' : Owns sb.dataStart sb.size (s.usage sb) s'.bitmap := hu ▸ h'.disk.own
  refine Finset.filter_congr (fun b hb => ?_)
  rw [h.disk.own.mark_congr hown' sb.dataStart_pos (Finset.mem_range.1 hb)]

theorem usage_indirect {s : State} {i : Nat} (h : Alloc sb s.dinode i) :
    s.usage sb (i, NDIRECT) = (s.dinode i).addrs NDIRECT := by
  rw [State.usage, refs_of_alloc h]
  exact blockAt_direct (Nat.le_refl _)

theorem Good.keptFree {s s' : State} {d : Option Nat} (h : Good sb s) (h' : Good sb s')
    (hnode : s'.node sb = s.node sb) (hb : KeptBlocks d (s.usage sb) (s'.usage sb)) :
    KeptFree sb d s s' := by
  cases d with
  | none => exact Or.inl (h.freeBlocks_eq h' hb)
  | some i =>
    by_cases hsame : s'.usage sb (i, NDIRECT) = s.usage sb (i, NDIRECT)
    · refine Or.inl (h.freeBlocks_eq h' (funext fun k => ?_))
      by_cases hk : k = (i, NDIRECT)
      · rw [hk, hsame]
      · exact hb.rest k hk
    · have hold : s.usage sb (i, NDIRECT) = 0 := by
        by_contra hne
        exact hsame (hb.keep _ hne)
      have hnew : s'.usage sb (i, NDIRECT) ≠ 0 := fun h0 => hsame (h0.trans hold.symm)
      have ha' : Alloc sb s'.dinode i := by
        by_contra hna
        exact hnew (refs_of_not_alloc hna _)
      have ha : Alloc sb s.dinode i := by
        rw [← node_type_ne_free] at ha' ⊢
        rwa [← hnode]
      obtain ⟨hfree, hiff⟩ :=
        h.disk.own.mark_filled h'.disk.own sb.dataStart_pos hb.rest hold hnew
      refine Or.inr ⟨i, _, rfl, by rw [← usage_indirect ha, hold], rfl, ?_⟩
      rw [← usage_indirect ha']
      refine ⟨Finset.mem_filter.2 ⟨Finset.mem_range.2 (h'.disk.own.range _ hnew).2, hfree⟩, ?_⟩
      ext b
      simp only [State.freeBlocks, Finset.mem_erase, Finset.mem_filter, Finset.mem_range]
      refine ⟨fun ⟨hlt, hb'⟩ => ?_, fun ⟨hne, hlt, hb'⟩ => ⟨hlt, (hiff b hlt).2 ⟨hne, hb'⟩⟩⟩
      obtain ⟨hne, hb''⟩ := (hiff b hlt).1 hb'
      exact ⟨hne, hlt, hb''⟩

/-! ## Calls on names -/

/-- The same names, inodes and contents. -/
structure SameFiles (sb : Superblock) (s s' : State) : Prop where
  resolve : ∀ p path parent,
    (s'.view sb).resolve p path parent = (s.view sb).resolve p path parent
  free : ∀ i, Alloc sb s'.dinode i ↔ Alloc sb s.dinode i
  inode : ∀ i, Alloc sb s.dinode i → (s'.dinode i).type = (s.dinode i).type ∧
    (s'.dinode i).major = (s.dinode i).major ∧ (s'.dinode i).minor = (s.dinode i).minor ∧
    (s'.dinode i).nlink = (s.dinode i).nlink ∧ (s'.dinode i).size = (s.dinode i).size ∧
    content s'.data (s'.dinode i) = content s.data (s.dinode i)

theorem SlotsOnly.resolve {v v' : View} (h : SlotsOnly v v') (p : ProcId) (path : List UInt8)
    (parent : Bool) : v'.resolve p path parent = v.resolve p path parent :=
  SameNames.resolve (fun _ => by rw [h.node]; exact ⟨rfl, rfl⟩) h.proc h.inum p path parent

theorem SlotsOnly.sameFiles {s s' : State} (h : SlotsOnly (s.view sb) (s'.view sb)) :
    SameFiles sb s s' := by
  have hnode : s'.node sb = s.node sb := h.node
  have hfree : ∀ i, Alloc sb s'.dinode i ↔ Alloc sb s.dinode i := by
    intro i
    rw [← node_type_ne_free, ← node_type_ne_free, hnode]
  refine ⟨h.resolve, hfree, fun i hi => ?_⟩
  have hi' := congrFun hnode i
  rw [node_of_alloc hi, node_of_alloc ((hfree i).2 hi)] at hi'
  have hbytes : content s'.data (s'.dinode i) = content s.data (s.dinode i) :=
    congrArg Node.bytes hi'
  refine ⟨congrArg Node.type hi', congrArg Node.major hi', congrArg Node.minor hi',
    congrArg Node.nlink hi', ?_, hbytes⟩
  rw [← content_length s'.data, hbytes, content_length]

/-- The calls that make and remove names, and the path at which they make one. -/
def Event.onNames (e : Event) : Option (Option (List UInt8)) :=
  match e.call with
  | .link _ new => some (argstr e.u new)
  | .unlink _ => some none
  | .mkdir path => some (argstr e.u path)
  | .mknod path _ _ => some (argstr e.u path)
  | _ => none

theorem callErrs_any (v : View) (p : ProcId) : CallErrs (fun _ => True) v p :=
  ⟨⟨⟨trivial, trivial⟩, fun _ _ _ _ _ _ => trivial, fun _ => trivial⟩, inferInstance,
    fun _ _ _ _ _ _ _ => trivial, fun _ => trivial⟩

/-- Each of the calls, over the view and the blocks of the inodes. -/
theorem Idle.rwp_failed {v : View} {b : Nat × Nat → Nat} {e : Event} {new : Option (List UInt8)}
    (h : Idle sb v) (hp : (v.proc e.p).state = .used) (hcall : e.onNames = some new) :
    rwp (RepW sb) (syscall sb e)
      (fun r w => r = -1 → ∃ v' b', w = some (v', b') ∧ Failed v (v.parentOf e.p new) b v' b')
      (fun _ => True) (some (v, b)) := by
  have hE := callErrs_any v e.p
  have hcwd := h.procs.used e.p hp
  have hok : ∀ w : Watch, (0 : Int) = -1 →
      ∃ v' b', w = some (v', b') ∧ Failed v (v.parentOf e.p new) b v' b' :=
    fun _ h0 => absurd h0 (by decide)
  unfold Event.onNames at hcall
  unfold syscall
  split at hcall
  · next hc =>
      cases hcall
      rw [hc]
      exact h.inodes.rwp_sysLink_watched hE.toPathErrs h.dirs hcwd
        (fun v' b' hf _ => ⟨v', b', rfl, hf⟩) (fun _ _ _ => hok _)
  · next hc =>
      cases hcall
      rw [hc]
      exact h.inodes.rwp_sysUnlink_watched hE.toPathErrs hE.noLink h.dirs hcwd
        (fun v' hf _ => ⟨v', b, rfl, hf⟩) (fun _ _ _ => hok _)
  · next hc =>
      cases hcall
      rw [hc]
      exact h.inodes.rwp_makeInode_watched hE.toPathErrs h.dirs hcwd (by decide)
        (fun v' b' hf _ => ⟨v', b', rfl, hf⟩) (fun _ _ _ => hok _)
  · next hc =>
      cases hcall
      rw [hc]
      exact h.inodes.rwp_makeInode_watched hE.toPathErrs h.dirs hcwd (by decide)
        (fun v' b' hf _ => ⟨v', b', rfl, hf⟩) (fun _ _ _ => hok _)
  · cases hcall

theorem failed_call_unchanged {s s' : State} {e : Event} {new : Option (List UInt8)}
    (h : Sound sb s) (hp : (s.proc e.p).state = .used) (hcall : e.onNames = some new)
    (hs : syscall sb e s = .ok (-1, s')) :
    SameFiles sb s s' ∧ KeptFree sb ((s.view sb).parentOf e.p new) s s' := by
  have hrep : RepU sb (s.usage sb) (s.view sb) s := ⟨⟨h.good, rfl⟩, rfl⟩
  obtain ⟨w, hw, hfail⟩ := (h.idle.rwp_failed hp hcall s hrep.watch).of_ok hs
  obtain ⟨v', b', rfl, hf⟩ := hfail rfl
  obtain ⟨⟨hg', rfl⟩, rfl⟩ := hw _ _ rfl
  exact ⟨hf.slots.sameFiles, h.good.keptFree hg' hf.slots.node hf.blocks⟩

/-- There is a directory `/.` already. -/
theorem failed_call_unchanged_dot :
    ∃ s', syscall tinySb (initCall [slash, 46] (.mkdir 0)) tiny = .ok (-1, s') ∧
      SameFiles tinySb tiny s' ∧ s'.freeBlocks tinySb = tiny.freeBlocks tinySb := by
  have hany : (syscall tinySb (initCall [slash, 46] (.mkdir 0)) tiny).toOption.any (fun x =>
      x.1 == -1 && x.2.freeBlocks tinySb == tiny.freeBlocks tinySb) = true := by decide +kernel
  obtain ⟨⟨r, s'⟩, hrun, hres⟩ := exists_ok_of_any hany
  obtain ⟨hr, hfree⟩ := Bool.and_eq_true_iff.1 hres
  obtain rfl : r = -1 := eq_of_beq hr
  exact ⟨s', hrun, (failed_call_unchanged tiny_consistent.sound rfl rfl hrun).1, eq_of_beq hfree⟩

/-! ## Opening files -/

/-- The call makes a new file. -/
def Event.Creates (sb : Superblock) (s : State) (e : Event) : Prop :=
  ∃ path omode bytes, e.call = .open path omode ∧ argstr e.u path = some bytes ∧
    (s.view sb).Creates sb (s.usage sb) e.p omode bytes

/-- A struct file and a descriptor are left for the process. -/
def State.CanOpen (s : State) (p : ProcId) : Prop :=
  (∃ f, (s.ftable f).ref = 0) ∧ ∃ fd, (s.proc p).ofile fd = none

theorem Sound.notOpened {s s' : State} {e : Event} {path omode : Nat} (h : Sound sb s)
    (hp : (s.proc e.p).state = .used) (hcall : e.call = .open path omode)
    (hs : syscall sb e s = .ok (-1, s')) :
    NotOpened sb (s.view sb) (s.usage sb) e.p omode (argstr e.u path) (s'.view sb) := by
  have hrun : sysOpen sb e.p e.u path omode s = .ok (-1, s') := by
    unfold syscall at hs
    rwa [hcall] at hs
  have hopen : rwp (RepW sb) (sysOpen sb e.p e.u path omode)
      (fun r w => ∃ v' u', w = some (v', u') ∧
        (r = -1 → NotOpened sb (s.view sb) (s.usage sb) e.p omode (argstr e.u path) v'))
      (fun _ => True) (some (s.view sb, s.usage sb)) :=
    h.idle.rwp_sysOpen_watched (callErrs_any _ e.p).toPathErrs hp
      (fun _ v' u' _ hr => ⟨v', u', rfl, hr⟩)
  obtain ⟨_, hw, v', u', rfl, hr⟩ := (hopen s (RepU.watch ⟨⟨h.good, rfl⟩, rfl⟩)).of_ok hrun
  obtain ⟨⟨-, rfl⟩, -⟩ := hw v' u' rfl
  exact hr rfl

/-- `create` comes before the last step that can fail, so a failed call has left everything as it was
    exactly if it makes no file or there is room in both tables. -/
theorem failed_open_unchanged {s s' : State} {e : Event} {path omode : Nat} (h : Sound sb s)
    (hp : (s.proc e.p).state = .used) (hcall : e.call = .open path omode)
    (hs : syscall sb e s = .ok (-1, s')) :
    (SameFiles sb s s' ∧ s'.ftable = s.ftable ∧ s'.proc = s.proc) ↔
      (e.Creates sb s → s.CanOpen e.p) := by
  cases h.notOpened hp hcall hs with
  | slots hno hslots =>
    refine ⟨fun _ hc => ?_, fun _ => ⟨hslots.sameFiles, hslots.ftable, hslots.proc⟩⟩
    obtain ⟨path', omode', bytes, hcall', harg, hc⟩ := hc
    cases hcall.symm.trans hcall'
    exact absurd hc (hno bytes harg)
  | made bytes harg hc hfull i hfree hused =>
    refine ⟨fun hsame => ?_, fun hroom => ?_⟩
    · -- the inode of the new file was free
      have halloc : Alloc sb s.dinode i := (hsame.1.free i).1 (node_type_ne_free.1 hused)
      exact absurd hfree (node_type_ne_free.2 halloc)
    · exact absurd (hroom ⟨path, omode, bytes, hcall, harg, hc⟩) hfull

/-- There is no `/b`, and the call does not ask for one to be made. -/
theorem failed_open_unchanged_missing :
    ∃ s', syscall tinySb (initCall [slash, 98] (.open 0 0)) tiny = .ok (-1, s') ∧
      SameFiles tinySb tiny s' ∧ s'.ftable = tiny.ftable ∧ s'.proc = tiny.proc := by
  have hany : (syscall tinySb (initCall [slash, 98] (.open 0 0)) tiny).toOption.any (fun x =>
      x.1 == -1) = true := by decide +kernel
  obtain ⟨⟨r, s'⟩, hrun, hr⟩ := exists_ok_of_any hany
  obtain rfl : r = -1 := eq_of_beq hr
  refine ⟨s', hrun, (failed_open_unchanged tiny_consistent.sound rfl rfl hrun).2 ?_⟩
  rintro ⟨path, omode, bytes, hcall, -, hcreate, -⟩
  cases hcall
  exact absurd hcreate (by decide)

/-- The first process opens a file and duplicates the descriptor until its table is full. -/
def fullTable : List Event :=
  initCall [slash, 97] (.open 0 0x202) :: List.replicate 15 (initCall [] (.dup 0))

/-- An `open` that makes `/b` and then finds no descriptor fails, but `/b` stays. -/
theorem failed_open_creates :
    ∃ s s', Sound tinySb s ∧
      syscall tinySb (initCall [slash, 98] (.open 0 0x202)) s = .ok (-1, s') ∧
      (s.view tinySb).resolve initproc [slash, 98] false = none ∧
      (s'.view tinySb).resolve initproc [slash, 98] false = some (3, []) := by
  have hany : (run (step tinySb) tiny fullTable).any (fun s =>
      ((s.view tinySb).resolve initproc [slash, 98] false == none) &&
      (syscall tinySb (initCall [slash, 98] (.open 0 0x202)) s).toOption.any fun x =>
        x.1 == -1 && (x.2.view tinySb).resolve initproc [slash, 98] false == some (3, [])) =
      true := by
    decide +kernel
  obtain ⟨s, hs, hcheck⟩ := Outcome.exists_of_any hany
  obtain ⟨hbefore, hafter⟩ := Bool.and_eq_true_iff.1 hcheck
  obtain ⟨⟨r, s'⟩, hrun, hres⟩ := exists_ok_of_any hafter
  obtain ⟨hr, hname⟩ := Bool.and_eq_true_iff.1 hres
  obtain rfl : r = -1 := eq_of_beq hr
  exact ⟨s, s', tiny_consistent.sound.of_run _ hs, hrun, eq_of_beq hbefore, eq_of_beq hname⟩

end Xv6.Fs
