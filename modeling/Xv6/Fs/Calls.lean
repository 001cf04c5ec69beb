import Xv6.Fs.Names

set_option autoImplicit false

/-! # System calls

Between two calls no inode is locked and no call holds a reference (`Idle`). Every call starts and
ends like this; what it does to the name space in between is given by `Change`. -/

namespace Xv6.Fs

open Wp Function

/-- No call is in progress. -/
structure Idle (sb : Superblock) (v : View) : Prop where
  inodes : Inodes v [] [] [] []
  files : Files v [] [] []
  procs : Procs v
  dirs : Dirs sb v

section Dirs

variable {sb : Superblock} {v v' : View} {p : ProcId} {op : NameOp} {n : Nat → Node} {i d : Nat}

/-- Every directory among the nodes has whole entries. -/
def NodeDirs (sb : Superblock) (n : Nat → Node) : Prop :=
  ∀ i, (n i).type = .dir → DirOk sb (n i).bytes

theorem NodeDirs.update {x : Node} (h : NodeDirs sb n) (hx : x.type = .dir → DirOk sb x.bytes) :
    NodeDirs sb (Function.update n i x) := by
  intro j hj
  by_cases hji : j = i
  · subst hji
    rw [Function.update_self] at hj ⊢
    exact hx hj
  · rw [Function.update_of_ne hji] at hj ⊢
    exact h j hj

theorem NodeDirs.addLinks (h : NodeDirs sb n) (i : Nat) (δ : Int) : NodeDirs sb (addLinks n i δ) :=
  h.update (fun hd => h i hd)

theorem NodeDirs.addEntry (h : NodeDirs sb n) (hi : i < sb.ninodes) (name : List UInt8) :
    NodeDirs sb (addEntry n d name i) :=
  h.update (fun hd => (h d hd).setEntry
    (dirent_ok (Nat.lt_of_lt_of_le hi sb.ninodes_le) name) freeEntry_le hi)

theorem NodeDirs.clearEntry (h : NodeDirs sb n) {k : Nat} (hk : k ≤ numEntries (n d).bytes) :
    NodeDirs sb (clearEntry n d k) :=
  h.update (fun hd => (h d hd).setEntry empty_ok hk (Nat.lt_of_le_of_lt (Nat.zero_le _) sb.root_lt))

theorem newDir_ok (hi : i < sb.ninodes) (hd : d < sb.ninodes) : DirOk sb (newDir i d) := by
  have hi16 := dirent_ok (Nat.lt_of_lt_of_le hi sb.ninodes_le) dot
  have hd16 := dirent_ok (Nat.lt_of_lt_of_le hd sb.ninodes_le) dotdot
  refine ((dirOk_nil sb).setEntry hi16 (Nat.zero_le _) hi).setEntry hd16 ?_ hd
  rw [numEntries_setEntry hi16 (Nat.zero_le _) rfl]
  exact Nat.le_max_right ..

theorem NodeDirs.created (h : NodeDirs sb n) {x : Node} (hi : i < sb.ninodes) (hd : d < sb.ninodes)
    (hx : x.type = .dir → x.bytes = newDir i d) (name : List UInt8) :
    NodeDirs sb (created n d name i x) := by
  have hbase : NodeDirs sb (Function.update n i x) :=
    h.update (fun hdir => by rw [hx hdir]; exact newDir_ok hi hd)
  unfold Fs.created
  split
  · exact (hbase.addEntry hi name).addLinks d 1
  · exact hbase.addEntry hi name

theorem NodeDirs.unlinked (h : NodeDirs sb n) {k : Nat} (hk : k ≤ numEntries (n d).bytes) :
    NodeDirs sb (unlinked n d k i) := by
  unfold Fs.unlinked
  split
  · exact ((h.clearEntry hk).addLinks d (-1)).addLinks i (-1)
  · exact (h.clearEntry hk).addLinks i (-1)

theorem Change.dirs (h : Change sb v p op n) (hok : v.Ok sb) (hdirs : Dirs sb v) : NodeDirs sb n := by
  have hlt : ∀ j, (v.node j).type ≠ .free → j < sb.ninodes := fun j hj => (hok.alloc j hj).2
  have hdlt : ∀ j, (v.node j).type = .dir → j < sb.ninodes :=
    fun j hj => hlt j (by rw [hj]; decide)
  cases h with
  | none => exact hdirs
  | link _ hfree _ _ hd _ =>
    exact NodeDirs.addEntry (NodeDirs.addLinks hdirs _ 1) (hlt _ hfree) _
  | unlink _ hd _ _ hk _ _ _ _ _ =>
    exact NodeDirs.unlinked hdirs (Nat.le_of_lt (findEntry_some hk).1)
  | create _ hd _ _ hi _ hx _ _ hbytes =>
    exact NodeDirs.created hdirs hi (hdlt _ hd)
      (fun hdir => by rw [hbytes, if_pos (hx.symm.trans hdir)]) _

theorem NodeDirs.quiet {n' : Nat → Node} (h : NodeDirs sb n) (hq : Quiet n n') : NodeDirs sb n' := by
  intro i hi
  obtain ⟨hd, hbytes, -⟩ := hq.dir hi
  rw [hbytes]
  exact h i hd

/-- The call has ended, and the name space has not changed. -/
structure Still (sb : Superblock) (v v' : View) : Prop where
  idle : Idle sb v'
  quiet : Quiet v.node v'.node

theorem Still.mk' (hdirs : Dirs sb v) (hi : Inodes v' [] [] [] []) (hf : Files v' [] [] [])
    (hp : Procs v') (hq : Quiet v.node v'.node) : Still sb v v' :=
  ⟨⟨hi, hf, hp, NodeDirs.quiet hdirs hq⟩, hq⟩

theorem Idle.still (h : Idle sb v) : Still sb v v := ⟨h, Quiet.refl _⟩

theorem Idle.still_slots (h : Idle sb v) (hi : Inodes v' [] [] [] []) (hs : SlotsOnly v v') :
    Still sb v v' :=
  Still.mk' h.dirs hi (hs.kept.files h.files) (hs.kept.procs h.procs) hs.quiet

/-- What a call leads to. -/
structure Ended (sb : Superblock) (v : View) (p : ProcId) (op : NameOp) (v' : View) : Prop where
  idle : Idle sb v'
  change : ∃ n, Change sb v p op n ∧ Quiet n v'.node

theorem Still.ended (h : Still sb v v') : Ended sb v p op v' :=
  ⟨h.idle, v.node, Change.none op, h.quiet⟩

theorem Idle.ended_of_done (h : Idle sb v) (hok : v.Ok sb) (hd : Done sb v p op v') :
    Ended sb v p op v' := by
  obtain ⟨hi, hk, n, hn, hq⟩ := hd
  exact ⟨⟨hi, hk.files h.files, hk.procs h.procs, (hn.dirs hok h.dirs).quiet hq⟩, n, hn, hq⟩

end Dirs

/-! ## File descriptors -/

section Descriptors

variable {sb : Superblock} {E : Stop → Prop} {v : View} {p : ProcId} {f : FileId}
  {fd : Int} {Q : Int → View → Prop}

theorem rwp_argfd {Q : Option (Fin NOFILE × FileId) → View → Prop} (hnone : Q none v)
    (hsome : ∀ i f, (v.proc p).ofile i = some f → Q (some (i, f)) v) :
    rwp (Rep sb) (argfd p fd) Q E v := by
  refine rwp_bind (rwp_getProc ?_)
  split
  · next hfd =>
      refine rwp_pure ?_
      cases hf : (v.proc p).ofile ⟨fd.toNat, by omega⟩ with
      | none => exact hnone
      | some f => exact hsome _ f hf
  · exact rwp_pure hnone

theorem rwp_setFd {fd : Fin NOFILE} {y : Option FileId} {Q : Unit → View → Prop}
    (hQ : Q () (v.withProc p ((v.proc p).setFd fd y))) : rwp (Rep sb) (setFd p fd y) Q E v :=
  rwp_setProc hQ

theorem rwp_fdalloc {Q : Option (Fin NOFILE) → View → Prop}
    (hnone : (∀ fd, (v.proc p).ofile fd ≠ none) → Q none v)
    (hsome : ∀ fd, (v.proc p).ofile fd = none →
      Q (some fd) (v.withProc p ((v.proc p).setFd fd (some f)))) :
    rwp (Rep sb) (fdalloc p f) Q E v := by
  refine rwp_bind (rwp_getProc ?_)
  cases hfind : (List.finRange NOFILE).find? (fun fd => (v.proc p).ofile fd = none) with
  | none => exact rwp_pure (hnone (by simpa using hfind))
  | some fd =>
    have hfd : (v.proc p).ofile fd = none := by simpa using List.find?_some hfind
    exact rwp_bind (rwp_setFd (rwp_pure (hsome fd hfd)))

/-- A change of a process that keeps its file descriptors. -/
theorem Files.withProc {A B N : List FileId} {x : Proc} (h : Files v A B N)
    (hx : x.ofile = (v.proc p).ofile) : Files (v.withProc p x) A B N := by
  refine h.congr rfl rfl (fun q => ?_)
  rw [View.withProc_proc]
  by_cases hq : q = p
  · rw [hq, update_self, hx]
  · rw [update_of_ne hq]

/-- One process changes, and only that. -/
theorem Procs.change {v' : View} (h : Procs v) (hother : ∀ q, q ≠ p → v'.proc q = v.proc q)
    (hused : (v'.proc p).state = .used → (v'.proc p).cwd ≠ none)
    (hunused : (v'.proc p).state ≠ .used → (v'.proc p).cwd = none ∧ ∀ fd, (v'.proc p).ofile fd = none) :
    Procs v' := by
  refine ⟨fun q hq => ?_, fun q hq => ?_⟩ <;> by_cases hqp : q = p
  · subst hqp
    exact hused hq
  · rw [hother q hqp] at hq ⊢
    exact h.used q hq
  · subst hqp
    exact hunused hq
  · rw [hother q hqp] at hq ⊢
    exact h.unused q hq

theorem Procs.withProc {x : Proc} (h : Procs v) (hused : x.state = .used → x.cwd ≠ none)
    (hunused : x.state ≠ .used → x.cwd = none ∧ ∀ fd, x.ofile fd = none) :
    Procs (v.withProc p x) := by
  have hself : (v.withProc p x).proc p = x := update_self ..
  exact h.change (fun q hq => update_of_ne hq ..) (by rwa [hself]) (by rwa [hself])

theorem Procs.setFd (h : Procs v) (hp : (v.proc p).state = .used) (fd : Fin NOFILE)
    (y : Option FileId) : Procs (v.withProc p ((v.proc p).setFd fd y)) :=
  h.withProc (fun _ => h.used p hp) (fun hq => absurd hp hq)

theorem Procs.congr {v' : View} (h : Procs v) (hp : v'.proc = v.proc) : Procs v' := by
  obtain ⟨h1, h2⟩ := h
  exact ⟨by rwa [hp], by rwa [hp]⟩

variable (h : Idle sb v) (hp : (v.proc p).state = .used)

include h

theorem Idle.still_of_transferred {v' : View} (ht : Transferred v v') : Still sb v v' :=
  Still.mk' h.dirs ht.inodes ht.files (h.procs.congr ht.proc) ht.quiet

theorem Idle.rwp_sysRead {u : User} {env : Env} {addr : Nat} {n : Int} (hE : Errs E)
    (hQ : ∀ r v', Still sb v v' → Q r v') :
    rwp (Rep sb) (sysRead sb p u env fd addr n) Q E v :=
  rwp_bind (rwp_argfd (rwp_pure (hQ _ v h.still)) (fun _ _ hfd =>
    h.files.rwp_fileread h.inodes hE (h.files.fd_open hfd)
      (fun r v' ht => hQ r v' (h.still_of_transferred ht))))

theorem Idle.rwp_sysWrite [LogErrs E] {u : User} {env : Env} {addr : Nat} {n : Int} (hE : Errs E)
    (hQ : ∀ r v', Still sb v v' → Q r v') :
    rwp (Rep sb) (sysWrite sb p u env fd addr n) Q E v :=
  rwp_bind (rwp_argfd (rwp_pure (hQ _ v h.still)) (fun _ _ hfd =>
    h.files.rwp_filewrite h.inodes hE (h.files.fd_open hfd)
      (fun r v' ht => hQ r v' (h.still_of_transferred ht))))

theorem Idle.rwp_sysFstat {u : User} {addr : Nat} (hE : Errs E)
    (hQ : ∀ r v', Still sb v v' → Q r v') : rwp (Rep sb) (sysFstat sb p u fd addr) Q E v :=
  rwp_bind (rwp_argfd (rwp_pure (hQ _ v h.still)) (fun _ _ hfd =>
    h.inodes.rwp_filestat hE (h.files.fd_open hfd) (fun r => hQ r v h.still)))

include hp

/-- `dup`: the descriptor first, then the count. -/
theorem Idle.rwp_sysDup (hQ : ∀ r v', Still sb v v' → Q r v') :
    rwp (Rep sb) (sysDup p fd) Q E v := by
  refine rwp_bind (rwp_argfd (rwp_pure (hQ _ v h.still)) (fun i f hfd => ?_))
  have hr := h.files.fd_open hfd
  refine rwp_bind (rwp_fdalloc (fun _ => rwp_pure (hQ _ v h.still)) (fun fd' hfd' => ?_))
  have hf₁ : Files _ [] [f] [] := h.files.showOwed (f := f) hfd'
  have hi₁ := h.inodes.withProc (x := (v.proc p).setFd fd' (some f)) rfl
  refine rwp_bind (rwp_filedup hr (rwp_pure (hQ _ _ (Still.mk' h.dirs ?_ ?_ ?_ (Quiet.refl _)))))
  · exact hi₁.withRef hr (Int.lt_add_one_of_le (Int.le_of_lt hr))
  · have hrefs := hf₁.refs f
    have howed := hf₁.owed f
    rw [List.count_cons_self] at hrefs howed
    refine hf₁.withRef hr (Int.lt_add_one_of_le (Int.le_of_lt hr)) (fun g hg => ?_) ?_
      (Nat.zero_le _) List.not_mem_nil (fun _ => Iff.rfl)
    · rw [List.count_cons_of_ne (Ne.symm hg)]
      exact ⟨rfl, rfl⟩
    · rw [List.count_nil]
      rw [hrefs, List.count_nil]
      omega
  · exact (h.procs.setFd hp fd' (some f)).congr rfl

theorem Idle.rwp_sysClose [LogErrs E] (hE : Errs E) (hQ : ∀ r v', Still sb v v' → Q r v') :
    rwp (Rep sb) (sysClose sb p fd) Q E v := by
  refine rwp_bind (rwp_argfd (rwp_pure (hQ _ v h.still)) (fun i f hfd => ?_))
  refine rwp_bind (rwp_setFd ?_)
  have hf₁ := h.files.hideFd hfd
  have hi₁ := h.inodes.withProc (x := (v.proc p).setFd i none) rfl
  refine rwp_bind (hf₁.rwp_filecloseHeld hi₁ hE (fun ip _ => ⟨rfl, List.not_mem_nil⟩)
    (fun _ _ => Iff.rfl) id (fun v' hf' hi' hproc hq => rwp_pure (hQ _ v' ?_)))
  exact Still.mk' h.dirs hi' hf' ((h.procs.setFd hp i none).congr hproc) hq

end Descriptors

/-! ## Open -/

section Open

variable {sb : Superblock} {E : Stop → Prop} {v : View} {p : ProcId} {f : FileId} {ip : InodeId}
  {i omode : Nat} {b : Nat × Nat → Nat} {Q : Int → View → Prop}

theorem View.withFile_withFile (v : View) (f : FileId) (x y : File) :
    (v.withFile f x).withFile f y = v.withFile f y := by
  show { v with ftable := update (update v.ftable f x) f y } = _
  rw [update_idem]
  rfl

/-- The end of `open`: the file has been set up on a locked inode. -/
theorem Files.rwp_opened [LogErrs E] {y : File} {trunc : Prop} [Decidable trunc] {r : Int}
    (hf : Files v [] [] [f]) (h : Inodes v [] [(ip, i)] [] [ip]) (href : y.ref = (v.ftable f).ref)
    (hpos : 0 < (v.ftable f).ref) (hip : y.ip = ip) (htype : y.type = .inode ∨ y.type = .device)
    (hwrite : y.type = .inode → y.writable = true → (v.node i).type = .file)
    (htrunc : trunc → (v.node i).type = .file)
    (hQ : ∀ v', Files v' [] [] [] → Inodes v' [] [] [] [] → v'.proc = v.proc →
      Quiet v.node v'.node → Q r v') :
    rwp (Rep sb) (if trunc then itrunc sb ip else pure ())
      (fun _ v' => rwp (Rep sb) (do iunlock ip; pure r) Q E v') E (v.withFile f y) := by
  have hm : (ip, i) ∈ [] ∨ (ip, i) ∈ [(ip, i)] := Or.inr List.mem_cons_self
  have hinum : (v.slot ip).inum = i := h.held (ip, i) hm
  have hr : 0 < (v.slot ip).ref := h.ref_pos_of_mem hm
  have hv := (h.locked_held ip List.mem_cons_self).2
  have hl := (h.locked ip).2 List.mem_cons_self
  have hnone := (hf.fresh f List.mem_cons_self).1
  have hends : ∀ pi w, ¬ y.Ends pi w := by
    rintro pi w ⟨-, h1, -⟩
    rw [h1] at htype
    rcases htype with h2 | h2 <;> cases h2
  -- the rest of the call, with the bytes that the inode has then
  have hrest : ∀ w : View, Inodes w [] [(ip, i)] [] [ip] → Kept v w → w.slot = v.slot →
      (∀ j, (w.node j).type = (v.node j).type) → Quiet v.node w.node →
      rwp (Rep sb) (do iunlock ip; pure r) Q E (w.withFile f y) := by
    intro w hw hk hslot htypes hq
    refine rwp_bind (rwp_iunlock (by rw [View.withFile_slot, hslot]; exact hr)
      (by rw [View.withFile_slot, hslot]; exact hl) (rwp_pure ?_))
    have hw' := hw.unlock List.not_mem_nil
    refine hQ _ ?_ (Inodes.openFile (f := f) (x := y) hw' (fun jp => ?_)
      ⟨by rw [href]; exact hpos, htype, hip⟩ ?_ List.not_mem_nil) hk.proc hq
    · refine (hk.files hf).change (x := y) rfl rfl (fun _ _ => ⟨rfl, rfl⟩) ?_ ?_ (fun h0 => ?_)
        (fun _ _ h0 => ?_) (fun hm => absurd hm List.not_mem_nil)
        (fun g hg => by simp [hg]) ?_
      · rw [href, ← hk.ftable]
        exact (hk.files hf).refs f
      · exact (hk.files hf).owed f
      · rw [href] at h0
        omega
      · rw [h0] at htype
        rcases htype with h2 | h2 <;> cases h2
      · refine (((hk.files hf).pipes.withFile (x := y) (fun pi w' =>
          iff_of_false (hends pi w') ?_))).congr rfl rfl
        rw [hk.ftable]
        exact File.not_ends_of_type hnone pi w'
    · show ¬ (w.ftable f).Uses jp
      rw [hk.ftable]
      exact File.not_uses_of_type hnone jp
    · intro _ _
      have hslot' : ((w.withSlot ip ((w.slot ip).setLocked false)).slot y.ip) =
          (w.slot ip).setLocked false := by
        rw [hip, View.withSlot_slot, update_self]
      rw [hslot', hslot]
      refine ⟨hv, fun h1 h2 => ?_⟩
      show (w.node (v.slot ip).inum).type = .file
      rw [htypes, hinum]
      exact hwrite h1 h2
  refine rwp_ite (fun ht => ?_) (fun _ => rwp_pure ?_)
  · refine Fs.rwp_itrunc (v := v.withFile f y) hr hv ?_
    rw [View.withFile_slot, hinum]
    refine hrest (v.withNode i ((v.node i).withBytes [])) (h.withBytes []) (Kept.withNode ..) rfl
      (fun j => ?_) (Quiet.withBytes (by rw [htrunc ht]; decide) [])
    rw [View.withNode_node]
    by_cases hj : j = i
    · subst hj
      rw [update_self]
      rfl
    · rw [update_of_ne hj]
  · exact hrest v h (Kept.refl v) rfl (fun _ => rfl) (Quiet.refl _)

/-- What `open` does to the name space. -/
def openOp (omode : Nat) (path : List UInt8) : NameOp :=
  if omode.testBit O_CREATE then .create path .file else .nothing

/-- An `open` in this mode makes a file. -/
def View.Creates (sb : Superblock) (v : View) (b : Nat × Nat → Nat) (p : ProcId) (omode : Nat)
    (path : List UInt8) : Prop :=
  omode.testBit O_CREATE = true ∧ v.CanCreate sb b p path

/-- `openInode` returns an inode that has been there, or a new one. -/
theorem Inodes.rwp_openInode [LogErrs E] {path : List UInt8} {Q : Option InodeId → Watch → Prop}
    (h : Inodes v [] [] [] []) (hE : PathErrs E v) (hdirs : Dirs sb v)
    (hcwd : (v.proc p).cwd ≠ none)
    (hnone : ∀ v' b', Inodes v' [] [] [] [] → SlotsOnly v v' → ¬ v.Creates sb b p omode path →
      Q none (some (v', b')))
    (hold : ∀ ip i v', Inodes v' [(ip, i)] [] [] [ip] → SlotsOnly v v' →
      ¬ v.Creates sb b p omode path → ((v'.node i).type = .dir → omode = 0) →
      (v'.node i).type ≠ .free → Q (some ip) (some (v', b)))
    (hnew : ∀ ip i n v' b', v.Creates sb b p omode path → Change sb v p (.create path .file) n →
      Quiet n v'.node → Inodes v' [] [(ip, i)] [] [ip] → Kept v v' → Made v v' .file i →
      Q (some ip) (some (v', b'))) :
    rwp (RepW sb) (openInode sb p path omode) Q E (some (v, b)) := by
  unfold openInode
  refine rwp_ite (fun hc => ?_) (fun hc => rwp_tracked ?_)
  · refine h.rwp_create_watched hE hdirs hcwd (by decide)
      (fun v' b' hf hno => hnone v' b' hf.inodes hf.slots (fun hcr => hno (by decide) hcr.2))
      (fun ip i v' hno _ ht h' hs' => hold ip i v' h' hs' (fun hcr => hno hcr.2) (fun hd => ?_)
        (fun hf => ?_))
      (fun ip i n v' b' hcr hn hq h' hk hm =>
        hnew ip i n v' b' ⟨hc, hcr (by decide)⟩ hn hq h' hk hm)
    · rw [← hs'.node, hd] at ht
      rcases ht with h1 | h1 <;> cases h1
    · rw [← hs'.node, hf] at ht
      rcases ht with h1 | h1 <;> cases h1
  · have hno : ¬ v.Creates sb b p omode path := fun hcr => hc hcr.1
    refine rwp_bind (h.rwp_namei hE hdirs hcwd (fun v₁ _ h₁ hs₁ => rwp_pure (hnone v₁ b h₁ hs₁ hno))
      (fun ip i _ v₁ _ hdang h₁ hs₁ => ?_))
    refine rwp_bind (h₁.rwp_ilock hE.toErrs (Or.inl List.mem_cons_self)
      (by rw [hs₁.node]; exact hdang) (fun v₂ _ hfree h₂ hs₂ => ?_))
    have hs := hs₁.trans hs₂
    refine rwp_bind (h₂.rwp_getInode List.mem_cons_self (Or.inl List.mem_cons_self)
      (fun x _ hx => rwp_ite (fun _ => ?_) (fun hdir => rwp_pure ?_)))
    · exact rwp_bind (h₂.rwp_iunlockput List.not_mem_nil
        (fun v₃ h₃ hs₃ => rwp_pure (hnone v₃ b h₃ (hs.trans hs₃) hno)))
    · refine hold ip i v₂ h₂ hs hno (fun hd => ?_) (by rwa [hs₂.node])
      rw [hx.type] at hdir
      by_contra h0
      exact hdir ⟨hd, h0⟩

/-- What `openFile` makes of a file before it truncates the inode. -/
def File.openAs (y : File) (ip : InodeId) (omode : Nat) (x : Inode) : File :=
  { if x.type = .device then { y with type := .device, major := x.major }
    else { y with type := .inode, off := 0 } with
    ip := ip, readable := !omode.testBit O_WRONLY,
    writable := omode.testBit O_WRONLY || omode.testBit O_RDWR }

theorem File.openAs_ref (y : File) (x : Inode) : (y.openAs ip omode x).ref = y.ref := by
  unfold File.openAs
  split <;> rfl

theorem File.openAs_type (y : File) (x : Inode) :
    (y.openAs ip omode x).type = if x.type = .device then .device else .inode := by
  unfold File.openAs
  split <;> rfl

/-- `openFile` and what follows it. -/
theorem Files.rwp_openFile [LogErrs E] {r : Int} (hf : Files v [] [] [f])
    (h : Inodes v [] [(ip, i)] [] [ip]) (hpos : 0 < (v.ftable f).ref)
    (hdir : (v.node i).type = .dir → omode = 0) (hfree : (v.node i).type ≠ .free)
    (hQ : ∀ v', Files v' [] [] [] → Inodes v' [] [] [] [] → v'.proc = v.proc →
      Quiet v.node v'.node → Q r v') :
    rwp (Rep sb) (do openFile sb f ip omode; iunlock ip; pure r) Q E v := by
  refine rwp_bind (rwp_bind (h.rwp_getInode List.mem_cons_self (Or.inr List.mem_cons_self)
    (fun x _ hx => ?_)))
  have htype : (((v.ftable f).openAs ip omode x).type = .inode ∨
      ((v.ftable f).openAs ip omode x).type = .device) := by
    rw [File.openAs_type]
    split
    · exact Or.inr rfl
    · exact Or.inl rfl
  have hwrite : ((v.ftable f).openAs ip omode x).type = .inode →
      ((v.ftable f).openAs ip omode x).writable = true → (v.node i).type = .file := by
    intro h1 h2
    rw [File.openAs_type] at h1
    cases ht : (v.node i).type with
    | free => exact absurd ht hfree
    | dir =>
      rw [hdir ht] at h2
      simp [File.openAs] at h2
    | file => rfl
    | device =>
      rw [hx.type, ht] at h1
      cases h1
  have hopened : rwp (Rep sb)
      (if omode.testBit O_TRUNC = true ∧ x.type = .file then itrunc sb ip else pure ())
      (fun _ v' => rwp (Rep sb) (do iunlock ip; pure r) Q E v') E
      (v.withFile f ((v.ftable f).openAs ip omode x)) :=
    hf.rwp_opened h (File.openAs_ref _ x) hpos rfl htype hwrite
      (fun ht => by rw [← hx.type]; exact ht.2) hQ
  dsimp only
  refine rwp_ite (fun hd => ?_) (fun hd => ?_)
  · refine rwp_bind (rwp_setFile (rwp_bind (rwp_setFile ?_)))
    rw [View.withFile_withFile, View.withFile_ftable, update_self]
    unfold File.openAs at hopened
    rwa [if_pos hd] at hopened
  · refine rwp_bind (rwp_setFile (rwp_bind (rwp_setFile ?_)))
    rw [View.withFile_withFile, View.withFile_ftable, update_self]
    unfold File.openAs at hopened
    rwa [if_neg hd] at hopened

/-- A call that gives up after it opened the inode. -/
theorem Inodes.rwp_giveUp [LogErrs E] {n : Nat → Node} {op : NameOp} {v₀ : View}
    (h : Inodes v [] [(ip, i)] [] [ip]) (hE : Errs E) (hf : Files v [] [] []) (hp : Procs v)
    (hn : Change sb v₀ p op n) (hok : v₀.Ok sb) (hdirs : Dirs sb v₀) (hq : Quiet n v.node)
    (hQ : ∀ v', Ended sb v₀ p op v' → Quiet v.node v'.node → Q (-1) v') :
    rwp (Rep sb) (do iunlockput sb ip; pure (-1)) Q E v := by
  refine rwp_bind (h.rwp_iunlockputOwn hE rfl List.not_mem_nil (fun v' h' hput _ => rwp_pure ?_))
  have hq' := hq.trans hput.quiet
  exact hQ v' ⟨⟨h', hput.kept.files hf, hput.kept.procs hp, (hn.dirs hok hdirs).quiet hq'⟩, n, hn, hq'⟩
    hput.quiet

/-- A struct file and a descriptor are left for the process. -/
def View.CanOpen (v : View) (p : ProcId) : Prop :=
  (∃ f, (v.ftable f).ref = 0) ∧ ∃ fd, (v.proc p).ofile fd = none

/-- A struct file that has just been taken is given back. -/
theorem rwp_fileclose_taken {Q : Unit → View → Prop} (href : (v.ftable f).ref = 0)
    (htype : (v.ftable f).type = .none) (hQ : Q () v) :
    rwp (Rep sb) (fileclose sb f) Q E (v.withFile f ((v.ftable f).withRef 1)) := by
  refine rwp_bind (rwp_getFile ?_)
  rw [View.withFile_ftable, update_self]
  refine rwp_ite (fun h => absurd h (by simp)) (fun _ => rwp_ite (fun h => absurd h (by simp))
    (fun _ => rwp_bind (rwp_setFile ?_)))
  rw [File.withRef_type, htype]
  refine rwp_pure ?_
  have hfile : ({ (v.ftable f).withRef 1 with ref := 0, type := .none } : File) = v.ftable f := by
    rw [← href, ← htype]
    rfl
  have hsame : v.withFile f (v.ftable f) = v := by
    show { v with ftable := update v.ftable f (v.ftable f) } = v
    rw [update_eq_self]
  rwa [View.withFile_ftable, update_self, hfile, View.withFile_withFile, hsame]

/-- `sys_open` once it has the inode. It gives up on a bad device, or when a table is full. -/
theorem Files.rwp_openRest [LogErrs E] (hf : Files v [] [] []) (h : Inodes v [] [(ip, i)] [] [ip])
    (hdir : (v.node i).type = .dir → omode = 0) (hfree : (v.node i).type ≠ .free)
    (hquit : ((v.node i).type = .device ∨ ¬ v.CanOpen p) →
      rwp (Rep sb) (do iunlockput sb ip; pure (-1)) Q E v)
    (hdone : ∀ (fd : Fin NOFILE) f v', Files v' [] [] [] → Inodes v' [] [] [] [] →
      v'.proc = update v.proc p ((v.proc p).setFd fd (some f)) →
      Quiet v.node v'.node → Q fd.val v') :
    rwp (Rep sb) ((do
      let x ← getInode ip
      if x.type = .device ∧ (x.major < 0 ∨ x.major ≥ NDEV) then do
        iunlockput sb ip
        pure (-1)
      else do
        let r ← filealloc
        match r with
        | none => do
          iunlockput sb ip
          pure (-1)
        | some f => do
          let r ← fdalloc p f
          match r with
          | none => do
            fileclose sb f
            iunlockput sb ip
            pure (-1)
          | some fd => do
            openFile sb f ip omode
            iunlock ip
            pure fd.val) : FsM Int) Q E v := by
  refine rwp_bind (h.rwp_getInode List.mem_cons_self (Or.inr List.mem_cons_self) (fun x _ hx =>
    rwp_ite (fun hbad => hquit (Or.inl (by rw [← hx.type]; exact hbad.1))) (fun _ => ?_)))
  refine rwp_bind (hf.rwp_filealloc h (fun hfull => hquit (Or.inr (fun hc => ?_)))
    (fun f _ href hnone hf₂ h₂ => ?_))
  · obtain ⟨⟨f, hf0⟩, _⟩ := hc
    exact hfull f hf0
  refine rwp_bind (rwp_fdalloc (fun hfull => ?_) (fun fd hfd => ?_))
  · refine rwp_bind (rwp_fileclose_taken href hnone (hquit (Or.inr (fun hc => ?_))))
    obtain ⟨_, fd, hfd⟩ := hc
    exact hfull fd hfd
  · refine Files.rwp_openFile (hf₂.showFd hfd) (h₂.withProc rfl) ?_ hdir hfree
      (fun v' hf' h' hproc hq' => hdone fd f v' hf' h' hproc hq')
    show 0 < (update v.ftable f ((v.ftable f).withRef 1) f).ref
    rw [update_self]
    exact Int.one_pos

/-- What a failed `open` has done. -/
inductive NotOpened (sb : Superblock) (v : View) (b : Nat × Nat → Nat) (p : ProcId) (omode : Nat)
    (path : Option (List UInt8)) (v' : View) : Prop where
  /-- Nothing but the inode table has changed. -/
  | slots (h : ∀ bytes, path = some bytes → ¬ v.Creates sb b p omode bytes) (hs : SlotsOnly v v')
  /-- It has made a file which it could not open. -/
  | made (bytes : List UInt8) (hpath : path = some bytes) (h : v.Creates sb b p omode bytes)
      (hfull : ¬ v.CanOpen p) (i : Nat) (hfree : (v.node i).type = .free)
      (hused : (v'.node i).type ≠ .free)

theorem Made.used {v' v'' : View} {type : FileType} (h : Made v v' type i) (ht : type ≠ .free)
    (hq : Quiet v'.node v''.node) : (v''.node i).type ≠ .free := by
  rcases hq i with ⟨hsame, -⟩ | ⟨hgone, -⟩
  · rwa [hsame, h.type]
  · rw [h.type, h.nlink] at hgone
    exact absurd hgone (not_or.2 ⟨ht, by decide⟩)

theorem Idle.rwp_sysOpen_watched [LogErrs E] {u : User} {path : Nat} {Q : Int → Watch → Prop}
    (h : Idle sb v) (hE : PathErrs E v) (hp : (v.proc p).state = .used)
    (hQ : ∀ r v' b', Ended sb v p (pathOp u path (openOp omode)) v' →
      (r = -1 → NotOpened sb v b p omode (argstr u path) v') → Q r (some (v', b'))) :
    rwp (RepW sb) (sysOpen sb p u path omode) Q E (some (v, b)) := by
  refine rwp_watched_ok fun hok => ?_
  unfold sysOpen pathOp at *
  split
  · next hpath =>
    rw [hpath] at hQ
    exact rwp_pure (hQ _ v b h.still.ended (fun _ =>
      .slots (fun bytes he => absurd he.symm (Option.some_ne_none bytes)) (SlotsOnly.refl v)))
  next path hpath =>
  rw [hpath] at hQ
  have hsame : ∀ r v' b', ¬ v.Creates sb b p omode path → Inodes v' [] [] [] [] → SlotsOnly v v' →
      Q r (some (v', b')) := by
    intro r v' b' hno h' hs
    refine hQ r v' b' (h.still_slots h' hs).ended (fun _ => .slots (fun bytes hb => ?_) hs)
    rwa [← Option.some.inj hb]
  have hopened : ∀ n (v₁ : View) (fd : Fin NOFILE) f v', Change sb v p (openOp omode path) n →
      Quiet n v₁.node → Kept v v₁ → Files v' [] [] [] → Inodes v' [] [] [] [] →
      v'.proc = update v₁.proc p ((v₁.proc p).setFd fd (some f)) →
      Quiet v₁.node v'.node → ∀ b', Q fd.val (some (v', b')) := by
    intro n v₁ fd f v' hn hq₁ hk₁ hf' h' hproc hq' b'
    have hq := hq₁.trans hq'
    have hused : (v₁.proc p).state = .used := by rw [hk₁.proc]; exact hp
    refine hQ _ v' b' ⟨⟨h', hf', ?_, (hn.dirs hok h.dirs).quiet hq⟩, n, hn, hq⟩ (fun hr => ?_)
    · exact ((hk₁.procs h.procs).setFd hused fd (some f)).congr hproc
    · omega
  refine rwp_transaction_watched (rwp_bind (h.inodes.rwp_openInode hE h.dirs (h.procs.used p hp)
    (fun v₁ b₁ h₁ hs₁ hno => rwp_pure (hsame _ v₁ b₁ hno h₁ hs₁))
    (fun ip i v₁ h₁ hs₁ hno hdir hfree => rwp_untracked ?_)
    (fun ip i n v₁ b₁ hc hn hq₁ h₁ hk₁ hm₁ => rwp_untracked ?_)))
  · refine Files.rwp_openRest (hs₁.kept.files h.files) h₁.own hdir hfree (fun _ => ?_)
      (fun fd f v' => hopened v.node v₁ fd f v' (Change.none _) hs₁.quiet hs₁.kept)
    exact rwp_bind (h₁.rwp_iunlockput List.not_mem_nil
      (fun v₂ h₂ hs₂ => rwp_pure (fun b₂ => hsame _ v₂ b₂ hno h₂ (hs₁.trans hs₂))))
  · have hn' : Change sb v p (openOp omode path) n := by
      rw [openOp, if_pos hc.1]
      exact hn
    refine Files.rwp_openRest (hk₁.files h.files) h₁ (fun hd => ?_) (fun hf => ?_) (fun hfull => ?_)
      (fun fd f v' => hopened n v₁ fd f v' hn' hq₁ hk₁)
    · rw [hm₁.type] at hd
      cases hd
    · rw [hm₁.type] at hf
      cases hf
    · have hfull' : ¬ v.CanOpen p := by
        rw [hm₁.type] at hfull
        rcases hfull with hd | hfull
        · cases hd
        · rwa [View.CanOpen, hk₁.ftable, hk₁.proc] at hfull
      exact h₁.rwp_giveUp hE.toErrs (hk₁.files h.files) (hk₁.procs h.procs) hn' hok h.dirs hq₁
        (fun v' he hq' b' => hQ _ v' b' he (fun _ =>
          .made path rfl hc hfull' i hm₁.free (hm₁.used (by decide) hq')))

theorem Idle.rwp_sysOpen [LogErrs E] {u : User} {path : Nat} (h : Idle sb v) (hE : PathErrs E v)
    (hp : (v.proc p).state = .used)
    (hQ : ∀ r v', Ended sb v p (pathOp u path (openOp omode)) v' → Q r v') :
    rwp (Rep sb) (sysOpen sb p u path omode) Q E v :=
  rwp_of_watched (fun _ => h.rwp_sysOpen_watched hE hp (fun r v' b' he _ => ⟨v', b', rfl, hQ r v' he⟩))

end Open

/-! ## Current directories -/

section CurrentDirectory

variable {sb : Superblock} {E : Stop → Prop} {v : View} {p : ProcId} {H O : List Hold}
  {W L : List InodeId} {c ip : InodeId} {i : Nat} {x : Proc}

@[simps -fullyApplied] def Proc.setCwd (x : Proc) (c : Option InodeId) : Proc := { x with cwd := c }

theorem View.cwds_withProc (v : View) (p : ProcId) (x : Proc) (jp : InodeId) :
    (v.withProc p x).cwds jp + (if (v.proc p).cwd = some jp then 1 else 0) =
      v.cwds jp + if x.cwd = some jp then 1 else 0 :=
  tally_update p x

/-- A change of one current directory, with the references of the call. -/
theorem Inodes.changeCwd {O' : List Hold} {W' : List InodeId} (h : Inodes v H O W L)
    (hcount : ∀ jp, (holds O' jp : Int) - W'.count jp + (if x.cwd = some jp then 1 else 0) =
      holds O jp - W.count jp + if (v.proc p).cwd = some jp then 1 else 0)
    (howed : ∀ jp, W'.count jp ≤ (v.withProc p x).cwds jp)
    (hheld : ∀ y, y ∈ O' → (v.slot y.1).inum = y.2)
    (hlocked : ∀ jp, jp ∈ L → 0 < holds H jp + holds O' jp)
    (hcwd : ∀ jp, W'.count jp < (v.withProc p x).cwds jp → (v.node (v.slot jp).inum).type = .dir) :
    Inodes (v.withProc p x) H O' W' L := by
  refine ⟨fun jp => ?_, howed, fun y hy => ?_, h.locked,
    fun jp hj => ⟨hlocked jp hj, (h.locked_held jp hj).2⟩, h.orphan, h.file, h.writable, hcwd⟩
  · have h1 := h.refs jp
    have h2 := hcount jp
    have h3 := View.cwds_withProc v p x jp
    have h4 : (v.withProc p x).files jp = v.files jp := rfl
    rw [View.withProc_slot, h4]
    by_cases hx : x.cwd = some jp <;> by_cases hv : (v.proc p).cwd = some jp <;>
      simp only [hx, hv, if_true, if_false] at h2 h3 <;> omega
  · rcases hy with hy | hy
    · exact h.held y (Or.inl hy)
    · exact hheld y hy

/-- The call takes over the current directory of the process. -/
theorem Inodes.lendCwd (h : Inodes v H O [] L) (hc : (v.proc p).cwd = some c) :
    Inodes v H ((c, (v.slot c).inum) :: O) [c] L := by
  refine ⟨fun jp => ?_, fun jp => ?_, fun y hy => ?_, h.locked, fun jp hj => ?_, h.orphan, h.file,
    h.writable, fun jp hj => h.cwd jp (Nat.lt_of_le_of_lt (Nat.zero_le _) hj)⟩
  · rw [h.refs jp, holds_cons, List.count_singleton, List.count_nil]
    by_cases hcj : c = jp <;> simp [hcj]
    omega
  · rw [List.count_singleton]
    by_cases hcj : c = jp
    · subst hcj
      rw [beq_self_eq_true, if_pos rfl]
      exact View.cwds_pos hc
    · simp [hcj]
  · rcases hy with hy | hy
    · exact h.held y (Or.inl hy)
    · rcases List.mem_cons.1 hy with rfl | hy
      · rfl
      · exact h.held y (Or.inr hy)
  · obtain ⟨h1, h2⟩ := h.locked_held jp hj
    rw [holds_cons]
    exact ⟨by omega, h2⟩

/-- The process leaves its current directory, which the call has given back, and gets the one that
    the call holds. -/
theorem Inodes.replaceCwd (h : Inodes v [] O W [])
    (hO : ∀ jp, holds O jp = if x.cwd = some jp then 1 else 0)
    (hW : ∀ jp, W.count jp = if (v.proc p).cwd = some jp then 1 else 0)
    (hdir : ∀ y ∈ O, (v.node y.2).type = .dir) : Inodes (v.withProc p x) [] [] [] [] := by
  refine h.changeCwd (fun jp => ?_) (fun jp => Nat.zero_le _) (fun y hy => absurd hy List.not_mem_nil)
    (fun jp hj => absurd hj List.not_mem_nil) (fun jp hj => ?_)
  · rw [hO, hW, holds_nil, List.count_nil]
    split <;> split <;> rfl
  · have hcount := View.cwds_withProc v p x jp
    rw [List.count_nil] at hj
    by_cases hx : x.cwd = some jp
    · obtain ⟨y, hy, hyj⟩ : ∃ y ∈ O, decide (y.1 = jp) = true := by
        rw [← List.countP_pos_iff]
        show 0 < holds O jp
        rw [hO, if_pos hx]
        exact Nat.one_pos
      rw [← of_decide_eq_true hyj, h.held y (Or.inr hy)]
      exact hdir y hy
    · rw [if_neg hx] at hcount
      exact h.cwd jp (by rw [hW]; omega)

theorem Inodes.moveCwd (h : Inodes v [] [(ip, i)] [c] []) (hc : (v.proc p).cwd = some c)
    (hx : x.cwd = some ip) (hdir : (v.node i).type = .dir) : Inodes (v.withProc p x) [] [] [] [] :=
  h.replaceCwd (by simp [hx]) (by simp [hc, List.count_singleton]) (by simpa using hdir)

/-- The process gives up its current directory. -/
theorem Inodes.dropCwd (h : Inodes v [] [] [c] []) (hc : (v.proc p).cwd = some c)
    (hx : x.cwd = none) : Inodes (v.withProc p x) [] [] [] [] :=
  h.replaceCwd (by simp [hx]) (by simp [hc, List.count_singleton]) (by simp)

/-- A new process gets a current directory. -/
theorem Inodes.firstCwd (h : Inodes v [] [(ip, i)] [] []) (hc : (v.proc p).cwd = none)
    (hx : x.cwd = some ip) (hdir : (v.node i).type = .dir) : Inodes (v.withProc p x) [] [] [] [] :=
  h.replaceCwd (by simp [hx]) (by simp [hc]) (by simpa using hdir)

theorem rwp_getCwd {Q : InodeId → View → Prop} (hc : (v.proc p).cwd = some c) (hQ : Q c v) :
    rwp (Rep sb) (getCwd p) Q E v := by
  refine rwp_bind (rwp_getProc ?_)
  rw [hc]
  exact rwp_pure hQ

theorem Files.setCwd (h : Files v [] [] []) (c : Option InodeId) :
    Files (v.withProc p ((v.proc p).setCwd c)) [] [] [] :=
  h.withProc rfl

theorem Idle.rwp_sysChdir [LogErrs E] {u : User} {path : Nat} {Q : Int → View → Prop} (h : Idle sb v)
    (hE : PathErrs E v) (hp : (v.proc p).state = .used) (hQ : ∀ r v', Still sb v v' → Q r v') :
    rwp (Rep sb) (sysChdir sb p u path) Q E v := by
  unfold sysChdir
  split
  · exact rwp_pure (hQ _ v h.still)
  refine rwp_transaction (rwp_bind (h.inodes.rwp_namei hE h.dirs (h.procs.used p hp)
    (fun v₁ _ h₁ hs₁ => rwp_pure (hQ _ v₁ (h.still_slots h₁ hs₁)))
    (fun ip i _ v₁ _ hdang h₁ hs₁ => ?_)))
  refine rwp_bind (h₁.rwp_ilock hE.toErrs (Or.inl List.mem_cons_self)
    (by rw [hs₁.node]; exact hdang) (fun v₂ _ _ h₂ hs₂ => ?_))
  have hs := hs₁.trans hs₂
  refine rwp_bind (h₂.rwp_getInode List.mem_cons_self (Or.inl List.mem_cons_self)
    (fun x _ hx => rwp_ite (fun _ => ?_) (fun hdir => ?_)))
  · exact rwp_bind (h₂.rwp_iunlockput List.not_mem_nil
      (fun v₃ h₃ hs₃ => rwp_pure (hQ _ v₃ (h.still_slots h₃ (hs.trans hs₃)))))
  · rw [not_not, hx.type] at hdir
    refine rwp_bind (h₂.rwp_iunlock List.not_mem_nil (fun v₃ h₃ hs₃ => ?_))
    have hs' := hs.trans hs₃
    obtain ⟨c, hc⟩ := Option.ne_none_iff_exists'.1 (h.procs.used p hp)
    have hc₃ : (v₃.proc p).cwd = some c := by rw [hs'.proc]; exact hc
    refine rwp_bind (rwp_getCwd hc₃ (rwp_bind ((h₃.own.lendCwd hc₃).rwp_iputOwn hE.toErrs rfl
      (fun hm => absurd hm List.not_mem_nil) (fun v₄ h₄ hput hnode => ?_))))
    have hk := hs'.kept.trans hput.kept
    refine rwp_bind (rwp_setProc (rwp_pure (hQ _ _ (Still.mk' h.dirs ?_ ?_ ?_
      (hs'.quiet.trans hput.quiet)))))
    · refine h₄.moveCwd (by rw [hput.proc]; exact hc₃) rfl ?_
      rw [hnode (ip, i) (Or.inr List.mem_cons_self), hs₃.node]
      exact hdir
    · exact (hk.files h.files).setCwd (some ip)
    · refine (hk.procs h.procs).withProc (fun _ => Option.some_ne_none _) (fun hq => absurd ?_ hq)
      show (v₄.proc p).state = .used
      rw [hk.proc]
      exact hp

/-- `exec` reads the file and leaves it. -/
theorem Idle.rwp_sysExec {u : User} {path : Nat} {reads : List (UInt32 × UInt32)}
    {Q : Int → View → Prop} (h : Idle sb v) (hE : PathErrs E v) (hp : (v.proc p).state = .used)
    (hQ : ∀ r v', Still sb v v' → Q r v') : rwp (Rep sb) (sysExec sb p u path reads) Q E v := by
  unfold sysExec
  split
  · exact rwp_pure (hQ _ v h.still)
  refine rwp_transaction (rwp_bind (h.inodes.rwp_namei hE h.dirs (h.procs.used p hp)
    (fun v₁ _ h₁ hs₁ => rwp_pure (hQ _ v₁ (h.still_slots h₁ hs₁)))
    (fun ip i _ v₁ _ hdang h₁ hs₁ => ?_)))
  refine rwp_bind (h₁.rwp_ilock hE.toErrs (Or.inl List.mem_cons_self)
    (by rw [hs₁.node]; exact hdang) (fun v₂ _ _ h₂ hs₂ => ?_))
  refine rwp_bind (rwp_forM (fun _ w => w = v₂) rfl (fun _ r _ w _ hw => ?_) (fun w hw => ?_))
  · subst hw
    exact rwp_bind (h₂.rwp_readi List.mem_cons_self (Or.inl List.mem_cons_self) r.2.toNat_lt
      (fun _ _ _ => rwp_pure rfl))
  · subst hw
    exact rwp_bind (h₂.rwp_iunlockput List.not_mem_nil
      (fun v₃ h₃ hs₃ => rwp_pure (hQ _ v₃ (h.still_slots h₃ ((hs₁.trans hs₂).trans hs₃)))))

end CurrentDirectory

/-! ## Pipes -/

section MakePipe

variable {sb : Superblock} {E : Stop → Prop} {v : View} {p : ProcId} {f₀ f₁ : FileId}

/-- `sys_pipe` gives up: both ends of the pipe are closed. -/
theorem Files.rwp_closeBoth [LogErrs E] {Q : Int → View → Prop} (hf : Files v [f₀, f₁] [] [])
    (h : Inodes v [] [] [] []) (hE : Errs E)
    (hQ : ∀ v', Files v' [] [] [] → Inodes v' [] [] [] [] → v'.proc = v.proc →
      Quiet v.node v'.node → Q (-1) v') :
    rwp (Rep sb) (do fileclose sb f₀; fileclose sb f₁; pure (-1)) Q E v :=
  rwp_bind (hf.rwp_filecloseHeld h hE (fun _ _ => ⟨rfl, List.not_mem_nil⟩) (fun _ _ => Iff.rfl) id
    (fun _ hf₁ h₁ hproc₁ hq₁ => rwp_bind (hf₁.rwp_filecloseHeld h₁ hE
      (fun _ _ => ⟨rfl, List.not_mem_nil⟩) (fun _ _ => Iff.rfl) id
      (fun v₂ hf₂ h₂ hproc₂ hq₂ => rwp_pure (hQ v₂ hf₂ h₂ (hproc₂.trans hproc₁)
        (hq₁.trans hq₂))))))

theorem Idle.rwp_sysPipe [LogErrs E] {u : User} {fdarray : Nat} {page : Option Nat} {Q : Int → View → Prop}
    (h : Idle sb v) (hE : Errs E) (hp : (v.proc p).state = .used)
    (hpage : ∀ pi, page = some pi → v.pipe pi = none) (hQ : ∀ r v', Still sb v v' → Q r v') :
    rwp (Rep sb) (sysPipe sb p u fdarray page) Q E v := by
  refine rwp_bind (h.files.rwp_pipealloc h.inodes hE hpage (fun v₁ hf₁ h₁ hproc₁ hq₁ => ?_)
    (fun f₀ f₁ v₁ hf₁ h₁ hproc₁ hq₁ => ?_))
  · exact rwp_pure (hQ _ v₁ (Still.mk' h.dirs h₁ hf₁ (h.procs.congr hproc₁) hq₁))
  have hprocs₁ := h.procs.congr hproc₁
  have hused₁ : (v₁.proc p).state = .used := by rw [hproc₁]; exact hp
  have hf₁' : Files v₁ [f₀, f₁] [] [] := hf₁.perm (List.Perm.swap ..) (List.Perm.refl _)
  -- the call gives up with both files held
  have hquit : ∀ w : View, Files w [f₀, f₁] [] [] → Inodes w [] [] [] [] → Procs w →
      Quiet v₁.node w.node → rwp (Rep sb) (do fileclose sb f₀; fileclose sb f₁; pure (-1)) Q E w :=
    fun w hf hi hpr hq => hf.rwp_closeBoth hi hE (fun w' hf' hi' hproc' hq' =>
      hQ _ w' (Still.mk' h.dirs hi' hf' (hpr.congr hproc') ((hq₁.trans hq).trans hq')))
  refine rwp_bind (rwp_fdalloc (fun _ => hquit v₁ hf₁' h₁ hprocs₁ (Quiet.refl _))
    (fun fd₀ hfd₀ => ?_))
  have hf₂ := hf₁'.showFd (p := p) hfd₀
  have h₂ := h₁.withProc (p := p) (x := (v₁.proc p).setFd fd₀ (some f₀)) rfl
  have hprocs₂ := hprocs₁.setFd hused₁ fd₀ (some f₀)
  set v₂ := v₁.withProc p ((v₁.proc p).setFd fd₀ (some f₀)) with hv₂
  have hproc₂ : v₂.proc p = (v₁.proc p).setFd fd₀ (some f₀) := update_self ..
  have hused₂ : (v₂.proc p).state = .used := by rw [hproc₂]; exact hused₁
  have hshown₂ : (v₂.proc p).ofile fd₀ = some f₀ := by
    rw [hproc₂]
    exact update_self ..
  refine rwp_bind (rwp_fdalloc (fun _ => ?_) (fun fd₁ hfd₁ => ?_))
  · refine rwp_bind (rwp_setFd (hquit _ (hf₂.hideFd hshown₂) (h₂.withProc rfl)
      (hprocs₂.setFd hused₂ fd₀ none) (Quiet.refl _)))
  have hf₃ := hf₂.showFd (p := p) hfd₁
  have h₃ := h₂.withProc (p := p) (x := (v₂.proc p).setFd fd₁ (some f₁)) rfl
  have hprocs₃ := hprocs₂.setFd hused₂ fd₁ (some f₁)
  set v₃ := v₂.withProc p ((v₂.proc p).setFd fd₁ (some f₁)) with hv₃
  have hproc₃ : v₃.proc p = (v₂.proc p).setFd fd₁ (some f₁) := update_self ..
  have hused₃ : (v₃.proc p).state = .used := by rw [hproc₃]; exact hused₂
  have hne : fd₀ ≠ fd₁ := by
    rintro rfl
    rw [hshown₂] at hfd₁
    cases hfd₁
  have hshown₃ : (v₃.proc p).ofile fd₀ = some f₀ := by
    rw [hproc₃]
    exact (update_of_ne hne ..).trans hshown₂
  refine rwp_ite (fun _ => rwp_pure (hQ _ v₃ (Still.mk' h.dirs h₃ hf₃ hprocs₃ hq₁))) (fun _ => ?_)
  have hf₄ := hf₃.hideFd hshown₃
  refine rwp_bind (rwp_setFd (rwp_bind (rwp_setFd (hquit _ ((hf₄.hideFd ?_).perm (List.Perm.swap ..)
    (List.Perm.refl _)) ((h₃.withProc (x := (v₃.proc p).setFd fd₀ none) rfl).withProc rfl)
    ((hprocs₃.setFd hused₃ fd₀ none).setFd ?_ fd₁ none) (Quiet.refl _)))))
  · rw [View.withProc_proc, update_self, hproc₃]
    exact (update_of_ne (Ne.symm hne) ..).trans (update_self ..)
  · rw [View.withProc_proc, update_self]
    exact hused₃

end MakePipe

/-! ## Processes -/

section Processes

variable {sb : Superblock} {E : Stop → Prop} {v : View} {p q : ProcId} {f : FileId}

/-- `filedup` of an open file; the call has the new reference. -/
theorem Files.dup (hf : Files v [] [] []) (hr : 0 < (v.ftable f).ref) :
    Files (v.withFile f ((v.ftable f).withRef ((v.ftable f).ref + 1))) [f] [] [] := by
  have hrefs := hf.refs f
  rw [List.count_nil] at hrefs
  refine hf.withRef hr (by omega) (fun g hg => ⟨List.count_cons_of_ne (Ne.symm hg), rfl⟩) ?_
    (Nat.zero_le _) List.not_mem_nil (fun _ => Iff.rfl)
  rw [List.count_cons_self, List.count_nil]
  omega

/-- What the loop of `fork` has done: the files at `done` are open in the child as well. -/
structure Inherited (v : View) (q : ProcId) (done : List (Fin NOFILE)) (v' : View) : Prop where
  inodes : Inodes v' [] [] [] []
  files : Files v' [] [] []
  node : v'.node = v.node
  slot : v'.slot = v.slot
  other : ∀ r, r ≠ q → v'.proc r = v.proc r
  child : ∃ g, v'.proc q = { v.proc q with ofile := g } ∧ ∀ fd, fd ∉ done → g fd = none

theorem rwp_forkFiles {Q : Unit → View → Prop} (hi : Inodes v [] [] [] []) (hf : Files v [] [] [])
    (hq : ∀ fd, (v.proc q).ofile fd = none)
    (hQ : ∀ v', Inherited v q (List.finRange NOFILE) v' → Q () v') :
    rwp (Rep sb) ((List.finRange NOFILE).forM fun i => do
      let x ← getProc p
      match x.ofile i with
      | none => pure ()
      | some f => do
        filedup f
        setFd q i (some f)) Q E v := by
  refine rwp_forM (fun done v' => Inherited v q done v') ?_ (fun done fd rest v' hl hc => ?_) hQ
  · exact ⟨hi, hf, rfl, rfl, fun _ _ => rfl, _, rfl, fun fd _ => hq fd⟩
  obtain ⟨hi', hf', hnode, hslot, hother, g, hg, hnone⟩ := hc
  have hfd : fd ∉ done := by
    have hnodup := List.nodup_finRange NOFILE
    rw [hl, List.nodup_append] at hnodup
    exact fun hm => hnodup.2.2 fd hm fd List.mem_cons_self rfl
  refine rwp_bind (rwp_getProc ?_)
  cases hx : (v'.proc p).ofile fd with
  | none =>
    exact rwp_pure ⟨hi', hf', hnode, hslot, hother, g, hg, fun j hj => hnone j (by
      rw [List.mem_append] at hj
      exact fun hm => hj (Or.inl hm))⟩
  | some f =>
    have hr := hf'.fd_open hx
    refine rwp_bind (rwp_filedup hr (rwp_setFd ?_))
    have hfree : (v'.proc q).ofile fd = none := by
      rw [hg]
      exact hnone fd hfd
    refine ⟨(hi'.withRef hr (by omega)).withProc rfl, (hf'.dup hr).showFd hfree, hnode, hslot,
      fun r hrq => ?_, update g fd (some f), ?_, fun j hj => ?_⟩
    · rw [View.withProc_proc, update_of_ne hrq]
      exact hother r hrq
    · rw [View.withProc_proc, update_self, View.withFile_proc, hg]
      rfl
    · rw [List.mem_append, List.mem_singleton, not_or] at hj
      rw [update_of_ne hj.2]
      exact hnone j hj.1

theorem Idle.rwp_sysFork {memory : Bool} {Q : Int → View → Prop} (h : Idle sb v)
    (hp : (v.proc p).state = .used) (hQ : ∀ r v', Still sb v v' → Q r v') :
    rwp (Rep sb) (sysFork p memory) Q E v := by
  refine rwp_bind (rwp_get (fun s hs => ?_))
  have hproc : s.proc = v.proc := hs.proc
  split
  · exact rwp_pure (hQ _ v h.still)
  next q hfind =>
  have hstate : (v.proc q).state = .unused := by
    have := List.find?_some hfind
    rw [hproc] at this
    simpa using this
  have hne : p ≠ q := by
    rintro rfl
    rw [hp] at hstate
    cases hstate
  obtain ⟨hcwd, hofile⟩ := h.procs.unused q (by rw [hstate]; decide)
  refine rwp_ite (fun _ => rwp_pure (hQ _ v h.still)) (fun _ => ?_)
  refine rwp_bind (rwp_forkFiles h.inodes h.files hofile (fun v₁ hc₁ => ?_))
  obtain ⟨c, hc⟩ := Option.ne_none_iff_exists'.1 (h.procs.used p hp)
  have hpc : (v₁.proc p).cwd = some c := by rw [hc₁.other p hne]; exact hc
  refine rwp_bind (rwp_getCwd hpc (rwp_bind (hc₁.inodes.rwp_idup
    (hc₁.inodes.ref_pos_of_cwd (View.cwds_pos hpc)) (fun v₂ h₂ hs₂ => ?_))))
  obtain ⟨g, hg, -⟩ := hc₁.child
  have hq₂ : (v₂.proc q).cwd = none := by
    rw [hs₂.proc, hg]
    exact hcwd
  have hdir : (v₂.node (v₁.slot c).inum).type = .dir := by
    rw [hs₂.node]
    exact hc₁.inodes.cwd c (by rw [List.count_nil]; exact View.cwds_pos hpc)
  refine rwp_bind (rwp_setProc (rwp_pure (hQ _ _ (Still.mk' h.dirs
    (h₂.own.firstCwd hq₂ rfl hdir) ?_ ?_ ?_))))
  · exact (hs₂.kept.files hc₁.files).withProc rfl
  · refine h.procs.change (p := q) (fun r hr => ?_) (fun _ => ?_) (fun hr => absurd ?_ hr)
    · rw [View.withProc_proc, update_of_ne hr, hs₂.proc, hc₁.other r hr]
    · rw [View.withProc_proc, update_self]
      exact Option.some_ne_none _
    · rw [View.withProc_proc, update_self]
  · show Quiet v.node v₂.node
    rw [hs₂.node, hc₁.node]
    exact Quiet.refl _

/-- What the loop of `exit` has done: the descriptors at `done` are closed. -/
structure Emptied (v : View) (p : ProcId) (done : List (Fin NOFILE)) (v' : View) : Prop where
  inodes : Inodes v' [] [] [] []
  files : Files v' [] [] []
  quiet : Quiet v.node v'.node
  other : ∀ r, r ≠ p → v'.proc r = v.proc r
  self : ∃ g, v'.proc p = { v.proc p with ofile := g } ∧ ∀ fd, fd ∈ done → g fd = none

theorem rwp_exitFiles [LogErrs E] {Q : Unit → View → Prop} (hi : Inodes v [] [] [] []) (hf : Files v [] [] [])
    (hE : Errs E) (hQ : ∀ v', Emptied v p (List.finRange NOFILE) v' → Q () v') :
    rwp (Rep sb) ((List.finRange NOFILE).forM fun fd => do
      let x ← getProc p
      match x.ofile fd with
      | none => pure ()
      | some f => do
        fileclose sb f
        setFd p fd none) Q E v := by
  refine rwp_forM (fun done v' => Emptied v p done v') ?_ (fun done fd rest v' _ hc => ?_) hQ
  · exact ⟨hi, hf, Quiet.refl _, fun _ _ => rfl, _, rfl, fun fd h => absurd h List.not_mem_nil⟩
  obtain ⟨hi', hf', hq, hother, g, hg, hnone⟩ := hc
  refine rwp_bind (rwp_getProc ?_)
  cases hx : (v'.proc p).ofile fd with
  | none =>
    refine rwp_pure ⟨hi', hf', hq, hother, g, hg, fun j hj => ?_⟩
    rcases List.mem_append.1 hj with hj | hj
    · exact hnone j hj
    · rw [List.mem_singleton.1 hj]
      rw [hg] at hx
      exact hx
  | some f =>
    refine rwp_bind (hf'.rwp_filecloseShown hi' hE (by rw [List.count_nil]; exact View.fds_pos hx)
      (fun _ _ => ⟨rfl, List.not_mem_nil⟩) (fun w hfw hiw hproc hqw => rwp_setFd ?_))
    rw [← hproc] at hx
    refine ⟨hiw.withProc rfl, hfw.hideOwed hx, hq.trans hqw, fun r hr => ?_,
      update g fd none, ?_, fun j hj => ?_⟩
    · rw [View.withProc_proc, update_of_ne hr, hproc]
      exact hother r hr
    · rw [View.withProc_proc, update_self, hproc, hg]
      rfl
    · by_cases hjf : j = fd
      · rw [hjf, update_self]
      · rw [update_of_ne hjf]
        exact hnone j ((List.mem_append.1 hj).resolve_right
          (fun h => hjf (List.mem_singleton.1 h)))

/-- The children of `p` are given to init. -/
def View.reparent (v : View) (p : ProcId) : View :=
  { v with proc := fun q =>
      if (v.proc q).parent = some p then { v.proc q with parent := some initproc } else v.proc q }

theorem View.reparent_field {α : Type} (g : Proc → α)
    (hg : ∀ (x : Proc) (r : Option ProcId), g { x with parent := r } = g x) (v : View) (p q : ProcId) :
    g ((v.reparent p).proc q) = g (v.proc q) := by
  unfold View.reparent
  dsimp only
  split
  · exact hg _ _
  · rfl

theorem rwp_reparent {Q : Unit → View → Prop} (hQ : Q () (v.reparent p)) :
    rwp (Rep sb) (modify fun s =>
      { s with proc := fun q =>
          if (s.proc q).parent = some p then { s.proc q with parent := some initproc }
          else s.proc q }) Q E v := by
  rintro s ⟨hg, rfl⟩
  exact ⟨_, ⟨⟨hg.disk, hg.ref_nonneg, hg.range, hg.unique, hg.coherent, hg.nlink_short⟩, rfl⟩, hQ⟩

theorem Inodes.reparent (h : Inodes v [] [] [] []) : Inodes (v.reparent p) [] [] [] [] := by
  have hcwds : ∀ jp, (v.reparent p).cwds jp = v.cwds jp := fun jp =>
    tally_congr (fun q => by rw [View.reparent_field (·.cwd) (fun _ _ => rfl)])
  exact ⟨fun jp => by rw [hcwds]; exact h.refs jp, fun jp => by rw [hcwds]; exact h.owed jp, h.held,
    h.locked, h.locked_held, h.orphan, h.file, h.writable, fun jp => by rw [hcwds]; exact h.cwd jp⟩

theorem Procs.reparent (h : Procs v) : Procs (v.reparent p) := by
  refine ⟨fun q hq => ?_, fun q hq => ?_⟩ <;>
    rw [View.reparent_field (·.state) (fun _ _ => rfl)] at hq <;>
    rw [View.reparent_field (·.cwd) (fun _ _ => rfl)]
  · exact h.used q hq
  · rw [View.reparent_field (·.ofile) (fun _ _ => rfl)]
    exact h.unused q hq

theorem Files.reparent (h : Files v [] [] []) : Files (v.reparent p) [] [] [] :=
  h.congr rfl rfl (fun q => View.reparent_field (·.ofile) (fun _ _ => rfl) v p q)

theorem Idle.rwp_sysExit [LogErrs E] {Q : Int → View → Prop} (h : Idle sb v) (hE : Errs E)
    (hinit : p = initproc → E (.panic .initExiting)) (hp : (v.proc p).state = .used)
    (hQ : ∀ r v', Still sb v v' → Q r v') : rwp (Rep sb) (sysExit sb p) Q E v := by
  refine rwp_ite (fun hi => rwp_throw (hinit hi)) (fun _ => ?_)
  refine rwp_bind (rwp_exitFiles h.inodes h.files hE (fun v₁ h₁ => ?_))
  obtain ⟨g, hg, hnone⟩ := h₁.self
  obtain ⟨c, hc⟩ := Option.ne_none_iff_exists'.1 (h.procs.used p hp)
  have hc₁ : (v₁.proc p).cwd = some c := by rw [hg]; exact hc
  refine rwp_bind (rwp_getCwd hc₁ (rwp_bind (rwp_transaction
    ((h₁.inodes.lendCwd hc₁).rwp_iputOwn hE rfl (fun hm => absurd hm List.not_mem_nil)
      (fun v₂ h₂ hput _ => ?_)))))
  have hproc₂ : ∀ r, r ≠ p → v₂.proc r = v.proc r := fun r hr => by
    rw [hput.proc]
    exact h₁.other r hr
  refine rwp_bind (rwp_setProc (rwp_bind (rwp_reparent (rwp_pure (hQ _ _ (Still.mk' h.dirs
    (Inodes.reparent ?_) (Files.reparent ?_) (Procs.reparent ?_) (h₁.quiet.trans hput.quiet)))))))
  · exact h₂.dropCwd (by rw [hput.proc]; exact hc₁) rfl
  · exact (hput.kept.files h₁.files).withProc rfl
  · refine h.procs.change (p := p) (fun r hr => ?_) (fun hr => absurd hr ?_) (fun _ => ?_)
    · rw [View.withProc_proc, update_of_ne hr, hproc₂ r hr]
    · simp
    · rw [View.withProc_proc, update_self]
      refine ⟨rfl, fun fd => ?_⟩
      show (v₂.proc p).ofile fd = none
      rw [hput.proc, hg]
      exact hnone fd (List.mem_finRange fd)

theorem Idle.rwp_sysWait {u : User} {env : Env} {addr : Nat} {Q : Int → View → Prop}
    (h : Idle sb v) (hE : Errs E) (hQ : ∀ r v', Still sb v v' → Q r v') :
    rwp (Rep sb) (sysWait p u env addr) Q E v := by
  refine rwp_bind (rwp_get (fun s hs => ?_))
  have hproc : s.proc = v.proc := hs.proc
  split
  · next q hfind =>
      have hstate : (v.proc q).state = .zombie := by
        have := List.find?_some hfind
        rw [hproc] at this
        simp only [decide_eq_true_eq] at this
        exact this.2
      obtain ⟨hcwd, hofile⟩ := h.procs.unused q (by rw [hstate]; decide)
      refine rwp_ite (fun _ => rwp_pure (hQ _ v h.still)) (fun _ => rwp_bind (rwp_setProc (rwp_pure
        (hQ _ _ (Still.mk' h.dirs (h.inodes.withProc rfl) (h.files.withProc rfl) ?_ (Quiet.refl _))))))
      exact h.procs.withProc (fun hu => by cases hu) (fun _ => ⟨hcwd, hofile⟩)
  · exact rwp_ite (fun _ => rwp_pure (hQ _ v h.still)) (fun _ => rwp_throw hE.stuck)

end Processes

end Xv6.Fs
