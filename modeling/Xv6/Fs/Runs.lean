import Xv6.Fs.Boot
import Xv6.Fs.Calls

set_option autoImplicit false

/-! # Runs of system calls

From a consistent image (`Consistent`) every sequence of completed calls leads to states in order
(`Sound`): the disk is, and between two calls every reference is accounted for. What a call does to
the name space is one `Change`. A call ends in few panics only; which ones there can be depends on the
link counts and directory entries (`CallErrs`). -/

namespace Xv6.Fs

open Wp Machine Function

variable {sb : Superblock}

/-! ## One call -/

/-- What the call does to the name space. -/
def Event.op (e : Event) : NameOp :=
  match e.call with
  | .link old new => linkOp e.u old new
  | .unlink path => pathOp e.u path .unlink
  | .open path omode => pathOp e.u path (openOp omode)
  | .mkdir path => pathOp e.u path (.create · .dir)
  | .mknod path _ _ => pathOp e.u path (.create · .device)
  | _ => .nothing

/-- The ways in which a call may stop. -/
structure CallErrs (E : Stop → Prop) (v : View) (p : ProcId) : Prop extends PathErrs E v, LogErrs E where
  noLink : NoLinkErr E v.node
  init : p = initproc → E (.panic .initExiting)

theorem Idle.rwp_syscall {v : View} {E : Stop → Prop} {e : Event} (h : Idle sb v)
    (hE : CallErrs E v e.p) (hp : (v.proc e.p).state = .used)
    (hpage : ∀ fdarray pi, e.call = .pipe fdarray (some pi) → v.pipe pi = none) :
    rwp (Rep sb) (syscall sb e) (fun _ v' => Ended sb v e.p e.op v') E v := by
  refine rwp_ok fun hok => ?_
  have := hE.toLogErrs
  have hcwd := h.procs.used e.p hp
  have hstill : ∀ (r : Int) v', Still sb v v' → Ended sb v e.p e.op v' := fun _ _ hs => hs.ended
  unfold syscall
  split
  · exact h.rwp_sysDup hp hstill
  · exact h.rwp_sysRead hE.toErrs hstill
  · exact h.rwp_sysWrite hE.toErrs hstill
  · exact h.rwp_sysClose hp hE.toErrs hstill
  · exact h.rwp_sysFstat hE.toErrs hstill
  · next hc =>
      refine h.inodes.rwp_sysLink hE.toPathErrs h.dirs hcwd (fun r v' hd => h.ended_of_done hok ?_)
      rw [Event.op, hc]
      exact hd
  · next hc =>
      refine h.inodes.rwp_sysUnlink hE.toPathErrs hE.noLink h.dirs hcwd
        (fun r v' hd => h.ended_of_done hok ?_)
      rw [Event.op, hc]
      exact hd
  · next hc =>
      refine h.rwp_sysOpen hE.toPathErrs hp (fun r v' hd => ?_)
      rw [Event.op, hc]
      exact hd
  · next hc =>
      refine h.inodes.rwp_makeInode hE.toPathErrs h.dirs hcwd (by decide)
        (fun r v' hd => h.ended_of_done hok ?_)
      rw [Event.op, hc]
      exact hd
  · next hc =>
      refine h.inodes.rwp_makeInode hE.toPathErrs h.dirs hcwd (by decide)
        (fun r v' hd => h.ended_of_done hok ?_)
      rw [Event.op, hc]
      exact hd
  · exact h.rwp_sysChdir hE.toPathErrs hp hstill
  · exact h.rwp_sysExec hE.toPathErrs hp hstill
  · next fdarray page hc =>
      exact h.rwp_sysPipe hE.toErrs hp (fun pi hpi => hpage fdarray pi (by rw [hc, hpi])) hstill
  · exact h.rwp_sysFork hp hstill
  · exact h.rwp_sysExit hE.toErrs hE.init hp hstill
  · exact h.rwp_sysWait hE.toErrs hstill

/-- Between two calls. -/
structure Sound (sb : Superblock) (s : State) : Prop where
  good : Good sb s
  idle : Idle sb (s.view sb)

/-- The step of a call: where it goes on, and in which panics it ends. -/
theorem Sound.call {s : State} {e : Event} {E : Stop → Prop} (h : Sound sb s)
    (hE : CallErrs E (s.view sb) e.p) :
    (∀ s', step sb s e = .next s' → Sound sb s' ∧ Ended sb (s.view sb) e.p e.op (s'.view sb)) ∧
      ∀ x, step sb s e = .panic x → E x := by
  have hcall : e.enabled s = true → wp (syscall sb e)
      (fun _ s' => Sound sb s' ∧ Ended sb (s.view sb) e.p e.op (s'.view sb)) E s := by
    intro hen
    have hen' : (s.proc e.p).state = .used ∧
        ∀ fdarray pi, e.call = .pipe fdarray (some pi) → s.pipe pi = none := by
      unfold Event.enabled at hen
      rw [Bool.and_eq_true, decide_eq_true_eq] at hen
      refine ⟨hen.1, fun fdarray pi hc => ?_⟩
      have := hen.2
      rw [hc] at this
      exact Option.isNone_iff_eq_none.1 this
    have hrep : Rep sb (s.view sb) s := ⟨h.good, rfl⟩
    refine (h.idle.rwp_syscall hE hen'.1 hen'.2 s hrep).mono (fun r s' => ?_) (fun _ he => he)
    rintro ⟨v', ⟨hg, rfl⟩, hend⟩
    exact ⟨⟨hg, hend.idle⟩, hend⟩
  refine ⟨fun s' hs' => ?_, fun x hx => ?_⟩
  · obtain ⟨hen, hrun⟩ := Outcome.guard_eq_next.1 hs'
    split at hrun
    · next r s₁ hok =>
        cases hrun
        exact (hcall hen).of_ok hok
    · cases hrun
    · cases hrun
  · obtain ⟨hen, hrun⟩ := Outcome.guard_eq_panic.1 hx
    split at hrun
    · cases hrun
    · cases hrun
    · next stop hne herr =>
        cases hrun
        exact (hcall hen).of_error herr

/-! ## Whole runs -/

/-- An image of a file system in order, with no inode that only a process of an earlier boot kept
    alive. -/
structure Consistent (sb : Superblock) (dinode : Nat → Dinode) (bitmap : Nat → Bool)
    (data : Nat → Block) : Prop where
  disk : DiskOk sb dinode bitmap data
  /-- Link counts are C `short`s. -/
  nlink_short : ∀ i, Alloc sb dinode i → short (dinode i).nlink = (dinode i).nlink
  linked : ∀ i, Alloc sb dinode i → (dinode i).nlink ≠ 0
  root : Alloc sb dinode ROOTINO ∧ (dinode ROOTINO).type = .dir
  dirs : ∀ i, Alloc sb dinode i → (dinode i).type = .dir → DirOk sb (content data (dinode i))

section Boot

variable {dinode : Nat → Dinode} {bitmap : Nat → Bool} {data : Nat → Block}

theorem boot_node (i : Nat) :
    ((boot dinode bitmap data).view sb).node i = (boot dinode bitmap data).node sb i := rfl

theorem boot_proc (p : ProcId) :
    ((boot dinode bitmap data).view sb).proc p =
      if p = initproc then { Proc.blank with cwd := some 0, state := .used } else Proc.blank := by
  show update _ _ _ p = _
  split
  · next h => rw [h, update_self]
  · next h => rw [update_of_ne h]; rfl

theorem boot_files (ip : InodeId) : ((boot dinode bitmap data).view sb).files ip = 0 :=
  tally_eq_zero_iff.2 (fun _ hu => absurd hu.1 (Int.lt_irrefl 0))

theorem boot_cwds (ip : InodeId) :
    ((boot dinode bitmap data).view sb).cwds ip = if ip = 0 then 1 else 0 := by
  have hproc : ((boot dinode bitmap data).view sb).proc = update (fun _ => Proc.blank)
      initproc { Proc.blank with cwd := some 0, state := .used } := rfl
  have hzero : tally (fun _ : ProcId => Proc.blank) (fun x => x.cwd = some ip) = 0 :=
    tally_eq_zero_iff.2 (fun _ h => by cases h)
  unfold View.cwds
  rw [hproc]
  split
  · next h =>
      rw [tally_update_gain (by simp [Proc.blank]) (by simp [h]), hzero]
  · next h =>
      rw [tally_update_same (by simpa [Proc.blank] using Ne.symm h), hzero]

theorem Consistent.inodes (h : Consistent sb dinode bitmap data) :
    Inodes ((boot dinode bitmap data).view sb) [] [] [] [] := by
  have hslot : ∀ ip, ((boot dinode bitmap data).view sb).slot ip =
      if ip = 0 then Inode.rootEntry.slot else Inode.blank.slot := by
    intro ip
    show ((boot dinode bitmap data).itable ip).slot = _
    rw [boot_itable]
    split <;> rfl
  refine ⟨fun ip => ?_, fun ip => Nat.zero_le _, fun x hx => ?_, fun ip => ?_,
    fun ip hip => absurd hip List.not_mem_nil, fun i hi hn => ?_,
    fun f hr => absurd hr (Int.lt_irrefl 0), fun f hr => absurd hr (Int.lt_irrefl 0),
    fun ip hip => ?_⟩
  · rw [boot_files, boot_cwds, hslot]
    split <;> rfl
  · rcases hx with hx | hx <;> exact absurd hx List.not_mem_nil
  · rw [hslot]
    split <;> exact iff_of_false Bool.false_ne_true List.not_mem_nil
  · have halloc : Alloc sb dinode i := node_type_ne_free.1 hi
    have hnode := node_of_alloc (s := boot dinode bitmap data) halloc
    rw [boot_node, hnode] at hn
    exact absurd hn (h.linked i halloc)
  · rw [boot_cwds] at hip
    by_cases h0 : ip = 0
    · have hnode := node_of_alloc (s := boot dinode bitmap data) h.root.1
      rw [hslot, if_pos h0]
      show ((boot dinode bitmap data).node sb ROOTINO).type = .dir
      rw [hnode]
      exact h.root.2
    · rw [if_neg h0] at hip
      exact absurd hip (Nat.lt_irrefl 0)

theorem boot_openFiles : Files ((boot dinode bitmap data).view sb) [] [] [] := by
  refine ⟨fun f => ?_, fun f => Nat.zero_le _, fun f _ => rfl,
    fun f hr => absurd hr (Int.lt_irrefl 0), fun f hf => absurd hf List.not_mem_nil,
    ⟨fun f pi w he => absurd he.1 (Int.lt_irrefl 0), fun pi q hq => (by cases hq),
      fun pi q w hq => (by cases hq), fun f g pi w he => absurd he.1 (Int.lt_irrefl 0)⟩⟩
  have hfds : ((boot dinode bitmap data).view sb).fds f = 0 := by
    refine tally_eq_zero_iff.2 (fun x hx => ?_)
    rw [boot_proc] at hx
    split at hx <;> cases hx
  rw [hfds]
  rfl

theorem boot_procs : Procs ((boot dinode bitmap data).view sb) := by
  refine ⟨fun p hp => ?_, fun p hp => ?_⟩ <;> rw [boot_proc] at hp ⊢ <;> split at hp
  · next h0 => simp [h0]
  · cases hp
  · exact absurd rfl hp
  · next h0 =>
      rw [if_neg h0]
      exact ⟨rfl, fun _ => rfl⟩

theorem Consistent.sound (h : Consistent sb dinode bitmap data) :
    Sound sb (boot dinode bitmap data) := by
  refine ⟨boot_good h.disk h.nlink_short, h.inodes, boot_openFiles, boot_procs, fun i hi => ?_⟩
  have halloc : Alloc sb dinode i := node_type_ne_free.1 (by
    show ((boot dinode bitmap data).node sb i).type ≠ .free
    rw [← boot_node, hi]
    decide)
  have hnode := node_of_alloc (s := boot dinode bitmap data) halloc
  rw [boot_node, hnode] at hi ⊢
  exact h.dirs i halloc hi

end Boot

/-- The panics that a call can end in. -/
def CallPanic (x : Stop) : Prop :=
  x = .stuck ∨ x = .panic .igetNoInodes ∨ x = .panic .ilockNoType ∨ x = .panic .unlinkNlink ∨
    x = .panic .initExiting ∨ LogPanic x

theorem callErrs_callPanic (v : View) (p : ProcId) : CallErrs CallPanic v p :=
  ⟨⟨⟨Or.inl rfl, by simp [CallPanic]⟩, fun _ _ _ _ _ _ => by simp [CallPanic],
    fun _ => by simp [CallPanic]⟩, ⟨by simp [CallPanic, LogPanic], by simp [CallPanic, LogPanic]⟩,
    fun _ _ _ _ _ _ _ => by simp [CallPanic], fun _ => by simp [CallPanic]⟩

theorem Sound.next {s s' : State} {e : Event} (h : Sound sb s) (hs : step sb s e = .next s') :
    Sound sb s' :=
  ((h.call (callErrs_callPanic _ _)).1 s' hs).1

theorem Sound.of_run {s s' : State} (es : List Event) (h : Sound sb s)
    (hs : run (step sb) s es = .next s') : Sound sb s' :=
  run_keeps (Sound sb) (fun _ _ _ hI hstep => hI.next hstep) es h hs

theorem Sound.panic_of_run {s : State} (es : List Event) {x : Stop} (h : Sound sb s)
    (hx : run (step sb) s es = .panic x) : CallPanic x := by
  by_contra hn
  exact run_ne_panic (Sound sb) (fun _ _ _ hI hstep => hI.next hstep)
    (fun s e hI hp => hn ((hI.call (callErrs_callPanic _ _)).2 x hp)) es h hx

/-! ## Blocks -/

variable {dinode : Nat → Dinode} {bitmap : Nat → Bool} {data : Nat → Block}

/-- Between two calls the data blocks in use are those of the allocated inodes, each in one place. -/
theorem blocks_owned (h : Consistent sb dinode bitmap data) (es : List Event) :
    (∀ s, run (step sb) (boot dinode bitmap data) es = .next s →
      (∀ k, refs sb s.dinode s.data k ≠ 0 →
        sb.dataStart ≤ refs sb s.dinode s.data k ∧ refs sb s.dinode s.data k < sb.size ∧
          s.bitmap (refs sb s.dinode s.data k) = true) ∧
      (∀ k l, refs sb s.dinode s.data k ≠ 0 →
        refs sb s.dinode s.data k = refs sb s.dinode s.data l → k = l) ∧
      ∀ b, sb.dataStart ≤ b → b < sb.size → s.bitmap b = true →
        ∃ k, refs sb s.dinode s.data k = b) ∧
    run (step sb) (boot dinode bitmap data) es ≠ .panic (.panic .freeingFreeBlock) ∧
    run (step sb) (boot dinode bitmap data) es ≠ .panic .outside := by
  refine ⟨fun s hs => ?_, fun hx => ?_, fun hx => ?_⟩
  · obtain ⟨hrange, hmarked, hinj, howned, -⟩ := (h.sound.of_run es hs).good.disk.own
    exact ⟨fun k hk => ⟨(hrange k hk).1, (hrange k hk).2, hmarked k hk⟩, hinj, howned⟩
  · simpa [CallPanic, LogPanic] using h.sound.panic_of_run es hx
  · simpa [CallPanic, LogPanic] using h.sound.panic_of_run es hx

theorem tiny_content_root : content tinyData rootDinode = newDir ROOTINO ROOTINO := by
  decide +kernel

theorem tiny_consistent : Consistent tinySb tinyDinode tinyBitmap tinyData := by
  have hroot : tinyDinode ROOTINO = rootDinode := if_pos rfl
  refine ⟨tiny_diskOk, tiny_nlink_short, fun i hi => ?_, ⟨tiny_alloc_root, ?_⟩, fun i hi _ => ?_⟩
  · rw [tiny_alloc hi, hroot]
    decide
  · rw [hroot]
    rfl
  · rw [tiny_alloc hi, hroot, tiny_content_root]
    exact newDir_ok tinySb.root_lt tinySb.root_lt

/-- The first process makes the file `/a`, writes its own memory to it, makes the directory `/b` and
    removes the file. -/
def tinyRun : List Event :=
  [initCall [slash, 97] (.open 0 0x202), initCall [slash, 97] (.write 0 0 3),
    initCall [slash, 98] (.mkdir 0), initCall [slash, 97] (.unlink 0)]

theorem tinyRun_next : ∃ s, run (step tinySb) tiny tinyRun = .next s := by
  have hany : (run (step tinySb) tiny tinyRun).any (fun _ => true) = true := by decide +kernel
  obtain ⟨s, hs, -⟩ := Outcome.exists_of_any hany
  exact ⟨s, hs⟩

theorem blocks_owned_tinyRun :
    ∃ s, run (step tinySb) tiny tinyRun = .next s ∧
      ∀ b, 4 ≤ b → b < 16 → s.bitmap b = true → ∃ k, refs tinySb s.dinode s.data k = b := by
  obtain ⟨s, hs⟩ := tinyRun_next
  exact ⟨s, hs, ((blocks_owned tiny_consistent tinyRun).1 s hs).2.2⟩

/-! ## References -/

/-- The file descriptors of a file. -/
def State.fds (s : State) (f : FileId) : Nat :=
  tally (fun x : ProcId × Fin NOFILE => (s.proc x.1).ofile x.2) fun y => y = some f

/-- The open files of an entry of the inode table. -/
def State.openFiles (s : State) (ip : InodeId) : Nat := tally s.ftable fun f => f.Uses ip

/-- The processes with an entry of the inode table as their current directory. -/
def State.cwds (s : State) (ip : InodeId) : Nat := tally s.proc fun x => x.cwd = some ip

/-- Between two calls all reference counts are exact, and a page is a pipe while one of its ends is
    open. -/
theorem references_exact (h : Consistent sb dinode bitmap data) (es : List Event) :
    (∀ s, run (step sb) (boot dinode bitmap data) es = .next s →
      (∀ f, (s.ftable f).ref = s.fds f) ∧
      (∀ ip, (s.itable ip).ref = s.openFiles ip + s.cwds ip) ∧
      ∀ pi, (s.pipe pi).isSome ↔ ∃ f w, (s.ftable f).Ends pi w) ∧
    run (step sb) (boot dinode bitmap data) es ≠ .panic (.panic .filedup) ∧
    run (step sb) (boot dinode bitmap data) es ≠ .panic (.panic .fileclose) ∧
    run (step sb) (boot dinode bitmap data) es ≠ .panic .outside := by
  refine ⟨fun s hs => ?_, fun hx => ?_, fun hx => ?_, fun hx => ?_⟩
  · have hidle := (h.sound.of_run es hs).idle
    refine ⟨fun f => ?_, fun ip => ?_, fun pi => ⟨fun hpi => ?_, ?_⟩⟩
    · have href : (s.ftable f).ref = (s.fds f : Int) + 0 - 0 := hidle.files.refs f
      omega
    · have href : (s.itable ip).ref = (s.openFiles ip : Int) + s.cwds ip + 0 + 0 - 0 :=
        hidle.inodes.refs ip
      omega
    · obtain ⟨q, hq⟩ := Option.isSome_iff_exists.1 hpi
      obtain ⟨w, hw⟩ := hidle.files.pipes.page pi q hq
      obtain ⟨f, hf⟩ := hidle.files.pipes.file pi q w hq hw
      exact ⟨f, w, hf⟩
    · rintro ⟨f, w, hf⟩
      obtain ⟨q, hq, -⟩ := hidle.files.pipes.ends f pi w hf
      exact Option.isSome_iff_exists.2 ⟨q, hq⟩
  · simpa [CallPanic, LogPanic] using h.sound.panic_of_run es hx
  · simpa [CallPanic, LogPanic] using h.sound.panic_of_run es hx
  · simpa [CallPanic, LogPanic] using h.sound.panic_of_run es hx

theorem references_exact_tinyRun :
    ∃ s, run (step tinySb) tiny tinyRun = .next s ∧
      ∀ ip, (s.itable ip).ref = s.openFiles ip + s.cwds ip := by
  obtain ⟨s, hs⟩ := tinyRun_next
  exact ⟨s, hs, ((references_exact tiny_consistent tinyRun).1 s hs).2.1⟩

/-! ## Names -/

/-- Between two calls the tables and the disk are sound, each call does its operation on names or none,
    and only a few panics can end a run. -/
theorem calls_refine_names (h : Consistent sb dinode bitmap data) (es : List Event) :
    (∀ s, run (step sb) (boot dinode bitmap data) es = .next s → Sound sb s ∧
      ∀ e s', step sb s e = .next s' →
        ∃ n, Change sb (s.view sb) e.p e.op n ∧ Quiet n (s'.node sb)) ∧
    ∀ x, run (step sb) (boot dinode bitmap data) es = .panic x → CallPanic x := by
  refine ⟨fun s hs => ?_, fun x => h.sound.panic_of_run es⟩
  have hsound := h.sound.of_run es hs
  exact ⟨hsound, fun e s' hs' => ((hsound.call (callErrs_callPanic _ e.p)).1 s' hs').2.change⟩

theorem calls_refine_names_tinyRun :
    ∃ s, run (step tinySb) tiny tinyRun = .next s ∧ Sound tinySb s := by
  obtain ⟨s, hs⟩ := tinyRun_next
  exact ⟨s, hs, ((calls_refine_names tiny_consistent tinyRun).1 s hs).1⟩

end Xv6.Fs
