import Mathlib.Data.Fintype.Prod
import Xv6.Fs.Sysfile
import Xv6.Fs.Refs

set_option autoImplicit false

/-! # References to files

Who refers to an entry of the file table: the file descriptors of the processes, and the call that
is running. `Files v A B N` says that the reference counts are exactly that. `A` are the references
that the call holds itself and `B` those that it has given up, or not taken yet, although a file
descriptor shows them. `N` are the files that have been allocated and not been set up. An open file
of a pipe and the page of the pipe keep each other (`Pipes`).

The functions of `kernel/file.c` and `kernel/pipe.c` are given rules in these terms. -/

namespace Xv6.Fs

open Wp Function

/-! ## Pipes -/

/-- Whether the reading or the writing end of a pipe is open. -/
def Pipe.isOpen (q : Pipe) (writable : Bool) : Bool := if writable then q.writeopen else q.readopen

/-- An open file of this end of the pipe in a page. -/
def File.Ends (f : File) (pi : Nat) (writable : Bool) : Prop :=
  0 < f.ref ∧ f.type = .pipe ∧ f.pipe = pi ∧ f.writable = writable

instance (f : File) (pi : Nat) (w : Bool) : Decidable (f.Ends pi w) :=
  inferInstanceAs (Decidable (_ ∧ _))

structure Pipes (v : View) : Prop where
  ends : ∀ f pi w, (v.ftable f).Ends pi w → ∃ q, v.pipe pi = some q ∧ q.isOpen w = true
  /-- The page is freed when both ends are closed. -/
  page : ∀ pi q, v.pipe pi = some q → ∃ w, q.isOpen w = true
  file : ∀ pi q w, v.pipe pi = some q → q.isOpen w = true → ∃ f, (v.ftable f).Ends pi w
  unique : ∀ f g pi w, (v.ftable f).Ends pi w → (v.ftable g).Ends pi w → f = g

/-! ## Files -/

/-- The file descriptors that point to a file. -/
def View.fds (v : View) (f : FileId) : Nat :=
  tally (fun x : ProcId × Fin NOFILE => (v.proc x.1).ofile x.2) fun y => y = some f

structure Files (v : View) (A B N : List FileId) : Prop where
  refs : ∀ f, (v.ftable f).ref = v.fds f + A.count f - B.count f
  owed : ∀ f, B.count f ≤ v.fds f
  closed : ∀ f, (v.ftable f).ref = 0 → (v.ftable f).type = .none
  opened : ∀ f, 0 < (v.ftable f).ref → f ∉ N → (v.ftable f).type ≠ .none
  fresh : ∀ f, f ∈ N → (v.ftable f).type = .none ∧ (v.ftable f).ref ≤ 1
  pipes : Pipes v

/-- A process in use has a current directory, and any other has nothing. -/
structure Procs (v : View) : Prop where
  used : ∀ p, (v.proc p).state = .used → (v.proc p).cwd ≠ none
  unused : ∀ p, (v.proc p).state ≠ .used →
    (v.proc p).cwd = none ∧ ∀ fd, (v.proc p).ofile fd = none

/-- `p->ofile[fd] = f`. -/
@[simps -fullyApplied] def Proc.setFd (x : Proc) (fd : Fin NOFILE) (f : Option FileId) : Proc :=
  { x with ofile := update x.ofile fd f }

section Files

variable {v v' : View} {A B N A' B' N' : List FileId} {H O : List Hold} {W L : List InodeId}
  {f : FileId} {ip : InodeId} {p : ProcId} {x : File} {pi : Nat} {q : Pipe}

@[grind =] theorem View.ftable_withFile {g : FileId} :
    (v.withFile f x).ftable g = if g = f then x else v.ftable g :=
  update_apply ..

@[grind =] theorem View.pipe_withPipe {pj : Nat} {q : Option Pipe} :
    (v.withPipe pi q).pipe pj = if pj = pi then q else v.pipe pj :=
  update_apply ..

@[grind =] theorem View.pipe_withFile {pj : Nat} : (v.withFile f x).pipe pj = v.pipe pj := rfl

@[grind =] theorem View.ftable_withPipe {q : Option Pipe} :
    (v.withPipe pi q).ftable f = v.ftable f := rfl

theorem Pipes.congr (h : Pipes v) (hf : v'.ftable = v.ftable) (hp : v'.pipe = v.pipe) : Pipes v' := by
  obtain ⟨h1, h2, h3, h4⟩ := h
  exact ⟨by rwa [hf, hp], by rwa [hp], by rwa [hf, hp], by rwa [hf]⟩

theorem View.fds_congr (hp : ∀ p, (v'.proc p).ofile = (v.proc p).ofile) : v'.fds f = v.fds f :=
  tally_congr (fun x => by rw [hp])

theorem Files.congr (h : Files v A B N) (hf : v'.ftable = v.ftable) (hpipe : v'.pipe = v.pipe)
    (hp : ∀ p, (v'.proc p).ofile = (v.proc p).ofile) : Files v' A B N := by
  refine ⟨fun g => ?_, fun g => ?_, ?_, ?_, ?_, h.pipes.congr hf hpipe⟩
  · rw [hf, View.fds_congr hp]
    exact h.refs g
  · rw [View.fds_congr hp]
    exact h.owed g
  · rw [hf]
    exact h.closed
  · rw [hf]
    exact h.opened
  · rw [hf]
    exact h.fresh

theorem Files.perm (h : Files v A B N) (hA : A.Perm A') (hN : N.Perm N') : Files v A' B N' :=
  ⟨fun g => by rw [← hA.count_eq g]; exact h.refs g, h.owed, h.closed,
    fun g hr hg => h.opened g hr (fun hm => hg (hN.mem_iff.1 hm)),
    fun g hg => h.fresh g (hN.mem_iff.2 hg), h.pipes⟩

/-- A new pipe is set up with its two files. -/
theorem Files.makePipe {f₀ f₁ : FileId} {x₀ x₁ : File} (h : Files v A B [f₁, f₀])
    (href₀ : x₀.ref = (v.ftable f₀).ref) (href₁ : x₁.ref = (v.ftable f₁).ref)
    (htype₀ : x₀.type = .pipe) (htype₁ : x₁.type = .pipe) (hpos₀ : 0 < x₀.ref) (hpos₁ : 0 < x₁.ref)
    (hpipes : Pipes (((v.withPipe pi (some q)).withFile f₀ x₀).withFile f₁ x₁)) :
    Files (((v.withPipe pi (some q)).withFile f₀ x₀).withFile f₁ x₁) A B [] := by
  have hat : ∀ g, (((v.withPipe pi (some q)).withFile f₀ x₀).withFile f₁ x₁).ftable g =
      if g = f₁ then x₁ else if g = f₀ then x₀ else v.ftable g := by
    grind
  refine ⟨fun g => ?_, h.owed, fun g => ?_, fun g => ?_, fun g hg => (List.not_mem_nil hg).elim,
    hpipes⟩
  · have hrefs := h.refs g
    rw [hat]
    split_ifs with h₁ h₀
    · rwa [href₁, ← h₁]
    · rwa [href₀, ← h₀]
    · exact hrefs
  · grind [h.closed g]
  · grind [h.opened g]

/-- A change of one file, with the references of the call. -/
theorem Files.change (h : Files v A B N) (hf : v'.ftable = update v.ftable f x)
    (hproc : v'.proc = v.proc)
    (hcount : ∀ g, g ≠ f → A'.count g = A.count g ∧ B'.count g = B.count g)
    (href : x.ref = v.fds f + A'.count f - B'.count f) (howed : B'.count f ≤ v.fds f)
    (hclosed : x.ref = 0 → x.type = .none) (hopened : 0 < x.ref → f ∉ N' → x.type ≠ .none)
    (hfresh : f ∈ N' → x.type = .none ∧ x.ref ≤ 1) (hN : ∀ g, g ≠ f → (g ∈ N' ↔ g ∈ N))
    (hpipes : Pipes v') :
    Files v' A' B' N' := by
  have hfds : ∀ g, v'.fds g = v.fds g := fun g => View.fds_congr (fun p => by rw [hproc])
  have hat : ∀ g, v'.ftable g = if g = f then x else v.ftable g := fun g => by
    rw [hf, update_apply]
  refine ⟨fun g => ?_, fun g => ?_, fun g => ?_, fun g => ?_, fun g => ?_, hpipes⟩
  · grind [h.refs g]
  · grind [h.owed g]
  · grind [h.closed g]
  · grind [h.opened g]
  · grind [h.fresh g]

/-- A change of a file that does not concern its pipe. -/
theorem Pipes.withFile (h : Pipes v) (hx : ∀ pi w, x.Ends pi w ↔ (v.ftable f).Ends pi w) :
    Pipes (v.withFile f x) := by
  have hends : ∀ g pi w, ((v.withFile f x).ftable g).Ends pi w ↔ (v.ftable g).Ends pi w := by
    grind
  refine ⟨fun g pi w hg => h.ends g pi w ((hends g pi w).1 hg), h.page, fun pi q w hq hw => ?_,
    fun g g' pi w hg hg' => h.unique g g' pi w ((hends g pi w).1 hg) ((hends g' pi w).1 hg')⟩
  obtain ⟨g, hg⟩ := h.file pi q w hq hw
  exact ⟨g, (hends g pi w).2 hg⟩

/-- Bytes go through a pipe. -/
theorem Pipes.withPipe {q' : Pipe} (h : Pipes v) (hq : v.pipe pi = some q)
    (hopen : ∀ w, q'.isOpen w = q.isOpen w) : Pipes (v.withPipe pi (some q')) := by
  have hcases : ∀ pj r, (v.withPipe pi (some q')).pipe pj = some r →
      ∃ r', v.pipe pj = some r' ∧ ∀ w, r.isOpen w = r'.isOpen w := by
    grind
  refine ⟨fun f pj w hf => ?_, fun pj r hr => ?_, fun pj r w hr hw => ?_, h.unique⟩
  · obtain ⟨r, hr, hw⟩ := h.ends f pj w hf
    by_cases hj : pj = pi
    · exact ⟨q', by grind, by grind⟩
    · exact ⟨r, by grind, hw⟩
  · obtain ⟨r', hr', hopen'⟩ := hcases pj r hr
    obtain ⟨w, hw⟩ := h.page pj r' hr'
    exact ⟨w, by rwa [hopen']⟩
  · obtain ⟨r', hr', hopen'⟩ := hcases pj r hr
    exact h.file pj r' w hr' (by rwa [← hopen'])

/-- One end of a pipe is closed. -/
def Pipe.shut (q : Pipe) (writable : Bool) : Pipe :=
  if writable then { q with writeopen := false } else { q with readopen := false }

/-- What `pipeclose` makes of the pipe. -/
def Pipe.close (q : Pipe) (writable : Bool) : Option Pipe :=
  if (q.shut writable).readopen = false ∧ (q.shut writable).writeopen = false then none
  else some (q.shut writable)

theorem Pipe.isOpen_shut (q : Pipe) (w w' : Bool) :
    (q.shut w).isOpen w' = if w' = w then false else q.isOpen w' := by
  cases w <;> cases w' <;> rfl

theorem Pipe.closed_iff (q : Pipe) :
    (q.readopen = false ∧ q.writeopen = false) ↔ ∀ w, q.isOpen w = false := by
  simp [Pipe.isOpen]

theorem Pipe.close_eq_some {r : Pipe} {w : Bool} (h : q.close w = some r) :
    r = q.shut w ∧ ∃ w', r.isOpen w' = true := by
  unfold Pipe.close at h
  split at h
  · cases h
  · next hopen =>
      cases h
      rw [Pipe.closed_iff] at hopen
      refine ⟨rfl, ?_⟩
      by_contra hno
      exact hopen (fun w' => Bool.eq_false_iff.2 (fun hw' => hno ⟨w', hw'⟩))

theorem Pipe.close_eq_none {w w' : Bool} (h : q.close w = none) (hne : w' ≠ w) :
    q.isOpen w' = false := by
  unfold Pipe.close at h
  split at h
  · next hc =>
      rw [Pipe.closed_iff] at hc
      simpa [Pipe.isOpen_shut, hne] using hc w'
  · cases h

/-- The last reference to one end of a pipe is given up. -/
theorem Pipes.close {w : Bool} (h : Pipes v) (hf : (v.ftable f).Ends pi w) (hq : v.pipe pi = some q)
    (hx : ∀ pj w', ¬ x.Ends pj w') :
    Pipes ((v.withFile f x).withPipe pi (q.close w)) := by
  have hends : ∀ g pj w', (((v.withFile f x).withPipe pi (q.close w)).ftable g).Ends pj w' ↔
      g ≠ f ∧ (v.ftable g).Ends pj w' := by
    grind
  -- the other files of the page are of the other end
  have hotherEnd : ∀ g w', g ≠ f → (v.ftable g).Ends pi w' → w' ≠ w := by
    rintro g w' hne hg rfl
    exact hne (h.unique g f pi w' hg hf)
  refine ⟨fun g pj w' hg => ?_, fun pj r hr => ?_, fun pj r w' hr hw => ?_, fun g g' pj w' hg hg' => ?_⟩
  · obtain ⟨hne, hg'⟩ := (hends g pj w').1 hg
    obtain ⟨r, hr, hw⟩ := h.ends g pj w' hg'
    by_cases hj : pj = pi
    · subst hj
      have hw' := hotherEnd g w' hne hg'
      cases hc : q.close w with
      | none => grind [Pipe.close_eq_none hc hw']
      | some r' => exact ⟨r', by grind, by grind [(Pipe.close_eq_some hc).1, Pipe.isOpen_shut]⟩
    · exact ⟨r, by grind, hw⟩
  · by_cases hj : pj = pi
    · have hr : q.close w = some r := by grind
      exact (Pipe.close_eq_some hr).2
    · exact h.page pj r (by grind)
  · by_cases hj : pj = pi
    · subst hj
      have hr : q.close w = some r := by grind
      rw [(Pipe.close_eq_some hr).1, Pipe.isOpen_shut] at hw
      obtain ⟨g, hg⟩ := h.file pj q w' hq (by grind)
      exact ⟨g, (hends g pj w').2 ⟨by grind [File.Ends], hg⟩⟩
    · obtain ⟨g, hg⟩ := h.file pj r w' (by grind) hw
      exact ⟨g, (hends g pj w').2 ⟨by grind [File.Ends], hg⟩⟩
  · exact h.unique g g' pj w' ((hends g pj w').1 hg).2 ((hends g' pj w').1 hg').2

/-- A new pipe with a file for each end. -/
theorem Pipes.make {f₀ f₁ : FileId} {x₀ x₁ : File} (h : Pipes v) (hne : f₀ ≠ f₁)
    (hpi : v.pipe pi = none) (h₀ : ∀ pj w, ¬ (v.ftable f₀).Ends pj w)
    (h₁ : ∀ pj w, ¬ (v.ftable f₁).Ends pj w) (hx₀ : x₀.Ends pi false) (hx₁ : x₁.Ends pi true)
    (hq : ∀ w, q.isOpen w = true) :
    Pipes (((v.withPipe pi (some q)).withFile f₀ x₀).withFile f₁ x₁) := by
  have hat : ∀ g, (((v.withPipe pi (some q)).withFile f₀ x₀).withFile f₁ x₁).ftable g =
      if g = f₁ then x₁ else if g = f₀ then x₀ else v.ftable g := by
    grind
  have hnew : ∀ g w, ¬ (v.ftable g).Ends pi w := by
    intro g w hg
    obtain ⟨r, hr, -⟩ := h.ends g pi w hg
    rw [hpi] at hr
    cases hr
  -- an end is one of the new ones or one of the old ones
  have hends : ∀ g pj w, ((((v.withPipe pi (some q)).withFile f₀ x₀).withFile f₁ x₁).ftable g).Ends
      pj w ↔ (pj = pi ∧ g = if w then f₁ else f₀) ∨ (pj ≠ pi ∧ (v.ftable g).Ends pj w) := by
    intro g pj w
    rw [hat]
    have hold := hnew g w
    cases w <;> grind [File.Ends]
  refine ⟨fun g pj w hg => ?_, fun pj r hr => ?_, fun pj r w hr hw => ?_, fun g g' pj w hg hg' => ?_⟩
  · rcases (hends g pj w).1 hg with ⟨rfl, -⟩ | ⟨hj, hg'⟩
    · exact ⟨q, by grind, hq w⟩
    · obtain ⟨r, hr, hw⟩ := h.ends g pj w hg'
      exact ⟨r, by grind, hw⟩
  · by_cases hj : pj = pi
    · exact ⟨true, by grind⟩
    · exact h.page pj r (by grind)
  · by_cases hj : pj = pi
    · exact ⟨if w then f₁ else f₀, (hends _ pj w).2 (Or.inl ⟨hj, rfl⟩)⟩
    · obtain ⟨g, hg⟩ := h.file pj r w (by grind) hw
      exact ⟨g, (hends g pj w).2 (Or.inr ⟨hj, hg⟩)⟩
  · rw [hends] at hg hg'
    grind [h.unique]

/-! ## The inodes of files -/

theorem files_withFile_ne (hx : x.Uses ip ↔ (v.ftable f).Uses ip) :
    (v.withFile f x).files ip = v.files ip :=
  tally_update_same hx

/-- What a file that uses an inode relies on. -/
def File.Sound (x : File) (v : View) : Prop :=
  0 < x.ref → x.type = .inode ∨ x.type = .device →
    (v.slot x.ip).valid = true ∧
    (x.type = .inode → x.writable = true → (v.node (v.slot x.ip).inum).type = .file)

theorem Inodes.sound (h : Inodes v H O W L) (f : FileId) : (v.ftable f).Sound v :=
  fun hr ht => ⟨h.file f hr ht, fun hi hw => h.writable f hr hi hw⟩

/-- A change of a file, when the references come out right. -/
theorem Inodes.changeFile {O' : List Hold} (h : Inodes v H O W L) (hx : x.Sound v)
    (hcount : ∀ jp, (v.withFile f x).files jp + holds O' jp = v.files jp + holds O jp)
    (hheld : ∀ y, y ∈ O' → (v.slot y.1).inum = y.2)
    (hlocked : ∀ jp, jp ∈ L → 0 < holds H jp + holds O' jp) :
    Inodes (v.withFile f x) H O' W L := by
  have hself : (v.withFile f x).ftable f = x := update_self ..
  have hother : ∀ g, g ≠ f → (v.withFile f x).ftable g = v.ftable g :=
    fun g hg => update_of_ne hg _ _
  have hsound : ∀ g, ((v.withFile f x).ftable g).Sound v := by
    intro g
    by_cases hg : g = f
    · subst hg
      rwa [hself]
    · rw [hother g hg]
      exact h.sound g
  refine ⟨fun jp => ?_, h.owed, fun y hy => ?_, h.locked, fun jp hj => ⟨hlocked jp hj,
    (h.locked_held jp hj).2⟩, h.orphan, fun g hr ht => (hsound g hr ht).1,
    fun g hr ht hw => (hsound g hr (Or.inl ht)).2 ht hw, h.cwd⟩
  · have h1 := h.refs jp
    have h2 := hcount jp
    have h3 : (v.withFile f x).cwds jp = v.cwds jp := rfl
    rw [View.withFile_slot, h3]
    omega
  · rcases hy with hy | hy
    · exact h.held y (Or.inl hy)
    · exact hheld y hy

/-- A change of a file that does not concern its inode. -/
theorem Inodes.withFile (h : Inodes v H O W L) (hx : ∀ jp, x.Uses jp ↔ (v.ftable f).Uses jp)
    (hsound : x.Sound v) :
    Inodes (v.withFile f x) H O W L :=
  h.changeFile hsound (fun jp => by rw [files_withFile_ne (hx jp)])
    (fun y hy => h.held y (Or.inr hy)) (fun jp hj => (h.locked_held jp hj).1)

theorem File.Uses.eq {jp : InodeId} (h : x.Uses ip) (h' : x.Uses jp) : ip = jp :=
  h.2.2.symm.trans h'.2.2

/-- The last reference to a file of an inode is given up; the call takes over the inode. -/
theorem Inodes.closeFile (h : Inodes v H O W L) (hf : (v.ftable f).Uses ip) (hx : ∀ jp, ¬ x.Uses jp) :
    Inodes (v.withFile f x) H ((ip, (v.slot ip).inum) :: O) W L := by
  refine h.changeFile (fun hr ht => absurd ⟨hr, ht, rfl⟩ (hx x.ip)) (fun jp => ?_) (fun y hy => ?_)
    (fun jp hj => ?_)
  · rw [holds_cons]
    by_cases hj : ip = jp
    · subst hj
      have : (v.withFile f x).files ip + 1 = v.files ip := tally_update_lose hf (hx ip)
      rw [if_pos rfl]
      omega
    · have hno : ¬ (v.ftable f).Uses jp := fun hu => hj (hf.eq hu)
      rw [if_neg hj, files_withFile_ne (iff_of_false (hx jp) hno), Nat.add_zero]
  · rcases List.mem_cons.1 hy with rfl | hy
    · rfl
    · exact h.held y (Or.inr hy)
  · have := (h.locked_held jp hj).1
    rw [holds_cons]
    omega

/-- A file is opened on an inode of the call. -/
theorem Inodes.openFile {i : Nat} (h : Inodes v H ((ip, i) :: O) W L)
    (hf : ∀ jp, ¬ (v.ftable f).Uses jp) (hx : x.Uses ip) (hsound : x.Sound v) (hip : ip ∉ L) :
    Inodes (v.withFile f x) H O W L := by
  refine h.changeFile hsound (fun jp => ?_) (fun y hy => h.held y (Or.inr (List.mem_cons_of_mem _ hy)))
    (fun jp hj => ?_)
  · rw [holds_cons]
    by_cases hj : ip = jp
    · subst hj
      have : (v.withFile f x).files ip = v.files ip + 1 := tally_update_gain (hf ip) hx
      rw [if_pos rfl]
      omega
    · have hno : ¬ x.Uses jp := fun hu => hj (hx.eq hu)
      rw [if_neg hj, files_withFile_ne (iff_of_false hno (hf jp)), Nat.add_zero]
  · have := (h.locked_held jp hj).1
    rwa [holds_cons, if_neg (by rintro rfl; exact hip hj)] at this

theorem Inodes.withPipe (h : Inodes v H O W L) (pi : Nat) (q : Option Pipe) :
    Inodes (v.withPipe pi q) H O W L :=
  ⟨h.refs, h.owed, h.held, h.locked, h.locked_held, h.orphan, h.file, h.writable, h.cwd⟩

/-- A change of a process that keeps its current directory. -/
theorem Inodes.withProc {x : Proc} (h : Inodes v H O W L) (hx : x.cwd = (v.proc p).cwd) :
    Inodes (v.withProc p x) H O W L := by
  have hcwds : ∀ jp, (v.withProc p x).cwds jp = v.cwds jp :=
    fun jp => tally_update_same (by rw [hx])
  exact ⟨fun jp => by rw [hcwds]; exact h.refs jp, fun jp => by rw [hcwds]; exact h.owed jp, h.held,
    h.locked, h.locked_held, h.orphan, h.file, h.writable, fun jp => by rw [hcwds]; exact h.cwd jp⟩

/-! ## File descriptors -/

section Descriptors

variable {fd : Fin NOFILE} {y : Option FileId}

theorem View.fds_setFd (v : View) (p : ProcId) (fd : Fin NOFILE) (y : Option FileId) (g : FileId) :
    (v.withProc p ((v.proc p).setFd fd y)).fds g + tallyOne (· = some g) ((v.proc p).ofile fd) =
      v.fds g + tallyOne (· = some g) y := by
  have hupd : (fun x : ProcId × Fin NOFILE =>
      ((v.withProc p ((v.proc p).setFd fd y)).proc x.1).ofile x.2) =
      update (fun x : ProcId × Fin NOFILE => (v.proc x.1).ofile x.2) (p, fd) y := by
    funext ⟨q, j⟩
    rw [View.withProc_proc]
    by_cases hq : q = p
    · subst hq
      by_cases hj : j = fd
      · subst hj
        simp
      · simp [hj]
    · simp [hq]
  unfold View.fds
  rw [hupd]
  exact tally_update (p, fd) y

/-- A change of one file descriptor, with the references of the call. -/
theorem Files.changeFd (h : Files v A B N)
    (hcount : ∀ g, (A'.count g : Int) - B'.count g + tallyOne (· = some g) y =
      A.count g - B.count g + tallyOne (· = some g) ((v.proc p).ofile fd))
    (howed : ∀ g, B'.count g + tallyOne (· = some g) ((v.proc p).ofile fd) ≤
      v.fds g + tallyOne (· = some g) y) :
    Files (v.withProc p ((v.proc p).setFd fd y)) A' B' N := by
  refine ⟨fun g => ?_, fun g => ?_, h.closed, h.opened, h.fresh, h.pipes.congr rfl rfl⟩
  · have h1 := h.refs g
    have h2 := View.fds_setFd v p fd y g
    have h3 := hcount g
    rw [View.withProc_ftable]
    omega
  · have h2 := View.fds_setFd v p fd y g
    have h3 := howed g
    omega

theorem tallyOne_some (f g : FileId) :
    tallyOne (· = some g) (some f) = if f = g then 1 else 0 := by
  unfold tallyOne
  simp only [Option.some.injEq]

theorem tallyOne_none (g : FileId) : tallyOne (· = some g) (none : Option FileId) = 0 := by
  simp [tallyOne]

/-- A free descriptor is given to a file that the call holds. -/
theorem Files.showFd (h : Files v (f :: A) B N) (hfd : (v.proc p).ofile fd = none) :
    Files (v.withProc p ((v.proc p).setFd fd (some f))) A B N := by
  refine h.changeFd (fun g => ?_) (fun g => ?_) <;> rw [hfd, tallyOne_some, tallyOne_none]
  all_goals grind [h.owed g]

/-- A free descriptor is given to a file before its count is raised. -/
theorem Files.showOwed (h : Files v A B N) (hfd : (v.proc p).ofile fd = none) :
    Files (v.withProc p ((v.proc p).setFd fd (some f))) A (f :: B) N := by
  refine h.changeFd (fun g => ?_) (fun g => ?_) <;> rw [hfd, tallyOne_some, tallyOne_none]
  all_goals grind [h.owed g]

theorem View.fds_pos (hfd : (v.proc p).ofile fd = some f) : 0 < v.fds f :=
  tally_pos_of (ι := ProcId × Fin NOFILE) (x := (p, fd)) hfd

/-- A descriptor is cleared, and the call takes over its reference. -/
theorem Files.hideFd (h : Files v A [] N) (hfd : (v.proc p).ofile fd = some f) :
    Files (v.withProc p ((v.proc p).setFd fd none)) (f :: A) [] N := by
  refine h.changeFd (fun g => ?_) (fun g => ?_) <;> rw [hfd, tallyOne_some, tallyOne_none]
  all_goals grind [View.fds_pos hfd]

/-- A descriptor is cleared after its file has been closed. -/
theorem Files.hideOwed (h : Files v A (f :: B) N) (hfd : (v.proc p).ofile fd = some f) :
    Files (v.withProc p ((v.proc p).setFd fd none)) A B N := by
  refine h.changeFd (fun g => ?_) (fun g => ?_) <;> rw [hfd, tallyOne_some, tallyOne_none]
  all_goals grind [h.owed g]

/-- An open descriptor is of an open file. -/
theorem Files.fd_open (h : Files v A [] N) (hfd : (v.proc p).ofile fd = some f) :
    0 < (v.ftable f).ref := by
  have hrefs := h.refs f
  have hpos := View.fds_pos hfd
  rw [List.count_nil] at hrefs
  omega

end Descriptors

end Files

end Xv6.Fs
