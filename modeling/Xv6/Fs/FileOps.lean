import Xv6.Fs.Files

set_option autoImplicit false

/-! # Rules for files and pipes

The functions of `kernel/file.c` and `kernel/pipe.c` in terms of `Inodes` and `Files`. As seen from
the name space they do little: the bytes of a file may change, and an inode without links may be
freed when the last file of it is closed (`Quiet`). -/

namespace Xv6.Fs

open Wp Function

/-! ## Changes that the name space does not see -/

/-- A node keeps its place in the name space, or is freed for want of links. -/
def Node.Quiet (a b : Node) : Prop :=
  (b.type = a.type ∧ b.nlink = a.nlink ∧ (a.type = .dir → b.bytes = a.bytes)) ∨
    ((a.type = .free ∨ a.nlink = 0) ∧ b.type = .free)

def Quiet (n n' : Nat → Node) : Prop := ∀ i, (n i).Quiet (n' i)

section Quiet

variable {n n' n'' : Nat → Node} {i : Nat}

theorem Node.Quiet.refl (a : Node) : a.Quiet a := Or.inl ⟨rfl, rfl, fun _ => rfl⟩

theorem Quiet.refl (n : Nat → Node) : Quiet n n := fun i => Node.Quiet.refl (n i)

theorem Node.Quiet.trans {a b c : Node} (h : a.Quiet b) (h' : b.Quiet c) : a.Quiet c := by
  rcases h with ⟨h1, h2, h3⟩ | ⟨h1, h2⟩
  · rcases h' with ⟨h1', h2', h3'⟩ | ⟨h1', h2'⟩
    · exact Or.inl ⟨h1'.trans h1, h2'.trans h2, fun hd => (h3' (h1.trans hd)).trans (h3 hd)⟩
    · exact Or.inr ⟨by rwa [← h1, ← h2], h2'⟩
  · refine Or.inr ⟨h1, ?_⟩
    rcases h' with ⟨h1', -, -⟩ | ⟨-, h2'⟩
    · exact h1'.trans h2
    · exact h2'

theorem Quiet.trans (h : Quiet n n') (h' : Quiet n' n'') : Quiet n n'' :=
  fun i => (h i).trans (h' i)

theorem Quiet.update {x : Node} (hx : (n i).Quiet x) : Quiet n (Function.update n i x) := by
  intro j
  by_cases hj : j = i
  · subst hj
    rwa [Function.update_self]
  · rw [Function.update_of_ne hj]
    exact Node.Quiet.refl _

theorem Quiet.withBytes (hi : (n i).type ≠ .dir) (bytes : List UInt8) :
    Quiet n (Function.update n i ((n i).withBytes bytes)) :=
  Quiet.update (Or.inl ⟨rfl, rfl, fun hd => absurd hd hi⟩)

theorem Put.quiet {v v' : View} (h : Put v v' i) : Quiet v.node v'.node := by
  rcases h.node with hn | ⟨hnlink, hn⟩
  · rw [hn]
    exact Quiet.refl _
  · rw [hn]
    exact Quiet.update (Or.inr ⟨Or.inr hnlink, rfl⟩)

theorem SlotsOnly.quiet {v v' : View} (h : SlotsOnly v v') : Quiet v.node v'.node := by
  rw [h.node]
  exact Quiet.refl _

/-- What is a directory afterwards was the same directory before. -/
theorem Quiet.dir (h : Quiet n n') (hd : (n' i).type = .dir) :
    (n i).type = .dir ∧ (n' i).bytes = (n i).bytes ∧ (n' i).nlink = (n i).nlink := by
  rcases h i with ⟨h1, h2, h3⟩ | ⟨-, h2⟩
  · have hd' := h1.symm.trans hd
    exact ⟨hd', h3 hd', h2⟩
  · rw [h2] at hd
    cases hd

end Quiet

/-! ## Tables -/

section Tables

variable {sb : Superblock} {E : Stop → Prop} {v : View} {s : State} {Q : Unit → View → Prop}
  {x : File}

theorem Rep.withFile (h : Rep sb v s) (f : FileId) (x : File) :
    Rep sb (v.withFile f x) (s.withFile f x) := by
  obtain ⟨hg, rfl⟩ := h
  exact ⟨⟨hg.disk, hg.ref_nonneg, hg.range, hg.unique, hg.coherent, hg.nlink_short⟩, rfl⟩

theorem Rep.withPipe (h : Rep sb v s) (pi : Nat) (q : Option Pipe) :
    Rep sb (v.withPipe pi q) (s.withPipe pi q) := by
  obtain ⟨hg, rfl⟩ := h
  exact ⟨⟨hg.disk, hg.ref_nonneg, hg.range, hg.unique, hg.coherent, hg.nlink_short⟩, rfl⟩

theorem Rep.withProc (h : Rep sb v s) (p : ProcId) (x : Proc) :
    Rep sb (v.withProc p x) (s.withProc p x) := by
  obtain ⟨hg, rfl⟩ := h
  exact ⟨⟨hg.disk, hg.ref_nonneg, hg.range, hg.unique, hg.coherent, hg.nlink_short⟩, rfl⟩

theorem Rep.ftable (h : Rep sb v s) : s.ftable = v.ftable := by
  rw [← h.2]
  rfl

theorem Rep.pipe (h : Rep sb v s) : s.pipe = v.pipe := by
  rw [← h.2]
  rfl

theorem Rep.proc (h : Rep sb v s) : s.proc = v.proc := by
  rw [← h.2]
  rfl

theorem rwp_getFile {f : FileId} {Q : File → View → Prop} (hQ : Q (v.ftable f) v) :
    rwp (Rep sb) (getFile f) Q E v :=
  fun _ hs => ⟨v, hs, by rwa [hs.ftable]⟩

theorem rwp_setFile {f : FileId} {g : File → File} (hQ : Q () (v.withFile f (g (v.ftable f)))) :
    rwp (Rep sb) (setFile f g) Q E v := by
  intro s hs
  refine ⟨_, hs.withFile f (g (s.ftable f)), ?_⟩
  rwa [hs.ftable]

theorem rwp_getProc {p : ProcId} {Q : Proc → View → Prop} (hQ : Q (v.proc p) v) :
    rwp (Rep sb) (getProc p) Q E v :=
  fun _ hs => ⟨v, hs, by rwa [hs.proc]⟩

theorem rwp_setProc {p : ProcId} {g : Proc → Proc} (hQ : Q () (v.withProc p (g (v.proc p)))) :
    rwp (Rep sb) (setProc p g) Q E v := by
  intro s hs
  refine ⟨_, hs.withProc p (g (s.proc p)), ?_⟩
  rwa [hs.proc]

theorem rwp_getPipe {pi : Nat} {q : Pipe} {Q : Pipe → View → Prop} (hq : v.pipe pi = some q)
    (hQ : Q q v) : rwp (Rep sb) (getPipe pi) Q E v := by
  refine rwp_bind (rwp_get (fun s hs => ?_))
  rw [hs.pipe, hq]
  exact rwp_pure hQ

theorem rwp_setPipe {pi : Nat} {q : Pipe} (hQ : Q () (v.withPipe pi (some q))) :
    rwp (Rep sb) (setPipe pi q) Q E v :=
  fun _ hs => ⟨_, hs.withPipe pi (some q), hQ⟩

/-! ## Pipes -/

/-- Both ends are as before. -/
def Pipe.SameEnds (q q' : Pipe) : Prop := q'.readopen = q.readopen ∧ q'.writeopen = q.writeopen

theorem Pipe.SameEnds.trans {q q' q'' : Pipe} (h : q.SameEnds q') (h' : q'.SameEnds q'') :
    q.SameEnds q'' :=
  ⟨h'.1.trans h.1, h'.2.trans h.2⟩

theorem Pipe.SameEnds.isOpen {q q' : Pipe} (h : q.SameEnds q') (w : Bool) :
    q'.isOpen w = q.isOpen w := by
  unfold Pipe.isOpen
  rw [h.1, h.2]

theorem View.withPipe_withPipe (v : View) (pi : Nat) (q q' : Option Pipe) :
    (v.withPipe pi q).withPipe pi q' = v.withPipe pi q' := by
  show { v with pipe := update (update v.pipe pi q) pi q' } = _
  rw [update_idem]
  rfl

/-- The pipe in the page stays, with the same ends open; nothing else changes. -/
def Piped (pi : Nat) (q : Pipe) (v w : View) : Prop :=
  ∃ q', q.SameEnds q' ∧ w = v.withPipe pi (some q')

theorem Piped.refl {pi : Nat} {q : Pipe} (hq : v.pipe pi = some q) : Piped pi q v v := by
  refine ⟨q, ⟨rfl, rfl⟩, ?_⟩
  show v = { v with pipe := update v.pipe pi (some q) }
  rw [← hq, update_eq_self]

section Piped

variable {pi : Nat} {q : Pipe} {w : View}

theorem Piped.pipe (h : Piped pi q v w) : ∃ q', w.pipe pi = some q' ∧
    ∀ q'', q'.SameEnds q'' → Piped pi q v (w.withPipe pi (some q'')) := by
  obtain ⟨q', hsame, rfl⟩ := h
  exact ⟨q', update_self .., fun q'' h'' => ⟨q'', hsame.trans h'', v.withPipe_withPipe ..⟩⟩

theorem rwp_sleepPipe {rs : List Ring} {Q : List Ring → View → Prop}
    (hE : E .stuck) (hq : v.pipe pi = some q)
    (hQ : ∀ rs' q', rs.length = rs'.length + 1 → q.SameEnds q' →
      Q rs' (v.withPipe pi (some q'))) :
    rwp (Rep sb) (sleepPipe pi rs) Q E v := by
  cases rs with
  | nil => exact rwp_throw hE
  | cons r rs =>
    exact rwp_bind (rwp_getPipe hq (rwp_bind (rwp_setPipe (rwp_pure
      (hQ rs _ rfl ⟨rfl, rfl⟩)))))

theorem Piped.rwp_pipewriteLoop {src : Nat → Option UInt8} {n : Int} {killed : Bool} (hE : E .stuck)
    (rounds : Nat) {i : Nat} {rs : List Ring} (h : Piped pi q v w)
    (hfuel : n.toNat - i + rs.length < rounds) : rwp (Rep sb)
      (pipewriteLoop pi src n killed rounds i rs) (fun _ => Piped pi q v) E w := by
  induction rounds generalizing w i rs with
  | zero => omega
  | succ rounds ih =>
    obtain ⟨q', hq, hset⟩ := h.pipe
    refine rwp_ite (fun hi => ?_) (fun _ => rwp_pure h)
    refine rwp_bind (rwp_getPipe hq (rwp_ite (fun _ => rwp_pure h) (fun _ => ?_)))
    refine rwp_ite (fun _ => ?_) (fun _ => ?_)
    · -- the pipe is full
      exact rwp_bind (rwp_sleepPipe hE hq (fun rs' q'' hlen hsame =>
        ih (hset q'' hsame) (by omega)))
    · cases hs : src i with
      | none => exact rwp_pure h
      | some ch => exact rwp_bind (rwp_setPipe (ih (hset _ ⟨rfl, rfl⟩) (by omega)))

theorem Piped.rwp_pipereadWait {killed : Bool} (hE : E .stuck) (rounds : Nat) {rs : List Ring}
    (h : Piped pi q v w) (hfuel : rs.length < rounds) :
    rwp (Rep sb) (pipereadWait pi killed rounds rs) (fun _ => Piped pi q v) E w := by
  induction rounds generalizing w rs with
  | zero => omega
  | succ rounds ih =>
    obtain ⟨q', hq, hset⟩ := h.pipe
    refine rwp_bind (rwp_getPipe hq (rwp_ite (fun _ => ?_) (fun _ => rwp_pure h)))
    refine rwp_ite (fun _ => rwp_pure h) (fun _ => ?_)
    exact rwp_bind (rwp_sleepPipe hE hq (fun rs' q'' hlen hsame => ih (hset q'' hsame) (by omega)))

theorem Piped.rwp_pipereadCopy {dst : Nat → Bool} (rounds : Nat) {i : Nat} (h : Piped pi q v w) :
    rwp (Rep sb) (pipereadCopy pi dst rounds i) (fun _ => Piped pi q v) E w := by
  induction rounds generalizing w i with
  | zero => exact rwp_pure h
  | succ rounds ih =>
    obtain ⟨q', hq, hset⟩ := h.pipe
    refine rwp_bind (rwp_getPipe hq (rwp_ite (fun _ => rwp_pure h) (fun _ => ?_)))
    refine rwp_bind (rwp_setPipe (rwp_ite (fun _ => ih ?_) (fun _ => rwp_pure ?_)))
    · exact hset _ ⟨rfl, rfl⟩
    · exact hset _ ⟨rfl, rfl⟩

theorem rwp_pipewrite {src : Nat → Option UInt8} {n : Int} {killed : Bool} {rs : List Ring}
    (hE : E .stuck) (hq : v.pipe pi = some q) :
    rwp (Rep sb) (pipewrite pi src n killed rs) (fun _ => Piped pi q v) E v :=
  (Piped.refl hq).rwp_pipewriteLoop hE _ (by omega)

theorem rwp_piperead {dst : Nat → Bool} {n : Int} {killed : Bool} {rs : List Ring} (hE : E .stuck)
    (hq : v.pipe pi = some q) :
    rwp (Rep sb) (piperead pi dst n killed rs) (fun _ => Piped pi q v) E v := by
  refine rwp_bind (((Piped.refl hq).rwp_pipereadWait hE _ (Nat.lt_succ_self _)).mono
    fun go w h => ?_)
  exact rwp_ite (fun _ => h.rwp_pipereadCopy _) (fun _ => rwp_pure h)

end Piped

/-- `pipeclose` of an end of the pipe in a page. -/
theorem rwp_pipeclose {pi : Nat} {w : Bool} {q : Pipe} (hq : v.pipe pi = some q)
    (hQ : Q () (v.withPipe pi (q.close w))) :
    rwp (Rep sb) (pipeclose pi w) Q E v := by
  refine rwp_bind (rwp_getPipe hq (rwp_bind (rwp_setPipe ?_)))
  unfold Pipe.close at hQ
  change rwp (Rep sb) (if (q.shut w).readopen = false ∧ (q.shut w).writeopen = false
    then kfreePipe pi else pure ()) Q E (v.withPipe pi (some (q.shut w)))
  refine rwp_ite (fun hc => ?_) (fun hc => rwp_pure ?_)
  · refine rwp_bind (rwp_getPipe (update_self ..) ?_)
    intro s hs
    refine ⟨_, hs.withPipe pi none, ?_⟩
    rw [if_pos hc] at hQ
    rwa [View.withPipe_withPipe]
  · rwa [if_neg hc] at hQ

end Tables

/-! ## References -/

@[simps -fullyApplied] def File.withRef (x : File) (r : Int) : File := { x with ref := r }

/-- The file after its last `fileclose`. -/
@[simps -fullyApplied] def File.closed (x : File) : File := { x with ref := 0, type := .none }

section References

variable {sb : Superblock} {E : Stop → Prop} {v : View} {A B N A' B' N' : List FileId}
  {Q : Unit → View → Prop}
  {H O : List Hold} {W L : List InodeId} {f : FileId}

theorem File.uses_withRef {x : File} {r : Int} (hx : 0 < x.ref) (hr : 0 < r) (ip : InodeId) :
    (x.withRef r).Uses ip ↔ x.Uses ip :=
  and_congr_left' (iff_of_true hr hx)

theorem File.ends_withRef {x : File} {r : Int} (hx : 0 < x.ref) (hr : 0 < r) (pi : Nat) (w : Bool) :
    (x.withRef r).Ends pi w ↔ x.Ends pi w :=
  and_congr_left' (iff_of_true hr hx)

theorem File.not_uses_of_type {x : File} (h : x.type = .none) (ip : InodeId) : ¬ x.Uses ip := by
  rintro ⟨-, h1 | h1, -⟩ <;> rw [h] at h1 <;> cases h1

theorem File.not_ends_of_type {x : File} (h : x.type = .none) (pi : Nat) (w : Bool) :
    ¬ x.Ends pi w := by
  rintro ⟨-, h1, -⟩
  rw [h] at h1
  cases h1

theorem File.sound_of_type {x : File} (h : x.type = .none) : x.Sound v := by
  rintro - (h1 | h1) <;> rw [h] at h1 <;> cases h1

theorem Inodes.withRef (h : Inodes v H O W L) {r : Int} (hx : 0 < (v.ftable f).ref) (hr : 0 < r) :
    Inodes (v.withFile f ((v.ftable f).withRef r)) H O W L :=
  h.withFile (File.uses_withRef hx hr) (fun _ => h.sound f hx)

/-- The count of an open file changes, with the references of the call. -/
theorem Files.withRef (h : Files v A B N) {r : Int} (hx : 0 < (v.ftable f).ref) (hr : 0 < r)
    (hcount : ∀ g, g ≠ f → A'.count g = A.count g ∧ B'.count g = B.count g)
    (href : r = v.fds f + A'.count f - B'.count f) (howed : B'.count f ≤ v.fds f)
    (hf : f ∉ N) (hN : ∀ g, g ∈ N' ↔ g ∈ N) :
    Files (v.withFile f ((v.ftable f).withRef r)) A' B' N' :=
  h.change rfl rfl hcount href howed (fun h0 => absurd h0 (by simp; omega))
    (fun _ _ => h.opened f hx hf) (fun hn => absurd ((hN f).1 hn) hf) (fun g _ => hN g)
    (h.pipes.withFile (File.ends_withRef hx hr))

theorem Files.rwp_filealloc {Q : Option FileId → View → Prop} (hf : Files v A B N)
    (h : Inodes v H O W L) (hnone : (∀ f, (v.ftable f).ref ≠ 0) → Q none v)
    (hsome : ∀ f, f ∉ A → (v.ftable f).ref = 0 → (v.ftable f).type = .none →
      Files (v.withFile f ((v.ftable f).withRef 1)) (f :: A) B (f :: N) →
      Inodes (v.withFile f ((v.ftable f).withRef 1)) H O W L →
      Q (some f) (v.withFile f ((v.ftable f).withRef 1))) :
    rwp (Rep sb) filealloc Q E v := by
  refine rwp_bind (rwp_get (fun s hs => ?_))
  rw [hs.ftable]
  cases hfind : (List.finRange NFILE).find? (fun f => (v.ftable f).ref = 0) with
  | none => exact rwp_pure (hnone (by simpa using hfind))
  | some f =>
    have href : (v.ftable f).ref = 0 := by simpa using List.find?_some hfind
    have htype := hf.closed f href
    have hrefs := hf.refs f
    have howed := hf.owed f
    have hA : A.count f = 0 := by omega
    refine rwp_bind (rwp_setFile (rwp_pure (hsome f (List.count_eq_zero.1 hA) href htype ?_ ?_)))
    · refine hf.change rfl rfl (fun g hg => ?_) ?_ howed (fun h1 => absurd h1 (by simp))
        (fun _ hn => absurd List.mem_cons_self hn) (fun _ => ⟨htype, Int.le_refl 1⟩)
        (fun g hg => ?_) ?_
      · rw [List.count_cons_of_ne (Ne.symm hg)]
        exact ⟨rfl, rfl⟩
      · rw [List.count_cons_self, File.withRef_ref]
        omega
      · rw [List.mem_cons, or_iff_right hg]
      · exact hf.pipes.withFile (fun pi w => iff_of_false
          (File.not_ends_of_type (by exact htype) pi w) (File.not_ends_of_type htype pi w))
    · exact h.withFile (fun jp => iff_of_false (File.not_uses_of_type (by exact htype) jp)
        (File.not_uses_of_type htype jp)) (File.sound_of_type (by exact htype))

/-- `filedup` of an open file. -/
theorem rwp_filedup (hr : 0 < (v.ftable f).ref)
    (hQ : Q () (v.withFile f ((v.ftable f).withRef ((v.ftable f).ref + 1)))) :
    rwp (Rep sb) (filedup f) Q E v :=
  rwp_bind (rwp_getFile (rwp_ite (fun hlt => absurd hlt (by omega)) (fun _ => rwp_setFile hQ)))

/-- `fileclose` of an open file. -/
theorem Files.rwp_fileclose [LogErrs E] (hf : Files v A B N) (h : Inodes v H O W L) (hE : Errs E)
    (hr : 0 < (v.ftable f).ref) (huses : ∀ ip, (v.ftable f).Uses ip → holds H ip = 0 ∧ ip ∉ L)
    (hcount : ∀ g, g ≠ f → A'.count g = A.count g ∧ B'.count g = B.count g)
    (href : (A'.count f : Int) - B'.count f = A.count f - B.count f - 1)
    (howed : B'.count f ≤ v.fds f) (hN : ∀ g, g ≠ f → (g ∈ N' ↔ g ∈ N)) (hNf : f ∈ N' → f ∈ N)
    (hQ : ∀ v', Files v' A' B' N' → Inodes v' H O W L → v'.proc = v.proc → Quiet v.node v'.node →
      Q () v') :
    rwp (Rep sb) (fileclose sb f) Q E v := by
  have hrefs := hf.refs f
  refine rwp_bind (rwp_getFile (rwp_ite (fun hlt => absurd hlt (by omega)) (fun _ => ?_)))
  refine rwp_ite (fun hmore => rwp_setFile ?_) (fun hlast => ?_)
  · have hfN : f ∉ N := fun hm => absurd (hf.fresh f hm).2 (by omega)
    refine hQ _ (hf.withRef hr hmore hcount (by omega) howed hfN (fun g => ?_))
      (h.withRef hr hmore) rfl (Quiet.refl _)
    by_cases hg : g = f
    · subst hg
      exact iff_of_false (fun hm => hfN (hNf hm)) hfN
    · exact hN g hg
  · have hone : (v.ftable f).ref = 1 := by omega
    -- the file is closed; what becomes of the pipes depends on its type
    have hclosed : ∀ v' : View, v'.ftable = update v.ftable f (v.ftable f).closed →
        v'.proc = v.proc → Pipes v' → Files v' A' B' N' := by
      intro v' hft hproc hp
      refine hf.change hft hproc hcount ?_ howed (fun _ => rfl) (fun hpos => absurd hpos ?_)
        (fun _ => ⟨rfl, Int.zero_le_ofNat 1⟩) hN hp
      · rw [File.closed_ref]
        omega
      · simp
    have hquietFile : (∀ ip, ¬ (v.ftable f).Uses ip) →
        Inodes (v.withFile f (v.ftable f).closed) H O W L := fun hno =>
      h.withFile (fun jp => iff_of_false (File.not_uses_of_type rfl jp) (hno jp))
        (File.sound_of_type rfl)
    have hnopipe : (v.ftable f).type ≠ .pipe → Pipes (v.withFile f (v.ftable f).closed) := fun hne =>
      hf.pipes.withFile (fun pi w => iff_of_false (File.not_ends_of_type rfl pi w)
        (fun hx => hne hx.2.1))
    have hput : (v.ftable f).type = .inode ∨ (v.ftable f).type = .device →
        (v.ftable f).type ≠ .pipe →
        rwp (Rep sb) (transaction (iput sb (v.ftable f).ip)) Q E
          (v.withFile f (v.ftable f).closed) := by
      intro hi hne
      have hu : (v.ftable f).Uses (v.ftable f).ip := ⟨hr, hi, rfl⟩
      obtain ⟨hH, hL⟩ := huses _ hu
      refine rwp_transaction ((h.closeFile hu (File.not_uses_of_type rfl)).rwp_iputOwn hE hH
        (fun hm => absurd hm hL) (fun v' h' hp _ => hQ v' ?_ h' hp.proc hp.quiet))
      exact hclosed v' hp.ftable hp.proc ((hnopipe hne).congr hp.ftable hp.pipe)
    refine rwp_bind (rwp_setFile ?_)
    cases htype : (v.ftable f).type with
    | pipe =>
      have hends : (v.ftable f).Ends (v.ftable f).pipe (v.ftable f).writable :=
        ⟨hr, htype, rfl, rfl⟩
      obtain ⟨q, hq, -⟩ := hf.pipes.ends f _ _ hends
      refine rwp_pipeclose hq (hQ _ (hclosed _ rfl rfl ?_) ?_ rfl (Quiet.refl _))
      · exact hf.pipes.close hends hq (fun pj w' => File.not_ends_of_type rfl pj w')
      · refine (hquietFile ?_).withPipe _ _
        rintro ip ⟨-, h1 | h1, -⟩ <;> rw [htype] at h1 <;> cases h1
    | inode => exact hput (Or.inl htype) (by rw [htype]; decide)
    | device => exact hput (Or.inr htype) (by rw [htype]; decide)
    | none =>
      exact rwp_pure (hQ _ (hclosed _ rfl rfl (hnopipe (by rw [htype]; decide)))
        (hquietFile (File.not_uses_of_type htype)) rfl (Quiet.refl _))

/-- `fileclose` of a reference that the call holds. -/
theorem Files.rwp_filecloseHeld [LogErrs E] (hf : Files v (f :: A) B N) (h : Inodes v H O W L)
    (hE : Errs E) (huses : ∀ ip, (v.ftable f).Uses ip → holds H ip = 0 ∧ ip ∉ L)
    (hN : ∀ g, g ≠ f → (g ∈ N' ↔ g ∈ N)) (hNf : f ∈ N' → f ∈ N)
    (hQ : ∀ v', Files v' A B N' → Inodes v' H O W L → v'.proc = v.proc → Quiet v.node v'.node →
      Q () v') :
    rwp (Rep sb) (fileclose sb f) Q E v := by
  have hrefs := hf.refs f
  have howed := hf.owed f
  rw [List.count_cons_self] at hrefs
  refine hf.rwp_fileclose h hE (by omega) huses (fun g hg => ?_) ?_ howed hN hNf hQ
  · rw [List.count_cons_of_ne (Ne.symm hg)]
    exact ⟨rfl, rfl⟩
  · rw [List.count_cons_self]
    omega

/-- `fileclose` of a file that a descriptor still shows. -/
theorem Files.rwp_filecloseShown [LogErrs E] (hf : Files v A B N) (h : Inodes v H O W L)
    (hE : Errs E) (hshown : B.count f < v.fds f)
    (huses : ∀ ip, (v.ftable f).Uses ip → holds H ip = 0 ∧ ip ∉ L)
    (hQ : ∀ v', Files v' A (f :: B) N → Inodes v' H O W L → v'.proc = v.proc →
      Quiet v.node v'.node → Q () v') :
    rwp (Rep sb) (fileclose sb f) Q E v := by
  have hrefs := hf.refs f
  refine hf.rwp_fileclose h hE (by omega) huses (fun g hg => ?_) ?_ ?_ (fun _ _ => Iff.rfl)
    id hQ
  · rw [List.count_cons_of_ne (Ne.symm hg)]
    exact ⟨rfl, rfl⟩
  · rw [List.count_cons_self]
    omega
  · rw [List.count_cons_self]
    omega

theorem Files.rwp_pipealloc [LogErrs E] {page : Option Nat} {Q : Option (FileId × FileId) → View → Prop}
    (hf : Files v [] [] []) (h : Inodes v [] [] [] []) (hE : Errs E)
    (hpage : ∀ pi, page = some pi → v.pipe pi = none)
    (hnone : ∀ v', Files v' [] [] [] → Inodes v' [] [] [] [] → v'.proc = v.proc →
      Quiet v.node v'.node → Q none v')
    (hsome : ∀ f₀ f₁ v', Files v' [f₁, f₀] [] [] → Inodes v' [] [] [] [] → v'.proc = v.proc →
      Quiet v.node v'.node → Q (some (f₀, f₁)) v') :
    rwp (Rep sb) (pipealloc sb page) Q E v := by
  refine rwp_bind (hf.rwp_filealloc h (fun _ => rwp_pure (hnone v hf h rfl (Quiet.refl _)))
    (fun f₀ _ _ htype₀ hf₁ h₁ => ?_))
  -- a file that has not been set up is given back
  have hback : ∀ {A N v'} (f : FileId) {R : Unit → View → Prop}, Files v' (f :: A) [] (f :: N) →
      Inodes v' [] [] [] [] → f ∉ N → (∀ v'', Files v'' A [] N → Inodes v'' [] [] [] [] →
        v''.proc = v'.proc → Quiet v'.node v''.node → R () v'') →
      rwp (Rep sb) (fileclose sb f) R E v' := by
    intro A N v' f R hf' h' hfN hR
    refine hf'.rwp_filecloseHeld h' hE (fun ip hu => ?_) (fun g hg => by simp [hg])
      (List.mem_cons_of_mem _) hR
    exact absurd hu (File.not_uses_of_type (hf'.fresh f List.mem_cons_self).1 ip)
  refine rwp_bind (hf₁.rwp_filealloc h₁ (fun _ => ?_) (fun f₁ hne _ htype₁ hf₂ h₂ => ?_))
  · exact rwp_bind (hback f₀ hf₁ h₁ (by simp) (fun v' hf' h' hp hq => rwp_pure (hnone v' hf' h' hp hq)))
  · have hne' : f₀ ≠ f₁ := fun he => hne (he ▸ List.mem_cons_self)
    have hpipe : ((v.withFile f₀ ((v.ftable f₀).withRef 1)).withFile f₁
        (((v.withFile f₀ ((v.ftable f₀).withRef 1)).ftable f₁).withRef 1)).pipe = v.pipe := rfl
    have hproc : ((v.withFile f₀ ((v.ftable f₀).withRef 1)).withFile f₁
        (((v.withFile f₀ ((v.ftable f₀).withRef 1)).ftable f₁).withRef 1)).proc = v.proc := rfl
    have hnode : ((v.withFile f₀ ((v.ftable f₀).withRef 1)).withFile f₁
        (((v.withFile f₀ ((v.ftable f₀).withRef 1)).ftable f₁).withRef 1)).node = v.node := rfl
    generalize ((v.withFile f₀ ((v.ftable f₀).withRef 1)).withFile f₁
      (((v.withFile f₀ ((v.ftable f₀).withRef 1)).ftable f₁).withRef 1)) = v₂ at *
    cases page with
    | some pi =>
      have hmem₀ : f₀ ∈ [f₁, f₀] := by simp
      have hmem₁ : f₁ ∈ [f₁, f₀] := by simp
      have htype : ∀ g, g ∈ [f₁, f₀] → (v₂.ftable g).type = .none := fun g hg => (hf₂.fresh g hg).1
      have hpos : ∀ g, g ∈ [f₁, f₀] → 0 < (v₂.ftable g).ref := fun g hg => by
        have hrefs := hf₂.refs g
        rw [List.count_nil] at hrefs
        have := List.count_pos_iff.2 hg
        omega
      have hfree : v₂.pipe pi = none := by
        rw [hpipe]
        exact hpage pi rfl
      refine rwp_bind (rwp_bind (rwp_get (fun s hs => ?_)))
      rw [hs.pipe, hfree]
      refine rwp_setPipe (rwp_bind (rwp_setFile (rwp_bind (rwp_setFile (rwp_pure ?_)))))
      have hat₁ : ∀ x, ((v₂.withPipe pi (some
          { data := fun _ => 0, nread := 0, nwrite := 0, readopen := true, writeopen := true })).withFile
          f₀ x).ftable f₁ = v₂.ftable f₁ := fun x => update_of_ne hne'.symm _ _
      rw [hat₁]
      have hends : ∀ (g : FileId) pj w, g ∈ [f₁, f₀] → ¬ (v₂.ftable g).Ends pj w :=
        fun g pj w hg => File.not_ends_of_type (htype g hg) pj w
      refine hsome f₀ f₁ _ (hf₂.makePipe rfl rfl rfl rfl (hpos f₀ hmem₀) (hpos f₁ hmem₁)
        (hf₂.pipes.make hne' hfree (fun pj w => hends f₀ pj w hmem₀)
          (fun pj w => hends f₁ pj w hmem₁) ⟨hpos f₀ hmem₀, rfl, rfl, rfl⟩
          ⟨hpos f₁ hmem₁, rfl, rfl, rfl⟩ (fun w => by cases w <;> rfl))) ?_ hproc
          (by rw [← hnode]; exact Quiet.refl _)
      have hnouse : ∀ (x : File), x.type = .pipe → ∀ jp, ¬ x.Uses jp := by
        rintro x hx jp ⟨-, h1 | h1, -⟩ <;> rw [hx] at h1 <;> cases h1
      have hsound : ∀ (x : File) (v' : View), x.type = .pipe → x.Sound v' := by
        rintro x v' hx - (h1 | h1) <;> rw [hx] at h1 <;> cases h1
      refine ((h₂.withPipe _ _).withFile (fun jp => iff_of_false (hnouse _ rfl jp) ?_)
        (hsound _ _ rfl)).withFile (fun jp => iff_of_false (hnouse _ rfl jp) ?_) (hsound _ _ rfl)
      · exact File.not_uses_of_type (htype f₀ hmem₀) jp
      · rw [hat₁]
        exact File.not_uses_of_type (htype f₁ hmem₁) jp
    | none =>
      have hf₂' : Files v₂ [f₀, f₁] [] [f₀, f₁] :=
        hf₂.perm (List.Perm.swap ..) (List.Perm.swap ..)
      refine rwp_bind (hback f₀ hf₂' h₂ (by simpa using hne') (fun v₃ hf₃ h₃ hp₃ hq₃ => ?_))
      refine rwp_bind (hback f₁ hf₃ h₃ (by simp) (fun v₄ hf₄ h₄ hp₄ hq₄ => ?_))
      exact rwp_pure (hnone v₄ hf₄ h₄ ((hp₄.trans hp₃).trans hproc) (hnode ▸ hq₃.trans hq₄))

end References

/-! ## Reading and writing -/

@[simps -fullyApplied] def File.withOff (x : File) (off : Nat) : File := { x with off := off }

section Data

variable {sb : Superblock} {E : Stop → Prop} {v : View} {f : FileId} {ip : InodeId}

/-- `ilock` of an inode in the table that is valid and not locked. -/
theorem rwp_ilock_valid {Q : Unit → View → Prop} (hE : Errs E) (hr : 0 < (v.slot ip).ref)
    (hv : (v.slot ip).valid = true) (hQ : Q () (v.withSlot ip (v.slot ip).acquired)) :
    rwp (Rep sb) (ilock sb ip) Q E v :=
  rwp_ok (fun hok => rwp_ilock hr (fun _ _ => hQ) (fun _ => hE.stuck)
    (fun hf => absurd hf (hok.valid ip hr hv)))

/-- `iunlock` undoes it. -/
theorem rwp_iunlock_valid {Q : Unit → View → Prop} (hr : 0 < (v.slot ip).ref)
    (hv : (v.slot ip).valid = true) (hl : (v.slot ip).locked = false) (hQ : Q () v) :
    rwp (Rep sb) (iunlock ip) Q E (v.withSlot ip (v.slot ip).acquired) := by
  have hself : (v.withSlot ip (v.slot ip).acquired).slot ip = (v.slot ip).acquired :=
    update_self ..
  refine rwp_iunlock (by rw [hself]; exact hr) (by rw [hself]; rfl) ?_
  have hsame : (v.slot ip).acquired.setLocked false = v.slot ip := by
    rcases hx : v.slot ip with ⟨inum, ref, locked, valid⟩
    rw [hx] at hv hl
    cases hv
    cases hl
    rfl
  have hview : (v.withSlot ip (v.slot ip).acquired).withSlot ip (v.slot ip) = v := by
    show { v with slot := update (update v.slot ip _) ip (v.slot ip) } = v
    rw [update_idem, update_eq_self]
  rwa [hself, hsame, hview]

/-- The slot of an open file, when no inode is locked. -/
theorem Inodes.slot_of_file (h : Inodes v [] [] [] []) (hr : 0 < (v.ftable f).ref)
    (ht : (v.ftable f).type = .inode ∨ (v.ftable f).type = .device) :
    0 < (v.slot (v.ftable f).ip).ref ∧ (v.slot (v.ftable f).ip).valid = true ∧
      (v.slot (v.ftable f).ip).locked = false := by
  refine ⟨h.ref_pos_of_file (View.files_pos hr ht), h.file f hr ht, ?_⟩
  have := h.locked (v.ftable f).ip
  simpa using this

theorem Files.withOff (hf : Files v [] [] []) (off : Nat) :
    Files (v.withFile f ((v.ftable f).withOff off)) [] [] [] :=
  hf.change rfl rfl (fun _ _ => ⟨rfl, rfl⟩) (hf.refs f) (hf.owed f) (hf.closed f)
    (fun hr => hf.opened f hr) (fun hm => (List.not_mem_nil hm).elim) (fun _ _ => Iff.rfl)
    (hf.pipes.withFile (fun _ _ => Iff.rfl))

theorem Inodes.withOff (h : Inodes v [] [] [] []) (off : Nat) :
    Inodes (v.withFile f ((v.ftable f).withOff off)) [] [] [] [] :=
  h.withFile (fun _ => Iff.rfl) (h.sound f)

/-- What reading and writing lead to. -/
structure Transferred (v v' : View) : Prop where
  files : Files v' [] [] []
  inodes : Inodes v' [] [] [] []
  proc : v'.proc = v.proc
  quiet : Quiet v.node v'.node

theorem Transferred.bytes (hf : Files v [] [] []) (h : Inodes v [] [] [] []) {i : Nat}
    (hi : (v.node i).type ≠ .dir) (bytes : List UInt8) :
    Transferred v (v.withNode i ((v.node i).withBytes bytes)) :=
  ⟨hf.congr rfl rfl (fun _ => rfl), h.withBytes bytes, rfl, Quiet.withBytes hi bytes⟩

theorem Transferred.off (hf : Files v [] [] []) (h : Inodes v [] [] [] []) (off : Nat) :
    Transferred v (v.withFile f ((v.ftable f).withOff off)) :=
  ⟨hf.withOff off, h.withOff off, rfl, Quiet.refl _⟩

theorem Transferred.trans {v' v'' : View} (h : Transferred v v') (h' : Transferred v' v'') :
    Transferred v v'' :=
  ⟨h'.files, h'.inodes, h'.proc.trans h.proc, h.quiet.trans h'.quiet⟩

theorem Files.transferred_pipe (hf : Files v [] [] []) (h : Inodes v [] [] [] []) {pi : Nat}
    {q : Pipe} {w : View} (hq : v.pipe pi = some q) (hp : Piped pi q v w) : Transferred v w := by
  obtain ⟨q', hsame, rfl⟩ := hp
  exact ⟨⟨hf.refs, hf.owed, hf.closed, hf.opened, hf.fresh, hf.pipes.withPipe hq hsame.isOpen⟩,
    h.withPipe _ _, rfl, Quiet.refl _⟩

theorem Inodes.rwp_filestat {addr : Bool} {Q : Int → View → Prop} (h : Inodes v [] [] [] [])
    (hE : Errs E) (hr : 0 < (v.ftable f).ref) (hQ : ∀ r, Q r v) :
    rwp (Rep sb) (filestat sb f addr) Q E v := by
  refine rwp_bind (rwp_getFile (rwp_ite (fun ht => ?_) (fun _ => rwp_pure (hQ _))))
  obtain ⟨hsr, hsv, hsl⟩ := h.slot_of_file hr ht
  refine rwp_bind (rwp_ilock_valid hE hsr hsv (rwp_bind (rwp_bind
    (Fs.rwp_getInode (fun x _ _ => ?_)))))
  refine rwp_pure (rwp_bind (rwp_iunlock_valid hsr hsv hsl ?_))
  exact rwp_ite (fun _ => rwp_pure (hQ _)) (fun _ => rwp_pure (hQ _))

theorem rwp_deviceCall {major : Int} {env : Env} {Q : Int → View → Prop} (hQ : ∀ r, Q r v) :
    rwp (Rep sb) (deviceCall major env) Q E v :=
  rwp_ite (fun _ => rwp_pure (hQ _)) (fun _ => rwp_pure (hQ _))

theorem toUint_lt (n : Int) : toUint n < 2 ^ 32 := by
  unfold toUint
  omega

theorem Files.rwp_fileread {dst : Nat → Bool} {n : Int} {env : Env} {Q : Int → View → Prop}
    (hf : Files v [] [] []) (h : Inodes v [] [] [] []) (hE : Errs E) (hr : 0 < (v.ftable f).ref)
    (hQ : ∀ r v', Transferred v v' → Q r v') : rwp (Rep sb) (fileread sb f dst n env) Q E v := by
  have hsame : Transferred v v := ⟨hf, h, rfl, Quiet.refl _⟩
  refine rwp_bind (rwp_getFile (rwp_ite (fun _ => rwp_pure (hQ _ v hsame)) (fun _ => ?_)))
  cases htype : (v.ftable f).type with
  | none => exact absurd htype (hf.opened f hr List.not_mem_nil)
  | pipe =>
    obtain ⟨q, hq, -⟩ := hf.pipes.ends f _ _ ⟨hr, htype, rfl, rfl⟩
    exact (rwp_piperead hE.stuck hq).mono fun r w hp => hQ r w (hf.transferred_pipe h hq hp)
  | device => exact rwp_deviceCall (fun r => hQ r v hsame)
  | inode =>
    obtain ⟨hsr, hsv, hsl⟩ := h.slot_of_file hr (Or.inl htype)
    refine rwp_bind (rwp_ilock_valid hE hsr hsv ?_)
    have hself : (v.withSlot (v.ftable f).ip (v.slot (v.ftable f).ip).acquired).slot
        (v.ftable f).ip = (v.slot (v.ftable f).ip).acquired := update_self ..
    refine rwp_bind (rwp_readi (by rw [hself]; exact hsr) (by rw [hself]; rfl) (toUint_lt n)
      (fun r bytes _ => ?_))
    dsimp only
    refine rwp_ite (fun _ => rwp_bind (rwp_setFile ?_)) (fun _ => ?_)
    · -- the offset moves while the inode is locked
      refine rwp_bind (rwp_iunlock_valid (v := v.withFile f ((v.ftable f).withOff _)) hsr hsv hsl
        (rwp_pure (hQ r _ (Transferred.off hf h _))))
    · exact rwp_bind (rwp_iunlock_valid hsr hsv hsl (rwp_pure (hQ r v hsame)))

theorem rwp_filewriteLoop [LogErrs E] {src : Nat → Option UInt8} {n : Nat} {Q : Int → View → Prop} (hE : Errs E)
    (rounds : Nat) {i : Nat} (hf : Files v [] [] []) (h : Inodes v [] [] [] [])
    (hr : 0 < (v.ftable f).ref) (ht : (v.ftable f).type = .inode)
    (hw : (v.ftable f).writable = true) (hip : (v.ftable f).ip = ip) (hfuel : n - i < rounds)
    (hQ : ∀ r v', Transferred v v' → Q r v') :
    rwp (Rep sb) (filewriteLoop sb f ip src n rounds i) Q E v := by
  induction rounds generalizing v i with
  | zero => omega
  | succ rounds ih =>
    subst hip
    obtain ⟨hsr, hsv, hsl⟩ := h.slot_of_file hr (Or.inl ht)
    have hdir : (v.node (v.slot (v.ftable f).ip).inum).type ≠ .dir := by
      rw [h.writable f hr ht hw]
      decide
    have hself : (v.withSlot (v.ftable f).ip (v.slot (v.ftable f).ip).acquired).slot
        (v.ftable f).ip = (v.slot (v.ftable f).ip).acquired := update_self ..
    have hsame : Transferred v v := ⟨hf, h, rfl, Quiet.refl _⟩
    -- the end of a round, when the file is as before but for its offset
    have hnext : ∀ (r : Int) (v' : View), Transferred v v' →
        (∃ off, v'.ftable f = (v.ftable f).withOff off) → i < n →
        rwp (Rep sb) (if r ≠ (min (n - i) writeMax : Nat) then pure (-1)
          else filewriteLoop sb f (v.ftable f).ip src n rounds (i + min (n - i) writeMax)) Q E v' := by
      rintro r v' htr ⟨off, hoff⟩ hi
      have hmax : writeMax = 3072 := rfl
      refine rwp_ite (fun _ => rwp_pure (hQ _ v' htr)) (fun _ => ?_)
      refine ih htr.files htr.inodes ?_ ?_ ?_ ?_ (by omega)
        (fun r v'' h'' => hQ r v'' (htr.trans h'')) <;> rw [hoff]
      · exact hr
      · exact ht
      · exact hw
      · rfl
    refine rwp_ite (fun hi => ?_) (fun _ => rwp_pure (hQ _ v hsame))
    have hmax : writeMax = 3072 := rfl
    refine rwp_bind (rwp_transaction (rwp_bind (rwp_getFile (rwp_bind
      (rwp_ilock_valid hE hsr hsv ?_)))))
    refine rwp_bind (rwp_writei (by rw [hself]; exact hsr) (by rw [hself]; rfl) (by omega)
      (fun _ => ?_) (fun r bytes' _ => ?_))
    · dsimp only
      refine rwp_ite (fun hpos => absurd hpos (by decide)) (fun _ => ?_)
      exact rwp_bind (rwp_iunlock_valid hsr hsv hsl
        (rwp_pure (hnext _ v hsame ⟨(v.ftable f).off, rfl⟩ hi)))
    · have hbytes := Transferred.bytes hf h hdir bytes'
      rw [hself]
      dsimp only
      refine rwp_ite (fun _ => rwp_bind (rwp_setFile ?_)) (fun _ => ?_)
      · have hboth := hbytes.trans (Transferred.off (f := f) hbytes.files hbytes.inodes
          (((v.ftable f).off + (r : Int).toNat) % 2 ^ 32))
        exact rwp_bind (rwp_iunlock_valid (v := View.withFile (v.withNode _ _) f _) hsr hsv hsl
          (rwp_pure (hnext _ _ hboth ⟨_, update_self ..⟩ hi)))
      · exact rwp_bind (rwp_iunlock_valid (v := v.withNode _ _) hsr hsv hsl
          (rwp_pure (hnext _ _ hbytes ⟨(v.ftable f).off, rfl⟩ hi)))

theorem Files.rwp_filewrite [LogErrs E] {src : Nat → Option UInt8} {n : Int} {env : Env}
    {Q : Int → View → Prop} (hf : Files v [] [] []) (h : Inodes v [] [] [] []) (hE : Errs E)
    (hr : 0 < (v.ftable f).ref) (hQ : ∀ r v', Transferred v v' → Q r v') :
    rwp (Rep sb) (filewrite sb f src n env) Q E v := by
  have hsame : Transferred v v := ⟨hf, h, rfl, Quiet.refl _⟩
  refine rwp_bind (rwp_getFile (rwp_ite (fun _ => rwp_pure (hQ _ v hsame)) (fun hw => ?_)))
  cases htype : (v.ftable f).type with
  | none => exact absurd htype (hf.opened f hr List.not_mem_nil)
  | pipe =>
    obtain ⟨q, hq, -⟩ := hf.pipes.ends f _ _ ⟨hr, htype, rfl, rfl⟩
    exact (rwp_pipewrite hE.stuck hq).mono fun r w hp => hQ r w (hf.transferred_pipe h hq hp)
  | device => exact rwp_deviceCall (fun r => hQ r v hsame)
  | inode =>
    exact rwp_ite (fun _ => rwp_pure (hQ _ v hsame)) (fun _ => rwp_filewriteLoop hE _ hf h hr htype
      (by simpa using hw) rfl (by omega) hQ)

end Data

end Xv6.Fs
