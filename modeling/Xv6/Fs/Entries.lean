import Xv6.Fs.Dir
import Xv6.Fs.Refs

set_option autoImplicit false

/-! # The entries of a directory

A directory is a list of bytes, read in pieces of `DIRENT` bytes. `findEntry` and `freeEntry` say
where `dirlookup` and `dirlink` stop, and `setEntry` what `dirlink` and `unlink` write. The functions
of `kernel/fs.c` that look into a directory are given rules in these terms. -/

namespace Xv6.Fs

open Wp

/-! ## Entries in a list of bytes -/

/-- How many entries there are. -/
def numEntries (bytes : List UInt8) : Nat := bytes.length / DIRENT

/-- The entry `k`. -/
def entry (bytes : List UInt8) (k : Nat) : Dirent :=
  Dirent.decode (readBytes bytes (DIRENT * k) DIRENT)

/-- The entry is in use and has this name. -/
def Dirent.Matches (de : Dirent) (name : List UInt8) : Prop :=
  de.inum ≠ 0 ∧ namecmp name de.name = true

instance (de : Dirent) (name : List UInt8) : Decidable (de.Matches name) :=
  inferInstanceAs (Decidable (_ ∧ _))

/-- The first entry with this name. -/
def findEntry (bytes : List UInt8) (name : List UInt8) : Option Nat :=
  (List.range (numEntries bytes)).find? fun k => (entry bytes k).Matches name

/-- The first entry that is not in use, or the end. -/
def freeEntry (bytes : List UInt8) : Nat :=
  ((List.range (numEntries bytes)).find? fun k => (entry bytes k).inum = 0).getD (numEntries bytes)

def setEntry (bytes : List UInt8) (k : Nat) (de : Dirent) : List UInt8 :=
  writeBytes bytes (DIRENT * k) de.encode

/-- What `unlink` writes: the bytes are zero. -/
def Dirent.empty : Dirent := { inum := 0, name := List.replicate DIRSIZ 0 }

/-- A directory has whole entries, of inodes that there are. -/
structure DirOk (sb : Superblock) (bytes : List UInt8) : Prop where
  whole : bytes.length % DIRENT = 0
  inum_lt : ∀ k, k < numEntries bytes → (entry bytes k).inum < sb.ninodes

/-- An entry as `dirlink` and `unlink` write it. -/
structure Dirent.Ok (de : Dirent) : Prop where
  inum_lt : de.inum < 2 ^ 16
  name_length : de.name.length = DIRSIZ

section Entries

variable {sb : Superblock} {bytes : List UInt8} {k j : Nat} {de : Dirent}

theorem encode_length (h : de.Ok) : de.encode.length = DIRENT := by
  simp only [Dirent.encode, List.length_append, List.length_cons, List.length_nil, h.name_length]

theorem decode_encode (h : de.Ok) : Dirent.decode de.encode = de := by
  have hlt := h.inum_lt
  cases de with
  | mk inum name =>
    simp only [Dirent.encode, Dirent.decode, List.cons_append, List.nil_append,
      List.getD_cons_zero, List.getD_cons_succ, List.drop_succ_cons, List.drop_zero,
      UInt8.toNat_ofNat', Dirent.mk.injEq, and_true]
    simp only at hlt
    omega

theorem strncpy_length (name : List UInt8) : (strncpy name).length = DIRSIZ := by
  have hle : (cstr name).length ≤ DIRSIZ := by
    refine Nat.le_trans (List.takeWhile_sublist _).length_le ?_
    rw [List.length_take]
    exact Nat.min_le_left ..
  simp only [strncpy, List.length_append, List.length_replicate]
  omega

theorem dirent_ok {inum : Nat} (h : inum < 2 ^ 16) (name : List UInt8) :
    Dirent.Ok { inum := inum, name := strncpy name } :=
  ⟨h, strncpy_length name⟩

theorem empty_ok : Dirent.empty.Ok := ⟨by decide, by decide⟩

theorem writeBytes_length {old bs : List UInt8} {off : Nat} (h : off ≤ old.length) :
    (writeBytes old off bs).length = max old.length (off + bs.length) := by
  simp only [writeBytes, List.length_append, List.length_take, List.length_drop]
  omega

theorem setEntry_length (hde : de.Ok) (hk : k ≤ numEntries bytes)
    (hw : bytes.length % DIRENT = 0) :
    (setEntry bytes k de).length = max bytes.length (DIRENT * (k + 1)) := by
  have : DIRENT * k ≤ bytes.length := by
    simp only [numEntries, DIRENT, DIRSIZ] at *
    omega
  rw [setEntry, writeBytes_length this, encode_length hde]
  simp only [DIRENT, DIRSIZ]
  omega

theorem setEntry_whole (hde : de.Ok) (hk : k ≤ numEntries bytes) (hw : bytes.length % DIRENT = 0) :
    (setEntry bytes k de).length % DIRENT = 0 := by
  rw [setEntry_length hde hk hw]
  simp only [DIRENT, DIRSIZ] at *
  omega

theorem numEntries_setEntry (hde : de.Ok) (hk : k ≤ numEntries bytes)
    (hw : bytes.length % DIRENT = 0) :
    numEntries (setEntry bytes k de) = max (numEntries bytes) (k + 1) := by
  rw [numEntries, setEntry_length hde hk hw]
  simp only [numEntries, DIRENT, DIRSIZ] at *
  omega

theorem readBytes_getElem? (old : List UInt8) (off n m : Nat) :
    (readBytes old off n)[m]? = if m < n then old[off + m]? else none := by
  unfold readBytes
  split
  · next h => rw [List.getElem?_take_of_lt h, List.getElem?_drop]
  · next h => exact List.getElem?_eq_none (by simp; omega)

/-- The entry that was written is the one read back, and the others are as before. -/
theorem entry_setEntry (hde : de.Ok) (hk : k ≤ numEntries bytes) (hw : bytes.length % DIRENT = 0) :
    entry (setEntry bytes k de) j = if j = k then de else entry bytes j := by
  have hle : DIRENT * k ≤ bytes.length := by
    simp only [numEntries, DIRENT, DIRSIZ] at *
    omega
  have hlen := encode_length hde
  have hget : ∀ m : Nat, (readBytes (setEntry bytes k de) (DIRENT * j) DIRENT)[m]? =
      if j = k then de.encode[m]? else (readBytes bytes (DIRENT * j) DIRENT)[m]? := by
    intro m
    rw [readBytes_getElem?, readBytes_getElem?, setEntry, writeBytes_getElem? hle, hlen]
    by_cases hm : m < DIRENT
    · rw [if_pos hm, if_pos hm]
      by_cases hjk : j = k
      · subst hjk
        rw [if_pos rfl, if_pos (by omega)]
        congr 1
        omega
      · rw [if_neg hjk, if_neg]
        simp only [DIRENT, DIRSIZ] at *
        omega
    · rw [if_neg hm, if_neg hm]
      split
      · exact (List.getElem?_eq_none (by omega)).symm
      · rfl
  unfold entry
  split
  · next hjk =>
      rw [show readBytes (setEntry bytes k de) (DIRENT * j) DIRENT = de.encode from
        List.ext_getElem? (fun m => by rw [hget, if_pos hjk]), decode_encode hde]
  · next hjk =>
      rw [show readBytes (setEntry bytes k de) (DIRENT * j) DIRENT =
        readBytes bytes (DIRENT * j) DIRENT from
        List.ext_getElem? (fun m => by rw [hget, if_neg hjk])]

theorem DirOk.setEntry (h : DirOk sb bytes) (hde : de.Ok) (hk : k ≤ numEntries bytes)
    (hlt : de.inum < sb.ninodes) : DirOk sb (setEntry bytes k de) := by
  refine ⟨setEntry_whole hde hk h.whole, fun j hj => ?_⟩
  rw [entry_setEntry hde hk h.whole]
  split
  · exact hlt
  · next hjk =>
    rw [numEntries_setEntry hde hk h.whole] at hj
    exact h.inum_lt j (by omega)

theorem freeEntry_le : freeEntry bytes ≤ numEntries bytes := by
  unfold freeEntry
  cases hf : (List.range (numEntries bytes)).find? fun k => (entry bytes k).inum = 0 with
  | none => exact Nat.le_refl _
  | some k =>
    have := List.mem_range.1 (List.mem_of_find?_eq_some hf)
    exact Nat.le_of_lt this

/-- `writei` does not refuse an entry below the largest size of a file. -/
theorem not_refused {k : Nat} (hk : k ≤ numEntries bytes)
    (hmax : DIRENT * k + DIRENT ≤ MAXFILE * BSIZE) :
    ¬ (bytes.length < DIRENT * k ∨ 2 ^ 32 ≤ DIRENT * k + DIRENT ∨
      MAXFILE * BSIZE < DIRENT * k + DIRENT) := by
  simp only [numEntries, DIRENT, DIRSIZ, MAXFILE, NDIRECT, NINDIRECT, BSIZE] at hk hmax ⊢
  omega

theorem freeEntry_nil : freeEntry [] = 0 := rfl

/-- The second entry goes behind the first. -/
theorem freeEntry_single (hde : de.Ok) (hne : de.inum ≠ 0) :
    freeEntry (setEntry [] 0 de) = 1 := by
  have hnum : numEntries (setEntry [] 0 de) = 1 := numEntries_setEntry hde (Nat.zero_le _) rfl
  have hentry : entry (setEntry [] 0 de) 0 = de := by
    rw [entry_setEntry hde (Nat.zero_le _) rfl, if_pos rfl]
  unfold freeEntry
  rw [hnum, List.range_one, List.find?_cons_of_neg (by rw [hentry]; simpa using hne),
    List.find?_nil]
  rfl

theorem dirOk_nil (sb : Superblock) : DirOk sb [] :=
  ⟨rfl, fun k hk => absurd hk (Nat.not_lt_zero k)⟩

theorem findEntry_some {name : List UInt8} (h : findEntry bytes name = some k) :
    k < numEntries bytes ∧ (entry bytes k).Matches name := by
  refine ⟨List.mem_range.1 (List.mem_of_find?_eq_some h), ?_⟩
  simpa using List.find?_some h

theorem findEntry_none {name : List UInt8} (h : findEntry bytes name = none) (hk : k < numEntries bytes) :
    ¬ (entry bytes k).Matches name := by
  simpa using List.find?_eq_none.1 h k (List.mem_range.2 hk)

end Entries

/-! ## Reading a directory -/

section Reading

variable {sb : Superblock} {E : Stop → Prop} {v : View} {H O : List Hold} {W L : List InodeId}
  {dp : InodeId} {d : Nat} {R : View → State → Prop} [Tracks sb R]

theorem offsets_zero {bytes : List UInt8} (hw : bytes.length % DIRENT = 0) :
    offsets 0 bytes.length = (List.range (numEntries bytes)).map (DIRENT * ·) := by
  have h : (bytes.length + (DIRENT - 1)) / DIRENT - 0 / DIRENT = numEntries bytes := by
    simp only [numEntries, DIRENT, DIRSIZ] at *
    omega
  rw [offsets, h, Nat.zero_div, List.range_eq_range']

/-- The offsets behind "." and "..". -/
theorem offsets_two {bytes : List UInt8} (hw : bytes.length % DIRENT = 0) :
    offsets (2 * DIRENT) bytes.length =
      (List.range' 2 (numEntries bytes - 2)).map (DIRENT * ·) := by
  have h : (bytes.length + (DIRENT - 1)) / DIRENT - 2 * DIRENT / DIRENT = numEntries bytes - 2 := by
    simp only [numEntries, DIRENT, DIRSIZ] at *
    omega
  rw [offsets, h]
  rfl

theorem Inodes.rwp_readDirent {k : Nat} {p : Panic} {Q : Dirent → View → Prop}
    (h : Inodes v H O W L) (hip : dp ∈ L) (hm : (dp, d) ∈ H ∨ (dp, d) ∈ O)
    (hk : k < numEntries (v.node d).bytes) (hQ : Q (entry (v.node d).bytes k) v) :
    rwp R (readDirent sb dp (DIRENT * k) p) Q E v := by
  refine rwp_ok (fun hok => rwp_bind (h.rwp_readi hip hm (by decide) (fun r bytes hr => ?_)))
  obtain ⟨hbytes, rfl⟩ := hr (fun _ _ => rfl)
  have hsize := hok.size_le d
  have hlt : DIRENT * k + DIRENT ≤ (v.node d).bytes.length := by
    simp only [numEntries, DIRENT, DIRSIZ] at *
    omega
  have hcap : MAXFILE * BSIZE < 2 ^ 32 := by decide
  rw [if_pos (by omega)] at hbytes
  have hlen : bytes.length = DIRENT := by
    rw [hbytes, readBytes, List.length_take, List.length_drop]
    omega
  refine rwp_ite (fun _ => rwp_pure ?_) (fun hne => absurd (by rw [hlen]) hne)
  rw [hbytes]
  exact hQ

/-- A short write of an entry writes nothing. -/
theorem aligned_entry {k r : Nat} (h : r = 0 ∨ r = DIRENT ∨ (DIRENT * k + r) % BSIZE = 0)
    (hr : r ≤ DIRENT) (hne : r ≠ DIRENT) : r = 0 := by
  simp only [DIRENT, DIRSIZ, BSIZE] at *
  omega

/-- A found entry may have any inode number: what is said about `iget` is left to the caller. -/
theorem Inodes.wp_dirlookupLoop {name : List UInt8} {Q : Option (InodeId × Nat) → State → Prop}
    {s : State} (h : Inodes v H O W L) (hip : dp ∈ L) (hm : (dp, d) ∈ H ∨ (dp, d) ∈ O)
    (ks : List Nat) (hks : ∀ k ∈ ks, k < numEntries (v.node d).bytes) (hs : R v s)
    (hnone : ks.find? (fun k => (entry (v.node d).bytes k).Matches name) = none →
      ∀ s', R v s' → Q none s')
    (hsome : ∀ k, ks.find? (fun k => (entry (v.node d).bytes k).Matches name) = some k →
      ∀ s', R v s' → wp (iget (entry (v.node d).bytes k).inum)
        (fun ip => Q (some (ip, DIRENT * k))) E s') :
    wp (dirlookupLoop sb dp name (ks.map (DIRENT * ·))) Q E s := by
  induction ks generalizing s with
  | nil => exact hnone rfl s hs
  | cons k ks ih =>
    rw [List.map_cons]
    unfold dirlookupLoop
    rw [wp_bind]
    refine (h.rwp_readDirent (Q := fun de v' => de = entry (v.node d).bytes k ∧ v' = v) hip hm
      (hks k List.mem_cons_self) ⟨rfl, rfl⟩ s hs).mono ?_ (fun _ he => he)
    rintro _ s' ⟨_, hs', rfl, rfl⟩
    refine (wp_ite ..).2 ⟨fun hmatch => ?_, fun hno => ?_⟩
    · rw [wp_bind]
      exact hsome k (List.find?_cons_of_pos (decide_eq_true hmatch)) s' hs'
    · rw [List.find?_cons_of_neg (by exact fun h => hno (of_decide_eq_true h))] at hnone hsome
      exact ih (fun j hj => hks j (List.mem_cons_of_mem _ hj)) hs' hnone hsome

theorem Inodes.wp_dirlookup {name : List UInt8} {Q : Option (InodeId × Nat) → State → Prop}
    {s : State} (h : Inodes v H O W L) (hip : dp ∈ L) (hm : (dp, d) ∈ H ∨ (dp, d) ∈ O)
    (htype : (v.node d).type = .dir) (hw : (v.node d).bytes.length % DIRENT = 0) (hs : R v s)
    (hnone : findEntry (v.node d).bytes name = none → ∀ s', R v s' → Q none s')
    (hsome : ∀ k, findEntry (v.node d).bytes name = some k → ∀ s', R v s' →
      wp (iget (entry (v.node d).bytes k).inum) (fun ip => Q (some (ip, DIRENT * k))) E s') :
    wp (dirlookup sb dp name) Q E s := by
  unfold dirlookup
  rw [wp_bind]
  refine (h.rwp_getInode (Q := fun x v' => (x.type = .dir ∧ x.size = (v.node d).bytes.length) ∧ v' = v)
    hip hm (fun x _ hx => ⟨⟨hx.type.trans htype, hx.size⟩, rfl⟩) s hs).mono ?_ (fun _ he => he)
  rintro x s' ⟨_, hs', ⟨hdir, hsize⟩, rfl⟩
  refine (wp_ite ..).2 ⟨fun hne => absurd hdir hne, fun _ => ?_⟩
  rw [hsize, offsets_zero hw]
  exact h.wp_dirlookupLoop hip hm _ (fun k hk => List.mem_range.1 hk) hs' hnone hsome

variable (hdir : DirOk sb (v.node d).bytes)

include hdir

/-- `dirlookup` of a locked directory. -/
theorem Inodes.rwp_dirlookup {name : List UInt8} {Q : Option (InodeId × Nat) → View → Prop}
    (h : Inodes v H O [] L)
    (hfull : v.spare ≤ H.length + O.length → E (.panic .igetNoInodes)) (hip : dp ∈ L)
    (hm : (dp, d) ∈ H ∨ (dp, d) ∈ O) (htype : (v.node d).type = .dir)
    (hnone : findEntry (v.node d).bytes name = none → Q none v)
    (hsome : ∀ k ip v', findEntry (v.node d).bytes name = some k →
      Inodes v' ((ip, (entry (v.node d).bytes k).inum) :: H) O [] L → SlotsOnly v v' →
      Q (some (ip, DIRENT * k)) v') :
    rwp R (dirlookup sb dp name) Q E v := by
  intro s hs
  refine h.wp_dirlookup hip hm htype hdir.whole hs (fun hno s' hs' => ⟨v, hs', hnone hno⟩)
    (fun k hk s' hs' => ?_)
  obtain ⟨hlt, hmatch⟩ := findEntry_some hk
  exact h.rwp_iget_room hfull ⟨Nat.pos_of_ne_zero hmatch.1, hdir.inum_lt k hlt⟩
    (fun ip v' h' hs' => hsome k ip v' hk h' hs') s' hs'

omit hdir in
theorem Inodes.rwp_emptyDirent {Q : Nat → View → Prop} (h : Inodes v H O W L) (hip : dp ∈ L)
    (hm : (dp, d) ∈ H ∨ (dp, d) ∈ O) (fin : Nat) (ks : List Nat)
    (hks : ∀ k ∈ ks, k < numEntries (v.node d).bytes)
    (hQ : Q (DIRENT * (ks.find? (fun k => (entry (v.node d).bytes k).inum = 0)).getD fin) v) :
    rwp R (emptyDirent sb dp (DIRENT * fin) (ks.map (DIRENT * ·))) Q E v := by
  induction ks with
  | nil => exact rwp_pure hQ
  | cons k ks ih =>
    rw [List.map_cons]
    unfold emptyDirent
    refine rwp_bind (h.rwp_readDirent hip hm (hks k List.mem_cons_self) ?_)
    refine rwp_ite (fun hzero => ?_) (fun hne => ?_)
    · rw [List.find?_cons_of_pos (by simpa using hzero)] at hQ
      exact rwp_pure hQ
    · rw [List.find?_cons_of_neg (by simpa using hne)] at hQ
      exact ih (fun j hj => hks j (List.mem_cons_of_mem _ hj)) hQ

omit hdir in
theorem Inodes.rwp_isdiremptyLoop {Q : Bool → View → Prop} (h : Inodes v H O W L) (hip : dp ∈ L)
    (hm : (dp, d) ∈ H ∨ (dp, d) ∈ O) (ks : List Nat)
    (hks : ∀ k ∈ ks, k < numEntries (v.node d).bytes)
    (hQ : Q (ks.all fun k => (entry (v.node d).bytes k).inum = 0) v) :
    rwp R (isdiremptyLoop sb dp (ks.map (DIRENT * ·))) Q E v := by
  induction ks with
  | nil => exact rwp_pure hQ
  | cons k ks ih =>
    rw [List.map_cons]
    unfold isdiremptyLoop
    refine rwp_bind (h.rwp_readDirent hip hm (hks k List.mem_cons_self) ?_)
    rw [List.all_cons] at hQ
    refine rwp_ite (fun hne => ?_) (fun hzero => ?_)
    · rw [show decide ((entry (v.node d).bytes k).inum = 0) = false by simpa using hne] at hQ
      exact rwp_pure hQ
    · rw [show decide ((entry (v.node d).bytes k).inum = 0) = true by simpa using hzero,
        Bool.true_and] at hQ
      exact ih (fun j hj => hks j (List.mem_cons_of_mem _ hj)) hQ

/-- `isdirempty`: no entry behind the first two is in use. -/
theorem Inodes.rwp_isdirempty {Q : Bool → View → Prop} (h : Inodes v H O W L) (hip : dp ∈ L)
    (hm : (dp, d) ∈ H ∨ (dp, d) ∈ O)
    (hQ : ∀ b : Bool, (b = true ↔ ∀ k, 2 ≤ k → k < numEntries (v.node d).bytes →
      (entry (v.node d).bytes k).inum = 0) → Q b v) :
    rwp R (isdirempty sb dp) Q E v := by
  refine rwp_bind (h.rwp_getInode hip hm (fun x _ hx => ?_))
  rw [hx.size, offsets_two hdir.whole]
  refine h.rwp_isdiremptyLoop hip hm _ (fun k hk => ?_) (hQ _ ?_)
  · rw [List.mem_range'_1] at hk
    omega
  · simp only [List.all_eq_true, List.mem_range'_1, decide_eq_true_eq]
    exact ⟨fun hall k h2 hk => hall k (by omega), fun hall k hk => hall k hk.1 (by omega)⟩

/-- What `dirlink` has done when it succeeds. -/
structure Linked (v v' : View) (d : Nat) (name : List UInt8) (inum : Nat) : Prop where
  absent : findEntry (v.node d).bytes name = none
  view : SlotsOnly (v.withNode d ((v.node d).withBytes (setEntry (v.node d).bytes
    (freeEntry (v.node d).bytes) { inum := inum, name := strncpy name }))) v'

/-- The next entry of the directory `d` is below the largest size of a file and has a block, or can
    have one. -/
def View.Room (sb : Superblock) (v : View) (u : Nat × Nat → Nat) (d : Nat) : Prop :=
  DIRENT * freeEntry (v.node d).bytes + DIRENT ≤ MAXFILE * BSIZE ∧
    HasBlock sb u d (DIRENT * freeEntry (v.node d).bytes / BSIZE)

/-- `dirlink` into a locked directory: it writes a whole entry or nothing. If it writes nothing, the
    name is there or there is no room, and the directory has got an indirect block at most. -/
theorem Inodes.rwp_dirlink_watched [LogErrs E] {name : List UInt8} {inum : Nat} {u : Nat × Nat → Nat}
    {Q : Bool → Watch → Prop} (h : Inodes v H O [] L) (hE : E (.panic .igetNoInodes)) (hip : dp ∈ L)
    (hm : (dp, d) ∈ H ∨ (dp, d) ∈ O) (htype : (v.node d).type = .dir) (hinum : inum < 2 ^ 16)
    (hfail : ∀ v' u', Inodes v' H O [] L → SlotsOnly v v' → OnlyIndirect d u u' →
      (findEntry (v.node d).bytes name = none → ¬ v.Room sb u d) → Q false (some (v', u')))
    (hdone : ∀ v' u', Inodes v' H O [] L → Linked v v' d name inum → Gained d u u' → v.Room sb u d →
      Q true (some (v', u'))) :
    rwp (RepW sb) (dirlink sb dp name inum) Q E (some (v, u)) := by
  refine rwp_bind (rwp_tracked (h.rwp_dirlookup hdir (fun _ => hE) hip hm htype
    (fun hnone => ?_) (fun k ip v' hk h' hs' => ?_)))
  · refine rwp_bind (rwp_tracked (h.rwp_getInode hip hm (fun x _ hx => ?_)))
    have hfin : (x.size + (DIRENT - 1)) / DIRENT = numEntries (v.node d).bytes := by
      rw [hx.size]
      have := hdir.whole
      simp only [numEntries, DIRENT, DIRSIZ] at *
      omega
    rw [hfin, hx.size, offsets_zero hdir.whole]
    refine rwp_bind (rwp_tracked
      (h.rwp_emptyDirent hip hm _ _ (fun k hk => List.mem_range.1 hk) ?_))
    have hde := dirent_ok hinum name
    have hread : Readable (kernelSrc (Dirent.encode { inum := inum, name := strncpy name }))
        (Dirent.encode { inum := inum, name := strncpy name }) := fun _ _ => rfl
    refine rwp_bind (h.rwp_writei_watched hip hm (by decide) (fun hbad => ?_)
      (fun r bytes' u' hw htaken hgain h' => ?_))
    · exact rwp_pure (hfail v u h (SlotsOnly.refl v) (OnlyIndirect.refl d u)
        (fun _ hroom => not_refused freeEntry_le hroom.1 hbad))
    · obtain ⟨hb, -⟩ := hw.bytes _ hread (encode_length hde)
      have htaken := htaken _ hread (encode_length hde) (by decide)
      by_cases hfull : r = DIRENT
      · subst hfull
        rw [List.take_of_length_le (Nat.le_of_eq (encode_length hde))] at hb
        subst hb
        refine rwp_pure (hdone _ u' h' ⟨hnone, SlotsOnly.refl _⟩ hgain ⟨hw.fits, ?_⟩)
        exact not_not.1 (mt htaken.none_iff.2 (by decide))
      · have hzero := aligned_entry hw.aligned hw.le hfull
        subst hzero
        have hsame : bytes' = (v.node d).bytes := by
          rw [hb, List.take_zero, writeBytes, List.append_nil, List.length_nil, Nat.add_zero,
            List.take_append_drop]
        subst hsame
        have hview : v.withNode d ((v.node d).withBytes (v.node d).bytes) = v := by
          show { v with node := Function.update v.node d (v.node d) } = v
          rw [Function.update_eq_self]
        rw [hview] at h' ⊢
        exact rwp_pure (hfail v u' h' (SlotsOnly.refl v) ⟨hgain, htaken.nothing rfl⟩
          (fun _ hroom => htaken.none_iff.1 rfl hroom.2))
  · exact rwp_bind (rwp_tracked (h'.rwp_iput (fun hmem => (h.locked_held ip hmem).1)
      (fun v'' h'' hs'' => rwp_pure (hfail v'' u h'' (hs'.trans hs'') (OnlyIndirect.refl d u)
        (fun hnone => absurd (hk.symm.trans hnone) (Option.some_ne_none k))))))

end Reading

end Xv6.Fs
