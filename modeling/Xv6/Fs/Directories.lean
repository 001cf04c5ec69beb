import Xv6.Fs.LinkCounts

set_option autoImplicit false

/-! # Directories are maps

A directory maps names to inodes: its entries in use have different names, `dirlink` adds one name,
`unlink` takes one away, and all other names stay as they are. -/

namespace Xv6.Fs

open Wp Machine Function

variable {sb : Superblock} {node : Nat → Node} {d k i j : Nat} {name name' : List UInt8}

/-! ## Every directory has its two entries, and different names -/

theorem SameNames.names_formed {n n' : Nat → Node} (h : SameNames n n') (hf : (names n).Formed) :
    (names n').Formed := by
  have htype : (names n').type = (names n).type := funext fun i => (h i).1
  have hent : (names n').ent = (names n).ent :=
    funext fun d => funext fun _ => names_ent_congr (h d).1 (h d).2
  obtain ⟨hdir, hself, hup, hdistinct⟩ := hf
  rw [← hent] at hdir hself hup hdistinct
  rw [← htype] at hdir hself hup
  exact ⟨hdir, hself, hup, hdistinct⟩

/-- A name that no entry has is added. -/
theorem names_addEntry_formed (hf : (names node).Formed) (hd : (node d).type = .dir)
    (hw : (node d).bytes.length % DIRENT = 0) (h0 : i ≠ 0) (hi : i < 2 ^ 16)
    (habsent : findEntry (node d).bytes name = none) : (names (addEntry node d name i)).Formed := by
  rw [names_addEntry hd hw h0 hi]
  exact hf.enter hd names_freeEntry (names_absent habsent)

theorem names_clearEntry_formed (hf : (names node).Formed) (hd : (node d).type = .dir)
    (hw : (node d).bytes.length % DIRENT = 0) (hdots : ¬ IsDots name)
    (hk : findEntry (node d).bytes name = some k) : (names (clearEntry node d k)).Formed := by
  rw [names_clearEntry hd hw (findEntry_some hk).1]
  exact hf.remove (two_le_of_found hf hd hdots hk)

theorem unlinked_sameNames (node : Nat → Node) (d k i : Nat) :
    SameNames (clearEntry node d k) (unlinked node d k i) := by
  have h := SameNames.addLinks (clearEntry node d k)
  rw [unlinked]
  split
  · intro j
    have h' := SameNames.addLinks (addLinks (clearEntry node d k) d (-1)) i (-1) j
    exact ⟨h'.1.trans (h d (-1) j).1, h'.2.trans (h d (-1) j).2⟩
  · exact h i (-1)

section Change

variable {v : View} {p : ProcId} {op : NameOp} {n : Nat → Node}

theorem Change.formed (h : Change sb v p op n) (hok : v.Ok sb) (hdirs : Dirs sb v)
    (hf : (names v.node).Formed) : (names n).Formed := by
  cases h with
  | none => exact hf
  | @link _ _ _ name i d _ hfree hdir _ hd habsent =>
    have hi := hok.alloc i hfree
    have hsame := SameNames.addLinks v.node i 1
    refine names_addEntry_formed (hsame.names_formed hf) ((hsame d).1.trans hd) ?_
      (Nat.ne_of_gt hi.1) (Nat.lt_of_lt_of_le hi.2 sb.ninodes_le) ?_
    · rw [(hsame d).2]
      exact (hdirs d hd).whole
    · rw [(hsame d).2]
      exact habsent
  | @unlink _ name d k i _ hd hdot hdotdot hk hi hne _ _ _ =>
    exact (unlinked_sameNames v.node d k i).names_formed (names_clearEntry_formed hf hd
      (hdirs d hd).whole (fun h => h.elim hdot hdotdot) hk)
  | @create _ name type d i x _ hd habsent hpos hi hfree hx htype hnlink hbytes =>
    have hdalloc := hok.alloc d (by rw [hd]; decide)
    have hi16 := Nat.lt_of_lt_of_le hi sb.ninodes_le
    have hid : d ≠ i := by
      rintro rfl
      rw [hfree] at hd
      cases hd
    have hsame : update v.node i x d = v.node d := update_of_ne hid ..
    have hnew : (names (update v.node i x)).Formed := by
      rw [names_fresh hfree hnlink (fun hdir => by rw [hbytes, if_pos (hx ▸ hdir)])
        (Nat.ne_of_gt hpos) hi16 (Nat.ne_of_gt hdalloc.1)
        (Nat.lt_of_lt_of_le hdalloc.2 sb.ninodes_le)]
      exact (hf.fresh hfree d x.type).addLink
    have hentry : (names (addEntry (update v.node i x) d name i)).Formed :=
      names_addEntry_formed hnew (hsame ▸ hd) (by rw [hsame]; exact (hdirs d hd).whole)
        (Nat.ne_of_gt hpos) hi16 (by rw [hsame]; exact habsent)
    rw [created]
    split
    · exact (SameNames.addLinks _ d 1).names_formed hentry
    · exact hentry

end Change

/-- In every run the directories keep their form. -/
theorem formed_of_run {s s' : State} (es : List Event) (h : Sound sb s)
    (hf : (names (s.node sb)).Formed) (hs : run (step sb) s es = .next s') :
    (names (s'.node sb)).Formed := by
  refine (run_keeps (fun s => Sound sb s ∧ (names (s.node sb)).Formed) (fun s e s' hI hstep => ?_) es
    ⟨h, hf⟩ hs).2
  obtain ⟨hsound, hend⟩ := (hI.1.call (callErrs_callPanic _ _)).1 s' hstep
  obtain ⟨n, hchange, hquiet⟩ := hend.change
  have hok : (s.view sb).Ok sb := Rep.ok ⟨hI.1.good, rfl⟩
  exact ⟨hsound, hquiet.freed.formed (hchange.formed hok hI.1.idle.dirs hI.2)⟩

/-! ## Looking names up -/

section AddEntry

variable (hd : (node d).type = .dir) (hw : (node d).bytes.length % DIRENT = 0) (h : Distinct node d)
  (h0 : i ≠ 0) (hi : i < 2 ^ 16) (habsent : findEntry (node d).bytes name = none)

include hd hw h h0 hi habsent

theorem Distinct.addEntry : Distinct (addEntry node d name i) d := by
  have hnone : (names node).ent d (freeEntry (node d).bytes) = none := names_freeEntry
  have habs := names_absent habsent
  unfold Distinct at h ⊢
  rw [names_addEntry hd hw h0 hi]
  grind

/-- A new entry changes the look-up of its own name only. -/
theorem lookup_addEntry : lookup (addEntry node d name i) d name' =
    if cstr name' = cstr name then some i else lookup node d name' := by
  have hnone : (names node).ent d (freeEntry (node d).bytes) = none := names_freeEntry
  have habs := names_absent habsent
  have hd' : (Fs.addEntry node d name i d).type = .dir := by
    rw [Fs.addEntry, update_self]
    exact hd
  refine Option.ext fun j => ?_
  rw [lookup_iff hd' (h.addEntry hd hw h0 hi habsent), names_addEntry hd hw h0 hi]
  split
  · next heq =>
    rw [heq]
    constructor
    · rintro ⟨k, hk⟩
      grind
    · rintro ⟨⟩
      exact ⟨_, if_pos ⟨rfl, rfl⟩⟩
  · rw [lookup_iff hd h]
    refine exists_congr fun k => ?_
    grind

end AddEntry

theorem clearEntry_type (node : Nat → Node) (d k i : Nat) :
    (clearEntry node d k i).type = (node i).type := by
  rw [clearEntry, update_apply]
  split
  · next heq => exact heq ▸ rfl
  · rfl

/-- The removal of an entry changes the look-up of its own name only. -/
theorem lookup_clearEntry {d' : Nat} (hf : (names node).Formed) (hd : (node d).type = .dir)
    (hw : (node d).bytes.length % DIRENT = 0) (hdots : ¬ IsDots name)
    (hk : findEntry (node d).bytes name = some k) (hd' : (node d').type = .dir) :
    lookup (clearEntry node d k) d' name' =
      if d' = d ∧ cstr name' = cstr name then none else lookup node d' name' := by
  have hent := names_found hd hk
  have hnames := names_clearEntry hd hw (findEntry_some hk).1
  have hf' := names_clearEntry_formed hf hd hw hdots hk
  have htype := (clearEntry_type node d k d').trans hd'
  have hdist := hf.distinct d k
  refine Option.ext fun j => ?_
  rw [lookup_iff htype (hf'.distinct d'), hnames]
  split
  · grind
  · rw [lookup_iff hd' (hf.distinct d')]
    refine exists_congr fun k' => ?_
    grind

/-! ## `dirlookup` and `dirlink` -/

/-- The inode that the result of a `dirlookup` is for. -/
def State.inumOf (s : State) (r : Option (InodeId × Nat)) : Option Nat :=
  r.map fun x => (s.itable x.1).inum

/-- Where every entry of the inode table is in use, `iget` panics. -/
def NoInodes (x : Stop) : Prop := x = .panic .igetNoInodes

/-- `dirlink` can stop in `log_write` too. -/
def LinkPanic (x : Stop) : Prop := NoInodes x ∨ LogPanic x

instance : LogErrs LinkPanic := ⟨.inr LogErrs.tooBig, .inr LogErrs.outsideOfTrans⟩

theorem wp_iget (s : State) (i : Nat) :
    wp (iget i) (fun ip s' => (s'.itable ip).inum = i) NoInodes s := by
  unfold iget
  simp only [wp_bind, wp_get]
  split
  · next ip hfind =>
    have hip := List.find?_some hfind
    rw [decide_eq_true_eq] at hip
    simp only [wp_bind, wp_setInode, wp_pure, State.withInode, update_self]
    exact hip.2
  · split
    · simp only [wp_bind, wp_setInode, wp_pure, State.withInode, update_self]
    · exact rfl

section Locked

variable {v : View} {H O : List (InodeId × Nat)} {L : List InodeId} {dp : InodeId} {s : State}

/-- A call holds the directory `d` locked, in the entry `dp` of the inode table. -/
structure HoldsDir (sb : Superblock) (s : State) (dp : InodeId) (d : Nat) : Prop where
  good : Good sb s
  held : ∃ H O L, Inodes (s.view sb) H O [] L ∧ dp ∈ L ∧ ((dp, d) ∈ H ∨ (dp, d) ∈ O)
  type : (s.node sb d).type = .dir
  whole : (s.node sb d).bytes.length % DIRENT = 0
  distinct : Distinct (s.node sb) d

theorem HoldsDir.wp_dirlookup (h : HoldsDir sb s dp d) (name : List UInt8) :
    wp (dirlookup sb dp name) (fun r s' => s'.inumOf r = lookup (s.node sb) d name) NoInodes s := by
  obtain ⟨H, O, L, hin, hip, hm⟩ := h.held
  refine hin.wp_dirlookup hip hm h.type h.whole (R := Rep sb) ⟨h.good, rfl⟩
    (fun hnone s' _ => ?_) (fun k hk s' _ => ?_)
  · exact (congrArg (Option.map _) hnone).symm
  · have hfound : lookup (s.node sb) d name = some (entry (s.node sb d).bytes k).inum :=
      congrArg (Option.map _) hk
    rw [hfound]
    exact (wp_iget s' _).mono (fun ip s'' hinum => congrArg some hinum) (fun _ he => he)

/-- `dirlink` adds its name to the look-ups, or leaves them all as they are. -/
theorem HoldsDir.wp_dirlink (h : HoldsDir sb s dp d) (hok : DirOk sb (s.node sb d).bytes) (h0 : 0 < i)
    (hi : i < 2 ^ 16) : wp (dirlink sb dp name i) (fun b s' => HoldsDir sb s' dp d ∧
      (i < sb.ninodes → DirOk sb (s'.node sb d).bytes) ∧ ∀ name', lookup (s'.node sb) d name' =
        if b = true ∧ cstr name' = cstr name then some i else lookup (s.node sb) d name')
      LinkPanic s := by
  obtain ⟨H, O, L, hin, hip, hm⟩ := h.held
  refine (hin.rwp_dirlink_watched (u := s.usage sb) (Q := fun b w => ∃ v' u', w = some (v', u') ∧
      Inodes v' H O [] L ∧ (v'.node = s.node sb ∧ b = false ∨
        v'.node = addEntry (s.node sb) d name i ∧ b = true ∧
          findEntry (s.node sb d).bytes name = none)) (E := LinkPanic) hok (.inl rfl) hip hm h.type hi
    (fun v' u' h' hs' _ _ => ⟨v', u', rfl, h', Or.inl ⟨hs'.node, rfl⟩⟩)
    (fun v' u' h' hl _ _ => ⟨v', u', rfl, h', Or.inr ⟨hl.view.node, rfl, hl.absent⟩⟩) s
    (RepU.watch ⟨⟨h.good, rfl⟩, rfl⟩)).mono ?_ (fun _ he => he)
  rintro b s' ⟨_, hw, v', u', rfl, h', hnode⟩
  obtain ⟨⟨hgood, rfl⟩, -⟩ := hw v' u' rfl
  have hheld : ∃ H O L, Inodes (s'.view sb) H O [] L ∧ dp ∈ L ∧ ((dp, d) ∈ H ∨ (dp, d) ∈ O) :=
    ⟨H, O, L, h', hip, hm⟩
  rcases hnode with ⟨hnode, rfl⟩ | ⟨hnode, rfl, habsent⟩
  · have hsame : s'.node sb = s.node sb := hnode
    refine ⟨⟨hgood, hheld, hsame ▸ h.type, hsame ▸ h.whole, hsame ▸ h.distinct⟩, fun _ => hsame ▸ hok,
      fun name' => ?_⟩
    rw [hsame, if_neg (fun hc => Bool.false_ne_true hc.1)]
  · have hadd : s'.node sb = addEntry (s.node sb) d name i := hnode
    have h0' := Nat.ne_of_gt h0
    have hde := dirent_ok hi name
    have hnew : s'.node sb d = (s.node sb d).withBytes (setEntry (s.node sb d).bytes
        (freeEntry (s.node sb d).bytes) { inum := i, name := strncpy name }) := by
      rw [hadd, addEntry, update_self]
    refine ⟨⟨hgood, hheld, ?_, ?_, ?_⟩, fun hlt => ?_, fun name' => ?_⟩
    · rw [hnew]
      exact h.type
    · rw [hnew]
      exact setEntry_whole hde freeEntry_le h.whole
    · rw [hadd]
      exact h.distinct.addEntry h.type h.whole h0' hi habsent
    · rw [hnew]
      exact hok.setEntry hde freeEntry_le hlt
    · rw [hadd, lookup_addEntry h.type h.whole h.distinct h0' hi habsent]
      simp only [true_and]

/-- Between calls every directory can be locked in this way. -/
theorem Sound.wp_lock (h : Sound sb s) (hf : (names (s.node sb)).Formed)
    (hd : (s.node sb d).type = .dir) :
    wp (iget d >>= fun dp => ilock sb dp >>= fun _ => pure dp)
      (fun dp s' => HoldsDir sb s' dp d ∧ DirOk sb (s'.node sb d).bytes ∧ s'.node sb = s.node sb)
      NoInodes s := by
  have hrep : Rep sb (s.view sb) s := ⟨h.good, rfl⟩
  have hfree : (s.node sb d).type ≠ .free := by
    rw [hd]
    decide
  have hrule : rwp (Rep sb) (iget d >>= fun dp => ilock sb dp >>= fun _ => pure dp)
      (fun dp v => Inodes v [(dp, d)] [] [] [dp] ∧ v.node = s.node sb) NoInodes (s.view sb) := by
    refine rwp_bind (h.idle.inodes.rwp_iget_room (fun _ => rfl) (hrep.ok.alloc d hfree)
      fun dp v h1 hs1 => ?_)
    refine rwp_bind (h1.rwp_ilock_free (fun hmem => absurd hmem List.not_mem_nil)
      (Or.inl List.mem_cons_self) (fun htype => ?_) (fun v' _ _ h2 hs2 => ?_))
    · rw [hs1.node] at htype
      exact absurd htype hfree
    · exact rwp_pure ⟨h2, hs2.node.trans hs1.node⟩
  refine (hrule s hrep).mono ?_ (fun _ he => he)
  rintro dp s' ⟨v, ⟨hgood, rfl⟩, h2, hnode⟩
  have hsame : s'.node sb = s.node sb := hnode
  have hok : DirOk sb (s.node sb d).bytes := h.idle.dirs d hd
  exact ⟨⟨hgood, ⟨_, _, _, h2, List.mem_cons_self, Or.inl List.mem_cons_self⟩, hsame ▸ hd,
    hsame ▸ hok.whole, hsame ▸ hf.distinct d⟩, hsame ▸ hok, hsame⟩

end Locked

/-! ## Unlinking -/

/-- What `unlink` has done to the look-ups when the entry `name` of `d`, for `i`, is removed. -/
structure Unlinked (n n' : Nat → Node) (d : Nat) (name : List UInt8) (i : Nat) : Prop where
  found : lookup n d name = some i
  gone : (n' d).type = .dir → lookup n' d name = none
  other : ∀ d' name', (n' d').type = .dir → ¬ (d' = d ∧ cstr name' = cstr name) →
    lookup n' d' name' = lookup n d' name'
  empty : (n i).type = .dir → ∀ k, 2 ≤ k → k < numEntries (n i).bytes →
    (entry (n i).bytes k).inum = 0

theorem SameNames.lookup {n n' : Nat → Node} (h : SameNames n n') (d : Nat) (name : List UInt8) :
    lookup n' d name = lookup n d name := by
  rw [Fs.lookup, Fs.lookup, (h d).2]

theorem Quiet.lookup {n n' : Nat → Node} (h : Quiet n n') (hd : (n' d).type = .dir) :
    lookup n' d name = lookup n d name := by
  rw [Fs.lookup, Fs.lookup, (h.dir hd).2.1]

theorem Change.unlinked {v : View} {p : ProcId} {op : NameOp} {n : Nat → Node}
    (h : Change sb v p op n) (hop : op = .nothing ∨ ∃ path, op = .unlink path) (hdirs : Dirs sb v)
    (hf : (names v.node).Formed) : n = v.node ∨ ∃ d name i, Unlinked v.node n d name i := by
  cases h with
  | none => exact Or.inl rfl
  | link | create => simp at hop
  | @unlink _ name d k i _ hd hdot hdotdot hk hi _ _ _ hempty =>
    have hsame := unlinked_sameNames v.node d k i
    have hclear : ∀ d' name', (Fs.unlinked v.node d k i d').type = .dir →
        lookup (Fs.unlinked v.node d k i) d' name' =
          if d' = d ∧ cstr name' = cstr name then Option.none else lookup v.node d' name' := by
      intro d' name' htype
      rw [hsame.lookup]
      refine lookup_clearEntry hf hd (hdirs d hd).whole (fun h => h.elim hdot hdotdot) hk ?_
      rwa [(hsame d').1, clearEntry_type] at htype
    refine Or.inr ⟨d, name, i, ?_, fun htype => ?_, fun d' name' htype hne => ?_, hempty⟩
    · rw [lookup, hk, Option.map_some, hi]
    · rw [hclear d name htype, if_pos ⟨rfl, rfl⟩]
    · rw [hclear d' name' htype, if_neg hne]

/-- `unlink` removes one name, or none. -/
theorem Sound.unlink {s s' : State} {e : Event} {path : Nat} (h : Sound sb s)
    (hf : (names (s.node sb)).Formed) (he : e.call = .unlink path) (hs : step sb s e = .next s') :
    (∀ d name, (s'.node sb d).type = .dir → lookup (s'.node sb) d name = lookup (s.node sb) d name) ∨
      ∃ d name i, Unlinked (s.node sb) (s'.node sb) d name i := by
  obtain ⟨-, hend⟩ := (h.call (callErrs_callPanic _ _)).1 s' hs
  obtain ⟨n, hchange, hquiet⟩ := hend.change
  have hpath : e.op = pathOp e.u path .unlink := by rw [Event.op, he]
  have hop : e.op = .nothing ∨ ∃ path, e.op = .unlink path := by
    rw [hpath, pathOp]
    split
    · exact Or.inr ⟨_, rfl⟩
    · exact Or.inl rfl
  rcases hchange.unlinked hop h.idle.dirs hf with rfl | ⟨d, name, i, hun⟩
  · exact Or.inl fun d name hd => hquiet.lookup hd
  · refine Or.inr ⟨d, name, i, hun.found, fun hd => ?_, fun d' name' hd' hne => ?_, hun.empty⟩
    · exact (hquiet.lookup hd).trans (hun.gone (hquiet.dir hd).1)
    · exact (hquiet.lookup hd').trans (hun.other d' name' (hquiet.dir hd').1 hne)

/-! ## The form of the directories -/

/-- The entries of the directory `d` are a map, with "." and ".." in the first two. -/
structure IsMap (bytes : List UInt8) (d : Nat) : Prop where
  two_le : 2 ≤ numEntries bytes
  self : (entry bytes 0).inum = d ∧ namecmp (entry bytes 0).name dot = true
  up : (entry bytes 1).inum ≠ 0 ∧ namecmp (entry bytes 1).name dotdot = true
  distinct : ∀ j k, j < numEntries bytes → k < numEntries bytes → (entry bytes j).inum ≠ 0 →
    (entry bytes k).inum ≠ 0 → namecmp (entry bytes j).name (entry bytes k).name = true → j = k

theorem isMap_of_formed (h : (names node).Formed) (hd : (node d).type = .dir) :
    IsMap (node d).bytes d := by
  obtain ⟨t, hup⟩ := h.up d hd
  obtain ⟨-, -, -, hself, hdot⟩ := names_ent_some.1 (h.self d hd)
  obtain ⟨-, hlt, ht, rfl, hdotdot⟩ := names_ent_some.1 hup
  refine ⟨hlt, ⟨hself, decide_eq_true hdot⟩, ⟨ht, decide_eq_true hdotdot⟩, ?_⟩
  intro j k hj hk hj0 hk0 hcmp
  exact h.distinct d j k _ _ _ (names_ent_some.2 ⟨hd, hj, hj0, rfl, of_decide_eq_true hcmp⟩)
    (names_ent_some.2 ⟨hd, hk, hk0, rfl, rfl⟩)

variable {dinode : Nat → Dinode} {bitmap : Nat → Bool} {data : Nat → Block}

/-- Directories are maps from names to inodes: in every run they keep their form, `unlink` takes one
    name away, that of an empty directory if it is one, and `dirlink` into a locked directory adds
    one. -/
theorem directories_are_maps (h : Consistent sb dinode bitmap data)
    (hf : (names ((boot dinode bitmap data).node sb)).Formed) (es : List Event) :
    (∀ s, run (step sb) (boot dinode bitmap data) es = .next s →
      (∀ d, (s.node sb d).type = .dir → IsMap (s.node sb d).bytes d) ∧
      (∀ e path s', e.call = .unlink path → step sb s e = .next s' →
        (∀ d name, (s'.node sb d).type = .dir →
          lookup (s'.node sb) d name = lookup (s.node sb) d name) ∨
        ∃ d name i, Unlinked (s.node sb) (s'.node sb) d name i) ∧
      ∀ d, (s.node sb d).type = .dir →
        wp (iget d >>= fun dp => ilock sb dp >>= fun _ => pure dp)
          (fun dp s' => HoldsDir sb s' dp d ∧ DirOk sb (s'.node sb d).bytes ∧
            s'.node sb = s.node sb) NoInodes s) ∧
    ∀ s dp d, HoldsDir sb s dp d →
      (∀ name, wp (dirlookup sb dp name) (fun r s' => s'.inumOf r = lookup (s.node sb) d name)
        NoInodes s) ∧
      (DirOk sb (s.node sb d).bytes → ∀ name i, 0 < i → i < 2 ^ 16 →
        wp (dirlink sb dp name i) (fun b s' => HoldsDir sb s' dp d ∧
          (i < sb.ninodes → DirOk sb (s'.node sb d).bytes) ∧ ∀ name',
          wp (dirlookup sb dp name') (fun r s'' => s''.inumOf r =
            if b = true ∧ cstr name' = cstr name then some i else lookup (s.node sb) d name')
            NoInodes s') LinkPanic s) := by
  constructor
  · intro s hs
    have hsound := h.sound.of_run es hs
    have hformed := formed_of_run es h.sound hf hs
    exact ⟨fun d hd => isMap_of_formed hformed hd, fun e path s' he hstep => hsound.unlink hformed he
      hstep, fun d hd => hsound.wp_lock hformed hd⟩
  · intro s dp d hheld
    refine ⟨hheld.wp_dirlookup, fun hok name i h0 hi => (hheld.wp_dirlink hok h0 hi).mono ?_
      (fun _ he => he)⟩
    rintro b s' ⟨hheld', hok', hlookup⟩
    refine ⟨hheld', hok', fun name' => (hheld'.wp_dirlookup name').mono (fun r s'' hr => ?_)
      (fun _ he => he)⟩
    rw [hr, hlookup]

theorem directories_are_maps_tinyRun :
    ∃ s, run (step tinySb) tiny tinyRun = .next s ∧
      ∀ d, (s.node tinySb d).type = .dir → IsMap (s.node tinySb d).bytes d := by
  obtain ⟨s, hs⟩ := tinyRun_next
  exact ⟨s, hs, ((directories_are_maps tiny_consistent tiny_ordered.toFormed tinyRun).1 s hs).1⟩

end Xv6.Fs
