import Mathlib.Data.List.TakeWhile
import Xv6.Fs.NameSpace
import Xv6.Fs.Resolve

set_option autoImplicit false

/-! # Link counts and directory entries

The nodes of the file system form a name space (`names`), and what a system call does to the nodes
(`Change`) is what `NameSpace` calls a new name, a removed name or something new. -/

namespace Xv6.Fs

open Wp Machine Function

variable {sb : Superblock} {node : Nat → Node} {d k i j : Nat} {name : List UInt8}

/-! ## The name space of the nodes -/

def names (node : Nat → Node) : NameSpace where
  type i := (node i).type
  nlink i := (node i).nlink
  ent d k :=
    if (node d).type = .dir ∧ k < numEntries (node d).bytes ∧ (entry (node d).bytes k).inum ≠ 0 then
      some (cstr (entry (node d).bytes k).name, (entry (node d).bytes k).inum)
    else none

theorem names_ent_some : (names node).ent d k = some (name, i) ↔
    (node d).type = .dir ∧ k < numEntries (node d).bytes ∧ i ≠ 0 ∧
      (entry (node d).bytes k).inum = i ∧ cstr (entry (node d).bytes k).name = name := by
  show (if _ then _ else _) = _ ↔ _
  split
  · next h =>
      constructor
      · rintro ⟨⟩
        exact ⟨h.1, h.2.1, h.2.2, rfl, rfl⟩
      · rintro ⟨-, -, -, rfl, rfl⟩
        rfl
  · next h =>
      refine iff_of_false (fun hx => by cases hx) ?_
      rintro ⟨hd, hk, hi, rfl, -⟩
      exact h ⟨hd, hk, hi⟩

theorem names_ent_congr {node' : Nat → Node} (htype : (node' d).type = (node d).type)
    (hbytes : (node' d).bytes = (node d).bytes) : (names node').ent d k = (names node).ent d k := by
  show (if _ then _ else _) = if _ then _ else _
  rw [htype, hbytes]

theorem cstr_strncpy (name : List UInt8) : cstr (strncpy name) = cstr name := by
  have hno : ∀ c ∈ cstr name, decide (c ≠ 0) = true :=
    fun c hc => List.mem_takeWhile_imp (p := fun c => decide (c ≠ 0)) hc
  have hlen : (strncpy name).length ≤ DIRSIZ := Nat.le_of_eq (strncpy_length name)
  rw [cstr, List.take_of_length_le hlen, strncpy, List.takeWhile_append_of_pos hno]
  cases hn : DIRSIZ - (cstr name).length with
  | zero | succ => exact List.append_nil _

/-- What is absent has no entry. -/
theorem names_absent (h : findEntry (node d).bytes name = none) (k i : Nat) :
    (names node).ent d k ≠ some (cstr name, i) := by
  intro hent
  obtain ⟨-, hk, hi, rfl, hname⟩ := names_ent_some.1 hent
  exact findEntry_none h hk ⟨hi, decide_eq_true hname.symm⟩

theorem names_found (hd : (node d).type = .dir) (h : findEntry (node d).bytes name = some k) :
    (names node).ent d k = some (cstr name, (entry (node d).bytes k).inum) := by
  obtain ⟨hk, hi, hname⟩ := findEntry_some h
  exact names_ent_some.2 ⟨hd, hk, hi, rfl, (of_decide_eq_true hname).symm⟩

theorem names_freeEntry : (names node).ent d (freeEntry (node d).bytes) = none := by
  refine if_neg fun h => ?_
  obtain ⟨-, hk, hne⟩ := h
  unfold freeEntry at hk hne
  cases hf : (List.range (numEntries (node d).bytes)).find? fun k => (entry (node d).bytes k).inum = 0 with
  | none =>
    rw [hf] at hk
    exact Nat.lt_irrefl _ hk
  | some k =>
    rw [hf] at hne
    exact hne (by simpa using List.find?_some hf)

theorem isDots_iff {name : List UInt8} : IsDots name ↔ cstr name = dot ∨ cstr name = dotdot := by
  have hdot : cstr dot = dot := by decide
  have hdotdot : cstr dotdot = dotdot := by decide
  simp only [IsDots, namecmp, decide_eq_true_eq, hdot, hdotdot]

/-- An entry with a name of its own is behind "." and "..". -/
theorem two_le_of_found (hf : (names node).Formed) (hd : (node d).type = .dir)
    (hdots : ¬ IsDots name) (hk : findEntry (node d).bytes name = some k) : 2 ≤ k := by
  rw [isDots_iff, not_or] at hdots
  exact (hf.two_le_iff (names_found hd hk)).2 hdots

/-! ## Changes of the nodes are changes of the name space -/

theorem names_addLinks {δ : Int} (h : short ((node i).nlink + δ) = (node i).nlink + δ) :
    names (addLinks node i δ) = (names node).addLink i δ := by
  have htype : ∀ j, (addLinks node i δ j).type = (node j).type ∧
      (addLinks node i δ j).bytes = (node j).bytes := fun j => SameNames.addLinks node i δ j
  ext1
  · exact funext fun j => (htype j).1
  · funext j
    show (update node i _ j).nlink = update (fun i => (node i).nlink) i _ j
    by_cases hji : j = i
    · subst hji
      rw [update_self, update_self]
      exact h
    · rw [update_of_ne hji, update_of_ne hji]
  · exact funext fun d => funext fun k => names_ent_congr (htype d).1 (htype d).2

/-- Writing an entry. -/
theorem names_setEntry {de : Dirent} (hd : (node d).type = .dir)
    (hw : (node d).bytes.length % DIRENT = 0) (hk : k ≤ numEntries (node d).bytes) (hde : de.Ok) :
    names (update node d ((node d).withBytes (setEntry (node d).bytes k de))) =
      (names node).setEnt d k (if de.inum ≠ 0 then some (cstr de.name, de.inum) else none) := by
  ext1
  · funext j
    show (update node d _ j).type = (node j).type
    by_cases hjd : j = d
    · rw [hjd, update_self]
      rfl
    · rw [update_of_ne hjd]
  · funext j
    show (update node d _ j).nlink = (node j).nlink
    by_cases hjd : j = d
    · rw [hjd, update_self]
      rfl
    · rw [update_of_ne hjd]
  · funext d' k'
    by_cases hdd : d' = d
    · subst hdd
      show (if _ then _ else _) = _
      rw [update_self]
      show (if (node d').type = .dir ∧ k' < numEntries (setEntry (node d').bytes k de) ∧
        (entry (setEntry (node d').bytes k de) k').inum ≠ 0 then
          some (cstr (entry (setEntry (node d').bytes k de) k').name,
            (entry (setEntry (node d').bytes k de) k').inum) else none) = _
      rw [numEntries_setEntry hde hk hw, entry_setEntry hde hk hw]
      by_cases hkk : k' = k
      · subst hkk
        rw [if_pos rfl, NameSpace.setEnt_ent_self]
        exact if_congr ⟨fun h => h.2.2, fun h => ⟨hd, by omega, h⟩⟩ rfl rfl
      · rw [if_neg hkk, NameSpace.setEnt_ent_of_ne fun he => hkk (Prod.mk.inj he).2]
        exact if_congr ⟨fun h => ⟨h.1, by omega, h.2.2⟩, fun h => ⟨h.1, by omega, h.2.2⟩⟩ rfl rfl
    · rw [NameSpace.setEnt_ent_of_ne fun he => hdd (Prod.mk.inj he).1]
      refine names_ent_congr ?_ ?_
      · rw [update_of_ne hdd]
      · rw [update_of_ne hdd]

theorem names_addEntry (hd : (node d).type = .dir) (hw : (node d).bytes.length % DIRENT = 0)
    (h0 : i ≠ 0) (hi : i < 2 ^ 16) : names (addEntry node d name i) =
      (names node).setEnt d (freeEntry (node d).bytes) (some (cstr name, i)) := by
  rw [addEntry, names_setEntry hd hw freeEntry_le (dirent_ok hi name), if_pos h0, cstr_strncpy]

theorem names_clearEntry (hd : (node d).type = .dir) (hw : (node d).bytes.length % DIRENT = 0)
    (hk : k < numEntries (node d).bytes) :
    names (clearEntry node d k) = (names node).setEnt d k none := by
  rw [clearEntry, names_setEntry hd hw (Nat.le_of_lt hk) empty_ok]
  rfl

/-- The entries of a new directory. -/
theorem names_newDir {x : Node} (hx : x.type = .dir) (hbytes : x.bytes = newDir i d)
    (hi0 : i ≠ 0) (hi : i < 2 ^ 16) (hd0 : d ≠ 0) (hd : d < 2 ^ 16) :
    (names (update node i x)).ent i k = NameSpace.emptyDir i d k := by
  have hi16 := dirent_ok hi dot
  have hd16 := dirent_ok hd dotdot
  have hnum : numEntries (setEntry [] 0 { inum := i, name := strncpy dot }) = 1 :=
    numEntries_setEntry hi16 (Nat.zero_le _) rfl
  have hw : (setEntry [] 0 { inum := i, name := strncpy dot }).length % DIRENT = 0 := by
    rw [setEntry_length hi16 (Nat.zero_le _) rfl]
    rfl
  show (if _ then _ else _) = _
  rw [update_self, hbytes, newDir, numEntries_setEntry hd16 (Nat.le_of_eq hnum.symm) hw, hnum,
    entry_setEntry hd16 (Nat.le_of_eq hnum.symm) hw, entry_setEntry hi16 (Nat.zero_le _) rfl]
  rcases Nat.lt_or_ge k 2 with hk | hk
  · rcases (by omega : k = 0 ∨ k = 1) with rfl | rfl
    · exact (if_pos ⟨hx, by decide, hi0⟩).trans (by rw [if_neg (by decide), if_pos rfl, cstr_strncpy]; rfl)
    · exact (if_pos ⟨hx, by decide, hd0⟩).trans (by rw [if_pos rfl, cstr_strncpy]; rfl)
  · rw [NameSpace.emptyDir_of_two_le hk, if_neg fun h => ?_]
    omega

theorem names_fresh {x : Node} (hi : (node i).type = .free) (hnlink : x.nlink = 1)
    (hbytes : x.type = .dir → x.bytes = newDir i d) (hi0 : i ≠ 0) (hi16 : i < 2 ^ 16) (hd0 : d ≠ 0)
    (hd16 : d < 2 ^ 16) :
    names (update node i x) = ((names node).fresh i d x.type).addLink i 1 := by
  ext1
  · funext j
    show (update node i x j).type = update (fun i => (node i).type) i x.type j
    by_cases hji : j = i
    · rw [hji, update_self, update_self]
    · rw [update_of_ne hji, update_of_ne hji]
  · funext j
    show (update node i x j).nlink =
      update ((names node).fresh i d x.type).nlink i _ j
    by_cases hji : j = i
    · rw [hji, update_self, update_self, NameSpace.fresh_nlink, if_pos rfl, hnlink]
      rfl
    · rw [update_of_ne hji, update_of_ne hji, NameSpace.fresh_nlink, if_neg hji]
      rfl
  · funext d' k
    show _ = ((names node).fresh i d x.type).ent d' k
    by_cases hdi : d' = i
    · subst hdi
      by_cases hx : x.type = .dir
      · rw [NameSpace.fresh_ent, if_pos ⟨hx, rfl⟩, names_newDir hx (hbytes hx) hi0 hi16 hd0 hd16]
      · have hold : ((names node).fresh d' d x.type).ent d' k = (names node).ent d' k :=
          if_neg fun hc => hx hc.1
        have hnone : (names node).ent d' k = none := if_neg fun hc => by
          rw [hi] at hc
          cases hc.1
        rw [hold, hnone]
        refine if_neg fun hc => ?_
        rw [update_self] at hc
        exact hx hc.1
    · rw [NameSpace.fresh_ent, if_neg fun h => hdi h.2]
      exact names_ent_congr (by rw [update_of_ne hdi]) (by rw [update_of_ne hdi])

theorem Quiet.freed {n n' : Nat → Node} (h : Quiet n n') : (names n).Freed (names n') := by
  refine ⟨fun i => ?_, fun i hi => ?_, fun d k => ?_⟩
  · rcases h i with ⟨ht, -⟩ | ⟨hc, ht⟩
    · exact Or.inl ht
    · exact Or.inr ⟨ht, hc⟩
  · rcases h i with ⟨-, hn, -⟩ | ⟨-, ht⟩
    · exact hn
    · exact absurd ht hi
  · split
    · next hd =>
        obtain ⟨hd', hbytes, -⟩ := h.dir hd
        exact names_ent_congr (hd.trans hd'.symm) hbytes
    · next hd => exact if_neg fun hc => hd hc.1

/-! ## What a call does keeps the order -/

/-- A count that fits. -/
theorem short_eq {x : Int} (h0 : 0 ≤ x) (h : x < 2 ^ 15) : short x = x :=
  Int.bmod_eq_of_le (by omega) (by omega)

section Change

variable {v : View} {p : ProcId} {op : NameOp} {n : Nat → Node} (hok : v.Ok sb) (hdirs : Dirs sb v)
  (ho : (names v.node).Ordered) (hl : (names v.node).Linked)
  (hmax : ∀ i, (v.node i).nlink < 2 ^ 15 - 1)

include hok hdirs ho hl hmax

theorem names_link_ordered (hfree : (v.node i).type ≠ .free) (hdir : (v.node i).type ≠ .dir)
    (hd : (v.node d).type = .dir) (habsent : findEntry (v.node d).bytes name = none) :
    (names (addEntry (addLinks v.node i 1) d name i)).Ordered := by
  have hi := hok.alloc i hfree
  have hdi : d ≠ i := by
    rintro rfl
    exact hdir hd
  have hsame : addLinks v.node i 1 d = v.node d := update_of_ne hdi ..
  have hpos := ho.nlink_nonneg hfree
  have hmax := hmax i
  rw [names_addEntry (by rw [hsame]; exact hd) (by rw [hsame]; exact (hdirs d hd).whole)
    (Nat.ne_of_gt hi.1) (Nat.lt_of_lt_of_le hi.2 sb.ninodes_le), hsame,
    names_addLinks (short_eq (Int.add_nonneg hpos (by decide)) (by omega))]
  exact ho.link hl hd names_freeEntry (names_absent habsent) hfree hdir

omit hok in
theorem names_unlink_ordered (hd : (v.node d).type = .dir) (hdot : ¬ namecmp name dot = true)
    (hdotdot : ¬ namecmp name dotdot = true) (hk : findEntry (v.node d).bytes name = some k)
    (hi : (entry (v.node d).bytes k).inum = i) (hne : i ≠ d)
    (hempty : (v.node i).type = .dir → ∀ j, 2 ≤ j → j < numEntries (v.node i).bytes →
      (entry (v.node i).bytes j).inum = 0) : (names (unlinked v.node d k i)).Ordered := by
  have hent := names_found hd hk
  rw [hi] at hent
  have hk2 : 2 ≤ k := two_le_of_found ho.toFormed hd (fun h => h.elim hdot hdotdot) hk
  have hclear := names_clearEntry hd (hdirs d hd).whole (findEntry_some hk).1
  have hother : clearEntry v.node d k i = v.node i := update_of_ne hne ..
  have hself : (clearEntry v.node d k d).nlink = (v.node d).nlink := by
    rw [clearEntry, update_self]
    rfl
  have hmaxi := hmax i
  have hmaxd := hmax d
  rw [unlinked]
  split
  · next hdir =>
      have hleaf : ∀ j, 2 ≤ j → (names v.node).ent i j = none := by
        intro j hj
        by_contra hne
        obtain ⟨⟨name', i'⟩, hx⟩ := Option.ne_none_iff_exists'.1 hne
        obtain ⟨-, hlt, h0, hinum, -⟩ := names_ent_some.1 hx
        exact h0 (hinum.symm.trans (hempty hdir j hj hlt))
      obtain ⟨-, -, hn1, -, hn2⟩ := ho.unlinkDir_links hl hk2 hent hne hdir hleaf
      have hn1 : (v.node i).nlink = 1 := hn1
      have hn2 : 2 ≤ (v.node d).nlink := hn2
      have hother' : addLinks (clearEntry v.node d k) d (-1) i = v.node i :=
        (update_of_ne hne ..).trans hother
      rw [names_addLinks (by rw [hother', hn1]; decide),
        names_addLinks (by rw [hself]; exact short_eq (by omega) (by omega)), hclear]
      exact ho.unlinkDir hl hk2 hent hne hdir hleaf
  · next hdir =>
      have hcount : 1 ≤ (v.node i).nlink := by
        have hpos := (Set.ncard_pos (ho.finite_links i)).2 ⟨(d, k), hk2, cstr name, hent⟩
        have : (v.node i).nlink = _ := ho.count i (ho.alloc d k _ i hent)
        omega
      rw [names_addLinks (by rw [hother]; exact short_eq (by omega) (by omega)), hclear]
      exact ho.unlinkFile hl hk2 hent hdir

theorem names_create_ordered {x : Node} (hd : (v.node d).type = .dir)
    (habsent : findEntry (v.node d).bytes name = none) (hpos : 0 < i) (hi : i < sb.ninodes)
    (hfree : (v.node i).type = .free) (hx : x.type ≠ .free) (hnlink : x.nlink = 1)
    (hbytes : x.type = .dir → x.bytes = newDir i d) : (names (created v.node d name i x)).Ordered := by
  have hdalloc := hok.alloc d (by rw [hd]; decide)
  have hi16 := Nat.lt_of_lt_of_le hi sb.ninodes_le
  have hid : i ≠ d := by
    rintro rfl
    rw [hfree] at hd
    cases hd
  have hsame : update v.node i x d = v.node d := update_of_ne hid.symm ..
  have hnew := names_fresh hfree hnlink hbytes (Nat.ne_of_gt hpos) hi16 (Nat.ne_of_gt hdalloc.1)
    (Nat.lt_of_lt_of_le hdalloc.2 sb.ninodes_le)
  have hentry : names (addEntry (update v.node i x) d name i) = _ :=
    names_addEntry (by rw [hsame]; exact hd) (by rw [hsame]; exact (hdirs d hd).whole)
      (Nat.ne_of_gt hpos) hi16
  rw [hnew, hsame] at hentry
  have hfresh := ho.fresh hfree hx hd (hl d hd)
  have htype : ((names v.node).fresh i d x.type).type d = .dir := by
    rw [NameSpace.fresh_type, if_neg hid.symm]
    exact hd
  have hent : ∀ k, ((names v.node).fresh i d x.type).ent d k = (names v.node).ent d k := by
    intro k
    rw [NameSpace.fresh_ent, if_neg fun h => hid h.2.symm]
  have hnone := (hent _).trans names_freeEntry
  have habs := fun k' i' => (hent k').trans_ne (names_absent habsent k' i')
  have hlinked : ∀ j, ((names v.node).fresh i d x.type).type j = .dir → j ≠ i →
      ((names v.node).fresh i d x.type).nlink j ≠ 0 := by
    grind [NameSpace.Linked]
  rw [created]
  split
  · next hdir =>
      have hnd : (addEntry (update v.node i x) d name i d).nlink = (v.node d).nlink := by
        rw [addEntry, update_self, hsame]
        rfl
      have hmaxd := hmax d
      have hge : 0 ≤ (v.node d).nlink := ho.nlink_nonneg (i := d) (by
        show (v.node d).type ≠ .free
        rw [hd]
        decide)
      rw [names_addLinks (by rw [hnd]; exact short_eq (by omega) (by omega)), hentry]
      exact hfresh.linkDir htype hnone habs (by grind) hid (by grind) (by grind [NameSpace.emptyDir])
        hlinked
  · next hdir =>
      rw [hentry]
      exact hfresh.link (fun j hj => hlinked j hj (by grind)) htype hnone habs (by grind) (by grind)

theorem Change.ordered (h : Change sb v p op n) : (names n).Ordered := by
  cases h with
  | none => exact ho
  | link _ hfree hdir _ hd habsent => exact names_link_ordered hok hdirs ho hl hmax hfree hdir hd habsent
  | unlink _ hd hdot hdotdot hk hi hne _ _ hempty =>
    exact names_unlink_ordered hdirs ho hl hmax hd hdot hdotdot hk hi hne hempty
  | create _ hd habsent hpos hi hfree hx htype hnlink hbytes =>
    refine names_create_ordered hok hdirs ho hl hmax hd habsent hpos hi hfree (hx ▸ htype) hnlink
      fun hdir => ?_
    rw [hbytes, if_pos (hx ▸ hdir)]

end Change

/-! ## Runs -/

/-- When the call begins, every directory in use has a name, and no count is at its limit. -/
def careful (sb : Superblock) (s : State) (_ : Event) : Bool :=
  (List.range sb.ninodes).all fun i =>
    decide ((s.node sb i).type = .dir → (s.node sb i).nlink ≠ 0) &&
      decide ((s.node sb i).nlink < 2 ^ 15 - 1)

theorem careful_spec {s : State} {e : Event} (h : careful sb s e = true) :
    (names (s.node sb)).Linked ∧ ∀ i, (s.node sb i).nlink < 2 ^ 15 - 1 := by
  have hall : ∀ i < sb.ninodes, ((s.node sb i).type = .dir → (s.node sb i).nlink ≠ 0) ∧
      (s.node sb i).nlink < 2 ^ 15 - 1 := by
    intro i hi
    have := List.all_eq_true.1 h i (List.mem_range.2 hi)
    rw [Bool.and_eq_true, decide_eq_true_eq, decide_eq_true_eq] at this
    exact this
  have hout : ∀ i, ¬ i < sb.ninodes → s.node sb i = Node.free :=
    fun i hi => node_of_not_alloc fun ha => hi ha.2.1
  refine ⟨fun d hd => ?_, fun i => ?_⟩
  · by_cases hlt : d < sb.ninodes
    · exact (hall d hlt).1 hd
    · have : (s.node sb d).type = .dir := hd
      rw [hout d hlt] at this
      cases this
  · by_cases hlt : i < sb.ninodes
    · exact (hall i hlt).2
    · rw [hout i hlt]
      decide

/-- Between two calls, with the name space in order. -/
structure InOrder (sb : Superblock) (s : State) : Prop extends Sound sb s where
  ordered : (names (s.node sb)).Ordered

/-- The panics that are left. -/
def TablePanic (x : Stop) : Prop :=
  x = .stuck ∨ x = .panic .igetNoInodes ∨ x = .panic .initExiting ∨ LogPanic x

theorem InOrder.callErrs {s : State} (h : InOrder sb s) (p : ProcId) :
    CallErrs TablePanic (s.view sb) p := by
  refine ⟨⟨⟨Or.inl rfl, Or.inr (Or.inl rfl)⟩, fun d k hd hk h0 hfree => ?_, fun hfree => ?_⟩,
    ⟨by simp [TablePanic, LogPanic], by simp [TablePanic, LogPanic]⟩,
    fun d k hd hk h0 hdots hnlink => ?_, fun _ => Or.inr (Or.inr (Or.inl rfl))⟩
  · exact absurd hfree (h.ordered.alloc d k _ _ (names_ent_some.2 ⟨hd, hk, h0, rfl, rfl⟩))
  · have hroot : ((s.view sb).node ROOTINO).type = .dir := h.ordered.root_dir
    rw [hfree] at hroot
    cases hroot
  · exfalso
    have hent : (names (s.node sb)).ent d k = some (_, _) := names_ent_some.2 ⟨hd, hk, h0, rfl, rfl⟩
    have hk2 : 2 ≤ k := (h.ordered.two_le_iff hent).2
      ⟨fun he => hdots (Or.inl (decide_eq_true (he.trans (by decide)))),
        fun he => hdots (Or.inr (decide_eq_true (he.trans (by decide))))⟩
    have hpos := (Set.ncard_pos (h.ordered.finite_links _)).2 ⟨(d, k), hk2, _, hent⟩
    have hcount : ((s.view sb).node _).nlink = _ := h.ordered.count _ (h.ordered.alloc d k _ _ hent)
    omega

theorem InOrder.next {s s' : State} {e : Event} (h : InOrder sb s) (hc : careful sb s e = true)
    (hs : step sb s e = .next s') : InOrder sb s' := by
  obtain ⟨hsound, hend⟩ := (h.call (callErrs_callPanic _ _)).1 s' hs
  obtain ⟨n, hchange, hquiet⟩ := hend.change
  obtain ⟨hl, hmax⟩ := careful_spec hc
  have hok : (s.view sb).Ok sb := Rep.ok ⟨h.good, rfl⟩
  exact ⟨hsound, hquiet.freed.ordered (hchange.ordered hok h.idle.dirs h.ordered hl hmax)⟩

theorem InOrder.of_run {s s' : State} (es : List Event) (h : InOrder sb s)
    (hs : run (restrict (careful sb) (step sb)) s es = .next s') : InOrder sb s' := by
  refine run_keeps (InOrder sb) (fun s e s' hI hstep => ?_) es h hs
  obtain ⟨hc, hstep⟩ := restrict_eq_next.1 hstep
  exact hI.next hc hstep

theorem InOrder.panic_of_run {s : State} (es : List Event) {x : Stop} (h : InOrder sb s)
    (hx : run (restrict (careful sb) (step sb)) s es = .panic x) : TablePanic x := by
  by_contra hn
  refine run_ne_panic (InOrder sb) (fun s e s' hI hstep => ?_) (fun s e hI hp => ?_) es h hx
  · obtain ⟨hc, hstep⟩ := restrict_eq_next.1 hstep
    exact hI.next hc hstep
  · exact hn ((hI.call (hI.callErrs e.p)).2 x (Outcome.guard_eq_panic.1 hp).2)

/-! ## Link counts -/

/-- The entries with a name other than "." and ".." that hold an inode. -/
def State.namesOf (sb : Superblock) (s : State) (i : Nat) : Set (Nat × Nat) :=
  { x | (s.node sb x.1).type = .dir ∧ x.2 < numEntries (s.node sb x.1).bytes ∧
    (entry (s.node sb x.1).bytes x.2).inum = i ∧ i ≠ 0 ∧ ¬ IsDots (entry (s.node sb x.1).bytes x.2).name }

/-- The directories with a link whose entry ".." holds an inode. -/
def State.childrenOf (sb : Superblock) (s : State) (i : Nat) : Set Nat :=
  { d | (s.node sb d).type = .dir ∧ 1 ≤ (s.node sb d).nlink ∧ ∃ k < numEntries (s.node sb d).bytes,
    (entry (s.node sb d).bytes k).inum = i ∧ i ≠ 0 ∧
      namecmp (entry (s.node sb d).bytes k).name dotdot = true }

theorem namesOf_eq {s : State} (h : (names (s.node sb)).Formed) :
    s.namesOf sb i = (names (s.node sb)).links i := by
  ext ⟨d, k⟩
  constructor
  · rintro ⟨hd, hk, hinum, h0, hdots⟩
    have hent := names_ent_some.2 ⟨hd, hk, h0, hinum, rfl⟩
    rw [isDots_iff, not_or] at hdots
    exact ⟨(h.two_le_iff hent).2 hdots, _, hent⟩
  · rintro ⟨hk2, name, hent⟩
    obtain ⟨hd, hk, h0, hinum, rfl⟩ := names_ent_some.1 hent
    refine ⟨hd, hk, hinum, h0, ?_⟩
    rw [isDots_iff, not_or]
    exact (h.two_le_iff hent).1 hk2

theorem childrenOf_eq {s : State} (h : (names (s.node sb)).Formed) :
    s.childrenOf sb i = (names (s.node sb)).ups i := by
  have hdotdot : cstr dotdot = dotdot := by decide
  ext d
  refine and_congr_right fun hd => and_congr_right fun _ => ⟨?_, fun hent => ?_⟩
  · rintro ⟨k, hk, hinum, h0, hname⟩
    have hent := names_ent_some.2 ⟨hd, hk, h0, hinum, (of_decide_eq_true hname).trans hdotdot⟩
    obtain ⟨t, ht⟩ := h.up d hd
    rwa [h.distinct d k 1 dotdot i t hent ht] at hent
  · obtain ⟨-, hk, h0, hinum, hname⟩ := names_ent_some.1 hent
    exact ⟨1, hk, hinum, h0, decide_eq_true (hname.trans hdotdot.symm)⟩

/-- No name is in two entries of `d`. -/
def Distinct (node : Nat → Node) (d : Nat) : Prop :=
  ∀ k k' name i i', (names node).ent d k = some (name, i) → (names node).ent d k' = some (name, i') →
    k = k'

theorem lookup_iff (hd : (node d).type = .dir) (h : Distinct node d) :
    lookup node d name = some i ↔ ∃ k, (names node).ent d k = some (cstr name, i) := by
  rw [lookup, Option.map_eq_some_iff]
  constructor
  · rintro ⟨k, hk, rfl⟩
    exact ⟨k, names_found hd hk⟩
  · rintro ⟨k, hent⟩
    cases hfind : findEntry (node d).bytes name with
    | none => exact absurd hent (names_absent hfind k i)
    | some k' =>
      have hent' := names_found hd hfind
      obtain rfl := h k k' _ _ _ hent hent'
      exact ⟨k, rfl, (names_ent_some.1 hent).2.2.2.1⟩

theorem cstr_cstr (name : List UInt8) : cstr (cstr name) = cstr name := by
  rw [cstr, List.take_of_length_le]
  · exact List.takeWhile_idem
  · exact (List.takeWhile_sublist _).length_le.trans (List.length_take_le ..)

theorem lookup_of_ent (h : (names node).Formed) (hent : (names node).ent d k = some (name, i)) :
    lookup node d name = some i := by
  obtain ⟨hd, -, -, -, rfl⟩ := names_ent_some.1 hent
  refine (lookup_iff hd (h.distinct d)).2 ⟨k, ?_⟩
  rw [cstr_cstr]
  exact hent

/-- What is reached by names has a path. -/
theorem reach_follow (h : (names node).Formed) (hr : (names node).Reach i) :
    ∃ cs, follow node ROOTINO cs = some i := by
  induction hr with
  | root => exact ⟨[], rfl⟩
  | @entry d k i name _ _ hent ih =>
    obtain ⟨cs, hcs⟩ := ih
    refine ⟨cs ++ [name], ?_⟩
    rw [follow_append, hcs, Option.bind_some, follow, if_pos (names_ent_some.1 hent).1,
      lookup_of_ent h hent]
    rfl

theorem tiny_names : names (tiny.node tinySb) = NameSpace.lone := by
  have hroot : tiny.node tinySb ROOTINO = rootDinode.node tinyData := node_of_alloc tiny_alloc_root
  have hnode : ∀ i, i ≠ ROOTINO → tiny.node tinySb i = Node.free :=
    fun i hi => node_of_not_alloc fun ha => hi (tiny_alloc ha)
  ext1
  · funext i
    show (tiny.node tinySb i).type = if i = ROOTINO then .dir else .free
    split
    · next hi => rw [hi, hroot]; rfl
    · next hi => rw [hnode i hi]; rfl
  · funext i
    show (tiny.node tinySb i).nlink = if i = ROOTINO then 1 else 0
    split
    · next hi => rw [hi, hroot]; rfl
    · next hi => rw [hnode i hi]; rfl
  · funext d k
    by_cases hd : d = ROOTINO
    · have hnew : (names (update (tiny.node tinySb) ROOTINO (rootDinode.node tinyData))).ent
          ROOTINO k = NameSpace.emptyDir ROOTINO ROOTINO k :=
        names_newDir rfl tiny_content_root (by decide) (by decide) (by decide) (by decide)
      rw [← hroot, update_eq_self] at hnew
      rw [hd, hnew]
      rfl
    · show (names (tiny.node tinySb)).ent d k = if d = ROOTINO then _ else _
      rw [if_neg hd]
      refine if_neg fun hc => ?_
      rw [hnode d hd] at hc
      cases hc.1

theorem tiny_ordered : (names (tiny.node tinySb)).Ordered := tiny_names ▸ NameSpace.lone_ordered

variable {dinode : Nat → Dinode} {bitmap : Nat → Bool} {data : Nat → Block}

/-- From an image with a name space in order, the link counts are exact between two calls, and whatever
    has a link has a path. -/
theorem link_counts_exact (h : Consistent sb dinode bitmap data)
    (ho : (names ((boot dinode bitmap data).node sb)).Ordered) (es : List Event) :
    (∀ s, run (restrict (careful sb) (step sb)) (boot dinode bitmap data) es = .next s → ∀ i,
      (s.node sb i).type ≠ .free →
        (s.node sb i).nlink = (s.namesOf sb i).ncard + (s.childrenOf sb i).ncard ∧
        (0 < (s.node sb i).nlink → ∃ cs, follow (s.node sb) ROOTINO cs = some i)) ∧
    run (restrict (careful sb) (step sb)) (boot dinode bitmap data) es ≠
      .panic (.panic .unlinkNlink) := by
  have hstart : InOrder sb (boot dinode bitmap data) := ⟨h.sound, ho⟩
  refine ⟨fun s hs i hi => ?_, fun hx => ?_⟩
  · have hn := (hstart.of_run es hs).ordered
    rw [namesOf_eq hn.toFormed, childrenOf_eq hn.toFormed]
    exact ⟨hn.count i hi, fun hpos => reach_follow hn.toFormed (hn.reach i hi (Int.ne_of_gt hpos))⟩
  · simpa [TablePanic, LogPanic] using hstart.panic_of_run es hx

theorem tinyRun_careful : ∃ s, run (restrict (careful tinySb) (step tinySb)) tiny tinyRun = .next s := by
  have hany : (run (restrict (careful tinySb) (step tinySb)) tiny tinyRun).any (fun _ => true) = true := by
    decide +kernel
  obtain ⟨s, hs, -⟩ := Outcome.exists_of_any hany
  exact ⟨s, hs⟩

theorem link_counts_exact_tinyRun :
    ∃ s, run (restrict (careful tinySb) (step tinySb)) tiny tinyRun = .next s ∧
      ∀ i, (s.node tinySb i).type ≠ .free →
        (s.node tinySb i).nlink = (s.namesOf tinySb i).ncard + (s.childrenOf tinySb i).ncard := by
  obtain ⟨s, hs⟩ := tinyRun_careful
  exact ⟨s, hs, fun i hi => ((link_counts_exact tiny_consistent tiny_ordered tinyRun).1 s hs i hi).1⟩

/-- The first process makes the directory `/a`, goes into it and removes it, makes a file in it, and
    goes back to the root. -/
def fileInNowhere : List Event :=
  [initCall [slash, 97] (.mkdir 0), initCall [slash, 97] (.chdir 0),
    initCall [period, period, slash, 97] (.unlink 0), initCall [102] (.open 0 0x202),
    initCall [slash] (.chdir 0)]

/-- The file has a link, but there is no entry for it. -/
theorem link_count_of_lost_file :
    ∃ s, run (step tinySb) tiny fileInNowhere = .next s ∧ (s.node tinySb 3).type = .file ∧
      (s.node tinySb 3).nlink = 1 ∧ (s.namesOf tinySb 3).ncard + (s.childrenOf tinySb 3).ncard = 0 := by
  have hany : (run (step tinySb) tiny fileInNowhere).any (fun s =>
      decide ((s.node tinySb 3).type = .file ∧ (s.node tinySb 3).nlink = 1) &&
        (List.range tinySb.ninodes).all fun d => decide ((s.node tinySb d).type ≠ .dir) ||
          (List.range (numEntries (s.node tinySb d).bytes)).all fun k =>
            decide ((entry (s.node tinySb d).bytes k).inum ≠ 3)) = true := by decide +kernel
  obtain ⟨s, hs, hq⟩ := Outcome.exists_of_any hany
  rw [Bool.and_eq_true, decide_eq_true_eq] at hq
  obtain ⟨⟨htype, hnlink⟩, hall⟩ := hq
  have hno : ∀ d k, (s.node tinySb d).type = .dir → k < numEntries (s.node tinySb d).bytes →
      (entry (s.node tinySb d).bytes k).inum ≠ 3 := by
    intro d k hd hk
    have halloc : Alloc tinySb s.dinode d := node_type_ne_free.1 (by rw [hd]; decide)
    have hrow := List.all_eq_true.1 hall d (List.mem_range.2 halloc.2.1)
    rw [Bool.or_eq_true, decide_eq_true_eq] at hrow
    have := List.all_eq_true.1 (hrow.resolve_left fun h => h hd) k (List.mem_range.2 hk)
    exact of_decide_eq_true this
  refine ⟨s, hs, htype, hnlink, ?_⟩
  have hnames : s.namesOf tinySb 3 = ∅ := by
    refine Set.eq_empty_of_forall_notMem ?_
    rintro ⟨d, k⟩ ⟨hd, hk, hinum, -⟩
    exact hno d k hd hk hinum
  have hchildren : s.childrenOf tinySb 3 = ∅ := by
    refine Set.eq_empty_of_forall_notMem ?_
    rintro d ⟨hd, -, k, hk, hinum, -⟩
    exact hno d k hd hk hinum
  rw [hnames, hchildren, Set.ncard_empty, Set.ncard_empty]

/-- From an image with a name space in order, every entry in use holds an allocated inode. -/
theorem entries_allocated (h : Consistent sb dinode bitmap data)
    (ho : (names ((boot dinode bitmap data).node sb)).Ordered) (es : List Event) :
    (∀ s, run (restrict (careful sb) (step sb)) (boot dinode bitmap data) es = .next s → ∀ d k,
      (s.node sb d).type = .dir → k < numEntries (s.node sb d).bytes →
      (entry (s.node sb d).bytes k).inum ≠ 0 →
        (s.node sb (entry (s.node sb d).bytes k).inum).type ≠ .free) ∧
    run (restrict (careful sb) (step sb)) (boot dinode bitmap data) es ≠
      .panic (.panic .ilockNoType) := by
  have hstart : InOrder sb (boot dinode bitmap data) := ⟨h.sound, ho⟩
  refine ⟨fun s hs d k hd hk h0 => ?_, fun hx => ?_⟩
  · exact (hstart.of_run es hs).ordered.alloc d k _ _ (names_ent_some.2 ⟨hd, hk, h0, rfl, rfl⟩)
  · simpa [TablePanic, LogPanic] using hstart.panic_of_run es hx

theorem entries_allocated_tinyRun :
    ∃ s, run (restrict (careful tinySb) (step tinySb)) tiny tinyRun = .next s ∧
      ∀ d k, (s.node tinySb d).type = .dir → k < numEntries (s.node tinySb d).bytes →
        (entry (s.node tinySb d).bytes k).inum ≠ 0 →
          (s.node tinySb (entry (s.node tinySb d).bytes k).inum).type ≠ .free := by
  obtain ⟨s, hs⟩ := tinyRun_careful
  exact ⟨s, hs, (entries_allocated tiny_consistent tiny_ordered tinyRun).1 s hs⟩

/-- The first process makes `/a` and `/a/b`, goes into the second, removes both, and opens `../x`. -/
def throughLostParent : List Event :=
  [initCall [slash, 97] (.mkdir 0), initCall [slash, 97, slash, 98] (.mkdir 0),
    initCall [slash, 97, slash, 98] (.chdir 0), initCall [period, period, slash, 98] (.unlink 0),
    initCall [slash, 97] (.unlink 0), initCall [period, period, slash, 120] (.open 0 0)]

/-- The entry ".." of the current directory holds an inode that is free by then. -/
theorem lost_parent_panics :
    run (step tinySb) tiny throughLostParent = .panic (.panic .ilockNoType) :=
  Outcome.eq_panic_of_reason (by decide +kernel)

end Xv6.Fs
