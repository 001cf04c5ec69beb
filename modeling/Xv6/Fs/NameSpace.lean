import Mathlib.Data.Set.Card
import Xv6.Fs.Sysfile

set_option autoImplicit false

/-! # Name spaces

A name space without bytes: what there is under each inode number, how many links it has, and the
entries of the directories by their position. It is in order (`Ordered`) if the links are counted
right, no entry points to a free inode, and everything with a link can be reached from the root. The
changes that the system calls make keep this order, as long as no directory without a name is in use
when they are made. -/

namespace Xv6.Fs

open Function

@[ext] structure NameSpace where
  type : Nat → FileType
  nlink : Nat → Int
  /-- The name and the inode of an entry of a directory. -/
  ent : Nat → Nat → Option (List UInt8 × Nat)

namespace NameSpace

variable {g : NameSpace} {d k i j : Nat} {name : List UInt8}

/-! ## Order -/

/-- The entries that hold an inode, apart from the first two, which are "." and "..". -/
def links (g : NameSpace) (i : Nat) : Set (Nat × Nat) :=
  { x | 2 ≤ x.2 ∧ ∃ name, g.ent x.1 x.2 = some (name, i) }

/-- The directories with a name whose ".." is the inode. -/
def ups (g : NameSpace) (i : Nat) : Set Nat :=
  { d | g.type d = .dir ∧ 1 ≤ g.nlink d ∧ g.ent d 1 = some (dotdot, i) }

/-- What can be reached by names. -/
inductive Reach (g : NameSpace) : Nat → Prop
  | root : Reach g ROOTINO
  | entry {d k i : Nat} {name : List UInt8} (h : Reach g d) (hk : 2 ≤ k)
      (hent : g.ent d k = some (name, i)) : Reach g i

/-- The two entries that every directory has, and different names. -/
structure Formed (g : NameSpace) : Prop where
  dir : ∀ d k, g.ent d k ≠ none → g.type d = .dir
  self : ∀ d, g.type d = .dir → g.ent d 0 = some (dot, d)
  up : ∀ d, g.type d = .dir → ∃ t, g.ent d 1 = some (dotdot, t)
  distinct : ∀ d k k' name i i', g.ent d k = some (name, i) → g.ent d k' = some (name, i') → k = k'

structure Ordered (g : NameSpace) : Prop extends Formed g where
  finite : { x : Nat × Nat | g.ent x.1 x.2 ≠ none }.Finite
  alloc : ∀ d k name i, g.ent d k = some (name, i) → g.type i ≠ .free
  count : ∀ i, g.type i ≠ .free → g.nlink i = (g.links i).ncard + (g.ups i).ncard
  /-- A directory has at most one name, and its ".." is where that is. -/
  one : ∀ i, g.type i = .dir → (g.links i).Subsingleton
  parent : ∀ i d k, g.type i = .dir → (d, k) ∈ g.links i → g.ent i 1 = some (dotdot, d)
  root_dir : g.type ROOTINO = .dir
  root_up : g.ent ROOTINO 1 = some (dotdot, ROOTINO)
  root_links : g.links ROOTINO = ∅
  root_nlink : 1 ≤ g.nlink ROOTINO
  reach : ∀ i, g.type i ≠ .free → g.nlink i ≠ 0 → g.Reach i
  /-- A directory without a name is empty, and was in one that has a name. -/
  bare : ∀ d, g.type d = .dir → g.nlink d = 0 → (∀ k, 2 ≤ k → g.ent d k = none) ∧
    ∀ t, g.ent d 1 = some (dotdot, t) → g.nlink t ≠ 0

theorem mem_links : (d, k) ∈ g.links i ↔ 2 ≤ k ∧ ∃ name, g.ent d k = some (name, i) := Iff.rfl

theorem mem_ups : d ∈ g.ups i ↔ g.type d = .dir ∧ 1 ≤ g.nlink d ∧ g.ent d 1 = some (dotdot, i) :=
  Iff.rfl

theorem dot_ne_dotdot : dot ≠ dotdot := by decide

namespace Formed

/-- An entry has another name than "." and ".." exactly when it is not one of the first two. -/
theorem two_le_iff (h : g.Formed) (hent : g.ent d k = some (name, i)) :
    2 ≤ k ↔ name ≠ dot ∧ name ≠ dotdot := by
  have hdir := h.dir d k (by rw [hent]; exact Option.some_ne_none _)
  have h0 := h.self d hdir
  obtain ⟨t, h1⟩ := h.up d hdir
  constructor
  · grind [h.distinct]
  · rintro ⟨hdot, hdotdot⟩
    by_contra hk
    rcases (by omega : k = 0 ∨ k = 1) with rfl | rfl <;> grind

end Formed

namespace Ordered

theorem finite_links (h : g.Ordered) (i : Nat) : (g.links i).Finite :=
  h.finite.subset fun x hx => by
    obtain ⟨-, name, hent⟩ := hx
    show g.ent x.1 x.2 ≠ none
    rw [hent]
    exact Option.some_ne_none _

theorem finite_ups (h : g.Ordered) (i : Nat) : (g.ups i).Finite := by
  refine (h.finite.image Prod.fst).subset fun d hd => ⟨(d, 1), ?_, rfl⟩
  show g.ent d 1 ≠ none
  rw [hd.2.2]
  exact Option.some_ne_none _

theorem nlink_nonneg (h : g.Ordered) (hi : g.type i ≠ .free) : 0 ≤ g.nlink i := by
  rw [h.count i hi]
  omega

/-- What has no links is in no entry and is the parent of no directory with a name. -/
theorem links_eq_empty (h : g.Ordered) (hi : g.type i ≠ .free) (hn : g.nlink i = 0) :
    g.links i = ∅ ∧ g.ups i = ∅ := by
  have hcount := h.count i hi
  constructor
  · rw [← Set.ncard_eq_zero (h.finite_links i)]
    omega
  · rw [← Set.ncard_eq_zero (h.finite_ups i)]
    omega

/-- A directory with a name has it in its parent, but for the root. -/
theorem exists_link (h : g.Ordered) (hi : g.type i ≠ .free) (hn : g.nlink i ≠ 0) (hr : i ≠ ROOTINO) :
    ∃ d k, (d, k) ∈ g.links i := by
  cases h.reach i hi hn with
  | root => exact absurd rfl hr
  | entry _ hk hent => exact ⟨_, _, hk, _, hent⟩

end Ordered

/-! ## Setting an entry -/

/-- The entry `k` of `d` is changed. -/
@[simps] def setEnt (g : NameSpace) (d k : Nat) (e : Option (List UInt8 × Nat)) : NameSpace :=
  { g with ent := fun d' k' => if d' = d ∧ k' = k then e else g.ent d' k' }

@[simps] def addLink (g : NameSpace) (i : Nat) (δ : Int) : NameSpace :=
  { g with nlink := update g.nlink i (g.nlink i + δ) }

variable {e : Option (List UInt8 × Nat)} {δ : Int}

@[grind =] theorem nlink_addLink :
    (g.addLink i δ).nlink j = if j = i then g.nlink i + δ else g.nlink j := by
  rw [addLink_nlink, update_apply]

attribute [grind =] setEnt_ent setEnt_type setEnt_nlink addLink_ent addLink_type mem_links mem_ups

theorem links_addLink : (g.addLink j δ).links i = g.links i := rfl

theorem setEnt_ent_of_ne {d' k' : Nat} (h : (d', k') ≠ (d, k)) :
    (g.setEnt d k e).ent d' k' = g.ent d' k' := by
  grind

theorem setEnt_ent_self : (g.setEnt d k e).ent d k = e := by
  grind

/-- A free place is not one of the first two. -/
theorem Formed.two_le_of_none (h : g.Formed) (hd : g.type d = .dir) (hnone : g.ent d k = none) :
    2 ≤ k := by
  have h0 := h.self d hd
  obtain ⟨t, h1⟩ := h.up d hd
  by_contra hk
  rcases (by omega : k = 0 ∨ k = 1) with rfl | rfl <;> grind

theorem ups_setEnt (hk : 2 ≤ k) : (g.setEnt d k e).ups i = g.ups i := by
  ext d'
  grind

theorem Formed.enter (h : g.Formed) (hd : g.type d = .dir) (hnone : g.ent d k = none)
    (habsent : ∀ k' i', g.ent d k' ≠ some (name, i')) : (g.setEnt d k (some (name, i))).Formed := by
  have hk := h.two_le_of_none hd hnone
  obtain ⟨hdir, hself, hup, hdistinct⟩ := h
  refine ⟨?_, ?_, ?_, ?_⟩ <;> grind

theorem Formed.remove (h : g.Formed) (hk : 2 ≤ k) : (g.setEnt d k none).Formed := by
  obtain ⟨hdir, hself, hup, hdistinct⟩ := h
  refine ⟨?_, ?_, ?_, ?_⟩ <;> grind

theorem Formed.addLink (h : g.Formed) : (g.addLink i δ).Formed := ⟨h.dir, h.self, h.up, h.distinct⟩

theorem links_enter (hk : 2 ≤ k) (hnone : g.ent d k = none) :
    (g.setEnt d k (some (name, i))).links j = if j = i then insert (d, k) (g.links i) else g.links j := by
  ext ⟨d', k'⟩
  grind

theorem links_remove : (g.setEnt d k none).links j = g.links j \ {(d, k)} := by
  ext ⟨d', k'⟩
  grind

theorem Reach.mono {g' : NameSpace} (h : g.Reach i)
    (hent : ∀ d k name i, 2 ≤ k → g.ent d k = some (name, i) → g'.ent d k = some (name, i)) :
    g'.Reach i := by
  induction h with
  | root => exact .root
  | entry _ hk he ih => exact ih.entry hk (hent _ _ _ _ hk he)

theorem finite_setEnt (h : { x : Nat × Nat | g.ent x.1 x.2 ≠ none }.Finite) :
    { x : Nat × Nat | (g.setEnt d k e).ent x.1 x.2 ≠ none }.Finite := by
  refine (h.insert (d, k)).subset fun x hx => ?_
  by_cases he : x = (d, k)
  · exact Or.inl he
  · rw [Set.mem_ofPred_eq, setEnt_ent_of_ne he] at hx
    exact Or.inr hx

/-- The count of what is not a directory does not matter to the others. -/
theorem ups_addLink (hj : g.type j ≠ .dir) : (g.addLink j δ).ups i = g.ups i := by
  ext d
  grind

/-! ## A new name -/

/-- All directories that are in use have a name. -/
def Linked (g : NameSpace) : Prop := ∀ d, g.type d = .dir → g.nlink d ≠ 0

theorem Ordered.reach_dir (h : g.Ordered) (hlinked : g.Linked) (hd : g.type d = .dir) : g.Reach d :=
  h.reach d (by rw [hd]; decide) (hlinked d hd)

/-- What was reached is reached with one name more. -/
theorem Reach.enter (h : g.Reach j) (hnone : g.ent d k = none) :
    (g.setEnt d k (some (name, i))).Reach j :=
  h.mono fun d' k' name' j' _ he => by grind

theorem Reach.addLink (h : g.Reach j) : (g.addLink i δ).Reach j :=
  h.mono fun _ _ _ _ _ he => he

theorem Ordered.link (h : g.Ordered) (hlinked : g.Linked) (hd : g.type d = .dir)
    (hnone : g.ent d k = none) (habsent : ∀ k' i', g.ent d k' ≠ some (name, i'))
    (hi : g.type i ≠ .free) (hnd : g.type i ≠ .dir) :
    ((g.addLink i 1).setEnt d k (some (name, i))).Ordered := by
  have hk := h.two_le_of_none hd hnone
  have hlinks : ∀ j, ((g.addLink i 1).setEnt d k (some (name, i))).links j =
      if j = i then insert (d, k) (g.links i) else g.links j := fun j => links_enter hk hnone
  have hups : ∀ j, ((g.addLink i 1).setEnt d k (some (name, i))).ups j = g.ups j := fun j => by
    rw [ups_setEnt hk, ups_addLink hnd]
  have hnew : (d, k) ∉ g.links i := by grind
  refine ⟨h.toFormed.addLink.enter hd hnone habsent, finite_setEnt h.finite, ?_, fun j hj => ?_,
    fun j hj => ?_, fun j d' k' hj hm => ?_, h.root_dir, ?_, ?_, ?_, fun j hj hn => ?_,
    fun j hj hn => ?_⟩
  · grind [h.alloc]
  · have hcount := h.count j hj
    have hinsert := Set.ncard_insert_of_notMem hnew (h.finite_links i)
    rw [hlinks, hups]
    grind
  · rw [hlinks]
    grind [h.one]
  · grind [h.parent]
  · grind [h.root_up]
  · rw [hlinks]
    grind [h.root_links, h.root_dir]
  · grind [h.root_nlink, h.root_dir]
  · by_cases hji : j = i
    · subst hji
      exact ((h.reach_dir hlinked hd).addLink.enter hnone).entry hk setEnt_ent_self
    · exact (h.reach j hj (by grind)).addLink.enter hnone
  · exact absurd hn (by grind [Linked])

/-! ## A name is removed -/

/-- What is reached without the entry. -/
theorem Reach.remove (hent : g.ent d k = some (name, i)) (hleaf : ∀ k', 2 ≤ k' → g.ent i k' = none)
    (h : g.Reach j) (hj : j ≠ i) : (g.setEnt d k none).Reach j := by
  induction h with
  | root => exact .root
  | @entry d' k' j name' _ hk he ih =>
    have he' : (g.setEnt d k none).ent d' k' = some (name', j) := by grind
    exact (ih (by grind)).entry hk he'

theorem Ordered.ups_dir (h : g.Ordered) (hd : d ∈ g.ups i) : g.type i = .dir := by
  obtain ⟨hdir, hn, hup⟩ := hd
  by_cases hr : d = ROOTINO
  · grind [h.root_up, h.root_dir]
  · obtain ⟨t, k, ht⟩ := h.exists_link (by rw [hdir]; decide) (by omega) hr
    grind [h.parent d t k hdir ht, h.dir]

/-- The entries that are left when one is removed. -/
theorem links_remove_of_ne (hent : g.ent d k = some (name, i)) (hj : j ≠ i) :
    (g.setEnt d k none).links j = g.links j := by
  ext ⟨d', k'⟩
  grind

theorem Ordered.ncard_remove (h : g.Ordered) (hk : 2 ≤ k) (hent : g.ent d k = some (name, i)) :
    ((g.setEnt d k none).links i).ncard + 1 = (g.links i).ncard := by
  rw [links_remove]
  exact Set.ncard_sdiff_singleton_add_one ⟨hk, name, hent⟩ (h.finite_links i)

theorem links_remove_subset : (g.setEnt d k none).links j ⊆ g.links j := by
  rw [links_remove]
  exact Set.sdiff_subset

theorem Ordered.unlinkFile (h : g.Ordered) (hlinked : g.Linked) (hk : 2 ≤ k)
    (hent : g.ent d k = some (name, i)) (hnd : g.type i ≠ .dir) :
    ((g.setEnt d k none).addLink i (-1)).Ordered := by
  have hi := h.alloc d k name i hent
  have hleaf : ∀ k', 2 ≤ k' → g.ent i k' = none := by grind [h.dir]
  have hups : ∀ j, ((g.setEnt d k none).addLink i (-1)).ups j = g.ups j := fun j => by
    rw [ups_addLink (g := g.setEnt d k none) hnd, ups_setEnt hk]
  have hnone : g.ups i = ∅ := Set.eq_empty_of_forall_notMem fun d hd => hnd (h.ups_dir hd)
  have hcount := h.count i hi
  have hless := h.ncard_remove hk hent
  rw [hnone, Set.ncard_empty] at hcount
  refine ⟨(h.toFormed.remove hk).addLink, finite_setEnt h.finite, ?_, fun j hj => ?_,
    fun j hj => (h.one j hj).anti links_remove_subset, fun j d' k' hj hm => ?_, h.root_dir, ?_, ?_, ?_,
    fun j hj hn => ?_, fun j hj hn => ?_⟩
  · grind [h.alloc]
  · rw [hups, links_addLink, nlink_addLink]
    by_cases hji : j = i
    · subst hji
      rw [if_pos rfl, hnone, Set.ncard_empty, setEnt_nlink]
      omega
    · rw [if_neg hji, links_remove_of_ne hent hji]
      exact h.count j hj
  · have := h.parent j d' k' hj (links_remove_subset hm)
    grind
  · grind [h.root_up]
  · exact Set.subset_empty_iff.1 (h.root_links ▸ links_remove_subset)
  · grind [h.root_nlink, h.root_dir]
  · by_cases hji : j = i
    · -- another name is left, in a directory that is still reached
      subst hji
      obtain ⟨⟨d', k'⟩, hk', name', he⟩ : ((g.setEnt d k none).links j).Nonempty :=
        Set.nonempty_of_ncard_ne_zero (by grind)
      have hd' : g.type d' = .dir := by grind [h.dir]
      exact (((h.reach_dir hlinked hd').remove hent hleaf (by grind)).entry hk' he).addLink
    · exact ((h.reach j hj (by grind)).remove hent hleaf hji).addLink
  · exact absurd hn (by grind [Linked])

/-- An empty directory is no other's parent. -/
theorem Ordered.ups_of_empty (h : g.Ordered) (hr : i ≠ ROOTINO) (hleaf : ∀ k, 2 ≤ k → g.ent i k = none) :
    g.ups i = ∅ := by
  refine Set.eq_empty_of_forall_notMem fun j hj => ?_
  obtain ⟨hdir, hn, hup⟩ := hj
  have hjr : j ≠ ROOTINO := by grind [h.root_up]
  obtain ⟨t, k, ht⟩ := h.exists_link (by rw [hdir]; decide) (by omega) hjr
  grind [h.parent j t k hdir ht]

/-- A directory with a directory in it has two links. -/
theorem Ordered.two_le_nlink (h : g.Ordered) (hlinked : g.Linked) (hd : g.type d = .dir)
    (hi : i ∈ g.ups d) (hr : i ≠ ROOTINO) : 2 ≤ g.nlink d := by
  have hsub := Set.ncard_sdiff_singleton_add_one hi (h.finite_ups d)
  have hcount := h.count d (by rw [hd]; decide)
  by_cases hdr : d = ROOTINO
  · subst hdr
    have hmem : ROOTINO ∈ g.ups ROOTINO \ {i} :=
      ⟨⟨h.root_dir, h.root_nlink, h.root_up⟩, fun he => hr he.symm⟩
    have hpos := (Set.ncard_pos ((h.finite_ups _).subset Set.sdiff_subset)).2 ⟨_, hmem⟩
    omega
  · obtain ⟨t, k, ht⟩ := h.exists_link (by rw [hd]; decide) (hlinked d hd) hdr
    have hpos := (Set.ncard_pos (h.finite_links d)).2 ⟨_, ht⟩
    omega

section UnlinkDir

variable (h : g.Ordered) (hlinked : g.Linked) (hk : 2 ≤ k) (hent : g.ent d k = some (name, i))
  (hid : i ≠ d) (hi : g.type i = .dir) (hleaf : ∀ k', 2 ≤ k' → g.ent i k' = none)

include h hlinked hk hent hid hi hleaf

theorem Ordered.unlinkDir_links : i ≠ ROOTINO ∧ g.ent i 1 = some (dotdot, d) ∧ g.nlink i = 1 ∧
    i ∈ g.ups d ∧ 2 ≤ g.nlink d := by
  have hmem : (d, k) ∈ g.links i := ⟨hk, name, hent⟩
  have hr : i ≠ ROOTINO := by
    rintro rfl
    rw [h.root_links] at hmem
    exact hmem
  have hpar := h.parent i d k hi hmem
  have hone : g.links i = {(d, k)} := (h.one i hi).eq_singleton_of_mem hmem
  have hn : g.nlink i = 1 := by
    rw [h.count i (by rw [hi]; decide), hone, h.ups_of_empty hr hleaf, Set.ncard_singleton,
      Set.ncard_empty]
    rfl
  have hup : i ∈ g.ups d := ⟨hi, by omega, hpar⟩
  have hd : g.type d = .dir := by grind [h.dir]
  exact ⟨hr, hpar, hn, hup, h.two_le_nlink hlinked hd hup hr⟩

theorem Ordered.unlinkDir : (((g.setEnt d k none).addLink d (-1)).addLink i (-1)).Ordered := by
  obtain ⟨hr, hpar, hn, hup, htwo⟩ := h.unlinkDir_links hlinked hk hent hid hi hleaf
  have hups : ∀ j, (((g.setEnt d k none).addLink d (-1)).addLink i (-1)).ups j =
      if j = d then g.ups d \ {i} else g.ups j := by
    intro j
    ext d'
    grind
  refine ⟨(h.toFormed.remove hk).addLink.addLink, finite_setEnt h.finite, ?_, fun j hj => ?_,
    fun j hj => (h.one j hj).anti links_remove_subset, fun j d' k' hj hm => ?_, h.root_dir, ?_,
    Set.subset_empty_iff.1 (h.root_links ▸ links_remove_subset), ?_, fun j hj hnj => ?_,
    fun j hj hnj => ?_⟩
  · grind [h.alloc]
  · have hcount := h.count j hj
    have hless := h.ncard_remove hk hent
    have hsub := Set.ncard_sdiff_singleton_add_one hup (h.finite_ups d)
    rw [hups, links_addLink, links_addLink]
    by_cases hji : j = i
    · grind
    · rw [links_remove_of_ne hent hji]
      grind
  · have := h.parent j d' k' hj (links_remove_subset hm)
    grind
  · grind [h.root_up]
  · grind [h.root_nlink]
  · exact ((h.reach j hj (by grind)).remove hent hleaf (by grind)).addLink.addLink
  · grind [Linked]

end UnlinkDir

/-! ## Something new -/

/-- The entries of a directory without files in the directory `d`. -/
def emptyDir (i d k : Nat) : Option (List UInt8 × Nat) :=
  if k = 0 then some (dot, i) else if k = 1 then some (dotdot, d) else none

/-- An inode is given a type, and is in use without a name; if it is a directory, it is in `d`. -/
def fresh (g : NameSpace) (i d : Nat) (T : FileType) : NameSpace where
  type := update g.type i T
  nlink := update g.nlink i 0
  ent d' k := if T = .dir ∧ d' = i then emptyDir i d k else g.ent d' k

theorem emptyDir_of_two_le (hk : 2 ≤ k) : emptyDir i d k = none := by
  grind [emptyDir]

section Fresh

variable {T : FileType}

@[grind =] theorem fresh_ent {d' : Nat} :
    (g.fresh i d T).ent d' k = if T = .dir ∧ d' = i then emptyDir i d k else g.ent d' k := rfl

@[grind =] theorem fresh_type : (g.fresh i d T).type j = if j = i then T else g.type j :=
  update_apply ..

@[grind =] theorem fresh_nlink : (g.fresh i d T).nlink j = if j = i then 0 else g.nlink j :=
  update_apply ..

theorem Formed.ent_free (h : g.Formed) (hi : g.type i = .free) : g.ent i k = none := by
  grind [h.dir]

theorem Formed.fresh (h : g.Formed) (hi : g.type i = .free) (d : Nat) (T : FileType) :
    (g.fresh i d T).Formed := by
  have hfree : ∀ k, g.ent i k = none := fun k => h.ent_free hi
  obtain ⟨hdir, hself, hup, hdistinct⟩ := h
  refine ⟨?_, ?_, fun d' hd' => ?_, ?_⟩
  · grind
  · grind [emptyDir]
  · by_cases hdi : d' = i
    · exact ⟨d, by grind [emptyDir]⟩
    · obtain ⟨t, ht⟩ := hup d' (by grind)
      exact ⟨t, by grind⟩
  · grind [emptyDir, dot_ne_dotdot]

theorem Ordered.fresh (h : g.Ordered) (hi : g.type i = .free) (hT : T ≠ .free)
    (hd : g.type d = .dir) (hnd : g.nlink d ≠ 0) : (g.fresh i d T).Ordered := by
  have hfree : ∀ k, g.ent i k = none := fun k => h.ent_free hi
  have hroot := h.root_dir
  have hne : ∀ {d' k' name' j}, g.ent d' k' = some (name', j) → j ≠ i := by
    rintro d' k' name' j he rfl
    exact h.alloc d' k' name' j he hi
  have hlinks : ∀ j, (g.fresh i d T).links j = g.links j := by
    intro j
    ext ⟨d', k'⟩
    grind [emptyDir]
  have hups : ∀ j, (g.fresh i d T).ups j = g.ups j := by
    intro j
    ext d'
    grind
  have hnolinks : g.links i = ∅ := by
    ext ⟨d', k'⟩
    grind
  have hnoups : g.ups i = ∅ := by
    ext d'
    grind
  refine ⟨h.toFormed.fresh hi d T, ?_, fun d' k' name' j he => ?_, fun j hj => ?_, fun j hj => ?_,
    fun j d' k' hj hm => ?_, ?_, ?_, ?_, ?_, fun j hj hn => ?_, fun j hj hn => ?_⟩
  · refine (h.finite.union (Set.toFinite {(i, 0), (i, 1)})).subset fun x hx => ?_
    rw [Set.mem_ofPred_eq, fresh_ent] at hx
    rw [Set.mem_union, Set.mem_ofPred_eq, Set.mem_insert_iff, Set.mem_singleton_iff]
    grind [emptyDir]
  · have hnew : (g.fresh i d T).type i ≠ .free := by rwa [fresh_type, if_pos rfl]
    grind [emptyDir, h.alloc]
  · rw [hlinks, hups]
    by_cases hji : j = i
    · rw [hji, fresh_nlink, if_pos rfl, hnolinks, hnoups, Set.ncard_empty, Set.ncard_empty]
      rfl
    · grind [h.count]
  · rw [hlinks]
    by_cases hji : j = i
    · rw [hji, hnolinks]
      exact Set.subsingleton_empty
    · exact h.one j (by grind)
  · grind [h.parent]
  · grind
  · grind [h.root_up]
  · rw [hlinks]
    exact h.root_links
  · grind [h.root_nlink]
  · exact (h.reach j (by grind) (by grind)).mono (by grind)
  · have hbare := h.bare j
    grind [emptyDir]

end Fresh

/-- A new directory gets its name. -/
theorem Ordered.linkDir (h : g.Ordered) (hd : g.type d = .dir) (hnone : g.ent d k = none)
    (habsent : ∀ k' i', g.ent d k' ≠ some (name, i')) (hi : g.type i = .dir) (hid : i ≠ d)
    (hn : g.nlink i = 0) (hup : g.ent i 1 = some (dotdot, d))
    (hlinked : ∀ j, g.type j = .dir → j ≠ i → g.nlink j ≠ 0) :
    (((g.addLink i 1).setEnt d k (some (name, i))).addLink d 1).Ordered := by
  have hk := h.two_le_of_none hd hnone
  have hpos : 1 ≤ g.nlink d := by
    have := h.nlink_nonneg (i := d) (by rw [hd]; decide)
    have := hlinked d hd hid.symm
    omega
  obtain ⟨hnolinks, -⟩ := h.links_eq_empty (by rw [hi]; decide) hn
  have hlinks : ∀ j, (((g.addLink i 1).setEnt d k (some (name, i))).addLink d 1).links j =
      if j = i then {(d, k)} else g.links j := fun j => by
    rw [links_addLink, links_enter (g := g.addLink i 1) hk hnone, links_addLink, hnolinks,
      insert_empty_eq, links_addLink]
  have hnew : i ∉ g.ups d := by grind
  have hups : ∀ j, (((g.addLink i 1).setEnt d k (some (name, i))).addLink d 1).ups j =
      if j = d then insert i (g.ups d) else g.ups j := by
    intro j
    ext d'
    grind
  refine ⟨(h.toFormed.addLink.enter hd hnone habsent).addLink, finite_setEnt h.finite, ?_,
    fun j hj => ?_, fun j hj => ?_, fun j d' k' hj hm => ?_, h.root_dir, ?_, ?_, ?_,
    fun j hj hnj => ?_, fun j hj hnj => ?_⟩
  · grind [h.alloc]
  · have hcount := h.count j hj
    have hinsert := Set.ncard_insert_of_notMem hnew (h.finite_ups d)
    rw [hlinks, hups]
    by_cases hji : j = i
    · subst hji
      rw [if_pos rfl, if_neg hid, Set.ncard_singleton]
      rw [hnolinks, Set.ncard_empty] at hcount
      grind
    · grind
  · rw [hlinks]
    split
    · exact Set.subsingleton_singleton
    · exact h.one j hj
  · rw [hlinks] at hm
    grind [h.parent]
  · grind [h.root_up]
  · rw [hlinks]
    grind [h.root_links, h.root_nlink]
  · grind [h.root_nlink]
  · by_cases hji : j = i
    · subst hji
      have hreach := h.reach d (by rw [hd]; decide) (by omega)
      exact ((hreach.addLink.enter hnone).entry hk setEnt_ent_self).addLink
    · exact ((h.reach j hj (by grind)).addLink.enter hnone).addLink
  · grind

/-! ## What has no link is freed -/

/-- `g'` is `g`, but for inodes without links that have been freed. -/
structure Freed (g g' : NameSpace) : Prop where
  type : ∀ i, g'.type i = g.type i ∨ g'.type i = .free ∧ (g.type i = .free ∨ g.nlink i = 0)
  nlink : ∀ i, g'.type i ≠ .free → g'.nlink i = g.nlink i
  ent : ∀ d k, g'.ent d k = if g'.type d = .dir then g.ent d k else none

namespace Freed

variable {g' : NameSpace} (hf : g.Freed g')

include hf

theorem type_eq (hi : g'.type i ≠ .free) : g'.type i = g.type i :=
  (hf.type i).resolve_right fun h => hi h.1

theorem type_of_nlink (hi : g.type i ≠ .free) (hn : g.nlink i ≠ 0) : g'.type i = g.type i :=
  (hf.type i).resolve_right fun h => h.2.elim hi hn

theorem dir (hd : g'.type d = .dir) : g.type d = .dir := by
  rw [← hf.type_eq (by rw [hd]; decide), hd]

theorem ent_some {x : List UInt8 × Nat} (hx : g'.ent d k = some x) :
    g'.type d = .dir ∧ g.ent d k = some x := by
  rw [hf.ent] at hx
  split at hx
  · exact ⟨‹_›, hx⟩
  · cases hx

theorem formed (h : g.Formed) : g'.Formed := by
  have hdir := fun d => hf.dir (d := d)
  have hent := hf.ent
  obtain ⟨-, hself, hup, hdistinct⟩ := h
  refine ⟨?_, ?_, ?_, ?_⟩ <;> grind

theorem ent_of_two_le (h : g.Ordered) (hk : 2 ≤ k) : g'.ent d k = g.ent d k := by
  rw [hf.ent]
  by_contra hne
  have hdir := h.dir d k (by grind)
  have hbare := h.bare d hdir
  rcases hf.type d with ht | ⟨-, ht | ht⟩ <;> grind

theorem links (h : g.Ordered) : g'.links i = g.links i := by
  ext ⟨d, k⟩
  exact and_congr_right fun hk => by rw [hf.ent_of_two_le h hk]

theorem ups : g'.ups i = g.ups i := by
  ext d
  constructor
  · rintro ⟨hd, hn, hup⟩
    rw [hf.nlink d (by rw [hd]; decide)] at hn
    exact ⟨hf.dir hd, hn, (hf.ent_some hup).2⟩
  · rintro ⟨hd, hn, hup⟩
    have hd' := hf.type_of_nlink (i := d) (by rw [hd]; decide) (by omega)
    rw [hd] at hd'
    exact ⟨hd', by rwa [hf.nlink d (by rw [hd']; decide)], by rw [hf.ent, if_pos hd', hup]⟩

/-- Nothing that an entry holds is freed. -/
theorem alloc (h : g.Ordered) (he : g'.ent d k = some (name, i)) : g'.type i ≠ .free := by
  obtain ⟨hd, he⟩ := hf.ent_some he
  have hi := h.alloc d k name i he
  rcases hf.type i with ht | ⟨-, ht | hn⟩
  · rwa [ht]
  · exact absurd ht hi
  · obtain ⟨hnolinks, hnoups⟩ := h.links_eq_empty hi hn
    have hlink : (d, k) ∉ g.links i := hnolinks ▸ Set.notMem_empty _
    have hup : d ∉ g.ups i := hnoups ▸ Set.notMem_empty _
    have hdir := hf.dir hd
    have h0 := h.self d hdir
    have hbare := h.bare d hdir
    have hpos := h.nlink_nonneg (i := d) (by rw [hdir]; decide)
    obtain ⟨t, h1⟩ := h.up d hdir
    rcases (by omega : k = 0 ∨ k = 1 ∨ 2 ≤ k) with rfl | rfl | hk <;> grind

theorem ordered (h : g.Ordered) : g'.Ordered := by
  have hroot : g'.type ROOTINO = .dir := by
    rw [hf.type_of_nlink (by rw [h.root_dir]; decide) (by have := h.root_nlink; omega), h.root_dir]
  refine ⟨hf.formed h.toFormed, h.finite.subset fun x hx => ?_, fun d k name i he => hf.alloc h he,
    fun i hi => ?_, fun i hi => ?_, fun i d k hi hm => ?_, hroot, ?_, ?_, ?_, fun i hi hn => ?_,
    fun d hd hn => ?_⟩
  · obtain ⟨y, hy⟩ := Option.ne_none_iff_exists'.1 hx
    show g.ent x.1 x.2 ≠ none
    rw [(hf.ent_some hy).2]
    exact Option.some_ne_none _
  · rw [hf.links h, hf.ups, hf.nlink i hi]
    exact h.count i (hf.type_eq hi ▸ hi)
  · rw [hf.links h]
    exact h.one i (hf.dir hi)
  · rw [hf.links h] at hm
    rw [hf.ent, if_pos hi]
    exact h.parent i d k (hf.dir hi) hm
  · rw [hf.ent, if_pos hroot]
    exact h.root_up
  · rw [hf.links h]
    exact h.root_links
  · rw [hf.nlink _ (by rw [hroot]; decide)]
    exact h.root_nlink
  · rw [hf.nlink i hi] at hn
    refine (h.reach i (hf.type_eq hi ▸ hi) hn).mono fun d k name j hk he => ?_
    rw [hf.ent_of_two_le h hk, he]
  · rw [hf.nlink d (by rw [hd]; decide)] at hn
    obtain ⟨hbare, hup⟩ := h.bare d (hf.dir hd) hn
    refine ⟨fun k hk => (hf.ent_of_two_le h hk).trans (hbare k hk), fun t ht => ?_⟩
    have hfree := hf.alloc h ht
    rw [hf.nlink t hfree]
    exact hup t (hf.ent_some ht).2

end Freed

/-! ## The root alone -/

/-- The root directory, with nothing in it. -/
def lone : NameSpace where
  type i := if i = ROOTINO then .dir else .free
  nlink i := if i = ROOTINO then 1 else 0
  ent d k := if d = ROOTINO then emptyDir ROOTINO ROOTINO k else none

@[grind →] theorem lone_ent (h : lone.ent d k = some (name, j)) :
    d = ROOTINO ∧ j = ROOTINO ∧ (k = 0 ∧ name = dot ∨ k = 1 ∧ name = dotdot) := by
  have h : (if d = ROOTINO then emptyDir ROOTINO ROOTINO k else none) = some (name, j) := h
  grind [emptyDir]

@[grind →] theorem lone_type (h : lone.type i ≠ .free) : i = ROOTINO := by
  by_contra hi
  exact h (if_neg hi)

theorem lone_links : lone.links i = ∅ := by
  ext ⟨d, k⟩
  grind

theorem lone_ordered : lone.Ordered := by
  have hdir : ∀ {d}, lone.type d = .dir → d = ROOTINO := fun h => lone_type (by rw [h]; decide)
  have hups : lone.ups ROOTINO = {ROOTINO} := by
    ext d
    refine ⟨fun h => hdir h.1, fun h => ?_⟩
    cases h
    exact ⟨rfl, Int.le_refl 1, rfl⟩
  refine ⟨⟨fun d k hne => ?_, fun d hd => ?_, fun d hd => ?_, fun d k k' name i i' he he' => ?_⟩, ?_,
    fun d k name i he => ?_, fun i hi => ?_, fun i _ => ?_, fun i d k _ hm => ?_, rfl, rfl, lone_links,
    Int.le_refl 1, fun i hi _ => ?_, fun d hd hn => ?_⟩
  · obtain ⟨x, hx⟩ := Option.ne_none_iff_exists'.1 hne
    rw [(lone_ent hx).1]
    rfl
  · rw [hdir hd]
    rfl
  · rw [hdir hd]
    exact ⟨ROOTINO, rfl⟩
  · grind [dot_ne_dotdot]
  · refine (Set.toFinite {(ROOTINO, 0), (ROOTINO, 1)}).subset fun ⟨d, k⟩ hy => ?_
    obtain ⟨⟨name, i⟩, hx⟩ := Option.ne_none_iff_exists'.1 hy
    grind
  · rw [(lone_ent he).2.1]
    decide
  · rw [lone_type hi, lone_links, hups, Set.ncard_empty, Set.ncard_singleton]
    rfl
  · rw [lone_links]
    exact Set.subsingleton_empty
  · rw [lone_links] at hm
    exact hm.elim
  · rw [lone_type hi]
    exact .root
  · rw [hdir hd] at hn
    cases hn

end NameSpace

end Xv6.Fs
