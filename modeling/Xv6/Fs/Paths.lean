import Xv6.Fs.Entries

set_option autoImplicit false

/-! # Path names

`walk` is what path name look-up means on the nodes: one directory entry for each path element.
`namex` finds the inode that `walk` gives, with a reference to it and no lock, and gives back all
other references it has taken on the way. -/

namespace Xv6.Fs

open Wp

/-- The inode that the entry `name` of a directory names. -/
def lookup (node : Nat → Node) (d : Nat) (name : List UInt8) : Option Nat :=
  (findEntry (node d).bytes name).map fun k => (entry (node d).bytes k).inum

/-- The inode of a path from `i` on, or its parent directory and the last path element. -/
def walk (node : Nat → Node) (parent : Bool) : Nat → List UInt8 → Nat → Option (Nat × List UInt8)
  | 0, _, _ => none
  | rounds + 1, path, i =>
    match skipelem path with
    | none => if parent then none else some (i, [])
    | some (name, path) =>
      if (node i).type ≠ .dir then none
      else if parent = true ∧ path = [] then some (i, name)
      else
        match lookup node i name with
        | none => none
        | some j => walk node parent rounds path j

/-- Where the look-up of a path starts. -/
def View.start (v : View) (p : ProcId) (path : List UInt8) : Option Nat :=
  if path.head? = some slash then some ROOTINO
  else (v.proc p).cwd.map fun ip => (v.slot ip).inum

/-- What a path of a process names. -/
def View.resolve (v : View) (p : ProcId) (path : List UInt8) (parent : Bool) :
    Option (Nat × List UInt8) :=
  (v.start p path).bind (walk v.node parent (path.length + 1) path)

/-- All directories have whole entries of inodes that there are. -/
def Dirs (sb : Superblock) (v : View) : Prop :=
  ∀ i, (v.node i).type = .dir → DirOk sb (v.node i).bytes

/-- Following a directory entry to a free inode may end in `ilock: no type`. -/
def DanglingErr (E : Stop → Prop) (node : Nat → Node) : Prop :=
  ∀ d k, (node d).type = .dir → k < numEntries (node d).bytes → (entry (node d).bytes k).inum ≠ 0 →
    (node (entry (node d).bytes k).inum).type = .free → E (.panic .ilockNoType)

theorem skipelem_length {path name rest : List UInt8} (h : skipelem path = some (name, rest)) :
    rest.length < path.length := by
  unfold skipelem at h
  dsimp only at h
  split at h
  · cases h
  · next hne =>
      obtain ⟨-, rfl⟩ := Prod.mk.inj (Option.some.inj h)
      have hlen := (List.dropWhile_sublist (· = slash) (l := path)).length_le
      obtain ⟨c, cs, hq⟩ := List.exists_cons_of_ne_nil hne
      rw [hq, List.length_cons] at hlen
      -- the first character goes with the slashes or with the element
      have hrest : (((c :: cs).dropWhile (· ≠ slash)).dropWhile (· = slash)).length ≤ cs.length := by
        by_cases hc : c = slash
        · rw [List.dropWhile_cons_of_neg (by simp [hc]), List.dropWhile_cons_of_pos (by simp [hc])]
          exact (List.dropWhile_sublist _).length_le
        · rw [List.dropWhile_cons_of_pos (by simp [hc])]
          exact Nat.le_trans (List.dropWhile_sublist _).length_le (List.dropWhile_sublist _).length_le
      rw [hq]
      omega

theorem walk_parent_dir {node : Nat → Node} {rounds i d : Nat} {path name : List UInt8}
    (h : walk node true rounds path i = some (d, name)) : (node d).type = .dir := by
  induction rounds generalizing path i with
  | zero => cases h
  | succ rounds ih =>
    unfold walk at h
    split at h
    · cases h
    · split at h
      · cases h
      · next htype =>
          split at h
          · obtain ⟨rfl, rfl⟩ := Prod.mk.inj (Option.some.inj h)
            simpa using htype
          · split at h
            · cases h
            · exact ih h

section Namex

variable {sb : Superblock} {E : Stop → Prop} {H O : List Hold} {R : View → State → Prop}
  [Tracks sb R]

theorem Inodes.rwp_namexLoop {parent : Bool} {Q : Option (InodeId × List UInt8) → View → Prop}
    {v : View} (rounds : Nat) {path : List UInt8} {ip : InodeId} {i : Nat}
    (h : Inodes v ((ip, i) :: H) O [] [])
    (hfull : v.spare ≤ H.length + O.length + 1 → E (.panic .igetNoInodes)) (hdirs : Dirs sb v)
    (hdang : DanglingErr E v.node) (hpath : path.length < rounds)
    (hcur : (v.node i).type = .free → E (.panic .ilockNoType))
    (hnone : ∀ v', Inodes v' H O [] [] → SlotsOnly v v' →
      walk v.node parent rounds path i = none → Q none v')
    (hsome : ∀ ip' i' name v', walk v.node parent rounds path i = some (i', name) →
      ((v.node i').type = .free → E (.panic .ilockNoType)) →
      Inodes v' ((ip', i') :: H) O [] [] → SlotsOnly v v' → Q (some (ip', name)) v') :
    rwp R (namexLoop sb parent rounds path ip) Q E v := by
  induction rounds generalizing v path ip i with
  | zero => omega
  | succ rounds ih =>
    unfold namexLoop
    unfold walk at hnone hsome
    cases helem : skipelem path with
    | none =>
      rw [helem] at hnone hsome
      simp only at hnone hsome
      refine rwp_ite (fun hp => ?_) (fun hp => ?_)
      · rw [if_pos hp] at hnone
        exact rwp_bind (h.rwp_iput (by simp) (fun v' h' hs' => rwp_pure (hnone v' h' hs' rfl)))
      · rw [if_neg hp] at hsome
        exact rwp_pure (hsome ip i [] v rfl hcur h (SlotsOnly.refl v))
    | some e =>
      obtain ⟨name, rest⟩ := e
      rw [helem] at hnone hsome
      simp only at hnone hsome ⊢
      have hm : (ip, i) ∈ (ip, i) :: H ∨ (ip, i) ∈ O := Or.inl List.mem_cons_self
      refine rwp_bind (h.rwp_ilock_free (by simp) hm hcur (fun v₁ _ _ h₁ hs₁ => ?_))
      refine rwp_bind (h₁.rwp_getInode List.mem_cons_self hm (fun x _ hx => ?_))
      have htype := hx.type
      rw [hs₁.node] at htype
      refine rwp_ite (fun hne => ?_) (fun hdir => ?_)
      · rw [htype] at hne
        rw [if_pos hne] at hnone
        exact rwp_bind (h₁.rwp_iunlockput (by simp) (fun v₂ h₂ hs₂ =>
          rwp_pure (hnone v₂ h₂ (hs₁.trans hs₂) rfl)))
      · rw [htype] at hdir
        rw [if_neg hdir] at hnone hsome
        have hdir : (v.node i).type = .dir := by simpa using hdir
        refine rwp_ite (fun hlast => ?_) (fun hmore => ?_)
        · -- stop one level early
          rw [if_pos hlast] at hsome
          exact rwp_bind (h₁.rwp_iunlock (by simp) (fun v₂ h₂ hs₂ =>
            rwp_pure (hsome ip i name v₂ rfl hcur h₂ (hs₁.trans hs₂))))
        · rw [if_neg hmore] at hnone hsome
          have hdir₁ : DirOk sb (v₁.node i).bytes := by
            rw [hs₁.node]
            exact hdirs i hdir
          refine rwp_bind (h₁.rwp_dirlookup hdir₁ (fun hle => hfull ?_)
            List.mem_cons_self hm (by rw [hs₁.node]; exact hdir) (fun hfind => ?_) (fun k next v₂ hfind h₂ hs₂ => ?_))
          · rw [hs₁.spare, List.length_cons] at hle
            omega
          · rw [hs₁.node] at hfind
            have hlook : lookup v.node i name = none := by rw [lookup, hfind]; rfl
            rw [hlook] at hnone
            exact rwp_bind (h₁.rwp_iunlockput (by simp) (fun v₃ h₃ hs₃ =>
              rwp_pure (hnone v₃ h₃ (hs₁.trans hs₃) rfl)))
          · rw [hs₁.node] at hfind h₂
            have hlook : lookup v.node i name = some (entry (v.node i).bytes k).inum := by
              rw [lookup, hfind]
              rfl
            rw [hlook] at hnone hsome
            obtain ⟨hk, hmatch⟩ := findEntry_some hfind
            have h₂' := h₂.perm (List.Perm.swap _ _ _) (List.Perm.refl _)
            refine rwp_bind (h₂'.rwp_iunlockput (by simp) (fun v₃ h₃ hs₃ => ?_))
            have hs : SlotsOnly v v₃ := (hs₁.trans hs₂).trans hs₃
            have hlen := skipelem_length helem
            refine ih h₃ (by rwa [hs.spare]) ?_ ?_ (by omega) ?_ ?_ ?_
            · intro d
              rw [hs.node]
              exact hdirs d
            · rw [hs.node]
              exact hdang
            · rw [hs.node]
              exact hdang i k hdir hk hmatch.1
            · rw [hs.node]
              exact fun v₄ h₄ hs₄ hw => hnone v₄ h₄ (hs.trans hs₄) hw
            · rw [hs.node]
              exact fun ip' i' nm v₄ hw hf h₄ hs₄ => hsome ip' i' nm v₄ hw hf h₄ (hs.trans hs₄)

/-- The errors of a path look-up: those of references, and `ilock: no type` if an entry dangles. -/
structure PathErrs (E : Stop → Prop) (v : View) : Prop extends Errs E where
  entry : DanglingErr E v.node
  root : (v.node ROOTINO).type = .free → E (.panic .ilockNoType)

/-- What a path look-up may end in, for a call that holds `n` references already: it needs two more
    entries of the inode table. -/
structure WalkErrs (E : Stop → Prop) (v : View) (n : Nat) : Prop where
  full : v.spare ≤ n + 1 → E (.panic .igetNoInodes)
  entry : DanglingErr E v.node
  root : (v.node ROOTINO).type = .free → E (.panic .ilockNoType)

variable {v : View} {p : ProcId} {path : List UInt8}

theorem PathErrs.walk (hE : PathErrs E v) (n : Nat) : WalkErrs E v n :=
  ⟨fun _ => hE.noInodes, hE.entry, hE.root⟩

theorem Inodes.rwp_namex {parent : Bool} {Q : Option (InodeId × List UInt8) → View → Prop}
    (h : Inodes v H O [] []) (hE : WalkErrs E v (H.length + O.length)) (hdirs : Dirs sb v)
    (hcwd : (v.proc p).cwd ≠ none)
    (hnone : ∀ v', v.resolve p path parent = none → Inodes v' H O [] [] → SlotsOnly v v' →
      Q none v')
    (hsome : ∀ ip i name v', v.resolve p path parent = some (i, name) →
      ((v.node i).type = .free → E (.panic .ilockNoType)) →
      Inodes v' ((ip, i) :: H) O [] [] → SlotsOnly v v' → Q (some (ip, name)) v') :
    rwp R (namex sb p path parent) Q E v := by
  -- the loop, once the first inode is there
  have hloop : ∀ ip i v₁, v.start p path = some i →
      ((v.node i).type = .free → E (.panic .ilockNoType)) →
      Inodes v₁ ((ip, i) :: H) O [] [] → SlotsOnly v v₁ →
      rwp R (namexLoop sb parent (path.length + 1) path ip) Q E v₁ := by
    intro ip i v₁ hstart hfree h₁ hs₁
    have hres : v.resolve p path parent = walk v.node parent (path.length + 1) path i := by
      rw [View.resolve, hstart]
      rfl
    rw [hres] at hnone hsome
    refine h₁.rwp_namexLoop _ (by rw [hs₁.spare]; exact hE.full) ?_ ?_ (Nat.lt_succ_self _) ?_ ?_ ?_
    · intro d
      rw [hs₁.node]
      exact hdirs d
    · rw [hs₁.node]
      exact hE.entry
    · rw [hs₁.node]
      exact hfree
    · rw [hs₁.node]
      exact fun v₂ h₂ hs₂ hw => hnone v₂ hw h₂ (hs₁.trans hs₂)
    · rw [hs₁.node]
      exact fun ip' i' name v₂ hw hf h₂ hs₂ => hsome ip' i' name v₂ hw hf h₂ (hs₁.trans hs₂)
  unfold namex
  refine rwp_bind (rwp_get (fun s hs => ?_))
  dsimp only
  refine rwp_ite (fun hslash => rwp_bind ?_) (fun hslash => ?_)
  · refine h.rwp_iget_room (fun hle => hE.full (by omega)) ⟨Nat.zero_lt_one, sb.root_lt⟩ (fun ip v₁ h₁ hs₁ => ?_)
    exact hloop ip ROOTINO v₁ (by rw [View.start, if_pos hslash]) hE.root h₁ hs₁
  · have hproc : s.proc = v.proc := by
      rw [← (Tracks.rep hs).2]
      rfl
    rw [hproc]
    cases hc : (v.proc p).cwd with
    | none => exact absurd hc hcwd
    | some cwd =>
      refine rwp_bind (h.rwp_idup (h.ref_pos_of_cwd (View.cwds_pos hc)) (fun v₁ h₁ hs₁ => ?_))
      refine hloop cwd _ v₁ (by rw [View.start, if_neg hslash, hc]; rfl) (fun hf => ?_) h₁ hs₁
      rw [h.cwd cwd (View.cwds_pos hc)] at hf
      cases hf

theorem Inodes.rwp_namei {Q : Option InodeId → View → Prop} (h : Inodes v H O [] [])
    (hE : PathErrs E v) (hdirs : Dirs sb v) (hcwd : (v.proc p).cwd ≠ none)
    (hnone : ∀ v', v.resolve p path false = none → Inodes v' H O [] [] → SlotsOnly v v' → Q none v')
    (hsome : ∀ ip i name v', v.resolve p path false = some (i, name) →
      ((v.node i).type = .free → E (.panic .ilockNoType)) →
      Inodes v' ((ip, i) :: H) O [] [] → SlotsOnly v v' → Q (some ip) v') :
    rwp R (namei sb p path) Q E v :=
  rwp_bind (h.rwp_namex (hE.walk _) hdirs hcwd (fun v' hr h' hs' => rwp_pure (hnone v' hr h' hs'))
    (fun ip i name v' hr hf h' hs' => rwp_pure (hsome ip i name v' hr hf h' hs')))

/-- `nameiparent` finds a directory. -/
theorem Inodes.rwp_nameiparent {Q : Option (InodeId × List UInt8) → View → Prop}
    (h : Inodes v H O [] []) (hE : PathErrs E v) (hdirs : Dirs sb v) (hcwd : (v.proc p).cwd ≠ none)
    (hnone : ∀ v', v.resolve p path true = none → Inodes v' H O [] [] → SlotsOnly v v' → Q none v')
    (hsome : ∀ ip d name v', v.resolve p path true = some (d, name) → (v.node d).type = .dir →
      Inodes v' ((ip, d) :: H) O [] [] → SlotsOnly v v' → Q (some (ip, name)) v') :
    rwp R (nameiparent sb p path) Q E v := by
  refine h.rwp_namex (hE.walk _) hdirs hcwd hnone (fun ip d name v' hr _ h' hs' =>
    hsome ip d name v' hr ?_ h' hs')
  obtain ⟨i, -, hw⟩ := Option.bind_eq_some_iff.1 hr
  exact walk_parent_dir hw

end Namex

end Xv6.Fs
