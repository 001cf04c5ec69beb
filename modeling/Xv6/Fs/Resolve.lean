import Xv6.Fs.Runs

set_option autoImplicit false

/-! # Path resolution by components

A path is a list of components, and it is resolved by looking up one component after the other.
`components` says which components a path has and `follow` what looking them up means, without the
scanning of `skipelem` and the references of `namex`. Between two calls `namex` returns what the
components say and keeps one reference, to the inode it returns. -/

namespace Xv6.Fs

open Wp Machine

/-! ## Components -/

/-- The parts between slashes, without the empty ones, each cut to `DIRSIZ` bytes. -/
def components (path : List UInt8) : List (List UInt8) :=
  ((path.splitOn slash).filter (fun c => c ≠ [])).map (List.take DIRSIZ)

theorem components_slash (path : List UInt8) : components (slash :: path) = components path := by
  unfold components
  rw [List.splitOn, List.splitOnP_cons_eq_if_modifyHead, if_pos (beq_self_eq_true slash)]
  rfl

theorem components_dropSlashes (path : List UInt8) :
    components (path.dropWhile (· = slash)) = components path := by
  induction path with
  | nil => rfl
  | cons c path ih =>
    by_cases hc : c = slash
    · rw [List.dropWhile_cons_of_pos (by simpa using hc), ih, hc, components_slash]
    · rw [List.dropWhile_cons_of_neg (by simpa using hc)]

/-- A word and what follows it: the end of the path or a slash. -/
theorem components_word {word rest : List UInt8} (hne : word ≠ []) (hword : ∀ c ∈ word, c ≠ slash)
    (hrest : rest.head?.all (· = slash) = true) :
    components (word ++ rest) = word.take DIRSIZ :: components rest := by
  have hno : ∀ c ∈ word, (c == slash) = false := fun c hc => by simpa using hword c hc
  cases rest with
  | nil =>
    have hsplit : (word ++ []).splitOn slash = [word] := by
      rw [List.append_nil]
      exact List.splitOnP_eq_singleton hno
    rw [components, hsplit]
    simp [hne, components]
  | cons c rest =>
    obtain rfl : c = slash := by simpa using hrest
    have hsplit : (word ++ slash :: rest).splitOn slash = word :: rest.splitOn slash :=
      List.splitOnP_append_cons_of_forall_mem hno _ (beq_self_eq_true slash) _
    rw [components_slash, components, hsplit]
    simp [hne, components]

theorem components_of_skipelem_none {path : List UInt8} (h : skipelem path = none) :
    components path = [] := by
  unfold skipelem at h
  dsimp only at h
  split at h
  · next hnil =>
      rw [← components_dropSlashes, hnil]
      rfl
  · cases h

theorem components_of_skipelem {path name rest : List UInt8}
    (h : skipelem path = some (name, rest)) : components path = name :: components rest := by
  unfold skipelem at h
  dsimp only at h
  split at h
  · cases h
  · next hne =>
      obtain ⟨rfl, rfl⟩ := Prod.mk.inj (Option.some.inj h)
      rw [← components_dropSlashes path]
      generalize hpath : path.dropWhile (· = slash) = rel at hne
      obtain ⟨c, cs, rfl⟩ := List.exists_cons_of_ne_nil hne
      have hc : ¬ c = slash := by
        have := List.head_dropWhile_not (· = slash) (l := path) (by rw [hpath]; exact hne)
        simpa [hpath] using this
      rw [components_dropSlashes]
      conv_lhs => rw [← List.takeWhile_append_dropWhile (p := (· ≠ slash)) (l := c :: cs)]
      refine components_word ?_ (fun b hb => by simpa using List.all_eq_true.1 List.all_takeWhile b hb) ?_
      · rw [List.takeWhile_cons_of_pos (by simpa using hc)]
        exact List.cons_ne_nil _ _
      · cases hdrop : ((c :: cs).dropWhile (· ≠ slash)).head? with
        | none => rfl
        | some b =>
          have := List.head?_dropWhile_not (· ≠ slash) (c :: cs)
          rw [hdrop] at this
          simpa using this

/-! ## Looking up the components -/

/-- The inode of a list of components, from `i` on. -/
def follow (node : Nat → Node) : Nat → List (List UInt8) → Option Nat
  | i, [] => some i
  | i, c :: cs =>
    if (node i).type = .dir then (lookup node i c).bind fun j => follow node j cs else none

/-- The directory of all but the last component, and the last component. -/
def followParent (node : Nat → Node) (i : Nat) (cs : List (List UInt8)) :
    Option (Nat × List UInt8) :=
  match cs.getLast? with
  | none => none
  | some last => (follow node i cs.dropLast).bind fun d =>
    if (node d).type = .dir then some (d, last) else none

section Follow

variable {node : Nat → Node}

theorem follow_append (i : Nat) (cs cs' : List (List UInt8)) :
    follow node i (cs ++ cs') = (follow node i cs).bind fun j => follow node j cs' := by
  induction cs generalizing i with
  | nil => rfl
  | cons c cs ih =>
    rw [List.cons_append, follow, follow]
    split
    · rw [Option.bind_assoc]
      exact Option.bind_congr (fun j _ => ih j)
    · rfl

/-- There is no inode exactly when a component is looked up in something else than a directory, or is
    missing there. -/
theorem follow_eq_none {i : Nat} {cs : List (List UInt8)} :
    follow node i cs = none ↔ ∃ before c after d, cs = before ++ c :: after ∧
      follow node i before = some d ∧ ((node d).type ≠ .dir ∨ lookup node d c = none) := by
  constructor
  · intro h
    induction cs generalizing i with
    | nil => cases h
    | cons c cs ih =>
      unfold follow at h
      split at h
      · next hdir =>
          cases hlook : lookup node i c with
          | none => exact ⟨[], c, cs, i, rfl, rfl, Or.inr hlook⟩
          | some j =>
            rw [hlook] at h
            obtain ⟨before, c', after, d, rfl, hd, hbad⟩ := ih h
            refine ⟨c :: before, c', after, d, rfl, ?_, hbad⟩
            rw [follow, if_pos hdir, hlook]
            exact hd
      · next hdir => exact ⟨[], c, cs, i, rfl, rfl, Or.inl hdir⟩
  · rintro ⟨before, c, after, d, rfl, hd, hbad⟩
    rw [follow_append, hd, Option.bind_some, follow]
    split
    · next hdir => rw [hbad.resolve_left (not_not.2 hdir)]; rfl
    · rfl

theorem followParent_cons {i : Nat} {c : List UInt8} {cs : List (List UInt8)} (hcs : cs ≠ []) :
    followParent node i (c :: cs) =
      if (node i).type = .dir then (lookup node i c).bind fun j => followParent node j cs
      else none := by
  obtain ⟨last, hlast⟩ := Option.isSome_iff_exists.1 (List.getLast?_isSome.2 hcs)
  have hlast' : (c :: cs).getLast? = some last := by
    rw [List.getLast?_cons, hlast]
    rfl
  unfold followParent
  rw [hlast', hlast, List.dropLast_cons_of_ne_nil hcs]
  simp only
  rw [follow]
  split
  · rw [Option.bind_assoc]
  · rfl

/-- The end of a path is reached when it has no components left. -/
theorem skipelem_rest_eq_nil {path name rest : List UInt8} (h : skipelem path = some (name, rest)) :
    rest = [] ↔ components rest = [] := by
  constructor
  · rintro rfl
    rfl
  · intro hc
    by_contra hne
    unfold skipelem at h
    dsimp only at h
    split at h
    · cases h
    · obtain ⟨-, rfl⟩ := Prod.mk.inj (Option.some.inj h)
      have hhead := List.head_dropWhile_not (· = slash) hne
      generalize hr : List.dropWhile (· = slash) _ = rest at hne hc hhead
      have hskip : skipelem rest ≠ none := by
        obtain ⟨b, bs, rfl⟩ := List.exists_cons_of_ne_nil hne
        have hb : ¬ b = slash := of_decide_eq_false hhead
        unfold skipelem
        dsimp only
        rw [List.dropWhile_cons_of_neg (by simpa using hb), if_neg (List.cons_ne_nil b bs)]
        exact Option.some_ne_none _
      obtain ⟨e, he⟩ := Option.ne_none_iff_exists'.1 hskip
      have hcs : components rest = e.1 :: components e.2 := components_of_skipelem he
      rw [hcs] at hc
      cases hc

theorem walk_eq_follow {rounds : Nat} {path : List UInt8} (i : Nat) (h : path.length < rounds) :
    walk node false rounds path i = (follow node i (components path)).map fun j => (j, []) := by
  induction rounds generalizing path i with
  | zero => omega
  | succ rounds ih =>
    unfold walk
    cases helem : skipelem path with
    | none =>
      rw [components_of_skipelem_none helem]
      rfl
    | some e =>
      obtain ⟨name, rest⟩ := e
      have hlen := skipelem_length helem
      rw [components_of_skipelem helem, follow]
      simp only
      by_cases hdir : (node i).type = .dir
      · rw [if_neg (not_not.2 hdir), if_pos hdir, if_neg (by simp)]
        cases lookup node i name with
        | none => rfl
        | some j => exact ih j (by omega)
      · rw [if_pos hdir, if_neg hdir]
        rfl

theorem walk_eq_followParent {rounds : Nat} {path : List UInt8} (i : Nat)
    (h : path.length < rounds) :
    walk node true rounds path i = followParent node i (components path) := by
  induction rounds generalizing path i with
  | zero => omega
  | succ rounds ih =>
    unfold walk
    cases helem : skipelem path with
    | none =>
      rw [components_of_skipelem_none helem]
      rfl
    | some e =>
      obtain ⟨name, rest⟩ := e
      have hlen := skipelem_length helem
      have hrest := skipelem_rest_eq_nil helem
      rw [components_of_skipelem helem]
      simp only [true_and]
      by_cases hnil : rest = []
      · rw [if_pos hnil, hrest.1 hnil]
        show _ = if (node i).type = .dir then some (i, name) else none
        simp only [ite_not]
      · rw [if_neg hnil, followParent_cons (fun hc => hnil (hrest.2 hc))]
        simp only [ite_not]
        split
        · cases lookup node i name with
          | none => rfl
          | some j => exact ih j (by omega)
        · rfl

end Follow

/-! ## `namex` -/

/-- What `namex` is to return: an inode for the whole path, or one for the directory and the name in
    it. -/
def namexSpec (node : Nat → Node) (nameiparent : Bool) (i : Nat) (cs : List (List UInt8)) :
    Option (Nat × List UInt8) :=
  if nameiparent then followParent node i cs else (follow node i cs).map fun j => (j, [])

theorem View.resolve_eq {v : View} {p : ProcId} {path : List UInt8} {i : Nat} (parent : Bool)
    (h : v.start p path = some i) :
    v.resolve p path parent = namexSpec v.node parent i (components path) := by
  rw [View.resolve, h]
  cases parent with
  | false => exact walk_eq_follow i (Nat.lt_succ_self _)
  | true => exact walk_eq_followParent i (Nat.lt_succ_self _)

/-- The root directory is there, and so is the inode of every entry of a directory. -/
structure Tree (node : Nat → Node) : Prop where
  root : (node ROOTINO).type ≠ .free
  entry : ∀ d k, (node d).type = .dir → k < numEntries (node d).bytes →
    (entry (node d).bytes k).inum ≠ 0 → (node (entry (node d).bytes k).inum).type ≠ .free

/-- `Tree` for a table of inodes, by looking at all entries. -/
def treeCheck (ninodes : Nat) (node : Nat → Node) : Bool :=
  (node ROOTINO).type ≠ .free && (List.range ninodes).all fun d =>
    (node d).type ≠ .dir || (List.range (numEntries (node d).bytes)).all fun k =>
      (entry (node d).bytes k).inum = 0 || (node (entry (node d).bytes k).inum).type ≠ .free

theorem Tree.of_check {node : Nat → Node} {ninodes : Nat}
    (hout : ∀ d, ninodes ≤ d → (node d).type ≠ .dir) (h : treeCheck ninodes node = true) :
    Tree node := by
  unfold treeCheck at h
  rw [Bool.and_eq_true, decide_eq_true_eq, List.all_eq_true] at h
  refine ⟨h.1, fun d k hd hk hne => ?_⟩
  have hlt : d < ninodes := Nat.lt_of_not_le (fun hle => hout d hle hd)
  have hdir := h.2 d (List.mem_range.2 hlt)
  rw [Bool.or_eq_true, decide_eq_true_eq, List.all_eq_true] at hdir
  have hentry := hdir.resolve_left (not_not.2 hd) k (List.mem_range.2 hk)
  rw [Bool.or_eq_true, decide_eq_true_eq, decide_eq_true_eq] at hentry
  exact hentry.resolve_left hne

theorem State.tree_of_check {sb : Superblock} {s : State}
    (h : treeCheck sb.ninodes (s.node sb) = true) : Tree (s.node sb) := by
  refine Tree.of_check (fun d hd hdir => ?_) h
  have halloc : Alloc sb s.dinode d := node_type_ne_free.1 (by rw [hdir]; decide)
  exact Nat.not_lt.2 hd halloc.2.1

/-- The inode that has been returned, by its number. -/
def State.returned (s : State) (r : Option (InodeId × List UInt8)) : Option (Nat × List UInt8) :=
  r.map fun x => ((s.itable x.1).inum, x.2)

/-- The entries of the inode table that are not in use. -/
def State.unusedInodes (s : State) : Nat := tally s.itable fun x => x.ref = 0

/-- What `namex` has done: the result is that of the components, and there is one more reference to
    it. Nothing else has changed. -/
structure Resolved (sb : Superblock) (s s' : State) (parent : Bool) (i : Nat)
    (cs : List (List UInt8)) (r : Option (InodeId × List UInt8)) : Prop where
  result : s'.returned r = namexSpec (s.node sb) parent i cs
  refs : ∀ ip, (s'.itable ip).ref = (s.itable ip).ref + if r.map Prod.fst = some ip then 1 else 0
  node : s'.node sb = s.node sb
  tables : s'.ftable = s.ftable ∧ s'.pipe = s.pipe ∧ s'.proc = s.proc

variable {sb : Superblock}

theorem Idle.spare {s : State} (h : Idle sb (s.view sb)) :
    (s.view sb).spare = s.unusedInodes := by
  refine tally_congr (fun ip => ?_)
  have href : (s.itable ip).ref = ((s.view sb).files ip : Int) + (s.view sb).cwds ip + 0 + 0 - 0 :=
    h.inodes.refs ip
  omega

/-- The references after a look-up, when the call holds only the inode it has found. -/
theorem Inodes.refs_diff {v v' : View} {H : List Hold} (h : Inodes v [] [] [] [])
    (h' : Inodes v' H [] [] []) (hs : SlotsOnly v v') (ip : InodeId) :
    (v'.slot ip).ref = (v.slot ip).ref + holds H ip := by
  rw [h'.refs, h.refs, hs.files, hs.cwds, holds_nil, List.count_nil]
  omega

/-- Where a path starts for a process with this current directory. -/
def State.startInode (s : State) (cwd : InodeId) (path : List UInt8) : Nat :=
  if path.head? = some slash then ROOTINO else (s.itable cwd).inum

theorem State.start_eq {s : State} {p : ProcId} {cwd : InodeId} (hcwd : (s.proc p).cwd = some cwd)
    (path : List UInt8) : (s.view sb).start p path = some (s.startInode cwd path) := by
  unfold View.start State.startInode
  split
  · rfl
  · show ((s.proc p).cwd.map fun ip => (s.itable ip).inum) = _
    rw [hcwd]
    rfl

/-- `namex` returns what the components of the path name. It needs two entries of the inode table
    at most. -/
theorem Sound.namex {s : State} {p : ProcId} {cwd : InodeId} (h : Sound sb s)
    (htree : Tree (s.node sb)) (hcwd : (s.proc p).cwd = some cwd) (parent : Bool)
    (path : List UInt8) :
    wp (namex sb p path parent)
      (fun r s' => Resolved sb s s' parent (s.startInode cwd path) (components path) r)
      (fun x => x = .panic .igetNoInodes ∧ s.unusedInodes < 2) s := by
  have hE : WalkErrs (fun x => x = .panic .igetNoInodes ∧ s.unusedInodes < 2) (s.view sb) 0 :=
    ⟨fun hle => ⟨rfl, by rw [h.idle.spare] at hle; omega⟩,
      fun d k hd hk hne hf => absurd hf (htree.entry d k hd hk hne),
      fun hf => absurd hf htree.root⟩
  have hstart : (s.view sb).start p path = some (s.startInode cwd path) := State.start_eq hcwd path
  have hres := View.resolve_eq parent hstart
  have hsome : (s.proc p).cwd ≠ none := by
    rw [hcwd]
    exact Option.some_ne_none _
  have hrun : rwp (Rep sb) (Fs.namex sb p path parent)
      (fun r v' => Inodes v' (r.elim [] fun x => [(x.1, (v'.slot x.1).inum)]) [] [] [] ∧
        SlotsOnly (s.view sb) v' ∧
        (s.view sb).resolve p path parent = r.map fun x => ((v'.slot x.1).inum, x.2))
      (fun x => x = .panic .igetNoInodes ∧ s.unusedInodes < 2) (s.view sb) := by
    refine h.idle.inodes.rwp_namex hE h.idle.dirs hsome (fun v' hr h' hs' => ⟨h', hs', hr⟩)
      (fun ip j name v' hr _ h' hs' => ?_)
    obtain rfl : (v'.slot ip).inum = j := h'.held (ip, j) (Or.inl List.mem_cons_self)
    exact ⟨h', hs', hr⟩
  refine (hrun s ⟨h.good, rfl⟩).mono ?_ (fun _ he => he)
  rintro r s' ⟨v', ⟨-, rfl⟩, h', hs', hr⟩
  rw [hres] at hr
  refine ⟨hr.symm, fun ip => ?_, hs'.node, hs'.ftable, hs'.pipe, hs'.proc⟩
  have hdiff : (s'.itable ip).ref = (s.itable ip).ref + (holds _ ip : Nat) :=
    h.idle.inodes.refs_diff h' hs' ip
  rw [hdiff]
  cases r with
  | none => rfl
  | some x =>
    have hone : holds [(x.1, ((s'.view sb).slot x.1).inum)] ip = if x.1 = ip then 1 else 0 := by
      rw [holds_cons, holds_nil, Nat.zero_add]
    show _ + ((holds [(x.1, ((s'.view sb).slot x.1).inum)] ip : Nat) : Int) =
      _ + if some x.1 = some ip then 1 else 0
    rw [hone]
    simp only [Option.some.injEq]
    split <;> rfl

/-- Path resolution between two calls. `namex` returns what the components of the path name, taken
    from the root or from the current directory on, or `iget` finds the inode table full. There is no
    inode exactly if a component is looked up in something else than a directory, or is missing.
    Paths with the same components that start at the same place are resolved alike. -/
theorem namex_by_components {s : State} {p : ProcId} {cwd : InodeId} (h : Sound sb s)
    (htree : Tree (s.node sb)) (hcwd : (s.proc p).cwd = some cwd) (parent : Bool) :
    (∀ path,
      (∃ r s', namex sb p path parent s = .ok (r, s') ∧
        Resolved sb s s' parent (s.startInode cwd path) (components path) r) ∨
      namex sb p path parent s = .error (.panic .igetNoInodes) ∧ s.unusedInodes < 2) ∧
    (∀ i cs, follow (s.node sb) i cs = none ↔ ∃ before c after d, cs = before ++ c :: after ∧
      follow (s.node sb) i before = some d ∧
        ((s.node sb d).type ≠ .dir ∨ lookup (s.node sb) d c = none)) ∧
    ∀ path path' r r' s' s'', components path = components path' →
      (path.head? = some slash ↔ path'.head? = some slash) →
      namex sb p path parent s = .ok (r, s') → namex sb p path' parent s = .ok (r', s'') →
      s'.returned r = s''.returned r' := by
  refine ⟨fun path => ?_, fun i cs => follow_eq_none, ?_⟩
  · have hwp := h.namex htree hcwd parent path
    cases hrun : namex sb p path parent s with
    | ok a => exact Or.inl ⟨a.1, a.2, rfl, hwp.of_ok hrun⟩
    | error x =>
      obtain ⟨rfl, hfull⟩ := hwp.of_error hrun
      exact Or.inr ⟨rfl, hfull⟩
  · intro path path' r r' s' s'' hcs hslash hrun hrun'
    rw [((h.namex htree hcwd parent path).of_ok hrun).result,
      ((h.namex htree hcwd parent path').of_ok hrun').result, hcs]
    simp only [State.startInode, hslash]

theorem namex_by_components_tiny :
    ∃ r s', namex tinySb initproc [slash, 46, slash, slash, 46, 46] false tiny = .ok (r, s') ∧
      s'.returned r = some (ROOTINO, []) := by
  have hsound : Sound tinySb tiny := tiny_consistent.sound
  have htree : Tree (tiny.node tinySb) := State.tree_of_check (by decide +kernel)
  have hcwd : (tiny.proc initproc).cwd = some 0 := rfl
  have hroom : ¬ tiny.unusedInodes < 2 := by decide +kernel
  have hspec : namexSpec (tiny.node tinySb) false
      (tiny.startInode 0 [slash, 46, slash, slash, 46, 46])
      (components [slash, 46, slash, slash, 46, 46]) = some (ROOTINO, []) := by decide +kernel
  obtain ⟨r, s', hrun, hres⟩ :=
    ((namex_by_components hsound htree hcwd false).1
      [slash, 46, slash, slash, 46, 46]).resolve_right (fun h => hroom h.2)
  exact ⟨r, s', hrun, hres.result.trans hspec⟩

/-- In the directory `/b` the paths `/b` and `b` have the same components, but only one of them names
    an inode. -/
theorem same_components_differ :
    ∃ s, Sound tinySb s ∧ Tree (s.node tinySb) ∧ components [slash, 98] = components [98] ∧
      (∃ r s', namex tinySb initproc [slash, 98] false s = .ok (some r, s')) ∧
      ∃ s', namex tinySb initproc [98] false s = .ok (none, s') := by
  have hany : (run (step tinySb) tiny
      [initCall [slash, 98] (.mkdir 0), initCall [slash, 98] (.chdir 0)]).any (fun s =>
        treeCheck tinySb.ninodes (s.node tinySb) &&
        ((namex tinySb initproc [slash, 98] false s).toOption.any fun x => x.1.isSome) &&
        (namex tinySb initproc [98] false s).toOption.any fun x => x.1.isNone) = true := by
    decide +kernel
  obtain ⟨s, hs, hcheck⟩ := Outcome.exists_of_any hany
  rw [Bool.and_eq_true, Bool.and_eq_true] at hcheck
  obtain ⟨⟨htree, habs⟩, hrel⟩ := hcheck
  refine ⟨s, tiny_consistent.sound.of_run _ hs, State.tree_of_check htree, rfl, ?_, ?_⟩
  · obtain ⟨⟨r, s'⟩, hrun, hsome⟩ := exists_ok_of_any habs
    obtain ⟨x, rfl⟩ := Option.isSome_iff_exists.1 hsome
    exact ⟨x, s', hrun⟩
  · obtain ⟨⟨r, s'⟩, hrun, hnone⟩ := exists_ok_of_any hrel
    obtain rfl : r = none := Option.isNone_iff_eq_none.1 hnone
    exact ⟨s', hrun⟩

end Xv6.Fs
