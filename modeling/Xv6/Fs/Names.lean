import Xv6.Fs.FileOps
import Xv6.Fs.Paths

set_option autoImplicit false

/-! # Changes to the name space

What `link`, `unlink` and `create` do to the nodes, and the rules for them. A call that makes or
removes a name does one of the changes of `Change`, or none; everything else it does is `Quiet`. -/

namespace Xv6.Fs

open Wp Function

/-! ## Changes of the nodes -/

/-- A new entry in a directory. -/
def addEntry (node : Nat → Node) (d : Nat) (name : List UInt8) (inum : Nat) : Nat → Node :=
  update node d ((node d).withBytes (setEntry (node d).bytes (freeEntry (node d).bytes)
    { inum := inum, name := strncpy name }))

/-- An entry of a directory is removed. -/
def clearEntry (node : Nat → Node) (d k : Nat) : Nat → Node :=
  update node d ((node d).withBytes (setEntry (node d).bytes k Dirent.empty))

/-- A link count is changed. -/
def addLinks (node : Nat → Node) (i : Nat) (δ : Int) : Nat → Node :=
  update node i ((node i).addNlink δ)

/-- The bytes of a new directory: its "." and "..". -/
def newDir (i parent : Nat) : List UInt8 :=
  setEntry (setEntry [] 0 { inum := i, name := strncpy dot }) 1
    { inum := parent, name := strncpy dotdot }

/-- A new node, with a name in the directory `d`. -/
def created (node : Nat → Node) (d : Nat) (name : List UInt8) (i : Nat) (x : Node) : Nat → Node :=
  if x.type = .dir then addLinks (addEntry (update node i x) d name i) d 1
  else addEntry (update node i x) d name i

/-- A name of `i` is removed; it is the entry `k` of `d`. -/
def unlinked (node : Nat → Node) (d k i : Nat) : Nat → Node :=
  if (node i).type = .dir then addLinks (addLinks (clearEntry node d k) d (-1)) i (-1)
  else addLinks (clearEntry node d k) i (-1)

/-- What a call is meant to do to the name space. -/
inductive NameOp where
  | nothing
  | link (old new : List UInt8)
  | unlink (path : List UInt8)
  | create (path : List UInt8) (type : FileType)
  deriving DecidableEq

/-- What a call of the process `p` does to the nodes. -/
inductive Change (sb : Superblock) (v : View) (p : ProcId) : NameOp → (Nat → Node) → Prop where
  | none (op : NameOp) : Change sb v p op v.node
  | link {old new rest name : List UInt8} {i d : Nat} (hold : v.resolve p old false = some (i, rest))
      (hfree : (v.node i).type ≠ .free) (hdir : (v.node i).type ≠ .dir)
      (hnew : v.resolve p new true = some (d, name)) (hd : (v.node d).type = .dir)
      (habsent : findEntry (v.node d).bytes name = Option.none) :
      Change sb v p (.link old new) (addEntry (addLinks v.node i 1) d name i)
  | unlink {path name : List UInt8} {d k i : Nat} (hpath : v.resolve p path true = some (d, name))
      (hd : (v.node d).type = .dir) (hdot : ¬ namecmp name dot = true)
      (hdotdot : ¬ namecmp name dotdot = true) (hk : findEntry (v.node d).bytes name = some k)
      (hi : (entry (v.node d).bytes k).inum = i) (hne : i ≠ d) (hfree : (v.node i).type ≠ .free)
      (hnlink : 1 ≤ (v.node i).nlink)
      (hempty : (v.node i).type = .dir → ∀ j, 2 ≤ j → j < numEntries (v.node i).bytes →
        (entry (v.node i).bytes j).inum = 0) :
      Change sb v p (.unlink path) (unlinked v.node d k i)
  | create {path name : List UInt8} {type : FileType} {d i : Nat} {x : Node}
      (hpath : v.resolve p path true = some (d, name)) (hd : (v.node d).type = .dir)
      (habsent : findEntry (v.node d).bytes name = Option.none) (hpos : 0 < i) (hi : i < sb.ninodes)
      (hfree : (v.node i).type = .free) (hx : x.type = type) (htype : type ≠ .free)
      (hnlink : x.nlink = 1) (hbytes : x.bytes = if type = .dir then newDir i d else []) :
      Change sb v p (.create path type) (created v.node d name i x)

/-! ## Look-ups see only types and bytes -/

/-- Path names mean the same. -/
def SameNames (n n' : Nat → Node) : Prop :=
  ∀ i, (n' i).type = (n i).type ∧ (n' i).bytes = (n i).bytes

section SameNames

variable {n n' : Nat → Node} {v v' : View} {E : Stop → Prop} {sb : Superblock}

theorem SameNames.addLinks (n : Nat → Node) (i : Nat) (δ : Int) : SameNames n (addLinks n i δ) := by
  intro j
  unfold Fs.addLinks
  by_cases hj : j = i
  · subst hj
    rw [update_self]
    exact ⟨rfl, rfl⟩
  · rw [update_of_ne hj]
    exact ⟨rfl, rfl⟩

theorem SameNames.walk (h : SameNames n n') (parent : Bool) (rounds : Nat) (path : List UInt8)
    (i : Nat) : walk n' parent rounds path i = walk n parent rounds path i := by
  induction rounds generalizing path i with
  | zero => rfl
  | succ rounds ih =>
    unfold Fs.walk
    rw [(h i).1]
    have hlookup : ∀ name, lookup n' i name = lookup n i name := fun name => by
      unfold lookup
      rw [(h i).2]
    simp only [hlookup, ih]

theorem SameNames.dirs (h : SameNames v.node v'.node) (hd : Dirs sb v) : Dirs sb v' := by
  intro i hi
  rw [(h i).2]
  exact hd i (by rw [← (h i).1]; exact hi)

theorem SameNames.pathErrs (h : SameNames v.node v'.node) (hE : PathErrs E v) : PathErrs E v' := by
  refine ⟨hE.toErrs, fun d k hd hk hne hf => ?_, fun hf => hE.root (by rw [← (h _).1]; exact hf)⟩
  rw [(h d).2] at hk hne hf
  exact hE.entry d k (by rw [← (h d).1]; exact hd) hk hne (by rw [← (h _).1]; exact hf)

theorem SameNames.resolve (h : SameNames v.node v'.node) (hproc : v'.proc = v.proc)
    (hinum : ∀ ip, 0 < v.cwds ip → (v'.slot ip).inum = (v.slot ip).inum) (p : ProcId)
    (path : List UInt8) (parent : Bool) : v'.resolve p path parent = v.resolve p path parent := by
  have hstart : v'.start p path = v.start p path := by
    unfold View.start
    split
    · rfl
    · rw [hproc]
      cases hc : (v.proc p).cwd with
      | none => rfl
      | some ip => exact congrArg some (hinum ip (View.cwds_pos hc))
  unfold View.resolve
  rw [hstart]
  congr 1
  funext i
  exact h.walk parent _ path i

end SameNames

/-! ## Tables that a call leaves alone -/

/-- The call has changed nodes and the inode table only. -/
structure Kept (v v' : View) : Prop where
  ftable : v'.ftable = v.ftable
  pipe : v'.pipe = v.pipe
  proc : v'.proc = v.proc

section Kept

variable {v v' v'' : View} {A B N : List FileId}

theorem Kept.refl (v : View) : Kept v v := ⟨rfl, rfl, rfl⟩

theorem Kept.trans (h : Kept v v') (h' : Kept v' v'') : Kept v v'' :=
  ⟨h'.ftable.trans h.ftable, h'.pipe.trans h.pipe, h'.proc.trans h.proc⟩

theorem SlotsOnly.kept (h : SlotsOnly v v') : Kept v v' := ⟨h.ftable, h.pipe, h.proc⟩

theorem Put.kept {i : Nat} (h : Put v v' i) : Kept v v' := ⟨h.ftable, h.pipe, h.proc⟩

theorem Kept.withNode (v : View) (i : Nat) (x : Node) : Kept v (v.withNode i x) := ⟨rfl, rfl, rfl⟩

theorem Kept.files (h : Kept v v') (hf : Files v A B N) : Files v' A B N :=
  hf.congr h.ftable h.pipe (fun p => by rw [h.proc])

theorem Kept.procs (h : Kept v v') (hp : Procs v) : Procs v' := by
  obtain ⟨h1, h2⟩ := hp
  exact ⟨by rwa [h.proc], by rwa [h.proc]⟩

end Kept

/-! ## Link -/

section Link

variable {sb : Superblock} {E : Stop → Prop} {v : View} {p : ProcId} {ip : InodeId} {i : Nat}
  {R : View → State → Prop} [Tracks sb R] {b : Nat × Nat → Nat} {u : User}

/-- Adding and removing a link gives back the count. -/
theorem addLinks_cancel (hshort : short (v.node i).nlink = (v.node i).nlink) :
    addLinks (addLinks v.node i 1) i (-1) = v.node := by
  have hnlink : short (short ((v.node i).nlink + 1) + -1) = (v.node i).nlink := by
    rw [short, short, Int.bmod_add_bmod, Int.add_neg_cancel_right]
    exact hshort
  have hnode : ((v.node i).addNlink 1).addNlink (-1) = v.node i := by
    show { v.node i with nlink := short (short ((v.node i).nlink + 1) + -1) } = v.node i
    rw [hnlink]
  unfold addLinks
  rw [update_self, update_idem, hnode, update_eq_self]

/-- `linkBad` takes back the link; the inode stays. -/
theorem Inodes.rwp_linkBad [LogErrs E] {Q : Int → View → Prop} (h : Inodes v [] [(ip, i)] [] []) (hE : Errs E)
    (hfree : (v.node i).type ≠ .free)
    (hstay : ((v.node i).addNlink (-1)).nlink = 0 → 0 < v.files ip + v.cwds ip)
    (hQ : ∀ v', Inodes v' [] [] [] [] →
      SlotsOnly (v.withNode i ((v.node i).addNlink (-1))) v' → Q (-1) v') :
    rwp R (linkBad sb ip) Q E v := by
  have hm : ∀ {H O : List Hold}, (ip, i) ∈ H ∨ (ip, i) ∈ (ip, i) :: O := Or.inr List.mem_cons_self
  refine rwp_bind (h.rwp_ilock hE hm (fun hf => absurd hf hfree) (fun v₁ hip _ h₁ hs₁ => ?_))
  refine rwp_then (h₁.rwp_addNlink List.mem_cons_self hm (fun _ => Or.inr List.mem_cons_self)
    (fun h₂ => ?_))
  refine rwp_bind (h₂.rwp_iunlockputStay rfl hip (fun hn => ?_) (fun v₃ h₃ hs₃ => rwp_pure ?_))
  · rw [View.withNode_node, update_self, hs₁.node] at hn
    have := hstay hn
    rw [← hs₁.files, ← hs₁.cwds] at this
    exact this
  · have hs := hs₁.withNode i ((v.node i).addNlink (-1))
    rw [hs₁.node] at hs₃
    exact hQ v₃ h₃ (hs.trans hs₃)

/-- What a call with these outcomes has to show. -/
def Done (sb : Superblock) (v : View) (p : ProcId) (op : NameOp) (v' : View) : Prop :=
  Inodes v' [] [] [] [] ∧ Kept v v' ∧ ∃ n, Change sb v p op n ∧ Quiet n v'.node

theorem Done.quiet {op : NameOp} {v' : View} (h : Inodes v' [] [] [] []) (hk : Kept v v')
    (hq : Quiet v.node v'.node) : Done sb v p op v' :=
  ⟨h, hk, v.node, Change.none op, hq⟩

/-- The paths of `link`. -/
def linkOp (u : User) (old new : Nat) : NameOp :=
  match argstr u old, argstr u new with
  | some old, some new => .link old new
  | _, _ => .nothing

/-- The directory in which a call makes a name. -/
def View.parentOf (v : View) (p : ProcId) (path : Option (List UInt8)) : Option Nat :=
  path.bind fun path => (v.resolve p path true).map Prod.fst

/-- The blocks after a failed call: the parent directory may have got an indirect block. -/
def KeptBlocks (d : Option Nat) (u u' : Nat × Nat → Nat) : Prop :=
  match d with
  | none => u' = u
  | some d => OnlyIndirect d u u'

theorem KeptBlocks.refl (d : Option Nat) (u : Nat × Nat → Nat) : KeptBlocks d u u := by
  cases d with
  | none => rfl
  | some d => exact OnlyIndirect.refl d u

/-- The second half of `sys_link`, when the count has been raised. -/
theorem Inodes.rwp_linkNew [LogErrs E] {new : List UInt8} {Q : Int → Watch → Prop}
    (h : Inodes v [] [(ip, i)] [] []) (hE : PathErrs E v) (hdirs : Dirs sb v)
    (hcwd : (v.proc p).cwd ≠ none) (hi : i < 2 ^ 16) (hfree : (v.node i).type ≠ .free)
    (hstay : ((v.node i).addNlink (-1)).nlink = 0 → 0 < v.files ip + v.cwds ip)
    (hbad : ∀ v' b', Inodes v' [] [] [] [] →
      SlotsOnly (v.withNode i ((v.node i).addNlink (-1))) v' →
      KeptBlocks (v.parentOf p (some new)) b b' → Q (-1) (some (v', b')))
    (hgood : ∀ d name v' b', v.resolve p new true = some (d, name) → (v.node d).type = .dir →
      findEntry (v.node d).bytes name = none → Inodes v' [] [] [] [] → Kept v v' →
      Quiet (addEntry v.node d name i) v'.node → Q 0 (some (v', b'))) :
    rwp (RepW sb) (do
      let r ← nameiparent sb p new
      match r with
      | none => linkBad sb ip
      | some (dp, name) => do
        ilock sb dp
        let ok ← dirlink sb dp name i
        if ok = false then do
          iunlockput sb dp
          linkBad sb ip
        else do
          iunlockput sb dp
          iput sb ip
          pure 0) Q E (some (v, b)) := by
  have hback : ∀ v' b', Inodes v' [] [(ip, i)] [] [] → SlotsOnly v v' →
      KeptBlocks (v.parentOf p (some new)) b b' →
      rwp (RepW sb) (linkBad sb ip) Q E (some (v', b')) := by
    intro v' b' h' hs' hb'
    refine rwp_tracked (h'.rwp_linkBad hE.toErrs (by rwa [hs'.node]) ?_ (fun v'' h'' hs'' => ?_))
    · rw [hs'.node, hs'.files, hs'.cwds]
      exact hstay
    · rw [hs'.node] at hs''
      exact hbad v'' b' h'' ((hs'.withNode i _).trans hs'') hb'
  refine rwp_bind (rwp_tracked (h.rwp_nameiparent hE hdirs hcwd
    (fun v₁ _ h₁ hs₁ => hback v₁ b h₁ hs₁ (KeptBlocks.refl _ b))
    (fun dp d name v₁ hres hd h₁ hs₁ => ?_)))
  have hm : (dp, d) ∈ [(dp, d)] ∨ (dp, d) ∈ [(ip, i)] := Or.inl List.mem_cons_self
  have hd₁ : (v₁.node d).type = .dir := by rwa [hs₁.node]
  refine rwp_bind (rwp_tracked (h₁.rwp_ilock hE.toErrs hm (fun hf => ?_)
    (fun v₂ hdp _ h₂ hs₂ => ?_)))
  · rw [hd₁] at hf
    cases hf
  have hs := hs₁.trans hs₂
  have hd₂ : (v₂.node d).type = .dir := by rwa [hs.node]
  have hdir : DirOk sb (v₂.node d).bytes := by
    rw [hs.node]
    exact hdirs d hd
  have hparent : v.parentOf p (some new) = some d := by
    show (v.resolve p new true).map Prod.fst = some d
    rw [hres]
    rfl
  refine rwp_bind (h₂.rwp_dirlink_watched hdir hE.toErrs.noInodes List.mem_cons_self hm hd₂ hi
    (fun v₃ b₃ h₃ hs₃ hb₃ _ => ?_) (fun v₃ b₃ h₃ hl _ _ => ?_))
  · refine rwp_bind (rwp_tracked (h₃.rwp_iunlockput hdp
      (fun v₄ h₄ hs₄ => hback v₄ b₃ h₄ ((hs.trans hs₃).trans hs₄) ?_)))
    rw [hparent]
    exact hb₃
  · refine rwp_untracked (rwp_bind (h₃.rwp_iunlockput hdp (fun v₄ h₄ hs₄ => ?_)))
    refine rwp_bind (h₄.rwp_iputOwn hE.toErrs rfl (by simp) (fun v₅ h₅ hp₅ _ =>
      rwp_pure (fun b₅ => ?_)))
    have hs₄' := hl.view.trans hs₄
    have habsent := hl.absent
    rw [hs.node] at habsent
    refine hgood d name v₅ b₅ hres hd habsent h₅
      ((hs.kept.trans ⟨hs₄'.ftable, hs₄'.pipe, hs₄'.proc⟩).trans hp₅.kept) ?_
    have := hp₅.quiet
    rw [hs₄'.node, View.withNode_node, hs.node] at this
    exact this

/-- A failed call has changed no more than entries of the inode table and these blocks. -/
structure Failed (v : View) (d : Option Nat) (b : Nat × Nat → Nat) (v' : View)
    (b' : Nat × Nat → Nat) : Prop where
  inodes : Inodes v' [] [] [] []
  slots : SlotsOnly v v'
  blocks : KeptBlocks d b b'

theorem Failed.done {d : Option Nat} {b' : Nat × Nat → Nat} {op : NameOp} {v' : View}
    (h : Failed v d b v' b') : Done sb v p op v' :=
  Done.quiet h.inodes h.slots.kept h.slots.quiet

theorem Inodes.failed (h : Inodes v [] [] [] []) (d : Option Nat) (b : Nat × Nat → Nat) :
    Failed v d b v b :=
  ⟨h, SlotsOnly.refl v, KeptBlocks.refl d b⟩

theorem Inodes.rwp_sysLink_watched [LogErrs E] {old new : Nat} {Q : Int → Watch → Prop}
    (h : Inodes v [] [] [] []) (hE : PathErrs E v) (hdirs : Dirs sb v)
    (hcwd : (v.proc p).cwd ≠ none)
    (hfail : ∀ v' b', Failed v (v.parentOf p (argstr u new)) b v' b' → Q (-1) (some (v', b')))
    (hdone : ∀ v' b', Done sb v p (linkOp u old new) v' → Q 0 (some (v', b'))) :
    rwp (RepW sb) (sysLink sb p u old new) Q E (some (v, b)) := by
  refine rwp_watched_ok (fun hok => ?_)
  unfold sysLink
  unfold linkOp at hdone
  cases hold : argstr u old with
  | none => exact rwp_pure (hfail v b (h.failed _ b))
  | some old =>
    cases hnew : argstr u new with
    | none =>
      rw [hnew] at hfail
      exact rwp_pure (hfail v b (h.failed _ b))
    | some new =>
      rw [hnew] at hfail
      rw [hold, hnew] at hdone
      dsimp only at hdone ⊢
      refine rwp_transaction_watched (rwp_bind (rwp_tracked (h.rwp_namei hE hdirs hcwd
        (fun v₁ _ h₁ hs₁ => ?_) (fun ip i rest v₁ hres hfree h₁ hs₁ => ?_))))
      · exact rwp_pure (hfail v₁ b ⟨h₁, hs₁, KeptBlocks.refl _ b⟩)
      · have hm : (ip, i) ∈ [(ip, i)] ∨ (ip, i) ∈ [] := Or.inl List.mem_cons_self
        rw [← hs₁.node] at hfree
        refine rwp_bind (rwp_tracked (h₁.rwp_ilock hE.toErrs hm hfree
          (fun v₂ hip htype h₂ hs₂ => ?_)))
        have hs := hs₁.trans hs₂
        rw [hs₁.node] at htype
        refine rwp_bind (rwp_tracked (h₂.rwp_getInode List.mem_cons_self hm
          (fun x hx his => ?_)))
        rw [hs.node] at his
        refine rwp_ite (fun _ => ?_) (fun hdir => ?_)
        · exact rwp_bind (rwp_tracked (h₂.rwp_iunlockput hip (fun v₃ h₃ hs₃ =>
            rwp_pure (hfail v₃ b ⟨h₃, hs.trans hs₃, KeptBlocks.refl _ b⟩))))
        · rw [his.type] at hdir
          -- an inode without links is kept by others
          refine rwp_watched_ok (fun hok₂ => ?_)
          have hused : (v.node i).nlink = 0 → 0 < v.files ip + v.cwds ip := by
            intro hn
            have := h₂.used_of_orphan hok₂ List.mem_cons_self (by rwa [hs.node])
              (by rwa [hs.node])
            rwa [hs.files, hs.cwds] at this
          refine rwp_then (rwp_tracked (h₂.own.rwp_addNlink List.mem_cons_self
            (Or.inr List.mem_cons_self) (fun _ => Or.inr List.mem_cons_self) (fun h₃ => ?_)))
          refine rwp_bind (rwp_tracked (h₃.rwp_iunlock hip (fun v₄ h₄ hs₄ => ?_)))
          have hnode : v₄.node = addLinks v.node i 1 := by
            rw [hs₄.node, View.withNode_node, hs.node]
            rfl
          have hcancel : addLinks v₄.node i (-1) = v.node := by
            rw [hnode, addLinks_cancel (hok.nlink_short i)]
          have hsame : SameNames v.node v₄.node := by
            rw [hnode]
            exact SameNames.addLinks v.node i 1
          have hkept : Kept v v₄ := (hs.kept.trans (Kept.withNode ..)).trans hs₄.kept
          have hinum : ∀ jp, 0 < v.cwds jp → (v₄.slot jp).inum = (v.slot jp).inum :=
            fun jp hj => (hs₄.inum jp (by
              show 0 < v₂.cwds jp
              rwa [hs.cwds])).trans (hs.inum jp hj)
          have hresolve := hsame.resolve hkept.proc hinum p new true
          have hi := (hok.alloc i htype).2
          have := sb.ninodes_le
          rw [hx]
          refine h₄.rwp_linkNew (hsame.pathErrs hE) (hsame.dirs hdirs) (by rwa [hkept.proc])
            (by omega) (by rwa [(hsame i).1]) (fun hn => ?_) (fun v₅ b₅ h₅ hs₅ hb₅ => ?_)
            (fun d name v₅ b₅ hres₅ hd₅ habs₅ h₅ hk₅ hq₅ => ?_)
          · have hn' := congrFun hcancel i
            rw [addLinks, update_self] at hn'
            rw [View.files, View.cwds, hkept.ftable, hkept.proc]
            exact hused (hn' ▸ hn)
          · refine hfail v₅ b₅ ⟨h₅, ⟨hs₅.node.trans hcancel, hs₅.ftable.trans hkept.ftable,
              hs₅.pipe.trans hkept.pipe, hs₅.proc.trans hkept.proc, fun jp hj => ?_⟩, ?_⟩
            · refine (hs₅.inum jp ?_).trans (hinum jp hj)
              show 0 < v₄.cwds jp
              rwa [View.cwds, hkept.proc]
            · rw [View.parentOf, Option.bind_some] at hb₅ ⊢
              rwa [hresolve] at hb₅
          · rw [hresolve] at hres₅
            rw [(hsame d).1] at hd₅
            rw [(hsame d).2] at habs₅
            rw [hnode] at hq₅
            exact hdone v₅ b₅ ⟨h₅, hkept.trans hk₅, _,
              Change.link hres htype hdir hres₅ hd₅ habs₅, hq₅⟩

theorem Inodes.rwp_sysLink [LogErrs E] {old new : Nat} {Q : Int → View → Prop}
    (h : Inodes v [] [] [] []) (hE : PathErrs E v) (hdirs : Dirs sb v)
    (hcwd : (v.proc p).cwd ≠ none) (hQ : ∀ r v', Done sb v p (linkOp u old new) v' → Q r v') :
    rwp (Rep sb) (sysLink sb p u old new) Q E v :=
  rwp_of_watched (fun _ => h.rwp_sysLink_watched hE hdirs hcwd
    (fun v' b' hf => ⟨v', b', rfl, hQ _ v' hf.done⟩) (fun v' b' hd => ⟨v', b', rfl, hQ _ v' hd⟩))

end Link

/-! ## Unlink -/

section Unlink

variable {sb : Superblock} {E : Stop → Prop} {v : View} {p : ProcId} {ip dp : InodeId} {i d k : Nat}
  {b : Nat × Nat → Nat} {u : User}

theorem Quiet.addLinks {n n' : Nat → Node} (h : Quiet n n') (hi : n' i = n i) (δ : Int) :
    Quiet (addLinks n i δ) (addLinks n' i δ) := by
  intro j
  unfold Fs.addLinks
  by_cases hj : j = i
  · subst hj
    rw [update_self, update_self, hi]
    exact Node.Quiet.refl _
  · rw [update_of_ne hj, update_of_ne hj]
    exact h j

/-- The end of `unlink`, when the entry has been cleared: the counts go down. -/
theorem Inodes.rwp_unlinkCounts [LogErrs E] {c : Prop} [Decidable c] {Q : Int → View → Prop}
    (h : Inodes v [] [(dp, d), (ip, i)] [] [dp, ip]) (hE : Errs E) (hip : ip ≠ dp)
    (hQ : ∀ v', Inodes v' [] [] [] [] → Kept v v' →
      Quiet (addLinks (if c then addLinks v.node d (-1) else v.node) i (-1)) v'.node → Q 0 v') :
    rwp (Rep sb) (do
      if c then do
        setInode dp (addNlink (-1))
        iupdate sb dp
      else pure ()
      iunlockput sb dp
      setInode ip (addNlink (-1))
      iupdate sb ip
      iunlockput sb ip
      pure 0) Q E v := by
  have hdpip : dp ∉ [ip] := by simpa using Ne.symm hip
  -- both `iunlockput`s, with the count of `ip` in between
  have hrest : ∀ v₁ : View, Inodes v₁ [] [(dp, d), (ip, i)] [] [dp, ip] → Kept v v₁ →
      v₁.node = (if c then addLinks v.node d (-1) else v.node) →
      rwp (Rep sb) (do
        iunlockput sb dp
        setInode ip (addNlink (-1))
        iupdate sb ip
        iunlockput sb ip
        pure 0) Q E v₁ := by
    intro v₁ h₁ hk₁ hn₁
    refine rwp_bind (h₁.rwp_iunlockputOwn hE rfl hdpip (fun v₂ h₂ hp₂ hkeep => ?_))
    refine rwp_then (h₂.rwp_addNlink List.mem_cons_self (Or.inr List.mem_cons_self)
      (fun _ => Or.inr List.mem_cons_self) (fun h₃ => ?_))
    refine rwp_bind (h₃.rwp_iunlockputOwn hE rfl (by simp) (fun v₄ h₄ hp₄ _ => rwp_pure ?_))
    refine hQ v₄ h₄ (((hk₁.trans hp₂.kept).trans (Kept.withNode ..)).trans hp₄.kept) ?_
    rw [← hn₁]
    refine Quiet.trans (Quiet.addLinks hp₂.quiet (hkeep (ip, i) (Or.inr List.mem_cons_self)) _) ?_
    exact hp₄.quiet
  dsimp only
  refine rwp_ite (fun hdir => ?_) (fun hdir => ?_)
  · refine rwp_then (h.rwp_addNlink List.mem_cons_self (Or.inr List.mem_cons_self)
      (fun _ => Or.inr List.mem_cons_self) (fun h₁ => ?_))
    exact hrest _ h₁ (Kept.withNode ..) (by rw [if_pos hdir]; rfl)
  · exact hrest v h (Kept.refl v) (by rw [if_neg hdir])

/-- Clearing an entry of a locked directory always succeeds. -/
theorem Inodes.rwp_clearEntry [LogErrs E] {H O : List Hold} {L : List InodeId} {Q : Int → View → Prop}
    (h : Inodes v H O [] L) (hdp : dp ∈ L) (hm : (dp, d) ∈ H ∨ (dp, d) ∈ O)
    (hk : k < numEntries (v.node d).bytes)
    (hQ : Inodes (v.withNode d ((v.node d).withBytes (setEntry (v.node d).bytes k Dirent.empty)))
        H O [] L →
      Q DIRENT (v.withNode d ((v.node d).withBytes (setEntry (v.node d).bytes k Dirent.empty)))) :
    rwp (Rep sb) (writei sb dp (kernelSrc (List.replicate DIRENT 0)) (DIRENT * k) DIRENT) Q E v := by
  have hlt : DIRENT * k + DIRENT ≤ (v.node d).bytes.length := by
    simp only [numEntries, DIRENT, DIRSIZ] at *
    omega
  have hread : Readable (kernelSrc (List.replicate DIRENT 0)) Dirent.empty.encode := fun _ _ => rfl
  refine rwp_ok (fun hok => h.rwp_writei hdp hm (by decide) (fun hbad => ?_)
    (fun r bytes' hw h' => ?_))
  · have hsize := hok.size_le d
    have hcap : MAXFILE * BSIZE < 2 ^ 32 := by decide
    omega
  · obtain ⟨hb, hfull⟩ := hw.bytes _ hread (encode_length empty_ok)
    have hr' : r = DIRENT := by
      by_contra hne
      have := hw.le
      have := aligned_entry hw.aligned hw.le hne
      have := hfull (by omega)
      simp only [DIRENT, DIRSIZ] at *
      omega
    subst hr'
    rw [List.take_of_length_le (Nat.le_of_eq (encode_length empty_ok))] at hb
    subst hb
    exact hQ h'

theorem Inodes.rwp_unlinkEntry [LogErrs E] {Q : Int → Watch → Prop}
    (h : Inodes v [(ip, i), (dp, d)] [] [] [dp]) (hE : Errs E) (hdirs : Dirs sb v)
    (hk : k < numEntries (v.node d).bytes)
    (hfree : (v.node i).type = .free → E (.panic .ilockNoType))
    (hnlink : (v.node i).nlink < 1 → E (.panic .unlinkNlink))
    (hbusy : ∀ v', Inodes v' [] [] [] [] → SlotsOnly v v' → Q (-1) (some (v', b)))
    (hdone : ∀ v' b', i ≠ d → (v.node i).type ≠ .free → 1 ≤ (v.node i).nlink →
      ((v.node i).type = .dir → ∀ j, 2 ≤ j → j < numEntries (v.node i).bytes →
        (entry (v.node i).bytes j).inum = 0) → Inodes v' [] [] [] [] → Kept v v' →
      Quiet (unlinked v.node d k i) v'.node → Q 0 (some (v', b'))) :
    rwp (RepW sb) (unlinkEntry sb dp ip (DIRENT * k)) Q E (some (v, b)) := by
  have hmi : (ip, i) ∈ [(ip, i), (dp, d)] ∨ (ip, i) ∈ [] := Or.inl (by simp)
  have hmd : (dp, d) ∈ [(ip, i), (dp, d)] ∨ (dp, d) ∈ [] := Or.inl (by simp)
  refine rwp_watched_ok (fun hok => rwp_bind (rwp_tracked (h.rwp_ilock hE hmi hfree
    (fun v₁ hip htype h₁ hs₁ => ?_))))
  have hipdp : ip ≠ dp := by simpa using hip
  have hne : i ≠ d := by
    rintro rfl
    refine hipdp (hok.unique ip dp (h.ref_pos_of_mem hmi) (h.ref_pos_of_mem hmd) ?_)
    exact (h.held (ip, i) hmi).trans (h.held (dp, i) hmd).symm
  refine rwp_bind (rwp_tracked (h₁.rwp_getInode List.mem_cons_self hmi (fun x _ hx => ?_)))
  rw [hs₁.node] at hx
  refine rwp_ite (fun hlt => rwp_throw (hnlink (by rw [← hx.nlink]; exact hlt))) (fun hge => ?_)
  rw [hx.nlink] at hge
  have h₁' := h₁.own.own.permLocks (List.Perm.swap dp ip [])
  have hrest : ∀ busy : Bool, (busy = false → (v.node i).type = .dir → ∀ j, 2 ≤ j →
      j < numEntries (v.node i).bytes → (entry (v.node i).bytes j).inum = 0) →
      rwp (RepW sb) (if busy then do
          iunlockput sb ip
          iunlockput sb dp
          pure (-1)
        else do
          let r ← writei sb dp (kernelSrc (List.replicate DIRENT 0)) (DIRENT * k) DIRENT
          if r ≠ DIRENT then panic .unlinkWritei
          else do
            if x.type = .dir then do
              setInode dp (addNlink (-1))
              iupdate sb dp
            else pure ()
            iunlockput sb dp
            setInode ip (addNlink (-1))
            iupdate sb ip
            iunlockput sb ip
            pure 0) Q E (some (v₁, b)) := by
    intro busy hempty
    refine rwp_ite (fun _ => ?_) (fun hb => ?_)
    · refine rwp_bind (rwp_tracked (h₁.rwp_iunlockput hip (fun v₂ h₂ hs₂ => ?_)))
      refine rwp_bind (rwp_tracked (h₂.rwp_iunlockput (by simp) (fun v₃ h₃ hs₃ => rwp_pure ?_)))
      exact hbusy v₃ h₃ ((hs₁.trans hs₂).trans hs₃)
    · refine rwp_untracked (rwp_bind (h₁'.rwp_clearEntry List.mem_cons_self
        (Or.inr List.mem_cons_self) (by rw [hs₁.node]; exact hk)
        (fun h₂ => rwp_ite (fun hr => absurd rfl hr) (fun _ => ?_))))
      refine h₂.rwp_unlinkCounts hE hipdp (fun v₃ h₃ hk₃ hq₃ b₃ => ?_)
      refine hdone v₃ b₃ hne htype (by omega) (hempty (by simpa using hb)) h₃
        ((hs₁.kept.trans (Kept.withNode ..)).trans hk₃) ?_
      rw [View.withNode_node, hs₁.node, hx.type] at hq₃
      unfold unlinked
      split
      · next hdir =>
          rw [if_pos hdir] at hq₃
          exact hq₃
      · next hdir =>
          rw [if_neg hdir] at hq₃
          exact hq₃
  dsimp only
  refine rwp_ite (fun hdir => ?_) (fun hdir => ?_)
  · rw [hx.type] at hdir
    refine rwp_bind (rwp_tracked (h₁.rwp_isdirempty (by rw [hs₁.node]; exact hdirs i hdir)
      List.mem_cons_self hmi (fun e he => rwp_bind (rwp_pure (hrest (!e) (fun hb _ => ?_))))))
    rw [hs₁.node] at he
    exact he.1 (by simpa using hb)
  · rw [hx.type] at hdir
    exact rwp_bind (rwp_pure (hrest false (fun _ hd' => absurd hd' hdir)))

/-- The names "." and "..". -/
def IsDots (name : List UInt8) : Prop := namecmp name dot = true ∨ namecmp name dotdot = true

instance (name : List UInt8) : Decidable (IsDots name) :=
  inferInstanceAs (Decidable (_ ∨ _))

theorem isDots_congr {name name' : List UInt8} (h : namecmp name name' = true) :
    IsDots name ↔ IsDots name' := by
  have heq : cstr name = cstr name' := by simpa [namecmp] using h
  simp only [IsDots, namecmp, heq]

/-- Removing a name of an inode that has no links may end in `unlink: nlink < 1`. -/
def NoLinkErr (E : Stop → Prop) (node : Nat → Node) : Prop :=
  ∀ d k, (node d).type = .dir → k < numEntries (node d).bytes → (entry (node d).bytes k).inum ≠ 0 →
    ¬ IsDots (entry (node d).bytes k).name → (node (entry (node d).bytes k).inum).nlink < 1 →
    E (.panic .unlinkNlink)

/-- The path of a call. -/
def pathOp (u : User) (path : Nat) (op : List UInt8 → NameOp) : NameOp :=
  match argstr u path with
  | some path => op path
  | none => .nothing

theorem Inodes.rwp_sysUnlink_watched [LogErrs E] {path : Nat} {Q : Int → Watch → Prop}
    (h : Inodes v [] [] [] []) (hE : PathErrs E v) (hnl : NoLinkErr E v.node) (hdirs : Dirs sb v)
    (hcwd : (v.proc p).cwd ≠ none) (hfail : ∀ v', Failed v none b v' b → Q (-1) (some (v', b)))
    (hdone : ∀ v' b', Done sb v p (pathOp u path .unlink) v' → Q 0 (some (v', b'))) :
    rwp (RepW sb) (sysUnlink sb p u path) Q E (some (v, b)) := by
  unfold sysUnlink
  unfold pathOp at hdone
  cases hpath : argstr u path with
  | none => exact rwp_pure (hfail v (h.failed none b))
  | some path =>
    rw [hpath] at hdone
    dsimp only at hdone ⊢
    refine rwp_transaction_watched (rwp_bind (rwp_tracked (h.rwp_nameiparent hE hdirs hcwd
      (fun v₁ _ h₁ hs₁ => ?_) (fun dp d name v₁ hres hd h₁ hs₁ => ?_))))
    · exact rwp_pure (hfail v₁ ⟨h₁, hs₁, rfl⟩)
    · have hm : (dp, d) ∈ [(dp, d)] ∨ (dp, d) ∈ [] := Or.inl List.mem_cons_self
      refine rwp_bind (rwp_tracked (h₁.rwp_ilock hE.toErrs hm (fun hf => ?_)
        (fun v₂ hdp _ h₂ hs₂ => ?_)))
      · rw [hs₁.node, hd] at hf
        cases hf
      have hs := hs₁.trans hs₂
      have hback : ∀ v₃, Inodes v₃ [(dp, d)] [] [] [dp] → SlotsOnly v v₃ →
          rwp (RepW sb) (do iunlockput sb dp; pure (-1)) Q E (some (v₃, b)) := fun v₃ h₃ hs₃ =>
        rwp_bind (rwp_tracked (h₃.rwp_iunlockput hdp (fun v₄ h₄ hs₄ => rwp_pure
          (hfail v₄ ⟨h₄, hs₃.trans hs₄, rfl⟩))))
      refine rwp_ite (fun _ => hback v₂ h₂ hs) (fun hdots => ?_)
      have hd₂ : (v₂.node d).type = .dir := by rwa [hs.node]
      have hdir : DirOk sb (v₂.node d).bytes := by
        rw [hs.node]
        exact hdirs d hd
      refine rwp_bind (rwp_tracked (h₂.rwp_dirlookup hdir (fun _ => hE.noInodes)
        List.mem_cons_self hm hd₂ (fun _ => hback v₂ h₂ hs) (fun k ip v₃ hk h₃ hs₃ => ?_)))
      have hs' := hs.trans hs₃
      rw [hs.node] at hk h₃
      obtain ⟨hlt, hmatch⟩ := findEntry_some hk
      have hname : ¬ IsDots (entry (v.node d).bytes k).name :=
        fun hdots' => hdots ((isDots_congr hmatch.2).2 hdots')
      refine h₃.rwp_unlinkEntry hE.toErrs ?_ ?_ ?_ ?_ (fun v₄ h₄ hs₄ => ?_)
        (fun v₄ b₄ hne htype hnlink hempty h₄ hk₄ hq₄ => ?_)
      · intro j
        rw [hs'.node]
        exact hdirs j
      · rwa [hs'.node]
      · rw [hs'.node]
        exact hE.entry d k hd hlt hmatch.1
      · rw [hs'.node]
        exact hnl d k hd hlt hmatch.1 hname
      · exact hfail v₄ ⟨h₄, hs'.trans hs₄, rfl⟩
      · rw [hs'.node] at htype hnlink hempty hq₄
        exact hdone v₄ b₄ ⟨h₄, hs'.kept.trans hk₄, _,
          Change.unlink hres hd (fun h' => hdots (Or.inl h')) (fun h' => hdots (Or.inr h')) hk rfl
            hne htype hnlink hempty, hq₄⟩

theorem Inodes.rwp_sysUnlink [LogErrs E] {path : Nat} {Q : Int → View → Prop}
    (h : Inodes v [] [] [] []) (hE : PathErrs E v) (hnl : NoLinkErr E v.node) (hdirs : Dirs sb v)
    (hcwd : (v.proc p).cwd ≠ none) (hQ : ∀ r v', Done sb v p (pathOp u path .unlink) v' → Q r v') :
    rwp (Rep sb) (sysUnlink sb p u path) Q E v :=
  rwp_of_watched (fun _ => h.rwp_sysUnlink_watched hE hnl hdirs hcwd
    (fun v' hf => ⟨v', _, rfl, hQ _ v' hf.done⟩) (fun v' b' hd => ⟨v', b', rfl, hQ _ v' hd⟩))

end Unlink

/-! ## Create -/

section Create

variable {sb : Superblock} {E : Stop → Prop} {v : View} {p : ProcId} {ip dp : InodeId} {i d : Nat}
  {b : Nat × Nat → Nat} {type : FileType} {major minor : Int}

/-- The fields that `create` sets. -/
@[simps -fullyApplied] def Node.withFields (n : Node) (major minor nlink : Int) : Node :=
  { n with major := major, minor := minor, nlink := nlink }

theorem View.withNode_idem (v : View) (i : Nat) (x y : Node) :
    (v.withNode i x).withNode i y = v.withNode i y := by
  unfold View.withNode
  rw [update_idem]

theorem Inodes.rwp_createFail [LogErrs E] {Q : Option InodeId → Watch → Prop}
    (h : Inodes v [] [(ip, i), (dp, d)] [] [ip, dp]) (hE : Errs E) (hne : ip ≠ dp) (hid : i ≠ d)
    (hfiles : v.files ip = 0) (hcwds : v.cwds ip = 0)
    (hstay : (v.node d).nlink = 0 → 0 < v.files dp + v.cwds dp)
    (hQ : ∀ v', Inodes v' [] [] [] [] → SlotsOnly (v.withNode i Node.free) v' →
      Q none (some (v', withoutBlocks b i))) :
    rwp (RepW sb) (createFail sb dp ip) Q E (some (v, b)) := by
  have hm : ∀ {H O : List Hold}, (ip, i) ∈ H ∨ (ip, i) ∈ (ip, i) :: O := Or.inr List.mem_cons_self
  refine rwp_then (rwp_tracked (h.rwp_setFields (g := fun n => n.withFields n.major n.minor 0)
    List.mem_cons_self hm (fun _ => ⟨rfl, rfl, rfl, rfl⟩) (fun _ _ => rfl) (fun _ => rfl) rfl
    (fun _ => Or.inr List.mem_cons_self) (fun h₁ => ?_)))
  refine rwp_bind (h₁.rwp_iunlockputLast_watched hE (by simpa using hne)
    ⟨hfiles, hcwds, rfl, by rw [holds_cons, if_neg (Ne.symm hne)]; rfl⟩ ?_ (fun v₂ h₂ hs₂ => ?_))
  · rw [View.withNode_node, update_self]
    rfl
  · rw [View.withNode_idem] at hs₂
    refine rwp_bind (rwp_tracked (h₂.rwp_iunlockputStay rfl (by simp) ?_
      (fun v₃ h₃ hs₃ => rwp_pure (hQ v₃ h₃ (hs₂.trans hs₃)))))
    rw [hs₂.node, View.withNode_node, update_of_ne hid.symm, hs₂.files, hs₂.cwds]
    exact hstay

/-- The end of `create`: the new inode gets its name. -/
theorem Inodes.rwp_createLink [LogErrs E] {c : Prop} [Decidable c] {name : List UInt8}
    {Q : Option InodeId → Watch → Prop} (h : Inodes v [] [(ip, i), (dp, d)] [] [ip, dp])
    (hE : Errs E) (hne : ip ≠ dp) (hid : i ≠ d) (hd : (v.node d).type = .dir)
    (hdir : DirOk sb (v.node d).bytes) (hi : i < 2 ^ 16) (hfiles : v.files ip = 0)
    (hcwds : v.cwds ip = 0) (hstay : (v.node d).nlink = 0 → 0 < v.files dp + v.cwds dp)
    (hfail : ∀ v' b', Inodes v' [] [] [] [] → SlotsOnly (v.withNode i Node.free) v' →
      OnlyIndirect d b b' → (findEntry (v.node d).bytes name = none → ¬ v.Room sb b d) →
      Q none (some (v', withoutBlocks b' i)))
    (hdone : ∀ v' b', Inodes v' [] [(ip, i)] [] [ip] → Kept v v' → v.Room sb b d →
      Quiet (if c then addLinks (addEntry v.node d name i) d 1 else addEntry v.node d name i)
        v'.node → v'.node i = v.node i → Q (some ip) (some (v', b'))) :
    rwp (RepW sb) (do
      let ok ← dirlink sb dp name i
      if ok = false then createFail sb dp ip
      else do
        if c then do
          setInode dp (addNlink 1)
          iupdate sb dp
        else pure ()
        iunlockput sb dp
        pure (some ip)) Q E (some (v, b)) := by
  have hmd : ∀ {H : List Hold}, (dp, d) ∈ H ∨ (dp, d) ∈ [(ip, i), (dp, d)] := Or.inr (by simp)
  have hml : dp ∈ [ip, dp] := by simp
  refine rwp_bind (h.rwp_dirlink_watched hdir hE.noInodes hml hmd hd hi (fun v₁ b₁ h₁ hs₁ hb₁ hno => ?_)
    (fun v₁ b₁ h₁ hl _ hroom => ?_))
  · refine rwp_ite (fun _ => h₁.rwp_createFail hE hne hid (by rwa [hs₁.files]) (by rwa [hs₁.cwds])
      (by rwa [hs₁.node, hs₁.files, hs₁.cwds])
      (fun v₂ h₂ hs₂ => hfail v₂ b₁ h₂ ((hs₁.withNode i Node.free).trans hs₂) hb₁ hno))
      (fun hok => absurd rfl hok)
  · refine rwp_ite (fun hok => absurd hok (by decide)) (fun _ => rwp_untracked ?_)
    have hn₁ : v₁.node = addEntry v.node d name i := hl.view.node
    have hk₁ : Kept v v₁ := ⟨hl.view.ftable, hl.view.pipe, hl.view.proc⟩
    -- `iunlockput` of the directory, which is not the new inode
    have hrest : ∀ v₂ : View, Inodes v₂ [] [(ip, i), (dp, d)] [] [ip, dp] → Kept v v₂ →
        v₂.node = (if c then addLinks (addEntry v.node d name i) d 1
          else addEntry v.node d name i) →
        rwp (Rep sb) (do iunlockput sb dp; pure (some ip))
          (fun a v' => ∀ b', Q a (some (v', b'))) E v₂ := by
      intro v₂ h₂ hk₂ hn₂
      have h₂' := (h₂.perm (List.Perm.refl _) (List.Perm.swap (dp, d) (ip, i) [])).permLocks
        (List.Perm.swap dp ip [])
      refine rwp_bind (h₂'.rwp_iunlockputOwn hE rfl (by simpa using hne.symm)
        (fun v₃ h₃ hp₃ hkeep => rwp_pure (fun b₃ => ?_)))
      refine hdone v₃ b₃ h₃ (hk₂.trans hp₃.kept) hroom (by rw [← hn₂]; exact hp₃.quiet) ?_
      rw [hkeep (ip, i) (Or.inr List.mem_cons_self), hn₂]
      split
      · rw [addLinks, update_of_ne hid, addEntry, update_of_ne hid]
      · rw [addEntry, update_of_ne hid]
    dsimp only
    refine rwp_ite (fun hc => ?_) (fun hc => ?_)
    · refine rwp_then (h₁.rwp_addNlink hml hmd (fun _ => Or.inr (by simp)) (fun h₂ => ?_))
      refine hrest _ h₂ (hk₁.trans (Kept.withNode ..)) ?_
      rw [if_pos hc, View.withNode_node, hn₁]
      rfl
    · exact hrest v₁ h₁ hk₁ (by rw [if_neg hc, hn₁])

/-- The blocks of an inode that has been made and freed again are free. -/
theorem Gained.freed {b' b'' : Nat × Nat → Nat} (hfree : ∀ k, k.1 = i → b k = 0) (hid : i ≠ d)
    (h : Gained i b b') (h' : OnlyIndirect d b' b'') :
    OnlyIndirect d b (withoutBlocks b'' i) := by
  have hother : ∀ k, k ≠ (d, NDIRECT) → withoutBlocks b'' i k = b k := by
    intro k hk
    unfold withoutBlocks
    split
    · next he => exact (hfree k he).symm
    · next hne => rw [h'.rest k hk, h.other k hne]
  refine ⟨⟨fun k hk => hother k (fun he => hk (congrArg Prod.fst he)), fun k hk => ?_⟩, hother⟩
  by_cases he : k = (d, NDIRECT)
  · subst he
    have hb' : b' (d, NDIRECT) = b (d, NDIRECT) := h.other _ hid.symm
    rw [withoutBlocks, if_neg hid.symm, h'.keep _ (by rwa [hb']), hb']
  · exact hother k he

/-- There is an inode for a new file. -/
def View.HasInode (sb : Superblock) (v : View) : Prop :=
  ∃ i, 0 < i ∧ i < sb.ninodes ∧ (v.node i).type = .free

theorem Inodes.rwp_createNew [LogErrs E] {name : List UInt8} {Q : Option InodeId → Watch → Prop}
    (h : Inodes v [(dp, d)] [] [] [dp]) (hE : Errs E) (htype : type ≠ .free)
    (hd : (v.node d).type = .dir) (hdirs : Dirs sb v)
    (hnone : ∀ v' b', Inodes v' [] [] [] [] → SlotsOnly v v' → OnlyIndirect d b b' →
      (type ≠ .dir → findEntry (v.node d).bytes name = none → v.HasInode sb → ¬ v.Room sb b d) →
      Q none (some (v', b')))
    (hsome : ∀ ip i x v' b', (type ≠ .dir → v.Room sb b d) → 0 < i → i < sb.ninodes → (v.node i).type = .free → x.type = type →
      x.nlink = 1 → x.bytes = (if type = .dir then newDir i d else []) →
      Inodes v' [] [(ip, i)] [] [ip] → Kept v v' → Quiet (created v.node d name i x) v'.node →
      v'.node i = x → Q (some ip) (some (v', b'))) :
    rwp (RepW sb) (createNew sb dp name type major minor) Q E (some (v, b)) := by
  refine rwp_watched_ok (fun hok => rwp_watched_free (fun hblocks => rwp_bind (rwp_tracked
    (h.rwp_ialloc hE htype (fun hused => ?_) (fun ip i v₁ hi0 hi hfree hfiles hcwds hlock => ?_)))))
  · have hno : ¬ v.HasInode sb := by
      rintro ⟨i, hi0, hi, hfree⟩
      exact hused i hi0 hi hfree
    exact rwp_bind (rwp_tracked (h.rwp_iunlockput (by simp) (fun v₂ h₂ hs₂ => rwp_pure
      (hnone v₂ b h₂ hs₂ (OnlyIndirect.refl d b) (fun _ _ hi => absurd hi hno)))))
  have hid : i ≠ d := by
    rintro rfl
    rw [hd] at hfree
    cases hfree
  have hstay : (v.node d).nlink = 0 → 0 < v.files dp + v.cwds dp :=
    h.used_of_orphan hok List.mem_cons_self (by rw [hd]; decide)
  have hfree₀ : ∀ k : Nat × Nat, k.1 = i → b k = 0 := fun k hk => hblocks k (by rw [hk, hfree])
  have hdir := hdirs d hd
  have hi16 : i < 2 ^ 16 := Nat.lt_of_lt_of_le hi sb.ninodes_le
  have hd16 : d < 2 ^ 16 :=
    Nat.lt_of_lt_of_le (hok.alloc d (by rw [hd]; decide)).2 sb.ninodes_le
  refine rwp_bind (rwp_tracked (hlock _ (fun v₂ hip h₂ hs₂ => ?_)))
  have hipdp : ip ≠ dp := by simpa using hip
  have h₂ := h₂.own.perm (List.Perm.refl _) (List.Perm.swap (ip, i) (dp, d) [])
  have hmi : ∀ {H : List Hold}, (ip, i) ∈ H ∨ (ip, i) ∈ [(ip, i), (dp, d)] := Or.inr (by simp)
  have hmd : ∀ {H : List Hold}, (dp, d) ∈ H ∨ (dp, d) ∈ [(ip, i), (dp, d)] := Or.inr (by simp)
  refine rwp_then (rwp_tracked (h₂.rwp_setFields
    (g := fun n => n.withFields (short major) (short minor) 1) List.mem_cons_self hmi
    (fun _ => ⟨rfl, rfl, rfl, rfl⟩) (fun _ _ => rfl) (fun _ => rfl) rfl
    (fun _ => Or.inr List.mem_cons_self) (fun h₃ => ?_)))
  -- from here on the state is that before, with a new node
  have hundo : ∀ x (w w' : View), SlotsOnly (v.withNode i x) w →
      SlotsOnly (w.withNode i Node.free) w' → SlotsOnly v w' := by
    intro x w w' hw hw'
    have hsame : v.withNode i Node.free = v := by
      unfold View.withNode
      rw [← hok.free i hfree, update_eq_self]
    have := (hw.withNode i Node.free).trans hw'
    rwa [View.withNode_idem, hsame] at this
  have htables : ∀ x (w : View), SlotsOnly (v.withNode i x) w → w.files ip = 0 ∧ w.cwds ip = 0 ∧
      w.node d = v.node d ∧ ((v.node d).nlink = 0 → 0 < w.files dp + w.cwds dp) := by
    intro x w hw
    have hwd : w.node d = v.node d := by
      rw [hw.node, View.withNode_node, update_of_ne hid.symm]
    rw [hw.files, hw.cwds, hw.files, hw.cwds]
    exact ⟨hfiles, hcwds, hwd, hstay⟩
  have hfail : ∀ x (w : View) b₁, type = .dir → Inodes w [] [(ip, i), (dp, d)] [] [ip, dp] →
      SlotsOnly (v.withNode i x) w → Gained i b b₁ →
      rwp (RepW sb) (createFail sb dp ip) Q E (some (w, b₁)) := by
    intro x w b₁ htd hw hs hg
    obtain ⟨hf, hc, hwd, hst⟩ := htables x w hs
    refine hw.rwp_createFail hE hipdp hid hf hc (by rwa [hwd]) (fun v' h' hs' =>
      hnone v' _ h' (hundo x w v' hs hs') (hg.freed hfree₀ hid (OnlyIndirect.refl d b₁))
        (fun hnd => absurd htd hnd))
  have htail : ∀ x (w : View) b₁, Inodes w [] [(ip, i), (dp, d)] [] [ip, dp] →
      SlotsOnly (v.withNode i x) w → Gained i b b₁ → (type ≠ .dir → b₁ = b) → x.type = type →
      x.nlink = 1 → x.bytes = (if type = .dir then newDir i d else []) →
      rwp (RepW sb) (do
        let ok ← dirlink sb dp name i
        if ok = false then createFail sb dp ip
        else do
          if type = .dir then do
            setInode dp (addNlink 1)
            iupdate sb dp
          else pure ()
          iunlockput sb dp
          pure (some ip)) Q E (some (w, b₁)) := by
    intro x w b₁ hw hs hg hb₁ hx1 hx2 hx3
    obtain ⟨hf, hc, hwd, hst⟩ := htables x w hs
    have hroom : type ≠ .dir → (w.Room sb b₁ d ↔ v.Room sb b d) := fun hnd => by
      rw [View.Room, View.Room, hwd, hb₁ hnd]
    have hn : w.node = update v.node i x := hs.node
    have hwi : w.node i = x := by rw [hn, update_self]
    have hk : Kept v w := ⟨hs.ftable, hs.pipe, hs.proc⟩
    refine hw.rwp_createLink hE hipdp hid (by rwa [hwd]) (by rwa [hwd]) hi16 hf hc (by rwa [hwd])
      (fun v' b' h' hs' hb' hno => hnone v' _ h' (hundo x w v' hs hs') (hg.freed hfree₀ hid hb')
        (fun hnd habsent _ => mt (hroom hnd).2 (hno (by rwa [hwd]))))
      (fun v' b' h' hk' hr' hq' hkeep => ?_)
    refine hsome ip i x v' b' (fun hnd => (hroom hnd).1 hr') hi0 hi hfree hx1 hx2 hx3 h' (hk.trans hk') ?_ (hkeep.trans hwi)
    rw [hn] at hq'
    unfold created
    rwa [hx1]
  have hs₃ : SlotsOnly (v.withNode i ((Node.fresh type).withFields (short major) (short minor) 1))
      (v₂.withNode i ((v₂.node i).withFields (short major) (short minor) 1)) := by
    have := hs₂.withNode i ((v₂.node i).withFields (short major) (short minor) 1)
    rw [View.withNode_idem, hs₂.node, View.withNode_node, update_self] at this
    rwa [hs₂.node, View.withNode_node, update_self]
  generalize v₂.withNode i ((v₂.node i).withFields (short major) (short minor) 1) = v₃ at h₃ hs₃
  refine rwp_bind (rwp_tracked (h₃.rwp_getInode List.mem_cons_self hmi (fun xi hxi _ => ?_)))
  refine rwp_bind (rwp_tracked (h₃.rwp_getInode (by simp) hmd (fun xd hxd _ => ?_)))
  rw [hxi, hxd]
  dsimp only
  refine rwp_ite (fun hisdir => ?_) (fun hnotdir => ?_)
  · have hx₀ : v₃.node i = (Node.fresh type).withFields (short major) (short minor) 1 := by
      rw [hs₃.node, View.withNode_node, update_self]
    have hbytes₀ : (v₃.node i).bytes = [] := by rw [hx₀]; rfl
    have hde := dirent_ok hi16 dot
    refine rwp_bind (h₃.rwp_dirlink_watched (by rw [hbytes₀]; exact dirOk_nil sb) hE.noInodes
      List.mem_cons_self hmi (by rw [hx₀]; exact hisdir) hi16 (fun v₄ b₄ h₄ hs₄ hb₄ _ => ?_)
      (fun v₄ b₄ h₄ hl₄ hb₄ _ => ?_))
    · refine rwp_ite (fun hok' => absurd hok' (by decide)) (fun _ => rwp_bind (rwp_pure
        (rwp_ite (fun _ => ?_) (fun hok' => absurd rfl hok'))))
      exact hfail _ v₄ b₄ hisdir h₄ (hs₃.trans hs₄) hb₄.toGained
    · have hs₄ : SlotsOnly (v.withNode i (((Node.fresh type).withFields (short major) (short minor)
          1).withBytes (setEntry [] 0 { inum := i, name := strncpy dot }))) v₄ := by
        have := (hs₃.withNode i ((v₃.node i).withBytes (setEntry (v₃.node i).bytes
          (freeEntry (v₃.node i).bytes) { inum := i, name := strncpy dot }))).trans hl₄.view
        rwa [View.withNode_idem, hbytes₀, freeEntry_nil, hx₀] at this
      have hx₄ : v₄.node i = ((Node.fresh type).withFields (short major) (short minor) 1).withBytes
          (setEntry [] 0 { inum := i, name := strncpy dot }) := by
        rw [hs₄.node, View.withNode_node, update_self]
      have hbytes₄ : (v₄.node i).bytes = setEntry [] 0 { inum := i, name := strncpy dot } := by
        rw [hx₄]
        rfl
      refine rwp_ite (fun _ => ?_) (fun hok' => absurd rfl hok')
      refine rwp_bind (h₄.rwp_dirlink_watched (by
          rw [hbytes₄]
          exact (dirOk_nil sb).setEntry hde (Nat.zero_le _) hi) hE.noInodes List.mem_cons_self hmi
        (by rw [hx₄]; exact hisdir) hd16 (fun v₅ b₅ h₅ hs₅ hb₅ _ => ?_)
        (fun v₅ b₅ h₅ hl₅ hb₅ _ => ?_))
      · refine rwp_ite (fun _ => ?_) (fun hok' => absurd rfl hok')
        exact hfail _ v₅ b₅ hisdir h₅ (hs₄.trans hs₅) (hb₄.trans hb₅.toGained)
      · refine rwp_ite (fun hok' => absurd hok' (by decide)) (fun _ => ?_)
        have hfreeEntry : freeEntry (v₄.node i).bytes = 1 := by
          rw [hbytes₄]
          exact freeEntry_single hde (Nat.ne_of_gt hi0)
        refine htail ((v₄.node i).withBytes (newDir i d)) v₅ b₅ h₅ ?_ (hb₄.trans hb₅)
          (fun hnd => absurd hisdir hnd) ?_ ?_ ?_
        · have := (hs₄.withNode i ((v₄.node i).withBytes (setEntry (v₄.node i).bytes
            (freeEntry (v₄.node i).bytes) { inum := d, name := strncpy dotdot }))).trans hl₅.view
          rw [View.withNode_idem, hfreeEntry, hbytes₄] at this
          exact this
        · rw [hx₄]
          rfl
        · rw [hx₄]
          rfl
        · rw [if_pos hisdir]
          rfl
  · refine rwp_bind (rwp_pure (rwp_ite (fun hok' => absurd hok' (by decide)) (fun _ => ?_)))
    exact htail _ v₃ b h₃ hs₃ (Gained.refl i b) (fun _ => rfl) rfl rfl
      (by rw [if_neg hnotdir]; rfl)

/-- The path names nothing in a directory that is there, and there are an inode for a new file and
    room for its entry. -/
def View.CanCreate (sb : Superblock) (v : View) (u : Nat × Nat → Nat) (p : ProcId)
    (path : List UInt8) : Prop :=
  ∃ d name, v.resolve p path true = some (d, name) ∧ findEntry (v.node d).bytes name = none ∧
    v.HasInode sb ∧ v.Room sb u d

/-- The inode `i` is a new one. -/
structure Made (v v' : View) (type : FileType) (i : Nat) : Prop where
  free : (v.node i).type = .free
  type : (v'.node i).type = type
  nlink : (v'.node i).nlink = 1

/-- `create` gives a locked inode: a new one, or a file that has been there already. -/
theorem Inodes.rwp_create_watched [LogErrs E] {path : List UInt8}
    {Q : Option InodeId → Watch → Prop} (h : Inodes v [] [] [] []) (hE : PathErrs E v)
    (hdirs : Dirs sb v) (hcwd : (v.proc p).cwd ≠ none) (htype : type ≠ .free)
    (hnone : ∀ v' b', Failed v (v.parentOf p (some path)) b v' b' →
      (type ≠ .dir → ¬ v.CanCreate sb b p path) → Q none (some (v', b')))
    (hold : ∀ ip i v', ¬ v.CanCreate sb b p path → type = .file → ((v.node i).type = .file ∨ (v.node i).type = .device) →
      Inodes v' [(ip, i)] [] [] [ip] → SlotsOnly v v' → Q (some ip) (some (v', b)))
    (hnew : ∀ ip i n v' b', (type ≠ .dir → v.CanCreate sb b p path) → Change sb v p (.create path type) n →
      Quiet n v'.node → Inodes v' [] [(ip, i)] [] [ip] → Kept v v' → Made v v' type i →
      Q (some ip) (some (v', b'))) :
    rwp (RepW sb) (create sb p path type major minor) Q E (some (v, b)) := by
  refine rwp_bind (rwp_tracked (h.rwp_nameiparent hE hdirs hcwd (fun v₁ hres h₁ hs₁ => ?_)
    (fun dp d name v₁ hres hd h₁ hs₁ => ?_)))
  · refine rwp_pure (hnone v₁ b ⟨h₁, hs₁, KeptBlocks.refl _ b⟩ (fun _ => ?_))
    rintro ⟨d, name, hd, -⟩
    exact absurd (hd.symm.trans hres) (Option.some_ne_none _)
  have hm : (dp, d) ∈ [(dp, d)] ∨ (dp, d) ∈ [] := Or.inl List.mem_cons_self
  refine rwp_bind (rwp_tracked (h₁.rwp_ilock hE.toErrs hm (fun hf => ?_)
    (fun v₂ hdp _ h₂ hs₂ => ?_)))
  · rw [hs₁.node, hd] at hf
    cases hf
  have hs := hs₁.trans hs₂
  have hd₂ : (v₂.node d).type = .dir := by rwa [hs.node]
  have hdir : DirOk sb (v₂.node d).bytes := by
    rw [hs.node]
    exact hdirs d hd
  refine rwp_bind (rwp_tracked (h₂.rwp_dirlookup hdir (fun _ => hE.noInodes) List.mem_cons_self hm
    hd₂ (fun habsent => ?_) (fun k ip v₃ hk h₃ hs₃ => ?_)))
  · -- there is no such name yet
    rw [hs.node] at habsent
    have hinode : v₂.HasInode sb ↔ v.HasInode sb := by
      rw [View.HasInode, hs.node]
      exact Iff.rfl
    have hroom : v₂.Room sb b d ↔ v.Room sb b d := by
      rw [View.Room, View.Room, hs.node]
    refine h₂.rwp_createNew hE.toErrs htype hd₂ (fun j => by rw [hs.node]; exact hdirs j)
      (fun v₃ b₃ h₃ hs₃ hb₃ hno => hnone v₃ b₃ ⟨h₃, hs.trans hs₃, ?_⟩ ?_)
      (fun ip i x v₃ b₃ hr₃ hi0 hi hfree hx1 hx2 hx3 h₃ hk₃ hq₃ ht₃ => ?_)
    · rw [View.parentOf, Option.bind_some, hres]
      exact hb₃
    · rintro hnd ⟨d', name', hres', _, hi, hr⟩
      cases hres.symm.trans hres'
      exact hno hnd (by rwa [hs.node]) (hinode.2 hi) (hroom.2 hr)
    · rw [hs.node] at hfree hq₃
      exact hnew ip i _ v₃ b₃
        (fun hnd => ⟨d, name, hres, habsent, ⟨i, hi0, hi, hfree⟩, hroom.1 (hr₃ hnd)⟩)
        (Change.create hres hd habsent hi0 hi hfree hx1 htype hx2 hx3) hq₃ h₃
        (hs.kept.trans hk₃) ⟨hfree, ht₃ ▸ hx1, ht₃ ▸ hx2⟩
  · have hs' := hs.trans hs₃
    rw [hs.node] at hk h₃
    obtain ⟨hlt, hmatch⟩ := findEntry_some hk
    have hthere : ¬ v.CanCreate sb b p path := by
      rintro ⟨d', name', hres', habsent, -⟩
      cases hres.symm.trans hres'
      exact absurd (hk.symm.trans habsent) (Option.some_ne_none k)
    generalize hi : (entry (v.node d).bytes k).inum = i at h₃
    have h₃' := h₃.perm (List.Perm.swap (dp, d) (ip, i) []) (List.Perm.refl _)
    refine rwp_bind (rwp_tracked (h₃'.rwp_iunlockput hdp (fun v₄ h₄ hs₄ => ?_)))
    have hs₄' := hs'.trans hs₄
    have hmi : (ip, i) ∈ [(ip, i)] ∨ (ip, i) ∈ [] := Or.inl List.mem_cons_self
    refine rwp_bind (rwp_tracked (h₄.rwp_ilock hE.toErrs hmi (fun hf => ?_)
      (fun v₅ hip _ h₅ hs₅ => ?_)))
    · rw [hs₄'.node, ← hi] at hf
      exact hE.entry d k hd hlt hmatch.1 hf
    have hs₅' := hs₄'.trans hs₅
    refine rwp_bind (rwp_tracked (h₅.rwp_getInode List.mem_cons_self hmi (fun x _ hx => ?_)))
    refine rwp_ite (fun hfile => rwp_pure ?_) (fun _ => ?_)
    · rw [hx.type, hs₅'.node] at hfile
      exact hold ip i v₅ hthere hfile.1 hfile.2 h₅ hs₅'
    · exact rwp_bind (rwp_tracked (h₅.rwp_iunlockput hip (fun v₆ h₆ hs₆ => rwp_pure
        (hnone v₆ b ⟨h₆, hs₅'.trans hs₆, KeptBlocks.refl _ b⟩ (fun _ => hthere)))))

theorem Inodes.rwp_makeInode_watched [LogErrs E] {u : User} {path : Nat} {Q : Int → Watch → Prop}
    (h : Inodes v [] [] [] []) (hE : PathErrs E v) (hdirs : Dirs sb v)
    (hcwd : (v.proc p).cwd ≠ none) (htype : type ≠ .free)
    (hfail : ∀ v' b', Failed v (v.parentOf p (argstr u path)) b v' b' → Q (-1) (some (v', b')))
    (hdone : ∀ v' b', Done sb v p (pathOp u path (.create · type)) v' → Q 0 (some (v', b'))) :
    rwp (RepW sb) (makeInode sb p u path type major minor) Q E (some (v, b)) := by
  unfold makeInode
  unfold pathOp at hdone
  cases hpath : argstr u path with
  | none =>
    rw [hpath] at hfail
    exact rwp_pure (hfail v b (h.failed _ b))
  | some path =>
    rw [hpath] at hfail hdone
    dsimp only at hdone ⊢
    have hput : ∀ ip i n (v₁ : View) b₁, Change sb v p (.create path type) n →
        Quiet n v₁.node → Inodes v₁ [] [(ip, i)] [] [ip] → Kept v v₁ →
        rwp (RepW sb) (do iunlockput sb ip; pure 0) Q E (some (v₁, b₁)) := by
      intro ip i n v₁ b₁ hn hq₁ h₁ hk₁
      exact rwp_untracked (rwp_bind (h₁.rwp_iunlockputOwn hE.toErrs rfl (by simp)
        (fun v₂ h₂ hp₂ _ => rwp_pure (fun b₂ =>
          hdone v₂ b₂ ⟨h₂, hk₁.trans hp₂.kept, n, hn, hq₁.trans hp₂.quiet⟩))))
    exact rwp_transaction_watched (rwp_bind (h.rwp_create_watched hE hdirs hcwd htype
      (fun v₁ b₁ hf _ => rwp_pure (hfail v₁ b₁ hf))
      (fun ip i v₁ _ _ _ h₁ hs₁ => hput ip i v.node v₁ b (Change.none _) hs₁.quiet h₁.own hs₁.kept)
      (fun ip i n v₁ b₁ _ hn hq₁ h₁ hk₁ _ => hput ip i n v₁ b₁ hn hq₁ h₁ hk₁)))

theorem Inodes.rwp_makeInode [LogErrs E] {u : User} {path : Nat} {Q : Int → View → Prop}
    (h : Inodes v [] [] [] []) (hE : PathErrs E v) (hdirs : Dirs sb v)
    (hcwd : (v.proc p).cwd ≠ none) (htype : type ≠ .free)
    (hQ : ∀ r v', Done sb v p (pathOp u path (.create · type)) v' → Q r v') :
    rwp (Rep sb) (makeInode sb p u path type major minor) Q E v :=
  rwp_of_watched (fun _ => h.rwp_makeInode_watched hE hdirs hcwd htype
    (fun v' b' hf => ⟨v', b', rfl, hQ _ v' hf.done⟩) (fun v' b' hd => ⟨v', b', rfl, hQ _ v' hd⟩))

end Create

end Xv6.Fs
