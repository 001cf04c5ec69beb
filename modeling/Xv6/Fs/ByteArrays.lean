import Mathlib.Algebra.Ring.Nat
import Xv6.Fs.Boot
import Xv6.Fs.LogRoom

set_option autoImplicit false

/-! # Inodes are byte arrays

Callers of `readi`, `writei` and `itrunc` may think of the inodes as a map from inode numbers to
lists of bytes. `Op.Spec` says what each function does to such a map; `inodes_refine_bytes` says that
the code does nothing else, for every sequence of calls on locked inodes from every consistent
state, up to a panic of `log_write`. -/

namespace Xv6.Fs

open Wp Function

/-! ## The calls -/

/-- A call on an inode that the caller has locked. -/
inductive Op where
  | writei (ip : InodeId) (src : Nat → Option UInt8) (off n : Nat)
  | readi (ip : InodeId) (dst : Nat → Bool) (off n : Nat)
  | itrunc (ip : InodeId)

/-- What a call returns, what it copies out, and whether it leaves no free block on the disk. -/
structure Op.Result where
  ret : Int
  bytes : List UInt8
  full : Bool

/-- All blocks are in use, so that `balloc` returns 0. -/
def State.full (sb : Superblock) (s : State) : Bool := (List.range sb.size).all s.bitmap

def Op.exec (sb : Superblock) (op : Op) : FsM Op.Result := do
  let (ret, bytes) ← match op with
    | .writei ip src off n => do
      let r ← Fs.writei sb ip src off n
      pure (r, [])
    | .readi ip dst off n => Fs.readi sb ip dst off n
    | .itrunc ip => do
      Fs.itrunc sb ip
      pure (0, [])
  let s ← get
  pure { ret := ret, bytes := bytes, full := s.full sb }

/-- The calls of a list, one after the other. -/
def execAll (sb : Superblock) : List Op → FsM (List Op.Result)
  | [] => pure []
  | op :: ops => do
    let r ← op.exec sb
    let rs ← execAll sb ops
    pure (r :: rs)

def Op.ip : Op → InodeId
  | .writei ip _ _ _ => ip
  | .readi ip _ _ _ => ip
  | .itrunc ip => ip

/-- The buffer of the call can be read or written; the lengths are `uint`s. -/
def Op.BufferOk : Op → Prop
  | .writei _ src off n => off < 2 ^ 32 ∧ n < 2 ^ 32 ∧ ∀ k, k < n → (src k).isSome
  | .readi _ dst off n => off < 2 ^ 32 ∧ n < 2 ^ 32 ∧ ∀ k, k < n → dst k = true
  | .itrunc _ => True

/-- `ilock` has returned for this inode. -/
def State.Locked (s : State) (ip : InodeId) : Prop :=
  0 < (s.itable ip).ref ∧ (s.itable ip).locked = true ∧ (s.itable ip).valid = true

/-! ## The specification -/

/-- Inode numbers to contents. -/
abbrev Contents : Type := Nat → List UInt8

/-- The first `n` bytes behind a source. -/
def sourceBytes (src : Nat → Option UInt8) (n : Nat) : List UInt8 :=
  (List.range n).map fun k => (src k).getD 0

/-- `writei` refuses to leave a hole, to overflow or to make the file too long. -/
def Refused (old : List UInt8) (off n : Nat) : Prop :=
  old.length < off ∨ 2 ^ 32 ≤ off + n ∨ MAXFILE * BSIZE < off + n

/-- What a call on the inode `i` does to the files. -/
inductive Op.Spec (i : Nat) (m : Contents) : Op → Op.Result → Contents → Prop where
  | refused (ip : InodeId) (src : Nat → Option UInt8) (off n : Nat) (full : Bool)
      (h : Refused (m i) off n) :
      Op.Spec i m (.writei ip src off n) { ret := -1, bytes := [], full := full } m
  | written (ip : InodeId) (src : Nat → Option UInt8) (off n r : Nat) (full : Bool)
      (h : ¬ Refused (m i) off n) (hr : r ≤ n) (hfull : r < n → full = true) :
      Op.Spec i m (.writei ip src off n) { ret := r, bytes := [], full := full }
        (update m i (writeBytes (m i) off (sourceBytes src r)))
  | read (ip : InodeId) (dst : Nat → Bool) (off n : Nat) (full : Bool) (bytes : List UInt8)
      (h : bytes = if off + n < 2 ^ 32 then readBytes (m i) off n else []) :
      Op.Spec i m (.readi ip dst off n) { ret := bytes.length, bytes := bytes, full := full } m
  | truncated (ip : InodeId) (full : Bool) :
      Op.Spec i m (.itrunc ip) { ret := 0, bytes := [], full := full } (update m i [])

/-- What the calls of a list do to the files; `inum` tells which inode is where in the table. -/
inductive Specs (inum : InodeId → Nat) : Contents → List Op → List Op.Result → Contents → Prop where
  | nil (m : Contents) : Specs inum m [] [] m
  | cons {m m' m'' : Contents} {op : Op} {ops : List Op} {r : Op.Result} {rs : List Op.Result}
      (h : op.Spec (inum op.ip) m r m') (hs : Specs inum m' ops rs m'') :
      Specs inum m (op :: ops) (r :: rs) m''

/-- The contents of the inodes; a free one has none. -/
def State.files (sb : Superblock) (s : State) : Contents := fun i => (s.node sb i).bytes

/-! ## The code meets the specification -/

variable {sb : Superblock} {s s' : State}

theorem sourceBytes_length (src : Nat → Option UInt8) (n : Nat) :
    (sourceBytes src n).length = n := by
  simp [sourceBytes]

theorem sourceBytes_take (src : Nat → Option UInt8) {r n : Nat} (h : r ≤ n) :
    (sourceBytes src n).take r = sourceBytes src r := by
  unfold sourceBytes
  rw [← List.map_take, List.take_range, Nat.min_eq_left h]

theorem readable_sourceBytes {src : Nat → Option UInt8} {n : Nat}
    (h : ∀ k, k < n → (src k).isSome) : Readable src (sourceBytes src n) := by
  intro k hk
  rw [sourceBytes_length] at hk
  obtain ⟨c, hc⟩ := Option.isSome_iff_exists.1 (h k hk)
  simp [sourceBytes, List.getElem?_range hk, hc]

theorem full_of_bitmap (h : ∀ b, b < sb.size → s.bitmap b = true) : s.full sb = true :=
  List.all_eq_true.2 (fun b hb => h b (List.mem_range.1 hb))

/-- Where the inodes are in the table, and which of them are locked, does not change. -/
def SameSlots (s s' : State) : Prop := ∀ ip, (s'.itable ip).slot = (s.itable ip).slot

theorem SameSlots.locked (h : SameSlots s s') {ip : InodeId} (hl : s.Locked ip) : s'.Locked ip := by
  have hslot := h ip
  refine ⟨?_, ?_, ?_⟩
  · rw [show (s'.itable ip).ref = (s.itable ip).ref from congrArg Slot.ref hslot]
    exact hl.1
  · rw [show (s'.itable ip).locked = (s.itable ip).locked from congrArg Slot.locked hslot]
    exact hl.2.1
  · rw [show (s'.itable ip).valid = (s.itable ip).valid from congrArg Slot.valid hslot]
    exact hl.2.2

theorem SameSlots.inum (h : SameSlots s s') :
    (fun ip => (s'.itable ip).inum) = fun ip => (s.itable ip).inum :=
  funext fun ip => congrArg Slot.inum (h ip)

/-- A state that looks like another one with new contents of an inode. -/
theorem Rep.files_withBytes {ip : InodeId} {bytes : List UInt8}
    (h : Rep sb ((s.view sb).withNode (s.itable ip).inum
      ((s.node sb (s.itable ip).inum).withBytes bytes)) s') :
    s'.files sb = update (s.files sb) (s.itable ip).inum bytes := by
  have hnode : s'.node sb = update (s.node sb) (s.itable ip).inum
      ((s.node sb (s.itable ip).inum).withBytes bytes) := congrArg View.node h.2
  funext k
  unfold State.files
  rw [hnode]
  by_cases hk : k = (s.itable ip).inum
  · subst hk
    rw [update_self, update_self]
    rfl
  · rw [update_of_ne hk, update_of_ne hk]

theorem Rep.sameSlots {i : Nat} {n : Node} (h : Rep sb ((s.view sb).withNode i n) s') :
    SameSlots s s' := fun ip => congrFun (congrArg View.slot h.2) ip

/-- What one call does: its result and the new state. -/
def Op.Post (sb : Superblock) (op : Op) (s : State) (r : Op.Result) (s' : State) : Prop :=
  Good sb s' ∧ SameSlots s s' ∧ op.Spec (s.itable op.ip).inum (s.files sb) r (s'.files sb)

theorem exec_writei {ip : InodeId} {src : Nat → Option UInt8} {off n : Nat} (hg : Good sb s)
    (hl : s.Locked ip) (hb : (Op.writei ip src off n).BufferOk) :
    wp ((Op.writei ip src off n).exec sb) ((Op.writei ip src off n).Post sb s) LogPanic s := by
  obtain ⟨hr, -, hv⟩ := hl
  obtain ⟨hoff, hn, hsrc⟩ := hb
  have hrep : Rep sb (s.view sb) s := ⟨hg, rfl⟩
  have hlen : (s.files sb (s.itable ip).inum).length = (s.itable ip).size := by
    show (s.node sb (s.itable ip).inum).bytes.length = _
    rw [hg.node_eq hr hv]
    exact content_length _ _
  have href : Refused (s.files sb (s.itable ip).inum) off n ↔
      (s.itable ip).size < off ∨ 2 ^ 32 ≤ off + n ∨ MAXFILE * BSIZE < off + n := by
    unfold Refused
    rw [hlen]
  have hread := readable_sourceBytes hsrc
  have hslen := sourceBytes_length src n
  unfold Op.exec
  simp only [wp_bind]
  refine wp_writei (hg.ready hr hv) hn (fun hc => ?_) (fun r s' hoff' hno hmax hw => ?_)
  · simp only [wp_get, wp_pure]
    exact ⟨hg, fun _ => rfl, .refused ip src off n _ (href.2 hc)⟩
  · simp only [wp_get, wp_pure]
    have hrep' := hrep.written hr hv hw
    rw [hw.content_eq _ hread hslen, sourceBytes_take src hw.le] at hrep'
    refine ⟨hrep'.1, hrep'.sameSlots, ?_⟩
    have hfiles := hrep'.files_withBytes
    rw [hfiles]
    have hbytes : content s.data (s.itable ip).toDinode = s.files sb (s.itable ip).inum := by
      show _ = (s.node sb (s.itable ip).inum).bytes
      rw [hg.node_eq hr hv]
      rfl
    rw [hbytes]
    exact .written ip src off n r _ (fun h => by have := href.1 h; omega) hw.le
      (fun hlt => full_of_bitmap (hw.full _ hread hslen hlt).2)

theorem exec_readi {ip : InodeId} {dst : Nat → Bool} {off n : Nat} (hg : Good sb s)
    (hl : s.Locked ip) (hb : (Op.readi ip dst off n).BufferOk) :
    wp ((Op.readi ip dst off n).exec sb) ((Op.readi ip dst off n).Post sb s) LogPanic s := by
  obtain ⟨hr, -, hv⟩ := hl
  obtain ⟨hoff, hn, hdst⟩ := hb
  unfold Op.exec
  simp only [wp_bind]
  refine wp_readi (hg.ready hr hv) hn (fun r bytes h => ?_)
  obtain ⟨hbytes, rfl⟩ := h hdst
  simp only [wp_get, wp_pure]
  refine ⟨hg, fun _ => rfl, .read ip dst off n _ bytes ?_⟩
  have hcontent : content s.data (s.itable ip).toDinode = s.files sb (s.itable ip).inum := by
    show _ = (s.node sb (s.itable ip).inum).bytes
    rw [hg.node_eq hr hv]
    rfl
  rw [hbytes, hcontent]
  rfl

theorem exec_itrunc {ip : InodeId} (hg : Good sb s) (hl : s.Locked ip) :
    wp ((Op.itrunc ip).exec sb) ((Op.itrunc ip).Post sb s) LogPanic s := by
  obtain ⟨hr, -, hv⟩ := hl
  have hrep : Rep sb (s.view sb) s := ⟨hg, rfl⟩
  unfold Op.exec
  simp only [wp_bind]
  refine wp_itrunc (hg.ready hr hv) (fun s' ht _ => ?_)
  simp only [wp_get, wp_pure]
  have hrep' := hrep.truncated hr hv ht
  refine ⟨hrep'.1, hrep'.sameSlots, ?_⟩
  rw [hrep'.files_withBytes]
  exact .truncated ip _

/-- One call meets its specification or stops in `log_write`. -/
theorem exec_refines (op : Op) (hg : Good sb s) (hl : s.Locked op.ip) (hb : op.BufferOk) :
    wp (op.exec sb) (op.Post sb s) LogPanic s := by
  cases op with
  | writei ip src off n => exact exec_writei hg hl hb
  | readi ip dst off n => exact exec_readi hg hl hb
  | itrunc ip => exact exec_itrunc hg hl

/-- How many blocks a call passes to `log_write` at most, besides those of the free map. -/
def Op.logged : Op → Nat
  | .writei _ _ off n => 4 * blocksOf off n + 1
  | .readi _ _ _ _ => 0
  | .itrunc _ => 1

/-- A call that has room in the log leaves room for the others. -/
theorem exec_room (op : Op) (k : Nat) (hg : Good sb s) (hl : s.Locked op.ip) (hb : op.BufferOk)
    (hroom : Room sb (op.logged + k) s) :
    wp (op.exec sb) (fun _ s' => Room sb k s') (fun e => ¬ LogPanic e) s := by
  unfold Op.exec
  cases op with
  | writei ip src off n =>
    simp only [wp_bind, wp_get, wp_pure]
    exact logs_writei ip src off n k s hroom
  | readi ip dst off n =>
    simp only [wp_bind, wp_get, wp_pure]
    exact wp_readi (hg.ready hl.1 hl.2.2) hb.2.1 (fun _ _ _ => hroom.mono (Nat.le_add_left ..))
  | itrunc ip =>
    simp only [wp_bind, wp_get, wp_pure]
    exact logs_itrunc ip k s hroom

/-- The calls of `ops` up to the first that stops in `log_write`, from `s`. -/
structure UpToLog (sb : Superblock) (s : State) (ops done rest : List Op) (rs : List Op.Result)
    (s' : State) : Prop where
  split : ops = done ++ rest
  run : execAll sb done s = .ok (rs, s')
  good : Good sb s'
  specs : Specs (fun ip => (s.itable ip).inum) (s.files sb) done rs (s'.files sb)
  stop : ∀ op ∈ rest.head?, ∃ e, LogPanic e ∧ op.exec sb s' = .error e
  room : Room sb (ops.map Op.logged).sum s → rest = []

/-- Every sequence of `writei`, `readi` and `itrunc` calls on locked inodes does what the calls do on
    a map from inode numbers to byte lists, up to the first call that stops in `log_write`. There is
    no such call if the log has room for what the calls write. -/
theorem inodes_refine_bytes (sb : Superblock) (s : State) (hg : Good sb s) (ops : List Op)
    (hl : ∀ op ∈ ops, s.Locked op.ip) (hb : ∀ op ∈ ops, op.BufferOk) :
    ∃ done rest rs s', UpToLog sb s ops done rest rs s' := by
  induction ops generalizing s with
  | nil => exact ⟨[], [], [], s, rfl, rfl, hg, .nil _, by simp, fun _ => rfl⟩
  | cons op ops ih =>
    have hl₀ := hl op List.mem_cons_self
    have hb₀ := hb op List.mem_cons_self
    have hexec := exec_refines op hg hl₀ hb₀
    have hroom := exec_room op (ops.map Op.logged).sum hg hl₀ hb₀
    cases hx : op.exec sb s with
    | error e =>
      have he := hexec.of_error hx
      exact ⟨[], op :: ops, [], s, rfl, rfl, hg, .nil _, by simpa using ⟨e, he, hx⟩,
        fun h => absurd he ((hroom h).of_error hx)⟩
    | ok p =>
      obtain ⟨r, s₁⟩ := p
      obtain ⟨hg₁, hslots, hspec⟩ := hexec.of_ok hx
      obtain ⟨done, rest, rs, s', hdone⟩ := ih s₁ hg₁
        (fun o ho => hslots.locked (hl o (List.mem_cons_of_mem _ ho)))
        (fun o ho => hb o (List.mem_cons_of_mem _ ho))
      refine ⟨op :: done, rest, r :: rs, s', by rw [hdone.split]; rfl, ?_, hdone.good,
        .cons hspec (hslots.inum ▸ hdone.specs), hdone.stop,
        fun h => hdone.room ((hroom h).of_ok hx)⟩
      unfold execAll
      rw [bind_of_ok hx, bind_of_ok hdone.run]
      rfl

/-- The first process has locked the root directory of the small disk. -/
def lockedRoot : State :=
  tiny.withInode rootSlot
    { toDinode := rootDinode, inum := ROOTINO, ref := 1, locked := true, valid := true }

theorem lockedRoot_good {size : Nat} {h : 4 < size ∧ size < BPB} :
    Good (smallSb size h) lockedRoot := by
  refine (Rep.withInode ⟨tiny_good, rfl⟩ _ (by decide) (fun _ => ⟨by decide, ?_⟩)
    (fun _ jp hj hr _ => ?_) (fun _ _ => ⟨?_, by decide⟩)).1
  · exact (smallSb size h).root_lt
  · exact hj (boot_ref_pos hr)
  · rfl

theorem lockedRoot_locked : lockedRoot.Locked rootSlot := by
  refine ⟨?_, rfl, rfl⟩
  decide

/-- In a transaction, the first process appends to the root directory, reads and truncates it. -/
def rootOps : List Op :=
  [.writei rootSlot (fun _ => some 7) 32 3, .readi rootSlot (fun _ => true) 0 35, .itrunc rootSlot]

theorem inodes_refine_bytes_root :
    ∃ rs s', execAll tinySb rootOps (lockedRoot.withLog (some [])) = .ok (rs, s') ∧
      Good tinySb s' ∧
      Specs (fun ip => (lockedRoot.itable ip).inum) (lockedRoot.files tinySb) rootOps rs
        (s'.files tinySb) := by
  have hops : ∀ op ∈ rootOps, (lockedRoot.withLog (some [])).Locked op.ip ∧ op.BufferOk := by
    simp only [rootOps, List.mem_cons, List.not_mem_nil, or_false, forall_eq_or_imp, forall_eq]
    exact ⟨⟨lockedRoot_locked, by decide, by decide, fun _ _ => rfl⟩,
      ⟨lockedRoot_locked, by decide, by decide, fun _ _ => rfl⟩, ⟨lockedRoot_locked, trivial⟩⟩
  obtain ⟨done, rest, rs, s', hdone⟩ := inodes_refine_bytes tinySb (lockedRoot.withLog (some []))
    ((Rep.withLog ⟨lockedRoot_good, rfl⟩ _).1) rootOps (fun op h => (hops op h).1)
    (fun op h => (hops op h).2)
  have hrest := hdone.room ⟨[], rfl, List.nodup_nil, by decide⟩
  have hsplit := hdone.split
  rw [hrest, List.append_nil] at hsplit
  rw [hsplit]
  exact ⟨rs, s', hdone.run, hdone.good, hdone.specs⟩

/-- A disk with room for a file of more blocks than the log has. -/
def roomySb : Superblock := smallSb 64 (by decide)

/-- Appending 29 blocks to the root directory in one transaction. -/
def appendBlocks : Op := .writei rootSlot (fun _ => some 7) 32 (29 * BSIZE)

theorem writei_too_big :
    Good roomySb (lockedRoot.withLog (some [])) ∧
      (lockedRoot.withLog (some [])).Locked appendBlocks.ip ∧ appendBlocks.BufferOk ∧
      execAll roomySb [appendBlocks] (lockedRoot.withLog (some [])) = .error (.panic .tooBig) := by
  refine ⟨(Rep.withLog ⟨lockedRoot_good, rfl⟩ _).1, lockedRoot_locked,
    ⟨by decide, by decide, fun _ _ => rfl⟩, ?_⟩
  have hrun : (match execAll roomySb [appendBlocks] (lockedRoot.withLog (some [])) with
      | .ok _ => false
      | .error e => decide (e = .panic .tooBig)) = true := by decide +kernel
  cases hx : execAll roomySb [appendBlocks] (lockedRoot.withLog (some [])) with
  | ok p =>
    rw [hx] at hrun
    cases hrun
  | error e =>
    rw [hx] at hrun
    rw [of_decide_eq_true hrun]

end Xv6.Fs
