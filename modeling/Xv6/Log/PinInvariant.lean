import Xv6.Log.Pins

set_option autoImplicit false

/-! # The log pins

Every entry of the log has exactly one pin, on a valid buffer of its block that holds what was
logged, until `install_trans` has written it home; no other buffer is pinned. A pinned buffer cannot
be recycled. That `install_trans` writes home what was logged needs more: `write_log` has copied the
buffers into the log, no buffer changes while a commit runs, and a buffer of a log block holds what
is on disk, so that it does not matter which of them were recycled in between. -/

namespace Xv6.Log.Pins

open Machine Function

/-- The entries below are in the log on disk. -/
def Phase.copied (n : Nat) : Phase → Nat
  | .writeLog tail => tail
  | _ => n

/-- The entries below are written home. -/
def Phase.installed : Phase → Nat
  | .install tail => tail
  | .unpin tail => tail + 1
  | _ => 0

/-- The entries below are not pinned any more. -/
def Phase.unpinned : Phase → Nat
  | .install tail => tail
  | .unpin tail => tail
  | _ => 0

variable {P : Type}

/-- The buffer is a valid copy of a block of the log's device. -/
def State.Caches (s : State P) (b : Bio.BufId) (blk : Nat) : Prop :=
  (s.bio.buf b).valid = true ∧ (s.bio.buf b).dev = ROOTDEV ∧ (s.bio.buf b).blockno = blk

/-- The invariant of the log and the cache together. -/
structure Inv [Fintype P] (s : State P) : Prop where
  log : Log.Inv s.log
  bio : Bio.Inv s.bio
  /-- The phase has left its start only while a process is in `commit`. -/
  active : s.phase ≠ .writeLog 0 → ∃ p, s.log.pc p = .commit
  cleared : s.phase = .erase ∨ s.phase = .done → s.log.block = []
  /-- The entries fit the log on disk. -/
  fits : s.log.n ≤ s.log.size - 1
  /-- The entries are blocks outside of the log. -/
  home : ∀ blk ∈ s.log.block, ¬ s.region.Mem blk
  /-- A buffer of a block of the log holds what is on disk. -/
  clean : ∀ b blk, s.Caches b blk → s.region.Mem blk → (s.bio.buf b).data = s.bio.disk blk
  copied : ∀ i blk, i < s.phase.copied s.log.n → s.log.block[i]? = some blk →
    s.bio.disk (s.start + i + 1) = s.logged blk
  installed : ∀ i blk, i < s.phase.installed → s.log.block[i]? = some blk →
    s.bio.disk blk = s.logged blk
  /-- An entry that is not yet installed is pinned once, in a buffer with what was logged. -/
  pinned : ∀ i blk, s.phase.unpinned ≤ i → s.log.block[i]? = some blk →
    ∃ b, s.Caches b blk ∧ (s.bio.buf b).data = s.logged blk ∧ s.bio.pins b = 1
  /-- There are no other pins. -/
  entry : ∀ b, s.bio.pins b ≠ 0 →
    ∃ i, s.phase.unpinned ≤ i ∧ s.log.block[i]? = some (s.bio.buf b).blockno ∧
      (s.bio.buf b).dev = ROOTDEV

/-! ## Facts about one state -/

section State

variable [Fintype P] {s : State P}

omit [Fintype P] in
theorem State.Holds.caches {p : P} {b : Bio.BufId} {blk : Nat} (h : s.Holds p b blk) :
    s.Caches b blk := ⟨h.2.2.1, h.2.2.2.1, h.2.2.2.2⟩

/-- A block has one buffer. -/
theorem Inv.caches_unique (hi : Inv s) {b c : Bio.BufId} {blk : Nat}
    (hb : (s.bio.buf b).dev = ROOTDEV ∧ (s.bio.buf b).blockno = blk) (hc : s.Caches c blk) :
    b = c := by
  refine hi.bio.unique b c ?_ (hb.1.trans hc.2.1.symm) (hb.2.trans hc.2.2.symm)
  rw [hb.1]
  decide

/-- The buffer of an entry is its pinned one. -/
theorem Inv.pinned_of_caches (hi : Inv s) {i blk : Nat} {b : Bio.BufId}
    (hu : s.phase.unpinned ≤ i) (hblk : s.log.block[i]? = some blk) (hb : s.Caches b blk) :
    (s.bio.buf b).data = s.logged blk ∧ s.bio.pins b = 1 := by
  obtain ⟨c, hc, hdata, hpins⟩ := hi.pinned i blk hu hblk
  have hbc : b = c := hi.caches_unique ⟨hb.2.1, hb.2.2⟩ hc
  subst hbc
  exact ⟨hdata, hpins⟩

theorem Inv.pins_eq_one (hi : Inv s) {b : Bio.BufId} (hb : s.bio.pins b ≠ 0) :
    s.bio.pins b = 1 := by
  obtain ⟨i, hu, hblk, hdev⟩ := hi.entry b hb
  obtain ⟨c, hc, -, hpins⟩ := hi.pinned i _ hu hblk
  have hbc : b = c := hi.caches_unique ⟨hdev, rfl⟩ hc
  subst hbc
  exact hpins

/-- A log block behind an entry is in the region of the log. -/
theorem Inv.mem_region (hi : Inv s) {i blk : Nat} (hblk : s.log.block[i]? = some blk) :
    s.region.Mem (s.start + i + 1) := by
  have hlt : i < s.log.n := (List.getElem?_eq_some_iff.1 hblk).1
  have hfits := hi.fits
  exact Or.inr ⟨by simp only [State.region]; omega, by simp only [State.region]; omega⟩

theorem Inv.not_mem_region (hi : Inv s) {i blk : Nat} (hblk : s.log.block[i]? = some blk) :
    ¬ s.region.Mem blk := hi.home blk (List.mem_of_getElem? hblk)

/-- While an operation is in progress, nothing has been copied into the log yet. -/
theorem Inv.phase_of_inOp (hi : Inv s) {p : P} (hp : s.log.pc p = .inOp) :
    s.phase = .writeLog 0 := by
  by_contra hne
  obtain ⟨q, hq⟩ := hi.active hne
  exact hi.log.not_inOp (hi.log.busy q (by rw [hq]; rfl)) p hp

/-- When all entries are unpinned, there are no pins. -/
theorem Inv.pins_eq_zero (hi : Inv s) (hb : s.log.block.length ≤ s.phase.unpinned)
    (b : Bio.BufId) : s.bio.pins b = 0 := by
  by_contra hne
  obtain ⟨i, hu, hblk, -⟩ := hi.entry b hne
  have := (List.getElem?_eq_some_iff.1 hblk).1
  omega

end State

/-! ## Steps of the cache -/

section Steps

variable [DecidableEq P] [Fintype P] {s : State P} {p : P} {b : Bio.BufId} {blk : Nat}

/-- Getting and releasing buffers leaves the contents of a buffer alone, fills it from the disk, or
    recycles it. -/
theorem cacheOnly_effect {s s' : Bio.State P} {e : Bio.Event P} (hi : Bio.Inv s)
    (h : Bio.Step s e s') (he : cacheOnly e = true) :
    s'.pins = s.pins ∧ s'.disk = s.disk ∧ ∀ b,
      ((s'.buf b).valid = (s.buf b).valid ∧ (s'.buf b).dev = (s.buf b).dev ∧
        (s'.buf b).blockno = (s.buf b).blockno ∧ (s'.buf b).data = (s.buf b).data) ∨
      ((s.buf b).valid = false ∧ (s'.buf b).dev = (s.buf b).dev ∧
        (s'.buf b).blockno = (s.buf b).blockno ∧ (s'.buf b).data = s.disk (s.buf b).blockno) ∨
      ((s.buf b).refcnt = 0 ∧ (s'.buf b).valid = false) := by
  cases h with
  | recycle p dev blockno c hp hc hu =>
    refine ⟨rfl, rfl, fun b => ?_⟩
    by_cases hbc : b = c
    · subst hbc
      obtain ⟨l, hl, -⟩ := hi.ring
      exact Or.inr (Or.inr ⟨(Bio.unused_some hl hu).1, by simp⟩)
    · exact Or.inl (by simp [hbc])
  | fill p c hp hl hv =>
    refine ⟨rfl, rfl, fun b => ?_⟩
    by_cases hbc : b = c
    · subst hbc
      exact Or.inr (Or.inl (by simp [hv]))
    · exact Or.inl (by simp [hbc])
  | hit | acquire | brelse | last | unref => exact ⟨rfl, rfl, fun b => Or.inl (by simp)⟩
  | _ => cases he

theorem Inv.cache (hi : Inv s) (hP : Fintype.card P < 2 ^ 31 - 1) {e : Bio.Event P}
    {bio : Bio.State P} (he : cacheOnly e = true) (hb : Bio.Step s.bio e bio) :
    Inv { s with bio := bio } := by
  obtain ⟨hpins, hdisk, heff⟩ := cacheOnly_effect hi.bio hb he
  -- a pinned buffer stays as it is
  have hkeep : ∀ b, s.bio.pins b ≠ 0 → (bio.buf b).dev = (s.bio.buf b).dev ∧
      (bio.buf b).blockno = (s.bio.buf b).blockno ∧ ((s.bio.buf b).valid = true →
        (bio.buf b).valid = true ∧ (bio.buf b).data = (s.bio.buf b).data) := by
    intro b hb
    rcases heff b with ⟨hv, hd, hn, hdata⟩ | ⟨hv, hd, hn, -⟩ | ⟨h0, -⟩
    · exact ⟨hd, hn, fun h => ⟨hv.trans h, hdata⟩⟩
    · exact ⟨hd, hn, fun h => by rw [hv] at h; cases h⟩
    · exact absurd h0 (hi.bio.refcnt_ne_zero hP (hi.pins_eq_one hb))
  refine { hi with bio := hi.bio.keep hb, clean := ?_, copied := ?_, installed := ?_, pinned := ?_,
                   entry := ?_ }
  · intro b blk hc hm
    obtain ⟨hv, hd, hn⟩ := hc
    simp only at hv hd hn ⊢
    rcases heff b with ⟨hv', hd', hn', hdata⟩ | ⟨-, hd', hn', hdata⟩ | ⟨-, hv'⟩
    · rw [hdata, hdisk]
      exact hi.clean b blk ⟨hv' ▸ hv, hd' ▸ hd, hn' ▸ hn⟩ hm
    · rw [hdata, hdisk, ← hn', hn]
    · rw [hv'] at hv; cases hv
  · intro i blk hlt hblk
    simp only [hdisk]
    exact hi.copied i blk hlt hblk
  · intro i blk hlt hblk
    simp only [hdisk]
    exact hi.installed i blk hlt hblk
  · intro i blk hu hblk
    obtain ⟨b, ⟨hv, hd, hn⟩, hdata, hp⟩ := hi.pinned i blk hu hblk
    obtain ⟨hd', hn', hrest⟩ := hkeep b (by omega)
    obtain ⟨hv', hdata'⟩ := hrest hv
    exact ⟨b, ⟨hv', hd'.trans hd, hn'.trans hn⟩, hdata'.trans hdata, by simp only [hpins, hp]⟩
  · intro b hb
    simp only [hpins] at hb
    obtain ⟨hd', hn', -⟩ := hkeep b hb
    obtain ⟨i, hu, hblk, hd⟩ := hi.entry b hb
    exact ⟨i, hu, by rw [hblk, ← hn'], hd'.trans hd⟩

/-! ## Steps of a process inside an operation -/

theorem Inv.store (hi : Inv s) (data : Block) (hp : s.log.pc p = .inOp)
    (hh : s.Holds p b (s.bio.buf b).blockno) (hm : ¬ s.region.Mem (s.bio.buf b).blockno) :
    Inv { s with bio := s.bio.setBuf b { s.bio.buf b with data := data },
                 logged := if (s.bio.buf b).blockno ∈ s.log.block
                   then update s.logged (s.bio.buf b).blockno data else s.logged } := by
  have hph := hi.phase_of_inOp hp
  -- nothing but the contents of the buffer changes
  have hother : ∀ c, c ≠ b → update s.bio.buf b { s.bio.buf b with data := data } c
      = s.bio.buf c := fun c hc => update_of_ne hc _ _
  refine { hi with bio := hi.bio.keep (.store p b data hh.1 hh.2.1), clean := ?_, copied := ?_,
                   installed := ?_, pinned := ?_, entry := ?_ }
  · intro c blk hc hmem
    have hcb : c ≠ b := by
      rintro rfl
      have : (s.bio.buf c).blockno = blk := by simpa [State.Caches] using hc.2.2
      exact hm (this ▸ hmem)
    simp only [State.Caches, Bio.State.setBuf_buf, Bio.State.setBuf_disk, hother c hcb] at hc ⊢
    exact hi.clean c blk hc hmem
  · intro i blk hlt
    simp only [hph, Phase.copied] at hlt
    omega
  · intro i blk hlt
    simp only [hph, Phase.installed] at hlt
    omega
  · intro i blk hu hblk
    obtain ⟨c, hc, hdata, hpin⟩ := hi.pinned i blk hu hblk
    refine ⟨c, ?_⟩
    by_cases hcb : c = b
    · subst hcb
      have hblkno : (s.bio.buf c).blockno = blk := hc.2.2
      have hmem : blk ∈ s.log.block := List.mem_of_getElem? hblk
      refine ⟨by simpa [State.Caches] using hc, ?_, hpin⟩
      simp [hmem, hblkno]
    · have hne : blk ≠ (s.bio.buf b).blockno := fun he =>
        hcb (hi.caches_unique ⟨hh.2.2.2.1, he.symm⟩ hc).symm
      simp only [State.Caches, Bio.State.setBuf_buf, Bio.State.setBuf_pins, hother c hcb]
      refine ⟨hc, ?_, hpin⟩
      split
      · rw [update_of_ne hne, hdata]
      · exact hdata
  · intro c hc
    obtain ⟨i, hu, hblk, hd⟩ := hi.entry c hc
    refine ⟨i, hu, ?_⟩
    by_cases hcb : c = b
    · subst hcb
      simp [hblk, hd]
    · simp [hother c hcb, hblk, hd]

omit [Fintype P] in
theorem logWrite_inv {l l' : Log.State P} (h : Log.Step l (.leave p (.logWrite blk)) l') :
    l.lock = some (p, .logWrite blk) ∧ (l.n : Int) < (l.size : Int) - 1 ∧
      l' = { l with lock := none, block := record l.block blk } := by
  cases h with
  | write p b hl hn hsize ho => exact ⟨hl, hsize, rfl⟩

/-- Logging a block again: its buffer is pinned already and holds what was logged. -/
theorem Inv.absorb (hi : Inv s) {log : Log.State P}
    (hl : Log.Step s.log (.leave p (.logWrite (s.bio.buf b).blockno)) log)
    (hh : s.Holds p b (s.bio.buf b).blockno) (hin : (s.bio.buf b).blockno ∈ s.log.block) :
    Inv { s with log := log,
                 logged := update s.logged (s.bio.buf b).blockno (s.bio.buf b).data } := by
  have hlog := hi.log.keep hl
  obtain ⟨hlock, -, rfl⟩ := logWrite_inv hl
  have hph := hi.phase_of_inOp (hi.log.holder_inOp hlock (Or.inr ⟨_, rfl⟩))
  obtain ⟨i, hi'⟩ := List.getElem?_of_mem hin
  have hdata := (hi.pinned_of_caches (by simp [hph, Phase.unpinned]) hi' hh.caches).1
  have hsame : update s.logged (s.bio.buf b).blockno (s.bio.buf b).data = s.logged := by
    rw [hdata, update_eq_self]
  have hrec : record s.log.block (s.bio.buf b).blockno = s.log.block := if_pos hin
  rw [hsame]
  simp only [hrec] at hlog ⊢
  exact { hi with log := hlog }

/-- Logging a new block: its buffer was not pinned and gets the pin. -/
theorem Inv.pin (hi : Inv s) {log : Log.State P}
    (hl : Log.Step s.log (.leave p (.logWrite (s.bio.buf b).blockno)) log)
    (hh : s.Holds p b (s.bio.buf b).blockno) (hm : ¬ s.region.Mem (s.bio.buf b).blockno)
    (hin : (s.bio.buf b).blockno ∉ s.log.block) :
    Inv { s with log := log,
                 bio := (s.bio.setRefcnt b ((s.bio.buf b).refcnt + 1)).setPins b (s.bio.pins b + 1),
                 logged := update s.logged (s.bio.buf b).blockno (s.bio.buf b).data } := by
  have hlog := hi.log.keep hl
  obtain ⟨hlock, hsize, rfl⟩ := logWrite_inv hl
  have hph := hi.phase_of_inOp (hi.log.holder_inOp hlock (Or.inr ⟨_, rfl⟩))
  have hrec : record s.log.block (s.bio.buf b).blockno = s.log.block ++ [(s.bio.buf b).blockno] :=
    if_neg hin
  have hpins : s.bio.pins b = 0 := by
    by_contra hne
    obtain ⟨i, -, hblk, -⟩ := hi.entry b hne
    exact hin (List.mem_of_getElem? hblk)
  simp only [hrec] at hlog ⊢
  refine { log := hlog, bio := hi.bio.keep (.bpin p b hh.1), active := hi.active,
           cleared := ?_, fits := ?_, home := ?_, clean := ?_, copied := ?_, installed := ?_,
           pinned := ?_, entry := ?_ }
  · rintro (h | h) <;> simp [hph] at h
  · have : s.log.block.length < s.log.size - 1 := by
      have : (s.log.block.length : Int) < (s.log.size : Int) - 1 := hsize
      omega
    simp only [Log.State.n, List.length_append, List.length_singleton]
    omega
  · intro blk hblk
    rcases List.mem_append.1 hblk with hblk | hblk
    · exact hi.home blk hblk
    · rw [List.mem_singleton.1 hblk]
      exact hm
  · intro c blk hc hmem
    simp only [State.Caches, Bio.State.setPins_buf, Bio.setRefcnt_valid, Bio.setRefcnt_dev,
      Bio.setRefcnt_blockno, Bio.setRefcnt_data] at hc ⊢
    exact hi.clean c blk hc hmem
  · intro i blk hlt
    simp only [hph, Phase.copied] at hlt
    omega
  · intro i blk hlt
    simp only [hph, Phase.installed] at hlt
    omega
  · intro i blk hu hblk
    simp only [State.Caches, Bio.State.setPins_buf, Bio.setRefcnt_valid, Bio.setRefcnt_dev,
      Bio.setRefcnt_blockno, Bio.setRefcnt_data, Bio.State.setPins_pins]
    rcases List.mem_append.1 (List.mem_of_getElem? hblk) with hmem | hmem
    · -- an older entry, whose buffer is another one
      obtain ⟨j, hj⟩ := List.getElem?_of_mem hmem
      obtain ⟨c, hc, hdata, hpin⟩ := hi.pinned j blk (by simp [hph, Phase.unpinned]) hj
      have hne : blk ≠ (s.bio.buf b).blockno := fun he => hin (he ▸ hmem)
      have hcb : c ≠ b := fun he => hne (he ▸ hc.2.2.symm)
      exact ⟨c, hc, by rw [hdata, update_of_ne hne],
        (update_of_ne hcb _ _).trans hpin⟩
    · rw [List.mem_singleton.1 hmem]
      exact ⟨b, hh.caches, by rw [update_self],
        by rw [update_self, hpins]⟩
  · intro c hc
    simp only [Bio.State.setPins_buf, Bio.setRefcnt_dev, Bio.setRefcnt_blockno, Bio.State.setPins_pins] at hc ⊢
    by_cases hcb : c = b
    · subst hcb
      exact ⟨s.log.block.length, by simp [hph, Phase.unpinned], by simp, hh.2.2.2.1⟩
    · rw [update_of_ne hcb] at hc
      obtain ⟨i, hu, hblk, hd⟩ := hi.entry c hc
      exact ⟨i, hu, List.getElem?_append_left (List.getElem?_eq_some_iff.1 hblk).1 ▸ hblk, hd⟩

/-! ## Steps of `commit` -/

omit [DecidableEq P] [Fintype P] in
theorem putBlock_data (s : Bio.State P) (b c : Bio.BufId) (data : Block) :
    ((putBlock s b data).buf c).data = if c = b then data else (s.buf c).data := by
  by_cases hcb : c = b
  · subst hcb; simp [putBlock]
  · simp [putBlock, hcb]

omit [DecidableEq P] [Fintype P] in
theorem putBlock_ident (s : Bio.State P) (b c : Bio.BufId) (data : Block) :
    ((putBlock s b data).buf c).valid = (s.buf c).valid ∧
    ((putBlock s b data).buf c).dev = (s.buf c).dev ∧
    ((putBlock s b data).buf c).blockno = (s.buf c).blockno := by
  by_cases hcb : c = b
  · subst hcb; simp [putBlock]
  · simp [putBlock, hcb]

theorem putBlock_inv {s : Bio.State P} (hi : Bio.Inv s) (data : Block) (hp : s.place p = .idle)
    (hl : s.lock b = some p) : Bio.Inv (putBlock s b data) := by
  have h := (hi.keep (.store p b data hp hl)).keep (.bwrite p b hp hl)
  simp only [Bio.State.setBuf_buf, Bio.State.setBuf_disk, update_self] at h
  exact h

/-- A write of `commit`, to the log or home. What it writes over the buffer of an entry that is
    still pinned is what was logged. -/
theorem Inv.put (hi : Inv s) {blk₀ : Nat} (hp : s.log.pc p = .commit) (hh : s.Holds p b blk₀)
    (data : Block) (next : Phase) (hnext : next.unpinned = s.phase.unpinned)
    (hcleared : next = .erase ∨ next = .done → s.log.block = [])
    (hdata : ∀ i, s.phase.unpinned ≤ i → s.log.block[i]? = some blk₀ → data = s.logged blk₀)
    (hcopied : ∀ i blk, i < next.copied s.log.n → s.log.block[i]? = some blk →
      update s.bio.disk blk₀ data (s.start + i + 1) = s.logged blk)
    (hinstalled : ∀ i blk, i < next.installed → s.log.block[i]? = some blk →
      update s.bio.disk blk₀ data blk = s.logged blk) :
    Inv { s with bio := putBlock s.bio b data, phase := next } := by
  have hdisk : (putBlock s.bio b data).disk = update s.bio.disk blk₀ data := by
    simp only [putBlock, hh.2.2.2.2]
  have hcaches : ∀ c blk, ({ s with bio := putBlock s.bio b data, phase := next } : State P).Caches c
      blk ↔ s.Caches c blk := by
    intro c blk
    obtain ⟨hv, hd, hn⟩ := putBlock_ident s.bio b c data
    simp only [State.Caches, hv, hd, hn]
  refine { hi with bio := putBlock_inv hi.bio data hh.1 hh.2.1, active := fun _ => ⟨p, hp⟩,
                   cleared := hcleared, clean := ?_, copied := ?_, installed := ?_, pinned := ?_,
                   entry := ?_ }
  · intro c blk hc hmem
    rw [hcaches] at hc
    simp only [putBlock_data, hdisk]
    split
    · next hcb =>
        subst hcb
        rw [← hc.2.2, ← hh.2.2.2.2, update_self]
    · next hcb =>
        have hne : blk ≠ blk₀ := fun he =>
          hcb (hi.caches_unique ⟨hc.2.1, hc.2.2.trans he⟩ hh.caches)
        rw [update_of_ne hne]
        exact hi.clean c blk hc hmem
  · simpa only [hdisk] using hcopied
  · simpa only [hdisk] using hinstalled
  · intro i blk hu hblk
    simp only [hnext] at hu
    obtain ⟨c, hc, hdata', hpin⟩ := hi.pinned i blk hu hblk
    refine ⟨c, (hcaches c blk).2 hc, ?_, hpin⟩
    simp only [putBlock_data]
    split
    · next hcb =>
        have hblk₀ : blk = blk₀ := by rw [← hc.2.2, hcb, hh.2.2.2.2]
        rw [hblk₀] at hblk ⊢
        exact hdata i hu hblk
    · exact hdata'
  · intro c hc
    obtain ⟨i, hu, hblk, hd⟩ := hi.entry c hc
    obtain ⟨-, hd', hn'⟩ := putBlock_ident s.bio b c data
    exact ⟨i, hnext ▸ hu, by rw [hblk, hn'], by rw [hd', hd]⟩

theorem Inv.copyLog (hi : Inv s) {dst src : Bio.BufId} {tail : Nat} (hph : s.phase = .writeLog tail)
    (hp : s.log.pc p = .commit) (hdst : s.Holds p dst (s.start + tail + 1))
    (hsrc : s.Holds p src (s.bio.buf src).blockno)
    (hblk : s.log.block[tail]? = some (s.bio.buf src).blockno) :
    Inv { s with bio := putBlock s.bio dst (s.bio.buf src).data,
                 phase := .writeLog (tail + 1) } := by
  have hsrcdata := (hi.pinned_of_caches (by simp [hph, Phase.unpinned]) hblk hsrc.caches).1
  refine hi.put hp hdst _ _ (by simp [hph, Phase.unpinned]) (by simp)
    (fun i _ h => absurd (hi.mem_region hblk) (hi.not_mem_region h)) (fun i blk hlt hb => ?_)
    (fun i blk hlt => by simp [Phase.installed] at hlt)
  by_cases hit : i = tail
  · subst hit
    rw [hblk] at hb
    rw [update_self, hsrcdata, Option.some.inj hb]
  · rw [update_of_ne (by omega)]
    have hlt' : i < tail + 1 := hlt
    exact hi.copied i blk (by simp only [hph, Phase.copied]; omega) hb

/-- The header block is not one of the blocks behind it. -/
theorem Inv.writeHead (hi : Inv s) {hb : Bio.BufId} {next : Phase} (hp : s.log.pc p = .commit)
    (hh : s.Holds p hb s.start) (data : Block)
    (hnext : next.unpinned = s.phase.unpinned ∧ next.copied s.log.n = s.phase.copied s.log.n)
    (hinstalled : next.installed = 0) (hcleared : next = .erase ∨ next = .done → s.log.block = []) :
    Inv { s with bio := putBlock s.bio hb data, phase := next } := by
  refine hi.put hp hh _ _ hnext.1 hcleared
    (fun i _ h => absurd (Or.inl rfl) (hi.not_mem_region h)) (fun i blk hlt hblk => ?_)
    (fun i blk hlt => by omega)
  rw [update_of_ne (by omega)]
  exact hi.copied i blk (hnext.2 ▸ hlt) hblk

/-- `install_trans` writes home what was logged: the log block holds it on disk, and so does its
    buffer. -/
theorem Inv.install (hi : Inv s) {lbuf dbuf : Bio.BufId} {tail : Nat}
    (hph : s.phase = .install tail) (hp : s.log.pc p = .commit)
    (hlbuf : s.Holds p lbuf (s.start + tail + 1)) (hdbuf : s.Holds p dbuf (s.bio.buf dbuf).blockno)
    (hblk : s.log.block[tail]? = some (s.bio.buf dbuf).blockno) :
    Inv { s with bio := putBlock s.bio dbuf (s.bio.buf lbuf).data, phase := .unpin tail } := by
  have hn : tail < s.log.n := (List.getElem?_eq_some_iff.1 hblk).1
  have hlogged : (s.bio.buf lbuf).data = s.logged (s.bio.buf dbuf).blockno := by
    rw [hi.clean lbuf _ hlbuf.caches (hi.mem_region hblk)]
    exact hi.copied tail _ (by simpa only [hph, Phase.copied] using hn) hblk
  refine hi.put hp hdbuf _ _ (by simp [hph, Phase.unpinned]) (by simp) (fun _ _ _ => hlogged)
    (fun i blk hlt hb => ?_) (fun i blk hlt hb => ?_)
  · have hne : s.start + i + 1 ≠ (s.bio.buf dbuf).blockno := fun he =>
      hi.not_mem_region hblk (he ▸ hi.mem_region hb)
    rw [update_of_ne hne]
    exact hi.copied i blk (by rw [hph]; exact hlt) hb
  · by_cases hblk' : blk = (s.bio.buf dbuf).blockno
    · rw [hblk', update_self, hlogged]
    · rw [update_of_ne hblk']
      have hne : i ≠ tail := by
        rintro rfl
        exact hblk' (Option.some.inj (hb.symm.trans hblk))
      have hlt' : i < tail + 1 := hlt
      exact hi.installed i blk (by simp only [hph, Phase.installed]; omega) hb

/-- The pin of an entry that has been written home is undone. -/
theorem Inv.unpin (hi : Inv s) {dbuf : Bio.BufId} {tail : Nat} (hph : s.phase = .unpin tail)
    (hp : s.log.pc p = .commit) (hdbuf : s.Holds p dbuf (s.bio.buf dbuf).blockno)
    (hblk : s.log.block[tail]? = some (s.bio.buf dbuf).blockno) (hpin : 0 < s.bio.pins dbuf) :
    Inv { s with
          bio := (s.bio.setRefcnt dbuf ((s.bio.buf dbuf).refcnt - 1)).setPins dbuf
            (s.bio.pins dbuf - 1),
          phase := .install (tail + 1) } := by
  have hone := (hi.pinned_of_caches (by simp [hph, Phase.unpinned]) hblk hdbuf.caches).2
  refine { log := hi.log, bio := hi.bio.keep (.bunpin p dbuf hdbuf.1 hpin),
           active := fun _ => ⟨p, hp⟩, cleared := by simp, fits := hi.fits, home := hi.home,
           clean := ?_, copied := ?_, installed := ?_, pinned := ?_, entry := ?_ }
  · intro c blk hc hmem
    simp only [State.Caches, Bio.State.setPins_buf, Bio.setRefcnt_valid, Bio.setRefcnt_dev,
      Bio.setRefcnt_blockno, Bio.setRefcnt_data] at hc ⊢
    exact hi.clean c blk hc hmem
  · intro i blk hlt
    exact hi.copied i blk (by rw [hph]; exact hlt)
  · intro i blk hlt
    exact hi.installed i blk (by rw [hph]; exact hlt)
  · intro i blk hu hblk'
    simp only [State.Caches, Bio.State.setPins_buf, Bio.setRefcnt_valid, Bio.setRefcnt_dev,
      Bio.setRefcnt_blockno, Bio.setRefcnt_data, Bio.State.setPins_pins]
    have hu' : tail + 1 ≤ i := hu
    obtain ⟨c, hc, hdata, hpin'⟩ := hi.pinned i blk (by simp only [hph, Phase.unpinned]; omega) hblk'
    have hcd : c ≠ dbuf := by
      -- the entries are distinct, so the buffer of another one is another buffer
      rintro rfl
      have heq : s.log.block[tail]? = s.log.block[i]? := by rw [hblk, hblk', hc.2.2]
      have hlt : tail < s.log.block.length := (List.getElem?_eq_some_iff.1 hblk).1
      have := (List.getElem?_inj hlt hi.log.nodup).1 heq
      omega
    exact ⟨c, hc, hdata, (update_of_ne hcd _ _).trans hpin'⟩
  · intro c hc
    simp only [Bio.State.setPins_buf, Bio.setRefcnt_dev, Bio.setRefcnt_blockno, Bio.State.setPins_pins] at hc ⊢
    by_cases hcd : c = dbuf
    · subst hcd
      rw [update_self, hone] at hc
      exact absurd rfl hc
    · rw [update_of_ne hcd] at hc
      obtain ⟨i, hu, hblk', hd⟩ := hi.entry c hc
      simp only [hph, Phase.unpinned] at hu
      have hne : i ≠ tail := by
        rintro rfl
        rw [hblk] at hblk'
        exact hcd (hi.caches_unique ⟨hd, (Option.some.inj hblk').symm⟩ hdbuf.caches)
      exact ⟨i, by simp only [Phase.unpinned]; omega, hblk', hd⟩

theorem Inv.clear (hi : Inv s) (hph : s.phase = .install s.log.n) (hp : s.log.pc p = .commit) :
    Inv { s with log := { s.log with block := [] }, phase := .erase } := by
  have hpins := hi.pins_eq_zero (by rw [hph]; exact Nat.le_refl _)
  exact { log := hi.log.keep (.clear p hp), bio := hi.bio, active := fun _ => ⟨p, hp⟩,
          cleared := fun _ => rfl, fits := Nat.zero_le _, home := by simp, clean := hi.clean,
          copied := by simp, installed := by simp, pinned := by simp,
          entry := fun b hb => absurd (hpins b) hb }

theorem Inv.ret (hi : Inv s) (hp : s.log.pc p = .commit) (hb : s.log.block = []) :
    Inv { s with log := { s.log with pc := update s.log.pc p .finish },
                 phase := .writeLog 0 } := by
  have hpins := hi.pins_eq_zero (by rw [hb]; exact Nat.zero_le _)
  exact { log := hi.log.keep (.ret p hp hb), bio := hi.bio, active := fun h => absurd rfl h,
          cleared := by simp, fits := hi.fits, home := hi.home, clean := hi.clean,
          copied := by simp [hb], installed := by simp [hb], pinned := by simp [hb],
          entry := fun b hb' => absurd (hpins b) hb' }

/-! ## Steps of the log alone -/

/-- `begin_op` and `end_op` change neither the entries nor who is already in `commit`. -/
theorem logOnly_effect {l l' : Log.State P} {e : Log.Event P} (hi : Log.Inv l)
    (h : Log.Step l e l') (he : logOnly e = true) :
    l'.block = l.block ∧ l'.size = l.size ∧ ∀ q, l.pc q = .commit → l'.pc q = .commit := by
  -- the process that moves was not in `commit`
  have hmove : ∀ {p q : P} {c : Pc}, l.pc p ≠ .commit → l.pc q = .commit →
      update l.pc p c q = .commit := by
    intro p q c hp hq
    have hqp : q ≠ p := by
      rintro rfl
      exact hp hq
    rw [update_of_ne hqp, hq]
  have hbegin : ∀ {p : P}, l.lock = some (p, .beginOp) → l.pc p ≠ .commit := fun hl => by
    rcases Act.from_beginOp (hi.holder _ _ hl) with hp | hp <;> simp [hp]
  have hend : ∀ {p : P}, l.lock = some (p, .endOp) → l.pc p ≠ .commit := fun hl => by
    simp [hi.holder_inOp hl (Or.inl rfl)]
  cases h with
  | enter p a hl ha => exact ⟨rfl, rfl, fun q hq => hq⟩
  | sleep _ hl | admitted _ hl => exact ⟨rfl, rfl, fun q hq => hmove (hbegin hl) hq⟩
  | last p hl hc ho => exact ⟨rfl, rfl, fun q hq => hmove (hend hl) hq⟩
  | done p hl hc ho =>
    exact ⟨rfl, rfl, fun q hq => (wakeup_eq_iff (by simp) (by simp) _ q).2 (hmove (hend hl) hq)⟩
  | finish p hl =>
    have hp : l.pc p ≠ .commit := by simp [Act.from_finish (hi.holder _ _ hl)]
    exact ⟨rfl, rfl, fun q hq => (wakeup_eq_iff (by simp) (by simp) _ q).2 (hmove hp hq)⟩
  | wake p hp => exact ⟨rfl, rfl, fun q hq => hmove (by simp [hp]) hq⟩
  | _ => cases he

theorem Inv.logStep (hi : Inv s) {e : Log.Event P} {log : Log.State P} (he : logOnly e = true)
    (hl : Log.Step s.log e log) : Inv { s with log := log } := by
  obtain ⟨hblock, hsize, hpc⟩ := logOnly_effect hi.log hl he
  have hn : log.n = s.log.n := by simp only [Log.State.n, hblock]
  have hregion : ({ s with log := log } : State P).region = s.region := by
    simp only [State.region, hsize]
  exact { log := hi.log.keep hl, bio := hi.bio,
          active := fun h => (hi.active h).imp hpc,
          cleared := fun h => hblock.trans (hi.cleared h),
          fits := by simp only [hn, hsize]; exact hi.fits,
          home := by simp only [hblock, hregion]; exact hi.home,
          clean := by simp only [hregion]; exact hi.clean,
          copied := by simp only [hn, hblock]; exact hi.copied,
          installed := by simp only [hblock]; exact hi.installed,
          pinned := by simp only [hblock]; exact hi.pinned,
          entry := by simp only [hblock]; exact hi.entry }

theorem Inv.keep (hi : Inv s) (hP : Fintype.card P < 2 ^ 31 - 1) {s' : State P} {e : Event P}
    (h : Step s e s') : Inv s' := by
  cases h with
  | cache e bio he hb => exact hi.cache hP he hb
  | store p b data hp hh hm => exact hi.store data hp hh hm
  | log e log he hl => exact hi.logStep he hl
  | absorb p b log hl hh hin => exact hi.absorb hl hh hin
  | pin p b log hl hh hm hin => exact hi.pin hl hh hm hin
  | copyLog p dst src tail hph hp hdst hsrc hblk => exact hi.copyLog hph hp hdst hsrc hblk
  | writeHead p hb hph hp hn hh =>
    exact hi.writeHead hp hh _ (by rw [hph]; exact ⟨rfl, rfl⟩) rfl (by simp)
  | eraseHead p hb hph hp hh =>
    exact hi.writeHead hp hh _ (by rw [hph]; exact ⟨rfl, rfl⟩) rfl (fun _ => hi.cleared (Or.inl hph))
  | install p lbuf dbuf tail hph hp hlbuf hdbuf hblk => exact hi.install hph hp hlbuf hdbuf hblk
  | unpin p dbuf tail hph hp hdbuf hblk hpin => exact hi.unpin hph hp hdbuf hblk hpin
  | clear p hph hp => exact hi.clear hph hp
  | ret p hph hp hb => exact hi.ret hp hb

end Steps

/-! ## Runs -/

/-- The state in which `initlog` leaves the log and the cache: the log is empty, nothing is pinned,
    and the buffers of the log blocks that recovery has used hold what is on disk. -/
structure Booted [DecidableEq P] (s : State P) : Prop where
  log : ∃ nlog, s.log = Log.State.init P nlog
  bio : ∃ disk es, run Bio.step (Bio.State.init P disk) es = .next s.bio
  phase : s.phase = .writeLog 0
  pins : ∀ b, s.bio.pins b = 0
  clean : ∀ b blk, s.Caches b blk → s.region.Mem blk → (s.bio.buf b).data = s.bio.disk blk

variable [DecidableEq P] [Fintype P]

theorem Booted.inv {s : State P} (h : Booted s) : Inv s := by
  obtain ⟨nlog, hlog⟩ := h.log
  obtain ⟨disk, es, hbio⟩ := h.bio
  have hblock : s.log.block = [] := by rw [hlog]; rfl
  exact { log := hlog ▸ Log.Inv.init nlog, bio := Bio.Inv.of_run hbio,
          active := fun hne => absurd h.phase hne, cleared := fun _ => hblock,
          fits := by simp [Log.State.n, hblock], home := by simp [hblock], clean := h.clean,
          copied := by simp [hblock], installed := by simp [hblock], pinned := by simp [hblock],
          entry := fun b hb => absurd (h.pins b) hb }

theorem Inv.of_run (hP : Fintype.card P < 2 ^ 31 - 1) {s₀ s : State P} (h₀ : Booted s₀)
    {es : List (Event P)} (h : run step s₀ es = .next s) : Inv s :=
  run_keeps Inv (fun _ _ _ hi hs => hi.keep hP (step_eq_next hs)) es h₀.inv h

/-- While a commit runs no `log_write` starts and none is under way. -/
theorem Inv.no_logWrite {s : State P} (hi : Inv s) (hc : s.log.committing = true) (p : P) :
    (∀ blk, step s (.log (.enter p (.logWrite blk))) = .disabled) ∧
    ∀ b, step s (.logWrite p b) = .disabled := by
  have hp := hi.log.not_inOp hc
  constructor
  · intro blk
    have : Log.step s.log (.enter p (.logWrite blk)) = .disabled := by
      refine Outcome.guard_of_not _ (fun h => hp p ?_)
      exact Act.from_inOp h.2 (Or.inr ⟨blk, rfl⟩)
    simp [step, Outcome.guard, logOnly, this, Outcome.map]
  · intro b
    refine Outcome.guard_of_not _ (fun h => hp p ?_)
    exact hi.log.holder_inOp h.1 (Or.inr ⟨_, rfl⟩)

/-- In every state of every run of the log and the cache, by fewer processes than a `uint` counts:
    the entries are distinct; an entry is pinned once, in the one buffer of its block, which holds
    what was logged, until it has been written home, where it holds the same; no other buffer is
    pinned; a commit runs while no operation is in progress, and no `log_write` happens during it;
    after `commit` the log is empty and nothing is pinned; and when `log.lock` is free nobody sleeps
    in `begin_op` who could be admitted. -/
theorem log_pins (hP : Fintype.card P < 2 ^ 31 - 1) (s₀ s : State P) (h₀ : Booted s₀)
    (es : List (Event P)) (h : run step s₀ es = .next s) :
    s.log.block.Nodup ∧
    (∀ i blk, s.log.block[i]? = some blk →
      (s.phase.unpinned ≤ i → ∃ b, s.Caches b blk ∧ (s.bio.buf b).data = s.logged blk ∧
        s.bio.pins b = 1 ∧
        ∀ c, (s.bio.buf c).dev = ROOTDEV ∧ (s.bio.buf c).blockno = blk → c = b) ∧
      (i < s.phase.unpinned → s.bio.disk blk = s.logged blk)) ∧
    (∀ b, s.bio.pins b ≠ 0 → ∃ i, s.phase.unpinned ≤ i ∧
      s.log.block[i]? = some (s.bio.buf b).blockno ∧ (s.bio.buf b).dev = ROOTDEV) ∧
    (s.log.committing = true → s.log.outstanding = 0 ∧ ∀ p,
      (∀ blk, step s (.log (.enter p (.logWrite blk))) = .disabled) ∧
      ∀ b, step s (.logWrite p b) = .disabled) ∧
    (∀ p, s.log.pc p = .finish → s.log.n = 0 ∧ ∀ b, s.bio.pins b = 0) ∧
    (s.log.lock = none → ∀ p, s.log.pc p = .sleeping → ¬ (s.log.committing = false ∧
      (s.log.n : Int) + (s.log.outstanding + 1) * MAXOPBLOCKS ≤ LOGSIZE)) := by
  have hi := Inv.of_run hP h₀ h
  refine ⟨hi.log.nodup, fun i blk hblk => ⟨fun hu => ?_, fun hlt => ?_⟩, hi.entry,
    fun hc => ⟨hi.log.quiet hc, hi.no_logWrite hc⟩, fun p hp => ?_, fun _ p hp hno => ?_⟩
  · obtain ⟨b, hb, hdata, hpins⟩ := hi.pinned i blk hu hblk
    exact ⟨b, hb, hdata, hpins, fun c hc => hi.caches_unique hc hb⟩
  · refine hi.installed i blk ?_ hblk
    cases hph : s.phase <;> simp only [hph, Phase.unpinned, Phase.installed] at hlt ⊢ <;> omega
  · have hb := hi.log.erased p hp
    exact ⟨by simp [Log.State.n, hb], hi.pins_eq_zero (by simp [hb])⟩
  · rcases hi.log.asleep p hp with hc | hn
    · rw [hc] at hno
      cases hno.1
    · exact absurd hno.2 (by omega)

/-- After boot, with an all-zero disk and the log at block 2. -/
def bootZero : State Unit :=
  { log := Log.State.init Unit mkfsNlog, bio := Bio.State.init Unit fun _ => Block.zero, start := 2,
    phase := .writeLog 0, logged := fun _ => Block.zero }

/-- One operation logs block 100, whose buffer is pinned. -/
theorem log_pins_block100 : ∃ s : State Unit,
    run step bootZero
      [.log (.enter () .beginOp), .log (.leave () .beginOp), .cache (.bget () 1 100),
        .cache (.acquire ()), .cache (.fill () 0), .log (.enter () (.logWrite 100)),
        .logWrite () 0] = .next s ∧
    s.log.block = [100] ∧
    ∃ b, s.Caches b 100 ∧ (s.bio.buf b).data = s.logged 100 ∧ s.bio.pins b = 1 ∧
      ∀ c, (s.bio.buf c).dev = ROOTDEV ∧ (s.bio.buf c).blockno = 100 → c = b := by
  have hboot : Booted bootZero :=
    ⟨⟨mkfsNlog, rfl⟩, ⟨fun _ => Block.zero, [], rfl⟩, rfl, fun _ => rfl,
      fun b blk hc => by simp [bootZero, State.Caches, Bio.State.init] at hc⟩
  refine ⟨_, rfl, rfl, ?_⟩
  exact ((log_pins (by decide) bootZero _ hboot
    [.log (.enter () .beginOp), .log (.leave () .beginOp), .cache (.bget () 1 100),
      .cache (.acquire ()), .cache (.fill () 0), .log (.enter () (.logWrite 100)),
      .logWrite () 0] rfl).2.1 0 100 rfl).1 (Nat.zero_le _)

end Xv6.Log.Pins
