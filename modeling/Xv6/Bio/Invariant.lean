import Xv6.Bio.Cache

set_option autoImplicit false

/-! # The invariant of the buffer cache

Three facts hold in every state of every run: the pointers are a ring of all the buffers, no block
of a real device (`dev ≠ 0`) has two buffers, and `refcnt` counts the references to a buffer. A
reference is held by a process from `bget` on until its `brelse` is done, and by each pin. `refcnt`
is a `uint`, so that it counts modulo `2^32`. -/

namespace Xv6.Bio

open Machine Function

variable {P : Type} [Fintype P]

/-! ## References -/

/-- The processes that hold the buffer: the owner of its sleep-lock and those still in `brelse`. -/
def State.holders (s : State P) (b : BufId) : Nat :=
  (s.lock b).isSome.toNat + tally s.place (· = .releasing b)

/-- The processes in `bget` that wait for the sleep-lock of the buffer. -/
def State.waiters (s : State P) (b : BufId) : Nat := tally s.place (· = .waiting b)

/-- All references to a buffer. -/
def State.refs (s : State P) (b : BufId) : Nat := s.holders b + s.waiters b + s.pins b

/-- What a process at a place counts for. -/
def Place.refs : Place → BufId → Nat
  | .idle, _ => 0
  | .waiting c, b => if c = b then 1 else 0
  | .releasing c, b => if c = b then 1 else 0

theorem Place.refs_eq (c : Place) (b : BufId) :
    c.refs b = tallyOne (· = Place.releasing b) c + tallyOne (· = Place.waiting b) c := by
  cases c <;> simp [Place.refs, tallyOne]

/-- The references depend on the locks, the places and the pins. -/
theorem refs_congr {s s' : State P} (hl : s'.lock = s.lock) (hp : s'.place = s.place)
    (hn : s'.pins = s.pins) (b : BufId) : s'.refs b = s.refs b := by
  simp only [State.refs, State.holders, State.waiters, hl, hp, hn]

/-- Moving a process trades the reference of its old place for that of the new one. -/
theorem refs_goto [DecidableEq P] (s : State P) (p : P) (c : Place) (b : BufId) :
    (s.goto p c).refs b + (s.place p).refs b = s.refs b + c.refs b := by
  have h1 := tally_update (f := s.place) (q := (· = Place.releasing b)) p c
  have h2 := tally_update (f := s.place) (q := (· = Place.waiting b)) p c
  simp only [Place.refs_eq, State.refs, State.holders, State.waiters, State.goto_place, State.goto_lock,
    State.goto_pins]
  omega

/-- The owner of a sleep-lock counts for one reference. -/
theorem refs_setLock (s : State P) (b c : BufId) (o : Option P) :
    (s.setLock b o).refs c + (if b = c then (s.lock b).isSome.toNat else 0)
      = s.refs c + if b = c then o.isSome.toNat else 0 := by
  by_cases hbc : b = c
  · subst hbc
    simp only [State.refs, State.holders, State.waiters, State.setLock_lock, State.setLock_place, State.setLock_pins,
      update_self, if_pos]
    omega
  · simp [State.refs, State.holders, State.waiters, hbc, Ne.symm hbc]

theorem refs_setPins (s : State P) (b c : BufId) (n : Nat) :
    (s.setPins b n).refs c + (if b = c then s.pins b else 0) = s.refs c + if b = c then n else 0 := by
  by_cases hbc : b = c
  · subst hbc
    simp only [State.refs, State.holders, State.waiters, State.setPins_lock, State.setPins_place, State.setPins_pins,
      update_self, if_pos]
    omega
  · simp [State.refs, State.holders, State.waiters, hbc, Ne.symm hbc]

theorem ofNat_add_one (n : Nat) : UInt32.ofNat (n + 1) = UInt32.ofNat n + 1 :=
  UInt32.ofNat_add n 1

theorem ofNat_sub_one (n : Nat) : UInt32.ofNat (n + 1) - 1 = UInt32.ofNat n := by
  rw [ofNat_add_one, UInt32.add_sub_cancel]

/-! ## The invariant -/

structure Inv (s : State P) : Prop where
  /-- The list through `head` is a ring that contains every buffer. -/
  ring : ∃ l, Ring.Rep s.links l ∧ ∀ b, b ∈ l
  /-- A block of a real device is cached at most once. -/
  unique : ∀ b c, (s.buf b).dev ≠ 0 → (s.buf b).dev = (s.buf c).dev →
    (s.buf b).blockno = (s.buf c).blockno → b = c
  /-- `refcnt` counts the references. -/
  count : ∀ b, (s.buf b).refcnt = UInt32.ofNat (s.refs b)

/-! ## The loops of `bget` -/

section Loops

variable {s : State P} {l : List BufId}

omit [Fintype P]

theorem length_le_NBUF (h : l.Nodup) : l.length ≤ NBUF := by
  simpa using h.length_le_card

theorem cached_eq_find (h : Ring.Rep s.links l) (dev blockno : Nat) :
    s.cached dev blockno
      = l.find? (fun b => decide ((s.buf b).dev = dev ∧ (s.buf b).blockno = blockno)) :=
  h.fwd.findFrom_eq (by have := length_le_NBUF h.nodup; omega)

theorem unused_eq_find (h : Ring.Rep s.links l) :
    s.unused = l.reverse.find? (fun b => decide ((s.buf b).refcnt = 0)) :=
  h.bwd.findFrom_eq (by have := length_le_NBUF h.nodup; simp only [List.length_reverse]; omega)

theorem cached_some (h : Ring.Rep s.links l) {dev blockno : Nat} {b : BufId}
    (hb : s.cached dev blockno = some b) : (s.buf b).dev = dev ∧ (s.buf b).blockno = blockno := by
  rw [cached_eq_find h] at hb
  simpa using List.find?_some hb

/-- A block that is not found has no buffer, since the ring contains all of them. -/
theorem cached_none (h : Ring.Rep s.links l) (hall : ∀ b, b ∈ l) {dev blockno : Nat}
    (hb : s.cached dev blockno = none) (b : BufId) :
    ¬ ((s.buf b).dev = dev ∧ (s.buf b).blockno = blockno) := by
  rw [cached_eq_find h] at hb
  simpa using List.find?_eq_none.1 hb b (hall b)

/-- The recycled buffer is the last one of the list that is not referenced. -/
theorem unused_some (h : Ring.Rep s.links l) {b : BufId} (hb : s.unused = some b) :
    (s.buf b).refcnt = 0 ∧ ∃ l₁ l₂, l = l₁ ++ b :: l₂ ∧ ∀ c ∈ l₂, (s.buf c).refcnt ≠ 0 := by
  rw [unused_eq_find h, List.find?_eq_some_iff_append] at hb
  obtain ⟨h0, l₂, l₁, hl, hne⟩ := hb
  refine ⟨by simpa using h0, l₁.reverse, l₂.reverse, ?_, fun c hc => ?_⟩
  · rw [← List.reverse_reverse l, hl]
    simp
  · simpa using hne c (List.mem_reverse.1 hc)

end Loops

/-! ## Every step keeps the invariant -/

section Steps

variable [DecidableEq P] {s s' : State P} {e : Event P}

omit [DecidableEq P] in
@[simp] theorem setBuf_refs (s : State P) (b c : BufId) (x : Buf) :
    (s.setBuf b x).refs c = s.refs c := refs_congr rfl rfl rfl c

omit [DecidableEq P] in
@[simp] theorem setRefcnt_refs (s : State P) (b c : BufId) (r : UInt32) :
    (s.setRefcnt b r).refs c = s.refs c := refs_congr rfl rfl rfl c

omit [Fintype P] in
/-- Only recycling makes a buffer carry another block. -/
theorem Step.ident (h : Step s e s') (b : BufId) :
    ((s'.buf b).dev = (s.buf b).dev ∧ (s'.buf b).blockno = (s.buf b).blockno) ∨
    (s.cached (s'.buf b).dev (s'.buf b).blockno = none ∧ s.unused = some b) := by
  cases h with
  | recycle p dev blockno c hp hc hu =>
    by_cases hb : b = c
    · subst hb
      exact Or.inr ⟨by simpa using hc, hu⟩
    · exact Or.inl (by simp [hb])
  | fill _ c | store _ c =>
    left
    by_cases hb : b = c
    · subst hb; simp
    · simp [hb]
  | _ => left; simp

theorem Inv.ring_step (hi : Inv s) (h : Step s e s') :
    ∃ l, Ring.Rep s'.links l ∧ ∀ b, b ∈ l := by
  cases h with
  | last p b hp hr =>
    obtain ⟨l, hl, hall⟩ := hi.ring
    obtain ⟨l₁, l₂, rfl⟩ := List.append_of_mem (hall b)
    refine ⟨b :: (l₁ ++ l₂), hl.unlink.insertFront ?_, fun c => ?_⟩
    · have := hl.nodup
      rw [List.nodup_middle, List.nodup_cons] at this
      exact this.1
    · have := hall c
      simp only [List.mem_append, List.mem_cons] at this ⊢
      tauto
  | _ => exact hi.ring

/-- Two buffers for one block would need a recycled one next to one that was found before. -/
theorem Inv.unique_step (hi : Inv s) (h : Step s e s') (b c : BufId) (hd : (s'.buf b).dev ≠ 0)
    (hdev : (s'.buf b).dev = (s'.buf c).dev) (hblk : (s'.buf b).blockno = (s'.buf c).blockno) :
    b = c := by
  obtain ⟨l, hl, hall⟩ := hi.ring
  rcases h.ident b with ⟨hb1, hb2⟩ | ⟨hb, hub⟩ <;> rcases h.ident c with ⟨hc1, hc2⟩ | ⟨hc, huc⟩
  · exact hi.unique b c (hb1 ▸ hd) (by rw [← hb1, ← hc1, hdev]) (by rw [← hb2, ← hc2, hblk])
  · exact absurd ⟨by rw [← hb1, hdev], by rw [← hb2, hblk]⟩ (cached_none hl hall hc b)
  · exact absurd ⟨by rw [← hc1, hdev], by rw [← hc2, hblk]⟩ (cached_none hl hall hb c)
  · exact Option.some.inj (hub.symm.trans huc)

omit [DecidableEq P] in
theorem Inv.count_gain (hi : Inv s) {b c : BufId}
    (hr : (s'.buf c).refcnt = if b = c then (s.buf c).refcnt + 1 else (s.buf c).refcnt)
    (hrefs : s'.refs c = s.refs c + if b = c then 1 else 0) :
    (s'.buf c).refcnt = UInt32.ofNat (s'.refs c) := by
  rw [hr, hrefs, hi.count c]
  split
  · rw [ofNat_add_one]
  · rfl

omit [DecidableEq P] in
theorem Inv.count_drop (hi : Inv s) {b c : BufId}
    (hr : (s'.buf c).refcnt = if b = c then (s.buf c).refcnt - 1 else (s.buf c).refcnt)
    (hrefs : s'.refs c + (if b = c then 1 else 0) = s.refs c) :
    (s'.buf c).refcnt = UInt32.ofNat (s'.refs c) := by
  rw [hr, hi.count c, ← hrefs]
  split
  · rw [ofNat_sub_one]
  · rfl

/-- The second half of `brelse`, wherever the buffer is in the list. -/
theorem Inv.count_unref (hi : Inv s) {p : P} {b c : BufId} {k : Ring.Links BufId}
    (hp : s.place p = .releasing b) :
    ((({ s with links := k }.setRefcnt b ((s.buf b).refcnt - 1)).goto p .idle).buf c).refcnt
      = UInt32.ofNat ((({ s with links := k }.setRefcnt b ((s.buf b).refcnt - 1)).goto p
          .idle).refs c) := by
  refine hi.count_drop (b := b) (by by_cases hbc : b = c <;> simp [hbc]) ?_
  have hrefs := refs_goto ({ s with links := k }.setRefcnt b ((s.buf b).refcnt - 1)) p .idle c
  have hlinks : ({ s with links := k } : State P).refs c = s.refs c := refs_congr rfl rfl rfl c
  rw [setRefcnt_place, hp, setRefcnt_refs, hlinks] at hrefs
  simpa [Place.refs] using hrefs

theorem Inv.count_step (hi : Inv s) (h : Step s e s') (c : BufId) :
    (s'.buf c).refcnt = UInt32.ofNat (s'.refs c) := by
  cases h with
  | hit p dev blockno b hp hb =>
    have hrefs := refs_goto (s.setRefcnt b ((s.buf b).refcnt + 1)) p (.waiting b) c
    refine hi.count_gain (b := b) ?_ ?_
    · by_cases hbc : b = c
      · subst hbc; simp
      · simp [hbc]
    · rw [show (s.setRefcnt b ((s.buf b).refcnt + 1)).place p = .idle from hp] at hrefs
      simpa [Place.refs] using hrefs
  | recycle p dev blockno b hp hc hb =>
    obtain ⟨l, hl, -⟩ := hi.ring
    have h0 := (unused_some hl hb).1
    refine hi.count_gain (b := b) ?_ ?_
    · by_cases hbc : b = c
      · subst hbc; simp [h0]
      · simp [hbc, Ne.symm hbc]
    · have hrefs := refs_goto (s.setBuf b
        { s.buf b with dev := dev, blockno := blockno, valid := false, refcnt := 1 }) p (.waiting b) c
      rw [State.setBuf_place, hp] at hrefs
      simpa [Place.refs] using hrefs
  | acquire p b hp hl =>
    -- the waiter becomes the holder
    have h1 := refs_setLock s b c (some p)
    have h2 := refs_goto (s.setLock b (some p)) p .idle c
    rw [State.setLock_place, hp] at h2
    simp only [Place.refs, hl, Option.isSome_none, Option.isSome_some, Bool.toNat_false,
      Bool.toNat_true, ite_self] at h1 h2
    rw [State.goto_buf, State.setLock_buf, hi.count c]
    congr 1
    omega
  | fill _ b | store _ b =>
    rw [setBuf_refs, ← hi.count c]
    by_cases hbc : c = b
    · subst hbc; simp
    · simp [hbc]
  | bwrite p b hp hl => exact hi.count c
  | brelse p b hp hl =>
    -- the owner of the sleep-lock keeps its reference until the second half of `brelse`
    have h1 := refs_setLock s b c none
    have h2 := refs_goto (s.setLock b none) p (.releasing b) c
    rw [State.setLock_place, hp] at h2
    simp only [Place.refs, hl, Option.isSome_none, Option.isSome_some, Bool.toNat_false,
      Bool.toNat_true, ite_self] at h1 h2
    rw [State.goto_buf, State.setLock_buf, hi.count c]
    congr 1
    omega
  | last _ _ hp | unref _ _ hp => exact hi.count_unref hp
  | bpin p b hp =>
    refine hi.count_gain (b := b) (by by_cases hbc : b = c <;> simp [hbc]) ?_
    have hpins := refs_setPins (s.setRefcnt b ((s.buf b).refcnt + 1)) b c (s.pins b + 1)
    simp only [setRefcnt_refs, setRefcnt_pins] at hpins
    by_cases hbc : b = c
    · subst hbc
      simp only [if_pos] at hpins ⊢
      omega
    · simpa [hbc] using hpins
  | bunpin p b hp hpin =>
    refine hi.count_drop (b := b) (by by_cases hbc : b = c <;> simp [hbc]) ?_
    have hpins := refs_setPins (s.setRefcnt b ((s.buf b).refcnt - 1)) b c (s.pins b - 1)
    simp only [setRefcnt_refs, setRefcnt_pins] at hpins
    by_cases hbc : b = c
    · subst hbc
      simp only [if_pos] at hpins ⊢
      omega
    · simpa [hbc] using hpins

theorem Inv.keep (hi : Inv s) (h : Step s e s') : Inv s' where
  ring := hi.ring_step h
  unique := hi.unique_step h
  count := hi.count_step h

end Steps

/-! ## Runs -/

theorem binitLinks_rep : Ring.Rep binitLinks (List.finRange NBUF).reverse := by
  have := (Ring.rep_empty (α := BufId)).insertAll (List.nodup_finRange NBUF) (by simp)
  rwa [List.append_nil] at this

theorem Inv.init (P : Type) [Fintype P] (disk : Nat → Block) : Inv (State.init P disk) where
  ring := ⟨_, binitLinks_rep, by simp⟩
  unique := fun b c hd => absurd rfl hd
  count := by
    intro b
    have hr : tally (State.init P disk).place (· = .releasing b) = 0 :=
      tally_eq_zero_iff.2 (by simp [State.init])
    have hw : tally (State.init P disk).place (· = .waiting b) = 0 :=
      tally_eq_zero_iff.2 (by simp [State.init])
    have h0 : (State.init P disk).refs b = 0 := by
      rw [State.refs, State.holders, State.waiters, hr, hw]
      rfl
    rw [h0]
    rfl

variable [DecidableEq P]

theorem Inv.of_run {disk : Nat → Block} {es : List (Event P)} {s : State P}
    (h : run step (State.init P disk) es = .next s) : Inv s :=
  run_keeps Inv (fun _ _ _ hi hs => hi.keep (step_eq_next hs)) es (Inv.init P disk) h

/-- A buffer in use is never recycled. -/
theorem Inv.not_recycled {s s' : State P} {e : Event P} (hi : Inv s) (h : Step s e s')
    {b : BufId} (hb : (s.buf b).refcnt ≠ 0) :
    (s'.buf b).dev = (s.buf b).dev ∧ (s'.buf b).blockno = (s.buf b).blockno := by
  rcases h.ident b with hsame | ⟨-, hu⟩
  · exact hsame
  · obtain ⟨l, hl, -⟩ := hi.ring
    exact absurd (unused_some hl hu).1 hb

omit [Fintype P] in
/-- `bget` of a block that has no buffer recycles the last unreferenced buffer of the list. -/
theorem bget_recycles {s s' : State P} {l : List BufId} (hl : Ring.Rep s.links l)
    {p : P} {dev blockno : Nat} (h : step s (.bget p dev blockno) = .next s')
    (hnone : ∀ b, ¬ ((s.buf b).dev = dev ∧ (s.buf b).blockno = blockno)) :
    ∃ l₁ b l₂, l = l₁ ++ b :: l₂ ∧ (s.buf b).refcnt = 0 ∧ (∀ c ∈ l₂, (s.buf c).refcnt ≠ 0) ∧
      s'.place p = .waiting b ∧
      s'.buf = update s.buf b
        { s.buf b with dev := dev, blockno := blockno, valid := false, refcnt := 1 } := by
  cases step_eq_next h with
  | hit p dev blockno b hp hb => exact absurd (cached_some hl hb) (hnone b)
  | recycle p dev blockno b hp hc hb =>
    obtain ⟨h0, l₁, l₂, hsplit, hne⟩ := unused_some hl hb
    exact ⟨l₁, b, l₂, hsplit, h0, hne, by simp, rfl⟩

omit [DecidableEq P] in
/-- `refcnt` counts modulo `2^32`. -/
theorem Inv.refcnt_toNat {s : State P} (hi : Inv s) (b : BufId) :
    (s.buf b).refcnt.toNat = s.refs b % 2 ^ 32 := by
  rw [hi.count b, UInt32.toNat_ofNat']

omit [DecidableEq P] in
/-- A pinned buffer is in use, unless there are more processes than a `uint` can count. -/
theorem Inv.refcnt_ne_zero {s : State P} (hi : Inv s) (hP : Fintype.card P < 2 ^ 31 - 1)
    {b : BufId} (hb : s.pins b = 1) : (s.buf b).refcnt ≠ 0 := by
  intro h0
  have hmod := hi.refcnt_toNat b
  have hl : (s.lock b).isSome.toNat ≤ 1 := Bool.toNat_le _
  have hr : tally s.place (· = .releasing b) ≤ Fintype.card P := tally_le_card
  have hw : tally s.place (· = .waiting b) ≤ Fintype.card P := tally_le_card
  rw [h0, State.refs, State.holders, State.waiters, hb] at hmod
  simp only [UInt32.toNat_zero] at hmod
  omega

/-- In every state of every run of the buffer cache, by any number of processes:
    the list is a ring of all `NBUF` buffers in which `next` and `prev` are inverse to each other;
    a block of a real device has at most one buffer; a step leaves the block of a buffer with
    `refcnt > 0` alone; `refcnt` is the number of holders, waiters and pins modulo `2^32`, so it is
    that number as long as it is less than `2^32`; and `bget` of a block without a buffer takes,
    among the unreferenced buffers, the one nearest to the end of the list. -/
theorem cache_invariant (disk : Nat → Block) (es : List (Event P)) (s : State P)
    (h : run step (State.init P disk) es = .next s) :
    (∃ l : List BufId, Ring.Rep s.links l ∧ l.Nodup ∧ (∀ b, b ∈ l) ∧
      (∀ x, s.links.prev (s.links.next x) = x ∧ s.links.next (s.links.prev x) = x) ∧
      ∀ p dev blockno s', step s (.bget p dev blockno) = .next s' →
        (∀ b, ¬ ((s.buf b).dev = dev ∧ (s.buf b).blockno = blockno)) →
        ∃ l₁ b l₂, l = l₁ ++ b :: l₂ ∧ (s.buf b).refcnt = 0 ∧ (∀ c ∈ l₂, (s.buf c).refcnt ≠ 0) ∧
          s'.place p = .waiting b ∧
          s'.buf = update s.buf b
            { s.buf b with dev := dev, blockno := blockno, valid := false, refcnt := 1 }) ∧
    (∀ b c, (s.buf b).dev ≠ 0 → (s.buf b).dev = (s.buf c).dev →
      (s.buf b).blockno = (s.buf c).blockno → b = c) ∧
    (∀ e s' b, step s e = .next s' → (s.buf b).refcnt ≠ 0 →
      (s'.buf b).dev = (s.buf b).dev ∧ (s'.buf b).blockno = (s.buf b).blockno) ∧
    (∀ b, (s.buf b).refcnt.toNat = (s.holders b + s.waiters b + s.pins b) % 2 ^ 32) ∧
    (∀ b, s.holders b + s.waiters b + s.pins b < 2 ^ 32 →
      (s.buf b).refcnt.toNat = s.holders b + s.waiters b + s.pins b) := by
  have hi := Inv.of_run h
  obtain ⟨l, hl, hall⟩ := hi.ring
  have hmem : ∀ x : Option BufId, x ∈ none :: l.map some := by
    rintro (_ | b)
    · exact List.mem_cons_self
    · exact List.mem_cons_of_mem _ (List.mem_map_of_mem (hall b))
  refine ⟨⟨l, hl, hl.nodup, hall, fun x => ⟨hl.prev_next (hmem x), hl.next_prev (hmem x)⟩,
    fun p dev blockno s' hs hnone => bget_recycles hl hs hnone⟩, hi.unique,
    fun e s' b hs hb => hi.not_recycled (step_eq_next hs) hb, hi.refcnt_toNat, fun b hb => ?_⟩
  rw [hi.refcnt_toNat b]
  exact Nat.mod_eq_of_lt hb

/-- One process holds block 5 and another waits for it: two references. -/
theorem cache_invariant_shared_block : ∃ s : State (Fin 2),
    run step (State.init (Fin 2) fun _ => Block.zero)
      [.bget 0 1 5, .bget 1 1 5, .acquire 0] = .next s ∧
    s.holders 0 = 1 ∧ s.waiters 0 = 1 ∧
    (s.buf 0).refcnt.toNat = s.holders 0 + s.waiters 0 + s.pins 0 := by
  refine ⟨_, rfl, by decide, by decide, ?_⟩
  exact (cache_invariant (fun _ => Block.zero) [.bget 0 1 5, .bget 1 1 5, .acquire 0] _
    rfl).2.2.2.2 0 (by decide)

/-! ## The counter wraps around -/

omit [Fintype P] in
/-- Pinning a buffer `n` times adds `n` to its `refcnt`. -/
theorem run_bpin (s : State P) (p : P) (b : BufId) (hp : s.place p = .idle) (n : Nat) :
    ∃ s', run step s (List.replicate n (.bpin p b)) = .next s' ∧ s'.lock = s.lock ∧
      s'.place = s.place ∧ s'.pins b = s.pins b + n ∧
      (s'.buf b).refcnt = (s.buf b).refcnt + UInt32.ofNat n := by
  induction n generalizing s with
  | zero => exact ⟨s, rfl, rfl, rfl, rfl, by simp⟩
  | succ n ih =>
    let s₁ := (s.setBuf b { s.buf b with refcnt := (s.buf b).refcnt + 1 }).setPins b (s.pins b + 1)
    have hs : step s (.bpin p b) = .next s₁ := by simp [step, hp, s₁]
    obtain ⟨s', hrun, hlock, hplace, hpins, hrefs⟩ := ih s₁ hp
    refine ⟨s', by rw [List.replicate_succ, run_cons_next _ hs, hrun], hlock, hplace, ?_, ?_⟩
    · rw [hpins]
      simp only [s₁, State.setPins_pins, update_self]
      omega
    · rw [hrefs, ofNat_add_one]
      simp only [s₁, State.setPins_buf, State.setBuf_buf, update_self]
      rw [UInt32.add_assoc, UInt32.add_comm 1]

/-- A buffer that is held and pinned `2^32 - 1` times has `refcnt` 0: the count of its references
    does not fit a `uint`. -/
theorem refcnt_wraps : ∃ s : State Unit,
    run step (State.init Unit fun _ => Block.zero)
      ([.bget () 1 0, .acquire ()] ++ List.replicate (2 ^ 32 - 1) (.bpin () 0)) = .next s ∧
    s.holders 0 + s.waiters 0 + s.pins 0 = 2 ^ 32 ∧ (s.buf 0).refcnt.toNat = 0 := by
  obtain ⟨s₀, hrun₀, hplace₀, hlock₀, hpins₀⟩ : ∃ s₀ : State Unit,
      run step (State.init Unit fun _ => Block.zero) [.bget () 1 0, .acquire ()] = .next s₀ ∧
      s₀.place () = .idle ∧ s₀.lock 0 = some () ∧ s₀.pins 0 = 0 :=
    ⟨_, rfl, rfl, rfl, rfl⟩
  obtain ⟨s, hrun, hlock, hplace, hpins, -⟩ := run_bpin s₀ () 0 hplace₀ (2 ^ 32 - 1)
  have hall : run step (State.init Unit fun _ => Block.zero)
      ([.bget () 1 0, .acquire ()] ++ List.replicate (2 ^ 32 - 1) (.bpin () 0)) = .next s := by
    rw [run_append _ _ hrun₀, hrun]
  have hrefs : s.refs 0 = 2 ^ 32 := by
    have hr : tally s.place (· = .releasing 0) = 0 :=
      tally_eq_zero_iff.2 (by simp [hplace, hplace₀])
    have hw : tally s.place (· = .waiting 0) = 0 :=
      tally_eq_zero_iff.2 (by simp [hplace, hplace₀])
    rw [State.refs, State.holders, State.waiters, hr, hw, hlock, hlock₀, hpins, hpins₀]
    rfl
  refine ⟨s, hall, hrefs, ?_⟩
  rw [(Inv.of_run hall).refcnt_toNat 0, hrefs, Nat.mod_self]

end Xv6.Bio
