import Mathlib.Algebra.Order.BigOperators.Group.Finset
import Xv6.Log.Invariant

set_option autoImplicit false

/-! # The log reservation

`begin_op` admits an operation when `lh.n + (outstanding+1)*MAXOPBLOCKS <= LOGSIZE`, so operations
that log at most `MAXOPBLOCKS` blocks each never need more than `LOGSIZE` entries together: each new
block finds one (`Reserved`, `new_block_fits`). The capacity test of `log_write` is against
`log.size - 1`, and `mkfs` gives the log `LOGSIZE` blocks, the header among them: one entry less than
is reserved. A group that has logged `LOGSIZE - 1` blocks panics at the next `log_write`, be it of a
new block or of one already in the log (`reservation_enough_iff`).

What the operations of a run pass to `log_write` is read off its events (`Uses`). -/

namespace Xv6.Log

open Machine Function

variable {P : Type} [DecidableEq P]

/-- What has been passed to `log_write`, each block once: by the current group, since the last
    commit, and by the current operation of each process. -/
structure Uses (P : Type) where
  group : List Nat
  op : P → List Nat

/-- Nothing logged yet. -/
def Uses.none (P : Type) : Uses P := ⟨[], fun _ => []⟩

def Uses.add (u : Uses P) : Event P → Uses P
  | .leave p (.logWrite b) =>
    { group := record u.group b, op := update u.op p (record (u.op p) b) }
  | .leave p .endOp => { u with op := update u.op p [] }
  | .clear _ => { u with group := [] }
  | _ => u

/-- A condition on each event, given what was logged before it. -/
def along (c : Uses P → Event P → Bool) : Uses P → List (Event P) → Bool
  | _, [] => true
  | u, e :: es => c u e && along c (u.add e) es

/-- No operation logs more than `MAXOPBLOCKS` distinct blocks. -/
def Uses.opFits (u : Uses P) : Event P → Bool
  | .leave p (.logWrite b) => decide ((record (u.op p) b).length ≤ MAXOPBLOCKS)
  | _ => true

/-- No `log_write` once the group has logged `LOGSIZE - 1` distinct blocks. -/
def Uses.groupFits (u : Uses P) : Event P → Bool
  | .leave _ (.logWrite _) => decide (u.group.length < LOGSIZE - 1)
  | _ => true

variable {s s' : State P} {e : Event P}

/-- The entries of the log are the blocks the group has logged. -/
theorem Step.group (hs : Step s e s') (u : Uses P)
    (hu : s.block = u.group) : s'.block = (u.add e).group := by
  cases hs with
  | enter p a hl ha => cases a <;> exact hu
  | write p b hl hn hsize ho => exact congrArg (record · b) hu
  | clear p hp => rfl
  | _ => exact hu

theorem Step.size (hs : Step s e s') : s'.size = s.size := by
  cases hs <;> rfl

/-- A step that goes on respects the capacity. -/
theorem Step.groupFits (hs : Step s e s') (u : Uses P)
    (hu : s.block = u.group) (hsize : s.size = LOGSIZE) : u.groupFits e = true := by
  cases hs with
  | write p b hl hn hcap ho =>
    have hL : LOGSIZE = 30 := rfl
    rw [State.n, hu, hsize] at hcap
    simp only [Uses.groupFits, decide_eq_true_eq]
    omega
  | enter p a hl ha => cases a <;> rfl
  | _ => rfl

section

variable [Fintype P]

/-- In an invariant state the only panic is that of a full log. -/
theorem Inv.panic_full {π : Panic} (h : Inv s) (hp : step s e = .panic π) (u : Uses P)
    (hu : s.block = u.group) (hsize : s.size = LOGSIZE) :
    π = .tooBig ∧ u.groupFits e = false := by
  obtain rfl := h.step_panic hp
  rcases step_panic_cases hp with ⟨p, b, rfl, -, -, hbig⟩ | ⟨_, _, _, _, hπ, -⟩ | ⟨_, _, _, hπ, -⟩
  · have hL : LOGSIZE = 30 := rfl
    rw [State.n, hu, hsize] at hbig
    refine ⟨rfl, ?_⟩
    simp only [Uses.groupFits, decide_eq_false_iff_not]
    omega
  · cases hπ
  · cases hπ

theorem run_no_panic_iff (h : Inv s) (u : Uses P) (hu : s.block = u.group)
    (hsize : s.size = LOGSIZE) (es : List (Event P)) (hrun : run step s es ≠ .disabled) :
    (∀ π, run step s es ≠ .panic π) ↔ along Uses.groupFits u es = true := by
  induction es generalizing s u with
  | nil => simp [along]
  | cons e es ih =>
    cases hs : step s e with
    | next s' =>
      have hstep := step_eq_next hs
      rw [run_cons_next es hs] at hrun ⊢
      rw [ih (h.keep hstep) (u.add e) (hstep.group u hu) (hstep.size.trans hsize) hrun, along,
        hstep.groupFits u hu hsize, Bool.true_and]
    | panic π =>
      rw [run_cons_panic es hs, along, (h.panic_full hs u hu hsize).2, Bool.false_and]
      simp
    | disabled => exact absurd (run_cons_disabled es hs) hrun

/-- **When the reservation is enough.** On a log laid out by `mkfs`, a run of any number of
    processes ends in no panic exactly when no `log_write` is made after the group has logged
    `LOGSIZE - 1` distinct blocks. -/
theorem reservation_enough_iff (es : List (Event P))
    (hrun : run step (State.init P mkfsNlog) es ≠ .disabled) :
    (∀ π, run step (State.init P mkfsNlog) es ≠ .panic π)
      ↔ along Uses.groupFits (Uses.none P) es = true :=
  run_no_panic_iff (Inv.init mkfsNlog) (Uses.none P) rfl rfl es hrun

end

/-! ## Why `LOGSIZE` entries are enough -/

section Reserved

variable [Fintype P] {u : Uses P} {p : P} {b : Nat}

/-- Of the entries reserved for the operations in progress they have used what they have logged. -/
structure Reserved (s : State P) (u : Uses P) : Prop where
  fits : ∀ p, (u.op p).length ≤ MAXOPBLOCKS
  inOp : ∀ p, u.op p ≠ [] → s.pc p = .inOp
  block : ∀ p, ∀ b ∈ u.op p, b ∈ s.block
  within : s.n + s.outstanding * MAXOPBLOCKS ≤ LOGSIZE + (∑ p, (u.op p).length : Nat)

omit [DecidableEq P] in
/-- There are at most `LOGSIZE` entries: no operation has used more than is reserved for it. -/
theorem Reserved.n_le (h : Reserved s u) (hcount : s.outstanding = tally s.pc (· = Pc.inOp)) :
    s.n ≤ LOGSIZE := by
  have hsum : ∑ p, (u.op p).length = ∑ p with s.pc p = .inOp, (u.op p).length :=
    (Finset.sum_filter_of_ne fun p _ hp => h.inOp p fun h0 => hp (by rw [h0]; rfl)).symm
  have hle : ∑ p, (u.op p).length ≤ tally s.pc (· = Pc.inOp) * MAXOPBLOCKS :=
    hsum.trans_le (Finset.sum_le_card_nsmul _ _ _ fun p _ => h.fits p)
  have hwithin := h.within
  rw [hcount] at hwithin
  omega

/-- A step that changes what one operation has logged. -/
theorem Reserved.change {t : State P} {g l : List Nat} (h : Reserved s u)
    (hl : l.length ≤ MAXOPBLOCKS) (hin : l ≠ [] → t.pc p = .inOp) (hmem : ∀ b ∈ l, b ∈ t.block)
    (hpc : ∀ q, q ≠ p → s.pc q = .inOp → t.pc q = .inOp) (hblock : ∀ b ∈ s.block, b ∈ t.block)
    (hn : t.n + t.outstanding * MAXOPBLOCKS + (u.op p).length ≤
      s.n + s.outstanding * MAXOPBLOCKS + l.length) : Reserved t ⟨g, update u.op p l⟩ where
  fits := (forall_update_iff u.op fun _ l => l.length ≤ MAXOPBLOCKS).2 ⟨hl, fun q _ => h.fits q⟩
  inOp := (forall_update_iff u.op fun q l => l ≠ [] → t.pc q = .inOp).2
    ⟨hin, fun q hq hne => hpc q hq (h.inOp q hne)⟩
  block := (forall_update_iff u.op fun _ l => ∀ b ∈ l, b ∈ t.block).2
    ⟨hmem, fun q _ b hb => hblock b (h.block q b hb)⟩
  within := by
    have hsum : (∑ q, (update u.op p l q).length) + (u.op p).length =
        (∑ q, (u.op q).length) + l.length := by
      rw [← Finset.sum_erase_add _ _ (Finset.mem_univ p), ← Finset.sum_erase_add (f := fun q =>
        (u.op q).length) _ (Finset.mem_univ p), update_self, Finset.sum_congr rfl fun q hq => by
          rw [update_of_ne (Finset.ne_of_mem_erase hq)]]
      omega
    have hwithin := h.within
    simp only
    omega

theorem Reserved.write {t : State P} (h : Reserved s u) (hp : s.pc p = .inOp)
    (hfit : u.opFits (.leave p (.logWrite b)) = true) (hpc : t.pc = s.pc)
    (ho : t.outstanding = s.outstanding) (hblock : t.block = record s.block b) :
    Reserved t (u.add (.leave p (.logWrite b))) := by
  have hmem : ∀ {l : List Nat} {x : Nat}, x ∈ record l b ↔ x ∈ l ∨ x = b := by
    intro l x
    unfold record
    split <;> grind
  have hlength : ∀ l : List Nat, (record l b).length = l.length + if b ∈ l then 0 else 1 := by
    intro l
    unfold record
    split <;> simp
  refine h.change (of_decide_eq_true hfit) (fun _ => hpc ▸ hp) (fun x hx => ?_)
    (fun q _ hq => hpc ▸ hq) (fun x hx => hblock ▸ hmem.2 (Or.inl hx)) ?_
  · rw [hblock]
    exact hmem.2 ((hmem.1 hx).imp_left (h.block p x))
  · -- a block the operation has logged is in the log
    rw [State.n, State.n, hblock, ho, hlength, hlength]
    have := h.block p b
    grind

/-- An operation that ends gives back what it has not used. -/
theorem Reserved.endOp {t : State P} (h : Reserved s u) (hblock : t.block = s.block)
    (ho : t.outstanding = s.outstanding - 1)
    (hpc : ∀ q, q ≠ p → s.pc q = .inOp → t.pc q = .inOp) : Reserved t (u.add (.leave p .endOp)) := by
  refine h.change (Nat.zero_le _) (fun hne => absurd rfl hne) (fun _ hb => absurd hb List.not_mem_nil)
    hpc (fun b hb => hblock ▸ hb) ?_
  have := h.fits p
  rw [State.n, State.n, hblock, ho, Int.sub_mul]
  omega

theorem Reserved.keep (h : Reserved s u) (hi : Inv s) (hs : Step s e s') (hfit : u.opFits e = true) :
    Reserved s' (u.add e) := by
  have hstay : ∀ {p : P} {c : Pc}, s.pc p ≠ .inOp → ∀ q, u.op q ≠ [] → update s.pc p c q = .inOp :=
    fun hp q hq => (update_of_ne (fun he => hp (by rw [← he]; exact h.inOp q hq)) _ _).trans
      (h.inOp q hq)
  have hbegin : ∀ {p : P}, s.lock = some (p, .beginOp) → s.pc p ≠ .inOp := fun hl => by
    rcases Act.from_beginOp (hi.holder _ _ hl) with hp | hp <;> simp [hp]
  have hwake : ∀ {pc : P → Pc} {q : P}, pc q = .inOp → wakeup pc q = .inOp :=
    (wakeup_eq_iff (by simp) (by simp) _ _).2
  cases hs with
  | enter p a => exact ⟨h.fits, h.inOp, h.block, h.within⟩
  | sleep p hl => exact ⟨h.fits, hstay (hbegin hl), h.block, h.within⟩
  | admitted p hl hw =>
    refine ⟨h.fits, hstay (hbegin hl), h.block, ?_⟩
    exact (not_lt.1 (not_or.1 hw).2).trans (le_add_of_nonneg_right (Int.natCast_nonneg _))
  | write p b hl => exact h.write (hi.holder_inOp hl (Or.inr ⟨b, rfl⟩)) hfit rfl rfl rfl
  | last p hl hc ho => exact h.endOp rfl (by rw [ho]; rfl) fun q hq hin => (update_of_ne hq _ _).trans hin
  | done => exact h.endOp rfl rfl fun q hq hin => hwake ((update_of_ne hq _ _).trans hin)
  | finish p hl =>
    have hp : s.pc p ≠ .inOp := by rw [Act.from_finish (hi.holder p _ hl)]; decide
    exact ⟨h.fits, fun q hq => hwake (hstay hp q hq), h.block, h.within⟩
  | clear p hp =>
    -- no operation is in progress
    have hc := hi.busy p (by rw [hp]; rfl)
    refine ⟨h.fits, h.inOp, fun q b hb => ?_, ?_⟩
    · exact absurd (h.inOp q (List.ne_nil_of_mem hb)) (hi.not_inOp hc q)
    · show ((0 : Nat) : Int) + s.outstanding * MAXOPBLOCKS ≤ _
      rw [hi.quiet hc]
      omega
  | ret p hp | wake p hp => exact ⟨h.fits, hstay (by simp [hp]), h.block, h.within⟩

theorem Reserved.run {es : List (Event P)} (h : Reserved s u) (hi : Inv s)
    (hops : along Uses.opFits u es = true) (hrun : Machine.run step s es = .next s') :
    Inv s' ∧ Reserved s' (es.foldl Uses.add u) := by
  induction es generalizing s u with
  | nil =>
    cases hrun
    exact ⟨hi, h⟩
  | cons e es ih =>
    obtain ⟨hfit, hops⟩ := Bool.and_eq_true_iff.1 hops
    obtain ⟨t, hs, hrun⟩ := run_cons_eq_next hrun
    have hstep := step_eq_next hs
    exact ih (h.keep hi hstep hfit) (hi.keep hstep) hops hrun

/-- **What the reservation gives.** While the operations log at most `MAXOPBLOCKS` blocks each, there
    is an entry among the first `LOGSIZE` for every block that is not in the log yet. -/
theorem new_block_fits {nlog : Nat} {es : List (Event P)}
    (hops : along Uses.opFits (Uses.none P) es = true)
    (hrun : run step (State.init P nlog) es = .next s) (hl : s.lock = some (p, .logWrite b))
    (hfit : (es.foldl Uses.add (Uses.none P)).opFits (.leave p (.logWrite b)) = true)
    (hb : b ∉ s.block) : s.n < LOGSIZE := by
  have hinit : Reserved (State.init P nlog) (Uses.none P) :=
    ⟨fun _ => Nat.zero_le _, fun _ hne => absurd rfl hne, fun _ _ hb => absurd hb List.not_mem_nil, by
      have : ((State.init P nlog).n : Int) + (State.init P nlog).outstanding * MAXOPBLOCKS = 0 := rfl
      omega⟩
  obtain ⟨hi, hr⟩ := hinit.run (Inv.init nlog) hops hrun
  have hn : (record s.block b).length ≤ LOGSIZE :=
    (hr.write (t := { s with block := record s.block b }) (hi.holder_inOp hl (Or.inr ⟨b, rfl⟩)) hfit
      rfl rfl rfl).n_le hi.count
  rwa [record, if_neg hb, List.length_append] at hn

end Reserved

/-! ## Three full operations -/

/-- `begin_op` by `p`. -/
def callBegin (p : P) : List (Event P) := [.enter p .beginOp, .leave p .beginOp]

/-- `log_write` of block `b` by `p`. -/
def callWrite (p : P) (b : Nat) : List (Event P) :=
  [.enter p (.logWrite b), .leave p (.logWrite b)]

/-- Three processes begin an operation each, and each logs `MAXOPBLOCKS` blocks of its own. -/
def threeFullOps : List (Event (Fin 3)) :=
  (List.finRange 3).flatMap callBegin ++
    (List.finRange 3).flatMap fun p =>
      (List.range MAXOPBLOCKS).flatMap fun i => callWrite p (100 + MAXOPBLOCKS * p.val + i)

/-- The three operations keep to `MAXOPBLOCKS` blocks, and the last `log_write` panics. -/
theorem reservation_short :
    along Uses.opFits (Uses.none (Fin 3)) threeFullOps = true ∧
      run step (State.init (Fin 3) mkfsNlog) threeFullOps = .panic .tooBig := by
  constructor
  · decide
  · rfl

/-- The same operations without the last `log_write`: `LOGSIZE - 1` blocks fit. -/
theorem reservation_enough_full :
    along Uses.groupFits (Uses.none (Fin 3)) (threeFullOps.take 64) = true ∧
      ((threeFullOps.take 64).foldl Uses.add (Uses.none (Fin 3))).group.length = LOGSIZE - 1 ∧
      ∀ π, run step (State.init (Fin 3) mkfsNlog) (threeFullOps.take 64) ≠ .panic π :=
  ⟨by decide, by decide,
    (reservation_enough_iff (threeFullOps.take 64) (Outcome.ne_disabled rfl)).2 (by decide)⟩

end Xv6.Log
