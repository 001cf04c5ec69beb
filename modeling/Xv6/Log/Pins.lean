import Xv6.Bio.Invariant
import Xv6.Log.Commit
import Xv6.Log.Invariant

set_option autoImplicit false

/-! # The log and the buffer cache together

`log_write` pins the buffer of a block it records, and `install_trans` undoes the pin after it has
written the block home. Here the machine of the log operations (`Xv6.Log.Ops`) and that of the
buffer cache (`Xv6.Bio.Cache`) run side by side. Any process may get and release buffers at any
time; a buffer is changed by a process inside an operation only, and written to disk by `commit`
only, which is here in full: a process that commits goes through the phases of `commit`, and each
round of its loops needs the buffers that the round reads, held and valid.

`memmove` and `bwrite` of one round are one step: the process holds both buffers all the time. -/

namespace Xv6.Log.Pins

open Machine Function

/-- How far the process in `commit` is. Outside of `commit` the phase is `writeLog 0`. -/
inductive Phase where
  /-- In `write_log`, at the entry `tail`; after the last one, in the first `write_head`. -/
  | writeLog (tail : Nat)
  /-- In `install_trans`, at the entry `tail`; after the last one, at `log.lh.n = 0`. -/
  | install (tail : Nat)
  /-- In `install_trans`, the entry `tail` written home but not yet unpinned. -/
  | unpin (tail : Nat)
  /-- In the second `write_head`. -/
  | erase
  | done
  deriving DecidableEq, Repr

inductive Panic where
  | log (p : Log.Panic)
  | bio (p : Bio.Panic)
  deriving DecidableEq, Repr

structure State (P : Type) where
  log : Log.State P
  bio : Bio.State P
  /-- `log.start`. -/
  start : Nat
  phase : Phase
  /-- What each recorded block holds: the contents of its buffer at `log_write`, and every later
      change of it. -/
  logged : Nat → Block

inductive Event (P : Type) where
  /-- Getting, reading and releasing a buffer. -/
  | cache (e : Bio.Event P)
  /-- A process inside an operation changes a buffer it holds. -/
  | store (p : P) (b : Bio.BufId) (data : Block)
  /-- `begin_op`, `end_op` and the start of `log_write`. -/
  | log (e : Log.Event P)
  /-- `log_write(b)` under `log.lock`. -/
  | logWrite (p : P) (b : Bio.BufId)
  /-- A round of `write_log`. -/
  | copyLog (p : P) (dst src : Bio.BufId)
  | writeHead (p : P) (hb : Bio.BufId)
  /-- A round of `install_trans(0)` up to `bwrite(dbuf)`. -/
  | install (p : P) (lbuf dbuf : Bio.BufId)
  /-- `bunpin(dbuf)` of `install_trans(0)`. -/
  | unpin (p : P) (dbuf : Bio.BufId)
  /-- `log.lh.n = 0`. -/
  | clear (p : P)
  /-- `commit` returns. -/
  | ret (p : P)

/-- What any process may do with the cache. -/
def cacheOnly {P : Type} : Bio.Event P → Bool
  | .bget .. => true
  | .acquire _ => true
  | .fill .. => true
  | .brelse .. => true
  | .unref _ => true
  | _ => false

/-- What a process does to the log alone. -/
def logOnly {P : Type} : Log.Event P → Bool
  | .enter .. => true
  | .leave _ (.logWrite _) => false
  | .leave .. => true
  | .wake _ => true
  | _ => false

variable {P : Type} [DecidableEq P]

/-- The log on disk. -/
def State.region (s : State P) : Region := ⟨s.start, s.log.size⟩

/-- The process has the buffer of a block of the log's device from `bread`. -/
def State.Holds (s : State P) (p : P) (b : Bio.BufId) (blockno : Nat) : Prop :=
  s.bio.place p = .idle ∧ s.bio.lock b = some p ∧ (s.bio.buf b).valid = true ∧
    (s.bio.buf b).dev = ROOTDEV ∧ (s.bio.buf b).blockno = blockno

instance (s : State P) (p : P) (b : Bio.BufId) (blockno : Nat) :
    Decidable (s.Holds p b blockno) :=
  inferInstanceAs (Decidable (_ ∧ _))

/-- Fill a buffer with `data` and `bwrite` it. -/
def put (s : Bio.State P) (p : P) (b : Bio.BufId) (data : Block) :
    Outcome Bio.Panic (Bio.State P) :=
  (Bio.step s (.store p b data)).bind fun s' => Bio.step s' (.bwrite p b)

/-- `log_write(b)` under `log.lock`: a block that is not absorbed is pinned. -/
def logWrite (s : State P) (p : P) (b : Bio.BufId) : Outcome Panic (State P) :=
  let blockno := (s.bio.buf b).blockno
  ((Log.step s.log (.leave p (.logWrite blockno))).map Panic.log id).bind fun log =>
    let s' := { s with log := log, logged := update s.logged blockno (s.bio.buf b).data }
    if blockno ∈ s.log.block then .next s'
    else (Bio.step s.bio (.bpin p b)).map .bio fun bio => { s' with bio := bio }

/-- `write_head`, which leads to the next phase. -/
def writeHead (s : State P) (p : P) (hb : Bio.BufId) (next : Phase) : Outcome Panic (State P) :=
  Outcome.guard (s.Holds p hb s.start)
    ((put s.bio p hb (fillHead (s.bio.buf hb).data s.log.block)).map .bio
      fun bio => { s with bio := bio, phase := next })

def step (s : State P) : Event P → Outcome Panic (State P)
  | .cache e =>
    Outcome.guard (cacheOnly e) ((Bio.step s.bio e).map .bio fun bio => { s with bio := bio })
  | .store p b data =>
    let blockno := (s.bio.buf b).blockno
    Outcome.guard (s.log.pc p = .inOp ∧ s.Holds p b blockno ∧ ¬ s.region.Mem blockno)
      ((Bio.step s.bio (.store p b data)).map .bio fun bio =>
        { s with bio := bio,
                 logged := if blockno ∈ s.log.block then update s.logged blockno data
                   else s.logged })
  | .log e =>
    Outcome.guard (logOnly e) ((Log.step s.log e).map .log fun log => { s with log := log })
  | .logWrite p b =>
    let blockno := (s.bio.buf b).blockno
    Outcome.guard (s.log.lock = some (p, .logWrite blockno) ∧ s.Holds p b blockno ∧
      ¬ s.region.Mem blockno) (logWrite s p b)
  | .copyLog p dst src =>
    match s.phase with
    | .writeLog tail =>
      Outcome.guard (s.log.pc p = .commit ∧ s.Holds p dst (s.start + tail + 1) ∧
        s.Holds p src (s.bio.buf src).blockno ∧
        s.log.block[tail]? = some (s.bio.buf src).blockno)
        ((put s.bio p dst (s.bio.buf src).data).map .bio
          fun bio => { s with bio := bio, phase := .writeLog (tail + 1) })
    | _ => .disabled
  | .writeHead p hb =>
    match s.phase with
    | .writeLog tail =>
      Outcome.guard (s.log.pc p = .commit ∧ 0 < s.log.n ∧ tail = s.log.n)
        (writeHead s p hb (.install 0))
    | .erase => Outcome.guard (s.log.pc p = .commit) (writeHead s p hb .done)
    | _ => .disabled
  | .install p lbuf dbuf =>
    match s.phase with
    | .install tail =>
      Outcome.guard (s.log.pc p = .commit ∧ s.Holds p lbuf (s.start + tail + 1) ∧
        s.Holds p dbuf (s.bio.buf dbuf).blockno ∧
        s.log.block[tail]? = some (s.bio.buf dbuf).blockno)
        ((put s.bio p dbuf (s.bio.buf lbuf).data).map .bio
          fun bio => { s with bio := bio, phase := .unpin tail })
    | _ => .disabled
  | .unpin p dbuf =>
    match s.phase with
    | .unpin tail =>
      Outcome.guard (s.log.pc p = .commit ∧ s.Holds p dbuf (s.bio.buf dbuf).blockno ∧
        s.log.block[tail]? = some (s.bio.buf dbuf).blockno)
        ((Bio.step s.bio (.bunpin p dbuf)).map .bio
          fun bio => { s with bio := bio, phase := .install (tail + 1) })
    | _ => .disabled
  | .clear p =>
    Outcome.guard (s.phase = .install s.log.n)
      ((Log.step s.log (.clear p)).map .log fun log => { s with log := log, phase := .erase })
  | .ret p =>
    -- `commit` does nothing at all when no block was logged
    Outcome.guard (s.phase = .done ∨ (s.phase = .writeLog 0 ∧ s.log.n = 0))
      ((Log.step s.log (.ret p)).map .log fun log => { s with log := log, phase := .writeLog 0 })

/-! ## What a step can do -/

/-- The cache after `put`. -/
def putBlock (s : Bio.State P) (b : Bio.BufId) (data : Block) : Bio.State P :=
  { s.setBuf b { s.buf b with data := data } with
    disk := update s.disk (s.buf b).blockno data }

/-- The steps that do not panic, one constructor for each thing that can happen. -/
inductive Step (s : State P) : Event P → State P → Prop where
  | cache (e : Bio.Event P) (bio : Bio.State P) (he : cacheOnly e = true)
      (hb : Bio.Step s.bio e bio) : Step s (.cache e) { s with bio := bio }
  | store (p : P) (b : Bio.BufId) (data : Block) (hp : s.log.pc p = .inOp)
      (hh : s.Holds p b (s.bio.buf b).blockno) (hm : ¬ s.region.Mem (s.bio.buf b).blockno) :
      Step s (.store p b data)
        { s with bio := s.bio.setBuf b { s.bio.buf b with data := data },
                 logged := if (s.bio.buf b).blockno ∈ s.log.block
                   then update s.logged (s.bio.buf b).blockno data else s.logged }
  | log (e : Log.Event P) (log : Log.State P) (he : logOnly e = true) (hl : Log.Step s.log e log) :
      Step s (.log e) { s with log := log }
  | absorb (p : P) (b : Bio.BufId) (log : Log.State P)
      (hl : Log.Step s.log (.leave p (.logWrite (s.bio.buf b).blockno)) log)
      (hh : s.Holds p b (s.bio.buf b).blockno) (hin : (s.bio.buf b).blockno ∈ s.log.block) :
      Step s (.logWrite p b)
        { s with log := log,
                 logged := update s.logged (s.bio.buf b).blockno (s.bio.buf b).data }
  | pin (p : P) (b : Bio.BufId) (log : Log.State P)
      (hl : Log.Step s.log (.leave p (.logWrite (s.bio.buf b).blockno)) log)
      (hh : s.Holds p b (s.bio.buf b).blockno) (hm : ¬ s.region.Mem (s.bio.buf b).blockno)
      (hin : (s.bio.buf b).blockno ∉ s.log.block) :
      Step s (.logWrite p b)
        { s with log := log,
                 bio := (s.bio.setRefcnt b ((s.bio.buf b).refcnt + 1)).setPins b (s.bio.pins b + 1),
                 logged := update s.logged (s.bio.buf b).blockno (s.bio.buf b).data }
  | copyLog (p : P) (dst src : Bio.BufId) (tail : Nat) (hph : s.phase = .writeLog tail)
      (hp : s.log.pc p = .commit) (hdst : s.Holds p dst (s.start + tail + 1))
      (hsrc : s.Holds p src (s.bio.buf src).blockno)
      (hblk : s.log.block[tail]? = some (s.bio.buf src).blockno) :
      Step s (.copyLog p dst src)
        { s with bio := putBlock s.bio dst (s.bio.buf src).data, phase := .writeLog (tail + 1) }
  | writeHead (p : P) (hb : Bio.BufId) (hph : s.phase = .writeLog s.log.n)
      (hp : s.log.pc p = .commit) (hn : 0 < s.log.n) (hh : s.Holds p hb s.start) :
      Step s (.writeHead p hb)
        { s with bio := putBlock s.bio hb (fillHead (s.bio.buf hb).data s.log.block),
                 phase := .install 0 }
  | eraseHead (p : P) (hb : Bio.BufId) (hph : s.phase = .erase) (hp : s.log.pc p = .commit)
      (hh : s.Holds p hb s.start) :
      Step s (.writeHead p hb)
        { s with bio := putBlock s.bio hb (fillHead (s.bio.buf hb).data s.log.block),
                 phase := .done }
  | install (p : P) (lbuf dbuf : Bio.BufId) (tail : Nat) (hph : s.phase = .install tail)
      (hp : s.log.pc p = .commit) (hlbuf : s.Holds p lbuf (s.start + tail + 1))
      (hdbuf : s.Holds p dbuf (s.bio.buf dbuf).blockno)
      (hblk : s.log.block[tail]? = some (s.bio.buf dbuf).blockno) :
      Step s (.install p lbuf dbuf)
        { s with bio := putBlock s.bio dbuf (s.bio.buf lbuf).data, phase := .unpin tail }
  | unpin (p : P) (dbuf : Bio.BufId) (tail : Nat) (hph : s.phase = .unpin tail)
      (hp : s.log.pc p = .commit) (hdbuf : s.Holds p dbuf (s.bio.buf dbuf).blockno)
      (hblk : s.log.block[tail]? = some (s.bio.buf dbuf).blockno) (hpin : 0 < s.bio.pins dbuf) :
      Step s (.unpin p dbuf)
        { s with
          bio := (s.bio.setRefcnt dbuf ((s.bio.buf dbuf).refcnt - 1)).setPins dbuf
            (s.bio.pins dbuf - 1),
          phase := .install (tail + 1) }
  | clear (p : P) (hph : s.phase = .install s.log.n) (hp : s.log.pc p = .commit) :
      Step s (.clear p) { s with log := { s.log with block := [] }, phase := .erase }
  | ret (p : P) (hph : s.phase = .done ∨ (s.phase = .writeLog 0 ∧ s.log.n = 0))
      (hp : s.log.pc p = .commit) (hb : s.log.block = []) :
      Step s (.ret p)
        { s with log := { s.log with pc := update s.log.pc p .finish },
                 phase := .writeLog 0 }

theorem put_eq_next {s s' : Bio.State P} {p : P} {b : Bio.BufId} {data : Block}
    (h : put s p b data = .next s') : s' = putBlock s b data := by
  simp only [put, Outcome.bind_eq_next] at h
  obtain ⟨s₁, h1, h2⟩ := h
  cases Bio.step_eq_next h1 with
  | store p b data hp hl =>
    cases Bio.step_eq_next h2 with
    | bwrite p b hp' hl' => simp [putBlock]

theorem logWrite_eq_next {s s' : State P} {p : P} {b : Bio.BufId}
    (hh : s.Holds p b (s.bio.buf b).blockno) (hm : ¬ s.region.Mem (s.bio.buf b).blockno)
    (h : logWrite s p b = .next s') : Step s (.logWrite p b) s' := by
  simp only [logWrite, Outcome.bind_eq_next, Outcome.map_eq_next] at h
  obtain ⟨log, ⟨log', hlog, rfl⟩, h⟩ := h
  have hl := Log.step_eq_next hlog
  split at h
  · next hin => cases h; exact .absorb p b log' hl hh hin
  · next hin =>
      simp only [Outcome.map_eq_next] at h
      obtain ⟨bio, hbio, rfl⟩ := h
      cases Bio.step_eq_next hbio with
      | bpin p b hp => exact .pin p b log' hl hh hm hin

theorem step_eq_next {s s' : State P} {e : Event P} (h : step s e = .next s') : Step s e s' := by
  cases e with
  | cache e =>
    simp only [step, Outcome.guard_eq_next, Outcome.map_eq_next] at h
    obtain ⟨he, bio, hb, rfl⟩ := h
    exact .cache e bio he (Bio.step_eq_next hb)
  | store p b data =>
    simp only [step, Outcome.guard_eq_next, Outcome.map_eq_next] at h
    obtain ⟨⟨hp, hh, hm⟩, bio, hb, rfl⟩ := h
    cases Bio.step_eq_next hb with
    | store p b data hp' hl => exact .store p b data hp hh hm
  | log e =>
    simp only [step, Outcome.guard_eq_next, Outcome.map_eq_next] at h
    obtain ⟨he, log, hl, rfl⟩ := h
    exact .log e log he (Log.step_eq_next hl)
  | logWrite p b =>
    simp only [step, Outcome.guard_eq_next] at h
    obtain ⟨⟨-, hh, hm⟩, h⟩ := h
    exact logWrite_eq_next hh hm h
  | copyLog p dst src =>
    simp only [step] at h
    split at h
    · next tail hph =>
        simp only [Outcome.guard_eq_next, Outcome.map_eq_next] at h
        obtain ⟨⟨hp, hdst, hsrc, hblk⟩, bio, hb, rfl⟩ := h
        rw [put_eq_next hb]
        exact .copyLog p dst src tail hph hp hdst hsrc hblk
    · cases h
  | writeHead p hb =>
    simp only [step] at h
    split at h
    · next tail hph =>
        simp only [writeHead, Outcome.guard_eq_next, Outcome.map_eq_next] at h
        obtain ⟨⟨hp, hn, rfl⟩, hh, bio, hbio, rfl⟩ := h
        rw [put_eq_next hbio]
        exact .writeHead p hb hph hp hn hh
    · next hph =>
        simp only [writeHead, Outcome.guard_eq_next, Outcome.map_eq_next] at h
        obtain ⟨hp, hh, bio, hbio, rfl⟩ := h
        rw [put_eq_next hbio]
        exact .eraseHead p hb hph hp hh
    · cases h
  | install p lbuf dbuf =>
    simp only [step] at h
    split at h
    · next tail hph =>
        simp only [Outcome.guard_eq_next, Outcome.map_eq_next] at h
        obtain ⟨⟨hp, hlbuf, hdbuf, hblk⟩, bio, hb, rfl⟩ := h
        rw [put_eq_next hb]
        exact .install p lbuf dbuf tail hph hp hlbuf hdbuf hblk
    · cases h
  | unpin p dbuf =>
    simp only [step] at h
    split at h
    · next tail hph =>
        simp only [Outcome.guard_eq_next, Outcome.map_eq_next] at h
        obtain ⟨⟨hp, hdbuf, hblk⟩, bio, hb, rfl⟩ := h
        cases Bio.step_eq_next hb with
        | bunpin p dbuf hidle hpin => exact .unpin p dbuf tail hph hp hdbuf hblk hpin
    · cases h
  | clear p =>
    simp only [step, Outcome.guard_eq_next, Outcome.map_eq_next] at h
    obtain ⟨hph, log, hl, rfl⟩ := h
    cases Log.step_eq_next hl with
    | clear p hp => exact .clear p hph hp
  | ret p =>
    simp only [step, Outcome.guard_eq_next, Outcome.map_eq_next] at h
    obtain ⟨hph, log, hl, rfl⟩ := h
    cases Log.step_eq_next hl with
    | ret p hp hb => exact .ret p hph hp hb

end Xv6.Log.Pins
