import Xv6.Console.Device

set_option autoImplicit false

/-! # The line discipline

What the console is for: a queue of committed bytes, which readers take from the front, and the line
that is being edited, which keys change at its end. `Line.intr` and `Line.read` say what a key and a
critical section of a reader do to them, and `Books` what holds in every run: every committed byte is
taken once and in order, by the process that gets it, and a call ends where it should. -/

namespace Xv6.Console

open Machine Function

/-- The committed bytes, the line that is being edited, and all bytes that were ever committed. -/
structure Line where
  committed : List UInt8
  line : List UInt8
  entered : List UInt8
  deriving DecidableEq, Repr

/-- The bytes not read yet. -/
def Line.unread (q : Line) : List UInt8 := q.committed ++ q.line

/-- An ordinary character is put at the end of the line. -/
def Line.append (q : Line) (c : UInt8) : Line := { q with line := q.line ++ [c] }

def Line.commit (q : Line) : Line := ⟨q.committed ++ q.line, [], q.entered ++ q.line⟩

/-- What a key does. -/
def Line.intr (q : Line) (c : UInt8) : Key Line :=
  if c = C 'P' then ⟨q, [], false⟩
  else if c = C 'U' then
    ⟨{ q with line := [] }, (List.replicate q.line.length (consputc BACKSPACE)).flatten, false⟩
  else if c = C 'H' ∨ c = 0x7f then
    ⟨{ q with line := q.line.dropLast }, if q.line = [] then [] else consputc BACKSPACE, false⟩
  else if c ≠ 0 ∧ q.unread.length < INPUT_BUF_SIZE then
    let c := translate c
    let q' := q.append c
    if c = newline ∨ c = C 'D' ∨ q'.unread.length = INPUT_BUF_SIZE then
      ⟨q'.commit, consputc c.toNat, true⟩
    else ⟨q', consputc c.toNat, false⟩
  else ⟨q, [], false⟩

/-- A reader takes bytes from the front of the queue until its call ends or the queue is empty. -/
def drain (target room : Nat) : Nat → List UInt8 → List UInt8 → Turn (List UInt8)
  | 0, out, q => ⟨q, ⟨target, 0, room, out⟩, [], some .full⟩
  | n + 1, out, [] => ⟨[], ⟨target, n + 1, room, out⟩, [], none⟩
  | n + 1, out, c :: q =>
    if c = C 'D' then
      if n + 1 < target then ⟨c :: q, ⟨target, n + 1, room, out⟩, [], some (.eof true)⟩
      else ⟨q, ⟨target, n + 1, room, out⟩, [c], some (.eof false)⟩
    else if room ≤ out.length then ⟨q, ⟨target, n + 1, room, out⟩, [c], some (.fault c)⟩
    else if c = newline then ⟨q, ⟨target, n, room, out ++ [c]⟩, [c], some .line⟩
    else
      let t := drain target room n (out ++ [c]) q
      { t with taken := c :: t.taken }

def Line.read (q : Line) (k : Read) : Turn Line :=
  let t := drain k.target k.room k.n k.out q.committed
  ⟨{ q with committed := t.dev }, t.read, t.taken, t.stop⟩

def discipline : Device Line := ⟨Line.intr, Line.read⟩

def Line.init : Line := ⟨[], [], []⟩

/-! ## Keys -/

/-- What a key can do. -/
inductive Line.Pressed (q : Line) : Key Line → Prop where
  | ignored : q.Pressed ⟨q, [], false⟩
  | killed (echo : List UInt8) : q.Pressed ⟨{ q with line := [] }, echo, false⟩
  | erased (echo : List UInt8) : q.Pressed ⟨{ q with line := q.line.dropLast }, echo, false⟩
  | appended (c : UInt8) (hroom : q.unread.length < INPUT_BUF_SIZE) (hc : c ≠ newline)
      (hfull : (q.append c).unread.length ≠ INPUT_BUF_SIZE) :
      q.Pressed ⟨q.append c, consputc c.toNat, false⟩
  | committed (c : UInt8) (hroom : q.unread.length < INPUT_BUF_SIZE) :
      q.Pressed ⟨(q.append c).commit, consputc c.toNat, true⟩

theorem Line.pressed (q : Line) (c : UInt8) : q.Pressed (q.intr c) := by
  unfold Line.intr
  dsimp only
  split
  · exact .ignored
  split
  · exact .killed _
  split
  · exact .erased _
  split
  · next h =>
      split
      · exact .committed _ h.2
      · next hc => exact .appended _ h.2 (fun he => hc (.inl he)) (fun he => hc (.inr (.inr he)))
  · exact .ignored

/-- No key takes a committed byte away. -/
theorem Line.Pressed.commits {q : Line} {k : Key Line} (h : q.Pressed k) :
    ∃ l, k.dev.committed = q.committed ++ l ∧ k.dev.entered = q.entered ++ l := by
  cases h with
  | ignored | killed | erased => exact ⟨[], by simp⟩
  | appended => exact ⟨[], by simp [Line.append]⟩
  | committed c => exact ⟨q.line ++ [c], rfl, rfl⟩

/-- Without a wake-up there is nothing new to read. -/
theorem Line.Pressed.quiet {q : Line} {k : Key Line} (h : q.Pressed k) (hw : k.wakeup = false) :
    k.dev.committed = q.committed := by
  cases h with
  | committed c => cases hw
  | _ => rfl

/-! ## Readers -/

/-- What a call has got so far. -/
structure Read.Open (k : Read) : Prop where
  length : k.n + k.out.length = k.target
  room : k.out.length ≤ k.room
  text : ∀ c ∈ k.out, c ≠ newline ∧ c ≠ C 'D'

/-- What a call got that has ended. -/
def Read.Ended (k : Read) : End → Prop
  | .full => k.Open ∧ k.n = 0
  | .line => ∃ out, k.out = out ++ [newline] ∧ Read.Open ⟨k.target, k.n + 1, k.room, out⟩ ∧
      k.out.length ≤ k.room
  | .eof kept => k.Open ∧ 0 < k.n ∧ (kept = true ↔ k.out ≠ [])
  | .fault c => k.Open ∧ 0 < k.n ∧ k.out.length = k.room ∧ c ≠ C 'D'
  | .killed => k.Open ∧ 0 < k.n

/-- The byte that a call took out of the queue without returning it. -/
def End.lost : End → List UInt8
  | .eof false => [C 'D']
  | .fault c => [c]
  | _ => []

/-- What a critical section did with a call `k` and a queue `q`. -/
structure Drained (k : Read) (q : List UInt8) (t : Turn (List UInt8)) : Prop where
  split : q = t.taken ++ t.dev
  got : k.out ++ t.taken = t.read.out ++ (t.stop.elim [] End.lost)
  waits : t.stop = none → t.dev = [] ∧ t.read.Open ∧ 0 < t.read.n
  ends : ∀ e, t.stop = some e → t.read.Ended e

theorem drain_drained {target room n : Nat} {out q : List UInt8}
    (h : Read.Open ⟨target, n, room, out⟩) :
    Drained ⟨target, n, room, out⟩ q (drain target room n out q) := by
  induction n generalizing out q with
  | zero => exact ⟨rfl, rfl, nofun, fun e he => by cases he; exact ⟨h, rfl⟩⟩
  | succ n ih =>
    cases q with
    | nil => exact ⟨rfl, rfl, fun _ => ⟨rfl, h, Nat.succ_pos n⟩, nofun⟩
    | cons c q =>
      have hlen : n + 1 + out.length = target := h.length
      unfold drain
      split
      · next hD =>
          subst hD
          split
          · next hlt =>
              refine ⟨rfl, rfl, nofun, fun e he => ?_⟩
              cases he
              refine ⟨h, Nat.succ_pos n, iff_of_true rfl ?_⟩
              rintro rfl
              exact absurd hlen (Nat.ne_of_lt hlt)
          · next hge =>
              refine ⟨rfl, rfl, nofun, fun e he => ?_⟩
              cases he
              refine ⟨h, Nat.succ_pos n, iff_of_false nofun ?_⟩
              have hnil : out = [] := List.eq_nil_of_length_eq_zero (by omega)
              exact not_not.mpr hnil
      · next hD =>
          split
          · next hroom =>
              refine ⟨rfl, rfl, nofun, fun e he => ?_⟩
              cases he
              exact ⟨h, Nat.succ_pos n, Nat.le_antisymm h.room hroom, hD⟩
          · next hroom =>
              have hfits : (out ++ [c]).length ≤ room := by simp; omega
              split
              · next hc =>
                  subst hc
                  refine ⟨rfl, by simp [End.lost], nofun, fun e he => ?_⟩
                  cases he
                  exact ⟨out, rfl, h, hfits⟩
              · next hc =>
                  have hopen : Read.Open ⟨target, n, room, out ++ [c]⟩ := by
                    refine ⟨by simp; omega, hfits, fun b hb => ?_⟩
                    rcases List.mem_append.mp hb with hb | hb
                    · exact h.text b hb
                    · rw [List.mem_singleton.mp hb]
                      exact ⟨hc, hD⟩
                  have hrest := ih (q := q) hopen
                  refine ⟨congrArg (c :: ·) hrest.split, ?_, hrest.waits, hrest.ends⟩
                  have := hrest.got
                  rwa [List.append_assoc] at this

/-! ## Runs -/

/-- The call that a process is in. -/
def Pc.call : Pc → Option Read
  | .ret _ => none
  | .acquire k => some k
  | .asleep k => some k

@[simp] theorem Pc.call_wakeup (c : Pc) : c.wakeup.call = c.call := by cases c <;> rfl

theorem Pc.wakeup_ne_asleep (c : Pc) (k : Read) : c.wakeup ≠ .asleep k := by cases c <;> nofun

/-- What the process has got in the call it is in. -/
def Pc.got (c : Pc) : List UInt8 := c.call.elim [] Read.out

variable {P : Type} [DecidableEq P]

/-- The entries of a process in a list of entries of all of them. -/
def entriesOf {α : Type} (p : P) (l : List (P × α)) : List α :=
  (l.filter (fun x => x.1 = p)).map Prod.snd

theorem entriesOf_append {α : Type} (p : P) (l l' : List (P × α)) :
    entriesOf p (l ++ l') = entriesOf p l ++ entriesOf p l' := by
  simp [entriesOf]

theorem entriesOf_self {α : Type} (p : P) (l : List α) : entriesOf p (l.map (p, ·)) = l := by
  induction l with
  | nil => rfl
  | cons x l ih =>
    rw [entriesOf, List.map_cons, List.filter_cons_of_pos (by simp)]
    exact congrArg (x :: ·) ih

theorem entriesOf_other {α : Type} {p q : P} (h : q ≠ p) (l : List α) :
    entriesOf p (l.map (q, ·)) = [] := by
  induction l with
  | nil => rfl
  | cons x l ih =>
    rw [entriesOf, List.map_cons, List.filter_cons_of_neg (by simpa using h)]
    exact ih

/-- All bytes of a list of calls, with those that were lost. -/
def bytes (l : List (Read × End)) : List UInt8 := l.flatMap fun x => x.1.out ++ x.2.lost

/-- What holds of the queue, the line and the calls in every run. -/
structure Books (s : State P Line) : Prop where
  /-- What was committed is taken in order, every byte once. -/
  order : s.cons.entered = s.taken.map Prod.snd ++ s.cons.committed
  /-- What a process took is what its calls got, in the order of the calls. -/
  shares : ∀ p, entriesOf p s.taken = bytes (entriesOf p s.reads) ++ (s.pc p).got
  calls : ∀ p k, (s.pc p).call = some k → k.Open
  ended : ∀ x ∈ s.reads, x.2.1.Ended x.2.2
  /-- Nobody sleeps while there is something to read. -/
  sleep : ∀ p k, s.pc p = .asleep k → s.cons.committed = []

theorem Books.boot : Books (State.init Line.init : State P Line) where
  order := rfl
  shares _ := rfl
  calls _ _ h := by cases h
  ended _ h := by cases h
  sleep _ _ h := by cases h

/-- A process that is in no other call than before, and does not sleep unless it did. -/
theorem Books.goto {s : State P Line} (h : Books s) {pc : P → Pc}
    (hgot : ∀ p, (pc p).got = (s.pc p).got) (hcall : ∀ p k, (pc p).call = some k → k.Open)
    (hsleep : ∀ p k, pc p = .asleep k → s.cons.committed = []) : Books { s with pc := pc } where
  order := h.order
  shares p := (h.shares p).trans (congrArg _ (hgot p).symm)
  calls := hcall
  ended := h.ended
  sleep := hsleep

theorem Books.press {s : State P Line} (h : Books s) {k : Key Line} (hk : s.cons.Pressed k) :
    Books (s.press k) := by
  obtain ⟨l, hcommitted, hentered⟩ := hk.commits
  have hcall : ∀ p, ((s.press k).pc p).call = (s.pc p).call := by
    intro p
    unfold State.press
    dsimp only
    split
    · exact Pc.call_wakeup _
    · rfl
  refine ⟨?_, fun p => ?_, fun p k' hp => h.calls p k' (hcall p ▸ hp), h.ended, ?_⟩
  · change k.dev.entered = s.taken.map Prod.snd ++ k.dev.committed
    rw [hentered, hcommitted, h.order, List.append_assoc]
  · exact (h.shares p).trans (congrArg (fun c : Option Read => _ ++ c.elim [] Read.out) (hcall p).symm)
  · intro p k' hp
    unfold State.press at hp ⊢
    dsimp only at hp ⊢
    split at hp
    · exact absurd hp (Pc.wakeup_ne_asleep _ _)
    · next hw =>
        rw [hk.quiet (eq_false_of_ne_true hw)]
        exact h.sleep p k' hp

/-- `p` takes bytes from the front of the queue, and its calls `rs` end. -/
theorem Books.settle {s : State P Line} (h : Books s) {p : P} {q' taken : List UInt8}
    (hsplit : s.cons.committed = taken ++ q') (c : Pc) (rs : List (Read × End))
    (hgot : (s.pc p).got ++ taken = bytes rs ++ c.got) (hcall : ∀ k, c.call = some k → k.Open)
    (hends : ∀ x ∈ rs, x.1.Ended x.2) (hsleep : ∀ k, c = .asleep k → q' = []) :
    Books { s with
      cons := { s.cons with committed := q' }
      pc := update s.pc p c
      taken := s.taken ++ taken.map (p, ·)
      reads := s.reads ++ rs.map (p, ·) } := by
  refine ⟨?_, fun u => ?_, ?_, fun x hx => ?_, ?_⟩
  · simp only [h.order, hsplit, List.map_append, List.map_map, comp_def, List.map_id',
      List.append_assoc]
  · have hshare := h.shares u
    simp only [entriesOf_append, bytes, List.flatMap_append] at hshare ⊢
    by_cases hu : u = p
    · subst hu
      rw [entriesOf_self, entriesOf_self, update_self, hshare, List.append_assoc, hgot,
        List.append_assoc]
      rfl
    · rw [entriesOf_other (Ne.symm hu), entriesOf_other (Ne.symm hu), update_of_ne hu,
        List.append_nil, hshare, List.flatMap_nil, List.append_nil]
  · exact (forall_update_iff s.pc fun _ c => ∀ k, c.call = some k → k.Open).mpr
      ⟨hcall, fun u _ => h.calls u⟩
  · rcases List.mem_append.mp hx with hx | hx
    · exact h.ended x hx
    · obtain ⟨y, hy, rfl⟩ := List.mem_map.mp hx
      exact hends y hy
  · refine (forall_update_iff s.pc fun _ c => ∀ k, c = .asleep k → q' = []).mpr
      ⟨hsleep, fun u _ k hk => ?_⟩
    have hnil := h.sleep u k hk
    rw [hsplit] at hnil
    exact (List.append_eq_nil_iff.mp hnil).2

theorem Books.leave {s : State P Line} (h : Books s) {p : P} {k : Read} (hp : s.pc p = .acquire k)
    (killed : Bool) : Books (s.leave p killed (s.cons.read k)) := by
  have hopen : k.Open := h.calls p k (by rw [hp]; rfl)
  have hd : Drained k s.cons.committed (drain k.target k.room k.n k.out s.cons.committed) :=
    drain_drained hopen
  have hk : (s.pc p).got = k.out := by rw [hp]; rfl
  have hgot := hd.got
  unfold State.leave Line.read
  dsimp only
  generalize drain k.target k.room k.n k.out s.cons.committed = t at hd hgot
  cases hstop : t.stop with
  | some e =>
    rw [hstop] at hgot
    refine h.settle hd.split (.ret _) [(t.read, e)] ?_ nofun ?_ nofun
    · rw [hk, hgot]
      simp [bytes, Pc.got, Pc.call]
    · intro x hx
      rw [List.mem_singleton.mp hx]
      exact hd.ends e hstop
  | none =>
    rw [hstop] at hgot
    obtain ⟨hnil, hopen', hpos⟩ := hd.waits hstop
    dsimp only
    split
    · refine h.settle hd.split (.ret _) [(t.read, .killed)] ?_ nofun ?_ nofun
      · rw [hk, hgot]
        simp [bytes, Pc.got, Pc.call, End.lost]
      · intro x hx
        rw [List.mem_singleton.mp hx]
        exact ⟨hopen', hpos⟩
    · have := h.settle (p := p) hd.split (.asleep t.read) [] (by
        rw [hk, hgot]
        simp [bytes, Pc.got, Pc.call]) (fun k hk => by cases hk; exact hopen') nofun
        (fun _ _ => hnil)
      rwa [List.map_nil, List.append_nil] at this

theorem Books.keep {s s' : State P Line} {e : Event P} (h : Books s)
    (hs : step discipline s e = .next s') : Books s' := by
  cases e with
  | consoleintr c =>
    cases hs
    exact h.press (s.cons.pressed c)
  | consoleread p n room =>
    simp only [step] at hs
    split at hs
    · next r hp =>
        cases hs
        refine h.goto ?_ ?_ ?_
        · exact (forall_update_iff s.pc fun u c => c.got = (s.pc u).got).mpr
            ⟨by rw [hp]; rfl, fun _ _ => rfl⟩
        · refine (forall_update_iff s.pc fun _ c => ∀ k, c.call = some k → k.Open).mpr
            ⟨fun k hk => ?_, fun u _ => h.calls u⟩
          cases hk
          exact ⟨Nat.add_zero _, Nat.zero_le _, nofun⟩
        · exact (forall_update_iff s.pc fun _ c => ∀ k, c = .asleep k → _).mpr
            ⟨nofun, fun u _ => h.sleep u⟩
    · cases hs
  | turn p killed =>
    simp only [step] at hs
    split at hs
    · next k hp =>
        cases hs
        exact h.leave hp killed
    · cases hs
  | kill p =>
    cases hs
    refine h.goto ?_ ?_ ?_
    · exact (forall_update_iff s.pc fun u c => c.got = (s.pc u).got).mpr
        ⟨congrArg (fun c : Option Read => c.elim [] Read.out) (Pc.call_wakeup _), fun _ _ => rfl⟩
    · exact (forall_update_iff s.pc fun _ c => ∀ k, c.call = some k → k.Open).mpr
        ⟨fun k hk => h.calls p k (by rwa [Pc.call_wakeup] at hk), fun u _ => h.calls u⟩
    · exact (forall_update_iff s.pc fun _ c => ∀ k, c = .asleep k → _).mpr
        ⟨fun k hk => absurd hk (Pc.wakeup_ne_asleep _ k), fun u _ => h.sleep u⟩

end Xv6.Console
