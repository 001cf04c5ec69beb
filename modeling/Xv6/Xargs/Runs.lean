import Mathlib.Data.List.TakeWhile
import Xv6.Xargs.Words

set_option autoImplicit false

/-! # Runs of `xargs`

`main` of `user/xargs.c`. The variable `c` is declared inside the loop and not set there: at the start of
turn `i` it has the value `junk i c`, where `c` is what the turn before has left in it. At the end of the
input `read` leaves it alone, and whether the loop ends then depends on this value. -/

namespace Xv6.Xargs

open Wp Function

/-- `while(read(0, &c, 1) == 1 && c != '\n')`, with at most `fuel` turns; the last value of `n`. -/
def readLine : Nat → Nat → M Nat
  | 0, _ => throw "readLine: no end"
  | fuel + 1, n => do
    let s ← get
    match s.input with
    | [] => return n
    | c :: rest =>
      set { s with input := rest, c := c }
      if c ≠ '\n' then
        if n < BUFSIZE - 1 then
          setBuf n c
          readLine fuel (n + 1)
        else readLine fuel n
      else return n

/-- From `int argi = base;` to the `wait`. -/
def runCommand (argv : List (List Char)) (base n : Nat) : M Unit := do
  let argi ← splitLoop n (BUFSIZE + 1) 0 base
  setCmd argi .null
  modify fun s => { s with forks := s.forks ++ [execArgs argv s] }

/-- The loop of `main`: whether it has ended after `fuel` turns. -/
def mainLoop (argv : List (List Char)) (base : Nat) (junk : Nat → Char → Char) : Nat → Nat → M Bool
  | 0, _ => return false
  | fuel + 1, i => do
    modify fun s => { s with c := junk i s.c }
    let n ← readLine ((← get).input.length + 1) 0
    if n = 0 ∧ (← get).c ≠ '\n' then return true
    else
      setBuf n NUL
      runCommand argv base n
      if (← get).c ≠ '\n' then return true else mainLoop argv base junk fuel (i + 1)

def main (argv : List (List Char)) (junk : Nat → Char → Char) (fuel : Nat) : M Bool := do
  let i ← copyArgs argv.length MAXARG 1
  mainLoop argv (i - 1) junk fuel 0

/-! ## Reading a line -/

variable {s s' : State} {E : String → Prop} {n fuel : Nat} {line : List Char}

/-- As much of the line as there is room for is in the buffer from `n` on. -/
structure Got (s s' : State) (n m : Nat) (line : List Char) : Prop where
  count : m = n + (line.take (BUFSIZE - 1 - n)).length
  span : Span s'.buf n (line.take (BUFSIZE - 1 - n))
  buf : ∀ k < n, s'.buf k = s.buf k
  cmd : s'.cmd = s.cmd
  forks : s'.forks = s.forks

theorem Got.nil (hbuf : s'.buf = s.buf) (hcmd : s'.cmd = s.cmd) (hforks : s'.forks = s.forks) :
    Got s s' n n [] := by
  refine ⟨by rw [List.take_nil, List.length_nil, Nat.add_zero], ?_, fun k _ => by rw [hbuf], hcmd, hforks⟩
  rw [List.take_nil]
  trivial

/-- A character that has been stored, and the rest of the line. -/
theorem Got.cons {s₁ : State} {c : Char} {m : Nat} (h : Got s₁ s' (n + 1) m line)
    (hn : n < BUFSIZE - 1) (hs₁ : ∀ k, s₁.buf k = update s.buf n c k)
    (hcmd : s₁.cmd = s.cmd) (hforks : s₁.forks = s.forks) : Got s s' n m (c :: line) := by
  have htake : (c :: line).take (BUFSIZE - 1 - n) = c :: line.take (BUFSIZE - 1 - (n + 1)) := by
    rw [show BUFSIZE - 1 - n = BUFSIZE - 1 - (n + 1) + 1 by omega, List.take_succ_cons]
  refine ⟨?_, ?_, fun k hk => ?_, h.cmd.trans hcmd, h.forks.trans hforks⟩
  · rw [h.count, htake, List.length_cons]
    omega
  · rw [htake]
    exact ⟨by rw [h.buf n (Nat.lt_succ_self n), hs₁, update_self], h.span⟩
  · rw [h.buf k (by omega), hs₁, update_of_ne (by omega)]

/-- A character for which there is no room. -/
theorem Got.full {s₁ : State} {c : Char} {m : Nat} (h : Got s₁ s' n m line) (hn : n = BUFSIZE - 1)
    (hbuf : s₁.buf = s.buf) (hcmd : s₁.cmd = s.cmd) (hforks : s₁.forks = s.forks) :
    Got s s' n m (c :: line) := by
  have hzero : ∀ l : List Char, l.take (BUFSIZE - 1 - n) = [] := fun l => by
    rw [hn, Nat.sub_self, List.take_zero]
  refine ⟨?_, ?_, fun k hk => ?_, h.cmd.trans hcmd, h.forks.trans hforks⟩
  · rw [h.count, hzero, hzero]
  · rw [hzero]
    trivial
  · rw [h.buf k hk, hbuf]

theorem wp_readLine {tail : List Char} (hinput : s.input = line ++ tail) (hline : '\n' ∉ line)
    (htail : tail = [] ∨ ∃ rest, tail = '\n' :: rest) (hn : n ≤ BUFSIZE - 1)
    (hfuel : line.length < fuel) :
    wp (readLine fuel n) (fun m s' => Got s s' n m line ∧ s'.input = tail.drop 1 ∧
      s'.c = if tail = [] then line.getLastD s.c else '\n') E s := by
  induction fuel generalizing s line n with
  | zero => exact absurd hfuel (Nat.not_lt_zero _)
  | succ fuel ih =>
    rw [readLine, wp_bind, wp_get]
    rcases line with - | ⟨c, line⟩
    · rw [List.nil_append] at hinput
      rcases htail with rfl | ⟨rest, rfl⟩
      · rw [hinput]
        exact ⟨Got.nil rfl rfl rfl, hinput, rfl⟩
      · rw [hinput]
        exact ⟨Got.nil rfl rfl rfl, rfl, rfl⟩
    · have hc : c ≠ '\n' := fun he => hline (he ▸ List.mem_cons_self)
      have hline' : '\n' ∉ line := fun hm => hline (List.mem_cons_of_mem _ hm)
      have hlast : (c :: line).getLastD s.c = line.getLastD c := List.getLastD_cons ..
      rw [List.length_cons] at hfuel
      rw [hinput, List.cons_append]
      dsimp only
      rw [wp_bind, wp_set, wp_ite]
      refine ⟨fun _ => ?_, fun hno => absurd hc hno⟩
      rw [wp_ite]
      refine ⟨fun hroom => ?_, fun hroom => ?_⟩
      · rw [wp_bind]
        refine wp_setBuf (by omega) ((ih rfl hline' (by omega) (by omega)).mono ?_ fun _ he => he)
        rintro m s' ⟨hgot, hinput', hc'⟩
        refine ⟨hgot.cons hroom (fun _ => rfl) rfl rfl, hinput', ?_⟩
        rw [hlast]
        exact hc'
      · refine (ih rfl hline' hn (by omega)).mono ?_ fun _ he => he
        rintro m s' ⟨hgot, hinput', hc'⟩
        refine ⟨hgot.full (by omega) rfl rfl rfl, hinput', ?_⟩
        rw [hlast]
        exact hc'

/-! ## One command -/

/-- The arguments of `xargs` that go into `cmd` once and for all. -/
def baseArgs (argv : List (List Char)) : List (List Char) := (argv.drop 1).take (MAXARG - 2)

/-- What a line makes of `cmd`: as many of its words as there is room for, each up to a NUL. -/
def command (argv : List (List Char)) (line : List Char) : List (List Char) :=
  baseArgs argv ++ ((words (line.take (BUFSIZE - 1))).take (MAXARG - 1 - (baseArgs argv).length)).map
    fun w => w.takeWhile fun c => c != NUL

/-- The first entries of `cmd` are those of `argv`. -/
def Base (argv : List (List Char)) (s : State) : Prop :=
  ∀ i < (baseArgs argv).length, s.cmd i = .arg (i + 1)

variable {argv : List (List Char)}

theorem length_baseArgs (argv : List (List Char)) :
    (baseArgs argv).length = min (MAXARG - 2) (argv.length - 1) := by
  rw [baseArgs, List.length_take, List.length_drop]

theorem getD_of_baseArgs {k : Nat} {w : List Char} (h : (baseArgs argv)[k]? = some w) :
    argv.getD (k + 1) [] = w := by
  have hk : k < MAXARG - 2 := by
    have hlt := (List.getElem?_eq_some_iff.1 h).1
    rw [length_baseArgs] at hlt
    omega
  rw [baseArgs, List.getElem?_take_of_lt hk, List.getElem?_drop, Nat.add_comm] at h
  rw [List.getD_eq_getElem?_getD, h]
  rfl

theorem wp_copyArgs {i : Nat} (hi : 1 ≤ i) (hle : i - 1 ≤ (baseArgs argv).length)
    (hcmd : ∀ k < i - 1, s.cmd k = .arg (k + 1)) (hfuel : MAXARG ≤ i + fuel ∧ 0 < fuel) :
    wp (copyArgs argv.length fuel i) (fun r s' => r - 1 = (baseArgs argv).length ∧ Base argv s' ∧
      s'.input = s.input ∧ s'.c = s.c ∧ s'.forks = s.forks) E s := by
  have hbase := length_baseArgs argv
  induction fuel generalizing s i with
  | zero => exact absurd hfuel.2 (Nat.lt_irrefl 0)
  | succ fuel ih =>
    rw [copyArgs, wp_ite]
    refine ⟨fun hturn => ?_, fun hstop => ?_⟩
    · rw [wp_bind]
      refine wp_setCmd (by omega) ?_
      refine (ih (by omega) (by omega) (fun k hk => ?_) ⟨by omega, by omega⟩).mono ?_ fun _ he => he
      · by_cases hk' : k = i - 1
        · rw [hk']
          dsimp only
          rw [update_self, Nat.sub_add_cancel hi]
        · dsimp only
          rw [update_of_ne hk']
          exact hcmd k (by omega)
      · exact fun r s' h => h
    · have heq : i - 1 = (baseArgs argv).length := by omega
      exact ⟨heq, fun k hk => hcmd k (by omega), rfl, rfl, rfl⟩

theorem takeWhile_map_range {α : Type} {f : Nat → α} {p : α → Bool} {m N : Nat} (hm : m < N)
    (hp : ∀ k < m, p (f k) = true) (hend : p (f m) = false) :
    ((List.range N).map f).takeWhile p = (List.range m).map f := by
  obtain ⟨d, rfl⟩ : ∃ d, N = m + (d + 1) := ⟨N - m - 1, by omega⟩
  rw [List.range_add, List.map_append, List.takeWhile_append_of_pos]
  · rw [List.range_succ_eq_map, List.map_cons, List.map_cons, Nat.add_zero, List.takeWhile_cons, hend]
    simp
  · intro a ha
    obtain ⟨k, hk, rfl⟩ := List.mem_map.1 ha
    exact hp k (List.mem_range.1 hk)

theorem execArgs_eq {l : List (List Char)} (hlen : l.length < MAXARG)
    (hentry : ∀ k w, l[k]? = some w → s.cmd k ≠ .null ∧ deref argv s (s.cmd k) = w)
    (hnull : s.cmd l.length = .null) : execArgs argv s = l := by
  have hget : ∀ k < l.length, ∃ w, l[k]? = some w := fun k hk => ⟨_, List.getElem?_eq_getElem hk⟩
  rw [execArgs, takeWhile_map_range hlen, List.map_map]
  · refine List.ext_getElem? fun k => ?_
    by_cases hk : k < l.length
    · obtain ⟨w, hw⟩ := hget k hk
      rw [List.getElem?_map, List.getElem?_range hk, hw, Option.map_some]
      exact congrArg some (hentry k w hw).2
    · rw [List.getElem?_eq_none (by simpa using hk), List.getElem?_eq_none (by omega)]
  · intro k hk
    obtain ⟨w, hw⟩ := hget k hk
    exact bne_iff_ne.2 (hentry k w hw).1
  · rw [hnull]
    rfl

/-- A command has been run for the line. -/
structure Ran (argv : List (List Char)) (s s' : State) (line : List Char) : Prop where
  forks : s'.forks = s.forks ++ [command argv line]
  base : Base argv s'
  input : s'.input = s.input
  c : s'.c = s.c

theorem wp_runCommand {Q : Unit → State → Prop} (hbase : Base argv s)
    (hspan : Span s.buf 0 (line.take (BUFSIZE - 1) ++ [NUL]))
    (hQ : ∀ s', Ran argv s s' line → Q () s') :
    wp (runCommand argv (baseArgs argv).length (line.take (BUFSIZE - 1)).length) Q E s := by
  have hlen : (baseArgs argv).length < MAXARG - 1 := by
    rw [length_baseArgs]
    exact Nat.lt_of_le_of_lt (Nat.min_le_left _ _) (by decide)
  have hshort : (line.take (BUFSIZE - 1)).length < BUFSIZE := by
    rw [List.length_take]
    exact Nat.lt_of_le_of_lt (Nat.min_le_left _ _) (by decide)
  rw [runCommand, wp_bind]
  have hloop : wp (splitLoop _ (BUFSIZE + 1) 0 (baseArgs argv).length) _ E s :=
    wp_splitLoop (Or.inr ⟨hspan, Nat.zero_add _⟩) hshort hlen (by omega)
  refine hloop.mono ?_ fun _ he => he
  intro argi s₁ hsplit
  have hcount := hsplit.count
  generalize hws : (words (line.take (BUFSIZE - 1))).take (MAXARG - 1 - (baseArgs argv).length) = ws
    at hsplit hcount
  have hroom : ws.length ≤ MAXARG - 1 - (baseArgs argv).length := by
    rw [← hws]
    exact List.length_take_le _ _
  rw [wp_bind]
  refine wp_setCmd (by omega) (hQ _ ?_)
  have hbelow : ∀ i < argi, update s₁.cmd argi .null i = s₁.cmd i := fun i hi =>
    update_of_ne (by omega) ..
  have hcommand : (command argv line).length = argi := by
    rw [command, hws, List.length_append, List.length_map, hcount]
  refine ⟨?_, fun i hi => ?_, hsplit.input, hsplit.c⟩
  · dsimp only
    rw [hsplit.forks]
    refine congrArg (fun args => s.forks ++ [args]) (execArgs_eq (by omega) (fun k w hw => ?_) ?_)
    · dsimp only
      have hk : k < argi := by
        rw [← hcommand]
        exact (List.getElem?_eq_some_iff.1 hw).1
      rw [hbelow k hk]
      by_cases hkb : k < (baseArgs argv).length
      · rw [command, List.getElem?_append_left hkb] at hw
        rw [hsplit.cmd k hkb, hbase k hkb]
        exact ⟨Ptr.noConfusion, getD_of_baseArgs hw⟩
      · rw [command, hws, List.getElem?_append_right (Nat.le_of_not_lt hkb), List.getElem?_map] at hw
        obtain ⟨w', hw', rfl⟩ := Option.map_eq_some_iff.1 hw
        obtain ⟨p, hp, hstr⟩ := hsplit.entry _ w' hw'
        rw [Nat.add_sub_cancel' (Nat.le_of_not_lt hkb)] at hp
        rw [hp]
        exact ⟨Ptr.noConfusion, hstr⟩
    · rw [hcommand]
      exact update_self ..
  · exact (hbelow i (by omega)).trans ((hsplit.cmd i hi).trans (hbase i hi))

/-! ## One turn of the loop -/

variable {junk : Nat → Char → Char} {i : Nat}

/-- What is in `c` when a line has been read; `c` is what was in it before. -/
def after (c : Char) (line tail : List Char) : Char := if tail = [] then line.getLastD c else '\n'

theorem wp_turn {Q : Bool → State → Prop} {tail : List Char} (hbase : Base argv s)
    (hinput : s.input = line ++ tail) (hline : '\n' ∉ line)
    (htail : tail = [] ∨ ∃ rest, tail = '\n' :: rest)
    (hexit : line = [] → after (junk i s.c) line tail ≠ '\n' → ∀ s', s'.forks = s.forks → Q true s')
    (hran : (line = [] → after (junk i s.c) line tail = '\n') → ∀ s₂,
      s₂.forks = s.forks ++ [command argv line] → Base argv s₂ → s₂.input = tail.drop 1 →
      s₂.c = after (junk i s.c) line tail → wp (if s₂.c ≠ '\n' then pure true else
        mainLoop argv (baseArgs argv).length junk fuel (i + 1)) Q E s₂) :
    wp (mainLoop argv (baseArgs argv).length junk (fuel + 1) i) Q E s := by
  rw [mainLoop, wp_bind, wp_modify, wp_bind, wp_get, wp_bind]
  have hread : wp (readLine (s.input.length + 1) 0) _ E { s with c := junk i s.c } :=
    wp_readLine hinput hline htail (Nat.zero_le _) (by rw [hinput, List.length_append]; omega)
  refine hread.mono ?_ fun _ he => he
  rintro n s₁ ⟨hgot, hinput₁, hc₁⟩
  have hc₁ : s₁.c = after (junk i s.c) line tail := hc₁
  have hcount := hgot.count
  have hspan := hgot.span
  rw [Nat.zero_add, Nat.sub_zero] at hcount
  rw [Nat.sub_zero] at hspan
  have hzero : n = 0 ↔ line = [] := by
    rw [hcount, List.length_eq_zero_iff, List.take_eq_nil_iff]
    exact ⟨fun h => h.resolve_left (by decide), Or.inr⟩
  rw [wp_bind, wp_get, wp_ite]
  refine ⟨fun hend => ?_, fun hgo => ?_⟩
  · exact hexit (hzero.1 hend.1) (by rw [← hc₁]; exact hend.2) s₁ hgot.forks
  · have hn : n < BUFSIZE := by
      rw [hcount, List.length_take]
      exact Nat.lt_of_le_of_lt (Nat.min_le_left _ _) (by decide)
    rw [wp_bind]
    refine wp_setBuf hn ?_
    have hbase₁ : Base argv { s₁ with buf := update s₁.buf n NUL } := fun k hk => by
      rw [hgot.cmd]
      exact hbase k hk
    have hspan₁ : Span (update s₁.buf n NUL) 0 (line.take (BUFSIZE - 1) ++ [NUL]) := by
      refine span_append.2 ⟨hspan.congr fun k _ hk => update_of_ne (by omega) .., ?_, trivial⟩
      rw [Nat.zero_add, ← hcount, update_self]
    rw [wp_bind, hcount]
    rw [hcount] at hbase₁ hspan₁
    refine wp_runCommand hbase₁ hspan₁ fun s₂ hran₂ => ?_
    rw [wp_bind, wp_get]
    have hnl : line = [] → after (junk i s.c) line tail = '\n' := by
      intro hnil
      rw [← hc₁]
      exact Decidable.not_not.1 fun hne => hgo ⟨hzero.2 hnil, hne⟩
    exact hran hnl s₂ (by rw [hran₂.forks, hgot.forks]) hran₂.base (hran₂.input.trans hinput₁)
      (hran₂.c.trans hc₁)

/-! ## Whole runs -/

/-- What the standard input holds: lines, and a last one that may lack its newline. -/
def stream (lines : List (List Char)) (last : List Char) : List Char :=
  lines.flatMap (· ++ ['\n']) ++ last

/-- The lines for which a command is to be run. -/
def commandLines (lines : List (List Char)) (last : List Char) : List (List Char) :=
  lines ++ if last = [] then [] else [last]

theorem stream_cons (line : List Char) (lines : List (List Char)) (last : List Char) :
    stream (line :: lines) last = line ++ '\n' :: stream lines last := by
  rw [stream, List.flatMap_cons, List.append_assoc, List.append_assoc]
  rfl

/-- A line with its newline. -/
theorem wp_line {Q : Bool → State → Prop} {rest : List Char} (hbase : Base argv s)
    (hinput : s.input = line ++ '\n' :: rest) (hline : '\n' ∉ line)
    (hnext : ∀ s₂, s₂.forks = s.forks ++ [command argv line] → Base argv s₂ → s₂.input = rest →
      s₂.c = '\n' → wp (mainLoop argv (baseArgs argv).length junk fuel (i + 1)) Q E s₂) :
    wp (mainLoop argv (baseArgs argv).length junk (fuel + 1) i) Q E s := by
  have hafter : after (junk i s.c) line ('\n' :: rest) = '\n' := if_neg (List.cons_ne_nil _ _)
  refine wp_turn hbase hinput hline (Or.inr ⟨rest, rfl⟩) (fun _ hne => absurd hafter hne) ?_
  intro _ s₂ hforks hbase₂ hinput₂ hc
  rw [hafter] at hc
  rw [if_neg (by simp [hc])]
  exact hnext s₂ hforks hbase₂ hinput₂ hc

/-- The last line, without a newline. -/
theorem wp_last {Q : Bool → State → Prop} (hbase : Base argv s) (hinput : s.input = line)
    (hline : '\n' ∉ line) (hne : line ≠ [])
    (hQ : ∀ s₂, s₂.forks = s.forks ++ [command argv line] → Q true s₂) :
    wp (mainLoop argv (baseArgs argv).length junk (fuel + 1) i) Q E s := by
  have hafter : after (junk i s.c) line [] ≠ '\n' := by
    intro heq
    rw [after, if_pos rfl, List.getLastD_eq_getLast?, List.getLast?_eq_some_getLast hne] at heq
    exact hline (heq ▸ List.getLast_mem hne)
  refine wp_turn hbase (by rw [List.append_nil, hinput]) hline (Or.inl rfl)
    (fun hnil => absurd hnil hne) ?_
  intro _ s₂ hforks _ _ hc
  rw [if_pos (by rw [hc]; exact hafter)]
  exact hQ s₂ hforks

/-- At the end of the input the value of `c` decides. -/
theorem wp_eof {Q : Bool → State → Prop} (hbase : Base argv s) (hinput : s.input = [])
    (hexit : junk i s.c ≠ '\n' → ∀ s₂, s₂.forks = s.forks → Q true s₂)
    (hagain : junk i s.c = '\n' → ∀ s₂, s₂.forks = s.forks ++ [command argv []] → Base argv s₂ →
      s₂.input = [] → s₂.c = '\n' → wp (mainLoop argv (baseArgs argv).length junk fuel (i + 1)) Q E s₂) :
    wp (mainLoop argv (baseArgs argv).length junk (fuel + 1) i) Q E s := by
  refine wp_turn hbase hinput List.not_mem_nil (Or.inl rfl) (fun _ hne => hexit hne) ?_
  intro hnl s₂ hforks hbase₂ hinput₂ hc
  have hjunk : junk i s.c = '\n' := hnl rfl
  have hc : s₂.c = '\n' := hc.trans hjunk
  rw [if_neg (by simp [hc])]
  exact hagain hjunk s₂ hforks hbase₂ hinput₂ hc

/-- The commands of the first `least` lines of a list at least, past its end of empty ones. -/
def Commands (argv : List (List Char)) (s s' : State) (least : Nat) (lines : List (List Char)) : Prop :=
  ∃ m, least ≤ m ∧ s'.forks = s.forks ++ (List.range m).map fun k => command argv (lines.getD k [])

theorem Commands.cons {s₂ : State} {least : Nat} {lines : List (List Char)}
    (hforks : s₂.forks = s.forks ++ [command argv line]) (h : Commands argv s₂ s' least lines) :
    Commands argv s s' (least + 1) (line :: lines) := by
  obtain ⟨m, hle, hm⟩ := h
  refine ⟨m + 1, Nat.succ_le_succ hle, ?_⟩
  rw [hm, hforks, List.append_assoc, List.range_succ_eq_map, List.map_cons, List.map_map]
  rfl

theorem Commands.none {lines : List (List Char)} (hforks : s'.forks = s.forks) :
    Commands argv s s' 0 lines :=
  ⟨0, Nat.le_refl 0, by rw [hforks, List.range_zero, List.map_nil, List.append_nil]⟩

/-- Each turn runs the command of its line, whatever is in `c`. -/
theorem wp_mainLoop_commands {lines : List (List Char)} {last : List Char} (hbase : Base argv s)
    (hinput : s.input = stream lines last) (hlines : ∀ l ∈ lines ++ [last], '\n' ∉ l) :
    wp (mainLoop argv (baseArgs argv).length junk fuel i) (fun _ s' =>
      Commands argv s s' (min fuel (commandLines lines last).length) (lines ++ [last])) E s := by
  induction fuel generalizing s i lines with
  | zero =>
    rw [Nat.zero_min]
    exact Commands.none rfl
  | succ fuel ih =>
    rcases lines with - | ⟨line, lines⟩
    · by_cases hnil : last = []
      · subst hnil
        refine wp_eof hbase hinput (fun _ s₂ hforks => Commands.none hforks) ?_
        intro _ s₂ hforks hbase₂ hinput₂ _
        have hrest : wp (mainLoop argv (baseArgs argv).length junk fuel (i + 1)) (fun _ s' =>
            Commands argv s₂ s' (min fuel 0) ([] ++ [[]])) E s₂ :=
          @ih s₂ _ [] hbase₂ hinput₂ hlines
        refine hrest.mono ?_ fun _ he => he
        intro _ s' h
        -- past the end there are only empty lines, and one more makes no difference
        obtain ⟨m, -, hm⟩ := Commands.cons hforks h
        refine ⟨m, Nat.zero_le m, hm.trans (congrArg _ (List.map_congr_left fun k _ => ?_))⟩
        rcases k with - | - | k <;> rfl
      · refine wp_last hbase hinput (hlines last (List.mem_append_right _ List.mem_cons_self)) hnil ?_
        intro s₂ hforks
        have hone : min (fuel + 1) (commandLines [] last).length = 0 + 1 := by
          rw [commandLines, if_neg hnil, List.nil_append, List.length_singleton, Nat.succ_min_succ,
            Nat.min_zero]
        rw [hone]
        exact Commands.cons hforks (Commands.none rfl)
    · rw [stream_cons] at hinput
      rw [List.cons_append] at hlines ⊢
      refine wp_line hbase hinput (hlines line List.mem_cons_self) ?_
      intro s₂ hforks hbase₂ hinput₂ _
      refine (ih hbase₂ hinput₂ fun l hl => hlines l (List.mem_cons_of_mem _ hl)).mono ?_
        fun _ he => he
      intro _ s' h
      rw [show (commandLines (line :: lines) last).length = (commandLines lines last).length + 1 from rfl,
        Nat.succ_min_succ]
      exact Commands.cons hforks h

/-- The value that is in `c` when a turn starts, before it is declared again. -/
def leftIn (c : Char) (lines : List (List Char)) : Char := if lines = [] then c else '\n'

theorem wp_mainLoop_exits {lines : List (List Char)} {last : List Char} (hbase : Base argv s)
    (hinput : s.input = stream lines last) (hlines : ∀ l ∈ lines, '\n' ∉ l) (hlast : '\n' ∉ last)
    (hjunk : last = [] → junk (i + lines.length) (leftIn s.c lines) ≠ '\n')
    (hfuel : lines.length < fuel) :
    wp (mainLoop argv (baseArgs argv).length junk fuel i) (fun ended s' => ended = true ∧
      s'.forks = s.forks ++ (commandLines lines last).map (command argv)) E s := by
  induction lines generalizing s fuel i with
  | nil =>
    obtain ⟨fuel, rfl⟩ : ∃ f, fuel = f + 1 := ⟨fuel - 1, by omega⟩
    by_cases hnil : last = []
    · subst hnil
      refine wp_eof hbase hinput (fun _ s₂ hforks => ⟨rfl, ?_⟩) fun hnl => absurd hnl (hjunk rfl)
      rw [hforks]
      exact (List.append_nil _).symm
    · refine wp_last hbase hinput hlast hnil fun s₂ hforks => ⟨rfl, ?_⟩
      rw [hforks, commandLines, if_neg hnil]
      rfl
  | cons line lines ih =>
    obtain ⟨fuel, rfl⟩ : ∃ f, fuel = f + 1 := ⟨fuel - 1, by omega⟩
    rw [stream_cons] at hinput
    rw [List.length_cons] at hfuel hjunk
    refine wp_line hbase hinput (hlines line List.mem_cons_self) ?_
    intro s₂ hforks hbase₂ hinput₂ hc
    refine (ih hbase₂ hinput₂ (fun l hl => hlines l (List.mem_cons_of_mem _ hl)) (fun hnil => ?_)
      (by omega)).mono ?_ fun _ he => he
    · have hleft : leftIn s₂.c lines = '\n' := by
        rw [leftIn, hc, ite_self]
      have := hjunk hnil
      rw [leftIn, if_neg (List.cons_ne_nil _ _)] at this
      rwa [hleft, Nat.add_assoc, Nat.add_comm 1]
    · rintro ended s' ⟨rfl, hforks'⟩
      refine ⟨rfl, ?_⟩
      rw [hforks', hforks, List.append_assoc]
      rfl

/-- With a newline in `c` at the end of the input there is a command too many. -/
theorem wp_mainLoop_again {lines : List (List Char)} (hbase : Base argv s)
    (hinput : s.input = stream lines []) (hlines : ∀ l ∈ lines, '\n' ∉ l)
    (hjunk : junk (i + lines.length) (leftIn s.c lines) = '\n') :
    wp (mainLoop argv (baseArgs argv).length junk fuel i) (fun ended s' => ended = true →
      s.forks.length + lines.length < s'.forks.length) E s := by
  induction lines generalizing s fuel i with
  | nil =>
    rcases fuel with - | fuel
    · exact fun h => by cases h
    refine wp_eof hbase hinput (fun hne => absurd hjunk hne) ?_
    intro _ s₂ hforks hbase₂ hinput₂ _
    have hnone : s₂.input = stream [] [] := hinput₂
    have hrest : wp (mainLoop argv (baseArgs argv).length junk fuel (i + 1)) _ E s₂ :=
      wp_mainLoop_commands hbase₂ hnone (by simp)
    refine hrest.mono ?_ fun _ he => he
    rintro _ s' ⟨m, -, hm⟩ -
    simp [hm, hforks]
  | cons line lines ih =>
    rcases fuel with - | fuel
    · exact fun h => by cases h
    rw [stream_cons] at hinput
    rw [List.length_cons] at hjunk
    refine wp_line hbase hinput (hlines line List.mem_cons_self) ?_
    intro s₂ hforks hbase₂ hinput₂ hc
    refine (ih hbase₂ hinput₂ (fun l hl => hlines l (List.mem_cons_of_mem _ hl)) ?_).mono ?_
      fun _ he => he
    · rw [leftIn, if_neg (List.cons_ne_nil _ _)] at hjunk
      rw [leftIn, hc, ite_self, Nat.add_assoc, Nat.add_comm 1]
      exact hjunk
    · intro ended s' h hended
      have hlt := h hended
      rw [hforks, List.length_append, List.length_singleton] at hlt
      rw [List.length_cons]
      omega

theorem wp_main {Q : Bool → State → Prop} {fuel : Nat}
    (hQ : ∀ s₁, Base argv s₁ → s₁.input = s.input → s₁.c = s.c → s₁.forks = s.forks →
      wp (mainLoop argv (baseArgs argv).length junk fuel 0) Q E s₁) :
    wp (main argv junk fuel) Q E s := by
  rw [main, wp_bind]
  have hcopy : wp (copyArgs argv.length MAXARG 1) _ E s :=
    wp_copyArgs (Nat.le_refl 1) (Nat.zero_le _) (fun k hk => absurd hk (Nat.not_lt_zero k))
      ⟨by decide, by decide⟩
  refine hcopy.mono ?_ fun _ he => he
  rintro i s₁ ⟨hi, hbase, hinput, hc, hforks⟩
  rw [hi]
  exact hQ s₁ hbase hinput hc hforks

/-- `xargs` runs the command once for each line and ends, if and only if there is no newline in `c` when
    a turn starts at the end of the input. -/
theorem xargs_runs_once_per_line (argv : List (List Char)) (junk : Nat → Char → Char)
    (lines : List (List Char)) (last : List Char) (hlines : ∀ l ∈ lines, '\n' ∉ l)
    (hlast : '\n' ∉ last) (s : State) (hinput : s.input = stream lines last) :
    (∃ fuel s', main argv junk fuel s = .ok (true, s') ∧
        s'.forks = s.forks ++ (commandLines lines last).map (command argv)) ↔
      (last = [] → junk lines.length (leftIn s.c lines) ≠ '\n') := by
  constructor
  · rintro ⟨fuel, s', hrun, hforks⟩ rfl hjunk
    have hwp : wp (main argv junk fuel) (fun ended s' => ended = true →
        s.forks.length + lines.length < s'.forks.length) (fun _ => True) s := by
      refine wp_main fun s₁ hbase hinput₁ hc hforks => ?_
      rw [← hforks]
      refine wp_mainLoop_again hbase (hinput₁.trans hinput) hlines ?_
      rw [Nat.zero_add, hc]
      exact hjunk
    have hlt := hwp.of_ok hrun rfl
    rw [hforks, List.length_append, List.length_map, commandLines, if_pos rfl, List.append_nil] at hlt
    exact Nat.lt_irrefl _ hlt
  · intro hjunk
    have hwp : wp (main argv junk (lines.length + 1)) (fun ended s' => ended = true ∧
        s'.forks = s.forks ++ (commandLines lines last).map (command argv)) (fun _ => False) s := by
      refine wp_main fun s₁ hbase hinput₁ hc hforks => ?_
      rw [← hforks]
      refine wp_mainLoop_exits hbase (hinput₁.trans hinput) hlines hlast (fun hnil => ?_)
        (Nat.lt_succ_self _)
      rw [Nat.zero_add, hc]
      exact hjunk hnil
    obtain ⟨ended, s', hrun, rfl, hforks⟩ := hwp.exists_ok
    exact ⟨_, s', hrun, hforks⟩

/-- Nothing has been read yet; the arrays are not set. -/
def start (input : List Char) : State := ⟨input, NUL, fun _ => NUL, fun _ => .null, []⟩

theorem xargs_runs_once_per_line_two :
    ∃ fuel s', main [['x'], ['e']] (fun _ _ => 'q') fuel (start ['a', '\n', 'b']) = .ok (true, s') ∧
      s'.forks = [[['e'], ['a']], [['e'], ['b']]] :=
  (xargs_runs_once_per_line [['x'], ['e']] (fun _ _ => 'q') [['a']] ['b'] (by decide) (by decide)
    (start ['a', '\n', 'b']) rfl).2 (fun h => by cases h)

/-- With the newline of the last line still in `c`, every turn at the end of the input runs the
    command again. -/
theorem wp_mainLoop_repeats (hbase : Base argv s) (hinput : s.input = []) (hc : s.c = '\n') :
    wp (mainLoop argv (baseArgs argv).length (fun _ c => c) fuel i) (fun ended _ => ended = false) E
      s := by
  induction fuel generalizing s i with
  | zero => rfl
  | succ fuel ih =>
    refine wp_eof hbase hinput (fun hne => absurd hc hne) ?_
    intro _ s₂ _ hbase₂ hinput₂ hc₂
    exact ih hbase₂ hinput₂ hc₂

theorem xargs_never_ends :
    (¬ ∃ fuel s', main [['x'], ['e']] (fun _ c => c) fuel (start ['a', '\n']) = .ok (true, s')) ∧
      (main [['x'], ['e']] (fun _ c => c) 3 (start ['a', '\n'])).toOption.map (fun r => r.2.forks) =
        some [[['e'], ['a']], [['e']], [['e']]] := by
  refine ⟨?_, by decide +kernel⟩
  rintro ⟨fuel, s', hrun⟩
  have hwp : wp (main [['x'], ['e']] (fun _ c => c) fuel) (fun ended _ => ended = false)
      (fun _ => True) (start ['a', '\n']) := by
    refine wp_main fun s₁ hbase hinput _ _ => ?_
    rcases fuel with - | fuel
    · rfl
    · have hinput : s₁.input = ['a'] ++ '\n' :: [] := hinput
      refine wp_line hbase hinput (by decide) ?_
      intro s₂ _ hbase₂ hinput₂ hc₂
      exact wp_mainLoop_repeats hbase₂ hinput₂ hc₂
  cases hwp.of_ok hrun

/-! ## The arrays that `exec` gets -/

/-- The characters of the words are characters of the line. -/
theorem mem_of_mem_words {w : List Char} {c : Char} (hw : w ∈ words line) (hc : c ∈ w) : c ∈ line := by
  induction hn : line.length using Nat.strongRecOn generalizing line with
  | _ n ih =>
    rcases line_cases line with hall | ⟨bs, w', tail, hbs, hw', hne, htail, rfl⟩
    · have hnone := words_blanks hall []
      rw [List.append_nil, words_nil] at hnone
      rw [hnone] at hw
      cases hw
    · rw [words_first hbs hw' hne htail, List.mem_cons] at hw
      rcases hw with rfl | hw
      · exact List.mem_append_right _ (List.mem_append_left _ hc)
      · have hlt : (tail.drop 1).length < n := by
          have := List.length_pos_iff.2 hne
          rw [← hn, List.length_append, List.length_append, List.length_drop]
          omega
        have hmem := ih _ hlt hw rfl
        exact List.mem_append_right _ (List.mem_append_right _ (List.mem_of_mem_drop hmem))

/-- For a line without NUL, `exec` gets the arguments and the words, up to the limit. -/
theorem command_eq (hargv : argv.length ≤ MAXARG - 1) (hnul : NUL ∉ line) :
    command argv line = (argv.drop 1 ++ words (line.take (BUFSIZE - 1))).take (MAXARG - 1) := by
  have hlen : (argv.drop 1).length ≤ MAXARG - 2 := by
    rw [List.length_drop]
    omega
  have hbase : baseArgs argv = argv.drop 1 := List.take_of_length_le hlen
  have hwords : ∀ w ∈ words (line.take (BUFSIZE - 1)), (w.takeWhile fun c => c != NUL) = w := by
    intro w hw
    refine List.takeWhile_eq_self_iff.2 fun c hc => bne_iff_ne.2 fun he => hnul ?_
    exact he ▸ List.mem_of_mem_take (mem_of_mem_words hw hc)
  rw [command, hbase, List.take_append, List.take_of_length_le (hlen.trans (by decide))]
  refine congrArg _ ((List.map_congr_left fun w hw => ?_).trans (List.map_id _))
  exact hwords w (List.mem_of_mem_take hw)

/-- For every command line that `exec` can deliver and every input, whatever is in `c`: no access is
    outside of `buf` or `cmd`, each turn runs `exec` for its line, and `exec` number `k` gets the arguments
    of `xargs` and, if there is no NUL in line `k`, the words of its first 511 characters, as many as there
    is room for. -/
theorem xargs_passes_words (argv : List (List Char)) (hargv : argv.length ≤ MAXARG - 1)
    (junk : Nat → Char → Char) (lines : List (List Char)) (last : List Char)
    (hlines : ∀ l ∈ lines ++ [last], '\n' ∉ l) (fuel : Nat) (s : State)
    (hinput : s.input = stream lines last) (hforks : s.forks = []) :
    ∃ ended s', main argv junk fuel s = .ok (ended, s') ∧
      min fuel (commandLines lines last).length ≤ s'.forks.length ∧
      ∀ k < s'.forks.length, NUL ∉ (lines ++ [last]).getD k [] → s'.forks[k]? = some
        ((argv.drop 1 ++ words (((lines ++ [last]).getD k []).take (BUFSIZE - 1))).take (MAXARG - 1)) := by
  have hwp : wp (main argv junk fuel) (fun _ s' => Commands argv s s'
      (min fuel (commandLines lines last).length) (lines ++ [last])) (fun _ => False) s := by
    refine wp_main fun s₁ hbase hinput₁ _ hforks₁ => ?_
    refine (wp_mainLoop_commands hbase (hinput₁.trans hinput) hlines).mono ?_ fun _ he => he
    rintro _ s' ⟨m, hle, hm⟩
    exact ⟨m, hle, by rw [hm, hforks₁]⟩
  obtain ⟨ended, s', hrun, m, hle, hm⟩ := hwp.exists_ok
  rw [hforks, List.nil_append] at hm
  have hlen : s'.forks.length = m := by
    rw [hm, List.length_map, List.length_range]
  refine ⟨ended, s', hrun, hlen ▸ hle, fun k hk hnul => ?_⟩
  rw [hm, List.getElem?_map, List.getElem?_range (hlen ▸ hk), Option.map_some, command_eq hargv hnul]

theorem xargs_passes_words_two :
    ∃ ended s', main [['x'], ['e']] (fun _ c => c) 2 (start [' ', 'a', '\t', 'b', '\n', 'c']) =
      .ok (ended, s') ∧ s'.forks[0]? = some [['e'], ['a'], ['b']] ∧
        s'.forks[1]? = some [['e'], ['c']] := by
  obtain ⟨ended, s', hrun, hle, hwords⟩ := xargs_passes_words [['x'], ['e']] (by decide) (fun _ c => c)
    [[' ', 'a', '\t', 'b']] ['c'] (by decide) 2 (start [' ', 'a', '\t', 'b', '\n', 'c']) rfl rfl
  have hle : 2 ≤ s'.forks.length := hle
  exact ⟨ended, s', hrun, hwords 0 (by omega) (by decide), hwords 1 (by omega) (by decide)⟩

end Xv6.Xargs
