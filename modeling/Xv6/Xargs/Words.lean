import Mathlib.Logic.Function.Basic
import Xv6.Lib.Wp

set_option autoImplicit false

/-! # The arguments that `xargs` builds

The part of `main` in `user/xargs.c` that cuts a line into words and fills the array `cmd`. Both arrays
have their size: an access outside is an error (`buf` or `cmd`). A word is a stretch of the line between
blanks and tabs; in the buffer it becomes a string when a NUL is written behind it. -/

namespace Xv6.Xargs

open Wp Function

def MAXARG : Nat := 32

/-- `sizeof(buf)` -/
def BUFSIZE : Nat := 512

/-- What an entry of `cmd` points to. -/
inductive Ptr where
  | null
  /-- The string `argv[i]` of `xargs` itself. -/
  | arg (i : Nat)
  /-- `&buf[j]` -/
  | buf (j : Nat)
  deriving DecidableEq

structure State where
  /-- What there is still to be read from the standard input. -/
  input : List Char
  c : Char
  buf : Nat → Char
  cmd : Nat → Ptr
  /-- The arrays with which `exec` has been called, each after a `fork`. -/
  forks : List (List (List Char))

abbrev M := StateT State (Except String)

def NUL : Char := '\x00'

/-- `buf[j]` -/
def getBuf (j : Nat) : M Char := do
  if j < BUFSIZE then return (← get).buf j else throw "buf"

/-- `buf[j] = c;` -/
def setBuf (j : Nat) (c : Char) : M Unit :=
  if j < BUFSIZE then modify fun s => { s with buf := update s.buf j c } else throw "buf"

/-- `cmd[i] = p;` -/
def setCmd (i : Nat) (p : Ptr) : M Unit :=
  if i < MAXARG then modify fun s => { s with cmd := update s.cmd i p } else throw "cmd"

/-! ## The loops -/

/-- `for(i = 1; i < argc && i < MAXARG-1; i++) cmd[i-1] = argv[i];`, with at most `fuel` turns; the last
    value of `i`. -/
def copyArgs (argc : Nat) : Nat → Nat → M Nat
  | 0, _ => throw "copyArgs: no end"
  | fuel + 1, i => do
    if i < argc ∧ i < MAXARG - 1 then
      setCmd (i - 1) (.arg i)
      copyArgs argc fuel (i + 1)
    else return i

def blank (c : Char) : Bool := c = ' ' || c = '\t'

/-- `while(buf[j] == ' ' || buf[j] == '\t') j++;` -/
def skipBlanks : Nat → Nat → M Nat
  | 0, _ => throw "skipBlanks: no end"
  | fuel + 1, j => do
    if blank (← getBuf j) then skipBlanks fuel (j + 1) else return j

/-- `while(j < n && buf[j] != ' ' && buf[j] != '\t') j++;` -/
def skipWord (n : Nat) : Nat → Nat → M Nat
  | 0, _ => throw "skipWord: no end"
  | fuel + 1, j => do
    if j < n then
      if !blank (← getBuf j) then skipWord n fuel (j + 1) else return j
    else return j

/-- The loop that builds the arguments; the last value of `argi`. -/
def splitLoop (n : Nat) : Nat → Nat → Nat → M Nat
  | 0, _, _ => throw "splitLoop: no end"
  | fuel + 1, j, argi => do
    if j < n then
      let j ← skipBlanks (BUFSIZE + 1) j
      if j ≥ n then return argi
      else
        setCmd argi (.buf j)
        let j ← skipWord n (BUFSIZE + 1) j
        setBuf j NUL
        if argi + 1 ≥ MAXARG - 1 then return argi + 1
        else splitLoop n fuel (j + 1) (argi + 1)
    else return argi

/-! ## What `exec` gets -/

/-- The string at `&buf[j]`. -/
def cString (buf : Nat → Char) (j : Nat) : List Char :=
  ((List.range' j (BUFSIZE - j)).map buf).takeWhile fun c => c != NUL

/-- The string that an entry of `cmd` points to. -/
def deref (argv : List (List Char)) (s : State) : Ptr → List Char
  | .null => []
  | .arg i => argv.getD i []
  | .buf j => cString s.buf j

/-- The strings of `cmd`, up to the first null pointer. -/
def execArgs (argv : List (List Char)) (s : State) : List (List Char) :=
  (((List.range MAXARG).map s.cmd).takeWhile fun p => p != .null).map (deref argv s)

/-- The words of a line. -/
def words (line : List Char) : List (List Char) := (line.splitOnP blank).filter (· ≠ [])

theorem words_nil : words [] = [] := rfl

theorem words_blank {b : Char} (hb : blank b = true) (line : List Char) :
    words (b :: line) = words line := by
  rw [words, List.splitOnP_cons_eq_if_modifyHead, if_pos hb]
  rfl

theorem words_last {w : List Char} (hw : ∀ c ∈ w, blank c = false) (hne : w ≠ []) : words w = [w] := by
  rw [words, List.splitOnP_eq_singleton hw]
  simp [hne]

theorem words_cons {w : List Char} (hw : ∀ c ∈ w, blank c = false) (hne : w ≠ []) {b : Char}
    (hb : blank b = true) (line : List Char) : words (w ++ b :: line) = w :: words line := by
  rw [words, List.splitOnP_append_cons_of_forall_mem hw b hb]
  simp [words, hne]

theorem words_blanks {bs : List Char} (hbs : ∀ c ∈ bs, blank c = true) (line : List Char) :
    words (bs ++ line) = words line := by
  induction bs with
  | nil => rfl
  | cons b bs ih =>
    rw [List.cons_append, words_blank (hbs b List.mem_cons_self)]
    exact ih fun c hc => hbs c (List.mem_cons_of_mem _ hc)

/-- The first word; what is behind it is empty or starts with a blank. -/
theorem words_first {bs w tail : List Char} (hbs : ∀ c ∈ bs, blank c = true)
    (hw : ∀ c ∈ w, blank c = false) (hne : w ≠ []) (htail : ∀ b ∈ tail.head?, blank b = true) :
    words (bs ++ (w ++ tail)) = w :: words (tail.drop 1) := by
  rw [words_blanks hbs]
  cases tail with
  | nil =>
    rw [List.append_nil, words_last hw hne]
    rfl
  | cons b rest => exact words_cons hw hne (htail b rfl) rest

/-- Blanks, a word, and the rest. -/
theorem line_cases (line : List Char) : (∀ c ∈ line, blank c = true) ∨
    ∃ bs w tail, (∀ c ∈ bs, blank c = true) ∧ (∀ c ∈ w, blank c = false) ∧ w ≠ [] ∧
      (∀ b ∈ tail.head?, blank b = true) ∧ line = bs ++ (w ++ tail) := by
  induction line with
  | nil => exact Or.inl fun c hc => absurd hc List.not_mem_nil
  | cons a line ih =>
    cases ha : blank a with
    | true =>
      rcases ih with hall | ⟨bs, w, tail, hbs, hw, hne, htail, rfl⟩
      · exact Or.inl (List.forall_mem_cons.2 ⟨ha, hall⟩)
      · exact Or.inr ⟨a :: bs, w, tail, List.forall_mem_cons.2 ⟨ha, hbs⟩, hw, hne, htail, rfl⟩
    | false =>
      have hsingle : ∀ c ∈ [a], blank c = false := List.forall_mem_singleton.2 ha
      have hnone : ∀ c ∈ ([] : List Char), blank c = true := fun c hc => absurd hc List.not_mem_nil
      rcases ih with hall | ⟨bs, w, tail, hbs, hw, hne, htail, rfl⟩
      · exact Or.inr ⟨[], [a], line, hnone, hsingle, List.cons_ne_nil _ _,
          fun b hb => hall b (List.mem_of_mem_head? hb), rfl⟩
      · rcases bs with - | ⟨b, bs⟩
        · exact Or.inr ⟨[], a :: w, tail, hnone, List.forall_mem_cons.2 ⟨ha, hw⟩,
            List.cons_ne_nil _ _, htail, rfl⟩
        · refine Or.inr ⟨[], [a], b :: bs ++ (w ++ tail), hnone, hsingle, List.cons_ne_nil _ _,
            fun c hc => ?_, rfl⟩
          obtain rfl : b = c := Option.some.inj hc
          exact hbs b List.mem_cons_self

/-! ## Stretches of the buffer -/

/-- From `j` on the buffer holds these characters. -/
def Span (buf : Nat → Char) : Nat → List Char → Prop
  | _, [] => True
  | j, c :: r => buf j = c ∧ Span buf (j + 1) r

variable {buf buf' : Nat → Char} {j : Nat} {r : List Char}

theorem span_append {a b : List Char} :
    Span buf j (a ++ b) ↔ Span buf j a ∧ Span buf (j + a.length) b := by
  induction a generalizing j with
  | nil => simp [Span]
  | cons c a ih =>
    rw [List.cons_append, Span, Span, ih, List.length_cons, and_assoc, Nat.add_right_comm,
      Nat.add_assoc]

theorem Span.congr (h : Span buf j r) (hbuf : ∀ k, j ≤ k → k < j + r.length → buf' k = buf k) :
    Span buf' j r := by
  induction r generalizing j with
  | nil => trivial
  | cons c r ih =>
    rw [List.length_cons] at hbuf
    refine ⟨(hbuf j (Nat.le_refl j) (by omega)).trans h.1, ih h.2 fun k hk hk' => ?_⟩
    exact hbuf k (by omega) (by omega)

/-- A NUL behind it makes a string of it. -/
theorem cString_of_span {w : List Char} (h : Span buf j (w ++ [NUL])) (hlt : j + w.length < BUFSIZE) :
    cString buf j = w.takeWhile fun c => c != NUL := by
  induction w generalizing j with
  | nil =>
    obtain ⟨m, hm⟩ : ∃ m, BUFSIZE - j = m + 1 := ⟨BUFSIZE - j - 1, by
      rw [List.length_nil] at hlt
      omega⟩
    rw [cString, hm, List.range'_succ, List.map_cons, h.1]
    rfl
  | cons c w ih =>
    rw [List.length_cons] at hlt
    obtain ⟨m, hm⟩ : ∃ m, BUFSIZE - j = m + 1 := ⟨BUFSIZE - j - 1, by omega⟩
    have hrest := ih h.2 (by omega)
    rw [cString, show BUFSIZE - (j + 1) = m by omega] at hrest
    rw [cString, hm, List.range'_succ, List.map_cons, h.1, List.takeWhile_cons, List.takeWhile_cons,
      hrest]

/-! ## The loops on a line -/

variable {s s' : State} {E : String → Prop} {n fuel : Nat}

theorem wp_getBuf {Q : Char → State → Prop} (hj : j < BUFSIZE) (h : Q (s.buf j) s) :
    wp (getBuf j) Q E s := by
  unfold getBuf
  rw [if_pos hj]
  exact h

theorem wp_setBuf {Q : Unit → State → Prop} {c : Char} (hj : j < BUFSIZE)
    (h : Q () { s with buf := update s.buf j c }) : wp (setBuf j c) Q E s := by
  unfold setBuf
  rw [if_pos hj]
  exact h

theorem wp_setCmd {Q : Unit → State → Prop} {i : Nat} {p : Ptr} (hi : i < MAXARG)
    (h : Q () { s with cmd := update s.cmd i p }) : wp (setCmd i p) Q E s := by
  unfold setCmd
  rw [if_pos hi]
  exact h

theorem wp_skipBlanks {bs : List Char} {x : Char} (hspan : Span s.buf j (bs ++ [x]))
    (hbs : ∀ c ∈ bs, blank c = true) (hx : blank x = false) (hlt : j + bs.length < BUFSIZE)
    (hfuel : bs.length < fuel) :
    wp (skipBlanks fuel j) (fun r s' => r = j + bs.length ∧ s' = s) E s := by
  induction fuel generalizing j bs with
  | zero => exact absurd hfuel (Nat.not_lt_zero _)
  | succ fuel ih =>
    rw [skipBlanks, wp_bind]
    rcases bs with - | ⟨b, bs⟩
    · refine wp_getBuf hlt ?_
      rw [hspan.1, hx]
      exact ⟨rfl, rfl⟩
    · rw [List.length_cons] at hlt hfuel
      refine wp_getBuf (by omega) ?_
      rw [hspan.1, hbs b List.mem_cons_self]
      refine (ih hspan.2 (fun c hc => hbs c (List.mem_cons_of_mem _ hc)) (by omega)
        (by omega)).mono ?_ fun _ he => he
      rintro r s' ⟨rfl, rfl⟩
      exact ⟨by rw [List.length_cons]; omega, rfl⟩

theorem wp_skipWord {w : List Char} (hspan : Span s.buf j w) (hw : ∀ c ∈ w, blank c = false)
    (hle : j + w.length ≤ n) (hn : n < BUFSIZE)
    (hend : j + w.length < n → blank (s.buf (j + w.length)) = true) (hfuel : w.length < fuel) :
    wp (skipWord n fuel j) (fun r s' => r = j + w.length ∧ s' = s) E s := by
  induction fuel generalizing j w with
  | zero => exact absurd hfuel (Nat.not_lt_zero _)
  | succ fuel ih =>
    rw [skipWord, wp_ite]
    rcases w with - | ⟨c, w⟩
    · refine ⟨fun hj => ?_, fun hj => ⟨rfl, rfl⟩⟩
      rw [wp_bind]
      refine wp_getBuf (by omega) ?_
      rw [List.length_nil, Nat.add_zero] at hend
      rw [hend hj]
      exact ⟨rfl, rfl⟩
    · rw [List.length_cons] at hle hend hfuel
      refine ⟨fun hj => ?_, fun hj => absurd (by omega) hj⟩
      rw [wp_bind]
      refine wp_getBuf (by omega) ?_
      rw [hspan.1, hw c List.mem_cons_self]
      refine (ih hspan.2 (fun c hc => hw c (List.mem_cons_of_mem _ hc)) (by omega) (fun hlt => ?_)
        (by omega)).mono ?_ fun _ he => he
      · have hb := hend (by omega)
        rwa [show j + (w.length + 1) = j + 1 + w.length by omega] at hb
      · rintro r s' ⟨rfl, rfl⟩
        exact ⟨by rw [List.length_cons]; omega, rfl⟩

/-- The words have been entered from `argi` on; nothing before has changed. -/
structure Split (s s' : State) (j argi argi' : Nat) (ws : List (List Char)) : Prop where
  count : argi' = argi + ws.length
  entry : ∀ k w, ws[k]? = some w → ∃ p, s'.cmd (argi + k) = .buf p ∧
    cString s'.buf p = w.takeWhile fun c => c != NUL
  cmd : ∀ i < argi, s'.cmd i = s.cmd i
  buf : ∀ k < j, s'.buf k = s.buf k
  input : s'.input = s.input
  c : s'.c = s.c
  forks : s'.forks = s.forks

theorem Split.none (s : State) (j argi : Nat) : Split s s j argi argi [] :=
  ⟨rfl, (fun k w h => by cases h), fun _ _ => rfl, fun _ _ => rfl, rfl, rfl, rfl⟩

/-- A word at `p`, with a NUL behind it, and the words that follow. -/
theorem Split.cons {s₁ s₂ : State} {argi argi' p : Nat} {w : List Char} {ws : List (List Char)}
    (hs₁ : s₁ = { s with
      cmd := update s.cmd argi (.buf p)
      buf := update s.buf (p + w.length) NUL })
    (hspan : Span s.buf p w) (hjp : j ≤ p) (hlt : p + w.length < BUFSIZE)
    (h : Split s₁ s₂ (p + w.length + 1) (argi + 1) argi' ws) : Split s s₂ j argi argi' (w :: ws) := by
  have hcmd : ∀ i ≤ argi, s₂.cmd i = update s.cmd argi (.buf p) i := fun i hi => by
    rw [h.cmd i (by omega), hs₁]
  have hbuf : ∀ k ≤ p + w.length, s₂.buf k = update s.buf (p + w.length) NUL k := fun k hk => by
    rw [h.buf k (by omega), hs₁]
  have hword : Span s₂.buf p (w ++ [NUL]) := by
    refine span_append.2 ⟨hspan.congr fun k _ hk => ?_, ?_, trivial⟩
    · rw [hbuf k (by omega), update_of_ne (by omega)]
    · rw [hbuf _ (Nat.le_refl _), update_self]
  refine ⟨?_, ?_, fun i hi => ?_, fun k hk => ?_, ?_, ?_, ?_⟩
  · rw [h.count, List.length_cons]
    omega
  · intro k w' hw'
    rcases k with - | k
    · obtain rfl : w = w' := Option.some.inj hw'
      exact ⟨p, by rw [Nat.add_zero, hcmd _ (Nat.le_refl _), update_self],
        cString_of_span hword hlt⟩
    · obtain ⟨q, hq, hstr⟩ := h.entry k w' hw'
      exact ⟨q, by rw [← hq, Nat.add_assoc, Nat.add_comm 1 k], hstr⟩
  · rw [hcmd i (by omega), update_of_ne (by omega)]
  · rw [hbuf k (by omega), update_of_ne (by omega)]
  · rw [h.input, hs₁]
  · rw [h.c, hs₁]
  · rw [h.forks, hs₁]

theorem take_cons_room {w : List Char} {ws : List (List Char)} {argi : Nat} (h : argi < MAXARG - 1) :
    (w :: ws).take (MAXARG - 1 - argi) = w :: ws.take (MAXARG - 1 - (argi + 1)) := by
  rw [show MAXARG - 1 - argi = MAXARG - 1 - (argi + 1) + 1 by omega, List.take_succ_cons]

/-- A word is entered: `cmd` points to it and a NUL is put behind it. -/
theorem wp_enterWord {f : Nat → M Nat} {Q : Nat → State → Prop} {p argi : Nat} {w : List Char}
    (hspan : Span s.buf p w) (hw : ∀ c ∈ w, blank c = false) (hle : p + w.length ≤ n)
    (hn : n < BUFSIZE) (hargi : argi < MAXARG - 1)
    (hend : p + w.length < n → blank (s.buf (p + w.length)) = true)
    (hQ : wp (f (p + w.length)) Q E { s with
      cmd := update s.cmd argi (.buf p)
      buf := update s.buf (p + w.length) NUL }) :
    wp (do
      setCmd argi (.buf p)
      let j ← skipWord n (BUFSIZE + 1) p
      setBuf j NUL
      f j) Q E s := by
  rw [wp_bind]
  refine wp_setCmd (by unfold MAXARG at hargi ⊢; omega) ?_
  rw [wp_bind]
  have hskip : wp (skipWord n (BUFSIZE + 1) p) _ E
      { s with cmd := update s.cmd argi (.buf p) } :=
    wp_skipWord hspan hw hle hn hend (by omega)
  refine hskip.mono ?_ fun _ he => he
  rintro _ _ ⟨rfl, rfl⟩
  rw [wp_bind]
  exact wp_setBuf (by omega) hQ

/-- The induction is on the number of turns; each turn takes the blanks before a word, and the word. -/
theorem wp_splitLoop {argi : Nat}
    (h : r = [] ∧ n ≤ j ∨ Span s.buf j (r ++ [NUL]) ∧ j + r.length = n) (hn : n < BUFSIZE)
    (hargi : argi < MAXARG - 1) (hfuel : r.length < fuel) :
    wp (splitLoop n fuel j argi) (fun argi' s' =>
      Split s s' j argi argi' ((words r).take (MAXARG - 1 - argi))) E s := by
  induction fuel generalizing s r j argi with
  | zero => exact absurd hfuel (Nat.not_lt_zero _)
  | succ fuel ih =>
    rw [splitLoop, wp_ite]
    refine ⟨fun hj => ?_, fun hj => ?_⟩
    · obtain ⟨hspan, hlen⟩ := h.resolve_left fun h => absurd hj (Nat.not_lt.2 h.2)
      rw [wp_bind]
      rcases line_cases r with hall | ⟨bs, w, tail, hbs, hw, hne, htail, rfl⟩
      · -- only blanks are left, up to the NUL
        refine (wp_skipBlanks hspan hall rfl (by omega) (by omega)).mono ?_ fun _ he => he
        rintro _ s ⟨rfl, rfl⟩
        rw [if_pos (by omega)]
        have hwords : words r = [] := by
          have := words_blanks hall []
          rwa [List.append_nil] at this
        rw [hwords, List.take_nil]
        exact Split.none s j argi
      · rw [List.length_append, List.length_append] at hlen hfuel
        rw [List.append_assoc, List.append_assoc] at hspan
        obtain ⟨hblanks, hspan⟩ := span_append.1 hspan
        obtain ⟨hword, hspan⟩ := span_append.1 hspan
        obtain ⟨c, w', rfl⟩ := List.exists_cons_of_ne_nil hne
        have hpos : (c :: w').length = w'.length + 1 := rfl
        have hfirst : Span s.buf j (bs ++ [c]) := span_append.2 ⟨hblanks, hword.1, trivial⟩
        have hskip : wp (skipBlanks (BUFSIZE + 1) j) _ E s :=
          wp_skipBlanks hfirst hbs (hw c List.mem_cons_self) (by omega) (by omega)
        refine hskip.mono ?_ fun _ he => he
        rintro _ s ⟨rfl, rfl⟩
        rw [if_neg (by omega)]
        refine wp_enterWord hword hw (by omega) hn hargi (fun hlt => ?_) ?_
        · cases tail with
          | nil =>
            rw [List.length_nil] at hlen
            omega
          | cons b rest =>
            rw [hspan.1]
            exact htail b rfl
        rw [words_first hbs hw hne htail, take_cons_room hargi, wp_ite]
        refine ⟨fun hfull => ?_, fun hfull => ?_⟩
        · rw [show MAXARG - 1 - (argi + 1) = 0 by omega, List.take_zero]
          exact Split.cons rfl hword (by omega) (by omega) (Split.none _ _ _)
        · refine (ih (r := tail.drop 1) ?_ (by omega) ?_).mono
            (fun argi' s' hsplit => Split.cons rfl hword (by omega) (by omega) hsplit) fun _ he => he
          · cases tail with
            | nil =>
              rw [List.length_nil] at hlen
              exact Or.inl ⟨rfl, by omega⟩
            | cons b rest =>
              have hcons : (b :: rest).length = rest.length + 1 := rfl
              refine Or.inr ⟨?_, by rw [List.drop_succ_cons, List.drop_zero]; omega⟩
              exact Span.congr hspan.2 fun k hk hk' => update_of_ne (by omega) ..
          · rw [List.length_drop]
            omega
    · have hr : r = [] := by
        rcases h with h | ⟨-, hlen⟩
        · exact h.1
        · exact List.eq_nil_of_length_eq_zero (by omega)
      rw [hr, words_nil, List.take_nil]
      exact Split.none s j argi

end Xv6.Xargs
