import Xv6.Grep.Match

set_option autoImplicit false

/-! # The lines that `grep` prints

The loop of `grep` in `user/grep.c`. What is in `buf` before `buf[m]` is a list; the file decides how
much of what was asked for each `read` gives (`sizes`), at least one byte while there is input. A line
is printed when it matches, up to the first line that fills the buffer: it ends the loop (`grep_eq`). -/

namespace Xv6.Grep

/-! ## The loops -/

/-- `sizeof(buf)` -/
def BUFSIZE : Nat := 1024

/-- What a `read` of `asked` bytes returns. -/
def read (asked size : Nat) (input : List Char) : Nat := min (size + 1) (min asked input.length)

/-- `strchr(p, '\n')`: what stands before the newline, and what stands after it. -/
def strchr : List Char → Option (List Char × List Char)
  | [] => none
  | c :: p => if c = '\n' then some ([], p) else (strchr p).map fun r => (c :: r.1, r.2)

/-- The loop over the lines in the buffer, with at most `fuel` turns: what is written, and what is left
    at `p`. -/
def scan (pattern : List Char) : Nat → List Char → List Char × List Char
  | 0, p => ([], p)
  | fuel + 1, p =>
    match strchr p with
    | none => ([], p)
    | some (line, rest) =>
      let r := scan pattern fuel rest
      (if matchText pattern line then line ++ '\n' :: r.1 else r.1, r.2)

/-- The loop of `grep`, with at most `fuel` turns; `i` is the number of the next `read`. -/
def grepLoop (pattern : List Char) (sizes : Nat → Nat) :
    Nat → Nat → List Char → List Char → Option (List Char)
  | 0, _, _, _ => none
  | fuel + 1, i, buf, input =>
    let n := read (BUFSIZE - buf.length - 1) (sizes i) input
    if n > 0 then
      let p := buf ++ input.take n
      let r := scan pattern p.length p
      (grepLoop pattern sizes fuel (i + 1) r.2 (input.drop n)).map (r.1 ++ ·)
    else some []

/-- What is written to the standard output. -/
def grep (pattern : List Char) (sizes : Nat → Nat) (input : List Char) : Option (List Char) :=
  grepLoop pattern sizes (input.length + 1) 0 [] input

/-! ## Lines -/

/-- A text of lines. -/
def text (lines : List (List Char)) : List Char := lines.flatMap (· ++ ['\n'])

/-- The lines that match. -/
def matching (pattern : List Char) (lines : List (List Char)) : List Char :=
  text (lines.filter fun line => matchText pattern line)

theorem text_cons (line : List Char) (lines : List (List Char)) :
    text (line :: lines) = line ++ '\n' :: text lines := by
  rw [text, List.flatMap_cons, List.append_assoc]
  rfl

theorem matching_cons (pattern line : List Char) (lines : List (List Char)) :
    matching pattern (line :: lines) =
      if matchText pattern line then line ++ '\n' :: matching pattern lines
      else matching pattern lines := by
  rw [matching, List.filter_cons]
  split
  · rw [text_cons, matching]
  · rfl

/-- Two ways to cut a text at its first newline are the same. -/
theorem cut_unique {a b a' b' : List Char} (ha : '\n' ∉ a) (ha' : '\n' ∉ a')
    (h : a ++ '\n' :: b = a' ++ '\n' :: b') : a = a' ∧ b = b' := by
  induction a generalizing a' with
  | nil =>
    rcases a' with - | ⟨c, a'⟩
    · exact ⟨rfl, (List.cons.inj h).2⟩
    · exact absurd ((List.cons.inj h).1 ▸ List.mem_cons_self) ha'
  | cons c a ih =>
    rcases a' with - | ⟨c', a'⟩
    · exact absurd ((List.cons.inj h).1 ▸ List.mem_cons_self) ha
    · obtain ⟨hc, hrest⟩ := List.cons.inj h
      obtain ⟨rfl, rfl⟩ := ih (fun hn => ha (List.mem_cons_of_mem _ hn))
        (fun hn => ha' (List.mem_cons_of_mem _ hn)) hrest
      exact ⟨by rw [hc], rfl⟩

/-! ## One buffer -/

theorem strchr_eq_none {p : List Char} (h : '\n' ∉ p) : strchr p = none := by
  induction p with
  | nil => rfl
  | cons c p ih =>
    have hc : c ≠ '\n' := fun he => h (he ▸ List.mem_cons_self)
    have hp : '\n' ∉ p := fun hn => h (List.mem_cons_of_mem _ hn)
    rw [strchr, if_neg hc, ih hp]
    rfl

theorem strchr_append {line : List Char} (h : '\n' ∉ line) (rest : List Char) :
    strchr (line ++ '\n' :: rest) = some (line, rest) := by
  induction line with
  | nil => rfl
  | cons c line ih =>
    have hc : c ≠ '\n' := fun he => h (he ▸ List.mem_cons_self)
    have hline : '\n' ∉ line := fun hn => h (List.mem_cons_of_mem _ hn)
    rw [List.cons_append, strchr, if_neg hc, ih hline]
    rfl

/-- A text of which `p` is the beginning: the lines that end in `p`, and the others. -/
theorem scan_eq (pattern : List Char) {lines : List (List Char)} (hlines : ∀ l ∈ lines, '\n' ∉ l)
    {fuel : Nat} {p rest : List Char} (hfuel : p.length ≤ fuel) (h : p ++ rest = text lines) :
    ∃ done todo, lines = done ++ todo ∧ (scan pattern fuel p).1 = matching pattern done ∧
      (scan pattern fuel p).2 ++ rest = text todo ∧ '\n' ∉ (scan pattern fuel p).2 := by
  induction fuel generalizing lines p with
  | zero =>
    obtain rfl : p = [] := List.eq_nil_of_length_eq_zero (Nat.le_zero.1 hfuel)
    exact ⟨[], lines, rfl, rfl, h, List.not_mem_nil⟩
  | succ fuel ih =>
    by_cases hp : '\n' ∈ p
    · -- the first line ends in the buffer
      obtain ⟨a, b, rfl, ha⟩ := List.eq_append_cons_of_mem hp
      rcases lines with - | ⟨line, lines⟩
      · exact absurd h (by simp [text])
      · rw [text_cons, List.append_assoc, List.cons_append] at h
        obtain ⟨rfl, hrest⟩ := cut_unique ha (hlines line List.mem_cons_self) h
        rw [List.length_append, List.length_cons] at hfuel
        obtain ⟨done, todo, rfl, hout, hleft, hnl⟩ :=
          ih (fun l hl => hlines l (List.mem_cons_of_mem _ hl)) (by omega) hrest
        refine ⟨a :: done, todo, rfl, ?_⟩
        rw [scan, strchr_append ha, matching_cons]
        dsimp only
        rw [hout]
        exact ⟨rfl, hleft, hnl⟩
    · refine ⟨[], lines, rfl, ?_⟩
      rw [scan, strchr_eq_none hp]
      exact ⟨rfl, h, hp⟩

/-! ## All of the input -/

/-- A text whose first newline is not in `buf` has a first line that begins with `buf`. -/
theorem length_le_line {buf input line : List Char} {lines : List (List Char)} (hbuf : '\n' ∉ buf)
    (h : buf ++ input = text (line :: lines)) : buf.length ≤ line.length := by
  rw [text_cons] at h
  by_contra hlt
  have hget : (buf ++ input)[line.length]? = some '\n' := by
    rw [h, List.getElem?_append_right (Nat.le_refl _), Nat.sub_self]
    rfl
  rw [List.getElem?_append_left (Nat.lt_of_not_le hlt)] at hget
  exact hbuf (List.mem_of_getElem? hget)

/-- The line fits into the buffer, with its newline. -/
def fits (line : List Char) : Bool := line.length + 1 < BUFSIZE

/-- In a long line `strchr` finds nothing in the buffer, until there is no room for another byte. -/
theorem grepLoop_full (pattern : List Char) (sizes : Nat → Nat) {fuel i : Nat} {buf input : List Char}
    (hfuel : input.length < fuel) (hlen : BUFSIZE ≤ (buf ++ input).length + 1)
    (hroom : buf.length + 1 ≤ BUFSIZE) (hline : '\n' ∉ (buf ++ input).take (BUFSIZE - 1)) :
    grepLoop pattern sizes fuel i buf input = some [] := by
  induction fuel generalizing i buf input with
  | zero => exact absurd hfuel (Nat.not_lt_zero _)
  | succ fuel ih =>
    rw [grepLoop]
    by_cases hread : 0 < read (BUFSIZE - buf.length - 1) (sizes i) input
    · have hn : read (BUFSIZE - buf.length - 1) (sizes i) input ≤ BUFSIZE - buf.length - 1 := by
        unfold read
        omega
      rw [if_pos hread]
      generalize read (BUFSIZE - buf.length - 1) (sizes i) input = n at hread hn ⊢
      have hp : '\n' ∉ buf ++ input.take n := by
        intro hmem
        refine hline (List.IsPrefix.subset ?_ hmem)
        rw [List.prefix_take_iff, List.length_append, List.length_take]
        exact ⟨List.prefix_append_right_inj _ |>.2 (List.take_prefix n input), by omega⟩
      have hscan : scan pattern (buf ++ input.take n).length (buf ++ input.take n) =
          ([], buf ++ input.take n) := by
        cases (buf ++ input.take n).length with
        | zero => rfl
        | succ k => rw [scan, strchr_eq_none hp]
      have happ : (buf ++ input.take n) ++ input.drop n = buf ++ input := by
        rw [List.append_assoc, List.take_append_drop]
      have hrest : grepLoop pattern sizes fuel (i + 1) (buf ++ input.take n) (input.drop n) =
          some [] := by
        refine ih ?_ (by rwa [happ]) ?_ (by rwa [happ])
        · rw [List.length_drop]
          have : 0 < input.length := by
            rw [List.length_append] at hlen
            omega
          omega
        · rw [List.length_append, List.length_take]
          omega
      dsimp only
      rw [hscan, hrest]
      rfl
    · rw [if_neg hread]

theorem text_append (as bs : List (List Char)) : text (as ++ bs) = text as ++ text bs :=
  List.flatMap_append

theorem matching_append (pattern : List Char) (as bs : List (List Char)) :
    matching pattern (as ++ bs) = matching pattern as ++ matching pattern bs := by
  rw [matching, List.filter_append, text_append]
  rfl

theorem length_lt_text {line : List Char} {lines : List (List Char)} (h : line ∈ lines) :
    line.length < (text lines).length := by
  obtain ⟨as, bs, rfl⟩ := List.append_of_mem h
  rw [text_append, text_cons, List.length_append, List.length_append, List.length_cons]
  omega

/-- The invariant: what is in the buffer and what has not been read yet make up lines. The loop prints
    what matches before the first line that does not fit. -/
theorem grepLoop_eq (pattern : List Char) (sizes : Nat → Nat) {lines : List (List Char)}
    (hlines : ∀ l ∈ lines, '\n' ∉ l) {fuel i : Nat} {buf input : List Char}
    (hfuel : input.length < fuel) (hbuf : '\n' ∉ buf) (hroom : buf.length + 1 ≤ BUFSIZE)
    (h : buf ++ input = text lines) :
    grepLoop pattern sizes fuel i buf input = some (matching pattern (lines.takeWhile fits)) := by
  induction fuel generalizing lines i buf input with
  | zero => exact absurd hfuel (Nat.not_lt_zero _)
  | succ fuel ih =>
    rcases lines with - | ⟨line, lines⟩
    · -- nothing is left
      obtain ⟨-, rfl⟩ := List.append_eq_nil_iff.1 h
      rw [grepLoop, if_neg (by simp [read])]
      rfl
    by_cases hfit : fits line = true
    · have hshort : line.length + 1 < BUFSIZE := of_decide_eq_true hfit
      have hle := length_le_line hbuf h
      have hinput : input ≠ [] := by
        rintro rfl
        rw [List.append_nil, text_cons] at h
        exact hbuf (h ▸ List.mem_append_right _ List.mem_cons_self)
      have hpos : 0 < input.length := List.length_pos_iff.2 hinput
      have hread : 0 < read (BUFSIZE - buf.length - 1) (sizes i) input := by
        unfold read
        omega
      have hasked : read (BUFSIZE - buf.length - 1) (sizes i) input ≤ BUFSIZE - buf.length - 1 := by
        unfold read
        omega
      rw [grepLoop, if_pos hread]
      generalize read (BUFSIZE - buf.length - 1) (sizes i) input = n at hread hasked ⊢
      have hsplit : (buf ++ input.take n) ++ input.drop n = text (line :: lines) := by
        rw [List.append_assoc, List.take_append_drop, h]
      obtain ⟨done, todo, hall, hout, hleft, hnl⟩ :=
        scan_eq pattern hlines (Nat.le_refl _) hsplit
      -- the buffer holds the lines that are done, and what is left
      have hp : (text done).length +
          (scan pattern (buf ++ input.take n).length (buf ++ input.take n)).2.length ≤
            BUFSIZE - 1 := by
        have hlen := congrArg List.length hsplit
        rw [hall, text_append, ← hleft] at hlen
        simp only [List.length_append, List.length_take] at hlen ⊢
        omega
      have hdone : ∀ l ∈ done, fits l = true := fun l hl =>
        decide_eq_true (by have := length_lt_text hl; omega)
      have htodo := ih (fun l hl => hlines l (by rw [hall]; exact List.mem_append_right _ hl))
        (i := i + 1) (by rw [List.length_drop]; omega) hnl (by omega) hleft
      dsimp only
      rw [htodo, hout, hall, Option.map_some, List.takeWhile_append_of_pos hdone, matching_append]
    · -- the line fills the buffer
      have hlong : ¬ line.length + 1 < BUFSIZE := fun hlt => hfit (decide_eq_true hlt)
      rw [List.takeWhile_cons_of_neg hfit, grepLoop_full pattern sizes hfuel ?_ hroom ?_]
      · rfl
      · rw [h, text_cons, List.length_append]
        omega
      · intro hmem
        rw [h, text_cons, List.take_append_of_le_length (by omega)] at hmem
        exact hlines line List.mem_cons_self (List.mem_of_mem_take hmem)

/-- `grep` ends, and prints what matches before the first line that fills the buffer. -/
theorem grep_eq (pattern : List Char) (sizes : Nat → Nat) {lines : List (List Char)}
    (hlines : ∀ l ∈ lines, '\n' ∉ l) :
    grep pattern sizes (text lines) = some (matching pattern (lines.takeWhile fits)) :=
  grepLoop_eq pattern sizes hlines (Nat.lt_succ_self _) List.not_mem_nil (by decide) rfl

theorem matching_eq_nil {pattern : List Char} {lines : List (List Char)} :
    matching pattern lines = [] ↔ ∀ l ∈ lines, matchText pattern l = false := by
  induction lines with
  | nil => simp [matching, text]
  | cons line lines ih =>
    rw [matching_cons, List.forall_mem_cons, ← ih]
    cases matchText pattern line <;> simp

/-- `grep` prints exactly the lines that match, however the reads divide the input, if and only if no
    line that matches fills the buffer or comes after a line that does. -/
theorem grep_prints_matching (pattern : List Char) (sizes : Nat → Nat) (lines : List (List Char))
    (hlines : ∀ l ∈ lines, '\n' ∉ l) :
    grep pattern sizes (text lines) = some (matching pattern lines) ↔
      ∀ l ∈ lines.dropWhile fits, matchText pattern l = false := by
  have hsplit : matching pattern lines = matching pattern (lines.takeWhile fits) ++
      matching pattern (lines.dropWhile fits) := by
    rw [← matching_append, List.takeWhile_append_dropWhile]
  rw [grep_eq pattern sizes hlines, hsplit, ← matching_eq_nil, Option.some.injEq,
    List.self_eq_append_right]

theorem grep_prints_matching_two :
    grep ['a'] (fun i => 2 * i) (text [['b', 'a'], ['c']]) = some ['b', 'a', '\n'] :=
  (grep_prints_matching ['a'] (fun i => 2 * i) [['b', 'a'], ['c']] (by decide)).2 (by decide)

/-- 1023 characters, all of which match, in one line. -/
theorem grep_misses_long_line :
    matchText ['a'] (List.replicate 1023 'a') = true ∧
      grep ['a'] (fun _ => 511) (text [List.replicate 1023 'a']) = some [] ∧
      matching ['a'] [List.replicate 1023 'a'] ≠ [] := by
  have hmatch : matchText ['a'] (List.replicate 1023 'a') = true := rfl
  refine ⟨hmatch, ?_, ?_⟩
  · rw [grep_eq]
    · rw [List.takeWhile_cons_of_neg (by rw [fits, List.length_replicate]; decide)]
      rfl
    · intro l hl hmem
      rw [List.mem_singleton.1 hl] at hmem
      exact absurd (List.eq_of_mem_replicate hmem) (by decide)
  · rw [matching_cons, if_pos hmatch]
    exact List.append_ne_nil_of_right_ne_nil _ (List.cons_ne_nil _ _)

end Xv6.Grep
