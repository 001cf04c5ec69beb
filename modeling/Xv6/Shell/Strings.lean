import Mathlib.Data.List.Perm.Basic
import Xv6.Shell.Language

set_option autoImplicit false

/-! # The strings of a parsed line

The command that `parsecmd` returns points into the line, and `nulterminate` has stored a NUL at the end of
every word. The words are the ones that the tokens of the line have, no NUL has hit any of them, and
every argument array has room for its null pointer. -/

namespace Xv6.Shell

open Wp

/-- The argument lists of a command. The null pointer is in the slot behind the last one. -/
def Cmd.argvs {ω : Type} : Cmd ω → List (List ω)
  | .exec argv => [argv]
  | .redir cmd _ _ _ => cmd.argvs
  | .pipe left right => left.argvs ++ right.argvs
  | .list left right => left.argvs ++ right.argvs
  | .back cmd => cmd.argvs

/-- The texts of the words among the tokens. -/
def wordsOf (u : List Token) : List Str :=
  u.filterMap fun t =>
    match t with
    | .word w => some w
    | _ => none

theorem Cmd.argvs_map {ω ω' : Type} (f : ω → ω') (cmd : Cmd ω) :
    (cmd.map f).argvs = cmd.argvs.map (List.map f) := by
  induction cmd with
  | exec argv => rfl
  | redir _ _ _ _ ih | back _ ih => exact ih
  | pipe _ _ ihl ihr | list _ _ ihl ihr => rw [Cmd.map, argvs, argvs, ihl, ihr, List.map_append]

theorem Cmd.words_map {ω ω' : Type} (f : ω → ω') (cmd : Cmd ω) :
    (cmd.map f).words = cmd.words.map f := by
  induction cmd with
  | exec argv => rfl
  | redir cmd file mode fd ih => rw [Cmd.map, words, words, ih, List.map_append, List.map_singleton]
  | pipe _ _ ihl ihr | list _ _ ihl ihr => rw [Cmd.map, words, words, ihl, ihr, List.map_append]
  | back cmd ih => exact ih

theorem argvs_wrap (rs : List Redir) (cmd : Cmd Str) : (wrap rs cmd).argvs = cmd.argvs := by
  induction rs generalizing cmd with
  | nil => rfl
  | cons r rs ih => exact ih _

theorem argvs_background (n : Nat) (cmd : Cmd Str) : (background n cmd).argvs = cmd.argvs := by
  induction n generalizing cmd with
  | zero => rfl
  | succ n ih => exact ih _

theorem words_wrap (rs : List Redir) (cmd : Cmd Str) :
    (wrap rs cmd).words = cmd.words ++ rs.map Redir.file := by
  induction rs generalizing cmd with
  | nil => exact (List.append_nil _).symm
  | cons r rs ih =>
    rw [wrap_cons, ih, Cmd.words, List.append_assoc]
    rfl

theorem words_background (n : Nat) (cmd : Cmd Str) : (background n cmd).words = cmd.words := by
  induction n generalizing cmd with
  | zero => rfl
  | succ n ih => exact ih _

theorem wordsOf_append (u v : List Token) : wordsOf (u ++ v) = wordsOf u ++ wordsOf v :=
  List.filterMap_append

theorem wordsOf_amps (n : Nat) : wordsOf (List.replicate n .amp) = [] := by
  induction n with
  | zero => rfl
  | succ n ih => exact ih

theorem wordsOf_redirs (rs : List Redir) : wordsOf (rs.flatMap Redir.tokens) = rs.map Redir.file := by
  induction rs with
  | nil => rfl
  | cons r rs ih =>
    have hr : wordsOf r.tokens = [r.file] := by
      rcases r with ⟨kind, file⟩
      cases kind <;> rfl
    rw [List.flatMap_cons, wordsOf_append, hr, ih]
    rfl

theorem wordsOf_args (args : List Arg) : wordsOf (args.flatMap Arg.tokens) =
    args.flatMap fun a => a.text :: a.redirs.map Redir.file := by
  induction args with
  | nil => rfl
  | cons a args ih =>
    have ha : wordsOf a.tokens = a.text :: a.redirs.map Redir.file :=
      congrArg (a.text :: ·) (wordsOf_redirs a.redirs)
    rw [List.flatMap_cons, wordsOf_append, ha, ih]
    rfl

/-- An argument list is shorter than the array. -/
theorem Derives.argvs_lt {S : Nonterminal} {u : List Token} {c : Cmd Str} (h : Derives S u c) :
    ∀ argv ∈ c.argvs, argv.length < MAXARGS := by
  induction h with
  | line n _ ih =>
    rw [argvs_background]
    exact ih
  | list n _ _ ihu ihv =>
    rw [Cmd.argvs, argvs_background]
    exact List.forall_mem_append.2 ⟨ihu, ihv⟩
  | single _ ih => exact ih
  | pipe _ _ ihu ihv => exact List.forall_mem_append.2 ⟨ihu, ihv⟩
  | block rs _ ih =>
    rw [argvs_wrap]
    exact ih
  | exec rs args hargs =>
    intro argv hargv
    rw [argvs_wrap, Cmd.argvs, List.mem_singleton] at hargv
    rwa [hargv, List.length_map]

/-- Every word of the line is at one place of the command. -/
theorem Derives.words_perm {S : Nonterminal} {u : List Token} {c : Cmd Str} (h : Derives S u c) :
    c.words.Perm (wordsOf u) := by
  induction h with
  | line n _ ih =>
    rw [words_background, wordsOf_append, wordsOf_amps, List.append_nil]
    exact ih
  | @list u v _ _ n _ _ ihu ihv =>
    have hv : wordsOf (.semi :: v) = wordsOf v := rfl
    rw [Cmd.words, words_background, wordsOf_append, wordsOf_append, wordsOf_amps, hv, List.nil_append]
    exact ihu.append ihv
  | single _ ih => exact ih
  | @pipe u v _ _ _ _ ihu ihv =>
    have hv : wordsOf (.bar :: v) = wordsOf v := rfl
    rw [Cmd.words, wordsOf_append, hv]
    exact ihu.append ihv
  | @block u _ rs _ ih =>
    have hu : wordsOf (.lpar :: (u ++ .rpar :: rs.flatMap Redir.tokens)) =
        wordsOf u ++ wordsOf (rs.flatMap Redir.tokens) := wordsOf_append u _
    rw [words_wrap, hu, wordsOf_redirs]
    exact ih.append_right _
  | exec rs args _ =>
    rw [words_wrap, wordsOf_append, wordsOf_redirs, wordsOf_args, Cmd.words, List.map_append,
      List.map_flatMap, ← List.append_assoc]
    -- the arguments come first in the command, and between the redirections in the line
    refine ((List.perm_append_comm.append_right _).trans ?_)
    rw [List.append_assoc]
    exact (List.map_append_flatMap_perm args Arg.text _).append_left _

/-- For every line that the parser accepts: the pointers of the command lead to the words of the line,
    none of which contains the place of a NUL, and an argument list leaves a slot for the null pointer. -/
theorem nulterminate_keeps_words (buf : Str) (tree : Cmd Str) (h : parsecmd buf = .ok tree) :
    ∃ cmd rest, parsewhole (4 * (lineAt buf).length + 4) (lineAt buf) = .ok (cmd, rest) ∧
      tree = cmd.map (fun w => strAt (nulterminate cmd (lineAt buf)) w.q) ∧
      (∀ w ∈ cmd.words, w.Ok (lineAt buf) ∧ strAt (nulterminate cmd (lineAt buf)) w.q = w.text) ∧
      (cmd.words.map Word.text).Perm (wordsOf (lex (lineAt buf))) ∧
      (∀ w ∈ cmd.words, ∀ x ∈ cmd.words, ∀ i < w.text.length,
        (lineAt buf).length - w.q.length + i ≠ (lineAt buf).length - x.eq.length) ∧
      ∀ argv ∈ cmd.argvs, argv.length < MAXARGS := by
  have hline := nul_not_mem_lineAt buf
  unfold parsecmd at h
  generalize lineAt buf = line at hline h ⊢
  have hfuel : 4 * (lex line).length + 4 ≤ 4 * line.length + 4 := by
    have := lex_length_le line
    omega
  have hsound := parsewhole_sound hline hfuel line ⟨List.suffix_refl line, rfl⟩
  cases hrun : parsewhole (4 * line.length + 4) line with
  | error e =>
    rw [hrun] at h
    cases h
  | ok r =>
    obtain ⟨cmd, rest⟩ := r
    obtain ⟨-, -, hgood, hder⟩ := hsound.of_ok hrun
    rw [hrun] at h
    refine ⟨cmd, rest, rfl, (Except.ok.inj h).symm, fun w hw => ⟨hgood w hw, ?_⟩, ?_, ?_, ?_⟩
    · exact strAt_nulterminate hline hgood hw
    · rw [← Cmd.words_map]
      exact hder.words_perm
    · intro w hw x hx i hi
      exact (hgood w hw).no_end (hgood x hx) hi
    · intro argv hargv
      have hmap : argv.map Word.text ∈ (cmd.map Word.text).argvs := by
        rw [Cmd.argvs_map]
        exact List.mem_map_of_mem hargv
      have hlt := hder.argvs_lt _ hmap
      rwa [List.length_map] at hlt

/-- Tokens that touch each other. -/
theorem nulterminate_keeps_words_redir :
    ∃ cmd rest, parsewhole 36 "echo a>b".toList = .ok (cmd, rest) ∧
      (∀ w ∈ cmd.words, strAt (nulterminate cmd "echo a>b".toList) w.q = w.text) ∧
      (cmd.words.map Word.text).Perm ["echo".toList, "a".toList, "b".toList] := by
  have hacc : parsecmd "echo a>b".toList =
      .ok (.redir (.exec ["echo".toList, "a".toList]) "b".toList 0x601 1) := by decide +kernel
  obtain ⟨cmd, rest, hrun, -, hwords, hperm, -⟩ := nulterminate_keeps_words _ _ hacc
  have hlex : wordsOf (lex (lineAt "echo a>b".toList)) = ["echo".toList, "a".toList, "b".toList] := by
    decide +kernel
  rw [hlex] at hperm
  exact ⟨cmd, rest, hrun, fun w hw => (hwords w hw).2, hperm⟩

end Xv6.Shell
