import Mathlib.Data.List.TakeWhile
import Xv6.Lib.Refine
import Xv6.Shell.Parse

set_option autoImplicit false

/-! # The language of the shell

What a line means: its tokens (`lex`) and the commands they derive (`Derives`). `Reads line v s` says
that the tokens `v` are left at the cursor `s`; `peek` and `gettoken` are then operations on tokens
(`rwp_peek`, `rwp_word`), and the parser can be verified without looking at characters. -/

namespace Xv6.Shell

open Wp

/-! ## Tokens -/

inductive Token where
  | lt
  | gt
  | gtgt
  | bar
  | amp
  | semi
  | lpar
  | rpar
  | word (w : Str)
  deriving DecidableEq, Repr

/-- The symbol a token starts with; a word has none. -/
def Token.symbol : Token → Option Char
  | .lt => some '<'
  | .gt => some '>'
  | .gtgt => some '>'
  | .bar => some '|'
  | .amp => some '&'
  | .semi => some ';'
  | .lpar => some '('
  | .rpar => some ')'
  | .word _ => none

/-- What `gettoken` returns for a token. -/
def Token.code : Token → Char
  | .gtgt => '+'
  | .word _ => 'a'
  | t => t.symbol.getD NUL

/-- The token that starts at a character which is no blank, and what comes after it. -/
def firstToken (c : Char) (s : Str) : Token × Str :=
  if c = '|' then (.bar, s)
  else if c = '(' then (.lpar, s)
  else if c = ')' then (.rpar, s)
  else if c = ';' then (.semi, s)
  else if c = '&' then (.amp, s)
  else if c = '<' then (.lt, s)
  else if c = '>' then
    if s.head? = some '>' then (.gtgt, s.tail) else (.gt, s)
  else (.word (c :: s.takeWhile isWord), s.dropWhile isWord)

theorem firstToken_suffix (c : Char) (s : Str) : (firstToken c s).2 <:+ s := by
  unfold firstToken
  split_ifs <;> first | exact List.suffix_refl s | exact List.tail_suffix s | exact List.dropWhile_suffix _

/-- The tokens of a text: words are maximal runs without blanks and symbols, and `>>` is one token. -/
def lex (s : Str) : List Token :=
  match _h : skip s with
  | [] => []
  | c :: t => (firstToken c t).1 :: lex (firstToken c t).2
termination_by s.length
decreasing_by
  have h1 := (firstToken_suffix c t).length_le
  have h2 : (skip s).length ≤ s.length := (List.dropWhile_suffix _).length_le
  rw [_h, List.length_cons] at h2
  omega

/-! ## The grammar -/

inductive RedirKind where
  | read
  | write
  | append
  deriving DecidableEq, Repr

def RedirKind.token : RedirKind → Token
  | .read => .lt
  | .write => .gt
  | .append => .gtgt

def RedirKind.mode : RedirKind → Nat
  | .read => O_RDONLY
  | .write => O_WRONLY ||| O_CREATE ||| O_TRUNC
  | .append => O_WRONLY ||| O_CREATE

def RedirKind.fd : RedirKind → Nat
  | .read => 0
  | .write => 1
  | .append => 1

/-- `redir ::= ('<' | '>' | '>>') word`. -/
structure Redir where
  kind : RedirKind
  file : Str
  deriving DecidableEq, Repr

def Redir.tokens (r : Redir) : List Token := [r.kind.token, .word r.file]

/-- Each redirection wraps those to its left. -/
def wrap (rs : List Redir) (cmd : Cmd Str) : Cmd Str :=
  rs.foldl (fun cmd r => .redir cmd r.file r.kind.mode r.kind.fd) cmd

/-- A word of a command, and the redirections after it. -/
structure Arg where
  text : Str
  redirs : List Redir
  deriving DecidableEq, Repr

def Arg.tokens (a : Arg) : List Token := .word a.text :: a.redirs.flatMap Redir.tokens

/-- Each `&` wraps what precedes it. -/
def background : Nat → Cmd Str → Cmd Str
  | 0, cmd => cmd
  | n + 1, cmd => background n (.back cmd)

inductive Nonterminal where
  | line
  | pipe
  | exec
  deriving DecidableEq, Repr

/-- The tokens derive from the nonterminal, and the command is the one of the derivation. -/
inductive Derives : Nonterminal → List Token → Cmd Str → Prop
  /-- `line ::= pipe '&'*` -/
  | line {u : List Token} {c : Cmd Str} (n : Nat) (hu : Derives .pipe u c) :
      Derives .line (u ++ List.replicate n .amp) (background n c)
  /-- `line ::= pipe '&'* ';' line` -/
  | list {u v : List Token} {c d : Cmd Str} (n : Nat) (hu : Derives .pipe u c) (hv : Derives .line v d) :
      Derives .line (u ++ (List.replicate n .amp ++ .semi :: v)) (.list (background n c) d)
  /-- `pipe ::= exec` -/
  | single {u : List Token} {c : Cmd Str} (hu : Derives .exec u c) : Derives .pipe u c
  /-- `pipe ::= exec '|' pipe` -/
  | pipe {u v : List Token} {c d : Cmd Str} (hu : Derives .exec u c) (hv : Derives .pipe v d) :
      Derives .pipe (u ++ .bar :: v) (.pipe c d)
  /-- `exec ::= '(' line ')' redir*` -/
  | block {u : List Token} {c : Cmd Str} (rs : List Redir) (hu : Derives .line u c) :
      Derives .exec (.lpar :: (u ++ .rpar :: rs.flatMap Redir.tokens)) (wrap rs c)
  /-- `exec ::= redir* (word redir*)*`, with fewer than `MAXARGS` words -/
  | exec (rs : List Redir) (args : List Arg) (hargs : args.length < MAXARGS) :
      Derives .exec (rs.flatMap Redir.tokens ++ args.flatMap Arg.tokens)
        (wrap (rs ++ args.flatMap Arg.redirs) (.exec (args.map Arg.text)))

/-! ## Tokens at the cursor -/

/-- The text of a word. -/
def Word.text (w : Word) : Str := w.q.take (w.q.length - w.eq.length)

/-- The word is a maximal run of characters of the line that are no blanks and no symbols. -/
structure Word.Ok (line : Str) (w : Word) : Prop where
  suffix : w.q <:+ line
  split : w.q = w.text ++ w.eq
  text : ∀ c ∈ w.text, isWord c = true
  max : ∀ c ∈ w.eq.head?, isWord c = false

/-- At `s`, the tokens `v` are left of the line. -/
structure Reads (line : Str) (v : List Token) (s : Str) : Prop where
  suffix : s <:+ line
  tokens : lex s = v

theorem isWord_iff (c : Char) : isWord c = true ↔ c ∉ whitespace ∧ c ∉ symbols := by
  simp [isWord]

theorem lex_nil : lex [] = [] := by
  rw [lex]
  rfl

theorem lex_of_skip_nil {s : Str} (h : skip s = []) : lex s = [] := by
  rw [lex]
  split
  · rfl
  · next h' => rw [h] at h'; cases h'

theorem lex_of_skip_cons {s t : Str} {c : Char} (h : skip s = c :: t) :
    lex s = (firstToken c t).1 :: lex (firstToken c t).2 := by
  rw [lex]
  split
  · next h' => rw [h] at h'; cases h'
  · next h' =>
      rw [h] at h'
      cases h'
      rfl

theorem skip_cons {s t : Str} {c : Char} (h : skip s = c :: t) : c ∉ whitespace := by
  have hne : s.dropWhile whitespace.contains ≠ [] := fun hnil => by
    rw [show s.dropWhile whitespace.contains = c :: t from h] at hnil
    cases hnil
  have hhead := List.head_dropWhile_not whitespace.contains hne
  simpa [show s.dropWhile whitespace.contains = c :: t from h] using hhead

@[simp] theorem skip_skip (s : Str) : skip (skip s) = skip s := by
  cases h : skip s with
  | nil => rfl
  | cons c t =>
    rw [skip, List.dropWhile_cons, if_neg]
    simpa using skip_cons h

theorem lex_skip (s : Str) : lex (skip s) = lex s := by
  cases h : skip s with
  | nil => rw [lex_of_skip_nil h, lex_nil]
  | cons c t =>
    have h' : skip (c :: t) = c :: t := by rw [← h, skip_skip]
    rw [lex_of_skip_cons h, lex_of_skip_cons h']

theorem skip_suffix (s : Str) : skip s <:+ s := List.dropWhile_suffix _

theorem mem_symbols {c : Char} : c ∈ symbols ↔
    c = '<' ∨ c = '|' ∨ c = '>' ∨ c = '&' ∨ c = ';' ∨ c = '(' ∨ c = ')' := by
  simp only [symbols, List.mem_cons, List.not_mem_nil, or_false]

theorem firstToken_of_not_symbol {c : Char} (t : Str) (hsym : c ∉ symbols) :
    firstToken c t = (.word (c :: t.takeWhile isWord), t.dropWhile isWord) := by
  simp only [mem_symbols, not_or] at hsym
  simp only [firstToken, hsym, if_false]

theorem firstToken_gt (t : Str) :
    firstToken '>' t = if t.head? = some '>' then (.gtgt, t.tail) else (.gt, t) := rfl

/-- The symbol of the first token is the character it starts with. -/
theorem firstToken_symbol (c : Char) (t : Str) :
    (firstToken c t).1.symbol = if c ∈ symbols then some c else none := by
  by_cases hsym : c ∈ symbols
  · rw [if_pos hsym]
    rcases mem_symbols.mp hsym with rfl | rfl | rfl | rfl | rfl | rfl | rfl
    case inr.inr.inl =>
      rw [firstToken_gt]
      split <;> rfl
    all_goals rfl
  · rw [if_neg hsym, firstToken_of_not_symbol t hsym]
    rfl

/-- `gettoken` finds the first token. -/
theorem scan_cons {c : Char} (t : Str) (hnul : c ≠ NUL) (hblank : c ∉ whitespace) :
    scan (c :: t) = ((firstToken c t).1.code, (firstToken c t).2) := by
  unfold scan
  rw [show deref (c :: t) = c from rfl, if_neg hnul, List.tail_cons]
  by_cases hsym : c ∈ symbols
  · rcases mem_symbols.mp hsym with rfl | rfl | rfl | rfl | rfl | rfl | rfl
    case inr.inr.inl =>
      rw [firstToken_gt]
      cases t with
      | nil => rfl
      | cons d t => by_cases hd : d = '>' <;> simp [deref, hd, Token.code, Token.symbol]
    all_goals rfl
  · have hword : isWord c = true := (isWord_iff c).mpr ⟨hblank, hsym⟩
    rw [firstToken_of_not_symbol t hsym]
    simp only [mem_symbols, not_or] at hsym
    simp [hsym, hword, Token.code]

/-- The next token starts with one of the symbols. -/
def starts (toks : Str) : List Token → Bool
  | [] => false
  | t :: _ => t.symbol.any toks.contains

section Cursor

variable {line : Str} {v : List Token} {E : Stop → Prop}

theorem rwp_peek (hline : NUL ∉ line) {toks : Str} (htoks : toks ⊆ symbols) :
    rwp (Reads line) (peek toks) (fun b v' => v' = v ∧ b = starts toks v) E v := by
  intro s hs
  refine ⟨v, ⟨(skip_suffix s).trans hs.suffix, (lex_skip s).trans hs.tokens⟩, rfl, ?_⟩
  have hv := hs.tokens
  have hsuf := (skip_suffix s).trans hs.suffix
  change (decide (deref (skip s) ≠ NUL) && toks.contains (deref (skip s))) = starts toks v
  cases h : skip s with
  | nil =>
    rw [lex_of_skip_nil h] at hv
    simp [← hv, starts, deref]
  | cons c t =>
    rw [lex_of_skip_cons h] at hv
    rw [h] at hsuf
    have hc : c ≠ NUL := fun he => hline (he ▸ hsuf.subset List.mem_cons_self)
    rw [← hv, starts, firstToken_symbol]
    split
    · simp [deref, hc]
    · next hsym =>
        have : c ∉ toks := fun hm => hsym (htoks hm)
        simp [deref, hc, this]

theorem rwp_gettoken_nil : rwp (Reads line) gettoken (fun r v' => r.1 = NUL ∧ v' = []) E [] := by
  intro s hs
  have hskip : skip s = [] := by
    cases h : skip s with
    | nil => rfl
    | cons c t =>
      have := hs.tokens
      rw [lex_of_skip_cons h] at this
      cases this
  have hrun : gettoken s = .ok ((NUL, ⟨[], []⟩), []) := by
    change Except.ok (((scan (skip s)).1, Word.mk (skip s) (scan (skip s)).2), skip (scan (skip s)).2) = _
    rw [hskip]
    rfl
  rw [wp, hrun]
  exact ⟨[], ⟨List.nil_suffix, lex_nil⟩, rfl, rfl⟩

/-- The word that the first token is. -/
theorem firstToken_word {c : Char} {t : Str} {w : Str} (hblank : c ∉ whitespace)
    (h : (firstToken c t).1 = .word w) :
    c :: t = w ++ (firstToken c t).2 ∧ (∀ d ∈ w, isWord d = true) ∧
      ∀ d ∈ (firstToken c t).2.head?, isWord d = false := by
  have hsym := firstToken_symbol c t
  rw [h] at hsym
  have hsym' : c ∉ symbols := fun hc => by
    rw [if_pos hc] at hsym
    cases hsym
  have hword : isWord c = true := (isWord_iff c).mpr ⟨hblank, hsym'⟩
  rw [firstToken_of_not_symbol t hsym'] at h ⊢
  cases h
  refine ⟨by simp [List.takeWhile_append_dropWhile], ?_, ?_⟩
  · intro d hd
    rcases List.mem_cons.mp hd with rfl | hd
    · exact hword
    · exact List.mem_takeWhile_imp hd
  · intro d hd
    cases hdrop : t.dropWhile isWord with
    | nil => rw [hdrop] at hd; cases hd
    | cons e r =>
      have hne : t.dropWhile isWord ≠ [] := by rw [hdrop]; exact List.cons_ne_nil e r
      have := List.head_dropWhile_not isWord hne
      rw [hdrop] at hd
      cases hd
      simpa [hdrop] using this

theorem rwp_gettoken (hline : NUL ∉ line) {t : Token} :
    rwp (Reads line) gettoken (fun r v' => v' = v ∧ r.1 = t.code ∧
      ∀ w, t = .word w → r.2.text = w ∧ r.2.Ok line) E (t :: v) := by
  intro s hs
  have hv := hs.tokens
  have hsuf := (skip_suffix s).trans hs.suffix
  cases h : skip s with
  | nil =>
    rw [lex_of_skip_nil h] at hv
    cases hv
  | cons c rest =>
    rw [lex_of_skip_cons h] at hv
    rw [h] at hsuf
    obtain ⟨rfl, rfl⟩ := List.cons.inj hv
    have hblank := skip_cons h
    have hscan := scan_cons rest (fun he => hline (he ▸ hsuf.subset List.mem_cons_self)) hblank
    have hrun : gettoken s = .ok (((firstToken c rest).1.code, ⟨c :: rest, (firstToken c rest).2⟩),
        skip (firstToken c rest).2) := by
      change Except.ok (((scan (skip s)).1, Word.mk (skip s) (scan (skip s)).2), skip (scan (skip s)).2) = _
      rw [h, hscan]
    have hrest : (firstToken c rest).2 <:+ c :: rest :=
      (firstToken_suffix c rest).trans (List.suffix_cons c rest)
    rw [wp, hrun]
    refine ⟨_, ⟨((skip_suffix _).trans hrest).trans hsuf, lex_skip _⟩, rfl, rfl, fun w hw => ?_⟩
    obtain ⟨hsplit, hword, hmax⟩ := firstToken_word hblank hw
    have htext : Word.text ⟨c :: rest, (firstToken c rest).2⟩ = w := by
      unfold Word.text
      dsimp only
      rw [hsplit]
      simp
    refine ⟨htext, hsuf, ?_, ?_, hmax⟩
    · rw [htext]
      exact hsplit
    · rw [htext]
      exact hword

end Cursor

end Xv6.Shell
