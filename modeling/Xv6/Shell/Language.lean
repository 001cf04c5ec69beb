import Xv6.Shell.Grammar

set_option autoImplicit false

/-! # The parser accepts its grammar

What the parser returns is the command of a derivation of the tokens it has read (`parse_sound`, by
induction on the turns), and a derivation whose tokens are followed by something that cannot continue
it is found (`parse_complete`, by induction on the derivation). After `nulterminate` every pointer of
the command leads to the text of its word. -/

namespace Xv6.Shell

open Wp

/-! ## The tokens that the parser looks for -/

theorem starts_singleton {c : Char} {t : Token} (ht : ∀ t', t'.symbol = some c ↔ t' = t)
    {v : List Token} : starts [c] v = true ↔ ∃ v', v = t :: v' := by
  cases v with
  | nil => simp [starts]
  | cons t' v' =>
    have h := ht t'
    rw [starts, Option.any_eq_true]
    simpa using h

theorem starts_amp {v : List Token} : starts ['&'] v = true ↔ ∃ v', v = .amp :: v' :=
  starts_singleton fun t => by cases t <;> simp [Token.symbol]

theorem starts_semi {v : List Token} : starts [';'] v = true ↔ ∃ v', v = .semi :: v' :=
  starts_singleton fun t => by cases t <;> simp [Token.symbol]

theorem starts_bar {v : List Token} : starts ['|'] v = true ↔ ∃ v', v = .bar :: v' :=
  starts_singleton fun t => by cases t <;> simp [Token.symbol]

theorem starts_lpar {v : List Token} : starts ['('] v = true ↔ ∃ v', v = .lpar :: v' :=
  starts_singleton fun t => by cases t <;> simp [Token.symbol]

theorem starts_rpar {v : List Token} : starts [')'] v = true ↔ ∃ v', v = .rpar :: v' :=
  starts_singleton fun t => by cases t <;> simp [Token.symbol]

theorem starts_redir {v : List Token} :
    starts ['<', '>'] v = true ↔ ∃ (k : RedirKind) (v' : List Token), v = k.token :: v' := by
  cases v with
  | nil => simp [starts]
  | cons t v =>
    constructor
    · intro h
      cases t <;> simp [starts, Token.symbol] at h
      · exact ⟨.read, v, rfl⟩
      · exact ⟨.write, v, rfl⟩
      · exact ⟨.append, v, rfl⟩
    · rintro ⟨k, v', h⟩
      obtain ⟨rfl, rfl⟩ := List.cons.inj h
      cases k <;> rfl

theorem Token.code_eq_word {t : Token} : t.code = 'a' ↔ ∃ w, t = .word w := by
  cases t with
  | word w => exact ⟨fun _ => ⟨w, rfl⟩, fun _ => rfl⟩
  | _ => exact ⟨fun h => absurd h (by decide), fun ⟨_, h⟩ => nomatch h⟩

theorem Token.code_ne_nul (t : Token) : t.code ≠ NUL := by
  cases t with
  | word w => exact (show 'a' ≠ NUL by decide)
  | _ => decide

/-! ## Rules for reading tokens -/

section Rules

variable {α : Type} {line : Str} {v : List Token} {E : Stop → Prop} {Q : α → List Token → Prop}

theorem rwp_ifPeek (hline : NUL ∉ line) {toks : Str} (htoks : toks ⊆ symbols) {x y : Parser α}
    (hx : starts toks v = true → rwp (Reads line) x Q E v)
    (hy : starts toks v = false → rwp (Reads line) y Q E v) :
    rwp (Reads line) (do if ← peek toks then x else y) Q E v := by
  refine rwp_bind ((rwp_peek hline htoks).mono ?_)
  rintro b v' ⟨rfl, rfl⟩
  refine rwp_ite hx fun h => hy (by simpa using h)

theorem rwp_unlessPeek (hline : NUL ∉ line) {toks : Str} (htoks : toks ⊆ symbols) {x y : Parser α}
    (hx : starts toks v = false → rwp (Reads line) x Q E v)
    (hy : starts toks v = true → rwp (Reads line) y Q E v) :
    rwp (Reads line) (do if !(← peek toks) then x else y) Q E v := by
  refine rwp_bind ((rwp_peek hline htoks).mono ?_)
  rintro b v' ⟨rfl, rfl⟩
  refine rwp_ite (fun h => hx (by simpa using h)) fun h => hy (by simpa using h)

theorem rwp_skipToken (hline : NUL ∉ line) {t : Token} {x : Parser α} (hx : rwp (Reads line) x Q E v) :
    rwp (Reads line) (do let _ ← gettoken; x) Q E (t :: v) := by
  refine rwp_bind ((rwp_gettoken hline).mono ?_)
  rintro r v' ⟨rfl, -, -⟩
  exact hx

end Rules

/-! ## The words of a command -/

def Cmd.words {ω : Type} : Cmd ω → List ω
  | .exec argv => argv
  | .redir cmd file _ _ => cmd.words ++ [file]
  | .pipe left right => left.words ++ right.words
  | .list left right => left.words ++ right.words
  | .back cmd => cmd.words

theorem Cmd.map_congr {ω ω' : Type} {f g : ω → ω'} {cmd : Cmd ω} (h : ∀ w ∈ cmd.words, f w = g w) :
    cmd.map f = cmd.map g := by
  induction cmd with
  | exec argv => simpa [Cmd.map, Cmd.words] using h
  | redir cmd file mode fd ih =>
    simp only [Cmd.words, List.mem_append, List.mem_singleton] at h
    simp [Cmd.map, ih fun w hw => h w (.inl hw), h file (.inr rfl)]
  | pipe _ _ ihl ihr | list _ _ ihl ihr =>
    simp only [Cmd.words, List.mem_append] at h
    simp [Cmd.map, ihl fun w hw => h w (.inl hw), ihr fun w hw => h w (.inr hw)]
  | back cmd ih => simp [Cmd.map, ih h]

theorem Cmd.words_addArg {ω : Type} {P : ω → Prop} {w : ω} (cmd : Cmd ω) (hw : P w)
    (h : ∀ x ∈ cmd.words, P x) : ∀ x ∈ (cmd.addArg w).words, P x := by
  induction cmd with
  | exec argv =>
    intro x hx
    rcases List.mem_append.mp hx with hx | hx
    · exact h x hx
    · rwa [List.mem_singleton.mp hx]
  | redir cmd file mode fd ih =>
    intro x hx
    rcases List.mem_append.mp hx with hx | hx
    · exact ih (fun y hy => h y (List.mem_append_left _ hy)) x hx
    · exact h x (List.mem_append_right _ hx)
  | pipe | list | back => exact h

theorem Cmd.map_addArg {ω ω' : Type} (f : ω → ω') (w : ω) (cmd : Cmd ω) :
    (cmd.addArg w).map f = (cmd.map f).addArg (f w) := by
  induction cmd with
  | exec argv => simp [Cmd.addArg, Cmd.map]
  | redir cmd file mode fd ih => simp [Cmd.addArg, Cmd.map, ih]
  | pipe | list | back => rfl

/-- A word goes to the command inside the redirections. -/
theorem wrap_addArg (rs : List Redir) (cmd : Cmd Str) (w : Str) :
    (wrap rs cmd).addArg w = wrap rs (cmd.addArg w) := by
  induction rs generalizing cmd with
  | nil => rfl
  | cons r rs ih => exact ih _

theorem wrap_append (rs rs' : List Redir) (cmd : Cmd Str) :
    wrap (rs ++ rs') cmd = wrap rs' (wrap rs cmd) := List.foldl_append

theorem wrap_cons (r : Redir) (rs : List Redir) (cmd : Cmd Str) :
    wrap (r :: rs) cmd = wrap rs (.redir cmd r.file r.kind.mode r.kind.fd) := rfl

theorem redircmd_token (k : RedirKind) (cmd : Cmd Word) (w : Word) :
    redircmd k.token.code cmd w = .redir cmd w k.mode k.fd := by
  cases k <;> rfl

/-- The words of the command are words of the line. -/
def Good (line : Str) (cmd : Cmd Word) : Prop := ∀ w ∈ cmd.words, w.Ok line

/-! ## Soundness -/

section Sound

variable {line : Str} {v : List Token}

/-- What was read are the tokens of the redirections that were put around the command. -/
theorem parseredirs_sound (hline : NUL ∉ line) {fuel : Nat} {c : Cmd Word} (hc : Good line c)
    (hfuel : v.length < fuel) :
    rwp (Reads line) (parseredirs fuel c) (fun d v' => Good line d ∧
      ∃ rs : List Redir, v = rs.flatMap Redir.tokens ++ v' ∧ d.map Word.text = wrap rs (c.map Word.text))
      (· ≠ .fuel) v := by
  induction fuel generalizing c v with
  | zero => exact absurd hfuel (Nat.not_lt_zero _)
  | succ fuel ih =>
    rw [parseredirs]
    refine rwp_ifPeek hline (by decide) (fun h => ?_) fun _ => rwp_pure ⟨hc, [], rfl, rfl⟩
    obtain ⟨k, v₁, rfl⟩ := starts_redir.mp h
    refine rwp_bind ((rwp_gettoken hline).mono ?_)
    rintro ⟨code, w₀⟩ v' ⟨rfl, rfl, -⟩
    cases v' with
    | nil =>
      refine rwp_bind (rwp_gettoken_nil.mono ?_)
      rintro ⟨code, w⟩ v' ⟨rfl, -⟩
      exact rwp_ite (fun _ => rwp_throw nofun) fun h => absurd (show NUL ≠ 'a' by decide) h
    | cons t v₂ =>
      refine rwp_bind ((rwp_gettoken hline).mono ?_)
      rintro ⟨code, w⟩ v' ⟨rfl, rfl, hw⟩
      refine rwp_ite (fun _ => rwp_throw nofun) fun h => ?_
      obtain ⟨text, rfl⟩ := Token.code_eq_word.mp (not_not.mp h)
      obtain ⟨htext, hok⟩ := hw text rfl
      rw [redircmd_token]
      have hgood : Good line (.redir c w k.mode k.fd) := by
        intro x hx
        rcases List.mem_append.mp hx with hx | hx
        · exact hc x hx
        · rwa [List.mem_singleton.mp hx]
      simp only [List.length_cons] at hfuel
      refine (ih hgood (by omega)).mono ?_
      rintro d v'' ⟨hd, rs, rfl, hmap⟩
      refine ⟨hd, ⟨k, text⟩ :: rs, rfl, ?_⟩
      rw [hmap, wrap_cons, Cmd.map, htext]

theorem parsebacks_sound (hline : NUL ∉ line) {fuel : Nat} {c : Cmd Word} (hc : Good line c)
    (hfuel : v.length < fuel) :
    rwp (Reads line) (parsebacks fuel c) (fun d v' => Good line d ∧
      ∃ n, v = List.replicate n .amp ++ v' ∧ d.map Word.text = background n (c.map Word.text))
      (· ≠ .fuel) v := by
  induction fuel generalizing c v with
  | zero => exact absurd hfuel (Nat.not_lt_zero _)
  | succ fuel ih =>
    rw [parsebacks]
    refine rwp_ifPeek hline (by decide) (fun h => ?_) fun _ => rwp_pure ⟨hc, 0, rfl, rfl⟩
    obtain ⟨v₁, rfl⟩ := starts_amp.mp h
    refine rwp_skipToken hline ?_
    rw [List.length_cons] at hfuel
    refine (ih (c := .back c) hc (by omega)).mono ?_
    rintro d v' ⟨hd, n, rfl, hmap⟩
    exact ⟨hd, n + 1, rfl, hmap⟩

/-- What was read are the words that were added, with their redirections. -/
theorem parseargs_sound (hline : NUL ∉ line) {fuel : Nat} {c : Cmd Word} {rs : List Redir}
    (ws : List Str) (hc : Good line c) (hmap : c.map Word.text = wrap rs (.exec ws))
    (hmax : ws.length < MAXARGS) (hfuel : v.length < fuel) :
    rwp (Reads line) (parseargs fuel c ws.length) (fun d v' => Good line d ∧
      ∃ args : List Arg, v = args.flatMap Arg.tokens ++ v' ∧ ws.length + args.length < MAXARGS ∧
        d.map Word.text = wrap (rs ++ args.flatMap Arg.redirs) (.exec (ws ++ args.map Arg.text)))
      (· ≠ .fuel) v := by
  induction fuel generalizing c v rs ws with
  | zero => exact absurd hfuel (Nat.not_lt_zero _)
  | succ fuel ih =>
    have hdone : Good line c ∧ ∃ args : List Arg, v = args.flatMap Arg.tokens ++ v ∧
        ws.length + args.length < MAXARGS ∧
        c.map Word.text = wrap (rs ++ args.flatMap Arg.redirs) (.exec (ws ++ args.map Arg.text)) :=
      ⟨hc, [], rfl, hmax, by simpa using hmap⟩
    rw [parseargs]
    refine rwp_ifPeek hline (by decide) (fun _ => rwp_pure hdone) fun _ => ?_
    cases v with
    | nil =>
      refine rwp_bind (rwp_gettoken_nil.mono ?_)
      rintro ⟨code, w⟩ v' ⟨rfl, rfl⟩
      exact rwp_ite (fun _ => rwp_pure hdone) fun h => absurd rfl h
    | cons t v₁ =>
      refine rwp_bind ((rwp_gettoken hline).mono ?_)
      rintro ⟨code, w⟩ v' ⟨rfl, rfl, hw⟩
      refine rwp_ite (fun h => absurd h t.code_ne_nul) fun _ => ?_
      refine rwp_ite (fun _ => rwp_throw nofun) fun h => ?_
      obtain ⟨text, rfl⟩ := Token.code_eq_word.mp (not_not.mp h)
      refine rwp_ite (fun _ => rwp_throw nofun) fun hlt => ?_
      obtain ⟨htext, hok⟩ := hw text rfl
      rw [List.length_cons] at hfuel
      refine rwp_bind ((parseredirs_sound hline (c.words_addArg hok hc) (by omega)).mono ?_)
      rintro d v₂ ⟨hd, rs', rfl, hmap'⟩
      rw [Cmd.map_addArg, hmap, htext, wrap_addArg, ← wrap_append] at hmap'
      rw [List.length_append] at hfuel
      have hnext := ih (v := v₂) _ hd hmap' (by simpa using Nat.lt_of_not_le hlt) (by omega)
      rw [List.length_append, List.length_singleton] at hnext
      refine hnext.mono ?_
      rintro e v₃ ⟨he, args, rfl, hlen, hmap''⟩
      refine ⟨he, ⟨text, rs'⟩ :: args, ?_, ?_, ?_⟩
      · simp [Arg.tokens]
      · rw [List.length_cons]
        omega
      · simpa using hmap''

end Sound

/-- The function for a nonterminal. -/
def parse : Nonterminal → Nat → Parser (Cmd Word)
  | .line => parseline
  | .pipe => parsepipe
  | .exec => parseexec

/-- The turns that are needed when no token is left; a token needs four more. -/
def Nonterminal.turns : Nonterminal → Nat
  | .line => 4
  | .pipe => 3
  | .exec => 2

section Sound

variable {line : Str} {v : List Token}

/-- What was read derives from the nonterminal, and the command is that of the derivation. -/
def Parsed (line : Str) (S : Nonterminal) (v : List Token) (d : Cmd Word) (v' : List Token) : Prop :=
  Good line d ∧ ∃ u, v = u ++ v' ∧ Derives S u (d.map Word.text)

theorem parseblock_sound (hline : NUL ∉ line) {fuel : Nat} {v : List Token} (hfuel : 4 * v.length < fuel)
    (hblock : starts ['('] v = true)
    (hsub : ∀ f w, f < fuel → 4 * w.length + Nonterminal.line.turns ≤ f →
      rwp (Reads line) (parseline f) (Parsed line .line w) (· ≠ .fuel) w) :
    rwp (Reads line) (parseblock fuel) (Parsed line .exec v) (· ≠ .fuel) v := by
  obtain ⟨fuel, rfl⟩ : ∃ n, fuel = n + 1 := ⟨fuel - 1, by omega⟩
  obtain ⟨v₁, rfl⟩ := starts_lpar.mp hblock
  rw [List.length_cons] at hfuel
  rw [parseblock]
  refine rwp_unlessPeek hline (by decide) (fun h => by rw [hblock] at h; cases h) fun _ => ?_
  refine rwp_skipToken hline (rwp_bind ((hsub fuel v₁ (Nat.lt_succ_self _) ?_).mono ?_))
  · simp only [Nonterminal.turns]
    omega
  · rintro c v₂ ⟨hc, u, rfl, hu⟩
    refine rwp_unlessPeek hline (by decide) (fun _ => rwp_throw nofun) fun h => ?_
    obtain ⟨v₃, rfl⟩ := starts_rpar.mp h
    rw [List.length_append, List.length_cons] at hfuel
    refine rwp_skipToken hline ((parseredirs_sound hline hc (by omega)).mono ?_)
    rintro d v₄ ⟨hd, rs, rfl, hmap⟩
    refine ⟨hd, .lpar :: (u ++ .rpar :: rs.flatMap Redir.tokens), by simp, ?_⟩
    rw [hmap]
    exact .block rs hu

theorem parse_sound (hline : NUL ∉ line) (S : Nonterminal) {fuel : Nat} {v : List Token}
    (hfuel : 4 * v.length + S.turns ≤ fuel) :
    rwp (Reads line) (parse S fuel) (Parsed line S v) (· ≠ .fuel) v := by
  induction fuel using Nat.strong_induction_on generalizing S v with
  | _ fuel ih =>
    obtain ⟨fuel, rfl⟩ : ∃ n, fuel = n + 1 := ⟨fuel - 1, by cases S <;> simp [Nonterminal.turns] at hfuel <;> omega⟩
    have hsub : ∀ S w, 4 * w.length + Nonterminal.turns S ≤ fuel →
        rwp (Reads line) (parse S fuel) (Parsed line S w) (· ≠ .fuel) w :=
      fun S w hw => ih fuel (Nat.lt_succ_self _) S hw
    cases S with
    | line =>
      rw [parse, parseline]
      refine rwp_bind ((hsub .pipe v (by simp [Nonterminal.turns] at hfuel ⊢; omega)).mono ?_)
      rintro c v₁ ⟨hc, u, rfl, hu⟩
      simp only [Nonterminal.turns, List.length_append] at hfuel
      refine rwp_bind ((parsebacks_sound hline hc (by omega)).mono ?_)
      rintro d v₂ ⟨hd, n, rfl, hmap⟩
      refine rwp_ifPeek hline (by decide) (fun h => ?_) fun _ => rwp_pure ⟨hd, _, (List.append_assoc ..).symm, ?_⟩
      · obtain ⟨v₃, rfl⟩ := starts_semi.mp h
        rw [List.length_append, List.length_cons] at hfuel
        refine rwp_skipToken hline (rwp_bind ((hsub .line v₃ (by simp [Nonterminal.turns]; omega)).mono ?_))
        rintro e v₄ ⟨he, w, rfl, hw⟩
        refine rwp_pure ⟨fun x hx => ?_, u ++ (List.replicate n .amp ++ .semi :: w), by simp, ?_⟩
        · exact (List.mem_append.mp hx).elim (hd x) (he x)
        · rw [Cmd.map, hmap]
          exact .list n hu hw
      · rw [hmap]
        exact .line n hu
    | pipe =>
      rw [parse, parsepipe]
      refine rwp_bind ((hsub .exec v (by simp [Nonterminal.turns] at hfuel ⊢; omega)).mono ?_)
      rintro c v₁ ⟨hc, u, rfl, hu⟩
      simp only [Nonterminal.turns, List.length_append] at hfuel
      refine rwp_ifPeek hline (by decide) (fun h => ?_) fun _ => rwp_pure ⟨hc, u, rfl, .single hu⟩
      obtain ⟨v₂, rfl⟩ := starts_bar.mp h
      rw [List.length_cons] at hfuel
      refine rwp_skipToken hline (rwp_bind ((hsub .pipe v₂ (by simp [Nonterminal.turns]; omega)).mono ?_))
      rintro d v₃ ⟨hd, w, rfl, hw⟩
      refine rwp_pure ⟨fun x hx => ?_, u ++ .bar :: w, by simp, .pipe hu hw⟩
      exact (List.mem_append.mp hx).elim (hc x) (hd x)
    | exec =>
      simp only [Nonterminal.turns] at hfuel
      rw [parse, parseexec]
      refine rwp_ifPeek hline (by decide) (fun h => ?_) fun _ => ?_
      · exact parseblock_sound hline (by omega) h fun f w hf hw => ih f (by omega) .line hw
      · refine rwp_bind ((parseredirs_sound hline (c := .exec []) nofun (by omega)).mono ?_)
        rintro c v₁ ⟨hc, rs, rfl, hmap⟩
        rw [List.length_append] at hfuel
        refine (parseargs_sound hline [] hc hmap (by decide) (by omega)).mono ?_
        rintro d v₂ ⟨hd, args, rfl, hlen, hmap'⟩
        refine ⟨hd, _, (List.append_assoc ..).symm, ?_⟩
        rw [hmap']
        exact .exec rs args (by simpa using hlen)

end Sound

/-! ## Completeness -/

/-- The symbols that may come after what derives from a nonterminal. -/
def Nonterminal.follow : Nonterminal → Str
  | .line => [')']
  | .pipe => [')', '&', ';']
  | .exec => ['|', ')', '&', ';']

def Follows (S : Nonterminal) (rest : List Token) : Prop := rest = [] ∨ starts S.follow rest = true

theorem starts_mono {toks toks' : Str} {v : List Token} (h : starts toks v = true) (hsub : toks ⊆ toks') :
    starts toks' v = true := by
  cases v with
  | nil => cases h
  | cons t v =>
    rw [starts, Option.any_eq_true] at h ⊢
    obtain ⟨c, hc, hin⟩ := h
    exact ⟨c, hc, by simpa using hsub (by simpa using hin)⟩

theorem Follows.mono {S S' : Nonterminal} {rest : List Token} (h : Follows S rest)
    (hsub : S.follow ⊆ S'.follow) : Follows S' rest :=
  h.imp_right fun hs => starts_mono hs hsub

/-- What follows does not start with any other symbol. -/
theorem Follows.not_starts {S : Nonterminal} {rest : List Token} {toks : Str} (h : Follows S rest)
    (hdisj : toks.all (fun c => !S.follow.contains c) = true) : starts toks rest = false := by
  rcases h with rfl | h
  · rfl
  · cases rest with
    | nil => rfl
    | cons t v =>
      rw [starts, Option.any_eq_true] at h
      obtain ⟨c, hc, hin⟩ := h
      rw [starts, hc]
      have hout := fun hm => List.all_eq_true.1 hdisj c hm
      rw [hin] at hout
      simpa using hout

section Complete

variable {line : Str} {rest : List Token}

theorem parseredirs_complete (hline : NUL ∉ line) {fuel : Nat} {c : Cmd Word} (rs : List Redir)
    (hrest : starts ['<', '>'] rest = false)
    (hfuel : (rs.flatMap Redir.tokens ++ rest).length < fuel) :
    rwp (Reads line) (parseredirs fuel c)
      (fun d v' => v' = rest ∧ d.map Word.text = wrap rs (c.map Word.text)) (fun _ => False)
      (rs.flatMap Redir.tokens ++ rest) := by
  obtain ⟨fuel, rfl⟩ : ∃ n, fuel = n + 1 := ⟨fuel - 1, by omega⟩
  induction rs generalizing c fuel with
  | nil =>
    rw [parseredirs]
    refine rwp_ifPeek hline (by decide) (fun h => ?_) fun _ => rwp_pure ⟨rfl, rfl⟩
    rw [List.flatMap_nil, List.nil_append, hrest] at h
    cases h
  | cons r rs ih =>
    rw [parseredirs]
    have hcons : (r :: rs).flatMap Redir.tokens ++ rest =
        r.kind.token :: .word r.file :: (rs.flatMap Redir.tokens ++ rest) := rfl
    rw [hcons] at hfuel ⊢
    have hstart := starts_redir.mpr ⟨r.kind, .word r.file :: (rs.flatMap Redir.tokens ++ rest), rfl⟩
    refine rwp_ifPeek hline (by decide) (fun _ => ?_) fun h => by rw [hstart] at h; cases h
    refine rwp_bind ((rwp_gettoken hline).mono ?_)
    rintro ⟨code, w₀⟩ v' ⟨rfl, rfl, -⟩
    refine rwp_bind ((rwp_gettoken hline).mono ?_)
    rintro ⟨code, w⟩ v' ⟨rfl, rfl, hw⟩
    refine rwp_ite (fun h => absurd rfl h) fun _ => ?_
    rw [List.length_cons, List.length_cons] at hfuel
    obtain ⟨fuel, rfl⟩ : ∃ n, fuel = n + 1 := ⟨fuel - 1, by omega⟩
    rw [redircmd_token]
    refine (ih fuel (by omega)).mono ?_
    rintro d v'' ⟨rfl, hmap⟩
    refine ⟨rfl, ?_⟩
    rw [hmap, wrap_cons, Cmd.map, (hw _ rfl).1]

theorem parsebacks_complete (hline : NUL ∉ line) {fuel : Nat} {c : Cmd Word} (n : Nat)
    (hrest : starts ['&'] rest = false) (hfuel : n + rest.length < fuel) :
    rwp (Reads line) (parsebacks fuel c)
      (fun d v' => v' = rest ∧ d.map Word.text = background n (c.map Word.text)) (fun _ => False)
      (List.replicate n .amp ++ rest) := by
  obtain ⟨fuel, rfl⟩ : ∃ m, fuel = m + 1 := ⟨fuel - 1, by omega⟩
  induction n generalizing c fuel with
  | zero =>
    rw [parsebacks]
    refine rwp_ifPeek hline (by decide) (fun h => ?_) fun _ => rwp_pure ⟨rfl, rfl⟩
    rw [List.replicate_zero, List.nil_append, hrest] at h
    cases h
  | succ n ih =>
    rw [parsebacks]
    have hstart := starts_amp.mpr ⟨List.replicate n .amp ++ rest, rfl⟩
    refine rwp_ifPeek hline (by decide) (fun _ => ?_) fun h => by
      rw [List.replicate_succ, List.cons_append, hstart] at h
      cases h
    obtain ⟨fuel, rfl⟩ : ∃ m, fuel = m + 1 := ⟨fuel - 1, by omega⟩
    rw [List.replicate_succ, List.cons_append]
    exact rwp_skipToken hline (ih (c := .back c) fuel (by omega))

theorem args_not_redir (args : List Arg) (hrest : Follows .exec rest) :
    starts ['<', '>'] (args.flatMap Arg.tokens ++ rest) = false := by
  cases args with
  | nil => exact hrest.not_starts (by decide)
  | cons a args => rfl

theorem exec_not_lpar (rs : List Redir) (args : List Arg) (hrest : Follows .exec rest) :
    starts ['('] (rs.flatMap Redir.tokens ++ (args.flatMap Arg.tokens ++ rest)) = false := by
  cases rs with
  | nil =>
    cases args with
    | nil => exact hrest.not_starts (by decide)
    | cons a args => rfl
  | cons r rs =>
    obtain ⟨kind, file⟩ := r
    cases kind <;> rfl

theorem parseargs_complete (hline : NUL ∉ line) {fuel : Nat} {c : Cmd Word} {rs : List Redir}
    (ws : List Str) (args : List Arg) (hmap : c.map Word.text = wrap rs (.exec ws))
    (hmax : ws.length + args.length < MAXARGS) (hrest : Follows .exec rest)
    (hfuel : (args.flatMap Arg.tokens ++ rest).length < fuel) :
    rwp (Reads line) (parseargs fuel c ws.length)
      (fun d v' => v' = rest ∧
        d.map Word.text = wrap (rs ++ args.flatMap Arg.redirs) (.exec (ws ++ args.map Arg.text)))
      (fun _ => False) (args.flatMap Arg.tokens ++ rest) := by
  obtain ⟨fuel, rfl⟩ : ∃ n, fuel = n + 1 := ⟨fuel - 1, by omega⟩
  induction args generalizing c fuel rs ws with
  | nil =>
    have hdone : c.map Word.text = wrap (rs ++ []) (.exec (ws ++ [])) := by simpa using hmap
    rw [parseargs]
    refine rwp_ifPeek hline (by decide) (fun _ => rwp_pure ⟨rfl, hdone⟩) fun h => ?_
    rcases hrest with rfl | hrest
    · refine rwp_bind (rwp_gettoken_nil.mono ?_)
      rintro ⟨code, w⟩ v' ⟨rfl, rfl⟩
      exact rwp_ite (fun _ => rwp_pure ⟨rfl, hdone⟩) fun h => absurd rfl h
    · exact absurd (hrest.symm.trans h) (by decide)
  | cons a args ih =>
    rw [parseargs]
    have hcons : (a :: args).flatMap Arg.tokens ++ rest =
        .word a.text :: (a.redirs.flatMap Redir.tokens ++ (args.flatMap Arg.tokens ++ rest)) := by
      simp [Arg.tokens]
    rw [hcons] at hfuel ⊢
    rw [List.length_cons] at hfuel hmax
    refine rwp_ifPeek hline (by decide) (fun h => nomatch h) fun _ => ?_
    refine rwp_bind ((rwp_gettoken hline).mono ?_)
    rintro ⟨code, w⟩ v' ⟨rfl, rfl, hw⟩
    refine rwp_ite (fun h => absurd h (Token.word a.text).code_ne_nul) fun _ => ?_
    refine rwp_ite (fun h => absurd rfl h) fun _ => ?_
    refine rwp_ite (fun h => absurd h (by omega)) fun _ => ?_
    refine rwp_bind ((parseredirs_complete hline a.redirs (args_not_redir args hrest) (by omega)).mono ?_)
    rintro d v'' ⟨rfl, hmap'⟩
    rw [Cmd.map_addArg, hmap, (hw _ rfl).1, wrap_addArg, ← wrap_append] at hmap'
    rw [List.length_append] at hfuel
    obtain ⟨fuel, rfl⟩ : ∃ n, fuel = n + 1 := ⟨fuel - 1, by omega⟩
    have hnext := ih _ hmap' (by simp; omega) fuel (by omega)
    rw [List.length_append, List.length_singleton] at hnext
    simpa using hnext

/-- What comes after a pipe: any number of `&`, and then what comes after the line or a `;`. -/
theorem Follows.amps (n : Nat) (hrest : Follows .pipe rest) :
    Follows .pipe (List.replicate n .amp ++ rest) := by
  cases n with
  | zero => exact hrest
  | succ n => exact .inr rfl

theorem parse_complete (hline : NUL ∉ line) {S : Nonterminal} {u rest : List Token} {c : Cmd Str}
    (h : Derives S u c) (hrest : Follows S rest) {fuel : Nat}
    (hfuel : 4 * (u ++ rest).length + S.turns ≤ fuel) :
    rwp (Reads line) (parse S fuel) (fun d v' => v' = rest ∧ d.map Word.text = c) (fun _ => False)
      (u ++ rest) := by
  obtain ⟨fuel, rfl⟩ : ∃ n, fuel = n + 1 :=
    ⟨fuel - 1, by cases S <;> simp only [Nonterminal.turns] at hfuel <;> omega⟩
  induction h generalizing rest fuel with
  | @line u c n hu ih =>
    simp only [Nonterminal.turns, List.length_append, List.length_replicate] at hfuel
    rw [parse, parseline, List.append_assoc]
    obtain ⟨fuel, rfl⟩ : ∃ m, fuel = m + 1 := ⟨fuel - 1, by omega⟩
    have hamps : Follows .pipe rest := hrest.mono (by decide)
    have hpipe := ih (hamps.amps n) fuel
      (by simp only [Nonterminal.turns, List.length_append, List.length_replicate]; omega)
    refine rwp_bind (hpipe.mono ?_)
    rintro d v' ⟨rfl, hmap⟩
    refine rwp_bind ((parsebacks_complete hline n (hrest.not_starts (by decide)) (by omega)).mono ?_)
    rintro e v' ⟨rfl, hmap'⟩
    refine rwp_ifPeek hline (by decide) (fun h => ?_) fun _ => rwp_pure ⟨rfl, hmap'.trans (by rw [hmap])⟩
    rw [hrest.not_starts (by decide)] at h
    cases h
  | @list u v c d n hu hv ihu ihv =>
    simp only [Nonterminal.turns, List.length_append, List.length_replicate, List.length_cons] at hfuel
    rw [parse, parseline, List.append_assoc, List.append_assoc, List.cons_append]
    obtain ⟨fuel, rfl⟩ : ∃ m, fuel = m + 1 := ⟨fuel - 1, by omega⟩
    have hsemi : Follows .pipe (.semi :: (v ++ rest)) := .inr rfl
    have hpipe := ihu (hsemi.amps n) fuel (by
      simp only [Nonterminal.turns, List.length_append, List.length_replicate, List.length_cons]; omega)
    refine rwp_bind (hpipe.mono ?_)
    rintro e v' ⟨rfl, hmap⟩
    refine rwp_bind ((parsebacks_complete hline n rfl (by simp only [List.length_append, List.length_cons]; omega)).mono ?_)
    rintro f v' ⟨rfl, hmap'⟩
    refine rwp_ifPeek hline (by decide) (fun _ => ?_) fun h => nomatch h
    have hline' := ihv hrest fuel (by simp only [Nonterminal.turns, List.length_append]; omega)
    refine rwp_skipToken hline (rwp_bind (hline'.mono ?_))
    rintro g v' ⟨rfl, hmap''⟩
    refine rwp_pure ⟨rfl, ?_⟩
    rw [Cmd.map, hmap', hmap, hmap'']
  | @single u c hu ih =>
    simp only [Nonterminal.turns] at hfuel
    rw [parse, parsepipe]
    obtain ⟨fuel, rfl⟩ : ∃ m, fuel = m + 1 := ⟨fuel - 1, by omega⟩
    refine rwp_bind ((ih (hrest.mono (by decide)) fuel (by simp only [Nonterminal.turns]; omega)).mono ?_)
    rintro d v' ⟨rfl, hmap⟩
    refine rwp_ifPeek hline (by decide) (fun h => ?_) fun _ => rwp_pure ⟨rfl, hmap⟩
    rw [hrest.not_starts (by decide)] at h
    cases h
  | @pipe u v c d hu hv ihu ihv =>
    simp only [Nonterminal.turns, List.length_append, List.length_cons] at hfuel
    rw [parse, parsepipe, List.append_assoc, List.cons_append]
    obtain ⟨fuel, rfl⟩ : ∃ m, fuel = m + 1 := ⟨fuel - 1, by omega⟩
    have hbar : Follows .exec (.bar :: (v ++ rest)) := .inr rfl
    have hexec := ihu hbar fuel (by
      simp only [Nonterminal.turns, List.length_append, List.length_cons]; omega)
    refine rwp_bind (hexec.mono ?_)
    rintro e v' ⟨rfl, hmap⟩
    refine rwp_ifPeek hline (by decide) (fun _ => ?_) fun h => nomatch h
    have hpipe := ihv hrest fuel (by simp only [Nonterminal.turns, List.length_append]; omega)
    refine rwp_skipToken hline (rwp_bind (hpipe.mono ?_))
    rintro f v' ⟨rfl, hmap'⟩
    refine rwp_pure ⟨rfl, ?_⟩
    rw [Cmd.map, hmap, hmap']
  | @block u c rs hu ih =>
    simp only [Nonterminal.turns, List.length_append, List.length_cons] at hfuel
    rw [parse, parseexec, List.cons_append, List.append_assoc, List.cons_append]
    obtain ⟨fuel, rfl⟩ : ∃ m, fuel = m + 1 := ⟨fuel - 1, by omega⟩
    refine rwp_ifPeek hline (by decide) (fun _ => ?_) fun h => nomatch h
    rw [parseblock]
    refine rwp_unlessPeek hline (by decide) (fun h => nomatch h) fun _ => ?_
    obtain ⟨fuel, rfl⟩ : ∃ m, fuel = m + 1 := ⟨fuel - 1, by omega⟩
    have hrpar : Follows .line (.rpar :: (rs.flatMap Redir.tokens ++ rest)) := .inr rfl
    have hline' := ih hrpar fuel (by
      simp only [Nonterminal.turns, List.length_append, List.length_cons]; omega)
    refine rwp_skipToken hline (rwp_bind (hline'.mono ?_))
    rintro d v' ⟨rfl, hmap⟩
    refine rwp_unlessPeek hline (by decide) (fun h => nomatch h) fun _ => ?_
    refine rwp_skipToken hline
      ((parseredirs_complete hline rs (hrest.not_starts (by decide)) (by simp only [List.length_append]; omega)).mono ?_)
    rintro e v' ⟨rfl, hmap'⟩
    exact ⟨rfl, by rw [hmap', hmap]⟩
  | exec rs args hargs =>
    simp only [Nonterminal.turns, List.length_append] at hfuel
    rw [parse, parseexec, List.append_assoc]
    refine rwp_ifPeek hline (by decide) (fun h => ?_) fun _ => ?_
    · rw [exec_not_lpar rs args hrest] at h
      cases h
    · refine rwp_bind ((parseredirs_complete hline (c := .exec []) rs (args_not_redir args hrest)
        (by simp only [List.length_append]; omega)).mono ?_)
      rintro d v' ⟨rfl, hmap⟩
      exact parseargs_complete hline [] args hmap (by simpa using hargs) hrest (by simp only [List.length_append]; omega)

end Complete

/-! ## The whole line -/

section Whole

variable {line : Str} {v : List Token} {E : Stop → Prop}

theorem lex_eq_nil {s : Str} : lex s = [] ↔ skip s = [] := by
  refine ⟨fun h => ?_, lex_of_skip_nil⟩
  cases hs : skip s with
  | nil => rfl
  | cons c t =>
    rw [lex_of_skip_cons hs] at h
    cases h

theorem lex_length_le (s : Str) : (lex s).length ≤ s.length := by
  induction s using lex.induct with
  | case1 s h => simp [lex_of_skip_nil h]
  | case2 s c t h ih =>
    have h1 := (firstToken_suffix c t).length_le
    have h2 := (skip_suffix s).length_le
    rw [h, List.length_cons] at h2
    rw [lex_of_skip_cons h, List.length_cons]
    omega

/-- `peek(&s, es, ""); if(s != es)` -/
theorem rwp_leftovers {α : Type} {Q : α → List Token → Prop} {x y : Parser α}
    (hx : v ≠ [] → rwp (Reads line) x Q E v) (hy : v = [] → rwp (Reads line) y Q E v) :
    rwp (Reads line) (do let _ ← peek []; if (← get) ≠ [] then x else y) Q E v := by
  intro s hs
  have hskip : Reads line v (skip s) := ⟨(skip_suffix s).trans hs.suffix, (lex_skip s).trans hs.tokens⟩
  change wp (if skip s ≠ [] then x else y) _ E (skip s)
  split
  · next h => exact hx (fun hv => h (lex_eq_nil.mp (hs.tokens.trans hv))) _ hskip
  · next h => exact hy (hs.tokens.symm.trans (lex_of_skip_nil (not_not.mp h))) _ hskip

theorem parsewhole_sound (hline : NUL ∉ line) {fuel : Nat} (hfuel : 4 * v.length + 4 ≤ fuel) :
    rwp (Reads line) (parsewhole fuel)
      (fun d _ => Good line d ∧ Derives .line v (d.map Word.text)) (· ≠ .fuel) v := by
  refine rwp_bind ((parse_sound hline .line hfuel).mono ?_)
  rintro d v' ⟨hd, u, rfl, hu⟩
  refine rwp_leftovers (fun _ => rwp_throw nofun) fun h => rwp_pure ⟨hd, ?_⟩
  rwa [h, List.append_nil]

theorem parsewhole_complete (hline : NUL ∉ line) {fuel : Nat} {c : Cmd Str} (h : Derives .line v c)
    (hfuel : 4 * v.length + 4 ≤ fuel) :
    rwp (Reads line) (parsewhole fuel) (fun d _ => d.map Word.text = c) (fun _ => False) v := by
  have hparse := parse_complete hline h (.inl rfl) (by simpa [Nonterminal.turns] using hfuel)
  rw [List.append_nil] at hparse
  refine rwp_bind (hparse.mono ?_)
  rintro d v' ⟨rfl, hmap⟩
  exact rwp_leftovers (fun h => absurd rfl h) fun _ => rwp_pure hmap

end Whole

/-! ## The strings -/

section Strings

variable {line : Str}

theorem nulterminate_eq (cmd : Cmd Word) (buf : Str) :
    nulterminate cmd buf = cmd.words.foldl (fun buf w => terminate w.eq buf) buf := by
  induction cmd generalizing buf with
  | exec argv => rfl
  | redir cmd file mode fd ih => simp [nulterminate, Cmd.words, ih]
  | pipe _ _ ihl ihr | list _ _ ihl ihr => simp [nulterminate, Cmd.words, ihl, ihr]
  | back cmd ih => exact ih buf

theorem length_terminated (ws : List Word) (buf : Str) :
    (ws.foldl (fun buf w => terminate w.eq buf) buf).length = buf.length := by
  induction ws generalizing buf with
  | nil => rfl
  | cons w ws ih =>
    rw [List.foldl_cons, ih]
    exact List.length_set

/-- There is a NUL at the end of every word, and nothing else has changed. -/
theorem getElem?_terminated (ws : List Word) (buf : Str) (i : Nat) :
    (ws.foldl (fun buf w => terminate w.eq buf) buf)[i]? =
      if (∃ w ∈ ws, i = buf.length - w.eq.length) ∧ i < buf.length then some NUL else buf[i]? := by
  induction ws generalizing buf with
  | nil => simp
  | cons w ws ih =>
    have hlen : (terminate w.eq buf).length = buf.length := List.length_set
    rw [List.foldl_cons, ih, hlen, terminate, List.getElem?_set]
    simp only [List.mem_cons, exists_eq_or_imp]
    by_cases h1 : i = buf.length - w.eq.length
    · by_cases h2 : i < buf.length
      · simp [h1, h1 ▸ h2]
      · have h3 : ¬ buf.length - w.eq.length < buf.length := h1 ▸ h2
        simp [h1, h3]
    · simp [h1, Ne.symm h1]

theorem Word.Ok.suffix_eq {w : Word} (h : w.Ok line) : w.eq <:+ line :=
  (h.split ▸ List.suffix_append w.text w.eq : w.eq <:+ w.q).trans h.suffix

/-- Where the text of a word is in the line. -/
theorem Word.Ok.getElem?_line {w : Word} (h : w.Ok line) {i : Nat} (hi : i < w.text.length) :
    (line)[line.length - w.q.length + i]? = w.text[i]? := by
  have hq : w.q = line.drop (line.length - w.q.length) := List.suffix_iff_eq_drop.mp h.suffix
  rw [← List.getElem?_drop, ← hq, h.split, List.getElem?_append_left hi]

/-- No word ends within the text of another one. -/
theorem Word.Ok.no_end {w x : Word} (hw : w.Ok line) (hx : x.Ok line) {i : Nat}
    (hi : i < w.text.length) : line.length - w.q.length + i ≠ line.length - x.eq.length := by
  intro he
  have hhead := congrArg List.head? (List.suffix_iff_eq_drop.mp hx.suffix_eq)
  rw [List.head?_drop, ← he, hw.getElem?_line hi, List.getElem?_eq_getElem hi] at hhead
  have h1 := hw.text _ (List.getElem_mem hi)
  rw [hx.max _ hhead] at h1
  cases h1

/-- Every pointer of the command leads to its word. -/
theorem strAt_nulterminate (hline : NUL ∉ line) {cmd : Cmd Word} (hcmd : Good line cmd) {w : Word}
    (hw : w ∈ cmd.words) : strAt (nulterminate cmd line) w.q = w.text := by
  have hok := hcmd w hw
  have hqlen := hok.suffix.length_le
  have hsplit := congrArg List.length hok.split
  rw [List.length_append] at hsplit
  have hlen := length_terminated cmd.words line
  have hget := getElem?_terminated cmd.words line
  rw [← nulterminate_eq] at hlen hget
  generalize nulterminate cmd line = buf at hlen hget
  have hkeep : ∀ i, i < w.text.length → buf[line.length - w.q.length + i]? = w.text[i]? := by
    intro i hi
    rw [hget, if_neg, hok.getElem?_line hi]
    rintro ⟨⟨x, hx, he⟩, -⟩
    exact hok.no_end (hcmd x hx) hi he
  have hdrop : buf.drop (buf.length - w.q.length) =
      w.text ++ buf.drop (line.length - w.eq.length) := by
    refine List.ext_getElem? fun i => ?_
    rw [List.getElem?_drop, hlen]
    by_cases hi : i < w.text.length
    · rw [hkeep i hi, List.getElem?_append_left hi]
    · rw [List.getElem?_append_right (Nat.le_of_not_lt hi), List.getElem?_drop]
      congr 1
      omega
  have hend : (buf.drop (line.length - w.eq.length)).takeWhile (· != NUL) = [] := by
    have hhead : (buf.drop (line.length - w.eq.length)).head? = buf[line.length - w.eq.length]? :=
      List.head?_drop
    cases hrest : buf.drop (line.length - w.eq.length) with
    | nil => rfl
    | cons c r =>
      rw [hrest, List.head?_cons, hget] at hhead
      have hlt : line.length - w.eq.length < line.length := by
        have := congrArg List.length hrest
        rw [List.length_drop, List.length_cons, hlen] at this
        omega
      rw [if_pos ⟨⟨w, hw, rfl⟩, hlt⟩] at hhead
      rw [Option.some.inj hhead]
      rfl
  have hne : ∀ c ∈ w.text, (c != NUL) = true := by
    intro c hc
    have hmem : c ∈ line := by
      refine hok.suffix.subset ?_
      rw [hok.split]
      exact List.mem_append_left _ hc
    have hcn : c ≠ NUL := fun he => hline (he ▸ hmem)
    simpa using hcn
  rw [strAt, hdrop, List.takeWhile_append_of_pos hne, hend, List.append_nil]

end Strings

theorem nul_not_mem_lineAt (buf : Str) : NUL ∉ lineAt buf := by
  intro h
  simpa using List.mem_takeWhile_imp h

/-- The parser returns the command of the derivation of the whole line, and panics if there is none. -/
theorem parser_accepts_grammar (buf : Str) :
    (∀ tree, parsecmd buf = .ok tree ↔ Derives .line (lex (lineAt buf)) tree) ∧
    ((∃ tree, parsecmd buf = .ok tree) ∨ ∃ msg, parsecmd buf = .error (.panic msg)) := by
  have hline := nul_not_mem_lineAt buf
  unfold parsecmd
  generalize lineAt buf = line at hline ⊢
  have hreads : Reads line (lex line) line := ⟨List.suffix_refl line, rfl⟩
  have hfuel : 4 * (lex line).length + 4 ≤ 4 * line.length + 4 := by
    have := lex_length_le line
    omega
  have hsound := parsewhole_sound hline hfuel line hreads
  have hcomplete : ∀ tree, Derives .line (lex line) tree → _ := fun tree ht =>
    parsewhole_complete hline ht hfuel line hreads
  cases hrun : parsewhole (4 * line.length + 4) line with
  | error e =>
    have he := hsound.of_error hrun
    refine ⟨fun tree => ⟨nofun, fun h => ((hcomplete tree h).of_error hrun).elim⟩, .inr ?_⟩
    cases e with
    | panic msg => exact ⟨msg, rfl⟩
    | fuel => exact absurd rfl he
  | ok r =>
    obtain ⟨cmd, s⟩ := r
    obtain ⟨-, -, hgood, hder⟩ := hsound.of_ok hrun
    have hmap : (cmd.map fun w => strAt (nulterminate cmd line) w.q) = cmd.map Word.text :=
      Cmd.map_congr fun w hw => strAt_nulterminate hline hgood hw
    dsimp only
    rw [hmap]
    refine ⟨fun tree => ⟨fun h => ?_, fun h => ?_⟩, .inl ⟨_, rfl⟩⟩
    · cases h
      exact hder
    · obtain ⟨-, -, htree⟩ := (hcomplete tree h).of_ok hrun
      rw [htree]

end Xv6.Shell
