import Mathlib.Computability.Language

set_option autoImplicit false

/-! # The pattern matcher of `grep`

`match` (here `matchText`), `matchhere` and `matchstar` of `user/grep.c`, on strings without the NUL that ends them: what
the code sees as `'\0'` is the end of the list. A pattern is read as a list of items (`Pattern`), and an
item as a language; the matcher finds a part of the text that is in the product of these languages. -/

namespace Xv6.Grep

/-! ## The matcher -/

/-- `c*re` at the beginning of a text, where `here` is `matchhere` of `re`. -/
def matchstar (here : List Char → Bool) (c : Char) : List Char → Bool
  | [] => here []
  | t :: text => here (t :: text) || ((t = c || c = '.') && matchstar here c text)

/-- The end of `matchhere`: one character, and then `here`. -/
def matchone (here : List Char → Bool) (c : Char) : List Char → Bool
  | [] => false
  | t :: text => (c = '.' || c = t) && here text

/-- `re` at the beginning of a text. -/
def matchhere : List Char → List Char → Bool
  | [], _ => true
  | [c], text => if c = '$' then text.isEmpty else matchone (fun _ => true) c text
  | c :: d :: re, text =>
    if d = '*' then matchstar (matchhere re) c text else matchone (matchhere (d :: re)) c text

/-- The loop of `match`: the text and what follows its first characters, one after the other. -/
def matchLoop (re : List Char) : List Char → Bool
  | [] => matchhere re []
  | t :: text => matchhere re (t :: text) || matchLoop re text

def matchText (re text : List Char) : Bool :=
  match re with
  | '^' :: re => matchhere re text
  | re => matchLoop re text

/-! ## The pattern language -/

/-- A character, or any number of occurrences of it. -/
structure Item where
  c : Char
  star : Bool

structure Pattern where
  caret : Bool
  items : List Item
  dollar : Bool

/-- A star belongs to the character before it; a `$` at the end that has no star is no item. -/
def parseItems : List Char → List Item × Bool
  | [] => ([], false)
  | [c] => if c = '$' then ([], true) else ([⟨c, false⟩], false)
  | c :: d :: re =>
    if d = '*' then (⟨c, true⟩ :: (parseItems re).1, (parseItems re).2)
    else (⟨c, false⟩ :: (parseItems (d :: re)).1, (parseItems (d :: re)).2)

def parse : List Char → Pattern
  | '^' :: re => ⟨true, (parseItems re).1, (parseItems re).2⟩
  | re => ⟨false, (parseItems re).1, (parseItems re).2⟩

/-- One character; a dot stands for any. -/
def atom (c : Char) : Language Char := {w | ∃ t, w = [t] ∧ (c = '.' ∨ c = t)}

open Computability in
def Item.lang (i : Item) : Language Char := if i.star then (atom i.c)∗ else atom i.c

/-- The items one after the other. -/
def langOf (items : List Item) : Language Char := (items.map Item.lang).prod

/-- A part of the text is in the language: at the beginning, at the end or anywhere. -/
def Pattern.Matches (p : Pattern) (text : List Char) : Prop :=
  ∃ pre mid post, text = pre ++ mid ++ post ∧ mid ∈ langOf p.items ∧ (p.caret = true → pre = []) ∧
    (p.dollar = true → post = [])

/-! ## A language at the beginning of a text -/

/-- The text begins with a word of `l`, or is one. -/
def Begins (l : Language Char) (whole : Bool) (text : List Char) : Prop :=
  ∃ mid post, text = mid ++ post ∧ mid ∈ l ∧ (whole = true → post = [])

section Begins

open Computability

variable {l l' : Language Char} {whole : Bool} {text : List Char} {c : Char}

theorem begins_one : Begins 1 whole text ↔ (whole = true → text = []) := by
  constructor
  · rintro ⟨mid, post, rfl, hmid, hwhole⟩
    rw [Language.mem_one] at hmid
    rw [hmid, List.nil_append]
    exact hwhole
  · intro h
    exact ⟨[], text, rfl, (Language.mem_one []).2 rfl, h⟩

theorem begins_add : Begins (l + l') whole text ↔ Begins l whole text ∨ Begins l' whole text := by
  constructor
  · rintro ⟨mid, post, htext, hmid | hmid, hwhole⟩
    · exact Or.inl ⟨mid, post, htext, hmid, hwhole⟩
    · exact Or.inr ⟨mid, post, htext, hmid, hwhole⟩
  · rintro (⟨mid, post, htext, hmid, hwhole⟩ | ⟨mid, post, htext, hmid, hwhole⟩)
    · exact ⟨mid, post, htext, Or.inl hmid, hwhole⟩
    · exact ⟨mid, post, htext, Or.inr hmid, hwhole⟩

theorem begins_atom_mul : Begins (atom c * l) whole text ↔
    ∃ t rest, text = t :: rest ∧ (c = '.' ∨ c = t) ∧ Begins l whole rest := by
  constructor
  · rintro ⟨mid, post, rfl, hmid, hwhole⟩
    obtain ⟨_, ⟨t, rfl, ht⟩, w, hw, rfl⟩ := Language.mem_mul.1 hmid
    exact ⟨t, w ++ post, by simp, ht, w, post, rfl, hw, hwhole⟩
  · rintro ⟨t, rest, rfl, ht, mid, post, rfl, hmid, hwhole⟩
    exact ⟨[t] ++ mid, post, by simp, Language.append_mem_mul ⟨t, rfl, ht⟩ hmid, hwhole⟩

theorem matchone_iff {here : List Char → Bool}
    (hhere : ∀ text, here text = true ↔ Begins l whole text) (c : Char) (text : List Char) :
    matchone here c text = true ↔ Begins (atom c * l) whole text := by
  rw [begins_atom_mul]
  cases text with
  | nil =>
    constructor
    · intro h
      cases h
    · rintro ⟨t, rest, h, -⟩
      cases h
  | cons t rest =>
    rw [matchone, Bool.and_eq_true, Bool.or_eq_true, decide_eq_true_iff, decide_eq_true_iff, hhere]
    constructor
    · rintro ⟨ht, h⟩
      exact ⟨t, rest, rfl, ht, h⟩
    · rintro ⟨_, _, htext, ht, h⟩
      cases htext
      exact ⟨ht, h⟩

/-- No occurrence, or one and then more. -/
theorem begins_star_mul : Begins ((atom c)∗ * l) whole text ↔
    Begins l whole text ∨ ∃ t rest, text = t :: rest ∧ (c = '.' ∨ c = t) ∧
      Begins ((atom c)∗ * l) whole rest := by
  rw [← begins_atom_mul, ← begins_add]
  have hstar : (atom c)∗ * l = l + atom c * ((atom c)∗ * l) := by
    conv_lhs => rw [← Language.one_add_self_mul_kstar_eq_kstar]
    rw [add_mul, one_mul, mul_assoc]
  rw [← hstar]

theorem matchstar_iff {here : List Char → Bool}
    (hhere : ∀ text, here text = true ↔ Begins l whole text) (c : Char) (text : List Char) :
    matchstar here c text = true ↔ Begins ((atom c)∗ * l) whole text := by
  induction text with
  | nil =>
    rw [matchstar, hhere, begins_star_mul]
    constructor
    · exact Or.inl
    · rintro (h | ⟨t, rest, h, -⟩)
      · exact h
      · cases h
  | cons t text ih =>
    rw [begins_star_mul, matchstar, Bool.or_eq_true, Bool.and_eq_true, hhere, ih, Bool.or_eq_true,
      decide_eq_true_iff, decide_eq_true_iff]
    constructor
    · rintro (h | ⟨ht, h⟩)
      · exact Or.inl h
      · exact Or.inr ⟨t, text, rfl, ht.symm.imp_right Eq.symm, h⟩
    · rintro (h | ⟨_, _, htext, ht, h⟩)
      · exact Or.inl h
      · cases htext
        exact Or.inr ⟨ht.symm.imp_left Eq.symm, h⟩

theorem langOf_nil : langOf [] = 1 := rfl

theorem langOf_cons (i : Item) (items : List Item) : langOf (i :: items) = i.lang * langOf items :=
  List.prod_cons

/-- The induction follows the way a pattern is read. -/
theorem matchhere_iff (re text : List Char) :
    matchhere re text = true ↔ Begins (langOf (parseItems re).1) (parseItems re).2 text := by
  induction re using parseItems.induct generalizing text with
  | case1 =>
    rw [parseItems, langOf_nil, begins_one, matchhere]
    simp
  | case2 =>
    simp only [parseItems, matchhere, if_true, langOf_nil, begins_one, List.isEmpty_iff,
      true_implies]
  | case3 c hc =>
    rw [parseItems, if_neg hc, langOf_cons, langOf_nil, matchhere, if_neg hc]
    exact matchone_iff (fun _ => by simp [begins_one]) c text
  | case4 c re ih =>
    rw [parseItems, if_pos rfl, langOf_cons, matchhere, if_pos rfl]
    exact matchstar_iff ih c text
  | case5 c d re hd ih =>
    rw [parseItems, if_neg hd, langOf_cons, matchhere, if_neg hd]
    exact matchone_iff ih c text

theorem matchLoop_iff (re text : List Char) : matchLoop re text = true ↔
    ∃ pre suf, text = pre ++ suf ∧ Begins (langOf (parseItems re).1) (parseItems re).2 suf := by
  induction text with
  | nil =>
    rw [matchLoop, matchhere_iff]
    constructor
    · intro h
      exact ⟨[], [], rfl, h⟩
    · rintro ⟨pre, suf, htext, h⟩
      rwa [(List.append_eq_nil_iff.1 htext.symm).2] at h
  | cons t text ih =>
    rw [matchLoop, Bool.or_eq_true, matchhere_iff, ih]
    constructor
    · rintro (h | ⟨pre, suf, rfl, h⟩)
      · exact ⟨[], t :: text, rfl, h⟩
      · exact ⟨t :: pre, suf, rfl, h⟩
    · rintro ⟨pre, suf, htext, h⟩
      rcases pre with - | ⟨u, pre⟩
      · rw [List.nil_append] at htext
        exact Or.inl (htext ▸ h)
      · exact Or.inr ⟨pre, suf, (List.cons.inj htext).2, h⟩

end Begins

/-- The matcher finds out whether the pattern matches, for every pattern and every text. -/
theorem matchText_iff_matches (re text : List Char) :
    matchText re text = true ↔ (parse re).Matches text := by
  unfold matchText parse Pattern.Matches
  split
  · next re =>
      rw [matchhere_iff]
      constructor
      · rintro ⟨mid, post, htext, hmid, hwhole⟩
        exact ⟨[], mid, post, htext, hmid, fun _ => rfl, hwhole⟩
      · rintro ⟨pre, mid, post, htext, hmid, hpre, hwhole⟩
        rw [hpre rfl, List.nil_append] at htext
        exact ⟨mid, post, htext, hmid, hwhole⟩
  · rw [matchLoop_iff]
    constructor
    · rintro ⟨pre, suf, rfl, mid, post, rfl, hmid, hwhole⟩
      exact ⟨pre, mid, post, (List.append_assoc ..).symm, hmid, (fun h => by cases h), hwhole⟩
    · rintro ⟨pre, mid, post, htext, hmid, -, hwhole⟩
      exact ⟨pre, mid ++ post, by rw [htext, List.append_assoc], mid, post, rfl, hmid, hwhole⟩

example : matchText "a*b.$".toList "xaaabc".toList = true := by decide

example : matchText "^*c$d".toList "*c$de".toList = true ∧ matchText "$*".toList [] = true := by decide

end Xv6.Grep
