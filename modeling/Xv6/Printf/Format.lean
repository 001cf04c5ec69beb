import Xv6.Lib.Numeral

set_option autoImplicit false

/-! # Formats

What `printf` of the kernel and `vprintf` of the user library are for: a format is text with
conversions in it, and each conversion stands for one argument. The two implementations scan the
format in different ways and differ in how they widen or narrow an argument; here a format is parsed
into pieces and a conversion shows the number that its argument is. -/

namespace Xv6.Printf

open Numeral

/-! ## Strings, arguments and output -/

/-- The bytes of a C string before the `\0` that ends it. -/
abbrev CString : Type := { l : List UInt8 // 0 ∉ l }

/-- The bytes of a string literal. -/
def ascii (s : String) : List UInt8 := s.toList.map Char.toUInt8

/-- `p[i]`, for the bytes of a string from `p` on. -/
def byte (p : List UInt8) (i : Nat) : UInt8 := p.getD i 0

theorem ne_nil_of_byte {p : List UInt8} (h : ¬ byte p 0 = 0) : p ≠ [] := by
  rintro rfl
  exact h rfl

/-- The arguments: the 64-bit slots that `va_arg` walks through, and the strings that addresses
among them point to. -/
structure Args where
  slot : Nat → UInt64
  str : UInt64 → CString

/-- Arguments none of which points to a string. -/
def words (l : List UInt64) : Args := ⟨fun i => l.getD i 0, fun _ => ⟨[], List.not_mem_nil⟩⟩

structure State where
  /-- The bytes printed. -/
  out : List UInt8
  /-- The slot that the next `va_arg` takes. -/
  ap : Nat
  deriving DecidableEq

/-- A store to an element of `buf` that it does not have. -/
structure Overrun where
  i : Nat
  deriving DecidableEq

abbrev PrintM : Type → Type := StateT State (Except Overrun)

/-- `va_arg(ap, int)` -/
def vaInt (a : Args) : PrintM Int32 := do
  let s ← get
  set { s with ap := s.ap + 1 }
  return (a.slot s.ap).toUInt32.toInt32

/-- `va_arg(ap, uint64)` -/
def vaUInt64 (a : Args) : PrintM UInt64 := do
  let s ← get
  set { s with ap := s.ap + 1 }
  return a.slot s.ap

def null : List UInt8 := ascii "(null)"

/-! ## Conversions -/

inductive Length
  | int
  | long
  | longLong
  deriving DecidableEq

inductive Kind
  | d
  | u
  | x
  deriving DecidableEq

/-- The conversions: of a number of either width, of a pointer and of a string. -/
inductive Conv
  | num (len : Length) (kind : Kind)
  | p
  | s
  deriving DecidableEq

def Length.spelling : Length → List UInt8
  | .int => []
  | .long => ['l'.toUInt8]
  | .longLong => ['l'.toUInt8, 'l'.toUInt8]

def Kind.letter : Kind → UInt8
  | .d => 'd'.toUInt8
  | .u => 'u'.toUInt8
  | .x => 'x'.toUInt8

def Kind.base : Kind → Nat
  | .d => 10
  | .u => 10
  | .x => 16

theorem Kind.one_lt_base (kind : Kind) : 1 < kind.base := by
  cases kind <;> decide

def Kind.signed : Kind → Bool
  | .d => true
  | .u => false
  | .x => false

/-- What follows the `%`. -/
def Conv.spelling : Conv → List UInt8
  | .num len kind => len.spelling ++ [kind.letter]
  | .p => ['p'.toUInt8]
  | .s => ['s'.toUInt8]

theorem Conv.length_spelling_pos (q : Conv) : 0 < q.spelling.length := by
  cases q with
  | num len kind => simp [Conv.spelling]
  | p | s => exact Nat.one_pos

def conversions : List Conv :=
  [.num .int .d, .num .long .d, .num .longLong .d, .num .int .u, .num .long .u, .num .longLong .u,
    .num .int .x, .num .long .x, .num .longLong .x, .p, .s]

/-- The number that a slot holds for a conversion of a 32-bit or of a 64-bit number. -/
def Conv.value : Length → Kind → UInt64 → Int
  | .int, .d, w => w.toUInt32.toInt32.toInt
  | .int, _, w => w.toUInt32.toNat
  | _, .d, w => w.toInt64.toInt
  | _, _, w => w.toNat

/-- The entry of the table `digits` for a digit. -/
def digit (digits : List UInt8) (d : Nat) : UInt8 := digits.getD d 0

/-- A number in base `b`, with a minus sign if it is negative. -/
def integer (digits : List UInt8) (b : Nat) (v : Int) : List UInt8 :=
  (if v < 0 then ['-'.toUInt8] else []) ++ (numeral b v.natAbs).map (digit digits)

/-- A 64-bit number as `0x` and its 16 hexadecimal digits. -/
def pointer (digits : List UInt8) (w : UInt64) : List UInt8 :=
  '0'.toUInt8 :: 'x'.toUInt8 :: (padded 16 16 w.toNat).map (digit digits)

/-- What a conversion shows of its argument. -/
def Conv.shown (digits : List UInt8) (a : Args) : Conv → UInt64 → List UInt8
  | .num len kind, w => integer digits kind.base (Conv.value len kind w)
  | .p, w => pointer digits w
  | .s, w => if w = 0 then null else (a.str w).1

/-! ## Pieces of a format -/

inductive Piece
  /-- A byte that is printed as it is. -/
  | lit (c : UInt8)
  | conv (q : Conv)
  /-- `%%` -/
  | percent
  /-- A `%` that no conversion follows. -/
  | unknown (c : UInt8)
  deriving DecidableEq

/-- The conversion at the start of what follows a `%`. -/
def leading (r : List UInt8) : Option Conv := conversions.find? fun q => q.spelling.isPrefixOf r

/-- The pieces of a format. A `%` at its end stands for nothing. -/
def parse : List UInt8 → List Piece
  | [] => []
  | c :: r =>
    if c = '%'.toUInt8 then
      match leading r with
      | some q => .conv q :: parse (r.drop q.spelling.length)
      | none =>
        match r with
        | [] => []
        | c :: r => (if c = '%'.toUInt8 then .percent else .unknown c) :: parse r
    else .lit c :: parse r
termination_by l => l.length
decreasing_by all_goals simp only [List.length_drop, List.length_cons]; omega

@[simp] theorem parse_nil : parse [] = [] := by
  rw [parse]

theorem parse_lit {c : UInt8} (hc : c ≠ '%'.toUInt8) (r : List UInt8) :
    parse (c :: r) = .lit c :: parse r := by
  rw [parse.eq_def]
  exact if_neg hc

theorem parse_end : parse ['%'.toUInt8] = [] := by
  rw [parse.eq_def]
  rfl

theorem parse_conv {r : List UInt8} {q : Conv} (h : leading r = some q) :
    parse ('%'.toUInt8 :: r) = .conv q :: parse (r.drop q.spelling.length) := by
  rw [parse.eq_def]
  simp only [h, if_true]

theorem parse_other {c : UInt8} {r : List UInt8} (h : leading (c :: r) = none) :
    parse ('%'.toUInt8 :: c :: r) =
      (if c = '%'.toUInt8 then .percent else .unknown c) :: parse r := by
  rw [parse.eq_def]
  simp only [h, if_true]

/-- Induction over the pieces of a string. -/
@[elab_as_elim]
theorem format_induction {P : List UInt8 → Prop} (nil : P [])
    (lit : ∀ c r, c ≠ 0 → c ≠ '%'.toUInt8 → P r → P (c :: r)) (last : P ['%'.toUInt8])
    (conv : ∀ c r q, c ≠ 0 → leading (c :: r) = some q → P ((c :: r).drop q.spelling.length) →
      P ('%'.toUInt8 :: c :: r))
    (other : ∀ c r, c ≠ 0 → leading (c :: r) = none → P r → P ('%'.toUInt8 :: c :: r))
    (l : List UInt8) (h0 : 0 ∉ l) : P l := by
  induction hn : l.length using Nat.strong_induction_on generalizing l with
  | _ n ih =>
  cases l with
  | nil => exact nil
  | cons c r =>
    rw [List.mem_cons, not_or] at h0
    rw [List.length_cons] at hn
    by_cases hc : c = '%'.toUInt8
    · subst hc
      cases r with
      | nil => exact last
      | cons c r =>
        obtain ⟨-, h0⟩ := h0
        rw [List.length_cons] at hn
        have hc0 : c ≠ 0 := fun he => h0 (he ▸ List.mem_cons_self)
        cases hq : leading (c :: r) with
        | none =>
          exact other c r hc0 hq (ih r.length (by omega) r (fun hm => h0 (.tail c hm)) rfl)
        | some q =>
          have hlt : ((c :: r).drop q.spelling.length).length < n := by
            rw [List.length_drop, List.length_cons]
            omega
          exact conv c r q hc0 hq (ih _ hlt _ (fun hm => h0 (List.mem_of_mem_drop hm)) rfl)
    · exact lit c r (Ne.symm h0.1) hc (ih r.length (by omega) r h0.2 rfl)

/-- What a piece shows; `w` is the next argument. -/
def Piece.shown (digits : List UInt8) (a : Args) (w : UInt64) : Piece → List UInt8
  | .lit c => [c]
  | .conv q => q.shown digits a w
  | .percent => ['%'.toUInt8]
  | .unknown c => ['%'.toUInt8, c]

/-- The slot of the argument after a piece. -/
def Piece.next (k : Nat) : Piece → Nat
  | .conv _ => k + 1
  | _ => k

/-- What the pieces show; the next argument is that of the slot `k`. -/
def text (digits : List UInt8) (a : Args) : List Piece → Nat → List UInt8
  | [], _ => []
  | p :: ps, k => p.shown digits a (a.slot k) ++ text digits a ps (p.next k)

/-- The conversions among the pieces, in their order. -/
def convs : List Piece → List Conv
  | [] => []
  | .conv q :: ps => q :: convs ps
  | _ :: ps => convs ps

/-- Every number among the arguments of the conversions is in `fits`; the first argument is that of
the slot `k`. -/
def AllFit (fits : Length → Kind → UInt64 → Prop) (a : Args) (k : Nat) (qs : List Conv) : Prop :=
  ∀ i len kind, qs[i]? = some (.num len kind) → fits len kind (a.slot (k + i))

theorem allFit_cons {fits : Length → Kind → UInt64 → Prop} {a : Args} {k : Nat} {q : Conv}
    {qs : List Conv} : AllFit fits a k (q :: qs) ↔
      (∀ len kind, q = .num len kind → fits len kind (a.slot k)) ∧ AllFit fits a (k + 1) qs := by
  constructor
  · intro h
    refine ⟨fun len kind hq => h 0 len kind (congrArg some hq), fun i len kind hi => ?_⟩
    have hfit := h (i + 1) len kind hi
    rwa [show k + (i + 1) = k + 1 + i by omega] at hfit
  · rintro ⟨hq, hqs⟩ i len kind hi
    rcases i with - | i
    · exact hq len kind (Option.some.inj hi)
    · rw [show k + (i + 1) = k + 1 + i by omega]
      exact hqs i len kind hi

/-! ## Scanning a conversion -/

/-- The conversion of three characters after a `%`, by the tests that both implementations make. -/
def select (c0 c1 c2 : UInt8) : Option Conv :=
  if c0 = 'd'.toUInt8 then some (.num .int .d)
  else if c0 = 'l'.toUInt8 ∧ c1 = 'd'.toUInt8 then some (.num .long .d)
  else if c0 = 'l'.toUInt8 ∧ c1 = 'l'.toUInt8 ∧ c2 = 'd'.toUInt8 then some (.num .longLong .d)
  else if c0 = 'u'.toUInt8 then some (.num .int .u)
  else if c0 = 'l'.toUInt8 ∧ c1 = 'u'.toUInt8 then some (.num .long .u)
  else if c0 = 'l'.toUInt8 ∧ c1 = 'l'.toUInt8 ∧ c2 = 'u'.toUInt8 then some (.num .longLong .u)
  else if c0 = 'x'.toUInt8 then some (.num .int .x)
  else if c0 = 'l'.toUInt8 ∧ c1 = 'x'.toUInt8 then some (.num .long .x)
  else if c0 = 'l'.toUInt8 ∧ c1 = 'l'.toUInt8 ∧ c2 = 'x'.toUInt8 then some (.num .longLong .x)
  else if c0 = 'p'.toUInt8 then some .p
  else if c0 = 's'.toUInt8 then some .s
  else none

theorem elim_ite {α : Type} {c : Prop} [Decidable c] (q : Conv) (o : Option Conv) (x : α)
    (f : Conv → α) : (if c then some q else o).elim x f = if c then f q else o.elim x f := by
  split <;> rfl

/-- The third character counts only after a second one. -/
theorem select_guard (c0 c1 c2 : UInt8) : select c0 c1 (if c1 ≠ 0 then c2 else 0) = select c0 c1 c2 := by
  by_cases h : c1 = 0
  · have hl : ¬ (0 : UInt8) = 'l'.toUInt8 := by decide
    simp only [select, h, hl, false_and, and_false]
  · rw [if_pos h]

theorem isPrefixOf_cons_iff {c : UInt8} (hc : c ≠ 0) (l r : List UInt8) :
    (c :: l).isPrefixOf r = true ↔ byte r 0 = c ∧ l.isPrefixOf (r.drop 1) = true := by
  cases r with
  | nil =>
    have h0 : byte [] 0 ≠ c := hc.symm
    simp [h0]
  | cons d r =>
    have h0 : byte (d :: r) 0 = d := rfl
    rw [h0, List.drop_succ_cons, List.drop_zero, List.isPrefixOf_cons_cons, Bool.and_eq_true,
      beq_iff_eq, eq_comm]

theorem find?_cons_ite (q : Conv) (l : List Conv) (f : Conv → Bool) :
    (q :: l).find? f = if f q = true then some q else l.find? f := by
  rw [List.find?_cons]
  cases f q <;> rfl

/-- The tests find the conversion that follows. -/
theorem leading_cons (c0 : UInt8) (r : List UInt8) :
    leading (c0 :: r) = select c0 (byte r 0) (byte r 1) := by
  have hd : 'd'.toUInt8 ≠ 0 := by decide
  have hl : 'l'.toUInt8 ≠ 0 := by decide
  have hu : 'u'.toUInt8 ≠ 0 := by decide
  have hx : 'x'.toUInt8 ≠ 0 := by decide
  have hp : 'p'.toUInt8 ≠ 0 := by decide
  have hs : 's'.toUInt8 ≠ 0 := by decide
  have h0 : byte (c0 :: r) 0 = c0 := rfl
  have h1 : byte (r.drop 1) 0 = byte r 1 := by
    unfold byte
    rw [List.getD_eq_getElem?_getD, List.getElem?_drop, List.getD_eq_getElem?_getD]
  simp only [leading, conversions, select, find?_cons_ite, List.find?_nil, Conv.spelling,
    Length.spelling, Kind.letter, List.nil_append, List.cons_append, isPrefixOf_cons_iff hd,
    isPrefixOf_cons_iff hl, isPrefixOf_cons_iff hu, isPrefixOf_cons_iff hx, isPrefixOf_cons_iff hp,
    isPrefixOf_cons_iff hs, List.isPrefixOf_nil_left, and_true, List.drop_succ_cons, List.drop_zero,
    h0, h1]

end Xv6.Printf
