import Xv6.Printf.Format

set_option autoImplicit false

/-! # Printing digits

The loops that `printint` and `printptr` of the kernel and of the user library have in common. The
digits of a number come out the least significant first and are kept in `buf` until they are all
known; `buf` has 16 elements, and a store beyond them ends the run with `Overrun`. -/

namespace Xv6.Printf

open Numeral

/-! ## The source -/

/-- `sizeof buf` -/
def BUF : Nat := 16

/-- `buf[i++] = c` -/
def push (buf : List UInt8) (c : UInt8) : Except Overrun (List UInt8) :=
  if buf.length < BUF then .ok (buf ++ [c]) else .error ⟨buf.length⟩

/-- `do { buf[i++] = digits[x % base]; } while((x /= base) != 0);`, with `room` elements of `buf`
left. -/
def digitLoop (digits : List UInt8) (base : Nat) :
    Nat → Nat → List UInt8 → Except Overrun (List UInt8)
  | 0, _, buf => .error ⟨buf.length⟩
  | room + 1, x, buf =>
    let buf := buf ++ [digit digits (x % base)]
    let x := x / base
    if x ≠ 0 then digitLoop digits base room x buf else .ok buf

/-- The digits of `x` and, if `neg`, a minus sign, in `buf`. -/
def fill (digits : List UInt8) (base x : Nat) (neg : Bool) : Except Overrun (List UInt8) := do
  let buf ← digitLoop digits base BUF x []
  if neg then push buf '-'.toUInt8 else return buf

/-- `while(--i >= 0) put(buf[i]);` -/
def unload (put : UInt8 → PrintM Unit) (buf : List UInt8) : PrintM Unit := buf.reverse.forM put

/-- `for(…; i < 16; i++, x <<= 4) put(digits[x >> 60]);`, with `left` turns to go. -/
def nibbles (put : UInt8 → PrintM Unit) (digits : List UInt8) : Nat → UInt64 → PrintM Unit
  | 0, _ => pure ()
  | left + 1, x => do
    put (digit digits (x >>> 60).toNat)
    nibbles put digits left (x <<< 4)

/-- `printint` with a parameter `xx` of `m` bits. `-xx` is taken to wrap, as the machine's
subtraction does. -/
def printNumber (put : UInt8 → PrintM Unit) (digits : List UInt8) {m : Nat} (xx : BitVec m)
    (base : Nat) (sign : Bool) : PrintM Unit := do
  let neg := sign && decide (xx.toInt < 0)
  let x := if neg then -xx else xx
  let buf ← liftM (fill digits base x.toNat neg)
  unload put buf

/-- `printptr` -/
def printPointer (put : UInt8 → PrintM Unit) (digits : List UInt8) (x : UInt64) : PrintM Unit := do
  put '0'.toUInt8
  put 'x'.toUInt8
  nibbles put digits 16 x

/-! ## What is printed -/

/-- What is printed by one program and then by another; a store beyond `buf` ends the run. -/
def joined (r r' : Except Overrun (List UInt8)) : Except Overrun (List UInt8) :=
  r.bind fun l => r'.map (l ++ ·)

/-- The program prints `r`, takes `k` arguments and returns `v`. -/
def Emits {α : Type} (x : PrintM α) (s : State) (r : Except Overrun (List UInt8)) (k : Nat) (v : α) :
    Prop :=
  x s = r.map fun l => (v, ⟨s.out ++ l, s.ap + k⟩)

variable {α β : Type} {x : PrintM α} {s : State} {r r' : Except Overrun (List UInt8)} {j k : Nat}
  {v : α} {w : β}

theorem joined_joined (l l' : List UInt8) :
    joined (.ok l) (joined (.ok l') r) = joined (.ok (l ++ l')) r := by
  cases r with
  | error e => rfl
  | ok l'' => exact congrArg Except.ok (List.append_assoc l l' l'').symm

theorem joined_ok_nil : joined r (.ok []) = r := by
  cases r with
  | error e => rfl
  | ok l => exact congrArg Except.ok (List.append_nil l)

theorem joined_eq_ok {l : List UInt8} (h : joined r r' = .ok l) :
    ∃ l₁ l₂, r = .ok l₁ ∧ r' = .ok l₂ ∧ l = l₁ ++ l₂ := by
  cases r with
  | error e => cases h
  | ok l₁ =>
    cases r' with
    | error e => cases h
    | ok l₂ => exact ⟨l₁, l₂, rfl, rfl, (Except.ok.inj h).symm⟩

theorem Emits.pure : Emits (pure v) s (.ok []) 0 v := by
  unfold Emits
  rw [Except.map, List.append_nil]
  rfl

theorem Emits.bind {f : α → PrintM β} (hx : Emits x s r j v)
    (hf : ∀ l, Emits (f v) ⟨s.out ++ l, s.ap + j⟩ r' k w) :
    Emits (x >>= f) s (joined r r') (k + j) w := by
  unfold Emits at hx hf ⊢
  change Except.bind (x s) _ = _
  rw [hx]
  cases r with
  | error e => rfl
  | ok l =>
    change f v ⟨s.out ++ l, s.ap + j⟩ = _
    rw [hf, Nat.add_comm k j, Nat.add_assoc]
    cases r' with
    | error e => rfl
    | ok l' =>
      change Except.ok (w, State.mk (s.out ++ l ++ l') _) = .ok (w, ⟨s.out ++ (l ++ l'), _⟩)
      rw [List.append_assoc]

theorem Emits.seq {x : PrintM Unit} {y : PrintM β} (hx : Emits x s r j ())
    (hy : ∀ l, Emits y ⟨s.out ++ l, s.ap + j⟩ r' k w) : Emits (do x; y) s (joined r r') (k + j) w :=
  hx.bind hy

theorem Emits.eq_ok_iff (h : Emits x s r k v) {l : List UInt8} :
    x s = .ok (v, ⟨s.out ++ l, s.ap + k⟩) ↔ r = .ok l := by
  rw [h]
  cases r with
  | error e => exact iff_of_false (by rintro ⟨⟩) (by rintro ⟨⟩)
  | ok l' => simp [Except.map]

/-- A program that takes an `int` first. -/
theorem emits_vaInt {a : Args} {f : Int32 → PrintM β}
    (h : Emits (f (a.slot s.ap).toUInt32.toInt32) ⟨s.out, s.ap + 1⟩ r 0 w) :
    Emits (do f (← vaInt a)) s r 1 w := h

theorem emits_vaUInt64 {a : Args} {f : UInt64 → PrintM β}
    (h : Emits (f (a.slot s.ap)) ⟨s.out, s.ap + 1⟩ r 0 w) : Emits (do f (← vaUInt64 a)) s r 1 w := h

/-- Printing byte after byte. -/
theorem emits_forM {put : UInt8 → PrintM Unit} (hput : ∀ c s, Emits (put c) s (.ok [c]) 0 ())
    (l : List UInt8) (s : State) : Emits (l.forM put) s (.ok l) 0 () := by
  induction l generalizing s with
  | nil => exact Emits.pure
  | cons c l ih => exact (hput c s).seq fun _ => ih _

/-! ## The digits -/

theorem digitLoop_eq {digits : List UInt8} {base : Nat} (hb : 1 < base) (room n : Nat)
    (buf : List UInt8) :
    digitLoop digits base room n buf =
      if (numeral base n).length ≤ room then
        .ok (buf ++ ((numeral base n).map (digit digits)).reverse)
      else .error ⟨buf.length + room⟩ := by
  induction room generalizing n buf with
  | zero =>
    have hpos := length_numeral_pos base n
    rw [if_neg (by omega)]
    rfl
  | succ room ih =>
    rw [digitLoop]
    by_cases hq : n / base = 0
    · rw [numeral_of_div_eq_zero hb hq, if_neg (not_not.mpr hq), if_pos (by simp)]
      rfl
    · -- the numeral of the quotient has one digit less
      rw [if_pos hq, ih, numeral_of_div_ne_zero hb hq]
      simp only [List.length_append, List.length_singleton, Nat.add_le_add_iff_right,
        List.map_append, List.map_singleton, List.reverse_append, List.reverse_singleton,
        List.append_assoc, Nat.add_assoc, Nat.add_comm 1]

theorem length_integer (digits : List UInt8) (base : Nat) (v : Int) :
    (integer digits base v).length = (if v < 0 then 1 else 0) + (numeral base v.natAbs).length := by
  unfold integer
  split <;> simp [Nat.add_comm]

/-- Sixteen characters are enough exactly for fifteen digits and a sign, or for sixteen digits. -/
theorem length_integer_le_iff {digits : List UInt8} {base : Nat} (hb : 1 < base) {v : Int} :
    (integer digits base v).length ≤ BUF ↔
      v.natAbs < base ^ 15 ∨ 0 ≤ v ∧ v.natAbs < base ^ 16 := by
  unfold BUF
  rw [length_integer, ← length_numeral_le_iff hb (by decide), ← length_numeral_le_iff hb (by decide)]
  split <;> omega

/-- `buf` ends up with the digits of a number and its sign, if it is long enough. -/
theorem fill_eq {digits : List UInt8} {base : Nat} (hb : 1 < base) (v : Int) :
    fill digits base v.natAbs (decide (v < 0)) =
      if (integer digits base v).length ≤ BUF then .ok (integer digits base v).reverse
      else .error ⟨BUF⟩ := by
  unfold fill
  rw [digitLoop_eq hb, length_integer, List.nil_append]
  by_cases hlen : (numeral base v.natAbs).length ≤ BUF
  · rw [if_pos hlen]
    by_cases hneg : v < 0
    · rw [if_pos hneg, decide_eq_true hneg, integer, if_pos hneg, List.reverse_append]
      change push _ _ = _
      unfold push
      rw [List.length_reverse, List.length_map]
      by_cases hroom : (numeral base v.natAbs).length < BUF
      · rw [if_pos hroom, if_pos (by omega)]
        rfl
      · rw [if_neg hroom, if_neg (by omega), Nat.le_antisymm hlen (Nat.not_lt.mp hroom)]
    · rw [if_neg hneg, decide_eq_false hneg, integer, if_neg hneg, if_pos (by omega)]
      rfl
  · rw [if_neg hlen, if_neg (by omega)]
    rfl

/-- The magnitude of a negative number is that of the word's negation. -/
theorem toNat_neg_of_neg {m : Nat} {y : BitVec m} (h : y.toInt < 0) :
    (-y).toNat = y.toInt.natAbs := by
  rw [BitVec.toInt_eq_toNat_cond] at h ⊢
  have hlt := y.isLt
  split at h
  · omega
  · rename_i hbig
    rw [if_neg hbig, BitVec.toNat_neg, Nat.mod_eq_of_lt (by omega)]
    omega

theorem toNat_of_nonneg {m : Nat} {y : BitVec m} (h : ¬ y.toInt < 0) : y.toNat = y.toInt.natAbs := by
  rw [BitVec.toInt_eq_toNat_cond] at h ⊢
  split at h
  · rename_i hsmall
    rw [if_pos hsmall, Int.natAbs_natCast]
  · have hlt := y.isLt
    omega

/-- What `printint` takes its parameter for. -/
def operand (sign : Bool) {m : Nat} (xx : BitVec m) : Int := if sign then xx.toInt else xx.toNat

theorem printNumber_eq (put : UInt8 → PrintM Unit) (digits : List UInt8) {m : Nat} (xx : BitVec m)
    (base : Nat) (sign : Bool) :
    printNumber put digits xx base sign = (do
      let buf ← liftM (fill digits base (operand sign xx).natAbs (decide (operand sign xx < 0)))
      unload put buf) := by
  cases sign with
  | false =>
    have hneg : ¬ ((xx.toNat : Int) < 0) := by omega
    simp only [printNumber, operand, Bool.false_and, Bool.false_eq_true, if_false,
      Int.natAbs_natCast, decide_eq_false hneg]
  | true =>
    by_cases hneg : xx.toInt < 0
    · simp only [printNumber, operand, hneg, Bool.true_and, decide_true, if_true,
        toNat_neg_of_neg hneg]
    · simp only [printNumber, operand, hneg, Bool.true_and, decide_false, Bool.false_eq_true,
        if_false, if_true, toNat_of_nonneg hneg]

variable {put : UInt8 → PrintM Unit} {digits : List UInt8}

/-- What `printint` prints of a number. -/
def bounded (digits : List UInt8) (base : Nat) (v : Int) : Except Overrun (List UInt8) :=
  if (integer digits base v).length ≤ BUF then .ok (integer digits base v) else .error ⟨BUF⟩

theorem emits_printNumber (hput : ∀ c s, Emits (put c) s (.ok [c]) 0 ()) {m base : Nat}
    (xx : BitVec m) (sign : Bool) (hb : 1 < base) (s : State) :
    Emits (printNumber put digits xx base sign) s (bounded digits base (operand sign xx)) 0 () := by
  rw [printNumber_eq, fill_eq hb, bounded]
  split
  · have h := emits_forM hput (integer digits base (operand sign xx)) s
    unfold Emits at h ⊢
    rw [← h]
    change unload put (integer digits base (operand sign xx)).reverse s = _
    rw [unload, List.reverse_reverse]
  · rfl

/-- One turn of `nibbles`: the digit that is shifted out and the word that is left. -/
theorem nibble_step {k n : Nat} {w : UInt64} (hk : k < 16) (hw : w.toNat = n * 16 ^ (15 - k)) :
    (w >>> 60).toNat = n / 16 ^ k ∧ (w <<< 4).toNat = n % 16 ^ k * 16 ^ (16 - k) := by
  have hpos : 0 < 16 ^ (15 - k) := Nat.pow_pos (by decide)
  have htop : 16 ^ k * 16 ^ (15 - k) = 2 ^ 60 := by
    rw [← Nat.pow_add, show k + (15 - k) = 15 by omega]
    decide
  have hnext : 16 ^ (16 - k) = 16 ^ (15 - k) * 16 := by
    rw [← Nat.pow_succ, Nat.succ_eq_add_one, show 15 - k + 1 = 16 - k by omega]
  have hall : 2 ^ 64 = 16 ^ k * 16 ^ (16 - k) := by
    rw [hnext, ← Nat.mul_assoc, htop]
    decide
  constructor
  · rw [UInt64.toNat_shiftRight, hw]
    change (n * 16 ^ (15 - k)) >>> 60 = _
    rw [Nat.shiftRight_eq_div_pow, ← htop, Nat.mul_div_mul_right _ _ hpos]
  · rw [UInt64.toNat_shiftLeft, hw]
    change (n * 16 ^ (15 - k)) <<< 4 % 2 ^ 64 = _
    rw [Nat.shiftLeft_eq, Nat.mul_assoc, hall, ← Nat.mul_mod_mul_right, hnext]

theorem emits_nibbles (hput : ∀ c s, Emits (put c) s (.ok [c]) 0 ()) {left n : Nat} {w : UInt64}
    (hleft : left ≤ 16) (hn : n < 16 ^ left) (hw : w.toNat = n * 16 ^ (16 - left)) (s : State) :
    Emits (nibbles put digits left w) s (.ok ((padded 16 left n).map (digit digits))) 0 () := by
  induction left generalizing n w s with
  | zero =>
    have h0 : n = 0 := by
      rw [Nat.pow_zero] at hn
      omega
    subst h0
    exact Emits.pure
  | succ k ih =>
    have hw' : w.toNat = n * 16 ^ (15 - k) := by rw [hw, show 16 - (k + 1) = 15 - k by omega]
    obtain ⟨hdigit, hrest⟩ := nibble_step (by omega) hw'
    rw [padded_succ (by decide) hn, nibbles, hdigit]
    exact (hput _ s).seq fun _ =>
      ih (by omega) (Nat.mod_lt n (Nat.pow_pos (by decide))) hrest _

theorem emits_printPointer (hput : ∀ c s, Emits (put c) s (.ok [c]) 0 ()) (w : UInt64) (s : State) :
    Emits (printPointer put digits w) s (.ok (pointer digits w)) 0 () :=
  (hput _ s).seq fun _ => (hput _ _).seq fun _ =>
    emits_nibbles hput (Nat.le_refl 16) w.toNat_lt (Nat.mul_one _).symm _

/-! ## Conversions -/

/-- What the sources do for a conversion. The parameter of `printint` has `m` bits, and is made of an
`int` by `narrow` and of a `uint64` by `wide`. -/
def perform (put : UInt8 → PrintM Unit) (digits : List UInt8) {m : Nat} (narrow : Int32 → BitVec m)
    (wide : UInt64 → BitVec m) (a : Args) : Conv → PrintM Unit
  | .num .int kind => do printNumber put digits (narrow (← vaInt a)) kind.base kind.signed
  | .num .long kind => do printNumber put digits (wide (← vaUInt64 a)) kind.base kind.signed
  | .num .longLong kind => do printNumber put digits (wide (← vaUInt64 a)) kind.base kind.signed
  | .p => do printPointer put digits (← vaUInt64 a)
  | .s => do
    let s ← vaUInt64 a
    (if s = 0 then null else (a.str s).1).forM put

/-- The parameter of `printint` for an argument. -/
def param {m : Nat} (narrow : Int32 → BitVec m) (wide : UInt64 → BitVec m) :
    Length → UInt64 → BitVec m
  | .int, w => narrow w.toUInt32.toInt32
  | _, w => wide w

/-- What is printed for a conversion. -/
def Conv.printed (digits : List UInt8) {m : Nat} (narrow : Int32 → BitVec m) (wide : UInt64 → BitVec m)
    (a : Args) : Conv → UInt64 → Except Overrun (List UInt8)
  | .num len kind, w => bounded digits kind.base (operand kind.signed (param narrow wide len w))
  | q, w => .ok (q.shown digits a w)

variable {m : Nat} {narrow : Int32 → BitVec m} {wide : UInt64 → BitVec m} {a : Args}

theorem emits_perform (hput : ∀ c s, Emits (put c) s (.ok [c]) 0 ()) (q : Conv) (s : State) :
    Emits (perform put digits narrow wide a q) s (q.printed digits narrow wide a (a.slot s.ap)) 1
      () := by
  cases q with
  | num len kind =>
    have hb := kind.one_lt_base
    cases len with
    | int => exact emits_vaInt (emits_printNumber hput _ _ hb _)
    | long => exact emits_vaUInt64 (emits_printNumber hput _ _ hb _)
    | longLong => exact emits_vaUInt64 (emits_printNumber hput _ _ hb _)
  | p => exact emits_vaUInt64 (emits_printPointer hput _ _)
  | s => exact emits_vaUInt64 (emits_forM hput _ _)

/-! ## Formats -/

/-- A loop over a format that prints what is no conversion with `put` and leaves a conversion to
`perform`. -/
structure Scans (put : UInt8 → PrintM Unit) (perform : Conv → PrintM Unit)
    (loop : List UInt8 → PrintM Unit) : Prop where
  nil : loop [] = pure ()
  last : loop ['%'.toUInt8] = pure ()
  lit : ∀ {c r}, c ≠ 0 → c ≠ '%'.toUInt8 → loop (c :: r) = (do put c; loop r)
  conv : ∀ {c r q}, c ≠ 0 → leading (c :: r) = some q →
    loop ('%'.toUInt8 :: c :: r) = (do perform q; loop ((c :: r).drop q.spelling.length))
  percent : ∀ {r}, leading ('%'.toUInt8 :: r) = none →
    loop ('%'.toUInt8 :: '%'.toUInt8 :: r) = (do put '%'.toUInt8; loop r)
  unknown : ∀ {c r}, c ≠ 0 → c ≠ '%'.toUInt8 → leading (c :: r) = none →
    loop ('%'.toUInt8 :: c :: r) = (do put '%'.toUInt8; put c; loop r)

/-- What is printed for a piece; `w` is the next argument. -/
def Piece.printed (digits : List UInt8) {m : Nat} (narrow : Int32 → BitVec m)
    (wide : UInt64 → BitVec m) (a : Args) (w : UInt64) : Piece → Except Overrun (List UInt8)
  | .conv q => q.printed digits narrow wide a w
  | p => .ok (p.shown digits a w)

/-- What is printed for the pieces of a format; the next argument is that of the slot `k`. -/
def printed (digits : List UInt8) {m : Nat} (narrow : Int32 → BitVec m) (wide : UInt64 → BitVec m)
    (a : Args) : List Piece → Nat → Except Overrun (List UInt8)
  | [], _ => .ok []
  | p :: ps, k => joined (p.printed digits narrow wide a (a.slot k))
      (printed digits narrow wide a ps (p.next k))

theorem Scans.emits {loop : List UInt8 → PrintM Unit}
    (h : Scans put (perform put digits narrow wide a) loop)
    (hput : ∀ c s, Emits (put c) s (.ok [c]) 0 ()) {fmt : List UInt8} (h0 : 0 ∉ fmt) (s : State) :
    Emits (loop fmt) s (printed digits narrow wide a (parse fmt) s.ap) (convs (parse fmt)).length () := by
  revert s
  refine format_induction ?_ ?_ ?_ ?_ ?_ fmt h0
  · intro s
    rw [h.nil, parse_nil]
    exact Emits.pure
  · intro c r h0 hc ih s
    rw [parse_lit hc, h.lit h0 hc]
    exact (hput c s).seq fun _ => ih _
  · intro s
    rw [h.last, parse_end]
    exact Emits.pure
  · intro c r q h0 hq ih s
    rw [parse_conv hq, h.conv h0 hq]
    exact (emits_perform hput q s).seq fun _ => ih _
  · intro c r h0 hq ih s
    rw [parse_other hq]
    by_cases hc : c = '%'.toUInt8
    · subst hc
      rw [if_pos rfl, h.percent hq]
      exact (hput _ s).seq fun _ => ih _
    · rw [if_neg hc, h.unknown h0 hc hq]
      rw [printed, show Piece.printed digits narrow wide a _ (.unknown c) = .ok (['%'.toUInt8] ++ [c]) from rfl,
        ← joined_joined]
      exact (hput _ s).seq fun _ => (hput c _).seq fun _ => ih _

/-! ## When the text is printed

Every number is printed with a sign and digits, but it may be another number than the one to be shown.
The printed text is the right one only if every number is right: the text has too few digits in all, or
too many, or the first wrong number has as many digits as the right one and the same sign. -/

/-- The digits of a base up to 16 look different, and none like a minus sign. -/
structure Table (digits : List UInt8) : Prop where
  index : ∀ i < 16, digits.idxOf (digit digits i) = i
  sign : ∀ i < 16, digit digits i ≠ '-'.toUInt8

/-- The characters other than minus signs. -/
def digitCount (l : List UInt8) : Nat := l.countP (· ≠ '-'.toUInt8)

section Exact

variable {base : Nat} (htable : Table digits) (hb : 1 < base) (hb16 : base ≤ 16)

include htable hb hb16

theorem digit_ne_sign {n : Nat} {c : UInt8} (hc : c ∈ (numeral base n).map (digit digits)) :
    c ≠ '-'.toUInt8 := by
  obtain ⟨d, hd, rfl⟩ := List.mem_map.1 hc
  exact htable.sign d (Nat.lt_of_lt_of_le (lt_of_mem_numeral hb hd) hb16)

theorem digitCount_integer (v : Int) :
    digitCount (integer digits base v) = (numeral base v.natAbs).length := by
  have hall : digitCount ((numeral base v.natAbs).map (digit digits)) =
      (numeral base v.natAbs).length := by
    rw [digitCount, List.countP_eq_length.2, List.length_map]
    exact fun c hc => decide_eq_true (digit_ne_sign htable hb hb16 hc)
  rw [integer, digitCount, List.countP_append]
  split
  · simpa [digitCount] using hall
  · simpa [digitCount] using hall

theorem head?_integer (v : Int) (l : List UInt8) :
    (integer digits base v ++ l).head? = some '-'.toUInt8 ↔ v < 0 := by
  unfold integer
  split
  · rename_i hneg
    exact ⟨fun _ => hneg, fun _ => rfl⟩
  · rename_i hpos
    obtain ⟨d, ds, hds⟩ := List.exists_cons_of_length_pos (length_numeral_pos base v.natAbs)
    refine ⟨fun hhead => absurd (Option.some.inj ?_) (digit_ne_sign htable hb hb16 (n := v.natAbs)
      (c := digit digits d) (by rw [hds]; exact List.mem_cons_self)), fun h => absurd h hpos⟩
    rw [hds] at hhead
    exact hhead

/-- The first of two numbers with equally many digits can be told from its text. -/
theorem integer_injective {v v' : Int} {l l' : List UInt8}
    (hlen : (numeral base v.natAbs).length = (numeral base v'.natAbs).length)
    (h : integer digits base v ++ l = integer digits base v' ++ l') : v = v' ∧ l = l' := by
  have hsign : v < 0 ↔ v' < 0 := by
    rw [← head?_integer htable hb hb16 v l, ← head?_integer htable hb hb16 v' l', h]
  obtain ⟨hint, hl⟩ := List.append_inj h (by rw [length_integer, length_integer, hlen, if_congr hsign rfl rfl])
  refine ⟨?_, hl⟩
  unfold integer at hint
  rw [if_congr hsign rfl rfl] at hint
  have hmap := List.append_cancel_left hint
  have hback : ∀ n, ((numeral base n).map (digit digits)).map digits.idxOf = numeral base n := by
    intro n
    rw [List.map_map]
    exact (List.map_congr_left fun d hd => htable.index d
      (Nat.lt_of_lt_of_le (lt_of_mem_numeral hb hd) hb16)).trans (List.map_id _)
  have habs : v.natAbs = v'.natAbs := by
    refine numeral_injective base ?_
    rw [← hback, hmap, hback]
  omega

end Exact

/-- The parameter of `printint` has the value of the argument, and `buf` is long enough for it. -/
structure Shows (digits : List UInt8) {m : Nat} (narrow : Int32 → BitVec m)
    (wide : UInt64 → BitVec m) (len : Length) (kind : Kind) (w : UInt64) : Prop where
  value : operand kind.signed (param narrow wide len w) = Conv.value len kind w
  room : (integer digits kind.base (Conv.value len kind w)).length ≤ BUF

theorem shows_iff {len : Length} {kind : Kind} {w : UInt64} : Shows digits narrow wide len kind w ↔
    operand kind.signed (param narrow wide len w) = Conv.value len kind w ∧
      ((Conv.value len kind w).natAbs < kind.base ^ 15 ∨
        0 ≤ Conv.value len kind w ∧ (Conv.value len kind w).natAbs < kind.base ^ 16) := by
  rw [← length_integer_le_iff kind.one_lt_base]
  exact ⟨fun h => ⟨h.value, h.room⟩, fun h => ⟨h.1, h.2⟩⟩

theorem bounded_eq_ok {base : Nat} {v : Int} {l : List UInt8} (h : bounded digits base v = .ok l) :
    l = integer digits base v ∧ (integer digits base v).length ≤ BUF := by
  unfold bounded at h
  split at h
  · rename_i hlen
    exact ⟨(Except.ok.inj h).symm, hlen⟩
  · cases h

theorem Kind.base_le (kind : Kind) : kind.base ≤ 16 := by
  cases kind <;> decide

theorem digitCount_append (l l' : List UInt8) : digitCount (l ++ l') = digitCount l + digitCount l' :=
  List.countP_append

theorem digitCount_eq {sgn : Int} {a b c d : Nat} (hsgn : sgn ≠ 0) (hab : sgn * a ≤ sgn * b)
    (hcd : sgn * c ≤ sgn * d) (h : a + c = b + d) : a = b := by
  have hsum : sgn * a + sgn * c = sgn * b + sgn * d := by
    rw [← mul_add, ← mul_add, ← Nat.cast_add, ← Nat.cast_add, h]
  exact_mod_cast mul_left_cancel₀ hsgn (show sgn * (a : Int) = sgn * b by omega)

/-- The conversion at a piece, if there is one, shows its argument. -/
def Piece.Shows (digits : List UInt8) {m : Nat} (narrow : Int32 → BitVec m) (wide : UInt64 → BitVec m)
    (w : UInt64) (p : Piece) : Prop :=
  ∀ len kind, p = .conv (.num len kind) → Printf.Shows digits narrow wide len kind w

theorem allFit_convs_cons {p : Piece} {ps : List Piece} {k : Nat} :
    AllFit (Shows digits narrow wide) a k (convs (p :: ps)) ↔
      p.Shows digits narrow wide (a.slot k) ∧
        AllFit (Shows digits narrow wide) a (p.next k) (convs ps) := by
  cases p with
  | conv q =>
    rw [convs, allFit_cons, Piece.next]
    simp only [Piece.Shows, Piece.conv.injEq]
  | lit c | percent | unknown c => simp [Piece.Shows, convs, Piece.next]

/-- A piece that shows its argument is printed rightly. -/
theorem Piece.Shows.printed_eq {p : Piece} {w : UInt64} (h : p.Shows digits narrow wide w) :
    p.printed digits narrow wide a w = .ok (p.shown digits a w) := by
  cases p with
  | conv q =>
    cases q with
    | num len kind =>
      obtain ⟨hval, hroom⟩ := h len kind rfl
      rw [Piece.printed, Conv.printed, hval, bounded, if_pos hroom]
      rfl
    | p | s => rfl
  | lit c | percent | unknown c => rfl

section Converse

/-! In which direction the printed numbers may differ from the right ones: with `sgn` positive they never
have fewer digits, with `sgn` negative never more. -/

variable (htable : Table digits) {sgn : Int} (hsgn : sgn ≠ 0)
  (hmono : ∀ len kind w, sgn * (numeral (Kind.base kind) (Conv.value len kind w).natAbs).length ≤
    sgn * (numeral kind.base (operand kind.signed (param narrow wide len w)).natAbs).length)

include htable hmono

theorem digitCount_shown_le {p : Piece} {w : UInt64} {l : List UInt8}
    (h : p.printed digits narrow wide a w = .ok l) :
    sgn * digitCount (p.shown digits a w) ≤ sgn * digitCount l := by
  cases p with
  | conv q =>
    cases q with
    | num len kind =>
      rw [(bounded_eq_ok h).1, Piece.shown, Conv.shown,
        digitCount_integer htable kind.one_lt_base kind.base_le,
        digitCount_integer htable kind.one_lt_base kind.base_le]
      exact hmono len kind w
    | p | s => rw [← Except.ok.inj h, Piece.shown]
  | lit c | percent | unknown c => rw [← Except.ok.inj h]

theorem digitCount_text_le {ps : List Piece} {k : Nat} {l : List UInt8}
    (h : printed digits narrow wide a ps k = .ok l) :
    sgn * digitCount (text digits a ps k) ≤ sgn * digitCount l := by
  induction ps generalizing k l with
  | nil => rw [← Except.ok.inj h, text]
  | cons p ps ih =>
    obtain ⟨l₁, l₂, h₁, h₂, rfl⟩ := joined_eq_ok h
    rw [text, digitCount_append, digitCount_append, Nat.cast_add, Nat.cast_add, mul_add, mul_add]
    exact add_le_add (digitCount_shown_le htable hmono h₁) (ih h₂)

include hsgn

/-- Where the text is printed, the first piece shows its argument. -/
theorem Piece.shows_of_printed {p : Piece} {ps : List Piece} {k : Nat} {l₁ l₂ : List UInt8}
    (h₁ : p.printed digits narrow wide a (a.slot k) = .ok l₁)
    (h₂ : Printf.printed digits narrow wide a ps (p.next k) = .ok l₂)
    (h : p.shown digits a (a.slot k) ++ text digits a ps (p.next k) = l₁ ++ l₂) :
    p.Shows digits narrow wide (a.slot k) := by
  rintro len kind rfl
  obtain ⟨rfl, hroom⟩ := bounded_eq_ok h₁
  have hb := kind.one_lt_base
  have hcount := digitCount_eq hsgn (digitCount_shown_le htable hmono h₁)
    (digitCount_text_le htable hmono h₂) (by rw [← digitCount_append, ← digitCount_append, h])
  rw [Piece.shown, Conv.shown, digitCount_integer htable hb kind.base_le,
    digitCount_integer htable hb kind.base_le] at hcount
  obtain ⟨hval, -⟩ := integer_injective htable hb kind.base_le hcount h
  exact ⟨hval.symm, by rwa [hval]⟩

/-- The text is printed exactly where every argument fits. -/
theorem printed_eq_text_iff {ps : List Piece} {k : Nat} :
    printed digits narrow wide a ps k = .ok (text digits a ps k) ↔
      AllFit (Shows digits narrow wide) a k (convs ps) := by
  induction ps generalizing k with
  | nil => exact iff_of_true rfl fun i len kind hi => by cases hi
  | cons p ps ih =>
    rw [allFit_convs_cons, ← ih]
    constructor
    · intro h
      obtain ⟨l₁, l₂, h₁, h₂, heq⟩ := joined_eq_ok h
      have hp := Piece.shows_of_printed htable hsgn hmono h₁ h₂ heq
      obtain rfl : _ = l₁ := Except.ok.inj (hp.printed_eq.symm.trans h₁)
      exact ⟨hp, by rw [h₂, List.append_cancel_left heq]⟩
    · rintro ⟨hp, hps⟩
      rw [printed, hp.printed_eq, hps, text]
      rfl

end Converse

end Xv6.Printf
