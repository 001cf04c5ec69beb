import Xv6.Printf.Digits

set_option autoImplicit false

/-! # The user library's `vprintf`

`printint`, `printptr` and `vprintf` of `user/printf.c`; `out` is what is written to `fd`. Here
`printint` has an `int` parameter, to which a 64-bit argument is cut down. `vprintf` remembers in
`state` that the character before was a `%`. -/

namespace Xv6.Printf.User

open Numeral

/-! ## The source -/

def digits : List UInt8 := ascii "0123456789ABCDEF"

def putc (c : UInt8) : PrintM Unit := modify fun s => { s with out := s.out ++ [c] }

def printint (xx : Int32) (base : Nat) (sgn : Bool) : PrintM Unit :=
  printNumber putc digits xx.toBitVec base sgn

def printptr (x : UInt64) : PrintM Unit := printPointer putc digits x

/-- The conversion of three characters, the first after a `%`. It returns `k` for `i += k`. -/
def convert (a : Args) (c0 c1 c2 : UInt8) : PrintM Nat := do
  if c0 = 'd'.toUInt8 then
    printint (← vaInt a) 10 true
    return 0
  else if c0 = 'l'.toUInt8 ∧ c1 = 'd'.toUInt8 then
    printint (← vaUInt64 a).toUInt32.toInt32 10 true
    return 1
  else if c0 = 'l'.toUInt8 ∧ c1 = 'l'.toUInt8 ∧ c2 = 'd'.toUInt8 then
    printint (← vaUInt64 a).toUInt32.toInt32 10 true
    return 2
  else if c0 = 'u'.toUInt8 then
    printint (← vaInt a) 10 false
    return 0
  else if c0 = 'l'.toUInt8 ∧ c1 = 'u'.toUInt8 then
    printint (← vaUInt64 a).toUInt32.toInt32 10 false
    return 1
  else if c0 = 'l'.toUInt8 ∧ c1 = 'l'.toUInt8 ∧ c2 = 'u'.toUInt8 then
    printint (← vaUInt64 a).toUInt32.toInt32 10 false
    return 2
  else if c0 = 'x'.toUInt8 then
    printint (← vaInt a) 16 false
    return 0
  else if c0 = 'l'.toUInt8 ∧ c1 = 'x'.toUInt8 then
    printint (← vaUInt64 a).toUInt32.toInt32 16 false
    return 1
  else if c0 = 'l'.toUInt8 ∧ c1 = 'l'.toUInt8 ∧ c2 = 'x'.toUInt8 then
    printint (← vaUInt64 a).toUInt32.toInt32 16 false
    return 2
  else if c0 = 'p'.toUInt8 then
    printptr (← vaUInt64 a)
    return 0
  else if c0 = 's'.toUInt8 then
    let s ← vaUInt64 a
    (if s = 0 then null else (a.str s).1).forM putc
    return 0
  else if c0 = '%'.toUInt8 then
    putc '%'.toUInt8
    return 0
  else
    putc '%'.toUInt8
    putc c0
    return 0

/-- The loop, from `fmt + i` on. -/
def vprintfLoop (a : Args) (fmt : List UInt8) (state : UInt8) : PrintM Unit :=
  if _h : byte fmt 0 = 0 then pure ()
  else
    let c0 := byte fmt 0
    if state = 0 then
      if c0 = '%'.toUInt8 then vprintfLoop a (fmt.drop 1) '%'.toUInt8
      else do
        putc c0
        vprintfLoop a (fmt.drop 1) state
    else if state = '%'.toUInt8 then do
      let c1 := if c0 ≠ 0 then byte fmt 1 else 0
      let c2 := if c1 ≠ 0 then byte fmt 2 else 0
      let k ← convert a c0 c1 c2
      vprintfLoop a (fmt.drop (k + 1)) 0
    else vprintfLoop a (fmt.drop 1) state
termination_by fmt.length
decreasing_by
  all_goals
    have := List.length_pos_iff.mpr (ne_nil_of_byte _h)
    simp only [List.length_drop]
    omega

/-- The arguments start at the slot that `ap` is at. -/
def vprintf (a : Args) (fmt : CString) : PrintM Unit := vprintfLoop a fmt.1 0

/-! ## Conversions -/

theorem emits_putc (c : UInt8) (s : State) : Emits (putc c) s (.ok [c]) 0 () := rfl

theorem table : Table digits := ⟨by decide, by decide⟩

/-- The arguments that keep their value as an `int` or as a `uint`. -/
def Fits : Length → Kind → UInt64 → Prop
  | .int, _, _ => True
  | _, .d, w => -2 ^ 31 ≤ w.toInt64.toInt ∧ w.toInt64.toInt < 2 ^ 31
  | _, _, w => w.toNat < 2 ^ 32

/-- What the source does for a conversion. -/
def performs (a : Args) : Conv → PrintM Unit :=
  perform putc digits Int32.toBitVec (fun w => w.toUInt32.toInt32.toBitVec) a

/-- What the source does where no conversion follows the `%`. -/
def other (c0 : UInt8) : PrintM Nat := do
  if c0 = '%'.toUInt8 then
    putc '%'.toUInt8
    return 0
  else
    putc '%'.toUInt8
    putc c0
    return 0

theorem convert_eq (a : Args) (c0 c1 c2 : UInt8) :
    convert a c0 c1 c2 = (select c0 c1 c2).elim (other c0) fun q => do
      performs a q
      return q.spelling.length - 1 := by
  simp only [select, elim_ite, Option.elim_none, performs, perform, bind_assoc]
  rfl

/-- The parameter of `printint` is the low half of the argument. -/
theorem operand_eq (len : Length) (sgn : Bool) (w : UInt64) :
    operand sgn (param Int32.toBitVec (fun w => w.toUInt32.toInt32.toBitVec) len w) =
      if sgn then w.toUInt32.toInt32.toInt else w.toUInt32.toNat := by
  cases len <;> rfl

/-- The low half of a word as an `int`, and the word as a `long`. -/
theorem toInt_cases (w : UInt64) :
    (w.toNat % 2 ^ 32 < 2 ^ 31 ∧ w.toUInt32.toInt32.toInt = w.toNat % 2 ^ 32 ∨
      2 ^ 31 ≤ w.toNat % 2 ^ 32 ∧ w.toUInt32.toInt32.toInt = w.toNat % 2 ^ 32 - 2 ^ 32) ∧
    (w.toNat < 2 ^ 63 ∧ w.toInt64.toInt = w.toNat ∨
      2 ^ 63 ≤ w.toNat ∧ w.toInt64.toInt = w.toNat - 2 ^ 64) := by
  have hlow : w.toUInt32.toBitVec.toNat = w.toNat % 2 ^ 32 := UInt64.toNat_toUInt32 w
  have hword : w.toBitVec.toNat = w.toNat := rfl
  have hint : w.toUInt32.toInt32.toInt = w.toUInt32.toBitVec.toInt := rfl
  have hlong : w.toInt64.toInt = w.toBitVec.toInt := rfl
  rw [hint, hlong, BitVec.toInt_eq_toNat_cond, BitVec.toInt_eq_toNat_cond, hlow, hword]
  split_ifs <;> omega

/-- What `printint` takes an argument for has at most as many digits. -/
theorem natAbs_operand_le (len : Length) (kind : Kind) (w : UInt64) :
    (operand kind.signed (param Int32.toBitVec (fun w => w.toUInt32.toInt32.toBitVec) len w)).natAbs ≤
      (Conv.value len kind w).natAbs := by
  obtain ⟨hint, hlong⟩ := toInt_cases w
  have hlow := UInt64.toNat_toUInt32 w
  have h64 := w.toNat_lt
  rw [operand_eq]
  cases len <;> cases kind <;>
    simp only [Conv.value, Kind.signed, Bool.false_eq_true, if_true, if_false, hlow] <;> omega

theorem shows_iff_fits {len : Length} {kind : Kind} {w : UInt64} :
    Shows digits Int32.toBitVec (fun w => w.toUInt32.toInt32.toBitVec) len kind w ↔
      Fits len kind w := by
  obtain ⟨hint, hlong⟩ := toInt_cases w
  have hlow := UInt64.toNat_toUInt32 w
  have h64 := w.toNat_lt
  rw [shows_iff, operand_eq]
  cases len <;> cases kind <;>
    simp only [Conv.value, Kind.signed, Kind.base, Fits, Bool.false_eq_true, if_true, if_false, hlow,
      true_and, iff_true] <;> omega

/-! ## Formats -/

variable {a : Args} {c0 : UInt8} {r : List UInt8}

theorem vprintfLoop_nil (state : UInt8) : vprintfLoop a [] state = pure () := by
  rw [vprintfLoop]
  rfl

theorem vprintfLoop_percent : vprintfLoop a ('%'.toUInt8 :: r) 0 = vprintfLoop a r '%'.toUInt8 := by
  rw [vprintfLoop]
  rfl

/-- In the state `%` the loop goes on behind the conversion, in the state 0. -/
theorem vprintfLoop_conv (h0 : c0 ≠ 0) :
    vprintfLoop a (c0 :: r) '%'.toUInt8 = (leading (c0 :: r)).elim
      (do let k ← other c0; vprintfLoop a (r.drop k) 0)
      fun q => (do performs a q; vprintfLoop a ((c0 :: r).drop q.spelling.length) 0) := by
  have hb0 : byte (c0 :: r) 0 = c0 := rfl
  have hb1 : byte (c0 :: r) 1 = byte r 0 := rfl
  have hb2 : byte (c0 :: r) 2 = byte r 1 := rfl
  have hp : ¬ '%'.toUInt8 = 0 := by decide
  rw [vprintfLoop]
  simp only [hb0, h0, ↓reduceDIte, if_neg hp, if_true, hb1, hb2, ne_eq, not_false_eq_true]
  rw [convert_eq, select_guard, leading_cons]
  cases select c0 (byte r 0) (byte r 1) with
  | none => rfl
  | some q =>
    have hpos := q.length_spelling_pos
    simp only [Option.elim_some, bind_assoc, pure_bind]
    rw [show q.spelling.length - 1 + 1 = q.spelling.length by omega]

theorem vprintfLoop_scans (a : Args) : Scans putc (performs a) (vprintfLoop a · 0) := by
  refine ⟨vprintfLoop_nil 0, ?_, fun {c r} h0 hc => ?_, fun {c r q} h0 hq => ?_, fun {r} hq => ?_,
    fun {c r} h0 hc hq => ?_⟩
  · exact vprintfLoop_percent.trans (vprintfLoop_nil _)
  · have hb : byte (c :: r) 0 = c := rfl
    rw [vprintfLoop]
    simp only [hb, dif_neg h0, if_true, if_neg hc, List.drop_succ_cons, List.drop_zero]
  · rw [vprintfLoop_percent, vprintfLoop_conv h0, hq, Option.elim_some]
  · rw [vprintfLoop_percent, vprintfLoop_conv (by decide), hq, Option.elim_none, other, if_pos rfl]
    simp only [bind_assoc, pure_bind]
    rfl
  · rw [vprintfLoop_percent, vprintfLoop_conv h0, hq, Option.elim_none, other, if_neg hc]
    simp only [bind_assoc, pure_bind]
    rfl

/-- Each conversion shows the number that its argument is, and one argument is taken for each, if and
only if the 64-bit arguments of numbers keep their value in 32 bits. -/
theorem vprintf_prints (a : Args) (fmt : CString) (s : State) :
    vprintf a fmt s =
        .ok ((), ⟨s.out ++ text digits a (parse fmt.1) s.ap, s.ap + (convs (parse fmt.1)).length⟩) ↔
      ∀ i len kind, (convs (parse fmt.1))[i]? = some (.num len kind) →
        Fits len kind (a.slot (s.ap + i)) := by
  have hrun : Emits (vprintf a fmt) s _ _ () := (vprintfLoop_scans a).emits emits_putc fmt.2 s
  rw [hrun.eq_ok_iff, printed_eq_text_iff table (neg_ne_zero.2 one_ne_zero) ?_]
  · simp only [AllFit, shows_iff_fits]
  · intro len kind w
    have hle := length_numeral_mono (b := kind.base) (natAbs_operand_le len kind w)
    omega

/-- A negative `long`, a hexadecimal `int` and a pointer, from the second argument on. -/
theorem vprintf_prints_three :
    vprintf (words [0, (-7 : Int64).toUInt64, 0xdeadbeef, 0x80001000])
        ⟨ascii "%ld %x %p", by decide⟩ ⟨[], 1⟩ =
      .ok ((), ⟨ascii "-7 DEADBEEF 0x0000000080001000", 4⟩) := by
  have hconvs : convs (parse (ascii "%ld %x %p")) = [.num .long .d, .num .int .x, .p] := by
    decide +kernel
  refine ((vprintf_prints _ _ _).2 ?_).trans (by decide +kernel)
  rw [hconvs]
  intro i len kind hi
  rcases i with _ | _ | _ | i
  · cases hi
    exact (by decide : -2 ^ 31 ≤ (-7 : Int64).toInt ∧ (-7 : Int64).toInt < 2 ^ 31)
  · cases hi
    trivial
  · cases hi
  · cases hi

/-- A 64-bit argument loses its upper half. -/
theorem vprintf_long_truncated :
    vprintf (words [0x100000000]) ⟨ascii "%ld", by decide⟩ ⟨[], 0⟩ =
      .ok ((), ⟨ascii "0", 1⟩) ∧
    text digits (words [0x100000000]) (parse (ascii "%ld")) 0 = ascii "4294967296" ∧
    vprintf (words [0x1deadbeef]) ⟨ascii "%llx", by decide⟩ ⟨[], 0⟩ =
      .ok ((), ⟨ascii "DEADBEEF", 1⟩) ∧
    text digits (words [0x1deadbeef]) (parse (ascii "%llx")) 0 = ascii "1DEADBEEF" := by
  refine ⟨?_, ?_, ?_, ?_⟩ <;> decide +kernel

end Xv6.Printf.User
