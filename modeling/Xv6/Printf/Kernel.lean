import Xv6.Console.Device
import Xv6.Printf.Digits

set_option autoImplicit false

/-! # The kernel's `printf`

`printint`, `printptr` and `printf` of `kernel/printf.c`, without `pr.lock`. One `printint` serves
numbers of both widths: its parameter is a `long long`, to which an `int` that `va_arg` returns is
sign-extended, whether the conversion is signed or not. -/

namespace Xv6.Printf.Kernel

open Numeral

/-! ## The source -/

def digits : List UInt8 := ascii "0123456789abcdef"

def consputc (c : UInt8) : PrintM Unit :=
  modify fun s => { s with out := s.out ++ Console.consputc c.toNat }

def printint (xx : Int64) (base : Nat) (sign : Bool) : PrintM Unit :=
  printNumber consputc digits xx.toBitVec base sign

def printptr (x : UInt64) : PrintM Unit := printPointer consputc digits x

/-- The conversion of the three characters after a `%`. `some k` is the end of the loop's body after
`i += k`, `none` is its `break`. -/
def convert (a : Args) (c0 c1 c2 : UInt8) : PrintM (Option Nat) := do
  if c0 = 'd'.toUInt8 then
    printint (← vaInt a).toInt64 10 true
    return some 0
  else if c0 = 'l'.toUInt8 ∧ c1 = 'd'.toUInt8 then
    printint (← vaUInt64 a).toInt64 10 true
    return some 1
  else if c0 = 'l'.toUInt8 ∧ c1 = 'l'.toUInt8 ∧ c2 = 'd'.toUInt8 then
    printint (← vaUInt64 a).toInt64 10 true
    return some 2
  else if c0 = 'u'.toUInt8 then
    printint (← vaInt a).toInt64 10 false
    return some 0
  else if c0 = 'l'.toUInt8 ∧ c1 = 'u'.toUInt8 then
    printint (← vaUInt64 a).toInt64 10 false
    return some 1
  else if c0 = 'l'.toUInt8 ∧ c1 = 'l'.toUInt8 ∧ c2 = 'u'.toUInt8 then
    printint (← vaUInt64 a).toInt64 10 false
    return some 2
  else if c0 = 'x'.toUInt8 then
    printint (← vaInt a).toInt64 16 false
    return some 0
  else if c0 = 'l'.toUInt8 ∧ c1 = 'x'.toUInt8 then
    printint (← vaUInt64 a).toInt64 16 false
    return some 1
  else if c0 = 'l'.toUInt8 ∧ c1 = 'l'.toUInt8 ∧ c2 = 'x'.toUInt8 then
    printint (← vaUInt64 a).toInt64 16 false
    return some 2
  else if c0 = 'p'.toUInt8 then
    printptr (← vaUInt64 a)
    return some 0
  else if c0 = 's'.toUInt8 then
    let s ← vaUInt64 a
    (if s = 0 then null else (a.str s).1).forM consputc
    return some 0
  else if c0 = '%'.toUInt8 then
    consputc '%'.toUInt8
    return some 0
  else if c0 = 0 then
    return none
  else
    consputc '%'.toUInt8
    consputc c0
    return some 0

/-- The loop, from `fmt + i` on. -/
def printfLoop (a : Args) (fmt : List UInt8) : PrintM Unit :=
  let cx := byte fmt 0
  if _h : cx = 0 then pure ()
  else if cx ≠ '%'.toUInt8 then do
    consputc cx
    printfLoop a (fmt.drop 1)
  else do
    let fmt := fmt.drop 1
    let c0 := byte fmt 0
    let c1 := if c0 ≠ 0 then byte fmt 1 else 0
    let c2 := if c1 ≠ 0 then byte fmt 2 else 0
    match ← convert a c0 c1 c2 with
    | none => pure ()
    | some k => printfLoop a (fmt.drop (k + 1))
termination_by fmt.length
decreasing_by
  all_goals
    have := List.length_pos_iff.mpr (ne_nil_of_byte _h)
    simp only [List.length_drop]
    omega

def printf (a : Args) (fmt : CString) : PrintM Int := do
  modify fun s => { s with ap := 0 }
  printfLoop a fmt.1
  return 0

/-! ## Numbers -/

theorem emits_consputc (c : UInt8) (s : State) : Emits (consputc c) s (.ok [c]) 0 () := by
  have hne : c.toNat ≠ Console.BACKSPACE := Nat.ne_of_lt c.toNat_lt
  have hput : Console.consputc c.toNat = [c] := by
    rw [Console.consputc, if_neg hne]
    exact congrArg (fun b => [b]) UInt8.ofNat_toNat
  unfold Emits
  rw [← hput]
  rfl

theorem table : Table digits := ⟨by decide, by decide⟩

/-! ## Conversions -/

/-- The arguments that `printint` shows rightly: an unsigned 32-bit one must not be extended to a
negative `long long`, and a numeral must fit into `buf`. -/
def Fits : Length → Kind → UInt64 → Prop
  | .int, .d, _ => True
  | .int, _, w => w.toUInt32.toNat < 2 ^ 31
  | _, .d, w => -10 ^ 15 < w.toInt64.toInt ∧ w.toInt64.toInt < 10 ^ 16
  | _, .u, w => w.toNat < 10 ^ 16
  | _, .x, _ => True

/-- What the source does for a conversion. -/
def performs (a : Args) : Conv → PrintM Unit :=
  perform consputc digits (fun n => n.toInt64.toBitVec) (fun w => w.toInt64.toBitVec) a

/-- What the source does where no conversion follows the `%`. -/
def other (c0 : UInt8) : PrintM (Option Nat) := do
  if c0 = '%'.toUInt8 then
    consputc '%'.toUInt8
    return some 0
  else if c0 = 0 then return none
  else
    consputc '%'.toUInt8
    consputc c0
    return some 0

theorem convert_eq (a : Args) (c0 c1 c2 : UInt8) :
    convert a c0 c1 c2 = (select c0 c1 c2).elim (other c0) fun q => do
      performs a q
      return some (q.spelling.length - 1) := by
  simp only [select, elim_ite, Option.elim_none, performs, perform, bind_assoc]
  rfl

/-- The sign extension keeps a number that is below `2 ^ 31`, and no other. -/
theorem toNat_extended (w : UInt64) :
    w.toUInt32.toNat < 2 ^ 31 ∧ w.toUInt32.toInt32.toInt64.toBitVec.toNat = w.toUInt32.toNat ∨
    2 ^ 31 ≤ w.toUInt32.toNat ∧
      w.toUInt32.toInt32.toInt64.toBitVec.toNat = w.toUInt32.toNat + (2 ^ 64 - 2 ^ 32) := by
  have hext : w.toUInt32.toInt32.toInt64.toBitVec.toInt = w.toUInt32.toBitVec.toInt :=
    Int32.toInt_toInt64 _
  have hword : w.toUInt32.toBitVec.toNat = w.toUInt32.toNat := rfl
  have hlt := w.toUInt32.toInt32.toInt64.toBitVec.isLt
  have h32 := w.toUInt32.toNat_lt
  rw [BitVec.toInt_eq_toNat_cond, BitVec.toInt_eq_toNat_cond, hword] at hext
  split_ifs at hext <;> omega

/-- What `printint` takes an argument for has at least as many digits. -/
theorem natAbs_value_le (len : Length) (kind : Kind) (w : UInt64) :
    (Conv.value len kind w).natAbs ≤ (operand kind.signed (param (fun n : Int32 => n.toInt64.toBitVec)
      (fun w => w.toInt64.toBitVec) len w)).natAbs := by
  have hext := toNat_extended w
  have hint : w.toUInt32.toInt32.toInt64.toBitVec.toInt = w.toUInt32.toInt32.toInt :=
    Int32.toInt_toInt64 _
  cases len with
  | int =>
    cases kind with
    | d => exact Nat.le_of_eq (congrArg Int.natAbs hint.symm)
    | u | x =>
      change w.toUInt32.toNat ≤ w.toUInt32.toInt32.toInt64.toBitVec.toNat
      omega
  | long | longLong => cases kind <;> exact Nat.le_refl _

theorem shows_iff_fits {len : Length} {kind : Kind} {w : UInt64} :
    Shows digits (fun n => n.toInt64.toBitVec) (fun w => w.toInt64.toBitVec) len kind w ↔
      Fits len kind w := by
  have hext := toNat_extended w
  have hint : w.toUInt32.toInt32.toInt64.toBitVec.toInt = w.toUInt32.toInt32.toInt :=
    Int32.toInt_toInt64 _
  have h32 := w.toUInt32.toNat_lt
  have h64 := w.toNat_lt
  have hge := w.toUInt32.toInt32.le_toInt
  have hle := w.toUInt32.toInt32.toInt_lt
  have hlong : w.toInt64.toBitVec.toInt = w.toInt64.toInt := rfl
  have hulong : w.toInt64.toBitVec.toNat = w.toNat := rfl
  rw [shows_iff]
  cases len <;> cases kind <;>
    simp only [operand, param, Conv.value, Kind.signed, Kind.base, Fits, Bool.false_eq_true, if_true,
      if_false, hint, hlong, hulong, true_and, iff_true] <;> omega

/-! ## Formats -/

variable {a : Args} {c0 : UInt8} {r : List UInt8}

/-- After a `%` the loop goes on behind the conversion. -/
theorem printfLoop_percent (h0 : c0 ≠ 0) :
    printfLoop a ('%'.toUInt8 :: c0 :: r) = (leading (c0 :: r)).elim
      (other c0 >>= fun k => k.elim (pure ()) fun k => printfLoop a (r.drop k))
      fun q => (do performs a q; printfLoop a ((c0 :: r).drop q.spelling.length)) := by
  have hb : byte ('%'.toUInt8 :: c0 :: r) 0 = '%'.toUInt8 := rfl
  have hb0 : byte (c0 :: r) 0 = c0 := rfl
  have hb1 : byte (c0 :: r) 1 = byte r 0 := rfl
  have hb2 : byte (c0 :: r) 2 = byte r 1 := rfl
  have hp : ¬ '%'.toUInt8 = 0 := by decide
  rw [printfLoop]
  simp only [hb, dif_neg hp, ne_eq, not_true_eq_false, if_false, List.drop_succ_cons, List.drop_zero,
    hb0, h0, not_false_eq_true, if_true, hb1, hb2]
  rw [convert_eq, select_guard, leading_cons]
  cases select c0 (byte r 0) (byte r 1) with
  | none =>
    refine bind_congr fun k => ?_
    cases k <;> rfl
  | some q =>
    have hpos := q.length_spelling_pos
    simp only [Option.elim_some, bind_assoc, pure_bind]
    rw [show q.spelling.length = q.spelling.length - 1 + 1 by omega, List.drop_succ_cons,
      Nat.add_sub_cancel]

theorem printfLoop_scans (a : Args) : Scans consputc (performs a) (printfLoop a) := by
  refine ⟨?_, ?_, fun {c r} h0 hc => ?_, fun {c r q} h0 hq => ?_, fun {r} hq => ?_,
    fun {c r} h0 hc hq => ?_⟩
  · rw [printfLoop]
    rfl
  · rw [printfLoop]
    rfl
  · have hb : byte (c :: r) 0 = c := rfl
    rw [printfLoop]
    simp only [hb, dif_neg h0, if_pos hc, List.drop_succ_cons, List.drop_zero]
  · rw [printfLoop_percent h0, hq, Option.elim_some]
  · rw [printfLoop_percent (by decide), hq, Option.elim_none, other, if_pos rfl]
    simp only [bind_assoc, pure_bind]
    rfl
  · rw [printfLoop_percent h0, hq, Option.elim_none, other, if_neg hc, if_neg h0]
    simp only [bind_assoc, pure_bind]
    rfl

/-- Each conversion shows the number that its argument is and no store misses `buf`, if and only if
every argument fits. -/
theorem printf_prints (a : Args) (fmt : CString) (s : State) :
    printf a fmt s =
        .ok (0, ⟨s.out ++ text digits a (parse fmt.1) 0, (convs (parse fmt.1)).length⟩) ↔
      ∀ i len kind, (convs (parse fmt.1))[i]? = some (.num len kind) → Fits len kind (a.slot i) := by
  have hrun : Emits (do printfLoop a fmt.1; return (0 : Int)) ⟨s.out, 0⟩ _ _ 0 :=
    ((printfLoop_scans a).emits emits_consputc fmt.2 ⟨s.out, 0⟩).seq fun _ => Emits.pure
  rw [joined_ok_nil, Nat.zero_add] at hrun
  have hiff := hrun.eq_ok_iff (l := text digits a (parse fmt.1) 0)
  rw [Nat.zero_add, printed_eq_text_iff table one_ne_zero ?_] at hiff
  · rw [show printf a fmt s = (do printfLoop a fmt.1; return (0 : Int)) ⟨s.out, 0⟩ from rfl, hiff]
    simp only [AllFit, Nat.zero_add, shows_iff_fits]
  · intro len kind w
    rw [one_mul, one_mul]
    exact_mod_cast length_numeral_mono (natAbs_value_le len kind w)

/-- A negative `int`, a pointer and a `uint64` of sixteen digits. -/
theorem printf_prints_three :
    printf (words [0xffffffff, 0x80001000, 9999999999999999])
        ⟨ascii "%d at %p: %lu%%", by decide⟩ ⟨[], 7⟩ =
      .ok (0, ⟨ascii "-1 at 0x0000000080001000: 9999999999999999%", 3⟩) := by
  have hconvs : convs (parse (ascii "%d at %p: %lu%%")) = [.num .int .d, .p, .num .long .u] := by
    decide +kernel
  refine ((printf_prints _ _ _).2 ?_).trans (by decide +kernel)
  rw [hconvs]
  intro i len kind hi
  rcases i with _ | _ | _ | i
  · cases hi
    trivial
  · cases hi
  · cases hi
    exact (by decide : (9999999999999999 : UInt64).toNat < 10 ^ 16)
  · cases hi

/-- An unsigned argument with its top bit set is shown as a 64-bit number, of which `buf` does not
hold the decimal digits; nor does it hold a long number of seventeen characters. -/
theorem printf_unsigned_extended :
    printf (words [0xffffffff]) ⟨ascii "%u", by decide⟩ ⟨[], 0⟩ = .error ⟨16⟩ ∧
    printf (words [0x80000000]) ⟨ascii "%x", by decide⟩ ⟨[], 0⟩ =
      .ok (0, ⟨ascii "ffffffff80000000", 1⟩) ∧
    text digits (words [0x80000000]) (parse (ascii "%x")) 0 = ascii "80000000" ∧
    printf (words [(-1000000000000000 : Int64).toUInt64]) ⟨ascii "%ld", by decide⟩ ⟨[], 0⟩ =
      .error ⟨16⟩ := by
  refine ⟨?_, ?_, ?_, ?_⟩ <;> decide +kernel

end Xv6.Printf.Kernel
