import Xv6.Vm.Copy

set_option autoImplicit false

/-! # User memory

A page table makes a memory of the pages its leaves refer to: the byte at a virtual address is in the
page that the entry for the address names. When the leaves are different pages, and none of them is a
page of the table, a byte of that memory is written without changing another. `copyout`, `copyin` and
`copyinstr` are described as operations on it; the page boundaries only matter for what a failed call
has copied. -/

namespace Xv6.Vm

open Wp
open Bytes (Byte)

variable {a w : Word} {ok : Bool} {bytes : List Byte} {j L : Nat} {E : String → Prop}

/-! ## Addresses -/

/-- The address `k` bytes on. -/
def plus (a : Word) (k : Nat) : Word := a + BitVec.ofNat 64 k

theorem plus_zero (a : Word) : plus a 0 = a := BitVec.add_zero a

theorem plus_plus (a : Word) (j k : Nat) : plus (plus a j) k = plus a (j + k) := by
  unfold plus
  rw [BitVec.add_assoc, ← BitVec.ofNat_add]

theorem plus_inj {k : Nat} (hj : j < 2 ^ 64) (hk : k < 2 ^ 64) (h : plus a j = plus a k) :
    j = k := by
  have h := congrArg BitVec.toNat ((BitVec.add_right_inj a).mp h)
  rwa [BitVec.toNat_ofNat, BitVec.toNat_ofNat, Nat.mod_eq_of_lt hj, Nat.mod_eq_of_lt hk] at h

theorem PGROUNDDOWN_eq (a : Word) : PGROUNDDOWN a = (a >>> 12) <<< 12 := by
  have hmask : PGSIZE - 1 = BitVec.ofNat 64 (2 ^ 12 - 1) := rfl
  apply BitVec.eq_of_getLsbD_eq
  intro i hi
  rw [PGROUNDDOWN, hmask, BitVec.getLsbD_and, BitVec.getLsbD_not, BitVec.getLsbD_ofNat,
    Nat.testBit_two_pow_sub_one, BitVec.getLsbD_shiftLeft, BitVec.getLsbD_ushiftRight]
  by_cases h12 : i < 12
  · simp [hi, h12]
  · simp [hi, h12, Nat.add_sub_cancel' (Nat.le_of_not_lt h12)]

theorem toNat_PGROUNDDOWN (a : Word) : (PGROUNDDOWN a).toNat = a.toNat / 4096 * 4096 := by
  rw [PGROUNDDOWN_eq, BitVec.toNat_shiftLeft, BitVec.toNat_ushiftRight, Nat.shiftRight_eq_div_pow,
    Nat.shiftLeft_eq]
  have := a.isLt
  omega

theorem toNat_offset (a : Word) : (a - PGROUNDDOWN a).toNat = a.toNat % 4096 := by
  have hround := toNat_PGROUNDDOWN a
  have hle : PGROUNDDOWN a ≤ a := by
    rw [BitVec.le_def, hround]
    omega
  rw [BitVec.toNat_sub_of_le hle, hround]
  omega

theorem toNat_room (a : Word) : (PGSIZE - (a - PGROUNDDOWN a)).toNat = 4096 - a.toNat % 4096 := by
  have hoff := toNat_offset a
  have hsize : PGSIZE.toNat = 4096 := rfl
  have hle : a - PGROUNDDOWN a ≤ PGSIZE := by
    rw [BitVec.le_def, hoff, hsize]
    omega
  rw [BitVec.toNat_sub_of_le hle, hoff, hsize]

theorem toNat_chunk (a len : Word) :
    (chunk a len).toNat = min len.toNat (4096 - a.toNat % 4096) := by
  have hroom := toNat_room a
  unfold chunk
  by_cases hlt : len < PGSIZE - (a - PGROUNDDOWN a)
  · rw [if_pos hlt]
    rw [BitVec.lt_def, hroom] at hlt
    omega
  · rw [if_neg hlt, hroom]
    rw [BitVec.lt_def, hroom] at hlt
    omega

theorem next_page (a : Word) : PGROUNDDOWN a + PGSIZE = plus a (4096 - a.toNat % 4096) := by
  apply BitVec.eq_of_toNat_eq
  rw [plus, BitVec.toNat_add, BitVec.toNat_add, toNat_PGROUNDDOWN, BitVec.toNat_ofNat]
  have hsize : PGSIZE.toNat = 4096 := rfl
  rw [hsize]
  omega

theorem vpn_plus {k : Nat} (h : a.toNat % 4096 + k < 4096) :
    vpn (plus a k) = vpn a ∧ (plus a k).toNat % 4096 = a.toNat % 4096 + k := by
  have hlt := a.isLt
  have hsum : (plus a k).toNat = a.toNat + k := by
    rw [plus, BitVec.toNat_add, BitVec.toNat_ofNat]
    omega
  unfold vpn
  rw [hsum]
  omega

theorem vpn_PGROUNDDOWN (a : Word) : vpn (PGROUNDDOWN a) = vpn a := by
  unfold vpn
  rw [toNat_PGROUNDDOWN]
  omega

theorem PGROUNDDOWN_lt : PGROUNDDOWN a < MAXVA ↔ a < MAXVA := by
  rw [← vpn_lt_iff, vpn_PGROUNDDOWN, vpn_lt_iff]

/-- What one turn of a copying loop takes: all that is left, or the rest of the page. -/
structure Turn (a len : Word) (n : Nat) : Prop where
  pos : 0 < n
  le : n ≤ len.toNat
  fits : a.toNat % 4096 + n ≤ 4096
  left : (len - chunk a len).toNat = len.toNat - n
  next : n < len.toNat → PGROUNDDOWN a + PGSIZE = plus a n ∧ Aligned (plus a n)

theorem turn_chunk (a : Word) {len : Word} (h : len > 0) : Turn a len (chunk a len).toNat := by
  have hchunk := toNat_chunk a len
  have hpos : 0 < len.toNat := h
  have hmod : a.toNat % 4096 < 4096 := Nat.mod_lt _ (by decide)
  refine ⟨by omega, by omega, by omega, ?_, fun hlt => ?_⟩
  · have hle : chunk a len ≤ len := by
      rw [BitVec.le_def, hchunk]
      omega
    exact BitVec.toNat_sub_of_le hle
  · have hn : (chunk a len).toNat = 4096 - a.toNat % 4096 := by omega
    rw [hn, ← next_page]
    refine ⟨rfl, ?_⟩
    have hround := toNat_PGROUNDDOWN a
    have hsize : PGSIZE.toNat = 4096 := rfl
    rw [Aligned, BitVec.toNat_add, hsize]
    omega

theorem Turn.same_page {len : Word} {n k : Nat} (h : Turn a len n) (hk : k < n) :
    vpn (plus a k) = vpn a ∧ (plus a k).toNat % 4096 = a.toNat % 4096 + k :=
  vpn_plus (by have := h.fits; omega)

/-! ## Bytes at virtual addresses -/

def KERNBASE : Word := 0x80000000

/-- The leaves refer to different pages of RAM, none of which is a page of the table. -/
structure UserTable (m : Word → Nat → Word) (root : Word) : Prop where
  table : Table m root
  ram : ∀ n < PAGES, ∀ w, lookup m root n = some w → KERNBASE ≤ PTE2PA w ∧ PTE2PA w < PHYSTOP
  distinct : ∀ n < PAGES, ∀ n' < PAGES, ∀ w w', lookup m root n = some w →
    lookup m root n' = some w' → PTE2PA w = PTE2PA w' → n = n'
  apart : ∀ n < PAGES, ∀ w, lookup m root n = some w → PTE2PA w ∉ nodes m root

/-- The address is on a page mapped with `PTE_V` and `PTE_U`. -/
def Readable (m : Word → Nat → Word) (root va : Word) : Prop :=
  va < MAXVA ∧ ∃ w, lookup m root (vpn va) = some w ∧ w &&& PTE_U ≠ 0

/-- The address is on a page mapped with `PTE_V`, `PTE_U` and `PTE_W`. -/
def Writable (m : Word → Nat → Word) (root va : Word) : Prop :=
  va < MAXVA ∧ ∃ w, lookup m root (vpn va) = some w ∧ w &&& PTE_U ≠ 0 ∧ w &&& PTE_W ≠ 0

/-- The byte at a virtual address. -/
def userByte (s : Mem) (root va : Word) : Option Byte :=
  if va < MAXVA then (lookup s.pte root (vpn va)).map fun w => s.byte (PTE2PA w) (va.toNat % 4096)
  else none

variable {m m' : Word → Nat → Word} {s s' s₁ s₂ : Mem} {root va va' : Word}

theorem Readable.congr (h : vpn va' = vpn va) : Readable m root va' ↔ Readable m root va := by
  unfold Readable
  rw [← vpn_lt_iff, ← vpn_lt_iff, h]

theorem Writable.congr (h : vpn va' = vpn va) : Writable m root va' ↔ Writable m root va := by
  unfold Writable
  rw [← vpn_lt_iff, ← vpn_lt_iff, h]

theorem Same.writable (h : Same m m' root) : Writable m' root va ↔ Writable m root va := by
  unfold Writable
  rw [h.lookup]

theorem Same.refl (h : Table m root) : Same m m root := h.same (fun _ _ => rfl)

theorem Same.trans {m'' : Word → Nat → Word} (h : Same m m' root) (h' : Same m' m'' root) :
    Same m m'' root :=
  ⟨h'.table, h'.nodes.trans h.nodes, fun n => (h'.leaf n).trans (h.leaf n),
    fun n => (h'.lookup n).trans (h.lookup n)⟩

theorem UserTable.congr (h : UserTable m root) (hs : Same m m' root) : UserTable m' root where
  table := hs.table
  ram n hn w hw := h.ram n hn w (by rwa [← hs.lookup])
  distinct n hn n' hn' w w' hw hw' :=
    h.distinct n hn n' hn' w w' (by rwa [← hs.lookup]) (by rwa [← hs.lookup])
  apart n hn w hw := by
    rw [hs.nodes]
    exact h.apart n hn w (by rwa [← hs.lookup])

theorem lookup_valid {n : Nat} (h : lookup m root n = some w) : valid w = true := by
  obtain ⟨x, _, hx⟩ := Option.bind_eq_some_iff.1 h
  split at hx
  · next hv =>
      cases hx
      exact hv
  · cases hx

theorem userByte_of_lookup (hva : va < MAXVA) (hw : lookup s.pte root (vpn va) = some w) :
    userByte s root va = some (s.byte (PTE2PA w) (va.toNat % 4096)) := by
  rw [userByte, if_pos hva, hw, Option.map_some]

/-- `walk` and a look at the entry; `c` is a check that an invalid entry does not pass. -/
theorem wp_walkPte {α : Type} {Q : α → Mem → Prop} {y : M α} {c : Word → Prop} [DecidablePred c]
    {k : Word → M α} (hva : va < MAXVA) (hc : ∀ w, valid w = false → c w)
    (hno : (∀ w, lookup s.pte root (vpn va) = some w → c w) → wp y Q E s)
    (hyes : ∀ w, lookup s.pte root (vpn va) = some w → ¬ c w → wp (k w) Q E s) :
    wp (do
      match ← walk root va false with
      | none => y
      | some (page, i) =>
        let pte := (← get).pte page i
        if c pte then y else k pte) Q E s := by
  rw [wp, bind_of_ok (walk_false hva), ← wp]
  cases hx : leaf s.pte root (vpn va) with
  | none =>
    refine hno (fun w hw => ?_)
    rw [lookup, hx] at hw
    cases hw
  | some x =>
    dsimp only [Option.map_some]
    rw [wp_bind, wp_get, wp_ite]
    have hlookup : lookup s.pte root (vpn va) =
        if valid (s.pte x (vpn va % 512)) then some (s.pte x (vpn va % 512)) else none := by
      rw [lookup, hx, Option.bind_some]
    refine ⟨fun hcw => hno (fun w hw => ?_), fun hcw => ?_⟩
    · rw [hlookup] at hw
      split at hw
      · cases hw
        exact hcw
      · cases hw
    · by_cases hv : valid (s.pte x (vpn va % 512)) = true
      · exact hyes _ (by rw [hlookup, if_pos hv]) hcw
      · exact absurd (hc _ (by simpa using hv)) hcw

/-- `walkaddr` finds the readable pages. -/
theorem UserTable.wp_walkaddr {Q : Word → Mem → Prop} (h : UserTable s.pte root)
    (hno : ¬ Readable s.pte root va → Q 0 s)
    (hyes : ∀ w, lookup s.pte root (vpn va) = some w → Readable s.pte root va → PTE2PA w ≠ 0 →
      Q (PTE2PA w) s) : wp (walkaddr root va) Q E s := by
  unfold walkaddr
  rw [wp_ite]
  refine ⟨fun hva => hno (fun hr => ?_), fun hva => ?_⟩
  · exact absurd hr.1 (BitVec.not_lt.2 hva)
  · have hva : va < MAXVA := BitVec.not_le.1 hva
    refine wp_walkPte (y := pure 0) (c := fun w => (!valid w) = true)
      (k := fun w => if w &&& PTE_U = 0 then pure 0 else pure (PTE2PA w)) hva
      (fun w hw => by simp [hw]) (fun hinv => hno ?_) (fun w hw hv => ?_)
    · rintro ⟨_, w, hw, hu⟩
      have := hinv w hw
      rw [lookup_valid hw] at this
      cases this
    · rw [wp_ite]
      refine ⟨fun hu => hno ?_, fun hu => hyes w hw ⟨hva, w, hw, hu⟩ (fun h0 => ?_)⟩
      · rintro ⟨_, w', hw', hu'⟩
        rw [hw] at hw'
        cases hw'
        exact hu' hu
      · have hram := (h.ram _ (vpn_lt hva) w hw).1
        rw [h0] at hram
        exact absurd hram (by decide)

/-! ## `copyout` -/

/-- `n` bytes have been written from `dstva` on, and nothing else. -/
structure Copied (s s' : Mem) (root dstva : Word) (src : Nat → Byte) (n : Nat) : Prop where
  same : Same s.pte s'.pte root
  bytes : ∀ k < n, userByte s' root (plus dstva k) = some (src k)
  other : ∀ va, (∀ k < n, va ≠ plus dstva k) → userByte s' root va = userByte s root va
  /-- Pages that are not written stay. -/
  pages : ∀ x, (∀ k < n, ∀ w, lookup s.pte root (vpn (plus dstva k)) = some w → x ≠ PTE2PA w) →
    s'.pte x = s.pte x
  freelist : s'.freelist = s.freelist
  fails : s'.fails = s.fails

variable {dstva srcva len : Word} {src : Nat → Byte} {n fuel : Nat}

theorem Copied.zero (h : Table s.pte root) (dstva : Word) (src : Nat → Byte) :
    Copied s s root dstva src 0 :=
  ⟨Same.refl h, fun _ hk => absurd hk (Nat.not_lt_zero _), fun _ _ => rfl, fun _ _ => rfl, rfl, rfl⟩

theorem Copied.append (h : Copied s s₁ root dstva src n)
    (h' : Copied s₁ s₂ root (plus dstva n) (fun k => src (n + k)) j) (hlt : n + j < 2 ^ 64) :
    Copied s s₂ root dstva src (n + j) := by
  have hsplit : ∀ k, k < n + j → k < n ∨ ∃ i < j, k = n + i := by
    intro k hk
    by_cases hkn : k < n
    · exact Or.inl hkn
    · exact Or.inr ⟨k - n, by omega, by omega⟩
  refine ⟨h.same.trans h'.same, fun k hk => ?_, fun va hva => ?_, fun x hx => ?_,
    h'.freelist.trans h.freelist, h'.fails.trans h.fails⟩
  · rcases hsplit k hk with hkn | ⟨i, hi, rfl⟩
    · rw [h'.other _ (fun i hi he => ?_), h.bytes k hkn]
      rw [plus_plus] at he
      have := plus_inj (by omega) (by omega) he
      omega
    · rw [← plus_plus, h'.bytes i hi]
  · rw [h'.other va (fun i hi => by rw [plus_plus]; exact hva _ (by omega)),
      h.other va (fun k hk => hva k (by omega))]
  · rw [h'.pages x (fun i hi w hw => ?_), h.pages x (fun k hk => hx k (by omega))]
    rw [plus_plus, h.same.lookup] at hw
    exact hx _ (by omega) w hw

/-- One turn: the bytes of one page. -/
theorem UserTable.put (h : UserTable s.pte root) (hva : dstva < MAXVA)
    (hw : lookup s.pte root (vpn dstva) = some w) (hn : dstva.toNat % 4096 + n ≤ 4096)
    (src : Nat → Byte) :
    Copied s (s.put (PTE2PA w) (dstva.toNat % 4096) n src) root dstva src n := by
  have hne : ∀ x, x ≠ PTE2PA w → (s.put (PTE2PA w) (dstva.toNat % 4096) n src).pte x = s.pte x := by
    intro x hx
    rw [Mem.put_pte, Function.update_of_ne hx]
  have hnode : ∀ x ∈ nodes s.pte root, x ≠ PTE2PA w := by
    rintro x hx rfl
    exact h.apart _ (vpn_lt hva) w hw hx
  have hsame : Same s.pte (s.put (PTE2PA w) (dstva.toNat % 4096) n src).pte root :=
    h.table.same (fun x hx => hne x (hnode x hx))
  have hbyte : ∀ j, (s.put (PTE2PA w) (dstva.toNat % 4096) n src).byte (PTE2PA w) j =
      if dstva.toNat % 4096 ≤ j ∧ j < dstva.toNat % 4096 + n then src (j - dstva.toNat % 4096)
      else s.byte (PTE2PA w) j := by
    intro j
    unfold Mem.byte
    rw [Mem.put_pte, Function.update_self]
    exact Bytes.get_put ..
  have hpage : ∀ k, k < n → vpn (plus dstva k) = vpn dstva ∧
      (plus dstva k).toNat % 4096 = dstva.toNat % 4096 + k := fun k hk => vpn_plus (by omega)
  refine ⟨hsame, fun k hk => ?_, fun va hout => ?_, fun x hx => ?_, rfl, rfl⟩
  · obtain ⟨hvpn, hoff⟩ := hpage k hk
    have hlt : plus dstva k < MAXVA := by rwa [← vpn_lt_iff, hvpn, vpn_lt_iff]
    rw [userByte_of_lookup hlt (by rw [hsame.lookup, hvpn, hw]), hoff, hbyte,
      if_pos ⟨Nat.le_add_right _ _, by omega⟩, Nat.add_sub_cancel_left]
  · unfold userByte
    rw [hsame.lookup]
    by_cases hlt : va < MAXVA
    · rw [if_pos hlt, if_pos hlt]
      cases hw' : lookup s.pte root (vpn va) with
      | none => rw [Option.map_none, Option.map_none]
      | some w' =>
        rw [Option.map_some, Option.map_some]
        by_cases hvpn : vpn va = vpn dstva
        · rw [hvpn, hw] at hw'
          cases hw'
          have hva' : ∀ k, k < n → va.toNat % 4096 ≠ dstva.toNat % 4096 + k := by
            intro k hk he
            refine hout k hk (BitVec.eq_of_toNat_eq ?_)
            obtain ⟨h1, h2⟩ := hpage k hk
            unfold vpn at h1 hvpn
            omega
          rw [hbyte, if_neg]
          intro hin
          exact hva' (va.toNat % 4096 - dstva.toNat % 4096) (by omega) (by omega)
        · have hx : PTE2PA w' ≠ PTE2PA w := fun he =>
            hvpn (h.distinct _ (vpn_lt hlt) _ (vpn_lt hva) w' w hw' hw he)
          unfold Mem.byte
          rw [hne _ hx]
    · rw [if_neg hlt, if_neg hlt]
  · by_cases hn0 : n = 0
    · subst hn0
      by_cases hxw : x = PTE2PA w
      · rw [hxw]
        refine Bytes.ext_get (fun j => ?_)
        have := hbyte j
        rwa [if_neg (by omega)] at this
      · exact hne x hxw
    · refine hne x (hx 0 (by omega) w ?_)
      rw [plus_zero]
      exact hw

/-- What `copyout` has done: all of the range, or the part before the first page that is missing. -/
structure CopiedOut (s s' : Mem) (root dstva : Word) (src : Nat → Byte) (len : Nat) (ok : Bool)
    (n : Nat) : Prop where
  copied : Copied s s' root dstva src n
  writable : ∀ k < n, Writable s.pte root (plus dstva k)
  done : ok = true → n = len
  stopped : ok = false → n < len ∧ ¬ Writable s.pte root (plus dstva n) ∧
    (n = 0 ∨ Aligned (plus dstva n))

/-- The first page is missing. -/
theorem CopiedOut.stop (h : Table s.pte root) (src : Nat → Byte) {len : Nat} (hlen : 0 < len)
    (hno : ¬ Writable s.pte root dstva) : CopiedOut s s root dstva src len false 0 where
  copied := Copied.zero h dstva src
  writable _ hk := absurd hk (Nat.not_lt_zero _)
  done hok := absurd hok (by decide)
  stopped _ := ⟨hlen, by rwa [plus_zero], Or.inl rfl⟩

/-- One page, and what follows it. -/
theorem CopiedOut.cons (hturn : Turn dstva len n) (hw : Writable s.pte root dstva)
    (h : Copied s s₁ root dstva src n) (hL : L = len.toNat - n)
    (h' : CopiedOut s₁ s₂ root (plus dstva n) (fun k => src (n + k)) L ok j) (hj : j ≤ L) :
    CopiedOut s s₂ root dstva src len.toNat ok (n + j) := by
  have hle := hturn.le
  have hlt := len.isLt
  refine ⟨h.append h'.copied (by omega), fun k hk => ?_, fun hok => ?_, fun hok => ?_⟩
  · by_cases hkn : k < n
    · exact (Writable.congr (hturn.same_page hkn).1).2 hw
    · have hwr := h'.writable (k - n) (by omega)
      rw [plus_plus, Nat.add_sub_cancel' (Nat.le_of_not_lt hkn)] at hwr
      exact h.same.writable.1 hwr
  · have := h'.done hok
    omega
  · obtain ⟨h1, h2, h3⟩ := h'.stopped hok
    rw [plus_plus, h.same.writable] at h2
    refine ⟨by omega, h2, Or.inr ?_⟩
    rcases h3 with rfl | h3
    · exact (hturn.next (by omega)).2
    · rwa [plus_plus] at h3

/-- When nothing is left, the address does not matter. -/
theorem CopiedOut.move (h : CopiedOut s s' root a src 0 ok j) (hj : j ≤ 0) (b : Word) :
    CopiedOut s s' root b src 0 ok j := by
  obtain rfl : j = 0 := Nat.le_zero.1 hj
  have hnone : ∀ {P : Nat → Prop}, ∀ k < 0, P k := fun _ hk => absurd hk (Nat.not_lt_zero _)
  have hc := h.copied
  exact ⟨⟨hc.same, hnone, fun va _ => hc.other va hnone, fun x _ => hc.pages x hnone, hc.freelist,
    hc.fails⟩, hnone, h.done, fun hok => absurd (h.stopped hok).1 (Nat.lt_irrefl 0)⟩

theorem UserTable.wp_copyoutLoop (h : UserTable s.pte root) (hfuel : len.toNat < fuel) :
    wp (copyoutLoop root fuel dstva src len) (fun ok s' => ∃ n ≤ len.toNat,
      CopiedOut s s' root dstva src len.toNat ok n) E s := by
  induction fuel generalizing s dstva src len with
  | zero => omega
  | succ fuel ih =>
    rw [copyoutLoop, wp_ite]
    refine ⟨fun hlen => ?_, fun hlen => ?_⟩
    · have hturn := turn_chunk dstva hlen
      have hpos : 0 < len.toNat := hlen
      have hn := hturn.pos
      have hstop : ¬ Writable s.pte root dstva → ∃ n ≤ len.toNat,
          CopiedOut s s root dstva src len.toNat false n :=
        fun hno => ⟨0, Nat.zero_le _, CopiedOut.stop h.table src hpos hno⟩
      rw [wp_ite]
      refine ⟨fun hva => hstop (fun hw => ?_), fun hva => ?_⟩
      · exact absurd (PGROUNDDOWN_lt.2 hw.1) (BitVec.not_lt.2 hva)
      have hva₀ : PGROUNDDOWN dstva < MAXVA := BitVec.not_le.1 hva
      have hva : dstva < MAXVA := PGROUNDDOWN_lt.1 hva₀
      refine wp_walkPte (y := pure false)
        (c := fun w => (!valid w) = true ∨ w &&& PTE_U = 0 ∨ w &&& PTE_W = 0)
        (k := fun w => do
          modify fun s => s.put (PTE2PA w) (dstva - PGROUNDDOWN dstva).toNat (chunk dstva len).toNat
            src
          copyoutLoop root fuel (PGROUNDDOWN dstva + PGSIZE)
            (fun k => src ((chunk dstva len).toNat + k)) (len - chunk dstva len)) hva₀
        (fun w hw => Or.inl (by simp [hw])) (fun hno => hstop ?_) (fun w hw hok => ?_)
      · rintro ⟨_, w, hw, hu, hwr⟩
        rcases hno w (by rw [vpn_PGROUNDDOWN]; exact hw) with hv | h0 | h0
        · rw [lookup_valid hw] at hv
          cases hv
        · exact hu h0
        · exact hwr h0
      · rw [vpn_PGROUNDDOWN] at hw
        have hput : Copied s (s.put (PTE2PA w) (dstva - PGROUNDDOWN dstva).toNat
            (chunk dstva len).toNat src) root dstva src (chunk dstva len).toNat := by
          rw [toNat_offset]
          exact h.put hva hw hturn.fits src
        have hwritable : Writable s.pte root dstva :=
          ⟨hva, w, hw, fun h0 => hok (Or.inr (Or.inl h0)), fun h0 => hok (Or.inr (Or.inr h0))⟩
        rw [wp_bind, wp_modify]
        refine (ih (h.congr hput.same) (by rw [hturn.left]; omega)).mono (fun ok s' => ?_)
          (fun _ he => he)
        rintro ⟨j, hj, hrest⟩
        rw [hturn.left] at hj hrest
        refine ⟨_, by have := hturn.le; omega, CopiedOut.cons hturn hwritable hput rfl ?_ hj⟩
        by_cases hlast : (chunk dstva len).toNat < len.toNat
        · rwa [(hturn.next hlast).1] at hrest
        · rw [Nat.sub_eq_zero_of_le (Nat.le_of_not_lt hlast)] at hj hrest ⊢
          exact hrest.move hj _
    · have hzero : len.toNat = 0 := Nat.eq_zero_of_not_pos hlen
      refine ⟨0, Nat.zero_le _, Copied.zero h.table dstva src, ?_, ?_, ?_⟩
      · exact fun _ hk => absurd hk (Nat.not_lt_zero _)
      · exact fun _ => hzero.symm
      · exact fun hok => absurd hok (by decide)

/-! ## `copyin` -/

/-- The bytes at `srcva`, as far as they can be read. -/
structure Fetched (s : Mem) (root srcva : Word) (bytes : List Byte) : Prop where
  byte : ∀ k < bytes.length, userByte s root (plus srcva k) = bytes[k]?
  readable : ∀ k < bytes.length, Readable s.pte root (plus srcva k)

theorem Fetched.nil (s : Mem) (root srcva : Word) : Fetched s root srcva [] :=
  ⟨fun _ hk => absurd hk (Nat.not_lt_zero _), fun _ hk => absurd hk (Nat.not_lt_zero _)⟩

theorem Fetched.append {xs ys : List Byte} (h : Fetched s root srcva xs)
    (h' : Fetched s root (plus srcva xs.length) ys) : Fetched s root srcva (xs ++ ys) := by
  refine ⟨fun k hk => ?_, fun k hk => ?_⟩ <;> rw [List.length_append] at hk <;>
    by_cases hkx : k < xs.length
  · rw [List.getElem?_append_left hkx, h.byte k hkx]
  · have hrest := h'.byte (k - xs.length) (by omega)
    rw [plus_plus, Nat.add_sub_cancel' (Nat.le_of_not_lt hkx)] at hrest
    rw [List.getElem?_append_right (Nat.le_of_not_lt hkx), hrest]
  · exact h.readable k hkx
  · have hrest := h'.readable (k - xs.length) (by omega)
    rwa [plus_plus, Nat.add_sub_cancel' (Nat.le_of_not_lt hkx)] at hrest

/-- The bytes of one page. -/
theorem Fetched.page (hturn : Turn srcva len n) (hj : j ≤ n)
    (hw : lookup s.pte root (vpn srcva) = some w) (hr : Readable s.pte root srcva) :
    Fetched s root srcva
      ((List.range j).map fun k => s.byte (PTE2PA w) (srcva.toNat % 4096 + k)) := by
  refine ⟨fun k hk => ?_, fun k hk => ?_⟩ <;> rw [List.length_map, List.length_range] at hk <;>
    obtain ⟨hvpn, hoff⟩ := hturn.same_page (Nat.lt_of_lt_of_le hk hj)
  · have hlt : plus srcva k < MAXVA := by rw [← vpn_lt_iff, hvpn, vpn_lt_iff]; exact hr.1
    rw [userByte_of_lookup hlt (by rw [hvpn, hw]), hoff]
    simp [hk]
  · exact (Readable.congr hvpn).2 hr

/-- What `copyin` has stored: all of the range, or the part before the first page that is missing. -/
structure CopiedIn (s : Mem) (root srcva : Word) (len : Nat) (ok : Bool) (bytes : List Byte) :
    Prop where
  fetched : Fetched s root srcva bytes
  done : ok = true → bytes.length = len
  stopped : ok = false → bytes.length < len ∧ ¬ Readable s.pte root (plus srcva bytes.length) ∧
    (bytes.length = 0 ∨ Aligned (plus srcva bytes.length))

/-- The first page is missing. -/
theorem CopiedIn.stop {len : Nat} (hlen : 0 < len) (hno : ¬ Readable s.pte root srcva) :
    CopiedIn s root srcva len false [] where
  fetched := Fetched.nil s root srcva
  done hok := by cases hok
  stopped _ := ⟨hlen, by rwa [List.length_nil, plus_zero], Or.inl rfl⟩

/-- One page, and what follows it. -/
theorem CopiedIn.cons {first rest : List Byte} (hturn : Turn srcva len first.length)
    (h : Fetched s root srcva first)
    (h' : CopiedIn s root (plus srcva first.length) (len.toNat - first.length) ok rest) :
    CopiedIn s root srcva len.toNat ok (first ++ rest) := by
  have hle := hturn.le
  refine ⟨h.append h'.fetched, fun hok => ?_, fun hok => ?_⟩ <;> rw [List.length_append]
  · have := h'.done hok
    omega
  · obtain ⟨h1, h2, h3⟩ := h'.stopped hok
    rw [plus_plus] at h2 h3
    refine ⟨by omega, h2, Or.inr ?_⟩
    rcases h3 with h3 | h3
    · rw [h3]
      exact (hturn.next (by omega)).2
    · exact h3

/-- When nothing is left, the address does not matter. -/
theorem CopiedIn.move (h : CopiedIn s root a 0 ok bytes) (b : Word) :
    CopiedIn s root b 0 ok bytes := by
  cases ok with
  | false => exact absurd (h.stopped rfl).1 (Nat.not_lt_zero _)
  | true =>
    obtain rfl : bytes = [] := List.eq_nil_of_length_eq_zero (h.done rfl)
    exact ⟨Fetched.nil s root b, fun _ => rfl, fun hok => by cases hok⟩

theorem UserTable.wp_copyinLoop {out : List Byte} (h : UserTable s.pte root)
    (hfuel : len.toNat < fuel) :
    wp (copyinLoop root fuel srcva len out) (fun r s' => s' = s ∧ ∃ bytes, r.2 = out ++ bytes ∧
      CopiedIn s root srcva len.toNat r.1 bytes) E s := by
  induction fuel generalizing srcva len out with
  | zero => omega
  | succ fuel ih =>
    rw [copyinLoop, wp_ite]
    refine ⟨fun hlen => ?_, fun hlen => ?_⟩
    · have hturn := turn_chunk srcva hlen
      have hpos : 0 < len.toNat := hlen
      have hn := hturn.pos
      rw [wp_bind]
      refine h.wp_walkaddr (fun hno => ?_) (fun w hw hr h0 => ?_)
      · rw [if_pos rfl]
        rw [Readable.congr (vpn_PGROUNDDOWN srcva)] at hno
        exact ⟨rfl, [], (List.append_nil out).symm, CopiedIn.stop hpos hno⟩
      · rw [vpn_PGROUNDDOWN] at hw
        rw [Readable.congr (vpn_PGROUNDDOWN srcva)] at hr
        have hpage := Fetched.page hturn (Nat.le_refl _) hw hr
        rw [if_neg h0, wp_bind, wp_get, toNat_offset]
        refine (ih (by rw [hturn.left]; omega)).mono (fun r s' => ?_) (fun _ he => he)
        rintro ⟨rfl, rest, hout, hrest⟩
        refine ⟨rfl, _, by rw [hout, List.append_assoc], CopiedIn.cons ?_ hpage ?_⟩ <;>
          rw [List.length_map, List.length_range]
        · exact hturn
        · rw [hturn.left] at hrest
          by_cases hlast : (chunk srcva len).toNat < len.toNat
          · rwa [(hturn.next hlast).1] at hrest
          · rw [Nat.sub_eq_zero_of_le (Nat.le_of_not_lt hlast)] at hrest ⊢
            exact hrest.move _
    · refine ⟨rfl, [], (List.append_nil out).symm, Fetched.nil s root srcva, fun _ => ?_,
        fun hok => by cases hok⟩
      exact (Nat.eq_zero_of_not_pos hlen).symm

/-! ## `copyinstr` -/

/-- The inner loop stops at the first NUL of the page, or has stored all `n` bytes. -/
inductive PageCopied (byte : Nat → Byte) (n p : Nat) (max : Word) (out : List Byte) :
    Bool × Word × List Byte → Prop where
  | null (k : Nat) (hk : k < n) (hz : byte (p + k) = 0) (hne : ∀ i < k, byte (p + i) ≠ 0)
      (max' : Word) : PageCopied byte n p max out
        (true, max', out ++ (List.range (k + 1)).map fun i => byte (p + i))
  | rest (hne : ∀ k < n, byte (p + k) ≠ 0) : PageCopied byte n p max out
      (false, max - BitVec.ofNat 64 n, out ++ (List.range n).map fun i => byte (p + i))

theorem map_range_succ_add (byte : Nat → Byte) (p j : Nat) :
    (List.range (j + 1)).map (fun i => byte (p + i)) =
      byte p :: (List.range j).map fun i => byte (p + 1 + i) := by
  rw [List.range_succ_eq_map, List.map_cons, List.map_map, Nat.add_zero]
  refine congrArg _ (List.map_congr_left (fun i _ => ?_))
  show byte (p + (i + 1)) = byte (p + 1 + i)
  rw [Nat.add_assoc, Nat.add_comm i 1]

theorem copyPage_copied (byte : Nat → Byte) (n p : Nat) (max : Word) (out : List Byte) :
    PageCopied byte n p max out (copyPage byte n p max out) := by
  induction n generalizing p max out with
  | zero =>
    have h : PageCopied byte 0 p max out _ :=
      .rest (fun k hk => absurd hk (Nat.not_lt_zero k))
    simpa [copyPage] using h
  | succ n ih =>
    have hshift : ∀ k, byte (p + 1 + k) = byte (p + (k + 1)) := fun k => by
      rw [Nat.add_assoc, Nat.add_comm 1 k]
    rw [copyPage]
    by_cases h0 : byte p = 0
    · have h : PageCopied byte (n + 1) p max out _ :=
        .null 0 (Nat.succ_pos n) h0 (fun _ hi => absurd hi (Nat.not_lt_zero _)) max
      rw [map_range_succ_add, h0] at h
      rw [if_pos h0]
      exact h
    · have hne' : ∀ {m}, (∀ i < m, byte (p + 1 + i) ≠ 0) → ∀ i < m + 1, byte (p + i) ≠ 0 := by
        intro m hne i hi
        cases i with
        | zero => exact h0
        | succ i =>
          rw [← hshift]
          exact hne i (by omega)
      rw [if_neg h0]
      have hrest := ih (p + 1) (max - 1) (out ++ [byte p])
      generalize copyPage byte n (p + 1) (max - 1) (out ++ [byte p]) = r at hrest ⊢
      cases hrest with
      | null k hk hz hne max' =>
        have h : PageCopied byte (n + 1) p max out _ :=
          .null (k + 1) (Nat.succ_lt_succ hk) (by rw [← hshift, hz]) (hne' hne) max'
        rw [map_range_succ_add] at h
        rw [List.append_assoc]
        exact h
      | rest hne =>
        have h : PageCopied byte (n + 1) p max out _ := .rest (hne' hne)
        rw [map_range_succ_add, BitVec.ofNat_add, BitVec.add_comm, ← BitVec.sub_sub] at h
        rw [List.append_assoc]
        exact h

/-- What `copyinstr` has stored: a string, or as much of one as there is below `max`. -/
structure CopiedStr (s : Mem) (root srcva : Word) (max : Nat) (ok : Bool) (bytes : List Byte) :
    Prop where
  fetched : Fetched s root srcva bytes
  le : bytes.length ≤ max
  done : ok = true → ∃ str, bytes = str ++ [0] ∧ 0 ∉ str
  stopped : ok = false → 0 ∉ bytes ∧
    (bytes.length < max → ¬ Readable s.pte root (plus srcva bytes.length))

theorem CopiedStr.stop {max : Nat} (hno : ¬ Readable s.pte root srcva) :
    CopiedStr s root srcva max false [] where
  fetched := Fetched.nil s root srcva
  le := Nat.zero_le _
  done hok := by cases hok
  stopped _ := ⟨List.not_mem_nil, fun _ => by rwa [List.length_nil, plus_zero]⟩

theorem CopiedStr.cons {first rest : List Byte} (hturn : Turn srcva len first.length)
    (h : Fetched s root srcva first) (h0 : 0 ∉ first)
    (h' : CopiedStr s root (plus srcva first.length) (len.toNat - first.length) ok rest) :
    CopiedStr s root srcva len.toNat ok (first ++ rest) := by
  have hle := hturn.le
  have hle' := h'.le
  refine ⟨h.append h'.fetched, ?_, fun hok => ?_, fun hok => ⟨?_, fun hlt => ?_⟩⟩
  · rw [List.length_append]
    omega
  · obtain ⟨str, rfl, hstr⟩ := h'.done hok
    exact ⟨first ++ str, by rw [List.append_assoc], List.not_mem_append h0 hstr⟩
  · exact List.not_mem_append h0 (h'.stopped hok).1
  · rw [List.length_append] at hlt ⊢
    rw [← plus_plus]
    exact (h'.stopped hok).2 (by omega)

theorem CopiedStr.move (h : CopiedStr s root a 0 ok bytes) (b : Word) :
    CopiedStr s root b 0 ok bytes := by
  obtain rfl : bytes = [] := List.eq_nil_of_length_eq_zero (Nat.le_zero.1 h.le)
  exact ⟨Fetched.nil s root b, Nat.le_refl _, h.done,
    fun hok => ⟨List.not_mem_nil, fun hlt => absurd hlt (Nat.lt_irrefl 0)⟩⟩

theorem UserTable.wp_copyinstrLoop {max : Word} {out : List Byte} (h : UserTable s.pte root)
    (hfuel : max.toNat < fuel) :
    wp (copyinstrLoop root fuel srcva max out) (fun r s' => s' = s ∧ ∃ bytes, r.2 = out ++ bytes ∧
      CopiedStr s root srcva max.toNat r.1 bytes) E s := by
  induction fuel generalizing srcva max out with
  | zero => omega
  | succ fuel ih =>
    rw [copyinstrLoop, wp_ite]
    refine ⟨fun hmax => ?_, fun hmax => ?_⟩
    · have hturn := turn_chunk srcva hmax
      have hpos : 0 < max.toNat := hmax
      have hn := hturn.pos
      rw [wp_bind]
      refine h.wp_walkaddr (fun hno => ?_) (fun w hw hr h0 => ?_)
      · rw [if_pos rfl]
        rw [Readable.congr (vpn_PGROUNDDOWN srcva)] at hno
        exact ⟨rfl, [], (List.append_nil out).symm, CopiedStr.stop hno⟩
      · rw [vpn_PGROUNDDOWN] at hw
        rw [Readable.congr (vpn_PGROUNDDOWN srcva)] at hr
        rw [if_neg h0, wp_bind, wp_get, toNat_offset]
        dsimp only
        have hinner := copyPage_copied (s.byte (PTE2PA w)) (chunk srcva max).toNat
          (srcva.toNat % 4096) max out
        generalize copyPage (s.byte (PTE2PA w)) (chunk srcva max).toNat (srcva.toNat % 4096) max
          out = r at hinner ⊢
        cases hinner with
        | null k hk hz hne max' =>
          have hpage := Fetched.page hturn (Nat.succ_le_of_lt hk) hw hr
          rw [if_pos rfl]
          refine ⟨rfl, _, rfl, ⟨hpage, ?_, fun _ => ?_, fun hok => by cases hok⟩⟩
          · rw [List.length_map, List.length_range]
            have := hturn.le
            omega
          · refine ⟨(List.range k).map fun i => s.byte (PTE2PA w) (srcva.toNat % 4096 + i), ?_,
              fun hm => ?_⟩
            · rw [List.range_succ, List.map_append, List.map_singleton, hz]
            · obtain ⟨i, hi, he⟩ := List.mem_map.1 hm
              exact hne i (List.mem_range.1 hi) he
        | rest hne =>
          have hpage := Fetched.page hturn (Nat.le_refl _) hw hr
          rw [if_neg (by simp), BitVec.ofNat_toNat, BitVec.setWidth_eq]
          refine (ih (by rw [hturn.left]; omega)).mono (fun r s' => ?_) (fun _ he => he)
          rintro ⟨rfl, rest, hout, hrest⟩
          refine ⟨rfl, _, by rw [hout, List.append_assoc],
            CopiedStr.cons ?_ hpage (fun hm => ?_) ?_⟩
          · rw [List.length_map, List.length_range]
            exact hturn
          · obtain ⟨i, hi, he⟩ := List.mem_map.1 hm
            exact hne i (List.mem_range.1 hi) he
          · rw [hturn.left] at hrest
            rw [List.length_map, List.length_range]
            by_cases hlast : (chunk srcva max).toNat < max.toNat
            · rwa [(hturn.next hlast).1] at hrest
            · rw [Nat.sub_eq_zero_of_le (Nat.le_of_not_lt hlast)] at hrest ⊢
              exact hrest.move _
    · have hzero : max.toNat = 0 := Nat.eq_zero_of_not_pos hmax
      refine ⟨rfl, [], (List.append_nil out).symm, ⟨Fetched.nil s root srcva, Nat.zero_le _,
        (fun hok => by cases hok), fun _ => ⟨List.not_mem_nil, fun hlt => ?_⟩⟩⟩
      rw [hzero] at hlt
      exact absurd hlt (Nat.not_lt_zero _)

/-! ## What a caller gets -/

theorem CopiedOut.iff (h : CopiedOut s s' root dstva src L ok n) :
    ok = true ↔ ∀ k < L, Writable s.pte root (plus dstva k) := by
  cases ok with
  | true =>
    obtain rfl := h.done rfl
    exact ⟨fun _ => h.writable, fun _ => rfl⟩
  | false =>
    obtain ⟨hlt, hno, _⟩ := h.stopped rfl
    exact ⟨(fun hok => by cases hok), fun hall => absurd (hall n hlt) hno⟩

theorem CopiedIn.iff (h : CopiedIn s root srcva L ok bytes) :
    ok = true ↔ ∀ k < L, Readable s.pte root (plus srcva k) := by
  cases ok with
  | true =>
    obtain rfl := h.done rfl
    exact ⟨fun _ => h.fetched.readable, fun _ => rfl⟩
  | false =>
    obtain ⟨hlt, hno, _⟩ := h.stopped rfl
    exact ⟨(fun hok => by cases hok), fun hall => absurd (hall _ hlt) hno⟩

theorem CopiedIn.le (h : CopiedIn s root srcva L ok bytes) :
    bytes.length ≤ L := by
  cases ok with
  | true => exact Nat.le_of_eq (h.done rfl)
  | false => exact Nat.le_of_lt (h.stopped rfl).1

theorem CopiedStr.iff {max : Nat} (h : CopiedStr s root srcva max ok bytes) :
    ok = true ↔ ∃ k < max, (∀ j ≤ k, Readable s.pte root (plus srcva j)) ∧
      userByte s root (plus srcva k) = some 0 := by
  cases ok with
  | true =>
    obtain ⟨str, rfl, _⟩ := h.done rfl
    have hlen : (str ++ [0]).length = str.length + 1 := List.length_append
    have hle := h.le
    refine ⟨fun _ => ⟨str.length, by omega, fun j hj => h.fetched.readable j (by omega), ?_⟩,
      fun _ => rfl⟩
    rw [h.fetched.byte _ (by omega), List.getElem?_concat_length]
  | false =>
    obtain ⟨h0, hno⟩ := h.stopped rfl
    refine ⟨(fun hok => by cases hok), ?_⟩
    rintro ⟨k, hk, hread, hnul⟩
    by_cases hlt : k < bytes.length
    · rw [h.fetched.byte k hlt] at hnul
      exact absurd (List.mem_of_getElem? hnul) h0
    · exact absurd (hread _ (Nat.le_of_not_lt hlt)) (hno (by omega))

/-- Each copy returns, for every address and length, and says whether all of the range is there.
`copyout` changes the range and nothing else, or the part of it before a page boundary; `copyin` and
`copyinstr` change no user memory and store what is there. -/
theorem user_copies_exact (h : UserTable s.pte root) :
    (∀ dstva src len, ∃ ok s', copyout root dstva src len s = .ok (ok, s') ∧
      (ok = true ↔ ∀ k < len.toNat, Writable s.pte root (plus dstva k)) ∧
      ∃ n ≤ len.toNat, Copied s s' root dstva src n ∧ (ok = true → n = len.toNat) ∧
        (ok = false → n = 0 ∨ Aligned (plus dstva n))) ∧
    (∀ srcva len, ∃ ok out, copyin root srcva len s = .ok ((ok, out), s) ∧
      (ok = true ↔ ∀ k < len.toNat, Readable s.pte root (plus srcva k)) ∧
      out.length ≤ len.toNat ∧ (∀ k < out.length, userByte s root (plus srcva k) = out[k]?) ∧
      (ok = true → out.length = len.toNat) ∧
      (ok = false → out.length = 0 ∨ Aligned (plus srcva out.length))) ∧
    (∀ srcva max, ∃ ok out, copyinstr root srcva max s = .ok ((ok, out), s) ∧
      (ok = true ↔ ∃ k < max.toNat, (∀ j ≤ k, Readable s.pte root (plus srcva j)) ∧
        userByte s root (plus srcva k) = some 0) ∧
      out.length ≤ max.toNat ∧ (∀ k < out.length, userByte s root (plus srcva k) = out[k]?) ∧
      (ok = true → ∃ str, out = str ++ [0] ∧ 0 ∉ str)) := by
  refine ⟨fun dstva src len => ?_, fun srcva len => ?_, fun srcva max => ?_⟩
  · have hwp : wp (copyout root dstva src len) _ (fun _ => False) s :=
      h.wp_copyoutLoop (Nat.lt_succ_self _)
    obtain ⟨ok, s', hrun, n, hn, hout⟩ := hwp.exists_ok
    exact ⟨ok, s', hrun, hout.iff, n, hn, hout.copied, hout.done, fun hok => (hout.stopped hok).2.2⟩
  · have hwp : wp (copyin root srcva len) _ (fun _ => False) s := h.wp_copyinLoop (Nat.lt_succ_self _)
    obtain ⟨⟨ok, out⟩, s', hrun, rfl, _, rfl, hin⟩ := hwp.exists_ok
    exact ⟨ok, out, hrun, hin.iff, hin.le, hin.fetched.byte, hin.done,
      fun hok => (hin.stopped hok).2.2⟩
  · have hwp : wp (copyinstr root srcva max) _ (fun _ => False) s :=
      h.wp_copyinstrLoop (Nat.lt_succ_self _)
    obtain ⟨⟨ok, out⟩, s', hrun, rfl, _, rfl, hstr⟩ := hwp.exists_ok
    exact ⟨ok, out, hrun, hstr.iff, hstr.le, hstr.fetched.byte, hstr.done⟩

/-- Two pages for a page table whose root is at 0x80001000. -/
def twoFree : Mem := ⟨fun _ _ => 0, [0x80003000, 0x80004000], []⟩

theorem twoFree_ready : Ready twoFree 0x80001000 := by
  have hempty : Empty twoFree.pte 0x80001000 := empty_of_zero fun _ => rfl
  refine ⟨hempty.table, ?_, ?_⟩
  · rw [hempty.nodes]
    decide
  · have hall : twoFree.freelist.all (fun x => Aligned x) = true := by decide
    exact fun x hx => of_decide_eq_true (List.all_eq_true.mp hall x hx)

/-- The page at 0x80002000 is mapped at 0, and nothing else. -/
theorem onePage_lookup {s : Mem} (hrun : mappages 0x80001000 0 0x1000 0x80002000
    (PTE_R ||| PTE_W ||| PTE_U) twoFree = .ok (true, s)) :
    lookup s.pte 0x80001000 0 = some 0x20000817 ∧
      ∀ n < PAGES, ∀ w, lookup s.pte 0x80001000 n = some w → n = 0 ∧ w = 0x20000817 := by
  obtain ⟨count, rfl, hm⟩ := (wp_mappages_any twoFree_ready).of_ok hrun
  have hempty : Empty twoFree.pte 0x80001000 := empty_of_zero fun _ => rfl
  have hzero : lookup s.pte 0x80001000 0 = some 0x20000817 := hm.entry 0 (by decide)
  refine ⟨hzero, fun n hn w hw => ?_⟩
  by_cases h0 : n = 0
  · rw [h0, hzero] at hw
    exact ⟨h0, (Option.some.inj hw).symm⟩
  · rw [hm.lookup n (slot_lt hn) (Or.inr (Nat.pos_of_ne_zero h0)), hempty.lookup] at hw
    cases hw

theorem onePage_userTable {s : Mem} (hrun : mappages 0x80001000 0 0x1000 0x80002000
    (PTE_R ||| PTE_W ||| PTE_U) twoFree = .ok (true, s)) : UserTable s.pte 0x80001000 := by
  obtain ⟨-, honly⟩ := onePage_lookup hrun
  obtain ⟨count, -, hm⟩ := (wp_mappages_any twoFree_ready).of_ok hrun
  have hempty : Empty twoFree.pte 0x80001000 := empty_of_zero fun _ => rfl
  refine ⟨hm.ready.table, fun n hn w hw => ?_, fun n hn n' hn' w w' hw hw' _ => ?_,
    fun n hn w hw hmem => ?_⟩
  · obtain ⟨-, rfl⟩ := honly n hn w hw
    decide
  · rw [(honly n hn w hw).1, (honly n' hn' w' hw').1]
  · obtain ⟨-, rfl⟩ := honly n hn w hw
    have hin := hm.frames.subset (List.mem_append_left _ hmem)
    rw [hempty.nodes] at hin
    exact absurd hin (by decide)

theorem onePage_mapped : ∃ s, mappages 0x80001000 0 0x1000 0x80002000 (PTE_R ||| PTE_W ||| PTE_U)
    twoFree = .ok (true, s) := by
  have hany : (mappages 0x80001000 0 0x1000 0x80002000 (PTE_R ||| PTE_W ||| PTE_U) twoFree).toOption.any
      (fun r => r.1) = true := by decide +kernel
  obtain ⟨⟨b, s⟩, hrun, hb⟩ := exists_ok_of_any hany
  obtain rfl : b = true := hb
  exact ⟨s, hrun⟩

/-- The page at 0 can be written. -/
theorem onePage_writable {s : Mem} (hrun : mappages 0x80001000 0 0x1000 0x80002000
    (PTE_R ||| PTE_W ||| PTE_U) twoFree = .ok (true, s)) {k : Nat} (ha : vpn a = 0)
    (hk : a.toNat % 4096 + k < 4096) : Writable s.pte 0x80001000 (plus a k) := by
  have hzero : Writable s.pte 0x80001000 0 :=
    ⟨by decide, _, (onePage_lookup hrun).1, by decide, by decide⟩
  have hvpn : vpn (plus a k) = vpn 0 := (vpn_plus hk).1.trans ha
  exact (Writable.congr hvpn).2 hzero

theorem user_copies_exact_onePage :
    ∃ s s', mappages 0x80001000 0 0x1000 0x80002000 (PTE_R ||| PTE_W ||| PTE_U) twoFree = .ok (true, s) ∧
      UserTable s.pte 0x80001000 ∧ copyout 0x80001000 0xff8 (fun _ => 7) 8 s = .ok (true, s') ∧
      userByte s' 0x80001000 0xfff = some 7 ∧
      ∃ out, copyin 0x80001000 0xff8 9 s = .ok ((false, out), s) := by
  obtain ⟨s, hrun⟩ := onePage_mapped
  have honly := (onePage_lookup hrun).2
  obtain ⟨hout, hin, -⟩ := user_copies_exact (onePage_userTable hrun)
  obtain ⟨ok, s', hcopy, hiff, n, -, hcopied, hdone, -⟩ := hout 0xff8 (fun _ => 7) 8
  obtain rfl : ok = true := by
    refine hiff.2 (fun k hk => onePage_writable hrun (by decide) ?_)
    exact (Nat.add_lt_add_left hk 4088 : 4088 + k < 4096)
  obtain ⟨ok', out, hcopy', hiff', -⟩ := hin 0xff8 9
  obtain rfl : ok' = false := by
    refine Bool.eq_false_of_not_eq_true (fun hyes => ?_)
    obtain ⟨-, w, hw, -⟩ := hiff'.1 hyes 8 (by decide)
    exact absurd (honly _ (by decide) w hw).1 (by decide)
  obtain rfl := hdone rfl
  exact ⟨s, s', hrun, onePage_userTable hrun, hcopy, hcopied.bytes 7 (by decide), out, hcopy'⟩

end Xv6.Vm
