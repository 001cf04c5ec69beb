import Xv6.Malloc.Heap

set_option autoImplicit false

/-! # The free list

`FreeList w base h l` says that the blocks of `l` are linked in a circle through `base`, in the order of
their addresses and with memory of others between any two of them. `free` puts a block into it
(`free_spec`): it finds the place from wherever `freep` is, and joins the block to the ones before and
after it that it touches. -/

namespace Xv6.Malloc

open Circle Function

/-- Block `a` ends before `b`, with something between them. -/
def Gap (w : Nat) (h : Heap) (a b : Nat) : Prop := a + w * h.size a < b

/-- The address `u` belongs to block `a`. -/
def InBlock (w : Nat) (h : Heap) (a u : Nat) : Prop := a ≤ u ∧ u < a + w * h.size a

/-- The address `u` belongs to one of the blocks. -/
def Covers (w : Nat) (h : Heap) (l : List Nat) (u : Nat) : Prop := ∃ a ∈ l, InBlock w h a u

/-- The units of all the blocks. -/
def total (h : Heap) (l : List Nat) : Nat := (l.map h.size).sum

structure FreeList (w base : Nat) (h : Heap) (l : List Nat) : Prop where
  unit_pos : 0 < w
  linked : Linked h.ptr (base :: l) base
  apart : (base :: l).Pairwise (Gap w h)
  base_size : h.size base = 0
  pos : ∀ a ∈ l, 0 < h.size a
  freep : ∃ p ∈ base :: l, h.freep = some p

variable {w base : Nat} {h : Heap} {l : List Nat}

@[simp] theorem total_nil : total h [] = 0 := rfl

@[simp] theorem total_cons (a : Nat) : total h (a :: l) = h.size a + total h l := List.sum_cons

@[simp] theorem total_append (l₁ l₂ : List Nat) :
    total h (l₁ ++ l₂) = total h l₁ + total h l₂ := by
  simp [total]

theorem total_congr {h' : Heap} (hs : ∀ a ∈ l, h'.size a = h.size a) : total h' l = total h l :=
  congrArg List.sum (List.map_congr_left hs)

@[simp] theorem covers_append (l₁ l₂ : List Nat) (u : Nat) :
    Covers w h (l₁ ++ l₂) u ↔ Covers w h l₁ u ∨ Covers w h l₂ u := by
  simp [Covers, or_and_right, exists_or]

@[simp] theorem covers_cons (a u : Nat) : Covers w h (a :: l) u ↔ InBlock w h a u ∨ Covers w h l u := by
  simp [Covers]

@[simp] theorem covers_nil (u : Nat) : ¬ Covers w h [] u := by simp [Covers]

theorem covers_congr {h' : Heap} (hs : ∀ a ∈ l, h'.size a = h.size a) (u : Nat) :
    Covers w h' l u ↔ Covers w h l u := by
  refine exists_congr fun a => and_congr_right fun ha => ?_
  rw [InBlock, InBlock, hs a ha]

theorem pairwise_gap_congr {h' : Heap} (hs : ∀ a ∈ l, h'.size a = h.size a)
    (hl : l.Pairwise (Gap w h)) : l.Pairwise (Gap w h') := by
  refine hl.imp_of_mem fun ha _ hab => ?_
  rwa [Gap, hs _ ha]

/-- Every block of a list has a unit, so there are no more blocks than units. -/
theorem length_le_total (hpos : ∀ a ∈ l, 0 < h.size a) : l.length ≤ total h l := by
  induction l with
  | nil => exact Nat.le_refl 0
  | cons a l ih =>
    have ha := hpos a List.mem_cons_self
    have hl := ih fun b hb => hpos b (List.mem_cons_of_mem a hb)
    rw [total_cons, List.length_cons]
    omega

namespace FreeList

theorem nodup (hl : FreeList w base h l) : (base :: l).Nodup :=
  hl.apart.imp fun {a b} (hab : a + w * h.size a < b) => by omega

theorem base_lt (hl : FreeList w base h l) {a : Nat} (ha : a ∈ l) : base < a := by
  have : base + w * h.size base < a := (List.pairwise_cons.mp hl.apart).1 a ha
  omega

theorem long (hl : FreeList w base h l) {a : Nat} (ha : a ∈ l) : 0 < w * h.size a :=
  Nat.mul_pos hl.unit_pos (hl.pos a ha)

/-- `base` is the block with the lowest address. -/
theorem base_le (hl : FreeList w base h l) {a : Nat} (ha : a ∈ base :: l) : base ≤ a := by
  rcases List.mem_cons.mp ha with rfl | ha
  · exact Nat.le_refl _
  · exact Nat.le_of_lt (hl.base_lt ha)

/-- The circle as seen from any of its blocks. -/
theorem rotate (hl : FreeList w base h l) {p : Nat} (hp : p ∈ base :: l) :
    ∃ t, Linked h.ptr (p :: t) p ∧ (p :: t).Perm (base :: l) := by
  obtain ⟨l₁, l₂, hsplit⟩ := List.append_of_mem hp
  refine ⟨l₂ ++ l₁, hl.linked.rotate hsplit, ?_⟩
  rw [hsplit, ← List.cons_append]
  exact List.perm_append_comm

end FreeList

/-! ## The place of a block -/

/-- A sorted list divides at an address that is in none of its blocks. -/
theorem exists_split {bp : Nat} (hl : (base :: l).Pairwise (Gap w h)) (hbase : base < bp)
    (hne : ∀ a ∈ l, a ≠ bp) :
    ∃ l₁ p l₂, base :: l = l₁ ++ p :: l₂ ∧ p < bp ∧ ∀ c ∈ l₂, bp < c := by
  induction l generalizing base with
  | nil => exact ⟨[], base, [], rfl, hbase, nofun⟩
  | cons a l ih =>
    obtain ⟨ha, hl⟩ := List.pairwise_cons.mp hl
    rcases Nat.lt_or_ge a bp with hlt | hge
    · obtain ⟨l₁, p, l₂, hsplit, hp, hc⟩ := ih hl hlt fun b hb => hne b (List.mem_cons_of_mem a hb)
      exact ⟨base :: l₁, p, l₂, by rw [hsplit, List.cons_append], hp, hc⟩
    · have hlt : bp < a := Nat.lt_of_le_of_ne hge (Ne.symm (hne a List.mem_cons_self))
      refine ⟨[], base, a :: l, rfl, hbase, fun c hc => ?_⟩
      rcases List.mem_cons.mp hc with rfl | hc
      · exact hlt
      · have : a + w * h.size a < c := (List.pairwise_cons.mp hl).1 c hc
        omega

/-- The loop of `free` stops exactly where the list divides at the address. -/
theorem isPlace_iff (hl : FreeList w base h l) {bp p : Nat} {l₁ l₂ : List Nat} (hbase : base < bp)
    (hsplit : base :: l = l₁ ++ p :: l₂) :
    isPlace h bp p = true ↔ p < bp ∧ ∀ c ∈ l₂, bp < c := by
  have hlinked := hl.linked
  have hapart := hl.apart
  have hp : base ≤ p := hl.base_le (by rw [hsplit]; simp)
  rw [hsplit] at hlinked hapart
  have hnext := hlinked.next
  have hcons := (List.pairwise_append.mp hapart).2.1
  rw [isPlace, decide_eq_true_iff, hnext]
  cases l₂ with
  | nil =>
    simp only [List.headD_nil]
    constructor
    · intro hplace
      exact ⟨by omega, nofun⟩
    · intro hplace
      omega
  | cons c l₂ =>
    have hpc : p + w * h.size p < c := (List.pairwise_cons.mp hcons).1 c List.mem_cons_self
    have hrest := (List.pairwise_cons.mp (List.pairwise_cons.mp hcons).2).1
    simp only [List.headD_cons, List.forall_mem_cons]
    constructor
    · intro hplace
      refine ⟨by omega, by omega, fun d hd => ?_⟩
      have : c + w * h.size c < d := hrest d hd
      omega
    · intro hplace
      omega

/-- The loop of `free` ends, at the place of the block. -/
theorem find_place {bp : Nat} (hl : FreeList w base h l) (hbase : base < bp) (hne : ∀ a ∈ l, a ≠ bp)
    (hlen : l.length ≤ MEMORY) :
    ∃ start l₁ p l₂, h.freep = some start ∧ search (isPlace h bp) h.ptr turns start = some p ∧
      base :: l = l₁ ++ p :: l₂ ∧ p < bp ∧ ∀ c ∈ l₂, bp < c := by
  obtain ⟨start, hstart, hfreep⟩ := hl.freep
  obtain ⟨t, hcircle, hperm⟩ := hl.rotate hstart
  have hexists : ∃ z ∈ start :: t, isPlace h bp z = true := by
    obtain ⟨l₁, p, l₂, hsplit, hp, hc⟩ := exists_split hl.apart hbase hne
    refine ⟨p, hperm.mem_iff.mpr (by rw [hsplit]; simp), ?_⟩
    exact (isPlace_iff hl hbase hsplit).mpr ⟨hp, hc⟩
  have hturns : t.length < turns := by
    have h1 := hperm.length_eq
    simp only [List.length_cons] at h1
    unfold turns
    omega
  obtain ⟨p, hp, hsearch, hplace⟩ := search_linked hcircle hexists hturns
  obtain ⟨l₁, l₂, hsplit⟩ := List.append_of_mem (hperm.mem_iff.mp hp)
  exact ⟨start, l₁, p, l₂, hfreep, hsearch, hsplit, (isPlace_iff hl hbase hsplit).mp hplace⟩

/-! ## Joining a block to its neighbours -/

/-- The list `new` is linked up to `base`, and has the units that `old` had before. -/
structure Joined (w base : Nat) (h h' : Heap) (old new : List Nat) : Prop where
  linked : Linked h'.ptr new base
  apart : new.Pairwise (Gap w h')
  pos : ∀ a ∈ new, a = base ∨ 0 < h'.size a
  total : total h' new = total h old
  covers : ∀ u, Covers w h' new u ↔ Covers w h old u

section Join

variable {bp p : Nat} {l₁ l₂ : List Nat}

/-- Two blocks that touch cover what they covered, as one block. -/
theorem inBlock_join {h' : Heap} {a b : Nat} (hb : a + w * h.size a = b)
    (hs : h'.size a = h.size a + h.size b) (u : Nat) :
    InBlock w h' a u ↔ InBlock w h a u ∨ InBlock w h b u := by
  unfold InBlock
  rw [hs, Nat.mul_add]
  omega

/-- `bp` takes in the block after it if it touches it. -/
theorem joinUpper_spec (hw : 0 < w) (hnext : h.ptr p = l₂.headD base) (hlinked : Linked h.ptr l₂ base)
    (hapart : l₂.Pairwise (Gap w h)) (hpos : ∀ a ∈ bp :: l₂, 0 < h.size a)
    (hafter : ∀ c ∈ l₂, bp + w * h.size bp ≤ c) (hbase : base < bp)
    (hmem : total h (bp :: l₂) < 2 ^ 32) :
    ∃ l₂', l₂'.Sublist l₂ ∧ Joined w base h (joinUpper w h bp p) (bp :: l₂) (bp :: l₂') ∧
      (∀ a, a ≠ bp → (joinUpper w h bp p).ptr a = h.ptr a ∧ (joinUpper w h bp p).size a = h.size a) ∧
      h.size bp ≤ (joinUpper w h bp p).size bp := by
  have hbp := hpos bp List.mem_cons_self
  have hlong := Nat.mul_pos hw hbp
  have hne : ∀ c ∈ l₂, c ≠ bp := fun c hc => by have := hafter c hc; omega
  unfold joinUpper
  split
  · next htouch =>
      cases l₂ with
      | nil =>
        rw [hnext, List.headD_nil] at htouch
        omega
      | cons c l₂ =>
        rw [hnext, List.headD_cons] at htouch ⊢
        simp only [total_cons] at hmem
        have hmod : (h.size bp + h.size c) % 2 ^ 32 = h.size bp + h.size c :=
          Nat.mod_eq_of_lt (by omega)
        rw [hmod]
        generalize hh' : (h.setSize bp (h.size bp + h.size c)).setPtr bp (h.ptr c) = h'
        have hsame : ∀ a, a ≠ bp → h'.ptr a = h.ptr a ∧ h'.size a = h.size a := by
          rintro a ha
          rw [← hh']
          exact ⟨update_of_ne ha .., update_of_ne ha ..⟩
        have hsize : h'.size bp = h.size bp + h.size c := hh' ▸ update_self ..
        have hptr : h'.ptr bp = h.ptr c := hh' ▸ update_self ..
        have hne' : ∀ a ∈ l₂, a ≠ bp := fun a ha => hne a (List.mem_cons_of_mem c ha)
        have hsame' : ∀ a ∈ l₂, h'.size a = h.size a := fun a ha => (hsame a (hne' a ha)).2
        obtain ⟨hc, hrest⟩ := List.pairwise_cons.mp hapart
        refine ⟨l₂, List.sublist_cons_self c l₂, ⟨⟨hptr.trans hlinked.1, ?_⟩, ?_, ?_, ?_, ?_⟩, hsame, ?_⟩
        · exact hlinked.2.congr fun a ha => (hsame a (hne' a ha)).1
        · refine List.pairwise_cons.mpr ⟨fun d hd => ?_, pairwise_gap_congr hsame' hrest⟩
          have : c + w * h.size c < d := hc d hd
          rw [Gap, hsize, Nat.mul_add]
          omega
        · intro a ha
          rcases List.mem_cons.mp ha with rfl | ha
          · exact .inr (by omega)
          · rw [hsame' a ha]
            exact .inr (hpos a (List.mem_cons_of_mem bp (List.mem_cons_of_mem c ha)))
        · rw [total_cons, hsize, total_congr hsame', total_cons, total_cons, Nat.add_assoc]
        · intro u
          rw [covers_cons, inBlock_join htouch hsize, covers_congr hsame', covers_cons,
            covers_cons, or_assoc]
        · rw [hsize]
          exact Nat.le_add_right _ _
  · next htouch =>
      have hsame : ∀ a, a ≠ bp → (h.setPtr bp (h.ptr p)).ptr a = h.ptr a := fun a ha =>
        update_of_ne ha ..
      refine ⟨l₂, List.Sublist.refl l₂, ⟨⟨(update_self ..).trans hnext, ?_⟩, ?_, ?_, rfl,
        fun _ => Iff.rfl⟩, fun a ha => ⟨hsame a ha, rfl⟩, Nat.le_refl _⟩
      · exact hlinked.congr fun a ha => hsame a (hne a ha)
      · refine List.pairwise_cons.mpr ⟨fun c hc => ?_, hapart⟩
        -- the first block of the rest does not touch `bp`, and the others come after it
        change bp + w * h.size bp < c
        cases l₂ with
        | nil => cases hc
        | cons d l₂ =>
          rw [hnext, List.headD_cons] at htouch
          have hd := hafter d List.mem_cons_self
          rcases List.mem_cons.mp hc with rfl | hc
          · omega
          · have : d + w * h.size d < c := (List.pairwise_cons.mp hapart).1 c hc
            omega
      · exact fun a ha => .inr (hpos a ha)

/-- `p` takes in `bp` if it touches it, and is followed by it otherwise. -/
theorem joinLower_spec (hfront : Linked h.ptr l₁ p) (hrest : Linked h.ptr (bp :: l₂) base)
    (hapart₁ : (l₁ ++ [p]).Pairwise (Gap w h)) (hapart₂ : (bp :: l₂).Pairwise (Gap w h))
    (hlt : p < bp) (hbefore : p + w * h.size p ≤ bp)
    (hpos : ∀ a ∈ l₁ ++ p :: bp :: l₂, a = base ∨ 0 < h.size a)
    (hmem : h.size p + h.size bp < 2 ^ 32) :
    ∃ m, m.Sublist [bp] ∧
      Joined w base h (joinLower w h bp p) (l₁ ++ p :: bp :: l₂) (l₁ ++ p :: (m ++ l₂)) ∧
      (∀ a, a ≠ p → (joinLower w h bp p).size a = h.size a) ∧
      (h.size p = 0 → (joinLower w h bp p).size p = 0) ∧
      ∃ a ∈ p :: m, h.size bp ≤ (joinLower w h bp p).size a := by
  obtain ⟨ha₁, -, ha₁p⟩ := List.pairwise_append.mp hapart₁
  obtain ⟨hgap₂, ha₂⟩ := List.pairwise_cons.mp hapart₂
  have hgap₁ : ∀ a ∈ l₁, a + w * h.size a < p := fun a ha => ha₁p a ha p (List.mem_singleton_self p)
  have hgap₂ : ∀ c ∈ l₂, bp + w * h.size bp < c := hgap₂
  have hne₁ : ∀ a ∈ l₁, a ≠ p := fun a ha => by have := hgap₁ a ha; omega
  have hne₂ : ∀ c ∈ bp :: l₂, c ≠ p := by
    intro c hc
    rcases List.mem_cons.mp hc with rfl | hc
    · omega
    · have := hgap₂ c hc
      omega
  unfold joinLower
  split
  · next htouch =>
      have hp : 0 < h.size p := Nat.pos_of_ne_zero fun h0 => by
        rw [h0] at htouch
        omega
      have hmod : (h.size p + h.size bp) % 2 ^ 32 = h.size p + h.size bp :=
        Nat.mod_eq_of_lt (by omega)
      rw [hmod]
      generalize hh' : (h.setSize p (h.size p + h.size bp)).setPtr p (h.ptr bp) = h'
      have hptr : ∀ a, a ≠ p → h'.ptr a = h.ptr a := fun a ha => hh' ▸ update_of_ne ha ..
      have hsize : ∀ a, a ≠ p → h'.size a = h.size a := fun a ha => hh' ▸ update_of_ne ha ..
      have hsizep : h'.size p = h.size p + h.size bp := hh' ▸ update_self ..
      have hptrp : h'.ptr p = h.ptr bp := hh' ▸ update_self ..
      have hs₁ : ∀ a ∈ l₁, h'.size a = h.size a := fun a ha => hsize a (hne₁ a ha)
      have hs₂ : ∀ a ∈ l₂, h'.size a = h.size a := fun a ha =>
        hsize a (hne₂ a (List.mem_cons_of_mem bp ha))
      refine ⟨[], List.nil_sublist _, ⟨?_, ?_, fun a ha => ?_, ?_, fun u => ?_⟩, hsize, fun h0 => ?_, p,
        List.mem_cons_self, ?_⟩
      · refine linked_append.mpr ⟨hfront.congr fun a ha => hptr a (hne₁ a ha), hptrp.trans hrest.1, ?_⟩
        exact hrest.2.congr fun a ha => hptr a (hne₂ a (List.mem_cons_of_mem bp ha))
      · refine List.pairwise_append.mpr ⟨pairwise_gap_congr hs₁ ha₁,
          List.pairwise_cons.mpr ⟨fun c hc => ?_, pairwise_gap_congr hs₂ ha₂⟩, fun a ha c hc => ?_⟩
        · have := hgap₂ c hc
          rw [Gap, hsizep, Nat.mul_add]
          omega
        · have := hgap₁ a ha
          rw [Gap, hs₁ a ha]
          rcases List.mem_cons.mp hc with rfl | hc
          · exact this
          · have := hgap₂ c hc
            omega
      · by_cases hap : a = p
        · rw [hap, hsizep]
          exact .inr (by omega)
        · rw [hsize a hap]
          refine hpos a ?_
          simp only [List.nil_append, List.mem_append, List.mem_cons] at ha ⊢
          tauto
      · simp only [total_append, total_cons, List.nil_append, hsizep, total_congr hs₁, total_congr hs₂]
        omega
      · simp only [covers_append, covers_cons, List.nil_append, inBlock_join htouch hsizep,
          covers_congr hs₁, covers_congr hs₂, or_assoc]
      · omega
      · rw [hsizep]
        exact Nat.le_add_left _ _
  · next htouch =>
      have hptr : ∀ a, a ≠ p → (h.setPtr p bp).ptr a = h.ptr a := fun a ha =>
        update_of_ne ha ..
      have hbp : p + w * h.size p < bp := Nat.lt_of_le_of_ne hbefore htouch
      refine ⟨[bp], List.Sublist.refl _, ⟨?_, ?_, hpos, rfl, fun _ => Iff.rfl⟩, fun _ _ => rfl, id, bp,
        by simp, Nat.le_refl _⟩
      · refine linked_append.mpr ⟨hfront.congr fun a ha => hptr a (hne₁ a ha), update_self .., ?_⟩
        exact hrest.congr fun a ha => hptr a (hne₂ a ha)
      · refine List.pairwise_append.mpr ⟨ha₁, List.pairwise_cons.mpr ⟨fun c hc => ?_, hapart₂⟩,
          fun a ha c hc => ?_⟩
        · change p + w * h.size p < c
          rcases List.mem_cons.mp hc with rfl | hc
          · exact hbp
          · have := hgap₂ c hc
            omega
        · change a + w * h.size a < c
          have := hgap₁ a ha
          rcases List.mem_cons.mp hc with rfl | hc
          · exact this
          · rcases List.mem_cons.mp hc with rfl | hc
            · omega
            · have := hgap₂ c hc
              omega

end Join

/-! ## `free` -/

/-- `bp` was put into the list. -/
structure Freed (w base : Nat) (h : Heap) (l : List Nat) (bp : Nat) (h' : Heap) (l' : List Nat) :
    Prop where
  list : FreeList w base h' l'
  total : total h' l' = h.size bp + total h l
  covers : ∀ u, Covers w h' l' u ↔ InBlock w h bp u ∨ Covers w h l u
  same : ∀ a, a ∉ base :: l → a ≠ bp → h'.size a = h.size a
  block : ∃ a ∈ l', h.size bp ≤ h'.size a
  length : l'.length ≤ l.length + 1

/-- `base` has no units. -/
theorem FreeList.covers_base (hl : FreeList w base h l) (u : Nat) :
    Covers w h (base :: l) u ↔ Covers w h l u := by
  rw [covers_cons]
  refine or_iff_right fun hin => ?_
  have h1 := hin.1
  have h2 := hin.2
  rw [hl.base_size] at h2
  omega

theorem FreeList.total_base (hl : FreeList w base h l) : Malloc.total h (base :: l) = Malloc.total h l := by
  rw [total_cons, hl.base_size, Nat.zero_add]

/-- A list that starts with `base` and has the units of one that does too. -/
theorem Joined.freeList {h' : Heap} {old l' : List Nat} (hw : 0 < w) (hj : Joined w base h h' old (base :: l'))
    (hbase : h'.size base = 0) {p : Nat} (hp : p ∈ base :: l') :
    FreeList w base { h' with freep := some p } l' where
  unit_pos := hw
  linked := hj.linked
  apart := hj.apart
  base_size := hbase
  pos a ha := by
    have hlt : base + w * h'.size base < a := (List.pairwise_cons.mp hj.apart).1 a ha
    refine (hj.pos a (List.mem_cons_of_mem base ha)).resolve_left ?_
    omega
  freep := ⟨p, hp, rfl⟩

/-- Putting `bp` between `p` and what comes after it. -/
theorem join_spec {bp p : Nat} {l₁ l₂ : List Nat} (hl : FreeList w base h l)
    (hsplit : base :: l = l₁ ++ p :: l₂) (hlt : p < bp) (hbase : base < bp)
    (hbefore : p + w * h.size p ≤ bp) (hafter : ∀ c ∈ l₂, bp + w * h.size bp ≤ c) (hpos : 0 < h.size bp)
    (hmem : h.size bp + total h l < 2 ^ 32) :
    ∃ l', Freed w base h l bp { joinLower w (joinUpper w h bp p) bp p with freep := some p } l' := by
  have hlinked := hl.linked
  have hapart := hl.apart
  have htotal := hl.total_base
  have hcovers := hl.covers_base
  have hposl : ∀ a ∈ base :: l, a = base ∨ 0 < h.size a := fun a ha =>
    (List.mem_cons.mp ha).imp_right (hl.pos a)
  rw [hsplit] at hlinked hapart htotal hcovers hposl
  simp only [total_append, total_cons] at htotal
  obtain ⟨hfront, hnext, hrest⟩ := linked_append.mp hlinked
  rw [List.headD_cons] at hfront
  obtain ⟨ha₁, ha₂, ha₁₂⟩ := List.pairwise_append.mp hapart
  have hne : ∀ a ∈ l₁ ++ [p], a ≠ bp := by
    intro a ha
    rcases List.mem_append.mp ha with ha | ha
    · have : a + w * h.size a < p := ha₁₂ a ha p List.mem_cons_self
      omega
    · rw [List.mem_singleton.mp ha]
      omega
  -- the block after it
  obtain ⟨l₂', hsub, hj₁, hsame₁, hgrow⟩ := joinUpper_spec hl.unit_pos hnext hrest (List.pairwise_cons.mp ha₂).2
    (fun a ha => by
      rcases List.mem_cons.mp ha with rfl | ha
      · exact hpos
      · refine (hposl a (by simp [ha])).resolve_left ?_
        have := hafter a ha
        omega)
    hafter hbase (by rw [total_cons]; omega)
  generalize joinUpper w h bp p = h₁ at hj₁ hsame₁ hgrow
  have hs₁ : ∀ a ∈ l₁ ++ [p], h₁.size a = h.size a := fun a ha => (hsame₁ a (hne a ha)).2
  have htot₁ := hj₁.total
  simp only [total_cons] at htot₁
  -- and the block before it
  have hp₁ : h₁.size p = h.size p := hs₁ p (by simp)
  obtain ⟨m, hm, hj₂, hsame₂, hzero, a, ha, hbig⟩ := joinLower_spec
    (hfront.congr fun a ha => (hsame₁ a (hne a (List.mem_append_left _ ha))).1) hj₁.linked
    (pairwise_gap_congr hs₁ (List.pairwise_append.mpr ⟨ha₁, List.pairwise_singleton _ _,
      fun a ha b hb => List.mem_singleton.mp hb ▸ ha₁₂ a ha p List.mem_cons_self⟩))
    hj₁.apart hlt (by rw [hp₁]; exact hbefore)
    (fun a ha => by
      rw [List.append_cons, List.mem_append] at ha
      rcases ha with ha | ha
      · rw [hs₁ a ha]
        exact hposl a (by simp only [List.mem_append, List.mem_cons] at ha ⊢; tauto)
      · exact hj₁.pos a ha)
    (by omega)
  generalize joinLower w h₁ bp p = h₂ at hj₂ hsame₂ hzero hbig
  obtain ⟨l', hl'⟩ : ∃ l', l₁ ++ p :: (m ++ l₂') = base :: l' := by
    cases l₁ with
    | nil => exact ⟨m ++ l₂', by rw [(List.cons.inj hsplit).1]; rfl⟩
    | cons b l₁ => exact ⟨l₁ ++ p :: (m ++ l₂'), by rw [(List.cons.inj hsplit).1]; rfl⟩
  have hmemp : p ∈ base :: l' := hl' ▸ by simp
  have hmema : a ∈ base :: l' := by
    rw [← hl']
    rcases List.mem_cons.mp ha with rfl | ha
    · simp
    · simp [ha]
  rw [hl'] at hj₂
  have hbase₂ : h₂.size base = 0 := by
    by_cases hpb : base = p
    · rw [hpb]
      exact hzero (by rw [hp₁, ← hpb, hl.base_size])
    · rw [hsame₂ base hpb, (hsame₁ base (Nat.ne_of_lt hbase)).2, hl.base_size]
  have hlist := hj₂.freeList hl.unit_pos hbase₂ hmemp
  refine ⟨l', hlist, ?_, fun u => ?_, fun b hb hbb => ?_, ⟨a, ?_, Nat.le_trans hgrow hbig⟩, ?_⟩
  · have htot₂ := hj₂.total
    rw [List.append_cons, total_append, total_congr hs₁, hj₁.total] at htot₂
    rw [← hlist.total_base]
    change Malloc.total h₂ (base :: l') = _
    rw [htot₂]
    simp only [total_append, total_cons, total_nil]
    omega
  · rw [← hlist.covers_base u]
    change Covers w h₂ (base :: l') u ↔ _
    rw [hj₂.covers u, List.append_cons, covers_append, covers_congr hs₁, hj₁.covers u, ← hcovers u]
    simp only [covers_append, covers_cons, covers_nil, or_false]
    tauto
  · change h₂.size b = h.size b
    rw [hsame₂ b fun he => hb (hsplit ▸ by rw [he]; simp), (hsame₁ b hbb).2]
  · refine (List.mem_cons.mp hmema).resolve_left fun hab => ?_
    rw [hab, hbase₂] at hbig
    omega
  · have h1 := congrArg List.length hsplit
    have h2 := congrArg List.length hl'
    have h3 := hsub.length_le
    have h4 := hm.length_le
    simp only [List.length_append, List.length_cons, List.length_nil] at h1 h2 h4
    omega

/-- Nonempty blocks that share no unit come one after the other. -/
theorem before_or_after {a b : Nat} (hw : 0 < w) (ha : 0 < h.size a) (hb : 0 < h.size b)
    (hdisj : ∀ u, InBlock w h b u → ¬ InBlock w h a u) : a + w * h.size a ≤ b ∨ b + w * h.size b ≤ a := by
  have ha := Nat.mul_pos hw ha
  have hb := Nat.mul_pos hw hb
  by_contra hcon
  rw [not_or, Nat.not_le, Nat.not_le] at hcon
  rcases Nat.le_total a b with hab | hab
  · exact hdisj b ⟨Nat.le_refl _, by omega⟩ ⟨hab, hcon.1⟩
  · exact hdisj a ⟨hab, hcon.2⟩ ⟨Nat.le_refl _, by omega⟩

/-- `free` ends, and puts the block into the list. -/
theorem free_spec {bp : Nat} (hl : FreeList w base h l) (hbase : base < bp) (hpos : 0 < h.size bp)
    (hdisj : ∀ u, InBlock w h bp u → ¬ Covers w h l u) (hmem : h.size bp + total h l < 2 ^ 32)
    (hlen : l.length ≤ MEMORY) :
    ∃ h' l', free w h bp = some h' ∧ Freed w base h l bp h' l' := by
  have hside : ∀ a ∈ l, a + w * h.size a ≤ bp ∨ bp + w * h.size bp ≤ a := fun a ha =>
    before_or_after hl.unit_pos (hl.pos a ha) hpos fun u hu hin => hdisj u hu ⟨a, ha, hin⟩
  have hne : ∀ a ∈ l, a ≠ bp := by
    intro a ha
    have hside := hside a ha
    have hpos := Nat.mul_pos hl.unit_pos hpos
    have hlong := hl.long ha
    omega
  obtain ⟨start, l₁, p, l₂, hfreep, hsearch, hsplit, hlt, hafter⟩ :=
    find_place hl hbase hne hlen
  have hmemL : ∀ {a}, a ∈ l₁ ++ p :: l₂ → a = base ∨ a ∈ l := fun ha =>
    List.mem_cons.mp (hsplit ▸ ha)
  have hbefore : p + w * h.size p ≤ bp := by
    rcases hmemL (List.mem_append_right l₁ List.mem_cons_self) with rfl | hpl
    · rw [hl.base_size]
      exact Nat.le_of_lt hlt
    · exact (hside p hpl).resolve_right (by omega)
  have hafter' : ∀ c ∈ l₂, bp + w * h.size bp ≤ c := by
    intro c hc
    have hbpc := hafter c hc
    rcases hmemL (List.mem_append_right l₁ (List.mem_cons_of_mem p hc)) with rfl | hcl
    · omega
    · have hside := hside c hcl
      have hlong := hl.long hcl
      omega
  obtain ⟨l', hfreed⟩ := join_spec hl hsplit hlt hbase hbefore hafter' hpos hmem
  refine ⟨_, l', ?_, hfreed⟩
  simp only [free, hfreep, hsearch, Option.map_some]

end Xv6.Malloc
