import Mathlib.Data.List.Pairwise
import Xv6.Malloc.FreeList

set_option autoImplicit false

/-! # Every run of the allocator

`Ok` is what holds between the calls: the free list is as it should be, the blocks in use are disjoint
from it and from each other, and together they are all that was obtained from `sbrk`. `malloc` goes
once round the list (`mallocLoop_walk`); if no block is large enough it gets more memory, and a second
round finds it. -/

namespace Xv6.Malloc

open Circle Machine Function

variable {w base a hp nu f : Nat} {h h' : Heap} {l : List Nat} {b : Block}

/-! ## Taking a block out of the list -/

/-- A block `b` of `n` units was taken out of the list. -/
structure Taken (w base : Nat) (h : Heap) (l : List Nat) (n : Nat) (h' : Heap) (l' : List Nat) (b : Nat) :
    Prop where
  list : FreeList w base h' l'
  size : h'.size b = n
  total : total h' l' + n = total h l
  covers : ∀ u, Covers w h l u ↔ InBlock w h' b u ∨ Covers w h' l' u
  disjoint : ∀ u, InBlock w h' b u → ¬ Covers w h' l' u
  same : ∀ a, ¬ Covers w h l a → a ≠ base → h'.size a = h.size a

/-- A block of the list lies before or after every other one. -/
theorem FreeList.sides (hl : FreeList w base h l) {b : Nat} (ha : a ∈ base :: l)
    (hb : b ∈ base :: l) (hab : a ≠ b) : a + w * h.size a < b ∨ b + w * h.size b < a := by
  have hsym : (base :: l).Pairwise fun a b => a + w * h.size a < b ∨ b + w * h.size b < a :=
    hl.apart.imp fun hgap => .inl hgap
  have : Std.Symm fun a b => a + w * h.size a < b ∨ b + w * h.size b < a := ⟨fun _ _ => Or.symm⟩
  exact hsym.forall ha hb hab

theorem FreeList.disjoint (hl : FreeList w base h l) {b u : Nat} (ha : a ∈ base :: l)
    (hb : b ∈ base :: l) (hab : a ≠ b) (hau : InBlock w h a u) : ¬ InBlock w h b u := by
  intro hbu
  have hside := hl.sides ha hb hab
  unfold InBlock at hau hbu
  omega

/-- A block that fits is taken out: `prevp` is linked to what comes after it. -/
theorem take_whole {prevp p : Nat} {l₁ l₂ : List Nat} (hl : FreeList w base h l)
    (hsplit : base :: l = l₁ ++ prevp :: p :: l₂) :
    ∃ l', Taken w base h l (h.size p) { h.setPtr prevp (h.ptr p) with freep := some prevp } l' p := by
  have hlinked := hl.linked
  have hapart := hl.apart
  have hnodup := hl.nodup
  have htotal := hl.total_base
  have hcovers := hl.covers_base
  rw [hsplit] at hlinked hapart hnodup htotal hcovers
  have hsub : (l₁ ++ prevp :: l₂).Sublist (l₁ ++ prevp :: p :: l₂) :=
    (List.Sublist.refl l₁).append ((List.sublist_cons_self p l₂).cons_cons prevp)
  obtain ⟨-, hnodup₂, hdisj⟩ := List.nodup_append.mp hnodup
  obtain ⟨hprev, hnodup₃⟩ := List.nodup_cons.mp hnodup₂
  obtain ⟨l', hl'⟩ : ∃ l', l₁ ++ prevp :: l₂ = base :: l' := by
    cases l₁ with
    | nil => exact ⟨l₂, by rw [(List.cons.inj hsplit).1]; rfl⟩
    | cons b l₁ => exact ⟨l₁ ++ prevp :: l₂, by rw [(List.cons.inj hsplit).1]; rfl⟩
  have hmem : ∀ a ∈ base :: l', a ∈ base :: l := fun a ha => hsplit ▸ hsub.subset (hl'.symm ▸ ha)
  have hpl' : p ∉ base :: l' := by
    rw [← hl', List.mem_append, List.mem_cons, not_or, not_or]
    refine ⟨fun hp => hdisj p hp p (by simp) rfl, fun hp => hprev (by simp [hp]), ?_⟩
    exact (List.nodup_cons.mp hnodup₃).1
  have hnodup' : (base :: l').Nodup := hl' ▸ hnodup.sublist hsub
  have hlist : FreeList w base { h.setPtr prevp (h.ptr p) with freep := some prevp } l' := by
    refine ⟨hl.unit_pos, ?_, ?_, hl.base_size, fun a ha => ?_, prevp, hl' ▸ by simp, rfl⟩
    · rw [← hl']
      exact hlinked.unlink ⟨fun hp => hdisj prevp hp prevp (by simp) rfl,
        fun hp => hprev (List.mem_cons_of_mem p hp)⟩
    · rw [← hl']
      exact hapart.sublist hsub
    · have hbase : a ≠ base := fun he => (List.nodup_cons.mp hnodup').1 (he ▸ ha)
      exact hl.pos a ((List.mem_cons.mp (hmem a (List.mem_cons_of_mem base ha))).resolve_left hbase)
  refine ⟨l', hlist, rfl, ?_, fun u => ?_, fun u hu hc => ?_, fun _ _ _ => rfl⟩
  · have h1 := hlist.total_base
    rw [← hl'] at h1
    change Malloc.total h _ = Malloc.total h l' at h1
    change Malloc.total h l' + h.size p = _
    simp only [total_append, total_cons] at h1 htotal
    omega
  · have h1 := hlist.covers_base u
    rw [← hl'] at h1
    change Covers w h _ u ↔ Covers w h l' u at h1
    change _ ↔ InBlock w h p u ∨ Covers w h l' u
    rw [← hcovers u, ← h1]
    simp only [covers_append, covers_cons]
    tauto
  · obtain ⟨a, ha, hau⟩ := hc
    have hap : a ≠ p := fun he => hpl' (he ▸ List.mem_cons_of_mem base ha)
    have hp : p ∈ base :: l := hsplit ▸ by simp
    exact hl.disjoint (hmem a (List.mem_cons_of_mem base ha)) hp hap hau hu

/-- The last units of a block that is too large are split off. -/
theorem take_tail {n p prevp : Nat} (hl : FreeList w base h l) (hp : p ∈ l)
    (hprev : prevp ∈ base :: l) (hn : 0 < n) (hlt : n < h.size p)
    (hh' : h' = { (h.setSize p (h.size p - n)).setSize (p + w * (h.size p - n)) n with freep := some prevp }) :
    Taken w base h l n h' l (p + w * (h.size p - n)) := by
  generalize hq : p + w * (h.size p - n) = q at hh' ⊢
  have hsum : w * h.size p = w * (h.size p - n) + w * n := by
    rw [← Nat.mul_add, Nat.sub_add_cancel (Nat.le_of_lt hlt)]
  have hfront := Nat.mul_pos hl.unit_pos (Nat.sub_pos_of_lt hlt)
  have htail := Nat.mul_pos hl.unit_pos hn
  have hpm : p ∈ base :: l := List.mem_cons_of_mem base hp
  have hqp : q ≠ p := by omega
  have hsq : h'.size q = n := hh' ▸ update_self ..
  have hsp : h'.size p = h.size p - n := by
    rw [hh', Heap.setSize_size, update_of_ne (Ne.symm hqp), Heap.setSize_size,
      update_self]
  have hsame : ∀ a, a ≠ p → a ≠ q → h'.size a = h.size a := by
    intro a hap haq
    rw [hh', Heap.setSize_size, update_of_ne haq, Heap.setSize_size,
      update_of_ne hap]
  have hqin : InBlock w h p q := ⟨by omega, by omega⟩
  have hnode : ∀ a ∈ base :: l, a ≠ p → h'.size a = h.size a := by
    intro a ha hap
    refine hsame a hap fun haq => ?_
    have := hl.sides ha hpm hap
    unfold InBlock at hqin
    omega
  have hgap : ∀ {a b}, a ∈ base :: l → Gap w h a b → Gap w h' a b := by
    intro a b ha hab
    unfold Gap at hab ⊢
    by_cases hap : a = p
    · rw [hap, hsp]
      rw [hap] at hab
      omega
    · rwa [hnode a ha hap]
  have hinp : ∀ u, InBlock w h p u ↔ InBlock w h' q u ∨ InBlock w h' p u := by
    intro u
    unfold InBlock
    rw [hsq, hsp]
    omega
  have hlist : FreeList w base h' l := by
    refine ⟨hl.unit_pos, ?_, hl.apart.imp_of_mem fun ha _ hab => hgap ha hab, ?_, fun a ha => ?_, prevp, hprev, ?_⟩
    · rw [hh']
      exact hl.linked
    · rw [hnode base List.mem_cons_self (Nat.ne_of_lt (hl.base_lt hp)), hl.base_size]
    · by_cases hap : a = p
      · rw [hap, hsp]
        omega
      · rw [hnode a (List.mem_cons_of_mem base ha) hap]
        exact hl.pos a ha
    · rw [hh']
  obtain ⟨l₁, l₂, hsplit⟩ := List.append_of_mem hp
  have hs : ∀ a ∈ l₁ ++ l₂, h'.size a = h.size a := by
    intro a ha
    have hnodup := (List.nodup_cons.mp hl.nodup).2
    rw [hsplit] at hnodup
    have hap : a ≠ p := fun he => (List.nodup_middle.mp hnodup |> List.nodup_cons.mp).1 (he ▸ ha)
    refine hnode a (List.mem_cons_of_mem base ?_) hap
    rw [hsplit, List.mem_append, List.mem_cons]
    exact (List.mem_append.mp ha).imp_right .inr
  have hs₁ : ∀ a ∈ l₁, h'.size a = h.size a := fun a ha => hs a (List.mem_append_left l₂ ha)
  have hs₂ : ∀ a ∈ l₂, h'.size a = h.size a := fun a ha => hs a (List.mem_append_right l₁ ha)
  refine ⟨hlist, hsq, ?_, fun u => ?_, fun u hu hc => ?_, fun a hc ha => ?_⟩
  · rw [hsplit]
    simp only [total_append, total_cons, total_congr hs₁, total_congr hs₂, hsp]
    omega
  · rw [hsplit]
    simp only [covers_append, covers_cons, covers_congr hs₁, covers_congr hs₂, hinp u]
    tauto
  · obtain ⟨a, ha, hau⟩ := hc
    by_cases hap : a = p
    · rw [hap] at hau
      unfold InBlock at hau hu
      rw [hsp] at hau
      omega
    · have hau' : InBlock w h a u := by
        unfold InBlock at hau ⊢
        rwa [hnode a (List.mem_cons_of_mem base ha) hap] at hau
      exact hl.disjoint (List.mem_cons_of_mem base ha) hpm hap hau' ((hinp u).mpr (.inl hu))
  · refine hsame a (fun he => hc ⟨p, hp, ?_⟩) (fun he => hc ⟨p, hp, ?_⟩)
    · rw [he]
      exact ⟨Nat.le_refl _, by omega⟩
    · rw [he]
      exact hqin

theorem take_spec {n prevp p : Nat} (hl : FreeList w base h l) (hprev : prevp ∈ base :: l)
    (hnext : h.ptr prevp = p) (hn : 0 < n) (hsize : n ≤ h.size p) (hp : p ∈ base :: l) :
    ∃ l', Taken w base h l n (take w h n prevp p).1 l' (take w h n prevp p).2 := by
  have hpbase : p ≠ base := fun he => by
    rw [he, hl.base_size] at hsize
    omega
  unfold take
  split
  · next heq =>
      obtain ⟨l₁, l₂, hsplit⟩ := List.append_of_mem hprev
      have hlinked := hl.linked
      rw [hsplit] at hlinked
      rw [hlinked.next] at hnext
      cases l₂ with
      | nil => exact absurd hnext.symm hpbase
      | cons c l₂ =>
        rw [List.headD_cons] at hnext
        subst hnext
        exact heq ▸ take_whole hl hsplit
  · next hne =>
      have hlt : n < h.size p := Nat.lt_of_le_of_ne hsize (Ne.symm hne)
      dsimp only
      rw [show (h.setSize p (h.size p - n)).size p = h.size p - n from update_self ..]
      exact ⟨l, take_tail hl ((List.mem_cons.mp hp).resolve_left hpbase) hprev hn hlt rfl⟩

/-! ## What holds between the calls -/

/-- The address `u` belongs to block `b`. -/
def Block.Has (w : Nat) (b : Block) (u : Nat) : Prop := b.addr ≤ u ∧ u < b.addr + w * b.units

/-- The free list is `l`, and `k` was obtained. -/
structure Sound (w base : Nat) (h : Heap) (k : Brk) (live : List Block) (l : List Nat) : Prop where
  list : FreeList w base h l
  size : ∀ b ∈ live, h.size b.addr = b.units
  usable : ∀ b ∈ live, 0 < b.units ∧ b.nbytes ≤ (b.units - 1) * HEADER
  clear : ∀ b ∈ live, ∀ u, b.Has w u → ¬ Covers w h l u
  apart : live.Pairwise fun b c => ∀ u, b.Has w u → ¬ c.Has w u
  total : Malloc.total h l + (live.map Block.units).sum = k.got
  below : ∀ u, Covers w h l u → u < k.top
  within : ∀ b ∈ live, ∀ u, b.Has w u → base < u ∧ u < k.top
  base_lt : base < k.top

/-- The memory that was obtained is memory that the machine has. -/
structure Ok (base : Nat) (h : Heap) (k : Brk) (live : List Block) (l : List Nat) : Prop
    extends Sound headers.unit base h k live l where
  memory : k.got ≤ MEMORY

variable {k : Brk} {live : List Block}

namespace Sound

theorem has_addr (hok : Sound w base h k live l) (hb : b ∈ live) : b.Has w b.addr :=
  ⟨Nat.le_refl _, Nat.lt_add_of_pos_right (Nat.mul_pos hok.list.unit_pos (hok.usable b hb).1)⟩

theorem inBlock_iff (hok : Sound w base h k live l) (hb : b ∈ live) (u : Nat) :
    InBlock w h b.addr u ↔ b.Has w u := by
  rw [InBlock, hok.size b hb, Block.Has]

/-- No unit of a block in use is a header of the list. -/
theorem not_mem (hok : Sound w base h k live l) (hb : b ∈ live) {u : Nat} (hu : b.Has w u) :
    u ∉ base :: l := by
  rw [List.mem_cons, not_or]
  refine ⟨Nat.ne_of_gt (hok.within b hb u hu).1, fun hul => hok.clear b hb u hu ⟨u, hul, ?_⟩⟩
  exact ⟨Nat.le_refl _, Nat.lt_add_of_pos_right (hok.list.long hul)⟩

/-- The headers of the list lie below the end of the memory. -/
theorem lt_top (hok : Sound w base h k live l) (ha : a ∈ base :: l) : a < k.top := by
  rcases List.mem_cons.mp ha with rfl | ha
  · exact hok.base_lt
  · exact hok.below a ⟨a, ha, Nat.le_refl _, Nat.lt_add_of_pos_right (hok.list.long ha)⟩

/-- Only the headers of the list and of the blocks in use matter. -/
theorem congr (hok : Sound w base h k live l)
    (hlist : ∀ a ∈ base :: l, h'.ptr a = h.ptr a ∧ h'.size a = h.size a)
    (hlive : ∀ b ∈ live, h'.size b.addr = h.size b.addr) (hfreep : h'.freep = h.freep) :
    Sound w base h' k live l := by
  have hsize : ∀ a ∈ l, h'.size a = h.size a := fun a ha => (hlist a (List.mem_cons_of_mem base ha)).2
  have hcovers : ∀ u, Covers w h' l u ↔ Covers w h l u := covers_congr hsize
  refine { hok with list := ?_, size := ?_, clear := ?_, total := ?_, below := ?_ }
  · refine ⟨hok.list.unit_pos, hok.list.linked.congr fun a ha => (hlist a ha).1, ?_, ?_, ?_, hfreep ▸ hok.list.freep⟩
    · exact pairwise_gap_congr (fun a ha => (hlist a ha).2) hok.list.apart
    · exact (hlist base List.mem_cons_self).2.trans hok.list.base_size
    · exact fun a ha => hsize a ha ▸ hok.list.pos a ha
  · exact fun b hb => (hlive b hb).trans (hok.size b hb)
  · exact fun b hb u hu hc => hok.clear b hb u hu ((hcovers u).mp hc)
  · rw [total_congr hsize, hok.total]
  · exact fun u hu => hok.below u ((hcovers u).mp hu)

/-- A block that the list does not have, and none in use has, is put into the list. -/
theorem of_freed {l' : List Nat} {bp : Nat} (hok : Sound w base h k live l)
    (hfreed : Freed w base h l bp h' l') (hbp : ∀ u, InBlock w h bp u → u < k.top)
    (hother : ∀ b ∈ live, b.addr ≠ bp ∧ ∀ u, b.Has w u → ¬ InBlock w h bp u) {got : Nat}
    (hgot : got = h.size bp + k.got) : Sound w base h' ⟨k.top, got⟩ live l' where
  list := hfreed.list
  size b hb := by
    rw [hfreed.same b.addr (hok.not_mem hb (hok.has_addr hb)) (hother b hb).1]
    exact hok.size b hb
  usable := hok.usable
  clear b hb u hu hc := by
    rcases (hfreed.covers u).mp hc with hin | hc
    · exact (hother b hb).2 u hu hin
    · exact hok.clear b hb u hu hc
  apart := hok.apart
  total := by
    have htotal := hok.total
    rw [hfreed.total, hgot]
    dsimp only
    omega
  below u hu := by
    rcases (hfreed.covers u).mp hu with hin | hc
    · exact hbp u hin
    · exact hok.below u hc
  within := hok.within
  base_lt := hok.base_lt

/-- The block of a call of `free` is no longer in use. -/
theorem erase (hok : Sound w base h k live l) (hb : b ∈ live) :
    Sound w base h ⟨k.top, k.got - b.units⟩ (live.erase b) l ∧
      (∀ c ∈ live.erase b, ∀ u, c.Has w u → ¬ b.Has w u) ∧ b.units ≤ k.got := by
  have hperm := List.perm_cons_erase hb
  have hsum := (hperm.map Block.units).sum_nat
  rw [List.map_cons, List.sum_cons] at hsum
  have htotal := hok.total
  have hle : b.units ≤ k.got := by omega
  have hmem : ∀ c ∈ live.erase b, c ∈ live := fun c => List.mem_of_mem_erase
  have hapart := (hperm.pairwise_iff fun {b c} h u hc hb => h u hb hc).mp hok.apart
  obtain ⟨hbc, hapart⟩ := List.pairwise_cons.mp hapart
  refine ⟨?_, fun c hc u hcu hbu => hbc c hc u hbu hcu, hle⟩
  exact {
    list := hok.list
    size := fun c hc => hok.size c (hmem c hc)
    usable := fun c hc => hok.usable c (hmem c hc)
    clear := fun c hc => hok.clear c (hmem c hc)
    apart := hapart
    total := by dsimp only; omega
    below := hok.below
    within := fun c hc => hok.within c (hmem c hc)
    base_lt := hok.base_lt }

/-- The block that was taken out of the list is in use. -/
theorem of_taken {l' : List Nat} {n p nbytes : Nat} (hok : Sound w base h k live l)
    (htaken : Taken w base h l n h' l' p) (hn : 0 < n) (hbytes : nbytes ≤ (n - 1) * HEADER) :
    Sound w base h' k (⟨p, n, nbytes⟩ :: live) l' := by
  have hin : ∀ u, InBlock w h' p u ↔ Block.Has w ⟨p, n, nbytes⟩ u := by
    intro u
    rw [InBlock, htaken.size, Block.Has]
  have hcovers : ∀ u, Block.Has w ⟨p, n, nbytes⟩ u → Covers w h l u := fun u hu =>
    (htaken.covers u).mpr (.inl ((hin u).mpr hu))
  refine {
    list := htaken.list
    size := List.forall_mem_cons.mpr ⟨htaken.size, fun b hb => ?_⟩
    usable := List.forall_mem_cons.mpr ⟨⟨hn, hbytes⟩, hok.usable⟩
    clear := List.forall_mem_cons.mpr ⟨fun u hu => htaken.disjoint u ((hin u).mpr hu), fun b hb u hu hc => ?_⟩
    apart := List.pairwise_cons.mpr ⟨fun b hb u hu hbu => hok.clear b hb u hbu (hcovers u hu), hok.apart⟩
    total := ?_
    below := fun u hu => hok.below u ((htaken.covers u).mpr (.inr hu))
    within := List.forall_mem_cons.mpr ⟨fun u hu => ⟨?_, hok.below u (hcovers u hu)⟩, hok.within⟩
    base_lt := hok.base_lt }
  · have hne : b.addr ≠ base := Nat.ne_of_gt (hok.within b hb _ (hok.has_addr hb)).1
    rw [htaken.same b.addr (hok.clear b hb _ (hok.has_addr hb)) hne, hok.size b hb]
  · exact hok.clear b hb u hu ((htaken.covers u).mpr (.inr hc))
  · have htotal := htaken.total
    have hold := hok.total
    rw [List.map_cons, List.sum_cons]
    dsimp only
    omega
  · obtain ⟨a, ha, hau⟩ := hcovers u hu
    exact Nat.lt_of_lt_of_le (hok.list.base_lt ha) hau.1

/-- There is more memory. -/
theorem raise (hok : Sound w base h k live l) {top : Nat} (htop : k.top ≤ top) :
    Sound w base h ⟨top, k.got⟩ live l :=
  { hok with
    below := fun u hu => Nat.lt_of_lt_of_le (hok.below u hu) htop
    within := fun b hb u hu =>
      ⟨(hok.within b hb u hu).1, Nat.lt_of_lt_of_le (hok.within b hb u hu).2 htop⟩
    base_lt := Nat.lt_of_lt_of_le hok.base_lt htop }

/-- The header of a new region, above all of the memory, is written. -/
theorem header (hok : Sound w base h k live l) (htop : k.top ≤ hp) :
    Sound w base (h.setSize hp nu) ⟨hp + w * nu, k.got⟩ live l := by
  have hsame : ∀ a, a < k.top → (h.setSize hp nu).size a = h.size a := fun a ha =>
    update_of_ne (by omega) ..
  have hset : Sound w base (h.setSize hp nu) k live l :=
    hok.congr (fun a ha => ⟨rfl, hsame a (hok.lt_top ha)⟩)
      (fun b hb => hsame _ (hok.within b hb _ (hok.has_addr hb)).2) rfl
  exact hset.raise (by omega)

/-- A new region is put into the list, as a block of its own or as part of one. -/
theorem region (hok : Sound w base h k live l) (htop : k.top ≤ hp) (hgot : k.got + nu < 2 ^ 32)
    (hnu : 0 < nu) (hlen : l.length ≤ MEMORY) :
    ∃ h' l', Malloc.free w (h.setSize hp nu) hp = some h' ∧
      Sound w base h' ⟨hp + w * nu, k.got + nu⟩ live l' ∧ l'.length ≤ l.length + 1 ∧
      ∃ b ∈ l', nu ≤ h'.size b := by
  have hok₁ : Sound w base (h.setSize hp nu) ⟨hp + w * nu, k.got⟩ live l := hok.header htop
  generalize hh₁ : h.setSize hp nu = h₁ at hok₁
  have hself : h₁.size hp = nu := hh₁ ▸ update_self ..
  have hin : ∀ u, InBlock w h₁ hp u → hp ≤ u ∧ u < hp + w * nu := by
    intro u hu
    rwa [InBlock, hself] at hu
  have hlow : ∀ u, Covers w h₁ l u → u < k.top := fun u hu => by
    refine hok.below u ((covers_congr (fun a ha => ?_) u).mp hu)
    have hlt := hok.lt_top (List.mem_cons_of_mem base ha)
    exact hh₁ ▸ update_of_ne (by omega) ..
  have htotal : Malloc.total h₁ l + _ = k.got := hok₁.total
  obtain ⟨h', l', hfree, hfreed⟩ := free_spec hok₁.list (Nat.lt_of_lt_of_le hok.base_lt htop)
    (hself ▸ hnu) (fun u hu hc => Nat.not_le.mpr (hlow u hc) (Nat.le_trans htop (hin u hu).1))
    (by rw [hself]; omega) hlen
  refine ⟨h', l', hfree, ?_, hfreed.length, ?_⟩
  · refine hok₁.of_freed hfreed (fun u hu => (hin u hu).2) (fun b hb => ⟨?_, fun u hbu hu => ?_⟩) ?_
    · exact Nat.ne_of_lt (Nat.lt_of_lt_of_le (hok.within b hb _ (hok.has_addr hb)).2 htop)
    · exact Nat.not_le.mpr (hok.within b hb u hbu).2 (Nat.le_trans htop (hin u hu).1)
    · rw [hself, Nat.add_comm]
  · rw [← hself]
    exact hfreed.block

/-- A call of `free`. -/
theorem free (hok : Sound w base h k live l) (hb : b ∈ live) (hgot : k.got < 2 ^ 32)
    (hlen : l.length ≤ MEMORY) :
    ∃ h' l', Malloc.free w h b.addr = some h' ∧ Sound w base h' k (live.erase b) l' := by
  obtain ⟨hok₁, hother, hunits⟩ := hok.erase hb
  have hsize := hok.size b hb
  have htotal : Malloc.total h l + _ = k.got - b.units := hok₁.total
  obtain ⟨h', l', hfree, hfreed⟩ := free_spec hok.list (hok.within b hb _ (hok.has_addr hb)).1
    (hsize ▸ (hok.usable b hb).1) (fun u hu => hok.clear b hb u ((hok.inBlock_iff hb u).mp hu))
    (by rw [hsize]; omega) hlen
  refine ⟨h', l', hfree, hok₁.of_freed hfreed (fun u hu => ?_)
    (fun c hc => ⟨fun he => ?_, fun u hcu hu => ?_⟩) ?_⟩
  · exact (hok.within b hb u ((hok.inBlock_iff hb u).mp hu)).2
  · exact hother c hc c.addr (hok₁.has_addr hc) (he ▸ hok.has_addr hb)
  · exact hother c hc u hcu ((hok.inBlock_iff hb u).mp hu)
  · rw [hsize]
    exact (Nat.add_sub_cancel' hunits).symm

/-- A write of the program to a block in use, behind its header. -/
theorem write (hok : Sound w base h k live l) (hb : b ∈ live) (hlow : b.addr < a)
    (hhigh : a < b.addr + w * b.units)
    (hsame : ∀ c, c ≠ a → h'.ptr c = h.ptr c ∧ h'.size c = h.size c) (hfreep : h'.freep = h.freep) :
    Sound w base h' k live l := by
  have hhas : b.Has w a := ⟨Nat.le_of_lt hlow, hhigh⟩
  refine hok.congr (fun c hc => hsame c fun he => hok.not_mem hb hhas (he ▸ hc))
    (fun c hc => (hsame c.addr fun he => ?_).2) hfreep
  -- the header of another block is not in `b`, and that of `b` itself is below `a`
  by_cases hcb : c = b
  · rw [hcb] at he
    omega
  · obtain ⟨hok₁, hother, -⟩ := hok.erase hb
    have hc' : c ∈ live.erase b := (List.mem_erase_of_ne hcb).mpr hc
    exact hother c hc' a (he ▸ hok₁.has_addr hc') hhas

end Sound

/-! ## `malloc` -/

section Search

variable {R : Type} {F : Nat → Nat → Nat → R} {found : Nat → Nat → R} {n : Nat}

/-- A loop `F` goes round the circle until it finds a block that is large enough, or is back at
`freep`. -/
theorem search_walk {fuel prevp : Nat} {t : List Nat}
    (hfound : ∀ fuel prev p, n ≤ h.size p → F (fuel + 1) prev p = found prev p)
    (hstep : ∀ fuel prev p, ¬ n ≤ h.size p → h.freep ≠ some p →
      F (fuel + 1) prev p = F fuel p (h.ptr p)) (hlinked : Linked h.ptr (prevp :: t) f)
    (hfreep : h.freep = some f) (hf : f ∉ t) (hfuel : t.length < fuel) :
    (∃ prev p, prev ∈ prevp :: t ∧ p ∈ t ++ [f] ∧ h.ptr prev = p ∧ n ≤ h.size p ∧
      F fuel prevp (h.ptr prevp) = found prev p) ∨
    ((∀ p ∈ t ++ [f], h.size p < n) ∧ ∃ prev rest, fuel = rest + 1 + t.length ∧
      F fuel prevp (h.ptr prevp) = F (rest + 1) prev f) := by
  obtain ⟨fuel, rfl⟩ : ∃ m, fuel = m + 1 := ⟨fuel - 1, by omega⟩
  by_cases hsize : n ≤ h.size (h.ptr prevp)
  · refine .inl ⟨prevp, _, List.mem_cons_self, ?_, rfl, hsize, hfound fuel prevp _ hsize⟩
    rw [hlinked.1]
    cases t <;> simp
  · induction t generalizing prevp fuel with
    | nil =>
      have hnext : h.ptr prevp = f := hlinked.1
      rw [hnext] at hsize ⊢
      exact .inr ⟨by simpa using hsize, prevp, fuel, rfl, rfl⟩
    | cons q t ih =>
      have hnext : h.ptr prevp = q := hlinked.1
      rw [hnext] at hsize
      rw [List.length_cons] at hfuel
      obtain ⟨fuel, rfl⟩ : ∃ m, fuel = m + 1 := ⟨fuel - 1, by omega⟩
      have hqf : h.freep ≠ some q := fun he => hf (by rw [Option.some.inj (hfreep.symm.trans he)]; simp)
      rw [hnext, hstep (fuel + 1) prevp q hsize hqf]
      have hf' : f ∉ t := fun hft => hf (List.mem_cons_of_mem q hft)
      by_cases hsize' : n ≤ h.size (h.ptr q)
      · refine .inl ⟨q, _, by simp, ?_, rfl, hsize', hfound fuel q _ hsize'⟩
        rw [hlinked.2.1]
        cases t <;> simp
      · rcases ih hlinked.2 hf' fuel (by omega) hsize' with ⟨prev, p, hprev, hp, hpp, hn, heq⟩ | ⟨hall, prev, rest, hr, heq⟩
        · exact .inl ⟨prev, p, List.mem_cons_of_mem prevp hprev, List.mem_cons_of_mem q hp, hpp, hn, heq⟩
        · refine .inr ⟨?_, prev, rest, by rw [List.length_cons]; omega, heq⟩
          exact List.forall_mem_cons.mpr ⟨Nat.lt_of_not_le hsize, hall⟩

/-- Once round the circle, from `freep`. -/
theorem search_round {fuel : Nat}
    (hfound : ∀ fuel prev p, n ≤ h.size p → F (fuel + 1) prev p = found prev p)
    (hstep : ∀ fuel prev p, ¬ n ≤ h.size p → h.freep ≠ some p →
      F (fuel + 1) prev p = F fuel p (h.ptr p)) (hl : FreeList w base h l)
    (hfreep : h.freep = some f) (hfuel : l.length < fuel) :
    (∃ prev p, prev ∈ base :: l ∧ p ∈ base :: l ∧ h.ptr prev = p ∧ n ≤ h.size p ∧
      F fuel f (h.ptr f) = found prev p) ∨
    ((∀ p ∈ base :: l, h.size p < n) ∧ ∃ prev rest, fuel = rest + 1 + l.length ∧
      F fuel f (h.ptr f) = F (rest + 1) prev f) := by
  have hf : f ∈ base :: l := by
    obtain ⟨p, hp, hp'⟩ := hl.freep
    rwa [Option.some.inj (hfreep.symm.trans hp')]
  obtain ⟨t, hcircle, hperm⟩ := hl.rotate hf
  have hlen : t.length = l.length := by simpa using hperm.length_eq
  have hft : f ∉ t := (List.nodup_cons.mp (hperm.nodup_iff.mpr hl.nodup)).1
  have hend : ∀ p, p ∈ t ++ [f] ↔ p ∈ base :: l := fun p =>
    ((List.perm_append_singleton f t).trans hperm).mem_iff
  rcases search_walk hfound hstep hcircle hfreep hft (hlen ▸ hfuel) with
    ⟨prev, p, hprev, hp, hnext, hsize, heq⟩ | ⟨hall, prev, rest, hrest, heq⟩
  · exact .inl ⟨prev, p, hperm.mem_iff.mp hprev, (hend p).mp hp, hnext, hsize, heq⟩
  · exact .inr ⟨fun p hp => hall p ((hend p).mpr hp), prev, rest, hlen ▸ hrest, heq⟩

end Search

section Arena

variable {σ : Type} {A : Arena σ} {s : σ}

/-- Once round the circle, from `freep`. -/
theorem mallocLoop_round {n fuel : Nat} (hl : FreeList A.unit base (A.heap s) l)
    (hfreep : (A.heap s).freep = some f) (hn : 0 < n) (hfuel : l.length < fuel) :
    (∃ h' l' b, Taken A.unit base (A.heap s) l n h' l' b ∧
      mallocLoop A n fuel s f ((A.heap s).ptr f) = some (A.put s h', some b)) ∨
    ((∀ p ∈ base :: l, (A.heap s).size p < n) ∧ ∃ prev rest, fuel = rest + 1 + l.length ∧
      mallocLoop A n fuel s f ((A.heap s).ptr f) = mallocLoop A n (rest + 1) s prev f) := by
  have hround := search_round (F := fun fuel prev p => mallocLoop A n fuel s prev p)
    (fun _ _ _ hsize => if_pos hsize)
    (fun _ _ _ hsize hp => by rw [mallocLoop, if_neg hsize, if_neg hp]) hl hfreep hfuel
  rcases hround with ⟨prev, p, hprev, hp, hnext, hsize, heq⟩ | hsmall
  · obtain ⟨l', htaken⟩ := take_spec hl hprev hnext hn hsize hp
    exact .inl ⟨_, l', _, htaken, heq⟩
  · exact .inr hsmall

/-- The loop ends: without a block when `morecore` gets no memory, and otherwise with one of a state in
which `Q` holds, as it does before the loop and after `morecore`. -/
theorem mallocLoop_ends {n : Nat} {Q : σ → List Nat → Prop}
    (hQ : ∀ {s l}, Q s l → FreeList A.unit base (A.heap s) l ∧ l.length ≤ MEMORY + 1) (hs : Q s l)
    (hlen : l.length ≤ MEMORY) (hfreep : (A.heap s).freep = some f) (hn : 0 < n)
    (hmore : (∃ s', morecore A s n = some (s', none)) ∨
      ∃ s' l' p, morecore A s n = some (s', some p) ∧ (A.heap s').freep = some p ∧ Q s' l' ∧
        ∃ b ∈ l', n ≤ (A.heap s').size b) :
    (∃ s', morecore A s n = some (s', none) ∧
      mallocLoop A n turns s f ((A.heap s).ptr f) = some (s', none)) ∨
    ∃ s' l' h' l'' b, Q s' l' ∧ Taken A.unit base (A.heap s') l' n h' l'' b ∧
      mallocLoop A n turns s f ((A.heap s).ptr f) = some (A.put s' h', some b) := by
  obtain ⟨hl, -⟩ := hQ hs
  rcases mallocLoop_round hl hfreep hn (show l.length < turns by unfold turns; omega) with
    ⟨h', l', b, htaken, heq⟩ | ⟨hsmall, prev, rest, hrest, heq⟩
  · exact .inr ⟨s, l, h', l', b, hs, htaken, heq⟩
  · have hf : f ∈ base :: l := by
      obtain ⟨p, hp, hp'⟩ := hl.freep
      rwa [Option.some.inj (hfreep.symm.trans hp')]
    rw [heq, mallocLoop, if_neg (Nat.not_le.mpr (hsmall f hf)), if_pos hfreep]
    rcases hmore with ⟨s', hmore⟩ | ⟨s', l', p, hmore, hp, hs', b, hb, hsize⟩
    · exact .inl ⟨s', hmore, by rw [hmore]⟩
    · -- the second round ends at the latest at the block with the new memory
      obtain ⟨hl', hlen'⟩ := hQ hs'
      rw [hmore]
      rcases mallocLoop_round hl' hp hn (show l'.length < rest by unfold turns at hrest; omega) with
        ⟨h', l'', b, htaken, heq⟩ | ⟨hsmall, -⟩
      · exact .inr ⟨s', l', h', l'', b, hs', htaken, heq⟩
      · exact absurd (hsmall b (List.mem_cons_of_mem base hb)) (Nat.not_lt.mpr hsize)

/-- `sbrk` for `nu` headers gives a region above all earlier ones, or fails; `P` holds before and after
it of the state and of what was obtained. -/
structure Obtains (A : Arena σ) (P : σ → Brk → Prop) (nu : Nat) : Prop where
  put : ∀ {s k} h, P s k → P (A.put s h) k
  memory : ∀ {s k}, P s k → k.got ≤ MEMORY
  sbrk : ∀ {s k}, P s k → ∃ s' r, A.sbrk s nu = some (s', r) ∧ A.heap s' = A.heap s ∧
    ((r = none ∧ P s' k) ∨ ∃ hp, r = some hp ∧ k.top ≤ hp ∧ P s' ⟨hp + A.unit * nu, k.got + nu⟩)

theorem Sound.length_le (hs : Sound w base h k live l) (hgot : k.got ≤ MEMORY) : l.length ≤ MEMORY := by
  have h1 := length_le_total hs.list.pos
  have h2 := hs.total
  omega

/-- The headers that `morecore` asks for. -/
def request (nu : Nat) : Nat := if nu < 4096 then 4096 else nu

theorem le_request (nu : Nat) : nu ≤ request nu := by
  unfold request
  split <;> omega

variable {P : σ → Brk → Prop}

theorem morecore_region {s' : σ} (hsbrk : A.sbrk s (request nu) = some (s', some hp))
    (hfree : free A.unit ((A.heap s').setSize hp (request nu)) hp = some h') :
    morecore A s nu = some (A.put s' h', h'.freep) := by
  unfold request at hsbrk hfree
  simp only [morecore, hsbrk, hfree, Option.map_some]

theorem morecore_spec (hA : Obtains A P (request nu)) (hnu : 0 < nu) (hnu' : request nu < 2 ^ 31)
    (hs : Sound A.unit base (A.heap s) k live l) (hP : P s k) :
    (∃ s', morecore A s nu = some (s', none) ∧ A.heap s' = A.heap s ∧ P s' k) ∨
    ∃ s' k' l' p, morecore A s nu = some (s', some p) ∧ (A.heap s').freep = some p ∧ P s' k' ∧
      Sound A.unit base (A.heap s') k' live l' ∧ ∃ b ∈ l', nu ≤ (A.heap s').size b := by
  have hmem : MEMORY < 2 ^ 31 := by decide
  have hle := le_request nu
  have hgot := hA.memory hP
  obtain ⟨s', r, hsbrk, hheap, ⟨rfl, hP'⟩ | ⟨hp, rfl, htop, hP'⟩⟩ := hA.sbrk hP
  · refine .inl ⟨s', ?_, hheap, hP'⟩
    unfold request at hsbrk
    simp only [morecore, hsbrk]
  · rw [← hheap] at hs
    obtain ⟨h', l', hfree, hs', -, b, hb, hsize⟩ := hs.region htop (by omega)
      (Nat.lt_of_lt_of_le hnu hle) (hs.length_le hgot)
    obtain ⟨p, -, hp'⟩ := hs'.list.freep
    refine .inr ⟨A.put s' h', _, l', p, ?_, ?_, hA.put h' hP', ?_, b, hb, ?_⟩
    · rw [morecore_region hsbrk hfree, hp']
    · rw [A.heap_put, hp']
    · rwa [A.heap_put]
    · rw [A.heap_put]
      exact Nat.le_trans hle hsize

theorem mallocLoop_spec {n nbytes : Nat} (hA : Obtains A P (request n)) (hn : 0 < n)
    (hn' : request n < 2 ^ 31) (hbytes : nbytes ≤ (n - 1) * HEADER)
    (hs : Sound A.unit base (A.heap s) k live l) (hP : P s k) (hfreep : (A.heap s).freep = some f) :
    ∃ s' k' l', P s' k' ∧
      ((mallocLoop A n turns s f ((A.heap s).ptr f) = some (s', none) ∧
        Sound A.unit base (A.heap s') k' live l') ∨
      ∃ b, mallocLoop A n turns s f ((A.heap s).ptr f) = some (s', some b) ∧ (A.heap s').size b = n ∧
        Sound A.unit base (A.heap s') k' (⟨b, n, nbytes⟩ :: live) l') := by
  have hmore := morecore_spec hA hn hn' hs hP
  have hends := mallocLoop_ends
    (Q := fun s l => ∃ k, Sound A.unit base (A.heap s) k live l ∧ P s k) (by
      rintro s l ⟨k, hs, hP⟩
      exact ⟨hs.list, Nat.le_succ_of_le (hs.length_le (hA.memory hP))⟩)
    ⟨k, hs, hP⟩ (hs.length_le (hA.memory hP)) hfreep hn (by
      rcases hmore with ⟨s', hmore, -⟩ | ⟨s', k', l', p, hmore, hp, hP', hs', hb⟩
      · exact .inl ⟨s', hmore⟩
      · exact .inr ⟨s', l', p, hmore, hp, ⟨k', hs', hP'⟩, hb⟩)
  rcases hends with ⟨s', hnone, heq⟩ | ⟨s', l', h', l'', b, ⟨k', hs', hP'⟩, htaken, heq⟩
  · rcases hmore with ⟨s₁, hsome, hheap, hP'⟩ | ⟨s₁, k₁, l₁, p, hsome, -⟩
    · obtain rfl : s' = s₁ := by
        rw [hnone] at hsome
        cases hsome
        rfl
      exact ⟨s', k, l, hP', .inl ⟨heq, hheap ▸ hs⟩⟩
    · rw [hnone] at hsome
      cases hsome
  · refine ⟨A.put s' h', k', l'', hA.put h' hP', .inr ⟨b, heq, ?_, ?_⟩⟩
    · rw [A.heap_put]
      exact htaken.size
    · rw [A.heap_put]
      exact hs'.of_taken htaken hn hbytes

/-- The first call of `malloc` makes the list, of `base` alone. -/
theorem sound_start (hw : 0 < w) (h : Heap) (hfreep : h.freep = none) :
    Sound w base (start base h).1 ⟨base + 1, 0⟩ [] [] := by
  have hstart : start base h = ({ (h.setPtr base base).setSize base 0 with freep := some base }, base) := by
    rw [start, hfreep]
  rw [hstart]
  have hptr : ((h.setPtr base base).setSize base 0).ptr base = base := update_self ..
  have hsize : ((h.setPtr base base).setSize base 0).size base = 0 := update_self ..
  refine ⟨⟨hw, ⟨hptr, trivial⟩, List.pairwise_singleton .., hsize, nofun, base, by simp, rfl⟩,
    nofun, nofun, nofun, .nil, rfl, fun u hu => ?_, nofun, Nat.lt_succ_self base⟩
  exact absurd hu (covers_nil u)

theorem Sound.start (hs : Sound w base h k live l) : start base h = (h, (Malloc.start base h).2) := by
  obtain ⟨p, -, hp⟩ := hs.list.freep
  rw [Malloc.start, hp]

theorem start_freep (h : Heap) : (start base h).1.freep = some (start base h).2 := by
  unfold start
  split
  · assumption
  · rfl

theorem le_units (nbytes : Nat) : nbytes ≤ (units nbytes - 1) * HEADER := by
  unfold units HEADER
  omega

theorem units_pos (nbytes : Nat) : 0 < units nbytes := Nat.succ_pos _

theorem malloc_spec {nbytes : Nat} (hA : Obtains A P (request (units nbytes)))
    (hn : request (units nbytes) < 2 ^ 31)
    (hs : Sound A.unit base (start base (A.heap s)).1 k live l) (hP : P s k) :
    ∃ s' k' l', P s' k' ∧
      ((malloc A base s nbytes = some (s', none) ∧ Sound A.unit base (A.heap s') k' live l') ∨
      ∃ b, malloc A base s nbytes = some (s', some b) ∧ (A.heap s').size b = units nbytes ∧
        Sound A.unit base (A.heap s') k' (⟨b, units nbytes, nbytes⟩ :: live) l') := by
  have hput := A.heap_put s (start base (A.heap s)).1
  have hspec := mallocLoop_spec (s := A.put s (start base (A.heap s)).1) hA (units_pos nbytes) hn
    (le_units nbytes) (by rwa [hput]) (hA.put _ hP) (by rw [hput, start_freep])
  rwa [hput] at hspec

end Arena

/-! ## Runs -/

theorem sbrk_eq_some {a : Option Nat} {k' : Brk} (h : sbrk k nu a = some (hp, k')) :
    k.top ≤ hp ∧ k.got + nu ≤ MEMORY ∧ k' = ⟨hp + nu, k.got + nu⟩ := by
  unfold sbrk at h
  split at h
  · split at h
    · next hc =>
        cases h
        exact ⟨hc.1, hc.2, rfl⟩
    · cases h
  · cases h

theorem headers_obtains (nu : Nat) : Obtains headers (fun s k => s.brk = k ∧ k.got ≤ MEMORY) nu where
  put _ h := h
  memory h := h.2
  sbrk := by
    rintro s _ ⟨rfl, hgot⟩
    cases hsbrk : sbrk s.brk nu s.as.head? with
    | none =>
      refine ⟨{ s with as := s.as.tail }, none, ?_, rfl, .inl ⟨rfl, rfl, hgot⟩⟩
      simp only [headers, hsbrk]
    | some r =>
      obtain ⟨hp, k'⟩ := r
      obtain ⟨htop, hgot', rfl⟩ := sbrk_eq_some hsbrk
      refine ⟨{ s with brk := ⟨hp + nu, s.brk.got + nu⟩, as := s.as.tail }, some hp, ?_, rfl,
        .inr ⟨hp, rfl, htop, ?_, hgot'⟩⟩
      · simp only [headers, hsbrk]
      · simp only [headers, Nat.one_mul]

/-- A program has not called `malloc` yet, or the list is there. -/
def Inv (base : Nat) (s : State) : Prop :=
  s = State.init base ∨ ∃ l, Ok base s.heap s.brk s.live l

theorem step_malloc {s : State} (nbytes : Fin (2 ^ 32)) (as : List Nat) (hs : Inv base s) :
    (step base s (.malloc nbytes as)).All (Inv base) := by
  obtain ⟨l, hsound, hgot⟩ : ∃ l, Sound headers.unit base (start base s.heap).1 s.brk s.live l ∧
      s.brk.got ≤ MEMORY := by
    rcases hs with rfl | ⟨l, hok⟩
    · exact ⟨[], sound_start headers.unit_pos _ rfl, Nat.zero_le _⟩
    · rw [hok.toSound.start]
      exact ⟨l, hok.toSound, hok.memory⟩
  have hn : request (units nbytes) < 2 ^ 31 := by
    have hlt := nbytes.isLt
    unfold request units HEADER
    split <;> omega
  obtain ⟨s', k', l', ⟨rfl, hgot'⟩, ⟨heq, hs'⟩ | ⟨b, heq, hsize, hs'⟩⟩ :=
    malloc_spec (s := ⟨s.heap, s.brk, as⟩) (headers_obtains _) hn hsound ⟨rfl, hgot⟩
  · simp only [step, heq]
    exact .inr ⟨l', hs', hgot'⟩
  · simp only [step, heq]
    refine .inr ⟨l', ?_, hgot'⟩
    dsimp only
    rwa [show s'.heap.size b = units nbytes from hsize]

theorem step_free {s : State} (b : Block) (hs : Inv base s) : (step base s (.free b)).All (Inv base) := by
  refine Outcome.All.guard fun hb => ?_
  rcases hs with rfl | ⟨l, hok⟩
  · cases hb
  · obtain ⟨h', l', hfree, hs'⟩ := hok.free hb (Nat.lt_of_le_of_lt hok.memory (by decide))
      (hok.length_le hok.memory)
    rw [hfree]
    exact .inr ⟨l', hs', hok.memory⟩

theorem step_write {s : State} (b : Block) (a ptr size : Nat) (hs : Inv base s) :
    (step base s (.write b a ptr size)).All (Inv base) := by
  refine Outcome.All.guard fun ⟨hb, hlow, hhigh⟩ => ?_
  rcases hs with rfl | ⟨l, hok⟩
  · cases hb
  · rw [← Nat.one_mul b.units] at hhigh
    refine .inr ⟨l, hok.write hb hlow hhigh (fun c hc => ?_) rfl, hok.memory⟩
    exact ⟨update_of_ne hc .., update_of_ne hc ..⟩

/-- No call of `malloc` or `free` goes on for ever, and between any two calls the free list is in
order and has, with the blocks in use, all the memory that was obtained. -/
theorem heap_invariant (base : Nat) (es : List Event) :
    (run (step base) (State.init base) es).All fun s =>
      s = State.init base ∨ ∃ l, Ok base s.heap s.brk s.live l := by
  refine run_all (Inv base) (fun s e hs => ?_) es (.inl rfl)
  cases e with
  | malloc nbytes as => exact step_malloc nbytes as hs
  | free b => exact step_free b hs
  | write b a ptr size => exact step_write b a ptr size hs

end Xv6.Malloc
