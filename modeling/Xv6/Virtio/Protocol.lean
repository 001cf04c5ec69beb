import Xv6.Virtio.Flight

set_option autoImplicit false

/-! # The disk driver: the protocol

The requests in flight are kept by every step (`Flight`), and no step panics. What follows for every
run is in `Protocol`. -/

namespace Xv6.Virtio

open Machine Function

variable {T B D : Type}

/-! ## Requests in flight -/

/-- `a` is what is on the `avail` ring and `u` what is on the `used` ring. -/
structure Flight (s : State T B D) (a u : List Nat) : Prop where
  queues : Queues s.rings a u
  awaited : Awaited s.busy (s.rings.pending a ++ u) (Pc.phase ∘ s.pc)
  counts : Counts s.tallies (s.rings.pending a) (s.rings.pending a ++ u) (Pc.phase ∘ s.pc)
  submits : ∀ t c, (s.pc t).submits = some c → s.busy c.b = true
  slot : ∀ t c i j k, s.pc t = .publish c i j k → s.availRing (s.availIdx % NUM) = i
  status : ∀ h ∈ s.served ++ (s.posting.toList ++ u), (s.info h).status = 0

section Facts

variable {s : State T B D} {own : Nat → Option T} {a u : List Nat} {t v : T} {c d : Call B} {g h : Nat}

theorem Inv.req_eq (hi : Inv s own) {p q : Phase} (ht : (s.pc t).phase = some (c, p))
    (hv : (s.pc v).phase = some (d, q)) (hreq : d.req = c.req) : v = t :=
  hi.calls.req_inj v t d c (Pc.call_of_phase hv) (Pc.call_of_phase ht) hreq

theorem Inv.req_lt (hi : Inv s own) {p : Phase} (ht : (s.pc t).phase = some (c, p)) : c.req < s.nextReq :=
  hi.calls.req_lt t c (Pc.call_of_phase ht)

/-- A thread that has the lock is the only one in the code that needs it. -/
theorem Inv.alone (hi : Inv s own) {k k' : Pc B} (ht : s.pc t = k) (hk : k.locked = true)
    (hv : s.pc v = k') (hk' : k'.locked = true) : v = t :=
  hi.lock.excl (by rwa [comp_apply, hv]) (by rwa [comp_apply, ht])

/-- A descriptor is the head of the chain of one thread. -/
theorem Inv.head_eq (hi : Inv s own) (ht : (s.pc t).phase = some (c, .flying h))
    (hv : h ∈ (s.pc v).chain) : v = t :=
  hi.chains.held.excl (c := v) (d := t) hv (Pc.head_of_flying ht)

theorem Flight.lt (hf : Flight s a u) (hi : Inv s own) (hh : h ∈ s.rings.pending a ++ u) : h < NUM := by
  obtain ⟨t, c, ht⟩ := hf.awaited.exists_of_mem h hh
  exact hi.chains.lt_of_mem (t := t) (Pc.head_of_flying ht)

/-- The descriptors of a thread whose request is not in flight are not heads of requests in flight. -/
theorem Flight.not_mem (hf : Flight s a u) (hi : Inv s own)
    (ht : ∀ c h, (s.pc t).phase ≠ some (c, .flying h)) (hd : h ∈ (s.pc t).chain) :
    h ∉ s.rings.pending a ++ u := by
  intro hmem
  obtain ⟨v, c, hv⟩ := hf.awaited.exists_of_mem h hmem
  have htv : t = v := hi.head_eq hv hd
  subst htv
  exact ht c h hv

/-- The tables hold the requests in flight. -/
theorem Flight.formatted (hf : Flight s a u) (hi : Inv s own) (hh : h ∈ s.rings.pending a ++ u) :
    ∃ t c i j, (s.pc t).phase = some (c, .flying h) ∧ Formatted s.tables c h i j := by
  obtain ⟨t, c, ht⟩ := hf.awaited.exists_of_mem h hh
  obtain ⟨i, j, hw⟩ := (hi.written t).formatted ht
  exact ⟨t, c, i, j, ht, hw⟩

theorem mem_rest_iff {l m : List Nat} (hperm : l.Perm (h :: m)) (hnd : l.Nodup) (d : Nat) :
    d ∈ m ↔ d ∈ l ∧ d ≠ h := by
  have hnot := (List.nodup_cons.1 (hperm.nodup_iff.1 hnd)).1
  rw [hperm.mem_iff, List.mem_cons]
  constructor
  · intro hd
    exact ⟨.inr hd, fun he => hnot (he ▸ hd)⟩
  · rintro ⟨hd | hd, hne⟩
    · exact absurd hd hne
    · exact hd

theorem mem_pending_of_served (hh : h ∈ s.served) : h ∈ s.rings.pending a :=
  List.mem_append_right _ (List.mem_append_right _ (List.mem_append_left _ hh))

theorem mem_pending_of_taken (hh : h ∈ s.taken) : h ∈ s.rings.pending a :=
  List.mem_append_right _ (List.mem_append_left _ hh)

theorem mem_pending_of_posting (hp : s.posting = some h) : h ∈ s.rings.pending a := by
  refine List.mem_append_right _ (List.mem_append_right _ (List.mem_append_right _ ?_))
  show h ∈ s.posting.toList
  rw [hp]
  exact List.mem_singleton_self h

theorem mem_flight_of_status (hh : h ∈ s.served ++ (s.posting.toList ++ u)) :
    h ∈ s.rings.pending a ++ u := by
  rw [← List.append_assoc] at hh
  rcases List.mem_append.1 hh with hh | hh
  · exact List.mem_append_left _ (List.mem_append_right _ (List.mem_append_right _ hh))
  · exact List.mem_append_right _ hh

end Facts

section Steps

variable [DecidableEq T] {s s' : State T B D} {own : Nat → Option T} {a u : List Nat} {t : T}
  {c : Call B} {h i j l : Nat} {k : Pc B}

theorem submits_goto {busy : B → Bool} {pc : T → Pc B} (hs : ∀ t c, (pc t).submits = some c → busy c.b = true)
    (hk : ∀ c, k.submits = some c → busy c.b = true) (v : T) (c : Call B)
    (hv : (update pc t k v).submits = some c) : busy c.b = true := by
  by_cases hvt : v = t
  · subst hvt
    rw [update_self] at hv
    exact hk c hv
  · rw [update_of_ne hvt] at hv
    exact hs v c hv

theorem slot_goto {x : Nat} {pc : T → Pc B}
    (hs : ∀ v c i j l, v ≠ t → pc v = .publish c i j l → x = i)
    (hk : ∀ c i j l, k = .publish c i j l → x = i) (v : T) (c : Call B) (i j l : Nat)
    (hv : update pc t k v = .publish c i j l) : x = i := by
  by_cases hvt : v = t
  · subst hvt
    rw [update_self] at hv
    exact hk c i j l hv
  · rw [update_of_ne hvt] at hv
    exact hs v c i j l hvt hv

omit [DecidableEq T] in
theorem Pc.ne_publish_of_submits (hk : k.submits = none) (c : Call B) (i j l : Nat) :
    k ≠ .publish c i j l := by
  rintro rfl
  cases hk

/-- A thread goes on in the same phase. -/
theorem Flight.move (hf : Flight s a u) (hpc : s'.pc = update s.pc t k)
    (hphase : k.phase = (s.pc t).phase) (hsub : k.submits = none) (hrings : s'.rings = s.rings)
    (htal : s'.tallies = s.tallies) (hbusy : s'.busy = s.busy)
    (hst : ∀ d, (s'.info d).status = (s.info d).status) : Flight s' a u where
  queues := hrings ▸ hf.queues
  awaited := by
    rw [hrings, hbusy, hpc]
    exact keep_goto hf.awaited rfl hphase
  counts := by
    rw [hrings, htal, hpc]
    exact keep_goto hf.counts rfl hphase
  submits := by
    rw [hpc, hbusy]
    refine submits_goto hf.submits fun d hd => ?_
    rw [hsub] at hd
    cases hd
  slot := by
    rw [hpc, show s'.availRing = s.availRing from congrArg Rings.availRing hrings,
      show s'.availIdx = s.availIdx from congrArg Rings.availIdx hrings]
    exact slot_goto (fun v d i j l _ => hf.slot v d i j l) fun d i j l hd => absurd hd (Pc.ne_publish_of_submits hsub d i j l)
  status := by
    rw [show s'.served = s.served from congrArg Rings.served hrings,
      show s'.posting = s.posting from congrArg Rings.posting hrings]
    intro d hd
    rw [hst d]
    exact hf.status d hd

/-- `virtio_disk_rw` is called. -/
theorem Flight.rw (hf : Flight s a u) (hk : s.pc t = .idle) (hreq : c.req = s.nextReq) :
    Flight { s with nextReq := s.nextReq + 1, pc := update s.pc t (.acquire c) } a u where
  queues := hf.queues
  awaited := by
    refine change_goto (a := some (c, .before)) (hf.awaited.goto ?_ nofun) rfl
    intro d g hd
    rw [comp_apply, hk] at hd
    cases hd
  counts := by
    have ht : (Pc.phase ∘ s.pc) t = none := by rw [comp_apply, hk]; rfl
    exact change_goto (hf.counts.start (c := c) ht hreq) rfl
  submits := submits_goto hf.submits (by rintro _ ⟨⟩)
  slot := slot_goto (fun v d i j l _ => hf.slot v d i j l) (by rintro _ _ _ _ ⟨⟩)
  status := hf.status

/-- `b->disk` is seen clear. -/
theorem Flight.seen (hf : Flight s a u) (hk : s.pc t = .test c i j l) (hb : s.busy c.b = false) :
    Flight { s with pc := update s.pc t (.clear c i j l) } a u := by
  have ht : (Pc.phase ∘ s.pc) t = some (c, .flying i) := by rw [comp_apply, hk]; rfl
  have hi : i ∉ s.rings.pending a ++ u := by
    intro hmem
    rw [(hf.awaited.busy_iff t c i ht).2 hmem] at hb
    cases hb
  have hip : i ∉ s.rings.pending a := fun hmem => hi (List.mem_append_left _ hmem)
  constructor
  case queues => exact hf.queues
  case awaited =>
    refine change_goto (a := some (c, .after)) (hf.awaited.goto ?_ nofun) rfl
    intro d g hd
    rw [ht] at hd
    cases hd
    exact hi
  case counts =>
    refine change_goto (hf.counts.goto ht .after ?_ ?_ fun _ _ _ _ _ => ⟨rfl, rfl⟩) rfl
    · exact (if_neg hip).symm
    · exact (if_neg hi).symm
  case submits => exact submits_goto hf.submits (by rintro _ ⟨⟩)
  case slot => exact slot_goto (fun v d i j l _ => hf.slot v d i j l) (by rintro _ _ _ _ ⟨⟩)
  case status => exact hf.status

/-- The request is written to the tables. -/
theorem Flight.format [DecidableEq B] (hf : Flight s a u) (hi : Inv s own)
    (hk : s.pc t = .format c i j l) :
    Flight { s.format c i j l with pc := update s.pc t (.ring c i j l) } a u := by
  have hcall : (Pc.call ∘ s.pc) t = some c := by rw [comp_apply, hk]; rfl
  have hnot : i ∉ s.rings.pending a ++ u := by
    refine hf.not_mem hi (t := t) ?_ ?_
    · intro d g hd
      rw [hk] at hd
      cases hd
    · rw [hk]
      exact List.mem_cons_self
  constructor
  case queues => exact hf.queues
  case awaited =>
    refine keep_goto (hf.awaited.format (b := c.b) ?_) hk rfl
    intro v d g hv he
    have hvt : v = t := hi.calls.buf_inj (Pc.call_of_phase hv) hcall he
    subst hvt
    rw [comp_apply, hk] at hv
    cases hv
  case counts => exact keep_goto hf.counts hk rfl
  case submits =>
    refine submits_goto (fun v d hd => ?_) fun d hd => ?_
    · by_cases hdb : d.b = c.b
      · simp [State.format, hdb]
      · simpa [State.format, hdb] using hf.submits v d hd
    · cases hd
      simp [State.format]
  case slot => exact slot_goto (fun v d i j l _ => hf.slot v d i j l) (by rintro _ _ _ _ ⟨⟩)
  case status =>
    intro d hd
    have hdi : d ≠ i := by
      rintro rfl
      exact hnot (mem_flight_of_status hd)
    simpa [State.format, hdi] using hf.status d hd

omit [DecidableEq T] in
theorem Flight.avail_room (hf : Flight s a u) (hi : Inv s own) (hd : i ∈ (s.pc t).chain)
    (ht : ∀ c h, (s.pc t).phase ≠ some (c, .flying h)) :
    i ∉ s.rings.pending a ++ u ∧ a.length < NUM := by
  have hnot := hf.not_mem hi ht hd
  exact ⟨hnot, hf.queues.avail_room (fun d hd => hf.lt hi hd) hnot (hi.chains.lt_of_mem (t := t) hd)⟩

/-- `disk.avail->ring[disk.avail->idx % NUM] = idx[0]`. -/
theorem Flight.ring (hf : Flight s a u) (hi : Inv s own) (hk : s.pc t = .ring c i j l) :
    Flight { s with
      availRing := update s.availRing (s.availIdx % NUM) i
      pc := update s.pc t (.publish c i j l) } a u := by
  obtain ⟨-, hroom⟩ := hf.avail_room hi (i := i) (t := t) (by rw [hk]; exact List.mem_cons_self)
    (by rw [hk]; rintro _ _ ⟨⟩)
  constructor
  case queues => exact hf.queues.ring hroom i
  case awaited => exact keep_goto hf.awaited hk rfl
  case counts => exact keep_goto hf.counts hk rfl
  case submits =>
    refine submits_goto hf.submits fun d hd => ?_
    cases hd
    exact hf.submits t c (by rw [hk]; rfl)
  case slot =>
    refine slot_goto (fun v d i' j' l' hne hv => absurd (hi.alone hk rfl hv rfl) hne) ?_
    rintro d i' j' l' ⟨⟩
    exact update_self ..
  case status => exact hf.status

/-- `disk.avail->idx += 1`. -/
theorem Flight.publish (hf : Flight s a u) (hi : Inv s own) (hk : s.pc t = .publish c i j l) :
    Flight { s with
      availIdx := (s.availIdx + 1) % 2 ^ 16
      pc := update s.pc t (.test c i j l) } (a ++ [i]) u := by
  have hchain : i ∈ (s.pc t).chain := by rw [hk]; exact List.mem_cons_self
  have hph : ∀ d g, (s.pc t).phase ≠ some (d, .flying g) := by rw [hk]; rintro _ _ ⟨⟩
  have ht : (Pc.phase ∘ s.pc) t = some (c, .before) := by rw [comp_apply, hk]; rfl
  obtain ⟨hnot, hroom⟩ := hf.avail_room hi hchain hph
  have hpermF := Queues.perm_publish s.rings a u i
  have hpermP := Queues.perm_publish s.rings a [] i
  rw [List.append_nil, List.append_nil] at hpermP
  have hother : ∀ v d g, (Pc.phase ∘ s.pc) v = some (d, .flying g) → g ≠ i := by
    rintro v d g hv rfl
    have htv : t = v := hi.head_eq hv hchain
    subst htv
    exact hph d g hv
  constructor
  case queues => exact hf.queues.publish hroom hnot (hf.slot t c i j l hk)
  case awaited =>
    have hbusy : s.busy c.b = true := hf.submits t c (by rw [hk]; rfl)
    have hmem : ∀ d, d ∈ s.rings.pending (a ++ [i]) ++ u ↔ d = i ∨ d ∈ s.rings.pending a ++ u := by
      intro d
      rw [hpermF.mem_iff, List.mem_cons]
    exact change_goto (hf.awaited.publish hph hother hbusy hmem) rfl
  case counts =>
    have hP : (Phase.flying i).completed (s.rings.pending (a ++ [i])) = 0 :=
      if_pos (hpermP.mem_iff.2 List.mem_cons_self)
    have hF : (Phase.flying i).cleared (s.rings.pending (a ++ [i]) ++ u) = 0 :=
      if_pos (hpermF.mem_iff.2 List.mem_cons_self)
    have hkeep : ∀ v d q, v ≠ t → (Pc.phase ∘ s.pc) v = some (d, q) →
        q.completed (s.rings.pending (a ++ [i])) = q.completed (s.rings.pending a) ∧
          q.cleared (s.rings.pending (a ++ [i]) ++ u) = q.cleared (s.rings.pending a ++ u) := by
      intro v d q _ hv
      cases q with
      | flying g => simp only [Phase.completed, Phase.cleared, hpermP.mem_iff, hpermF.mem_iff,
          List.mem_cons, hother v d g hv, false_or, and_self]
      | before | after => exact ⟨rfl, rfl⟩
    exact change_goto (hf.counts.goto ht (.flying i) hP hF hkeep) rfl
  case submits => exact submits_goto hf.submits (by rintro _ ⟨⟩)
  case slot =>
    exact slot_goto (fun v d i' j' l' hne hv => absurd (hi.alone hk rfl hv rfl) hne)
      (by rintro _ _ _ _ ⟨⟩)
  case status => exact hf.status

/-- `virtio_disk_rw` returns. -/
theorem Flight.release (hf : Flight s a u) (hi : Inv s own) (hk : s.pc t = .release c) :
    Flight { s with
      lock := none
      returned := update s.returned c.req (s.returned c.req + 1)
      pc := update s.pc t .idle } a u where
  queues := hf.queues
  awaited := by
    refine change_goto (a := none) (hf.awaited.goto ?_ nofun) rfl
    intro d g hd
    rw [comp_apply, hk] at hd
    cases hd
  counts := by
    have ht : (Pc.phase ∘ s.pc) t = some (c, .after) := by rw [comp_apply, hk]; rfl
    exact change_goto (hf.counts.finish ht (hi.req_lt ht) fun v d q hv he => hi.req_eq ht hv he) rfl
  submits := submits_goto hf.submits nofun
  slot := slot_goto (fun v d i j l _ => hf.slot v d i j l) nofun
  status := hf.status

omit [DecidableEq T] in
/-- The oldest element of the `used` ring is a request in flight. -/
theorem Flight.used_head (hf : Flight s a u) (hne : s.seenIdx ≠ s.usedIdx) :
    ∃ u', u = s.usedRing (s.seenIdx % NUM) :: u' := by
  cases u with
  | nil => exact absurd ((hf.queues.used.empty_iff num_lt).2 rfl) hne
  | cons x u' => exact ⟨u', congrArg (· :: u') hf.queues.used.head_eq.symm⟩

/-- `virtio_disk_intr` clears `b->disk` for a request. -/
theorem Flight.intrBody [DecidableEq B] (hf : Flight s a (h :: u)) (hi : Inv s own) {b : B}
    (hk : s.pc t = .intrBody) (hb : (s.info h).b = some b) :
    Flight { s with
      busy := update s.busy b false
      cleared := update s.cleared (s.reqOf h) (s.cleared (s.reqOf h) + 1)
      seenIdx := (s.seenIdx + 1) % 2 ^ 16
      pc := update s.pc t .intrTest } a u := by
  have hmem : h ∈ s.rings.pending a ++ (h :: u) := List.mem_append_right _ List.mem_cons_self
  obtain ⟨v, c, i, j, hv, hw⟩ := hf.formatted hi hmem
  -- the buffer and the request that the tables name are those of the thread that waits
  have hbuf : b = c.b := by
    have hcb : (s.info h).b = some c.b := hw.buf
    rw [hb] at hcb
    exact Option.some.inj hcb
  have hreq : s.reqOf h = c.req := hw.req
  subst hbuf
  rw [hreq]
  have hcall := Pc.call_of_phase hv
  have hF := mem_rest_iff List.perm_middle hf.queues.nodup
  have hhead : ∀ w d g, (Pc.phase ∘ s.pc) w = some (d, .flying g) → g = h → w = v := by
    rintro w d g hw' rfl
    exact hi.head_eq hv (Pc.head_of_flying hw')
  constructor
  case queues => exact hf.queues.seen
  case awaited =>
    have hother : ∀ w d g, (Pc.phase ∘ s.pc) w = some (d, .flying g) → d.b = c.b ∨ g = h → w = v := by
      rintro w d g hw' (he | he)
      · exact hi.calls.buf_inj (Pc.call_of_phase hw') hcall he
      · exact hhead w d g hw' he
    exact keep_goto (hf.awaited.clear hv hother hF) hk rfl
  case counts =>
    have hclear := hf.counts.clear hv (hi.req_lt hv) (fun w d q hw' he => hi.req_eq hv hw' he) hhead hmem hF
    exact keep_goto hclear hk rfl
  case submits =>
    refine submits_goto (fun w d hd => ?_) nofun
    have hdb : d.b ≠ c.b := by
      intro he
      have hwv : w = v := hi.calls.buf_inj (Pc.call_of_submits hd) hcall he
      subst hwv
      cases hpc : s.pc w <;> simp [hpc, Pc.submits, Pc.phase] at hd hv
    exact (update_of_ne hdb _ _).trans (hf.submits w d hd)
  case slot => exact slot_goto (fun v d i j l _ => hf.slot v d i j l) nofun
  case status =>
    intro d hd
    apply hf.status d
    rcases List.mem_append.1 hd with hd | hd
    · exact List.mem_append_left _ hd
    · refine List.mem_append_right _ ?_
      rcases List.mem_append.1 hd with hd | hd
      · exact List.mem_append_left _ hd
      · exact List.mem_append_right _ (List.mem_cons_of_mem h hd)

/-! ## The device -/

omit [DecidableEq T] in
/-- The device moves requests, and the ones in flight stay the same. -/
theorem Flight.device {a' : List Nat} (hf : Flight s a u) (hpc : s'.pc = s.pc) (hbusy : s'.busy = s.busy)
    (htal : s'.tallies = s.tallies) (hq : Queues s'.rings a' u)
    (hperm : (s'.rings.pending a').Perm (s.rings.pending a)) (hring : s'.availRing = s.availRing)
    (hidx : s'.availIdx = s.availIdx)
    (hst : ∀ h ∈ s'.served ++ (s'.posting.toList ++ u), (s'.info h).status = 0) : Flight s' a' u where
  queues := hq
  awaited := by
    rw [hpc, hbusy]
    exact hf.awaited.congr fun d => (hperm.append_right u).mem_iff
  counts := by
    rw [hpc, htal]
    exact hf.counts.congr (fun d => hperm.mem_iff) fun d => (hperm.append_right u).mem_iff
  submits := by
    rw [hpc, hbusy]
    exact hf.submits
  slot := by
    rw [hpc, hring, hidx]
    exact hf.slot
  status := hst

omit [DecidableEq T] in
theorem Flight.fetch (hf : Flight s a u) (hidx : s.devIdx ≠ s.availIdx) :
    ∃ a', Flight { s with
      devIdx := (s.devIdx + 1) % 2 ^ 16
      taken := s.availRing (s.devIdx % NUM) :: s.taken } a' u := by
  obtain ⟨a', hq, hperm⟩ := hf.queues.fetch hidx rfl
  exact ⟨a', hf.device rfl rfl rfl hq hperm rfl rfl hf.status⟩

omit [DecidableEq T] in
theorem Flight.serve [DecidableEq B] (hf : Flight s a u) (hi : Inv s own) {q : Request B}
    (hmem : h ∈ s.taken) (hq : s.request h = some q) :
    Flight { s.transfer q with taken := s.taken.erase h, served := h :: s.served } a u := by
  obtain ⟨hqueues, hperm⟩ := hf.queues.serve hmem rfl
  refine hf.device rfl rfl rfl hqueues hperm rfl rfl ?_
  -- the status goes where the driver looks for it
  obtain ⟨t, c, i, j, ht, hw⟩ := hf.formatted hi (List.mem_append_left u (mem_pending_of_taken hmem))
  rw [hw.request] at hq
  cases hq
  intro d hd
  by_cases hdh : d = h
  · subst hdh
    simp [State.transfer]
  · have hd' : d ∈ s.served ++ (s.posting.toList ++ u) := by
      rcases List.mem_cons.1 hd with hd | hd
      · exact absurd hd hdh
      · exact hd
    simpa [State.transfer, hdh] using hf.status d hd'

omit [DecidableEq T] in
theorem Flight.used_room (hf : Flight s a u) (hi : Inv s own) (hh : h ∈ s.rings.pending a) :
    u.length < NUM :=
  hf.queues.used_room (fun _ hd => hf.lt hi hd) hh

omit [DecidableEq T] in
theorem Flight.post (hf : Flight s a u) (hi : Inv s own) (hmem : h ∈ s.served) (hp : s.posting = none) :
    Flight { s with
      usedRing := update s.usedRing (s.usedIdx % NUM) h
      served := s.served.erase h
      posting := some h } a u := by
  have hroom := hf.used_room hi (mem_pending_of_served (a := a) hmem)
  obtain ⟨hqueues, hperm⟩ := hf.queues.post hroom hmem hp rfl
  refine hf.device rfl rfl rfl hqueues hperm rfl rfl ?_
  intro d hd
  apply hf.status d
  rcases List.mem_append.1 hd with hd | hd
  · exact List.mem_append_left _ (List.mem_of_mem_erase hd)
  · rcases List.mem_append.1 hd with hd | hd
    · rw [List.mem_singleton.1 hd]
      exact List.mem_append_left _ hmem
    · exact List.mem_append_right _ (List.mem_append_right _ hd)

omit [DecidableEq T] in
theorem Flight.count (hf : Flight s a u) (hi : Inv s own) (hp : s.posting = some h) :
    Flight { s with
      usedIdx := (s.usedIdx + 1) % 2 ^ 16
      posting := none
      completed := update s.completed (s.reqOf h) (s.completed (s.reqOf h) + 1) } a (u ++ [h]) := by
  have hpend : h ∈ s.rings.pending a := mem_pending_of_posting hp
  obtain ⟨hqueues, hpermP, hpermF⟩ := hf.queues.count (hf.used_room hi hpend) hp rfl
  obtain ⟨v, c, i, j, hv, hw⟩ := hf.formatted hi (List.mem_append_left u hpend)
  have hreq : s.reqOf h = c.req := hw.req
  rw [hreq]
  constructor
  case queues => exact hqueues
  case awaited => exact hf.awaited.congr fun d => hpermF.mem_iff
  case counts =>
    have hP := mem_rest_iff hpermP (List.nodup_append.1 hf.queues.nodup).1
    refine hf.counts.count hv (hi.req_lt hv) (fun w d q hw' he => hi.req_eq hv hw' he) ?_ hpend hP
      fun d => hpermF.mem_iff
    rintro w d g hw' rfl
    exact hi.head_eq hv (Pc.head_of_flying hw')
  case submits => exact hf.submits
  case slot => exact hf.slot
  case status =>
    intro d hd
    apply hf.status d
    rw [hp]
    simp only [Option.toList_none, Option.toList_some, List.nil_append, List.mem_append,
      List.mem_singleton] at hd ⊢
    rcases hd with hd | hd | hd
    · exact .inl hd
    · exact .inr (.inr hd)
    · exact .inr (.inl hd)

end Steps

/-! ## Every step -/

section Sound

variable [DecidableEq T] [DecidableEq B] {s s' : State T B D} {own : Nat → Option T} {a u : List Nat}

structure Sound (s : State T B D) (own : Nat → Option T) (a u : List Nat) : Prop where
  inv : Inv s own
  flight : Flight s a u
  body : ∀ t, s.pc t = .intrBody → u ≠ []

omit [DecidableEq B] in
theorem body_goto {pc : T → Pc B} {t : T} {k : Pc B} (h : ∀ t, pc t = .intrBody → u ≠ [])
    (hk : k = .intrBody → u ≠ []) (v : T) (hv : update pc t k v = .intrBody) : u ≠ [] := by
  by_cases hvt : v = t
  · subst hvt
    rw [update_self] at hv
    exact hk hv
  · rw [update_of_ne hvt] at hv
    exact h v hv

omit [DecidableEq B] in
theorem Sound.flight_quiet (h : Sound s own a u) {t : T} {k : Pc B} (hk : Quiet s (s.pc t) k) :
    Flight { s with pc := update s.pc t k } a u ∧
      ∀ v, update s.pc t k v = .intrBody → u ≠ [] := by
  have hf := h.flight
  generalize hpc : s.pc t = k₀ at hk
  cases hk with
  | intr | stop =>
    exact ⟨hf.move rfl (by rw [hpc]; rfl) rfl rfl rfl rfl fun _ => rfl, body_goto h.body nofun⟩
  | seen c i j l hb => exact ⟨hf.seen hpc hb, body_goto h.body nofun⟩
  | more hidx =>
    refine ⟨hf.move rfl (by rw [hpc]; rfl) rfl rfl rfl rfl fun _ => rfl, body_goto h.body ?_⟩
    rintro - rfl
    exact hidx ((hf.queues.used.empty_iff num_lt).2 rfl)

theorem Sound.flight_step (h : Sound s own a u) (hs : Step s s') :
    ∃ a' u', Flight s' a' u' ∧ ∀ t, s'.pc t = .intrBody → u' ≠ [] := by
  have hf := h.flight
  have hi := h.inv
  cases hs with
  | quiet t k hk => exact ⟨a, u, h.flight_quiet hk⟩
  | take t _ hk | drop t _ hk =>
    refine ⟨a, u, hf.move rfl hk.phase_eq ?_ rfl rfl rfl fun _ => rfl, body_goto h.body ?_⟩
    · generalize s.pc t = k₀ at hk
      cases hk <;> rfl
    · rintro rfl
      generalize s.pc t = k₀ at hk
      cases hk
  | acquiresleep | store =>
    exact ⟨a, u, ⟨hf.queues, hf.awaited, hf.counts, hf.submits, hf.slot, hf.status⟩, h.body⟩
  | releasesleep t b hk ho =>
    exact ⟨a, u, ⟨hf.queues, hf.awaited, hf.counts, hf.submits, hf.slot, hf.status⟩, h.body⟩
  | rw t b sector write hk ho => exact ⟨a, u, hf.rw hk rfl, body_goto h.body nofun⟩
  | alloc _ _ _ _ _ hk | allocFail _ _ _ hk =>
    exact ⟨a, u, hf.move rfl (by rw [hk]; rfl) rfl rfl rfl rfl fun _ => rfl, body_goto h.body nofun⟩
  | format t c i j l hk => exact ⟨a, u, hf.format hi hk, body_goto h.body nofun⟩
  | ring t c i j l hk => exact ⟨a, u, hf.ring hi hk, body_goto h.body nofun⟩
  | publish t c i j l hk => exact ⟨a ++ [i], u, hf.publish hi hk, body_goto h.body nofun⟩
  | clear t c i j l hk =>
    refine ⟨a, u, hf.move rfl (by rw [hk]; rfl) rfl rfl rfl rfl fun d => ?_, body_goto h.body nofun⟩
    by_cases hd : d = i
    · subst hd
      simp
    · simp [hd]
  | freeChain t c i left hk =>
    refine ⟨a, u, hf.move rfl ?_ ?_ rfl rfl rfl fun _ => rfl, body_goto h.body ?_⟩
    · rw [hk]
      exact afterFree_phase ..
    · unfold afterFree
      split <;> rfl
    · unfold afterFree
      split <;> nofun
  | release t c hk => exact ⟨a, u, hf.release hi hk, body_goto h.body nofun⟩
  | intrBody t id b hk hid hb =>
    have hne : s.seenIdx ≠ s.usedIdx := fun he => h.body t hk ((hf.queues.used.empty_iff num_lt).1 he)
    obtain ⟨u', hu⟩ := hf.used_head hne
    rw [hid] at hu
    subst hu
    refine ⟨a, u', hf.intrBody hi hk hb, ?_⟩
    intro v hv
    have hvt : v ≠ t := by
      rintro rfl
      simp at hv
    simp only [update_of_ne hvt] at hv
    exact absurd (hi.alone hk rfl hv rfl) hvt
  | fetch hidx =>
    obtain ⟨a', hf'⟩ := hf.fetch hidx
    exact ⟨a', u, hf', h.body⟩
  | serve d q hmem hq => exact ⟨a, u, hf.serve hi hmem hq, h.body⟩
  | post d hmem hp => exact ⟨a, u, hf.post hi hmem hp, h.body⟩
  | count d hp => exact ⟨a, u ++ [d], hf.count hi hp, fun _ _ => by simp⟩

theorem Sound.keep (h : Sound s own a u) (hs : Step s s') : ∃ own' a' u', Sound s' own' a' u' := by
  obtain ⟨own', hi⟩ := h.inv.keep hs
  obtain ⟨a', u', hf, hbody⟩ := h.flight_step hs
  exact ⟨own', a', u', hi, hf, hbody⟩

omit [DecidableEq T] [DecidableEq B] in
theorem Sound.boot (data : B → D) (blocks : Nat → D) :
    Sound (State.init T data blocks) (fun _ => none) [] [] where
  inv := Inv.boot data blocks
  flight := by
    constructor
    case queues => exact ⟨Fifo.nil (by decide) _, Fifo.nil (by decide) _, nofun, List.nodup_nil⟩
    case awaited => exact ⟨nofun, nofun⟩
    case counts => exact ⟨fun _ _ => ⟨rfl, rfl, rfl⟩, nofun, fun _ hr => absurd hr (Nat.not_lt_zero _)⟩
    case submits => exact nofun
    case slot => exact nofun
    case status => exact nofun
  body := nofun

/-! ## No panic -/

omit [DecidableEq B] in
theorem withLock_ne_panic {t : T} {k : Pc B} {m : Panic} : s.withLock t k ≠ .panic m := by
  intro h
  obtain ⟨-, h⟩ := Outcome.guard_eq_panic.1 h
  cases h

/-- `virtio_disk_intr` finds a request with a buffer and the status `0`. -/
theorem Sound.intrBody_ne_panic (h : Sound s own a u) {t : T} {m : Panic} (hk : s.pc t = .intrBody) :
    intrBody s t ≠ .panic m := by
  have hne : s.seenIdx ≠ s.usedIdx := fun he =>
    h.body t hk ((h.flight.queues.used.empty_iff num_lt).1 he)
  obtain ⟨u', hu⟩ := h.flight.used_head hne
  have hmem : s.usedRing (s.seenIdx % NUM) ∈ u := by
    rw [hu]
    exact List.mem_cons_self
  have hflight := List.mem_append_right (s.rings.pending a) hmem
  have hlt := h.flight.lt h.inv hflight
  have hstatus := h.flight.status _ (List.mem_append_right _ (List.mem_append_right _ hmem))
  obtain ⟨v, c, i, j, -, hw⟩ := h.flight.formatted h.inv hflight
  have hbuf : (s.info (s.usedRing (s.seenIdx % NUM))).b = some c.b := hw.buf
  simp [intrBody, Nat.not_le.2 hlt, hstatus, hbuf]

/-- `free_desc` finds a descriptor in use. -/
theorem Sound.threadStep_ne_panic (h : Sound s own a u) (t : T) (m : Panic) :
    threadStep s t ≠ .panic m := by
  cases hk : s.pc t with
  | alloc c =>
    obtain ⟨r, hr, -⟩ := alloc3Desc_spec s
    simp only [threadStep, hk, hr, Outcome.bind]
    split <;> simp
  | freeChain c i left =>
    obtain ⟨-, hchain⟩ := h.inv.left_eq hk
    have hi : i ∈ (Pc.chain ∘ s.pc) t := by
      rw [hchain]
      exact List.mem_cons_self
    simp [threadStep, hk, freeDesc_of_lt (h.inv.chains.lt_of_mem hi) (h.inv.chains.not_free hi),
      Outcome.bind]
  | intrBody =>
    simp only [threadStep, hk]
    exact h.intrBody_ne_panic hk
  | acquire | wait | intrAcquire =>
    simp only [threadStep, hk]
    exact withLock_ne_panic
  | test c i j l =>
    simp only [threadStep, hk]
    split <;> simp
  | _ => simp [threadStep, hk]

omit [DecidableEq T] in
theorem Sound.serve_ne_panic (h : Sound s own a u) {d : Nat} {m : Panic} (hd : d ∈ s.taken) :
    serve s d ≠ .panic m := by
  obtain ⟨t, c, i, j, -, hw⟩ :=
    h.flight.formatted h.inv (List.mem_append_left u (mem_pending_of_taken hd))
  simp [serve, hw.request]

theorem Sound.step_ne_panic (h : Sound s own a u) (e : Event T B D) (m : Panic) :
    step s e ≠ .panic m := by
  intro hs
  cases e with
  | next t => exact h.threadStep_ne_panic t m hs
  | serve d =>
    obtain ⟨hd, hs⟩ := Outcome.guard_eq_panic.1 hs
    exact h.serve_ne_panic hd hs
  | count =>
    have hcount : count s = .panic m := hs
    unfold count at hcount
    split at hcount <;> cases hcount
  | _ =>
    obtain ⟨-, hs⟩ := Outcome.guard_eq_panic.1 hs
    cases hs

end Sound

/-! ## The protocol -/

/-- What holds of the driver at any time. The chain of a thread are the descriptors that it has
allocated and not freed. -/
structure Protocol (s : State T B D) : Prop where
  chain_nodup : ∀ t, (s.pc t).chain.Nodup
  chain_disjoint : ∀ t v d, d ∈ (s.pc t).chain → d ∈ (s.pc v).chain → t = v
  free_iff : ∀ d, s.free d = true ↔ d < NUM ∧ ∀ t, d ∉ (s.pc t).chain
  linked : ∀ t c h, (s.pc t).phase = some (c, .flying h) → Linked s.desc (s.pc t).chain
  busy_iff : ∀ t c h, (s.pc t).phase = some (c, .flying h) → (s.busy c.b = true ↔ s.cleared c.req = 0)
  completed_le : ∀ r, s.completed r ≤ 1
  cleared_le : ∀ r, s.cleared r ≤ s.completed r
  returned_le : ∀ r, s.returned r ≤ s.cleared r
  caught_up : s.seenIdx = s.usedIdx → ∀ r, s.cleared r = s.completed r

/-- What has happened to a request: nothing, or it was completed, and then cleared, and then its
`virtio_disk_rw` returned. -/
theorem Counts.cases {n : Tallies} {P u : List Nat} {phase : T → Option (Call B × Phase)}
    (hc : Counts n P (P ++ u) phase) (r : Nat) :
    n.completed r ≤ 1 ∧ n.cleared r ≤ n.completed r ∧ n.returned r ≤ n.cleared r ∧
      (u = [] → n.cleared r = n.completed r) := by
  rcases Nat.lt_or_ge r n.nextReq with hlt | hge
  · by_cases hact : ∃ t c ph, phase t = some (c, ph) ∧ c.req = r
    · obtain ⟨t, c, ph, ht, rfl⟩ := hact
      obtain ⟨h1, h2, h3⟩ := hc.active t c ph ht
      rw [h1, h2, h3]
      cases ph with
      | before | after => simp [Phase.completed, Phase.cleared]
      | flying h =>
        by_cases hP : h ∈ P
        · simp [Phase.completed, Phase.cleared, hP]
        · by_cases hu : h ∈ u
          · simp [Phase.completed, Phase.cleared, hP, hu]
            rintro rfl
            cases hu
          · simp [Phase.completed, Phase.cleared, hP, hu]
    · have hno : ∀ t c ph, phase t = some (c, ph) → c.req ≠ r :=
        fun t c ph ht he => hact ⟨t, c, ph, ht, he⟩
      obtain ⟨h1, h2, h3⟩ := hc.past r hlt hno
      simp [h1, h2, h3]
  · obtain ⟨h1, h2, h3⟩ := hc.fresh r hge
    simp [h1, h2, h3]

theorem Sound.protocol {s : State T B D} {own : Nat → Option T} {a u : List Nat} (h : Sound s own a u) :
    Protocol s where
  chain_nodup := fun t => h.inv.chains.held.nodup t
  chain_disjoint := fun _ _ _ ht hv => h.inv.chains.held.excl ht hv
  free_iff := h.inv.chains.free_iff_not_mem
  linked := by
    intro t c d ht
    have hw := h.inv.written t
    cases hk : s.pc t with
    | test | wait =>
      rw [hk] at hw
      exact Formatted.linked hw
    | _ =>
      rw [hk] at ht
      cases ht
  busy_iff := by
    intro t c d ht
    have hcleared : s.cleared c.req = if d ∈ s.rings.pending a ++ u then 0 else 1 :=
      (h.flight.counts.active t c _ ht).2.1
    rw [h.flight.awaited.busy_iff t c d ht, hcleared]
    split <;> simp [*]
  completed_le := fun r => (h.flight.counts.cases r).1
  cleared_le := fun r => (h.flight.counts.cases r).2.1
  returned_le := fun r => (h.flight.counts.cases r).2.2.1
  caught_up := by
    intro hidx r
    exact (h.flight.counts.cases r).2.2.2 ((h.flight.queues.used.empty_iff num_lt).1 hidx)

/-- Whatever the threads and the device do, no panic is reached, no null buffer is used, every
descriptor is free or in one chain, `b->disk` is cleared at most once for a request and only after the
device has completed it, `virtio_disk_rw` returns only after that, and when `virtio_disk_intr` has seen
all of the `used` ring, every completed request has been cleared. A failed `alloc3_desc` leaves the set
of free descriptors as it was. -/
theorem disk_protocol [DecidableEq T] [DecidableEq B] (data : B → D) (blocks : Nat → D)
    (es : List (Event T B D)) :
    (∀ m, run step (State.init T data blocks) es ≠ .panic m) ∧
      (∀ s, run step (State.init T data blocks) es = .next s → Protocol s) ∧
      ∀ s s' : State T B D, alloc3Desc s = .next (s', none) → s'.free = s.free := by
  have hkeep : ∀ s e s', (∃ own a u, Sound (T := T) (B := B) (D := D) s own a u) → step s e = .next s' →
      ∃ own a u, Sound s' own a u := by
    rintro s e s' ⟨own, a, u, h⟩ hs
    exact h.keep (step_eq_next hs)
  have hboot : ∃ own a u, Sound (State.init T data blocks) own a u := ⟨_, _, _, Sound.boot data blocks⟩
  refine ⟨fun m => ?_, fun s hs => ?_, fun s s' => alloc3Desc_free⟩
  · refine run_ne_panic _ hkeep ?_ es hboot
    rintro s e ⟨own, a, u, h⟩
    exact h.step_ne_panic e m
  · obtain ⟨own, a, u, h⟩ := run_keeps _ hkeep es hboot hs
    exact h.protocol

/-- Two processes call `virtio_disk_rw`, the device completes the second request first, an interrupt
comes, and the second call returns. -/
def outOfOrder : List (Event (Option Bool) Bool Unit) :=
  [.acquiresleep (some false) false, .rw (some false) false 5 true,
    .acquiresleep (some true) true, .rw (some true) true 9 false] ++
  List.replicate 6 (.next (some false)) ++ List.replicate 6 (.next (some true)) ++
  [.fetch, .fetch, .serve 3, .post 3, .count, .intr none] ++ List.replicate 5 (.next none) ++
  List.replicate 7 (.next (some true))

theorem disk_protocol_outOfOrder :
    ∃ s, run step (State.init (Option Bool) (fun _ : Bool => ()) fun _ => ()) outOfOrder = .next s ∧
      Protocol s ∧ s.returned 1 = 1 ∧ s.returned 0 = 0 ∧ s.busy false = true := by
  have hany : (run step (State.init (Option Bool) (fun _ : Bool => ()) fun _ => ()) outOfOrder).any
      (fun s => decide (s.returned 1 = 1 ∧ s.returned 0 = 0 ∧ s.busy false = true)) = true := by
    decide +kernel
  obtain ⟨s, hs, h⟩ := Outcome.exists_of_any hany
  exact ⟨s, hs, (disk_protocol _ _ outOfOrder).2.1 s hs, of_decide_eq_true h⟩

end Xv6.Virtio
