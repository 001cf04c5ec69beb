import Xv6.Sched.Owned

set_option autoImplicit false
set_option linter.unusedSectionVars false

/-! # The fields of a CPU show the state of the thread that runs on it

`Inv` says that every CPU shows what its context sees and that this context is safe, and that so is
every context that is switched out, with whatever CPU it goes on on. A step of one CPU that does not
switch changes nothing for the others (`Inv.local`); the two switches hand `p->lock` and the place on
the CPU over from a thread to the scheduler and back. -/

namespace Xv6.Sched

open Machine Spinlock
open Function (update_of_ne update_self)

variable {T H L : Type} [DecidableEq T] [DecidableEq H] [DecidableEq L]

/-- The CPU and the locks are as a context sees them. -/
structure Fits (s : State T H L) (h : H) (v : View T L) : Prop where
  irq : v.irq.Shows (s.cpu h).intr
  proc : (s.cpu h).proc = v.proc
  locks : ∀ l, s.lock l = some h ↔ l ∈ v.held
  nodup : v.held.Nodup
  running : ∀ t, (s.cpu h).run = some t → v.stopped = false → s.state t = .running
  stopped : ∀ t, (s.cpu h).run = some t → v.stopped = true → s.state t ≠ .running ∧ .proc t ∈ v.held

/-- What runs on a CPU is safe. -/
def CpuOk (s : State T H L) (h : H) : Prop :=
  ∃ v, Fits s h v ∧ Good (s.ctx h) v ∧ Safe (s.ctx h) (s.code (s.ctx h)) v

structure Inv (s : State T H L) : Prop where
  cpus : ∀ h, CpuOk s h
  /-- A thread runs on one CPU at most. -/
  once : ∀ h h' t, (s.cpu h).run = some t → (s.cpu h').run = some t → h = h'
  /-- A thread that runs on no CPU can go on on any. -/
  parked : ∀ t, (∀ h, (s.cpu h).run ≠ some t) →
    s.state t ≠ .running ∧ ∀ i, Safe (.thread t : Ctx T H) (s.code (.thread t)) (resumed t i)
  /-- The scheduler can go on when the thread that runs instead of it switches back. -/
  waiting : ∀ h t, (s.cpu h).run = some t → ∀ i, Safe (.scheduler h) (s.code (.scheduler h)) (resumed t i)

theorem Inv.boot : Inv (State.init : State T H L) where
  cpus h := by
    refine ⟨⟨.off false, none, [], false⟩, ⟨rfl, rfl, by simp [State.init], List.nodup_nil, nofun, nofun⟩,
      nofun, ?_⟩
    exact .idle (b := .empty) rfl ⟨⟨h, rfl⟩, rfl⟩ nofun
  once _ _ _ h := by cases h
  parked t _ := ⟨nofun, Safe.forkret t⟩
  waiting _ _ h := by cases h

/-! ## Steps of one CPU -/

section Frame

variable {s s' : State T H L} {g h : H}

theorem ctx_of_run {t : T} (hr : (s.cpu h).run = some t) : s.ctx h = .thread t := by
  unfold State.ctx
  rw [hr]

theorem ctx_of_none (hr : (s.cpu h).run = none) : s.ctx h = .scheduler h := by
  unfold State.ctx
  rw [hr]

theorem run_of_ctx {t : T} (hx : s.ctx h = .thread t) : (s.cpu h).run = some t := by
  cases hr : (s.cpu h).run with
  | none =>
    rw [ctx_of_none hr] at hx
    cases hx
  | some u =>
    rw [ctx_of_run hr] at hx
    cases hx
    rfl

theorem none_of_ctx (hx : s.ctx h = .scheduler g) : (s.cpu h).run = none ∧ g = h := by
  cases hr : (s.cpu h).run with
  | none =>
    rw [ctx_of_none hr] at hx
    cases hx
    exact ⟨rfl, rfl⟩
  | some u =>
    rw [ctx_of_run hr] at hx
    cases hx

theorem ctx_congr (hr : (s'.cpu h).run = (s.cpu h).run) : s'.ctx h = s.ctx h := by
  unfold State.ctx
  rw [hr]

/-- Two CPUs run different contexts. -/
theorem Inv.ctx_ne (hi : Inv s) (hne : g ≠ h) : s.ctx g ≠ s.ctx h := by
  intro he
  cases hx : s.ctx h with
  | thread t =>
    rw [hx] at he
    exact hne (hi.once g h t (run_of_ctx he) (run_of_ctx hx))
  | scheduler k =>
    rw [hx] at he
    exact hne ((none_of_ctx he).2.symm.trans (none_of_ctx hx).2)

/-- A CPU is as it was if its fields, its locks, its code and the state of its thread are. -/
theorem CpuOk.frame (hok : CpuOk s g) (hcpu : s'.cpu g = s.cpu g)
    (hlock : ∀ l, s'.lock l = some g ↔ s.lock l = some g)
    (hstate : ∀ t, (s.cpu g).run = some t → (s'.state t = .running ↔ s.state t = .running))
    (hcode : s'.code (s.ctx g) = s.code (s.ctx g)) : CpuOk s' g := by
  obtain ⟨v, hf, hg, hs⟩ := hok
  have hctx : s'.ctx g = s.ctx g := ctx_congr (congrArg Cpu.run hcpu)
  refine ⟨v, ⟨?_, ?_, ?_, hf.nodup, ?_, ?_⟩, ?_, ?_⟩
  · rw [hcpu]
    exact hf.irq
  · rw [hcpu]
    exact hf.proc
  · intro l
    exact (hlock l).trans (hf.locks l)
  · intro t ht hv
    rw [hcpu] at ht
    exact (hstate t ht).mpr (hf.running t ht hv)
  · intro t ht hv
    rw [hcpu] at ht
    exact ⟨mt (hstate t ht).mp (hf.stopped t ht hv).1, (hf.stopped t ht hv).2⟩
  · rwa [hctx]
  · rwa [hctx, hcode]

/-- A step of `h` that changes only what belongs to `h`, and does not switch. -/
structure Local (s s' : State T H L) (h : H) : Prop where
  cpu : ∀ g, g ≠ h → s'.cpu g = s.cpu g
  run : (s'.cpu h).run = (s.cpu h).run
  lock : ∀ g l, g ≠ h → (s'.lock l = some g ↔ s.lock l = some g)
  state : ∀ t, (s.cpu h).run ≠ some t → (s'.state t = .running ↔ s.state t = .running)
  code : ∀ x, x ≠ s.ctx h → s'.code x = s.code x

theorem Inv.local (hi : Inv s) (hl : Local s s' h) {v : View T L} (hf : Fits s' h v)
    (hg : Good (s.ctx h) v) (hs : Safe (s.ctx h) (s'.code (s.ctx h)) v) : Inv s' := by
  have hrun : ∀ g, (s'.cpu g).run = (s.cpu g).run := by
    intro g
    by_cases hgh : g = h
    · rw [hgh]
      exact hl.run
    · rw [hl.cpu g hgh]
  refine ⟨fun g => ?_, fun g g' t => ?_, fun t ht => ?_, fun g t ht => ?_⟩
  · by_cases hgh : g = h
    · subst hgh
      refine ⟨v, hf, ?_, ?_⟩
      · rwa [ctx_congr hl.run]
      · rwa [ctx_congr hl.run]
    · refine (hi.cpus g).frame (hl.cpu g hgh) (fun l => hl.lock g l hgh) (fun t ht => hl.state t ?_)
        (hl.code _ (hi.ctx_ne hgh))
      exact fun hth => hgh (hi.once g h t ht hth)
  · rw [hrun, hrun]
    exact hi.once g g' t
  · have hpark : ∀ g, (s.cpu g).run ≠ some t := fun g => hrun g ▸ ht g
    obtain ⟨hstate, hsafe⟩ := hi.parked t hpark
    refine ⟨mt (hl.state t (hpark h)).mp hstate, ?_⟩
    rwa [hl.code]
    exact fun he => hpark h (run_of_ctx he.symm)
  · rw [hrun] at ht
    have hsafe := hi.waiting g t ht
    rwa [hl.code]
    intro he
    obtain ⟨hnone, hgh⟩ := none_of_ctx he.symm
    rw [hgh, hnone] at ht
    cases ht

/-! ## What the updates change -/

theorem Local.refl (s : State T H L) (h : H) : Local s s h :=
  ⟨fun _ _ => rfl, rfl, fun _ _ _ => Iff.rfl, fun _ _ => Iff.rfl, fun _ _ => rfl⟩

theorem Local.goto (hl : Local s s' h) (c : List (Instr T L)) : Local s (s'.goto (s.ctx h) c) h :=
  { hl with code := fun x hx => (update_of_ne hx ..).trans (hl.code x hx) }

theorem Local.setIntr (s : State T H L) (h : H) (i : Intr) : Local s (s.setIntr h i) h where
  cpu _ hg := update_of_ne hg ..
  run := by simp [State.setIntr]
  lock _ _ _ := Iff.rfl
  state _ _ := Iff.rfl
  code _ _ := rfl

theorem Local.setLock {l : Lock T L} {o : Option H} (hfrom : s.lock l = none ∨ s.lock l = some h)
    (hto : o = none ∨ o = some h) : Local s (s.setLock l o) h where
  cpu _ _ := rfl
  run := rfl
  lock g m hg := by
    by_cases hm : m = l
    · subst hm
      simp only [State.setLock, update_self]
      rcases hfrom with hfrom | hfrom <;> rcases hto with hto | hto <;>
        simp [hfrom, hto, Ne.symm hg]
    · rw [State.setLock_lock, update_of_ne hm]
  state _ _ := Iff.rfl
  code _ _ := rfl

theorem Local.setState {t : T} {st : ProcState}
    (ht : (s.cpu h).run = some t ∨ (s.state t ≠ .running ∧ st ≠ .running)) :
    Local s (s.setState t st) h where
  cpu _ _ := rfl
  run := rfl
  lock _ _ _ := Iff.rfl
  state u hu := by
    by_cases hut : u = t
    · subst hut
      rcases ht with ht | ⟨h1, h2⟩
      · exact absurd ht hu
      · rw [State.setState_state, update_self]
        exact iff_of_false h2 h1
    · rw [State.setState_state, update_of_ne hut]
  code _ _ := rfl

theorem Local.setProc (s : State T H L) (h : H) (p : Option T) :
    Local s (s.setCpu h p (s.cpu h).run) h where
  cpu _ hg := update_of_ne hg ..
  run := by simp [State.setCpu]
  lock _ _ _ := Iff.rfl
  state _ _ := Iff.rfl
  code _ _ := rfl

theorem Fits.setIntr {v : View T L} (hf : Fits s h v) {q : Irq} {i : Intr} (hq : q.Shows i) :
    Fits (s.setIntr h i) h { v with irq := q } := by
  refine ⟨?_, ?_, hf.locks, hf.nodup, ?_, ?_⟩ <;> simp only [State.setIntr, update_self]
  · exact hq
  · exact hf.proc
  · exact hf.running
  · exact hf.stopped

theorem Fits.setProc {v : View T L} (hf : Fits s h v) (p : Option T) :
    Fits (s.setCpu h p (s.cpu h).run) h { v with proc := p } := by
  refine ⟨?_, ?_, hf.locks, hf.nodup, ?_, ?_⟩ <;> simp only [State.setCpu, update_self]
  · exact hf.irq
  · exact hf.running
  · exact hf.stopped

theorem Fits.goto {v : View T L} (hf : Fits s h v) (x : Ctx T H) (c : List (Instr T L)) :
    Fits (s.goto x c) h v :=
  ⟨hf.irq, hf.proc, hf.locks, hf.nodup, hf.running, hf.stopped⟩

theorem Fits.setLock {v : View T L} (hf : Fits s h v) {l : Lock T L} (hl : l ∉ v.held) :
    Fits (s.setLock l (some h)) h { v with held := l :: v.held } where
  irq := hf.irq
  proc := hf.proc
  locks m := by
    rw [State.setLock_lock, List.mem_cons]
    by_cases hm : m = l
    · subst hm
      simp
    · rw [update_of_ne hm, hf.locks m]
      simp [hm]
  nodup := List.nodup_cons.mpr ⟨hl, hf.nodup⟩
  running := hf.running
  stopped t ht hv := ⟨(hf.stopped t ht hv).1, List.mem_cons_of_mem _ (hf.stopped t ht hv).2⟩

theorem Fits.clearLock {v : View T L} (hf : Fits s h v) (l : Lock T L) (hs : v.stopped = false) :
    Fits (s.setLock l none) h { v with held := v.held.erase l } where
  irq := hf.irq
  proc := hf.proc
  locks m := by
    rw [State.setLock_lock, hf.nodup.mem_erase_iff]
    by_cases hm : m = l
    · subst hm
      simp
    · rw [update_of_ne hm, hf.locks m]
      simp [hm]
  nodup := hf.nodup.erase l
  running := hf.running
  stopped t ht hv := by
    rw [hs] at hv
    cases hv

/-- A thread that holds its `p->lock` gives up its state RUNNING. -/
theorem Fits.stop {v : View T L} (hf : Fits s h v) {t : T} (ht : (s.cpu h).run = some t)
    (hl : .proc t ∈ v.held) {st : ProcState} (hst : st ≠ .running) :
    Fits (s.setState t st) h { v with stopped := true } where
  irq := hf.irq
  proc := hf.proc
  locks := hf.locks
  nodup := hf.nodup
  running u _ hv := by cases hv
  stopped u hu _ := by
    have hut : t = u := Option.some.inj (ht.symm.trans hu)
    subst hut
    rw [State.setState_state, update_self]
    exact ⟨hst, hl⟩

end Frame

/-! ## The two switches -/

section Switches

variable {s : State T H L} {h : H} {c : List (Instr T L)} {v : View T L} {t : T}

/-- A process whose state is not RUNNING and whose lock is held by a CPU that runs no thread runs
    nowhere. -/
theorem Inv.parked_of_lock (hi : Inv s) (hf : Fits s h v) (hnone : (s.cpu h).run = none)
    (hl : .proc t ∈ v.held) (ht : s.state t ≠ .running) (g : H) : (s.cpu g).run ≠ some t := by
  intro hg
  obtain ⟨w, hw, -, -⟩ := hi.cpus g
  cases hstop : w.stopped with
  | false => exact ht (hw.running t hg hstop)
  | true =>
    have hlock := (hw.locks _).mpr (hw.stopped t hg hstop).2
    rw [(hf.locks _).mpr hl] at hlock
    rw [← Option.some.inj hlock, hnone] at hg
    cases hg

/-- The other CPUs are as they were after a switch on `h`. -/
theorem Inv.other (hi : Inv s) {s' : State T H L} {g : H} (hgh : g ≠ h) (hcpu : s'.cpu g = s.cpu g)
    (hlock : s'.lock = s.lock)
    (hstate : ∀ u, (s.cpu g).run = some u → (s'.state u = .running ↔ s.state u = .running))
    (hcode : ∀ x, x ≠ s.ctx h → s'.code x = s.code x) : CpuOk s' g :=
  (hi.cpus g).frame hcpu (fun l => by rw [hlock]) hstate (hcode _ (hi.ctx_ne hgh))

/-- A thread switches to the scheduler. -/
theorem Inv.swtch (hi : Inv s) (hx : s.ctx h = .thread t) {i : Bool}
    (hf : Fits s h ⟨.nested 0 i, some t, [.proc t], true⟩)
    (hs : ∀ j, Safe (.thread t : Ctx T H) (.restore i :: c) (resumed t j)) :
    Inv ((s.setCpu h (s.cpu h).proc none).goto (.thread t) (.restore i :: c)) := by
  generalize hs' : (s.setCpu h (s.cpu h).proc none).goto (.thread t) (.restore i :: c) = s'
  have hrun := run_of_ctx hx
  have hcpu : ∀ g, g ≠ h → s'.cpu g = s.cpu g := fun g hg => hs' ▸ update_of_ne hg ..
  have hcpuh : s'.cpu h = ⟨(s.cpu h).intr, (s.cpu h).proc, none⟩ := hs' ▸ update_self ..
  have hcode : ∀ x, x ≠ .thread t → s'.code x = s.code x := fun x hx => hs' ▸ update_of_ne hx ..
  have hcodet : s'.code (.thread t) = .restore i :: c := hs' ▸ update_self ..
  have hlock : s'.lock = s.lock := hs' ▸ rfl
  have hstate : s'.state = s.state := hs' ▸ rfl
  have hrun' : ∀ {g u}, (s'.cpu g).run = some u → g ≠ h ∧ (s.cpu g).run = some u := by
    intro g u hg
    by_cases hgh : g = h
    · rw [hgh, hcpuh] at hg
      cases hg
    · exact ⟨hgh, by rwa [hcpu g hgh] at hg⟩
  refine ⟨fun g => ?_, fun g g' u hg hg' => ?_, fun u hu => ?_, fun g u hg j => ?_⟩
  · by_cases hgh : g = h
    · subst hgh
      have hnone : (s'.cpu g).run = none := by rw [hcpuh]
      refine ⟨resumed t i, ⟨?_, ?_, ?_, hf.nodup, ?_, ?_⟩, good_of_noff (Nat.succ_pos _), ?_⟩
      · rw [hcpuh]
        exact hf.irq
      · rw [hcpuh]
        exact hf.proc
      · rw [hlock]
        exact hf.locks
      · exact fun u hu => absurd rfl (hrun' hu).1
      · exact fun u hu => absurd rfl (hrun' hu).1
      · rw [ctx_of_none hnone, hcode _ (by simp)]
        exact hi.waiting g t hrun i
    · exact hi.other hgh (hcpu g hgh) hlock (fun u _ => by rw [hstate]) (hx ▸ hcode)
  · exact hi.once g g' u (hrun' hg).2 (hrun' hg').2
  · by_cases hut : u = t
    · subst hut
      rw [hstate, hcodet]
      exact ⟨(hf.stopped u hrun rfl).1, hs⟩
    · have hpark : ∀ g, (s.cpu g).run ≠ some u := by
        intro g hg
        by_cases hgh : g = h
        · rw [hgh, hrun] at hg
          exact hut (Option.some.inj hg).symm
        · exact hu g (by rwa [hcpu g hgh])
      rw [hstate, hcode _ (by simpa using hut)]
      exact hi.parked u hpark
  · rw [hcode _ (by simp)]
    exact hi.waiting g u (hrun' hg).2 j

/-- The scheduler switches to a thread. -/
theorem Inv.dispatch (hi : Inv s) (hx : s.ctx h = .scheduler h) {i : Bool}
    (hf : Fits s h ⟨.nested 0 i, none, [.proc t], false⟩) (ht : s.state t ≠ .running)
    (hs : ∀ j, Safe (.scheduler h : Ctx T H) (.clearProc :: c) (resumed t j)) :
    Inv (((s.setState t .running).setCpu h (some t) (some t)).goto (.scheduler h) (.clearProc :: c)) := by
  have hpark := hi.parked_of_lock hf (none_of_ctx hx).1 (List.mem_singleton_self _) ht
  generalize hs' :
    ((s.setState t .running).setCpu h (some t) (some t)).goto (.scheduler h) (.clearProc :: c) = s'
  have hcpu : ∀ g, g ≠ h → s'.cpu g = s.cpu g := fun g hg => hs' ▸ update_of_ne hg ..
  have hcpuh : s'.cpu h = ⟨(s.cpu h).intr, some t, some t⟩ := hs' ▸ update_self ..
  have hcode : ∀ x, x ≠ .scheduler h → s'.code x = s.code x := fun x hx =>
    hs' ▸ update_of_ne hx ..
  have hcodeh : s'.code (.scheduler h) = .clearProc :: c := hs' ▸ update_self ..
  have hlock : s'.lock = s.lock := hs' ▸ rfl
  have hstate : ∀ u, u ≠ t → s'.state u = s.state u := fun u hu => hs' ▸ update_of_ne hu ..
  have hstatet : s'.state t = .running := hs' ▸ update_self ..
  have hrun' : ∀ {g u}, (s'.cpu g).run = some u → g = h ∧ u = t ∨ g ≠ h ∧ (s.cpu g).run = some u := by
    intro g u hg
    by_cases hgh : g = h
    · rw [hgh, hcpuh] at hg
      exact .inl ⟨hgh, (Option.some.inj hg).symm⟩
    · exact .inr ⟨hgh, by rwa [hcpu g hgh] at hg⟩
  have hne : ∀ {g u}, (s.cpu g).run = some u → u ≠ t := fun {g u} hg he => hpark g (he ▸ hg)
  refine ⟨fun g => ?_, fun g g' u hg hg' => ?_, fun u hu => ?_, fun g u hg j => ?_⟩
  · by_cases hgh : g = h
    · subst hgh
      have hsome : (s'.cpu g).run = some t := by rw [hcpuh]
      refine ⟨resumed t i, ⟨?_, ?_, ?_, hf.nodup, ?_, nofun⟩, good_of_noff (Nat.succ_pos _), ?_⟩
      · rw [hcpuh]
        exact hf.irq
      · rw [hcpuh]
        rfl
      · rw [hlock]
        exact hf.locks
      · intro u hu _
        rw [hsome] at hu
        rw [← Option.some.inj hu, hstatet]
      · rw [ctx_of_run hsome, hcode _ (by simp)]
        exact (hi.parked t hpark).2 i
    · exact hi.other hgh (hcpu g hgh) hlock (fun u hu => by rw [hstate u (hne hu)]) (hx ▸ hcode)
  · rcases hrun' hg with ⟨hgh, hut⟩ | ⟨_, hr⟩ <;> rcases hrun' hg' with ⟨hgh', hut'⟩ | ⟨_, hr'⟩
    · rw [hgh, hgh']
    · exact absurd hut (hne hr')
    · exact absurd hut' (hne hr)
    · exact hi.once g g' u hr hr'
  · have hut : u ≠ t := fun he => hu h (by rw [hcpuh, he])
    have hparku : ∀ g, (s.cpu g).run ≠ some u := by
      intro g hg
      by_cases hgh : g = h
      · rw [hgh, (none_of_ctx hx).1] at hg
        cases hg
      · exact hu g (by rwa [hcpu g hgh])
    rw [hstate u hut, hcode _ (by simp)]
    exact hi.parked u hparku
  · rcases hrun' hg with ⟨rfl, rfl⟩ | ⟨hgh, hr⟩
    · rw [hcodeh]
      exact hs j
    · rw [hcode _ (by simpa using hgh)]
      exact hi.waiting g u hr j

end Switches

/-! ## Every step -/

section Steps

variable {s s' : State T H L} {h : H} {c : List (Instr T L)} {v : View T L}

theorem Inv.move (hi : Inv s) (hl : Local s s' h) (hf : Fits s' h v) (hg : Good (s.ctx h) v)
    (hs : Safe (s.ctx h) c v) : Inv (s'.goto (s.ctx h) c) := by
  refine hi.local (hl.goto c) (hf.goto _ _) hg ?_
  rwa [State.goto_code, update_self]

/-- The checks of `sched` pass. -/
theorem Fits.schedChecks_eq {t : T} (hf : Fits s h v) (hx : s.ctx h = .thread t) (hn : v.irq.noff = 1)
    (hl : .proc t ∈ v.held) (hs : v.stopped = true) :
    schedChecks (s.lock (.proc t)) h (s.cpu h).intr (s.state t) = .next () := by
  rw [(hf.locks _).mpr hl]
  refine schedChecks_eq_next (hf.irq.noff_eq.trans hn) (hf.stopped t (run_of_ctx hx) hs).1 ?_
  rw [hf.irq.sie_eq]
  cases hq : v.irq with
  | on => rw [hq] at hn; cases hn
  | off | nested => rfl

theorem Inv.instr (hi : Inv s) {i : Instr T L} (hc : s.code (s.ctx h) = i :: c) :
    (instr s h (s.ctx h) c i).All Inv := by
  obtain ⟨v, hf, hg, hsafe⟩ := hi.cpus h
  rw [hc] at hsafe
  cases hsafe with
  | pushOff hs =>
    refine hi.move (.refl s h) hf hg ?_
    rwa [hf.irq.sie_eq]
  | @intrOff _ _ old hs =>
    refine hi.move (.setIntr s h _) (hf.setIntr (hf.irq.pushOff old)) (good_of_noff ?_) hs
    cases v.irq <;> exact Nat.succ_pos _
  | popOff hn hgood hs =>
    obtain ⟨r, hr, hshows⟩ := hf.irq.popOff hn
    simp only [Sched.instr, hr, Outcome.bind]
    exact hi.move (.setIntr s h _) (hf.setIntr hshows) hgood hs
  | @lock _ _ l hn hl hs =>
    have hne : s.lock l ≠ some h := fun he => hl ((hf.locks l).mp he)
    simp only [Sched.instr]
    cases he : lock (s.lock l) h with
    | next o =>
      obtain ⟨hnone, rfl⟩ := lock_eq_next he
      exact hi.move (.setLock (.inl hnone) (.inr rfl)) (hf.setLock hl) (good_of_noff hn) hs
    | panic m => exact lock_ne_panic hne m he
    | disabled => exact trivial
  | @unlock _ _ l hn hl hstop hs =>
    have hheld := (hf.locks l).mpr hl
    simp only [Sched.instr, hheld, unlock_self, Outcome.bind]
    exact hi.move (.setLock (.inr hheld) (.inl rfl)) (hf.clearLock l hstop) (good_of_noff hn) hs
  | @myproc _ _ u p hp hs | noTimer hp hs =>
    simp only [Sched.instr]
    rw [hf.proc, hp]
    exact hi.move (.refl s h) hf hg hs
  | setState hn hx hl hst hs =>
    have hrun := run_of_ctx hx
    exact hi.move (.setState (.inl hrun)) (hf.stop hrun hl hst) (good_of_noff hn) hs
  | checks hx hn hl hstop hs =>
    simp only [Sched.instr]
    rw [hf.schedChecks_eq hx hn hl hstop]
    exact hi.move (.refl s h) hf hg hs
  | @swtch _ t j hx hs =>
    simp only [Sched.instr]
    have hflag : (s.cpu h).intr.intena = j := congrArg Intr.intena hf.irq
    rw [hx, hflag]
    rw [hx] at hs
    exact hi.swtch hx hf hs
  | @restore _ _ i j hirq hs =>
    have hshows : Irq.Shows (.nested 0 i) { (s.cpu h).intr with intena := i } := by
      have := hf.irq
      rw [hirq] at this
      rw [show (s.cpu h).intr = _ from this]
      rfl
    exact hi.move (.setIntr s h _) (hf.setIntr hshows) (good_of_noff (Nat.succ_pos _)) hs
  | @dispatch _ t j g hx hskip hs =>
    obtain ⟨-, rfl⟩ := none_of_ctx hx
    simp only [Sched.instr]
    split
    · next ht =>
        rw [hx] at hs ⊢
        exact hi.dispatch hx hf (by rw [ht]; simp) hs
    · exact hi.move (.refl s g) hf hg hskip
  | clearProc hn hs =>
    exact hi.move (.setProc s h none) (hf.setProc none) (good_of_noff hn) hs
  | yield _ hs | sleep hs => exact hi.move (.refl s h) hf hg (hs _ hf.irq)
  | returned hr hs => exact hi.move (.refl s h) hf hg hs
  | @sret _ j hs =>
    have hshows : Irq.Shows .on { (s.cpu h).intr with sie := true } := ⟨hf.irq.noff_eq, rfl⟩
    exact hi.move (.setIntr s h _) (hf.setIntr hshows) (fun _ => ⟨rfl, rfl, rfl⟩) hs
  | idle hdepth hk hnext => exact trivial

theorem Inv.call (hi : Inv s) {k : Kind} {b : Brackets T L} {o : Op T L}
    (hc : s.code (s.ctx h) = .idle k b :: c) (ho : allowed (s.ctx h) k b o = true) :
    Inv (s.call h (s.ctx h) k b c o) := by
  obtain ⟨v, hf, hg, hsafe⟩ := hi.cpus h
  rw [hc] at hsafe
  cases o with
  | pushOff =>
    have hk := of_decide_eq_true ho
    exact hi.move (.refl s h) hf hg (hsafe.idle_pushOff hk)
  | popOff =>
    have hb := of_decide_eq_true ho
    exact hi.move (.refl s h) hf hg (hsafe.idle_popOff hb)
  | acquire l =>
    obtain ⟨hk, hl⟩ := of_decide_eq_true ho
    exact hi.move (.refl s h) hf hg (hsafe.idle_acquire hk hl)
  | release l =>
    have hl := of_decide_eq_true ho
    exact hi.move (.refl s h) hf hg (hsafe.idle_release hl)
  | yield =>
    obtain ⟨rfl, rfl⟩ := of_decide_eq_true ho
    exact hi.move (.refl s h) hf hg hsafe.idle_yield
  | sleep l =>
    obtain ⟨rfl, rfl, hl⟩ := of_decide_eq_true ho
    exact hi.move (.refl s h) hf hg (hsafe.idle_sleep hl)
  | wakeup t =>
    simp only [State.call]
    split
    · next ht =>
        have hne : s.state t ≠ .running := by rw [ht]; simp
        refine hi.local (.setState (.inr ⟨hne, by simp⟩)) (v := v) ?_ hg (by rwa [← hc] at hsafe)
        refine ⟨hf.irq, hf.proc, hf.locks, hf.nodup, fun u hu hv => ?_, fun u hu hv => ?_⟩
        · have hut : u ≠ t := fun he => hne (he ▸ hf.running u hu hv)
          rw [State.setState_state, update_of_ne hut]
          exact hf.running u hu hv
        · refine ⟨?_, (hf.stopped u hu hv).2⟩
          by_cases hut : u = t
          · rw [hut, State.setState_state, update_self]
            simp
          · rw [State.setState_state, update_of_ne hut]
            exact (hf.stopped u hu hv).1
    · exact hi
  | intrOn =>
    obtain ⟨hk, rfl⟩ := of_decide_eq_true ho
    obtain ⟨hn, hgood, hs⟩ := hsafe.idle_intrOn hk
    have hshows : Irq.Shows .on { (s.cpu h).intr with sie := true } := ⟨hf.irq.noff_eq.trans hn, rfl⟩
    refine hi.local (.setIntr s h _) (hf.setIntr hshows) hgood ?_
    rwa [← hc] at hs
  | intrOff =>
    obtain ⟨rfl, rfl⟩ := of_decide_eq_true ho
    obtain ⟨hn, hs⟩ := hsafe.idle_intrOff (s.cpu h).intr.intena
    have hshows : Irq.Shows (.off (s.cpu h).intr.intena) { (s.cpu h).intr with sie := false } := by
      simp [Irq.Shows, hf.irq.noff_eq.trans hn]
    refine hi.local (.setIntr s h _) (hf.setIntr hshows) (fun he => by cases he) ?_
    rwa [← hc] at hs
  | schedule t =>
    obtain rfl := of_decide_eq_true ho
    exact hi.move (.refl s h) hf hg (hsafe.idle_schedule t)
  | done timer =>
    obtain ⟨rfl, rfl⟩ := of_decide_eq_true ho
    exact hi.move (.refl s h) hf hg (hsafe.idle_done timer)

theorem Inv.interrupt (hi : Inv s) (hsie : (s.cpu h).intr.sie = true) :
    Inv ((s.setIntr h { (s.cpu h).intr with sie := false }).goto (s.ctx h)
      (.idle .handler .empty :: s.code (s.ctx h))) := by
  obtain ⟨v, hf, hg, hsafe⟩ := hi.cpus h
  have hon : v.irq = .on := by
    have hs := hf.irq.sie_eq.symm.trans hsie
    cases hq : v.irq with
    | on => rfl
    | off | nested => rw [hq] at hs; cases hs
  have hshows : Irq.Shows (.off (s.cpu h).intr.intena) { (s.cpu h).intr with sie := false } := by
    have hnoff : (s.cpu h).intr.noff = 0 := by
      rw [hf.irq.noff_eq, hon]
      rfl
    simp [Irq.Shows, hnoff]
  exact hi.move (.setIntr s h _) (hf.setIntr hshows) (fun he => by cases he) (hsafe.interrupt hg hon _)

theorem Inv.keep (hi : Inv s) (e : Event T H L) : (step s e).All Inv := by
  cases e with
  | call h o =>
    simp only [step]
    split
    · next k b c hc => exact .guard fun ho => hi.call hc ho
    · exact trivial
  | exec h =>
    simp only [step]
    split
    · next i c hc => exact hi.instr hc
    · exact trivial
  | interrupt h => exact .guard fun hsie => hi.interrupt hsie

end Steps

/-! ## Every run -/

/-- The interrupt state belongs to the thread. -/
structure Owned (s : State T H L) : Prop where
  /-- Interrupts are off on a CPU whose `noff` is positive. -/
  off : ∀ h, 0 < (s.cpu h).intr.noff → (s.cpu h).intr.sie = false
  /-- `noff` is 1 at every `swtch`. -/
  swtch : ∀ h c, s.code (s.ctx h) = .swtch :: c → (s.cpu h).intr.noff = 1
  dispatch : ∀ h t c, s.code (s.ctx h) = .dispatch t :: c → (s.cpu h).intr.noff = 1
  /-- When `yield` or `sleep` returns, `noff` and the status are those of the call, and so is `intena`
      if it was in use, or if interrupts were off and it said so. -/
  returned : ∀ h r c, s.code (s.ctx h) = .returned r :: c →
    (s.cpu h).intr.noff = r.noff ∧ (s.cpu h).intr.sie = r.sie ∧
      (0 < r.noff ∨ r.sie = false ∧ r.intena = false → (s.cpu h).intr.intena = r.intena)
  /-- This is how `kerneltrap` calls `yield`. -/
  trap : ∀ h c, s.code (s.ctx h) = .yield :: .sret :: c → (s.cpu h).intr = ⟨0, false, false⟩

theorem Irq.Shows.returned {q : Irq} {c r : Intr} (h : q.Shows c) (hr : q.Returns r) :
    c.noff = r.noff ∧ c.sie = r.sie ∧ (0 < r.noff ∨ r.sie = false ∧ r.intena = false → c.intena = r.intena) := by
  cases q with
  | on =>
    refine ⟨h.1.trans hr.1.symm, h.2.trans hr.2.symm, ?_⟩
    rintro (hn | ⟨hs, -⟩)
    · rw [hr.1] at hn
      cases hn
    · rw [hr.2] at hs
      cases hs
  | off i =>
    obtain ⟨hn, hs, hi⟩ := hr
    cases h
    refine ⟨hn.symm, hs.symm, ?_⟩
    rintro (hpos | ⟨-, hflag⟩)
    · rw [hn] at hpos
      cases hpos
    · rw [hflag]
      exact hi hflag
  | nested n i =>
    cases h
    cases hr
    exact ⟨rfl, rfl, fun _ => rfl⟩

theorem Inv.owned {s : State T H L} (hi : Inv s) : Owned s where
  off h hn := by
    obtain ⟨v, hf, -, -⟩ := hi.cpus h
    rw [hf.irq.noff_eq] at hn
    rw [hf.irq.sie_eq]
    cases hq : v.irq with
    | on => rw [hq] at hn; cases hn
    | off | nested => rfl
  swtch h c hc := by
    obtain ⟨v, hf, -, hs⟩ := hi.cpus h
    rw [hc] at hs
    cases hs
    exact hf.irq.noff_eq
  dispatch h t c hc := by
    obtain ⟨v, hf, -, hs⟩ := hi.cpus h
    rw [hc] at hs
    cases hs
    exact hf.irq.noff_eq
  returned h r c hc := by
    obtain ⟨v, hf, -, hs⟩ := hi.cpus h
    rw [hc] at hs
    cases hs with
    | returned hr hs => exact hf.irq.returned hr
  trap h c hc := by
    obtain ⟨v, hf, -, hs⟩ := hi.cpus h
    rw [hc] at hs
    cases hs with
    | yield htrap hs =>
      have hirq := hf.irq
      rw [htrap c rfl] at hirq
      exact hirq

theorem interrupts_owned (es : List (Event T H L)) :
    (∀ p, run step State.init es ≠ .panic p) ∧ ∀ s, run step State.init es = .next s → Owned s := by
  have hall := run_all Inv (fun _ e hi => Inv.keep hi e) es Inv.boot
  exact ⟨hall.ne_panic, fun s hs => (hall.next hs).owned⟩

/-- A thread runs on one CPU at most, and on one if its state says so; while a CPU runs a thread in any
    other state, it holds `p->lock` of the thread. -/
theorem threads_run_once (es : List (Event T H L)) :
    (run step State.init es).All fun s =>
      (∀ h h' t, (s.cpu h).run = some t → (s.cpu h').run = some t → h = h') ∧
      (∀ t, s.state t = .running → ∃ h, (s.cpu h).run = some t) ∧
      ∀ h t, (s.cpu h).run = some t → s.state t ≠ .running → s.lock (.proc t) = some h := by
  have hall := run_all Inv (fun _ e hi => Inv.keep hi e) es Inv.boot
  generalize run step State.init es = o at hall ⊢
  cases o with
  | next s =>
    refine ⟨hall.once, fun t ht => ?_, fun h t hr ht => ?_⟩
    · by_contra hno
      exact (hall.parked t (not_exists.1 hno)).1 ht
    · obtain ⟨v, hf, -⟩ := hall.cpus h
      have hv : v.stopped = true := Bool.of_not_eq_false fun hv => ht (hf.running t hr hv)
      exact (hf.locks _).2 (hf.stopped t hr hv).2
  | _ => exact hall

/-- The CPU executes `n` instructions. -/
def exec (n : Nat) : List (Event Unit Unit Empty) := List.replicate n (.exec ())

/-- One CPU and one process. The process is started, an interrupt comes and ends, and the process
    calls `yield`, which comes back. -/
def yieldAfterInterrupt : List (Event Unit Unit Empty) :=
  -- the scheduler enables interrupts and switches to the process, which releases its lock
  [.call () .intrOn, .call () (.schedule ())] ++ exec 4 ++ exec 6 ++
  -- an interrupt whose handler uses a lock
  [.interrupt (), .call () .pushOff] ++ exec 2 ++ [.call () .popOff] ++ exec 1 ++
    [.call () (.done false)] ++ exec 1 ++
  -- `yield` up to `swtch`, back to the process, and to the end of `yield`
  [.call () .yield] ++ exec 15 ++ exec 3 ++ [.call () (.schedule ())] ++ exec 4 ++ exec 3

/-- With nothing pushed `intena` is not kept: the interrupt has left 0 in it, and `yield` comes back
    with 1. -/
theorem flag_not_kept :
    ∃ s : State Unit Unit Empty, run step State.init yieldAfterInterrupt = .next s ∧
      ∃ r c, s.code (s.ctx ()) = .returned r :: c ∧ (s.cpu ()).intr.intena ≠ r.intena := by
  have hany : (run step State.init yieldAfterInterrupt).any (fun s => decide
      (s.code (s.ctx ()) = [.returned ⟨0, false, true⟩, .idle .process .empty] ∧
        (s.cpu ()).intr.intena = true)) = true := by
    decide +kernel
  obtain ⟨s, hs, h⟩ := Outcome.exists_of_any hany
  obtain ⟨hcode, hflag⟩ := of_decide_eq_true h
  exact ⟨s, hs, _, _, hcode, by rw [hflag]; nofun⟩

end Xv6.Sched
