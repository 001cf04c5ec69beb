import Xv6.Log.Commit

set_option autoImplicit false

/-! # Crash atomicity of the log

A crash at any point of `commit`, followed by any number of crashed recoveries and one that runs to
its end, leaves the home blocks as they were before the group or as they are after it. The argument
follows the disk through two kinds of states:

* `Erased log home`: the on-disk header has `n = 0` and the home blocks hold `home`;
* `Committed log g d₀`: the on-disk header lists the group, the log blocks hold its new contents,
  and every home block the group does not touch is as in `d₀`.

Recovery keeps an erased state, prefix by prefix; from a committed state it goes through committed
states until its last write, which erases the header with everything installed. Writing the header
is the only step of `commit` that leads from `Erased log d₀` to `Committed`. -/

namespace Xv6.Log

open Function

variable {log : Region} {g : Group} {d₀ d : Disk}

/-- The header is empty and the home blocks hold `home`. -/
structure Erased (log : Region) (home d : Disk) : Prop where
  head : headN (d log.start) = 0
  home : ∀ b, ¬ log.Mem b → d b = home b

/-- The group is on disk: listed in the header, its contents in the log blocks. -/
structure Committed (log : Region) (g : Group) (d₀ d : Disk) : Prop where
  head : loadHead (d log.start) = g.lh.block
  copy : ∀ i (hi : i < g.lh.block.length), d (log.start + i + 1) = g.data g.lh.block[i]
  rest : ∀ b, ¬ log.Mem b → b ∉ g.lh.block → d b = d₀ b

/-- The group lies outside the log region and fits into it. -/
structure Fits (log : Region) (g : Group) : Prop where
  room : g.lh.n ≤ log.size - 1
  home : ∀ b ∈ g.lh.block, ¬ log.Mem b

theorem Region.mem_start : log.Mem log.start := Or.inl rfl

theorem Fits.mem_log (hg : Fits log g) {i : Nat} (hi : i < g.lh.block.length) :
    log.Mem (log.start + i + 1) := by
  have hroom := hg.room
  rw [Logheader.n] at hroom
  exact Or.inr (by omega)

theorem Fits.ne_of_mem (hg : Fits log g) {b b' : Nat} (hb : b ∈ g.lh.block) (hb' : log.Mem b') :
    b ≠ b' := by
  rintro rfl
  exact hg.home b hb hb'

theorem Group.after_of_mem {b : Nat} (hb : b ∈ g.lh.block) : g.after d b = g.data b := by
  simp [Group.after, Group.pinned, hb]

theorem Group.after_of_not_mem {b : Nat} (hb : b ∉ g.lh.block) : g.after d b = d b := by
  simp [Group.after, Group.pinned, hb]

theorem Fits.pinned_none (hg : Fits log g) {b : Nat} (hb : log.Mem b) : g.pinned b = none := by
  simp only [Group.pinned, ite_eq_right_iff, reduceCtorEq, imp_false]
  exact fun h => hg.home b h hb

/-- The writes that copy the group home. -/
def Group.installs (g : Group) : List (Nat × Block) := g.lh.block.map fun b => (b, g.data b)

theorem Group.installs_fst : g.installs.map Prod.fst = g.lh.block := by
  simp [Group.installs, comp_def]

theorem Group.mem_installs_take {w : Nat × Block} {n : Nat} (h : w ∈ g.installs.take n) :
    w.1 ∈ g.lh.block ∧ w.2 = g.data w.1 := by
  have hw := List.mem_of_mem_take h
  simp only [Group.installs, List.mem_map] at hw
  obtain ⟨b, hb, rfl⟩ := hw
  exact ⟨hb, rfl⟩

/-! ## States kept by writes -/

/-- Copying some of the group home keeps a committed state. -/
theorem Committed.installs_take (hg : Fits log g) (h : Committed log g d₀ d) (n : Nat) :
    Committed log g d₀ (Durable.applyWrites d (g.installs.take n)) := by
  have hkeep : ∀ b, b ∉ g.lh.block → Durable.applyWrites d (g.installs.take n) b = d b := by
    intro b hb
    apply Durable.applyWrites_of_not_mem
    intro hmem
    obtain ⟨w, hw, rfl⟩ := List.mem_map.1 hmem
    exact hb (Group.mem_installs_take hw).1
  have hlog : ∀ b, log.Mem b → Durable.applyWrites d (g.installs.take n) b = d b :=
    fun b hb => hkeep b (fun hin => hg.home b hin hb)
  refine ⟨?_, fun i hi => ?_, fun b hb hin => ?_⟩
  · rw [hlog _ Region.mem_start]; exact h.head
  · rw [hlog _ (hg.mem_log hi)]; exact h.copy i hi
  · rw [hkeep b hin]; exact h.rest b hb hin

/-- Copying all of the group home makes the home blocks those after the group. -/
theorem Committed.installs_home (h : Committed log g d₀ d) {b : Nat} (hb : ¬ log.Mem b) :
    Durable.applyWrites d g.installs b = g.after d₀ b := by
  by_cases hin : b ∈ g.lh.block
  · rw [Group.after_of_mem hin]
    refine Durable.applyWrites_of_mem _ _ _ _ (by rwa [Group.installs_fst]) (fun w hw he => ?_)
    have hw' : w ∈ g.installs.take g.installs.length := by rwa [List.take_length]
    rw [(Group.mem_installs_take hw').2, he]
  · rw [Group.after_of_not_mem hin, Durable.applyWrites_of_not_mem _ _ _ (by rwa [Group.installs_fst])]
    exact h.rest b hb hin

/-- Rewriting the header with `n = 0` erases the log and touches no home block. -/
theorem erased_update (home : Disk) (h : ∀ b, ¬ log.Mem b → d b = home b) :
    Erased log home (update d log.start (fillHead (d log.start) [])) := by
  refine ⟨?_, fun b hb => ?_⟩
  · rw [update_self]
    exact headN_fillHead _ [] (Nat.zero_le _)
  · have hne : b ≠ log.start := fun he => hb (he.symm ▸ Region.mem_start)
    rw [update_of_ne hne]
    exact h b hb

/-! ## Recovery -/

/-- The writes of a recovery, given the entries the header lists. -/
theorem recover_trace {bs : List Nat} (h : loadHead (d log.start) = bs) :
    (recoverFromLog log).trace d
      = (installTrans log (fun _ => none) bs 0).trace d
        ++ [(log.start,
              fillHead ((installTrans log (fun _ => none) bs 0).run d log.start) [])] := by
  have hres : (readHead log (fun _ => none)).result d = bs := h
  have hread : (readHead log (fun _ => none)).run d = d := rfl
  have hread0 : (readHead log (fun _ => none)).trace d = [] := rfl
  simp only [recoverFromLog, Durable.trace_bind, hres, hread, hread0, List.nil_append]
  rw [writeHead_trace [] _ rfl]

theorem recover_trace_erased {home : Disk} (h : Erased log home d) :
    (recoverFromLog log).trace d = [(log.start, fillHead (d log.start) [])] := by
  rw [recover_trace (loadHead_of_headN_zero h.head)]
  rfl

theorem Fits.installs_start (hg : Fits log g) :
    Durable.applyWrites d g.installs log.start = d log.start := by
  apply Durable.applyWrites_of_not_mem
  rw [Group.installs_fst]
  exact fun hin => hg.home _ hin Region.mem_start

theorem recover_trace_committed (hg : Fits log g) (h : Committed log g d₀ d) :
    (recoverFromLog log).trace d = g.installs ++ [(log.start, fillHead (d log.start) [])] := by
  have hinst : (installTrans log (fun _ => none) g.lh.block 0).trace d = g.installs :=
    installTrans_trace g.data g.lh.block 0 d
      (fun b hb i hi => by rw [Nat.zero_add]; exact hg.ne_of_mem hb (hg.mem_log hi))
      (fun _ _ => rfl) (fun i hi => by rw [Nat.zero_add]; exact h.copy i hi)
  rw [recover_trace h.head, Durable.run, hinst, hg.installs_start]

/-- Every prefix of a recovery keeps an erased log erased. -/
theorem recover_crash_erased {home : Disk} (h : Erased log home d) (n : Nat) :
    Erased log home ((recoverFromLog log).crash n d) := by
  rw [Durable.crash, recover_trace_erased h]
  cases n with
  | zero => exact h
  | succ n => simpa using erased_update home h.home

theorem recover_run_erased {home : Disk} (h : Erased log home d) :
    Erased log home ((recoverFromLog log).run d) := by
  rw [← Durable.crash_of_length_le _ _ _ (Nat.le_refl _)]
  exact recover_crash_erased h _

/-- An uninterrupted recovery installs a committed group and erases it from the log. -/
theorem recover_run_committed (hg : Fits log g) (h : Committed log g d₀ d) :
    Erased log (g.after d₀) ((recoverFromLog log).run d) := by
  rw [Durable.run, recover_trace_committed hg h, Durable.applyWrites_append,
    ← hg.installs_start (d := d)]
  exact erased_update (g.after d₀) (fun b hb => h.installs_home hb)

/-- What a crash of the recovery leaves of a committed group: still committed, or installed. -/
theorem recover_crash_committed (hg : Fits log g) (h : Committed log g d₀ d) (n : Nat) :
    Committed log g d₀ ((recoverFromLog log).crash n d)
      ∨ Erased log (g.after d₀) ((recoverFromLog log).crash n d) := by
  have htrace := recover_trace_committed hg h
  by_cases hn : n ≤ g.installs.length
  · left
    rw [Durable.crash, htrace, List.take_append_of_le_length hn]
    exact h.installs_take hg n
  · right
    rw [Durable.crash_of_length_le _ _ _ (by rw [htrace]; simp; omega)]
    exact recover_run_committed hg h

/-- Recovery, crashed any number of times and then left alone, keeps an erased log erased. -/
theorem recover_erased {home : Disk} (h : Erased log home d) (ns : List Nat) :
    Erased log home ((recoverFromLog log).run ((recoverFromLog log).restarts ns d)) :=
  Durable.restarts_run (recoverFromLog log) (Erased log home) (Erased log home)
    (fun _ h' n => recover_crash_erased h' n) (fun _ h' => recover_run_erased h') ns d h

/-- Recovery, crashed any number of times and then left alone, installs a committed group. -/
theorem recover_committed (hg : Fits log g)
    (h : Committed log g d₀ d ∨ Erased log (g.after d₀) d) (ns : List Nat) :
    Erased log (g.after d₀) ((recoverFromLog log).run ((recoverFromLog log).restarts ns d)) := by
  refine Durable.restarts_run (recoverFromLog log)
    (fun d' => Committed log g d₀ d' ∨ Erased log (g.after d₀) d') (Erased log (g.after d₀))
    (fun d' h' n => ?_) (fun d' h' => ?_) ns d h
  · rcases h' with h' | h'
    · exact recover_crash_committed hg h' n
    · exact Or.inr (recover_crash_erased h' n)
  · rcases h' with h' | h'
    · exact recover_run_committed hg h'
    · exact recover_run_erased h'

/-! ## Commit -/

/-- The writes of `write_log`. -/
def Group.copies (log : Region) (g : Group) : List (Nat × Block) :=
  (g.lh.block.zipIdx 0).map fun e => (log.start + e.2 + 1, g.data e.1)

theorem Group.copies_length : (g.copies log).length = g.lh.n := by
  simp [Group.copies, Logheader.n]

/-- `write_log` writes to log blocks behind the header only. -/
theorem Fits.mem_copies (hg : Fits log g) {w : Nat × Block} (hw : w ∈ g.copies log) :
    log.Mem w.1 ∧ w.1 ≠ log.start ∧
      ∃ i, ∃ hi : i < g.lh.block.length, w = (log.start + i + 1, g.data g.lh.block[i]) := by
  simp only [Group.copies, List.mem_map] at hw
  obtain ⟨⟨b, i⟩, he, rfl⟩ := hw
  obtain ⟨hi, hbi⟩ := List.mem_zipIdx' he
  refine ⟨hg.mem_log hi, by simp; omega, i, hi, by rw [hbi]⟩

/-- The disk after some of the log blocks are written: still erased, homes untouched. -/
theorem Erased.copies_take (hg : Fits log g) (h : Erased log d₀ d) (n : Nat) :
    Erased log d₀ (Durable.applyWrites d ((g.copies log).take n)) := by
  have hkeep : ∀ b, b = log.start ∨ ¬ log.Mem b →
      Durable.applyWrites d ((g.copies log).take n) b = d b := by
    intro b hb
    apply Durable.applyWrites_of_not_mem
    intro hmem
    obtain ⟨w, hw, rfl⟩ := List.mem_map.1 hmem
    obtain ⟨hw1, hw2, -⟩ := hg.mem_copies (List.mem_of_mem_take hw)
    rcases hb with hb | hb
    · exact hw2 hb
    · exact hb hw1
  refine ⟨?_, fun b hb => ?_⟩
  · rw [hkeep _ (Or.inl rfl)]; exact h.head
  · rw [hkeep _ (Or.inr hb)]; exact h.home b hb

/-- Writing the header after the log blocks commits the group. -/
theorem Erased.commits (hg : Fits log g) (h : Erased log d₀ d) :
    Committed log g d₀ (Durable.applyWrites d
      (g.copies log ++ [(log.start, fillHead (d log.start) g.lh.block)])) := by
  have hd := h.copies_take hg (g.copies log).length
  rw [List.take_length] at hd
  rw [Durable.applyWrites_append]
  simp only [Durable.applyWrites_cons, Durable.applyWrites_nil]
  refine ⟨?_, fun i hi => ?_, fun b hb _ => ?_⟩
  · rw [update_self]
    exact loadHead_fillHead _ g.lh
  · rw [update_of_ne (by omega)]
    refine Durable.applyWrites_of_mem _ _ _ _ ?_ (fun w hw he => ?_)
    · refine List.mem_map.2 ⟨(log.start + i + 1, g.data g.lh.block[i]), ?_, rfl⟩
      refine List.mem_map.2 ⟨(g.lh.block[i], i), ?_, rfl⟩
      exact List.mk_mem_zipIdx_iff_getElem?.2 (List.getElem?_eq_getElem hi)
    · obtain ⟨-, -, j, hj, rfl⟩ := hg.mem_copies hw
      have hij : j = i := by simp only at he; omega
      subst hij
      rfl
  · have hne : b ≠ log.start := fun he => hb (he.symm ▸ Region.mem_start)
    rw [update_of_ne hne]
    exact hd.home b hb

theorem commit_trace (hg : Fits log g) (h : Erased log d₀ d) (hn : 0 < g.lh.n) :
    ∃ hb, (commit log g).trace d
      = (g.copies log ++ [(log.start, fillHead (d log.start) g.lh.block)])
        ++ (g.installs ++ [(log.start, fillHead hb [])]) := by
  have hpin : ∀ b ∈ g.lh.block, g.pinned b = some (g.data b) :=
    fun b hb => by simp [Group.pinned, hb]
  have hlog : (writeLog log g.pinned g.lh.block 0).trace d = g.copies log :=
    writeLog_trace g.data g.lh.block 0 d hpin
  have hstart : Durable.applyWrites d (g.copies log) log.start = d log.start := by
    apply Durable.applyWrites_of_not_mem
    intro hmem
    obtain ⟨w, hw, he⟩ := List.mem_map.1 hmem
    exact (hg.mem_copies hw).2.1 he
  have hhead : (writeHead log g.pinned g.lh.block).trace (Durable.applyWrites d (g.copies log))
      = [(log.start, fillHead (d log.start) g.lh.block)] := by
    rw [writeHead_trace _ _ (hg.pinned_none Region.mem_start), hstart]
  have hc := h.commits hg
  rw [Durable.applyWrites_append] at hc
  have hinst := @installTrans_trace log g.pinned g.data g.lh.block 0 _
    (fun b hb i hi => by rw [Nat.zero_add]; exact hg.ne_of_mem hb (hg.mem_log hi))
    (fun i hi => by rw [Nat.zero_add]; exact hg.pinned_none (hg.mem_log hi))
    (fun i hi => by rw [Nat.zero_add]; exact hc.copy i hi)
  simp only [commit, hn, if_true, Durable.trace_bind, Durable.run, hlog, hhead, hinst,
    writeHead_trace _ _ (hg.pinned_none Region.mem_start)]
  exact ⟨_, by rw [List.append_assoc]; rfl⟩

/-- A crash of `commit` before the header is written: nothing has happened. -/
theorem commit_crash_before (hg : Fits log g) (h : Erased log d₀ d) {k : Nat} (hk : k ≤ g.lh.n) :
    Erased log d₀ ((commit log g).crash k d) := by
  by_cases hn : 0 < g.lh.n
  · obtain ⟨hb, htrace⟩ := commit_trace hg h hn
    rw [Durable.crash, htrace, List.append_assoc,
      List.take_append_of_le_length (by rw [Group.copies_length]; exact hk)]
    exact h.copies_take hg k
  · have htrace : (commit log g).trace d = [] := by simp [commit, hn]
    rw [Durable.crash, htrace, List.take_nil]
    exact h

/-- A crash of `commit` once the header is written: the group is committed, or even installed. -/
theorem commit_crash_after (hg : Fits log g) (h : Erased log d₀ d) {k : Nat} (hk : g.lh.n + 1 ≤ k) :
    Committed log g d₀ ((commit log g).crash k d)
      ∨ Erased log (g.after d₀) ((commit log g).crash k d) := by
  by_cases hn : 0 < g.lh.n
  · obtain ⟨hb, htrace⟩ := commit_trace hg h hn
    have hc := h.commits hg
    have hlen : (g.copies log ++ [(log.start, fillHead (d log.start) g.lh.block)]).length
        = g.lh.n + 1 := by simp [Group.copies_length]
    rw [Durable.crash, htrace, List.take_append, List.take_of_length_le (by omega), hlen,
      Durable.applyWrites_append]
    by_cases hle : k - (g.lh.n + 1) ≤ g.installs.length
    · left
      rw [List.take_append_of_le_length hle]
      exact hc.installs_take hg _
    · right
      rw [List.take_of_length_le (by simp; omega), Durable.applyWrites_append]
      refine ⟨?_, fun b hb' => ?_⟩
      · simp only [Durable.applyWrites_cons, Durable.applyWrites_nil, update_self]
        exact headN_fillHead _ [] (Nat.zero_le _)
      · have hne : b ≠ log.start := fun he => hb' (he.symm ▸ Region.mem_start)
        simp only [Durable.applyWrites_cons, Durable.applyWrites_nil]
        rw [update_of_ne hne]
        exact hc.installs_home hb'
  · -- an empty group changes nothing
    right
    have htrace : (commit log g).trace d = [] := by simp [commit, hn]
    rw [Durable.crash, htrace, List.take_nil]
    have hnil : g.lh.block = [] := List.length_eq_zero_iff.1 (by rw [Logheader.n] at hn; omega)
    refine ⟨h.head, fun b hb => ?_⟩
    rw [Group.after_of_not_mem (by simp [hnil])]
    exact h.home b hb

/-! ## The theorem -/

/-- **Crash atomicity.** `commit` runs on a disk with an empty header and is crashed after `k` of
    its writes; recovery is crashed after each of `ks` writes and then runs to its end. All home
    blocks are then as before the group, or all as after it, and as after it whenever the header
    of the group was written; the header is empty again. -/
theorem commit_crash_atomic (log : Region) (g : Group) (d : Disk)
    (hroom : g.lh.n ≤ log.size - 1) (hhome : ∀ b ∈ g.lh.block, ¬ log.Mem b)
    (hclean : headN (d log.start) = 0) (k : Nat) (ks : List Nat) :
    let d' := (recoverFromLog log).run ((recoverFromLog log).restarts ks ((commit log g).crash k d))
    ((∀ b, ¬ log.Mem b → d' b = d b) ∨ (∀ b, ¬ log.Mem b → d' b = g.after d b)) ∧
      (g.lh.n + 1 ≤ k → ∀ b, ¬ log.Mem b → d' b = g.after d b) ∧
      headN (d' log.start) = 0 := by
  intro d'
  have hg : Fits log g := ⟨hroom, hhome⟩
  have hd : Erased log d d := ⟨hclean, fun _ _ => rfl⟩
  by_cases hk : g.lh.n + 1 ≤ k
  · have h : Erased log (g.after d) d' := recover_committed hg (commit_crash_after hg hd hk) ks
    exact ⟨Or.inr h.home, fun _ => h.home, h.head⟩
  · have h : Erased log d d' := recover_erased (commit_crash_before hg hd (by omega)) ks
    exact ⟨Or.inl h.home, fun hk' => absurd hk' hk, h.head⟩

/-- A group that sets every byte of block 100. -/
def Group.onlyBlock100 : Group := ⟨⟨[100], by decide, by decide⟩, fun _ _ => 7⟩

/-- The log of a freshly made disk, a crash right after the header of a one-block group is written,
    and a recovery that crashes once before it completes: the group has taken effect. -/
theorem commit_crash_atomic_onlyBlock100 :
    Group.onlyBlock100.lh.n + 1 ≤ 2 ∧
      ∀ b, ¬ Region.Mem ⟨2, 30⟩ b →
        (recoverFromLog ⟨2, 30⟩).run ((recoverFromLog ⟨2, 30⟩).restarts [1]
            ((commit ⟨2, 30⟩ Group.onlyBlock100).crash 2 fun _ => Block.zero)) b
          = Group.onlyBlock100.after (fun _ => Block.zero) b :=
  ⟨by decide,
    (commit_crash_atomic ⟨2, 30⟩ Group.onlyBlock100 (fun _ => Block.zero) (by decide) (by decide)
      (by simp [headN, toInt]) 2 [1]).2.1 (by decide)⟩

end Xv6.Log
