import HarborKernel.SchedulerRuns

/-!
Tables with more than 2^16 slots. An id keeps sixteen bits of its slot, so the tasks in the slots
65536 and 65537 are queued as tasks of the slots 0 and 1. The states below are reached by filling
the table from processor 0.
-/

namespace HarborKernel.SlotAliasing

open Function ReadyQueue TaskTable Tasks SchedulerRuns Transition

variable {n : ℕ} {t : Tasks n}

structure Quiet (t : Tasks n) (k : ℕ) : Prop extends Filled t k where
  running : t.states 0 = .running
  ready : ∀ i, 0 < i → i ≤ k → t.states i = .ready
  marks : ∀ i, t.stealeable i = false
  other : (t.queues 1).ready = []
  idle1 : t.idle 1 = IDLE

theorem start_quiet (t : Tasks n) (h : (new : Tasks n).start = some t) : Quiet t 0 := by
  refine ⟨start_filled t h, ?_, by omega, ?_, ?_, ?_⟩
  all_goals
    unfold start at h
    split at h
    · cases Option.some.inj h
      simp [noteOccupancy, new]
    · contradiction

theorem Quiet.admitted {k : ℕ} (h : Quiet t k) (hk : k + 1 < n) :
    Quiet (t.admitOn 0).2 (k + 1) := by
  have hfilled := h.toFilled.admitted hk
  obtain ⟨q, -, hstep⟩ := h.toFilled.admitOn_eq hk
  refine ⟨hfilled, ?_, ?_, ?_, ?_, ?_⟩
  · rw [hstep]
    simp [noteOccupancy, h.running]
  · intro i hpos hi
    rw [hstep]
    by_cases hik : i = k + 1
    · simp [noteOccupancy, hik]
    · simp only [noteOccupancy, update_of_ne hik]
      exact h.ready i hpos (by omega)
  · intro i
    rw [hstep]
    by_cases hik : i = k + 1
    · simp [noteOccupancy, hik]
    · simp only [noteOccupancy, update_of_ne hik, h.marks]
  · rw [hstep]
    simp [noteOccupancy, h.other]
  · rw [hstep]
    exact h.idle1

theorem exists_reachable_quiet (hn : 0 < n) (k : ℕ) (hk : k < n) :
    ∃ s : System n, s.Reachable ∧ s.up = false ∧ Quiet s.tasks k := by
  induction k with
  | zero =>
    obtain ⟨t, ht⟩ : ∃ t, (new : Tasks n).start = some t := ⟨_, if_pos hn⟩
    exact ⟨⟨t, false⟩, Reach.start ⟨ht, rfl⟩, rfl, start_quiet t ht⟩
  | succ k ih =>
    obtain ⟨s, hreach, hup, hquiet⟩ := ih (by omega)
    refine ⟨⟨(s.tasks.admitOn 0).2, s.up⟩, ?_, hup, hquiet.admitted hk⟩
    exact Reach.next (l := .admitOn 0) hreach trivial (by simp [System.step, Op.cpu, Op.apply])

structure Yielded (t : Tasks n) (k : ℕ) : Prop where
  empty_iff : ∀ i, t.states i = .empty ↔ k < i
  epochs : ∀ i, t.epochs i = 0
  parked : t.parked = none
  idle : t.idle 0 = IDLE
  current : t.current 0 = TaskId.new 1 0
  queue : ∃ rest, (t.queues 0).ready = TaskId.new 2 0 :: rest ∧ rest.length = k - 1

theorem Quiet.yielded {k : ℕ} (h : Quiet t k) (hk : 2 ≤ k) (hn : k < n) :
    Yielded (t.switchOn 0 .yield).2 k := by
  obtain ⟨rest, hrest, hlen⟩ : ∃ rest,
      (t.queues 0).ready = TaskId.new 1 0 :: TaskId.new 2 0 :: rest ∧ rest.length = k - 2 := by
    obtain ⟨m, rfl⟩ := Nat.exists_eq_add_of_le hk
    refine ⟨(List.range m).map fun i => TaskId.new (i + 3) 0, ?_, by simp⟩
    rw [h.queue, Nat.add_comm, List.range_succ_eq_map, List.range_succ_eq_map]
    simp [comp_def]
  have hbusy : (t.queues 0).isEmpty = false := by
    rw [Bool.eq_false_iff, ne_eq, RunQueue.isEmpty_iff, hrest]
    exact List.cons_ne_nil _ _
  obtain ⟨q1, hq1⟩ := RunQueue.exists_enqueue (t.queues 0) IDLE (by
    rw [hrest, List.length_cons, List.length_cons, hlen]
    omega)
  have hq1r := RunQueue.enqueue_ready _ _ _ hq1
  rw [hrest] at hq1r
  obtain ⟨q, hq, hqr⟩ := RunQueue.exists_dequeue q1 _ _ hq1r
  have hstep : (t.switchOn 0 .yield).2 = { t with
      queues := update t.queues 0 q
      states := update (update t.states 0 .ready) 1 .running
      current := update t.current 0 (TaskId.new 1 0) } := by
    have hne : TaskId.new 1 0 ≠ IDLE := by decide
    have hindex : (TaskId.new 1 0).index = 1 := rfl
    have hzero : IDLE.index = 0 := rfl
    simp [switchOn, nCpus, stealFirst, h.current, h.idle, hbusy, retire, hzero, h.running, rotate,
      Switch.requeues, RunQueue.afterYield, hq1, hq, pick, switchTo, hne, hindex]
  rw [hstep]
  refine ⟨?_, h.epochs, h.parked, h.idle, ?_, rest ++ [IDLE], ?_, ?_⟩
  · intro i
    by_cases hi : i = 1
    · subst hi
      simp
      omega
    by_cases hi0 : i = 0
    · subst hi0
      simp
    · simp only [update_of_ne hi, update_of_ne hi0, h.empty_iff]
  · simp
  · simpa using hqr
  · simp [hlen]
    omega

theorem exists_reachable_yielded {k : ℕ} (hk : 2 ≤ k) (hn : k < n) :
    ∃ s : System n, s.Reachable ∧ s.up = false ∧ Yielded s.tasks k := by
  obtain ⟨s, hreach, hup, hquiet⟩ := exists_reachable_quiet (by omega) k hn
  refine ⟨⟨(s.tasks.switchOn 0 .yield).2, s.up⟩, ?_, hup, hquiet.yielded hk hn⟩
  exact Reach.next (l := .switchOn 0 .yield) hreach trivial
    (by simp [System.step, Op.cpu, Op.apply])

structure Left (t : Tasks n) (k : ℕ) : Prop where
  empty_iff : ∀ i, t.states i = .empty ↔ i = 1 ∨ k < i
  epochs : ∀ i, i ≠ 1 → t.epochs i = 0
  parked : t.parked = some (TaskId.new 1 0)
  queue : (t.queues 0).ready.length < k

theorem Yielded.left {k : ℕ} (h : Yielded t k) (hk : 2 ≤ k) :
    (t.switchOn 0 .exit).1 = .switch (TaskId.new 1 0) (TaskId.new 2 0) none ∧
      Left (t.switchOn 0 .exit).2 k := by
  obtain ⟨rest, hrest, hlen⟩ := h.queue
  obtain ⟨q, hq, hqr⟩ := RunQueue.exists_dequeue (t.queues 0) _ _ hrest
  have hstep : t.switchOn 0 .exit =
      (.switch (TaskId.new 1 0) (TaskId.new 2 0) none, { t with
        queues := update t.queues 0 q
        parked := some (TaskId.new 1 0)
        epochs := update t.epochs 1 (t.epochs 1 + 1)
        states := update (update t.states 1 .empty) 2 .running
        current := update t.current 0 (TaskId.new 2 0) }) := by
    have hne : TaskId.new 2 0 ≠ TaskId.new 1 0 := by decide
    have hidle : TaskId.new 1 0 ≠ IDLE := by decide
    have hindex : (TaskId.new 1 0).index = 1 := rfl
    have hindex2 : (TaskId.new 2 0).index = 2 := rfl
    simp [switchOn, nCpus, stealFirst, h.current, h.idle, hidle, retire, rotate,
      Switch.requeues, RunQueue.afterYield, hq, pick, switchTo, hne, hindex, hindex2, h.parked]
  rw [hstep]
  refine ⟨rfl, ?_, ?_, rfl, ?_⟩
  · intro i
    by_cases hi : i = 2
    · subst hi
      simp
      omega
    by_cases hi1 : i = 1
    · subst hi1
      simp
    · simp only [update_of_ne hi, update_of_ne hi1, h.empty_iff, hi1, false_or]
  · intro i hi
    simp only [update_of_ne hi, h.epochs]
  · simp only [update_self, hqr, hlen]
    omega

theorem Left.admit {t : Tasks 65538} (h : Left t 65536) :
    (t.admitOn 0).1 = some (TaskId.new 1 0) ∧
      (t.admitOn 0).2.liveId 65537 = some (TaskId.new 1 0) := by
  have hfree : t.freeSlot = some 65537 := by
    refine List.find?_range_eq_some.mpr ⟨?_, List.mem_range.mpr (by decide), ?_⟩
    · have hindex : (TaskId.new 1 0).index = 1 := rfl
      simp [h.parked, h.empty_iff, hindex]
    intro j hj
    have hindex : (TaskId.new 1 0).index = 1 := rfl
    have hbig : ¬ 65536 < j := by omega
    simp only [h.parked, h.empty_iff, Option.all_some, hindex, hbig, or_false]
    by_cases hj1 : j = 1
    · simp [hj1]
    · simp [hj1]
  have hid : t.idAt 65537 = TaskId.new 1 0 := by
    rw [idAt, h.epochs 65537 (by decide)]
    rfl
  have hlen := h.queue
  obtain ⟨q, hq⟩ := RunQueue.exists_enqueue (t.queues 0) (TaskId.new 1 0) (by omega)
  have hstep : t.admitOn 0 = (some (TaskId.new 1 0), noteOccupancy { t with
      queues := update t.queues 0 q
      states := update t.states 65537 .ready
      home := update t.home 65537 0
      stealeable := update t.stealeable 65537 false }) := by
    simp [admitOn, nCpus, hfree, hid, hq]
  rw [hstep]
  refine ⟨rfl, ?_⟩
  have hlive : update t.states 65537 State.ready 65537 ≠ .empty := by
    rw [update_self]
    decide
  rw [liveId, if_pos ⟨by decide, hlive⟩]
  exact congrArg some hid

/-- A run over 65538 slots in which an id is given out again right after its task has left. -/
theorem exists_reachable_reused : ∃ s : System 65538, s.Reachable ∧ s.up = false ∧
    (s.tasks.switchOn 0 .exit).1 = .switch (TaskId.new 1 0) (TaskId.new 2 0) none ∧
    (s.tasks.switchOn 0 .exit).2.parked = some (TaskId.new 1 0) ∧
    ((s.tasks.switchOn 0 .exit).2.admitOn 0).1 = some (TaskId.new 1 0) ∧
    ((s.tasks.switchOn 0 .exit).2.admitOn 0).2.liveId 65537 = some (TaskId.new 1 0) := by
  obtain ⟨s, hreach, hup, hyielded⟩ : ∃ s : System 65538, s.Reachable ∧ s.up = false ∧
      Yielded s.tasks 65536 := exists_reachable_yielded (by omega) (by omega)
  obtain ⟨hdecision, hleft⟩ := hyielded.left (by omega)
  exact ⟨s, hreach, hup, hdecision, hleft.parked, hleft.admit⟩

end HarborKernel.SlotAliasing
