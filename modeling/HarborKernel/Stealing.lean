import HarborKernel.SlotAliasing

/-!
Pulling work from the other processor. The probe reads the peer queue, the steal rotates it until
it meets an entry it may take. From a state of a run the two agree; a steal that finds nothing has
rotated the queue all the way round, and a steal that finds an entry has moved the entries before
it behind the others. An idle processor steals before it looks at the kind of a switch.
-/

namespace HarborKernel.Stealing

open Function ReadyQueue TaskTable Tasks SchedulerRuns SlotAliasing Transition

variable {n : ℕ} {t t' : Tasks n} {up : Bool}

/-- Nothing but the places of the two rings may have moved. -/
structure Unchanged (t t' : Tasks n) : Prop where
  states : t'.states = t.states
  epochs : t'.epochs = t.epochs
  home : t'.home = t.home
  stealeable : t'.stealeable = t.stealeable
  queues : ∀ c, (t'.queues c).ready = (t.queues c).ready
  current : t'.current = t.current
  idle : t'.idle = t.idle
  parked : t'.parked = t.parked
  overwrites : t'.overwrites = t.overwrites
  blockEvents : t'.blockEvents = t.blockEvents
  peak : t'.peak = t.peak

/-- The first entry of the peer queue that may be stolen becomes the only entry of the thief. -/
structure Moved (t t' : Tasks n) (thief : ℕ) (before : List TaskId) (id : TaskId)
    (after : List TaskId) : Prop where
  peer : (t.queues (1 - thief)).ready = before ++ id :: after
  skipped : ∀ other ∈ before, t.isStealeable other = false
  taken : t.isStealeable id = true
  thief_empty : (t.queues thief).ready = []
  thief_after : (t'.queues thief).ready = [id]
  peer_after : (t'.queues (1 - thief)).ready = after ++ before
  home : t'.home = update t.home id.index thief
  states : t'.states = t.states
  epochs : t'.epochs = t.epochs
  stealeable : t'.stealeable = t.stealeable
  current : t'.current = t.current
  idle : t'.idle = t.idle
  parked : t'.parked = t.parked
  overwrites : t'.overwrites = t.overwrites
  blockEvents : t'.blockEvents = t.blockEvents
  peak : t'.peak = t.peak

theorem Unchanged.of_queues {Q : ℕ → RunQueue n} (h : ∀ c, (Q c).ready = (t.queues c).ready) :
    Unchanged t { t with queues := Q } :=
  ⟨rfl, rfl, rfl, rfl, h, rfl, rfl, rfl, rfl, rfl, rfl⟩

theorem canStealInto_eq (h : t.Inv up) {c : ℕ} (hc : c < nCpus) :
    t.canStealInto c = (t.stealTarget c).isSome := by
  have hlt : ¬ nCpus ≤ c := Nat.not_le.mpr hc
  have hpeer : 1 - c < nCpus := Nat.lt_of_le_of_lt (Nat.sub_le ..) (by decide)
  unfold canStealInto stealTarget
  by_cases hempty : (t.queues c).isEmpty = true
  · rw [if_neg (by simp [hlt, hempty]), if_pos hempty, List.isSome_find?, Bool.eq_iff_iff,
      List.any_eq_true, List.any_eq_true]
    constructor
    · rintro ⟨id, hid, hst⟩
      exact ⟨id, hid, (Bool.and_eq_true_iff.1 hst).2⟩
    · rintro ⟨id, hid, hst⟩
      have hready := (h.queued (1 - c) hpeer id hid).state
      exact ⟨id, hid, Bool.and_eq_true_iff.2 ⟨decide_eq_true hready, hst⟩⟩
  · rw [if_pos (by simp [hempty]), if_neg hempty]
    rfl

theorem skipped_of_find? {p : TaskId → Bool} {before after : List TaskId} {id : TaskId}
    (hfind : (before ++ id :: after).find? p = some id) (hnodup : (before ++ id :: after).Nodup) :
    ∀ other ∈ before, p other = false := by
  intro other hother
  cases hp : p other with
  | false => rfl
  | true =>
    obtain ⟨first, hfirst⟩ : ∃ first, before.find? p = some first :=
      Option.isSome_iff_exists.1 (List.find?_isSome.2 ⟨other, hother, hp⟩)
    rw [List.find?_append, hfirst, Option.some_or] at hfind
    cases hfind
    have hmem := List.mem_of_find?_eq_some hfirst
    exact absurd rfl ((List.nodup_append.1 hnodup).2.2 id hmem id (List.mem_cons_self ..))

theorem tryStealInto_spec (h : t.Inv up) {c : ℕ} (hc : Up up c) :
    t.canStealInto c = (t.tryStealInto c).1 ∧
    ((t.tryStealInto c).1 = false → Unchanged t (t.tryStealInto c).2) ∧
    ((t.tryStealInto c).1 = true →
      ∃ before id after, Moved t (t.tryStealInto c).2 c before id after) := by
  rw [canStealInto_eq h hc.lt]
  rcases tryStealInto_cases h hc with
    ⟨hnone, Q, hrun, hQ⟩ | ⟨before, id, after, Q, htarget, hst, hthief, hsplit, hrun, hQd, hQc, hQ⟩
  · rw [hnone, hrun]
    exact ⟨rfl, fun _ => Unchanged.of_queues hQ, nofun⟩
  rw [htarget, hrun]
  refine ⟨rfl, nofun, fun _ => ⟨before, id, after, ?_⟩⟩
  have hempty := (RunQueue.isEmpty_iff (t.queues c)).2 hthief
  have hpeer : 1 - c < nCpus := Nat.lt_of_le_of_lt (Nat.sub_le ..) (by decide)
  have hnodup := h.nodup (1 - c) hpeer
  rw [stealTarget, if_pos hempty, hsplit] at htarget
  rw [hsplit] at hnodup
  have hskipped := skipped_of_find? htarget hnodup
  exact ⟨hsplit, hskipped, hst, hthief, hQc, hQd, rfl, rfl, rfl, rfl, rfl, rfl, rfl, rfl, rfl, rfl⟩

theorem up_of_lt (hup : up = true) {c : ℕ} (hc : c < nCpus) : Up up c := by
  have hcase : c = 0 ∨ c = 1 := by
    unfold nCpus at hc
    omega
  exact hcase.imp id fun h => ⟨h, hup⟩

/-- In every run the probe answers what the steal answers, and a steal is a move. -/
theorem steal_is_move (hn : n ≤ 65536) (s : System n) (h : s.Reachable) (hup : s.up = true)
    (thief : ℕ) (hthief : thief < nCpus) :
    s.tasks.canStealInto thief = (s.tasks.tryStealInto thief).1 ∧
    ((s.tasks.tryStealInto thief).1 = false →
      Unchanged s.tasks (s.tasks.tryStealInto thief).2) ∧
    ((s.tasks.tryStealInto thief).1 = true →
      ∃ before id after, Moved s.tasks (s.tasks.tryStealInto thief).2 thief before id after) :=
  tryStealInto_spec (reachable_inv hn h) (up_of_lt hup hthief)

/-- Processor 1 takes the second of two tasks, the one that is marked. -/
theorem steal_is_move_second : ∃ s : System 4, s.Reachable ∧ s.up = true ∧
    ∃ before id after, Moved s.tasks (s.tasks.tryStealInto 1).2 1 before id after := by
  have hreach : System.Reachable (n := 4) _ :=
    Reach.run [.startCpu1, .admitOn 0, .admitOn 0, .setStealeable (TaskId.new 3 0) true]
      (Reach.start (s := ⟨_, false⟩) ⟨rfl, rfl⟩) (fun _ _ _ => trivial) rfl
  have hspec := steal_is_move (by decide) _ hreach rfl 1 (by decide)
  exact ⟨_, hreach, rfl, hspec.2.2 (by decide +kernel)⟩

theorem stealLoop_refused {c d k : ℕ} (left : List TaskId) : ∀ (t : Tasks n) (bad : TaskId)
    (rest : List TaskId), (t.queues d).ready = left ++ bad :: rest → left.length < k →
    (∀ id ∈ left, t.states id.index = .ready ∧ t.isStealeable id = false) →
    t.states bad.index ≠ .ready → ∃ Q, stealLoop c d k t = (false, { t with queues := Q }) ∧
      (Q d).ready = bad :: rest ++ left := by
  induction left generalizing k with
  | nil =>
    intro t bad rest hready hk _ hbad
    obtain ⟨k, rfl⟩ := Nat.exists_eq_add_of_lt hk
    obtain ⟨q, hq, -⟩ := RunQueue.exists_dequeue (t.queues d) bad rest hready
    refine ⟨t.queues, ?_, by simpa using hready⟩
    simp [stealLoop, hq, hbad]
  | cons id left ih =>
    intro t bad rest hready hk hleft hbad
    obtain ⟨k, rfl⟩ : ∃ m, k = m + 1 := ⟨k - 1, by omega⟩
    obtain ⟨q, q', hq, -, hq', hq'r⟩ := RunQueue.exists_rotate (t.queues d) id _ hready
    obtain ⟨hstate, hst⟩ := hleft id (List.mem_cons_self ..)
    obtain ⟨Q, hrun, hQ⟩ := ih (k := k) { t with queues := update t.queues d q' } bad
      (rest ++ [id]) (by simpa using hq'r) (by simpa using hk)
      (fun other hother => hleft other (List.mem_cons_of_mem id hother)) hbad
    refine ⟨Q, ?_, by simpa using hQ⟩
    simp [stealLoop, hq, hstate, hst, hq', hrun]

theorem rotated_of_quiet {m : ℕ} (h : Quiet t (m + 1)) (hroom : m + 2 < n) (hm : m < 65536)
    (hlast : (TaskId.new (m + 1) 0).index = 0) :
    t.startCpu1.1.isSome = true ∧ (t.startCpu1.2.tryStealInto 1).1 = false ∧
      (t.startCpu1.2.queues 0).ready =
        ((List.range m).map fun i => TaskId.new (i + 1) 0) ++ [TaskId.new (m + 1) 0] ∧
      ((t.startCpu1.2.tryStealInto 1).2.queues 0).ready =
        TaskId.new (m + 1) 0 :: (List.range m).map fun i => TaskId.new (i + 1) 0 := by
  have hstart : t.startCpu1 = (some (t.idAt (m + 2)), noteOccupancy { t with
      states := update t.states (m + 2) .running
      home := update t.home (m + 2) 1
      current := update t.current 1 (t.idAt (m + 2))
      idle := update t.idle 1 (t.idAt (m + 2)) }) := by
    simp [startCpu1, h.idle1, h.toFilled.freeSlot hroom]
  have hqueue : (t.queues 0).ready =
      ((List.range m).map fun i => TaskId.new (i + 1) 0) ++ TaskId.new (m + 1) 0 :: [] := by
    rw [h.queue, List.range_succ, List.map_append]
    rfl
  rw [hstart]
  generalize hu : noteOccupancy _ = u
  have hstates : u.states = update t.states (m + 2) .running := by rw [← hu]; rfl
  have hmarks : u.stealeable = t.stealeable := by rw [← hu]; rfl
  have hqueues : u.queues = t.queues := by rw [← hu]; rfl
  have hlen : ((List.range m).map fun i => TaskId.new (i + 1) 0).length < (u.queues 0).len := by
    have hfull : (u.queues 0).ready.length = (u.queues 0).len := by simp [RunQueue.ready]
    rw [← hfull, hqueues, hqueue, List.length_append]
    simp
  have hleft : ∀ id ∈ (List.range m).map fun i => TaskId.new (i + 1) 0,
      u.states id.index = .ready ∧ u.isStealeable id = false := by
    intro id hid
    obtain ⟨i, hi, rfl⟩ := List.mem_map.1 hid
    have hi' := List.mem_range.1 hi
    have hindex : (TaskId.new (i + 1) 0).index = i + 1 := TaskId.index_new_of_lt _ _ (by omega)
    constructor
    · rw [hstates, hindex, update_of_ne (by omega)]
      exact h.ready (i + 1) (by omega) (by omega)
    · simp [isStealeable, hmarks, h.marks]
  have hbad : u.states (TaskId.new (m + 1) 0).index ≠ .ready := by
    rw [hstates, hlast, update_of_ne (by omega), h.running]
    decide
  obtain ⟨Q, hrun, hQ⟩ := stealLoop_refused (c := 1) _ u _ [] (hqueues ▸ hqueue) hlen hleft hbad
  have hempty : (u.queues 1).isEmpty = true := by
    rw [RunQueue.isEmpty_iff, hqueues, h.other]
  have hsteal : u.tryStealInto 1 = (false, { u with queues := Q }) := by
    rw [tryStealInto, if_neg (by simp [hempty, nCpus])]
    exact hrun
  rw [hsteal]
  refine ⟨rfl, rfl, hqueues ▸ hqueue, ?_⟩
  rw [hQ]
  rfl

/-- With 65538 slots the task in slot 65536 is queued as task 0, whose slot is running. Processor 1
finds nothing to steal and leaves the queue of processor 0 rotated. -/
theorem steal_leaves_rotated : ∃ s : System 65538, s.Reachable ∧ s.up = true ∧
    (s.tasks.tryStealInto 1).1 = false ∧ ¬ Unchanged s.tasks (s.tasks.tryStealInto 1).2 := by
  obtain ⟨s, hreach, -, hquiet⟩ : ∃ s : System 65538, s.Reachable ∧ s.up = false ∧
      Quiet s.tasks (65535 + 1) := exists_reachable_quiet (by omega) (65535 + 1) (by omega)
  obtain ⟨hstart, hfalse, hbefore, hafter⟩ := rotated_of_quiet hquiet (by omega) (by omega) rfl
  refine ⟨⟨s.tasks.startCpu1.2, true⟩, ?_, rfl, hfalse, ?_⟩
  · exact Reach.next (l := .startCpu1) hreach trivial
      (by simp [System.step, Op.cpu, Op.apply, hstart])
  intro hsame
  have hqueue := hsame.queues 0
  rw [hbefore, hafter] at hqueue
  have hhead := congrArg List.head? hqueue
  rw [List.head?_cons, List.range_succ_eq_map] at hhead
  exact absurd (Option.some.inj hhead) (by decide)

theorem switchOn_idle {c : ℕ} (h : t.Inv up) (hc : Up up c) (hidle : t.current c = t.idle c)
    {kind : Switch} (hkind : kind ≠ .yield) :
    t.switchOn c kind = (.stay, t.stealFirst c) := by
  have hlt : ¬ nCpus ≤ c := Nat.not_le.mpr hc.lt
  obtain ⟨Q, H, hframe⟩ := stealFirst_frame h hc
  have hcur : (t.stealFirst c).current = t.current := by rw [hframe]
  have hid : (t.stealFirst c).idle = t.idle := by rw [hframe]
  simp only [switchOn, if_neg hlt, hcur, hid, hidle, hkind, ne_eq, not_false_eq_true, and_self,
    if_true]

theorem Moved.not_unchanged {c : ℕ} {before after : List TaskId} {id : TaskId}
    (h : Moved t t' c before id after) : ¬Unchanged t t' := by
  intro hsame
  have hqueue := hsame.queues c
  rw [h.thief_after, h.thief_empty] at hqueue
  cases hqueue

/-- An idle processor refuses to be preempted, to block or to exit, and nothing changes if and only
if it cannot steal. -/
theorem idle_refusal_unchanged (hn : n ≤ 65536) (s : System n) (h : s.Reachable) {c : ℕ}
    (hc : Up s.up c) (hidle : s.tasks.current c = s.tasks.idle c) {kind : Switch}
    (hkind : kind ≠ .yield) :
    ((s.tasks.switchOn c kind).1 = .stay ∧ Unchanged s.tasks (s.tasks.switchOn c kind).2) ↔
      s.tasks.canStealInto c = false := by
  have hinv := reachable_inv hn h
  obtain ⟨hprobe, hfalse, htrue⟩ := tryStealInto_spec hinv hc
  rw [switchOn_idle hinv hc hidle hkind, stealFirst, hprobe]
  constructor
  · rintro ⟨-, hsame⟩
    by_contra hsteal
    obtain ⟨before, id, after, hmoved⟩ := htrue (Bool.eq_true_of_not_eq_false hsteal)
    have hempty := (RunQueue.isEmpty_iff (s.tasks.queues c)).2 hmoved.thief_empty
    rw [if_pos ⟨hidle, hempty⟩] at hsame
    exact hmoved.not_unchanged hsame
  · intro hsteal
    refine ⟨rfl, ?_⟩
    split
    · exact hfalse hsteal
    · exact Unchanged.of_queues fun _ => rfl

/-- Processor 1 is idle and the only task of processor 0 is not marked. -/
theorem idle_refusal_unchanged_unmarked : ∃ s : System 3, s.Reachable ∧ s.up = true ∧
    (s.tasks.queues 0).ready = [TaskId.new 2 0] ∧
    (s.tasks.switchOn 1 .preempt).1 = .stay ∧
    Unchanged s.tasks (s.tasks.switchOn 1 .preempt).2 := by
  have hreach : System.Reachable (n := 3) _ :=
    Reach.run [.startCpu1, .admitOn 0] (Reach.start (s := ⟨_, false⟩) ⟨rfl, rfl⟩)
      (fun _ _ _ => trivial) rfl
  have hspec := idle_refusal_unchanged (by decide) _ hreach (c := 1) (.inr ⟨rfl, rfl⟩) rfl
    (show Switch.preempt ≠ .yield by decide)
  exact ⟨_, hreach, rfl, rfl, hspec.2 rfl⟩

/-- A refused switch of the idle task takes the marked task of the other processor. -/
theorem idle_refusal_steals : ∃ s : System 3, s.Reachable ∧ s.up = true ∧
    s.tasks.current 1 = s.tasks.idle 1 ∧ ∀ kind : Switch, kind ≠ .yield →
      (s.tasks.switchOn 1 kind).1 = .stay ∧
      (s.tasks.queues 0).ready = [TaskId.new 2 0] ∧ (s.tasks.queues 1).ready = [] ∧
      ((s.tasks.switchOn 1 kind).2.queues 0).ready = [] ∧
      ((s.tasks.switchOn 1 kind).2.queues 1).ready = [TaskId.new 2 0] ∧
      s.tasks.home 2 = 0 ∧ (s.tasks.switchOn 1 kind).2.home 2 = 1 := by
  have hreach : System.Reachable (n := 3) _ :=
    Reach.run [.startCpu1, .admitOn 0, .setStealeable (TaskId.new 2 0) true]
      (Reach.start (s := ⟨_, false⟩) ⟨rfl, rfl⟩) (fun _ _ _ => trivial) rfl
  refine ⟨_, hreach, rfl, rfl, ?_⟩
  intro kind hkind
  cases kind with
  | yield => exact absurd rfl hkind
  | preempt => decide +kernel
  | block => decide +kernel
  | exit => decide +kernel

end HarborKernel.Stealing
