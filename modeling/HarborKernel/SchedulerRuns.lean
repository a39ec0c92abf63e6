import HarborKernel.TaskSwitch
import HarborKernel.Transition

/-!
Runs of the task table: any interleaving of the public operations after boot.
`Placed` states where every slot and every idle identity is, in terms of the
queues, the current tasks and the states. A run keeps it as long as slot indices
fit the sixteen bits of a `TaskId`; one slot more and the last admission aliases
the idle task of processor 0.
-/

namespace HarborKernel.SchedulerRuns

open Function ReadyQueue TaskTable Tasks Transition

inductive Op
  | startCpu1
  | admitOn (cpu : ℕ)
  | setStealeable (id : TaskId) (yes : Bool)
  | wake (id : TaskId)
  | collect
  | tryStealInto (thief : ℕ)
  | switchOn (cpu : ℕ) (kind : Switch)

variable {n : ℕ}

namespace Op

def cpu : Op → Option ℕ
  | admitOn c | tryStealInto c | switchOn c _ => some c
  | _ => none

def apply (t : Tasks n) : Op → Tasks n
  | startCpu1 => t.startCpu1.2
  | admitOn c => (t.admitOn c).2
  | setStealeable id yes => (t.setStealeable id yes).2
  | wake id => (t.wake id).2
  | collect => t.collect.2
  | tryStealInto c => (t.tryStealInto c).2
  | switchOn c kind => (t.switchOn c kind).2

end Op

/-- The table and whether `start_cpu1` has answered with an id. -/
structure System (n : ℕ) where
  tasks : Tasks n
  up : Bool

namespace System

def Boot (s : System n) : Prop :=
  (new : Tasks n).start = some s.tasks ∧ s.up = false

def step (s : System n) (op : Op) : Option (System n) :=
  if op.cpu = some 1 ∧ s.up = false then none
  else some ⟨op.apply s.tasks, match op with
    | .startCpu1 => s.up || s.tasks.startCpu1.1.isSome
    | _ => s.up⟩

abbrev Reachable (s : System n) : Prop := Reach Boot step (fun _ _ => True) s

end System

def stealRefuses (thief peer : ℕ) : ℕ → Tasks n → Bool
  | 0, _ => false
  | k + 1, t =>
    match (t.queues peer).dequeue with
    | none => false
    | some (id, q) =>
      if t.states id.index ≠ .ready then false
      else if ¬ t.isStealeable id then
        (q.enqueue id).isNone || stealRefuses thief peer k
          { t with queues := update t.queues peer ((q.enqueue id).getD q) }
      else (((update t.queues peer q) thief).enqueue id).isNone

namespace Op

def refuses (t : Tasks n) : Op → Bool
  | admitOn c => c < nCpus && match t.freeSlot with
      | none => false
      | some slot => ((t.queues c).enqueue (t.idAt slot)).isNone
  | wake id => t.state id = some .blocked && id ≠ t.idle 0 && id ≠ t.idle 1 &&
      ((t.queues (t.home id.index)).enqueue id).isNone
  | tryStealInto c => c < nCpus && (t.queues c).isEmpty &&
      stealRefuses c (1 - c) (t.queues (1 - c)).len t
  | switchOn c kind => c < nCpus &&
      ((t.current c = t.idle c && (t.queues c).isEmpty &&
          stealRefuses c (1 - c) (t.queues (1 - c)).len t) ||
        (!(kind ≠ .yield && t.current c = t.idle c) &&
          (((t.stealFirst c).retire (t.current c).index kind).rotate c kind).1 = none))
  | _ => false

def fallsBack (t : Tasks n) : Op → Bool
  | switchOn c kind => c < nCpus && !(kind ≠ .yield && t.current c = t.idle c) &&
      (let r := ((t.stealFirst c).retire (t.current c).index kind).rotate c kind
       r.2.pick c r.1 = .fallback)
  | _ => false

end Op

/-- Every slot is where its state says, and each idle identity is current or queued. -/
structure Placed (t : Tasks n) (up : Bool) : Prop where
  ready_iff : ∀ i, i < n → (t.states i = .ready ↔
    (t.queues 0).ready.count (t.idAt i) + (t.queues 1).ready.count (t.idAt i) = 1)
  ready_home : ∀ i, i < n → t.states i = .ready → t.idAt i ∈ (t.queues (t.home i)).ready
  running_iff : ∀ i, i < n →
    (t.states i = .running ↔ ∃! c, Up up c ∧ t.current c = t.idAt i)
  off : ∀ i, i < n → t.states i = .blocked ∨ t.states i = .empty →
    (∀ c, c < nCpus → ∀ id ∈ (t.queues c).ready, id.index ≠ i) ∧
    ∀ c, Up up c → (t.current c).index ≠ i
  idle_live : ∀ c, Up up c → t.state (t.idle c) = some .ready ∨ t.state (t.idle c) = some .running
  idle_once : ∀ c, Up up c → Xor (t.idle c = t.current c) (t.idle c ∈ (t.queues c).ready)

variable {t : Tasks n} {up : Bool}

private theorem count_of_mem (h : t.Inv up) {c d : ℕ} (hc : c < nCpus) (hd : d < nCpus)
    {id : TaskId} (hid : id ∈ (t.queues c).ready) :
    (t.queues d).ready.count id = if d = c then 1 else 0 := by
  split
  · rename_i hdc
    subst hdc
    exact List.count_eq_one_of_mem (h.nodup d hc) hid
  rename_i hdc
  apply List.count_eq_zero_of_not_mem
  intro hmem
  exact hdc (h.queued_inj hd hc hmem hid rfl).2

theorem placed_of_inv (hn : n ≤ 65536) (h : t.Inv up) : Placed t up where
  ready_iff := by
    intro i hi
    constructor
    · intro hs
      have hmem := h.ready i hi hs
      have hhome := (h.home_up i hi (by rw [hs]; decide)).lt
      rw [count_of_mem h hhome (by decide) hmem, count_of_mem h hhome (by decide) hmem]
      rcases h.home_up i hi (by rw [hs]; decide) with hc | ⟨hc, -⟩ <;> simp [hc]
    · intro hcount
      have hmem : ∃ c, c < nCpus ∧ t.idAt i ∈ (t.queues c).ready := by
        by_cases h0 : t.idAt i ∈ (t.queues 0).ready
        · exact ⟨0, by decide, h0⟩
        · rw [List.count_eq_zero_of_not_mem h0, Nat.zero_add] at hcount
          exact ⟨1, by decide, List.count_pos_iff.mp (by omega)⟩
      obtain ⟨c, hc, hmem⟩ := hmem
      have hsit := h.queued c hc _ hmem
      rw [← idAt_index hn t hi]
      exact hsit.state
  ready_home := h.ready
  running_iff := by
    intro i hi
    constructor
    · intro hs
      refine ⟨t.home i, ⟨h.home_up i hi (by rw [hs]; decide), (h.running i hi hs).2⟩, ?_⟩
      rintro c ⟨hc, hcur⟩
      have hsit := h.current c hc (by simp)
      rw [hcur] at hsit
      rw [← hsit.home, idAt_index hn t hi]
    · rintro ⟨c, ⟨hc, hcur⟩, -⟩
      have hsit := h.current c hc (by simp)
      rw [hcur] at hsit
      rw [← idAt_index hn t hi]
      exact hsit.state
  off := by
    intro i _ hs
    constructor
    · intro c hc id hid
      exact h.index_ne hc (by rcases hs with hs | hs <;> rw [hs] <;> decide) hid
    · intro c hc heq
      have hsit := h.current c hc (by simp)
      have hrun := hsit.state
      rw [heq] at hrun
      rcases hs with hs | hs <;> rw [hs] at hrun <;> contradiction
  idle_live := by
    intro c hc
    obtain ⟨s, hs, hsit⟩ := h.idle_sits hc
    have hstate : t.state (t.idle c) = some s := by
      rw [state, if_pos ⟨hsit.lt, hsit.epoch.symm⟩, hsit.state]
    rcases hs with rfl | rfl
    · exact .inr hstate
    · exact .inl hstate
  idle_once := by
    intro c hc
    rcases h.idle c hc with heq | hmem
    · refine .inl ⟨heq, fun hmem => ?_⟩
      have hrun := (h.current c hc (by simp)).state
      exact h.index_ne hc.lt (by rw [hrun]; decide) hmem (by rw [heq])
    refine .inr ⟨hmem, fun heq => ?_⟩
    have hrun := (h.current c hc (by simp)).state
    exact h.index_ne hc.lt (by rw [hrun]; decide) hmem (by rw [heq])

theorem stealRefuses_eq_false {c d : ℕ} (hd : d < nCpus) (hcd : c ≠ d) :
    ∀ (k : ℕ) (t : Tasks n), t.Inv up → (t.queues c).ready = [] →
      stealRefuses c d k t = false := by
  intro k
  induction k with
  | zero => intro t _ _; rfl
  | succ k ih =>
    intro t h hthief
    cases hready : (t.queues d).ready with
    | nil =>
      have hnone := (RunQueue.dequeue_eq_none_iff (t.queues d)).mpr hready
      simp [stealRefuses, hnone]
    | cons id rest =>
      obtain ⟨q, q', hq, -, hq', -, h1⟩ := steal_rotate h hready
      have hsit := h.queued d hd id (hready ▸ List.mem_cons_self ..)
      obtain ⟨qt, hqt⟩ := RunQueue.exists_enqueue (t.queues c) id
        (by rw [hthief]; exact Nat.lt_of_le_of_lt (Nat.zero_le _) hsit.lt)
      have hrest := ih _ h1 (by simpa [update_of_ne hcd] using hthief)
      by_cases hst : t.isStealeable id = true
      · simp [stealRefuses, hq, hsit.state, hst, update_of_ne hcd, hqt]
      · simp [stealRefuses, hq, hsit.state, hst, hq', hrest]

/-- Outside the array of processors an operation does nothing; inside, it may run
only on a processor that is up. -/
theorem up_of_enabled {s : System n} {op : Op} {c : ℕ} (hop : op.cpu = some c)
    (hen : ¬ (op.cpu = some 1 ∧ s.up = false)) (hc : c < nCpus) : Up s.up c := by
  have hcase : c = 0 ∨ c = 1 := by
    unfold nCpus at hc
    omega
  rcases hcase with rfl | rfl
  · exact .inl rfl
  · exact .inr ⟨rfl, by simpa [hop] using hen⟩

section

variable (hn : n ≤ 65536)
include hn

variable {s : System n} {op : Op}

theorem step_inv {s' : System n} (h : s.tasks.Inv s.up) (hs : s.step op = some s') :
    s'.tasks.Inv s'.up := by
  unfold System.step at hs
  split at hs
  · contradiction
  rename_i hen
  cases Option.some.inj hs
  cases op with
  | startCpu1 => exact startCpu1_inv hn h
  | admitOn c =>
    by_cases hc : c < nCpus
    · exact admitOn_inv hn h (up_of_enabled rfl hen hc)
    · simpa [Op.apply, admitOn, Nat.not_lt.mp hc] using h
  | setStealeable id yes => exact setStealeable_inv h id yes
  | wake id => exact wake_inv hn h id
  | collect => exact collect_inv h
  | tryStealInto c =>
    by_cases hc : c < nCpus
    · exact tryStealInto_inv hn h (up_of_enabled rfl hen hc)
    · simpa [Op.apply, tryStealInto, Nat.not_lt.mp hc] using h
  | switchOn c kind =>
    by_cases hc : c < nCpus
    · exact switchOn_inv hn h (up_of_enabled rfl hen hc) kind
    · simpa [Op.apply, switchOn, Nat.not_lt.mp hc] using h

private theorem switch_picks (h : t.Inv up) {c : ℕ} (hc : Up up c)
    {kind : Switch} (hkind : kind = .yield ∨ t.current c ≠ t.idle c) :
    ∃ next p, ((t.stealFirst c).retire (t.current c).index kind).rotate c kind =
      (some (some next), p) := by
  have hinv := stealFirst_inv hn h hc
  obtain ⟨Q, H, hframe⟩ := stealFirst_frame h hc
  have hcur : (t.stealFirst c).current = t.current := by rw [hframe]
  have hidle : (t.stealFirst c).idle = t.idle := by rw [hframe]
  have hsit := hinv.current c hc (by simp)
  obtain ⟨next, rest, hcand⟩ := exists_candidate hinv hc (by rwa [hcur, hidle])
  obtain ⟨q, -, hrot⟩ := rotate_cons
    (hinv.length_lt hsit.lt (by rw [hsit.state]; decide) hc.lt) hcand
  rw [hcur] at hrot
  exact ⟨next, _, hrot⟩

theorem refuses_eq_false (h : s.tasks.Inv s.up) (hen : ¬ (op.cpu = some 1 ∧ s.up = false)) :
    op.refuses s.tasks = false := by
  have hsteal : ∀ c, Up s.up c → (s.tasks.queues c).isEmpty = true →
      stealRefuses c (1 - c) (s.tasks.queues (1 - c)).len s.tasks = false := by
    intro c _ hempty
    exact stealRefuses_eq_false (Nat.lt_of_le_of_lt (Nat.sub_le ..) (by decide)) (by omega) _ _ h
      ((RunQueue.isEmpty_iff _).mp hempty)
  cases op with
  | startCpu1 | setStealeable id yes | collect => rfl
  | admitOn c =>
    by_cases hc : c < nCpus
    · rcases admitOn_cases h (up_of_enabled rfl hen hc) with ⟨hf, -⟩ | ⟨slot, q, hf, hq, -⟩
      · simp [Op.refuses, hf]
      · simp [Op.refuses, hf, hq]
    · simp [Op.refuses, hc]
  | wake id =>
    rcases wake_cases h id with ⟨hs, -⟩ | ⟨q, -, hq, -⟩
    · simp [Op.refuses, hs]
    · simp [Op.refuses, hq]
  | tryStealInto c =>
    by_cases hc : c < nCpus
    · by_cases he : (s.tasks.queues c).isEmpty = true
      · simp [Op.refuses, hsteal c (up_of_enabled rfl hen hc) he]
      · simp [Op.refuses, he]
    · simp [Op.refuses, hc]
  | switchOn c kind =>
    by_cases hc : c < nCpus
    · have hup := up_of_enabled (rfl : (Op.switchOn c kind).cpu = some c) hen hc
      have hfirst : (s.tasks.current c = s.tasks.idle c && (s.tasks.queues c).isEmpty &&
          stealRefuses c (1 - c) (s.tasks.queues (1 - c)).len s.tasks) = false := by
        by_cases he : (s.tasks.queues c).isEmpty = true
        · simp [hsteal c hup he]
        · simp [he]
      by_cases hkind : kind = .yield ∨ s.tasks.current c ≠ s.tasks.idle c
      · obtain ⟨next, p, hrot⟩ := switch_picks hn h hup hkind
        simp only [Op.refuses, hfirst, hrot]
        simp
      · simp only [Op.refuses, hfirst]
        simp [not_or.mp hkind]
    · simp [Op.refuses, hc]

theorem fallsBack_eq_false (h : s.tasks.Inv s.up) (hen : ¬ (op.cpu = some 1 ∧ s.up = false)) :
    op.fallsBack s.tasks = false := by
  cases op with
  | switchOn c kind =>
    by_cases hc : c < nCpus
    · have hup := up_of_enabled (rfl : (Op.switchOn c kind).cpu = some c) hen hc
      by_cases hkind : kind = .yield ∨ s.tasks.current c ≠ s.tasks.idle c
      · obtain ⟨next, p, hrot⟩ := switch_picks hn h hup hkind
        simp [Op.fallsBack, hrot, pick]
      · simp [Op.fallsBack, not_or.mp hkind]
    · simp [Op.fallsBack, hc]
  | _ => rfl

theorem reachable_inv (h : s.Reachable) : s.tasks.Inv s.up := by
  refine h.invariant (I := fun s => s.tasks.Inv s.up) ?_ ?_
  · rintro s ⟨hstart, hup⟩
    rw [hup]
    exact new_start_inv _ hstart
  · intro s op s' hs _ hstep
    exact step_inv hn hs hstep

end

/-- In every run over at most 2^16 slots each task is where its state says, no queue
refuses an id, and a switch never falls back to an idle task outside the queue. -/
theorem reachable_placed (hn : n ≤ 65536) (s : System n) (h : s.Reachable) :
    Placed s.tasks s.up ∧ ∀ op, (s.step op).isSome = true →
      op.refuses s.tasks = false ∧ op.fallsBack s.tasks = false := by
  have hinv := reachable_inv hn h
  refine ⟨placed_of_inv hn hinv, ?_⟩
  intro op hop
  have hen : ¬ (op.cpu = some 1 ∧ s.up = false) := by
    intro hno
    simp [System.step, hno] at hop
  exact ⟨refuses_eq_false hn hinv hen, fallsBack_eq_false hn hinv hen⟩

/-- A run that starts both processors, admits a task and hands processor 0 to it. -/
theorem reachable_placed_three : ∃ s : System 3, s.Reachable ∧ s.up = true ∧
    s.tasks.current 0 = TaskId.new 2 0 ∧ Placed s.tasks s.up := by
  have hreach : System.Reachable (n := 3) _ :=
    Reach.run [.startCpu1, .admitOn 0, .switchOn 0 .yield]
      (Reach.start (s := ⟨_, false⟩) ⟨rfl, rfl⟩) (fun _ _ _ => trivial) rfl
  exact ⟨_, hreach, rfl, rfl, (reachable_placed (by decide) _ hreach).1⟩

structure Filled (t : Tasks n) (k : ℕ) : Prop where
  empty_iff : ∀ i, t.states i = .empty ↔ k < i
  epochs : ∀ i, t.epochs i = 0
  parked : t.parked = none
  idle : t.idle 0 = IDLE
  current : t.current 0 = IDLE
  queue : (t.queues 0).ready = (List.range k).map fun i => TaskId.new (i + 1) 0

theorem start_filled (t : Tasks n) (h : (new : Tasks n).start = some t) : Filled t 0 := by
  unfold start at h
  split at h
  · cases Option.some.inj h
    refine ⟨?_, fun _ => rfl, rfl, by simp [noteOccupancy], by simp [noteOccupancy],
      by simp [noteOccupancy, new]⟩
    intro i
    by_cases hi : i = 0
    · simp [noteOccupancy, hi]
    · simp [noteOccupancy, new, update_of_ne hi, Nat.pos_of_ne_zero hi]
  · contradiction

theorem Filled.freeSlot {k : ℕ} (h : Filled t k) (hk : k + 1 < n) :
    t.freeSlot = some (k + 1) := by
  refine List.find?_range_eq_some.mpr ⟨?_, List.mem_range.mpr hk, ?_⟩
  · simp [h.parked, h.empty_iff]
  intro j hj
  have : ¬ k < j := by omega
  simp [h.parked, h.empty_iff, this]

theorem Filled.admitOn_eq {k : ℕ} (h : Filled t k) (hk : k + 1 < n) :
    ∃ q, q.ready = (t.queues 0).ready ++ [t.idAt (k + 1)] ∧
      (t.admitOn 0).2 = noteOccupancy { t with
        queues := update t.queues 0 q
        states := update t.states (k + 1) .ready
        home := update t.home (k + 1) 0
        stealeable := update t.stealeable (k + 1) false } := by
  obtain ⟨q, hq⟩ := RunQueue.exists_enqueue (t.queues 0) (t.idAt (k + 1)) (by
    rw [h.queue, List.length_map, List.length_range]
    omega)
  refine ⟨q, RunQueue.enqueue_ready _ _ _ hq, ?_⟩
  simp [admitOn, nCpus, h.freeSlot hk, hq]

theorem Filled.admitted {k : ℕ} (h : Filled t k) (hk : k + 1 < n) :
    Filled (t.admitOn 0).2 (k + 1) := by
  obtain ⟨q, hready, hstep⟩ := h.admitOn_eq hk
  rw [hstep]
  refine ⟨?_, h.epochs, h.parked, h.idle, h.current, ?_⟩
  · intro i
    by_cases hi : i = k + 1
    · simp [noteOccupancy, hi]
    · simp only [noteOccupancy, update_of_ne hi, h.empty_iff]
      omega
  · simp [noteOccupancy, hready, h.queue, List.range_succ, idAt, h.epochs]

theorem exists_reachable_filled (hn : 0 < n) (k : ℕ) (hk : k < n) :
    ∃ s : System n, s.Reachable ∧ Filled s.tasks k := by
  induction k with
  | zero =>
    obtain ⟨t, ht⟩ : ∃ t, (new : Tasks n).start = some t := ⟨_, if_pos hn⟩
    exact ⟨⟨t, false⟩, Reach.start ⟨ht, rfl⟩, start_filled t ht⟩
  | succ k ih =>
    obtain ⟨s, hreach, hfilled⟩ := ih (by omega)
    refine ⟨⟨(s.tasks.admitOn 0).2, s.up⟩, ?_, hfilled.admitted hk⟩
    exact Reach.next (l := .admitOn 0) hreach trivial (by simp [System.step, Op.cpu, Op.apply])

/-- With one slot more than ids can name, the 65536th admission is queued under the
identity of the idle task that is running on processor 0. -/
theorem placed_fails_at_65537 : ∃ s : System 65537, s.Reachable ∧
    s.tasks.current 0 = s.tasks.idle 0 ∧ s.tasks.idle 0 ∈ (s.tasks.queues 0).ready ∧
    ¬ Placed s.tasks s.up := by
  obtain ⟨s, hreach, h⟩ := exists_reachable_filled (n := 65537) (by decide) 65536 (by decide)
  have hmem : s.tasks.idle 0 ∈ (s.tasks.queues 0).ready := by
    rw [h.queue, h.idle]
    exact List.mem_map.mpr ⟨65535, List.mem_range.mpr (by decide), rfl⟩
  refine ⟨s, hreach, h.current.trans h.idle.symm, hmem, ?_⟩
  intro hplaced
  rcases hplaced.idle_once 0 (.inl rfl) with ⟨-, hnot⟩ | ⟨-, hnot⟩
  · exact hnot hmem
  · exact hnot (h.idle.trans h.current.symm)

end HarborKernel.SchedulerRuns
