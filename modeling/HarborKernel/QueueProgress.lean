import HarborKernel.Stealing
import Mathlib.Data.List.Basic

/-!
How long a ready task waits. Its place in the queue of its processor goes down by one with every
switch there, and arrivals go behind it. A steal by the other processor puts the entries before
the stolen one behind the entries after it, so a task may be overtaken by what stands behind
the stolen entry, again and again.
-/

namespace HarborKernel.QueueProgress

open Function ReadyQueue TaskTable Tasks SchedulerRuns Stealing Transition

variable {n : ℕ} {t : Tasks n} {up : Bool} {a : TaskId} {c d : ℕ}

def stolen (t : Tasks n) : Op → Option TaskId
  | .tryStealInto d => if d < nCpus then t.stealTarget d else none
  | .switchOn d _ => if d < nCpus ∧ t.current d = t.idle d then t.stealTarget d else none
  | _ => none

def switches (t : Tasks n) (c : ℕ) : Op → Bool
  | .switchOn d kind => d = c && (t.switchOn d kind).1 ≠ .stay
  | _ => false

/-- A steal from the queue of `c` that puts the task behind entries it stood before. -/
def Overtaken (t : Tasks n) (c : ℕ) (a : TaskId) (op : Op) : Prop :=
  ∃ id before after, stolen t op = some id ∧ (t.queues c).ready = before ++ id :: after ∧
    a ∈ before ∧ after ≠ []

/-- A run with the number of switches on `c` since its start, and whether the task has been
current on `c`. -/
structure Watch (n : ℕ) where
  system : System n
  switched : ℕ
  served : Bool

namespace Watch

/-- Any state of a run in which both processors are up and the task is ready on `c`. -/
def Start (c : ℕ) (a : TaskId) (w : Watch n) : Prop :=
  w.system.Reachable ∧ w.system.up = true ∧ a ∈ (w.system.tasks.queues c).ready ∧
    w.switched = 0 ∧ w.served = false

def step (c : ℕ) (a : TaskId) (w : Watch n) (op : Op) : Option (Watch n) :=
  (w.system.step op).map fun s => ⟨s, if switches w.system.tasks c op then w.switched + 1
    else w.switched, w.served || s.tasks.current c = a⟩

def NotStolen (a : TaskId) (w : Watch n) (op : Op) : Prop :=
  w.served = false → stolen w.system.tasks op ≠ some a

instance (w : Watch n) (op : Op) : Decidable (NotStolen a w op) := by
  unfold NotStolen
  infer_instance

end Watch

structure Closer (t t' : Tasks n) (c : ℕ) (a : TaskId) (moves : Bool) : Prop where
  mem : a ∈ (t'.queues c).ready
  place : (t'.queues c).ready.idxOf a + (if moves then 1 else 0) ≤ (t.queues c).ready.idxOf a

variable {t' : Tasks n} {kind : Switch} {op : Op} {w : Watch n}

theorem Closer.of_eq (ha : a ∈ (t.queues c).ready) (h : (t'.queues c).ready = (t.queues c).ready) :
    Closer t t' c a false := by
  refine ⟨h ▸ ha, ?_⟩
  rw [h]
  exact le_refl _

theorem Closer.of_append (ha : a ∈ (t.queues c).ready) {late : List TaskId}
    (h : (t'.queues c).ready = (t.queues c).ready ++ late) : Closer t t' c a false := by
  refine ⟨h ▸ List.mem_append_left late ha, ?_⟩
  rw [h, List.idxOf_append_of_mem ha]
  exact le_refl _

theorem place_rotated {before after : List TaskId} {id : TaskId}
    (ha : a ∈ before ++ id :: after) (hid : id ≠ a) (hlate : a ∈ before → after = []) :
    a ∈ after ++ before ∧
      (after ++ before).idxOf a ≤ (before ++ id :: after).idxOf a := by
  by_cases hbefore : a ∈ before
  · rw [hlate hbefore, List.nil_append, List.idxOf_append_of_mem hbefore]
    exact ⟨hbefore, le_refl _⟩
  have hafter : a ∈ after := by
    rcases List.mem_append.1 ha with h | h
    · exact absurd h hbefore
    · exact (List.mem_cons.1 h).resolve_left hid.symm
  refine ⟨List.mem_append_left before hafter, ?_⟩
  rw [List.idxOf_append_of_mem hafter, List.idxOf_append_of_notMem hbefore,
    List.idxOf_cons_ne _ hid]
  omega

theorem closer_tryStealInto (h : t.Inv up) (hd : Up up d) (hc : c < nCpus)
    (ha : a ∈ (t.queues c).ready) (hnot : t.stealTarget d ≠ some a)
    (hlate : ∀ id before after, t.stealTarget d = some id →
      (t.queues c).ready = before ++ id :: after → a ∈ before → after = []) :
    Closer t (t.tryStealInto d).2 c a false := by
  rcases tryStealInto_cases h hd with
    ⟨-, Q, hrun, hQ⟩ | ⟨before, id, after, Q, htarget, -, hthief, hsplit, hrun, hQd, -, -⟩
  · rw [hrun]
    exact Closer.of_eq ha (hQ c)
  have hpeer : 1 - d = c := by
    have hne : d ≠ c := by
      rintro rfl
      rw [hthief] at ha
      exact List.not_mem_nil ha
    have hdlt := hd.lt
    unfold nCpus at hdlt hc
    omega
  rw [hpeer] at hsplit hQd
  rw [hsplit] at ha
  have hid : id ≠ a := fun heq => hnot (heq ▸ htarget)
  obtain ⟨hmem, hplace⟩ := place_rotated ha hid (hlate id before after htarget hsplit)
  rw [hrun]
  refine ⟨hQd ▸ hmem, ?_⟩
  change (Q c).ready.idxOf a + 0 ≤ _
  rw [hsplit, hQd]
  exact hplace

theorem closer_stealFirst (h : t.Inv up) (hd : Up up d) (hc : c < nCpus)
    (ha : a ∈ (t.queues c).ready) (hnot : stolen t (.switchOn d kind) ≠ some a)
    (hover : ¬ Overtaken t c a (.switchOn d kind)) : Closer t (t.stealFirst d) c a false := by
  unfold stealFirst
  split
  · rename_i hidle
    have hstolen : stolen t (.switchOn d kind) = t.stealTarget d := if_pos ⟨hd.lt, hidle.1⟩
    rw [hstolen] at hnot
    apply closer_tryStealInto h hd hc ha hnot
    intro id before after htarget hsplit hbefore
    by_contra hafter
    exact hover ⟨id, before, after, hstolen.trans htarget, hsplit, hbefore, hafter⟩
  · exact Closer.of_eq ha rfl

theorem closer_other (hn : n ≤ 65536) (h : t.Inv up) (hd : Up up d) (hc : c < nCpus) (hdc : c ≠ d)
    (ha : a ∈ (t.queues c).ready) (hnot : stolen t (.switchOn d kind) ≠ some a)
    (hover : ¬ Overtaken t c a (.switchOn d kind)) : Closer t (t.switchOn d kind).2 c a false := by
  have hfirst := closer_stealFirst h hd hc ha hnot hover
  have hqueue : (t.switchOn d kind).2.queues c = (t.stealFirst d).queues c := by
    rcases switchOn_cases hn h hd kind with
      ⟨-, -, heq⟩ | ⟨-, -, q, -, heq⟩ | ⟨next, q, -, -, -, heq⟩
    · rw [heq]
    · rw [heq]
      exact update_of_ne hdc ..
    · rw [heq]
      exact update_of_ne hdc ..
  refine ⟨hqueue ▸ hfirst.mem, ?_⟩
  rw [hqueue]
  exact hfirst.place

theorem closer_own (hn : n ≤ 65536) (h : t.Inv up) (hc : Up up c) (ha : a ∈ (t.queues c).ready)
    (kind : Switch) : (t.switchOn c kind).2.current c = a ∨
      Closer t (t.switchOn c kind).2 c a (switches t c (.switchOn c kind)) := by
  have hfirst : t.stealFirst c = t := by
    unfold stealFirst
    rw [if_neg]
    rintro ⟨-, hempty⟩
    rw [(RunQueue.isEmpty_iff _).1 hempty] at ha
    exact List.not_mem_nil ha
  have hcases := switchOn_cases hn h hc kind
  rw [hfirst] at hcases
  rcases hcases with ⟨-, -, heq⟩ | ⟨-, hnil, -⟩ | ⟨next, q, -, -, hcand, heq⟩
  · right
    have hstay : switches t c (.switchOn c kind) = false := by simp [switches, heq]
    rw [hstay, heq]
    exact Closer.of_eq ha rfl
  · rw [hnil] at ha
    exact absurd ha List.not_mem_nil
  · have hmoves : switches t c (.switchOn c kind) = true := by simp [switches, heq]
    rw [hmoves, heq]
    obtain ⟨first, rest, hready⟩ := List.exists_cons_of_ne_nil (List.ne_nil_of_mem ha)
    rw [candidates, hready, List.cons_append] at hcand
    obtain ⟨rfl, hrest⟩ := List.cons.inj hcand
    have hqueue : ((t.switched c kind first q).queues c).ready = q.ready := by simp [switched]
    by_cases hfound : first = a
    · left
      simp [switched, hfound]
    · right
      rw [hready] at ha
      have hmem : a ∈ rest := (List.mem_cons.1 ha).resolve_left (Ne.symm hfound)
      constructor
      · rw [hqueue, ← hrest]
        exact List.mem_append_left _ hmem
      · rw [hqueue, ← hrest, hready, List.idxOf_append_of_mem hmem, List.idxOf_cons_ne _ hfound]
        exact le_refl _

/-- One step of the system brings the task closer to its turn, unless a steal overtakes it. -/
theorem closer_step (hn : n ≤ 65536) {s s' : System n} (h : s.tasks.Inv s.up)
    (hs : s.step op = some s') (hc : Up s.up c) (ha : a ∈ (s.tasks.queues c).ready)
    (hnot : stolen s.tasks op ≠ some a) (hover : ¬ Overtaken s.tasks c a op) :
    s'.tasks.current c = a ∨ Closer s.tasks s'.tasks c a (switches s.tasks c op) := by
  unfold System.step at hs
  split at hs
  · contradiction
  rename_i hen
  cases Option.some.inj hs
  cases op with
  | startCpu1 =>
    right
    apply Closer.of_eq ha
    simp only [Op.apply, startCpu1]
    split
    · rfl
    · split <;> rfl
  | setStealeable id yes =>
    right
    apply Closer.of_eq ha
    simp only [Op.apply, setStealeable]
    split
    · rfl
    · split <;> rfl
  | collect => exact .inr (Closer.of_eq ha rfl)
  | admitOn d =>
    right
    by_cases hd : d < nCpus
    · rcases admitOn_cases h (up_of_enabled rfl hen hd) with ⟨-, heq⟩ | ⟨slot, q, -, hq, heq⟩
      · exact Closer.of_eq ha (by simp only [Op.apply, heq])
      by_cases hdc : c = d
      · subst hdc
        apply Closer.of_append ha
        simpa [Op.apply, heq, noteOccupancy] using RunQueue.enqueue_ready _ _ _ hq
      · apply Closer.of_eq ha
        simp [Op.apply, heq, noteOccupancy, update_of_ne hdc]
    · exact Closer.of_eq ha (by simp [Op.apply, admitOn, Nat.not_lt.mp hd])
  | wake id =>
    right
    rcases wake_cases h id with ⟨-, heq⟩ | ⟨q, -, hq, heq⟩
    · exact Closer.of_eq ha (by simp only [Op.apply, heq])
    by_cases hdc : c = s.tasks.home id.index
    · subst hdc
      apply Closer.of_append ha
      simpa [Op.apply, heq] using RunQueue.enqueue_ready _ _ _ hq
    · apply Closer.of_eq ha
      simp [Op.apply, heq, update_of_ne hdc]
  | tryStealInto d =>
    right
    by_cases hd : d < nCpus
    · have hstolen : stolen s.tasks (.tryStealInto d) = s.tasks.stealTarget d := if_pos hd
      rw [hstolen] at hnot
      apply closer_tryStealInto h (up_of_enabled rfl hen hd) hc.lt ha hnot
      intro id before after htarget hsplit hbefore
      by_contra hafter
      exact hover ⟨id, before, after, hstolen.trans htarget, hsplit, hbefore, hafter⟩
    · exact Closer.of_eq ha (by simp [Op.apply, tryStealInto, Nat.not_lt.mp hd])
  | switchOn d kind =>
    by_cases hd : d < nCpus
    · by_cases hdc : c = d
      · subst hdc
        exact closer_own hn h hc ha kind
      right
      have hmoves : switches s.tasks c (.switchOn d kind) = false := by
        simp [switches, Ne.symm hdc]
      rw [hmoves]
      exact closer_other hn h (up_of_enabled rfl hen hd) hc.lt hdc ha hnot hover
    right
    have hstay : s.tasks.switchOn d kind = (.stay, s.tasks) := if_pos (Nat.not_lt.mp hd)
    have hmoves : switches s.tasks c (.switchOn d kind) = false := by
      simp [switches, hstay]
    rw [hmoves]
    exact Closer.of_eq ha (by simp only [Op.apply, hstay])

structure Waiting (c : ℕ) (a : TaskId) (w : Watch n) : Prop where
  inv : w.system.tasks.Inv w.system.up
  up : w.system.up = true
  turn : w.served = true ∨ (a ∈ (w.system.tasks.queues c).ready ∧
    (w.system.tasks.queues c).ready.idxOf a + w.switched < n)

theorem Waiting.start (hn : n ≤ 65536) (hc : c < nCpus) (h : Watch.Start c a w) :
    Waiting c a w := by
  obtain ⟨hreach, hup, ha, hzero, -⟩ := h
  have hinv := reachable_inv hn hreach
  refine ⟨hinv, hup, .inr ⟨ha, ?_⟩⟩
  have hsit := hinv.current c (up_of_lt hup hc) (by simp)
  have hlen := hinv.length_lt hsit.lt (by rw [hsit.state]; decide) hc
  have hplace := List.idxOf_lt_length_of_mem ha
  omega

theorem Waiting.step (hn : n ≤ 65536) (hc : c < nCpus) {w' : Watch n} (h : Waiting c a w)
    (hnot : Watch.NotStolen a w op) (hover : w.served = false → ¬ Overtaken w.system.tasks c a op)
    (hs : w.step c a op = some w') : Waiting c a w' := by
  obtain ⟨s', hstep, rfl⟩ := Option.map_eq_some_iff.1 hs
  have hup : s'.up = true := by
    unfold System.step at hstep
    split at hstep
    · contradiction
    cases Option.some.inj hstep
    have hold := h.up
    cases op <;> simp [hold]
  refine ⟨step_inv hn h.inv hstep, hup, ?_⟩
  by_cases hserved : w.served = true
  · left
    simp [hserved]
  rw [Bool.not_eq_true] at hserved
  obtain ⟨ha, hplace⟩ := h.turn.resolve_left (by simp [hserved])
  rcases closer_step hn h.inv hstep (up_of_lt h.up hc) ha (hnot hserved) (hover hserved) with
    hnow | hcloser
  · left
    simp [hnow]
  right
  refine ⟨hcloser.mem, ?_⟩
  have hnext := hcloser.place
  simp only
  split at hnext
  · rename_i hmoves
    rw [if_pos hmoves]
    omega
  rename_i hmoves
  rw [if_neg hmoves]
  omega

/-- A ready task that is neither stolen nor overtaken by a steal has its turn within as many
switches of its processor as there are slots. -/
theorem ready_task_served (hn : n ≤ 65536) (hc : c < nCpus) (a : TaskId) (w : Watch n)
    (h : Reach (Watch.Start c a) (Watch.step c a) (fun w op => Watch.NotStolen a w op ∧
      (w.served = false → ¬ Overtaken w.system.tasks c a op)) w) (hlong : n ≤ w.switched) :
    w.served = true := by
  have hwait : Waiting c a w := by
    refine h.invariant (I := Waiting c a) (fun w hw => Waiting.start hn hc hw) ?_
    intro w op w' hw hok hs
    exact hw.step hn hc hok.1 hok.2 hs
  rcases hwait.turn with hserved | ⟨-, hplace⟩
  · exact hserved
  · omega

/-- Three slots, one task that waits for the idle task, and three switches. -/
theorem ready_task_served_three : ∃ w : Watch 3, 3 ≤ w.switched ∧ w.served = true := by
  have hboot : System.Reachable (n := 3) _ :=
    Reach.run [.startCpu1, .admitOn 0] (Reach.start (s := ⟨_, false⟩) ⟨rfl, rfl⟩)
      (fun _ _ _ => trivial) rfl
  have hstart : Reach (Watch.Start 0 (TaskId.new 2 0)) (Watch.step 0 (TaskId.new 2 0))
      (fun w op => Watch.NotStolen (TaskId.new 2 0) w op ∧
        (w.served = false → ¬ Overtaken w.system.tasks 0 (TaskId.new 2 0) op))
      (⟨_, 0, false⟩ : Watch 3) :=
    Reach.start ⟨hboot, rfl, by decide +kernel, rfl, rfl⟩
  have hfirst := Reach.next (l := .switchOn 0 .yield) hstart
    ⟨fun _ => by decide +kernel, fun _ ⟨_, _, _, hstolen, _⟩ => nomatch hstolen.symm.trans rfl⟩ rfl
  have hsecond := Reach.next (l := .switchOn 0 .yield) hfirst
    ⟨fun h => absurd h (by decide +kernel), fun h => absurd h (by decide +kernel)⟩ rfl
  have hthird := Reach.next (l := .switchOn 0 .yield) hsecond
    ⟨fun h => absurd h (by decide +kernel), fun h => absurd h (by decide +kernel)⟩ rfl
  exact ⟨_, by decide +kernel,
    ready_task_served (by decide) (by decide) _ _ hthird (by decide +kernel)⟩

def crowded : List Op :=
  [.startCpu1, .admitOn 0, .admitOn 0, .switchOn 0 .yield, .admitOn 0]

def overtake (epoch : UInt16) (blocked : ℕ) (kind : Switch) : List Op :=
  [.admitOn 0, .setStealeable (TaskId.new 5 epoch) true, .wake (TaskId.new blocked 0),
    .switchOn 1 .yield, .switchOn 0 kind, .switchOn 1 .exit, .collect]

def overtaking : List Op :=
  [.switchOn 0 .block, .switchOn 0 .block] ++ overtake 0 2 .yield ++ overtake 1 3 .block ++
    overtake 2 2 .block ++ overtake 3 3 .block

def Starves (s : System 6) : Prop :=
  s.up = true ∧ TaskId.new 4 0 ∈ (s.tasks.queues 0).ready ∧
    ((Transition.run (fun w op => if Watch.NotStolen (TaskId.new 4 0) w op then
        Watch.step 0 (TaskId.new 4 0) w op else none) (⟨s, 0, false⟩ : Watch 6)
      overtaking).any fun w => decide (6 ≤ w.switched ∧ w.served = false)) = true

instance (s : System 6) : Decidable (Starves s) := by
  unfold Starves
  infer_instance

/-- With six slots a task that is never stolen waits for more than six switches. -/
theorem ready_task_starved : ∃ w : Watch 6,
    Reach (Watch.Start 0 (TaskId.new 4 0)) (Watch.step 0 (TaskId.new 4 0))
      (Watch.NotStolen (TaskId.new 4 0)) w ∧ 6 ≤ w.switched ∧ w.served = false := by
  have hboot : System.Reachable (n := 6) _ := Reach.start (s := ⟨_, false⟩) ⟨rfl, rfl⟩
  obtain ⟨s, hreach, hup, ha, hrest⟩ := Reach.exists_run (P := Starves) crowded hboot
    (by decide +kernel)
  have hstart : Reach (Watch.Start 0 (TaskId.new 4 0)) (Watch.step 0 (TaskId.new 4 0))
      (Watch.NotStolen (TaskId.new 4 0)) (⟨s, 0, false⟩ : Watch 6) :=
    Reach.start ⟨hreach, hup, ha, rfl, rfl⟩
  exact Reach.exists_run (P := fun w => 6 ≤ w.switched ∧ w.served = false) _ hstart hrest

end HarborKernel.QueueProgress
