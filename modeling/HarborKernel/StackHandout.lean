import HarborKernel.Stealing

/-!
The stacks of tasks that exited. An exit that switches parks the id of the task; the id leaves the
cell through `collect`, or as the `release` of the next exit. A history of the run records every
exit and every id that was handed out.
-/

namespace HarborKernel.StackHandout

open Function ReadyQueue TaskTable Tasks SchedulerRuns SlotAliasing Stealing Transition

variable {n : ℕ} {t t' : Tasks n} {up : Bool}

/-- A run with the tasks that exited, what `collect` and what the exits handed out, and the number
of exits that found the cell occupied. -/
structure Ledger (n : ℕ) where
  system : System n
  exited : List TaskId
  collected : List TaskId
  released : List TaskId
  found : ℕ

namespace Ledger

def Boot (l : Ledger n) : Prop :=
  l.system.Boot ∧ l.exited = [] ∧ l.collected = [] ∧ l.released = [] ∧ l.found = 0

def record (l : Ledger n) (op : Op) (s : System n) : Ledger n :=
  match op with
  | .collect =>
    { l with system := s, collected := l.system.tasks.collect.1.toList ++ l.collected }
  | .switchOn c .exit =>
    match (l.system.tasks.switchOn c .exit).1 with
    | .stay => { l with system := s }
    | .switch from' _ release =>
      { l with
        system := s
        exited := from' :: l.exited
        released := release.toList ++ l.released
        found := if l.system.tasks.parked = none then l.found else l.found + 1 }
  | _ => { l with system := s }

def step (l : Ledger n) (op : Op) : Option (Ledger n) := (l.system.step op).map (l.record op)

abbrev Reachable (l : Ledger n) : Prop := Reach Boot step (fun _ _ => True) l

end Ledger

structure Accounted (l : Ledger n) : Prop where
  handed : l.exited.Perm (l.collected ++ l.released ++ l.system.tasks.parked.toList)
  empty : ∀ p, l.system.tasks.parked = some p → l.system.tasks.states p.index = .empty
  counted : l.system.tasks.overwrites = UInt32.ofNat l.found

/-- An operation that leaves the cell, the counter and the parked slot alone. -/
structure Apart (t t' : Tasks n) : Prop where
  parked : t'.parked = t.parked
  overwrites : t'.overwrites = t.overwrites
  empty : ∀ p, t.parked = some p → t.states p.index = .empty → t'.states p.index = .empty

theorem Apart.of_eq (hp : t'.parked = t.parked) (ho : t'.overwrites = t.overwrites)
    (hs : t'.states = t.states) : Apart t t' :=
  ⟨hp, ho, fun _ _ h => hs ▸ h⟩

theorem Apart.of_update {i : ℕ} {s : State} (hp : t'.parked = t.parked)
    (ho : t'.overwrites = t.overwrites) (hs : t'.states = update t.states i s)
    (hne : ∀ p, t.parked = some p → t.states p.index = .empty → p.index ≠ i) : Apart t t' := by
  refine ⟨hp, ho, ?_⟩
  intro p hparked hempty
  rw [hs, update_of_ne (hne p hparked hempty)]
  exact hempty

theorem apart_startCpu1 (t : Tasks n) : Apart t t.startCpu1.2 := by
  unfold startCpu1
  split
  · exact Apart.of_eq rfl rfl rfl
  split
  · exact Apart.of_eq rfl rfl rfl
  · rename_i slot hfree
    exact Apart.of_update rfl rfl rfl fun p hp _ => (freeSlot_eq_some hfree).2.2 p hp

theorem apart_admitOn (t : Tasks n) (c : ℕ) : Apart t (t.admitOn c).2 := by
  unfold admitOn
  split
  · exact Apart.of_eq rfl rfl rfl
  split
  · exact Apart.of_eq rfl rfl rfl
  rename_i slot hfree
  split
  · exact Apart.of_eq rfl rfl rfl
  · exact Apart.of_update rfl rfl rfl fun p hp _ => (freeSlot_eq_some hfree).2.2 p hp

theorem apart_setStealeable (t : Tasks n) (id : TaskId) (yes : Bool) :
    Apart t (t.setStealeable id yes).2 := by
  unfold setStealeable
  split
  · exact Apart.of_eq rfl rfl rfl
  · split <;> exact Apart.of_eq rfl rfl rfl

theorem apart_wake (t : Tasks n) (id : TaskId) : Apart t (t.wake id).2 := by
  unfold wake
  split
  · exact Apart.of_eq rfl rfl rfl
  split
  · exact Apart.of_eq rfl rfl rfl
  split
  · exact Apart.of_eq rfl rfl rfl
  rename_i hblocked
  rw [ne_eq, not_not] at hblocked
  have hne : ∀ p, t.parked = some p → t.states p.index = .empty → p.index ≠ id.index := by
    intro p _ hempty heq
    rw [heq, hblocked] at hempty
    contradiction
  split
  · exact Apart.of_update rfl rfl rfl hne
  · exact Apart.of_update rfl rfl rfl hne

variable {c : ℕ} {s : System n} {op : Op} {p id : TaskId}

theorem apart_tryStealInto (h : t.Inv up) (hc : Up up c) : Apart t (t.tryStealInto c).2 := by
  rcases tryStealInto_cases h hc with ⟨-, Q, hrun, -⟩ | ⟨_, id, _, Q, -, -, -, -, hrun, -⟩
  · rw [hrun]
    exact Apart.of_eq rfl rfl rfl
  · rw [hrun]
    exact Apart.of_eq rfl rfl rfl

structure Parks (t t' : Tasks n) (c : ℕ) : Prop where
  parked : t'.parked = some (t.current c)
  overwrites : t'.overwrites = if t.parked = none then t.overwrites else t.overwrites + 1
  empty : t'.states (t.current c).index = .empty

theorem stealFirst_fields (h : t.Inv up) (hc : Up up c) :
    (t.stealFirst c).states = t.states ∧ (t.stealFirst c).parked = t.parked ∧
      (t.stealFirst c).overwrites = t.overwrites ∧ (t.stealFirst c).current = t.current := by
  obtain ⟨Q, H, hframe⟩ := stealFirst_frame h hc
  rw [hframe]
  exact ⟨rfl, rfl, rfl, rfl⟩

theorem switchOn_cell (hn : n ≤ 65536) (h : t.Inv up) (hc : Up up c) (kind : Switch) :
    ((t.switchOn c kind).1 = .stay ∧ Apart t (t.switchOn c kind).2) ∨
    ∃ next, (t.switchOn c kind).1 =
        .switch (t.current c) next (if kind = .exit then t.parked else none) ∧
      (kind ≠ .exit → Apart t (t.switchOn c kind).2) ∧
      (kind = .exit → Parks t (t.switchOn c kind).2 c) := by
  obtain ⟨hstates, hparked, hover, hcur⟩ := stealFirst_fields h hc
  have hinv := stealFirst_inv hn h hc
  rcases switchOn_cases hn h hc kind with
    ⟨-, -, heq⟩ | ⟨-, -, q, -, heq⟩ | ⟨next, q, -, hne, hcand, heq⟩
  · left
    rw [heq]
    exact ⟨rfl, Apart.of_eq hparked hover hstates⟩
  · left
    rw [heq]
    exact ⟨rfl, Apart.of_eq hparked hover hstates⟩
  · right
    have hsit := hinv.current c hc (by simp)
    have hnext := candidate_sits hinv hc hcand (by rwa [hcur])
    have hindex : (t.current c).index ≠ next.index := by
      intro heq
      have hrun := hsit.state
      rw [hcur, heq, hnext.state] at hrun
      contradiction
    rw [heq]
    refine ⟨next, rfl, ?_, ?_⟩
    · intro hkind
      refine ⟨by simp [switched, hkind, hparked], by simp [switched, hkind, hover], ?_⟩
      intro p _ hempty
      have hrun := hsit.state
      have hready := hnext.state
      rw [hstates] at hrun hready
      rw [switched_states_of_ne, hstates]
      · exact hempty
      · intro heq
        rw [← heq, hempty] at hrun
        contradiction
      · intro heq
        rw [← heq, hempty] at hready
        contradiction
    · rintro rfl
      refine ⟨by simp [switched, hcur], ?_, ?_⟩
      · simp only [switched, hparked, hover, true_and, ne_eq, ite_not]
      · simp only [switched, retire, hcur, update_of_ne hindex, update_self]

variable {l l' : Ledger n}

theorem Accounted.apart (h : Accounted l) (hap : Apart l.system.tasks s.tasks) :
    Accounted { l with system := s } := by
  refine ⟨?_, ?_, ?_⟩
  · simp only [hap.parked]
    exact h.handed
  · intro p hp
    simp only [hap.parked] at hp
    exact hap.empty p hp (h.empty p hp)
  · simp only [hap.overwrites]
    exact h.counted

theorem Accounted.collect (h : Accounted l) (hs : s.tasks = l.system.tasks.collect.2) :
    Accounted { l with
      system := s
      collected := l.system.tasks.collect.1.toList ++ l.collected } := by
  have hnone : s.tasks.parked = none := by rw [hs]; rfl
  refine ⟨?_, ?_, ?_⟩
  · simp only [hnone, Option.toList_none, List.append_nil]
    apply h.handed.trans
    rw [List.append_assoc l.system.tasks.collect.1.toList]
    exact List.perm_append_comm
  · intro p hp
    simp only [hnone, reduceCtorEq] at hp
  · simp only [hs]
    exact h.counted

theorem Accounted.parks (h : Accounted l) (hparks : Parks l.system.tasks s.tasks c) :
    Accounted { l with
      system := s
      exited := l.system.tasks.current c :: l.exited
      released := l.system.tasks.parked.toList ++ l.released
      found := if l.system.tasks.parked = none then l.found else l.found + 1 } := by
  refine ⟨?_, ?_, ?_⟩
  · simp only [hparks.parked, Option.toList_some]
    have hparked : (l.system.tasks.current c :: l.exited).Perm
        (l.exited ++ [l.system.tasks.current c]) := (List.perm_append_singleton _ _).symm
    apply hparked.trans
    apply List.Perm.append_right
    apply h.handed.trans
    rw [List.append_assoc]
    exact List.perm_append_comm.append_left l.collected
  · intro p hp
    simp only [hparks.parked, Option.some.injEq] at hp
    subst hp
    exact hparks.empty
  · simp only [hparks.overwrites]
    split
    · exact h.counted
    · rw [h.counted, UInt32.ofNat_add]
      rfl

theorem Accounted.step (hn : n ≤ 65536) (hinv : l.system.tasks.Inv l.system.up) (h : Accounted l)
    (hs : l.step op = some l') : Accounted l' := by
  obtain ⟨s, hstep, rfl⟩ := Option.map_eq_some_iff.1 hs
  unfold System.step at hstep
  split at hstep
  · contradiction
  rename_i hen
  cases Option.some.inj hstep
  cases op with
  | startCpu1 => exact h.apart (apart_startCpu1 _)
  | admitOn c => exact h.apart (apart_admitOn _ c)
  | setStealeable id yes => exact h.apart (apart_setStealeable _ id yes)
  | wake id => exact h.apart (apart_wake _ id)
  | collect => exact h.collect rfl
  | tryStealInto c =>
    by_cases hc : c < nCpus
    · exact h.apart (apart_tryStealInto hinv (up_of_enabled rfl hen hc))
    have hnone : l.system.tasks.tryStealInto c = (false, l.system.tasks) :=
      if_pos (.inl (Nat.not_lt.mp hc))
    apply h.apart
    simp only [Op.apply, hnone]
    exact Apart.of_eq rfl rfl rfl
  | switchOn c kind =>
    by_cases hc : c < nCpus
    · rcases switchOn_cell hn hinv (up_of_enabled rfl hen hc) kind with
        ⟨hstay, hap⟩ | ⟨next, hswitch, hother, hexit⟩
      · cases kind with
        | exit =>
          simp only [Ledger.record, hstay]
          exact h.apart hap
        | yield | preempt | block => exact h.apart hap
      cases kind with
      | exit =>
        rw [if_pos rfl] at hswitch
        simp only [Ledger.record, hswitch]
        exact h.parks (hexit rfl)
      | yield | preempt | block => exact h.apart (hother (by decide))
    · have hstay : l.system.tasks.switchOn c kind = (.stay, l.system.tasks) :=
        if_pos (Nat.not_lt.mp hc)
      have hap : Apart l.system.tasks ((Op.switchOn c kind).apply l.system.tasks) := by
        simp only [Op.apply, hstay]
        exact Apart.of_eq rfl rfl rfl
      cases kind with
      | exit =>
        simp only [Ledger.record, hstay]
        exact h.apart hap
      | yield | preempt | block => exact h.apart hap

theorem Ledger.step_system (hs : l.step op = some l') : l.system.step op = some l'.system := by
  obtain ⟨s, hstep, rfl⟩ := Option.map_eq_some_iff.1 hs
  rw [hstep]
  cases op with
  | switchOn c kind =>
    cases kind with
    | exit =>
      simp only [record]
      split <;> rfl
    | yield | preempt | block => rfl
  | _ => rfl

theorem Ledger.Reachable.inv (hn : n ≤ 65536) (h : l.Reachable) :
    l.system.tasks.Inv l.system.up := by
  refine h.invariant (I := fun l => l.system.tasks.Inv l.system.up) ?_ ?_
  · intro l hboot
    exact reachable_inv hn (Reach.start hboot.1)
  · intro l op l' hinv _ hs
    exact step_inv hn hinv (step_system hs)

theorem Ledger.Reachable.accounted (hn : n ≤ 65536) (h : l.Reachable) : Accounted l := by
  refine h.invariant_of (J := fun l => l.system.tasks.Inv l.system.up)
    (fun l hl => Ledger.Reachable.inv hn hl) ?_ ?_
  · rintro l ⟨⟨hstart, -⟩, hexited, hcollected, hreleased, hfound⟩
    have hparked : l.system.tasks.parked = none ∧ l.system.tasks.overwrites = 0 := by
      unfold start at hstart
      split at hstart
      · rw [← Option.some.inj hstart]
        exact ⟨rfl, rfl⟩
      · contradiction
    refine ⟨?_, ?_, ?_⟩
    · rw [hexited, hcollected, hreleased, hparked.1]
      exact List.Perm.refl _
    · intro p hp
      rw [hparked.1] at hp
      contradiction
    · rw [hparked.2, hfound]
      rfl
  · intro l op l' hinv _ h _ hs
    exact h.step hn hinv hs

theorem parked_not_admitted (hn : n ≤ 65536) (hp : t.parked = some p)
    (h : (t.admitOn c).1 = some id) : id.index ≠ p.index := by
  unfold admitOn at h
  split at h
  · contradiction
  split at h
  · contradiction
  rename_i slot hfree
  obtain ⟨hlt, -, hne⟩ := freeSlot_eq_some hfree
  split at h
  · contradiction
  cases Option.some.inj h
  rw [idAt_index hn t hlt]
  exact (hne p hp).symm

theorem parked_not_started (hn : n ≤ 65536) (hinv : t.Inv up) (hp : t.parked = some p)
    (hempty : t.states p.index = .empty) (h : t.startCpu1.1 = some id) : id.index ≠ p.index := by
  unfold startCpu1 at h
  split at h
  · rename_i hidle
    cases Option.some.inj h
    obtain ⟨s, hs, hsit⟩ := hinv.idle_sits (c := 1) (.inr ⟨rfl, hinv.cpu1.2 hidle⟩)
    intro heq
    rw [← heq, hsit.state] at hempty
    rcases hs with rfl | rfl <;> contradiction
  split at h
  · contradiction
  rename_i slot hfree
  obtain ⟨hlt, -, hne⟩ := freeSlot_eq_some hfree
  cases Option.some.inj h
  rw [idAt_index hn t hlt]
  exact (hne p hp).symm

/-- In every run the stack of every task that exited is handed out once or still parked, the
parked slot is not given away, and the counter says how often the cell was occupied. -/
theorem stacks_handed_out_once (hn : n ≤ 65536) (l : Ledger n) (h : l.Reachable) :
    l.exited.Perm (l.collected ++ l.released ++ l.system.tasks.parked.toList) ∧
    (∀ p, l.system.tasks.parked = some p →
      (∀ c id, (l.system.tasks.admitOn c).1 = some id → id.index ≠ p.index) ∧
      ∀ id, l.system.tasks.startCpu1.1 = some id → id.index ≠ p.index) ∧
    (l.found < 2 ^ 32 → l.system.tasks.overwrites.toNat = l.found) := by
  have hinv := Ledger.Reachable.inv hn h
  have haccounted := Ledger.Reachable.accounted hn h
  refine ⟨haccounted.handed, ?_, ?_⟩
  · intro p hp
    refine ⟨fun c id hid => parked_not_admitted hn hp hid, ?_⟩
    intro id hid
    exact parked_not_started hn hinv hp (haccounted.empty p hp) hid
  · intro hfound
    rw [haccounted.counted, UInt32.toNat_ofNat', Nat.mod_eq_of_lt hfound]

/-- Two tasks exit one after the other, and only the second stack is still parked. -/
theorem stacks_handed_out_once_two : ∃ l : Ledger 4, l.Reachable ∧
    l.exited = [TaskId.new 2 0, TaskId.new 1 0] ∧ l.released = [TaskId.new 1 0] ∧
    l.system.tasks.parked = some (TaskId.new 2 0) ∧ l.system.tasks.overwrites.toNat = l.found ∧
    l.exited.Perm (l.collected ++ l.released ++ l.system.tasks.parked.toList) := by
  have hreach : Ledger.Reachable (n := 4) _ :=
    Reach.run [.admitOn 0, .admitOn 0, .switchOn 0 .yield, .switchOn 0 .exit, .switchOn 0 .exit]
      (Reach.start (s := ⟨⟨_, false⟩, [], [], [], 0⟩) ⟨⟨rfl, rfl⟩, rfl, rfl, rfl, rfl⟩)
      (fun _ _ _ => trivial) rfl
  obtain ⟨hhanded, -, hcounted⟩ := stacks_handed_out_once (by decide) _ hreach
  exact ⟨_, hreach, rfl, rfl, rfl, hcounted (by decide +kernel), hhanded⟩

/-- Every run has a ledger. -/
theorem exists_ledger (h : s.Reachable) : ∃ l : Ledger n, l.Reachable ∧ l.system = s := by
  refine h.invariant (I := fun s => ∃ l : Ledger n, l.Reachable ∧ l.system = s) ?_ ?_
  · intro s hboot
    exact ⟨⟨s, [], [], [], 0⟩, Reach.start ⟨hboot, rfl, rfl, rfl, rfl⟩, rfl⟩
  rintro s op s' ⟨l, hreach, rfl⟩ - hs
  have hstep : l.step op = some (l.record op s') := by rw [Ledger.step, hs, Option.map_some]
  refine ⟨l.record op s', Reach.next hreach trivial hstep, ?_⟩
  exact (Option.some.inj ((Ledger.step_system hstep).symm.trans hs))

/-- With 65538 slots the slot of a parked stack is given to the next task. -/
theorem parked_slot_given_away : ∃ (l : Ledger 65538) (p id : TaskId), l.Reachable ∧
    l.system.tasks.parked = some p ∧ (l.system.tasks.admitOn 0).1 = some id ∧
    id.index = p.index := by
  obtain ⟨s, hreach, -, -, hparked, hadmit, -⟩ := exists_reachable_reused
  have hexit : System.Reachable (⟨(s.tasks.switchOn 0 .exit).2, s.up⟩ : System 65538) :=
    Reach.next (l := .switchOn 0 .exit) hreach trivial (by simp [System.step, Op.cpu, Op.apply])
  obtain ⟨l, hl, hsystem⟩ := exists_ledger hexit
  refine ⟨l, TaskId.new 1 0, TaskId.new 1 0, hl, ?_, ?_, rfl⟩
  · rw [hsystem]
    exact hparked
  · rw [hsystem]
    exact hadmit

end HarborKernel.StackHandout
