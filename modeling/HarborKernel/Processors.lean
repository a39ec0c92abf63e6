import HarborKernel.TaskSwitch
import HarborKernel.Transition

/-!
Two processors taking turns on the task table (`sched/mod.rs`).
`switch_with` is not one step: the table decides under the scheduler lock, the
exit path then works without it, a second section fetches the contexts, and only
`context_switch` leaves the old stack. Every step below is one such section.
Stacks are named by the order of their allocation. `onCpu` is the tenancy whose
registers a processor holds and `ended` counts the tenancies of a slot that are
over; neither is stored by the kernel.
-/

namespace HarborKernel.Processors

open Function ReadyQueue TaskTable Tasks Transition

def maxTasks : ℕ := 57

structure Leaving where
  from' : TaskId
  to' : TaskId
  release : Option TaskId
  exits : Bool
  own : Option ℕ

inductive Phase
  | run
  | tail (l : Leaving)
  | context (l : Leaving)
  | collecting
  | freeing (stack : ℕ)

structure Machine where
  tasks : Tasks maxTasks
  online : Bool
  stack : ℕ → Option ℕ
  phase : ℕ → Phase
  nextStack : ℕ
  onCpu : ℕ → Option (ℕ × ℕ)
  ended : ℕ → ℕ

inductive Act
  | startCpu1
  | spawn (cpu : ℕ)
  | setStealeable (id : TaskId) (yes : Bool)
  | wake (id : TaskId)
  | switch (kind : Switch)

inductive Label
  | act (c : ℕ) (a : Act)
  | exec (c : ℕ)

namespace Machine

def boot : Machine where
  tasks := ((new : Tasks maxTasks).start).getD new
  online := false
  stack := fun _ => none
  phase := fun _ => .run
  nextStack := 0
  onCpu := update (fun _ => none) 0 (some (0, 0))
  ended := fun _ => 0

def tenancy (m : Machine) (id : TaskId) : ℕ × ℕ := (id.index, m.ended id.index)

def startCpu1 (m : Machine) : Option TaskId × Machine :=
  (m.tasks.startCpu1.1, { m with
    tasks := m.tasks.startCpu1.2
    online := m.online || m.tasks.startCpu1.1.isSome
    onCpu := if m.online then m.onCpu
      else update m.onCpu 1 (m.tasks.startCpu1.1.map m.tenancy) })

/-- The scheduler section of `spawn_on_inner`. Without a slot the new stack is
released again; it was never attached to a task. -/
def spawnOn (m : Machine) (cpu : ℕ) : Option TaskId × Machine :=
  if nCpus ≤ cpu ∨ (cpu = 1 ∧ m.online = false) then (none, m)
  else
    match m.tasks.admitOn cpu with
    | (none, t) => (none, { m with tasks := t })
    | (some id, t) => (some id, { m with
        tasks := t
        stack := update m.stack id.index (some m.nextStack)
        nextStack := m.nextStack + 1 })

def wakeTask (m : Machine) (id : TaskId) : Bool × Machine :=
  ((m.tasks.wake id).1, { m with tasks := (m.tasks.wake id).2 })

def switchWith (m : Machine) (c : ℕ) (kind : Switch) : Machine :=
  match m.tasks.switchOn c kind with
  | (.stay, t) => { m with tasks := t }
  | (.switch from' to' release, t) => { m with
      tasks := t
      phase := update m.phase c (.tail ⟨from', to', release, kind = .exit,
        if kind = .exit then m.stack from'.index else none⟩)
      ended := if kind = .exit then
          update m.ended from'.index (m.ended from'.index + 1)
        else m.ended }

def second (m : Machine) (c : ℕ) (l : Leaving) : Machine :=
  { m with
    stack := match l.release with
      | some p => update m.stack p.index none
      | none => m.stack
    phase := update m.phase c (.context l) }

def contextSwitch (m : Machine) (c : ℕ) (l : Leaving) : Machine :=
  { m with
    onCpu := update m.onCpu c (some (m.tenancy l.to'))
    phase := update m.phase c .collecting }

def collectExited (m : Machine) (c : ℕ) : Machine :=
  match m.tasks.collect with
  | (none, t) => { m with tasks := t, phase := update m.phase c .run }
  | (some id, t) => { m with
      tasks := t
      stack := update m.stack id.index none
      phase := update m.phase c (match m.stack id.index with
        | some st => .freeing st
        | none => .run) }

def act (m : Machine) (c : ℕ) : Act → Machine
  | .startCpu1 => m.startCpu1.2
  | .spawn cpu => (m.spawnOn cpu).2
  | .setStealeable id yes => { m with tasks := (m.tasks.setStealeable id yes).2 }
  | .wake id => (m.wakeTask id).2
  | .switch kind => m.switchWith c kind

def mayAct (m : Machine) (c : ℕ) (a : Act) : Bool :=
  match m.phase c, a with
  | .run, _ => true
  | .tail l, .wake _ => l.exits
  | _, _ => false

def step (m : Machine) : Label → Option Machine
  | .act c a => if Up m.online c ∧ m.mayAct c a = true then some (m.act c a) else none
  | .exec c =>
    if Up m.online c then
      match m.phase c with
      | .run => none
      | .tail l => some (m.second c l)
      | .context l => some (m.contextSwitch c l)
      | .collecting => some (m.collectExited c)
      | .freeing _ => some { m with phase := update m.phase c .run }
    else none

def Boot (m : Machine) : Prop := m = boot

variable {m m' : Machine} {kind : Switch}

variable {l : Label} {c d : ℕ} {a : Act}

/-- Every step of a processor, with the phase it starts from. -/
theorem step_cases (h : m.step l = some m') :
    (∃ c a, l = .act c a ∧ Up m.online c ∧ m.mayAct c a = true ∧ m' = m.act c a) ∨
    (∃ c v, l = .exec c ∧ Up m.online c ∧ m.phase c = .tail v ∧ m' = m.second c v) ∨
    (∃ c v, l = .exec c ∧ Up m.online c ∧ m.phase c = .context v ∧ m' = m.contextSwitch c v) ∨
    (∃ c, l = .exec c ∧ Up m.online c ∧ m.phase c = .collecting ∧ m' = m.collectExited c) ∨
    ∃ c st, l = .exec c ∧ Up m.online c ∧ m.phase c = .freeing st ∧
      m' = { m with phase := update m.phase c .run } := by
  cases l with
  | act c a =>
    simp only [step] at h
    split at h
    · rename_i hen
      exact .inl ⟨c, a, rfl, hen.1, hen.2, (Option.some.inj h).symm⟩
    · contradiction
  | exec c =>
    simp only [step] at h
    split at h
    · rename_i hup
      right
      cases hp : m.phase c with
      | run =>
        rw [hp] at h
        contradiction
      | tail v =>
        rw [hp] at h
        exact .inl ⟨c, v, rfl, hup, hp, (Option.some.inj h).symm⟩
      | context v =>
        rw [hp] at h
        exact .inr (.inl ⟨c, v, rfl, hup, hp, (Option.some.inj h).symm⟩)
      | collecting =>
        rw [hp] at h
        exact .inr (.inr (.inl ⟨c, rfl, hup, hp, (Option.some.inj h).symm⟩))
      | freeing st =>
        rw [hp] at h
        exact .inr (.inr (.inr ⟨c, st, rfl, hup, hp, (Option.some.inj h).symm⟩))
    · contradiction

theorem phase_of_mayAct_switch (h : m.mayAct c (.switch kind) = true) : m.phase c = .run := by
  cases hp : m.phase c <;> simp [mayAct, hp] at h ⊢

structure Inv (m : Machine) : Prop where
  tasks : m.tasks.Inv m.online
  moving : ∀ c v, m.phase c = .tail v ∨ m.phase c = .context v → m.tasks.current c = v.to'
  offline : ∀ c, ¬ Up m.online c → m.phase c = .run

theorem maxTasks_le : maxTasks ≤ 65536 := by decide

theorem spawnOn_up {cpu : ℕ} (h : ¬ (nCpus ≤ cpu ∨ (cpu = 1 ∧ m.online = false))) :
    Up m.online cpu := by
  have hlt : cpu < 2 := Nat.not_le.mp fun hle => h (.inl hle)
  by_cases h1 : cpu = 1
  · refine .inr ⟨h1, ?_⟩
    by_contra hoff
    exact h (.inr ⟨h1, by simpa using hoff⟩)
  · exact .inl (by omega)

/-- A spawn either changes nothing or admits a task with a fresh stack. -/
theorem spawnOn_cases (h : m.tasks.Inv m.online) (cpu : ℕ) :
    m.spawnOn cpu = (none, m) ∨
    ∃ slot q, Up m.online cpu ∧ m.tasks.freeSlot = some slot ∧
      (m.tasks.queues cpu).enqueue (m.tasks.idAt slot) = some q ∧
      m.spawnOn cpu = (some (m.tasks.idAt slot), { m with
        tasks := noteOccupancy { m.tasks with
          queues := update m.tasks.queues cpu q
          states := update m.tasks.states slot .ready
          home := update m.tasks.home slot cpu
          stealeable := update m.tasks.stealeable slot false }
        stack := update m.stack slot (some m.nextStack)
        nextStack := m.nextStack + 1 }) := by
  by_cases hcpu : nCpus ≤ cpu ∨ (cpu = 1 ∧ m.online = false)
  · exact .inl (by simp only [spawnOn, if_pos hcpu])
  have hup := spawnOn_up hcpu
  rcases admitOn_cases h hup with ⟨-, heq⟩ | ⟨slot, q, hfree, hq, heq⟩
  · left
    simp only [spawnOn, if_neg hcpu, heq]
  right
  refine ⟨slot, q, hup, hfree, hq, ?_⟩
  have hidx := idAt_index maxTasks_le m.tasks (freeSlot_eq_some hfree).1
  simp only [spawnOn, if_neg hcpu, heq, hidx]

/-- The first section of a switch either stays, perhaps after stealing, or leaves
for the first candidate. -/
theorem switchWith_cases (h : m.tasks.Inv m.online) (hc : Up m.online c) (kind : Switch) :
    (∃ Q, m.switchWith c kind = { m with
      tasks := { m.tasks.stealFirst c with queues := Q } }) ∨
    ∃ next q, (kind = .yield ∨ m.tasks.current c ≠ m.tasks.idle c) ∧
      next ≠ m.tasks.current c ∧
      (m.tasks.stealFirst c).candidates c kind = next :: q.ready ∧
      m.switchWith c kind = { m with
        tasks := (m.tasks.stealFirst c).switched c kind next q
        phase := update m.phase c (.tail ⟨m.tasks.current c, next,
          if kind = .exit then m.tasks.parked else none, kind = .exit,
          if kind = .exit then m.stack (m.tasks.current c).index else none⟩)
        ended := if kind = .exit then
            update m.ended (m.tasks.current c).index
              (m.ended (m.tasks.current c).index + 1)
          else m.ended } := by
  rcases switchOn_cases maxTasks_le h hc kind with
    ⟨-, -, heq⟩ | ⟨-, -, q, -, heq⟩ | ⟨next, q, hkind, hne, hcand, heq⟩
  · exact .inl ⟨(m.tasks.stealFirst c).queues, by simp only [switchWith, heq]⟩
  · exact .inl ⟨_, by simp only [switchWith, heq]; rfl⟩
  · exact .inr ⟨next, q, hkind, hne, hcand, by simp only [switchWith, heq]⟩

theorem switchWith_tasks (m : Machine) (c : ℕ) (kind : Switch) :
    (m.switchWith c kind).tasks = (m.tasks.switchOn c kind).2 ∧
    (m.switchWith c kind).online = m.online := by
  unfold switchWith
  split
  · rename_i heq
    simp [heq]
  · rename_i heq
    simp [heq]

section

variable (h : m.tasks.Inv m.online)
include h

theorem spawnOn_inv (cpu : ℕ) :
    (m.spawnOn cpu).2.tasks.Inv (m.spawnOn cpu).2.online := by
  by_cases hcpu : nCpus ≤ cpu ∨ (cpu = 1 ∧ m.online = false)
  · simpa only [spawnOn, if_pos hcpu] using h
  have hinv := admitOn_inv maxTasks_le h (spawnOn_up hcpu)
  simp only [spawnOn, if_neg hcpu]
  split
  · rename_i heq
    simpa only [heq] using hinv
  · rename_i heq
    simpa only [heq] using hinv

theorem act_tasks_inv {c : ℕ} (hc : Up m.online c) (a : Act) :
    (m.act c a).tasks.Inv (m.act c a).online := by
  cases a with
  | startCpu1 => exact startCpu1_inv maxTasks_le h
  | spawn cpu => exact spawnOn_inv h cpu
  | setStealeable id yes => exact setStealeable_inv h id yes
  | wake id => exact wake_inv maxTasks_le h id
  | switch kind =>
    obtain ⟨htasks, honline⟩ := switchWith_tasks m c kind
    simp only [act, htasks, honline]
    exact switchOn_inv maxTasks_le h hc kind

/-- Apart from a switch, only `start_cpu1` changes who is current, and only on processor 1. -/
theorem act_current {c : ℕ} (a : Act) (ha : ∀ kind, a ≠ .switch kind)
    (d : ℕ) (hd : d = 1 → m.online = true) :
    (m.act c a).tasks.current d = m.tasks.current d := by
  cases a with
  | startCpu1 =>
    simp only [act, startCpu1, Tasks.startCpu1]
    split
    · rfl
    rename_i hidle
    have hoff : m.online = false := by
      by_contra hon
      exact hidle (h.cpu1.mp (by simpa using hon))
    have hd1 : d ≠ 1 := by
      intro hd1
      have hon := hd hd1
      rw [hoff] at hon
      contradiction
    split
    · rfl
    · simp [noteOccupancy, update_of_ne hd1]
  | spawn cpu =>
    rcases spawnOn_cases h cpu with heq | ⟨slot, q, -, -, -, heq⟩
    · simp only [act, heq]
    · simp only [act, heq, noteOccupancy]
  | setStealeable id yes =>
    simp only [act, Tasks.setStealeable]
    split
    · rfl
    · split <;> rfl
  | wake id =>
    rcases wake_cases h id with ⟨-, heq⟩ | ⟨q, -, -, heq⟩ <;> simp only [act, wakeTask, heq]
  | switch kind => exact absurd rfl (ha kind)

theorem act_phase {c : ℕ} (a : Act) (ha : ∀ kind, a ≠ .switch kind) :
    (m.act c a).phase = m.phase := by
  cases a with
  | spawn cpu =>
    rcases spawnOn_cases h cpu with heq | ⟨slot, q, -, -, -, heq⟩ <;> simp only [act, heq]
  | switch kind => exact absurd rfl (ha kind)
  | _ => rfl

theorem act_online {c : ℕ} (a : Act) (hon : m.online = true) :
    (m.act c a).online = true := by
  cases a with
  | startCpu1 => simp [act, startCpu1, hon]
  | spawn cpu =>
    rcases spawnOn_cases h cpu with heq | ⟨slot, q, -, -, -, heq⟩ <;>
      simpa only [act, heq] using hon
  | setStealeable id yes | wake id => exact hon
  | switch kind => exact (switchWith_tasks m c kind).2.trans hon

end

theorem act_inv (h : m.Inv) (hc : Up m.online c) (hmay : m.mayAct c a = true) :
    (m.act c a).Inv := by
  by_cases hsw : ∃ kind, a = .switch kind
  · obtain ⟨kind, rfl⟩ := hsw
    have hrun := phase_of_mayAct_switch hmay
    obtain ⟨Q, H, hframe⟩ := stealFirst_frame h.tasks hc
    have htasks := act_tasks_inv h.tasks hc (.switch kind)
    rcases switchWith_cases h.tasks hc kind with ⟨Q', heq⟩ | ⟨next, q, -, -, -, heq⟩
    · simp only [act, heq] at htasks ⊢
      refine ⟨htasks, ?_, h.offline⟩
      intro d v hv
      simpa only [hframe] using h.moving d v hv
    simp only [act, heq] at htasks ⊢
    refine ⟨htasks, ?_, ?_⟩
    · intro d v hv
      by_cases hd : d = c
      · subst hd
        simp only [update_self] at hv
        rcases hv with hv | hv
        · cases hv
          simp [switched]
        · contradiction
      · simp only [update_of_ne hd] at hv
        simpa only [switched, update_of_ne hd, hframe] using h.moving d v hv
    · intro d hoff
      have hne : d ≠ c := fun hd => hoff (hd ▸ hc)
      simpa only [update_of_ne hne] using h.offline d hoff
  · have hne : ∀ kind, a ≠ .switch kind := fun kind hk => hsw ⟨kind, hk⟩
    have hphase := act_phase h.tasks (c := c) a hne
    refine ⟨act_tasks_inv h.tasks hc a, ?_, ?_⟩
    · intro d v hv
      rw [hphase] at hv
      rw [act_current h.tasks a hne d ?_]
      · exact h.moving d v hv
      rintro rfl
      by_contra hoff
      rw [h.offline 1 (by simpa [Up] using hoff)] at hv
      rcases hv with hv | hv <;> contradiction
    intro d hoff
    rw [hphase]
    exact h.offline d fun hd => hoff (hd.mono (act_online h.tasks a))

private theorem inv_of_phase (h : m.Inv) (hc : Up m.online c) {p : Phase}
    (hp : ∀ v, p = .tail v ∨ p = .context v → m.phase c = .tail v)
    (hphase : m'.phase = update m.phase c p) (hcur : m'.tasks.current = m.tasks.current)
    (honline : m'.online = m.online) (htasks : m'.tasks.Inv m.online) : m'.Inv := by
  refine ⟨by rw [honline]; exact htasks, ?_, ?_⟩
  · intro d v hv
    rw [hcur]
    rw [hphase] at hv
    by_cases hd : d = c
    · subst hd
      rw [update_self] at hv
      exact h.moving d v (.inl (hp v hv))
    · rw [update_of_ne hd] at hv
      exact h.moving d v hv
  · intro d hoff
    rw [honline] at hoff
    have hne : d ≠ c := fun hd => hoff (hd ▸ hc)
    rw [hphase, update_of_ne hne]
    exact h.offline d hoff

theorem step_inv (h : m.Inv) (hs : m.step l = some m') : m'.Inv := by
  rcases step_cases hs with ⟨c, a, -, hc, hmay, rfl⟩ | ⟨c, v, -, hc, hp, rfl⟩ |
    ⟨c, v, -, hc, hp, rfl⟩ | ⟨c, -, hc, hp, rfl⟩ | ⟨c, st, -, hc, hp, rfl⟩
  · exact act_inv h hc hmay
  · refine inv_of_phase h hc ?_ rfl rfl rfl h.tasks
    rintro w (hw | hw)
    · contradiction
    · cases hw
      exact hp
  · exact inv_of_phase h hc (by rintro w (hw | hw) <;> contradiction) rfl rfl rfl h.tasks
  · have hcollect := collect_inv h.tasks
    unfold collectExited
    cases hparked : m.tasks.parked with
    | none =>
      simp only [collect, hparked] at hcollect ⊢
      exact inv_of_phase h hc (by rintro w (hw | hw) <;> contradiction) rfl rfl rfl hcollect
    | some id =>
      simp only [collect, hparked] at hcollect ⊢
      refine inv_of_phase h hc ?_ rfl rfl rfl hcollect
      rintro w (hw | hw) <;> split at hw <;> contradiction
  · exact inv_of_phase h hc (by rintro w (hw | hw) <;> contradiction) rfl rfl rfl h.tasks

theorem boot_inv : boot.Inv := by
  have hstart : (new : Tasks maxTasks).start = some boot.tasks := rfl
  refine ⟨new_start_inv _ hstart, ?_, fun _ _ => rfl⟩
  rintro c v (hv | hv) <;> contradiction

theorem reach_inv {ok : Machine → Label → Prop} (h : Reach Boot step ok m) :
    m.Inv := by
  refine h.invariant (I := Machine.Inv) ?_ ?_
  · rintro m rfl
    exact boot_inv
  · intro m l m' hm _ hs
    exact step_inv hm hs

structure Calm (m m' : Machine) : Prop where
  states : ∀ i, m'.tasks.states i = m.tasks.states i ∨ m'.tasks.states i = .ready ∨
    m'.tasks.states i = .running
  epochs : m'.tasks.epochs = m.tasks.epochs
  ended : m'.ended = m.ended

theorem Calm.refl (m : Machine) : Calm m m := ⟨fun _ => .inl rfl, rfl, rfl⟩

theorem Calm.blocked (h : Calm m m') (i : ℕ) (hi : m'.tasks.states i = .blocked) :
    m.tasks.states i = .blocked := by
  rcases h.states i with heq | heq | heq <;> rw [hi] at heq
  · exact heq.symm
  · contradiction
  · contradiction

theorem Calm.empty (h : Calm m m') (i : ℕ) (hi : m'.tasks.states i = .empty) :
    m.tasks.states i = .empty := by
  rcases h.states i with heq | heq | heq <;> rw [hi] at heq
  · exact heq.symm
  · contradiction
  · contradiction

theorem Calm.idAt (h : Calm m m') (i : ℕ) : m'.tasks.idAt i = m.tasks.idAt i := by
  simp only [Tasks.idAt, h.epochs]

section

variable (h : m.tasks.Inv m.online)
include h

variable {c i : ℕ}

/-- Only a task that blocks or exits disturbs the table. -/
theorem act_calm (hc : Up m.online c) (a : Act) (ha : a ≠ .switch .block ∧ a ≠ .switch .exit) :
    Calm m (m.act c a) := by
  have hactive : ∀ {t : Tasks maxTasks} {slot : ℕ} {st : State}, st = .ready ∨ st = .running →
      t.states = update m.tasks.states slot st →
      ∀ i, t.states i = m.tasks.states i ∨ t.states i = .ready ∨ t.states i = .running := by
    intro t slot st hst ht i
    rw [ht, update_apply]
    split
    · exact .inr hst
    · exact .inl rfl
  cases a with
  | startCpu1 =>
    simp only [act, startCpu1, Tasks.startCpu1]
    split
    · exact ⟨fun _ => .inl rfl, rfl, rfl⟩
    split
    · exact ⟨fun _ => .inl rfl, rfl, rfl⟩
    · exact ⟨hactive (.inr rfl) rfl, rfl, rfl⟩
  | spawn cpu =>
    rcases spawnOn_cases h cpu with heq | ⟨slot, q, -, -, -, heq⟩
    · simp only [act, heq]
      exact Calm.refl m
    · simp only [act, heq]
      exact ⟨hactive (.inl rfl) rfl, rfl, rfl⟩
  | setStealeable id yes =>
    simp only [act, Tasks.setStealeable]
    split
    · exact Calm.refl m
    split
    · exact Calm.refl m
    · exact ⟨fun _ => .inl rfl, rfl, rfl⟩
  | wake id =>
    rcases wake_cases h id with ⟨-, heq⟩ | ⟨q, -, -, heq⟩
    · simp only [act, wakeTask, heq]
      exact Calm.refl m
    · simp only [act, wakeTask, heq]
      exact ⟨hactive (.inl rfl) rfl, rfl, rfl⟩
  | switch kind =>
    have hblock : kind ≠ .block := fun hk => ha.1 (by rw [hk])
    have hexit : kind ≠ .exit := fun hk => ha.2 (by rw [hk])
    have hreq : kind.requeues = true := by
      cases kind <;> simp_all [Switch.requeues]
    obtain ⟨Q, H, hframe⟩ := stealFirst_frame h hc
    rcases switchWith_cases h hc kind with ⟨Q', heq⟩ | ⟨next, q, -, -, -, heq⟩
    · simp only [act, heq, hframe]
      exact ⟨fun _ => .inl rfl, rfl, rfl⟩
    have hrun := ((stealFirst_inv maxTasks_le h hc).current c hc (by simp)).state
    simp only [act, heq, switched, retire_requeue hreq hrun, if_neg hexit]
    refine ⟨?_, by rw [hframe], rfl⟩
    intro i
    simp only [update_apply]
    split
    · exact .inr (.inr rfl)
    split
    · exact .inr (.inl rfl)
    · rw [hframe]
      exact .inl rfl

theorem wakeTask_not_blocked (id : TaskId) :
    (m.wakeTask id).2.tasks.state id ≠ some .blocked := by
  rcases wake_cases h id with ⟨hs, heq⟩ | ⟨q, hs, -, heq⟩
  · simpa only [wakeTask, heq] using hs
  · obtain ⟨hlt, hepoch, -⟩ := state_eq_some hs
    simp [wakeTask, heq, state, hlt, hepoch]

/-- A blocking or exiting section leaves every other slot as it was, up to the next
task starting to run. -/
theorem switchWith_others (hc : Up m.online c) (kind : Switch)
    (hi : i ≠ (m.tasks.current c).index) :
    ((m.switchWith c kind).tasks.states i = m.tasks.states i ∨
      (m.switchWith c kind).tasks.states i = .running) ∧
    (m.switchWith c kind).tasks.epochs i = m.tasks.epochs i ∧
    (m.switchWith c kind).ended i = m.ended i := by
  obtain ⟨Q, H, hframe⟩ := stealFirst_frame h hc
  have hcur : (m.tasks.stealFirst c).current = m.tasks.current := by rw [hframe]
  rcases switchWith_cases h hc kind with ⟨Q', heq⟩ | ⟨next, q, -, -, -, heq⟩
  · rw [heq, hframe]
    exact ⟨.inl rfl, rfl, rfl⟩
  rw [heq]
  refine ⟨?_, ?_, ?_⟩
  · by_cases hn : i = next.index
    · right
      simp [switched, hn]
    · left
      rw [switched_states_of_ne (by rw [hcur]; exact hi) hn, hframe]
  · cases kind <;> simp only [switched, retire, hcur] <;> (try split) <;>
      simp [hframe, update_of_ne hi]
  · split
    · exact update_of_ne hi ..
    · rfl

theorem switchWith_blocked (hc : Up m.online c) (hi : i ≠ (m.tasks.current c).index)
    (hb : (m.switchWith c kind).tasks.states i = .blocked) : m.tasks.states i = .blocked := by
  rcases (switchWith_others h hc kind hi).1 with heq | heq <;> rw [hb] at heq
  · exact heq.symm
  · contradiction

/-- Only an exit ends a tenancy. -/
theorem switchWith_epochs (hc : Up m.online c) (hk : kind ≠ .exit) :
    (m.switchWith c kind).tasks.epochs = m.tasks.epochs ∧
    (m.switchWith c kind).ended = m.ended := by
  obtain ⟨Q, H, hframe⟩ := stealFirst_frame h hc
  rcases switchWith_cases h hc kind with ⟨Q', heq⟩ | ⟨next, q, -, -, -, heq⟩
  · rw [heq, hframe]
    exact ⟨rfl, rfl⟩
  rw [heq]
  refine ⟨?_, if_neg hk⟩
  cases kind <;> simp only [switched, retire] <;> (try split) <;> simp_all

/-- The epoch of a slot moves exactly when a tenancy ends. -/
theorem switchWith_tenancies (hc : Up m.online c) (kind : Switch) (i : ℕ) :
    ((m.switchWith c kind).tasks.epochs i = m.tasks.epochs i ∧
      (m.switchWith c kind).ended i = m.ended i) ∨
    ((m.switchWith c kind).tasks.epochs i = m.tasks.epochs i + 1 ∧
      (m.switchWith c kind).ended i = m.ended i + 1) := by
  by_cases hexit : kind = .exit
  · subst hexit
    obtain ⟨Q, H, hframe⟩ := stealFirst_frame h hc
    rcases switchWith_cases h hc .exit with ⟨Q', heq⟩ | ⟨next, q, -, -, -, heq⟩
    · rw [heq, hframe]
      exact .inl ⟨rfl, rfl⟩
    rw [heq]
    simp only [switched, retire, hframe, if_true, update_apply]
    split
    · rename_i hi
      subst hi
      exact .inr ⟨rfl, rfl⟩
    · exact .inl ⟨rfl, rfl⟩
  · obtain ⟨hepochs, hended⟩ := switchWith_epochs h hc hexit
    exact .inl ⟨congrFun hepochs i, congrFun hended i⟩

/-- The task that gives up its processor is blocked only by a block. -/
theorem switchWith_not_blocked (hc : Up m.online c) (hk : kind ≠ .block) :
    (m.switchWith c kind).tasks.states (m.tasks.current c).index ≠ .blocked := by
  have hrun := (h.current c hc (by simp)).state
  by_cases hexit : kind = .exit
  · subst hexit
    obtain ⟨Q, H, hframe⟩ := stealFirst_frame h hc
    rcases switchWith_cases h hc .exit with ⟨Q', heq⟩ | ⟨next, q, -, -, -, heq⟩
    · rw [heq, hframe]
      simp [hrun]
    rw [heq]
    simp only [switched, retire, hframe, update_apply]
    split
    · simp
    · simp
  · intro hb
    have hcalm := act_calm (c := c) h hc (.switch kind) ⟨by simpa using hk, by simpa using hexit⟩
    have := hcalm.blocked _ hb
    rw [hrun] at this
    contradiction

/-- Only an exit that goes through empties the slot of the current task. -/
theorem switchWith_empty (hc : Up m.online c)
    (he : (m.switchWith c kind).tasks.states (m.tasks.current c).index = .empty) :
    kind = .exit ∧ (m.tasks.switchOn c kind).1 ≠ .stay := by
  have hrun := (h.current c hc (by simp)).state
  obtain ⟨Q, H, hframe⟩ := stealFirst_frame h hc
  rw [(switchWith_tasks m c kind).1] at he
  rcases switchOn_cases maxTasks_le h hc kind with
    ⟨-, -, heq⟩ | ⟨-, -, q, -, heq⟩ | ⟨next, q, -, hne, -, heq⟩
  · rw [heq, hframe, hrun] at he
    contradiction
  · rw [heq, hframe, hrun] at he
    contradiction
  · refine ⟨?_, by rw [heq]; nofun⟩
    by_contra hk
    rw [heq] at he
    cases kind with
    | exit => exact hk rfl
    | block =>
      simp only [switched, retire, hframe, update_apply] at he
      split at he
      · contradiction
      · simp at he
    | yield | preempt =>
      simp only [switched, retire, hframe, hrun, if_true, update_apply] at he
      split at he
      · contradiction
      · simp at he

end

theorem switchWith_phase_of_ne (m : Machine) (c : ℕ) (kind : Switch) (hd : d ≠ c) :
    (m.switchWith c kind).phase d = m.phase d := by
  unfold switchWith
  split
  · rfl
  · exact update_of_ne hd ..

theorem switchWith_block (h : m.tasks.Inv m.online) (hc : Up m.online c)
    (hidle : m.tasks.current c ≠ m.tasks.idle c) :
    (m.switchWith c .block).tasks.states (m.tasks.current c).index = .blocked := by
  obtain ⟨Q, H, hframe⟩ := stealFirst_frame h hc
  have hsits := h.current c hc (by simp)
  rw [(switchWith_tasks m c .block).1]
  rcases switchOn_cases maxTasks_le h hc .block with
    ⟨-, he, -⟩ | ⟨hreq, -⟩ | ⟨next, q, -, hne, hcand, heq⟩
  · exact absurd he hidle
  · contradiction
  · have hnext := candidate_sits (stealFirst_inv maxTasks_le h hc) hc hcand
      (by rw [hframe]; exact hne)
    have hidx : (m.tasks.current c).index ≠ next.index := by
      intro he
      have hstate := hnext.state
      rw [hframe, ← he, hsits.state] at hstate
      contradiction
    rw [heq]
    simp [switched, retire, hframe, update_of_ne hidx]

/-- Only a wake of its task ends a block. -/
theorem act_keeps_blocked (h : m.tasks.Inv m.online) (hc : Up m.online c) (a : Act) {i : ℕ}
    (hi : m.tasks.states i = .blocked)
    (ha : ∀ id, a = .wake id → m.tasks.state id = some .blocked → i ≠ id.index) :
    (m.act c a).tasks.states i = .blocked := by
  have hslot : ∀ {slot : ℕ}, m.tasks.freeSlot = some slot → i ≠ slot := by
    rintro slot hfree rfl
    rw [(freeSlot_eq_some hfree).2.1] at hi
    contradiction
  cases a with
  | startCpu1 =>
    simp only [act, startCpu1, Tasks.startCpu1]
    split
    · exact hi
    split
    · exact hi
    · rename_i hfree
      exact (update_of_ne (hslot hfree) ..).trans hi
  | spawn cpu =>
    rcases spawnOn_cases h cpu with heq | ⟨slot, q, -, hfree, -, heq⟩
    · simpa only [act, heq] using hi
    · simp only [act, heq]
      exact (update_of_ne (hslot hfree) ..).trans hi
  | setStealeable id yes =>
    simp only [act, Tasks.setStealeable]
    split
    · exact hi
    · split <;> exact hi
  | wake id =>
    rcases wake_cases h id with ⟨-, heq⟩ | ⟨q, hs, -, heq⟩
    · simpa only [act, wakeTask, heq] using hi
    · simp only [act, wakeTask, heq]
      exact (update_of_ne (ha id rfl hs) ..).trans hi
  | switch kind =>
    obtain ⟨Q, H, hframe⟩ := stealFirst_frame h hc
    rcases switchWith_cases h hc kind with ⟨Q', heq⟩ | ⟨next, q, -, hne, hcand, heq⟩
    · simpa only [act, heq, hframe] using hi
    have hcur := (h.current c hc (by simp)).state
    have hnext := candidate_sits (stealFirst_inv maxTasks_le h hc) hc hcand
      (by rw [hframe]; exact hne)
    simp only [act, heq]
    rw [switched_states_of_ne, hframe]
    · exact hi
    · rintro rfl
      rw [hframe, hcur] at hi
      contradiction
    · rintro rfl
      have hstate := hnext.state
      rw [hframe, hi] at hstate
      contradiction

theorem step_act (hs : m.step (.act c a) = some m') :
    Up m.online c ∧ m.mayAct c a = true ∧ m' = m.act c a := by
  rcases step_cases hs with ⟨d, b, hl, hc, hmay, rfl⟩ | ⟨d, v, hl, -⟩ | ⟨d, v, hl, -⟩ |
    ⟨d, hl, -⟩ | ⟨d, st, hl, -⟩ <;> cases hl
  exact ⟨hc, hmay, rfl⟩

/-- The idle identities only ever change to a slot that was empty. -/
theorem act_idle (h : m.tasks.Inv m.online) (hc : Up m.online c) (a : Act) (d : ℕ) :
    (m.act c a).tasks.idle d = m.tasks.idle d ∨
      ∃ slot, slot < maxTasks ∧ m.tasks.states slot = .empty ∧
        (m.act c a).tasks.idle d = m.tasks.idAt slot := by
  cases a with
  | startCpu1 =>
    simp only [act, startCpu1, Tasks.startCpu1]
    split
    · exact .inl rfl
    split
    · exact .inl rfl
    rename_i slot hfree
    obtain ⟨hlt, hempty, -⟩ := freeSlot_eq_some hfree
    by_cases hd : d = 1
    · exact .inr ⟨slot, hlt, hempty, by simp [noteOccupancy, hd]⟩
    · exact .inl (update_of_ne hd ..)
  | spawn cpu =>
    left
    rcases spawnOn_cases h cpu with heq | ⟨slot, q, -, -, -, heq⟩ <;> simp only [act, heq]
    rfl
  | setStealeable id yes =>
    simp only [act, Tasks.setStealeable]
    split
    · exact .inl rfl
    · split <;> exact .inl rfl
  | wake id =>
    left
    rcases wake_cases h id with ⟨-, heq⟩ | ⟨q, -, -, heq⟩ <;> simp only [act, wakeTask, heq]
  | switch kind =>
    left
    obtain ⟨Q, H, hframe⟩ := stealFirst_frame h hc
    rcases switchWith_cases h hc kind with ⟨Q', heq⟩ | ⟨next, q, -, hne, hcand, heq⟩
    · simp only [act, heq, hframe]
    · simp only [act, heq, switched, (retire_frame _ _ _).2.2.1, hframe]

/-- The sections after the first one of a switch leave the table and the other processors as
they are. -/
theorem step_exec_frame (hs : m.step (.exec c) = some m') :
    m'.tasks.states = m.tasks.states ∧ m'.tasks.idle = m.tasks.idle ∧ Calm m m' ∧
      ∀ d, d ≠ c → m'.phase d = m.phase d := by
  rcases step_cases hs with ⟨d, a, hl, -⟩ | ⟨d, v, hl, -, hp, rfl⟩ |
    ⟨d, v, hl, -, hp, rfl⟩ | ⟨d, hl, -, hp, rfl⟩ | ⟨d, st, hl, -, hp, rfl⟩ <;> cases hl
  · exact ⟨rfl, rfl, ⟨fun _ => .inl rfl, rfl, rfl⟩, fun _ hd => update_of_ne hd ..⟩
  · exact ⟨rfl, rfl, ⟨fun _ => .inl rfl, rfl, rfl⟩, fun _ hd => update_of_ne hd ..⟩
  · unfold collectExited
    cases hparked : m.tasks.parked <;> simp only [Tasks.collect, hparked] <;>
      exact ⟨trivial, trivial, ⟨fun _ => .inl rfl, rfl, rfl⟩, fun _ hd => update_of_ne hd ..⟩
  · exact ⟨rfl, rfl, ⟨fun _ => .inl rfl, rfl, rfl⟩, fun _ hd => update_of_ne hd ..⟩

end Machine

end HarborKernel.Processors
