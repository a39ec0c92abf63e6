import HarborKernel.LockSections

/-!
What a kernel step can do.
The footprint theorems say, for each kernel function, which tables a section may
change and where its task continues. Every step acts on the scheduler as one step of
the two processors, or not at all. The base invariant follows: program points name
their own task, a blocked task stands right after a blocking section, and the exit
path only runs on a processor that is exiting.
-/

namespace HarborKernel.LockSections

open Function Capability ReadyQueue TaskTable Ipc IrqWait Processors Transition

def Pc.resumes : Pc → Bool
  | .recv _ _ (.resumed _) => true
  | .waitIrq _ (.resumed _) => true
  | _ => false

/-- Every task id that the point keeps as its own is `id`. -/
def Pc.Own (p : Pc) (id : TaskId) : Prop :=
  match p with
  | .recv _ limit q => (∀ me d, limit = some (me, d) → me = id) ∧
    match q with
    | .park me | .block me | .resumed me => me = id
    | _ => True
  | .timed (.now me _ _) | .timed (.arm me _ _) | .timed (.disarm me _) => me = id
  | .waitIrq _ q =>
    match q with
    | .self => True
    | .arm me | .takePending me | .disarmFast me | .block me | .resumed me | .disarm me =>
      me = id
  | _ => True

def Pc.direct : Pc → Bool
  | .user .none | .user (.moved _) | .send .. | .spawn _ | .grant _ | .admin _ => true
  | .yield | .exit | .halted => true
  | _ => false

def Pc.Elsewhere (p : Pc) : Prop := p.direct = true ∨ ∃ y q, p = .poll y q

theorem Pc.Elsewhere.own {p : Pc} (h : p.Elsewhere) (id : TaskId) : p.Own id := by
  rcases h with h | ⟨y, q, rfl⟩
  · unfold Pc.direct at h
    split at h <;> trivial
  · trivial

theorem Pc.Elsewhere.ne_recv {p : Pc} (h : p.Elsewhere) (cap : CapId)
    (limit : Option (TaskId × ℕ)) (q : RecvPoint) : p ≠ .recv cap limit q := by
  rintro rfl
  rcases h with h | ⟨y, q, h⟩ <;> contradiction

theorem Pc.Elsewhere.ne_irq {p : Pc} (h : p.Elsewhere) (cookie : UInt32) (q : IrqPoint) :
    p ≠ .waitIrq cookie q := by
  rintro rfl
  rcases h with h | ⟨y, q, h⟩ <;> contradiction

def TailPoint.busy : TailPoint → Bool
  | .done => false
  | _ => true

def Pc.target : Pc → Option TaskId
  | .send _ _ (.wake id) => some id
  | .poll _ (.wake token _) => some (TaskId.fromRaw token)
  | .poll _ (.cancel id _) => some id
  | .admin (.cancel id) => some id
  | _ => none

def TailPoint.target : TailPoint → Option TaskId
  | .reap id _ => some id
  | .cancel id _ => some id
  | _ => none

namespace Kernel

structure Base (s : Kernel) : Prop where
  inv : s.m.Inv
  tail : ∀ c, (s.tail c).busy = true → ∃ v, s.m.phase c = .tail v ∧ v.exits = true
  own : ∀ i, i < maxTasks → (s.pc i).Own (s.m.tasks.idAt i)
  parked : ∀ i, i < maxTasks → s.m.tasks.states i = .blocked → (s.pc i).resumes = true
  empty : ∀ i, i < maxTasks → s.m.tasks.states i = .empty → s.pc i = .user .none

variable {s s' : Kernel} {c : ℕ}

theorem Base.cur_sits (h : Base s) (hc : Up s.m.online c) :
    s.m.tasks.Sits (s.cur c) .running c := h.inv.tasks.current c hc (by simp)

theorem Base.idAt_cur (h : Base s) (hc : Up s.m.online c) :
    s.m.tasks.idAt (s.cur c).index = s.cur c := (h.cur_sits hc).eq_idAt.symm

theorem Base.own_cur (h : Base s) (hc : Up s.m.online c) :
    (s.pc (s.cur c).index).Own (s.cur c) := by
  have hown := h.own _ (h.cur_sits hc).lt
  rwa [h.idAt_cur hc] at hown

variable {p : Pc} {l : Label} {id : TaskId} {cap : CapId} {limit : Option (TaskId × ℕ)}
    {m : Machine} {ok : Kernel → Label → Prop}

/-- A step that only calms the scheduler and moves the task on processor `c`. -/
theorem Base.of_calm (h : Base s) (hc : Up s.m.online c) (hinv : s'.m.Inv)
    (hcalm : Machine.Calm s.m s'.m)
    (htail : ∀ d, (s'.tail d).busy = true → ∃ v, s'.m.phase d = .tail v ∧ v.exits = true)
    (hpc : s'.pc = update s.pc (s.cur c).index p) (hown : p.Own (s.cur c)) :
    Base s' where
  inv := hinv
  tail := htail
  own := by
    intro i hi
    rw [hcalm.idAt, hpc]
    by_cases hk : i = (s.cur c).index
    · rw [hk, h.idAt_cur hc, update_self]
      exact hown
    · rw [update_of_ne hk]
      exact h.own i hi
  parked := by
    intro i hi hb
    have hb' := hcalm.blocked i hb
    by_cases hk : i = (s.cur c).index
    · rw [hk, (h.cur_sits hc).state] at hb'
      contradiction
    · rw [hpc, update_of_ne hk]
      exact h.parked i hi hb'
  empty := by
    intro i hi he
    have he' := hcalm.empty i he
    by_cases hk : i = (s.cur c).index
    · rw [hk, (h.cur_sits hc).state] at he'
      contradiction
    · rw [hpc, update_of_ne hk]
      exact h.empty i hi he'

theorem Base.of_local (h : Base s) (hc : Up s.m.online c) (hm : s'.m = s.m)
    (htail : s'.tail = s.tail) (hpc : s'.pc = update s.pc (s.cur c).index p)
    (hown : p.Own (s.cur c)) : Base s' := by
  refine h.of_calm hc (hm ▸ h.inv) (hm ▸ Machine.Calm.refl _) ?_ hpc hown
  rw [hm, htail]
  exact h.tail

theorem pc_self (s : Kernel) (i : ℕ) : s.pc = update s.pc i (s.pc i) :=
  (update_eq_self i s.pc).symm

theorem execRecv_footprint (s : Kernel) (c : ℕ) (cap : CapId) (limit : Option (TaskId × ℕ))
    (p : RecvPoint) (hp : ∀ me, p ≠ .block me) :
    ∃ ipc cancelWait p', s.execRecv c cap limit p = { s with
        ipc, cancelWait, pc := update s.pc (s.cur c).index p' } ∧
      ((∃ r, p' = answered limit r) ∨ ∃ q, p' = .recv cap limit q ∧
        (∀ me, q = .park me → me = s.cur c) ∧ (∀ me, q = .block me → p = .park me) ∧
        ∀ me, q ≠ .resumed me) := by
  cases p with
  | takeCancel | resumed me =>
    cases hflag : s.cancelWait (s.cur c).index with
    | true =>
      simp only [execRecv, takeCancelWait, hflag, if_true]
      exact ⟨_, _, _, rfl, .inl ⟨_, rfl⟩⟩
    | false =>
      simp only [execRecv, takeCancelWait, hflag, Bool.false_eq_true, if_false]
      exact ⟨_, _, _, rfl, .inr ⟨_, rfl, nofun, nofun, nofun⟩⟩
  | holds =>
    refine ⟨_, _, _, rfl, .inr ⟨_, rfl, ?_, ?_, ?_⟩⟩ <;> split <;> nofun
  | refuse | noteIdle => exact ⟨_, _, _, rfl, .inl ⟨_, rfl⟩⟩
  | tryRecv =>
    simp only [execRecv]
    split
    · exact ⟨_, _, _, rfl, .inl ⟨_, rfl⟩⟩
    · exact ⟨_, _, _, rfl, .inr ⟨_, rfl, nofun, nofun, nofun⟩⟩
    · exact ⟨_, _, _, rfl, .inl ⟨_, rfl⟩⟩
  | isIdle =>
    refine ⟨_, _, _, rfl, .inr ⟨_, rfl, ?_, ?_, ?_⟩⟩ <;> split <;> nofun
  | self =>
    refine ⟨_, _, _, rfl, .inr ⟨_, rfl, ?_, nofun, nofun⟩⟩
    intro me hme
    cases hme
    rfl
  | park me =>
    simp only [execRecv]
    split
    · exact ⟨_, _, _, rfl, .inl ⟨_, rfl⟩⟩
    · refine ⟨_, _, _, rfl, .inr ⟨_, rfl, nofun, ?_, nofun⟩⟩
      intro me' hme
      cases hme
      rfl
    · exact ⟨_, _, _, rfl, .inl ⟨_, rfl⟩⟩
  | block me => exact absurd rfl (hp me)

/-- Only the two reads of the cancel flag touch it, and they reset it. -/
theorem execRecv_cancelWait (s : Kernel) (c : ℕ) (cap : CapId) (limit : Option (TaskId × ℕ))
    (p : RecvPoint) : (s.execRecv c cap limit p).cancelWait =
      match p with
      | .takeCancel | .resumed _ => update s.cancelWait (s.cur c).index false
      | _ => s.cancelWait := by
  cases p with
  | takeCancel | resumed me =>
    cases hflag : s.cancelWait (s.cur c).index <;>
      simp only [execRecv, takeCancelWait, hflag, Bool.false_eq_true, if_true, if_false] <;> rfl
  | tryRecv | park me =>
    simp only [execRecv]
    split <;> rfl
  | holds | refuse | isIdle | noteIdle | self | block me => rfl

theorem execRecv_cancelWait_of_ne {p : RecvPoint} {i : ℕ} (hi : i ≠ (s.cur c).index) :
    (s.execRecv c cap limit p).cancelWait i = s.cancelWait i := by
  rw [execRecv_cancelWait]
  split
  · exact update_of_ne hi ..
  · exact update_of_ne hi ..
  · rfl

theorem answered_ne_recv {limit' : Option (TaskId × ℕ)} {r : Received} {q : RecvPoint} :
    answered limit r ≠ .recv cap limit' q := by
  unfold answered
  split <;> nofun

theorem execTimed_footprint (s : Kernel) (c : ℕ) (p : TimedPoint) :
    ∃ deadlines hit p', s.execTimed c p = { s with
        deadlines, hit, pc := update s.pc (s.cur c).index p' } ∧
      ((∃ q, p' = .timed q) ∨ (∃ me cap d, p = .arm me cap d ∧
        p' = .recv cap (some (me, d)) .takeCancel) ∨ ∃ r, p' = .user (.received r)) := by
  cases p with
  | self cap ticks | now me cap wait => exact ⟨_, _, _, rfl, .inl ⟨_, rfl⟩⟩
  | arm me cap deadline => exact ⟨_, _, _, rfl, .inr (.inl ⟨_, _, _, rfl, rfl⟩)⟩
  | disarm me r => exact ⟨_, _, _, rfl, .inr (.inr ⟨_, rfl⟩)⟩

theorem execSend_footprint (s : Kernel) (c : ℕ) (cap : CapId) (msg : Message) (p : SendPoint)
    (hp : ∀ id, p ≠ .wake id) :
    ∃ ipc p', s.execSend c cap msg p = { s with
        ipc, pc := update s.pc (s.cur c).index p' } ∧
      ((∃ q, p' = .send cap msg q) ∨ p' = .user .none) := by
  cases p with
  | holds => exact ⟨_, _, rfl, .inl ⟨_, rfl⟩⟩
  | refuse => exact ⟨_, _, rfl, .inr rfl⟩
  | table =>
    simp only [execSend]
    split
    · exact ⟨_, _, rfl, .inl ⟨_, rfl⟩⟩
    · exact ⟨_, _, rfl, .inr rfl⟩
  | wake id => exact absurd rfl (hp id)

theorem execIrq_footprint (s : Kernel) (c : ℕ) (cookie : UInt32) (p : IrqPoint)
    (hp : ∀ me, p ≠ .block me) :
    ∃ waits delivered p', s.execIrq c cookie p = { s with
        waits, delivered, pc := update s.pc (s.cur c).index p' } ∧
      ((∃ q, p' = .waitIrq cookie q ∧ (∀ me, q ≠ .resumed me)) ∨
        ∃ ok, p' = .user (.waited cookie ok)) := by
  cases p with
  | self => exact ⟨_, _, _, rfl, .inl ⟨_, rfl, nofun⟩⟩
  | arm me =>
    simp only [execIrq]
    split
    · exact ⟨_, _, _, rfl, .inr ⟨_, rfl⟩⟩
    · exact ⟨_, _, _, rfl, .inl ⟨_, rfl, nofun⟩⟩
  | takePending me =>
    refine ⟨_, _, _, rfl, .inl ⟨_, rfl, ?_⟩⟩
    split <;> nofun
  | disarmFast me => exact ⟨_, _, _, rfl, .inr ⟨_, rfl⟩⟩
  | block me => exact absurd rfl (hp me)
  | resumed me => exact ⟨_, _, _, rfl, .inl ⟨_, rfl, nofun⟩⟩
  | disarm me => exact ⟨_, _, _, rfl, .inr ⟨_, rfl⟩⟩

theorem execIrq_mark {cookie : UInt32} {p : IrqPoint}
    (h : (s.execIrq c cookie p).waits.isPending id = true) : s.waits.isPending id = true := by
  have hsame : ∀ {w : WaitTable}, w.pending = s.waits.pending → w.isPending id = true →
      s.waits.isPending id = true := by
    intro w hw hid
    rw [WaitTable.isPending_iff, hw] at hid
    exact WaitTable.isPending_iff.mpr hid
  cases p with
  | arm me =>
    have hpending := WaitTable.arm_pending s.waits cookie me
    simp only [execIrq] at h
    split at h <;> rename_i heq <;> rw [heq] at hpending <;> exact hsame hpending h
  | takePending me | resumed me => exact WaitTable.isPending_of_takePending h
  | self | block me | disarmFast me | disarm me => exact hsame rfl h

theorem execGrant_footprint (s : Kernel) (c : ℕ) (p : GrantPoint) :
    ∃ caps ipc p', s.execGrant c p = { s with
        caps, ipc, pc := update s.pc (s.cur c).index p' } ∧
      ((∃ q, p' = .grant q) ∨ p' = .user .none ∨ ∃ r, p' = .user (.moved r)) := by
  cases p with
  | install slot cap =>
    refine ⟨_, _, _, rfl, ?_⟩
    split
    · exact .inl ⟨_, rfl⟩
    · exact .inr (.inl rfl)
  | register cap => exact ⟨_, _, _, rfl, .inr (.inl rfl)⟩
  | transfer fromSlot to' toSlot by' => exact ⟨_, _, _, rfl, .inr (.inr ⟨_, rfl⟩)⟩
  | creatorOf fromSlot toSlot => exact ⟨_, _, _, rfl, .inl ⟨_, rfl⟩⟩
  | creatorSelf creator fromSlot toSlot =>
    refine ⟨_, _, _, rfl, ?_⟩
    split
    · exact .inr (.inr ⟨_, rfl⟩)
    · exact .inl ⟨_, rfl⟩
  | peerCap fromSlot toSlot capSlot | peerLookup cap fromSlot toSlot =>
    simp only [execGrant]
    split
    · exact ⟨_, _, _, rfl, .inr (.inr ⟨_, rfl⟩)⟩
    · exact ⟨_, _, _, rfl, .inl ⟨_, rfl⟩⟩
  | peerSelf to' by' fromSlot toSlot =>
    refine ⟨_, _, _, rfl, ?_⟩
    split
    · exact .inr (.inr ⟨_, rfl⟩)
    · exact .inl ⟨_, rfl⟩

theorem entry_own (f : Call) (id : TaskId) : f.entry.Own id := by
  cases f with
  | spawnOn cpu slots =>
    simp only [Call.entry]
    split <;> trivial
  | recv cap => exact ⟨nofun, trivial⟩
  | _ => trivial

/-- Every step of the kernel, down to the function whose section it runs. -/
theorem step_cases (hs : s.step l = some s') :
    (∃ c f, l = .call c f ∧ s.free c ∧ s.isRun c = true ∧
      (s.pc (s.cur c).index).isUser = true ∧ f.allowed s c = true ∧ s' = s.enter c f) ∨
    (∃ c, l = .exec c ∧ s.free c ∧ s.m.phase c = .run ∧ s.execTask c = some s') ∨
    (∃ c v, l = .exec c ∧ s.free c ∧ s.m.phase c = .tail v ∧ (s.tail c).busy = true ∧
      s' = s.execTail c v.from' (s.tail c)) ∨
    (∃ c m, l = .exec c ∧ s.free c ∧ s.m.step (.exec c) = some m ∧ s' = { s with m } ∧
      (∀ v, s.m.phase c = .tail v → s.tail c = .done)) ∨
    (∃ c, l = .preempt c ∧ s.free c ∧ s.m.phase c = .run ∧
      s' = { s with m := s.m.switchWith c .preempt }) ∨
    (∃ c cookie, l = .signal c cookie ∧ s.free c ∧ s.m.phase c = .run ∧
      s' = s.signal c cookie) ∨
    (∃ c task, l = .push c ∧ s.hand c = some task ∧ s' = { s with
        queue := (s.queue.push task.toRaw).2
        hand := update s.hand c none }) ∨
    (l = .tick ∧ s' = { s with ticks := if s.ticks = ticksMax then 0 else s.ticks + 1 }) := by
  have hrun : ∀ c, s.isRun c = true → s.m.phase c = .run := by
    intro c hc
    unfold isRun at hc
    split at hc
    · assumption
    · contradiction
  cases l with
  | call c f =>
    simp only [step] at hs
    split at hs
    · rename_i hen
      exact .inl ⟨c, f, rfl, hen.1, hen.2.1, hen.2.2.1, hen.2.2.2, (Option.some.inj hs).symm⟩
    · contradiction
  | exec c =>
    simp only [step] at hs
    split at hs
    · rename_i hfree
      right
      unfold exec at hs
      split at hs
      · rename_i hp
        exact .inl ⟨c, rfl, hfree, hp, hs⟩
      · rename_i v hp htail
        have hstep : s.m.step (.exec c) = some (s.m.second c v) := by
          simp only [Machine.step, hfree.1, if_true, hp]
        exact .inr (.inr (.inl ⟨c, _, rfl, hfree, hstep, (Option.some.inj hs).symm,
          fun _ _ => htail⟩))
      · rename_i v hp htail
        refine .inr (.inl ⟨c, v, rfl, hfree, hp, ?_, (Option.some.inj hs).symm⟩)
        cases ht : s.tail c <;> first | rfl | exact absurd ht htail
      · rename_i hne1 hne2 hne3
        obtain ⟨m, hm, rfl⟩ := Option.map_eq_some_iff.mp hs
        refine .inr (.inr (.inl ⟨c, m, rfl, hfree, hm, rfl, ?_⟩))
        intro v hv
        exact absurd hv (hne2 v)
    · contradiction
  | preempt c =>
    simp only [step] at hs
    split at hs
    · rename_i hen
      exact .inr (.inr (.inr (.inr (.inl ⟨c, rfl, hen.1, hrun c hen.2,
        (Option.some.inj hs).symm⟩))))
    · contradiction
  | signal c cookie =>
    simp only [step] at hs
    split at hs
    · rename_i hen
      exact .inr (.inr (.inr (.inr (.inr (.inl ⟨c, cookie, rfl, hen.1, hrun c hen.2,
        (Option.some.inj hs).symm⟩)))))
    · contradiction
  | push c =>
    simp only [step] at hs
    split at hs
    · contradiction
    rename_i task htask
    exact .inr (.inr (.inr (.inr (.inr (.inr (.inl ⟨c, task, rfl, htask,
      (Option.some.inj hs).symm⟩))))))
  | tick =>
    exact .inr (.inr (.inr (.inr (.inr (.inr (.inr ⟨rfl,
      (Option.some.inj hs).symm⟩))))))

/-- A processor may wake while it runs a task, and on its exit path. -/
theorem mayWake (h : Base s) (hc : s.m.phase c = .run ∨ (s.tail c).busy = true) (id : TaskId) :
    s.m.mayAct c (.wake id) = true := by
  rcases hc with hrun | hbusy
  · simp only [Machine.mayAct, hrun]
  · obtain ⟨v, hp, hexits⟩ := h.tail c hbusy
    simp only [Machine.mayAct, hp, hexits]

section

variable (h : Base s) (hc : Up s.m.online c) (hmay : s.m.phase c = .run ∨ (s.tail c).busy = true)
include h hc hmay

theorem wake_calm (id : TaskId) :
    (s.m.wakeTask id).2.Inv ∧ Machine.Calm s.m (s.m.wakeTask id).2 ∧
    (s.m.wakeTask id).2.phase = s.m.phase :=
  ⟨Machine.act_inv h.inv hc (mayWake h hmay id),
    Machine.act_calm (c := c) h.inv.tasks hc (.wake id) ⟨nofun, nofun⟩, rfl⟩

theorem cancel_calm (id : TaskId) :
    (cancelMachine s.m id).Inv ∧ Machine.Calm s.m (cancelMachine s.m id) ∧
    (cancelMachine s.m id).phase = s.m.phase := by
  unfold cancelMachine
  split
  · exact wake_calm h hc hmay id
  · exact ⟨h.inv, Machine.Calm.refl _, rfl⟩

end

theorem Base.of_tail (h : Base s) (hinv : s'.m.Inv) (hcalm : Machine.Calm s.m s'.m)
    (hphase : s'.m.phase = s.m.phase) (hpc : s'.pc = s.pc) {p : TailPoint}
    (hbusy : (s.tail c).busy = true) (htail : s'.tail = update s.tail c p) : Base s' where
  inv := hinv
  tail := by
    intro d hd
    rw [htail, update_apply] at hd
    rw [hphase]
    split at hd
    · rename_i hdc
      exact h.tail d (hdc ▸ hbusy)
    · exact h.tail d hd
  own := by
    intro i hi
    rw [hcalm.idAt, hpc]
    exact h.own i hi
  parked := by
    intro i hi hb
    rw [hpc]
    exact h.parked i hi (hcalm.blocked i hb)
  empty := by
    intro i hi he
    rw [hpc]
    exact h.empty i hi (hcalm.empty i he)

section

variable (h : Base s) (hc : Up s.m.online c)
include h hc

theorem Base.tailStep (hbusy : (s.tail c).busy = true)
    (from' : TaskId) : Base (s.execTail c from' (s.tail c)) := by
  cases ht : s.tail c with
  | done =>
    rw [ht] at hbusy
    contradiction
  | release caps =>
    exact h.of_tail h.inv (Machine.Calm.refl _) rfl rfl hbusy rfl
  | revoke | scan | clear id rest => exact h.of_tail h.inv (Machine.Calm.refl _) rfl rfl hbusy rfl
  | reap id rest | cancel id rest =>
    obtain ⟨hinv, hcalm, hphase⟩ := cancel_calm h hc (.inr hbusy) id
    exact h.of_tail hinv hcalm hphase rfl hbusy rfl

/-- The task on processor `c` gives it up and continues at `p` later. -/
theorem Base.of_switch (hrun : s.m.phase c = .run)
    {kind : Switch} (hm : s'.m = s.m.switchWith c kind)
    (hpc : s'.pc = update s.pc (s.cur c).index p) (hother : ∀ d, d ≠ c → s'.tail d = s.tail d)
    (htail : (s'.tail c).busy = true → ∃ v, s'.m.phase c = .tail v ∧ v.exits = true)
    (hown : ∀ id, (kind ≠ .exit → id = s.cur c) → p.Own id)
    (hres : kind = .block → p.resumes = true)
    (hexit : kind = .exit → (s.m.tasks.switchOn c kind).1 ≠ .stay → p = .user .none) :
    Base s' := by
  have hact : s.m.mayAct c (.switch kind) = true := by simp only [Machine.mayAct, hrun]
  refine ⟨hm ▸ Machine.act_inv h.inv hc hact, ?_, ?_, ?_, ?_⟩
  · intro d hd
    by_cases hdc : d = c
    · subst hdc
      exact htail hd
    rw [hother d hdc] at hd
    rw [hm, Machine.switchWith_phase_of_ne _ _ _ hdc]
    exact h.tail d hd
  · intro i hi
    rw [hpc, hm, update_apply]
    split
    · rename_i hik
      subst hik
      apply hown
      intro hk
      rw [Tasks.idAt, (Machine.switchWith_epochs h.inv.tasks hc hk).1]
      exact h.idAt_cur hc
    rename_i hik
    obtain ⟨-, hepoch, -⟩ := Machine.switchWith_others h.inv.tasks hc kind hik
    rw [Tasks.idAt, hepoch]
    exact h.own i hi
  · intro i hi hb
    rw [hm] at hb
    rw [hpc, update_apply]
    split
    · rename_i hik
      subst hik
      apply hres
      by_contra hk
      exact Machine.switchWith_not_blocked h.inv.tasks hc hk hb
    · rename_i hik
      exact h.parked i hi (Machine.switchWith_blocked h.inv.tasks hc hik hb)
  · intro i hi he
    rw [hm] at he
    rw [hpc, update_apply]
    split
    · rename_i hik
      subst hik
      obtain ⟨hk, hgone⟩ := Machine.switchWith_empty h.inv.tasks hc he
      exact hexit hk hgone
    rename_i hik
    rcases (Machine.switchWith_others h.inv.tasks hc kind hik).1 with heq | heq
    · exact h.empty i hi (heq ▸ he)
    · rw [heq] at he
      contradiction

/-- A switch other than an exit, made by the task's own code. -/
theorem Base.switchTo (hrun : s.m.phase c = .run)
    {kind : Switch} (hk : kind ≠ .exit) (hown : p.Own (s.cur c))
    (hres : kind = .block → p.resumes = true) : Base (s.switchTo c kind p) := by
  refine h.of_switch hc hrun rfl rfl (fun _ _ => rfl) ?_ (fun id hid => hid hk ▸ hown) hres
    fun he => absurd he hk
  intro hbusy
  obtain ⟨v, hv, -⟩ := h.tail c hbusy
  rw [hrun] at hv
  contradiction

theorem Base.exit (hrun : s.m.phase c = .run) :
    Base (s.execExit c) := by
  unfold execExit
  split
  · rename_i heq
    refine h.of_switch hc hrun rfl rfl (fun _ _ => rfl) ?_ (fun _ _ => trivial) nofun
      fun _ hgone => absurd (by rw [heq]) hgone
    intro hbusy
    obtain ⟨v, hv, -⟩ := h.tail c hbusy
    rw [hrun] at hv
    contradiction
  rename_i from' to' release t heq
  refine h.of_switch (p := .user .none) hc hrun rfl rfl ?_ ?_ (fun _ _ => trivial) nofun
    fun _ _ => rfl
  · intro d hd
    exact update_of_ne hd ..
  intro _
  refine ⟨⟨from', to', release, true, s.m.stack from'.index⟩, ?_, rfl⟩
  simp [Kernel.switchTo, Machine.switchWith, heq]

theorem Base.recv (hrun : s.m.phase c = .run) {p : RecvPoint}
    (hpc : s.pc (s.cur c).index = .recv cap limit p) : Base (s.execRecv c cap limit p) := by
  have hown := h.own_cur hc
  rw [hpc] at hown
  by_cases hb : ∃ me, p = .block me
  · obtain ⟨me, rfl⟩ := hb
    refine h.switchTo (p := .recv cap limit (.resumed me)) hc hrun ?_ hown fun _ => rfl
    nofun
  obtain ⟨ipc, cancelWait, p', heq, hp'⟩ :=
    execRecv_footprint s c cap limit p fun me hme => hb ⟨me, hme⟩
  rw [heq]
  refine h.of_local hc rfl rfl rfl ?_
  rcases hp' with ⟨r, rfl⟩ | ⟨q, rfl, hpark, hblock, hres⟩
  · unfold answered
    split
    · trivial
    · exact hown.1 _ _ rfl
  refine ⟨hown.1, ?_⟩
  split
  · exact hpark _ rfl
  · have hp := hblock _ rfl
    subst hp
    exact hown.2
  · exact absurd rfl (hres _)
  · trivial

theorem Base.timed {p : TimedPoint}
    (hpc : s.pc (s.cur c).index = .timed p) : Base (s.execTimed c p) := by
  have hown := h.own_cur hc
  rw [hpc] at hown
  cases p with
  | self cap ticks => exact h.of_local hc rfl rfl rfl rfl
  | now me cap wait => exact h.of_local hc rfl rfl rfl hown
  | arm me cap deadline =>
    refine h.of_local hc rfl rfl rfl ⟨?_, trivial⟩
    rintro me' d ⟨⟩
    exact hown
  | disarm me r => exact h.of_local hc rfl rfl rfl trivial

theorem Base.irq (hrun : s.m.phase c = .run)
    {cookie : UInt32} {p : IrqPoint} (hpc : s.pc (s.cur c).index = .waitIrq cookie p) :
    Base (s.execIrq c cookie p) := by
  have hown := h.own_cur hc
  rw [hpc] at hown
  cases p with
  | self => exact h.of_local hc rfl rfl rfl rfl
  | arm me =>
    simp only [execIrq]
    split
    · exact h.of_local hc rfl rfl rfl trivial
    · exact h.of_local hc rfl rfl rfl hown
  | takePending me =>
    refine h.of_local hc rfl rfl rfl ?_
    split <;> exact hown
  | disarmFast me => exact h.of_local hc rfl rfl rfl trivial
  | block me =>
    refine h.switchTo (p := .waitIrq cookie (.resumed me)) hc hrun ?_ hown fun _ => rfl
    nofun
  | resumed me => exact h.of_local hc rfl rfl rfl hown
  | disarm me => exact h.of_local hc rfl rfl rfl trivial

/-- A section that wakes or cancels a task besides moving its own. -/
theorem Base.of_wake (hrun : s.m.phase c = .run)
    (hm : s'.m = (s.m.wakeTask id).2 ∨ s'.m = cancelMachine s.m id) (htail : s'.tail = s.tail)
    (hpc : s'.pc = update s.pc (s.cur c).index p) (hown : p.Own (s.cur c)) :
    Base s' := by
  have hboth : s'.m.Inv ∧ Machine.Calm s.m s'.m ∧ s'.m.phase = s.m.phase := by
    rcases hm with hm | hm <;> rw [hm]
    · exact wake_calm h hc (.inl hrun) id
    · exact cancel_calm h hc (.inl hrun) id
  refine h.of_calm hc hboth.1 hboth.2.1 ?_ hpc hown
  rw [htail, hboth.2.2]
  exact h.tail

end

theorem afterTokens_elsewhere (y : Bool) (tokens : List UInt32) :
    (afterTokens y tokens).Elsewhere := by
  cases tokens <;> exact .inr ⟨_, _, rfl⟩

theorem afterIds_elsewhere (y : Bool) (ids : List TaskId) : (afterIds y ids).Elsewhere := by
  cases ids with
  | nil => cases y <;> exact .inl rfl
  | cons => exact .inr ⟨_, _, rfl⟩

theorem Base.poll (h : Base s) (hc : Up s.m.online c) (hrun : s.m.phase c = .run)
    (y : Bool) (p : PollPoint) : Base (s.execPoll c y p) := by
  cases p with
  | drain => exact h.of_local hc rfl rfl rfl ((afterTokens_elsewhere ..).own _)
  | wake token rest => exact h.of_wake hc hrun (.inl rfl) rfl rfl ((afterTokens_elsewhere ..).own _)
  | now => exact h.of_local hc rfl rfl rfl trivial
  | expire now => exact h.of_local hc rfl rfl rfl ((afterIds_elsewhere ..).own _)
  | clear id rest => exact h.of_local hc rfl rfl rfl trivial
  | cancel id rest => exact h.of_wake hc hrun (.inr rfl) rfl rfl ((afterIds_elsewhere ..).own _)

theorem Base.fresh_pc (h : Base s) {slot : ℕ} (hfree : s.m.tasks.freeSlot = some slot) :
    update s.pc (s.m.tasks.idAt slot).index (.user .none) = s.pc := by
  obtain ⟨hlt, hempty, -⟩ := Tasks.freeSlot_eq_some hfree
  rw [Tasks.idAt_index Machine.maxTasks_le s.m.tasks hlt, update_eq_self_iff]
  exact (h.empty slot hlt hempty).symm

section

variable (h : Base s) (hc : Up s.m.online c) (hrun : s.m.phase c = .run)
include h hc hrun

theorem execSpawn_create
    (cpu : ℕ) (held : List (Option CapId)) :
    ∃ m cancelWait creator caps p, s.execSpawn c (.create cpu held) = { s with
        m, cancelWait, creator, caps, pc := update s.pc (s.cur c).index p } ∧
      (p = .user .none ∨ p = .spawn (.register held)) ∧
      (∀ i, s.pc i ≠ .user .none → cancelWait i = s.cancelWait i) ∧
      (∀ i, cancelWait i = true → s.cancelWait i = true) ∧
      (∀ i, s.m.tasks.states i = .blocked → m.tasks.states i = .blocked) ∧
      m.Inv ∧ Machine.Calm s.m m ∧ m.phase = s.m.phase := by
  have hinv := Machine.act_inv (a := .spawn cpu) h.inv hc (by simp only [Machine.mayAct, hrun])
  have hcalm := Machine.act_calm (c := c) h.inv.tasks hc (.spawn cpu) ⟨by simp, by simp⟩
  have hsteady := fun i hi =>
    Machine.act_keeps_blocked (i := i) h.inv.tasks hc (.spawn cpu) hi (by simp)
  simp only [Machine.act] at hinv hcalm hsteady
  rcases Machine.spawnOn_cases h.inv.tasks cpu with heq | ⟨slot, q, -, hfree, -, heq⟩
  · rw [heq] at hinv hcalm hsteady
    simp only [execSpawn, heq]
    exact ⟨_, _, _, _, _, rfl, .inl rfl, fun _ _ => rfl, fun _ hset => hset, hsteady, hinv,
      hcalm, rfl⟩
  rw [heq] at hinv hcalm hsteady
  have hfresh := h.fresh_pc hfree
  simp only [execSpawn, heq, hfresh]
  refine ⟨_, _, _, _, _, rfl, .inr rfl, ?_, ?_, hsteady, hinv, hcalm, rfl⟩
  · intro i hi
    refine update_of_ne ?_ ..
    rintro rfl
    apply hi
    rw [← hfresh, update_self]
  intro i hset
  rw [update_apply] at hset
  split at hset
  · contradiction
  · exact hset

theorem execAdmin_startCpu1 :
    s.execAdmin c .startCpu1 = { s with
        m := s.m.startCpu1.2
        pc := update s.pc (s.cur c).index (.user .none) } ∧
      s.m.startCpu1.2.Inv ∧ Machine.Calm s.m s.m.startCpu1.2 := by
  refine ⟨?_, Machine.act_inv (a := .startCpu1) h.inv hc (by simp only [Machine.mayAct, hrun]),
    Machine.act_calm (c := c) h.inv.tasks hc .startCpu1 ⟨nofun, nofun⟩⟩
  simp only [execAdmin]
  split
  · rfl
  rename_i hoff
  have hidle : ¬ s.m.tasks.idle 1 ≠ Tasks.IDLE := fun hne => hoff (h.inv.tasks.cpu1.mpr hne)
  cases hfree : s.m.tasks.freeSlot with
  | none => simp [Machine.startCpu1, Tasks.startCpu1, hidle, hfree]
  | some slot =>
    simp only [Machine.startCpu1, Tasks.startCpu1, if_neg hidle, hfree, h.fresh_pc hfree]

theorem execAdmin_footprint
    (p : AdminPoint) (hp : ∀ id, p ≠ .cancel id) :
    ∃ m ipc taskCaps log p', s.execAdmin c p = { s with
        m, ipc, taskCaps, log, pc := update s.pc (s.cur c).index p' } ∧
      ((∃ q, p' = .admin q) ∨ p' = .user .none) ∧ Machine.Calm s.m m := by
  have hcalm := Machine.Calm.refl s.m
  cases p with
  | startCpu1 =>
    obtain ⟨heq, -, hcalm'⟩ := execAdmin_startCpu1 h hc hrun
    exact ⟨_, _, _, _, _, heq, .inr rfl, hcalm'⟩
  | markStealeable yes =>
    exact ⟨_, _, _, _, _, rfl, .inr rfl,
      Machine.act_calm (c := c) h.inv.tasks hc (.setStealeable (s.cur c) yes) ⟨nofun, nofun⟩⟩
  | mint id | createChannel ephemeral => exact ⟨_, _, _, _, _, rfl, .inr rfl, hcalm⟩
  | revoke cap =>
    simp only [execAdmin]
    split
    · exact ⟨_, _, _, _, _, rfl, .inl ⟨_, rfl⟩, hcalm⟩
    · exact ⟨_, _, _, _, _, rfl, .inr rfl, hcalm⟩
  | clear id => exact ⟨_, _, _, _, _, rfl, .inl ⟨_, rfl⟩, hcalm⟩
  | cancel id => exact absurd rfl (hp id)

theorem Base.spawn
    (p : SpawnPoint) : Base (s.execSpawn c p) := by
  cases p with
  | register held => exact h.of_local hc rfl rfl rfl trivial
  | create cpu held =>
    obtain ⟨m, _, _, _, p, heq, hp, -, -, -, hinv, hcalm, hphase⟩ :=
      execSpawn_create h hc hrun cpu held
    rw [heq]
    refine h.of_calm hc hinv hcalm ?_ rfl ?_
    · rw [hphase]
      exact h.tail
    · rcases hp with rfl | rfl <;> trivial

theorem Base.admin
    (p : AdminPoint) : Base (s.execAdmin c p) := by
  cases p with
  | startCpu1 =>
    obtain ⟨heq, hinv, hcalm⟩ := execAdmin_startCpu1 h hc hrun
    rw [heq]
    exact h.of_calm hc hinv hcalm h.tail rfl trivial
  | markStealeable yes =>
    have hinv := Machine.act_inv (a := .setStealeable (s.cur c) yes) h.inv hc
      (by simp only [Machine.mayAct, hrun])
    have hcalm := Machine.act_calm (c := c) h.inv.tasks hc (.setStealeable (s.cur c) yes)
      ⟨by simp, by simp⟩
    exact h.of_calm hc hinv hcalm h.tail rfl trivial
  | mint id | createChannel ephemeral => exact h.of_local hc rfl rfl rfl trivial
  | revoke cap =>
    simp only [execAdmin]
    split <;> exact h.of_local hc rfl rfl rfl trivial
  | clear id => exact h.of_local hc rfl rfl rfl trivial
  | cancel id => exact h.of_wake hc hrun (.inr rfl) rfl rfl trivial

theorem Base.task
    (hs : s.execTask c = some s') : Base s' := by
  unfold execTask at hs
  split at hs
  · contradiction
  · rename_i hpc
    exact Option.some.inj hs ▸ h.recv hc hrun hpc
  · rename_i hpc
    exact Option.some.inj hs ▸ h.timed hc hpc
  · rename_i cap msg p hpc
    rw [← Option.some.inj hs]
    by_cases hw : ∃ id, p = .wake id
    · obtain ⟨id, rfl⟩ := hw
      exact h.of_wake hc hrun (.inl rfl) rfl rfl trivial
    obtain ⟨ipc, p', heq, hp'⟩ := execSend_footprint s c cap msg p fun id hid => hw ⟨id, hid⟩
    rw [heq]
    rcases hp' with ⟨q, rfl⟩ | rfl <;> exact h.of_local hc rfl rfl rfl trivial
  · rename_i hpc
    exact Option.some.inj hs ▸ h.irq hc hrun hpc
  · exact Option.some.inj hs ▸ h.poll hc hrun _ _
  · exact Option.some.inj hs ▸ h.spawn hc hrun _
  · rename_i p hpc
    rw [← Option.some.inj hs]
    obtain ⟨caps, ipc, p', heq, hp'⟩ := execGrant_footprint s c p
    rw [heq]
    rcases hp' with ⟨q, rfl⟩ | rfl | ⟨r, rfl⟩ <;> exact h.of_local hc rfl rfl rfl trivial
  · exact Option.some.inj hs ▸ h.admin hc hrun _
  · rw [← Option.some.inj hs]
    exact h.switchTo hc hrun (by decide) trivial (by decide)
  · exact Option.some.inj hs ▸ h.exit hc hrun
  · contradiction

end

structure Direct (s : Kernel) (c : ℕ) (s' : Kernel) : Prop where
  old : (s.pc (s.cur c).index).direct = true
  point : ∃ p, p.direct = true ∧ s'.pc = update s.pc (s.cur c).index p
  flag : ∀ i, s.pc i ≠ .user .none → s'.cancelWait i = s.cancelWait i
  reset : ∀ i, s'.cancelWait i = true → s.cancelWait i = true
  hit : s'.hit = s.hit
  deadlines : s'.deadlines = s.deadlines
  waits : s'.waits = s.waits
  delivered : s'.delivered = s.delivered
  queue : s'.queue = s.queue
  hand : s'.hand = s.hand

/-- The sections of a task: of the four functions that wait or poll, a cancel, a switch, or
another one, which is direct. -/
theorem execTask_cases (h : Base s) (hc : Up s.m.online c) (hrun : s.m.phase c = .run)
    (hs : s.execTask c = some s') :
    (∃ cap limit p, s.pc (s.cur c).index = .recv cap limit p ∧ s' = s.execRecv c cap limit p) ∨
    (∃ p, s.pc (s.cur c).index = .timed p ∧ s' = s.execTimed c p) ∨
    (∃ cookie p, s.pc (s.cur c).index = .waitIrq cookie p ∧ s' = s.execIrq c cookie p) ∨
    (∃ y p, s.pc (s.cur c).index = .poll y p ∧ s' = s.execPoll c y p) ∨
    (∃ id, s.pc (s.cur c).index = .admin (.cancel id) ∧ s' = s.execAdmin c (.cancel id)) ∨
    (Direct s c s' ∧ s'.cancelWait = s.cancelWait ∧ ∃ kind, s'.m = s.m.switchWith c kind) ∨
    (Direct s c s' ∧ Machine.Calm s.m s'.m) := by
  have hcalm := Machine.Calm.refl s.m
  unfold execTask at hs
  split at hs
  · contradiction
  · rename_i hpc
    exact .inl ⟨_, _, _, hpc, (Option.some.inj hs).symm⟩
  · rename_i hpc
    exact .inr (.inl ⟨_, hpc, (Option.some.inj hs).symm⟩)
  · rename_i cap msg p hpc
    have hold : (s.pc (s.cur c).index).direct = true := by rw [hpc]; rfl
    rw [← Option.some.inj hs]
    iterate 6 right
    by_cases hw : ∃ id, p = .wake id
    · obtain ⟨id, rfl⟩ := hw
      exact ⟨⟨hold, ⟨_, rfl, rfl⟩, fun _ _ => rfl, fun _ h => h, rfl, rfl, rfl, rfl, rfl, rfl⟩,
        (wake_calm h hc (.inl hrun) id).2.1⟩
    obtain ⟨ipc, p', heq, hp'⟩ := execSend_footprint s c cap msg p fun id hid => hw ⟨id, hid⟩
    rw [heq]
    refine ⟨⟨hold, ⟨p', ?_, rfl⟩, fun _ _ => rfl, fun _ h => h, rfl, rfl, rfl, rfl, rfl, rfl⟩,
      hcalm⟩
    rcases hp' with ⟨q, rfl⟩ | rfl <;> rfl
  · rename_i hpc
    exact .inr (.inr (.inl ⟨_, _, hpc, (Option.some.inj hs).symm⟩))
  · rename_i hpc
    exact .inr (.inr (.inr (.inl ⟨_, _, hpc, (Option.some.inj hs).symm⟩)))
  · rename_i p hpc
    have hold : (s.pc (s.cur c).index).direct = true := by rw [hpc]; rfl
    rw [← Option.some.inj hs]
    iterate 6 right
    cases p with
    | register held =>
      exact ⟨⟨hold, ⟨_, rfl, rfl⟩, fun _ _ => rfl, fun _ h => h, rfl, rfl, rfl, rfl, rfl, rfl⟩,
        hcalm⟩
    | create cpu held =>
      obtain ⟨_, _, _, _, p, heq, hp, hflag, hreset, -, -, hcalm', -⟩ :=
        execSpawn_create h hc hrun cpu held
      rw [heq]
      refine ⟨⟨hold, ⟨p, ?_, rfl⟩, hflag, hreset, rfl, rfl, rfl, rfl, rfl, rfl⟩, hcalm'⟩
      rcases hp with rfl | rfl <;> rfl
  · rename_i p hpc
    have hold : (s.pc (s.cur c).index).direct = true := by rw [hpc]; rfl
    obtain ⟨_, _, p', heq, hp'⟩ := execGrant_footprint s c p
    rw [← Option.some.inj hs, heq]
    iterate 6 right
    refine ⟨⟨hold, ⟨p', ?_, rfl⟩, fun _ _ => rfl, fun _ h => h, rfl, rfl, rfl, rfl, rfl, rfl⟩,
      hcalm⟩
    rcases hp' with ⟨q, rfl⟩ | rfl | ⟨r, rfl⟩ <;> rfl
  · rename_i p hpc
    have hold : (s.pc (s.cur c).index).direct = true := by rw [hpc]; rfl
    rw [← Option.some.inj hs]
    by_cases hcancel : ∃ id, p = .cancel id
    · obtain ⟨id, rfl⟩ := hcancel
      exact .inr (.inr (.inr (.inr (.inl ⟨id, hpc, rfl⟩))))
    iterate 6 right
    obtain ⟨_, _, _, _, p', heq, hp', hcalm'⟩ :=
      execAdmin_footprint h hc hrun p fun id hid => hcancel ⟨id, hid⟩
    rw [heq]
    refine ⟨⟨hold, ⟨p', ?_, rfl⟩, fun _ _ => rfl, fun _ h => h, rfl, rfl, rfl, rfl, rfl, rfl⟩,
      hcalm'⟩
    rcases hp' with ⟨q, rfl⟩ | rfl <;> rfl
  · rename_i hpc
    rw [← Option.some.inj hs]
    refine .inr (.inr (.inr (.inr (.inr (.inl ⟨⟨by rw [hpc]; rfl, ⟨.user .none, rfl, rfl⟩,
      fun _ _ => rfl, fun _ h => h, rfl, rfl, rfl, rfl, rfl, rfl⟩, rfl, _, rfl⟩)))))
  · rename_i hpc
    rw [← Option.some.inj hs]
    refine .inr (.inr (.inr (.inr (.inr (.inl ?_)))))
    unfold execExit
    split
    · exact ⟨⟨by rw [hpc]; rfl, ⟨.halted, rfl, rfl⟩, fun _ _ => rfl, fun _ h => h, rfl, rfl,
        rfl, rfl, rfl, rfl⟩, rfl, _, rfl⟩
    · exact ⟨⟨by rw [hpc]; rfl, ⟨.user .none, rfl, rfl⟩, fun _ _ => rfl, fun _ h => h, rfl, rfl,
        rfl, rfl, rfl, rfl⟩, rfl, _, rfl⟩
  · contradiction

/-- The remaining sections of a switch only advance the processor. -/
theorem Base.machine (h : Base s) (hm : s.m.step (.exec c) = some m)
    (hdone : ∀ v, s.m.phase c = .tail v → s.tail c = .done) : Base { s with m } := by
  obtain ⟨-, -, hcalm, hphase⟩ := Machine.step_exec_frame hm
  refine ⟨Machine.step_inv h.inv hm, ?_, ?_, ?_, ?_⟩
  · intro d hd
    by_cases hdc : d = c
    · subst hdc
      obtain ⟨v, hv, -⟩ := h.tail d hd
      rw [hdone v hv] at hd
      contradiction
    · simpa only [hphase d hdc] using h.tail d hd
  · intro i hi
    simpa only [hcalm.idAt] using h.own i hi
  · intro i hi hb
    exact h.parked i hi (hcalm.blocked i hb)
  · intro i hi he
    exact h.empty i hi (hcalm.empty i he)

variable {i : ℕ}

theorem cancel_flag
    (hflag : s'.cancelWait = if s.m.tasks.state id = some .blocked then update s.cancelWait
      id.index true else s.cancelWait) (hset : s.cancelWait i = true) : s'.cancelWait i = true := by
  rw [hflag]
  split
  · rw [update_apply]
    split
    · rfl
    · exact hset
  · exact hset

/-- A section of one task leaves the point of every other slot alone and resets no cancel
flag of a slot in the kernel. -/
theorem execTask_others (h : Base s) (hc : Up s.m.online c) (hrun : s.m.phase c = .run)
    (hs : s.execTask c = some s') (hi : i ≠ (s.cur c).index) :
    s'.pc i = s.pc i ∧
      (s.pc i ≠ .user .none → s.cancelWait i = true → s'.cancelWait i = true) := by
  have hmove : ∀ {s1 : Kernel} {p : Pc}, s1.pc = update s.pc (s.cur c).index p →
      (s.pc i ≠ .user .none → s.cancelWait i = true → s1.cancelWait i = true) →
      s1.pc i = s.pc i ∧
        (s.pc i ≠ .user .none → s.cancelWait i = true → s1.cancelWait i = true) := by
    intro s1 p hpc hflag
    exact ⟨by rw [hpc, update_of_ne hi], hflag⟩
  have hdirect : Direct s c s' → s'.pc i = s.pc i ∧
      (s.pc i ≠ .user .none → s.cancelWait i = true → s'.cancelWait i = true) := by
    intro hp
    obtain ⟨p, -, hpc⟩ := hp.point
    exact hmove hpc fun huser hset => (hp.flag i huser).trans hset
  rcases execTask_cases h hc hrun hs with ⟨cap, limit, p, -, rfl⟩ | ⟨p, -, rfl⟩ |
    ⟨cookie, p, -, rfl⟩ | ⟨y, p, -, rfl⟩ | ⟨id, -, rfl⟩ | ⟨hp, -⟩ | ⟨hp, -⟩
  · by_cases hb : ∃ me, p = .block me
    · obtain ⟨me, rfl⟩ := hb
      exact hmove rfl fun _ hset => hset
    have hflag := @execRecv_cancelWait_of_ne s c cap limit p i hi
    obtain ⟨_, _, _, heq, -⟩ := execRecv_footprint s c cap limit p fun me hme => hb ⟨me, hme⟩
    rw [heq] at hflag ⊢
    exact hmove rfl fun _ hset => hflag.trans hset
  · obtain ⟨_, _, _, heq, -⟩ := execTimed_footprint s c p
    rw [heq]
    exact hmove rfl fun _ hset => hset
  · by_cases hb : ∃ me, p = .block me
    · obtain ⟨me, rfl⟩ := hb
      exact hmove rfl fun _ hset => hset
    obtain ⟨_, _, _, heq, -⟩ := execIrq_footprint s c cookie p fun me hme => hb ⟨me, hme⟩
    rw [heq]
    exact hmove rfl fun _ hset => hset
  · cases p with
    | cancel id rest => exact hmove rfl fun _ => cancel_flag rfl
    | _ => exact hmove rfl fun _ hset => hset
  · exact hmove rfl fun _ => cancel_flag rfl
  · exact hdirect hp
  · exact hdirect hp

/-- A task inside the kernel moves only by its own sections, and nobody else takes its
cancel flag. -/
theorem step_frame (h : Base s) (hs : s.step l = some s') (huser : (s.pc i).isUser = false) :
    (s'.pc i = s.pc i ∧ (s.cancelWait i = true → s'.cancelWait i = true)) ∨
    ∃ c, l = .exec c ∧ s.free c ∧ s.m.phase c = .run ∧ i = (s.cur c).index ∧
      s.execTask c = some s' := by
  have hne : s.pc i ≠ .user .none := by
    intro he
    rw [he] at huser
    contradiction
  have hsame : ∀ {s1 : Kernel}, s1.pc = s.pc → s1.cancelWait = s.cancelWait →
      s1.pc i = s.pc i ∧ (s.cancelWait i = true → s1.cancelWait i = true) := by
    intro s1 hpc hflag
    rw [hpc, hflag]
    exact ⟨rfl, fun hset => hset⟩
  rcases step_cases hs with ⟨c, f, -, hfree, -, hcall, -, rfl⟩ | ⟨c, rfl, hfree, hrun, hex⟩ |
    ⟨c, v, -, hfree, -, hbusy, rfl⟩ | ⟨c, m, -, -, hm, rfl, -⟩ | ⟨c, -, hfree, hrun, rfl⟩ |
    ⟨c, cookie, -, -, -, rfl⟩ | ⟨c, task, -, -, rfl⟩ | ⟨-, rfl⟩
  · left
    have hik : i ≠ (s.cur c).index := by
      rintro rfl
      rw [huser] at hcall
      contradiction
    exact ⟨update_of_ne hik .., fun hset => hset⟩
  · by_cases hik : i = (s.cur c).index
    · exact .inr ⟨c, rfl, hfree, hrun, hik, hex⟩
    · obtain ⟨hpc, hflag⟩ := execTask_others h hfree.1 hrun hex hik
      exact .inl ⟨hpc, hflag hne⟩
  · left
    cases s.tail c with
    | reap id rest | cancel id rest =>
      exact ⟨rfl, cancel_flag rfl⟩
    | _ => exact hsame rfl rfl
  · exact .inl (hsame rfl rfl)
  · exact .inl (hsame rfl rfl)
  · left
    unfold Kernel.signal
    split <;> exact hsame rfl rfl
  · exact .inl (hsame rfl rfl)
  · exact .inl (hsame rfl rfl)

theorem Base.step (h : Base s) (hs : s.step l = some s') : Base s' := by
  rcases step_cases hs with ⟨c, f, -, hfree, -, -, -, rfl⟩ | ⟨c, -, hfree, hrun, hex⟩ |
    ⟨c, v, -, hfree, -, hbusy, rfl⟩ | ⟨c, m, -, -, hm, rfl, hdone⟩ | ⟨c, -, hfree, hrun, rfl⟩ |
    ⟨c, cookie, -, -, -, rfl⟩ | ⟨c, task, -, -, rfl⟩ | ⟨-, rfl⟩
  · exact h.of_local hfree.1 rfl rfl rfl (entry_own ..)
  · exact h.task hfree.1 hrun hex
  · exact h.tailStep hfree.1 hbusy v.from'
  · exact h.machine hm hdone
  · have hown := h.own_cur hfree.1
    refine h.of_switch hfree.1 hrun rfl (pc_self s _) (fun _ _ => rfl) ?_
      (fun id hid => hid (by decide) ▸ hown) nofun nofun
    intro hb
    obtain ⟨v, hv, -⟩ := h.tail c hb
    rw [hrun] at hv
    contradiction
  · unfold Kernel.signal
    split <;> exact ⟨h.inv, h.tail, h.own, h.parked, h.empty⟩
  · exact ⟨h.inv, h.tail, h.own, h.parked, h.empty⟩
  · exact ⟨h.inv, h.tail, h.own, h.parked, h.empty⟩

theorem boot_base (ipc : Ipc.Table maxMailboxes maxEndpoints mailboxDepth) : Base (boot ipc) where
  inv := Machine.boot_inv
  tail := by
    intro c hc
    contradiction
  own := by
    intro i _
    trivial
  parked := by
    intro i _ hb
    by_cases hi : i = 0
    · subst hi
      contradiction
    have hstates : (boot ipc).m.tasks.states i = .empty := by
      change update _ 0 _ i = _
      rw [update_of_ne hi]
      rfl
    rw [hstates] at hb
    contradiction
  empty := by
    intro i _ _
    rfl

theorem reach_boot (created : List Bool) :
    Reach Boot Kernel.step ok (boot (channels created)) := Reach.start ⟨created, rfl⟩

theorem reach_base (h : Reach Boot Kernel.step ok s) : Base s := by
  refine h.invariant (I := Base) ?_ ?_
  · rintro s ⟨created, rfl⟩
    exact boot_base _
  · intro s l s' hb _ hs
    exact hb.step hs

def target (s : Kernel) (c : ℕ) : Option TaskId :=
  match s.m.phase c with
  | .run => (s.pc (s.cur c).index).target
  | .tail _ => (s.tail c).target
  | _ => none

theorem target_run (hrun : s.m.phase c = .run) : s.target c = (s.pc (s.cur c).index).target := by
  simp only [target, hrun]

theorem target_tail {v : Leaving} (hp : s.m.phase c = .tail v) :
    s.target c = (s.tail c).target := by
  simp only [target, hp]

theorem cancelMachine_not_blocked (h : m.tasks.Inv m.online) (id : TaskId) :
    (cancelMachine m id).tasks.state id ≠ some .blocked := by
  unfold cancelMachine
  split
  · exact Machine.wakeTask_not_blocked h id
  · assumption

theorem state_idAt (hi : i < maxTasks) :
    m.tasks.state (m.tasks.idAt i) = some (m.tasks.states i) := by
  have hidx := Tasks.idAt_index Machine.maxTasks_le m.tasks hi
  rw [Tasks.state, hidx, if_pos ⟨hi, (TaskId.epoch_new ..).symm⟩]

def MachineStep (s : Kernel) (l : Label) (m' : Machine) : Prop :=
  m' = s.m ∨
  (∃ c a, s.m.step (.act c a) = some m' ∧
    ∀ id, a = .wake id → l = .exec c ∧ s.target c = some id) ∨
  ∃ c, s.m.step (.exec c) = some m'

theorem machineStep_act (hc : Up s.m.online c) {a : Act} (hmay : s.m.mayAct c a = true)
    (ha : ∀ id, a = .wake id → l = .exec c ∧ s.target c = some id) :
    MachineStep s l (s.m.act c a) :=
  .inr (.inl ⟨c, a, by simp only [Machine.step, hc, hmay, and_self, if_true], ha⟩)

section

variable (h : Base s) (hc : Up s.m.online c) (hmay : s.m.phase c = .run ∨ (s.tail c).busy = true)
  (htarget : s.target c = some id)
include h hc hmay htarget

theorem machineStep_wake :
    MachineStep s (.exec c) (s.m.wakeTask id).2 := by
  refine machineStep_act (a := .wake id) hc (mayWake h hmay id) ?_
  rintro _ ⟨⟩
  exact ⟨rfl, htarget⟩

theorem machineStep_cancel :
    MachineStep s (.exec c) (cancelMachine s.m id) := by
  unfold cancelMachine
  split
  · exact machineStep_wake h hc hmay htarget
  · exact .inl rfl

end

theorem machineStep_task (h : Base s) (hc : Up s.m.online c) (hrun : s.m.phase c = .run)
    (hs : s.execTask c = some s') : MachineStep s (.exec c) s'.m := by
  have hact : ∀ a, (∀ id, a ≠ .wake id) → MachineStep s (.exec c) (s.m.act c a) := fun a ha =>
    machineStep_act hc (by simp only [Machine.mayAct, hrun]) fun id hid => absurd hid (ha id)
  unfold execTask at hs
  split at hs
  · contradiction
  · rename_i cap limit p _
    rw [← Option.some.inj hs]
    by_cases hb : ∃ me, p = .block me
    · obtain ⟨me, rfl⟩ := hb
      exact hact (.switch .block) (by simp)
    obtain ⟨_, _, _, heq, -⟩ := execRecv_footprint s c cap limit p fun me hme => hb ⟨me, hme⟩
    rw [heq]
    exact .inl rfl
  · rename_i p _
    obtain ⟨_, _, _, heq, -⟩ := execTimed_footprint s c p
    rw [← Option.some.inj hs, heq]
    exact .inl rfl
  · rename_i cap msg p hpc
    rw [← Option.some.inj hs]
    by_cases hw : ∃ id, p = .wake id
    · obtain ⟨id, rfl⟩ := hw
      exact machineStep_wake h hc (.inl hrun) (by rw [target_run hrun, hpc]; rfl)
    obtain ⟨_, _, heq, -⟩ := execSend_footprint s c cap msg p fun id hid => hw ⟨id, hid⟩
    rw [heq]
    exact .inl rfl
  · rename_i cookie p _
    rw [← Option.some.inj hs]
    by_cases hb : ∃ me, p = .block me
    · obtain ⟨me, rfl⟩ := hb
      exact hact (.switch .block) (by simp)
    obtain ⟨_, _, _, heq, -⟩ := execIrq_footprint s c cookie p fun me hme => hb ⟨me, hme⟩
    rw [heq]
    exact .inl rfl
  · rename_i y p hpc
    rw [← Option.some.inj hs]
    cases p with
    | wake token rest =>
      exact machineStep_wake h hc (.inl hrun) (by rw [target_run hrun, hpc]; rfl)
    | cancel id rest =>
      exact machineStep_cancel h hc (.inl hrun) (by rw [target_run hrun, hpc]; rfl)
    | _ => exact .inl rfl
  · rename_i p _
    rw [← Option.some.inj hs]
    cases p with
    | register held => exact .inl rfl
    | create cpu held =>
      have hspawn := hact (.spawn cpu) (by simp)
      simp only [execSpawn]
      split <;> rename_i heq <;> simpa only [Machine.act, heq] using hspawn
  · rename_i p _
    obtain ⟨_, _, _, heq, -⟩ := execGrant_footprint s c p
    rw [← Option.some.inj hs, heq]
    exact .inl rfl
  · rename_i p hpc
    rw [← Option.some.inj hs]
    cases p with
    | startCpu1 => exact hact .startCpu1 (by simp)
    | markStealeable yes => exact hact (.setStealeable (s.cur c) yes) (by simp)
    | revoke cap =>
      simp only [execAdmin]
      split <;> exact .inl rfl
    | cancel id =>
      exact machineStep_cancel h hc (.inl hrun) (by rw [target_run hrun, hpc]; rfl)
    | _ => exact .inl rfl
  · rw [← Option.some.inj hs]
    exact hact (.switch .yield) (by simp)
  · rw [← Option.some.inj hs]
    unfold execExit
    split <;> exact hact (.switch .exit) (by simp)
  · contradiction

theorem step_machine (h : Base s) (hs : s.step l = some s') :
    MachineStep s l s'.m := by
  rcases step_cases hs with ⟨c, f, -, -, -, -, -, rfl⟩ | ⟨c, rfl, hfree, hrun, hex⟩ |
    ⟨c, v, rfl, hfree, hp, hbusy, rfl⟩ | ⟨c, m, -, -, hm, rfl, -⟩ | ⟨c, -, hfree, hrun, rfl⟩ |
    ⟨c, cookie, -, -, -, rfl⟩ | ⟨c, task, -, -, rfl⟩ | ⟨-, rfl⟩
  · exact .inl rfl
  · exact machineStep_task h hfree.1 hrun hex
  · cases ht : s.tail c with
    | reap id rest | cancel id rest =>
      exact machineStep_cancel h hfree.1 (.inr hbusy) (by rw [target_tail hp, ht]; rfl)
    | _ => exact .inl rfl
  · exact .inr (.inr ⟨c, hm⟩)
  · exact machineStep_act (a := .switch .preempt) hfree.1 (by simp only [Machine.mayAct, hrun])
      nofun
  · unfold Kernel.signal
    split <;> exact .inl rfl
  · exact .inl rfl
  · exact .inl rfl

/-- The scheduler of every kernel run is a run of the two processors. -/
theorem reach_machine (h : Reach Boot Kernel.step ok s) :
    Reach Machine.Boot Machine.step (fun _ _ => True) s.m := by
  induction h with
  | start h0 =>
    obtain ⟨created, rfl⟩ := h0
    exact Reach.start rfl
  | next hr _ hs ih =>
    rcases step_machine (reach_base hr) hs with heq | ⟨c, a, hl, -⟩ | ⟨c, hl⟩
    · rw [heq]
      exact ih
    · exact Reach.next ih trivial hl
    · exact Reach.next ih trivial hl

/-- A blocked slot stays blocked until a section wakes or cancels its task. -/
theorem step_blocked (h : Base s) (hs : s.step l = some s') (hi : s.m.tasks.states i = .blocked) :
    s'.m.tasks.states i = .blocked ∨ ∃ c id, l = .exec c ∧ s.target c = some id ∧
      s.m.tasks.state id = some .blocked ∧ i = id.index := by
  rcases step_machine h hs with heq | ⟨c, a, hl, ha⟩ | ⟨c, hl⟩
  · rw [heq]
    exact .inl hi
  · by_cases hw : ∃ id, a = .wake id ∧ s.m.tasks.state id = some .blocked ∧ i = id.index
    · obtain ⟨id, rfl, hstate, hidx⟩ := hw
      obtain ⟨hexec, htarget⟩ := ha id rfl
      exact .inr ⟨c, id, hexec, htarget, hstate, hidx⟩
    obtain ⟨hc, -, heq⟩ := Machine.step_act hl
    rw [heq]
    refine .inl (Machine.act_keeps_blocked h.inv.tasks hc a hi ?_)
    intro id hid hstate hidx
    exact hw ⟨id, hid, hstate, hidx⟩
  · rw [(Machine.step_exec_frame hl).1]
    exact .inl hi

/-- An idle identity only ever changes to a slot that was empty. -/
theorem step_idle (h : Base s) (hs : s.step l = some s') (d : ℕ) :
    s'.m.tasks.idle d = s.m.tasks.idle d ∨ ∃ slot, slot < maxTasks ∧
      s.m.tasks.states slot = .empty ∧ s'.m.tasks.idle d = s.m.tasks.idAt slot := by
  rcases step_machine h hs with heq | ⟨c, a, hl, -⟩ | ⟨c, hl⟩
  · rw [heq]
    exact .inl rfl
  · obtain ⟨hc, -, heq⟩ := Machine.step_act hl
    rw [heq]
    exact Machine.act_idle h.inv.tasks hc a d
  · rw [(Machine.step_exec_frame hl).2.1]
    exact .inl rfl

end Kernel

def execs (c n : ℕ) : List Label := List.replicate n (.exec c)

namespace Kernel

/-- A task has been spawned, and the idle task has yielded to it. -/
theorem reach_machine_spawned : ∃ s : Kernel, s.m.tasks.current 0 = TaskId.new 1 0 ∧
    Reach Machine.Boot Machine.step (fun _ _ => True) s.m := by
  have hstart : Reach Boot Kernel.step (fun _ _ => True) _ := reach_boot []
  obtain ⟨s, hreach, hcur⟩ := hstart.exists_run
    (P := fun s => s.m.tasks.current 0 = TaskId.new 1 0)
    ([.call 0 (.spawnOn 0 [])] ++ execs 0 2 ++ [.call 0 .yieldNow] ++ execs 0 7)
    (by decide +kernel)
  exact ⟨s, hcur, reach_machine hreach⟩

/-- In every run the point of a task fits the state of its slot: what a call remembers as its own
id is the tenant's, a blocked task stands right after a blocking section, an empty slot is in no
call, and an exit path runs only on a processor that exits. -/
theorem points_fit_slots {s : Kernel} {ok : Kernel → Label → Prop}
    (h : Reach Boot Kernel.step ok s) :
    (∀ i, i < maxTasks → (s.pc i).Own (s.m.tasks.idAt i) ∧
      (s.m.tasks.states i = .blocked → (s.pc i).resumes = true) ∧
      (s.m.tasks.states i = .empty → s.pc i = .user .none)) ∧
    (∀ c, (s.tail c).busy = true → ∃ v, s.m.phase c = .tail v ∧ v.exits = true) ∧
    ∀ c, Up s.m.online c → s.m.tasks.Sits (s.cur c) .running c := by
  have hb := reach_base h
  exact ⟨fun i hi => ⟨hb.own i hi, hb.parked i hi, hb.empty i hi⟩, hb.tail, fun c => hb.cur_sits⟩

/-- A receiver has blocked on an empty mailbox. -/
theorem points_fit_slots_blocked : ∃ s : Kernel, s.m.tasks.states 1 = .blocked ∧
    (s.pc 1).resumes = true ∧ s.m.tasks.Sits (s.cur 0) .running 0 := by
  have hstart : Reach Boot Kernel.step (fun _ _ => True) _ := reach_boot [false]
  obtain ⟨s, hreach, hblocked⟩ := hstart.exists_run (P := fun s => s.m.tasks.states 1 = .blocked)
    ([.call 0 (.spawnOn 0 [some (CapId.new 1 1)])] ++ execs 0 2 ++ [.call 0 .yieldNow] ++
      execs 0 7 ++ [.call 0 (.recv (CapId.new 1 1))] ++ execs 0 10) (by decide +kernel)
  obtain ⟨hpoints, -, hcur⟩ := points_fit_slots hreach
  exact ⟨s, hblocked, (hpoints 1 (by decide)).2.1 hblocked, hcur 0 (.inl rfl)⟩

end Kernel

end HarborKernel.LockSections
