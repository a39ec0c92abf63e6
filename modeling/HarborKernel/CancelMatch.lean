import HarborKernel.SectionSteps

/-!
Cancellations and the receives that they end.
The cancel flag lives with the task and only `recv` reads it, so a cancel of a task
that is blocked in `wait_for_irq` sets a flag for a later receive. In runs without
such a cancel, a receive that finds the flag has been cancelled during that very
call; `hit` remembers the cancels of a task since its call started.
-/

namespace HarborKernel.LockSections

open Function Capability ReadyQueue TaskTable Ipc IrqWait Processors Transition

def Pc.cancelAnswer : Pc → Bool
  | .user (.received ⟨.error .cancelled, true⟩) => true
  | .timed (.disarm _ ⟨.error .cancelled, true⟩) => true
  | _ => false

def Pc.woken : Pc → Option TaskId
  | .send _ _ (.wake id) => some id
  | .poll _ (.wake token _) => some (TaskId.fromRaw token)
  | _ => none

def Pc.cancelled : Pc → Option TaskId
  | .poll _ (.cancel id _) => some id
  | .admin (.cancel id) => some id
  | _ => none

theorem Pc.Elsewhere.cancelAnswer {p : Pc} (h : p.Elsewhere) : p.cancelAnswer = false := by
  rcases h with h | ⟨y, q, rfl⟩
  · unfold Pc.direct at h
    split at h <;> first | rfl | contradiction
  · rfl

namespace Kernel

variable {s s' : Kernel} {c : ℕ}

def blockedInIrq (s : Kernel) (id : TaskId) : Bool :=
  s.m.tasks.state id = some .blocked &&
    match s.pc id.index with
    | .waitIrq _ _ => true
    | _ => false

def wakesMatch (s : Kernel) : Label → Bool
  | .exec c =>
    match s.m.phase c with
    | .run =>
      ((s.pc (s.cur c).index).woken.all fun id => !s.blockedInIrq id || s.waits.isPending id) &&
        (s.pc (s.cur c).index).cancelled.all fun id => !s.blockedInIrq id
    | .tail _ => (s.tail c).target.all fun id => !s.blockedInIrq id
    | _ => true
  | _ => true

structure Flagged (s : Kernel) : Prop where
  flag : ∀ i, i < maxTasks → s.cancelWait i = true →
    s.hit i = true ∧ ∃ cap limit me, s.pc i = .recv cap limit (.resumed me)
  answer : ∀ i, i < maxTasks → (s.pc i).cancelAnswer = true → s.hit i = true

theorem Flagged.of_frame (h : Flagged s) {k : ℕ} (hpc : ∀ i, i ≠ k → s'.pc i = s.pc i)
    (hflag : ∀ i, i ≠ k → s'.cancelWait i = true → s.cancelWait i = true)
    (hhit : ∀ i, i ≠ k → s.hit i = true → s'.hit i = true)
    (hself : s'.cancelWait k = true →
      s'.hit k = true ∧ ∃ cap limit me, s'.pc k = .recv cap limit (.resumed me))
    (hanswer : (s'.pc k).cancelAnswer = true → s'.hit k = true) : Flagged s' := by
  constructor
  · intro i hi hset
    by_cases hik : i = k
    · subst hik
      exact hself hset
    obtain ⟨hh, hres⟩ := h.flag i hi (hflag i hik hset)
    rw [hpc i hik]
    exact ⟨hhit i hik hh, hres⟩
  · intro i hi hcancel
    by_cases hik : i = k
    · subst hik
      exact hanswer hcancel
    · rw [hpc i hik] at hcancel
      exact hhit i hik (h.answer i hi hcancel)

variable {limit : Option (TaskId × ℕ)} {p : Pc} {cap : CapId}

/-- A section at a point other than `resumed`, which leaves flags and cancels alone. -/
theorem Flagged.of_quiet (h : Flagged s) (hb : Base s) (hc : Up s.m.online c)
    (hold : ∀ cap limit me, s.pc (s.cur c).index ≠ .recv cap limit (.resumed me))
    (hpc : s'.pc = update s.pc (s.cur c).index p)
    (hflag : ∀ i, s'.cancelWait i = true → s.cancelWait i = true)
    (hhit : ∀ i, i ≠ (s.cur c).index → s'.hit i = s.hit i) (hp : p.cancelAnswer = false) :
    Flagged s' := by
  refine h.of_frame (k := (s.cur c).index) ?_ (fun i _ => hflag i) ?_ ?_ ?_
  · intro i hi
    rw [hpc, update_of_ne hi]
  · intro i hi hset
    rwa [hhit i hi]
  · intro hset
    obtain ⟨-, cap, limit, me, hres⟩ := h.flag _ (hb.cur_sits hc).lt (hflag _ hset)
    exact absurd hres (hold cap limit me)
  · intro hcancel
    rw [hpc, update_self, hp] at hcancel
    contradiction

/-- `prepare_cancel_blocked` of a task that is not waiting for an interrupt. -/
theorem Flagged.of_cancel (h : Flagged s) (hb : Base s) {id : TaskId}
    (hguard : s.blockedInIrq id = false)
    (hflag : s'.cancelWait = if s.m.tasks.state id = some .blocked then
      update s.cancelWait id.index true else s.cancelWait)
    (hhit : s'.hit = if s.m.tasks.state id = some .blocked ∧ (s.m.wakeTask id).1 = true then
      update s.hit id.index true else s.hit)
    (hres : ∀ i cap limit me, s.pc i = .recv cap limit (.resumed me) →
      s'.pc i = .recv cap limit (.resumed me))
    (hanswer : ∀ i, (s'.pc i).cancelAnswer = true → (s.pc i).cancelAnswer = true) :
    Flagged s' := by
  have hwake : s.m.tasks.state id = some .blocked → (s.m.wakeTask id).1 = true := by
    intro hstate
    rcases Tasks.wake_cases hb.inv.tasks id with ⟨hno, -⟩ | ⟨q, -, -, heq⟩
    · exact absurd hstate hno
    · simp only [Machine.wakeTask, heq]
  have hkept : ∀ i, s.hit i = true → s'.hit i = true := by
    intro i hi
    rw [hhit]
    split
    · rw [update_apply]
      split
      · rfl
      · exact hi
    · exact hi
  constructor
  · intro i hi hset
    by_cases hold : s.cancelWait i = true
    · obtain ⟨hh, cap, limit, me, hpc⟩ := h.flag i hi hold
      exact ⟨hkept i hh, cap, limit, me, hres i cap limit me hpc⟩
    rw [hflag] at hset
    split at hset
    · rename_i hstate
      rw [update_apply] at hset
      split at hset
      · rename_i hidx
        obtain ⟨-, -, hblocked⟩ := Tasks.state_eq_some hstate
        have hpoint := hb.parked i hi (hidx ▸ hblocked)
        rw [hhit, if_pos ⟨hstate, hwake hstate⟩, hidx, update_self]
        refine ⟨rfl, ?_⟩
        simp only [blockedInIrq, hstate, decide_true, Bool.true_and, ← hidx] at hguard
        unfold Pc.resumes at hpoint
        split at hpoint
        · rename_i cap limit me hpc
          exact ⟨cap, limit, me, by rw [← hidx]; exact hres i cap limit me hpc⟩
        · rename_i hpc
          rw [hpc] at hguard
          contradiction
        · contradiction
      · exact absurd hset hold
    · exact absurd hset hold
  · intro i hi hcancel
    exact hkept i (h.answer i hi (hanswer i hcancel))

theorem answered_cancelAnswer {r : Received} (h : (answered limit r).cancelAnswer = true) :
    r.flagged = true := by
  unfold answered at h
  split at h <;> unfold Pc.cancelAnswer at h <;> split at h <;> rename_i he <;>
    first | contradiction | (cases he; rfl)

/-- `recv` answers `Cancelled` for its flag only if it found the flag. -/
theorem execRecv_answer {p : RecvPoint}
    (h : ((s.execRecv c cap limit p).pc (s.cur c).index).cancelAnswer = true) :
    s.cancelWait (s.cur c).index = true ∧
      (p = .takeCancel ∨ ∃ me, p = .resumed me) := by
  have hplain : ∀ {s1 : Kernel} {q : Pc}, s1.cur c = s.cur c → q.cancelAnswer = false →
      ((s1.goto c q).pc (s.cur c).index).cancelAnswer = true → False := by
    intro s1 q hcur hq hans
    have hpc : (s1.goto c q).pc (s1.cur c).index = q := update_self ..
    rw [← hcur, hpc, hq] at hans
    contradiction
  have hunflagged : ∀ {s1 : Kernel} {r : Received}, s1.cur c = s.cur c → r.flagged = false →
      ((s1.received c limit r).pc (s.cur c).index).cancelAnswer = true → False := by
    intro s1 r hcur hr hans
    refine hplain hcur ?_ hans
    by_contra htrue
    have := answered_cancelAnswer (Bool.eq_true_of_not_eq_false htrue)
    rw [hr] at this
    contradiction
  cases p with
  | takeCancel | resumed me =>
    cases hflag : s.cancelWait (s.cur c).index with
    | true =>
      refine ⟨rfl, ?_⟩
      first | exact .inl rfl | exact .inr ⟨_, rfl⟩
    | false =>
      simp only [execRecv, takeCancelWait, hflag, Bool.false_eq_true, if_false] at h
      exact (hplain rfl rfl h).elim
  | tryRecv | park me =>
    simp only [execRecv] at h
    split at h
    · exact (hunflagged rfl rfl h).elim
    · exact (hplain rfl rfl h).elim
    · exact (hunflagged rfl rfl h).elim
  | refuse | noteIdle => exact (hunflagged rfl rfl h).elim
  | holds | isIdle | self => exact (hplain rfl rfl h).elim
  | block me =>
    have hpc : (s.execRecv c cap limit (.block me)).pc (s.cur c).index =
        .recv cap limit (.resumed me) := update_self ..
    rw [hpc] at h
    contradiction

theorem execRecv_hit (s : Kernel) (c : ℕ) (cap : CapId) (limit : Option (TaskId × ℕ))
    (p : RecvPoint) : (s.execRecv c cap limit p).hit = s.hit := by
  by_cases hb : ∃ me, p = .block me
  · obtain ⟨me, rfl⟩ := hb
    rfl
  · obtain ⟨_, _, _, heq, -⟩ := execRecv_footprint s c cap limit p fun me hme => hb ⟨me, hme⟩
    rw [heq]

theorem execRecv_pc_of_ne {p : RecvPoint} {i : ℕ} (hi : i ≠ (s.cur c).index) :
    (s.execRecv c cap limit p).pc i = s.pc i := by
  by_cases hb : ∃ me, p = .block me
  · obtain ⟨me, rfl⟩ := hb
    exact update_of_ne hi ..
  obtain ⟨_, _, _, heq, -⟩ := execRecv_footprint s c cap limit p fun me hme => hb ⟨me, hme⟩
  rw [heq]
  exact update_of_ne hi ..

theorem Flagged.recv (h : Flagged s) (hb : Base s) (hc : Up s.m.online c) {p : RecvPoint}
    (hpc : s.pc (s.cur c).index = .recv cap limit p) : Flagged (s.execRecv c cap limit p) := by
  have hcur := (hb.cur_sits hc).lt
  refine h.of_frame (k := (s.cur c).index) (fun i hi => execRecv_pc_of_ne hi) ?_ ?_ ?_ ?_
  · intro i hi hset
    rwa [execRecv_cancelWait_of_ne hi] at hset
  · intro i hi hset
    rwa [execRecv_hit]
  · intro hset
    rw [execRecv_cancelWait] at hset
    split at hset
    · rw [update_self] at hset
      contradiction
    · rw [update_self] at hset
      contradiction
    · rename_i hne
      obtain ⟨-, _, _, me, hres⟩ := h.flag _ hcur hset
      rw [hpc] at hres
      cases hres
      exact absurd rfl (hne me)
  · intro hans
    rw [execRecv_hit]
    exact (h.flag _ hcur (execRecv_answer hans).1).1

theorem Flagged.timed (h : Flagged s) (hb : Base s) (hc : Up s.m.online c) {p : TimedPoint}
    (hpc : s.pc (s.cur c).index = .timed p) : Flagged (s.execTimed c p) := by
  have hold : ∀ cap limit me, s.pc (s.cur c).index ≠ .recv cap limit (.resumed me) := by
    rw [hpc]
    nofun
  cases p with
  | self cap ticks => exact h.of_quiet hb hc hold rfl (fun _ hset => hset) (fun _ _ => rfl) rfl
  | now me cap wait => exact h.of_quiet hb hc hold rfl (fun _ hset => hset) (fun _ _ => rfl) rfl
  | arm me cap deadline =>
    exact h.of_quiet (p := .recv cap (some (me, deadline)) .takeCancel) hb hc hold rfl
      (fun _ hset => hset) (fun _ hi => update_of_ne hi ..) rfl
  | disarm me r =>
    refine h.of_frame (k := (s.cur c).index) (fun i hi => update_of_ne hi ..)
      (fun _ _ hset => hset) (fun _ _ hset => hset) ?_ ?_
    · intro hset
      obtain ⟨-, cap, limit, me', hres⟩ := h.flag _ (hb.cur_sits hc).lt hset
      exact absurd hres (hold cap limit me')
    intro hans
    have hnew : (s.execTimed c (.disarm me r)).pc (s.cur c).index = .user (.received r) :=
      update_self ..
    refine h.answer _ (hb.cur_sits hc).lt ?_
    rw [hnew] at hans
    rw [hpc]
    unfold Pc.cancelAnswer at hans
    split at hans <;> rename_i he <;> first | contradiction | (cases he; rfl)

/-- A task at `q`, outside `recv`, cancels another one and moves on. -/
theorem Flagged.of_task_cancel (h : Flagged s) (hb : Base s) (hrun : s.m.phase c = .run)
    {id : TaskId} (htarget : (s.pc (s.cur c).index).cancelled = some id)
    (hguard : s.wakesMatch (.exec c) = true)
    (hflag : s'.cancelWait = if s.m.tasks.state id = some .blocked then update s.cancelWait
      id.index true else s.cancelWait)
    (hhit : s'.hit = if s.m.tasks.state id = some .blocked ∧ (s.m.wakeTask id).1 = true then
      update s.hit id.index true else s.hit) (hpc : s'.pc = update s.pc (s.cur c).index p)
    (hp : p.cancelAnswer = false) :
    Flagged s' := by
  have hirq : s.blockedInIrq id = false := by
    simp only [wakesMatch, hrun, htarget, Bool.and_eq_true, Option.all_some,
      Bool.not_eq_true'] at hguard
    exact hguard.2
  refine h.of_cancel hb hirq hflag hhit ?_ ?_
  · intro i cap limit me hres
    have hik : i ≠ (s.cur c).index := by
      rintro rfl
      rw [hres] at htarget
      contradiction
    rw [hpc, update_of_ne hik]
    exact hres
  intro i hans
  rw [hpc, update_apply] at hans
  split at hans
  · rw [hp] at hans
    contradiction
  · exact hans

theorem Flagged.task (h : Flagged s) (hb : Base s) (hc : Up s.m.online c)
    (hrun : s.m.phase c = .run) (hguard : s.wakesMatch (.exec c) = true)
    (hs : s.execTask c = some s') : Flagged s' := by
  -- the sections that leave flags and cancels alone
  have hquiet : ∀ {s1 : Kernel} {p : Pc},
      (∀ cap limit me, s.pc (s.cur c).index ≠ .recv cap limit (.resumed me)) →
      s1.pc = update s.pc (s.cur c).index p → s1.cancelWait = s.cancelWait →
      s1.hit = s.hit → p.cancelAnswer = false → Flagged s1 := by
    intro s1 p hold hpc hflag hhit hp
    refine h.of_quiet hb hc hold hpc ?_ (fun _ _ => by rw [hhit]) hp
    rw [hflag]
    exact fun _ hset => hset
  have hdirect : Direct s c s' → Flagged s' := by
    intro hp
    obtain ⟨p, hpp, hpc⟩ := hp.point
    exact h.of_quiet hb hc (fun _ _ _ => Pc.Elsewhere.ne_recv (.inl hp.old) _ _ _) hpc hp.reset
      (fun _ _ => by rw [hp.hit]) (Pc.Elsewhere.cancelAnswer (.inl hpp))
  rcases execTask_cases hb hc hrun hs with ⟨cap, limit, p, hpc, rfl⟩ | ⟨p, hpc, rfl⟩ |
    ⟨cookie, p, hpc, rfl⟩ | ⟨y, p, hpc, rfl⟩ | ⟨id, hpc, rfl⟩ | ⟨hp, -⟩ | ⟨hp, -⟩
  · exact h.recv hb hc hpc
  · exact h.timed hb hc hpc
  · by_cases hblock : ∃ me, p = .block me
    · obtain ⟨me, rfl⟩ := hblock
      exact hquiet (p := .waitIrq cookie (.resumed me)) (by rw [hpc]; nofun) rfl rfl rfl rfl
    obtain ⟨waits, delivered, p', heq, hp'⟩ :=
      execIrq_footprint s c cookie p fun me hme => hblock ⟨me, hme⟩
    rw [heq]
    refine hquiet (by rw [hpc]; nofun) rfl rfl rfl ?_
    rcases hp' with ⟨q, rfl, -⟩ | ⟨ok, rfl⟩ <;> rfl
  · cases p with
    | drain => exact hquiet (by rw [hpc]; nofun) rfl rfl rfl (afterTokens_elsewhere ..).cancelAnswer
    | wake token rest =>
      exact hquiet (by rw [hpc]; nofun) rfl rfl rfl (afterTokens_elsewhere y rest).cancelAnswer
    | now => exact hquiet (by rw [hpc]; nofun) rfl rfl rfl rfl
    | expire now =>
      exact hquiet (by rw [hpc]; nofun) rfl rfl rfl (afterIds_elsewhere ..).cancelAnswer
    | clear id rest =>
      exact hquiet (p := .poll y (.cancel id rest)) (by rw [hpc]; nofun) rfl rfl rfl rfl
    | cancel id rest =>
      exact h.of_task_cancel hb hrun (by rw [hpc]; rfl) hguard rfl rfl rfl
        (afterIds_elsewhere y rest).cancelAnswer
  · exact h.of_task_cancel (p := .user .none) hb hrun (by rw [hpc]; rfl) hguard rfl rfl rfl rfl
  · exact hdirect hp
  · exact hdirect hp

theorem Flagged.of_same (h : Flagged s) (hpc : s'.pc = s.pc)
    (hflag : s'.cancelWait = s.cancelWait) (hhit : s'.hit = s.hit) : Flagged s' := by
  constructor
  · rw [hpc, hflag, hhit]
    exact h.flag
  · rw [hpc, hhit]
    exact h.answer

theorem Flagged.tail (h : Flagged s) (hb : Base s) {v : Leaving} (hp : s.m.phase c = .tail v)
    (hguard : s.wakesMatch (.exec c) = true) (from' : TaskId) :
    Flagged (s.execTail c from' (s.tail c)) := by
  simp only [wakesMatch, hp] at hguard
  cases ht : s.tail c with
  | reap id rest | cancel id rest =>
    simp only [ht, TailPoint.target, Option.all_some, Bool.not_eq_true'] at hguard
    exact h.of_cancel hb hguard rfl rfl (fun _ _ _ _ hres => hres) fun _ hans => hans
  | _ => exact h.of_same rfl rfl rfl

theorem entry_cancelAnswer (f : Call) : f.entry.cancelAnswer = false := by
  cases f with
  | spawnOn cpu slots =>
    simp only [Call.entry]
    split <;> rfl
  | _ => rfl

theorem Flagged.step (h : Flagged s) (hb : Base s) {l : Label}
    (hguard : s.wakesMatch l = true) (hs : s.step l = some s') : Flagged s' := by
  rcases step_cases hs with ⟨c, f, -, hfree, -, huser, -, rfl⟩ | ⟨c, rfl, hfree, hrun, hex⟩ |
    ⟨c, v, rfl, hfree, hp, hbusy, rfl⟩ | ⟨c, m, -, -, hm, rfl, -⟩ | ⟨c, -, hfree, hrun, rfl⟩ |
    ⟨c, cookie, -, hfree, -, rfl⟩ | ⟨c, task, rfl, htask, rfl⟩ | ⟨-, rfl⟩
  · refine h.of_quiet hb hfree.1 ?_ rfl (fun _ hset => hset)
      (fun i hi => update_of_ne hi ..) (entry_cancelAnswer f)
    intro cap limit me hres
    rw [hres] at huser
    contradiction
  · exact h.task hb hfree.1 hrun hguard hex
  · exact h.tail hb hp hguard v.from'
  · exact h.of_same rfl rfl rfl
  · exact h.of_same rfl rfl rfl
  · unfold Kernel.signal
    split <;> exact h.of_same rfl rfl rfl
  · exact h.of_same rfl rfl rfl
  · exact h.of_same rfl rfl rfl

theorem reach_flagged (h : Reach Boot Kernel.step (fun s l => s.wakesMatch l = true) s) :
    Flagged s := by
  refine h.invariant_of (J := Base) (I := Flagged) (fun _ hr => reach_base hr) ?_ ?_
  · rintro s ⟨created, rfl⟩
    exact ⟨nofun, nofun⟩
  · intro s l s' hb _ hinv hok hs
    exact hinv.step hb hok hs

end Kernel

end HarborKernel.LockSections
