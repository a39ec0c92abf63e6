import HarborKernel.SectionSteps

/-!
Timed receives.
`recv_with_timeout` arms a deadline before it receives, and `poll_wakes` cancels
the tasks whose deadline has passed. The table may be full, and an expired entry is
removed before the cancel looks at its task. In runs where every arm finds room and
no expired task is cancelled while it is still on its way to block, a blocked timed
receiver has its entry, or an unfinished poll is going to cancel it.
-/

namespace HarborKernel.LockSections

open Function Capability ReadyQueue TaskTable Ipc IrqWait Processors Transition

def Pc.expiring : Pc → List TaskId
  | .poll _ (.clear id rest) => id :: rest
  | .poll _ (.cancel id rest) => id :: rest
  | _ => []

namespace Kernel

variable {s s' : Kernel} {c : ℕ}

def Expiring (s : Kernel) (id : TaskId) : Prop :=
  ∃ i, i < maxTasks ∧ id ∈ (s.pc i).expiring

structure Deadlined (s : Kernel) : Prop where
  flag : ∀ i, i < maxTasks → ∀ cap limit q, s.pc i = .recv cap limit q →
    s.cancelWait i = true →
    q = .takeCancel ∨ ∃ me, q = .resumed me ∧ s.m.tasks.states i ≠ .blocked
  entry : ∀ i, i < maxTasks → ∀ cap me d q, s.pc i = .recv cap (some (me, d)) q →
    s.deadlines.Armed me d ∨ Expiring s me ∨ (q = .resumed me ∧ s.cancelWait i = true)

def inTimedRecv (s : Kernel) (id : TaskId) : Bool :=
  match s.pc id.index with
  | .recv _ (some (me, _)) _ => me = id
  | _ => false

def deadlinesHold (s : Kernel) : Label → Bool
  | .exec c =>
    match s.m.phase c, s.pc (s.cur c).index with
    | .run, .timed (.arm me _ deadline) => (s.deadlines.arm me deadline).1
    | .run, .poll _ (.cancel id _) => !s.inTimedRecv id || s.m.tasks.state id = some .blocked
    | _, _ => true
  | _ => true

variable {p : Pc} {cap : CapId} {me id : TaskId} {limit : Option (TaskId × ℕ)}

theorem Expiring.of_pc (h : Expiring s id)
    (hpc : ∀ i, id ∈ (s.pc i).expiring → id ∈ (s'.pc i).expiring) : Expiring s' id := by
  obtain ⟨i, hi, hin⟩ := h
  exact ⟨i, hi, hpc i hin⟩

/-- The task on processor `c` moves on and leaves the flags of other receivers alone. -/
theorem Deadlined.of_move (h : Deadlined s) (hb : Base s)
    (hcalm : Machine.Calm s.m s'.m) (hpc : s'.pc = update s.pc (s.cur c).index p)
    (hexp : ∀ id, Expiring s id → Expiring s' id)
    (harmed : ∀ id d, id ≠ s.cur c → s.deadlines.Armed id d → s'.deadlines.Armed id d ∨ Expiring
      s' id)
    (hflag : ∀ i, i ≠ (s.cur c).index → s.pc i ≠ .user .none → s'.cancelWait i = s.cancelWait i)
    (hself : ∀ cap limit q, p = .recv cap limit q → (s'.cancelWait (s.cur c).index = true → q =
      .takeCancel) ∧ ∀ me d, limit = some (me, d) → s'.deadlines.Armed me d ∨ Expiring s' me) :
    Deadlined s' := by
  constructor
  · intro i hi cap limit q hq hset
    by_cases hik : i = (s.cur c).index
    · subst hik
      rw [hpc, update_self] at hq
      exact .inl ((hself cap limit q hq).1 hset)
    rw [hpc, update_of_ne hik] at hq
    rw [hflag i hik (by rw [hq]; nofun)] at hset
    refine (h.flag i hi cap limit q hq hset).imp_right ?_
    rintro ⟨me, hme, hno⟩
    exact ⟨me, hme, fun hblocked => hno (hcalm.blocked i hblocked)⟩
  · intro i hi cap me d q hq
    by_cases hik : i = (s.cur c).index
    · subst hik
      rw [hpc, update_self] at hq
      rcases (hself cap _ q hq).2 me d rfl with harm | hin
      · exact .inl harm
      · exact .inr (.inl hin)
    rw [hpc, update_of_ne hik] at hq
    have hme : me = s.m.tasks.idAt i := by
      have hown := hb.own i hi
      rw [hq] at hown
      exact hown.1 me d rfl
    have hne : me ≠ s.cur c := by
      rintro rfl
      apply hik
      rw [hme]
      exact (Tasks.idAt_index Machine.maxTasks_le s.m.tasks hi).symm
    rcases h.entry i hi cap me d q hq with harm | hin | ⟨hres, hset⟩
    · exact (harmed me d hne harm).imp_right .inl
    · exact .inr (.inl (hexp me hin))
    · refine .inr (.inr ⟨hres, ?_⟩)
      rwa [hflag i hik (by rw [hq]; nofun)]

theorem expiring_move (hpc : s'.pc = update s.pc (s.cur c).index p)
    (hold : id ∈ (s.pc (s.cur c).index).expiring → id ∈ p.expiring) (h : Expiring s id) :
    Expiring s' id := by
  refine h.of_pc ?_
  intro i hi
  rw [hpc, update_apply]
  split
  · rename_i hik
    exact hold (hik ▸ hi)
  · exact hi

theorem Deadlined.of_quiet (h : Deadlined s) (hb : Base s)
    (hold : (s.pc (s.cur c).index).expiring = []) (hcalm : Machine.Calm s.m s'.m)
    (hdead : s'.deadlines = s.deadlines)
    (hflag : ∀ i, i ≠ (s.cur c).index → s.pc i ≠ .user .none → s'.cancelWait i = s.cancelWait i)
    (hpc : s'.pc = update s.pc (s.cur c).index p) (hp : ∀ cap limit q, p ≠ .recv cap limit q) :
    Deadlined s' := by
  refine h.of_move hb hcalm hpc ?_ ?_ hflag fun cap limit q hq => absurd hq (hp cap limit q)
  · intro id
    refine expiring_move hpc ?_
    rw [hold]
    nofun
  · intro id d _ harm
    exact .inl (hdead ▸ harm)

/-- The task on processor `c` gives it up; a receiver stays where it is or blocks. -/
theorem Deadlined.of_switch (h : Deadlined s) (hb : Base s) (hc : Up s.m.online c) {kind : Switch}
    (hm : s'.m = s.m.switchWith c kind) (hdead : s'.deadlines = s.deadlines)
    (hflag : s'.cancelWait = s.cancelWait) (hpc : s'.pc = update s.pc (s.cur c).index p)
    (hold : ∀ id, id ∈ (s.pc (s.cur c).index).expiring → id ∈ p.expiring)
    (hself : ∀ cap limit q, p = .recv cap limit q → (kind ≠ .block ∧ s.pc (s.cur c).index = .recv
      cap limit q) ∨ ∃ me, q = .resumed me ∧ s.pc (s.cur c).index = .recv cap limit (.block me)) :
    Deadlined s' := by
  have hcur := (hb.cur_sits hc).lt
  constructor
  · intro i hi cap limit q hq hset
    rw [hflag] at hset
    by_cases hik : i = (s.cur c).index
    · subst hik
      rw [hpc, update_self] at hq
      rcases hself cap limit q hq with ⟨hk, hsame⟩ | ⟨me, -, hblock⟩
      · refine (h.flag _ hcur cap limit q hsame hset).imp_right ?_
        rintro ⟨me, hme, -⟩
        rw [hm]
        exact ⟨me, hme, Machine.switchWith_not_blocked hb.inv.tasks hc hk⟩
      · rcases h.flag _ hcur cap limit _ hblock hset with hno | ⟨me', hno, -⟩ <;> cases hno
    rw [hpc, update_of_ne hik] at hq
    refine (h.flag i hi cap limit q hq hset).imp_right ?_
    rintro ⟨me, hme, hno⟩
    rw [hm]
    exact ⟨me, hme, fun hblocked =>
      hno (Machine.switchWith_blocked hb.inv.tasks hc hik hblocked)⟩
  · intro i hi cap me d q hq
    have hentry : ∀ q', s.pc i = .recv cap (some (me, d)) q' → (q' = .resumed me → q = q') →
        s'.deadlines.Armed me d ∨ Expiring s' me ∨ (q = .resumed me ∧ s'.cancelWait i = true) := by
      intro q' hq' hres
      rcases h.entry i hi cap me d q' hq' with harm | hin | ⟨hr, hset⟩
      · exact .inl (hdead ▸ harm)
      · exact .inr (.inl (expiring_move hpc (hold me) hin))
      · exact .inr (.inr ⟨(hres hr).trans hr, by rw [hflag]; exact hset⟩)
    by_cases hik : i = (s.cur c).index
    · subst hik
      rw [hpc, update_self] at hq
      rcases hself cap _ q hq with ⟨-, hsame⟩ | ⟨me', -, hblock⟩
      · exact hentry q hsame fun _ => rfl
      · exact hentry _ hblock nofun
    · rw [hpc, update_of_ne hik] at hq
      exact hentry q hq fun _ => rfl

/-- `prepare_cancel_blocked` for `id`, run by a poll, by a cascade or by a task. -/
theorem Deadlined.of_cancel (h : Deadlined s) (hb : Base s) (hcalm : Machine.Calm s.m s'.m)
    (hwoken : s'.m.tasks.state id ≠ some .blocked)
    (hflag : s'.cancelWait = if s.m.tasks.state id = some .blocked then update s.cancelWait
      id.index true else s.cancelWait) (hdead : s'.deadlines = s.deadlines)
    (hpc : ∀ i cap limit q, s'.pc i = .recv cap limit q → s.pc i = .recv cap limit q)
    (hexp : ∀ x, x ≠ id → Expiring s x → Expiring s' x)
    (hid : (Expiring s id → Expiring s' id) ∨ (s.inTimedRecv id = true → s.m.tasks.state id = some
      .blocked)) : Deadlined s' := by
  -- a blocked receiver sits at its resumption point
  have hpoint : ∀ i, i < maxTasks → ∀ cap limit q, s.pc i = .recv cap limit q →
      s.m.tasks.states i = .blocked → ∃ me, q = .resumed me := by
    intro i hi cap limit q hq hblocked
    have hres := hb.parked i hi hblocked
    rw [hq] at hres
    cases q with
    | resumed me => exact ⟨me, rfl⟩
    | _ => contradiction
  constructor
  · intro i hi cap limit q hq hset
    have hq' := hpc i cap limit q hq
    by_cases hold : s.cancelWait i = true
    · refine (h.flag i hi cap limit q hq' hold).imp_right ?_
      rintro ⟨me, hme, hno⟩
      exact ⟨me, hme, fun hblocked => hno (hcalm.blocked i hblocked)⟩
    right
    rw [hflag] at hset
    split at hset
    · rename_i hstate
      rw [update_apply] at hset
      split at hset
      · rename_i hidx
        obtain ⟨-, -, hblocked⟩ := Tasks.state_eq_some hstate
        rw [← hidx] at hblocked
        obtain ⟨me, hme⟩ := hpoint i hi cap limit q hq' hblocked
        refine ⟨me, hme, fun hno => hwoken ?_⟩
        rw [Tasks.eq_idAt_of_state hstate, ← hidx, ← hcalm.idAt, state_idAt hi, hno]
      · exact absurd hset hold
    · exact absurd hset hold
  · intro i hi cap me d q hq
    have hq' := hpc i cap _ q hq
    rcases h.entry i hi cap me d q hq' with harm | hin | ⟨hres, hset⟩
    · exact .inl (hdead ▸ harm)
    · by_cases hme : me = id
      · subst hme
        rcases hid with hkeep | hblocked
        · exact .inr (.inl (hkeep hin))
        have hown := hb.own i hi
        rw [hq'] at hown
        have hidx : me.index = i := by
          rw [hown.1 me d rfl]
          exact Tasks.idAt_index Machine.maxTasks_le s.m.tasks hi
        have hstate := hblocked (by simp [inTimedRecv, hidx, hq'])
        obtain ⟨-, -, hst⟩ := Tasks.state_eq_some hstate
        rw [hidx] at hst
        obtain ⟨me', rfl⟩ := hpoint i hi cap _ q hq' hst
        refine .inr (.inr ⟨?_, ?_⟩)
        · rw [hown.1 me d rfl]
          exact congrArg _ hown.2
        · rw [hflag, if_pos hstate, hidx, update_self]
      · exact .inr (.inl (hexp me hme hin))
    · exact .inr (.inr ⟨hres, cancel_flag hflag hset⟩)

theorem execRecv_cancelled {p : RecvPoint} (hset : s.cancelWait (s.cur c).index = true)
    (hp : p = .takeCancel ∨ ∃ me, p = .resumed me) :
    (s.execRecv c cap limit p).pc (s.cur c).index = answered limit ⟨.error .cancelled, true⟩ := by
  rcases hp with rfl | ⟨me, rfl⟩ <;>
    simp only [execRecv, takeCancelWait, hset, if_true] <;> exact update_self ..

theorem Deadlined.recv (h : Deadlined s) (hb : Base s) (hc : Up s.m.online c) {p : RecvPoint}
    (hpc : s.pc (s.cur c).index = .recv cap limit p) :
    Deadlined (s.execRecv c cap limit p) := by
  have hcur := (hb.cur_sits hc).lt
  by_cases hblock : ∃ me, p = .block me
  · obtain ⟨me, rfl⟩ := hblock
    refine h.of_switch (p := .recv cap limit (.resumed me)) hb hc rfl rfl rfl rfl ?_ ?_
    · rw [hpc]
      nofun
    · rintro _ _ _ ⟨⟩
      exact .inr ⟨me, rfl, hpc⟩
  obtain ⟨ipc, cancelWait, p', heq, hp'⟩ :=
    execRecv_footprint s c cap limit p fun me hme => hblock ⟨me, hme⟩
  have hk : (s.execRecv c cap limit p).pc (s.cur c).index = p' := by
    rw [heq]
    exact update_self ..
  have hpc' : (s.execRecv c cap limit p).pc = update s.pc (s.cur c).index p' := by
    rw [heq]
  have hexp : ∀ id, Expiring s id → Expiring (s.execRecv c cap limit p) id := by
    intro id
    refine expiring_move hpc' ?_
    rw [hpc]
    nofun
  refine h.of_move hb (heq ▸ Machine.Calm.refl _) hpc' hexp ?_
    (fun i hi _ => execRecv_cancelWait_of_ne hi) ?_
  · intro id d _ harm
    rw [heq]
    exact .inl harm
  rintro cap' limit' q rfl
  obtain ⟨rfl, rfl⟩ : cap' = cap ∧ limit' = limit := by
    rcases hp' with ⟨r, hr⟩ | ⟨q', hq', -⟩
    · exact absurd hr.symm answered_ne_recv
    · cases hq'
      exact ⟨rfl, rfl⟩
  have hunset : s.cancelWait (s.cur c).index = true →
      ¬ (p = .takeCancel ∨ ∃ me, p = .resumed me) := by
    intro hset hp
    exact absurd ((execRecv_cancelled hset hp).symm.trans hk) answered_ne_recv
  constructor
  · intro hset
    have hold : s.cancelWait (s.cur c).index = true := by
      rw [execRecv_cancelWait] at hset
      split at hset
      · rw [update_self] at hset
        contradiction
      · rw [update_self] at hset
        contradiction
      · exact hset
    rcases h.flag _ hcur _ _ p hpc hold with hp | ⟨me, hp, -⟩
    · exact absurd (.inl hp) (hunset hold)
    · exact absurd (.inr ⟨me, hp⟩) (hunset hold)
  · rintro me d rfl
    rcases h.entry _ hcur _ me d p hpc with harm | hin | ⟨hp, hset⟩
    · rw [heq]
      exact .inl harm
    · exact .inr (hexp me hin)
    · exact absurd (.inr ⟨me, hp⟩) (hunset hset)

theorem Deadlined.timed (h : Deadlined s) (hb : Base s) (hc : Up s.m.online c)
    (hrun : s.m.phase c = .run) {p : TimedPoint} (hpc : s.pc (s.cur c).index = .timed p)
    (hguard : s.deadlinesHold (.exec c) = true) : Deadlined (s.execTimed c p) := by
  have hcalm := Machine.Calm.refl s.m
  have hold : (s.pc (s.cur c).index).expiring = [] := by
    rw [hpc]
    rfl
  have hown := hb.own_cur hc
  rw [hpc] at hown
  have hexp : ∀ {s' : Kernel} {p' : Pc},
      s'.pc = update s.pc (s.cur c).index p' → ∀ id, Expiring s id → Expiring s' id := by
    intro s' p' hp' id
    refine expiring_move hp' ?_
    rw [hold]
    nofun
  cases p with
  | self cap ticks => exact h.of_quiet hb hold hcalm rfl (fun _ _ _ => rfl) rfl nofun
  | now me cap wait => exact h.of_quiet hb hold hcalm rfl (fun _ _ _ => rfl) rfl nofun
  | arm me cap deadline =>
    obtain rfl : me = s.cur c := hown
    simp only [deadlinesHold, hrun, hpc] at hguard
    refine h.of_move (p := .recv cap (some (s.cur c, deadline)) .takeCancel) hb hcalm rfl
      (hexp rfl) ?_ (fun _ _ _ => rfl) ?_
    · intro id d hne harm
      exact .inl (harm.arm hne)
    rintro _ _ _ ⟨⟩
    refine ⟨fun _ => rfl, ?_⟩
    rintro _ _ ⟨⟩
    exact .inl (ParkTime.Table.armed_of_arm hguard)
  | disarm me r =>
    obtain rfl : me = s.cur c := hown
    refine h.of_move (p := .user (.received r)) hb hcalm rfl (hexp rfl) ?_ (fun _ _ _ => rfl)
      nofun
    intro id d hne harm
    exact .inl (harm.disarm hne)

theorem expiring_of_direct (h : p.direct = true) : p.expiring = [] := by
  unfold Pc.direct at h
  split at h <;> first | rfl | contradiction

theorem afterIds_expiring (y : Bool) (ids : List TaskId) : (afterIds y ids).expiring = ids := by
  cases ids with
  | nil =>
    simp only [afterIds]
    split <;> rfl
  | cons => rfl

section

variable (h : Deadlined s) (hb : Base s) (hc : Up s.m.online c)
include h hb hc

theorem Deadlined.poll
    (hrun : s.m.phase c = .run) {y : Bool} {p : PollPoint}
    (hpc : s.pc (s.cur c).index = .poll y p) (hguard : s.deadlinesHold (.exec c) = true) :
    Deadlined (s.execPoll c y p) := by
  have hcalm := Machine.Calm.refl s.m
  cases p with
  | drain =>
    exact h.of_quiet hb (by rw [hpc]; rfl) hcalm rfl (fun _ _ _ => rfl) rfl
      (afterTokens_elsewhere ..).ne_recv
  | wake token rest =>
    exact h.of_quiet hb (by rw [hpc]; rfl) (wake_calm hb hc (.inl hrun) _).2.1 rfl
      (fun _ _ _ => rfl) rfl (afterTokens_elsewhere ..).ne_recv
  | now => exact h.of_quiet hb (by rw [hpc]; rfl) hcalm rfl (fun _ _ _ => rfl) rfl nofun
  | expire now =>
    have hexp : ∀ id, Expiring s id → Expiring (s.execPoll c y (.expire now)) id := by
      intro id
      refine expiring_move (p := afterIds y (s.deadlines.poll now).1) rfl ?_
      rw [hpc]
      nofun
    refine h.of_move hb hcalm rfl hexp ?_ (fun _ _ _ => rfl)
      fun _ _ _ he => absurd he ((afterIds_elsewhere ..).ne_recv _ _ _)
    intro id d _ harm
    rcases Nat.lt_or_ge now d with hlate | hdue
    · exact .inl (harm.poll.2 hlate)
    refine .inr ⟨_, (hb.cur_sits hc).lt, ?_⟩
    have hnew : (s.execPoll c y (.expire now)).pc (s.cur c).index =
        afterIds y (s.deadlines.poll now).1 := update_self ..
    rw [hnew, afterIds_expiring]
    exact harm.poll.1 hdue
  | clear id rest =>
    refine h.of_move (p := .poll y (.cancel id rest)) hb hcalm rfl ?_ (fun _ _ _ => .inl)
      (fun _ _ _ => rfl) nofun
    intro x
    refine expiring_move (p := .poll y (.cancel id rest)) rfl ?_
    rw [hpc]
    exact fun hx => hx
  | cancel id rest =>
    simp only [deadlinesHold, hrun, hpc, Bool.or_eq_true, Bool.not_eq_true',
      decide_eq_true_eq] at hguard
    refine h.of_cancel hb (cancel_calm hb hc (.inl hrun) id).2.1
      (cancelMachine_not_blocked hb.inv.tasks id) rfl rfl ?_ ?_ (.inr ?_)
    · intro i cap limit q hq
      change update s.pc (s.cur c).index (afterIds y rest) i = _ at hq
      rw [update_apply] at hq
      split at hq
      · exact absurd hq ((afterIds_elsewhere ..).ne_recv _ _ _)
      · exact hq
    · intro x hx
      refine expiring_move (p := afterIds y rest) rfl ?_
      rw [hpc, afterIds_expiring]
      exact fun hin => (List.mem_cons.mp hin).resolve_left hx
    · intro hin
      exact hguard.resolve_left (by rw [hin]; nofun)

theorem Deadlined.of_leave
    (hold : (s.pc (s.cur c).index).expiring = []) {kind : Switch}
    (hm : s'.m = s.m.switchWith c kind) (hdead : s'.deadlines = s.deadlines)
    (hflag : s'.cancelWait = s.cancelWait) (hpc : s'.pc = update s.pc (s.cur c).index p)
    (hp : ∀ cap limit q, p ≠ .recv cap limit q) : Deadlined s' := by
  refine h.of_switch hb hc hm hdead hflag hpc ?_ fun cap limit q hq => absurd hq (hp cap limit q)
  rw [hold]
  nofun

theorem Deadlined.task
    (hrun : s.m.phase c = .run) (hguard : s.deadlinesHold (.exec c) = true)
    (hs : s.execTask c = some s') : Deadlined s' := by
  rcases execTask_cases hb hc hrun hs with ⟨cap, limit, p, hpc, rfl⟩ | ⟨p, hpc, rfl⟩ |
    ⟨cookie, p, hpc, rfl⟩ | ⟨y, p, hpc, rfl⟩ | ⟨id, hpc, rfl⟩ | ⟨hp, hflag, kind, hm⟩ |
    ⟨hp, hcalm⟩
  · exact h.recv hb hc hpc
  · exact h.timed hb hc hrun hpc hguard
  · by_cases hblock : ∃ me, p = .block me
    · obtain ⟨me, rfl⟩ := hblock
      exact h.of_leave (p := .waitIrq cookie (.resumed me)) hb hc (by rw [hpc]; rfl) rfl rfl rfl
        rfl nofun
    obtain ⟨waits, delivered, p', heq, hp'⟩ :=
      execIrq_footprint s c cookie p fun me hme => hblock ⟨me, hme⟩
    rw [heq]
    refine h.of_quiet hb (by rw [hpc]; rfl) (Machine.Calm.refl _) rfl (fun _ _ _ => rfl) rfl ?_
    rcases hp' with ⟨q, rfl, -⟩ | ⟨ok, rfl⟩ <;> nofun
  · exact h.poll hb hc hrun hpc hguard
  · have hexp : ∀ x, Expiring s x → Expiring (s.execAdmin c (.cancel id)) x := by
      intro x
      refine expiring_move (p := .user .none) rfl ?_
      rw [hpc]
      nofun
    refine h.of_cancel hb (cancel_calm hb hc (.inl hrun) id).2.1
      (cancelMachine_not_blocked hb.inv.tasks id) rfl rfl ?_ (fun x _ => hexp x)
      (.inl (hexp id))
    intro i cap limit q hq
    change update s.pc (s.cur c).index (.user .none) i = _ at hq
    rw [update_apply] at hq
    split at hq
    · contradiction
    · exact hq
  · obtain ⟨p, hpp, hpc⟩ := hp.point
    exact h.of_leave hb hc (expiring_of_direct hp.old) hm hp.deadlines hflag hpc
      (Pc.Elsewhere.ne_recv (.inl hpp))
  · obtain ⟨p, hpp, hpc⟩ := hp.point
    exact h.of_quiet hb (expiring_of_direct hp.old) hcalm hp.deadlines
      (fun i _ => hp.flag i) hpc (Pc.Elsewhere.ne_recv (.inl hpp))

end

/-- Nothing that matters to a receiver changes, up to slots starting to run. -/
theorem Deadlined.of_calm (h : Deadlined s) (hcalm : Machine.Calm s.m s'.m) (hpc : s'.pc = s.pc)
    (hdead : s'.deadlines = s.deadlines) (hflag : s'.cancelWait = s.cancelWait) :
    Deadlined s' := by
  constructor
  · intro i hi cap limit q hq hset
    rw [hpc] at hq
    rw [hflag] at hset
    refine (h.flag i hi cap limit q hq hset).imp_right ?_
    rintro ⟨me, hme, hno⟩
    exact ⟨me, hme, fun hblocked => hno (hcalm.blocked i hblocked)⟩
  · intro i hi cap me d q hq
    rw [hpc] at hq
    rw [hdead, hflag]
    refine (h.entry i hi cap me d q hq).imp_right (Or.imp_left ?_)
    intro hin
    refine hin.of_pc ?_
    rw [hpc]
    exact fun _ hx => hx

theorem Deadlined.tail (h : Deadlined s) (hb : Base s) (hc : Up s.m.online c)
    (hbusy : (s.tail c).busy = true) (from' : TaskId) :
    Deadlined (s.execTail c from' (s.tail c)) := by
  have hcancel : ∀ id (s' : Kernel), s'.m = cancelMachine s.m id → s'.pc = s.pc →
      s'.deadlines = s.deadlines →
      (s'.cancelWait = if s.m.tasks.state id = some .blocked then
        update s.cancelWait id.index true else s.cancelWait) → Deadlined s' := by
    intro id s' hm hpc hdead hflag
    have hexp : ∀ x, Expiring s x → Expiring s' x := by
      intro x hin
      refine hin.of_pc ?_
      rw [hpc]
      exact fun _ hx => hx
    exact h.of_cancel hb (hm ▸ (cancel_calm hb hc (.inr hbusy) id).2.1)
      (hm ▸ cancelMachine_not_blocked hb.inv.tasks id) hflag hdead
      (fun _ _ _ _ hq => hpc ▸ hq) (fun x _ => hexp x) (.inl (hexp id))
  cases s.tail c with
  | reap id rest | cancel id rest => exact hcancel id _ rfl rfl rfl rfl
  | _ => exact h.of_calm (Machine.Calm.refl _) rfl rfl rfl

theorem entry_recv {f : Call} {q : RecvPoint} (h : f.entry = .recv cap limit q) :
    limit = none ∧ q = .takeCancel := by
  cases f with
  | recv cap' =>
    cases h
    exact ⟨rfl, rfl⟩
  | spawnOn cpu slots =>
    simp only [Call.entry] at h
    split at h <;> contradiction
  | _ => contradiction

variable {l : Label} {i d : ℕ}

theorem Deadlined.step (h : Deadlined s) (hb : Base s) (hguard : s.deadlinesHold l = true)
    (hs : s.step l = some s') : Deadlined s' := by
  have hcalm := Machine.Calm.refl s.m
  rcases step_cases hs with ⟨c, f, -, hfree, -, huser, -, rfl⟩ | ⟨c, rfl, hfree, hrun, hex⟩ |
    ⟨c, v, rfl, hfree, hp, hbusy, rfl⟩ | ⟨c, m, -, -, hm, rfl, -⟩ | ⟨c, -, hfree, hrun, rfl⟩ |
    ⟨c, cookie, -, hfree, -, rfl⟩ | ⟨c, task, rfl, htask, rfl⟩ | ⟨-, rfl⟩
  · have hold : (s.pc (s.cur c).index).expiring = [] := by
      cases hpc : s.pc (s.cur c).index <;> rw [hpc] at huser <;> first | rfl | contradiction
    refine h.of_move (p := f.entry) hb hcalm rfl ?_ (fun _ _ _ => .inl)
      (fun _ _ _ => rfl) ?_
    · intro id
      refine expiring_move (p := f.entry) rfl ?_
      rw [hold]
      nofun
    intro cap limit q hq
    obtain ⟨rfl, rfl⟩ := entry_recv hq
    exact ⟨fun _ => rfl, nofun⟩
  · exact h.task hb hfree.1 hrun hguard hex
  · exact h.tail hb hfree.1 hbusy v.from'
  · exact h.of_calm (Machine.step_exec_frame hm).2.2.1 rfl rfl rfl
  · refine h.of_switch hb hfree.1 rfl rfl rfl (pc_self s _) (fun _ hx => hx) ?_
    intro cap limit q hq
    exact .inl ⟨by decide, hq⟩
  · unfold Kernel.signal
    split <;> exact h.of_calm hcalm rfl rfl rfl
  · exact h.of_calm hcalm rfl rfl rfl
  · exact h.of_calm hcalm rfl rfl rfl

theorem reach_deadlined (h : Reach Boot Kernel.step (fun s l => s.deadlinesHold l = true) s) :
    Deadlined s := by
  refine h.invariant_of (J := Base) (I := Deadlined) (fun _ hr => reach_base hr) ?_ ?_
  · rintro s ⟨created, rfl⟩
    exact ⟨nofun, nofun⟩
  · intro s l s' hb _ hinv hok hs
    exact hinv.step hb hok hs

def Returning (s : Kernel) (i : ℕ) (me : TaskId) : Prop :=
  (∃ cap d, s.pc i = .recv cap (some (me, d)) (.resumed me) ∧ s.cancelWait i = true) ∨
    s.pc i = .timed (.disarm me ⟨.error .cancelled, true⟩)

def Returned (s : Kernel) (i : ℕ) : Prop := s.pc i = .user (.received ⟨.error .cancelled, true⟩)

/-- Only its own sections move a cancelled receiver, and they return `Cancelled`. -/
theorem Returning.step (h : Returning s i me) (hb : Base s) (hs : s.step l = some s') :
    Returning s' i me ∨ Returned s' i := by
  rcases h with ⟨cap, d, hpc, hset⟩ | hpc
  · rcases step_frame hb hs (i := i) (by rw [hpc]; rfl) with ⟨hsame, hflag⟩ |
      ⟨c, -, -, -, rfl, hex⟩
    · exact .inl (.inl ⟨cap, d, hsame.trans hpc, hflag hset⟩)
    simp only [execTask, hpc] at hex
    rw [← Option.some.inj hex]
    exact .inl (.inr (execRecv_cancelled hset (.inr ⟨me, rfl⟩)))
  rcases step_frame hb hs (i := i) (by rw [hpc]; rfl) with ⟨hsame, -⟩ | ⟨c, -, -, -, rfl, hex⟩
  · exact .inl (.inr (hsame.trans hpc))
  simp only [execTask, hpc] at hex
  rw [← Option.some.inj hex]
  exact .inr (update_self ..)

def pollWork : Pc → ℕ
  | .poll _ (.clear _ rest) => 2 * rest.length + 2
  | .poll _ (.cancel _ rest) => 2 * rest.length + 1
  | _ => 0

theorem exec_run (hrun : s.m.phase c = .run) (hs : s.step (.exec c) = some s') :
    s.execTask c = some s' ∧ Up s.m.online c := by
  simp only [Kernel.step, exec, hrun] at hs
  split at hs
  · rename_i hfree
    exact ⟨hs, hfree.1⟩
  · contradiction

theorem poll_proceeds (hrun : s.m.phase c = .run) (hin : me ∈ (s.pc (s.cur c).index).expiring)
    (hs : s.step (.exec c) = some s') :
    (∃ y rest, s.pc (s.cur c).index = .poll y (.cancel me rest)) ∨
    (me ∈ (s'.pc (s.cur c).index).expiring ∧
      pollWork (s'.pc (s.cur c).index) < pollWork (s.pc (s.cur c).index)) := by
  have hex := (exec_run hrun hs).1
  cases hpc : s.pc (s.cur c).index with
  | poll y p =>
    simp only [execTask, hpc] at hex
    rw [hpc] at hin
    rw [← Option.some.inj hex]
    cases p with
    | clear id rest =>
      have hnew : (s.execPoll c y (.clear id rest)).pc (s.cur c).index =
          .poll y (.cancel id rest) := update_self ..
      rw [hnew]
      exact .inr ⟨hin, by simp [pollWork]⟩
    | cancel id rest =>
      have hnew : (s.execPoll c y (.cancel id rest)).pc (s.cur c).index = afterIds y rest :=
        update_self ..
      rw [hnew, afterIds_expiring]
      rcases List.mem_cons.mp hin with rfl | hrest
      · exact .inl ⟨y, rest, rfl⟩
      refine .inr ⟨hrest, ?_⟩
      cases rest with
      | nil => contradiction
      | cons x rest =>
        simp only [afterIds, pollWork, List.length_cons]
        omega
    | _ => contradiction
  | _ =>
    rw [hpc] at hin
    contradiction

theorem cancel_returning (hb : Base s) (hrun : s.m.phase c = .run) {y : Bool} {rest : List TaskId}
    (hpoll : s.pc (s.cur c).index = .poll y (.cancel me rest)) (hi : i < maxTasks)
    (hpc : s.pc i = .recv cap (some (me, d)) (.resumed me))
    (hblocked : s.m.tasks.states i = .blocked) (hs : s.step (.exec c) = some s') :
    Returning s' i me := by
  have hme : me = s.m.tasks.idAt i := by
    have hown := hb.own i hi
    rw [hpc] at hown
    exact hown.2
  have hidx : me.index = i := by
    rw [hme]
    exact Tasks.idAt_index Machine.maxTasks_le s.m.tasks hi
  have hstate : s.m.tasks.state me = some .blocked := by
    rw [hme, state_idAt hi, hblocked]
  obtain ⟨hex, hc⟩ := exec_run hrun hs
  have hik : i ≠ (s.cur c).index := by
    rintro rfl
    rw [hpc] at hpoll
    contradiction
  have hsame := (execTask_others hb hc hrun hex hik).1
  simp only [execTask, hpoll] at hex
  refine .inl ⟨cap, d, hsame.trans hpc, ?_⟩
  rw [← Option.some.inj hex]
  simp only [execPoll, prepareCancelBlocked, goto, hstate, if_true, hidx, update_self]

/-- What keeps a timed receiver from waiting for ever: its entry or an unfinished poll holds
it, a poll past its deadline takes it up, goes on to cancel it, and once cancelled its call
returns `Cancelled` before it does anything else. -/
structure TimesOut (s : Kernel) (i : ℕ) (me : TaskId) (d : ℕ) : Prop where
  held : s.deadlines.Armed me d ∨ Expiring s me
  expires : ∀ c y now s', s.m.phase c = .run →
    s.pc (s.cur c).index = .poll y (.expire now) → s.deadlines.Armed me d → d ≤ now →
    s.step (.exec c) = some s' → me ∈ (s'.pc (s.cur c).index).expiring
  proceeds : ∀ c s', s.m.phase c = .run → me ∈ (s.pc (s.cur c).index).expiring →
    s.step (.exec c) = some s' →
    (∃ y rest, s.pc (s.cur c).index = .poll y (.cancel me rest)) ∨
    (me ∈ (s'.pc (s.cur c).index).expiring ∧
      pollWork (s'.pc (s.cur c).index) < pollWork (s.pc (s.cur c).index))
  cancels : ∀ c y rest s', s.m.phase c = .run →
    s.pc (s.cur c).index = .poll y (.cancel me rest) → s.step (.exec c) = some s' →
    ∀ ls s'', Transition.run Kernel.step s' ls = some s'' →
      Returning s'' i me ∨ ∃ before after mid, ls = before ++ after ∧
        Transition.run Kernel.step s' before = some mid ∧ Returned mid i

/-- In a run where every arm finds room and no cancel of a poll reaches a timed receiver
before it has blocked, a blocked timed receiver times out. -/
theorem timed_receive_times_out (s : Kernel)
    (h : Reach Boot Kernel.step (fun s l => s.deadlinesHold l = true) s) (i : ℕ)
    (hi : i < maxTasks) (cap : CapId) (me : TaskId) (d : ℕ)
    (hpc : s.pc i = .recv cap (some (me, d)) (.resumed me))
    (hblocked : s.m.tasks.states i = .blocked) : TimesOut s i me d := by
  have hb := reach_base h
  have hinv := reach_deadlined h
  constructor
  · rcases hinv.entry i hi cap me d _ hpc with harm | hin | ⟨-, hset⟩
    · exact .inl harm
    · exact .inr hin
    · rcases hinv.flag i hi cap _ _ hpc hset with hno | ⟨_, -, hno⟩
      · contradiction
      · exact absurd hblocked hno
  · intro c y now s' hrun hpoll harm hdue hs
    have hex := (exec_run hrun hs).1
    simp only [execTask, hpoll] at hex
    have hnew : (s.execPoll c y (.expire now)).pc (s.cur c).index =
        afterIds y (s.deadlines.poll now).1 := update_self ..
    rw [← Option.some.inj hex, hnew, afterIds_expiring]
    exact harm.poll.1 hdue
  · intro c s' hrun hin hs
    exact poll_proceeds hrun hin hs
  · intro c y rest s' hrun hpoll hs ls s'' hls
    exact Transition.run_until (J := Base) (P := fun s => Returning s i me)
      (Q := fun s => Returned s i) (fun _ _ _ hb' hs' => hb'.step hs')
      (fun _ _ _ hb' hret hs' => hret.step hb' hs') ls (hb.step hs)
      (cancel_returning hb hrun hpoll hi hpc hblocked hs) hls

def timedBlocked (s : Kernel) (i : ℕ) : Option (TaskId × ℕ) :=
  match s.pc i with
  | .recv _ (some (me, d)) (.resumed me') =>
    if me' = me ∧ s.m.tasks.states i = .blocked then some (me, d) else none
  | _ => none

theorem timedBlocked_eq_some (h : s.timedBlocked i = some (me, d)) :
    (∃ cap, s.pc i = .recv cap (some (me, d)) (.resumed me)) ∧
      s.m.tasks.states i = .blocked := by
  unfold timedBlocked at h
  split at h
  · rename_i cap me' d' me'' hpc
    split at h
    · rename_i hme
      cases h
      obtain ⟨rfl, hblocked⟩ := hme
      exact ⟨⟨cap, hpc⟩, hblocked⟩
    · contradiction
  · contradiction

/-- A timed receiver has blocked; its deadline is the next tick. -/
theorem timed_receive_times_out_blocked : ∃ s,
    Reach Boot Kernel.step (fun s l => s.deadlinesHold l = true) s ∧
    s.timedBlocked 1 = some (TaskId.new 1 0, 1) ∧ TimesOut s 1 (TaskId.new 1 0) 1 := by
  have hstart : Reach Boot Kernel.step (fun s l => s.deadlinesHold l = true) _ :=
    reach_boot [false]
  obtain ⟨s, hreach, hP⟩ := hstart.exists_run
    (P := fun s => s.timedBlocked 1 = some (TaskId.new 1 0, 1))
    ([.call 0 (.spawnOn 0 [some (CapId.new 1 1)])] ++ execs 0 2 ++ [.call 0 .yieldNow] ++
      execs 0 7 ++ [.call 0 (.recvWithTimeout (CapId.new 1 1) 1)] ++ execs 0 13)
    (by decide +kernel)
  obtain ⟨⟨cap, hpc⟩, hblocked⟩ := timedBlocked_eq_some hP
  exact ⟨s, hreach, hP,
    timed_receive_times_out s hreach 1 (by decide) cap (TaskId.new 1 0) 1 hpc hblocked⟩

/-- The deadline passes after the receiver has parked and before it has blocked: the poll
removes its entry, its cancel finds no blocked task, and the receiver blocks for ever. -/
theorem timed_receive_forgotten : ∃ s me d, Reach Boot Kernel.step (fun _ _ => True) s ∧
    s.timedBlocked 1 = some (me, d) ∧ ¬ s.deadlines.Armed me d ∧
    ∀ j, j < maxTasks → me ∉ (s.pc j).expiring := by
  have hstart : Reach Boot Kernel.step (fun _ _ => True) _ := reach_boot [false]
  obtain ⟨s, hreach, hP⟩ := hstart.exists_run
    (P := fun s => s.timedBlocked 1 = some (TaskId.new 1 0, 1) ∧
      ¬ s.deadlines.Armed (TaskId.new 1 0) 1 ∧
      ∀ j, j < maxTasks → TaskId.new 1 0 ∉ (s.pc j).expiring)
    ([.call 0 (.spawnOn 0 [some (CapId.new 1 1)])] ++ execs 0 2 ++ [.call 0 .yieldNow] ++
      execs 0 7 ++ [.call 0 (.recvWithTimeout (CapId.new 1 1) 1)] ++ execs 0 9 ++
      [.preempt 0, .tick] ++ execs 0 3 ++ [.call 0 .yieldNow] ++ execs 0 13) (by decide +kernel)
  exact ⟨s, TaskId.new 1 0, 1, hreach, hP⟩

end Kernel

end HarborKernel.LockSections
