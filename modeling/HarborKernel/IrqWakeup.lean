import HarborKernel.SectionSteps

/-!
Wakeups of interrupt waiters.
A signal leaves a pending mark and a token in the wake queue; `poll_wakes` turns
tokens into wakes. A token dropped by a full queue, or turned into a wake before the
waiter has blocked, leaves the waiter blocked with its mark set. In runs without
such a drop or wake, the token of every waiter that is about to block or blocked
with its mark set is still on its way.
-/

namespace HarborKernel.LockSections

open Function Capability ReadyQueue TaskTable Ipc IrqWait Processors Transition

def Pc.tokens : Pc → List UInt32
  | .poll _ (.wake token rest) => token :: rest
  | _ => []

namespace Kernel

variable {s s' : Kernel} {c : ℕ}

def Tokened (s : Kernel) (id : TaskId) : Prop :=
  id.toRaw ∈ s.queue.tokens ∨ (∃ c, c < nCpus ∧ s.hand c = some id) ∨
    ∃ i, i < maxTasks ∧ id.toRaw ∈ (s.pc i).tokens

def Awaits (s : Kernel) (i : ℕ) (me : TaskId) : Prop :=
  ∃ cookie, s.pc i = .waitIrq cookie (.block me) ∨
    (s.pc i = .waitIrq cookie (.resumed me) ∧ s.m.tasks.states i = .blocked)

structure Posted (s : Kernel) : Prop where
  bounded : s.queue.Bounded
  token : ∀ i, i < maxTasks → ∀ me, Awaits s i me → s.waits.isPending me = true → Tokened s me

variable {i : ℕ} {me : TaskId} {cookie : UInt32} {p : IrqPoint}

theorem Awaits.point (h : Awaits s i me) : ∃ cookie q, s.pc i = .waitIrq cookie q := by
  obtain ⟨cookie, h | ⟨h, -⟩⟩ := h
  · exact ⟨cookie, _, h⟩
  · exact ⟨cookie, _, h⟩

theorem Awaits.eq_idAt (h : Awaits s i me) (hb : Base s) (hi : i < maxTasks) :
    me = s.m.tasks.idAt i := by
  have hown := hb.own i hi
  obtain ⟨cookie, h | ⟨h, -⟩⟩ := h <;> rw [h] at hown <;> exact hown

def aboutToBlock (s : Kernel) (id : TaskId) : Bool :=
  match s.pc id.index with
  | .waitIrq _ (.block me) => me = id
  | _ => false

def awaits (s : Kernel) (id : TaskId) : Bool :=
  match s.pc id.index with
  | .waitIrq _ (.block me) => me = id
  | .waitIrq _ (.resumed me) => me = id && s.m.tasks.states id.index = .blocked
  | _ => false

def tokensArrive (s : Kernel) : Label → Bool
  | .push c =>
    match s.hand c with
    | some task => !s.awaits task || (s.queue.push task.toRaw).1
    | none => true
  | .exec c =>
    match s.m.phase c, s.pc (s.cur c).index with
    | .run, .poll _ (.wake token _) =>
      !(s.aboutToBlock (TaskId.fromRaw token) && s.waits.isPending (TaskId.fromRaw token))
    | _, _ => true
  | _ => true

/-- Waiters, marks and tokens after a step, from those before. -/
theorem Posted.of (h : Posted s) (hq : s'.queue.Bounded)
    (hback : ∀ i, i < maxTasks → ∀ me, Awaits s' i me → s'.waits.isPending me = true →
      Tokened s' me ∨ (Awaits s i me ∧ s.waits.isPending me = true ∧
        (Tokened s me → Tokened s' me))) : Posted s' := by
  refine ⟨hq, ?_⟩
  intro i hi me hawaits hpending
  rcases hback i hi me hawaits hpending with htok | ⟨hold, hmark, hkeep⟩
  · exact htok
  · exact hkeep (h.token i hi me hold hmark)

theorem Tokened.mono {id : TaskId} (h : Tokened s id) (hq : s'.queue = s.queue)
    (hhand : s'.hand = s.hand)
    (hpc : ∀ i, id.toRaw ∈ (s.pc i).tokens → id.toRaw ∈ (s'.pc i).tokens) : Tokened s' id := by
  rcases h with h | h | ⟨i, hi, h⟩
  · exact .inl (hq ▸ h)
  · exact .inr (.inl (hhand ▸ h))
  · exact .inr (.inr ⟨i, hi, hpc i h⟩)

section

variable (h : Posted s) (hb : Base s) (hc : Up s.m.online c)
include h hb hc

variable {p : Pc} {kind : Switch}

/-- The task on processor `c` moves on; it holds no token. -/
theorem Posted.of_move (hcalm : Machine.Calm s.m s'.m) (hpc : s'.pc = update s.pc (s.cur c).index p)
    (hold : (s.pc (s.cur c).index).tokens = []) (hq : s'.queue = s.queue) (hhand : s'.hand = s.hand)
    (hmark : ∀ id, s'.waits.isPending id = true → s.waits.isPending id = true)
    (hnew : ∀ cookie me, p = .waitIrq cookie (.block me) → s'.waits.isPending me = false) :
    Posted s' := by
  refine h.of (hq ▸ h.bounded) ?_
  rintro i hi me ⟨cookie, hp⟩ hpending
  right
  by_cases hik : i = (s.cur c).index
  · subst hik
    rw [hpc, update_self] at hp
    rcases hp with hp | ⟨-, hblocked⟩
    · rw [hnew cookie me hp] at hpending
      contradiction
    have hrun := hcalm.blocked _ hblocked
    rw [(hb.cur_sits hc).state] at hrun
    contradiction
  rw [hpc, update_of_ne hik] at hp
  refine ⟨⟨cookie, hp.imp_right fun hres => ⟨hres.1, hcalm.blocked i hres.2⟩⟩,
    hmark me hpending, fun htok => htok.mono hq hhand ?_⟩
  intro j hj
  by_cases hjk : j = (s.cur c).index
  · rw [hjk, hold] at hj
    contradiction
  · rwa [hpc, update_of_ne hjk]

theorem Posted.of_quiet (hold : (s.pc (s.cur c).index).tokens = []) (hcalm : Machine.Calm s.m s'.m)
    (hwaits : s'.waits = s.waits) (hq : s'.queue = s.queue) (hhand : s'.hand = s.hand)
    (hpc : s'.pc = update s.pc (s.cur c).index p)
    (hp : ∀ cookie me, p ≠ .waitIrq cookie (.block me)) : Posted s' := by
  refine h.of_move hb hc hcalm hpc hold hq hhand ?_ fun cookie me he => absurd he (hp cookie me)
  rw [hwaits]
  exact fun _ hmark => hmark

/-- The task on processor `c` gives it up; a waiter that blocks was about to. -/
theorem Posted.of_switch (hm : s'.m = s.m.switchWith c kind) (hwaits : s'.waits = s.waits)
    (hq : s'.queue = s.queue) (hhand : s'.hand = s.hand)
    (hpc : s'.pc = update s.pc (s.cur c).index p)
    (hold : ∀ x, x ∈ (s.pc (s.cur c).index).tokens → x ∈ p.tokens)
    (hself : ∀ me, Awaits s' (s.cur c).index me → Awaits s (s.cur c).index me) : Posted s' := by
  refine h.of (hq ▸ h.bounded) ?_
  intro i hi me hawaits hpending
  right
  rw [hwaits] at hpending
  refine ⟨?_, hpending, fun htok => htok.mono hq hhand ?_⟩
  · by_cases hik : i = (s.cur c).index
    · subst hik
      exact hself me hawaits
    obtain ⟨cookie, hp⟩ := hawaits
    rw [hpc, update_of_ne hik, hm] at hp
    exact ⟨cookie, hp.imp_right fun hres =>
      ⟨hres.1, Machine.switchWith_blocked hb.inv.tasks hc hik hres.2⟩⟩
  intro j hj
  rw [hpc, update_apply]
  split
  · rename_i hjk
    exact hold _ (hjk ▸ hj)
  · exact hj

/-- A task outside `wait_for_irq` gives up its processor. -/
theorem Posted.of_leave (hold : (s.pc (s.cur c).index).tokens = [])
    (hm : s'.m = s.m.switchWith c kind) (hwaits : s'.waits = s.waits) (hq : s'.queue = s.queue)
    (hhand : s'.hand = s.hand) (hpc : s'.pc = update s.pc (s.cur c).index p)
    (hp : ∀ cookie q, p ≠ .waitIrq cookie q) : Posted s' := by
  refine h.of_switch hb hc hm hwaits hq hhand hpc ?_ ?_
  · intro x hx
    rw [hold] at hx
    contradiction
  intro me hawaits
  obtain ⟨cookie, q, hq'⟩ := hawaits.point
  rw [hpc, update_self] at hq'
  exact absurd hq' (hp _ _)

end

theorem execIrq_block {cookie' : UInt32}
    (h : (s.execIrq c cookie p).pc (s.cur c).index = .waitIrq cookie' (.block me)) :
    (s.execIrq c cookie p).waits.isPending me = false := by
  have hpoint : ∀ {s1 : Kernel} {q : Pc}, s1.cur c = s.cur c →
      (s1.goto c q).pc (s.cur c).index = .waitIrq cookie' (.block me) →
      q = .waitIrq cookie' (.block me) := by
    intro s1 q hcur hq
    rw [← hcur] at hq
    exact (update_self ..).symm.trans hq
  cases p with
  | arm me' =>
    simp only [execIrq] at h
    split at h <;> have he := hpoint rfl h <;> cases he
  | takePending me' =>
    have he := hpoint rfl h
    split at he <;> cases he
    exact WaitTable.takePending_self ..
  | self | disarmFast me' | resumed me' | disarm me' =>
    have he := hpoint rfl h
    cases he
  | block me' =>
    have he : Pc.waitIrq cookie (.resumed me') = _ := (update_self ..).symm.trans h
    cases he

theorem Posted.irq (h : Posted s) (hb : Base s) (hc : Up s.m.online c)
    (hpc : s.pc (s.cur c).index = .waitIrq cookie p) : Posted (s.execIrq c cookie p) := by
  have hold : (s.pc (s.cur c).index).tokens = [] := by
    rw [hpc]
    rfl
  by_cases hblock : ∃ me, p = .block me
  · obtain ⟨me, rfl⟩ := hblock
    refine h.of_switch (p := .waitIrq cookie (.resumed me)) hb hc rfl rfl rfl rfl rfl ?_ ?_
    · intro x hx
      rw [hold] at hx
      contradiction
    rintro me' ⟨cookie', hp' | ⟨hp', -⟩⟩ <;>
      simp only [execIrq, switchTo, update_self] at hp' <;> cases hp'
    exact ⟨cookie, .inl hpc⟩
  obtain ⟨waits, delivered, p', heq, -⟩ :=
    execIrq_footprint s c cookie p fun me hme => hblock ⟨me, hme⟩
  have hk : (s.execIrq c cookie p).pc (s.cur c).index = p' := by
    rw [heq]
    exact update_self ..
  refine h.of_move (p := p') hb hc (heq ▸ Machine.Calm.refl _) (by rw [heq]) hold
    (by rw [heq]) (by rw [heq]) (fun _ => execIrq_mark) ?_
  intro cookie' me hnew
  exact execIrq_block (hk.trans hnew)

theorem tokens_of_direct {p : Pc} (h : p.direct = true) : p.tokens = [] := by
  unfold Pc.direct at h
  split at h <;> first | rfl | contradiction

theorem afterTokens_tokens (y : Bool) (tokens : List UInt32) :
    (afterTokens y tokens).tokens = tokens := by
  cases tokens <;> rfl

theorem Posted.of_poll (h : Posted s) (hcalm : Machine.Calm s.m s'.m) {p : Pc}
    (hpc : s'.pc = update s.pc (s.cur c).index p)
    (hp : ∀ cookie q, p ≠ .waitIrq cookie q) (hq : s'.queue.Bounded)
    (hwaits : s'.waits = s.waits)
    (htok : ∀ i, i < maxTasks → ∀ me, s'.pc i = s.pc i → Awaits s i me → Awaits s' i me →
      s.waits.isPending me = true → Tokened s me → Tokened s' me) : Posted s' := by
  refine h.of hq ?_
  intro i hi me hawaits hpending
  rw [hwaits] at hpending
  have hsame : s'.pc i = s.pc i := by
    obtain ⟨cookie, q, hq'⟩ := hawaits.point
    by_cases hik : i = (s.cur c).index
    · rw [hpc, hik, update_self] at hq'
      exact absurd hq' (hp _ _)
    · rw [hpc, update_of_ne hik]
  have hold : Awaits s i me := by
    obtain ⟨cookie, hq'⟩ := hawaits
    rw [hsame] at hq'
    exact ⟨cookie, hq'.imp_right fun hres => ⟨hres.1, hcalm.blocked i hres.2⟩⟩
  exact .inr ⟨hold, hpending, htok i hi me hsame hold hawaits hpending⟩

section

variable (h : Posted s) (hb : Base s) (hc : Up s.m.online c)
include h hb hc

theorem Posted.drain {y : Bool}
    (hpc : s.pc (s.cur c).index = .poll y .drain) (hm : s'.m = s.m) (hhand : s'.hand = s.hand)
    (hq : s'.queue = (s.queue.popUpTo wakeSlots).2) (hwaits : s'.waits = s.waits)
    (hpc' : s'.pc = update s.pc (s.cur c).index
      (afterTokens y (s.queue.popUpTo wakeSlots).1)) : Posted s' := by
  obtain ⟨hbounded, htokens⟩ := WakeQueue.popUpTo_spec wakeSlots h.bounded
  refine h.of_poll (hm ▸ Machine.Calm.refl _) hpc' (afterTokens_elsewhere y _).ne_irq
    (hq ▸ hbounded) hwaits ?_
  rintro _ _ me _ _ _ _ (hin | hin | ⟨j, hj, hin⟩)
  · rw [htokens, List.mem_append] at hin
    rcases hin with hin | hin
    · refine .inr (.inr ⟨_, (hb.cur_sits hc).lt, ?_⟩)
      rwa [hpc', update_self, afterTokens_tokens]
    · exact .inl (hq ▸ hin)
  · exact .inr (.inl (hhand ▸ hin))
  · refine .inr (.inr ⟨j, hj, ?_⟩)
    have hjk : j ≠ (s.cur c).index := by
      rintro rfl
      rw [hpc] at hin
      contradiction
    rwa [hpc', update_of_ne hjk]

theorem Posted.wake
    (hrun : s.m.phase c = .run) {y : Bool} {token : UInt32} {rest : List UInt32}
    (hpc : s.pc (s.cur c).index = .poll y (.wake token rest))
    (hguard : s.tokensArrive (.exec c) = true)
    (hm : s'.m = (s.m.wakeTask (TaskId.fromRaw token)).2) (hhand : s'.hand = s.hand)
    (hq : s'.queue = s.queue) (hwaits : s'.waits = s.waits)
    (hpc' : s'.pc = update s.pc (s.cur c).index (afterTokens y rest)) : Posted s' := by
  have hcalm := (wake_calm hb hc (.inl hrun) (TaskId.fromRaw token)).2.1
  have hwoken := Machine.wakeTask_not_blocked hb.inv.tasks (TaskId.fromRaw token)
  rw [← hm] at hcalm hwoken
  simp only [tokensArrive, hrun, hpc] at hguard
  refine h.of_poll hcalm hpc' (afterTokens_elsewhere y _).ne_irq (hq ▸ h.bounded) hwaits ?_
  intro i hi me hsame hold hawaits hmark htok
  have hme := hold.eq_idAt hb hi
  have hne : me.toRaw ≠ token := by
    rintro rfl
    rw [TaskId.fromRaw_toRaw] at hguard hwoken
    have hidx : me.index = i := by
      rw [hme]
      exact Tasks.idAt_index Machine.maxTasks_le s.m.tasks hi
    obtain ⟨cookie, hp | ⟨-, hblocked⟩⟩ := hawaits
    · rw [hsame] at hp
      simp [aboutToBlock, hidx, hp, hmark] at hguard
    · apply hwoken
      rw [hme, ← hcalm.idAt i, state_idAt hi, hblocked]
  rcases htok with hin | hin | ⟨j, hj, hin⟩
  · exact .inl (hq ▸ hin)
  · exact .inr (.inl (hhand ▸ hin))
  · refine .inr (.inr ⟨j, hj, ?_⟩)
    rw [hpc', update_apply]
    split
    · rename_i hjk
      rw [hjk, hpc] at hin
      rw [afterTokens_tokens]
      exact (List.mem_cons.mp hin).resolve_left hne
    · exact hin

theorem Posted.poll
    (hrun : s.m.phase c = .run) {y : Bool} {p : PollPoint}
    (hpc : s.pc (s.cur c).index = .poll y p) (hguard : s.tokensArrive (.exec c) = true) :
    Posted (s.execPoll c y p) := by
  have hcalm := Machine.Calm.refl s.m
  cases p with
  | drain => exact h.drain hb hc hpc rfl rfl rfl rfl rfl
  | wake token rest => exact h.wake hb hc hrun hpc hguard rfl rfl rfl rfl rfl
  | now => exact h.of_quiet hb hc (by rw [hpc]; rfl) hcalm rfl rfl rfl rfl nofun
  | expire now =>
    exact h.of_quiet hb hc (by rw [hpc]; rfl) hcalm rfl rfl rfl rfl
      fun _ _ => (afterIds_elsewhere ..).ne_irq _ _
  | clear id rest => exact h.of_quiet hb hc (by rw [hpc]; rfl) hcalm rfl rfl rfl rfl nofun
  | cancel id rest =>
    exact h.of_quiet hb hc (by rw [hpc]; rfl) (cancel_calm hb hc (.inl hrun) id).2.1 rfl rfl rfl
      rfl fun _ _ => (afterIds_elsewhere ..).ne_irq _ _

theorem Posted.task
    (hrun : s.m.phase c = .run) (hguard : s.tokensArrive (.exec c) = true)
    (hs : s.execTask c = some s') : Posted s' := by
  have hcalm := Machine.Calm.refl s.m
  rcases execTask_cases hb hc hrun hs with ⟨cap, limit, p, hpc, rfl⟩ | ⟨p, hpc, rfl⟩ |
    ⟨cookie, p, hpc, rfl⟩ | ⟨y, p, hpc, rfl⟩ | ⟨id, hpc, rfl⟩ | ⟨hp, -, kind, hm⟩ | ⟨hp, hcalm'⟩
  · by_cases hblock : ∃ me, p = .block me
    · obtain ⟨me, rfl⟩ := hblock
      exact h.of_leave (p := .recv cap limit (.resumed me)) hb hc (by rw [hpc]; rfl) rfl rfl rfl
        rfl rfl nofun
    obtain ⟨ipc, cancelWait, p', heq, hp'⟩ :=
      execRecv_footprint s c cap limit p fun me hme => hblock ⟨me, hme⟩
    rw [heq]
    refine h.of_quiet hb hc (by rw [hpc]; rfl) hcalm rfl rfl rfl rfl ?_
    rcases hp' with ⟨r, rfl⟩ | ⟨q, rfl, -⟩
    · unfold answered
      split <;> nofun
    · nofun
  · obtain ⟨deadlines, hit, p', heq, hp'⟩ := execTimed_footprint s c p
    rw [heq]
    refine h.of_quiet hb hc (by rw [hpc]; rfl) hcalm rfl rfl rfl rfl ?_
    rcases hp' with ⟨q, rfl⟩ | ⟨me, cap, d, -, rfl⟩ | ⟨r, rfl⟩ <;> nofun
  · exact h.irq hb hc hpc
  · exact h.poll hb hc hrun hpc hguard
  · exact h.of_quiet hb hc (by rw [hpc]; rfl) (cancel_calm hb hc (.inl hrun) id).2.1 rfl rfl
      rfl rfl nofun
  · obtain ⟨p, hpp, hpc⟩ := hp.point
    exact h.of_leave hb hc (tokens_of_direct hp.old) hm hp.waits hp.queue hp.hand hpc
      (Pc.Elsewhere.ne_irq (.inl hpp))
  · obtain ⟨p, hpp, hpc⟩ := hp.point
    exact h.of_quiet hb hc (tokens_of_direct hp.old) hcalm' hp.waits hp.queue hp.hand hpc
      fun _ _ => Pc.Elsewhere.ne_irq (.inl hpp) _ _

end

/-- Nothing but the scheduler changes, and no slot becomes blocked. -/
theorem Posted.of_calm (h : Posted s) (hcalm : Machine.Calm s.m s'.m) (hpc : s'.pc = s.pc)
    (hwaits : s'.waits = s.waits) (hq : s'.queue = s.queue) (hhand : s'.hand = s.hand) :
    Posted s' := by
  refine h.of (hq ▸ h.bounded) ?_
  rintro i hi me ⟨cookie, hp⟩ hpending
  rw [hpc] at hp
  rw [hwaits] at hpending
  refine .inr ⟨⟨cookie, hp.imp_right fun hres => ⟨hres.1, hcalm.blocked i hres.2⟩⟩, hpending,
    fun htok => htok.mono hq hhand ?_⟩
  rw [hpc]
  exact fun _ hj => hj

theorem Posted.tail (h : Posted s) (hb : Base s) (hc : Up s.m.online c)
    (hbusy : (s.tail c).busy = true) (from' : TaskId) :
    Posted (s.execTail c from' (s.tail c)) := by
  have hcancel := fun id => (cancel_calm hb hc (.inr hbusy) id).2.1
  cases s.tail c with
  | reap id rest | cancel id rest => exact h.of_calm (hcancel id) rfl rfl rfl rfl
  | _ => exact h.of_calm (Machine.Calm.refl _) rfl rfl rfl rfl

/-- A signal keeps the task it marks in hand. -/
theorem Posted.signal (h : Posted s) (hfree : s.free c) (cookie : UInt32) :
    Posted (s.signal c cookie) := by
  have hspec := @WaitTable.signal_isPending s.waits cookie
  unfold Kernel.signal
  split <;> rename_i heq <;> rw [heq] at hspec
  · refine h.of h.bounded ?_
    intro i hi me hawaits hpending
    refine .inr ⟨hawaits, ?_, fun htok => htok⟩
    exact (hspec hpending).resolve_right nofun
  · refine h.of h.bounded ?_
    intro i hi me hawaits hpending
    rcases hspec hpending with hold | hme
    · refine .inr ⟨hawaits, hold, ?_⟩
      rintro (hin | ⟨d, hd, hin⟩ | hin)
      · exact .inl hin
      · refine .inr (.inl ⟨d, hd, ?_⟩)
        have hdc : d ≠ c := by
          rintro rfl
          rw [hfree.2] at hin
          contradiction
        exact (update_of_ne hdc ..).trans hin
      · exact .inr (.inr hin)
    · refine .inl (.inr (.inl ⟨c, hfree.1.lt, ?_⟩))
      exact (update_self ..).trans hme

theorem Awaits.awaits (h : Awaits s i me) (hb : Base s) (hi : i < maxTasks) :
    s.awaits me = true := by
  have hidx : me.index = i := by
    rw [h.eq_idAt hb hi]
    exact Tasks.idAt_index Machine.maxTasks_le s.m.tasks hi
  obtain ⟨cookie, hp | ⟨hp, hblocked⟩⟩ := h
  · simp [Kernel.awaits, hidx, hp]
  · simp [Kernel.awaits, hidx, hp, hblocked]

/-- A push moves the token of a waiting task from the hand to the queue. -/
theorem Posted.push (h : Posted s) (hb : Base s) {task : TaskId} (htask : s.hand c = some task)
    (hguard : s.tokensArrive (.push c) = true) :
    Posted { s with
      queue := (s.queue.push task.toRaw).2
      hand := update s.hand c none } := by
  have htokens := WakeQueue.push_tokens h.bounded task.toRaw
  simp only [tokensArrive, htask] at hguard
  refine h.of (WakeQueue.push_bounded h.bounded _) ?_
  intro i hi me hawaits hpending
  have hold : Awaits s i me := hawaits
  refine .inr ⟨hold, hpending, ?_⟩
  rintro (hin | ⟨d, hd, hin⟩ | hin)
  · left
    simp only [htokens]
    split
    · exact List.mem_append_left _ hin
    · exact hin
  · by_cases hdc : d = c
    · subst hdc
      rw [htask] at hin
      cases hin
      left
      rw [hold.awaits hb hi, Bool.not_true, Bool.false_or] at hguard
      simp [htokens, hguard]
    · exact .inr (.inl ⟨d, hd, (update_of_ne hdc ..).trans hin⟩)
  · exact .inr (.inr hin)

theorem Posted.step (h : Posted s) (hb : Base s) {l : Label}
    (hguard : s.tokensArrive l = true) (hs : s.step l = some s') : Posted s' := by
  rcases step_cases hs with ⟨c, f, -, hfree, -, huser, -, rfl⟩ | ⟨c, rfl, hfree, hrun, hex⟩ |
    ⟨c, v, rfl, hfree, hp, hbusy, rfl⟩ | ⟨c, m, -, -, hm, rfl, -⟩ | ⟨c, -, hfree, hrun, rfl⟩ |
    ⟨c, cookie, -, hfree, -, rfl⟩ | ⟨c, task, rfl, htask, rfl⟩ | ⟨-, rfl⟩
  · refine h.of_quiet hb hfree.1 ?_ (Machine.Calm.refl _) rfl rfl rfl rfl ?_
    · cases hpc : s.pc (s.cur c).index <;> rw [hpc] at huser <;> first | rfl | contradiction
    intro cookie me
    cases f with
    | spawnOn cpu slots =>
      simp only [Call.entry]
      split <;> simp
    | _ => (intro h; cases h)
  · exact h.task hb hfree.1 hrun hguard hex
  · exact h.tail hb hfree.1 hbusy v.from'
  · exact h.of_calm (Machine.step_exec_frame hm).2.2.1 rfl rfl rfl rfl
  · refine h.of_switch hb hfree.1 rfl rfl rfl rfl (pc_self s _) (fun _ hx => hx) ?_
    rintro me ⟨cookie, hp | ⟨-, hblocked⟩⟩
    · exact ⟨cookie, .inl hp⟩
    · exact absurd hblocked (Machine.switchWith_not_blocked hb.inv.tasks hfree.1 (by decide))
  · exact h.signal hfree cookie
  · exact h.push hb htask hguard
  · exact ⟨h.bounded, h.token⟩

theorem reach_posted (h : Reach Boot Kernel.step (fun s l => s.tokensArrive l = true) s) :
    Posted s := by
  refine h.invariant_of (J := Base) (I := Posted) (fun _ hr => reach_base hr) ?_ ?_
  · rintro s ⟨created, rfl⟩
    exact ⟨WakeQueue.new_bounded (by decide), nofun⟩
  · intro s l s' hb _ hposted hok hs
    exact hposted.step hb hok hs

instance (s : Kernel) (id : TaskId) : Decidable (Tokened s id) :=
  inferInstanceAs (Decidable (_ ∨ _ ∨ _))

def lostWaiter (s : Kernel) (i : ℕ) : Bool :=
  match s.pc i with
  | .waitIrq _ (.resumed me) =>
    s.m.tasks.states i = .blocked && s.waits.isPending me && !decide (Tokened s me)
  | _ => false

/-- In a run where no token of a waiting task is dropped or spent before the task has
blocked, a delivered interrupt always leaves something to wake its waiter. -/
theorem no_lost_waiter (s : Kernel)
    (h : Reach Boot Kernel.step (fun s l => s.tokensArrive l = true) s) (i : ℕ)
    (hi : i < maxTasks) : s.lostWaiter i = false := by
  unfold lostWaiter
  split
  · rename_i cookie me hpc
    by_cases hblocked : s.m.tasks.states i = .blocked
    · cases hmark : s.waits.isPending me with
      | false => simp
      | true =>
        have htok := (reach_posted h).token i hi me ⟨cookie, .inr ⟨hpc, hblocked⟩⟩ hmark
        simp [htok]
    · simp [hblocked]
  · rfl

/-- A signal finds a blocked waiter; its token is still in hand. -/
theorem no_lost_waiter_signalled : ∃ s,
    Reach Boot Kernel.step (fun s l => s.tokensArrive l = true) s ∧
    (s.m.tasks.states 1 = .blocked ∧ s.waits.isPending (TaskId.new 1 0) = true) ∧
    ∀ i, i < maxTasks → s.lostWaiter i = false := by
  have hstart : Reach Boot Kernel.step (fun s l => s.tokensArrive l = true) _ := reach_boot []
  obtain ⟨s, hreach, hP⟩ := hstart.exists_run
    (P := fun s => s.m.tasks.states 1 = .blocked ∧ s.waits.isPending (TaskId.new 1 0) = true)
    ([.call 0 (.spawnOn 0 [])] ++ execs 0 2 ++ [.call 0 .yieldNow] ++ execs 0 7 ++
      [.call 0 (.waitForIrq 5)] ++ execs 0 7 ++ [.signal 0 5]) (by decide +kernel)
  exact ⟨s, hreach, hP, no_lost_waiter s hreach⟩

/-- The interrupt arrives after the waiter has looked for its mark, and the drain wakes
the waiter before it has blocked. -/
theorem lost_waiter : ∃ s, Reach Boot Kernel.step (fun _ _ => True) s ∧
    s.lostWaiter 1 = true := by
  have hstart : Reach Boot Kernel.step (fun _ _ => True) _ := reach_boot []
  exact hstart.exists_run
    ([.call 0 (.spawnOn 0 [])] ++ execs 0 2 ++ [.call 0 .yieldNow] ++ execs 0 7 ++
      [.call 0 (.waitForIrq 5)] ++ execs 0 3 ++ [.signal 0 5, .push 0, .preempt 0] ++ execs 0 3 ++
      [.call 0 .yieldNow] ++ execs 0 12) (by decide +kernel)

end Kernel

end HarborKernel.LockSections
