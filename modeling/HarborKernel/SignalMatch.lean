import HarborKernel.CancelMatch

/-!
Signals and the waits that they end.
`wait_for_irq` returns as soon as it runs again after its block, so a cancel or a
stale token that wakes the task ends a wait without its interrupt. In runs without
such wakes, a wait that returns has been signalled after it armed its cookie;
`delivered` remembers a match of the present arm.
-/

namespace HarborKernel.LockSections

open Function Capability ReadyQueue TaskTable Ipc IrqWait Processors Transition

def Pc.irq : Pc → Bool
  | .waitIrq _ _ => true
  | .user (.waited _ _) => true
  | _ => false

def Pc.irqDone : Pc → Bool
  | .waitIrq _ (.disarmFast _) => true
  | .waitIrq _ (.disarm _) => true
  | .user (.waited _ true) => true
  | _ => false

def Pc.answersCancelled : Pc → Bool
  | .user (.received ⟨.error .cancelled, _⟩) => true
  | .timed (.disarm _ ⟨.error .cancelled, _⟩) => true
  | _ => false

theorem Pc.Elsewhere.irq {p : Pc} (h : p.Elsewhere) : p.irq = false := by
  rcases h with h | ⟨y, q, rfl⟩
  · unfold Pc.direct at h
    split at h <;> first | rfl | contradiction
  · rfl

namespace Kernel

variable {s s' : Kernel} {c : ℕ}

def InWait (s : Kernel) (id : TaskId) (cookie : UInt32) : Prop :=
  id.index < maxTasks ∧ (s.pc id.index = .waitIrq cookie (.takePending id) ∨
    s.pc id.index = .waitIrq cookie (.block id) ∨ s.pc id.index = .waitIrq cookie (.resumed id))

structure Signalled (s : Kernel) : Prop where
  armed : ∀ k, k < maxWaiters → ∀ id, s.waits.tasks k = some id → InWait s id (s.waits.cookies k)
  single : ∀ k k', k < maxWaiters → k' < maxWaiters → ∀ id, s.waits.tasks k = some id →
    s.waits.tasks k' = some id → k = k'
  apart : ∀ k, k < maxWaiters → ∀ id, s.waits.tasks k = some id → s.waits.isPending id = false
  pending : ∀ id, s.waits.isPending id = true →
    (∃ cookie, InWait s id cookie) ∧ s.delivered id.index = true
  resumed : ∀ i, i < maxTasks → ∀ cookie me, s.pc i = .waitIrq cookie (.resumed me) →
    s.m.tasks.states i ≠ .blocked → s.waits.isPending me = true
  done : ∀ i, i < maxTasks → (s.pc i).irqDone = true → s.delivered i = true
  notIdle : ∀ i, i < maxTasks → ∀ cookie q, s.pc i = .waitIrq cookie q →
    ∀ d, d < nCpus → (s.m.tasks.idle d).index ≠ i

variable {cookie : UInt32} {l : Label} {id : TaskId} {p : Pc} {q : IrqPoint}

theorem InWait.point (h : InWait s id cookie) :
    ∃ q, s.pc id.index = .waitIrq cookie q := by
  rcases h.2 with h | h | h <;> exact ⟨_, h⟩

theorem InWait.of_pc (h : InWait s id cookie) (hpc : s'.pc id.index = s.pc id.index) :
    InWait s' id cookie := by
  refine ⟨h.1, ?_⟩
  rw [hpc]
  exact h.2

theorem wakesMatch_target (h : s.wakesMatch (.exec c) = true) (htarget : s.target c = some id)
    (hirq : s.blockedInIrq id = true) :
    s.waits.isPending id = true := by
  unfold target at htarget
  split at htarget
  · rename_i hrun
    simp only [wakesMatch, hrun, Bool.and_eq_true] at h
    obtain ⟨hwoken, hcancelled⟩ := h
    unfold Pc.target at htarget
    split at htarget <;> cases htarget <;> rename_i hpc <;>
      simp only [hpc, Pc.woken, Pc.cancelled, Option.all_some, hirq, Bool.not_true,
        Bool.false_or, Bool.false_eq_true] at hwoken hcancelled
    · exact hwoken
    · exact hwoken
  · rename_i v htail
    simp only [wakesMatch, htail, htarget, Option.all_some, hirq, Bool.not_true,
      Bool.false_eq_true] at h
  · contradiction

theorem entry_irq {f : Call} (h : f.entry.irq = true) :
    ∃ cookie, f = .waitForIrq cookie := by
  cases f with
  | waitForIrq cookie => exact ⟨cookie, rfl⟩
  | spawnOn cpu slots =>
    simp only [Call.entry] at h
    split at h <;> contradiction
  | _ => contradiction

structure IrqFrame (s s' : Kernel) : Prop where
  waits : s'.waits = s.waits
  delivered : s'.delivered = s.delivered
  points : ∀ i, s'.pc i = s.pc i ∨
    ((∀ cookie q, s.pc i ≠ .waitIrq cookie q) ∧ (s'.pc i).irq = false)

theorem IrqFrame.of_move (hwaits : s'.waits = s.waits) (hdel : s'.delivered = s.delivered)
    (hpc : s'.pc = update s.pc (s.cur c).index p)
    (hold : ∀ cookie q, s.pc (s.cur c).index ≠ .waitIrq cookie q) (hp : p.irq = false) :
    IrqFrame s s' := by
  refine ⟨hwaits, hdel, ?_⟩
  intro i
  rw [hpc]
  by_cases hik : i = (s.cur c).index
  · subst hik
    rw [update_self]
    exact .inr ⟨hold, hp⟩
  · exact .inl (update_of_ne hik ..)

theorem IrqFrame.of_same (hwaits : s'.waits = s.waits) (hdel : s'.delivered = s.delivered)
    (hpc : s'.pc = s.pc) : IrqFrame s s' := ⟨hwaits, hdel, fun _ => .inl (by rw [hpc])⟩

theorem execTask_irq (hb : Base s) (hc : Up s.m.online c) (hrun : s.m.phase c = .run)
    (hs : s.execTask c = some s') :
    (∃ cookie p, s.pc (s.cur c).index = .waitIrq cookie p ∧ s' = s.execIrq c cookie p) ∨
    IrqFrame s s' := by
  have hdirect : Direct s c s' → IrqFrame s s' := by
    intro hp
    obtain ⟨p, hpp, hpc⟩ := hp.point
    exact IrqFrame.of_move hp.waits hp.delivered hpc (Pc.Elsewhere.ne_irq (.inl hp.old))
      (Pc.Elsewhere.irq (.inl hpp))
  rcases execTask_cases hb hc hrun hs with ⟨cap, limit, p, hpc, rfl⟩ | ⟨p, hpc, rfl⟩ |
    ⟨cookie, p, hpc, rfl⟩ | ⟨y, p, hpc, rfl⟩ | ⟨id, hpc, rfl⟩ | ⟨hp, -⟩ | ⟨hp, -⟩
  · right
    by_cases hblock : ∃ me, p = .block me
    · obtain ⟨me, rfl⟩ := hblock
      exact IrqFrame.of_move (p := .recv cap limit (.resumed me)) rfl rfl rfl
        (by rw [hpc]; nofun) rfl
    obtain ⟨ipc, cancelWait, p', heq, hp'⟩ :=
      execRecv_footprint s c cap limit p fun me hme => hblock ⟨me, hme⟩
    rw [heq]
    refine IrqFrame.of_move rfl rfl rfl (by rw [hpc]; nofun) ?_
    rcases hp' with ⟨r, rfl⟩ | ⟨q, rfl, -⟩
    · unfold answered
      split <;> rfl
    · rfl
  · right
    obtain ⟨deadlines, hit, p', heq, hp'⟩ := execTimed_footprint s c p
    rw [heq]
    refine IrqFrame.of_move rfl rfl rfl (by rw [hpc]; nofun) ?_
    rcases hp' with ⟨q, rfl⟩ | ⟨me, cap, d, -, rfl⟩ | ⟨r, rfl⟩ <;> rfl
  · exact .inl ⟨cookie, p, hpc, rfl⟩
  · right
    have hold : ∀ cookie q, s.pc (s.cur c).index ≠ .waitIrq cookie q := by
      rw [hpc]
      nofun
    cases p with
    | drain => exact IrqFrame.of_move rfl rfl rfl hold (afterTokens_elsewhere ..).irq
    | wake token rest => exact IrqFrame.of_move rfl rfl rfl hold (afterTokens_elsewhere y rest).irq
    | now => exact IrqFrame.of_move rfl rfl rfl hold rfl
    | expire now => exact IrqFrame.of_move rfl rfl rfl hold (afterIds_elsewhere ..).irq
    | clear id rest =>
      exact IrqFrame.of_move (p := .poll y (.cancel id rest)) rfl rfl rfl hold rfl
    | cancel id rest => exact IrqFrame.of_move rfl rfl rfl hold (afterIds_elsewhere y rest).irq
  · exact .inr (IrqFrame.of_move (p := .user .none) rfl rfl rfl (by rw [hpc]; nofun) rfl)
  · exact .inr (hdirect hp)
  · exact .inr (hdirect hp)

theorem step_irq (hb : Base s) (hs : s.step l = some s') :
    (∃ c cookie p, l = .exec c ∧ s.free c ∧ s.m.phase c = .run ∧
      s.pc (s.cur c).index = .waitIrq cookie p ∧ s' = s.execIrq c cookie p) ∨
    (∃ c cookie, l = .signal c cookie ∧ s' = s.signal c cookie) ∨
    (∃ c cookie, s.free c ∧ s.cur c ≠ s.m.tasks.idle c ∧
      (s.pc (s.cur c).index).isUser = true ∧ s' = s.enter c (.waitForIrq cookie)) ∨
    IrqFrame s s' := by
  rcases step_cases hs with ⟨c, f, -, hfree, -, huser, hallowed, rfl⟩ |
    ⟨c, rfl, hfree, hrun, hex⟩ | ⟨c, v, rfl, hfree, hp, hbusy, rfl⟩ | ⟨c, m, -, -, hm, rfl, -⟩ |
    ⟨c, -, hfree, hrun, rfl⟩ | ⟨c, cookie, rfl, hfree, -, rfl⟩ | ⟨c, task, rfl, htask, rfl⟩ |
    ⟨-, rfl⟩
  · right; right
    cases hirq : f.entry.irq with
    | true =>
      obtain ⟨cookie, rfl⟩ := entry_irq hirq
      exact .inl ⟨c, cookie, hfree, of_decide_eq_true hallowed, huser, rfl⟩
    | false =>
      refine .inr (IrqFrame.of_move (p := f.entry) rfl rfl rfl ?_ hirq)
      intro cookie q hpc
      rw [hpc] at huser
      contradiction
  · rcases execTask_irq hb hfree.1 hrun hex with ⟨cookie, p, hpc, rfl⟩ | hframe
    · exact .inl ⟨c, cookie, p, rfl, hfree, hrun, hpc, rfl⟩
    · exact .inr (.inr (.inr hframe))
  · right; right; right
    cases s.tail c <;> exact IrqFrame.of_same rfl rfl rfl
  · exact .inr (.inr (.inr (IrqFrame.of_same rfl rfl rfl)))
  · exact .inr (.inr (.inr (IrqFrame.of_same rfl rfl rfl)))
  · exact .inr (.inl ⟨c, cookie, rfl, rfl⟩)
  · exact .inr (.inr (.inr (IrqFrame.of_same rfl rfl rfl)))
  · exact .inr (.inr (.inr (IrqFrame.of_same rfl rfl rfl)))

variable {i : ℕ} {limit : Option (TaskId × ℕ)}

/-- A waiter that a guarded step leaves unblocked has its mark. -/
theorem Signalled.marked (h : Signalled s) (hb : Base s) (hguard : s.wakesMatch l = true)
    (hs : s.step l = some s') (hi : i < maxTasks) {me : TaskId}
    (hpc : s.pc i = .waitIrq cookie (.resumed me)) (hst : s'.m.tasks.states i ≠ .blocked) :
    s.waits.isPending me = true := by
  by_cases hblocked : s.m.tasks.states i = .blocked
  · rcases step_blocked hb hs hblocked with hno | ⟨c, id, rfl, htarget, hstate, hidx⟩
    · exact absurd hno hst
    have hown := hb.own i hi
    rw [hpc] at hown
    have hid : id = me := by
      rw [hown, Tasks.eq_idAt_of_state hstate, ← hidx]
    subst hid
    refine wakesMatch_target hguard htarget ?_
    simp [blockedInIrq, hstate, ← hidx, hpc]
  · exact h.resumed i hi cookie me hpc hblocked

theorem Signalled.idle_ne (h : Signalled s) (hb : Base s) (hs : s.step l = some s')
    (hi : i < maxTasks) (hpc : s.pc i = .waitIrq cookie q) (d : ℕ) (hd : d < nCpus) :
    (s'.m.tasks.idle d).index ≠ i := by
  rcases step_idle hb hs d with heq | ⟨slot, hlt, hempty, heq⟩
  · rw [heq]
    exact h.notIdle i hi cookie q hpc d hd
  rw [heq, Tasks.idAt_index Machine.maxTasks_le s.m.tasks hlt]
  rintro rfl
  rw [hb.empty slot hlt hempty] at hpc
  contradiction

theorem Base.cur_ne_idle (hb : Base s) (hc : Up s.m.online c)
    (hidle : s.cur c ≠ s.m.tasks.idle c) (d : ℕ) (hd : d < nCpus) :
    (s.m.tasks.idle d).index ≠ (s.cur c).index := by
  have hcur := hb.cur_sits hc
  have hup : ∀ e, Up s.m.online e → (s.m.tasks.idle e).index ≠ (s.cur c).index := by
    intro e he hidx
    rcases hb.inv.tasks.idle e he with heq | hq
    · have hsits := hb.cur_sits he
      have hsame : s.m.tasks.idle e = s.cur c := by
        rw [hcur.eq_idAt, ← hidx, heq]
        exact hsits.eq_idAt
      have hec : e = c := by
        rw [← hsits.home, ← hcur.home, ← hidx, heq]
        rfl
      subst hec
      exact hidle hsame.symm
    · have hsits := hb.inv.tasks.queued e he.lt _ hq
      have hstate := hsits.state
      rw [hidx, hcur.state] at hstate
      contradiction
  by_cases he : Up s.m.online d
  · exact hup d he
  have hd1 : d = 1 := by
    have h0 : d ≠ 0 := fun h0 => he (.inl h0)
    simp only [nCpus] at hd
    omega
  subst hd1
  have hoff : s.m.tasks.idle 1 = s.m.tasks.idle 0 := by
    rw [hb.inv.tasks.idle0]
    by_contra hne
    exact he (.inr ⟨rfl, hb.inv.tasks.cpu1.mpr hne⟩)
  rw [hoff]
  exact hup 0 (.inl rfl)

theorem Signalled.of_frame (h : Signalled s) (hb : Base s) (hguard : s.wakesMatch l = true)
    (hs : s.step l = some s') (hframe : IrqFrame s s') :
    Signalled s' := by
  have hkeep : ∀ i cookie q, s.pc i = .waitIrq cookie q → s'.pc i = s.pc i := by
    intro i cookie q hpc
    rcases hframe.points i with hsame | ⟨hno, -⟩
    · exact hsame
    · exact absurd hpc (hno cookie q)
  have hback : ∀ i, (s'.pc i).irq = true → s'.pc i = s.pc i := by
    intro i hirq
    rcases hframe.points i with hsame | ⟨-, hno⟩
    · exact hsame
    · rw [hno] at hirq
      contradiction
  have hwait : ∀ {id cookie}, InWait s id cookie → InWait s' id cookie := by
    intro id cookie hw
    obtain ⟨q, hq⟩ := hw.point
    exact hw.of_pc (hkeep _ _ _ hq)
  constructor
  · rw [hframe.waits]
    intro k hk id hid
    exact hwait (h.armed k hk id hid)
  · rw [hframe.waits]
    exact h.single
  · rw [hframe.waits]
    exact h.apart
  · rw [hframe.waits, hframe.delivered]
    intro id hid
    obtain ⟨⟨cookie, hw⟩, hdel⟩ := h.pending id hid
    exact ⟨⟨cookie, hwait hw⟩, hdel⟩
  · intro i hi cookie me hpc hst
    have hsame := hback i (by rw [hpc]; rfl)
    rw [hframe.waits]
    exact h.marked hb hguard hs hi (hsame ▸ hpc) hst
  · intro i hi hdone
    have hirq : (s'.pc i).irq = true := by
      unfold Pc.irqDone at hdone
      split at hdone
      · rename_i hpc
        rw [hpc]
        rfl
      · rename_i hpc
        rw [hpc]
        rfl
      · rename_i hpc
        rw [hpc]
        rfl
      · contradiction
    rw [hframe.delivered]
    rw [hback i hirq] at hdone
    exact h.done i hi hdone
  · intro i hi cookie q hpc d hd
    have hsame := hback i (by rw [hpc]; rfl)
    exact h.idle_ne hb hs hi (hsame ▸ hpc) d hd

theorem Signalled.enter (h : Signalled s) (hb : Base s) (hfree : s.free c)
    (hidle : s.cur c ≠ s.m.tasks.idle c) (huser : (s.pc (s.cur c).index).isUser = true) :
    Signalled (s.enter c (.waitForIrq cookie)) := by
  have hk : (s.enter c (.waitForIrq cookie)).pc (s.cur c).index = .waitIrq cookie .self :=
    update_self ..
  have hother : ∀ {i}, i ≠ (s.cur c).index →
      (s.enter c (.waitForIrq cookie)).pc i = s.pc i := fun hi => update_of_ne hi ..
  have hwait : ∀ {id k}, InWait s id k → InWait (s.enter c (.waitForIrq cookie)) id k := by
    intro id k hw
    obtain ⟨q, hq⟩ := hw.point
    refine hw.of_pc (hother ?_)
    intro he
    rw [← he, hq] at huser
    contradiction
  constructor
  · intro k hk id hid
    exact hwait (h.armed k hk id hid)
  · exact h.single
  · exact h.apart
  · intro id hid
    obtain ⟨⟨k, hw⟩, hdel⟩ := h.pending id hid
    exact ⟨⟨k, hwait hw⟩, hdel⟩
  · intro i hi k me hpc hst
    by_cases hik : i = (s.cur c).index
    · rw [hik, hk] at hpc
      cases hpc
    · rw [hother hik] at hpc
      exact h.resumed i hi k me hpc hst
  · intro i hi hdone
    by_cases hik : i = (s.cur c).index
    · rw [hik, hk] at hdone
      contradiction
    · rw [hother hik] at hdone
      exact h.done i hi hdone
  · intro i hi k q hpc d hd
    by_cases hik : i = (s.cur c).index
    · subst hik
      exact hb.cur_ne_idle hfree.1 hidle d hd
    · rw [hother hik] at hpc
      exact h.notIdle i hi k q hpc d hd

theorem Signalled.signal (h : Signalled s) (hb : Base s) (cookie : UInt32) :
    Signalled (s.signal c cookie) := by
  rcases WaitTable.signal_cases s.waits cookie with heq | ⟨k, task, hk, htask, hcookie, heq⟩
  · simp only [Kernel.signal, heq]
    exact ⟨h.armed, h.single, h.apart, h.pending, h.resumed, h.done, h.notIdle⟩
  have hw := h.armed k hk task htask
  rw [hcookie] at hw
  have hidAt : s.m.tasks.idAt task.index = task := by
    have hown := hb.own _ hw.1
    rcases hw.2 with hpc | hpc | hpc <;> rw [hpc] at hown <;> exact hown.symm
  have hmatch : s.waitsFor task cookie = true := by
    rcases hw.2 with hpc | hpc | hpc <;> simp [waitsFor, hidAt, hpc]
  have hids : task.index < maxTaskIds := Nat.lt_of_lt_of_le hw.1 (by decide)
  have hmark := @WaitTable.signal_isPending s.waits cookie
  simp only [Kernel.signal, heq, hmatch, hids, if_true] at hmark ⊢
  have hdel : ∀ i, s.delivered i = true →
      update s.delivered task.index true i = true := by
    intro i hi
    rw [update_apply]
    split
    · rfl
    · exact hi
  have hold : ∀ k' id, update s.waits.tasks k none k' = some id →
      k' ≠ k ∧ s.waits.tasks k' = some id := by
    intro k' id hid
    rw [update_apply] at hid
    split at hid
    · contradiction
    · exact ⟨by assumption, hid⟩
  constructor
  · intro k' hk' id hid
    exact h.armed k' hk' id (hold k' id hid).2
  · intro k1 k2 hk1 hk2 id hid1 hid2
    exact h.single k1 k2 hk1 hk2 id (hold k1 id hid1).2 (hold k2 id hid2).2
  · intro k' hk' id hid
    obtain ⟨hne, hid'⟩ := hold k' id hid
    by_contra htrue
    rcases hmark (Bool.eq_true_of_not_eq_false htrue) with hpend | he
    · rw [h.apart k' hk' id hid'] at hpend
      contradiction
    · cases he
      exact hne (h.single k' k hk' hk task hid' htask)
  · intro id hid
    rcases hmark hid with hpend | he
    · obtain ⟨hw', hd'⟩ := h.pending id hpend
      exact ⟨hw', hdel _ hd'⟩
    · cases he
      exact ⟨⟨cookie, hw⟩, update_self ..⟩
  · intro i hi k' me hpc hst
    have hpend := h.resumed i hi k' me hpc hst
    rw [WaitTable.isPending_iff] at hpend ⊢
    refine ⟨hpend.1, ?_⟩
    simp only [update_apply]
    split
    · rename_i hidx
      have hown := hb.own i hi
      rw [hpc] at hown
      have hme : me.index = i := by
        rw [hown]
        exact Tasks.idAt_index Machine.maxTasks_le s.m.tasks hi
      rw [hown, ← hidAt, ← hidx, hme]
    · exact hpend.2
  · intro i hi hdone
    exact hdel i (h.done i hi hdone)
  · exact h.notIdle

theorem InWait.eq_cur (h : InWait s id cookie) (hb : Base s) (hc : Up s.m.online c)
    (hidx : id.index = (s.cur c).index) : id = s.cur c := by
  have hown := hb.own_cur hc
  rw [← hidx] at hown
  rcases h.2 with hpc | hpc | hpc <;> rw [hpc] at hown <;> exact hown

section

variable (h : Signalled s)
include h

/-- A section of `wait_for_irq` concerns the entry, the mark and the point of its own task. -/
theorem Signalled.of_own (hb : Base s) (hguard : s.wakesMatch l = true)
    (hs : s.step l = some s') (hc : Up s.m.online c)
    (hold : s.pc (s.cur c).index = .waitIrq cookie q)
    (hpc : s'.pc = update s.pc (s.cur c).index p)
    (htasks : ∀ k id, id ≠ s.cur c → s'.waits.tasks k = some id → s.waits.tasks k = some id ∧
      s'.waits.cookies k = s.waits.cookies k)
    (hself : ∀ k, k < maxWaiters → s'.waits.tasks k = some (s.cur c) → InWait s' (s.cur c)
      (s'.waits.cookies k) ∧ s'.waits.isPending (s.cur c) = false ∧ ∀ k', k' < maxWaiters →
      s'.waits.tasks k' = some (s.cur c) → k = k')
    (hmark : ∀ id, s'.waits.isPending id = true → s.waits.isPending id = true)
    (hmark' : ∀ id, id.index ≠ (s.cur c).index → s.waits.isPending id = true → s'.waits.isPending
      id = true)
    (hpend : s'.waits.isPending (s.cur c) = true → (∃ k, InWait s' (s.cur c) k) ∧ s'.delivered
      (s.cur c).index = true) (hdel : ∀ i, i ≠ (s.cur c).index → s'.delivered i = s.delivered i)
    (hdone : p.irqDone = true → s'.delivered (s.cur c).index = true)
    (hres : ∀ k me, p = .waitIrq k (.resumed me) → s'.m.tasks.states (s.cur c).index = .blocked) :
    Signalled s' := by
  have hk : s'.pc (s.cur c).index = p := by rw [hpc, update_self]
  have hother : ∀ i, i ≠ (s.cur c).index → s'.pc i = s.pc i := by
    intro i hi
    rw [hpc, update_of_ne hi]
  have hwait : ∀ {id k}, id ≠ s.cur c → InWait s id k →
      id.index ≠ (s.cur c).index ∧ InWait s' id k := by
    intro id k hne hw
    have hidx : id.index ≠ (s.cur c).index := fun he => hne (hw.eq_cur hb hc he)
    exact ⟨hidx, hw.of_pc (hother _ hidx)⟩
  constructor
  · intro k hkw id hid
    by_cases hne : id = s.cur c
    · subst hne
      exact (hself k hkw hid).1
    obtain ⟨hid', hcookie⟩ := htasks k id hne hid
    rw [hcookie]
    exact (hwait hne (h.armed k hkw id hid')).2
  · intro k k' hkw hkw' id hid hid'
    by_cases hne : id = s.cur c
    · subst hne
      exact (hself k hkw hid).2.2 k' hkw' hid'
    · exact h.single k k' hkw hkw' id (htasks k id hne hid).1 (htasks k' id hne hid').1
  · intro k hkw id hid
    by_cases hne : id = s.cur c
    · subst hne
      exact (hself k hkw hid).2.1
    have hno := h.apart k hkw id (htasks k id hne hid).1
    by_contra htrue
    rw [hmark id (Bool.eq_true_of_not_eq_false htrue)] at hno
    contradiction
  · intro id hid
    by_cases hne : id = s.cur c
    · subst hne
      exact hpend hid
    obtain ⟨⟨k, hw⟩, hd⟩ := h.pending id (hmark id hid)
    obtain ⟨hidx, hw'⟩ := hwait hne hw
    exact ⟨⟨k, hw'⟩, (hdel _ hidx).trans hd⟩
  · intro i hi k me hp hst
    by_cases hik : i = (s.cur c).index
    · subst hik
      rw [hk] at hp
      exact absurd (hres k me hp) hst
    rw [hother i hik] at hp
    have hown := hb.own i hi
    rw [hp] at hown
    refine hmark' me ?_ (h.marked hb hguard hs hi hp hst)
    rw [hown, Tasks.idAt_index Machine.maxTasks_le s.m.tasks hi]
    exact hik
  · intro i hi hdone'
    by_cases hik : i = (s.cur c).index
    · subst hik
      rw [hk] at hdone'
      exact hdone hdone'
    · rw [hother i hik] at hdone'
      exact (hdel i hik).trans (h.done i hi hdone')
  · intro i hi k q' hp d hd
    by_cases hik : i = (s.cur c).index
    · subst hik
      exact h.idle_ne hb hs hi hold d hd
    · rw [hother i hik] at hp
      exact h.idle_ne hb hs hi hp d hd

/-- Outside the three points of `InWait` a task has neither entry nor mark. -/
theorem Signalled.fresh (hno : ∀ cookie, ¬ InWait s id cookie) :
    (∀ k, k < maxWaiters → s.waits.tasks k ≠ some id) ∧ s.waits.isPending id = false := by
  constructor
  · intro k hk hid
    exact hno _ (h.armed k hk id hid)
  · by_contra htrue
    obtain ⟨⟨cookie, hw⟩, -⟩ := h.pending id (Bool.eq_true_of_not_eq_false htrue)
    exact hno cookie hw

theorem Signalled.cookie_eq {k : ℕ} (hk : k < maxWaiters)
    (hid : s.waits.tasks k = some (s.cur c)) (hpc : s.pc (s.cur c).index = .waitIrq cookie q) :
    s.waits.cookies k = cookie := by
  obtain ⟨q', hq'⟩ := (h.armed k hk _ hid).point
  rw [hpc] at hq'
  cases hq'
  rfl

theorem Signalled.takePending (hb : Base s) (hc : Up s.m.online c)
    (hguard : s.wakesMatch (.exec c) = true)
    (hpc : s.pc (s.cur c).index = .waitIrq cookie (.takePending (s.cur c)))
    (hs : s.step (.exec c) = some (s.execIrq c cookie (.takePending (s.cur c)))) :
    Signalled (s.execIrq c cookie (.takePending (s.cur c))) := by
  have hcur := (hb.cur_sits hc).lt
  have hfst := WaitTable.takePending_fst s.waits (s.cur c)
  have htasks := WaitTable.takePending_entries s.waits (s.cur c)
  have hclear := WaitTable.takePending_self s.waits (s.cur c)
  have hnew : (s.execIrq c cookie (.takePending (s.cur c))).pc (s.cur c).index =
      .waitIrq cookie (if (s.waits.takePending (s.cur c)).1 then .disarmFast (s.cur c)
        else .block (s.cur c)) := update_self ..
  refine h.of_own hb hguard hs hc hpc rfl ?_ ?_ (fun _ => execIrq_mark)
    (fun _ hne hid => WaitTable.takePending_keeps hid hne) ?_ (fun _ _ => rfl) ?_ ?_
  · intro k id _ hid
    exact ⟨htasks.1 ▸ hid, congrFun htasks.2 k⟩
  · intro k hk hid
    have hid' : s.waits.tasks k = some (s.cur c) := htasks.1 ▸ hid
    have hcookie : (s.waits.takePending (s.cur c)).2.cookies k = cookie := by
      rw [htasks.2]
      exact h.cookie_eq hk hid' hpc
    refine ⟨⟨hcur, .inr (.inl ?_)⟩, hclear, ?_⟩
    · rw [hnew, hfst, h.apart k hk _ hid']
      exact congrArg (Pc.waitIrq · (.block (s.cur c))) hcookie.symm
    · intro k' hk' hid''
      exact h.single k k' hk hk' _ hid' (htasks.1 ▸ hid'')
  · intro htrue
    exact absurd (hclear.symm.trans htrue) (by decide)
  · intro hdone
    rw [hfst] at hdone
    split at hdone
    · rename_i hpend
      exact (h.pending _ hpend).2
    · contradiction
  · intro k me he
    split at he <;> cases he

theorem Signalled.arm (hb : Base s) (hc : Up s.m.online c)
    (hguard : s.wakesMatch (.exec c) = true)
    (hpc : s.pc (s.cur c).index = .waitIrq cookie (.arm (s.cur c)))
    (hs : s.step (.exec c) = some (s.execIrq c cookie (.arm (s.cur c))))
    (hnone : ∀ k, k < maxWaiters → s.waits.tasks k ≠ some (s.cur c))
    (hmark : s.waits.isPending (s.cur c) = false) :
    Signalled (s.execIrq c cookie (.arm (s.cur c))) := by
  have hcur := (hb.cur_sits hc).lt
  have hunmarked : s.waits.isPending (s.cur c) ≠ true := by
    rw [hmark]
    exact Bool.false_ne_true
  rcases WaitTable.arm_cases s.waits cookie (s.cur c) with ⟨e, heq⟩ | ⟨k, hk, -, heq⟩
  · simp only [execIrq, heq] at hs ⊢
    exact h.of_own hb hguard hs hc hpc (p := .user (.waited cookie false)) rfl
      (fun _ _ _ hid => ⟨hid, rfl⟩) (fun k hk hid => absurd hid (hnone k hk))
      (fun _ hid => hid) (fun _ _ hid => hid) (fun hid => absurd hid hunmarked)
      (fun _ _ => rfl) (by rintro ⟨⟩) (by simp)
  simp only [execIrq, heq] at hs ⊢
  have hentry : ∀ k', k' < maxWaiters →
      update s.waits.tasks k (some (s.cur c)) k' = some (s.cur c) → k' = k := by
    intro k' hk' hid
    by_contra hne
    rw [update_of_ne hne] at hid
    exact hnone k' hk' hid
  refine h.of_own hb hguard hs hc hpc (p := .waitIrq cookie (.takePending (s.cur c))) rfl
    ?_ ?_ (fun _ hid => hid) (fun _ _ hid => hid) (fun hid => absurd hid hunmarked)
    (fun _ hi => update_of_ne hi ..) (by rintro ⟨⟩) (by simp)
  · intro k' id hne hid
    have hkk : k' ≠ k := by
      rintro rfl
      have he := (update_self ..).symm.trans hid
      exact hne (Option.some.inj he).symm
    exact ⟨(update_of_ne hkk ..).symm.trans hid, update_of_ne hkk ..⟩
  intro k' hk' hid
  obtain rfl := hentry k' hk' hid
  refine ⟨⟨hcur, .inl ?_⟩, hmark, fun k2 hk2 hid2 => (hentry k2 hk2 hid2).symm⟩
  have hcookie : update s.waits.cookies k' cookie k' = cookie :=
    update_self ..
  refine (update_self ..).trans ?_
  exact congrArg (Pc.waitIrq · (.takePending (s.cur c))) hcookie.symm

theorem Signalled.irq (hb : Base s) (hc : Up s.m.online c)
    (hguard : s.wakesMatch (.exec c) = true) {p : IrqPoint}
    (hpc : s.pc (s.cur c).index = .waitIrq cookie p)
    (hs : s.step (.exec c) = some (s.execIrq c cookie p)) : Signalled (s.execIrq c cookie p) := by
  have hcur := (hb.cur_sits hc).lt
  have hown := hb.own_cur hc
  rw [hpc] at hown
  have hfresh : (∀ me, p ≠ .takePending me) → (∀ me, p ≠ .block me) → (∀ me, p ≠ .resumed me) →
      (∀ k, k < maxWaiters → s.waits.tasks k ≠ some (s.cur c)) ∧
        s.waits.isPending (s.cur c) = false := by
    intro h1 h2 h3
    refine h.fresh ?_
    rintro k ⟨-, hp | hp | hp⟩ <;> rw [hpc] at hp <;> cases hp
    · exact h1 _ rfl
    · exact h2 _ rfl
    · exact h3 _ rfl
  have hnotPending : s.waits.isPending (s.cur c) = false → s.waits.isPending (s.cur c) = true →
      False := by
    intro hf ht
    rw [hf] at ht
    contradiction
  cases p with
  | self =>
    obtain ⟨hnone, hmark⟩ := hfresh (by simp) (by simp) (by simp)
    exact h.of_own hb hguard hs hc hpc (p := .waitIrq cookie (.arm (s.cur c))) rfl
      (fun _ _ _ hid => ⟨hid, rfl⟩) (fun k hk hid => absurd hid (hnone k hk))
      (fun _ hid => hid) (fun _ _ hid => hid) (fun hid => (hnotPending hmark hid).elim)
      (fun _ _ => rfl) (by rintro ⟨⟩) (by simp)
  | arm me =>
    obtain rfl : me = s.cur c := hown
    obtain ⟨hnone, hmark⟩ := hfresh (by simp) (by simp) (by simp)
    exact h.arm hb hc hguard hpc hs hnone hmark
  | takePending me =>
    obtain rfl : me = s.cur c := hown
    exact h.takePending hb hc hguard hpc hs
  | disarmFast me | disarm me =>
    obtain rfl : me = s.cur c := hown
    obtain ⟨hnone, hmark⟩ := hfresh (by simp) (by simp) (by simp)
    have hdone := h.done _ hcur (by rw [hpc]; rfl)
    refine h.of_own hb hguard hs hc hpc (p := .user (.waited cookie true)) rfl ?_ ?_
      (fun _ hid => hid) (fun _ _ hid => hid) (fun hid => (hnotPending hmark hid).elim)
      (fun _ _ => rfl) (fun _ => hdone) (by simp)
    · intro k id _ hid
      refine ⟨?_, rfl⟩
      change (if _ then _ else _) = _ at hid
      split at hid
      · contradiction
      · exact hid
    intro k hk hid
    change (if _ then _ else _) = _ at hid
    split at hid
    · contradiction
    · exact absurd hid (hnone k hk)
  | block me =>
    obtain rfl : me = s.cur c := hown
    have hidle : s.m.tasks.current c ≠ s.m.tasks.idle c := by
      intro he
      exact h.notIdle _ hcur _ _ hpc c hc.lt (congrArg TaskId.index he.symm)
    have hnew : (s.execIrq c cookie (.block (s.cur c))).pc (s.cur c).index =
        .waitIrq cookie (.resumed (s.cur c)) := update_self ..
    refine h.of_own hb hguard hs hc hpc (p := .waitIrq cookie (.resumed (s.cur c))) rfl
      (fun _ _ _ hid => ⟨hid, rfl⟩) ?_ (fun _ hid => hid) (fun _ _ hid => hid) ?_
      (fun _ _ => rfl) (by rintro ⟨⟩) fun _ _ _ => Machine.switchWith_block hb.inv.tasks hc hidle
    · intro k hk hid
      refine ⟨⟨hcur, .inr (.inr ?_)⟩, h.apart k hk _ hid,
        fun k' hk' hid' => h.single k k' hk hk' _ hid hid'⟩
      exact hnew.trans (congrArg (Pc.waitIrq · _) (h.cookie_eq hk hid hpc).symm)
    · intro hid
      exact ⟨⟨cookie, hcur, .inr (.inr hnew)⟩, (h.pending _ hid).2⟩
  | resumed me =>
    obtain rfl : me = s.cur c := hown
    have hpend := h.resumed _ hcur cookie _ hpc (by simp [(hb.cur_sits hc).state])
    have hclear := WaitTable.takePending_self s.waits (s.cur c)
    have hwaits := WaitTable.takePending_entries s.waits (s.cur c)
    refine h.of_own hb hguard hs hc hpc (p := .waitIrq cookie (.disarm (s.cur c))) rfl ?_ ?_
      (fun _ => execIrq_mark) (fun _ hne hid => WaitTable.takePending_keeps hid hne) ?_
      (fun _ _ => rfl) (fun _ => (h.pending _ hpend).2) (by simp)
    · intro k id _ hid
      exact ⟨hwaits.1 ▸ hid, congrFun hwaits.2 k⟩
    · intro k hk hid
      have hno := h.apart k hk _ (hwaits.1 ▸ hid)
      exact (hnotPending hno hpend).elim
    · intro htrue
      exact absurd (hclear.symm.trans htrue) (by decide)

theorem Signalled.step (hb : Base s) (hguard : s.wakesMatch l = true)
    (hs : s.step l = some s') : Signalled s' := by
  rcases step_irq hb hs with ⟨c, cookie, p, rfl, hfree, -, hpc, rfl⟩ | ⟨c, cookie, rfl, rfl⟩ |
    ⟨c, cookie, hfree, hidle, huser, rfl⟩ | hframe
  · exact h.irq hb hfree.1 hguard hpc hs
  · exact h.signal hb cookie
  · exact h.enter hb hfree hidle huser
  · exact h.of_frame hb hguard hs hframe

end

theorem reach_signalled (h : Reach Boot Kernel.step (fun s l => s.wakesMatch l = true) s) :
    Signalled s := by
  refine h.invariant_of (J := Base) (I := Signalled) (fun _ hr => reach_base hr) ?_ ?_
  · rintro s ⟨created, rfl⟩
    refine ⟨nofun, nofun, nofun, fun id hid => ?_, nofun, nofun, nofun⟩
    exact absurd (WaitTable.isPending_iff.1 hid).2 nofun
  · intro s l s' hb _ hinv hok hs
    exact hinv.step hb hok hs

def parkCancels (s : Kernel) (cap : CapId) : RecvPoint → Bool
  | .park me =>
    match (s.ipc.park cap me).1 with
    | .error .cancelled => true
    | _ => false
  | _ => false

def endsForeign (s s' : Kernel) (c : ℕ) : Bool :=
  match s.pc (s.cur c).index, s'.pc (s.cur c).index with
  | .recv cap _ p, q => q.answersCancelled && !s'.hit (s.cur c).index && !s.parkCancels cap p
  | .waitIrq _ _, .user (.waited _ true) => !s'.delivered (s.cur c).index
  | _, _ => false

theorem answered_answersCancelled {r : Received} (h : (answered limit r).answersCancelled = true) :
    ∃ f, r = ⟨.error .cancelled, f⟩ := by
  unfold answered at h
  split at h <;> unfold Pc.answersCancelled at h <;> split at h <;> rename_i he <;>
    first | contradiction | (cases he; exact ⟨_, rfl⟩)

theorem execRecv_answersCancelled {cap : CapId} {p : RecvPoint}
    (h : ((s.execRecv c cap limit p).pc (s.cur c).index).answersCancelled = true) :
    ((s.execRecv c cap limit p).pc (s.cur c).index).cancelAnswer = true ∨
      s.parkCancels cap p = true := by
  have hgoto : ∀ {s1 : Kernel} {q : Pc}, s1.cur c = s.cur c →
      (s1.goto c q).pc (s.cur c).index = q := by
    intro s1 q hcur
    rw [← hcur]
    exact update_self ..
  have hplain : ∀ {s1 : Kernel} {q : Pc}, s1.cur c = s.cur c → q.answersCancelled = false →
      ((s1.goto c q).pc (s.cur c).index).answersCancelled = true → False := by
    intro s1 q hcur hq hans
    rw [hgoto hcur, hq] at hans
    contradiction
  have hother : ∀ {s1 : Kernel} {r : Received}, s1.cur c = s.cur c →
      ((s1.received c limit r).pc (s.cur c).index).answersCancelled = true →
      ∃ f, r = ⟨.error .cancelled, f⟩ := by
    intro s1 r hcur hans
    unfold received at hans
    rw [hgoto hcur] at hans
    exact answered_answersCancelled hans
  cases p with
  | takeCancel | resumed me =>
    cases hflag : s.cancelWait (s.cur c).index with
    | true =>
      left
      simp only [execRecv, takeCancelWait, hflag, if_true, received]
      refine (congrArg Pc.cancelAnswer (hgoto rfl)).trans ?_
      cases limit <;> rfl
    | false =>
      simp only [execRecv, takeCancelWait, hflag, Bool.false_eq_true, if_false] at h
      exact (hplain rfl rfl h).elim
  | tryRecv =>
    simp only [execRecv] at h
    split at h
    · cases (hother rfl h).choose_spec
    · exact (hplain rfl rfl h).elim
    · rename_i e t _ heq
      obtain ⟨f, hf⟩ := hother rfl h
      cases hf
      exact absurd (congrArg Prod.fst heq) (Ipc.Table.tryRecv_ne_cancelled s.ipc cap)
  | park me =>
    simp only [execRecv] at h
    split at h
    · cases (hother rfl h).choose_spec
    · exact (hplain rfl rfl h).elim
    · rename_i e t heq
      obtain ⟨f, hf⟩ := hother rfl h
      cases hf
      right
      simp only [parkCancels, heq]
  | refuse | noteIdle => cases (hother rfl h).choose_spec
  | holds | isIdle | self => exact (hplain rfl rfl h).elim
  | block me =>
    have hpc : (s.execRecv c cap limit (.block me)).pc (s.cur c).index =
        .recv cap limit (.resumed me) := update_self ..
    rw [hpc] at h
    contradiction

theorem endsForeign_of_pc (hpc : s'.pc (s.cur c).index = s.pc (s.cur c).index) :
    s.endsForeign s' c = false := by
  unfold endsForeign
  rw [hpc]
  split
  · rename_i hp
    rw [hp]
    rfl
  · rename_i hp hq
    rw [hp] at hq
    contradiction
  · rfl

/-- In a run where nobody cancels a task blocked in `wait_for_irq` and nobody wakes one
without a mark, every wait ends for a reason of its own. -/
theorem waits_end_own (s s' : Kernel) (c : ℕ)
    (h : Reach Boot Kernel.step (fun s l => s.wakesMatch l = true) s)
    (hguard : s.wakesMatch (.exec c) = true) (hs : s.step (.exec c) = some s') :
    s.endsForeign s' c = false := by
  have hflagged := reach_flagged (h.next hguard hs)
  have hsignalled := reach_signalled (h.next hguard hs)
  have hb := reach_base h
  rcases step_cases hs with ⟨c, f, ⟨⟩, -⟩ | ⟨c, ⟨⟩, hfree, hrun, hex⟩ | ⟨c, v, ⟨⟩, -, -, -, rfl⟩ |
    ⟨c, m, ⟨⟩, -, -, rfl, -⟩ | ⟨c, ⟨⟩, -⟩ | ⟨c, cookie, ⟨⟩, -⟩ | ⟨c, task, ⟨⟩, -⟩ | ⟨⟨⟩, -⟩
  · have hcur := (hb.cur_sits hfree.1).lt
    unfold endsForeign
    split
    · rename_i cap limit p hpc
      simp only [execTask, hpc, Option.some.injEq] at hex
      subst hex
      by_contra htrue
      simp only [Bool.not_eq_false, Bool.and_eq_true, Bool.not_eq_true'] at htrue
      obtain ⟨⟨hans, hhit⟩, hpark⟩ := htrue
      rcases execRecv_answersCancelled hans with hans | hans
      · rw [hflagged.answer _ hcur hans] at hhit
        contradiction
      · rw [hans] at hpark
        contradiction
    · rename_i hpc
      rw [hsignalled.done _ hcur (by rw [hpc]; rfl)]
      rfl
    · rfl
  · exact endsForeign_of_pc (by cases s.tail c <;> rfl)
  · exact endsForeign_of_pc rfl

/-- A signal arrives between the arm and the first look at the mark. -/
theorem waits_end_own_signalled : ∃ s s',
    Reach Boot Kernel.step (fun s l => s.wakesMatch l = true) s ∧
    (s.wakesMatch (.exec 0) = true ∧ s.step (.exec 0) = some s') ∧
    (s'.pc 1).irqDone = true ∧ s.endsForeign s' 0 = false := by
  have hstart : Reach Boot Kernel.step (fun s l => s.wakesMatch l = true) _ := reach_boot []
  obtain ⟨s, hreach, hguard, hdone⟩ := hstart.exists_run
    (P := fun s => s.wakesMatch (.exec 0) = true ∧
      ((s.step (.exec 0)).any fun s' => (s'.pc 1).irqDone) = true)
    ([.call 0 (.spawnOn 0 [])] ++ execs 0 2 ++ [.call 0 .yieldNow] ++ execs 0 7 ++
      [.call 0 (.waitForIrq 5)] ++ execs 0 2 ++ [.signal 0 5, .push 0] ++ execs 0 1)
    (by decide +kernel)
  cases hs : s.step (.exec 0) with
  | none =>
    rw [hs] at hdone
    contradiction
  | some s' =>
    rw [hs] at hdone
    exact ⟨s, s', hreach, ⟨hguard, hs⟩, hdone, waits_end_own s s' 0 hreach hguard hs⟩

def childWaits : List Label :=
  [.call 0 (.spawnOn 0 [])] ++ execs 0 2 ++ .call 0 .yieldNow :: execs 0 7 ++
    [.call 0 (.spawnOn 0 [])] ++ execs 0 2 ++ .call 0 .yieldNow :: execs 0 7 ++
    .call 0 .yieldNow :: execs 0 7 ++ [.call 0 (.waitForIrq 5)] ++ execs 0 7

/-- Task 1 leaves while its child, task 2, waits for an interrupt. The cascade cancels the
child: its wait ends unsignalled, and its next receive ends with the flag left over. -/
theorem waits_end_foreign :
    (∃ s, Reach Boot Kernel.step (fun _ _ => True) s ∧
      ((s.step (.exec 0)).any fun s' => s.endsForeign s' 0 && (s'.pc 2).irqDone) = true) ∧
    ∃ s, Reach Boot Kernel.step (fun _ _ => True) s ∧
      ((s.step (.exec 0)).any fun s' => s.endsForeign s' 0 && (s'.pc 2).cancelAnswer) = true := by
  have hstart : Reach Boot Kernel.step (fun _ _ => True) _ := reach_boot []
  constructor
  · exact hstart.exists_run (childWaits ++ [.call 0 .exit] ++ execs 0 10 ++
      .call 0 .yieldNow :: execs 0 8) (by decide +kernel)
  · exact hstart.exists_run (childWaits ++ [.call 0 .exit] ++ execs 0 10 ++
      .call 0 .yieldNow :: execs 0 9 ++ [.call 0 (.recv ⟨0⟩)]) (by decide +kernel)

end Kernel

end HarborKernel.LockSections
