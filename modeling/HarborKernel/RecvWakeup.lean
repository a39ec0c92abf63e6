import HarborKernel.IpcWaiters
import HarborKernel.SectionSteps

/-!
Wakeups of blocked receivers.
A receiver is recorded as waiter by `park` and blocks in a later section. A sender
that takes the waiter in between wakes a task that is not blocked yet, and the
wakeup is lost. In runs without such a wake, every receiver that is about to block
or has blocked is still recorded, or is in the hands of somebody who is going to
wake or cancel it.
-/

namespace HarborKernel.LockSections

open Function Capability ReadyQueue TaskTable Ipc IrqWait Processors Transition

def Pc.handed : Pc → List TaskId
  | .send _ _ (.wake id) => [id]
  | .poll _ (.cancel id _) => [id]
  | .admin (.cancel id) => [id]
  | _ => []

def TailPoint.handed : TailPoint → List TaskId
  | .reap id rest => id :: rest
  | .cancel id _ => [id]
  | _ => []

namespace Kernel

variable {s s' : Kernel} {c : ℕ}

def InHand (s : Kernel) (id : TaskId) : Prop :=
  (∃ i, i < maxTasks ∧ id ∈ (s.pc i).handed) ∨ ∃ c, c < nCpus ∧ id ∈ (s.tail c).handed

def Parked (s : Kernel) (i : ℕ) (cap : CapId) (me : TaskId) : Prop :=
  ∃ limit, s.pc i = .recv cap limit (.block me) ∨
    (s.pc i = .recv cap limit (.resumed me) ∧ s.m.tasks.states i = .blocked)

def Waiting (s : Kernel) (cap : CapId) (me : TaskId) : Prop :=
  (∃ mb, s.ipc.lookup cap .RECV = some mb ∧ (s.ipc.boxes mb).waiter = some me) ∨ InHand s me

structure Recorded (s : Kernel) : Prop where
  linked : s.ipc.Linked
  waiting : ∀ i, i < maxTasks → ∀ cap me, Parked s i cap me → Waiting s cap me

def betweenParkAndBlock (s : Kernel) (id : TaskId) : Bool :=
  match s.pc id.index with
  | .recv _ _ (.block me) => me = id
  | _ => false

def wakesOutsideWindow (s : Kernel) : Label → Bool
  | .exec c => (s.target c).all fun id => !s.betweenParkAndBlock id
  | _ => true

variable {p : Pc} {id me : TaskId} {cap : CapId}

theorem InHand.mono (h : InHand s id) (hpc : ∀ i, id ∈ (s.pc i).handed → id ∈ (s'.pc i).handed)
    (htail : ∀ c, id ∈ (s.tail c).handed → id ∈ (s'.tail c).handed) : InHand s' id := by
  rcases h with ⟨i, hlt, hi⟩ | ⟨d, hlt, hd⟩
  · exact .inl ⟨i, hlt, hpc i hi⟩
  · exact .inr ⟨d, hlt, htail d hd⟩

/-- Waiters survive an operation that hands out whom it forgets. -/
theorem Waiting.mono (h : Waiting s cap me) {out : List TaskId} (hkeep : s.ipc.Keeps s'.ipc out)
    (hout : ∀ id ∈ out, InHand s' id) (hhand : InHand s me → InHand s' me) : Waiting s' cap me := by
  rcases h with ⟨mb, hl, hw⟩ | hin
  · rcases hkeep cap mb me hl hw with hkept | hmem
    · exact .inl ⟨mb, hkept⟩
    · exact .inr (hout me hmem)
  · exact .inr (hhand hin)

theorem Parked.point {i : ℕ} (h : Parked s i cap me) :
    ∃ limit q, s.pc i = .recv cap limit q := by
  obtain ⟨limit, h | ⟨h, -⟩⟩ := h
  · exact ⟨limit, _, h⟩
  · exact ⟨limit, _, h⟩

/-- The task on processor `c` moves on and perhaps forgets waiters it now holds. -/
theorem Recorded.of_move (h : Recorded s) (hb : Base s) (hc : Up s.m.online c)
    (hcalm : Machine.Calm s.m s'.m) (htail : s'.tail = s.tail)
    (hpc : s'.pc = update s.pc (s.cur c).index p) (hold : (s.pc (s.cur c).index).handed = [])
    (hlink : s'.ipc.Linked) (hkeep : s.ipc.Keeps s'.ipc p.handed)
    (hnew : ∀ cap limit me, p = .recv cap limit (.block me) → Waiting s' cap me) :
    Recorded s' := by
  have hk : s'.pc (s.cur c).index = p := by rw [hpc, update_self]
  have hother : ∀ i, i ≠ (s.cur c).index → s'.pc i = s.pc i := by
    intro i hi
    rw [hpc, update_of_ne hi]
  refine ⟨hlink, ?_⟩
  rintro i hi cap me ⟨limit, hp⟩
  by_cases hik : i = (s.cur c).index
  · subst hik
    rw [hk] at hp
    rcases hp with hp | ⟨-, hblocked⟩
    · exact hnew cap limit me hp
    have hrun := hcalm.blocked _ hblocked
    rw [(hb.cur_sits hc).state] at hrun
    contradiction
  rw [hother i hik] at hp
  have hold' : Parked s i cap me :=
    ⟨limit, hp.imp_right fun hres => ⟨hres.1, hcalm.blocked i hres.2⟩⟩
  refine (h.waiting i hi cap me hold').mono hkeep ?_ ?_
  · intro id hid
    exact .inl ⟨_, (hb.cur_sits hc).lt, hk ▸ hid⟩
  intro hin
  refine hin.mono ?_ (by rw [htail]; exact fun _ hd => hd)
  intro j hj
  by_cases hjk : j = (s.cur c).index
  · rw [hjk, hold] at hj
    contradiction
  · rw [hother j hjk]
    exact hj

/-- No mailbox changes and no receiver moves; those that are parked stay in hand. -/
theorem Recorded.of_calm (h : Recorded s) (hipc : s'.ipc = s.ipc)
    (hcalm : Machine.Calm s.m s'.m) (hpc : ∀ i cap me, Parked s' i cap me → s'.pc i = s.pc i)
    (hhand : ∀ i, i < maxTasks → ∀ cap me, Parked s' i cap me → Parked s i cap me →
      InHand s me → InHand s' me) : Recorded s' := by
  refine ⟨hipc ▸ h.linked, ?_⟩
  intro i hi cap me hparked
  have hold : Parked s i cap me := by
    have hsame := hpc i cap me hparked
    obtain ⟨limit, hp | ⟨hp, hblocked⟩⟩ := hparked
    · exact ⟨limit, .inl (hsame ▸ hp)⟩
    · exact ⟨limit, .inr ⟨hsame ▸ hp, hcalm.blocked i hblocked⟩⟩
  rcases h.waiting i hi cap me hold with hw | hin
  · exact .inl (hipc ▸ hw)
  · exact .inr (hhand i hi cap me hparked hold hin)

/-- A section that wakes or cancels `id` outside the window. Whoever else it held stays
in hand. -/
theorem Recorded.of_target (h : Recorded s) (hb : Base s)
    (hguard : s.betweenParkAndBlock id = false) (hipc : s'.ipc = s.ipc)
    (hcalm : Machine.Calm s.m s'.m) (hwoken : s'.m.tasks.state id ≠ some .blocked)
    (hpc : ∀ i cap me, Parked s' i cap me → s'.pc i = s.pc i)
    (hhand : ∀ x, x ≠ id → InHand s x → InHand s' x) : Recorded s' := by
  refine h.of_calm hipc hcalm hpc ?_
  intro i hi cap me hparked hold
  have hown := hb.own i hi
  have hme : me = s.m.tasks.idAt i := by
    obtain ⟨limit, hp | ⟨hp, -⟩⟩ := hold <;> rw [hp] at hown <;> exact hown.2
  apply hhand
  rintro rfl
  have hidx : me.index = i := by
    rw [hme]
    exact Tasks.idAt_index Machine.maxTasks_le s.m.tasks hi
  have hsame := hpc i cap me hparked
  obtain ⟨limit, hp | ⟨-, hblocked⟩⟩ := hparked
  · rw [hsame] at hp
    simp [betweenParkAndBlock, hidx, hp] at hguard
  · apply hwoken
    rw [hme, ← hcalm.idAt i, state_idAt hi, hblocked]

/-- The task on processor `c` gives it up; a receiver that blocks was parked before. -/
theorem Recorded.of_switch (h : Recorded s) (hb : Base s) (hc : Up s.m.online c) {kind : Switch}
    (hm : s'.m = s.m.switchWith c kind) (hipc : s'.ipc = s.ipc)
    (hpc : s'.pc = update s.pc (s.cur c).index p) (hhand : ∀ x, InHand s x → InHand s' x)
    (hself : ∀ cap me, Parked s' (s.cur c).index cap me → Parked s (s.cur c).index cap me) :
    Recorded s' := by
  refine ⟨hipc ▸ h.linked, ?_⟩
  intro i hi cap me hparked
  have hold : Parked s i cap me := by
    by_cases hik : i = (s.cur c).index
    · subst hik
      exact hself cap me hparked
    obtain ⟨limit, hp⟩ := hparked
    rw [hpc, update_of_ne hik, hm] at hp
    rcases hp with hp | ⟨hp, hblocked⟩
    · exact ⟨limit, .inl hp⟩
    · exact ⟨limit, .inr ⟨hp, Machine.switchWith_blocked hb.inv.tasks hc hik hblocked⟩⟩
  rcases h.waiting i hi cap me hold with hw | hin
  · exact .inl (hipc ▸ hw)
  · exact .inr (hhand me hin)

theorem handed_of_target {x : TaskId} (h : p.target = some id) (hx : x ∈ p.handed) :
    x = id := by
  unfold Pc.handed at hx
  split at hx
  · exact (List.mem_singleton.mp hx).trans (Option.some.inj h)
  · exact (List.mem_singleton.mp hx).trans (Option.some.inj h)
  · exact (List.mem_singleton.mp hx).trans (Option.some.inj h)
  · contradiction

/-- The task on processor `c` wakes or cancels another one. -/
theorem Recorded.of_wake (h : Recorded s) (hb : Base s) (hc : Up s.m.online c)
    (hrun : s.m.phase c = .run) (htarget : (s.pc (s.cur c).index).target = some id)
    (hguard : s.wakesOutsideWindow (.exec c) = true)
    (hm : s'.m = (s.m.wakeTask id).2 ∨ s'.m = cancelMachine s.m id) (hipc : s'.ipc = s.ipc)
    (htail : s'.tail = s.tail) (hpc : s'.pc = update s.pc (s.cur c).index p)
    (hp : ∀ cap limit q, p ≠ .recv cap limit q) : Recorded s' := by
  have hcalm : Machine.Calm s.m s'.m := by
    rcases hm with hm | hm <;> rw [hm]
    · exact (wake_calm hb hc (.inl hrun) id).2.1
    · exact (cancel_calm hb hc (.inl hrun) id).2.1
  have hwoken : s'.m.tasks.state id ≠ some .blocked := by
    rcases hm with hm | hm <;> rw [hm]
    · exact Machine.wakeTask_not_blocked hb.inv.tasks id
    · exact cancelMachine_not_blocked hb.inv.tasks id
  simp only [wakesOutsideWindow, target_run hrun, htarget, Option.all_some,
    Bool.not_eq_true'] at hguard
  refine h.of_target hb hguard hipc hcalm hwoken ?_ ?_
  · intro i cap me hparked
    obtain ⟨limit, q, hq⟩ := hparked.point
    rw [hpc] at hq ⊢
    by_cases hik : i = (s.cur c).index
    · rw [hik, update_self] at hq
      exact absurd hq (hp _ _ _)
    · exact update_of_ne hik ..
  intro x hx hin
  refine hin.mono ?_ (by rw [htail]; exact fun _ hd => hd)
  intro i hi
  by_cases hik : i = (s.cur c).index
  · subst hik
    exact absurd (handed_of_target htarget hi) hx
  · rw [hpc, update_of_ne hik]
    exact hi

theorem execRecv_ipc (s : Kernel) (c : ℕ) (cap : CapId) (limit : Option (TaskId × ℕ))
    (p : RecvPoint) : s.ipc.Keeps (s.execRecv c cap limit p).ipc [] ∧
      (s.ipc.Linked → (s.execRecv c cap limit p).ipc.Linked) := by
  have hsame := And.intro (Table.Keeps.refl s.ipc) (id : s.ipc.Linked → s.ipc.Linked)
  cases p with
  | takeCancel | resumed me =>
    cases hflag : s.cancelWait (s.cur c).index <;>
      simp only [execRecv, takeCancelWait, hflag, Bool.false_eq_true, if_true, if_false] <;>
      exact hsame
  | refuse | noteIdle =>
    exact ⟨Table.Keeps.of_eps rfl fun _ _ hw => .inl hw, Table.Linked.refused⟩
  | tryRecv =>
    have hspec := Table.tryRecv_spec s.ipc cap
    simp only [execRecv]
    split <;> rename_i heq <;> rw [heq] at hspec <;> exact hspec
  | park me =>
    obtain ⟨hkeep, hlink, -⟩ := Table.park_spec s.ipc cap me
    simp only [execRecv]
    split <;> rename_i heq <;> rw [heq] at hkeep hlink <;> exact ⟨hkeep, hlink⟩
  | holds | isIdle | self | block me => exact hsame

theorem execRecv_park {limit limit' : Option (TaskId × ℕ)} {me' : TaskId} {cap' : CapId}
    (h : (s.execRecv c cap limit (.park me)).pc (s.cur c).index = .recv cap' limit' (.block me')) :
    Waiting (s.execRecv c cap limit (.park me)) cap' me' := by
  obtain ⟨-, -, hnone⟩ := Table.park_spec s.ipc cap me
  rcases hpark : s.ipc.park cap me with ⟨e | _ | msg, t⟩ <;>
    simp only [execRecv, hpark] at h hnone ⊢
  · exact absurd ((update_self ..).symm.trans h) answered_ne_recv
  · have hnew : Pc.recv cap limit (.block me) = .recv cap' limit' (.block me') :=
      (update_self ..).symm.trans h
    cases hnew
    exact .inl (hnone trivial)
  · exact absurd ((update_self ..).symm.trans h) answered_ne_recv

section

variable (h : Recorded s) (hb : Base s) (hc : Up s.m.online c)
include h hb hc

theorem Recorded.recv
    {limit : Option (TaskId × ℕ)} {p : RecvPoint} (hpc : s.pc (s.cur c).index = .recv cap limit p) :
    Recorded (s.execRecv c cap limit p) := by
  by_cases hblock : ∃ me, p = .block me
  · obtain ⟨me, rfl⟩ := hblock
    refine h.of_switch (p := .recv cap limit (.resumed me)) hb hc rfl rfl rfl ?_ ?_
    · intro x hin
      refine hin.mono ?_ (fun _ hd => hd)
      intro i hi
      by_cases hik : i = (s.cur c).index
      · rw [hik, hpc] at hi
        contradiction
      · simpa only [execRecv, switchTo, update_of_ne hik] using hi
    rintro cap' me' ⟨limit', hp' | ⟨hp', -⟩⟩ <;>
      simp only [execRecv, switchTo, update_self] at hp' <;> cases hp'
    exact ⟨limit, .inl hpc⟩
  · obtain ⟨hkeep, hlink⟩ := execRecv_ipc s c cap limit p
    obtain ⟨ipc, cancelWait, p', heq, hp'⟩ :=
      execRecv_footprint s c cap limit p fun me hme => hblock ⟨me, hme⟩
    have hk : (s.execRecv c cap limit p).pc (s.cur c).index = p' := by
      rw [heq]
      exact update_self ..
    have hshape : p'.handed = [] ∧
        ∀ cap' limit' me, p' = .recv cap' limit' (.block me) → p = .park me := by
      rcases hp' with ⟨r, rfl⟩ | ⟨q, rfl, -, hpark, -⟩
      · unfold answered
        split <;> exact ⟨rfl, by simp⟩
      refine ⟨rfl, ?_⟩
      rintro _ _ me ⟨⟩
      exact hpark me rfl
    refine h.of_move (p := p') hb hc (heq ▸ Machine.Calm.refl _) (by rw [heq]) (by rw [heq]) ?_
      (hlink h.linked) (hshape.1 ▸ hkeep) ?_
    · rw [hpc]
      rfl
    intro cap' limit' me hnew
    obtain rfl := hshape.2 cap' limit' me hnew
    exact execRecv_park (hk.trans hnew)

theorem Recorded.of_quiet
    (hold : (s.pc (s.cur c).index).handed = []) (hcalm : Machine.Calm s.m s'.m)
    (hipc : s'.ipc = s.ipc) (htail : s'.tail = s.tail)
    (hpc : s'.pc = update s.pc (s.cur c).index p)
    (hp : ∀ cap limit me, p ≠ .recv cap limit (.block me)) : Recorded s' := by
  refine h.of_move hb hc hcalm htail hpc hold (hipc ▸ h.linked) ?_ ?_
  · rw [hipc]
    exact Table.Keeps.of_eps rfl fun _ _ hw => .inl hw
  · intro cap limit me he
    exact absurd he (hp cap limit me)

theorem Recorded.of_leave
    (hold : (s.pc (s.cur c).index).handed = []) {kind : Switch}
    (hm : s'.m = s.m.switchWith c kind) (hipc : s'.ipc = s.ipc)
    (htail : ∀ d x, x ∈ (s.tail d).handed → x ∈ (s'.tail d).handed)
    (hpc : s'.pc = update s.pc (s.cur c).index p) (hp : ∀ cap limit q, p ≠ .recv cap limit q) :
    Recorded s' := by
  refine h.of_switch hb hc hm hipc hpc ?_ ?_
  · intro x hin
    refine hin.mono ?_ fun d => htail d x
    intro i hi
    by_cases hik : i = (s.cur c).index
    · rw [hik, hold] at hi
      contradiction
    · rwa [hpc, update_of_ne hik]
  intro cap me hparked
  obtain ⟨limit, q, hq⟩ := hparked.point
  rw [hpc, update_self] at hq
  exact absurd hq (hp _ _ _)

end

theorem handedOut_eq_nil {ε : Type} {r : Except ε (Option TaskId)}
    (h : ∀ id, r = .ok (some id) → False) : Table.handedOut r = [] := by
  unfold Table.handedOut
  split
  · exact (h _ rfl).elim
  · rfl

section

variable (h : Recorded s) (hb : Base s) (hc : Up s.m.online c)
include h hb hc

theorem Recorded.send
    (hrun : s.m.phase c = .run) {msg : Message} {p : SendPoint}
    (hpc : s.pc (s.cur c).index = .send cap msg p)
    (hguard : s.wakesOutsideWindow (.exec c) = true) : Recorded (s.execSend c cap msg p) := by
  have hold : (∀ id, p ≠ .wake id) → (s.pc (s.cur c).index).handed = [] := by
    intro hp
    rw [hpc]
    cases p with
    | wake id => exact absurd rfl (hp id)
    | _ => rfl
  cases p with
  | holds => exact h.of_quiet hb hc (hold (by simp)) (Machine.Calm.refl _) rfl rfl rfl (by simp)
  | refuse =>
    exact h.of_move (p := .user .none) hb hc (Machine.Calm.refl _) rfl rfl (hold (by simp))
      h.linked.refused (Table.Keeps.of_eps rfl fun _ _ hw => .inl hw) (by simp)
  | table =>
    obtain ⟨hkeep, hlink⟩ := Table.send_spec s.ipc cap msg
    simp only [execSend]
    split <;> rename_i heq <;> rw [heq] at hlink hkeep
    · exact h.of_move (p := .send cap msg (.wake _)) hb hc (Machine.Calm.refl _) rfl rfl
        (hold (by simp)) (hlink h.linked) hkeep (by simp)
    · rename_i hne
      simp only [handedOut_eq_nil hne] at hkeep
      exact h.of_move (p := .user .none) hb hc (Machine.Calm.refl _) rfl rfl (hold (by simp))
        (hlink h.linked) hkeep (by simp)
  | wake id =>
    exact h.of_wake hb hc hrun (by rw [hpc]; rfl) hguard (.inl rfl) rfl rfl rfl (by simp)

theorem Recorded.poll
    (hrun : s.m.phase c = .run) {y : Bool} {p : PollPoint}
    (hpc : s.pc (s.cur c).index = .poll y p)
    (hguard : s.wakesOutsideWindow (.exec c) = true) : Recorded (s.execPoll c y p) := by
  have hcalm := Machine.Calm.refl s.m
  cases p with
  | drain =>
    exact h.of_quiet hb hc (by rw [hpc]; rfl) hcalm rfl rfl rfl
      fun _ _ _ => (afterTokens_elsewhere ..).ne_recv _ _ _
  | wake token rest =>
    exact h.of_wake hb hc hrun (by rw [hpc]; rfl) hguard (.inl rfl) rfl rfl rfl
      (afterTokens_elsewhere y rest).ne_recv
  | now => exact h.of_quiet hb hc (by rw [hpc]; rfl) hcalm rfl rfl rfl nofun
  | expire now =>
    exact h.of_quiet hb hc (by rw [hpc]; rfl) hcalm rfl rfl rfl
      fun _ _ _ => (afterIds_elsewhere ..).ne_recv _ _ _
  | clear id rest =>
    obtain ⟨hkeep, hlink⟩ := Table.clearWaiter_spec s.ipc id
    exact h.of_move (p := .poll y (.cancel id rest)) hb hc hcalm rfl rfl (by rw [hpc]; rfl)
      (hlink h.linked) hkeep nofun
  | cancel id rest =>
    exact h.of_wake hb hc hrun (by rw [hpc]; rfl) hguard (.inr rfl) rfl rfl rfl
      (afterIds_elsewhere y rest).ne_recv

theorem Recorded.grant {p : GrantPoint}
    (hpc : s.pc (s.cur c).index = .grant p) : Recorded (s.execGrant c p) := by
  obtain ⟨caps, ipc, p', heq, hp'⟩ := execGrant_footprint s c p
  have hne : ∀ cap limit me, p' ≠ .recv cap limit (.block me) := by
    rcases hp' with ⟨q, rfl⟩ | rfl | ⟨r, rfl⟩ <;> nofun
  have hhand : p'.handed = [] := by
    rcases hp' with ⟨q, rfl⟩ | rfl | ⟨r, rfl⟩ <;> rfl
  have hipc : s.ipc.Keeps (s.execGrant c p).ipc [] ∧
      (s.ipc.Linked → (s.execGrant c p).ipc.Linked) := by
    have hsame := And.intro (Table.Keeps.refl s.ipc) (id : s.ipc.Linked → s.ipc.Linked)
    cases p with
    | register cap => exact Table.registerHolds_spec [some cap] s.ipc
    | peerCap _ _ _ | peerLookup _ _ _ =>
      simp only [execGrant]
      split <;> exact hsame
    | _ => exact hsame
  rw [heq] at hipc ⊢
  exact h.of_move hb hc (Machine.Calm.refl _) rfl rfl (by rw [hpc]; rfl) (hipc.2 h.linked)
    (hhand ▸ hipc.1) fun cap limit me he => absurd he (hne cap limit me)

theorem Recorded.admin
    (hrun : s.m.phase c = .run) {p : AdminPoint} (hpc : s.pc (s.cur c).index = .admin p)
    (hguard : s.wakesOutsideWindow (.exec c) = true) : Recorded (s.execAdmin c p) := by
  have hcalm := Machine.Calm.refl s.m
  cases p with
  | startCpu1 =>
    obtain ⟨heq, -, hcalm'⟩ := execAdmin_startCpu1 hb hc hrun
    rw [heq]
    exact h.of_quiet hb hc (by rw [hpc]; rfl) hcalm' rfl rfl rfl (by simp)
  | markStealeable yes =>
    have hcalm' := Machine.act_calm (c := c) hb.inv.tasks hc (.setStealeable (s.cur c) yes)
      ⟨by simp, by simp⟩
    exact h.of_quiet hb hc (by rw [hpc]; rfl) hcalm' rfl rfl rfl (by simp)
  | mint id => exact h.of_quiet hb hc (by rw [hpc]; rfl) hcalm rfl rfl rfl (by simp)
  | createChannel ephemeral =>
    obtain ⟨hkeep, hlink⟩ := Table.createChannel_spec (by decide) h.linked ephemeral
    exact h.of_move (p := .user .none) hb hc hcalm rfl rfl (by rw [hpc]; rfl) hlink hkeep (by simp)
  | revoke cap =>
    obtain ⟨hkeep, hlink⟩ := Table.revokeChannel_spec s.ipc cap
    simp only [execAdmin]
    split <;> rename_i heq <;> rw [heq] at hlink hkeep
    · exact h.of_move (p := .admin (.cancel _)) hb hc hcalm rfl rfl (by rw [hpc]; rfl)
        (hlink h.linked) hkeep (by simp)
    · rename_i hne
      simp only [handedOut_eq_nil hne] at hkeep
      exact h.of_move (p := .user .none) hb hc hcalm rfl rfl (by rw [hpc]; rfl)
        (hlink h.linked) hkeep (by simp)
  | clear id =>
    obtain ⟨hkeep, hlink⟩ := Table.clearWaiter_spec s.ipc id
    exact h.of_move (p := .admin (.cancel id)) hb hc hcalm rfl rfl (by rw [hpc]; rfl)
      (hlink h.linked) hkeep (by simp)
  | cancel id =>
    exact h.of_wake hb hc hrun (by rw [hpc]; rfl) hguard (.inr rfl) rfl rfl rfl (by simp)

theorem Recorded.exit
    (hrun : s.m.phase c = .run) (hpc : s.pc (s.cur c).index = .exit) :
    Recorded (s.execExit c) := by
  have hidle : (s.tail c).busy = false := by
    cases hbusy : (s.tail c).busy with
    | false => rfl
    | true =>
      obtain ⟨v, hv, -⟩ := hb.tail c hbusy
      rw [hrun] at hv
      contradiction
  have hhanded : (s.tail c).handed = [] := by
    cases ht : s.tail c <;> rw [ht] at hidle <;> first | rfl | contradiction
  unfold execExit
  split
  · exact h.of_leave (p := .halted) hb hc (by rw [hpc]; rfl) rfl rfl (fun _ _ hx => hx) rfl nofun
  refine h.of_leave (p := .user .none) hb hc (by rw [hpc]; rfl) rfl rfl ?_ rfl nofun
  intro d x hx
  by_cases hd : d = c
  · rw [hd, hhanded] at hx
    contradiction
  · simpa only [update_of_ne hd] using hx

theorem Recorded.task
    (hrun : s.m.phase c = .run) (hguard : s.wakesOutsideWindow (.exec c) = true)
    (hs : s.execTask c = some s') : Recorded s' := by
  unfold execTask at hs
  split at hs
  · contradiction
  · rename_i hpc
    exact Option.some.inj hs ▸ h.recv hb hc hpc
  · rename_i p hpc
    obtain ⟨deadlines, hit, p', heq, hp'⟩ := execTimed_footprint s c p
    rw [← Option.some.inj hs, heq]
    refine h.of_quiet hb hc (by rw [hpc]; rfl) (Machine.Calm.refl _) rfl rfl rfl ?_
    rcases hp' with ⟨q, rfl⟩ | ⟨me, cap, d, -, rfl⟩ | ⟨r, rfl⟩ <;> nofun
  · rename_i hpc
    exact Option.some.inj hs ▸ h.send hb hc hrun hpc hguard
  · rename_i cookie p hpc
    rw [← Option.some.inj hs]
    by_cases hblock : ∃ me, p = .block me
    · obtain ⟨me, rfl⟩ := hblock
      exact h.of_leave (p := .waitIrq cookie (.resumed me)) hb hc (by rw [hpc]; rfl) rfl rfl
        (fun _ _ hx => hx) rfl nofun
    obtain ⟨waits, delivered, p', heq, hp'⟩ :=
      execIrq_footprint s c cookie p fun me hme => hblock ⟨me, hme⟩
    rw [heq]
    refine h.of_quiet hb hc (by rw [hpc]; rfl) (Machine.Calm.refl _) rfl rfl rfl ?_
    rcases hp' with ⟨q, rfl, -⟩ | ⟨ok, rfl⟩ <;> nofun
  · rename_i hpc
    exact Option.some.inj hs ▸ h.poll hb hc hrun hpc hguard
  · rename_i p hpc
    rw [← Option.some.inj hs]
    cases p with
    | register held =>
      obtain ⟨hkeep, hlink⟩ := Table.registerHolds_spec held s.ipc
      exact h.of_move (p := .user .none) hb hc (Machine.Calm.refl _) rfl rfl (by rw [hpc]; rfl)
        (hlink h.linked) hkeep nofun
    | create cpu held =>
      obtain ⟨m, _, _, _, p, heq, hp, -, -, -, -, hcalm, -⟩ := execSpawn_create hb hc hrun cpu held
      rw [heq]
      refine h.of_quiet hb hc (by rw [hpc]; rfl) hcalm rfl rfl rfl ?_
      rcases hp with rfl | rfl <;> nofun
  · rename_i hpc
    exact Option.some.inj hs ▸ h.grant hb hc hpc
  · rename_i hpc
    exact Option.some.inj hs ▸ h.admin hb hc hrun hpc hguard
  · rename_i hpc
    rw [← Option.some.inj hs]
    exact h.of_leave (p := .user .none) hb hc (by rw [hpc]; rfl) rfl rfl (fun _ _ hx => hx) rfl
      nofun
  · rename_i hpc
    exact Option.some.inj hs ▸ h.exit hb hc hrun hpc
  · contradiction

end

/-- The exit path moves on and perhaps forgets waiters it now holds. -/
theorem Recorded.of_tail (h : Recorded s) (hc : Up s.m.online c) (hm : s'.m = s.m)
    (hpc : s'.pc = s.pc) {p : TailPoint} (htail : s'.tail = update s.tail c p)
    (hold : (s.tail c).handed = []) (hlink : s'.ipc.Linked)
    (hkeep : s.ipc.Keeps s'.ipc p.handed) : Recorded s' := by
  refine ⟨hlink, ?_⟩
  rintro i hi cap me hparked
  have hold' : Parked s i cap me := by
    unfold Parked at hparked ⊢
    rwa [hpc, hm] at hparked
  refine (h.waiting i hi cap me hold').mono hkeep ?_ ?_
  · intro id hid
    refine .inr ⟨c, hc.lt, ?_⟩
    rwa [htail, update_self]
  intro hin
  refine hin.mono (by rw [hpc]; exact fun _ hd => hd) ?_
  intro d hd
  by_cases hdc : d = c
  · rw [hdc, hold] at hd
    contradiction
  · rwa [htail, update_of_ne hdc]

theorem Recorded.of_reap (h : Recorded s) (hb : Base s) (hc : Up s.m.online c)
    (hbusy : (s.tail c).busy = true) {v : Leaving} (hp : s.m.phase c = .tail v)
    (htarget : (s.tail c).target = some id) (hguard : s.wakesOutsideWindow (.exec c) = true)
    (hm : s'.m = cancelMachine s.m id) (hipc : s'.ipc = s.ipc) (hpc : s'.pc = s.pc)
    {p : TailPoint} (htail : s'.tail = update s.tail c p)
    (hrest : ∀ x, x ≠ id → x ∈ (s.tail c).handed → x ∈ p.handed) : Recorded s' := by
  simp only [wakesOutsideWindow, target_tail hp, htarget, Option.all_some,
    Bool.not_eq_true'] at hguard
  refine h.of_target hb hguard hipc (hm ▸ (cancel_calm hb hc (.inr hbusy) id).2.1)
    (hm ▸ cancelMachine_not_blocked hb.inv.tasks id) (fun _ _ _ _ => by rw [hpc]) ?_
  intro x hx hin
  refine hin.mono (by rw [hpc]; exact fun _ hd => hd) ?_
  intro d hd
  by_cases hdc : d = c
  · subst hdc
    rw [htail, update_self]
    exact hrest x hx hd
  · rwa [htail, update_of_ne hdc]

theorem afterReaps_handed (ids : List TaskId) : (afterReaps ids).handed = ids := by
  cases ids <;> rfl

theorem afterKids_handed (ids : List TaskId) : (afterKids ids).handed = [] := by
  cases ids <;> rfl

theorem Recorded.tail (h : Recorded s) (hb : Base s) (hc : Up s.m.online c) {v : Leaving}
    (hp : s.m.phase c = .tail v) (hbusy : (s.tail c).busy = true)
    (hguard : s.wakesOutsideWindow (.exec c) = true) (from' : TaskId) :
    Recorded (s.execTail c from' (s.tail c)) := by
  have hkids : ∀ ids, s.ipc.Keeps s.ipc (afterKids ids).handed := by
    intro ids
    rw [afterKids_handed]
    exact Table.Keeps.refl _
  cases ht : s.tail c with
  | done =>
    rw [ht] at hbusy
    contradiction
  | release caps =>
    obtain ⟨hkeep, hlink⟩ := Table.releaseHolds_spec caps s.ipc
    refine h.of_tail hc rfl rfl rfl (by rw [ht]; rfl) (hlink h.linked) ?_
    rw [afterReaps_handed]
    exact hkeep
  | revoke =>
    exact h.of_tail (p := .scan) hc rfl rfl rfl (by rw [ht]; rfl) h.linked (Table.Keeps.refl _)
  | scan => exact h.of_tail hc rfl rfl rfl (by rw [ht]; rfl) h.linked (hkids _)
  | clear id rest =>
    obtain ⟨hkeep, hlink⟩ := Table.clearWaiter_spec s.ipc id
    exact h.of_tail (p := .cancel id rest) hc rfl rfl rfl (by rw [ht]; rfl) (hlink h.linked) hkeep
  | reap id rest =>
    refine h.of_reap hb hc hbusy hp (by rw [ht]; rfl) hguard rfl rfl rfl rfl ?_
    intro x hx hin
    rw [ht] at hin
    rw [afterReaps_handed]
    exact (List.mem_cons.mp hin).resolve_left hx
  | cancel id rest =>
    refine h.of_reap hb hc hbusy hp (by rw [ht]; rfl) hguard rfl rfl rfl rfl ?_
    intro x hx hin
    rw [ht] at hin
    exact absurd (List.mem_singleton.mp hin) hx

theorem Recorded.step (h : Recorded s) (hb : Base s) {l : Label}
    (hguard : s.wakesOutsideWindow l = true) (hs : s.step l = some s') : Recorded s' := by
  rcases step_cases hs with ⟨c, f, -, hfree, -, huser, -, rfl⟩ | ⟨c, rfl, hfree, hrun, hex⟩ |
    ⟨c, v, rfl, hfree, hp, hbusy, rfl⟩ | ⟨c, m, -, -, hm, rfl, -⟩ | ⟨c, -, hfree, hrun, rfl⟩ |
    ⟨c, cookie, -, -, -, rfl⟩ | ⟨c, task, -, -, rfl⟩ | ⟨-, rfl⟩
  · refine h.of_quiet hb hfree.1 ?_ (Machine.Calm.refl _) rfl rfl rfl ?_
    · cases hpc : s.pc (s.cur c).index <;> rw [hpc] at huser <;> first | rfl | contradiction
    intro cap limit me
    cases f with
    | spawnOn cpu slots =>
      simp only [Call.entry]
      split <;> simp
    | _ => (intro h; cases h)
  · exact h.task hb hfree.1 hrun hguard hex
  · exact h.tail hb hfree.1 hp hbusy hguard v.from'
  · exact h.of_calm rfl (Machine.step_exec_frame hm).2.2.1 (fun _ _ _ _ => rfl)
      fun _ _ _ _ _ _ hin => hin
  · refine h.of_switch hb hfree.1 rfl rfl (pc_self s _) (fun _ hin => hin) ?_
    rintro cap me ⟨limit, hp | ⟨-, hblocked⟩⟩
    · exact ⟨limit, .inl hp⟩
    · exact absurd hblocked (Machine.switchWith_not_blocked hb.inv.tasks hfree.1 (by decide))
  · unfold Kernel.signal
    split <;> exact ⟨h.linked, h.waiting⟩
  · exact ⟨h.linked, h.waiting⟩
  · exact ⟨h.linked, h.waiting⟩

theorem channels_linked (created : List Bool) : (channels created).Linked := by
  induction created with
  | nil => exact Table.new_linked
  | cons ephemeral rest ih => exact (Table.createChannel_spec (by decide) ih ephemeral).2

theorem reach_recorded (h : Reach Boot Kernel.step (fun s l => s.wakesOutsideWindow l = true) s) :
    Recorded s := by
  refine h.invariant_of (J := Base) (I := Recorded) ?_ ?_ ?_
  · exact fun _ hr => reach_base hr
  · rintro s ⟨created, rfl⟩
    exact ⟨channels_linked created, nofun⟩
  · intro s l s' hb _ hrec hok hs
    exact hrec.step hb hok hs

def stranded (s : Kernel) (i : ℕ) : Bool :=
  match s.m.tasks.states i, s.pc i with
  | .blocked, .recv cap _ (.resumed _) =>
    match s.ipc.lookup cap .RECV with
    | some mb => (s.ipc.boxes mb).live && 0 < (s.ipc.boxes mb).len &&
      (s.ipc.boxes mb).waiter.isNone
    | none => false
  | _, _ => false

/-- Nobody has taken a receiver off its mailbox and still has to wake or cancel it. -/
def NonePending (s : Kernel) : Prop :=
  (∀ i, i < maxTasks → (s.pc i).handed = []) ∧ ∀ c, c < nCpus → (s.tail c).handed = []

theorem NonePending.not_inHand (h : NonePending s) (id : TaskId) : ¬ InHand s id := by
  rintro (⟨i, hi, hid⟩ | ⟨d, hd, hid⟩)
  · rw [h.1 i hi] at hid
    contradiction
  · rw [h.2 d hd] at hid
    contradiction

instance (s : Kernel) : Decidable (NonePending s) := inferInstanceAs (Decidable (_ ∧ _))

/-- In a run where nobody is woken between its park and its block, a blocked receiver
stays recorded until somebody takes it up. -/
theorem no_stranded_receiver (s : Kernel)
    (h : Reach Boot Kernel.step (fun s l => s.wakesOutsideWindow l = true) s)
    (hnone : NonePending s) (i : ℕ) (hi : i < maxTasks) : s.stranded i = false := by
  unfold stranded
  split
  · rename_i cap limit me hblocked hpc
    have hparked : Parked s i cap me := ⟨limit, .inr ⟨hpc, hblocked⟩⟩
    rcases (reach_recorded h).waiting i hi cap me hparked with ⟨mb, hl, hw⟩ | hin
    · simp [hl, hw]
    · exact absurd hin (hnone.not_inHand me)
  · rfl

/-- A receiver on an empty mailbox has blocked. -/
theorem no_stranded_receiver_blocked : ∃ s, NonePending s ∧ s.m.tasks.states 1 = .blocked ∧
    ∀ i, i < maxTasks → s.stranded i = false := by
  have hstart : Reach Boot Kernel.step (fun s l => s.wakesOutsideWindow l = true) _ :=
    reach_boot [false]
  obtain ⟨s, hreach, hnone, hblocked⟩ := hstart.exists_run
    (P := fun s => NonePending s ∧ s.m.tasks.states 1 = .blocked)
    ([.call 0 (.spawnOn 0 [some (CapId.new 1 1)])] ++ execs 0 2 ++ [.call 0 .yieldNow] ++
      execs 0 7 ++ [.call 0 (.recv (CapId.new 1 1))] ++ execs 0 10) (by decide +kernel)
  exact ⟨s, hnone, hblocked, no_stranded_receiver s hreach hnone⟩

/-- The sender takes the waiter and wakes it before the receiver has blocked: the
receiver then blocks on a mailbox that holds its message and has forgotten it. -/
theorem stranded_receiver : ∃ s, Reach Boot Kernel.step (fun _ _ => True) s ∧
    NonePending s ∧ s.stranded 1 = true := by
  have hstart : Reach Boot Kernel.step (fun _ _ => True) _ := reach_boot [false]
  exact hstart.exists_run
    ([.call 0 (.spawnOn 0 [some (CapId.new 1 1)])] ++ execs 0 2 ++ [.call 0 .yieldNow] ++
      execs 0 7 ++ [.call 0 (.recv (CapId.new 1 1))] ++ execs 0 6 ++ [.preempt 0] ++
      execs 0 3 ++ [.call 0 (.creatorTrySend (CapId.new 0 1) ⟨1, 0, 0⟩)] ++ execs 0 2 ++
      [.call 0 .yieldNow] ++ execs 0 11) (by decide +kernel)

end Kernel

end HarborKernel.LockSections
