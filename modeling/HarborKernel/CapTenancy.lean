import HarborKernel.CapSections

/-!
Capability rows and task-caps follow the tenancies of the slots.
An empty slot has an empty row. A transfer to a peer carries the id that its
task-cap was minted for and checks it against the table at the move, so it reaches
the task of that very tenancy unless 65536 tenancies of the slot have ended since.
-/

namespace HarborKernel.LockSections

open Function Capability ReadyQueue TaskTable Ipc IrqWait Processors Transition

namespace Kernel

variable {s s' : Kernel} {c : ℕ}

def MintedFor (s : Kernel) (minted : Option (TaskId × ℕ)) (id : TaskId) : Prop :=
  ∃ n, minted = some (id, n) ∧ n ≤ s.m.ended id.index

structure Tenured (s : Kernel) : Prop where
  rows : ∀ i, i < maxTasks → s.m.tasks.states i = .empty → ∀ k, s.caps.rows i k = none
  logged : ∀ k, k < TaskCap.maxTaskCaps → (s.taskCaps.entries k).live = true →
    MintedFor s (s.log (TaskCap.Table.capAt k (s.taskCaps.entries k).generation))
      (TaskId.fromRaw (s.taskCaps.entries k).task)
  named : ∀ i, i < maxTasks → ∀ to' by', (s.pc i).peer = some (to', by') →
    MintedFor s by'.task to'
  epochs : ∀ i, s.m.tasks.epochs i = UInt16.ofNat (s.m.ended i)

theorem MintedFor.mono {minted : Option (TaskId × ℕ)} {id : TaskId} (h : MintedFor s minted id)
    (hle : ∀ i, s.m.ended i ≤ s'.m.ended i) : MintedFor s' minted id := by
  obtain ⟨n, hn, hbound⟩ := h
  exact ⟨n, hn, hbound.trans (hle _)⟩

/-- A step that ends no tenancy and neither mints nor revokes. -/
theorem Tenured.of_steady (h : Tenured s) (hsteady : Steady s.m s'.m)
    (htask : s'.taskCaps = s.taskCaps) (hlog : s'.log = s.log)
    (hrows : ∀ i, i < maxTasks → s.m.tasks.states i = .empty → s'.m.tasks.states i = .empty →
      s'.caps.rows i = s.caps.rows i)
    (hnamed : ∀ i, i < maxTasks → ∀ to' by', (s'.pc i).peer = some (to', by') →
      (s.pc i).peer = some (to', by') ∨ MintedFor s by'.task to') : Tenured s' := by
  have hle : ∀ i, s.m.ended i ≤ s'.m.ended i := fun i => by rw [hsteady.ended]
  refine ⟨?_, ?_, ?_, ?_⟩
  · intro i hi he k
    have hold := hsteady.empty i he
    rw [hrows i hi hold he]
    exact h.rows i hi hold k
  · rw [htask, hlog]
    intro k hk hlive
    exact (h.logged k hk hlive).mono hle
  · intro i hi to' by' hpeer
    rcases hnamed i hi to' by' hpeer with hold | hnew
    · exact (h.named i hi to' by' hold).mono hle
    · exact hnew.mono hle
  · rw [hsteady.epochs, hsteady.ended]
    exact h.epochs

theorem Tenured.of_frame (h : Tenured s) (hframe : CapFrame s s') : Tenured s' := by
  refine h.of_steady hframe.steady hframe.taskCaps hframe.log
    (fun i _ _ _ => by rw [hframe.caps]) ?_
  intro i _ to' by' hpeer
  left
  rcases hframe.points i with hsame | ⟨-, -, hnone, -⟩
  · rwa [hsame] at hpeer
  · rw [hnone] at hpeer
    contradiction

/-- The current task moves on; its new point names no peer but one it knows a mint for. -/
theorem peer_of_move {p : Pc} (hpc : s'.pc = update s.pc (s.cur c).index p)
    (hp : ∀ to' by', p.peer = some (to', by') → MintedFor s by'.task to') (i : ℕ) (to' : TaskId)
    (by' : Minted) (hpeer : (s'.pc i).peer = some (to', by')) :
    (s.pc i).peer = some (to', by') ∨ MintedFor s by'.task to' := by
  rw [hpc] at hpeer
  by_cases hik : i = (s.cur c).index
  · subst hik
    rw [update_self] at hpeer
    exact .inr (hp to' by' hpeer)
  · rw [update_of_ne hik] at hpeer
    exact .inl hpeer

theorem transferHeld_live (hb : Base s) (hc : Up s.m.online c) {fromSlot toSlot : ℕ} {to' : TaskId}
    (h : (s.transferHeld c fromSlot to' toSlot).2 ≠ s.caps ∨
      (s.transferHeld c fromSlot to' toSlot).1 = .ok ()) :
    ∃ st, s.m.tasks.state to' = some st ∧ st ≠ .empty := by
  unfold transferHeld at h
  split at h
  · rcases h with h | h <;> contradiction
  split at h
  · rcases h with h | h <;> contradiction
  rename_i hlive
  by_cases hself : to' = s.cur c
  · have hsits := hb.cur_sits hc
    refine ⟨.running, ?_, nofun⟩
    rw [hself, hsits.eq_idAt, state_idAt hsits.lt, hsits.state]
  simp only [ne_eq, hself, not_false_eq_true, true_and, not_or] at hlive
  cases hst : s.m.tasks.state to' with
  | none => exact absurd hst hlive.1
  | some st => exact ⟨st, rfl, fun he => hlive.2 (by rw [hst, he])⟩

theorem transferHeld_rows (hb : Base s) (hc : Up s.m.online c) (fromSlot toSlot : ℕ)
    (to' : TaskId) {i : ℕ} (hi : s.m.tasks.states i = .empty) :
    (s.transferHeld c fromSlot to' toSlot).2.rows i = s.caps.rows i := by
  by_cases hsame : (s.transferHeld c fromSlot to' toSlot).2 = s.caps
  · rw [hsame]
  obtain ⟨st, hstate, hst⟩ := transferHeld_live hb hc (.inl hsame)
  have hfrom : i ≠ (s.cur c).index := by
    rintro rfl
    rw [(hb.cur_sits hc).state] at hi
    contradiction
  have hto : i ≠ to'.index := by
    rintro rfl
    exact hst ((Tasks.state_eq_some hstate).2.2.symm.trans hi)
  unfold transferHeld
  split
  · rfl
  split
  · rfl
  · exact CapSlots.Table.transfer_rows_of_ne s.caps hfrom hto

section

variable (h : Tenured s) (hb : Base s) (hc : Up s.m.online c)
include h hb hc

theorem Tenured.grant {p : GrantPoint}
    (hpc : s.pc (s.cur c).index = .grant p) : Tenured (s.execGrant c p) := by
  have hsteady := Steady.refl s.m
  have hcur := hb.cur_sits hc
  -- only an install and a transfer touch a row, and only a lookup names a new peer
  have hmove : ∀ {s1 : Kernel} {q : Pc}, s1.m = s.m → s1.caps = s.caps →
      s1.taskCaps = s.taskCaps → s1.log = s.log →
      s1.pc = update s.pc (s.cur c).index q →
      (∀ to' by', q.peer = some (to', by') → MintedFor s by'.task to') → Tenured s1 := by
    intro s1 q hm hcaps htask hlog hq hp
    exact h.of_steady (hm ▸ hsteady) htask hlog (fun _ _ _ _ => by rw [hcaps])
      (fun i _ => peer_of_move hq hp i)
  cases p with
  | install slot cap =>
    refine h.of_steady hsteady rfl rfl ?_ (fun i _ => peer_of_move rfl ?_ i)
    · intro i hi he _
      have hne : i ≠ (s.cur c).index := by
        rintro rfl
        rw [hcur.state] at he
        contradiction
      simp only [execGrant, goto, CapSlots.Table.install]
      split
      · exact update_of_ne hne ..
      · rfl
    · split <;> rintro _ _ ⟨⟩
  | register cap => exact hmove rfl rfl rfl rfl rfl (by rintro _ _ ⟨⟩)
  | transfer fromSlot to' toSlot by' =>
    refine h.of_steady hsteady rfl rfl ?_ (fun i _ => peer_of_move
      (p := .user (.moved (s.transferHeld c fromSlot to' toSlot).1)) rfl (by rintro _ _ ⟨⟩) i)
    intro i hi he _
    exact transferHeld_rows hb hc fromSlot toSlot to' he
  | creatorOf fromSlot toSlot => exact hmove rfl rfl rfl rfl rfl (by rintro _ _ ⟨⟩)
  | creatorSelf creator fromSlot toSlot =>
    refine hmove rfl rfl rfl rfl rfl ?_
    split <;> rintro _ _ ⟨⟩
  | peerCap fromSlot toSlot capSlot =>
    simp only [execGrant]
    split <;> exact hmove rfl rfl rfl rfl rfl (by rintro _ _ ⟨⟩)
  | peerLookup cap fromSlot toSlot =>
    simp only [execGrant]
    split
    · exact hmove rfl rfl rfl rfl rfl (by rintro _ _ ⟨⟩)
    rename_i raw hraw
    refine hmove rfl rfl rfl rfl rfl ?_
    rintro to' by' hpeer
    cases hpeer
    obtain ⟨k, hk, hlive, hcap, htask⟩ := TaskCap.Table.lookup_eq_some hraw
    have hlogged := h.logged k hk hlive
    rwa [hcap, htask] at hlogged
  | peerSelf to' by' fromSlot toSlot =>
    refine hmove rfl rfl rfl rfl rfl ?_
    intro to1 by1 hpeer
    split at hpeer
    · contradiction
    · cases hpeer
      exact h.named _ hcur.lt _ _ (by rw [hpc]; rfl)

theorem Tenured.spawn (p : SpawnPoint) : Tenured (s.execSpawn c p) := by
  cases p with
  | register held =>
    exact h.of_steady (.refl s.m) rfl rfl (fun _ _ _ _ => rfl)
      (fun i _ => peer_of_move (p := .user .none) rfl (by rintro _ _ ⟨⟩) i)
  | create cpu held =>
    rcases Machine.spawnOn_cases hb.inv.tasks cpu with heq | ⟨slot, q, -, hfree, -, heq⟩
    · simp only [execSpawn, heq]
      exact h.of_steady (.refl s.m) rfl rfl (fun _ _ _ _ => rfl)
        (fun i _ => peer_of_move (p := .user .none) rfl (by rintro _ _ ⟨⟩) i)
    have hcalm := Machine.act_calm (c := c) hb.inv.tasks hc (.spawn cpu) ⟨by simp, by simp⟩
    simp only [Machine.act, heq] at hcalm
    have hidx := Tasks.idAt_index Machine.maxTasks_le s.m.tasks (Tasks.freeSlot_eq_some hfree).1
    simp only [execSpawn, heq, hb.fresh_pc hfree]
    refine h.of_steady (.of_calm hcalm) rfl rfl ?_
      (fun i _ => peer_of_move (p := .spawn (.register held)) rfl (by rintro _ _ ⟨⟩) i)
    intro i hi _ he
    have hne : i ≠ slot := by
      rintro rfl
      rw [show (Machine.tasks _).states i = .ready from update_self ..] at he
      contradiction
    rw [hidx]
    simp only [CapSlots.Table.seed]
    split
    · exact update_of_ne hne ..
    · rfl

theorem Tenured.exit :
    Tenured (s.execExit c) := by
  have htenancies := Machine.switchWith_tenancies hb.inv.tasks hc .exit
  have hle : ∀ i, s.m.ended i ≤ (s.m.switchWith c .exit).ended i := by
    intro i
    rcases htenancies i with ⟨-, he⟩ | ⟨-, he⟩ <;> omega
  have hepochs : ∀ i, (s.m.switchWith c .exit).tasks.epochs i =
      UInt16.ofNat ((s.m.switchWith c .exit).ended i) := by
    intro i
    rcases htenancies i with ⟨hep, he⟩ | ⟨hep, he⟩ <;> rw [hep, he, h.epochs i]
    rw [UInt16.ofNat_add]
    rfl
  have hrule : ∀ {s1 : Kernel} {q : Pc}, s1.m = s.m.switchWith c .exit →
      s1.taskCaps = s.taskCaps → s1.log = s.log →
      s1.pc = update s.pc (s.cur c).index q → q.peer = none →
      (∀ i, i ≠ (s.cur c).index → s1.caps.rows i = s.caps.rows i) →
      (s1.m.tasks.states (s.cur c).index = .empty → ∀ k, s1.caps.rows (s.cur c).index k = none) →
      Tenured s1 := by
    intro s1 q hm htask hlog hpc hq hrows hself
    refine ⟨?_, ?_, ?_, hm ▸ hepochs⟩
    · intro i hi he k
      by_cases hik : i = (s.cur c).index
      · subst hik
        exact hself he k
      rw [hrows i hik]
      rw [hm] at he
      rcases (Machine.switchWith_others hb.inv.tasks hc .exit hik).1 with hst | hst <;>
        rw [he] at hst
      · exact h.rows i hi hst.symm k
      · contradiction
    · rw [htask, hlog]
      intro k hk hlive
      exact (h.logged k hk hlive).mono (hm ▸ hle)
    · intro i hi to' by' hpeer
      rcases peer_of_move hpc (fun _ _ hp => by rw [hq] at hp; contradiction) i to' by' hpeer
        with hold | hnew
      · exact (h.named i hi to' by' hold).mono (hm ▸ hle)
      · exact hnew.mono (hm ▸ hle)
  unfold execExit
  split
  · rename_i t heq
    refine hrule (q := .halted) rfl rfl rfl rfl rfl (fun _ _ => rfl) ?_
    intro he
    obtain ⟨-, hno⟩ := Machine.switchWith_empty hb.inv.tasks hc he
    exact absurd (congrArg Prod.fst heq) hno
  rename_i from' next parked t heq
  obtain rfl : from' = s.cur c := switchOn_from hb hc heq
  refine hrule (q := .user .none) rfl rfl rfl rfl rfl ?_ ?_
  · intro i hi
    simp only [CapSlots.Table.drain]
    split
    · exact update_of_ne hi ..
    · rfl
  intro _ k
  simp only [CapSlots.Table.drain, if_pos (hb.cur_sits hc).lt, CapSlots.Table.setRow,
    update_self]

end

theorem Tenured.mint (h : Tenured s) (id : TaskId) : Tenured (s.execAdmin c (.mint id)) := by
  have hnamed : ∀ i, i < maxTasks → ∀ to' by', ((s.execAdmin c (.mint id)).pc i).peer =
      some (to', by') → MintedFor s by'.task to' := by
    intro i hi to' by' hpeer
    rcases peer_of_move (p := .user .none) rfl nofun i to' by' hpeer with hold | hnew
    · exact h.named i hi to' by' hold
    · exact hnew
  refine ⟨h.rows, ?_, hnamed, h.epochs⟩
  rcases TaskCap.Table.mint_cases s.taskCaps id.toRaw with heq | ⟨k, g, hk, -, heq⟩
  · simp only [execAdmin, heq]
    exact h.logged
  simp only [execAdmin, heq]
  intro k' hk' hlive
  by_cases hkk : k' = k
  · subst hkk
    simp only [goto, update_self, TaskId.fromRaw_toRaw]
    exact ⟨_, rfl, le_refl _⟩
  have hother : TaskCap.Table.capAt k' (s.taskCaps.entries k').generation ≠
      TaskCap.Table.capAt k g := fun he => hkk (TaskCap.Table.capAt_inj hk' hk he)
  simp only [goto, update_of_ne hkk] at hlive ⊢
  rw [update_of_ne hother]
  exact h.logged k' hk' hlive

theorem Tenured.revoke (h : Tenured s) (from' : TaskId) :
    Tenured (s.execTail c from' .revoke) := by
  refine ⟨h.rows, ?_, h.named, h.epochs⟩
  intro k hk
  simp only [execTail, setTail, TaskCap.Table.revokeTask]
  split
  · nofun
  · exact h.logged k hk

theorem Tenured.step (h : Tenured s) (hb : Base s) {l : Label} (hs : s.step l = some s') :
    Tenured s' := by
  rcases step_caps hb hs with ⟨c, -, hfree, -, hsec⟩ | ⟨c, v, caps, -, -, -, -, rfl⟩ |
    ⟨c, v, -, rfl⟩ | ⟨hframe, -⟩
  · rcases hsec with ⟨p, hpc, rfl⟩ | ⟨p, -, rfl⟩ | ⟨-, rfl⟩ | ⟨id, -, rfl⟩
    · exact h.grant hb hfree.1 hpc
    · exact h.spawn hb hfree.1 p
    · exact h.exit hb hfree.1
    · exact h.mint id
  · exact ⟨h.rows, h.logged, h.named, h.epochs⟩
  · exact h.revoke v
  · exact h.of_frame hframe

theorem reach_tenured {ok : Kernel → Label → Prop} (h : Reach Boot Kernel.step ok s) :
    Tenured s := by
  refine h.invariant_of (J := Base) (I := Tenured) (fun _ hr => reach_base hr) ?_ ?_
  · rintro s ⟨created, rfl⟩
    exact ⟨fun _ _ _ _ => rfl, nofun, nofun, fun _ => rfl⟩
  · intro s l s' hb _ hinv _ hs
    exact hinv.step hb hs

end Kernel

end HarborKernel.LockSections
