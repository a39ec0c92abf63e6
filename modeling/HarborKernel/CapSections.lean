import HarborKernel.IpcHolds
import HarborKernel.SectionSteps

/-!
The sections that touch capabilities.
A step of the kernel is a section of a spawn, of a grant or of an exit, a mint or
the revocation of task-caps; every other step leaves the rows and the task-caps as
they are, and only creating or revoking a channel changes what a capability names.
-/

namespace HarborKernel.LockSections

open Function Capability ReadyQueue TaskTable Ipc IrqWait Processors Transition

def Pc.registering : Pc → List (Option CapId)
  | .spawn (.register held) => held
  | .grant (.register cap) => [some cap]
  | _ => []

def Pc.peer : Pc → Option (TaskId × Minted)
  | .grant (.transfer _ to' _ (some by')) => some (to', by')
  | .grant (.peerSelf to' by' _ _) => some (to', by')
  | _ => none

def Pc.fits : Pc → Bool
  | .spawn (.create _ held) => held.length ≤ maxCapsPerTask
  | _ => true

def Pc.plain (p : Pc) : Prop := p.registering = [] ∧ p.peer = none ∧ p.fits = true

def Pc.reshapes : Pc → Bool
  | .admin (.createChannel _) => true
  | .admin (.revoke _) => true
  | _ => false

def TailPoint.releasing : TailPoint → List (Option CapId)
  | .release caps => caps
  | _ => []

namespace Kernel

variable {s s' : Kernel} {c : ℕ}

structure Steady (m m' : Machine) : Prop where
  empty : ∀ i, m'.tasks.states i = .empty → m.tasks.states i = .empty
  epochs : m'.tasks.epochs = m.tasks.epochs
  ended : m'.ended = m.ended

theorem Steady.refl (m : Machine) : Steady m m := ⟨fun _ h => h, rfl, rfl⟩

theorem Steady.of_calm {m m' : Machine} (h : Machine.Calm m m') : Steady m m' :=
  ⟨h.empty, h.epochs, h.ended⟩

theorem Base.switch_steady (h : Base s) (hc : Up s.m.online c) {kind : Switch}
    (hk : kind ≠ .exit) : Steady s.m (s.m.switchWith c kind) := by
  obtain ⟨hepochs, hended⟩ := Machine.switchWith_epochs h.inv.tasks hc hk
  refine ⟨fun i he => ?_, hepochs, hended⟩
  by_cases hi : i = (s.m.tasks.current c).index
  · subst hi
    exact absurd (Machine.switchWith_empty h.inv.tasks hc he).1 hk
  rcases (Machine.switchWith_others h.inv.tasks hc kind hi).1 with heq | heq <;> rw [he] at heq
  · exact heq.symm
  · contradiction

theorem switchOn_from (h : Base s) (hc : Up s.m.online c) {kind : Switch} {from' next : TaskId}
    {parked : Option TaskId} {t : Tasks maxTasks}
    (heq : s.m.tasks.switchOn c kind = (.switch from' next parked, t)) : from' = s.cur c := by
  rcases Tasks.switchOn_cases Machine.maxTasks_le h.inv.tasks hc kind with
    ⟨-, -, hsw⟩ | ⟨-, -, q, -, hsw⟩ | ⟨n, q, -, -, -, hsw⟩ <;> rw [hsw] at heq <;> cases heq
  rfl

structure CapFrame (s s' : Kernel) : Prop where
  caps : s'.caps = s.caps
  taskCaps : s'.taskCaps = s.taskCaps
  log : s'.log = s.log
  steady : Steady s.m s'.m
  points : ∀ i, s'.pc i = s.pc i ∨ ((s.pc i).registering = [] ∧ (s'.pc i).plain)
  tail : ∀ d, (s'.tail d).releasing = (s.tail d).releasing

section

variable (hsteady : Steady s.m s'.m) (hcaps : s'.caps = s.caps) (htask : s'.taskCaps = s.taskCaps)
  (hlog : s'.log = s.log)
include hsteady hcaps htask hlog

theorem CapFrame.of_move (htail : s'.tail = s.tail)
    {p : Pc} (hpc : s'.pc = update s.pc (s.cur c).index p)
    (hold : (s.pc (s.cur c).index).registering = []) (hp : p.plain) : CapFrame s s' := by
  refine ⟨hcaps, htask, hlog, hsteady, ?_, fun d => by rw [htail]⟩
  intro i
  rw [hpc]
  by_cases hik : i = (s.cur c).index
  · subst hik
    rw [update_self]
    exact .inr ⟨hold, hp⟩
  · exact .inl (update_of_ne hik ..)

theorem CapFrame.of_same (hpc : s'.pc = s.pc)
    (htail : ∀ d, (s'.tail d).releasing = (s.tail d).releasing) : CapFrame s s' :=
  ⟨hcaps, htask, hlog, hsteady, fun _ => .inl (by rw [hpc]), htail⟩

end

theorem answered_plain (limit : Option (TaskId × ℕ)) (r : Received) : (answered limit r).plain := by
  cases limit <;> exact ⟨rfl, rfl, rfl⟩

theorem afterTokens_plain (y : Bool) (tokens : List UInt32) : (afterTokens y tokens).plain := by
  cases tokens <;> exact ⟨rfl, rfl, rfl⟩

theorem afterIds_plain (y : Bool) (ids : List TaskId) : (afterIds y ids).plain := by
  cases ids <;> cases y <;> exact ⟨rfl, rfl, rfl⟩

theorem entry_plain (f : Call) : f.entry.plain := by
  cases f with
  | spawnOn cpu slots =>
    simp only [Call.entry]
    split
    · exact ⟨rfl, rfl, rfl⟩
    · rename_i hlen
      exact ⟨rfl, rfl, decide_eq_true (Nat.le_of_not_lt hlen)⟩
  | _ => exact ⟨rfl, rfl, rfl⟩

theorem execRecv_holds (s : Kernel) (c : ℕ) (cap : CapId) (limit : Option (TaskId × ℕ))
    (p : RecvPoint) : Ipc.Table.SameHolds s.ipc (s.execRecv c cap limit p).ipc := by
  cases p with
  | takeCancel | resumed =>
    cases hflag : s.cancelWait (s.cur c).index <;>
      simp only [execRecv, takeCancelWait, hflag, Bool.false_eq_true, if_false, if_true] <;>
      exact Ipc.Table.SameHolds.refl _
  | tryRecv =>
    have h := Ipc.Table.tryRecv_holds s.ipc cap
    simp only [execRecv]
    split <;> rename_i heq <;> rw [heq] at h <;> exact h
  | park me =>
    have h := Ipc.Table.park_holds s.ipc cap me
    simp only [execRecv]
    split <;> rename_i heq <;> rw [heq] at h <;> exact h
  | _ => exact ⟨rfl, fun _ => rfl⟩

theorem execSend_holds (s : Kernel) (c : ℕ) (cap : CapId) (msg : Message) (p : SendPoint) :
    Ipc.Table.SameHolds s.ipc (s.execSend c cap msg p).ipc := by
  cases p with
  | table =>
    have h := Ipc.Table.send_holds s.ipc cap msg
    simp only [execSend]
    split <;> rename_i heq <;> rw [heq] at h <;> exact h
  | _ => exact ⟨rfl, fun _ => rfl⟩

theorem execAdmin_holds (s : Kernel) (c : ℕ) (p : AdminPoint)
    (hp : (Pc.admin p).reshapes = false) :
    Ipc.Table.SameHolds s.ipc (s.execAdmin c p).ipc := by
  cases p with
  | createChannel | revoke => contradiction
  | clear id => exact Ipc.Table.clearWaiter_holds s.ipc id
  | _ => exact ⟨rfl, fun _ => rfl⟩

section

variable (hb : Base s) (hc : Up s.m.online c) (hrun : s.m.phase c = .run)
include hb hc hrun

theorem CapFrame.admin
    {p : AdminPoint} (hpc : s.pc (s.cur c).index = .admin p) (hp : ∀ id, p ≠ .mint id) :
    CapFrame s (s.execAdmin c p) := by
  have hold : (s.pc (s.cur c).index).registering = [] := by rw [hpc]; rfl
  have hsteady := Steady.refl s.m
  cases p with
  | mint id => exact absurd rfl (hp id)
  | startCpu1 =>
    obtain ⟨heq, -, hcalm⟩ := execAdmin_startCpu1 hb hc hrun
    rw [heq]
    exact CapFrame.of_move (.of_calm hcalm) rfl rfl rfl rfl rfl hold ⟨rfl, rfl, rfl⟩
  | markStealeable yes =>
    have hcalm := Machine.act_calm (c := c) hb.inv.tasks hc (.setStealeable (s.cur c) yes)
      ⟨nofun, nofun⟩
    exact CapFrame.of_move (p := .user .none) (.of_calm hcalm) rfl rfl rfl rfl rfl hold
      ⟨rfl, rfl, rfl⟩
  | createChannel ephemeral =>
    exact CapFrame.of_move (p := .user .none) hsteady rfl rfl rfl rfl rfl hold ⟨rfl, rfl, rfl⟩
  | revoke cap =>
    simp only [execAdmin]
    split
    · exact CapFrame.of_move hsteady rfl rfl rfl rfl rfl hold ⟨rfl, rfl, rfl⟩
    · exact CapFrame.of_move (p := .user .none) hsteady rfl rfl rfl rfl rfl hold ⟨rfl, rfl, rfl⟩
  | clear id =>
    exact CapFrame.of_move (p := .admin (.cancel id)) hsteady rfl rfl rfl rfl rfl hold
      ⟨rfl, rfl, rfl⟩
  | cancel id =>
    have hcalm := (cancel_calm hb hc (.inl hrun) id).2.1
    exact CapFrame.of_move (p := .user .none) (.of_calm hcalm) rfl rfl rfl rfl rfl hold
      ⟨rfl, rfl, rfl⟩

theorem CapFrame.poll
    {y : Bool} {p : PollPoint} (hpc : s.pc (s.cur c).index = .poll y p) :
    CapFrame s (s.execPoll c y p) ∧ Ipc.Table.SameHolds s.ipc (s.execPoll c y p).ipc := by
  have hold : (s.pc (s.cur c).index).registering = [] := by rw [hpc]; rfl
  have hsteady := Steady.refl s.m
  have hsame := Ipc.Table.SameHolds.refl s.ipc
  cases p with
  | drain =>
    exact ⟨CapFrame.of_move hsteady rfl rfl rfl rfl rfl hold (afterTokens_plain ..), hsame⟩
  | wake token rest =>
    have hcalm := (wake_calm hb hc (.inl hrun) (TaskId.fromRaw token)).2.1
    exact ⟨CapFrame.of_move (.of_calm hcalm) rfl rfl rfl rfl rfl hold (afterTokens_plain y rest),
      hsame⟩
  | now => exact ⟨CapFrame.of_move hsteady rfl rfl rfl rfl rfl hold ⟨rfl, rfl, rfl⟩, hsame⟩
  | expire now =>
    exact ⟨CapFrame.of_move hsteady rfl rfl rfl rfl rfl hold (afterIds_plain ..), hsame⟩
  | clear id rest =>
    exact ⟨CapFrame.of_move (p := .poll y (.cancel id rest)) hsteady rfl rfl rfl rfl rfl hold
      ⟨rfl, rfl, rfl⟩, Ipc.Table.clearWaiter_holds s.ipc id⟩
  | cancel id rest =>
    have hcalm := (cancel_calm hb hc (.inl hrun) id).2.1
    exact ⟨CapFrame.of_move (.of_calm hcalm) rfl rfl rfl rfl rfl hold (afterIds_plain y rest),
      hsame⟩

theorem execTask_caps
    (hs : s.execTask c = some s') :
    (∃ p, s.pc (s.cur c).index = .grant p ∧ s' = s.execGrant c p) ∨
    (∃ p, s.pc (s.cur c).index = .spawn p ∧ s' = s.execSpawn c p) ∨
    (s.pc (s.cur c).index = .exit ∧ s' = s.execExit c) ∨
    (∃ id, s.pc (s.cur c).index = .admin (.mint id) ∧ s' = s.execAdmin c (.mint id)) ∨
    (CapFrame s s' ∧ ((s.pc (s.cur c).index).reshapes = false →
      Ipc.Table.SameHolds s.ipc s'.ipc)) := by
  have hsteady := Steady.refl s.m
  have hsame := Ipc.Table.SameHolds.refl s.ipc
  unfold execTask at hs
  split at hs <;> rename_i hpc <;>
    first
    | contradiction
    | (rw [← Option.some.inj hs]
       have hold := congrArg Pc.registering hpc)
  · rename_i cap limit p
    refine .inr (.inr (.inr (.inr ⟨?_, fun _ => execRecv_holds s c cap limit p⟩)))
    by_cases hblock : ∃ me, p = .block me
    · obtain ⟨me, rfl⟩ := hblock
      exact CapFrame.of_move (p := .recv cap limit (.resumed me)) (hb.switch_steady hc nofun)
        rfl rfl rfl rfl rfl hold ⟨rfl, rfl, rfl⟩
    obtain ⟨ipc, cancelWait, p', heq, hp'⟩ :=
      execRecv_footprint s c cap limit p fun me hme => hblock ⟨me, hme⟩
    rw [heq]
    refine CapFrame.of_move hsteady rfl rfl rfl rfl rfl hold ?_
    rcases hp' with ⟨r, rfl⟩ | ⟨q, rfl, -⟩
    · exact answered_plain limit r
    · exact ⟨rfl, rfl, rfl⟩
  · rename_i p
    obtain ⟨deadlines, hit, p', heq, hp'⟩ := execTimed_footprint s c p
    rw [heq]
    refine .inr (.inr (.inr (.inr ⟨?_, fun _ => hsame⟩)))
    refine CapFrame.of_move hsteady rfl rfl rfl rfl rfl hold ?_
    rcases hp' with ⟨q, rfl⟩ | ⟨me, cap, d, -, rfl⟩ | ⟨r, rfl⟩ <;> exact ⟨rfl, rfl, rfl⟩
  · rename_i cap msg p
    refine .inr (.inr (.inr (.inr ⟨?_, fun _ => execSend_holds s c cap msg p⟩)))
    by_cases hw : ∃ id, p = .wake id
    · obtain ⟨id, rfl⟩ := hw
      have hcalm := (wake_calm hb hc (.inl hrun) id).2.1
      exact CapFrame.of_move (.of_calm hcalm) rfl rfl rfl rfl rfl hold ⟨rfl, rfl, rfl⟩
    obtain ⟨ipc, p', heq, hp'⟩ := execSend_footprint s c cap msg p fun id hid => hw ⟨id, hid⟩
    rw [heq]
    refine CapFrame.of_move hsteady rfl rfl rfl rfl rfl hold ?_
    rcases hp' with ⟨q, rfl⟩ | rfl <;> exact ⟨rfl, rfl, rfl⟩
  · rename_i cookie p
    refine .inr (.inr (.inr (.inr ?_)))
    by_cases hblock : ∃ me, p = .block me
    · obtain ⟨me, rfl⟩ := hblock
      exact ⟨CapFrame.of_move (p := .waitIrq cookie (.resumed me)) (hb.switch_steady hc nofun)
        rfl rfl rfl rfl rfl hold ⟨rfl, rfl, rfl⟩, fun _ => hsame⟩
    obtain ⟨waits, delivered, p', heq, hp'⟩ :=
      execIrq_footprint s c cookie p fun me hme => hblock ⟨me, hme⟩
    rw [heq]
    refine ⟨CapFrame.of_move hsteady rfl rfl rfl rfl rfl hold ?_, fun _ => hsame⟩
    rcases hp' with ⟨q, rfl, -⟩ | ⟨ok, rfl⟩ <;> exact ⟨rfl, rfl, rfl⟩
  · obtain ⟨hframe, hholds⟩ := CapFrame.poll hb hc hrun hpc
    exact .inr (.inr (.inr (.inr ⟨hframe, fun _ => hholds⟩)))
  · exact .inr (.inl ⟨_, hpc, rfl⟩)
  · exact .inl ⟨_, hpc, rfl⟩
  · rename_i p
    refine .inr (.inr (.inr ?_))
    by_cases hmint : ∃ id, p = .mint id
    · obtain ⟨id, rfl⟩ := hmint
      exact .inl ⟨id, hpc, rfl⟩
    refine .inr ⟨CapFrame.admin hb hc hrun hpc fun id hid => hmint ⟨id, hid⟩, ?_⟩
    rw [hpc]
    exact execAdmin_holds s c p
  · refine .inr (.inr (.inr (.inr ⟨?_, fun _ => hsame⟩)))
    exact CapFrame.of_move (p := .user .none) (hb.switch_steady hc nofun)
      rfl rfl rfl rfl rfl hold ⟨rfl, rfl, rfl⟩
  · exact .inr (.inr (.inl ⟨hpc, rfl⟩))

end

theorem execTail_caps (hb : Base s) (hc : Up s.m.online c) (hbusy : (s.tail c).busy = true)
    (from' : TaskId) (hrelease : ∀ caps, s.tail c ≠ .release caps) (hrevoke : s.tail c ≠ .revoke) :
    CapFrame s (s.execTail c from' (s.tail c)) ∧
      Ipc.Table.SameHolds s.ipc (s.execTail c from' (s.tail c)).ipc := by
  have htail : ∀ p : TailPoint, p.releasing = [] →
      ∀ d, (update s.tail c p d).releasing = (s.tail d).releasing := by
    intro p hp d
    by_cases hd : d = c
    · subst hd
      rw [update_self, hp]
      cases ht : s.tail d with
      | release caps => exact absurd ht (hrelease caps)
      | _ => rfl
    · rw [update_of_ne hd]
  have hreaps : ∀ rest, (afterReaps rest).releasing = [] := by
    intro rest
    cases rest <;> rfl
  have hkids : ∀ rest, (afterKids rest).releasing = [] := by
    intro rest
    cases rest <;> rfl
  have hsteady := Steady.refl s.m
  have hsame := Ipc.Table.SameHolds.refl s.ipc
  cases ht : s.tail c with
  | done => exact ⟨CapFrame.of_same hsteady rfl rfl rfl rfl fun _ => rfl, hsame⟩
  | release caps => exact absurd ht (hrelease caps)
  | reap id rest =>
    have hcalm := (cancel_calm hb hc (.inr hbusy) id).2.1
    exact ⟨CapFrame.of_same (.of_calm hcalm) rfl rfl rfl rfl (htail _ (hreaps rest)), hsame⟩
  | revoke => exact absurd ht hrevoke
  | scan => exact ⟨CapFrame.of_same hsteady rfl rfl rfl rfl (htail _ (hkids _)), hsame⟩
  | clear id rest =>
    exact ⟨CapFrame.of_same hsteady rfl rfl rfl rfl (htail (.cancel id rest) rfl),
      Ipc.Table.clearWaiter_holds s.ipc id⟩
  | cancel id rest =>
    have hcalm := (cancel_calm hb hc (.inr hbusy) id).2.1
    exact ⟨CapFrame.of_same (.of_calm hcalm) rfl rfl rfl rfl (htail _ (hkids rest)), hsame⟩

/-- Every step, as the capabilities see it. -/
theorem step_caps (hb : Base s) {l : Label} (hs : s.step l = some s') :
    (∃ c, l = .exec c ∧ s.free c ∧ s.m.phase c = .run ∧
      ((∃ p, s.pc (s.cur c).index = .grant p ∧ s' = s.execGrant c p) ∨
      (∃ p, s.pc (s.cur c).index = .spawn p ∧ s' = s.execSpawn c p) ∨
      (s.pc (s.cur c).index = .exit ∧ s' = s.execExit c) ∨
      ∃ id, s.pc (s.cur c).index = .admin (.mint id) ∧ s' = s.execAdmin c (.mint id))) ∨
    (∃ c v caps, l = .exec c ∧ c < nCpus ∧ s.m.phase c = .tail v ∧ s.tail c = .release caps ∧
      s' = s.execTail c v.from' (.release caps)) ∨
    (∃ c v, s.tail c = .revoke ∧ s' = s.execTail c v .revoke) ∨
    (CapFrame s s' ∧ ((∀ c, l = .exec c → s.m.phase c = .run →
      (s.pc (s.cur c).index).reshapes = false) → Ipc.Table.SameHolds s.ipc s'.ipc)) := by
  have hsteady := Steady.refl s.m
  have hsame := Ipc.Table.SameHolds.refl s.ipc
  rcases step_cases hs with ⟨c, f, -, hfree, -, huser, -, rfl⟩ |
    ⟨c, rfl, hfree, hrun, hex⟩ | ⟨c, v, rfl, hfree, hp, hbusy, rfl⟩ | ⟨c, m, -, -, hm, rfl, -⟩ |
    ⟨c, -, hfree, hrun, rfl⟩ | ⟨c, cookie, -, -, -, rfl⟩ | ⟨c, task, -, htask, rfl⟩ | ⟨-, rfl⟩
  · refine .inr (.inr (.inr ⟨?_, fun _ => hsame⟩))
    refine CapFrame.of_move (p := f.entry) hsteady rfl rfl rfl rfl rfl ?_ (entry_plain f)
    cases hpc : s.pc (s.cur c).index <;> rw [hpc] at huser <;> first | rfl | contradiction
  · rcases execTask_caps hb hfree.1 hrun hex with h | h | h | h | ⟨hframe, hholds⟩
    · exact .inl ⟨c, rfl, hfree, hrun, .inl h⟩
    · exact .inl ⟨c, rfl, hfree, hrun, .inr (.inl h)⟩
    · exact .inl ⟨c, rfl, hfree, hrun, .inr (.inr (.inl h))⟩
    · exact .inl ⟨c, rfl, hfree, hrun, .inr (.inr (.inr h))⟩
    · exact .inr (.inr (.inr ⟨hframe, fun hfixed => hholds (hfixed c rfl hrun)⟩))
  · by_cases hrel : ∃ caps, s.tail c = .release caps
    · obtain ⟨caps, ht⟩ := hrel
      exact .inr (.inl ⟨c, v, caps, rfl, hfree.1.lt, hp, ht, by rw [ht]⟩)
    by_cases hrev : s.tail c = .revoke
    · exact .inr (.inr (.inl ⟨c, v.from', hrev, by rw [hrev]⟩))
    obtain ⟨hframe, hholds⟩ :=
      execTail_caps hb hfree.1 hbusy v.from' (fun caps ht => hrel ⟨caps, ht⟩) hrev
    exact .inr (.inr (.inr ⟨hframe, fun _ => hholds⟩))
  · have hcalm := (Machine.step_exec_frame hm).2.2.1
    exact .inr (.inr (.inr
      ⟨CapFrame.of_same (.of_calm hcalm) rfl rfl rfl rfl fun _ => rfl, fun _ => hsame⟩))
  · exact .inr (.inr (.inr ⟨CapFrame.of_same (hb.switch_steady hfree.1 nofun)
      rfl rfl rfl rfl fun _ => rfl, fun _ => hsame⟩))
  · unfold Kernel.signal
    split <;> exact .inr (.inr (.inr
      ⟨CapFrame.of_same hsteady rfl rfl rfl rfl fun _ => rfl, fun _ => hsame⟩))
  · exact .inr (.inr (.inr
      ⟨CapFrame.of_same hsteady rfl rfl rfl rfl fun _ => rfl, fun _ => hsame⟩))
  · exact .inr (.inr (.inr
      ⟨CapFrame.of_same hsteady rfl rfl rfl rfl fun _ => rfl, fun _ => hsame⟩))

end Kernel

end HarborKernel.LockSections
