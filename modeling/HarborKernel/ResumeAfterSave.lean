import HarborKernel.Processors

/-!
A task is resumed only from a context that has been saved.
Between its decision to leave a task and `context_switch`, a processor still
holds the registers of that task although the table already offers it as ready.
The peer reaches such a task only by stealing it. Runs whose steals avoid the
task that the peer still holds never execute a task on both processors.
-/

namespace HarborKernel.ResumeAfterSave

open Function ReadyQueue TaskTable Tasks Transition Processors

def stealsSaved (m : Machine) : Label → Bool
  | .act c (.switch _) =>
    m.tasks.current c ≠ m.tasks.idle c ||
      (m.tasks.stealTarget c).all fun id => m.onCpu (1 - c) ≠ some (m.tenancy id)
  | _ => true

structure HeldInv (m : Machine) : Prop where
  offline : ∀ c, ¬ Up m.online c → m.onCpu c = none
  bound : ∀ c i k, m.onCpu c = some (i, k) → k ≤ m.ended i
  live : ∀ c i, m.onCpu c = some (i, m.ended i) →
    m.tasks.states i ≠ .empty ∧ m.tasks.home i = c
  apart : ∀ c d k, c ≠ d → m.onCpu c = some k → m.onCpu d ≠ some k

theorem boot_heldInv : HeldInv Machine.boot where
  offline := by
    intro c hc
    have hne : c ≠ 0 := fun h0 => hc (.inl h0)
    simp [Machine.boot, update_of_ne hne]
  bound := by
    intro c i k h
    by_cases hc : c = 0
    · subst hc
      simp only [Machine.boot, update_self, Option.some.injEq, Prod.mk.injEq] at h
      omega
    · simp [Machine.boot, update_of_ne hc] at h
  live := by
    intro c i h
    by_cases hc : c = 0
    · subst hc
      simp only [Machine.boot, update_self, Option.some.injEq, Prod.mk.injEq] at h
      obtain ⟨rfl, -⟩ := h
      exact ⟨nofun, rfl⟩
    · simp [Machine.boot, update_of_ne hc] at h
  apart := by
    intro c d k hcd hc hd
    by_cases h0 : c = 0
    · have hd0 : d ≠ 0 := fun h => hcd (h0.trans h.symm)
      simp [Machine.boot, update_of_ne hd0] at hd
    · simp [Machine.boot, update_of_ne h0] at hc

variable {m m' : Machine} {c d : ℕ} {kind : Switch} {v : Leaving}

private theorem HeldInv.of_same (h : HeldInv m) (hon : m'.onCpu = m.onCpu)
    (honline : m'.online = m.online) (hended : m'.ended = m.ended)
    (hlive : ∀ c i, m.onCpu c = some (i, m.ended i) → m.tasks.states i ≠ .empty →
      m.tasks.home i = c → m'.tasks.states i ≠ .empty ∧ m'.tasks.home i = c) : HeldInv m' where
  offline := by rw [hon, honline]; exact h.offline
  bound := by rw [hon, hended]; exact h.bound
  live := by
    intro c i hc
    rw [hon, hended] at hc
    obtain ⟨hs, hh⟩ := h.live c i hc
    exact hlive c i hc hs hh
  apart := by rw [hon]; exact h.apart

private theorem HeldInv.startCpu1 (h : HeldInv m) (hinv : m.tasks.Inv m.online) :
    HeldInv m.startCpu1.2 := by
  by_cases hon : m.online = true
  · have hidle := hinv.cpu1.mp hon
    refine h.of_same ?_ ?_ rfl ?_
    · simp [Machine.startCpu1, hon]
    · simp [Machine.startCpu1, hon]
    · intro c i _ hs hh
      simpa [Machine.startCpu1, Tasks.startCpu1, hidle] using ⟨hs, hh⟩
  have hoff : m.online = false := by simpa using hon
  have hidle : ¬ m.tasks.idle 1 ≠ IDLE := fun hne => hon (hinv.cpu1.mpr hne)
  have hnone : m.onCpu 1 = none := h.offline 1 (by simp [Up, hoff])
  cases hfree : m.tasks.freeSlot with
  | none =>
    have heq : m.tasks.startCpu1 = (none, m.tasks) := by
      simp only [Tasks.startCpu1, if_neg hidle, hfree]
    refine h.of_same ?_ ?_ rfl ?_
    · simp [Machine.startCpu1, heq, hoff, ← hnone]
    · simp [Machine.startCpu1, heq]
    · intro c i _ hs hh
      simpa [Machine.startCpu1, heq] using ⟨hs, hh⟩
  | some slot =>
    obtain ⟨hslot, hempty, -⟩ := freeSlot_eq_some hfree
    have hidx := idAt_index Machine.maxTasks_le m.tasks hslot
    have hheld : ∀ c i, m.onCpu c = some (i, m.ended i) → i ≠ slot := by
      rintro c i hc rfl
      exact (h.live c i hc).1 hempty
    simp only [Machine.startCpu1, Tasks.startCpu1, if_neg hidle, hfree, hoff, Option.map_some,
      Machine.tenancy, hidx, noteOccupancy]
    constructor
    · intro c hc
      have hc1 : c ≠ 1 := fun h1 => hc (.inr ⟨h1, rfl⟩)
      simp only [Bool.false_eq_true, if_false, update_of_ne hc1]
      exact h.offline c fun hup => hc (hup.mono (by simp))
    · intro c i k hc
      by_cases hc1 : c = 1
      · subst hc1
        simp only [Bool.false_eq_true, if_false, update_self, Option.some.injEq,
          Prod.mk.injEq] at hc
        obtain ⟨rfl, rfl⟩ := hc
        exact Nat.le_refl _
      · simp only [Bool.false_eq_true, if_false, update_of_ne hc1] at hc
        exact h.bound c i k hc
    · intro c i hc
      by_cases hc1 : c = 1
      · subst hc1
        simp only [Bool.false_eq_true, if_false, update_self, Option.some.injEq,
          Prod.mk.injEq] at hc
        obtain ⟨rfl, -⟩ := hc
        simp
      simp only [Bool.false_eq_true, if_false, update_of_ne hc1] at hc
      have hne := hheld c i hc
      simpa [update_of_ne hne] using h.live c i hc
    · intro c d k hcd hc hd
      by_cases hc1 : c = 1
      · subst hc1
        simp only [Bool.false_eq_true, if_false, update_self, Option.some.injEq] at hc
        simp only [Bool.false_eq_true, if_false, update_of_ne hcd.symm, ← hc] at hd
        exact hheld d slot hd rfl
      simp only [Bool.false_eq_true, if_false, update_of_ne hc1] at hc
      by_cases hd1 : d = 1
      · subst hd1
        simp only [Bool.false_eq_true, if_false, update_self,
          Option.some.injEq] at hd
        rw [← hd] at hc
        exact hheld c slot hc rfl
      · simp only [Bool.false_eq_true, if_false, update_of_ne hd1] at hd
        exact h.apart c d k hcd hc hd

private theorem HeldInv.act_plain (h : HeldInv m) (hinv : m.tasks.Inv m.online) (a : Act)
    (ha : ∀ kind, a ≠ .switch kind) : HeldInv (m.act c a) := by
  cases a with
  | startCpu1 => exact h.startCpu1 hinv
  | spawn cpu =>
    rcases Machine.spawnOn_cases hinv cpu with heq | ⟨slot, q, -, hfree, -, heq⟩
    · simp only [Machine.act, heq]
      exact h
    simp only [Machine.act, heq]
    refine h.of_same rfl rfl rfl ?_
    intro d i _ hs hh
    have hne : i ≠ slot := by
      rintro rfl
      exact hs (freeSlot_eq_some hfree).2.1
    simpa [noteOccupancy, update_of_ne hne] using ⟨hs, hh⟩
  | setStealeable id yes =>
    simp only [Machine.act, Tasks.setStealeable]
    split
    · exact h
    split
    · exact h
    · exact h.of_same rfl rfl rfl fun _ _ _ hs hh => ⟨hs, hh⟩
  | wake id =>
    rcases wake_cases hinv id with ⟨-, heq⟩ | ⟨q, -, -, heq⟩
    · simp only [Machine.act, Machine.wakeTask, heq]
      exact h
    simp only [Machine.act, Machine.wakeTask, heq]
    refine h.of_same rfl rfl rfl ?_
    intro d i _ hs hh
    refine ⟨?_, hh⟩
    simp only [update_apply]
    split
    · simp
    · exact hs
  | switch kind => exact absurd rfl (ha kind)

private theorem HeldInv.steal_home (h : HeldInv m) (hinv : m.tasks.Inv m.online)
    (hc : Up m.online c) (hok : stealsSaved m (.act c (.switch kind)) = true) {i : ℕ}
    (hd : m.onCpu d = some (i, m.ended i)) : (m.tasks.stealFirst c).home i = d := by
  obtain ⟨-, hhome⟩ := h.live d i hd
  by_contra hne
  rw [← hhome] at hne
  obtain ⟨id, hidle, htarget, hidx, hsit⟩ := stealFirst_home hinv hc hne
  subst hidx
  have hd1 : d = 1 - c := hhome.symm.trans hsit.home
  subst hd1
  simp [stealsSaved, hidle, htarget, Machine.tenancy, hd] at hok

private theorem HeldInv.switch (h : HeldInv m) (hinv : m.tasks.Inv m.online) (hc : Up m.online c)
    (hok : stealsSaved m (.act c (.switch kind)) = true) : HeldInv (m.switchWith c kind) := by
  have hhome := fun d i => h.steal_home hinv hc hok (d := d) (i := i)
  obtain ⟨Q, H, hframe⟩ := stealFirst_frame hinv hc
  have hstates : (m.tasks.stealFirst c).states = m.tasks.states := by rw [hframe]
  have hcur : (m.tasks.stealFirst c).current = m.tasks.current := by rw [hframe]
  rcases Machine.switchWith_cases hinv hc kind with ⟨Q', heq⟩ | ⟨next, q, -, -, -, heq⟩
  · rw [heq]
    refine h.of_same rfl rfl rfl ?_
    intro d i hd hs _
    exact ⟨by rw [hstates]; exact hs, hhome d i hd⟩
  obtain ⟨-, -, -, -, -, hretire⟩ :=
    retire_frame (m.tasks.stealFirst c) ((m.tasks.stealFirst c).current c).index kind
  rw [heq]
  -- an exit makes the old tenancy of the slot one of those that are over
  have hback : ∀ d i, m.onCpu d = some (i, if kind = .exit then
      update m.ended (m.tasks.current c).index
        (m.ended (m.tasks.current c).index + 1) i else m.ended i) →
      m.onCpu d = some (i, m.ended i) ∧ (kind = .exit → i ≠ (m.tasks.current c).index) := by
    intro d i hd
    by_cases hk : kind = .exit
    · by_cases hi : i = (m.tasks.current c).index
      · rw [if_pos hk, hi, update_self] at hd
        have := h.bound d _ _ hd
        omega
      · rw [if_pos hk, update_of_ne hi] at hd
        exact ⟨hd, fun _ => hi⟩
    · rw [if_neg hk] at hd
      exact ⟨hd, fun hk' => absurd hk' hk⟩
  have hended : ∀ i, (if kind = .exit then update m.ended (m.tasks.current c).index
      (m.ended (m.tasks.current c).index + 1) else m.ended) i = if kind = .exit then
      update m.ended (m.tasks.current c).index
        (m.ended (m.tasks.current c).index + 1) i else m.ended i := by
    intro i
    split <;> rfl
  constructor
  · exact h.offline
  · intro d i k hd
    have hle := h.bound d i k hd
    simp only [hended, update_apply]
    split
    · split
      · rename_i hi
        subst hi
        omega
      · exact hle
    · exact hle
  · intro d i hd
    simp only [hended] at hd
    obtain ⟨hheld, hexit⟩ := hback d i hd
    refine ⟨?_, ?_⟩
    · by_cases hn : i = next.index
      · simp [switched, hn]
      by_cases hi : i = (m.tasks.current c).index
      · simp only [switched, update_of_ne hn, hcur, ← hi]
        cases kind with
        | exit => exact absurd hi (hexit rfl)
        | block => simp [retire]
        | yield | preempt =>
          simp only [retire]
          split
          · simp
          · rw [hstates]
            exact (h.live d i hheld).1
      · rw [switched_states_of_ne (by rw [hcur]; exact hi) hn, hstates]
        exact (h.live d i hheld).1
    · simp only [switched, hretire]
      exact hhome d i hheld
  · exact h.apart

private theorem HeldInv.restored (h : HeldInv m) (hinv : m.Inv) (hc : Up m.online c)
    (hp : m.phase c = .context v) (hd : d ≠ c) : m.onCpu d ≠ some (m.tenancy v.to') := by
  intro hheld
  have hsit := hinv.tasks.current c hc (by simp)
  rw [hinv.moving c v (.inr hp)] at hsit
  have hhome := (h.live d _ hheld).2
  rw [hsit.home] at hhome
  exact hd hhome.symm

private theorem HeldInv.contextSwitch (h : HeldInv m) (hinv : m.Inv) (hc : Up m.online c)
    (hp : m.phase c = .context v) : HeldInv (m.contextSwitch c v) := by
  have hsit := hinv.tasks.current c hc (by simp)
  rw [hinv.moving c v (.inr hp)] at hsit
  constructor
  · intro d hd
    have hdc : d ≠ c := fun hdc => hd (hdc ▸ hc)
    simp only [Machine.contextSwitch, update_of_ne hdc]
    exact h.offline d hd
  · intro d i k hd
    by_cases hdc : d = c
    · subst hdc
      simp only [Machine.contextSwitch, update_self, Option.some.injEq, Machine.tenancy,
        Prod.mk.injEq] at hd
      obtain ⟨rfl, rfl⟩ := hd
      exact Nat.le_refl _
    · simp only [Machine.contextSwitch, update_of_ne hdc] at hd
      exact h.bound d i k hd
  · intro d i hd
    by_cases hdc : d = c
    · subst hdc
      simp only [Machine.contextSwitch, update_self, Option.some.injEq, Machine.tenancy,
        Prod.mk.injEq] at hd
      obtain ⟨rfl, -⟩ := hd
      exact ⟨by simp [Machine.contextSwitch, hsit.state], hsit.home⟩
    · simp only [Machine.contextSwitch, update_of_ne hdc] at hd
      exact h.live d i hd
  · intro d e k hde hd he
    by_cases hdc : d = c
    · subst hdc
      simp only [Machine.contextSwitch, update_self, Option.some.injEq] at hd
      simp only [Machine.contextSwitch, update_of_ne hde.symm, ← hd] at he
      exact h.restored hinv hc hp hde.symm he
    simp only [Machine.contextSwitch, update_of_ne hdc] at hd
    by_cases hec : e = c
    · subst hec
      simp only [Machine.contextSwitch, update_self, Option.some.injEq] at he
      rw [← he] at hd
      exact h.restored hinv hc hp hdc hd
    · simp only [Machine.contextSwitch, update_of_ne hec] at he
      exact h.apart d e k hde hd he

theorem step_heldInv {l : Label} (h : HeldInv m) (hinv : m.Inv) (hok : stealsSaved m l = true)
    (hs : m.step l = some m') : HeldInv m' := by
  rcases Machine.step_cases hs with ⟨c, a, rfl, hc, -, rfl⟩ | ⟨c, v, rfl, hc, hp, rfl⟩ |
    ⟨c, v, rfl, hc, hp, rfl⟩ | ⟨c, rfl, hc, hp, rfl⟩ | ⟨c, st, rfl, hc, hp, rfl⟩
  · by_cases hsw : ∃ kind, a = .switch kind
    · obtain ⟨kind, rfl⟩ := hsw
      exact h.switch hinv.tasks hc hok
    · exact h.act_plain hinv.tasks a fun kind hk => hsw ⟨kind, hk⟩
  · exact h.of_same rfl rfl rfl fun _ _ _ hs hh => ⟨hs, hh⟩
  · exact h.contextSwitch hinv hc hp
  · unfold Machine.collectExited
    cases hparked : m.tasks.parked with
    | none | some id =>
      simp only [Tasks.collect, hparked]
      exact h.of_same rfl rfl rfl fun _ _ _ hs hh => ⟨hs, hh⟩
  · exact h.of_same rfl rfl rfl fun _ _ _ hs hh => ⟨hs, hh⟩

/-- In a run whose steals spare the task that the peer still holds, the processors
hold different tasks, and a context is restored only when the peer does not hold it. -/
theorem restored_after_save (m : Machine)
    (h : Reach Machine.Boot Machine.step (fun m l => stealsSaved m l = true) m) :
    (∀ c d k, c ≠ d → m.onCpu c = some k → m.onCpu d ≠ some k) ∧
    ∀ c v, (m.step (.exec c)).isSome = true → m.phase c = .context v →
      m.onCpu (1 - c) ≠ some (m.tenancy v.to') := by
  have hinv := Machine.reach_inv h
  have hheld : HeldInv m := by
    refine h.invariant_of (J := Machine.Inv) (fun _ hr => Machine.reach_inv hr) ?_ ?_
    · rintro m rfl
      exact boot_heldInv
    · intro m l m' hm _ hi hok hs
      exact step_heldInv hi hm hok hs
  refine ⟨hheld.apart, ?_⟩
  intro c v hen hp
  have hc : Up m.online c := by
    by_contra hno
    simp [Machine.step, hno] at hen
  exact hheld.restored hinv hc hp (by omega)

/-- Both processors run a task of their own and processor 0 is about to restore idle. -/
theorem restored_after_save_two : ∃ (m : Machine) (v : Leaving), m.phase 0 = .context v ∧
    m.onCpu 0 = some (2, 0) ∧ m.onCpu 1 = some (3, 0) ∧
    m.onCpu 1 ≠ some (m.tenancy v.to') := by
  have hreach : Reach Machine.Boot Machine.step (fun m l => stealsSaved m l = true) _ :=
    Reach.runGuarded [.act 0 .startCpu1, .act 0 (.spawn 0), .act 0 (.spawn 1),
      .act 0 (.switch .yield), .exec 0, .exec 0, .exec 0,
      .act 1 (.switch .yield), .exec 1, .exec 1, .exec 1,
      .act 0 (.switch .yield), .exec 0] (Reach.start rfl) rfl
  exact ⟨_, _, rfl, rfl, rfl, (restored_after_save _ hreach).2 0 _ rfl rfl⟩

/-- A task that processor 0 has just yielded is stolen and restored by processor 1
while processor 0 still holds its registers. -/
theorem restored_before_save : ∃ m v,
    Reach Machine.Boot Machine.step (fun _ _ => True) m ∧ (m.step (.exec 1)).isSome = true ∧
    m.phase 1 = .context v ∧ m.onCpu (1 - 1) = some (m.tenancy v.to') ∧
    ∃ m', m.step (.exec 1) = some m' ∧ m'.onCpu 0 = some (2, 0) ∧ m'.onCpu 1 = some (2, 0) := by
  have hreach : Reach Machine.Boot Machine.step (fun _ _ => True) _ :=
    Reach.run [.act 0 .startCpu1, .act 0 (.spawn 0),
      .act 0 (.switch .yield), .exec 0, .exec 0, .exec 0,
      .act 0 (.setStealeable (TaskId.new 2 0) true), .act 0 (.switch .yield),
      .act 1 (.switch .yield), .exec 1] (Reach.start rfl) (fun _ _ _ => trivial) rfl
  exact ⟨_, _, hreach, rfl, rfl, rfl, _, rfl, rfl, rfl⟩

end HarborKernel.ResumeAfterSave
