import HarborKernel.Processors

/-!
Stacks of exited tasks on two processors.
An exiting task keeps executing on its stack until its processor's
`context_switch`, long after the scheduler lock is dropped. The parked cell is
shared, so the peer may collect that stack inside the window. Runs in which
nobody takes the parked entry while the peer is inside its window release only
stacks that no processor is leaving.
-/

namespace HarborKernel.StackSafety

open Function ReadyQueue TaskTable Tasks Transition Processors

def exiting (m : Machine) (c : ℕ) : Option Leaving :=
  match m.phase c with
  | .tail v | .context v => if v.exits then some v else none
  | _ => none

/-- Processor `c` still executes on `st`, the stack of the task it is exiting. -/
def Window (m : Machine) (c st : ℕ) : Prop := ∃ v, exiting m c = some v ∧ v.own = some st

def released (m : Machine) : Label → Option ℕ
  | .act _ _ => none
  | .exec c =>
    match m.phase c with
    | .tail v => v.release.bind fun p => m.stack p.index
    | .freeing st => some st
    | _ => none

def peerHasLeft (m : Machine) : Label → Bool
  | .exec c =>
    match m.phase c with
    | .collecting => (exiting m (1 - c)).isNone
    | _ => true
  | .act c (.switch .exit) =>
    m.tasks.current c = m.tasks.idle c || (exiting m (1 - c)).isNone
  | _ => true

structure StackInv (m : Machine) : Prop where
  fresh : ∀ i st, m.stack i = some st → st < m.nextStack
  inj : ∀ i j st, m.stack i = some st → m.stack j = some st → i = j
  loose : ∀ c st, m.phase c = .freeing st → st < m.nextStack ∧ ∀ i, m.stack i ≠ some st
  parked : ∀ p, m.tasks.parked = some p → m.tasks.states p.index = .empty
  plain : ∀ c v, m.phase c = .tail v → v.exits = false → v.release = none
  window : ∀ c v, exiting m c = some v →
    m.tasks.parked = some v.from' ∧ v.own = m.stack v.from'.index ∧ exiting m (1 - c) = none
  stranded : ∀ c v p, m.phase c = .tail v → v.release = some p → p.index ≠ v.from'.index

variable {m m' : Machine} {v : Leaving}

theorem exiting_tail {c : ℕ} (hp : m.phase c = .tail v) :
    exiting m c = if v.exits then some v else none := by
  simp only [exiting, hp]

theorem exiting_congr {c : ℕ} (h : m'.phase c = m.phase c) :
    exiting m' c = exiting m c := by
  simp only [exiting, h]

theorem exiting_peer (hinv : m.Inv) {c d : ℕ} (hc : Up m.online c) (hdc : d ≠ c)
    (hv : exiting m d = some v) : d = 1 - c := by
  have hd : Up m.online d := by
    by_contra hno
    simp only [exiting, hinv.offline d hno] at hv
    contradiction
  have hlt := hc.lt
  have hltd := hd.lt
  unfold nCpus at hlt hltd
  omega

theorem boot_stackInv : StackInv Machine.boot where
  fresh := by
    intro i st h
    contradiction
  inj := by
    intro i j st h
    contradiction
  loose := by
    intro c st h
    contradiction
  parked := by
    intro p h
    contradiction
  plain := by
    intro c v h
    contradiction
  window := by
    intro c v h
    contradiction
  stranded := by
    intro c v p h
    contradiction

section

variable (h : StackInv m)
include h

variable {l : Label} {c : ℕ}

/-- A released stack is never one that a processor is still leaving. -/
theorem StackInv.safe (hinv : m.Inv) (hen : (m.step l).isSome = true) {st : ℕ}
    (hrel : released m l = some st) (c : ℕ) : ¬ Window m c st := by
  rintro ⟨w, hw, hown⟩
  have hwin := h.window c w hw
  obtain ⟨m', hstep⟩ := Option.isSome_iff_exists.mp hen
  rw [hwin.2.1] at hown
  rcases Machine.step_cases hstep with ⟨d, a, rfl, -⟩ | ⟨d, v, rfl, hd, hp, -⟩ |
    ⟨d, v, rfl, -, hp, -⟩ | ⟨d, rfl, -, hp, -⟩ | ⟨d, s, rfl, -, hp, -⟩
  · contradiction
  · simp only [released, hp] at hrel
    obtain ⟨p, hvr, hst⟩ := Option.bind_eq_some_iff.mp hrel
    have hex : v.exits = true := by
      by_contra hno
      rw [h.plain d v hp (by simpa using hno)] at hvr
      contradiction
    have hdex : exiting m d = some v := by rw [exiting_tail hp, hex, if_pos rfl]
    have hcd : c = d := by
      by_contra hne
      have hpeer := exiting_peer hinv hd hne hw
      have hnone := (h.window d v hdex).2.2
      rw [← hpeer, hw] at hnone
      contradiction
    subst hcd
    rw [hw] at hdex
    obtain rfl := Option.some.inj hdex
    exact h.stranded c w p hp hvr (h.inj _ _ st hst hown)
  · simp only [released, hp] at hrel
    contradiction
  · simp only [released, hp] at hrel
    contradiction
  · simp only [released, hp] at hrel
    obtain rfl := Option.some.inj hrel
    exact (h.loose d s hp).2 _ hown

private theorem StackInv.of_same (hphase : m'.phase = m.phase)
    (hparked : m'.tasks.parked = m.tasks.parked) (hstack : m'.stack = m.stack)
    (hnext : m'.nextStack = m.nextStack)
    (hempty : ∀ p, m.tasks.parked = some p → m'.tasks.states p.index = .empty) :
    StackInv m' where
  fresh := by rw [hstack, hnext]; exact h.fresh
  inj := by rw [hstack]; exact h.inj
  loose := by rw [hphase, hstack, hnext]; exact h.loose
  parked := by rw [hparked]; exact hempty
  plain := by rw [hphase]; exact h.plain
  window := by
    intro c v hv
    rw [exiting_congr (congrFun hphase c)] at hv
    rw [exiting_congr (congrFun hphase (1 - c)), hparked, hstack]
    exact h.window c v hv
  stranded := by rw [hphase]; exact h.stranded

private theorem StackInv.spawn (hinv : m.tasks.Inv m.online) (cpu : ℕ) :
    StackInv (m.spawnOn cpu).2 := by
  rcases Machine.spawnOn_cases hinv cpu with heq | ⟨slot, q, -, hfree, -, heq⟩
  · rw [heq]
    exact h
  rw [heq]
  obtain ⟨-, -, hnotparked⟩ := freeSlot_eq_some hfree
  constructor
  · intro i st hi
    simp only [update_apply] at hi ⊢
    split at hi
    · obtain rfl := Option.some.inj hi
      omega
    · have := h.fresh i st hi
      omega
  · intro i j st hi hj
    simp only [update_apply] at hi hj
    have hfresh := h.fresh
    split at hi <;> split at hj
    · omega
    · obtain rfl := Option.some.inj hi
      have := hfresh j _ hj
      omega
    · obtain rfl := Option.some.inj hj
      have := hfresh i _ hi
      omega
    · exact h.inj i j st hi hj
  · intro c st hp
    obtain ⟨hlt, hno⟩ := h.loose c st hp
    refine ⟨Nat.lt_succ_of_lt hlt, ?_⟩
    intro i hi
    simp only [update_apply] at hi
    split at hi
    · obtain rfl := Option.some.inj hi
      omega
    · exact hno i hi
  · intro p hp
    have hne := hnotparked p hp
    simpa [noteOccupancy, update_of_ne hne] using h.parked p hp
  · exact h.plain
  · intro c v hv
    obtain ⟨hparked, hown, hpeer⟩ := h.window c v hv
    refine ⟨hparked, ?_, hpeer⟩
    simp only [update_of_ne (hnotparked _ hparked)]
    exact hown
  · exact h.stranded

private theorem StackInv.act_plain (hinv : m.tasks.Inv m.online) (a : Act)
    (ha : ∀ kind, a ≠ .switch kind) : StackInv (m.act c a) := by
  cases a with
  | startCpu1 =>
    simp only [Machine.act, Machine.startCpu1, Tasks.startCpu1]
    split
    · exact h.of_same rfl rfl rfl rfl h.parked
    split
    · exact h.of_same rfl rfl rfl rfl h.parked
    rename_i slot hfree
    refine h.of_same rfl rfl rfl rfl ?_
    intro p hp
    have hne := (freeSlot_eq_some hfree).2.2 p hp
    simpa [noteOccupancy, update_of_ne hne] using h.parked p hp
  | spawn cpu => exact h.spawn hinv cpu
  | setStealeable id yes =>
    simp only [Machine.act, Tasks.setStealeable]
    split
    · exact h.of_same rfl rfl rfl rfl h.parked
    · split <;> exact h.of_same rfl rfl rfl rfl h.parked
  | wake id =>
    rcases wake_cases hinv id with ⟨-, heq⟩ | ⟨q, hs, -, heq⟩
    · simp only [Machine.act, Machine.wakeTask, heq]
      exact h
    simp only [Machine.act, Machine.wakeTask, heq]
    refine h.of_same rfl rfl rfl rfl ?_
    intro p hp
    have hempty := h.parked p hp
    obtain ⟨-, -, hblocked⟩ := state_eq_some hs
    have hne : p.index ≠ id.index := by
      intro hidx
      rw [hidx, hblocked] at hempty
      contradiction
    simpa [update_of_ne hne] using hempty
  | switch kind => exact absurd rfl (ha kind)

private theorem StackInv.parked_off {states : ℕ → State} {p next : TaskId}
    (hstates : states = m.tasks.states) (hp : m.tasks.parked = some p) {i : ℕ}
    (hrunning : states i = .running) (hready : states next.index = .ready) :
    p.index ≠ i ∧ p.index ≠ next.index := by
  have hempty := h.parked p hp
  rw [← hstates] at hempty
  constructor
  · intro hidx
    rw [hidx, hrunning] at hempty
    contradiction
  · intro hidx
    rw [hidx, hready] at hempty
    contradiction

private theorem StackInv.switch (hinv : m.Inv) (hc : Up m.online c) {kind : Switch}
    (hrun : m.phase c = .run)
    (hpeer : kind = .exit → m.tasks.current c ≠ m.tasks.idle c → exiting m (1 - c) = none) :
    StackInv (m.switchWith c kind) := by
  obtain ⟨Q, H, hframe⟩ := stealFirst_frame hinv.tasks hc
  rcases Machine.switchWith_cases hinv.tasks hc kind with ⟨Q', heq⟩ |
    ⟨next, q, hkind, hne, hcand, heq⟩
  · rw [heq, hframe]
    exact h.of_same rfl rfl rfl rfl h.parked
  have hpinv := stealFirst_inv Machine.maxTasks_le hinv.tasks hc
  have hcur : (m.tasks.stealFirst c).current = m.tasks.current := by rw [hframe]
  have hstates : (m.tasks.stealFirst c).states = m.tasks.states := by rw [hframe]
  have hparkedf : (m.tasks.stealFirst c).parked = m.tasks.parked := by rw [hframe]
  have hsit := candidate_sits hpinv hc hcand (by rw [hcur]; exact hne)
  have hrunning := (hpinv.current c hc (by simp)).state
  rw [hcur] at hrunning
  have hoff : ∀ p, m.tasks.parked = some p →
      p.index ≠ (m.tasks.current c).index ∧ p.index ≠ next.index :=
    fun p hp => h.parked_off hstates hp hrunning hsit.state
  have hnextidx : (m.tasks.current c).index ≠ next.index := by
    intro hidx
    have hs := hsit.state
    rw [← hidx, hrunning] at hs
    contradiction
  have hexc : exiting m c = none := by simp only [exiting, hrun]
  have hpc : 1 - c ≠ c := by omega
  rw [heq]
  constructor
  · exact h.fresh
  · exact h.inj
  · intro d st hd
    by_cases hdc : d = c
    · subst hdc
      simp at hd
    · simp only [update_of_ne hdc] at hd
      exact h.loose d st hd
  · intro p hp
    by_cases hk : kind = .exit
    · subst hk
      simp only [switched, if_true, hcur] at hp
      obtain rfl := Option.some.inj hp
      simp [switched, retire, hcur, update_of_ne hnextidx]
    simp only [switched, if_neg hk, hparkedf] at hp
    rw [switched_states_of_ne (by rw [hcur]; exact (hoff p hp).1) (hoff p hp).2, hstates]
    exact h.parked p hp
  · intro d v hd hv
    by_cases hdc : d = c
    · subst hdc
      simp only [update_self, Phase.tail.injEq] at hd
      subst hd
      simp only [decide_eq_false_iff_not] at hv
      simp only [if_neg hv]
    · simp only [update_of_ne hdc] at hd
      exact h.plain d v hd hv
  · intro d v hv
    by_cases hdc : d = c
    · subst hdc
      rw [exiting_tail (update_self ..)] at hv
      by_cases hk : kind = .exit
      · subst hk
        simp only [decide_true, if_true] at hv
        obtain rfl := Option.some.inj hv
        refine ⟨by simp [switched, hcur], rfl, ?_⟩
        rw [exiting_congr (update_of_ne hpc ..)]
        exact hpeer rfl (hkind.resolve_left (by simp))
      · simp [hk] at hv
    · rw [exiting_congr (update_of_ne hdc ..)] at hv
      have hdpeer : d = 1 - c := exiting_peer hinv hc hdc hv
      have hk : kind ≠ .exit := by
        intro hk
        subst hk
        rw [hdpeer, hpeer rfl (hkind.resolve_left (by simp))] at hv
        contradiction
      obtain ⟨hparked, hown, -⟩ := h.window d v hv
      refine ⟨by simpa only [switched, if_neg hk, hparkedf] using hparked, hown, ?_⟩
      have hback : 1 - d = c := by
        have := hc.lt
        unfold nCpus at this
        omega
      rw [hback, exiting_tail (update_self ..)]
      simp [hk]
  · intro d v p hd hv
    by_cases hdc : d = c
    · subst hdc
      simp only [update_self, Phase.tail.injEq] at hd
      subst hd
      simp only at hv ⊢
      split at hv
      · exact (hoff p hv).1
      · contradiction
    · simp only [update_of_ne hdc] at hd
      exact h.stranded d v p hd hv

private theorem StackInv.advance {p : Phase} (hphase : m'.phase = update m.phase c p)
    (hstack : m'.stack = m.stack) (hnext : m'.nextStack = m.nextStack) (htasks : m'.tasks = m.tasks)
    (hfree : ∀ st, p = .freeing st → st < m.nextStack ∧ ∀ i, m.stack i ≠ some st)
    (htail : ∀ v, p ≠ .tail v) (hex : exiting m' c = exiting m c ∨ exiting m' c = none) :
    StackInv m' := by
  have hother : ∀ d, d ≠ c → m'.phase d = m.phase d := by
    intro d hd
    rw [hphase, update_of_ne hd]
  have hself : m'.phase c = p := by rw [hphase, update_self]
  constructor
  · rw [hstack, hnext]
    exact h.fresh
  · rw [hstack]
    exact h.inj
  · intro d st hd
    rw [hstack, hnext]
    by_cases hdc : d = c
    · subst hdc
      rw [hself] at hd
      exact hfree st hd
    · rw [hother d hdc] at hd
      exact h.loose d st hd
  · rw [htasks]
    exact h.parked
  · intro d v hd
    by_cases hdc : d = c
    · subst hdc
      rw [hself] at hd
      exact absurd hd (htail v)
    · rw [hother d hdc] at hd
      exact h.plain d v hd
  · have hmono : ∀ d v, exiting m' d = some v → exiting m d = some v := by
      intro d v hv
      by_cases hdc : d = c
      · subst hdc
        rcases hex with hex | hex
        · rw [← hex]
          exact hv
        · rw [hex] at hv
          contradiction
      · rw [← exiting_congr (hother d hdc)]
        exact hv
    intro d v hv
    rw [htasks, hstack]
    obtain ⟨hparked, hown, hpeer⟩ := h.window d v (hmono d v hv)
    refine ⟨hparked, hown, ?_⟩
    cases hd : exiting m' (1 - d) with
    | none => rfl
    | some w =>
      rw [hmono _ _ hd] at hpeer
      contradiction
  · intro d v q hd
    by_cases hdc : d = c
    · subst hdc
      rw [hself] at hd
      exact absurd hd (htail v)
    · rw [hother d hdc] at hd
      exact h.stranded d v q hd

private theorem StackInv.detach (i : ℕ) (hphase : m'.phase = m.phase)
    (hstack : m'.stack = update m.stack i none) (hnext : m'.nextStack = m.nextStack)
    (htasks : m'.tasks = m.tasks) (hi : ∀ c v, exiting m c = some v → v.from'.index ≠ i) :
    StackInv m' := by
  have hsub : ∀ j st, m'.stack j = some st → m.stack j = some st := by
    intro j st hj
    rw [hstack, update_apply] at hj
    split at hj
    · contradiction
    · exact hj
  constructor
  · intro j st hj
    rw [hnext]
    exact h.fresh j st (hsub j st hj)
  · intro j k st hj hk
    exact h.inj j k st (hsub j st hj) (hsub k st hk)
  · intro c st hc
    rw [hphase] at hc
    rw [hnext]
    obtain ⟨hlt, hno⟩ := h.loose c st hc
    exact ⟨hlt, fun j hj => hno j (hsub j st hj)⟩
  · rw [htasks]
    exact h.parked
  · rw [hphase]
    exact h.plain
  · intro c v hv
    rw [exiting_congr (congrFun hphase c)] at hv
    rw [exiting_congr (congrFun hphase (1 - c)), htasks, hstack,
      update_of_ne (hi c v hv)]
    exact h.window c v hv
  · rw [hphase]
    exact h.stranded

private theorem StackInv.second (hinv : m.Inv) (hc : Up m.online c) (hp : m.phase c = .tail v) :
    StackInv (m.second c v) := by
  have hex : ∀ m' : Machine, m'.phase c = .context v → exiting m' c = exiting m c := by
    intro m' hm'
    simp only [exiting, hp, hm']
  cases hr : v.release with
  | none =>
    exact h.advance rfl (by simp only [Machine.second, hr]) rfl rfl nofun nofun
      (.inl (hex _ (by simp [Machine.second])))
  | some p =>
    have hexits : v.exits = true := by
      by_contra hno
      rw [h.plain c v hp (by simpa using hno)] at hr
      contradiction
    have hcv : exiting m c = some v := by rw [exiting_tail hp, hexits, if_pos rfl]
    have hmid : StackInv { m with stack := update m.stack p.index none } := by
      refine h.detach p.index rfl rfl rfl rfl ?_
      intro d w hw
      have hdc : d = c := by
        by_contra hdc
        have hpeer := exiting_peer hinv hc hdc hw
        have hnone := (h.window c v hcv).2.2
        rw [← hpeer, hw] at hnone
        contradiction
      subst hdc
      rw [hw] at hcv
      obtain rfl := Option.some.inj hcv
      exact (h.stranded d w p hp hr).symm
    exact hmid.advance rfl (by simp only [Machine.second, hr]) rfl rfl nofun nofun
      (.inl (hex _ (by simp [Machine.second])))

private theorem StackInv.contextSwitch (v : Leaving) : StackInv (m.contextSwitch c v) :=
  h.advance rfl rfl rfl rfl nofun nofun
    (.inr (by simp only [exiting, Machine.contextSwitch, update_self]))

private theorem StackInv.collect (hinv : m.Inv) (hc : Up m.online c) (hp : m.phase c = .collecting)
    (hpeer : exiting m (1 - c) = none) : StackInv (m.collectExited c) := by
  cases hparked : m.tasks.parked with
  | none =>
    have hsame : { m.tasks with parked := none } = m.tasks := by rw [← hparked]
    refine h.advance (c := c) (p := .run) ?_ ?_ ?_ ?_ (by simp) (by simp) (.inr ?_) <;>
      simp [Machine.collectExited, Tasks.collect, hparked, hsame, exiting]
  | some id =>
    have hnone : ∀ d, exiting m d = none := by
      intro d
      cases hd : exiting m d with
      | none => rfl
      | some v =>
        have hdc : d ≠ c := by
          rintro rfl
          simp only [exiting, hp] at hd
          contradiction
        rw [exiting_peer hinv hc hdc hd, hpeer] at hd
        contradiction
    have hmid : StackInv { m with stack := update m.stack id.index none } :=
      h.detach id.index rfl rfl rfl rfl fun d v hv => by
        rw [hnone d] at hv
        contradiction
    have hdrop : StackInv { m with
        tasks := { m.tasks with parked := none }
        stack := update m.stack id.index none } :=
      ⟨hmid.fresh, hmid.inj, hmid.loose, by simp, hmid.plain, fun d v hv => by
        have hv' : exiting m d = some v := hv
        rw [hnone d] at hv'
        contradiction, hmid.stranded⟩
    cases hst : m.stack id.index with
    | none =>
      refine hdrop.advance (c := c) (p := .run) ?_ ?_ ?_ ?_ (by simp) (by simp) (.inr ?_) <;>
        simp [Machine.collectExited, Tasks.collect, hparked, hst, exiting]
    | some st =>
      have hloose : ∀ i, update m.stack id.index none i ≠ some st := by
        intro i hi
        rw [update_apply] at hi
        split at hi
        · contradiction
        · rename_i hne
          exact hne (h.inj i id.index st hi hst)
      refine hdrop.advance (c := c) (p := .freeing st) ?_ ?_ ?_ ?_ ?_ (by simp) (.inr ?_)
      · simp [Machine.collectExited, Tasks.collect, hparked, hst]
      · simp [Machine.collectExited, Tasks.collect, hparked]
      · simp [Machine.collectExited, Tasks.collect, hparked]
      · simp [Machine.collectExited, Tasks.collect, hparked]
      · intro s hs
        cases hs
        exact ⟨h.fresh _ st hst, hloose⟩
      · simp [Machine.collectExited, Tasks.collect, hparked, hst, exiting]

theorem step_stackInv (hinv : m.Inv) (hok : peerHasLeft m l = true) (hs : m.step l = some m') :
    StackInv m' := by
  rcases Machine.step_cases hs with ⟨c, a, rfl, hc, hmay, rfl⟩ | ⟨c, v, rfl, hc, hp, rfl⟩ |
    ⟨c, v, rfl, hc, hp, rfl⟩ | ⟨c, rfl, hc, hp, rfl⟩ | ⟨c, st, rfl, hc, hp, rfl⟩
  · by_cases hsw : ∃ kind, a = .switch kind
    · obtain ⟨kind, rfl⟩ := hsw
      refine h.switch hinv hc (Machine.phase_of_mayAct_switch hmay) ?_
      intro hk hidle
      subst hk
      simpa [peerHasLeft, hidle] using hok
    · exact h.act_plain hinv.tasks a fun kind hk => hsw ⟨kind, hk⟩
  · exact h.second hinv hc hp
  · exact h.contextSwitch v
  · exact h.collect hinv hc hp (by simpa [peerHasLeft, hp] using hok)
  · exact h.advance rfl rfl rfl rfl nofun nofun
      (.inr (by simp only [exiting, update_self]))

end

/-- In a run where the parked entry is only taken once the peer has left its exit
window, no released stack is one that a processor still executes on. -/
theorem released_not_in_window (m : Machine)
    (h : Reach Machine.Boot Machine.step (fun m l => peerHasLeft m l = true) m) (l : Label)
    (hen : (m.step l).isSome = true) (st : ℕ) (hrel : released m l = some st) (c : ℕ) :
    ¬ Window m c st := by
  have hstack : StackInv m := by
    refine h.invariant_of (J := Machine.Inv) (fun _ hr => Machine.reach_inv hr) ?_ ?_
    · rintro m rfl
      exact boot_stackInv
    · intro m l m' hinv _ hm hok hs
      exact step_stackInv hm hinv hok hs
  exact hstack.safe (Machine.reach_inv h) hen hrel c

/-- Processor 1 releases the stack of a task that processor 0 has left, while processor 0 is still
on the stack of the next task it exits. -/
theorem released_not_in_window_peer : ∃ m,
    released m (.exec 1) = some 0 ∧ Window m 0 2 ∧ ∀ c, ¬ Window m c 0 := by
  have hreach : Reach Machine.Boot Machine.step (fun m l => peerHasLeft m l = true) _ :=
    Reach.runGuarded [.act 0 .startCpu1, .act 0 (.spawn 0), .act 0 (.spawn 1), .act 0 (.spawn 0),
      .act 0 (.switch .yield), .exec 0, .exec 0, .exec 0, .act 1 (.switch .yield), .exec 1, .exec 1,
      .act 0 (.switch .exit), .exec 0, .exec 0, .exec 1, .exec 0, .act 0 (.switch .exit)]
      (Reach.start rfl) rfl
  exact ⟨_, rfl, ⟨_, rfl, rfl⟩, released_not_in_window _ hreach (.exec 1) rfl 0 rfl⟩

/-- Processor 1 resumes a task right after processor 0 has decided to exit one: it
collects and releases the stack that processor 0 still executes on. -/
theorem released_in_window : ∃ m l st c,
    Reach Machine.Boot Machine.step (fun _ _ => True) m ∧ (m.step l).isSome = true ∧
    released m l = some st ∧ Window m c st := by
  have hreach : Reach Machine.Boot Machine.step (fun _ _ => True) _ :=
    Reach.run [.act 0 .startCpu1, .act 0 (.spawn 0), .act 0 (.spawn 1),
      .act 0 (.switch .yield), .exec 0, .exec 0, .exec 0,
      .act 1 (.switch .yield), .exec 1, .exec 1,
      .act 0 (.switch .exit), .exec 1] (Reach.start rfl) (fun _ _ _ => trivial) rfl
  exact ⟨_, .exec 1, 0, 0, hreach, rfl, rfl, _, rfl, rfl⟩

end HarborKernel.StackSafety
