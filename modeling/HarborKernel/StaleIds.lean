import HarborKernel.CapSlots
import HarborKernel.SlotAliasing

/-!
Ids of tasks that are gone, and capabilities that name them. A slot counts its tenancies in
sixteen bits, an entry of the capability table counts its mints in the 65535 generations other
than 0. A history of the run counts exits and mints without bound; the two words are its residues.
-/

namespace HarborKernel.StaleIds

open Function ReadyQueue TaskTable Tasks SchedulerRuns SlotAliasing Transition Capability
open TaskCap (maxTaskCaps)
open TaskCap.Table (capAt nextGeneration)

variable {n : ℕ} {t t' : Tasks n} {up : Bool}

def generationAfter : ℕ → UInt16
  | 0 => 0
  | m + 1 => nextGeneration (generationAfter m)

theorem toNat_generationAfter (m : ℕ) : (generationAfter (m + 1)).toNat = m % 65535 + 1 := by
  induction m with
  | zero => rfl
  | succ m ih =>
    have hstep : (generationAfter (m + 1) + 1).toNat = (m % 65535 + 1 + 1) % 65536 := by
      rw [UInt16.toNat_add, ih]
      rfl
    rw [generationAfter, nextGeneration]
    split
    · rename_i hzero
      rw [hzero, UInt16.toNat_zero] at hstep
      change 1 = (m + 1) % 65535 + 1
      omega
    rename_i hne
    have hpos : (generationAfter (m + 1) + 1).toNat ≠ 0 := fun h => hne (UInt16.toNat_inj.1 h)
    rw [hstep] at hpos ⊢
    omega

theorem generationAfter_ne {m m' : ℕ} (hpos : 0 < m) (hlt : m < m') (hnear : m' < m + 65535) :
    generationAfter m' ≠ generationAfter m := by
  intro heq
  obtain ⟨k, rfl⟩ : ∃ k, m = k + 1 := ⟨m - 1, by omega⟩
  obtain ⟨k', rfl⟩ : ∃ k', m' = k' + 1 := ⟨m' - 1, by omega⟩
  have hval := congrArg UInt16.toNat heq
  rw [toNat_generationAfter, toNat_generationAfter] at hval
  omega

variable {k i c : ℕ} {p : Tasks n} {kind : Switch} {caps : TaskCap.Table}

theorem classify_capAt (hk : k < maxTaskCaps) (g : UInt16) :
    (capAt k g).classify = .task (UInt16.ofNat k) := by
  have hall : ∀ k < maxTaskCaps, (TaskCap.indexBase ||| UInt16.ofNat k) &&& irqBand = 0 ∧
      (TaskCap.indexBase ||| UInt16.ofNat k) &&& taskBand ≠ 0 ∧
      (TaskCap.indexBase ||| UInt16.ofNat k) &&& classPayloadMask = UInt16.ofNat k := by
    decide +kernel
  obtain ⟨hirq, htask, hpayload⟩ := hall k hk
  simp only [CapId.classify, capAt, CapId.index_new, hirq, htask, hpayload, ne_eq,
    not_true_eq_false, not_false_eq_true, decide_false, decide_true]

theorem lookup_capAt (caps : TaskCap.Table) (hk : k < maxTaskCaps) (g : UInt16) :
    caps.lookup (capAt k g) = if (caps.entries k).live = true ∧ (caps.entries k).generation = g
      then some (caps.entries k).task else none := by
  have hindex : (UInt16.ofNat k).toNat = k := by
    unfold maxTaskCaps at hk
    rw [UInt16.toNat_ofNat']
    omega
  have hgen : (capAt k g).generation = g := CapId.generation_new _ _
  rw [TaskCap.Table.lookup, classify_capAt hk]
  simp only [hindex, if_neg (Nat.not_le.2 hk), hgen]
  cases hlive : (caps.entries k).live with
  | false => simp
  | true =>
    by_cases heq : (caps.entries k).generation = g
    · simp [heq]
    · simp [heq]

def Live (t : Tasks n) (id : TaskId) : Prop :=
  id.index < n ∧ t.epochs id.index = id.epoch ∧ t.states id.index ≠ .empty

instance (t : Tasks n) (id : TaskId) : Decidable (Live t id) := by
  unfold Live
  infer_instance

structure Unknown (t : Tasks n) (id : TaskId) : Prop where
  state : t.state id = none
  homeOf : t.homeOf id = none
  wake : t.wake id = (false, t)
  setStealeable : ∀ yes, t.setStealeable id yes = (false, t)
  isStealeable : t.isStealeable id = false
  liveId : ∀ slot, t.liveId slot ≠ some id

variable {id : TaskId} {s : System n}

theorem unknown_of_epoch (hn : n ≤ 65536) (h : t.epochs id.index ≠ id.epoch) :
    Unknown t id := by
  have hnot : ¬ (id.index < n ∧ t.epochs id.index = id.epoch) := fun hno => h hno.2
  have hstate : t.state id = none := if_neg hnot
  refine ⟨hstate, ?_, if_pos hnot, fun _ => if_pos hnot, ?_, ?_⟩
  · rw [Tasks.homeOf, hstate]
    rfl
  · simp [Tasks.isStealeable, h]
  · intro slot hlive
    unfold Tasks.liveId at hlive
    split at hlive
    · rename_i hslot
      cases Option.some.inj hlive
      rw [idAt_index hn t hslot.1] at h
      exact h rfl
    · contradiction

structure Grant where
  cap : CapId
  task : TaskId
  index : ℕ
  number : ℕ
  ended : Bool

/-- A run of both tables with the exits of every slot, the mints of every entry, the tasks that
exited and the capabilities that were handed out. -/
structure Registry (n : ℕ) where
  system : System n
  caps : TaskCap.Table
  exits : ℕ → ℕ
  mints : ℕ → ℕ
  gone : List (TaskId × ℕ)
  grants : List Grant

inductive Act
  | task (op : Op)
  | mint (id : TaskId)

def localIndex (cap : CapId) : ℕ :=
  match cap.classify with
  | .task payload => payload.toNat
  | _ => 0

namespace Registry

def Boot (r : Registry n) : Prop :=
  r.system.Boot ∧ r.caps = TaskCap.Table.new ∧ (∀ i, r.exits i = 0) ∧ (∀ i, r.mints i = 0) ∧
    r.gone = [] ∧ r.grants = []

def exit (r : Registry n) (id : TaskId) (s : System n) : Registry n :=
  { r with
    system := s
    caps := r.caps.revokeTask id.toRaw
    exits := update r.exits id.index (r.exits id.index + 1)
    gone := (id, r.exits id.index + 1) :: r.gone
    grants := r.grants.map fun g => if g.task = id then { g with ended := true } else g }

def record (r : Registry n) (op : Op) (s : System n) : Registry n :=
  match op with
  | .switchOn c .exit =>
    match (r.system.tasks.switchOn c .exit).1 with
    | .stay => { r with system := s }
    | .switch from' _ _ => r.exit from' s
  | _ => { r with system := s }

def mint (r : Registry n) (id : TaskId) : Registry n :=
  match r.caps.mint id.toRaw with
  | (none, caps) => { r with caps := caps }
  | (some cap, caps) =>
    { r with
      caps := caps
      mints := update r.mints (localIndex cap) (r.mints (localIndex cap) + 1)
      grants := ⟨cap, id, localIndex cap, r.mints (localIndex cap) + 1, false⟩ :: r.grants }

def step (r : Registry n) : Act → Option (Registry n)
  | .task op => (r.system.step op).map (r.record op)
  | .mint id => if Live r.system.tasks id then some (r.mint id) else none

abbrev Reachable (r : Registry n) : Prop := Reach Boot step (fun _ _ => True) r

end Registry

structure Keeps (t t' : Tasks n) : Prop where
  epochs : t'.epochs = t.epochs
  occupied : ∀ i, t.states i ≠ .empty → t'.states i ≠ .empty

structure Leaves (t t' : Tasks n) (id : TaskId) : Prop where
  live : Live t id
  epochs : t'.epochs = update t.epochs id.index (t.epochs id.index + 1)
  others : ∀ i, i ≠ id.index → t.states i ≠ .empty → t'.states i ≠ .empty

theorem Keeps.of_eq (he : t'.epochs = t.epochs) (hs : t'.states = t.states) : Keeps t t' :=
  ⟨he, fun _ h => hs ▸ h⟩

theorem Keeps.of_update {s : State} (he : t'.epochs = t.epochs)
    (hs : t'.states = update t.states i s) (hne : s ≠ .empty) : Keeps t t' := by
  refine ⟨he, ?_⟩
  intro j hj
  rw [hs]
  by_cases hji : j = i
  · rw [hji, update_self]
    exact hne
  · rw [update_of_ne hji]
    exact hj

theorem keeps_startCpu1 (t : Tasks n) : Keeps t t.startCpu1.2 := by
  unfold startCpu1
  split
  · exact Keeps.of_eq rfl rfl
  split
  · exact Keeps.of_eq rfl rfl
  · exact Keeps.of_update rfl rfl (by decide)

theorem keeps_admitOn (t : Tasks n) (c : ℕ) : Keeps t (t.admitOn c).2 := by
  unfold admitOn
  split
  · exact Keeps.of_eq rfl rfl
  split
  · exact Keeps.of_eq rfl rfl
  split
  · exact Keeps.of_eq rfl rfl
  · exact Keeps.of_update rfl rfl (by decide)

theorem keeps_setStealeable (t : Tasks n) (id : TaskId) (yes : Bool) :
    Keeps t (t.setStealeable id yes).2 := by
  unfold Tasks.setStealeable
  split
  · exact Keeps.of_eq rfl rfl
  · split <;> exact Keeps.of_eq rfl rfl

theorem keeps_wake (t : Tasks n) (id : TaskId) : Keeps t (t.wake id).2 := by
  unfold Tasks.wake
  split
  · exact Keeps.of_eq rfl rfl
  split
  · exact Keeps.of_eq rfl rfl
  split
  · exact Keeps.of_eq rfl rfl
  · split <;> exact Keeps.of_update rfl rfl (by decide)

theorem keeps_tryStealInto (h : t.Inv up) (hc : Up up c) : Keeps t (t.tryStealInto c).2 := by
  rcases tryStealInto_cases h hc with ⟨-, Q, hrun, -⟩ | ⟨_, id, _, Q, -, -, -, -, hrun, -⟩
  · rw [hrun]
    exact Keeps.of_eq rfl rfl
  · rw [hrun]
    exact Keeps.of_eq rfl rfl

theorem switched_occupied {next : TaskId} {q : RunQueue n} (hi : i ≠ (p.current c).index)
    (h : p.states i ≠ .empty) : (p.switched c kind next q).states i ≠ .empty := by
  by_cases hnext : i = next.index
  · simp [switched, hnext]
  · rw [switched_states_of_ne hi hnext]
    exact h

theorem switched_keeps (next : TaskId) (q : RunQueue n)
    (hrun : p.states (p.current c).index = .running) (hkind : kind ≠ .exit) :
    Keeps p (p.switched c kind next q) := by
  refine ⟨?_, ?_⟩
  · cases kind <;> simp_all [switched, retire]
  intro i hi
  by_cases hcur : i = (p.current c).index
  · by_cases hnext : i = next.index
    · simp [switched, hnext]
    · simp only [switched, update_of_ne hnext]
      cases kind <;> simp_all [retire]
  · exact switched_occupied hcur hi

theorem switchOn_tenancy (hn : n ≤ 65536) (h : t.Inv up) (hc : Up up c) (kind : Switch) :
    ((t.switchOn c kind).1 = .stay ∧ Keeps t (t.switchOn c kind).2) ∨
    ∃ next release, (t.switchOn c kind).1 = .switch (t.current c) next release ∧
      (kind ≠ .exit → Keeps t (t.switchOn c kind).2) ∧
      (kind = .exit → Leaves t (t.switchOn c kind).2 (t.current c)) := by
  obtain ⟨Q, H, hframe⟩ := stealFirst_frame h hc
  have hsit := h.current c hc (by simp)
  rcases switchOn_cases hn h hc kind with
    ⟨-, -, heq⟩ | ⟨-, -, q, -, heq⟩ | ⟨next, q, -, -, -, heq⟩
  · left
    rw [heq, hframe]
    exact ⟨rfl, Keeps.of_eq rfl rfl⟩
  · left
    rw [heq, hframe]
    exact ⟨rfl, Keeps.of_eq rfl rfl⟩
  · right
    rw [heq, hframe]
    refine ⟨next, _, rfl, ?_, ?_⟩
    · intro hkind
      have hkeeps := switched_keeps (p := { t with queues := Q, home := H }) (c := c) next q
        hsit.state hkind
      exact ⟨hkeeps.epochs, hkeeps.occupied⟩
    rintro rfl
    refine ⟨⟨hsit.lt, hsit.epoch.symm, by rw [hsit.state]; decide⟩, rfl, ?_⟩
    intro i hi hstate
    exact switched_occupied (p := { t with queues := Q, home := H }) hi hstate

theorem Live.keeps (h : Live t id) (hk : Keeps t t') : Live t' id :=
  ⟨h.1, by rw [hk.epochs]; exact h.2.1, hk.occupied _ h.2.2⟩

/-- A live id other than the one that exits stays live. -/
theorem Live.leaves {gone : TaskId} (h : Live t id) (hl : Leaves t t' gone) (hne : id ≠ gone) :
    Live t' id := by
  have hindex : id.index ≠ gone.index := by
    intro heq
    apply hne
    apply TaskId.ext_index heq
    rw [← h.2.1, ← hl.live.2.1, heq]
  refine ⟨h.1, ?_, hl.others _ hindex h.2.2⟩
  rw [hl.epochs, update_of_ne hindex]
  exact h.2.1

/-- What a grant says about the entry it was minted at. -/
structure Grant.Kept (g : Grant) (r : Registry n) : Prop where
  index : g.index < maxTaskCaps
  number : 0 < g.number ∧ g.number ≤ r.mints g.index
  cap : g.cap = capAt g.index (generationAfter g.number)
  valid : g.ended = false → (r.caps.entries g.index).live = true ∧ g.number = r.mints g.index ∧
    (r.caps.entries g.index).task = g.task.toRaw ∧ Live r.system.tasks g.task
  dead : g.ended = true → g.number = r.mints g.index → (r.caps.entries g.index).live = false

/-- The words of both tables are the residues of the counts, and a live entry names a live task. -/
structure Kept (r : Registry n) : Prop where
  inv : r.system.tasks.Inv r.system.up
  epochs : ∀ i, r.system.tasks.epochs i = UInt16.ofNat (r.exits i)
  gone : ∀ id k, (id, k) ∈ r.gone →
    0 < k ∧ k ≤ r.exits id.index ∧ id.epoch = UInt16.ofNat (k - 1)
  generation : ∀ i, (r.caps.entries i).generation = generationAfter (r.mints i)
  grants : ∀ g ∈ r.grants, g.Kept r

variable {r r' : Registry n} {g : Grant}

theorem Grant.Kept.keeps (h : g.Kept r) (hk : Keeps r.system.tasks s.tasks) :
    g.Kept { r with system := s } := by
  refine ⟨h.index, h.number, h.cap, ?_, h.dead⟩
  intro hvalid
  obtain ⟨hlive, hnumber, htask, htenant⟩ := h.valid hvalid
  exact ⟨hlive, hnumber, htask, htenant.keeps hk⟩

theorem Kept.keeps (h : Kept r) (hinv : s.tasks.Inv s.up) (hk : Keeps r.system.tasks s.tasks) :
    Kept { r with system := s } := by
  refine ⟨hinv, ?_, h.gone, h.generation, fun g hg => (h.grants g hg).keeps hk⟩
  intro i
  simp only [hk.epochs]
  exact h.epochs i

theorem toRaw_inj {a b : TaskId} (h : a.toRaw = b.toRaw) : a = b := by
  rw [← TaskId.fromRaw_toRaw a, h, TaskId.fromRaw_toRaw]

theorem revokeTask_generation (caps : TaskCap.Table) (task : UInt32) (i : ℕ) :
    ((caps.revokeTask task).entries i).generation = (caps.entries i).generation := by
  simp only [TaskCap.Table.revokeTask]
  split <;> rfl

theorem revokeTask_of_ne {task : UInt32} (h : (caps.entries i).task ≠ task) :
    (caps.revokeTask task).entries i = caps.entries i := by
  simp only [TaskCap.Table.revokeTask, h, decide_false, Bool.and_false, Bool.false_eq_true,
    if_false]

theorem revokeTask_dead {task : UInt32}
    (h : (caps.entries i).task = task ∨ (caps.entries i).live = false) :
    ((caps.revokeTask task).entries i).live = false := by
  simp only [TaskCap.Table.revokeTask]
  split
  · rfl
  rename_i hno
  rcases h with htask | hlive
  · simpa [htask] using hno
  · exact hlive

/-- The grants of the task that exits end, and their entries are dead. -/
theorem Grant.Kept.exit (h : g.Kept r) (hl : Leaves r.system.tasks s.tasks id) :
    (if g.task = id then { g with ended := true } else g).Kept (r.exit id s) := by
  by_cases htask : g.task = id
  · rw [if_pos htask]
    refine ⟨h.index, h.number, h.cap, nofun, ?_⟩
    intro _ hnumber
    apply revokeTask_dead
    cases hended : g.ended with
    | false =>
      left
      rw [(h.valid hended).2.2.1, htask]
    | true => exact .inr (h.dead hended hnumber)
  · rw [if_neg htask]
    refine ⟨h.index, h.number, h.cap, ?_, ?_⟩
    · intro hvalid
      obtain ⟨hlive, hnumber, hentry, htenant⟩ := h.valid hvalid
      have hsame : (r.caps.revokeTask id.toRaw).entries g.index = r.caps.entries g.index := by
        apply revokeTask_of_ne
        rw [hentry]
        exact fun heq => htask (toRaw_inj heq)
      simp only [Registry.exit, hsame]
      exact ⟨hlive, hnumber, hentry, htenant.leaves hl htask⟩
    · intro hended hnumber
      exact revokeTask_dead (.inr (h.dead hended hnumber))

theorem Kept.exit (h : Kept r) (hinv : s.tasks.Inv s.up) (hl : Leaves r.system.tasks s.tasks id) :
    Kept (r.exit id s) := by
  refine ⟨hinv, ?_, ?_, ?_, ?_⟩
  · intro i
    simp only [Registry.exit, hl.epochs]
    by_cases hi : i = id.index
    · subst hi
      rw [update_self, update_self, h.epochs, UInt16.ofNat_add]
      rfl
    · rw [update_of_ne hi, update_of_ne hi]
      exact h.epochs i
  · intro other k hmem
    simp only [Registry.exit]
    rcases List.mem_cons.1 hmem with heq | hold
    · cases heq
      rw [update_self, Nat.add_sub_cancel, ← h.epochs]
      exact ⟨Nat.succ_pos _, le_refl _, hl.live.2.1.symm⟩
    obtain ⟨hpos, hle, hepoch⟩ := h.gone other k hold
    refine ⟨hpos, ?_, hepoch⟩
    by_cases hi : other.index = id.index
    · rw [hi, update_self, ← hi]
      omega
    · rw [update_of_ne hi]
      exact hle
  · intro i
    exact (revokeTask_generation r.caps id.toRaw i).trans (h.generation i)
  · intro g hg
    obtain ⟨old, hold, rfl⟩ := List.mem_map.1 hg
    exact (h.grants old hold).exit hl

theorem localIndex_capAt (hk : k < maxTaskCaps) (g : UInt16) : localIndex (capAt k g) = k := by
  unfold maxTaskCaps at hk
  rw [localIndex, classify_capAt hk]
  simp only [UInt16.toNat_ofNat']
  omega

theorem mint_fills (caps : TaskCap.Table) (task : UInt32) :
    caps.mint task = (none, caps) ∨ ∃ k, k < maxTaskCaps ∧ (caps.entries k).live = false ∧
      caps.mint task = (some (capAt k (nextGeneration (caps.entries k).generation)),
        ⟨update caps.entries k
          ⟨true, nextGeneration (caps.entries k).generation, task⟩⟩) := by
  unfold TaskCap.Table.mint
  split
  · exact .inl rfl
  rename_i k hk
  have hmem := List.mem_range.1 (List.mem_of_find?_eq_some hk)
  have hdead := List.find?_some hk
  exact .inr ⟨k, hmem, by simpa using hdead, rfl⟩

/-- The grants of an entry that is minted again have ended. -/
theorem Grant.Kept.mint (h : g.Kept r) (hdead : (r.caps.entries k).live = false) {e : TaskCap.Entry}
    {grants : List Grant} :
    g.Kept { r with
      caps := ⟨update r.caps.entries k e⟩
      mints := update r.mints k (r.mints k + 1)
      grants := grants } := by
  have hnumber := h.number
  by_cases hk : g.index = k
  · subst hk
    refine ⟨h.index, ⟨hnumber.1, ?_⟩, h.cap, ?_, ?_⟩
    · simp only [update_self]
      omega
    · intro hvalid
      rw [(h.valid hvalid).1] at hdead
      contradiction
    · intro _ heq
      simp only [update_self] at heq
      omega
  · refine ⟨h.index, ?_, h.cap, ?_, ?_⟩
    · simp only [update_of_ne hk]
      exact hnumber
    · simp only [update_of_ne hk]
      exact h.valid
    · simp only [update_of_ne hk]
      exact h.dead

theorem Kept.mint (h : Kept r) (hlive : Live r.system.tasks id) :
    Kept (r.mint id) := by
  rcases mint_fills r.caps id.toRaw with heq | ⟨k, hk, hdead, heq⟩
  · simp only [Registry.mint, heq]
    exact ⟨h.inv, h.epochs, h.gone, h.generation, h.grants⟩
  simp only [Registry.mint, heq, localIndex_capAt hk]
  have hgen : nextGeneration (r.caps.entries k).generation = generationAfter (r.mints k + 1) := by
    rw [h.generation, generationAfter]
  refine ⟨h.inv, h.epochs, h.gone, ?_, ?_⟩
  · intro i
    by_cases hi : i = k
    · subst hi
      simp only [update_self]
      exact hgen
    · simp only [update_of_ne hi]
      exact h.generation i
  intro g hg
  rcases List.mem_cons.1 hg with rfl | hold
  · refine ⟨hk, ?_, ?_, ?_, nofun⟩
    · simp only [update_self]
      omega
    · simp only [hgen]
    · simp only [update_self]
      exact fun _ => ⟨trivial, trivial, trivial, hlive⟩
  · exact (h.grants g hold).mint hdead

theorem Kept.task (hn : n ≤ 65536) (h : Kept r) {op : Op} (hs : r.system.step op = some s) :
    Kept (r.record op s) := by
  have hinv := step_inv hn h.inv hs
  unfold System.step at hs
  split at hs
  · contradiction
  rename_i hen
  cases Option.some.inj hs
  cases op with
  | startCpu1 => exact h.keeps hinv (keeps_startCpu1 _)
  | admitOn c => exact h.keeps hinv (keeps_admitOn _ c)
  | setStealeable id yes => exact h.keeps hinv (keeps_setStealeable _ id yes)
  | wake id => exact h.keeps hinv (keeps_wake _ id)
  | collect => exact h.keeps hinv (Keeps.of_eq rfl rfl)
  | tryStealInto c =>
    apply h.keeps hinv
    by_cases hc : c < nCpus
    · exact keeps_tryStealInto h.inv (up_of_enabled rfl hen hc)
    have hnone : r.system.tasks.tryStealInto c = (false, r.system.tasks) :=
      if_pos (.inl (Nat.not_lt.mp hc))
    simp only [Op.apply, hnone]
    exact Keeps.of_eq rfl rfl
  | switchOn c kind =>
    have hcase : ((r.system.tasks.switchOn c kind).1 = .stay ∧
        Keeps r.system.tasks (r.system.tasks.switchOn c kind).2) ∨
        ∃ from' next release, (r.system.tasks.switchOn c kind).1 = .switch from' next release ∧
          (kind ≠ .exit → Keeps r.system.tasks (r.system.tasks.switchOn c kind).2) ∧
          (kind = .exit → Leaves r.system.tasks (r.system.tasks.switchOn c kind).2 from') := by
      by_cases hc : c < nCpus
      · exact (switchOn_tenancy hn h.inv (up_of_enabled rfl hen hc) kind).imp id
          fun hswitch => ⟨_, hswitch⟩
      have hstay : r.system.tasks.switchOn c kind = (.stay, r.system.tasks) :=
        if_pos (Nat.not_lt.mp hc)
      rw [hstay]
      exact .inl ⟨rfl, Keeps.of_eq rfl rfl⟩
    rcases hcase with ⟨hstay, hkeeps⟩ | ⟨from', next, release, hswitch, hother, hexit⟩
    · cases kind with
      | exit =>
        simp only [Registry.record, hstay]
        exact h.keeps hinv hkeeps
      | yield | preempt | block => exact h.keeps hinv hkeeps
    cases kind with
    | exit =>
      simp only [Registry.record, hswitch]
      exact h.exit hinv (hexit rfl)
    | yield | preempt | block => exact h.keeps hinv (hother (by decide))

theorem Registry.Reachable.kept (hn : n ≤ 65536) (h : r.Reachable) : Kept r := by
  refine h.invariant (I := Kept) ?_ ?_
  · rintro r ⟨hboot, hcaps, hexits, hmints, hgone, hgrants⟩
    have hepochs : ∀ i, r.system.tasks.epochs i = 0 := by
      have hstart := hboot.1
      unfold start at hstart
      split at hstart
      · rw [← Option.some.inj hstart]
        exact fun _ => rfl
      · contradiction
    refine ⟨reachable_inv hn (Reach.start hboot), ?_, ?_, ?_, ?_⟩
    · intro i
      rw [hepochs, hexits]
      rfl
    · intro id k hmem
      rw [hgone] at hmem
      exact absurd hmem List.not_mem_nil
    · intro i
      rw [hcaps, hmints]
      rfl
    · intro g hg
      rw [hgrants] at hg
      exact absurd hg List.not_mem_nil
  · intro r act r' hkept _ hs
    cases act with
    | task op =>
      obtain ⟨s, hstep, rfl⟩ := Option.map_eq_some_iff.1 hs
      exact hkept.task hn hstep
    | mint id =>
      simp only [Registry.step] at hs
      split at hs
      · rename_i hlive
        cases Option.some.inj hs
        exact hkept.mint hlive
      · contradiction

/-- In every run an id is unknown after its task has exited, and its capabilities are refused,
until the slot has seen 65535 more exits and the entry 65535 more mints; the capability of a task
that has not exited resolves to it. -/
theorem stale_ids_refused (hn : n ≤ 65536) (r : Registry n) (h : r.Reachable) :
    (∀ id k, (id, k) ∈ r.gone → r.exits id.index < k + 65535 → Unknown r.system.tasks id) ∧
    (∀ g ∈ r.grants, g.ended = true → r.mints g.index < g.number + 65535 →
      r.caps.lookup g.cap = none) ∧
    (∀ g ∈ r.grants, g.ended = false → r.caps.lookup g.cap = some g.task.toRaw) := by
  have hkept := Registry.Reachable.kept hn h
  refine ⟨?_, ?_, ?_⟩
  · intro id k hmem hfew
    obtain ⟨hpos, hle, hepoch⟩ := hkept.gone id k hmem
    apply unknown_of_epoch hn
    rw [hkept.epochs, hepoch]
    intro heq
    have hval := congrArg UInt16.toNat heq
    rw [UInt16.toNat_ofNat', UInt16.toNat_ofNat'] at hval
    omega
  · intro g hg hended hfew
    have hgrant := hkept.grants g hg
    rw [hgrant.cap, lookup_capAt _ hgrant.index, if_neg]
    rintro ⟨hlive, hgen⟩
    by_cases hsame : g.number = r.mints g.index
    · rw [hgrant.dead hended hsame] at hlive
      contradiction
    rw [hkept.generation] at hgen
    have hnumber := hgrant.number
    exact generationAfter_ne hnumber.1 (by omega) hfew hgen
  · intro g hg hvalid
    have hgrant := hkept.grants g hg
    obtain ⟨hlive, hnumber, htask, -⟩ := hgrant.valid hvalid
    rw [hgrant.cap, lookup_capAt _ hgrant.index, if_pos, htask]
    exact ⟨hlive, by rw [hkept.generation, hnumber]⟩

/-- Two tasks with a capability each; one of them has exited. -/
theorem stale_ids_refused_two : ∃ r : Registry 4, r.Reachable ∧
    Unknown r.system.tasks (TaskId.new 1 0) ∧
    (∃ g ∈ r.grants, g.task = TaskId.new 1 0 ∧ r.caps.lookup g.cap = none) ∧
    ∃ g ∈ r.grants, g.task = TaskId.new 2 0 ∧
      r.caps.lookup g.cap = some (TaskId.new 2 0).toRaw := by
  have hreach : Registry.Reachable (n := 4) _ :=
    Reach.run [.task (.admitOn 0), .task (.admitOn 0), .mint (TaskId.new 1 0),
        .mint (TaskId.new 2 0), .task (.switchOn 0 .yield), .task (.switchOn 0 .exit)]
      (Reach.start (s := ⟨⟨_, false⟩, _, fun _ => 0, fun _ => 0, _, _⟩)
        ⟨⟨rfl, rfl⟩, rfl, fun _ => rfl, fun _ => rfl, rfl, rfl⟩)
      (fun _ _ _ => trivial) rfl
  obtain ⟨hunknown, hended, hvalid⟩ := stale_ids_refused (by decide) _ hreach
  exact ⟨_, hreach, hunknown (TaskId.new 1 0) 1 (List.mem_cons_self ..) (by decide +kernel),
    ⟨_, List.mem_cons_of_mem _ (List.mem_cons_self ..), rfl,
      hended _ (List.mem_cons_of_mem _ (List.mem_cons_self ..)) rfl (by decide +kernel)⟩,
    ⟨_, List.mem_cons_self .., rfl, hvalid _ (List.mem_cons_self ..) rfl⟩⟩

theorem Registry.record_system (r : Registry n) (op : Op) (s : System n) :
    (r.record op s).system = s := by
  cases op with
  | switchOn c kind =>
    cases kind with
    | exit =>
      simp only [record]
      split <;> rfl
    | yield | preempt | block => rfl
  | _ => rfl

/-- Every run has a registry. -/
theorem exists_registry (h : s.Reachable) :
    ∃ r : Registry n, r.Reachable ∧ r.system = s := by
  refine h.invariant (I := fun s => ∃ r : Registry n, r.Reachable ∧ r.system = s) ?_ ?_
  · intro s hboot
    exact ⟨⟨s, TaskCap.Table.new, fun _ => 0, fun _ => 0, [], []⟩,
      Reach.start ⟨hboot, rfl, fun _ => rfl, fun _ => rfl, rfl, rfl⟩, rfl⟩
  rintro s op s' ⟨r, hreach, rfl⟩ - hs
  refine ⟨r.record op s', Reach.next (l := .task op) hreach trivial ?_, r.record_system op s'⟩
  rw [Registry.step, hs, Option.map_some]

/-- With 65538 slots the id of a task that has just exited is the id of a live task. -/
theorem stale_id_live : ∃ (r : Registry 65538) (id : TaskId) (k slot : ℕ), r.Reachable ∧
    (id, k) ∈ r.gone ∧ r.exits id.index < k + 65535 ∧
    r.system.tasks.liveId slot = some id := by
  obtain ⟨s, hreach, -, hdecision, -, -, hlive⟩ := exists_reachable_reused
  obtain ⟨r, hr, rfl⟩ := exists_registry hreach
  have hexit : Registry.Reachable (r.exit (TaskId.new 1 0)
      ⟨(r.system.tasks.switchOn 0 .exit).2, r.system.up⟩) := by
    refine Reach.next (l := .task (.switchOn 0 .exit)) hr trivial ?_
    simp [Registry.step, System.step, Op.cpu, Op.apply, Registry.record, hdecision]
  generalize hq : r.exit (TaskId.new 1 0) ⟨(r.system.tasks.switchOn 0 .exit).2, r.system.up⟩ = q
    at hexit
  have hadmit : Registry.Reachable { q with
      system := ⟨(q.system.tasks.admitOn 0).2, q.system.up⟩ } := by
    refine Reach.next (l := .task (.admitOn 0)) hexit trivial ?_
    simp [Registry.step, System.step, Op.cpu, Op.apply, Registry.record]
  refine ⟨_, TaskId.new 1 0, r.exits 1 + 1, 65537, hadmit, ?_, ?_, ?_⟩
  · rw [← hq]
    exact List.mem_cons_self ..
  · rw [← hq]
    have hindex : (TaskId.new 1 0).index = 1 := rfl
    simp only [Registry.exit, hindex, update_self]
    omega
  · have hsystem : q.system = ⟨(r.system.tasks.switchOn 0 .exit).2, r.system.up⟩ := by
      rw [← hq]
      rfl
    simp only [hsystem]
    exact hlive

end HarborKernel.StaleIds
