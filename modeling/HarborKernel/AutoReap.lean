import HarborKernel.CapTenancy
import Mathlib.Algebra.Order.BigOperators.Group.Finset

/-!
The counter of a mailbox against the rows that name its send end.
A row changes under the scheduler lock and the counter later, under the lock of the
channels; in between the two differ by the capabilities under way. A release or a
park that runs while a registration is under way acts on a counter that is too
small. In runs without such a meeting the counter is exact up to pending releases.
-/

namespace HarborKernel.LockSections

open Function Capability ReadyQueue TaskTable Ipc IrqWait Processors Transition

private theorem sum_move {n k : ℕ} (hk : k < n) {f g : ℕ → ℕ} (h : ∀ i, i ≠ k → g i = f i) :
    ∑ i ∈ Finset.range n, g i + f k = ∑ i ∈ Finset.range n, f i + g k := by
  have hmem := Finset.mem_range.2 hk
  have hrest : ∑ i ∈ (Finset.range n).erase k, g i = ∑ i ∈ (Finset.range n).erase k, f i :=
    Finset.sum_congr rfl fun i hi => h i (Finset.ne_of_mem_erase hi)
  have hg := Finset.add_sum_erase _ g hmem
  have hf := Finset.add_sum_erase _ f hmem
  omega

private theorem sum_le_mul {n b : ℕ} {f : ℕ → ℕ} (h : ∀ i, i < n → f i ≤ b) :
    ∑ i ∈ Finset.range n, f i ≤ n * b := by
  have hsum := Finset.sum_le_card_nsmul (Finset.range n) f b fun i hi => h i (Finset.mem_range.1 hi)
  simpa using hsum

section Rows

variable {M E D T S : ℕ} (t : Ipc.Table M E D) (caps : CapSlots.Table T S) (mb : ℕ)

def rowTotal : ℕ := ∑ i ∈ Finset.range T, t.sendCount mb (caps.row i)

theorem sendCount_row (i : ℕ) :
    t.sendCount mb (caps.row i) = ∑ k ∈ Finset.range S, t.sendCell mb (caps.rows i k) := by
  simp only [Ipc.Table.sendCount, CapSlots.Table.row, List.map_map]
  rfl

theorem rowTotal_setRow {i : ℕ} (hi : i < T) (r : ℕ → Option CapId) :
    rowTotal t (caps.setRow i r) mb + t.sendCount mb (caps.row i) =
      rowTotal t caps mb + t.sendCount mb ((List.range S).map r) := by
  have hrow : (caps.setRow i r).row i = (List.range S).map r := by
    simp [CapSlots.Table.row, CapSlots.Table.setRow]
  rw [← hrow]
  refine sum_move hi (f := fun j => t.sendCount mb (caps.row j))
    (g := fun j => t.sendCount mb ((caps.setRow i r).row j)) fun j hj => ?_
  simp [CapSlots.Table.row, CapSlots.Table.setRow, update_of_ne hj]

theorem rowTotal_set {i k : ℕ} (hi : i < T) (hk : k < S) (slot : Option CapId) :
    rowTotal t (caps.set i k slot) mb + t.sendCell mb (caps.rows i k) =
      rowTotal t caps mb + t.sendCell mb slot := by
  have hrow := rowTotal_setRow t caps mb hi (update (caps.rows i) k slot)
  have hcell := sum_move hk (f := fun j => t.sendCell mb (caps.rows i j))
    (g := fun j => t.sendCell mb (update (caps.rows i) k slot j))
    fun j hj => by simp [update_of_ne hj]
  have hnew : t.sendCount mb ((List.range S).map (update (caps.rows i) k slot)) =
      ∑ j ∈ Finset.range S, t.sendCell mb (update (caps.rows i) k slot j) := by
    simp only [Ipc.Table.sendCount, List.map_map]
    rfl
  rw [sendCount_row, hnew] at hrow
  simp only [update_self] at hcell
  simp only [CapSlots.Table.set]
  omega

theorem rowTotal_seed {i : ℕ} (hi : i < T) (hempty : ∀ k, caps.rows i k = none)
    {held : List (Option CapId)} (hlen : held.length ≤ S) :
    rowTotal t (caps.seed i held) mb = rowTotal t caps mb + t.sendCount mb held := by
  have hrow := rowTotal_setRow t caps mb hi fun j => if j < S then (held[j]?).join else none
  have hold : t.sendCount mb (caps.row i) = 0 := by
    rw [sendCount_row]
    exact Finset.sum_eq_zero fun k _ => by rw [hempty k, Ipc.Table.sendCell_none]
  have hpad : (List.range S).map (fun j => if j < S then (held[j]?).join else none) =
      held ++ List.replicate (S - held.length) none := by
    apply List.ext_getElem
    · simp
      omega
    intro j hj hj'
    simp only [List.length_map, List.length_range] at hj
    simp only [List.getElem_map, List.getElem_range, hj, if_true, List.getElem_append]
    split
    · rename_i hlt
      simp [hlt]
    · rename_i hlt
      simp [List.getElem?_eq_none (Nat.le_of_not_lt hlt)]
  have hnew : t.sendCount mb (held ++ List.replicate (S - held.length) none) =
      t.sendCount mb held := by
    simp [Ipc.Table.sendCount, Ipc.Table.sendCell_none]
  rw [hpad, hnew, hold] at hrow
  simp only [CapSlots.Table.seed, if_pos hi]
  exact hrow

theorem rowTotal_drain {i : ℕ} (hi : i < T) :
    rowTotal t (caps.drain i).2 mb + t.sendCount mb (caps.drain i).1 = rowTotal t caps mb := by
  have hrow := rowTotal_setRow t caps mb hi fun _ => none
  have hnew : t.sendCount mb ((List.range S).map fun _ => none) = 0 := by
    simp [Ipc.Table.sendCount, Ipc.Table.sendCell_none]
  simp only [CapSlots.Table.drain, if_pos hi]
  rw [hnew] at hrow
  exact hrow

theorem rowTotal_install {i slot : ℕ} {cap : CapId} (hok : (caps.install i slot cap).1 = true) :
    rowTotal t (caps.install i slot cap).2 mb = rowTotal t caps mb + t.sendCell mb (some cap) := by
  unfold CapSlots.Table.install at hok ⊢
  split
  · rename_i hcan
    have hset := rowTotal_set t caps mb hcan.1 hcan.2.1 (some cap)
    rw [hcan.2.2, Ipc.Table.sendCell_none] at hset
    exact hset
  rename_i hcan
  rw [if_neg hcan] at hok
  contradiction

theorem rowTotal_transfer {i j : ℕ} (hi : i < T) (hj : j < T) (k l : ℕ) :
    rowTotal t (caps.transfer i k j l).2 mb = rowTotal t caps mb := by
  unfold CapSlots.Table.transfer
  split
  · rfl
  rename_i hbounds
  obtain ⟨hk, hl⟩ : k < S ∧ l < S := by
    unfold CapSlots.Table.transferBounds at hbounds
    split at hbounds
    · contradiction
    split at hbounds
    · contradiction
    · omega
  split
  · rfl
  rename_i hne
  split
  · rfl
  rename_i cap hcap
  split
  · rfl
  split
  · rfl
  rename_i hfull
  have hfrom := rowTotal_set t caps mb hi hk none
  have hto := rowTotal_set t (caps.set i k none) mb hj hl (some cap)
  have hfree : (caps.set i k none).rows j l = none := by
    simp only [CapSlots.Table.set, CapSlots.Table.setRow, update_apply]
    split
    · rename_i hji
      subst hji
      rw [update_apply]
      split
      · rfl
      · simpa using hfull
    · simpa using hfull
  rw [hcap, Ipc.Table.sendCell_none] at hfrom
  rw [hfree, Ipc.Table.sendCell_none] at hto
  simp only
  omega

end Rows

theorem rowTotal_congr {M E D T S : ℕ} {t t' : Ipc.Table M E D} (h : t'.eps = t.eps)
    (caps : CapSlots.Table T S) (mb : ℕ) : rowTotal t' caps mb = rowTotal t caps mb := by
  simp only [rowTotal, Ipc.Table.sendCount_congr h]

namespace Kernel

variable {s s' : Kernel} {c : ℕ}

def senders (s : Kernel) (mb : ℕ) : ℕ := rowTotal s.ipc s.caps mb

def unregistered (s : Kernel) (mb : ℕ) : ℕ :=
  ∑ i ∈ Finset.range maxTasks, s.ipc.sendCount mb (s.pc i).registering

def unreleased (s : Kernel) (mb : ℕ) : ℕ :=
  ∑ d ∈ Finset.range nCpus, s.ipc.sendCount mb (s.tail d).releasing

structure Counted (s : Kernel) : Prop where
  exact : ∀ mb, (s.ipc.boxes mb).sendHolders.toNat + s.unregistered mb =
    s.senders mb + s.unreleased mb
  fits : ∀ i, i < maxTasks → (s.pc i).fits = true
  short : ∀ d, d < nCpus → (s.tail d).releasing.length ≤ maxCapsPerTask

variable {k d mb : ℕ} {p : Pc} {caps : List (Option CapId)}

theorem unregistered_move (heps : s'.ipc.eps = s.ipc.eps) (hk : k < maxTasks)
    (hpc : s'.pc = update s.pc k p) (mb : ℕ) :
    s'.unregistered mb + s.ipc.sendCount mb (s.pc k).registering =
      s.unregistered mb + s.ipc.sendCount mb p.registering := by
  have hmove := sum_move hk (f := fun i => s.ipc.sendCount mb (s.pc i).registering)
    (g := fun i => s.ipc.sendCount mb (s'.pc i).registering)
    fun i hi => by rw [hpc, update_of_ne hi]
  simp only [hpc, update_self] at hmove
  simpa only [unregistered, Ipc.Table.sendCount_congr heps, hpc] using hmove

theorem unreleased_move (heps : s'.ipc.eps = s.ipc.eps) (hd : d < nCpus) {p : TailPoint}
    (htail : s'.tail = update s.tail d p) (mb : ℕ) :
    s'.unreleased mb + s.ipc.sendCount mb (s.tail d).releasing =
      s.unreleased mb + s.ipc.sendCount mb p.releasing := by
  have hmove := sum_move hd (f := fun i => s.ipc.sendCount mb (s.tail i).releasing)
    (g := fun i => s.ipc.sendCount mb (s'.tail i).releasing)
    fun i hi => by rw [htail, update_of_ne hi]
  simp only [htail, update_self] at hmove
  simpa only [unreleased, Ipc.Table.sendCount_congr heps, htail] using hmove

theorem Counted.fits_move (h : Counted s) (hpc : s'.pc = update s.pc k p) (hp : p.fits = true)
    (i : ℕ) (hi : i < maxTasks) : (s'.pc i).fits = true := by
  rw [hpc]
  by_cases hik : i = k
  · subst hik
    rwa [update_self]
  · rw [update_of_ne hik]
    exact h.fits i hi

/-- The rows, the counters and the capabilities under way are few. -/
theorem Counted.room (h : Counted s) (mb : ℕ) :
    (s.ipc.boxes mb).sendHolders.toNat + s.unregistered mb < 2 ^ 32 := by
  rw [h.exact mb]
  have hrows : s.senders mb ≤ maxTasks * maxCapsPerTask := by
    unfold senders rowTotal
    refine sum_le_mul fun i _ => ?_
    refine (Ipc.Table.sendCount_le ..).trans ?_
    simp [CapSlots.Table.row]
  have htails : s.unreleased mb ≤ nCpus * maxCapsPerTask := by
    unfold unreleased
    exact sum_le_mul fun d hd => (Ipc.Table.sendCount_le ..).trans (h.short d hd)
  simp only [maxTasks, nCpus, maxCapsPerTask] at hrows htails
  omega

theorem registering_le (s : Kernel) (hk : k < maxTasks) (mb : ℕ) :
    s.ipc.sendCount mb (s.pc k).registering ≤ s.unregistered mb :=
  Finset.single_le_sum (f := fun i => s.ipc.sendCount mb (s.pc i).registering)
    (fun _ _ => Nat.zero_le _) (Finset.mem_range.2 hk)

theorem releasing_le (s : Kernel) (hd : d < nCpus) (mb : ℕ) :
    s.ipc.sendCount mb (s.tail d).releasing ≤ s.unreleased mb :=
  Finset.single_le_sum (f := fun i => s.ipc.sendCount mb (s.tail i).releasing)
    (fun _ _ => Nat.zero_le _) (Finset.mem_range.2 hd)

/-- A section of the task on processor `c` that keeps the balance of rows and counters. -/
theorem Counted.of_own (h : Counted s) (hk : k < maxTasks) (heps : s'.ipc.eps = s.ipc.eps)
    (htail : s'.tail = s.tail) (hpc : s'.pc = update s.pc k p) (hp : p.fits = true)
    (hdelta : ∀ mb, (s'.ipc.boxes mb).sendHolders.toNat + s.ipc.sendCount mb p.registering +
        rowTotal s.ipc s.caps mb =
      (s.ipc.boxes mb).sendHolders.toNat + s.ipc.sendCount mb (s.pc k).registering +
        rowTotal s.ipc s'.caps mb) : Counted s' := by
  refine ⟨fun mb => ?_, h.fits_move hpc hp, htail ▸ h.short⟩
  have hexact := h.exact mb
  have hmove := unregistered_move heps hk hpc mb
  have hrow := rowTotal_congr heps s'.caps mb
  have hunrel : s'.unreleased mb = s.unreleased mb := by
    simp only [unreleased, htail, Ipc.Table.sendCount_congr heps]
  have hd := hdelta mb
  simp only [senders] at hexact ⊢
  omega

theorem Counted.of_quiet (h : Counted s) (hk : k < maxTasks) (hipc : s'.ipc = s.ipc)
    (hcaps : ∀ mb, rowTotal s.ipc s'.caps mb = rowTotal s.ipc s.caps mb) (htail : s'.tail = s.tail)
    (hpc : s'.pc = update s.pc k p) (hold : (s.pc k).registering = [])
    (hp : p.registering = [] ∧ p.fits = true) : Counted s' := by
  refine h.of_own hk (by rw [hipc]) htail hpc hp.2 fun mb => ?_
  rw [hold, hp.1, hcaps mb, hipc]

theorem Counted.of_frame (h : Counted s) (hframe : CapFrame s s')
    (hholds : Ipc.Table.SameHolds s.ipc s'.ipc) : Counted s' := by
  have hpoint : ∀ i, (s'.pc i).registering = (s.pc i).registering := by
    intro i
    rcases hframe.points i with hsame | ⟨hold, hnew, -⟩
    · rw [hsame]
    · rw [hold, hnew]
  refine ⟨fun mb => ?_, fun i hi => ?_, fun d hd => ?_⟩
  · have hexact := h.exact mb
    simpa only [unregistered, unreleased, senders, rowTotal_congr hholds.eps,
      Ipc.Table.sendCount_congr hholds.eps, hpoint, hframe.tail, hframe.caps,
      hholds.holders mb] using hexact
  · rcases hframe.points i with hsame | ⟨-, hnew⟩
    · rw [hsame]
      exact h.fits i hi
    · exact hnew.2.2
  · rw [hframe.tail d]
    exact h.short d hd

/-- The section that registers what is in a row already. -/
theorem Counted.register (h : Counted s) (hk : k < maxTasks) (hold : (s.pc k).registering = caps)
    (hipc : s'.ipc = s.ipc.registerHolds caps) (hcaps : s'.caps = s.caps) (htail : s'.tail = s.tail)
    (hpc : s'.pc = update s.pc k (.user .none)) : Counted s' := by
  have hroom : ∀ mb, (s.ipc.boxes mb).sendHolders.toNat + s.ipc.sendCount mb caps < 2 ^ 32 := by
    intro mb
    have hle := registering_le s hk mb
    have := h.room mb
    rw [hold] at hle
    omega
  refine h.of_own hk ?_ htail hpc rfl fun mb => ?_
  · rw [hipc]
    exact (Ipc.Table.registerHolds_holders caps 0 s.ipc (hroom 0)).1
  · rw [hipc, (Ipc.Table.registerHolds_holders caps mb s.ipc (hroom mb)).2, hold, hcaps]
    rfl

theorem transferHeld_total (hb : Base s) (hc : Up s.m.online c) (fromSlot toSlot : ℕ)
    (to' : TaskId) (mb : ℕ) :
    rowTotal s.ipc (s.transferHeld c fromSlot to' toSlot).2 mb = rowTotal s.ipc s.caps mb := by
  by_cases hsame : (s.transferHeld c fromSlot to' toSlot).2 = s.caps
  · rw [hsame]
  obtain ⟨st, hstate, -⟩ := transferHeld_live hb hc (.inl hsame)
  have hto := (Tasks.state_eq_some hstate).1
  unfold transferHeld
  split
  · rfl
  split
  · rfl
  · exact rowTotal_transfer s.ipc s.caps mb (hb.cur_sits hc).lt hto fromSlot toSlot

section

variable (h : Counted s)
include h

theorem Counted.grant (hb : Base s) (hc : Up s.m.online c) {p : GrantPoint}
    (hpc : s.pc (s.cur c).index = .grant p) : Counted (s.execGrant c p) := by
  have hcur := (hb.cur_sits hc).lt
  have hold := congrArg Pc.registering hpc
  cases p with
  | install slot cap =>
    simp only [execGrant]
    cases hok : (s.caps.install (s.cur c).index slot cap).1 with
    | true =>
      refine h.of_own (p := .grant (.register cap)) hcur rfl rfl rfl rfl fun mb => ?_
      have hrow := rowTotal_install s.ipc s.caps mb hok
      rw [hold]
      change _ + s.ipc.sendCount mb [some cap] + _ = _ + 0 + rowTotal s.ipc _ mb
      rw [Ipc.Table.sendCount_cons]
      change _ + (_ + 0) + _ = _
      simp only [goto]
      omega
    | false =>
      refine h.of_quiet (p := .user .none) hcur rfl (fun mb => ?_) rfl rfl hold ⟨rfl, rfl⟩
      have hsame : (s.caps.install (s.cur c).index slot cap).2 = s.caps := by
        unfold CapSlots.Table.install at hok ⊢
        split
        · rename_i hcan
          rw [if_pos hcan] at hok
          contradiction
        · rfl
      simp only [goto, hsame]
  | register cap => exact h.register hcur hold rfl rfl rfl rfl
  | transfer fromSlot to' toSlot by' =>
    exact h.of_quiet (p := .user (.moved (s.transferHeld c fromSlot to' toSlot).1)) hcur rfl
      (transferHeld_total hb hc fromSlot toSlot to') rfl rfl hold ⟨rfl, rfl⟩
  | creatorOf fromSlot toSlot =>
    exact h.of_quiet hcur rfl (fun _ => rfl) rfl rfl hold ⟨rfl, rfl⟩
  | creatorSelf creator fromSlot toSlot =>
    refine h.of_quiet hcur rfl (fun _ => rfl) rfl rfl hold ?_
    split <;> exact ⟨rfl, rfl⟩
  | peerCap fromSlot toSlot capSlot | peerLookup cap fromSlot toSlot =>
    simp only [execGrant]
    split <;> exact h.of_quiet hcur rfl (fun _ => rfl) rfl rfl hold ⟨rfl, rfl⟩
  | peerSelf to' by' fromSlot toSlot =>
    refine h.of_quiet hcur rfl (fun _ => rfl) rfl rfl hold ?_
    split <;> exact ⟨rfl, rfl⟩

theorem Counted.spawn (hb : Base s) (htenured : Tenured s)
    (hc : Up s.m.online c) {p : SpawnPoint} (hpc : s.pc (s.cur c).index = .spawn p) :
    Counted (s.execSpawn c p) := by
  have hcur := (hb.cur_sits hc).lt
  have hold := congrArg Pc.registering hpc
  cases p with
  | register held => exact h.register hcur hold rfl rfl rfl rfl
  | create cpu held =>
    rcases Machine.spawnOn_cases hb.inv.tasks cpu with heq | ⟨slot, q, -, hfree, -, heq⟩
    · simp only [execSpawn, heq]
      exact h.of_quiet (p := .user .none) hcur rfl (fun _ => rfl) rfl rfl hold ⟨rfl, rfl⟩
    obtain ⟨hlt, hempty, -⟩ := Tasks.freeSlot_eq_some hfree
    have hidx := Tasks.idAt_index Machine.maxTasks_le s.m.tasks hlt
    have hfits := h.fits _ hcur
    rw [hpc] at hfits
    simp only [execSpawn, heq, hb.fresh_pc hfree]
    simp only [hidx]
    refine h.of_own (p := .spawn (.register held)) hcur rfl rfl rfl rfl fun mb => ?_
    have hseed := rowTotal_seed s.ipc s.caps mb hlt (htenured.rows slot hlt hempty)
      (of_decide_eq_true hfits)
    rw [hold]
    change (s.ipc.boxes mb).sendHolders.toNat + s.ipc.sendCount mb held + _ = _ + 0 +
      rowTotal s.ipc (s.caps.seed slot held) mb
    rw [hseed]
    omega

theorem Counted.of_drain {k : ℕ} (hk : k < maxTasks) (hc : c < nCpus)
    (hold : (s.pc k).registering = []) (hidle : (s.tail c).releasing = [])
    (hipc : s'.ipc = s.ipc) (hcaps : s'.caps = (s.caps.drain k).2)
    (hpc : s'.pc = update s.pc k (.user .none))
    (htail : s'.tail = update s.tail c (.release (s.caps.drain k).1)) : Counted s' := by
  have heps : s'.ipc.eps = s.ipc.eps := by rw [hipc]
  refine ⟨fun mb => ?_, h.fits_move hpc rfl, ?_⟩
  · have hexact := h.exact mb
    have hdrain := rowTotal_drain s.ipc s.caps mb hk
    have hreg := unregistered_move heps hk hpc mb
    have hrel := unreleased_move heps hc htail mb
    rw [hold] at hreg
    rw [hidle] at hrel
    simp only [Pc.registering, TailPoint.releasing, Ipc.Table.sendCount_nil] at hreg hrel
    simp only [senders, hipc, hcaps] at hexact ⊢
    omega
  · intro d hd
    rw [htail]
    by_cases hdc : d = c
    · subst hdc
      simp [TailPoint.releasing, CapSlots.Table.drain, hk, CapSlots.Table.row]
    · rw [update_of_ne hdc]
      exact h.short d hd

theorem Counted.of_tail (hipc : s'.ipc = s.ipc) (hcaps : s'.caps = s.caps)
    (hpc : s'.pc = s.pc) {p q : TailPoint} (hp : s.tail c = p)
    (htail : s'.tail = update s.tail c q) (hsame : p.releasing = q.releasing) :
    Counted s' := by
  have hpoint : ∀ d, (s'.tail d).releasing = (s.tail d).releasing := by
    intro d
    rw [htail]
    by_cases hd : d = c
    · subst hd
      rw [update_self, hp, hsame]
    · rw [update_of_ne hd]
  refine ⟨fun mb => ?_, hpc ▸ h.fits, fun d hd => ?_⟩
  · simpa only [unregistered, unreleased, senders, hipc, hcaps, hpc, hpoint] using h.exact mb
  · rw [hpoint d]
    exact h.short d hd

theorem Counted.exit (hb : Base s) (hc : Up s.m.online c)
    (hrun : s.m.phase c = .run) (hpc : s.pc (s.cur c).index = .exit) :
    Counted (s.execExit c) := by
  have hcur := (hb.cur_sits hc).lt
  have hold := congrArg Pc.registering hpc
  unfold execExit
  split
  · exact h.of_quiet (p := .halted) hcur rfl (fun _ => rfl) rfl rfl hold ⟨rfl, rfl⟩
  rename_i from' next parked t heq
  obtain rfl : from' = s.cur c := switchOn_from hb hc heq
  have hidle : (s.tail c).releasing = [] := by
    cases ht : s.tail c with
    | release caps =>
      obtain ⟨v, hp, -⟩ := hb.tail c (by rw [ht]; rfl)
      rw [hrun] at hp
      contradiction
    | _ => rfl
  exact h.of_drain hcur hc.lt hold hidle rfl rfl rfl rfl

/-- The release takes off the counters what the exit took out of the row. -/
theorem Counted.release (hc : c < nCpus) {caps : List (Option CapId)}
    (ht : s.tail c = .release caps)
    (hsettled : ∀ mb, s.ipc.sendCount mb caps ≠ 0 → s.unregistered mb = 0) (from' : TaskId) :
    Counted (s.execTail c from' (.release caps)) := by
  have heps := (Ipc.Table.releaseHolds_holders caps 0 s.ipc).1
  refine ⟨fun mb => ?_, h.fits, ?_⟩
  · have hexact := h.exact mb
    have hholders := (Ipc.Table.releaseHolds_holders caps mb s.ipc).2.1
    have hrel := unreleased_move (s := s) (p := afterReaps (s.ipc.releaseHolds caps).1)
      (show (s.execTail c from' (.release caps)).ipc.eps = s.ipc.eps from heps) hc rfl mb
    have hunreg : (s.execTail c from' (.release caps)).unregistered mb = s.unregistered mb := by
      simp only [unregistered, execTail, setTail, Ipc.Table.sendCount_congr heps]
    have hrows : (s.execTail c from' (.release caps)).senders mb = s.senders mb :=
      rowTotal_congr heps s.caps mb
    have hreaps : (afterReaps (s.ipc.releaseHolds caps).1).releasing = [] := by
      cases (s.ipc.releaseHolds caps).1 <;> rfl
    have hle := releasing_le s hc mb
    rw [ht] at hrel hle
    rw [hreaps, Ipc.Table.sendCount_nil] at hrel
    rw [hunreg, hrows]
    change ((s.ipc.releaseHolds caps).2.boxes mb).sendHolders.toNat + _ = _
    simp only [TailPoint.releasing] at hrel hle
    by_cases hzero : s.ipc.sendCount mb caps = 0
    · omega
    · have := hsettled mb hzero
      omega
  · intro d hd
    by_cases hdc : d = c
    · subst hdc
      simp only [execTail, setTail, update_self]
      cases (s.ipc.releaseHolds caps).1 <;> exact Nat.zero_le _
    · simp only [execTail, setTail, update_of_ne hdc]
      exact h.short d hd

end

def holdsSettled (s : Kernel) : Label → Bool
  | .exec c =>
    match s.m.phase c with
    | .run =>
      match s.pc (s.cur c).index with
      | .recv cap _ (.park _) => (s.ipc.lookup cap .RECV).all fun mb => s.unregistered mb = 0
      | p => !p.reshapes
    | .tail _ => (s.tail c).releasing.all fun slot => slot.all fun cap =>
        (s.ipc.lookup cap .SEND).all fun mb => s.unregistered mb = 0
    | _ => true
  | _ => true

theorem settled_release {v : Leaving} (h : s.holdsSettled (.exec c) = true)
    (hp : s.m.phase c = .tail v) (ht : s.tail c = .release caps) (mb : ℕ)
    (hcount : s.ipc.sendCount mb caps ≠ 0) : s.unregistered mb = 0 := by
  simp only [holdsSettled, hp, ht, TailPoint.releasing, List.all_eq_true] at h
  by_contra hno
  apply hcount
  rw [Ipc.Table.sendCount, List.sum_eq_zero_iff]
  intro n hn
  obtain ⟨slot, hslot, rfl⟩ := List.mem_map.1 hn
  cases slot with
  | none => rfl
  | some cap =>
    rw [Ipc.Table.sendCell_some]
    split
    · rename_i hl
      have hall := h _ hslot
      rw [Option.all_some, hl, Option.all_some] at hall
      exact absurd (of_decide_eq_true hall) hno
    · rfl

theorem settled_park {cap : CapId} {limit : Option (TaskId × ℕ)} {me : TaskId}
    (h : s.holdsSettled (.exec c) = true) (hrun : s.m.phase c = .run)
    (hpc : s.pc (s.cur c).index = .recv cap limit (.park me))
    (hl : s.ipc.lookup cap .RECV = some mb) : s.unregistered mb = 0 := by
  simp only [holdsSettled, hrun, hpc] at h
  rw [hl, Option.all_some] at h
  exact of_decide_eq_true h

theorem Counted.step (h : Counted s) (hb : Base s) (htenured : Tenured s) {l : Label}
    (hguard : s.holdsSettled l = true) (hs : s.step l = some s') : Counted s' := by
  rcases step_caps hb hs with ⟨c, rfl, hfree, hrun, hsec⟩ |
    ⟨c, v, caps, rfl, hc, hp, ht, rfl⟩ | ⟨c, v, ht, rfl⟩ | ⟨hframe, hholds⟩
  · rcases hsec with ⟨p, hpc, rfl⟩ | ⟨p, hpc, rfl⟩ | ⟨hpc, rfl⟩ | ⟨id, hpc, rfl⟩
    · exact h.grant hb hfree.1 hpc
    · exact h.spawn hb htenured hfree.1 hpc
    · exact h.exit hb hfree.1 hrun hpc
    · exact h.of_quiet (p := .user .none) (hb.cur_sits hfree.1).lt rfl (fun _ => rfl) rfl rfl
        (congrArg Pc.registering hpc) ⟨rfl, rfl⟩
  · exact h.release hc ht (settled_release hguard hp ht) v.from'
  · exact h.of_tail rfl rfl rfl ht rfl rfl
  · refine h.of_frame hframe (hholds ?_)
    rintro c rfl hrun
    simp only [holdsSettled, hrun] at hguard
    split at hguard
    · rename_i hpc
      rw [hpc]
      rfl
    · simpa using hguard

theorem channels_holders (created : List Bool) (mb : ℕ) :
    ((channels created).boxes mb).sendHolders = 0 := by
  induction created with
  | nil => rfl
  | cons ephemeral rest ih =>
    simp only [channels, Ipc.Table.createChannelWithAutoReap]
    split
    · exact ih
    split
    · exact ih
    split
    · exact ih
    simp only [update_apply]
    split
    · rfl
    · exact ih

theorem boot_counted (created : List Bool) : Counted (boot (channels created)) := by
  refine ⟨fun mb => ?_, fun _ _ => rfl, fun _ _ => Nat.zero_le _⟩
  have hrows : (boot (channels created)).senders mb = 0 := by
    unfold senders rowTotal
    refine Finset.sum_eq_zero fun i _ => ?_
    rw [sendCount_row]
    exact Finset.sum_eq_zero fun _ _ => rfl
  have hunreg : (boot (channels created)).unregistered mb = 0 := by
    unfold unregistered
    exact Finset.sum_eq_zero fun _ _ => rfl
  have hunrel : (boot (channels created)).unreleased mb = 0 := by
    unfold unreleased
    exact Finset.sum_eq_zero fun _ _ => rfl
  rw [hrows, hunreg, hunrel]
  exact congrArg UInt32.toNat (channels_holders created mb)

theorem reach_counted (h : Reach Boot Kernel.step (fun s l => s.holdsSettled l = true) s) :
    Counted s := by
  refine h.invariant_of (J := fun s => Base s ∧ Tenured s) (I := Counted)
    (fun _ hr => ⟨reach_base hr, reach_tenured hr⟩) ?_ ?_
  · rintro s ⟨created, rfl⟩
    exact boot_counted created
  · intro s l s' hJ _ hinv hok hs
    exact hinv.step hJ.1 hJ.2 hok hs

def quiescent (s : Kernel) : Bool :=
  ((List.range maxTasks).all fun i => (s.pc i).registering.isEmpty) &&
    (List.range nCpus).all fun d => (s.tail d).releasing.isEmpty

def reaps (s : Kernel) (c mb : ℕ) : Bool :=
  match s.m.phase c with
  | .run =>
    match s.pc (s.cur c).index with
    | .recv cap _ (.park me) => s.ipc.lookup cap .RECV = some mb &&
        match (s.ipc.park cap me).1 with
        | .error .cancelled => true
        | _ => false
    | _ => false
  | .tail _ =>
    match s.tail c with
    | .release caps => (s.ipc.boxes mb).waiter.isSome &&
        ((s.ipc.releaseHolds caps).2.boxes mb).waiter.isNone
    | _ => false
  | _ => false

theorem quiescent_settled (h : s.quiescent = true) (mb : ℕ) :
    s.unregistered mb = 0 ∧ s.unreleased mb = 0 := by
  simp only [quiescent, Bool.and_eq_true, List.all_eq_true, List.mem_range,
    List.isEmpty_iff] at h
  unfold unregistered unreleased
  refine ⟨Finset.sum_eq_zero fun i hi => ?_, Finset.sum_eq_zero fun d hd => ?_⟩
  · rw [h.1 i (Finset.mem_range.1 hi), Ipc.Table.sendCount_nil]
  · rw [h.2 d (Finset.mem_range.1 hd), Ipc.Table.sendCount_nil]

theorem Counted.reaps (h : Counted s) (hc : c < nCpus) (hguard : s.holdsSettled (.exec c) = true)
    (hreap : s.reaps c mb = true) : s.senders mb = 0 := by
  have hexact := h.exact mb
  unfold Kernel.reaps at hreap
  split at hreap
  · rename_i hrun
    split at hreap
    · rename_i cap limit me hpc
      simp only [Bool.and_eq_true, decide_eq_true_eq] at hreap
      obtain ⟨hl, hcancel⟩ := hreap
      split at hcancel
      · rename_i hpark
        obtain ⟨mb', hl', hzero⟩ := Ipc.Table.park_cancelled hpark
        obtain rfl : mb' = mb := Option.some.inj (hl'.symm.trans hl)
        rw [hzero, settled_park hguard hrun hpc hl] at hexact
        simp only [UInt32.toNat_zero] at hexact
        omega
      · cases hcancel
    · cases hreap
  · rename_i v hp
    split at hreap
    · rename_i caps ht
      simp only [Bool.and_eq_true, Option.isSome_iff_ne_none, ne_eq, Option.isNone_iff_eq_none]
        at hreap
      have hle := releasing_le s hc mb
      rw [ht] at hle
      simp only [TailPoint.releasing] at hle
      rcases (Ipc.Table.releaseHolds_holders caps mb s.ipc).2.2 with hw | ⟨-, hpos, hfew⟩
      · rw [hw] at hreap
        exact absurd hreap.2 hreap.1
      · rw [settled_release hguard hp ht mb (Nat.ne_of_gt hpos)] at hexact
        omega
    · cases hreap
  · cases hreap

def isTail : Phase → Bool
  | .tail _ => true
  | _ => false

/-- In a run where no release and no park meets a registration under way, the counter of a
mailbox is the number of slots that name its send end whenever nothing is half done, and its
waiter is cancelled, or refused, only when there is no such slot. -/
theorem auto_reap_sound (s : Kernel)
    (h : Reach Boot Kernel.step (fun s l => s.holdsSettled l = true) s) :
    (∀ mb, s.quiescent = true → (s.ipc.boxes mb).sendHolders.toNat = s.senders mb) ∧
    ∀ c, c < nCpus → s.holdsSettled (.exec c) = true →
      (∀ mb, s.reaps c mb = true → s.senders mb = 0) ∧
      ∀ v caps w, s.m.phase c = .tail v → s.tail c = .release caps →
        w ∈ (s.ipc.releaseHolds caps).1 →
        ∃ mb, (s.ipc.boxes mb).waiter = some w ∧ s.reaps c mb = true := by
  have hcounted := reach_counted h
  refine ⟨fun mb hquiet => ?_, fun c hc hguard => ⟨fun mb => hcounted.reaps hc hguard, ?_⟩⟩
  · obtain ⟨hunreg, hunrel⟩ := quiescent_settled hquiet mb
    have hexact := hcounted.exact mb
    rw [hunreg, hunrel] at hexact
    omega
  intro v caps w hp ht hw
  obtain ⟨mb, hwaits, hgone⟩ := Ipc.Table.releaseHolds_out caps s.ipc hw
  refine ⟨mb, hwaits, ?_⟩
  simp only [Kernel.reaps, hp, ht, hwaits, hgone, Option.isSome_some, Option.isNone_none,
    Bool.and_true]

/-- The receiver of an ephemeral channel is parked when its only sender leaves. -/
theorem auto_reap_sound_last_sender : ∃ s,
    Reach Boot Kernel.step (fun s l => s.holdsSettled l = true) s ∧
    (s.holdsSettled (.exec 0) = true ∧ s.reaps 0 0 = true) ∧ s.senders 0 = 0 := by
  have hstart : Reach Boot Kernel.step (fun s l => s.holdsSettled l = true) _ := reach_boot [true]
  obtain ⟨s, hreach, hguard, hreap⟩ := hstart.exists_run
    (P := fun s => s.holdsSettled (.exec 0) = true ∧ s.reaps 0 0 = true)
    ([.call 0 (.spawnOn 0 [some (CapId.new 1 1)])] ++ execs 0 2 ++
      [.call 0 (.spawnOn 0 [some (CapId.new 0 1)])] ++ execs 0 2 ++
      [.call 0 .yieldNow] ++ execs 0 7 ++ [.call 0 (.recv (CapId.new 1 1))] ++ execs 0 10 ++
      [.call 0 .exit] ++ execs 0 1) (by decide +kernel)
  exact ⟨s, hreach, ⟨hguard, hreap⟩, ((auto_reap_sound s hreach).2 0 (by decide) hguard).1 0 hreap⟩

def spawns (rows : List (Option CapId)) : List Label :=
  [.call 0 (.spawnOn 0 [])] ++ execs 0 2 ++ [.call 0 .yieldNow] ++ execs 0 7 ++
    rows.flatMap fun cap => .call 0 (.spawnOn 0 [cap]) :: execs 0 2

def seedsLate : List Label :=
  [.call 0 (.spawnOn 0 [some (CapId.new 0 1)])] ++ execs 0 1 ++ [.preempt 0] ++ execs 0 3 ++
    [.call 0 .yieldNow] ++ execs 0 7

/-- A task is preempted between seeding the row of its child and registering it. The only
other sender leaves, and its release takes the waiter; the receiver parks, and is refused; the
child itself leaves, and the late registration counts a send end that nobody holds. -/
theorem auto_reap_unsound :
    (∃ s, Reach Boot Kernel.step (fun _ _ => True) s ∧
      (isTail (s.m.phase 0) = true ∧ s.reaps 0 0 = true) ∧ s.senders 0 ≠ 0) ∧
    (∃ s, Reach Boot Kernel.step (fun _ _ => True) s ∧
      (isTail (s.m.phase 0) = false ∧ s.reaps 0 0 = true) ∧ s.senders 0 ≠ 0) ∧
    ∃ s, Reach Boot Kernel.step (fun _ _ => True) s ∧
      s.quiescent = true ∧ (s.ipc.boxes 0).sendHolders.toNat ≠ s.senders 0 := by
  have hstart : Reach Boot Kernel.step (fun _ _ => True) _ := reach_boot [true]
  refine ⟨?_, ?_, ?_⟩
  · exact hstart.exists_run (spawns [some (CapId.new 1 1), some (CapId.new 0 1)] ++ seedsLate ++
      [.call 0 (.recv (CapId.new 1 1))] ++ execs 0 10 ++ [.call 0 .exit] ++ execs 0 1)
      (by decide +kernel)
  · exact hstart.exists_run (spawns [some (CapId.new 1 1)] ++ seedsLate ++
      [.call 0 (.recv (CapId.new 1 1))] ++ execs 0 5) (by decide +kernel)
  · exact hstart.exists_run (spawns [] ++ seedsLate ++ [.call 0 .exit] ++ execs 0 9)
      (by decide +kernel)

end Kernel

end HarborKernel.LockSections
