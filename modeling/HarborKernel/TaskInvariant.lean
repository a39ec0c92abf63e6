import HarborKernel.TaskTable
import Mathlib.Data.Finset.Card
import Mathlib.Data.Finset.Range

/-!
The scheduler invariant of `tasks.rs` and its preservation by every operation.
Every live slot sits in exactly one place: a ready slot in the queue of its
home processor, a running slot as the current task of its home processor.
`up` records that `start_cpu1` has answered with an id. The table may have at most
2^16 slots, the range of the slot field of an id.
-/

namespace HarborKernel.TaskTable

open Function ReadyQueue

/-- A processor takes part in scheduling from boot (0) or from `start_cpu1` on (1). -/
def Up (up : Bool) (c : ℕ) : Prop := c = 0 ∨ (c = 1 ∧ up = true)

instance (up : Bool) (c : ℕ) : Decidable (Up up c) := by
  unfold Up
  infer_instance

theorem Up.lt {up : Bool} {c : ℕ} (h : Up up c) : c < nCpus := by
  rcases h with rfl | ⟨rfl, _⟩ <;> decide

theorem Up.mono {up up' : Bool} {c : ℕ} (h : Up up c) (hup : up = true → up' = true) :
    Up up' c := by
  rcases h with h | ⟨h, hu⟩
  · exact .inl h
  · exact .inr ⟨h, hup hu⟩

namespace Tasks

variable {n : ℕ}

/-- `id` names the present tenancy of its slot, which is in state `s` with home `c`. -/
structure Sits (t : Tasks n) (id : TaskId) (s : State) (c : ℕ) : Prop where
  lt : id.index < n
  epoch : id.epoch = t.epochs id.index
  state : t.states id.index = s
  home : t.home id.index = c

variable {t : Tasks n} {id : TaskId} {s : State} {c i : ℕ}

theorem Sits.eq_idAt (h : t.Sits id s c) : id = t.idAt id.index := by
  rw [idAt, ← h.epoch]
  exact id.eq_new_index

theorem Sits.congr {t' : Tasks n} (h : t.Sits id s c) (he : t'.epochs id.index = t.epochs id.index)
    (hs : t'.states id.index = t.states id.index) (hh : t'.home id.index = t.home id.index) :
    t'.Sits id s c where
  lt := h.lt
  epoch := h.epoch.trans he.symm
  state := hs.trans h.state
  home := hh.trans h.home

structure InvOff (t : Tasks n) (up : Bool) (off : Option ℕ) : Prop where
  cpu1 : up = true ↔ t.idle 1 ≠ IDLE
  idle0 : t.idle 0 = IDLE
  queued : ∀ c, c < nCpus → ∀ id ∈ (t.queues c).ready, t.Sits id .ready c
  nodup : ∀ c, c < nCpus → (t.queues c).ready.Nodup
  ready : ∀ i, i < n → t.states i = .ready → t.idAt i ∈ (t.queues (t.home i)).ready
  current : ∀ c, Up up c → off ≠ some c → t.Sits (t.current c) .running c
  running : ∀ i, i < n → t.states i = .running →
    off ≠ some (t.home i) ∧ t.current (t.home i) = t.idAt i
  idle : ∀ c, Up up c → t.idle c = t.current c ∨ t.idle c ∈ (t.queues c).ready
  home_up : ∀ i, i < n → t.states i ≠ .empty → Up up (t.home i)

abbrev Inv (t : Tasks n) (up : Bool) : Prop := t.InvOff up none

theorem idAt_index (hn : n ≤ 65536) (t : Tasks n) (hi : i < n) :
    (t.idAt i).index = i := TaskId.index_new_of_lt i _ (by omega)

theorem freeSlot_eq_some (h : t.freeSlot = some i) :
    i < n ∧ t.states i = .empty ∧ ∀ p, t.parked = some p → p.index ≠ i := by
  have hmem := List.mem_of_find?_eq_some h
  have hprop := List.find?_some h
  simp only [Bool.and_eq_true, decide_eq_true_eq] at hprop
  refine ⟨List.mem_range.mp hmem, hprop.1, ?_⟩
  intro p hp
  simpa [hp] using hprop.2

namespace InvOff

variable {t t' : Tasks n} {up : Bool} {off : Option ℕ}

variable {i c d : ℕ} {id : TaskId} {rest : List TaskId}

/-- No queued id names a slot that is not ready. -/
theorem index_ne (h : t.InvOff up off) (hc : c < nCpus) (hi : t.states i ≠ .ready)
    (hid : id ∈ (t.queues c).ready) : id.index ≠ i := by
  intro heq
  apply hi
  rw [← heq]
  exact (h.queued c hc id hid).state

/-- Two queued ids with the same slot are equal, and queued on the same processor. -/
theorem queued_inj (h : t.InvOff up off) (hc : c < nCpus) (hd : d < nCpus) {a b : TaskId}
    (ha : a ∈ (t.queues c).ready) (hb : b ∈ (t.queues d).ready) (hab : a.index = b.index) :
    a = b ∧ c = d := by
  have hsa := h.queued c hc a ha
  have hsb := h.queued d hd b hb
  constructor
  · rw [hsa.eq_idAt, hsb.eq_idAt, hab]
  · rw [← hsa.home, ← hsb.home, hab]

/-- As long as some slot is not ready, every queue has room for one more id. -/
theorem length_lt (h : t.InvOff up off) (hi : i < n) (hs : t.states i ≠ .ready) (hc : c < nCpus) :
    (t.queues c).ready.length < n := by
  have hinj : ((t.queues c).ready.map TaskId.index).Nodup := by
    apply (h.nodup c hc).map_on
    intro a ha b hb hab
    exact (h.queued_inj hc hc ha hb hab).1
  have hsub : ((t.queues c).ready.map TaskId.index).toFinset ⊆ (Finset.range n).erase i := by
    intro j hj
    obtain ⟨id, hid, rfl⟩ := List.mem_map.mp (List.mem_toFinset.mp hj)
    exact Finset.mem_erase.mpr
      ⟨h.index_ne hc hs hid, Finset.mem_range.mpr (h.queued c hc id hid).lt⟩
  have hcard := Finset.card_le_card hsub
  rw [List.toFinset_card_of_nodup hinj, List.length_map,
    Finset.card_erase_of_mem (Finset.mem_range.mpr hi), Finset.card_range] at hcard
  omega

theorem reorder (h : t.InvOff up off)
    (hperm : ∀ c, c < nCpus → (t'.queues c).ready.Perm (t.queues c).ready)
    (hs : t'.states = t.states) (he : t'.epochs = t.epochs) (hh : t'.home = t.home)
    (hcur : t'.current = t.current) (hidle : t'.idle = t.idle) : t'.InvOff up off where
  cpu1 := hidle ▸ h.cpu1
  idle0 := hidle ▸ h.idle0
  queued c hc id hid := (h.queued c hc id ((hperm c hc).mem_iff.mp hid)).congr
    (by rw [he]) (by rw [hs]) (by rw [hh])
  nodup c hc := (hperm c hc).nodup_iff.mpr (h.nodup c hc)
  ready i hi hi' := by
    rw [hs] at hi'
    have hmem := h.ready i hi hi'
    have hup := (h.home_up i hi (by rw [hi']; decide)).lt
    rw [hh]
    simpa only [idAt, he] using (hperm _ hup).mem_iff.mpr hmem
  current c hc hoff := by
    rw [hcur]
    exact (h.current c hc hoff).congr (by rw [he]) (by rw [hs]) (by rw [hh])
  running i hi hi' := by
    rw [hs] at hi'
    simpa only [idAt, hh, he, hcur] using h.running i hi hi'
  idle c hc := by
    rw [hcur, hidle]
    exact (h.idle c hc).imp id (hperm c hc.lt).mem_iff.mpr
  home_up i hi hi' := by
    rw [hs] at hi'
    rw [hh]
    exact h.home_up i hi hi'

/-- A slot that is neither ready nor running becomes ready at the tail of a queue. -/
theorem append (hn : n ≤ 65536) (h : t.InvOff up off) (hi : i < n) (hready : t.states i ≠ .ready)
    (hrun : t.states i ≠ .running) (hc : Up up c) (hs : t'.states = update t.states i .ready)
    (he : t'.epochs = t.epochs) (hh : t'.home = update t.home i c)
    (hq : (t'.queues c).ready = (t.queues c).ready ++ [t.idAt i])
    (hq' : ∀ d, d ≠ c → t'.queues d = t.queues d) (hcur : t'.current = t.current)
    (hidle : t'.idle = t.idle) : t'.InvOff up off := by
  have hidx := idAt_index hn t hi
  have hkeep : ∀ {id : TaskId} {s : State} {d : ℕ}, t.Sits id s d → id.index ≠ i →
      t'.Sits id s d := by
    intro id s d hsit hne
    exact hsit.congr (by rw [he]) (by rw [hs, update_of_ne hne])
      (by rw [hh, update_of_ne hne])
  have hsub : ∀ d, (t.queues d).ready ⊆ (t'.queues d).ready := by
    intro d
    by_cases hd : d = c
    · subst hd
      rw [hq]
      exact List.subset_append_left ..
    · rw [hq' d hd]
      exact List.Subset.refl _
  refine ⟨hidle ▸ h.cpu1, hidle ▸ h.idle0, ?_, ?_, ?_, ?_, ?_, ?_, ?_⟩
  · intro d hd id hid
    by_cases hdc : d = c
    · subst hdc
      rw [hq] at hid
      rcases List.mem_append.mp hid with hold | hnew
      · exact hkeep (h.queued d hd id hold) (h.index_ne hd hready hold)
      obtain rfl := List.mem_singleton.mp hnew
      refine ⟨by rwa [hidx], ?_, ?_, ?_⟩
      · rw [hidx, he]
        rfl
      · rw [hidx, hs, update_self]
      · rw [hidx, hh, update_self]
    · rw [hq' d hdc] at hid
      exact hkeep (h.queued d hd id hid) (h.index_ne hd hready hid)
  · intro d hd
    by_cases hdc : d = c
    · subst hdc
      rw [hq]
      refine List.nodup_append.mpr ⟨h.nodup d hd, List.nodup_singleton _, ?_⟩
      intro a ha b hb hab
      obtain rfl := List.mem_singleton.mp hb
      exact h.index_ne hd hready ha (hab ▸ hidx)
    · rw [hq' d hdc]
      exact h.nodup d hd
  · intro j hj hj'
    by_cases hji : j = i
    · subst hji
      rw [hh, update_self, hq]
      exact List.mem_append_right _ (List.mem_singleton.mpr (by rw [idAt, he, idAt]))
    rw [hs, update_of_ne hji] at hj'
    rw [hh, update_of_ne hji]
    exact hsub _ (by simpa only [idAt, he] using h.ready j hj hj')
  · intro d hd hoff
    rw [hcur]
    have hsit := h.current d hd hoff
    exact hkeep hsit (fun heq => hrun (heq ▸ hsit.state))
  · intro j hj hj'
    by_cases hji : j = i
    · subst hji
      rw [hs, update_self] at hj'
      contradiction
    rw [hs, update_of_ne hji] at hj'
    rw [hh, update_of_ne hji, hcur]
    simpa only [idAt, he] using h.running j hj hj'
  · intro d hd
    rw [hcur, hidle]
    exact (h.idle d hd).imp id (fun hm => hsub d hm)
  · intro j hj hj'
    by_cases hji : j = i
    · subst hji
      rw [hh, update_self]
      exact hc
    rw [hs, update_of_ne hji] at hj'
    rw [hh, update_of_ne hji]
    exact h.home_up j hj hj'

/-- The current task leaves its processor for a state off the queues. Its epoch may move. -/
theorem detach (hn : n ≤ 65536) (h : t.Inv up) (hc : Up up c) {s : State}
    (hoff : s = .blocked ∨ s = .empty) (hs : t'.states = update t.states (t.current c).index s)
    (he : ∀ i, i ≠ (t.current c).index → t'.epochs i = t.epochs i) (hh : t'.home = t.home)
    (hq : t'.queues = t.queues) (hcur : t'.current = t.current) (hidle : t'.idle = t.idle) :
    t'.InvOff up (some c) := by
  have hsit := h.current c hc (by simp)
  have hkeep : ∀ {id : TaskId} {s : State} {d : ℕ}, t.Sits id s d →
      id.index ≠ (t.current c).index → t'.Sits id s d := by
    intro id s d hsit hne
    exact hsit.congr (he _ hne) (by rw [hs, update_of_ne hne]) (by rw [hh])
  have hne : ∀ {i : ℕ} {s' : State}, s' = .ready ∨ s' = .running → t'.states i = s' →
      i ≠ (t.current c).index ∧ t.states i = s' := by
    intro i s' hs' hi
    by_cases heq : i = (t.current c).index
    · rw [hs, heq, update_self] at hi
      rcases hoff with rfl | rfl <;> rcases hs' with rfl | rfl <;> contradiction
    · exact ⟨heq, by rwa [hs, update_of_ne heq] at hi⟩
  refine ⟨hidle ▸ h.cpu1, hidle ▸ h.idle0, ?_, ?_, ?_, ?_, ?_, ?_, ?_⟩
  · intro d hd id hid
    rw [hq] at hid
    exact hkeep (h.queued d hd id hid)
      (h.index_ne hd (by rw [hsit.state]; decide) hid)
  · intro d hd
    rw [hq]
    exact h.nodup d hd
  · intro i hi hi'
    obtain ⟨hne', hold⟩ := hne (.inl rfl) hi'
    rw [hh, hq]
    simpa only [idAt, he i hne'] using h.ready i hi hold
  · intro d hd hdc
    rw [hcur]
    apply hkeep (h.current d hd (by simp))
    intro heq
    apply hdc
    rw [← (h.current d hd (by simp)).home, heq, hsit.home]
  · intro i hi hi'
    obtain ⟨hne', hold⟩ := hne (.inr rfl) hi'
    obtain ⟨-, hrun⟩ := h.running i hi hold
    have hid : t'.idAt i = t.idAt i := by rw [idAt, he i hne', idAt]
    rw [hh, hcur, hid]
    refine ⟨?_, hrun⟩
    intro heq
    rw [← Option.some.inj heq] at hrun
    apply hne'
    rw [congrArg TaskId.index hrun, idAt_index hn t hi]
  · intro d hd
    rw [hcur, hidle, hq]
    exact h.idle d hd
  · intro i hi hi'
    rw [hh]
    by_cases heq : i = (t.current c).index
    · rw [heq, hsit.home]
      exact hc
    · rw [hs, update_of_ne heq] at hi'
      exact h.home_up i hi hi'

/-- The head of the queue becomes the current task of the processor that is off. -/
theorem dispatch (hn : n ≤ 65536) (h : t.InvOff up (some c)) (hc : Up up c) {next : TaskId}
    (hready : (t.queues c).ready = next :: rest) (hmem : t.idle c ∈ (t.queues c).ready)
    (hs : t'.states = update t.states next.index .running) (he : t'.epochs = t.epochs)
    (hh : t'.home = t.home) (hq : (t'.queues c).ready = rest)
    (hq' : ∀ d, d ≠ c → t'.queues d = t.queues d) (hcur : t'.current = update t.current c next)
    (hidle : t'.idle = t.idle) : t'.Inv up := by
  have hnext := h.queued c hc.lt next (hready ▸ List.mem_cons_self ..)
  have hnodup := h.nodup c hc.lt
  rw [hready] at hnodup
  have hsub : ∀ d, (t'.queues d).ready ⊆ (t.queues d).ready := by
    intro d
    by_cases hdc : d = c
    · subst hdc
      rw [hq, hready]
      exact List.subset_cons_self ..
    · rw [hq' d hdc]
      exact List.Subset.refl _
  have hother : ∀ d, d < nCpus → ∀ id ∈ (t'.queues d).ready, id.index ≠ next.index := by
    intro d hd id hid heq
    obtain ⟨rfl, rfl⟩ := h.queued_inj hd hc.lt (hsub d hid)
      (hready ▸ List.mem_cons_self ..) heq
    rw [hq] at hid
    exact (List.nodup_cons.mp hnodup).1 hid
  refine ⟨hidle ▸ h.cpu1, hidle ▸ h.idle0, ?_, ?_, ?_, ?_, ?_, ?_, ?_⟩
  · intro d hd id hid
    have hne := hother d hd id hid
    exact (h.queued d hd id (hsub d hid)).congr (by rw [he])
      (by rw [hs, update_of_ne hne]) (by rw [hh])
  · intro d hd
    by_cases hdc : d = c
    · subst hdc
      rw [hq]
      exact (List.nodup_cons.mp hnodup).2
    · rw [hq' d hdc]
      exact h.nodup d hd
  · intro i hi hi'
    by_cases hin : i = next.index
    · rw [hs, hin, update_self] at hi'
      contradiction
    rw [hs, update_of_ne hin] at hi'
    have hold := h.ready i hi hi'
    have hid : t'.idAt i = t.idAt i := by rw [idAt, he, idAt]
    rw [hh, hid]
    by_cases hdc : t.home i = c
    · rw [hdc, hq]
      rw [hdc, hready] at hold
      rcases List.mem_cons.mp hold with heq | hrest
      · exact absurd ((congrArg TaskId.index heq).symm.trans (idAt_index hn t hi)).symm hin
      · exact hrest
    · rwa [hq' _ hdc]
  · intro d hd _
    by_cases hdc : d = c
    · subst hdc
      rw [hcur, update_self]
      exact ⟨hnext.lt, hnext.epoch.trans (by rw [he]), by rw [hs, update_self],
        by rw [hh, hnext.home]⟩
    rw [hcur, update_of_ne hdc]
    have hsit := h.current d hd (fun heq => hdc (Option.some.inj heq).symm)
    have hne : (t.current d).index ≠ next.index := by
      intro heq
      have hrun := hsit.state
      rw [heq, hnext.state] at hrun
      contradiction
    exact hsit.congr (by rw [he]) (by rw [hs, update_of_ne hne]) (by rw [hh])
  · intro i hi hi'
    refine ⟨by simp, ?_⟩
    by_cases hin : i = next.index
    · subst hin
      rw [hh, hnext.home, hcur, update_self, idAt, he]
      exact hnext.eq_idAt
    rw [hs, update_of_ne hin] at hi'
    obtain ⟨hoff, hrun⟩ := h.running i hi hi'
    have hdc : t.home i ≠ c := fun heq => hoff (congrArg some heq.symm)
    rw [hh, hcur, update_of_ne hdc, hrun, idAt, idAt, he]
  · intro d hd
    rw [hcur, hidle]
    by_cases hdc : d = c
    · subst hdc
      rw [update_self, hq]
      rw [hready] at hmem
      exact List.mem_cons.mp hmem
    · rw [update_of_ne hdc, hq' d hdc]
      exact h.idle d hd
  · intro i hi hi'
    rw [hh]
    by_cases hin : i = next.index
    · rw [hin, hnext.home]
      exact hc
    · rw [hs, update_of_ne hin] at hi'
      exact h.home_up i hi hi'

theorem mem_moved (h : t.InvOff up off) (hd : d < nCpus)
    (hready : (t.queues d).ready.Perm (id :: rest)) (hqd : (t'.queues d).ready.Perm rest)
    (hq' : ∀ e, e ≠ c → e ≠ d → t'.queues e = t.queues e) {e : ℕ} (he : e < nCpus) (hec : e ≠ c)
    (a : TaskId) : a ∈ (t'.queues e).ready ↔ a ∈ (t.queues e).ready ∧ a ≠ id := by
  have hnot := (List.nodup_cons.mp (hready.nodup_iff.mp (h.nodup d hd))).1
  by_cases hed : e = d
  · subst hed
    rw [hqd.mem_iff, hready.mem_iff, List.mem_cons]
    constructor
    · intro ha
      exact ⟨.inr ha, fun heq => hnot (heq ▸ ha)⟩
    · rintro ⟨heq | ha, hne⟩
      · exact absurd heq hne
      · exact ha
  · rw [hq' e hec hed]
    refine ⟨fun ha => ⟨ha, ?_⟩, And.left⟩
    rintro rfl
    exact hed (h.queued_inj he hd ha (hready.mem_iff.mpr (List.mem_cons_self ..)) rfl).2

/-- An entry of one queue moves to the tail of another processor's queue. -/
theorem move (hn : n ≤ 65536) (h : t.InvOff up off) (hc : Up up c) (hd : d < nCpus) (hcd : c ≠ d)
    (hready : (t.queues d).ready.Perm (id :: rest)) (hid : ∀ e, e < nCpus → id ≠ t.idle e)
    (hs : t'.states = t.states) (he : t'.epochs = t.epochs)
    (hh : t'.home = update t.home id.index c) (hqd : (t'.queues d).ready.Perm rest)
    (hqc : (t'.queues c).ready = (t.queues c).ready ++ [id])
    (hq' : ∀ e, e ≠ c → e ≠ d → t'.queues e = t.queues e) (hcur : t'.current = t.current)
    (hidle : t'.idle = t.idle) : t'.InvOff up off := by
  have hmem : id ∈ (t.queues d).ready := hready.mem_iff.mpr (List.mem_cons_self ..)
  have hsit := h.queued d hd id hmem
  have hid' : ∀ i, t'.idAt i = t.idAt i := by
    intro i
    rw [idAt, he, idAt]
  have hkeep : ∀ {a : TaskId} {s : State} {e : ℕ}, t.Sits a s e → a.index ≠ id.index →
      t'.Sits a s e := by
    intro a s e hsa hne
    exact hsa.congr (by rw [he]) (by rw [hs]) (by rw [hh, update_of_ne hne])
  have hsame : ∀ {e : ℕ} {a : TaskId}, e < nCpus → a ∈ (t.queues e).ready →
      a.index = id.index → a = id ∧ e = d := by
    intro e a he' ha heq
    exact h.queued_inj he' hd ha hmem heq
  have hother : ∀ {e : ℕ} {a : TaskId}, e < nCpus → e ≠ c →
      (a ∈ (t'.queues e).ready ↔ a ∈ (t.queues e).ready ∧ a ≠ id) :=
    fun he' hec => h.mem_moved hd hready hqd hq' he' hec _
  refine ⟨hidle ▸ h.cpu1, hidle ▸ h.idle0, ?_, ?_, ?_, ?_, ?_, ?_, ?_⟩
  · intro e he' a ha
    by_cases hec : e = c
    · subst hec
      rw [hqc] at ha
      rcases List.mem_append.mp ha with hold | hnew
      · exact hkeep (h.queued e he' a hold) fun heq => hcd (hsame he' hold heq).2
      obtain rfl := List.mem_singleton.mp hnew
      exact ⟨hsit.lt, by rw [he, hsit.epoch], by rw [hs, hsit.state],
        by rw [hh, update_self]⟩
    · obtain ⟨hold, hne⟩ := (hother he' hec).1 ha
      exact hkeep (h.queued e he' a hold) fun heq => hne (hsame he' hold heq).1
  · intro e he'
    by_cases hec : e = c
    · subst hec
      rw [hqc]
      refine List.nodup_append.mpr ⟨h.nodup e he', List.nodup_singleton _, ?_⟩
      intro a ha b hb hab
      obtain rfl := List.mem_singleton.mp hb
      exact hcd (hsame he' ha (congrArg TaskId.index hab)).2
    by_cases hed : e = d
    · subst hed
      exact hqd.nodup_iff.mpr (List.nodup_cons.mp (hready.nodup_iff.mp (h.nodup e hd))).2
    · rw [hq' e hec hed]
      exact h.nodup e he'
  · intro i hi hi'
    rw [hs] at hi'
    have hold := h.ready i hi hi'
    rw [hid' i]
    by_cases hin : i = id.index
    · subst hin
      rw [hh, update_self, hqc]
      exact List.mem_append_right _ (List.mem_singleton.mpr hsit.eq_idAt.symm)
    rw [hh, update_of_ne hin]
    by_cases hec : t.home i = c
    · rw [hec, hqc]
      rw [hec] at hold
      exact List.mem_append_left _ hold
    refine (hother (h.home_up i hi (by rw [hi']; decide)).lt hec).2 ⟨hold, fun heq => hin ?_⟩
    rw [← heq, idAt_index hn t hi]
  · intro e he' hoff
    rw [hcur]
    have hrun := h.current e he' hoff
    apply hkeep hrun
    intro heq
    have := hrun.state
    rw [heq, hsit.state] at this
    contradiction
  · intro i hi hi'
    rw [hs] at hi'
    have hne : i ≠ id.index := by
      intro heq
      rw [heq, hsit.state] at hi'
      contradiction
    rw [hh, update_of_ne hne, hcur, hid' i]
    exact h.running i hi hi'
  · intro e he'
    rw [hcur, hidle]
    refine (h.idle e he').imp (fun heq => heq) (fun hm => ?_)
    by_cases hec : e = c
    · subst hec
      rw [hqc]
      exact List.mem_append_left _ hm
    · exact (hother he'.lt hec).2 ⟨hm, fun heq => hid e he'.lt heq.symm⟩
  · intro i hi hi'
    rw [hs] at hi'
    by_cases hin : i = id.index
    · rw [hh, hin, update_self]
      exact hc
    · rw [hh, update_of_ne hin]
      exact h.home_up i hi hi'

end InvOff

end Tasks

end HarborKernel.TaskTable
