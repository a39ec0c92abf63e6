import HarborKernel.TaskInvariant

/-!
What each operation of the task table does from a state satisfying the invariant.
Each operation has one case lemma that lists its outcomes with the resulting
table, and one theorem that it keeps the invariant. The case lemmas also say that
no queue refuses an id and that a processor never falls back to an idle task that
is not queued.
-/

namespace HarborKernel.TaskTable.Tasks

open Function ReadyQueue

variable {n : ℕ} {t : Tasks n} {up : Bool}

variable {c : ℕ} {id : TaskId} {s : State}

theorem InvOff.idle_sits (h : t.Inv up) (hc : Up up c) :
    ∃ s, (s = .running ∨ s = .ready) ∧ t.Sits (t.idle c) s c := by
  rcases h.idle c hc with heq | hmem
  · rw [heq]
    exact ⟨.running, .inl rfl, h.current c hc (by simp)⟩
  · exact ⟨.ready, .inr rfl, h.queued c hc.lt _ hmem⟩

theorem InvOff.idle_ne_of_blocked (h : t.Inv up) (hs : t.states id.index = .blocked) (c : ℕ)
    (hc : c < nCpus) : id ≠ t.idle c := by
  rintro rfl
  have hup : ∀ d, Up up d → t.states (t.idle d).index ≠ .blocked := by
    intro d hd hblock
    obtain ⟨s, hs', hsit⟩ := h.idle_sits hd
    rw [hsit.state] at hblock
    rcases hs' with rfl | rfl <;> contradiction
  by_cases hc' : Up up c
  · exact hup c hc' hs
  have hidle : t.idle c = t.idle 0 := by
    have hc1 : c = 1 := by
      unfold nCpus at hc
      unfold Up at hc'
      omega
    subst hc1
    rw [h.idle0]
    by_contra hne
    exact hc' (.inr ⟨rfl, h.cpu1.mpr hne⟩)
  rw [hidle] at hs
  exact hup 0 (.inl rfl) hs

theorem new_start_inv (t : Tasks n) (h : (new : Tasks n).start = some t) : t.Inv false := by
  unfold start at h
  split at h
  · rename_i hpos
    cases Option.some.inj h
    refine ⟨by simp [noteOccupancy, new], by simp [noteOccupancy], ?_, ?_, ?_, ?_, ?_, ?_, ?_⟩
    · intro c _ id hid
      simp [noteOccupancy, new] at hid
    · intro c _
      simp [noteOccupancy, new]
    · intro i hi hs
      by_cases h0 : i = 0 <;> simp [noteOccupancy, new, h0] at hs
    · intro c hc _
      obtain rfl : c = 0 := by simpa [Up] using hc
      have hidx : IDLE.index = 0 := rfl
      constructor <;> simp [noteOccupancy, new, hidx, hpos]
      rfl
    · intro i hi hs
      refine ⟨by simp, ?_⟩
      by_cases h0 : i = 0
      · subst i
        simp [noteOccupancy, new, idAt, IDLE]
      · simp [noteOccupancy, new, h0] at hs
    · intro c hc
      obtain rfl : c = 0 := by simpa [Up] using hc
      exact .inl (by simp [noteOccupancy])
    · intro i hi hs
      left
      by_cases h0 : i = 0 <;> simp [noteOccupancy, new, h0]
  · contradiction

theorem freeSlot_ne_zero (h : t.Inv up) {i : ℕ} (hi : t.freeSlot = some i) : i ≠ 0 := by
  rintro rfl
  obtain ⟨-, hempty, -⟩ := freeSlot_eq_some hi
  obtain ⟨s, hs, hsit⟩ := h.idle_sits (.inl rfl : Up up 0)
  have hidx : (t.idle 0).index = 0 := by rw [h.idle0]; rfl
  have hstate := hsit.state
  rw [hidx, hempty] at hstate
  rcases hs with rfl | rfl <;> contradiction

theorem startCpu1_inv (hn : n ≤ 65536) (h : t.Inv up) :
    t.startCpu1.2.Inv (up || t.startCpu1.1.isSome) := by
  unfold startCpu1
  split
  · rename_i hne
    obtain rfl := h.cpu1.mpr hne
    exact h
  rename_i hidle
  have hup : up = false := by
    by_contra hup
    exact hidle (h.cpu1.mp (by simpa using hup))
  subst hup
  split
  · exact h
  rename_i slot hfree
  obtain ⟨hlt, hempty, -⟩ := freeSlot_eq_some hfree
  have hslot := freeSlot_ne_zero h hfree
  have hidx := idAt_index hn t hlt
  have hzero : ∀ {i : ℕ}, i < n → t.states i ≠ .empty → t.home i = 0 := by
    intro i hi hs
    simpa [Up] using h.home_up i hi hs
  refine ⟨?_, ?_, ?_, ?_, ?_, ?_, ?_, ?_, ?_⟩
  · simp only [Option.isSome_some, Bool.or_true, noteOccupancy, update_self,
      true_iff]
    intro heq
    exact hslot (hidx.symm.trans (congrArg TaskId.index heq))
  · simpa [noteOccupancy, update_apply] using h.idle0
  · intro c hc id hid
    have hne := h.index_ne hc (i := slot) (by rw [hempty]; decide) hid
    exact (h.queued c hc id hid).congr rfl (update_of_ne hne ..)
      (update_of_ne hne ..)
  · exact h.nodup
  · intro i hi hs
    have hne : i ≠ slot := by
      rintro rfl
      simp [noteOccupancy] at hs
    simp only [noteOccupancy, update_of_ne hne] at hs ⊢
    exact h.ready i hi hs
  · intro c hc _
    rcases hc with rfl | ⟨rfl, -⟩
    · have hsit := h.current 0 (.inl rfl) (by simp)
      have hne : (t.current 0).index ≠ slot := by
        intro heq
        have hrun := hsit.state
        rw [heq, hempty] at hrun
        contradiction
      exact hsit.congr rfl (update_of_ne hne ..) (update_of_ne hne ..)
    · simp only [noteOccupancy, update_self]
      exact ⟨by rwa [hidx], by rw [hidx]; rfl, by rw [hidx]; simp, by rw [hidx]; simp⟩
  · intro i hi hs
    refine ⟨by simp, ?_⟩
    by_cases hne : i = slot
    · subst hne
      simp [noteOccupancy, idAt]
    simp only [noteOccupancy, update_of_ne hne] at hs ⊢
    have hrun := (h.running i hi hs).2
    have h0 := hzero hi (by rw [hs]; decide)
    rw [h0] at hrun ⊢
    simpa [idAt] using hrun
  · intro c hc
    rcases hc with rfl | ⟨rfl, -⟩
    · simpa [noteOccupancy, update_apply] using h.idle 0 (.inl rfl)
    · exact .inl rfl
  · intro i hi hs
    by_cases hne : i = slot
    · subst hne
      simp [noteOccupancy, Up]
    · simp only [noteOccupancy, update_of_ne hne] at hs ⊢
      exact .inl (hzero hi hs)

/-- Admission takes the first free slot, and its queue has room for it. -/
theorem admitOn_cases (h : t.Inv up) (hc : Up up c) :
    (t.freeSlot = none ∧ t.admitOn c = (none, t)) ∨
    ∃ slot q, t.freeSlot = some slot ∧ (t.queues c).enqueue (t.idAt slot) = some q ∧
      t.admitOn c = (some (t.idAt slot), noteOccupancy { t with
        queues := update t.queues c q
        states := update t.states slot .ready
        home := update t.home slot c
        stealeable := update t.stealeable slot false }) := by
  have hlt : ¬ nCpus ≤ c := Nat.not_le.mpr hc.lt
  cases hfree : t.freeSlot with
  | none => exact .inl ⟨rfl, by simp [admitOn, hlt, hfree]⟩
  | some slot =>
    obtain ⟨hslot, hempty, -⟩ := freeSlot_eq_some hfree
    obtain ⟨q, hq⟩ := RunQueue.exists_enqueue (t.queues c) (t.idAt slot)
      (h.length_lt hslot (by rw [hempty]; decide) hc.lt)
    exact .inr ⟨slot, q, rfl, hq, by simp [admitOn, hlt, hfree, hq]⟩

theorem admitOn_inv (hn : n ≤ 65536) (h : t.Inv up) (hc : Up up c) : (t.admitOn c).2.Inv up := by
  rcases admitOn_cases h hc with ⟨-, heq⟩ | ⟨slot, q, hfree, hq, heq⟩
  · rw [heq]
    exact h
  rw [heq]
  obtain ⟨hslot, hempty, -⟩ := freeSlot_eq_some hfree
  refine InvOff.append hn h hslot (by rw [hempty]; decide) (by rw [hempty]; decide) hc
    rfl rfl rfl ?_ ?_ rfl rfl
  · simpa [noteOccupancy] using RunQueue.enqueue_ready _ _ _ hq
  · intro d hd
    exact update_of_ne hd ..

theorem setStealeable_inv (h : t.Inv up) (id : TaskId) (yes : Bool) :
    (t.setStealeable id yes).2.Inv up := by
  unfold setStealeable
  split
  · exact h
  split
  · exact h
  · exact h.reorder (fun _ _ => List.Perm.refl _) rfl rfl rfl rfl rfl

theorem collect_inv (h : t.Inv up) : t.collect.2.Inv up :=
  h.reorder (fun _ _ => List.Perm.refl _) rfl rfl rfl rfl rfl

/-- A wake of a blocked id always lands; every other id is refused without effect. -/
theorem wake_cases (h : t.Inv up) (id : TaskId) :
    (t.state id ≠ some .blocked ∧ t.wake id = (false, t)) ∨
    ∃ q, t.state id = some .blocked ∧ (t.queues (t.home id.index)).enqueue id = some q ∧
      t.wake id = (true, { t with
        states := update t.states id.index .ready
        queues := update t.queues (t.home id.index) q }) := by
  by_cases hlive : id.index < n ∧ t.epochs id.index = id.epoch
  · by_cases hs : t.states id.index = .blocked
    · right
      have hup := h.home_up id.index hlive.1 (by rw [hs]; decide)
      obtain ⟨q, hq⟩ := RunQueue.exists_enqueue (t.queues (t.home id.index)) id
        (h.length_lt hlive.1 (by rw [hs]; decide) hup.lt)
      have h0 := h.idle_ne_of_blocked hs 0 (by decide)
      have h1 := h.idle_ne_of_blocked hs 1 (by decide)
      exact ⟨q, by simp [state, hlive, hs], hq, by simp [wake, hlive, hs, h0, h1, hq]⟩
    left
    refine ⟨by simp [state, hlive, hs], ?_⟩
    by_cases hi : id = t.idle 0 ∨ id = t.idle 1 <;> simp [wake, hlive, hs]
  · exact .inl ⟨by simp [state, hlive], by simp [wake, hlive]⟩

theorem state_eq_some (h : t.state id = some s) :
    id.index < n ∧ t.epochs id.index = id.epoch ∧ t.states id.index = s := by
  unfold state at h
  split at h
  · rename_i hlive
    exact ⟨hlive.1, hlive.2, Option.some.inj h⟩
  · contradiction

/-- A known id is the id of its slot's present tenancy. -/
theorem eq_idAt_of_state (h : t.state id = some s) : id = t.idAt id.index := by
  obtain ⟨-, hepoch, -⟩ := state_eq_some h
  rw [idAt, hepoch]
  exact id.eq_new_index

theorem wake_inv (hn : n ≤ 65536) (h : t.Inv up) (id : TaskId) : (t.wake id).2.Inv up := by
  rcases wake_cases h id with ⟨-, heq⟩ | ⟨q, hs, hq, heq⟩
  · rw [heq]
    exact h
  rw [heq]
  obtain ⟨hlt, hepoch, hblocked⟩ := state_eq_some hs
  have hup := h.home_up id.index hlt (by rw [hblocked]; decide)
  refine InvOff.append hn h hlt (by rw [hblocked]; decide) (by rw [hblocked]; decide) hup rfl rfl
    (update_eq_self _ _).symm ?_ ?_ rfl rfl
  · rw [← eq_idAt_of_state hs]
    simpa using RunQueue.enqueue_ready _ _ _ hq
  · intro d hd
    exact update_of_ne hd ..

end HarborKernel.TaskTable.Tasks
