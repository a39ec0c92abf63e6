import HarborKernel.ReadyQueue

/-!
Deadlines of parked tasks (`parktime.rs`): at most sixteen entries, each for one
full task id.
-/

namespace HarborKernel.ParkTime

open Function ReadyQueue

def maxArmed : ℕ := 16

structure Entry where
  live : Bool
  task : TaskId
  deadline : ℕ
deriving DecidableEq

def Entry.empty : Entry := ⟨false, TaskId.new 0 0, 0⟩

structure Table where
  entries : ℕ → Entry

namespace Table

def new : Table := ⟨fun _ => Entry.empty⟩

def find (t : Table) (task : TaskId) : Option ℕ :=
  (List.range maxArmed).find? fun i => (t.entries i).live && (t.entries i).task = task

def arm (t : Table) (task : TaskId) (deadline : ℕ) : Bool × Table :=
  match t.find task with
  | some i => (true, ⟨update t.entries i { t.entries i with live := true, deadline }⟩)
  | none =>
    match (List.range maxArmed).find? fun i => !(t.entries i).live with
    | some i => (true, ⟨update t.entries i ⟨true, task, deadline⟩⟩)
    | none => (false, t)

def disarm (t : Table) (task : TaskId) : Table :=
  match t.find task with
  | some i => ⟨update t.entries i Entry.empty⟩
  | none => t

def Entry.expired (e : Entry) (now : ℕ) : Bool := e.live && e.deadline ≤ now

def poll (t : Table) (now : ℕ) : List TaskId × Table :=
  (((List.range maxArmed).filter fun i => Entry.expired (t.entries i) now).map
      fun i => (t.entries i).task,
    ⟨fun i => if i < maxArmed ∧ Entry.expired (t.entries i) now = true then Entry.empty
      else t.entries i⟩)

def Armed (t : Table) (task : TaskId) (deadline : ℕ) : Prop :=
  ∃ i, i < maxArmed ∧ t.entries i = ⟨true, task, deadline⟩

instance (t : Table) (task : TaskId) (deadline : ℕ) : Decidable (Armed t task deadline) :=
  inferInstanceAs (Decidable (∃ _, _))

variable {t : Table} {task id : TaskId} {deadline d now : ℕ}

theorem find_eq_some {i : ℕ} (h : t.find task = some i) :
    i < maxArmed ∧ (t.entries i).live = true ∧ (t.entries i).task = task := by
  have hmem := List.mem_of_find?_eq_some h
  have hlive := List.find?_some h
  simp only [Bool.and_eq_true, decide_eq_true_eq] at hlive
  exact ⟨List.mem_range.mp hmem, hlive⟩

theorem Armed.update {i : ℕ} {e : Entry} (h : Armed t id d)
    (hi : t.entries i ≠ ⟨true, id, d⟩) : Armed ⟨update t.entries i e⟩ id d := by
  obtain ⟨j, hj, hentry⟩ := h
  have hji : j ≠ i := by
    rintro rfl
    exact hi hentry
  exact ⟨j, hj, (update_of_ne hji ..).trans hentry⟩

theorem armed_of_arm (h : (t.arm task deadline).1 = true) :
    Armed (t.arm task deadline).2 task deadline := by
  unfold arm at h ⊢
  split at h
  · rename_i i hfind
    obtain ⟨hlt, -, htask⟩ := find_eq_some hfind
    exact ⟨i, hlt, by simp [htask]⟩
  split at h
  · rename_i i hfree
    exact ⟨i, List.mem_range.mp (List.mem_of_find?_eq_some hfree), update_self ..⟩
  · contradiction

theorem Armed.arm (h : Armed t id d) (hne : id ≠ task) : Armed (t.arm task deadline).2 id d := by
  unfold Table.arm
  split
  · rename_i i hfind
    obtain ⟨-, -, htask⟩ := find_eq_some hfind
    refine h.update ?_
    intro he
    rw [he] at htask
    exact hne htask
  split
  · rename_i i hfree
    refine h.update ?_
    intro he
    have hdead := List.find?_some hfree
    rw [he] at hdead
    contradiction
  · exact h

theorem Armed.disarm (h : Armed t id d) (hne : id ≠ task) : Armed (t.disarm task) id d := by
  unfold Table.disarm
  split
  · rename_i i hfind
    obtain ⟨-, -, htask⟩ := find_eq_some hfind
    refine h.update ?_
    intro he
    rw [he] at htask
    exact hne htask
  · exact h

/-- A poll lists the tasks whose deadline has passed and keeps the entries of the others. -/
theorem Armed.poll (h : Armed t id d) :
    (d ≤ now → id ∈ (t.poll now).1) ∧ (now < d → Armed (t.poll now).2 id d) := by
  obtain ⟨i, hi, hentry⟩ := h
  constructor
  · intro hd
    refine List.mem_map.mpr ⟨i, List.mem_filter.mpr ⟨List.mem_range.mpr hi, ?_⟩, by rw [hentry]⟩
    simp [Entry.expired, hentry, hd]
  · intro hd
    refine ⟨i, hi, ?_⟩
    have hlate : ¬ (i < maxArmed ∧ Entry.expired (t.entries i) now = true) := by
      simp [Entry.expired, hentry, hd]
    exact (if_neg hlate).trans hentry

end Table

end HarborKernel.ParkTime
