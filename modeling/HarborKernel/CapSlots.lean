import HarborKernel.Capability
import Mathlib.Logic.Function.Basic

/-!
Capability rows of tasks (`capslots.rs`) and capabilities that name tasks
(`taskcap.rs`). Rows and entries are functions on indices, slices are lists.
-/

namespace HarborKernel.CapSlots

open Function Capability

inductive TransferError
  | badFromSlot
  | badToTask
  | toSlotFull
  | toSlotOob
  | untransferable
deriving DecidableEq

structure Table (tasks slots : ℕ) where
  rows : ℕ → ℕ → Option CapId

namespace Table

variable {T S : ℕ}

def new : Table T S := ⟨fun _ _ => none⟩

def row (t : Table T S) (task : ℕ) : List (Option CapId) := (List.range S).map (t.rows task)

def get (t : Table T S) (task slot : ℕ) : Except SlotError CapId :=
  if task < T then
    if S ≤ slot then .error (.outOfRange slot S)
    else match t.rows task slot with
      | some cap => .ok cap
      | none => .error (.empty slot)
  else .error (.outOfRange slot 0)

def holds (t : Table T S) (task : ℕ) (cap : CapId) : Bool :=
  task < T && (t.row task).contains (some cap)

def setRow (t : Table T S) (task : ℕ) (row : ℕ → Option CapId) : Table T S :=
  ⟨update t.rows task row⟩

def set (t : Table T S) (task slot : ℕ) (cap : Option CapId) : Table T S :=
  t.setRow task (update (t.rows task) slot cap)

def seed (t : Table T S) (task : ℕ) (caps : List (Option CapId)) : Table T S :=
  if task < T then t.setRow task fun i => if i < S then (caps[i]?).join else none else t

def install (t : Table T S) (task slot : ℕ) (cap : CapId) : Bool × Table T S :=
  if task < T ∧ slot < S ∧ t.rows task slot = none then (true, t.set task slot (some cap))
  else (false, t)

def transferBounds (S fromSlot toSlot : ℕ) : Except TransferError Unit :=
  if S ≤ fromSlot then .error .badFromSlot
  else if S ≤ toSlot then .error .toSlotOob
  else .ok ()

def isEndpoint (cap : CapId) : Bool :=
  match cap.classify with
  | .endpoint _ => true
  | _ => false

def transfer (t : Table T S) (fromTask fromSlot toTask toSlot : ℕ) :
    Except TransferError Unit × Table T S :=
  match transferBounds S fromSlot toSlot with
  | .error e => (.error e, t)
  | .ok () =>
    if fromTask = toTask ∧ fromSlot = toSlot then (.ok (), t)
    else
      match t.rows fromTask fromSlot with
      | none => (.error .badFromSlot, t)
      | some cap =>
        if !isEndpoint cap then (.error .untransferable, t)
        else if (t.rows toTask toSlot).isSome then (.error .toSlotFull, t)
        else (.ok (), (t.set fromTask fromSlot none).set toTask toSlot (some cap))

theorem transfer_rows_of_ne (t : Table T S) {fromTask fromSlot toTask toSlot i : ℕ}
    (hfrom : i ≠ fromTask) (hto : i ≠ toTask) :
    (t.transfer fromTask fromSlot toTask toSlot).2.rows i = t.rows i := by
  unfold transfer
  split
  · rfl
  split
  · rfl
  split
  · rfl
  split
  · rfl
  split
  · rfl
  · simp only [set, setRow, update_of_ne hto, update_of_ne hfrom]

def drain (t : Table T S) (task : ℕ) : List (Option CapId) × Table T S :=
  if task < T then (t.row task, t.setRow task fun _ => none)
  else (List.replicate S none, t)

end Table

end HarborKernel.CapSlots

namespace HarborKernel.TaskCap

open Function Capability

def maxTaskCaps : ℕ := 32

def indexBase : UInt16 := taskBand

structure Entry where
  live : Bool
  generation : UInt16
  task : UInt32

structure Table where
  entries : ℕ → Entry

namespace Table

def new : Table := ⟨fun _ => ⟨false, 0, 0⟩⟩

/-- Generation 0 is skipped when the counter wraps. -/
def nextGeneration (g : UInt16) : UInt16 := if g + 1 = 0 then 1 else g + 1

def capAt (i : ℕ) (g : UInt16) : CapId := CapId.new (indexBase ||| UInt16.ofNat i) g

def mint (t : Table) (task : UInt32) : Option CapId × Table :=
  match (List.range maxTaskCaps).find? fun i => !(t.entries i).live with
  | none => (none, t)
  | some i =>
    let g := nextGeneration (t.entries i).generation
    (some (capAt i g), ⟨update t.entries i ⟨true, g, task⟩⟩)

def lookup (t : Table) (cap : CapId) : Option UInt32 :=
  match cap.classify with
  | .task localIndex =>
    if maxTaskCaps ≤ localIndex.toNat then none
    else
      let e := t.entries localIndex.toNat
      if !e.live || e.generation != cap.generation then none else some e.task
  | _ => none

def revokeTask (t : Table) (task : UInt32) : Table :=
  ⟨fun i => if (t.entries i).live && (t.entries i).task = task then
    { t.entries i with live := false } else t.entries i⟩

theorem lookup_eq_some {t : Table} {cap : CapId} {task : UInt32} (h : t.lookup cap = some task) :
    ∃ k, k < maxTaskCaps ∧ (t.entries k).live = true ∧
      capAt k (t.entries k).generation = cap ∧ (t.entries k).task = task := by
  unfold lookup at h
  split at h
  · rename_i payload hclass
    split at h
    · contradiction
    rename_i hlt
    simp only at h
    split at h
    · contradiction
    rename_i hlive
    simp only [Bool.or_eq_true, Bool.not_eq_true', bne_iff_ne, ne_eq, not_or,
      Bool.not_eq_false, not_not] at hlive
    refine ⟨payload.toNat, Nat.lt_of_not_le hlt, hlive.1, ?_, Option.some.inj h⟩
    rw [capAt, UInt16.ofNat_toNat, hlive.2, indexBase, CapId.index_of_classify_task hclass,
      CapId.new_index_generation]
  · contradiction

theorem capAt_inj {k k' : ℕ} {g g' : UInt16} (hk : k < maxTaskCaps) (hk' : k' < maxTaskCaps)
    (h : capAt k g = capAt k' g') : k = k' := by
  have hindex := congrArg CapId.index h
  simp only [capAt, CapId.index_new] at hindex
  have hall : ∀ k < maxTaskCaps, ∀ k' < maxTaskCaps,
      indexBase ||| UInt16.ofNat k = indexBase ||| UInt16.ofNat k' → k = k' := by decide +kernel
  exact hall k hk k' hk' hindex

theorem mint_cases (t : Table) (task : UInt32) :
    t.mint task = (none, t) ∨
    ∃ k g, k < maxTaskCaps ∧ (t.entries k).live = false ∧
      t.mint task = (some (capAt k g), ⟨update t.entries k ⟨true, g, task⟩⟩) := by
  unfold mint
  split
  · exact .inl rfl
  rename_i k hk
  have hmem := List.mem_range.1 (List.mem_of_find?_eq_some hk)
  have hdead := List.find?_some hk
  exact .inr ⟨k, _, hmem, by simpa using hdead, rfl⟩

end Table

end HarborKernel.TaskCap
