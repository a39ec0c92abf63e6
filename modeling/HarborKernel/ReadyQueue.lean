import HarborKernel.RingBuffer

/-!
Task identities and the fixed-capacity ready queue (`runqueue.rs`).
A `TaskId` is a slot together with the epoch of its tenancy; both fields are
sixteen bits wide, so a slot index that does not fit is truncated when an id is
built. The queue is a ring of ids. A refused enqueue is `none`.
-/

namespace HarborKernel.ReadyQueue

open RingBuffer

structure TaskId where
  slot : UInt16
  epoch : UInt16
deriving DecidableEq

namespace TaskId

def new (slot : ℕ) (epoch : UInt16) : TaskId := ⟨UInt16.ofNat slot, epoch⟩

def index (id : TaskId) : ℕ := id.slot.toNat

def toRaw (id : TaskId) : UInt32 := (id.epoch.toUInt32 <<< 16) ||| id.slot.toUInt32

def fromRaw (raw : UInt32) : TaskId := ⟨raw.toUInt16, (raw >>> 16).toUInt16⟩

theorem index_new (slot : ℕ) (epoch : UInt16) : (new slot epoch).index = slot % 65536 := by
  simp [new, index]

theorem index_new_of_lt (slot : ℕ) (epoch : UInt16) (h : slot < 65536) :
    (new slot epoch).index = slot := by
  rw [index_new, Nat.mod_eq_of_lt h]

@[simp] theorem epoch_new (slot : ℕ) (epoch : UInt16) : (new slot epoch).epoch = epoch := rfl

theorem index_lt (id : TaskId) : id.index < 65536 := id.slot.toNat_lt

/-- An id is determined by its slot index and its epoch. -/
theorem ext_index {a b : TaskId} (hslot : a.index = b.index) (hepoch : a.epoch = b.epoch) :
    a = b := by
  cases a
  cases b
  simp only [index] at hslot
  simp only [mk.injEq]
  exact ⟨UInt16.toNat_inj.mp hslot, hepoch⟩

theorem eq_new_index (id : TaskId) : id = new id.index id.epoch :=
  ext_index (index_new_of_lt id.index id.epoch id.index_lt).symm rfl

/-- Packing for transport loses neither field. -/
theorem fromRaw_toRaw (id : TaskId) : fromRaw id.toRaw = id := by
  obtain ⟨⟨slot⟩, ⟨epoch⟩⟩ := id
  simp only [fromRaw, toRaw, mk.injEq]
  constructor
  · apply UInt16.toBitVec_inj.mp
    ext i hi
    simp
  · apply UInt16.toBitVec_inj.mp
    ext i hi
    have hshift : 16 + i < 32 := by omega
    have hlow : i < 32 := by omega
    simp [hshift, hlow, BitVec.getLsbD_eq_getElem hi]

end TaskId

abbrev RunQueue (cap : ℕ) := Ring TaskId cap

namespace RunQueue

variable {cap : ℕ}

def new : RunQueue cap := Ring.empty (TaskId.new 0 0)

def isEmpty (q : RunQueue cap) : Bool := q.len == 0

def enqueue (q : RunQueue cap) (id : TaskId) : Option (RunQueue cap) := q.push id

def dequeue (q : RunQueue cap) : Option (TaskId × RunQueue cap) := q.pop

/-- The ids from head to tail, in the order `for_each_ready` visits them. -/
def ready (q : RunQueue cap) : List TaskId := q.toList

def afterYield (q : RunQueue cap) (requeue : Option TaskId) :
    Option (Option TaskId × RunQueue cap) :=
  match requeue with
  | none => some (q.dequeue.elim (none, q) fun r => (some r.1, r.2))
  | some id => (q.enqueue id).map fun q' => q'.dequeue.elim (none, q') fun r => (some r.1, r.2)

@[simp] theorem ready_new : (new : RunQueue cap).ready = [] := rfl

theorem isEmpty_iff (q : RunQueue cap) : q.isEmpty = true ↔ q.ready = [] := by
  simp [isEmpty, ready, Ring.toList_eq_nil_iff]

theorem enqueue_ready (q q' : RunQueue cap) (id : TaskId) (h : q.enqueue id = some q') :
    q'.ready = q.ready ++ [id] := Ring.push_toList q q' id h

theorem dequeue_ready (q q' : RunQueue cap) (id : TaskId) (h : q.dequeue = some (id, q')) :
    q.ready = id :: q'.ready := Ring.pop_toList q q' id h

section

variable (q : RunQueue cap)
include q

theorem dequeue_eq_none_iff : q.dequeue = none ↔ q.ready = [] :=
  Ring.pop_eq_none_iff q

theorem front_ready : q.front = q.ready.head? := Ring.front_eq_head? q

/-- A queue holding fewer ids than its capacity accepts one more. -/
theorem exists_enqueue (id : TaskId) (h : q.ready.length < cap) :
    ∃ q', q.enqueue id = some q' := by
  apply Option.ne_none_iff_exists'.mp
  intro hnone
  have hlen := (Ring.push_eq_none_iff q id).mp hnone
  simp only [ready, Ring.length_toList] at h
  omega

theorem exists_dequeue (id : TaskId) (rest : List TaskId)
    (h : q.ready = id :: rest) : ∃ q', q.dequeue = some (id, q') ∧ q'.ready = rest := by
  cases hd : q.dequeue with
  | none =>
    rw [(dequeue_eq_none_iff q).mp hd] at h
    contradiction
  | some r =>
    obtain ⟨id', q'⟩ := r
    have hr := dequeue_ready q q' id' hd
    rw [h] at hr
    obtain ⟨rfl, rfl⟩ := List.cons.inj hr
    exact ⟨q', rfl, rfl⟩

theorem exists_rotate (id : TaskId) (rest : List TaskId)
    (h : q.ready = id :: rest) :
    ∃ q1 q2, q.dequeue = some (id, q1) ∧ q1.ready = rest ∧ q1.enqueue id = some q2 ∧
      q2.ready = rest ++ [id] := by
  obtain ⟨q1, hq1, hrest⟩ := exists_dequeue q id rest h
  obtain ⟨q2, hq2⟩ := exists_enqueue q1 id (by
    have hlen := q.len_le
    rw [← Ring.length_toList] at hlen
    change q.ready.length ≤ cap at hlen
    rw [h, List.length_cons] at hlen
    rw [hrest]
    omega)
  exact ⟨q1, q2, hq1, hrest, hq2, by rw [enqueue_ready _ _ _ hq2, hrest]⟩

end

end RunQueue

end HarborKernel.ReadyQueue
