import Mathlib.Tactic.IntervalCases

/-!
Capability ids and their classes (`cap.rs`).
An id packs a table index and a generation into 32 bits; the two high bits of the
index say which table resolves it.
-/

namespace HarborKernel.Capability

structure CapId where
  raw : UInt32
deriving DecidableEq

inductive CapClass
  | endpoint (payload : UInt16)
  | task (payload : UInt16)
  | irq (payload : UInt16)
  | invalid
deriving DecidableEq

def taskBand : UInt16 := (1 : UInt16) <<< 14

def irqBand : UInt16 := (1 : UInt16) <<< 15

def classPayloadMask : UInt16 := taskBand - 1

namespace CapId

def indexMask : UInt32 := ((1 : UInt32) <<< 16) - 1

def new (index generation : UInt16) : CapId :=
  ⟨(generation.toUInt32 <<< 16) ||| index.toUInt32⟩

def index (cap : CapId) : UInt16 := (cap.raw &&& indexMask).toUInt16

def generation (cap : CapId) : UInt16 := (cap.raw >>> 16).toUInt16

def classify (cap : CapId) : CapClass :=
  let payload := cap.index &&& classPayloadMask
  match decide (cap.index &&& irqBand ≠ 0), decide (cap.index &&& taskBand ≠ 0) with
  | false, false => .endpoint payload
  | false, true => .task payload
  | true, false => .irq payload
  | true, true => .invalid

theorem toNat_new (index generation : UInt16) :
    (new index generation).raw.toNat = generation.toNat * 65536 + index.toNat := by
  have hi := index.toNat_lt
  have hg := generation.toNat_lt
  have hshift : (generation.toUInt32 <<< 16).toNat = generation.toNat <<< 16 := by
    rw [UInt32.toNat_shiftLeft, UInt16.toNat_toUInt32]
    apply Nat.mod_eq_of_lt
    rw [Nat.shiftLeft_eq]
    simp
    omega
  rw [new, UInt32.toNat_or, hshift, UInt16.toNat_toUInt32,
    ← Nat.shiftLeft_add_eq_or_of_lt (by simpa using hi), Nat.shiftLeft_eq]

theorem index_new (i g : UInt16) : (new i g).index = i := by
  apply UInt16.toNat_inj.mp
  have hi := i.toNat_lt
  rw [index, UInt32.toNat_toUInt16, UInt32.toNat_and, toNat_new]
  have hmask : indexMask.toNat = 2 ^ 16 - 1 := by decide
  rw [hmask, Nat.and_two_pow_sub_one_eq_mod]
  omega

theorem generation_new (i g : UInt16) : (new i g).generation = g := by
  apply UInt16.toNat_inj.mp
  have hi := i.toNat_lt
  have hg := g.toNat_lt
  rw [generation, UInt32.toNat_toUInt16, UInt32.toNat_shiftRight, toNat_new,
    Nat.shiftRight_eq_div_pow]
  simp
  omega

theorem new_index_generation (cap : CapId) : new cap.index cap.generation = cap := by
  have hraw := cap.raw.toNat_lt
  have hmask : indexMask.toNat = 2 ^ 16 - 1 := by decide
  have hindex : cap.index.toNat = cap.raw.toNat % 65536 := by
    rw [index, UInt32.toNat_toUInt16, UInt32.toNat_and, hmask, Nat.and_two_pow_sub_one_eq_mod]
    omega
  have hgen : cap.generation.toNat = cap.raw.toNat / 65536 := by
    rw [generation, UInt32.toNat_toUInt16, UInt32.toNat_shiftRight, Nat.shiftRight_eq_div_pow]
    simp
    omega
  have htoNat := toNat_new cap.index cap.generation
  rw [hindex, hgen] at htoNat
  have hsame : (new cap.index cap.generation).raw = cap.raw := UInt32.toNat_inj.mp (by omega)
  exact congrArg CapId.mk hsame

private theorem band_or_payload {x : UInt16} (hirq : x &&& irqBand = 0)
    (htask : x &&& taskBand ≠ 0) : taskBand ||| (x &&& classPayloadMask) = x := by
  have h15 : x.toBitVec.getLsbD 15 = false := by
    have hbit := congrArg (fun y : UInt16 => y.toBitVec.getLsbD 15) hirq
    simpa [irqBand] using hbit
  have h14 : x.toBitVec.getLsbD 14 = true := by
    by_contra hno
    apply htask
    apply UInt16.toBitVec_inj.mp
    apply BitVec.eq_of_getLsbD_eq
    intro i hi
    interval_cases i <;> simp_all [taskBand, -Bool.not_eq_true]
  apply UInt16.toBitVec_inj.mp
  apply BitVec.eq_of_getLsbD_eq
  intro i hi
  interval_cases i <;> simp_all [taskBand, classPayloadMask]

theorem index_of_classify_task {cap : CapId} {payload : UInt16}
    (h : cap.classify = .task payload) : taskBand ||| payload = cap.index := by
  unfold classify at h
  simp only at h
  split at h
  · contradiction
  · rename_i hirq htask
    cases h
    exact band_or_payload (not_not.1 (of_decide_eq_false hirq)) (of_decide_eq_true htask)
  · contradiction
  · contradiction

end CapId

structure CapRights where
  bits : UInt8
deriving DecidableEq

namespace CapRights

def SEND : CapRights := ⟨1⟩

def RECV : CapRights := ⟨(1 : UInt8) <<< 1⟩

def empty : CapRights := ⟨0⟩

def contains (r other : CapRights) : Bool := (r.bits &&& other.bits) == other.bits

end CapRights

inductive SlotError
  | outOfRange (slot slots : ℕ)
  | empty (slot : ℕ)
deriving DecidableEq

end HarborKernel.Capability
