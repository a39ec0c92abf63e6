import HarborKernel.IpcWaiters
import Mathlib.Data.List.Count

/-!
How many of a list of capabilities name the send end of a mailbox, and what the
operations do to the counter that should say so.
-/

namespace HarborKernel.Ipc.Table

open Function Capability ReadyQueue

variable {M E D : ℕ} {t t' : Table M E D}

structure SameHolds (t t' : Table M E D) : Prop where
  eps : t'.eps = t.eps
  holders : ∀ mb, (t'.boxes mb).sendHolders = (t.boxes mb).sendHolders

theorem SameHolds.refl (t : Table M E D) : SameHolds t t := ⟨rfl, fun _ => rfl⟩

theorem SameHolds.setBox (t : Table M E D) {mb : ℕ} {b : Mailbox}
    (h : b.sendHolders = (t.boxes mb).sendHolders) : SameHolds t (t.setBox mb b) := by
  refine ⟨rfl, fun i => ?_⟩
  by_cases hi : i = mb
  · subst hi
    simpa [Table.setBox] using h
  · simp [Table.setBox, update_of_ne hi]

theorem tryRecv_holds (t : Table M E D) (cap : CapId) : SameHolds t (t.tryRecv cap).2 := by
  unfold tryRecv
  split
  · exact ⟨rfl, fun _ => rfl⟩
  simp only
  split
  · exact ⟨rfl, fun _ => rfl⟩
  split
  · exact SameHolds.refl t
  · exact SameHolds.setBox t rfl

theorem park_holds (t : Table M E D) (cap : CapId) (me : TaskId) :
    SameHolds t (t.park cap me).2 := by
  unfold park
  split
  · exact ⟨rfl, fun _ => rfl⟩
  simp only
  split
  · exact ⟨rfl, fun _ => rfl⟩
  split
  · exact SameHolds.setBox t rfl
  split
  · exact SameHolds.refl t
  split
  · exact ⟨rfl, fun _ => rfl⟩
  · exact SameHolds.setBox t rfl

theorem send_holds (t : Table M E D) (cap : CapId) (msg : Message) :
    SameHolds t (t.send cap msg).2 := by
  unfold send
  split
  · exact ⟨rfl, fun _ => rfl⟩
  simp only
  split
  · exact ⟨rfl, fun _ => rfl⟩
  split
  · exact ⟨rfl, fun _ => rfl⟩
  · exact SameHolds.setBox t rfl

theorem clearWaiter_holds (t : Table M E D) (id : TaskId) : SameHolds t (t.clearWaiter id) := by
  refine ⟨rfl, fun mb => ?_⟩
  simp only [clearWaiter]
  split <;> rfl

def sendCell (t : Table M E D) (mb : ℕ) (slot : Option CapId) : ℕ :=
  if (slot.any fun cap => t.lookup cap .SEND = some mb) = true then 1 else 0

def sendCount (t : Table M E D) (mb : ℕ) (caps : List (Option CapId)) : ℕ :=
  (caps.map (t.sendCell mb)).sum

theorem sendCell_none (t : Table M E D) (mb : ℕ) : t.sendCell mb none = 0 := rfl

theorem sendCell_some (t : Table M E D) (mb : ℕ) (cap : CapId) :
    t.sendCell mb (some cap) = if t.lookup cap .SEND = some mb then 1 else 0 := by
  simp [sendCell]

theorem sendCell_le (t : Table M E D) (mb : ℕ) (slot : Option CapId) : t.sendCell mb slot ≤ 1 := by
  unfold sendCell
  split <;> omega

theorem sendCell_congr (h : t'.eps = t.eps) (mb : ℕ) : t'.sendCell mb = t.sendCell mb := by
  funext slot
  simp only [sendCell, lookup_congr h]

theorem sendCount_congr (h : t'.eps = t.eps) (mb : ℕ) : t'.sendCount mb = t.sendCount mb := by
  funext caps
  simp only [sendCount, sendCell_congr h]

theorem sendCount_nil (t : Table M E D) (mb : ℕ) : t.sendCount mb [] = 0 := rfl

theorem sendCount_cons (t : Table M E D) (mb : ℕ) (slot : Option CapId)
    (rest : List (Option CapId)) :
    t.sendCount mb (slot :: rest) = t.sendCell mb slot + t.sendCount mb rest := rfl

theorem sendCount_le (t : Table M E D) (mb : ℕ) (caps : List (Option CapId)) :
    t.sendCount mb caps ≤ caps.length := by
  induction caps with
  | nil => exact le_refl 0
  | cons slot rest ih =>
    have := t.sendCell_le mb slot
    rw [sendCount_cons, List.length_cons]
    omega

theorem satAdd_toNat {h : UInt32} (hroom : h.toNat + 1 < 2 ^ 32) :
    (satAdd h).toNat = h.toNat + 1 := by
  unfold satAdd
  split
  · rename_i he
    subst he
    contradiction
  · rw [UInt32.toNat_add]
    exact Nat.mod_eq_of_lt hroom

theorem satSub_toNat (h : UInt32) : (satSub h).toNat = h.toNat - 1 := by
  unfold satSub
  split
  · rename_i hpos
    have : 0 < h.toNat := UInt32.lt_iff_toNat_lt.1 hpos
    rw [UInt32.toNat_sub_of_le]
    · rfl
    · exact UInt32.le_iff_toNat_le.2 this
  rename_i hzero
  have : ¬ 0 < h.toNat := fun hp => hzero (UInt32.lt_iff_toNat_lt.2 hp)
  omega

theorem registerHold_holders (t : Table M E D) (cap : CapId) (mb : ℕ)
    (hroom : (t.boxes mb).sendHolders.toNat + t.sendCell mb (some cap) < 2 ^ 32) :
    (t.registerHold cap).eps = t.eps ∧
    ((t.registerHold cap).boxes mb).sendHolders.toNat =
      (t.boxes mb).sendHolders.toNat + t.sendCell mb (some cap) := by
  rw [sendCell_some] at hroom ⊢
  unfold registerHold
  cases hl : t.lookup cap .SEND with
  | none => simp
  | some mb' =>
    refine ⟨rfl, ?_⟩
    by_cases hmb : mb' = mb
    · subst hmb
      simp only [hl, if_true] at hroom ⊢
      simp only [setBox, update_self]
      exact satAdd_toNat hroom
    · simp [setBox, update_of_ne (Ne.symm hmb), hmb]

/-- Registering adds the capabilities to the counters, as long as these have room. -/
theorem registerHolds_holders (caps : List (Option CapId)) (mb : ℕ) : ∀ t : Table M E D,
    (t.boxes mb).sendHolders.toNat + t.sendCount mb caps < 2 ^ 32 →
    (t.registerHolds caps).eps = t.eps ∧
    ((t.registerHolds caps).boxes mb).sendHolders.toNat =
      (t.boxes mb).sendHolders.toNat + t.sendCount mb caps := by
  induction caps with
  | nil => exact fun t _ => ⟨rfl, rfl⟩
  | cons slot rest ih =>
    intro t hroom
    rw [sendCount_cons] at hroom ⊢
    cases slot with
    | none =>
      rw [sendCell_none, Nat.zero_add] at hroom ⊢
      exact ih t hroom
    | some cap =>
      obtain ⟨heps, hone⟩ := registerHold_holders t cap mb (by omega)
      have hcount := congrFun (sendCount_congr heps mb) rest
      obtain ⟨heps', hrest⟩ := ih (t.registerHold cap) (by rw [hone, hcount]; omega)
      refine ⟨heps'.trans heps, ?_⟩
      rw [registerHolds, hrest, hone, hcount]
      omega

theorem releaseHold_holders (t : Table M E D) (cap : CapId) (mb : ℕ) :
    (t.releaseHold cap).2.eps = t.eps ∧
    ((t.releaseHold cap).2.boxes mb).sendHolders.toNat =
      (t.boxes mb).sendHolders.toNat - t.sendCell mb (some cap) ∧
    (((t.releaseHold cap).2.boxes mb).waiter = (t.boxes mb).waiter ∨
      ((t.releaseHold cap).2.boxes mb).waiter = none ∧ 0 < t.sendCell mb (some cap) ∧
        (t.boxes mb).sendHolders.toNat ≤ t.sendCell mb (some cap)) := by
  rw [sendCell_some]
  unfold releaseHold
  cases hl : t.lookup cap .SEND with
  | none => simp
  | some mb' =>
    by_cases hmb : mb' = mb
    · subst hmb
      simp only [if_true]
      split
      · rename_i hzero
        have hone := satSub_toNat (t.boxes mb').sendHolders
        refine ⟨rfl, by simpa [setBox] using hone, .inr ⟨by simp [setBox], Nat.one_pos, ?_⟩⟩
        rw [hzero.1] at hone
        simp only [UInt32.toNat_zero] at hone
        omega
      · exact ⟨rfl, by simpa [setBox] using satSub_toNat _, .inl (by simp [setBox])⟩
    · have hne : mb ≠ mb' := Ne.symm hmb
      simp only [Option.some.injEq, hmb, if_false, Nat.sub_zero]
      split
      · exact ⟨rfl, by simp [setBox, update_of_ne hne],
          .inl (by simp [setBox, update_of_ne hne])⟩
      · exact ⟨rfl, by simp [setBox, update_of_ne hne],
          .inl (by simp [setBox, update_of_ne hne])⟩

/-- Releasing takes the capabilities off the counters. A waiter is taken only from a mailbox
whose counter does not exceed what is released. -/
theorem releaseHolds_holders (caps : List (Option CapId)) (mb : ℕ) : ∀ t : Table M E D,
    (t.releaseHolds caps).2.eps = t.eps ∧
    ((t.releaseHolds caps).2.boxes mb).sendHolders.toNat =
      (t.boxes mb).sendHolders.toNat - t.sendCount mb caps ∧
    (((t.releaseHolds caps).2.boxes mb).waiter = (t.boxes mb).waiter ∨
      ((t.releaseHolds caps).2.boxes mb).waiter = none ∧ 0 < t.sendCount mb caps ∧
        (t.boxes mb).sendHolders.toNat ≤ t.sendCount mb caps) := by
  induction caps with
  | nil => exact fun t => ⟨rfl, rfl, .inl rfl⟩
  | cons slot rest ih =>
    intro t
    rw [sendCount_cons]
    cases slot with
    | none =>
      rw [sendCell_none, Nat.zero_add]
      exact ih t
    | some cap =>
      obtain ⟨heps, hone, hwait⟩ := releaseHold_holders t cap mb
      obtain ⟨heps', hrest, hwait'⟩ := ih (t.releaseHold cap).2
      have hcount := congrFun (sendCount_congr heps mb) rest
      rw [hcount, hone] at hrest hwait'
      simp only [releaseHolds]
      refine ⟨heps'.trans heps, by rw [hrest]; omega, ?_⟩
      rcases hwait' with hw' | ⟨hw', hpos, hle⟩
      · rw [hw']
        rcases hwait with hw | ⟨hw, hpos, hle⟩
        · exact .inl hw
        · exact .inr ⟨hw, by omega, by omega⟩
      · exact .inr ⟨hw', by omega, by omega⟩

theorem releaseHold_out (t : Table M E D) {cap : CapId} {w : TaskId}
    (h : (t.releaseHold cap).1 = some w) :
    ∃ mb, (t.boxes mb).waiter = some w ∧ ((t.releaseHold cap).2.boxes mb).waiter = none := by
  unfold releaseHold at h ⊢
  split at h
  · contradiction
  rename_i mb hl
  simp only at h ⊢
  split at h
  · rename_i hzero
    rw [if_pos hzero]
    exact ⟨mb, h, by simp [setBox]⟩
  · contradiction

/-- Every waiter that a release answers with is taken from its mailbox. -/
theorem releaseHolds_out (caps : List (Option CapId)) : ∀ (t : Table M E D) {w : TaskId},
    w ∈ (t.releaseHolds caps).1 →
    ∃ mb, (t.boxes mb).waiter = some w ∧ ((t.releaseHolds caps).2.boxes mb).waiter = none := by
  induction caps with
  | nil => nofun
  | cons slot rest ih =>
    intro t w hw
    cases slot with
    | none => exact ih t hw
    | some cap =>
      simp only [releaseHolds, List.mem_append, Option.mem_toList] at hw ⊢
      rcases hw with hw | hw
      · obtain ⟨mb, hwait, hgone⟩ := releaseHold_out t hw
        refine ⟨mb, hwait, ?_⟩
        rcases (releaseHolds_holders rest mb (t.releaseHold cap).2).2.2 with h | h
        · rw [h, hgone]
        · exact h.1
      obtain ⟨mb, hwait, hgone⟩ := ih (t.releaseHold cap).2 hw
      refine ⟨mb, ?_, hgone⟩
      rcases (releaseHold_holders t cap mb).2.2 with h | h
      · rw [← h, hwait]
      · rw [h.1] at hwait
        contradiction

/-- `park` refuses with `Cancelled` only when the counter is zero. -/
theorem park_cancelled {cap : CapId} {me : TaskId} (h : (t.park cap me).1 = .error .cancelled) :
    ∃ mb, t.lookup cap .RECV = some mb ∧ (t.boxes mb).sendHolders = 0 := by
  unfold park at h
  split at h
  · cases h
  rename_i mb hl
  simp only at h
  split at h
  · cases h
  split at h
  · cases h
  split at h
  · rename_i hzero
    simp only [Bool.and_eq_true, beq_iff_eq] at hzero
    exact ⟨mb, hl, hzero.2⟩
  · split at h <;> cases h

end HarborKernel.Ipc.Table
