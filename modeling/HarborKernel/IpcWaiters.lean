import HarborKernel.Ipc
import Mathlib.Tactic.Common

/-!
Who keeps track of a parked task.
`Keeps` says that a task recorded as waiter of a receivable mailbox is still
recorded after an operation, or was handed out by it. A table is linked when
every live endpoint names a live mailbox, so that creating a channel never
overwrites one in use.
-/

namespace HarborKernel.Ipc.Table

open Function Capability ReadyQueue

variable {M E D : ℕ} {t t' : Table M E D}

def Keeps (t t' : Table M E D) (out : List TaskId) : Prop :=
  ∀ cap mb w, t.lookup cap .RECV = some mb → (t.boxes mb).waiter = some w →
    (t'.lookup cap .RECV = some mb ∧ (t'.boxes mb).waiter = some w) ∨ w ∈ out

def handedOut {ε : Type} : Except ε (Option TaskId) → List TaskId
  | .ok (some id) => [id]
  | _ => []

structure Linked (t : Table M E D) : Prop where
  lt : ∀ i, i < E → (t.eps i).live = true → (t.eps i).mailbox.toNat < M
  live : ∀ i, i < E → (t.eps i).live = true → (t.boxes (t.eps i).mailbox.toNat).live = true

theorem lookup_congr (h : t'.eps = t.eps) (cap : CapId) (need : CapRights) :
    t'.lookup cap need = t.lookup cap need := by
  simp only [lookup, h]

variable {mb : ℕ} {cap : CapId} {need : CapRights} {out : List TaskId} {b : Mailbox}

theorem lookup_eq_some (h : t.lookup cap need = some mb) :
    cap.index.toNat < E ∧ (t.eps cap.index.toNat).live = true ∧
    (t.eps cap.index.toNat).generation = cap.generation ∧
    (t.eps cap.index.toNat).rights.contains need = true ∧
    (t.eps cap.index.toNat).mailbox.toNat = mb := by
  unfold lookup at h
  split at h
  · rename_i hlt
    simp only at h
    split at h
    · contradiction
    rename_i hlive
    split at h
    · contradiction
    rename_i hrights
    simp only [Bool.or_eq_true, Bool.not_eq_true', bne_iff_ne, ne_eq, not_or,
      Bool.not_eq_false, not_not] at hlive hrights
    exact ⟨hlt, hlive.1, hlive.2, hrights, Option.some.inj h⟩
  · contradiction

theorem lookup_of (hlt : cap.index.toNat < E) (hlive : (t.eps cap.index.toNat).live = true)
    (hgen : (t.eps cap.index.toNat).generation = cap.generation)
    (hrights : (t.eps cap.index.toNat).rights.contains need = true) :
    t.lookup cap need = some (t.eps cap.index.toNat).mailbox.toNat := by
  simp [lookup, hlt, hlive, hgen, hrights]

theorem Linked.lookup (h : Linked t) (hl : t.lookup cap need = some mb) :
    mb < M ∧ (t.boxes mb).live = true := by
  obtain ⟨hlt, hlive, -, -, rfl⟩ := lookup_eq_some hl
  exact ⟨h.lt _ hlt hlive, h.live _ hlt hlive⟩

theorem Keeps.of_eps (heps : t'.eps = t.eps)
    (h : ∀ mb w, (t.boxes mb).waiter = some w → (t'.boxes mb).waiter = some w ∨ w ∈ out) :
    Keeps t t' out := by
  intro cap mb w hl hw
  rcases h mb w hw with hkept | hout
  · exact .inl ⟨(lookup_congr heps cap _).trans hl, hkept⟩
  · exact .inr hout

theorem Keeps.refl (t : Table M E D) : Keeps t t [] := Keeps.of_eps rfl fun _ _ h => .inl h

/-- An operation that leaves endpoints and the liveness of mailboxes alone. -/
theorem Linked.of_same (h : Linked t) (heps : t'.eps = t.eps)
    (hlive : ∀ mb, (t.boxes mb).live = true → (t'.boxes mb).live = true) : Linked t' where
  lt := by rw [heps]; exact h.lt
  live := by
    rw [heps]
    intro i hi hl
    exact hlive _ (h.live i hi hl)

theorem Linked.refused {nextGen : UInt16} {refusals : Refusals} (h : Linked t) :
    Linked ({ t with nextGen, refusals } : Table M E D) := ⟨h.lt, h.live⟩

section

variable (h : ∀ w, (t.boxes mb).waiter = some w → b.waiter = some w ∨ w ∈ out)
include h

theorem setBox_waiter
    (i : ℕ) (w : TaskId) (hw : (t.boxes i).waiter = some w) :
    ((t.setBox mb b).boxes i).waiter = some w ∨ w ∈ out := by
  by_cases hi : i = mb
  · subst hi
    simpa [setBox] using h w hw
  · simpa [setBox, update_of_ne hi] using .inl hw

theorem setBox_keeps :
    Keeps t (t.setBox mb b) out := by
  refine Keeps.of_eps ?_ (setBox_waiter h)
  rfl

end

theorem setBox_linked (h : Linked t) (hb : (t.boxes mb).live = true → b.live = true) :
    Linked (t.setBox mb b) := by
  refine h.of_same rfl ?_
  intro i hi
  by_cases him : i = mb
  · subst him
    simpa [setBox] using hb hi
  · simpa [setBox, update_of_ne him] using hi

theorem tryRecv_spec (t : Table M E D) (cap : CapId) :
    Keeps t (t.tryRecv cap).2 [] ∧ (Linked t → Linked (t.tryRecv cap).2) := by
  unfold tryRecv
  split
  · exact ⟨Keeps.refl t, Linked.refused⟩
  simp only
  split
  · exact ⟨Keeps.refl t, Linked.refused⟩
  split
  · exact ⟨Keeps.refl t, Linked.refused⟩
  · exact ⟨setBox_keeps fun w hw => .inl hw, fun h => setBox_linked h id⟩

/-- Parking forgets nobody, and a parked task is recorded on the mailbox it receives from. -/
theorem park_spec (t : Table M E D) (cap : CapId) (me : TaskId) :
    Keeps t (t.park cap me).2 [] ∧ (Linked t → Linked (t.park cap me).2) ∧
    ((t.park cap me).1 = .ok none → ∃ mb, (t.park cap me).2.lookup cap .RECV = some mb ∧
      ((t.park cap me).2.boxes mb).waiter = some me) := by
  unfold park
  split
  · exact ⟨Keeps.refl t, Linked.refused, nofun⟩
  rename_i mb hl
  simp only
  split
  · exact ⟨Keeps.refl t, Linked.refused, nofun⟩
  split
  · exact ⟨setBox_keeps fun w hw => .inl hw, fun h => setBox_linked h id, nofun⟩
  split
  · exact ⟨Keeps.refl t, Linked.refused, nofun⟩
  split
  · exact ⟨Keeps.refl t, Linked.refused, nofun⟩
  rename_i hown
  refine ⟨setBox_keeps ?_, fun h => setBox_linked h id, ?_⟩
  · intro w hw
    left
    simp only [hw, Option.any_some, bne_iff_ne, ne_eq, not_not] at hown
    rw [hown]
  · intro _
    exact ⟨mb, (lookup_congr rfl cap _).trans hl, by simp [setBox]⟩

theorem send_spec (t : Table M E D) (cap : CapId) (msg : Message) :
    Keeps t (t.send cap msg).2 (handedOut (t.send cap msg).1) ∧
    (Linked t → Linked (t.send cap msg).2) := by
  unfold send
  split
  · exact ⟨Keeps.refl t, Linked.refused⟩
  rename_i mb hl
  simp only
  split
  · exact ⟨Keeps.refl t, Linked.refused⟩
  split
  · exact ⟨Keeps.refl t, Linked.refused⟩
  refine ⟨setBox_keeps ?_, fun h => setBox_linked h id⟩
  intro w hw
  exact .inr (by simp [hw, handedOut])

theorem clearWaiter_spec (t : Table M E D) (id : TaskId) :
    Keeps t (t.clearWaiter id) [id] ∧ (Linked t → Linked (t.clearWaiter id)) := by
  constructor
  · refine Keeps.of_eps ?_ ?_
    · rfl
    intro mb w hw
    by_cases hid : w = id
    · exact .inr (by simp [hid])
    left
    have hne : ¬ (t.boxes mb).waiter = some id := by
      rw [hw]
      simpa using hid
    simpa [clearWaiter, hne] using hw
  · intro h
    refine h.of_same rfl ?_
    intro mb hmb
    simp only [clearWaiter]
    split <;> exact hmb

theorem Keeps.trans {t1 t2 t3 : Table M E D} {out1 out2 : List TaskId} (h1 : Keeps t1 t2 out1)
    (h2 : Keeps t2 t3 out2) : Keeps t1 t3 (out1 ++ out2) := by
  intro cap mb w hl hw
  rcases h1 cap mb w hl hw with ⟨hl2, hw2⟩ | hout
  · rcases h2 cap mb w hl2 hw2 with hkept | hout
    · exact .inl hkept
    · exact .inr (List.mem_append_right _ hout)
  · exact .inr (List.mem_append_left _ hout)

theorem registerHolds_spec (caps : List (Option CapId)) : ∀ t : Table M E D,
    Keeps t (t.registerHolds caps) [] ∧ (Linked t → Linked (t.registerHolds caps)) := by
  induction caps with
  | nil => exact fun t => ⟨Keeps.refl t, id⟩
  | cons cap rest ih =>
    intro t
    cases cap with
    | none => exact ih t
    | some cap =>
      have hone : Keeps t (t.registerHold cap) [] ∧ (Linked t → Linked (t.registerHold cap)) := by
        unfold registerHold
        split
        · exact ⟨Keeps.refl t, id⟩
        · exact ⟨setBox_keeps fun w hw => .inl hw, fun h => setBox_linked h id⟩
      obtain ⟨hkeep, hlink⟩ := ih (t.registerHold cap)
      exact ⟨hone.1.trans hkeep, fun h => hlink (hone.2 h)⟩

theorem releaseHolds_spec (caps : List (Option CapId)) : ∀ t : Table M E D,
    Keeps t (t.releaseHolds caps).2 (t.releaseHolds caps).1 ∧
    (Linked t → Linked (t.releaseHolds caps).2) := by
  induction caps with
  | nil => exact fun t => ⟨Keeps.refl t, id⟩
  | cons cap rest ih =>
    intro t
    cases cap with
    | none => exact ih t
    | some cap =>
      have hone : Keeps t (t.releaseHold cap).2 (t.releaseHold cap).1.toList ∧
          (Linked t → Linked (t.releaseHold cap).2) := by
        unfold releaseHold
        split
        · exact ⟨Keeps.refl t, id⟩
        simp only
        split
        · refine ⟨setBox_keeps ?_, fun h => setBox_linked h id⟩
          intro w hw
          exact .inr (by simp [hw])
        · exact ⟨setBox_keeps fun w hw => .inl hw, fun h => setBox_linked h id⟩
      obtain ⟨hkeep, hlink⟩ := ih (t.releaseHold cap).2
      exact ⟨hone.1.trans hkeep, fun h => hlink (hone.2 h)⟩

/-- Revoking a channel hands out its waiter; other receivers keep their mailbox. -/
theorem revokeChannel_spec (t : Table M E D) (cap : CapId) :
    Keeps t (t.revokeChannel cap).2 (handedOut (t.revokeChannel cap).1) ∧
    (Linked t → Linked (t.revokeChannel cap).2) := by
  unfold revokeChannel
  split
  · simp only
    split
    · exact ⟨Keeps.refl t, Linked.refused⟩
    split
    · exact ⟨Keeps.refl t, Linked.refused⟩
    generalize (t.eps cap.index.toNat).mailbox.toNat = mb
    constructor
    · intro c k w hl hw
      by_cases hk : k = mb
      · subst hk
        exact .inr (by simp [hw, handedOut])
      left
      obtain ⟨hlt, hlive, hgen, hrights, hbox⟩ := lookup_eq_some hl
      refine ⟨?_, by simpa [update_of_ne hk] using hw⟩
      simp [lookup, hlt, hlive, hgen, hrights, hbox, hk]
    · intro h
      constructor
      · intro i hi hl
        simp only at hl ⊢
        split at hl
        · contradiction
        rename_i hne
        rw [if_neg hne]
        exact h.lt i hi hl
      · intro i hi hl
        simp only at hl ⊢
        split at hl
        · contradiction
        rename_i hne
        have hmb : (t.eps i).mailbox.toNat ≠ mb := by
          intro heq
          exact hne (by simp [hl, heq])
        rw [if_neg hne, update_of_ne hmb]
        exact h.live i hi hl
  · exact ⟨Keeps.refl t, Linked.refused⟩

theorem createChannel_cases (t : Table M E D) (autoReap : Bool) :
    (t.createChannelWithAutoReap autoReap).2 = t ∨
    ∃ mb sendEp recvEp generation, mb < M ∧ (t.boxes mb).live = false ∧
      (t.eps sendEp).live = false ∧ (t.eps recvEp).live = false ∧
      (t.createChannelWithAutoReap autoReap).2 = { t with
        nextGen := bumpGen t.nextGen
        boxes := update t.boxes mb { Mailbox.empty with live := true, autoReap }
        eps := update (update t.eps sendEp
          ⟨true, generation, .SEND, UInt8.ofNat mb⟩) recvEp
          ⟨true, generation, .RECV, UInt8.ofNat mb⟩ } := by
  unfold createChannelWithAutoReap
  split
  · exact .inl rfl
  rename_i mb hmb
  split
  · exact .inl rfl
  rename_i sendEp hsend
  split
  · exact .inl rfl
  rename_i recvEp hrecv
  have hmb' := List.find?_some hmb
  have hsend' := List.find?_some hsend
  have hrecv' := List.find?_some hrecv
  simp only [Bool.not_eq_true', Bool.and_eq_true] at hmb' hsend' hrecv'
  exact .inr ⟨mb, sendEp, recvEp, t.nextGen, List.mem_range.mp (List.mem_of_find?_eq_some hmb),
    hmb', hsend', hrecv'.1, rfl⟩

theorem createChannel_spec (hM : M ≤ 256) (h : Linked t) (autoReap : Bool) :
    Keeps t (t.createChannelWithAutoReap autoReap).2 [] ∧
    Linked (t.createChannelWithAutoReap autoReap).2 := by
  rcases createChannel_cases t autoReap with heq | ⟨mb, se, re, g, hmb, hdead, hse, hre, heq⟩
  · rw [heq]
    exact ⟨Keeps.refl t, h⟩
  rw [heq]
  have hnat : (UInt8.ofNat mb).toNat = mb := by
    rw [UInt8.toNat_ofNat']
    exact Nat.mod_eq_of_lt (by omega)
  constructor
  · intro cap k w hl hw
    left
    obtain ⟨hlt, hlive, hgen, hrights, hbox⟩ := lookup_eq_some hl
    have hne1 : cap.index.toNat ≠ re := by
      intro heq
      rw [heq, hre] at hlive
      contradiction
    have hne2 : cap.index.toNat ≠ se := by
      intro heq
      rw [heq, hse] at hlive
      contradiction
    have hk : k ≠ mb := by
      rintro rfl
      rw [(h.lookup hl).2] at hdead
      contradiction
    refine ⟨?_, by simpa [update_of_ne hk] using hw⟩
    simp [lookup, hlt, hlive, hgen, hrights, hbox, update_of_ne hne1,
      update_of_ne hne2]
  · -- the two new endpoints name the new mailbox, the others one that was live before
    have hcase : ∀ i, i < E → ((update (update t.eps se
        ⟨true, g, .SEND, UInt8.ofNat mb⟩) re ⟨true, g, .RECV, UInt8.ofNat mb⟩) i).live = true →
        ((update (update t.eps se ⟨true, g, .SEND, UInt8.ofNat mb⟩) re
          ⟨true, g, .RECV, UInt8.ofNat mb⟩) i).mailbox.toNat = mb ∨
        ((t.eps i).live = true ∧ (update (update t.eps se
          ⟨true, g, .SEND, UInt8.ofNat mb⟩) re ⟨true, g, .RECV, UInt8.ofNat mb⟩) i =
          t.eps i) := by
      intro i _ hl
      by_cases h1 : i = re
      · left
        rw [h1, update_self]
        exact hnat
      by_cases h2 : i = se
      · left
        rw [update_of_ne h1, h2, update_self]
        exact hnat
      · right
        simpa [update_of_ne h1, update_of_ne h2] using hl
    constructor
    · intro i hi hl
      rcases hcase i hi hl with heq | ⟨hlive, heq⟩
      · simp only [heq]
        exact hmb
      · simp only [heq]
        exact h.lt i hi hlive
    · intro i hi hl
      rcases hcase i hi hl with heq | ⟨hlive, heq⟩
      · simp [heq]
      have hold := h.live i hi hlive
      have hk : (t.eps i).mailbox.toNat ≠ mb := by
        intro hk
        rw [hk, hdead] at hold
        contradiction
      simp only [heq, update_of_ne hk]
      exact hold

theorem new_linked : Linked (new : Table M E D) := ⟨nofun, nofun⟩

end HarborKernel.Ipc.Table
