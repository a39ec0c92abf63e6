import HarborKernel.CapSlots
import HarborKernel.Transition
import Mathlib.Algebra.BigOperators.Group.Finset.Basic
import Mathlib.Algebra.Order.Group.Multiset
import Mathlib.Data.Finset.Prod

/-!
Capabilities in the rows of `capslots::Table` over any sequence of operations. A seed and an
install bring capabilities in, a drain takes a row out, and a transfer moves one capability of the
endpoint class. The contents of the table are counted as a multiset.
-/

namespace HarborKernel.CapMoves

open Function Capability CapSlots CapSlots.Table Transition

variable {T S : ℕ}

inductive Op
  | seed (task : ℕ) (caps : List (Option CapId))
  | install (task slot : ℕ) (cap : CapId)
  | transfer (fromTask fromSlot toTask toSlot : ℕ)
  | drain (task : ℕ)

def Op.rows : Op → List ℕ
  | seed task _ | install task _ _ | drain task => [task]
  | transfer fromTask _ toTask _ => [fromTask, toTask]

def Op.apply (t : Table T S) : Op → Table T S
  | seed task caps => t.seed task caps
  | install task slot cap => (t.install task slot cap).2
  | transfer fromTask fromSlot toTask toSlot => (t.transfer fromTask fromSlot toTask toSlot).2
  | drain task => (t.drain task).2

def Op.passes : Op → List CapId
  | seed _ caps => caps.filterMap id
  | install _ _ cap => [cap]
  | _ => []

def Op.clears (task : ℕ) : Op → Prop
  | seed row _ | drain row => row = task
  | _ => False

/-- A table with every capability that was passed to `seed` or `install`. -/
structure History (T S : ℕ) where
  table : Table T S
  passed : List CapId

namespace History

def Boot (h : History T S) : Prop := h.table = Table.new ∧ h.passed = []

def step (h : History T S) (op : Op) : Option (History T S) :=
  if ∀ row ∈ op.rows, row < T then some ⟨op.apply h.table, op.passes ++ h.passed⟩ else none

abbrev Reachable (h : History T S) : Prop := Reach Boot step (fun _ _ => True) h

end History

def held : Option CapId → Multiset CapId
  | none => 0
  | some cap => {cap}

def contents (t : Table T S) : Multiset CapId :=
  ∑ p ∈ Finset.range T ×ˢ Finset.range S, held (t.rows p.1 p.2)

theorem set_rows (t : Table T S) (task slot i k : ℕ) (v : Option CapId) :
    (t.set task slot v).rows i k = if i = task ∧ k = slot then v else t.rows i k := by
  simp only [Table.set, setRow]
  by_cases hi : i = task
  · subst hi
    rw [update_self]
    by_cases hk : k = slot
    · rw [hk, update_self, if_pos ⟨rfl, rfl⟩]
    · rw [update_of_ne hk, if_neg (fun h => hk h.2)]
  · rw [update_of_ne hi, if_neg (fun h => hi h.1)]

theorem contents_set (t : Table T S) {task slot : ℕ} (htask : task < T) (hslot : slot < S)
    (v : Option CapId) :
    contents (t.set task slot v) + held (t.rows task slot) = contents t + held v := by
  have hmem : (task, slot) ∈ Finset.range T ×ˢ Finset.range S :=
    Finset.mem_product.2 ⟨Finset.mem_range.2 htask, Finset.mem_range.2 hslot⟩
  have hrest : ∑ p ∈ (Finset.range T ×ˢ Finset.range S).erase (task, slot),
      held ((t.set task slot v).rows p.1 p.2) =
      ∑ p ∈ (Finset.range T ×ˢ Finset.range S).erase (task, slot), held (t.rows p.1 p.2) := by
    apply Finset.sum_congr rfl
    intro p hp
    have hne := (Finset.mem_erase.1 hp).1
    rw [set_rows, if_neg (fun h => hne (Prod.ext h.1 h.2))]
  unfold contents
  rw [← Finset.sum_erase_add _ _ hmem, hrest, ← Finset.sum_erase_add _ (fun p =>
    held (t.rows p.1 p.2)) hmem, set_rows, if_pos ⟨rfl, rfl⟩]
  exact add_right_comm _ _ _

/-- The condition under which a transfer is accepted. -/
def Transferable (t : Table T S) (fromTask fromSlot toTask toSlot : ℕ) : Prop :=
  fromSlot < S ∧ toSlot < S ∧ ((fromTask = toTask ∧ fromSlot = toSlot) ∨
    ((∃ cap payload, t.rows fromTask fromSlot = some cap ∧ cap.classify = .endpoint payload) ∧
      t.rows toTask toSlot = none))

theorem isEndpoint_iff (cap : CapId) :
    isEndpoint cap = true ↔ ∃ payload, cap.classify = .endpoint payload := by
  unfold isEndpoint
  cases cap.classify with
  | endpoint payload => exact ⟨fun _ => ⟨payload, rfl⟩, fun _ => rfl⟩
  | task payload | irq payload | invalid => exact ⟨nofun, nofun⟩

section

variable (t : Table T S)
include t

/-- The outcomes of a transfer: a refusal, a transfer to itself, or a move. -/
theorem transfer_cases (fromTask fromSlot toTask toSlot : ℕ) :
    (∃ e, t.transfer fromTask fromSlot toTask toSlot = (.error e, t) ∧
      ¬ Transferable t fromTask fromSlot toTask toSlot) ∨
    (t.transfer fromTask fromSlot toTask toSlot = (.ok (), t) ∧
      Transferable t fromTask fromSlot toTask toSlot) ∨
    ∃ cap, fromSlot < S ∧ toSlot < S ∧ ¬ (fromTask = toTask ∧ fromSlot = toSlot) ∧
      t.rows fromTask fromSlot = some cap ∧ isEndpoint cap = true ∧
      t.rows toTask toSlot = none ∧ t.transfer fromTask fromSlot toTask toSlot =
        (.ok (), (t.set fromTask fromSlot none).set toTask toSlot (some cap)) := by
  unfold transfer transferBounds
  by_cases hfrom : S ≤ fromSlot
  · exact .inl ⟨_, by rw [if_pos hfrom], fun h => absurd h.1 (Nat.not_lt.2 hfrom)⟩
  rw [if_neg hfrom]
  by_cases hto : S ≤ toSlot
  · exact .inl ⟨_, by rw [if_pos hto], fun h => absurd h.2.1 (Nat.not_lt.2 hto)⟩
  rw [if_neg hto]
  rw [Nat.not_le] at hfrom hto
  by_cases hself : fromTask = toTask ∧ fromSlot = toSlot
  · exact .inr (.inl ⟨if_pos hself, hfrom, hto, .inl hself⟩)
  simp only [if_neg hself]
  cases hsource : t.rows fromTask fromSlot with
  | none =>
    refine .inl ⟨_, rfl, ?_⟩
    rintro ⟨-, -, h | ⟨⟨cap, _, hcap, -⟩, -⟩⟩
    · exact hself h
    · rw [hsource] at hcap
      contradiction
  | some cap =>
    cases hclass : isEndpoint cap with
    | false =>
      refine .inl ⟨.untransferable, by simp [hclass], ?_⟩
      rintro ⟨-, -, h | ⟨⟨other, payload, hother, hpayload⟩, -⟩⟩
      · exact hself h
      cases hsource.symm.trans hother
      rw [(isEndpoint_iff cap).2 ⟨payload, hpayload⟩] at hclass
      contradiction
    | true =>
      cases hdest : t.rows toTask toSlot with
      | some other =>
        refine .inl ⟨.toSlotFull, by simp [hclass], ?_⟩
        rintro ⟨-, -, h | ⟨-, hnone⟩⟩
        · exact hself h
        · rw [hdest] at hnone
          contradiction
      | none =>
        exact .inr (.inr ⟨cap, hfrom, hto, hself, rfl, hclass, rfl, by simp [hclass]⟩)

theorem transfer_ok_iff (fromTask fromSlot toTask toSlot : ℕ) :
    (t.transfer fromTask fromSlot toTask toSlot).1 = .ok () ↔
      Transferable t fromTask fromSlot toTask toSlot := by
  rcases transfer_cases t fromTask fromSlot toTask toSlot with
    ⟨e, heq, hnot⟩ | ⟨heq, hyes⟩ | ⟨cap, hfrom, hto, -, hsource, hclass, hdest, heq⟩
  · rw [heq]
    exact ⟨nofun, fun h => absurd h hnot⟩
  · rw [heq]
    exact ⟨fun _ => hyes, fun _ => rfl⟩
  · obtain ⟨payload, hpayload⟩ := (isEndpoint_iff cap).1 hclass
    rw [heq]
    exact ⟨fun _ => ⟨hfrom, hto, .inr ⟨⟨cap, payload, hsource, hpayload⟩, hdest⟩⟩, fun _ => rfl⟩

variable {fromTask toTask i k : ℕ} {cap : CapId}

theorem transfer_error {fromSlot toSlot : ℕ} {e : TransferError}
    (h : (t.transfer fromTask fromSlot toTask toSlot).1 = .error e) :
    (t.transfer fromTask fromSlot toTask toSlot).2 = t := by
  rcases transfer_cases t fromTask fromSlot toTask toSlot with
    ⟨e', heq, -⟩ | ⟨heq, -⟩ | ⟨cap, -, -, -, -, -, -, heq⟩
  · rw [heq]
  · rw [heq]
  · rw [heq] at h
    contradiction

theorem transfer_contents (hfrom : fromTask < T) (hto : toTask < T) (fromSlot toSlot : ℕ) :
    contents (t.transfer fromTask fromSlot toTask toSlot).2 = contents t := by
  rcases transfer_cases t fromTask fromSlot toTask toSlot with
    ⟨e, heq, -⟩ | ⟨heq, -⟩ | ⟨cap, hfs, hts, hne, hsource, -, hdest, heq⟩
  · rw [heq]
  · rw [heq]
  · have hout := contents_set t hfrom hfs none
    have hin := contents_set (t.set fromTask fromSlot none) hto hts (some cap)
    have hfree : (t.set fromTask fromSlot none).rows toTask toSlot = none := by
      rw [set_rows, if_neg (fun h => hne ⟨h.1.symm, h.2.symm⟩), hdest]
    rw [hsource] at hout
    rw [hfree] at hin
    rw [heq]
    simpa only [held, add_zero] using hin.trans hout

theorem install_error {task slot : ℕ} (h : (t.install task slot cap).1 = false) :
    (t.install task slot cap).2 = t := by
  unfold install at h ⊢
  by_cases hfree : task < T ∧ slot < S ∧ t.rows task slot = none
  · rw [if_pos hfree] at h
    contradiction
  · rw [if_neg hfree]

/-- What stands in a slot after an operation was there, was passed to the operation, or was moved
by it from another slot. -/
theorem apply_rows (op : Op) (h : (op.apply t).rows i k = some cap) :
    t.rows i k = some cap ∨ cap ∈ op.passes ∨ ∃ j l, t.rows j l = some cap := by
  cases op with
  | seed task caps =>
    simp only [Op.apply, seed] at h
    split at h
    · simp only [setRow] at h
      by_cases hi : i = task
      · rw [hi, update_self] at h
        right
        left
        split at h
        · have hfound := Option.join_eq_some_iff.1 h
          exact List.mem_filterMap.2 ⟨some cap, List.mem_of_getElem? hfound, rfl⟩
        · contradiction
      · rw [update_of_ne hi] at h
        exact .inl h
    · exact .inl h
  | install task slot new =>
    simp only [Op.apply, install] at h
    split at h
    · rw [set_rows] at h
      split at h
      · cases h
        exact .inr (.inl (List.mem_singleton.2 rfl))
      · exact .inl h
    · exact .inl h
  | transfer fromTask fromSlot toTask toSlot =>
    simp only [Op.apply] at h
    rcases transfer_cases t fromTask fromSlot toTask toSlot with
      ⟨e, heq, -⟩ | ⟨heq, -⟩ | ⟨moved, -, -, -, hsource, -, -, heq⟩
    · rw [heq] at h
      exact .inl h
    · rw [heq] at h
      exact .inl h
    · rw [heq, set_rows] at h
      split at h
      · cases h
        exact .inr (.inr ⟨fromTask, fromSlot, hsource⟩)
      rw [set_rows] at h
      split at h
      · contradiction
      · exact .inl h
  | drain task =>
    simp only [Op.apply, drain] at h
    split at h
    · simp only [setRow] at h
      by_cases hi : i = task
      · rw [hi, update_self] at h
        contradiction
      · rw [update_of_ne hi] at h
        exact .inl h
    · exact .inl h

theorem stays_unless_cleared (op : Op) (h : t.rows i k = some cap)
    (hclass : ∀ payload, cap.classify ≠ .endpoint payload) (hclear : ¬ op.clears i) :
    (op.apply t).rows i k = some cap := by
  cases op with
  | seed task caps =>
    simp only [Op.apply, seed]
    split
    · have hi : i ≠ task := fun heq => hclear heq.symm
      simp only [setRow, update_of_ne hi]
      exact h
    · exact h
  | install task slot new =>
    simp only [Op.apply, install]
    split
    · rename_i hfree
      rw [set_rows, if_neg]
      · exact h
      rintro ⟨rfl, rfl⟩
      rw [hfree.2.2] at h
      contradiction
    · exact h
  | transfer fromTask fromSlot toTask toSlot =>
    simp only [Op.apply]
    rcases transfer_cases t fromTask fromSlot toTask toSlot with
      ⟨e, heq, -⟩ | ⟨heq, -⟩ | ⟨moved, -, -, -, hsource, hmoved, hdest, heq⟩
    · rw [heq]
      exact h
    · rw [heq]
      exact h
    · rw [heq, set_rows, if_neg, set_rows, if_neg]
      · exact h
      · rintro ⟨rfl, rfl⟩
        cases h.symm.trans hsource
        obtain ⟨payload, hpayload⟩ := (isEndpoint_iff cap).1 hmoved
        exact hclass payload hpayload
      · rintro ⟨rfl, rfl⟩
        rw [hdest] at h
        contradiction
  | drain task =>
    simp only [Op.apply, drain]
    split
    · have hi : i ≠ task := fun heq => hclear heq.symm
      simp only [setRow, update_of_ne hi]
      exact h
    · exact h

end

theorem History.Reachable.passed {h : History T S} (hr : h.Reachable) {i k : ℕ} {cap : CapId}
    (hcap : h.table.rows i k = some cap) : cap ∈ h.passed := by
  have hinv : ∀ i k cap, h.table.rows i k = some cap → cap ∈ h.passed := by
    refine hr.invariant (I := fun h => ∀ i k cap, h.table.rows i k = some cap → cap ∈ h.passed)
      ?_ ?_
    · rintro h ⟨htable, -⟩ i k cap hcap
      rw [htable] at hcap
      contradiction
    intro h op h' hold _ hs i k cap hcap
    unfold step at hs
    split at hs
    · cases hs
      rcases apply_rows h.table op hcap with hthere | hpassed | ⟨j, l, helse⟩
      · exact List.mem_append_right _ (hold i k cap hthere)
      · exact List.mem_append_left _ hpassed
      · exact List.mem_append_right _ (hold j l cap helse)
    · contradiction
  exact hinv i k cap hcap

/-- The operations on the rows make no authority and lose none but by seed and drain. -/
theorem moves_conserve_authority (T S : ℕ) (h : History T S) (hr : h.Reachable) :
    (∀ i k cap, h.table.rows i k = some cap → cap ∈ h.passed) ∧
    (∀ (op : Op) i k cap, h.table.rows i k = some cap →
      (∀ payload, cap.classify ≠ .endpoint payload) → ¬ op.clears i →
        (op.apply h.table).rows i k = some cap) ∧
    (∀ fromTask fromSlot toTask toSlot, fromTask < T → toTask < T →
      contents (h.table.transfer fromTask fromSlot toTask toSlot).2 = contents h.table) ∧
    (∀ fromTask fromSlot toTask toSlot e,
      (h.table.transfer fromTask fromSlot toTask toSlot).1 = .error e →
        (h.table.transfer fromTask fromSlot toTask toSlot).2 = h.table) ∧
    (∀ task slot cap, (h.table.install task slot cap).1 = false →
      (h.table.install task slot cap).2 = h.table) ∧
    ∀ fromTask fromSlot toTask toSlot,
      (h.table.transfer fromTask fromSlot toTask toSlot).1 = .ok () ↔
        Transferable h.table fromTask fromSlot toTask toSlot := by
  refine ⟨fun i k cap hcap => hr.passed hcap, ?_, ?_, ?_, ?_, ?_⟩
  · intro op i k cap hcap hclass hclear
    exact stays_unless_cleared h.table op hcap hclass hclear
  · intro fromTask fromSlot toTask toSlot hfrom hto
    exact transfer_contents h.table hfrom hto fromSlot toSlot
  · intro fromTask fromSlot toTask toSlot e he
    exact transfer_error h.table he
  · intro task slot cap hfalse
    exact install_error h.table hfalse
  · intro fromTask fromSlot toTask toSlot
    exact transfer_ok_iff h.table fromTask fromSlot toTask toSlot

/-- An endpoint moves between two rows and a task-cap does not. -/
theorem moves_conserve_authority_two : ∃ h : History 2 2, h.Reachable ∧
    (h.table.transfer 0 0 1 0).1 = .ok () ∧ (h.table.transfer 0 1 1 0).1 = .error .untransferable ∧
    contents (h.table.transfer 0 0 1 0).2 = contents h.table := by
  have hreach : History.Reachable (T := 2) (S := 2) _ :=
    Reach.run [.seed 0 [some (CapId.new 1 1), some (CapId.new taskBand 1)]]
      (Reach.start (s := ⟨Table.new, []⟩) ⟨rfl, rfl⟩) (fun _ _ _ => trivial) rfl
  have hspec := moves_conserve_authority 2 2 _ hreach
  exact ⟨_, hreach, by decide +kernel, by decide +kernel,
    hspec.2.2.1 0 0 1 0 (by decide) (by decide)⟩

end HarborKernel.CapMoves
