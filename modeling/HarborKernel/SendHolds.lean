import HarborKernel.AutoReap
import HarborKernel.ChannelRuns

/-!
The counter of send holds when every call runs to its end before the next one starts.
A row is filled together with the registration of what it holds and drained together
with its release, so the counter of a mailbox is the number of slots that resolve to
its send end; the waiter of an ephemeral channel is cancelled by the exit that takes
the last of them. A slot that holds the number of a channel to come is never registered,
so no creation may give out a number that a row already holds.
-/

namespace HarborKernel.SendHolds

open Function Capability ReadyQueue Ipc LockSections Transition Channels

variable {M E D T S : ℕ}

private theorem releaseHold_box (t : Table M E D) (cap : CapId) (mb : ℕ) :
    ((t.releaseHold cap).2.boxes mb).autoReap = (t.boxes mb).autoReap ∧
    ((t.lookup cap .SEND = some mb ∧ (t.boxes mb).sendHolders.toNat ≤ 1 ∧
        (t.boxes mb).autoReap = true ∧ (t.releaseHold cap).1 = (t.boxes mb).waiter ∧
        ((t.releaseHold cap).2.boxes mb).waiter = none) ∨
      (¬ (t.lookup cap .SEND = some mb ∧ (t.boxes mb).sendHolders.toNat ≤ 1 ∧
        (t.boxes mb).autoReap = true) ∧
        ((t.releaseHold cap).2.boxes mb).waiter = (t.boxes mb).waiter)) := by
  have hsub := Table.satSub_toNat (t.boxes mb).sendHolders
  have hzero : Table.satSub (t.boxes mb).sendHolders = 0 ↔ (t.boxes mb).sendHolders.toNat ≤ 1 := by
    rw [← UInt32.toNat_inj, hsub]
    exact Nat.sub_eq_zero_iff_le
  unfold Table.releaseHold
  cases hl : t.lookup cap .SEND with
  | none => simp
  | some mb' =>
    by_cases hmb : mb' = mb
    · subst hmb
      simp only [hzero]
      split
      · rename_i hfire
        refine ⟨by simp [Table.setBox], .inl ⟨trivial, hfire.1, hfire.2, rfl, ?_⟩⟩
        simp [Table.setBox]
      rename_i hfire
      refine ⟨by simp [Table.setBox], .inr ⟨fun h => hfire h.2, ?_⟩⟩
      simp [Table.setBox]
    · have hne : mb ≠ mb' := Ne.symm hmb
      have hno : ¬ (some mb' = some mb ∧ (t.boxes mb).sendHolders.toNat ≤ 1 ∧
          (t.boxes mb).autoReap = true) := fun h => hmb (Option.some.inj h.1)
      simp only
      split
      · exact ⟨by simp [Table.setBox, update_of_ne hne],
          .inr ⟨hno, by simp [Table.setBox, update_of_ne hne]⟩⟩
      · exact ⟨by simp [Table.setBox, update_of_ne hne],
          .inr ⟨hno, by simp [Table.setBox, update_of_ne hne]⟩⟩

private theorem releaseHold_quiet {t : Table M E D} {cap : CapId}
    (h : ∀ mb, ¬ (t.lookup cap .SEND = some mb ∧ (t.boxes mb).sendHolders.toNat ≤ 1 ∧
      (t.boxes mb).autoReap = true)) : (t.releaseHold cap).1 = none := by
  unfold Table.releaseHold
  cases hl : t.lookup cap .SEND with
  | none => rfl
  | some mb =>
    simp only
    split
    · rename_i hfire
      have hsub := Table.satSub_toNat (t.boxes mb).sendHolders
      rw [hfire.1] at hsub
      simp only [UInt32.toNat_zero] at hsub
      exact absurd ⟨hl, by omega, hfire.2⟩ (h mb)
    · rfl

def Fires (t : Table M E D) (caps : List (Option CapId)) (mb : ℕ) : Prop :=
  (t.boxes mb).autoReap = true ∧ (t.boxes mb).waiter ≠ none ∧ 0 < t.sendCount mb caps ∧
    (t.boxes mb).sendHolders.toNat ≤ t.sendCount mb caps

theorem releaseHold_cases (t : Table M E D) (cap : CapId) :
    (∃ m0 w, t.lookup cap .SEND = some m0 ∧ (t.boxes m0).sendHolders.toNat ≤ 1 ∧
      (t.boxes m0).autoReap = true ∧ (t.boxes m0).waiter = some w ∧
      (t.releaseHold cap).1 = some w ∧ ((t.releaseHold cap).2.boxes m0).waiter = none ∧
      ∀ mb, mb ≠ m0 → t.sendCell mb (some cap) = 0 ∧
        ((t.releaseHold cap).2.boxes mb).waiter = (t.boxes mb).waiter) ∨
    ((t.releaseHold cap).1 = none ∧
      (∀ mb, ((t.releaseHold cap).2.boxes mb).waiter = (t.boxes mb).waiter) ∧
      ∀ mb, t.lookup cap .SEND = some mb → (t.boxes mb).autoReap = true →
        (t.boxes mb).waiter ≠ none → 2 ≤ (t.boxes mb).sendHolders.toNat) := by
  by_cases hfire : ∃ mb, (t.lookup cap .SEND = some mb ∧
      (t.boxes mb).sendHolders.toNat ≤ 1 ∧ (t.boxes mb).autoReap = true) ∧
      (t.boxes mb).waiter ≠ none
  · obtain ⟨m0, ⟨hl, hle, hreap⟩, hw⟩ := hfire
    obtain ⟨w, hw⟩ := Option.ne_none_iff_exists'.1 hw
    rcases (releaseHold_box t cap m0).2 with hyes | hno
    · refine .inl ⟨m0, w, hl, hle, hreap, hw, hyes.2.2.2.1.trans hw, hyes.2.2.2.2, ?_⟩
      intro mb hne
      have hl' : t.lookup cap .SEND ≠ some mb := by
        rw [hl]
        exact fun h => hne (Option.some.inj h).symm
      refine ⟨by rw [t.sendCell_some mb cap, if_neg hl'], ?_⟩
      rcases (releaseHold_box t cap mb).2 with hyes | hno
      · exact absurd hyes.1 hl'
      · exact hno.2
    · exact absurd ⟨hl, hle, hreap⟩ hno.1
  have hsame : ∀ mb, ((t.releaseHold cap).2.boxes mb).waiter = (t.boxes mb).waiter := by
    intro mb
    rcases (releaseHold_box t cap mb).2 with ⟨hl, hle, hreap, -, hgone⟩ | hno
    · rw [hgone]
      by_contra hw
      exact hfire ⟨mb, ⟨hl, hle, hreap⟩, fun hnone => hw hnone.symm⟩
    · exact hno.2
  refine .inr ⟨?_, hsame, ?_⟩
  · by_cases hany : ∃ mb, t.lookup cap .SEND = some mb ∧
        (t.boxes mb).sendHolders.toNat ≤ 1 ∧ (t.boxes mb).autoReap = true
    · obtain ⟨mb, hmb⟩ := hany
      rcases (releaseHold_box t cap mb).2 with hyes | hno
      · rw [hyes.2.2.2.1, ← hsame mb, hyes.2.2.2.2]
      · exact absurd hmb hno.1
    · exact releaseHold_quiet fun mb hmb => hany ⟨mb, hmb⟩
  · intro mb hl hreap hw
    by_contra hfew
    exact hfire ⟨mb, ⟨hl, by omega, hreap⟩, hw⟩

theorem releaseHolds_fires (caps : List (Option CapId)) : ∀ t : Table M E D,
    ∃ mbs : List ℕ, mbs.Nodup ∧ (∀ mb, mb ∈ mbs ↔ Fires t caps mb) ∧
      (t.releaseHolds caps).1 = mbs.filterMap (fun mb => (t.boxes mb).waiter) ∧
      ∀ mb, ((t.releaseHolds caps).2.boxes mb).waiter =
        if mb ∈ mbs then none else (t.boxes mb).waiter := by
  induction caps with
  | nil =>
    intro t
    refine ⟨[], List.nodup_nil, fun mb => ⟨by simp, fun h => ?_⟩, rfl, fun mb => ?_⟩
    · exact absurd h.2.2.1 (Nat.lt_irrefl 0)
    · simp [Table.releaseHolds]
  | cons slot rest ih =>
    intro t
    cases slot with
    | none =>
      obtain ⟨mbs, hnodup, hmem, hout, hwait⟩ := ih t
      refine ⟨mbs, hnodup, fun mb => ?_, hout, hwait⟩
      rw [hmem mb, Fires, Fires, Table.sendCount_cons, Table.sendCell_none, Nat.zero_add]
    | some cap =>
      obtain ⟨mbs, hnodup, hmem, hout, hwait⟩ := ih (t.releaseHold cap).2
      -- a mailbox that fires at a later slot of the list, in terms of the state before
      have hlater : ∀ mb, mb ∈ mbs ↔ (t.boxes mb).autoReap = true ∧
          ((t.releaseHold cap).2.boxes mb).waiter ≠ none ∧ 0 < t.sendCount mb rest ∧
          (t.boxes mb).sendHolders.toNat - t.sendCell mb (some cap) ≤ t.sendCount mb rest := by
        intro mb
        rw [hmem mb, Fires, (releaseHold_box t cap mb).1,
          congrFun (Table.sendCount_congr (Table.releaseHold_holders t cap mb).1 mb) rest,
          (Table.releaseHold_holders t cap mb).2.1]
      simp only [Table.releaseHolds, hout]
      rcases releaseHold_cases t cap with ⟨m0, w, hl, hle, hreap, hw, hfst, hgone, hother⟩ |
        ⟨hfst, hsame, hmany⟩
      · have hfresh : m0 ∉ mbs := fun hm => ((hlater m0).1 hm).2.1 hgone
        refine ⟨m0 :: mbs, List.nodup_cons.2 ⟨hfresh, hnodup⟩, fun mb => ?_, ?_, fun mb => ?_⟩
        · rw [List.mem_cons, hlater mb, Fires, Table.sendCount_cons]
          by_cases hmb : mb = m0
          · subst hmb
            rw [t.sendCell_some mb cap, if_pos hl]
            exact ⟨fun _ => ⟨hreap, by simp [hw], by omega, by omega⟩, fun _ => .inl rfl⟩
          obtain ⟨hzero, hkept⟩ := hother mb hmb
          rw [hzero, hkept, Nat.sub_zero, Nat.zero_add]
          exact ⟨fun h => h.resolve_left hmb, .inr⟩
        · rw [hfst, List.filterMap_cons, hw]
          simp only [Option.toList_some, List.singleton_append, List.cons.injEq, true_and]
          refine List.filterMap_congr fun mb hmb => (hother mb ?_).2
          exact fun heq => hfresh (heq ▸ hmb)
        · rw [hwait mb]
          by_cases hmb : mb = m0
          · subst hmb
            simp [hgone]
          · simp only [List.mem_cons, hmb, false_or, (hother mb hmb).2]
      · refine ⟨mbs, hnodup, fun mb => ?_, ?_, fun mb => ?_⟩
        · rw [hlater mb, hsame mb, Fires, Table.sendCount_cons, t.sendCell_some mb cap]
          by_cases hl : t.lookup cap .SEND = some mb
          · rw [if_pos hl]
            constructor
            · intro h
              have := hmany mb hl h.1 h.2.1
              exact ⟨h.1, h.2.1, by omega, by omega⟩
            · intro h
              have := hmany mb hl h.1 h.2.1
              exact ⟨h.1, h.2.1, by omega, by omega⟩
          · rw [if_neg hl, Nat.sub_zero, Nat.zero_add]
        · simp only [hfst, Option.toList_none, List.nil_append, hsame]
        · rw [hwait mb, hsame mb]

/-- A live endpoint names a live mailbox, also where the number of the mailbox does not fit its
byte: the mailboxes below a newly taken one are all live. -/
theorem create_linked {t : Table M E D} (h : t.Linked) (autoReap : Bool) :
    (t.createChannelWithAutoReap autoReap).2.Linked := by
  rcases create_cases t autoReap with ⟨err, herr⟩ |
    ⟨mb, sendEp, recvEp, ⟨hlt, hfree, hbelow⟩, -, -, -, hok⟩
  · rw [herr]
    exact h
  rw [hok]
  have hnew : (UInt8.ofNat mb).toNat < M ∧ ((update t.boxes mb
      { Mailbox.empty with live := true, autoReap } : ℕ → Mailbox)
      (UInt8.ofNat mb).toNat).live = true := by
    rw [UInt8.toNat_ofNat']
    have hle : mb % 2 ^ 8 ≤ mb := Nat.mod_le ..
    refine ⟨by omega, ?_⟩
    by_cases heq : mb % 2 ^ 8 = mb
    · rw [heq, update_self]
    · rw [update_of_ne heq]
      exact hbelow (mb % 2 ^ 8) (by omega)
  have hold : ∀ i, i < E → (t.eps i).live = true → (t.eps i).mailbox.toNat < M ∧
      ((update t.boxes mb { Mailbox.empty with live := true, autoReap } :
        ℕ → Mailbox) (t.eps i).mailbox.toNat).live = true := by
    intro i hi hl
    refine ⟨h.lt i hi hl, ?_⟩
    by_cases heq : (t.eps i).mailbox.toNat = mb
    · rw [heq, update_self]
    · rw [update_of_ne heq]
      exact h.live i hi hl
  have hall : ∀ i, i < E → ((update (update t.eps sendEp
      ⟨true, t.nextGen, .SEND, UInt8.ofNat mb⟩) recvEp
      ⟨true, t.nextGen, .RECV, UInt8.ofNat mb⟩) i).live = true →
      ((update (update t.eps sendEp
        ⟨true, t.nextGen, .SEND, UInt8.ofNat mb⟩) recvEp
        ⟨true, t.nextGen, .RECV, UInt8.ofNat mb⟩) i).mailbox.toNat < M ∧
      ((update t.boxes mb { Mailbox.empty with live := true, autoReap } :
        ℕ → Mailbox) ((update (update t.eps sendEp
        ⟨true, t.nextGen, .SEND, UInt8.ofNat mb⟩) recvEp
        ⟨true, t.nextGen, .RECV, UInt8.ofNat mb⟩) i).mailbox.toNat).live = true := by
    intro i hi hl
    by_cases hir : i = recvEp
    · rw [hir, update_self]
      exact hnew
    rw [update_of_ne hir] at hl ⊢
    by_cases his : i = sendEp
    · rw [his, update_self]
      exact hnew
    · rw [update_of_ne his] at hl ⊢
      exact hold i hi hl
  exact ⟨fun i hi hl => (hall i hi hl).1, fun i hi hl => (hall i hi hl).2⟩

/-- The channels, the rows of the tasks and the names given out so far. -/
structure Ledger (M E D T S : ℕ) where
  table : Table M E D
  caps : CapSlots.Table T S
  made : List Channel

/-- Complete operations: where rows and counters change together, both changes are made. -/
inductive Op
  | create (autoReap : Bool)
  | revoke (cap : CapId)
  | spawn (row : ℕ) (held : List (Option CapId))
  | install (row slot : ℕ) (cap : CapId)
  | transfer (fromRow fromSlot toRow toSlot : ℕ)
  | exit (row : ℕ)
  | send (cap : CapId) (msg : Message)
  | tryRecv (cap : CapId)
  | park (cap : CapId) (me : TaskId)

namespace Ledger

def start : Ledger M E D T S := ⟨Table.new, CapSlots.Table.new, []⟩

def created (s : Ledger M E D T S) : Except CreateError Channel × Table M E D →
    Ledger M E D T S
  | (.ok c, t) => { s with table := t, made := s.made ++ [c] }
  | (.error _, t) => { s with table := t }

def exit (s : Ledger M E D T S) (row : ℕ) : List TaskId × Ledger M E D T S :=
  let (held, caps) := s.caps.drain row
  let (out, table) := s.table.releaseHolds held
  (out, { s with table, caps })

def step (s : Ledger M E D T S) : Op → Option (Ledger M E D T S)
  | .create autoReap => some (s.created (s.table.createChannelWithAutoReap autoReap))
  | .revoke cap => some { s with table := (s.table.revokeChannel cap).2 }
  | .spawn row held => some { s with
      table := s.table.registerHolds held, caps := s.caps.seed row held }
  | .install row slot cap =>
    let (ok, caps) := s.caps.install row slot cap
    some { s with table := if ok then s.table.registerHolds [some cap] else s.table, caps }
  | .transfer fromRow fromSlot toRow toSlot => some { s with
      caps := (s.caps.transfer fromRow fromSlot toRow toSlot).2 }
  | .exit row => some (s.exit row).2
  | .send cap msg => some { s with table := (s.table.send cap msg).2 }
  | .tryRecv cap => some { s with table := (s.table.tryRecv cap).2 }
  | .park cap me => some { s with table := (s.table.park cap me).2 }

def senders (s : Ledger M E D T S) (mb : ℕ) : ℕ := rowTotal s.table s.caps mb

/-- Rows exist, a spawn finds its row empty and fills at most a row, and there are fewer than 2^32
holders. -/
def Sized (s : Ledger M E D T S) : Op → Prop
  | .spawn row held => row < T ∧ (∀ k, s.caps.rows row k = none) ∧ held.length ≤ S ∧
      ∀ mb, s.senders mb + s.table.sendCount mb held < 2 ^ 32
  | .install _ _ cap => ∀ mb, s.senders mb + s.table.sendCell mb (some cap) < 2 ^ 32
  | .transfer fromRow _ toRow _ => fromRow < T ∧ toRow < T
  | .exit row => row < T
  | _ => True

/-- No row holds the send end of a channel before the channel is created. -/
def Genuine (s : Ledger M E D T S) : Op → Prop
  | .create autoReap => ∀ c t, s.table.createChannelWithAutoReap autoReap = (.ok c, t) →
      ∀ i k, s.caps.rows i k ≠ some c.send
  | _ => True

structure Balanced (s : Ledger M E D T S) : Prop where
  linked : s.table.Linked
  counts : ∀ mb, (s.table.boxes mb).sendHolders.toNat = s.senders mb

section Rows

variable {caps : CapSlots.Table T S}

variable {i k row mb : ℕ} {cap : CapId} {t : Table M E D}

theorem set_mem {i' k' : ℕ} {slot : Option CapId} (h : (caps.set i k slot).rows i' k' = some cap) :
    slot = some cap ∨ caps.rows i' k' = some cap := by
  simp only [CapSlots.Table.set, CapSlots.Table.setRow] at h
  by_cases hi : i' = i
  · subst hi
    rw [update_self] at h
    by_cases hk : k' = k
    · subst hk
      rw [update_self] at h
      exact .inl h
    · rw [update_of_ne hk] at h
      exact .inr h
  · rw [update_of_ne hi] at h
    exact .inr h

theorem seed_mem {held : List (Option CapId)} (h : (caps.seed row held).rows i k = some cap) :
    some cap ∈ held ∨ caps.rows i k = some cap := by
  unfold CapSlots.Table.seed at h
  split at h
  · simp only [CapSlots.Table.setRow] at h
    by_cases hi : i = row
    · subst hi
      rw [update_self] at h
      split at h
      · exact .inl (List.mem_of_getElem? (Option.join_eq_some_iff.1 h))
      · contradiction
    · rw [update_of_ne hi] at h
      exact .inr h
  · exact .inr h

theorem install_mem {slot : ℕ} {new : CapId}
    (h : (caps.install row slot new).2.rows i k = some cap) :
    new = cap ∨ caps.rows i k = some cap := by
  unfold CapSlots.Table.install at h
  split at h
  · rcases set_mem h with hnew | hold
    · exact .inl (Option.some.inj hnew)
    · exact .inr hold
  · exact .inr h

theorem transfer_mem {fromRow fromSlot toRow toSlot : ℕ}
    (h : (caps.transfer fromRow fromSlot toRow toSlot).2.rows i k = some cap) :
    ∃ i' k', caps.rows i' k' = some cap := by
  unfold CapSlots.Table.transfer at h
  split at h
  · exact ⟨i, k, h⟩
  split at h
  · exact ⟨i, k, h⟩
  split at h
  · exact ⟨i, k, h⟩
  rename_i moved hmoved
  split at h
  · exact ⟨i, k, h⟩
  split at h
  · exact ⟨i, k, h⟩
  rcases set_mem h with hnew | hold
  · exact ⟨fromRow, fromSlot, hnew ▸ hmoved⟩
  rcases set_mem hold with hnone | hrest
  · contradiction
  · exact ⟨i, k, hrest⟩

theorem drain_mem (h : (caps.drain row).2.rows i k = some cap) : caps.rows i k = some cap := by
  unfold CapSlots.Table.drain at h
  split at h
  · simp only [CapSlots.Table.setRow] at h
    by_cases hi : i = row
    · subst hi
      rw [update_self] at h
      contradiction
    · rw [update_of_ne hi] at h
      exact h
  · exact h

theorem rowTotal_of_lookup {t' : Table M E D} (h : ∀ i k cap, caps.rows i k = some cap →
      (t'.lookup cap .SEND = some mb ↔ t.lookup cap .SEND = some mb)) :
    rowTotal t' caps mb = rowTotal t caps mb := by
  refine Finset.sum_congr rfl fun i _ => ?_
  rw [sendCount_row, sendCount_row]
  refine Finset.sum_congr rfl fun k _ => ?_
  cases hslot : caps.rows i k with
  | none => rfl
  | some cap =>
    rw [Table.sendCell_some, Table.sendCell_some]
    simp only [h i k cap hslot]

theorem rowTotal_eq_zero (h : ∀ cap, t.lookup cap .SEND ≠ some mb) : rowTotal t caps mb = 0 := by
  refine Finset.sum_eq_zero fun i _ => ?_
  rw [sendCount_row]
  refine Finset.sum_eq_zero fun k _ => ?_
  cases caps.rows i k with
  | none => rfl
  | some cap => rw [Table.sendCell_some, if_neg (h cap)]

end Rows

namespace Balanced

variable {s s' : Ledger M E D T S}

theorem start : Balanced (start : Ledger M E D T S) where
  linked := Table.new_linked
  counts := fun mb => by
    have hzero : rowTotal (Table.new : Table M E D) (CapSlots.Table.new : CapSlots.Table T S) mb =
        0 := rowTotal_eq_zero fun cap hl => by
      have := (Table.lookup_eq_some hl).2.1
      contradiction
    exact hzero.symm

section

variable (h : Balanced s)
include h

/-- A call that moves messages or waiters only. -/
theorem of_same {t : Table M E D} (hholds : Table.SameHolds s.table t) (hlinked : t.Linked) :
    Balanced { s with table := t } where
  linked := hlinked
  counts := fun mb => by
    rw [hholds.holders mb, h.counts mb]
    exact (rowTotal_congr hholds.eps s.caps mb).symm

theorem create (autoReap : Bool) (hgenuine : s.Genuine (.create autoReap)) :
    Balanced (s.created (s.table.createChannelWithAutoReap autoReap)) := by
  have hlinked := create_linked h.linked autoReap
  rcases create_cases s.table autoReap with ⟨err, herr⟩ |
    ⟨mb, sendEp, recvEp, ⟨hmb, hfree, -⟩, ⟨hs, hsend, -⟩, ⟨hr, hrecv, -⟩, hne, hok⟩
  · rw [herr]
    exact h
  have hnone := hgenuine _ _ hok
  rw [hok] at hlinked ⊢
  -- the slots resolve as before: none of them has the number of the new send end
  have hsame : ∀ i k cap, s.caps.rows i k = some cap →
      ({ s.table with
        nextGen := Table.bumpGen s.table.nextGen
        boxes := update s.table.boxes mb { Mailbox.empty with live := true, autoReap }
        eps := update (update s.table.eps sendEp
          ⟨true, s.table.nextGen, .SEND, UInt8.ofNat mb⟩) recvEp
          ⟨true, s.table.nextGen, .RECV, UInt8.ofNat mb⟩ } : Table M E D).lookup cap .SEND =
      s.table.lookup cap .SEND := by
    intro i k cap hcap
    simp only [Table.lookup]
    by_cases hir : cap.index.toNat = recvEp
    · simp [hir, hrecv, show CapRights.RECV.contains .SEND = false by decide]
    by_cases his : cap.index.toNat = sendEp
    · have hold : s.table.nextGen ≠ cap.generation := by
        intro hgen
        refine hnone i k (hcap.trans (congrArg some ?_))
        rw [hgen, ← his, UInt16.ofNat_toNat, CapId.new_index_generation]
      simp only [his, update_of_ne (Ne.symm hne), update_self, hsend]
      simp [hold]
    · simp only [update_of_ne hir, update_of_ne his]
  have hunused : ∀ cap, s.table.lookup cap .SEND ≠ some mb := by
    intro cap hl
    rw [(h.linked.lookup hl).2] at hfree
    contradiction
  refine ⟨hlinked, fun mb' => ?_⟩
  have htotal : rowTotal _ s.caps mb' = rowTotal s.table s.caps mb' :=
    rowTotal_of_lookup fun i k cap hcap => by rw [hsame i k cap hcap]
  refine Eq.trans ?_ htotal.symm
  by_cases hmb' : mb' = mb
  · subst hmb'
    simp only [created, update_self]
    exact (rowTotal_eq_zero hunused).symm
  · simp only [created, update_of_ne hmb']
    exact h.counts mb'

theorem revoke (cap : CapId) :
    Balanced { s with table := (s.table.revokeChannel cap).2 } := by
  refine ⟨(Table.revokeChannel_spec s.table cap).2 h.linked, fun mb' => ?_⟩
  show _ = rowTotal _ s.caps mb'
  unfold Table.revokeChannel
  split
  · simp only
    split
    · exact h.counts mb'
    split
    · exact h.counts mb'
    generalize (s.table.eps cap.index.toNat).mailbox.toNat = mb
    by_cases hmb : mb' = mb
    · subst hmb
      simp only [update_self]
      refine (rowTotal_eq_zero fun c hl => ?_).symm
      obtain ⟨-, hlive, -, -, hbox⟩ := Table.lookup_eq_some hl
      simp only at hlive hbox
      split at hlive
      · contradiction
      rename_i hother
      rw [if_neg hother] at hbox
      exact hother (by simp [hlive, hbox])
    · simp only [update_of_ne hmb]
      refine (h.counts mb').trans (rowTotal_of_lookup fun i k c _ => ?_).symm
      simp only [Table.lookup]
      by_cases hgone : ((s.table.eps c.index.toNat).live &&
          (s.table.eps c.index.toNat).mailbox.toNat == mb) = true
      · simp only [if_pos hgone]
        simp only [Bool.and_eq_true, beq_iff_eq] at hgone
        simp [hgone.1, hgone.2, Ne.symm hmb]
      · simp only [if_neg hgone]
  · exact h.counts mb'

theorem spawn {row : ℕ} {held : List (Option CapId)} (hrow : row < T)
    (hempty : ∀ k, s.caps.rows row k = none) (hlen : held.length ≤ S)
    (hroom : ∀ mb, s.senders mb + s.table.sendCount mb held < 2 ^ 32) :
    Balanced { s with table := s.table.registerHolds held, caps := s.caps.seed row held } := by
  refine ⟨(Table.registerHolds_spec held s.table).2 h.linked, fun mb => ?_⟩
  have hroom' : (s.table.boxes mb).sendHolders.toNat + s.table.sendCount mb held < 2 ^ 32 := by
    rw [h.counts mb]
    exact hroom mb
  obtain ⟨heps, hholders⟩ := Table.registerHolds_holders held mb s.table hroom'
  rw [hholders, h.counts mb]
  show _ = rowTotal _ _ mb
  rw [rowTotal_congr heps, rowTotal_seed s.table s.caps mb hrow hempty hlen]
  rfl

theorem install {row slot : ℕ} {cap : CapId}
    (hroom : ∀ mb, s.senders mb + s.table.sendCell mb (some cap) < 2 ^ 32)
    (hok : (s.caps.install row slot cap).1 = true) :
    Balanced { s with
      table := s.table.registerHolds [some cap], caps := (s.caps.install row slot cap).2 } := by
  refine ⟨(Table.registerHolds_spec [some cap] s.table).2 h.linked, fun mb => ?_⟩
  have hroom' : (s.table.boxes mb).sendHolders.toNat + s.table.sendCell mb (some cap) < 2 ^ 32 := by
    rw [h.counts mb]
    exact hroom mb
  obtain ⟨heps, hholders⟩ := Table.registerHold_holders s.table cap mb hroom'
  refine hholders.trans ?_
  rw [h.counts mb]
  show _ = rowTotal (s.table.registerHold cap) _ mb
  rw [rowTotal_congr heps, rowTotal_install s.table s.caps mb hok]
  rfl

theorem exit {row : ℕ} (hrow : row < T) : Balanced (s.exit row).2 := by
  have hheld := fun mb => Table.releaseHolds_holders (s.caps.drain row).1 mb s.table
  refine ⟨(Table.releaseHolds_spec (s.caps.drain row).1 s.table).2 h.linked, fun mb => ?_⟩
  have htotal := rowTotal_drain s.table s.caps mb hrow
  have hcount := h.counts mb
  have heq : (((s.exit row).2.table).boxes mb).sendHolders.toNat =
      (s.table.boxes mb).sendHolders.toNat - s.table.sendCount mb (s.caps.drain row).1 :=
    (hheld mb).2.1
  have hrows : (s.exit row).2.senders mb = rowTotal s.table (s.caps.drain row).2 mb :=
    rowTotal_congr (hheld mb).1 _ mb
  rw [heq, hrows, hcount]
  show rowTotal s.table s.caps mb - _ = _
  omega

theorem step {op : Op} (hsized : s.Sized op) (hgenuine : s.Genuine op)
    (hstep : s.step op = some s') : Balanced s' := by
  cases op with
  | create autoReap =>
    cases hstep
    exact h.create autoReap hgenuine
  | revoke cap =>
    cases hstep
    exact h.revoke cap
  | spawn row held =>
    cases hstep
    exact h.spawn hsized.1 hsized.2.1 hsized.2.2.1 hsized.2.2.2
  | install row slot cap =>
    simp only [Ledger.step, Option.some.injEq] at hstep
    subst hstep
    cases hok : (s.caps.install row slot cap).1 with
    | true => exact h.install hsized hok
    | false =>
      have hstay : (s.caps.install row slot cap).2 = s.caps := by
        unfold CapSlots.Table.install at hok ⊢
        split at hok
        · contradiction
        · rename_i hno
          rw [if_neg hno]
      rw [hstay]
      exact h
  | transfer fromRow fromSlot toRow toSlot =>
    cases hstep
    refine ⟨h.linked, fun mb => ?_⟩
    rw [h.counts mb]
    exact (rowTotal_transfer s.table s.caps mb hsized.1 hsized.2 fromSlot toSlot).symm
  | exit row =>
    cases hstep
    exact h.exit hsized
  | send cap msg =>
    cases hstep
    exact h.of_same (Table.send_holds s.table cap msg)
      ((Table.send_spec s.table cap msg).2 h.linked)
  | tryRecv cap =>
    cases hstep
    exact h.of_same (Table.tryRecv_holds s.table cap)
      ((Table.tryRecv_spec s.table cap).2 h.linked)
  | park cap me =>
    cases hstep
    exact h.of_same (Table.park_holds s.table cap me)
      ((Table.park_spec s.table cap me).2.1 h.linked)

end

theorem of_reach (h : Reach (fun s => s = Ledger.start) Ledger.step
    (fun s op => s.Sized op ∧ s.Genuine op) s) : Balanced s := by
  refine Reach.invariant ?_ ?_ h
  · intro s hs
    rw [hs]
    exact Balanced.start
  · intro s op s' hs hok hstep
    exact hs.step hok.1 hok.2 hstep

end Balanced

variable {s : Ledger M E D T S}

/-- When no row holds a send end before its channel is created, the counter of a mailbox is the
number of slots that resolve to it, and an exit cancels the waiters of the ephemeral mailboxes whose
last slots it takes, each of them once and no others. -/
theorem holds_counted (hs : Reach (fun s => s = Ledger.start) Ledger.step
    (fun s op => s.Sized op ∧ s.Genuine op) s) :
    (∀ mb, mb < M → (s.table.boxes mb).live = true →
      (s.table.boxes mb).sendHolders.toNat = s.senders mb) ∧
    ∀ row, row < T → ∃ mbs : List ℕ, mbs.Nodup ∧
      (s.exit row).1 = mbs.filterMap (fun mb => (s.table.boxes mb).waiter) ∧
      (∀ mb, mb ∈ mbs ↔ (s.table.boxes mb).autoReap = true ∧ (s.table.boxes mb).waiter ≠ none ∧
        0 < s.table.sendCount mb (s.caps.row row) ∧ (s.exit row).2.senders mb = 0) ∧
      (∀ mb, ((s.exit row).2.table.boxes mb).waiter =
        if mb ∈ mbs then none else (s.table.boxes mb).waiter) ∧
      ∀ mb, (s.table.boxes mb).autoReap = false →
        ((s.exit row).2.table.boxes mb).waiter = (s.table.boxes mb).waiter := by
  have h := Balanced.of_reach hs
  refine ⟨fun mb _ _ => h.counts mb, fun row hrow => ?_⟩
  have hdrain : (s.caps.drain row).1 = s.caps.row row := by
    simp only [CapSlots.Table.drain, if_pos hrow]
  obtain ⟨mbs, hnodup, hmem, hout, hwait⟩ := releaseHolds_fires (s.caps.row row) s.table
  have hlast : ∀ mb, (s.table.boxes mb).sendHolders.toNat ≤
      s.table.sendCount mb (s.caps.row row) ↔ (s.exit row).2.senders mb = 0 := by
    intro mb
    have hafter := (h.exit hrow).counts mb
    have heq : (((s.exit row).2.table).boxes mb).sendHolders.toNat =
        (s.table.boxes mb).sendHolders.toNat - s.table.sendCount mb (s.caps.drain row).1 :=
      (Table.releaseHolds_holders (s.caps.drain row).1 mb s.table).2.1
    rw [hdrain] at heq
    omega
  have hexit : ∀ mb, ((s.exit row).2.table.boxes mb).waiter =
      if mb ∈ mbs then none else (s.table.boxes mb).waiter := by
    intro mb
    simp only [Ledger.exit, hdrain]
    exact hwait mb
  refine ⟨mbs, hnodup, ?_, ?_, hexit, ?_⟩
  · simp only [Ledger.exit, hdrain]
    exact hout
  · intro mb
    rw [hmem mb, Fires, hlast mb]
  · intro mb hplain
    rw [hexit mb, if_neg]
    intro hm
    rw [((hmem mb).1 hm).1] at hplain
    contradiction

theorem senders_le (s : Ledger M E D T S) (mb : ℕ) : s.senders mb ≤ T * S := by
  have hsum := Finset.sum_le_card_nsmul (Finset.range T)
    (fun i => s.table.sendCount mb (s.caps.row i)) S fun i _ => by
      refine (Table.sendCount_le ..).trans ?_
      simp [CapSlots.Table.row]
  rw [Finset.card_range, nsmul_eq_mul] at hsum
  exact hsum

theorem sized_spawn {row : ℕ} {held : List (Option CapId)} (hrow : row < T)
    (hempty : ∀ k, s.caps.rows row k = none) (hlen : held.length ≤ S)
    (hsmall : T * S + S < 2 ^ 32) :
    s.Sized (.spawn row held) := by
  refine ⟨hrow, hempty, hlen, fun mb => ?_⟩
  have hle := s.senders_le mb
  have hheld := Table.sendCount_le s.table mb held
  omega

def Issued (s : Ledger M E D T S) (cap : CapId) : Prop :=
  (∃ c ∈ s.made, ∃ e : End, e.of c = cap) ∨ E ≤ cap.index.toNat

def Sourced (s : Ledger M E D T S) : Op → Prop
  | .create _ => s.made.length + 1 < 65535
  | .spawn _ held => ∀ cap, some cap ∈ held → s.Issued cap
  | .install _ _ cap => s.Issued cap
  | _ => True

structure Provenance (s : Ledger M E D T S) : Prop where
  issued : ∀ i k cap, s.caps.rows i k = some cap → s.Issued cap
  next : s.table.nextGen.toNat = s.made.length + 1
  generation : ∀ c ∈ s.made, ∀ e : End, (e.of c).generation.toNat ≤ s.made.length

namespace Provenance

variable {s' : Ledger M E D T S} (h : Provenance s)
include h

/-- The generation of a new channel is later than that of any capability in the rows. -/
theorem genuine (op : Op) : s.Genuine op := by
  cases op with
  | create autoReap =>
    intro c t hcall i k hcap
    rcases create_cases s.table autoReap with ⟨err, herr⟩ |
      ⟨mb, sendEp, recvEp, -, ⟨hs, -⟩, -, -, hok⟩
    · rw [herr] at hcall
      cases hcall
    rw [hok] at hcall
    cases hcall
    rcases h.issued i k _ hcap with ⟨c, hc, e, hend⟩ | hout
    · have hle := h.generation c hc e
      rw [hend, CapId.generation_new, h.next] at hle
      omega
    · rw [CapId.index_new, UInt16.toNat_ofNat'] at hout
      have hle := Nat.mod_le sendEp (2 ^ 16)
      omega
  | _ => trivial

/-- A call that creates nothing and puts nothing new into the rows. -/
theorem of_rows {t : Table M E D} {caps : CapSlots.Table T S}
    (hrows : ∀ i k cap, caps.rows i k = some cap → s.Issued cap)
    (hnext : t.nextGen = s.table.nextGen) : Provenance { s with table := t, caps := caps } :=
  ⟨hrows, by rw [hnext]; exact h.next, h.generation⟩

theorem create (autoReap : Bool) (hfew : s.made.length + 1 < 65535) :
    Provenance (s.created (s.table.createChannelWithAutoReap autoReap)) := by
  rcases create_cases s.table autoReap with ⟨err, herr⟩ | ⟨mb, sendEp, recvEp, -, -, -, -, hok⟩
  · rw [herr]
    exact h
  rw [hok]
  refine ⟨fun i k cap hcap => ?_, ?_, fun c hc e => ?_⟩
  · refine (h.issued i k cap hcap).imp_left ?_
    rintro ⟨c, hc, hend⟩
    exact ⟨c, List.mem_append_left _ hc, hend⟩
  · simp only [created, List.length_append, List.length_singleton]
    rw [bumpGen_toNat, h.next, if_neg (by omega)]
  · simp only [created, List.length_append, List.length_singleton, List.mem_append,
      List.mem_singleton] at hc ⊢
    rcases hc with hold | rfl
    · have := h.generation c hold e
      omega
    cases e with
    | send | recv => rw [End.of, CapId.generation_new, h.next]

theorem step {op : Op} (hsourced : s.Sourced op) (hstep : s.step op = some s') :
    Provenance s' := by
  cases op with
  | create autoReap =>
    cases hstep
    exact h.create autoReap hsourced
  | spawn row held =>
    cases hstep
    refine h.of_rows (fun i k cap hcap => ?_) (registerHolds_nextGen held s.table)
    exact (seed_mem hcap).elim (hsourced cap) (h.issued i k cap)
  | install row slot cap =>
    cases hstep
    refine h.of_rows (fun i k c hc => ?_) ?_
    · rcases install_mem hc with rfl | hold
      · exact hsourced
      · exact h.issued i k c hold
    · split
      · exact registerHolds_nextGen [some cap] s.table
      · rfl
  | transfer fromRow fromSlot toRow toSlot =>
    cases hstep
    refine h.of_rows (fun i k cap hcap => ?_) rfl
    obtain ⟨i', k', hold⟩ := transfer_mem hcap
    exact h.issued i' k' cap hold
  | exit row =>
    cases hstep
    exact h.of_rows (fun i k cap hcap => h.issued i k cap (drain_mem hcap))
      (releaseHolds_nextGen _ s.table)
  | revoke cap =>
    cases hstep
    exact h.of_rows h.issued (exec_nextGen s.table (.revokeChannel cap) nofun)
  | send cap msg =>
    cases hstep
    exact h.of_rows h.issued (exec_nextGen s.table (.send cap msg) nofun)
  | tryRecv cap =>
    cases hstep
    exact h.of_rows h.issued (exec_nextGen s.table (.tryRecv cap) nofun)
  | park cap me =>
    cases hstep
    exact h.of_rows h.issued (exec_nextGen s.table (.park cap me) nofun)

end Provenance

/-- Rows filled with ends of channels that exist, and with numbers that name no endpoint such as
those of tasks and interrupts, are never in the way of a creation. -/
theorem genuine_of_sourced (hs : Reach (fun s => s = Ledger.start) Ledger.step
    (fun s op => s.Sized op ∧ s.Sourced op) s) :
    Reach (fun s => s = Ledger.start) Ledger.step (fun s op => s.Sized op ∧ s.Genuine op) s := by
  have hboth : Provenance s ∧ Reach (fun s => s = Ledger.start) Ledger.step
      (fun s op => s.Sized op ∧ s.Genuine op) s := by
    refine Reach.invariant (I := fun s => Provenance s ∧ Reach (fun s => s = Ledger.start)
      Ledger.step (fun s op => s.Sized op ∧ s.Genuine op) s) ?_ ?_ hs
    · rintro s rfl
      exact ⟨⟨nofun, rfl, nofun⟩, Reach.start rfl⟩
    · rintro s op s' ⟨hprov, hreach⟩ hok hstep
      exact ⟨hprov.step hok.2 hstep, hreach.next ⟨hok.1, hprov.genuine op⟩ hstep⟩
  exact hboth.2

/-- A task that holds a task-cap and the only send end of an ephemeral channel, and one that waits
there. -/
theorem holds_counted_exit : ∃ s : Ledger 1 2 1 1 2,
    (s.table.boxes 0).sendHolders.toNat = s.senders 0 ∧ s.senders 0 = 1 ∧
    s.caps.row 0 = [some (CapId.new taskBand 0), some (CapId.new 0 1)] ∧
    (s.exit 0).1 = [⟨0, 0⟩] := by
  let created : Ledger 1 2 1 1 2 := start.created (Table.new.createChannelWithAutoReap true)
  let held : List (Option CapId) := [some (CapId.new taskBand 0), some (CapId.new 0 1)]
  have hcreated : Reach (fun s => s = Ledger.start) Ledger.step
      (fun s op => s.Sized op ∧ s.Sourced op) created :=
    Reach.next (l := Op.create true) (Reach.start rfl) ⟨trivial, show 0 + 1 < 65535 by decide⟩ rfl
  have hsourced : created.Sourced (.spawn 0 held) := by
    intro cap hcap
    simp only [held, List.mem_cons, Option.some.injEq, List.not_mem_nil, or_false] at hcap
    rcases hcap with rfl | rfl
    · exact .inr (by decide)
    · exact .inl ⟨⟨CapId.new 0 1, CapId.new 1 1⟩, by decide, .send, rfl⟩
  have hspawned := Reach.next (l := Op.spawn 0 held) hcreated
    ⟨sized_spawn (by decide) (fun _ => rfl) (by decide) (by decide), hsourced⟩ rfl
  have hparked := Reach.next (l := Op.park (CapId.new 1 1) ⟨0, 0⟩) hspawned ⟨trivial, trivial⟩ rfl
  exact ⟨_, (holds_counted (genuine_of_sourced hparked)).1 0 (by decide) (by decide), by decide,
    by decide, by decide⟩

/-- A row seeded with the number of a channel to come: when the channel is created, the slot
resolves to its send end and the counter is zero. -/
theorem holds_not_counted : ∃ s : Ledger 1 2 1 1 1,
    Reach (fun s => s = Ledger.start) Ledger.step (fun s op => s.Sized op) s ∧
    (s.table.boxes 0).live = true ∧ (s.table.boxes 0).sendHolders.toNat = 0 ∧
    s.senders 0 = 1 := by
  have hstart : Reach (fun s => s = Ledger.start) Ledger.step (fun s op => s.Sized op)
      (Ledger.start : Ledger 1 2 1 1 1) := Reach.start rfl
  have hspawned := Reach.next (l := Op.spawn 0 [some (CapId.new 0 1)]) hstart
    (sized_spawn (by decide) (fun _ => rfl) (by decide) (by decide)) rfl
  have hcreated := Reach.next (l := Op.create false) hspawned trivial rfl
  exact ⟨_, hcreated, by decide, by decide, by decide⟩

end Ledger

end HarborKernel.SendHolds
