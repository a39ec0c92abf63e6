import HarborKernel.Channels
import HarborKernel.IpcHolds
import HarborKernel.RingBuffer
import Mathlib.Data.Finset.Prod

/-!
How a table stores the channels of the abstract machine. Each live channel has a
mailbox of its own and two endpoints of its own that carry its generation; nothing
else in the table is live. Every call of the table then does what the machine does.
-/

namespace HarborKernel.Channels

open Function Capability ReadyQueue Ipc RingBuffer

def namesOf : Except CreateError Channel → Channel
  | .ok names => names
  | .error _ => ⟨⟨0⟩, ⟨0⟩⟩

/-- The cells of the mailbox, read from its tail, are the queue. -/
def Holds (depth : ℕ) (b : Mailbox) (q : List Message) : Prop :=
  (∃ r : Ring Message depth, r.slots = b.buf ∧ r.head = b.tail ∧ r.len = b.len ∧ r.toList = q) ∧
    b.head = (b.tail + b.len) % depth

section Holds

variable {depth : ℕ} {b : Mailbox} {q : List Message}

theorem Holds.len_eq (h : Holds depth b q) : b.len = q.length := by
  obtain ⟨⟨r, -, -, hlen, rfl⟩, -⟩ := h
  rw [Ring.length_toList, hlen]

theorem Holds.empty (depth : ℕ) : Holds depth Mailbox.empty [] :=
  ⟨⟨Ring.empty Message.empty, rfl, rfl, rfl, rfl⟩, (Nat.zero_mod _).symm⟩

theorem Holds.push (h : Holds depth b q) (hroom : q.length ≠ depth) (msg : Message) :
    Holds depth (b.push depth msg) (q ++ [msg]) := by
  have hq := h.len_eq
  obtain ⟨⟨r, hslots, htail, hlen, rfl⟩, hhead⟩ := h
  have hne : r.len ≠ depth := by
    rw [hlen, hq]
    exact hroom
  obtain ⟨r', hr'⟩ : ∃ r', r.push msg = some r' := by
    cases hp : r.push msg with
    | none => exact absurd ((Ring.push_eq_none_iff r msg).1 hp) hne
    | some r' => exact ⟨r', rfl⟩
  have hcells := hr'
  simp only [Ring.push, dif_neg hne, Option.some.injEq] at hcells
  refine ⟨⟨r', ?_, ?_, ?_, Ring.push_toList r r' msg hr'⟩, ?_⟩
  · simp only [← hcells, Mailbox.push, hslots, htail, hlen, hhead]
  · simp only [← hcells, Mailbox.push, htail]
  · simp only [← hcells, Mailbox.push, hlen]
  · simp only [Mailbox.push, hhead, Nat.mod_add_mod, Nat.add_assoc]

theorem Holds.pop {msg : Message} {rest : List Message} (h : Holds depth b (msg :: rest)) :
    (b.pop depth).1 = msg ∧ Holds depth (b.pop depth).2 rest := by
  have hq := h.len_eq
  obtain ⟨⟨r, hslots, htail, hlen, hlist⟩, hhead⟩ := h
  have hne : r.len ≠ 0 := by
    rw [hlen, hq]
    exact Nat.succ_ne_zero _
  obtain ⟨⟨m, r'⟩, hr'⟩ : ∃ p, r.pop = some p := by
    cases hp : r.pop with
    | none =>
      rw [Ring.pop_eq_none_iff, Ring.toList_eq_nil_iff] at hp
      exact absurd hp hne
    | some p => exact ⟨p, rfl⟩
  have hcons := Ring.pop_toList r r' m hr'
  rw [hlist, List.cons.injEq] at hcons
  have hcells := hr'
  simp only [Ring.pop, if_neg hne, Option.some.injEq, Prod.mk.injEq] at hcells
  refine ⟨?_, ⟨r', ?_, ?_, ?_, hcons.2.symm⟩, ?_⟩
  · rw [hcons.1, ← hcells.1, hslots, htail]
    rfl
  · simp only [← hcells.2, Mailbox.pop, hslots]
  · simp only [← hcells.2, Mailbox.pop, htail]
  · simp only [← hcells.2, Mailbox.pop, hlen]
  · have hsum : b.tail + b.len = b.tail + 1 + (b.len - 1) := by
      rw [hq, List.length_cons]
      omega
    simp only [Mailbox.pop, hhead, Nat.mod_add_mod]
    rw [hsum]

end Holds

structure Stores (depth : ℕ) (b : Mailbox) (ch : Chan) : Prop where
  live : b.live = true
  queue : Holds depth b ch.queue
  waiter : b.waiter = ch.waiter
  holders : b.sendHolders.toNat = ch.holders
  autoReap : b.autoReap = ch.autoReap

def End.right : End → CapRights
  | .send => .SEND
  | .recv => .RECV

theorem End.contains_right (e e' : End) : e.right.contains e'.right = true ↔ e = e' := by
  cases e <;> cases e' <;> decide

/-- The table keeps the live channel number `n` in the mailbox `box n`. -/
structure Refines {M E D : ℕ} (t : Table M E D) (a : Machine) (box : ℕ → ℕ) : Prop where
  made : ∀ n ch, a.chans n = some ch → a.made[n]? = some ch.ends
  box_lt : ∀ n ch, a.chans n = some ch → box n < M
  stores : ∀ n ch, a.chans n = some ch → Stores D (t.boxes (box n)) ch
  endpoint : ∀ n ch (e : End), a.chans n = some ch → (e.of ch.ends).index.toNat < E ∧
    t.eps (e.of ch.ends).index.toNat =
      ⟨true, (e.of ch.ends).generation, e.right, UInt8.ofNat (box n)⟩
  box_inj : ∀ n m ch ch', a.chans n = some ch → a.chans m = some ch' → box n = box m → n = m
  boxes : ∀ i, i < M → (t.boxes i).live = true → ∃ n ch, a.chans n = some ch ∧ box n = i
  eps : ∀ j, j < E → (t.eps j).live = true → ∃ n ch, ∃ e : End,
    a.chans n = some ch ∧ j = (e.of ch.ends).index.toNat
  dead : ∀ i, i < M → (t.boxes i).live = false → (t.boxes i).waiter = none

namespace Refines

variable {M E D : ℕ} {t : Table M E D} {a : Machine} {box : ℕ → ℕ}

variable {n : ℕ} {p : ℕ → Bool}

theorem born (h : Refines t a box) {ch : Chan} (hch : a.chans n = some ch) : n < a.made.length :=
  (List.getElem?_eq_some_iff.1 (h.made n ch hch)).1

theorem start : Refines (Table.new : Table M E D) Machine.start id where
  made := nofun
  box_lt := nofun
  stores := nofun
  endpoint := nofun
  box_inj := nofun
  boxes := nofun
  eps := nofun
  dead := fun _ _ _ => rfl

section

variable (h : Refines t a box)
include h

variable {n : ℕ} {ch ch' : Chan} {e : End}

theorem mailbox_toNat (hM : M ≤ 256) (hch : a.chans n = some ch) :
    (UInt8.ofNat (box n)).toNat = box n := by
  have := h.box_lt n ch hch
  rw [UInt8.toNat_ofNat']
  exact Nat.mod_eq_of_lt (by omega)

theorem index_inj (hM : M ≤ 256) {m : ℕ} {e' : End} (hch : a.chans n = some ch)
    (hch' : a.chans m = some ch')
    (hidx : (e.of ch.ends).index.toNat = (e'.of ch'.ends).index.toNat) :
    n = m ∧ e = e' := by
  have heps := (h.endpoint n ch e hch).2
  rw [hidx, (h.endpoint m ch' e' hch').2, Endpoint.mk.injEq] at heps
  constructor
  · refine h.box_inj n m ch ch' hch hch' ?_
    rw [← h.mailbox_toNat hM hch, ← h.mailbox_toNat hM hch', heps.2.2.2]
  · have hright := (End.contains_right e' e').2 rfl
    rw [heps.2.2.1] at hright
    exact (End.contains_right e e').1 (heps.2.2.1 ▸ hright)

theorem of_live {cap : CapId} (hlt : cap.index.toNat < E)
    (hlive : (t.eps cap.index.toNat).live = true)
    (hgen : (t.eps cap.index.toNat).generation = cap.generation) :
    ∃ n ch, ∃ e : End, a.chans n = some ch ∧ e.of ch.ends = cap := by
  obtain ⟨n, ch, e, hch, hidx⟩ := h.eps _ hlt hlive
  refine ⟨n, ch, e, hch, ?_⟩
  rw [hidx, (h.endpoint n ch e hch).2] at hgen
  have hsame : (e.of ch.ends).generation = cap.generation := hgen
  rw [← CapId.new_index_generation (e.of ch.ends), ← CapId.new_index_generation cap,
    UInt16.toNat_inj.1 hidx, hsame]

theorem lookup_of_chan (hM : M ≤ 256) (hch : a.chans n = some ch) :
    t.lookup (e.of ch.ends) e.right = some (box n) := by
  obtain ⟨hlt, heps⟩ := h.endpoint n ch e hch
  have hright := (End.contains_right e e).2 rfl
  rw [Table.lookup_of hlt (by rw [heps]) (by rw [heps]) (by rw [heps]; exact hright), heps,
    h.mailbox_toNat hM hch]

/-- The table resolves a capability as the machine names a channel. -/
theorem lookup (hM : M ≤ 256) (e : End) (cap : CapId) :
    t.lookup cap e.right = (a.named e cap).map fun p => box p.1 := by
  cases hn : a.named e cap with
  | some p =>
    obtain ⟨hch, rfl⟩ := Machine.named_eq_some hn
    exact h.lookup_of_chan hM hch
  | none =>
    by_contra hsome
    obtain ⟨mb, hmb⟩ := Option.ne_none_iff_exists'.1 hsome
    obtain ⟨hlt, hlive, hgen, hrights, -⟩ := Table.lookup_eq_some hmb
    obtain ⟨n, ch, e', hch, rfl⟩ := h.of_live hlt hlive hgen
    rw [(h.endpoint n ch e' hch).2, End.contains_right] at hrights
    subst hrights
    exact Machine.named_eq_none hn (h.born hch) hch rfl

theorem refused {refusals : Refusals} :
    Refines ({ t with refusals } : Table M E D) a box :=
  ⟨h.made, h.box_lt, h.stores, h.endpoint, h.box_inj, h.boxes, h.eps, h.dead⟩

theorem remap {t' : Table M E D} {a' : Machine} (heps : t'.eps = t.eps)
    (hlive : ∀ i, (t'.boxes i).live = (t.boxes i).live) (hmade : a'.made = a.made)
    (hends : ∀ n, (a'.chans n).map Chan.ends = (a.chans n).map Chan.ends)
    (hstores : ∀ n ch, a'.chans n = some ch → Stores D (t'.boxes (box n)) ch)
    (hdead : ∀ i, (t.boxes i).live = false → (t.boxes i).waiter = none →
      (t'.boxes i).waiter = none) : Refines t' a' box := by
  have hold : ∀ n c, a'.chans n = some c → ∃ c0, a.chans n = some c0 ∧ c0.ends = c.ends := by
    intro n c hc
    have hmap := hends n
    rw [hc, Option.map_some] at hmap
    exact Option.map_eq_some_iff.1 hmap.symm
  have hnew : ∀ n c, a.chans n = some c → ∃ c', a'.chans n = some c' ∧ c'.ends = c.ends := by
    intro n c hc
    have hmap := hends n
    rw [hc, Option.map_some] at hmap
    exact Option.map_eq_some_iff.1 hmap
  refine ⟨?_, ?_, hstores, ?_, ?_, ?_, ?_, ?_⟩
  · intro n c hc
    obtain ⟨c0, hc0, he⟩ := hold n c hc
    rw [← he, hmade]
    exact h.made n c0 hc0
  · intro n c hc
    obtain ⟨c0, hc0, -⟩ := hold n c hc
    exact h.box_lt n c0 hc0
  · intro n c e hc
    obtain ⟨c0, hc0, he⟩ := hold n c hc
    rw [← he, heps]
    exact h.endpoint n c0 e hc0
  · intro n m c c' hc hc' hbox
    obtain ⟨c0, hc0, -⟩ := hold n c hc
    obtain ⟨c1, hc1, -⟩ := hold m c' hc'
    exact h.box_inj n m c0 c1 hc0 hc1 hbox
  · intro i hi hl
    rw [hlive] at hl
    obtain ⟨n, c0, hc0, hbox⟩ := h.boxes i hi hl
    obtain ⟨c, hc, -⟩ := hnew n c0 hc0
    exact ⟨n, c, hc, hbox⟩
  · intro j hj hl
    rw [heps] at hl
    obtain ⟨n, c0, e, hc0, hidx⟩ := h.eps j hj hl
    obtain ⟨c, hc, he⟩ := hnew n c0 hc0
    exact ⟨n, c, e, hc, by rw [he]; exact hidx⟩
  · intro i hi hl
    rw [hlive] at hl
    exact hdead i hl (h.dead i hi hl)

theorem set (hch : a.chans n = some ch) (hends : ch'.ends = ch.ends) {b : Mailbox}
    (hb : Stores D b ch') : Refines (t.setBox (box n) b) (a.set n ch') box := by
  have hbox := (h.stores n ch hch).live
  refine h.remap rfl ?_ rfl ?_ ?_ ?_
  · intro i
    by_cases hib : i = box n
    · rw [hib]
      simp only [Table.setBox, update_self, hb.live, hbox]
    · simp only [Table.setBox, update_of_ne hib]
  · intro m
    by_cases hm : m = n
    · subst hm
      simp only [Machine.set, update_self, Option.map_some, hch, hends]
    · simp only [Machine.set, update_of_ne hm]
  · intro m c hc
    by_cases hm : m = n
    · subst hm
      simp only [Machine.set, update_self, Option.some.injEq] at hc
      simpa only [Table.setBox, update_self, ← hc] using hb
    simp only [Machine.set, update_of_ne hm] at hc
    have hbm : box m ≠ box n := fun hbx => hm (h.box_inj m n c ch hc hch hbx)
    simpa only [Table.setBox, update_of_ne hbm] using h.stores m c hc
  · intro i hl hw
    have hib : i ≠ box n := by
      intro hib
      rw [hib, hbox] at hl
      contradiction
    simpa only [Table.setBox, update_of_ne hib] using hw

theorem send (hM : M ≤ 256) (cap : CapId) (msg : Message) :
    (t.send cap msg).1 = (a.send D cap msg).1 ∧
    Refines (t.send cap msg).2 (a.send D cap msg).2 box := by
  have hl : t.lookup cap .SEND = _ := h.lookup hM .send cap
  unfold Table.send Machine.send
  rw [hl]
  cases hn : a.named .send cap with
  | none => exact ⟨rfl, h.refused⟩
  | some p =>
    obtain ⟨n, ch⟩ := p
    have hch := (Machine.named_eq_some hn).1
    have hs := h.stores n ch hch
    simp only [Option.map_some, hs.live, Bool.not_true, Bool.false_eq_true, if_false,
      hs.queue.len_eq]
    split
    · exact ⟨rfl, h.refused⟩
    rename_i hroom
    refine ⟨by rw [hs.waiter], h.set hch ?_ ?_⟩
    · rfl
    · exact ⟨hs.live, hs.queue.push hroom msg, rfl, hs.holders, hs.autoReap⟩

theorem take (hch : a.chans n = some ch) {msg : Message} {rest : List Message}
    (hq : ch.queue = msg :: rest) :
    ((t.boxes (box n)).pop D).1 = msg ∧
    Refines (t.setBox (box n) ((t.boxes (box n)).pop D).2) (a.take n ch msg rest) box := by
  have hs := h.stores n ch hch
  have hqueue := hs.queue
  rw [hq] at hqueue
  obtain ⟨hmsg, hrest⟩ := hqueue.pop
  refine ⟨hmsg, h.set hch ?_ ?_⟩
  · rfl
  · exact ⟨hs.live, hrest, hs.waiter, hs.holders, hs.autoReap⟩

end

section

variable (h : Refines t a box) (hM : M ≤ 256) (cap : CapId)
include h hM cap

theorem tryRecv :
    (t.tryRecv cap).1 = (a.tryRecv cap).1 ∧
    Refines (t.tryRecv cap).2 (a.tryRecv cap).2 box := by
  have hl : t.lookup cap .RECV = _ := h.lookup hM .recv cap
  unfold Table.tryRecv Machine.tryRecv
  rw [hl]
  cases hn : a.named .recv cap with
  | none => exact ⟨rfl, h.refused⟩
  | some p =>
    obtain ⟨n, ch⟩ := p
    have hch := (Machine.named_eq_some hn).1
    have hs := h.stores n ch hch
    simp only [Option.map_some, hs.live, Bool.not_true, Bool.false_eq_true, if_false,
      hs.queue.len_eq]
    cases hq : ch.queue with
    | nil => exact ⟨rfl, h⟩
    | cons msg rest =>
      obtain ⟨hmsg, href⟩ := h.take hch hq
      simp only [List.length_cons, Nat.add_one_ne_zero, if_false]
      exact ⟨by rw [hmsg], href⟩

theorem park (me : TaskId) :
    (t.park cap me).1 = (a.park cap me).1 ∧
    Refines (t.park cap me).2 (a.park cap me).2 box := by
  have hl : t.lookup cap .RECV = _ := h.lookup hM .recv cap
  unfold Table.park Machine.park
  rw [hl]
  cases hn : a.named .recv cap with
  | none => exact ⟨rfl, h.refused⟩
  | some p =>
    obtain ⟨n, ch⟩ := p
    have hch := (Machine.named_eq_some hn).1
    have hs := h.stores n ch hch
    have hzero : ((t.boxes (box n)).sendHolders == 0) = decide (ch.holders = 0) := by
      rw [← hs.holders, Bool.eq_iff_iff, beq_iff_eq, decide_eq_true_iff, ← UInt32.toNat_inj]
      rfl
    have hlen := hs.queue.len_eq
    simp only [Option.map_some, hs.live, Bool.not_true, Bool.false_eq_true, if_false,
      hs.autoReap, hs.waiter, hzero, Bool.and_eq_true, decide_eq_true_eq]
    cases hq : ch.queue with
    | cons msg rest =>
      obtain ⟨hmsg, href⟩ := h.take hch hq
      have hpos : 0 < (t.boxes (box n)).len := by
        rw [hlen, hq]
        exact Nat.succ_pos _
      simp only [if_pos hpos]
      exact ⟨by rw [hmsg], href⟩
    | nil =>
      have hpos : ¬ 0 < (t.boxes (box n)).len := by
        rw [hlen, hq]
        exact Nat.lt_irrefl 0
      simp only [if_neg hpos]
      split
      · exact ⟨rfl, h⟩
      split
      · exact ⟨rfl, h.refused⟩
      have hqueue := hs.queue
      rw [hq] at hqueue
      refine ⟨rfl, h.set hch ?_ ?_⟩
      · rfl
      · exact ⟨rfl, hqueue, rfl, hs.holders, rfl⟩

theorem queued :
    t.queued cap = a.queued cap := by
  have hsend : t.lookup cap .SEND = _ := h.lookup hM .send cap
  have hrecv : t.lookup cap .RECV = _ := h.lookup hM .recv cap
  have hor : (t.lookup cap .SEND).or (t.lookup cap .RECV) =
      (a.either cap).map fun p => box p.1 := by
    rw [hsend, hrecv, Machine.either]
    cases a.named .send cap <;> rfl
  unfold Table.queued Machine.queued
  rw [hor]
  cases hn : a.either cap with
  | none => rfl
  | some p =>
    have hs := h.stores p.1 p.2 (Machine.either_eq_some hn).1
    simp only [Option.map_some, hs.live, hs.queue.len_eq]
    rfl

theorem registerHold :
    Refines (t.registerHold cap) (a.registerHold cap) box := by
  have hl : t.lookup cap .SEND = _ := h.lookup hM .send cap
  unfold Table.registerHold Machine.registerHold
  rw [hl]
  cases hn : a.named .send cap with
  | none => exact h
  | some p =>
    obtain ⟨n, ch⟩ := p
    have hch := (Machine.named_eq_some hn).1
    have hs := h.stores n ch hch
    refine h.set hch ?_ ⟨hs.live, hs.queue, hs.waiter, ?_, hs.autoReap⟩
    · rfl
    have hlt := (t.boxes (box n)).sendHolders.toNat_lt
    simp only [← hs.holders]
    by_cases hroom : (t.boxes (box n)).sendHolders.toNat + 1 < 2 ^ 32
    · rw [Table.satAdd_toNat hroom]
      omega
    have hmax : (t.boxes (box n)).sendHolders = UInt32.ofNat 4294967295 := by
      apply UInt32.toNat_inj.1
      rw [UInt32.toNat_ofNat']
      omega
    rw [hmax]
    decide

end

theorem registerHolds (hM : M ≤ 256) (caps : List (Option CapId)) :
    ∀ {t : Table M E D} {a : Machine}, Refines t a box →
      Refines (t.registerHolds caps) (a.registerHolds caps) box := by
  induction caps with
  | nil => exact fun h => h
  | cons slot rest ih =>
    intro t a h
    cases slot with
    | none => exact ih h
    | some cap => exact ih (h.registerHold hM cap)

theorem releaseHold (h : Refines t a box) (hM : M ≤ 256) (cap : CapId) :
    (t.releaseHold cap).1 = (a.releaseHold cap).1 ∧
    Refines (t.releaseHold cap).2 (a.releaseHold cap).2 box := by
  have hl : t.lookup cap .SEND = _ := h.lookup hM .send cap
  unfold Table.releaseHold Machine.releaseHold
  rw [hl]
  cases hn : a.named .send cap with
  | none => exact ⟨rfl, h⟩
  | some p =>
    obtain ⟨n, ch⟩ := p
    have hch := (Machine.named_eq_some hn).1
    have hs := h.stores n ch hch
    have hsub : (Table.satSub (t.boxes (box n)).sendHolders).toNat = ch.holders - 1 := by
      rw [Table.satSub_toNat, hs.holders]
    have hzero : Table.satSub (t.boxes (box n)).sendHolders = 0 ↔ ch.holders ≤ 1 := by
      rw [← UInt32.toNat_inj, hsub]
      exact Nat.sub_eq_zero_iff_le
    simp only [Option.map_some, hzero, hs.autoReap]
    split
    · refine ⟨hs.waiter, h.set hch ?_ ⟨hs.live, hs.queue, rfl, hsub, rfl⟩⟩
      rfl
    · refine ⟨rfl, h.set hch ?_ ⟨hs.live, hs.queue, hs.waiter, hsub, rfl⟩⟩
      rfl

theorem releaseHolds (hM : M ≤ 256) (caps : List (Option CapId)) :
    ∀ {t : Table M E D} {a : Machine}, Refines t a box →
      (t.releaseHolds caps).1 = (a.releaseHolds caps).1 ∧
      Refines (t.releaseHolds caps).2 (a.releaseHolds caps).2 box := by
  induction caps with
  | nil => exact fun h => ⟨rfl, h⟩
  | cons slot rest ih =>
    intro t a h
    cases slot with
    | none => exact ih h
    | some cap =>
      obtain ⟨hout, href⟩ := h.releaseHold hM cap
      obtain ⟨hrest, href'⟩ := ih href
      simp only [Table.releaseHolds, Machine.releaseHolds]
      exact ⟨by rw [hout, hrest], href'⟩

theorem card_boxes (h : Refines t a box) {P : Mailbox → Prop} [DecidablePred P] {Q : Chan → Bool}
    (hlive : ∀ i, i < M → P (t.boxes i) → (t.boxes i).live = true)
    (hstores : ∀ b ch, Stores D b ch → (P b ↔ Q ch = true)) :
    ((Finset.range M).filter fun i => P (t.boxes i)).card =
      ((Finset.range a.made.length).filter fun n => (a.chans n).any Q).card := by
  have himage : ((Finset.range a.made.length).filter fun n => (a.chans n).any Q).image box =
      (Finset.range M).filter fun i => P (t.boxes i) := by
    ext i
    simp only [Finset.mem_image, Finset.mem_filter, Finset.mem_range, Option.any_eq_true]
    constructor
    · intro hi
      obtain ⟨n, ⟨-, ch, hch, hQ⟩, rfl⟩ := hi
      exact ⟨h.box_lt n ch hch, (hstores _ _ (h.stores n ch hch)).2 hQ⟩
    · intro hi
      obtain ⟨n, ch, hch, rfl⟩ := h.boxes i hi.1 (hlive i hi.1 hi.2)
      exact ⟨n, ⟨h.born hch, ch, hch, (hstores _ _ (h.stores n ch hch)).1 hi.2⟩, rfl⟩
  rw [← himage]
  apply Finset.card_image_of_injOn
  intro n hn m hm hbox
  simp only [Finset.coe_filter, Set.mem_ofPred_eq, Option.any_eq_true] at hn hm
  obtain ⟨-, ch, hch, -⟩ := hn
  obtain ⟨-, ch', hch', -⟩ := hm
  exact h.box_inj n m ch ch' hch hch' hbox

theorem card_live_boxes (h : Refines t a box) :
    ((Finset.range M).filter fun i => (t.boxes i).live = true).card = a.liveSet.card := by
  have hcard := h.card_boxes (P := fun b => b.live = true) (Q := fun _ => true)
    (fun _ _ hl => hl) (fun b ch hs => ⟨fun _ => rfl, fun _ => hs.live⟩)
  have hsome : ∀ n, (a.chans n).any (fun _ => true) = (a.chans n).isSome := by
    intro n
    cases a.chans n <;> rfl
  simp only [hsome] at hcard
  exact hcard

theorem card_live_eps (h : Refines t a box) (hM : M ≤ 256) :
    ((Finset.range E).filter fun j => (t.eps j).live = true).card = 2 * a.liveSet.card := by
  let index : ℕ × End → ℕ := fun p =>
    match a.chans p.1 with
    | some ch => (p.2.of ch.ends).index.toNat
    | none => 0
  have hindex : ∀ {n ch} (e : End), a.chans n = some ch →
      index (n, e) = (e.of ch.ends).index.toNat := by
    intro n ch e hch
    simp only [index, hch]
  have hmem : ∀ n, n ∈ a.liveSet ↔ ∃ ch, a.chans n = some ch := by
    intro n
    simp only [Machine.liveSet, Finset.mem_filter, Finset.mem_range, Option.isSome_iff_exists]
    exact ⟨fun hn => hn.2, fun ⟨ch, hch⟩ => ⟨h.born hch, ch, hch⟩⟩
  have himage : (a.liveSet ×ˢ ({.send, .recv} : Finset End)).image index =
      (Finset.range E).filter fun j => (t.eps j).live = true := by
    ext j
    simp only [Finset.mem_image, Finset.mem_product, Finset.mem_filter, Finset.mem_range]
    constructor
    · intro hj
      obtain ⟨⟨n, e⟩, ⟨hn, -⟩, rfl⟩ := hj
      obtain ⟨ch, hch⟩ := (hmem n).1 hn
      obtain ⟨hlt, heps⟩ := h.endpoint n ch e hch
      rw [hindex e hch]
      exact ⟨hlt, by rw [heps]⟩
    · intro hj
      obtain ⟨n, ch, e, hch, rfl⟩ := h.eps j hj.1 hj.2
      refine ⟨(n, e), ⟨(hmem n).2 ⟨ch, hch⟩, ?_⟩, hindex e hch⟩
      cases e <;> simp
  have hinj : Set.InjOn index ↑(a.liveSet ×ˢ ({.send, .recv} : Finset End)) := by
    intro p hp q hq hpq
    obtain ⟨n, e⟩ := p
    obtain ⟨m, e'⟩ := q
    simp only [Finset.coe_product, Set.mem_prod, Finset.mem_coe] at hp hq
    obtain ⟨ch, hch⟩ := (hmem n).1 hp.1
    obtain ⟨ch', hch'⟩ := (hmem m).1 hq.1
    rw [hindex e hch, hindex e' hch'] at hpq
    obtain ⟨hn, he⟩ := h.index_inj hM hch hch' hpq
    rw [hn, he]
  rw [← himage, Finset.card_image_of_injOn hinj, Finset.card_product]
  have htwo : ({.send, .recv} : Finset End).card = 2 := rfl
  rw [htwo, Nat.mul_comm]

private theorem foldl_satAdd {p : ℕ → Prop} [DecidablePred p] (l : List ℕ) : ∀ n : UInt32,
    n.toNat + l.length < 2 ^ 32 →
    (l.foldl (fun n i => if p i then Table.satAdd n else n) n).toNat =
      n.toNat + (l.filter fun i => p i).length := by
  induction l with
  | nil => exact fun n _ => rfl
  | cons i rest ih =>
    intro n hroom
    rw [List.length_cons] at hroom
    by_cases hp : p i
    · have hone := Table.satAdd_toNat (h := n) (by omega)
      simp only [List.foldl_cons, if_pos hp, List.filter_cons, decide_eq_true hp, if_true,
        List.length_cons]
      rw [ih _ (by omega), hone]
      omega
    simp only [List.foldl_cons, if_neg hp, List.filter_cons, decide_eq_false hp,
      Bool.false_eq_true, if_false]
    exact ih n (by omega)

section

variable (h : Refines t a box) (hM : M ≤ 256)
include h hM

theorem clearWaiter (id : TaskId) :
    (t.clearedWaiters id).toNat = (a.clearWaiter id).1 ∧
    Refines (t.clearWaiter id) (a.clearWaiter id).2 box := by
  have hcount : (t.clearedWaiters id).toNat =
      ((Finset.range M).filter fun i => (t.boxes i).waiter = some id).card := by
    unfold Table.clearedWaiters
    rw [foldl_satAdd _ _ (by simp; omega)]
    simp only [UInt32.toNat_zero, Nat.zero_add]
    rw [← List.toFinset_card_of_nodup (List.nodup_range.filter _)]
    congr 1
    ext i
    simp
  have hcard := h.card_boxes (P := fun b => b.waiter = some id)
    (Q := fun ch => ch.waiter = some id) ?_ ?_
  · refine ⟨hcount.trans hcard, ?_⟩
    refine h.remap rfl ?_ rfl ?_ ?_ ?_
    · intro i
      simp only [Table.clearWaiter]
      split <;> rfl
    · intro n
      simp only [Machine.clearWaiter, Option.map_map]
      congr 1
      funext c
      simp only [comp_apply]
      split <;> rfl
    · intro n c hc
      obtain ⟨c0, hc0, rfl⟩ := Option.map_eq_some_iff.1 hc
      have hs := h.stores n c0 hc0
      simp only [Table.clearWaiter, hs.waiter]
      split
      · exact ⟨hs.live, hs.queue, rfl, hs.holders, hs.autoReap⟩
      · exact hs
    · intro i _ hw
      simp only [Table.clearWaiter, hw, reduceCtorEq, if_false]
  · intro i hi hw
    by_contra hdead
    rw [h.dead i hi (Bool.not_eq_true _ ▸ hdead)] at hw
    contradiction
  · intro b ch hs
    simp only [hs.waiter, decide_eq_true_eq]

theorem erase {n : ℕ} {ch : Chan}
    (hch : a.chans n = some ch) :
    Refines ({ t with
      eps := fun i => if (t.eps i).live && (t.eps i).mailbox.toNat == box n then
        { t.eps i with live := false } else t.eps i
      boxes := update t.boxes (box n) Mailbox.empty } : Table M E D)
      { a with chans := update a.chans n none } box := by
  have hold : ∀ m c, update a.chans n none m = some c → m ≠ n ∧ a.chans m = some c := by
    intro m c hc
    by_cases hm : m = n
    · subst hm
      rw [update_self] at hc
      contradiction
    · rw [update_of_ne hm] at hc
      exact ⟨hm, hc⟩
  have hnew : ∀ m c, m ≠ n → a.chans m = some c → update a.chans n none m = some c := by
    intro m c hm hc
    rw [update_of_ne hm]
    exact hc
  have hapart : ∀ m c, m ≠ n → a.chans m = some c → box m ≠ box n := by
    intro m c hm hc hbox
    exact hm (h.box_inj m n c ch hc hch hbox)
  refine ⟨?_, ?_, ?_, ?_, ?_, ?_, ?_, ?_⟩
  · intro m c hc
    exact h.made m c (hold m c hc).2
  · intro m c hc
    exact h.box_lt m c (hold m c hc).2
  · intro m c hc
    obtain ⟨hm, hc0⟩ := hold m c hc
    simpa only [update_of_ne (hapart m c hm hc0)] using h.stores m c hc0
  · intro m c e hc
    obtain ⟨hm, hc0⟩ := hold m c hc
    obtain ⟨hlt, heps⟩ := h.endpoint m c e hc0
    have hne := hapart m c hm hc0
    simp only [heps, h.mailbox_toNat hM hc0, Bool.true_and, beq_iff_eq, hne, if_false, and_true]
    exact hlt
  · intro m k c c' hc hc' hbox
    exact h.box_inj m k c c' (hold m c hc).2 (hold k c' hc').2 hbox
  · intro i hi hl
    have hib : i ≠ box n := by
      intro hib
      simp only [hib, update_self, Mailbox.empty] at hl
      contradiction
    simp only [update_of_ne hib] at hl
    obtain ⟨m, c, hc, hbox⟩ := h.boxes i hi hl
    have hm : m ≠ n := by
      intro hm
      rw [hm] at hbox
      exact hib hbox.symm
    exact ⟨m, c, hnew m c hm hc, hbox⟩
  · intro j hj hl
    simp only at hl
    split at hl
    · contradiction
    rename_i hother
    obtain ⟨m, c, e, hc, hidx⟩ := h.eps j hj hl
    have hm : m ≠ n := by
      intro hm
      subst hm
      have heps := (h.endpoint m c e hc).2
      rw [← hidx] at heps
      rw [heps] at hother
      simp [h.mailbox_toNat hM hc] at hother
    exact ⟨m, c, e, hnew m c hm hc, hidx⟩
  · intro i hi hl
    by_cases hib : i = box n
    · simp only [hib, update_self, Mailbox.empty]
    · simp only [update_of_ne hib] at hl ⊢
      exact h.dead i hi hl

theorem revokeChannel (cap : CapId) :
    (t.revokeChannel cap).1 = (a.revokeChannel cap).1 ∧
    Refines (t.revokeChannel cap).2 (a.revokeChannel cap).2 box := by
  unfold Table.revokeChannel Machine.revokeChannel
  cases hn : a.either cap with
  | none =>
    split
    · rename_i hlt
      simp only
      split
      · exact ⟨rfl, h.refused⟩
      rename_i hlive
      simp only [Bool.or_eq_true, Bool.not_eq_true', bne_iff_ne, ne_eq, not_or,
        Bool.not_eq_false, not_not] at hlive
      obtain ⟨n, ch, e, hch, hcap⟩ := h.of_live hlt hlive.1 hlive.2
      exact absurd hcap (Machine.either_eq_none hn (h.born hch) hch e)
    · exact ⟨rfl, h.refused⟩
  | some p =>
    obtain ⟨n, ch⟩ := p
    obtain ⟨hch, e, rfl⟩ := Machine.either_eq_some hn
    obtain ⟨hlt, heps⟩ := h.endpoint n ch e hch
    have hbox := h.box_lt n ch hch
    simp only [if_pos hlt, heps, Bool.not_true, bne_self_eq_false, Bool.or_self,
      Bool.false_eq_true, if_false, h.mailbox_toNat hM hch, if_neg (Nat.not_le.2 hbox)]
    exact ⟨by rw [(h.stores n ch hch).waiter], h.erase hM hch⟩

end

section

variable (h : Refines t a box) {mb : ℕ}
include h

theorem apart_of_free {sendEp recvEp m : ℕ} {c : Chan} (hfree : (t.boxes mb).live = false)
    (hsend : (t.eps sendEp).live = false) (hrecv : (t.eps recvEp).live = false)
    (hc : a.chans m = some c) : m ≠ a.made.length ∧ box m ≠ mb ∧
      ∀ e : End, (e.of c.ends).index.toNat ≠ sendEp ∧ (e.of c.ends).index.toNat ≠ recvEp := by
  refine ⟨Nat.ne_of_lt (h.born hc), ?_, fun e => ⟨?_, ?_⟩⟩
  · intro hbox
    rw [← hbox, (h.stores m c hc).live] at hfree
    contradiction
  · intro hidx
    rw [← hidx, (h.endpoint m c e hc).2] at hsend
    contradiction
  · intro hidx
    rw [← hidx, (h.endpoint m c e hc).2] at hrecv
    contradiction

theorem box_inj_update {new : Option Chan} (hapart : ∀ m c, a.chans m = some c → box m ≠ mb) :
    ∀ m k c c', update a.chans a.made.length new m = some c →
      update a.chans a.made.length new k = some c' →
      update box a.made.length mb m = update box a.made.length mb k → m = k := by
  intro m k c c' hc hc' hbox
  by_cases hm : m = a.made.length
  · by_cases hk : k = a.made.length
    · rw [hm, hk]
    · rw [update_of_ne hk] at hc'
      rw [hm, update_self, update_of_ne hk] at hbox
      exact absurd hbox.symm (hapart k c' hc')
  rw [update_of_ne hm] at hc hbox
  by_cases hk : k = a.made.length
  · rw [hk, update_self] at hbox
    exact absurd hbox (hapart m c hc)
  · rw [update_of_ne hk] at hc' hbox
    exact h.box_inj m k c c' hc hc' hbox

end

theorem add (h : Refines t a box) {mb sendEp recvEp : ℕ}
    (hmb : mb < M) (hfree : (t.boxes mb).live = false) (hs : sendEp < E)
    (hsend : (t.eps sendEp).live = false) (hr : recvEp < E)
    (hrecv : (t.eps recvEp).live = false) (hne : recvEp ≠ sendEp)
    (hs' : sendEp < 65536) (hr' : recvEp < 65536) (g g' : UInt16)
    (autoReap : Bool) :
    Refines ({ t with
      nextGen := g'
      boxes := update t.boxes mb { Mailbox.empty with live := true, autoReap }
      eps := update (update t.eps sendEp ⟨true, g, .SEND, UInt8.ofNat mb⟩) recvEp
        ⟨true, g, .RECV, UInt8.ofNat mb⟩ } : Table M E D)
      ⟨a.made ++ [⟨CapId.new (UInt16.ofNat sendEp) g, CapId.new (UInt16.ofNat recvEp) g⟩],
        update a.chans a.made.length (some (Chan.new
          ⟨CapId.new (UInt16.ofNat sendEp) g, CapId.new (UInt16.ofNat recvEp) g⟩ autoReap))⟩
      (update box a.made.length mb) := by
  have hindex : ∀ {i : ℕ}, i < 65536 → (UInt16.ofNat i).toNat = i := by
    intro i hi
    rw [UInt16.toNat_ofNat']
    exact Nat.mod_eq_of_lt hi
  -- the channels that were live keep their number, their mailbox and their endpoints
  have hold : ∀ m c, m ≠ a.made.length → update a.chans a.made.length (some (Chan.new
      ⟨CapId.new (UInt16.ofNat sendEp) g, CapId.new (UInt16.ofNat recvEp) g⟩ autoReap)) m =
      some c → a.chans m = some c := by
    intro m c hm hc
    rwa [update_of_ne hm] at hc
  have hself : update a.chans a.made.length (some (Chan.new
      ⟨CapId.new (UInt16.ofNat sendEp) g, CapId.new (UInt16.ofNat recvEp) g⟩ autoReap))
      a.made.length = some (Chan.new ⟨CapId.new (UInt16.ofNat sendEp) g,
        CapId.new (UInt16.ofNat recvEp) g⟩ autoReap) := update_self ..
  have hother := fun m c (hc : a.chans m = some c) => h.apart_of_free hfree hsend hrecv hc
  refine ⟨?_, ?_, ?_, ?_, ?_, ?_, ?_, ?_⟩
  · intro m c hc
    by_cases hm : m = a.made.length
    · subst hm
      simp only [update_self, Option.some.injEq] at hc
      simp [← hc, Chan.new]
    have hc0 := hold m c hm hc
    rw [List.getElem?_append_left (h.born hc0)]
    exact h.made m c hc0
  · intro m c hc
    by_cases hm : m = a.made.length
    · rw [hm, update_self]
      exact hmb
    · rw [update_of_ne hm]
      exact h.box_lt m c (hold m c hm hc)
  · intro m c hc
    by_cases hm : m = a.made.length
    · subst hm
      simp only [update_self, Option.some.injEq] at hc ⊢
      subst hc
      exact ⟨rfl, Holds.empty D, rfl, rfl, rfl⟩
    have hc0 := hold m c hm hc
    simp only [update_of_ne hm, update_of_ne (hother m c hc0).2.1]
    exact h.stores m c hc0
  · intro m c e hc
    by_cases hm : m = a.made.length
    · subst hm
      simp only [update_self, Option.some.injEq] at hc ⊢
      subst hc
      cases e with
      | send =>
        simp only [Chan.new, End.of, CapId.index_new, CapId.generation_new, hindex hs',
          update_of_ne (Ne.symm hne), update_self]
        exact ⟨hs, rfl⟩
      | recv =>
        simp only [Chan.new, End.of, CapId.index_new, CapId.generation_new, hindex hr',
          update_self]
        exact ⟨hr, rfl⟩
    · have hc0 := hold m c hm hc
      obtain ⟨hne1, hne2⟩ := (hother m c hc0).2.2 e
      simp only [update_of_ne hne2, update_of_ne hne1, update_of_ne hm]
      exact h.endpoint m c e hc0
  · exact h.box_inj_update fun m c hc => (hother m c hc).2.1
  · intro i hi hl
    by_cases hib : i = mb
    · refine ⟨a.made.length, _, hself, ?_⟩
      rw [update_self, hib]
    simp only [update_of_ne hib] at hl
    obtain ⟨m, c, hc, hbox⟩ := h.boxes i hi hl
    have hm := (hother m c hc).1
    refine ⟨m, c, (update_of_ne hm ..).trans hc, ?_⟩
    rw [update_of_ne hm]
    exact hbox
  · intro j hj hl
    by_cases hjs : j = sendEp
    · refine ⟨a.made.length, _, .send, hself, ?_⟩
      simp only [Chan.new, End.of, CapId.index_new, hindex hs', hjs]
    by_cases hjr : j = recvEp
    · refine ⟨a.made.length, _, .recv, hself, ?_⟩
      simp only [Chan.new, End.of, CapId.index_new, hindex hr', hjr]
    simp only [update_of_ne hjr, update_of_ne hjs] at hl
    obtain ⟨m, c, e, hc, hidx⟩ := h.eps j hj hl
    exact ⟨m, c, e, (update_of_ne (hother m c hc).1 ..).trans hc, hidx⟩
  · intro i hi hl
    by_cases hib : i = mb
    · simp only [hib, update_self] at hl
      cases hl
    · simp only [update_of_ne hib] at hl ⊢
      exact h.dead i hi hl

private theorem card_filter_of_missing (missing : Finset ℕ) (hsub : missing ⊆ Finset.range n)
    (hmiss : ∀ i ∈ missing, p i = false) :
    ((Finset.range n).filter fun i => p i = true).card + missing.card ≤ n := by
  have hle : ((Finset.range n).filter fun i => p i = true) ⊆ Finset.range n \ missing := by
    intro i hi
    rw [Finset.mem_filter] at hi
    rw [Finset.mem_sdiff]
    refine ⟨hi.1, fun him => ?_⟩
    rw [hmiss i him] at hi
    exact absurd hi.2 Bool.false_ne_true
  have hcard := Finset.card_le_card hle
  rw [Finset.card_sdiff_of_subset hsub, Finset.card_range] at hcard
  have hmissing := Finset.card_le_card hsub
  rw [Finset.card_range] at hmissing
  omega

private theorem card_filter_of_all_but (missing : Finset ℕ)
    (hall : ∀ i, i < n → i ∉ missing → p i = true) :
    n ≤ ((Finset.range n).filter fun i => p i = true).card + missing.card := by
  have hsub : Finset.range n ⊆ ((Finset.range n).filter fun i => p i = true) ∪ missing := by
    intro i hi
    rw [Finset.mem_union, Finset.mem_filter]
    by_cases him : i ∈ missing
    · exact .inr him
    · exact .inl ⟨hi, hall i (Finset.mem_range.1 hi) him⟩
  have hcard := Finset.card_le_card hsub
  rw [Finset.card_range] at hcard
  exact hcard.trans (Finset.card_union_le _ _)

/-- At most two endpoints for each mailbox are live, so a free one is found early. -/
theorem first_free (h : Refines t a box) (hM : M ≤ 256) {j x : ℕ} (hj : j < E)
    (hbelow : ∀ i, i < j → i ≠ x → (t.eps i).live = true) : j < 65536 := by
  have hall := card_filter_of_all_but (n := j) (p := fun i => (t.eps i).live) {x}
    fun i hi hx => hbelow i hi fun heq => hx (Finset.mem_singleton.2 heq)
  have hmono : ((Finset.range j).filter fun i => (t.eps i).live = true).card ≤
      ((Finset.range E).filter fun i => (t.eps i).live = true).card :=
    Finset.card_le_card (Finset.filter_subset_filter _ (Finset.range_subset_range.2 hj.le))
  have hboxes : a.liveSet.card ≤ M := by
    rw [← h.card_live_boxes]
    exact (Finset.card_filter_le _ _).trans_eq (Finset.card_range M)
  rw [h.card_live_eps hM] at hmono
  rw [Finset.card_singleton] at hall
  omega

theorem create (h : Refines t a box) (hM : M ≤ 256) (autoReap : Bool) :
    ∃ box', (t.createChannelWithAutoReap autoReap).1 = (a.create M E
        (namesOf (t.createChannelWithAutoReap autoReap).1) autoReap).1 ∧
      Refines (t.createChannelWithAutoReap autoReap).2 (a.create M E
        (namesOf (t.createChannelWithAutoReap autoReap).1) autoReap).2 box' := by
  have hboxes := h.card_live_boxes
  have heps := h.card_live_eps hM
  unfold Table.createChannelWithAutoReap Machine.create
  cases hmb : (List.range M).find? fun i => !(t.boxes i).live with
  | none =>
    have hall := card_filter_of_all_but (n := M) (p := fun i => (t.boxes i).live) ∅
      fun i hi _ => by simpa using List.find?_eq_none.1 hmb i (List.mem_range.2 hi)
    rw [hboxes, Finset.card_empty, Nat.add_zero] at hall
    simp only [if_pos hall]
    exact ⟨box, trivial, h⟩
  | some mb =>
    have hmbM := List.mem_range.1 (List.mem_of_find?_eq_some hmb)
    have hfree : (t.boxes mb).live = false := by simpa using List.find?_some hmb
    have hspare := card_filter_of_missing (n := M) (p := fun i => (t.boxes i).live) {mb}
      (by simpa using hmbM) (by simpa using hfree)
    rw [hboxes, Finset.card_singleton] at hspare
    simp only [if_neg (show ¬ M ≤ a.liveSet.card by omega)]
    cases hs : (List.range E).find? fun i => !(t.eps i).live with
    | none =>
      have hall := card_filter_of_all_but (n := E) (p := fun i => (t.eps i).live) ∅
        fun i hi _ => by simpa using List.find?_eq_none.1 hs i (List.mem_range.2 hi)
      rw [heps, Finset.card_empty] at hall
      simp only [if_pos (show E < 2 * a.liveSet.card + 2 by omega)]
      exact ⟨box, trivial, h⟩
    | some sendEp =>
      obtain ⟨hsend, hsE, hbelow⟩ := List.find?_range_eq_some.1 hs
      rw [List.mem_range] at hsE
      simp only [Bool.not_eq_true', Bool.not_not] at hsend hbelow
      have hsmall := h.first_free hM (x := sendEp) hsE fun i hi _ => hbelow i hi
      simp only
      cases hr : (List.range E).find? fun i => !(t.eps i).live && i != sendEp with
      | none =>
        have hall := card_filter_of_all_but (n := E) (p := fun i => (t.eps i).live) {sendEp} ?_
        · rw [heps, Finset.card_singleton] at hall
          simp only [if_pos (show E < 2 * a.liveSet.card + 2 by omega)]
          exact ⟨box, trivial, h⟩
        intro i hi hne
        have hnot := List.find?_eq_none.1 hr i (List.mem_range.2 hi)
        rw [Finset.mem_singleton] at hne
        simpa [hne] using hnot
      | some recvEp =>
        obtain ⟨hrecv, hrE, hlower⟩ := List.find?_range_eq_some.1 hr
        rw [List.mem_range] at hrE
        simp only [Bool.and_eq_true, Bool.not_eq_true', bne_iff_ne, ne_eq, Bool.not_and,
          Bool.not_not, Bool.or_eq_true, bne_eq_false_iff_eq] at hrecv hlower
        have hsmall' := h.first_free hM hrE fun i hi hne => (hlower i hi).resolve_right hne
        have htwo := card_filter_of_missing (n := E) (p := fun i => (t.eps i).live)
          {sendEp, recvEp} ?_ ?_
        · rw [heps, Finset.card_pair (Ne.symm hrecv.2)] at htwo
          simp only [if_neg (show ¬ E < 2 * a.liveSet.card + 2 by omega), namesOf]
          exact ⟨_, trivial, h.add hmbM hfree hsE hsend hrE hrecv.1 hrecv.2 hsmall hsmall' ..⟩
        · intro i hi
          rw [Finset.mem_insert, Finset.mem_singleton] at hi
          rcases hi with rfl | rfl
          · exact Finset.mem_range.2 hsE
          · exact Finset.mem_range.2 hrE
        · intro i hi
          rw [Finset.mem_insert, Finset.mem_singleton] at hi
          rcases hi with rfl | rfl
          · exact hsend
          · exact hrecv.1

end Refines

end HarborKernel.Channels
