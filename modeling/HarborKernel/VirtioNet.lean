import HarborKernel.CyclicTable
import HarborKernel.PacketPool
import HarborKernel.ReadyList

/-!
The virtio transport (`bsp/qemu_virt/net.rs`) over its split queues (`drivers/virtio_mmio.rs`).
The two queues differ in what is remembered of a posted buffer, so a queue with its bookkeeping
is one structure. The descriptor for a buffer is chosen by a counter, not from a list of free
ones. Cache maintenance and the bytes of frames are left out.
-/

namespace HarborKernel.QemuVirt

open Function Net ReadyList

def queueSize : ℕ := 8
def virtioNetHeaderBytes : ℕ := 12
def maxBufferBytes : ℕ := packetBytes + virtioNetHeaderBytes
def descFWrite : ℕ := 2
def rxQueue : ℕ := 0
def txQueue : ℕ := 1

inductive QueueSetupFailure
  | invalidBuffer
  | queueFull (queue : ℕ)
deriving DecidableEq

structure Descriptor where
  pa : ℕ
  len : ℕ
  flags : ℕ
deriving DecidableEq

structure UsedElement where
  descriptor : ℕ
  len : ℕ
deriving DecidableEq

structure Rings where
  desc : ℕ → Descriptor
  availRing : ℕ → ℕ
  availIdx : ℕ
  usedRing : ℕ → UsedElement
  usedIdx : ℕ

structure QueueCursor where
  avail : ℕ
  used : ℕ
deriving DecidableEq

def validDescriptor (address len : ℕ) : Bool :=
  decide (address ≠ 0 ∧ address % 16 = 0 ∧ len ≠ 0 ∧ len ≤ maxBufferBytes)

structure Port (α : Type) where
  rings : Rings
  cursor : QueueCursor
  pending : ℕ → Option α
  position : ℕ
  ready : List (Option (PacketToken × Completion))

namespace Port

variable {α : Type}

def publish (p : Port α) (queue pa len flags : ℕ) : Except QueueSetupFailure Unit × Port α :=
  if !validDescriptor pa len then (.error .invalidBuffer, p)
  else if queueSize ≤ (p.cursor.avail + 2 ^ 16 - p.rings.usedIdx) % 2 ^ 16 then
    (.error (.queueFull queue), p)
  else
    let descriptor := p.cursor.avail % queueSize
    let avail := (p.cursor.avail + 1) % 2 ^ 16
    (.ok (), { p with
      rings := { p.rings with
        desc := update p.rings.desc descriptor ⟨pa, len, flags⟩
        availRing := update p.rings.availRing (p.cursor.avail % queueSize) descriptor
        availIdx := avail }
      cursor := { p.cursor with avail } })

def post (p : Port α) (x : α) (queue pa len flags : ℕ) :
    Except QueueSetupFailure Unit × Port α :=
  match p.publish queue pa len flags with
  | (.error e, p) => (.error e, p)
  | (.ok (), p) => (.ok (), { p with
      pending := update p.pending (p.position % queueSize) (some x)
      position := (p.position + 1) % 2 ^ 16 })

def pollUsed (p : Port α) : Option UsedElement × Port α :=
  if p.cursor.used = p.rings.usedIdx then (none, p)
  else
    let element := p.rings.usedRing (p.cursor.used % queueSize)
    (some ⟨element.descriptor % 2 ^ 16, element.len⟩,
      { p with cursor := { p.cursor with used := (p.cursor.used + 1) % 2 ^ 16 } })

def consume (p : Port α) : Option (UsedElement × Option α × Port α) :=
  match p.pollUsed with
  | (none, _) => none
  | (some used, p) =>
    let position := used.descriptor % queueSize
    some (used, p.pending position,
      { p with pending := update p.pending position none })

def park (p : Port α) (token : PacketToken) (completion : Completion) : Port α :=
  { p with ready := enqueue p.ready (token, completion) }

def take (p : Port α) : Option (PacketToken × Completion) × Port α :=
  ((takeFirst p.ready).1, { p with ready := (takeFirst p.ready).2 })

/-- The queue after the device was restarted. The ring pages are not cleared. -/
def restart (p : Port α) : Port α :=
  ⟨p.rings, ⟨0, 0⟩, fun _ => none, 0, vacant queueSize⟩

end Port

structure Virtio where
  rx : Port (PacketToken × Buffer)
  tx : Port PacketToken

namespace Virtio

def postRx (v : Virtio) (token : PacketToken) (buffer : Buffer) :
    Except QueueSetupFailure Unit × Virtio :=
  let (answer, rx) :=
    v.rx.post (token, buffer) rxQueue buffer.pa (virtioNetHeaderBytes + buffer.len) descFWrite
  (answer, { v with rx })

def returnRx : Virtio → PacketToken → Buffer → Except QueueSetupFailure Unit × Virtio := postRx

def submitTx (v : Virtio) (token : PacketToken) (buffer : Buffer) :
    Except QueueSetupFailure Unit × Virtio :=
  match validateFrameLength buffer.len with
  | .error _ => (.error .invalidBuffer, v)
  | .ok () =>
    let (answer, tx) := v.tx.post token txQueue buffer.pa (virtioNetHeaderBytes + buffer.len) 0
    (answer, { v with tx })

def probe (v : Virtio) (pa : ℕ) : Except QueueSetupFailure Unit × Virtio :=
  let (answer, tx) :=
    v.tx.post ⟨0, 0, 0⟩ txQueue pa (virtioNetHeaderBytes + ethernetMinFrameBytes) 0
  (answer, { v with tx })

def advanceTx (v : Virtio) : Option Virtio :=
  match v.tx.consume with
  | none => none
  | some (_, none, tx) => some { v with tx }
  | some (used, some token, tx) =>
    some { v with tx := tx.park token ⟨used.descriptor, used.len⟩ }

def deliverable (used : UsedElement) (buffer : Buffer) : Bool :=
  decide (virtioNetHeaderBytes ≤ used.len ∧ used.len ≤ virtioNetHeaderBytes + buffer.len) &&
    (validateFrameLength (used.len - virtioNetHeaderBytes)).isOk

def advanceRx (v : Virtio) : Option Virtio :=
  match v.rx.consume with
  | none => none
  | some (_, none, rx) => some { v with rx }
  | some (used, some (token, buffer), rx) =>
    if deliverable used buffer then
      some { v with
        rx := rx.park token ⟨used.descriptor, used.len - virtioNetHeaderBytes⟩ }
    else some ({ v with rx }.returnRx token buffer).2

/-- Repeat a turn until it has nothing to do; out of fuel there is no result. -/
def loop (turn : Virtio → Option Virtio) : ℕ → Virtio → Option Virtio
  | 0, _ => none
  | fuel + 1, v =>
    match turn v with
    | none => some v
    | some v => loop turn fuel v

def poll (fuel : ℕ) (v : Virtio) : Option Virtio :=
  (loop advanceTx fuel v).bind (loop advanceRx fuel)

def takeTxComplete (v : Virtio) : Option (PacketToken × Completion) × Virtio :=
  (v.tx.take.1, { v with tx := v.tx.take.2 })

def takeRxAvailable (v : Virtio) : Option (PacketToken × Completion) × Virtio :=
  (v.rx.take.1, { v with rx := v.rx.take.2 })

def reset (v : Virtio) : Virtio := ⟨v.rx.restart, v.tx.restart⟩

end Virtio

def Port.Words {α : Type} (p : Port α) : Prop :=
  p.cursor.used < 2 ^ 16 ∧ p.rings.usedIdx < 2 ^ 16

def Port.unread {α : Type} (p : Port α) : ℕ := (p.rings.usedIdx + 2 ^ 16 - p.cursor.used) % 2 ^ 16

theorem Port.consume_unread {α : Type} {p p' : Port α} {used : UsedElement} {found : Option α}
    (h : p.Words) (hconsume : p.consume = some (used, found, p')) :
    p'.Words ∧ p'.unread < p.unread := by
  obtain ⟨hused, hidx⟩ := h
  unfold Port.consume Port.pollUsed at hconsume
  by_cases heq : p.cursor.used = p.rings.usedIdx
  · simp only [heq, if_true] at hconsume
    cases hconsume
  simp only [heq, if_false, Option.some.injEq, Prod.mk.injEq] at hconsume
  obtain ⟨-, -, rfl⟩ := hconsume
  simp only [Port.Words, Port.unread]
  omega

theorem Port.post_unread {α : Type} (p : Port α) (x : α) (queue pa len flags : ℕ) :
    ((p.post x queue pa len flags).2.Words ↔ p.Words) ∧
      (p.post x queue pa len flags).2.unread = p.unread := by
  unfold Port.post Port.publish
  by_cases hvalid : validDescriptor pa len = true
  · by_cases hfull : queueSize ≤ (p.cursor.avail + 2 ^ 16 - p.rings.usedIdx) % 2 ^ 16
    · simp only [hvalid, hfull, Bool.not_true, Bool.false_eq_true, if_false, if_true, and_self]
    · simp only [hvalid, hfull, Bool.not_true, Bool.false_eq_true, if_false, Port.Words,
        Port.unread, and_self]
  · simp only [hvalid, Bool.not_false, if_true, and_self]

namespace Virtio

theorem loop_returns {turn : Virtio → Option Virtio} {I : Virtio → Prop} {unread : Virtio → ℕ}
    (hturn : ∀ v v', I v → turn v = some v' → I v' ∧ unread v' < unread v) :
    ∀ (fuel : ℕ) (v : Virtio), I v → unread v < fuel →
      ∃ v', loop turn fuel v = some v' ∧ I v' ∧ turn v' = none := by
  intro fuel
  induction fuel with
  | zero =>
    intro v _ hfuel
    exact absurd hfuel (Nat.not_lt_zero _)
  | succ fuel ih =>
    intro v hv hfuel
    rw [loop]
    cases hnext : turn v with
    | none => exact ⟨v, rfl, hv, hnext⟩
    | some v1 =>
      obtain ⟨hv1, hlt⟩ := hturn v v1 hv hnext
      exact ih v1 hv1 (by omega)

theorem loop_invariant {turn : Virtio → Option Virtio} {I : Virtio → Prop}
    (hturn : ∀ v v', I v → turn v = some v' → I v') :
    ∀ (fuel : ℕ) (v v' : Virtio), I v → loop turn fuel v = some v' → I v' := by
  intro fuel
  induction fuel with
  | zero =>
    intro v v' _ hloop
    cases hloop
  | succ fuel ih =>
    intro v v' hv hloop
    rw [loop] at hloop
    cases hnext : turn v with
    | none =>
      rw [hnext] at hloop
      cases hloop
      exact hv
    | some v1 =>
      rw [hnext] at hloop
      exact ih v1 v' (hturn v v1 hv hnext) hloop

theorem advanceTx_unread {v v' : Virtio} (h : v.rx.Words ∧ v.tx.Words)
    (hturn : advanceTx v = some v') :
    (v'.rx.Words ∧ v'.tx.Words) ∧ v'.tx.unread < v.tx.unread := by
  unfold advanceTx at hturn
  split at hturn
  · cases hturn
  · rename_i hconsume
    cases hturn
    obtain ⟨hwords, hlt⟩ := Port.consume_unread h.2 hconsume
    exact ⟨⟨h.1, hwords⟩, hlt⟩
  · rename_i hconsume
    cases hturn
    obtain ⟨hwords, hlt⟩ := Port.consume_unread h.2 hconsume
    exact ⟨⟨h.1, hwords⟩, hlt⟩

theorem advanceRx_unread {v v' : Virtio} (h : v.rx.Words) (hturn : advanceRx v = some v') :
    (v'.rx.Words ∧ v'.tx = v.tx) ∧ v'.rx.unread < v.rx.unread := by
  unfold advanceRx at hturn
  split at hturn
  · cases hturn
  · rename_i hconsume
    cases hturn
    obtain ⟨hwords, hlt⟩ := Port.consume_unread h hconsume
    exact ⟨⟨hwords, rfl⟩, hlt⟩
  · rename_i hconsume
    obtain ⟨hwords, hlt⟩ := Port.consume_unread h hconsume
    split at hturn
    · cases hturn
      exact ⟨⟨hwords, rfl⟩, hlt⟩
    cases hturn
    obtain ⟨hkeep, hsame⟩ := Port.post_unread _ _ _ _ _ _
    exact ⟨⟨hkeep.2 hwords, rfl⟩, hsame.trans_lt hlt⟩

/-- A poll returns, and leaves no used element unread. -/
theorem poll_returns {v : Virtio} {fuel : ℕ} (hrx : v.rx.Words) (htx : v.tx.Words)
    (hfuel : 2 ^ 16 ≤ fuel) :
    ∃ v', poll fuel v = some v' ∧ advanceTx v' = none ∧ advanceRx v' = none := by
  have hlt : ∀ n : ℕ, n % 2 ^ 16 < fuel :=
    fun n => Nat.lt_of_lt_of_le (Nat.mod_lt n (Nat.two_pow_pos 16)) hfuel
  obtain ⟨v1, hloop1, ⟨hrx1, -⟩, hdone1⟩ :=
    loop_returns (fun _ _ => advanceTx_unread) fuel v ⟨hrx, htx⟩ (hlt _)
  -- the receive loop leaves the other queue as the transmit loop left it
  obtain ⟨v2, hloop2, ⟨-, htx2⟩, hdone2⟩ := loop_returns (I := fun v => v.rx.Words ∧ v.tx = v1.tx)
    (fun _ _ hv hturn => ⟨⟨(advanceRx_unread hv.1 hturn).1.1,
      (advanceRx_unread hv.1 hturn).1.2.trans hv.2⟩, (advanceRx_unread hv.1 hturn).2⟩)
    fuel v1 ⟨hrx1, rfl⟩ (hlt _)
  refine ⟨v2, by rw [poll, hloop1]; exact hloop2, ?_, hdone2⟩
  unfold advanceTx at hdone1 ⊢
  rw [htx2]
  split at hdone1
  · rfl
  · cases hdone1
  · cases hdone1

end Virtio

end HarborKernel.QemuVirt
