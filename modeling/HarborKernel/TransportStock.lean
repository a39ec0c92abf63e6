import HarborKernel.GenetReceiving
import HarborKernel.NetworkBackends
import HarborKernel.VirtioRuns
import Mathlib.Data.List.Perm.Subperm
import Mathlib.Logic.Relation

/-!
The receive buffers that a transport has: those that are posted, oldest first, and those whose
frames wait in the ready list. A poll takes posted buffers from the front, and parks each or posts
it again. The transports of both boards do this while their devices keep to the protocol.
-/

namespace HarborKernel.Network

open Net ReadyList Relation

def ownBuffer (dma : ℕ → ℕ) (slot : ℕ) : Buffer :=
  ⟨dma (rxDmaFirstIndex + slot - packetSlots / 2), packetBytes⟩

structure Stock where
  queue : List (PacketToken × Buffer)
  ready : List (Option (PacketToken × Completion))

namespace Stock

def empty : Stock := ⟨[], vacant (packetSlots / 2)⟩

def post (s : Stock) (token : PacketToken) (buffer : Buffer) : Stock :=
  { s with queue := s.queue ++ [(token, buffer)] }

def take (s : Stock) : Stock := { s with ready := (takeFirst s.ready).2 }

/-- The oldest buffer is parked with its frame, or posted again. -/
inductive Turn : Stock → Stock → Prop
  | park {x : PacketToken × Buffer} {rest : List (PacketToken × Buffer)}
      {ready : List (Option (PacketToken × Completion))} (completion : Completion) :
      Turn ⟨x :: rest, ready⟩ ⟨rest, enqueue ready (x.1, completion)⟩
  | again {x : PacketToken × Buffer} {rest : List (PacketToken × Buffer)}
      {ready : List (Option (PacketToken × Completion))} :
      Turn ⟨x :: rest, ready⟩ ⟨rest ++ [x], ready⟩

def slots (s : Stock) : List ℕ :=
  s.queue.map (fun e => e.1.slot.toNat) ++ s.ready.reduceOption.map fun e => e.1.slot.toNat

/-- Each receive slot is in the stock at most once, and is posted with its own buffer. -/
structure Tidy (dma : ℕ → ℕ) (s : Stock) : Prop where
  places : s.ready.length = packetSlots / 2
  apart : s.slots.Nodup
  receive : ∀ slot ∈ s.slots, slot ∈ rxSlots
  own : ∀ e ∈ s.queue, e.2 = ownBuffer dma e.1.slot.toNat

variable {dma : ℕ → ℕ} {s s' : Stock} {slot : ℕ} {token : PacketToken} {buffer : Buffer}

theorem slots_empty : empty.slots = [] := by
  rw [slots, empty, reduceOption_vacant]
  rfl

theorem slots_post (s : Stock) (token : PacketToken) (buffer : Buffer) :
    (s.post token buffer).slots.Perm (token.slot.toNat :: s.slots) := by
  simp only [slots, post, List.map_append, List.map_cons, List.map_nil, List.append_assoc,
    List.cons_append, List.nil_append]
  exact List.perm_middle

theorem slots_take_none (h : (takeFirst s.ready).1 = none) : s.take.slots = s.slots := by
  rw [slots, slots, take, takeFirst_reduceOption s.ready, h]
  rfl

theorem slots_take_some {completion : Completion}
    (h : (takeFirst s.ready).1 = some (token, completion)) :
    s.slots.Perm (token.slot.toNat :: s.take.slots) := by
  rw [slots, slots, take, takeFirst_reduceOption s.ready, h]
  exact List.perm_middle

theorem Tidy.empty (dma : ℕ → ℕ) : empty.Tidy dma := by
  refine ⟨List.length_replicate .., ?_, ?_, nofun⟩
  · rw [slots_empty]
    exact List.nodup_nil
  · rw [slots_empty]
    exact fun slot hslot => absurd hslot List.not_mem_nil

section

variable (h : s.Tidy dma)
include h

theorem Tidy.of_perm (hplaces : s'.ready.length = s.ready.length)
    (hown : ∀ e ∈ s'.queue, e ∈ s.queue) (hperm : s'.slots.Perm s.slots) : s'.Tidy dma :=
  ⟨hplaces.trans h.places, hperm.nodup_iff.2 h.apart,
    fun slot hslot => h.receive slot (hperm.mem_iff.1 hslot), fun e he => h.own e (hown e he)⟩

theorem Tidy.length_le : s.slots.length ≤ packetSlots / 2 :=
  (List.subperm_of_subset h.apart h.receive).length_le

theorem Tidy.room (hslot : slot ∈ rxSlots) (hnot : slot ∉ s.slots) :
    s.queue.length < packetSlots / 2 := by
  have hsub : slot :: s.slots ⊆ rxSlots := List.cons_subset.2 ⟨hslot, h.receive⟩
  have hlength : (slot :: s.slots).length ≤ packetSlots / 2 :=
    (List.subperm_of_subset (List.nodup_cons.2 ⟨hnot, h.apart⟩) hsub).length_le
  rw [List.length_cons, slots, List.length_append, List.length_map] at hlength
  omega

theorem Tidy.post (hslot : token.slot.toNat ∈ rxSlots) (hnot : token.slot.toNat ∉ s.slots) :
    (s.post token (ownBuffer dma token.slot.toNat)).Tidy dma := by
  have hperm := s.slots_post token (ownBuffer dma token.slot.toNat)
  refine ⟨h.places, hperm.nodup_iff.2 (List.nodup_cons.2 ⟨hnot, h.apart⟩), ?_, ?_⟩
  · intro i hi
    rcases List.mem_cons.1 (hperm.mem_iff.1 hi) with rfl | hi
    · exact hslot
    · exact h.receive i hi
  · intro e he
    rcases List.mem_append.1 he with he | he
    · exact h.own e he
    · obtain rfl := List.mem_singleton.1 he
      rfl

theorem Tidy.take : s.take.Tidy dma := by
  have hsub : s.take.slots.Sublist s.slots := by
    rw [slots, slots, Stock.take, takeFirst_reduceOption s.ready, List.map_append]
    exact (List.sublist_append_right _ _).append_left _
  exact ⟨(length_takeFirst _).trans h.places, h.apart.sublist hsub,
    fun slot hslot => h.receive slot (hsub.subset hslot), h.own⟩

end

theorem Turn.mem_queue (hturn : Turn s s') {e : PacketToken × Buffer} (he : e ∈ s'.queue) :
    e ∈ s.queue := by
  cases hturn with
  | park completion => exact List.mem_cons_of_mem _ he
  | again => exact (List.perm_append_singleton _ _).mem_iff.1 he

theorem Turn.slots_perm (hturn : Turn s s') (h : s.Tidy dma) : s'.slots.Perm s.slots := by
  cases hturn with
  | @park x rest ready completion =>
    have hlength := h.length_le
    have hplaces := h.places
    simp only [slots, List.length_append, List.length_map, List.length_cons] at hlength hplaces
    have hperm := (enqueue_perm (l := ready) (by omega) (x.1, completion)).map
      fun e => e.1.slot.toNat
    exact (hperm.append_left _).trans List.perm_middle
  | again =>
    simp only [slots, List.map_append, List.map_cons, List.map_nil]
    exact (List.perm_append_singleton _ _).append_right _

theorem Turn.tidy (hturn : Turn s s') (h : s.Tidy dma) : s'.Tidy dma := by
  refine h.of_perm ?_ (fun e he => hturn.mem_queue he) (hturn.slots_perm h)
  cases hturn with
  | park completion => exact length_enqueue _ _
  | again => rfl

/-- A poll leaves every slot where it was, with the device or in the ready list. -/
theorem turns_tidy (hturns : ReflTransGen Turn s s') (h : s.Tidy dma) :
    s'.Tidy dma ∧ s'.slots.Perm s.slots := by
  induction hturns with
  | refl => exact ⟨h, List.Perm.refl _⟩
  | tail _ hturn ih => exact ⟨hturn.tidy ih.1, (hturn.slots_perm ih.1).trans ih.2⟩

end Stock

/-- What a transport has in stock, and what each call does to it while the transport is up. A
buffer that it takes is posted while fewer than eight are. -/
structure Custody (σ : Type) {ε : Type} [Transport σ ε] where
  stock : σ → Stock
  up : σ → Prop
  /-- A reset succeeds and the buffers can be posted again. -/
  resets : σ → Prop
  takes : Buffer → Prop
  start : ∀ {t t' set tx}, up t → stock t = .empty → (∀ e ∈ set, takes e.2) →
    Transport.start t set tx = (.ok (), t') → up t' ∧ stock t' = ⟨set, (stock t).ready⟩
  returnRx : ∀ {t} token buffer, up t → takes buffer →
    (stock t).queue.length < packetSlots / 2 → ∃ t',
      Transport.returnRx t token buffer = (.ok (), t') ∧ up t' ∧
        stock t' = (stock t).post token buffer
  takeRx : ∀ {t}, up t →
    (Transport.takeRxAvailable t).1 = (takeFirst (stock t).ready).1 ∧
      up (Transport.takeRxAvailable t).2 ∧
      stock (Transport.takeRxAvailable t).2 = (stock t).take
  submitTx : ∀ {t} token buffer, up t → up (Transport.submitTx t token buffer).2 ∧
    stock (Transport.submitTx t token buffer).2 = stock t
  takeTx : ∀ {t}, up t → up (Transport.takeTxComplete t).2 ∧
    stock (Transport.takeTxComplete t).2 = stock t
  poll_ok : ∀ {t t' fuel}, up t → (∀ e ∈ (stock t).queue, takes e.2) →
    Transport.poll fuel t = some (.ok (), t') →
      up t' ∧ ReflTransGen Stock.Turn (stock t) (stock t')
  poll_error : ∀ {t t' fuel e}, up t → (∀ e ∈ (stock t).queue, takes e.2) →
    Transport.poll fuel t = some (.error e, t') → resets t'
  reset : ∀ {t}, resets t → ∃ t', Transport.reset t = (.ok (), t') ∧ up t' ∧ stock t' = .empty

end HarborKernel.Network

namespace HarborKernel.QemuVirt

open Function CyclicTable Net ReadyList Relation
open Network (Custody Stock Transport)

namespace Tracked

variable {α : Type} {t : Tracked α}

/-- The cursors and the table say what is posted and not consumed. -/
theorem Flow.window_eq (h : Flow t) :
    window queueSize t.port.pending t.port.cursor.used
        ((t.port.cursor.avail + 2 ^ 16 - t.port.cursor.used) % 2 ^ 16) =
      (t.log.map Prod.fst).drop t.consumed := by
  have hconsumed := h.consumed_le.trans h.returned_le
  have hroom : t.log.length ≤ t.consumed + 8 := h.room
  have hlength : (t.port.cursor.avail + 2 ^ 16 - t.port.cursor.used) % 2 ^ 16 =
      (t.log.map Prod.fst).length - t.consumed := by
    rw [h.avail, h.used, List.length_map]
    omega
  rw [hlength, h.used, window_mod (by decide),
    h.pending.window_eq (by rw [List.length_map]; exact h.room)]

theorem Flow.post_ok (h : Flow t) (hroom : t.log.length < t.consumed + queueSize) {pa len : ℕ}
    (hvalid : validDescriptor pa len = true) (x : α) (queue flags : ℕ) :
    ∃ t', t.post x queue pa len flags = (.ok (), t') ∧ Flow t' ∧ t'.consumed = t.consumed ∧
      t'.log = t.log ++ [(x, ⟨pa, len, flags⟩)] ∧ t'.port.ready = t.port.ready := by
  have hflow : Flow (t.post x queue pa len flags).2 := h.post hroom
  have hfull : ¬ queueSize ≤ (t.port.cursor.avail + 2 ^ 16 - t.port.rings.usedIdx) % 2 ^ 16 := by
    have hconsumed := h.consumed_le
    have hreturned := h.returned_le
    rw [h.avail, h.usedIdx]
    simp only [queueSize] at hroom ⊢
    omega
  simp only [Tracked.post, Port.post, Port.publish, hvalid, hfull, Bool.not_true,
    Bool.false_eq_true, if_false] at hflow ⊢
  exact ⟨_, rfl, hflow, rfl, rfl, rfl⟩

end Tracked

namespace Virtio

def stock (v : Virtio) : Stock where
  queue := window queueSize v.rx.pending v.rx.cursor.used
    ((v.rx.cursor.avail + 2 ^ 16 - v.rx.cursor.used) % 2 ^ 16)
  ready := v.rx.ready

/-- The device has returned receive buffers in the order in which they were posted. -/
def Up (v : Virtio) : Prop := ∃ t : Tracked (PacketToken × Buffer), t.port = v.rx ∧ t.Flow

def Takes (buffer : Buffer) : Prop :=
  validDescriptor buffer.pa (virtioNetHeaderBytes + buffer.len) = true

variable {v v' : Virtio}

theorem stock_queue {t : Tracked (PacketToken × Buffer)} (hport : t.port = v.rx) (h : t.Flow) :
    v.stock.queue = (t.log.map Prod.fst).drop t.consumed := by
  rw [← h.window_eq, hport]
  rfl

theorem stock_congr (hrx : v'.rx = v.rx) : v'.stock = v.stock := by
  unfold stock
  rw [hrx]

theorem Up.congr (h : v.Up) (hrx : v'.rx = v.rx) : v'.Up := by
  obtain ⟨t, hport, hflow⟩ := h
  exact ⟨t, hport.trans hrx.symm, hflow⟩

theorem Up.postRx (h : v.Up) (token : PacketToken) {buffer : Buffer} (htakes : Takes buffer)
    (hroom : v.stock.queue.length < queueSize) :
    ∃ v', v.postRx token buffer = (.ok (), v') ∧ v'.Up ∧
      v'.stock = v.stock.post token buffer := by
  obtain ⟨t, hport, hflow⟩ := h
  have hqueue := stock_queue hport hflow
  rw [hqueue, List.length_drop, List.length_map] at hroom
  have hconsumed := hflow.consumed_le.trans hflow.returned_le
  obtain ⟨t', hpost, hflow', hsame, hlog, hready⟩ := hflow.post_ok (by omega) htakes
    (token, buffer) rxQueue descFWrite
  obtain ⟨hanswer, hport'⟩ := System.post_port t (token, buffer) rxQueue buffer.pa
    (virtioNetHeaderBytes + buffer.len) descFWrite
  rw [hpost, hport] at hanswer hport'
  have hcall : v.postRx token buffer = (.ok (), { v with rx := t'.port }) :=
    Prod.ext hanswer.symm (congrArg (fun rx => { v with rx }) hport'.symm)
  have hqueue' : ({ v with rx := t'.port } : Virtio).stock.queue =
      v.stock.queue ++ [(token, buffer)] := by
    rw [stock_queue (t := t') rfl hflow', hsame, hlog, List.map_append, hqueue,
      List.drop_append_of_le_length (by rwa [List.length_map])]
    rfl
  have hready' : t'.port.ready = v.rx.ready := by rw [hready, hport]
  refine ⟨_, hcall, ⟨t', rfl, hflow'⟩, ?_⟩
  rw [Stock.post, ← hqueue']
  exact congrArg (Stock.mk _) hready'

theorem Up.takeRx (h : v.Up) : v.takeRxAvailable.2.Up := by
  obtain ⟨t, hport, hflow⟩ := h
  refine ⟨t.take, ?_, hflow.take⟩
  rw [Tracked.take, hport]
  rfl

/-- What is consumed is the oldest buffer in stock. -/
theorem Up.consume (h : v.Up) {used : UsedElement} {found : Option (PacketToken × Buffer)}
    {rx : Port (PacketToken × Buffer)} (hconsume : v.rx.consume = some (used, found, rx)) :
    ∃ token buffer rest, found = some (token, buffer) ∧
      v.stock = ⟨(token, buffer) :: rest, v.rx.ready⟩ ∧ rest.length < queueSize ∧
      rx.ready = v.rx.ready ∧ ∀ ready, let v' := { v with rx := { rx with ready } }
        v'.Up ∧ v'.stock = ⟨rest, ready⟩ := by
  obtain ⟨t, hport, hflow⟩ := h
  have hqueue := stock_queue hport hflow
  obtain ⟨t', htracked, rfl, hlog, hsucc⟩ : ∃ t', t.consume = some (used, found, t') ∧
      t'.port = rx ∧ t'.log = t.log ∧ t'.consumed = t.consumed + 1 := by
    unfold Tracked.consume
    rw [hport, hconsume]
    exact ⟨_, rfl, rfl, rfl, rfl⟩
  obtain ⟨hflow', ⟨token, buffer⟩, d, hfound, hitem⟩ := hflow.consume htracked
  obtain ⟨hlt, hget⟩ := List.getElem?_eq_some_iff.1 hitem
  rw [List.drop_eq_getElem_cons (by rwa [List.length_map]), List.getElem_map, hget] at hqueue
  refine ⟨token, buffer, _, hfound, congrArg (Stock.mk · v.rx.ready) hqueue, ?_, ?_, ?_⟩
  · have hroom := hflow.room
    rw [List.length_drop, List.length_map]
    omega
  · rw [(Tracked.consume_some htracked).2.2, ← hport]
  · intro ready
    have hup := hflow'.handled ready t'.delivered t'.refused
    have hrest := stock_queue (v := { v with rx := { t'.port with ready } }) rfl hup
    rw [hlog, hsucc] at hrest
    exact ⟨⟨_, rfl, hup⟩, congrArg (Stock.mk · ready) hrest⟩

/-- What the device returned is parked or posted again. -/
theorem Up.advanceRx (h : v.Up) (htakes : ∀ e ∈ v.stock.queue, Takes e.2)
    (hturn : v.advanceRx = some v') : v'.Up ∧ Stock.Turn v.stock v'.stock := by
  unfold Virtio.advanceRx at hturn
  rcases hconsume : v.rx.consume with _ | ⟨used, found, rx⟩
  · rw [hconsume] at hturn
    cases hturn
  rw [hconsume] at hturn
  obtain ⟨token, buffer, rest, rfl, hstock, hroom, hready, hnext⟩ := h.consume hconsume
  simp only at hturn
  split at hturn
  · cases hturn
    obtain ⟨hup1, hstock1⟩ := hnext
      (enqueue rx.ready (token, ⟨used.descriptor, used.len - virtioNetHeaderBytes⟩))
    refine ⟨hup1, ?_⟩
    rw [hstock, Port.park, hstock1, hready]
    exact .park _
  · obtain ⟨hup1, hstock1⟩ := hnext rx.ready
    obtain ⟨v2, hcall, hup2, hstock2⟩ := hup1.postRx token
      (htakes (token, buffer) (by rw [hstock]; exact List.mem_cons_self ..)) (by rwa [hstock1])
    rw [Virtio.returnRx, hcall] at hturn
    cases hturn
    rw [hstock2, hstock1, hstock, hready]
    exact ⟨hup2, .again⟩

theorem advanceTx_rx (hturn : v.advanceTx = some v') : v'.rx = v.rx := by
  unfold advanceTx at hturn
  split at hturn
  · cases hturn
  · cases hturn
    rfl
  · cases hturn
    rfl

theorem Up.poll (h : v.Up) (htakes : ∀ e ∈ v.stock.queue, Takes e.2) {fuel : ℕ}
    (hpoll : v.poll fuel = some v') :
    v'.Up ∧ ReflTransGen Stock.Turn v.stock v'.stock := by
  obtain ⟨v1, htx, hrx⟩ := Option.bind_eq_some_iff.1 hpoll
  have hsame : v1.rx = v.rx := loop_invariant (I := fun v1 => v1.rx = v.rx)
    (fun _ _ hv hturn => (advanceTx_rx hturn).trans hv) fuel v v1 rfl htx
  have hturns := loop_invariant
    (I := fun v2 => v2.Up ∧ (∀ e ∈ v2.stock.queue, Takes e.2) ∧
      ReflTransGen Stock.Turn v.stock v2.stock) ?_ fuel v1 v'
    ⟨h.congr hsame, by rwa [stock_congr hsame], by rw [stock_congr hsame]⟩ hrx
  · exact ⟨hturns.1, hturns.2.2⟩
  rintro v2 v3 ⟨hup, hall, hsteps⟩ hturn
  obtain ⟨hup3, hstep⟩ := hup.advanceRx hall hturn
  exact ⟨hup3, fun e he => hall e (hstep.mem_queue he), hsteps.tail hstep⟩

theorem Up.postAll : ∀ {set : List (PacketToken × Buffer)} {v : Virtio}, v.Up →
    (∀ e ∈ set, Takes e.2) → v.stock.queue.length + set.length ≤ queueSize →
    ∃ v', v.postAll set = (.ok (), v') ∧ v'.Up ∧
      v'.stock = ⟨v.stock.queue ++ set, v.stock.ready⟩ := by
  intro set
  induction set with
  | nil =>
    intro v hup _ _
    exact ⟨v, rfl, hup, by rw [List.append_nil]⟩
  | cons e rest ih =>
    intro v hup htakes hroom
    rw [List.length_cons] at hroom
    obtain ⟨v1, hcall, hup1, hstock1⟩ := hup.postRx e.1 (htakes e (List.mem_cons_self ..))
      (by omega)
    obtain ⟨v2, hrest, hup2, hstock2⟩ := ih hup1 (fun d hd => htakes d (List.mem_cons_of_mem _ hd))
      (by rw [hstock1, Stock.post, List.length_append, List.length_singleton]; omega)
    refine ⟨v2, by rw [Virtio.postAll, hcall]; exact hrest, hup2, ?_⟩
    rw [hstock2, hstock1, Stock.post, ← List.append_cons]

theorem submitTx_rx (v : Virtio) (token : PacketToken) (buffer : Buffer) :
    (v.submitTx token buffer).2.rx = v.rx := by
  unfold submitTx
  split
  · rfl
  · rfl

theorem stock_reset (v : Virtio) : v.reset.stock = .empty := by
  simp only [stock, reset, Port.restart, Nat.zero_add, Nat.sub_zero, Nat.mod_self, window,
    List.range_zero, List.filterMap_nil]
  rfl

/-- The `used.idx` that a reset leaves in the ring page must be zero: the queue counts as full
otherwise. -/
def custody : Custody Virtio where
  stock := stock
  up := Up
  resets v := v.rx.rings.usedIdx = 0
  takes := Takes
  start {v v' set tx} h hempty htakes hstart := by
    simp only [Transport.start, Virtio.start] at hstart
    split at hstart
    · cases hstart
    rename_i hlength
    have hroom : v.stock.queue.length + set.length ≤ queueSize := by
      rw [hempty]
      exact (Nat.zero_add _).trans_le (Nat.le_of_not_lt hlength)
    obtain ⟨v1, hpost, hup, hstock⟩ := h.postAll htakes hroom
    rw [hpost] at hstart
    have hrx : v'.rx = v1.rx := congrArg (fun r => r.2.rx) hstart.symm
    refine ⟨hup.congr hrx, ?_⟩
    rw [stock_congr hrx, hstock, hempty]
    rfl
  returnRx token _ h htakes hroom := h.postRx token htakes hroom
  takeRx h := ⟨rfl, h.takeRx, rfl⟩
  submitTx {v} token buffer h :=
    ⟨h.congr (v.submitTx_rx token buffer), stock_congr (v.submitTx_rx token buffer)⟩
  takeTx h := ⟨h.congr rfl, rfl⟩
  poll_ok {v v' fuel} h htakes hpoll := by
    obtain ⟨v1, hpoll, heq⟩ := Option.map_eq_some_iff.1 hpoll
    cases heq
    exact h.poll htakes hpoll
  poll_error {v v' fuel e} _ _ hpoll := by
    obtain ⟨v1, -, heq⟩ := Option.map_eq_some_iff.1 hpoll
    cases heq
  reset {v} h := ⟨v.reset, rfl, ⟨_, rfl, Tracked.flow_restart h⟩, v.stock_reset⟩

/-- The device fills the next buffer. -/
def received (len : ℕ) (v : Virtio) : Virtio :=
  let rings := v.rx.rings
  { v with rx := { v.rx with rings := { rings with
      usedRing := update rings.usedRing (rings.usedIdx % queueSize)
        ⟨rings.availRing (rings.usedIdx % queueSize), len⟩
      usedIdx := (rings.usedIdx + 1) % 2 ^ 16 } } }

theorem Up.received (h : v.Up) (hnext : v.rx.rings.usedIdx ≠ v.rx.cursor.avail) (len : ℕ) :
    (v.received len).Up := by
  obtain ⟨t, hport, hflow⟩ := h
  have hlt : t.returned.length < t.log.length := by
    refine Nat.lt_of_le_of_ne hflow.returned_le fun heq => hnext ?_
    rw [← hport, hflow.usedIdx, hflow.avail, heq]
  have hflight : t.InFlight t.returned.length := by
    refine ⟨hlt, fun hmem => ?_⟩
    rw [hflow.order, List.length_range] at hmem
    exact absurd (List.mem_range.1 hmem) (Nat.lt_irrefl _)
  have hplace : v.rx.rings.usedIdx % queueSize = t.returned.length % queueSize := by
    rw [← hport, hflow.usedIdx, Nat.mod_mod_of_dvd _ (by decide)]
  have hidx : (v.rx.rings.usedIdx + 1) % 2 ^ 16 = (t.returned.length + 1) % 2 ^ 16 := by
    rw [← hport, hflow.usedIdx, Nat.mod_add_mod]
  have hback : t.giveBack t.returned.length len =
      some { t with
        port := (v.received len).rx, returned := t.returned ++ [t.returned.length] } := by
    rw [Tracked.giveBack, if_pos hflight, Virtio.received]
    simp only [hplace, hidx, hport]
  exact ⟨_, rfl, hflow.giveBack hback⟩

end Virtio

end HarborKernel.QemuVirt

namespace HarborKernel.Genet

open Function CyclicTable Net ReadyList Relation
open Network (Custody Stock Transport)

/-- The link is up, and what the driver waits for happens in time. -/
structure Answers.Granted (a : Answers) : Prop where
  reset : a.reset = .ok ()
  acquireLink : a.acquireLink = .ok ()
  programServiceRings : a.programServiceRings = .ok ()
  enable : a.enable = .ok ()
  classifyLink : ∃ link, a.classifyLink = .ok link

namespace GenetNet

def stock (net : GenetNet) : Stock where
  queue := (window v5Q0RxBdCnt net.rx.buffers net.rx.ring.consumer
    ((net.rx.ring.producer + v5Q0RxBdCnt - net.rx.ring.consumer) % v5Q0RxBdCnt)).map
      fun e => (e.1, ⟨e.2, packetBytes⟩)
  ready := net.rx.ready

structure Resets (windows : DmaWindows) (net : GenetNet) : Prop where
  answers : net.controller.answers.Granted
  dma : net.controller.dma = windows

/-- Nothing is asked of the engine's indices and status words. -/
structure Up (windows : DmaWindows) (net : GenetNet) : Prop extends Resets windows net where
  programmable : net.dataplane ≠ .linkUp
  stocked : ∃ done log, Stocked net done log

def Takes (windows : DmaWindows) (buffer : Buffer) : Prop :=
  buffer.len = packetBytes ∧ (windows.mapCpu buffer.pa rxBufLength).isSome

variable {windows : DmaWindows} {net net' : GenetNet}

theorem stock_queue {done : ℕ} {log : List Posting} (h : Stocked net done log) :
    net.stock.queue = (log.drop done).map fun p => (p.token, ⟨p.pa, packetBytes⟩) := by
  have htaken := h.taken
  have hroom := h.room
  have hlength : (net.rx.ring.producer + v5Q0RxBdCnt - net.rx.ring.consumer) % v5Q0RxBdCnt =
      (log.map Posting.owner).length - done := by
    rw [h.tracks.producer, h.consumer, h.count, List.length_map, List.length_map]
    simp only [v5Q0RxBdCnt, totalDescriptors]
    omega
  have hwindow := h.buffers.window_eq
    (by rw [List.length_map]; show log.length ≤ done + 256; omega)
  rw [stock, hlength, h.consumer, window_mod (Nat.dvd_refl _), hwindow, ← List.map_drop,
    List.map_map]
  rfl

theorem stock_congr (hrx : net'.rx = net.rx) : net'.stock = net.stock := by
  unfold stock
  rw [hrx]

section

variable (h : net.Up windows)
include h

theorem Up.congr (hrx : net'.rx = net.rx) (hdma : net'.controller.dma = net.controller.dma)
    (hanswers : net'.controller.answers = net.controller.answers)
    (hdata : net'.dataplane ≠ .linkUp) : net'.Up windows := by
  obtain ⟨done, log, hstocked⟩ := h.stocked
  exact ⟨⟨hanswers ▸ h.answers, hdma.trans h.dma⟩, hdata, done, log,
    hstocked.congr (by rw [hrx]) (by rw [hrx]) hdma⟩

theorem Up.ensureDataplaneProgrammed : ∃ net',
    net.ensureDataplaneProgrammed = (.ok (), net') ∧ net'.Up windows ∧ net'.rx = net.rx ∧
      (net'.dataplane = .programmed ∨ net'.dataplane = .enabled) := by
  unfold GenetNet.ensureDataplaneProgrammed
  cases hstate : net.dataplane with
  | programmed => exact ⟨net, rfl, h, rfl, .inl hstate⟩
  | enabled => exact ⟨net, rfl, h, rfl, .inr hstate⟩
  | linkUp => exact absurd hstate h.programmable
  | fresh =>
    simp only [h.answers.acquireLink, h.answers.programServiceRings]
    exact ⟨_, rfl, h.congr rfl rfl rfl (by simp), rfl, .inl rfl⟩

theorem Up.enableDataplane (hdata : net.dataplane = .programmed ∨ net.dataplane = .enabled) :
    ∃ net', net.enableDataplane = (.ok (), net') ∧ net'.Up windows ∧ net'.rx = net.rx := by
  unfold GenetNet.enableDataplane
  rcases hdata with hdata | hdata
  · obtain ⟨link, hlink⟩ := h.answers.classifyLink
    simp only [hdata, h.answers.enable, hlink]
    exact ⟨_, rfl, h.congr rfl rfl rfl (by simp), rfl⟩
  · rw [hdata]
    exact ⟨net, rfl, h, rfl⟩

theorem Up.postRxSlot (token : PacketToken) {buffer : Buffer} (htakes : Takes windows buffer)
    (hroom : net.stock.queue.length < outstanding) : ∃ net',
      net.postRxSlot token buffer = (.ok (), net') ∧ net'.Up windows ∧
        net'.stock = net.stock.post token buffer ∧ net'.dataplane = net.dataplane := by
  obtain ⟨done, log, hstocked⟩ := h.stocked
  have htaken := hstocked.taken
  have hqueue := stock_queue hstocked
  rw [hqueue, List.length_map, List.length_drop] at hroom
  rcases hstocked.post token buffer with ⟨e, -, hnone⟩ |
    ⟨address, index, ring, hmap, hok, hstocked'⟩
  · have hsome := htakes.2
    rw [← h.dma, hnone (by omega)] at hsome
    cases hsome
  refine ⟨_, hok, ⟨⟨h.answers, h.dma⟩, h.programmable, done, _, hstocked'⟩, ?_, rfl⟩
  have hqueue' := stock_queue hstocked'
  rw [List.drop_append_of_le_length htaken, List.map_append, ← hqueue, List.map_singleton,
    ← htakes.1] at hqueue'
  exact congrArg (Stock.mk · net.rx.ready) hqueue'

theorem Up.returnRx (token : PacketToken) {buffer : Buffer} (htakes : Takes windows buffer)
    (hroom : net.stock.queue.length < outstanding) : ∃ net',
      net.returnRx token buffer = (.ok (), net') ∧ net'.Up windows ∧
        net'.stock = net.stock.post token buffer := by
  obtain ⟨net1, hensure, hup1, hrx1, hdata1⟩ := h.ensureDataplaneProgrammed
  have hstock1 := stock_congr hrx1
  obtain ⟨net2, hpost, hup2, hstock2, hdata2⟩ := hup1.postRxSlot token htakes (by rwa [hstock1])
  rw [← hdata2] at hdata1
  obtain ⟨net3, henable, hup3, hrx3⟩ := hup2.enableDataplane hdata1
  have hstock3 := stock_congr hrx3
  refine ⟨{ net3 with controller := net3.controller.doorbellProducer .rdma net3.rx.ring.producer },
    ?_, hup3.congr rfl rfl rfl hup3.programmable, ?_⟩
  · simp only [GenetNet.returnRx, hensure, hpost, henable]
  · rw [← hstock1, ← hstock2, ← hstock3]
    rfl

theorem Up.takeRx : net.takeRxAvailable.2.Up windows := by
  obtain ⟨done, log, hstocked⟩ := h.stocked
  exact ⟨⟨h.answers, h.dma⟩, h.programmable, done, log, hstocked.congr rfl rfl rfl⟩

/-- What is completed is the oldest buffer in stock. -/
theorem Up.retire {word index : ℕ} {d : Descriptor} {ring : BoundedRingState outstanding}
    (hcomplete : net.rx.ring.complete word = (.ok (index, d), ring)) :
    ∃ token pa rest, net.rx.buffers index = some (token, pa) ∧
      net.stock = ⟨(token, ⟨pa, packetBytes⟩) :: rest, net.rx.ready⟩ ∧
      rest.length < outstanding ∧
      ∀ ready, let net' :=
        { net with rx := ⟨ring, update net.rx.buffers index none, ready⟩ }
        net'.Up windows ∧ net'.stock = ⟨rest, ready⟩ := by
  obtain ⟨done, log, hstocked⟩ := h.stocked
  have hroom := hstocked.room
  obtain ⟨p, hp, -, hbuffer, hnext⟩ := hstocked.retire hcomplete
  obtain ⟨hlt, hget⟩ := List.getElem?_eq_some_iff.1 hp
  have hqueue := stock_queue hstocked
  rw [List.drop_eq_getElem_cons hlt, hget, List.map_cons] at hqueue
  refine ⟨p.token, p.pa, _, hbuffer, congrArg (Stock.mk · net.rx.ready) hqueue, ?_, ?_⟩
  · rw [List.length_map, List.length_drop]
    show log.length - (done + 1) < 8
    omega
  · intro ready
    exact ⟨⟨⟨h.answers, h.dma⟩, h.programmable, _, _, hnext ready⟩,
      congrArg (Stock.mk · ready) (stock_queue (hnext ready))⟩

theorem Up.complete_error {word : ℕ} {e : RingError} {ring : BoundedRingState outstanding}
    (hcomplete : net.rx.ring.complete word = (.error e, ring)) : ring = net.rx.ring := by
  obtain ⟨done, log, hstocked⟩ := h.stocked
  rcases BoundedRingState.complete_cases hstocked.tracks hstocked.count_pos word with
    ⟨e', he', -⟩ | ⟨_, _, _, -, hok, -⟩
  · rw [he'] at hcomplete
    exact (Prod.mk.inj hcomplete).2.symm
  · rw [hok] at hcomplete
    cases hcomplete

end

/-- The loop over the receive ring, whatever the engine wrote. -/
theorem Up.advanceRx {rxCons fuel : ℕ} : ∀ {net net' : GenetNet} {answer : Except Error Unit},
    net.Up windows → (∀ e ∈ net.stock.queue, Takes windows e.2) →
    net.advanceRx rxCons fuel = some (answer, net') → net'.Resets windows ∧
      (answer = .ok () → net'.Up windows ∧ ReflTransGen Stock.Turn net.stock net'.stock) := by
  induction fuel with
  | zero =>
    intro net net' answer _ _ hrun
    cases hrun
  | succ fuel ih =>
    intro net net' answer h htakes hrun
    unfold GenetNet.advanceRx at hrun
    split at hrun
    · cases hrun
      exact ⟨h.toResets, fun _ => ⟨h, .refl⟩⟩
    split at hrun
    · rename_i index d ring hcomplete
      obtain ⟨token, pa, rest, hbuffer, hstock, hroom, hnext⟩ := h.retire hcomplete
      have htake : Takes windows ⟨pa, packetBytes⟩ :=
        htakes (token, ⟨pa, packetBytes⟩) (by rw [hstock]; exact List.mem_cons_self ..)
      simp only [hbuffer] at hrun
      -- one turn, and then the rest of the loop
      have hturn : ∀ net1 : GenetNet, net1.Up windows → Stock.Turn net.stock net1.stock →
          net1.advanceRx rxCons fuel = some (answer, net') → net'.Resets windows ∧
          (answer = .ok () →
            net'.Up windows ∧ ReflTransGen Stock.Turn net.stock net'.stock) := by
        intro net1 hup1 hstep hrest
        obtain ⟨hresets, hok⟩ := ih hup1 (fun e he => htakes e (hstep.mem_queue he)) hrest
        exact ⟨hresets, fun hanswer => ⟨(hok hanswer).1, .head hstep (hok hanswer).2⟩⟩
      split at hrun
      · obtain ⟨hup1, hstock1⟩ := hnext
          (enqueue net.rx.ready (token, ⟨index, d.length - tsbBytes⟩))
        refine hturn _ hup1 ?_ hrun
        rw [hstock, hstock1]
        exact .park _
      · obtain ⟨hup1, hstock1⟩ := hnext net.rx.ready
        obtain ⟨net2, hcall, hup2, hstock2⟩ := hup1.returnRx token htake (by rwa [hstock1])
        rw [hcall] at hrun
        refine hturn _ hup2 ?_ hrun
        rw [hstock, hstock2, hstock1]
        exact .again
    · rename_i ring hcomplete
      cases hrun
      rw [h.complete_error hcomplete]
      exact ⟨h.toResets, fun _ => ⟨h.congr rfl rfl rfl h.programmable, .refl⟩⟩
    · cases hrun
      exact ⟨⟨h.answers, h.dma⟩, fun hok => by cases hok⟩

theorem Up.poll (h : net.Up windows) (htakes : ∀ e ∈ net.stock.queue, Takes windows e.2)
    {fuel : ℕ} {answer : Except Error Unit} (hpoll : net.poll fuel = some (answer, net')) :
    net'.Resets windows ∧
      (answer = .ok () → net'.Up windows ∧ ReflTransGen Stock.Turn net.stock net'.stock) := by
  unfold GenetNet.poll GenetNet.advanceRings at hpoll
  split at hpoll
  · cases hpoll
  · cases hpoll
    exact ⟨⟨h.answers, h.dma⟩, fun hok => by cases hok⟩
  · rename_i tx _
    have hup : ({ net with tx } : GenetNet).Up windows := h.congr rfl rfl rfl h.programmable
    exact hup.advanceRx htakes hpoll

theorem Up.postAll : ∀ {set : List (PacketToken × Buffer)} {net : GenetNet}, net.Up windows →
    (∀ e ∈ set, Takes windows e.2) → net.stock.queue.length + set.length ≤ outstanding →
    ∃ net', net.postAll set = (.ok (), net') ∧ net'.Up windows ∧
      net'.dataplane = net.dataplane ∧
      net'.stock = ⟨net.stock.queue ++ set, net.stock.ready⟩ := by
  intro set
  induction set with
  | nil =>
    intro net h _ _
    exact ⟨net, rfl, h, rfl, by rw [List.append_nil]⟩
  | cons e rest ih =>
    intro net h htakes hroom
    rw [List.length_cons] at hroom
    obtain ⟨net1, hcall, hup1, hstock1, hdata1⟩ :=
      h.postRxSlot e.1 (htakes e (List.mem_cons_self ..)) (by omega)
    obtain ⟨net2, hrest, hup2, hdata2, hstock2⟩ :=
      ih hup1 (fun d hd => htakes d (List.mem_cons_of_mem _ hd))
        (by rw [hstock1, Stock.post, List.length_append, List.length_singleton]; omega)
    refine ⟨net2, by rw [GenetNet.postAll, hcall]; exact hrest, hup2, hdata2.trans hdata1, ?_⟩
    rw [hstock2, hstock1, Stock.post, ← List.append_cons]

theorem writeDescriptor_keeps (c : Controller) (index : ℕ) (d : Descriptor) :
    (c.writeDescriptor .tdma index d).2.dma = c.dma ∧
      (c.writeDescriptor .tdma index d).2.answers = c.answers := by
  unfold Controller.writeDescriptor
  split
  · exact ⟨rfl, rfl⟩
  simp only
  split
  · exact ⟨rfl, rfl⟩
  · exact ⟨rfl, rfl⟩

theorem submitFrame_rx (net : GenetNet) (token : PacketToken) (buffer : Buffer) :
    (net.submitFrame token buffer).2.rx = net.rx ∧
      (net.submitFrame token buffer).2.controller.dma = net.controller.dma ∧
      (net.submitFrame token buffer).2.controller.answers = net.controller.answers ∧
      (net.submitFrame token buffer).2.dataplane = net.dataplane := by
  unfold submitFrame
  split
  · exact ⟨rfl, rfl, rfl, rfl⟩
  simp only
  split
  · exact ⟨rfl, rfl, rfl, rfl⟩
  split
  · exact ⟨rfl, rfl, rfl, rfl⟩
  rename_i address _ _ index ring _
  obtain ⟨hdma, hanswers⟩ :=
    writeDescriptor_keeps net.controller index ⟨address, tsbBytes + buffer.len, 0⟩
  split
  · rename_i hwrite
    rw [hwrite] at hdma hanswers
    exact ⟨rfl, hdma, hanswers, rfl⟩
  · rename_i hwrite
    rw [hwrite] at hdma hanswers
    exact ⟨rfl, hdma, hanswers, rfl⟩

theorem Up.submitFrame (h : net.Up windows) (token : PacketToken) (buffer : Buffer) :
    (net.submitFrame token buffer).2.Up windows ∧
      (net.submitFrame token buffer).2.stock = net.stock := by
  obtain ⟨hrx, hdma, hanswers, hdata⟩ := net.submitFrame_rx token buffer
  exact ⟨h.congr hrx hdma hanswers (hdata ▸ h.programmable), stock_congr hrx⟩

theorem Up.submitTx (h : net.Up windows) (token : PacketToken) (buffer : Buffer) :
    (net.submitTx token buffer).2.Up windows ∧
      (net.submitTx token buffer).2.stock = net.stock := by
  unfold GenetNet.submitTx
  split
  · exact ⟨h, rfl⟩
  split
  · exact ⟨h, rfl⟩
  split
  · exact ⟨h, rfl⟩
  · exact h.submitFrame token buffer

theorem Resets.reset (h : net.Resets windows) : ∃ net', net.reset = (.ok (), net') ∧
    net'.Up windows ∧ net'.stock = .empty := by
  rcases System.reset_eq net with ⟨e, he⟩ | hok
  · unfold GenetNet.reset at he
    rw [h.answers.reset] at he
    cases he
  · have hstocked := (System.Receiving.of_reset hok).toStocked
    exact ⟨_, hok, ⟨⟨h.answers, h.dma⟩, by simp, 0, [], hstocked⟩,
      congrArg (Stock.mk · (vacant rxSlots)) (stock_queue hstocked)⟩

theorem Up.start (h : net.Up windows) (hempty : net.stock = .empty)
    {set : List (PacketToken × Buffer)} {tx : Buffer} (htakes : ∀ e ∈ set, Takes windows e.2)
    (hstart : net.start set tx = (.ok (), net')) :
    net'.Up windows ∧ net'.stock = ⟨set, net.stock.ready⟩ := by
  unfold GenetNet.start at hstart
  split at hstart
  · cases hstart
  rename_i hlength
  obtain ⟨net1, hensure, hup1, hrx1, hdata1⟩ := h.ensureDataplaneProgrammed
  have hstock1 := stock_congr hrx1
  obtain ⟨net2, hpost, hup2, hdata2, hstock2⟩ := hup1.postAll htakes (by
    rw [hstock1, hempty]
    exact (Nat.zero_add _).trans_le (Nat.le_of_not_lt hlength))
  have hbell : ({ net2 with
      controller := net2.controller.doorbellProducer .rdma net2.rx.ring.producer } :
      GenetNet).Up windows := hup2.congr rfl rfl rfl hup2.programmable
  rw [← hdata2] at hdata1
  obtain ⟨net3, henable, hup3, hrx3⟩ := hbell.enableDataplane hdata1
  simp only [hensure, hpost, henable] at hstart
  obtain ⟨hup4, hstock4⟩ := hup3.submitFrame ⟨0, 0, 0⟩ ⟨tx.pa, ethernetMinFrameBytes⟩
  rw [hstart] at hup4 hstock4
  refine ⟨hup4, hstock4.trans ((stock_congr hrx3).trans ?_)⟩
  rw [hstock1, hempty] at hstock2
  rw [hempty]
  exact hstock2

def custody (windows : DmaWindows) : Custody GenetNet where
  stock := stock
  up := Up windows
  resets := Resets windows
  takes := Takes windows
  start h hempty htakes hstart := h.start hempty htakes hstart
  returnRx token _ h htakes hroom := h.returnRx token htakes hroom
  takeRx h := ⟨rfl, h.takeRx, rfl⟩
  submitTx token buffer h := h.submitTx token buffer
  takeTx h := ⟨h.congr rfl rfl rfl h.programmable, rfl⟩
  poll_ok h htakes hpoll := (h.poll htakes hpoll).2 rfl
  poll_error h htakes hpoll := (h.poll htakes hpoll).1
  reset h := h.reset

end GenetNet

end HarborKernel.Genet
