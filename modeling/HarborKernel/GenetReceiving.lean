import HarborKernel.GenetFifo
import HarborKernel.GenetRuns

/-!
Reception over whole runs of the GENET transport. Each posted buffer has a number, as each frame
has on the way out. A poll walks over the buffers that the engine has retired: a frame that the
service can take is queued with its length, any other buffer is posted again.
-/

namespace HarborKernel.Genet

open Function CyclicTable Net ReadyList Transition

structure Posting where
  token : PacketToken
  pa : ℕ
  address : ℕ

namespace Posting

def descriptor (p : Posting) : Descriptor := ⟨p.address, rxBufLength, 0⟩

def owner (p : Posting) : PacketToken × ℕ := (p.token, p.pa)

theorem validate {p : Posting} {dma : DmaWindows} (h : dma.mapCpu p.pa rxBufLength = some p.address)
    {len st : ℕ} (hpos : 0 < len) (hlen : len ≤ rxBufLength) :
    (⟨p.address, len, st⟩ : Descriptor).validateServiceWindows dma = .ok () := by
  obtain ⟨hfits, hin⟩ := DmaWindows.contains_of_mapCpu h hlen
  exact validateServiceWindows_ok hpos hlen hfits hin

end Posting

/-- The receive ring after the buffers of the log were posted and the first `done` of them were
taken back. -/
structure Stocked (net : GenetNet) (done : ℕ) (log : List Posting) : Prop where
  tracks : net.rx.ring.Tracks done (log.map Posting.descriptor)
  count : net.rx.ring.layout.count = v5Q0RxBdCnt
  dma : net.rx.ring.dma = net.controller.dma
  buffers : Kept v5Q0RxBdCnt done net.rx.buffers (log.map Posting.owner)
  mapped : ∀ p ∈ log, net.controller.dma.mapCpu p.pa rxBufLength = some p.address

namespace Stocked

variable {net net' : GenetNet} {done : ℕ} {log : List Posting} (h : Stocked net done log)
include h

theorem congr (hring : net'.rx.ring = net.rx.ring) (hbuffers : net'.rx.buffers = net.rx.buffers)
    (hdma : net'.controller.dma = net.controller.dma) : Stocked net' done log := by
  refine ⟨?_, ?_, ?_, ?_, ?_⟩
  · rw [hring]; exact h.tracks
  · rw [hring]; exact h.count
  · rw [hring, hdma]; exact h.dma
  · rw [hbuffers]; exact h.buffers
  · rw [hdma]; exact h.mapped

theorem count_pos : 0 < net.rx.ring.layout.count := by rw [h.count]; decide

theorem room : log.length ≤ done + 8 := by
  have hroom : (log.map Posting.descriptor).length ≤ done + 8 := h.tracks.room
  rwa [List.length_map] at hroom

theorem taken : done ≤ log.length := by
  have htaken := h.tracks.retired
  rwa [List.length_map] at htaken

theorem consumer : net.rx.ring.consumer = done % v5Q0RxBdCnt := by
  rw [h.tracks.consumer, h.count]

/-- What is completed is the oldest buffer. -/
theorem retire {word index : ℕ} {d : Descriptor} {ring : BoundedRingState outstanding}
    (hcomplete : net.rx.ring.complete word = (.ok (index, d), ring)) :
    ∃ p, log[done]? = some p ∧ index = done % v5Q0RxBdCnt ∧
      net.rx.buffers index = some (p.token, p.pa) ∧
      ∀ ready, Stocked { net with rx := ⟨ring, update net.rx.buffers index none, ready⟩ }
        (done + 1) log := by
  have hroom := h.room
  rcases BoundedRingState.complete_cases h.tracks h.count_pos word with ⟨e, he, -⟩ |
    ⟨posted, d', ring', hposted, hok, -, -, htracks, hlayout, hdma⟩
  · rw [he] at hcomplete
    cases hcomplete
  rw [hok] at hcomplete
  cases hcomplete
  rw [List.getElem?_map, Option.map_eq_some_iff] at hposted
  obtain ⟨p, hp, -⟩ := hposted
  have hbuffer := h.buffers.oldest (by decide)
  rw [List.getElem?_map, hp] at hbuffer
  rw [h.count]
  refine ⟨p, hp, rfl, hbuffer, fun ready => ⟨htracks, hlayout ▸ h.count, hdma.trans h.dma, ?_,
    h.mapped⟩⟩
  refine h.buffers.take (by decide) ?_
  rw [List.length_map]
  show log.length ≤ done + 256
  omega

/-- A buffer is posted at the first free index, and a failure leaves no trace. -/
theorem post (token : PacketToken) (buffer : Buffer) :
    (∃ e, net.postRxSlot token buffer = (.error e, net) ∧
      (log.length < done + outstanding →
        net.controller.dma.mapCpu buffer.pa rxBufLength = none)) ∨
    ∃ address index ring, net.controller.dma.mapCpu buffer.pa rxBufLength = some address ∧
      net.postRxSlot token buffer = (.ok (), { net with
        controller := { net.controller with
          rxAddress := update net.controller.rxAddress index address }
        rx := { net.rx with
          ring
          buffers := update net.rx.buffers index (some (token, buffer.pa)) } }) ∧
      Stocked { net with
        controller := { net.controller with
          rxAddress := update net.controller.rxAddress index address }
        rx := { net.rx with
          ring
          buffers := update net.rx.buffers index (some (token, buffer.pa)) } }
        done (log ++ [⟨token, buffer.pa, address⟩]) := by
  unfold GenetNet.postRxSlot GenetNet.translate
  cases hmap : net.controller.dma.mapCpu buffer.pa rxBufLength with
  | none => exact .inl ⟨_, rfl, fun _ => rfl⟩
  | some address =>
    simp only
    have hvalid : (⟨address, rxBufLength, 0⟩ : Descriptor).validateServiceWindows
        net.controller.dma = .ok () :=
      Posting.validate (p := ⟨token, buffer.pa, address⟩) hmap (by decide) (Nat.le_refl _)
    have hvalid' : net.rx.ring.validateDescriptor ⟨address, rxBufLength, 0⟩ = .ok () := by
      rw [validateDescriptor_service (by decide), h.dma]
      exact hvalid
    by_cases hfull : log.length = done + outstanding
    · rw [BoundedRingState.post_full h.tracks hvalid' (by rwa [List.length_map])]
      exact .inl ⟨_, rfl, fun hlt => absurd hfull (Nat.ne_of_lt hlt)⟩
    have hroom : log.length < done + 8 := Nat.lt_of_le_of_ne h.room hfull
    have htaken := h.taken
    obtain ⟨ring, hpost, htracks, hlayout, hdma⟩ := BoundedRingState.post_room h.tracks hvalid'
      h.count_pos (by rw [List.length_map]; exact hroom)
    rw [List.length_map, h.count] at hpost
    rw [hpost]
    simp only [Controller.writeDescriptor, hvalid]
    refine .inr ⟨address, _, ring, rfl, rfl, ?_, hlayout ▸ h.count, hdma.trans h.dma, ?_, ?_⟩
    · rw [List.map_append]
      exact htracks
    · have hadd := h.buffers.add (by rw [List.length_map]; exact htaken)
        (by rw [List.length_map]; show log.length < done + 256; omega) (token, buffer.pa)
      rw [List.length_map] at hadd
      rw [List.map_append]
      exact hadd
    · intro p hp
      rcases List.mem_append.1 hp with hp | hp
      · exact h.mapped p hp
      · obtain rfl := List.mem_singleton.1 hp
        exact hmap

end Stocked

/-- The receive half after the buffers of the log were posted, `retired` of them by the engine
and `done` of them by the driver. -/
structure Receiving (net : GenetNet) (retired done : ℕ) (log : List Posting) : Prop
    extends Stocked net done log where
  cons : net.controller.rxCons = retired % 2 ^ 16
  behind : done ≤ retired
  posted : retired ≤ log.length
  doorbell : ¬ (net.dataplane = .fresh ∨ net.dataplane = .linkUp) →
    ∃ rung, retired ≤ rung ∧ rung ≤ log.length ∧ net.controller.rxProd = rung % v5Q0RxBdCnt
  unprogrammed : net.dataplane = .fresh ∨ net.dataplane = .linkUp → log = []
  up : 0 < retired → net.dataplane = .enabled

def Worded (net : GenetNet) (retired done : ℕ) : Prop :=
  ∀ i, done ≤ i → i < retired →
    net.controller.rxStatus (i % v5Q0RxBdCnt) &&& dmaOwn = 0 ∧
    0 < lengthField (net.controller.rxStatus (i % v5Q0RxBdCnt)) ∧
    lengthField (net.controller.rxStatus (i % v5Q0RxBdCnt)) ≤ maxFrameBytes

namespace Receiving

variable {net : GenetNet} {retired done : ℕ} {log : List Posting}

section

variable (h : Receiving net retired done log)
include h

/-- The driver takes the oldest buffer back, once the engine has retired it. -/
theorem complete (hworded : Worded net retired done)
    (hlt : done < retired) : ∃ p ring d, log[done]? = some p ∧
      net.rx.ring.complete (net.controller.rxStatus (done % v5Q0RxBdCnt)) =
        (.ok (done % v5Q0RxBdCnt, d), ring) ∧
      d.length = lengthField (net.controller.rxStatus (done % v5Q0RxBdCnt)) ∧
      net.rx.buffers (done % v5Q0RxBdCnt) = some (p.token, p.pa) ∧
      ∀ ready, Receiving { net with rx :=
        ⟨ring, update net.rx.buffers (done % v5Q0RxBdCnt) none, ready⟩ }
        retired (done + 1) log := by
  have hposted := h.posted
  obtain ⟨p, hp⟩ : ∃ p, log[done]? = some p := ⟨_, List.getElem?_eq_getElem (by omega)⟩
  have hmapped := h.mapped p (List.mem_of_getElem? hp)
  obtain ⟨hown, hpos, hmax⟩ := hworded done (Nat.le_refl done) hlt
  obtain ⟨status, hdecode, hlength, hdriver⟩ := decode_of_length hpos hmax hown
  have hd : (log.map Posting.descriptor)[done]? = some p.descriptor := by
    rw [List.getElem?_map, hp]
    rfl
  obtain ⟨ring, d, hcomplete, hdlen, -⟩ :=
    BoundedRingState.complete_oldest h.tracks h.count_pos hdecode hdriver hd (by
      intro st
      rw [validateDescriptor_service (by decide), h.dma]
      exact Posting.validate hmapped (hlength ▸ hpos)
        (Nat.le_trans (hlength ▸ hmax) (by decide)))
  rw [h.count] at hcomplete
  obtain ⟨p, hp, -, hbuffer, hnext⟩ := h.retire hcomplete
  exact ⟨p, ring, d, hp, hcomplete, hdlen.trans hlength, hbuffer, fun ready =>
    ⟨hnext ready, h.cons, hlt, h.posted, h.doorbell, h.unprogrammed, h.up⟩⟩

/-- A buffer is posted at the first free index, and no other failure leaves a trace. -/
theorem post
    (hup : ¬ (net.dataplane = .fresh ∨ net.dataplane = .linkUp)) (token : PacketToken)
    (buffer : Buffer) :
    (∃ e, net.postRxSlot token buffer = (.error e, net) ∧
      (log.length < done + outstanding →
        net.controller.dma.mapCpu buffer.pa rxBufLength = none)) ∨
    ∃ address net', net.controller.dma.mapCpu buffer.pa rxBufLength = some address ∧
      net.postRxSlot token buffer = (.ok (), net') ∧
      Receiving net' retired done (log ++ [⟨token, buffer.pa, address⟩]) ∧
      net'.dataplane = net.dataplane ∧ net'.rx.ready = net.rx.ready ∧
      net'.controller.rxStatus = net.controller.rxStatus := by
  refine (h.toStocked.post token buffer).imp_right ?_
  rintro ⟨address, index, ring, hmap, hok, hstocked⟩
  have hposted := h.posted
  obtain ⟨rung, hrung, hrung', hprod⟩ := h.doorbell hup
  refine ⟨address, _, hmap, hok, ⟨hstocked, h.cons, h.behind, ?_,
    fun _ => ⟨rung, hrung, ?_, hprod⟩, fun hdown => absurd hdown hup, h.up⟩, rfl, rfl, rfl⟩
  · rw [List.length_append]
    omega
  · rw [List.length_append]
    omega

/-- The dataplane is programmed, or nothing but its state has changed. -/
theorem ensureDataplaneProgrammed :
    Receiving net.ensureDataplaneProgrammed.2 retired done log ∧
      net.ensureDataplaneProgrammed.2.rx = net.rx ∧
      net.ensureDataplaneProgrammed.2.controller.rxStatus = net.controller.rxStatus ∧
      (net.ensureDataplaneProgrammed.1 = .ok () →
        ¬ (net.ensureDataplaneProgrammed.2.dataplane = .fresh ∨
          net.ensureDataplaneProgrammed.2.dataplane = .linkUp)) := by
  unfold GenetNet.ensureDataplaneProgrammed
  cases hstate : net.dataplane with
  | programmed | enabled => exact ⟨h, rfl, rfl, fun _ => by rw [hstate]; simp⟩
  | linkUp => exact ⟨h, rfl, rfl, nofun⟩
  | fresh =>
    have hnil := h.unprogrammed (.inl hstate)
    subst hnil
    have hzero : retired = 0 := Nat.le_zero.1 h.posted
    subst hzero
    simp only
    cases net.controller.answers.acquireLink with
    | error e => exact ⟨h, rfl, rfl, nofun⟩
    | ok u =>
      cases net.controller.answers.programServiceRings with
      | error e =>
        exact ⟨⟨h.toStocked.congr rfl rfl rfl, h.cons, h.behind, h.posted,
          fun hup => absurd (.inr rfl) hup, fun _ => rfl, nofun⟩, rfl, rfl, nofun⟩
      | ok u =>
        exact ⟨⟨h.toStocked.congr rfl rfl rfl, rfl, h.behind, h.posted,
          fun _ => ⟨0, Nat.le_refl _, Nat.zero_le _, rfl⟩, fun _ => rfl, nofun⟩, rfl, rfl,
          fun _ => by simp⟩

theorem enableDataplane :
    Receiving net.enableDataplane.2 retired done log ∧ net.enableDataplane.2.rx = net.rx ∧
      net.enableDataplane.2.controller = net.controller := by
  unfold GenetNet.enableDataplane
  cases hstate : net.dataplane with
  | enabled | fresh | linkUp => exact ⟨h, rfl, rfl⟩
  | programmed =>
    have hup : Receiving { net with dataplane := .enabled } retired done log :=
      ⟨h.toStocked.congr rfl rfl rfl, h.cons, h.behind, h.posted,
        fun _ => h.doorbell (by rw [hstate]; simp), fun hdown => by simp at hdown, fun _ => rfl⟩
    simp only
    cases net.controller.answers.enable with
    | error e => exact ⟨h, rfl, rfl⟩
    | ok u =>
      cases net.controller.answers.classifyLink with
      | error e | ok u => exact ⟨hup, rfl, rfl⟩

theorem ring :
    Receiving { net with
      controller := net.controller.doorbellProducer .rdma net.rx.ring.producer }
      retired done log := by
  refine ⟨h.toStocked.congr rfl rfl rfl, h.cons, h.behind, h.posted,
    fun _ => ⟨log.length, h.posted, Nat.le_refl _, ?_⟩, h.unprogrammed, h.up⟩
  show net.rx.ring.producer = _
  rw [h.tracks.producer, h.count, List.length_map]

/-- What giving a buffer back can do, whatever the hardware answers. -/
theorem returnRx (token : PacketToken) (buffer : Buffer) :
    ∃ log', (log' = log ∨ ∃ address, log' = log ++ [⟨token, buffer.pa, address⟩]) ∧
      Receiving (net.returnRx token buffer).2 retired done log' ∧
      (net.returnRx token buffer).2.rx.ready = net.rx.ready ∧
      (net.returnRx token buffer).2.controller.rxStatus = net.controller.rxStatus := by
  unfold GenetNet.returnRx
  obtain ⟨h1, hrx1, hstatus1, hup1⟩ := h.ensureDataplaneProgrammed
  cases hp : net.ensureDataplaneProgrammed with
  | mk answer net1 =>
    rw [hp] at h1 hrx1 hstatus1 hup1
    cases answer with
    | error e => exact ⟨log, .inl rfl, h1, congrArg RxHalf.ready hrx1, hstatus1⟩
    | ok u =>
      simp only at h1 hrx1 hstatus1 hup1 ⊢
      rcases h1.post (hup1 trivial) token buffer with ⟨e, he, -⟩ |
        ⟨address, net2, -, hok, h2, hdata2, hready2, hstatus2⟩
      · rw [he]
        exact ⟨log, .inl rfl, h1, congrArg RxHalf.ready hrx1, hstatus1⟩
      rw [hok]
      simp only
      obtain ⟨h3, hrx3, hctl3⟩ := h2.enableDataplane
      have hready3 := congrArg RxHalf.ready hrx3
      have hstatus3 := congrArg Controller.rxStatus hctl3
      rw [hready2, hrx1] at hready3
      rw [hstatus2, hstatus1] at hstatus3
      cases hp3 : net2.enableDataplane with
      | mk answer net3 =>
        rw [hp3] at h3 hready3 hstatus3
        cases answer with
        | error e => exact ⟨_, .inr ⟨address, rfl⟩, h3, hready3, hstatus3⟩
        | ok u => exact ⟨_, .inr ⟨address, rfl⟩, h3.ring, hready3, hstatus3⟩

/-- While the dataplane is enabled and there is room, a buffer that the engine can reach is
posted. -/
theorem returnRx_enabled (hup : net.dataplane = .enabled)
    (hroom : log.length < done + outstanding) (token : PacketToken) (len : ℕ) {pa address : ℕ}
    (hmap : net.controller.dma.mapCpu pa rxBufLength = some address) :
    ∃ net', net.returnRx token ⟨pa, len⟩ = (.ok (), net') ∧
      Receiving net' retired done (log ++ [⟨token, pa, address⟩]) ∧
      net'.dataplane = .enabled ∧ net'.rx.ready = net.rx.ready ∧
      net'.controller.rxStatus = net.controller.rxStatus := by
  have hensure : net.ensureDataplaneProgrammed = (.ok (), net) := by
    unfold GenetNet.ensureDataplaneProgrammed
    rw [hup]
  unfold GenetNet.returnRx
  rw [hensure]
  simp only
  rcases h.post (by rw [hup]; simp) token ⟨pa, len⟩ with ⟨e, -, hnone⟩ |
    ⟨address', net2, hmap', hok, h2, hdata2, hready2, hstatus2⟩
  · have hnone' := hnone hroom
    rw [hmap] at hnone'
    contradiction
  have haddress : address' = address := Option.some.inj (hmap'.symm.trans hmap)
  subst haddress
  have henable : net2.enableDataplane = (.ok (), net2) := by
    unfold GenetNet.enableDataplane
    rw [hdata2, hup]
  rw [hok]
  simp only [henable]
  exact ⟨_, rfl, h2.ring, hdata2.trans hup, hready2, hstatus2⟩

end

end Receiving

section Poll

variable {net : GenetNet} {retired done : ℕ} {log : List Posting}

def pending (status : ℕ → ℕ) (log : List Posting) (done k : ℕ) : List (ℕ × Posting × ℕ) :=
  (List.range' done k).filterMap fun i =>
    log[i]?.map fun p => (i, p, lengthField (status (i % v5Q0RxBdCnt)))

variable {status : ℕ → ℕ} {p : Posting} {k fuel : ℕ}

theorem pending_succ (hp : log[done]? = some p) :
    pending status log done (k + 1) =
      (done, p, lengthField (status (done % v5Q0RxBdCnt))) :: pending status log (done + 1) k := by
  rw [pending, pending, List.range'_succ, List.filterMap_cons_some]
  rw [hp]
  rfl

theorem pending_append (hk : done + k ≤ log.length) (q : Posting) :
    pending status (log ++ [q]) done k = pending status log done k := by
  unfold pending
  refine List.filterMap_congr fun i hi => ?_
  have hlt := (List.mem_range'_1.1 hi).2
  rw [List.getElem?_append_left (by omega)]

theorem pending_concat (hp : log[done + k]? = some p) :
    pending status log done (k + 1) = pending status log done k ++
      [(done + k, p, lengthField (status ((done + k) % v5Q0RxBdCnt)))] := by
  rw [pending, pending, List.range'_concat, List.filterMap_append, Nat.one_mul,
    List.filterMap_cons_some (b := (done + k, p, _)) (by rw [hp]; rfl), List.filterMap_nil]

theorem pending_congr {status' : ℕ → ℕ} (h : ∀ i, done ≤ i → i < done + k →
    status' (i % v5Q0RxBdCnt) = status (i % v5Q0RxBdCnt)) :
    pending status' log done k = pending status log done k := by
  unfold pending
  refine List.filterMap_congr fun i hi => ?_
  obtain ⟨hlo, hhi⟩ := List.mem_range'_1.1 hi
  rw [h i hlo hhi]

def delivered (a : ℕ × Posting × ℕ) : PacketToken × Completion :=
  (a.2.1.token, ⟨a.1 % v5Q0RxBdCnt, a.2.2 - tsbBytes⟩)

/-- The loop over the receive ring queues the frames and posts the other buffers again. -/
theorem Receiving.advance (hcount : retired % 2 ^ 16 < v5Q0RxBdCnt) (k : ℕ) :
    ∀ {net : GenetNet} {done : ℕ} {log : List Posting}, Receiving net retired done log →
    Worded net retired done → done + k = retired → ∀ fuel, k < fuel →
    ∃ net', net.advanceRx (retired % 2 ^ 16) fuel = some (.ok (), net') ∧
      Receiving net' retired retired
        (log ++ ((pending net.controller.rxStatus log done k).filter
          fun a => !GenetNet.deliverable a.2.2).map fun a => a.2.1) ∧
      net'.rx.ready = (((pending net.controller.rxStatus log done k).filter
        fun a => GenetNet.deliverable a.2.2).map delivered).foldl enqueue net.rx.ready ∧
      net'.controller.rxStatus = net.controller.rxStatus := by
  have hindex : retired % v5Q0RxBdCnt = retired % 2 ^ 16 := by
    rw [← Nat.mod_mod_of_dvd _ (show v5Q0RxBdCnt ∣ 2 ^ 16 by decide), Nat.mod_eq_of_lt hcount]
  induction k with
  | zero =>
    intro net done log h _ hk fuel hfuel
    obtain ⟨fuel, rfl⟩ := Nat.exists_eq_succ_of_ne_zero (Nat.ne_of_gt hfuel)
    obtain rfl : done = retired := hk
    unfold GenetNet.advanceRx
    rw [h.consumer, if_pos hindex]
    exact ⟨net, rfl, by rwa [show pending net.controller.rxStatus log done 0 = [] from rfl,
      List.filter_nil, List.map_nil, List.append_nil], rfl, rfl⟩
  | succ k ih =>
    intro net done log h hworded hk fuel hfuel
    obtain ⟨fuel, rfl⟩ := Nat.exists_eq_succ_of_ne_zero (Nat.ne_of_gt (Nat.zero_lt_of_lt hfuel))
    have hposted := h.posted
    have hroom := h.room
    have hne : done % v5Q0RxBdCnt ≠ retired % 2 ^ 16 := by
      rw [← hindex]
      intro hmod
      have := mod_inj (Nat.le_refl done) (show done < done + 256 by omega) h.behind
        (show retired < done + 256 by omega) hmod
      omega
    obtain ⟨p, ring, d, hp, hcomplete, hdlen, hbuffer, hnext⟩ :=
      h.complete hworded (by omega)
    unfold GenetNet.advanceRx
    rw [h.consumer, if_neg hne]
    simp only [Controller.descriptorStatus, hcomplete, hbuffer]
    rw [pending_succ hp, hdlen]
    by_cases hgood : GenetNet.deliverable
        (lengthField (net.controller.rxStatus (done % v5Q0RxBdCnt))) = true
    · rw [if_pos hgood]
      obtain ⟨net', hrun, h', hready, hstatus⟩ := ih (hnext _)
        (fun i hi hi' => hworded i (by omega) hi') (by omega) fuel (by omega)
      refine ⟨net', hrun, ?_, ?_, hstatus⟩
      · rw [List.filter_cons_of_neg (by simp [hgood])]
        exact h'
      · rw [List.filter_cons_of_pos (by exact hgood), List.map_cons, List.foldl_cons, hready]
        rfl
    rw [if_neg hgood]
    have hup : net.dataplane = .enabled := h.up (by omega)
    obtain ⟨net1, hok, h1, -, hready1, hstatus1⟩ := (hnext net.rx.ready).returnRx_enabled hup
      (show log.length < done + 1 + 8 by omega) p.token packetBytes
      (h.mapped p (List.mem_of_getElem? hp))
    rw [hok]
    have hstatus1 : net1.controller.rxStatus = net.controller.rxStatus := hstatus1
    obtain ⟨net', hrun, h', hready, hstatus⟩ := ih h1
      (fun i hi hi' => by rw [hstatus1]; exact hworded i (by omega) hi') (by omega) fuel (by omega)
    rw [hstatus1, pending_append (by omega)] at h' hready
    refine ⟨net', hrun, ?_, ?_, hstatus.trans hstatus1⟩
    · rw [List.filter_cons_of_pos (by simpa using hgood), List.map_cons, List.append_cons]
      exact h'
    · rw [List.filter_cons_of_neg (by exact hgood), hready, hready1]

theorem advanceRx_mono {rxCons : ℕ} : ∀ {net : GenetNet}
    {result : Except Error Unit × GenetNet}, net.advanceRx rxCons fuel = some result →
    ∀ more, net.advanceRx rxCons (fuel + more) = some result := by
  induction fuel with
  | zero =>
    intro net result h
    contradiction
  | succ fuel ih =>
    intro net result h more
    rw [Nat.add_right_comm]
    unfold GenetNet.advanceRx at h ⊢
    split
    · rename_i hstop
      rw [if_pos hstop] at h
      exact h
    rename_i hstop
    rw [if_neg hstop] at h
    split at h
    · split at h
      · exact ih h more
      simp only at h ⊢
      split at h
      · rename_i hgood
        rw [if_pos hgood]
        exact ih h more
      rename_i hgood
      rw [if_neg hgood]
      exact ih h more
    · exact h
    · exact h

theorem advanceRings_mono {result : Except Error Unit × GenetNet}
    (h : net.advanceRings fuel = some result) (more : ℕ) :
    net.advanceRings (fuel + more) = some result := by
  unfold GenetNet.advanceRings at h ⊢
  cases htx : net.tx.advance fuel net.controller with
  | none =>
    rw [htx] at h
    contradiction
  | some outcome =>
    rw [htx] at h
    rw [advance_mono htx more]
    obtain ⟨answer, tx⟩ := outcome
    cases answer with
    | error e => exact h
    | ok u => exact advanceRx_mono h more

theorem Receiving.congr {net' : GenetNet} (h : Receiving net retired done log)
    (hkept : RxKept net net') : Receiving net' retired done log := by
  refine ⟨h.toStocked.congr (by rw [hkept.half]) (by rw [hkept.half]) hkept.dma, ?_, h.behind,
    h.posted, ?_, ?_, ?_⟩
  · rw [hkept.cons]; exact h.cons
  · rw [hkept.prod, hkept.dataplane]; exact h.doorbell
  · rw [hkept.dataplane]; exact h.unprogrammed
  · rw [hkept.dataplane]; exact h.up

end Poll

namespace System

variable {s s' : System} {sentDone done : ℕ} {frames : List Frame} {log : List Posting}

/-- Runs in which every received length is one that a status word can carry, and polls are made
while the engine's count of received buffers is an index of the ring. -/
def Framed (s : System) : Op → Prop
  | .submit _ buffer => ¬ Overlong buffer.len
  | .advance _ => s.Drained ∧ s.rxRetired % 2 ^ 16 < v5Q0RxBdCnt
  | .retireRx word => 0 < lengthField word ∧ lengthField word ≤ maxFrameBytes
  | _ => True

structure Heard (s : System) (sentDone : ℕ) (frames : List Frame) (done : ℕ)
    (log : List Posting) : Prop where
  sending : Inv s sentDone frames
  timely : sentDone ≤ s.txRetired ∨ v5Q0TxBdCnt ≤ frames.length
  receiving : Receiving s.net s.rxRetired done log
  worded : Worded s.net s.rxRetired done
  arrived : s.arrived = (pending s.net.controller.rxStatus log done (s.rxRetired - done)).map
    fun a => (a.2.1.token, a.2.2)

section

variable (h : Heard s sentDone frames done log)
include h

theorem Heard.of_rxKept {sentDone' : ℕ}
    {frames' : List Frame} (hsending : Inv s' sentDone' frames')
    (htimely : sentDone' ≤ s'.txRetired ∨ v5Q0TxBdCnt ≤ frames'.length)
    (hkept : RxKept s.net s'.net) (harrived : s'.arrived = s.arrived)
    (hretired : s'.rxRetired = s.rxRetired) : Heard s' sentDone' frames' done log := by
  refine ⟨hsending, htimely, ?_, ?_, ?_⟩
  · rw [hretired]
    exact h.receiving.congr hkept
  · intro i hi hi'
    rw [hretired] at hi'
    rw [hkept.status]
    exact h.worded i hi hi'
  · rw [harrived, hkept.status, hretired]
    exact h.arrived

theorem Heard.advance_timely {k : ℕ}
    (hk : sentDone + k ≤ frames.length)
    (hskip : ∀ j < k, (sentDone + j) % v5Q0TxBdCnt ≠ s.txRetired % 2 ^ 16)
    (hend : (sentDone + k) % v5Q0TxBdCnt = s.txRetired % 2 ^ 16 ∨ sentDone + k = frames.length) :
    sentDone + k ≤ s.txRetired ∨ v5Q0TxBdCnt ≤ frames.length := by
  by_cases hfull : v5Q0TxBdCnt ≤ frames.length
  · exact .inr hfull
  have hlog : frames.length = s.sent.length := by rw [← h.sending.tokens, List.length_map]
  have hretired := h.sending.retired
  have hcount : s.CountInRing := by
    refine .inl (Nat.lt_of_le_of_lt (Nat.mod_le _ _) ?_)
    omega
  exact .inl (Nat.le_of_eq
    (meets_count h.sending (h.timely.resolve_right hfull) hcount hk hskip hend))

/-- What a poll does with the receive half, and that it does not fail. -/
theorem Heard.poll
    (hcount : s.rxRetired % 2 ^ 16 < v5Q0RxBdCnt) {fuel : ℕ} (hfuel : outstanding < fuel) :
    ∃ net', s.net.advanceRings fuel = some (.ok (), net') ∧
      Receiving net' s.rxRetired s.rxRetired (log ++
        ((pending s.net.controller.rxStatus log done (s.rxRetired - done)).filter
          fun a => !GenetNet.deliverable a.2.2).map fun a => a.2.1) ∧
      net'.rx.ready = (((pending s.net.controller.rxStatus log done (s.rxRetired - done)).filter
        fun a => GenetNet.deliverable a.2.2).map delivered).foldl enqueue s.net.rx.ready ∧
      net'.controller.rxStatus = s.net.controller.rxStatus := by
  obtain ⟨k, answer, tx', htx, -, -, -, -, -, hok⟩ := h.sending.advanceTx hfuel
  rw [hok h.timely] at htx
  have hposted := h.receiving.posted
  have hroom := h.receiving.room
  have hbehind := h.receiving.behind
  have hrx : Receiving { s.net with tx := tx' } s.rxRetired done log :=
    h.receiving.congr ⟨rfl, rfl, rfl, rfl, rfl, rfl⟩
  obtain ⟨net', hrun, h', hready, hstatus⟩ := Receiving.advance hcount (s.rxRetired - done) hrx
    h.worded (by omega) fuel (by simp only [outstanding, rxSlots, packetSlots] at hfuel; omega)
  have hcons : s.net.controller.consumerIndex .rdma = s.rxRetired % 2 ^ 16 := by
    show s.net.controller.rxCons % 2 ^ 16 = _
    rw [h.receiving.cons, Nat.mod_mod]
  refine ⟨net', ?_, h', hready, hstatus⟩
  simp only [GenetNet.advanceRings, htx, hcons]
  exact hrun

end

theorem pending_self (status : ℕ → ℕ) (log : List Posting) (n : ℕ) :
    pending status log n (n - n) = [] := by
  rw [Nat.sub_self]
  rfl

section

variable (h : Heard s sentDone frames done log)
include h

theorem Heard.advance {fuel : ℕ}
    (hok : s.Framed (.advance fuel)) (hstep : s.step (.advance fuel) = some s') :
    ∃ sentDone' frames' done' log', Heard s' sentDone' frames' done' log' := by
  obtain ⟨k, hk, hinv, -, hret, -, -, hskip, hend⟩ := h.sending.advance hstep
  have htimely := h.advance_timely hk hskip hend
  rw [← hret] at htimely
  simp only [step, Option.map_eq_some_iff] at hstep
  obtain ⟨⟨answer, net⟩, hrun, rfl⟩ := hstep
  obtain ⟨net', hrun', h', -, hstatus⟩ := h.poll hok.2
    (show outstanding < fuel + (outstanding + 1) by omega)
  rw [advanceRings_mono hrun] at hrun'
  obtain ⟨-, rfl⟩ := Prod.mk.inj (Option.some.inj hrun')
  exact ⟨_, _, s.rxRetired, _, hinv, htimely, h', fun i hi hi' => absurd hi' (Nat.not_lt.2 hi),
    by rw [pending_self]; rfl⟩

theorem Heard.retireRx {word : ℕ}
    (hok : s.Framed (.retireRx word)) (hstep : s.step (.retireRx word) = some s') :
    Heard s' sentDone frames done log := by
  have hsending := (h.sending.other hstep (by simp)).1
  simp only [step] at hstep
  split at hstep
  · rename_i hguard
    obtain ⟨⟨hup, hprod⟩, hown, -⟩ := hguard
    obtain rfl := Option.some.inj hstep
    have hroom := h.receiving.room
    have hbehind := h.receiving.behind
    obtain ⟨rung, hrung, hrung', hrungProd⟩ := h.receiving.doorbell (by rw [hup]; simp)
    have hlt : s.rxRetired < rung := by
      refine Nat.lt_of_le_of_ne hrung fun heq => hprod ?_
      rw [hrungProd, heq]
    obtain ⟨p, hp⟩ : ∃ p, log[s.rxRetired]? = some p := ⟨_, List.getElem?_eq_getElem (by omega)⟩
    have hbuffer := h.receiving.buffers s.rxRetired hbehind
      (show s.rxRetired < done + 256 by omega)
    rw [List.getElem?_map, hp] at hbuffer
    have hother : ∀ i, done ≤ i → i < s.rxRetired →
        update s.net.controller.rxStatus (s.rxRetired % v5Q0RxBdCnt) word
          (i % v5Q0RxBdCnt) = s.net.controller.rxStatus (i % v5Q0RxBdCnt) := by
      intro i hi hi'
      refine update_of_ne (fun hmod => ?_) _ _
      have := mod_inj hi (show i < done + 256 by omega) hbehind
        (show s.rxRetired < done + 256 by omega) hmod
      omega
    refine ⟨hsending, h.timely, ?_, ?_, ?_⟩
    · exact ⟨h.receiving.toStocked.congr rfl rfl rfl, rfl, Nat.le_succ_of_le hbehind,
        Nat.le_trans hlt hrung',
        fun _ => ⟨rung, hlt, hrung', hrungProd⟩, h.receiving.unprogrammed, fun _ => hup⟩
    · intro i hi hi'
      simp only at hi' ⊢
      by_cases heq : i = s.rxRetired
      · subst heq
        rw [update_self]
        exact ⟨hown, hok⟩
      · rw [hother i hi (by omega)]
        exact h.worded i hi (by omega)
    · simp only
      have hlast : done + (s.rxRetired - done) = s.rxRetired := by omega
      rw [hbuffer, show s.rxRetired + 1 - done = s.rxRetired - done + 1 by omega, h.arrived,
        pending_concat (p := p) (by rw [hlast, hp]), List.map_append, hlast, update_self,
        pending_congr fun i hi hi' => hother i hi (by omega)]
      rfl
  · contradiction

theorem Heard.returnRx {token : PacketToken}
    {buffer : Buffer} (hstep : s.step (.returnRx token buffer) = some s') :
    ∃ log', Heard s' sentDone frames done log' := by
  obtain ⟨hsending, -, -, hret, -⟩ := h.sending.other hstep (by simp)
  obtain rfl := Option.some.inj hstep
  obtain ⟨log', hlog', h', -, hstatus⟩ := h.receiving.returnRx token buffer
  have hposted := h.receiving.posted
  have hbehind := h.receiving.behind
  refine ⟨log', hsending, h.timely, h', ?_, ?_⟩
  · intro i hi hi'
    rw [hstatus]
    exact h.worded i hi hi'
  rw [hstatus, h.arrived]
  rcases hlog' with rfl | ⟨address, rfl⟩
  · rfl
  · rw [pending_append (show done + (s.rxRetired - done) ≤ log.length by omega)]

end

theorem Receiving.of_reset {net net' : GenetNet} (hreset : net.reset = (.ok (), net')) :
    Receiving net' 0 0 [] := by
  rcases reset_eq net with ⟨e, he⟩ | hok
  · rw [he] at hreset
    cases hreset
  rw [hok] at hreset
  rw [← (Prod.mk.inj hreset).2]
  exact ⟨⟨.new _ _ (by decide) (by decide), rfl, rfl, Kept.empty _, nofun⟩, rfl, Nat.le_refl _,
    Nat.le_refl _, fun hup => absurd (.inl rfl) hup, fun _ => rfl, nofun⟩

theorem Heard.step (h : Heard s sentDone frames done log) {op : Op} (hok : s.Framed op)
    (hstep : s.step op = some s') :
    ∃ sentDone' frames' done' log', Heard s' sentDone' frames' done' log' := by
  cases op with
  | submit token buffer =>
    rcases h.sending.submit hok hstep with ⟨-, rfl⟩ |
      ⟨f, -, -, -, -, -, hret, -, hkept, harrived, hretired, -, hinv⟩
    · exact ⟨_, _, _, _, h⟩
    refine ⟨_, _, _, _, h.of_rxKept hinv ?_ hkept harrived hretired⟩
    rw [hret, List.length_append]
    exact h.timely.imp_right fun hfull => Nat.le_add_right_of_le hfull
  | advance fuel => exact h.advance hok hstep
  | retireRx word => exact ⟨_, _, _, _, h.retireRx hok hstep⟩
  | returnRx token buffer =>
    obtain ⟨log', h'⟩ := h.returnRx hstep
    exact ⟨_, _, _, _, h'⟩
  | takeTx =>
    obtain rfl := Option.some.inj hstep
    exact ⟨_, _, _, _, h.of_rxKept h.sending.takeTx h.timely ⟨rfl, rfl, rfl, rfl, rfl, rfl⟩ rfl rfl⟩
  | takeRx =>
    have hsending := (h.sending.other hstep (by simp)).1
    obtain rfl := Option.some.inj hstep
    refine ⟨_, _, done, log, hsending, h.timely, ?_, h.worded, h.arrived⟩
    exact ⟨h.receiving.toStocked.congr rfl rfl rfl, h.receiving.cons, h.receiving.behind,
      h.receiving.posted, h.receiving.doorbell, h.receiving.unprogrammed, h.receiving.up⟩
  | reset =>
    simp only [System.step] at hstep
    cases hreset : s.net.reset with
    | mk answer net =>
      rw [hreset] at hstep
      rcases reset_eq s.net with ⟨e, he⟩ | hnet
      · rw [he] at hreset
        obtain ⟨rfl, rfl⟩ := Prod.mk.inj hreset
        obtain rfl := Option.some.inj hstep
        exact ⟨_, _, _, _, h⟩
      have hanswer : answer = .ok () := by
        rw [hreset] at hnet
        exact (Prod.mk.inj hnet).1
      subst hanswer
      obtain rfl := Option.some.inj hstep
      exact ⟨0, [], 0, [], Inv.of_reset hreset rfl rfl, .inl (Nat.zero_le _),
        Receiving.of_reset hreset, fun i _ hi => absurd hi (Nat.not_lt_zero i), rfl⟩
  | retireTx =>
    obtain ⟨hinv, -, -, hret, -, hkept, harrived, hretired⟩ := h.sending.retireTx hstep
    refine ⟨_, _, _, _, h.of_rxKept hinv ?_ hkept harrived hretired⟩
    rw [hret]
    exact h.timely.imp_left Nat.le_succ_of_le
  | answer a =>
    have hsending := (h.sending.other hstep (by simp)).1
    obtain rfl := Option.some.inj hstep
    exact ⟨_, _, _, _, h.of_rxKept hsending h.timely ⟨rfl, rfl, rfl, rfl, rfl, rfl⟩ rfl rfl⟩

theorem deliverable_iff (wire : ℕ) :
    GenetNet.deliverable wire = true ↔ 60 ≤ wire - 64 ∧ wire - 64 ≤ 2048 := by
  unfold GenetNet.deliverable
  rw [Bool.and_eq_true, decide_eq_true_eq, validateFrameLength_isOk]
  show 64 ≤ wire ∧ 60 ≤ wire - 64 ∧ wire - 64 ≤ 2048 ↔ 60 ≤ wire - 64 ∧ wire - 64 ≤ 2048
  omega

/-- A buffer that is in the ring under the given token, behind those that the engine has
retired. -/
def Posted (net : GenetNet) (retired : ℕ) (token : PacketToken) : Prop :=
  ∃ i pa d, retired ≤ i ∧ i < retired + outstanding ∧
    net.rx.buffers (i % v5Q0RxBdCnt) = some (token, pa) ∧
    net.rx.ring.held (i % outstanding) = some d

theorem Receiving.posted_of_mem {net : GenetNet} {retired : ℕ} (h : Receiving net retired done log)
    {p : Posting} {i : ℕ} (hi : retired ≤ i) (hp : log[i]? = some p) :
    Posted net retired p.token := by
  have hroom := h.room
  have hbehind := h.behind
  have hlt := (List.getElem?_eq_some_iff.1 hp).1
  refine ⟨i, p.pa, p.descriptor, hi, show i < retired + 8 by omega, ?_, ?_⟩
  · rw [h.buffers i (by omega) (show i < done + 256 by omega), List.getElem?_map, hp]
    rfl
  · rw [h.tracks.kept i (by omega) (show i < done + 8 by omega), List.getElem?_map, hp]
    rfl

/-- The length of a received frame is no reason for a poll to fail: what has arrived is queued
with its payload length when that is one of a frame, and posted again when it is not. -/
theorem received_length_is_handled {s : System} (hr : Reach Init System.step Framed s)
    (hdrained : s.Drained) (hcount : s.rxRetired % 2 ^ 16 < v5Q0RxBdCnt) :
    ∃ net', (∀ fuel, outstanding < fuel → s.net.advanceRings fuel = some (.ok (), net')) ∧
      net'.rx.ready.reduceOption.map (fun x => (x.1, x.2.len)) =
        (s.arrived.filter fun a => 60 ≤ a.2 - 64 ∧ a.2 - 64 ≤ 2048).map
          (fun a => (a.1, a.2 - 64)) ∧
      ∀ a ∈ s.arrived, ¬ (60 ≤ a.2 - 64 ∧ a.2 - 64 ≤ 2048) →
        Posted net' s.rxRetired a.1 := by
  have hinv : ∃ sentDone frames done log, Heard s sentDone frames done log := by
    refine Reach.invariant (I := fun s => ∃ sentDone frames done log,
      Heard s sentDone frames done log) ?_ ?_ hr
    · rintro s ⟨net, hreset, hsent, hretired, -, hrx, harrived⟩
      refine ⟨0, [], 0, [], Inv.of_reset hreset hsent hretired, .inl (Nat.zero_le _), ?_, ?_, ?_⟩
      · rw [hrx]
        exact Receiving.of_reset hreset
      · rw [hrx]
        exact fun i _ hi => absurd hi (Nat.not_lt_zero i)
      · rw [hrx, harrived]
        rfl
    · rintro s op s' ⟨sentDone, frames, done, log, h⟩ hok hstep
      exact h.step hok hstep
  obtain ⟨sentDone, frames, done, log, h⟩ := hinv
  obtain ⟨net', hrun, h', hready, -⟩ := h.poll hcount (Nat.lt_succ_self outstanding)
  have hposted := h.receiving.posted
  have hroom := h.receiving.room
  have hlen : (pending s.net.controller.rxStatus log done (s.rxRetired - done)).length ≤ rxSlots :=
    Nat.le_trans (List.length_filterMap_le _ _) (by
      rw [List.length_range']
      show s.rxRetired - done ≤ 8
      omega)
  have hpred : ∀ a : ℕ × Posting × ℕ, decide (60 ≤ a.2.2 - 64 ∧ a.2.2 - 64 ≤ 2048) =
      GenetNet.deliverable a.2.2 := by
    intro a
    rw [Bool.eq_iff_iff, decide_eq_true_eq, deliverable_iff]
  refine ⟨net', ?_, ?_, ?_⟩
  · intro fuel hfuel
    obtain ⟨more, rfl⟩ := Nat.exists_eq_add_of_le hfuel
    exact advanceRings_mono hrun more
  · rw [hdrained.2, foldl_enqueue _ _ (by
      rw [List.length_map]
      exact Nat.le_trans (List.length_filter_le _ _) hlen)] at hready
    rw [hready, reduceOption_parked, h.arrived, List.filter_map, List.map_map, List.map_map]
    simp only [comp_def, hpred]
    rfl
  · intro a ha hbad
    rw [h.arrived] at ha
    obtain ⟨b, hb, rfl⟩ := List.mem_map.1 ha
    have hrepost : b.2.1 ∈ ((pending s.net.controller.rxStatus log done
        (s.rxRetired - done)).filter fun a => !GenetNet.deliverable a.2.2).map fun a => a.2.1 := by
      refine List.mem_map.2 ⟨b, List.mem_filter.2 ⟨hb, ?_⟩, rfl⟩
      rw [← hpred, decide_eq_false hbad]
      rfl
    obtain ⟨j, hj⟩ := List.mem_iff_getElem?.1 hrepost
    refine Receiving.posted_of_mem h' (i := log.length + j) (by omega) ?_
    rw [List.getElem?_append_right (Nat.le_add_right _ _), Nat.add_sub_cancel_left]
    exact hj

/-- A frame of six bytes arrives, and its buffer is posted again. -/
theorem received_length_is_handled_runt : ∃ s : System, s.arrived = [(⟨8, 0, 0⟩, 70)] ∧
    ∃ net', (∀ fuel, outstanding < fuel → s.net.advanceRings fuel = some (.ok (), net')) ∧
      Posted net' 1 ⟨8, 0, 0⟩ := by
  have hboot : Reach Init System.step Framed booted := by
    refine Reach.next (s := ⟨cold.reset.2, [], 0, [], 0, []⟩)
      (l := Op.returnRx ⟨8, 0, 0⟩ ⟨4096, 2048⟩) (Reach.start ?_) trivial rfl
    exact ⟨cold, rfl, rfl, rfl, rfl, rfl, rfl⟩
  obtain ⟨s, hs⟩ : ∃ s, booted.step (.retireRx (70 <<< 16)) = some s := ⟨_, rfl⟩
  have hr : Reach Init System.step Framed s :=
    hboot.next (l := Op.retireRx (70 <<< 16)) ⟨by decide, by decide⟩ hs
  obtain rfl := Option.some.inj hs
  obtain ⟨net', hrun, -, hrunt⟩ := received_length_is_handled hr ⟨rfl, rfl⟩ (by decide)
  exact ⟨_, rfl, net', hrun, hrunt (⟨8, 0, 0⟩, 70) (List.mem_singleton_self _) (by decide)⟩

/-- A frame of no length, and one of a length between the frame limit and the buffer, make the
poll fail. -/
theorem received_length_fails : ∃ s s' : System,
    Reach Init System.step (fun _ _ => True) s ∧ s.arrived = [(⟨8, 0, 0⟩, 0)] ∧
    (s.net.advanceRings (outstanding + 1)).map Prod.fst = some (.error (.descriptor .empty)) ∧
    Reach Init System.step (fun _ _ => True) s' ∧ s'.arrived = [(⟨8, 0, 0⟩, 1537)] ∧
    (s'.net.advanceRings (outstanding + 1)).map Prod.fst =
      some (.error (.descriptor .tooLarge)) := by
  have hboot : Reach Init System.step (fun _ _ => True) booted :=
    booted_reach.mono fun _ _ _ => trivial
  exact ⟨_, _, hboot.next (l := Op.retireRx 0) trivial rfl, rfl, rfl,
    hboot.next (l := Op.retireRx (1537 <<< 16)) trivial rfl, rfl, rfl⟩

end System

end HarborKernel.Genet
