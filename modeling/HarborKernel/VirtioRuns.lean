import HarborKernel.Transition
import HarborKernel.VirtioQueues

/-!
Runs of the virtio transport and its device. The loops of `poll` are taken turn by turn, so the
device may act between any two used elements. It may return what it was given in any order.
-/

namespace HarborKernel.QemuVirt

open Net ReadyList Transition

structure System where
  rx : Tracked (PacketToken × Buffer)
  tx : Tracked PacketToken

namespace System

def virtio (s : System) : Virtio := ⟨s.rx.port, s.tx.port⟩

inductive Op
  /-- `post_rx` and `return_rx`. -/
  | postRx (token : PacketToken) (buffer : Buffer)
  | submitTx (token : PacketToken) (buffer : Buffer)
  | probe (pa : ℕ)
  /-- A turn of each loop of `poll`. -/
  | advanceTx
  | advanceRx
  | takeTxComplete
  | takeRxAvailable
  | reset
  /-- The device returns a buffer. -/
  | returnRx (i len : ℕ)
  | returnTx (i len : ℕ)
deriving DecidableEq

def postRx (s : System) (token : PacketToken) (buffer : Buffer) : System :=
  { s with rx := (s.rx.post (token, buffer) rxQueue buffer.pa (virtioNetHeaderBytes + buffer.len)
      descFWrite).2 }

def step (s : System) : Op → Option System
  | .postRx token buffer => some (s.postRx token buffer)
  | .submitTx token buffer =>
    match validateFrameLength buffer.len with
    | .error _ => some s
    | .ok () => some { s with
        tx := (s.tx.post token txQueue buffer.pa (virtioNetHeaderBytes + buffer.len) 0).2 }
  | .probe pa => some { s with tx :=
      (s.tx.post ⟨0, 0, 0⟩ txQueue pa (virtioNetHeaderBytes + ethernetMinFrameBytes) 0).2 }
  | .advanceTx =>
    match s.tx.consume with
    | none => none
    | some (_, none, tx) => some { s with tx }
    | some (used, some token, tx) =>
      some { s with tx := tx.park token ⟨used.descriptor, used.len⟩ }
  | .advanceRx =>
    match s.rx.consume with
    | none => none
    | some (_, none, rx) => some { s with rx }
    | some (used, some (token, buffer), rx) =>
      if Virtio.deliverable used buffer then
        some { s with
          rx := rx.park token ⟨used.descriptor, used.len - virtioNetHeaderBytes⟩ }
      else some ({ s with rx := rx.refuse token }.postRx token buffer)
  | .takeTxComplete => some { s with tx := s.tx.take }
  | .takeRxAvailable => some { s with rx := s.rx.take }
  | .reset => some ⟨.fresh s.rx.port.restart, .fresh s.tx.port.restart⟩
  | .returnRx i len => (s.rx.giveBack i len).map fun rx => { s with rx }
  | .returnTx i len => (s.tx.giveBack i len).map fun tx => { s with tx }

theorem post_port {α : Type} (t : Tracked α) (x : α) (queue pa len flags : ℕ) :
    (t.post x queue pa len flags).1 = (t.port.post x queue pa len flags).1 ∧
      (t.post x queue pa len flags).2.port = (t.port.post x queue pa len flags).2 := by
  unfold Tracked.post
  rcases t.port.post x queue pa len flags with ⟨_ | _, port⟩
  · exact ⟨rfl, rfl⟩
  · exact ⟨rfl, rfl⟩

theorem postRx_virtio (s : System) (token : PacketToken) (buffer : Buffer) :
    (s.postRx token buffer).virtio = (s.virtio.postRx token buffer).2 :=
  congrArg (fun rx => Virtio.mk rx s.tx.port) (post_port s.rx _ _ _ _ _).2

def Op.call : Op → Virtio → Option Virtio
  | .postRx token buffer, v => some (v.postRx token buffer).2
  | .submitTx token buffer, v => some (v.submitTx token buffer).2
  | .probe pa, v => some (v.probe pa).2
  | .advanceTx, v => v.advanceTx
  | .advanceRx, v => v.advanceRx
  | .takeTxComplete, v => some v.takeTxComplete.2
  | .takeRxAvailable, v => some v.takeRxAvailable.2
  | .reset, v => some v.reset
  | .returnRx .., _ => none
  | .returnTx .., _ => none

def Op.isDevice : Op → Bool
  | .returnRx .. => true
  | .returnTx .. => true
  | _ => false

/-- Without its history, a step is a call of the backend. -/
theorem step_virtio (s : System) (op : Op) (h : op.isDevice = false) :
    (s.step op).map virtio = op.call s.virtio := by
  cases op with
  | postRx token buffer => exact congrArg some (s.postRx_virtio token buffer)
  | submitTx token buffer =>
    simp only [step, Op.call, Virtio.submitTx]
    cases validateFrameLength buffer.len with
    | error e => rfl
    | ok u =>
      exact congrArg (fun tx => some (Virtio.mk s.rx.port tx)) (post_port s.tx _ _ _ _ _).2
  | probe pa =>
    exact congrArg (fun tx => some (Virtio.mk s.rx.port tx)) (post_port s.tx _ _ _ _ _).2
  | advanceTx =>
    simp only [step, Op.call, Virtio.advanceTx, Tracked.consume, virtio]
    rcases s.tx.port.consume with _ | ⟨used, _ | token, port⟩
    · rfl
    · rfl
    · rfl
  | advanceRx =>
    simp only [step, Op.call, Virtio.advanceRx, Tracked.consume, virtio]
    rcases s.rx.port.consume with _ | ⟨used, _ | ⟨token, buffer⟩, port⟩
    · rfl
    · rfl
    · by_cases hframe : Virtio.deliverable used buffer = true
      · simp only [Option.map_some, hframe, if_true]
        rfl
      · simp only [Option.map_some, hframe, Bool.false_eq_true, if_false]
        exact congrArg some (postRx_virtio _ token buffer)
  | takeTxComplete | takeRxAvailable | reset => rfl
  | returnRx i len | returnTx i len => cases h

/-- A loop of `poll` is its turns, one after the other. -/
theorem loop_run {op : Op} {turn : Virtio → Option Virtio} (hdevice : op.isDevice = false)
    (hcall : op.call = turn) : ∀ (fuel : ℕ) (s : System) (v : Virtio),
    Virtio.loop turn fuel s.virtio = some v →
      ∃ n s', run step s (List.replicate n op) = some s' ∧ s'.virtio = v := by
  intro fuel
  induction fuel with
  | zero =>
    intro s v h
    cases h
  | succ fuel ih =>
    intro s v h
    have hstep := s.step_virtio op hdevice
    rw [hcall] at hstep
    rw [Virtio.loop, ← hstep] at h
    cases hs : s.step op with
    | none =>
      rw [hs] at h
      exact ⟨0, s, rfl, Option.some.inj h⟩
    | some s1 =>
      rw [hs] at h
      obtain ⟨n, s', hrun, hv⟩ := ih s1 v h
      exact ⟨n + 1, s', by rw [List.replicate_succ, Transition.run, hs]; exact hrun, hv⟩

/-- A poll is a run of turns after which the device has reported nothing that is unread. -/
theorem poll_is_turns (s : System) (fuel : ℕ) (hrx : s.rx.port.Words) (htx : s.tx.port.Words)
    (hfuel : 2 ^ 16 ≤ fuel) :
    ∃ v n k s1 s', s.virtio.poll fuel = some v ∧ s'.virtio = v ∧
      run step s (List.replicate n .advanceTx) = some s1 ∧
      run step s1 (List.replicate k .advanceRx) = some s' ∧
      s'.step .advanceTx = none ∧ s'.step .advanceRx = none := by
  obtain ⟨v, hpoll, hdonetx, hdonerx⟩ := Virtio.poll_returns (v := s.virtio) hrx htx hfuel
  obtain ⟨v1, htx, hrx⟩ := Option.bind_eq_some_iff.1 hpoll
  obtain ⟨n, s1, hrun1, rfl⟩ :=
    loop_run (show Op.advanceTx.isDevice = false from rfl) rfl fuel s v1 htx
  obtain ⟨k, s2, hrun2, rfl⟩ :=
    loop_run (show Op.advanceRx.isDevice = false from rfl) rfl fuel s1 v hrx
  refine ⟨_, n, k, s1, s2, hpoll, rfl, hrun1, hrun2, ?_, ?_⟩
  · exact Option.map_eq_none_iff.1 ((s2.step_virtio .advanceTx rfl).trans hdonetx)
  · exact Option.map_eq_none_iff.1 ((s2.step_virtio .advanceRx rfl).trans hdonerx)

/-- The device was just configured or reset: the cursors and tables are clear, and the ring
pages are as they were left. -/
def Init (s : System) : Prop :=
  ∃ rx tx, s = ⟨.fresh (Port.restart rx), .fresh (Port.restart tx)⟩

/-- The `used.idx` in the ring page, which a reset leaves, is not about to wrap. -/
def Cleared {α : Type} (p : Port α) : Prop := p.rings.usedIdx + queueSize ≤ 2 ^ 16

instance {α : Type} (p : Port α) : Decidable (Cleared p) := inferInstanceAs (Decidable (_ ≤ _))

/-- Buffers are returned in the order in which they were posted, and posted while the service
lacks fewer than eight. -/
def Ordered (s : System) : Op → Prop
  | .postRx .. => s.rx.busy < queueSize
  | .submitTx .. => s.tx.busy < queueSize
  | .probe _ => s.tx.busy < queueSize
  | .reset => Cleared s.rx.port ∧ Cleared s.tx.port
  | .returnRx i _ => i = s.rx.returned.length
  | .returnTx i _ => i = s.tx.returned.length
  | _ => True

def Inv (s : System) : Prop := s.rx.Live Prod.fst ∧ s.tx.Live id

theorem Inv.step {s s' : System} {op : Op} (h : Inv s) (hok : Ordered s op)
    (hstep : s.step op = some s') : Inv s' := by
  obtain ⟨hrx, htx⟩ := h
  cases op with
  | postRx token buffer =>
    cases hstep
    exact ⟨hrx.post hok, htx⟩
  | submitTx token buffer =>
    simp only [System.step] at hstep
    split at hstep
    · cases hstep
      exact ⟨hrx, htx⟩
    · cases hstep
      exact ⟨hrx, htx.post hok⟩
  | probe pa =>
    cases hstep
    exact ⟨hrx, htx.post hok⟩
  | advanceTx =>
    simp only [System.step] at hstep
    split at hstep
    · cases hstep
    · rename_i hconsume
      cases hstep
      exact ⟨hrx, htx.consume_none hconsume⟩
    · rename_i hconsume
      cases hstep
      exact ⟨hrx, (htx.consume_some hconsume).1 _⟩
  | advanceRx =>
    simp only [System.step] at hstep
    split at hstep
    · cases hstep
    · rename_i hconsume
      cases hstep
      exact ⟨hrx.consume_none hconsume, htx⟩
    · rename_i hconsume
      obtain ⟨hpark, hrefuse, hbusy⟩ := hrx.consume_some hconsume
      split at hstep
      · cases hstep
        exact ⟨hpark _, htx⟩
      · cases hstep
        exact ⟨hrefuse.post hbusy, htx⟩
  | takeTxComplete =>
    cases hstep
    exact ⟨hrx, htx.take⟩
  | takeRxAvailable =>
    cases hstep
    exact ⟨hrx.take, htx⟩
  | reset =>
    cases hstep
    exact ⟨Tracked.live_restart _ hok.1, Tracked.live_restart _ hok.2⟩
  | returnRx i len =>
    obtain ⟨rx, hback, rfl⟩ := Option.map_eq_some_iff.1 hstep
    cases (show i = s.rx.returned.length from hok)
    exact ⟨hrx.giveBack hback, htx⟩
  | returnTx i len =>
    obtain ⟨tx, hback, rfl⟩ := Option.map_eq_some_iff.1 hstep
    cases (show i = s.tx.returned.length from hok)
    exact ⟨hrx, htx.giveBack hback⟩

def Start (s : System) : Prop := Init s ∧ Cleared s.rx.port ∧ Cleared s.tx.port

/-- While the device keeps the order and the service room, a buffer in flight keeps its
descriptor and its identity, and every return is matched with its own buffer and reported. -/
theorem in_flight_kept {s : System} (h : Reach Start step Ordered s) :
    s.rx.Sound Prod.fst ∧ s.tx.Sound id := by
  have hinv : Inv s := by
    refine Reach.invariant ?_ (fun _ _ _ hinv hok hstep => hinv.step hok hstep) h
    rintro _ ⟨⟨rx, tx, rfl⟩, hrx, htx⟩
    exact ⟨Tracked.live_restart _ hrx, Tracked.live_restart _ htx⟩
  exact ⟨hinv.1.sound, hinv.2.sound⟩

def zeroed : Rings := ⟨fun _ => ⟨0, 0, 0⟩, fun _ => 0, 0, fun _ => ⟨0, 0⟩, 0⟩

def configured {α : Type} : Port α := ⟨zeroed, ⟨0, 0⟩, fun _ => none, 0, vacant queueSize⟩

def booted : System := ⟨.fresh configured, .fresh configured⟩

def page (slot : ℕ) : Buffer := ⟨4096 * (slot + 1), packetBytes⟩

def packet (slot : ℕ) : PacketToken := ⟨UInt8.ofNat slot, 1, UInt16.ofNat packetBytes⟩

def filled : List Op := (List.range 8).map fun slot => .postRx (packet (8 + slot)) (page (8 + slot))

instance (s : System) (op : Op) : Decidable (Ordered s op) := by
  cases op <;> unfold Ordered <;> infer_instance

theorem booted_start : Start booted :=
  ⟨⟨configured, configured, rfl⟩, by decide, by decide⟩

/-- The device has returned two of the eight receive buffers. -/
theorem poll_is_turns_two : ∃ s : System, s.rx.port.Words ∧ s.tx.port.Words ∧
    s.rx.port.unread = 2 ∧ ∃ v, s.virtio.poll (2 ^ 16) = some v := by
  have hstart : Reach Start step (fun _ _ => True) booted := Reach.start booted_start
  obtain ⟨s, -, hrx, htx, hunread⟩ := hstart.exists_run (filled ++ [.returnRx 0 72, .returnRx 1 72])
    (P := fun s => (s.rx.port.cursor.used < 2 ^ 16 ∧ s.rx.port.rings.usedIdx < 2 ^ 16) ∧
      (s.tx.port.cursor.used < 2 ^ 16 ∧ s.tx.port.rings.usedIdx < 2 ^ 16) ∧
      s.rx.port.unread = 2) (by decide +kernel)
  obtain ⟨v, _, _, _, _, hpoll, -⟩ := poll_is_turns s (2 ^ 16) hrx htx (Nat.le_refl _)
  exact ⟨s, hrx, htx, hunread, v, hpoll⟩

def hurried : List Op :=
  (List.range 8).map (fun slot => .submitTx (packet slot) (page slot)) ++
    [.returnTx 0 2060, .submitTx (packet 8) (page 8), .advanceTx]

def overtaken : List Op :=
  filled ++ [.returnRx 1 72, .advanceRx, .takeRxAvailable, .postRx (packet 9) (page 9)]

theorem in_flight_rewritten :
    (∃ s, Reach Init step (fun _ _ => True) s ∧ s.rx.InFlight 0 ∧
      s.rx.log[0]? = some ((packet 8, page 8), ⟨(page 8).pa, maxBufferBytes, descFWrite⟩) ∧
      s.rx.port.rings.desc 0 = ⟨(page 9).pa, maxBufferBytes, descFWrite⟩ ∧
      s.rx.port.pending 0 = some (packet 9, page 9)) ∧
    (∃ s, Reach Init step (fun _ _ => True) s ∧
      s.rx.log[0]? = some ((packet 8, page 8), ⟨(page 8).pa, maxBufferBytes, descFWrite⟩) ∧
      s.rx.matched[1]? = some (some 0, (packet 9, page 9))) ∧
    ∃ s, Reach Init step (fun _ _ => True) s ∧ s.tx.returned = [0] ∧
      s.tx.log[0]? = some (packet 0, ⟨(page 0).pa, maxBufferBytes, 0⟩) ∧
      s.tx.matched = [(some 0, packet 8)] := by
  have hstart : Reach Init step (fun _ _ => True) booted := Reach.start booted_start.1
  exact ⟨hstart.exists_run overtaken (by decide +kernel),
    hstart.exists_run (overtaken ++ [.returnRx 0 72, .advanceRx]) (by decide +kernel),
    hstart.exists_run hurried (by decide +kernel)⟩

/-- Buffers come back in order, through two rounds of the ring. -/
theorem in_flight_kept_rounds : ∃ s, Reach Start step Ordered s ∧
    s.rx.log.length = 24 ∧ s.rx.Sound Prod.fst ∧ s.tx.Sound id := by
  have hstart : Reach Start step Ordered booted := Reach.start booted_start
  obtain ⟨s, hreach, hlength⟩ := hstart.exists_run
    (filled ++ (List.range 16).flatMap fun i => [.returnRx i 72, .advanceRx, .takeRxAvailable,
      .postRx (packet (8 + i % 8)) (page (8 + i % 8))])
    (P := fun s => s.rx.log.length = 24) (by decide +kernel)
  exact ⟨s, hreach, hlength, in_flight_kept hreach⟩

end System

end HarborKernel.QemuVirt
