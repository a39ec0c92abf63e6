import HarborKernel.GenetRing
import HarborKernel.PacketPool
import HarborKernel.ReadyList

/-!
The GENET transport (`bsp/rpi4/net.rs`) over the registers that it uses of the controller
(`drivers/genet.rs`). What the PHY and the engines answer to a call that may time out is data of
the controller. Frames are shifted and compacted in memory that nothing here reads, so the bytes
are left out.
-/

namespace HarborKernel.Genet

open Function Net ReadyList

inductive Error
  | invalidBinding
  | notPresent
  | timeout
  | ringTooMany
  | descriptor (e : DescriptorError)
  | frame (e : FrameError)
  | mdio
  | linkDown
  | speed
  | notProgrammed
deriving DecidableEq

inductive LinkState
  | up
  | down
deriving DecidableEq

inductive Block
  | tdma
  | rdma
deriving DecidableEq

/-- What the hardware answers to the calls that wait for it. -/
structure Answers where
  reset : Except Error Unit
  classifyLink : Except Error LinkState
  acquireLink : Except Error Unit
  programServiceRings : Except Error Unit
  enable : Except Error Unit

structure Controller where
  dma : DmaWindows
  txStatus : ℕ → ℕ
  txAddress : ℕ → ℕ
  rxStatus : ℕ → ℕ
  rxAddress : ℕ → ℕ
  txProd : ℕ
  rxProd : ℕ
  txCons : ℕ
  rxCons : ℕ
  answers : Answers

namespace Controller

def writeDescriptor (c : Controller) (block : Block) (index : ℕ) (d : Descriptor) :
    Except Error Unit × Controller :=
  match d.validateServiceWindows c.dma with
  | .error e => (.error (.descriptor e), c)
  | .ok () =>
    match block with
    | .tdma =>
      match d.serviceWords .driver true true false with
      | .error e => (.error (.descriptor e), c)
      | .ok words => (.ok (), { c with
          txStatus := update c.txStatus index (txDescStatus words.lengthStatus)
          txAddress := update c.txAddress index d.address })
    | .rdma => (.ok (), { c with rxAddress := update c.rxAddress index d.address })

def doorbellProducer (c : Controller) (block : Block) (index : ℕ) : Controller :=
  match block with
  | .tdma => { c with txProd := index }
  | .rdma => { c with rxProd := index }

def consumerIndex (c : Controller) : Block → ℕ
  | .tdma => c.txCons % 2 ^ 16
  | .rdma => c.rxCons % 2 ^ 16

def descriptorStatus (c : Controller) : Block → ℕ → ℕ
  | .tdma, index => c.txStatus index
  | .rdma, index => c.rxStatus index

end Controller

inductive DataplaneState
  | fresh
  | linkUp
  | programmed
  | enabled
deriving DecidableEq

def rxSlots : ℕ := packetSlots / 2
def outstanding : ℕ := rxSlots

structure TxHalf where
  ring : BoundedRingState outstanding
  tokens : ℕ → Option PacketToken
  ready : List (Option (PacketToken × Completion))

structure RxHalf where
  ring : BoundedRingState outstanding
  buffers : ℕ → Option (PacketToken × ℕ)
  ready : List (Option (PacketToken × Completion))

structure GenetNet where
  controller : Controller
  tx : TxHalf
  rx : RxHalf
  dataplane : DataplaneState

def txLayout : Except Error RingLayout :=
  match RingLayout.new Genet.tdma v5Q0TxBdCnt with
  | none => .error .invalidBinding
  | some layout => .ok layout

def rxLayout : Except Error RingLayout :=
  match RingLayout.new Genet.rdma v5Q0RxBdCnt with
  | none => .error .invalidBinding
  | some layout => .ok layout

def ringError : RingError → Error
  | .invalidStatus e => .descriptor e
  | .invalidDescriptor e => .descriptor e
  | .full => .ringTooMany
  | .noCompletion => .timeout

namespace GenetNet

def translate (net : GenetNet) (cpu len : ℕ) : Except Error ℕ :=
  match net.controller.dma.mapCpu cpu len with
  | none => .error (.descriptor .addressOutsideDma)
  | some address => .ok address

def ensureDataplaneProgrammed (net : GenetNet) : Except Error Unit × GenetNet :=
  match net.dataplane with
  | .programmed | .enabled => (.ok (), net)
  | .linkUp => (.error .notProgrammed, net)
  | .fresh =>
    match net.controller.answers.acquireLink with
    | .error e => (.error e, net)
    | .ok () =>
      match net.controller.answers.programServiceRings with
      | .error e => (.error e, { net with dataplane := .linkUp })
      | .ok () => (.ok (), { net with
          controller := { net.controller with txProd := 0, rxProd := 0, txCons := 0, rxCons := 0 }
          dataplane := .programmed })

def enableDataplane (net : GenetNet) : Except Error Unit × GenetNet :=
  match net.dataplane with
  | .enabled => (.ok (), net)
  | .fresh | .linkUp => (.error .notProgrammed, net)
  | .programmed =>
    match net.controller.answers.enable with
    | .error e => (.error e, net)
    | .ok () =>
      match net.controller.answers.classifyLink with
      | .error e => (.error e, { net with dataplane := .enabled })
      | .ok _ => (.ok (), { net with dataplane := .enabled })

def postRxSlot (net : GenetNet) (token : PacketToken) (buffer : Buffer) :
    Except Error Unit × GenetNet :=
  match net.translate buffer.pa rxBufLength with
  | .error e => (.error e, net)
  | .ok address =>
    let d : Descriptor := ⟨address, rxBufLength, 0⟩
    match net.rx.ring.post d with
    | (.error e, ring) => (.error (ringError e), { net with rx := { net.rx with ring } })
    | (.ok index, ring) =>
      match net.controller.writeDescriptor .rdma index d with
      | (.error e, controller) =>
        (.error e, { net with controller, rx := { net.rx with ring } })
      | (.ok (), controller) => (.ok (), { net with
          controller
          rx := { net.rx with
            ring
            buffers := update net.rx.buffers index (some (token, buffer.pa)) } })

def submitFrame (net : GenetNet) (token : PacketToken) (buffer : Buffer) :
    Except Error Unit × GenetNet :=
  match validateFrameLength buffer.len with
  | .error e => (.error (.frame e), net)
  | .ok () =>
    let total := tsbBytes + buffer.len
    match net.translate buffer.pa total with
    | .error e => (.error e, net)
    | .ok address =>
      let d : Descriptor := ⟨address, total, 0⟩
      match net.tx.ring.post d with
      | (.error e, ring) => (.error (ringError e), { net with tx := { net.tx with ring } })
      | (.ok index, ring) =>
        match net.controller.writeDescriptor .tdma index d with
        | (.error e, controller) =>
          (.error e, { net with controller, tx := { net.tx with ring } })
        | (.ok (), controller) => (.ok (), { net with
            controller := controller.doorbellProducer .tdma ring.producer
            tx := { net.tx with
              ring
              tokens := update net.tx.tokens index (some token) } })

def submitTx (net : GenetNet) (token : PacketToken) (buffer : Buffer) :
    Except Error Unit × GenetNet :=
  if net.dataplane ≠ .enabled then (.error .notProgrammed, net)
  else
    match net.controller.answers.classifyLink with
    | .error e => (.error e, net)
    | .ok link => if link ≠ .up then (.error .linkDown, net) else net.submitFrame token buffer

def returnRx (net : GenetNet) (token : PacketToken) (buffer : Buffer) :
    Except Error Unit × GenetNet :=
  match net.ensureDataplaneProgrammed with
  | (.error e, net) => (.error e, net)
  | (.ok (), net) =>
    match net.postRxSlot token buffer with
    | (.error e, net) => (.error e, net)
    | (.ok (), net) =>
      match net.enableDataplane with
      | (.error e, net) => (.error e, net)
      | (.ok (), net) => (.ok (), { net with
          controller := net.controller.doorbellProducer .rdma net.rx.ring.producer })

def takeTxComplete (net : GenetNet) : Option (PacketToken × Completion) × GenetNet :=
  ((takeFirst net.tx.ready).1,
    { net with tx := { net.tx with ready := (takeFirst net.tx.ready).2 } })

def takeRxAvailable (net : GenetNet) : Option (PacketToken × Completion) × GenetNet :=
  ((takeFirst net.rx.ready).1,
    { net with rx := { net.rx with ready := (takeFirst net.rx.ready).2 } })

end GenetNet

/-- The loop over the transmit ring. Like the loop over the receive ring it reads the consumer
index once, and answers with nothing when it is cut off by its first argument. -/
def TxHalf.advance : ℕ → Controller → TxHalf → Option (Except Error Unit × TxHalf)
  | 0, _, _ => none
  | fuel + 1, c, tx =>
    if tx.ring.consumer = c.consumerIndex .tdma then some (.ok (), tx)
    else
      match tx.ring.complete (c.descriptorStatus .tdma tx.ring.consumer) with
      | (.ok (retired, d), ring) =>
        match tx.tokens retired with
        | some token => TxHalf.advance fuel c {
            ring
            tokens := update tx.tokens retired none
            ready := enqueue tx.ready (token, ⟨retired, d.length⟩) }
        | none => TxHalf.advance fuel c { tx with ring }
      | (.error .noCompletion, ring) => some (.ok (), { tx with ring })
      | (.error e, ring) => some (.error (ringError e), { tx with ring })

namespace GenetNet

def deliverable (wire : ℕ) : Bool :=
  decide (tsbBytes ≤ wire) && (validateFrameLength (wire - tsbBytes)).isOk

def advanceRx (rxCons : ℕ) : ℕ → GenetNet → Option (Except Error Unit × GenetNet)
  | 0, _ => none
  | fuel + 1, net =>
    if net.rx.ring.consumer = rxCons then some (.ok (), net)
    else
      match net.rx.ring.complete (net.controller.descriptorStatus .rdma net.rx.ring.consumer) with
      | (.ok (retired, d), ring) =>
        match net.rx.buffers retired with
        | none => advanceRx rxCons fuel { net with rx := { net.rx with ring } }
        | some (token, pa) =>
          let rx := { net.rx with ring, buffers := update net.rx.buffers retired none }
          if deliverable d.length then
            advanceRx rxCons fuel { net with rx := { rx with
              ready := enqueue rx.ready (token, ⟨retired, d.length - tsbBytes⟩) } }
          else advanceRx rxCons fuel ({ net with rx }.returnRx token ⟨pa, packetBytes⟩).2
      | (.error .noCompletion, ring) => some (.ok (), { net with rx := { net.rx with ring } })
      | (.error e, ring) => some (.error (ringError e), { net with rx := { net.rx with ring } })

def advanceRings (fuel : ℕ) (net : GenetNet) : Option (Except Error Unit × GenetNet) :=
  match net.tx.advance fuel net.controller with
  | none => none
  | some (.error e, tx) => some (.error e, { net with tx })
  | some (.ok (), tx) =>
    advanceRx (net.controller.consumerIndex .rdma) fuel { net with tx }

def poll : ℕ → GenetNet → Option (Except Error Unit × GenetNet) := advanceRings

def reset (net : GenetNet) : Except Error Unit × GenetNet :=
  match net.controller.answers.reset with
  | .error e => (.error e, net)
  | .ok () =>
    let net := { net with controller := { net.controller with txCons := 0, rxCons := 0 } }
    match txLayout, rxLayout with
    | .error e, _ => (.error e, net)
    | .ok txLayout, .error e =>
      (.error e, { net with tx := { net.tx with ring := .new txLayout net.controller.dma } })
    | .ok txLayout, .ok rxLayout => (.ok (), {
        controller := net.controller
        tx := ⟨.new txLayout net.controller.dma, fun _ => none, vacant rxSlots⟩
        rx := ⟨.new rxLayout net.controller.dma, fun _ => none, vacant rxSlots⟩
        dataplane := .fresh })

end GenetNet

end HarborKernel.Genet
