import HarborKernel.NetworkRuntime

/-!
The two boards' transports as instances of the contract (`bsp/rpi4/net.rs`,
`bsp/qemu_virt/net.rs`), with the bring-up that posts the receive buffers and sends a probe.
-/

namespace HarborKernel.Genet.GenetNet

open Net

def postAll : List (PacketToken × Buffer) → GenetNet → Except Error Unit × GenetNet
  | [], net => (.ok (), net)
  | (token, buffer) :: rest, net =>
    match net.postRxSlot token buffer with
    | (.error e, net) => (.error e, net)
    | (.ok (), net) => postAll rest net

def start (net : GenetNet) (rx : List (PacketToken × Buffer)) (tx : Buffer) :
    Except Error Unit × GenetNet :=
  if rxSlots < rx.length then (.error .ringTooMany, net)
  else
    match net.ensureDataplaneProgrammed with
    | (.error e, net) => (.error e, net)
    | (.ok (), net) =>
      match net.postAll rx with
      | (.error e, net) => (.error e, net)
      | (.ok (), net) =>
        let net := { net with
          controller := net.controller.doorbellProducer .rdma net.rx.ring.producer }
        match net.enableDataplane with
        | (.error e, net) => (.error e, net)
        | (.ok (), net) => net.submitFrame ⟨0, 0, 0⟩ ⟨tx.pa, ethernetMinFrameBytes⟩

instance : Network.Transport GenetNet Error where
  start := start
  submitTx := submitTx
  returnRx := returnRx
  takeTxComplete := takeTxComplete
  takeRxAvailable := takeRxAvailable
  poll := poll
  reset := reset

end HarborKernel.Genet.GenetNet

namespace HarborKernel.QemuVirt.Virtio

open Net

def postAll : List (PacketToken × Buffer) → Virtio → Except QueueSetupFailure Unit × Virtio
  | [], v => (.ok (), v)
  | (token, buffer) :: rest, v =>
    match v.postRx token buffer with
    | (.error e, v) => (.error e, v)
    | (.ok (), v) => postAll rest v

def start (v : Virtio) (rx : List (PacketToken × Buffer)) (tx : Buffer) :
    Except QueueSetupFailure Unit × Virtio :=
  if queueSize < rx.length then (.error (.queueFull rxQueue), v)
  else
    match v.postAll rx with
    | (.error e, v) => (.error e, v)
    | (.ok (), v) => v.probe tx.pa

instance : Network.Transport Virtio QueueSetupFailure where
  start := start
  submitTx := submitTx
  returnRx := returnRx
  takeTxComplete := takeTxComplete
  takeRxAvailable := takeRxAvailable
  poll fuel v := (v.poll fuel).map fun v => (.ok (), v)
  reset v := (.ok (), v.reset)

end HarborKernel.QemuVirt.Virtio
