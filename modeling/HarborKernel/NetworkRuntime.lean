import HarborKernel.GenetNet
import HarborKernel.VirtioNet

/-!
The network runtime (`bootstrap/network_runtime.rs`) over any transport (`bsp/net.rs`). The lease
holds the transport, the packet pool and the events that wait for the service. Copying of frames
and the traffic counters are left out.
-/

namespace HarborKernel.Network

open Net

/-- The operations of a board's transport. What the device does meanwhile is part of the state;
a poll that is cut off by its first argument has no result. -/
class Transport (σ : Type) (ε : outParam Type) where
  start : σ → List (PacketToken × Buffer) → Buffer → Except ε Unit × σ
  submitTx : σ → PacketToken → Buffer → Except ε Unit × σ
  returnRx : σ → PacketToken → Buffer → Except ε Unit × σ
  takeTxComplete : σ → Option (PacketToken × Completion) × σ
  takeRxAvailable : σ → Option (PacketToken × Completion) × σ
  poll : ℕ → σ → Option (Except ε Unit × σ)
  reset : σ → Except ε Unit × σ

inductive ServiceError (ε : Type)
  | unavailable
  | busy
  | packet (e : PacketError)
  | transport (e : ε)
deriving DecidableEq

inductive RecoveryError (ε : Type)
  | unavailable
  | transportReset (e : ε)
  | poolPublish (slot : ℕ)
  | poolReturn (slot : ℕ)
  | transportReturn (slot : ℕ) (e : ε)
deriving DecidableEq

def rxDmaFirstIndex : ℕ := 1
def serviceTxDmaIndex : ℕ := rxDmaFirstIndex + packetSlots / 2

def rxSlots : List ℕ := (List.range (packetSlots / 2)).map (packetSlots / 2 + ·)

structure Lease (σ : Type) where
  transport : σ
  dma : ℕ → ℕ
  pool : PacketPool
  serviceTx : Option PacketToken
  txEvent : Option PacketToken
  rxEvent : Option PacketToken

namespace Lease

variable {σ ε : Type} [Transport σ ε]

def rxBuffer (l : Lease σ) (slot : ℕ) : Buffer :=
  ⟨l.dma (rxDmaFirstIndex + slot - packetSlots / 2), packetBytes⟩

def submitServiceTx (l : Lease σ) (token : PacketToken) :
    Except (ServiceError ε) Unit × Lease σ :=
  if l.serviceTx.isSome then (.error .busy, l)
  else
    match l.pool.acceptTx token with
    | (.error e, pool) => (.error (.packet e), { l with pool })
    | (.ok (), pool) =>
      match Transport.submitTx l.transport token ⟨l.dma serviceTxDmaIndex, token.len.toNat⟩ with
      | (.error e, transport) =>
        (.error (.transport e), { l with transport, pool := (pool.completeTx token).2 })
      | (.ok (), transport) => (.ok (), { l with transport, pool, serviceTx := some token })

def returnServiceRx (l : Lease σ) (token : PacketToken) :
    Except (ServiceError ε) Unit × Lease σ :=
  match l.pool.returnRx token with
  | (.error e, pool) => (.error (.packet e), { l with pool })
  | (.ok (), pool) =>
    match Transport.returnRx l.transport token (l.rxBuffer token.slot.toNat) with
    | (.error e, transport) => (.error (.transport e), { l with transport, pool })
    | (.ok (), transport) => (.ok (), { l with transport, pool })

def finish (l : Lease σ) (token : PacketToken) : Lease σ :=
  if l.serviceTx = some token then
    { l with serviceTx := none, pool := (l.pool.completeTx token).2, txEvent := some token }
  else l

def takeTxComplete (l : Lease σ) : Option PacketToken × Lease σ :=
  match l.txEvent with
  | some token => (some token, { l with txEvent := none })
  | none =>
    match Transport.takeTxComplete l.transport with
    | (none, transport) => (none, { l with transport })
    | (some (token, _), transport) =>
      let l := { l with transport }.finish token
      (l.txEvent, { l with txEvent := none })

def takeRxAvailable (l : Lease σ) : Option PacketToken × Lease σ :=
  (l.rxEvent, { l with rxEvent := none })

def repost : List ℕ → Lease σ → Except (RecoveryError ε) Unit × Lease σ
  | [], l => (.ok (), l)
  | slot :: rest, l =>
    match l.pool.publishRx slot 0 with
    | (.error _, pool) => (.error (.poolPublish slot), { l with pool })
    | (.ok token, pool) =>
      match pool.returnRx token with
      | (.error _, pool) => (.error (.poolReturn slot), { l with pool })
      | (.ok (), pool) =>
        match Transport.returnRx l.transport token (l.rxBuffer slot) with
        | (.error e, transport) => (.error (.transportReturn slot e), { l with transport, pool })
        | (.ok (), transport) => repost rest { l with transport, pool }

def recover (l : Lease σ) : Except (RecoveryError ε) Unit × Lease σ :=
  match Transport.reset l.transport with
  | (.error e, transport) => (.error (.transportReset e), { l with transport })
  | (.ok (), transport) => repost rxSlots { l with
      transport, pool := l.pool.reset, serviceTx := none, txEvent := none, rxEvent := none }

def receive (l : Lease σ) (active : Bool) (token : PacketToken) (completion : Completion) :
    Lease σ :=
  match l.pool.publishRx token.slot.toNat completion.len with
  | (.ok published, pool) =>
    if active && l.rxEvent.isNone then { l with pool, rxEvent := some published }
    else { l with
      pool := (pool.returnRx published).2
      transport := (Transport.returnRx l.transport published (l.rxBuffer token.slot.toNat)).2 }
  | (.error _, pool) => { l with
      pool
      transport := (Transport.returnRx l.transport token (l.rxBuffer token.slot.toNat)).2 }

def drainRx (active : Bool) : ℕ → Lease σ → Option (Lease σ)
  | 0, _ => none
  | fuel + 1, l =>
    match Transport.takeRxAvailable l.transport with
    | (none, transport) => some { l with transport }
    | (some (token, completion), transport) =>
      drainRx active fuel ({ l with transport }.receive active token completion)

def drainTx : ℕ → Lease σ → Option (Lease σ)
  | 0, _ => none
  | fuel + 1, l =>
    match Transport.takeTxComplete l.transport with
    | (none, transport) => some { l with transport }
    | (some (token, _), transport) => drainTx fuel ({ l with transport }.finish token)

def poll (active : Bool) (fuel : ℕ) (l : Lease σ) : Option (Lease σ) :=
  match Transport.poll fuel l.transport with
  | none => none
  | some (.error _, transport) => some { l with transport }.recover.2
  | some (.ok (), transport) => ({ l with transport }.drainRx active fuel).bind (drainTx fuel)

/-- The receive set of `start`: every slot is published and taken back. A pool that refuses would
stop the kernel. -/
def rxSet (dma : ℕ → ℕ) : List ℕ → PacketPool →
    Option (List (PacketToken × Buffer) × PacketPool)
  | [], pool => some ([], pool)
  | slot :: rest, pool =>
    match pool.publishRx slot 0 with
    | (.error _, _) => none
    | (.ok token, pool) =>
      match pool.returnRx token with
      | (.error _, _) => none
      | (.ok (), pool) =>
        let buffer := ⟨dma (rxDmaFirstIndex + slot - packetSlots / 2), packetBytes⟩
        (rxSet dma rest pool).map fun (set, pool) => ((token, buffer) :: set, pool)

def start (transport : σ) (dma : ℕ → ℕ) : Option (Except ε (Lease σ)) :=
  match rxSet dma rxSlots PacketPool.new with
  | none => none
  | some (set, pool) =>
    match Transport.start transport set ⟨dma 0, packetBytes⟩ with
    | (.error e, _) => some (.error e)
    | (.ok (), transport) => some (.ok ⟨transport, dma, pool, none, none, none⟩)

end Lease

structure Runtime (σ : Type) where
  lease : Option (Lease σ)
  serviceActive : Bool

namespace Runtime

variable {σ ε : Type} [Transport σ ε]

def submitServiceTx (r : Runtime σ) (token : PacketToken) :
    Except (ServiceError ε) Unit × Runtime σ :=
  match r.lease with
  | none => (.error .unavailable, r)
  | some l => ((l.submitServiceTx token).1, { r with lease := some (l.submitServiceTx token).2 })

def returnServiceRx (r : Runtime σ) (token : PacketToken) :
    Except (ServiceError ε) Unit × Runtime σ :=
  match r.lease with
  | none => (.error .unavailable, r)
  | some l => ((l.returnServiceRx token).1, { r with lease := some (l.returnServiceRx token).2 })

def takeTxComplete (r : Runtime σ) : Option PacketToken × Runtime σ :=
  match r.lease with
  | none => (none, r)
  | some l => (l.takeTxComplete.1, { r with lease := some l.takeTxComplete.2 })

def takeRxAvailable (r : Runtime σ) : Option PacketToken × Runtime σ :=
  match r.lease with
  | none => (none, r)
  | some l => (l.takeRxAvailable.1, { r with lease := some l.takeRxAvailable.2 })

def poll (fuel : ℕ) (r : Runtime σ) : Option (Runtime σ) :=
  match r.lease with
  | none => some r
  | some l => (l.poll r.serviceActive fuel).map fun l => { r with lease := some l }

def recycleAfterSession (r : Runtime σ) : Except (RecoveryError ε) Unit × Runtime σ :=
  match r.lease with
  | none => (.error .unavailable, r)
  | some l => (l.recover.1, { r with lease := some l.recover.2 })

end Runtime

end HarborKernel.Network
