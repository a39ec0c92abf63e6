import HarborKernel.Ipc

/-!
Packet slots and the messages that name them (`kernel-core/src/net.rs`). A token carries a slot,
its generation and a length; the pool says who owns each of the sixteen slots, the first eight
for transmission and the others for reception.
-/

namespace HarborKernel.Net

open Ipc

def tagTxSubmit : UInt32 := 0x1101
def tagRxReturn : UInt32 := 0x1102
def tagTxComplete : UInt32 := 0x1103
def tagRxAvailable : UInt32 := 0x1104
def tagRefused : UInt32 := 0x1105

def slotBits : UInt64 := 8
def lenShift : UInt64 := 40
def lenMask : UInt64 := 0xFFFF
def reservedMask : UInt64 := ~~~(((1 : UInt64) <<< 56) - 1)

def packetBytes : ℕ := 2048
def packetSlots : ℕ := 16
def ethernetMinFrameBytes : ℕ := 60

/-- A packet reference carried across the service boundary. -/
structure PacketToken where
  slot : UInt8
  generation : UInt32
  len : UInt16
deriving DecidableEq

structure Buffer where
  pa : ℕ
  len : ℕ
deriving DecidableEq

structure Completion where
  buffer : ℕ
  len : ℕ
deriving DecidableEq

inductive Request
  | txSubmit (token : PacketToken)
  | rxReturn (token : PacketToken)
deriving DecidableEq

inductive DecodeError
  | unknownTag
  | reservedBits
  | lengthOutOfRange
deriving DecidableEq

def pack (token : PacketToken) : UInt64 :=
  token.slot.toUInt64 ||| (token.generation.toUInt64 <<< slotBits) |||
    (token.len.toUInt64 <<< lenShift)

def unpack (value : UInt64) : Except DecodeError PacketToken :=
  if value &&& reservedMask ≠ 0 then .error .reservedBits
  else
    let len := ((value >>> lenShift) &&& lenMask).toNat
    if packetBytes < len then .error .lengthOutOfRange
    else .ok ⟨value.toUInt8, (value >>> slotBits).toUInt32, UInt16.ofNat len⟩

def decode (message : Message) : Except DecodeError Request :=
  match unpack message.a with
  | .error e => .error e
  | .ok token =>
    if message.tag = tagTxSubmit then .ok (.txSubmit token)
    else if message.tag = tagRxReturn then .ok (.rxReturn token)
    else .error .unknownTag

def txSubmit (token : PacketToken) : Message := ⟨tagTxSubmit, pack token, 0⟩
def rxReturn (token : PacketToken) : Message := ⟨tagRxReturn, pack token, 0⟩
def txComplete (token : PacketToken) : Message := ⟨tagTxComplete, pack token, 0⟩
def rxAvailable (token : PacketToken) : Message := ⟨tagRxAvailable, pack token, 0⟩
def refused (code : UInt64) : Message := ⟨tagRefused, code, 0⟩

inductive FrameError
  | tooShort
  | tooLarge
deriving DecidableEq

def validateFrameLength (len : ℕ) : Except FrameError Unit :=
  if len < ethernetMinFrameBytes then .error .tooShort
  else if packetBytes < len then .error .tooLarge
  else .ok ()

theorem validateFrameLength_isOk (len : ℕ) :
    (validateFrameLength len).isOk = true ↔ ethernetMinFrameBytes ≤ len ∧ len ≤ packetBytes := by
  unfold validateFrameLength
  by_cases hmin : len < ethernetMinFrameBytes
  · rw [if_pos hmin]
    exact ⟨nofun, fun h => absurd hmin (Nat.not_lt.2 h.1)⟩
  rw [if_neg hmin]
  by_cases hmax : packetBytes < len
  · rw [if_pos hmax]
    exact ⟨nofun, fun h => absurd hmax (Nat.not_lt.2 h.2)⟩
  · rw [if_neg hmax]
    exact ⟨fun _ => ⟨Nat.not_lt.1 hmin, Nat.not_lt.1 hmax⟩, fun _ => rfl⟩

inductive SlotState
  | txAgent
  | txService
  | rxService
  | rxAgent
deriving DecidableEq

structure Slot where
  generation : UInt32
  state : SlotState
deriving DecidableEq

inductive PacketError
  | slotOutOfRange
  | staleGeneration
  | wrongDirection
  | wrongOwner
  | oversize
deriving DecidableEq

/-- The slots as a function of their number, of which the first sixteen count. -/
structure PacketPool where
  slots : ℕ → Slot

namespace PacketPool

def fresh (i : ℕ) : SlotState := if i < packetSlots / 2 then .txAgent else .rxService

def new : PacketPool := ⟨fun i => ⟨0, fresh i⟩⟩

def setState (p : PacketPool) (slot : ℕ) (state : SlotState) : PacketPool :=
  ⟨Function.update p.slots slot { p.slots slot with state }⟩

def checkedSlot (p : PacketPool) (slot : ℕ) (generation : UInt32) : Except PacketError Slot :=
  if packetSlots ≤ slot then .error .slotOutOfRange
  else if (p.slots slot).generation ≠ generation then .error .staleGeneration
  else .ok (p.slots slot)

def checkedToken (p : PacketPool) (token : PacketToken) : Except PacketError Slot :=
  if packetBytes < token.len.toNat then .error .oversize
  else p.checkedSlot token.slot.toNat token.generation

def submitTx (p : PacketPool) (slot : ℕ) (generation : UInt32) (len : ℕ) :
    Except PacketError PacketToken × PacketPool :=
  match p.checkedSlot slot generation with
  | .error e => (.error e, p)
  | .ok current =>
    if packetSlots / 2 ≤ slot then (.error .wrongDirection, p)
    else if current.state ≠ .txAgent then (.error .wrongOwner, p)
    else if packetBytes < len then (.error .oversize, p)
    else (.ok ⟨UInt8.ofNat slot, generation, UInt16.ofNat len⟩, p.setState slot .txService)

def acceptTx (p : PacketPool) (token : PacketToken) : Except PacketError Unit × PacketPool :=
  match p.checkedToken token with
  | .error e => (.error e, p)
  | .ok slot =>
    if packetSlots / 2 ≤ token.slot.toNat then (.error .wrongDirection, p)
    else if slot.state ≠ .txAgent then (.error .wrongOwner, p)
    else (.ok (), p.setState token.slot.toNat .txService)

def completeTx (p : PacketPool) (token : PacketToken) : Except PacketError Unit × PacketPool :=
  match p.checkedToken token with
  | .error e => (.error e, p)
  | .ok slot =>
    if slot.state ≠ .txService then (.error .wrongOwner, p)
    else (.ok (), p.setState token.slot.toNat .txAgent)

def publishRx (p : PacketPool) (slot len : ℕ) : Except PacketError PacketToken × PacketPool :=
  if packetSlots ≤ slot then (.error .slotOutOfRange, p)
  else if slot < packetSlots / 2 then (.error .wrongDirection, p)
  else if (p.slots slot).state ≠ .rxService then (.error .wrongOwner, p)
  else if packetBytes < len then (.error .oversize, p)
  else (.ok ⟨UInt8.ofNat slot, (p.slots slot).generation, UInt16.ofNat len⟩,
    p.setState slot .rxAgent)

def returnRx (p : PacketPool) (token : PacketToken) : Except PacketError Unit × PacketPool :=
  match p.checkedToken token with
  | .error e => (.error e, p)
  | .ok slot =>
    if slot.state ≠ .rxAgent then (.error .wrongOwner, p)
    else (.ok (), p.setState token.slot.toNat .rxService)

def reset (p : PacketPool) : PacketPool := ⟨fun i => ⟨(p.slots i).generation + 1, fresh i⟩⟩

end PacketPool

end HarborKernel.Net
