import HarborKernel.Capability
import HarborKernel.ReadyQueue

/-!
Mailboxes and the endpoints that name them (`kernel-core/src/ipc.rs`).
`mailboxes`, `endpoints` and `depth` are the sizes of the arrays, which are
functions on indices. Operations return their answer together with the new table.
-/

namespace HarborKernel.Ipc

open Function Capability ReadyQueue

structure Message where
  tag : UInt32
  a : UInt64
  b : UInt64
deriving DecidableEq

def Message.empty : Message := ⟨0, 0, 0⟩

structure Channel where
  send : CapId
  recv : CapId
deriving DecidableEq

inductive CreateError
  | noMailbox
  | noEndpoint
deriving DecidableEq

inductive SendError
  | badCap
  | full
deriving DecidableEq

inductive RecvError
  | busy
  | badCap
  | empty
  | cancelled
deriving DecidableEq

inductive RevokeError
  | badCap
deriving DecidableEq

inductive QueuedError
  | badCap
deriving DecidableEq

structure Refusals where
  authority : UInt32
  full : UInt32
  state : UInt32

structure Endpoint where
  live : Bool
  generation : UInt16
  rights : CapRights
  mailbox : UInt8

def Endpoint.empty : Endpoint := ⟨false, 0, CapRights.empty, 0⟩

structure Mailbox where
  live : Bool
  buf : ℕ → Message
  head : ℕ
  tail : ℕ
  len : ℕ
  waiter : Option TaskId
  sendHolders : UInt32
  autoReap : Bool

namespace Mailbox

def empty : Mailbox := ⟨false, fun _ => Message.empty, 0, 0, 0, none, 0, false⟩

def push (depth : ℕ) (b : Mailbox) (msg : Message) : Mailbox :=
  { b with buf := update b.buf b.head msg, head := (b.head + 1) % depth, len := b.len + 1 }

def pop (depth : ℕ) (b : Mailbox) : Message × Mailbox :=
  (b.buf b.tail, { b with tail := (b.tail + 1) % depth, len := b.len - 1 })

end Mailbox

structure Table (mailboxes endpoints depth : ℕ) where
  eps : ℕ → Endpoint
  boxes : ℕ → Mailbox
  nextGen : UInt16
  refusals : Refusals

namespace Table

variable {M E D : ℕ}

def new : Table M E D := ⟨fun _ => Endpoint.empty, fun _ => Mailbox.empty, 1, ⟨0, 0, 0⟩⟩

def noteAuthorityRefusal (t : Table M E D) : Table M E D :=
  { t with refusals := { t.refusals with authority := t.refusals.authority + 1 } }

def noteFullRefusal (t : Table M E D) : Table M E D :=
  { t with refusals := { t.refusals with full := t.refusals.full + 1 } }

def noteStateRefusal (t : Table M E D) : Table M E D :=
  { t with refusals := { t.refusals with state := t.refusals.state + 1 } }

/-- Generation 0 belongs to endpoints that were never minted. -/
def bumpGen (g : UInt16) : UInt16 := if g + 1 = 0 then 1 else g + 1

def createChannelWithAutoReap (t : Table M E D) (autoReap : Bool) :
    Except CreateError Channel × Table M E D :=
  match (List.range M).find? fun i => !(t.boxes i).live with
  | none => (.error .noMailbox, t)
  | some mb =>
    match (List.range E).find? fun i => !(t.eps i).live with
    | none => (.error .noEndpoint, t)
    | some sendEp =>
      match (List.range E).find? fun i => !(t.eps i).live && i != sendEp with
      | none => (.error .noEndpoint, t)
      | some recvEp =>
        let minted (rights : CapRights) : Endpoint := ⟨true, t.nextGen, rights, UInt8.ofNat mb⟩
        (.ok ⟨CapId.new (UInt16.ofNat sendEp) t.nextGen, CapId.new (UInt16.ofNat recvEp) t.nextGen⟩,
          { t with
            nextGen := bumpGen t.nextGen
            boxes := update t.boxes mb { Mailbox.empty with live := true, autoReap }
            eps := update (update t.eps sendEp (minted .SEND)) recvEp
              (minted .RECV) })

def createChannel (t : Table M E D) : Except CreateError Channel × Table M E D :=
  t.createChannelWithAutoReap false

def lookup (t : Table M E D) (cap : CapId) (need : CapRights) : Option ℕ :=
  if cap.index.toNat < E then
    let ep := t.eps cap.index.toNat
    if !ep.live || ep.generation != cap.generation then none
    else if !ep.rights.contains need then none
    else some ep.mailbox.toNat
  else none

def setBox (t : Table M E D) (mb : ℕ) (b : Mailbox) : Table M E D :=
  { t with boxes := update t.boxes mb b }

def satAdd (h : UInt32) : UInt32 := if h = UInt32.ofNat 4294967295 then h else h + 1

def satSub (h : UInt32) : UInt32 := if h > 0 then h - 1 else h

def registerHold (t : Table M E D) (cap : CapId) : Table M E D :=
  match t.lookup cap .SEND with
  | none => t
  | some mb => t.setBox mb { t.boxes mb with sendHolders := satAdd (t.boxes mb).sendHolders }

def registerHolds (t : Table M E D) : List (Option CapId) → Table M E D
  | [] => t
  | none :: rest => t.registerHolds rest
  | some cap :: rest => (t.registerHold cap).registerHolds rest

def releaseHold (t : Table M E D) (cap : CapId) : Option TaskId × Table M E D :=
  match t.lookup cap .SEND with
  | none => (none, t)
  | some mb =>
    let box := t.boxes mb
    let held := satSub box.sendHolders
    if held = 0 ∧ box.autoReap then
      (box.waiter, t.setBox mb { box with sendHolders := held, waiter := none })
    else (none, t.setBox mb { box with sendHolders := held })

/-- The answer lists the filled prefix of the source's array: one place for each
capability, so it never overflows. -/
def releaseHolds (t : Table M E D) : List (Option CapId) → List TaskId × Table M E D
  | [] => ([], t)
  | none :: rest => t.releaseHolds rest
  | some cap :: rest =>
    let (waiter, t1) := t.releaseHold cap
    let (out, t2) := t1.releaseHolds rest
    (waiter.toList ++ out, t2)

def revokeChannel (t : Table M E D) (cap : CapId) :
    Except RevokeError (Option TaskId) × Table M E D :=
  if cap.index.toNat < E then
    let ep := t.eps cap.index.toNat
    if !ep.live || ep.generation != cap.generation then (.error .badCap, t.noteAuthorityRefusal)
    else if M ≤ ep.mailbox.toNat then (.error .badCap, t.noteStateRefusal)
    else (.ok (t.boxes ep.mailbox.toNat).waiter, { t with
      eps := fun i =>
        if (t.eps i).live && (t.eps i).mailbox.toNat == ep.mailbox.toNat then
          { t.eps i with live := false }
        else t.eps i
      boxes := update t.boxes ep.mailbox.toNat Mailbox.empty })
  else (.error .badCap, t.noteAuthorityRefusal)

def send (t : Table M E D) (cap : CapId) (msg : Message) :
    Except SendError (Option TaskId) × Table M E D :=
  match t.lookup cap .SEND with
  | none => (.error .badCap, t.noteAuthorityRefusal)
  | some mb =>
    let box := t.boxes mb
    if !box.live then (.error .badCap, t.noteStateRefusal)
    else if box.len = D then (.error .full, t.noteFullRefusal)
    else (.ok box.waiter, t.setBox mb { box.push D msg with waiter := none })

def tryRecv (t : Table M E D) (cap : CapId) : Except RecvError Message × Table M E D :=
  match t.lookup cap .RECV with
  | none => (.error .badCap, t.noteAuthorityRefusal)
  | some mb =>
    let box := t.boxes mb
    if !box.live then (.error .badCap, t.noteStateRefusal)
    else if box.len = 0 then (.error .empty, t)
    else (.ok (box.pop D).1, t.setBox mb (box.pop D).2)

theorem tryRecv_ne_cancelled (t : Table M E D) (cap : CapId) :
    (t.tryRecv cap).1 ≠ .error .cancelled := by
  unfold tryRecv
  split
  · nofun
  simp only
  split
  · nofun
  · split <;> nofun

def clearWaiter (t : Table M E D) (id : TaskId) : Table M E D :=
  { t with boxes := fun i =>
      if (t.boxes i).waiter = some id then { t.boxes i with waiter := none } else t.boxes i }

def clearedWaiters (t : Table M E D) (id : TaskId) : UInt32 :=
  (List.range M).foldl (fun n i => if (t.boxes i).waiter = some id then satAdd n else n) 0

def queued (t : Table M E D) (cap : CapId) : Except QueuedError ℕ :=
  match (t.lookup cap .SEND).or (t.lookup cap .RECV) with
  | none => .error .badCap
  | some mb => if !(t.boxes mb).live then .error .badCap else .ok (t.boxes mb).len

def park (t : Table M E D) (cap : CapId) (me : TaskId) :
    Except RecvError (Option Message) × Table M E D :=
  match t.lookup cap .RECV with
  | none => (.error .badCap, t.noteAuthorityRefusal)
  | some mb =>
    let box := t.boxes mb
    if !box.live then (.error .badCap, t.noteStateRefusal)
    else if 0 < box.len then (.ok (some (box.pop D).1), t.setBox mb (box.pop D).2)
    else if box.autoReap && box.sendHolders == 0 then (.error .cancelled, t)
    else if box.waiter.any fun existing => existing != me then (.error .busy, t.noteStateRefusal)
    else (.ok none, t.setBox mb { box with waiter := some me })

end Table

end HarborKernel.Ipc
