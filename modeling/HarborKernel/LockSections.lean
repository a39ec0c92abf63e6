import HarborKernel.CapSlots
import HarborKernel.Ipc
import HarborKernel.IrqWait
import HarborKernel.ParkTime
import HarborKernel.Processors

/-!
The kernel as two processors executing tasks, one lock section at a time
(`sched/mod.rs`, `ipc/mod.rs`, `irq/wait.rs`, `taskcap/mod.rs`).
A call of a kernel function is a sequence of sections; the program point of a
task names the section it will run next. Between two sections the task may be
preempted, an interrupt may arrive and the other processor may do anything.
Which processor a task runs on is read at the start of a section.
-/

namespace HarborKernel.LockSections

open Function Capability ReadyQueue TaskTable Ipc IrqWait Processors

def maxCapsPerTask : ℕ := 4
def maxMailboxes : ℕ := 16
def maxEndpoints : ℕ := 32
def mailboxDepth : ℕ := 4
def wakeSlots : ℕ := 32
def ticksMax : ℕ := 2 ^ 64 - 1

structure Received where
  answer : Except RecvError Message
  flagged : Bool

inductive Outcome
  | none
  | received (r : Received)
  | waited (cookie : UInt32) (ok : Bool)
  | moved (r : Except CapSlots.TransferError Unit)

inductive RecvPoint
  | takeCancel
  | holds
  | refuse
  | tryRecv
  | isIdle
  | noteIdle
  | self
  | park (me : TaskId)
  | block (me : TaskId)
  | resumed (me : TaskId)

inductive TimedPoint
  | self (cap : CapId) (ticks : ℕ)
  | now (me : TaskId) (cap : CapId) (wait : ℕ)
  | arm (me : TaskId) (cap : CapId) (deadline : ℕ)
  | disarm (me : TaskId) (r : Received)

inductive SendPoint
  | holds
  | refuse
  | table
  | wake (id : TaskId)

inductive IrqPoint
  | self
  | arm (me : TaskId)
  | takePending (me : TaskId)
  | disarmFast (me : TaskId)
  | block (me : TaskId)
  | resumed (me : TaskId)
  | disarm (me : TaskId)

inductive PollPoint
  | drain
  | wake (token : UInt32) (rest : List UInt32)
  | now
  | expire (now : ℕ)
  | clear (id : TaskId) (rest : List TaskId)
  | cancel (id : TaskId) (rest : List TaskId)

inductive SpawnPoint
  | create (cpu : ℕ) (held : List (Option CapId))
  | register (held : List (Option CapId))

structure Minted where
  cap : CapId
  task : Option (TaskId × ℕ)

inductive GrantPoint
  | install (slot : ℕ) (cap : CapId)
  | register (cap : CapId)
  | transfer (fromSlot : ℕ) (to' : TaskId) (toSlot : ℕ) (by' : Option Minted)
  | creatorOf (fromSlot toSlot : ℕ)
  | creatorSelf (creator : TaskId) (fromSlot toSlot : ℕ)
  | peerCap (fromSlot toSlot capSlot : ℕ)
  | peerLookup (cap : CapId) (fromSlot toSlot : ℕ)
  | peerSelf (to' : TaskId) (by' : Minted) (fromSlot toSlot : ℕ)

inductive AdminPoint
  | startCpu1
  | markStealeable (yes : Bool)
  | mint (id : TaskId)
  | createChannel (ephemeral : Bool)
  | revoke (cap : CapId)
  | clear (id : TaskId)
  | cancel (id : TaskId)

inductive Pc
  | user (last : Outcome)
  | recv (cap : CapId) (timed : Option (TaskId × ℕ)) (p : RecvPoint)
  | timed (p : TimedPoint)
  | send (cap : CapId) (msg : Message) (p : SendPoint)
  | waitIrq (cookie : UInt32) (p : IrqPoint)
  | poll (thenYield : Bool) (p : PollPoint)
  | spawn (p : SpawnPoint)
  | grant (p : GrantPoint)
  | admin (p : AdminPoint)
  | yield
  | exit
  | halted

inductive TailPoint
  | done
  | release (caps : List (Option CapId))
  | reap (id : TaskId) (rest : List TaskId)
  | revoke
  | scan
  | clear (id : TaskId) (rest : List TaskId)
  | cancel (id : TaskId) (rest : List TaskId)

/-- The kernel's tables, the program points, and three records that only the
statements about runs need: whether a cancel has hit the present `recv` of a slot,
whether a signal has matched the arm of its present `wait_for_irq`, and the latest
mint of every task-cap. -/
structure Kernel where
  m : Machine
  cancelWait : ℕ → Bool
  creator : ℕ → TaskId
  caps : CapSlots.Table maxTasks maxCapsPerTask
  ipc : Ipc.Table maxMailboxes maxEndpoints mailboxDepth
  waits : WaitTable
  queue : WakeQueue wakeSlots
  deadlines : ParkTime.Table
  taskCaps : TaskCap.Table
  ticks : ℕ
  pc : ℕ → Pc
  tail : ℕ → TailPoint
  hand : ℕ → Option TaskId
  hit : ℕ → Bool
  delivered : ℕ → Bool
  log : CapId → Option (TaskId × ℕ)

namespace Kernel

def cur (s : Kernel) (c : ℕ) : TaskId := s.m.tasks.current c

def goto (s : Kernel) (c : ℕ) (p : Pc) : Kernel :=
  { s with pc := update s.pc (s.cur c).index p }

def wakeTask (s : Kernel) (id : TaskId) : Kernel := { s with m := (s.m.wakeTask id).2 }

def cancelMachine (m : Machine) (id : TaskId) : Machine :=
  if m.tasks.state id = some .blocked then (m.wakeTask id).2 else m

def prepareCancelBlocked (s : Kernel) (id : TaskId) : Kernel :=
  { s with
    m := cancelMachine s.m id
    cancelWait := if s.m.tasks.state id = some .blocked then
      update s.cancelWait id.index true else s.cancelWait
    hit := if s.m.tasks.state id = some .blocked ∧ (s.m.wakeTask id).1 = true then
      update s.hit id.index true else s.hit }

def clearWaiter (s : Kernel) (id : TaskId) : Kernel := { s with ipc := s.ipc.clearWaiter id }

def switchTo (s : Kernel) (c : ℕ) (kind : Switch) (p : Pc) : Kernel :=
  { s with
    m := s.m.switchWith c kind
    pc := update s.pc (s.cur c).index p }

def takeCancelWait (s : Kernel) (c : ℕ) : Bool × Kernel :=
  (s.cancelWait (s.cur c).index,
    { s with cancelWait := update s.cancelWait (s.cur c).index false })

def answered (timed : Option (TaskId × ℕ)) (r : Received) : Pc :=
  match timed with
  | none => .user (.received r)
  | some (me, _) => .timed (.disarm me r)

def received (s : Kernel) (c : ℕ) (timed : Option (TaskId × ℕ)) (r : Received) : Kernel :=
  s.goto c (answered timed r)

def execRecv (s : Kernel) (c : ℕ) (cap : CapId) (timed : Option (TaskId × ℕ)) :
    RecvPoint → Kernel
  | .takeCancel =>
    let (flag, s1) := s.takeCancelWait c
    if flag then s1.received c timed ⟨.error .cancelled, true⟩
    else s1.goto c (.recv cap timed .holds)
  | .holds =>
    s.goto c (.recv cap timed (if s.caps.holds (s.cur c).index cap then .tryRecv else .refuse))
  | .refuse =>
    { s with ipc := s.ipc.noteAuthorityRefusal }.received c timed ⟨.error .badCap, false⟩
  | .tryRecv =>
    match s.ipc.tryRecv cap with
    | (.ok msg, t) => { s with ipc := t }.received c timed ⟨.ok msg, false⟩
    | (.error .empty, t) => { s with ipc := t }.goto c (.recv cap timed .isIdle)
    | (.error e, t) => { s with ipc := t }.received c timed ⟨.error e, false⟩
  | .isIdle =>
    s.goto c (.recv cap timed (if s.cur c = s.m.tasks.idle c then .noteIdle else .self))
  | .noteIdle =>
    { s with ipc := s.ipc.noteStateRefusal }.received c timed ⟨.error .empty, false⟩
  | .self => s.goto c (.recv cap timed (.park (s.cur c)))
  | .park me =>
    match s.ipc.park cap me with
    | (.ok (some msg), t) => { s with ipc := t }.received c timed ⟨.ok msg, false⟩
    | (.ok none, t) => { s with ipc := t }.goto c (.recv cap timed (.block me))
    | (.error e, t) => { s with ipc := t }.received c timed ⟨.error e, false⟩
  | .block me => s.switchTo c .block (.recv cap timed (.resumed me))
  | .resumed _ =>
    let (flag, s1) := s.takeCancelWait c
    if flag then s1.received c timed ⟨.error .cancelled, true⟩
    else s1.goto c (.recv cap timed .takeCancel)

def execTimed (s : Kernel) (c : ℕ) : TimedPoint → Kernel
  | .self cap ticks => s.goto c (.timed (.now (s.cur c) cap (max ticks 1)))
  | .now me cap wait => s.goto c (.timed (.arm me cap (min (s.ticks + wait) ticksMax)))
  | .arm me cap deadline =>
    { s with
      deadlines := (s.deadlines.arm me deadline).2
      hit := update s.hit (s.cur c).index false }.goto c
        (.recv cap (some (me, deadline)) .takeCancel)
  | .disarm me r =>
    { s with deadlines := s.deadlines.disarm me }.goto c (.user (.received r))

def execSend (s : Kernel) (c : ℕ) (cap : CapId) (msg : Message) : SendPoint → Kernel
  | .holds =>
    s.goto c (.send cap msg (if s.caps.holds (s.cur c).index cap then .table else .refuse))
  | .refuse => { s with ipc := s.ipc.noteAuthorityRefusal }.goto c (.user .none)
  | .table =>
    match s.ipc.send cap msg with
    | (.ok (some id), t) => { s with ipc := t }.goto c (.send cap msg (.wake id))
    | (_, t) => { s with ipc := t }.goto c (.user .none)
  | .wake id => (s.goto c (.user .none)).wakeTask id

def execIrq (s : Kernel) (c : ℕ) (cookie : UInt32) : IrqPoint → Kernel
  | .self => s.goto c (.waitIrq cookie (.arm (s.cur c)))
  | .arm me =>
    match s.waits.arm cookie me with
    | (.error _, w) => { s with waits := w }.goto c (.user (.waited cookie false))
    | (.ok (), w) =>
      { s with
        waits := w
        delivered := update s.delivered (s.cur c).index false }.goto c
          (.waitIrq cookie (.takePending me))
  | .takePending me =>
    { s with waits := (s.waits.takePending me).2 }.goto c (.waitIrq cookie
      (if (s.waits.takePending me).1 then .disarmFast me else .block me))
  | .disarmFast me =>
    { s with waits := s.waits.disarmTask me }.goto c (.user (.waited cookie true))
  | .block me => s.switchTo c .block (.waitIrq cookie (.resumed me))
  | .resumed me =>
    { s with waits := (s.waits.takePending me).2 }.goto c (.waitIrq cookie (.disarm me))
  | .disarm me =>
    { s with waits := s.waits.disarmTask me }.goto c (.user (.waited cookie true))

def afterTokens (thenYield : Bool) : List UInt32 → Pc
  | [] => .poll thenYield .now
  | token :: rest => .poll thenYield (.wake token rest)

def afterIds (thenYield : Bool) : List TaskId → Pc
  | [] => if thenYield then .yield else .user .none
  | id :: rest => .poll thenYield (.clear id rest)

def execPoll (s : Kernel) (c : ℕ) (thenYield : Bool) : PollPoint → Kernel
  | .drain =>
    { s with queue := (s.queue.popUpTo wakeSlots).2 }.goto c
      (afterTokens thenYield (s.queue.popUpTo wakeSlots).1)
  | .wake token rest => (s.goto c (afterTokens thenYield rest)).wakeTask (TaskId.fromRaw token)
  | .now => s.goto c (.poll thenYield (.expire s.ticks))
  | .expire now =>
    { s with deadlines := (s.deadlines.poll now).2 }.goto c
      (afterIds thenYield (s.deadlines.poll now).1)
  | .clear id rest => (s.goto c (.poll thenYield (.cancel id rest))).clearWaiter id
  | .cancel id rest => (s.goto c (afterIds thenYield rest)).prepareCancelBlocked id

def execSpawn (s : Kernel) (c : ℕ) : SpawnPoint → Kernel
  | .create cpu held =>
    match s.m.spawnOn cpu with
    | (none, m) => { s.goto c (.user .none) with m }
    | (some id, m) => { s with
        m
        cancelWait := update s.cancelWait id.index false
        creator := update s.creator id.index (s.cur c)
        caps := s.caps.seed id.index held
        pc := update (update s.pc id.index (.user .none)) (s.cur c).index
          (.spawn (.register held)) }
  | .register held => { s with ipc := s.ipc.registerHolds held }.goto c (.user .none)

def transferHeld (s : Kernel) (c : ℕ) (fromSlot : ℕ) (to' : TaskId) (toSlot : ℕ) :
    Except CapSlots.TransferError Unit × CapSlots.Table maxTasks maxCapsPerTask :=
  match CapSlots.Table.transferBounds maxCapsPerTask fromSlot toSlot with
  | .error e => (.error e, s.caps)
  | .ok () =>
    if to' ≠ s.cur c ∧ (s.m.tasks.state to' = none ∨ s.m.tasks.state to' = some .empty) then
      (.error .badToTask, s.caps)
    else s.caps.transfer (s.cur c).index fromSlot to'.index toSlot

def execGrant (s : Kernel) (c : ℕ) : GrantPoint → Kernel
  | .install slot cap =>
    { s with caps := (s.caps.install (s.cur c).index slot cap).2 }.goto c
      (if (s.caps.install (s.cur c).index slot cap).1 then .grant (.register cap)
        else .user .none)
  | .register cap => { s with ipc := s.ipc.registerHolds [some cap] }.goto c (.user .none)
  | .transfer fromSlot to' toSlot _ =>
    { s with caps := (s.transferHeld c fromSlot to' toSlot).2 }.goto c
      (.user (.moved (s.transferHeld c fromSlot to' toSlot).1))
  | .creatorOf fromSlot toSlot =>
    s.goto c (.grant (.creatorSelf (s.creator (s.cur c).index) fromSlot toSlot))
  | .creatorSelf creator fromSlot toSlot =>
    s.goto c (if creator = s.cur c then .user (.moved (.error .badToTask))
      else .grant (.transfer fromSlot creator toSlot none))
  | .peerCap fromSlot toSlot capSlot =>
    match s.caps.get (s.cur c).index capSlot with
    | .error _ => s.goto c (.user (.moved (.error .badToTask)))
    | .ok cap => s.goto c (.grant (.peerLookup cap fromSlot toSlot))
  | .peerLookup cap fromSlot toSlot =>
    match s.taskCaps.lookup cap with
    | none => s.goto c (.user (.moved (.error .badToTask)))
    | some raw =>
      s.goto c (.grant (.peerSelf (TaskId.fromRaw raw) ⟨cap, s.log cap⟩ fromSlot toSlot))
  | .peerSelf to' by' fromSlot toSlot =>
    s.goto c (if to' = s.cur c then .user (.moved (.error .badToTask))
      else .grant (.transfer fromSlot to' toSlot (some by')))

def execAdmin (s : Kernel) (c : ℕ) : AdminPoint → Kernel
  | .startCpu1 =>
    { s with
      m := s.m.startCpu1.2
      pc := update (if s.m.online then s.pc else match s.m.startCpu1.1 with
          | none => s.pc
          | some id => update s.pc id.index (.user .none))
        (s.cur c).index (.user .none) }
  | .markStealeable yes =>
    { s.goto c (.user .none) with
      m := { s.m with tasks := (s.m.tasks.setStealeable (s.cur c) yes).2 } }
  | .mint id =>
    { s with
      taskCaps := (s.taskCaps.mint id.toRaw).2
      log := match (s.taskCaps.mint id.toRaw).1 with
        | none => s.log
        | some cap => update s.log cap (some (id, s.m.ended id.index)) }.goto c
          (.user .none)
  | .createChannel ephemeral =>
    { s with ipc := (s.ipc.createChannelWithAutoReap ephemeral).2 }.goto c (.user .none)
  | .revoke cap =>
    match s.ipc.revokeChannel cap with
    | (.ok (some id), t) => { s with ipc := t }.goto c (.admin (.cancel id))
    | (_, t) => { s with ipc := t }.goto c (.user .none)
  | .clear id => (s.goto c (.admin (.cancel id))).clearWaiter id
  | .cancel id => (s.goto c (.user .none)).prepareCancelBlocked id

def execExit (s : Kernel) (c : ℕ) : Kernel :=
  match s.m.tasks.switchOn c .exit with
  | (.stay, _) => s.switchTo c .exit .halted
  | (.switch from' _ _, _) =>
    { s.switchTo c .exit (.user .none) with
      caps := (s.caps.drain from'.index).2
      tail := update s.tail c (.release (s.caps.drain from'.index).1) }

def blockedKids (s : Kernel) (from' : TaskId) : List TaskId :=
  (List.range maxTasks).filterMap fun i =>
    (s.m.tasks.liveId i).filter fun id =>
      id ≠ s.m.tasks.idle 0 && id ≠ s.m.tasks.idle 1 && s.creator i = from' &&
        s.m.tasks.state id = some .blocked

def afterReaps : List TaskId → TailPoint
  | [] => .revoke
  | id :: rest => .reap id rest

def afterKids : List TaskId → TailPoint
  | [] => .done
  | id :: rest => .clear id rest

def setTail (s : Kernel) (c : ℕ) (p : TailPoint) : Kernel :=
  { s with tail := update s.tail c p }

def execTail (s : Kernel) (c : ℕ) (from' : TaskId) : TailPoint → Kernel
  | .done => s
  | .release caps =>
    { s with ipc := (s.ipc.releaseHolds caps).2 }.setTail c (afterReaps (s.ipc.releaseHolds caps).1)
  | .reap id rest => (s.setTail c (afterReaps rest)).prepareCancelBlocked id
  | .revoke => { s with taskCaps := s.taskCaps.revokeTask from'.toRaw }.setTail c .scan
  | .scan => s.setTail c (afterKids (s.blockedKids from'))
  | .clear id rest => (s.setTail c (.cancel id rest)).clearWaiter id
  | .cancel id rest => (s.setTail c (afterKids rest)).prepareCancelBlocked id

def execTask (s : Kernel) (c : ℕ) : Option Kernel :=
  match s.pc (s.cur c).index with
  | .user _ => none
  | .recv cap timed p => some (s.execRecv c cap timed p)
  | .timed p => some (s.execTimed c p)
  | .send cap msg p => some (s.execSend c cap msg p)
  | .waitIrq cookie p => some (s.execIrq c cookie p)
  | .poll thenYield p => some (s.execPoll c thenYield p)
  | .spawn p => some (s.execSpawn c p)
  | .grant p => some (s.execGrant c p)
  | .admin p => some (s.execAdmin c p)
  | .yield => some (s.switchTo c .yield (.user .none))
  | .exit => some (s.execExit c)
  | .halted => none

def exec (s : Kernel) (c : ℕ) : Option Kernel :=
  match s.m.phase c, s.tail c with
  | .run, _ => s.execTask c
  | .tail v, .done => some { s with m := s.m.second c v }
  | .tail v, p => some (s.execTail c v.from' p)
  | _, _ => (s.m.step (.exec c)).map fun m => { s with m }

end Kernel

inductive Call
  | recv (cap : CapId)
  | recvWithTimeout (cap : CapId) (ticks : ℕ)
  | send (cap : CapId) (msg : Message)
  | creatorTrySend (cap : CapId) (msg : Message)
  | waitForIrq (cookie : UInt32)
  | pollWakes
  | yieldNow
  | exit
  | spawnOn (cpu : ℕ) (slots : List (Option CapId))
  | installCap (slot : ℕ) (cap : CapId)
  | transferHeld (fromSlot : ℕ) (to' : TaskId) (toSlot : ℕ)
  | transferHeldToCreator (fromSlot toSlot : ℕ)
  | transferHeldToPeer (fromSlot toSlot capSlot : ℕ)
  | startCpu1
  | markStealeable (yes : Bool)
  | mint (id : TaskId)
  | createChannel (ephemeral : Bool)
  | creatorRevoke (cap : CapId)
  | cancelBlocked (id : TaskId)

def Call.entry : Call → Pc
  | .recv cap => .recv cap none .takeCancel
  | .recvWithTimeout cap ticks => .timed (.self cap ticks)
  | .send cap msg => .send cap msg .holds
  | .creatorTrySend cap msg => .send cap msg .table
  | .waitForIrq cookie => .waitIrq cookie .self
  | .pollWakes => .poll false .drain
  | .yieldNow => .poll true .drain
  | .exit => .exit
  | .spawnOn cpu slots =>
    if maxCapsPerTask < slots.length then .user .none else .spawn (.create cpu slots)
  | .installCap slot cap => .grant (.install slot cap)
  | .transferHeld fromSlot to' toSlot => .grant (.transfer fromSlot to' toSlot none)
  | .transferHeldToCreator fromSlot toSlot => .grant (.creatorOf fromSlot toSlot)
  | .transferHeldToPeer fromSlot toSlot capSlot => .grant (.peerCap fromSlot toSlot capSlot)
  | .startCpu1 => .admin .startCpu1
  | .markStealeable yes => .admin (.markStealeable yes)
  | .mint id => .admin (.mint id)
  | .createChannel ephemeral => .admin (.createChannel ephemeral)
  | .creatorRevoke cap => .admin (.revoke cap)
  | .cancelBlocked id => .admin (.clear id)

def Call.allowed (s : Kernel) (c : ℕ) : Call → Bool
  | .waitForIrq _ => s.cur c ≠ s.m.tasks.idle c
  | _ => true

def Pc.isUser : Pc → Bool
  | .user _ => true
  | _ => false

inductive Label
  | call (c : ℕ) (f : Call)
  | exec (c : ℕ)
  | preempt (c : ℕ)
  | signal (c : ℕ) (cookie : UInt32)
  | push (c : ℕ)
  | tick

namespace Kernel

def enter (s : Kernel) (c : ℕ) (f : Call) : Kernel :=
  { s with hit := update s.hit (s.cur c).index false }.goto c f.entry

def waitsFor (s : Kernel) (task : TaskId) (cookie : UInt32) : Bool :=
  s.m.tasks.idAt task.index = task &&
    match s.pc task.index with
    | .waitIrq k (.takePending _) | .waitIrq k (.block _) | .waitIrq k (.resumed _)
    | .waitIrq k (.disarm _) | .waitIrq k (.disarmFast _) => k = cookie
    | _ => false

def signal (s : Kernel) (c : ℕ) (cookie : UInt32) : Kernel :=
  match s.waits.signal cookie with
  | (none, w) => { s with waits := w }
  | (some task, w) => { s with
      waits := w
      hand := update s.hand c (some task)
      delivered := if s.waitsFor task cookie then update s.delivered task.index true
        else s.delivered }

def free (s : Kernel) (c : ℕ) : Prop := Up s.m.online c ∧ s.hand c = none

instance (s : Kernel) (c : ℕ) : Decidable (s.free c) := by
  unfold free
  infer_instance

def isRun (s : Kernel) (c : ℕ) : Bool :=
  match s.m.phase c with
  | .run => true
  | _ => false

def step (s : Kernel) : Label → Option Kernel
  | .call c f =>
    if s.free c ∧ s.isRun c = true ∧ (s.pc (s.cur c).index).isUser = true ∧ f.allowed s c = true
    then some (s.enter c f) else none
  | .exec c => if s.free c then s.exec c else none
  | .preempt c =>
    if s.free c ∧ s.isRun c = true then some { s with m := s.m.switchWith c .preempt } else none
  | .signal c cookie => if s.free c ∧ s.isRun c = true then some (s.signal c cookie) else none
  | .push c =>
    match s.hand c with
    | none => none
    | some task => some { s with
        queue := (s.queue.push task.toRaw).2
        hand := update s.hand c none }
  | .tick => some { s with ticks := if s.ticks = ticksMax then 0 else s.ticks + 1 }

def boot (ipc : Ipc.Table maxMailboxes maxEndpoints mailboxDepth) : Kernel where
  m := Machine.boot
  cancelWait := fun _ => false
  creator := fun _ => Tasks.IDLE
  caps := .new
  ipc := ipc
  waits := .new
  queue := .new
  deadlines := .new
  taskCaps := .new
  ticks := 0
  pc := fun _ => .user .none
  tail := fun _ => .done
  hand := fun _ => none
  hit := fun _ => false
  delivered := fun _ => false
  log := fun _ => none

def channels : List Bool → Ipc.Table maxMailboxes maxEndpoints mailboxDepth
  | [] => .new
  | ephemeral :: rest => ((channels rest).createChannelWithAutoReap ephemeral).2

def Boot (s : Kernel) : Prop := ∃ created, s = boot (channels created)

end Kernel

end HarborKernel.LockSections
