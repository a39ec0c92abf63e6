import HarborKernel.ReadyQueue

/-!
Task states and the decision half of rotation (`tasks.rs`).
The arrays of the table are functions on indices; `n` is the number of slots
and the two processors are the indices 0 and 1. Operations that take `&mut self`
and answer something return the answer together with the new table. An index
that would be out of bounds in the source is only possible in `start` on a table
without slots, which is therefore partial.
-/

namespace HarborKernel.TaskTable

open Function ReadyQueue

inductive State
  | empty
  | ready
  | running
  | blocked
deriving DecidableEq

inductive Switch
  | yield
  | preempt
  | block
  | exit
deriving DecidableEq

inductive Decision
  | stay
  | switch (from' to' : TaskId) (release : Option TaskId)
deriving DecidableEq

def nCpus : ℕ := 2

structure Tasks (n : ℕ) where
  states : ℕ → State
  epochs : ℕ → UInt16
  home : ℕ → ℕ
  stealeable : ℕ → Bool
  queues : ℕ → RunQueue n
  current : ℕ → TaskId
  idle : ℕ → TaskId
  parked : Option TaskId
  overwrites : UInt32
  blockEvents : UInt32
  peak : UInt32

namespace Tasks

variable {n : ℕ}

def IDLE : TaskId := TaskId.new 0 0

def new : Tasks n where
  states := fun _ => .empty
  epochs := fun _ => 0
  home := fun _ => 0
  stealeable := fun _ => false
  queues := fun _ => RunQueue.new
  current := fun _ => IDLE
  idle := fun _ => IDLE
  parked := none
  overwrites := 0
  blockEvents := 0
  peak := 0

def idAt (t : Tasks n) (slot : ℕ) : TaskId := TaskId.new slot (t.epochs slot)

def liveCount (t : Tasks n) : UInt32 :=
  UInt32.ofNat ((List.range n).countP fun i => t.states i ≠ .empty)

def noteOccupancy (t : Tasks n) : Tasks n :=
  { t with peak := if t.liveCount > t.peak then t.liveCount else t.peak }

/-- Claim idle as the running task of processor 0. Without a slot 0 the write panics. -/
def start (t : Tasks n) : Option (Tasks n) :=
  if 0 < n then
    some (noteOccupancy { t with
      states := update t.states 0 .running
      home := update t.home 0 0
      current := update t.current 0 IDLE
      idle := update t.idle 0 IDLE })
  else none

def freeSlot (t : Tasks n) : Option ℕ :=
  (List.range n).find? fun i => t.states i = .empty && t.parked.all fun p => p.index != i

def startCpu1 (t : Tasks n) : Option TaskId × Tasks n :=
  if t.idle 1 ≠ IDLE then (some (t.idle 1), t)
  else
    match t.freeSlot with
    | none => (none, t)
    | some slot => (some (t.idAt slot), noteOccupancy { t with
        states := update t.states slot .running
        home := update t.home slot 1
        current := update t.current 1 (t.idAt slot)
        idle := update t.idle 1 (t.idAt slot) })

def state (t : Tasks n) (id : TaskId) : Option State :=
  if id.index < n ∧ t.epochs id.index = id.epoch then some (t.states id.index) else none

def homeOf (t : Tasks n) (id : TaskId) : Option ℕ :=
  (t.state id).map fun _ => t.home id.index

def liveId (t : Tasks n) (slot : ℕ) : Option TaskId :=
  if slot < n ∧ t.states slot ≠ .empty then some (t.idAt slot) else none

def admitOn (t : Tasks n) (cpu : ℕ) : Option TaskId × Tasks n :=
  if nCpus ≤ cpu then (none, t)
  else
    match t.freeSlot with
    | none => (none, t)
    | some slot =>
      match (t.queues cpu).enqueue (t.idAt slot) with
      | none => (none, t)
      | some q => (some (t.idAt slot), noteOccupancy { t with
          queues := update t.queues cpu q
          states := update t.states slot .ready
          home := update t.home slot cpu
          stealeable := update t.stealeable slot false })

def setStealeable (t : Tasks n) (id : TaskId) (yes : Bool) : Bool × Tasks n :=
  if ¬ (id.index < n ∧ t.epochs id.index = id.epoch) then (false, t)
  else if id = t.idle 0 ∨ id = t.idle 1 then (false, t)
  else (true, { t with stealeable := update t.stealeable id.index yes })

def isStealeable (t : Tasks n) (id : TaskId) : Bool :=
  id.index < n && t.epochs id.index = id.epoch && t.stealeable id.index &&
    id ≠ t.idle 0 && id ≠ t.idle 1

def canStealInto (t : Tasks n) (thief : ℕ) : Bool :=
  if nCpus ≤ thief ∨ ¬ (t.queues thief).isEmpty then false
  else (t.queues (1 - thief)).ready.any fun id =>
    t.states id.index = .ready && t.isStealeable id

/-- The loop of `try_steal_into`: rotate past entries that may not be stolen and
move the first one that may. `unwrap` never fails, its head was just read. -/
def stealLoop (thief peer : ℕ) : ℕ → Tasks n → Bool × Tasks n
  | 0, t => (false, t)
  | k + 1, t =>
    match (t.queues peer).dequeue with
    | none => (false, t)
    | some (id, q) =>
      if t.states id.index ≠ .ready then (false, t)
      else if ¬ t.isStealeable id then
        stealLoop thief peer k
          { t with queues := update t.queues peer ((q.enqueue id).getD q) }
      else
        let taken := { t with
          queues := update t.queues peer q
          home := update t.home id.index thief }
        match (taken.queues thief).enqueue id with
        | none => (false, { taken with
            queues := update taken.queues peer
              (((taken.queues peer).enqueue id).getD (taken.queues peer))
            home := update taken.home id.index peer })
        | some qt => (true, { taken with queues := update taken.queues thief qt })

def tryStealInto (t : Tasks n) (thief : ℕ) : Bool × Tasks n :=
  if nCpus ≤ thief ∨ ¬ (t.queues thief).isEmpty then (false, t)
  else stealLoop thief (1 - thief) (t.queues (1 - thief)).len t

def wake (t : Tasks n) (id : TaskId) : Bool × Tasks n :=
  if ¬ (id.index < n ∧ t.epochs id.index = id.epoch) then (false, t)
  else if id = t.idle 0 ∨ id = t.idle 1 then (false, t)
  else if t.states id.index ≠ .blocked then (false, t)
  else
    match (t.queues (t.home id.index)).enqueue id with
    | none => (false, { t with states := update t.states id.index .ready })
    | some q => (true, { t with
        states := update t.states id.index .ready
        queues := update t.queues (t.home id.index) q })

def collect (t : Tasks n) : Option TaskId × Tasks n := (t.parked, { t with parked := none })

end Tasks

def Switch.requeues : Switch → Bool
  | .yield | .preempt => true
  | .block | .exit => false

inductive Pick
  | next (id : TaskId)
  | fallback
  | stay
deriving DecidableEq

namespace Tasks

variable {n : ℕ}

def stealFirst (t : Tasks n) (cpu : ℕ) : Tasks n :=
  if t.current cpu = t.idle cpu ∧ (t.queues cpu).isEmpty then (t.tryStealInto cpu).2 else t

def retire (t : Tasks n) (cur : ℕ) : Switch → Tasks n
  | .yield | .preempt =>
    if t.states cur = .running then
      { t with states := update t.states cur .ready }
    else t
  | .block => { t with
      states := update t.states cur .blocked
      blockEvents := if t.blockEvents = UInt32.ofNat 4294967295 then t.blockEvents
        else t.blockEvents + 1 }
  | .exit => { t with
      states := update t.states cur .empty
      epochs := update t.epochs cur (t.epochs cur + 1) }

def pick (t : Tasks n) (cpu : ℕ) : Option (Option TaskId) → Pick
  | some (some id) => .next id
  | some none => if t.current cpu ≠ t.idle cpu then .fallback else .stay
  | none => .stay

/-- The tail of `switch_on`: an exit parks its stack only when the switch is certain. -/
def switchTo (t : Tasks n) (cpu : ℕ) (kind : Switch) (current next : TaskId) :
    Decision × Tasks n :=
  if next = current then
    (.stay, { t with states := update t.states current.index .running })
  else
    (.switch current next (if kind = .exit then t.parked else none), { t with
      parked := if kind = .exit then some current else t.parked
      overwrites := if kind = .exit ∧ t.parked ≠ none then t.overwrites + 1 else t.overwrites
      states := update t.states next.index .running
      current := update t.current cpu next })

def rotate (t : Tasks n) (cpu : ℕ) (kind : Switch) : Option (Option TaskId) × Tasks n :=
  match (t.queues cpu).afterYield (if kind.requeues then some (t.current cpu) else none) with
  | none => (none, t)
  | some (answer, q) => (some answer, { t with queues := update t.queues cpu q })

def switchOn (t : Tasks n) (cpu : ℕ) (kind : Switch) : Decision × Tasks n :=
  if nCpus ≤ cpu then (.stay, t)
  else
    let pulled := t.stealFirst cpu
    let current := pulled.current cpu
    -- idle is never preempted, and blocking or exiting it would stop the machine
    if kind ≠ .yield ∧ current = pulled.idle cpu then (.stay, pulled)
    else
      let (answer, rotated) := (pulled.retire current.index kind).rotate cpu kind
      match rotated.pick cpu answer with
      | .next id => rotated.switchTo cpu kind current id
      | .fallback => rotated.switchTo cpu kind current (rotated.idle cpu)
      | .stay =>
        (.stay, { rotated with states := update rotated.states current.index .running })

end Tasks

end HarborKernel.TaskTable
