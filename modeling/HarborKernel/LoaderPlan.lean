import HarborKernel.AgentStore
import HarborKernel.Capability
import HarborKernel.Paging

/-!
What the loader will do with a manifest (`kernel-core/src/manifest.rs`, `loaderplan.rs`). An entry
names capabilities and a device window by their positions in the loader's vocabularies; `plan`
turns it into a decision. The pages of an entry are counted in 64 bits, which pages of 4 KiB and
counts of 32 bits do not exceed.
-/

namespace HarborKernel.LoaderPlan

open AgentStore Capability Paging TaskTable

def packetCapabilityStart : UInt8 := 3

structure DeviceGrant where
  va : ℕ
  window : UInt8
deriving DecidableEq

structure AgentEntry where
  name : List UInt8
  image : List UInt8
  textPages : ℕ
  stackPages : ℕ
  slots : List (Option UInt8)
  mayResolve : Bool
  device : Option DeviceGrant
  packetPool : Bool
  homeCpu : ℕ
deriving DecidableEq

structure Window where
  pa : ℕ
  len : ℕ
  perms : Perms
deriving DecidableEq

def Window.isValid (w : Window) : Bool :=
  decide (w.pa % pageSize = 0 ∧ w.len % pageSize = 0 ∧ w.len ≠ 0 ∧ w.pa + w.len < 2 ^ 64)

inductive BindError
  | noSuchCapability (slot : ℕ) (index : UInt8) (held : ℕ)
  | heldVacant (slot : ℕ) (index : UInt8)
  | packetPoolRequired (slot : ℕ) (index : UInt8)
  | noSuchWindow (index : UInt8) (windows : ℕ)
  | windowVacant (index : UInt8)
  | windowInvalid (index : UInt8)
  | imageTooLarge (bytes capacity : ℕ)
  | badGeometry (textPages stackPages : ℕ)
  | badHome (homeCpu max : ℕ)
deriving DecidableEq

def AgentEntry.validate (entry : AgentEntry) (frameSize : ℕ) : Except BindError Unit :=
  if entry.textPages = 0 ∨ entry.stackPages = 0 then
    .error (.badGeometry entry.textPages entry.stackPages)
  else if entry.textPages * frameSize < entry.image.length then
    .error (.imageTooLarge entry.image.length (entry.textPages * frameSize))
  else if nCpus ≤ entry.homeCpu then .error (.badHome entry.homeCpu nCpus)
  else .ok ()

def bindFrom (packetPool : Bool) (held : List (Option CapId)) :
    ℕ → List (Option UInt8) → Except BindError (List (Option CapId))
  | _, [] => .ok []
  | slot, none :: rest => (bindFrom packetPool held (slot + 1) rest).map (none :: ·)
  | slot, some index :: rest =>
    match held[index.toNat]? with
    | none => .error (.noSuchCapability slot index held.length)
    | some cap =>
      if packetCapabilityStart ≤ index ∧ !packetPool then
        .error (.packetPoolRequired slot index)
      else
        match cap with
        | none => .error (.heldVacant slot index)
        | some cap => (bindFrom packetPool held (slot + 1) rest).map (some cap :: ·)

def bind (entry : AgentEntry) (held : List (Option CapId)) :
    Except BindError (List (Option CapId)) :=
  bindFrom entry.packetPool held 0 entry.slots

structure ResolvedWindow where
  va : ℕ
  pa : ℕ
  len : ℕ
  perms : Perms
deriving DecidableEq

def bindWindow (entry : AgentEntry) (windows : List (Option Window)) :
    Except BindError (Option ResolvedWindow) :=
  match entry.device with
  | none => .ok none
  | some grant =>
    match windows[grant.window.toNat]? with
    | none => .error (.noSuchWindow grant.window windows.length)
    | some none => .error (.windowVacant grant.window)
    | some (some window) =>
      if !window.isValid then .error (.windowInvalid grant.window)
      else .ok (some ⟨grant.va, window.pa, window.len, window.perms⟩)

inductive Refusal
  | invalid (e : BindError)
  | unheld (e : BindError)
deriving DecidableEq

inductive EntryPlan
  | spawn (index homeCpu : ℕ) (slots : List (Option CapId)) (device : Option ResolvedWindow)
  | refuse (r : Refusal)
deriving DecidableEq

inductive PlanError
  | empty
  | outTooSmall (entries capacity : ℕ)
deriving DecidableEq

def planEntry (held : List (Option CapId)) (windows : List (Option Window)) (frameSize : ℕ)
    (index : ℕ) (entry : AgentEntry) : EntryPlan :=
  match entry.validate frameSize with
  | .error e => .refuse (.invalid e)
  | .ok () =>
    match bind entry held with
    | .error e => .refuse (.unheld e)
    | .ok slots =>
      match bindWindow entry windows with
      | .error e => .refuse (.unheld e)
      | .ok device => .spawn (index % 2 ^ 8) entry.homeCpu slots device

def plan (table : List AgentEntry) (held : List (Option CapId)) (windows : List (Option Window))
    (frameSize capacity : ℕ) : Except PlanError (List EntryPlan) :=
  if table = [] then .error .empty
  else if capacity < table.length then .error (.outTooSmall table.length capacity)
  else .ok (table.mapIdx (planEntry held windows frameSize))

def toEntry (agent : StoreAgent) : AgentEntry where
  name := agent.name
  image := agent.image
  textPages := agent.textPages
  stackPages := agent.stackPages
  slots := agent.slots.map fun s => if s ≠ slotNone then some s else none
  mayResolve := agent.mayResolve
  device := if agent.window ≠ windowNone then some ⟨agent.deviceVa, agent.window⟩ else none
  packetPool := agent.packetPool
  homeCpu := agent.homeCpu

def planStore (buf : List UInt8) (held : List (Option CapId)) (windows : List (Option Window)) :
    Option (List EntryPlan) :=
  match parse buf with
  | .error _ => none
  | .ok agents =>
    match plan (agents.map toEntry) held windows pageSize maxAgents with
    | .error _ => none
    | .ok plans => some plans

end HarborKernel.LoaderPlan
