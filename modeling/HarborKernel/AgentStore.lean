import HarborKernel.ByteStrings
import HarborKernel.TaskTable

/-!
The wire format of the agent store (`kernel-core/src/agentstore.rs`): a header and up to eight
records, each with a name, its geometry, slot indices, flags, a window index with an address, and
an image. A record names authority only by index.
-/

namespace HarborKernel.AgentStore

open ByteStrings TaskTable

def magic : ℕ := leNat [0x48, 0x41, 0x52, 0x42]
def version : ℕ := 2
def maxAgents : ℕ := 8
def nameLen : ℕ := 16
def slotNone : UInt8 := 0xFF
def windowNone : UInt8 := 0xFF
def maxSlots : ℕ := 4

inductive ParseError
  | tooShort
  | badMagic
  | badVersion
  | badCount
  | truncated
  | badName
  | badGeometry
  | imageTooLarge
  | badHome
  | badWindow
deriving DecidableEq

structure StoreAgent where
  name : List UInt8
  textPages : ℕ
  stackPages : ℕ
  slots : List UInt8
  homeCpu : ℕ
  mayResolve : Bool
  packetPool : Bool
  window : UInt8
  deviceVa : ℕ
  image : List UInt8
deriving DecidableEq

def validUtf8 : List UInt8 → Bool
  | [] => true
  | a :: rest =>
    if a < 0x80 then validUtf8 rest
    else
      match rest with
      | [] => false
      | b :: rest =>
        if 0xC2 ≤ a ∧ a ≤ 0xDF then decide (0x80 ≤ b ∧ b ≤ 0xBF) && validUtf8 rest
        else
          match rest with
          | [] => false
          | c :: rest =>
            if 0xE0 ≤ a ∧ a ≤ 0xEF then
              decide ((if a = 0xE0 then 0xA0 else 0x80) ≤ b ∧
                b ≤ (if a = 0xED then 0x9F else 0xBF) ∧ 0x80 ≤ c ∧ c ≤ 0xBF) && validUtf8 rest
            else
              match rest with
              | [] => false
              | d :: rest =>
                decide (0xF0 ≤ a ∧ a ≤ 0xF4 ∧ (if a = 0xF0 then 0x90 else 0x80) ≤ b ∧
                  b ≤ (if a = 0xF4 then 0x8F else 0xBF) ∧ 0x80 ≤ c ∧ c ≤ 0xBF ∧ 0x80 ≤ d ∧
                  d ≤ 0xBF) && validUtf8 rest

def bytesAt (buf : List UInt8) (off n : ℕ) : Except ParseError (List UInt8) :=
  match slice buf off n with
  | none => .error .truncated
  | some bytes => .ok bytes

def readU32 (buf : List UInt8) (off : ℕ) : Except ParseError ℕ := do
  return leNat (← bytesAt buf off 4)

def readU64 (buf : List UInt8) (off : ℕ) : Except ParseError ℕ := do
  return leNat (← bytesAt buf off 8)

def align4 (n : ℕ) : ℕ := (n + 3) / 4 * 4

def require (ok : Bool) (e : ParseError) : Except ParseError Unit :=
  if ok then .ok () else .error e

theorem require_eq_ok {ok : Bool} {e : ParseError} {u : Unit} :
    require ok e = .ok u ↔ ok = true := by
  cases ok
  · exact ⟨nofun, nofun⟩
  · exact ⟨fun _ => rfl, fun _ => rfl⟩

def parseAgent (buf : List UInt8) (off : ℕ) : Except ParseError (StoreAgent × ℕ) := do
  let field ← bytesAt buf off nameLen
  let off := off + nameLen
  let name := field.takeWhile (· ≠ 0)
  require (name.length ≠ 0) .badName
  require (validUtf8 name) .badName
  let textPages ← readU32 buf off
  let off := off + 4
  let stackPages ← readU32 buf off
  let off := off + 4
  require (textPages ≠ 0 ∧ stackPages ≠ 0) .badGeometry
  let slots ← bytesAt buf off maxSlots
  let off := off + maxSlots
  let reserved ← readU32 buf off
  let off := off + 4
  require (reserved / 2 ^ 10 = 0) .badHome
  let homeCpu := reserved % 2 ^ 8
  require (homeCpu < nCpus) .badHome
  let deviceWord ← readU32 buf off
  let off := off + 4
  require (deviceWord / 2 ^ 8 = 0) .badWindow
  let window := UInt8.ofNat deviceWord
  let deviceVa ← readU64 buf off
  let off := off + 8
  require (if window = windowNone then deviceVa = 0 else deviceVa % 4096 = 0) .badWindow
  let imageLen ← readU32 buf off
  let off := off + 4
  let image ← bytesAt buf off imageLen
  require (imageLen ≤ textPages * 4096) .imageTooLarge
  return ({ name, textPages, stackPages, slots, homeCpu
            mayResolve := reserved.testBit 8
            packetPool := reserved.testBit 9
            window, deviceVa, image }, align4 (off + imageLen))

def parseAgents (buf : List UInt8) : ℕ → ℕ → Except ParseError (List StoreAgent)
  | 0, _ => return []
  | count + 1, off => do
    let (agent, next) ← parseAgent buf off
    let rest ← parseAgents buf count next
    return agent :: rest

def parse (buf : List UInt8) : Except ParseError (List StoreAgent) := do
  require (16 ≤ buf.length) .tooShort
  let word ← readU32 buf 0
  require (word = magic) .badMagic
  let word ← readU32 buf 4
  require (word = version) .badVersion
  let count ← readU32 buf 8
  require (count ≠ 0 ∧ count ≤ maxAgents) .badCount
  parseAgents buf count 16

end HarborKernel.AgentStore
