import HarborKernel.ByteWords
import HarborKernel.ErrorState
import HarborKernel.PageWalk
import Mathlib.Logic.Function.Basic

/-!
User address spaces (`mm/aspace.rs`) over the frame pool (`frame.rs`), the ASID
pool (`asid.rs`) and physical memory. Methods that take `&mut self` run on an
address space together with the world it shares with the others; a failed call
keeps what it has done. `stores` lists the stores made, as address and length.
Caches, TLBs and the values only diagnostics read are left out.
-/

namespace HarborKernel.AddressSpaces

open Function ByteWords ErrorState Paging PageWalk

def frameSize : ℕ := 0x1000
def maxTextPages : ℕ := 16
def packetPoolPages : ℕ := 8
def maxAsFrames : ℕ := 256
def maxFrames : ℕ := 1024

/-- Free indices on a stack, top first, and a bit for every index handed out. -/
structure FramePool where
  capacity : ℕ
  freeStack : List ℕ
  allocated : ℕ → Bool

namespace FramePool

def new (capacity : ℕ) : FramePool :=
  ⟨min capacity maxFrames, List.range (min capacity maxFrames), fun _ => false⟩

def alloc (pool : FramePool) : Option (ℕ × FramePool) :=
  match pool.freeStack with
  | [] => none
  | idx :: rest =>
    some (idx, { pool with freeStack := rest, allocated := update pool.allocated idx true })

/-- Return a frame; an index out of bounds or not allocated is refused. -/
def free (pool : FramePool) (idx : ℕ) : FramePool :=
  if pool.capacity ≤ idx then pool
  else if !pool.allocated idx then pool
  else { pool with freeStack := idx :: pool.freeStack
                   allocated := update pool.allocated idx false }

end FramePool

def asidCount : ℕ := 256
def kernelAsid : ℕ := 0

structure AsidPool where
  free : ℕ → Bool
  next : ℕ
  freeCount : ℕ

namespace AsidPool

def new : AsidPool := ⟨fun i => i ≠ kernelAsid, 1, asidCount - 1⟩

def scan (pool : AsidPool) : ℕ → ℕ → Option ℕ
  | 0, _ => none
  | n + 1, i => if i ≠ kernelAsid ∧ pool.free i then some i else pool.scan n ((i + 1) % asidCount)

def alloc (pool : AsidPool) : Option (ℕ × AsidPool) :=
  if pool.freeCount = 0 then none
  else (pool.scan asidCount (pool.next % asidCount)).map fun i =>
    (i, ⟨update pool.free i false, (i + 1) % asidCount, pool.freeCount - 1⟩)

def release (pool : AsidPool) (asid : ℕ) : AsidPool :=
  if asid = kernelAsid ∨ asidCount ≤ asid then pool
  else if pool.free asid then pool
  else { pool with free := update pool.free asid true
                   freeCount := min (pool.freeCount + 1) 65535 }

end AsidPool

inductive Board
  | qemuVirt
  | rpi4
deriving DecidableEq

def Board.userVaBase : Board → ℕ
  | .qemuVirt => 0x50000000
  | .rpi4 => 0x40000000

def Board.userPacketPoolVa : Board → ℕ := fun _ => 0x53000000

structure UserWindow where
  base : ℕ
  pages : ℕ
  textPages : ℕ
  frame : ℕ

namespace UserWindow

def stackTop (w : UserWindow) : ℕ := w.base + w.pages * w.frame

def isTextPage (w : UserWindow) (index : ℕ) : Bool := index < w.textPages

def textBytes (w : UserWindow) : ℕ := w.textPages * w.frame

def valid (w : UserWindow) : Bool := ¬(w.textPages = 0 ∨ w.pages ≤ w.textPages)

def boundTextWrite (w : UserWindow) (offset len : ℕ) : Bool :=
  offset + len < 2 ^ 64 ∧ offset + len ≤ w.textBytes

end UserWindow

inductive AsError
  | outOfFrames
  | ledgerFull
  | noKernelRoot
  | badTable
  | alreadyPrepared
  | packetPoolNotGranted
  | packetPoolAlreadyMapped
  | unaligned
  | outOfRange
  | outOfAsid
deriving DecidableEq

structure World where
  board : Board
  mem : Bytes
  stores : List (ℕ × ℕ)
  poolBase : ℕ
  frames : FramePool
  asids : AsidPool
  kernelRoot : Option ℕ

structure AddressSpace where
  rootPhys : ℕ
  asid : ℕ
  owned : List ℕ
  userSp : ℕ
  textPhys : ℕ → ℕ
  window : UserWindow
  packetPoolRequested : Bool
  packetPoolMapped : Bool
  prepared : Bool

structure Sys where
  space : AddressSpace
  world : World

abbrev As := EStateM AsError Sys

def World.phys (w : World) (idx : ℕ) : ℕ := w.poolBase + idx * frameSize

def World.write (w : World) (addr n : ℕ) (bytes : Bytes) : World :=
  { w with mem := blit w.mem addr n bytes, stores := (addr, n) :: w.stores }

def World.writeEntry (w : World) (table index : ℕ) (entry : UInt64) : World :=
  { w with mem := writeLe w.mem (table + 8 * index) 8 entry.toNat
           stores := (table + 8 * index, 8) :: w.stores }

def World.readEntry (w : World) (table index : ℕ) : UInt64 :=
  UInt64.ofNat (readLe w.mem (table + 8 * index) 8)

def World.zeroFrame (w : World) (phys : ℕ) : World := w.write phys frameSize fun _ => 0

def create (textPages stackPages : ℕ) (packetPool : Bool) : EStateM AsError World AddressSpace := do
  let w ← get
  let window : UserWindow :=
    ⟨w.board.userVaBase, textPages + stackPages, textPages, frameSize⟩
  if maxTextPages < textPages then
    throw .outOfRange
  else if !window.valid then
    throw .outOfRange
  else
    match w.asids.alloc with
    | none => throw .outOfAsid
    | some (asid, asids) =>
      match w.frames.alloc with
      | none =>
        set { w with asids := asids.release asid }
        throw .outOfFrames
      | some (root, frames) =>
        let w := { w with asids := asids, frames := frames }
        set (w.zeroFrame (w.phys root))
        -- The ledger is empty, so the root always fits in it.
        return ⟨w.phys root, asid, [root], 0, fun _ => 0, window, packetPool, false, false⟩

def takeFrame : As ℕ := do
  let s ← get
  match s.world.frames.alloc with
  | none => throw .outOfFrames
  | some (idx, frames) =>
    set { s with world := { s.world with frames := frames } }
    if maxAsFrames ≤ s.space.owned.length then
      throw .ledgerFull
    else
      modify fun s => { s with space := { s.space with owned := s.space.owned ++ [idx] } }
      return s.world.phys idx

def writeEntry (table index : ℕ) (entry : UInt64) : As Unit :=
  modify fun s => { s with world := s.world.writeEntry table index entry }

def zeroFrame (phys : ℕ) : As Unit :=
  modify fun s => { s with world := s.world.zeroFrame phys }

def cloneEntry (child : ℕ → ℕ → As Unit) (level : Level) (src dst i : ℕ) : As Unit := do
  let e := (← get).world.readEntry src i
  if isInvalid e then
    writeEntry dst i 0
  else if isLeaf e level then
    writeEntry dst i e
  else if isTable e level then
    let childPhys ← takeFrame
    zeroFrame childPhys
    child (descriptorAddress e) childPhys
    match tableDescriptor childPhys with
    | none => throw .badTable
    | some desc => writeEntry dst i desc
  else
    throw .badTable

def cloneFrom (child : ℕ → ℕ → As Unit) (level : Level) (src dst : ℕ) : ℕ → ℕ → As Unit
  | 0, _ => return ()
  | n + 1, i => do
    cloneEntry child level src dst i
    cloneFrom child level src dst n (i + 1)

def cloneNone (_ _ : ℕ) : As Unit := throw .badTable

def cloneL3 (src dst : ℕ) : As Unit := cloneFrom cloneNone .L3 src dst entriesPerTable 0

def cloneL2 (src dst : ℕ) : As Unit := cloneFrom cloneL3 .L2 src dst entriesPerTable 0

def cloneL1 (src dst : ℕ) : As Unit := cloneFrom cloneL2 .L1 src dst entriesPerTable 0

def descend (level : Level) (va table : ℕ) : As ℕ := do
  let entry := (← get).world.readEntry table (level.index va)
  if isInvalid entry then
    let phys ← takeFrame
    zeroFrame phys
    match tableDescriptor phys with
    | none => throw .badTable
    | some desc =>
      writeEntry table (level.index va) desc
      return phys
  else if isTable entry level then
    return descriptorAddress entry
  else
    throw .badTable

def mapL3Page (va pa : ℕ) (kind : MemKind) (perms : Perms) : As Unit := do
  let l2 ← descend .L1 va (← get).space.rootPhys
  let l3 ← descend .L2 va l2
  let index := Level.L3.index va
  if !isInvalid ((← get).world.readEntry l3 index) then
    throw .badTable
  else
    match leaf .L3 pa kind perms with
    | none => throw .badTable
    | some desc => writeEntry l3 index desc

def recordText (window : UserWindow) (i phys : ℕ) : As Unit :=
  modify fun s => if window.isTextPage i then
    { s with space := { s.space with textPhys := update s.space.textPhys i phys } }
  else s

def mapWindowPage (i : ℕ) : As Unit := do
  let window := (← get).space.window
  let phys ← takeFrame
  recordText window i phys
  zeroFrame phys
  mapL3Page (window.base + i * pageSize) phys .normalWb
    (if window.isTextPage i then Perms.userRx else Perms.userRw)

def mapWindowFrom : ℕ → ℕ → As Unit
  | 0, _ => return ()
  | n + 1, i => do
    mapWindowPage i
    mapWindowFrom n (i + 1)

def mapUserWindow : As Unit := do
  mapWindowFrom (← get).space.window.pages 0
  modify fun s => { s with space := { s.space with userSp := s.space.window.stackTop } }

def prepareForEl0 : As Unit := do
  let s ← get
  if s.space.prepared then
    throw .alreadyPrepared
  else
    match s.world.kernelRoot with
    | none => throw .noKernelRoot
    | some kroot =>
      cloneL1 kroot s.space.rootPhys
      mapUserWindow
      modify fun s => { s with space := { s.space with prepared := true } }

def mapPages (kind : MemKind) (perms : Perms) : ℕ → ℕ → ℕ → As Unit
  | 0, _, _ => return ()
  | n + 1, va, pa => do
    mapL3Page va pa kind perms
    mapPages kind perms n (va + pageSize) (pa + pageSize)

/-- A region that wraps or is not made of pages. -/
def badRegion (va pa len : ℕ) : Bool :=
  len = 0 ∨ va % pageSize ≠ 0 ∨ pa % pageSize ≠ 0 ∨ len % pageSize ≠ 0 ∨
    2 ^ 64 ≤ pa + len ∨ 2 ^ 64 ≤ va + len

def mapDeviceRegion (va pa len : ℕ) (perms : Perms) : As Unit := do
  if !(← get).space.prepared then
    throw .badTable
  else if badRegion va pa len then
    throw .unaligned
  else
    mapPages .device perms (len / pageSize) va pa

def mapNormalRegion (va pa len : ℕ) (perms : Perms) : As Unit := do
  if !(← get).space.prepared || badRegion va pa len then
    throw .unaligned
  else
    mapPages .normalWb perms (len / pageSize) va pa

def mapPoolFrom : List ℕ → ℕ → As Unit
  | [], _ => return ()
  | pa :: rest, va => do
    if pa = 0 ∨ pa % frameSize ≠ 0 then
      throw .unaligned
    else
      mapL3Page va pa .normalWb Perms.userRw
      mapPoolFrom rest (va + pageSize)

def mapPacketPool (pages : Vector ℕ packetPoolPages) : As Unit := do
  let s ← get
  if !s.space.packetPoolRequested then
    throw .packetPoolNotGranted
  else if !s.space.prepared then
    throw .badTable
  else if s.space.packetPoolMapped then
    throw .packetPoolAlreadyMapped
  else
    mapPoolFrom pages.toList s.world.board.userPacketPoolVa
    modify fun s => { s with space := { s.space with packetPoolMapped := true } }

def pokeFrom (offset : ℕ) (bytes : List UInt8) : ℕ → ℕ → As Unit
  | 0, _ => return ()
  | n + 1, written => do
    if bytes.length ≤ written then
      return ()
    else
      let space := (← get).space
      let at' := offset + written
      let base := space.textPhys (at' / space.window.frame)
      let inPage := at' % space.window.frame
      if base = 0 then
        throw .badTable
      else
        let take := min (space.window.frame - inPage) (bytes.length - written)
        modify fun s => { s with
          world := s.world.write (base + inPage) take fun j => bytes.getD (written + j) 0 }
        pokeFrom offset bytes n (written + take)

def pokeUser (offset : ℕ) (bytes : List UInt8) : As Unit := do
  let s ← get
  if !s.space.prepared then
    throw .badTable
  else if !s.space.window.boundTextWrite offset bytes.length then
    throw .outOfRange
  else
    pokeFrom offset bytes bytes.length 0

def destroy (space : AddressSpace) (w : World) : World :=
  { w with frames := space.owned.foldl FramePool.free w.frames
           asids := w.asids.release space.asid }

end HarborKernel.AddressSpaces
