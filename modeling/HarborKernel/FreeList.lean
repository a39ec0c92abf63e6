import HarborKernel.ByteWords

/-!
The free-list allocator (`kernel-core/src/heap.rs`). The arena is a memory of bytes with a length,
and every bookkeeping word lives in it. A read or write outside the arena panics in the source;
such a run, and a loop that never ends, has no result here. Offsets and sizes are words of 64 bits,
so sums and differences wrap. No chain of distinct blocks is longer than the arena, which is the
number of turns a loop is given.
-/

namespace HarborKernel.Heap

open ByteWords

def header : ℕ := 16
def grain : ℕ := 16
def minBlock : ℕ := header + grain
def nil : ℕ := 2 ^ 64 - 1
def allocated : ℕ := 1

inductive FreeError
  | outOfBounds
  | corrupt
  | notAllocated
deriving DecidableEq

structure Arena where
  mem : Bytes
  len : ℕ
  bound : len < 2 ^ 63

def wrapAdd (a b : ℕ) : ℕ := (a + b) % 2 ^ 64

def wrapSub (a b : ℕ) : ℕ := (a + (2 ^ 64 - b)) % 2 ^ 64

def checkedAdd (a b : ℕ) : Option ℕ := if a + b < 2 ^ 64 then some (a + b) else none

def andNot (a b : ℕ) : ℕ := a &&& (2 ^ 64 - 1 - b)

def isPowerOfTwo (a : ℕ) : Bool := 2 ^ a.log2 = a

def readU64 (arena : Arena) (off : ℕ) : Option ℕ :=
  if off + 8 ≤ arena.len then some (readLe arena.mem off 8) else none

def writeU64 (arena : Arena) (off value : ℕ) : Option Arena :=
  if off + 8 ≤ arena.len then some { arena with mem := writeLe arena.mem off 8 value } else none

def blockSize (arena : Arena) (block : ℕ) : Option ℕ := do
  return andNot (← readU64 arena block) allocated

def setBlockSize (arena : Arena) (block size : ℕ) : Option Arena := writeU64 arena block size

def isAllocated (arena : Arena) (block : ℕ) : Option Bool := do
  return (← readU64 arena block) &&& allocated ≠ 0

def markAllocated (arena : Arena) (block : ℕ) : Option Arena := do
  let word ← readU64 arena block
  writeU64 arena block (word ||| allocated)

def decodeNext (word : ℕ) : Option ℕ := if word = nil then none else some word

def nextFree (arena : Arena) (block : ℕ) : Option (Option ℕ) := do
  return decodeNext (← readU64 arena (block + 8))

def setNextFree (arena : Arena) (block : ℕ) (next : Option ℕ) : Option Arena :=
  writeU64 arena (block + 8) (next.getD nil)

def alignUp (value align : ℕ) : ℕ := andNot (wrapSub (wrapAdd value align) 1) (align - 1)

/-- A `FreeList` together with the arena that is passed to each of its methods. -/
structure FreeList where
  head : Option ℕ
  len : ℕ
  arena : Arena

namespace FreeList

def new (arena : Arena) : Option (Option FreeList) :=
  let len := andNot arena.len (grain - 1)
  if len < minBlock then some none
  else do
    let arena ← setBlockSize arena 0 len
    let arena ← setNextFree arena 0 none
    return some { head := some 0, len := arena.len, arena }

def sizesFrom (arena : Arena) : ℕ → Option ℕ → Option (List ℕ)
  | _, none => some []
  | 0, some _ => none
  | turns + 1, some block => do
    let size ← blockSize arena block
    let rest ← sizesFrom arena turns (← nextFree arena block)
    return size :: rest

def freeBytes (h : FreeList) : Option ℕ := do
  return (← sizesFrom h.arena (h.arena.len + 1) h.head).foldl wrapAdd 0

def freeBlocks (h : FreeList) : Option ℕ := do
  return (← sizesFrom h.arena (h.arena.len + 1) h.head).length

def relink (h : FreeList) (prev target : Option ℕ) : Option FreeList :=
  match prev with
  | some block => do
    let arena ← setNextFree h.arena block target
    return { h with arena }
  | none => some { h with head := target }

structure Fit where
  prev : Option ℕ
  block : ℕ
  payload : ℕ
  tail : ℕ
  blockEnd : ℕ

inductive Look
  | overflow
  | beyond
  | hosts (f : Fit)

def look (arena : Arena) (size align : ℕ) (prev : Option ℕ) (block : ℕ) : Option Look := do
  let blockEnd := wrapAdd block (← blockSize arena block)
  let payload := alignUp (wrapAdd block header) align
  match checkedAdd payload size with
  | none => return .overflow
  | some tail =>
    if tail ≤ blockEnd then return .hosts { prev, block, payload, tail, blockEnd }
    else return .beyond

def findFit (arena : Arena) (size align : ℕ) : ℕ → Option ℕ → Option ℕ → Option (Option Fit)
  | _, _, none => some none
  | 0, _, some _ => none
  | turns + 1, prev, some block => do
    match ← look arena size align prev block with
    | .overflow => return none
    | .hosts f => return some f
    | .beyond => findFit arena size align turns (some block) (← nextFree arena block)

def split (h : FreeList) (f : Fit) (next : Option ℕ) : Option FreeList :=
  if minBlock ≤ f.blockEnd - f.tail then do
    let arena ← setBlockSize h.arena f.tail (f.blockEnd - f.tail)
    let arena ← setNextFree arena f.tail next
    let h ← relink { h with arena } f.prev (some f.tail)
    let arena ← setBlockSize h.arena f.block (wrapSub f.tail f.block)
    return { h with arena }
  else relink h f.prev next

def place (h : FreeList) (f : Fit) : Option FreeList := do
  let next ← nextFree h.arena f.block
  let h ← split h f next
  let arena ← writeU64 h.arena (wrapSub f.payload 8) f.block
  let arena ← markAllocated arena f.block
  return { h with arena }

def alloc (h : FreeList) (size align : ℕ) : Option (Option ℕ × FreeList) :=
  if size = 0 ∨ isPowerOfTwo align = false ∨ h.arena.len ≠ h.len then some (none, h)
  else do
    let size := alignUp size grain
    match ← findFit h.arena size align (h.arena.len + 1) none h.head with
    | none => return (none, h)
    | some fit =>
      let h ← place h fit
      return (some fit.payload, h)

def check (arena : Arena) (payload : ℕ) : Option (Except FreeError (ℕ × ℕ)) :=
  if payload < header ∨ arena.len < payload then some (.error .outOfBounds)
  else do
    let recorded ← readU64 arena (payload - 8)
    if recorded = nil then return .error .notAllocated
    else
      let block := recorded
      match checkedAdd block header with
      | none => return .error .outOfBounds
      | some headerEnd =>
        if arena.len < headerEnd then return .error .outOfBounds
        else if block % grain ≠ 0 ∨ payload < headerEnd then return .error .corrupt
        else if !(← isAllocated arena block) then return .error .notAllocated
        else
          let size ← blockSize arena block
          match checkedAdd block size with
          | none => return .error .corrupt
          | some blockEnd =>
            if size < minBlock ∨ arena.len < blockEnd ∨ blockEnd ≤ payload then
              return .error .corrupt
            else return .ok (block, size)

def findPlace (arena : Arena) (block : ℕ) :
    ℕ → Option ℕ → Option ℕ → Option (Option ℕ × Option ℕ)
  | _, prev, none => some (prev, none)
  | 0, _, some _ => none
  | turns + 1, prev, some candidate =>
    if block < candidate then some (prev, some candidate)
    else do findPlace arena block turns (some candidate) (← nextFree arena candidate)

def mergeForward (arena : Arena) (block size : ℕ) (cursor : Option ℕ) : Option Arena :=
  match cursor with
  | none => some arena
  | some next =>
    if wrapAdd block size = next then do
      let merged := wrapAdd size (← blockSize arena next)
      let arena ← setBlockSize arena block merged
      setNextFree arena block (← nextFree arena next)
    else some arena

def mergeBackward (arena : Arena) (block : ℕ) (prev : Option ℕ) : Option Arena :=
  match prev with
  | none => some arena
  | some previous => do
    let previousSize ← blockSize arena previous
    if wrapAdd previous previousSize = block then do
      let merged := wrapAdd previousSize (← blockSize arena block)
      let arena ← setBlockSize arena previous merged
      setNextFree arena previous (← nextFree arena block)
    else return arena

def insert (h : FreeList) (block size : ℕ) : Option FreeList := do
  let (prev, cursor) ← findPlace h.arena block (h.arena.len + 1) none h.head
  let arena ← setBlockSize h.arena block size
  let arena ← setNextFree arena block cursor
  let h ← relink { h with arena } prev (some block)
  let arena ← mergeForward h.arena block size cursor
  let arena ← mergeBackward arena block prev
  return { h with arena }

def dealloc (h : FreeList) (payload : ℕ) : Option (Except FreeError Unit × FreeList) := do
  match ← check h.arena payload with
  | .error e => return (.error e, h)
  | .ok (block, size) =>
    let h ← insert h block size
    return (.ok (), h)

end FreeList

end HarborKernel.Heap
