import HarborKernel.ErrorState
import HarborKernel.PageWalk

/-!
The live kernel map (`arch/aarch64/mmu.rs`): `map` and `unmap` over a bump arena
of tables. A failed call keeps what it has written so far. TLB maintenance and
the count of splits are left out: no table depends on them.
-/

namespace HarborKernel

open ErrorState Paging PageWalk

/-- The tables, the arena `[next, limit)` they come from, and the root (zero before `activate`). -/
structure KernelMap where
  tables : Tables
  next : ℕ
  limit : ℕ
  root : ℕ

namespace KernelMap

inductive MmuError
  | unaligned (va pa len : ℕ)
  | badDescriptor (va pa : ℕ)
  | outOfRange (va : ℕ)
  | outOfTables
  | blockAlreadyMapped (va : ℕ)
  | notActivated
  | alreadyMapped (va : ℕ)
  | notMapped (va : ℕ)
deriving DecidableEq

structure Region where
  base : ℕ
  len : ℕ
  kind : MemKind
  perms : Perms

abbrev Mmu := EStateM MmuError KernelMap

def tableSize : ℕ := 4096

def allocTable : Mmu ℕ := do
  let s ← get
  if s.limit < s.next + tableSize then
    throw .outOfTables
  else
    set { s with next := s.next + tableSize, tables := fillTable s.tables s.next fun _ => 0 }
    return s.next

def writeEntry (table index : ℕ) (entry : UInt64) : Mmu Unit :=
  modify fun s => { s with tables := store s.tables table index entry }

def descend (level : Level) (va table : ℕ) : Mmu ℕ := do
  let entry := (← get).tables table (level.index va)
  if entry = 0 then
    let new ← allocTable
    match tableDescriptor new with
    | none => throw (.badDescriptor va new)
    | some desc =>
      writeEntry table (level.index va) desc
      return new
  else if entry &&& 0b11 = descTable then
    return descriptorAddress entry
  else
    throw (.blockAlreadyMapped va)

def descendTo (chunk : Chunk) : List Level → ℕ → Mmu ℕ
  | [], _ => throw (.outOfRange chunk.va)
  | level :: below, table =>
    if level = chunk.level then return table
    else do
      let next ← descend level chunk.va table
      descendTo chunk below next

def mapChunk (chunk : Chunk) (kind : MemKind) (perms : Perms) : Mmu Unit := do
  if vaLimit ≤ chunk.va then
    throw (.outOfRange chunk.va)
  else
    let table ← descendTo chunk [.L1, .L2, .L3] (← get).root
    let index := chunk.level.index chunk.va
    if (← get).tables table index ≠ 0 then
      throw (.alreadyMapped chunk.va)
    else
      match leaf chunk.level chunk.pa kind perms with
      | none => throw (.badDescriptor chunk.va chunk.pa)
      | some desc => writeEntry table index desc

def mapChunks (kind : MemKind) (perms : Perms) : List Chunk → Mmu Unit
  | [] => return ()
  | chunk :: rest => do
    mapChunk chunk kind perms
    mapChunks kind perms rest

def mapRegion (region : Region) : Mmu Unit :=
  match chunks region.base region.base region.len with
  | none => throw (.unaligned region.base region.base region.len)
  | some c => mapChunks region.kind region.perms c.toList

def map (region : Region) : Mmu Unit := do
  if (← get).root = 0 then
    throw .notActivated
  else
    mapRegion region

def ensureFrom (va : ℕ) : List Level → ℕ → Mmu Unit
  | [], _ => throw (.outOfRange va)
  | level :: below, table => do
    let entry := (← get).tables table (level.index va)
    if isInvalid entry then throw (.notMapped va)
    else if isLeaf entry level then return ()
    else if isTable entry level then ensureFrom va below (descriptorAddress entry)
    else throw (.notMapped va)

def ensureMapped (va : ℕ) : Mmu Unit := do
  if vaLimit ≤ va then
    throw (.outOfRange va)
  else
    ensureFrom va [.L1, .L2, .L3] (← get).root

def fillLeaves (child : ℕ) (level : Level) (paBase : ℕ) (kind : MemKind) (perms : Perms) (va : ℕ) :
    ℕ → ℕ → Mmu Unit
  | 0, _ => return ()
  | n + 1, i => do
    let pa := paBase + i * level.entrySize
    match leaf level pa kind perms with
    | none => throw (.badDescriptor va pa)
    | some desc =>
      writeEntry child i desc
      fillLeaves child level paBase kind perms va n (i + 1)

def splitBlock (parent index : ℕ) (level : Level) (blockEntry : UInt64) (va : ℕ) : Mmu ℕ :=
  match decodeLeaf blockEntry level with
  | none => throw (.badDescriptor va (descriptorAddress blockEntry))
  | some (paBase, kind, perms) =>
    match level.next with
    | none => throw (.outOfRange va)
    | some nextLevel => do
      let child ← allocTable
      fillLeaves child nextLevel paBase kind perms va entriesPerTable 0
      writeEntry parent index 0
      match tableDescriptor child with
      | none => throw (.badDescriptor va child)
      | some desc =>
        writeEntry parent index desc
        return child

def unmapFrom (va : ℕ) : List Level → ℕ → Mmu Unit
  | [], _ => throw (.outOfRange va)
  | level :: below, table => do
    let index := level.index va
    let entry := (← get).tables table index
    if isInvalid entry then throw (.notMapped va)
    else if isLeaf entry level then
      if level = .L3 then
        writeEntry table index 0
      else
        let child ← splitBlock table index level entry va
        unmapFrom va below child
    else if isTable entry level then unmapFrom va below (descriptorAddress entry)
    else throw (.notMapped va)

def unmapPage (va : ℕ) : Mmu Unit := do
  unmapFrom va [.L1, .L2, .L3] (← get).root

def eachPage (f : ℕ → Mmu Unit) : ℕ → ℕ → Mmu Unit
  | 0, _ => return ()
  | n + 1, va => do
    f va
    eachPage f n (va + pageSize)

def unmap (base len : ℕ) : Mmu Unit := do
  if (← get).root = 0 then
    throw .notActivated
  else if base % pageSize ≠ 0 ∨ len % pageSize ≠ 0 ∨ len = 0 then
    throw (.unaligned base base len)
  else if 2 ^ 64 ≤ base + len then
    throw (.outOfRange base)
  else
    eachPage ensureMapped (len / pageSize) base
    eachPage unmapPage (len / pageSize) base

def activateEmpty (dram : Tables) (start limit : ℕ) : KernelMap :=
  ⟨fillTable dram start fun _ => 0, start + tableSize, limit, start⟩

end KernelMap

end HarborKernel
