import HarborKernel.ByteWords
import HarborKernel.ErrorState
import Mathlib.Data.List.Basic
import Mathlib.Tactic.IntervalCases

/-!
The durable store on an SD card (`durable_media.rs`, `drivers/sdhci.rs`).
Two slots hold a payload and a header each; the header is written last. A card
answers commands one at a time. `faults` says which of the coming commands fail:
a failed command changes nothing, and the code stops at it, so a power cut after
`n` writes is a fault at the next one. `accessed` collects the addresses.
-/

namespace HarborKernel.DurableMedia

open Function ByteWords ErrorState

def sectorSize : ℕ := 512
def regionSize : ℕ := 4096
def payloadSectors : ℕ := regionSize / sectorSize
def minPartitionSectors : UInt32 := 32

def magic : ℕ := 0x31484D44

def version : ℕ := 1

inductive Slot
  | A
  | B
deriving DecidableEq

def Slot.headerSector : Slot → UInt32
  | .A => 0
  | .B => 16

def Slot.payloadSector : Slot → UInt32
  | .A => 1
  | .B => 17

def nextSlot : Option Slot → Slot
  | none | some .B => .A
  | some .A => .B

structure Header where
  seq : UInt64
  crc : UInt32
deriving DecidableEq

def crcBit (crc : UInt32) : UInt32 :=
  (crc >>> 1) ^^^ if crc &&& 1 ≠ 0 then 0xEDB88320 else 0

def crcByte (crc : UInt32) (b : UInt8) : UInt32 := crcBit^[8] (crc ^^^ b.toUInt32)

def crc32 (payload : Bytes) : UInt32 :=
  ~~~ (List.range regionSize).foldl (fun crc i => crcByte crc (payload i)) 0xFFFFFFFF

def encodeHeader (seq : UInt64) (payload : Bytes) : Bytes :=
  let out := writeLe (fun _ => 0) 0 4 magic
  let out := writeLe out 4 4 version
  let out := writeLe out 8 8 seq.toNat
  writeLe out 16 4 (crc32 payload).toNat

def decodeHeader (sector : Bytes) : Option Header :=
  if readLe sector 0 4 ≠ magic ∨ readLe sector 4 4 ≠ version then none
  else some ⟨UInt64.ofNat (readLe sector 8 8), UInt32.ofNat (readLe sector 16 4)⟩

def validate (header payload : Bytes) : Option Header :=
  match decodeHeader header with
  | none => none
  | some h => if crc32 payload ≠ h.crc then none else some h

def pickWinner (headerA payloadA headerB payloadB : Bytes) : Option (Slot × Header) :=
  match validate headerA payloadA, validate headerB payloadB with
  | none, none => none
  | some h, none => some (.A, h)
  | none, some h => some (.B, h)
  | some ha, some hb => if hb.seq ≤ ha.seq then some (.A, ha) else some (.B, hb)

theorem decodeHeader_encodeHeader (seq : UInt64) (payload : Bytes) :
    decodeHeader (encodeHeader seq payload) = some ⟨seq, crc32 payload⟩ := by
  have hseq := seq.toNat_lt
  have hcrc := (crc32 payload).toNat_lt
  have hmagic : readLe (encodeHeader seq payload) 0 4 = magic := by
    unfold encodeHeader
    rw [readLe_writeLe_of_disjoint (by omega), readLe_writeLe_of_disjoint (by omega),
      readLe_writeLe_of_disjoint (by omega), readLe_writeLe_of_lt (by decide)]
  have hversion : readLe (encodeHeader seq payload) 4 4 = version := by
    unfold encodeHeader
    rw [readLe_writeLe_of_disjoint (by omega), readLe_writeLe_of_disjoint (by omega),
      readLe_writeLe_of_lt (by decide)]
  have hread : readLe (encodeHeader seq payload) 8 8 = seq.toNat := by
    unfold encodeHeader
    rw [readLe_writeLe_of_disjoint (by omega), readLe_writeLe_of_lt (by omega)]
  have hsum : readLe (encodeHeader seq payload) 16 4 = (crc32 payload).toNat := by
    unfold encodeHeader
    rw [readLe_writeLe_of_lt (by omega)]
  rw [decodeHeader, hmagic, hversion, hread, hsum, UInt64.ofNat_toNat, UInt32.ofNat_toNat]
  simp

variable {p q payload : Bytes} {seq : UInt64}

theorem crc32_congr (h : ∀ j, j < regionSize → p j = q j) : crc32 p = crc32 q := by
  have hfold : ∀ crc : UInt32,
      (List.range regionSize).foldl (fun crc i => crcByte crc (p i)) crc =
        (List.range regionSize).foldl (fun crc i => crcByte crc (q i)) crc := by
    intro crc
    refine List.foldl_ext _ _ _ fun crc i hi => ?_
    rw [h i (List.mem_range.1 hi)]
  rw [crc32, crc32, hfold]

theorem validate_some {header : Bytes} {h : Header} (hv : validate header payload = some h) :
    decodeHeader header = some h := by
  unfold validate at hv
  split at hv
  · contradiction
  rename_i h' hd
  split at hv
  · contradiction
  · rw [hd, hv]

theorem validate_encode (h : ∀ j, j < regionSize → q j = p j) :
    validate (encodeHeader seq p) q = some ⟨seq, crc32 p⟩ := by
  simp [validate, decodeHeader_encodeHeader, crc32_congr h]

inductive SdError
  | notPresent
  | noCard
  | unsupported
  | timeout
  | transport
deriving DecidableEq

structure Card where
  sectors : UInt32 → Bytes
  faults : List (Option SdError)
  accessed : List UInt32

abbrev Sdhci := EStateM SdError Card

variable {data : Bytes} {e : SdError} {rest : List (Option SdError)} {n cut : ℕ} {card : Card}
  {lba partLba : UInt32} {winner : Option Slot}

def issue (lba : UInt32) : Sdhci Unit := fun card =>
  let card' := { card with faults := card.faults.tail, accessed := lba :: card.accessed }
  match card.faults.head? with
  | some (some e) => .error e card'
  | _ => .ok () card'

def readBlock (lba : UInt32) : Sdhci Bytes := do
  issue lba
  return (← get).sectors lba

def writeBlock (lba : UInt32) (data : Bytes) : Sdhci Unit := do
  issue lba
  modify fun card => { card with sectors := update card.sectors lba data }

def readPayloadFrom (partLba : UInt32) (slot : Slot) : ℕ → ℕ → Bytes → Sdhci Bytes
  | 0, _, out => pure out
  | n + 1, s, out => do
    let sector ← readBlock (partLba + slot.payloadSector + UInt32.ofNat s)
    readPayloadFrom partLba slot n (s + 1) (blit out (s * sectorSize) sectorSize sector)

def readPayload (partLba : UInt32) (slot : Slot) : Sdhci Bytes :=
  readPayloadFrom partLba slot payloadSectors 0 fun _ => 0

def mediaLoad (partLba : UInt32) : Sdhci (Option (Slot × UInt64 × Bytes)) := do
  let headerA ← readBlock (partLba + Slot.A.headerSector)
  let headerB ← readBlock (partLba + Slot.B.headerSector)
  let payloadA ← readPayload partLba .A
  let payloadB ← readPayload partLba .B
  match pickWinner headerA payloadA headerB payloadB with
  | none => return none
  | some (.A, header) => return some (.A, header.seq, payloadA)
  | some (.B, header) => return some (.B, header.seq, payloadB)

def sectorOf (payload : Bytes) (s : ℕ) : Bytes :=
  blit (fun _ => 0) 0 sectorSize fun j => payload (s * sectorSize + j)

def writePayloadFrom (partLba : UInt32) (slot : Slot) (payload : Bytes) : ℕ → ℕ → Sdhci Unit
  | 0, _ => pure ()
  | n + 1, s => do
    writeBlock (partLba + slot.payloadSector + UInt32.ofNat s) (sectorOf payload s)
    writePayloadFrom partLba slot payload n (s + 1)

def mediaFlush (partLba : UInt32) (winner : Option Slot) (seq : UInt64) (payload : Bytes) :
    Sdhci (Slot × UInt64) := do
  let slot := nextSlot winner
  let next := seq + 1
  writePayloadFrom partLba slot payload payloadSectors 0
  writeBlock (partLba + slot.headerSector) (encodeHeader next payload)
  return (slot, next)

def mediaVerify (partLba : UInt32) (slot : Slot) (seq : UInt64) (payload : Bytes) :
    Sdhci Bool := do
  let header ← readBlock (partLba + slot.headerSector)
  let readBack ← readPayload partLba slot
  match validate header readBack with
  | some h => return h.seq = seq ∧ ∀ j < regionSize, readBack j = payload j
  | none => return false

theorem issue_ok (h : card.faults.head?.join = none) :
    issue lba card =
      .ok () { card with faults := card.faults.tail, accessed := lba :: card.accessed } := by
  unfold issue
  rcases hf : card.faults with _ | ⟨_ | e, rest⟩ <;> simp_all

theorem issue_error (h : card.faults = some e :: rest) :
    issue lba card = .error e { card with faults := rest, accessed := lba :: card.accessed } := by
  simp [issue, h]

theorem readBlock_ok (h : card.faults = []) :
    readBlock lba card = .ok (card.sectors lba) { card with accessed := lba :: card.accessed } := by
  unfold readBlock
  rw [bind_ok (issue_ok (by simp [h])), h]
  rfl

theorem writeBlock_ok (h : card.faults.head?.join = none) :
    writeBlock lba data card =
      .ok () ⟨update card.sectors lba data, card.faults.tail, lba :: card.accessed⟩ := by
  unfold writeBlock
  rw [bind_ok (issue_ok h)]
  rfl

theorem writeBlock_error (h : card.faults = some e :: rest) :
    writeBlock lba data card =
      .error e { card with faults := rest, accessed := lba :: card.accessed } :=
  bind_error (issue_error h)

def payloadAt (sectors : UInt32 → Bytes) (partLba : UInt32) (slot : Slot) : Bytes := fun j =>
  if j < regionSize then
    sectors (partLba + slot.payloadSector + UInt32.ofNat (j / sectorSize)) (j % sectorSize)
  else 0

private theorem readPayloadFrom_ok (partLba : UInt32) (slot : Slot) (n : ℕ) :
    ∀ (s : ℕ) (out : Bytes) (card : Card), card.faults = [] →
      ∃ accessed, readPayloadFrom partLba slot n s out card =
        .ok (fun j => if s * sectorSize ≤ j ∧ j < (s + n) * sectorSize then
            card.sectors (partLba + slot.payloadSector + UInt32.ofNat (j / sectorSize))
              (j % sectorSize)
          else out j) { card with accessed := accessed } := by
  induction n with
  | zero =>
    intro s out card _
    refine ⟨card.accessed, ?_⟩
    have hout : (fun j => if s * sectorSize ≤ j ∧ j < (s + 0) * sectorSize then
        card.sectors (partLba + slot.payloadSector + UInt32.ofNat (j / sectorSize))
          (j % sectorSize) else out j) = out := by
      funext j
      rw [if_neg (by rw [Nat.add_zero]; omega)]
    rw [hout]
    rfl
  | succ n ih =>
    intro s out card h
    rw [readPayloadFrom, bind_ok (readBlock_ok h)]
    obtain ⟨accessed, hrest⟩ := ih (s + 1) _ { card with
      accessed := (partLba + slot.payloadSector + UInt32.ofNat s) :: card.accessed } h
    refine ⟨accessed, hrest.trans (congrArg (EStateM.Result.ok · _) (funext fun j => ?_))⟩
    have hsize : sectorSize = 512 := rfl
    simp only [hsize]
    rcases lt_or_ge j (s * 512) with hlow | hlow
    · rw [if_neg (by omega), if_neg (by omega), blit_outside (by omega)]
    rcases lt_or_ge j ((s + 1) * 512) with hmid | hmid
    · obtain ⟨i, rfl⟩ := Nat.exists_eq_add_of_le hlow
      have hi : i < 512 := by omega
      rw [if_neg (by omega), if_pos (by omega), blit_inside hi]
      rw [show (s * 512 + i) / 512 = s by omega, show (s * 512 + i) % 512 = i by omega]
    rw [blit_outside (by omega)]
    by_cases hhigh : j < (s + (n + 1)) * 512
    · rw [if_pos (by omega), if_pos (by omega)]
    · rw [if_neg (by omega), if_neg (by omega)]

theorem readPayload_ok (card : Card) (partLba : UInt32) (slot : Slot) (h : card.faults = []) :
    ∃ accessed, readPayload partLba slot card =
      .ok (payloadAt card.sectors partLba slot) { card with accessed := accessed } := by
  obtain ⟨accessed, hread⟩ := readPayloadFrom_ok partLba slot payloadSectors 0 (fun _ => 0) card h
  refine ⟨accessed, hread.trans (congrArg (EStateM.Result.ok · _) (funext fun j => ?_))⟩
  have hsize : (0 + payloadSectors) * sectorSize = regionSize := rfl
  rw [hsize, Nat.zero_mul, payloadAt]
  simp only [Nat.zero_le, true_and]

def loaded (sectors : UInt32 → Bytes) (partLba : UInt32) : Option (Slot × UInt64 × Bytes) :=
  (pickWinner (sectors (partLba + Slot.A.headerSector)) (payloadAt sectors partLba .A)
    (sectors (partLba + Slot.B.headerSector)) (payloadAt sectors partLba .B)).map
      fun w => (w.1, w.2.seq, payloadAt sectors partLba w.1)

theorem mediaLoad_ok (card : Card) (partLba : UInt32) (h : card.faults = []) :
    ∃ accessed, mediaLoad partLba card =
      .ok (loaded card.sectors partLba) { card with accessed := accessed } := by
  unfold mediaLoad
  have hB : readBlock (partLba + Slot.B.headerSector)
      { card with accessed := (partLba + Slot.A.headerSector) :: card.accessed } = _ :=
    readBlock_ok h
  rw [bind_ok (readBlock_ok h), bind_ok hB]
  obtain ⟨accessedA, hA⟩ := readPayload_ok
    ⟨card.sectors, card.faults, (partLba + Slot.B.headerSector) ::
      (partLba + Slot.A.headerSector) :: card.accessed⟩ partLba .A h
  rw [bind_ok hA]
  obtain ⟨accessedB, hB⟩ := readPayload_ok ⟨card.sectors, card.faults, accessedA⟩ partLba .B h
  rw [bind_ok hB]
  refine ⟨accessedB, ?_⟩
  unfold loaded
  rcases pickWinner (card.sectors (partLba + Slot.A.headerSector))
    (payloadAt card.sectors partLba .A) (card.sectors (partLba + Slot.B.headerSector))
    (payloadAt card.sectors partLba .B) with _ | ⟨_ | _, header⟩ <;> rfl

def fill (partLba : UInt32) (slot : Slot) (payload : Bytes) :
    ℕ → ℕ → (UInt32 → Bytes) → UInt32 → Bytes
  | 0, _, sectors => sectors
  | n + 1, s, sectors => fill partLba slot payload n (s + 1) <|
    update sectors (partLba + slot.payloadSector + UInt32.ofNat s) (sectorOf payload s)

def cutAfter (cut : ℕ) : List (Option SdError) := List.replicate cut none ++ [some .timeout]

private theorem cutAfter_succ_head (cut : ℕ) : (cutAfter (cut + 1)).head?.join = none := rfl

private theorem cutAfter_succ_tail (cut : ℕ) : (cutAfter (cut + 1)).tail = cutAfter cut := rfl

theorem writePayloadFrom_ok (partLba : UInt32) (slot : Slot) (payload : Bytes) (hn : n ≤ cut) :
    ∀ (s : ℕ) (card : Card), card.faults = cutAfter cut →
      ∃ accessed, writePayloadFrom partLba slot payload n s card =
        .ok () ⟨fill partLba slot payload n s card.sectors, cutAfter (cut - n), accessed⟩ := by
  induction n generalizing cut with
  | zero =>
    intro s card h
    exact ⟨card.accessed, by rw [Nat.sub_zero, ← h]; rfl⟩
  | succ n ih =>
    intro s card h
    obtain ⟨cut, rfl⟩ := Nat.exists_eq_add_of_le' (Nat.le_trans (Nat.le_add_left 1 n) hn)
    rw [writePayloadFrom, bind_ok (writeBlock_ok (by rw [h, cutAfter_succ_head]))]
    obtain ⟨accessed, hrest⟩ := ih (show n ≤ cut by omega) (s + 1) ⟨_, card.faults.tail, _⟩
      (by rw [h, cutAfter_succ_tail])
    refine ⟨accessed, hrest.trans ?_⟩
    rw [Nat.add_sub_add_right]
    rfl

theorem writePayloadFrom_cut (partLba : UInt32) (slot : Slot) (payload : Bytes) (hn : cut < n) :
    ∀ (s : ℕ) (card : Card), card.faults = cutAfter cut →
      ∃ accessed, writePayloadFrom partLba slot payload n s card =
        .error .timeout ⟨fill partLba slot payload cut s card.sectors, [], accessed⟩ := by
  induction cut generalizing n with
  | zero =>
    intro s card h
    obtain ⟨n, rfl⟩ := Nat.exists_eq_add_of_le' hn
    exact ⟨_, bind_error (writeBlock_error h)⟩
  | succ cut ih =>
    intro s card h
    obtain ⟨n, rfl⟩ := Nat.exists_eq_add_of_le' (Nat.zero_lt_of_lt hn)
    rw [writePayloadFrom, bind_ok (writeBlock_ok (by rw [h, cutAfter_succ_head]))]
    exact ih (n := n) (by omega) (s + 1) ⟨_, card.faults.tail, _⟩ (by rw [h, cutAfter_succ_tail])

/-- A flush cut before its header leaves a prefix of the payload sectors. -/
theorem mediaFlush_cut (hcut : cut ≤ payloadSectors) (h : card.faults = cutAfter cut) :
    (after (mediaFlush partLba winner seq payload card)).sectors =
      fill partLba (nextSlot winner) payload cut 0 card.sectors := by
  unfold mediaFlush
  rcases Nat.lt_or_eq_of_le hcut with hlt | rfl
  · obtain ⟨accessed, hrun⟩ := writePayloadFrom_cut partLba (nextSlot winner) payload hlt 0 card h
    rw [bind_error hrun, after]
  · obtain ⟨accessed, hrun⟩ := writePayloadFrom_ok partLba (nextSlot winner) payload le_rfl 0 card h
    rw [bind_ok hrun, bind_error (writeBlock_error (by rw [Nat.sub_self]; rfl)), after]

/-- A flush that wrote its header wrote the whole payload before it. -/
theorem mediaFlush_complete (hcut : payloadSectors < cut) (h : card.faults = cutAfter cut) :
    (after (mediaFlush partLba winner seq payload card)).sectors =
      update (fill partLba (nextSlot winner) payload payloadSectors 0 card.sectors)
        (partLba + (nextSlot winner).headerSector) (encodeHeader (seq + 1) payload) := by
  unfold mediaFlush
  obtain ⟨accessed, hrun⟩ := writePayloadFrom_ok partLba (nextSlot winner) payload
    (Nat.le_of_lt hcut) 0 card h
  obtain ⟨cut, rfl⟩ := Nat.exists_eq_add_of_lt hcut
  rw [Nat.add_assoc, Nat.add_sub_cancel_left] at hrun
  rw [bind_ok hrun, bind_ok (writeBlock_ok (cutAfter_succ_head cut))]
  rfl

end HarborKernel.DurableMedia
