import HarborKernel.DurableMedia

/-!
The partition of the durable store (`mbr.rs`). Sector zero names the partition;
every command of the store addresses a sector at a fixed offset from its first
one. The offsets end below the smallest size a partition may have, but the sum
is taken modulo `2 ^ 32`.
-/

namespace HarborKernel.StorePartition

open ByteWords ErrorState DurableMedia

def storeType : UInt8 := 0x7F
def gptProtective : UInt8 := 0xEE

structure PartitionEntry where
  kind : UInt8
  firstLba : UInt32
  sectors : UInt32
deriving DecidableEq

inductive MbrError
  | noTable
  | gptProtective
deriving DecidableEq

def entryBase : ℕ := 446
def entryLen : ℕ := 16

def entry (sector0 : Bytes) (i : ℕ) : PartitionEntry :=
  let at' := entryBase + i * entryLen
  ⟨sector0 (at' + 4), UInt32.ofNat (readLe sector0 (at' + 8) 4),
    UInt32.ofNat (readLe sector0 (at' + 12) 4)⟩

def parseFrom (sector0 : Bytes) : ℕ → ℕ → Except MbrError (List PartitionEntry)
  | 0, _ => .ok []
  | n + 1, i =>
    let e := entry sector0 i
    if e.kind = gptProtective then .error .gptProtective
    else (parseFrom sector0 n (i + 1)).map (e :: ·)

def parse (sector0 : Bytes) : Except MbrError (List PartitionEntry) :=
  if sector0 510 ≠ 0x55 ∨ sector0 511 ≠ 0xAA then .error .noTable
  else parseFrom sector0 4 0

def findStorePartition (entries : List PartitionEntry) : Option (UInt32 × UInt32) :=
  (entries.find? fun e =>
    e.kind = storeType ∧ minPartitionSectors ≤ e.sectors ∧ e.firstLba ≠ 0).map
      fun e => (e.firstLba, e.sectors)

theorem findStorePartition_spec {entries : List PartitionEntry} {first sectors : UInt32}
    (h : findStorePartition entries = some (first, sectors)) :
    32 ≤ sectors.toNat ∧ first ≠ 0 := by
  obtain ⟨e, hfind, he⟩ := Option.map_eq_some_iff.1 h
  cases he
  have hok := List.find?_some hfind
  obtain ⟨-, hsize, hfirst⟩ := of_decide_eq_true hok
  exact ⟨UInt32.le_iff_toNat_le.1 hsize, hfirst⟩

def Stays {α : Type} (partLba : UInt32) (x : Sdhci α) : Prop :=
  ∀ card, ∀ lba ∈ (after (x card)).accessed,
    lba ∈ card.accessed ∨ ∃ off < 25, lba = partLba + UInt32.ofNat off

variable {α β : Type} {partLba : UInt32}

theorem Stays.pure (a : α) : Stays partLba (pure a) := fun _ _ h => .inl h

theorem Stays.bind {x : Sdhci α} {f : α → Sdhci β} (hx : Stays partLba x)
    (hf : ∀ a, Stays partLba (f a)) : Stays partLba (x >>= f) := by
  intro card lba hmem
  have hcard := hx card lba
  rcases hrun : x card with ⟨a, card'⟩ | ⟨e, card'⟩
  · rw [bind_ok hrun] at hmem
    rw [hrun] at hcard
    rcases hf a card' lba hmem with hold | hoff
    · exact hcard hold
    · exact .inr hoff
  rw [bind_error hrun] at hmem
  rw [hrun] at hcard
  exact hcard hmem

theorem Stays.issue {off : ℕ} (hoff : off < 25) :
    Stays partLba (issue (partLba + UInt32.ofNat off)) := by
  intro card lba hmem
  have haccessed : (after (DurableMedia.issue (partLba + UInt32.ofNat off) card)).accessed =
      (partLba + UInt32.ofNat off) :: card.accessed := by
    unfold DurableMedia.issue
    rcases card.faults.head? with _ | _ | e <;> rfl
  rw [haccessed] at hmem
  rcases List.mem_cons.1 hmem with rfl | hold
  · exact .inr ⟨off, hoff, rfl⟩
  · exact .inl hold

theorem Stays.readBlock {off : ℕ} (hoff : off < 25) :
    Stays partLba (readBlock (partLba + UInt32.ofNat off)) :=
  (Stays.issue hoff).bind fun _ _ _ h => .inl h

theorem Stays.writeBlock {off : ℕ} {data : Bytes} (hoff : off < 25) :
    Stays partLba (writeBlock (partLba + UInt32.ofNat off) data) :=
  (Stays.issue hoff).bind fun _ _ _ h => .inl h

private theorem payload_offset (partLba : UInt32) (slot : Slot) {s : ℕ} (hs : s < payloadSectors) :
    ∃ off < 25, partLba + slot.payloadSector + UInt32.ofNat s = partLba + UInt32.ofNat off := by
  have hs' : s < 8 := hs
  refine ⟨slot.payloadSector.toNat + s, ?_, ?_⟩
  · cases slot
    · change 1 + s < 25
      omega
    · change 17 + s < 25
      omega
  · rw [UInt32.add_assoc, UInt32.ofNat_add, UInt32.ofNat_toNat]

private theorem header_offset (partLba : UInt32) (slot : Slot) :
    ∃ off < 25, partLba + slot.headerSector = partLba + UInt32.ofNat off := by
  cases slot
  · exact ⟨0, by decide, rfl⟩
  · exact ⟨16, by decide, rfl⟩

theorem Stays.readHeader (slot : Slot) :
    Stays partLba (DurableMedia.readBlock (partLba + slot.headerSector)) := by
  obtain ⟨off, hoff, heq⟩ := header_offset partLba slot
  rw [heq]
  exact Stays.readBlock hoff

theorem Stays.readPayloadFrom (slot : Slot) (n : ℕ) :
    ∀ (s : ℕ) (out : Bytes), s + n ≤ payloadSectors →
      Stays partLba (readPayloadFrom partLba slot n s out) := by
  induction n with
  | zero => exact fun _ out _ => Stays.pure out
  | succ n ih =>
    intro s out hs
    obtain ⟨off, hoff, heq⟩ := payload_offset partLba slot (s := s) (by omega)
    rw [DurableMedia.readPayloadFrom, heq]
    exact (Stays.readBlock hoff).bind fun _ => ih (s + 1) _ (by omega)

theorem Stays.readPayload (slot : Slot) : Stays partLba (readPayload partLba slot) :=
  Stays.readPayloadFrom slot payloadSectors 0 _ (by omega)

theorem Stays.writePayloadFrom (slot : Slot) (payload : Bytes) (n : ℕ) :
    ∀ s, s + n ≤ payloadSectors → Stays partLba (writePayloadFrom partLba slot payload n s) := by
  induction n with
  | zero => exact fun _ _ => Stays.pure ()
  | succ n ih =>
    intro s hs
    obtain ⟨off, hoff, heq⟩ := payload_offset partLba slot (s := s) (by omega)
    rw [DurableMedia.writePayloadFrom, heq]
    exact (Stays.writeBlock hoff).bind fun _ => ih (s + 1) (by omega)

theorem Stays.mediaLoad : Stays partLba (mediaLoad partLba) := by
  refine (Stays.readHeader .A).bind fun headerA => (Stays.readHeader .B).bind fun headerB =>
    (Stays.readPayload .A).bind fun payloadA => (Stays.readPayload .B).bind fun payloadB => ?_
  rcases pickWinner headerA payloadA headerB payloadB with _ | ⟨_ | _, header⟩
  all_goals exact Stays.pure _

theorem Stays.mediaFlush (winner : Option Slot) (seq : UInt64) (payload : Bytes) :
    Stays partLba (mediaFlush partLba winner seq payload) := by
  obtain ⟨off, hoff, heq⟩ := header_offset partLba (nextSlot winner)
  refine (Stays.writePayloadFrom (nextSlot winner) payload _ 0 (by omega)).bind fun _ => ?_
  rw [heq]
  exact (Stays.writeBlock hoff).bind fun _ => Stays.pure _

theorem Stays.mediaVerify (slot : Slot) (seq : UInt64) (payload : Bytes) :
    Stays partLba (mediaVerify partLba slot seq payload) := by
  refine (Stays.readHeader slot).bind fun header => (Stays.readPayload slot).bind fun out => ?_
  rcases validate header out with _ | h
  all_goals exact Stays.pure _

inductive Request
  | load
  | flush (winner : Option Slot) (seq : UInt64) (payload : Bytes)
  | verify (slot : Slot) (seq : UInt64) (payload : Bytes)

def Request.issued (card : Card) (first : UInt32) : Request → List UInt32
  | .load => (after (mediaLoad first { card with accessed := [] })).accessed
  | .flush winner seq payload =>
    (after (mediaFlush first winner seq payload { card with accessed := [] })).accessed
  | .verify slot seq payload =>
    (after (mediaVerify first slot seq payload { card with accessed := [] })).accessed

theorem Request.issued_offset {card : Card} {first lba : UInt32} {request : Request}
    (h : lba ∈ request.issued card first) : ∃ off < 25, lba = first + UInt32.ofNat off := by
  have hnew : lba ∈ ([] : List UInt32) ∨ ∃ off < 25, lba = first + UInt32.ofNat off := by
    cases request with
    | load => exact Stays.mediaLoad _ lba h
    | flush winner seq payload => exact Stays.mediaFlush winner seq payload _ lba h
    | verify slot seq payload => exact Stays.mediaVerify slot seq payload _ lba h
  exact hnew.resolve_left List.not_mem_nil

theorem Request.issues_last (first : UInt32) :
    first + 24 ∈ (Request.flush (some .A) 0 fun _ => 0).issued ⟨fun _ _ => 0, [], []⟩ first := by
  have hlast : first + Slot.B.payloadSector + UInt32.ofNat 7 = first + 24 := UInt32.add_assoc ..
  rw [← hlast]
  exact List.mem_of_getElem? (i := 1) rfl

/-- Every command of the store addresses a sector of the partition if and only if the partition
does not start in the last 24 sectors of the address space. -/
theorem store_io_in_partition (sector0 : Bytes) (first sectors : UInt32)
    (hfind : ∃ entries, parse sector0 = .ok entries ∧
      findStorePartition entries = some (first, sectors)) :
    (∀ (card : Card) (request : Request), ∀ lba ∈ request.issued card first,
      first.toNat ≤ lba.toNat ∧ lba.toNat < first.toNat + sectors.toNat ∧ lba ≠ 0) ↔
      first.toNat + 24 < 2 ^ 32 := by
  obtain ⟨entries, -, hfind⟩ := hfind
  have hsum : ∀ off < 25, (first + UInt32.ofNat off).toNat = (first.toNat + off) % 2 ^ 32 := by
    intro off hoff
    rw [UInt32.toNat_add, UInt32.toNat_ofNat_of_lt' (by change off < 2 ^ 32; omega)]
  constructor
  · intro hin
    have hlow := (hin _ _ _ (Request.issues_last first)).1
    have hlast : (first + 24).toNat = (first.toNat + 24) % 2 ^ 32 := hsum 24 (by decide)
    have hfirst := first.toNat_lt
    omega
  intro hend card request lba hmem
  obtain ⟨hsize, hfirst⟩ := findStorePartition_spec hfind
  obtain ⟨off, hoff, rfl⟩ := Request.issued_offset hmem
  have hpos : first.toNat ≠ 0 := fun h => hfirst (UInt32.toNat_inj.1 h)
  have hoffset := hsum off hoff
  rw [Nat.mod_eq_of_lt (by omega)] at hoffset
  refine ⟨by omega, by omega, fun hzero => ?_⟩
  rw [hzero] at hoffset
  change 0 = _ at hoffset
  omega

def storeSector (first : ℕ) : Bytes :=
  let sector := writeLe (fun _ => 0) (entryBase + 4) 1 storeType.toNat
  let sector := writeLe sector (entryBase + 8) 4 first
  let sector := writeLe sector (entryBase + 12) 4 64
  writeLe sector 510 2 0xAA55

theorem store_io_in_partition_2048 :
    ∃ entries, parse (storeSector 2048) = .ok entries ∧
      findStorePartition entries = some (2048, 64) ∧
      ∀ (card : Card) (request : Request), ∀ lba ∈ request.issued card 2048,
        2048 ≤ lba.toNat ∧ lba.toNat < 2048 + 64 ∧ lba ≠ 0 :=
  ⟨_, rfl, by decide +kernel,
    (store_io_in_partition (storeSector 2048) 2048 64 ⟨_, rfl, by decide +kernel⟩).2 (by decide)⟩

/-- A store at the end of the address space flushes its header over sector zero. -/
theorem store_io_wraps :
    ∃ sector0 entries first sectors request card,
      parse sector0 = .ok entries ∧ findStorePartition entries = some (first, sectors) ∧
        ∃ lba ∈ Request.issued card first request, lba = 0 ∧ lba.toNat < first.toNat :=
  ⟨storeSector 0xFFFFFFF0, _, 0xFFFFFFF0, 64, .flush (some .A) 1 fun _ => 0,
    ⟨fun _ _ => 0, [], []⟩, rfl, by decide +kernel, 0, by decide +kernel, rfl, by decide⟩

end HarborKernel.StorePartition
