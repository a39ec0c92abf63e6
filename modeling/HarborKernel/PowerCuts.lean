import HarborKernel.DurableMedia
import Mathlib.Data.List.Induction

/-!
Power cuts. Each boot loads the store and then flushes at most one payload into
the slot that did not win, and the power may go after any number of the flush's
writes. The invariant keeps the winning slot whole and its sequence number above
whatever the other header says, so that a half-written payload under an old
header loses to the winner whatever its checksum is.
-/

namespace HarborKernel.DurableMedia

open Function ByteWords ErrorState

/-- A boot that flushes `payload` and loses power after `cut` writes, or one that only loads. -/
structure Boot where
  flush : Option (Bytes × ℕ)

def Boot.committed (b : Boot) : Option Bytes :=
  b.flush.bind fun f => if payloadSectors < f.2 then some f.1 else none

def boot (partLba : UInt32) (sectors : UInt32 → Bytes) (b : Boot) : UInt32 → Bytes :=
  match mediaLoad partLba ⟨sectors, [], []⟩, b.flush with
  | .ok found card, some (payload, cut) =>
    let winner := found.map (·.1)
    let seq := (found.map (·.2.1)).getD 0
    (after (mediaFlush partLba winner seq payload { card with faults := cutAfter cut })).sectors
  | _, _ => sectors

def boots (partLba : UInt32) (sectors : UInt32 → Bytes) (bs : List Boot) : UInt32 → Bytes :=
  bs.foldl (boot partLba) sectors

theorem boots_concat (partLba : UInt32) (sectors : UInt32 → Bytes) (bs : List Boot) (b : Boot) :
    boots partLba sectors (bs ++ [b]) = boot partLba (boots partLba sectors bs) b := by
  rw [boots, boots, List.foldl_append, List.foldl_cons, List.foldl_nil]

def Slot.other : Slot → Slot
  | .A => .B
  | .B => .A

theorem nextSlot_some (slot : Slot) : nextSlot (some slot) = slot.other := by cases slot <;> rfl

variable {s t n : ℕ} {slot' : Slot}

private theorem payload_ne_header (slot slot' : Slot) (hs : s < 8) (partLba : UInt32) :
    partLba + slot'.headerSector ≠ partLba + slot.payloadSector + UInt32.ofNat s := by
  rw [UInt32.add_assoc]
  intro h
  have h' := (UInt32.add_right_inj partLba).1 h
  revert h'
  cases slot <;> cases slot' <;> interval_cases s <;> decide

private theorem payload_ne_payload (slot : Slot) (hs : s < 8) (ht : t < 8) (partLba : UInt32) :
    partLba + slot.other.payloadSector + UInt32.ofNat t ≠
      partLba + slot.payloadSector + UInt32.ofNat s := by
  rw [UInt32.add_assoc, UInt32.add_assoc]
  intro h
  have h' := (UInt32.add_right_inj partLba).1 h
  revert h'
  cases slot <;> interval_cases s <;> interval_cases t <;> decide

private theorem payload_inj (slot : Slot) (hs : s < 8) (ht : t < 8) (partLba : UInt32)
    (h : partLba + slot.payloadSector + UInt32.ofNat t =
      partLba + slot.payloadSector + UInt32.ofNat s) : t = s := by
  have h' := (UInt32.add_right_inj _).1 h
  have hnat := congrArg UInt32.toNat h'
  rw [UInt32.toNat_ofNat_of_lt' (by change t < 2 ^ 32; omega),
    UInt32.toNat_ofNat_of_lt' (by change s < 2 ^ 32; omega)] at hnat
  exact hnat

private theorem headers_ne (partLba : UInt32) (slot : Slot) :
    partLba + slot.headerSector ≠ partLba + slot.other.headerSector := by
  intro h
  have h' := (UInt32.add_right_inj partLba).1 h
  revert h'
  cases slot <;> decide

variable {partLba : UInt32} {sectors : UInt32 → Bytes} {slot : Slot} {payload : Bytes}
    {ps : List Bytes}

theorem fill_of_ne {lba : UInt32} (n : ℕ) :
    ∀ (s : ℕ) (sectors : UInt32 → Bytes),
      (∀ t, s ≤ t → t < s + n → lba ≠ partLba + slot.payloadSector + UInt32.ofNat t) →
      fill partLba slot payload n s sectors lba = sectors lba := by
  induction n with
  | zero => exact fun _ _ _ => rfl
  | succ n ih =>
    intro s sectors h
    rw [fill, ih (s + 1) _ fun t hs ht => h t (by omega) (by omega)]
    exact update_of_ne (h s le_rfl (by omega)) _ _

theorem fill_payload (n : ℕ) :
    ∀ (s : ℕ) (sectors : UInt32 → Bytes) (t : ℕ), s + n ≤ 8 → s ≤ t → t < s + n →
      fill partLba slot payload n s sectors (partLba + slot.payloadSector + UInt32.ofNat t) =
        sectorOf payload t := by
  induction n with
  | zero => exact fun _ _ _ _ _ _ => by omega
  | succ n ih =>
    intro s sectors t hn hs ht
    rcases Nat.lt_or_eq_of_le hs with hlt | rfl
    · exact ih (s + 1) _ t (by omega) hlt (by omega)
    rw [fill, fill_of_ne]
    · exact update_self ..
    intro t hs' ht' heq
    have := payload_inj slot (by omega) (by omega) partLba heq
    omega

theorem fill_header (hn : n ≤ payloadSectors) :
    fill partLba slot payload n 0 sectors (partLba + slot'.headerSector) =
      sectors (partLba + slot'.headerSector) := by
  have hsize : payloadSectors = 8 := rfl
  exact fill_of_ne n 0 sectors fun t _ ht => payload_ne_header slot slot' (by omega) partLba

theorem payloadAt_fill_other (partLba : UInt32) (slot : Slot) (payload : Bytes)
    (sectors : UInt32 → Bytes) (hn : n ≤ payloadSectors) :
    payloadAt (fill partLba slot payload n 0 sectors) partLba slot.other =
      payloadAt sectors partLba slot.other := by
  have hsize : payloadSectors = 8 := rfl
  funext j
  unfold payloadAt
  by_cases hj : j < regionSize
  · have hdiv : j / sectorSize < 8 := Nat.div_lt_of_lt_mul hj
    rw [if_pos hj, if_pos hj]
    rw [fill_of_ne n 0 sectors fun t _ ht => payload_ne_payload slot (by omega) hdiv partLba]
  · rw [if_neg hj, if_neg hj]

theorem payloadAt_fill {j : ℕ} (hj : j < regionSize) :
    payloadAt (fill partLba slot payload payloadSectors 0 sectors) partLba slot j = payload j := by
  have hdiv : j / sectorSize < payloadSectors := Nat.div_lt_of_lt_mul hj
  have hmod : j % sectorSize < sectorSize := Nat.mod_lt _ (by decide)
  have hblit : blit (fun _ => 0) 0 sectorSize
      (fun i => payload (j / sectorSize * sectorSize + i)) (0 + j % sectorSize) = _ :=
    blit_inside hmod
  rw [Nat.zero_add] at hblit
  rw [payloadAt, if_pos hj, fill_payload _ 0 _ _ (by decide) (Nat.zero_le _) (by omega), sectorOf,
    hblit, Nat.div_add_mod']

theorem payloadAt_update_header {data : Bytes} :
    payloadAt (update sectors (partLba + slot'.headerSector) data) partLba slot =
      payloadAt sectors partLba slot := by
  funext j
  unfold payloadAt
  by_cases hj : j < regionSize
  · have hdiv : j / sectorSize < 8 := Nat.div_lt_of_lt_mul hj
    rw [if_pos hj, if_pos hj, update_of_ne]
    exact (payload_ne_header slot slot' hdiv partLba).symm
  · rw [if_neg hj, if_neg hj]

def Outdated (header : Bytes) (n : ℕ) : Prop :=
  ∀ h, decodeHeader header = some h → h.seq.toNat < n

/-- The store holds the last of the committed payloads, numbered by how many there were. -/
inductive Holds (partLba : UInt32) (sectors : UInt32 → Bytes) : List Bytes → Prop
  | fresh (h : ∀ slot : Slot, decodeHeader (sectors (partLba + slot.headerSector)) = none) :
      Holds partLba sectors []
  | won (slot : Slot) (seq : UInt64) (ps : List Bytes) (p : Bytes)
      (hseq : seq.toNat = ps.length + 1)
      (hheader : sectors (partLba + slot.headerSector) = encodeHeader seq p)
      (hpayload : ∀ j, j < regionSize → payloadAt sectors partLba slot j = p j)
      (hother : Outdated (sectors (partLba + slot.other.headerSector)) seq.toNat) :
      Holds partLba sectors (ps ++ [p])

theorem validate_none {header : Bytes} (h : decodeHeader header = none) :
    validate header payload = none := by
  rw [validate, h]

/-- The winner is the slot that validates with the higher sequence number. -/
theorem loaded_winner {h : Header}
    (hslot : validate (sectors (partLba + slot.headerSector)) (payloadAt sectors partLba slot) =
      some h) (hother : Outdated (sectors (partLba + slot.other.headerSector)) h.seq.toNat) :
    loaded sectors partLba = some (slot, h.seq, payloadAt sectors partLba slot) := by
  have hlt : ∀ h', validate (sectors (partLba + slot.other.headerSector))
      (payloadAt sectors partLba slot.other) = some h' → h'.seq < h.seq :=
    fun h' hv => UInt64.lt_iff_toNat_lt.2 (hother h' (validate_some hv))
  unfold loaded pickWinner
  cases slot with
  | A =>
    rw [hslot]
    rcases hv : validate (sectors (partLba + Slot.B.headerSector))
      (payloadAt sectors partLba .B) with _ | h'
    · rfl
    · simp [UInt64.le_of_lt (hlt h' hv)]
  | B =>
    rw [hslot]
    rcases hv : validate (sectors (partLba + Slot.A.headerSector))
      (payloadAt sectors partLba .A) with _ | h'
    · rfl
    · simp [UInt64.not_le.2 (hlt h' hv)]

theorem loaded_fresh
    (h : ∀ slot : Slot, decodeHeader (sectors (partLba + slot.headerSector)) = none) :
    loaded sectors partLba = none := by
  rw [loaded, pickWinner, validate_none (h .A), validate_none (h .B)]
  rfl

theorem loaded_won {seq : UInt64} {p : Bytes}
    (hheader : sectors (partLba + slot.headerSector) = encodeHeader seq p)
    (hpayload : ∀ j, j < regionSize → payloadAt sectors partLba slot j = p j)
    (hother : Outdated (sectors (partLba + slot.other.headerSector)) seq.toNat) :
    loaded sectors partLba = some (slot, seq, payloadAt sectors partLba slot) := by
  have hvalid : validate (encodeHeader seq p) _ = _ := validate_encode hpayload
  rw [← hheader] at hvalid
  exact loaded_winner hvalid hother

theorem boot_flush (partLba : UInt32) (sectors : UInt32 → Bytes) (payload : Bytes) (cut : ℕ) :
    ∃ accessed, boot partLba sectors ⟨some (payload, cut)⟩ =
      (after (mediaFlush partLba ((loaded sectors partLba).map (·.1))
        (((loaded sectors partLba).map (·.2.1)).getD 0) payload
        ⟨sectors, cutAfter cut, accessed⟩)).sectors := by
  obtain ⟨accessed, hload⟩ := mediaLoad_ok ⟨sectors, [], []⟩ partLba rfl
  refine ⟨accessed, ?_⟩
  simp only [boot, hload]

private theorem Holds.torn {cut : ℕ} (h : Holds partLba sectors ps) (hcut : cut ≤ payloadSectors) :
    Holds partLba (fill partLba (nextSlot ((loaded sectors partLba).map (·.1))) payload cut 0
      sectors) ps := by
  cases h with
  | fresh h => exact .fresh fun slot => by rw [fill_header hcut, h slot]
  | won slot seq ps p hseq hheader hpayload hother =>
    rw [loaded_won hheader hpayload hother, Option.map_some, nextSlot_some]
    have hsame := payloadAt_fill_other partLba slot.other payload sectors hcut
    have hslot : slot.other.other = slot := by cases slot <;> rfl
    rw [hslot] at hsame
    refine .won slot seq ps p hseq ?_ ?_ ?_
    · rw [fill_header hcut, hheader]
    · intro j hj
      rw [hsame, hpayload j hj]
    · rwa [fill_header hcut]

private theorem Holds.complete (h : Holds partLba sectors ps) (hlen : ps.length + 1 < 2 ^ 64) :
    Holds partLba (update
      (fill partLba (nextSlot ((loaded sectors partLba).map (·.1))) payload payloadSectors 0
        sectors)
      (partLba + (nextSlot ((loaded sectors partLba).map (·.1))).headerSector)
      (encodeHeader (((loaded sectors partLba).map (·.2.1)).getD 0 + 1) payload))
      (ps ++ [payload]) := by
  -- The other header is the previous winner's, or none.
  have hstep : ∀ (slot : Slot) (seq : UInt64), seq.toNat = ps.length →
      Outdated (sectors (partLba + slot.other.headerSector)) (seq.toNat + 1) →
      Holds partLba (update (fill partLba slot payload payloadSectors 0 sectors)
        (partLba + slot.headerSector) (encodeHeader (seq + 1) payload)) (ps ++ [payload]) := by
    intro slot seq hseq hother
    have hnext : (seq + 1).toNat = seq.toNat + 1 := by
      rw [UInt64.toNat_add, hseq]
      exact Nat.mod_eq_of_lt hlen
    refine .won slot (seq + 1) ps payload (by rw [hnext, hseq]) (update_self ..) ?_ ?_
    · intro j hj
      rw [payloadAt_update_header, payloadAt_fill hj]
    · rw [update_of_ne (headers_ne partLba slot).symm, fill_header le_rfl, hnext]
      exact hother
  cases h with
  | fresh h =>
    rw [loaded_fresh h]
    refine hstep .A 0 rfl fun header hdec => ?_
    rw [h] at hdec
    contradiction
  | won slot seq ps p hseq hheader hpayload hother =>
    rw [loaded_won hheader hpayload hother, Option.map_some, Option.map_some, nextSlot_some]
    refine hstep slot.other seq (by rw [hseq, List.length_append]; rfl) fun header hdec => ?_
    have hslot : slot.other.other = slot := by cases slot <;> rfl
    rw [hslot, hheader, decodeHeader_encodeHeader] at hdec
    cases hdec
    exact Nat.lt_succ_self _

theorem Holds.boot {b : Boot} (h : Holds partLba sectors ps)
    (hlen : ps.length + 1 < 2 ^ 64 ∨ b.committed = none) :
    Holds partLba (boot partLba sectors b) (ps ++ b.committed.toList) := by
  rcases b with ⟨_ | ⟨payload, cut⟩⟩
  · have hsame : DurableMedia.boot partLba sectors ⟨none⟩ = sectors := by
      unfold DurableMedia.boot
      split <;> simp_all
    rw [hsame]
    simpa [Boot.committed] using h
  obtain ⟨accessed, hboot⟩ := boot_flush partLba sectors payload cut
  rw [hboot]
  by_cases hcut : payloadSectors < cut
  · have hcommitted : Boot.committed ⟨some (payload, cut)⟩ = some payload := if_pos hcut
    rw [hcommitted] at hlen ⊢
    rw [mediaFlush_complete hcut rfl]
    exact h.complete (hlen.resolve_right (by simp))
  have hcommitted : Boot.committed ⟨some (payload, cut)⟩ = none := if_neg hcut
  rw [hcommitted, mediaFlush_cut (Nat.le_of_not_lt hcut) rfl, Option.toList_none,
    List.append_nil]
  exact h.torn (Nat.le_of_not_lt hcut)

def flushes (bs : List Boot) : ℕ := bs.countP (·.flush.isSome)

theorem committed_le_flushes (bs : List Boot) :
    (bs.filterMap Boot.committed).length ≤ flushes bs := by
  rw [List.length_filterMap_eq_countP]
  refine List.countP_mono_left fun b _ hb => ?_
  rcases b with ⟨_ | f⟩
  · simp [Boot.committed] at hb
  · rfl

theorem boots_holds
    (hfresh : ∀ slot : Slot, decodeHeader (sectors (partLba + slot.headerSector)) = none)
    (bs : List Boot) (hflushes : flushes bs < 2 ^ 64) :
    Holds partLba (boots partLba sectors bs) (bs.filterMap Boot.committed) := by
  induction bs using List.reverseRecOn with
  | nil => exact .fresh hfresh
  | append_singleton bs b ih =>
    have hcount : flushes (bs ++ [b]) = flushes bs + flushes [b] := List.countP_append ..
    have hprev := committed_le_flushes bs
    have hlast : List.filterMap Boot.committed [b] = b.committed.toList := by
      cases hb : b.committed <;> simp [hb]
    have hroom : (bs.filterMap Boot.committed).length + 1 < 2 ^ 64 ∨ b.committed = none := by
      by_cases hb : b.committed = none
      · exact .inr hb
      have hflush : flushes [b] = 1 := by
        rcases b with ⟨_ | f⟩
        · exact absurd rfl hb
        · rfl
      exact .inl (by omega)
    rw [boots_concat, List.filterMap_append, hlast]
    exact (ih (by omega)).boot hroom

/-- What a load found is the last of the committed payloads, with their number. -/
def Finds (found : Option (Slot × UInt64 × Bytes)) (committed : List Bytes) : Prop :=
  match found, committed.getLast? with
  | none, none => True
  | some (_, seq, out), some payload =>
    seq.toNat = committed.length ∧ ∀ j, j < regionSize → out j = payload j
  | _, _ => False

theorem Holds.finds (h : Holds partLba sectors ps) : Finds (loaded sectors partLba) ps := by
  cases h with
  | fresh h => simp [loaded_fresh h, Finds]
  | won slot seq ps p hseq hheader hpayload hother =>
    have hlast : (ps ++ [p]).getLast? = some p := List.getLast?_concat
    have hlen : (ps ++ [p]).length = ps.length + 1 := List.length_append
    simp only [loaded_won hheader hpayload hother, Finds, hlast, hlen]
    exact ⟨hseq, hpayload⟩

/-- From a partition in which no header decodes, through any boots and any power cuts, a load
returns the payload of the last flush whose header was written, numbered by how many such
flushes there were. -/
theorem load_after_boots (partLba : UInt32) (sectors : UInt32 → Bytes)
    (hfresh : ∀ slot : Slot, decodeHeader (sectors (partLba + slot.headerSector)) = none)
    (bs : List Boot) (hflushes : flushes bs < 2 ^ 64) :
    ∃ found card, mediaLoad partLba ⟨boots partLba sectors bs, [], []⟩ = .ok found card ∧
      Finds found (bs.filterMap Boot.committed) := by
  obtain ⟨accessed, hload⟩ := mediaLoad_ok ⟨boots partLba sectors bs, [], []⟩ partLba rfl
  exact ⟨_, _, hload, (boots_holds hfresh bs hflushes).finds⟩

/-- Two flushes, the second torn in its payload, on a blank card. -/
theorem load_after_boots_torn :
    ∃ found card, mediaLoad 2048 ⟨boots 2048 (fun _ _ => 0)
        [⟨some (fun _ => 7, 9)⟩, ⟨some (fun _ => 8, 3)⟩], [], []⟩ = .ok found card ∧
      Finds found [fun _ => 7] :=
  load_after_boots 2048 (fun _ _ => 0) (fun _ => by decide)
    [⟨some (fun _ => 7, 9)⟩, ⟨some (fun _ => 8, 3)⟩] (by decide)

end HarborKernel.DurableMedia
