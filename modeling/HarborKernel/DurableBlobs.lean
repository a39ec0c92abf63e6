import HarborKernel.ByteStrings

/-!
The durable region (`kernel-core/src/durable.rs`, `durable/mod.rs`): a header and up to
four records of a key and a payload. A put decodes the whole region, works on the list
and encodes it again, which first clears the region; the bound on four records is what
makes sure that an encoding which has begun does not fail.
-/

namespace HarborKernel.DurableBlobs

open ByteStrings

def magic : ℕ := 0x42525544

def version : ℕ := 1
def maxBlobs : ℕ := 4
def maxKeyLen : ℕ := 16
def maxPayload : ℕ := 64
def regionSize : ℕ := 4096

inductive EncodeError
  | tooLarge
  | badKey
deriving DecidableEq

inductive DecodeError
  | tooShort
  | badMagic
  | badVersion
  | badCount
  | truncated
  | badKey
deriving DecidableEq

structure Blob where
  key : List UInt8
  payload : List UInt8
deriving DecidableEq

abbrev Region := List UInt8

def writeU32 (out : Region) (off v : ℕ) : Except EncodeError Unit × Region :=
  if off + 4 ≤ out.length then (.ok (), writeAt out off (leBytes 4 v)) else (.error .tooLarge, out)

def readU32 (buf : Region) (off : ℕ) : Except DecodeError ℕ :=
  match slice buf off 4 with
  | some bytes => .ok (leNat bytes)
  | none => .error .truncated

def encodeFrom (out : Region) (off : ℕ) : List Blob → Except EncodeError ℕ × Region
  | [] => (.ok off, out)
  | b :: rest =>
    let klen := b.key.length
    let plen := b.payload.length
    if klen = 0 ∨ maxKeyLen < klen then (.error .badKey, out)
    else if maxPayload < plen then (.error .tooLarge, out)
    else if out.length < off + (klen + 1 + 2 + plen) then (.error .tooLarge, out)
    else
      let out := writeAt out off [UInt8.ofNat klen]
      let out := writeAt out (off + 1) b.key
      let out := writeAt out (off + 1 + klen)
        [UInt8.ofNat (plen &&& 0xff), UInt8.ofNat (plen >>> 8)]
      let out := writeAt out (off + 1 + klen + 2) b.payload
      encodeFrom out (off + 1 + klen + 2 + plen) rest

def encode (blobs : List Blob) (out : Region) : Except EncodeError ℕ × Region :=
  if out.length < 16 then (.error .tooLarge, out)
  else if maxBlobs < blobs.length then (.error .tooLarge, out)
  else
    let out := List.replicate out.length 0
    match writeU32 out 0 magic with
    | (.error e, out) => (.error e, out)
    | (.ok (), out) =>
      match writeU32 out 4 version with
      | (.error e, out) => (.error e, out)
      | (.ok (), out) =>
        match writeU32 out 8 blobs.length with
        | (.error e, out) => (.error e, out)
        | (.ok (), out) =>
          match writeU32 out 12 0 with
          | (.error e, out) => (.error e, out)
          | (.ok (), out) => encodeFrom out 16 blobs

def decodeFrom (buf : Region) : ℕ → ℕ → Except DecodeError (List Blob)
  | 0, _ => .ok []
  | n + 1, off =>
    match buf[off]? with
    | none => .error .truncated
    | some k =>
      let klen := k.toNat
      if klen = 0 ∨ maxKeyLen < klen then .error .badKey
      else match slice buf (off + 1) klen with
        | none => .error .truncated
        | some key =>
          match buf[off + 1 + klen]?, buf[off + 1 + klen + 1]? with
          | some lo, some hi =>
            let plen := lo.toNat ||| (hi.toNat <<< 8)
            if maxPayload < plen then .error .truncated
            else match slice buf (off + 1 + klen + 2) plen with
              | none => .error .truncated
              | some payload =>
                match decodeFrom buf n (off + 1 + klen + 2 + plen) with
                | .error e => .error e
                | .ok rest => .ok (⟨key, payload⟩ :: rest)
          | _, _ => .error .truncated

/-- The records of a region, where the source fills arrays of its caller. -/
def decode (buf : Region) : Except DecodeError (List Blob) :=
  if buf.length < 16 then .error .tooShort
  else match readU32 buf 0 with
    | .error e => .error e
    | .ok m =>
      if m ≠ magic then .error .badMagic
      else match readU32 buf 4 with
        | .error e => .error e
        | .ok v =>
          if v ≠ version then .error .badVersion
          else match readU32 buf 8 with
            | .error e => .error e
            | .ok count => if maxBlobs < count then .error .badCount else decodeFrom buf count 16

def replace (key payload : List UInt8) : List Blob → Option (List Blob)
  | [] => none
  | b :: rest =>
    if b.key = key then some ({ b with payload } :: rest)
    else (replace key payload rest).map (b :: ·)

def put (key payload : List UInt8) (r : Region) : Except EncodeError Unit × Region :=
  let blobs := match decode r with
    | .ok blobs => blobs
    | .error _ => []
  let finish (blobs : List Blob) : Except EncodeError Unit × Region :=
    match encode blobs r with
    | (.ok _, r') => (.ok (), r')
    | (.error e, r') => (.error e, r')
  match replace key payload blobs with
  | some blobs' => if maxPayload < payload.length then (.error .tooLarge, r) else finish blobs'
  | none =>
    if maxBlobs ≤ blobs.length then (.error .tooLarge, r)
    else if key.length = 0 ∨ maxKeyLen < key.length then (.error .badKey, r)
    else if maxPayload < payload.length then (.error .tooLarge, r)
    else finish (blobs ++ [⟨key, payload⟩])

def get (key : List UInt8) (room : ℕ) (r : Region) : Except DecodeError (List UInt8) :=
  match decode r with
  | .error e => .error e
  | .ok blobs =>
    match blobs.find? fun b => b.key = key with
    | none => .error .badKey
    | some b => if room < b.payload.length then .error .truncated else .ok b.payload

structure Blob.Valid (b : Blob) : Prop where
  key_pos : 0 < b.key.length
  key_le : b.key.length ≤ maxKeyLen
  payload_le : b.payload.length ≤ maxPayload

def record (b : Blob) : List UInt8 :=
  [UInt8.ofNat b.key.length] ++ b.key ++
    [UInt8.ofNat (b.payload.length &&& 0xff), UInt8.ofNat (b.payload.length >>> 8)] ++ b.payload

theorem length_record (b : Blob) :
    (record b).length = 1 + b.key.length + 2 + b.payload.length := by
  simp only [record, List.length_append, List.length_cons, List.length_nil]

variable {bs : List Blob} {r : Region}

theorem length_records (h : ∀ b ∈ bs, b.Valid) :
    (bs.flatMap record).length ≤ 83 * bs.length := by
  induction bs with
  | nil => exact Nat.le_refl 0
  | cons b rest ih =>
    have hb := h b (List.mem_cons_self ..)
    have hrest := ih fun c hc => h c (List.mem_cons_of_mem _ hc)
    have hkey := hb.key_le
    have hpay := hb.payload_le
    simp only [maxKeyLen, maxPayload] at hkey hpay
    rw [List.flatMap_cons, List.length_append, length_record, List.length_cons]
    omega

theorem encodeFrom_eq (h : ∀ b ∈ bs, b.Valid) : ∀ pre rest : List UInt8,
    (bs.flatMap record).length ≤ rest.length →
    encodeFrom (pre ++ rest) pre.length bs = (.ok (pre.length + (bs.flatMap record).length),
      pre ++ bs.flatMap record ++ rest.drop (bs.flatMap record).length) := by
  induction bs with
  | nil =>
    intro pre rest _
    simp [encodeFrom]
  | cons b bs ih =>
    intro pre rest hroom
    have hb := h b (List.mem_cons_self ..)
    have hk0 := hb.key_pos
    have hkey := hb.key_le
    have hpay := hb.payload_le
    have hrec := length_record b
    rw [List.flatMap_cons, List.length_append] at hroom
    have hbad : ¬ (b.key.length = 0 ∨ maxKeyLen < b.key.length) := by omega
    have hbig : ¬ maxPayload < b.payload.length := by omega
    have hfit : ¬ (pre ++ rest).length <
        pre.length + (b.key.length + 1 + 2 + b.payload.length) := by
      rw [List.length_append]
      omega
    -- the four writes append the bytes of the record
    have hwrite : writeAt (writeAt (writeAt (writeAt (pre ++ rest) pre.length
        [UInt8.ofNat b.key.length]) (pre.length + 1) b.key) (pre.length + 1 + b.key.length)
        [UInt8.ofNat (b.payload.length &&& 0xff), UInt8.ofNat (b.payload.length >>> 8)])
        (pre.length + 1 + b.key.length + 2) b.payload =
        (pre ++ record b) ++ rest.drop (record b).length := by
      have h1 := writeAt_append pre rest [UInt8.ofNat b.key.length]
      have h2 := writeAt_append (pre ++ [UInt8.ofNat b.key.length]) (rest.drop 1) b.key
      have h3 := writeAt_append (pre ++ [UInt8.ofNat b.key.length] ++ b.key)
        ((rest.drop 1).drop b.key.length)
        [UInt8.ofNat (b.payload.length &&& 0xff), UInt8.ofNat (b.payload.length >>> 8)]
      have h4 := writeAt_append (pre ++ [UInt8.ofNat b.key.length] ++ b.key ++
        [UInt8.ofNat (b.payload.length &&& 0xff), UInt8.ofNat (b.payload.length >>> 8)])
        (((rest.drop 1).drop b.key.length).drop 2) b.payload
      simp only [List.length_append, List.length_cons, List.length_nil, Nat.zero_add] at h1 h2 h3 h4
      have hdrop : ((((rest.drop 1).drop b.key.length).drop (1 + 1)).drop b.payload.length) =
          rest.drop (record b).length := by
        simp only [List.drop_drop, hrec]
      rw [h1, h2, h3, h4, hdrop]
      simp only [record, List.append_assoc]
    simp only [encodeFrom, if_neg hbad, if_neg hbig, if_neg hfit, hwrite]
    have hlen : (pre ++ record b).length =
        pre.length + 1 + b.key.length + 2 + b.payload.length := by
      rw [List.length_append, hrec]
      omega
    have hrest := ih (fun c hc => h c (List.mem_cons_of_mem _ hc)) (pre ++ record b)
      (rest.drop (record b).length) (by rw [List.length_drop]; omega)
    rw [hlen] at hrest
    rw [hrest]
    simp only [List.flatMap_cons, List.length_append, List.append_assoc, List.drop_drop, hrec]
    refine Prod.ext ?_ rfl
    simp only [Except.ok.injEq]
    omega

private theorem length_of_bytes : ∀ n ≤ maxPayload,
    (UInt8.ofNat (n &&& 0xff)).toNat ||| ((UInt8.ofNat (n >>> 8)).toNat <<< 8) = n := by
  decide

private theorem toNat_key_length : ∀ n ≤ maxKeyLen, (UInt8.ofNat n).toNat = n := by
  decide

theorem decodeFrom_eq {buf : Region} (h : ∀ b ∈ bs, b.Valid) : ∀ {off : ℕ},
    At buf off (bs.flatMap record) → decodeFrom buf bs.length off = .ok bs := by
  induction bs with
  | nil => exact fun _ => rfl
  | cons b bs ih =>
    intro off hat
    have hb := h b (List.mem_cons_self ..)
    have hk0 := hb.key_pos
    have hkey := hb.key_le
    have hpay := hb.payload_le
    rw [List.flatMap_cons, at_append] at hat
    obtain ⟨hrecord, hrest⟩ := hat
    have hnext := ih (fun c hc => h c (List.mem_cons_of_mem _ hc)) hrest
    simp only [length_record, ← Nat.add_assoc] at hnext
    simp only [record, at_append, List.length_append, List.length_cons, List.length_nil,
      Nat.zero_add, ← Nat.add_assoc] at hrecord
    obtain ⟨⟨⟨hklen, hkeyAt⟩, hplen⟩, hpayload⟩ := hrecord
    obtain ⟨hlo, hhi⟩ := at_cons.1 hplen
    have hbad : ¬ (b.key.length = 0 ∨ maxKeyLen < b.key.length) := by omega
    have hbig : ¬ maxPayload < b.payload.length := by omega
    simp only [List.length_cons, decodeFrom, hklen.byte, toNat_key_length _ hkey, if_neg hbad,
      hkeyAt.slice rfl, hlo.byte, hhi.byte, length_of_bytes _ hpay, if_neg hbig,
      hpayload.slice rfl, hnext]

theorem decodeFrom_valid (buf : Region) (n : ℕ) : ∀ (off : ℕ) (bs : List Blob),
    decodeFrom buf n off = .ok bs → bs.length = n ∧ ∀ b ∈ bs, b.Valid := by
  induction n with
  | zero =>
    intro off bs h
    cases h
    exact ⟨rfl, nofun⟩
  | succ n ih =>
    intro off bs h
    rw [decodeFrom] at h
    split at h
    · contradiction
    simp only at h
    split at h
    · contradiction
    rename_i hkeylen
    split at h
    · contradiction
    rename_i key hkey
    split at h
    · split at h
      · contradiction
      rename_i hplen
      split at h
      · contradiction
      rename_i payload hpayload
      split at h
      · contradiction
      rename_i rest hrest
      cases h
      obtain ⟨hlen, hvalid⟩ := ih _ rest hrest
      refine ⟨by rw [List.length_cons, hlen], fun b hb => ?_⟩
      rcases List.mem_cons.1 hb with rfl | hin
      · have hk := (slice_eq_some hkey).2.2
        have hp := (slice_eq_some hpayload).2.2
        exact ⟨by simp only; omega, by simp only; omega, by simp only; omega⟩
      · exact hvalid b hin
    · contradiction

theorem decode_valid (h : decode r = .ok bs) :
    bs.length ≤ maxBlobs ∧ ∀ b ∈ bs, b.Valid := by
  unfold decode at h
  split at h
  · contradiction
  split at h
  · contradiction
  split at h
  · contradiction
  split at h
  · contradiction
  split at h
  · contradiction
  split at h
  · contradiction
  split at h
  · contradiction
  rename_i hcount
  obtain ⟨hlen, hvalid⟩ := decodeFrom_valid r _ _ bs h
  exact ⟨by omega, hvalid⟩

def header (n : ℕ) : List UInt8 :=
  leBytes 4 magic ++ leBytes 4 version ++ leBytes 4 n ++ leBytes 4 0

theorem length_header (n : ℕ) : (header n).length = 16 := by
  simp only [header, List.length_append, length_leBytes]

private theorem writeU32_append (pre rest : List UInt8) (v : ℕ) (h : 4 ≤ rest.length) :
    writeU32 (pre ++ rest) pre.length v = (.ok (), pre ++ leBytes 4 v ++ rest.drop 4) := by
  have hroom : pre.length + 4 ≤ (pre ++ rest).length := by
    rw [List.length_append]
    omega
  rw [writeU32, if_pos hroom, writeAt_append, length_leBytes]

/-- Encoding at most four valid records succeeds and leaves them in the region. -/
theorem encode_eq (h : ∀ b ∈ bs, b.Valid) (hlen : bs.length ≤ maxBlobs)
    (hr : r.length = regionSize) :
    ∃ n tail, encode bs r = (.ok n, header bs.length ++ bs.flatMap record ++ tail) ∧
      (header bs.length ++ bs.flatMap record ++ tail).length = regionSize := by
  have hrecords := length_records h
  simp only [maxBlobs] at hlen
  have hshort : ¬ r.length < 16 := by
    rw [hr]
    decide
  have hmany : ¬ maxBlobs < bs.length := by
    simp only [maxBlobs]
    omega
  have hzeros : ∀ k, (List.replicate k (0 : UInt8)).length = k := fun k => List.length_replicate
  have h0 := writeU32_append [] (List.replicate regionSize 0) magic (by rw [hzeros]; decide)
  have h4 := writeU32_append (leBytes 4 magic) ((List.replicate regionSize 0).drop 4) version
    (by rw [List.length_drop, hzeros]; decide)
  have h8 := writeU32_append (leBytes 4 magic ++ leBytes 4 version)
    (((List.replicate regionSize 0).drop 4).drop 4) bs.length
    (by rw [List.length_drop, List.length_drop, hzeros]; decide)
  have h12 := writeU32_append (leBytes 4 magic ++ leBytes 4 version ++ leBytes 4 bs.length)
    ((((List.replicate regionSize 0).drop 4).drop 4).drop 4) 0
    (by rw [List.length_drop, List.length_drop, List.length_drop, hzeros]; decide)
  simp only [List.length_append, List.length_nil, length_leBytes, List.nil_append, Nat.reduceAdd]
    at h0 h4 h8 h12
  have hbody := encodeFrom_eq h (header bs.length)
    (((((List.replicate regionSize 0).drop 4).drop 4).drop 4).drop 4) (by
      simp only [List.length_drop, hzeros, regionSize]
      omega)
  rw [length_header] at hbody
  refine ⟨_, _, Eq.trans ?_ hbody, ?_⟩
  · simp only [encode, if_neg hmany, hr, h0, h4, h8, h12]
    rfl
  · simp only [List.length_append, length_header, List.length_drop, hzeros, regionSize]
    omega

private theorem readU32_at {buf : Region} {off v : ℕ} (h : At buf off (leBytes 4 v))
    (hv : v < 256 ^ 4) : readU32 buf off = .ok v := by
  rw [readU32, h.slice (length_leBytes 4 v).symm]
  simp only [leNat_leBytes hv]

theorem decode_records (h : ∀ b ∈ bs, b.Valid) (hlen : bs.length ≤ maxBlobs) (tail : List UInt8) :
    decode (header bs.length ++ bs.flatMap record ++ tail) = .ok bs := by
  have hat := At.intro [] (header bs.length ++ bs.flatMap record) tail
  rw [List.nil_append] at hat
  generalize hbuf : header bs.length ++ bs.flatMap record ++ tail = buf at hat ⊢
  have hshort : ¬ buf.length < 16 := by
    rw [← hbuf, List.length_append, List.length_append, length_header]
    omega
  simp only [header, at_append, List.length_append, List.length_nil, length_leBytes,
    Nat.reduceAdd] at hat
  obtain ⟨⟨⟨⟨hmagic, hversion⟩, hcount⟩, -⟩, hrecords⟩ := hat
  have hmany : ¬ maxBlobs < bs.length := by omega
  simp only [decode, if_neg hshort, readU32_at hmagic (by decide),
    readU32_at hversion (by decide), readU32_at hcount (by simp only [maxBlobs] at hlen; omega),
    if_neg hmany, decodeFrom_eq h hrecords, ne_eq, not_true_eq_false, if_false]

def lookup (bs : List Blob) (key : List UInt8) : Option (List UInt8) :=
  (bs.find? fun b => b.key = key).map Blob.payload

section Records

variable {bs bs' : List Blob} {key payload : List UInt8}

theorem lookup_cons (b : Blob) (bs : List Blob) (key : List UInt8) :
    lookup (b :: bs) key = if b.key = key then some b.payload else lookup bs key := by
  by_cases hkey : b.key = key
  · simp [lookup, hkey]
  · simp [lookup, hkey]

theorem lookup_eq_none : lookup bs key = none ↔ key ∉ bs.map Blob.key := by
  induction bs with
  | nil => exact ⟨nofun, fun _ => rfl⟩
  | cons b rest ih =>
    rw [lookup_cons, List.map_cons, List.mem_cons]
    by_cases hkey : b.key = key
    · simp [hkey]
    · rw [if_neg hkey, ih]
      simp [Ne.symm hkey]

theorem lookup_append (bs : List Blob) (b : Blob) (key : List UInt8) :
    lookup (bs ++ [b]) key = (lookup bs key).or (if b.key = key then some b.payload else none) := by
  induction bs with
  | nil => rw [List.nil_append, lookup_cons]; rfl
  | cons c rest ih =>
    rw [List.cons_append, lookup_cons, lookup_cons, ih]
    split <;> rfl

theorem replace_eq_none : replace key payload bs = none ↔ key ∉ bs.map Blob.key := by
  induction bs with
  | nil => exact ⟨nofun, fun _ => rfl⟩
  | cons b rest ih =>
    rw [replace, List.map_cons, List.mem_cons]
    by_cases hkey : b.key = key
    · simp [hkey]
    · rw [if_neg hkey, Option.map_eq_none_iff, ih]
      simp [Ne.symm hkey]

theorem replace_eq_some (h : replace key payload bs = some bs') :
    bs'.map Blob.key = bs.map Blob.key ∧
    (∀ k, lookup bs' k = if k = key then some payload else lookup bs k) ∧
    ((∀ b ∈ bs, b.Valid) → payload.length ≤ maxPayload → ∀ b ∈ bs', b.Valid) := by
  induction bs generalizing bs' with
  | nil => contradiction
  | cons b rest ih =>
    rw [replace] at h
    split at h
    · rename_i hkey
      cases h
      refine ⟨rfl, fun k => ?_, fun hvalid hp c hc => ?_⟩
      · rw [lookup_cons, lookup_cons, hkey]
        by_cases hk : k = key
        · rw [if_pos hk.symm, if_pos hk]
        · rw [if_neg (Ne.symm hk), if_neg hk, if_neg (Ne.symm hk)]
      rcases List.mem_cons.1 hc with rfl | hin
      · have hb := hvalid b (List.mem_cons_self ..)
        exact ⟨hb.key_pos, hb.key_le, hp⟩
      · exact hvalid c (List.mem_cons_of_mem _ hin)
    · rename_i hkey
      obtain ⟨rest', hrest, rfl⟩ := Option.map_eq_some_iff.1 h
      obtain ⟨hkeys, hlookup, hkeep⟩ := ih hrest
      refine ⟨by rw [List.map_cons, List.map_cons, hkeys], fun k => ?_, fun hvalid hp c hc => ?_⟩
      · rw [lookup_cons, lookup_cons, hlookup k]
        by_cases hbk : b.key = k
        · rw [if_pos hbk, if_pos hbk, if_neg]
          exact fun hk => hkey (hbk.trans hk)
        · rw [if_neg hbk, if_neg hbk]
      rcases List.mem_cons.1 hc with rfl | hin
      · exact hvalid c (List.mem_cons_self ..)
      · exact hkeep (fun d hd => hvalid d (List.mem_cons_of_mem _ hd)) hp c hin

end Records

structure Stored (r : Region) (bs : List Blob) : Prop where
  size : r.length = regionSize
  decoded : decode r = .ok bs
  nodup : (bs.map Blob.key).Nodup

def Admits (bs : List Blob) (key payload : List UInt8) : Prop :=
  payload.length ≤ maxPayload ∧ (key ∈ bs.map Blob.key ∨
    bs.length < maxBlobs ∧ 0 < key.length ∧ key.length ≤ maxKeyLen)

theorem Stored.encode {bs' : List Blob} (h : Stored r bs) (hvalid : ∀ b ∈ bs', b.Valid)
    (hlen : bs'.length ≤ maxBlobs) (hnodup : (bs'.map Blob.key).Nodup) :
    ∃ n r', encode bs' r = (.ok n, r') ∧ Stored r' bs' := by
  obtain ⟨n, tail, heq, hsize⟩ := encode_eq hvalid hlen h.size
  exact ⟨n, _, heq, hsize, decode_records hvalid hlen tail, hnodup⟩

/-- A put changes one key of the map, or it is refused and changes no byte. -/
theorem put_spec (h : Stored r bs) (key payload : List UInt8) :
    (Admits bs key payload ∧ ∃ r' bs', put key payload r = (.ok (), r') ∧ Stored r' bs' ∧
      ∀ k, lookup bs' k = if k = key then some payload else lookup bs k) ∨
    (¬ Admits bs key payload ∧ ∃ e, put key payload r = (.error e, r)) := by
  obtain ⟨hlen, hvalid⟩ := decode_valid h.decoded
  unfold put
  simp only [h.decoded]
  cases hrep : replace key payload bs with
  | some bs' =>
    obtain ⟨hkeys, hlookup, hkeep⟩ := replace_eq_some hrep
    have hin : key ∈ bs.map Blob.key := by
      by_contra hout
      rw [replace_eq_none.2 hout] at hrep
      contradiction
    simp only
    split
    · rename_i hbig
      refine .inr ⟨fun hadm => ?_, _, rfl⟩
      have := hadm.1
      omega
    rename_i hbig
    have hlen' : bs'.length = bs.length := by
      have := congrArg List.length hkeys
      simpa using this
    obtain ⟨n, r', henc, hstored⟩ := h.encode (hkeep hvalid (Nat.not_lt.1 hbig)) (by omega)
      (by rw [hkeys]; exact h.nodup)
    simp only [henc]
    exact .inl ⟨⟨Nat.not_lt.1 hbig, .inl hin⟩, r', bs', rfl, hstored, hlookup⟩
  | none =>
    have hout := replace_eq_none.1 hrep
    simp only
    split
    · rename_i hfull
      refine .inr ⟨fun hadm => ?_, _, rfl⟩
      rcases hadm.2 with hin | hroom
      · exact hout hin
      · omega
    rename_i hroom
    split
    · rename_i hbad
      refine .inr ⟨fun hadm => ?_, _, rfl⟩
      rcases hadm.2 with hin | hkey
      · exact hout hin
      · omega
    rename_i hkey
    split
    · rename_i hbig
      refine .inr ⟨fun hadm => ?_, _, rfl⟩
      have := hadm.1
      omega
    rename_i hbig
    have hnew : ∀ b ∈ bs ++ [⟨key, payload⟩], b.Valid := by
      intro b hb
      rcases List.mem_append.1 hb with hold | hnew
      · exact hvalid b hold
      rw [List.mem_singleton] at hnew
      subst hnew
      exact ⟨by simp only; omega, by simp only; omega, by simp only; omega⟩
    have hnodup : ((bs ++ [(⟨key, payload⟩ : Blob)]).map Blob.key).Nodup := by
      rw [List.map_append, List.nodup_append]
      refine ⟨h.nodup, List.nodup_singleton _, ?_⟩
      intro k hk k' hk' heq
      rw [List.map_singleton, List.mem_singleton] at hk'
      rw [heq, hk'] at hk
      exact hout hk
    obtain ⟨n, r', henc, hstored⟩ := h.encode hnew
      (by rw [List.length_append, List.length_singleton]; omega) hnodup
    simp only [henc]
    refine .inl ⟨⟨by omega, .inr ⟨by omega, by omega, by omega⟩⟩, r', _, rfl, hstored,
      fun k => ?_⟩
    rw [lookup_append]
    by_cases hk : k = key
    · subst hk
      rw [lookup_eq_none.2 hout, if_pos rfl, Option.none_or]
    · simp only [if_neg hk, if_neg (Ne.symm hk), Option.or_none]

theorem get_eq (h : Stored r bs) (key : List UInt8) :
    get key maxPayload r = match lookup bs key with
      | some p => .ok p
      | none => .error .badKey := by
  obtain ⟨-, hvalid⟩ := decode_valid h.decoded
  simp only [get, h.decoded, lookup]
  cases hfind : bs.find? fun b => b.key = key with
  | none => rfl
  | some b =>
    have hb := (hvalid b (List.mem_of_find?_eq_some hfind)).payload_le
    simp only [Option.map_some, if_neg (Nat.not_lt.2 hb)]

end HarborKernel.DurableBlobs
