import HarborKernel.DurableBlobs
import HarborKernel.Ipc
import HarborKernel.Transition
import Mathlib.Data.Finmap

/-!
The endpoint of the durable store (`blob.rs`, `bootstrap/blob_server.rs`). A message
carries a key and a payload of up to seven bytes each, packed with their length into a
word. Seen from its messages the store is a finite map of at most four keys; longer keys
and payloads come from the kernel itself and are left alone.
-/

namespace HarborKernel.BlobService

open ByteStrings DurableBlobs Ipc Transition

def tagPut : UInt32 := 0x1001
def tagGet : UInt32 := 0x1002
def tagOk : UInt32 := 0x1003
def tagMissing : UInt32 := 0x1004
def tagBadRequest : UInt32 := 0x1005
def tagStoreError : UInt32 := 0x1006
def maxWireBytes : ℕ := 7

structure Field where
  len : ℕ
  bytes : List UInt8
deriving DecidableEq

def packFrom (value : UInt64) (i : ℕ) : List UInt8 → UInt64
  | [] => value
  | b :: rest =>
    if i < maxWireBytes then
      packFrom (value ||| (b.toUInt64 <<< UInt64.ofNat (i * 8))) (i + 1) rest
    else value

namespace Field

def pack (bytes : List UInt8) : UInt64 :=
  packFrom (UInt64.ofNat bytes.length <<< 56) 0 bytes

def unpack (value : UInt64) : Option Field :=
  let len := (value >>> 56).toNat
  if len = 0 ∨ maxWireBytes < len then none
  else some ⟨len, (List.range maxWireBytes).map fun i =>
    if i < len then (value >>> UInt64.ofNat (i * 8)).toUInt8 else 0⟩

def asSlice (f : Field) : List UInt8 := f.bytes.take f.len

end Field

inductive Request
  | put (key payload : Field)
  | get (key : Field)
deriving DecidableEq

inductive RequestError
  | unknownTag
  | badKey
  | badPayload
deriving DecidableEq

def decodeRequest (m : Message) : Except RequestError Request :=
  if m.tag = tagPut then
    match Field.unpack m.a with
    | none => .error .badKey
    | some key =>
      match Field.unpack m.b with
      | none => .error .badPayload
      | some payload => .ok (.put key payload)
  else if m.tag = tagGet then
    match Field.unpack m.a with
    | none => .error .badKey
    | some key => .ok (.get key)
  else .error .unknownTag

def ok (payload : UInt64) : Message := ⟨tagOk, payload, 0⟩
def missing : Message := ⟨tagMissing, 0, 0⟩
def badRequest : Message := ⟨tagBadRequest, 0, 0⟩
def storeError (code : UInt64) : Message := ⟨tagStoreError, code, 0⟩

def putErrorCode : EncodeError → UInt64
  | .tooLarge => 2
  | .badKey => 1

def handle (m : Message) (r : Region) : Message × Region :=
  match decodeRequest m with
  | .error _ => (badRequest, r)
  | .ok (.put key payload) =>
    match put key.asSlice payload.asSlice r with
    | (.ok (), r') => (ok 0, r')
    | (.error e, r') => (storeError (putErrorCode e), r')
  | .ok (.get key) =>
    match DurableBlobs.get key.asSlice maxPayload r with
    | .ok payload =>
      if payload.length ≤ maxWireBytes then (ok (Field.pack payload), r) else (storeError 3, r)
    | .error .badKey => (missing, r)
    | .error _ => (storeError 4, r)

section Wire

theorem packFrom_toNat (bs : List UInt8) : ∀ (value : UInt64) (i : ℕ),
    i + bs.length ≤ maxWireBytes →
    (packFrom value i bs).toNat = value.toNat ||| (leNat bs <<< (8 * i)) := by
  induction bs with
  | nil =>
    intro value i _
    rw [packFrom, leNat_nil, Nat.zero_shiftLeft, Nat.or_zero]
  | cons b rest ih =>
    intro value i hlen
    rw [List.length_cons] at hlen
    have hi : i < maxWireBytes := by omega
    simp only [maxWireBytes] at hi
    have hb := b.toNat_lt
    have hamount : (UInt64.ofNat (i * 8)).toNat % 64 = 8 * i := by
      rw [UInt64.toNat_ofNat']
      omega
    have hbyte : (b.toUInt64 <<< UInt64.ofNat (i * 8)).toNat = b.toNat <<< (8 * i) := by
      rw [UInt64.toNat_shiftLeft, hamount, UInt8.toNat_toUInt64]
      apply Nat.mod_eq_of_lt
      rw [Nat.shiftLeft_eq]
      calc b.toNat * 2 ^ (8 * i) < 2 ^ 8 * 2 ^ (8 * i) :=
            Nat.mul_lt_mul_of_pos_right hb (Nat.two_pow_pos _)
        _ = 2 ^ (8 + 8 * i) := (Nat.pow_add 2 8 (8 * i)).symm
        _ ≤ 2 ^ 64 := Nat.pow_le_pow_right Nat.two_pos (by omega)
    have hword : leNat (b :: rest) = leNat rest <<< 8 ||| b.toNat := by
      rw [← Nat.shiftLeft_add_eq_or_of_lt hb, leNat_cons, Nat.shiftLeft_eq]
      omega
    rw [packFrom, if_pos (show i < maxWireBytes from hi), ih _ _ (by omega), UInt64.toNat_or,
      hbyte, hword, Nat.shiftLeft_or_distrib, ← Nat.shiftLeft_add, Nat.or_assoc,
      Nat.or_comm (b.toNat <<< (8 * i))]
    rw [show 8 * (i + 1) = 8 + 8 * i by omega]

private theorem leNat_lt_of_wire {p : List UInt8} (h : p.length ≤ 7) : leNat p < 2 ^ 56 := by
  refine Nat.lt_of_lt_of_le (leNat_lt p) ?_
  rw [show (256 : ℕ) = 2 ^ 8 from rfl, ← Nat.pow_mul]
  exact Nat.pow_le_pow_right Nat.two_pos (by omega)

theorem pack_toNat {p : List UInt8} (h : p.length ≤ maxWireBytes) :
    (Field.pack p).toNat = p.length * 2 ^ 56 + leNat p := by
  simp only [maxWireBytes] at h
  have hlow := leNat_lt_of_wire h
  have hhigh : (UInt64.ofNat p.length <<< 56).toNat = p.length <<< 56 := by
    rw [UInt64.toNat_shiftLeft, UInt64.toNat_ofNat']
    have hlen : p.length % 2 ^ 64 = p.length := Nat.mod_eq_of_lt (by omega)
    rw [hlen]
    apply Nat.mod_eq_of_lt
    rw [Nat.shiftLeft_eq]
    simp
    omega
  rw [Field.pack, packFrom_toNat p _ 0 (by simpa [maxWireBytes] using h), hhigh, Nat.mul_zero,
    Nat.shiftLeft_zero, ← Nat.shiftLeft_add_eq_or_of_lt hlow, Nat.shiftLeft_eq]

/-- Up to seven bytes, but not none, pass through a word. -/
theorem unpack_pack {p : List UInt8} (hpos : 0 < p.length) (h : p.length ≤ maxWireBytes) :
    ∃ f, Field.unpack (Field.pack p) = some f ∧ f.asSlice = p := by
  have hnat := pack_toNat h
  simp only [maxWireBytes] at h
  have hlow := leNat_lt_of_wire h
  have hlen : (Field.pack p >>> 56).toNat = p.length := by
    rw [UInt64.toNat_shiftRight, hnat, Nat.shiftRight_eq_div_pow]
    simp
    omega
  have hbyte : ∀ i, (hi : i < p.length) →
      (Field.pack p >>> UInt64.ofNat (i * 8)).toUInt8 = p[i] := by
    intro i hi
    have hamount : (UInt64.ofNat (i * 8)).toNat % 64 = 8 * i := by
      rw [UInt64.toNat_ofNat']
      omega
    apply UInt8.toNat_inj.1
    rw [UInt64.toNat_toUInt8, UInt64.toNat_shiftRight, hamount, hnat, Nat.shiftRight_eq_div_pow,
      ← leNat_div_mod p i hi, Nat.pow_mul, show (2 : ℕ) ^ 8 = 256 from rfl]
    -- the length lies above all seven bytes
    have hsplit : p.length * 2 ^ 56 = 256 ^ i * (p.length * 256 ^ (6 - i) * 256) := by
      have hpow : (2 : ℕ) ^ 56 = 256 ^ i * (256 ^ (6 - i) * 256) := by
        rw [← Nat.mul_assoc, ← Nat.pow_add, show i + (6 - i) = 6 by omega]
        rfl
      rw [hpow, Nat.mul_left_comm, Nat.mul_assoc (p.length)]
    rw [hsplit, Nat.mul_add_div (Nat.pow_pos (by decide)), Nat.mul_add_mod_self_right]
  refine ⟨⟨p.length, (List.range maxWireBytes).map fun i =>
    if i < p.length then (Field.pack p >>> UInt64.ofNat (i * 8)).toUInt8 else 0⟩, ?_, ?_⟩
  · have hgood : ¬ (p.length = 0 ∨ maxWireBytes < p.length) := by
      simp only [maxWireBytes]
      omega
    simp only [Field.unpack, hlen, if_neg hgood]
  simp only [Field.asSlice]
  apply List.ext_getElem
  · simp only [List.length_take, List.length_map, List.length_range, maxWireBytes]
    omega
  · intro i h1 h2
    simp only [List.getElem_take, List.getElem_map, List.getElem_range, if_pos h2, hbyte i h2]

theorem unpack_length {v : UInt64} {f : Field} (h : Field.unpack v = some f) :
    0 < f.asSlice.length ∧ f.asSlice.length ≤ maxWireBytes := by
  unfold Field.unpack at h
  simp only at h
  split at h
  · contradiction
  rename_i hlen
  cases h
  simp only [Field.asSlice, List.length_take, List.length_map, List.length_range]
  simp only [maxWireBytes] at hlen ⊢
  omega

end Wire

abbrev Map := Finmap fun _ : List UInt8 => List UInt8

def Holds (r : Region) (m : Map) : Prop :=
  ∃ bs, Stored r bs ∧ ∀ k, m.lookup k = lookup bs k

/-- Calls of the store: messages of agents, and puts of the kernel itself. -/
inductive Op
  | request (m : Message)
  | put (key payload : List UInt8)

def step (r : Region) : Op → Option Region
  | .request m => some (handle m r).2
  | .put key payload => some (DurableBlobs.put key payload r).2

def Op.Puts (key : List UInt8) : Op → Prop
  | .request m => ∃ k p, decodeRequest m = .ok (.put k p) ∧ k.asSlice = key
  | .put k _ => k = key

def reply : Option (List UInt8) → Message
  | none => missing
  | some p => if p.length ≤ maxWireBytes then ok (Field.pack p) else storeError 3

/-- Any region of the right size that decodes without a key twice. -/
def Formatted (r : Region) : Prop := ∃ bs, Stored r bs

section Map

variable {r : Region} {m : Map}

variable {bs : List Blob} {msg : Message} {key payload : Field}

/-- Records without a key twice are a map. -/
theorem Stored.holds (h : Stored r bs) : ∃ m, Holds r m := by
  refine ⟨(bs.map fun b => ⟨b.key, b.payload⟩ : List (Sigma fun _ : List UInt8 =>
    List UInt8)).toFinmap, bs, h, fun k => ?_⟩
  rw [Finmap.dlookup_list_toFinmap]
  clear h
  induction bs with
  | nil => rfl
  | cons b rest ih =>
    rw [List.map_cons, lookup_cons]
    by_cases hk : b.key = k
    · subst hk
      rw [List.dlookup_cons_eq, if_pos rfl]
    · rw [List.dlookup_cons_ne _ _ (Ne.symm hk), ih, if_neg hk]

theorem mem_iff (h : ∀ k, m.lookup k = lookup bs k) (k : List UInt8) :
    k ∈ m ↔ k ∈ bs.map Blob.key := by
  rw [← not_iff_not, ← Finmap.lookup_eq_none, h k, lookup_eq_none]

theorem card_keys (hs : Stored r bs) (h : ∀ k, m.lookup k = lookup bs k) :
    m.keys.card = bs.length := by
  have hkeys : m.keys = (bs.map Blob.key).toFinset := by
    ext k
    rw [Finmap.mem_keys, mem_iff h, List.mem_toFinset]
  rw [hkeys, List.toFinset_card_of_nodup hs.nodup, List.length_map]

theorem put_map (h : Holds r m) (key payload : List UInt8) :
    ((payload.length ≤ maxPayload ∧ (key ∈ m ∨
        m.keys.card < maxBlobs ∧ 0 < key.length ∧ key.length ≤ maxKeyLen)) ∧
      ∃ r', DurableBlobs.put key payload r = (.ok (), r') ∧ Holds r' (m.insert key payload)) ∨
    (¬ (payload.length ≤ maxPayload ∧ (key ∈ m ∨
        m.keys.card < maxBlobs ∧ 0 < key.length ∧ key.length ≤ maxKeyLen)) ∧
      ∃ e, DurableBlobs.put key payload r = (.error e, r)) := by
  obtain ⟨bs, hs, hmap⟩ := h
  rw [card_keys hs hmap, mem_iff hmap]
  rcases put_spec hs key payload with ⟨hadm, r', bs', hput, hs', hlookup⟩ | hrefused
  · refine .inl ⟨hadm, r', hput, bs', hs', fun k => ?_⟩
    rw [hlookup k]
    by_cases hk : k = key
    · subst hk
      rw [Finmap.lookup_insert, if_pos rfl]
    · rw [Finmap.lookup_insert_of_ne _ hk, if_neg hk, hmap k]
  · exact .inr hrefused

theorem get_map (h : Holds r m) (key : List UInt8) :
    DurableBlobs.get key maxPayload r = match m.lookup key with
      | some p => .ok p
      | none => .error .badKey := by
  obtain ⟨bs, hs, hmap⟩ := h
  cases hfound : lookup bs key with
  | none | some p => simp only [get_eq hs, hmap, hfound]

theorem handle_malformed {e : RequestError} (h : decodeRequest msg = .error e) (r : Region) :
    handle msg r = (badRequest, r) := by
  simp only [handle, h]

theorem decodeRequest_put (h : decodeRequest msg = .ok (.put key payload)) :
    Field.unpack msg.a = some key ∧ Field.unpack msg.b = some payload := by
  unfold decodeRequest at h
  split at h
  · split at h
    · contradiction
    rename_i hkey
    split at h
    · contradiction
    rename_i hpayload
    cases h
    exact ⟨hkey, hpayload⟩
  split at h
  · split at h <;> cases h
  · contradiction

/-- A put of an agent is done exactly when its key is there or there is room for it. -/
theorem handle_put (h : Holds r m) (hmsg : decodeRequest msg = .ok (.put key payload)) :
    ((key.asSlice ∈ m ∨ m.keys.card < maxBlobs) ∧
      ∃ r', handle msg r = (ok 0, r') ∧ Holds r' (m.insert key.asSlice payload.asSlice)) ∨
    (¬ (key.asSlice ∈ m ∨ m.keys.card < maxBlobs) ∧
      ∃ code, handle msg r = (storeError code, r)) := by
  obtain ⟨hkey, hpayload⟩ := decodeRequest_put hmsg
  have hk := unpack_length hkey
  have hp := unpack_length hpayload
  simp only [maxWireBytes] at hk hp
  have hfits : payload.asSlice.length ≤ maxPayload := by
    simp only [maxPayload]
    omega
  have hlen : 0 < key.asSlice.length ∧ key.asSlice.length ≤ maxKeyLen := by
    simp only [maxKeyLen]
    omega
  simp only [handle, hmsg]
  rcases put_map h key.asSlice payload.asSlice with ⟨hadm, r', hput, hnew⟩ | ⟨hno, e, hput⟩
  · simp only [hput]
    refine .inl ⟨?_, r', rfl, hnew⟩
    rcases hadm.2 with hin | hroom
    · exact .inl hin
    · exact .inr hroom.1
  simp only [hput]
  refine .inr ⟨fun hadm => hno ⟨hfits, ?_⟩, _, rfl⟩
  rcases hadm with hin | hroom
  · exact .inl hin
  · exact .inr ⟨hroom, hlen⟩

theorem handle_get (h : Holds r m) (hmsg : decodeRequest msg = .ok (.get key)) :
    handle msg r = (reply (m.lookup key.asSlice), r) := by
  simp only [handle, hmsg, get_map h]
  cases m.lookup key.asSlice with
  | none => rfl
  | some p =>
    simp only [reply]
    split <;> rfl

/-- One call, in terms of the map: nothing changes but what a put names. -/
theorem step_map (h : Holds r m) {op : Op} {r' : Region} (hstep : step r op = some r') :
    ∃ m', Holds r' m' ∧ ∀ k, ¬ op.Puts k → m'.lookup k = m.lookup k := by
  cases op with
  | put key payload =>
    simp only [step, Option.some.injEq] at hstep
    rcases put_map h key payload with ⟨-, r1, hput, hnew⟩ | ⟨-, e, hput⟩
    · rw [hput] at hstep
      subst hstep
      exact ⟨_, hnew, fun k hk => Finmap.lookup_insert_of_ne _ fun heq => hk heq.symm⟩
    rw [hput] at hstep
    subst hstep
    exact ⟨m, h, fun _ _ => rfl⟩
  | request msg =>
    simp only [step, Option.some.injEq] at hstep
    cases hmsg : decodeRequest msg with
    | error e =>
      rw [handle_malformed hmsg] at hstep
      subst hstep
      exact ⟨m, h, fun _ _ => rfl⟩
    | ok request =>
      cases request with
      | get key =>
        rw [handle_get h hmsg] at hstep
        subst hstep
        exact ⟨m, h, fun _ _ => rfl⟩
      | put key payload =>
        rcases handle_put h hmsg with ⟨-, r1, hhandle, hnew⟩ | ⟨-, code, hhandle⟩
        · rw [hhandle] at hstep
          subst hstep
          refine ⟨_, hnew, fun k hk => Finmap.lookup_insert_of_ne _ fun heq => hk ?_⟩
          exact ⟨key, payload, hmsg, heq.symm⟩
        rw [hhandle] at hstep
        subst hstep
        exact ⟨m, h, fun _ _ => rfl⟩

theorem run_map (key : List UInt8) (ops : List Op) (hops : ∀ op ∈ ops, ¬ op.Puts key) :
    ∀ {r r' : Region} {m : Map}, Holds r m → run step r ops = some r' →
      ∃ m', Holds r' m' ∧ m'.lookup key = m.lookup key := by
  induction ops with
  | nil =>
    intro r r' m h hrun
    cases hrun
    exact ⟨m, h, rfl⟩
  | cons op rest ih =>
    intro r r' m h hrun
    obtain ⟨r1, hstep, hrest⟩ := Option.bind_eq_some_iff.1 hrun
    obtain ⟨m1, h1, hsame⟩ := step_map h hstep
    obtain ⟨m', h', heq⟩ := ih (fun op hop => hops op (List.mem_cons_of_mem _ hop)) h1 hrest
    exact ⟨m', h', heq.trans (hsame key (hops op (List.mem_cons_self ..)))⟩

end Map

/-- The blob service is a map of at most four keys: from any formatted region, after any calls,
there is a map that the region holds and that the answers are read from, a refused call changes
no byte, and what was put under a key is got until something else is put there. -/
theorem blob_service_is_map {r : Region} (hr : Reach Formatted step (fun _ _ => True) r) :
    ∃ m : Map, Holds r m ∧ m.keys.card ≤ maxBlobs ∧ (∃ bs, decode r = .ok bs) ∧
      (∀ msg e, decodeRequest msg = .error e → handle msg r = (badRequest, r)) ∧
      (∀ msg key, decodeRequest msg = .ok (.get key) →
        handle msg r = (reply (m.lookup key.asSlice), r)) ∧
      (∀ msg key payload, decodeRequest msg = .ok (.put key payload) →
        ((handle msg r).1 = ok 0 ↔ key.asSlice ∈ m ∨ m.keys.card < maxBlobs) ∧
        ((handle msg r).1 = ok 0 →
          Holds (handle msg r).2 (m.insert key.asSlice payload.asSlice) ∧
          ∀ ops r' get same, (∀ op ∈ ops, ¬ op.Puts key.asSlice) →
            run step (handle msg r).2 ops = some r' → decodeRequest get = .ok (.get same) →
            same.asSlice = key.asSlice →
            handle get r' = (ok (Field.pack payload.asSlice), r') ∧
            (Field.unpack (Field.pack payload.asSlice)).map Field.asSlice =
              some payload.asSlice) ∧
        ((handle msg r).1 ≠ ok 0 → (handle msg r).2 = r) ∧
        (∀ other, other ≠ key.asSlice → DurableBlobs.get other maxPayload (handle msg r).2 =
          DurableBlobs.get other maxPayload r) ∧
        ∀ get other, decodeRequest get = .ok (.get other) → other.asSlice ≠ key.asSlice →
          (handle get (handle msg r).2).1 = (handle get r).1) ∧
      (∀ key, DurableBlobs.get key maxPayload r = match m.lookup key with
        | some p => .ok p
        | none => .error .badKey) ∧
      ∀ key payload, (∃ r', DurableBlobs.put key payload r = (.ok (), r') ∧
          Holds r' (m.insert key payload)) ∨
        ∃ e, DurableBlobs.put key payload r = (.error e, r) := by
  have hformatted : Formatted r := by
    refine Reach.invariant (fun r h => h) ?_ hr
    intro r op r' h _ hstep
    obtain ⟨bs, hs⟩ := h
    obtain ⟨m, hm⟩ := Stored.holds hs
    obtain ⟨m', ⟨bs', hs', -⟩, -⟩ := step_map hm hstep
    exact ⟨bs', hs'⟩
  obtain ⟨bs, hs⟩ := hformatted
  obtain ⟨m, hm⟩ := Stored.holds hs
  refine ⟨m, hm, ?_, ⟨bs, hs.decoded⟩, fun msg e he => handle_malformed he r,
    fun msg key hmsg => handle_get hm hmsg, ?_, get_map hm, ?_⟩
  · obtain ⟨bs', hs', hmap⟩ := hm
    rw [card_keys hs' hmap]
    exact (decode_valid hs'.decoded).1
  · intro msg key payload hmsg
    have hlen := unpack_length (decodeRequest_put hmsg).2
    rcases handle_put hm hmsg with ⟨hadm, r', hhandle, hnew⟩ | ⟨hno, code, hhandle⟩
    · rw [hhandle]
      refine ⟨⟨fun _ => hadm, fun _ => rfl⟩, fun _ => ⟨hnew, ?_⟩, fun hne => absurd rfl hne,
        fun other hne => ?_, fun get other hget hne => ?_⟩
      · intro ops r'' get same hops hrun hget hsame
        obtain ⟨m'', hm'', hkept⟩ := run_map key.asSlice ops hops hnew hrun
        obtain ⟨f, hunpack, hslice⟩ := unpack_pack hlen.1 hlen.2
        rw [Finmap.lookup_insert] at hkept
        refine ⟨?_, by rw [hunpack, Option.map_some, hslice]⟩
        rw [handle_get hm'' hget, hsame, hkept, reply, if_pos hlen.2]
      · rw [get_map hnew, get_map hm, Finmap.lookup_insert_of_ne _ hne]
      · rw [handle_get hnew hget, handle_get hm hget, Finmap.lookup_insert_of_ne _ hne]
    · rw [hhandle]
      have hne : storeError code ≠ ok 0 := by
        intro heq
        have htag : tagStoreError = tagOk := congrArg Message.tag heq
        exact absurd htag (by decide)
      exact ⟨⟨fun heq => absurd heq hne, fun h => absurd h hno⟩, fun heq => absurd heq hne,
        fun _ => rfl, fun _ _ => rfl, fun _ _ _ _ => rfl⟩
  · intro key payload
    rcases put_map hm key payload with ⟨-, hdone⟩ | ⟨-, hrefused⟩
    · exact .inl hdone
    · exact .inr hrefused

/-- On an empty region the first put is done, and after a put under another key the payload is read
back. -/
theorem blob_service_is_map_two : ∃ r r' : Region, Formatted r ∧
    (handle ⟨tagPut, Field.pack [1], Field.pack [2]⟩ r).1 = ok 0 ∧
    run step (handle ⟨tagPut, Field.pack [1], Field.pack [2]⟩ r).2 [.put [3] [4, 5]] = some r' ∧
    handle ⟨tagGet, Field.pack [1], 0⟩ r' = (ok (Field.pack [2]), r') := by
  have hnone : ∀ b ∈ ([] : List Blob), b.Valid := fun b hb => absurd hb List.not_mem_nil
  have hblank : (List.replicate regionSize 0 : Region).length = regionSize := List.length_replicate
  obtain ⟨n, tail, -, hsize⟩ := encode_eq hnone (Nat.zero_le _) hblank
  have hs : Stored _ [] := ⟨hsize, decode_records hnone (Nat.zero_le _) tail, List.nodup_nil⟩
  obtain ⟨m, ⟨bs, hs', hmap⟩, -, -, -, -, hput, -⟩ :=
    blob_service_is_map (Reach.start (s := _) (⟨[], hs⟩ : Formatted _))
  have hbs : bs = [] := by
    have heq := hs'.decoded.symm.trans hs.decoded
    exact Except.ok.inj heq
  subst hbs
  obtain ⟨hadmits, hdone, -⟩ := hput ⟨tagPut, Field.pack [1], Field.pack [2]⟩
    ⟨1, [1, 0, 0, 0, 0, 0, 0]⟩ ⟨1, [2, 0, 0, 0, 0, 0, 0]⟩ (by decide +kernel)
  have hok := hadmits.2 (.inr (by rw [card_keys hs' hmap]; decide))
  refine ⟨_, _, ⟨[], hs⟩, hok, rfl, ?_⟩
  refine ((hdone hok).2 [.put [3] [4, 5]] _ _ ⟨1, [1, 0, 0, 0, 0, 0, 0]⟩ ?_ rfl
    (by decide +kernel) rfl).1
  intro op hop
  obtain rfl := List.mem_singleton.1 hop
  exact fun hputs => absurd hputs (by decide : ([3] : List UInt8) ≠ [1])

end HarborKernel.BlobService
