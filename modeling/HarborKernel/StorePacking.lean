import HarborKernel.AgentStore
import HarborKernel.ErrorState

/-!
The packer of the agent store (`scripts/agent/pack-store.py`) against the parser. Every record is
padded to four bytes, so all of them start at a multiple of four, which is where the parser goes
on after a record. The bytes of a record that stand at an offset determine what is read there.
-/

namespace HarborKernel.AgentStore

open ByteStrings ErrorState TaskTable

def structPack (k v : ℕ) : Option (List UInt8) :=
  if v < 256 ^ k then some (leBytes k v) else none

theorem structPack_eq (k : ℕ) {v : ℕ} (h : v < 256 ^ k) : structPack k v = some (leBytes k v) :=
  if_pos h

def padName (name : List UInt8) : List UInt8 :=
  let b := name.take nameLen
  b ++ List.replicate (nameLen - b.length) 0

def reservedWord (a : StoreAgent) : ℕ :=
  (a.homeCpu &&& 0xFF) ||| (a.mayResolve.toNat <<< 8) ||| (a.packetPool.toNat <<< 9)

def padBuf (buf : List UInt8) : List UInt8 :=
  buf ++ List.replicate (align4 buf.length - buf.length) 0

def appendAgent (buf : List UInt8) (a : StoreAgent) : Option (List UInt8) := do
  guard (a.slots.length = 4)
  guard (a.homeCpu < 256)
  guard (a.window ≠ windowNone ∨ a.deviceVa = 0)
  guard (a.window = windowNone ∨ a.deviceVa % 4096 = 0)
  let text ← structPack 4 a.textPages
  let stack ← structPack 4 a.stackPages
  let reserved ← structPack 4 (reservedWord a)
  let device ← structPack 4 (a.window.toNat &&& 0xFF)
  let va ← structPack 8 a.deviceVa
  let len ← structPack 4 a.image.length
  return padBuf (buf ++ (padName a.name ++ (text ++ (stack ++ (a.slots ++ (reserved ++ (device ++
    (va ++ (len ++ a.image)))))))))

def pack (agents : List StoreAgent) : Option (List UInt8) := do
  let ver ← structPack 4 version
  let count ← structPack 4 agents.length
  let zero ← structPack 4 0
  agents.foldlM appendAgent ([0x48, 0x41, 0x52, 0x42] ++ (ver ++ (count ++ zero)))

structure StoreAgent.Packable (a : StoreAgent) : Prop where
  name_ne : a.name ≠ []
  name_le : a.name.length ≤ nameLen
  name_nul : 0 ∉ a.name
  name_utf8 : validUtf8 a.name = true
  text : 1 ≤ a.textPages ∧ a.textPages < 2 ^ 32
  stack : 1 ≤ a.stackPages ∧ a.stackPages < 2 ^ 32
  slots : a.slots.length = 4
  home : a.homeCpu < nCpus
  window : if a.window = windowNone then a.deviceVa = 0
    else a.deviceVa % 4096 = 0 ∧ a.deviceVa < 2 ^ 64
  image : a.image.length ≤ a.textPages * 4096 ∧ a.image.length < 2 ^ 32

def recordBytes (a : StoreAgent) : List UInt8 :=
  padName a.name ++ (leBytes 4 a.textPages ++ (leBytes 4 a.stackPages ++ (a.slots ++
    (leBytes 4 (reservedWord a) ++ (leBytes 4 a.window.toNat ++ (leBytes 8 a.deviceVa ++
      (leBytes 4 a.image.length ++ a.image)))))))

section Fields

variable {buf bytes : List UInt8} {off v : ℕ}

theorem bytesAt_at (h : At buf off bytes) {n : ℕ} (hn : n = bytes.length) :
    bytesAt buf off n = .ok bytes := by
  rw [bytesAt, h.slice hn]

theorem readU32_at (h : At buf off (leBytes 4 v)) (hv : v < 2 ^ 32) :
    readU32 buf off = .ok v := by
  rw [readU32, bytesAt_at h (length_leBytes 4 v).symm]
  exact congrArg Except.ok (leNat_leBytes hv)

theorem readU64_at (h : At buf off (leBytes 8 v)) (hv : v < 2 ^ 64) :
    readU64 buf off = .ok v := by
  rw [readU64, bytesAt_at h (length_leBytes 8 v).symm]
  exact congrArg Except.ok (leNat_leBytes hv)

end Fields

private theorem word_bits : ∀ home < nCpus, ∀ resolve pool : Bool,
    let w := (home &&& 0xFF) ||| (resolve.toNat <<< 8) ||| (pool.toNat <<< 9)
    w < 2 ^ 32 ∧ w / 2 ^ 10 = 0 ∧ w % 2 ^ 8 = home ∧ w.testBit 8 = resolve ∧
      w.testBit 9 = pool := by
  decide

variable {a : StoreAgent}

section

variable (h : a.Packable)
include h

theorem StoreAgent.Packable.reservedWord_bits :
    reservedWord a < 2 ^ 32 ∧ reservedWord a / 2 ^ 10 = 0 ∧ reservedWord a % 2 ^ 8 = a.homeCpu ∧
      (reservedWord a).testBit 8 = a.mayResolve ∧ (reservedWord a).testBit 9 = a.packetPool :=
  word_bits _ h.home _ _

theorem StoreAgent.Packable.padName_eq :
    padName a.name = a.name ++ List.replicate (nameLen - a.name.length) 0 := by
  simp only [padName, List.take_of_length_le h.name_le]

theorem StoreAgent.Packable.length_padName : (padName a.name).length = nameLen := by
  have hle := h.name_le
  rw [h.padName_eq, List.length_append, List.length_replicate]
  omega

theorem StoreAgent.Packable.takeWhile_padName :
    (padName a.name).takeWhile (· ≠ 0) = a.name := by
  have hname : ∀ x ∈ a.name, (decide (x ≠ 0)) = true := by
    intro x hx
    refine decide_eq_true ?_
    rintro rfl
    exact h.name_nul hx
  rw [h.padName_eq, List.takeWhile_append_of_pos hname]
  cases nameLen - a.name.length with
  | zero => simp
  | succ n => simp [List.replicate_succ]

theorem StoreAgent.Packable.deviceVa_lt : a.deviceVa < 2 ^ 64 := by
  have hwindow := h.window
  split at hwindow <;> omega

theorem StoreAgent.Packable.length_recordBytes :
    (recordBytes a).length = 48 + a.image.length := by
  simp only [recordBytes, List.length_append, h.length_padName, length_leBytes, h.slots, nameLen]
  omega

theorem StoreAgent.Packable.parseAgent_eq {buf : List UInt8} {off : ℕ}
    (hat : At buf off (recordBytes a)) :
    parseAgent buf off = .ok (a, align4 (off + 48 + a.image.length)) := by
  obtain ⟨hword, hhigh, hhome, hresolve, hpool⟩ := h.reservedWord_bits
  have hwin := a.window.toNat_lt
  have hname : a.name.length ≠ 0 := mt List.length_eq_zero_iff.1 h.name_ne
  simp only [recordBytes, at_append, length_leBytes, h.length_padName, h.slots, nameLen,
    Nat.add_assoc, Nat.reduceAdd] at hat
  obtain ⟨hnameAt, htext, hstack, hslots, hreserved, hdevice, hva, hlen, himage⟩ := hat
  unfold parseAgent
  simp only [bind_eq_ok, require_eq_ok, exists_const, decide_eq_true_eq, nameLen, maxSlots,
    Nat.add_assoc, Nat.reduceAdd]
  refine ⟨_, bytesAt_at hnameAt h.length_padName.symm, ?_⟩
  rw [h.takeWhile_padName]
  refine ⟨hname, h.name_utf8, _, readU32_at htext h.text.2, _, readU32_at hstack h.stack.2,
    ⟨Nat.ne_of_gt h.text.1, Nat.ne_of_gt h.stack.1⟩, _, bytesAt_at hslots h.slots.symm, _,
    readU32_at hreserved hword, hhigh, by rw [hhome]; exact h.home, _,
    readU32_at hdevice (by omega), by omega, _, readU64_at hva h.deviceVa_lt, ?_, _,
    readU32_at hlen h.image.2, _, bytesAt_at himage rfl,
    h.image.1, ?_⟩
  · have hwindow := h.window
    rw [UInt8.ofNat_toNat]
    split at hwindow
    · rename_i hnone
      rw [if_pos hnone, decide_eq_true hwindow]
    · rename_i hsome
      rw [if_neg hsome, decide_eq_true hwindow.1]
  · simp only [hhome, hresolve, hpool, UInt8.ofNat_toNat]
    rfl

theorem StoreAgent.Packable.appendAgent_eq {buf : List UInt8}
    (hbuf : 4 ∣ buf.length) : ∃ pad, appendAgent buf a = some (buf ++ (recordBytes a ++ pad)) ∧
      buf.length + (recordBytes a ++ pad).length = align4 (buf.length + 48 + a.image.length) := by
  have hlen := h.length_recordBytes
  refine ⟨List.replicate (align4 (buf ++ recordBytes a).length - (buf ++ recordBytes a).length) 0,
    ?_, ?_⟩
  · have hwin := a.window.toNat_lt
    have hmask : a.window.toNat &&& 0xFF = a.window.toNat := by
      rw [Nat.and_two_pow_sub_one_eq_mod _ 8]
      omega
    have hwindow : (a.window ≠ windowNone ∨ a.deviceVa = 0) ∧
        (a.window = windowNone ∨ a.deviceVa % 4096 = 0) := by
      have := h.window
      split at this
      · exact ⟨.inr this, .inl (by assumption)⟩
      · exact ⟨.inl (by assumption), .inr this.1⟩
    have hhome : a.homeCpu < 256 := lt_trans h.home (by decide)
    simp only [appendAgent, guard, if_pos h.slots, if_pos hhome, if_pos hwindow.1,
      if_pos hwindow.2, hmask, structPack_eq 4 h.text.2, structPack_eq 4 h.stack.2,
      structPack_eq 4 h.reservedWord_bits.1, structPack_eq 4 (lt_trans hwin (by decide)),
      structPack_eq 8 h.deviceVa_lt, structPack_eq 4 h.image.2, Option.pure_def,
      Option.bind_eq_bind, Option.bind_some, padBuf]
    rw [← List.append_assoc buf (recordBytes a)]
    rfl
  · rw [List.length_append, List.length_replicate, List.length_append, hlen]
    unfold align4
    omega

end

variable {agents : List StoreAgent}

theorem foldlM_appendAgent (h : ∀ a ∈ agents, a.Packable) :
    ∀ buf : List UInt8, 4 ∣ buf.length → ∃ out, agents.foldlM appendAgent buf = some (buf ++ out) ∧
      ∀ whole, At whole buf.length out →
        parseAgents whole agents.length buf.length = .ok agents := by
  induction agents with
  | nil =>
    intro buf _
    exact ⟨[], by rw [List.append_nil]; rfl, fun _ _ => rfl⟩
  | cons a rest ih =>
    intro buf hbuf
    have ha := h a (List.mem_cons_self ..)
    obtain ⟨pad, hpack, hlen⟩ := ha.appendAgent_eq hbuf
    have hnext : (buf ++ (recordBytes a ++ pad)).length =
        align4 (buf.length + 48 + a.image.length) := by
      rw [List.length_append, hlen]
    obtain ⟨out, hout, hparse⟩ := ih (fun x hx => h x (List.mem_cons_of_mem _ hx))
      (buf ++ (recordBytes a ++ pad)) (by rw [hnext]; exact Nat.dvd_mul_left ..)
    refine ⟨recordBytes a ++ pad ++ out, ?_, ?_⟩
    · rw [List.foldlM_cons, hpack, Option.bind_eq_bind, Option.bind_some, hout, List.append_assoc]
    intro whole hat
    rw [at_append] at hat
    have hagent := ha.parseAgent_eq (at_append.1 hat.1).1
    have hrest := hparse whole (by rw [List.length_append]; exact hat.2)
    rw [hnext] at hrest
    rw [List.length_cons, parseAgents, bind_eq_ok]
    exact ⟨_, hagent, bind_eq_ok.2 ⟨_, hrest, rfl⟩⟩

def headerBytes (count : ℕ) : List UInt8 :=
  [0x48, 0x41, 0x52, 0x42] ++ (leBytes 4 version ++ (leBytes 4 count ++ leBytes 4 0))

theorem length_headerBytes (count : ℕ) : (headerBytes count).length = 16 := by
  simp only [headerBytes, List.length_append, length_leBytes, List.length_cons, List.length_nil]

theorem pack_eq (h : agents.length < 2 ^ 32) :
    pack agents = agents.foldlM appendAgent (headerBytes agents.length) := by
  simp only [pack, structPack_eq 4 (show version < 256 ^ 4 by decide), structPack_eq 4 h,
    structPack_eq 4 (show 0 < 256 ^ 4 by decide), Option.bind_eq_bind, Option.bind_some]
  rfl

theorem parse_eq {count : ℕ} {out : List UInt8} (hpos : count ≠ 0) (hmax : count ≤ maxAgents)
    (h : parseAgents (headerBytes count ++ out) count 16 = .ok agents) :
    parse (headerBytes count ++ out) = .ok agents := by
  have hat := At.intro [] (headerBytes count) out
  have hlong : 16 ≤ (headerBytes count ++ out).length := by
    rw [List.length_append, length_headerBytes]
    omega
  rw [List.nil_append] at hat
  generalize headerBytes count ++ out = buf at hat hlong h ⊢
  simp only [headerBytes, at_append, length_leBytes, List.length_cons, List.length_nil,
    Nat.reduceAdd] at hat
  obtain ⟨hmagic, hversion, hcount, -⟩ := hat
  simp only [parse, bind_eq_ok, require_eq_ok, exists_const, decide_eq_true_eq]
  exact ⟨hlong, _, bind_eq_ok.2 ⟨_, bytesAt_at hmagic rfl, rfl⟩, rfl, _,
    readU32_at hversion (by decide), rfl, _,
    readU32_at hcount (lt_of_le_of_lt hmax (by decide)), ⟨hpos, hmax⟩, h⟩

/-- What the packer writes is what the parser reads: the same agents in the same order. -/
theorem packed_store_parses {agents : List StoreAgent} (h : ∀ a ∈ agents, a.Packable)
    (hpos : 1 ≤ agents.length) (hmax : agents.length ≤ maxAgents) :
    ∃ bytes, pack agents = some bytes ∧ parse bytes = .ok agents := by
  obtain ⟨out, hout, hparse⟩ := foldlM_appendAgent h (headerBytes agents.length)
    (by rw [length_headerBytes]; decide)
  refine ⟨headerBytes agents.length ++ out, ?_, ?_⟩
  · rw [pack_eq (lt_of_le_of_lt hmax (by decide)), hout]
  have hat := At.intro (headerBytes agents.length) out []
  rw [List.append_nil] at hat
  have hagents := hparse _ hat
  rw [length_headerBytes] at hagents
  exact parse_eq (by omega) hmax hagents

/-- An agent without a window and one with, of which the second has an image that is padded. -/
theorem packed_store_parses_two : ∃ bytes,
    pack [⟨[0x61], 1, 1, [0, 0xFF, 0xFF, 0xFF], 0, true, false, windowNone, 0, [1, 2, 3, 4]⟩,
      ⟨[0xC3, 0xA9], 2, 1, [1, 2, 0xFF, 0xFF], 1, false, true, 0, 0x80000000, [5]⟩] = some bytes ∧
    parse bytes = .ok
      [⟨[0x61], 1, 1, [0, 0xFF, 0xFF, 0xFF], 0, true, false, windowNone, 0, [1, 2, 3, 4]⟩,
        ⟨[0xC3, 0xA9], 2, 1, [1, 2, 0xFF, 0xFF], 1, false, true, 0, 0x80000000, [5]⟩] := by
  refine packed_store_parses ?_ (by decide) (by decide)
  intro a ha
  rcases List.mem_cons.1 ha with rfl | ha
  · constructor <;> decide
  · rw [List.mem_singleton.1 ha]
    constructor <;> decide

end HarborKernel.AgentStore
