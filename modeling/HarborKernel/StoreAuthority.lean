import HarborKernel.ErrorState
import HarborKernel.LoaderPlan

/-!
What a store can obtain from the loader. A record that is parsed has each field at a fixed place
after the start of the record, so the capabilities and the device window of its plan are read off
a few of its bytes and the loader's two vocabularies. The name, the address at which a window is
mapped and the image have no part in them.
-/

namespace HarborKernel.StoreAuthority

open AgentStore Capability ErrorState LoaderPlan Paging TaskTable ByteStrings

def word (buf : List UInt8) (off n : ℕ) : ℕ := leNat ((buf.drop off).take n)

def nextRecord (off : ℕ) (agent : StoreAgent) : ℕ := align4 (off + 48 + agent.image.length)

def recordFrom (off : ℕ) (agents : List StoreAgent) (r : ℕ) : ℕ :=
  (agents.take r).foldl nextRecord off

def recordOffset (agents : List StoreAgent) (r : ℕ) : ℕ := recordFrom 16 agents r

def Payload (off : ℕ) (agent : StoreAgent) (k : ℕ) : Prop :=
  (off ≤ k ∧ k < off + 16) ∨ (off + 36 ≤ k ∧ k < off + 44) ∨
    (off + 48 ≤ k ∧ k < off + 48 + agent.image.length)

structure Record (buf : List UInt8) (off : ℕ) (agent : StoreAgent) : Prop where
  fits : off + 48 + agent.image.length ≤ buf.length
  textPages : agent.textPages = word buf (off + 16) 4
  stackPages : agent.stackPages = word buf (off + 20) 4
  slots : agent.slots = (buf.drop (off + 24)).take 4
  homeCpu : agent.homeCpu = word buf (off + 28) 4 % 2 ^ 8
  mayResolve : agent.mayResolve = (word buf (off + 28) 4).testBit 8
  packetPool : agent.packetPool = (word buf (off + 28) 4).testBit 9
  window : agent.window = UInt8.ofNat (word buf (off + 32) 4)
  imageLen : agent.image.length = word buf (off + 44) 4

variable {buf buf' : List UInt8} {off count frameSize : ℕ} {agent agent' : StoreAgent}
    {agents agents' : List StoreAgent} {held slots : List (Option CapId)} {packetPool : Bool}
    {entry : AgentEntry} {windows : List (Option Window)} {device : Option ResolvedWindow}

theorem bytesAt_eq_ok {bytes : List UInt8} {n : ℕ} :
    bytesAt buf off n = .ok bytes ↔
      off + n ≤ buf.length ∧ bytes = (buf.drop off).take n := by
  unfold bytesAt slice
  by_cases hle : off + n ≤ buf.length
  · rw [if_pos hle]
    constructor
    · intro h
      cases h
      exact ⟨hle, rfl⟩
    · intro h
      rw [h.2]
  · rw [if_neg hle]
    exact ⟨nofun, fun h => absurd h.1 hle⟩

theorem readU32_eq_ok {v : ℕ} :
    readU32 buf off = .ok v ↔ off + 4 ≤ buf.length ∧ v = word buf off 4 := by
  unfold readU32
  rw [bind_eq_ok]
  constructor
  · rintro ⟨bytes, hbytes, hv⟩
    obtain ⟨hle, rfl⟩ := bytesAt_eq_ok.1 hbytes
    cases hv
    exact ⟨hle, rfl⟩
  · rintro ⟨hle, rfl⟩
    exact ⟨_, bytesAt_eq_ok.2 ⟨hle, rfl⟩, rfl⟩

theorem record_of_parseAgent {next : ℕ} (h : parseAgent buf off = .ok (agent, next)) :
    Record buf off agent ∧ next = nextRecord off agent := by
  unfold parseAgent at h
  simp only [bind_eq_ok, require_eq_ok, exists_const, decide_eq_true_eq, nameLen, maxSlots,
    Nat.add_assoc, Nat.reduceAdd] at h
  obtain ⟨name, -, -, -, text, htext, stack, hstack, -, slots, hslots, reserved, hreserved, -, -,
    device, hdevice, -, va, -, -, imageLen, hlen, image, himage, -, heq⟩ := h
  obtain ⟨-, rfl⟩ := readU32_eq_ok.1 htext
  obtain ⟨-, rfl⟩ := readU32_eq_ok.1 hstack
  obtain ⟨-, rfl⟩ := bytesAt_eq_ok.1 hslots
  obtain ⟨-, rfl⟩ := readU32_eq_ok.1 hreserved
  obtain ⟨-, rfl⟩ := readU32_eq_ok.1 hdevice
  obtain ⟨-, rfl⟩ := readU32_eq_ok.1 hlen
  obtain ⟨hfits, rfl⟩ := bytesAt_eq_ok.1 himage
  cases heq
  have himagelen : ((buf.drop (off + 48)).take (word buf (off + 44) 4)).length =
      word buf (off + 44) 4 := by
    rw [List.length_take, List.length_drop]
    omega
  refine ⟨⟨?_, rfl, rfl, rfl, rfl, rfl, rfl, rfl, ?_⟩, ?_⟩
  · simp only [himagelen]
    omega
  · exact himagelen
  · simp only [nextRecord, himagelen, Nat.add_assoc]

theorem le_align4 (n : ℕ) : n ≤ align4 n := by
  unfold align4
  omega

variable {k r index homeCpu : ℕ} {rest : List StoreAgent} {j : UInt8} {cap : Option CapId}

theorem lt_nextRecord (h : k < off + 48 + agent.image.length) : k < nextRecord off agent :=
  lt_of_lt_of_le h (le_align4 _)

theorem recordFrom_zero (off : ℕ) (agents : List StoreAgent) : recordFrom off agents 0 = off := rfl

theorem recordFrom_succ (off : ℕ) (agent : StoreAgent) (rest : List StoreAgent) (r : ℕ) :
    recordFrom off (agent :: rest) (r + 1) = recordFrom (nextRecord off agent) rest r := rfl

theorem le_recordFrom (off : ℕ) (agents : List StoreAgent) (r : ℕ) :
    off ≤ recordFrom off agents r := by
  induction agents generalizing off r with
  | nil => simp only [recordFrom, List.take_nil, List.foldl_nil, le_refl]
  | cons agent rest ih =>
    cases r with
    | zero => exact le_refl off
    | succ r =>
      have hnext : off ≤ nextRecord off agent :=
        le_trans (by omega) (le_align4 (off + 48 + agent.image.length))
      exact le_trans hnext (ih (nextRecord off agent) r)

theorem parseAgents_succ (h : parseAgents buf (count + 1) off = .ok agents) :
    ∃ agent rest, parseAgent buf off = .ok (agent, nextRecord off agent) ∧
      parseAgents buf count (nextRecord off agent) = .ok rest ∧ agents = agent :: rest := by
  obtain ⟨⟨agent, next⟩, hagent, hrun⟩ := bind_eq_ok.1 h
  obtain ⟨rest, hrest, heq⟩ := bind_eq_ok.1 hrun
  obtain ⟨-, rfl⟩ := record_of_parseAgent hagent
  cases heq
  exact ⟨agent, rest, hagent, hrest, rfl⟩

theorem records_of_parseAgents (h : parseAgents buf count off = .ok agents) :
    agents.length = count ∧
      ∀ r agent, agents[r]? = some agent → Record buf (recordFrom off agents r) agent := by
  induction count generalizing off agents with
  | zero =>
    cases h
    exact ⟨rfl, nofun⟩
  | succ count ih =>
    obtain ⟨agent, rest, hagent, hrest, rfl⟩ := parseAgents_succ h
    have hrecord := (record_of_parseAgent hagent).1
    obtain ⟨hlen, hrecords⟩ := ih hrest
    refine ⟨congrArg (· + 1) hlen, ?_⟩
    intro r found hfound
    cases r with
    | zero =>
      cases hfound
      exact hrecord
    | succ r => exact hrecords r found hfound

theorem parse_eq_ok (h : parse buf = .ok agents) :
    ∃ count, 0 < count ∧ count ≤ maxAgents ∧ count = word buf 8 4 ∧
      parseAgents buf count 16 = .ok agents := by
  unfold parse at h
  simp only [bind_eq_ok, require_eq_ok, exists_const, decide_eq_true_eq] at h
  obtain ⟨-, -, -, -, -, -, -, count, hcount, hrange, hagents⟩ := h
  obtain ⟨-, heq⟩ := readU32_eq_ok.1 hcount
  exact ⟨count, Nat.pos_of_ne_zero hrange.1, hrange.2, heq, hagents⟩

structure Alike (agent agent' : StoreAgent) : Prop where
  textPages : agent.textPages = agent'.textPages
  stackPages : agent.stackPages = agent'.stackPages
  slots : agent.slots = agent'.slots
  homeCpu : agent.homeCpu = agent'.homeCpu
  mayResolve : agent.mayResolve = agent'.mayResolve
  packetPool : agent.packetPool = agent'.packetPool
  window : agent.window = agent'.window
  imageLen : agent.image.length = agent'.image.length

def AgreeFrom (off : ℕ) (agents : List StoreAgent) (buf buf' : List UInt8) : Prop :=
  ∀ k, off ≤ k →
    (∀ r agent, agents[r]? = some agent → ¬ Payload (recordFrom off agents r) agent k) →
      buf[k]? = buf'[k]?

theorem Record.alike (h : Record buf off agent) (h' : Record buf' off agent')
    (hagree : ∀ k, off ≤ k → k < off + 48 → ¬ Payload off agent k → buf[k]? = buf'[k]?) :
    Alike agent agent' := by
  have hfield : ∀ a n, 16 ≤ a → a + n ≤ 36 ∨ 44 ≤ a → a + n ≤ 48 →
      (buf.drop (off + a)).take n = (buf'.drop (off + a)).take n := by
    intro a n hname hva hend
    apply field_congr
    intro k hlow hhigh
    apply hagree k (by omega) (by omega)
    unfold Payload
    omega
  have hword : ∀ a n, 16 ≤ a → a + n ≤ 36 ∨ 44 ≤ a → a + n ≤ 48 →
      word buf (off + a) n = word buf' (off + a) n := by
    intro a n hname hva hend
    rw [word, hfield a n hname hva hend, word]
  have htext := hword 16 4 (by omega) (by omega) (by omega)
  have hstack := hword 20 4 (by omega) (by omega) (by omega)
  have hslots := hfield 24 4 (by omega) (by omega) (by omega)
  have hreserved := hword 28 4 (by omega) (by omega) (by omega)
  have hwindow := hword 32 4 (by omega) (by omega) (by omega)
  have hlen := hword 44 4 (by omega) (by omega) (by omega)
  constructor
  · rw [h.textPages, h'.textPages, htext]
  · rw [h.stackPages, h'.stackPages, hstack]
  · rw [h.slots, h'.slots, hslots]
  · rw [h.homeCpu, h'.homeCpu, hreserved]
  · rw [h.mayResolve, h'.mayResolve, hreserved]
  · rw [h.packetPool, h'.packetPool, hreserved]
  · rw [h.window, h'.window, hwindow]
  · rw [h.imageLen, h'.imageLen, hlen]

theorem Payload.lt_next (h : Payload off agent k) : off ≤ k ∧ k < nextRecord off agent := by
  unfold Payload at h
  refine ⟨by omega, lt_nextRecord ?_⟩
  omega

theorem AgreeFrom.tail (h : AgreeFrom off (agent :: rest) buf buf') :
    AgreeFrom (nextRecord off agent) rest buf buf' := by
  intro k hk hfree
  have hoff : off ≤ nextRecord off agent := le_recordFrom off [agent] 1
  apply h k (le_trans hoff hk)
  intro r found hfound hpayload
  cases r with
  | zero =>
    cases hfound
    have hlt := hpayload.lt_next.2
    rw [recordFrom_zero] at hlt
    omega
  | succ r => exact hfree r found hfound hpayload

theorem AgreeFrom.head (h : AgreeFrom off (agent :: rest) buf buf') (hlow : off ≤ k)
    (hhigh : k < off + 48) (hfree : ¬ Payload off agent k) : buf[k]? = buf'[k]? := by
  apply h k hlow
  intro r found hfound hpayload
  cases r with
  | zero =>
    cases hfound
    exact hfree hpayload
  | succ r =>
    rw [recordFrom_succ] at hpayload
    have hnext : off + 47 < nextRecord off agent := lt_nextRecord (by omega)
    have hafter := le_recordFrom (nextRecord off agent) rest r
    have hstart := hpayload.lt_next.1
    omega

theorem alike_of_parseAgents (h : parseAgents buf count off = .ok agents)
    (h' : parseAgents buf' count off = .ok agents') (hagree : AgreeFrom off agents buf buf') :
    List.Forall₂ Alike agents agents' := by
  induction count generalizing off agents agents' with
  | zero =>
    cases h
    cases h'
    exact .nil
  | succ count ih =>
    obtain ⟨agent, rest, hagent, hrest, rfl⟩ := parseAgents_succ h
    obtain ⟨agent', rest', hagent', hrest', rfl⟩ := parseAgents_succ h'
    have halike : Alike agent agent' :=
      (record_of_parseAgent hagent).1.alike (record_of_parseAgent hagent').1
        fun k hlow hhigh hfree => hagree.head hlow hhigh hfree
    have hnext : nextRecord off agent' = nextRecord off agent := by
      rw [nextRecord, ← halike.imageLen, nextRecord]
    rw [hnext] at hrest'
    exact .cons halike (ih hrest hrest' hagree.tail)

def Bound (packetPool : Bool) (held : List (Option CapId)) : Option UInt8 → Option CapId → Prop
  | none, none => True
  | some j, some c =>
    held[j.toNat]? = some (some c) ∧ (packetCapabilityStart ≤ j → packetPool = true)
  | _, _ => False

theorem bindFrom_bound {slot : ℕ} {wanted : List (Option UInt8)}
    (h : bindFrom packetPool held slot wanted = .ok slots) :
    List.Forall₂ (Bound packetPool held) wanted slots := by
  induction wanted generalizing slot slots with
  | nil =>
    cases h
    exact .nil
  | cons first rest ih =>
    cases first with
    | none =>
      rw [bindFrom] at h
      cases hrest : bindFrom packetPool held (slot + 1) rest with
      | error e => rw [hrest] at h; cases h
      | ok bound =>
        rw [hrest] at h
        cases h
        exact .cons trivial (ih hrest)
    | some j =>
      rw [bindFrom] at h
      split at h
      · cases h
      rename_i cap hcap
      split at h
      · cases h
      rename_i hpool
      cases cap with
      | none => cases h
      | some c =>
        cases hrest : bindFrom packetPool held (slot + 1) rest with
        | error e => rw [hrest] at h; cases h
        | ok bound =>
          rw [hrest] at h
          cases h
          refine .cons ⟨hcap, ?_⟩ (ih hrest)
          intro hj
          cases packetPool with
          | false => exact absurd ⟨hj, rfl⟩ hpool
          | true => rfl

theorem bindWindow_ok (h : bindWindow entry windows = .ok device) :
    (entry.device = none ∧ device = none) ∨
      ∃ grant window, entry.device = some grant ∧
        windows[grant.window.toNat]? = some (some window) ∧ window.isValid = true ∧
        device = some ⟨grant.va, window.pa, window.len, window.perms⟩ := by
  unfold bindWindow at h
  split at h
  · rename_i hnone
    cases h
    exact .inl ⟨hnone, rfl⟩
  rename_i grant hgrant
  split at h
  · cases h
  · cases h
  · rename_i window hwindow
    split at h
    · cases h
    rename_i hvalid
    cases h
    refine .inr ⟨grant, window, hgrant, hwindow, ?_, rfl⟩
    cases hw : window.isValid with
    | false => exact absurd (by rw [hw]; rfl) hvalid
    | true => rfl

theorem planEntry_spawn
    (h : planEntry held windows frameSize r entry = .spawn index homeCpu slots device) :
    bind entry held = .ok slots ∧ bindWindow entry windows = .ok device := by
  unfold planEntry at h
  split at h
  · cases h
  split at h
  · cases h
  rename_i hbind
  split at h
  · cases h
  rename_i hwindow
  cases h
  exact ⟨hbind, hwindow⟩

/-- An entry is refused by one of the three checks. -/
def Refused (held : List (Option CapId)) (windows : List (Option Window)) (frameSize : ℕ)
    (entry : AgentEntry) : Prop :=
  (∃ e, entry.validate frameSize = .error e) ∨ (∃ e, bind entry held = .error e) ∨
    ∃ e, bindWindow entry windows = .error e

theorem planEntry_refuse_iff (held : List (Option CapId)) (windows : List (Option Window))
    (frameSize r : ℕ) (entry : AgentEntry) :
    (∃ reason, planEntry held windows frameSize r entry = .refuse reason) ↔
      Refused held windows frameSize entry := by
  unfold planEntry Refused
  cases hvalid : entry.validate frameSize with
  | error e => simp only [EntryPlan.refuse.injEq, exists_eq', Except.error.injEq, true_or]
  | ok u =>
    cases hbind : bind entry held with
    | error e =>
      simp only [EntryPlan.refuse.injEq, exists_eq', Except.error.injEq, true_or, or_true]
    | ok slots =>
      cases hwindow : bindWindow entry windows with
      | error e =>
        simp only [EntryPlan.refuse.injEq, exists_eq', Except.error.injEq, or_true]
      | ok device => simp only [reduceCtorEq, exists_false, or_self]

/-- What the record at an offset obtains: capabilities at the positions its slot bytes name, and
the window its window byte names. -/
structure Granted (buf : List UInt8) (off : ℕ) (held : List (Option CapId))
    (windows : List (Option Window)) (slots : List (Option CapId))
    (device : Option ResolvedWindow) : Prop where
  length : slots.length = maxSlots
  capability : ∀ i < maxSlots, ∀ c, slots[i]? = some (some c) ↔
    ∃ j, buf[off + 24 + i]? = some j ∧ j ≠ slotNone ∧ held[j.toNat]? = some (some c)
  pool : ∀ i < maxSlots, ∀ j, buf[off + 24 + i]? = some j → j ≠ slotNone →
    packetCapabilityStart ≤ j → (word buf (off + 28) 4).testBit 9 = true
  window : ∀ d, device = some d → ∃ w window, buf[off + 32]? = some w ∧ w ≠ windowNone ∧
    windows[w.toNat]? = some (some window) ∧ window.isValid = true ∧
      d.pa = window.pa ∧ d.len = window.len ∧ d.perms = window.perms

theorem Record.slot {i : ℕ} (h : Record buf off agent) (hi : i < maxSlots) :
    ∃ j, buf[off + 24 + i]? = some j ∧
      (toEntry agent).slots[i]? = some (if j ≠ slotNone then some j else none) := by
  have hfits := h.fits
  unfold maxSlots at hi
  refine ⟨buf[off + 24 + i], List.getElem?_eq_getElem (by omega), ?_⟩
  have hbyte : agent.slots[i]? = some buf[off + 24 + i] := by
    rw [h.slots, List.getElem?_take, if_pos hi, List.getElem?_drop]
    exact List.getElem?_eq_getElem (by omega)
  simp only [toEntry, List.getElem?_map, hbyte, Option.map_some]

theorem Record.length_slots (h : Record buf off agent) :
    (toEntry agent).slots.length = maxSlots := by
  have hfits := h.fits
  simp only [toEntry, List.length_map, h.slots, List.length_take, List.length_drop, maxSlots]
  omega

theorem Record.window_byte (h : Record buf off agent) : buf[off + 32]? = some agent.window := by
  have hfits := h.fits
  have hbyte : off + 32 < buf.length := by omega
  have hsplit : (buf.drop (off + 32)).take 4 =
      buf[off + 32] :: (buf.drop (off + 32 + 1)).take 3 := by
    rw [List.drop_eq_getElem_cons hbyte, List.take_succ_cons]
  have hlow : UInt8.ofNat (word buf (off + 32) 4) = buf[off + 32] := by
    apply UInt8.toNat.inj
    rw [word, hsplit, leNat_cons, UInt8.toNat_ofNat']
    have hlt := buf[off + 32].toNat_lt
    omega
  rw [h.window, hlow, List.getElem?_eq_getElem hbyte]

theorem bound_some_iff (h : Bound packetPool held (if j ≠ slotNone then some j else none) cap)
    (c : CapId) : cap = some c ↔ j ≠ slotNone ∧ held[j.toNat]? = some (some c) := by
  by_cases hj : j ≠ slotNone
  · rw [if_pos hj] at h
    cases cap with
    | none => exact h.elim
    | some found =>
      rw [h.1]
      simp only [Option.some.injEq, hj, ne_eq, not_false_eq_true, true_and]
  rw [if_neg hj] at h
  cases cap with
  | none => exact ⟨nofun, fun hc => absurd hc.1 hj⟩
  | some found => exact h.elim

theorem bound_pool (h : Bound packetPool held (some j) cap) (hj : packetCapabilityStart ≤ j) :
    packetPool = true := by
  cases cap with
  | none => exact h.elim
  | some found => exact h.2 hj

/-- The plan of a record gives it what its bytes name. -/
theorem Record.granted (h : Record buf off agent)
    (hplan : planEntry held windows frameSize r (toEntry agent) =
      .spawn index homeCpu slots device) :
    Granted buf off held windows slots device := by
  obtain ⟨hbind, hwindow⟩ := planEntry_spawn hplan
  have hbound := bindFrom_bound hbind
  have hlen : slots.length = maxSlots := hbound.length_eq.symm.trans h.length_slots
  have hat : ∀ i < maxSlots, ∃ j cap, buf[off + 24 + i]? = some j ∧ slots[i]? = some cap ∧
      Bound agent.packetPool held (if j ≠ slotNone then some j else none) cap := by
    intro i hi
    obtain ⟨j, hbyte, hslot⟩ := h.slot hi
    obtain ⟨hi', hwanted⟩ := List.getElem?_eq_some_iff.1 hslot
    refine ⟨j, slots[i], hbyte, List.getElem?_eq_getElem (by omega), ?_⟩
    have hrel := (List.forall₂_iff_get.1 hbound).2 i hi' (by omega)
    simp only [List.get_eq_getElem] at hrel
    rw [hwanted] at hrel
    exact hrel
  constructor
  · exact hlen
  · intro i hi c
    obtain ⟨j, cap, hbyte, hcap, hrel⟩ := hat i hi
    rw [hcap, hbyte, Option.some.injEq, bound_some_iff hrel]
    simp only [Option.some.injEq, exists_eq_left']
  · intro i hi j hj hne hpacket
    obtain ⟨j', cap, hbyte, -, hrel⟩ := hat i hi
    cases hj.symm.trans hbyte
    rw [if_pos hne] at hrel
    rw [← h.packetPool]
    exact bound_pool hrel hpacket
  · intro d hd
    rcases bindWindow_ok hwindow with ⟨-, hnone⟩ | ⟨grant, window, hgrant, hfound, hvalid, hdev⟩
    · cases hnone.symm.trans hd
    cases hdev.symm.trans hd
    simp only [toEntry] at hgrant
    by_cases hw : agent.window ≠ windowNone
    · rw [if_pos hw] at hgrant
      cases hgrant
      exact ⟨agent.window, window, h.window_byte, hw, hfound, hvalid, rfl, rfl, rfl⟩
    · rw [if_neg hw] at hgrant
      cases hgrant

def ResolvedWindow.physical (d : ResolvedWindow) : ℕ × ℕ × Perms := (d.pa, d.len, d.perms)

def EntryPlan.authority : EntryPlan → Option (List (Option CapId) × Option (ℕ × ℕ × Perms))
  | .spawn _ _ slots device => some (slots, device.map ResolvedWindow.physical)
  | .refuse _ => none

/-- Two stores that differ in the payload of the records of the first at most. -/
def DifferInPayload (agents : List StoreAgent) (buf buf' : List UInt8) : Prop :=
  ∀ k, (∀ r agent, agents[r]? = some agent → ¬ Payload (recordOffset agents r) agent k) →
    buf[k]? = buf'[k]?

theorem Alike.bindWindow (h : Alike agent agent') (windows : List (Option Window)) :
    (LoaderPlan.bindWindow (toEntry agent) windows).map (·.map ResolvedWindow.physical) =
      (LoaderPlan.bindWindow (toEntry agent') windows).map
        (·.map ResolvedWindow.physical) := by
  simp only [LoaderPlan.bindWindow, toEntry, ← h.window]
  by_cases hw : agent.window ≠ windowNone
  · simp only [if_pos hw]
    cases hfound : windows[agent.window.toNat]? with
    | none => rfl
    | some found =>
      cases found with
      | none => rfl
      | some window =>
        by_cases hvalid : (!window.isValid) = true
        · simp only [if_pos hvalid]
        · simp only [if_neg hvalid]
          rfl
  · simp only [if_neg hw]

theorem validate_congr {entry' : AgentEntry} (htext : entry.textPages = entry'.textPages)
    (hstack : entry.stackPages = entry'.stackPages)
    (hlen : entry.image.length = entry'.image.length) (hhome : entry.homeCpu = entry'.homeCpu) :
    entry.validate frameSize = entry'.validate frameSize := by
  unfold AgentEntry.validate
  rw [htext, hstack, hlen, hhome]

theorem Alike.authority (h : Alike agent agent') (held : List (Option CapId))
    (windows : List (Option Window)) (frameSize r : ℕ) :
    EntryPlan.authority (planEntry held windows frameSize r (toEntry agent)) =
      EntryPlan.authority (planEntry held windows frameSize r (toEntry agent')) := by
  have hvalid : (toEntry agent).validate frameSize = (toEntry agent').validate frameSize :=
    validate_congr h.textPages h.stackPages h.imageLen h.homeCpu
  have hbind : bind (toEntry agent) held = bind (toEntry agent') held := by
    simp only [LoaderPlan.bind, toEntry, h.packetPool, h.slots]
  have hwindow := h.bindWindow windows
  unfold planEntry
  rw [hvalid, hbind]
  cases (toEntry agent').validate frameSize with
  | error e => rfl
  | ok u =>
    cases bind (toEntry agent') held with
    | error e => rfl
    | ok slots =>
      cases hdev : LoaderPlan.bindWindow (toEntry agent) windows with
      | error e =>
        cases hdev' : LoaderPlan.bindWindow (toEntry agent') windows with
        | error e' => rfl
        | ok device' =>
          rw [hdev, hdev'] at hwindow
          cases hwindow
      | ok device =>
        cases hdev' : LoaderPlan.bindWindow (toEntry agent') windows with
        | error e' =>
          rw [hdev, hdev'] at hwindow
          cases hwindow
        | ok device' =>
          rw [hdev, hdev'] at hwindow
          have heq := Except.ok.inj hwindow
          simp only [EntryPlan.authority, heq]

theorem alike_of_parse (h : parse buf = .ok agents) (h' : parse buf' = .ok agents')
    (hdiffer : DifferInPayload agents buf buf') : List.Forall₂ Alike agents agents' := by
  obtain ⟨count, -, -, hcount, hagents⟩ := parse_eq_ok h
  obtain ⟨count', -, -, hcount', hagents'⟩ := parse_eq_ok h'
  have hsame : count' = count := by
    rw [hcount, hcount', word, word, field_congr]
    intro k hlow hhigh
    apply (hdiffer k _).symm
    intro r agent _ hpayload
    have hstart := le_recordFrom 16 agents r
    have hafter := hpayload.lt_next.1
    unfold recordOffset at hafter
    omega
  rw [hsame] at hagents'
  exact alike_of_parseAgents hagents hagents' fun k _ hfree => hdiffer k hfree

theorem planStore_of_parse (h : parse buf = .ok agents) (held : List (Option CapId))
    (windows : List (Option Window)) :
    planStore buf held windows =
      some ((agents.map toEntry).mapIdx (planEntry held windows pageSize)) := by
  obtain ⟨count, hpos, hmax, -, hagents⟩ := parse_eq_ok h
  have hlen := (records_of_parseAgents hagents).1
  have hne : agents.map toEntry ≠ [] := by
    intro hnil
    rw [List.map_eq_nil_iff] at hnil
    rw [hnil, List.length_nil] at hlen
    omega
  have hfits : ¬ maxAgents < (agents.map toEntry).length := by
    rw [List.length_map]
    omega
  simp only [planStore, h, plan, if_neg hne, if_neg hfits]

theorem authority_of_alike (h : List.Forall₂ Alike agents agents') (held : List (Option CapId))
    (windows : List (Option Window)) (frameSize : ℕ) :
    ((agents.map toEntry).mapIdx (planEntry held windows frameSize)).map EntryPlan.authority =
      ((agents'.map toEntry).mapIdx (planEntry held windows frameSize)).map
        EntryPlan.authority := by
  have hlen := h.length_eq
  apply List.ext_getElem
  · simp only [List.length_map, List.length_mapIdx, hlen]
  intro r hr hr'
  simp only [List.length_map, List.length_mapIdx] at hr hr'
  simp only [List.getElem_map, List.getElem_mapIdx]
  have halike := (List.forall₂_iff_get.1 h).2 r hr hr'
  exact halike.authority held windows frameSize r

/-- A store obtains nothing but what its records name in the loader's vocabularies. Names,
addresses of windows and images have no part in it, and an entry is refused for itself. -/
theorem store_mints_no_authority (held : List (Option CapId)) (windows : List (Option Window)) :
    (∀ buf agents, parse buf = .ok agents → ∃ plans, planStore buf held windows = some plans ∧
      plans.length = agents.length ∧ ∀ r index homeCpu slots device,
        plans[r]? = some (.spawn index homeCpu slots device) →
          Granted buf (recordOffset agents r) held windows slots device) ∧
    (∀ buf buf' agents agents', parse buf = .ok agents → parse buf' = .ok agents' →
      DifferInPayload agents buf buf' →
        (planStore buf held windows).map (·.map EntryPlan.authority) =
          (planStore buf' held windows).map (·.map EntryPlan.authority)) ∧
    (∀ table frameSize capacity plans, plan table held windows frameSize capacity = .ok plans →
      ∀ (r : ℕ) (entry : AgentEntry), table[r]? = some entry →
        ((∃ reason, plans[r]? = some (EntryPlan.refuse reason)) ↔
          Refused held windows frameSize entry)) := by
  refine ⟨?_, ?_, ?_⟩
  · intro buf agents hparse
    obtain ⟨count, -, -, -, hagents⟩ := parse_eq_ok hparse
    refine ⟨_, planStore_of_parse hparse held windows, ?_, ?_⟩
    · rw [List.length_mapIdx, List.length_map]
    intro r index homeCpu slots device hplan
    rw [List.getElem?_mapIdx, List.getElem?_map] at hplan
    cases hagent : agents[r]? with
    | none =>
      rw [hagent] at hplan
      cases hplan
    | some agent =>
      rw [hagent] at hplan
      have hrecord := (records_of_parseAgents hagents).2 r agent hagent
      exact hrecord.granted (Option.some.inj hplan)
  · intro buf buf' agents agents' hparse hparse' hdiffer
    have halike := alike_of_parse hparse hparse' hdiffer
    rw [planStore_of_parse hparse, planStore_of_parse hparse', Option.map_some, Option.map_some,
      authority_of_alike halike]
  · intro table frameSize capacity plans hplan r entry hentry
    unfold plan at hplan
    split at hplan
    · cases hplan
    split at hplan
    · cases hplan
    cases hplan
    rw [← planEntry_refuse_iff held windows frameSize r entry, List.getElem?_mapIdx, hentry]
    simp only [Option.map_some, Option.some.injEq]

def record (letter slot window : UInt8) (image : List UInt8) : List UInt8 :=
  letter :: List.replicate 15 0 ++ [1, 0, 0, 0, 1, 0, 0, 0, slot, 0xFF, 0xFF, 0xFF, 0, 0, 0, 0,
    window, 0, 0, 0] ++ List.replicate 8 0 ++ [UInt8.ofNat image.length, 0, 0, 0] ++ image

/-- The first record asks for the second capability and the first window, the second record for a
capability that is not there. -/
def twoRecords (letter : UInt8) : List UInt8 :=
  [0x48, 0x41, 0x52, 0x42, 2, 0, 0, 0, 2, 0, 0, 0, 0, 0, 0, 0] ++
    record letter 1 0 [letter, 0, 0, 0] ++ record letter 0 0xFF []

def twoAgents (letter : UInt8) : List StoreAgent :=
  [⟨[letter], 1, 1, [1, 0xFF, 0xFF, 0xFF], 0, false, false, 0, 0, [letter, 0, 0, 0]⟩,
    ⟨[letter], 1, 1, [0, 0xFF, 0xFF, 0xFF], 0, false, false, 0xFF, 0, []⟩]

/-- Stores with other names and another image bind the same. -/
theorem store_mints_no_authority_two : ∃ held windows plans slots device,
    parse (twoRecords 0x61) = .ok (twoAgents 0x61) ∧
    planStore (twoRecords 0x61) held windows = some plans ∧
    plans[0]? = some (.spawn 0 0 slots (some device)) ∧
    Granted (twoRecords 0x61) 16 held windows slots (some device) ∧
    (planStore (twoRecords 0x61) held windows).map (·.map EntryPlan.authority) =
      (planStore (twoRecords 0x62) held windows).map (·.map EntryPlan.authority) ∧
    ∃ entry, (twoAgents 0x61)[1]?.map toEntry = some entry ∧
      Refused held windows pageSize entry := by
  let held : List (Option CapId) := [none, some ⟨7⟩]
  let windows : List (Option Window) := [some ⟨0x1000, 0x2000, .userRw⟩]
  let plans : List EntryPlan :=
    [.spawn 0 0 [some ⟨7⟩, none, none, none] (some ⟨0, 0x1000, 0x2000, .userRw⟩),
      .refuse (.unheld (.heldVacant 0 0))]
  obtain ⟨hgrants, hpayload, hrefused⟩ := store_mints_no_authority held windows
  have hparse : ∀ letter ∈ [0x61, 0x62], parse (twoRecords letter) = .ok (twoAgents letter) := by
    decide +kernel
  have hplan : plan ((twoAgents 0x61).map toEntry) held windows pageSize maxAgents = .ok plans := by
    decide +kernel
  have hstore : planStore (twoRecords 0x61) held windows = some plans := by
    rw [planStore, hparse 0x61 (by decide)]
    simp only [hplan]
  obtain ⟨found, hfound, -, hgranted⟩ := hgrants _ _ (hparse 0x61 (by decide))
  cases hfound.symm.trans hstore
  -- the names and the first byte of the image are payload
  have hdiffer : DifferInPayload (twoAgents 0x61) (twoRecords 0x61) (twoRecords 0x62) := by
    intro k hk
    have hset : twoRecords 0x62 =
        (((twoRecords 0x61).set 16 0x62).set 64 0x62).set 68 0x62 := by decide +kernel
    have hname : 16 ≠ k := fun h => hk 0 _ rfl (h ▸ .inl (by decide))
    have himage : 64 ≠ k := fun h => hk 0 _ rfl (h ▸ .inr (.inr (by decide)))
    have hnext : 68 ≠ k := fun h => hk 1 _ rfl (h ▸ .inl (by decide))
    rw [hset, List.getElem?_set_ne hnext, List.getElem?_set_ne himage, List.getElem?_set_ne hname]
  exact ⟨held, windows, plans, _, _, hparse 0x61 (by decide), hstore, rfl,
    hgranted 0 0 0 _ _ rfl, hpayload _ _ _ _ (hparse 0x61 (by decide)) (hparse 0x62 (by decide))
      hdiffer, _, rfl, (hrefused _ _ _ _ hplan 1 _ rfl).1 ⟨_, rfl⟩⟩

end HarborKernel.StoreAuthority
