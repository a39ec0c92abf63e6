import HarborKernel.PacketWire
import HarborKernel.Transition

/-!
Runs of the packet pool. A run keeps beside the pool how often it was reset, what succeeded on
each slot since the last reset, and which tokens were issued or accepted with the number of resets
before that. The operations check the owner of a slot and not always its direction; that a slot
never changes direction is a fact about whole runs.
-/

namespace HarborKernel.Net

open Function Transition

inductive Event
  | accept
  | complete
  | publish
  | giveBack
deriving DecidableEq

namespace Event

def before : Event → SlotState
  | .accept => .txAgent
  | .complete => .txService
  | .publish => .rxService
  | .giveBack => .rxAgent

def after : Event → SlotState
  | .accept => .txService
  | .complete => .txAgent
  | .publish => .rxAgent
  | .giveBack => .rxService

end Event

inductive PoolOp
  | acceptTx (token : PacketToken)
  | submitTx (slot : ℕ) (generation : UInt32) (len : ℕ)
  | completeTx (token : PacketToken)
  | publishRx (slot len : ℕ)
  | returnRx (token : PacketToken)
  | reset
deriving DecidableEq

def PoolOp.event : PoolOp → Option (ℕ × Event)
  | .acceptTx token => some (token.slot.toNat, .accept)
  | .submitTx slot _ _ => some (slot, .accept)
  | .completeTx token => some (token.slot.toNat, .complete)
  | .publishRx slot _ => some (slot, .publish)
  | .returnRx token => some (token.slot.toNat, .giveBack)
  | .reset => none

namespace PacketPool

def apply (p : PacketPool) : PoolOp → Except PacketError (Option PacketToken) × PacketPool
  | .acceptTx token => ((p.acceptTx token).1.map fun _ => some token, (p.acceptTx token).2)
  | .submitTx slot generation len =>
    ((p.submitTx slot generation len).1.map some, (p.submitTx slot generation len).2)
  | .completeTx token => ((p.completeTx token).1.map fun _ => none, (p.completeTx token).2)
  | .publishRx slot len => ((p.publishRx slot len).1.map some, (p.publishRx slot len).2)
  | .returnRx token => ((p.returnRx token).1.map fun _ => none, (p.returnRx token).2)
  | .reset => (.ok none, p.reset)

@[simp] theorem setState_same (p : PacketPool) (slot : ℕ) (state : SlotState) :
    ((p.setState slot state).slots slot).state = state := by
  simp [setState]

@[simp] theorem setState_other (p : PacketPool) {slot i : ℕ} (state : SlotState) (h : i ≠ slot) :
    (p.setState slot state).slots i = p.slots i := by
  simp [setState, h]

@[simp] theorem setState_generation (p : PacketPool) (slot i : ℕ) (state : SlotState) :
    ((p.setState slot state).slots i).generation = (p.slots i).generation := by
  by_cases h : i = slot
  · subst h
    simp [setState]
  · rw [setState_other p state h]

theorem checkedSlot_cases (p : PacketPool) (slot : ℕ) (generation : UInt32) :
    (∃ e, p.checkedSlot slot generation = .error e) ∨
      (slot < packetSlots ∧ (p.slots slot).generation = generation ∧
        p.checkedSlot slot generation = .ok (p.slots slot)) := by
  unfold checkedSlot
  by_cases hslot : packetSlots ≤ slot
  · exact .inl ⟨_, if_pos hslot⟩
  by_cases hgeneration : (p.slots slot).generation = generation
  · refine .inr ⟨by omega, hgeneration, ?_⟩
    rw [if_neg hslot, if_neg (not_not.2 hgeneration)]
  · exact .inl ⟨_, by rw [if_neg hslot, if_pos hgeneration]⟩

theorem checkedToken_cases (p : PacketPool) (token : PacketToken) :
    (∃ e, p.checkedToken token = .error e) ∨
      (token.slot.toNat < packetSlots ∧ token.len.toNat ≤ packetBytes ∧
        (p.slots token.slot.toNat).generation = token.generation ∧
        p.checkedToken token = .ok (p.slots token.slot.toNat)) := by
  unfold checkedToken
  by_cases hlen : packetBytes < token.len.toNat
  · exact .inl ⟨_, if_pos hlen⟩
  rw [if_neg hlen]
  rcases p.checkedSlot_cases token.slot.toNat token.generation with h | ⟨hslot, hgen, h⟩
  · exact .inl h
  · exact .inr ⟨hslot, by omega, hgen, h⟩

inductive Outcome (p : PacketPool) (op : PoolOp) : Prop
  | refused (e : PacketError) (h : p.apply op = (.error e, p))
  | reset (hop : op = .reset) (h : p.apply op = (.ok none, p.reset))
  | moved (slot : ℕ) (event : Event) (given : Option PacketToken)
      (hevent : op.event = some (slot, event)) (hslot : slot < packetSlots)
      (hbefore : (p.slots slot).state = event.before)
      (hgiven : ∀ token ∈ given, token.slot.toNat = slot ∧ token.len.toNat ≤ packetBytes ∧
        token.generation = (p.slots slot).generation)
      (h : p.apply op = (.ok given, p.setState slot event.after))

section

variable (p : PacketPool)
include p

theorem acceptTx_outcome (token : PacketToken) :
    p.Outcome (.acceptTx token) := by
  rcases p.checkedToken_cases token with ⟨e, h⟩ | ⟨hslot, hlen, hgen, h⟩
  · exact .refused e (by simp [apply, acceptTx, h, Except.map])
  by_cases hside : packetSlots / 2 ≤ token.slot.toNat
  · exact .refused .wrongDirection (by simp [apply, acceptTx, h, hside, Except.map])
  by_cases howner : (p.slots token.slot.toNat).state = .txAgent
  · refine .moved _ .accept (some token) rfl hslot howner ?_ ?_
    · intro t ht
      cases ht
      exact ⟨rfl, hlen, hgen.symm⟩
    · simp [apply, acceptTx, h, hside, howner, Except.map, Event.after]
  · exact .refused .wrongOwner (by simp [apply, acceptTx, h, hside, howner, Except.map])

theorem submitTx_outcome (slot : ℕ) (generation : UInt32) (len : ℕ) :
    p.Outcome (.submitTx slot generation len) := by
  rcases p.checkedSlot_cases slot generation with ⟨e, h⟩ | ⟨hslot, hgen, h⟩
  · exact .refused e (by simp [apply, submitTx, h, Except.map])
  by_cases hside : packetSlots / 2 ≤ slot
  · exact .refused .wrongDirection (by simp [apply, submitTx, h, hside, Except.map])
  by_cases howner : (p.slots slot).state = .txAgent
  · by_cases hlen : packetBytes < len
    · exact .refused .oversize
        (by simp [apply, submitTx, h, hside, howner, hlen, Except.map])
    refine .moved _ .accept (some ⟨UInt8.ofNat slot, generation, UInt16.ofNat len⟩) rfl
      hslot howner ?_ ?_
    · intro t ht
      cases ht
      simp only [packetSlots, packetBytes] at hslot hlen ⊢
      refine ⟨?_, ?_, hgen.symm⟩
      · rw [UInt8.toNat_ofNat']
        omega
      · rw [UInt16.toNat_ofNat']
        omega
    · simp [apply, submitTx, h, hside, howner, hlen, Except.map, Event.after]
  · exact .refused .wrongOwner (by simp [apply, submitTx, h, hside, howner, Except.map])

theorem completeTx_outcome (token : PacketToken) :
    p.Outcome (.completeTx token) := by
  rcases p.checkedToken_cases token with ⟨e, h⟩ | ⟨hslot, _, _, h⟩
  · exact .refused e (by simp [apply, completeTx, h, Except.map])
  by_cases howner : (p.slots token.slot.toNat).state = .txService
  · refine .moved _ .complete none rfl hslot howner nofun ?_
    simp [apply, completeTx, h, howner, Except.map, Event.after]
  · exact .refused .wrongOwner (by simp [apply, completeTx, h, howner, Except.map])

theorem publishRx_outcome (slot len : ℕ) :
    p.Outcome (.publishRx slot len) := by
  by_cases hslot : packetSlots ≤ slot
  · exact .refused .slotOutOfRange (by simp [apply, publishRx, hslot, Except.map])
  by_cases hside : slot < packetSlots / 2
  · exact .refused .wrongDirection (by simp [apply, publishRx, hslot, hside, Except.map])
  by_cases howner : (p.slots slot).state = .rxService
  · by_cases hlen : packetBytes < len
    · exact .refused .oversize
        (by simp [apply, publishRx, hslot, hside, howner, hlen, Except.map])
    refine .moved slot .publish
      (some ⟨UInt8.ofNat slot, (p.slots slot).generation, UInt16.ofNat len⟩) rfl
      (Nat.not_le.1 hslot) howner ?_ ?_
    · intro t ht
      cases ht
      simp only [packetSlots, packetBytes] at hslot hlen ⊢
      refine ⟨?_, ?_, trivial⟩
      · rw [UInt8.toNat_ofNat']
        omega
      · rw [UInt16.toNat_ofNat']
        omega
    · simp [apply, publishRx, hslot, hside, howner, hlen, Except.map, Event.after]
  · exact .refused .wrongOwner (by simp [apply, publishRx, hslot, hside, howner, Except.map])

theorem returnRx_outcome (token : PacketToken) :
    p.Outcome (.returnRx token) := by
  rcases p.checkedToken_cases token with ⟨e, h⟩ | ⟨hslot, _, _, h⟩
  · exact .refused e (by simp [apply, returnRx, h, Except.map])
  by_cases howner : (p.slots token.slot.toNat).state = .rxAgent
  · refine .moved _ .giveBack none rfl hslot howner nofun ?_
    simp [apply, returnRx, h, howner, Except.map, Event.after]
  · exact .refused .wrongOwner (by simp [apply, returnRx, h, howner, Except.map])

theorem apply_outcome (op : PoolOp) : p.Outcome op := by
  cases op with
  | acceptTx token => exact p.acceptTx_outcome token
  | submitTx slot generation len => exact p.submitTx_outcome slot generation len
  | completeTx token => exact p.completeTx_outcome token
  | publishRx slot len => exact p.publishRx_outcome slot len
  | returnRx token => exact p.returnRx_outcome token
  | reset => exact .reset rfl rfl

end

end PacketPool

structure PoolRun where
  pool : PacketPool
  resets : ℕ
  log : ℕ → List Event
  held : List (PacketToken × ℕ)

namespace PoolRun

def start : PoolRun := ⟨.new, 0, fun _ => [], []⟩

def record (s : PoolRun) (pool : PacketPool) (given : Option PacketToken) :
    Option (ℕ × Event) → PoolRun
  | none => ⟨pool, s.resets + 1, fun _ => [], s.held⟩
  | some (slot, event) =>
    ⟨pool, s.resets, update s.log slot (s.log slot ++ [event]),
      given.toList.map (·, s.resets) ++ s.held⟩

def step (s : PoolRun) (op : PoolOp) : Option PoolRun :=
  match s.pool.apply op with
  | (.error _, pool) => some { s with pool }
  | (.ok given, pool) => some (s.record pool given op.event)

/-- The runs of a pool under arbitrary operations. -/
def Reachable : PoolRun → Prop := Reach (· = start) step fun _ _ => True

def phase (slot n : ℕ) : SlotState :=
  if slot < packetSlots / 2 then if n % 2 = 0 then .txAgent else .txService
  else if n % 2 = 0 then .rxService else .rxAgent

def turn (slot n : ℕ) : Event :=
  if slot < packetSlots / 2 then if n % 2 = 0 then .accept else .complete
  else if n % 2 = 0 then .publish else .giveBack

variable {slot i : ℕ} {event : Event} {s : PoolRun}

theorem turn_of_phase {n : ℕ} (h : phase slot n = event.before) :
    turn slot n = event ∧ phase slot (n + 1) = event.after := by
  unfold phase turn at *
  by_cases hside : slot < packetSlots / 2 <;> by_cases hn : n % 2 = 0
  all_goals
    have hsucc : (n + 1) % 2 = 0 ↔ ¬ n % 2 = 0 := by omega
    simp only [hside, hn, hsucc, if_true, if_false, not_true_eq_false, not_false_eq_true] at h ⊢
    cases event <;> first | exact ⟨rfl, rfl⟩ | cases h

structure Ordered (s : PoolRun) : Prop where
  state : ∀ i, (s.pool.slots i).state = phase i (s.log i).length
  turns : ∀ i k, k < (s.log i).length → (s.log i)[k]? = some (turn i k)
  generation : ∀ i, (s.pool.slots i).generation = UInt32.ofNat s.resets
  held : ∀ token k, (token, k) ∈ s.held → k ≤ s.resets ∧ token.slot.toNat < packetSlots ∧
    token.len.toNat ≤ packetBytes ∧ token.generation = UInt32.ofNat k

theorem ordered_start : Ordered start where
  state i := by
    unfold phase
    simp [start, PacketPool.new, PacketPool.fresh]
  turns i k hk := absurd hk (Nat.not_lt_zero k)
  generation i := rfl
  held token k h := by cases h

theorem Ordered.reset (h : Ordered s) : Ordered (s.record s.pool.reset none none) where
  state i := by
    unfold phase
    simp [record, PacketPool.reset, PacketPool.fresh]
  turns i k hk := absurd hk (Nat.not_lt_zero k)
  generation i := by
    show (s.pool.slots i).generation + 1 = UInt32.ofNat (s.resets + 1)
    rw [h.generation i, UInt32.ofNat_add]
    rfl
  held token k hmem := by
    obtain ⟨hk, hrest⟩ := h.held token k hmem
    exact ⟨Nat.le_succ_of_le hk, hrest⟩

theorem Ordered.moved (h : Ordered s) {given : Option PacketToken} (hslot : slot < packetSlots)
    (hbefore : (s.pool.slots slot).state = event.before)
    (hgiven : ∀ token ∈ given, token.slot.toNat = slot ∧ token.len.toNat ≤ packetBytes ∧
      token.generation = (s.pool.slots slot).generation) :
    Ordered (s.record (s.pool.setState slot event.after) given (some (slot, event))) := by
  obtain ⟨hturn, hphase⟩ := turn_of_phase ((h.state slot).symm.trans hbefore)
  refine ⟨?_, ?_, ?_, ?_⟩
  · intro i
    by_cases hi : i = slot
    · subst hi
      simp only [record, PacketPool.setState_same, update_self, List.length_append,
        List.length_singleton, hphase]
    · simp only [record, PacketPool.setState_other _ _ hi, update_of_ne hi]
      exact h.state i
  · intro i k hk
    by_cases hi : i = slot
    · subst hi
      simp only [record, update_self, List.length_append, List.length_singleton] at hk ⊢
      by_cases hlast : k < (s.log i).length
      · rw [List.getElem?_append_left hlast]
        exact h.turns i k hlast
      · have heq : k = (s.log i).length := by omega
        rw [heq, List.getElem?_concat_length, hturn]
    · simp only [record, update_of_ne hi] at hk ⊢
      exact h.turns i k hk
  · intro i
    exact (PacketPool.setState_generation ..).trans (h.generation i)
  · intro token k hmem
    simp only [record, List.mem_append, List.mem_map, Option.mem_toList] at hmem
    rcases hmem with ⟨t, ht, heq⟩ | hold
    · cases heq
      obtain ⟨hsame, hlen, hgen⟩ := hgiven token ht
      exact ⟨le_rfl, hsame ▸ hslot, hlen, hgen.trans (h.generation slot)⟩
    · exact h.held token k hold

theorem Ordered.step {s' : PoolRun} {op : PoolOp} (h : Ordered s) (hs : s.step op = some s') :
    Ordered s' := by
  rcases s.pool.apply_outcome op with ⟨e, happly⟩ | ⟨hop, happly⟩ |
    ⟨slot, event, given, hevent, hslot, hbefore, hgiven, happly⟩
  · simp only [PoolRun.step, happly, Option.some.injEq] at hs
    exact hs ▸ h
  · simp only [PoolRun.step, happly, Option.some.injEq] at hs
    subst hop
    exact hs ▸ h.reset
  · simp only [PoolRun.step, happly, hevent, Option.some.injEq] at hs
    exact hs ▸ h.moved hslot hbefore hgiven

theorem Reachable.ordered (h : Reachable s) : Ordered s :=
  Reach.invariant (fun _ hs => hs ▸ ordered_start) (fun _ _ _ hi _ hs => hi.step hs) h

/-- The events are `first`, `second`, `first` and so on. -/
def Alternate (first second : Event) (log : List Event) : Prop :=
  ∀ k < log.length, log[k]? = some (if k % 2 = 0 then first else second)

theorem Ordered.alternate_tx (h : Ordered s) (hi : i < packetSlots / 2) :
    Alternate .accept .complete (s.log i) := by
  intro k hk
  rw [h.turns i k hk, turn, if_pos hi]

theorem Ordered.alternate_rx (h : Ordered s) (hi : packetSlots / 2 ≤ i) :
    Alternate .publish .giveBack (s.log i) := by
  intro k hk
  rw [h.turns i k hk, turn, if_neg (Nat.not_lt.2 hi)]

theorem Ordered.direction_tx (h : Ordered s) (hi : i < packetSlots / 2) :
    (s.pool.slots i).state = .txAgent ∨ (s.pool.slots i).state = .txService := by
  rw [h.state i, phase, if_pos hi]
  split
  · exact .inl rfl
  · exact .inr rfl

theorem Ordered.direction_rx (h : Ordered s) (hi : packetSlots / 2 ≤ i) :
    (s.pool.slots i).state = .rxService ∨ (s.pool.slots i).state = .rxAgent := by
  rw [h.state i, phase, if_neg (Nat.not_lt.2 hi)]
  split
  · exact .inl rfl
  · exact .inr rfl

end PoolRun

namespace PacketPool

/-- Every operation that takes the token finds its generation stale. -/
def Refuses (p : PacketPool) (token : PacketToken) : Prop :=
  (p.acceptTx token).1 = .error .staleGeneration ∧
    (∀ len, (p.submitTx token.slot.toNat token.generation len).1 = .error .staleGeneration) ∧
    (p.completeTx token).1 = .error .staleGeneration ∧
    (p.returnRx token).1 = .error .staleGeneration

theorem refuses_of_generation (p : PacketPool) {token : PacketToken}
    (hslot : token.slot.toNat < packetSlots) (hlen : token.len.toNat ≤ packetBytes)
    (hne : (p.slots token.slot.toNat).generation ≠ token.generation) : p.Refuses token := by
  have hcheck : p.checkedSlot token.slot.toNat token.generation = .error .staleGeneration := by
    rw [checkedSlot, if_neg (Nat.not_le.2 hslot), if_pos hne]
  have htoken : p.checkedToken token = .error .staleGeneration := by
    rw [checkedToken, if_neg (Nat.not_lt.2 hlen), hcheck]
  refine ⟨?_, ?_, ?_, ?_⟩
  · simp only [acceptTx, htoken]
  · intro len
    simp only [submitTx, hcheck]
  · simp only [completeTx, htoken]
  · simp only [returnRx, htoken]

/-- Submission checks the length last and acceptance checks it first; they agree on when the
slot is handed over and on what then changes. -/
theorem acceptTx_submitTx (p : PacketPool) (token : PacketToken) :
    ((p.acceptTx token).1.isOk =
        (p.submitTx token.slot.toNat token.generation token.len.toNat).1.isOk) ∧
      (p.acceptTx token).2 =
        (p.submitTx token.slot.toNat token.generation token.len.toNat).2 := by
  unfold acceptTx submitTx checkedToken
  cases p.checkedSlot token.slot.toNat token.generation with
  | error e =>
    by_cases hlen : packetBytes < token.len.toNat
    · rw [if_pos hlen]
      exact ⟨rfl, rfl⟩
    · rw [if_neg hlen]
      exact ⟨rfl, rfl⟩
  | ok slot =>
    by_cases hlen : packetBytes < token.len.toNat <;>
      by_cases hside : packetSlots / 2 ≤ token.slot.toNat <;>
      by_cases howner : slot.state = .txAgent <;>
      simp [hlen, hside, howner, Except.isOk, Except.toBool]

theorem apply_error {p : PacketPool} {op : PoolOp} {e : PacketError}
    (h : (p.apply op).1 = .error e) : (p.apply op).2 = p := by
  rcases p.apply_outcome op with ⟨_, happly⟩ | ⟨_, happly⟩ | ⟨_, _, _, _, _, _, _, happly⟩
  · rw [happly]
  · rw [happly] at h
    cases h
  · rw [happly] at h
    cases h

end PacketPool

/-- A token is stale once the pool was reset, until the generation counter comes round. -/
theorem PoolRun.Ordered.refuses {s : PoolRun} (h : s.Ordered) {token : PacketToken} {k : ℕ}
    (hheld : (token, k) ∈ s.held) (hafter : k < s.resets) (hround : s.resets < k + 2 ^ 32) :
    s.pool.Refuses token := by
  obtain ⟨_, hslot, hlen, hgen⟩ := h.held token k hheld
  apply s.pool.refuses_of_generation hslot hlen
  rw [h.generation, hgen]
  intro heq
  have hmod := congrArg UInt32.toNat heq
  rw [UInt32.toNat_ofNat', UInt32.toNat_ofNat'] at hmod
  omega

/-- Packet ownership over every run of the pool, and the wire form of its requests. -/
theorem packet_pool_ownership :
    (∀ s : PoolRun, s.Reachable →
      (∀ i < packetSlots / 2,
        ((s.pool.slots i).state = .txAgent ∨ (s.pool.slots i).state = .txService) ∧
          PoolRun.Alternate .accept .complete (s.log i)) ∧
      (∀ i, packetSlots / 2 ≤ i → i < packetSlots →
        ((s.pool.slots i).state = .rxService ∨ (s.pool.slots i).state = .rxAgent) ∧
          PoolRun.Alternate .publish .giveBack (s.log i)) ∧
      ∀ token k, (token, k) ∈ s.held → k < s.resets → s.resets < k + 2 ^ 32 →
        s.pool.Refuses token) ∧
    (∀ (p : PacketPool) op e, (p.apply op).1 = .error e → (p.apply op).2 = p) ∧
    (∀ (p : PacketPool) token,
      ((p.acceptTx token).1.isOk =
          (p.submitTx token.slot.toNat token.generation token.len.toNat).1.isOk) ∧
        (p.acceptTx token).2 =
          (p.submitTx token.slot.toNat token.generation token.len.toNat).2) ∧
    ∀ token : PacketToken, token.len.toNat ≤ packetBytes →
      decode (txSubmit token) = .ok (.txSubmit token) ∧
        decode (rxReturn token) = .ok (.rxReturn token) := by
  refine ⟨?_, ?_, PacketPool.acceptTx_submitTx, ?_⟩
  · intro s hs
    have hordered := PoolRun.Reachable.ordered hs
    refine ⟨?_, ?_, ?_⟩
    · intro i hi
      exact ⟨hordered.direction_tx hi, hordered.alternate_tx hi⟩
    · intro i hi _
      exact ⟨hordered.direction_rx hi, hordered.alternate_rx hi⟩
    · intro token k hheld hafter hround
      exact hordered.refuses hheld hafter hround
  · intro p op e h
    exact PacketPool.apply_error h
  · intro token h
    exact ⟨decode_txSubmit token h, decode_rxReturn token h⟩

/-- A token submitted before a reset is refused after it. -/
theorem packet_pool_ownership_reset :
    (∃ s : PoolRun, s.Reachable ∧ s.resets = 1 ∧ s.pool.Refuses ⟨0, 0, 64⟩) ∧
      (PacketPool.new.apply (.publishRx 0 64)).2 = .new ∧
      decode (txSubmit ⟨3, 0xAABBCCDD, 1500⟩) = .ok (.txSubmit ⟨3, 0xAABBCCDD, 1500⟩) := by
  obtain ⟨s, hs, hheld, hresets⟩ : ∃ s : PoolRun, s.Reachable ∧
      (((⟨0, 0, 64⟩ : PacketToken), 0) ∈ s.held ∧ s.resets = 1) :=
    Reach.exists_run [.submitTx 0 0 64, .publishRx 8 1, .reset] (.start rfl) (by decide)
  refine ⟨⟨s, hs, hresets, ?_⟩, ?_, ?_⟩
  · exact (packet_pool_ownership.1 s hs).2.2 _ 0 hheld (by omega) (by omega)
  · exact packet_pool_ownership.2.1 _ _ .wrongDirection rfl
  · exact (packet_pool_ownership.2.2.2 _ (by decide)).1

end HarborKernel.Net
