import HarborKernel.TransportStock

/-!
Where the receive slots are. A slot is with an agent that has a token for it, or with the service,
and then the transport has its buffer in stock.
-/

namespace HarborKernel.Network

open Function Net Transition

theorem mem_rxSlots {slot : ℕ} :
    slot ∈ rxSlots ↔ packetSlots / 2 ≤ slot ∧ slot < packetSlots := by
  simp only [rxSlots, List.mem_map, List.mem_range, packetSlots]
  constructor
  · rintro ⟨i, hi, rfl⟩
    omega
  · intro h
    exact ⟨slot - 8, by omega, by omega⟩

theorem slot_toNat {slot : ℕ} (h : slot ∈ rxSlots) : (UInt8.ofNat slot).toNat = slot := by
  have hlt := (mem_rxSlots.1 h).2
  rw [UInt8.toNat_ofNat']
  exact Nat.mod_eq_of_lt (Nat.lt_trans hlt (by decide))

section Pool

theorem setState_slots (p : PacketPool) (slot : ℕ) (state : SlotState) (i : ℕ) :
    (p.setState slot state).slots i =
      if i = slot then { p.slots slot with state } else p.slots i := by
  simp only [PacketPool.setState, update_apply]

def published (p : PacketPool) (slot len : ℕ) : PacketToken :=
  ⟨UInt8.ofNat slot, (p.slots slot).generation, UInt16.ofNat len⟩

variable {p : PacketPool} {slot len : ℕ}

theorem publishRx_service (hslot : slot ∈ rxSlots) (hstate : (p.slots slot).state = .rxService) :
    p.publishRx slot len = if packetBytes < len then (.error .oversize, p)
      else (.ok (published p slot len), p.setState slot .rxAgent) := by
  obtain ⟨hlow, hhigh⟩ := mem_rxSlots.1 hslot
  unfold PacketPool.publishRx
  rw [if_neg (Nat.not_le.2 hhigh), if_neg (Nat.not_lt.2 hlow), if_neg (not_not.2 hstate)]
  rfl

theorem returnRx_agent {token : PacketToken} (hslot : slot ∈ rxSlots)
    (htoken : token.slot.toNat = slot) (hgen : token.generation = (p.slots slot).generation)
    (hlen : token.len.toNat ≤ packetBytes) (hstate : (p.slots slot).state = .rxAgent) :
    p.returnRx token = (.ok (), p.setState slot .rxService) := by
  have hhigh := (mem_rxSlots.1 hslot).2
  unfold PacketPool.returnRx PacketPool.checkedToken PacketPool.checkedSlot
  rw [if_neg (Nat.not_lt.2 hlen), htoken, if_neg (Nat.not_le.2 hhigh), if_neg (not_not.2 hgen.symm)]
  simp only [hstate, ne_eq, not_true_eq_false, if_false]

theorem published_len (h : len ≤ packetBytes) :
    (published p slot len).len.toNat ≤ packetBytes := by
  have heq : (published p slot len).len.toNat = len := by
    simp only [published, UInt16.toNat_ofNat']
    exact Nat.mod_eq_of_lt (Nat.lt_of_le_of_lt h (by decide))
  rw [heq]
  exact h

theorem setState_cycle (h : (p.slots slot).state = .rxService) :
    (p.setState slot .rxAgent).setState slot .rxService = p := by
  have hslots : ∀ i, ((p.setState slot .rxAgent).setState slot .rxService).slots i = p.slots i := by
    intro i
    rw [setState_slots, setState_slots, setState_slots, if_pos rfl]
    by_cases heq : i = slot
    · rw [if_pos heq, heq, ← h]
    · rw [if_neg heq, if_neg heq]
  cases p
  exact congrArg PacketPool.mk (funext hslots)

theorem returnRx_published (hslot : slot ∈ rxSlots) (hstate : (p.slots slot).state = .rxService)
    (hlen : len ≤ packetBytes) :
    (p.setState slot .rxAgent).returnRx (published p slot len) = (.ok (), p) := by
  have hagent : (p.setState slot .rxAgent).slots slot =
      { p.slots slot with state := .rxAgent } := by
    rw [setState_slots, if_pos rfl]
  have hgen : (published p slot len).generation =
      ((p.setState slot .rxAgent).slots slot).generation := by
    rw [hagent]
    rfl
  rw [returnRx_agent hslot (slot_toNat hslot) hgen (published_len hlen) (by rw [hagent]),
    setState_cycle hstate]

def IsTx (state : SlotState) : Prop := state = .txAgent ∨ state = .txService

instance (state : SlotState) : Decidable (IsTx state) := inferInstanceAs (Decidable (_ ∨ _))

def TxOnly (p p' : PacketPool) : Prop :=
  ∀ slot, p'.slots slot = p.slots slot ∨
    (IsTx (p.slots slot).state ∧ IsTx (p'.slots slot).state)

theorem TxOnly.refl (p : PacketPool) : TxOnly p p := fun _ => .inl rfl

theorem TxOnly.trans {p' p'' : PacketPool} (h : TxOnly p p') (h' : TxOnly p' p'') :
    TxOnly p p'' := by
  intro slot
  rcases h slot with heq | ⟨htx, htx1⟩
  · rw [← heq]
    exact h' slot
  rcases h' slot with heq | ⟨-, htx2⟩
  · exact .inr ⟨htx, by rw [heq]; exact htx1⟩
  · exact .inr ⟨htx, htx2⟩

theorem setState_txOnly {state : SlotState} (h : IsTx (p.slots slot).state) (h' : IsTx state) :
    TxOnly p (p.setState slot state) := by
  intro i
  rw [setState_slots]
  by_cases heq : i = slot
  · rw [if_pos heq, heq]
    exact .inr ⟨h, h'⟩
  · rw [if_neg heq]
    exact .inl rfl

theorem checkedToken_ok {token : PacketToken} {slot : Slot} (h : p.checkedToken token = .ok slot) :
    slot = p.slots token.slot.toNat ∧ token.slot.toNat < packetSlots ∧
      token.generation = slot.generation ∧ token.len.toNat ≤ packetBytes := by
  unfold PacketPool.checkedToken PacketPool.checkedSlot at h
  split at h
  · cases h
  rename_i hlen
  split at h
  · cases h
  rename_i hslot
  split at h
  · cases h
  rename_i hgen
  cases h
  exact ⟨rfl, Nat.lt_of_not_le hslot, (not_not.1 hgen).symm, Nat.le_of_not_lt hlen⟩

theorem acceptTx_txOnly (p : PacketPool) (token : PacketToken) :
    TxOnly p (p.acceptTx token).2 := by
  unfold PacketPool.acceptTx
  split
  · exact TxOnly.refl p
  rename_i slot hslot
  obtain ⟨rfl, -⟩ := checkedToken_ok hslot
  split
  · exact TxOnly.refl p
  split
  · exact TxOnly.refl p
  · rename_i hstate
    exact setState_txOnly (.inl (not_not.1 hstate)) (.inr rfl)

theorem completeTx_txOnly (p : PacketPool) (token : PacketToken) :
    TxOnly p (p.completeTx token).2 := by
  unfold PacketPool.completeTx
  split
  · exact TxOnly.refl p
  rename_i slot hslot
  obtain ⟨rfl, -⟩ := checkedToken_ok hslot
  split
  · exact TxOnly.refl p
  · rename_i hstate
    exact setState_txOnly (.inr (not_not.1 hstate)) (.inl rfl)

end Pool

section Slots

variable {σ ε : Type} [Transport σ ε] {c : Custody σ}

/-- The service has the slot, and the transport its buffer. -/
def Posted (c : Custody σ) (l : Lease σ) (slot : ℕ) : Prop :=
  (l.pool.slots slot).state = .rxService ∧ slot ∈ (c.stock l.transport).slots

structure Names (p : PacketPool) (token : PacketToken) (slot : ℕ) : Prop where
  place : token.slot.toNat = slot
  generation : token.generation = (p.slots slot).generation
  len : token.len.toNat ≤ packetBytes

def Lent (c : Custody σ) (l : Lease σ) (handed : List PacketToken) (slot : ℕ) : Prop :=
  (l.pool.slots slot).state = .rxAgent ∧ slot ∉ (c.stock l.transport).slots ∧
    ∃ token ∈ l.rxEvent.toList ++ handed, Names l.pool token slot

/-- Every receive slot is posted or lent, but for the loose ones, which a call of the runtime has
in its hands. -/
structure Kept (c : Custody σ) (l : Lease σ) (handed : List PacketToken) (loose : List ℕ) :
    Prop where
  up : c.up l.transport
  takes : ∀ slot ∈ rxSlots, c.takes (l.rxBuffer slot)
  tidy : (c.stock l.transport).Tidy l.dma
  tx : ∀ slot, slot < packetSlots / 2 → (l.pool.slots slot).state ≠ .rxAgent
  held : ∀ slot ∈ loose, slot ∈ rxSlots ∧ (l.pool.slots slot).state = .rxService ∧
    slot ∉ (c.stock l.transport).slots
  placed : ∀ slot ∈ rxSlots, slot ∉ loose → Posted c l slot ∨ Lent c l handed slot

variable {l l' : Lease σ} {handed : List PacketToken} {loose : List ℕ}

/-- A step that leaves the receive side of the pool alone, and every slot where it is. -/
theorem Kept.congr (h : Kept c l handed loose) (hup : c.up l'.transport)
    (htidy : (c.stock l'.transport).Tidy l.dma)
    (hslots : (c.stock l'.transport).slots.Perm (c.stock l.transport).slots)
    (hdma : l'.dma = l.dma) (hevent : l'.rxEvent = l.rxEvent)
    (hrx : ∀ slot ∈ rxSlots, l'.pool.slots slot = l.pool.slots slot)
    (htx : ∀ slot, slot < packetSlots / 2 → (l'.pool.slots slot).state ≠ .rxAgent) :
    Kept c l' handed loose := by
  refine ⟨hup, ?_, hdma ▸ htidy, htx, ?_, ?_⟩
  · intro slot hslot
    rw [Lease.rxBuffer, hdma]
    exact h.takes slot hslot
  · intro slot hslot
    obtain ⟨hmem, hstate, hnot⟩ := h.held slot hslot
    rw [hrx slot hmem, hslots.mem_iff]
    exact ⟨hmem, hstate, hnot⟩
  · intro slot hslot hloose
    rcases h.placed slot hslot hloose with ⟨hstate, hin⟩ | ⟨hstate, hnot, token, hmem, hnames⟩
    · refine .inl ⟨?_, hslots.mem_iff.2 hin⟩
      rw [hrx slot hslot]
      exact hstate
    refine .inr ⟨?_, fun hin => hnot (hslots.mem_iff.1 hin), token, ?_, hnames.place, ?_,
      hnames.len⟩
    · rw [hrx slot hslot]
      exact hstate
    · rw [hevent]
      exact hmem
    · rw [hrx slot hslot]
      exact hnames.generation

variable {slot : ℕ} {token : PacketToken}

theorem Kept.post (h : Kept c l handed (slot :: loose)) (token : PacketToken) (hnot : slot ∉ loose)
    (htoken : token.slot.toNat = slot) :
    ∃ t', Transport.returnRx l.transport token (l.rxBuffer slot) = (.ok (), t') ∧
      Kept c { l with transport := t' } handed loose := by
  obtain ⟨hmem, hstate, hout⟩ := h.held slot (List.mem_cons_self ..)
  subst htoken
  obtain ⟨t', hcall, hup, hstock⟩ :=
    c.returnRx token (l.rxBuffer token.slot.toNat) h.up (h.takes _ hmem) (h.tidy.room hmem hout)
  have hslots : ∀ i, i ∈ (c.stock t').slots ↔
      i = token.slot.toNat ∨ i ∈ (c.stock l.transport).slots := by
    intro i
    rw [hstock, (Stock.slots_post _ _ _).mem_iff, List.mem_cons]
  refine ⟨t', hcall, hup, h.takes, ?_, h.tx, ?_, ?_⟩
  · show (c.stock t').Tidy l.dma
    rw [hstock]
    exact h.tidy.post hmem hout
  · intro i hi
    have hne : i ≠ token.slot.toNat := fun heq => hnot (heq ▸ hi)
    obtain ⟨him, hist, hin⟩ := h.held i (List.mem_cons_of_mem _ hi)
    exact ⟨him, hist, fun hback => ((hslots i).1 hback).elim hne hin⟩
  · intro i hi hin
    by_cases heq : i = token.slot.toNat
    · subst heq
      exact .inl ⟨hstate, (hslots _).2 (.inl rfl)⟩
    have hcons : i ∉ token.slot.toNat :: loose := by
      rw [List.mem_cons, not_or]
      exact ⟨heq, hin⟩
    rcases h.placed i hi hcons with ⟨hs, hb⟩ | ⟨hs, hn, hlent⟩
    · exact .inl ⟨hs, (hslots i).2 (.inr hb)⟩
    · exact .inr ⟨hs, fun hback => ((hslots i).1 hback).elim heq hn, hlent⟩

theorem Kept.repost : ∀ {slots : List ℕ} {l : Lease σ}, slots.Nodup → Kept c l handed slots →
    ∃ l', Lease.repost slots l = (.ok (), l') ∧ Kept c l' handed [] := by
  intro slots
  induction slots with
  | nil => exact fun _ h => ⟨_, rfl, h⟩
  | cons slot rest ih =>
    intro l hnodup h
    obtain ⟨hnot, hrest⟩ := List.nodup_cons.1 hnodup
    obtain ⟨hmem, hstate, -⟩ := h.held slot (List.mem_cons_self ..)
    obtain ⟨t', hcall, hkept⟩ := h.post (published l.pool slot 0) hnot (slot_toNat hmem)
    obtain ⟨l', hrepost, hl'⟩ := ih hrest hkept
    refine ⟨l', ?_, hl'⟩
    simp only [Lease.repost, publishRx_service hmem hstate, if_neg (Nat.not_lt_zero packetBytes),
      returnRx_published hmem hstate (Nat.zero_le _), hcall]
    exact hrepost

/-- A recovery succeeds where a reset does, and posts every slot. -/
theorem recover_kept (hresets : c.resets l.transport)
    (htakes : ∀ slot ∈ rxSlots, c.takes (l.rxBuffer slot)) (handed : List PacketToken) :
    ∃ l', l.recover = (.ok (), l') ∧ Kept c l' handed [] := by
  obtain ⟨t', hreset, hup, hempty⟩ := c.reset hresets
  have hloose : Kept c { l with
      transport := t', pool := l.pool.reset, serviceTx := none, txEvent := none, rxEvent := none }
      handed rxSlots := by
    refine ⟨hup, htakes, ?_, ?_, ?_, fun slot hslot hnot => absurd hslot hnot⟩
    · show (c.stock t').Tidy l.dma
      rw [hempty]
      exact .empty l.dma
    · intro slot hlt
      simp only [PacketPool.reset, PacketPool.fresh, if_pos hlt]
      nofun
    intro slot hslot
    refine ⟨hslot, ?_, ?_⟩
    · simp only [PacketPool.reset, PacketPool.fresh,
        if_neg (Nat.not_lt.2 (mem_rxSlots.1 hslot).1)]
    · show slot ∉ (c.stock t').slots
      rw [hempty, Stock.slots_empty]
      exact List.not_mem_nil
  obtain ⟨l', hrepost, hl'⟩ := hloose.repost (by decide)
  refine ⟨l', ?_, hl'⟩
  simp only [Lease.recover, hreset]
  exact hrepost

theorem Kept.lend {len : ℕ} (h : Kept c l handed [slot]) (hevent : l.rxEvent = none)
    (hlen : len ≤ packetBytes) :
    Kept c { l with
      pool := l.pool.setState slot .rxAgent, rxEvent := some (published l.pool slot len) }
      handed [] := by
  obtain ⟨hmem, hstate, hout⟩ := h.held slot (List.mem_cons_self ..)
  have hself : (l.pool.setState slot .rxAgent).slots slot =
      { l.pool.slots slot with state := .rxAgent } := by
    rw [setState_slots, if_pos rfl]
  have hother : ∀ i, i ≠ slot → (l.pool.setState slot .rxAgent).slots i = l.pool.slots i := by
    intro i hi
    rw [setState_slots, if_neg hi]
  refine ⟨h.up, h.takes, h.tidy, ?_, nofun, ?_⟩
  · intro i hlt
    have hne : i ≠ slot := by
      rintro rfl
      exact absurd hlt (Nat.not_lt.2 (mem_rxSlots.1 hmem).1)
    simp only [hother i hne]
    exact h.tx i hlt
  intro i hi _
  by_cases heq : i = slot
  · subst heq
    refine .inr ⟨?_, hout, published l.pool i len, List.mem_cons_self .., ?_⟩
    · simp only [hself]
    · exact ⟨slot_toNat hmem, by simp only [hself]; rfl, published_len hlen⟩
  rcases h.placed i hi (fun hin => heq (List.mem_singleton.1 hin)) with
    ⟨hs, hb⟩ | ⟨hs, hn, token, htoken, hnames⟩
  · refine .inl ⟨?_, hb⟩
    simp only [hother i heq]
    exact hs
  rw [hevent, Option.toList_none, List.nil_append] at htoken
  refine .inr ⟨?_, hn, token, List.mem_append_right _ htoken, hnames.place, ?_, hnames.len⟩
  · simp only [hother i heq]
    exact hs
  · simp only [hother i heq]
    exact hnames.generation

/-- A received frame leaves its slot lent or posted. -/
theorem Kept.receive (h : Kept c l handed [token.slot.toNat]) (active : Bool)
    (completion : Completion) : Kept c (l.receive active token completion) handed [] := by
  obtain ⟨hmem, hstate, -⟩ := h.held _ (List.mem_cons_self ..)
  have hback : ∀ t : PacketToken, t.slot.toNat = token.slot.toNat →
      Kept c { l with
        transport := (Transport.returnRx l.transport t (l.rxBuffer token.slot.toNat)).2 }
        handed [] := by
    intro t ht
    obtain ⟨t', hcall, hkept⟩ := h.post t List.not_mem_nil ht
    rw [hcall]
    exact hkept
  unfold Lease.receive
  rw [publishRx_service hmem hstate]
  by_cases hlen : packetBytes < completion.len
  · rw [if_pos hlen]
    exact hback token rfl
  rw [if_neg hlen]
  by_cases hevent : (active && l.rxEvent.isNone) = true
  · simp only [hevent, if_true]
    rw [Bool.and_eq_true, Option.isNone_iff_eq_none] at hevent
    exact h.lend hevent.2 (Nat.le_of_not_lt hlen)
  simp only [hevent, Bool.false_eq_true, if_false]
  rw [returnRx_published hmem hstate (Nat.le_of_not_lt hlen)]
  exact hback _ (slot_toNat hmem)

theorem Kept.takeRx (h : Kept c l handed []) {completion : Completion}
    {t' : σ} (htake : Transport.takeRxAvailable l.transport = (some (token, completion), t')) :
    Kept c { l with transport := t' } handed [token.slot.toNat] := by
  obtain ⟨hfirst, hup, hstock⟩ := c.takeRx h.up
  rw [htake] at hfirst hup hstock
  have hperm := Stock.slots_take_some hfirst.symm
  rw [← hstock] at hperm
  have hout := (List.nodup_cons.1 (hperm.nodup_iff.1 h.tidy.apart)).1
  have hslots : ∀ i, i ≠ token.slot.toNat →
      (i ∈ (c.stock t').slots ↔ i ∈ (c.stock l.transport).slots) := by
    intro i hi
    rw [hperm.mem_iff, List.mem_cons]
    exact (or_iff_right hi).symm
  have hin : token.slot.toNat ∈ (c.stock l.transport).slots :=
    hperm.mem_iff.2 (List.mem_cons_self ..)
  have hmem := h.tidy.receive _ hin
  refine ⟨hup, h.takes, ?_, h.tx, ?_, ?_⟩
  · show (c.stock t').Tidy l.dma
    rw [hstock]
    exact h.tidy.take
  · intro i hi
    rw [List.mem_singleton] at hi
    subst hi
    refine ⟨hmem, ?_, hout⟩
    rcases h.placed _ hmem List.not_mem_nil with ⟨hs, -⟩ | ⟨-, hn, -⟩
    · exact hs
    · exact absurd hin hn
  · intro i hi hnot
    have hne : i ≠ token.slot.toNat := fun heq => hnot (List.mem_singleton.2 heq)
    rcases h.placed i hi List.not_mem_nil with ⟨hs, hb⟩ | ⟨hs, hn, hlent⟩
    · exact .inl ⟨hs, (hslots i hne).2 hb⟩
    · exact .inr ⟨hs, fun hback => hn ((hslots i hne).1 hback), hlent⟩

theorem Kept.drainRx {active : Bool} (fuel : ℕ) : ∀ {l l' : Lease σ}, Kept c l handed [] →
    Lease.drainRx active fuel l = some l' → Kept c l' handed [] := by
  induction fuel with
  | zero =>
    intro l l' _ hdrain
    cases hdrain
  | succ fuel ih =>
    intro l l' h hdrain
    unfold Lease.drainRx at hdrain
    rcases htake : Transport.takeRxAvailable l.transport with ⟨_ | ⟨token, completion⟩, t'⟩
    · rw [htake] at hdrain
      cases hdrain
      obtain ⟨hfirst, hup, hstock⟩ := c.takeRx h.up
      rw [htake] at hfirst hup hstock
      refine h.congr hup ?_ ?_ rfl rfl (fun _ _ => rfl) h.tx
      · simp only [hstock]
        exact h.tidy.take
      · simp only [hstock, Stock.slots_take_none hfirst.symm]
        exact List.Perm.refl _
    rw [htake] at hdrain
    exact ih ((h.takeRx htake).receive active completion) hdrain

theorem Kept.rx_state (h : Kept c l handed loose) (hslot : slot ∈ rxSlots) :
    ¬IsTx (l.pool.slots slot).state := by
  by_cases hloose : slot ∈ loose
  · rw [(h.held slot hloose).2.1]
    decide
  rcases h.placed slot hslot hloose with ⟨hs, -⟩ | ⟨hs, -⟩
  · rw [hs]
    decide
  · rw [hs]
    decide

theorem Kept.transmit (h : Kept c l handed loose) (hup : c.up l'.transport)
    (hstock : c.stock l'.transport = c.stock l.transport) (hdma : l'.dma = l.dma)
    (hevent : l'.rxEvent = l.rxEvent) (hpool : TxOnly l.pool l'.pool) :
    Kept c l' handed loose := by
  refine h.congr hup (hstock ▸ h.tidy) (by rw [hstock]) hdma hevent ?_ ?_
  · intro slot hslot
    exact (hpool slot).resolve_right fun htx => h.rx_state hslot htx.1
  intro slot hlt
  rcases hpool slot with heq | ⟨-, htx⟩
  · rw [heq]
    exact h.tx slot hlt
  intro hagent
  rw [hagent] at htx
  exact absurd htx (by decide)

theorem finish_txOnly (l : Lease σ) (token : PacketToken) :
    TxOnly l.pool (l.finish token).pool ∧ (l.finish token).transport = l.transport ∧
      (l.finish token).dma = l.dma ∧ (l.finish token).rxEvent = l.rxEvent := by
  unfold Lease.finish
  split
  · exact ⟨completeTx_txOnly _ _, rfl, rfl, rfl⟩
  · exact ⟨TxOnly.refl _, rfl, rfl, rfl⟩

theorem Kept.finish (h : Kept c l handed loose) (token : PacketToken) :
    Kept c (l.finish token) handed loose := by
  obtain ⟨hpool, htransport, hdma, hevent⟩ := finish_txOnly l token
  exact h.transmit (by rw [htransport]; exact h.up) (by rw [htransport]) hdma hevent hpool

theorem Kept.drainTx (fuel : ℕ) : ∀ {l l' : Lease σ}, Kept c l handed [] →
    Lease.drainTx fuel l = some l' → Kept c l' handed [] := by
  induction fuel with
  | zero =>
    intro l l' _ hdrain
    cases hdrain
  | succ fuel ih =>
    intro l l' h hdrain
    obtain ⟨hup, hstock⟩ := c.takeTx h.up
    unfold Lease.drainTx at hdrain
    rcases htake : Transport.takeTxComplete l.transport with ⟨_ | ⟨token, completion⟩, t'⟩
    · rw [htake] at hdrain hup hstock
      cases hdrain
      exact h.transmit hup hstock rfl rfl (TxOnly.refl _)
    rw [htake] at hdrain hup hstock
    have hkept : Kept c { l with transport := t' } handed [] :=
      h.transmit hup hstock rfl rfl (TxOnly.refl _)
    exact ih (hkept.finish token) hdrain

section

variable (h : Kept c l handed [])
include h

theorem Kept.poll {active : Bool} {fuel : ℕ} (hpoll : l.poll active fuel = some l') :
    Kept c l' handed [] := by
  have htakes : ∀ e ∈ (c.stock l.transport).queue, c.takes e.2 := by
    intro e he
    rw [h.tidy.own e he]
    exact h.takes _ (h.tidy.receive _ (List.mem_append_left _ (List.mem_map_of_mem he)))
  unfold Lease.poll at hpoll
  rcases htransport : Transport.poll fuel l.transport with _ | ⟨e | _, t'⟩
  · rw [htransport] at hpoll
    cases hpoll
  · rw [htransport] at hpoll
    cases hpoll
    obtain ⟨l1, hrecover, hkept⟩ := recover_kept (l := { l with transport := t' })
      (c.poll_error h.up htakes htransport) h.takes handed
    rw [hrecover]
    exact hkept
  · rw [htransport] at hpoll
    obtain ⟨hup, hturns⟩ := c.poll_ok h.up htakes htransport
    obtain ⟨htidy, hslots⟩ := Stock.turns_tidy hturns h.tidy
    have hkept : Kept c { l with transport := t' } handed [] :=
      h.congr hup htidy hslots rfl rfl (fun _ _ => rfl) h.tx
    obtain ⟨l1, hrx, htx⟩ := Option.bind_eq_some_iff.1 hpoll
    exact (hkept.drainRx fuel hrx).drainTx fuel htx

theorem Kept.submitServiceTx (token : PacketToken) :
    Kept c (l.submitServiceTx token).2 handed [] := by
  unfold Lease.submitServiceTx
  split
  · exact h
  have haccept := acceptTx_txOnly l.pool token
  obtain ⟨hup, hstock⟩ := c.submitTx token ⟨l.dma serviceTxDmaIndex, token.len.toNat⟩ h.up
  split <;> rename_i hpool <;> rw [hpool] at haccept
  · exact h.transmit h.up rfl rfl rfl haccept
  · split <;> rename_i hcall <;> rw [hcall] at hup hstock
    · exact h.transmit hup hstock rfl rfl (haccept.trans (completeTx_txOnly _ _))
    · exact h.transmit hup hstock rfl rfl haccept

theorem Kept.takeTxComplete : Kept c l.takeTxComplete.2 handed [] := by
  obtain ⟨hup, hstock⟩ := c.takeTx h.up
  unfold Lease.takeTxComplete
  split
  · exact h.transmit h.up rfl rfl rfl (TxOnly.refl _)
  split <;> rename_i htake <;> rw [htake] at hup hstock
  · exact h.transmit hup hstock rfl rfl (TxOnly.refl _)
  · rename_i token _ t'
    have hkept : Kept c { l with transport := t' } handed [] :=
      h.transmit hup hstock rfl rfl (TxOnly.refl _)
    have hfinish := hkept.finish token
    exact hfinish.transmit hfinish.up rfl rfl rfl (TxOnly.refl _)

theorem Kept.reclaim {slot : ℕ} (hslot : slot ∈ rxSlots)
    (hagent : (l.pool.slots slot).state = .rxAgent) :
    Kept c { l with pool := l.pool.setState slot .rxService } handed [slot] := by
  have hself : (l.pool.setState slot .rxService).slots slot =
      { l.pool.slots slot with state := .rxService } := by
    rw [setState_slots, if_pos rfl]
  have hother : ∀ i, i ≠ slot → (l.pool.setState slot .rxService).slots i = l.pool.slots i := by
    intro i hi
    rw [setState_slots, if_neg hi]
  refine ⟨h.up, h.takes, h.tidy, ?_, ?_, ?_⟩
  · intro i hlt
    have hne : i ≠ slot := by
      rintro rfl
      exact absurd hlt (Nat.not_lt.2 (mem_rxSlots.1 hslot).1)
    simp only [hother i hne]
    exact h.tx i hlt
  · intro i hi
    rw [List.mem_singleton] at hi
    subst hi
    refine ⟨hslot, by simp only [hself], ?_⟩
    rcases h.placed i hslot List.not_mem_nil with ⟨hs, -⟩ | ⟨-, hn, -⟩
    · rw [hs] at hagent
      cases hagent
    · exact hn
  · intro i hi hnot
    have hne : i ≠ slot := fun heq => hnot (List.mem_singleton.2 heq)
    rcases h.placed i hi List.not_mem_nil with ⟨hs, hb⟩ | ⟨hs, hn, token, hmem, hnames⟩
    · refine .inl ⟨?_, hb⟩
      simp only [hother i hne]
      exact hs
    refine .inr ⟨?_, hn, token, hmem, hnames.place, ?_, hnames.len⟩
    · simp only [hother i hne]
      exact hs
    · simp only [hother i hne]
      exact hnames.generation

/-- What an agent returns goes back to the transport. -/
theorem Kept.returnServiceRx (token : PacketToken) :
    Kept c (l.returnServiceRx token).2 handed [] := by
  unfold Lease.returnServiceRx
  rcases hpool : l.pool.returnRx token with ⟨e | _, pool⟩
  · have hsame : pool = l.pool := by
      unfold PacketPool.returnRx at hpool
      repeat' split at hpool
      all_goals cases hpool
      all_goals rfl
    rw [hsame]
    exact h
  unfold PacketPool.returnRx at hpool
  split at hpool
  · cases hpool
  rename_i slot hslot
  obtain ⟨rfl, hhigh, -, -⟩ := checkedToken_ok hslot
  split at hpool
  · cases hpool
  rename_i hstate
  cases hpool
  have hagent := not_not.1 hstate
  have hmem : token.slot.toNat ∈ rxSlots :=
    mem_rxSlots.2 ⟨Nat.le_of_not_lt fun hlt => h.tx _ hlt hagent, hhigh⟩
  obtain ⟨t', hcall, hkept⟩ := (h.reclaim hmem hagent).post token List.not_mem_nil rfl
  have hcall' : Transport.returnRx l.transport token (l.rxBuffer token.slot.toNat) =
      (.ok (), t') := hcall
  simp only [hcall']
  exact hkept

theorem Kept.takeRxAvailable :
    Kept c l.takeRxAvailable.2 (l.takeRxAvailable.1.toList ++ handed) [] := by
  refine ⟨h.up, h.takes, h.tidy, h.tx, nofun, ?_⟩
  intro slot hslot hnot
  rcases h.placed slot hslot hnot with hposted | ⟨hs, hn, token, hmem, hnames⟩
  · exact .inl hposted
  · exact .inr ⟨hs, hn, token, hmem, hnames⟩

end

theorem rxSet_eq (dma : ℕ → ℕ) {pool : PacketPool} : ∀ slots : List ℕ,
    (∀ slot ∈ slots, slot ∈ rxSlots ∧ (pool.slots slot).state = .rxService) →
    Lease.rxSet dma slots pool =
      some (slots.map fun slot => (published pool slot 0, ownBuffer dma slot), pool) := by
  intro slots
  induction slots with
  | nil => exact fun _ => rfl
  | cons slot rest ih =>
    intro h
    obtain ⟨hmem, hstate⟩ := h slot (List.mem_cons_self ..)
    have hrest := ih fun i hi => h i (List.mem_cons_of_mem _ hi)
    simp only [Lease.rxSet, publishRx_service hmem hstate, if_neg (Nat.not_lt_zero packetBytes),
      returnRx_published hmem hstate (Nat.zero_le _), hrest, Option.map_some, List.map_cons,
      ownBuffer]

/-- The transport has no buffer, and takes those that it will get. -/
def Blank (c : Custody σ) (t : σ) (dma : ℕ → ℕ) : Prop :=
  c.up t ∧ c.stock t = .empty ∧ ∀ slot ∈ rxSlots, c.takes (ownBuffer dma slot)

theorem start_kept {t : σ} {dma : ℕ → ℕ} (hblank : Blank c t dma)
    (hstart : Lease.start t dma = some (.ok l)) (handed : List PacketToken) :
    Kept c l handed [] := by
  obtain ⟨hup, hempty, htakes⟩ := hblank
  have hnew : ∀ slot ∈ rxSlots, slot ∈ rxSlots ∧
      (PacketPool.new.slots slot).state = .rxService := by
    intro slot hslot
    refine ⟨hslot, ?_⟩
    simp only [PacketPool.new, PacketPool.fresh, if_neg (Nat.not_lt.2 (mem_rxSlots.1 hslot).1)]
  simp only [Lease.start, rxSet_eq dma rxSlots hnew] at hstart
  split at hstart
  · cases hstart
  rename_i t' hcall
  cases hstart
  obtain ⟨hup', hstock⟩ := c.start hup hempty (by
    intro e he
    obtain ⟨slot, hslot, rfl⟩ := List.mem_map.1 he
    exact htakes slot hslot) hcall
  have hslots : (c.stock t').slots = rxSlots := by
    rw [hstock, hempty, Stock.slots, Stock.empty, ReadyList.reduceOption_vacant, List.map_nil,
      List.append_nil, List.map_map]
    exact List.map_congr_left (g := id) (fun slot hslot => slot_toNat hslot) |>.trans
      (List.map_id _)
  refine ⟨hup', htakes, ⟨?_, ?_, ?_, ?_⟩, ?_, fun _ h => absurd h List.not_mem_nil, ?_⟩
  · simp only [hstock, hempty]
    exact List.length_replicate ..
  · simp only [hslots]
    decide
  · simp only [hslots]
    exact fun slot hslot => hslot
  · intro e he
    simp only [hstock] at he
    obtain ⟨slot, hslot, rfl⟩ := List.mem_map.1 he
    exact congrArg (ownBuffer dma) (slot_toNat hslot).symm
  · intro slot hlt
    simp only [PacketPool.new, PacketPool.fresh, if_pos hlt]
    exact fun heq => by cases heq
  · intro slot hslot _
    refine .inl ⟨(hnew slot hslot).2, ?_⟩
    simp only [hslots]
    exact hslot

end Slots

/-- The lease with `SERVICE_ACTIVE`, and the tokens that `take_rx_available` gave out. -/
structure Receiver (σ : Type) where
  lease : Lease σ
  active : Bool
  handed : List PacketToken

namespace Receiver

variable {σ ε : Type} [Transport σ ε]

/-- The calls of the runtime and what happens beside it. -/
inductive Op (σ : Type)
  | poll (fuel : ℕ)
  | returnServiceRx (token : PacketToken)
  | takeRxAvailable
  | recover
  | submitServiceTx (token : PacketToken)
  | takeTxComplete
  | enableService
  | device (act : σ → σ)

def step (s : Receiver σ) : Op σ → Option (Receiver σ)
  | .poll fuel => (s.lease.poll s.active fuel).map fun lease => { s with lease }
  | .returnServiceRx token => some { s with lease := (s.lease.returnServiceRx token).2 }
  | .takeRxAvailable => some { s with
      lease := s.lease.takeRxAvailable.2
      handed := s.lease.takeRxAvailable.1.toList ++ s.handed }
  | .recover => some { s with lease := s.lease.recover.2 }
  | .submitServiceTx token => some { s with lease := (s.lease.submitServiceTx token).2 }
  | .takeTxComplete => some { s with lease := s.lease.takeTxComplete.2 }
  | .enableService => some { s with active := true }
  | .device act => some { s with lease := { s.lease with transport := act s.lease.transport } }

def Init (blank : σ → (ℕ → ℕ) → Prop) (s : Receiver σ) : Prop :=
  ∃ t dma, blank t dma ∧ Lease.start t dma = some (.ok s.lease) ∧ s.handed = []

/-- The device keeps the transport up and its stock as it is, and the runtime recovers where a
reset works. -/
def Up (c : Custody σ) (s : Receiver σ) : Op σ → Prop
  | .device act => c.up (act s.lease.transport) ∧
      c.stock (act s.lease.transport) = c.stock s.lease.transport
  | .recover => c.resets s.lease.transport
  | _ => True

theorem step_kept {c : Custody σ} {s s' : Receiver σ} {op : Op σ} (hok : Up c s op)
    (h : Kept c s.lease s.handed []) (hstep : s.step op = some s') :
    Kept c s'.lease s'.handed [] := by
  cases op with
  | poll fuel =>
    obtain ⟨l', hpoll, rfl⟩ := Option.map_eq_some_iff.1 hstep
    exact h.poll hpoll
  | returnServiceRx token =>
    cases hstep
    exact h.returnServiceRx token
  | takeRxAvailable =>
    cases hstep
    exact h.takeRxAvailable
  | recover =>
    cases hstep
    obtain ⟨l', hrecover, hkept⟩ := recover_kept (c := c) hok h.takes s.handed
    rw [hrecover]
    exact hkept
  | submitServiceTx token =>
    cases hstep
    exact h.submitServiceTx token
  | takeTxComplete =>
    cases hstep
    exact h.takeTxComplete
  | enableService =>
    cases hstep
    exact h
  | device act =>
    cases hstep
    exact h.transmit hok.1 hok.2 rfl rfl (TxOnly.refl _)

theorem reach_kept {c : Custody σ} {s : Receiver σ} (h : Reach (Init (Blank c)) step (Up c) s) :
    Kept c s.lease s.handed [] := by
  refine Reach.invariant (I := fun s => Kept c s.lease s.handed []) ?_
    (fun _ _ _ hkept hok hstep => step_kept hok hkept hstep) h
  rintro s ⟨t, dma, hblank, hstart, -⟩
  exact start_kept hblank hstart s.handed

/-- An agent has the slot and can return it, or its own buffer is posted in the transport, or its
frame waits in the ready list. -/
def Accounted (c : Custody σ) (s : Receiver σ) (slot : ℕ) : Prop :=
  ((s.lease.pool.slots slot).state = .rxAgent ∧
    ∃ token ∈ s.lease.rxEvent.toList ++ s.handed, token.slot.toNat = slot ∧
      (s.lease.pool.returnRx token).1 = .ok ()) ∨
  ((s.lease.pool.slots slot).state = .rxService ∧
    ((∃ token, token.slot.toNat = slot ∧
        (token, s.lease.rxBuffer slot) ∈ (c.stock s.lease.transport).queue) ∨
      ∃ token completion, token.slot.toNat = slot ∧
        some (token, completion) ∈ (c.stock s.lease.transport).ready))

/-- No receive slot is lost, whatever the transport does within its contract. -/
theorem receive_slots_kept (c : Custody σ) {s : Receiver σ}
    (h : Reach (Init (Blank c)) step (Up c) s) : ∀ slot ∈ rxSlots, s.Accounted c slot := by
  have hkept := reach_kept h
  intro slot hslot
  rcases hkept.placed slot hslot List.not_mem_nil with ⟨hs, hin⟩ | ⟨hs, -, token, hmem, hnames⟩
  · refine .inr ⟨hs, ?_⟩
    rcases List.mem_append.1 hin with hin | hin
    · obtain ⟨⟨token, buffer⟩, he, rfl⟩ := List.mem_map.1 hin
      have hown := hkept.tidy.own _ he
      exact .inl ⟨token, rfl, by rw [← show buffer = s.lease.rxBuffer _ from hown]; exact he⟩
    · obtain ⟨⟨token, completion⟩, he, rfl⟩ := List.mem_map.1 hin
      exact .inr ⟨token, completion, rfl, List.reduceOption_mem_iff.1 he⟩
  · refine .inl ⟨hs, token, hmem, hnames.place, ?_⟩
    rw [returnRx_agent hslot hnames.place hnames.generation hnames.len hs]

section Delivery

open QemuVirt

def pages (i : ℕ) : ℕ := 4096 * (i + 1)

def receiving (s : Receiver Virtio) : Receiver Virtio :=
  { s with lease := { s.lease with transport := s.lease.transport.received 72 } }

theorem reach_receiving {s : Receiver Virtio}
    (h : Reach (Init (Blank Virtio.custody)) step (Up Virtio.custody) s)
    (hnext : s.lease.transport.rx.rings.usedIdx ≠ s.lease.transport.rx.cursor.avail) :
    Reach (Init (Blank Virtio.custody)) step (Up Virtio.custody) s.receiving := by
  have hok : Up Virtio.custody s (.device (Virtio.received 72)) :=
    ⟨Virtio.Up.received (reach_kept h).up hnext 72, rfl⟩
  exact h.next hok rfl

/-- The device fills two buffers. The first frame goes to the agent, and the buffer of the second
is posted again. -/
theorem receive_slots_kept_virtio : ∃ s : Receiver Virtio,
    Reach (Init (Blank Virtio.custody)) step (Up Virtio.custody) s ∧
      s.handed = [⟨8, 0, 60⟩] ∧ s.lease.transport.rx.rings.usedIdx = 2 ∧
      s.lease.transport.rx.rings.availIdx = 9 ∧
      ∀ slot ∈ rxSlots, s.Accounted Virtio.custody slot := by
  obtain ⟨l, hl⟩ : ∃ l, Lease.start (⟨System.configured, System.configured⟩ : Virtio) pages =
      some (.ok l) := ⟨_, rfl⟩
  have hblank : Blank Virtio.custody ⟨System.configured, System.configured⟩ pages :=
    ⟨⟨_, rfl, Tracked.flow_restart (p := System.configured) rfl⟩,
      Virtio.stock_reset ⟨System.configured, System.configured⟩, by
        intro slot hslot
        have hall : ∀ slot ∈ rxSlots, validDescriptor (ownBuffer pages slot).pa
          (virtioNetHeaderBytes + (ownBuffer pages slot).len) = true := by decide
        exact hall slot hslot⟩
  have h0 : Reach (Init (Blank Virtio.custody)) step (Up Virtio.custody) ⟨l, true, []⟩ :=
    Reach.start ⟨_, _, hblank, hl, rfl⟩
  have h1 := reach_receiving h0 (by cases hl; decide +kernel)
  have h2 := reach_receiving h1 (by cases hl; decide +kernel)
  obtain ⟨s, hrun, hhanded, hused, havail⟩ : ∃ s,
      run step (⟨l, true, []⟩ : Receiver Virtio).receiving.receiving
        [.poll 3, .takeRxAvailable] = some s ∧
      s.handed = [⟨8, 0, 60⟩] ∧ s.lease.transport.rx.rings.usedIdx = 2 ∧
      s.lease.transport.rx.rings.availIdx = 9 := by
    cases hl
    exact ⟨_, rfl, by decide +kernel, by decide +kernel, by decide +kernel⟩
  have hok : ∀ s, ∀ op ∈ [Op.poll 3, .takeRxAvailable], Up Virtio.custody s op := by
    intro s op hop
    simp only [List.mem_cons, List.not_mem_nil, or_false] at hop
    rcases hop with rfl | rfl
    · trivial
    · trivial
  have hreach := h2.run _ hok hrun
  exact ⟨s, hreach, hhanded, hused, havail, receive_slots_kept Virtio.custody hreach⟩

end Delivery

section LinkDown

open Genet

def Bare (net : GenetNet) : Prop :=
  (∀ index, net.rx.buffers index = none) ∧ net.rx.ready = ReadyList.vacant Genet.rxSlots

theorem reset_bare {net : GenetNet} (h : net.controller.answers.reset = .ok ()) :
    ∃ net', net.reset = (.ok (), net') ∧ net'.controller.answers = net.controller.answers ∧
      net'.dataplane = .fresh ∧ Bare net' := by
  unfold GenetNet.reset
  rw [h]
  exact ⟨_, rfl, rfl, rfl, fun _ => rfl, rfl⟩

/-- A recovery while the link is down fails at the first slot, after every slot went to the
service and every buffer was dropped. -/
theorem recover_strands {l : Lease GenetNet} {e : Error}
    (hreset : l.transport.controller.answers.reset = .ok ())
    (hlink : l.transport.controller.answers.acquireLink = .error e) :
    l.recover.1 = .error (.transportReturn 8 e) ∧ Bare l.recover.2.transport ∧
      ∀ slot ∈ rxSlots, (l.recover.2.pool.slots slot).state = .rxService := by
  have hservice : ∀ slot ∈ rxSlots, (l.pool.reset.slots slot).state = .rxService := by
    intro slot hslot
    simp only [PacketPool.reset, PacketPool.fresh, if_neg (Nat.not_lt.2 (mem_rxSlots.1 hslot).1)]
  obtain ⟨net, hnet, hanswers, hfresh, hbare⟩ := reset_bare hreset
  have hback : ∀ token buffer, Transport.returnRx net token buffer = (.error e, net) := by
    intro token buffer
    simp only [Transport.returnRx, GenetNet.returnRx, GenetNet.ensureDataplaneProgrammed, hfresh,
      hanswers, hlink]
  have hmem : 8 ∈ rxSlots := by decide
  have hrecover : l.recover = (.error (.transportReturn 8 e), { l with
      transport := net, pool := l.pool.reset, serviceTx := none, txEvent := none,
      rxEvent := none }) := by
    simp only [Lease.recover, Transport.reset, hnet]
    rw [show rxSlots = 8 :: rxSlots.tail from rfl]
    simp only [Lease.repost, publishRx_service hmem (hservice 8 hmem),
      if_neg (Nat.not_lt_zero packetBytes),
      returnRx_published hmem (hservice 8 hmem) (Nat.zero_le _), hback]
  rw [hrecover]
  exact ⟨rfl, hbare, hservice⟩

def Answering (_ : Receiver GenetNet) : Op GenetNet → Prop
  | .device act => ∃ answers, act = fun net =>
      { net with controller := { net.controller with answers } }
  | _ => True

def unplugged (net : GenetNet) : GenetNet :=
  { net with controller := { net.controller with
      answers := ⟨.ok (), .ok .down, .error .linkDown, .ok (), .ok ()⟩ } }

theorem slots_stranded : ∃ s : Receiver GenetNet,
    Reach (Init fun net _ => Bare net) step Answering s ∧
    Bare s.lease.transport ∧
    ∀ slot ∈ rxSlots, (s.lease.pool.slots slot).state = .rxService := by
  obtain ⟨l, hl⟩ : ∃ l, Lease.start Genet.System.cold (fun i => 4096 * (i + 1)) =
      some (.ok l) := ⟨_, rfl⟩
  have hstart : Reach (Init fun net _ => Bare net) step Answering ⟨l, true, []⟩ :=
    Reach.start ⟨_, _, ⟨fun _ => rfl, rfl⟩, hl, rfl⟩
  have hdown := hstart.next (l := Op.device unplugged) ⟨_, rfl⟩ rfl
  obtain ⟨-, hbare, hservice⟩ :=
    recover_strands (l := { l with transport := unplugged l.transport }) rfl rfl
  exact ⟨_, hdown.next (l := Op.recover) trivial rfl, hbare, hservice⟩

end LinkDown

end Receiver

end HarborKernel.Network
