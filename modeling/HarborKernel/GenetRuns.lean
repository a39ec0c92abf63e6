import HarborKernel.GenetSending

/-!
Runs of the GENET transport against its engines. An engine retires posted descriptors in order
and shows how many it has retired since the reset, modulo `2 ^ 16`; status words of transmitted
frames stay as posted. The driver compares that count with an index that wraps at the length of
the ring, so the two agree only while the count is below that length.
-/

namespace HarborKernel.Genet

open CyclicTable Net ReadyList Transition

/-- The transport, with what happened since its last reset: the tokens of the accepted frames,
how many of them the engine retired and which of them were put in `tx_ready`; and how many
receive buffers the engine retired, with the token and length of those not yet looked at. -/
structure System where
  net : GenetNet
  sent : List PacketToken
  txRetired : ℕ
  reported : List PacketToken
  rxRetired : ℕ
  arrived : List (PacketToken × ℕ)

inductive Op
  | submit (token : PacketToken) (buffer : Buffer)
  | advance (fuel : ℕ)
  | takeTx
  | takeRx
  | returnRx (token : PacketToken) (buffer : Buffer)
  | reset
  | retireTx
  | retireRx (word : ℕ)
  | answer (a : Answers)

namespace System

def Listening (s : System) : Prop :=
  s.net.dataplane = .enabled ∧ s.rxRetired % v5Q0RxBdCnt ≠ s.net.controller.rxProd

def Written (word : ℕ) : Prop := word &&& dmaOwn = 0 ∧ lengthField word ≤ rxBufLength

instance (s : System) : Decidable s.Listening := inferInstanceAs (Decidable (_ ∧ _))
instance (word : ℕ) : Decidable (Written word) := inferInstanceAs (Decidable (_ ∧ _))

def step (s : System) : Op → Option System
  | .submit token buffer =>
    let (answer, net) := s.net.submitFrame token buffer
    some { s with net, sent := if answer.isOk then s.sent ++ [token] else s.sent }
  | .advance fuel => (s.net.advanceRings fuel).map fun (_, net) => { s with
      net
      reported := s.reported ++ net.tx.ready.reduceOption.map Prod.fst
      arrived := [] }
  | .takeTx => some { s with net := s.net.takeTxComplete.2 }
  | .takeRx => some { s with net := s.net.takeRxAvailable.2 }
  | .returnRx token buffer => some { s with net := (s.net.returnRx token buffer).2 }
  | .reset =>
    match s.net.reset with
    | (.ok (), net) => some ⟨net, [], 0, [], 0, []⟩
    | (.error _, net) => some { s with net }
  | .retireTx =>
    if s.net.dataplane = .enabled ∧ s.txRetired < s.sent.length then
      some { s with
        net := { s.net with controller := { s.net.controller with
          txCons := (s.txRetired + 1) % 2 ^ 16 } }
        txRetired := s.txRetired + 1 }
    else none
  | .retireRx word =>
    if s.Listening ∧ Written word then
      some { s with
        net := { s.net with controller := { s.net.controller with
          rxStatus := Function.update s.net.controller.rxStatus (s.rxRetired % v5Q0RxBdCnt) word
          rxCons := (s.rxRetired + 1) % 2 ^ 16 } }
        rxRetired := s.rxRetired + 1
        arrived := s.arrived ++ (s.net.rx.buffers (s.rxRetired % v5Q0RxBdCnt)).toList.map
          fun (token, _) => (token, lengthField word) }
    else none
  | .answer a => some { s with net := { s.net with controller := { s.net.controller with
      answers := a } } }

def Init (s : System) : Prop :=
  ∃ net : GenetNet, net.reset = (.ok (), s.net) ∧ s.sent = [] ∧ s.txRetired = 0 ∧
    s.reported = [] ∧ s.rxRetired = 0 ∧ s.arrived = []

/-- What was found finished at the last poll has been taken. -/
def Drained (s : System) : Prop :=
  s.net.tx.ready = vacant rxSlots ∧ s.net.rx.ready = vacant rxSlots

structure Inv (s : System) (done : ℕ) (log : List Frame) : Prop where
  tokens : log.map Frame.token = s.sent
  sending : Sending s.net.controller s.net.tx done log
  retired : s.txRetired ≤ s.sent.length
  cons : s.net.controller.txCons = s.txRetired % 2 ^ 16
  idle : s.net.dataplane = .fresh → s.txRetired = 0

theorem reset_eq (net : GenetNet) : (∃ e, net.reset = (.error e, net)) ∨
    net.reset = (.ok (), {
      controller := { net.controller with txCons := 0, rxCons := 0 }
      tx := ⟨.new ⟨Genet.tdma, v5Q0TxBdCnt⟩ net.controller.dma, fun _ => none, vacant rxSlots⟩
      rx := ⟨.new ⟨Genet.rdma, v5Q0RxBdCnt⟩ net.controller.dma, fun _ => none, vacant rxSlots⟩
      dataplane := .fresh }) := by
  unfold GenetNet.reset
  cases net.controller.answers.reset with
  | error e => exact .inl ⟨e, rfl⟩
  | ok u => exact .inr rfl

theorem Inv.of_reset {s : System} {net : GenetNet} (h : net.reset = (.ok (), s.net))
    (hsent : s.sent = []) (hretired : s.txRetired = 0) : Inv s 0 [] := by
  rcases reset_eq net with ⟨e, he⟩ | hok
  · rw [he] at h
    cases h
  rw [hok] at h
  obtain ⟨-, hnet⟩ := Prod.mk.inj h
  refine ⟨hsent.symm, ?_, by rw [hretired]; exact Nat.zero_le _, ?_, fun _ => hretired⟩
  · rw [← hnet]
    exact ⟨.new _ _ (by decide) (by decide), rfl, rfl, Kept.empty _, nofun, nofun⟩
  · rw [← hnet, hretired]
    rfl

variable {s s' : System} {done : ℕ} {log : List Frame}

section

variable (h : Inv s done log)
include h

theorem Inv.of_kept (hkept : TxKept s.net s'.net) (hsent : s'.sent = s.sent)
    (hretired : s'.txRetired = s.txRetired) : Inv s' done log where
  tokens := h.tokens.trans hsent.symm
  sending := by
    rw [hkept.half]
    exact h.sending.congr hkept.dma hkept.status hkept.address
  retired := by
    rw [hretired, hsent]
    exact h.retired
  cons := by
    rw [hretired]
    rcases hkept.cons with heq | ⟨hfresh, hzero⟩
    · exact heq.trans h.cons
    · rw [hzero, h.idle hfresh]
      rfl
  idle := fun hfresh => hretired.trans (h.idle (hkept.fresh hfresh))

/-- A submission of a proper length is refused without effect, or hands one frame over at the
first free index. -/
theorem Inv.submit {token : PacketToken} {buffer : Buffer}
    (hlen : ¬ Overlong buffer.len) (hstep : s.step (.submit token buffer) = some s') :
    (∃ e, s.net.submitFrame token buffer = (.error e, s.net)) ∧ s' = s ∨
    ∃ f : Frame, f.token = token ∧ f.descriptor.length = tsbBytes + buffer.len ∧
      (s.net.submitFrame token buffer).1 = .ok () ∧ s'.sent = s.sent ++ [token] ∧
      s'.reported = s.reported ∧ s'.txRetired = s.txRetired ∧
      s'.net.tx.ready = s.net.tx.ready ∧ RxKept s.net s'.net ∧ s'.arrived = s.arrived ∧
      s'.rxRetired = s.rxRetired ∧ s'.net.controller.txProd = s'.sent.length % v5Q0TxBdCnt ∧
      Inv s' done (log ++ [f]) := by
  simp only [step, Option.some.injEq] at hstep
  rcases submitFrame_cases s.net h.sending.dma token buffer with ⟨e, he⟩ | ⟨hlong, -⟩ |
    ⟨f, index, ring, htoken, hlength, hvalid, hpost, hok⟩
  · refine .inl ⟨⟨e, he⟩, ?_⟩
    rw [he] at hstep
    exact hstep.symm
  · exact absurd hlong hlen
  · refine .inr ⟨f, htoken, hlength, by rw [hok], ?_⟩
    rw [hok] at hstep
    obtain ⟨hindex, hproducer, hsending⟩ := h.sending.post hvalid hpost
    have hlog : log.length = s.sent.length := by rw [← h.tokens, List.length_map]
    subst htoken
    subst hstep
    refine ⟨rfl, rfl, rfl, rfl, ⟨rfl, rfl, rfl, rfl, rfl, rfl⟩, rfl, rfl, ?_, ?_, hsending, ?_,
      h.cons, h.idle⟩
    · show ring.producer = (s.sent ++ [f.token]).length % v5Q0TxBdCnt
      rw [hproducer, hlog, List.length_append, List.length_singleton]
    · rw [List.map_append, h.tokens]
      rfl
    · show s.txRetired ≤ (s.sent ++ [f.token]).length
      rw [List.length_append]
      have := h.retired
      omega

/-- A poll completes a number of the oldest frames, until it meets the engine's count modulo
`2 ^ 16` or has no frame left. While no more was completed than retired, the transmit ring is no
reason for it to fail. -/
theorem Inv.advanceTx {fuel : ℕ} (hfuel : outstanding < fuel) :
    ∃ k answer tx', s.net.tx.advance fuel s.net.controller = some (answer, tx') ∧
      done + k ≤ log.length ∧ Sending s.net.controller tx' (done + k) log ∧
      tx'.ready = (found log done k).foldl enqueue s.net.tx.ready ∧
      (∀ j < k, (done + j) % v5Q0TxBdCnt ≠ s.txRetired % 2 ^ 16) ∧
      ((done + k) % v5Q0TxBdCnt = s.txRetired % 2 ^ 16 ∨ done + k = log.length) ∧
      (done ≤ s.txRetired ∨ v5Q0TxBdCnt ≤ log.length → answer = .ok ()) := by
  have hroom := h.sending.room
  obtain ⟨k, answer, tx', hrun, hk, hsending, hready, hskip, hend⟩ :=
    h.sending.advance fuel (by omega)
  have hcons : s.net.controller.consumerIndex .tdma = s.txRetired % 2 ^ 16 := by
    show s.net.controller.txCons % 2 ^ 16 = _
    rw [h.cons, Nat.mod_mod]
  rw [hcons] at hskip hend
  refine ⟨k, answer, tx', hrun, hk, hsending, hready, hskip,
    hend.imp And.left fun hlast => hlast.2.1, fun hdone => ?_⟩
  have hlog : log.length = s.sent.length := by rw [← h.tokens, List.length_map]
  have hretired := h.retired
  rcases hend with ⟨-, hok⟩ | ⟨hne, hlast, hok⟩
  · exact hok
  refine hok ?_
  -- before the ring was full the count is an index of it, and the loop cannot have missed it
  by_contra hshort
  have hle : done ≤ s.txRetired := hdone.resolve_right hshort
  have hbound : s.txRetired < v5Q0TxBdCnt := by omega
  have hindex : s.txRetired % v5Q0TxBdCnt = s.txRetired % 2 ^ 16 := by
    rw [Nat.mod_eq_of_lt hbound, Nat.mod_eq_of_lt (Nat.lt_trans hbound (by decide))]
  by_cases hlt : s.txRetired - done < k
  · have hmiss := hskip _ hlt
    rw [Nat.add_sub_cancel' hle] at hmiss
    exact hmiss hindex
  have heq : done + k = s.txRetired := by omega
  rw [heq] at hne
  exact hne hindex

theorem Inv.advance {fuel : ℕ} (hstep : s.step (.advance fuel) = some s') :
    ∃ k, done + k ≤ log.length ∧ Inv s' (done + k) log ∧ s'.sent = s.sent ∧
      s'.txRetired = s.txRetired ∧
      s'.net.tx.ready = (found log done k).foldl enqueue s.net.tx.ready ∧
      s'.reported = s.reported ++ s'.net.tx.ready.reduceOption.map Prod.fst ∧
      (∀ j < k, (done + j) % v5Q0TxBdCnt ≠ s.txRetired % 2 ^ 16) ∧
      ((done + k) % v5Q0TxBdCnt = s.txRetired % 2 ^ 16 ∨ done + k = log.length) := by
  simp only [step, Option.map_eq_some_iff] at hstep
  obtain ⟨⟨answer, net⟩, hrun, rfl⟩ := hstep
  obtain ⟨k, answerTx, tx', htx, hk, hsending, hready, hskip, hend, -⟩ :=
    h.advanceTx (show outstanding < fuel + (outstanding + 1) by omega)
  have hkept : TxKept { s.net with tx := tx' } net := by
    unfold GenetNet.advanceRings at hrun
    cases hadvance : s.net.tx.advance fuel s.net.controller with
    | none =>
      rw [hadvance] at hrun
      contradiction
    | some result =>
      rw [advance_mono hadvance (outstanding + 1)] at htx
      obtain rfl := Option.some.inj htx
      rw [hadvance] at hrun
      cases answerTx with
      | error e =>
        obtain ⟨-, rfl⟩ := Prod.mk.inj (Option.some.inj hrun)
        exact TxKept.refl _
      | ok u => exact TxKept.advanceRx _ _ hrun
  refine ⟨k, hk, ?_, rfl, rfl, ?_, rfl, hskip, hend⟩
  · have hmid : Inv { s with net := { s.net with tx := tx' } } (done + k) log :=
      ⟨h.tokens, hsending, h.retired, h.cons, h.idle⟩
    exact hmid.of_kept hkept rfl rfl
  show net.tx.ready = _
  rw [hkept.half]
  exact hready

theorem Inv.takeTx :
    Inv { s with net := s.net.takeTxComplete.2 } done log :=
  ⟨h.tokens, ⟨h.sending.tracks, h.sending.count, h.sending.dma, h.sending.tokens,
    h.sending.words, h.sending.valid⟩, h.retired, h.cons, h.idle⟩

theorem Inv.retireTx (hstep : s.step .retireTx = some s') :
    Inv s' done log ∧ s'.sent = s.sent ∧ s'.reported = s.reported ∧
      s'.txRetired = s.txRetired + 1 ∧ s'.net.tx = s.net.tx ∧ RxKept s.net s'.net ∧
      s'.arrived = s.arrived ∧ s'.rxRetired = s.rxRetired := by
  simp only [step] at hstep
  split at hstep
  · rename_i hguard
    obtain rfl := Option.some.inj hstep
    refine ⟨⟨h.tokens, ?_, hguard.2, rfl, ?_⟩, rfl, rfl, rfl, rfl, ⟨rfl, rfl, rfl, rfl, rfl, rfl⟩,
      rfl, rfl⟩
    · exact h.sending.congr rfl rfl rfl
    intro hfresh
    have hdown : s.net.dataplane = .fresh := hfresh
    rw [hguard.1] at hdown
    contradiction
  · contradiction

theorem Inv.other {op : Op} (hstep : s.step op = some s')
    (hop : (∃ token buffer, op = .returnRx token buffer) ∨ op = .takeRx ∨
      (∃ word, op = .retireRx word) ∨ ∃ a, op = .answer a) :
    Inv s' done log ∧ s'.sent = s.sent ∧ s'.reported = s.reported ∧
      s'.txRetired = s.txRetired ∧ s'.net.tx = s.net.tx := by
  rcases hop with ⟨token, buffer, rfl⟩ | rfl | ⟨word, rfl⟩ | ⟨a, rfl⟩
  · simp only [step, Option.some.injEq] at hstep
    subst hstep
    have hkept := TxKept.returnRx s.net token buffer
    exact ⟨h.of_kept hkept rfl rfl, rfl, rfl, rfl, hkept.half⟩
  · simp only [step, Option.some.injEq] at hstep
    subst hstep
    exact ⟨h.of_kept (TxKept.of_rx _ _) rfl rfl, rfl, rfl, rfl, rfl⟩
  · simp only [step] at hstep
    split at hstep
    · obtain rfl := Option.some.inj hstep
      refine ⟨h.of_kept ⟨rfl, rfl, rfl, rfl, .inl rfl, id⟩ rfl rfl, rfl, rfl, rfl, rfl⟩
    · contradiction
  · simp only [step, Option.some.injEq] at hstep
    subst hstep
    exact ⟨h.of_kept ⟨rfl, rfl, rfl, rfl, .inl rfl, id⟩ rfl rfl, rfl, rfl, rfl, rfl⟩

end

/-- A reset that fails changes nothing; one that does not starts all over. -/
theorem reset_cases (hstep : s.step .reset = some s') :
    s' = s ∨ Inv s' 0 [] ∧ s'.sent = [] ∧ s'.reported = [] ∧ s'.txRetired = 0 ∧
      s'.net.tx.ready = vacant rxSlots := by
  simp only [step] at hstep
  rcases reset_eq s.net with ⟨e, he⟩ | hok
  · rw [he] at hstep
    exact .inl (Option.some.inj hstep).symm
  rw [hok] at hstep
  obtain rfl := Option.some.inj hstep
  exact .inr ⟨Inv.of_reset hok rfl rfl, rfl, rfl, rfl, rfl⟩

def Ordinary (s : System) : Op → Prop
  | .submit _ buffer => buffer.len ≤ 1472
  | .advance _ => s.Drained
  | _ => True

def CountInRing (s : System) : Prop :=
  s.txRetired % 2 ^ 16 < v5Q0TxBdCnt ∨ s.txRetired = s.sent.length

def InRing (s : System) (op : Op) : Prop :=
  s.Ordinary op ∧ ∀ fuel, op = .advance fuel → s.CountInRing

theorem not_overlong {len : ℕ} (h : len ≤ 1472) : ¬ Overlong len := by
  intro hlong
  have hmin : 1536 < 64 + len := hlong.1
  omega

structure Reported (s : System) (done : ℕ) (log : List Frame) : Prop extends Inv s done log where
  oldest : s.reported = s.sent.take done

theorem Reported.advance (h : Reported s done log) (hdrained : s.Drained) {fuel : ℕ}
    (hstep : s.step (.advance fuel) = some s') :
    ∃ k, done + k ≤ log.length ∧ Reported s' (done + k) log ∧ s'.sent = s.sent ∧
      s'.txRetired = s.txRetired ∧
      (∀ j < k, (done + j) % v5Q0TxBdCnt ≠ s.txRetired % 2 ^ 16) ∧
      ((done + k) % v5Q0TxBdCnt = s.txRetired % 2 ^ 16 ∨ done + k = log.length) := by
  obtain ⟨k, hk, hinv, hsent, hretired, hready, hreported, hskip, hend⟩ := h.toInv.advance hstep
  refine ⟨k, hk, ⟨hinv, ?_⟩, hsent, hretired, hskip, hend⟩
  have htokens := found_tokens hk
  have hlen : (found log done k).length ≤ rxSlots := by
    have hroom := h.sending.room
    have hlen := congrArg List.length htokens
    rw [List.length_map, List.length_take] at hlen
    have : rxSlots = outstanding := rfl
    omega
  rw [hdrained.1, foldl_enqueue _ _ hlen] at hready
  rw [hreported, hready, reduceOption_parked, htokens, h.oldest, hsent, h.tokens,
    ← List.take_add]

/-- While the engine's count is an index of the ring, a poll stops exactly there. -/
theorem meets_count (h : Inv s done log) (hdone : done ≤ s.txRetired) (hcount : s.CountInRing)
    {k : ℕ} (hk : done + k ≤ log.length)
    (hskip : ∀ j < k, (done + j) % v5Q0TxBdCnt ≠ s.txRetired % 2 ^ 16)
    (hend : (done + k) % v5Q0TxBdCnt = s.txRetired % 2 ^ 16 ∨ done + k = log.length) :
    done + k = s.txRetired := by
  have hlog : log.length = s.sent.length := by rw [← h.tokens, List.length_map]
  have hle := h.retired
  have hroom : log.length ≤ done + 8 := h.sending.room
  have hmod : s.txRetired % 2 ^ 16 < v5Q0TxBdCnt →
      s.txRetired % v5Q0TxBdCnt = s.txRetired % 2 ^ 16 := by
    intro hindex
    rw [← Nat.mod_mod_of_dvd _ (show v5Q0TxBdCnt ∣ 2 ^ 16 by decide), Nat.mod_eq_of_lt hindex]
  rcases hend with hstop | hlast
  · have hindex := hmod (hstop ▸ Nat.mod_lt _ (by decide))
    exact mod_inj (by omega) (show done + k < done + 128 by omega) hdone
      (show s.txRetired < done + 128 by omega) (hstop.trans hindex.symm)
  rcases hcount with hindex | hall
  · by_contra hne
    have hmiss := hskip (s.txRetired - done) (by omega)
    rw [Nat.add_sub_cancel' hdone] at hmiss
    exact hmiss (hmod hindex)
  · omega

theorem Reported.advance_exact (h : Reported s done log) (hdone : done ≤ s.txRetired)
    (hdrained : s.Drained) (hcount : s.CountInRing) {fuel : ℕ}
    (hstep : s.step (.advance fuel) = some s') : Reported s' s'.txRetired log := by
  obtain ⟨k, hk, hinv, hsent, hretired, hskip, hend⟩ := h.advance hdrained hstep
  rw [meets_count h.toInv hdone hcount hk hskip hend] at hinv
  rwa [hretired]

/-- A run that polls only while the engine's count is an index of the ring. -/
theorem Reported.step (h : Reported s done log) (hdone : done ≤ s.txRetired) {op : Op}
    (hok : s.InRing op) (hstep : s.step op = some s') :
    ∃ done' log', Reported s' done' log' ∧ done' ≤ s'.txRetired := by
  cases op with
  | submit token buffer =>
    rcases h.toInv.submit (not_overlong hok.1) hstep with ⟨-, rfl⟩ |
      ⟨f, -, -, -, hsent, hreported, hretired, -, -, -, -, -, hinv⟩
    · exact ⟨done, log, h, hdone⟩
    · refine ⟨done, _, ⟨hinv, ?_⟩, hretired ▸ hdone⟩
      rw [hreported, hsent, h.oldest, List.take_append_of_le_length (Nat.le_trans hdone h.retired)]
  | advance fuel =>
    have hexact := h.advance_exact hdone hok.1 (hok.2 fuel rfl) hstep
    exact ⟨_, _, hexact, Nat.le_refl _⟩
  | takeTx =>
    obtain rfl := Option.some.inj hstep
    exact ⟨done, log, ⟨h.toInv.takeTx, h.oldest⟩, hdone⟩
  | reset =>
    rcases reset_cases hstep with rfl | ⟨hinv, hsent, hreported, hretired, -⟩
    · exact ⟨done, log, h, hdone⟩
    · exact ⟨0, [], ⟨hinv, by rw [hreported, hsent]; rfl⟩, Nat.zero_le _⟩
  | retireTx =>
    obtain ⟨hinv, hsent, hreported, hretired, -⟩ := h.toInv.retireTx hstep
    exact ⟨done, log, ⟨hinv, by rw [hreported, hsent, h.oldest]⟩, by omega⟩
  | _ =>
    obtain ⟨hinv, hsent, hreported, hretired, -⟩ := h.toInv.other hstep (by simp)
    exact ⟨done, log, ⟨hinv, by rw [hreported, hsent, h.oldest]⟩, by omega⟩

/-- Completion is sound over unbounded traffic: the tokens that were put in `tx_ready` are those
of the oldest accepted frames, in order and once each, never more than the engine has retired;
and when a poll returns they are all of those. -/
theorem completion_sound {s : System} (hr : Reach Init System.step InRing s) :
    (∃ done, s.reported = s.sent.take done ∧ done ≤ s.txRetired) ∧ s.txRetired ≤ s.sent.length ∧
    ∀ fuel s', s.InRing (.advance fuel) → s.step (.advance fuel) = some s' →
      s'.reported = s'.sent.take s'.txRetired := by
  have hinv : ∃ done log, Reported s done log ∧ done ≤ s.txRetired := by
    refine Reach.invariant (I := fun s => ∃ done log, Reported s done log ∧ done ≤ s.txRetired)
      ?_ ?_ hr
    · rintro s ⟨net, hreset, hsent, hretired, hreported, -, -⟩
      exact ⟨0, [], ⟨.of_reset hreset hsent hretired, by rw [hreported, hsent]; rfl⟩,
        Nat.zero_le _⟩
    · rintro s op s' ⟨done, log, h, hdone⟩ hok hstep
      exact h.step hdone hok hstep
  obtain ⟨done, log, h, hdone⟩ := hinv
  refine ⟨⟨done, h.oldest, hdone⟩, h.retired, fun fuel s' hok hstep => ?_⟩
  exact (h.advance_exact hdone hok.1 (hok.2 fuel rfl) hstep).oldest

section LongRuns

structure Calm (s : System) : Prop where
  drained : s.Drained
  up : s.net.dataplane = .enabled
  quiet : s.net.rx.ring.consumer = s.net.controller.rxCons % 2 ^ 16
  reachable : s.net.controller.dma.mapCpu 0 124 = some 0

theorem Calm.congr (h : Calm s) (htx : s'.net.tx.ready = s.net.tx.ready)
    (hrx : RxKept s.net s'.net) : Calm s' where
  drained := ⟨htx.trans h.drained.1, by rw [hrx.half]; exact h.drained.2⟩
  up := hrx.dataplane.trans h.up
  quiet := by
    rw [hrx.half, hrx.cons]
    exact h.quiet
  reachable := by
    rw [hrx.dma]
    exact h.reachable

theorem advance_returns (h : Inv s done log)
    (hdone : done ≤ s.txRetired ∨ v5Q0TxBdCnt ≤ log.length)
    (hquiet : s.net.rx.ring.consumer = s.net.controller.rxCons % 2 ^ 16) :
    ∃ s', s.step (.advance (outstanding + 1)) = some s' ∧ RxKept s.net s'.net := by
  obtain ⟨k, answer, tx', htx, -, -, -, -, -, hok⟩ := h.advanceTx (Nat.lt_succ_self outstanding)
  rw [hok hdone] at htx
  have hrx : GenetNet.advanceRx (s.net.controller.consumerIndex .rdma) (outstanding + 1)
      { s.net with tx := tx' } = some (.ok (), { s.net with tx := tx' }) := by
    unfold GenetNet.advanceRx
    exact if_pos hquiet
  simp only [step, GenetNet.advanceRings, htx, hrx, Option.map_some]
  exact ⟨_, rfl, rfl, rfl, rfl, rfl, rfl, rfl⟩

theorem Inv.submit_smallest (h : Inv s done log) (hroom : log.length < done + outstanding)
    (hmap : s.net.controller.dma.mapCpu 0 124 = some 0) (token : PacketToken) :
    (s.net.submitFrame token ⟨0, 60⟩).1 = .ok () := by
  obtain ⟨hfits, hin⟩ := DmaWindows.contains_of_mapCpu hmap (Nat.le_refl _)
  have hframe : (⟨token, ⟨0, 124, 0⟩⟩ : Frame).Valid s.net.controller.dma :=
    ⟨show 0 < 124 by decide, show 124 ≤ maxFrameBytes by decide, hfits, hin⟩
  have hvalid : s.net.tx.ring.validateDescriptor ⟨0, 124, 0⟩ = .ok () := by
    rw [validateDescriptor_service (by decide), h.sending.dma]
    exact hframe.validate
  obtain ⟨ring, hpost, -⟩ := BoundedRingState.post_room h.sending.tracks hvalid
    (by rw [h.sending.count]; decide) (by rwa [List.length_map])
  have htranslate : s.net.translate 0 124 = .ok 0 := by
    unfold GenetNet.translate
    rw [hmap]
  unfold GenetNet.submitFrame
  rw [show validateFrameLength 60 = .ok () from rfl, show tsbBytes + 60 = 124 from rfl]
  simp only [htranslate, hpost, writeDescriptor_tdma hframe]

section

variable (h : Reported s log.length log) (hcalm : s.Calm) (hr : Reach Init System.step InRing s)
  (hretired : s.txRetired = log.length)
include h hcalm hr hretired

/-- A frame is accepted after all earlier ones were retired and reported. -/
theorem Reported.send :
    ∃ s' f, Reach Init System.step InRing s' ∧ Reported s' log.length (log ++ [f]) ∧ s'.Calm ∧
      s'.txRetired = log.length := by
  obtain ⟨s', hstep⟩ : ∃ s', s.step (.submit ⟨0, 0, 0⟩ ⟨0, 60⟩) = some s' := ⟨_, rfl⟩
  have hsmall : s.Ordinary (.submit ⟨0, 0, 0⟩ ⟨0, 60⟩) := show 60 ≤ 1472 by decide
  have hok := h.submit_smallest (Nat.lt_add_of_pos_right (by decide)) hcalm.reachable ⟨0, 0, 0⟩
  rcases h.toInv.submit (not_overlong hsmall) hstep with ⟨⟨e, he⟩, -⟩ |
    ⟨f, -, -, -, hsent, hreported, hret, htx, hrx, -, -, -, hinv⟩
  · rw [he] at hok
    contradiction
  refine ⟨s', f, hr.next ⟨hsmall, nofun⟩ hstep, ⟨hinv, ?_⟩, hcalm.congr htx hrx,
    hret.trans hretired⟩
  have hlog : log.length = s.sent.length := by rw [← h.tokens, List.length_map]
  rw [hreported, hsent, h.oldest, List.take_append_of_le_length (Nat.le_of_eq hlog)]

/-- One more frame is sent, retired, reported and taken. -/
theorem Reported.round :
    ∃ s' f, Reach Init System.step InRing s' ∧
      Reported s' (log ++ [f]).length (log ++ [f]) ∧ s'.Calm ∧
      s'.txRetired = (log ++ [f]).length := by
  obtain ⟨s1, f, hr1, h1, hcalm1, hret1⟩ := h.send hcalm hr hretired
  have hlen : (log ++ [f]).length = log.length + 1 := List.length_append
  have hsent1 : s1.sent.length = log.length + 1 := by rw [← h1.tokens, List.length_map, hlen]
  obtain ⟨s2, hs2⟩ : ∃ s2, s1.step .retireTx = some s2 := by
    simp only [System.step]
    rw [if_pos ⟨hcalm1.up, by omega⟩]
    exact ⟨_, rfl⟩
  obtain ⟨hinv2, hsent2, hrep2, hret2, htx2, hrx2, -⟩ := h1.toInv.retireTx hs2
  have hr2 : Reach Init System.step InRing s2 := hr1.next (l := Op.retireTx) ⟨trivial, by simp⟩ hs2
  have hcalm2 := hcalm1.congr (by rw [htx2]) hrx2
  have hdone2 : log.length ≤ s2.txRetired := by omega
  obtain ⟨s3, hs3, hrx3⟩ := advance_returns hinv2 (.inl hdone2) hcalm2.quiet
  have hall : s2.CountInRing := .inr (by rw [hsent2]; omega)
  have hr3 : Reach Init System.step InRing s3 :=
    hr2.next (l := Op.advance _) ⟨hcalm2.drained, fun _ _ => hall⟩ hs3
  have h2 : Reported s2 log.length (log ++ [f]) := ⟨hinv2, by rw [hrep2, hsent2, h1.oldest]⟩
  obtain ⟨k, hk, -, -, hret3, hready3, -, -, hend⟩ := hinv2.advance hs3
  have hexact := h2.advance_exact hdone2 hcalm2.drained hall hs3
  have hret : s3.txRetired = (log ++ [f]).length := by omega
  rw [hret] at hexact
  -- the poll found one frame, so one take leaves the list vacant
  have hone : k = 1 := by
    rcases hend with hstop | hlast
    · have hstop' : (log.length + k) % 128 = (log.length + 1) % 65536 := by
        rw [show log.length + 1 = s2.txRetired by omega]
        exact hstop
      omega
    · omega
  have hfound : found (log ++ [f]) log.length 1 = [completionOf log.length f] := by
    simp only [found, List.range'_one, List.filterMap_cons, List.getElem?_concat_length,
      Option.map_some, List.filterMap_nil]
  rw [hone, hfound, hcalm2.drained.1] at hready3
  have hcalm3 : Calm { s3 with net := s3.net.takeTxComplete.2 } := by
    refine hcalm2.congr ?_ ⟨hrx3.half, hrx3.dma, hrx3.status, hrx3.cons, hrx3.prod, hrx3.dataplane⟩
    show (takeFirst s3.net.tx.ready).2 = s2.net.tx.ready
    rw [hready3, hcalm2.drained.1]
    rfl
  exact ⟨{ s3 with net := s3.net.takeTxComplete.2 }, f,
    hr3.next (l := Op.takeTx) ⟨trivial, by simp⟩ rfl, ⟨hexact.toInv.takeTx, hexact.oldest⟩,
    hcalm3, hret⟩

end

def window : DmaWindow := ⟨0, 0, 2 ^ 32, by decide, by decide, by decide⟩

def cold : GenetNet where
  controller := ⟨⟨[window], by decide, by decide⟩, fun _ => 0, fun _ => 0, fun _ => 0, fun _ => 0,
    0, 0, 0, 0, ⟨.ok (), .ok .up, .ok (), .ok (), .ok ()⟩⟩
  tx := ⟨.new ⟨Genet.tdma, v5Q0TxBdCnt⟩ ⟨[window], by decide, by decide⟩, fun _ => none,
    vacant rxSlots⟩
  rx := ⟨.new ⟨Genet.rdma, v5Q0RxBdCnt⟩ ⟨[window], by decide, by decide⟩, fun _ => none,
    vacant rxSlots⟩
  dataplane := .fresh

def booted : System := ⟨(cold.reset.2.returnRx ⟨8, 0, 0⟩ ⟨4096, 2048⟩).2, [], 0, [], 0, []⟩

theorem booted_reach : Reach Init System.step InRing booted := by
  refine Reach.next (s := ⟨cold.reset.2, [], 0, [], 0, []⟩)
    (l := Op.returnRx ⟨8, 0, 0⟩ ⟨4096, 2048⟩) (Reach.start ?_) ⟨trivial, nofun⟩ rfl
  exact ⟨cold, rfl, rfl, rfl, rfl, rfl, rfl⟩

theorem booted_reported : Reported booted 0 [] := by
  have hreset : cold.reset = (.ok (), cold.reset.2) := rfl
  have hstart : Inv ⟨cold.reset.2, [], 0, [], 0, []⟩ 0 [] := Inv.of_reset hreset rfl rfl
  have hstep : System.step ⟨cold.reset.2, [], 0, [], 0, []⟩ (.returnRx ⟨8, 0, 0⟩ ⟨4096, 2048⟩) =
      some booted := rfl
  exact ⟨(hstart.other hstep (.inl ⟨_, _, rfl⟩)).1, rfl⟩

theorem booted_calm : Calm booted := ⟨⟨rfl, rfl⟩, rfl, rfl, rfl⟩

/-- Any number of frames is sent, retired and reported one after the other. -/
theorem sent_one_by_one (n : ℕ) : ∃ s log, Reach Init System.step InRing s ∧
    log.length = n ∧ Reported s log.length log ∧ s.Calm ∧ s.txRetired = log.length := by
  induction n with
  | zero => exact ⟨booted, [], booted_reach, rfl, booted_reported, booted_calm, rfl⟩
  | succ n ih =>
    obtain ⟨s, log, hr, rfl, h, hcalm, hretired⟩ := ih
    obtain ⟨s', f, hr', h', hcalm', hretired'⟩ := h.round hcalm hr hretired
    exact ⟨s', _, hr', List.length_append, h', hcalm', hretired'⟩

/-- The frame after a full ring of traffic is reported although the engine has not retired it. -/
theorem completion_unsound :
    ∃ s, Reach Init System.step Ordinary s ∧ s.txRetired < s.reported.length := by
  obtain ⟨s, log, hr, hlen, h, hcalm, hretired⟩ := sent_one_by_one v5Q0TxBdCnt
  obtain ⟨s1, f, hr1, h1, hcalm1, hret1⟩ := h.send hcalm hr hretired
  have hdone : log.length ≤ s1.txRetired := Nat.le_of_eq hret1.symm
  obtain ⟨s2, hs2, -⟩ := advance_returns h1.toInv (.inl hdone) hcalm1.quiet
  obtain ⟨k, -, h2, hsent, hret, -, hend⟩ := h1.advance hcalm1.drained hs2
  refine ⟨s2, (hr1.mono fun _ _ hok => hok.1).next (l := Op.advance _) hcalm1.drained hs2, ?_⟩
  have hlast : log.length + k = (log ++ [f]).length := by
    rcases hend with hstop | hlast
    · -- the count reads 128, which is no index
      rw [hret1, hlen] at hstop
      have hindex := Nat.mod_lt (v5Q0TxBdCnt + k) (show 0 < v5Q0TxBdCnt by decide)
      rw [hstop] at hindex
      exact absurd hindex (by decide)
    · exact hlast
  have hsent2 : s2.sent.length = log.length + 1 := by
    rw [← h2.tokens, List.length_map, List.length_append, List.length_singleton]
  rw [h2.oldest, List.length_take, hret, hret1, hlast, hsent2, List.length_append,
    List.length_singleton]
  omega

/-- After more than two rings of traffic. -/
theorem completion_sound_long : ∃ s, Reach Init System.step InRing s ∧ s.txRetired = 300 ∧
    ∃ done, s.reported = s.sent.take done ∧ done ≤ s.txRetired := by
  obtain ⟨s, log, hr, hlen, -, -, hretired⟩ := sent_one_by_one 300
  exact ⟨s, hr, hretired.trans hlen, (completion_sound hr).1⟩

end LongRuns

section Refusals

/-- Runs in which no frame has a length that the ring takes and the status word does not. -/
def Encodable (_ : System) : Op → Prop
  | .submit _ buffer => ¬ Overlong buffer.len
  | _ => True

structure Accepted (s : System) (done : ℕ) (log : List Frame) : Prop extends Inv s done log where
  ready : ∀ x ∈ s.net.tx.ready.reduceOption, x.1 ∈ s.sent

theorem Accepted.step (h : Accepted s done log) {op : Op} (hok : s.Encodable op)
    (hstep : s.step op = some s') : ∃ done' log', Accepted s' done' log' := by
  cases op with
  | submit token buffer =>
    rcases h.toInv.submit hok hstep with ⟨-, rfl⟩ |
      ⟨f, -, -, -, hsent, -, -, hready, -, -, -, -, hinv⟩
    · exact ⟨done, log, h⟩
    refine ⟨done, _, hinv, fun x hx => ?_⟩
    rw [hready] at hx
    rw [hsent]
    exact List.mem_append_left _ (h.ready x hx)
  | advance fuel =>
    obtain ⟨k, hk, hinv, hsent, -, hready, -⟩ := h.toInv.advance hstep
    refine ⟨_, _, hinv, fun x hx => ?_⟩
    rw [hready] at hx
    rw [hsent]
    rcases mem_foldl_enqueue hx with hx | hx
    · have hx := List.mem_map_of_mem (f := Prod.fst) hx
      rw [found_tokens hk, h.tokens] at hx
      exact List.mem_of_mem_drop (List.mem_of_mem_take hx)
    · exact h.ready x hx
  | takeTx =>
    obtain rfl := Option.some.inj hstep
    refine ⟨done, log, h.toInv.takeTx, fun x hx => h.ready x ?_⟩
    rw [takeFirst_reduceOption]
    exact List.mem_append_right _ hx
  | reset =>
    rcases reset_cases hstep with rfl | ⟨hinv, -, -, -, hready⟩
    · exact ⟨done, log, h⟩
    refine ⟨0, [], hinv, fun x hx => ?_⟩
    rw [hready, reduceOption_vacant] at hx
    exact absurd hx List.not_mem_nil
  | retireTx =>
    obtain ⟨hinv, hsent, -, -, htx, -⟩ := h.toInv.retireTx hstep
    refine ⟨done, log, hinv, ?_⟩
    rw [htx, hsent]
    exact h.ready
  | _ =>
    obtain ⟨hinv, hsent, -, -, htx⟩ := h.toInv.other hstep (by simp)
    refine ⟨done, log, hinv, ?_⟩
    rw [htx, hsent]
    exact h.ready

/-- A refused submission has no effect, and so what the doorbell hands over and what is reported
are accepted frames, each written at the first free index. -/
theorem refused_submit_has_no_effect {s : System} (hr : Reach Init System.step Encodable s) :
    (∀ token buffer, ¬ Overlong buffer.len →
      (∃ e, s.net.submitFrame token buffer = (.error e, s.net)) ∨
      ∃ net, s.net.submitFrame token buffer = (.ok (), net) ∧
        net.tx.tokens (s.sent.length % v5Q0TxBdCnt) = some token ∧
        net.controller.txStatus (s.sent.length % v5Q0TxBdCnt) = txWord (tsbBytes + buffer.len) ∧
        net.controller.txProd = (s.sent.length + 1) % v5Q0TxBdCnt) ∧
    (∃ (done : ℕ) (log : List Frame), log.map Frame.token = s.sent ∧
      s.net.tx.ring.producer = s.sent.length % v5Q0TxBdCnt ∧
      s.net.tx.ring.consumer = done % v5Q0TxBdCnt ∧
      ∀ i f, done ≤ i → log[i]? = some f →
        s.net.tx.ring.held (i % outstanding) = some f.descriptor ∧
        s.net.tx.tokens (i % v5Q0TxBdCnt) = some f.token ∧
        s.net.controller.txStatus (i % v5Q0TxBdCnt) = txWord f.descriptor.length ∧
        s.net.controller.txAddress (i % v5Q0TxBdCnt) = f.descriptor.address) ∧
    ∀ x ∈ s.net.tx.ready.reduceOption, x.1 ∈ s.sent := by
  have hinv : ∃ done log, Accepted s done log := by
    refine Reach.invariant (I := fun s => ∃ done log, Accepted s done log) ?_ ?_ hr
    · rintro s ⟨net, hreset, hsent, hretired, -⟩
      refine ⟨0, [], .of_reset hreset hsent hretired, fun x hx => ?_⟩
      rcases reset_eq net with ⟨e, he⟩ | hok
      · rw [he] at hreset
        cases hreset
      rw [hok] at hreset
      rw [← (Prod.mk.inj hreset).2, reduceOption_vacant] at hx
      exact absurd hx List.not_mem_nil
    · rintro s op s' ⟨done, log, h⟩ hok hstep
      exact h.step hok hstep
  obtain ⟨done, log, h⟩ := hinv
  have hlog : log.length = s.sent.length := by rw [← h.tokens, List.length_map]
  refine ⟨fun token buffer hlen => ?_, ⟨done, log, h.tokens, ?_, h.sending.consumer, ?_⟩, h.ready⟩
  · obtain ⟨s', hstep⟩ : ∃ s', s.step (.submit token buffer) = some s' := ⟨_, rfl⟩
    rcases h.toInv.submit hlen hstep with ⟨hrefused, -⟩ |
      ⟨f, htoken, hlength, hok, hsent, -, -, -, -, -, -, hprod, hinv'⟩
    · exact .inl hrefused
    have hnet : s'.net = (s.net.submitFrame token buffer).2 :=
      (congrArg System.net (Option.some.inj hstep)).symm
    have hroom : (log ++ [f]).length ≤ done + 8 := hinv'.sending.room
    have hretired := h.sending.retired
    have hlast : (log ++ [f])[log.length]? = some f := List.getElem?_concat_length
    rw [List.length_append, List.length_singleton] at hroom
    refine .inr ⟨s'.net, Prod.ext hok hnet.symm, ?_, ?_, ?_⟩
    · rw [← hlog, hinv'.sending.tokens _ hretired (show log.length < done + 128 by omega),
        List.getElem?_map, hlast, ← htoken]
      rfl
    · rw [← hlog, ← hlength]
      refine (hinv'.sending.words _ _ hlast ?_).1
      rw [List.length_append, List.length_singleton]
      show log.length + 1 ≤ log.length + 128
      omega
    · rw [hprod, hsent, List.length_append, List.length_singleton]
  · rw [h.sending.tracks.producer, h.sending.count, List.length_map, hlog]
  · intro i f hi hf
    have hroom : log.length ≤ done + 8 := h.sending.room
    have hlt := (List.getElem?_eq_some_iff.1 hf).1
    refine ⟨?_, ?_, h.sending.words i f hf ?_⟩
    · rw [h.sending.tracks.kept i hi (show i < done + 8 by omega), List.getElem?_map, hf]
      rfl
    · rw [h.sending.tokens i hi (show i < done + 128 by omega), List.getElem?_map, hf]
      rfl
    · show log.length ≤ i + 128
      omega

/-- After one frame was sent, one of 2000 bytes is refused and one of 60 bytes is accepted. -/
theorem refused_submit_has_no_effect_booted : ∃ s, Reach Init System.step Encodable s ∧
    s.sent = [⟨0, 0, 60⟩] ∧
    (∃ e, s.net.submitFrame ⟨1, 0, 60⟩ ⟨0, 2000⟩ = (.error e, s.net)) ∧
    ∃ net, s.net.submitFrame ⟨1, 0, 60⟩ ⟨0, 60⟩ = (.ok (), net) ∧
      net.tx.tokens 1 = some ⟨1, 0, 60⟩ ∧ net.controller.txStatus 1 = txWord (64 + 60) ∧
      net.controller.txProd = 2 := by
  have hboot : Reach Init System.step Encodable booted := by
    refine Reach.next (s := ⟨cold.reset.2, [], 0, [], 0, []⟩)
      (l := Op.returnRx ⟨8, 0, 0⟩ ⟨4096, 2048⟩) (Reach.start ?_) trivial rfl
    exact ⟨cold, rfl, rfl, rfl, rfl, rfl, rfl⟩
  obtain ⟨s, hs⟩ : ∃ s, booted.step (.submit ⟨0, 0, 60⟩ ⟨0, 60⟩) = some s := ⟨_, rfl⟩
  have hr : Reach Init System.step Encodable s :=
    hboot.next (l := .submit ⟨0, 0, 60⟩ ⟨0, 60⟩) (show ¬ Overlong 60 by decide) hs
  obtain ⟨hall, -⟩ := refused_submit_has_no_effect hr
  have hlong := hall ⟨1, 0, 60⟩ ⟨0, 2000⟩ (by decide)
  have hshort := hall ⟨1, 0, 60⟩ ⟨0, 60⟩ (by decide)
  obtain rfl := Option.some.inj hs
  refine ⟨_, hr, rfl, hlong.resolve_right ?_, hshort.resolve_left ?_⟩
  · rintro ⟨net, hok, -⟩
    cases congrArg Prod.fst hok
  · rintro ⟨e, he⟩
    cases congrArg Prod.fst he

/-- A frame of 1473 bytes is refused after it has taken a place of the ring, and the next doorbell
hands that place over although no word was written there. -/
theorem refused_submit_moves_ring : ∃ s, Reach Init System.step (fun _ _ => True) s ∧
    ∃ net net', s.net.submitFrame ⟨0, 0, 1473⟩ ⟨0, 1473⟩ =
        (.error (.descriptor .tooLarge), net) ∧
      net.tx.ring.producer ≠ s.net.tx.ring.producer ∧
      net.submitFrame ⟨1, 0, 60⟩ ⟨0, 60⟩ = (.ok (), net') ∧ net'.controller.txProd = 2 ∧
      net'.controller.txStatus 0 = s.net.controller.txStatus 0 ∧ net'.tx.tokens 0 = none :=
  ⟨booted, booted_reach.mono fun _ _ _ => trivial, _, _, rfl, by decide, rfl, rfl, rfl, rfl⟩

end Refusals

end System

end HarborKernel.Genet
