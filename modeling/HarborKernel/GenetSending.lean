import HarborKernel.GenetNet
import HarborKernel.Transition

/-!
Transmission over whole runs of the GENET transport. Every frame that was accepted since the last
reset has a number; its descriptor and token stand at that number modulo the length of the ring,
and the engine's counter says how many of them were retired.
-/

namespace HarborKernel.Genet

open Function CyclicTable Net ReadyList Transition

structure Frame where
  token : PacketToken
  descriptor : Descriptor

namespace Frame

structure Valid (dma : DmaWindows) (f : Frame) : Prop where
  nonempty : 0 < f.descriptor.length
  bounded : f.descriptor.length ≤ maxFrameBytes
  fits : f.descriptor.address + f.descriptor.length < 2 ^ 64
  contained : dma.contains f.descriptor.address f.descriptor.length = true

theorem Valid.validate {dma : DmaWindows} {f : Frame} (h : f.Valid dma) {st : ℕ} :
    (⟨f.descriptor.address, f.descriptor.length, st⟩ : Descriptor).validateServiceWindows dma =
      .ok () :=
  validateServiceWindows_ok h.nonempty (Nat.le_trans h.bounded (by decide)) h.fits h.contained

theorem Valid.decode {dma : DmaWindows} {f : Frame} (h : f.Valid dma) :
    ∃ status, DescriptorStatus.decode (txWord f.descriptor.length) = .ok status ∧
      status.length = f.descriptor.length ∧ status.ownership = .driver := by
  have hlength := lengthField_txWord h.bounded
  obtain ⟨status, hdecode, hstatus, hown⟩ :=
    decode_of_length (by rw [hlength]; exact h.nonempty)
      (by rw [hlength]; exact h.bounded) (txWord_own _)
  exact ⟨status, hdecode, hstatus.trans hlength, hown⟩

end Frame

structure Sending (c : Controller) (tx : TxHalf) (done : ℕ) (log : List Frame) : Prop where
  tracks : tx.ring.Tracks done (log.map Frame.descriptor)
  count : tx.ring.layout.count = v5Q0TxBdCnt
  dma : tx.ring.dma = c.dma
  tokens : Kept v5Q0TxBdCnt done tx.tokens (log.map Frame.token)
  words : ∀ i f, log[i]? = some f → log.length ≤ i + v5Q0TxBdCnt →
    c.txStatus (i % v5Q0TxBdCnt) = txWord f.descriptor.length ∧
    c.txAddress (i % v5Q0TxBdCnt) = f.descriptor.address
  valid : ∀ f ∈ log, f.Valid c.dma

section Ring

variable {N : ℕ} {r r' : BoundedRingState N}

theorem post_error {d : Descriptor} {e : RingError} (h : r.post d = (.error e, r')) : r' = r := by
  unfold BoundedRingState.post at h
  split at h
  · exact (congrArg Prod.snd h).symm
  simp only at h
  split at h
  · exact (congrArg Prod.snd h).symm
  · exact nomatch congrArg Prod.fst h

theorem post_ok_valid {d : Descriptor} {i : ℕ} (h : r.post d = (.ok i, r')) :
    r.validateDescriptor d = .ok () := by
  unfold BoundedRingState.post at h
  split at h
  · exact nomatch congrArg Prod.fst h
  · assumption

theorem validateDescriptor_service (hN : N < totalDescriptors) (d : Descriptor) :
    r.validateDescriptor d = .ok () ↔ d.validateServiceWindows r.dma = .ok () := by
  simp only [BoundedRingState.validateDescriptor, if_pos hN]
  cases d.validateServiceWindows r.dma with
  | ok u => exact ⟨fun _ => rfl, fun _ => rfl⟩
  | error e => exact ⟨nofun, nofun⟩

theorem validateServiceWindows_bounds {d : Descriptor} {dma : DmaWindows}
    (h : d.validateServiceWindows dma = .ok ()) :
    0 < d.length ∧ d.length ≤ rxBufLength ∧ d.address + d.length < 2 ^ 64 ∧
      dma.contains d.address d.length = true := by
  unfold Descriptor.validateServiceWindows Descriptor.validateUpTo at h
  repeat' split at h
  all_goals first | contradiction | skip
  rename_i h1 h2 h3 h4
  exact ⟨by omega, by omega, by omega, by simpa using h4⟩

end Ring

section Submit

variable {net net' : GenetNet} {token : PacketToken} {buffer : Buffer}

/-- The lengths that the ring takes although they have no status word. -/
def Overlong (len : ℕ) : Prop := maxFrameBytes < tsbBytes + len ∧ tsbBytes + len ≤ rxBufLength

instance (len : ℕ) : Decidable (Overlong len) := inferInstanceAs (Decidable (_ ∧ _))

theorem writeDescriptor_tdma {c : Controller} {index : ℕ} {f : Frame} (h : f.Valid c.dma) :
    c.writeDescriptor .tdma index f.descriptor = (.ok (), { c with
      txStatus := update c.txStatus index (txWord f.descriptor.length)
      txAddress := update c.txAddress index f.descriptor.address }) := by
  obtain ⟨words, hwords, hstatus⟩ := serviceWords_tx h.nonempty h.bounded h.fits
  simp only [Controller.writeDescriptor, h.validate, hwords, hstatus]

/-- What a submission of any length can do: nothing, or lose a place of the ring to a length
without a status word, or hand a frame over. -/
theorem submitFrame_cases (net : GenetNet) (hdma : net.tx.ring.dma = net.controller.dma)
    (token : PacketToken) (buffer : Buffer) :
    (∃ e, net.submitFrame token buffer = (.error e, net)) ∨
    (Overlong buffer.len ∧ ∃ (d : Descriptor) (index : ℕ) (ring : _),
      d.length = tsbBytes + buffer.len ∧
      net.tx.ring.post d = (.ok index, ring) ∧ net.submitFrame token buffer =
        (.error (.descriptor .tooLarge), { net with tx := { net.tx with ring } })) ∨
    (∃ (f : Frame) (index : ℕ) (ring : _), f.token = token ∧
      f.descriptor.length = tsbBytes + buffer.len ∧
      f.Valid net.controller.dma ∧ net.tx.ring.post f.descriptor = (.ok index, ring) ∧
      net.submitFrame token buffer = (.ok (), { net with
        controller := { net.controller with
          txStatus := update net.controller.txStatus index (txWord f.descriptor.length)
          txAddress := update net.controller.txAddress index f.descriptor.address
          txProd := ring.producer }
        tx := { net.tx with
          ring
          tokens := update net.tx.tokens index (some token) } })) := by
  unfold GenetNet.submitFrame
  cases validateFrameLength buffer.len with
  | error e => exact .inl ⟨_, rfl⟩
  | ok u =>
    simp only
    cases net.translate buffer.pa (tsbBytes + buffer.len) with
    | error e => exact .inl ⟨_, rfl⟩
    | ok address =>
      simp only
      cases hpost : net.tx.ring.post ⟨address, tsbBytes + buffer.len, 0⟩ with
      | mk answer ring =>
        cases answer with
        | error e =>
          have hsame := post_error hpost
          subst hsame
          exact .inl ⟨_, rfl⟩
        | ok index =>
          have hvalid := (validateDescriptor_service (by decide) _).1 (post_ok_valid hpost)
          rw [hdma] at hvalid
          obtain ⟨hpos, hmax, hfits, hin⟩ := validateServiceWindows_bounds hvalid
          simp only at hpos hmax hfits hin
          by_cases hlong : maxFrameBytes < tsbBytes + buffer.len
          · have hwords : (⟨address, tsbBytes + buffer.len, 0⟩ : Descriptor).serviceWords .driver
                true true false = .error .tooLarge := serviceWords_long hlong hmax hfits
            refine .inr (.inl ⟨⟨hlong, hmax⟩, _, index, ring, rfl, hpost, ?_⟩)
            simp only [Controller.writeDescriptor, hvalid, hwords]
          have hframe : (⟨token, ⟨address, tsbBytes + buffer.len, 0⟩⟩ : Frame).Valid
              net.controller.dma := ⟨hpos, Nat.le_of_not_lt hlong, hfits, hin⟩
          refine .inr (.inr ⟨_, index, ring, rfl, rfl, hframe, hpost, ?_⟩)
          simp only [writeDescriptor_tdma hframe]
          rfl

end Submit

section Halves

variable {c c' : Controller} {tx : TxHalf} {done : ℕ} {log : List Frame}

section

variable (h : Sending c tx done log)
include h

theorem Sending.congr (hdma : c'.dma = c.dma)
    (hstatus : c'.txStatus = c.txStatus) (haddress : c'.txAddress = c.txAddress) :
    Sending c' tx done log := by
  refine ⟨h.tracks, h.count, h.dma.trans hdma.symm, h.tokens, ?_, ?_⟩
  · intro i f hf hi
    rw [hstatus, haddress]
    exact h.words i f hf hi
  intro f hf
  rw [hdma]
  exact h.valid f hf

theorem Sending.retired : done ≤ log.length := by
  simpa only [List.length_map] using h.tracks.retired

theorem Sending.room : log.length ≤ done + outstanding := by
  simpa only [List.length_map] using h.tracks.room

theorem Sending.consumer :
    tx.ring.consumer = done % v5Q0TxBdCnt := by
  rw [h.tracks.consumer, h.count]

theorem Sending.post {f : Frame} (hf : f.Valid c.dma) {index : ℕ}
    {ring : BoundedRingState outstanding} (hpost : tx.ring.post f.descriptor = (.ok index, ring)) :
    index = log.length % v5Q0TxBdCnt ∧ ring.producer = (log.length + 1) % v5Q0TxBdCnt ∧
    Sending { c with
        txStatus := update c.txStatus index (txWord f.descriptor.length)
        txAddress := update c.txAddress index f.descriptor.address
        txProd := ring.producer }
      { tx with ring, tokens := update tx.tokens index (some f.token) } done
      (log ++ [f]) := by
  have hcount : 0 < tx.ring.layout.count := by rw [h.count]; decide
  have hvalid := post_ok_valid hpost
  have hroom : (log.map Frame.descriptor).length < done + outstanding := by
    refine Nat.lt_of_le_of_ne h.tracks.room fun hfull => ?_
    rw [BoundedRingState.post_full h.tracks hvalid hfull] at hpost
    cases hpost
  obtain ⟨r', hpost', htracks, hlayout, hdma⟩ :=
    BoundedRingState.post_room h.tracks hvalid hcount hroom
  rw [hpost] at hpost'
  obtain ⟨hindex, hring⟩ := Prod.mk.inj hpost'
  obtain rfl := Except.ok.inj hindex
  subst hring
  rw [List.length_map] at hroom ⊢
  rw [h.count]
  have hretired := h.retired
  have hwide : log.length < done + v5Q0TxBdCnt := Nat.lt_of_lt_of_le hroom (by
    show done + 8 ≤ done + 128
    omega)
  have hringCount : ring.layout.count = v5Q0TxBdCnt := by rw [hlayout, h.count]
  have hmap : log.map Frame.descriptor ++ [f.descriptor] = (log ++ [f]).map Frame.descriptor := by
    rw [List.map_append, List.map_singleton]
  rw [hmap] at htracks
  refine ⟨rfl, ?_, htracks, hringCount, hdma.trans h.dma, ?_, ?_, ?_⟩
  · rw [htracks.producer, hringCount, List.length_map, List.length_append, List.length_singleton]
  · have hadd := h.tokens.add (by rwa [List.length_map]) (by rwa [List.length_map]) f.token
    rwa [List.length_map, ← List.map_singleton, ← List.map_append] at hadd
  · intro i g hg hi
    rw [List.length_append, List.length_singleton] at hi
    by_cases heq : i = log.length
    · subst heq
      rw [List.getElem?_concat_length] at hg
      obtain rfl := Option.some.inj hg
      exact ⟨update_self .., update_self ..⟩
    have hlt : i < log.length := by
      have hlt := (List.getElem?_eq_some_iff.1 hg).1
      rw [List.length_append, List.length_singleton] at hlt
      omega
    rw [List.getElem?_append_left hlt] at hg
    have hne : i % v5Q0TxBdCnt ≠ log.length % v5Q0TxBdCnt := fun hmod => heq
      (mod_inj (Nat.le_refl i) (by omega) (Nat.le_of_lt hlt) (by omega) hmod)
    show update _ _ _ _ = _ ∧ update _ _ _ _ = _
    rw [update_of_ne hne, update_of_ne hne]
    exact h.words i g hg (by omega)
  · intro g hg
    rcases List.mem_append.1 hg with hg | hg
    · exact h.valid g hg
    · obtain rfl := List.mem_singleton.1 hg
      exact hf

end

def completionOf (i : ℕ) (f : Frame) : PacketToken × Completion :=
  (f.token, ⟨i % v5Q0TxBdCnt, f.descriptor.length⟩)

def found (log : List Frame) (done k : ℕ) : List (PacketToken × Completion) :=
  (List.range' done k).filterMap fun i => log[i]?.map (completionOf i)

theorem found_tokens {k : ℕ} (hk : done + k ≤ log.length) :
    (found log done k).map Prod.fst = ((log.map Frame.token).drop done).take k := by
  induction k generalizing done with
  | zero => rfl
  | succ k ih =>
    obtain ⟨f, hf⟩ : ∃ f, log[done]? = some f := ⟨_, List.getElem?_eq_getElem (by omega)⟩
    have htoken : (log.map Frame.token)[done]? = some f.token := by
      rw [List.getElem?_map, hf]
      rfl
    obtain ⟨hlt, hget⟩ := List.getElem?_eq_some_iff.1 htoken
    have hrest : (found log (done + 1) k).map Prod.fst = _ := ih (by omega)
    rw [found] at hrest
    rw [found, List.range'_succ,
      List.filterMap_cons_some (b := completionOf done f) (by rw [hf]; rfl),
      List.map_cons, hrest, List.drop_eq_getElem_cons hlt, List.take_succ_cons, hget]
    rfl

theorem Sending.complete (h : Sending c tx done log) {f : Frame} (hf : log[done]? = some f) :
    ∃ ring d, tx.ring.complete (c.txStatus (done % v5Q0TxBdCnt)) =
        (.ok (done % v5Q0TxBdCnt, d), ring) ∧ d.length = f.descriptor.length ∧
      tx.tokens (done % v5Q0TxBdCnt) = some f.token ∧
      ∀ ready, Sending c
        ⟨ring, update tx.tokens (done % v5Q0TxBdCnt) none, ready⟩ (done + 1) log := by
  have hcount : 0 < tx.ring.layout.count := by rw [h.count]; decide
  have hmem : f ∈ log := List.mem_of_getElem? hf
  have hvalid := h.valid f hmem
  have hlt := (List.getElem?_eq_some_iff.1 hf).1
  have hroom := h.room
  have hword := (h.words done f hf (by
    show log.length ≤ done + 128
    simp only [outstanding, rxSlots, packetSlots] at hroom
    omega)).1
  obtain ⟨status, hdecode, hlength, hown⟩ := hvalid.decode
  have hd : (log.map Frame.descriptor)[done]? = some f.descriptor := by
    rw [List.getElem?_map, hf]
    rfl
  obtain ⟨ring, d, hcomplete, hdlen, htracks, hlayout, hdma, -⟩ :=
    BoundedRingState.complete_oldest h.tracks hcount hdecode hown hd (by
      intro st
      rw [hlength, validateDescriptor_service (by decide), h.dma]
      exact hvalid.validate)
  have htoken := h.tokens.oldest (by decide)
  rw [List.getElem?_map, hf] at htoken
  rw [h.count] at hcomplete
  refine ⟨ring, d, by rw [hword, hcomplete], hdlen.trans hlength, htoken, fun ready => ?_⟩
  refine ⟨htracks, hlayout ▸ h.count, hdma.trans h.dma, ?_, h.words, h.valid⟩
  refine h.tokens.take (by decide) ?_
  rw [List.length_map]
  simp only [outstanding, rxSlots, packetSlots] at hroom
  show log.length ≤ done + 128
  omega

/-- Once the ring has been filled, there is a proper word at every index of it. -/
theorem Sending.decodes (h : Sending c tx done log) (hfull : v5Q0TxBdCnt ≤ log.length) :
    ∃ status, DescriptorStatus.decode (c.txStatus (done % v5Q0TxBdCnt)) = .ok status ∧
      status.ownership = .driver := by
  have hretired := h.retired
  have hroom := h.room
  -- the number below the length of the log that the index stands for
  obtain ⟨i, hi, hlen, hmod⟩ : ∃ i, i < log.length ∧ log.length ≤ i + v5Q0TxBdCnt ∧
      i % v5Q0TxBdCnt = done % v5Q0TxBdCnt := by
    by_cases hlt : done < log.length
    · refine ⟨done, hlt, ?_, rfl⟩
      simp only [outstanding, rxSlots, packetSlots] at hroom
      show log.length ≤ done + 128
      omega
    refine ⟨done - v5Q0TxBdCnt, ?_, by omega, ?_⟩
    · have hpos : 0 < v5Q0TxBdCnt := by decide
      omega
    · rw [← Nat.add_mod_right, Nat.sub_add_cancel (by omega)]
  obtain ⟨f, hf⟩ : ∃ f, log[i]? = some f := ⟨_, List.getElem?_eq_getElem hi⟩
  have hvalid := h.valid f (List.mem_of_getElem? hf)
  rw [← hmod, (h.words i f hf hlen).1]
  obtain ⟨status, hdecode, -, hown⟩ := hvalid.decode
  exact ⟨status, hdecode, hown⟩

/-- The loop over the transmit ring completes frames until the engine's index is met or no frame
is left. -/
theorem Sending.advance (fuel : ℕ) : ∀ {tx : TxHalf} {done : ℕ}, Sending c tx done log →
    log.length - done < fuel →
    ∃ k answer tx', tx.advance fuel c = some (answer, tx') ∧ done + k ≤ log.length ∧
      Sending c tx' (done + k) log ∧
      tx'.ready = (found log done k).foldl enqueue tx.ready ∧
      (∀ j < k, (done + j) % v5Q0TxBdCnt ≠ c.consumerIndex .tdma) ∧
      ((done + k) % v5Q0TxBdCnt = c.consumerIndex .tdma ∧ answer = .ok () ∨
        (done + k) % v5Q0TxBdCnt ≠ c.consumerIndex .tdma ∧ done + k = log.length ∧
          (v5Q0TxBdCnt ≤ log.length → answer = .ok ())) := by
  induction fuel with
  | zero =>
    intro tx done _ hfuel
    omega
  | succ fuel ih =>
    intro tx done h hfuel
    have hretired := h.retired
    unfold TxHalf.advance
    by_cases hstop : done % v5Q0TxBdCnt = c.consumerIndex .tdma
    · rw [h.consumer, if_pos hstop]
      exact ⟨0, _, tx, rfl, hretired, h, rfl, fun j hj => absurd hj (Nat.not_lt_zero j),
        .inl ⟨hstop, rfl⟩⟩
    rw [h.consumer, if_neg hstop]
    by_cases hlast : done = log.length
    · have hempty : done = (log.map Frame.descriptor).length := by rwa [List.length_map]
      simp only [Controller.descriptorStatus]
      by_cases hfull : v5Q0TxBdCnt ≤ log.length
      · -- every word of the ring was written, so the word here still decodes
        obtain ⟨status, hdecode, hown⟩ := h.decodes hfull
        rw [BoundedRingState.complete_empty h.tracks hdecode hown hempty]
        exact ⟨0, _, tx, rfl, hretired, h, rfl, fun j hj => absurd hj (Nat.not_lt_zero j),
          .inr ⟨hstop, hlast, fun _ => rfl⟩⟩
      obtain ⟨e, hrefused⟩ := BoundedRingState.complete_refuses h.tracks hempty
        (c.txStatus (done % v5Q0TxBdCnt))
      rw [hrefused]
      cases e <;> exact ⟨0, _, tx, rfl, hretired, h, rfl,
        fun j hj => absurd hj (Nat.not_lt_zero j),
        .inr ⟨hstop, hlast, fun hle => absurd hle hfull⟩⟩
    · obtain ⟨f, hf⟩ : ∃ f, log[done]? = some f := ⟨_, List.getElem?_eq_getElem (by omega)⟩
      obtain ⟨ring, d, hcomplete, hlength, htoken, hnext⟩ := h.complete hf
      simp only [Controller.descriptorStatus, hcomplete, htoken]
      obtain ⟨k, answer, tx', hrun, hk, hsending, hready, hskip, hend⟩ :=
        ih (hnext _) (by omega)
      refine ⟨k + 1, answer, tx', hrun, by omega, by rwa [Nat.add_right_comm] at hsending,
        ?_, ?_, ?_⟩
      · rw [hready, found, found, List.range'_succ,
          List.filterMap_cons_some (b := completionOf done f) (by rw [hf]; rfl), List.foldl_cons,
          hlength]
        rfl
      · intro j hj
        cases j with
        | zero => exact hstop
        | succ j =>
          have hj' := hskip j (by omega)
          rwa [Nat.add_right_comm] at hj'
      · rwa [Nat.add_right_comm] at hend

theorem advance_mono {fuel : ℕ} : ∀ {tx : TxHalf} {result : Except Error Unit × TxHalf},
    tx.advance fuel c = some result → ∀ more, tx.advance (fuel + more) c = some result := by
  induction fuel with
  | zero =>
    intro tx result h
    contradiction
  | succ fuel ih =>
    intro tx result h more
    rw [Nat.add_right_comm]
    unfold TxHalf.advance at h ⊢
    split
    · rename_i hstop
      rw [if_pos hstop] at h
      exact h
    rename_i hstop
    rw [if_neg hstop] at h
    split at h
    · split at h
      · exact ih h more
      · exact ih h more
    · exact h
    · exact h

end Halves

structure RxKept (net net' : GenetNet) : Prop where
  half : net'.rx = net.rx
  dma : net'.controller.dma = net.controller.dma
  status : net'.controller.rxStatus = net.controller.rxStatus
  cons : net'.controller.rxCons = net.controller.rxCons
  prod : net'.controller.rxProd = net.controller.rxProd
  dataplane : net'.dataplane = net.dataplane

structure TxKept (net net' : GenetNet) : Prop where
  half : net'.tx = net.tx
  dma : net'.controller.dma = net.controller.dma
  status : net'.controller.txStatus = net.controller.txStatus
  address : net'.controller.txAddress = net.controller.txAddress
  cons : net'.controller.txCons = net.controller.txCons ∨
    net.dataplane = .fresh ∧ net'.controller.txCons = 0
  fresh : net'.dataplane = .fresh → net.dataplane = .fresh

namespace TxKept

variable {net net1 net2 : GenetNet}

theorem refl (net : GenetNet) : TxKept net net := ⟨rfl, rfl, rfl, rfl, .inl rfl, id⟩

theorem trans (h1 : TxKept net net1) (h2 : TxKept net1 net2) : TxKept net net2 where
  half := h2.half.trans h1.half
  dma := h2.dma.trans h1.dma
  status := h2.status.trans h1.status
  address := h2.address.trans h1.address
  cons := by
    rcases h2.cons with h | ⟨hfresh, hzero⟩
    · rcases h1.cons with h' | ⟨hfresh, hzero⟩
      · exact .inl (h.trans h')
      · exact .inr ⟨hfresh, h.trans hzero⟩
    · exact .inr ⟨h1.fresh hfresh, hzero⟩
  fresh := fun h => h1.fresh (h2.fresh h)

theorem of_rx (net : GenetNet) (rx : RxHalf) : TxKept net { net with rx } :=
  ⟨rfl, rfl, rfl, rfl, .inl rfl, id⟩

theorem ensureDataplaneProgrammed (net : GenetNet) :
    TxKept net net.ensureDataplaneProgrammed.2 := by
  unfold GenetNet.ensureDataplaneProgrammed
  cases hstate : net.dataplane with
  | programmed | enabled | linkUp => exact refl net
  | fresh =>
    simp only
    cases net.controller.answers.acquireLink with
    | error e => exact refl net
    | ok u =>
      cases net.controller.answers.programServiceRings with
      | error e => exact ⟨rfl, rfl, rfl, rfl, .inl rfl, nofun⟩
      | ok u => exact ⟨rfl, rfl, rfl, rfl, .inr ⟨hstate, rfl⟩, nofun⟩

theorem enableDataplane (net : GenetNet) : TxKept net net.enableDataplane.2 := by
  unfold GenetNet.enableDataplane
  cases net.dataplane with
  | enabled | fresh | linkUp => exact refl net
  | programmed =>
    simp only
    cases net.controller.answers.enable with
    | error e => exact refl net
    | ok u =>
      cases net.controller.answers.classifyLink with
      | error e | ok u => exact ⟨rfl, rfl, rfl, rfl, .inl rfl, nofun⟩

theorem postRxSlot (net : GenetNet) (token : PacketToken) (buffer : Buffer) :
    TxKept net (net.postRxSlot token buffer).2 := by
  unfold GenetNet.postRxSlot
  cases net.translate buffer.pa rxBufLength with
  | error e => exact refl net
  | ok address =>
    simp only
    cases net.rx.ring.post ⟨address, rxBufLength, 0⟩ with
    | mk answer ring =>
      cases answer with
      | error e => exact of_rx net _
      | ok index =>
        simp only [Controller.writeDescriptor]
        cases Descriptor.validateServiceWindows ⟨address, rxBufLength, 0⟩ net.controller.dma with
        | error e => exact of_rx net _
        | ok u => exact ⟨rfl, rfl, rfl, rfl, .inl rfl, id⟩

theorem returnRx (net : GenetNet) (token : PacketToken) (buffer : Buffer) :
    TxKept net (net.returnRx token buffer).2 := by
  unfold GenetNet.returnRx
  have hensure := ensureDataplaneProgrammed net
  cases hp : net.ensureDataplaneProgrammed with
  | mk answer net1 =>
    rw [hp] at hensure
    cases answer with
    | error e => exact hensure
    | ok u =>
      simp only
      have hpost := postRxSlot net1 token buffer
      cases hp : net1.postRxSlot token buffer with
      | mk answer net2 =>
        rw [hp] at hpost
        cases answer with
        | error e => exact hensure.trans hpost
        | ok u =>
          simp only
          have henable := enableDataplane net2
          cases hp : net2.enableDataplane with
          | mk answer net3 =>
            rw [hp] at henable
            have hall := hensure.trans (hpost.trans henable)
            cases answer with
            | error e => exact hall
            | ok u => exact hall.trans ⟨rfl, rfl, rfl, rfl, .inl rfl, id⟩

theorem advanceRx (rxCons fuel : ℕ) : ∀ {net net' : GenetNet} {answer : Except Error Unit},
    GenetNet.advanceRx rxCons fuel net = some (answer, net') → TxKept net net' := by
  induction fuel with
  | zero =>
    intro net net' answer h
    contradiction
  | succ fuel ih =>
    intro net net' answer h
    unfold GenetNet.advanceRx at h
    split at h
    · cases h
      exact refl net
    split at h
    · split at h
      · exact (of_rx net _).trans (ih h)
      simp only at h
      split at h
      · exact (of_rx net _).trans (ih h)
      · exact ((of_rx net _).trans (returnRx _ _ _)).trans (ih h)
    · cases h
      exact of_rx net _
    · cases h
      exact of_rx net _

end TxKept

end HarborKernel.Genet
