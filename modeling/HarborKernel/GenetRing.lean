import HarborKernel.CyclicTable
import Mathlib.Tactic.Common

/-!
Descriptors of the GENET controller and the bounded rings they are posted to
(`kernel-core/src/genet.rs`). The cursors of a ring wrap at its hardware length, while at most
`N` descriptors are outstanding and are kept at their index modulo `N`. Numbering the
descriptors since the ring was made relates both to the count of those posted and retired.
-/

namespace HarborKernel.Genet

open Function CyclicTable

def registerBytes : ℕ := 0x10000
def descriptorBytes : ℕ := 12
def totalDescriptors : ℕ := 256
def v5TxQueues : ℕ := 4
def v5TxBdsPerQ : ℕ := 32
def v5Q0TxBdCnt : ℕ := totalDescriptors - v5TxQueues * v5TxBdsPerQ
def v5Q0RxBdCnt : ℕ := totalDescriptors
def tsbBytes : ℕ := 64
def maxFrameBytes : ℕ := 1536
def rxBufLength : ℕ := 2048
def dmaLengthMask : ℕ := 0x0fff
def dmaLengthShift : ℕ := 16
def dmaOwn : ℕ := 0x8000
def dmaEop : ℕ := 0x4000
def dmaSop : ℕ := 0x2000
def dmaWrap : ℕ := 0x1000
def dmaTxAppendCrc : ℕ := 0x0040
def dmaTxQtagShift : ℕ := 7
def dmaTxQtagMask : ℕ := 0x3f
def tdma : ℕ := 0x4000
def rdma : ℕ := 0x2000

structure DmaWindow where
  base : ℕ
  cpuBase : ℕ
  len : ℕ
  nonempty : 0 < len
  fits : base + len < 2 ^ 64
  cpuFits : cpuBase + len < 2 ^ 64

namespace DmaWindow

def mapCpu (w : DmaWindow) (cpu len : ℕ) : Option ℕ :=
  if cpu + len < 2 ^ 64 ∧ w.cpuBase ≤ cpu ∧ cpu + len ≤ w.cpuBase + w.len then
    some (w.base + (cpu - w.cpuBase))
  else none

def contains (w : DmaWindow) (address len : ℕ) : Bool :=
  decide (address + len < 2 ^ 64 ∧ w.base ≤ address ∧ address + len ≤ w.base + w.len)

end DmaWindow

/-- The apertures of a binding, of which there are one to four. -/
structure DmaWindows where
  windows : List DmaWindow
  some_window : windows ≠ []
  count : windows.length ≤ 4

namespace DmaWindows

def contains (ws : DmaWindows) (address len : ℕ) : Bool :=
  ws.windows.any fun w => w.contains address len

def mapCpu (ws : DmaWindows) (cpu len : ℕ) : Option ℕ :=
  ws.windows.findSome? fun w => w.mapCpu cpu len

/-- A translated buffer lies in an aperture, and so does every beginning of it. -/
theorem contains_of_mapCpu {ws : DmaWindows} {cpu len address n : ℕ}
    (h : ws.mapCpu cpu len = some address) (hn : n ≤ len) :
    address + n < 2 ^ 64 ∧ ws.contains address n = true := by
  obtain ⟨w, hw, hmap⟩ := List.exists_of_findSome?_eq_some h
  unfold DmaWindow.mapCpu at hmap
  split at hmap
  · rename_i hin
    have hfits := w.fits
    obtain rfl := Option.some.inj hmap
    refine ⟨by omega, List.any_eq_true.2 ⟨w, hw, ?_⟩⟩
    unfold DmaWindow.contains
    exact decide_eq_true (by omega)
  · contradiction

end DmaWindows

structure Descriptor where
  address : ℕ
  length : ℕ
  status : ℕ
deriving DecidableEq

inductive DescriptorError
  | addressOutsideDma
  | addressOverflow
  | empty
  | tooLarge
  | wrongOwnership
deriving DecidableEq

inductive Ownership
  | driver
  | device
deriving DecidableEq

structure DescriptorStatus where
  length : ℕ
  ownership : Ownership
  start : Bool
  stop : Bool
  wrap : Bool
deriving DecidableEq

namespace DescriptorStatus

def decode (word : ℕ) : Except DescriptorError DescriptorStatus :=
  let length := (word >>> dmaLengthShift) &&& dmaLengthMask
  if length = 0 then .error .empty
  else if maxFrameBytes < length then .error .tooLarge
  else .ok {
    length
    ownership := if word &&& dmaOwn ≠ 0 then .device else .driver
    start := word &&& dmaSop != 0
    stop := word &&& dmaEop != 0
    wrap := word &&& dmaWrap != 0 }

def encode (st : DescriptorStatus) : Except DescriptorError ℕ :=
  if st.length = 0 then .error .empty
  else if maxFrameBytes < st.length then .error .tooLarge
  else
    let word := st.length <<< dmaLengthShift
    let word := if st.ownership = .device then word ||| dmaOwn else word
    let word := if st.start then word ||| dmaSop else word
    let word := if st.stop then word ||| dmaEop else word
    .ok (if st.wrap then word ||| dmaWrap else word)

end DescriptorStatus

structure DescriptorWords where
  lengthStatus : ℕ
  addressLow : ℕ
  addressHigh : ℕ
deriving DecidableEq

namespace Descriptor

def validateUpTo (limit : ℕ) (d : Descriptor) (dma : DmaWindows) : Except DescriptorError Unit :=
  if d.length = 0 then .error .empty
  else if limit < d.length then .error .tooLarge
  else if 2 ^ 64 ≤ d.address + d.length then .error .addressOverflow
  else if !dma.contains d.address d.length then .error .addressOutsideDma
  else .ok ()

def validateWindows : Descriptor → DmaWindows → Except DescriptorError Unit :=
  validateUpTo maxFrameBytes

def validateServiceWindows : Descriptor → DmaWindows → Except DescriptorError Unit :=
  validateUpTo rxBufLength

def encodeWords (d : Descriptor) (ownership : Ownership) (start stop wrap : Bool) :
    Except DescriptorError DescriptorWords :=
  match DescriptorStatus.encode ⟨d.length % 2 ^ 16, ownership, start, stop, wrap⟩ with
  | .error e => .error e
  | .ok status => .ok ⟨status, d.address % 2 ^ 32, d.address >>> 32⟩

def serviceWords (d : Descriptor) (ownership : Ownership) (start stop wrap : Bool) :
    Except DescriptorError DescriptorWords :=
  if d.length = 0 then .error .empty
  else if rxBufLength < d.length then .error .tooLarge
  else if 2 ^ 64 ≤ d.address + d.length then .error .addressOverflow
  else d.encodeWords ownership start stop wrap

end Descriptor

def txDescStatus (word : ℕ) : ℕ :=
  (word ||| dmaTxAppendCrc) ||| (dmaTxQtagMask <<< dmaTxQtagShift)

inductive RingError
  | full
  | noCompletion
  | invalidStatus (e : DescriptorError)
  | invalidDescriptor (e : DescriptorError)
deriving DecidableEq

structure RingLayout where
  base : ℕ
  count : ℕ
deriving DecidableEq

def RingLayout.new (base count : ℕ) : Option RingLayout :=
  if (base ≠ rdma ∧ base ≠ tdma) ∨ count = 0 ∨ totalDescriptors < count ∨ base % 4 ≠ 0 then none
  else if registerBytes < base + count * descriptorBytes then none
  else some ⟨base, count⟩

structure BoundedRingState (N : ℕ) where
  layout : RingLayout
  dma : DmaWindows
  producer : ℕ
  consumer : ℕ
  ownership : ℕ → Ownership
  descriptors : ℕ → Option Descriptor

namespace BoundedRingState

variable {N : ℕ}

def new (layout : RingLayout) (dma : DmaWindows) : BoundedRingState N :=
  ⟨layout, dma, 0, 0, fun _ => .driver, fun _ => none⟩

def next (r : BoundedRingState N) (index : ℕ) : ℕ :=
  if index + 1 = r.layout.count then 0 else index + 1

def slot (_ : BoundedRingState N) (index : ℕ) : ℕ := index % N

def validateDescriptor (r : BoundedRingState N) (d : Descriptor) : Except RingError Unit :=
  let result :=
    if N < totalDescriptors then d.validateServiceWindows r.dma else d.validateWindows r.dma
  match result with
  | .error e => .error (.invalidDescriptor e)
  | .ok () => .ok ()

def post (r : BoundedRingState N) (d : Descriptor) : Except RingError ℕ × BoundedRingState N :=
  match r.validateDescriptor d with
  | .error e => (.error e, r)
  | .ok () =>
    let index := r.producer
    if r.ownership (r.slot index) ≠ .driver then (.error .full, r)
    else (.ok index, { r with
      descriptors := update r.descriptors (r.slot index) (some d)
      ownership := update r.ownership (r.slot index) .device
      producer := r.next index })

def complete (r : BoundedRingState N) (word : ℕ) :
    Except RingError (ℕ × Descriptor) × BoundedRingState N :=
  match DescriptorStatus.decode word with
  | .error e => (.error (.invalidStatus e), r)
  | .ok status =>
    if status.ownership ≠ .driver then (.error (.invalidStatus .wrongOwnership), r)
    else
      let index := r.consumer
      if r.ownership (r.slot index) ≠ .device then (.error .noCompletion, r)
      else
        match r.descriptors (r.slot index) with
        | none => (.error .noCompletion, r)
        | some posted =>
          match status.encode with
          | .error e => (.error (.invalidStatus e), r)
          | .ok word' =>
            let d : Descriptor := { posted with length := status.length, status := word' }
            match r.validateDescriptor d with
            | .error e => (.error e, r)
            | .ok () => (.ok (index, d), { r with
                ownership := update r.ownership (r.slot index) .driver
                consumer := r.next index })

end BoundedRingState

section Words

def lengthField (word : ℕ) : ℕ := (word >>> dmaLengthShift) &&& dmaLengthMask

variable {len word : ℕ} {status : DescriptorStatus} {d : Descriptor}

theorem lengthField_or {flags : ℕ} (hlen : len < 2 ^ 12) (hflags : flags < 2 ^ 16) :
    lengthField (len <<< dmaLengthShift ||| flags) = len := by
  have hshift : (len <<< dmaLengthShift ||| flags) >>> dmaLengthShift = len := by
    rw [dmaLengthShift, ← Nat.shiftLeft_add_eq_or_of_lt hflags, Nat.shiftLeft_eq,
      Nat.shiftRight_eq_div_pow]
    omega
  rw [lengthField, hshift, dmaLengthMask, show 0x0fff = 2 ^ 12 - 1 by rfl,
    Nat.and_two_pow_sub_one_eq_mod, Nat.mod_eq_of_lt hlen]

theorem or_and_low (len flags : ℕ) {bit : ℕ} (hbit : bit < 16) :
    (len <<< dmaLengthShift ||| flags) &&& 2 ^ bit = flags &&& 2 ^ bit := by
  refine Nat.eq_of_testBit_eq fun i => ?_
  rw [Nat.testBit_and, Nat.testBit_and, Nat.testBit_or, dmaLengthShift, Nat.testBit_shiftLeft,
    Nat.testBit_two_pow]
  by_cases hi : bit = i
  · subst hi
    have hlow : decide (16 ≤ bit) = false := decide_eq_false (by omega)
    rw [hlow, Bool.false_and, Bool.false_or]
  · rw [decide_eq_false hi, Bool.and_false, Bool.and_false]

theorem decode_eq_ok (h : DescriptorStatus.decode word = .ok status) :
    status.length = lengthField word ∧ 0 < status.length ∧ status.length ≤ maxFrameBytes ∧
      (status.ownership = .driver ↔ word &&& dmaOwn = 0) := by
  unfold lengthField
  unfold DescriptorStatus.decode at h
  by_cases hzero : (word >>> dmaLengthShift) &&& dmaLengthMask = 0
  · rw [if_pos hzero] at h
    contradiction
  by_cases hlong : maxFrameBytes < (word >>> dmaLengthShift) &&& dmaLengthMask
  · rw [if_neg hzero, if_pos hlong] at h
    contradiction
  rw [if_neg hzero, if_neg hlong] at h
  obtain rfl := Except.ok.inj h
  refine ⟨rfl, Nat.pos_of_ne_zero hzero, Nat.le_of_not_lt hlong, ?_⟩
  by_cases hown : word &&& dmaOwn = 0 <;> simp [hown]

theorem decode_of_length (hpos : 0 < lengthField word) (hmax : lengthField word ≤ maxFrameBytes)
    (hown : word &&& dmaOwn = 0) :
    ∃ status, DescriptorStatus.decode word = .ok status ∧ status.length = lengthField word ∧
      status.ownership = .driver := by
  unfold lengthField at *
  unfold DescriptorStatus.decode
  rw [if_neg (by omega), if_neg (by omega)]
  refine ⟨_, rfl, rfl, ?_⟩
  rw [hown]
  rfl

theorem encode_isOk (hpos : 0 < status.length) (hmax : status.length ≤ maxFrameBytes) :
    ∃ word, status.encode = .ok word := by
  unfold DescriptorStatus.encode
  rw [if_neg (by omega), if_neg (by omega)]
  exact ⟨_, rfl⟩

def txWord (len : ℕ) : ℕ := len <<< dmaLengthShift ||| 0x7fc0

theorem lengthField_txWord (h : len ≤ maxFrameBytes) : lengthField (txWord len) = len :=
  lengthField_or (by simp only [maxFrameBytes] at h; omega) (by decide)

theorem txWord_own (len : ℕ) : txWord len &&& dmaOwn = 0 :=
  or_and_low len 0x7fc0 (show 15 < 16 by decide)

theorem serviceWords_tx (hpos : 0 < d.length) (hmax : d.length ≤ maxFrameBytes)
    (hfits : d.address + d.length < 2 ^ 64) :
    ∃ words, d.serviceWords .driver true true false = .ok words ∧
      txDescStatus words.lengthStatus = txWord d.length := by
  have hmax' := hmax
  simp only [maxFrameBytes] at hmax'
  have hlen : d.length % 2 ^ 16 = d.length := Nat.mod_eq_of_lt (by omega)
  unfold Descriptor.serviceWords Descriptor.encodeWords DescriptorStatus.encode
  rw [if_neg (by omega), if_neg (by simp only [rxBufLength]; omega), if_neg (by omega), hlen]
  simp only
  rw [if_neg (by omega), if_neg (by omega)]
  refine ⟨_, rfl, ?_⟩
  simp only [txDescStatus, txWord, reduceCtorEq, if_false, if_true, Bool.false_eq_true,
    Nat.or_assoc]
  rfl

/-- A length above the frame limit has no words. -/
theorem serviceWords_long (hmin : maxFrameBytes < d.length) (hmax : d.length ≤ rxBufLength)
    (hfits : d.address + d.length < 2 ^ 64) :
    d.serviceWords .driver true true false = .error .tooLarge := by
  have hmax' := hmax
  simp only [rxBufLength] at hmax'
  have hlen : d.length % 2 ^ 16 = d.length := Nat.mod_eq_of_lt (by omega)
  unfold Descriptor.serviceWords Descriptor.encodeWords DescriptorStatus.encode
  rw [if_neg (by omega), if_neg (by omega), if_neg (by omega), hlen]
  simp only
  rw [if_neg (by omega), if_pos hmin]

theorem validateServiceWindows_ok {dma : DmaWindows} (hpos : 0 < d.length)
    (hmax : d.length ≤ rxBufLength) (hfits : d.address + d.length < 2 ^ 64)
    (hin : dma.contains d.address d.length = true) : d.validateServiceWindows dma = .ok () := by
  unfold Descriptor.validateServiceWindows Descriptor.validateUpTo
  rw [if_neg (by omega), if_neg (by omega), if_neg (by omega), hin]
  rfl

end Words

namespace BoundedRingState

variable {N : ℕ} {r : BoundedRingState N} {c : ℕ} {log : List Descriptor}

def held (r : BoundedRingState N) (k : ℕ) : Option Descriptor :=
  if r.ownership k = .device then r.descriptors k else none

structure Tracks (r : BoundedRingState N) (c : ℕ) (log : List Descriptor) : Prop where
  slots : 0 < N
  whole : N ∣ r.layout.count
  producer : r.producer = log.length % r.layout.count
  consumer : r.consumer = c % r.layout.count
  retired : c ≤ log.length
  room : log.length ≤ c + N
  kept : Kept N c r.held log
  filled : ∀ k, r.ownership k = .device → (r.descriptors k).isSome

theorem Tracks.new (layout : RingLayout) (dma : DmaWindows) (hN : 0 < N) (h : N ∣ layout.count) :
    (new layout dma : BoundedRingState N).Tracks 0 [] where
  slots := hN
  whole := h
  producer := (Nat.zero_mod _).symm
  consumer := (Nat.zero_mod _).symm
  retired := Nat.le_refl _
  room := Nat.zero_le _
  kept := Kept.empty N
  filled := fun _ h => nomatch h

theorem next_mod (r : BoundedRingState N) (hcount : 0 < r.layout.count) (i : ℕ) :
    r.next (i % r.layout.count) = (i + 1) % r.layout.count := by
  have hlt := Nat.mod_lt i hcount
  rw [next, ← Nat.mod_add_mod]
  split
  · rename_i hlast
    rw [hlast, Nat.mod_self]
  · exact (Nat.mod_eq_of_lt (by omega)).symm

theorem slot_mod (r : BoundedRingState N) (h : N ∣ r.layout.count) (i : ℕ) :
    r.slot (i % r.layout.count) = i % N :=
  Nat.mod_mod_of_dvd i h

variable {d : Descriptor} {word : ℕ} {status : DescriptorStatus}

theorem post_invalid {e : RingError} (h : r.validateDescriptor d = .error e) :
    r.post d = (.error e, r) := by
  unfold post
  rw [h]

section

variable (h : r.Tracks c log)
include h

theorem post_full (hvalid : r.validateDescriptor d = .ok ())
    (hfull : log.length = c + N) : r.post d = (.error .full, r) := by
  have hslot : r.slot r.producer = log.length % N := by rw [h.producer, slot_mod r h.whole]
  have hN := h.slots
  have hheld := h.kept.next_full hN hfull
  obtain ⟨d', hd'⟩ : ∃ d', log[c]? = some d' := ⟨log[c], List.getElem?_eq_getElem (by omega)⟩
  have hown : r.ownership (log.length % N) = .device := by
    by_contra hne
    rw [held, if_neg hne, hd'] at hheld
    contradiction
  unfold post
  rw [hvalid]
  simp only [hslot, hown]
  rfl

theorem post_room (hvalid : r.validateDescriptor d = .ok ())
    (hcount : 0 < r.layout.count) (hroom : log.length < c + N) :
    ∃ r', r.post d = (.ok (log.length % r.layout.count), r') ∧ r'.Tracks c (log ++ [d]) ∧
      r'.layout = r.layout ∧ r'.dma = r.dma := by
  have hslot : r.slot r.producer = log.length % N := by rw [h.producer, slot_mod r h.whole]
  have hheld := h.kept.next h.retired hroom
  have hown : r.ownership (log.length % N) = .driver := by
    cases hk : r.ownership (log.length % N) with
    | driver => rfl
    | device =>
      have hsome := h.filled _ hk
      rw [held, if_pos hk] at hheld
      rw [hheld] at hsome
      contradiction
  unfold post
  rw [hvalid]
  simp only [hslot, hown, ne_eq, not_true_eq_false, if_false]
  refine ⟨_, congrArg (fun i => (Except.ok i, _)) h.producer, ?_, rfl, rfl⟩
  refine ⟨h.slots, h.whole, ?_, h.consumer, ?_, ?_, ?_, ?_⟩
  · rw [List.length_append, List.length_singleton]
    show r.next r.producer = _
    rw [h.producer, next_mod r hcount]
  · rw [List.length_append]
    have := h.retired
    omega
  · rw [List.length_append, List.length_singleton]
    omega
  · have hadd := h.kept.add h.retired hroom d
    intro i hi hi'
    rw [← hadd i hi hi']
    simp only [held]
    by_cases hk : i % N = log.length % N
    · rw [hk, update_self, update_self, update_self, if_pos rfl]
    · rw [update_of_ne hk, update_of_ne hk, update_of_ne hk]
      rfl
  · intro k hk
    simp only at hk
    by_cases heq : k = log.length % N
    · subst heq
      show (update r.descriptors _ _ _).isSome
      rw [update_self]
      rfl
    show (update r.descriptors _ _ _).isSome
    rw [update_of_ne heq]
    refine h.filled k ?_
    rwa [update_of_ne heq] at hk

theorem complete_empty (hdecode : DescriptorStatus.decode word = .ok status)
    (hown : status.ownership = .driver) (hempty : c = log.length) :
    r.complete word = (.error .noCompletion, r) := by
  have hslot : r.slot r.consumer = c % N := by rw [h.consumer, slot_mod r h.whole]
  have hheld := h.kept.oldest h.slots
  rw [List.getElem?_eq_none (by omega)] at hheld
  have hdriver : r.ownership (c % N) ≠ .device := by
    intro hk
    have hsome := h.filled _ hk
    rw [held, if_pos hk] at hheld
    rw [hheld] at hsome
    contradiction
  unfold complete
  rw [hdecode]
  simp only [hown, hslot, ne_eq, not_true_eq_false, if_false]
  rw [if_pos hdriver]

/-- Without an outstanding descriptor nothing is retired, whatever the status word. -/
theorem complete_refuses (hempty : c = log.length) (word : ℕ) :
    ∃ e, r.complete word = (.error e, r) := by
  cases hdecode : DescriptorStatus.decode word with
  | error e =>
    unfold complete
    rw [hdecode]
    exact ⟨_, rfl⟩
  | ok status =>
    by_cases hown : status.ownership = .driver
    · exact ⟨_, complete_empty h hdecode hown hempty⟩
    unfold complete
    rw [hdecode]
    simp only
    rw [if_pos hown]
    exact ⟨_, rfl⟩

theorem Tracks.oldest (hd : log[c]? = some d) :
    r.ownership (c % N) = .device ∧ r.descriptors (c % N) = some d := by
  have hheld := h.kept.oldest h.slots
  rw [hd] at hheld
  have hdevice : r.ownership (c % N) = .device := by
    by_contra hne
    rw [held, if_neg hne] at hheld
    contradiction
  rw [held, if_pos hdevice] at hheld
  exact ⟨hdevice, hheld⟩

/-- A length with which the oldest descriptor leaves the windows is refused. -/
theorem complete_invalid {e : RingError}
    (hdecode : DescriptorStatus.decode word = .ok status) (hown : status.ownership = .driver)
    (hd : log[c]? = some d)
    (hvalid : ∀ st, r.validateDescriptor ⟨d.address, status.length, st⟩ = .error e) :
    r.complete word = (.error e, r) := by
  have hslot : r.slot r.consumer = c % N := by rw [h.consumer, slot_mod r h.whole]
  obtain ⟨hdevice, hheld⟩ := h.oldest hd
  obtain ⟨-, hpos, hmax, -⟩ := decode_eq_ok hdecode
  obtain ⟨word', hencode⟩ := encode_isOk hpos hmax
  unfold complete
  rw [hdecode]
  simp only [hown, hslot, hdevice, hheld, hencode, hvalid, ne_eq, not_true_eq_false, if_false]

theorem complete_oldest (hcount : 0 < r.layout.count)
    (hdecode : DescriptorStatus.decode word = .ok status) (hown : status.ownership = .driver)
    (hd : log[c]? = some d)
    (hvalid : ∀ st, r.validateDescriptor ⟨d.address, status.length, st⟩ = .ok ()) :
    ∃ r' d', r.complete word = (.ok (c % r.layout.count, d'), r') ∧ d'.length = status.length ∧
      r'.Tracks (c + 1) log ∧ r'.layout = r.layout ∧ r'.dma = r.dma ∧
      r'.producer = r.producer ∧ d'.address = d.address := by
  have hslot : r.slot r.consumer = c % N := by rw [h.consumer, slot_mod r h.whole]
  have hlt : c < log.length := (List.getElem?_eq_some_iff.1 hd).1
  obtain ⟨hdevice, hheld⟩ := h.oldest hd
  obtain ⟨-, hpos, hmax, -⟩ := decode_eq_ok hdecode
  obtain ⟨word', hencode⟩ := encode_isOk hpos hmax
  unfold complete
  rw [hdecode]
  simp only [hown, hslot, hdevice, hheld, hencode, hvalid, ne_eq, not_true_eq_false, if_false]
  refine ⟨_, _, congrArg (fun i => (Except.ok (i, _), _)) h.consumer, rfl, ?_, rfl, rfl, rfl, rfl⟩
  refine ⟨h.slots, h.whole, h.producer, ?_, hlt, ?_, ?_, ?_⟩
  · show r.next r.consumer = _
    rw [h.consumer, next_mod r hcount]
  · have := h.room
    omega
  · have htake := h.kept.take h.slots h.room
    intro i hi hi'
    rw [← htake i hi hi']
    simp only [held]
    by_cases hk : i % N = c % N
    · rw [hk, update_self, update_self, if_neg (by decide)]
    · rw [update_of_ne hk, update_of_ne hk]
      rfl
  · intro k hk
    simp only at hk
    refine h.filled k ?_
    by_cases heq : k = c % N
    · subst heq
      exact hdevice
    · rwa [update_of_ne heq] at hk

end

end BoundedRingState

end HarborKernel.Genet
