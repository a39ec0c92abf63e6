import HarborKernel.GenetRing
import HarborKernel.Transition

/-!
A bounded ring as a queue. A run keeps what was posted and what was completed, each with the index
it was given; the ring holds what lies between, so a completion answers the oldest posting that has
not been answered.
-/

namespace HarborKernel.Genet

open Transition

inductive RingOp
  | post (d : Descriptor)
  | complete (word : ℕ)
deriving DecidableEq

/-- A ring with the successful calls made on it: postings with their index, completions with their
index, descriptor and status word. -/
structure RingRun (N : ℕ) where
  ring : BoundedRingState N
  posted : List (ℕ × Descriptor)
  completed : List (ℕ × Descriptor × ℕ)

namespace RingRun

variable {N : ℕ}

def step (s : RingRun N) : RingOp → Option (RingRun N)
  | .post d =>
    match s.ring.post d with
    | (.error _, ring) => some { s with ring }
    | (.ok index, ring) => some { s with ring, posted := s.posted ++ [(index, d)] }
  | .complete word =>
    match s.ring.complete word with
    | (.error _, ring) => some { s with ring }
    | (.ok (index, d), ring) =>
      some { s with ring, completed := s.completed ++ [(index, d, word)] }

def start (layout : RingLayout) (dma : DmaWindows) : RingRun N := ⟨.new layout dma, [], []⟩

def Reachable (layout : RingLayout) (dma : DmaWindows) : RingRun N → Prop :=
  Reach (· = start layout dma) step fun _ _ => True

def outstanding (s : RingRun N) : ℕ := s.posted.length - s.completed.length

/-- A completion answers a posting: the same index and address, and the length of the word. -/
def Answers (posting : ℕ × Descriptor) (completion : ℕ × Descriptor × ℕ) : Prop :=
  completion.1 = posting.1 ∧ completion.2.1.address = posting.2.address ∧
    completion.2.1.length = lengthField completion.2.2

structure Queued (layout : RingLayout) (s : RingRun N) : Prop where
  layout_eq : s.ring.layout = layout
  tracks : s.ring.Tracks s.completed.length (s.posted.map Prod.snd)
  indices : ∀ (k : ℕ) p, s.posted[k]? = some p → p.1 = k % layout.count
  answered : ∀ (k : ℕ) a, s.completed[k]? = some a → ∃ p, s.posted[k]? = some p ∧ Answers p a

theorem Queued.start (layout : RingLayout) (dma : DmaWindows) (hN : 0 < N)
    (h : N ∣ layout.count) : Queued layout (start layout dma : RingRun N) where
  layout_eq := rfl
  tracks := .new layout dma hN h
  indices k p hp := by cases hp
  answered k a ha := by cases ha

theorem Queued.length_le {layout : RingLayout} {s : RingRun N} (h : Queued layout s) :
    s.completed.length ≤ s.posted.length := by
  have hle := h.tracks.retired
  rwa [List.length_map] at hle

end RingRun

namespace BoundedRingState

variable {N : ℕ} {r : BoundedRingState N} {c : ℕ} {log : List Descriptor}

theorem validateDescriptor_error {d : Descriptor} {e : RingError}
    (h : r.validateDescriptor d = .error e) : ∃ reason, e = .invalidDescriptor reason := by
  unfold validateDescriptor at h
  dsimp only at h
  split at h
  · cases h
    exact ⟨_, rfl⟩
  · cases h

/-- What a completion does: it is refused and nothing changes, or it retires the oldest posting. -/
theorem complete_cases (h : r.Tracks c log) (hcount : 0 < r.layout.count) (word : ℕ) :
    (∃ e, r.complete word = (.error e, r) ∧ (e = .noCompletion → c = log.length)) ∨
      ∃ d d' r', log[c]? = some d ∧ r.complete word = (.ok (c % r.layout.count, d'), r') ∧
        d'.address = d.address ∧ d'.length = lengthField word ∧ r'.Tracks (c + 1) log ∧
        r'.layout = r.layout ∧ r'.dma = r.dma := by
  by_cases hempty : c = log.length
  · obtain ⟨e, he⟩ := complete_refuses h hempty word
    exact .inl ⟨e, he, fun _ => hempty⟩
  have hretired := h.retired
  obtain ⟨d, hd⟩ : ∃ d, log[c]? = some d := ⟨_, List.getElem?_eq_getElem (by omega)⟩
  cases hdecode : DescriptorStatus.decode word with
  | error reason =>
    refine .inl ⟨.invalidStatus reason, ?_, nofun⟩
    unfold complete
    rw [hdecode]
  | ok status =>
    by_cases hown : status.ownership = .driver
    · cases hvalid : r.validateDescriptor ⟨d.address, status.length, 0⟩ with
      | error e =>
        obtain ⟨reason, rfl⟩ := validateDescriptor_error hvalid
        exact .inl ⟨_, complete_invalid h hdecode hown hd fun _ => hvalid, nofun⟩
      | ok _ =>
        obtain ⟨r', d', hcomplete, hlen, htracks, hlayout, hdma, _, haddress⟩ :=
          complete_oldest h hcount hdecode hown hd fun _ => hvalid
        exact .inr ⟨d, d', r', hd, hcomplete, haddress, hlen.trans (decode_eq_ok hdecode).1,
          htracks, hlayout, hdma⟩
    · refine .inl ⟨.invalidStatus .wrongOwnership, ?_, nofun⟩
      unfold complete
      rw [hdecode]
      simp only
      rw [if_pos hown]

theorem post_cases (h : r.Tracks c log) (hcount : 0 < r.layout.count) (d : Descriptor) :
    (∃ e, r.post d = (.error e, r) ∧ (r.validateDescriptor d = .ok () → log.length = c + N ∧
        e = .full)) ∨
      ∃ r', r.post d = (.ok (log.length % r.layout.count), r') ∧ log.length < c + N ∧
        r'.Tracks c (log ++ [d]) ∧ r'.layout = r.layout := by
  cases hvalid : r.validateDescriptor d with
  | error e => exact .inl ⟨e, post_invalid hvalid, nofun⟩
  | ok _ =>
    have hroom := h.room
    by_cases hfull : log.length = c + N
    · exact .inl ⟨.full, post_full h hvalid hfull, fun _ => ⟨hfull, rfl⟩⟩
    have hlt : log.length < c + N := by omega
    obtain ⟨r', hpost, htracks, hlayout, _⟩ := post_room h hvalid hcount hlt
    exact .inr ⟨r', hpost, hlt, htracks, hlayout⟩

end BoundedRingState

namespace RingRun

variable {N : ℕ} {layout : RingLayout} {s s' : RingRun N}

theorem Queued.post (h : Queued layout s) (hcount : 0 < layout.count) {d : Descriptor}
    (hs : s.step (.post d) = some s') : Queued layout s' := by
  have hlayout := h.layout_eq
  rcases BoundedRingState.post_cases h.tracks (hlayout ▸ hcount) d with
    ⟨e, hpost, _⟩ | ⟨ring, hpost, _, htracks, hkeep⟩
  · simp only [step, hpost, Option.some.injEq] at hs
    exact hs ▸ h
  simp only [step, hpost, Option.some.injEq] at hs
  subst hs
  rw [List.length_map, hlayout] at hpost
  refine ⟨hkeep.trans hlayout, ?_, ?_, ?_⟩
  · simpa only [List.map_append, List.map_cons, List.map_nil] using htracks
  · intro k p hp
    rcases Nat.lt_or_ge k s.posted.length with hlt | hge
    · rw [List.getElem?_append_left hlt] at hp
      exact h.indices k p hp
    have hk : k = s.posted.length := by
      have hbound := (List.getElem?_eq_some_iff.1 hp).1
      rw [List.length_append, List.length_singleton] at hbound
      omega
    rw [hk, List.getElem?_concat_length] at hp
    cases hp
    rw [List.length_map, hlayout, hk]
  · intro k a ha
    obtain ⟨p, hp, hanswers⟩ := h.answered k a ha
    have hlt := (List.getElem?_eq_some_iff.1 hp).1
    exact ⟨p, by rw [List.getElem?_append_left hlt, hp], hanswers⟩

theorem Queued.complete (h : Queued layout s) (hcount : 0 < layout.count) {word : ℕ}
    (hs : s.step (.complete word) = some s') : Queued layout s' := by
  have hlayout := h.layout_eq
  rcases BoundedRingState.complete_cases h.tracks (hlayout ▸ hcount) word with
    ⟨e, hcomplete, _⟩ | ⟨d, d', ring, hd, hcomplete, haddress, hlen, htracks, hkeep, -⟩
  · simp only [step, hcomplete, Option.some.injEq] at hs
    exact hs ▸ h
  simp only [step, hcomplete, Option.some.injEq] at hs
  subst hs
  rw [List.getElem?_map, Option.map_eq_some_iff] at hd
  obtain ⟨p, hp, rfl⟩ := hd
  refine ⟨hkeep.trans hlayout, ?_, h.indices, ?_⟩
  · rw [List.length_append, List.length_singleton]
    exact htracks
  intro k a ha
  rcases Nat.lt_or_ge k s.completed.length with hlt | hge
  · rw [List.getElem?_append_left hlt] at ha
    exact h.answered k a ha
  have hk : k = s.completed.length := by
    have hbound := (List.getElem?_eq_some_iff.1 ha).1
    rw [List.length_append, List.length_singleton] at hbound
    omega
  rw [hk, List.getElem?_concat_length] at ha
  cases ha
  refine ⟨p, hk ▸ hp, ?_, haddress, hlen⟩
  rw [h.indices _ p hp, hlayout]

theorem Reachable.queued {dma : DmaWindows} (hN : 0 < N) (hdvd : N ∣ layout.count)
    (hcount : 0 < layout.count) (hr : Reachable layout dma s) : Queued layout s := by
  refine Reach.invariant ?_ ?_ hr
  · rintro _ rfl
    exact .start layout dma hN hdvd
  intro s op s' h _ hs
  cases op with
  | post d => exact h.post hcount hs
  | complete word => exact h.complete hcount hs

/-- A bounded ring is a queue of at most `N` descriptors. -/
theorem ring_refines_fifo {N : ℕ} (hN : 1 ≤ N) (layout : RingLayout) (hcount : 0 < layout.count)
    (hdvd : N ∣ layout.count) (dma : DmaWindows) (s : RingRun N) (hr : Reachable layout dma s) :
    s.completed.length ≤ s.posted.length ∧ s.outstanding ≤ N ∧
      (∀ (k : ℕ) a, s.completed[k]? = some a → ∃ p, s.posted[k]? = some p ∧ Answers p a) ∧
      (∀ d, s.ring.validateDescriptor d = .ok () →
        ((s.ring.post d).1 = .error .full ↔ s.outstanding = N)) ∧
      (∀ word, (s.ring.complete word).1 = .error .noCompletion → s.outstanding = 0) ∧
      (∀ d e, (s.ring.post d).1 = .error e → (s.ring.post d).2 = s.ring) ∧
      (∀ word e, (s.ring.complete word).1 = .error e → (s.ring.complete word).2 = s.ring) ∧
      s.ring.producer < layout.count ∧ s.ring.consumer < layout.count := by
  have h := Reachable.queued hN hdvd hcount hr
  have hle := h.length_le
  have hroom := h.tracks.room
  rw [List.length_map] at hroom
  have hpos : 0 < s.ring.layout.count := h.layout_eq ▸ hcount
  refine ⟨hle, by unfold outstanding; omega, h.answered, ?_, ?_, ?_, ?_, ?_, ?_⟩
  · intro d hvalid
    unfold outstanding
    rcases BoundedRingState.post_cases h.tracks hpos d with
      ⟨e, hpost, hfull⟩ | ⟨ring, hpost, hlt, _⟩
    · obtain ⟨hlen, rfl⟩ := hfull hvalid
      rw [List.length_map] at hlen
      rw [hpost]
      exact ⟨fun _ => by omega, fun _ => rfl⟩
    rw [List.length_map] at hlt
    rw [hpost]
    exact ⟨nofun, fun hN => by omega⟩
  · intro word hnone
    unfold outstanding
    rcases BoundedRingState.complete_cases h.tracks hpos word with
      ⟨e, hcomplete, hempty⟩ | ⟨_, _, _, _, hcomplete, _⟩
    · rw [hcomplete] at hnone
      cases hnone
      have hlen := hempty rfl
      rw [List.length_map] at hlen
      omega
    · rw [hcomplete] at hnone
      cases hnone
  · intro d e herror
    rcases BoundedRingState.post_cases h.tracks hpos d with ⟨_, hpost, _⟩ | ⟨_, hpost, _⟩
    · rw [hpost]
    · rw [hpost] at herror
      cases herror
  · intro word e herror
    rcases BoundedRingState.complete_cases h.tracks hpos word with
      ⟨_, hcomplete, _⟩ | ⟨_, _, _, _, hcomplete, _⟩
    · rw [hcomplete]
    · rw [hcomplete] at herror
      cases herror
  · rw [h.tracks.producer, h.layout_eq]
    exact Nat.mod_lt _ hcount
  · rw [h.tracks.consumer, h.layout_eq]
    exact Nat.mod_lt _ hcount

def sampleWindows : DmaWindows :=
  ⟨[⟨0x1000, 0x1000, 0x10000, by decide, by decide, by decide⟩], by decide, by decide⟩

/-- Two slots on a ring of four: two postings and the completion of the first. -/
theorem ring_refines_fifo_two :
    ∃ s : RingRun 2, Reachable ⟨rdma, 4⟩ sampleWindows s ∧ s.outstanding = 1 ∧
      ∃ p a, s.posted[0]? = some p ∧ s.completed[0]? = some a ∧ Answers p a := by
  have hstart : Reachable ⟨rdma, 4⟩ sampleWindows (start ⟨rdma, 4⟩ sampleWindows : RingRun 2) :=
    .start rfl
  obtain ⟨s, hr, hposted, hcompleted⟩ : ∃ s : RingRun 2, Reachable ⟨rdma, 4⟩ sampleWindows s ∧
      (s.posted.length = 2 ∧ s.completed.length = 1) :=
    Reach.exists_run [.post ⟨0x1000, 64, 0⟩, .post ⟨0x2000, 64, 0⟩, .complete (60 <<< 16)] hstart
      (by decide +kernel)
  obtain ⟨_, _, hanswered, _⟩ := ring_refines_fifo (by decide) ⟨rdma, 4⟩ (by decide) (by decide)
    sampleWindows s hr
  obtain ⟨a, ha⟩ : ∃ a, s.completed[0]? = some a := ⟨_, List.getElem?_eq_getElem (by omega)⟩
  obtain ⟨p, hp, hanswers⟩ := hanswered 0 a ha
  exact ⟨s, hr, by unfold outstanding; omega, p, a, hp, ha, hanswers⟩

end RingRun

end HarborKernel.Genet
