import HarborKernel.VirtioNet

/-!
A queue together with what happened on it. Buffers are numbered in the order in which they were
made available; the device returns numbers, and what the backend reads from the used ring is
compared with them. While the device keeps the order and the caller leaves room, the queue is a
cyclic table of the buffers that were not consumed yet.
-/

namespace HarborKernel.QemuVirt

open Function Net ReadyList CyclicTable

/-- A queue and its history since the device was started. -/
structure Tracked (α : Type) where
  port : Port α
  /-- Everything posted, with the descriptor written for it. -/
  log : List (α × Descriptor)
  /-- The numbers the device returned. -/
  returned : List ℕ
  /-- How many used elements the backend has read. -/
  consumed : ℕ
  /-- What the backend made of them: the number that was returned and the identity found. -/
  matched : List (Option ℕ × α)
  /-- Tokens the service took. -/
  delivered : List PacketToken
  /-- Tokens of buffers that were posted again because they held no frame. -/
  refused : List PacketToken

namespace Tracked

variable {α : Type}

def fresh (port : Port α) : Tracked α := ⟨port, [], [], 0, [], [], []⟩

def InFlight (t : Tracked α) (i : ℕ) : Prop := i < t.log.length ∧ i ∉ t.returned

instance (t : Tracked α) (i : ℕ) : Decidable (t.InFlight i) :=
  inferInstanceAs (Decidable (_ ∧ _))

def post (t : Tracked α) (x : α) (queue pa len flags : ℕ) :
    Except QueueSetupFailure Unit × Tracked α :=
  match t.port.post x queue pa len flags with
  | (.error e, port) => (.error e, { t with port })
  | (.ok (), port) => (.ok (), { t with port, log := t.log ++ [(x, ⟨pa, len, flags⟩)] })

def giveBack (t : Tracked α) (i len : ℕ) : Option (Tracked α) :=
  if t.InFlight i then
    let rings := t.port.rings
    some { t with
      port := { t.port with rings := { rings with
        usedRing := update rings.usedRing (t.returned.length % queueSize)
          ⟨rings.availRing (i % queueSize), len⟩
        usedIdx := (t.returned.length + 1) % 2 ^ 16 } }
      returned := t.returned ++ [i] }
  else none

def consume (t : Tracked α) : Option (UsedElement × Option α × Tracked α) :=
  t.port.consume.map fun (used, found, port) => (used, found, { t with
    port
    consumed := t.consumed + 1
    matched := t.matched ++ found.toList.map fun x => (t.returned[t.consumed]?, x) })

def park (t : Tracked α) (token : PacketToken) (completion : Completion) : Tracked α :=
  { t with port := t.port.park token completion }

def take (t : Tracked α) : Tracked α :=
  { t with
    port := t.port.take.2
    delivered := t.delivered ++ t.port.take.1.toList.map Prod.fst }

def refuse (t : Tracked α) (token : PacketToken) : Tracked α :=
  { t with refused := t.refused ++ [token] }

def busy (t : Tracked α) : ℕ :=
  t.log.length - t.consumed + t.port.ready.reduceOption.length

/-- What is in flight is as it was posted and has a descriptor of its own; what was read from
the used ring was matched with what had been posted under the returned number, once each, and
reported. -/
structure Sound (key : α → PacketToken) (t : Tracked α) : Prop where
  apart : ∀ i j, t.InFlight i → t.InFlight j → i % queueSize = j % queueSize → i = j
  intact : ∀ i, t.InFlight i → ∃ x d, t.log[i]? = some (x, d) ∧
    t.port.rings.desc (i % queueSize) = d ∧ t.port.pending (i % queueSize) = some x
  matched : ∀ m ∈ t.matched, ∃ i x d, m = (some i, x) ∧ t.log[i]? = some (x, d)
  all : t.matched.map Prod.fst = (t.returned.take t.consumed).map some
  once : (t.matched.map Prod.fst).Nodup
  reported : (t.matched.map fun m => key m.2).Perm
    (t.delivered ++ t.port.ready.reduceOption.map Prod.fst ++ t.refused)

structure Flow (t : Tracked α) : Prop where
  order : t.returned = List.range t.returned.length
  consumed_le : t.consumed ≤ t.returned.length
  returned_le : t.returned.length ≤ t.log.length
  room : t.log.length ≤ t.consumed + queueSize
  avail : t.port.cursor.avail = t.log.length % 2 ^ 16
  used : t.port.cursor.used = t.consumed % 2 ^ 16
  usedIdx : t.port.rings.usedIdx = t.returned.length % 2 ^ 16
  position : t.port.position = t.log.length % 2 ^ 16
  pending : Kept queueSize t.consumed t.port.pending (t.log.map Prod.fst)
  desc : ∀ i x d, t.consumed ≤ i → t.log[i]? = some (x, d) →
    t.port.rings.desc (i % queueSize) = d
  availRing : ∀ i, t.consumed ≤ i → i < t.log.length →
    t.port.rings.availRing (i % queueSize) = i % queueSize
  usedRing : ∀ i, t.consumed ≤ i → i < t.returned.length →
    (t.port.rings.usedRing (i % queueSize)).descriptor = i % queueSize
  matched : t.matched = ((t.log.map Prod.fst).take t.consumed).zipIdx.map fun e => (some e.2, e.1)

structure Stale (t : Tracked α) : Prop where
  log : t.log = []
  returned : t.returned = []
  matched : t.matched = []
  avail : t.port.cursor.avail = 0
  usedIdx : 0 < t.port.rings.usedIdx ∧ t.port.rings.usedIdx + queueSize ≤ 2 ^ 16
  pending : ∀ i, t.port.pending i = none

structure Parked (key : α → PacketToken) (t : Tracked α) : Prop where
  places : t.port.ready.length = queueSize
  busy_le : t.busy ≤ queueSize
  reported : (t.matched.map fun m => key m.2).Perm
    (t.delivered ++ t.port.ready.reduceOption.map Prod.fst ++ t.refused)

variable {key : α → PacketToken} {t t' : Tracked α} {x : α} {queue pa len flags i : ℕ}

/-- A post is refused without an effect or takes the next descriptor. -/
theorem post_cases (t : Tracked α) (x : α) (queue pa len flags : ℕ) :
    (t.post x queue pa len flags).2 = t ∨
      ((t.port.cursor.avail + 2 ^ 16 - t.port.rings.usedIdx) % 2 ^ 16 < queueSize ∧
        (t.post x queue pa len flags).2 = { t with
          log := t.log ++ [(x, ⟨pa, len, flags⟩)]
          port := { t.port with
            rings := { t.port.rings with
              desc := update t.port.rings.desc (t.port.cursor.avail % queueSize)
                ⟨pa, len, flags⟩
              availRing := update t.port.rings.availRing
                (t.port.cursor.avail % queueSize) (t.port.cursor.avail % queueSize)
              availIdx := (t.port.cursor.avail + 1) % 2 ^ 16 }
            cursor := { t.port.cursor with avail := (t.port.cursor.avail + 1) % 2 ^ 16 }
            pending := update t.port.pending (t.port.position % queueSize) (some x)
            position := (t.port.position + 1) % 2 ^ 16 } }) := by
  unfold post Port.post Port.publish
  by_cases hvalid : validDescriptor pa len = true
  · by_cases hfull : queueSize ≤ (t.port.cursor.avail + 2 ^ 16 - t.port.rings.usedIdx) % 2 ^ 16
    · left
      simp only [hvalid, hfull, Bool.not_true, Bool.false_eq_true, if_false, if_true]
    right
    refine ⟨Nat.lt_of_not_le hfull, ?_⟩
    simp only [hvalid, hfull, Bool.not_true, Bool.false_eq_true, if_false]
  · left
    simp only [hvalid, Bool.not_false, if_true]

theorem Flow.post (h : Flow t) (hroom : t.log.length < t.consumed + queueSize) :
    Flow (t.post x queue pa len flags).2 := by
  have hc : t.consumed ≤ t.log.length := h.consumed_le.trans h.returned_le
  rcases post_cases t x queue pa len flags with heq | ⟨-, heq⟩
  · rw [heq]
    exact h
  have havail : t.port.cursor.avail % queueSize = t.log.length % queueSize := by
    rw [h.avail]
    exact Nat.mod_mod_of_dvd _ (by decide)
  have hposition : t.port.position % queueSize = t.log.length % queueSize := by
    rw [h.position]
    exact Nat.mod_mod_of_dvd _ (by decide)
  rw [heq, havail, hposition]
  refine ⟨h.order, h.consumed_le, ?_, ?_, ?_, h.used, h.usedIdx, ?_, ?_, ?_, ?_, h.usedRing, ?_⟩
  · simp only [List.length_append, List.length_singleton]
    exact h.returned_le.trans (Nat.le_succ _)
  · simp only [List.length_append, List.length_singleton]
    omega
  · simp only [List.length_append, List.length_singleton, h.avail, Nat.mod_add_mod]
  · simp only [List.length_append, List.length_singleton, h.position, Nat.mod_add_mod]
  · have hadd := h.pending.add (by rwa [List.length_map]) (by rwa [List.length_map]) x
    rw [List.length_map] at hadd
    simpa only [List.map_append, List.map_cons, List.map_nil] using hadd
  · intro i y d hi hy
    simp only at hi hy ⊢
    have hlt : i < t.log.length + 1 := by
      simpa only [List.length_append, List.length_singleton] using
        (List.getElem?_eq_some_iff.1 hy).1
    rw [update_place hi (by omega) hc hroom]
    by_cases hlast : i = t.log.length
    · rw [hlast, List.getElem?_concat_length] at hy
      rw [if_pos hlast, (Prod.mk.inj (Option.some.inj hy)).2]
    rw [List.getElem?_append_left (by omega)] at hy
    rw [if_neg hlast]
    exact h.desc i y d hi hy
  · intro i hi hlt
    simp only [List.length_append, List.length_singleton] at hi hlt ⊢
    rw [update_place hi (by omega) hc hroom]
    by_cases hlast : i = t.log.length
    · rw [if_pos hlast, hlast]
    · rw [if_neg hlast]
      exact h.availRing i hi (by omega)
  · simp only [List.map_append]
    rw [List.take_append_of_le_length (by rwa [List.length_map])]
    exact h.matched

theorem Stale.post_eq (h : Stale t) : (t.post x queue pa len flags).2 = t := by
  rcases post_cases t x queue pa len flags with heq | ⟨hlt, -⟩
  · exact heq
  have hidx := h.usedIdx
  rw [h.avail] at hlt
  simp only [queueSize] at hlt hidx
  omega

theorem Parked.post (h : Parked key t) (hbusy : t.busy < queueSize) :
    Parked key (t.post x queue pa len flags).2 := by
  rcases post_cases t x queue pa len flags with heq | ⟨-, heq⟩
  · rw [heq]
    exact h
  rw [heq]
  refine ⟨h.places, ?_, h.reported⟩
  simp only [busy, List.length_append, List.length_singleton] at hbusy ⊢
  omega

theorem giveBack_some (h : t.giveBack i len = some t') :
    t.InFlight i ∧ t' = { t with
      port := { t.port with rings := { t.port.rings with
        usedRing := update t.port.rings.usedRing (t.returned.length % queueSize)
          ⟨t.port.rings.availRing (i % queueSize), len⟩
        usedIdx := (t.returned.length + 1) % 2 ^ 16 } }
      returned := t.returned ++ [i] } := by
  unfold giveBack at h
  split at h
  · rename_i hflight
    exact ⟨hflight, (Option.some.inj h).symm⟩
  · exact absurd h (by simp)

theorem Flow.giveBack (h : Flow t) (hback : t.giveBack t.returned.length len = some t') :
    Flow t' := by
  obtain ⟨⟨hlt, -⟩, rfl⟩ := giveBack_some hback
  have hc := h.consumed_le
  have hroom := h.room
  refine ⟨?_, ?_, ?_, h.room, h.avail, h.used, ?_, h.position, h.pending, h.desc, h.availRing,
    ?_, h.matched⟩
  · simp only [List.length_append, List.length_singleton, List.range_succ]
    exact congrArg (· ++ _) h.order
  · simp only [List.length_append, List.length_singleton]
    omega
  · simp only [List.length_append, List.length_singleton]
    omega
  · simp only [List.length_append, List.length_singleton]
  · intro i hi hlt'
    simp only [List.length_append, List.length_singleton] at hi hlt' ⊢
    rw [update_place hi (by omega) hc (by omega)]
    by_cases hlast : i = t.returned.length
    · rw [if_pos hlast, hlast]
      exact h.availRing _ hc hlt
    · rw [if_neg hlast]
      exact h.usedRing i hi (by omega)

theorem Stale.not_inFlight (h : Stale t) (i : ℕ) : ¬t.InFlight i := by
  intro hflight
  have hlt := hflight.1
  rw [h.log] at hlt
  exact absurd hlt (Nat.not_lt_zero _)

theorem Stale.giveBack_eq (h : Stale t) : t.giveBack i len = none :=
  if_neg (h.not_inFlight i)

theorem Parked.giveBack (h : Parked key t) (hback : t.giveBack i len = some t') :
    Parked key t' := by
  obtain ⟨-, rfl⟩ := giveBack_some hback
  exact ⟨h.places, h.busy_le, h.reported⟩

variable {used : UsedElement} {found : Option α}

theorem consume_some (h : t.consume = some (used, found, t')) :
    t.port.cursor.used ≠ t.port.rings.usedIdx ∧
      found = t.port.pending
        ((t.port.rings.usedRing (t.port.cursor.used % queueSize)).descriptor % queueSize) ∧
      t' = { t with
        port := { t.port with
          cursor := { t.port.cursor with used := (t.port.cursor.used + 1) % 2 ^ 16 }
          pending := update t.port.pending
            ((t.port.rings.usedRing (t.port.cursor.used % queueSize)).descriptor % queueSize)
            none }
        consumed := t.consumed + 1
        matched := t.matched ++ found.toList.map fun x => (t.returned[t.consumed]?, x) } := by
  have hmod : ∀ d : ℕ, d % 2 ^ 16 % queueSize = d % queueSize :=
    fun d => Nat.mod_mod_of_dvd d (by decide)
  unfold consume Port.consume Port.pollUsed at h
  by_cases heq : t.port.cursor.used = t.port.rings.usedIdx
  · simp only [heq, if_true, Option.map_none] at h
    cases h
  simp only [heq, if_false, Option.map_some, hmod, Option.some.injEq, Prod.mk.injEq] at h
  obtain ⟨-, hfound, rfl⟩ := h
  refine ⟨heq, hfound.symm, ?_⟩
  rw [← hfound]

/-- The used element that is next belongs to the oldest buffer not consumed yet. -/
theorem Flow.consume (h : Flow t) (hconsume : t.consume = some (used, found, t')) :
    Flow t' ∧ ∃ x d, found = some x ∧ t.log[t.consumed]? = some (x, d) := by
  obtain ⟨hne, hfound, rfl⟩ := consume_some hconsume
  rw [h.used, h.usedIdx] at hne
  have hlt : t.consumed < t.returned.length :=
    Nat.lt_of_le_of_ne h.consumed_le fun heq => hne (by rw [heq])
  have hlog : t.consumed < t.log.length := Nat.lt_of_lt_of_le hlt h.returned_le
  have hplace : (t.port.rings.usedRing (t.port.cursor.used % queueSize)).descriptor % queueSize
      = t.consumed % queueSize := by
    have hused : t.port.cursor.used % queueSize = t.consumed % queueSize := by
      rw [h.used]
      exact Nat.mod_mod_of_dvd _ (by decide)
    rw [hused, h.usedRing t.consumed (Nat.le_refl _) hlt, Nat.mod_mod]
  rw [hplace] at hfound ⊢
  have hitem : found = some t.log[t.consumed].1 := by
    rw [hfound, h.pending.oldest (by decide), List.getElem?_map, List.getElem?_eq_getElem hlog,
      Option.map_some]
  have hnumber : t.returned[t.consumed]? = some t.consumed := by
    rw [h.order, List.getElem?_range hlt]
  refine ⟨⟨h.order, hlt, h.returned_le, ?_, h.avail, ?_, h.usedIdx, h.position,
    h.pending.take (by decide) (by rw [List.length_map]; exact h.room), ?_, ?_, ?_, ?_⟩,
    t.log[t.consumed].1, t.log[t.consumed].2, hitem, List.getElem?_eq_getElem hlog⟩
  · exact h.room.trans (Nat.add_le_add_right (Nat.le_succ _) _)
  · simp only [h.used, Nat.mod_add_mod]
  · exact fun i x d hi => h.desc i x d (Nat.le_of_succ_le hi)
  · exact fun i hi => h.availRing i (Nat.le_of_succ_le hi)
  · exact fun i hi => h.usedRing i (Nat.le_of_succ_le hi)
  · simp only [hitem, hnumber, h.matched]
    rw [List.take_add_one, List.getElem?_map, List.getElem?_eq_getElem hlog]
    simp only [Option.map_some, Option.toList_some, List.zipIdx_append, List.map_append,
      List.map_cons, List.map_nil, List.zipIdx_cons, List.zipIdx_nil, List.length_take,
      List.length_map, Nat.zero_add, Nat.min_eq_left (Nat.le_of_lt hlog)]

theorem Stale.consume (h : Stale t) (hconsume : t.consume = some (used, found, t')) :
    found = none ∧ Stale t' := by
  obtain ⟨-, hfound, rfl⟩ := consume_some hconsume
  rw [h.pending] at hfound
  subst hfound
  refine ⟨rfl, h.log, h.returned, ?_, h.avail, h.usedIdx, ?_⟩
  · simp only [Option.toList_none, List.map_nil, List.append_nil, h.matched]
  · intro i
    simp only [update_apply, h.pending, ite_self]

theorem Parked.consume_none (h : Parked key t) (hconsume : t.consume = some (used, none, t')) :
    Parked key t' := by
  obtain ⟨-, -, rfl⟩ := consume_some hconsume
  refine ⟨h.places, ?_, ?_⟩
  · have hbusy := h.busy_le
    simp only [busy] at hbusy ⊢
    omega
  · simpa only [Option.toList_none, List.map_nil, List.append_nil] using h.reported

section

variable (h : Parked key t) (hlog : t.consumed < t.log.length)
  (hconsume : t.consume = some (used, some x, t'))
include h hlog hconsume

theorem Parked.consume_some :
    t'.port.ready.length = queueSize ∧ t'.busy < queueSize ∧
      (t'.matched.map fun m => key m.2).Perm
        (key x :: (t'.delivered ++ t'.port.ready.reduceOption.map Prod.fst ++ t'.refused)) := by
  obtain ⟨-, -, rfl⟩ := Tracked.consume_some hconsume
  refine ⟨h.places, ?_, ?_⟩
  · have hbusy := h.busy_le
    simp only [busy] at hbusy ⊢
    omega
  · simp only [Option.toList_some, List.map_cons, List.map_nil, List.map_append]
    exact (List.perm_append_singleton _ _).trans (h.reported.cons _)

theorem Parked.consume_park (completion : Completion) :
    Parked key (t'.park (key x) completion) := by
  obtain ⟨hplaces, hbusy, hreported⟩ := h.consume_some hlog hconsume
  have hperm := enqueue_perm (l := t'.port.ready)
    (by rw [hplaces]; exact Nat.lt_of_le_of_lt (Nat.le_add_left _ _) hbusy) (key x, completion)
  refine ⟨(length_enqueue _ _).trans hplaces, ?_, hreported.trans ?_⟩
  · have hlength := hperm.length_eq
    rw [List.length_cons] at hlength
    simp only [busy, park, Port.park, hlength] at hbusy ⊢
    omega
  have hmap := hperm.map Prod.fst
  rw [List.map_cons] at hmap
  refine List.Perm.trans ?_ (((hmap.symm).append_left _).append_right _)
  simpa only [park, List.append_assoc, List.cons_append] using List.perm_middle.symm

theorem Parked.consume_refuse :
    Parked key (t'.refuse (key x)) ∧ (t'.refuse (key x)).busy < queueSize := by
  obtain ⟨hplaces, hbusy, hreported⟩ := h.consume_some hlog hconsume
  refine ⟨⟨hplaces, Nat.le_of_lt hbusy, hreported.trans ?_⟩, hbusy⟩
  have hlast := (List.perm_append_singleton (key x)
    (t'.delivered ++ t'.port.ready.reduceOption.map Prod.fst ++ t'.refused)).symm
  simpa only [refuse, List.append_assoc] using hlast

end

theorem Parked.take (h : Parked key t) : Parked key t.take := by
  have hparts := takeFirst_reduceOption t.port.ready
  refine ⟨(length_takeFirst _).trans h.places, ?_, ?_⟩
  · have hbusy := h.busy_le
    have hlength := congrArg List.length hparts
    rw [List.length_append] at hlength
    simp only [busy, Tracked.take, Port.take] at hbusy ⊢
    omega
  have hreported := h.reported
  rw [hparts] at hreported
  simpa only [Tracked.take, Port.take, List.map_append, List.append_assoc] using hreported

/-- What is done with the identities found is nothing to the rings. -/
theorem Flow.handled (h : Flow t) (ready : List (Option (PacketToken × Completion)))
    (delivered refused : List PacketToken) :
    Flow { t with port := { t.port with ready }, delivered, refused } :=
  ⟨h.order, h.consumed_le, h.returned_le, h.room, h.avail, h.used, h.usedIdx, h.position,
    h.pending, h.desc, h.availRing, h.usedRing, h.matched⟩

theorem Flow.park (h : Flow t) (token : PacketToken) (completion : Completion) :
    Flow (t.park token completion) := h.handled _ _ _

theorem Flow.take (h : Flow t) : Flow t.take := h.handled _ _ _

theorem Flow.refuse (h : Flow t) (token : PacketToken) : Flow (t.refuse token) := h.handled _ _ _

theorem Stale.take (h : Stale t) : Stale t.take :=
  ⟨h.log, h.returned, h.matched, h.avail, h.usedIdx, h.pending⟩

def Live (key : α → PacketToken) (t : Tracked α) : Prop := (Flow t ∨ Stale t) ∧ Parked key t

theorem flow_restart {p : Port α} (h : p.rings.usedIdx = 0) : Flow (fresh p.restart) := by
  refine ⟨rfl, Nat.le_refl _, Nat.le_refl _, Nat.zero_le _, rfl, rfl, h, rfl, Kept.empty _,
    ?_, ?_, ?_, rfl⟩
  · intro i x d _ hi
    cases hi
  · intro i _ hi
    exact absurd hi (Nat.not_lt_zero i)
  · intro i _ hi
    exact absurd hi (Nat.not_lt_zero i)

theorem live_restart (key : α → PacketToken) {p : Port α}
    (h : p.rings.usedIdx + queueSize ≤ 2 ^ 16) : Live key (fresh p.restart) := by
  refine ⟨?_, List.length_replicate .., ?_, ?_⟩
  · rcases Nat.eq_zero_or_pos p.rings.usedIdx with hzero | hpos
    · exact .inl (flow_restart hzero)
    · exact .inr ⟨rfl, rfl, rfl, rfl, ⟨hpos, h⟩, fun _ => rfl⟩
  · simp only [busy, fresh, Port.restart, reduceOption_vacant, List.length_nil]
    decide
  · simp only [fresh, Port.restart, reduceOption_vacant, List.map_nil, List.append_nil]
    exact List.Perm.refl _

theorem Live.post (h : Live key t) (hbusy : t.busy < queueSize) :
    Live key (t.post x queue pa len flags).2 := by
  rcases h with ⟨hflow | hstale, hparked⟩
  · have hroom : t.log.length < t.consumed + queueSize := by
      rw [busy] at hbusy
      omega
    exact ⟨.inl (hflow.post hroom), hparked.post hbusy⟩
  · rw [hstale.post_eq]
    exact ⟨.inr hstale, hparked⟩

theorem Live.giveBack (h : Live key t) (hback : t.giveBack t.returned.length len = some t') :
    Live key t' := by
  rcases h with ⟨hflow | hstale, hparked⟩
  · exact ⟨.inl (hflow.giveBack hback), hparked.giveBack hback⟩
  · rw [hstale.giveBack_eq] at hback
    cases hback

theorem Live.take (h : Live key t) : Live key t.take :=
  ⟨h.1.imp Flow.take Stale.take, h.2.take⟩

theorem Live.consume_none (h : Live key t) (hconsume : t.consume = some (used, none, t')) :
    Live key t' := by
  refine ⟨h.1.imp (fun hflow => (hflow.consume hconsume).1)
    fun hstale => (hstale.consume hconsume).2, h.2.consume_none hconsume⟩

/-- What is found was posted, and is there to be reported or refused. -/
theorem Live.consume_some (h : Live key t) (hconsume : t.consume = some (used, some x, t')) :
    (∀ completion, Live key (t'.park (key x) completion)) ∧
      Live key (t'.refuse (key x)) ∧ (t'.refuse (key x)).busy < queueSize := by
  rcases h with ⟨hflow | hstale, hparked⟩
  · obtain ⟨hflow', y, d, -, hitem⟩ := hflow.consume hconsume
    have hlog := (List.getElem?_eq_some_iff.1 hitem).1
    obtain ⟨hrefused, hbusy⟩ := hparked.consume_refuse hlog hconsume
    exact ⟨fun completion => ⟨.inl (hflow'.park _ completion),
      hparked.consume_park hlog hconsume completion⟩, ⟨.inl (hflow'.refuse _), hrefused⟩, hbusy⟩
  · cases (hstale.consume hconsume).1

theorem Flow.consumed_le_inFlight (h : Flow t) (hflight : t.InFlight i) : t.consumed ≤ i := by
  have hnot := hflight.2
  rw [h.order, List.mem_range] at hnot
  exact h.consumed_le.trans (Nat.le_of_not_lt hnot)

theorem Flow.inFlight_lt (h : Flow t) (hflight : t.InFlight i) : i < t.consumed + queueSize :=
  Nat.lt_of_lt_of_le hflight.1 h.room

theorem Flow.intact (h : Flow t) (hflight : t.InFlight i) :
    ∃ x d, t.log[i]? = some (x, d) ∧ t.port.rings.desc (i % queueSize) = d ∧
      t.port.pending (i % queueSize) = some x := by
  have hc := h.consumed_le_inFlight hflight
  have hlt := hflight.1
  have hitem : t.log[i]? = some (t.log[i].1, t.log[i].2) := List.getElem?_eq_getElem hlt
  refine ⟨_, _, hitem, h.desc i _ _ hc hitem, ?_⟩
  rw [h.pending i hc (h.inFlight_lt hflight), List.getElem?_map, hitem, Option.map_some]

theorem Flow.numbers (h : Flow t) : t.matched.map Prod.fst = (List.range t.consumed).map some := by
  have hlength : ((t.log.map Prod.fst).take t.consumed).length = t.consumed := by
    rw [List.length_take, List.length_map]
    exact Nat.min_eq_left (h.consumed_le.trans h.returned_le)
  rw [h.matched, List.map_map]
  have hsnd := List.zipIdx_map_snd 0 ((t.log.map Prod.fst).take t.consumed)
  rw [hlength] at hsnd
  rw [List.range_eq_range', ← hsnd, List.map_map]
  rfl

theorem Live.sound (h : Live key t) : Sound key t := by
  rcases h with ⟨hflow | hstale, hparked⟩
  · refine ⟨?_, fun i => hflow.intact, ?_, ?_, ?_, hparked.reported⟩
    · intro i j hi hj
      exact mod_inj (hflow.consumed_le_inFlight hi) (hflow.inFlight_lt hi)
        (hflow.consumed_le_inFlight hj) (hflow.inFlight_lt hj)
    · intro m hm
      rw [hflow.matched] at hm
      obtain ⟨⟨x, i⟩, hmem, rfl⟩ := List.mem_map.1 hm
      have hitem := List.mem_zipIdx_iff_getElem?.1 hmem
      have hlt : i < t.consumed := by
        have := (List.getElem?_eq_some_iff.1 hitem).1
        rw [List.length_take] at this
        exact Nat.lt_of_lt_of_le this (Nat.min_le_left _ _)
      rw [List.getElem?_take_of_lt hlt, List.getElem?_map, Option.map_eq_some_iff] at hitem
      obtain ⟨⟨x', d⟩, hlog, rfl⟩ := hitem
      exact ⟨i, x', d, rfl, hlog⟩
    · rw [hflow.numbers, hflow.order, List.take_range, Nat.min_eq_left hflow.consumed_le]
    · rw [hflow.numbers]
      exact List.nodup_range.map (Option.some_injective _)
  · refine ⟨fun i _ hi => absurd hi (hstale.not_inFlight i),
      fun i hi => absurd hi (hstale.not_inFlight i), ?_, ?_, ?_, hparked.reported⟩
    · rw [hstale.matched]
      intro m hm
      cases hm
    · rw [hstale.matched, hstale.returned, List.take_nil]
      rfl
    · rw [hstale.matched]
      exact List.nodup_nil

end Tracked

end HarborKernel.QemuVirt
