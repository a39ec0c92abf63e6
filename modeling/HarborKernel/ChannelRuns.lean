import HarborKernel.ChannelTable
import HarborKernel.Transition

/-!
Runs of the table in step with the abstract machine, with a history of the channels
that calls have created and revoked. Generations follow the number of the creation:
they return after 65535 creations, and an index is given out again only after the
channel that had it was revoked.
-/

namespace HarborKernel.Channels

open Function Capability ReadyQueue Ipc Transition

/-- What the answers tell about channels: all that were created, oldest first, and which of
them were revoked. -/
structure History where
  made : List Channel
  revoked : ℕ → Bool

namespace History

def start : History := ⟨[], fun _ => false⟩

def note (h : History) : Op → Answer → History
  | .create _, .created (.ok names) => { h with made := h.made ++ [names] }
  | .revokeChannel cap, .revoked (.ok _) => { h with
      revoked := fun n => h.revoked n || (h.made[n]?).any fun c => c.send = cap || c.recv = cap }
  | _, _ => h

/-- The capability is the given end of a channel that was created and not revoked. -/
def Open (h : History) (e : End) (cap : CapId) : Prop :=
  ∃ n c, h.made[n]? = some c ∧ h.revoked n = false ∧ e.of c = cap

end History

structure Run (M E D : ℕ) where
  table : Table M E D
  machine : Machine
  history : History

def Answer.names : Answer → Channel
  | .created r => namesOf r
  | _ => ⟨⟨0⟩, ⟨0⟩⟩

namespace Run

variable {M E D : ℕ}

def start : Run M E D := ⟨Table.new, Machine.start, History.start⟩

def expected (s : Run M E D) (op : Op) : Answer × Machine :=
  s.machine.exec M E D (exec s.table op).1.names op

def step (s : Run M E D) (op : Op) : Option (Run M E D) :=
  some ⟨(exec s.table op).2, (s.expected op).2, s.history.note op (exec s.table op).1⟩

/-- States of runs with any calls on any capabilities. -/
def Reached (s : Run M E D) : Prop :=
  Reach (fun s => s = start) step (fun _ _ => True) s

end Run

section Exec

variable {M E D : ℕ} {t : Table M E D} {a : Machine} {box : ℕ → ℕ}

/-- One call of the table is one call of the machine. -/
theorem Refines.exec (h : Refines t a box) (hM : M ≤ 256) (op : Op) :
    ∃ box', (exec t op).1 = (a.exec M E D (exec t op).1.names op).1 ∧
      Refines (exec t op).2 (a.exec M E D (exec t op).1.names op).2 box' := by
  cases op with
  | create autoReap =>
    obtain ⟨box', hanswer, href⟩ := h.create hM autoReap
    exact ⟨box', congrArg Answer.created hanswer, href⟩
  | send cap msg =>
    obtain ⟨hanswer, href⟩ := h.send hM cap msg
    exact ⟨box, congrArg Answer.sent hanswer, href⟩
  | tryRecv cap =>
    obtain ⟨hanswer, href⟩ := h.tryRecv hM cap
    exact ⟨box, congrArg Answer.received hanswer, href⟩
  | park cap me =>
    obtain ⟨hanswer, href⟩ := h.park hM cap me
    exact ⟨box, congrArg Answer.parked hanswer, href⟩
  | clearWaiter id =>
    obtain ⟨hanswer, href⟩ := h.clearWaiter hM id
    exact ⟨box, congrArg Answer.cleared hanswer, href⟩
  | registerHolds caps => exact ⟨box, rfl, Refines.registerHolds hM caps h⟩
  | releaseHolds caps =>
    obtain ⟨hanswer, href⟩ := Refines.releaseHolds hM caps h
    exact ⟨box, congrArg Answer.released hanswer, href⟩
  | revokeChannel cap =>
    obtain ⟨hanswer, href⟩ := h.revokeChannel hM cap
    exact ⟨box, congrArg Answer.revoked hanswer, href⟩
  | queued cap => exact ⟨box, congrArg Answer.queued (h.queued hM cap), h⟩

end Exec

namespace Machine

/-- The same channels are live, under the same names. -/
structure Kept (a a' : Machine) : Prop where
  made : a'.made = a.made
  ends : ∀ n, (a'.chans n).map Chan.ends = (a.chans n).map Chan.ends

variable {a a' a'' : Machine}

theorem Kept.refl (a : Machine) : Kept a a := ⟨rfl, fun _ => rfl⟩

theorem Kept.trans (h : Kept a a') (h' : Kept a' a'') : Kept a a'' :=
  ⟨h'.made.trans h.made, fun n => (h'.ends n).trans (h.ends n)⟩

theorem Kept.old (h : Kept a a') {n : ℕ} {ch' : Chan} (hch' : a'.chans n = some ch') :
    ∃ ch, a.chans n = some ch ∧ ch.ends = ch'.ends := by
  have hends := h.ends n
  rw [hch', Option.map_some] at hends
  exact Option.map_eq_some_iff.1 hends.symm

theorem Kept.none_iff (h : Kept a a') (n : ℕ) : a'.chans n = none ↔ a.chans n = none := by
  rw [← Option.map_eq_none_iff (f := Chan.ends), h.ends n, Option.map_eq_none_iff]

theorem Kept.set {n : ℕ} {ch ch' : Chan} (hch : a.chans n = some ch) (hends : ch'.ends = ch.ends) :
    Kept a (a.set n ch') := by
  refine ⟨rfl, fun m => ?_⟩
  by_cases hm : m = n
  · subst hm
    simp only [Machine.set, update_self, Option.map_some, hch, hends]
  · simp only [Machine.set, update_of_ne hm]

theorem Kept.holds (caps : List (Option CapId)) (a : Machine) :
    Kept a (a.registerHolds caps) ∧ Kept a (a.releaseHolds caps).2 := by
  refine Machine.holds_rule (P := Kept a) ?_ a (Kept.refl a)
  intro a' n ch cap h _ hn _ _ _
  refine h.trans (Kept.set (named_eq_some hn).1 ?_)
  rfl

theorem Kept.take {n : ℕ} {ch : Chan} (hch : a.chans n = some ch) (msg : Message)
    (rest : List Message) : Kept a (a.take n ch msg rest) := by
  refine Kept.set hch ?_
  rfl

/-- Only creations and revocations change which channels there are. -/
theorem Kept.exec (M E D : ℕ) (names : Channel) (a : Machine) {op : Op}
    (hcreate : ∀ autoReap, op ≠ .create autoReap) (hrevoke : ∀ cap, op ≠ .revokeChannel cap) :
    Kept a (a.exec M E D names op).2 := by
  cases op with
  | create autoReap => exact absurd rfl (hcreate autoReap)
  | revokeChannel cap => exact absurd rfl (hrevoke cap)
  | send cap msg =>
    simp only [Machine.exec, Machine.send]
    split
    · exact Kept.refl a
    rename_i n ch hn
    split
    · exact Kept.refl a
    · refine Kept.set (named_eq_some hn).1 ?_
      rfl
  | tryRecv cap =>
    simp only [Machine.exec, Machine.tryRecv]
    split
    · exact Kept.refl a
    rename_i n ch hn
    split
    · exact Kept.refl a
    · exact Kept.take (named_eq_some hn).1 ..
  | park cap me =>
    simp only [Machine.exec, Machine.park]
    split
    · exact Kept.refl a
    rename_i n ch hn
    have hch := (named_eq_some hn).1
    split
    · exact Kept.take hch ..
    split
    · exact Kept.refl a
    split
    · exact Kept.refl a
    · refine Kept.set hch ?_
      rfl
  | clearWaiter id =>
    refine ⟨rfl, fun n => ?_⟩
    simp only [Machine.exec, Machine.clearWaiter, Option.map_map]
    congr 1
    funext ch
    simp only [comp_apply]
    split <;> rfl
  | registerHolds caps => exact (Kept.holds caps a).1
  | releaseHolds caps => exact (Kept.holds caps a).2
  | queued cap => exact Kept.refl a

/-- A revocation is refused, or takes the one channel that has the capability. -/
theorem revoke_cases (a : Machine) (cap : CapId) :
    a.revokeChannel cap = (.error .badCap, a) ∨
    ∃ n ch w, ∃ e : End, a.chans n = some ch ∧ e.of ch.ends = cap ∧
      a.revokeChannel cap = (.ok w, { a with chans := update a.chans n none }) := by
  unfold Machine.revokeChannel
  split
  · exact .inl rfl
  rename_i n ch hn
  obtain ⟨hch, e, hcap⟩ := either_eq_some hn
  exact .inr ⟨n, ch, ch.waiter, e, hch, hcap, rfl⟩

end Machine

section Creation

variable {M E D : ℕ} (t : Table M E D)

theorem bumpGen_toNat (g : UInt16) :
    (Table.bumpGen g).toNat = if g.toNat = 65535 then 1 else g.toNat + 1 := by
  have hlt := g.toNat_lt
  have hadd : (g + 1).toNat = (g.toNat + 1) % 65536 := UInt16.toNat_add g 1
  unfold Table.bumpGen
  by_cases hg : g.toNat = 65535
  · have hzero : g + 1 = 0 := by
      apply UInt16.toNat_inj.1
      rw [hadd, hg]
      rfl
    rw [if_pos hzero, if_pos hg]
    rfl
  have hzero : g + 1 ≠ 0 := by
    intro hz
    rw [hz, UInt16.toNat_zero] at hadd
    omega
  rw [if_neg hzero, if_neg hg, hadd]
  omega

/-- A creation is refused, or takes the first free mailbox and two free endpoints. -/
theorem create_cases (autoReap : Bool) :
    (∃ e, t.createChannelWithAutoReap autoReap = (.error e, t)) ∨
    ∃ mb sendEp recvEp, (mb < M ∧ (t.boxes mb).live = false ∧
        ∀ i, i < mb → (t.boxes i).live = true) ∧
      (sendEp < E ∧ (t.eps sendEp).live = false ∧ ∀ i, i < sendEp → (t.eps i).live = true) ∧
      (recvEp < E ∧ (t.eps recvEp).live = false ∧
        ∀ i, i < recvEp → i ≠ sendEp → (t.eps i).live = true) ∧
      recvEp ≠ sendEp ∧
      t.createChannelWithAutoReap autoReap =
        (.ok ⟨CapId.new (UInt16.ofNat sendEp) t.nextGen, CapId.new (UInt16.ofNat recvEp) t.nextGen⟩,
          { t with
            nextGen := Table.bumpGen t.nextGen
            boxes := update t.boxes mb { Mailbox.empty with live := true, autoReap }
            eps := update (update t.eps sendEp
              ⟨true, t.nextGen, .SEND, UInt8.ofNat mb⟩) recvEp
              ⟨true, t.nextGen, .RECV, UInt8.ofNat mb⟩ }) := by
  unfold Table.createChannelWithAutoReap
  split
  · exact .inl ⟨_, rfl⟩
  rename_i mb hmb
  split
  · exact .inl ⟨_, rfl⟩
  rename_i sendEp hs
  split
  · exact .inl ⟨_, rfl⟩
  rename_i recvEp hr
  obtain ⟨hdead, hlt, hbelow⟩ := List.find?_range_eq_some.1 hmb
  obtain ⟨hsend, hslt, hsbelow⟩ := List.find?_range_eq_some.1 hs
  obtain ⟨hrecv, hrlt, hrbelow⟩ := List.find?_range_eq_some.1 hr
  rw [List.mem_range] at hlt hslt hrlt
  simp only [Bool.and_eq_true, Bool.not_eq_true', bne_iff_ne, ne_eq, Bool.not_not, Bool.not_and,
    Bool.or_eq_true, bne_eq_false_iff_eq] at hdead hbelow hsend hsbelow hrecv hrbelow
  exact .inr ⟨mb, sendEp, recvEp, ⟨hlt, hdead, hbelow⟩, ⟨hslt, hsend, hsbelow⟩,
    ⟨hrlt, hrecv.1, fun i hi hne => (hrbelow i hi).resolve_right hne⟩, hrecv.2, rfl⟩

theorem registerHolds_nextGen (caps : List (Option CapId)) : ∀ t : Table M E D,
    (t.registerHolds caps).nextGen = t.nextGen := by
  induction caps with
  | nil => exact fun _ => rfl
  | cons slot rest ih =>
    intro t
    cases slot with
    | none => exact ih t
    | some cap =>
      refine (ih _).trans ?_
      unfold Table.registerHold
      split <;> rfl

theorem releaseHolds_nextGen (caps : List (Option CapId)) : ∀ t : Table M E D,
    (t.releaseHolds caps).2.nextGen = t.nextGen := by
  induction caps with
  | nil => exact fun _ => rfl
  | cons slot rest ih =>
    intro t
    cases slot with
    | none => exact ih t
    | some cap =>
      have hone : (t.releaseHold cap).2.nextGen = t.nextGen := by
        unfold Table.releaseHold
        split
        · rfl
        · simp only
          split <;> rfl
      exact (ih _).trans hone

theorem exec_nextGen (op : Op) (hop : ∀ autoReap, op ≠ .create autoReap) :
    (exec t op).2.nextGen = t.nextGen := by
  cases op with
  | create autoReap => exact absurd rfl (hop autoReap)
  | send cap msg =>
    simp only [exec, Table.send]
    split
    · rfl
    split
    · rfl
    · split <;> rfl
  | tryRecv cap =>
    simp only [exec, Table.tryRecv]
    split
    · rfl
    split
    · rfl
    · split <;> rfl
  | park cap me =>
    simp only [exec, Table.park]
    split
    · rfl
    split
    · rfl
    split
    · rfl
    split
    · rfl
    · split <;> rfl
  | clearWaiter id => rfl
  | registerHolds caps => exact registerHolds_nextGen caps t
  | releaseHolds caps => exact releaseHolds_nextGen caps t
  | revokeChannel cap =>
    simp only [exec, Table.revokeChannel]
    split
    · split
      · rfl
      · split <;> rfl
    · rfl
  | queued cap => rfl

end Creation

structure Dated {M E D : ℕ} (t : Table M E D) (a : Machine) : Prop where
  next : t.nextGen.toNat = a.made.length % 65535 + 1
  generation : ∀ (n : ℕ) (c : Channel) (e : End), a.made[n]? = some c →
    (e.of c).generation.toNat = n % 65535 + 1
  own : ∀ (n : ℕ) (c : Channel), a.made[n]? = some c → c.send.index ≠ c.recv.index
  later : ∀ (n m : ℕ) (ch : Chan) (c : Channel) (e e' : End), a.chans n = some ch → n < m →
    a.made[m]? = some c → (e'.of c).index ≠ (e.of ch.ends).index

namespace Dated

variable {M E D : ℕ} {t t' : Table M E D} {a a' : Machine}

theorem start : Dated (Table.new : Table M E D) Machine.start where
  next := rfl
  generation := nofun
  own := nofun
  later := nofun

theorem of_old (h : Dated t a) (hnext : t'.nextGen = t.nextGen) (hmade : a'.made = a.made)
    (hold : ∀ n ch', a'.chans n = some ch' → ∃ ch, a.chans n = some ch ∧ ch.ends = ch'.ends) :
    Dated t' a' := by
  refine ⟨?_, ?_, ?_, ?_⟩
  · rw [hnext, hmade]
    exact h.next
  · rw [hmade]
    exact h.generation
  · rw [hmade]
    exact h.own
  · intro n m ch' c e e' hch' hlt hc
    obtain ⟨ch, hch, hends⟩ := hold n ch' hch'
    rw [hmade] at hc
    rw [← hends]
    exact h.later n m ch c e e' hch hlt hc

theorem create {box : ℕ → ℕ} (h : Dated t a) (href : Refines t a box) (hM : M ≤ 256)
    (autoReap : Bool) (hsame : (t.createChannelWithAutoReap autoReap).1 = (a.create M E
      (namesOf (t.createChannelWithAutoReap autoReap).1) autoReap).1) :
    Dated (t.createChannelWithAutoReap autoReap).2 (a.create M E
      (namesOf (t.createChannelWithAutoReap autoReap).1) autoReap).2 := by
  rcases create_cases t autoReap with ⟨err, herr⟩ |
    ⟨mb, sendEp, recvEp, -, ⟨hs, hsend, hlow⟩, ⟨hr, hrecv, hlow'⟩, hne, hok⟩
  · rw [herr] at hsame ⊢
    simp only [Machine.create] at hsame ⊢
    split
    · exact h
    rename_i hfull
    split
    · exact h
    rename_i hEp
    rw [if_neg hfull, if_neg hEp] at hsame
    contradiction
  · rw [hok] at hsame ⊢
    simp only [Machine.create, namesOf] at hsame ⊢
    split
    · rename_i hfull
      rw [if_pos hfull] at hsame
      contradiction
    rename_i hfull
    rw [if_neg hfull] at hsame
    split
    · rename_i hEp
      rw [if_pos hEp] at hsame
      contradiction
    have hindex : ∀ {i x : ℕ}, i < E → (∀ j, j < i → j ≠ x → (t.eps j).live = true) →
        (UInt16.ofNat i).toNat = i := by
      intro i x hi hbelow
      rw [UInt16.toNat_ofNat']
      exact Nat.mod_eq_of_lt (href.first_free hM hi hbelow)
    have hsindex := hindex (x := sendEp) hs fun j hj _ => hlow j hj
    have hrindex := hindex hr hlow'
    -- the last channel of the longer list is the new one
    have hlast : ∀ {n : ℕ} {c new : Channel}, (a.made ++ [new])[n]? = some c →
        a.made[n]? = some c ∨ n = a.made.length ∧ c = new := by
      intro n c new hc
      rcases Nat.lt_or_ge n a.made.length with hn | hn
      · rw [List.getElem?_append_left hn] at hc
        exact .inl hc
      rw [List.getElem?_append_right hn, List.getElem?_singleton] at hc
      split at hc
      · exact .inr ⟨by omega, (Option.some.inj hc).symm⟩
      · contradiction
    refine ⟨?_, ?_, ?_, ?_⟩
    · rw [bumpGen_toNat, h.next, List.length_append, List.length_singleton]
      split <;> omega
    · intro n c e hc
      rcases hlast hc with hold | ⟨rfl, rfl⟩
      · exact h.generation n c e hold
      cases e with
      | send | recv => rw [End.of, CapId.generation_new, h.next]
    · intro n c hc
      rcases hlast hc with hold | ⟨rfl, rfl⟩
      · exact h.own n c hold
      rw [CapId.index_new, CapId.index_new]
      intro heq
      have hnat := congrArg UInt16.toNat heq
      rw [hsindex, hrindex] at hnat
      exact hne hnat.symm
    · intro n m ch c e e' hch hlt hc
      have hnew : n ≠ a.made.length := by
        rcases hlast hc with hold | ⟨rfl, -⟩
        · have := (List.getElem?_eq_some_iff.1 hold).1
          omega
        · omega
      simp only [update_of_ne hnew] at hch
      rcases hlast hc with hold | ⟨-, rfl⟩
      · exact h.later n m ch c e e' hch hlt hold
      intro heq
      have hep := (href.endpoint n ch e hch).2
      rw [← heq] at hep
      cases e' with
      | send =>
        rw [End.of, CapId.index_new, hsindex] at hep
        rw [hep] at hsend
        contradiction
      | recv =>
        rw [End.of, CapId.index_new, hrindex] at hep
        rw [hep] at hrecv
        contradiction

theorem exec {box : ℕ → ℕ} (h : Dated t a) (href : Refines t a box) (hM : M ≤ 256) (op : Op) :
    Dated (exec t op).2 (a.exec M E D (exec t op).1.names op).2 := by
  by_cases hcreate : ∃ autoReap, op = .create autoReap
  · obtain ⟨autoReap, rfl⟩ := hcreate
    obtain ⟨-, hsame, -⟩ := href.create hM autoReap
    exact h.create href hM autoReap hsame
  have hnot : ∀ autoReap, op ≠ .create autoReap := fun r hr => hcreate ⟨r, hr⟩
  have hnext := exec_nextGen t op hnot
  by_cases hrevoke : ∃ cap, op = .revokeChannel cap
  · obtain ⟨cap, rfl⟩ := hrevoke
    rcases Machine.revoke_cases a cap with heq | ⟨n, ch, w, e, hch, hcap, heq⟩
    · refine h.of_old hnext ?_ ?_
      · simp only [Machine.exec, heq]
      · simp only [Machine.exec, heq]
        exact fun m c hc => ⟨c, hc, rfl⟩
    refine h.of_old hnext ?_ ?_
    · simp only [Machine.exec, heq]
    simp only [Machine.exec, heq]
    intro m c hc
    by_cases hm : m = n
    · subst hm
      rw [update_self] at hc
      contradiction
    · rw [update_of_ne hm] at hc
      exact ⟨c, hc, rfl⟩
  · have hkept := Machine.Kept.exec M E D (Channels.exec t op).1.names a hnot
      fun cap hcap => hrevoke ⟨cap, hcap⟩
    exact h.of_old hnext hkept.made fun n ch' hch' => hkept.old hch'

/-- Within one period no two ends of channels have the same name. -/
theorem ends_inj (h : Dated t a) (hfew : a.made.length ≤ 65535) {n m : ℕ} {c c' : Channel}
    {e e' : End} (hc : a.made[n]? = some c) (hc' : a.made[m]? = some c')
    (hcap : e.of c = e'.of c') : n = m ∧ e = e' := by
  have hn := (List.getElem?_eq_some_iff.1 hc).1
  have hm := (List.getElem?_eq_some_iff.1 hc').1
  have hg := h.generation n c e hc
  rw [hcap, h.generation m c' e' hc'] at hg
  have hnm : n = m := by omega
  subst hnm
  rw [hc, Option.some.injEq] at hc'
  subst hc'
  refine ⟨rfl, ?_⟩
  have hown := h.own n c hc
  cases e with
  | send =>
    cases e' with
    | send => rfl
    | recv => exact absurd (congrArg CapId.index hcap) hown
  | recv =>
    cases e' with
    | send => exact absurd (congrArg CapId.index hcap).symm hown
    | recv => rfl

/-- A channel that is live has no name of one that is not, unless a whole period of creations
lies between. -/
theorem stale (h : Dated t a) {n m : ℕ} {c : Channel} {ch : Chan} {e e' : End}
    (hc : a.made[n]? = some c) (hdead : a.chans n = none)
    (hfew : a.made.length ≤ n + 65535) (hch : a.chans m = some ch)
    (hm : a.made[m]? = some ch.ends) : e'.of ch.ends ≠ e.of c := by
  intro heq
  have hg := h.generation m ch.ends e' hm
  rw [heq, h.generation n c e hc] at hg
  have hlt := (List.getElem?_eq_some_iff.1 hm).1
  rcases Nat.lt_trichotomy m n with hmn | hmn | hmn
  · exact h.later m n ch c e' e hch hmn hc (by rw [heq])
  · rw [hmn, hdead] at hch
    contradiction
  · omega

end Dated

end HarborKernel.Channels
