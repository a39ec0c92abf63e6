import HarborKernel.Ipc
import Mathlib.Data.Finset.Card
import Mathlib.Data.Finset.Range

/-!
What the table of channels is for. Every live channel has a queue of its own that is
bounded by the depth, at most one waiter, a count of send holds and a flag. The
machine knows nothing of mailboxes, endpoints or generations: the names of a new
channel come from outside. Channels are numbered in the order of creation, and each
remembers which messages were accepted and which were handed out.
-/

namespace HarborKernel.Channels

open Function Capability ReadyQueue Ipc

/-- The calls of the table, each with its arguments. -/
inductive Op
  | create (autoReap : Bool)
  | send (cap : CapId) (msg : Message)
  | tryRecv (cap : CapId)
  | park (cap : CapId) (me : TaskId)
  | clearWaiter (id : TaskId)
  | registerHolds (caps : List (Option CapId))
  | releaseHolds (caps : List (Option CapId))
  | revokeChannel (cap : CapId)
  | queued (cap : CapId)

inductive Answer
  | created (r : Except CreateError Channel)
  | sent (r : Except SendError (Option TaskId))
  | received (r : Except RecvError Message)
  | parked (r : Except RecvError (Option Message))
  | cleared (n : ℕ)
  | registered
  | released (out : List TaskId)
  | revoked (r : Except RevokeError (Option TaskId))
  | queued (r : Except QueuedError ℕ)
deriving DecidableEq

def exec {M E D : ℕ} (t : Table M E D) : Op → Answer × Table M E D
  | .create autoReap =>
    let (r, t') := t.createChannelWithAutoReap autoReap
    (.created r, t')
  | .send cap msg =>
    let (r, t') := t.send cap msg
    (.sent r, t')
  | .tryRecv cap =>
    let (r, t') := t.tryRecv cap
    (.received r, t')
  | .park cap me =>
    let (r, t') := t.park cap me
    (.parked r, t')
  | .clearWaiter id => (.cleared (t.clearedWaiters id).toNat, t.clearWaiter id)
  | .registerHolds caps => (.registered, t.registerHolds caps)
  | .releaseHolds caps =>
    let (out, t') := t.releaseHolds caps
    (.released out, t')
  | .revokeChannel cap =>
    let (r, t') := t.revokeChannel cap
    (.revoked r, t')
  | .queued cap => (.queued (t.queued cap), t)

inductive End
  | send
  | recv
deriving DecidableEq

def End.of : End → Channel → CapId
  | .send, c => c.send
  | .recv, c => c.recv

structure Chan where
  ends : Channel
  queue : List Message
  waiter : Option TaskId
  holders : ℕ
  autoReap : Bool
  accepted : List Message
  handedOut : List Message

def Chan.new (ends : Channel) (autoReap : Bool) : Chan := ⟨ends, [], none, 0, autoReap, [], []⟩

/-- All channels made so far, oldest first, and the contents of those that are live. -/
structure Machine where
  made : List Channel
  chans : ℕ → Option Chan

namespace Machine

def start : Machine := ⟨[], fun _ => none⟩

def set (a : Machine) (n : ℕ) (ch : Chan) : Machine :=
  { a with chans := update a.chans n (some ch) }

def named (a : Machine) (e : End) (cap : CapId) : Option (ℕ × Chan) :=
  (List.range a.made.length).findSome? fun n =>
    (a.chans n).bind fun ch => if e.of ch.ends = cap then some (n, ch) else none

def either (a : Machine) (cap : CapId) : Option (ℕ × Chan) :=
  (a.named .send cap).or (a.named .recv cap)

def liveSet (a : Machine) : Finset ℕ :=
  (Finset.range a.made.length).filter fun n => (a.chans n).isSome

def create (mailboxes endpoints : ℕ) (a : Machine) (ends : Channel) (autoReap : Bool) :
    Except CreateError Channel × Machine :=
  if mailboxes ≤ a.liveSet.card then (.error .noMailbox, a)
  else if endpoints < 2 * a.liveSet.card + 2 then (.error .noEndpoint, a)
  else (.ok ends, ⟨a.made ++ [ends],
    update a.chans a.made.length (some (Chan.new ends autoReap))⟩)

def send (depth : ℕ) (a : Machine) (cap : CapId) (msg : Message) :
    Except SendError (Option TaskId) × Machine :=
  match a.named .send cap with
  | none => (.error .badCap, a)
  | some (n, ch) =>
    if ch.queue.length = depth then (.error .full, a)
    else (.ok ch.waiter, a.set n { ch with
      queue := ch.queue ++ [msg], accepted := ch.accepted ++ [msg], waiter := none })

def take (a : Machine) (n : ℕ) (ch : Chan) (msg : Message) (rest : List Message) : Machine :=
  a.set n { ch with queue := rest, handedOut := ch.handedOut ++ [msg] }

def tryRecv (a : Machine) (cap : CapId) : Except RecvError Message × Machine :=
  match a.named .recv cap with
  | none => (.error .badCap, a)
  | some (n, ch) =>
    match ch.queue with
    | [] => (.error .empty, a)
    | msg :: rest => (.ok msg, a.take n ch msg rest)

def park (a : Machine) (cap : CapId) (me : TaskId) : Except RecvError (Option Message) × Machine :=
  match a.named .recv cap with
  | none => (.error .badCap, a)
  | some (n, ch) =>
    match ch.queue with
    | msg :: rest => (.ok (some msg), a.take n ch msg rest)
    | [] =>
      if ch.autoReap ∧ ch.holders = 0 then (.error .cancelled, a)
      else if ch.waiter.any fun existing => existing != me then (.error .busy, a)
      else (.ok none, a.set n { ch with waiter := some me })

def waitsOn (a : Machine) (id : TaskId) (n : ℕ) : Bool :=
  (a.chans n).any fun ch => ch.waiter = some id

def clearWaiter (a : Machine) (id : TaskId) : ℕ × Machine :=
  (((Finset.range a.made.length).filter fun n => a.waitsOn id n).card,
    { a with chans := fun n => (a.chans n).map fun ch =>
        if ch.waiter = some id then { ch with waiter := none } else ch })

def registerHold (a : Machine) (cap : CapId) : Machine :=
  match a.named .send cap with
  | none => a
  | some (n, ch) => a.set n { ch with holders := min (ch.holders + 1) (2 ^ 32 - 1) }

def registerHolds (a : Machine) : List (Option CapId) → Machine
  | [] => a
  | none :: rest => a.registerHolds rest
  | some cap :: rest => (a.registerHold cap).registerHolds rest

def releaseHold (a : Machine) (cap : CapId) : Option TaskId × Machine :=
  match a.named .send cap with
  | none => (none, a)
  | some (n, ch) =>
    if ch.holders ≤ 1 ∧ ch.autoReap then
      (ch.waiter, a.set n { ch with holders := ch.holders - 1, waiter := none })
    else (none, a.set n { ch with holders := ch.holders - 1 })

def releaseHolds (a : Machine) : List (Option CapId) → List TaskId × Machine
  | [] => ([], a)
  | none :: rest => a.releaseHolds rest
  | some cap :: rest =>
    let (waiter, a1) := a.releaseHold cap
    let (out, a2) := a1.releaseHolds rest
    (waiter.toList ++ out, a2)

def revokeChannel (a : Machine) (cap : CapId) : Except RevokeError (Option TaskId) × Machine :=
  match a.either cap with
  | none => (.error .badCap, a)
  | some (n, ch) => (.ok ch.waiter, { a with chans := update a.chans n none })

def queued (a : Machine) (cap : CapId) : Except QueuedError ℕ :=
  match a.either cap with
  | none => .error .badCap
  | some (_, ch) => .ok ch.queue.length

def exec (mailboxes endpoints depth : ℕ) (names : Channel) (a : Machine) : Op → Answer × Machine
  | .create autoReap =>
    let (r, a') := a.create mailboxes endpoints names autoReap
    (.created r, a')
  | .send cap msg =>
    let (r, a') := a.send depth cap msg
    (.sent r, a')
  | .tryRecv cap =>
    let (r, a') := a.tryRecv cap
    (.received r, a')
  | .park cap me =>
    let (r, a') := a.park cap me
    (.parked r, a')
  | .clearWaiter id =>
    let (n, a') := a.clearWaiter id
    (.cleared n, a')
  | .registerHolds caps => (.registered, a.registerHolds caps)
  | .releaseHolds caps =>
    let (out, a') := a.releaseHolds caps
    (.released out, a')
  | .revokeChannel cap =>
    let (r, a') := a.revokeChannel cap
    (.revoked r, a')
  | .queued cap => (.queued (a.queued cap), a)

section Named

variable {a : Machine} {e : End} {cap : CapId} {n : ℕ} {ch : Chan}

theorem named_eq_some (h : a.named e cap = some (n, ch)) :
    a.chans n = some ch ∧ e.of ch.ends = cap := by
  obtain ⟨m, -, hm⟩ := List.exists_of_findSome?_eq_some h
  obtain ⟨ch', hch', hsome⟩ := Option.bind_eq_some_iff.1 hm
  split at hsome
  · rename_i hside
    cases hsome
    exact ⟨hch', hside⟩
  · contradiction

theorem named_eq_none (h : a.named e cap = none) (hlt : n < a.made.length)
    (hch : a.chans n = some ch) : e.of ch.ends ≠ cap := by
  intro hside
  have hnone := List.findSome?_eq_none_iff.1 h n (List.mem_range.2 hlt)
  rw [hch, Option.bind_some, if_pos hside] at hnone
  contradiction

theorem either_eq_some (h : a.either cap = some (n, ch)) :
    a.chans n = some ch ∧ ∃ e : End, e.of ch.ends = cap := by
  rcases Option.or_eq_some_iff.1 h with hs | ⟨-, hr⟩
  · exact ⟨(named_eq_some hs).1, .send, (named_eq_some hs).2⟩
  · exact ⟨(named_eq_some hr).1, .recv, (named_eq_some hr).2⟩

theorem either_eq_none (h : a.either cap = none) (hlt : n < a.made.length)
    (hch : a.chans n = some ch) (e : End) : e.of ch.ends ≠ cap := by
  obtain ⟨hs, hr⟩ := Option.or_eq_none_iff.1 h
  cases e with
  | send => exact named_eq_none hs hlt hch
  | recv => exact named_eq_none hr hlt hch

end Named

def All (P : Chan → Prop) (a : Machine) : Prop := ∀ n ch, a.chans n = some ch → P ch

theorem All.update {P : Chan → Prop} {a a' : Machine} (h : a.All P) {n : ℕ} {ch : Option Chan}
    (hchans : a'.chans = update a.chans n ch) (hch : ∀ c, ch = some c → P c) :
    a'.All P := by
  intro m c hm
  rw [hchans] at hm
  by_cases hmn : m = n
  · subst hmn
    rw [update_self] at hm
    exact hch c hm
  · rw [update_of_ne hmn] at hm
    exact h m c hm

theorem All.set {P : Chan → Prop} {a : Machine} (h : a.All P) (n : ℕ) {ch : Chan} (hch : P ch) :
    (a.set n ch).All P := by
  refine h.update rfl ?_
  intro c hc
  cases hc
  exact hch

end Machine

/-- What holds of a channel at all times: its queue fits, the messages handed out are the
first of those accepted, and nobody waits at a queue that has a message. -/
structure Chan.Ok (depth : ℕ) (ch : Chan) : Prop where
  fits : ch.queue.length ≤ depth
  order : ch.handedOut ++ ch.queue = ch.accepted
  idle : ch.waiter.isSome → ch.queue = []

namespace Machine

variable {depth : ℕ} {a : Machine}

section

variable (h : a.All (Chan.Ok depth))
include h

theorem ok_take {n : ℕ} {ch : Chan} (hch : a.chans n = some ch)
    {msg : Message} {rest : List Message} (hq : ch.queue = msg :: rest) :
    (a.take n ch msg rest).All (Chan.Ok depth) := by
  have hok := h n ch hch
  refine h.set n ⟨?_, ?_, ?_⟩
  · have := hok.fits
    rw [hq, List.length_cons] at this
    exact Nat.le_of_succ_le this
  · rw [← hok.order, hq]
    simp
  · intro hw
    have := hok.idle hw
    rw [hq] at this
    contradiction

theorem ok_send (cap : CapId) (msg : Message) :
    (a.send depth cap msg).2.All (Chan.Ok depth) := by
  unfold send
  split
  · exact h
  rename_i n ch hn
  have hok := h n ch (named_eq_some hn).1
  split
  · exact h
  rename_i hfull
  refine h.set n ⟨?_, ?_, nofun⟩
  · have := hok.fits
    simp only [List.length_append, List.length_singleton]
    omega
  · simp only
    rw [← hok.order, List.append_assoc]

theorem ok_tryRecv (cap : CapId) :
    (a.tryRecv cap).2.All (Chan.Ok depth) := by
  unfold tryRecv
  split
  · exact h
  rename_i n ch hn
  split
  · exact h
  · rename_i hq
    exact ok_take h (named_eq_some hn).1 hq

theorem ok_park (cap : CapId) (me : TaskId) :
    (a.park cap me).2.All (Chan.Ok depth) := by
  unfold park
  split
  · exact h
  rename_i n ch hn
  split
  · rename_i hq
    exact ok_take h (named_eq_some hn).1 hq
  rename_i hq
  split
  · exact h
  split
  · exact h
  · have hok := h n ch (named_eq_some hn).1
    exact h.set n ⟨hok.fits, hok.order, fun _ => hq⟩

end

/-- What setting the counter and taking the waiter of a channel keeps, a row of holds keeps. -/
theorem holds_rule {P : Machine → Prop} {caps : List (Option CapId)}
    (hset : ∀ {a n ch cap}, P a → some cap ∈ caps → a.named .send cap = some (n, ch) →
      ∀ holders waiter, waiter = ch.waiter ∨ waiter = none →
        P (a.set n { ch with holders, waiter })) :
    ∀ a, P a → P (a.registerHolds caps) ∧ P (a.releaseHolds caps).2 := by
  induction caps with
  | nil => exact fun _ h => ⟨h, h⟩
  | cons slot rest ih =>
    intro a h
    have hrest := ih fun ha hmem => hset ha (List.mem_cons_of_mem _ hmem)
    cases slot with
    | none => exact hrest a h
    | some cap =>
      have hmem : some cap ∈ some cap :: rest := List.mem_cons_self ..
      refine ⟨(hrest _ ?_).1, (hrest (a.releaseHold cap).2 ?_).2⟩
      · unfold registerHold
        split
        · exact h
        rename_i n ch hn
        exact hset h hmem hn _ _ (.inl rfl)
      · unfold releaseHold
        split
        · exact h
        rename_i n ch hn
        split
        · exact hset h hmem hn _ _ (.inr rfl)
        · exact hset h hmem hn _ _ (.inl rfl)

theorem ok_holds (h : a.All (Chan.Ok depth)) (caps : List (Option CapId)) :
    (a.registerHolds caps).All (Chan.Ok depth) ∧
      (a.releaseHolds caps).2.All (Chan.Ok depth) := by
  refine holds_rule (P := All (Chan.Ok depth)) ?_ a h
  intro a n ch cap h _ hn holders waiter hwaiter
  have hok := h n ch (named_eq_some hn).1
  refine h.set n ⟨hok.fits, hok.order, ?_⟩
  rcases hwaiter with rfl | rfl
  · exact hok.idle
  · nofun

theorem ok_exec (h : a.All (Chan.Ok depth)) (mailboxes endpoints : ℕ) (names : Channel) (op : Op) :
    (a.exec mailboxes endpoints depth names op).2.All (Chan.Ok depth) := by
  cases op with
  | create autoReap =>
    simp only [exec, create]
    split
    · exact h
    split
    · exact h
    refine h.update rfl ?_
    intro c hc
    cases hc
    exact ⟨Nat.zero_le _, rfl, nofun⟩
  | send cap msg => exact ok_send h cap msg
  | tryRecv cap => exact ok_tryRecv h cap
  | park cap me => exact ok_park h cap me
  | clearWaiter id =>
    intro n ch hch
    obtain ⟨old, hold, rfl⟩ := Option.map_eq_some_iff.1 hch
    have hok := h n old hold
    split
    · exact ⟨hok.fits, hok.order, nofun⟩
    · exact hok
  | registerHolds caps => exact (ok_holds h caps).1
  | releaseHolds caps => exact (ok_holds h caps).2
  | revokeChannel cap =>
    simp only [exec, revokeChannel]
    split
    · exact h
    · exact h.update rfl nofun
  | queued cap => exact h

end Machine

def Op.Touches (ch : Chan) : Op → Prop
  | .create _ => False
  | .send cap _ => cap = ch.ends.send
  | .tryRecv cap => cap = ch.ends.recv
  | .park cap _ => cap = ch.ends.recv
  | .clearWaiter id => ch.waiter = some id
  | .registerHolds caps => some ch.ends.send ∈ caps
  | .releaseHolds caps => some ch.ends.send ∈ caps
  | .revokeChannel cap => cap = ch.ends.send ∨ cap = ch.ends.recv
  | .queued _ => False

namespace Machine

variable {a : Machine} {n : ℕ} {ch : Chan}

theorem update_of_other (hch : a.chans n = some ch) {m : ℕ} {c : Chan}
    (hc : a.chans m = some c) {e : End} (hne : e.of c.ends ≠ e.of ch.ends) (c' : Option Chan) :
    update a.chans m c' n = some ch := by
  have hnm : n ≠ m := by
    intro hnm
    rw [← hnm, hch, Option.some.injEq] at hc
    rw [hc] at hne
    exact hne rfl
  rw [update_of_ne hnm]
  exact hch

theorem holds_frame (hch : a.chans n = some ch) {caps : List (Option CapId)}
    (hcaps : some ch.ends.send ∉ caps) :
    (a.registerHolds caps).chans n = some ch ∧ (a.releaseHolds caps).2.chans n = some ch := by
  refine holds_rule (P := fun a => a.chans n = some ch) ?_ a hch
  intro a m c cap hch hmem hm _ _ _
  obtain ⟨hc, hcap⟩ := named_eq_some hm
  refine update_of_other hch hc (e := .send) ?_ _
  rw [hcap]
  rintro rfl
  exact hcaps hmem

/-- A call about other channels leaves this one as it was. -/
theorem exec_frame (hch : a.chans n = some ch) (hlt : n < a.made.length) {op : Op}
    (hop : ¬ op.Touches ch) (mailboxes endpoints depth : ℕ) (names : Channel) :
    (a.exec mailboxes endpoints depth names op).2.chans n = some ch := by
  cases op with
  | create autoReap =>
    simp only [exec, create]
    split
    · exact hch
    split
    · exact hch
    simp only
    rw [update_of_ne (Nat.ne_of_lt hlt)]
    exact hch
  | send cap msg =>
    simp only [exec, send]
    split
    · exact hch
    rename_i m c hm
    obtain ⟨hc, rfl⟩ := named_eq_some hm
    split
    · exact hch
    · exact update_of_other hch hc hop _
  | tryRecv cap =>
    simp only [exec, tryRecv]
    split
    · exact hch
    rename_i m c hm
    obtain ⟨hc, rfl⟩ := named_eq_some hm
    split
    · exact hch
    · exact update_of_other hch hc hop _
  | park cap me =>
    simp only [exec, park]
    split
    · exact hch
    rename_i m c hm
    obtain ⟨hc, rfl⟩ := named_eq_some hm
    split
    · exact update_of_other hch hc hop _
    split
    · exact hch
    split
    · exact hch
    · exact update_of_other hch hc hop _
  | clearWaiter id =>
    have hno : ¬ ch.waiter = some id := hop
    simp only [exec, clearWaiter, hch, Option.map_some, if_neg hno]
  | registerHolds caps => exact (holds_frame hch hop).1
  | releaseHolds caps => exact (holds_frame hch hop).2
  | revokeChannel cap =>
    simp only [exec, revokeChannel]
    split
    · exact hch
    rename_i m c hm
    obtain ⟨hc, e, rfl⟩ := either_eq_some hm
    refine update_of_other hch hc (e := e) ?_ _
    intro heq
    refine hop ?_
    cases e with
    | send => exact .inl heq
    | recv => exact .inr heq
  | queued cap => exact hch

end Machine

end HarborKernel.Channels
