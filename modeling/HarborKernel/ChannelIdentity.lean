import HarborKernel.ChannelRuns

/-!
What holds along every run of the table: it refines the machine of channels, and a
capability is accepted exactly while it is an end of a channel that was created and
not revoked. A table of more than 256 mailboxes is different: endpoints keep the number
of their mailbox in a byte, and two channels come to share one.
-/

namespace HarborKernel.Channels

open Function Capability ReadyQueue Ipc Transition

variable {M E D : ℕ}

structure Good (s : Run M E D) : Prop where
  refines : ∃ box, Refines s.table s.machine box
  ok : s.machine.All (Chan.Ok D)
  dated : Dated s.table s.machine
  made : s.history.made = s.machine.made
  revoked : ∀ n, s.history.revoked n = true ↔
    n < s.machine.made.length ∧ s.machine.chans n = none

namespace Good

variable {s s' : Run M E D}

theorem start : Good (Run.start : Run M E D) where
  refines := ⟨_, Refines.start⟩
  ok := nofun
  dated := Dated.start
  made := rfl
  revoked := fun _ => ⟨nofun, nofun⟩

theorem step_create (h : Good s) (hM : M ≤ 256) (autoReap : Bool) :
    (s.history.note (.create autoReap) (exec s.table (.create autoReap)).1).made =
        (s.expected (.create autoReap)).2.made ∧
    ∀ n, (s.history.note (.create autoReap) (exec s.table (.create autoReap)).1).revoked n = true ↔
      n < (s.expected (.create autoReap)).2.made.length ∧
        (s.expected (.create autoReap)).2.chans n = none := by
  obtain ⟨box, href⟩ := h.refines
  obtain ⟨-, hsame, -⟩ := href.create hM autoReap
  simp only [Run.expected, exec, Machine.exec, Answer.names]
  cases hr : (s.table.createChannelWithAutoReap autoReap).1 with
  | error err =>
    rw [hr] at hsame
    have hstay : s.machine.create M E (namesOf (.error err)) autoReap =
        (.error err, s.machine) := by
      unfold Machine.create at hsame ⊢
      split
      · rename_i hfull
        rw [if_pos hfull] at hsame
        rw [hsame]
      rename_i hfull
      rw [if_neg hfull] at hsame
      split
      · rename_i hep
        rw [if_pos hep] at hsame
        rw [hsame]
      rename_i hep
      rw [if_neg hep] at hsame
      contradiction
    rw [hstay]
    exact ⟨h.made, h.revoked⟩
  | ok names =>
    rw [hr] at hsame
    have hadd : (s.machine.create M E (namesOf (.ok names)) autoReap).2 =
        ⟨s.machine.made ++ [names], update s.machine.chans s.machine.made.length
          (some (Chan.new names autoReap))⟩ := by
      unfold Machine.create at hsame ⊢
      split
      · rename_i hfull
        rw [if_pos hfull] at hsame
        contradiction
      rename_i hfull
      rw [if_neg hfull] at hsame
      split
      · rename_i hep
        rw [if_pos hep] at hsame
        contradiction
      · rfl
    rw [hadd]
    refine ⟨congrArg (· ++ [names]) h.made, fun n => ?_⟩
    simp only [History.note]
    rw [h.revoked n, List.length_append, List.length_singleton]
    by_cases hn : n = s.machine.made.length
    · subst hn
      simp
    rw [update_of_ne hn]
    constructor
    · exact fun hx => ⟨by omega, hx.2⟩
    · exact fun hx => ⟨by omega, hx.2⟩

theorem step_revoke (h : Good s) (hM : M ≤ 256) (cap : CapId) :
    (s.history.note (.revokeChannel cap) (exec s.table (.revokeChannel cap)).1).made =
        (s.expected (.revokeChannel cap)).2.made ∧
    ∀ n, (s.history.note (.revokeChannel cap) (exec s.table (.revokeChannel cap)).1).revoked n =
        true ↔ n < (s.expected (.revokeChannel cap)).2.made.length ∧
          (s.expected (.revokeChannel cap)).2.chans n = none := by
  obtain ⟨box, href⟩ := h.refines
  have hsame := (href.revokeChannel hM cap).1
  simp only [Run.expected, exec, Machine.exec, hsame]
  rcases Machine.revoke_cases s.machine cap with heq | ⟨n, ch, w, e, hch, hcap, heq⟩
  · rw [heq]
    exact ⟨h.made, h.revoked⟩
  rw [heq]
  refine ⟨h.made, fun m => ?_⟩
  simp only [History.note, Bool.or_eq_true]
  rw [h.revoked m, h.made]
  -- the end of a channel tells which of its two names the capability is
  have hany : ∀ c : Channel, ((c.send = cap || c.recv = cap) = true) ↔ ∃ e : End, e.of c = cap := by
    intro c
    rw [Bool.or_eq_true, decide_eq_true_iff, decide_eq_true_iff]
    constructor
    · intro hor
      rcases hor with hs | hr
      · exact ⟨.send, hs⟩
      · exact ⟨.recv, hr⟩
    · intro hex
      obtain ⟨e, he⟩ := hex
      cases e with
      | send => exact .inl he
      | recv => exact .inr he
  rw [Option.any_eq_true]
  simp only [hany]
  by_cases hm : m = n
  · subst hm
    have hborn := href.born hch
    rw [update_self]
    exact ⟨fun _ => ⟨hborn, rfl⟩, fun _ => .inr ⟨ch.ends, href.made m ch hch, e, hcap⟩⟩
  rw [update_of_ne hm]
  constructor
  · intro hor
    rcases hor with hold | ⟨c, hc, e', he'⟩
    · exact hold
    refine ⟨(List.getElem?_eq_some_iff.1 hc).1, ?_⟩
    cases hlive : s.machine.chans m with
    | none => rfl
    | some ch' =>
      have hends := href.made m ch' hlive
      rw [hc, Option.some.injEq] at hends
      have hidx : (e'.of ch'.ends).index.toNat = (e.of ch.ends).index.toNat := by
        rw [← hends, he', hcap]
      exact absurd (href.index_inj hM hlive hch hidx).1 hm
  · exact .inl

theorem step (h : Good s) (hM : M ≤ 256) {op : Op}
    (hstep : s.step op = some s') : Good s' := by
  obtain ⟨box, href⟩ := h.refines
  cases hstep
  have hrefines := href.exec hM op
  have hhistory : (s.history.note op (exec s.table op).1).made = (s.expected op).2.made ∧
      ∀ n, (s.history.note op (exec s.table op).1).revoked n = true ↔
        n < (s.expected op).2.made.length ∧ (s.expected op).2.chans n = none := by
    by_cases hcreate : ∃ autoReap, op = .create autoReap
    · obtain ⟨autoReap, rfl⟩ := hcreate
      exact h.step_create hM autoReap
    by_cases hrevoke : ∃ cap, op = .revokeChannel cap
    · obtain ⟨cap, rfl⟩ := hrevoke
      exact h.step_revoke hM cap
    have hkept := Machine.Kept.exec M E D (exec s.table op).1.names s.machine
      (fun r hr => hcreate ⟨r, hr⟩) (fun cap hcap => hrevoke ⟨cap, hcap⟩)
    have hnote : s.history.note op (exec s.table op).1 = s.history := by
      cases op with
      | create autoReap => exact absurd ⟨autoReap, rfl⟩ hcreate
      | revokeChannel cap => exact absurd ⟨cap, rfl⟩ hrevoke
      | _ => rfl
    rw [hnote]
    refine ⟨h.made.trans hkept.made.symm, fun n => ?_⟩
    rw [h.revoked n, Run.expected, hkept.made, hkept.none_iff]
  obtain ⟨box', -, href'⟩ := hrefines
  exact ⟨⟨box', href'⟩, Machine.ok_exec h.ok M E _ op, h.dated.exec href hM op,
    hhistory.1, hhistory.2⟩

theorem of_reached (hM : M ≤ 256) (h : s.Reached) : Good s := by
  refine Reach.invariant ?_ ?_ h
  · intro s hs
    rw [hs]
    exact Good.start
  · intro s op s' hs _ hstep
    exact hs.step hM hstep

end Good

section Refinement

variable {s : Run M E D}

/-- A live mailbox is named by one endpoint with the given right. -/
def NamedOnce (t : Table M E D) (i : ℕ) (need : CapRights) : Prop :=
  ∃ j, (j < E ∧ (t.eps j).live = true ∧ (t.eps j).mailbox.toNat = i ∧ (t.eps j).rights = need) ∧
    ∀ k, k < E → (t.eps k).live = true → (t.eps k).mailbox.toNat = i →
      (t.eps k).rights = need → k = j

theorem End.right_inj {e e' : End} (h : e.right = e'.right) : e = e' := by
  have hself := (End.contains_right e e).2 rfl
  nth_rewrite 2 [h] at hself
  exact (End.contains_right e e').1 hself

variable {t : Table M E D} {a : Machine} {box : ℕ → ℕ} {i : ℕ}

theorem Refines.namedOnce (h : Refines t a box) (hM : M ≤ 256) (hi : i < M)
    (hlive : (t.boxes i).live = true) (e : End) : NamedOnce t i e.right := by
  obtain ⟨n, ch, hch, rfl⟩ := h.boxes i hi hlive
  obtain ⟨hlt, heps⟩ := h.endpoint n ch e hch
  refine ⟨_, ⟨hlt, by rw [heps], ?_, by rw [heps]⟩, ?_⟩
  · rw [heps]
    exact h.mailbox_toNat hM hch
  intro k hk hkl hbox hright
  obtain ⟨m, c, e', hc, rfl⟩ := h.eps k hk hkl
  rw [(h.endpoint m c e' hc).2] at hbox hright
  have he : e' = e := End.right_inj hright
  have hbx : box m = box n := (h.mailbox_toNat hM hc).symm.trans hbox
  have hm := h.box_inj m n c ch hc hch hbx
  subst hm
  rw [hc, Option.some.injEq] at hch
  rw [he, hch]

theorem Refines.live_ep (h : Refines t a box) (hM : M ≤ 256) {j : ℕ} (hj : j < E)
    (hlive : (t.eps j).live = true) :
    (t.eps j).mailbox.toNat < M ∧ (t.boxes (t.eps j).mailbox.toNat).live = true ∧
    ((t.eps j).rights = .SEND ∨ (t.eps j).rights = .RECV) := by
  obtain ⟨n, ch, e, hch, rfl⟩ := h.eps j hj hlive
  have hbox : (t.eps (e.of ch.ends).index.toNat).mailbox.toNat = box n := by
    rw [(h.endpoint n ch e hch).2]
    exact h.mailbox_toNat hM hch
  rw [hbox, (h.endpoint n ch e hch).2]
  refine ⟨h.box_lt n ch hch, (h.stores n ch hch).live, ?_⟩
  cases e with
  | send => exact .inl rfl
  | recv => exact .inr rfl

theorem Good.waiter_len (h : Good s) (hi : i < M) (hw : (s.table.boxes i).waiter ≠ none) :
    (s.table.boxes i).len = 0 := by
  obtain ⟨box, href⟩ := h.refines
  have hlive : (s.table.boxes i).live = true := by
    by_contra hdead
    exact hw (href.dead i hi (Bool.eq_false_of_not_eq_true hdead))
  obtain ⟨n, ch, hch, rfl⟩ := href.boxes i hi hlive
  have hs := href.stores n ch hch
  rw [hs.waiter] at hw
  rw [hs.queue.len_eq, (h.ok n ch hch).idle (Option.isSome_iff_ne_none.2 hw)]
  rfl

/-- The table is the machine of channels: the answers agree call by call, each channel is kept
in a mailbox and two endpoints of its own, hands out the messages it accepted in their order
and is changed by the calls about it only. -/
theorem table_refines_channels (hM : M ≤ 256) (hs : s.Reached) :
    (∀ op, (exec s.table op).1 = (s.expected op).1) ∧
    (∃ box, Refines s.table s.machine box) ∧
    (s.machine.made.length < 65535 → ∀ (n m : ℕ) (c c' : Channel) (e e' : End),
      s.machine.made[n]? = some c → s.machine.made[m]? = some c' → e.of c = e'.of c' →
      n = m ∧ e = e') ∧
    (∀ n ch, s.machine.chans n = some ch → ch.Ok D) ∧
    (∀ n ch op, s.machine.chans n = some ch → ¬ op.Touches ch →
      (s.expected op).2.chans n = some ch) ∧
    (∀ i, i < M → (s.table.boxes i).waiter ≠ none → (s.table.boxes i).len = 0) ∧
    (∀ j, j < E → (s.table.eps j).live = true → (s.table.eps j).mailbox.toNat < M ∧
      (s.table.boxes (s.table.eps j).mailbox.toNat).live = true ∧
      ((s.table.eps j).rights = .SEND ∨ (s.table.eps j).rights = .RECV)) ∧
    (∀ i, i < M → (s.table.boxes i).live = true →
      NamedOnce s.table i .SEND ∧ NamedOnce s.table i .RECV) := by
  have hgood := Good.of_reached hM hs
  obtain ⟨box, href⟩ := hgood.refines
  refine ⟨?_, ⟨box, href⟩, ?_, hgood.ok, ?_, ?_, ?_, ?_⟩
  · intro op
    obtain ⟨-, hanswer, -⟩ := href.exec hM op
    exact hanswer
  · intro hfew n m c c' e e' hc hc' hcap
    exact hgood.dated.ends_inj (by omega) hc hc' hcap
  · intro n ch op hch hop
    exact Machine.exec_frame hch (href.born hch) hop M E D _
  · exact fun i hi hw => hgood.waiter_len hi hw
  · exact fun j hj hl => href.live_ep hM hj hl
  · exact fun i hi hl => ⟨href.namedOnce hM hi hl .send, href.namedOnce hM hi hl .recv⟩

/-- A table of the kernel's size. Of three channels the second was revoked and the third stands in
its place; the first has accepted two messages and handed out one. -/
theorem table_refines_channels_reused : ∃ (s : Run 16 32 4) (ch : Chan), s.Reached ∧
    s.history.revoked 1 = true ∧ s.machine.made.map (·.send.index) = [0, 2, 2] ∧
    s.machine.chans 0 = some ch ∧ ch.handedOut = [⟨1, 0, 0⟩] ∧ ch.Ok 4 ∧
    (∀ op, (exec s.table op).1 = (s.expected op).1) ∧
    (∀ c c', s.machine.made[1]? = some c → s.machine.made[2]? = some c' → c.send ≠ c'.send) ∧
    ∀ msg, (s.expected (.send (CapId.new 2 3) msg)).2.chans 0 = some ch := by
  have hstart : (Run.start : Run 16 32 4).Reached := Reach.start rfl
  obtain ⟨s, hreach, hrevoked, hmade, hfirst⟩ := hstart.exists_run
    [.create false, .create false, .send (CapId.new 0 1) ⟨1, 0, 0⟩,
      .send (CapId.new 0 1) ⟨2, 0, 0⟩, .tryRecv (CapId.new 1 1),
      .revokeChannel (CapId.new 2 2), .create false]
    (P := fun s => s.history.revoked 1 = true ∧ s.machine.made = [⟨CapId.new 0 1, CapId.new 1 1⟩,
        ⟨CapId.new 2 2, CapId.new 3 2⟩, ⟨CapId.new 2 3, CapId.new 3 3⟩] ∧
      (s.machine.chans 0).map (fun ch => (ch.ends, ch.handedOut)) =
        some (⟨CapId.new 0 1, CapId.new 1 1⟩, [⟨1, 0, 0⟩])) (by decide +kernel)
  obtain ⟨ch, hch, hparts⟩ := Option.map_eq_some_iff.1 hfirst
  obtain ⟨hends, hout⟩ := Prod.mk.inj hparts
  obtain ⟨hanswers, -, hnames, hok, hframe, -⟩ := table_refines_channels (by decide) hreach
  refine ⟨s, ch, hreach, hrevoked, by rw [hmade]; rfl, hch, hout, hok 0 ch hch, hanswers, ?_, ?_⟩
  · intro c c' hc hc' hsame
    have hone := (hnames (by rw [hmade]; decide) 1 2 c c' .send .send hc hc' hsame).1
    omega
  · intro msg
    refine hframe 0 ch _ hch ?_
    simp only [Op.Touches, hends]
    decide

end Refinement

section Resolution

variable {s : Run M E D}

theorem Good.open_iff (h : Good s) (e : End) (cap : CapId) :
    s.history.Open e cap ↔ ∃ n ch, s.machine.chans n = some ch ∧ e.of ch.ends = cap := by
  obtain ⟨box, href⟩ := h.refines
  constructor
  · intro hopen
    obtain ⟨n, c, hc, hrev, hcap⟩ := hopen
    rw [h.made] at hc
    cases hch : s.machine.chans n with
    | none =>
      have hlt := (List.getElem?_eq_some_iff.1 hc).1
      rw [(h.revoked n).2 ⟨hlt, hch⟩] at hrev
      contradiction
    | some ch =>
      have hends := href.made n ch hch
      rw [hc, Option.some.injEq] at hends
      exact ⟨n, ch, hch, by rw [← hends]; exact hcap⟩
  · intro hlive
    obtain ⟨n, ch, hch, hcap⟩ := hlive
    refine ⟨n, ch.ends, h.made ▸ href.made n ch hch, ?_, hcap⟩
    by_contra hrev
    have hnone := ((h.revoked n).1 (Bool.eq_true_of_not_eq_false hrev)).2
    rw [hch] at hnone
    contradiction

theorem Good.named_iff (h : Good s) (e : End) (cap : CapId) :
    s.machine.named e cap ≠ none ↔ s.history.Open e cap := by
  rw [h.open_iff]
  obtain ⟨box, href⟩ := h.refines
  constructor
  · intro hn
    obtain ⟨⟨n, ch⟩, hsome⟩ := Option.ne_none_iff_exists'.1 hn
    exact ⟨n, ch, Machine.named_eq_some hsome⟩
  · intro hlive hn
    obtain ⟨n, ch, hch, hcap⟩ := hlive
    exact Machine.named_eq_none hn (href.born hch) hch hcap

theorem Good.either_iff (h : Good s) (cap : CapId) :
    s.machine.either cap ≠ none ↔ s.history.Open .send cap ∨ s.history.Open .recv cap := by
  rw [← h.named_iff, ← h.named_iff, Machine.either, ne_eq, Option.or_eq_none_iff, not_and_or]

end Resolution

namespace Machine

variable (a : Machine) (cap : CapId)

theorem send_bad_iff (depth : ℕ) (msg : Message) :
    (a.send depth cap msg).1 ≠ .error .badCap ↔ a.named .send cap ≠ none := by
  unfold Machine.send
  cases a.named .send cap with
  | none => simp
  | some p =>
    simp only
    split <;> simp

theorem tryRecv_bad_iff :
    (a.tryRecv cap).1 ≠ .error .badCap ↔ a.named .recv cap ≠ none := by
  unfold Machine.tryRecv
  cases a.named .recv cap with
  | none => simp
  | some p =>
    simp only
    split <;> simp

theorem park_bad_iff (me : TaskId) :
    (a.park cap me).1 ≠ .error .badCap ↔ a.named .recv cap ≠ none := by
  unfold Machine.park
  cases a.named .recv cap with
  | none => simp
  | some p =>
    simp only
    split
    · simp
    split
    · simp
    · split <;> simp

theorem revoke_bad_iff :
    (a.revokeChannel cap).1 ≠ .error .badCap ↔ a.either cap ≠ none := by
  unfold Machine.revokeChannel
  cases a.either cap <;> simp

end Machine

/-- Every call refuses the capability, and holds of it are not counted. -/
structure Refused (t : Table M E D) (cap : CapId) : Prop where
  send : ∀ msg, (t.send cap msg).1 = .error .badCap
  tryRecv : (t.tryRecv cap).1 = .error .badCap
  park : ∀ me, (t.park cap me).1 = .error .badCap
  revoke : (t.revokeChannel cap).1 = .error .badCap
  queued : t.queued cap = .error .badCap
  register : t.registerHolds [some cap] = t
  release : t.releaseHolds [some cap] = ([], t)

section Resolution

variable {s : Run M E D}

theorem Good.refused (h : Good s) (hM : M ≤ 256) {cap : CapId}
    (hclosed : ∀ e, ¬ s.history.Open e cap) : Refused s.table cap := by
  obtain ⟨box, href⟩ := h.refines
  have hnone : ∀ e, s.machine.named e cap = none := fun e => by
    have := mt (h.named_iff e cap).1 (hclosed e)
    exact not_not.1 this
  have heither : s.machine.either cap = none := by
    rw [Machine.either, hnone, hnone]
    rfl
  have hlookup : ∀ e : End, s.table.lookup cap e.right = none := by
    intro e
    rw [href.lookup hM, hnone]
    rfl
  have hsend : s.table.lookup cap .SEND = none := hlookup .send
  refine ⟨fun msg => ?_, ?_, fun me => ?_, ?_, ?_, ?_, ?_⟩
  · rw [(href.send hM cap msg).1, Machine.send, hnone]
  · rw [(href.tryRecv hM cap).1, Machine.tryRecv, hnone]
  · rw [(href.park hM cap me).1, Machine.park, hnone]
  · rw [(href.revokeChannel hM cap).1, Machine.revokeChannel, heither]
  · rw [href.queued hM cap, Machine.queued, heither]
  · simp only [Table.registerHolds, Table.registerHold, hsend]
  · simp only [Table.releaseHolds, Table.releaseHold, hsend, Option.toList_none, List.nil_append]

/-- A capability is good for a call exactly while it is that end of a channel created before
and not revoked, and a revoked one stays refused for a period of 65535 creations. -/
theorem capability_resolves_iff_open (hM : M ≤ 256) (hs : s.Reached)
    (cap : CapId) :
    (∀ msg, (s.table.send cap msg).1 ≠ .error .badCap ↔ s.history.Open .send cap) ∧
    ((s.table.tryRecv cap).1 ≠ .error .badCap ↔ s.history.Open .recv cap) ∧
    (∀ me, (s.table.park cap me).1 ≠ .error .badCap ↔ s.history.Open .recv cap) ∧
    ((s.table.revokeChannel cap).1 ≠ .error .badCap ↔
      s.history.Open .send cap ∨ s.history.Open .recv cap) ∧
    ∀ (n : ℕ) (c : Channel) (e : End), s.history.made[n]? = some c → e.of c = cap →
      s.history.revoked n = true → s.history.made.length - (n + 1) < 65535 →
      Refused s.table cap := by
  have h := Good.of_reached hM hs
  obtain ⟨box, href⟩ := h.refines
  refine ⟨fun msg => ?_, ?_, fun me => ?_, ?_, ?_⟩
  · rw [(href.send hM cap msg).1, Machine.send_bad_iff, h.named_iff]
  · rw [(href.tryRecv hM cap).1, Machine.tryRecv_bad_iff, h.named_iff]
  · rw [(href.park hM cap me).1, Machine.park_bad_iff, h.named_iff]
  · rw [(href.revokeChannel hM cap).1, Machine.revoke_bad_iff, h.either_iff]
  · intro n c e hc hcap hrev hfew
    refine h.refused hM fun e' hopen => ?_
    rw [h.open_iff] at hopen
    obtain ⟨m, ch, hch, hname⟩ := hopen
    have hdead := ((h.revoked n).1 hrev).2
    rw [h.made] at hc hfew
    exact h.dated.stale hc hdead (by omega) hch (href.made m ch hch) (hname.trans hcap.symm)

end Resolution

/-- The first channel of a table of the kernel's size, revoked. -/
theorem capability_resolves_iff_open_revoked : ∃ (s : Run 16 32 4) (c : Channel), s.Reached ∧
    s.history.made[0]? = some c ∧ s.history.revoked 0 = true ∧ Refused s.table c.send := by
  have hreach : Run.Reached (M := 16) (E := 32) (D := 4) _ :=
    Reach.next (l := .revokeChannel (CapId.new 0 1))
      (Reach.next (l := .create false) (Reach.start rfl) trivial rfl) trivial rfl
  refine ⟨_, ⟨CapId.new 0 1, CapId.new 1 1⟩, hreach, by decide, by decide, ?_⟩
  have hall := capability_resolves_iff_open (by decide) hreach (CapId.new 0 1)
  exact hall.2.2.2.2 0 ⟨CapId.new 0 1, CapId.new 1 1⟩ .send (by decide) rfl (by decide) (by decide)

section Aliased

def fillNames (i : ℕ) : Channel :=
  ⟨CapId.new (UInt16.ofNat (2 * i)) (UInt16.ofNat (i + 1)),
    CapId.new (UInt16.ofNat (2 * i + 1)) (UInt16.ofNat (i + 1))⟩

structure Filled (k : ℕ) (s : Run 257 514 1) : Prop where
  boxes : ∀ i, i < 257 → (s.table.boxes i).live = decide (i < k)
  eps : ∀ i, i < 514 → s.table.eps i = if i < 2 * k then
    ⟨true, UInt16.ofNat (i / 2 + 1), if i % 2 = 0 then .SEND else .RECV, UInt8.ofNat (i / 2)⟩
    else Endpoint.empty
  next : s.table.nextGen = UInt16.ofNat (k + 1)
  made : s.history.made = (List.range k).map fillNames
  revoked : ∀ n, s.history.revoked n = false

theorem Filled.create {k : ℕ} {s : Run 257 514 1} (h : Filled k s) (hk : k < 257) :
    ∃ s', s.step (.create false) = some s' ∧ Filled (k + 1) s' := by
  have hlive : ∀ i, i < 514 → (s.table.eps i).live = decide (i < 2 * k) := by
    intro i hi
    rw [h.eps i hi]
    by_cases hik : i < 2 * k
    · rw [if_pos hik, decide_eq_true hik]
    · rw [if_neg hik, decide_eq_false hik]
      rfl
  have hmb : (List.range 257).find? (fun i => !(s.table.boxes i).live) = some k := by
    rw [List.find?_range_eq_some]
    refine ⟨?_, List.mem_range.2 hk, fun j hj => ?_⟩
    · rw [h.boxes k hk]
      simp
    · rw [h.boxes j (by omega)]
      simp [hj]
  have hsend : (List.range 514).find? (fun i => !(s.table.eps i).live) = some (2 * k) := by
    rw [List.find?_range_eq_some]
    refine ⟨?_, List.mem_range.2 (by omega), fun j hj => ?_⟩
    · rw [hlive _ (by omega)]
      simp
    · rw [hlive j (by omega)]
      simp [hj]
  have hrecv : (List.range 514).find? (fun i => !(s.table.eps i).live && i != 2 * k) =
      some (2 * k + 1) := by
    rw [List.find?_range_eq_some]
    refine ⟨?_, List.mem_range.2 (by omega), fun j hj => ?_⟩
    · rw [hlive _ (by omega)]
      simp
    rw [hlive j (by omega)]
    rcases Nat.lt_or_ge j (2 * k) with hlt | hge
    · simp [hlt]
    · have : j = 2 * k := by omega
      simp [this]
  have hcreate : s.table.createChannelWithAutoReap false = (.ok (fillNames k), { s.table with
      nextGen := Table.bumpGen s.table.nextGen
      boxes := update s.table.boxes k { Mailbox.empty with live := true, autoReap := false }
      eps := update (update s.table.eps (2 * k)
        ⟨true, s.table.nextGen, .SEND, UInt8.ofNat k⟩) (2 * k + 1)
        ⟨true, s.table.nextGen, .RECV, UInt8.ofNat k⟩ }) := by
    simp only [Table.createChannelWithAutoReap, hmb, hsend, hrecv, fillNames, h.next]
  refine ⟨_, rfl, ?_⟩
  refine ⟨?_, ?_, ?_, ?_, ?_⟩
  · intro i hi
    simp only [exec, hcreate]
    by_cases hik : i = k
    · subst hik
      simp
    · rw [update_of_ne hik, h.boxes i hi]
      exact decide_eq_decide.2 (by omega)
  · intro i hi
    simp only [exec, hcreate, h.next]
    by_cases hr : i = 2 * k + 1
    · subst hr
      rw [update_self, if_pos (by omega), if_neg (by omega)]
      rw [show (2 * k + 1) / 2 = k by omega]
    rw [update_of_ne hr]
    by_cases hs : i = 2 * k
    · subst hs
      rw [update_self, if_pos (by omega), if_pos (by omega)]
      rw [show 2 * k / 2 = k by omega]
    rw [update_of_ne hs, h.eps i hi]
    by_cases hik : i < 2 * k
    · rw [if_pos hik, if_pos (show i < 2 * (k + 1) by omega)]
    · rw [if_neg hik, if_neg (show ¬ i < 2 * (k + 1) by omega)]
  · simp only [exec, hcreate, h.next]
    apply UInt16.toNat_inj.1
    rw [bumpGen_toNat, UInt16.toNat_ofNat', UInt16.toNat_ofNat', if_neg (by omega)]
    omega
  · simp only [exec, hcreate, History.note, h.made, List.range_succ, List.map_append,
      List.map_singleton]
  · intro n
    simp only [exec, hcreate, History.note]
    exact h.revoked n

theorem filled (k : ℕ) (hk : k ≤ 257) : ∃ s : Run 257 514 1, s.Reached ∧ Filled k s := by
  induction k with
  | zero =>
    refine ⟨Run.start, Reach.start rfl, ?_, ?_, rfl, rfl, fun _ => rfl⟩
    · intro i _
      rfl
    · intro i _
      rfl
  | succ k ih =>
    obtain ⟨s, hreach, hs⟩ := ih (by omega)
    obtain ⟨s', hstep, hs'⟩ := hs.create (by omega)
    exact ⟨s', Reach.next hreach trivial hstep, hs'⟩

/-- With 257 mailboxes the last channel shares the mailbox of the first. Revoking the last
makes the first refuse its own send end, though nobody revoked it. -/
theorem open_capability_refused : ∃ s : Run 257 514 1, s.Reached ∧
    ∃ cap, s.history.Open .send cap ∧ ∀ msg, (s.table.send cap msg).1 = .error .badCap := by
  obtain ⟨s, hreach, hs⟩ := filled 257 le_rfl
  have hlast : s.table.eps 512 = ⟨true, UInt16.ofNat 257, .SEND, UInt8.ofNat 256⟩ :=
    hs.eps 512 (by decide)
  have hfirst : s.table.eps 0 = ⟨true, UInt16.ofNat 1, .SEND, UInt8.ofNat 0⟩ :=
    hs.eps 0 (by decide)
  have hidx : (fillNames 256).send.index.toNat = 512 := by decide
  have hrevoke : s.table.revokeChannel (fillNames 256).send =
      (.ok (s.table.boxes 0).waiter, { s.table with
        eps := fun i => if (s.table.eps i).live && (s.table.eps i).mailbox.toNat == 0 then
          { s.table.eps i with live := false } else s.table.eps i
        boxes := update s.table.boxes 0 Mailbox.empty }) := by
    have hgen : (fillNames 256).send.generation = UInt16.ofNat 257 := by decide
    have hzero : (UInt8.ofNat 256).toNat = 0 := by decide
    simp only [Table.revokeChannel, hidx, hlast, hgen, hzero]
    rfl
  refine ⟨_, Reach.next (l := .revokeChannel (fillNames 256).send) hreach trivial rfl,
    (fillNames 0).send, ?_, fun msg => ?_⟩
  · refine ⟨0, fillNames 0, ?_, ?_, rfl⟩
    · simp only [exec, hrevoke, History.note, hs.made]
      rfl
    · simp only [exec, hrevoke, History.note, hs.made, hs.revoked 0, Bool.false_or]
      decide
  have hnone : ({ s.table with
      eps := fun i => if (s.table.eps i).live && (s.table.eps i).mailbox.toNat == 0 then
        { s.table.eps i with live := false } else s.table.eps i
      boxes := update s.table.boxes 0 Mailbox.empty } : Table 257 514 1).lookup
      (fillNames 0).send .SEND = none := by
    have hidx0 : (fillNames 0).send.index.toNat = 0 := by decide
    simp only [Table.lookup, hidx0, hfirst]
    rfl
  simp only [exec, hrevoke, Table.send, hnone]

end Aliased

end HarborKernel.Channels
