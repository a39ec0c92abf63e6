import HarborKernel.TaskSteps

/-!
Stealing and switching from a state satisfying the invariant.
A steal pass over the peer queue either finds the first entry that may be stolen
and moves it, or restores the queue exactly. A switch then rotates the local
queue; an idle processor that is asked to block, exit or be preempted stays.
-/

namespace HarborKernel.TaskTable.Tasks

open Function ReadyQueue

variable {n : ℕ} {t : Tasks n} {up : Bool}

def stealTarget (t : Tasks n) (thief : ℕ) : Option TaskId :=
  if (t.queues thief).isEmpty then (t.queues (1 - thief)).ready.find? t.isStealeable else none

variable {id : TaskId} {d c i : ℕ} {q : RunQueue n}

theorem isStealeable_ne_idle (h : t.isStealeable id = true) {e : ℕ} (he : e < nCpus) :
    id ≠ t.idle e := by
  simp only [isStealeable, Bool.and_eq_true, decide_eq_true_eq] at h
  obtain ⟨⟨-, h0⟩, h1⟩ := h
  have hcase : e = 0 ∨ e = 1 := by
    unfold nCpus at he
    omega
  rcases hcase with rfl | rfl
  · exact h0
  · exact h1

variable {p : Tasks n} {kind : Switch} {next : TaskId} {rest : List TaskId}

/-- Rotating the peer queue by one entry always finds room and keeps the invariant. -/
theorem steal_rotate (h : t.Inv up) (hready : (t.queues d).ready = id :: rest) :
    ∃ q q', (t.queues d).dequeue = some (id, q) ∧ q.ready = rest ∧ q.enqueue id = some q' ∧
      q'.ready = rest ++ [id] ∧
      ({ t with queues := update t.queues d q' } : Tasks n).Inv up := by
  obtain ⟨q, q', hq, hqr, hq', hq'r⟩ := RunQueue.exists_rotate (t.queues d) id rest hready
  refine ⟨q, q', hq, hqr, hq', hq'r, InvOff.reorder h ?_ rfl rfl rfl rfl rfl⟩
  intro e _
  by_cases hed : e = d
  · subst hed
    simp only [update_self, hq'r, hready]
    exact List.perm_append_singleton id rest
  · simp [update_of_ne hed]

/-- One pass over the entries `left` still to be examined; `seen` were rotated to the tail. -/
theorem stealLoop_cases (hd : d < nCpus) (hcd : c ≠ d) (left : List TaskId) :
    ∀ (t : Tasks n) (seen : List TaskId), t.Inv up →
    (t.queues d).ready = left ++ seen → (t.queues c).ready = [] →
    (left.find? t.isStealeable = none ∧ ∃ Q, stealLoop c d left.length t =
        (false, { t with queues := Q }) ∧ (Q d).ready = seen ++ left ∧
        ∀ e, e ≠ d → Q e = t.queues e) ∨
    ∃ before id after Q, left = before ++ id :: after ∧ left.find? t.isStealeable = some id ∧
      t.isStealeable id = true ∧ stealLoop c d left.length t = (true, { t with
        queues := Q
        home := update t.home id.index c }) ∧
      (Q d).ready = after ++ seen ++ before ∧ (Q c).ready = [id] ∧
      ∀ e, e ≠ c → e ≠ d → Q e = t.queues e := by
  induction left with
  | nil =>
    intro t seen _ hready _
    exact .inl ⟨rfl, t.queues, rfl, by simpa using hready, fun _ _ => rfl⟩
  | cons id rest ih =>
    intro t seen h hready hthief
    rw [List.cons_append] at hready
    obtain ⟨q, q', hq, hqr, hq', hq'r, h1⟩ := steal_rotate h hready
    have hsit := h.queued d hd id (hready ▸ List.mem_cons_self ..)
    by_cases hst : t.isStealeable id = true
    · -- the entry may be stolen: the thief's queue is empty and takes it
      have hfind : (id :: rest).find? t.isStealeable = some id := by simp [hst]
      obtain ⟨qt, hqt⟩ := RunQueue.exists_enqueue (t.queues c) id
        (by rw [hthief]; exact Nat.lt_of_le_of_lt (Nat.zero_le _) hsit.lt)
      right
      refine ⟨[], id, rest, update (update t.queues d q) c qt, rfl, hfind, hst,
        ?_, ?_, ?_, ?_⟩
      · simp [stealLoop, hq, hsit.state, hst, update_of_ne hcd, hqt]
      · simp [update_of_ne hcd.symm, hqr]
      · simpa [hthief] using RunQueue.enqueue_ready _ _ _ hqt
      · intro e hec hed
        rw [update_of_ne hec, update_of_ne hed]
    · -- the entry may not be stolen: it is rotated to the tail
      rw [List.append_assoc] at hq'r
      let t1 : Tasks n := { t with queues := update t.queues d q' }
      have hready1 : (t1.queues d).ready = rest ++ (seen ++ [id]) := by
        simpa [t1] using hq'r
      have hthief1 : (t1.queues c).ready = [] := by
        simpa [t1, update_of_ne hcd] using hthief
      have hloop : stealLoop c d (id :: rest).length t = stealLoop c d rest.length t1 := by
        simp [stealLoop, hq, hsit.state, hst, hq', t1]
      have hfind : (id :: rest).find? t.isStealeable = rest.find? t.isStealeable := by
        simp [hst]
      rw [hloop, hfind]
      rcases ih t1 (seen ++ [id]) h1 hready1 hthief1 with
        ⟨hnone, Q, hrun, hQd, hQ⟩ | ⟨before, a, after, Q, hsplit, hsome, ha, hrun, hQd, hQc, hQ⟩
      · refine .inl ⟨hnone, Q, hrun, by simpa using hQd, ?_⟩
        intro e hed
        rw [hQ e hed]
        exact update_of_ne hed ..
      refine .inr ⟨id :: before, a, after, Q, by rw [hsplit]; rfl, hsome, ha, hrun,
        by simpa using hQd, hQc, ?_⟩
      intro e hec hed
      rw [hQ e hec hed]
      exact update_of_ne hed ..

/-- A steal attempt without target leaves every queue as it was; otherwise it
moves exactly the target. -/
theorem tryStealInto_cases (h : t.Inv up) (hc : Up up c) :
    (t.stealTarget c = none ∧ ∃ Q, t.tryStealInto c = (false, { t with queues := Q }) ∧
      ∀ e, (Q e).ready = (t.queues e).ready) ∨
    ∃ before id after Q, t.stealTarget c = some id ∧ t.isStealeable id = true ∧
      (t.queues c).ready = [] ∧ (t.queues (1 - c)).ready = before ++ id :: after ∧
      t.tryStealInto c = (true, { t with
        queues := Q
        home := update t.home id.index c }) ∧
      (Q (1 - c)).ready = after ++ before ∧ (Q c).ready = [id] ∧
      ∀ e, e ≠ c → e ≠ 1 - c → Q e = t.queues e := by
  have hlt : ¬ nCpus ≤ c := Nat.not_le.mpr hc.lt
  have hpeer : 1 - c < nCpus := Nat.lt_of_le_of_lt (Nat.sub_le ..) (by decide)
  have hne : c ≠ 1 - c := by omega
  by_cases hempty : (t.queues c).isEmpty = true
  · have hthief := (RunQueue.isEmpty_iff _).mp hempty
    have hcases := stealLoop_cases hpeer hne (t.queues (1 - c)).ready t [] h (by simp) hthief
    have hlen : (t.queues (1 - c)).ready.length = (t.queues (1 - c)).len := by
      simp [RunQueue.ready]
    have hrun : t.tryStealInto c = stealLoop c (1 - c) (t.queues (1 - c)).ready.length t := by
      simp [tryStealInto, hlt, hempty, hlen]
    have htarget : t.stealTarget c = (t.queues (1 - c)).ready.find? t.isStealeable := by
      simp [stealTarget, hempty]
    rw [hrun, htarget]
    rcases hcases with
      ⟨hnone, Q, hloop, hQd, hQ⟩ | ⟨before, id, after, Q, hsplit, hsome, hst, hloop, hQd, hQc, hQ⟩
    · refine .inl ⟨hnone, Q, hloop, ?_⟩
      intro e
      by_cases he : e = 1 - c
      · subst he
        simpa using hQd
      · rw [hQ e he]
    · exact .inr ⟨before, id, after, Q, hsome, hst, hthief, hsplit, hloop, by simpa using hQd,
        hQc, hQ⟩
  · left
    refine ⟨by simp [stealTarget, hempty], t.queues, ?_, fun _ => rfl⟩
    simp [tryStealInto, hempty]

theorem tryStealInto_inv (hn : n ≤ 65536) (h : t.Inv up) (hc : Up up c) :
    (t.tryStealInto c).2.Inv up := by
  rcases tryStealInto_cases h hc with
    ⟨-, Q, hrun, hQ⟩ | ⟨before, id, after, Q, -, hst, hthief, hsplit, hrun, hQd, hQc, hQ⟩
  · rw [hrun]
    exact InvOff.reorder h (fun e _ => by rw [hQ e]) rfl rfl rfl rfl rfl
  rw [hrun]
  have hpeer : 1 - c < nCpus := Nat.lt_of_le_of_lt (Nat.sub_le ..) (by decide)
  have hfront : (t.queues (1 - c)).ready.Perm (id :: (before ++ after)) := by
    rw [hsplit]
    exact List.perm_middle
  refine InvOff.move hn h hc hpeer (by omega) hfront
    (fun e he => isStealeable_ne_idle hst he) rfl rfl rfl ?_ ?_ hQ rfl rfl
  · rw [hQd]
    exact List.perm_append_comm
  · rw [hthief]
    exact hQc

theorem stealFirst_inv (hn : n ≤ 65536) (h : t.Inv up) (hc : Up up c) :
    (t.stealFirst c).Inv up := by
  unfold stealFirst
  split
  · exact tryStealInto_inv hn h hc
  · exact h

/-- Stealing touches queues and homes only. -/
theorem stealFirst_frame (h : t.Inv up) (hc : Up up c) :
    ∃ Q H, t.stealFirst c = { t with queues := Q, home := H } := by
  unfold stealFirst
  split
  · rcases tryStealInto_cases h hc with
      ⟨-, Q, hrun, -⟩ | ⟨before, id, after, Q, -, -, -, -, hrun, -⟩
    · exact ⟨Q, t.home, by rw [hrun]⟩
    · exact ⟨Q, update t.home id.index c, by rw [hrun]⟩
  · exact ⟨t.queues, t.home, rfl⟩

/-- Stealing changes one home: that of the target, which was ready on the peer. -/
theorem stealFirst_home (h : t.Inv up) (hc : Up up c) (hi : (t.stealFirst c).home i ≠ t.home i) :
    ∃ id, t.current c = t.idle c ∧ t.stealTarget c = some id ∧ id.index = i ∧
      t.Sits id .ready (1 - c) := by
  unfold stealFirst at hi
  split at hi
  · rename_i hidle
    have hpeer : 1 - c < nCpus := Nat.lt_of_le_of_lt (Nat.sub_le ..) (by decide)
    rcases tryStealInto_cases h hc with
      ⟨-, Q, hrun, -⟩ | ⟨before, id, after, Q, htarget, -, -, hsplit, hrun, -⟩
    · simp [hrun] at hi
    have hidx : i = id.index := by
      by_contra hne
      simp [hrun, update_of_ne hne] at hi
    refine ⟨id, hidle.1, htarget, hidx.symm, h.queued (1 - c) hpeer id ?_⟩
    simp [hsplit]
  · exact absurd rfl hi

def switched (p : Tasks n) (c : ℕ) (kind : Switch) (next : TaskId) (q : RunQueue n) : Tasks n :=
  { p.retire (p.current c).index kind with
    queues := update p.queues c q
    parked := if kind = .exit then some (p.current c) else p.parked
    overwrites := if kind = .exit ∧ p.parked ≠ none then p.overwrites + 1 else p.overwrites
    states := update (p.retire (p.current c).index kind).states next.index .running
    current := update p.current c next }

def candidates (p : Tasks n) (c : ℕ) (kind : Switch) : List TaskId :=
  (p.queues c).ready ++ if kind.requeues then [p.current c] else []

theorem retire_frame (p : Tasks n) (cur : ℕ) (kind : Switch) :
    (p.retire cur kind).queues = p.queues ∧ (p.retire cur kind).current = p.current ∧
    (p.retire cur kind).idle = p.idle ∧ (p.retire cur kind).parked = p.parked ∧
    (p.retire cur kind).overwrites = p.overwrites ∧ (p.retire cur kind).home = p.home := by
  cases kind <;> simp only [retire] <;> (try split) <;> simp

theorem retire_requeue {cur : ℕ} (hreq : kind.requeues = true) (hs : p.states cur = .running) :
    p.retire cur kind = { p with states := update p.states cur .ready } := by
  cases kind with
  | yield | preempt => simp [retire, hs]
  | block | exit => contradiction

theorem rotate_cons (hroom : (p.queues c).ready.length < n)
    (hcand : p.candidates c kind = next :: rest) :
    ∃ q, q.ready = rest ∧ (p.retire (p.current c).index kind).rotate c kind =
      (some (some next), { p.retire (p.current c).index kind with
        queues := update p.queues c q }) := by
  obtain ⟨hq, hcur, -⟩ := retire_frame p (p.current c).index kind
  unfold candidates at hcand
  cases hreq : kind.requeues with
  | false =>
    rw [hreq] at hcand
    obtain ⟨q, hdeq, hrest⟩ := RunQueue.exists_dequeue (p.queues c) next rest (by simpa using hcand)
    exact ⟨q, hrest, by simp [rotate, hq, hreq, RunQueue.afterYield, hdeq]⟩
  | true =>
    rw [hreq] at hcand
    obtain ⟨q1, hq1⟩ := RunQueue.exists_enqueue (p.queues c) (p.current c) hroom
    have hq1r := RunQueue.enqueue_ready _ _ _ hq1
    obtain ⟨q, hdeq, hrest⟩ := RunQueue.exists_dequeue q1 next rest
      (hq1r.trans (by simpa using hcand))
    exact ⟨q, hrest, by simp [rotate, hq, hcur, hreq, RunQueue.afterYield, hq1, hdeq]⟩

/-- A task that may give up its processor leaves someone to run there. -/
theorem exists_candidate (h : p.Inv up) (hc : Up up c)
    (hkind : kind = .yield ∨ p.current c ≠ p.idle c) :
    ∃ next rest, p.candidates c kind = next :: rest := by
  apply List.exists_cons_of_ne_nil
  cases hreq : kind.requeues with
  | true => simp [candidates, hreq]
  | false =>
    have hne : p.current c ≠ p.idle c := by
      rcases hkind with rfl | hne
      · contradiction
      · exact hne
    have hmem : p.idle c ∈ (p.queues c).ready :=
      (h.idle c hc).resolve_left (fun heq => hne heq.symm)
    simp only [candidates, hreq, Bool.false_eq_true, if_false, List.append_nil]
    exact List.ne_nil_of_mem hmem

/-- A candidate other than the yielder was ready on this processor. -/
theorem candidate_sits (h : p.Inv up) (hc : Up up c) (hcand : p.candidates c kind = next :: rest)
    (hne : next ≠ p.current c) : p.Sits next .ready c := by
  have hmem : next ∈ p.candidates c kind := hcand ▸ List.mem_cons_self ..
  unfold candidates at hmem
  rcases List.mem_append.mp hmem with hq | hy
  · exact h.queued c hc.lt next hq
  split at hy
  · exact absurd (List.mem_singleton.mp hy) hne
  · contradiction

theorem switched_states_of_ne (hi : i ≠ (p.current c).index) (hnext : i ≠ next.index) :
    (p.switched c kind next q).states i = p.states i := by
  have hretire : (p.retire (p.current c).index kind).states i = p.states i := by
    cases kind <;> simp only [retire]
    case block => exact update_of_ne hi ..
    case exit => exact update_of_ne hi ..
    all_goals
      split
      · exact update_of_ne hi ..
      · rfl
  simp only [switched, update_of_ne hnext, hretire]

/-- Every outcome of `switch_on`: a refused idle task, a task that is alone, or a
switch to the first candidate. The fallback arm and a refused requeue do not occur. -/
theorem switchOn_cases (hn : n ≤ 65536) (h : t.Inv up) (hc : Up up c) (kind : Switch) :
    (kind ≠ .yield ∧ t.current c = t.idle c ∧ t.switchOn c kind = (.stay, t.stealFirst c)) ∨
    (kind.requeues = true ∧ ((t.stealFirst c).queues c).ready = [] ∧ ∃ q, q.ready = [] ∧
      t.switchOn c kind = (.stay, { t.stealFirst c with
        queues := update (t.stealFirst c).queues c q })) ∨
    ∃ next q, (kind = .yield ∨ t.current c ≠ t.idle c) ∧ next ≠ t.current c ∧
      (t.stealFirst c).candidates c kind = next :: q.ready ∧
      t.switchOn c kind = (.switch (t.current c) next (if kind = .exit then t.parked else none),
        (t.stealFirst c).switched c kind next q) := by
  have hlt : ¬ nCpus ≤ c := Nat.not_le.mpr hc.lt
  have hinv := stealFirst_inv hn h hc
  obtain ⟨Q, H, hframe⟩ := stealFirst_frame h hc
  have hcur : (t.stealFirst c).current = t.current := by rw [hframe]
  have hidle : (t.stealFirst c).idle = t.idle := by rw [hframe]
  have hparked : (t.stealFirst c).parked = t.parked := by rw [hframe]
  generalize hp : t.stealFirst c = p at hinv hcur hidle hparked ⊢
  have hsit := hinv.current c hc (by simp)
  rw [hcur] at hsit
  by_cases hstay : kind ≠ .yield ∧ t.current c = t.idle c
  · refine .inl ⟨hstay.1, hstay.2, ?_⟩
    simp only [switchOn, hlt, if_false, hp, hcur, hidle, hstay, ne_eq, not_false_eq_true,
      and_self, if_true]
  have hroom := hinv.length_lt hsit.lt (by rw [hsit.state]; decide) hc.lt
  have hkind : kind = .yield ∨ p.current c ≠ p.idle c := by
    rw [hcur, hidle]
    by_cases hy : kind = .yield
    · exact .inl hy
    · exact .inr (fun heq => hstay ⟨hy, heq⟩)
  obtain ⟨next, rest, hcand⟩ := exists_candidate hinv hc hkind
  obtain ⟨q, hq, hrot⟩ := rotate_cons hroom hcand
  rw [hcur] at hrot
  have hswitch : t.switchOn c kind = ({ p.retire (t.current c).index kind with
      queues := update p.queues c q } : Tasks n).switchTo c kind (t.current c) next := by
    simp only [switchOn, hlt, if_false, hp, hcur, hidle, hstay, hrot, pick]
  obtain ⟨-, hrcur, hridle, hrparked, hrover, hrhome⟩ :=
    retire_frame p (t.current c).index kind
  right
  by_cases hnext : next = t.current c
  · -- only a yielder that is alone gets itself back
    left
    have hreq : kind.requeues = true := by
      by_contra hreq
      have hmem : next ∈ (p.queues c).ready := by
        have : next ∈ p.candidates c kind := hcand ▸ List.mem_cons_self ..
        simpa [candidates, hreq] using this
      exact hinv.index_ne hc.lt (by rw [hsit.state]; decide) hmem (by rw [hnext])
    have hnil : (p.queues c).ready = [] := by
      cases hready : (p.queues c).ready with
      | nil => rfl
      | cons a l =>
        have ha : a = next := by
          have hcand' := hcand
          simp only [candidates, hready, List.cons_append] at hcand'
          exact (List.cons.inj hcand').1
        exact absurd (by rw [ha, hnext])
          (hinv.index_ne hc.lt (i := (t.current c).index) (by rw [hsit.state]; decide)
            (hready ▸ List.mem_cons_self ..))
    have hrest : rest = [] := by
      simp only [candidates, hnil, hreq, if_true, List.nil_append] at hcand
      exact (List.cons.inj hcand).2.symm
    refine ⟨hreq, hnil, q, hq.trans hrest, ?_⟩
    rw [hswitch, switchTo, if_pos hnext]
    have hback : update (update p.states (t.current c).index .ready)
        (t.current c).index .running = p.states := by
      rw [update_idem, ← hsit.state, update_eq_self]
    rw [retire_requeue hreq hsit.state]
    simp only [hback]
  · right
    refine ⟨next, q, by rwa [hcur, hidle] at hkind, hnext, hq ▸ hcand, ?_⟩
    · rw [hswitch, switchTo, if_neg hnext]
      simp only [switched, hcur, hrcur, hrparked, hrover, hparked]

/-- A switch keeps the invariant: the current task leaves its processor, is queued
again if it stays runnable, and the first candidate takes its place. -/
theorem switched_inv (hn : n ≤ 65536) (h : p.Inv up) (hc : Up up c)
    (hkind : kind = .yield ∨ p.current c ≠ p.idle c)
    (hcand : p.candidates c kind = next :: q.ready) :
    (p.switched c kind next q).Inv up := by
  have hsit := h.current c hc (by simp)
  cases hreq : kind.requeues with
  | true =>
    have hcand' : (p.queues c).ready ++ [p.current c] = next :: q.ready := by
      simpa [candidates, hreq] using hcand
    -- the yielder passes through a state off the queues and is appended again
    have hoff : ({ p with
        states := update p.states (p.current c).index .blocked } : Tasks n).InvOff up
        (some c) :=
      InvOff.detach hn h hc (.inl rfl) rfl (fun _ _ => rfl) rfl rfl rfl rfl
    obtain ⟨q1, hq1⟩ := RunQueue.exists_enqueue (p.queues c) (p.current c)
      (h.length_lt hsit.lt (by rw [hsit.state]; decide) hc.lt)
    have hq1r := RunQueue.enqueue_ready _ _ _ hq1
    have happ : ({ p with
        states := update p.states (p.current c).index .ready
        queues := update p.queues c q1 } : Tasks n).InvOff up (some c) := by
      refine InvOff.append hn hoff hsit.lt (by simp) (by simp) hc ?_ rfl ?_ ?_ ?_ rfl rfl
      · exact (update_idem ..).symm
      · conv_lhs => rw [← update_eq_self (p.current c).index p.home, hsit.home]
      · have hid : TaskId.new (p.current c).index (p.epochs (p.current c).index) = p.current c :=
          hsit.eq_idAt.symm
        simpa [idAt, hid] using hq1r
      · intro d hd
        exact update_of_ne hd ..
    refine InvOff.dispatch hn happ hc (by simpa using hq1r.trans hcand') ?_ ?_ ?_ ?_ ?_ ?_ rfl ?_
    · simp only [update_self, hq1r]
      rcases h.idle c hc with heq | hmem
      · exact List.mem_append_right _ (List.mem_singleton.mpr heq)
      · exact List.mem_append_left _ hmem
    · simp [switched, retire_requeue hreq hsit.state]
    · simp [switched, retire_requeue hreq hsit.state]
    · simp [switched, retire_requeue hreq hsit.state]
    · simp [switched]
    · intro d hd
      simp [switched, update_of_ne hd]
    · simp [switched, retire_requeue hreq hsit.state]
  | false =>
    have hcand' : (p.queues c).ready = next :: q.ready := by
      simpa [candidates, hreq] using hcand
    have hne : p.current c ≠ p.idle c := by
      rcases hkind with rfl | hne
      · contradiction
      · exact hne
    have hmem : p.idle c ∈ (p.queues c).ready :=
      (h.idle c hc).resolve_left (fun heq => hne heq.symm)
    have hoff : (p.retire (p.current c).index kind).InvOff up (some c) := by
      cases kind with
      | yield | preempt => contradiction
      | block => exact InvOff.detach hn h hc (.inl rfl) rfl (fun _ _ => rfl) rfl rfl rfl rfl
      | exit =>
        exact InvOff.detach hn h hc (.inr rfl) rfl
          (fun i hi => update_of_ne hi ..) rfl rfl rfl rfl
    obtain ⟨hq, hcur, hidle, -, -, hhome⟩ := retire_frame p (p.current c).index kind
    refine InvOff.dispatch hn hoff hc (hq ▸ hcand') (by rw [hidle, hq]; exact hmem) rfl rfl rfl
      ?_ ?_ ?_ rfl
    · simp [switched]
    · intro d hd
      simp [switched, update_of_ne hd, hq]
    · simp [switched, hcur]

theorem switchOn_inv (hn : n ≤ 65536) (h : t.Inv up) (hc : Up up c) (kind : Switch) :
    (t.switchOn c kind).2.Inv up := by
  have hinv := stealFirst_inv hn h hc
  obtain ⟨Q, H, hframe⟩ := stealFirst_frame h hc
  rcases switchOn_cases hn h hc kind with
    ⟨-, -, heq⟩ | ⟨-, hnil, q, hq, heq⟩ | ⟨next, q, hkind, -, hcand, heq⟩
  · rw [heq]
    exact hinv
  · rw [heq]
    refine InvOff.reorder hinv ?_ rfl rfl rfl rfl rfl
    intro d _
    by_cases hd : d = c
    · subst hd
      simp [hq, hnil]
    · simp [update_of_ne hd]
  · rw [heq]
    apply switched_inv hn hinv hc _ hcand
    rw [hframe]
    exact hkind

end HarborKernel.TaskTable.Tasks
