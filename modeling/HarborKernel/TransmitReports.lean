import HarborKernel.NetworkBackends
import HarborKernel.NetworkServer
import HarborKernel.VirtioRuns

/-!
What becomes of the transmissions that the network service accepts. Each is under way, waits as
an event of the lease, is in the hands of the service, or was reported; the service throws away
what its completion mailbox does not take.
-/

namespace HarborKernel.Network

open Capability Ipc Net Transition

namespace Server

variable {σ ε : Type} [Transport σ ε] {M E : ℕ}

def inFlight (s : Server σ M E) : Option PacketToken := s.runtime.lease.bind Lease.serviceTx

def waiting (s : Server σ M E) : Option PacketToken := s.runtime.lease.bind Lease.txEvent

structure Books (s : Server σ M E) : Prop where
  balance : s.accepted = s.reported ++ s.owed.toList ++ s.waiting.toList ++ s.inFlight.toList
  single : ∀ l, s.runtime.lease = some l → l.Single
  owes : ∀ token, s.owed = some token → s.pc = .complete token

variable {s s' : Server σ M E}

theorem balance_iff {l : Lease σ} (hlease : s.runtime.lease = some l) :
    (s.accepted = s.reported ++ s.owed.toList ++ s.waiting.toList ++ s.inFlight.toList) ↔
      s.accepted = s.reported ++ s.owed.toList ++ l.due := by
  simp only [waiting, inFlight, hlease, Option.bind_some, Lease.due, List.append_assoc]

theorem Books.owed_none (h : Books s) (hpc : ∀ token, s.pc ≠ .complete token) : s.owed = none := by
  cases howed : s.owed with
  | none => rfl
  | some token => exact absurd (h.owes token howed) (hpc token)

/-- A step that changes neither the records nor what is said about transmissions. -/
theorem Books.untold (h : Books s) (hrecords : s'.accepted = s.accepted ∧
      s'.reported = s.reported ∧ s'.owed = s.owed)
    (hlease : s'.runtime.lease = s.runtime.lease ∨ ∃ l l', s.runtime.lease = some l ∧
      s'.runtime.lease = some l' ∧ Lease.Untold l l')
    (hpc : s'.pc = s.pc ∨ ∀ token, s.pc ≠ .complete token) : Books s' := by
  obtain ⟨haccepted, hreported, howed⟩ := hrecords
  have howes : ∀ token, s'.owed = some token → s'.pc = .complete token := by
    intro token htoken
    rcases hpc with hpc | hpc
    · rw [hpc]
      exact h.owes token (howed ▸ htoken)
    · rw [howed, h.owed_none hpc] at htoken
      cases htoken
  rcases hlease with hlease | ⟨l, l', hl, hl', huntold⟩
  · refine ⟨?_, ?_, howes⟩
    · rw [haccepted, hreported, howed, waiting, inFlight, hlease]
      exact h.balance
    · rw [hlease]
      exact h.single
  refine ⟨(balance_iff hl').2 ?_, ?_, howes⟩
  · rw [haccepted, hreported, howed, huntold.due]
    exact (balance_iff hl).1 h.balance
  intro x hx
  rw [hl'] at hx
  cases hx
  exact huntold.single (h.single l hl)

theorem Books.renew (h : Books s) {runtime : Runtime σ}
    (hlease : (s.runtime.lease = none ∧ runtime.lease = none) ∨
      ∃ l l', s.runtime.lease = some l ∧ runtime.lease = some l' ∧ Lease.Renewed l l') :
    Books (s.renew runtime) := by
  rcases hlease with ⟨hnone, hnone'⟩ | ⟨l, l', hl, hl', hrenewed⟩
  · have heq : s.renew runtime = { s with runtime } := by
      rw [Server.renew, hnone, hnone', if_pos rfl]
    rw [heq]
    exact h.untold ⟨rfl, rfl, rfl⟩ (.inl (hnone'.trans hnone.symm)) (.inl rfl)
  rcases hrenewed with ⟨hgen, hdue, hsingle⟩ | ⟨hgen, hdue, hsingle⟩
  · have heq : s.renew runtime = { s with runtime } := by
      rw [Server.renew, hl, hl', Option.map_some, Option.map_some, hgen, if_pos rfl]
    rw [heq]
    refine ⟨(balance_iff hl').2 ?_, ?_, h.owes⟩
    · rw [hdue]
      exact (balance_iff hl).1 h.balance
    intro x hx
    cases hl'.symm.trans hx
    exact hsingle
  · have heq : s.renew runtime =
        { s with runtime, accepted := [], reported := [], owed := none } := by
      rw [Server.renew, hl, hl', Option.map_some, Option.map_some,
        if_neg fun hsame => hgen (Option.some.inj hsame)]
    rw [heq]
    refine ⟨(balance_iff hl').2 ?_, ?_, nofun⟩
    · rw [hdue]
      rfl
    intro x hx
    cases hl'.symm.trans hx
    exact hsingle

theorem Books.poll (h : Books s) {fuel : ℕ} {runtime : Runtime σ}
    (hpoll : s.runtime.poll fuel = some runtime) : Books (s.renew runtime) := by
  unfold Runtime.poll at hpoll
  cases hl : s.runtime.lease with
  | none =>
    rw [hl] at hpoll
    cases hpoll
    exact h.renew (.inl ⟨hl, hl⟩)
  | some l =>
    rw [hl] at hpoll
    obtain ⟨l', hl', rfl⟩ := Option.map_eq_some_iff.1 hpoll
    exact h.renew (.inr ⟨l, l', hl, rfl, Lease.poll_renewed (h.single l hl) hl'⟩)

theorem renew_pc (s : Server σ M E) (runtime : Runtime σ) : (s.renew runtime).pc = s.pc := by
  unfold Server.renew
  split
  · rfl
  · rfl

theorem recycle_pc (s : Server σ M E) : s.recycle.pc = s.pc := by
  unfold recycle
  split
  · rfl
  split
  · exact renew_pc s _
  · exact renew_pc s _

theorem Books.recycle (h : Books s) : Books s.recycle := by
  unfold Server.recycle
  by_cases hdone : s.recycled = true
  · rw [if_pos hdone]
    exact h
  rw [if_neg hdone]
  have hrenew : Books (s.renew s.runtime.recycleAfterSession.2) := by
    refine h.renew ?_
    unfold Runtime.recycleAfterSession
    cases hl : s.runtime.lease with
    | none => exact .inl ⟨rfl, hl⟩
    | some l => exact .inr ⟨l, _, rfl, rfl, Lease.recover_renewed (h.single l hl)⟩
  rcases hcall : s.runtime.recycleAfterSession with ⟨_ | _, runtime⟩
  · rw [hcall] at hrenew
    exact hrenew
  · rw [hcall] at hrenew
    exact ⟨hrenew.balance, hrenew.single, hrenew.owes⟩

theorem Books.move (h : Books s) {table : Table M E depth} {pc : Pc} (howed : s.owed = none) :
    Books { s with table, pc } := by
  refine ⟨h.balance, h.single, ?_⟩
  intro token htoken
  cases howed.symm.trans htoken

theorem Books.returnServiceRx (h : Books s) (token : PacketToken) (pc : Pc)
    (howed : s.owed = none) :
    Books { s with runtime := (s.runtime.returnServiceRx token).2, pc } := by
  refine Books.move (s := { s with runtime := (s.runtime.returnServiceRx token).2 }) ?_ howed
  refine h.untold ⟨rfl, rfl, rfl⟩ ?_ (.inl rfl)
  unfold Runtime.returnServiceRx
  cases hl : s.runtime.lease with
  | none => exact .inl hl
  | some l => exact .inr ⟨l, _, rfl, rfl, l.returnServiceRx_untold token⟩

theorem Books.submitServiceTx (h : Books s) (token : PacketToken) (pc : Pc)
    (howed : s.owed = none) (hwaiting : s.waiting = none) :
    ((s.runtime.submitServiceTx token).1 = .ok () →
      Books { s with
        runtime := (s.runtime.submitServiceTx token).2, pc, accepted := s.accepted ++ [token] }) ∧
    ((s.runtime.submitServiceTx token).1 ≠ .ok () →
      Books { s with runtime := (s.runtime.submitServiceTx token).2, pc }) := by
  unfold Runtime.submitServiceTx
  cases hl : s.runtime.lease with
  | none =>
    refine ⟨nofun, fun _ => ?_⟩
    exact h.move howed
  | some l =>
    have hevent : l.txEvent = none := by
      rw [waiting, hl, Option.bind_some] at hwaiting
      exact hwaiting
    rcases l.submitServiceTx_due token with ⟨hok, hdue, hsame, -⟩ | ⟨herr, huntold⟩
    · refine ⟨fun _ => ⟨(balance_iff rfl).2 ?_, ?_, ?_⟩, fun hne => absurd hok hne⟩
      · rw [hdue, ← List.append_assoc, ← (balance_iff hl).1 h.balance]
      · intro x hx
        cases hx
        exact .inl (hsame.trans hevent)
      · intro x hx
        cases howed.symm.trans hx
    refine ⟨fun hok => absurd hok herr, fun _ => ?_⟩
    refine Books.move (s := { s with runtime :=
      { s.runtime with lease := some (l.submitServiceTx token).2 } }) ?_ howed
    exact h.untold ⟨rfl, rfl, rfl⟩ (.inr ⟨l, _, hl, rfl, huntold⟩) (.inl rfl)

theorem Books.takeTxComplete (h : Books s) (howed : s.owed = none) :
    (∀ token, s.runtime.takeTxComplete.1 = some token → Books { s with
      runtime := s.runtime.takeTxComplete.2, pc := .complete token, owed := some token }) ∧
    (s.runtime.takeTxComplete.1 = none →
      Books { s with runtime := s.runtime.takeTxComplete.2, pc := .available }) := by
  unfold Runtime.takeTxComplete
  cases hl : s.runtime.lease with
  | none =>
    refine ⟨fun token hnone => ?_, fun _ => ?_⟩
    · cases hnone
    · exact h.move howed
  | some l =>
    obtain ⟨hdue, hsingle, -⟩ := l.takeTxComplete_due
    have hbalance := (balance_iff hl).1 h.balance
    rw [howed, Option.toList_none, List.append_nil, hdue] at hbalance
    refine ⟨fun token htoken => ⟨(balance_iff rfl).2 ?_, ?_, ?_⟩,
      fun hnone => ⟨(balance_iff rfl).2 ?_, ?_, ?_⟩⟩
    · simp only at htoken
      rw [htoken, ← List.append_assoc] at hbalance
      exact hbalance
    · intro x hx
      cases hx
      exact hsingle
    · intro x hx
      cases hx
      rfl
    · simp only at hnone
      rw [hnone, Option.toList_none, List.nil_append] at hbalance
      simpa only [howed, Option.toList_none, List.append_nil] using hbalance
    · intro x hx
      cases hx
      exact hsingle
    · intro x hx
      cases howed.symm.trans hx

theorem Books.takeRxAvailable (h : Books s) :
    Books { s with runtime := s.runtime.takeRxAvailable.2 } := by
  refine h.untold ⟨rfl, rfl, rfl⟩ ?_ (.inl rfl)
  unfold Runtime.takeRxAvailable
  cases hl : s.runtime.lease with
  | none => exact .inl hl
  | some l => exact .inr ⟨l, _, rfl, rfl, rfl, rfl, rfl⟩

def Takes (t : Table M E depth) (cap : CapId) : Bool :=
  match t.lookup cap .SEND with
  | none => false
  | some mb => (t.boxes mb).live && (t.boxes mb).len != depth

theorem send_of_takes {t : Table M E depth} {cap : CapId} (h : Takes t cap = true)
    (message : Message) : ∃ waiter table, t.send cap message = (.ok waiter, table) := by
  unfold Takes at h
  cases hlookup : t.lookup cap .SEND with
  | none =>
    rw [hlookup] at h
    cases h
  | some mb =>
    rw [hlookup, Bool.and_eq_true, bne_iff_ne] at h
    simp only [Table.send, hlookup, h.1, Bool.not_true, Bool.false_eq_true, if_false, if_neg h.2]
    exact ⟨_, _, rfl⟩

/-- Completions are reported to a mailbox that takes them, and no request is served while a
completion that the console loop found still waits. -/
def Delivers (s : Server σ M E) : Op σ → Prop
  | .server _ =>
    match s.pc with
    | .complete _ => Takes s.table s.caps.txComplete = true
    | .request _ => s.waiting = none
    | _ => True
  | _ => True

instance (s : Server σ M E) (op : Op σ) : Decidable (Delivers s op) := by
  unfold Delivers
  repeat' split
  all_goals infer_instance

theorem Books.serve (h : Books s) (message : Message) (howed : s.owed = none)
    (hwaiting : s.waiting = none) : Books (s.serve message) := by
  unfold Server.serve
  split
  · rename_i token _
    have hsubmit := fun pc => h.submitServiceTx token pc howed hwaiting
    split
    · rename_i runtime hcall
      rw [hcall] at hsubmit
      exact (hsubmit _).1 rfl
    rename_i runtime hcall
    rw [hcall] at hsubmit
    exact (hsubmit _).2 nofun
  · exact h.move howed
  · rename_i token _
    have hreturn := fun pc => h.returnServiceRx token pc howed
    split
    · rename_i runtime hcall
      rw [hcall] at hreturn
      exact hreturn _
    rename_i runtime hcall
    rw [hcall] at hreturn
    exact hreturn _

theorem Books.serveReturn (h : Books s) (message : Message) (howed : s.owed = none) :
    Books (s.serveReturn message) := by
  unfold Server.serveReturn
  split
  · rename_i token _
    have hreturn := fun pc => h.returnServiceRx token pc howed
    split
    · rename_i runtime hcall
      rw [hcall] at hreturn
      exact hreturn _
    rename_i runtime hcall
    rw [hcall] at hreturn
    exact hreturn _
  · exact h.move howed

theorem Books.turn (h : Books s) {fuel : ℕ} (hok : Delivers s (.server fuel))
    (hturn : s.turn fuel = some s') : Books s' := by
  unfold Delivers at hok
  unfold Server.turn at hturn
  -- only where a token is in hand does the service owe a report
  have howed := h.owed_none
  split at hturn <;> rename_i hpc <;> rw [hpc] at howed hok
  case h_1 =>
    split at hturn <;> cases hturn
    · exact h.move (howed nofun)
    · exact h.move (howed nofun)
  case h_2 message =>
    cases hturn
    exact h.serve message (howed nofun) hok
  case h_3 =>
    cases hturn
    exact h.move (howed nofun)
  case h_4 =>
    cases hturn
    exact h.recycle.move (h.recycle.owed_none (by rw [recycle_pc, hpc]; nofun))
  case h_5 =>
    split at hturn <;> cases hturn
    · exact h.move (howed nofun)
    · exact h.move (howed nofun)
  case h_6 message =>
    cases hturn
    exact h.serveReturn message (howed nofun)
  case h_7 =>
    cases hturn
    exact h.recycle.move (h.recycle.owed_none (by rw [recycle_pc, hpc]; nofun))
  case h_8 =>
    obtain ⟨runtime, hpoll, rfl⟩ := Option.map_eq_some_iff.1 hturn
    have hbooks := h.poll hpoll
    exact hbooks.move (hbooks.owed_none (by rw [renew_pc, hpc]; nofun))
  case h_9 =>
    have htake := h.takeTxComplete (howed nofun)
    split at hturn <;> rename_i hcall <;> rw [hcall] at htake <;> cases hturn
    · exact htake.1 _ rfl
    · exact htake.2 rfl
  case h_10 token =>
    obtain ⟨waiter, table, hsend⟩ := send_of_takes hok (txComplete token)
    rw [hsend] at hturn
    cases hturn
    refine ⟨?_, h.single, nofun⟩
    simp only [Option.toList_none, List.append_nil]
    exact h.balance
  case h_11 =>
    have htake := h.takeRxAvailable
    split at hturn <;> rename_i hcall <;> rw [hcall] at htake <;> cases hturn
    · exact htake.move (howed nofun)
    · exact htake.move (howed nofun)
  case h_12 =>
    split at hturn <;> cases hturn
    · exact h.move (howed nofun)
    · exact h.move (howed nofun)
  case h_13 =>
    cases hturn
    exact h.returnServiceRx _ _ (howed nofun)

theorem Books.step (h : Books s) {op : Op σ} (hok : Delivers s op)
    (hstep : s.step op = some s') : Books s' := by
  cases op with
  | server fuel => exact h.turn hok hstep
  | agent call =>
    cases hstep
    exact ⟨h.balance, h.single, h.owes⟩
  | device act =>
    cases hstep
    refine h.untold ⟨rfl, rfl, rfl⟩ ?_ (.inl rfl)
    cases hl : s.runtime.lease with
    | none => exact .inl rfl
    | some l => exact .inr ⟨l, _, rfl, rfl, rfl, rfl, rfl⟩
  | idle fuel =>
    obtain ⟨runtime, hpoll, rfl⟩ := Option.map_eq_some_iff.1 hstep
    exact h.poll hpoll

/-- The service enters its loop; nothing was accepted yet. -/
def Init (s : Server σ M E) : Prop :=
  s.pc = .head ∧ s.accepted = [] ∧ s.reported = [] ∧ s.owed = none ∧ s.inFlight = none ∧
    s.waiting = none

section NoIdle

variable {r : Runtime σ}

private theorem waiting_of_call {call : Lease σ → Lease σ} (h : r.lease.bind Lease.txEvent = none)
    (hcall : ∀ l, l.txEvent = none → (call l).txEvent = none) :
    (r.lease.map call).bind Lease.txEvent = none := by
  cases hl : r.lease with
  | none => rfl
  | some l =>
    rw [hl, Option.bind_some] at h
    exact hcall l h

private theorem submitServiceTx_waiting (h : r.lease.bind Lease.txEvent = none)
    (token : PacketToken) : (r.submitServiceTx token).2.lease.bind Lease.txEvent = none := by
  have hcall := waiting_of_call h (fun l hl => show (l.submitServiceTx token).2.txEvent = none from
    (l.submitServiceTx_due token).elim (fun hok => hok.2.2.1.trans hl)
      fun herr => herr.2.txEvent.trans hl)
  unfold Runtime.submitServiceTx
  cases hl : r.lease with
  | none => exact h
  | some l =>
    rw [hl] at hcall
    exact hcall

private theorem returnServiceRx_waiting (h : r.lease.bind Lease.txEvent = none)
    (token : PacketToken) : (r.returnServiceRx token).2.lease.bind Lease.txEvent = none := by
  have hcall := waiting_of_call h (fun l hl => (l.returnServiceRx_untold token).txEvent.trans hl)
  unfold Runtime.returnServiceRx
  cases hl : r.lease with
  | none => exact h
  | some l =>
    rw [hl] at hcall
    exact hcall

private theorem recycle_waiting (h : s.waiting = none) : s.recycle.waiting = none := by
  have hcall := waiting_of_call h (fun l hl => show l.recover.2.txEvent = none from
    l.recover_due.elim (fun hsame => hsame.txEvent.trans hl) fun hnew => hnew.2.2)
  have hrenew : (s.renew s.runtime.recycleAfterSession.2).waiting = none := by
    have hruntime : (s.renew s.runtime.recycleAfterSession.2).runtime =
        s.runtime.recycleAfterSession.2 := by
      unfold Server.renew
      split
      · rfl
      · rfl
    rw [waiting, hruntime]
    unfold Runtime.recycleAfterSession
    cases hl : s.runtime.lease with
    | none => exact h
    | some l =>
      rw [hl] at hcall
      exact hcall
  unfold Server.recycle
  split
  · exact h
  split
  · rename_i runtime heq
    rw [heq] at hrenew
    exact hrenew
  rename_i runtime heq
  rw [heq] at hrenew
  exact hrenew

private theorem takeTxComplete_waiting (s : Server σ M E) :
    s.runtime.takeTxComplete.2.lease.bind Lease.txEvent = none := by
  unfold Runtime.takeTxComplete
  cases hl : s.runtime.lease with
  | none => rw [hl]; rfl
  | some l => exact l.takeTxComplete_due.2.2.2

private theorem takeRxAvailable_waiting (h : r.lease.bind Lease.txEvent = none) :
    r.takeRxAvailable.2.lease.bind Lease.txEvent = none := by
  unfold Runtime.takeRxAvailable
  cases hl : r.lease with
  | none => exact h
  | some l =>
    rw [hl] at h
    exact h

private theorem turn_waiting {fuel : ℕ} (h : s.pc ≠ .completing → s.waiting = none)
    (hturn : s.turn fuel = some s') (hpc' : s'.pc ≠ .completing) : s'.waiting = none := by
  unfold Server.turn at hturn
  split at hturn <;> rename_i hpc <;> rw [hpc] at h
  case h_2 message =>
    cases hturn
    have hnone := h nofun
    unfold Server.serve
    split
    · rename_i token _
      have hsubmit := submitServiceTx_waiting hnone token
      split <;> rename_i hcall <;> rw [hcall] at hsubmit
      · exact hsubmit
      · exact hsubmit
    · exact hnone
    · rename_i token _
      have hreturn := returnServiceRx_waiting hnone token
      split <;> rename_i hcall <;> rw [hcall] at hreturn
      · exact hreturn
      · exact hreturn
  case h_4 =>
    cases hturn
    exact recycle_waiting (h nofun)
  case h_6 message =>
    cases hturn
    have hnone := h nofun
    unfold Server.serveReturn
    split
    · rename_i token _
      have hreturn := returnServiceRx_waiting hnone token
      split <;> rename_i hcall <;> rw [hcall] at hreturn
      · exact hreturn
      · exact hreturn
    · exact hnone
  case h_7 =>
    cases hturn
    exact recycle_waiting (h nofun)
  case h_8 =>
    obtain ⟨runtime, hpoll, rfl⟩ := Option.map_eq_some_iff.1 hturn
    exact absurd rfl hpc'
  case h_9 =>
    have htake := takeTxComplete_waiting s
    split at hturn <;> rename_i hcall <;> rw [hcall] at htake <;> cases hturn
    · exact htake
    · exact htake
  case h_11 =>
    have htake := takeRxAvailable_waiting (h nofun)
    split at hturn <;> rename_i hcall <;> rw [hcall] at htake <;> cases hturn
    · exact htake
    · exact htake
  case h_13 =>
    cases hturn
    exact returnServiceRx_waiting (h nofun) _
  all_goals
    (try split at hturn) <;> cases hturn <;> exact h nofun

/-- Where only the service polls, no completion waits while it serves a request. -/
theorem waiting_none (h : Reach Init step (fun _ op => ∀ fuel, op ≠ .idle fuel) s)
    (hpc : s.pc ≠ .completing) : s.waiting = none := by
  refine Reach.invariant (I := fun s => s.pc ≠ .completing → s.waiting = none) ?_ ?_ h hpc
  · exact fun s hinit _ => hinit.2.2.2.2.2
  intro s op s' hinv hok hstep
  cases op with
  | server fuel => exact turn_waiting hinv hstep
  | agent call =>
    cases hstep
    exact hinv
  | device act =>
    cases hstep
    intro hpc
    exact waiting_of_call (hinv hpc) fun l hl => hl
  | idle fuel => exact absurd rfl (hok fuel)

end NoIdle

section Bench

open QemuVirt ReadyList

def channels : Table 16 32 depth :=
  Nat.repeat (fun t : Table 16 32 depth => t.createChannel.2) 4 Table.new

def serviceCaps : Caps := ⟨CapId.new 1 1, CapId.new 2 2, CapId.new 7 4, CapId.new 4 3⟩

def agentSubmit : CapId := CapId.new 0 1
def served : Server Virtio 16 32 :=
  { table := channels
    runtime := ⟨(Lease.start ⟨System.configured, System.configured⟩ fun i => 4096 * (i + 1)).bind
      Except.toOption, true⟩
    caps := serviceCaps, recycled := false, pc := .head
    accepted := [], reported := [], owed := none }

theorem served_init : Init served :=
  ⟨rfl, rfl, rfl, rfl, by decide +kernel, by decide +kernel⟩

def sent (v : Virtio) : Virtio :=
  let rings := v.tx.rings
  { v with tx := { v.tx with rings := { rings with
      usedRing := Function.update rings.usedRing (rings.usedIdx % queueSize)
        ⟨rings.usedIdx % queueSize, 0⟩
      usedIdx := (rings.usedIdx + 1) % 2 ^ 16 } } }

def round (slot : ℕ) : List (Op Virtio) :=
  [.agent (.send agentSubmit ⟨tagTxSubmit, pack ⟨UInt8.ofNat slot, 0, 60⟩, 0⟩),
    .server 0, .server 0, .server 0, .device sent, .server 4, .server 0, .server 0, .server 0]

/-- Two frames went through the loop and the service has the request for a third. -/
theorem waiting_none_served : ∃ s : Server Virtio 16 32,
    Reach Init step (fun _ op => ∀ fuel, op ≠ .idle fuel) s ∧ s.pc ≠ .head ∧
      s.reported.length = 2 ∧ s.waiting = none := by
  have hstart : Reach Init step (fun _ op => ∀ fuel, op ≠ .idle fuel) served :=
    Reach.start served_init
  have hrun : (run step served (.device sent :: round 0 ++ round 1 ++ (round 2).take 2)).any
      (fun s => decide (s.pc ≠ .completing ∧ s.pc ≠ .head ∧ s.reported.length = 2)) = true := by
    decide +kernel
  obtain ⟨s, hs, hP⟩ := (Option.any_eq_true _ _).mp hrun
  obtain ⟨hpc, hhead, hreported⟩ := of_decide_eq_true hP
  have hreach := hstart.run _ (fun _ op hop fuel heq => ?_) hs
  · exact ⟨s, hreach, hhead, hreported, waiting_none hreach hpc⟩
  subst heq
  simp [round] at hop

end Bench

end Server

end HarborKernel.Network
