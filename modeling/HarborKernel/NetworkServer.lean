import HarborKernel.Channels
import HarborKernel.NetworkRuntime
import HarborKernel.Transition

/-!
The network service (`bootstrap/network_server.rs`) among the other users of the channels and the
lease. Each call into the table of channels or the runtime is a step; between two of them agents
call the table as they like, the device changes the transport, and the console loop may poll. A
record is kept of the transmissions that were accepted since the pool was last reset.
-/

namespace HarborKernel.Network

open Capability Ipc Net Transition

structure Caps where
  txRequest : CapId
  txComplete : CapId
  rxReturn : CapId
  rxAvailable : CapId

inductive Pc
  | head
  | request (message : Message)
  | answer (response : Message)
  /-- `recycle_after_session`, which either receive loop may call. -/
  | recycleRequest
  | returns
  | returned (message : Message)
  | recycleReturn
  | polling
  | completing
  | complete (token : PacketToken)
  | available
  | deliver (token : PacketToken)
  | undeliver (token : PacketToken)
deriving DecidableEq

def depth : ℕ := 4

structure Server (σ : Type) (M E : ℕ) where
  table : Table M E depth
  runtime : Runtime σ
  caps : Caps
  /-- `SESSION_RECYCLED` -/
  recycled : Bool
  pc : Pc
  /-- Tokens accepted in this generation of the pool, and those that were reported. -/
  accepted : List PacketToken
  reported : List PacketToken
  /-- The token that the service has taken and not yet reported. -/
  owed : Option PacketToken

def Lease.generation {σ : Type} (l : Lease σ) : UInt32 := (l.pool.slots 0).generation

namespace Server

variable {σ ε : Type} [Transport σ ε] {M E : ℕ}

def renew (s : Server σ M E) (runtime : Runtime σ) : Server σ M E :=
  if runtime.lease.map Lease.generation = s.runtime.lease.map Lease.generation then
    { s with runtime }
  else { s with runtime, accepted := [], reported := [], owed := none }

def recycle (s : Server σ M E) : Server σ M E :=
  if s.recycled then s
  else
    match s.runtime.recycleAfterSession with
    | (.ok (), runtime) => { s.renew runtime with recycled := true }
    | (.error _, runtime) => s.renew runtime

def serve (s : Server σ M E) (message : Message) : Server σ M E :=
  match decode message with
  | .ok (.txSubmit token) =>
    match s.runtime.submitServiceTx token with
    | (.ok (), runtime) => { s with runtime, pc := .returns, accepted := s.accepted ++ [token] }
    | (.error _, runtime) => { s with runtime, pc := .answer (refused 1) }
  | .error _ => { s with pc := .answer (refused 2) }
  | .ok (.rxReturn token) =>
    match s.runtime.returnServiceRx token with
    | (.error _, runtime) => { s with runtime, pc := .returns }
    | (.ok (), runtime) => { s with runtime, pc := .recycleRequest }

def serveReturn (s : Server σ M E) (message : Message) : Server σ M E :=
  match decode message with
  | .ok (.rxReturn token) =>
    match s.runtime.returnServiceRx token with
    | (.ok (), runtime) => { s with runtime, pc := .recycleReturn }
    | (.error _, runtime) => { s with runtime, pc := .polling }
  | _ => { s with pc := .polling }

def turn (s : Server σ M E) (fuel : ℕ) : Option (Server σ M E) :=
  match s.pc with
  | .head =>
    match s.table.tryRecv s.caps.txRequest with
    | (.ok message, table) => some { s with table, pc := .request message }
    | (.error _, table) => some { s with table, pc := .returns }
  | .request message => some (s.serve message)
  | .answer response =>
    some { s with table := (s.table.send s.caps.txComplete response).2, pc := .returns }
  | .recycleRequest => some { s.recycle with pc := .returns }
  | .returns =>
    match s.table.tryRecv s.caps.rxReturn with
    | (.ok message, table) => some { s with table, pc := .returned message }
    | (.error _, table) => some { s with table, pc := .polling }
  | .returned message => some (s.serveReturn message)
  | .recycleReturn => some { s.recycle with pc := .polling }
  | .polling => (s.runtime.poll fuel).map fun runtime =>
      { s.renew runtime with pc := .completing }
  | .completing =>
    match s.runtime.takeTxComplete with
    | (some token, runtime) => some { s with runtime, pc := .complete token, owed := some token }
    | (none, runtime) => some { s with runtime, pc := .available }
  | .complete token =>
    match s.table.send s.caps.txComplete (txComplete token) with
    | (.ok _, table) => some { s with
        table, pc := .available, reported := s.reported ++ s.owed.toList, owed := none }
    | (.error _, table) => some { s with table, pc := .available, owed := none }
  | .available =>
    match s.runtime.takeRxAvailable with
    | (some token, runtime) => some { s with runtime, pc := .deliver token }
    | (none, runtime) => some { s with runtime, pc := .head }
  | .deliver token =>
    match s.table.send s.caps.rxAvailable (rxAvailable token) with
    | (.ok _, table) => some { s with table, pc := .head }
    | (.error _, table) => some { s with table, pc := .undeliver token }
  | .undeliver token =>
    some { s with runtime := (s.runtime.returnServiceRx token).2, pc := .head }

inductive Op (σ : Type)
  | server (fuel : ℕ)
  | agent (call : Channels.Op)
  | device (act : σ → σ)
  /-- The poll of the console loop. -/
  | idle (fuel : ℕ)

def step (s : Server σ M E) : Op σ → Option (Server σ M E)
  | .server fuel => s.turn fuel
  | .agent call => some { s with table := (Channels.exec s.table call).2 }
  | .device act => some { s with runtime := { s.runtime with
      lease := s.runtime.lease.map fun l => { l with transport := act l.transport } } }
  | .idle fuel => (s.runtime.poll fuel).map s.renew

end Server

namespace Lease

variable {σ ε : Type} [Transport σ ε]

def due (l : Lease σ) : List PacketToken := l.txEvent.toList ++ l.serviceTx.toList

def Single (l : Lease σ) : Prop := l.txEvent = none ∨ l.serviceTx = none

structure Untold (l l' : Lease σ) : Prop where
  serviceTx : l'.serviceTx = l.serviceTx
  txEvent : l'.txEvent = l.txEvent
  generation : l'.generation = l.generation

theorem setState_generation (p : PacketPool) (slot : ℕ) (state : SlotState) (i : ℕ) :
    ((p.setState slot state).slots i).generation = (p.slots i).generation := by
  simp only [PacketPool.setState, Function.update_apply]
  split
  · rename_i heq
    rw [heq]
  · rfl

theorem acceptTx_generation (p : PacketPool) (token : PacketToken) (i : ℕ) :
    ((p.acceptTx token).2.slots i).generation = (p.slots i).generation := by
  unfold PacketPool.acceptTx
  repeat' split
  all_goals first | rfl | exact setState_generation ..

theorem completeTx_generation (p : PacketPool) (token : PacketToken) (i : ℕ) :
    ((p.completeTx token).2.slots i).generation = (p.slots i).generation := by
  unfold PacketPool.completeTx
  repeat' split
  all_goals first | rfl | exact setState_generation ..

theorem publishRx_generation (p : PacketPool) (slot len i : ℕ) :
    ((p.publishRx slot len).2.slots i).generation = (p.slots i).generation := by
  unfold PacketPool.publishRx
  repeat' split
  all_goals first | rfl | exact setState_generation ..

theorem returnRx_generation (p : PacketPool) (token : PacketToken) (i : ℕ) :
    ((p.returnRx token).2.slots i).generation = (p.slots i).generation := by
  unfold PacketPool.returnRx
  repeat' split
  all_goals first | rfl | exact setState_generation ..

theorem submitServiceTx_due (l : Lease σ) (token : PacketToken) :
    ((l.submitServiceTx token).1 = .ok () ∧ (l.submitServiceTx token).2.due = l.due ++ [token] ∧
      (l.submitServiceTx token).2.txEvent = l.txEvent ∧
      (l.submitServiceTx token).2.generation = l.generation) ∨
    ((l.submitServiceTx token).1 ≠ .ok () ∧ Untold l (l.submitServiceTx token).2) := by
  have haccept := acceptTx_generation l.pool token 0
  unfold submitServiceTx
  by_cases hbusy : l.serviceTx.isSome = true
  · rw [if_pos hbusy]
    exact .inr ⟨nofun, rfl, rfl, rfl⟩
  rw [if_neg hbusy]
  have hnone : l.serviceTx = none := Option.not_isSome_iff_eq_none.1 hbusy
  rcases hpool : l.pool.acceptTx token with ⟨_ | _, pool⟩
  · rw [hpool] at haccept
    exact .inr ⟨nofun, rfl, rfl, haccept⟩
  rw [hpool] at haccept
  rcases Transport.submitTx l.transport token ⟨l.dma serviceTxDmaIndex, token.len.toNat⟩ with
    ⟨_ | _, transport⟩
  · exact .inr ⟨nofun, rfl, rfl, (completeTx_generation pool token 0).trans haccept⟩
  · refine .inl ⟨rfl, ?_, rfl, haccept⟩
    simp only [due, hnone, Option.toList_none, Option.toList_some, List.append_nil]

theorem returnServiceRx_untold (l : Lease σ) (token : PacketToken) :
    Untold l (l.returnServiceRx token).2 := by
  have hreturn := returnRx_generation l.pool token 0
  unfold returnServiceRx
  rcases hpool : l.pool.returnRx token with ⟨_ | _, pool⟩
  · rw [hpool] at hreturn
    exact ⟨rfl, rfl, hreturn⟩
  rw [hpool] at hreturn
  rcases Transport.returnRx l.transport token (l.rxBuffer token.slot.toNat) with ⟨_ | _, _⟩
  · exact ⟨rfl, rfl, hreturn⟩
  · exact ⟨rfl, rfl, hreturn⟩

theorem repost_untold (slots : List ℕ) : ∀ l : Lease σ, Untold l (repost slots l).2 := by
  induction slots with
  | nil => exact fun l => ⟨rfl, rfl, rfl⟩
  | cons slot rest ih =>
    intro l
    have hpublish := publishRx_generation l.pool slot 0 0
    unfold repost
    rcases hpool : l.pool.publishRx slot 0 with ⟨_ | token, pool⟩
    · rw [hpool] at hpublish
      exact ⟨rfl, rfl, hpublish⟩
    have hreturn := returnRx_generation pool token 0
    rw [hpool] at hpublish
    simp only
    rcases hpool' : pool.returnRx token with ⟨_ | _, pool'⟩
    · rw [hpool'] at hreturn
      exact ⟨rfl, rfl, hreturn.trans hpublish⟩
    rw [hpool'] at hreturn
    rcases Transport.returnRx l.transport token (l.rxBuffer slot) with ⟨_ | _, transport⟩
    · exact ⟨rfl, rfl, hreturn.trans hpublish⟩
    · obtain ⟨htx, hevent, hgen⟩ := ih { l with transport, pool := pool' }
      exact ⟨htx, hevent, hgen.trans (hreturn.trans hpublish)⟩

/-- A recovery forgets the transmissions with the generation, or leaves both. -/
theorem recover_due (l : Lease σ) :
    Untold l l.recover.2 ∨
      (l.recover.2.generation ≠ l.generation ∧ l.recover.2.serviceTx = none ∧
        l.recover.2.txEvent = none) := by
  unfold recover
  rcases Transport.reset l.transport with ⟨_ | _, transport⟩
  · exact .inl ⟨rfl, rfl, rfl⟩
  obtain ⟨htx, hevent, hgen⟩ := repost_untold rxSlots { l with
    transport, pool := l.pool.reset, serviceTx := none, txEvent := none, rxEvent := none }
  refine .inr ⟨?_, htx, hevent⟩
  rw [hgen]
  intro heq
  have hnat := congrArg UInt32.toNat
    (show (l.pool.slots 0).generation + 1 = (l.pool.slots 0).generation from heq)
  have hlt := (l.pool.slots 0).generation.toNat_lt
  rw [UInt32.toNat_add, UInt32.toNat_one] at hnat
  omega

theorem finish_due {l : Lease σ} (h : l.Single) (token : PacketToken) :
    (l.finish token).due = l.due ∧ (l.finish token).Single ∧
      (l.finish token).generation = l.generation := by
  unfold finish
  by_cases hown : l.serviceTx = some token
  · have hnone : l.txEvent = none := h.resolve_right (by rw [hown]; nofun)
    rw [if_pos hown]
    refine ⟨?_, .inr rfl, completeTx_generation l.pool token 0⟩
    simp only [due, hown, hnone, Option.toList_none, Option.toList_some, List.append_nil,
      List.nil_append]
  · rw [if_neg hown]
    exact ⟨rfl, h, rfl⟩

theorem takeTxComplete_due (l : Lease σ) :
    l.due = l.takeTxComplete.1.toList ++ l.takeTxComplete.2.due ∧ l.takeTxComplete.2.Single ∧
      l.takeTxComplete.2.generation = l.generation ∧ l.takeTxComplete.2.txEvent = none := by
  unfold takeTxComplete
  cases hevent : l.txEvent with
  | some token =>
    simp only [due, hevent, Option.toList_none, List.nil_append]
    exact ⟨trivial, .inl rfl, rfl, trivial⟩
  | none =>
    rcases Transport.takeTxComplete l.transport with ⟨_ | ⟨token, completion⟩, transport⟩
    · exact ⟨by rw [due, hevent]; rfl, .inl rfl, rfl, rfl⟩
    obtain ⟨hdue, -, hgen⟩ :=
      finish_due (l := { l with transport, txEvent := none }) (.inl rfl) token
    refine ⟨?_, .inl rfl, hgen, rfl⟩
    rw [due, hevent]
    exact hdue.symm

theorem receive_untold (l : Lease σ) (active : Bool) (token : PacketToken)
    (completion : Completion) : Untold l (l.receive active token completion) := by
  have hpublish := publishRx_generation l.pool token.slot.toNat completion.len 0
  unfold receive
  rcases hpool : l.pool.publishRx token.slot.toNat completion.len with ⟨_ | published, pool⟩
  · rw [hpool] at hpublish
    exact ⟨rfl, rfl, hpublish⟩
  rw [hpool] at hpublish
  simp only
  split
  · exact ⟨rfl, rfl, hpublish⟩
  · exact ⟨rfl, rfl, (returnRx_generation pool published 0).trans hpublish⟩

theorem Untold.trans {l l' l'' : Lease σ} (h : Untold l l') (h' : Untold l' l'') :
    Untold l l'' :=
  ⟨h'.serviceTx.trans h.serviceTx, h'.txEvent.trans h.txEvent, h'.generation.trans h.generation⟩

theorem drainRx_untold (active : Bool) (fuel : ℕ) : ∀ {l l' : Lease σ},
    drainRx active fuel l = some l' → Untold l l' := by
  induction fuel with
  | zero =>
    intro l l' h
    cases h
  | succ fuel ih =>
    intro l l' h
    unfold drainRx at h
    rcases htake : Transport.takeRxAvailable l.transport with ⟨_ | ⟨token, completion⟩, transport⟩
    · rw [htake] at h
      cases h
      exact ⟨rfl, rfl, rfl⟩
    rw [htake] at h
    obtain ⟨htx, hevent, hgen⟩ :=
      receive_untold { l with transport } active token completion
    exact Untold.trans ⟨htx, hevent, hgen⟩ (ih h)

theorem drainTx_due (fuel : ℕ) : ∀ {l l' : Lease σ}, l.Single → drainTx fuel l = some l' →
    l'.due = l.due ∧ l'.Single ∧ l'.generation = l.generation := by
  induction fuel with
  | zero =>
    intro l l' _ h
    cases h
  | succ fuel ih =>
    intro l l' hsingle h
    unfold drainTx at h
    rcases htake : Transport.takeTxComplete l.transport with ⟨_ | ⟨token, completion⟩, transport⟩
    · rw [htake] at h
      cases h
      exact ⟨rfl, hsingle, rfl⟩
    rw [htake] at h
    obtain ⟨hdue, hsingle', hgen⟩ := finish_due (l := { l with transport }) hsingle token
    obtain ⟨hdue2, hsingle2, hgen2⟩ := ih hsingle' h
    exact ⟨hdue2.trans hdue, hsingle2, hgen2.trans hgen⟩

theorem Untold.due {l l' : Lease σ} (h : Untold l l') : l'.due = l.due := by
  rw [Lease.due, Lease.due, h.serviceTx, h.txEvent]

theorem Untold.single {l l' : Lease σ} (h : Untold l l') (hl : l.Single) : l'.Single := by
  rw [Single, h.serviceTx, h.txEvent]
  exact hl

def Renewed (l l' : Lease σ) : Prop :=
  (l'.generation = l.generation ∧ l'.due = l.due ∧ l'.Single) ∨
    (l'.generation ≠ l.generation ∧ l'.due = [] ∧ l'.Single)

theorem recover_renewed {l : Lease σ} (h : l.Single) : Renewed l l.recover.2 := by
  rcases l.recover_due with hsame | ⟨hgen, htx, hevent⟩
  · exact .inl ⟨hsame.generation, hsame.due, hsame.single h⟩
  · exact .inr ⟨hgen, by rw [due, htx, hevent]; rfl, .inl hevent⟩

theorem poll_renewed {active : Bool} {fuel : ℕ} {l l' : Lease σ} (h : l.Single)
    (hpoll : l.poll active fuel = some l') : Renewed l l' := by
  unfold poll at hpoll
  rcases htransport : Transport.poll fuel l.transport with _ | ⟨_ | _, transport⟩
  · rw [htransport] at hpoll
    cases hpoll
  · rw [htransport] at hpoll
    cases hpoll
    exact recover_renewed (l := { l with transport }) h
  · rw [htransport] at hpoll
    obtain ⟨l1, hrx, htx⟩ := Option.bind_eq_some_iff.1 hpoll
    have hsame := drainRx_untold active fuel hrx
    obtain ⟨hdue, hsingle, hgen⟩ := drainTx_due fuel (hsame.single h) htx
    exact .inl ⟨hgen.trans hsame.generation, hdue.trans hsame.due, hsingle⟩

end Lease

end HarborKernel.Network
