import HarborKernel.ReadyQueue

/-!
The ready queue with its checks (`runqueue.rs`): a remainder by zero and an index outside the
slots are panics, which are `none` here. Without a panic it is the ring of the scheduler's model,
and its calls answer as a bounded first-in first-out list does, for every capacity.
-/

namespace HarborKernel.RunQueueCalls

open Function ReadyQueue RingBuffer

structure Queue (cap : ℕ) where
  slots : ℕ → TaskId := fun _ => TaskId.new 0 0
  head : ℕ := 0
  len : ℕ := 0

inductive Call
  | enqueue (id : TaskId)
  | dequeue
  | front
  | forEachReady
  | afterYield (requeue : Option TaskId)

inductive Answer
  | accepted
  | full
  | task (id : Option TaskId)
  | visited (ids : List TaskId)
deriving DecidableEq

def rem (a b : ℕ) : Option ℕ := if b = 0 then none else some (a % b)

namespace Queue

variable {cap : ℕ}

def get (q : Queue cap) (i : ℕ) : Option TaskId := if i < cap then some (q.slots i) else none

def set (q : Queue cap) (i : ℕ) (id : TaskId) : Option (ℕ → TaskId) :=
  if i < cap then some (update q.slots i id) else none

def enqueue (q : Queue cap) (id : TaskId) : Option (Answer × Queue cap) :=
  if q.len = cap then some (.full, q)
  else do
    let tail ← rem (q.head + q.len) cap
    let slots ← q.set tail id
    return (.accepted, { q with slots, len := q.len + 1 })

def dequeue (q : Queue cap) : Option (Answer × Queue cap) :=
  if q.len = 0 then some (.task none, q)
  else do
    let id ← q.get q.head
    let head ← rem (q.head + 1) cap
    return (.task (some id), { q with head, len := q.len - 1 })

def front (q : Queue cap) : Option (Answer × Queue cap) :=
  if q.len = 0 then some (.task none, q)
  else do
    let id ← q.get q.head
    return (.task (some id), q)

def forEachReady (q : Queue cap) : Option (Answer × Queue cap) := do
  let ids ← (List.range q.len).mapM fun i => do q.get (← rem (q.head + i) cap)
  return (.visited ids, q)

def afterYield (q : Queue cap) : Option TaskId → Option (Answer × Queue cap)
  | none => q.dequeue
  | some id => do
    let (answer, q) ← q.enqueue id
    if answer = .full then return (.full, q) else q.dequeue

def call (q : Queue cap) : Call → Option (Answer × Queue cap)
  | .enqueue id => q.enqueue id
  | .dequeue => q.dequeue
  | .front => q.front
  | .forEachReady => q.forEachReady
  | .afterYield requeue => q.afterYield requeue

/-- The queue is the ring of the scheduler's model with this list of ids. -/
def Lists (q : Queue cap) (ids : List TaskId) : Prop :=
  ∃ r : RunQueue cap, q = ⟨r.slots, r.head, r.len⟩ ∧ r.ready = ids

end Queue

def fifo (cap : ℕ) (ids : List TaskId) : Call → Answer × List TaskId
  | .enqueue id => if ids.length = cap then (.full, ids) else (.accepted, ids ++ [id])
  | .dequeue => (.task ids.head?, ids.tail)
  | .front => (.task ids.head?, ids)
  | .forEachReady => (.visited ids, ids)
  | .afterYield none => (.task ids.head?, ids.tail)
  | .afterYield (some id) =>
    if ids.length = cap then (.full, ids) else (.task (ids ++ [id]).head?, (ids ++ [id]).tail)

section Calls

variable {cap : ℕ} {q : Queue cap} {ids : List TaskId}

theorem Queue.Lists.len_eq (h : q.Lists ids) : q.len = ids.length := by
  obtain ⟨r, rfl, rfl⟩ := h
  exact (Ring.length_toList r).symm

theorem Queue.Lists.enqueue (h : q.Lists ids) (id : TaskId) (hroom : ids.length ≠ cap) :
    ∃ q', q.enqueue id = some (.accepted, q') ∧ q'.Lists (ids ++ [id]) := by
  have hlen := h.len_eq
  obtain ⟨r, rfl, rfl⟩ := h
  have hle := r.len_le
  simp only at hlen
  have hcap : cap ≠ 0 := by omega
  have hmod : (r.head + r.len) % cap < cap := Nat.mod_lt _ (by omega)
  obtain ⟨r', hr'⟩ := RunQueue.exists_enqueue r id (by omega)
  refine ⟨⟨r'.slots, r'.head, r'.len⟩, ?_, r', rfl, RunQueue.enqueue_ready r r' id hr'⟩
  simp only [RunQueue.enqueue, Ring.push, dif_neg (hlen ▸ hroom), Option.some.injEq] at hr'
  subst hr'
  simp only [Queue.enqueue, if_neg (hlen ▸ hroom), rem, if_neg hcap, Queue.set, Option.bind_eq_bind,
    Option.bind_some, if_pos hmod]
  rfl

theorem Queue.Lists.enqueue_full (h : q.Lists ids) (id : TaskId) (hfull : ids.length = cap) :
    q.enqueue id = some (.full, q) := if_pos (h.len_eq.trans hfull)

theorem Queue.Lists.get_head (h : q.Lists ids) (hne : q.len ≠ 0) :
    0 < cap ∧ q.get q.head = ids.head? := by
  obtain ⟨r, rfl, rfl⟩ := h
  have hcap : 0 < cap := Nat.lt_of_lt_of_le (Nat.pos_of_ne_zero hne) r.len_le
  refine ⟨hcap, ?_⟩
  have hfront := RunQueue.front_ready r
  rw [Ring.front, if_neg hne] at hfront
  exact (if_pos (r.head_lt hcap)).trans hfront

theorem Queue.Lists.dequeue (h : q.Lists ids) :
    ∃ q', q.dequeue = some (.task ids.head?, q') ∧ q'.Lists ids.tail := by
  have hlen := h.len_eq
  unfold Queue.dequeue
  cases ids with
  | nil =>
    exact ⟨q, if_pos hlen, h⟩
  | cons id rest =>
    have hne : q.len ≠ 0 := by
      rw [hlen]
      exact Nat.succ_ne_zero _
    obtain ⟨hcap, hget⟩ := h.get_head hne
    obtain ⟨r, rfl, hr⟩ := h
    obtain ⟨r', hr', hrest⟩ := RunQueue.exists_dequeue r id rest hr
    refine ⟨⟨r'.slots, r'.head, r'.len⟩, ?_, r', rfl, hrest⟩
    simp only [RunQueue.dequeue, Ring.pop, if_neg hne, Option.some.injEq, Prod.mk.injEq] at hr'
    obtain ⟨-, rfl⟩ := hr'
    rw [if_neg hne, hget, rem, if_neg hcap.ne']
    rfl

theorem mapM_some {α β : Type} {f : α → Option β} {g : α → β} {l : List α}
    (h : ∀ a ∈ l, f a = some (g a)) : l.mapM f = some (l.map g) := by
  induction l with
  | nil => rfl
  | cons a l ih =>
    rw [List.mapM_cons, h a (List.mem_cons_self ..),
      ih fun b hb => h b (List.mem_cons_of_mem _ hb)]
    rfl

theorem Queue.Lists.forEachReady (h : q.Lists ids) : q.forEachReady = some (.visited ids, q) := by
  obtain ⟨r, rfl, rfl⟩ := h
  unfold Queue.forEachReady
  rw [mapM_some (g := fun i => r.slots ((r.head + i) % cap))]
  · rfl
  intro i hi
  have hcap : 0 < cap := Nat.lt_of_lt_of_le (Nat.zero_lt_of_lt (List.mem_range.1 hi)) r.len_le
  rw [rem, if_neg hcap.ne']
  exact if_pos (Nat.mod_lt _ hcap)

/-- Each call answers as the list does; one that is refused changes nothing. -/
theorem Queue.Lists.call (h : q.Lists ids) (c : Call) :
    ∃ q', q.call c = some ((fifo cap ids c).1, q') ∧ q'.Lists (fifo cap ids c).2 ∧
      ((fifo cap ids c).1 = .full → q' = q) := by
  cases c with
  | enqueue id =>
    simp only [Queue.call, fifo]
    split
    · rename_i hfull
      exact ⟨q, h.enqueue_full id hfull, h, fun _ => rfl⟩
    rename_i hroom
    obtain ⟨q', hq', hlists⟩ := h.enqueue id hroom
    exact ⟨q', hq', hlists, nofun⟩
  | dequeue =>
    obtain ⟨q', hq', hlists⟩ := h.dequeue
    exact ⟨q', hq', hlists, nofun⟩
  | front =>
    refine ⟨q, ?_, h, nofun⟩
    simp only [Queue.call, Queue.front, fifo]
    split
    · rename_i hzero
      rw [h.len_eq, List.length_eq_zero_iff] at hzero
      rw [hzero]
      rfl
    rename_i hne
    obtain ⟨-, hget⟩ := h.get_head hne
    cases ids with
    | nil => exact absurd h.len_eq hne
    | cons id rest =>
      rw [hget]
      rfl
  | forEachReady => exact ⟨q, h.forEachReady, h, nofun⟩
  | afterYield requeue =>
    cases requeue with
    | none =>
      obtain ⟨q', hq', hlists⟩ := h.dequeue
      exact ⟨q', hq', hlists, nofun⟩
    | some id =>
      simp only [Queue.call, Queue.afterYield, fifo]
      split
      · rename_i hfull
        rw [h.enqueue_full id hfull]
        exact ⟨q, rfl, h, fun _ => rfl⟩
      rename_i hroom
      obtain ⟨q₁, hq₁, h₁⟩ := h.enqueue id hroom
      obtain ⟨q', hq', hlists⟩ := h₁.dequeue
      rw [hq₁]
      exact ⟨q', hq', hlists, nofun⟩

end Calls

/-- After any calls, for any capacity, the queue has not panicked and lists what a bounded
first-in first-out list holds after them; the next call answers as that list does, and leaves
the queue as it is where it is refused. -/
theorem run_queue_is_fifo (cap : ℕ) (calls : List Call) (c : Call) :
    let ids := calls.foldl (fun ids c => (fifo cap ids c).2) []
    ∃ q q' : Queue cap, calls.foldlM (fun q c => (q.call c).map Prod.snd) {} = some q ∧
      q.Lists ids ∧ q.call c = some ((fifo cap ids c).1, q') ∧
      ((fifo cap ids c).1 = .full → q' = q) := by
  have hrun : ∀ (q : Queue cap) (ids : List TaskId), q.Lists ids →
      ∃ q', calls.foldlM (fun q c => (q.call c).map Prod.snd) q = some q' ∧
        q'.Lists (calls.foldl (fun ids c => (fifo cap ids c).2) ids) := by
    induction calls with
    | nil => exact fun q ids h => ⟨q, rfl, h⟩
    | cons c rest ih =>
      intro q ids h
      obtain ⟨q₁, hq₁, h₁, -⟩ := h.call c
      obtain ⟨q', hq', hlists⟩ := ih q₁ _ h₁
      refine ⟨q', ?_, hlists⟩
      rw [List.foldlM_cons, hq₁]
      exact hq'
  obtain ⟨q, hq, hlists⟩ := hrun {} [] ⟨RunQueue.new, rfl, RunQueue.ready_new⟩
  obtain ⟨q', hq', -, hfull⟩ := hlists.call c
  exact ⟨q, q', hq, hlists, hq', hfull⟩

/-- A queue without slots refuses every id. -/
theorem run_queue_is_fifo_zero : ∃ q q' : Queue 0,
    [Call.dequeue, .forEachReady].foldlM (fun q c => (q.call c).map Prod.snd) {} = some q ∧
      q.Lists [] ∧ q.call (.afterYield (some (TaskId.new 1 0))) = some (.full, q') ∧ q' = q := by
  obtain ⟨q, q', hq, hlists, hcall, hfull⟩ :=
    run_queue_is_fifo 0 [.dequeue, .forEachReady] (.afterYield (some (TaskId.new 1 0)))
  exact ⟨q, q', hq, hlists, hcall, hfull rfl⟩

end HarborKernel.RunQueueCalls
