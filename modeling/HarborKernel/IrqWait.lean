import HarborKernel.ReadyQueue

/-!
Waiting for an interrupt and the queue of wake tokens (`irqwait.rs`, `wake.rs`).
A task arms a cookie, a signal disarms it and leaves a pending mark under the
task's full id, and the task consumes the mark. The wake queue is a ring with one
slot always free; its slots hold packed ids.
-/

namespace HarborKernel.IrqWait

open Function ReadyQueue RingBuffer

def maxWaiters : ℕ := 8

def maxTaskIds : ℕ := 64

inductive ArmError
  | badTask
  | cookieBusy
  | taskBusy
  | full
deriving DecidableEq

structure WaitTable where
  cookies : ℕ → UInt32
  tasks : ℕ → Option TaskId
  pending : ℕ → Option TaskId

namespace WaitTable

def new : WaitTable := ⟨fun _ => 0, fun _ => none, fun _ => none⟩

def clash (w : WaitTable) (cookie : UInt32) (task : TaskId) : Option ArmError :=
  (List.range maxWaiters).findSome? fun i =>
    match w.tasks i with
    | none => none
    | some t =>
      if w.cookies i = cookie then some .cookieBusy
      else if t = task then some .taskBusy else none

def arm (w : WaitTable) (cookie : UInt32) (task : TaskId) : Except ArmError Unit × WaitTable :=
  if maxTaskIds ≤ task.index then (.error .badTask, w)
  else
    match w.clash cookie task with
    | some e => (.error e, w)
    | none =>
      match (List.range maxWaiters).find? fun i => (w.tasks i).isNone with
      | none => (.error .full, w)
      | some i => (.ok (), { w with
          cookies := update w.cookies i cookie
          tasks := update w.tasks i (some task) })

def disarmTask (w : WaitTable) (task : TaskId) : WaitTable :=
  { w with tasks := fun i => if w.tasks i = some task then none else w.tasks i }

def armedFor (w : WaitTable) (cookie : UInt32) : Option ℕ :=
  (List.range maxWaiters).find? fun i => (w.tasks i).isSome && w.cookies i = cookie

def signal (w : WaitTable) (cookie : UInt32) : Option TaskId × WaitTable :=
  match w.armedFor cookie with
  | none => (none, w)
  | some i =>
    match w.tasks i with
    | none => (none, w)
    | some task => (some task, { w with
        tasks := update w.tasks i none
        pending := if task.index < maxTaskIds then
            update w.pending task.index (some task)
          else w.pending })

def isPending (w : WaitTable) (task : TaskId) : Bool :=
  task.index < maxTaskIds && w.pending task.index = some task

def takePending (w : WaitTable) (task : TaskId) : Bool × WaitTable :=
  if w.isPending task then
    (true, { w with pending := update w.pending task.index none })
  else (false, w)

variable {w : WaitTable} {task id : TaskId}

theorem isPending_iff :
    w.isPending task = true ↔ task.index < maxTaskIds ∧ w.pending task.index = some task := by
  simp [isPending]

theorem arm_pending (w : WaitTable) (cookie : UInt32) (task : TaskId) :
    (w.arm cookie task).2.pending = w.pending := by
  unfold arm
  split
  · rfl
  split
  · rfl
  · split <;> rfl

theorem takePending_fst (w : WaitTable) (task : TaskId) :
    (w.takePending task).1 = w.isPending task := by
  unfold takePending
  split <;> simp_all

theorem isPending_of_takePending (h : (w.takePending task).2.isPending id = true) :
    w.isPending id = true := by
  unfold takePending at h
  split at h
  · rw [isPending_iff] at h ⊢
    obtain ⟨hlt, hid⟩ := h
    simp only [update_apply] at hid
    split at hid
    · contradiction
    · exact ⟨hlt, hid⟩
  · exact h

theorem takePending_entries (w : WaitTable) (task : TaskId) :
    (w.takePending task).2.tasks = w.tasks ∧ (w.takePending task).2.cookies = w.cookies := by
  unfold takePending
  split <;> exact ⟨rfl, rfl⟩

theorem takePending_self (w : WaitTable) (task : TaskId) :
    (w.takePending task).2.isPending task = false := by
  unfold takePending
  split
  · simp [isPending]
  · simp_all

/-- A signal marks the task it disarms and nobody else. -/
theorem signal_isPending {w : WaitTable} {cookie : UInt32} {id : TaskId}
    (h : (w.signal cookie).2.isPending id = true) :
    w.isPending id = true ∨ (w.signal cookie).1 = some id := by
  unfold signal at h ⊢
  split at h
  · exact .inl h
  split at h
  · exact .inl h
  rename_i task htask
  rw [isPending_iff] at h
  obtain ⟨hlt, hid⟩ := h
  simp only at hid ⊢
  split at hid
  · rw [update_apply] at hid
    split at hid
    · exact .inr hid
    · exact .inl (isPending_iff.mpr ⟨hlt, hid⟩)
  · exact .inl (isPending_iff.mpr ⟨hlt, hid⟩)

theorem signal_cases (w : WaitTable) (cookie : UInt32) :
    w.signal cookie = (none, w) ∨
    ∃ k task, k < maxWaiters ∧ w.tasks k = some task ∧ w.cookies k = cookie ∧
      w.signal cookie = (some task, { w with
        tasks := update w.tasks k none
        pending := if task.index < maxTaskIds then
            update w.pending task.index (some task)
          else w.pending }) := by
  unfold signal
  cases harmed : w.armedFor cookie with
  | none => exact .inl rfl
  | some k =>
    have hk := List.mem_range.mp (List.mem_of_find?_eq_some harmed)
    have hentry := List.find?_some harmed
    simp only [Bool.and_eq_true, decide_eq_true_eq] at hentry
    obtain ⟨task, htask⟩ := Option.isSome_iff_exists.mp hentry.1
    simp only [htask]
    exact .inr ⟨k, task, hk, htask, hentry.2, rfl⟩

theorem arm_cases (w : WaitTable) (cookie : UInt32) (task : TaskId) :
    (∃ e, w.arm cookie task = (.error e, w)) ∨
    ∃ k, k < maxWaiters ∧ w.tasks k = none ∧
      w.arm cookie task = (.ok (), { w with
        cookies := update w.cookies k cookie
        tasks := update w.tasks k (some task) }) := by
  unfold arm
  split
  · exact .inl ⟨_, rfl⟩
  split
  · exact .inl ⟨_, rfl⟩
  split
  · exact .inl ⟨_, rfl⟩
  rename_i k hfree
  have hk := List.mem_range.mp (List.mem_of_find?_eq_some hfree)
  have hnone := List.find?_some hfree
  exact .inr ⟨k, hk, Option.isNone_iff_eq_none.mp hnone, rfl⟩

theorem takePending_keeps (hid : w.isPending id = true) (hne : id.index ≠ task.index) :
    (w.takePending task).2.isPending id = true := by
  unfold takePending
  split
  · rw [isPending_iff] at hid ⊢
    exact ⟨hid.1, (update_of_ne hne ..).trans hid.2⟩
  · exact hid

end WaitTable

structure WakeQueue (n : ℕ) where
  slots : ℕ → UInt32
  head : ℕ
  tail : ℕ
  drops : UInt32

namespace WakeQueue

variable {n : ℕ}

def new : WakeQueue n := ⟨fun _ => 0, 0, 0, 0⟩

def next (n i : ℕ) : ℕ := (i + 1) % n

def push (q : WakeQueue n) (token : UInt32) : Bool × WakeQueue n :=
  if next n q.head = q.tail then (false, { q with drops := q.drops + 1 })
  else (true, { q with slots := update q.slots q.head token, head := next n q.head })

def pop (q : WakeQueue n) : Option (UInt32 × WakeQueue n) :=
  if q.tail = q.head then none
  else some (q.slots q.tail, { q with tail := next n q.tail })

/-- The loop of `drain`: at most `fuel` tokens leave the queue. -/
def popUpTo (q : WakeQueue n) : ℕ → List UInt32 × WakeQueue n
  | 0 => ([], q)
  | fuel + 1 =>
    match q.pop with
    | none => ([], q)
    | some (token, q1) =>
      let (rest, q2) := q1.popUpTo fuel
      (token :: rest, q2)

def tokens (q : WakeQueue n) : List UInt32 :=
  (List.range ((q.head + (n - q.tail)) % n)).map fun k => q.slots ((q.tail + k) % n)

structure Bounded (q : WakeQueue n) : Prop where
  head : q.head < n
  tail : q.tail < n

theorem new_bounded (hn : 0 < n) : (new : WakeQueue n).Bounded := ⟨hn, hn⟩

def toRing (q : WakeQueue n) (h : q.Bounded) : Ring UInt32 n where
  slots := q.slots
  head := q.tail
  len := (q.head + (n - q.tail)) % n
  len_le := (Nat.mod_lt _ (Nat.zero_lt_of_lt h.tail)).le
  head_lt := fun _ => h.tail

theorem used_eq {head tail : ℕ} (hh : head < n) (ht : tail < n) :
    (head + (n - tail)) % n = if tail ≤ head then head - tail else head + n - tail := by
  split
  · rw [show head + (n - tail) = head - tail + n by omega, Nat.add_mod_right,
      Nat.mod_eq_of_lt (by omega)]
  · rw [Nat.mod_eq_of_lt (by omega)]
    omega

variable {i : ℕ} {q : WakeQueue n}

theorem next_eq (hi : i < n) : next n i = if i + 1 = n then 0 else i + 1 := by
  unfold next
  split
  · rename_i heq
    rw [heq, Nat.mod_self]
  · exact Nat.mod_eq_of_lt (by omega)

theorem next_lt (hi : i < n) : next n i < n := Nat.mod_lt _ (Nat.zero_lt_of_lt hi)

theorem push_bounded (h : q.Bounded) (token : UInt32) : (q.push token).2.Bounded := by
  unfold push
  split
  · exact ⟨h.head, h.tail⟩
  · exact ⟨next_lt h.head, h.tail⟩

/-- A push that finds room appends its token; one that does not drops it. -/
theorem push_tokens (h : q.Bounded) (token : UInt32) :
    (q.push token).2.tokens = if (q.push token).1 then q.tokens ++ [token] else q.tokens := by
  have hused := used_eq h.head h.tail
  have hnext := next_eq h.head
  unfold push
  split
  · rfl
  rename_i hroom
  have hused' := used_eq (next_lt h.head) h.tail
  have hlen : (next n q.head + (n - q.tail)) % n = (q.head + (n - q.tail)) % n + 1 := by
    have := h.head
    have := h.tail
    split at hused <;> split at hused' <;> split at hnext <;> omega
  have hslot : (q.tail + (q.head + (n - q.tail)) % n) % n = q.head := by
    have hsum : q.tail + (q.head + (n - q.tail)) = q.head + n := by
      have := h.tail
      omega
    rw [Nat.add_mod_mod, hsum, Nat.add_mod_right, Nat.mod_eq_of_lt h.head]
  have hpush : (q.toRing h).push token = some ({ q with
      slots := update q.slots q.head token
      head := next n q.head }.toRing ⟨next_lt h.head, h.tail⟩) := by
    have hne : ¬ (q.head + (n - q.tail)) % n = n :=
      Nat.ne_of_lt (Nat.mod_lt _ (Nat.zero_lt_of_lt h.tail))
    simp only [Ring.push, toRing, dif_neg hne, hslot, hlen]
  exact Ring.push_toList _ _ _ hpush

theorem pop_spec (h : q.Bounded) :
    (q.pop = none ∧ q.tokens = []) ∨
    ∃ token q1, q.pop = some (token, q1) ∧ q1.Bounded ∧ q.tokens = token :: q1.tokens := by
  have hused := used_eq h.head h.tail
  unfold pop
  split
  · rename_i heq
    left
    rw [if_pos heq.le, heq, Nat.sub_self] at hused
    simp [tokens, heq, hused]
  rename_i hne
  right
  have hb : ({ q with tail := next n q.tail } : WakeQueue n).Bounded := ⟨h.head, next_lt h.tail⟩
  refine ⟨_, _, rfl, hb, ?_⟩
  have hnext := next_eq h.tail
  have hused' := used_eq h.head (next_lt h.tail)
  have hlen : (q.head + (n - next n q.tail)) % n = (q.head + (n - q.tail)) % n - 1 := by
    have := h.head
    have := h.tail
    split at hused <;> split at hused' <;> split at hnext <;> omega
  have hpos : ¬ (q.head + (n - q.tail)) % n = 0 := by
    have := h.head
    have := h.tail
    split at hused <;> omega
  have hpop : (q.toRing h).pop =
      some (q.slots q.tail, { q with tail := next n q.tail }.toRing hb) := by
    refine (if_neg hpos).trans ?_
    simp only [toRing, hlen]
    rfl
  exact Ring.pop_toList _ _ _ hpop

/-- Draining moves tokens from the queue to the caller and loses none. -/
theorem popUpTo_spec (fuel : ℕ) : ∀ {q : WakeQueue n}, q.Bounded →
    (q.popUpTo fuel).2.Bounded ∧ q.tokens = (q.popUpTo fuel).1 ++ (q.popUpTo fuel).2.tokens := by
  induction fuel with
  | zero => exact fun h => ⟨h, rfl⟩
  | succ fuel ih =>
    intro q h
    rcases pop_spec h with ⟨hpop, htokens⟩ | ⟨token, q1, hpop, hb, htokens⟩
    · simp only [popUpTo, hpop]
      exact ⟨h, rfl⟩
    obtain ⟨hb', hrest⟩ := ih hb
    simp only [popUpTo, hpop, htokens, List.cons_append, List.cons.injEq, true_and]
    exact ⟨hb', hrest⟩

end WakeQueue

end HarborKernel.IrqWait
