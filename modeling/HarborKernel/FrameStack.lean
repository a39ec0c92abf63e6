import HarborKernel.AddressSpace
import HarborKernel.Transition
import Mathlib.Data.List.Nodup
import Mathlib.Data.List.Perm.Subperm
import Mathlib.Data.Nat.Bitwise

/-!
The frame pool as the source stores it (`frame.rs`): an array with the free indices in front, and
words with one bit for every index. Indexing outside an array panics in the source; such a call has
no result here. The stack of free indices and the bits say the same about every frame, so the pool
is an allocator on a set, and it refines the pool that the address spaces are stated with.
-/

namespace HarborKernel.FrameStack

open Function (update update_of_ne update_self update_apply)
open AddressSpaces (maxFrames)
open Transition

inductive FrameFreeError
  | outOfBounds
  | notAllocated
deriving DecidableEq

def wordCount : ℕ := 16

structure FramePool where
  capacity : ℕ
  freeStack : ℕ → ℕ
  freeLen : ℕ
  allocated : ℕ → ℕ

namespace FramePool

def empty : FramePool := ⟨0, fun _ => 0, 0, fun _ => 0⟩

def new (capacity : ℕ) : FramePool :=
  let capacity := min capacity maxFrames
  ⟨capacity, fun i => if i < capacity then capacity - 1 - i else 0, capacity, fun _ => 0⟩

def freeCount (pool : FramePool) : ℕ := pool.freeLen

def usedCount (pool : FramePool) : ℕ := pool.capacity - pool.freeLen

def wordBit (idx : ℕ) : ℕ × ℕ := (idx / 64, 1 <<< (idx % 64))

def isAllocated (pool : FramePool) (idx : ℕ) : Option Bool :=
  let (w, bit) := wordBit idx
  if w < wordCount then some (pool.allocated w &&& bit ≠ 0) else none

def setAllocated (pool : FramePool) (idx : ℕ) (on : Bool) : Option FramePool :=
  let (w, bit) := wordBit idx
  if w < wordCount then
    let word := if on then pool.allocated w ||| bit else pool.allocated w &&& (2 ^ 64 - 1 - bit)
    some { pool with allocated := update pool.allocated w word }
  else none

def alloc (pool : FramePool) : Option (Option ℕ × FramePool) :=
  if pool.freeLen = 0 then some (none, pool)
  else
    let freeLen := pool.freeLen - 1
    if freeLen < maxFrames then do
      let idx := pool.freeStack freeLen
      let pool ← setAllocated { pool with freeLen } idx true
      return (some idx, pool)
    else none

def free (pool : FramePool) (idx : ℕ) : Option (Except FrameFreeError Unit × FramePool) :=
  if pool.capacity ≤ idx then some (.error .outOfBounds, pool)
  else do
    if !(← pool.isAllocated idx) then return (.error .notAllocated, pool)
    else
      let pool ← pool.setAllocated idx false
      if pool.freeLen < maxFrames then
        return (.ok (), { pool with freeStack := update pool.freeStack pool.freeLen idx
                                    freeLen := pool.freeLen + 1 })
      else none

/-- The free indices in the order of the array. -/
def stack (pool : FramePool) : List ℕ := (List.range pool.freeLen).map pool.freeStack

def bitSet (pool : FramePool) (idx : ℕ) : Bool := (pool.allocated (idx / 64)).testBit (idx % 64)

/-- The stack holds every frame whose bit is clear, once. -/
structure Ok (pool : FramePool) : Prop where
  room : pool.capacity ≤ maxFrames
  nodup : pool.stack.Nodup
  mem : ∀ x, x ∈ pool.stack ↔ x < pool.capacity ∧ pool.bitSet x = false

variable {pool pool' : FramePool} {idx x : ℕ}

theorem isAllocated_eq (pool : FramePool) (hidx : idx < maxFrames) :
    pool.isAllocated idx = some (pool.bitSet idx) := by
  have hw : idx / 64 < wordCount := by
    unfold maxFrames at hidx
    unfold wordCount
    omega
  simp only [isAllocated, wordBit, if_pos hw, Nat.one_shiftLeft, Nat.and_two_pow, bitSet]
  cases (pool.allocated (idx / 64)).testBit (idx % 64) with
  | false | true => simp

theorem setAllocated_spec (pool : FramePool) (hidx : idx < maxFrames) (on : Bool) :
    ∃ words, pool.setAllocated idx on = some { pool with allocated := words } ∧
      ∀ x, bitSet { pool with allocated := words } x = if x = idx then on else pool.bitSet x := by
  have hw : idx / 64 < wordCount := by
    unfold maxFrames at hidx
    unfold wordCount
    omega
  refine ⟨_, if_pos hw, ?_⟩
  intro x
  have hlow : x % 64 < 64 := Nat.mod_lt _ (by decide)
  have hbit : 2 ^ (idx % 64) < 2 ^ 64 := Nat.pow_lt_pow_right (by decide) (Nat.mod_lt _ (by decide))
  have hsame : idx / 64 = x / 64 → (idx % 64 = x % 64 ↔ x = idx) := by omega
  simp only [bitSet, Nat.one_shiftLeft]
  by_cases hword : x / 64 = idx / 64
  · rw [hword, update_self]
    have hiff := hsame hword.symm
    cases on with
    | true =>
      simp only [if_true, Nat.testBit_or, Nat.testBit_two_pow]
      by_cases heq : x = idx
      · rw [if_pos heq, decide_eq_true (hiff.2 heq), Bool.or_true]
      · rw [if_neg heq, decide_eq_false fun h => heq (hiff.1 h), Bool.or_false]
    | false =>
      have hmask : 2 ^ 64 - 1 - 2 ^ (idx % 64) = 2 ^ 64 - (2 ^ (idx % 64) + 1) := by omega
      simp only [Bool.false_eq_true, if_false, Nat.testBit_and, hmask,
        Nat.testBit_two_pow_sub_succ hbit, Nat.testBit_two_pow, decide_eq_true hlow, Bool.true_and]
      by_cases heq : x = idx
      · rw [if_pos heq, decide_eq_true (hiff.2 heq), Bool.not_true, Bool.and_false]
      · rw [if_neg heq, decide_eq_false fun h => heq (hiff.1 h), Bool.not_false, Bool.and_true]
  · rw [update_of_ne hword, if_neg]
    rintro rfl
    exact hword rfl

theorem stack_length (pool : FramePool) : pool.stack.length = pool.freeLen := by
  rw [stack, List.length_map, List.length_range]

theorem stack_top (hne : pool.freeLen ≠ 0) :
    pool.stack = (List.range (pool.freeLen - 1)).map pool.freeStack ++
      [pool.freeStack (pool.freeLen - 1)] := by
  obtain ⟨n, hn⟩ := Nat.exists_eq_succ_of_ne_zero hne
  rw [stack, hn, List.range_succ, List.map_append]
  rfl

theorem stack_push (pool : FramePool) (idx : ℕ) :
    stack { pool with freeStack := update pool.freeStack pool.freeLen idx
                      freeLen := pool.freeLen + 1 } = pool.stack ++ [idx] := by
  simp only [stack, List.range_succ, List.map_append, List.map_cons, List.map_nil,
    update_self]
  congr 1
  refine List.map_congr_left fun i hi => update_of_ne ?_ _ _
  have hlt := List.mem_range.1 hi
  omega

theorem Ok.len_le (hok : Ok pool) : pool.freeLen ≤ pool.capacity := by
  rw [← stack_length, ← List.length_range (n := pool.capacity)]
  exact List.Nodup.length_le_of_subset hok.nodup fun x hx =>
    List.mem_range.2 ((hok.mem x).1 hx).1

theorem Ok.len_lt (hok : Ok pool) (hidx : idx < pool.capacity) (hset : pool.bitSet idx = true) :
    pool.freeLen < pool.capacity := by
  have hnot : idx ∉ pool.stack := by
    intro hmem
    rw [((hok.mem idx).1 hmem).2] at hset
    cases hset
  have hsub : idx :: pool.stack ⊆ List.range pool.capacity := by
    intro x hx
    rcases List.mem_cons.1 hx with rfl | hx
    · exact List.mem_range.2 hidx
    · exact List.mem_range.2 ((hok.mem x).1 hx).1
  have hlen := List.Nodup.length_le_of_subset (List.nodup_cons.2 ⟨hnot, hok.nodup⟩) hsub
  rw [List.length_cons, List.length_range, stack_length] at hlen
  exact hlen

/-- High indices are pushed first. -/
theorem new_stack (capacity : ℕ) :
    (new capacity).stack = (List.range (min capacity maxFrames)).reverse := by
  rw [List.range_eq_range', List.reverse_range']
  refine List.map_congr_left fun i hi => ?_
  have hlt := List.mem_range.1 hi
  refine (if_pos hlt).trans ?_
  omega

theorem new_ok (capacity : ℕ) : Ok (new capacity) := by
  refine ⟨Nat.min_le_right _ _, ?_, ?_⟩
  · rw [new_stack]
    exact List.nodup_reverse.2 List.nodup_range
  intro x
  have hclear : (new capacity).bitSet x = false := Nat.zero_testBit _
  rw [new_stack, List.mem_reverse, List.mem_range, hclear]
  exact ⟨fun hx => ⟨hx, rfl⟩, fun hx => hx.1⟩

theorem empty_ok : Ok empty := by
  refine ⟨Nat.zero_le _, List.nodup_nil, ?_⟩
  intro x
  constructor
  · intro hx
    exact absurd hx List.not_mem_nil
  · intro hx
    exact absurd hx.1 (Nat.not_lt_zero x)

/-- An allocation takes the index on top, or finds the stack empty. -/
theorem Ok.alloc (hok : Ok pool) :
    (pool.stack = [] ∧ pool.alloc = some (none, pool)) ∨
    ∃ rest idx pool', pool.stack = rest ++ [idx] ∧ pool.alloc = some (some idx, pool') ∧
      pool'.capacity = pool.capacity ∧ pool'.stack = rest ∧ idx < pool.capacity ∧
      (∀ x, pool'.bitSet x = if x = idx then true else pool.bitSet x) ∧ Ok pool' := by
  by_cases hzero : pool.freeLen = 0
  · refine .inl ⟨?_, if_pos hzero⟩
    rw [stack, hzero]
    rfl
  have hstack := stack_top hzero
  have hroom := hok.room
  have hlen := hok.len_le
  have hmem : pool.freeStack (pool.freeLen - 1) ∈ pool.stack := by
    rw [hstack]
    exact List.mem_append_right _ (List.mem_singleton.2 rfl)
  have hidx := ((hok.mem _).1 hmem).1
  obtain ⟨words, hset, hbits⟩ := setAllocated_spec
    { pool with freeLen := pool.freeLen - 1 } (hidx.trans_le hroom) true
  have hnodup := hok.nodup
  rw [hstack] at hnodup
  refine .inr ⟨_, _, { pool with freeLen := pool.freeLen - 1, allocated := words }, hstack, ?_,
    rfl, rfl, hidx, hbits, hroom, ?_, ?_⟩
  · rw [FramePool.alloc, if_neg hzero, if_pos (by omega)]
    simp only [hset, Option.bind_eq_bind, Option.bind_some, Option.pure_def]
  · exact (List.nodup_append.1 hnodup).1
  · intro x
    have hx := hok.mem x
    rw [hstack, List.mem_append, List.mem_singleton] at hx
    rw [hbits x]
    by_cases heq : x = pool.freeStack (pool.freeLen - 1)
    · rw [if_pos heq]
      constructor
      · intro hin
        exact absurd heq ((List.nodup_append.1 hnodup).2.2 x hin _ (List.mem_singleton.2 rfl))
      · rintro ⟨-, hfalse⟩
        cases hfalse
    · rw [if_neg heq]
      exact ⟨fun hin => hx.1 (.inl hin), fun hin => (hx.2 hin).resolve_right heq⟩

/-- A free puts an index in use on the stack, and refuses every other one. -/
theorem Ok.free (hok : Ok pool) (idx : ℕ) :
    (¬ (idx < pool.capacity ∧ pool.bitSet idx = true) ∧
      ∃ e, pool.free idx = some (.error e, pool)) ∨
    (idx < pool.capacity ∧ pool.bitSet idx = true) ∧
      ∃ pool', pool.free idx = some (.ok (), pool') ∧ pool'.capacity = pool.capacity ∧
        pool'.stack = pool.stack ++ [idx] ∧
        (∀ x, pool'.bitSet x = if x = idx then false else pool.bitSet x) ∧ Ok pool' := by
  have hroom := hok.room
  by_cases hrange : pool.capacity ≤ idx
  · exact .inl ⟨fun h => absurd h.1 (Nat.not_lt.2 hrange), _, if_pos hrange⟩
  have hlt := Nat.lt_of_not_le hrange
  have hread := isAllocated_eq pool (hlt.trans_le hroom)
  cases hset : pool.bitSet idx with
  | false =>
    refine .inl ⟨fun h => Bool.false_ne_true h.2, .notAllocated, ?_⟩
    rw [FramePool.free, if_neg hrange, hread, hset]
    rfl
  | true =>
    have hlen := hok.len_lt hlt hset
    obtain ⟨words, hclear, hbits⟩ := setAllocated_spec pool (hlt.trans_le hroom) false
    have hpush := stack_push { pool with allocated := words } idx
    refine .inr ⟨⟨hlt, rfl⟩, { pool with
        freeStack := update pool.freeStack pool.freeLen idx
        freeLen := pool.freeLen + 1
        allocated := words }, ?_, rfl, hpush, hbits, hroom, ?_, ?_⟩
    · rw [FramePool.free, if_neg hrange, hread, hset]
      simp only [Option.bind_eq_bind, Option.bind_some, Bool.not_true, Bool.false_eq_true,
        if_false, hclear]
      exact if_pos (hlen.trans_le hroom)
    · rw [hpush]
      refine List.nodup_append.2 ⟨hok.nodup, List.nodup_singleton idx, ?_⟩
      rintro x hx y hy rfl
      have hclearx := ((hok.mem x).1 hx).2
      rw [List.mem_singleton.1 hy, hset] at hclearx
      cases hclearx
    · intro x
      rw [hpush, List.mem_append, List.mem_singleton]
      have hx := hok.mem x
      have hbit : bitSet { pool with
          freeStack := update pool.freeStack pool.freeLen idx
          freeLen := pool.freeLen + 1
          allocated := words } x = if x = idx then false else pool.bitSet x := hbits x
      rw [hbit]
      by_cases heq : x = idx
      · rw [if_pos heq, heq]
        exact ⟨fun _ => ⟨hlt, rfl⟩, fun _ => .inr rfl⟩
      · rw [if_neg heq]
        exact ⟨fun hin => hx.1 (hin.resolve_right heq), fun hin => .inl (hx.2 hin)⟩

def toPool (pool : FramePool) : AddressSpaces.FramePool :=
  ⟨pool.capacity, pool.stack.reverse, pool.bitSet⟩

theorem new_refines (capacity : ℕ) :
    (new capacity).toPool = AddressSpaces.FramePool.new capacity := by
  have hclear : (new capacity).bitSet = fun _ => false := funext fun x => Nat.zero_testBit _
  rw [toPool, AddressSpaces.FramePool.new, new_stack, hclear, List.reverse_reverse]
  rfl

theorem Ok.alloc_refines (hok : Ok pool) :
    ∃ r pool', pool.alloc = some (r, pool') ∧
      pool.toPool.alloc = r.map fun idx => (idx, pool'.toPool) := by
  rcases hok.alloc with ⟨hnil, halloc⟩ |
    ⟨rest, idx, pool', hstack, halloc, hcap, hrest, -, hbits, -⟩
  · refine ⟨none, pool, halloc, ?_⟩
    rw [toPool, hnil]
    rfl
  refine ⟨some idx, pool', halloc, ?_⟩
  have hupdate : pool'.bitSet = update pool.bitSet idx true := by
    funext x
    rw [hbits x, update_apply]
  rw [toPool, toPool, hstack, List.reverse_append, hcap, hrest, hupdate]
  rfl

theorem Ok.free_refines (hok : Ok pool) (idx : ℕ) :
    ∃ r pool', pool.free idx = some (r, pool') ∧ pool.toPool.free idx = pool'.toPool := by
  rcases hok.free idx with ⟨hnot, e, hfree⟩ | ⟨⟨hlt, hset⟩, pool', hfree, hcap, hstack, hbits, -⟩
  · refine ⟨_, pool, hfree, ?_⟩
    unfold AddressSpaces.FramePool.free
    by_cases hrange : pool.toPool.capacity ≤ idx
    · exact if_pos hrange
    have hclear : pool.toPool.allocated idx = false := by
      by_contra hset
      exact hnot ⟨Nat.lt_of_not_le hrange, Bool.not_eq_false _ ▸ hset⟩
    rw [if_neg hrange, hclear]
    rfl
  · refine ⟨_, pool', hfree, ?_⟩
    have hset' : pool.toPool.allocated idx = true := hset
    have hupdate : pool'.bitSet = update pool.bitSet idx false := by
      funext x
      rw [hbits x, update_apply]
    rw [AddressSpaces.FramePool.free, if_neg (show ¬ pool.toPool.capacity ≤ idx from
      Nat.not_le.2 hlt), hset', toPool, toPool, hcap, hstack, hupdate, List.reverse_append]
    rfl

end FramePool

open FramePool

inductive Op
  | alloc
  | free (idx : ℕ)

def step (pool : FramePool) : Op → Option FramePool
  | .alloc => pool.alloc.map Prod.snd
  | .free idx => (pool.free idx).map Prod.snd

abbrev Reachable (pool : FramePool) : Prop :=
  Reach (fun p => p = empty ∨ ∃ capacity, p = new capacity) step (fun _ _ => True) pool

theorem Reachable.ok {pool : FramePool} (hr : Reachable pool) : Ok pool := by
  refine hr.invariant (I := Ok) ?_ ?_
  · rintro p (rfl | ⟨capacity, rfl⟩)
    · exact empty_ok
    · exact new_ok capacity
  intro p op p' hok _ hstep
  cases op with
  | alloc =>
    rcases hok.alloc with ⟨-, halloc⟩ | ⟨_, _, pool', -, halloc, -, -, -, -, hok'⟩
    · rw [step, halloc] at hstep
      cases hstep
      exact hok
    rw [step, halloc] at hstep
    cases hstep
    exact hok'
  | free idx =>
    rcases hok.free idx with ⟨-, e, hfree⟩ | ⟨-, pool', hfree, -, -, -, hok'⟩
    · rw [step, hfree] at hstep
      cases hstep
      exact hok
    rw [step, hfree] at hstep
    cases hstep
    exact hok'

def Op.onPool (pool : AddressSpaces.FramePool) : Op → AddressSpaces.FramePool
  | .alloc => (pool.alloc.map Prod.snd).getD pool
  | .free idx => pool.free idx

theorem Reachable.step_refines {pool : FramePool} (hr : Reachable pool) (op : Op) :
    ∃ pool', step pool op = some pool' ∧ Reachable pool' ∧
      pool'.toPool = op.onPool pool.toPool := by
  have hstep : ∃ pool', step pool op = some pool' ∧ pool'.toPool = op.onPool pool.toPool := by
    cases op with
    | alloc =>
      rcases hr.ok.alloc_refines with ⟨_ | idx, pool', halloc, hpool⟩
      · rcases hr.ok.alloc with ⟨-, hnone⟩ | ⟨_, _, _, -, hsome, -⟩
        · exact ⟨pool, by rw [step, hnone]; rfl, by rw [Op.onPool, hpool]; rfl⟩
        · cases halloc.symm.trans hsome
      · exact ⟨pool', by rw [step, halloc]; rfl, by rw [Op.onPool, hpool]; rfl⟩
    | free idx =>
      obtain ⟨_, pool', hfree, hpool⟩ := hr.ok.free_refines idx
      exact ⟨pool', by rw [step, hfree]; rfl, hpool.symm⟩
  obtain ⟨pool', heq, hpool⟩ := hstep
  exact ⟨pool', heq, hr.next trivial heq, hpool⟩

/-- The stack and the bitmap do what the address spaces expect of a pool: after any calls they
show the same pool, and hand out the same frame next. -/
theorem frame_pool_refines (capacity : ℕ) (ops : List Op) :
    ∃ pool r next, run step (new capacity) ops = some pool ∧
      pool.toPool = ops.foldl Op.onPool (AddressSpaces.FramePool.new capacity) ∧
      pool.alloc = some (r, next) ∧
      pool.toPool.alloc = r.map fun idx => (idx, next.toPool) := by
  have hruns : ∀ (ops : List Op) (pool : FramePool), Reachable pool →
      ∃ pool', run step pool ops = some pool' ∧ Reachable pool' ∧
        pool'.toPool = ops.foldl Op.onPool pool.toPool := by
    intro ops
    induction ops with
    | nil => exact fun pool hr => ⟨pool, rfl, hr, rfl⟩
    | cons op rest ih =>
      intro pool hr
      obtain ⟨mid, hstep, hmid, hpool⟩ := hr.step_refines op
      obtain ⟨pool', hrun, hr', hpool'⟩ := ih mid hmid
      refine ⟨pool', by rw [run, hstep]; exact hrun, hr', ?_⟩
      rw [hpool', hpool, List.foldl_cons]
  obtain ⟨pool, hrun, hr, hpool⟩ := hruns ops _ (Reach.start (.inr ⟨capacity, rfl⟩))
  obtain ⟨r, next, halloc, habstract⟩ := hr.ok.alloc_refines
  rw [new_refines] at hpool
  exact ⟨pool, r, next, hrun, hpool, halloc, habstract⟩

/-- In every history the pool allocates from a set: the stack is the frames whose bit is clear, and
each call has a result that changes one frame or nothing. -/
theorem frame_pool_is_set (pool : FramePool) (hr : Reachable pool) :
    pool.stack.Nodup ∧ (∀ x, x ∈ pool.stack ↔ x < pool.capacity ∧ pool.bitSet x = false) ∧
    pool.freeCount + pool.usedCount = pool.capacity ∧
    (∃ r pool', pool.alloc = some (r, pool') ∧ (r = none ↔ pool.stack = []) ∧
      (r = none → pool' = pool) ∧
      ∀ idx, r = some idx → idx ∈ pool.stack ∧ idx ∉ pool'.stack ∧
        ∀ x, x ≠ idx → (x ∈ pool'.stack ↔ x ∈ pool.stack)) ∧
    ∀ idx, ∃ r pool', pool.free idx = some (r, pool') ∧
      (r = .ok () ↔ idx < pool.capacity ∧ pool.bitSet idx = true) ∧
      (r ≠ .ok () → pool' = pool) ∧
      (r = .ok () → pool.freeLen < pool.capacity ∧ idx ∈ pool'.stack ∧
        ∀ x, x ≠ idx → (x ∈ pool'.stack ↔ x ∈ pool.stack)) := by
  have hok := Reachable.ok hr
  have hlen := hok.len_le
  refine ⟨hok.nodup, hok.mem, ?_, ?_, ?_⟩
  · unfold freeCount usedCount
    omega
  · rcases hok.alloc with ⟨hnil, halloc⟩ | ⟨rest, idx, pool', hstack, halloc, -, hrest, -, -, hok'⟩
    · exact ⟨none, pool, halloc, ⟨fun _ => hnil, fun _ => rfl⟩, fun _ => rfl,
        fun idx hidx => (by cases hidx)⟩
    refine ⟨some idx, pool', halloc, ⟨fun h => (by cases h), fun h => ?_⟩,
      fun h => (by cases h), ?_⟩
    · rw [hstack] at h
      exact absurd h (List.append_ne_nil_of_right_ne_nil _ (List.cons_ne_nil _ _))
    rintro _ ⟨rfl⟩
    have hnodup := hok.nodup
    rw [hstack] at hnodup
    rw [hstack, hrest]
    refine ⟨List.mem_append_right _ (List.mem_singleton.2 rfl), fun hin => ?_, fun x hx => ?_⟩
    · exact (List.nodup_append.1 hnodup).2.2 _ hin _ (List.mem_singleton.2 rfl) rfl
    · rw [List.mem_append, List.mem_singleton]
      exact ⟨.inl, fun h => h.resolve_right hx⟩
  · intro idx
    rcases hok.free idx with ⟨hnot, e, hfree⟩ | ⟨huse, pool', hfree, -, hstack, -, -⟩
    · exact ⟨_, pool, hfree, ⟨fun h => (by cases h), fun h => absurd h hnot⟩, fun _ => rfl,
        fun h => (by cases h)⟩
    refine ⟨_, pool', hfree, ⟨fun _ => huse, fun _ => rfl⟩, fun h => absurd rfl h, fun _ => ?_⟩
    refine ⟨hok.len_lt huse.1 huse.2, ?_, fun x hx => ?_⟩
    · rw [hstack]
      exact List.mem_append_right _ (List.mem_singleton.2 rfl)
    · rw [hstack, List.mem_append, List.mem_singleton]
      exact ⟨fun h => h.resolve_right hx, .inl⟩

/-- Frames 0 and 1 of three were taken and 0 came back: a frame on the stack is handed out, frame 1
can be returned, frame 2 cannot. -/
theorem frame_pool_is_set_three :
    ∃ pool, Reachable pool ∧ pool.stack = [2, 0] ∧ pool.freeCount + pool.usedCount = 3 ∧
      (∃ idx pool', pool.alloc = some (some idx, pool') ∧ idx ∈ [2, 0] ∧ idx ∉ pool'.stack) ∧
      (∃ pool', pool.free 1 = some (.ok (), pool') ∧ 1 ∈ pool'.stack ∧ 2 ∈ pool'.stack) ∧
      ∃ r, r ≠ .ok () ∧ pool.free 2 = some (r, pool) := by
  have hstart : Reachable (new 3) := Reach.start (.inr ⟨3, rfl⟩)
  obtain ⟨pool, hr, hstack, hcap, hused, hfree⟩ := hstart.exists_run [.alloc, .alloc, .free 0]
    (P := fun pool => pool.stack = [2, 0] ∧ pool.capacity = 3 ∧ pool.bitSet 1 = true ∧
      pool.bitSet 2 = false) (by decide +kernel)
  obtain ⟨-, -, hcount, ⟨r, next, halloc, hnone, -, htaken⟩, hback⟩ := frame_pool_is_set pool hr
  rw [hstack] at hnone htaken
  refine ⟨pool, hr, hstack, by rw [hcount, hcap], ?_, ?_, ?_⟩
  · cases r with
    | none => exact absurd (hnone.1 rfl) (List.cons_ne_nil _ _)
    | some idx => exact ⟨idx, next, halloc, (htaken idx rfl).1, (htaken idx rfl).2.1⟩
  · obtain ⟨r, pool', hcall, hok, -, hadd⟩ := hback 1
    obtain rfl := hok.2 ⟨by rw [hcap]; decide, hused⟩
    obtain ⟨-, hin, hother⟩ := hadd rfl
    exact ⟨pool', hcall, hin, (hother 2 (by decide)).2 (by rw [hstack]; decide)⟩
  · obtain ⟨r, pool', hcall, hok, hsame, -⟩ := hback 2
    have hrefused : r ≠ .ok () := fun h => by
      rw [(hok.1 h).2] at hfree
      cases hfree
    rw [hsame hrefused] at hcall
    exact ⟨r, hrefused, hcall⟩

end HarborKernel.FrameStack
