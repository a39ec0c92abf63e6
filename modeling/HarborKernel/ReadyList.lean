import Mathlib.Data.List.Induction
import Mathlib.Data.List.Perm.Basic
import Mathlib.Data.List.ReduceOption

/-!
A fixed number of places for finished work. Work is parked at the first free place and picked up
from the first one in use; what is parked while no place is free is lost.
-/

namespace HarborKernel.ReadyList

variable {α : Type*}

def enqueue : List (Option α) → α → List (Option α)
  | [], _ => []
  | none :: rest, x => some x :: rest
  | some y :: rest, x => some y :: enqueue rest x

def takeFirst : List (Option α) → Option α × List (Option α)
  | [] => (none, [])
  | some x :: rest => (some x, none :: rest)
  | none :: rest => ((takeFirst rest).1, none :: (takeFirst rest).2)

def vacant (n : ℕ) : List (Option α) := List.replicate n none

theorem length_enqueue (l : List (Option α)) (x : α) : (enqueue l x).length = l.length := by
  induction l with
  | nil => rfl
  | cons o rest ih =>
    cases o with
    | none => rfl
    | some y => rw [enqueue, List.length_cons, ih, List.length_cons]

theorem length_takeFirst (l : List (Option α)) : (takeFirst l).2.length = l.length := by
  induction l with
  | nil => rfl
  | cons o rest ih =>
    cases o with
    | none => rw [takeFirst, List.length_cons, ih, List.length_cons]
    | some y => rfl

/-- While a place is free, what is parked is kept. -/
theorem enqueue_perm {l : List (Option α)} (h : l.reduceOption.length < l.length) (x : α) :
    (enqueue l x).reduceOption.Perm (x :: l.reduceOption) := by
  induction l with
  | nil => exact absurd h (Nat.not_lt_zero _)
  | cons o rest ih =>
    cases o with
    | none => rw [enqueue, List.reduceOption_cons_of_some, List.reduceOption_cons_of_none]
    | some y =>
      rw [List.reduceOption_cons_of_some, List.length_cons, List.length_cons] at h
      rw [enqueue, List.reduceOption_cons_of_some, List.reduceOption_cons_of_some]
      exact ((ih (Nat.lt_of_succ_lt_succ h)).cons y).trans (List.Perm.swap x y _)

theorem mem_enqueue {l : List (Option α)} {x y : α} (h : y ∈ (enqueue l x).reduceOption) :
    y = x ∨ y ∈ l.reduceOption := by
  induction l with
  | nil => exact .inr h
  | cons o rest ih =>
    cases o with
    | none =>
      rw [enqueue, List.reduceOption_cons_of_some] at h
      rw [List.reduceOption_cons_of_none]
      exact List.mem_cons.1 h
    | some z =>
      rw [enqueue, List.reduceOption_cons_of_some] at h
      rw [List.reduceOption_cons_of_some]
      rcases List.mem_cons.1 h with rfl | h
      · exact .inr (List.mem_cons_self ..)
      · exact (ih h).imp_right (List.mem_cons_of_mem _)

theorem mem_foldl_enqueue {xs : List α} : ∀ {l : List (Option α)} {y : α},
    y ∈ (xs.foldl enqueue l).reduceOption → y ∈ xs ∨ y ∈ l.reduceOption := by
  induction xs with
  | nil =>
    intro l y h
    exact .inr h
  | cons x rest ih =>
    intro l y h
    rcases ih h with h | h
    · exact .inl (List.mem_cons_of_mem _ h)
    rcases mem_enqueue h with rfl | h
    · exact .inl (List.mem_cons_self ..)
    · exact .inr h

theorem takeFirst_reduceOption (l : List (Option α)) :
    l.reduceOption = (takeFirst l).1.toList ++ (takeFirst l).2.reduceOption := by
  induction l with
  | nil => rfl
  | cons o rest ih =>
    cases o with
    | none =>
      rw [takeFirst, List.reduceOption_cons_of_none, List.reduceOption_cons_of_none]
      exact ih
    | some y => rw [takeFirst, List.reduceOption_cons_of_some, List.reduceOption_cons_of_none]; rfl

theorem enqueue_parked (xs : List α) (k : ℕ) (x : α) :
    enqueue (xs.map some ++ vacant (k + 1)) x = (xs ++ [x]).map some ++ vacant k := by
  induction xs with
  | nil => rfl
  | cons y rest ih =>
    rw [List.map_cons, List.cons_append, enqueue, ih]
    rfl

/-- Parking into a vacant list keeps the order. -/
theorem foldl_enqueue (n : ℕ) (xs : List α) (h : xs.length ≤ n) :
    xs.foldl enqueue (vacant n) = xs.map some ++ vacant (n - xs.length) := by
  induction xs using List.reverseRecOn with
  | nil => rfl
  | append_singleton rest x ih =>
    rw [List.length_append, List.length_singleton] at h
    have hn : n - rest.length = n - (rest.length + 1) + 1 := by omega
    rw [List.foldl_append, ih (by omega), List.foldl_cons, List.foldl_nil, hn, enqueue_parked,
      List.length_append, List.length_singleton]

theorem reduceOption_vacant (n : ℕ) : (vacant n : List (Option α)).reduceOption = [] :=
  List.reduceOption_replicate_none

theorem reduceOption_parked (xs : List α) (k : ℕ) :
    (xs.map some ++ vacant k).reduceOption = xs := by
  rw [List.reduceOption_append, reduceOption_vacant, List.append_nil]
  induction xs with
  | nil => rfl
  | cons x rest ih => rw [List.map_cons, List.reduceOption_cons_of_some, ih]

end HarborKernel.ReadyList
