import Mathlib.Data.List.Basic
import Mathlib.Order.Interval.Finset.Nat

/-!
A table of `n` places that serves an unbounded sequence of items. The item numbered `i` is kept
at place `i % n` from when it is added until it is taken, and items are taken in the order in
which they were added: `c` of the items in `log` have been taken, at most `n` of them have not.
-/

namespace HarborKernel.CyclicTable

open Function

variable {α : Type*} {n c : ℕ} {f : ℕ → Option α} {log : List α}

/-- The places hold the items of the log from number `c` on. -/
def Kept (n c : ℕ) (f : ℕ → Option α) (log : List α) : Prop :=
  ∀ i, c ≤ i → i < c + n → f (i % n) = log[i]?

theorem mod_inj {i j : ℕ} (hi : c ≤ i) (hi' : i < c + n) (hj : c ≤ j) (hj' : j < c + n)
    (h : i % n = j % n) : i = j :=
  Nat.mod_injOn_Ico c n (Finset.mem_coe.2 (Finset.mem_Ico.2 ⟨hi, hi'⟩))
    (Finset.mem_coe.2 (Finset.mem_Ico.2 ⟨hj, hj'⟩)) h

/-- Writing to the place of one number leaves the places of the others. -/
theorem update_place {β : Type*} {g : ℕ → β} {i j : ℕ} (hi : c ≤ i) (hi' : i < c + n)
    (hj : c ≤ j) (hj' : j < c + n) (b : β) :
    update g (j % n) b (i % n) = if i = j then b else g (i % n) := by
  by_cases heq : i = j
  · rw [heq, update_self, if_pos rfl]
  · have hne : i % n ≠ j % n := fun hmod => heq (mod_inj hi hi' hj hj' hmod)
    rw [update_of_ne hne, if_neg heq]

theorem Kept.empty (n : ℕ) : Kept n 0 (fun _ => (none : Option α)) [] := by
  intro i _ _
  rfl

/-- The items at `k` places from number `c` on. -/
def window (n : ℕ) (f : ℕ → Option α) (c k : ℕ) : List α :=
  (List.range k).filterMap fun i => f ((c + i) % n)

theorem window_mod {m : ℕ} (h : n ∣ m) (f : ℕ → Option α) (c k : ℕ) :
    window n f (c % m) k = window n f c k := by
  refine List.filterMap_congr fun i _ => ?_
  rw [← Nat.mod_mod_of_dvd (c % m + i) h, Nat.mod_add_mod, Nat.mod_mod_of_dvd _ h]

theorem filterMap_range_getElem? (l : List α) (k : ℕ) :
    (List.range k).filterMap (fun i => l[i]?) = l.take k := by
  induction k with
  | zero => rfl
  | succ k ih =>
    rw [List.range_succ, List.filterMap_append, ih, List.take_add_one]
    cases hl : l[k]? with
    | none => rw [List.filterMap_cons_none hl, List.filterMap_nil, Option.toList_none]
    | some x => rw [List.filterMap_cons_some hl, List.filterMap_nil, Option.toList_some]

section

variable (h : Kept n c f log)
include h

theorem Kept.window_eq (hroom : log.length ≤ c + n) :
    window n f c (log.length - c) = log.drop c := by
  have hget : window n f c (log.length - c) =
      (List.range (log.length - c)).filterMap fun i => (log.drop c)[i]? := by
    refine List.filterMap_congr fun i hi => ?_
    rw [List.mem_range] at hi
    rw [h (c + i) (Nat.le_add_right _ _) (by omega), List.getElem?_drop]
  rw [hget, filterMap_range_getElem?, List.take_of_length_le (by rw [List.length_drop])]

theorem Kept.oldest (hn : 0 < n) : f (c % n) = log[c]? :=
  h c (Nat.le_refl c) (by omega)

/-- The place of the next item, while there is room, is empty. -/
theorem Kept.next (hc : c ≤ log.length) (hroom : log.length < c + n) :
    f (log.length % n) = none := by
  rw [h _ hc hroom, List.getElem?_eq_none (Nat.le_refl _)]

/-- Without room it holds the oldest item. -/
theorem Kept.next_full (hn : 0 < n) (hfull : log.length = c + n) :
    f (log.length % n) = log[c]? := by
  rw [hfull, Nat.add_mod_right, h.oldest hn]

theorem Kept.add (hc : c ≤ log.length) (hroom : log.length < c + n) (x : α) :
    Kept n c (update f (log.length % n) (some x)) (log ++ [x]) := by
  intro i hi hi'
  rw [update_place hi hi' hc hroom]
  by_cases heq : i = log.length
  · rw [if_pos heq, heq, List.getElem?_concat_length]
  rw [if_neg heq, h i hi hi', List.getElem?_append]
  split
  · rfl
  rw [List.getElem?_eq_none (by omega), List.getElem?_eq_none]
  rw [List.length_singleton]
  omega

theorem Kept.take (hn : 0 < n) (hlen : log.length ≤ c + n) :
    Kept n (c + 1) (update f (c % n) none) log := by
  intro i hi hi'
  by_cases heq : i = c + n
  · subst heq
    rw [Nat.add_mod_right, update_self, List.getElem?_eq_none hlen]
  have hne : i % n ≠ c % n := by
    intro hmod
    have := mod_inj (c := c) (by omega) (by omega) (Nat.le_refl c) (by omega) hmod
    omega
  rw [update_of_ne hne, h i (by omega) (by omega)]

end

end HarborKernel.CyclicTable
