import Mathlib.Data.List.Basic
import Mathlib.Data.Nat.ModEq
import Mathlib.Logic.Function.Basic

/-!
A bounded first-in first-out ring over arbitrary cells.
The structure carries its own bounds, so every value is a well-formed ring;
`toList` reads the occupied cells from the head and is what the operations
are described by.
-/

namespace HarborKernel.RingBuffer

structure Ring (α : Type*) (cap : ℕ) where
  slots : ℕ → α
  head : ℕ
  len : ℕ
  len_le : len ≤ cap
  head_lt : 0 < cap → head < cap

namespace Ring

variable {α : Type*} {cap : ℕ}

def empty (fill : α) : Ring α cap where
  slots := fun _ => fill
  head := 0
  len := 0
  len_le := Nat.zero_le _
  head_lt := id

def toList (q : Ring α cap) : List α :=
  (List.range q.len).map fun i => q.slots ((q.head + i) % cap)

def push (q : Ring α cap) (a : α) : Option (Ring α cap) :=
  if h : q.len = cap then none
  else some {
    slots := Function.update q.slots ((q.head + q.len) % cap) a
    head := q.head
    len := q.len + 1
    len_le := Nat.lt_of_le_of_ne q.len_le h
    head_lt := q.head_lt }

def pop (q : Ring α cap) : Option (α × Ring α cap) :=
  if q.len = 0 then none
  else some (q.slots q.head, {
    slots := q.slots
    head := (q.head + 1) % cap
    len := q.len - 1
    len_le := Nat.le_trans (Nat.sub_le ..) q.len_le
    head_lt := fun h => Nat.mod_lt _ h })

def front (q : Ring α cap) : Option α :=
  if q.len = 0 then none else some (q.slots q.head)

@[simp] theorem length_toList (q : Ring α cap) : q.toList.length = q.len := by
  simp [toList]

theorem toList_eq_nil_iff (q : Ring α cap) : q.toList = [] ↔ q.len = 0 := by
  rw [← List.length_eq_zero_iff, length_toList]

theorem push_eq_none_iff (q : Ring α cap) (a : α) : q.push a = none ↔ q.len = cap := by
  unfold push
  split <;> simp_all

private theorem offset_ne (head i j : ℕ) (hi : i < cap) (hj : j < cap) (hne : i ≠ j) :
    (head + i) % cap ≠ (head + j) % cap := by
  intro h
  apply hne
  have hmod : i ≡ j [MOD cap] := Nat.ModEq.add_left_cancel' head h
  rwa [Nat.ModEq, Nat.mod_eq_of_lt hi, Nat.mod_eq_of_lt hj] at hmod

theorem push_toList (q q' : Ring α cap) (a : α) (h : q.push a = some q') :
    q'.toList = q.toList ++ [a] := by
  unfold push at h
  split at h
  · contradiction
  rename_i hlen
  cases Option.some.inj h
  have hlt : q.len < cap := Nat.lt_of_le_of_ne q.len_le hlen
  simp only [toList, List.range_succ, List.map_append, List.map_cons, List.map_nil,
    Function.update_self]
  congr 1
  apply List.map_congr_left
  intro i hi
  have hi' : i < q.len := List.mem_range.mp hi
  exact Function.update_of_ne
    (offset_ne q.head i q.len (Nat.lt_trans hi' hlt) hlt (Nat.ne_of_lt hi')) _ _

theorem pop_eq_none_iff (q : Ring α cap) : q.pop = none ↔ q.toList = [] := by
  rw [toList_eq_nil_iff]
  unfold pop
  split <;> simp_all

private theorem toList_cons (q : Ring α cap) (hlen : q.len ≠ 0) :
    q.toList = q.slots q.head ::
      (List.range (q.len - 1)).map fun i => q.slots (((q.head + 1) % cap + i) % cap) := by
  have hcap : 0 < cap := Nat.lt_of_lt_of_le (Nat.pos_of_ne_zero hlen) q.len_le
  obtain ⟨m, hm⟩ : ∃ m, q.len = m + 1 := Nat.exists_eq_succ_of_ne_zero hlen
  simp only [toList, hm, List.range_succ_eq_map, List.map_cons, List.map_map, Nat.add_zero,
    Nat.mod_eq_of_lt (q.head_lt hcap), Nat.add_sub_cancel]
  congr 1
  apply List.map_congr_left
  intro i _
  simp only [Function.comp_apply, Nat.mod_add_mod]
  congr 2
  omega

theorem pop_toList (q q' : Ring α cap) (a : α) (h : q.pop = some (a, q')) :
    q.toList = a :: q'.toList := by
  unfold pop at h
  split at h
  · contradiction
  rename_i hlen
  cases Option.some.inj h
  exact toList_cons q hlen

theorem front_eq_head? (q : Ring α cap) : q.front = q.toList.head? := by
  unfold front
  split
  · rename_i hlen
    rw [(toList_eq_nil_iff q).mpr hlen]
    rfl
  rename_i hlen
  rw [toList_cons q hlen]
  rfl

end Ring

end HarborKernel.RingBuffer
