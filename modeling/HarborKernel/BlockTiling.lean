import Mathlib.Data.List.Basic
import Mathlib.Algebra.Ring.Nat
import Mathlib.Data.List.Chain

/-!
An interval cut into segments, and chains of addresses. A list of segments tiles an interval when
each one starts where the one before it ends. A chain follows a next pointer from a first address
and visits the given addresses in order; changing the pointer of its last address, or the first
address, replaces what comes after.
-/

namespace HarborKernel.BlockTiling

structure Segment (α : Type) where
  start : ℕ
  size : ℕ
  tag : α

variable {α : Type}

namespace Segment

def stop (s : Segment α) : ℕ := s.start + s.size

end Segment

def Tiles (a : ℕ) : List (Segment α) → ℕ → Prop
  | [], e => a = e
  | s :: rest, e => s.start = a ∧ Tiles s.stop rest e

variable {a e : ℕ} {s x y : Segment α} {l pre post : List (Segment α)}

theorem tiles_append {r : List (Segment α)} :
    Tiles a (l ++ r) e ↔ ∃ m, Tiles a l m ∧ Tiles m r e := by
  induction l generalizing a with
  | nil =>
    constructor
    · intro h
      exact ⟨a, rfl, h⟩
    · rintro ⟨m, rfl, h⟩
      exact h
  | cons s rest ih =>
    constructor
    · rintro ⟨hstart, hrest⟩
      obtain ⟨m, hleft, hright⟩ := ih.1 hrest
      exact ⟨m, ⟨hstart, hleft⟩, hright⟩
    · rintro ⟨m, ⟨hstart, hleft⟩, hright⟩
      exact ⟨hstart, ih.2 ⟨m, hleft, hright⟩⟩

theorem Tiles.le (h : Tiles a l e) : a ≤ e := by
  induction l generalizing a with
  | nil => exact le_of_eq h
  | cons s rest ih =>
    have hrest := ih h.2
    have hstart := h.1
    unfold Segment.stop at hrest
    omega

theorem Tiles.bounds (h : Tiles a l e) (hs : s ∈ l) : a ≤ s.start ∧ s.stop ≤ e := by
  induction l generalizing a with
  | nil => exact absurd hs List.not_mem_nil
  | cons x rest ih =>
    rcases List.mem_cons.1 hs with rfl | hmem
    · exact ⟨le_of_eq h.1.symm, h.2.le⟩
    obtain ⟨hlow, hhigh⟩ := ih h.2 hmem
    have hstart := h.1
    unfold Segment.stop at hlow
    exact ⟨by omega, hhigh⟩

/-- A segment of a tiling starts after what precedes it and stops before what follows. -/
theorem Tiles.around (h : Tiles a (pre ++ s :: post) e) :
    (∀ x ∈ pre, x.stop ≤ s.start) ∧ ∀ x ∈ post, s.stop ≤ x.start := by
  obtain ⟨m, hpre, hpost⟩ := tiles_append.1 h
  constructor
  · intro x hx
    rw [hpost.1]
    exact (hpre.bounds hx).2
  · intro x hx
    exact (hpost.2.bounds hx).1

/-- Two segments of a tiling are the same or lie apart. -/
theorem Tiles.apart (h : Tiles a l e) (hx : x ∈ l) (hy : y ∈ l) :
    x = y ∨ x.stop ≤ y.start ∨ y.stop ≤ x.start := by
  obtain ⟨pre, post, rfl⟩ := List.append_of_mem hx
  obtain ⟨hbefore, hafter⟩ := h.around
  rcases List.mem_append.1 hy with hpre | hmem
  · exact .inr (.inr (hbefore y hpre))
  rcases List.mem_cons.1 hmem with rfl | hpost
  · exact .inl rfl
  · exact .inr (.inl (hafter y hpost))

theorem Tiles.sum_sizes (h : Tiles a l e) : a + (l.map Segment.size).sum = e := by
  induction l generalizing a with
  | nil => exact h
  | cons s rest ih =>
    have hrest := ih h.2
    have hstart := h.1
    unfold Segment.stop at hrest
    rw [List.map_cons, List.sum_cons]
    omega

theorem Tiles.length_le (h : Tiles a l e) (hsize : ∀ s ∈ l, 0 < s.size) : a + l.length ≤ e := by
  induction l generalizing a with
  | nil => exact le_of_eq h
  | cons s rest ih =>
    have hrest := ih h.2 fun x hx => hsize x (List.mem_cons_of_mem s hx)
    have hstart := h.1
    have hpos := hsize s (List.mem_cons_self ..)
    unfold Segment.stop at hrest
    rw [List.length_cons]
    omega

def Chain (next : ℕ → Option ℕ) : Option ℕ → List ℕ → Prop
  | cursor, [] => cursor = none
  | cursor, x :: rest => cursor = some x ∧ Chain next (next x) rest

variable {next next' : ℕ → Option ℕ} {cursor cursor' target : Option ℕ} {front back : List ℕ}

theorem Chain.congr (h : Chain next cursor front) (heq : ∀ x ∈ front, next' x = next x) :
    Chain next' cursor front := by
  induction front generalizing cursor with
  | nil => exact h
  | cons x rest ih =>
    refine ⟨h.1, ?_⟩
    rw [heq x (List.mem_cons_self ..)]
    exact ih h.2 fun y hy => heq y (List.mem_cons_of_mem x hy)

theorem getLast?_cons_or (x : ℕ) (l : List ℕ) (d : Option ℕ) :
    (x :: l).getLast?.or d = l.getLast?.or (some x) := by
  rw [List.getLast?_cons]
  cases l.getLast? with
  | none | some last => rfl

/-- The chain from an address on. -/
theorem Chain.drop {x : ℕ} (h : Chain next cursor (front ++ x :: back)) :
    Chain next (next x) back := by
  induction front generalizing cursor with
  | nil => exact h.2
  | cons y rest ih => exact ih h.2

/-- The chain after a first part, and what points at it. -/
theorem Chain.cut (h : Chain next cursor (front ++ back)) :
    ∃ target, (match front.getLast? with
      | none => cursor = target
      | some last => next last = target) ∧ Chain next target back := by
  induction front generalizing cursor with
  | nil => exact ⟨cursor, rfl, h⟩
  | cons y rest ih =>
    obtain ⟨target, hrest, hback⟩ := ih h.2
    refine ⟨target, ?_, hback⟩
    rw [List.getLast?_cons]
    cases hlast : rest.getLast? with
    | none | some last =>
      simp only [hlast] at hrest
      exact hrest

/-- The last pointer of the first part, or the first address, is turned to another chain. -/
theorem Chain.relink (h : Chain next cursor (front ++ back)) (hnodup : front.Nodup)
    {back' : List ℕ} (hback : Chain next' target back')
    (hkeep : ∀ x ∈ front, front.getLast? ≠ some x → next' x = next x)
    (hlast : match front.getLast? with
      | none => cursor' = target
      | some last => cursor' = cursor ∧ next' last = target) :
    Chain next' cursor' (front ++ back') := by
  induction front generalizing cursor cursor' with
  | nil =>
    rw [List.getLast?_nil] at hlast
    simp only at hlast
    rw [hlast]
    exact hback
  | cons x rest ih =>
    cases rest with
    | nil =>
      simp only [List.getLast?_singleton] at hlast
      refine ⟨hlast.1.trans h.1, ?_⟩
      rw [hlast.2]
      exact hback
    | cons y rest =>
      rw [List.getLast?_cons_cons] at hlast hkeep
      obtain ⟨last, hsome⟩ : ∃ last, (y :: rest).getLast? = some last :=
        ⟨_, List.getLast?_eq_some_getLast (List.cons_ne_nil y rest)⟩
      rw [hsome] at hlast hkeep
      have hne : x ≠ last := by
        rintro rfl
        exact (List.nodup_cons.1 hnodup).1 (List.mem_of_getLast? hsome)
      have hx : next' x = next x :=
        hkeep x (List.mem_cons_self ..) fun heq => hne (Option.some.inj heq).symm
      refine ⟨hlast.1.trans h.1, ?_⟩
      rw [hx]
      refine ih h.2 (List.nodup_cons.1 hnodup).2 ?_ ?_
      · intro z hz hzlast
        rw [hsome] at hzlast
        exact hkeep z (List.mem_cons_of_mem x hz) hzlast
      · rw [hsome]
        exact ⟨rfl, hlast.2⟩

end HarborKernel.BlockTiling
