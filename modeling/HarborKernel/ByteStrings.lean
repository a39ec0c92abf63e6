import Mathlib.Data.Nat.Digits.Lemmas
import Mathlib.Tactic.Common

/-!
Byte strings with fields at offsets: little-endian numbers, slices and writes in place.
A string that is put together from parts is read back part by part.
-/

namespace HarborKernel.ByteStrings

def leNat (bs : List UInt8) : ℕ := Nat.ofDigits 256 (bs.map UInt8.toNat)

def leBytes : ℕ → ℕ → List UInt8
  | 0, _ => []
  | k + 1, v => UInt8.ofNat v :: leBytes k (v / 256)

def slice (buf : List UInt8) (off n : ℕ) : Option (List UInt8) :=
  if off + n ≤ buf.length then some ((buf.drop off).take n) else none

def writeAt (buf : List UInt8) (off : ℕ) (bytes : List UInt8) : List UInt8 :=
  buf.take off ++ bytes ++ buf.drop (off + bytes.length)

variable {pre mid post buf bytes : List UInt8}

theorem leNat_nil : leNat [] = 0 := rfl

theorem leNat_cons (b : UInt8) (bs : List UInt8) : leNat (b :: bs) = b.toNat + 256 * leNat bs :=
  Nat.ofDigits_cons

theorem leNat_lt (bs : List UInt8) : leNat bs < 256 ^ bs.length := by
  have hlt := Nat.ofDigits_lt_base_pow_length (b := 256) (l := bs.map UInt8.toNat) (by decide) ?_
  · rwa [List.length_map] at hlt
  intro x hx
  obtain ⟨b, -, rfl⟩ := List.mem_map.1 hx
  exact b.toNat_lt

/-- The bytes of a number are the bytes that spell it. -/
theorem leNat_div_mod (bs : List UInt8) (i : ℕ) (hi : i < bs.length) :
    leNat bs / 256 ^ i % 256 = bs[i].toNat := by
  induction bs generalizing i with
  | nil => exact absurd hi (Nat.not_lt_zero i)
  | cons b rest ih =>
    have hb := b.toNat_lt
    rw [leNat_cons]
    cases i with
    | zero =>
      simp only [Nat.pow_zero, Nat.div_one, List.getElem_cons_zero]
      omega
    | succ i =>
      have hdiv : (b.toNat + 256 * leNat rest) / 256 = leNat rest := by omega
      rw [Nat.pow_succ', ← Nat.div_div_eq_div_mul, hdiv, List.getElem_cons_succ]
      exact ih i (Nat.lt_of_succ_lt_succ hi)

theorem length_leBytes (k v : ℕ) : (leBytes k v).length = k := by
  induction k generalizing v with
  | zero => rfl
  | succ k ih => rw [leBytes, List.length_cons, ih]

theorem leNat_leBytes {k v : ℕ} (h : v < 256 ^ k) : leNat (leBytes k v) = v := by
  induction k generalizing v with
  | zero =>
    rw [Nat.pow_zero] at h
    rw [leBytes, leNat_nil]
    omega
  | succ k ih =>
    rw [Nat.pow_succ] at h
    rw [leBytes, leNat_cons, ih (by omega), UInt8.toNat_ofNat']
    omega

theorem slice_eq_some {off n : ℕ} (h : slice buf off n = some bytes) :
    off + n ≤ buf.length ∧ bytes = (buf.drop off).take n ∧ bytes.length = n := by
  unfold slice at h
  split at h
  · rename_i hle
    have heq := (Option.some.inj h).symm
    refine ⟨hle, heq, ?_⟩
    rw [heq, List.length_take, List.length_drop]
    omega
  · contradiction

theorem slice_append (pre mid post : List UInt8) :
    slice (pre ++ mid ++ post) pre.length mid.length = some mid := by
  have hlen : pre.length + mid.length ≤ (pre ++ mid ++ post).length := by
    simp only [List.length_append]
    omega
  rw [slice, if_pos hlen, List.append_assoc, List.drop_left, List.take_left]

def At (buf : List UInt8) (off : ℕ) (bytes : List UInt8) : Prop :=
  ∃ pre post, buf = pre ++ bytes ++ post ∧ pre.length = off

section At

variable {off : ℕ} {a b : List UInt8}

theorem At.intro (pre mid post : List UInt8) : At (pre ++ mid ++ post) pre.length mid :=
  ⟨pre, post, rfl, rfl⟩

theorem at_append : At buf off (a ++ b) ↔ At buf off a ∧ At buf (off + a.length) b := by
  constructor
  · rintro ⟨pre, post, rfl, rfl⟩
    refine ⟨⟨pre, b ++ post, ?_, rfl⟩, pre ++ a, post, ?_, List.length_append⟩
    · simp only [List.append_assoc]
    · simp only [List.append_assoc]
  · rintro ⟨⟨pre, post, rfl, rfl⟩, pre', post', heq, hlen⟩
    rw [List.append_assoc pre'] at heq
    obtain ⟨rfl, rfl⟩ := List.append_inj heq (by rw [List.length_append, hlen])
    exact ⟨pre, post', by simp only [List.append_assoc], rfl⟩

theorem at_cons {x : UInt8} : At buf off (x :: b) ↔ At buf off [x] ∧ At buf (off + 1) b :=
  at_append (a := [x])

theorem At.slice (h : At buf off bytes) {n : ℕ} (hn : n = bytes.length) :
    slice buf off n = some bytes := by
  obtain ⟨pre, post, rfl, rfl⟩ := h
  rw [hn, slice_append]

theorem At.byte {x : UInt8} (h : At buf off [x]) : buf[off]? = some x := by
  obtain ⟨pre, post, rfl, rfl⟩ := h
  simp

end At

/-- A field depends on its own bytes only. -/
theorem field_congr {buf' : List UInt8} {off n : ℕ}
    (h : ∀ k, off ≤ k → k < off + n → buf[k]? = buf'[k]?) :
    (buf.drop off).take n = (buf'.drop off).take n := by
  apply List.ext_getElem?
  intro k
  rw [List.getElem?_take, List.getElem?_take]
  split
  · rw [List.getElem?_drop, List.getElem?_drop]
    apply h <;> omega
  · rfl

/-- A write at the end of the part that is finished. -/
theorem writeAt_append (pre rest bytes : List UInt8) :
    writeAt (pre ++ rest) pre.length bytes = pre ++ bytes ++ rest.drop bytes.length := by
  rw [writeAt, List.take_left, List.drop_append, List.drop_of_length_le (by omega),
    List.nil_append, Nat.add_sub_cancel_left]

end HarborKernel.ByteStrings
