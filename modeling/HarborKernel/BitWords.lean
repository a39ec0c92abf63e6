import Mathlib.Data.Nat.Bitwise
import Mathlib.Data.List.Range

/-!
Words used as sets of positions: testing, setting and clearing single bits through masks
`1 <<< i`, clearing an interval bit by bit, and clearing the lowest bit with `x &&& (x - 1)`.
-/

namespace HarborKernel.BitWords

variable {w : ℕ}

theorem getLsbD_one_shiftLeft (i j : ℕ) :
    (1#w <<< i).getLsbD j = (decide (i < w) && decide (i = j)) := by
  rw [← BitVec.twoPow_eq, BitVec.getLsbD_twoPow]

variable {i : ℕ} {x : BitVec w}

theorem getLsbD_or_bit (x : BitVec w) (hi : i < w) (j : ℕ) :
    (x ||| 1#w <<< i).getLsbD j = (x.getLsbD j || decide (i = j)) := by
  rw [BitVec.getLsbD_or, getLsbD_one_shiftLeft, decide_eq_true hi, Bool.true_and]

theorem getLsbD_and_not_bit (x : BitVec w) (i j : ℕ) :
    (x &&& ~~~(1#w <<< i)).getLsbD j = (x.getLsbD j && decide (i ≠ j)) := by
  rw [BitVec.getLsbD_and, BitVec.getLsbD_not, getLsbD_one_shiftLeft]
  by_cases hj : j < w
  · by_cases hij : i = j
    · subst hij
      simp [hj]
    · simp [hj, hij]
  · rw [BitVec.getLsbD_of_ge x j (Nat.not_lt.1 hj), Bool.false_and, Bool.false_and]

/-- Masking with one bit asks whether that bit is set. -/
theorem and_bit_ne_zero (x : BitVec w) (hi : i < w) :
    x &&& 1#w <<< i ≠ 0#w ↔ x.getLsbD i = true := by
  constructor
  · intro h
    by_contra hclear
    apply h
    apply BitVec.eq_of_getLsbD_eq
    intro j _
    rw [BitVec.getLsbD_and, getLsbD_one_shiftLeft, decide_eq_true hi, Bool.true_and]
    by_cases hij : i = j
    · subst hij
      rw [Bool.eq_false_of_not_eq_true hclear, Bool.false_and, BitVec.getLsbD_zero]
    · rw [decide_eq_false hij, Bool.and_false, BitVec.getLsbD_zero]
  · intro hset hzero
    have hbit : (x &&& 1#w <<< i).getLsbD i = true := by
      rw [BitVec.getLsbD_and, getLsbD_one_shiftLeft, hset]
      simp [hi]
    rw [hzero, BitVec.getLsbD_zero] at hbit
    cases hbit

def clearRange (x : BitVec w) (start count : ℕ) : BitVec w :=
  (List.range' start count).foldl (fun x i => x &&& ~~~(1#w <<< i)) x

theorem getLsbD_clearRange (x : BitVec w) (start count j : ℕ) :
    (clearRange x start count).getLsbD j =
      (x.getLsbD j && decide ¬(start ≤ j ∧ j < start + count)) := by
  unfold clearRange
  induction count generalizing x start with
  | zero =>
    have hout : ¬(start ≤ j ∧ j < start + 0) := by omega
    rw [decide_eq_true hout, Bool.and_true]
    rfl
  | succ count ih =>
    rw [List.range'_succ, List.foldl_cons, ih, getLsbD_and_not_bit, Bool.and_assoc,
      ← Bool.decide_and]
    congr 2
    apply propext
    omega

/-- Below the lowest bit there is none, so a bit that is set is at or above it. -/
theorem ctz_le (h : x.getLsbD i = true) : x.ctz.toNat ≤ i := by
  by_contra hlt
  rw [BitVec.getLsbD_false_of_lt_ctz (Nat.not_le.1 hlt)] at h
  cases h

theorem ctz_lt (h : x ≠ 0#w) : x.ctz.toNat < w := by
  by_contra hge
  have hbit := BitVec.getLsbD_true_ctz_of_ne_zero h
  rw [BitVec.getLsbD_of_ge x _ (Nat.not_lt.1 hge)] at hbit
  cases hbit

private theorem testBit_sub_one {n k : ℕ} (hk : n.testBit k = true)
    (hlow : ∀ i < k, n.testBit i = false) {j : ℕ} (hj : k ≤ j) :
    (n - 1).testBit j = (n.testBit j && decide (j ≠ k)) := by
  have hmod : n % 2 ^ k = 0 := by
    apply Nat.eq_of_testBit_eq
    intro i
    rw [Nat.testBit_mod_two_pow, Nat.zero_testBit]
    by_cases hi : i < k
    · rw [hlow i hi, Bool.and_false]
    · rw [decide_eq_false hi, Bool.false_and]
  have hodd : n / 2 ^ k % 2 = 1 := by
    rwa [Nat.testBit_eq_decide_div_mod_eq, decide_eq_true_eq] at hk
  have hpos : 0 < 2 ^ k := Nat.two_pow_pos k
  -- below the lowest bit the predecessor is all ones, above it nothing changes
  have hpred : n - 1 = 2 ^ k * (n / 2 ^ k - 1) + (2 ^ k - 1) := by
    have hsplit := Nat.div_add_mod n (2 ^ k)
    obtain ⟨q, hq⟩ : ∃ q, n / 2 ^ k = q + 1 := by
      cases hdiv : n / 2 ^ k with
      | zero => simp [hdiv] at hodd
      | succ q => exact ⟨q, rfl⟩
    rw [hq, Nat.mul_add] at hsplit
    rw [hq, Nat.add_sub_cancel]
    omega
  have hself : n = 2 ^ k * (n / 2 ^ k) + 0 := by
    have hsplit := Nat.div_add_mod n (2 ^ k)
    omega
  rw [hpred, Nat.testBit_two_pow_mul_add _ (by omega), if_neg (Nat.not_lt.2 hj)]
  conv_rhs => rw [hself, Nat.testBit_two_pow_mul_add _ hpos, if_neg (Nat.not_lt.2 hj)]
  obtain ⟨m, hm⟩ : ∃ m, n / 2 ^ k = 2 * m + 1 := ⟨n / 2 ^ k / 2, by omega⟩
  rw [hm, Nat.add_sub_cancel]
  cases hd : j - k with
  | zero =>
    have heq : j = k := by omega
    simp [heq]
  | succ d =>
    have hne : j ≠ k := by omega
    rw [Nat.testBit_succ, Nat.testBit_succ, decide_eq_true hne, Bool.and_true]
    congr 1
    omega

/-- Subtracting one and masking clears the lowest bit and no other. -/
theorem getLsbD_and_sub_one (h : x ≠ 0#w) (j : ℕ) :
    (x &&& (x - 1)).getLsbD j = (x.getLsbD j && decide (j ≠ x.ctz.toNat)) := by
  have hlt := ctz_lt h
  have hone : (1 : BitVec w).toNat = 1 := by
    rw [BitVec.ofNat_eq_ofNat, BitVec.toNat_ofNat]
    exact Nat.mod_eq_of_lt (Nat.one_lt_two_pow (by omega))
  have hset := BitVec.getLsbD_true_ctz_of_ne_zero h
  have hle : 1 ≤ x.toNat := by
    by_contra hzero
    apply h
    apply BitVec.eq_of_toNat_eq
    rw [BitVec.toNat_ofNat, Nat.zero_mod]
    omega
  have hnat : (x - 1).toNat = x.toNat - 1 := by
    rw [BitVec.toNat_sub_of_le (by rw [BitVec.le_def, hone]; exact hle), hone]
  by_cases hj : x.ctz.toNat ≤ j
  · have hbits := testBit_sub_one (n := x.toNat) (k := x.ctz.toNat) (j := j)
      (by rw [BitVec.testBit_toNat]; exact hset)
      (fun i hi => by rw [BitVec.testBit_toNat]; exact BitVec.getLsbD_false_of_lt_ctz hi) hj
    rw [← hnat, BitVec.testBit_toNat, BitVec.testBit_toNat] at hbits
    rw [BitVec.getLsbD_and, hbits, ← Bool.and_assoc, Bool.and_self]
  · rw [BitVec.getLsbD_and, BitVec.getLsbD_false_of_lt_ctz (Nat.not_le.1 hj), Bool.false_and,
      Bool.false_and]

end HarborKernel.BitWords
