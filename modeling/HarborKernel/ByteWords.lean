import Mathlib.Data.Nat.Notation
import Mathlib.Logic.Function.Basic
import Mathlib.Tactic.Common
import Mathlib.Tactic.Ring

/-!
Little-endian words in a memory of bytes.
A memory is a function on addresses and a word is the natural number its bytes
spell. Reading depends on the bytes of the word only, writing changes no other
byte, and what was written is read back.
-/

namespace HarborKernel.ByteWords

abbrev Bytes := ℕ → UInt8

def readLe (m : Bytes) (a : ℕ) : ℕ → ℕ
  | 0 => 0
  | k + 1 => (m a).toNat + 256 * readLe m (a + 1) k

def writeLe (m : Bytes) (a k v : ℕ) : Bytes :=
  fun j => if a ≤ j ∧ j < a + k then UInt8.ofNat (v / 256 ^ (j - a)) else m j

/-- Copy `n` bytes to address `a`. -/
def blit (m : Bytes) (a n : ℕ) (src : Bytes) : Bytes :=
  fun j => if a ≤ j ∧ j < a + n then src (j - a) else m j

variable {m m' : Bytes} {a b j k n v : ℕ}

theorem writeLe_outside (h : j < a ∨ a + k ≤ j) : writeLe m a k v j = m j := if_neg (by omega)

theorem blit_outside {src : Bytes} (h : j < a ∨ a + n ≤ j) : blit m a n src j = m j :=
  if_neg (by omega)

theorem blit_inside {src : Bytes} (h : j < n) : blit m a n src (a + j) = src j := by
  rw [blit, if_pos (by omega), Nat.add_sub_cancel_left]

theorem readLe_congr (h : ∀ j, a ≤ j → j < a + k → m' j = m j) : readLe m' a k = readLe m a k := by
  induction k generalizing a with
  | zero => rfl
  | succ k ih =>
    rw [readLe, readLe, h a (le_refl a) (by omega), ih fun j hj hk => h j (by omega) (by omega)]

theorem readLe_lt (m : Bytes) (a k : ℕ) : readLe m a k < 256 ^ k := by
  induction k generalizing a with
  | zero => exact Nat.one_pos
  | succ k ih =>
    have hhead := (m a).toNat_lt
    have hrest := ih (a + 1)
    rw [readLe, Nat.pow_succ]
    omega

/-- A write outside the word leaves it alone. -/
theorem readLe_writeLe_of_disjoint (h : b + n ≤ a ∨ a + k ≤ b) :
    readLe (writeLe m a k v) b n = readLe m b n :=
  readLe_congr fun _ _ _ => writeLe_outside (by omega)

theorem readLe_of_bytes (h : ∀ i, i < k → m (a + i) = UInt8.ofNat (v / 256 ^ i)) :
    readLe m a k = v % 256 ^ k := by
  induction k generalizing a v with
  | zero => rw [Nat.pow_zero, Nat.mod_one, readLe]
  | succ k ih =>
    have hhead : m a = UInt8.ofNat v := by simpa using h 0 (by omega)
    have hrest : readLe m (a + 1) k = v / 256 % 256 ^ k := by
      refine ih fun i hi => ?_
      rw [Nat.add_right_comm, Nat.add_assoc, h (i + 1) (by omega), Nat.div_div_eq_div_mul,
        Nat.pow_succ, Nat.mul_comm]
    have hpow : 256 ^ (k + 1) = 256 * 256 ^ k := by ring
    rw [readLe, hhead, hrest, UInt8.toNat_ofNat', hpow, Nat.mod_mul]

theorem readLe_writeLe (m : Bytes) (a k v : ℕ) : readLe (writeLe m a k v) a k = v % 256 ^ k := by
  refine readLe_of_bytes fun i hi => ?_
  rw [writeLe, if_pos (by omega), Nat.add_sub_cancel_left]

theorem readLe_writeLe_of_lt (h : v < 256 ^ k) : readLe (writeLe m a k v) a k = v := by
  rw [readLe_writeLe, Nat.mod_eq_of_lt h]

end HarborKernel.ByteWords
