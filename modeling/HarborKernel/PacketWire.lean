import HarborKernel.PacketPool

/-!
The packed token as a number: the slot in the low byte, the generation above it and the length
from bit forty on. Unpacking undoes packing for every length that a slot can hold.
-/

namespace HarborKernel.Net

open Ipc

theorem pack_toNat (token : PacketToken) :
    (pack token).toNat =
      token.slot.toNat + 2 ^ 8 * token.generation.toNat + 2 ^ 40 * token.len.toNat := by
  have hslot : token.slot.toNat < 2 ^ 8 := token.slot.toNat_lt
  have hgeneration : token.generation.toNat < 2 ^ 32 := token.generation.toNat_lt
  have hlen : token.len.toNat < 2 ^ 16 := token.len.toNat_lt
  have hlow : token.slot.toNat ||| token.generation.toNat <<< 8 =
      token.slot.toNat + 2 ^ 8 * token.generation.toNat := by
    rw [Nat.or_comm, ← Nat.shiftLeft_add_eq_or_of_lt hslot, Nat.shiftLeft_eq]
    omega
  have hword : token.slot.toNat + 2 ^ 8 * token.generation.toNat ||| token.len.toNat <<< 40 =
      token.slot.toNat + 2 ^ 8 * token.generation.toNat + 2 ^ 40 * token.len.toNat := by
    rw [Nat.or_comm, ← Nat.shiftLeft_add_eq_or_of_lt (by omega), Nat.shiftLeft_eq]
    omega
  have hshift : token.generation.toNat <<< 8 % 2 ^ 64 = token.generation.toNat <<< 8 := by
    apply Nat.mod_eq_of_lt
    rw [Nat.shiftLeft_eq]
    omega
  have hhigh : token.len.toNat <<< 40 % 2 ^ 64 = token.len.toNat <<< 40 := by
    apply Nat.mod_eq_of_lt
    rw [Nat.shiftLeft_eq]
    omega
  calc (pack token).toNat
      = token.slot.toNat ||| token.generation.toNat <<< 8 % 2 ^ 64 |||
          token.len.toNat <<< 40 % 2 ^ 64 := by
        simp only [pack, slotBits, lenShift, UInt64.toNat_or, UInt64.toNat_shiftLeft,
          UInt8.toNat_toUInt64, UInt32.toNat_toUInt64, UInt16.toNat_toUInt64]
        rfl
    _ = _ := by rw [hshift, hhigh, hlow, hword]

theorem reserved_clear {value : UInt64} (h : value.toNat < 2 ^ 56) :
    value &&& reservedMask = 0 := by
  apply UInt64.toNat_inj.1
  have hmask : reservedMask.toNat = 255 <<< 56 := by decide +kernel
  rw [UInt64.toNat_and, hmask, UInt64.toNat_zero]
  apply Nat.eq_of_testBit_eq
  intro i
  rw [Nat.testBit_and, Nat.zero_testBit, Nat.testBit_shiftLeft]
  by_cases hi : 56 ≤ i
  · have hbig : value.toNat < 2 ^ i := lt_of_lt_of_le h (Nat.pow_le_pow_right (by omega) hi)
    rw [Nat.testBit_lt_two_pow hbig, Bool.false_and]
  · rw [decide_eq_false hi, Bool.false_and, Bool.and_false]

section

variable (token : PacketToken) (h : token.len.toNat ≤ packetBytes)
include token h

theorem unpack_pack :
    unpack (pack token) = .ok token := by
  have hslot : token.slot.toNat < 2 ^ 8 := token.slot.toNat_lt
  have hgeneration : token.generation.toNat < 2 ^ 32 := token.generation.toNat_lt
  have hlen : token.len.toNat < 2 ^ 16 := token.len.toNat_lt
  have hword := pack_toNat token
  have hlength : ((pack token >>> lenShift) &&& lenMask).toNat = token.len.toNat := by
    have hmask : lenMask.toNat = 2 ^ 16 - 1 := by decide
    have hby : lenShift.toNat % 64 = 40 := by decide
    rw [UInt64.toNat_and, UInt64.toNat_shiftRight, hmask, hby, Nat.and_two_pow_sub_one_eq_mod,
      Nat.shiftRight_eq_div_pow, hword]
    omega
  have hlow : (pack token).toUInt8 = token.slot := by
    apply UInt8.toNat_inj.1
    rw [UInt64.toNat_toUInt8, hword]
    omega
  have hmiddle : (pack token >>> slotBits).toUInt32 = token.generation := by
    apply UInt32.toNat_inj.1
    have hby : slotBits.toNat % 64 = 8 := by decide
    rw [UInt64.toNat_toUInt32, UInt64.toNat_shiftRight, hby, Nat.shiftRight_eq_div_pow, hword]
    omega
  have hclear : pack token &&& reservedMask = 0 := reserved_clear (by omega)
  rw [unpack, if_neg (not_not.2 hclear)]
  simp only [hlength]
  rw [if_neg (Nat.not_lt.2 h), hlow, hmiddle, UInt16.ofNat_toNat]

theorem decode_txSubmit :
    decode (txSubmit token) = .ok (.txSubmit token) := by
  simp only [decode, txSubmit, unpack_pack token h, if_true]

theorem decode_rxReturn :
    decode (rxReturn token) = .ok (.rxReturn token) := by
  have hne : tagRxReturn ≠ tagTxSubmit := by decide
  simp only [decode, rxReturn, unpack_pack token h, if_neg hne, if_true]

end

end HarborKernel.Net
