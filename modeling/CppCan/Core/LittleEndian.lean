import Mathlib.Data.UInt

/-!
# Little-endian words

Reassembling a fixed-width word from the bytes obtained by shifting it down
gives the word back. Each bit of the word comes from exactly one byte.
-/

namespace CppCan.Core

/-- Two bytes read as a little-endian word. -/
def readU16 (b0 b1 : UInt8) : UInt16 := b0.toUInt16 ||| b1.toUInt16 <<< 8

/-- Four bytes read as a little-endian word. -/
def readU32 (b0 b1 b2 b3 : UInt8) : UInt32 :=
  b0.toUInt32 ||| b1.toUInt32 <<< 8 ||| b2.toUInt32 <<< 16 ||| b3.toUInt32 <<< 24

/-- Splitting a 16-bit word into bytes and reading it back is the identity. -/
@[simp] theorem readU16_bytes (x : UInt16) : readU16 x.toUInt8 (x >>> 8).toUInt8 = x := by
  apply UInt16.eq_of_toBitVec_eq
  apply BitVec.eq_of_getLsbD_eq
  intro i hi
  have h8 : 8 ≤ i → 8 + (i - 8) = i := Nat.add_sub_cancel'
  simp only [readU16, UInt16.toBitVec_or, UInt16.toBitVec_shiftLeft, UInt8.toBitVec_toUInt16,
    UInt16.toBitVec_toUInt8, UInt16.toBitVec_shiftRight, UInt16.toBitVec_ofNat, BitVec.getLsbD_or,
    BitVec.reduceMod, BitVec.shiftLeft_eq', BitVec.ushiftRight_eq', BitVec.toNat_ofNat,
    BitVec.getLsbD_shiftLeft, BitVec.getLsbD_setWidth, BitVec.getLsbD_ushiftRight]
  rcases Nat.lt_or_ge i 8 with h | h <;> grind

/-- Splitting a 32-bit word into bytes and reading it back is the identity. -/
@[simp] theorem readU32_bytes (x : UInt32) :
    readU32 x.toUInt8 (x >>> 8).toUInt8 (x >>> 16).toUInt8 (x >>> 24).toUInt8 = x := by
  apply UInt32.eq_of_toBitVec_eq
  apply BitVec.eq_of_getLsbD_eq
  intro i hi
  have h8 : 8 ≤ i → 8 + (i - 8) = i := Nat.add_sub_cancel'
  have h16 : 16 ≤ i → 16 + (i - 16) = i := Nat.add_sub_cancel'
  have h24 : 24 ≤ i → 24 + (i - 24) = i := Nat.add_sub_cancel'
  simp only [readU32, UInt32.toBitVec_or, UInt32.toBitVec_shiftLeft, UInt8.toBitVec_toUInt32,
    UInt32.toBitVec_toUInt8, UInt32.toBitVec_shiftRight, UInt32.toBitVec_ofNat, BitVec.getLsbD_or,
    BitVec.reduceMod, BitVec.shiftLeft_eq', BitVec.ushiftRight_eq', BitVec.toNat_ofNat,
    BitVec.getLsbD_shiftLeft, BitVec.getLsbD_setWidth, BitVec.getLsbD_ushiftRight]
  rcases (by omega : i < 8 ∨ 8 ≤ i ∧ i < 16 ∨ 16 ≤ i ∧ i < 24 ∨ 24 ≤ i) with h | h | h | h <;>
    grind

/-- Reading four bytes as a word and splitting it gives the bytes back. -/
theorem bytes_readU32 (b0 b1 b2 b3 : UInt8) :
    (readU32 b0 b1 b2 b3).toUInt8 = b0 ∧ (readU32 b0 b1 b2 b3 >>> 8).toUInt8 = b1 ∧
      (readU32 b0 b1 b2 b3 >>> 16).toUInt8 = b2 ∧ (readU32 b0 b1 b2 b3 >>> 24).toUInt8 = b3 := by
  refine ⟨?_, ?_, ?_, ?_⟩ <;> apply UInt8.eq_of_toBitVec_eq <;>
    apply BitVec.eq_of_getLsbD_eq <;> intro i hi <;>
    simp only [readU32, UInt32.toBitVec_or, UInt32.toBitVec_shiftLeft, UInt8.toBitVec_toUInt32,
      UInt32.toBitVec_toUInt8, UInt32.toBitVec_shiftRight, UInt32.toBitVec_ofNat,
      BitVec.getLsbD_or, BitVec.reduceMod, BitVec.shiftLeft_eq', BitVec.ushiftRight_eq',
      BitVec.toNat_ofNat, BitVec.getLsbD_shiftLeft, BitVec.getLsbD_setWidth,
      BitVec.getLsbD_ushiftRight] <;> grind

end CppCan.Core
