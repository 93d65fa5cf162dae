import Mathlib.Data.UInt

/-!
# Fields of words

A word of 32 bits holds fields side by side. A field is read by shifting and masking, and
written by shifting and combining; as numbers these are remainders of quotients and sums of
multiples.
-/

namespace CppCan.Core

variable {x a b mask flag : UInt32}

theorem or_and (a b c : UInt32) : (a ||| b) &&& c = a &&& c ||| b &&& c := by
  apply UInt32.toNat_inj.mp
  simp only [UInt32.toNat_and, UInt32.toNat_or]
  exact Nat.and_or_distrib_right ..

/-- A mask of the lowest bits keeps what fits into them. -/
theorem and_mask_of_le {k : Nat} (hmask : mask.toNat = 2 ^ k - 1) (h : x ≤ mask) :
    x &&& mask = x := by
  have hlt : x.toNat < 2 ^ k := by
    have hle := UInt32.le_iff_toNat_le.mp h
    have hpos := Nat.two_pow_pos k
    omega
  apply UInt32.toNat_inj.mp
  rw [UInt32.toNat_and, hmask, Nat.and_two_pow_sub_one_of_lt_two_pow hlt]

/-- A flag outside the mask is not set in what the mask keeps. -/
theorem and_flag_of_and_mask (hflag : mask &&& flag = 0) (h : x &&& mask = x) : x &&& flag = 0 := by
  rw [← h, UInt32.and_assoc, hflag, UInt32.and_zero]

/-- A field of at most eight bits is a remainder of a quotient. -/
theorem toNat_field (x k mask : UInt32) (w : Nat) (hk : k.toNat < 32)
    (hmask : mask.toNat = 2 ^ w - 1) (hw : w ≤ 8) :
    ((x >>> k) &&& mask).toUInt8.toNat = x.toNat / 2 ^ k.toNat % 2 ^ w := by
  have hlt : x.toNat / 2 ^ k.toNat % 2 ^ w < 2 ^ 8 :=
    Nat.lt_of_lt_of_le (Nat.mod_lt _ (Nat.two_pow_pos w)) (Nat.pow_le_pow_right (by omega) hw)
  rw [UInt32.toNat_toUInt8, UInt32.toNat_and, UInt32.toNat_shiftRight, Nat.shiftRight_eq_div_pow,
    Nat.mod_eq_of_lt hk, hmask, Nat.and_two_pow_sub_one_eq_mod, Nat.mod_eq_of_lt hlt]

/-- The lowest byte. -/
theorem toNat_lowByte (x : UInt32) : (x &&& 0xFF).toUInt8.toNat = x.toNat % 256 := by
  have hfield := toNat_field x 0 0xFF 8 (by decide) rfl (by omega)
  simpa using hfield

/-- A byte that is moved up and not out is multiplied. -/
theorem toNat_shiftLeft_byte {b : UInt8} {k : UInt32} (hk : k.toNat < 32)
    (h : b.toNat * 2 ^ k.toNat < 2 ^ 32) : (b.toUInt32 <<< k).toNat = b.toNat * 2 ^ k.toNat := by
  rw [UInt32.toNat_shiftLeft, UInt8.toNat_toUInt32, Nat.shiftLeft_eq, Nat.mod_eq_of_lt hk,
    Nat.mod_eq_of_lt h]

/-- What lies below a multiple of a power of two is added to it. -/
theorem toNat_or_low {m : Nat} (i : Nat) (ha : a.toNat = m * 2 ^ i) (hb : b.toNat < 2 ^ i) :
    (a ||| b).toNat = a.toNat + b.toNat := by
  rw [UInt32.toNat_or, ha, Nat.mul_comm, Nat.two_pow_add_eq_or_of_lt hb]

/-- What lies between what is above it and what is below it is added to them. -/
theorem toNat_or_between {m l d : Nat} (i j : Nat) (hij : i ≤ j) (ha : a.toNat = m * 2 ^ j + l)
    (hl : l < 2 ^ i) (hb : b.toNat = d * 2 ^ i) (hbelow : b.toNat < 2 ^ j) :
    (a ||| b).toNat = a.toNat + b.toNat := by
  have hpow : 2 ^ j = 2 ^ i * 2 ^ (j - i) := by rw [← Nat.pow_add, Nat.add_sub_cancel' hij]
  have hd : d + 1 ≤ 2 ^ (j - i) := by
    rw [hb, hpow, Nat.mul_comm] at hbelow
    exact Nat.lt_of_mul_lt_mul_left hbelow
  have hsum : 2 ^ i * d + l < 2 ^ j := by
    calc 2 ^ i * d + l < 2 ^ i * (d + 1) := by rw [Nat.mul_succ]; omega
      _ ≤ 2 ^ j := by rw [hpow]; exact Nat.mul_le_mul_left _ hd
  have hlow : l < 2 ^ j := by omega
  have hmiddle : l ||| 2 ^ i * d = 2 ^ i * d + l := by
    rw [Nat.or_comm, Nat.two_pow_add_eq_or_of_lt hl]
  calc (a ||| b).toNat = 2 ^ j * m ||| (l ||| 2 ^ i * d) := by
        rw [UInt32.toNat_or, ha, hb, Nat.mul_comm m, Nat.mul_comm d,
          Nat.two_pow_add_eq_or_of_lt hlow, Nat.or_assoc]
    _ = 2 ^ j * m + (2 ^ i * d + l) := by rw [hmiddle, Nat.two_pow_add_eq_or_of_lt hsum]
    _ = a.toNat + b.toNat := by
        rw [ha, hb, Nat.mul_comm m, Nat.mul_comm d]
        omega

/-- A flag that is not set. -/
theorem div_mod_of_and_eq_zero {i : Nat} (hflag : flag.toNat = 2 ^ i)
    (h : x &&& flag = 0) : x.toNat / 2 ^ i % 2 = 0 := by
  have hand := congrArg (fun y : UInt32 => y.toNat.testBit i) h
  rw [UInt32.toNat_and, hflag, Nat.testBit_and, Nat.testBit_two_pow_self, Bool.and_true,
    Nat.testBit_eq_decide_div_mod_eq] at hand
  have hne : ¬ x.toNat / 2 ^ i % 2 = 1 := of_decide_eq_false (hand.trans (Nat.zero_testBit i))
  omega

end CppCan.Core
