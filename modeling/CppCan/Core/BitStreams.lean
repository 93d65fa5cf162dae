import Mathlib.Data.Nat.Digits.Defs
import Mathlib.Data.Nat.Bitwise
import Mathlib.Data.UInt

/-!
# Bytes as numbers and as streams of bits

Bytes may be read as one number, with the first byte at its lowest end, or as a stream of
bits, with the highest bit of the first byte at its front. Bit by bit the two readings only
differ in how the bits of a byte are counted.
-/

namespace CppCan.Core

/-- The bytes as a number, the first byte at the lowest end. -/
def littleEndianNumber (data : List UInt8) : Nat := Nat.ofDigits 256 (data.map UInt8.toNat)

/-- The lowest bits of a number, the highest of them first. -/
def lowBits (n count : Nat) : List Bool :=
  (List.range count).map fun j => n.testBit (count - 1 - j)

/-- The bits of a byte, the highest first. -/
def bitsMsb (b : UInt8) : List Bool := (List.range 8).map fun j => b.toNat.testBit (7 - j)

/-- The bits of the bytes, the highest bit of the first byte first. -/
def bitStream (data : List UInt8) : List Bool := data.flatMap bitsMsb

/-- The number that is read from bits, the most significant first. -/
def readMsb (bits : List Bool) : Nat := bits.foldl (fun n b => 2 * n + b.toNat) 0

/-- The bits of a stream from a position on, as many as are asked for, with zeros behind the
end of the stream. -/
def window (bits : List Bool) (pos count : Nat) : List Bool :=
  (List.range count).map fun i => bits.getD (pos + i) false

/-- The bits of a little-endian number are those of its bytes. -/
theorem testBit_littleEndianNumber (data : List UInt8) (k : Nat) :
    (littleEndianNumber data).testBit k = (data.getD (k / 8) 0).toNat.testBit (k % 8) := by
  induction data generalizing k with
  | nil => simp [littleEndianNumber]
  | cons b data ih =>
    have hsplit : littleEndianNumber (b :: data) = 2 ^ 8 * littleEndianNumber data + b.toNat := by
      unfold littleEndianNumber
      rw [List.map_cons, Nat.ofDigits_cons, Nat.add_comm]
      rfl
    rw [hsplit, Nat.testBit_two_pow_mul_add _ b.toNat_lt]
    split_ifs with h
    · rw [Nat.div_eq_of_lt h, Nat.mod_eq_of_lt h, List.getD_cons_zero]
    · have hdiv : k / 8 = (k - 8) / 8 + 1 := by omega
      have hmod : (k - 8) % 8 = k % 8 := by omega
      rw [ih, hdiv, hmod, List.getD_cons_succ]

theorem length_bitsMsb (b : UInt8) : (bitsMsb b).length = 8 := by
  rw [bitsMsb, List.length_map, List.length_range]

/-- The bits of a byte are its lowest eight. -/
theorem bitsMsb_eq (b : UInt8) : bitsMsb b = lowBits b.toNat 8 := rfl

/-- Bits that agree make the same list. -/
theorem lowBits_congr {n m count : Nat} (h : ∀ i < count, n.testBit i = m.testBit i) :
    lowBits n count = lowBits m count := by
  refine List.map_congr_left fun j hj => h _ ?_
  have := List.mem_range.mp hj
  omega

/-- The lowest bits are higher ones in front of lower ones. -/
theorem lowBits_add (n a b : Nat) : lowBits n (a + b) = lowBits (n / 2 ^ b) a ++ lowBits n b := by
  rw [lowBits, List.range_add, List.map_append, List.map_map]
  congr 1
  · refine List.map_congr_left fun j hj => ?_
    have hlt := List.mem_range.mp hj
    rw [Nat.testBit_div_two_pow]
    congr 1
    omega
  · refine List.map_congr_left fun j hj => congrArg n.testBit ?_
    have hlt := List.mem_range.mp hj
    dsimp only
    omega

theorem length_bitStream (data : List UInt8) : (bitStream data).length = 8 * data.length := by
  induction data with
  | nil => rfl
  | cons b data ih =>
    rw [bitStream, List.flatMap_cons, List.length_append, length_bitsMsb, ← bitStream, ih,
      List.length_cons]
    omega

theorem bitsMsb_injective : Function.Injective bitsMsb := by
  intro b b' h
  refine UInt8.toNat_inj.mp (Nat.eq_of_testBit_eq fun k => ?_)
  by_cases hk : k < 8
  · have hbits := List.map_inj_left.mp h (7 - k) (List.mem_range.mpr (by omega))
    have hback : 7 - (7 - k) = k := by omega
    rwa [hback] at hbits
  · have hhigh : ∀ c : UInt8, c.toNat.testBit k = false := fun c =>
      Nat.testBit_lt_two_pow (Nat.lt_of_lt_of_le c.toNat_lt
        (Nat.pow_le_pow_right (by omega) (Nat.not_lt.mp hk)))
    rw [hhigh, hhigh]

/-- A stream that breaks off within a byte determines the bytes before. -/
theorem bitStream_append_inj {data data' : List UInt8} {left left' : List Bool}
    (hleft : left.length < 8) (hleft' : left'.length < 8)
    (h : bitStream data ++ left = bitStream data' ++ left') : data = data' := by
  have hlen := congrArg List.length h
  rw [List.length_append, List.length_append, length_bitStream, length_bitStream] at hlen
  have heq : (bitStream data).length = (bitStream data').length := by
    rw [length_bitStream, length_bitStream]
    omega
  have hbits := (List.append_inj h heq).1
  clear h hlen heq
  induction data generalizing data' with
  | nil =>
    cases data' with
    | nil => rfl
    | cons b data' => cases hbits
  | cons b data ih =>
    cases data' with
    | nil => cases hbits
    | cons b' data' =>
      rw [bitStream, bitStream, List.flatMap_cons, List.flatMap_cons] at hbits
      obtain ⟨hfirst, hrest⟩ := List.append_inj hbits (by rw [length_bitsMsb, length_bitsMsb])
      rw [bitsMsb_injective hfirst, ih hrest]

/-- The bits of a stream are those of its bytes, counted from above. -/
theorem getD_bitStream (data : List UInt8) (pos : Nat) :
    (bitStream data).getD pos false = (data.getD (pos / 8) 0).toNat.testBit (7 - pos % 8) := by
  induction data generalizing pos with
  | nil => simp [bitStream]
  | cons b data ih =>
    rw [bitStream, List.flatMap_cons]
    by_cases h : pos < 8
    · have hlen : pos < (bitsMsb b).length := by rwa [length_bitsMsb]
      rw [List.getD_append _ _ _ _ hlen, List.getD_eq_getElem _ _ hlen, Nat.div_eq_of_lt h,
        Nat.mod_eq_of_lt h, List.getD_cons_zero]
      simp [bitsMsb]
    · have hdiv : pos / 8 = (pos - 8) / 8 + 1 := by omega
      have hmod : (pos - 8) % 8 = pos % 8 := by omega
      have hnext := ih (pos - 8)
      rw [List.getD_append_right _ _ _ _ (by rw [length_bitsMsb]; omega), length_bitsMsb, hdiv,
        List.getD_cons_succ, ← hmod]
      exact hnext

/-- The bits of a number that is read behind another one. -/
theorem testBit_foldl (bits : List Bool) (n k : Nat) :
    (bits.foldl (fun n b => 2 * n + b.toNat) n).testBit k =
      if k < bits.length then bits.getD (bits.length - 1 - k) false
      else n.testBit (k - bits.length) := by
  induction bits generalizing n with
  | nil => simp
  | cons b bits ih =>
    have hbit : (2 * n + b.toNat).testBit 0 = b := by
      cases b <;> simp
    have hhigh : ∀ j, (2 * n + b.toNat).testBit (j + 1) = n.testBit j := by
      intro j
      have hhalf : (2 * n + b.toNat) / 2 = n := by
        have := b.toNat_lt
        omega
      rw [Nat.testBit_add_one, hhalf]
    rw [List.foldl_cons, ih, List.length_cons]
    rcases Nat.lt_trichotomy k bits.length with h | h | h
    · have hpos : bits.length + 1 - 1 - k = (bits.length - 1 - k) + 1 := by omega
      rw [if_pos h, if_pos (by omega), hpos, List.getD_cons_succ]
    · have hpos : bits.length + 1 - 1 - k = 0 := by omega
      rw [if_neg (by omega), if_pos (by omega), hpos, h, Nat.sub_self, hbit, List.getD_cons_zero]
    · have hpos : k - bits.length = (k - (bits.length + 1)) + 1 := by omega
      rw [if_neg (by omega), if_neg (by omega), hpos, hhigh]

theorem testBit_readMsb (bits : List Bool) (k : Nat) :
    (readMsb bits).testBit k =
      (decide (k < bits.length) && bits.getD (bits.length - 1 - k) false) := by
  rw [readMsb, testBit_foldl, Nat.zero_testBit]
  split_ifs with h <;> simp [h]

/-- The bits of a number that is read from a window of a stream. -/
theorem testBit_readMsb_window (bits : List Bool) (pos count k : Nat) :
    (readMsb (window bits pos count)).testBit k =
      (decide (k < count) && bits.getD (pos + (count - 1 - k)) false) := by
  rw [testBit_readMsb, window, List.length_map, List.length_range]
  by_cases h : k < count
  · have hlast : count - 1 - k < count := by omega
    simp [h, hlast]
  · simp [h]

end CppCan.Core
