import CppCan.Core.BitStreams
import CppCan.Core.Checked
import CppCan.Core.Throws
import CppCan.Dbc.Parser

/-!
# Decoding signals

The raw value of a signal is collected bit by bit. A little-endian signal walks up through
the bits and stops at the end of the data; a big-endian signal walks down within each byte
and up from byte to byte, and passes over the bytes behind the end.
-/

namespace CppCan.Dbc

open CppCan.Core

/-- `static_cast<int>(data.size())`. -/
def dataSize (data : List UInt8) : Int := toSigned 32 data.length

/-- `data[byte_i] & (1 << bit_i)`, as a condition. -/
def testBit (data : List UInt8) (byteI bitI : Int) : Except Undefined Bool := do
  let mask ← signedShiftLeft 32 1 bitI
  if 0 ≤ byteI ∧ byteI < data.length then
    return (data.getD byteI.toNat 0).toNat &&& mask.toNat != 0
  else throw .index

/-- `raw |= mask`, if the condition holds. Only then is the mask computed. -/
def setBit (isSet : Bool) (raw : UInt64) (mask : Except Undefined UInt64) :
    Except Undefined UInt64 :=
  if isSet then (raw ||| ·) <$> mask else .ok raw

/-- `static_cast<uint64_t>(1) << (length - 1 - i)`. -/
def maskFromTop (length i : Int) : Except Undefined UInt64 := do
  let last ← signed 32 (length - 1)
  let k ← signed 32 (last - i)
  shiftLeft64 1 k

/-- The loop over the bits of a little-endian signal, with `n` bits left. -/
def extractLittleEndian (data : List UInt8) (startBit : Int) :
    Nat → Int → UInt64 → Except Undefined UInt64
  | 0, _, raw => .ok raw
  | n + 1, i, raw => do
    let bit ← signed 32 (startBit + i)
    let byteI := bit.tdiv 8
    let bitI := bit.tmod 8
    if dataSize data ≤ byteI then
      return raw
    let isSet ← testBit data byteI bitI
    let raw ← setBit isSet raw (shiftLeft64 1 i)
    let i ← signed 32 (i + 1)
    extractLittleEndian data startBit n i raw

/-- `byte_i < static_cast<int>(data.size()) && data[byte_i] & (1 << bit_i)`. -/
def testBitWithin (data : List UInt8) (byteI bitI : Int) : Except Undefined Bool :=
  if byteI < dataSize data then testBit data byteI bitI else .ok false

/-- `if (bit_i == 0) { bit_i = 7; ++byte_i; } else --bit_i;`. -/
def walkDown (byteI bitI : Int) : Except Undefined (Int × Int) :=
  if bitI = 0 then (·, 7) <$> signed 32 (byteI + 1) else (byteI, ·) <$> signed 32 (bitI - 1)

/-- The loop over the bits of a big-endian signal, with `n` bits left. -/
def extractBigEndian (data : List UInt8) (length : Int) :
    Nat → Int → Int → Int → UInt64 → Except Undefined UInt64
  | 0, _, _, _, raw => .ok raw
  | n + 1, i, byteI, bitI, raw => do
    let isSet ← testBitWithin data byteI bitI
    let raw ← setBit isSet raw (maskFromTop length i)
    let (byteI, bitI) ← walkDown byteI bitI
    let i ← signed 32 (i + 1)
    extractBigEndian data length n i byteI bitI raw

/-- The raw value of a signal. A length that is no number of bits of a word, or a negative
start, gives zero. -/
def extractRaw (data : List UInt8) (startBit length : Int32) (order : ByteOrder) :
    Except Undefined UInt64 :=
  if length.toInt ≤ 0 ∨ 64 < length.toInt ∨ startBit.toInt < 0 then .ok 0
  else
    match order with
    | .littleEndian => extractLittleEndian data startBit.toInt length.toInt.toNat 0 0
    | .bigEndian =>
      extractBigEndian data length.toInt length.toInt.toNat 0 (startBit.toInt.tdiv 8)
        (startBit.toInt.tmod 8) 0

/-- The integer that `Signal::decode` converts to a floating-point number and scales. -/
def Signal.scaled (sig : Signal) (data : List UInt8) : Except Undefined Int := do
  let raw ← extractRaw data sig.startBit sig.length sig.byteOrder
  if sig.length.toInt ≤ 0 ∨ 64 < sig.length.toInt then
    return raw.toNat
  if sig.isSigned then
    let signBit ← signed 32 (sig.length.toInt - 1)
    let mask ← shiftLeft64 1 signBit
    if raw &&& mask ≠ 0 then
      let range ← signedShiftLeft 64 1 sig.length.toInt
      signed 64 (toSigned 64 raw.toNat - range)
    else return toSigned 64 raw.toNat
  else return raw.toNat

variable {data : List UInt8}

/-- A bit of the data, if its byte counts as a part of the data. -/
def bitWithin (data : List UInt8) (byte bit : Nat) : Bool :=
  decide ((byte : Int) < dataSize data) && (data.getD byte 0).toNat.testBit bit

theorem dataSize_of_lt (h : data.length < 2 ^ 28) : dataSize data = data.length :=
  toSigned_of_lt (h.trans (by decide))

theorem dataSize_le (data : List UInt8) : dataSize data ≤ data.length := by
  have hmod := Nat.mod_le data.length (2 ^ 32)
  unfold dataSize toSigned
  split_ifs <;> omega

theorem bitWithin_of_lt (h : data.length < 2 ^ 28) (byte bit : Nat) :
    bitWithin data byte bit = (data.getD byte 0).toNat.testBit bit := by
  unfold bitWithin
  rw [dataSize_of_lt h]
  by_cases hend : byte < data.length
  · simp [hend]
  · rw [List.getD_eq_default _ _ (by omega)]
    simp

/-- A byte that counts is tested at one of its bits. -/
theorem testBit_eq {p q : Nat} (hp : p < dataSize data) (hq : q < 8) :
    testBit data p q = .ok (bitWithin data p q) := by
  have hle := dataSize_le data
  have hmask : toSigned 32 (2 ^ q) = (2 ^ q : Nat) :=
    toSigned_of_lt (Nat.pow_lt_pow_right (by decide) (by omega))
  have hbit : ((data.getD p 0).toNat &&& 2 ^ q != 0) = bitWithin data p q := by
    rw [bitWithin, decide_eq_true hp, Bool.true_and, Nat.and_two_pow]
    cases (data.getD p 0).toNat.testBit q <;> simp
  unfold testBit
  rw [signedShiftLeft_one (by omega), hmask, ok_bind, if_pos (by omega), Int.toNat_natCast,
    Int.toNat_natCast, hbit]
  rfl

theorem setBit_eq {k : Nat} (isSet : Bool) (raw : UInt64) (hk : k < 64) :
    ∃ raw', setBit isSet raw (shiftLeft64 1 k) = .ok raw' ∧
      ∀ j, raw'.toNat.testBit j = (raw.toNat.testBit j || (isSet && decide (j = k))) := by
  cases isSet with
  | false => exact ⟨raw, rfl, by simp⟩
  | true =>
    refine ⟨raw ||| 1 <<< UInt64.ofNat k, ?_, fun j => ?_⟩
    · rw [setBit, shiftLeft64_of_lt 1 hk]
      rfl
    · rw [UInt64.toNat_or, Nat.testBit_or, toNat_one_shiftLeft hk, Nat.testBit_two_pow,
        Bool.true_and]
      congr 1
      exact decide_eq_decide.mpr eq_comm

/-- The next step of the loop, while the number of the bit fits. -/
theorem extractLittleEndian_succ {start i : Nat} (hfit : start + i < 2 ^ 31) (hi : i < 64)
    (n : Nat) (raw : UInt64) :
    extractLittleEndian data start (n + 1) i raw =
      if dataSize data ≤ ((start + i) / 8 : Nat) then .ok raw
      else
        setBit (bitWithin data ((start + i) / 8) ((start + i) % 8)) raw (shiftLeft64 1 i) >>=
          extractLittleEndian data start n (i + 1 : Nat) := by
  have hbit : signed 32 (start + i : Int) = .ok ((start + i : Nat) : Int) :=
    signed_eq_ok.mpr ⟨⟨by omega, by norm_num; omega⟩, by omega⟩
  have hnext : signed 32 (i + 1 : Int) = .ok ((i + 1 : Nat) : Int) :=
    signed_eq_ok.mpr ⟨⟨by omega, by norm_num; omega⟩, by omega⟩
  have hdiv : ((start + i : Nat) : Int).tdiv 8 = ((start + i) / 8 : Nat) :=
    (Int.ofNat_tdiv _ _).symm
  have hmod : ((start + i : Nat) : Int).tmod 8 = ((start + i) % 8 : Nat) :=
    (Int.ofNat_tmod _ _).symm
  rw [extractLittleEndian, hbit, ok_bind]
  simp only [hdiv, hmod]
  by_cases hend : dataSize data ≤ ((start + i) / 8 : Nat)
  · rw [if_pos hend, if_pos hend]
    rfl
  · rw [if_neg hend, if_neg hend, testBit_eq (by omega) (by omega), ok_bind]
    simp only [hnext, ok_bind]

/-- The bits that the loop sets are those of the data. -/
theorem testBit_extractLittleEndian {start n i : Nat} {raw raw' : UInt64} (hcount : i + n ≤ 64)
    (h : extractLittleEndian data start n i raw = .ok raw') (k : Nat) :
    raw'.toNat.testBit k = (raw.toNat.testBit k || (decide (i ≤ k ∧ k < i + n) &&
      bitWithin data ((start + k) / 8) ((start + k) % 8))) := by
  induction n generalizing i raw with
  | zero =>
    cases h
    simp
  | succ n ih =>
    have hfit : start + i < 2 ^ 31 := by
      obtain ⟨bit, hbit, -⟩ := bind_eq_ok.mp h
      have hbound := (signed_eq_ok.mp hbit).1.2
      norm_num at hbound
      omega
    rw [extractLittleEndian_succ hfit (by omega)] at h
    split_ifs at h with hend
    · -- a byte behind the end gives no bits, and neither do those behind it
      cases h
      by_cases hk : i ≤ k
      · have hbyte : ¬ (((start + k) / 8 : Nat) : Int) < dataSize data := by omega
        rw [bitWithin, decide_eq_false hbyte]
        simp
      · simp [hk]
    · obtain ⟨raw₁, hset₁, hbits₁⟩ := setBit_eq (bitWithin data ((start + i) / 8) ((start + i) % 8))
        raw (show i < 64 by omega)
      rw [hset₁, ok_bind] at h
      rw [ih (by omega) h, hbits₁]
      by_cases hk : k = i
      · subst hk
        have hnow : k ≤ k ∧ k < k + (n + 1) := by omega
        simp [hnow]
      · have hrest : (i + 1 ≤ k ∧ k < i + 1 + n) ↔ (i ≤ k ∧ k < i + (n + 1)) := by omega
        rw [decide_eq_false hk, Bool.and_false, Bool.or_false, decide_eq_decide.mpr hrest]

/-- In data that is not too long nothing on the way is undefined. -/
theorem extractLittleEndian_ok {start : Nat} (hsize : data.length < 2 ^ 28) (n i : Nat)
    (raw : UInt64) (hcount : i + n ≤ 64) (hfit : start + i < 2 ^ 31) :
    ∃ raw', extractLittleEndian data start n i raw = .ok raw' := by
  induction n generalizing i raw with
  | zero => exact ⟨raw, rfl⟩
  | succ n ih =>
    rw [extractLittleEndian_succ hfit (by omega), dataSize_of_lt hsize]
    split_ifs with hend
    · exact ⟨raw, rfl⟩
    · -- the byte of this bit is not the last one that an `int` can number
      obtain ⟨raw₁, hset, -⟩ := setBit_eq (bitWithin data ((start + i) / 8) ((start + i) % 8)) raw
        (show i < 64 by omega)
      rw [hset, ok_bind]
      exact ih (i + 1) raw₁ (by omega) (by omega)

theorem maskFromTop_eq {n i : Nat} (h : i + (n + 1) ≤ 64) :
    maskFromTop ((i + (n + 1) : Nat) : Int) i = shiftLeft64 1 n := by
  have hlast : signed 32 (((i + (n + 1) : Nat) : Int) - 1) = .ok ((i + n : Nat) : Int) :=
    signed_eq_ok.mpr ⟨⟨by omega, by norm_num; omega⟩, by omega⟩
  have hdist : signed 32 (((i + n : Nat) : Int) - i) = .ok (n : Int) :=
    signed_eq_ok.mpr ⟨⟨by omega, by norm_num; omega⟩, by omega⟩
  rw [maskFromTop, hlast, ok_bind, hdist, ok_bind]

/-- A byte behind the end counts as zero. -/
theorem testBitWithin_eq {p q : Nat} (hq : q < 8) :
    testBitWithin data p q = .ok (bitWithin data p q) := by
  unfold testBitWithin
  split_ifs with h
  · exact testBit_eq h hq
  · rw [bitWithin, decide_eq_false h, Bool.false_and]

/-- The walk goes to the next position of the stream. -/
theorem walkDown_eq {pos : Nat} (hpos : pos + 8 < 2 ^ 34) :
    walkDown (pos / 8 : Nat) (7 - pos % 8 : Nat) =
      .ok (((pos + 1) / 8 : Nat), (7 - (pos + 1) % 8 : Nat)) := by
  unfold walkDown
  split_ifs with h
  · have hbyte : signed 32 (((pos / 8 : Nat) : Int) + 1) = .ok (((pos + 1) / 8 : Nat) : Int) :=
      signed_eq_ok.mpr ⟨⟨by omega, by norm_num; omega⟩, by omega⟩
    have hbit : (7 : Int) = (7 - (pos + 1) % 8 : Nat) := by omega
    rw [hbyte, hbit]
    rfl
  · have hbyte : ((pos / 8 : Nat) : Int) = ((pos + 1) / 8 : Nat) := by omega
    have hbit : signed 32 (((7 - pos % 8 : Nat) : Int) - 1) =
        .ok ((7 - (pos + 1) % 8 : Nat) : Int) :=
      signed_eq_ok.mpr ⟨⟨by norm_num; omega, by norm_num; omega⟩, by omega⟩
    rw [hbit, hbyte]
    rfl

/-- The next step of the loop, at a position of the stream. -/
theorem extractBigEndian_succ {n i : Nat} (pos : Nat) (hpos : pos + 8 < 2 ^ 34)
    (hcount : i + (n + 1) ≤ 64) (raw : UInt64) :
    extractBigEndian data (i + (n + 1) : Nat) (n + 1) i (pos / 8 : Nat) (7 - pos % 8 : Nat) raw =
      setBit (bitWithin data (pos / 8) (7 - pos % 8)) raw (shiftLeft64 1 n) >>=
        extractBigEndian data (i + 1 + n : Nat) n (i + 1 : Nat) ((pos + 1) / 8 : Nat)
          (7 - (pos + 1) % 8 : Nat) := by
  have hi : signed 32 ((i : Int) + 1) = .ok ((i + 1 : Nat) : Int) :=
    signed_eq_ok.mpr ⟨⟨by omega, by norm_num; omega⟩, by omega⟩
  have hlen : i + (n + 1) = i + 1 + n := by omega
  rw [extractBigEndian, testBitWithin_eq (by omega), ok_bind, maskFromTop_eq hcount, hlen]
  simp only [walkDown_eq hpos, hi, ok_bind]

/-- The loop sets the bits that stand in the stream, the first of them highest. -/
theorem extractBigEndian_eq (data : List UInt8) (n i pos : Nat) (raw : UInt64)
    (hpos : pos + n + 8 ≤ 2 ^ 34) (hcount : i + n ≤ 64) :
    ∃ raw', extractBigEndian data (i + n : Nat) n i (pos / 8 : Nat) (7 - pos % 8 : Nat) raw =
        .ok raw' ∧
      ∀ k, raw'.toNat.testBit k = (raw.toNat.testBit k || (decide (k < n) &&
        bitWithin data ((pos + (n - 1 - k)) / 8) (7 - (pos + (n - 1 - k)) % 8))) := by
  induction n generalizing i pos raw with
  | zero => exact ⟨raw, rfl, fun k => by simp⟩
  | succ n ih =>
    obtain ⟨raw₁, hset, hbits₁⟩ := setBit_eq (bitWithin data (pos / 8) (7 - pos % 8)) raw
      (show n < 64 by omega)
    obtain ⟨raw', hrun, hbits⟩ := ih (i + 1) (pos + 1) raw₁ (by omega) (by omega)
    refine ⟨raw', ?_, fun k => ?_⟩
    · rw [extractBigEndian_succ pos (by omega) hcount, hset]
      exact hrun
    · rw [hbits, hbits₁]
      rcases Nat.lt_trichotomy k n with h | h | h
      · have hplace : pos + 1 + (n - 1 - k) = pos + (n + 1 - 1 - k) := by omega
        have hlater : k < n + 1 := by omega
        simp [h, h.ne, hlater, hplace]
      · subst h
        simp
      · have hnever : ¬ k < n + 1 := by omega
        simp [h.not_gt, h.ne', hnever]

variable {startBit length : Int32} {order : ByteOrder} {start len : Nat} {raw : UInt64}

/-- The position in the stream of the bit that is counted as `start`. -/
def streamPos (start : Nat) : Nat := 8 * (start / 8) + (7 - start % 8)

/-- The place of a bit of a signal: the byte, and the bit within it. -/
def place (start length k : Nat) : ByteOrder → Nat × Nat
  | .littleEndian => ((start + k) / 8, (start + k) % 8)
  | .bigEndian =>
    ((streamPos start + (length - 1 - k)) / 8, 7 - (streamPos start + (length - 1 - k)) % 8)

/-- The number that stands in the data: a field of the little-endian number, or a window of
the stream of bits. -/
def rawValue (data : List UInt8) (start length : Nat) : ByteOrder → Nat
  | .littleEndian => (littleEndianNumber data >>> start) % 2 ^ length
  | .bigEndian => readMsb (window (bitStream data) (streamPos start) length)

theorem testBit_rawValue (data : List UInt8) (start length k : Nat) (order : ByteOrder) :
    (rawValue data start length order).testBit k = (decide (k < length) &&
      (data.getD (place start length k order).1 0).toNat.testBit
        (place start length k order).2) := by
  cases order with
  | littleEndian =>
    rw [rawValue, Nat.testBit_mod_two_pow, Nat.testBit_shiftRight, testBit_littleEndianNumber]
    rfl
  | bigEndian =>
    rw [rawValue, testBit_readMsb_window, getD_bitStream]
    rfl

/-- A big-endian signal begins at its position in the stream. -/
theorem extractRaw_bigEndian (hs : startBit.toInt = start) (hl : length.toInt = len)
    (hlow : 1 ≤ len) (hhigh : len ≤ 64) :
    extractRaw data startBit length .bigEndian = extractBigEndian data (0 + len : Nat) len
      (0 : Nat) (streamPos start / 8 : Nat) (7 - streamPos start % 8 : Nat) 0 := by
  have hdiv : streamPos start / 8 = start / 8 := by
    unfold streamPos
    omega
  have hmod : 7 - streamPos start % 8 = start % 8 := by
    unfold streamPos
    omega
  unfold extractRaw
  rw [hs, hl, if_neg (by omega), Int.toNat_natCast, Nat.zero_add, hdiv, hmod, Int.ofNat_tdiv,
    Int.ofNat_tmod]
  rfl

theorem extractRaw_littleEndian (hs : startBit.toInt = start) (hl : length.toInt = len)
    (hlow : 1 ≤ len) (hhigh : len ≤ 64) :
    extractRaw data startBit length .littleEndian =
      extractLittleEndian data start len (0 : Nat) 0 := by
  unfold extractRaw
  rw [hs, hl, if_neg (by omega), Int.toNat_natCast]
  rfl

/-- The bits of a raw value are those at their places in the data. -/
theorem testBit_extractRaw (hs : startBit.toInt = start) (hl : length.toInt = len)
    (hlow : 1 ≤ len) (hhigh : len ≤ 64) (h : extractRaw data startBit length order = .ok raw)
    (k : Nat) :
    raw.toNat.testBit k = (decide (k < len) &&
      bitWithin data (place start len k order).1 (place start len k order).2) := by
  cases order with
  | littleEndian =>
    rw [extractRaw_littleEndian hs hl hlow hhigh] at h
    have hbits := testBit_extractLittleEndian (by omega) h k
    simpa [place] using hbits
  | bigEndian =>
    have hfit := startBit.toInt_lt
    rw [hs] at hfit
    obtain ⟨raw', hrun, hbits⟩ := extractBigEndian_eq data len 0 (streamPos start) 0
      (by unfold streamPos; omega) (by omega)
    rw [extractRaw_bigEndian hs hl hlow hhigh, hrun] at h
    cases h
    simpa [place] using hbits k

/-- In data that is not too long nothing is undefined. -/
theorem extractRaw_ok (order : ByteOrder) (hsize : data.length < 2 ^ 28)
    (hs : startBit.toInt = start) (hl : length.toInt = len) (hlow : 1 ≤ len) (hhigh : len ≤ 64) :
    ∃ raw, extractRaw data startBit length order = .ok raw := by
  have hfit := startBit.toInt_lt
  rw [hs] at hfit
  cases order with
  | littleEndian =>
    rw [extractRaw_littleEndian hs hl hlow hhigh]
    exact extractLittleEndian_ok hsize len 0 0 (by omega) (by omega)
  | bigEndian =>
    obtain ⟨raw, hrun, -⟩ := extractBigEndian_eq data len 0 (streamPos start) 0
      (by unfold streamPos; omega) (by omega)
    rw [extractRaw_bigEndian hs hl hlow hhigh]
    exact ⟨raw, hrun⟩

/-- A signal that is not out of range is extracted bit by bit from the data, and no operation
on the way is undefined. -/
theorem extractRaw_eq (data : List UInt8) (startBit length : Int32) (order : ByteOrder)
    (hsize : data.length < 2 ^ 28) (hlow : 1 ≤ length.toInt) (hhigh : length.toInt ≤ 64)
    (hstart : 0 ≤ startBit.toInt) :
    ∃ raw, extractRaw data startBit length order = .ok raw ∧
      raw.toNat = rawValue data startBit.toInt.toNat length.toInt.toNat order := by
  have hs : startBit.toInt = startBit.toInt.toNat := (Int.toNat_of_nonneg hstart).symm
  have hl : length.toInt = length.toInt.toNat := (Int.toNat_of_nonneg (by omega)).symm
  obtain ⟨raw, hraw⟩ := extractRaw_ok order hsize hs hl (by omega) (by omega)
  refine ⟨raw, hraw, Nat.eq_of_testBit_eq fun k => ?_⟩
  rw [testBit_extractRaw hs hl (by omega) (by omega) hraw, testBit_rawValue, bitWithin_of_lt hsize]

/-- Sixteen bits are read in both orders, near the end of the data. -/
theorem extractRaw_eq_sixteen :
    (∃ raw, extractRaw [0x12, 0x34, 0x56] 4 16 .littleEndian = .ok raw ∧
      raw.toNat = rawValue [0x12, 0x34, 0x56] 4 16 .littleEndian) ∧
    ∃ raw, extractRaw [0x12, 0x34, 0x56] 11 16 .bigEndian = .ok raw ∧
      raw.toNat = rawValue [0x12, 0x34, 0x56] 11 16 .bigEndian :=
  ⟨extractRaw_eq [0x12, 0x34, 0x56] 4 16 .littleEndian (by decide) (by decide) (by decide)
      (by decide),
    extractRaw_eq [0x12, 0x34, 0x56] 11 16 .bigEndian (by decide) (by decide) (by decide)
      (by decide)⟩

/-- The two's complement number of a raw value. -/
def twosComplement (raw length : Nat) : Int :=
  if raw.testBit (length - 1) then raw - 2 ^ length else raw

/-- What `Signal::decode` makes of the raw value of a signed signal. -/
theorem scaled_of_isSigned {sig : Signal} (hl : sig.length.toInt = len) (hlow : 1 ≤ len)
    (hhigh : len ≤ 64) (hraw : extractRaw data sig.startBit sig.length sig.byteOrder = .ok raw)
    (hsigned : sig.isSigned = true) :
    sig.scaled data =
      if raw.toNat.testBit (len - 1) then
        signedShiftLeft 64 1 len >>= fun range => signed 64 (toSigned 64 raw.toNat - range)
      else .ok (toSigned 64 raw.toNat) := by
  have hsign : signed 32 ((len : Int) - 1) = .ok ((len - 1 : Nat) : Int) :=
    signed_eq_ok.mpr ⟨⟨by omega, by norm_num; omega⟩, by omega⟩
  have htop : raw &&& 1 <<< UInt64.ofNat (len - 1) ≠ 0 ↔ raw.toNat.testBit (len - 1) = true := by
    rw [Ne, ← UInt64.toNat_inj, UInt64.toNat_and, toNat_one_shiftLeft (by omega), Nat.and_two_pow]
    cases raw.toNat.testBit (len - 1) <;> simp
  unfold Signal.scaled
  rw [hraw, ok_bind, hl, if_neg (by omega), if_pos hsigned, hsign, ok_bind,
    shiftLeft64_of_lt 1 (by omega), ok_bind]
  by_cases h : raw.toNat.testBit (len - 1) = true
  · rw [if_pos (htop.mpr h), if_pos h]
  · rw [if_neg (mt htop.mp h), if_neg h]
    rfl

/-- Without the top bit the number is kept, at every length. -/
theorem toSigned_of_top_clear (hhigh : len ≤ 64) (hlt : raw.toNat < 2 ^ len)
    (h : raw.toNat.testBit (len - 1) = false) : toSigned 64 raw.toNat = raw.toNat := by
  have hhalf : raw.toNat < 2 ^ (len - 1) := by
    apply Nat.lt_pow_two_of_testBit
    intro k hk
    rcases Nat.eq_or_lt_of_le hk with rfl | hk
    · exact h
    · exact Nat.testBit_lt_two_pow
        (hlt.trans_le (Nat.pow_le_pow_right (by decide) (by omega)))
  exact toSigned_of_lt (hhalf.trans_le (Nat.pow_le_pow_right (by decide) (by omega)))

/-- Up to 62 bits the correction of the sign has a result. -/
theorem correction_eq (hhigh : len ≤ 62) (hlt : raw.toNat < 2 ^ len) :
    (signedShiftLeft 64 1 len >>= fun range => signed 64 (toSigned 64 raw.toNat - range)) =
      .ok (raw.toNat - 2 ^ len : Int) := by
  have hpow : 2 ^ len ≤ 2 ^ 62 := Nat.pow_le_pow_right (by decide) hhigh
  have hrange : toSigned 64 (2 ^ len) = (2 ^ len : Nat) := toSigned_of_lt (by omega)
  have hkept : toSigned 64 raw.toNat = raw.toNat := toSigned_of_lt (by omega)
  have hcast : ((2 ^ len : Nat) : Int) = 2 ^ len := by push_cast; rfl
  rw [signedShiftLeft_one (by omega), hrange, hkept, ok_bind, ← hcast]
  exact signed_of_fits (by norm_num; omega) (by norm_num; omega)

/-- With 63 or 64 bits it has none if the top bit is set. -/
theorem correction_undefined (hlow : 63 ≤ len) (hhigh : len ≤ 64)
    (hlt : raw.toNat < 2 ^ len) (h : raw.toNat.testBit (len - 1) = true) :
    ∃ e, (signedShiftLeft 64 1 len >>= fun range => signed 64 (toSigned 64 raw.toNat - range)) =
      .error e := by
  have hge := Nat.ge_two_pow_of_testBit h
  rcases Nat.eq_or_lt_of_le hlow with rfl | hlow
  · -- the range is the smallest number, and to subtract it is too much
    have hrange : toSigned 64 (2 ^ 63) = -2 ^ 63 := by decide
    have hkept : toSigned 64 raw.toNat = raw.toNat := toSigned_of_lt hlt
    refine ⟨.overflow, ?_⟩
    rw [signedShiftLeft_one (by decide), hrange, hkept, ok_bind]
    exact if_neg (by norm_num at hge ⊢)
  · refine ⟨.shift, ?_⟩
    rw [signedShiftLeft_of_le (by omega)]
    rfl

/-- The bit of the data that is the sign of a signal. -/
def Signal.signBit (sig : Signal) (data : List UInt8) : Bool :=
  let (byte, bit) := place sig.startBit.toInt.toNat sig.length.toInt.toNat
    (sig.length.toInt.toNat - 1) sig.byteOrder
  bitWithin data byte bit

/-- A signed signal is decoded as a two's complement number if and only if it has at most 62
bits or its sign is clear. Otherwise a shift or a subtraction is undefined. -/
theorem scaled_eq_iff (sig : Signal) (data : List UInt8) (raw : UInt64)
    (hstart : 0 ≤ sig.startBit.toInt) (hlow : 1 ≤ sig.length.toInt)
    (hhigh : sig.length.toInt ≤ 64) (hsigned : sig.isSigned = true)
    (hraw : extractRaw data sig.startBit sig.length sig.byteOrder = .ok raw) :
    sig.scaled data = .ok (twosComplement raw.toNat sig.length.toInt.toNat) ↔
      sig.length.toInt ≤ 62 ∨ sig.signBit data = false := by
  have hs : sig.startBit.toInt = sig.startBit.toInt.toNat := (Int.toNat_of_nonneg hstart).symm
  have hl : sig.length.toInt = sig.length.toInt.toNat := (Int.toNat_of_nonneg (by omega)).symm
  have hbits := testBit_extractRaw hs hl (by omega) (by omega) hraw
  have hlt : raw.toNat < 2 ^ sig.length.toInt.toNat := by
    apply Nat.lt_pow_two_of_testBit
    intro k hk
    rw [hbits, decide_eq_false (by omega), Bool.false_and]
  have htop : raw.toNat.testBit (sig.length.toInt.toNat - 1) = sig.signBit data := by
    rw [hbits, decide_eq_true (by omega), Bool.true_and]
    rfl
  rw [scaled_of_isSigned hl (by omega) (by omega) hraw hsigned, twosComplement, htop]
  cases hsign : sig.signBit data with
  | false =>
    rw [hsign] at htop
    rw [if_neg Bool.false_ne_true, if_neg Bool.false_ne_true,
      toSigned_of_top_clear (by omega) hlt htop]
    exact ⟨fun _ => Or.inr rfl, fun _ => rfl⟩
  | true =>
    rw [hsign] at htop
    rw [if_pos rfl, if_pos rfl]
    by_cases hlen : sig.length.toInt ≤ 62
    · rw [correction_eq (by omega) hlt]
      exact ⟨fun _ => Or.inl hlen, fun _ => rfl⟩
    · obtain ⟨e, he⟩ := correction_undefined (by omega) (by omega) hlt htop
      rw [he]
      exact ⟨nofun, fun h => by simp [hlen] at h⟩

/-- A signed little-endian signal that starts at bit 0. -/
def signedSignal (length : Int32) : Signal where
  name := ['s']
  startBit := 0
  length
  byteOrder := .littleEndian
  isSigned := true
  factor := .one
  offset := .zero
  min := .zero
  max := .zero
  unit := []
  receivers := []
  values := ∅

/-- Eight bits that are all set are minus one. -/
theorem scaled_eq_iff_eight :
    extractRaw [0xFF] 0 8 .littleEndian = .ok 0xFF ∧
      ((signedSignal 8).scaled [0xFF] = .ok (twosComplement 0xFF 8) ↔
        (8 : Int32).toInt ≤ 62 ∨ (signedSignal 8).signBit [0xFF] = false) :=
  ⟨by decide, scaled_eq_iff (signedSignal 8) [0xFF] 0xFF (by decide) (by decide) (by decide) rfl
    (by decide)⟩

/-- Sixty-four bits that are all set are not minus one: their range is not computed. -/
theorem scaled_ne_twosComplement :
    extractRaw (List.replicate 8 0xFF) 0 64 .littleEndian = .ok 0xFFFFFFFFFFFFFFFF ∧
      (signedSignal 64).scaled (List.replicate 8 0xFF) = .error .shift ∧
      twosComplement 0xFFFFFFFFFFFFFFFF 64 = -1 := by
  decide +kernel

end CppCan.Dbc
