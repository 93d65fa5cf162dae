import CppCan.Core.Powers
import CppCan.Safety.Bursts
import Mathlib.Tactic.NormNum.Prime

/-!
# Single bits in protected frames

The residue of a frame is the checksum of what it carries against the one that it carries. It
is zero for a protected frame, and each bit that is flipped adds a power to it. The exponents
of different bits differ, and in a frame of one ISO-TP message they are all below the period
of the polynomial, so no two powers agree. Every power has an odd parity, so three of them do
not add up to zero either.
-/

namespace CppCan.Safety

open CppCan.Core

/-- Flip one bit; positions count from the lowest bit of the first byte. -/
def flipBit (data : List UInt8) (pos : Nat) : List UInt8 :=
  data.modify (pos / 8) (· ^^^ 1 <<< UInt8.ofNat (pos % 8))

/-- Flip the bits at all positions of a list. -/
def flipBits (data : List UInt8) (positions : List Nat) : List UInt8 :=
  positions.foldl flipBit data

/-- The bytes that the checksum covers. -/
def covered (data : List UInt8) : List UInt8 := data.take 8 ++ data.drop kHeaderSize

/-- The checksum of a frame against the one that it carries. -/
def residue (data : List UInt8) : BitVec 16 :=
  (crc16 (covered data)).toBitVec ^^^ (readU16 (data.getD 8 0) (data.getD 9 0)).toBitVec

variable {data : List UInt8} {crc crc' : UInt16} {e : UInt8}

theorem crcByte_xor {d : BitVec 16} (h : crc'.toBitVec = crc.toBitVec ^^^ d) (b : UInt8) :
    (crcByte crc' b).toBitVec =
      (crcByte crc b).toBitVec ^^^ (Crc.shift crcPoly)^[8] d := by
  rw [crcByte, crcByte, crcShift_iterate_toBitVec, crcShift_iterate_toBitVec,
    ← Crc.iterate_shift_xor, UInt16.toBitVec_xor, UInt16.toBitVec_xor, h, BitVec.xor_assoc,
    BitVec.xor_assoc, BitVec.xor_comm d]

/-- A difference of two registers is shifted along. -/
theorem foldl_crcByte_xor {d : BitVec 16} (h : crc'.toBitVec = crc.toBitVec ^^^ d) :
    (data.foldl crcByte crc').toBitVec =
      (data.foldl crcByte crc).toBitVec ^^^ (Crc.shift crcPoly)^[8 * data.length] d := by
  induction data generalizing crc crc' d with
  | nil => exact h
  | cons b data ih =>
    rw [List.foldl_cons, List.foldl_cons, ih (crcByte_xor h b), List.length_cons, Nat.mul_succ,
      Function.iterate_add_apply]

theorem crcByte_byte_xor (crc : UInt16) (b e : UInt8) :
    (crcByte crc (b ^^^ e)).toBitVec =
      (crcByte crc b).toBitVec ^^^ (Crc.shift crcPoly)^[8] (e.toUInt16 <<< 8).toBitVec := by
  rw [crcByte, crcByte, crcShift_iterate_toBitVec, crcShift_iterate_toBitVec,
    ← Crc.iterate_shift_xor, UInt8.toUInt16_xor, UInt16.shiftLeft_xor, ← UInt16.xor_assoc,
    UInt16.toBitVec_xor]

/-- A byte that changes is shifted along with all that is behind it. -/
theorem foldl_crcByte_modify {k : Nat} (hk : k < data.length) (e : UInt8) (crc : UInt16) :
    ((data.modify k (· ^^^ e)).foldl crcByte crc).toBitVec =
      (data.foldl crcByte crc).toBitVec ^^^
        (Crc.shift crcPoly)^[8 * (data.length - k)] (e.toUInt16 <<< 8).toBitVec := by
  induction data generalizing k crc with
  | nil => cases hk
  | cons b data ih =>
    cases k with
    | zero =>
      rw [List.modify_zero_cons, List.foldl_cons, List.foldl_cons,
        foldl_crcByte_xor (crcByte_byte_xor crc b e), List.length_cons, Nat.sub_zero,
        Nat.mul_succ, Function.iterate_add_apply]
    | succ k =>
      rw [List.modify_succ_cons, List.foldl_cons, List.foldl_cons,
        ih (Nat.lt_of_succ_lt_succ hk), List.length_cons, Nat.add_sub_add_right]

/-- A bit at the top of the register, and a bit of the checksum's two bytes. -/
theorem bit_eq_power {b : Nat} (hb : b < 8) :
    ((1 <<< UInt8.ofNat b : UInt8).toUInt16 <<< 8).toBitVec = Crc.power crcPoly (8 + b) ∧
      (1 <<< UInt8.ofNat b : UInt8).toUInt16.toBitVec = Crc.power crcPoly b := by
  rw [Crc.power_of_lt (by omega), Crc.power_of_lt (by omega)]
  revert b
  decide

theorem readU16_xor_low (x y e : UInt8) :
    readU16 (x ^^^ e) y = readU16 x y ^^^ e.toUInt16 := by
  apply UInt16.eq_of_toBitVec_eq
  apply BitVec.eq_of_getLsbD_eq
  intro i hi
  simp only [readU16, UInt16.toBitVec_or, UInt16.toBitVec_shiftLeft, UInt8.toBitVec_toUInt16,
    UInt16.toBitVec_xor, UInt8.toBitVec_xor, UInt16.toBitVec_ofNat, BitVec.getLsbD_or,
    BitVec.getLsbD_xor, BitVec.reduceMod, BitVec.shiftLeft_eq', BitVec.toNat_ofNat,
    BitVec.getLsbD_shiftLeft, BitVec.getLsbD_setWidth]
  rcases Nat.lt_or_ge i 8 with h | h <;> grind

theorem readU16_xor_high (x y e : UInt8) :
    readU16 x (y ^^^ e) = readU16 x y ^^^ e.toUInt16 <<< 8 := by
  apply UInt16.eq_of_toBitVec_eq
  apply BitVec.eq_of_getLsbD_eq
  intro i hi
  simp only [readU16, UInt16.toBitVec_or, UInt16.toBitVec_shiftLeft, UInt8.toBitVec_toUInt16,
    UInt16.toBitVec_xor, UInt8.toBitVec_xor, UInt16.toBitVec_ofNat, BitVec.getLsbD_or,
    BitVec.getLsbD_xor, BitVec.reduceMod, BitVec.shiftLeft_eq', BitVec.toNat_ofNat,
    BitVec.getLsbD_shiftLeft, BitVec.getLsbD_setWidth]
  rcases Nat.lt_or_ge i 8 with h | h <;> grind

/-- The place of a byte in the code word: the checksum comes last, its low byte at the end. -/
def place (len i : Nat) : Nat :=
  if i < 8 then len - 1 - i else if i < 10 then i - 8 else len + 1 - i

/-- The exponent of a bit. -/
def exponent (len pos : Nat) : Nat := 8 * place len (pos / 8) + pos % 8

theorem length_covered (h : kHeaderSize ≤ data.length) :
    (covered data).length = data.length - 2 := by
  unfold kHeaderSize at h
  simp only [covered, kHeaderSize, List.length_append, List.length_take, List.length_drop]
  omega

theorem getElem?_covered (h : kHeaderSize ≤ data.length) (j : Nat) :
    (covered data)[j]? = if j < 8 then data[j]? else data[j + 2]? := by
  have hlen : (data.take 8).length = 8 := by
    unfold kHeaderSize at h
    rw [List.length_take]
    omega
  unfold covered
  split
  · rename_i hj
    rw [List.getElem?_append_left (by omega), List.getElem?_take_of_lt hj]
  · rename_i hj
    have hback : kHeaderSize + (j - 8) = j + 2 := by
      unfold kHeaderSize
      omega
    rw [List.getElem?_append_right (by omega), hlen, List.getElem?_drop, hback]

/-- A byte of the covered part changes with the frame's, the others stay. -/
theorem covered_modify (h : kHeaderSize ≤ data.length) (i : Nat) (f : UInt8 → UInt8) :
    covered (data.modify i f) =
      if i < 8 then (covered data).modify i f
      else if i < 10 then covered data
      else (covered data).modify (i - 2) f := by
  have h' : kHeaderSize ≤ (data.modify i f).length := by rwa [List.length_modify]
  apply List.ext_getElem?
  intro j
  have hcovered := getElem?_covered h j
  rw [getElem?_covered h', List.getElem?_modify, List.getElem?_modify]
  by_cases hlow : i < 8
  · rw [if_pos hlow, List.getElem?_modify]
    grind
  · rw [if_neg hlow]
    by_cases hfield : i < 10
    · rw [if_pos hfield]
      grind
    · rw [if_neg hfield, List.getElem?_modify]
      grind

theorem getD_modify {j : Nat} (hj : j < data.length) (i : Nat) (f : UInt8 → UInt8) :
    (data.modify i f).getD j 0 = if i = j then f (data.getD j 0) else data.getD j 0 := by
  rw [List.getD_eq_getElem?_getD, List.getElem?_modify, List.getElem?_eq_getElem hj,
    List.getD_eq_getElem?_getD, List.getElem?_eq_getElem hj]
  split <;> rfl

theorem xor_right_comm (a b c : BitVec 16) : a ^^^ b ^^^ c = a ^^^ c ^^^ b := by
  rw [BitVec.xor_assoc, BitVec.xor_comm b, ← BitVec.xor_assoc]

/-- A bit of the covered part that is flipped adds its power to the checksum. -/
theorem crc16_modify {k b : Nat} (hk : k < data.length) (hb : b < 8) :
    (crc16 (data.modify k (· ^^^ 1 <<< UInt8.ofNat b))).toBitVec =
      (crc16 data).toBitVec ^^^ Crc.power crcPoly (8 * (data.length - k) + (8 + b)) := by
  rw [crc16, crc16, foldl_crcByte_modify hk, (bit_eq_power hb).1, Crc.iterate_shift_power]

/-- A bit that is flipped adds its power to the residue. -/
theorem residue_flipBit {pos : Nat} (hlen : kHeaderSize ≤ data.length)
    (hpos : pos < 8 * data.length) :
    residue (flipBit data pos) =
      residue data ^^^ Crc.power crcPoly (exponent data.length pos) := by
  have hb : pos % 8 < 8 := Nat.mod_lt _ (by omega)
  have hi : pos / 8 < data.length := by omega
  have hten : 10 ≤ data.length := hlen
  have hcover := length_covered hlen
  unfold residue flipBit exponent place
  rw [covered_modify hlen, getD_modify (by omega), getD_modify (by omega)]
  generalize pos / 8 = i at hi
  by_cases hlow : i < 8
  · have hexp : 8 * (data.length - 2 - i) + (8 + pos % 8) =
        8 * (data.length - 1 - i) + pos % 8 := by
      omega
    rw [if_pos hlow, if_pos hlow, if_neg (by omega), if_neg (by omega),
      crc16_modify (by omega) hb, hcover, hexp, xor_right_comm]
  · rw [if_neg hlow, if_neg hlow]
    by_cases hfield : i < 10
    · rw [if_pos hfield, if_pos hfield]
      obtain rfl | rfl : i = 8 ∨ i = 9 := by omega
      · rw [if_pos rfl, if_neg (by omega), readU16_xor_low, UInt16.toBitVec_xor,
          (bit_eq_power hb).2, BitVec.xor_assoc]
        simp
      · rw [if_neg (by omega), if_pos rfl, readU16_xor_high, UInt16.toBitVec_xor,
          (bit_eq_power hb).1, BitVec.xor_assoc]
    · have hexp : 8 * (data.length - 2 - (i - 2)) + (8 + pos % 8) =
          8 * (data.length + 1 - i) + pos % 8 := by omega
      rw [if_neg hfield, if_neg hfield, if_neg (by omega), if_neg (by omega),
        crc16_modify (by omega) hb, hcover, hexp, xor_right_comm]

/-- Powers on the way to the period and to its quotients by a prime. -/
def crcPowers : List (Nat × BitVec 16) :=
  [(32767, 1), (28086, 0x762B), (18724, 0x5A68), (9362, 0x8635), (4681, 0x2C42), (4228, 0xB21F),
    (2114, 0xF59B), (1057, 0xF2AF), (906, 0x94DE), (604, 0xE12F), (453, 0xE624), (302, 0xF10A),
    (217, 0x48E3), (155, 0xF16F), (151, 0xF008), (138, 0x80D2), (124, 0xC6F7), (62, 0x6A10),
    (31, 0x1B98), (28, 0x0373), (14, 0x4000), (13, 0x2000), (3, 0x0008)]

theorem power_of_mem {e : Nat × BitVec 16} (h : e ∈ crcPowers) :
    Crc.power crcPoly e.1 = e.2 :=
  Crc.power_of_checkPowers (by decide +kernel) e h

/-- The period is the greatest that a polynomial of this degree and an even number of terms
can have. -/
theorem minimalPeriod_crcPoly : Function.minimalPeriod (Crc.shift crcPoly) 1#16 = 32767 := by
  apply Crc.minimalPeriod_eq
  · exact power_of_mem (e := (32767, 1)) (by decide)
  · intro p hp hdvd hperiodic
    have hfactors : (32767 : Nat) = 7 * (31 * 151) := rfl
    rw [hfactors, hp.dvd_mul, hp.dvd_mul, Nat.prime_dvd_prime_iff_eq hp (by norm_num),
      Nat.prime_dvd_prime_iff_eq hp (by norm_num),
      Nat.prime_dvd_prime_iff_eq hp (by norm_num)] at hdvd
    obtain rfl | rfl | rfl := hdvd
    · have hpower := power_of_mem (e := (4681, 0x2C42)) (by decide)
      exact absurd (hpower.symm.trans hperiodic) (by decide)
    · have hpower := power_of_mem (e := (1057, 0xF2AF)) (by decide)
      exact absurd (hpower.symm.trans hperiodic) (by decide)
    · have hpower := power_of_mem (e := (217, 0x48E3)) (by decide)
      exact absurd (hpower.symm.trans hperiodic) (by decide)

/-- The sum of the powers of some bits. -/
def syndrome (len : Nat) (positions : List Nat) : BitVec 16 :=
  (positions.map fun pos => Crc.power crcPoly (exponent len pos)).foldr (· ^^^ ·) 0#16

theorem length_flipBit (data : List UInt8) (pos : Nat) : (flipBit data pos).length = data.length :=
  List.length_modify ..

theorem length_flipBits (data : List UInt8) (positions : List Nat) :
    (flipBits data positions).length = data.length := by
  induction positions generalizing data with
  | nil => rfl
  | cons pos positions ih => exact (ih (flipBit data pos)).trans (length_flipBit data pos)

/-- Bits that are flipped add their powers to the residue. -/
theorem residue_flipBits {positions : List Nat} (hlen : kHeaderSize ≤ data.length)
    (hrange : ∀ pos ∈ positions, pos < 8 * data.length) :
    residue (flipBits data positions) = residue data ^^^ syndrome data.length positions := by
  induction positions generalizing data with
  | nil => exact (BitVec.xor_zero).symm
  | cons pos positions ih =>
    obtain ⟨hpos, hrest⟩ := List.forall_mem_cons.mp hrange
    have hsame := length_flipBit data pos
    have hnext := ih (hsame.symm ▸ hlen) (hsame.symm ▸ hrest)
    rw [hsame, residue_flipBit hlen hpos, BitVec.xor_assoc] at hnext
    exact hnext

/-- The parity of a sum of powers is that of their number. -/
theorem parity_syndrome (len : Nat) (positions : List Nat) :
    Crc.parity (syndrome len positions) = decide (positions.length % 2 = 1) := by
  induction positions with
  | nil => exact (by decide : Crc.parity 0#16 = false)
  | cons pos positions ih =>
    have hone : Crc.parity (Crc.power crcPoly (exponent len pos)) = true :=
      Crc.parity_power (by decide) (by decide) _
    have hsplit : syndrome len (pos :: positions) =
        Crc.power crcPoly (exponent len pos) ^^^ syndrome len positions := rfl
    rw [hsplit, Crc.parity_xor, hone, ih, List.length_cons]
    by_cases h : positions.length % 2 = 1
    · simp [h]
      omega
    · simp [h]
      omega

theorem exponent_lt {len pos : Nat} (hlen : len ≤ 4095) (hlow : 32 ≤ pos) (hhigh : pos < 8 * len) :
    exponent len pos < 32767 := by
  unfold exponent place
  split_ifs <;> omega

/-- Different bits have different exponents. -/
theorem exponent_injective {len a b : Nat} (hlen : 10 ≤ len) (ha : a < 8 * len) (hb : b < 8 * len)
    (h : exponent len a = exponent len b) : a = b := by
  unfold exponent place at h
  split_ifs at h <;> omega

/-- An odd number of powers has an odd sum. -/
theorem syndrome_ne_zero_of_odd {len : Nat} {positions : List Nat}
    (h : positions.length % 2 = 1) : syndrome len positions ≠ 0#16 := by
  intro hzero
  have hparity := parity_syndrome len positions
  rw [hzero, decide_eq_true h] at hparity
  exact absurd hparity (by decide)

/-- Two powers below the period do not agree. -/
theorem syndrome_pair_ne_zero {len a b : Nat} (hmin : 10 ≤ len) (hmax : len ≤ 4095)
    (hne : a ≠ b) (ha : 32 ≤ a ∧ a < 8 * len) (hb : 32 ≤ b ∧ b < 8 * len) :
    syndrome len [a, b] ≠ 0#16 := by
  intro hzero
  have hsum : Crc.power crcPoly (exponent len a) ^^^ Crc.power crcPoly (exponent len b) = 0#16 := by
    rw [← hzero]
    exact congrArg _ BitVec.xor_zero.symm
  have hexp := Crc.power_injOn minimalPeriod_crcPoly (exponent_lt hmax ha.1 ha.2)
    (exponent_lt hmax hb.1 hb.2) (BitVec.xor_eq_zero_iff.mp hsum)
  exact hne (exponent_injective hmin ha.2 hb.2 hexp)

/-- One, two or three bits leave something. -/
theorem syndrome_ne_zero {len : Nat} {positions : List Nat} (hmin : 10 ≤ len) (hmax : len ≤ 4095)
    (hsome : positions ≠ []) (hfew : positions.length ≤ 3) (hnodup : positions.Nodup)
    (hrange : ∀ pos ∈ positions, 32 ≤ pos ∧ pos < 8 * len) : syndrome len positions ≠ 0#16 := by
  match positions, hsome, hfew with
  | [_], _, _ => exact syndrome_ne_zero_of_odd rfl
  | [a, b], _, _ =>
    have hne : a ≠ b := by simpa using hnodup
    exact syndrome_pair_ne_zero hmin hmax hne (hrange a (by simp)) (hrange b (by simp))
  | [a, b, c], _, _ =>
    have hodd : [a, b, c].length % 2 = 1 := by simp
    exact syndrome_ne_zero_of_odd hodd

/-- Bits behind the identifiers leave the identifiers as they are. -/
theorem take_flipBits {positions : List Nat} (h : ∀ pos ∈ positions, 32 ≤ pos) :
    (flipBits data positions).take 4 = data.take 4 := by
  induction positions generalizing data with
  | nil => rfl
  | cons pos positions ih =>
    obtain ⟨hpos, hrest⟩ := List.forall_mem_cons.mp h
    have hone : (flipBit data pos).take 4 = data.take 4 := by
      rw [flipBit, List.take_modify]
      apply List.modify_eq_self
      rw [List.length_take]
      omega
    exact (ih hrest).trans hone

/-- The residue of a protected frame is zero. -/
theorem residue_protectedFrame (cfg : Config) (seq : UInt32) (payload : List UInt8) :
    residue (protectedFrame cfg seq payload) = 0#16 := by
  have hcovered : covered (protectedFrame cfg seq payload) =
      headerFields cfg.dataId cfg.sourceId seq ++ payload := rfl
  have hcarried : readU16 ((protectedFrame cfg seq payload).getD 8 0)
      ((protectedFrame cfg seq payload).getD 9 0) =
      crc16 (headerFields cfg.dataId cfg.sourceId seq ++ payload) :=
    readU16_buildHeader cfg.dataId cfg.sourceId seq payload
  rw [residue, hcovered, hcarried, BitVec.xor_self]

/-- A frame that starts with the identifiers of the receiver starts with the header that the
receiver covers. -/
theorem headerFields_eq_take {cfg : Config} {seq : UInt32} (hlen : kHeaderSize ≤ data.length)
    (hids : data.take 4 = (headerFields cfg.dataId cfg.sourceId seq).take 4) :
    headerFields cfg.dataId cfg.sourceId
      (readU32 (data.getD 4 0) (data.getD 5 0) (data.getD 6 0) (data.getD 7 0)) =
      data.take 8 := by
  match data, hlen, hids with
  | d0 :: d1 :: d2 :: d3 :: d4 :: d5 :: d6 :: d7 :: _, _, hids =>
    obtain ⟨h4, h5, h6, h7⟩ := bytes_readU32 d4 d5 d6 d7
    have hsplit : ∀ seq', headerFields cfg.dataId cfg.sourceId seq' =
        (headerFields cfg.dataId cfg.sourceId seq).take 4 ++
          [seq'.toUInt8, (seq' >>> 8).toUInt8, (seq' >>> 16).toUInt8, (seq' >>> 24).toUInt8] :=
      fun _ => rfl
    rw [hsplit, ← hids]
    change _ ++ [(readU32 d4 d5 d6 d7).toUInt8, (readU32 d4 d5 d6 d7 >>> 8).toUInt8,
      (readU32 d4 d5 d6 d7 >>> 16).toUInt8, (readU32 d4 d5 d6 d7 >>> 24).toUInt8] = _
    rw [h4, h5, h6, h7]
    rfl

/-- A frame with the identifiers of the receiver and a residue is refused. -/
theorem unwrap_of_residue {r : Receiver} (seq : UInt32) (hlen : kHeaderSize ≤ data.length)
    (hids : data.take 4 = (headerFields r.cfg.dataId r.cfg.sourceId seq).take 4)
    (h : residue data ≠ 0#16) :
    ∃ e, r.unwrap data = (.error e, r) ∧ e.kind = .crcMismatch := by
  apply Receiver.unwrap_of_crc_ne hlen
  rw [headerFields_eq_take hlen hids]
  intro heq
  apply h
  rw [residue, heq]
  exact BitVec.xor_self

/-- One, two or three bits that are flipped behind the identifiers of a protected frame of at
most 4095 bytes make the receiver throw. -/
theorem flippedBits_detected (r : Receiver) (seq : UInt32) (payload : List UInt8)
    (positions : List Nat) (hlen : kHeaderSize + payload.length ≤ 4095) (hsome : positions ≠ [])
    (hfew : positions.length ≤ 3) (hnodup : positions.Nodup)
    (hrange : ∀ pos ∈ positions, 32 ≤ pos ∧ pos < 8 * (kHeaderSize + payload.length)) :
    ∃ e, r.unwrap (flipBits (protectedFrame r.cfg seq payload) positions) = (.error e, r) ∧
      e.kind = .crcMismatch := by
  have hframe : (protectedFrame r.cfg seq payload).length = kHeaderSize + payload.length := by
    rw [protectedFrame, List.length_append, length_buildHeader]
  have hlong : kHeaderSize ≤ (protectedFrame r.cfg seq payload).length := by omega
  apply unwrap_of_residue seq
  · rwa [length_flipBits]
  · rw [take_flipBits fun pos hpos => (hrange pos hpos).1]
    rfl
  · rw [residue_flipBits hlong (by rw [hframe]; exact fun pos hpos => (hrange pos hpos).2),
      residue_protectedFrame, BitVec.zero_xor, hframe]
    exact syndrome_ne_zero (Nat.le_add_right ..) hlen hsome hfew hnodup hrange

/-- A bit of the counter, one of the checksum and one of the payload are flipped. -/
theorem flippedBits_detected_three :
    ∃ e, (⟨⟨0x1234, 0x5678⟩, 42, true⟩ : Receiver).unwrap
        (flipBits (protectedFrame ⟨0x1234, 0x5678⟩ 42 [1, 2, 3]) [33, 70, 95]) =
      (.error e, ⟨⟨0x1234, 0x5678⟩, 42, true⟩) ∧ e.kind = .crcMismatch :=
  flippedBits_detected ⟨⟨0x1234, 0x5678⟩, 42, true⟩ 42 [1, 2, 3] [33, 70, 95] (by decide)
    (by decide) (by decide) (by decide) (by decide)

end CppCan.Safety
