import CppCan.Core.Crc
import CppCan.Safety.E2E
import Mathlib.Data.FinEnum

/-!
# Burst errors in protected frames

The checksum is the register of width 16 fed with the bits of the bytes, the highest bit
of each byte first. An error of the counter and the payload that fits into 16
consecutive bits of this stream changes the checksum, and the receiver refuses the frame.
-/

namespace CppCan.Safety

open CppCan.Core

/-- The polynomial that is fed back. -/
def crcPoly : BitVec 16 := 0x1021#16

/-- The bits of a byte, the highest first. -/
def bitsOf (b : UInt8) : List Bool := (List.range 8).map b.toBitVec.getMsbD

/-- Flip the bits of the data that are set in the error. -/
def flip (data error : List UInt8) : List UInt8 := List.zipWith (· ^^^ ·) data error

/-- The bits that are set lie within 16 consecutive ones, and there is one. -/
def IsBurst (error : List UInt8) : Prop :=
  ∃ pre burst post, error.flatMap bitsOf =
      List.replicate pre false ++ burst ++ List.replicate post false ∧
    burst.length ≤ 16 ∧ true ∈ burst

/-- A protected frame with an error in its counter and its payload. -/
def corrupted (cfg : Config) (seq : UInt32) (payload error : List UInt8) : List UInt8 :=
  let frame := protectedFrame cfg seq payload
  frame.take 4 ++ flip ((frame.drop 4).take 4) (error.take 4) ++ (frame.drop 8).take 2 ++
    flip (frame.drop kHeaderSize) (error.drop 4)

theorem crcShift_toBitVec (crc : UInt16) :
    (crcShift crc).toBitVec = Crc.shift crcPoly crc.toBitVec := by
  have hmsb : crc &&& 0x8000 ≠ 0 ↔ crc.toBitVec.msb = true := by
    rw [ne_eq, ← UInt16.toBitVec_inj, BitVec.msb_eq_getLsbD_last]
    change ¬ crc.toBitVec &&& BitVec.twoPow 16 15 = 0#16 ↔ _
    rw [BitVec.and_twoPow]
    cases crc.toBitVec.getLsbD 15 <;> decide
  unfold crcShift Crc.shift
  by_cases h : crc.toBitVec.msb = true
  · rw [if_pos (hmsb.mpr h), if_pos h]
    rfl
  · rw [if_neg (fun hc => h (hmsb.mp hc)), if_neg h]
    rfl

theorem crcShift_iterate_toBitVec (n : Nat) (crc : UInt16) :
    (crcShift^[n] crc).toBitVec = (Crc.shift crcPoly)^[n] crc.toBitVec := by
  induction n generalizing crc with
  | zero => rfl
  | succ n ih => rw [Function.iterate_succ_apply, Function.iterate_succ_apply, ih,
      crcShift_toBitVec]

/-- The bits of a byte loaded into the register are the byte at its top. -/
theorem load_bitsOf (b : UInt8) : Crc.load 16 (bitsOf b) = (b.toUInt16 <<< 8).toBitVec := by
  revert b
  decide +kernel

/-- A byte enters as its eight bits. -/
theorem crcByte_toBitVec (crc : UInt16) (b : UInt8) :
    (crcByte crc b).toBitVec = (bitsOf b).foldl (Crc.feed crcPoly) crc.toBitVec := by
  have hlen : (bitsOf b).length = 8 := rfl
  rw [crcByte, crcShift_iterate_toBitVec, Crc.foldl_feed_eq (by omega), hlen, load_bitsOf,
    UInt16.toBitVec_xor]

/-- The checksum is what the bits of the bytes leave in the register. -/
theorem foldl_crcByte_toBitVec (crc : UInt16) (bytes : List UInt8) :
    (bytes.foldl crcByte crc).toBitVec =
      (bytes.flatMap bitsOf).foldl (Crc.feed crcPoly) crc.toBitVec := by
  induction bytes generalizing crc with
  | nil => rfl
  | cons b bytes ih =>
    rw [List.foldl_cons, ih, crcByte_toBitVec, List.flatMap_cons, List.foldl_append]

theorem length_flatMap_bitsOf (bytes : List UInt8) :
    (bytes.flatMap bitsOf).length = 8 * bytes.length := by
  induction bytes with
  | nil => rfl
  | cons b bytes ih =>
    rw [List.flatMap_cons, List.length_append, ih, List.length_cons]
    change 8 + _ = _
    omega

theorem bitsOf_xor (b e : UInt8) :
    bitsOf (b ^^^ e) = List.zipWith xor (bitsOf b) (bitsOf e) := by
  simp [bitsOf, List.zipWith_map, List.zipWith_self]

/-- Flipping bits of the bytes flips these bits of the stream. -/
theorem flatMap_flip {data error : List UInt8} (h : data.length = error.length) :
    (flip data error).flatMap bitsOf =
      List.zipWith xor (data.flatMap bitsOf) (error.flatMap bitsOf) := by
  induction data generalizing error with
  | nil => simp [flip]
  | cons b data ih =>
    obtain ⟨e, error, rfl⟩ := List.exists_cons_of_length_eq_add_one h.symm
    have hrest := @ih error (by simpa using h)
    have hbyte : (bitsOf b).length = (bitsOf e).length := rfl
    rw [flip, List.zipWith_cons_cons, List.flatMap_cons, List.flatMap_cons, List.flatMap_cons,
      List.zipWith_append hbyte, bitsOf_xor]
    exact congrArg _ hrest

/-- A burst changes the checksum, whatever the register held. -/
theorem foldl_crcByte_flip {data error : List UInt8} (hlen : data.length = error.length)
    (hburst : IsBurst error) (crc : UInt16) :
    (flip data error).foldl crcByte crc ≠ data.foldl crcByte crc := by
  intro heq
  obtain ⟨pre, burst, post, hbits, hshort, hone⟩ := hburst
  have hlens : (data.flatMap bitsOf).length = (error.flatMap bitsOf).length := by
    rw [length_flatMap_bitsOf, length_flatMap_bitsOf, hlen]
  have hleft : (error.flatMap bitsOf).foldl (Crc.feed crcPoly) 0#16 = 0#16 := by
    have hdiff := congrArg UInt16.toBitVec heq
    have hxor := @Crc.foldl_feed_xor 16 crcPoly crc.toBitVec 0#16 _ _ hlens
    rw [foldl_crcByte_toBitVec, foldl_crcByte_toBitVec, flatMap_flip hlen] at hdiff
    rw [BitVec.xor_zero, hdiff] at hxor
    have hself := congrArg ((data.flatMap bitsOf).foldl (Crc.feed crcPoly) crc.toBitVec ^^^ ·) hxor
    simpa [← BitVec.xor_assoc] using hself.symm
  rw [hbits] at hleft
  exact Crc.foldl_feed_burst rfl hshort hone hleft

/-- The receiver reads the counter that was flipped, and the flipped payload behind it. -/
theorem headerFields_flip (cfg : Config) (seq : UInt32) (e0 e1 e2 e3 : UInt8) :
    headerFields cfg.dataId cfg.sourceId (readU32 (seq.toUInt8 ^^^ e0)
        ((seq >>> 8).toUInt8 ^^^ e1) ((seq >>> 16).toUInt8 ^^^ e2) ((seq >>> 24).toUInt8 ^^^ e3)) =
      (headerFields cfg.dataId cfg.sourceId seq).take 4 ++
        flip ((headerFields cfg.dataId cfg.sourceId seq).drop 4) [e0, e1, e2, e3] := by
  obtain ⟨h0, h1, h2, h3⟩ := bytes_readU32 (seq.toUInt8 ^^^ e0) ((seq >>> 8).toUInt8 ^^^ e1)
    ((seq >>> 16).toUInt8 ^^^ e2) ((seq >>> 24).toUInt8 ^^^ e3)
  simp [headerFields, flip, h0, h1, h2, h3]

/-- The receiver's checksum of a corrupted frame differs from the one that it carries. -/
theorem crc_flip_ne (cfg : Config) (seq : UInt32) {payload error : List UInt8} {e0 e1 e2 e3 : UInt8}
    (hlen : payload.length = error.length) (hburst : IsBurst (e0 :: e1 :: e2 :: e3 :: error)) :
    crc16 (headerFields cfg.dataId cfg.sourceId seq ++ payload) ≠
      crc16 ((headerFields cfg.dataId cfg.sourceId seq).take 4 ++
        flip ((headerFields cfg.dataId cfg.sourceId seq).drop 4) [e0, e1, e2, e3] ++
        flip payload error) := by
  have hdata : ((headerFields cfg.dataId cfg.sourceId seq).drop 4 ++ payload).length =
      (e0 :: e1 :: e2 :: e3 :: error).length := by
    simp [headerFields, hlen]
  have hne := foldl_crcByte_flip hdata hburst
    (((headerFields cfg.dataId cfg.sourceId seq).take 4).foldl crcByte 0xFFFF)
  intro heq
  apply hne
  rw [crc16, crc16] at heq
  rw [← List.foldl_append, ← List.foldl_append, ← List.append_assoc, List.take_append_drop, heq,
    List.append_assoc]
  rfl

/-- An error that fits into 16 consecutive bits of the counter and the payload makes the
receiver throw, whatever counter it expects. -/
theorem burst_detected (r : Receiver) (seq : UInt32) (payload error : List UInt8)
    (hlen : error.length = 4 + payload.length) (hburst : IsBurst error) :
    ∃ e, r.unwrap (corrupted r.cfg seq payload error) = (.error e, r) ∧
      e.kind = .crcMismatch := by
  rw [Nat.add_comm] at hlen
  obtain ⟨e0, error, rfl⟩ := List.exists_cons_of_length_eq_add_one hlen
  obtain ⟨e1, error, rfl⟩ := List.exists_cons_of_length_eq_add_one (Nat.succ.inj hlen)
  obtain ⟨e2, error, rfl⟩ :=
    List.exists_cons_of_length_eq_add_one (Nat.succ.inj (Nat.succ.inj hlen))
  obtain ⟨e3, error, rfl⟩ :=
    List.exists_cons_of_length_eq_add_one (Nat.succ.inj (Nat.succ.inj (Nat.succ.inj hlen)))
  have hpayload : payload.length = error.length := by
    simpa using hlen.symm
  have hframe : corrupted r.cfg seq payload (e0 :: e1 :: e2 :: e3 :: error) =
      (headerFields r.cfg.dataId r.cfg.sourceId seq).take 4 ++
        flip ((headerFields r.cfg.dataId r.cfg.sourceId seq).drop 4) [e0, e1, e2, e3] ++
        [(crc16 (headerFields r.cfg.dataId r.cfg.sourceId seq ++ payload)).toUInt8,
          (crc16 (headerFields r.cfg.dataId r.cfg.sourceId seq ++ payload) >>> 8).toUInt8] ++
        flip payload error := by
    rw [corrupted, protectedFrame, buildHeader_crc16]
    rfl
  have hlong : ¬ (corrupted r.cfg seq payload (e0 :: e1 :: e2 :: e3 :: error)).length <
      kHeaderSize := by
    change ¬ (flip payload error).length + 10 < 10
    omega
  apply Receiver.unwrap_of_crc_ne (Nat.not_lt.mp hlong)
  rw [hframe]
  intro heq
  apply crc_flip_ne r.cfg seq hpayload hburst
  rw [← headerFields_flip r.cfg seq e0 e1 e2 e3]
  exact (readU16_bytes _).symm.trans heq

/-- Two bits that are 16 apart, in the last byte of the counter and the second of the payload. -/
theorem burst_detected_straddling :
    ∃ e, (⟨⟨0x1234, 0x5678⟩, 41, false⟩ : Receiver).unwrap
        (corrupted ⟨0x1234, 0x5678⟩ 42 [1, 2] [0, 0, 0, 1, 0, 2]) =
      (.error e, ⟨⟨0x1234, 0x5678⟩, 41, false⟩) ∧ e.kind = .crcMismatch :=
  burst_detected ⟨⟨0x1234, 0x5678⟩, 41, false⟩ 42 [1, 2] [0, 0, 0, 1, 0, 2] rfl
    ⟨31, true :: List.replicate 14 false ++ [true], 1, by decide, by decide, by decide⟩

end CppCan.Safety
