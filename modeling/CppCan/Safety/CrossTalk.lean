import CppCan.Safety.Bursts

/-!
# Frames of another configuration

The receiver does not look at the identifiers that a frame carries: it computes the checksum
over its own. Two configurations that differ in one identifier differ in a burst of 16 bits
at the head of the stream, and no payload behind it makes up for that.
-/

namespace CppCan.Safety

open CppCan.Core

variable {x y : UInt8}

theorem true_mem_bitsOf (h : x ≠ 0) : true ∈ bitsOf x := by
  revert x
  decide +kernel

theorem flatMap_bitsOf_replicate (n : Nat) :
    (List.replicate n (0 : UInt8)).flatMap bitsOf = List.replicate (8 * n) false := by
  induction n with
  | zero => rfl
  | succ n ih =>
    rw [List.replicate_succ, List.flatMap_cons, ih, Nat.mul_succ, Nat.add_comm,
      List.replicate_add]
    rfl

/-- Two bytes between zeros are a burst. -/
theorem isBurst_pair (h : x ≠ 0 ∨ y ≠ 0) (pre post : Nat) :
    IsBurst (List.replicate pre 0 ++ [x, y] ++ List.replicate post 0) := by
  refine ⟨8 * pre, bitsOf x ++ bitsOf y, 8 * post, ?_, le_rfl, ?_⟩
  · rw [List.flatMap_append, List.flatMap_append, flatMap_bitsOf_replicate,
      flatMap_bitsOf_replicate, List.flatMap_cons, List.flatMap_singleton]
  · rw [List.mem_append]
    exact h.imp true_mem_bitsOf true_mem_bitsOf

/-- The bytes of two different identifiers differ. -/
theorem bytes_ne {a b : UInt16} (h : a ≠ b) :
    b.toUInt8 ^^^ a.toUInt8 ≠ 0 ∨ (b >>> 8).toUInt8 ^^^ (a >>> 8).toUInt8 ≠ 0 := by
  by_contra hboth
  rw [not_or, not_not, not_not] at hboth
  apply h
  rw [← readU16_bytes a, ← readU16_bytes b, UInt8.xor_eq_zero_iff.mp hboth.1,
    UInt8.xor_eq_zero_iff.mp hboth.2]

theorem flip_zeros (data : List UInt8) : flip data (List.replicate data.length 0) = data := by
  induction data with
  | nil => rfl
  | cons b data ih =>
    rw [List.length_cons, List.replicate_succ, flip, List.zipWith_cons_cons, UInt8.xor_zero]
    exact congrArg (b :: ·) ih

theorem flip_between (pre post : List UInt8) {data error : List UInt8}
    (h : data.length = error.length) :
    flip (pre ++ data ++ post)
        (List.replicate pre.length 0 ++ error ++ List.replicate post.length 0) =
      pre ++ flip data error ++ post := by
  have hpre := flip_zeros pre
  have hpost := flip_zeros post
  unfold flip at hpre hpost ⊢
  rw [List.zipWith_append (by simp [h]), List.zipWith_append (by simp), hpre, hpost]

/-- Two bytes of a stream that differ change the checksum. -/
theorem crc16_pair_ne (pre post : List UInt8) {a b : UInt16} (h : a ≠ b) :
    crc16 (pre ++ [a.toUInt8, (a >>> 8).toUInt8] ++ post) ≠
      crc16 (pre ++ [b.toUInt8, (b >>> 8).toUInt8] ++ post) := by
  have hburst := isBurst_pair (bytes_ne h) pre.length post.length
  have hpair : [b.toUInt8, (b >>> 8).toUInt8].length =
      [b.toUInt8 ^^^ a.toUInt8, (b >>> 8).toUInt8 ^^^ (a >>> 8).toUInt8].length := rfl
  have hflip : flip [b.toUInt8, (b >>> 8).toUInt8]
      [b.toUInt8 ^^^ a.toUInt8, (b >>> 8).toUInt8 ^^^ (a >>> 8).toUInt8] =
      [a.toUInt8, (a >>> 8).toUInt8] := by
    simp only [flip, List.zipWith_cons_cons, List.zipWith_nil_left, ← UInt8.xor_assoc,
      UInt8.xor_self, UInt8.zero_xor]
  have hlen : (pre ++ [b.toUInt8, (b >>> 8).toUInt8] ++ post).length =
      (List.replicate pre.length (0 : UInt8) ++
        [b.toUInt8 ^^^ a.toUInt8, (b >>> 8).toUInt8 ^^^ (a >>> 8).toUInt8] ++
        List.replicate post.length 0).length := by simp
  have hne := foldl_crcByte_flip hlen hburst 0xFFFF
  rwa [flip_between pre post hpair, hflip] at hne

/-- A frame that was protected under a configuration with another data identifier or another
source identifier is rejected, in every state of the receiver. -/
theorem crossTalk_detected (p : Protector) (r : Receiver) (payload : List UInt8)
    (hdiff : (p.cfg.dataId ≠ r.cfg.dataId ∧ p.cfg.sourceId = r.cfg.sourceId) ∨
      (p.cfg.dataId = r.cfg.dataId ∧ p.cfg.sourceId ≠ r.cfg.sourceId)) :
    ∃ e, r.unwrap (p.protect payload).1 = (.error e, r) ∧ e.kind = .crcMismatch := by
  have hframe : (p.protect payload).1 =
      headerFields p.cfg.dataId p.cfg.sourceId p.seq ++
        [(crc16 (headerFields p.cfg.dataId p.cfg.sourceId p.seq ++ payload)).toUInt8,
          (crc16 (headerFields p.cfg.dataId p.cfg.sourceId p.seq ++ payload) >>> 8).toUInt8] ++
        payload := by
    rw [Protector.protect, buildHeader_crc16]
  have hne : crc16 (headerFields p.cfg.dataId p.cfg.sourceId p.seq ++ payload) ≠
      crc16 (headerFields r.cfg.dataId r.cfg.sourceId p.seq ++ payload) := by
    rcases hdiff with ⟨hdata, hsource⟩ | ⟨hdata, hsource⟩
    · rw [hsource]
      exact crc16_pair_ne [] _ hdata
    · rw [hdata]
      exact crc16_pair_ne [_, _] _ hsource
  generalize crc16 (headerFields p.cfg.dataId p.cfg.sourceId p.seq ++ payload) = crc at hframe hne
  apply Receiver.unwrap_of_crc_ne
  · rw [hframe]
    simp [headerFields, kHeaderSize]
  · rw [hframe]
    change readU16 crc.toUInt8 (crc >>> 8).toUInt8 ≠
      crc16 (headerFields _ _ (readU32 p.seq.toUInt8 (p.seq >>> 8).toUInt8 (p.seq >>> 16).toUInt8
        (p.seq >>> 24).toUInt8) ++ payload)
    rw [readU16_bytes, readU32_bytes]
    exact hne

/-- A receiver that waits for its first frame is given one for another data identifier. -/
theorem crossTalk_detected_first :
    ∃ e, (⟨⟨0x1235, 0x5678⟩, 0, true⟩ : Receiver).unwrap
        ((⟨⟨0x1234, 0x5678⟩, 42⟩ : Protector).protect [1, 2]).1 =
      (.error e, ⟨⟨0x1235, 0x5678⟩, 0, true⟩) ∧ e.kind = .crcMismatch :=
  crossTalk_detected ⟨⟨0x1234, 0x5678⟩, 42⟩ ⟨⟨0x1235, 0x5678⟩, 0, true⟩ [1, 2]
    (Or.inl ⟨by decide, rfl⟩)

end CppCan.Safety
