import CppCan.Core.InOrder
import CppCan.Core.LittleEndian

/-!
# End-to-end protection header

The sender prepends a ten-byte header with a sequence counter and a CRC over
the header fields and the payload; the receiver recomputes the CRC from its own
configuration and admits only the successor of the counter it accepted last.
Byte positions, widths and error texts are those of the source.
-/

namespace CppCan.Safety

open CppCan.Core

/-- Length of the header in front of every protected payload. -/
def kHeaderSize : Nat := 10

/-- The two identifiers shared by a protector and its receiver. -/
structure Config where
  dataId : UInt16
  sourceId : UInt16
  deriving DecidableEq, Repr

/-- The three ways a received buffer is refused. -/
inductive E2EErrorKind where
  | crcMismatch
  | sequenceGap
  | headerTooShort
  deriving DecidableEq, Repr

/-- A refusal, with the counter read from the buffer and the message text. -/
structure E2EError where
  kind : E2EErrorKind
  counter : UInt32
  what : String
  deriving DecidableEq, Repr

/-- The constructor's fixed prefix in front of the reason. -/
def E2EError.mk' (kind : E2EErrorKind) (counter : UInt32) (msg : String) : E2EError :=
  ⟨kind, counter, "can/safety: E2E error: " ++ msg⟩

/-- One shift of the register, feeding back the polynomial when the top bit leaves. -/
def crcShift (crc : UInt16) : UInt16 :=
  if crc &&& 0x8000 ≠ 0 then (crc <<< 1) ^^^ 0x1021 else crc <<< 1

/-- One byte enters at the top of the register and is shifted through. -/
def crcByte (crc : UInt16) (b : UInt8) : UInt16 :=
  crcShift^[8] (crc ^^^ (b.toUInt16 <<< 8))

/-- The checksum of a byte string from the all-ones register. -/
def crc16 (data : List UInt8) : UInt16 := data.foldl crcByte 0xFFFF

/-- Header bytes 0 to 7: both identifiers and the counter, little-endian. -/
def headerFields (dataId sourceId : UInt16) (seq : UInt32) : List UInt8 :=
  [dataId.toUInt8, (dataId >>> 8).toUInt8, sourceId.toUInt8, (sourceId >>> 8).toUInt8,
    seq.toUInt8, (seq >>> 8).toUInt8, (seq >>> 16).toUInt8, (seq >>> 24).toUInt8]

/-- The full header: the CRC runs over bytes 0 to 7 and then over the payload. -/
def buildHeader (dataId sourceId : UInt16) (seq : UInt32) (payload : List UInt8) : List UInt8 :=
  let hdr := headerFields dataId sourceId seq
  let crcVal := payload.foldl crcByte (hdr.foldl crcByte 0xFFFF)
  hdr ++ [crcVal.toUInt8, (crcVal >>> 8).toUInt8]

/-- The header carries the checksum of its first eight bytes and the payload. -/
theorem buildHeader_crc16 (dataId sourceId : UInt16) (seq : UInt32) (payload : List UInt8) :
    buildHeader dataId sourceId seq payload =
      headerFields dataId sourceId seq ++
        [(crc16 (headerFields dataId sourceId seq ++ payload)).toUInt8,
          (crc16 (headerFields dataId sourceId seq ++ payload) >>> 8).toUInt8] := by
  simp only [buildHeader, crc16, List.foldl_append]

/-- The sending side: its configuration and the next counter value. -/
structure Protector where
  cfg : Config
  seq : UInt32 := 0
  deriving DecidableEq, Repr

/-- Prepend the header for the current counter and step the counter. -/
def Protector.protect (p : Protector) (payload : List UInt8) : List UInt8 × Protector :=
  (buildHeader p.cfg.dataId p.cfg.sourceId p.seq payload ++ payload, { p with seq := p.seq + 1 })

/-- The receiving side: the last accepted counter, once there is one. -/
structure Receiver where
  cfg : Config
  lastSeq : UInt32 := 0
  first : Bool := true
  deriving DecidableEq, Repr

/-- Check length, checksum and counter in this order; only acceptance updates the state. -/
def Receiver.unwrap (r : Receiver) (data : List UInt8) :
    Except E2EError (List UInt8) × Receiver :=
  if data.length < kHeaderSize then
    (.error (.mk' .headerTooShort 0
      s!"need {kHeaderSize} bytes, got {data.length}"), r)
  else
    let seq := readU32 (data.getD 4 0) (data.getD 5 0) (data.getD 6 0) (data.getD 7 0)
    let receivedCrc := readU16 (data.getD 8 0) (data.getD 9 0)
    let payload := data.drop kHeaderSize
    let expectedHdr := buildHeader r.cfg.dataId r.cfg.sourceId seq payload
    let expectedCrc := readU16 (expectedHdr.getD 8 0) (expectedHdr.getD 9 0)
    if receivedCrc ≠ expectedCrc then
      (.error (.mk' .crcMismatch seq "CRC mismatch"), r)
    else if !r.first && seq ≠ r.lastSeq + 1 then
      (.error (.mk' .sequenceGap seq
        s!"expected {r.lastSeq + 1}, got {seq}"), r)
    else
      (.ok payload, { r with first := false, lastSeq := seq })

/-- The frames a protector emits for a list of payloads, in order. -/
def Protector.protectAll : Protector → List (List UInt8) → List (List UInt8)
  | _, [] => []
  | p, payload :: rest => (p.protect payload).1 :: (p.protect payload).2.protectAll rest

/-- The results of unwrapping a list of buffers, in order. -/
def Receiver.unwrapAll : Receiver → List (List UInt8) → List (Except E2EError (List UInt8))
  | _, [] => []
  | r, data :: rest => (r.unwrap data).1 :: (r.unwrap data).2.unwrapAll rest

/-- The payloads of the calls that did not throw. -/
def returned (results : List (Except E2EError (List UInt8))) : List (List UInt8) :=
  results.filterMap Except.toOption

/-- The frame protecting `payload` under counter `seq`. -/
def protectedFrame (cfg : Config) (seq : UInt32) (payload : List UInt8) : List UInt8 :=
  buildHeader cfg.dataId cfg.sourceId seq payload ++ payload

/-- The counter accepted last, if any: the receiver's `first` and `lastSeq` as one value. -/
def Receiver.last (r : Receiver) : Option UInt32 := if r.first then none else some r.lastSeq

@[simp] theorem length_buildHeader (dataId sourceId : UInt16) (seq : UInt32)
    (payload : List UInt8) : (buildHeader dataId sourceId seq payload).length = kHeaderSize := rfl

/-- A frame protected under the receiver's own configuration passes length and
checksum; the counter alone decides, and a refusal leaves the receiver as it was. -/
theorem Receiver.unwrap_protectedFrame (r : Receiver) (seq : UInt32) (payload : List UInt8) :
    r.unwrap (protectedFrame r.cfg seq payload) =
      if admits (· + 1) r.last seq then (.ok payload, { r with first := false, lastSeq := seq })
      else (.error (.mk' .sequenceGap seq s!"expected {r.lastSeq + 1}, got {seq}"), r) := by
  have hlen : ¬ (protectedFrame r.cfg seq payload).length < kHeaderSize := by
    simp [protectedFrame]
  have hdrop : (protectedFrame r.cfg seq payload).drop kHeaderSize = payload := by
    rw [protectedFrame, ← length_buildHeader r.cfg.dataId r.cfg.sourceId seq payload,
      List.drop_left]
  have hseq : readU32 ((protectedFrame r.cfg seq payload).getD 4 0)
      ((protectedFrame r.cfg seq payload).getD 5 0) ((protectedFrame r.cfg seq payload).getD 6 0)
      ((protectedFrame r.cfg seq payload).getD 7 0) = seq := readU32_bytes seq
  have hcrc : readU16 ((protectedFrame r.cfg seq payload).getD 8 0)
      ((protectedFrame r.cfg seq payload).getD 9 0) =
      readU16 ((buildHeader r.cfg.dataId r.cfg.sourceId seq payload).getD 8 0)
        ((buildHeader r.cfg.dataId r.cfg.sourceId seq payload).getD 9 0) := rfl
  simp only [Receiver.unwrap, hlen, ite_false, hseq, hdrop, hcrc, ne_eq, not_true_eq_false]
  cases hf : r.first with
  | true => simp [Receiver.last, hf, admits]
  | false =>
    by_cases hs : seq = r.lastSeq + 1 <;> simp [Receiver.last, hf, admits, hs]

/-- An admitted counter returns the payload and becomes the receiver's last counter. -/
theorem Receiver.unwrap_of_admits {r : Receiver} {cfg : Config} {seq : UInt32}
    (hcfg : r.cfg = cfg) (h : admits (· + 1) r.last seq = true) (payload : List UInt8) :
    r.unwrap (protectedFrame cfg seq payload) = (.ok payload, ⟨cfg, seq, false⟩) := by
  subst hcfg
  rw [Receiver.unwrap_protectedFrame, h]
  rfl

/-- Any other counter is refused without a trace. -/
theorem Receiver.unwrap_of_refuses {r : Receiver} {cfg : Config} {seq : UInt32}
    (hcfg : r.cfg = cfg) (h : admits (· + 1) r.last seq = false) (payload : List UInt8) :
    ∃ e, r.unwrap (protectedFrame cfg seq payload) = (.error e, r) := by
  subst hcfg
  rw [Receiver.unwrap_protectedFrame, h]
  exact ⟨_, rfl⟩

/-- The last two bytes of a header are the checksum. -/
theorem readU16_buildHeader (dataId sourceId : UInt16) (seq : UInt32) (payload : List UInt8) :
    readU16 ((buildHeader dataId sourceId seq payload).getD 8 0)
        ((buildHeader dataId sourceId seq payload).getD 9 0) =
      crc16 (headerFields dataId sourceId seq ++ payload) := by
  rw [buildHeader_crc16]
  exact readU16_bytes _

/-- A checksum that is not the one expected is refused without a trace. -/
theorem Receiver.unwrap_of_crc_ne {r : Receiver} {data : List UInt8}
    (hlen : kHeaderSize ≤ data.length)
    (hcrc : readU16 (data.getD 8 0) (data.getD 9 0) ≠
      crc16 (headerFields r.cfg.dataId r.cfg.sourceId
        (readU32 (data.getD 4 0) (data.getD 5 0) (data.getD 6 0) (data.getD 7 0)) ++
          data.drop kHeaderSize)) :
    ∃ e, r.unwrap data = (.error e, r) ∧ e.kind = .crcMismatch := by
  rw [Receiver.unwrap, if_neg (Nat.not_lt.mpr hlen)]
  dsimp only
  rw [readU16_buildHeader, if_pos hcrc]
  exact ⟨_, rfl, rfl⟩

end CppCan.Safety
