import CppCan.Core.LittleEndian
import CppCan.J1939.SinglePacket

/-!
# The frames of a long message

A message of more than eight bytes is announced by one frame and carried by numbered
packets. The fields of these frames are what the receive loop reads from them.
-/

namespace CppCan.J1939

open CppCan.Core

variable {priority : Priority} {pgn : PGN} {src : UInt8} {data : List UInt8} {seq : Nat}

/-- The number of packets of a message. -/
def packetCount (f : Frame) : Nat := (f.data.length + kTPBytesPerPacket - 1) / kTPBytesPerPacket

def bamFrame (src : UInt8) (f : Frame) : CppCan.Frame :=
  { id := broadcastId f.priority kPgnTPCM src
    ext := true
    data := bamData f.data.length (packetCount f) f.pgn }

def packetFrame (src : UInt8) (f : Frame) (seq : Nat) : CppCan.Frame :=
  { id := broadcastId f.priority kPgnTPDT src
    ext := true
    data := packetData f.data seq }

/-- A bus that takes every frame and keeps it. -/
def record (sent : List CppCan.Frame) (cf : CppCan.Frame) :
    List CppCan.Frame × Option Relay.ErrorCode := (sent ++ [cf], none)

theorem sendPackets_record (id : UInt32) (sent : List CppCan.Frame) (seqs : List Nat) :
    sendPackets record id data sent seqs =
      (sent ++ seqs.map fun seq => { id, ext := true, data := packetData data seq }, none) := by
  induction seqs generalizing sent with
  | nil => rw [List.map_nil, List.append_nil, sendPackets]
  | cons seq seqs ih =>
    rw [sendPackets, record]
    dsimp only
    rw [ih, List.map_cons, List.append_assoc, List.singleton_append]

/-- The announcement is sent first, and then the packets in order. -/
theorem sendTp_record (src : UInt8) (f : Frame) (hlow : 9 ≤ f.data.length)
    (hhigh : f.data.length ≤ kTPMaxDataBytes) :
    sendTp record src f [] =
      (bamFrame src f :: (List.range' 1 (packetCount f)).map (packetFrame src f), none) := by
  have hint : (Int32.ofNat f.data.length).toInt = f.data.length :=
    Int32.toInt_ofNat_of_lt (hhigh.trans_lt (by decide))
  rw [sendTp]
  dsimp only
  rw [hint, if_neg (by omega), if_neg (by omega), Int.toNat_natCast, List.take_length, record]
  dsimp only
  rw [sendPackets_record]
  rfl

/-- The fields of an identifier for all, of a group that leaves room for a destination. -/
theorem decodeId_broadcastId (priority : Priority) (src : UInt8) (hpgn : pgn.toNat < 2 ^ 16)
    (hformat : pgn.toNat / 2 ^ 8 < 240) (hlow : pgn.toNat % 256 = 0) :
    decodeId (broadcastId priority pgn src) = ⟨priority % 8, pgn, src⟩ := by
  have hbelow : pgn.toNat / 2 ^ 8 % 256 < 240 := by omega
  have hcode := toNat_encodeId priority pgn src
  rw [if_pos hbelow] at hcode
  have hdst : kBroadcastAddr.toNat = 255 := rfl
  have hid : (broadcastId priority pgn src).toNat = priority.toNat % 8 * 2 ^ 26 +
      pgn.toNat / 2 ^ 16 % 2 * 2 ^ 24 + pgn.toNat / 2 ^ 8 % 256 * 2 ^ 16 + 255 * 2 ^ 8 +
      src.toNat := by
    rw [broadcastId, toNat_encodeId_or_dst priority src kBroadcastAddr hbelow, hcode, hdst]
    omega
  obtain ⟨hpriority, hgroup, haddress⟩ := toNat_decodeId_of_sum hid (Nat.mod_lt _ (by decide))
    (Nat.mod_lt _ (by decide)) (Nat.mod_lt _ (by decide)) (by decide) src.toNat_lt
  rw [if_pos hbelow] at hgroup
  generalize decodeId (broadcastId priority pgn src) = d at hpriority hgroup haddress
  obtain ⟨priority', pgn', address⟩ := d
  dsimp only at hpriority hgroup haddress
  rw [DecodedID.mk.injEq, ← UInt8.toNat_inj, ← UInt32.toNat_inj, ← UInt8.toNat_inj, hpriority,
    hgroup, haddress, UInt8.toNat_mod]
  exact ⟨rfl, by omega, rfl⟩

theorem decodeId_bamFrame (src : UInt8) (f : Frame) :
    decodeId (bamFrame src f).id = ⟨f.priority % 8, kPgnTPCM, src⟩ :=
  decodeId_broadcastId f.priority src (by decide) (by decide) (by decide)

theorem decodeId_packetFrame (src : UInt8) (f : Frame) (seq : Nat) :
    decodeId (packetFrame src f seq).id = ⟨f.priority % 8, kPgnTPDT, src⟩ :=
  decodeId_broadcastId f.priority src (by decide) (by decide) (by decide)

/-- A number of 16 bits in two bytes. -/
theorem or_bytes {n : Nat} (h : n < 2 ^ 16) :
    (UInt8.ofNat n).toNat ||| (UInt8.ofNat (n >>> 8)).toNat <<< 8 = n := by
  have hlow : (UInt8.ofNat n).toNat = n % 2 ^ 8 := UInt8.toNat_ofNat'
  have hhigh : (UInt8.ofNat (n >>> 8)).toNat = n / 2 ^ 8 := by
    rw [UInt8.toNat_ofNat', Nat.shiftRight_eq_div_pow]
    omega
  rw [hlow, hhigh, Nat.or_comm, Nat.shiftLeft_eq, Nat.mul_comm,
    ← Nat.two_pow_add_eq_or_of_lt (Nat.mod_lt _ (Nat.two_pow_pos 8))]
  omega

/-- A number of 24 bits in three bytes. -/
theorem readU32_of_lt (h : pgn < 0x1000000) :
    pgn.toUInt8.toUInt32 ||| (pgn >>> 8).toUInt8.toUInt32 <<< 8 |||
      (pgn >>> 16).toUInt8.toUInt32 <<< 16 = pgn := by
  have hlt : pgn.toNat < 2 ^ 24 := UInt32.lt_iff_toNat_lt.mp h
  have htop : (pgn >>> 24).toUInt8 = 0 := by
    apply UInt8.toNat_inj.mp
    rw [UInt32.toNat_toUInt8, UInt32.toNat_shiftRight, Nat.shiftRight_eq_div_pow]
    change pgn.toNat / 2 ^ 24 % 2 ^ 8 = 0
    omega
  have hread := readU32_bytes pgn
  rw [readU32, htop] at hread
  exact (UInt32.or_zero).symm.trans hread

theorem packetCount_pos (f : Frame) (hlow : 9 ≤ f.data.length) : 0 < packetCount f := by
  unfold packetCount kTPBytesPerPacket
  omega

theorem packetCount_le (f : Frame) (hhigh : f.data.length ≤ kTPMaxDataBytes) :
    packetCount f ≤ 255 := by
  unfold packetCount kTPBytesPerPacket
  unfold kTPMaxDataBytes at hhigh
  omega

/-- The announcement opens a session for the message. -/
theorem openSession_bamFrame (src : UInt8) (f : Frame) (now : TimePoint)
    (hlow : 9 ≤ f.data.length) (hhigh : f.data.length ≤ kTPMaxDataBytes)
    (hpgn : f.pgn < 0x1000000) :
    openSession (decodeId (bamFrame src f).id) now (bamFrame src f) =
      some ⟨f.data.length, packetCount f, f.pgn, f.priority % 8, src,
        List.replicate f.data.length 0, List.replicate (packetCount f) false, 0, now⟩ := by
  have htotal : announcedTotal (bamFrame src f) = f.data.length :=
    or_bytes (hhigh.trans_lt (by decide))
  have hcount : announcedPackets (bamFrame src f) = packetCount f := by
    have hle := packetCount_le f hhigh
    exact Nat.mod_eq_of_lt (by omega)
  have hgroup : announcedPgn (bamFrame src f) = f.pgn := readU32_of_lt hpgn
  have hpos := packetCount_pos f hlow
  have hrange : (f.data.length < kTPMinDataBytes || f.data.length > kTPMaxDataBytes) = false := by
    unfold kTPMinDataBytes
    simp only [Bool.or_eq_false_iff, decide_eq_false_iff_not]
    omega
  have hform : ((bamFrame src f).data.length < 8 ||
      (bamFrame src f).data.getD 0 0 ≠ kBAMControl) = false := rfl
  rw [openSession, hform, if_neg Bool.false_ne_true]
  dsimp only
  rw [htotal, hcount, hgroup, hrange, if_neg Bool.false_ne_true, if_neg (by omega),
    decodeId_bamFrame]

theorem length_fillByte (data : List UInt8) (offset : Nat) (pkt : List UInt8) (i : Nat) :
    (fillByte data offset pkt i).length = pkt.length := by
  unfold fillByte
  dsimp only
  split
  · rw [List.length_set]
  · rfl

theorem length_foldl_fillByte (data : List UInt8) (offset : Nat) (pkt : List UInt8)
    (is : List Nat) : (is.foldl (fillByte data offset) pkt).length = pkt.length := by
  induction is generalizing pkt with
  | nil => rfl
  | cons i is ih => rw [List.foldl_cons, ih, length_fillByte]

theorem length_packetData (data : List UInt8) (seq : Nat) : (packetData data seq).length = 8 :=
  (length_foldl_fillByte ..).trans rfl

/-- One byte that is filled changes one place of the packet. -/
theorem getD_fillByte (data : List UInt8) (offset n j : Nat) {pkt : List UInt8}
    (hn : n + 1 < pkt.length) :
    (fillByte data offset pkt (n + 1)).getD j 0 =
      if j = n + 1 ∧ offset + n < data.length then data.getD (offset + n) 0 else pkt.getD j 0 := by
  have hsrc : offset + (n + 1) - 1 = offset + n := by omega
  simp only [fillByte, hsrc]
  by_cases hdata : offset + n < data.length
  · by_cases hj : j = n + 1
    · subst hj
      rw [if_pos hdata, if_pos ⟨rfl, hdata⟩, List.getD_eq_getElem?_getD,
        List.getElem?_set_self hn, Option.getD_some]
    · rw [if_pos hdata, if_neg (fun h => hj h.1), List.getD_eq_getElem?_getD,
        List.getElem?_set_ne (Ne.symm hj), List.getD_eq_getElem?_getD]
  · rw [if_neg hdata, if_neg (fun h => hdata h.2)]

/-- The bytes of a packet: the next seven bytes of the message, as far as it reaches. -/
theorem getD_foldl_fillByte (data : List UInt8) (offset n j : Nat) {pkt : List UInt8}
    (hn : n < pkt.length) :
    ((List.range' 1 n).foldl (fillByte data offset) pkt).getD j 0 =
      if 1 ≤ j ∧ j ≤ n ∧ offset + (j - 1) < data.length then data.getD (offset + (j - 1)) 0
      else pkt.getD j 0 := by
  induction n with
  | zero =>
    rw [if_neg (by omega)]
    rfl
  | succ n ih =>
    have hlen := length_foldl_fillByte data offset pkt (List.range' 1 n)
    rw [List.range'_1_concat, List.foldl_append, List.foldl_cons, List.foldl_nil,
      Nat.add_comm 1 n, getD_fillByte data offset n j (by omega), ih (by omega)]
    by_cases hj : j = n + 1
    · subst hj
      by_cases hdata : offset + n < data.length
      · rw [if_pos ⟨rfl, hdata⟩, if_pos ⟨by omega, le_rfl, hdata⟩]
        rfl
      · rw [if_neg (fun h => hdata h.2), if_neg (by omega), if_neg (fun h => hdata h.2.2)]
    · have hiff : (1 ≤ j ∧ j ≤ n ∧ offset + (j - 1) < data.length) ↔
          (1 ≤ j ∧ j ≤ n + 1 ∧ offset + (j - 1) < data.length) := by omega
      rw [if_neg (fun h => hj h.1)]
      simp only [hiff]

theorem lt_length_packet (seq : Nat) :
    kTPBytesPerPacket < ((List.replicate 8 (0xFF : UInt8)).set 0 (.ofNat seq)).length := by
  rw [List.length_set, List.length_replicate]
  decide

/-- The first byte of a packet is its number. -/
theorem toNat_packetData_zero (data : List UInt8) (hseq : seq ≤ 255) :
    ((packetData data seq).getD 0 0).toNat = seq := by
  have hzero := getD_foldl_fillByte data ((seq - 1) * kTPBytesPerPacket) kTPBytesPerPacket 0
    (lt_length_packet seq)
  rw [if_neg (by omega)] at hzero
  rw [packetData, hzero]
  exact Nat.mod_eq_of_lt (by omega)

/-- A byte of the message has its place in a packet. -/
theorem getD_packetData {i : Nat} (hi : i < data.length) :
    (packetData data (i / 7 + 1)).getD (1 + i % 7) 0 = data.getD i 0 := by
  have hbyte := getD_foldl_fillByte data ((i / 7 + 1 - 1) * kTPBytesPerPacket) kTPBytesPerPacket
    (1 + i % 7) (lt_length_packet (i / 7 + 1))
  have hplace : (i / 7 + 1 - 1) * kTPBytesPerPacket + (1 + i % 7 - 1) = i := by
    unfold kTPBytesPerPacket
    omega
  have hseven : 1 + i % 7 ≤ kTPBytesPerPacket := by
    unfold kTPBytesPerPacket
    omega
  rw [hplace, if_pos ⟨by omega, hseven, hi⟩] at hbyte
  exact hbyte

end CppCan.J1939
