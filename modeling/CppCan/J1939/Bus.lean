import CppCan.Can.Chan
import CppCan.J1939.SubscribeTp
import CppCan.Relay.Types

/-!
# The J1939 bus

A message of at most eight bytes is one frame with its group and its destination in the
identifier. A longer one is announced to all and then sent in numbered packets of seven
bytes. The bus below is whatever takes a frame and may answer with an error; the first
error ends the call.
-/

namespace CppCan.J1939

open CppCan.Relay

section Send

variable {σ : Type} (canSend : σ → CppCan.Frame → σ × Option ErrorCode)

/-- The announcement of `n` bytes in `numPackets` packets. -/
def bamData (n numPackets : Nat) (pgn : PGN) : List UInt8 :=
  [kBAMControl, .ofNat n, .ofNat (n >>> 8), .ofNat numPackets, 0xFF, pgn.toUInt8,
    (pgn >>> 8).toUInt8, (pgn >>> 16).toUInt8]

/-- Put data byte `offset + i - 1` into byte `i` of a packet if there is one. -/
def fillByte (data : List UInt8) (offset : Nat) (pkt : List UInt8) (i : Nat) : List UInt8 :=
  let src := offset + i - 1
  if src < data.length then pkt.set i (data.getD src 0) else pkt

/-- Packet `seq`; what is not filled stays `0xFF`. -/
def packetData (data : List UInt8) (seq : Nat) : List UInt8 :=
  let pkt := (List.replicate 8 0xFF).set 0 (.ofNat seq)
  (List.range' 1 kTPBytesPerPacket).foldl
    (fillByte data ((seq - 1) * kTPBytesPerPacket)) pkt

/-- Send the packets with these numbers. -/
def sendPackets (id : UInt32) (data : List UInt8) (s : σ) : List Nat → σ × Option ErrorCode
  | [] => (s, none)
  | seq :: seqs =>
    match canSend s { id := id, ext := true, data := packetData data seq } with
    | (s, some err) => (s, some err)
    | (s, none) => sendPackets id data s seqs

/-- An identifier for all, whatever the destination of the message. -/
def broadcastId (priority : Priority) (pgn : PGN) (src : UInt8) : UInt32 :=
  encodeId priority pgn src ||| kBroadcastAddr.toUInt32 <<< 8

/-- The length is narrowed to an `int`, and no more bytes than that are sent. -/
def sendTp (src : UInt8) (f : Frame) (s : σ) : σ × Option ErrorCode :=
  let n := (Int32.ofNat f.data.length).toInt
  if n < 9 then (s, some (.generic .invalidArgument))
  else if n > kTPMaxDataBytes then (s, some (.relay .payloadTooLarge))
  else
    let data := f.data.take n.toNat
    let numPackets := (n.toNat + kTPBytesPerPacket - 1) / kTPBytesPerPacket
    let bam := bamData n.toNat numPackets f.pgn
    match canSend s { id := broadcastId f.priority kPgnTPCM src, ext := true, data := bam } with
    | (s, some err) => (s, some err)
    | (s, none) =>
      sendPackets canSend (broadcastId f.priority kPgnTPDT src) data s
        (List.range' 1 numPackets)

def send (src : UInt8) (f : Frame) (s : σ) : σ × Option ErrorCode :=
  if f.data.length > 8 then sendTp canSend src f s
  else
    let id := encodeId f.priority f.pgn src
    let id := if pgnIsPeerToPeer f.pgn then id ||| f.dst.toUInt32 <<< 8 else id
    canSend s { id := id, ext := true, data := f.data }

end Send

/-- What the loop of `subscribe` does with a frame it has received. -/
def subscribeStep (pgns : List PGN) (out : Chan Frame) (cf : CppCan.Frame) : Chan Frame :=
  if !cf.ext then out
  else
    let id := decodeId cf.id
    if !matchesPgns id.pgn pgns then out
    else
      let dst := if pgnIsPeerToPeer id.pgn then ((cf.id >>> 8) &&& 0xFF).toUInt8 else kBroadcastAddr
      (out.trySend
        { priority := id.priority, pgn := id.pgn, src := id.src, dst, data := cf.data }).1

end CppCan.J1939
