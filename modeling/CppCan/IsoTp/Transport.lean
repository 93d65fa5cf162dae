import CppCan.Can.Frame
import CppCan.Core.Process
import CppCan.Relay.Types

/-!
# ISO-TP segmentation and reassembly

`send` and `recv` are calls over CAN frames. A wait for flow control or for a
consecutive frame drops every other frame. When a wait is given up, the error
is a timeout or, on a closed channel, an aborted connection. The loops carry a
bound on their rounds: every round moves at least one byte.
-/

namespace CppCan.IsoTp

open CppCan.Core CppCan.Relay

/-- Frame type nibbles. -/
def kTypeSF : UInt8 := 0x00
def kTypeFF : UInt8 := 0x10
def kTypeCF : UInt8 := 0x20
def kTypeFC : UInt8 := 0x30

/-- Flow control status codes. -/
def kFCContinueToSend : UInt8 := 0x00
def kFCWait : UInt8 := 0x01
def kFCOverflow : UInt8 := 0x02

def kMaxPayload : Nat := 4095

/-- The separation time in microseconds. -/
def stminToDuration (stmin : UInt8) : Nat :=
  if stmin ≤ 0x7F then stmin.toNat * 1000
  else if stmin ≥ 0xF1 ∧ stmin ≤ 0xF9 then (stmin.toNat - 0xF0) * 100
  else 0

/-- Configuration of a connection. -/
structure Config where
  txId : UInt32 := 0
  rxId : UInt32 := 0
  extIds : Bool := false
  blockSize : UInt8 := 0
  stMin : UInt8 := 0
  timeout : Nat := 250
  deriving DecidableEq, Repr

/-- A call of a connection. -/
abbrev Call := Proc Frame ErrorCode

/-- Give a frame to the bus. -/
def busSend (f : Frame) : Call (Option ErrorCode) := .emit f .ret

/-- Take the next frame of the receive channel, whatever it is. -/
def recvFor (limit : Nat) : Call (Except ErrorCode Frame) := .await limit (fun _ => true) .ret

/-- Sleep for some microseconds. -/
def sleepFor (duration : Nat) : Call Unit := .pause duration (.ret ())

def makeFrame (cfg : Config) (data : List UInt8) : Frame :=
  { id := cfg.txId, ext := cfg.extIds, data := data }

/-- `waitFc` returns this frame. -/
def isFlowControl (f : Frame) : Bool :=
  f.data.length ≥ 3 && f.data.getD 0 0 &&& 0xF0 == kTypeFC

/-- `recvCf` returns this frame. -/
def isConsecutive (f : Frame) : Bool :=
  !f.data.isEmpty && f.data.getD 0 0 &&& 0xF0 == kTypeCF

/-- Wait for a flow control frame. -/
def waitFc (limit : Nat) : Call (Except ErrorCode (List UInt8)) :=
  .await limit isFlowControl fun res => .ret (res.map (·.data))

/-- Wait for the next consecutive frame. -/
def recvCf (limit : Nat) : Call (Except ErrorCode Frame) := .await limit isConsecutive .ret

/-- The status of a flow control frame. -/
def fcStatus (fcData : List UInt8) : UInt8 := fcData.getD 0 0 &&& 0x0F

/-- The block size of a flow control frame. -/
def fcBlockSize (fcData : List UInt8) : UInt8 := fcData.getD 1 0

/-- The separation time of a flow control frame. -/
def fcStMin (fcData : List UInt8) : UInt8 := fcData.getD 2 0

def sendSingleFrame (cfg : Config) (payload : List UInt8) : Call (Option ErrorCode) :=
  busSend (makeFrame cfg ((kTypeSF ||| UInt8.ofNat payload.length) :: payload))

/-- The data of the first frame: the length in twelve bits and six bytes. -/
def firstFrameData (payload : List UInt8) : List UInt8 :=
  let len16 := UInt16.ofNat payload.length
  [kTypeFF ||| ((len16 >>> 8) &&& 0x0F).toUInt8, (len16 &&& 0xFF).toUInt8] ++ payload.take 6

/-- The data of the consecutive frame with number `sn` for the bytes from `offset` on. -/
def consecutiveData (payload : List UInt8) (offset : Nat) (sn : UInt8) : List UInt8 :=
  (kTypeCF ||| (sn &&& 0x0F)) :: (payload.drop offset).take (min 7 (payload.length - offset))

/-- Replace the flow control and restart the block if a new one is due. -/
def refreshFc (cfg : Config) (due : Bool) (fcData : List UInt8) (blockCount : Nat) :
    Call (Except ErrorCode (List UInt8 × Nat)) := do
  if due then
    match ← waitFc cfg.timeout with
    | .error err => return .error err
    | .ok newFc => return .ok (newFc, 0)
  else return .ok (fcData, blockCount)

/-- The loop over the consecutive frames of a payload. -/
def sendLoop (cfg : Config) (payload : List UInt8) :
    Nat → Nat → UInt8 → Nat → List UInt8 → Call (Option ErrorCode)
  | 0, _, _, _, _ => return none
  | rounds + 1, offset, sn, blockCount, fcData => do
    if offset < payload.length then
      match ← refreshFc cfg (fcStatus fcData == kFCWait) fcData blockCount with
      | .error err => return some err
      | .ok (fcData, blockCount) =>
        match ← busSend (makeFrame cfg (consecutiveData payload offset sn)) with
        | some err => return some err
        | none =>
          let offset := offset + min 7 (payload.length - offset)
          let due := fcBlockSize fcData > 0 && blockCount + 1 ≥ (fcBlockSize fcData).toNat
          match ← refreshFc cfg due fcData (blockCount + 1) with
          | .error err => return some err
          | .ok (fcData, blockCount) =>
            if fcStMin fcData > 0 then sleepFor (stminToDuration (fcStMin fcData))
            sendLoop cfg payload rounds offset (sn + 1) blockCount fcData
    else return none

def sendMultiFrame (cfg : Config) (payload : List UInt8) : Call (Option ErrorCode) := do
  match ← busSend (makeFrame cfg (firstFrameData payload)) with
  | some err => return some err
  | none =>
    match ← waitFc cfg.timeout with
    | .error err => return some err
    | .ok fcData =>
      if fcStatus fcData == kFCOverflow then return some (.generic .noBufferSpace)
      else sendLoop cfg payload payload.length 6 1 0 fcData

def send (cfg : Config) (payload : List UInt8) : Call (Option ErrorCode) :=
  if payload.isEmpty then return some (.generic .invalidArgument)
  else if payload.length > kMaxPayload then return some (.relay .payloadTooLarge)
  else if payload.length ≤ 7 then sendSingleFrame cfg payload
  else sendMultiFrame cfg payload

/-- The data of the flow control frames a receiver emits. -/
def flowControlData (cfg : Config) : List UInt8 :=
  [kTypeFC ||| kFCContinueToSend, cfg.blockSize, cfg.stMin]

/-- The loop that reassembles a message of `length` bytes. -/
def recvLoop (cfg : Config) (timeout length : Nat) :
    Nat → List UInt8 → UInt8 → Nat → Call (Except ErrorCode (List UInt8))
  | 0, buf, _, _ => return .ok buf
  | rounds + 1, buf, sn, cfInBlock => do
    if buf.length < length then
      match ← recvCf timeout with
      | .error err => return .error err
      | .ok cf =>
        if cf.data.getD 0 0 &&& 0x0F ≠ sn &&& 0x0F then return .error (.generic .badMessage)
        else if cf.data.length < 2 then return .error (.generic .badMessage)
        else
          let chunkLen := min (cf.data.length - 1) (length - buf.length)
          let buf := buf ++ (cf.data.drop 1).take chunkLen
          if cfg.blockSize ≠ 0 ∧ buf.length < length then
            if cfInBlock + 1 = cfg.blockSize.toNat then
              match ← busSend (makeFrame cfg (flowControlData cfg)) with
              | some err => return .error err
              | none => recvLoop cfg timeout length rounds buf (sn + 1) 0
            else recvLoop cfg timeout length rounds buf (sn + 1) (cfInBlock + 1)
          else recvLoop cfg timeout length rounds buf (sn + 1) cfInBlock
    else return .ok buf

def recv (cfg : Config) (timeout : Nat) : Call (Except ErrorCode (List UInt8)) := do
  match ← recvFor timeout with
  | .error err => return .error err
  | .ok first =>
    match first.data with
    | [] => return .error (.generic .badMessage)
    | pci :: rest =>
      if pci &&& 0xF0 = kTypeSF then
        let length := (pci &&& 0x0F).toNat
        if length = 0 ∨ length > rest.length then return .error (.generic .badMessage)
        else return .ok (rest.take length)
      else if pci &&& 0xF0 = kTypeFF then
        match rest with
        | [] => return .error (.generic .badMessage)
        | low :: buf =>
          let length := ((pci &&& 0x0F).toNat <<< 8) ||| low.toNat
          match ← busSend (makeFrame cfg (flowControlData cfg)) with
          | some err => return .error err
          | none => recvLoop cfg timeout length length buf 1 0
      else return .error (.generic .badMessage)

end CppCan.IsoTp
