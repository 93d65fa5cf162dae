import CppCan.Can.Frame

/-!
# Kernel frames

The frames that the SocketCAN bus writes to its socket and reads from it. Both have a
fixed size, and the flags of a frame's identifier share a word with it.
-/

namespace CppCan.SocketCan

def CAN_EFF_FLAG : UInt32 := 0x80000000
def CAN_RTR_FLAG : UInt32 := 0x40000000
def CAN_SFF_MASK : UInt32 := 0x000007FF
def CAN_EFF_MASK : UInt32 := 0x1FFFFFFF
def CANFD_BRS : UInt8 := 0x01
def CANFD_ESI : UInt8 := 0x02

/-- The kernel's `can_frame`. -/
structure CanFrame where
  canId : UInt32 := 0
  canDlc : UInt8 := 0
  data : Vector UInt8 8 := .replicate 8 0
  deriving DecidableEq, Repr

/-- The kernel's `canfd_frame`. -/
structure CanfdFrame where
  canId : UInt32 := 0
  len : UInt8 := 0
  flags : UInt8 := 0
  data : Vector UInt8 64 := .replicate 64 0
  deriving DecidableEq, Repr

/-- What is written in one piece. -/
inductive KernelFrame where
  | can (cf : CanFrame)
  | canfd (cf : CanfdFrame)
  deriving DecidableEq, Repr

/-- Copy bytes to the front of a field of zeros. -/
def copyData (n : Nat) (data : List UInt8) : Vector UInt8 n := .ofFn fun i => data.getD i 0

/-- The kernel frame that `send` builds. -/
def KernelFrame.ofFrame (f : Frame) : KernelFrame :=
  let id := f.id
  let id := if f.ext then id ||| CAN_EFF_FLAG else id
  let id := if f.rtr then id ||| CAN_RTR_FLAG else id
  if f.fd then
    let flags := if f.brs then CANFD_BRS else 0
    let flags := if f.esi then flags ||| CANFD_ESI else flags
    .canfd {
      canId := id
      len := .ofNat f.data.length
      flags := flags
      data := copyData 64 f.data }
  else .can { canId := id, canDlc := .ofNat f.data.length, data := copyData 8 f.data }

/-- The frame that `readLoop` makes of a `can_frame`. -/
def CanFrame.toFrame (cf : CanFrame) : Frame :=
  let ext := cf.canId &&& CAN_EFF_FLAG != 0
  let dlc := if cf.canDlc.toUInt32 > kCANMaxDataLen then kCANMaxDataLen.toUInt8 else cf.canDlc
  { ext := ext
    rtr := cf.canId &&& CAN_RTR_FLAG != 0
    id := cf.canId &&& (if ext then CAN_EFF_MASK else CAN_SFF_MASK)
    data := cf.data.toList.take dlc.toNat }

/-- The frame that `readLoop` makes of a `canfd_frame`. -/
def CanfdFrame.toFrame (cf : CanfdFrame) : Frame :=
  let ext := cf.canId &&& CAN_EFF_FLAG != 0
  let len := if cf.len.toUInt32 > kCANFDMaxDataLen then kCANFDMaxDataLen.toUInt8 else cf.len
  { ext := ext
    id := cf.canId &&& (if ext then CAN_EFF_MASK else CAN_SFF_MASK)
    fd := true
    brs := cf.flags &&& CANFD_BRS != 0
    esi := cf.flags &&& CANFD_ESI != 0
    data := cf.data.toList.take len.toNat }

/-- The frame that `readLoop` makes of what it has read. -/
def KernelFrame.toFrame : KernelFrame → Frame
  | .can cf => cf.toFrame
  | .canfd cf => cf.toFrame

end CppCan.SocketCan
