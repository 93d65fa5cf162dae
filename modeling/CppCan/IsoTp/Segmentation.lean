import CppCan.IsoTp.Transport
import Mathlib.Data.FinEnum

/-!
# The frames of a segmented message

The receiver reads back from each frame what the sender put into it: the length
and the first six bytes from the first frame, the sequence number and up to
seven bytes from each consecutive frame. The calls are restated as the frame
they exchange next and what follows it.
-/

namespace CppCan.IsoTp

open CppCan.Core CppCan.Relay

variable {cfg : Config} {payload buf : List UInt8}
  {rounds offset blockCount cfInBlock timeout : Nat} {sn : UInt8} {fcData : List UInt8}

/-- The single frame of a payload. -/
def singleFrame (cfg : Config) (payload : List UInt8) : Frame :=
  makeFrame cfg ((kTypeSF ||| UInt8.ofNat payload.length) :: payload)

/-- The first frame of a payload. -/
def firstFrame (cfg : Config) (payload : List UInt8) : Frame :=
  makeFrame cfg (firstFrameData payload)

/-- The consecutive frame for the bytes from `offset` on. -/
def consecutiveFrame (cfg : Config) (payload : List UInt8) (offset : Nat) (sn : UInt8) : Frame :=
  makeFrame cfg (consecutiveData payload offset sn)

/-- The flow control of a receiver. -/
def flowControl (cfg : Config) : Frame := makeFrame cfg (flowControlData cfg)

/-- The number of bytes sent once the next consecutive frame is out. -/
def nextOffset (payload : List UInt8) (offset : Nat) : Nat :=
  offset + min 7 (payload.length - offset)

theorem toNat_and_nibble (x : UInt8) : (x &&& 0x0F).toNat = x.toNat % 16 := by
  rw [UInt8.toNat_and]
  exact Nat.and_two_pow_sub_one_eq_mod x.toNat 4

/-- The first byte of a single frame gives back its type and its length. -/
theorem pci_single : ∀ x : UInt8, x ≤ 7 →
    (kTypeSF ||| x) &&& 0xF0 = kTypeSF ∧ (kTypeSF ||| x) &&& 0x0F = x := by
  decide +kernel

/-- The first byte of a first frame gives back its type and the high bits of the length. -/
theorem pci_first : ∀ x : UInt8, (kTypeFF ||| (x &&& 0x0F)) &&& 0xF0 = kTypeFF ∧
    (kTypeFF ||| (x &&& 0x0F)) &&& 0x0F = x &&& 0x0F := by
  decide +kernel

/-- The first byte of a consecutive frame gives back its type and its number. -/
theorem pci_consecutive : ∀ x : UInt8, (kTypeCF ||| (x &&& 0x0F)) &&& 0xF0 = kTypeCF ∧
    (kTypeCF ||| (x &&& 0x0F)) &&& 0x0F = x &&& 0x0F := by
  decide +kernel

/-- The first byte of a first frame. -/
def firstPci (n : Nat) : UInt8 := kTypeFF ||| ((UInt16.ofNat n >>> 8) &&& 0x0F).toUInt8

theorem firstPci_eq (n : Nat) :
    firstPci n = kTypeFF ||| ((UInt16.ofNat n >>> 8).toUInt8 &&& 0x0F) := by
  simp [firstPci]

/-- The two length bytes of a first frame hold the length. -/
theorem firstFrame_length {n : Nat} (hn : n ≤ kMaxPayload) :
    (firstPci n &&& 0x0F).toNat <<< 8 ||| (UInt16.ofNat n &&& 0xFF).toUInt8.toNat = n := by
  have hn' : n < 4096 := Nat.lt_succ_of_le hn
  have hlow : n % 256 &&& 255 = n % 256 % 256 := Nat.and_two_pow_sub_one_eq_mod (n % 256) 8
  rw [firstPci_eq, (pci_first _).2, toNat_and_nibble,
    ← Nat.shiftLeft_add_eq_or_of_lt (UInt8.toNat_lt _)]
  simp [Nat.shiftRight_eq_div_pow, Nat.shiftLeft_eq, hlow,
    Nat.mod_eq_of_lt (show n < 65536 by omega)]
  omega

/-- A payload of at most seven bytes goes out in one frame. -/
theorem send_single (hne : payload ≠ []) (hlen : payload.length ≤ 7) :
    send cfg payload = .emit (singleFrame cfg payload) .ret := by
  have hmax : ¬ kMaxPayload < payload.length := by
    simp only [kMaxPayload]
    omega
  simp only [send, List.isEmpty_iff, hne, hmax, hlen, if_true, if_false]
  rfl

/-- A longer payload starts with the first frame and waits for flow control. -/
theorem send_multi (hlen : 8 ≤ payload.length) (hmax : payload.length ≤ kMaxPayload) :
    send cfg payload = .emit (firstFrame cfg payload) fun
      | some err => .ret (some err)
      | none => .await cfg.timeout isFlowControl fun
        | .error err => .ret (some err)
        | .ok fc =>
          if fcStatus fc.data == kFCOverflow then .ret (some (.generic .noBufferSpace))
          else sendLoop cfg payload payload.length 6 1 0 fc.data := by
  have hne : payload ≠ [] := List.ne_nil_of_length_pos (by omega)
  simp only [send, List.isEmpty_iff, hne, if_false, Nat.not_lt.mpr hmax,
    show ¬ payload.length ≤ 7 by omega, sendMultiFrame, busSend, waitFc, Proc.emit_bind,
    Proc.ret_bind, firstFrame, Proc.emit.injEq, true_and]
  funext err
  cases err with
  | some err => rfl
  | none =>
    simp only [Proc.await_bind, Proc.ret_bind, Proc.await.injEq, true_and]
    funext res
    cases res <;> rfl

/-- Keep the separation time, if the receiver asked for one. -/
def paced {ρ : Type} (fcData : List UInt8) (k : Call ρ) : Call ρ :=
  if fcStMin fcData > 0 then .pause (stminToDuration (fcStMin fcData)) k else k

/-- What follows a consecutive frame: a wait for flow control where the block is complete. -/
def afterConsecutive (cfg : Config) (payload : List UInt8) (rounds offset : Nat) (sn : UInt8)
    (blockCount : Nat) (fcData : List UInt8) : Call (Option ErrorCode) :=
  if fcBlockSize fcData > 0 ∧ blockCount ≥ (fcBlockSize fcData).toNat then
    .await cfg.timeout isFlowControl fun
    | .error err => .ret (some err)
    | .ok fc => paced fc.data (sendLoop cfg payload rounds offset sn 0 fc.data)
  else paced fcData (sendLoop cfg payload rounds offset sn blockCount fcData)

/-- One round of the sending loop, unless the flow control asks to wait. -/
theorem sendLoop_of_lt (h : offset < payload.length) (hs : fcStatus fcData ≠ kFCWait) :
    sendLoop cfg payload (rounds + 1) offset sn blockCount fcData =
      .emit (consecutiveFrame cfg payload offset sn) fun
      | some err => .ret (some err)
      | none => afterConsecutive cfg payload rounds (nextOffset payload offset) (sn + 1)
          (blockCount + 1) fcData := by
  have hs' : (fcStatus fcData == kFCWait) = false := by simpa using hs
  simp only [sendLoop, h, if_true, hs', refreshFc, busSend, Bool.false_eq_true, if_false,
    Proc.pure_eq, Proc.ret_bind, Proc.emit_bind, consecutiveFrame, Proc.emit.injEq, true_and]
  funext err
  cases err with
  | some err => rfl
  | none =>
    simp only [afterConsecutive, ge_iff_le, Bool.and_eq_true, decide_eq_true_eq]
    split_ifs
    · simp only [waitFc, Proc.await_bind, Proc.ret_bind, Proc.await.injEq, true_and]
      funext res
      cases res <;> rfl
    · rfl

/-- The loop ends once every byte is sent. -/
theorem sendLoop_of_le (h : payload.length ≤ offset) :
    sendLoop cfg payload rounds offset sn blockCount fcData = .ret none := by
  cases rounds with
  | zero => rfl
  | succ rounds =>
    simp only [sendLoop, Nat.not_lt.mpr h, if_false]
    rfl

/-- What follows an accepted consecutive frame: a new flow control where the block is
complete and data is missing. -/
def afterSegment (cfg : Config) (timeout length rounds : Nat) (buf : List UInt8) (sn : UInt8)
    (cfInBlock : Nat) : Call (Except ErrorCode (List UInt8)) :=
  if cfg.blockSize ≠ 0 ∧ buf.length < length then
    if cfInBlock + 1 = cfg.blockSize.toNat then
      .emit (flowControl cfg) fun
      | some err => .ret (.error err)
      | none => recvLoop cfg timeout length rounds buf sn 0
    else recvLoop cfg timeout length rounds buf sn (cfInBlock + 1)
  else recvLoop cfg timeout length rounds buf sn cfInBlock

/-- What the receiver does with the next consecutive frame. -/
def onSegment (cfg : Config) (timeout length rounds : Nat) (buf : List UInt8) (sn : UInt8)
    (cfInBlock : Nat) : Except ErrorCode Frame → Call (Except ErrorCode (List UInt8))
  | .error err => .ret (.error err)
  | .ok cf =>
    if cf.data.getD 0 0 &&& 0x0F ≠ sn &&& 0x0F then .ret (.error (.generic .badMessage))
    else if cf.data.length < 2 then .ret (.error (.generic .badMessage))
    else afterSegment cfg timeout length rounds
      (buf ++ (cf.data.drop 1).take (min (cf.data.length - 1) (length - buf.length)))
      (sn + 1) cfInBlock

/-- One round of the reassembly loop. -/
theorem recvLoop_of_lt {length : Nat} (h : buf.length < length) :
    recvLoop cfg timeout length (rounds + 1) buf sn cfInBlock =
      .await timeout isConsecutive (onSegment cfg timeout length rounds buf sn cfInBlock) := by
  simp only [recvLoop, h, if_true, recvCf, Proc.await_bind, Proc.ret_bind, Proc.await.injEq,
    true_and]
  funext res
  cases res with
  | error err => rfl
  | ok cf =>
    simp only [onSegment, afterSegment]
    split_ifs
    · rfl
    · rfl
    · simp only [busSend, Proc.emit_bind, Proc.ret_bind, flowControl, Proc.emit.injEq, true_and]
      funext err
      cases err <;> rfl
    · rfl
    · rfl

/-- The reassembly ends once no byte is missing. -/
theorem recvLoop_of_le {length : Nat} (h : length ≤ buf.length) :
    recvLoop cfg timeout length rounds buf sn cfInBlock = .ret (.ok buf) := by
  cases rounds with
  | zero => rfl
  | succ rounds =>
    simp only [recvLoop, Nat.not_lt.mpr h, if_false]
    rfl

/-- What the receiver does with the first frame it gets. -/
def onFirst (cfg : Config) (timeout : Nat) :
    Except ErrorCode Frame → Call (Except ErrorCode (List UInt8))
  | .error err => .ret (.error err)
  | .ok first =>
    match first.data with
    | [] => .ret (.error (.generic .badMessage))
    | pci :: rest =>
      if pci &&& 0xF0 = kTypeSF then
        if (pci &&& 0x0F).toNat = 0 ∨ (pci &&& 0x0F).toNat > rest.length then
          .ret (.error (.generic .badMessage))
        else .ret (.ok (rest.take (pci &&& 0x0F).toNat))
      else if pci &&& 0xF0 = kTypeFF then
        match rest with
        | [] => .ret (.error (.generic .badMessage))
        | low :: buf =>
          .emit (flowControl cfg) fun
          | some err => .ret (.error err)
          | none =>
            recvLoop cfg timeout (((pci &&& 0x0F).toNat <<< 8) ||| low.toNat)
              (((pci &&& 0x0F).toNat <<< 8) ||| low.toNat) buf 1 0
      else .ret (.error (.generic .badMessage))

/-- A receiver first waits for any frame. -/
theorem recv_eq : recv cfg timeout = .await timeout (fun _ => true) (onFirst cfg timeout) := by
  simp only [recv, recvFor, Proc.await_bind, Proc.ret_bind, Proc.await.injEq, true_and]
  funext res
  cases res with
  | error err => rfl
  | ok first =>
    obtain ⟨id, ext, rtr, fd, brs, data, esi, xl, sdt, vcid, af, sec⟩ := first
    cases data with
    | nil => rfl
    | cons pci rest =>
      simp only [onFirst]
      split_ifs
      · rfl
      · rfl
      · cases rest with
        | nil => rfl
        | cons low buf =>
          simp only [busSend, Proc.emit_bind, Proc.ret_bind, flowControl, Proc.emit.injEq, true_and]
          funext err
          cases err <;> rfl
      · rfl

variable {peer : Config}

/-- A single frame is the whole message. -/
theorem onFirst_single (hne : payload ≠ []) (hlen : payload.length ≤ 7) :
    onFirst cfg timeout (.ok (singleFrame peer payload)) = .ret (.ok payload) := by
  have hpos := List.length_pos_of_ne_nil hne
  have hto : (UInt8.ofNat payload.length).toNat = payload.length := by
    rw [UInt8.toNat_ofNat']
    omega
  have hle : UInt8.ofNat payload.length ≤ 7 := by
    rw [UInt8.le_iff_toNat_le, hto]
    exact hlen
  obtain ⟨htype, hnum⟩ := pci_single _ hle
  simp only [onFirst, singleFrame, makeFrame, htype, hnum, hto, if_true]
  rw [if_neg (by omega), List.take_length]

/-- A first frame is answered by flow control; six bytes are there already. -/
theorem onFirst_first (hmax : payload.length ≤ kMaxPayload) :
    onFirst cfg timeout (.ok (firstFrame peer payload)) = .emit (flowControl cfg) fun
      | some err => .ret (.error err)
      | none => recvLoop cfg timeout payload.length payload.length (payload.take 6) 1 0 := by
  have htype : firstPci payload.length &&& 0xF0 = kTypeFF := by
    rw [firstPci_eq, (pci_first _).1]
  have hne : kTypeFF ≠ kTypeSF := by decide
  simp only [onFirst, firstFrame, makeFrame, firstFrameData, List.cons_append, List.nil_append]
  rw [← firstPci, htype, if_neg hne, if_pos rfl, firstFrame_length hmax]

/-- A consecutive frame ends the wait for one. -/
theorem isConsecutive_consecutiveFrame :
    isConsecutive (consecutiveFrame peer payload offset sn) = true := by
  simp [isConsecutive, consecutiveFrame, makeFrame, consecutiveData, (pci_consecutive sn).1]

theorem not_isConsecutive_singleFrame (hlen : payload.length ≤ 7) :
    isConsecutive (singleFrame cfg payload) = false := by
  have hle : UInt8.ofNat payload.length ≤ 7 := by
    rw [UInt8.le_iff_toNat_le, UInt8.toNat_ofNat']
    exact le_trans (Nat.mod_le _ _) hlen
  simp [isConsecutive, singleFrame, makeFrame, (pci_single _ hle).1]
  decide

theorem type_firstFrame : (firstFrame cfg payload).data.getD 0 0 &&& 0xF0 = kTypeFF := by
  simp only [firstFrame, makeFrame, firstFrameData, List.cons_append, List.getD_cons_zero]
  rw [← firstPci, firstPci_eq, (pci_first _).1]

theorem not_isConsecutive_firstFrame : isConsecutive (firstFrame cfg payload) = false := by
  have hne : (kTypeFF == kTypeCF) = false := by decide
  simp only [isConsecutive, type_firstFrame, hne, Bool.and_false]

/-- A flow control ends the wait for one. -/
theorem isFlowControl_flowControl : isFlowControl (flowControl peer) = true := by
  simp [isFlowControl, flowControl, makeFrame, flowControlData]
  decide

/-- A flow control asks to go on. -/
theorem fcStatus_flowControl : fcStatus (flowControl peer).data = kFCContinueToSend := by
  simp [fcStatus, flowControl, makeFrame, flowControlData]
  decide

/-- The expected consecutive frame adds its bytes to those received so far. -/
theorem onSegment_consecutive (peer : Config) (h : offset < payload.length) :
    onSegment cfg timeout payload.length rounds (payload.take offset) sn cfInBlock
        (.ok (consecutiveFrame peer payload offset sn)) =
      afterSegment cfg timeout payload.length rounds (payload.take (nextOffset payload offset))
        (sn + 1) cfInBlock := by
  have hlen : ((payload.drop offset).take (min 7 (payload.length - offset))).length =
      min 7 (payload.length - offset) := by
    rw [List.length_take, List.length_drop]
    omega
  have htake : (payload.take offset).length = offset := by
    rw [List.length_take]
    omega
  simp only [onSegment, consecutiveFrame, makeFrame, consecutiveData, List.getD_cons_zero,
    (pci_consecutive sn).2, List.length_cons, hlen, htake, List.drop_succ_cons, List.drop_zero,
    Nat.add_sub_cancel]
  rw [if_neg (by simp), if_neg (by omega), List.take_take, nextOffset, List.take_add]
  congr 3
  omega

end CppCan.IsoTp
