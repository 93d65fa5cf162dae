import CppCan.Core.Traces
import CppCan.IsoTp.Agreement

/-!
# The sender under any flow control

A round of the sending loop may wait for flow control before its consecutive frame and
behind it. Whatever these waits bring, what the sender gives to the bus is the beginning
of one sequence of frames, and at most one block of them lies between two flow controls.
-/

namespace CppCan.IsoTp

open CppCan.Core CppCan.Relay

/-- What a call shows over the bus. -/
abbrev Log := List (Label Frame ErrorCode)

variable {cfg : Config} {payload fcData : List UInt8} {offset blockCount rounds : Nat} {sn : UInt8}
  {ls : Log} {r : Option ErrorCode}

/-- The consecutive frame behind `i` others. -/
def segment (cfg : Config) (payload : List UInt8) (i : Nat) : Frame :=
  consecutiveFrame cfg payload (6 + 7 * i) (UInt8.ofNat (i + 1))

/-- The consecutive frames of a payload behind the first `i`. -/
def segmentsFrom (cfg : Config) (payload : List UInt8) (i : Nat) : List Frame :=
  (List.range' i (segmentsLeft payload (6 + 7 * i))).map (segment cfg payload)

/-- All frames of a payload that is not empty. -/
def dataFrames (cfg : Config) (payload : List UInt8) : List Frame :=
  if payload.length ≤ 7 then [singleFrame cfg payload]
  else firstFrame cfg payload :: segmentsFrom cfg payload 0

/-- What a new flow control shows where it is due, and the flow control that is followed
from then on. -/
inductive Refresh (fcData : List UInt8) (blockCount : Nat) :
    Bool → Log → Except ErrorCode (List UInt8 × Nat) → Prop where
  | kept : Refresh fcData blockCount false [] (.ok (fcData, blockCount))
  | renewed {ls : Log} {fc : Frame} (h : Waits isFlowControl ls (.ok fc)) :
      Refresh fcData blockCount true ls (.ok (fc.data, 0))
  | gaveUp {ls : Log} {err : ErrorCode} (h : Waits isFlowControl ls (.error err)) :
      Refresh fcData blockCount true ls (.error err)

theorem refresh_of_trace {due : Bool} {res : Except ErrorCode (List UInt8 × Nat)}
    (h : (refreshFc cfg due fcData blockCount).Trace ls res) :
    Refresh fcData blockCount due ls res := by
  unfold refreshFc at h
  cases due with
  | false =>
    obtain ⟨rfl, rfl⟩ := Proc.trace_ret.mp h
    exact .kept
  | true =>
    obtain ⟨ls₁, ls₂, fcRes, rfl, hw, hrest⟩ := Proc.trace_await.mp h
    cases fcRes with
    | error err =>
      obtain ⟨rfl, rfl⟩ := Proc.trace_ret.mp hrest
      rw [List.append_nil]
      exact .gaveUp hw
    | ok fc =>
      obtain ⟨rfl, rfl⟩ := Proc.trace_ret.mp hrest
      rw [List.append_nil]
      exact .renewed hw

/-- A complete block awaits flow control. -/
def blockDue (fcData : List UInt8) (blockCount : Nat) : Bool :=
  fcBlockSize fcData > 0 && blockCount ≥ (fcBlockSize fcData).toNat

/-- What keeping the separation time shows. -/
def pauses (fcData : List UInt8) : Log :=
  if fcStMin fcData > 0 then [.paused (stminToDuration (fcStMin fcData))] else []

/-- The rounds of the loop from the consecutive frame behind `i` others on. -/
inductive Rounds (cfg : Config) (payload : List UInt8) :
    Nat → Nat → List UInt8 → Log → Option ErrorCode → Prop where
  | done {i n : Nat} {fc : List UInt8} (h : payload.length ≤ 6 + 7 * i) :
      Rounds cfg payload i n fc [] none
  | waitGaveUp {i n : Nat} {fc : List UInt8} {ls : Log} {err : ErrorCode}
      (h : 6 + 7 * i < payload.length)
      (hw : Refresh fc n (fcStatus fc == kFCWait) ls (.error err)) :
      Rounds cfg payload i n fc ls (some err)
  | refused {i n m : Nat} {fc fc' : List UInt8} {ls : Log} {err : ErrorCode}
      (h : 6 + 7 * i < payload.length)
      (hw : Refresh fc n (fcStatus fc == kFCWait) ls (.ok (fc', m))) :
      Rounds cfg payload i n fc (ls ++ [.sent (segment cfg payload i) (some err)]) (some err)
  | blockGaveUp {i n m : Nat} {fc fc' : List UInt8} {ls ls' : Log} {err : ErrorCode}
      (h : 6 + 7 * i < payload.length)
      (hw : Refresh fc n (fcStatus fc == kFCWait) ls (.ok (fc', m)))
      (hb : Refresh fc' (m + 1) (blockDue fc' (m + 1)) ls' (.error err)) :
      Rounds cfg payload i n fc (ls ++ .sent (segment cfg payload i) none :: ls') (some err)
  | round {i n m m' : Nat} {fc fc' fc'' : List UInt8} {ls ls' rest : Log} {r : Option ErrorCode}
      (h : 6 + 7 * i < payload.length)
      (hw : Refresh fc n (fcStatus fc == kFCWait) ls (.ok (fc', m)))
      (hb : Refresh fc' (m + 1) (blockDue fc' (m + 1)) ls' (.ok (fc'', m')))
      (hrest : Rounds cfg payload (i + 1) m' fc'' rest r) :
      Rounds cfg payload i n fc
        (ls ++ .sent (segment cfg payload i) none :: (ls' ++ pauses fc'' ++ rest)) r

/-- The offset of the loop behind `i` consecutive frames. -/
theorem nextOffset_eq {i : Nat} (h : 6 + 7 * i < payload.length) :
    nextOffset payload (6 + 7 * i) = min payload.length (6 + 7 * (i + 1)) := by
  unfold nextOffset
  omega

/-- The separation time passes before the call goes on. -/
theorem trace_paced {c : Call (Option ErrorCode)} (h : (paced fcData c).Trace ls r) :
    ∃ rest, ls = pauses fcData ++ rest ∧ c.Trace rest r := by
  unfold paced at h
  unfold pauses
  split_ifs at h ⊢
  · exact Proc.trace_pause.mp h
  · exact ⟨ls, rfl, h⟩

/-- Every run of the loop is a sequence of rounds. -/
theorem rounds_of_trace {i : Nat} (hrounds : payload.length ≤ 6 + 7 * i + rounds)
    (h : (sendLoop cfg payload rounds (min payload.length (6 + 7 * i)) (UInt8.ofNat (i + 1))
      blockCount fcData).Trace ls r) :
    Rounds cfg payload i blockCount fcData ls r := by
  induction rounds generalizing i blockCount fcData ls with
  | zero =>
    obtain ⟨rfl, rfl⟩ := Proc.trace_ret.mp h
    exact .done hrounds
  | succ rounds ih =>
    by_cases hlt : 6 + 7 * i < payload.length
    · have hoffset : min payload.length (6 + 7 * i) = 6 + 7 * i := by omega
      have hnext : 6 + 7 * i + min 7 (payload.length - (6 + 7 * i)) =
          min payload.length (6 + 7 * (i + 1)) := nextOffset_eq hlt
      have hsn : UInt8.ofNat (i + 1) + 1 = UInt8.ofNat (i + 1 + 1) := by
        rw [UInt8.ofNat_add (i + 1) 1]
        rfl
      rw [hoffset, sendLoop, if_pos hlt] at h
      obtain ⟨ls₁, ls₂, res, rfl, hwait, hsend⟩ := Proc.trace_bind.mp h
      have hw := refresh_of_trace hwait
      cases res with
      | error err =>
        obtain ⟨rfl, rfl⟩ := Proc.trace_ret.mp hsend
        rw [List.append_nil]
        exact .waitGaveUp hlt hw
      | ok next =>
        obtain ⟨fc, n⟩ := next
        obtain ⟨err, ls₃, rfl, hafter⟩ := Proc.trace_emit.mp hsend
        cases err with
        | some err =>
          obtain ⟨rfl, rfl⟩ := Proc.trace_ret.mp hafter
          exact .refused hlt hw
        | none =>
          obtain ⟨ls₄, ls₅, res, rfl, hblock, hrest⟩ :=
            (Proc.trace_bind (c := refreshFc cfg (blockDue fc (n + 1)) fc (n + 1))).mp hafter
          have hb := refresh_of_trace hblock
          cases res with
          | error err =>
            obtain ⟨rfl, rfl⟩ := Proc.trace_ret.mp hrest
            rw [List.append_nil]
            exact .blockGaveUp hlt hw hb
          | ok next =>
            obtain ⟨fc', n'⟩ := next
            obtain ⟨rest, rfl, hloop⟩ := trace_paced hrest
            rw [hnext, hsn] at hloop
            rw [← List.append_assoc ls₄]
            exact .round hlt hw hb (ih (by omega) hloop)
    · rw [sendLoop_of_le (by omega)] at h
      obtain ⟨rfl, rfl⟩ := Proc.trace_ret.mp h
      exact .done (by omega)

/-- What `send` can do with a payload that does not fit into a single frame. -/
inductive Sending (cfg : Config) (payload : List UInt8) : Log → Option ErrorCode → Prop where
  | refused (err : ErrorCode) :
      Sending cfg payload [.sent (firstFrame cfg payload) (some err)] (some err)
  | gaveUp {ls : Log} {err : ErrorCode} (hw : Waits isFlowControl ls (.error err)) :
      Sending cfg payload (.sent (firstFrame cfg payload) none :: ls) (some err)
  | overflow {ls : Log} {fc : Frame} (hw : Waits isFlowControl ls (.ok fc))
      (h : fcStatus fc.data = kFCOverflow) :
      Sending cfg payload (.sent (firstFrame cfg payload) none :: ls)
        (some (.generic .noBufferSpace))
  | loop {ls rest : Log} {fc : Frame} {r : Option ErrorCode}
      (hw : Waits isFlowControl ls (.ok fc)) (h : fcStatus fc.data ≠ kFCOverflow)
      (hrest : Rounds cfg payload 0 0 fc.data rest r) :
      Sending cfg payload (.sent (firstFrame cfg payload) none :: (ls ++ rest)) r

theorem sending_of_trace (hlen : 8 ≤ payload.length) (hmax : payload.length ≤ kMaxPayload)
    (h : (send cfg payload).Trace ls r) : Sending cfg payload ls r := by
  rw [send_multi hlen hmax] at h
  obtain ⟨err, ls₁, rfl, hfirst⟩ := Proc.trace_emit.mp h
  cases err with
  | some err =>
    obtain ⟨rfl, rfl⟩ := Proc.trace_ret.mp hfirst
    exact .refused err
  | none =>
    obtain ⟨ls₂, ls₃, res, rfl, hw, hfc⟩ := Proc.trace_await.mp hfirst
    cases res with
    | error err =>
      obtain ⟨rfl, rfl⟩ := Proc.trace_ret.mp hfc
      rw [List.append_nil]
      exact .gaveUp hw
    | ok fc =>
      dsimp only at hfc
      split_ifs at hfc with hstatus
      · obtain ⟨rfl, rfl⟩ := Proc.trace_ret.mp hfc
        rw [List.append_nil]
        exact .overflow hw (by simpa using hstatus)
      · have hoffset : min payload.length (6 + 7 * 0) = 6 := by omega
        rw [← hoffset] at hfc
        exact .loop hw (by simpa using hstatus) (rounds_of_trace (by omega) hfc)

/-- The frames of a payload: the length in twelve bits with the first six bytes, then up to
seven bytes with each number. -/
structure Canonical (payload : List UInt8) (frames : List Frame) : Prop where
  first : ∃ pci low, (frames.head?.map (·.data)) = some (pci :: low :: payload.take 6) ∧
    pci &&& 0xF0 = kTypeFF ∧ (pci &&& 0x0F).toNat * 256 + low.toNat = payload.length
  consecutive : ∀ i cf, frames.tail[i]? = some cf → ∃ pci chunk, cf.data = pci :: chunk ∧
    pci &&& 0xF0 = kTypeCF ∧ (pci &&& 0x0F).toNat = (i + 1) % 16 ∧
    chunk = (payload.drop (6 + 7 * i)).take 7 ∧ 1 ≤ chunk.length ∧
    (i + 1 < frames.tail.length → chunk.length = 7)
  concatenated : payload.take 6 ++ frames.tail.flatMap (·.data.drop 1) = payload

theorem segmentsFrom_of_lt {i : Nat} (h : 6 + 7 * i < payload.length) :
    segmentsFrom cfg payload i = segment cfg payload i :: segmentsFrom cfg payload (i + 1) := by
  have hleft : segmentsLeft payload (6 + 7 * i) = segmentsLeft payload (6 + 7 * (i + 1)) + 1 := by
    unfold segmentsLeft
    omega
  rw [segmentsFrom, hleft, List.range'_succ, List.map_cons]
  rfl

theorem segmentsFrom_of_le {i : Nat} (h : payload.length ≤ 6 + 7 * i) :
    segmentsFrom cfg payload i = [] := by
  have hleft : segmentsLeft payload (6 + 7 * i) = 0 := by
    unfold segmentsLeft
    omega
  rw [segmentsFrom, hleft]
  rfl

/-- A consecutive frame carries seven bytes, unless it is the last one. -/
theorem segment_data (cfg : Config) (payload : List UInt8) (i : Nat) :
    (segment cfg payload i).data =
      (kTypeCF ||| (UInt8.ofNat (i + 1) &&& 0x0F)) :: (payload.drop (6 + 7 * i)).take 7 := by
  rw [segment, consecutiveFrame, makeFrame, consecutiveData, ← List.length_drop,
    List.take_eq_take_iff.mpr]
  omega

/-- The consecutive frames carry all bytes from their offset on. -/
theorem flatMap_segmentsFrom (cfg : Config) (payload : List UInt8) (i : Nat) :
    (segmentsFrom cfg payload i).flatMap (·.data.drop 1) = payload.drop (6 + 7 * i) := by
  induction hleft : payload.length - (6 + 7 * i) using Nat.strong_induction_on generalizing i with
  | _ left ih =>
    by_cases h : 6 + 7 * i < payload.length
    · have hrest : payload.drop (6 + 7 * (i + 1)) = (payload.drop (6 + 7 * i)).drop 7 := by
        rw [List.drop_drop]
        rfl
      rw [segmentsFrom_of_lt h, List.flatMap_cons, ih _ (by omega) (i + 1) rfl, segment_data,
        List.drop_succ_cons, List.drop_zero, hrest, List.take_append_drop]
    · rw [segmentsFrom_of_le (by omega), List.drop_eq_nil_of_le (by omega)]
      rfl

/-- The frames that come next behind the first frame. -/
theorem getElem?_segmentsFrom {i : Nat} {cf : Frame}
    (h : (segmentsFrom cfg payload 0)[i]? = some cf) :
    cf = segment cfg payload i ∧ 6 + 7 * i < payload.length := by
  rw [segmentsFrom, List.getElem?_map] at h
  obtain ⟨k, hk, rfl⟩ := Option.map_eq_some_iff.mp h
  obtain ⟨hi, rfl⟩ := List.getElem?_eq_some_iff.mp hk
  rw [List.length_range', segmentsLeft] at hi
  rw [List.getElem_range', Nat.zero_add, Nat.one_mul]
  exact ⟨rfl, by omega⟩

/-- The frames of every payload are the canonical ones. -/
theorem canonical_dataFrames (cfg : Config) (hlen : 8 ≤ payload.length)
    (hmax : payload.length ≤ kMaxPayload) : Canonical payload (dataFrames cfg payload) := by
  rw [dataFrames, if_neg (by omega)]
  constructor
  · have hlength := firstFrame_length hmax
    refine ⟨firstPci payload.length, (UInt16.ofNat payload.length &&& 0xFF).toUInt8, rfl, ?_, ?_⟩
    · rw [firstPci_eq, (pci_first _).1]
    · rwa [← Nat.shiftLeft_add_eq_or_of_lt (UInt8.toNat_lt _), Nat.shiftLeft_eq] at hlength
  · rintro i cf h
    obtain ⟨rfl, hlt⟩ := getElem?_segmentsFrom h
    refine ⟨_, _, segment_data cfg payload i, (pci_consecutive _).1, ?_, rfl, ?_, ?_⟩
    · rw [(pci_consecutive _).2, toNat_and_nibble, UInt8.toNat_ofNat']
      omega
    · rw [List.length_take, List.length_drop]
      omega
    · intro hnext
      rw [List.tail_cons, segmentsFrom, List.length_map, List.length_range', segmentsLeft] at hnext
      rw [List.length_take, List.length_drop]
      omega
  · exact (congrArg _ (flatMap_segmentsFrom cfg payload 0)).trans (List.take_append_drop 6 payload)

/-- A wait gives no frame to the bus. -/
theorem Refresh.quiet {due : Bool} {res : Except ErrorCode (List UInt8 × Nat)}
    (h : Refresh fcData blockCount due ls res) : offered ls = [] ∧ accepted ls = [] := by
  cases h with
  | kept => exact ⟨rfl, rfl⟩
  | renewed hw => exact ⟨hw.offered_eq, hw.accepted_eq⟩
  | gaveUp hw => exact ⟨hw.offered_eq, hw.accepted_eq⟩

theorem quiet_pauses (fcData : List UInt8) :
    offered (pauses fcData) = [] ∧ accepted (pauses fcData) = [] := by
  unfold pauses
  split_ifs <;> exact ⟨rfl, rfl⟩

/-- The loop gives the consecutive frames to the bus in order, and all of them if it
succeeds. -/
theorem Rounds.frames {i : Nat} (h : Rounds cfg payload i blockCount fcData ls r) :
    offered ls <+: segmentsFrom cfg payload i ∧ accepted ls <+: offered ls ∧
      (r = none → accepted ls = segmentsFrom cfg payload i) := by
  induction h with
  | done h => exact ⟨List.nil_prefix, List.nil_prefix, fun _ => (segmentsFrom_of_le h).symm⟩
  | waitGaveUp h hw =>
    rw [hw.quiet.1, hw.quiet.2]
    exact ⟨List.nil_prefix, List.nil_prefix, by simp⟩
  | refused h hw =>
    rw [segmentsFrom_of_lt h]
    simp [hw.quiet, Label.offer?, Label.accepted?]
  | blockGaveUp h hw hb =>
    rw [segmentsFrom_of_lt h]
    simp [hw.quiet, hb.quiet, Label.offer?, Label.accepted?]
  | round h hw hb hrest ih =>
    rw [segmentsFrom_of_lt h]
    simpa [hw.quiet, hb.quiet, quiet_pauses, Label.offer?, Label.accepted?] using ih

/-- Behind each flow control with a block size at most so many frames go out before the
next one is taken. -/
def Blockwise : Log → Prop
  | [] => True
  | .took fc :: ls =>
    (fcBlockSize fc.data > 0 → burst ls ≤ (fcBlockSize fc.data).toNat) ∧ Blockwise ls
  | _ :: ls => Blockwise ls

/-- The block that is open holds `blockCount` frames so far; it and those behind it keep
to their sizes. -/
def BlockOpen (fcData : List UInt8) (blockCount : Nat) (ls : Log) : Prop :=
  (fcBlockSize fcData > 0 → blockCount + burst ls ≤ (fcBlockSize fcData).toNat) ∧ Blockwise ls

/-- The block has room for the frames that it holds. -/
def HasRoom (fcData : List UInt8) (blockCount : Nat) : Prop :=
  fcBlockSize fcData > 0 → blockCount ≤ (fcBlockSize fcData).toNat

/-- A wait for flow control opens a new block. -/
theorem blockwise_of_waits {fc : Frame} {rest : Log} (hw : Waits isFlowControl ls (.ok fc))
    (hrest : BlockOpen fc.data 0 rest) : Blockwise (ls ++ rest) := by
  generalize hres : Except.ok fc = res at hw
  induction hw with
  | took hm =>
    cases hres
    rw [BlockOpen, Nat.zero_add] at hrest
    exact hrest
  | gaveUp err => cases hres
  | dropped hm hw ih => exact ih hres

theorem blockwise_of_gaveUp {err : ErrorCode} (hw : Waits isFlowControl ls (.error err)) :
    Blockwise ls := by
  generalize hres : Except.error err = res at hw
  induction hw with
  | took hm => cases hres
  | gaveUp err => trivial
  | dropped hm hw ih => exact ih hres

/-- Where no new flow control is due the block stays open. -/
theorem Refresh.blockOpen {due : Bool} {fc : List UInt8} {n : Nat} {rest : Log}
    (h : Refresh fcData blockCount due ls (.ok (fc, n))) (hroom : HasRoom fcData blockCount)
    (hrest : BlockOpen fc n rest) : BlockOpen fcData blockCount (ls ++ rest) := by
  cases h with
  | kept => exact hrest
  | renewed hw =>
    refine ⟨fun hpos => ?_, blockwise_of_waits hw hrest⟩
    rw [hw.burst_append]
    exact hroom hpos

theorem Refresh.blockOpen_gaveUp {due : Bool} {err : ErrorCode}
    (h : Refresh fcData blockCount due ls (.error err)) (hroom : HasRoom fcData blockCount) :
    BlockOpen fcData blockCount ls := by
  cases h with
  | gaveUp hw =>
    refine ⟨fun hpos => ?_, blockwise_of_gaveUp hw⟩
    rw [hw.burst_eq]
    exact hroom hpos

/-- A frame goes into the open block. -/
theorem BlockOpen.sent {m : Frame} {err : Option ErrorCode}
    (h : BlockOpen fcData (blockCount + 1) ls) :
    BlockOpen fcData blockCount (.sent m err :: ls) := by
  refine ⟨fun hpos => ?_, h.2⟩
  have hle := h.1 hpos
  rw [burst]
  omega

theorem BlockOpen.pauses {fc : List UInt8} (h : BlockOpen fcData blockCount ls) :
    BlockOpen fcData blockCount (pauses fc ++ ls) := by
  unfold IsoTp.pauses
  split_ifs
  · exact h
  · exact h

/-- A block has room for a frame when it is opened. -/
theorem hasRoom_one (fcData : List UInt8) : HasRoom fcData 1 := by
  intro hpos
  exact UInt8.lt_iff_toNat_lt.mp hpos

/-- There is room for a frame behind a wait if there was room before it. -/
theorem Refresh.hasRoom {due : Bool} {fc : List UInt8} {n : Nat}
    (h : Refresh fcData blockCount due ls (.ok (fc, n)))
    (hroom : HasRoom fcData (blockCount + 1)) : HasRoom fc (n + 1) := by
  cases h with
  | kept => exact hroom
  | renewed hw => exact hasRoom_one _

/-- There is room for a frame where a new flow control has been taken if one was due. -/
theorem Refresh.hasRoom_of_blockDue {fc : List UInt8} {n : Nat}
    (h : Refresh fcData blockCount (blockDue fcData blockCount) ls (.ok (fc, n))) :
    HasRoom fc (n + 1) := by
  generalize hdue : blockDue fcData blockCount = due at h
  cases h with
  | kept =>
    intro hpos
    simp only [blockDue, hpos, decide_true, Bool.true_and, decide_eq_false_iff_not] at hdue
    omega
  | renewed hw => exact hasRoom_one _

/-- The loop keeps to the sizes of all blocks. -/
theorem Rounds.blockOpen {i : Nat} (h : Rounds cfg payload i blockCount fcData ls r)
    (hroom : HasRoom fcData (blockCount + 1)) : BlockOpen fcData blockCount ls := by
  have hle {fc : List UInt8} {n : Nat} (hroom : HasRoom fc (n + 1)) : HasRoom fc n :=
    fun hpos => Nat.le_of_succ_le (hroom hpos)
  induction h with
  | done h => exact ⟨hle hroom, trivial⟩
  | waitGaveUp h hw => exact hw.blockOpen_gaveUp (hle hroom)
  | refused h hw =>
    have hroom' := hw.hasRoom hroom
    exact hw.blockOpen (hle hroom) (BlockOpen.sent ⟨hroom', trivial⟩)
  | blockGaveUp h hw hb =>
    exact hw.blockOpen (hle hroom) (hb.blockOpen_gaveUp (hw.hasRoom hroom)).sent
  | round h hw hb hrest ih =>
    rw [List.append_assoc]
    refine hw.blockOpen (hle hroom) (BlockOpen.sent (hb.blockOpen (hw.hasRoom hroom) ?_))
    exact (ih hb.hasRoom_of_blockDue).pauses

/-- The sender gives the frames of the payload to the bus in order, and all of them if it
succeeds. -/
theorem Sending.frames (hlen : 8 ≤ payload.length) (h : Sending cfg payload ls r) :
    offered ls <+: dataFrames cfg payload ∧ accepted ls <+: offered ls ∧
      (r = none → accepted ls = dataFrames cfg payload) := by
  rw [dataFrames, if_neg (by omega)]
  cases h with
  | refused err => simp [Label.offer?, Label.accepted?]
  | gaveUp hw => simp [Label.offer?, Label.accepted?, hw.offered_eq, hw.accepted_eq]
  | overflow hw h => simp [Label.offer?, Label.accepted?, hw.offered_eq, hw.accepted_eq]
  | loop hw h hrest =>
    obtain ⟨hoffered, haccepted, hall⟩ := hrest.frames
    simp only [offered_cons, offered_append, accepted_cons, accepted_append, hw.offered_eq,
      hw.accepted_eq, Label.offer?, Label.accepted?, Option.toList_some, List.nil_append,
      List.singleton_append, List.cons_prefix_cons, true_and]
    exact ⟨hoffered, haccepted, fun hr => congrArg _ (hall hr)⟩

/-- The sender keeps to the sizes of all blocks. -/
theorem Sending.blockwise (h : Sending cfg payload ls r) : Blockwise ls := by
  cases h with
  | refused err => trivial
  | gaveUp hw =>
    have hblock := blockwise_of_gaveUp hw
    exact hblock
  | @overflow ls fc hw h =>
    have hopen : BlockOpen fc.data 0 [] := ⟨fun _ => Nat.zero_le _, trivial⟩
    have hblock := blockwise_of_waits hw hopen
    rwa [List.append_nil] at hblock
  | @loop ls rest fc r hw h hrest =>
    have hblock := blockwise_of_waits hw (hrest.blockOpen (hasRoom_one fc.data))
    exact hblock

/-- Whatever `send` gives to the bus begins the sequence of frames of its payload. -/
theorem offered_prefix (hne : payload ≠ []) (hmax : payload.length ≤ kMaxPayload)
    (h : (send cfg payload).Trace ls r) : offered ls <+: dataFrames cfg payload := by
  by_cases hlen : payload.length ≤ 7
  · rw [send_single hne hlen] at h
    obtain ⟨err, ls', rfl, hret⟩ := Proc.trace_emit.mp h
    obtain ⟨rfl, -⟩ := Proc.trace_ret.mp hret
    rw [dataFrames, if_pos hlen]
    exact List.prefix_rfl
  · exact ((sending_of_trace (by omega) hmax h).frames (by omega)).1

/-- Whatever flow control is received, however long the waits take and whichever frames the
bus refuses, `send` gives the beginning of one sequence of frames to the bus and no more
than a block of it at once. It succeeds only with the whole sequence. -/
theorem send_paced (cfg : Config) (payload : List UInt8) (hlen : 8 ≤ payload.length)
    (hmax : payload.length ≤ kMaxPayload) (h : (send cfg payload).Trace ls r) :
    Canonical payload (dataFrames cfg payload) ∧ offered ls <+: dataFrames cfg payload ∧
      accepted ls <+: offered ls ∧ (r = none → accepted ls = dataFrames cfg payload) ∧
      Blockwise ls := by
  have hsending := sending_of_trace hlen hmax h
  obtain ⟨hoffered, haccepted, hall⟩ := hsending.frames hlen
  exact ⟨canonical_dataFrames cfg hlen hmax, hoffered, haccepted, hall, hsending.blockwise⟩

/-- The second flow control of this run does not come. -/
theorem send_paced_timeout :
    offered (Proc.exec (fun _ => none) (.relay .timeout) (send {} (List.replicate 14 7)) []
      [flowControl { blockSize := 1 }]).1 <+: dataFrames {} (List.replicate 14 7) :=
  (send_paced {} _ (by decide) (by decide) (Proc.exec_trace _ _ _).1).2.1

end CppCan.IsoTp
