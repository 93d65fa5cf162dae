import CppCan.Core.Checked
import CppCan.Core.Throws
import CppCan.J1939.Provenance

/-!
# The bounds of the session table

The sizes of a session come from untrusted bytes. They are checked when the session is
opened, and the session is gone when its last segment arrives. So every session of the
table is within its bounds, and a loop that checks each index finds none out of range.
-/

namespace CppCan.J1939

open CppCan.Core

/-- The sizes of a session fit together, and a segment is still missing. -/
structure BamSession.Bounded (sess : BamSession) : Prop where
  totalSize_ge : kTPMinDataBytes ≤ sess.totalSize
  totalSize_le : sess.totalSize ≤ kTPMaxDataBytes
  numPackets_ge : 1 ≤ sess.numPackets
  numPackets_le : sess.numPackets ≤ 255
  length_buf : sess.buf.length = sess.totalSize
  length_seen : sess.seen.length = sess.numPackets
  received_eq : sess.received = sess.seen.count true
  received_lt : sess.received < sess.numPackets

def openSessionChecked (id : DecodedID) (now : TimePoint) (cf : CppCan.Frame) :
    Except Undefined (Option BamSession) := do
  if cf.data.length < 8 then return none
  else if (← element cf.data 0) ≠ kBAMControl then return none
  else
    let total := (← element cf.data 1).toNat ||| (← element cf.data 2).toNat <<< 8
    let np := (← element cf.data 3).toNat
    if total < kTPMinDataBytes || total > kTPMaxDataBytes then return none
    else if np ≤ 0 then return none
    else
      let target := (← element cf.data 5).toUInt32 ||| (← element cf.data 6).toUInt32 <<< 8 |||
        (← element cf.data 7).toUInt32 <<< 16
      return some
        { totalSize := total, numPackets := np, pgn := target, priority := id.priority,
          src := id.src, buf := List.replicate total 0, seen := List.replicate np false,
          received := 0, lastSeen := now }

def copyByteChecked (totalSize offset : Nat) (data buf : List UInt8) (i : Nat) :
    Except Undefined (List UInt8) := do
  let dst := offset + i - 1
  if dst < totalSize then store buf dst (← element data i) else return buf

def copySegmentChecked (totalSize offset : Nat) (data buf : List UInt8) :
    Except Undefined (List UInt8) :=
  (List.range' 1 kTPBytesPerPacket).foldlM (copyByteChecked totalSize offset data) buf

def BamSession.addSegmentChecked (sess : BamSession) (now : TimePoint) (cf : CppCan.Frame) :
    Except Undefined (Option BamSession) := do
  if cf.data.length < 8 then return none
  else
    let seq := (← element cf.data 0).toNat
    if seq < 1 || seq > sess.numPackets then return none
    else if ← element sess.seen (seq - 1) then return none
    else
      let seen ← store sess.seen (seq - 1) true
      let buf ← copySegmentChecked sess.totalSize ((seq - 1) * kTPBytesPerPacket) cf.data sess.buf
      return some
        { sess with seen := seen, lastSeen := now, buf := buf, received := sess.received + 1 }

/-- One pass of the loop; no result if an index is out of range. -/
def handleFrameChecked (pgns : List PGN) (sessions : Sessions) (a : Arrival) :
    Except Undefined (Sessions × Option Frame) := do
  let cf := a.frame
  if !cf.ext then return (sessions, none)
  else
    let id := decodeId cf.id
    let swept := sweepExpired a.time sessions
    if id.pgn = kPgnTPCM then
      match ← openSessionChecked id a.time cf with
      | none => return (swept, none)
      | some sess =>
        if (swept id.src).isNone && swept.size ≥ kMaxBamSessions then return (swept, none)
        else return (Function.update swept id.src (some sess), none)
    else if id.pgn = kPgnTPDT then
      match swept id.src with
      | none => return (swept, none)
      | some sess =>
        match ← sess.addSegmentChecked a.time cf with
        | none => return (swept, none)
        | some sess' =>
          if sess'.received = sess'.numPackets then
            return (Function.update swept id.src none,
              if matchesPgns sess'.pgn pgns then some sess'.message else none)
          else return (Function.update swept id.src (some sess'), none)
    else return (swept, none)

variable {pgns : List PGN} {a : Arrival} {sess sess' : BamSession} {id : DecodedID}
  {now : TimePoint} {cf : CppCan.Frame}

/-- The length of an announcement is checked before its bytes are read. -/
theorem openSessionChecked_eq (id : DecodedID) (now : TimePoint) (cf : CppCan.Frame) :
    openSessionChecked id now cf = .ok (openSession id now cf) := by
  unfold openSessionChecked openSession
  by_cases hlen : cf.data.length < 8
  · rw [if_pos hlen]
    simp [hlen, pure, Except.pure]
  · have hbyte : ∀ i, i < 8 → element cf.data i = .ok (cf.data.getD i 0) := fun i hi =>
      element_of_lt (by omega) 0
    rw [if_neg hlen, hbyte 0 (by decide), ok_bind]
    by_cases hcontrol : cf.data.getD 0 0 = kBAMControl
    · rw [if_neg (not_not.mpr hcontrol), if_neg (by simpa [hlen] using hcontrol)]
      simp only [hbyte 1 (by decide), hbyte 2 (by decide), hbyte 3 (by decide), hbyte 5 (by decide),
        hbyte 6 (by decide), hbyte 7 (by decide), ok_bind]
      rw [apply_ite Except.ok, apply_ite Except.ok]
      rfl
    · rw [if_pos hcontrol, if_pos (by simpa [hlen] using hcontrol)]
      rfl

/-- A byte is read below the length of the frame and stored below that of the buffer. -/
theorem copyByteChecked_eq {totalSize offset i : Nat} {data buf : List UInt8}
    (hbuf : buf.length = totalSize) (hi : i < data.length) :
    copyByteChecked totalSize offset data buf i = .ok (copyByte totalSize offset data buf i) := by
  unfold copyByteChecked copyByte
  dsimp only
  split_ifs with hdst
  · rw [element_of_lt hi 0, ok_bind, store_of_lt (hbuf ▸ hdst)]
  · rfl

theorem foldlM_copyByteChecked {totalSize offset : Nat} {data buf : List UInt8} {is : List Nat}
    (hbuf : buf.length = totalSize) (his : ∀ i ∈ is, i < data.length) :
    is.foldlM (copyByteChecked totalSize offset data) buf =
      .ok (is.foldl (copyByte totalSize offset data) buf) := by
  induction is generalizing buf with
  | nil => rfl
  | cons i is ih =>
    obtain ⟨hi, his⟩ := List.forall_mem_cons.mp his
    rw [List.foldlM_cons, copyByteChecked_eq hbuf hi, ok_bind, List.foldl_cons]
    exact ih ((length_copyByte ..).trans hbuf) his

/-- A segment of eight bytes is copied to where it belongs. -/
theorem copySegmentChecked_eq {totalSize offset : Nat} {data buf : List UInt8}
    (hbuf : buf.length = totalSize) (hdata : 8 ≤ data.length) :
    copySegmentChecked totalSize offset data buf = .ok (copySegment totalSize offset data buf) := by
  refine foldlM_copyByteChecked hbuf fun i hi => ?_
  simp only [kTPBytesPerPacket, List.mem_range'_1] at hi
  omega

/-- In a session within its bounds there are a mark and a place for every segment. -/
theorem BamSession.Bounded.addSegmentChecked_eq (h : sess.Bounded) (now : TimePoint)
    (cf : CppCan.Frame) :
    sess.addSegmentChecked now cf = .ok (sess.addSegment now cf) := by
  unfold BamSession.addSegmentChecked BamSession.addSegment
  by_cases hlen : cf.data.length < 8
  · rw [if_pos hlen, if_pos hlen]
    rfl
  · rw [if_neg hlen, if_neg hlen, element_of_lt (by omega) 0, ok_bind]
    dsimp only
    generalize (cf.data.getD 0 0).toNat = seq
    by_cases hseq : (decide (seq < 1) || decide (seq > sess.numPackets)) = true
    · rw [if_pos hseq, if_pos hseq]
      rfl
    · have hmark : seq - 1 < sess.seen.length := by
        simp only [Bool.or_eq_true, decide_eq_true_eq, not_or, not_lt] at hseq
        rw [h.length_seen]
        omega
      rw [if_neg hseq, if_neg hseq, element_of_lt hmark false, ok_bind, store_of_lt hmark,
        ok_bind, copySegmentChecked_eq h.length_buf (by omega), ok_bind, apply_ite Except.ok]
      rfl

/-- With every session within its bounds no index is out of range. -/
theorem handleFrameChecked_eq {sessions : Sessions}
    (h : ∀ src sess, sessions src = some sess → sess.Bounded) (a : Arrival) :
    handleFrameChecked pgns sessions a = .ok (handleFrame pgns sessions a) := by
  have hswept : ∀ src sess, sweepExpired a.time sessions src = some sess → sess.Bounded :=
    fun src sess hs => h src sess (Option.mem_filter_iff.mp hs).1
  unfold handleFrameChecked handleFrame
  simp only [openSessionChecked_eq, ok_bind]
  generalize sweepExpired a.time sessions = swept at hswept
  by_cases hext : (!a.frame.ext) = true
  · rw [if_pos hext, if_pos hext]
    rfl
  rw [if_neg hext, if_neg hext]
  by_cases hcm : (decodeId a.frame.id).pgn = kPgnTPCM
  · rw [if_pos hcm, if_pos hcm]
    cases openSession (decodeId a.frame.id) a.time a.frame with
    | none => rfl
    | some sess =>
      dsimp only
      rw [apply_ite Except.ok]
      rfl
  rw [if_neg hcm, if_neg hcm]
  by_cases hdt : (decodeId a.frame.id).pgn = kPgnTPDT
  · rw [if_pos hdt, if_pos hdt]
    cases hcell : swept (decodeId a.frame.id).src with
    | none => rfl
    | some sess =>
      have hadd := (hswept _ sess hcell).addSegmentChecked_eq a.time a.frame
      dsimp only
      rw [hadd, ok_bind]
      cases sess.addSegment a.time a.frame with
      | none => rfl
      | some sess' =>
        dsimp only
        rw [apply_ite Except.ok]
        rfl
  · rw [if_neg hdt, if_neg hdt]
    rfl

theorem bounded_openSession (h : openSession id now cf = some sess) : sess.Bounded := by
  obtain ⟨hmin, hmax, hnp, rfl⟩ := openSession_eq_some h
  exact ⟨hmin, hmax, hnp, Nat.le_of_lt_succ (UInt8.toNat_lt _), List.length_replicate,
    List.length_replicate, by simp [List.count_replicate], hnp⟩

/-- A further segment keeps a session that it does not complete within its bounds. -/
theorem BamSession.Bounded.addSegment (h : sess.Bounded)
    (hadd : sess.addSegment now cf = some sess')
    (hmissing : sess'.received ≠ sess'.numPackets) : sess'.Bounded := by
  obtain ⟨-, hlow, hhigh, hunset, rfl⟩ := BamSession.addSegment_eq_some hadd
  have hmark : (cf.data.getD 0 0).toNat - 1 < sess.seen.length := by
    rw [h.length_seen]
    omega
  have hlt := h.received_lt
  refine ⟨h.totalSize_ge, h.totalSize_le, h.numPackets_ge, h.numPackets_le, ?_, ?_, ?_, ?_⟩
  · simpa using h.length_buf
  · simpa using h.length_seen
  · simp only [count_true_set hmark hunset, h.received_eq]
  · dsimp only at hmissing ⊢
    omega

/-- An arrival leaves the session of its source within its bounds. -/
theorem bounded_actOnSession {cell : Option BamSession} (hcell : ∀ sess ∈ cell, sess.Bounded) :
    ∀ sess ∈ (actOnSession pgns a cell).1, sess.Bounded := by
  have hstep := sessionStep_actOnSession pgns a cell
  generalize actOnSession pgns a cell = out at hstep
  cases hstep with
  | opens hpgn ho =>
    rintro _ ⟨⟩
    exact bounded_openSession ho
  | adds hpgn hadd hmissing =>
    rintro _ ⟨⟩
    exact (hcell _ rfl).addSegment hadd hmissing
  | completes => exact fun _ h => by cases h
  | ignores => exact hcell

/-- So it does whatever has arrived. -/
theorem bounded_run (pgns : List PGN) (es : List Arrival) :
    ∀ src, ∀ sess ∈ (bamTable pgns).run noSessions es src, sess.Bounded :=
  (bamTable pgns).run_invariant (P := fun _ _ sess => sess.Bounded) (fun _ _ _ _ _ hp => hp)
    (fun _ _ _ sess hcell hsess => bounded_actOnSession hcell sess hsess) es

/-- Whatever frames have arrived, the table has at most 256 sessions, all of them within
their bounds, and no index that the next frame leads to is out of range. -/
theorem sessions_bounded (pgns : List PGN) (arrivals : List Arrival) :
    (sessionsAfter pgns arrivals).size ≤ kMaxBamSessions ∧
      (∀ src sess, sessionsAfter pgns arrivals src = some sess → sess.Bounded) ∧
      ∀ a, handleFrameChecked pgns (sessionsAfter pgns arrivals) a =
        .ok (handleFrame pgns (sessionsAfter pgns arrivals) a) := by
  have hbounded : ∀ src sess, sessionsAfter pgns arrivals src = some sess → sess.Bounded := by
    rw [sessionsAfter_eq_run]
    exact bounded_run pgns _
  refine ⟨?_, hbounded, handleFrameChecked_eq hbounded⟩
  exact (List.length_filter_le _ _).trans_eq (List.length_range ..)

end CppCan.J1939
