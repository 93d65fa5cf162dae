import CppCan.J1939.Pgn
import CppCan.Core.KeyedTable

/-!
# Reassembly of broadcast announcements

The receive loop keeps one session per source address. A `TP.CM_BAM` frame opens
or replaces the session of its source; `TP.DT` frames fill its buffer seven bytes
at a time and complete it when as many distinct segments have arrived as were
announced. Every extended frame first sweeps sessions that went silent.
-/

namespace CppCan.J1939

open CppCan.Core

/-- A reading of the steady clock, in nanoseconds. -/
abbrev TimePoint := Int

def kPgnTPCM : PGN := 0xEC00
def kPgnTPDT : PGN := 0xEB00
def kBAMControl : UInt8 := 0x20
def kTPMaxDataBytes : Nat := 1785
def kTPMinDataBytes : Nat := 9
def kTPBytesPerPacket : Nat := 7

/-- 750 ms without a fresh segment. -/
def kBamSessionTimeout : Int := 750000000

def kMaxBamSessions : Nat := 256

/-- A frame together with the clock reading at which the loop handles it. -/
structure Arrival where
  frame : CppCan.Frame
  time : TimePoint
  deriving DecidableEq, Repr

/-- The reassembly state of one source. -/
structure BamSession where
  totalSize : Nat
  numPackets : Nat
  pgn : PGN
  priority : Priority
  src : UInt8
  buf : List UInt8
  seen : List Bool
  received : Nat
  lastSeen : TimePoint
  deriving DecidableEq, Repr

/-- The session table: one optional session for each source address. -/
abbrev Sessions := UInt8 → Option BamSession

/-- The number of sessions in the table. -/
def Sessions.size (sessions : Sessions) : Nat :=
  ((List.range 256).filter fun i => (sessions (UInt8.ofNat i)).isSome).length

/-- Whether the sweep at `now` reclaims the session. -/
def BamSession.expired (now : TimePoint) (sess : BamSession) : Bool :=
  now - sess.lastSeen > kBamSessionTimeout

/-- Reclaim every session that has gone silent past the timeout. -/
def sweepExpired (now : TimePoint) (sessions : Sessions) : Sessions :=
  fun src => (sessions src).filter fun sess => !sess.expired now

/-- Total size announced by bytes 1 and 2. -/
def announcedTotal (cf : CppCan.Frame) : Nat :=
  (cf.data.getD 1 0).toNat ||| (cf.data.getD 2 0).toNat <<< 8

/-- Packet count announced by byte 3. -/
def announcedPackets (cf : CppCan.Frame) : Nat := (cf.data.getD 3 0).toNat

/-- Parameter group announced by bytes 5 to 7. -/
def announcedPgn (cf : CppCan.Frame) : PGN :=
  (cf.data.getD 5 0).toUInt32 ||| (cf.data.getD 6 0).toUInt32 <<< 8 |||
    (cf.data.getD 7 0).toUInt32 <<< 16

/-- The session a `TP.CM` frame announces, unless it is no BAM or its size or
packet count is out of range. -/
def openSession (id : DecodedID) (now : TimePoint) (cf : CppCan.Frame) : Option BamSession :=
  if cf.data.length < 8 || cf.data.getD 0 0 ≠ kBAMControl then none
  else
    let total := announcedTotal cf
    let np := announcedPackets cf
    if total < kTPMinDataBytes || total > kTPMaxDataBytes then none
    else if np ≤ 0 then none
    else
      some
        { totalSize := total, numPackets := np, pgn := announcedPgn cf, priority := id.priority,
          src := id.src, buf := List.replicate total 0, seen := List.replicate np false,
          received := 0, lastSeen := now }

/-- Store data byte `i` of a segment, unless its place lies past the end of the buffer. -/
def copyByte (totalSize offset : Nat) (data buf : List UInt8) (i : Nat) : List UInt8 :=
  let dst := offset + i - 1
  if dst < totalSize then buf.set dst (data.getD i 0) else buf

/-- Copy data bytes 1 to 7 to the buffer from `offset` on. -/
def copySegment (totalSize offset : Nat) (data buf : List UInt8) : List UInt8 :=
  (List.range' 1 kTPBytesPerPacket).foldl (copyByte totalSize offset data) buf

/-- The session after a `TP.DT` frame, unless the frame is short, out of range or a duplicate. -/
def BamSession.addSegment (sess : BamSession) (now : TimePoint) (cf : CppCan.Frame) :
    Option BamSession :=
  if cf.data.length < 8 then none
  else
    let seq := (cf.data.getD 0 0).toNat
    if seq < 1 || seq > sess.numPackets then none
    else if sess.seen.getD (seq - 1) false then none
    else
      some
        { sess with
          seen := sess.seen.set (seq - 1) true
          lastSeen := now
          buf := copySegment sess.totalSize ((seq - 1) * kTPBytesPerPacket) cf.data sess.buf
          received := sess.received + 1 }

/-- The message of a completed session. -/
def BamSession.message (sess : BamSession) : Frame :=
  { priority := sess.priority, pgn := sess.pgn, src := sess.src, dst := kBroadcastAddr,
    data := sess.buf }

/-- One pass of the loop: the table afterwards and the message handed to the
output channel, if any. -/
def handleFrame (pgns : List PGN) (sessions : Sessions) (a : Arrival) :
    Sessions × Option Frame :=
  let cf := a.frame
  if !cf.ext then (sessions, none)
  else
    let id := decodeId cf.id
    let swept := sweepExpired a.time sessions
    if id.pgn = kPgnTPCM then
      match openSession id a.time cf with
      | none => (swept, none)
      | some sess =>
        if (swept id.src).isNone && swept.size ≥ kMaxBamSessions then (swept, none)
        else (Function.update swept id.src (some sess), none)
    else if id.pgn = kPgnTPDT then
      match swept id.src with
      | none => (swept, none)
      | some sess =>
        match sess.addSegment a.time cf with
        | none => (swept, none)
        | some sess' =>
          if sess'.received = sess'.numPackets then
            (Function.update swept id.src none,
              if matchesPgns sess'.pgn pgns then some sess'.message else none)
          else (Function.update swept id.src (some sess'), none)
    else (swept, none)

/-- The table after a stream of arrivals. -/
def sessionsAfter (pgns : List PGN) (arrivals : List Arrival) : Sessions :=
  arrivals.foldl (fun sessions a => (handleFrame pgns sessions a).1) fun _ => none

/-- The messages handed over while `arrivals` are handled, in order. -/
def subscribeTp (pgns : List PGN) : Sessions → List Arrival → List Frame
  | _, [] => []
  | sessions, a :: arrivals =>
    (handleFrame pgns sessions a).2.toList ++
      subscribeTp pgns (handleFrame pgns sessions a).1 arrivals

/-- The loop's effect on the session of the frame's own source. -/
def actOnSession (pgns : List PGN) (a : Arrival) (cell : Option BamSession) :
    Option BamSession × Option Frame :=
  let id := decodeId a.frame.id
  if id.pgn = kPgnTPCM then
    match openSession id a.time a.frame with
    | none => (cell, none)
    | some sess => (some sess, none)
  else if id.pgn = kPgnTPDT then
    match cell with
    | none => (none, none)
    | some sess =>
      match sess.addSegment a.time a.frame with
      | none => (some sess, none)
      | some sess' =>
        if sess'.received = sess'.numPackets then
          (none, if matchesPgns sess'.pgn pgns then some sess'.message else none)
        else (some sess', none)
  else (cell, none)

/-- Sessions keyed by source address, without a bound on their number. -/
def bamTable (pgns : List PGN) : TableMachine UInt8 Arrival BamSession Frame TimePoint where
  key a := (decodeId a.frame.id).src
  time := Arrival.time
  expired := BamSession.expired
  act := actOnSession pgns

/-- A table with a free cell is below the cap: there are only 256 addresses. -/
theorem Sessions.size_lt_of_none {sessions : Sessions} {src : UInt8} (h : sessions src = none) :
    sessions.size < kMaxBamSessions := by
  have hmem : src.toNat ∈ List.range 256 := List.mem_range.mpr src.toNat_lt
  have hfree : ¬ (sessions (UInt8.ofNat src.toNat)).isSome = true := by simp [h]
  have hlt : sessions.size < (List.range 256).length :=
    List.length_filter_lt_length_iff_exists.mpr ⟨src.toNat, hmem, hfree⟩
  rwa [List.length_range] at hlt

/-- The cap never rejects an announcement, so an extended frame acts on its own
source's cell alone. -/
theorem handleFrame_of_ext (pgns : List PGN) (sessions : Sessions) {a : Arrival}
    (hext : a.frame.ext = true) :
    handleFrame pgns sessions a = (bamTable pgns).step sessions a := by
  have hcap : ((sweepExpired a.time sessions (decodeId a.frame.id).src).isNone &&
      decide ((sweepExpired a.time sessions).size ≥ kMaxBamSessions)) = false := by
    cases hc : sweepExpired a.time sessions (decodeId a.frame.id).src with
    | none => simpa using Sessions.size_lt_of_none hc
    | some sess => rfl
  have hstep : (bamTable pgns).step sessions a =
      (Function.update (sweepExpired a.time sessions) (decodeId a.frame.id).src
        (actOnSession pgns a (sweepExpired a.time sessions (decodeId a.frame.id).src)).1,
      (actOnSession pgns a (sweepExpired a.time sessions (decodeId a.frame.id).src)).2) := rfl
  rw [hstep]
  simp only [handleFrame, hext, Bool.not_true, Bool.false_eq_true, ite_false, actOnSession, hcap]
  generalize sweepExpired a.time sessions = swept
  by_cases hcm : (decodeId a.frame.id).pgn = kPgnTPCM
  · simp only [hcm, ite_true]
    cases openSession (decodeId a.frame.id) a.time a.frame with
    | none => simp only [Function.update_eq_self]
    | some sess => rfl
  · simp only [hcm, ite_false]
    by_cases hdt : (decodeId a.frame.id).pgn = kPgnTPDT
    · simp only [hdt, ite_true]
      cases hcell : swept (decodeId a.frame.id).src with
      | none =>
        have hself : Function.update swept (decodeId a.frame.id).src none = swept := by
          rw [← hcell, Function.update_eq_self]
        simp only [hself]
      | some sess =>
        have hself : Function.update swept (decodeId a.frame.id).src (some sess) = swept := by
          rw [← hcell, Function.update_eq_self]
        cases hadd : sess.addSegment a.time a.frame with
        | none => simp only [hadd, hself]
        | some sess' =>
          by_cases hdone : sess'.received = sess'.numPackets <;>
            simp only [hadd, hdone, ite_true, ite_false]
    · simp only [hdt, ite_false, Function.update_eq_self]

/-- Frames with a standard identifier are skipped before the sweep. -/
theorem handleFrame_of_not_ext (pgns : List PGN) (sessions : Sessions) {a : Arrival}
    (hext : a.frame.ext = false) : handleFrame pgns sessions a = (sessions, none) := by
  simp [handleFrame, hext]

/-- The four outcomes of an arrival: it opens a session, adds a segment, completes
the session, or leaves it alone. -/
inductive SessionStep (pgns : List PGN) (a : Arrival) :
    Option BamSession → Option BamSession × Option Frame → Prop
  | opens {cell sess} : (decodeId a.frame.id).pgn = kPgnTPCM →
      openSession (decodeId a.frame.id) a.time a.frame = some sess →
      SessionStep pgns a cell (some sess, none)
  | adds {sess sess'} : (decodeId a.frame.id).pgn = kPgnTPDT →
      sess.addSegment a.time a.frame = some sess' → sess'.received ≠ sess'.numPackets →
      SessionStep pgns a (some sess) (some sess', none)
  | completes {sess sess'} : (decodeId a.frame.id).pgn = kPgnTPDT →
      sess.addSegment a.time a.frame = some sess' → sess'.received = sess'.numPackets →
      SessionStep pgns a (some sess)
        (none, if matchesPgns sess'.pgn pgns then some sess'.message else none)
  | ignores {cell} : ((decodeId a.frame.id).pgn = kPgnTPCM →
      openSession (decodeId a.frame.id) a.time a.frame = none) →
      SessionStep pgns a cell (cell, none)

/-- Every action of the loop is one of the four outcomes. -/
theorem sessionStep_actOnSession (pgns : List PGN) (a : Arrival) (cell : Option BamSession) :
    SessionStep pgns a cell (actOnSession pgns a cell) := by
  unfold actOnSession
  by_cases hcm : (decodeId a.frame.id).pgn = kPgnTPCM
  · simp only [hcm, ite_true]
    cases ho : openSession (decodeId a.frame.id) a.time a.frame with
    | none => exact .ignores fun _ => ho
    | some sess => exact .opens hcm ho
  · simp only [hcm, ite_false]
    by_cases hdt : (decodeId a.frame.id).pgn = kPgnTPDT
    · simp only [hdt, ite_true]
      cases cell with
      | none => exact .ignores fun h => absurd h hcm
      | some sess =>
        cases hadd : sess.addSegment a.time a.frame with
        | none => simpa only [hadd] using .ignores fun h => absurd h hcm
        | some sess' =>
          by_cases hdone : sess'.received = sess'.numPackets
          · simpa only [hadd, hdone, ite_true] using .completes hdt hadd hdone
          · simpa only [hadd, hdone, ite_false] using .adds hdt hadd hdone
    · simp only [hdt, ite_false]
      exact .ignores fun h => absurd h hcm

/-- An accepted announcement, field by field. -/
theorem openSession_eq_some {id : DecodedID} {now : TimePoint} {cf : CppCan.Frame}
    {sess : BamSession} (h : openSession id now cf = some sess) :
    kTPMinDataBytes ≤ announcedTotal cf ∧ announcedTotal cf ≤ kTPMaxDataBytes ∧
      0 < announcedPackets cf ∧
      sess = ⟨announcedTotal cf, announcedPackets cf, announcedPgn cf, id.priority, id.src,
        List.replicate (announcedTotal cf) 0, List.replicate (announcedPackets cf) false, 0,
        now⟩ := by
  unfold openSession at h
  split at h
  · cases h
  · simp only at h
    split at h
    · cases h
    · rename_i hrange
      split at h
      · cases h
      · rename_i hnp
        simp only [Bool.or_eq_true, decide_eq_true_eq, not_or, not_lt] at hrange
        exact ⟨hrange.1, hrange.2, by omega, (Option.some.inj h).symm⟩

/-- An accepted segment is complete, in range and new; it updates exactly its
own part of the buffer and its own mark. -/
theorem BamSession.addSegment_eq_some {sess sess' : BamSession} {now : TimePoint}
    {cf : CppCan.Frame} (h : sess.addSegment now cf = some sess') :
    8 ≤ cf.data.length ∧ 1 ≤ (cf.data.getD 0 0).toNat ∧
      (cf.data.getD 0 0).toNat ≤ sess.numPackets ∧
      sess.seen.getD ((cf.data.getD 0 0).toNat - 1) false = false ∧
      sess' = { sess with
        seen := sess.seen.set ((cf.data.getD 0 0).toNat - 1) true
        lastSeen := now
        buf := copySegment sess.totalSize
          (((cf.data.getD 0 0).toNat - 1) * kTPBytesPerPacket) cf.data sess.buf
        received := sess.received + 1 } := by
  unfold addSegment at h
  split at h
  · cases h
  · rename_i hlen
    simp only at h
    split at h
    · cases h
    · rename_i hseq
      split at h
      · cases h
      · rename_i hseen
        simp only [Bool.or_eq_true, decide_eq_true_eq, not_or, not_lt] at hseq
        exact ⟨by omega, hseq.1, hseq.2, by simpa using hseen, (Option.some.inj h).symm⟩

@[simp] theorem length_copyByte (totalSize offset : Nat) (data buf : List UInt8) (i : Nat) :
    (copyByte totalSize offset data buf i).length = buf.length := by
  unfold copyByte
  dsimp only
  split <;> simp only [List.length_set]

theorem length_foldl_copyByte (totalSize offset : Nat) (data buf : List UInt8) (is : List Nat) :
    (is.foldl (copyByte totalSize offset data) buf).length = buf.length := by
  induction is generalizing buf with
  | nil => rfl
  | cons i is ih => rw [List.foldl_cons, ih, length_copyByte]

@[simp] theorem length_copySegment (totalSize offset : Nat) (data buf : List UInt8) :
    (copySegment totalSize offset data buf).length = buf.length := length_foldl_copyByte ..

/-- One stored byte changes one place of the buffer. -/
theorem getD_copyByte {totalSize offset : Nat} {data buf : List UInt8} (n : Nat)
    (hbuf : buf.length = totalSize) {j : Nat} (hj : j < totalSize) :
    (copyByte totalSize offset data buf (n + 1)).getD j 0 =
      if j = offset + n then data.getD (n + 1) 0 else buf.getD j 0 := by
  have hdst : offset + (n + 1) - 1 = offset + n := by omega
  simp only [copyByte, hdst]
  by_cases hlast : j = offset + n
  · subst hlast
    simp only [hj, ite_true, List.getD_eq_getElem?_getD, List.getElem?_set_self (hbuf ▸ hj),
      Option.getD_some]
  · simp only [hlast, ite_false]
    split
    · simp only [List.getD_eq_getElem?_getD, List.getElem?_set_ne (Ne.symm hlast)]
    · rfl

/-- A copied segment replaces seven buffer bytes, as far as the buffer reaches. -/
theorem getD_copySegment {totalSize offset : Nat} {data buf : List UInt8}
    (hbuf : buf.length = totalSize) {j : Nat} (hj : j < totalSize) :
    (copySegment totalSize offset data buf).getD j 0 =
      if offset ≤ j ∧ j < offset + kTPBytesPerPacket then data.getD (1 + (j - offset)) 0
      else buf.getD j 0 := by
  -- the first `n` data bytes land at `offset`, ..., `offset + n - 1`
  have hpart (n : Nat) :
      ((List.range' 1 n).foldl (copyByte totalSize offset data) buf).getD j 0 =
        if offset ≤ j ∧ j < offset + n then data.getD (1 + (j - offset)) 0
        else buf.getD j 0 := by
    induction n with
    | zero => simp
    | succ n ih =>
      have hlen : ((List.range' 1 n).foldl (copyByte totalSize offset data) buf).length =
          totalSize := (length_foldl_copyByte ..).trans hbuf
      rw [List.range'_1_concat, List.foldl_append, List.foldl_cons, List.foldl_nil,
        Nat.add_comm 1 n, getD_copyByte n hlen hj, ih]
      by_cases hlast : j = offset + n
      · subst hlast
        simp [Nat.add_comm 1 n]
      · have hiff : (offset ≤ j ∧ j < offset + (n + 1)) ↔ (offset ≤ j ∧ j < offset + n) := by omega
        simp only [hlast, ite_false, hiff]
  exact hpart kTPBytesPerPacket

end CppCan.J1939
