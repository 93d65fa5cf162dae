import CppCan.IsoTp.Agreement
import CppCan.IsoTp.Emissions

/-!
# Aborted transfers

When waits may be given up at any time, the frames of aborted transfers stay
queued. The frames of a sender always form a stream in which consecutive frames
continue the last first frame. A receiver that drops a first frame while it
waits for a consecutive one goes on with the frames of another message. If it
never does, it returns only payloads that were sent.
-/

namespace CppCan.IsoTp

open CppCan.Core CppCan.Relay Relation

/-- The payload of the last first frame and how far it has been sent since; none
after a single frame. -/
abbrev Transfer := Option (List UInt8 × Nat)

/-- The streams a sender of `payloads` emits. -/
inductive Feeds (cfg : Config) (payloads : List (List UInt8)) : Transfer → Frame → Transfer → Prop
  | single {q : Transfer} {p : List UInt8} (hp : p ∈ payloads) (hne : p ≠ [])
      (hlen : p.length ≤ 7) : Feeds cfg payloads q (singleFrame cfg p) none
  | first {q : Transfer} {p : List UInt8} (hp : p ∈ payloads) (hlen : 8 ≤ p.length)
      (hmax : p.length ≤ kMaxPayload) : Feeds cfg payloads q (firstFrame cfg p) (some (p, 6))
  | consecutive {p : List UInt8} {offset : Nat} {sn : UInt8} (h : offset < p.length) :
      Feeds cfg payloads (some (p, offset)) (consecutiveFrame cfg p offset sn)
        (some (p, nextOffset p offset))

/-- The frame opens a transfer. -/
def isFirstFrame (f : Frame) : Bool := f.data.getD 0 0 &&& 0xF0 == kTypeFF

variable {cfg peer : Config} {payloads : List (List UInt8)} {payload : List UInt8} {q : Transfer}

/-- Whatever a sender receives and wherever it gives up, its frames are such a stream. -/
theorem emits_feeds (hp : payload ∈ payloads) (q : Transfer) :
    (send cfg payload).Emits (Feeds cfg payloads) (fun _ _ => True) q := by
  refine emits_send (fun offset => some (payload, offset)) ?_ ?_ ?_
  · exact fun hne hlen => ⟨none, .single hp hne hlen⟩
  · exact fun hlen hmax => .first hp hlen hmax
  · exact fun offset sn h => .consecutive h

/-- A result that is an error or one of the payloads. -/
def Sent (payloads : List (List UInt8)) (r : Except ErrorCode (List UInt8)) : Prop :=
  ∀ p, r = .ok p → p ∈ payloads

theorem isFirstFrame_firstFrame : isFirstFrame (firstFrame cfg payload) = true := by
  simp only [isFirstFrame, type_firstFrame, beq_self_eq_true]

/-- Only the low bits of a sequence number are sent. -/
theorem consecutiveFrame_congr {offset : Nat} {sn sn' : UInt8} (h : sn &&& 0x0F = sn' &&& 0x0F) :
    consecutiveFrame cfg payload offset sn = consecutiveFrame cfg payload offset sn' := by
  simp only [consecutiveFrame, consecutiveData, h]

/-- A consecutive frame with another number is refused. -/
theorem onSegment_number {timeout rounds offset cfInBlock : Nat} {buf : List UInt8} {sn sn' : UInt8}
    {length : Nat} (h : sn' &&& 0x0F ≠ sn &&& 0x0F) :
    onSegment cfg timeout length rounds buf sn cfInBlock
        (.ok (consecutiveFrame peer payload offset sn')) =
      .ret (.error (.generic .badMessage)) := by
  simp only [onSegment, consecutiveFrame, makeFrame, consecutiveData, List.getD_cons_zero,
    (pci_consecutive sn').2]
  rw [if_pos h]

/-- A consecutive frame does not begin a message. -/
theorem onFirst_consecutive {timeout offset : Nat} {sn : UInt8} :
    onFirst cfg timeout (.ok (consecutiveFrame peer payload offset sn)) =
      .ret (.error (.generic .badMessage)) := by
  have hsf : kTypeCF ≠ kTypeSF := by decide
  have hff : kTypeCF ≠ kTypeFF := by decide
  simp only [onFirst, consecutiveFrame, makeFrame, consecutiveData, (pci_consecutive sn).1]
  rw [if_neg hsf, if_neg hff]

/-- An error is not a payload. -/
theorem sent_error (err : ErrorCode) : Sent payloads (.error err) := by
  intro p h
  exact absurd h (by simp)

/-- In the transfer of a payload the loop returns that payload or an error. -/
theorem reads_recvLoop {timeout : Nat} (hp : payload ∈ payloads) (rounds offset : Nat) (sn : UInt8)
    (cfInBlock : Nat) (h : payload.length ≤ offset + rounds) :
    (recvLoop cfg timeout payload.length rounds (payload.take offset) sn cfInBlock).Reads
      (Feeds peer payloads) isFirstFrame (Sent payloads) (some (payload, offset)) := by
  induction rounds generalizing offset sn cfInBlock with
  | zero =>
    rw [recvLoop_of_le (by rw [List.length_take]; omega), List.take_of_length_le (by omega)]
    intro p hpe
    exact Except.ok.inj hpe ▸ hp
  | succ rounds ih =>
    by_cases hoff : offset < payload.length
    · have hnext : payload.length ≤ nextOffset payload offset + rounds := by
        simp only [nextOffset]
        omega
      rw [recvLoop_of_lt (by rw [List.length_take]; omega)]
      -- A single frame may be dropped; nothing can follow it but a first frame.
      refine ⟨fun q => q = some (payload, offset) ∨ q = none, .inl rfl, fun q hq => ⟨?_, ?_⟩⟩
      · exact fun err => sent_error err
      · rintro m q' (⟨hm, hne, hlen⟩ | ⟨hm, hlen, hmax⟩ | ⟨hlt⟩)
        · exact ⟨fun hc => absurd hc (by simp [not_isConsecutive_singleFrame hlen]),
            fun _ _ => .inr rfl⟩
        · exact ⟨fun hc => absurd hc (by simp [not_isConsecutive_firstFrame]),
            fun _ hbar => absurd hbar (by simp [isFirstFrame_firstFrame])⟩
        · rename_i p off sn'
          obtain ⟨rfl, rfl⟩ : p = payload ∧ off = offset := by simpa using hq
          refine ⟨fun _ => ?_, fun hc => absurd hc (by simp [isConsecutive_consecutiveFrame])⟩
          by_cases hsn : sn' &&& 0x0F = sn &&& 0x0F
          · rw [consecutiveFrame_congr hsn, onSegment_consecutive peer hoff, afterSegment]
            split_ifs
            · intro err
              cases err with
              | some err => exact sent_error err
              | none => exact ih _ _ _ hnext
            · exact ih _ _ _ hnext
            · exact ih _ _ _ hnext
          · rw [onSegment_number hsn]
            exact sent_error _
    · rw [recvLoop_of_le (by rw [List.length_take]; omega), List.take_of_length_le (by omega)]
      intro p hpe
      exact Except.ok.inj hpe ▸ hp

/-- Wherever a receiver begins in the stream, it returns a payload that was sent or an error. -/
theorem reads_recv {timeout : Nat} (q : Transfer) :
    (recv cfg timeout).Reads (Feeds peer payloads) isFirstFrame (Sent payloads) q := by
  rw [recv_eq]
  refine ⟨fun _ => True, trivial, fun q _ => ⟨fun err => sent_error err, ?_⟩⟩
  rintro m q' (⟨hm, hne, hlen⟩ | ⟨hm, hlen, hmax⟩ | ⟨hlt⟩)
  · refine ⟨fun _ => ?_, fun h => absurd h (by simp)⟩
    rw [onFirst_single hne hlen]
    intro p hp
    exact Except.ok.inj hp ▸ hm
  · refine ⟨fun _ => ?_, fun h => absurd h (by simp)⟩
    rw [onFirst_first hmax]
    intro err
    cases err with
    | some err => exact sent_error err
    | none => exact reads_recvLoop hm _ 6 1 0 (by omega)
  · refine ⟨fun _ => ?_, fun h => absurd h (by simp)⟩
    rw [onFirst_consecutive]
    exact sent_error _

/-- A sender passes payloads to `send` one after another while its peer calls `recv` `n` times. -/
def conversation (sender receiver : Config) (timeout : Nat) (payloads : List (List UInt8))
    (n : Nat) : Exchange where
  left := { calls := payloads.map (send sender) }
  right := { calls := List.replicate n (recv receiver timeout) }

/-- In every run in which no wait for a consecutive frame drops a first frame, every
payload that is received was sent. -/
theorem received_was_sent (sender receiver : Config) (timeout : Nat) (payloads : List (List UInt8))
    (n : Nat) (t : Exchange)
    (h : ReflTransGen (Duplex.Steps (.relay .timeout) (Duplex.spares isFirstFrame))
      (conversation sender receiver timeout payloads n) t) :
    ∀ p, .ok p ∈ t.right.results → p ∈ payloads := by
  have hsend : ∀ c ∈ payloads.map (send sender), ∀ q : Transfer,
      c.Emits (Feeds sender payloads) (fun _ _ => True) q := by
    intro c hc q
    obtain ⟨payload, hmem, rfl⟩ := List.mem_map.mp hc
    exact emits_feeds hmem q
  have hrecv : ∀ c ∈ List.replicate n (recv receiver timeout), ∀ q : Transfer,
      c.Reads (Feeds sender payloads) isFirstFrame (Sent payloads) q := by
    intro c hc q
    obtain rfl := List.eq_of_mem_replicate hc
    exact reads_recv q
  intro p hp
  exact Duplex.results_good none hsend hrecv h _ hp p rfl

/-- The configurations of two peers. -/
def peers : Config × Config := ({ txId := 0x7E0, rxId := 0x7E8 }, { txId := 0x7E8, rxId := 0x7E0 })

/-- The frames of one message of eight bytes are handed over one by one. -/
theorem received_was_sent_eight :
    ∃ t : Exchange, t.right.results = [.ok [1, 2, 3, 4, 5, 6, 7, 8]] ∧
      ∀ p, .ok p ∈ t.right.results → p ∈ [[1, 2, 3, 4, 5, 6, 7, 8]] := by
  obtain ⟨t, ht⟩ : ∃ t, (conversation peers.1 peers.2 250 [[1, 2, 3, 4, 5, 6, 7, 8]] 1).run
      (.relay .timeout) (Duplex.spares isFirstFrame) [.advance .left, .advance .right,
        .advance .right, .advance .left, .advance .left, .advance .right, .advance .right] =
      some t := ⟨_, rfl⟩
  refine ⟨t, ?_, received_was_sent peers.1 peers.2 250 _ 1 t (Duplex.steps_of_run ht)⟩
  obtain rfl := Option.some.inj ht
  rfl

/-- The first transfer is given up after its first frame; the receiver drops the second
first frame and completes the first message with the bytes of the second. -/
theorem received_not_sent :
    ¬ ∀ t, ReflTransGen (Duplex.Steps (.relay .timeout) fun _ _ => true)
        (conversation peers.1 peers.2 250
          [[1, 2, 3, 4, 5, 6, 7, 8], [11, 12, 13, 14, 15, 16, 17, 18]] 1) t →
      ∀ p, .ok p ∈ t.right.results →
        p ∈ [[1, 2, 3, 4, 5, 6, 7, 8], [11, 12, 13, 14, 15, 16, 17, 18]] := by
  intro h
  obtain ⟨t, ht⟩ : ∃ t, (conversation peers.1 peers.2 250
      [[1, 2, 3, 4, 5, 6, 7, 8], [11, 12, 13, 14, 15, 16, 17, 18]] 1).run
      (.relay .timeout) (fun _ _ => true) [.advance .left, .expire .left, .advance .left,
        .advance .left, .advance .right, .advance .right, .advance .left, .advance .left,
        .advance .right, .advance .right, .advance .right] = some t := ⟨_, rfl⟩
  have hres : t.right.results = [.ok [1, 2, 3, 4, 5, 6, 17, 18]] := by
    obtain rfl := Option.some.inj ht
    rfl
  have hmem := h t (Duplex.steps_of_run ht) [1, 2, 3, 4, 5, 6, 17, 18] (by simp [hres])
  exact absurd hmem (by decide)

end CppCan.IsoTp
