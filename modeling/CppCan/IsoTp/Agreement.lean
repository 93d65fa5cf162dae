import CppCan.Core.Duplex
import CppCan.IsoTp.Segmentation

/-!
# One message between two connections

The sender counts consecutive frames up to the block size, the last one of the
message included; the receiver asks for the next block only while data is
missing. The two agree unless the last frame completes a block: then the
receiver has the message and the sender waits for a flow control that never
comes.
-/

namespace CppCan.IsoTp

open CppCan.Core CppCan.Relay Relation

/-- Two connections joined by a lossless bus. -/
abbrev Exchange := Duplex Frame ErrorCode (Option ErrorCode) (Except ErrorCode (List UInt8))

/-- One call of `send` and one call of the peer's `recv`. -/
def exchange (sender receiver : Config) (timeout : Nat) (payload : List UInt8) : Exchange where
  left := { calls := [send sender payload] }
  right := { calls := [recv receiver timeout] }

/-- Both calls have returned: the send with success, the receive with the payload. -/
def Agreed (payload : List UInt8) (s : Exchange) : Prop :=
  s.left.Returned [none] ∧ s.right.Returned [.ok payload]

/-- The receiver has returned the payload. The sender has succeeded or, if
`waits` holds, waits for flow control with nothing in its inbox. -/
structure Outcome (payload : List UInt8) (waits : Prop) (t : Exchange) : Prop where
  received : t.right = ⟨[], [], [.ok payload]⟩
  waiting : waits → ∃ limit k, t.left = ⟨[], [.await limit isFlowControl k], []⟩ ∧
    ∀ err, k (.error err) = .ret (some err)
  sent : ¬ waits → t.left = ⟨[], [], [none]⟩

/-- The outcome depends on the condition only. -/
theorem Outcome.congr {payload : List UInt8} {p q : Prop} {t : Exchange} (h : Outcome payload p t)
    (hpq : p ↔ q) : Outcome payload q t :=
  ⟨h.received, fun hq => h.waiting (hpq.mpr hq), fun hq => h.sent (mt hpq.mp hq)⟩

variable {sender receiver : Config} {timeout : Nat} {payload : List UInt8}
  {rounds rounds' offset blockCount cfInBlock : Nat} {sn : UInt8}

/-- Consecutive frames still to come. -/
def segmentsLeft (payload : List UInt8) (offset : Nat) : Nat := (payload.length - offset + 6) / 7

/-- The separation time passes. -/
theorem paced_run {fcData : List UInt8} {c : Call (Option ErrorCode)}
    {r : Station Frame ErrorCode (Except ErrorCode (List UInt8))} :
    ReflTransGen Duplex.Progress ⟨⟨[], [paced fcData c], []⟩, r⟩ ⟨⟨[], [c], []⟩, r⟩ := by
  unfold paced
  split_ifs
  · exact .single (Duplex.progress_iff.mpr (.inl ⟨_, _, .pause rfl, rfl⟩))
  · exact .refl

/-- The sender waits for the next flow control where a block of the receiver is complete. -/
theorem afterConsecutive_due (h0 : receiver.blockSize ≠ 0)
    (hge : receiver.blockSize.toNat ≤ blockCount) :
    afterConsecutive sender payload rounds offset sn blockCount (flowControl receiver).data =
      .await sender.timeout isFlowControl fun
      | .error err => .ret (some err)
      | .ok fc => paced fc.data (sendLoop sender payload rounds offset sn 0 fc.data) :=
  if_pos ⟨UInt8.pos_iff_ne_zero.mpr h0, hge⟩

/-- The sender goes on where no block of the receiver is complete. -/
theorem afterConsecutive_not_due
    (h : receiver.blockSize ≠ 0 → blockCount < receiver.blockSize.toNat) :
    afterConsecutive sender payload rounds offset sn blockCount (flowControl receiver).data =
      paced (flowControl receiver).data
        (sendLoop sender payload rounds offset sn blockCount (flowControl receiver).data) :=
  if_neg fun hdue => Nat.not_le.mpr (h (UInt8.pos_iff_ne_zero.mp hdue.1)) hdue.2

/-- Both calls at the head of their loops. -/
def loopHeads (sender receiver : Config) (timeout : Nat) (payload : List UInt8)
    (rounds rounds' offset : Nat) (sn : UInt8) (blockCount cfInBlock : Nat) : Exchange where
  left := { calls :=
    [sendLoop sender payload rounds offset sn blockCount (flowControl receiver).data] }
  right := { calls :=
    [recvLoop receiver timeout payload.length rounds' (payload.take offset) sn cfInBlock] }

/-- Both calls after a consecutive frame was handed over. -/
def loopTails (sender receiver : Config) (timeout : Nat) (payload : List UInt8)
    (rounds rounds' offset : Nat) (sn : UInt8) (blockCount cfInBlock : Nat) : Exchange where
  left := { calls :=
    [afterConsecutive sender payload rounds offset sn blockCount (flowControl receiver).data] }
  right := { calls :=
    [afterSegment receiver timeout payload.length rounds' (payload.take offset) sn cfInBlock] }

section Rounds

variable (sender receiver : Config) (timeout : Nat) (payload : List UInt8)
  (rounds rounds' : Nat) (sn : UInt8) {offset blockCount cfInBlock : Nat}

/-- One consecutive frame is handed over. -/
theorem segment_run (blockCount cfInBlock : Nat) (h : offset < payload.length) :
    ReflTransGen Duplex.Progress
      (loopHeads sender receiver timeout payload (rounds + 1) (rounds' + 1) offset sn blockCount
        cfInBlock)
      (loopTails sender receiver timeout payload rounds rounds' (nextOffset payload offset) (sn + 1)
        (blockCount + 1) cfInBlock) := by
  have hs : fcStatus (flowControl receiver).data ≠ kFCWait := by
    rw [fcStatus_flowControl]
    decide
  have hbuf : (payload.take offset).length < payload.length := by
    rw [List.length_take]
    omega
  rw [loopHeads, loopTails, sendLoop_of_lt h hs, recvLoop_of_lt hbuf,
    ← onSegment_consecutive sender h]
  exact Duplex.handOver_right isConsecutive_consecutiveFrame

/-- The last consecutive frame ends the exchange. -/
theorem last_run (h : payload.length ≤ offset)
    (hb : receiver.blockSize ≠ 0 → blockCount ≤ receiver.blockSize.toNat) :
    ∃ t, ReflTransGen Duplex.Progress
      (loopTails sender receiver timeout payload rounds rounds' offset sn blockCount cfInBlock) t ∧
      Outcome payload (receiver.blockSize ≠ 0 ∧ blockCount = receiver.blockSize.toNat) t := by
  have htake : payload.take offset = payload := List.take_of_length_le h
  rw [loopTails, afterSegment, if_neg (by simp [htake]), htake, recvLoop_of_le le_rfl]
  have hret : ∀ l, ReflTransGen Duplex.Progress ⟨l, ⟨[], [.ret (.ok payload)], []⟩⟩
      (⟨l, ⟨[], [], [.ok payload]⟩⟩ : Exchange) := fun l =>
    .single (Duplex.progress_iff.mpr (.inr ⟨_, _, .ret rfl, rfl⟩))
  by_cases hdue : receiver.blockSize ≠ 0 ∧ blockCount = receiver.blockSize.toNat
  · refine ⟨_, hret _, rfl, fun _ => ⟨sender.timeout, ?_⟩, fun hn => absurd hdue hn⟩
    rw [afterConsecutive_due hdue.1 hdue.2.ge]
    exact ⟨_, rfl, fun _ => rfl⟩
  · refine ⟨⟨⟨[], [], [none]⟩, ⟨[], [], [.ok payload]⟩⟩, .trans (hret _) ?_, rfl,
      fun hd => absurd hd hdue, fun _ => rfl⟩
    rw [afterConsecutive_not_due fun hne => lt_of_le_of_ne (hb hne) fun he => hdue ⟨hne, he⟩,
      sendLoop_of_le h]
    exact .trans paced_run (.single (Duplex.progress_iff.mpr (.inl ⟨_, _, .ret rfl, rfl⟩)))

/-- While data is missing both sides agree on where the next block begins. -/
theorem block_run (h : offset < payload.length)
    (hb : receiver.blockSize ≠ 0 → blockCount = cfInBlock ∧ cfInBlock < receiver.blockSize.toNat) :
    ∃ b c, (receiver.blockSize ≠ 0 → b = c ∧ c < receiver.blockSize.toNat ∧
        ∀ n, receiver.blockSize.toNat ∣ c + n ↔ receiver.blockSize.toNat ∣ cfInBlock + (n + 1)) ∧
      ReflTransGen Duplex.Progress
        (loopTails sender receiver timeout payload rounds rounds' offset sn (blockCount + 1)
          cfInBlock)
        (loopHeads sender receiver timeout payload rounds rounds' offset sn b c) := by
  have hbuf : (payload.take offset).length < payload.length := by
    rw [List.length_take]
    omega
  simp only [loopTails, loopHeads]
  by_cases h0 : receiver.blockSize = 0
  · refine ⟨blockCount + 1, cfInBlock, fun hne => absurd h0 hne, ?_⟩
    rw [afterConsecutive_not_due fun hne => absurd h0 hne, afterSegment, if_neg (by simp [h0])]
    exact paced_run
  obtain ⟨rfl, hlt⟩ := hb h0
  by_cases hfull : blockCount + 1 = receiver.blockSize.toNat
  · refine ⟨0, 0, fun _ => ⟨rfl, by omega, fun n => ?_⟩, ?_⟩
    · rw [Nat.zero_add, show blockCount + (n + 1) = receiver.blockSize.toNat + n by omega]
      exact (Nat.dvd_add_right (dvd_refl _)).symm
    · rw [afterConsecutive_due h0 hfull.ge, afterSegment, if_pos ⟨h0, hbuf⟩, if_pos hfull]
      exact .trans (Duplex.handOver_left isFlowControl_flowControl) paced_run
  · refine ⟨blockCount + 1, blockCount + 1, fun _ => ⟨rfl, by omega, fun n => ?_⟩, ?_⟩
    · rw [show blockCount + 1 + n = blockCount + (n + 1) by omega]
    · rw [afterConsecutive_not_due fun _ => by omega, afterSegment, if_pos ⟨h0, hbuf⟩, if_neg hfull]
      exact paced_run

/-- From any round on the exchange has one possible outcome. -/
theorem loop_run (h : offset < payload.length) (hrounds : payload.length ≤ offset + rounds)
    (hrounds' : payload.length ≤ offset + rounds')
    (hb : receiver.blockSize ≠ 0 → blockCount = cfInBlock ∧ cfInBlock < receiver.blockSize.toNat) :
    ∃ t, ReflTransGen Duplex.Progress
      (loopHeads sender receiver timeout payload rounds rounds' offset sn blockCount cfInBlock) t ∧
      Outcome payload (receiver.blockSize ≠ 0 ∧
        receiver.blockSize.toNat ∣ cfInBlock + segmentsLeft payload offset) t := by
  induction rounds generalizing rounds' offset sn blockCount cfInBlock with
  | zero => omega
  | succ rounds ih =>
    obtain ⟨rounds', rfl⟩ : ∃ r, rounds' = r + 1 := ⟨rounds' - 1, by omega⟩
    have hnext : nextOffset payload offset = offset + min 7 (payload.length - offset) := rfl
    have hsegment := segment_run sender receiver timeout payload rounds rounds' sn
      blockCount cfInBlock h
    by_cases hlast : payload.length ≤ nextOffset payload offset
    · have hone : segmentsLeft payload offset = 1 := by
        simp only [segmentsLeft]
        omega
      have hle : receiver.blockSize ≠ 0 → blockCount + 1 ≤ receiver.blockSize.toNat := by
        intro hne
        obtain ⟨rfl, hlt⟩ := hb hne
        exact hlt
      obtain ⟨t, ht, hout⟩ := last_run sender receiver timeout payload rounds rounds' (sn + 1) hlast
        hle
      refine ⟨t, .trans hsegment ht, hout.congr (and_congr_right fun hne => ?_)⟩
      obtain ⟨rfl, hlt⟩ := hb hne
      rw [hone]
      exact ⟨fun he => he ▸ dvd_refl _, fun hd => le_antisymm hlt (Nat.le_of_dvd (by omega) hd)⟩
    · obtain ⟨b, c, hbc, hrun⟩ := block_run sender receiver timeout payload rounds rounds' (sn + 1)
        (Nat.not_le.mp hlast) hb
      obtain ⟨t, ht, hout⟩ := ih rounds' (sn + 1) (Nat.not_le.mp hlast)
        (by omega) (by omega) (fun hne => ⟨(hbc hne).1, (hbc hne).2.1⟩)
      refine ⟨t, .trans hsegment (.trans hrun ht), hout.congr (and_congr_right fun hne => ?_)⟩
      have hleft : segmentsLeft payload offset =
          segmentsLeft payload (nextOffset payload offset) + 1 := by
        simp only [segmentsLeft]
        omega
      rw [hleft]
      exact (hbc hne).2.2 _

/-- The exchange of a payload of at least eight bytes has one possible outcome. -/
theorem exchange_run (hlen : 8 ≤ payload.length) (hmax : payload.length ≤ kMaxPayload) :
    ∃ t, ReflTransGen Duplex.Progress (exchange sender receiver timeout payload) t ∧
      Outcome payload
        (receiver.blockSize ≠ 0 ∧ receiver.blockSize.toNat ∣ segmentsLeft payload 6) t := by
  obtain ⟨t, ht, hout⟩ := loop_run sender receiver timeout payload payload.length payload.length 1
    (show 6 < payload.length by omega) (by omega) (by omega)
    (fun hne => ⟨rfl, UInt8.lt_iff_toNat_lt.mp (UInt8.pos_iff_ne_zero.mpr hne)⟩)
  rw [UInt8.toNat_zero, Nat.zero_add] at hout
  refine ⟨t, .trans ?_ ht, hout⟩
  rw [exchange, send_multi hlen hmax, recv_eq]
  refine .trans (Duplex.handOver_right rfl) ?_
  rw [onFirst_first hmax]
  refine .trans (Duplex.handOver_left isFlowControl_flowControl) ?_
  have hgo : (fcStatus (flowControl receiver).data == kFCOverflow) = false := by
    rw [fcStatus_flowControl]
    decide
  simp only [hgo, Bool.false_eq_true, if_false]
  exact .refl

end Rounds

/-- A single frame is handed over and both calls return. -/
theorem exchange_run_single (hne : payload ≠ []) (hlen : payload.length ≤ 7) :
    ReflTransGen Duplex.Progress (exchange sender receiver timeout payload)
      ⟨⟨[], [], [none]⟩, ⟨[], [], [.ok payload]⟩⟩ := by
  rw [exchange, send_single hne hlen, recv_eq]
  refine .trans (Duplex.handOver_right rfl) ?_
  rw [onFirst_single hne hlen]
  refine .head (Duplex.progress_iff.mpr (.inl ⟨_, _, .ret rfl, rfl⟩)) ?_
  exact .single (Duplex.progress_iff.mpr (.inr ⟨_, _, .ret rfl, rfl⟩))

/-- The last consecutive frame completes a block of the receiver. -/
def LastBlockFull (blockSize : UInt8) (payload : List UInt8) : Prop :=
  7 < payload.length ∧ blockSize ≠ 0 ∧ blockSize.toNat ∣ segmentsLeft payload 6

/-- Unless the last block is full, some run ends with both calls returned. -/
theorem exchange_finishes (sender receiver : Config) (timeout : Nat) (hne : payload ≠ [])
    (hmax : payload.length ≤ kMaxPayload) (hfull : ¬ LastBlockFull receiver.blockSize payload) :
    ReflTransGen Duplex.Progress (exchange sender receiver timeout payload)
      ⟨⟨[], [], [none]⟩, ⟨[], [], [.ok payload]⟩⟩ := by
  by_cases hlen : payload.length ≤ 7
  · exact exchange_run_single hne hlen
  · obtain ⟨⟨l, r⟩, ht, hout⟩ := exchange_run sender receiver timeout payload (by omega) hmax
    obtain rfl : r = _ := hout.received
    obtain rfl : l = _ := hout.sent fun hw => hfull ⟨by omega, hw⟩
    exact ht

/-- Unless the last block is full, every fair schedule ends in agreement. -/
theorem exchange_agrees (hne : payload ≠ []) (hmax : payload.length ≤ kMaxPayload)
    (hfull : ¬ LastBlockFull receiver.blockSize payload) :
    Inevitably (Duplex.Fair (.relay .timeout)) (Agreed payload)
      (exchange sender receiver timeout payload) := by
  have hrun := exchange_finishes sender receiver timeout hne hmax hfull
  refine (Duplex.inevitably_of_finished hrun ⟨rfl, rfl⟩).mono ?_
  rintro _ rfl
  exact ⟨⟨rfl, rfl⟩, rfl, rfl⟩

/-- If the last block is full, every fair schedule ends with the payload received
and the sender timed out. -/
theorem exchange_times_out (hmax : payload.length ≤ kMaxPayload)
    (hfull : LastBlockFull receiver.blockSize payload) :
    Inevitably (Duplex.Fair (.relay .timeout))
      (fun s => s.left.Returned [some (.relay .timeout)] ∧ s.right.Returned [.ok payload])
      (exchange sender receiver timeout payload) := by
  obtain ⟨t, ht, hout⟩ := exchange_run sender receiver timeout payload hfull.1 hmax
  obtain ⟨limit, k, hl, hk⟩ := hout.waiting hfull.2
  have hr := hout.received
  have hstuck : Stuck Duplex.Progress t :=
    Duplex.stuck_of_waiting (by rw [hl]) (by rw [hl]) (by rw [hr])
  have h := Duplex.inevitably_of_waiting ht hstuck (by rw [hl]) (hk (.relay .timeout)) (by rw [hr])
  rw [hl, hr] at h
  exact h

/-- A pair of results that is reached is kept. -/
theorem returned_stable {err : ErrorCode} {s t : Exchange} {a : List (Option ErrorCode)}
    {b : List (Except ErrorCode (List UInt8))} (hst : Duplex.Fair err s t)
    (h : s.left.Returned a ∧ s.right.Returned b) : t.left.Returned a ∧ t.right.Returned b := by
  have hend : s.Finished := ⟨h.1.1, h.2.1⟩
  exfalso
  rcases hst with hst | ⟨x, hx, -⟩
  · exact hend.stuck t hst
  · obtain ⟨accept, hw⟩ := Duplex.awaits_of_expire hx
    exact absurd ((hend.awaits x).symm.trans hw) (by simp)

/-- If the last block is full, the calls do not agree. -/
theorem not_agreed_of_lastBlockFull (hmax : payload.length ≤ kMaxPayload)
    (hfull : LastBlockFull receiver.blockSize payload) :
    ¬ Inevitably (Duplex.Fair (.relay .timeout)) (Agreed payload)
      (exchange sender receiver timeout payload) := by
  intro hagreed
  obtain ⟨t, ⟨hl, -⟩, hl', -⟩ := Inevitably.meet (fun _ _ hst h => returned_stable hst h)
    (fun _ _ hst h => returned_stable hst h) hagreed (exchange_times_out hmax hfull)
  exact absurd (hl.2.symm.trans hl'.2) (by simp)

/-- The two calls agree on every fair schedule exactly when the last consecutive
frame does not complete a block of the receiver. -/
theorem exchange_agrees_iff (sender receiver : Config) (timeout : Nat) (payload : List UInt8)
    (hne : payload ≠ []) (hmax : payload.length ≤ kMaxPayload) :
    Inevitably (Duplex.Fair (.relay .timeout)) (Agreed payload)
      (exchange sender receiver timeout payload) ↔
      payload.length ≤ 7 ∨ receiver.blockSize = 0 ∨
        ¬ receiver.blockSize.toNat ∣ segmentsLeft payload 6 := by
  have hcases : ¬ LastBlockFull receiver.blockSize payload ↔ payload.length ≤ 7 ∨
      receiver.blockSize = 0 ∨ ¬ receiver.blockSize.toNat ∣ segmentsLeft payload 6 := by
    simp only [LastBlockFull, ne_eq, ← Nat.not_lt]
    tauto
  rw [← hcases]
  constructor
  · intro hagreed hfull
    exact not_agreed_of_lastBlockFull hmax hfull hagreed
  · intro hfull
    exact exchange_agrees hne hmax hfull

/-- Fourteen bytes in blocks of three frames. -/
theorem exchange_agrees_iff_blocks :
    Inevitably (Duplex.Fair (.relay .timeout)) (Agreed (List.replicate 14 7))
        (exchange { txId := 0x7E0, rxId := 0x7E8 }
          { txId := 0x7E8, rxId := 0x7E0, blockSize := 3 } 250 (List.replicate 14 7)) ↔
      (List.replicate 14 (7 : UInt8)).length ≤ 7 ∨ (3 : UInt8) = 0 ∨
        ¬ (3 : UInt8).toNat ∣ segmentsLeft (List.replicate 14 7) 6 :=
  exchange_agrees_iff _ { txId := 0x7E8, rxId := 0x7E0, blockSize := 3 } 250 _ (by decide)
    (by decide)

/-- Eight bytes in blocks of one frame: the sender waits for a second flow control. -/
theorem eight_bytes_not_agreed :
    ¬ Inevitably (Duplex.Fair (.relay .timeout)) (Agreed (List.replicate 8 0xAB))
        (exchange { txId := 0x7E0, rxId := 0x7E8 }
          { txId := 0x7E8, rxId := 0x7E0, blockSize := 1 } 250 (List.replicate 8 0xAB)) :=
  not_agreed_of_lastBlockFull (by decide) ⟨by decide, by decide, by decide⟩

end CppCan.IsoTp
