import CppCan.Core.Streams
import CppCan.IsoTp.Segmentation

/-!
# What the calls emit

Whatever they receive and wherever they give up, `send` emits the frames of its
payload in order and `recv` with block size zero emits at most one flow control.
-/

namespace CppCan.IsoTp

open CppCan.Core CppCan.Relay

variable {Q : Type} {δ : Q → Frame → Q → Prop} {cfg : Config} {payload : List UInt8} {q q' : Q}

/-- A wait for flow control emits nothing. -/
theorem emits_refreshFc {post : Q → Except ErrorCode (List UInt8 × Nat) → Prop} {due : Bool}
    {fcData : List UInt8} {blockCount : Nat} (h : ∀ r, post q r) :
    (refreshFc cfg due fcData blockCount).Emits δ post q := by
  unfold refreshFc
  split_ifs
  · intro res
    cases res with
    | error err => exact h _
    | ok fc => exact h _
  · exact h _

/-- The loop sends the payload on from its offset. -/
theorem emits_sendLoop (state : Nat → Q) (hnext : ∀ offset sn, offset < payload.length →
      δ (state offset) (consecutiveFrame cfg payload offset sn) (state (nextOffset payload offset)))
    (rounds offset : Nat) (sn : UInt8) (blockCount : Nat) (fcData : List UInt8) :
    (sendLoop cfg payload rounds offset sn blockCount fcData).Emits δ (fun _ _ => True)
      (state offset) := by
  induction rounds generalizing offset sn blockCount fcData with
  | zero => trivial
  | succ rounds ih =>
    rw [sendLoop]
    split_ifs with hlt
    · refine Proc.Emits.bind (emits_refreshFc fun res => ?_)
      cases res with
      | error err => trivial
      | ok fc =>
        simp only [busSend, Proc.emit_bind, Proc.ret_bind]
        refine ⟨_, hnext offset sn hlt, fun err => ?_⟩
        cases err with
        | some err => trivial
        | none =>
          refine Proc.Emits.bind (emits_refreshFc fun res => ?_)
          cases res with
          | error err => trivial
          | ok fc =>
            dsimp only
            split_ifs
            · exact ih _ _ _ _
            · exact ih _ _ _ _
    · trivial

/-- A sender emits a single frame, or a first frame and its consecutive frames. -/
theorem emits_send (state : Nat → Q) (hsingle : payload ≠ [] → payload.length ≤ 7 →
      ∃ q', δ q (singleFrame cfg payload) q')
    (hfirst : 8 ≤ payload.length → payload.length ≤ kMaxPayload →
      δ q (firstFrame cfg payload) (state 6))
    (hnext : ∀ offset sn, offset < payload.length →
      δ (state offset) (consecutiveFrame cfg payload offset sn)
        (state (nextOffset payload offset))) :
    (send cfg payload).Emits δ (fun _ _ => True) q := by
  by_cases hne : payload = []
  · subst hne
    trivial
  by_cases hmax : payload.length ≤ kMaxPayload
  · by_cases hlen : payload.length ≤ 7
    · rw [send_single hne hlen]
      obtain ⟨q', hq⟩ := hsingle hne hlen
      exact ⟨q', hq, fun _ => trivial⟩
    · rw [send_multi (by omega) hmax]
      refine ⟨_, hfirst (by omega) hmax, fun err => ?_⟩
      cases err with
      | some err => trivial
      | none =>
        intro res
        cases res with
        | error err => trivial
        | ok fc =>
          dsimp only
          split_ifs
          · trivial
          · exact emits_sendLoop state hnext _ _ _ _ _
  · simp only [send, List.isEmpty_iff, hne, if_false, Nat.not_le.mp hmax, if_true]
    trivial

/-- In one block the loop of a receiver emits nothing. -/
theorem emits_recvLoop (hblock : cfg.blockSize = 0) (timeout length rounds : Nat) (buf : List UInt8)
    (sn : UInt8) (cfInBlock : Nat) :
    (recvLoop cfg timeout length rounds buf sn cfInBlock).Emits δ (fun _ _ => True) q := by
  induction rounds generalizing buf sn cfInBlock with
  | zero => trivial
  | succ rounds ih =>
    by_cases hlt : buf.length < length
    · rw [recvLoop_of_lt hlt]
      intro res
      cases res with
      | error err => trivial
      | ok cf =>
        simp only [onSegment, afterSegment, hblock]
        split_ifs
        · trivial
        · trivial
        · exact absurd rfl ‹_ ∧ _›.1
        · exact absurd rfl ‹_ ∧ _›.1
        · exact ih _ _ _
    · rw [recvLoop_of_le (Nat.not_lt.mp hlt)]
      trivial

/-- In one block a receiver emits at most one flow control. -/
theorem emits_recv {timeout : Nat} (q' : Q) (hblock : cfg.blockSize = 0)
    (h : δ q (flowControl cfg) q') : (recv cfg timeout).Emits δ (fun _ _ => True) q := by
  rw [recv_eq]
  intro res
  cases res with
  | error err => trivial
  | ok first =>
    simp only [onFirst]
    split
    · trivial
    · split_ifs
      · trivial
      · trivial
      · split
        · trivial
        · refine ⟨q', h, fun err => ?_⟩
          cases err with
          | some err => trivial
          | none => exact emits_recvLoop hblock _ _ _ _ _ _
      · trivial

end CppCan.IsoTp
