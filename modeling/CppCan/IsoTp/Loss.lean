import CppCan.IsoTp.Declared

/-!
# Lost and repeated frames

Sequence numbers tell frames apart that are less than 16 places from each other. A
receiver that has lost a multiple of 16 frames accepts the ones behind them, but it then
lacks more bytes than the rest of the message holds, and it can only give up.
-/

namespace CppCan.IsoTp

open CppCan.Core CppCan.Relay

/-- The frames, each repeated in place as often as its count says; zero deletes it. -/
def repeated (counts : List Nat) (frames : List Frame) : List Frame :=
  (List.zipWith List.replicate counts frames).flatten

/-- The next message is the one at the current place or at a later one. -/
def Later {μ : Type} (frames : List μ) (i : Nat) (m : μ) (j : Nat) : Prop :=
  i ≤ j ∧ frames[j]? = some m

/-- The payload, or an error. -/
def PayloadOrError (payload : List UInt8) (r : Except ErrorCode (List UInt8)) : Prop :=
  r = .ok payload ∨ ∃ err, r = .error err

variable {sender receiver : Config} {payload buf : List UInt8} {timeout rounds cfInBlock : Nat}
  {sn : UInt8}

/-- A place may occur any number of times. -/
theorem stream_replicate {μ : Type} {frames ms : List μ} {m : μ} {i j : Nat} (n : Nat)
    (hi : i ≤ j) (hm : frames[j]? = some m) (h : ∃ q, Stream (Later frames) j ms q)
    (hskip : ∃ q, Stream (Later frames) i ms q) :
    ∃ q, Stream (Later frames) i (List.replicate n m ++ ms) q := by
  induction n generalizing i with
  | zero => exact hskip
  | succ n ih =>
    obtain ⟨q, hq⟩ := ih le_rfl h
    exact ⟨q, .cons ⟨hi, hm⟩ hq⟩

/-- Deleting and repeating frames in place keeps their order. -/
theorem stream_repeated {all frames : List Frame} (counts : List Nat) {i k : Nat} (hi : i ≤ k)
    (h : ∀ j m, frames[j]? = some m → all[k + j]? = some m) :
    ∃ q, Stream (Later all) i (repeated counts frames) q := by
  induction frames generalizing counts i k with
  | nil => exact ⟨i, by rw [repeated, List.zipWith_nil_right]; exact .nil i⟩
  | cons f frames ih =>
    cases counts with
    | nil => exact ⟨i, .nil i⟩
    | cons n counts =>
      have hf : all[k]? = some f := h 0 f rfl
      have hrest (j : Nat) (m : Frame) (hj : frames[j]? = some m) : all[k + 1 + j]? = some m := by
        rw [Nat.add_assoc, Nat.add_comm 1]
        exact h (j + 1) m hj
      exact stream_replicate n hi hf (ih counts (by omega) hrest) (ih counts (by omega) hrest)

theorem payloadOrError_error (err : ErrorCode) : PayloadOrError payload (.error err) :=
  .inr ⟨err, rfl⟩

/-- What the receiver has after `n` consecutive frames of which the last one was the `i`-th:
the first bytes of the payload, or fewer than the rest of the message can make up for. -/
structure Behind (payload buf : List UInt8) (n i : Nat) : Prop where
  place : i % 16 = n % 16
  reached : i = 0 ∨ 6 + 7 * (i - 1) < payload.length
  bytes : i = n ∧ buf = payload.take (6 + 7 * n) ∨ n + 16 ≤ i ∧ buf.length ≤ 6 + 7 * n

/-- A receiver with enough bytes has the payload. -/
theorem Behind.eq_payload {n i : Nat} (h : Behind payload buf n i)
    (hlen : payload.length ≤ buf.length) : buf = payload := by
  obtain ⟨-, hreached, ⟨rfl, rfl⟩ | ⟨hi, hbuf⟩⟩ := h
  · rw [List.length_take] at hlen
    exact List.take_of_length_le (by omega)
  · omega

/-- A consecutive frame with the expected number adds its bytes, whichever it is. -/
theorem onSegment_segment {j : Nat} (hbuf : buf.length ≤ payload.length)
    (hlt : 6 + 7 * j < payload.length) (hnum : UInt8.ofNat (j + 1) &&& 0x0F = sn &&& 0x0F) :
    onSegment receiver timeout payload.length rounds buf sn cfInBlock
        (.ok (segment sender payload j)) =
      afterSegment receiver timeout payload.length rounds
        ((buf ++ (payload.drop (6 + 7 * j)).take 7).take payload.length) (sn + 1) cfInBlock := by
  have hlen : ((payload.drop (6 + 7 * j)).take 7).length ≥ 1 := by
    rw [List.length_take, List.length_drop]
    omega
  simp only [onSegment, segment_data, List.getD_cons_zero, (pci_consecutive _).2, hnum,
    List.length_cons, List.drop_succ_cons, List.drop_zero, Nat.add_sub_cancel]
  rw [if_neg (by simp), if_neg (by omega), append_take_eq hbuf]

/-- The next consecutive frame leaves the receiver where it was, or makes it miss frames. -/
theorem Behind.next {n i j : Nat} (h : Behind payload buf n i) (hbuf : buf.length < payload.length)
    (hij : i ≤ j + 1) (hlt : 6 + 7 * j < payload.length) (hnum : (j + 1) % 16 = (n + 1) % 16) :
    Behind payload ((buf ++ (payload.drop (6 + 7 * j)).take 7).take payload.length) (n + 1)
      (j + 1) := by
  obtain ⟨hplace, -, ⟨rfl, rfl⟩ | ⟨hi, hlen⟩⟩ := h
  · refine ⟨hnum, .inr hlt, ?_⟩
    by_cases hj : j = i
    · subst hj
      refine .inl ⟨rfl, ?_⟩
      rw [← List.take_add, List.take_take, List.take_eq_take_iff]
      omega
    · refine .inr ⟨by omega, ?_⟩
      simp only [List.length_take, List.length_append, List.length_drop]
      omega
  · refine ⟨hnum, .inr hlt, .inr ⟨by omega, ?_⟩⟩
    simp only [List.length_take, List.length_append, List.length_drop]
    omega

/-- Every consecutive frame that is accepted brings a byte. -/
theorem length_next {j : Nat} (hbuf : buf.length < payload.length)
    (hlt : 6 + 7 * j < payload.length) :
    buf.length + 1 ≤ ((buf ++ (payload.drop (6 + 7 * j)).take 7).take payload.length).length := by
  simp only [List.length_take, List.length_append, List.length_drop]
  omega

/-- The frames of a payload by their places. -/
theorem getElem?_dataFrames (hlen : 8 ≤ payload.length) {j : Nat} {m : Frame}
    (h : (dataFrames sender payload)[j]? = some m) :
    (j = 0 ∧ m = firstFrame sender payload) ∨
      ∃ k, j = k + 1 ∧ m = segment sender payload k ∧ 6 + 7 * k < payload.length := by
  rw [dataFrames, if_neg (by omega)] at h
  cases j with
  | zero => exact .inl ⟨rfl, (Option.some.inj h).symm⟩
  | succ k =>
    obtain ⟨rfl, hlt⟩ := getElem?_segmentsFrom h
    exact .inr ⟨k, rfl, rfl, hlt⟩

/-- The loop returns the payload or an error, whichever frames it is behind. -/
theorem reads_recvLoop_behind (hlen : 8 ≤ payload.length) {n i : Nat} (h : Behind payload buf n i)
    (hsn : sn.toNat % 16 = (n + 1) % 16) (hrounds : payload.length ≤ buf.length + rounds) :
    (recvLoop receiver timeout payload.length rounds buf sn cfInBlock).Reads
      (Later (dataFrames sender payload)) (fun _ => false) (PayloadOrError payload) i := by
  induction rounds generalizing buf sn cfInBlock n i with
  | zero =>
    rw [recvLoop_of_le (by omega), h.eq_payload (by omega)]
    exact .inl rfl
  | succ rounds ih =>
    by_cases hbuf : buf.length < payload.length
    · rw [recvLoop_of_lt hbuf]
      refine ⟨fun q => q = i, rfl, ?_⟩
      rintro q rfl
      refine ⟨fun err => payloadOrError_error err, ?_⟩
      rintro m q' ⟨hq, hm⟩
      rcases getElem?_dataFrames hlen hm with ⟨rfl, rfl⟩ | ⟨j, rfl, rfl, hlt⟩
      · -- Before its first consecutive frame the receiver drops repeated first frames.
        refine ⟨fun hc => absurd hc (by simp [not_isConsecutive_firstFrame]), fun _ _ => ?_⟩
        omega
      · refine ⟨fun _ => ?_, fun hc =>
          absurd hc (by simp [segment, isConsecutive_consecutiveFrame])⟩
        by_cases hnum : UInt8.ofNat (j + 1) &&& 0x0F = sn &&& 0x0F
        · have hplace : (j + 1) % 16 = (n + 1) % 16 := by
            have hnat := congrArg UInt8.toNat hnum
            rw [toNat_and_nibble, toNat_and_nibble, UInt8.toNat_ofNat'] at hnat
            omega
          have hsn' : (sn + 1).toNat % 16 = (n + 1 + 1) % 16 := by
            have hone : (1 : UInt8).toNat = 1 := rfl
            rw [UInt8.toNat_add]
            omega
          have hgrows := length_next hbuf hlt
          have hnext (c : Nat) := @ih _ c _ _ _ (h.next hbuf hq hlt hplace) hsn' (by omega)
          rw [onSegment_segment (by omega) hlt hnum, afterSegment]
          split_ifs
          · intro err
            cases err with
            | some err => exact payloadOrError_error err
            | none => exact hnext _
          · exact hnext _
          · exact hnext _
        · rw [segment, onSegment_number hnum]
          exact payloadOrError_error _
    · rw [recvLoop_of_le (by omega), h.eq_payload (by omega)]
      exact .inl rfl

/-- The receiver returns the payload or an error, whichever of its frames come. -/
theorem reads_recv_later (hne : payload ≠ []) (hmax : payload.length ≤ kMaxPayload) :
    (recv receiver timeout).Reads (Later (dataFrames sender payload)) (fun _ => false)
      (PayloadOrError payload) 0 := by
  rw [recv_eq]
  refine ⟨fun q => q = 0, rfl, ?_⟩
  rintro q rfl
  refine ⟨fun err => payloadOrError_error err, ?_⟩
  rintro m q' ⟨-, hm⟩
  refine ⟨fun _ => ?_, fun h => absurd h (by simp)⟩
  by_cases hlen : payload.length ≤ 7
  · rw [dataFrames, if_pos hlen] at hm
    obtain rfl := List.mem_singleton.mp (List.mem_of_getElem? hm)
    rw [onFirst_single hne hlen]
    exact .inl rfl
  · rcases getElem?_dataFrames (by omega) hm with ⟨rfl, rfl⟩ | ⟨j, rfl, rfl, hlt⟩
    · rw [onFirst_first hmax]
      intro err
      cases err with
      | some err => exact payloadOrError_error err
      | none =>
        exact reads_recvLoop_behind (by omega) ⟨rfl, .inl rfl, .inl ⟨rfl, rfl⟩⟩ rfl (by omega)
    · rw [segment, onFirst_consecutive]
      exact payloadOrError_error _

/-- Whatever frames of a call of `send` are lost or repeated in place, the first call of
`recv` on what is left returns the payload or an error, wherever a wait is given up and
whatever the bus answers. -/
theorem recv_repeated (sender receiver : Config) (timeout : Nat) (payload : List UInt8)
    (hne : payload ≠ []) (hmax : payload.length ≤ kMaxPayload) {sends : Log}
    {r : Option ErrorCode} (hsend : (send sender payload).Trace sends r) (counts : List Nat)
    (oracle : Proc.Oracle Frame ErrorCode) (late : ErrorCode) :
    PayloadOrError payload
      (Proc.exec oracle late (recv receiver timeout) [] (repeated counts (offered sends))).2 := by
  obtain ⟨rest, hrest⟩ := offered_prefix hne hmax hsend
  have hplaces (j : Nat) (m : Frame) (hj : (offered sends)[j]? = some m) :
      (dataFrames sender payload)[0 + j]? = some m := by
    obtain ⟨hlt, -⟩ := List.getElem?_eq_some_iff.mp hj
    rw [Nat.zero_add, ← hrest, List.getElem?_append_left hlt, hj]
  obtain ⟨htrace, hpre⟩ := @Proc.exec_trace _ _ _ oracle late (recv receiver timeout) []
    (repeated counts (offered sends))
  obtain ⟨q, hq⟩ := stream_repeated counts le_rfl hplaces
  obtain ⟨q', hq'⟩ := hq.of_prefix hpre
  exact (reads_recv_later hne hmax).good_of_trace htrace hq'

/-- Frames 1 to 16 of this message are lost, and the last frame is repeated. -/
theorem recv_repeated_sixteen :
    PayloadOrError (List.replicate 130 7)
      (Proc.exec (fun _ => none) (.relay .timeout) (recv {} 100) []
        (repeated (1 :: List.replicate 16 0 ++ [1, 2])
          (offered (Proc.exec (fun _ => none) (.relay .timeout) (send {} (List.replicate 130 7)) []
            [flowControl {}]).1))).2 :=
  recv_repeated {} {} 100 (List.replicate 130 7) (by simp) (by simp [kMaxPayload])
    (Proc.exec_trace _ _ _).1 _ _ _

end CppCan.IsoTp
