import CppCan.IsoTp.Pacing

/-!
# The sender and the status of flow control

A flow control is taken in three places: behind the first frame, where the last one asked
to wait, and behind a complete block. The status is compared with overflow in the first
place only, and only the loop looks for a request to wait. The sender obeys the receiver
if and only if every status comes where it is handled.
-/

namespace CppCan.IsoTp

open CppCan.Core CppCan.Relay

/-- No consecutive frame is given to the bus any more. -/
def Quiet (ls : Log) : Prop := ∀ m ∈ offered ls, isConsecutive m = false

/-- Every consecutive frame is given to the bus while the last flow control asks to go on,
and after an overflow no more of them are and the call returns `no_buffer_space`. -/
def Obeys (r : Option ErrorCode) : Option UInt8 → Log → Prop
  | _, [] => True
  | status, .sent m _ :: ls =>
    (isConsecutive m = true → status = some kFCContinueToSend) ∧ Obeys r status ls
  | _, .took fc :: ls =>
    (fcStatus fc.data = kFCOverflow → Quiet ls ∧ r = some (.generic .noBufferSpace)) ∧
      Obeys r (some (fcStatus fc.data)) ls
  | status, _ :: ls => Obeys r status ls

/-- Every status comes where the loop handles it, with `left` consecutive frames to go:
none but a request to go on behind a request to wait, an overflow nowhere, and a reserved
one only behind the last frame. -/
def Handled (waiting : Bool) (left : Nat) : List Frame → Prop
  | [] => True
  | fc :: rest =>
    if fcStatus fc.data = kFCContinueToSend then
      Handled false (left - (fcBlockSize fc.data).toNat) rest
    else if fcStatus fc.data = kFCWait then waiting = false ∧ Handled true left rest
    else waiting = false ∧ left = 0 ∧ fcStatus fc.data ≠ kFCOverflow

/-- Every status comes where the sender handles it: an overflow behind the first frame, the
others where the loop does. -/
def HandledBy (payload : List UInt8) (fcs : List Frame) : Prop :=
  (∃ fc ∈ fcs.head?, fcStatus fc.data = kFCOverflow) ∨
    Handled false (segmentsLeft payload 6) fcs

variable {cfg : Config} {payload fcData : List UInt8} {i blockCount : Nat} {ls rest : Log}
  {r : Option ErrorCode} {status : Option UInt8} {fc : Frame}

theorem obeys_waits (hw : Waits isFlowControl ls (.ok fc)) :
    Obeys r status (ls ++ rest) ↔
      (fcStatus fc.data = kFCOverflow → Quiet rest ∧ r = some (.generic .noBufferSpace)) ∧
        Obeys r (some (fcStatus fc.data)) rest := by
  generalize hres : Except.ok fc = res at hw
  induction hw with
  | took hm =>
    cases hres
    exact Iff.rfl
  | gaveUp err => cases hres
  | dropped hm hw ih => exact ih hres

theorem obeys_gaveUp {err : ErrorCode} (hw : Waits isFlowControl ls (.error err)) :
    Obeys r status ls := by
  generalize hres : Except.error err = res at hw
  induction hw with
  | took hm => cases hres
  | gaveUp err => trivial
  | dropped hm hw ih => exact ih hres

theorem obeys_pauses : Obeys r status (pauses fcData ++ rest) ↔ Obeys r status rest := by
  unfold pauses
  split_ifs <;> rfl

theorem taken_pauses (fcData : List UInt8) : taken (pauses fcData) = [] := by
  unfold pauses
  split_ifs <;> rfl

/-- A consecutive frame needs a flow control that asks to go on. -/
theorem obeys_segment {err : Option ErrorCode} :
    Obeys r status (.sent (segment cfg payload i) err :: ls) ↔
      status = some kFCContinueToSend ∧ Obeys r status ls := by
  have hcf : isConsecutive (segment cfg payload i) = true := isConsecutive_consecutiveFrame
  simp [Obeys, hcf]

/-- The run from the head of the loop obeys the receiver if and only if the statuses in it
are handled. Without a block size the number of frames to go says nothing. -/
def Follows (payload : List UInt8) (i blockCount : Nat) (fcData : List UInt8) (ls : Log)
    (r : Option ErrorCode) : Prop :=
  ∀ left, (fcBlockSize fcData > 0 →
      left = segmentsLeft payload (6 + 7 * i) - ((fcBlockSize fcData).toNat - blockCount)) →
    (Obeys r (some (fcStatus fcData)) ls ↔
      fcStatus fcData = kFCContinueToSend ∧ Handled false left (taken ls) ∨
        fcStatus fcData = kFCWait ∧ Handled true (segmentsLeft payload (6 + 7 * i)) (taken ls))

/-- What lies behind a consecutive frame obeys the receiver, while it asks to go on, if and
only if the statuses there are handled. -/
def FollowsSegment (payload : List UInt8) (i blockCount : Nat) (fcData : List UInt8) (ls : Log)
    (r : Option ErrorCode) : Prop :=
  ∀ left, (fcBlockSize fcData > 0 →
      left = segmentsLeft payload (6 + 7 * i) - ((fcBlockSize fcData).toNat - blockCount)) →
    fcStatus fcData = kFCContinueToSend →
    (Obeys r (some kFCContinueToSend) ls ↔ Handled false left (taken ls))

theorem wait_ne_continueToSend : kFCWait ≠ kFCContinueToSend := by decide

theorem overflow_ne_continueToSend : kFCOverflow ≠ kFCContinueToSend := by decide

theorem overflow_ne_wait : kFCOverflow ≠ kFCWait := by decide

/-- A new flow control behind a request to wait has to ask to go on. -/
theorem obeys_renewed {err : Option ErrorCode} (htail : FollowsSegment payload i 0 fc.data rest r) :
    ((fcStatus fc.data = kFCOverflow → Quiet (.sent (segment cfg payload i) err :: rest) ∧
          r = some (.generic .noBufferSpace)) ∧
        Obeys r (some (fcStatus fc.data)) (.sent (segment cfg payload i) err :: rest)) ↔
      Handled true (segmentsLeft payload (6 + 7 * i)) (fc :: taken rest) := by
  rw [obeys_segment, Handled]
  by_cases hcts : fcStatus fc.data = kFCContinueToSend
  · have hrest := htail _ (fun _ => rfl) hcts
    rw [Nat.sub_zero] at hrest
    rw [if_pos hcts, hcts, ← hrest]
    simp [overflow_ne_continueToSend.symm]
  · simp [hcts]

/-- A round starts with a consecutive frame, behind a wait if the last flow control asks for
one. -/
theorem Refresh.follows {fc' : List UInt8} {m : Nat} {err : Option ErrorCode}
    (hw : Refresh fcData blockCount (fcStatus fcData == kFCWait) ls (.ok (fc', m)))
    (htail : FollowsSegment payload i m fc' rest r) :
    Follows payload i blockCount fcData (ls ++ .sent (segment cfg payload i) err :: rest) r := by
  intro left hleft
  generalize hdue : (fcStatus fcData == kFCWait) = due at hw
  cases hw with
  | kept =>
    have hwait : fcStatus fcData ≠ kFCWait := by simpa using hdue
    rw [List.nil_append, obeys_segment, taken_cons, Option.some_inj]
    by_cases hcts : fcStatus fcData = kFCContinueToSend
    · simp [hcts, wait_ne_continueToSend.symm, htail left hleft hcts, Label.taken?]
    · simp [hcts, hwait]
  | @renewed ls fc hw =>
    have hwait : fcStatus fcData = kFCWait := by simpa using hdue
    have htaken : taken (ls ++ .sent (segment cfg payload i) err :: rest) = fc :: taken rest := by
      simp [hw.taken_eq, Label.taken?, Except.toOption]
    rw [obeys_waits hw, obeys_renewed htail, htaken]
    simp [hwait, wait_ne_continueToSend]

/-- The loop that has taken a flow control handles it if and only if it obeys it. -/
theorem handled_cons_iff (hlt : 6 + 7 * i < payload.length)
    (hfollows : Follows payload i 0 fc.data ls r) :
    ((fcStatus fc.data = kFCOverflow → Quiet ls ∧ r = some (.generic .noBufferSpace)) ∧
        Obeys r (some (fcStatus fc.data)) ls) ↔
      Handled false (segmentsLeft payload (6 + 7 * i)) (fc :: taken ls) := by
  have hleft : segmentsLeft payload (6 + 7 * i) ≠ 0 := by
    unfold segmentsLeft
    omega
  have hiff := hfollows _ (fun _ => rfl)
  rw [Nat.sub_zero] at hiff
  rw [hiff, Handled]
  by_cases hcts : fcStatus fc.data = kFCContinueToSend
  · simp [hcts, wait_ne_continueToSend.symm, overflow_ne_continueToSend.symm]
  · by_cases hwait : fcStatus fc.data = kFCWait
    · simp [hwait, wait_ne_continueToSend, overflow_ne_wait.symm]
    · simp [hcts, hwait, hleft]

/-- Behind the last consecutive frame the loop ends. -/
theorem Rounds.eq_nil (h : Rounds cfg payload i blockCount fcData ls r)
    (hle : payload.length ≤ 6 + 7 * i) : ls = [] ∧ r = none := by
  cases h with
  | done h => exact ⟨rfl, rfl⟩
  | waitGaveUp h hw => exact absurd h (by omega)
  | refused h hw => exact absurd h (by omega)
  | blockGaveUp h hw hb => exact absurd h (by omega)
  | round h hw hb hrest => exact absurd h (by omega)

/-- Behind the last consecutive frame of a payload a flow control is handled unless it is
an overflow. -/
theorem handled_last (hle : payload.length ≤ 6 + 7 * i) :
    ((fcStatus fc.data = kFCOverflow →
          Quiet [] ∧ none = some (ErrorCode.generic .noBufferSpace)) ∧
        Obeys none (some (fcStatus fc.data)) []) ↔
      Handled false (segmentsLeft payload (6 + 7 * i)) [fc] := by
  have hleft : segmentsLeft payload (6 + 7 * i) = 0 := by
    unfold segmentsLeft
    omega
  rw [Handled, hleft]
  by_cases hcts : fcStatus fc.data = kFCContinueToSend
  · simp [hcts, Obeys, Handled, overflow_ne_continueToSend.symm]
  · by_cases hwait : fcStatus fc.data = kFCWait
    · simp [hwait, Obeys, Handled, wait_ne_continueToSend, overflow_ne_wait.symm]
    · simp [hcts, hwait, Obeys]

/-- A round ends with the next one, behind a wait if the block is complete. -/
theorem Refresh.followsSegment {fc' : List UInt8} {m : Nat} {ls' : Log}
    (hb : Refresh fcData (blockCount + 1) (blockDue fcData (blockCount + 1)) ls (.ok (fc', m)))
    (hroom : HasRoom fcData (blockCount + 1)) (hlt : 6 + 7 * i < payload.length)
    (hrest : Rounds cfg payload (i + 1) m fc' ls' r)
    (ih : 6 + 7 * (i + 1) < payload.length → Follows payload (i + 1) m fc' ls' r) :
    FollowsSegment payload i blockCount fcData (ls ++ pauses fc' ++ ls') r := by
  have hnext : segmentsLeft payload (6 + 7 * (i + 1)) = segmentsLeft payload (6 + 7 * i) - 1 := by
    unfold segmentsLeft
    omega
  intro left hleft hcts
  rw [List.append_assoc]
  generalize hdue : blockDue fcData (blockCount + 1) = due at hb
  cases hb with
  | kept =>
    rw [List.nil_append, obeys_pauses, taken_append, taken_pauses, List.nil_append]
    by_cases hlast : 6 + 7 * (i + 1) < payload.length
    · have hiff := ih hlast left (fun hpos => by have := hroom hpos; rw [hleft hpos]; omega)
      rw [hcts] at hiff
      rw [hiff]
      simp [wait_ne_continueToSend.symm]
    · obtain ⟨rfl, -⟩ := hrest.eq_nil (by omega)
      exact ⟨fun _ => trivial, fun _ => trivial⟩
  | @renewed ls fc hw =>
    have htaken : taken (ls ++ (pauses fc.data ++ ls')) = fc :: taken ls' := by
      simp [hw.taken_eq, taken_pauses, Except.toOption]
    have hquiet : Quiet (pauses fc.data ++ ls') ↔ Quiet ls' := by
      simp [Quiet, quiet_pauses]
    have hcount : left = segmentsLeft payload (6 + 7 * (i + 1)) := by
      simp only [blockDue, Bool.and_eq_true, decide_eq_true_eq] at hdue
      have := hroom hdue.1
      rw [hleft hdue.1]
      omega
    rw [obeys_waits hw, obeys_pauses, hquiet, htaken, hcount]
    by_cases hlast : 6 + 7 * (i + 1) < payload.length
    · exact handled_cons_iff hlast (ih hlast)
    · have hle : payload.length ≤ 6 + 7 * (i + 1) := by omega
      obtain ⟨rfl, rfl⟩ := hrest.eq_nil hle
      exact handled_last hle

/-- The loop obeys the receiver if and only if it handles every status. -/
theorem Rounds.follows (h : Rounds cfg payload i blockCount fcData ls r)
    (hroom : HasRoom fcData (blockCount + 1)) (hlt : 6 + 7 * i < payload.length) :
    Follows payload i blockCount fcData ls r := by
  induction h with
  | done h => omega
  | @waitGaveUp i n fc ls err h hw =>
    intro left hleft
    generalize hdue : (fcStatus fc == kFCWait) = due at hw
    cases hw with
    | gaveUp hw =>
      have hwait : fcStatus fc = kFCWait := by simpa using hdue
      have htaken : taken ls = [] := by rw [hw.taken_eq]; rfl
      rw [htaken]
      exact ⟨fun _ => .inr ⟨hwait, trivial⟩, fun _ => obeys_gaveUp hw⟩
  | refused h hw =>
    exact hw.follows fun left hleft hcts => ⟨fun _ => trivial, fun _ => trivial⟩
  | @blockGaveUp i n m fc fc' ls ls' err h hw hb =>
    refine hw.follows fun left hleft hcts => ?_
    generalize blockDue fc' (m + 1) = due at hb
    cases hb with
    | gaveUp hb =>
      have htaken : taken ls' = [] := by rw [hb.taken_eq]; rfl
      rw [htaken]
      exact ⟨fun _ => trivial, fun _ => obeys_gaveUp hb⟩
  | round h hw hb hrest ih =>
    exact hw.follows (hb.followsSegment (hw.hasRoom hroom) h hrest (ih hb.hasRoom_of_blockDue))

/-- The sender obeys the receiver if and only if every status comes where it is handled. -/
theorem obeys_iff (cfg : Config) (payload : List UInt8) (hlen : 8 ≤ payload.length)
    (hmax : payload.length ≤ kMaxPayload) (h : (send cfg payload).Trace ls r) :
    Obeys r none ls ↔ HandledBy payload (taken ls) := by
  have hfirst {err : Option ErrorCode} {rest : Log} :
      Obeys r none (.sent (firstFrame cfg payload) err :: rest) ↔ Obeys r none rest := by
    simp [Obeys, not_isConsecutive_firstFrame]
  cases sending_of_trace hlen hmax h with
  | refused err => exact ⟨fun _ => .inr trivial, fun _ => hfirst.mpr trivial⟩
  | @gaveUp ls err hw =>
    have htaken : taken (.sent (firstFrame cfg payload) none :: ls) = [] := by
      simp [Label.taken?, hw.taken_eq, Except.toOption]
    rw [htaken]
    exact ⟨fun _ => .inr trivial, fun _ => hfirst.mpr (obeys_gaveUp hw)⟩
  | @overflow ls fc hw hstatus =>
    have htaken : taken (.sent (firstFrame cfg payload) none :: ls) = [fc] := by
      simp [Label.taken?, hw.taken_eq, Except.toOption]
    have hobeys : Obeys (some (.generic .noBufferSpace)) none ls := by
      rw [← List.append_nil ls, obeys_waits hw]
      exact ⟨fun _ => ⟨fun m hm => absurd hm List.not_mem_nil, rfl⟩, trivial⟩
    rw [htaken]
    exact ⟨fun _ => .inl ⟨fc, rfl, hstatus⟩, fun _ => hfirst.mpr hobeys⟩
  | @loop ls rest fc r hw hstatus hrest =>
    have htaken : taken (.sent (firstFrame cfg payload) none :: (ls ++ rest)) =
        fc :: taken rest := by
      simp [Label.taken?, hw.taken_eq, Except.toOption]
    have hiff := handled_cons_iff (by omega) (hrest.follows (hasRoom_one fc.data) (by omega))
    rw [hfirst, obeys_waits hw, htaken, hiff, HandledBy]
    simp [hstatus]

/-- The receiver asks for a block of one frame, and again. -/
theorem obeys_iff_blocks :
    Obeys none none (Proc.exec (fun _ => none) (.relay .timeout) (send {} (List.replicate 14 7)) []
        [flowControl { blockSize := 1 }, flowControl { blockSize := 1 },
          flowControl { blockSize := 1 }]).1 ↔
      HandledBy (List.replicate 14 7) [flowControl { blockSize := 1 },
        flowControl { blockSize := 1 }, flowControl { blockSize := 1 }] :=
  obeys_iff {} (List.replicate 14 7) (by decide) (by decide)
    (Proc.exec_trace (send {} (List.replicate 14 7)) [] _).1

/-- A receiver that asks to wait and then reports an overflow is sent the whole message. -/
theorem not_obeys :
    ¬ ∀ (cfg : Config) (payload : List UInt8) (ls : Log) (r : Option ErrorCode),
      8 ≤ payload.length → payload.length ≤ kMaxPayload → (send cfg payload).Trace ls r →
      Obeys r none ls := by
  intro h
  have htrace := (@Proc.exec_trace _ _ _ (fun _ => none) (.relay .timeout)
    (send {} (List.replicate 8 7)) [] [{ data := [kTypeFC ||| kFCWait, 0, 0] },
      { data := [kTypeFC ||| kFCOverflow, 0, 0] }]).1
  obtain ⟨-, -, hoverflow, -⟩ := h {} (List.replicate 8 7) _ none (by decide) (by decide) htrace
  exact absurd (hoverflow (by decide)).2 (by simp)

end CppCan.IsoTp
