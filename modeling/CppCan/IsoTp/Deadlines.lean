import CppCan.Core.Clock
import CppCan.IsoTp.Segmentation

/-!
# Deadlines

A wait for a flow control or a consecutive frame fixes its deadline when it begins, so frames
of other kinds cannot prolong it. A message needs one wait for its first frame and at most two
for each segment, so whatever the other side sends, `send` and `recv` return in a time that
their own configuration bounds.
-/

namespace CppCan.IsoTp

open CppCan.Core CppCan.Relay

/-- What a channel receives: frames with the times at which they arrive, in order, and the time
at which the channel is closed, if it ever is. -/
structure Feed where
  arrivals : List (Nat × Frame)
  closedAt : Option Nat := none
  sorted : arrivals.Pairwise (·.1 ≤ ·.1) := by decide
  open_before : ∀ c ∈ closedAt, ∀ a ∈ arrivals, a.1 ≤ c := by decide

namespace Feed

/-- The channel is closed. -/
def isClosed (feed : Feed) (now : Nat) : Bool := feed.closedAt.any (· ≤ now)

/-- Without the first frame. -/
def tail (feed : Feed) : Feed where
  arrivals := feed.arrivals.tail
  closedAt := feed.closedAt
  sorted := feed.sorted.tail
  open_before c hc a ha := feed.open_before c hc a (List.mem_of_mem_tail ha)

/-- A wait in vain ends with the closing of the channel or with its limit. -/
def giveUpAt (feed : Feed) (now limit : Nat) : Nat :=
  match feed.closedAt with
  | some t => min (now + limit) (max now t)
  | none => now + limit

/-- `recv_for`: a frame if one arrives in time, when the call returns, and what is left. -/
def recvFor (feed : Feed) (now limit : Nat) : Option Frame × Nat × Feed :=
  match feed.arrivals.head? with
  | some (t, f) =>
    if t ≤ now + limit then (some f, max now t, feed.tail)
    else (none, feed.giveUpAt now limit, feed)
  | none => (none, feed.giveUpAt now limit, feed)

/-- Why a wait in vain has ended. -/
def refusal (feed : Feed) (now : Nat) : ErrorCode :=
  if feed.isClosed now then .generic .connectionAborted else .relay .timeout

end Feed

/-- The loop of `wait_fc` and `recv_cf`. The clock is read again a little after a frame was
dropped. -/
def deadlineLoop (accept : Frame → Bool) (delay : Nat → Nat) (deadline : Nat) :
    Nat → Nat → Feed → Except ErrorCode Frame × Nat × Feed
  | 0, now, feed => (.error (.relay .timeout), now, feed)
  | rounds + 1, now, feed =>
    if now ≥ deadline then (.error (.relay .timeout), now, feed)
    else
      match feed.recvFor now (deadline - now) with
      | (none, now, feed) => (.error (feed.refusal now), now, feed)
      | (some f, now, feed) =>
        if accept f then (.ok f, now, feed)
        else deadlineLoop accept delay deadline rounds (now + delay rounds) feed

/-- A wait that begins at `start`. Every round but the last takes a frame. -/
def waitFor (accept : Frame → Bool) (delay : Nat → Nat) (timeout start : Nat) (feed : Feed) :
    Except ErrorCode Frame × Nat × Feed :=
  let rounds := feed.arrivals.length + 1
  deadlineLoop accept delay (start + timeout) rounds (start + delay rounds) feed

variable {accept : Frame → Bool} {delay : Nat → Nat} {feed feed' : Feed}
  {now now' limit deadline latency rounds : Nat} {f : Frame}

/-- How a wait ends: with the first frame that it accepts, not after its deadline, or in vain, not
before its deadline unless the channel is closed. -/
inductive WaitEnds (accept : Frame → Bool) (deadline : Nat) (feed : Feed) :
    Except ErrorCode Frame × Nat × Feed → Prop where
  | took {junk : List (Nat × Frame)} {a : Nat} {f : Frame} {t : Nat} {feed' : Feed}
      (harrivals : feed.arrivals = junk ++ (a, f) :: feed'.arrivals)
      (hjunk : ∀ j ∈ junk, accept j.2 = false) (hf : accept f = true) (ha : a ≤ t)
      (ht : t ≤ deadline) : WaitEnds accept deadline feed (.ok f, t, feed')
  | timedOut {junk : List (Nat × Frame)} {t : Nat} {feed' : Feed}
      (harrivals : feed.arrivals = junk ++ feed'.arrivals)
      (hjunk : ∀ j ∈ junk, accept j.2 = false) (ht : deadline ≤ t) :
      WaitEnds accept deadline feed (.error (.relay .timeout), t, feed')
  | aborted {junk : List (Nat × Frame)} {t : Nat} {feed' : Feed}
      (harrivals : feed.arrivals = junk ++ feed'.arrivals)
      (hjunk : ∀ j ∈ junk, accept j.2 = false) (hclosed : feed'.isClosed t = true) :
      WaitEnds accept deadline feed (.error (.generic .connectionAborted), t, feed')

/-- A frame that is taken was the first one and has arrived. -/
theorem Feed.recvFor_some (h : feed.recvFor now limit = (some f, now', feed')) :
    ∃ a, feed.arrivals = (a, f) :: feed'.arrivals ∧ a ≤ now' ∧ now ≤ now' ∧
      now' ≤ now + limit := by
  unfold recvFor at h
  cases harrivals : feed.arrivals with
  | nil => simp [harrivals] at h
  | cons first rest =>
    obtain ⟨a, g⟩ := first
    simp only [harrivals, List.head?_cons] at h
    split_ifs at h with hle
    · simp only [Prod.mk.injEq, Option.some.injEq] at h
      obtain ⟨rfl, rfl, rfl⟩ := h
      have hrest : feed.tail.arrivals = rest := congrArg List.tail harrivals
      exact ⟨a, by rw [hrest], le_max_right _ _, le_max_left _ _,
        max_le (Nat.le_add_right _ _) hle⟩
    · simp at h

/-- A wait in vain ends with its limit, unless the channel is closed. -/
theorem Feed.recvFor_none (h : feed.recvFor now limit = (none, now', feed')) :
    feed' = feed ∧ now ≤ now' ∧ now' ≤ now + limit ∧
      (feed.isClosed now' = false → now' = now + limit) := by
  have hgive : feed.giveUpAt now limit = now' ∧ feed = feed' := by
    unfold recvFor at h
    split at h
    · split_ifs at h
      · simp at h
      · simpa only [Prod.mk.injEq, true_and] using h
    · simpa only [Prod.mk.injEq, true_and] using h
  obtain ⟨rfl, rfl⟩ := hgive
  unfold giveUpAt isClosed
  cases feed.closedAt with
  | none => exact ⟨rfl, Nat.le_add_right _ _, le_rfl, fun _ => rfl⟩
  | some c =>
    simp only [Option.any_some, decide_eq_false_iff_not]
    refine ⟨trivial, ?_, ?_, fun _ => ?_⟩ <;> omega

/-- A frame that arrives within the limit is taken. -/
theorem Feed.recvFor_of_le {a : Nat} (h : feed.arrivals.head? = some (a, f))
    (ha : a ≤ now + limit) : feed.recvFor now limit = (some f, max now a, feed.tail) := by
  unfold recvFor
  rw [h]
  exact if_pos ha

/-- The frames that are dropped first were refused too. -/
theorem WaitEnds.cons {a : Nat} {outcome : Except ErrorCode Frame × Nat × Feed}
    (harrivals : feed.arrivals = (a, f) :: feed'.arrivals) (hf : accept f = false)
    (h : WaitEnds accept deadline feed' outcome) : WaitEnds accept deadline feed outcome := by
  have hcons : ∀ {junk : List (Nat × Frame)}, (∀ j ∈ junk, accept j.2 = false) →
      ∀ j ∈ (a, f) :: junk, accept j.2 = false := fun hjunk =>
    List.forall_mem_cons.mpr ⟨hf, hjunk⟩
  cases h with
  | took hrest hjunk hg ha ht =>
    rw [hrest] at harrivals
    exact .took harrivals (hcons hjunk) hg ha ht
  | timedOut hrest hjunk ht =>
    rw [hrest] at harrivals
    exact .timedOut harrivals (hcons hjunk) ht
  | aborted hrest hjunk hclosed =>
    rw [hrest] at harrivals
    exact .aborted harrivals (hcons hjunk) hclosed

/-- The loop ends at its deadline or within the latency after it, however many frames it has to
drop. -/
theorem deadlineLoop_ends (hdelay : ∀ n, delay n ≤ latency)
    (hrounds : feed.arrivals.length < rounds) (hnow : now ≤ deadline + latency) :
    WaitEnds accept deadline feed (deadlineLoop accept delay deadline rounds now feed) ∧
      now ≤ (deadlineLoop accept delay deadline rounds now feed).2.1 ∧
      (deadlineLoop accept delay deadline rounds now feed).2.1 ≤ deadline + latency := by
  induction rounds generalizing now feed with
  | zero => exact absurd hrounds (Nat.not_lt_zero _)
  | succ rounds ih =>
    rw [deadlineLoop]
    by_cases hlate : now ≥ deadline
    · rw [if_pos hlate]
      exact ⟨.timedOut rfl (List.forall_mem_nil _) hlate, le_rfl, hnow⟩
    rw [if_neg hlate]
    rcases hrecv : feed.recvFor now (deadline - now) with ⟨answer, t, rest⟩
    cases answer with
    | none =>
      obtain ⟨rfl, hle, hlimit, hvain⟩ := Feed.recvFor_none hrecv
      dsimp only
      refine ⟨?_, hle, by omega⟩
      rw [Feed.refusal]
      cases hclosed : rest.isClosed t with
      | true => exact .aborted (List.nil_append _).symm (List.forall_mem_nil _) hclosed
      | false =>
        have ht := hvain hclosed
        exact .timedOut (List.nil_append _).symm (List.forall_mem_nil _) (by omega)
    | some f =>
      obtain ⟨a, harrivals, ha, hle, hlimit⟩ := Feed.recvFor_some hrecv
      dsimp only
      cases hf : accept f with
      | true =>
        have hintime : t ≤ deadline := by omega
        rw [if_pos rfl]
        refine ⟨?_, hle, Nat.le_add_right_of_le hintime⟩
        exact .took (harrivals.trans (List.nil_append _).symm) (List.forall_mem_nil _) hf ha hintime
      | false =>
        rw [if_neg Bool.false_ne_true]
        have hlater := hdelay rounds
        have hfewer : rest.arrivals.length < rounds := by
          rw [harrivals, List.length_cons] at hrounds
          exact Nat.lt_of_succ_lt_succ hrounds
        have hnext : t + delay rounds ≤ deadline + latency := by omega
        obtain ⟨hends, hmono, hbound⟩ := ih hfewer hnext
        exact ⟨hends.cons harrivals hf, by omega, hbound⟩

/-- The loop gets to a frame before its deadline if the latencies for the frames before it leave it
the time. -/
theorem deadlineLoop_takes (hdelay : ∀ n, delay n ≤ latency)
    (hrounds : feed.arrivals.length < rounds) {junk rest : List (Nat × Frame)} {a : Nat}
    (harrivals : feed.arrivals = junk ++ (a, f) :: rest) (hjunk : ∀ j ∈ junk, accept j.2 = false)
    (hf : accept f = true) (hintime : max now a + junk.length * latency < deadline) :
    (deadlineLoop accept delay deadline rounds now feed).1 = .ok f := by
  induction junk generalizing now feed rounds with
  | nil =>
    obtain ⟨rounds, rfl⟩ := Nat.exists_eq_add_one_of_ne_zero (Nat.ne_zero_of_lt hrounds)
    have htake : feed.recvFor now (deadline - now) = (some f, max now a, feed.tail) :=
      Feed.recvFor_of_le (congrArg List.head? harrivals) (by omega)
    rw [deadlineLoop, if_neg (by omega), htake]
    dsimp only
    rw [if_pos hf]
  | cons j junk ih =>
    obtain ⟨b, g⟩ := j
    obtain ⟨hg, hjunk⟩ := List.forall_mem_cons.mp hjunk
    obtain ⟨rounds, rfl⟩ := Nat.exists_eq_add_one_of_ne_zero (Nat.ne_zero_of_lt hrounds)
    have hba : b ≤ a := by
      have hsorted := feed.sorted
      rw [harrivals, List.cons_append, List.pairwise_cons] at hsorted
      exact hsorted.1 (a, f) (by simp)
    have htail : feed.tail.arrivals = junk ++ (a, f) :: rest := congrArg List.tail harrivals
    have hfewer : feed.tail.arrivals.length < rounds := by
      rw [harrivals, List.cons_append, List.length_cons] at hrounds
      rw [htail]
      exact Nat.lt_of_succ_lt_succ hrounds
    have hlater := hdelay rounds
    rw [List.length_cons, Nat.succ_mul] at hintime
    have htake : feed.recvFor now (deadline - now) = (some g, max now b, feed.tail) :=
      Feed.recvFor_of_le (congrArg List.head? harrivals) (by omega)
    rw [deadlineLoop, if_neg (by omega), htake]
    dsimp only
    rw [if_neg (by simp [hg])]
    exact ih hfewer htail hjunk (by omega)

/-- A wait keeps its deadline up to the latency, whatever arrives meanwhile: it takes the first
frame that it accepts, if that arrives with a latency to spare for the call and for each frame
before it, and it gives up no sooner than at the deadline unless the channel is closed. -/
theorem wait_keeps_deadline (accept : Frame → Bool) (timeout start : Nat) (feed : Feed)
    (hdelay : ∀ n, delay n ≤ latency) :
    WaitEnds accept (start + timeout) feed (waitFor accept delay timeout start feed) ∧
      start ≤ (waitFor accept delay timeout start feed).2.1 ∧
      (waitFor accept delay timeout start feed).2.1 ≤ start + timeout + latency ∧
      ∀ (junk rest : List (Nat × Frame)) (a : Nat) (f : Frame),
        feed.arrivals = junk ++ (a, f) :: rest → (∀ j ∈ junk, accept j.2 = false) →
        accept f = true → max start a + (junk.length + 1) * latency < start + timeout →
        (waitFor accept delay timeout start feed).1 = .ok f := by
  have hfirst := hdelay (feed.arrivals.length + 1)
  have hnow : start + delay (feed.arrivals.length + 1) ≤ start + timeout + latency := by omega
  obtain ⟨hends, hmono, hbound⟩ :=
    deadlineLoop_ends hdelay (Nat.lt_succ_self feed.arrivals.length) hnow
  refine ⟨hends, Nat.le_of_add_right_le hmono, hbound, ?_⟩
  intro junk rest a f harrivals hjunk hf hintime
  rw [Nat.succ_mul] at hintime
  exact deadlineLoop_takes hdelay (Nat.lt_succ_self _) harrivals hjunk hf (by omega)

/-- Frames of another kind arrive every 100 microseconds. -/
def Feed.junk : Feed where
  arrivals := [(100, { data := [0x01] }), (200, { data := [0x01] }), (300, { data := [0x01] })]

/-- A flow control comes behind two frames of another kind. -/
def Feed.behindJunk : Feed where
  arrivals :=
    [(100, { data := [0x01] }), (150, { data := [0x01] }), (180, { data := [0x30, 0, 0] })]

theorem wait_keeps_deadline_junk :
    WaitEnds isFlowControl (0 + 250) Feed.junk
        (.error (.relay .timeout), 250, { arrivals := [(300, { data := [0x01] })] }) ∧
      (waitFor isFlowControl (fun _ => 20) 250 0 Feed.behindJunk).1 =
        .ok { data := [0x30, 0, 0] } := by
  have hdelay : ∀ n, (fun _ : Nat => 20) n ≤ 20 := fun _ => le_rfl
  obtain ⟨hends, -⟩ := wait_keeps_deadline isFlowControl 250 0 Feed.junk hdelay
  obtain ⟨-, -, -, htakes⟩ := wait_keeps_deadline isFlowControl 250 0 Feed.behindJunk hdelay
  refine ⟨hends, ?_⟩
  exact htakes [(100, { data := [0x01] }), (150, { data := [0x01] })] [] 180 _ rfl (by decide) rfl
    (by decide)

/-- The frame that a wait takes is one that it accepts. -/
theorem WaitEnds.accepted {t : Nat} (h : WaitEnds accept deadline feed (.ok f, t, feed')) :
    accept f = true := by
  cases h with
  | took _ _ hf _ _ => exact hf

/-- The longest that a wait of a call takes, in microseconds. -/
def waitTime (timeout latency : Nat) : Nat := 1000 * timeout + latency

/-- The longest that a segment takes: a wait before it, the frame, a wait behind it and the
separation time. -/
def segmentTime (timeout latency : Nat) : Nat :=
  waitTime timeout latency + (latency + (waitTime timeout latency + (127000 + latency)))

theorem waitFc_within (timeout : Nat) :
    Within 1000 latency (waitFc timeout) (waitTime timeout latency) :=
  Within.await (a := 0) fun _ _ => .ret _

theorem busSend_within (f : Frame) : Within 1000 latency (busSend f) latency :=
  Within.emit (a := 0) fun _ => .ret _

theorem stminToDuration_le (stmin : UInt8) : stminToDuration stmin ≤ 127000 := by
  unfold stminToDuration
  split_ifs with hms hus
  · have : stmin.toNat ≤ 0x7F := hms
    omega
  · have : stmin.toNat ≤ 0xF9 := hus.2
    omega
  · exact Nat.zero_le _

theorem refreshFc_within (cfg : Config) (due : Bool) (fcData : List UInt8) (blockCount : Nat) :
    Within 1000 latency (refreshFc cfg due fcData blockCount) (waitTime cfg.timeout latency) := by
  unfold refreshFc
  cases due with
  | true =>
    refine (waitFc_within cfg.timeout).bind (b := 0) fun res => ?_
    cases res <;> exact .ret _
  | false => exact .ret _

theorem add_segmentTime (timeout latency n : Nat) :
    waitTime timeout latency + (latency + (waitTime timeout latency + (127000 + latency + n))) =
      n + segmentTime timeout latency := by
  unfold segmentTime
  omega

/-- Whatever the flow controls ask for, a segment takes no longer than this. -/
theorem sendLoop_within (cfg : Config) (payload : List UInt8) (rounds offset : Nat) (sn : UInt8)
    (blockCount : Nat) (fcData : List UInt8) :
    Within 1000 latency (sendLoop cfg payload rounds offset sn blockCount fcData)
      ((payload.length - offset + 6) / 7 * segmentTime cfg.timeout latency) := by
  induction rounds generalizing offset sn blockCount fcData with
  | zero => exact .ret _
  | succ rounds ih =>
    rw [sendLoop]
    split_ifs with hlt
    · have hsegs : (payload.length - offset + 6) / 7 =
          (payload.length - (offset + min 7 (payload.length - offset)) + 6) / 7 + 1 := by omega
      rw [hsegs, Nat.succ_mul, ← add_segmentTime]
      refine (refreshFc_within cfg _ fcData blockCount).bind fun res => ?_
      cases res with
      | error err => exact .ret _
      | ok fc =>
        refine (busSend_within _).bind fun err => ?_
        cases err with
        | some err => exact .ret _
        | none =>
          refine (refreshFc_within cfg _ fc.1 (fc.2 + 1)).bind fun res => ?_
          cases res with
          | error err => exact .ret _
          | ok fc =>
            dsimp only
            split_ifs
            · have hpause := Nat.add_le_add_right (stminToDuration_le (fcStMin fc.1)) latency
              exact (Within.pause (ih _ _ _ _)).mono (Nat.add_le_add_right hpause _)
            · exact (ih _ _ _ _).mono (Nat.le_add_left _ _)
    · exact .ret _

/-- The longest that `send` takes for a payload of this length. -/
def sendTime (cfg : Config) (latency length : Nat) : Nat :=
  latency + (waitTime cfg.timeout latency + length / 7 * segmentTime cfg.timeout latency)

/-- The longest that `recv` takes: a first frame, its flow control and a frame for each byte. -/
def recvTime (timeout latency : Nat) : Nat :=
  waitTime timeout latency + (latency + kMaxPayload * (waitTime timeout latency + latency))

theorem send_within (cfg : Config) (payload : List UInt8) :
    Within 1000 latency (send cfg payload) (sendTime cfg latency payload.length) := by
  unfold send sendTime
  split_ifs with hempty hmax hsingle
  · exact .ret _
  · exact .ret _
  · exact (busSend_within _).mono (Nat.le_add_right _ _)
  · refine (busSend_within _).bind fun err => ?_
    cases err with
    | some err => exact .ret _
    | none =>
      refine (waitFc_within cfg.timeout).bind fun res => ?_
      cases res with
      | error err => exact .ret _
      | ok fcData =>
        dsimp only
        split_ifs
        · exact .ret _
        · have hsegs : payload.length - 6 + 6 = payload.length := by omega
          simpa only [hsegs] using sendLoop_within cfg payload payload.length 6 1 0 fcData

/-- Every round of the loop takes a byte, a wait and at most one flow control. -/
theorem recvLoop_within (cfg : Config) (timeout length rounds : Nat) (buf : List UInt8)
    (sn : UInt8) (cfInBlock : Nat) :
    Within 1000 latency (recvLoop cfg timeout length rounds buf sn cfInBlock)
      ((length - buf.length) * (waitTime timeout latency + latency)) := by
  induction rounds generalizing buf sn cfInBlock with
  | zero => exact .ret _
  | succ rounds ih =>
    by_cases hlt : buf.length < length
    · obtain ⟨missing, hmissing⟩ := Nat.exists_eq_add_one_of_ne_zero (Nat.sub_ne_zero_of_lt hlt)
      rw [recvLoop_of_lt hlt, hmissing, Nat.succ_mul, Nat.add_comm, Nat.add_assoc]
      refine Within.await fun res _ => ?_
      cases res with
      | error err => exact .ret _
      | ok cf =>
        dsimp only [onSegment]
        split_ifs with hsn hshort
        · exact .ret _
        · exact .ret _
        generalize hbuf : buf ++
          (cf.data.drop 1).take (min (cf.data.length - 1) (length - buf.length)) = buf'
        have hgrows : length - buf'.length ≤ missing := by
          rw [← hbuf, List.length_append, List.length_take, List.length_drop]
          omega
        have hnext : ∀ sn cfInBlock, Within 1000 latency
            (recvLoop cfg timeout length rounds buf' sn cfInBlock)
            (missing * (waitTime timeout latency + latency)) := fun sn cfInBlock =>
          (ih buf' sn cfInBlock).mono (Nat.mul_le_mul_right _ hgrows)
        unfold afterSegment
        split_ifs
        · refine Within.emit fun err => ?_
          cases err with
          | some err => exact .ret _
          | none => exact hnext _ _
        · exact (hnext _ _).mono (Nat.le_add_left _ _)
        · exact (hnext _ _).mono (Nat.le_add_left _ _)
    · rw [recvLoop_of_le (Nat.le_of_not_lt hlt)]
      exact .ret _

/-- A length has twelve bits. -/
theorem declared_le (pci low : UInt8) :
    ((pci &&& 0x0F).toNat <<< 8) ||| low.toNat ≤ kMaxPayload := by
  have hnibble : (pci &&& 0x0F).toNat < 2 ^ 4 := by
    rw [toNat_and_nibble]
    exact Nat.mod_lt _ (by decide)
  have hhigh : (pci &&& 0x0F).toNat <<< 8 < 2 ^ 12 := by
    rw [Nat.shiftLeft_eq]
    omega
  have hlow : low.toNat < 2 ^ 12 := Nat.lt_trans low.toNat_lt (by decide)
  exact Nat.le_of_lt_succ (Nat.or_lt_two_pow hhigh hlow)

theorem recv_within (cfg : Config) (timeout : Nat) :
    Within 1000 latency (recv cfg timeout) (recvTime timeout latency) := by
  rw [recv_eq]
  refine Within.await fun res _ => ?_
  cases res with
  | error err => exact .ret _
  | ok first =>
    dsimp only [onFirst]
    split
    · exact .ret _
    · split_ifs
      · exact .ret _
      · exact .ret _
      · split
        · exact .ret _
        · refine Within.emit fun err => ?_
          cases err with
          | some err => exact .ret _
          | none =>
            refine (recvLoop_within cfg timeout _ _ _ 1 0).mono (Nat.mul_le_mul_right _ ?_)
            exact Nat.le_trans (Nat.sub_le _ _) (declared_le _ _)
      · exact .ret _

/-- What a thread meets: the answers of the bus to its frames, and how late it is at each step of
a call, also how long the bus takes over a frame, and in each round of a wait. -/
structure Surroundings where
  answer : Nat → Option ErrorCode
  delay : Nat → Nat → Nat

/-- The call from its step `n` on: what it returns, when, and what the channel still holds. Its
waits are those of `wait_fc` and `recv_cf`. -/
def timed {ρ : Type} (around : Surroundings) : Call ρ → Nat → Nat → Feed → ρ × Nat × Feed
  | .ret r, _, now, feed => (r, now, feed)
  | .emit _ k, n, now, feed =>
    timed around (k (around.answer n)) (n + 1) (now + around.delay n 0) feed
  | .await limit accept k, n, now, feed =>
    let (res, now, feed) := waitFor accept (around.delay n) (1000 * limit) now feed
    timed around (k res) (n + 1) now feed
  | .pause duration k, n, now, feed =>
    timed around k (n + 1) (now + (duration + around.delay n 0)) feed

/-- The first wait of `recv` that begins at `start`: it takes any frame and looks at no clock before
it does. -/
def waitFirst (delay timeout start : Nat) (feed : Feed) : Except ErrorCode Frame × Nat × Feed :=
  match feed.recvFor (start + delay) timeout with
  | (none, now, feed) => (.error (feed.refusal now), now, feed)
  | (some f, now, feed) => (.ok f, now, feed)

/-- A call of `recv`. -/
def timedRecv (around : Surroundings) (cfg : Config) (timeout start : Nat) (feed : Feed) :
    Except ErrorCode (List UInt8) × Nat × Feed :=
  let (res, now, feed) := waitFirst (around.delay 0 0) (1000 * timeout) start feed
  timed around (onFirst cfg timeout res) 1 now feed

/-- A frame that is in the channel is taken however short the limit is. -/
example : (timedRecv ⟨fun _ => none, fun _ _ => 20⟩ {} 0 50
    { arrivals := [(0, { data := [0x01, 0xAB] })] }).1 = .ok [0xAB] := rfl

/-- A call takes no longer in its surroundings than its steps allow. -/
theorem timed_lasts {ρ : Type} {around : Surroundings} (hlate : ∀ n i, around.delay n i ≤ latency)
    (p : Call ρ) (n now : Nat) (feed : Feed) :
    ∃ d, Lasts 1000 latency p d (timed around p n now feed).1 ∧
      (timed around p n now feed).2.1 = now + d := by
  induction p generalizing n now feed with
  | ret r => exact ⟨0, .ret r, rfl⟩
  | emit f k ih =>
    obtain ⟨d, h, hd⟩ := ih (around.answer n) (n + 1) (now + around.delay n 0) feed
    exact ⟨_, .emit (hlate n 0) h, hd.trans (Nat.add_assoc _ _ _)⟩
  | await limit accept k ih =>
    obtain ⟨hends, hmono, hbound, -⟩ :=
      wait_keeps_deadline accept (1000 * limit) now feed (hlate n)
    rw [timed]
    rcases hw : waitFor accept (around.delay n) (1000 * limit) now feed with ⟨res, t, feed'⟩
    rw [hw] at hends hmono hbound
    obtain ⟨d, h, hd⟩ := ih res (n + 1) t feed'
    have ht : t - now ≤ 1000 * limit + latency := by
      dsimp only at hbound
      omega
    refine ⟨t - now + d, .await (fun f hf => ?_) ht h, ?_⟩
    · subst hf
      exact hends.accepted
    · dsimp only at hmono ⊢
      omega
  | pause duration k ih =>
    obtain ⟨d, h, hd⟩ := ih (n + 1) (now + (duration + around.delay n 0)) feed
    exact ⟨_, .pause (Nat.add_le_add_left (hlate n 0) _) h, hd.trans (Nat.add_assoc _ _ _)⟩

theorem timed_le {ρ : Type} {around : Surroundings} {p : Call ρ} {bound : Nat}
    (hlate : ∀ n i, around.delay n i ≤ latency) (h : Within 1000 latency p bound) (start : Nat)
    (feed : Feed) : (timed around p 0 start feed).2.1 ≤ start + bound := by
  obtain ⟨d, hlasts, hd⟩ := timed_lasts hlate p 0 start feed
  rw [hd]
  exact Nat.add_le_add_left (h d _ hlasts) start

/-- The first wait ends with its limit, but for the latency of the call. -/
theorem waitFirst_within {first timeout start : Nat} {res : Except ErrorCode Frame}
    (hlate : first ≤ latency) (h : waitFirst first timeout start feed = (res, now, feed')) :
    start ≤ now ∧ now ≤ start + (timeout + latency) := by
  unfold waitFirst at h
  rcases hrecv : feed.recvFor (start + first) timeout with ⟨answer, t, rest⟩
  rw [hrecv] at h
  have hwait : start + first ≤ t ∧ t ≤ start + first + timeout := by
    cases answer with
    | none =>
      obtain ⟨-, hle, hlimit, -⟩ := Feed.recvFor_none hrecv
      exact ⟨hle, hlimit⟩
    | some f =>
      obtain ⟨a, -, -, hle, hlimit⟩ := Feed.recvFor_some hrecv
      exact ⟨hle, hlimit⟩
  have ht : t = now := by
    cases answer with
    | none => exact congrArg (·.2.1) h
    | some f => exact congrArg (·.2.1) h
  omega

theorem timedRecv_lasts {around : Surroundings} (hlate : ∀ n i, around.delay n i ≤ latency)
    (cfg : Config) (timeout start : Nat) (feed : Feed) :
    ∃ d, Lasts 1000 latency (recv cfg timeout) d (timedRecv around cfg timeout start feed).1 ∧
      (timedRecv around cfg timeout start feed).2.1 = start + d := by
  rw [recv_eq, timedRecv]
  rcases hw : waitFirst (around.delay 0 0) (1000 * timeout) start feed with ⟨res, t, feed'⟩
  obtain ⟨hmono, hbound⟩ := waitFirst_within (hlate 0 0) hw
  obtain ⟨d, h, hd⟩ := timed_lasts hlate (onFirst cfg timeout res) 1 t feed'
  have ht : t - start ≤ 1000 * timeout + latency := by omega
  refine ⟨t - start + d, .await (fun _ _ => rfl) ht h, ?_⟩
  dsimp only
  omega

/-- Whatever arrives and however the bus answers, `send` returns in a time that the length of
the payload and the configuration bound, and `recv` in one that its limit bounds. -/
theorem calls_return_in_time (cfg : Config) (payload : List UInt8) (timeout start : Nat)
    (around : Surroundings) (feed : Feed) (hlate : ∀ n i, around.delay n i ≤ latency) :
    (timed around (send cfg payload) 0 start feed).2.1 ≤
        start + sendTime cfg latency payload.length ∧
      (timedRecv around cfg timeout start feed).2.1 ≤ start + recvTime timeout latency := by
  obtain ⟨d, hlasts, hd⟩ := timedRecv_lasts hlate cfg timeout start feed
  refine ⟨timed_le hlate (send_within cfg payload) start feed, ?_⟩
  rw [hd]
  exact Nat.add_le_add_left (recv_within cfg timeout d _ hlasts) start

theorem calls_return_in_time_junk :
    (timed ⟨fun _ => none, fun _ _ => 20⟩ (send {} (List.replicate 8 0)) 0 0 Feed.junk).2.1 ≤
        0 + sendTime {} 20 (List.replicate 8 (0 : UInt8)).length ∧
      (timedRecv ⟨fun _ => none, fun _ _ => 20⟩ {} 250 0 Feed.junk).2.1 ≤ 0 + recvTime 250 20 :=
  calls_return_in_time {} (List.replicate 8 0) 250 0 ⟨fun _ => none, fun _ _ => 20⟩ Feed.junk
    (fun _ _ => le_rfl)

end CppCan.IsoTp
