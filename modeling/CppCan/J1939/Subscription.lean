import CppCan.Can.Bridge
import CppCan.J1939.Bus
import CppCan.J1939.Traffic

/-!
# Subscriptions of the J1939 bus

Both kinds of subscription run a bridge thread between a subscription of the CAN bus and the
channel of the subscriber. The one decodes single frames, the other reassembles broadcasts.
Neither waits for the subscriber, so both come to their end once the CAN bus is closed.
-/

namespace CppCan.J1939

open CppCan.Core CppCan.Bridge

/-- The message of a single frame for a subscriber of these groups. -/
def decoded (pgns : List PGN) (cf : CppCan.Frame) : Option Frame :=
  if !cf.ext then none
  else
    let id := decodeId cf.id
    if !matchesPgns id.pgn pgns then none
    else
      let dst := if pgnIsPeerToPeer id.pgn then ((cf.id >>> 8) &&& 0xFF).toUInt8 else kBroadcastAddr
      some { priority := id.priority, pgn := id.pgn, src := id.src, dst, data := cf.data }

/-- The loop of `subscribe` publishes the message if there is one. -/
theorem subscribeStep_eq (pgns : List PGN) (out : Chan Frame) (cf : CppCan.Frame) :
    subscribeStep pgns out cf = (decoded pgns cf).elim out fun jf => (out.trySend jf).1 := by
  unfold subscribeStep decoded
  dsimp only
  split_ifs <;> rfl

/-- The bridge thread of `subscribe`. -/
def subscribeBridge (pgns : List PGN) : Bridge Unit Unit CppCan.Frame Frame where
  init := ()
  handle _ _ cf := ((), decoded pgns cf)
  publish := .trySend
  publish_value _ := rfl

/-- The bridge thread of `subscribe_tp`. It reads the clock. -/
def subscribeTpBridge (pgns : List PGN) : Bridge Sessions TimePoint CppCan.Frame Frame where
  init := noSessions
  handle now sessions cf := handleFrame pgns sessions ⟨cf, now⟩
  publish := .trySend
  publish_value _ := rfl

/-- What the thread of `subscribe_tp` handled, with the times. -/
def arrivalsOf (w : World Sessions TimePoint CppCan.Frame Frame) : List Arrival :=
  w.handled.map fun v => ⟨v.2, v.1⟩

theorem outputs_subscribeBridge (pgns : List PGN) (values : List (Unit × CppCan.Frame)) :
    (subscribeBridge pgns).outputs (subscribeBridge pgns).init values =
      (values.map Prod.snd).filterMap (decoded pgns) := by
  induction values with
  | nil => rfl
  | cons v values ih =>
    rw [outputs, List.map_cons, List.filterMap_cons, ← ih]
    cases h : decoded pgns v.2 <;> simp [subscribeBridge, h]

theorem outputs_subscribeTpBridge (pgns : List PGN) (sessions : Sessions)
    (values : List (TimePoint × CppCan.Frame)) :
    (subscribeTpBridge pgns).outputs sessions values =
      subscribeTp pgns sessions (values.map fun v => ⟨v.2, v.1⟩) := by
  induction values generalizing sessions with
  | nil => rfl
  | cons v values ih =>
    rw [outputs, ih]
    rfl

/-- A subscriber of `subscribe` receives messages of frames on the bus in their order. It meets
the end of the stream only when every frame has been handled, and once the bus is closed the
thread gets there whatever the subscriber does. While the subscriber's channel has room for all
the messages, none of them is lost. -/
theorem subscribe_delivers (pgns : List PGN) (inDepth outDepth : Nat)
    (es : List (Bridge.Event Unit CppCan.Frame Frame)) (w : World Unit Unit CppCan.Frame Frame)
    (hrun : Runs.run (step (subscribeBridge pgns)) (start (subscribeBridge pgns) inDepth outDepth)
      es = some w) :
    w.received.Sublist (w.accepted.filterMap (decoded pgns)) ∧
      (w.output.closed = true → w.received.length + w.output.buf.length + w.dropped =
        (w.accepted.filterMap (decoded pgns)).length) ∧
      (w.input.closed = true → ∀ r : World Unit Unit CppCan.Frame Frame → _ → Prop,
        (∀ u v, Thread (subscribeBridge pgns) u v → r u v) →
        (∀ u v, r u v → Flows (subscribeBridge pgns) u v) →
        Inevitably r (fun u => u.output.closed = true ∧
          ((w.accepted.filterMap (decoded pgns)).length ≤ outDepth →
            u.received ++ u.output.buf = w.accepted.filterMap (decoded pgns))) w) := by
  have hw : Reached (subscribeBridge pgns) inDepth outDepth w := ⟨es, hrun⟩
  refine ⟨?_, fun hclosed => ?_, fun hclosed r hthread hflows => ?_⟩
  · have hsub := hw.received_sublist
    rw [outputs_subscribeBridge] at hsub
    exact hsub.trans (hw.handled_prefix.sublist.filterMap _)
  · have hended := hw.ended hclosed
    rw [hended.length_eq, outputs_subscribeBridge, hended.handled_eq]
  · have hending : Ending (subscribeBridge pgns) inDepth outDepth w.accepted w :=
      ⟨hw, hclosed, rfl⟩
    have hend := hending.inevitably_ended hthread hflows fun _ _ => rfl
    refine hend.mono fun u hu => ⟨hu.reached.faithful.closed_iff.mpr hu.done, fun hroom => ?_⟩
    have houtputs := outputs_subscribeBridge pgns u.handled
    rw [hu.handled_eq] at houtputs
    have hdropped : u.dropped = 0 := by
      refine (hu.reached.dropped_or fun _ => rfl).resolve_right ?_
      rw [houtputs]
      omega
    rw [hu.received_eq hdropped, houtputs]

/-- A request and a standard frame, of which the thread has handled one. -/
def requestAndStandard : List (Bridge.Event Unit CppCan.Frame Frame) :=
  [.feed { id := 0x18EA2142, ext := true, data := [0xCA, 0xFE, 0] }, .handle (), .publish,
    .feed { id := 0x123, data := [1] }, .closeInput]

theorem subscribe_delivers_request :
    ∃ w, Runs.run (step (subscribeBridge [])) (start (subscribeBridge []) 64 64)
        requestAndStandard = some w ∧
      Inevitably (Thread (subscribeBridge [])) (fun u => u.output.closed = true ∧
        u.received ++ u.output.buf = [⟨6, 0xEA00, 0x42, 0x21, [0xCA, 0xFE, 0]⟩]) w := by
  obtain ⟨w, hrun⟩ : ∃ w, Runs.run (step (subscribeBridge [])) (start (subscribeBridge []) 64 64)
      requestAndStandard = some w := ⟨_, rfl⟩
  have hmessages : w.accepted.filterMap (decoded []) =
      [⟨6, 0xEA00, 0x42, 0x21, [0xCA, 0xFE, 0]⟩] := by
    obtain rfl := Option.some.inj hrun
    rfl
  have hclosed : w.input.closed = true := by
    obtain rfl := Option.some.inj hrun
    rfl
  obtain ⟨-, -, hend⟩ := subscribe_delivers [] 64 64 requestAndStandard w hrun
  refine ⟨w, hrun, ?_⟩
  refine (hend hclosed _ (fun _ _ => id) fun _ _ => .inl).mono fun u ⟨hu, hall⟩ => ⟨hu, ?_⟩
  rw [hmessages] at hall
  exact hall (by decide)

/-- A station broadcasts long messages and sends nothing else that opens a session or carries a
segment, and the thread of `subscribe_tp` handles its packets in time. When the stream has ended,
the subscriber has received or finds in his channel messages of the station in the order in which
it sent them, and all of them if his channel has room for the messages of all stations. -/
theorem subscribeTp_delivers (pgns : List PGN) (inDepth outDepth : Nat)
    (es : List (Bridge.Event TimePoint CppCan.Frame Frame))
    (w : World Sessions TimePoint CppCan.Frame Frame)
    (hrun : Runs.run (step (subscribeTpBridge pgns))
      (start (subscribeTpBridge pgns) inDepth outDepth) es = some w)
    (hclosed : w.output.closed = true) (src : UInt8) (sent : List Frame)
    (hsent : ∀ f ∈ sent, Broadcastable f)
    (hframes : ((arrivalsOf w).filter (transportOf src)).map (·.frame) =
      sent.flatMap (broadcastFrames src))
    (htimes : (arrivalsOf w).Pairwise (·.time ≤ ·.time))
    (hfollows : ((arrivalsOf w).filter (transportOf src)).IsChain Follows) :
    (arrivalsOf w).map (·.frame) = w.accepted ∧
      ((w.received ++ w.output.buf).filter (·.src = src)).Sublist
        ((sent.filter (matchesPgns ·.pgn pgns)).map (handedOver src)) ∧
      ((subscribeTp pgns noSessions (arrivalsOf w)).length ≤ outDepth →
        (w.received ++ w.output.buf).filter (·.src = src) =
          (sent.filter (matchesPgns ·.pgn pgns)).map (handedOver src)) := by
  have hw : Reached (subscribeTpBridge pgns) inDepth outDepth w := ⟨es, hrun⟩
  have hended := hw.ended hclosed
  have houtputs : (subscribeTpBridge pgns).outputs (subscribeTpBridge pgns).init w.handled =
      subscribeTp pgns noSessions (arrivalsOf w) :=
    outputs_subscribeTpBridge pgns noSessions w.handled
  have hstation : (subscribeTp pgns noSessions (arrivalsOf w)).filter (·.src = src) =
      (sent.filter (matchesPgns ·.pgn pgns)).map (handedOver src) := by
    rw [filter_subscribeTp pgns src _ htimes]
    exact outputs_broadcasts hsent hframes hfollows
  refine ⟨?_, ?_, fun hroom => ?_⟩
  · rw [← hended.handled_eq, arrivalsOf, List.map_map]
    rfl
  · rw [← hstation, ← houtputs]
    refine List.Sublist.filter _ ?_
    have hline := hw.faithful.line_sublist
    rwa [World.line, hended.done, Pc.pending_done, List.append_nil] at hline
  · have hdropped : w.dropped = 0 := by
      refine (hw.dropped_or fun _ => rfl).resolve_right ?_
      rw [houtputs]
      omega
    rw [hended.received_eq hdropped, houtputs, hstation]

/-- Nine bytes of one station with a short message of another one in between. -/
def nineBytes : List (Bridge.Event TimePoint CppCan.Frame Frame) :=
  [.feed { id := 0x1CECFF42, ext := true, data := [0x20, 9, 0, 2, 0xFF, 0xCA, 0xFE, 0] },
    .handle 0,
    .feed { id := 0x1CEBFF42, ext := true, data := [1, 11, 12, 13, 14, 15, 16, 17] },
    .feed { id := 0x18FECA17, ext := true, data := [1, 2, 3] }, .handle 600000000,
    .handle 600000001,
    .feed { id := 0x1CEBFF42, ext := true, data := [2, 18, 19, 0xFF, 0xFF, 0xFF, 0xFF, 0xFF] },
    .handle 1300000000, .publish, .closeInput, .handle 1300000001, .shut]

/-- What the thread handles of them. -/
def nineBytesArrivals : List Arrival :=
  [.extended 0x1CECFF42 [0x20, 9, 0, 2, 0xFF, 0xCA, 0xFE, 0] 0,
    .extended 0x1CEBFF42 [1, 11, 12, 13, 14, 15, 16, 17] 600000000,
    .extended 0x18FECA17 [1, 2, 3] 600000001,
    .extended 0x1CEBFF42 [2, 18, 19, 0xFF, 0xFF, 0xFF, 0xFF, 0xFF] 1300000000]

/-- The message of the station is in the channel at the end. -/
theorem subscribeTp_delivers_nineBytes :
    ∃ w, Runs.run (step (subscribeTpBridge [])) (start (subscribeTpBridge []) 64 64)
        nineBytes = some w ∧
      (w.received ++ w.output.buf).filter (·.src = 0x42) =
        [⟨7, 0xFECA, 0x42, 0xFF, [11, 12, 13, 14, 15, 16, 17, 18, 19]⟩] := by
  obtain ⟨w, hrun⟩ : ∃ w, Runs.run (step (subscribeTpBridge []))
      (start (subscribeTpBridge []) 64 64) nineBytes = some w := ⟨_, rfl⟩
  have hclosed : w.output.closed = true := by
    obtain rfl := Option.some.inj hrun
    rfl
  have harrivals : arrivalsOf w = nineBytesArrivals := by
    obtain rfl := Option.some.inj hrun
    rfl
  obtain ⟨-, -, hall⟩ := subscribeTp_delivers [] 64 64 nineBytes w hrun hclosed 0x42
    [⟨7, 0xFECA, 0, 0, [11, 12, 13, 14, 15, 16, 17, 18, 19]⟩] (by decide)
    (by rw [harrivals]; decide) (by rw [harrivals]; decide) (by rw [harrivals]; decide)
  refine ⟨w, hrun, hall ?_⟩
  rw [harrivals]
  decide

end CppCan.J1939
