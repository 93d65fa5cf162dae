import CppCan.Can.Adapter
import CppCan.Can.Bridge

/-!
# A subscription of the adapter

The bridge thread of a subscription turns every frame of the bus into a message with the next
number of the adapter. What its consumers receive stands for the frames in their order; under
the policy that blocks, for all of them.
-/

namespace CppCan.CanAdapter

open CppCan.Core CppCan.Relay Bridge

/-- The bridge thread. It reads the clock and the counter of the adapter. -/
def bridge (policy : BackPressurePolicy) : Bridge Unit (Int × UInt64) Frame Message where
  init := ()
  handle reading _ f := ((), some (bridgeMessage reading.1 reading.2 f))
  publish := publish policy
  publish_value value := by cases policy <;> rfl

variable {policy : BackPressurePolicy} {inDepth outDepth : Nat} {accepted : List Frame}
  {w : World Unit (Int × UInt64) Frame Message}

/-- The thread publishes one message for each frame. -/
theorem outputs_bridge (values : List ((Int × UInt64) × Frame)) :
    (bridge policy).outputs (bridge policy).init values =
      values.map fun v => bridgeMessage v.1.1 v.1.2 v.2 := by
  induction values with
  | nil => rfl
  | cons v values ih =>
    rw [outputs, List.map_cons, ← ih]
    rfl

/-- The frame of a message of the thread. -/
theorem fromMessage_bridgeMessage {f : Frame} (hf : f.Valid) (now : Int) (seq : UInt64) :
    fromMessage (bridgeMessage now seq f) = .ok f :=
  (fromMessage_congr rfl rfl fun _ => rfl).trans (fromMessage_toMessage now hf)

/-- The messages that the thread makes stand for the frames that it handled. -/
theorem map_fromMessage_outputs (policy : BackPressurePolicy)
    {values : List ((Int × UInt64) × Frame)} (hvalid : ∀ f ∈ values.map Prod.snd, f.Valid) :
    ((bridge policy).outputs (bridge policy).init values).map fromMessage =
      (values.map Prod.snd).map .ok := by
  rw [outputs_bridge, List.map_map, List.map_map]
  refine List.map_congr_left fun v hv => ?_
  exact fromMessage_bridgeMessage (hvalid v.2 (List.mem_map_of_mem hv)) v.1.1 v.1.2

/-- At the end every message was received, is still buffered or was lost. -/
theorem length_of_ended (h : Ended (bridge policy) inDepth outDepth accepted w) :
    w.received.length + w.output.buf.length + w.dropped = accepted.length := by
  rw [h.length_eq, outputs_bridge, List.length_map, ← h.handled_eq, List.length_map]

/-- Two frames for a subscription that blocks, of which one is already received. -/
def twoFrames : List (Bridge.Event (Int × UInt64) Frame Message) :=
  [.feed { id := 0x10, data := [1] }, .feed { id := 0x20, data := [2] }, .handle (5, 0), .publish,
    .closeInput, .consume .recv, .handle (6, 1)]

end CppCan.CanAdapter
