import Mathlib.Data.Nat.Notation

/-!
# The types the transports share

Error codes, the back-pressure policies of a subscription and the options a
subscriber may give. A zero or negative channel depth stands for the default of
the transport.
-/

namespace CppCan.Relay

/-- Error codes of the relay category. -/
inductive Errc where
  | closed
  | notConnected
  | timeout
  | payloadTooLarge
  deriving DecidableEq, Repr

/-- Error codes of the generic category that the transports return. -/
inductive GenericErrc where
  | invalidArgument
  | noBufferSpace
  | badMessage
  | connectionAborted
  | notSupported
  deriving DecidableEq, Repr

/-- An error code of one of the two categories. -/
inductive ErrorCode where
  | relay (e : Errc)
  | generic (e : GenericErrc)
  deriving DecidableEq, Repr

/-- What happens to a frame for a full channel. -/
inductive BackPressurePolicy where
  /-- The arriving frame is discarded. -/
  | dropNewest
  /-- The oldest buffered frame is evicted. -/
  | dropOldest
  /-- The sender waits until there is space. -/
  | block
  deriving DecidableEq, Repr

/-- The settings of a subscription. -/
structure SubscriberConfig where
  chanDepth : Int := 0
  backPressure : BackPressurePolicy := .dropNewest
  eventId : UInt32 := 0
  topicName : String := ""
  deriving DecidableEq, Repr

/-- The depth asked for, or the default. -/
def SubscriberConfig.effectiveDepth (cfg : SubscriberConfig) (defaultDepth : Int) : Int :=
  if cfg.chanDepth > 0 then cfg.chanDepth else defaultDepth

/-- An option changes the settings. -/
abbrev SubscriberOption := SubscriberConfig → SubscriberConfig

def withChannelDepth (n : Int) : SubscriberOption := fun c => { c with chanDepth := n }

def withBackPressure (p : BackPressurePolicy) : SubscriberOption :=
  fun c => { c with backPressure := p }

/-- Apply the options to the default settings, in order. -/
def applyOptions (opts : List SubscriberOption) : SubscriberConfig :=
  opts.foldl (fun c o => o c) {}

/-- The options of a node's subscription. -/
structure SubscriberOptions where
  channelDepth : Nat := 64
  backPressure : BackPressurePolicy := .dropNewest
  deriving DecidableEq, Repr

end CppCan.Relay
