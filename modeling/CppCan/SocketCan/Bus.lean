import CppCan.Can.Chan
import CppCan.Can.Frame
import CppCan.Relay.Types

/-!
# The fan-out of the SocketCAN bus

A background thread reads frames from the kernel and gives each to every
subscription it matches. A subscription keeps its filters and its channel; the
back-pressure policy among its options is not kept.
-/

namespace CppCan.SocketCan

open CppCan.Relay

/-- A subscription; `ch` is the index of its channel. -/
structure Subscription where
  filters : List Filter
  ch : Nat
  deriving DecidableEq, Repr

/-- A bus with every channel it has handed out. -/
structure Bus where
  subs : List Subscription := []
  closed : Bool := false
  channels : List (Chan Frame) := []
  deriving DecidableEq, Repr

namespace Bus

/-- The channel with this index. -/
def chan (b : Bus) (i : Nat) : Chan Frame := b.channels.getD i {}

/-- Replace the channel with this index. -/
def setChan (b : Bus) (i : Nat) (c : Chan Frame) : Bus :=
  { b with channels := b.channels.set i c }

def subscribe (b : Bus) (filters : List Filter) (opts : List SubscriberOption) :
    Bus × Except ErrorCode Nat :=
  let cfg := applyOptions opts
  let depth := cfg.effectiveDepth 64
  if b.closed then (b, .error (.relay .closed))
  else
    let ch := b.channels.length
    ({ b with
        channels := b.channels ++ [{ capacity := depth.toNat }]
        subs := b.subs ++ [⟨filters, ch⟩] }, .ok ch)

/-- What `readLoop` does with a frame it has read. -/
def fanOut (b : Bus) (f : Frame) : Bus :=
  b.subs.foldl (fun b s =>
    if matchesAny s.filters f then b.setChan s.ch ((b.chan s.ch).trySend f).1 else b) b

end Bus

end CppCan.SocketCan
