import CppCan.IsoTp.Transport
import CppCan.Virt.Calls

/-!
# Two connections on one in-process bus

Each connection subscribes for its receive identifier with the default options.
One thread sends on the first connection and one thread receives on the second.
A frame that a call emits goes through the steps of the bus; a wait takes frames
from the connection's channel. A wait is given up only when no frame is queued
and no thread is about to send one.
-/

namespace CppCan.IsoTp

open CppCan.Core CppCan.Relay
open CppCan.Virt (Bus Pc)

/-- A connection with a thread in one of its calls: its channel, where the thread is in a
call of the bus, the rest of its own calls and what the finished ones returned. -/
structure Endpoint (ρ : Type) where
  ch : Nat
  pc : Pc := .idle
  calls : List (Call ρ)
  results : List ρ := []

/-- The next step of thread `i`, if it need not wait. -/
def Endpoint.advance {ρ : Type} (i : Nat) (b : Bus) (e : Endpoint ρ) : Option (Bus × Endpoint ρ) :=
  match e.calls with
  | [] => none
  | .ret r :: rest => some (b, { e with calls := rest, results := e.results ++ [r] })
  | .emit f k :: rest =>
    match e.pc with
    | .idle =>
      let (b, pc) := (Virt.Call.send f).begin b
      some (b, { e with pc := pc })
    | .returned (.sent err) => some (b, { e with pc := .idle, calls := k err :: rest })
    | pc => (b.step i pc).map fun (b, pc) => (b, { e with pc := pc })
  | .await _ accept k :: rest =>
    match (b.chan e.ch).tryRecv with
    | (_, none) => none
    | (c, some f) =>
      some (b.setChan e.ch c,
        { e with calls := if accept f then k (.ok f) :: rest else e.calls })
  | .pause _ k :: rest => some (b, { e with calls := k :: rest })

/-- The thread gives up the wait it is in. -/
def Endpoint.expire {ρ : Type} (timeout : ErrorCode) (e : Endpoint ρ) : Option (Endpoint ρ) :=
  match e.calls with
  | .await _ _ k :: rest => some { e with calls := k (.error timeout) :: rest }
  | _ => none

/-- The thread waits for a frame or has nothing left to do but to return. -/
def Endpoint.settled {ρ : Type} (e : Endpoint ρ) : Bool :=
  match e.calls with
  | [] | [.ret _] | .await _ _ _ :: _ => true
  | _ => false

/-- All calls have returned, with these results. -/
def Endpoint.Returned {ρ : Type} (e : Endpoint ρ) (results : List ρ) : Prop :=
  e.calls = [] ∧ e.results = results

/-- A bus with a sending and a receiving connection. -/
structure Link where
  bus : Bus
  sender : Endpoint (Option ErrorCode)
  receiver : Endpoint (Except ErrorCode (List UInt8))

/-- `Conn::create` subscribes for the receive identifier. -/
def create (bus : Bus) (cfg : Config) : Bus × Except ErrorCode Nat :=
  bus.subscribe [{ id := cfg.rxId, mask := 0x1FFFFFFF }] []

/-- The two connections of a new bus, created in either order. -/
def connect (sender receiver : Config) (senderFirst : Bool) : Bus × Nat × Nat :=
  if senderFirst then
    let (bus, s) := create {} sender
    let (bus, r) := create bus receiver
    (bus, s.toOption.getD 0, r.toOption.getD 0)
  else
    let (bus, r) := create {} receiver
    let (bus, s) := create bus sender
    (bus, s.toOption.getD 0, r.toOption.getD 0)

/-- One thread in `send` and one in `recv`. -/
def link (sender receiver : Config) (senderFirst : Bool) (timeout : Nat) (payload : List UInt8) :
    Link :=
  let (bus, s, r) := connect sender receiver senderFirst
  { bus := bus
    sender := { ch := s, calls := [send sender payload] }
    receiver := { ch := r, calls := [recv receiver timeout] } }

namespace Link

/-- What a scheduler may choose next. -/
inductive Event where
  | send
  | recv
  | expireSend
  | expireRecv
  deriving DecidableEq, Repr

/-- No frame is queued and no thread is about to send one. -/
def quiet (w : Link) : Bool :=
  (w.bus.chan w.sender.ch).buf.isEmpty && (w.bus.chan w.receiver.ch).buf.isEmpty &&
    w.sender.settled && w.receiver.settled

/-- The state after an event, if it can happen. -/
def step (w : Link) : Event → Option Link
  | .send => (w.sender.advance 0 w.bus).map fun (b, e) => { w with bus := b, sender := e }
  | .recv => (w.receiver.advance 1 w.bus).map fun (b, e) => { w with bus := b, receiver := e }
  | .expireSend =>
    if w.quiet then (w.sender.expire (.relay .timeout)).map fun e => { w with sender := e }
    else none
  | .expireRecv =>
    if w.quiet then (w.receiver.expire (.relay .timeout)).map fun e => { w with receiver := e }
    else none

/-- Some event happens. -/
def Step (w w' : Link) : Prop := ∃ e, w.step e = some w'

/-- The state after a sequence of events. -/
def run : Link → List Event → Option Link
  | w, [] => some w
  | w, e :: es => (w.step e).bind fun w => w.run es

end Link

end CppCan.IsoTp
