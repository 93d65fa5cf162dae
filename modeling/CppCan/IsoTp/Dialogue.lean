import CppCan.Core.Conversation
import CppCan.IsoTp.Isolation

/-!
# Many messages between two connections

Two connections take turns: in each turn one of them calls `send` and the other one
`recv`. A turn that agrees leaves nothing on the way, so the next one starts as if it were
the first. The frames of one message are never taken for frames of another one, whoever
sends it and however the two threads are scheduled.
-/

namespace CppCan.IsoTp

open CppCan.Core CppCan.Relay Relation

/-- The sender of a message and its payload. -/
abbrev Message := Side × List UInt8

/-- The connection at one end calls `send` for its own messages and `recv` for the others. -/
def request (timeout : Nat) (here : Side) (m : Message) : Request :=
  if m.1 = here then .send m.2 else .recv timeout

/-- What the call returns when the message gets through. -/
def answer (here : Side) (m : Message) : Answer :=
  if m.1 = here then .sent none else .received (.ok m.2)

/-- The connection that receives the message. -/
def receiverOf (left right : Config) (m : Message) : Config :=
  match m.1 with
  | .left => right
  | .right => left

/-- The two calls of a message. -/
def turnOf (left right : Config) (timeout : Nat) (m : Message) :
    Duplex.Turn Frame ErrorCode Answer Answer where
  left := (request timeout .left m).call left
  right := (request timeout .right m).call right
  leftResult := answer .left m
  rightResult := answer .right m

/-- Two connections that exchange the messages in this order. -/
def dialogue (left right : Config) (timeout : Nat) (messages : List Message) :
    Duplex Frame ErrorCode Answer Answer :=
  Duplex.conversation (messages.map (turnOf left right timeout))

variable {left right : Config} {timeout : Nat} {m : Message} {messages : List Message}

/-- A message from either side that leaves no block full gets through. -/
theorem completes_turnOf (hne : m.2 ≠ []) (hmax : m.2.length ≤ kMaxPayload)
    (hfull : ¬ LastBlockFull (receiverOf left right m).blockSize m.2) :
    (turnOf left right timeout m).Completes := by
  obtain ⟨side, payload⟩ := m
  cases side with
  | left =>
    have hrun := exchange_finishes left right timeout hne hmax hfull
    exact Duplex.embed_run hrun Answer.sent Answer.received [] [] [] []
  | right =>
    have hrun := Duplex.swap_run (exchange_finishes right left timeout hne hmax hfull)
    exact Duplex.embed_run hrun Answer.received Answer.sent [] [] [] []

/-- A request in one frame and an answer in three, twice. -/
def twoRequests : List Message :=
  [(.left, [0x22]), (.right, List.replicate 14 7), (.left, [0x22]), (.right, List.replicate 14 8)]

end CppCan.IsoTp
