import Mathlib.Data.Nat.Notation

/-!
# Bounded channels

A channel buffers at most `capacity` items in order and may be closed. Each
operation is one step under the channel's own lock. An operation that has to
wait has no result until it is enabled.
-/

namespace CppCan

/-- A bounded FIFO channel. -/
structure Chan (α : Type) where
  capacity : Nat := 64
  buf : List α := []
  closed : Bool := false
  deriving DecidableEq, Repr

namespace Chan

variable {α : Type}

/-- What a send that does not wait reports. -/
inductive SendResult where
  | ok
  | full
  | closed
  deriving DecidableEq, Repr

/-- Blocking send: waits for space or for the channel to be closed. -/
def send (c : Chan α) (value : α) : Option (Chan α × Bool) :=
  if c.closed then some (c, false)
  else if c.buf.length < c.capacity then some ({ c with buf := c.buf ++ [value] }, true)
  else none

/-- Send without waiting. -/
def trySend (c : Chan α) (value : α) : Chan α × SendResult :=
  if c.closed then (c, .closed)
  else if c.buf.length ≥ c.capacity then (c, .full)
  else ({ c with buf := c.buf ++ [value] }, .ok)

/-- Send and evict the head of a full channel. At capacity zero the buffer has no head: there the
pop is undefined in the source and removes nothing here. -/
def sendDropOldest (c : Chan α) (value : α) : Chan α × Bool :=
  if c.closed then (c, false)
  else if c.buf.length ≥ c.capacity then ({ c with buf := c.buf.tail ++ [value] }, true)
  else ({ c with buf := c.buf ++ [value] }, true)

/-- Blocking receive: waits for an item or for the channel to be closed. -/
def recv (c : Chan α) : Option (Chan α × Option α) :=
  match c.buf with
  | [] => if c.closed then some (c, none) else none
  | value :: rest => some ({ c with buf := rest }, some value)

/-- Receive that waits until the time has run out; what is there is taken even then. -/
def recvFor (c : Chan α) (expired : Bool) : Option (Chan α × Option α) :=
  match c.buf with
  | [] => if c.closed || expired then some (c, none) else none
  | value :: rest => some ({ c with buf := rest }, some value)

/-- Receive without waiting. -/
def tryRecv (c : Chan α) : Chan α × Option α :=
  match c.buf with
  | [] => (c, none)
  | value :: rest => ({ c with buf := rest }, some value)

/-- Close the channel; what is buffered can still be received. -/
def close (c : Chan α) : Chan α := { c with closed := true }

/-- Only a full open channel makes a sender wait. -/
theorem send_eq_none {c : Chan α} {value : α} :
    c.send value = none ↔ c.closed = false ∧ c.capacity ≤ c.buf.length := by
  unfold send
  split
  · simp_all
  · split
    · simp_all
    · simp_all

end Chan

end CppCan
