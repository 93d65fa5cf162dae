import CppCan.Can.Chan
import Mathlib.Data.List.Basic

/-!
# Runs of a channel

The operations that producers and consumers perform on a channel, in the order in
which they take place. An operation that has to wait takes place only once it is
enabled, so a run lists the enabled ones. Operations move values about without
looking at them.
-/

namespace CppCan.Chan

variable {α β : Type}

/-- An operation of some thread; a timed receive may have run out of time. -/
inductive Op (α : Type) where
  | send (value : α)
  | trySend (value : α)
  | sendDropOldest (value : α)
  | recv
  | recvFor (expired : Bool)
  | tryRecv
  | close
  deriving DecidableEq, Repr

/-- What an operation returns. -/
inductive Reply (α : Type) where
  | sent (ok : Bool)
  | tried (result : SendResult)
  | received (value : Option α)
  | closed
  deriving DecidableEq, Repr

/-- The operation takes place, if it need not wait. -/
def perform (c : Chan α) : Op α → Option (Chan α × Reply α)
  | .send value => (c.send value).map fun (c, ok) => (c, .sent ok)
  | .trySend value => some ((c.trySend value).1, .tried (c.trySend value).2)
  | .sendDropOldest value =>
    some ((c.sendDropOldest value).1, .sent (c.sendDropOldest value).2)
  | .recv => c.recv.map fun (c, value) => (c, .received value)
  | .recvFor expired => (c.recvFor expired).map fun (c, value) => (c, .received value)
  | .tryRecv => some (c.tryRecv.1, .received c.tryRecv.2)
  | .close => some (c.close, .closed)

/-- A run of operations with what they return. -/
def run : Chan α → List (Op α) → Option (Chan α × List (Reply α))
  | c, [] => some (c, [])
  | c, op :: ops =>
    (c.perform op).bind fun (c, reply) => (c.run ops).map fun (c, replies) => (c, reply :: replies)

/-- The value an operation offers. -/
def Op.value : Op α → Option α
  | .send value | .trySend value | .sendDropOldest value => some value
  | _ => none

/-- The value was taken over into the channel. -/
def Reply.accepts : Reply α → Bool
  | .sent ok => ok
  | .tried result => result == .ok
  | _ => false

/-- The value that was handed to a consumer. -/
def Reply.value : Reply α → Option α
  | .received value => value
  | _ => none

/-- The ways an operation changes a channel. -/
inductive Effect (c : Chan α) : Op α → Chan α → Reply α → Prop
  | accept {op : Op α} {value : α} {reply : Reply α} (hv : op.value = some value)
      (ha : reply.accepts = true) (hr : reply.value = none) (hopen : c.closed = false)
      (hspace : c.buf.length < c.capacity) :
      Effect c op { c with buf := c.buf ++ [value] } reply
  | evict {value : α} (hopen : c.closed = false) (hfull : c.capacity ≤ c.buf.length) :
      Effect c (.sendDropOldest value) { c with buf := c.buf.tail ++ [value] } (.sent true)
  | take {op : Op α} {value : α} {rest : List α} {reply : Reply α} (hop : op.value = none)
      (hclose : op ≠ .close) (ha : reply.accepts = false) (hr : reply.value = some value)
      (hbuf : c.buf = value :: rest) : Effect c op { c with buf := rest } reply
  | refuse {op : Op α} {reply : Reply α} (hclose : op ≠ .close) (ha : reply.accepts = false)
      (hr : reply.value = none) (hrecv : op = .recv → c.closed = true ∧ c.buf = []) :
      Effect c op c reply
  | close : Effect c .close c.close .closed

variable {c c' : Chan α} {op : Op α} {reply : Reply α}

/-- Every operation has one of these effects. -/
theorem effect_of_perform (h : c.perform op = some (c', reply)) : Effect c op c' reply := by
  cases op with
  | send value =>
    simp only [perform, send] at h
    split at h
    · obtain ⟨rfl, rfl⟩ := Prod.mk.inj (Option.some.inj h)
      exact .refuse nofun rfl rfl nofun
    · rename_i hopen
      split at h
      · rename_i hspace
        obtain ⟨rfl, rfl⟩ := Prod.mk.inj (Option.some.inj h)
        exact .accept rfl rfl rfl (by simpa using hopen) hspace
      · exact absurd h (by simp)
  | trySend value =>
    simp only [perform, trySend] at h
    split at h
    · obtain ⟨rfl, rfl⟩ := Prod.mk.inj (Option.some.inj h)
      exact .refuse nofun rfl rfl nofun
    · rename_i hopen
      split at h
      · obtain ⟨rfl, rfl⟩ := Prod.mk.inj (Option.some.inj h)
        exact .refuse nofun rfl rfl nofun
      · rename_i hspace
        obtain ⟨rfl, rfl⟩ := Prod.mk.inj (Option.some.inj h)
        exact .accept rfl rfl rfl (by simpa using hopen) (Nat.not_le.mp hspace)
  | sendDropOldest value =>
    simp only [perform, sendDropOldest] at h
    split at h
    · obtain ⟨rfl, rfl⟩ := Prod.mk.inj (Option.some.inj h)
      exact .refuse nofun rfl rfl nofun
    · rename_i hopen
      split at h
      · rename_i hfull
        obtain ⟨rfl, rfl⟩ := Prod.mk.inj (Option.some.inj h)
        exact .evict (by simpa using hopen) hfull
      · rename_i hspace
        obtain ⟨rfl, rfl⟩ := Prod.mk.inj (Option.some.inj h)
        exact .accept rfl rfl rfl (by simpa using hopen) (Nat.not_le.mp hspace)
  | recv =>
    simp only [perform, recv] at h
    split at h
    · rename_i hbuf
      split at h
      · rename_i hclosed
        obtain ⟨rfl, rfl⟩ := Prod.mk.inj (Option.some.inj h)
        exact .refuse nofun rfl rfl fun _ => ⟨hclosed, hbuf⟩
      · exact absurd h (by simp)
    · rename_i hbuf
      obtain ⟨rfl, rfl⟩ := Prod.mk.inj (Option.some.inj h)
      exact .take rfl nofun rfl rfl hbuf
  | recvFor expired =>
    simp only [perform, recvFor] at h
    split at h
    · split at h
      · obtain ⟨rfl, rfl⟩ := Prod.mk.inj (Option.some.inj h)
        exact .refuse nofun rfl rfl nofun
      · exact absurd h (by simp)
    · rename_i hbuf
      obtain ⟨rfl, rfl⟩ := Prod.mk.inj (Option.some.inj h)
      exact .take rfl nofun rfl rfl hbuf
  | tryRecv =>
    simp only [perform, tryRecv] at h
    split at h
    · obtain ⟨rfl, rfl⟩ := Prod.mk.inj (Option.some.inj h)
      exact .refuse nofun rfl rfl nofun
    · rename_i hbuf
      obtain ⟨rfl, rfl⟩ := Prod.mk.inj (Option.some.inj h)
      exact .take rfl nofun rfl rfl hbuf
  | close =>
    obtain ⟨rfl, rfl⟩ := Prod.mk.inj (Option.some.inj h)
    exact .close

/-- The capacity is fixed. -/
theorem Effect.capacity_eq (h : Effect c op c' reply) : c'.capacity = c.capacity := by
  cases h <;> rfl

/-- A closed channel stays closed. -/
theorem Effect.closed_of_closed (h : Effect c op c' reply) (hc : c.closed = true) :
    c'.closed = true := by
  cases h <;> first | exact hc | rfl

/-- Values leave the channel in the order in which they are offered. -/
theorem Effect.sublist (h : Effect c op c' reply) :
    (reply.value.toList ++ c'.buf).Sublist (c.buf ++ op.value.toList) := by
  cases h with
  | accept hv _ hr =>
    rw [hv, hr]
    exact List.Sublist.refl _
  | evict => exact (List.tail_sublist _).append_right _
  | take hop _ _ hr hbuf =>
    rw [hop, hr, hbuf]
    exact List.sublist_append_left _ _
  | refuse _ _ hr =>
    rw [hr]
    exact List.sublist_append_left _ _
  | close => exact List.sublist_append_left _ _

/-- The buffer is not longer than the capacity. -/
def Within (c : Chan α) : Prop := c.buf.length ≤ c.capacity

/-- A channel that can buffer something stays within its capacity. -/
theorem Effect.within (h : Effect c op c' reply) (hcap : 0 < c.capacity) (hw : c.Within) :
    c'.Within := by
  cases h with
  | accept _ _ _ _ hspace =>
    simp only [Within, List.length_append, List.length_singleton]
    exact hspace
  | evict _ hfull =>
    simp only [Within, List.length_append, List.length_tail, List.length_singleton] at hw ⊢
    omega
  | take _ _ _ _ hbuf =>
    simp only [Within, hbuf, List.length_cons] at hw ⊢
    exact Nat.le_of_succ_le hw
  | refuse => exact hw
  | close => exact hw

/-- Rename the values in a channel. -/
def map (f : α → β) (c : Chan α) : Chan β :=
  { capacity := c.capacity, buf := c.buf.map f, closed := c.closed }

/-- Rename the value an operation offers. -/
def Op.map (f : α → β) : Op α → Op β
  | .send value => .send (f value)
  | .trySend value => .trySend (f value)
  | .sendDropOldest value => .sendDropOldest (f value)
  | .recv => .recv
  | .recvFor expired => .recvFor expired
  | .tryRecv => .tryRecv
  | .close => .close

/-- Rename the value that was handed over. -/
def Reply.map (f : α → β) : Reply α → Reply β
  | .sent ok => .sent ok
  | .tried result => .tried result
  | .received value => .received (value.map f)
  | .closed => .closed

@[simp] theorem Op.value_map (f : α → β) (op : Op α) : (op.map f).value = op.value.map f := by
  cases op <;> rfl

/-- Operations do not look at the values. -/
theorem perform_map (f : α → β) (c : Chan α) (op : Op α) :
    (c.map f).perform (op.map f) =
      (c.perform op).map fun (c, reply) => (c.map f, reply.map f) := by
  obtain ⟨capacity, buf, closed⟩ := c
  cases op with
  | send value =>
    simp only [perform, Op.map, send, map, List.length_map]
    split_ifs <;> simp [Reply.map]
  | trySend value =>
    simp only [perform, Op.map, trySend, map, List.length_map]
    split_ifs <;> simp [Reply.map]
  | sendDropOldest value =>
    simp only [perform, Op.map, sendDropOldest, map, List.length_map]
    split_ifs <;> simp [Reply.map, List.map_tail]
  | recv => cases buf <;> cases closed <;> rfl
  | recvFor expired => cases buf <;> cases closed <;> cases expired <;> rfl
  | tryRecv => cases buf <;> rfl
  | close => rfl

end CppCan.Chan
