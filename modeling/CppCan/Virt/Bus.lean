import CppCan.Can.Chan
import CppCan.Can.Frame
import CppCan.Core.RwLock
import CppCan.Relay.Types

/-!
# The in-process bus

A frame that is sent goes to the channel of every subscription it matches, under
the policy of that subscription. The calls of the bus are taken apart into the
steps other threads can come between: taking the lock, each push into a channel
and each wait.
-/

namespace CppCan.Virt

open CppCan.Core CppCan.Relay

def kDefaultChanDepth : Int := 64

/-- A subscription; `ch` is the index of its channel. -/
structure Subscription where
  filters : List Filter
  ch : Nat
  backPressure : BackPressurePolicy
  deriving DecidableEq, Repr

/-- The counters of a bus. They do not wrap here: in the source each has 64 bits, so that the two
agree as long as no total reaches `2 ^ 64`. -/
structure Metrics where
  writeCount : Nat := 0
  deliverCount : Nat := 0
  dropCount : Nat := 0
  bytesWritten : Nat := 0
  bytesDelivered : Nat := 0
  errorCount : Nat := 0
  deriving DecidableEq, Repr

/-- A bus with every channel it has handed out. -/
structure Bus where
  mu : RwLock := {}
  subs : List Subscription := []
  closed : Bool := false
  channels : List (Chan Frame) := []
  metrics : Metrics := {}
  deriving DecidableEq, Repr

namespace Bus

/-- The channel with this index. -/
def chan (b : Bus) (i : Nat) : Chan Frame := b.channels.getD i {}

/-- Replace the channel with this index. -/
def setChan (b : Bus) (i : Nat) (c : Chan Frame) : Bus :=
  { b with channels := b.channels.set i c }

/-- Count a rejected call. -/
def countError (b : Bus) : Bus :=
  { b with metrics := { b.metrics with errorCount := b.metrics.errorCount + 1 } }

/-- Count an accepted frame. -/
def countWrite (b : Bus) (f : Frame) : Bus :=
  { b with metrics := { b.metrics with
      writeCount := b.metrics.writeCount + 1
      bytesWritten := b.metrics.bytesWritten + f.data.length } }

/-- Count a frame put into a channel. -/
def countDeliver (b : Bus) (f : Frame) : Bus :=
  { b with metrics := { b.metrics with
      deliverCount := b.metrics.deliverCount + 1
      bytesDelivered := b.metrics.bytesDelivered + f.data.length } }

/-- Count a frame dropped at a full channel. -/
def countDrop (b : Bus) : Bus :=
  { b with metrics := { b.metrics with dropCount := b.metrics.dropCount + 1 } }

/-- One round of the fan-out; it may have to wait under the `block` policy. -/
def deliver (b : Bus) (s : Subscription) (f : Frame) : Option Bus :=
  if !matchesAny s.filters f then some b
  else
    match s.backPressure with
    | .dropNewest =>
      let (ch, result) := (b.chan s.ch).trySend f
      match result with
      | .ok => some ((b.setChan s.ch ch).countDeliver f)
      | .full => some (b.setChan s.ch ch).countDrop
      | .closed => some (b.setChan s.ch ch)
    | .dropOldest => some ((b.setChan s.ch ((b.chan s.ch).sendDropOldest f).1).countDeliver f)
    | .block => ((b.chan s.ch).send f).map fun (ch, _) => (b.setChan s.ch ch).countDeliver f

/-- Add a subscription with a new channel; the lock is held. -/
def addSubscription (b : Bus) (filters : List Filter) (cfg : SubscriberConfig) : Bus × Nat :=
  let depth := cfg.effectiveDepth kDefaultChanDepth
  let ch := b.channels.length
  ({ b with
      channels := b.channels ++ [{ capacity := depth.toNat }]
      subs := b.subs ++ [⟨filters, ch, cfg.backPressure⟩] }, ch)

end Bus

/-- What a call returns. -/
inductive Result where
  | sent (err : Option ErrorCode)
  | subscribed (r : Except ErrorCode Nat)
  | closed
  | received (f : Option Frame)

/-- Where a thread is in a call. -/
inductive Pc where
  | idle
  /-- `send` before the shared lock, before the check and in the fan-out. -/
  | sendLock (f : Frame)
  | sendCheck (f : Frame)
  | fanOut (f : Frame) (rest : List Subscription)
  /-- `subscribe` before and under the unique lock. -/
  | subscribeLock (filters : List Filter) (cfg : SubscriberConfig)
  | subscribeHeld (filters : List Filter) (cfg : SubscriberConfig)
  /-- `close` before the unique lock, before the check and closing the channels. -/
  | closeLock
  | closeHeld
  | closing (rest : List Subscription)
  /-- A consumer in `recv` on its channel. -/
  | recv (ch : Nat)
  | returned (r : Result)

/-- The calls of the bus and of its consumers. -/
inductive Call where
  | send (f : Frame)
  | subscribe (filters : List Filter) (opts : List SubscriberOption)
  | close
  | recv (ch : Nat)

/-- A call begins; an invalid frame is rejected before the lock is taken. -/
def Call.begin (b : Bus) : Call → Bus × Pc
  | .send f =>
    match validateFrame f with
    | .error _ => (b.countError, .returned (.sent (some (.relay .payloadTooLarge))))
    | .ok _ => (b, .sendLock f)
  | .subscribe filters opts => (b, .subscribeLock filters (applyOptions opts))
  | .close => (b, .closeLock)
  | .recv ch => (b, .recv ch)

/-- The next step of thread `i` in its call, if it need not wait. -/
def Bus.step (b : Bus) (i : Nat) : Pc → Option (Bus × Pc)
  | .idle => none
  | .sendLock f => (b.mu.lockShared i).map fun mu => ({ b with mu := mu }, .sendCheck f)
  | .sendCheck f =>
    if b.closed then
      some ({ b.countError with mu := b.mu.unlockShared i },
        .returned (.sent (some (.relay .closed))))
    else some (b.countWrite f, .fanOut f b.subs)
  | .fanOut _ [] => some ({ b with mu := b.mu.unlockShared i }, .returned (.sent none))
  | .fanOut f (s :: rest) => (b.deliver s f).map fun b => (b, .fanOut f rest)
  | .subscribeLock filters cfg =>
    (b.mu.lockUnique i).map fun mu => ({ b with mu := mu }, .subscribeHeld filters cfg)
  | .subscribeHeld filters cfg =>
    if b.closed then
      some ({ b with mu := b.mu.unlockUnique }, .returned (.subscribed (.error (.relay .closed))))
    else
      let (b, ch) := b.addSubscription filters cfg
      some ({ b with mu := b.mu.unlockUnique }, .returned (.subscribed (.ok ch)))
  | .closeLock => (b.mu.lockUnique i).map fun mu => ({ b with mu := mu }, .closeHeld)
  | .closeHeld =>
    if b.closed then some ({ b with mu := b.mu.unlockUnique }, .returned .closed)
    else some ({ b with closed := true }, .closing b.subs)
  | .closing [] => some ({ b with subs := [], mu := b.mu.unlockUnique }, .returned .closed)
  | .closing (s :: rest) => some (b.setChan s.ch (b.chan s.ch).close, .closing rest)
  | .recv ch => (b.chan ch).recv.map fun (c, f) => (b.setChan ch c, .returned (.received f))
  | .returned _ => none

/-- The ways the next step of thread `i` can go. -/
inductive Bus.Outcome (b : Bus) (i : Nat) : Pc → Bus → Pc → Prop where
  | sendLocked {f : Frame} {mu : RwLock} (h : b.mu.lockShared i = some mu) :
      Outcome b i (.sendLock f) { b with mu := mu } (.sendCheck f)
  | sendRefused {f : Frame} (hclosed : b.closed = true) :
      Outcome b i (.sendCheck f) { b.countError with mu := b.mu.unlockShared i }
        (.returned (.sent (some (.relay .closed))))
  | sendAccepted {f : Frame} (hopen : b.closed = false) :
      Outcome b i (.sendCheck f) (b.countWrite f) (.fanOut f b.subs)
  | sendDone {f : Frame} :
      Outcome b i (.fanOut f []) { b with mu := b.mu.unlockShared i } (.returned (.sent none))
  | delivered {f : Frame} {s : Subscription} {rest : List Subscription} {b' : Bus}
      (h : b.deliver s f = some b') : Outcome b i (.fanOut f (s :: rest)) b' (.fanOut f rest)
  | subscribeLocked {filters : List Filter} {cfg : SubscriberConfig} {mu : RwLock}
      (h : b.mu.lockUnique i = some mu) :
      Outcome b i (.subscribeLock filters cfg) { b with mu := mu } (.subscribeHeld filters cfg)
  | subscribeRefused {filters : List Filter} {cfg : SubscriberConfig} (hclosed : b.closed = true) :
      Outcome b i (.subscribeHeld filters cfg) { b with mu := b.mu.unlockUnique }
        (.returned (.subscribed (.error (.relay .closed))))
  | subscribed {filters : List Filter} {cfg : SubscriberConfig} (hopen : b.closed = false) :
      Outcome b i (.subscribeHeld filters cfg)
        { (b.addSubscription filters cfg).1 with mu := b.mu.unlockUnique }
        (.returned (.subscribed (.ok b.channels.length)))
  | closeLocked {mu : RwLock} (h : b.mu.lockUnique i = some mu) :
      Outcome b i .closeLock { b with mu := mu } .closeHeld
  | closeAgain (hclosed : b.closed = true) :
      Outcome b i .closeHeld { b with mu := b.mu.unlockUnique } (.returned .closed)
  | closeBegun (hopen : b.closed = false) :
      Outcome b i .closeHeld { b with closed := true } (.closing b.subs)
  | closeDone :
      Outcome b i (.closing []) { b with subs := [], mu := b.mu.unlockUnique } (.returned .closed)
  | closeNext {s : Subscription} {rest : List Subscription} :
      Outcome b i (.closing (s :: rest)) (b.setChan s.ch (b.chan s.ch).close) (.closing rest)
  | received {ch : Nat} {c : Chan Frame} {v : Option Frame} (h : (b.chan ch).recv = some (c, v)) :
      Outcome b i (.recv ch) (b.setChan ch c) (.returned (.received v))

/-- Every step goes one of these ways. -/
theorem Bus.outcome_of_step {b b' : Bus} {i : Nat} {pc pc' : Pc}
    (h : b.step i pc = some (b', pc')) : b.Outcome i pc b' pc' := by
  cases pc with
  | idle => cases h
  | sendLock f =>
    obtain ⟨mu, hmu, heq⟩ := Option.map_eq_some_iff.mp h
    obtain ⟨rfl, rfl⟩ := Prod.mk.inj heq
    exact .sendLocked hmu
  | sendCheck f =>
    simp only [step] at h
    split at h
    · rename_i hclosed
      obtain ⟨rfl, rfl⟩ := Prod.mk.inj (Option.some.inj h)
      exact .sendRefused hclosed
    · rename_i hopen
      obtain ⟨rfl, rfl⟩ := Prod.mk.inj (Option.some.inj h)
      exact .sendAccepted (by simpa using hopen)
  | fanOut f rest =>
    cases rest with
    | nil =>
      obtain ⟨rfl, rfl⟩ := Prod.mk.inj (Option.some.inj h)
      exact .sendDone
    | cons s rest =>
      obtain ⟨b'', hdeliver, heq⟩ := Option.map_eq_some_iff.mp h
      obtain ⟨rfl, rfl⟩ := Prod.mk.inj heq
      exact .delivered hdeliver
  | subscribeLock filters cfg =>
    obtain ⟨mu, hmu, heq⟩ := Option.map_eq_some_iff.mp h
    obtain ⟨rfl, rfl⟩ := Prod.mk.inj heq
    exact .subscribeLocked hmu
  | subscribeHeld filters cfg =>
    simp only [step] at h
    split at h
    · rename_i hclosed
      obtain ⟨rfl, rfl⟩ := Prod.mk.inj (Option.some.inj h)
      exact .subscribeRefused hclosed
    · rename_i hopen
      obtain ⟨rfl, rfl⟩ := Prod.mk.inj (Option.some.inj h)
      exact .subscribed (by simpa using hopen)
  | closeLock =>
    obtain ⟨mu, hmu, heq⟩ := Option.map_eq_some_iff.mp h
    obtain ⟨rfl, rfl⟩ := Prod.mk.inj heq
    exact .closeLocked hmu
  | closeHeld =>
    simp only [step] at h
    split at h
    · rename_i hclosed
      obtain ⟨rfl, rfl⟩ := Prod.mk.inj (Option.some.inj h)
      exact .closeAgain hclosed
    · rename_i hopen
      obtain ⟨rfl, rfl⟩ := Prod.mk.inj (Option.some.inj h)
      exact .closeBegun (by simpa using hopen)
  | closing rest =>
    cases rest with
    | nil =>
      obtain ⟨rfl, rfl⟩ := Prod.mk.inj (Option.some.inj h)
      exact .closeDone
    | cons s rest =>
      obtain ⟨rfl, rfl⟩ := Prod.mk.inj (Option.some.inj h)
      exact .closeNext
  | recv ch =>
    obtain ⟨⟨c, v⟩, hrecv, heq⟩ := Option.map_eq_some_iff.mp h
    obtain ⟨rfl, rfl⟩ := Prod.mk.inj heq
    exact .received hrecv
  | returned r => cases h

namespace Bus

variable {b b' : Bus} {s : Subscription} {f : Frame}

@[simp] theorem chan_countWrite (j : Nat) : (b.countWrite f).chan j = b.chan j := rfl

@[simp] theorem chan_countDeliver (j : Nat) : (b.countDeliver f).chan j = b.chan j := rfl

@[simp] theorem chan_countDrop (j : Nat) : b.countDrop.chan j = b.chan j := rfl

@[simp] theorem chan_setChan_self {j : Nat} {c : Chan Frame} (h : j < b.channels.length) :
    (b.setChan j c).chan j = c := by
  simp [setChan, chan, List.getD_eq_getElem?_getD, h]

@[simp] theorem chan_setChan_ne {j k : Nat} {c : Chan Frame} (h : j ≠ k) :
    (b.setChan j c).chan k = b.chan k := by
  simp [setChan, chan, List.getD_eq_getElem?_getD, List.getElem?_set_ne h]

/-- The fan-out does not touch the lock. -/
theorem deliver_mu (h : b.deliver s f = some b') : b'.mu = b.mu := by
  simp only [deliver] at h
  split at h
  · exact Option.some.inj h ▸ rfl
  · split at h
    · split at h <;> exact Option.some.inj h ▸ rfl
    · exact Option.some.inj h ▸ rfl
    · obtain ⟨⟨ch, ok⟩, -, rfl⟩ := Option.map_eq_some_iff.mp h
      rfl

/-- Only a full open channel under the `block` policy makes the fan-out wait. -/
theorem deliver_eq_none (h : b.deliver s f = none) :
    matchesAny s.filters f = true ∧ s.backPressure = .block ∧ (b.chan s.ch).closed = false ∧
      (b.chan s.ch).capacity ≤ (b.chan s.ch).buf.length := by
  simp only [deliver] at h
  split at h
  · exact absurd h (by simp)
  · rename_i hmatch
    split at h
    · split at h <;> exact absurd h (by simp)
    · exact absurd h (by simp)
    · rename_i hpolicy
      obtain ⟨hopen, hfull⟩ := Chan.send_eq_none.mp (Option.map_eq_none_iff.mp h)
      exact ⟨by simpa using hmatch, hpolicy, hopen, hfull⟩

end Bus

end CppCan.Virt
