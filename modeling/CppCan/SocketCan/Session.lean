import CppCan.Can.Bridge
import CppCan.SocketCan.Ingress
import CppCan.SocketCan.Shutdown
import Mathlib.Tactic.Common

/-!
# A socket in use

The reader gives a frame to the subscriptions that there are when it has the lock. Meanwhile
threads send, subscribe and close, and consumers receive from their channels. What is read,
handed over and received is taken down, and what found a channel full.
-/

namespace CppCan.SocketCan

open CppCan.Core CppCan.Relay
open CppCan.Bridge (isReceive)

/-- A subscription from the time on at which so many frames had been handed over. -/
structure Opening where
  filters : List Filter
  since : Nat

/-- The frames that were handed over since, as far as they match. -/
def Opening.offered (o : Opening) (handed : List Frame) : List Frame :=
  (handed.drop o.since).filter (matchesAny o.filters)

/-- A socket in use, with the frames that the reader read, those that it handed over, the
subscriptions by channel, what the consumers of a channel received and the frames that a channel
met, each with whether it found the channel full. -/
structure Session where
  world : World
  read : List KernelFrame := []
  handed : List Frame := []
  opened : List Opening := []
  received : Nat → List Frame := fun _ => []
  met : Nat → List (Frame × Bool) := fun _ => []

/-- What may happen next: a step of a thread, or a consumer receives. -/
inductive Act where
  | step (e : Step)
  | receive (ch : Nat) (op : Chan.Op Frame)

/-- The frame is offered to this channel. -/
def Bus.offers (b : Bus) (f : Frame) (ch : Nat) : Bool :=
  b.subs.any fun sub => sub.ch == ch && matchesAny sub.filters f

/-- What this channel meets if the frame is handed over, and whether the channel is full. -/
def Bus.meets (b : Bus) (f : Frame) (ch : Nat) : List (Frame × Bool) :=
  if b.offers f ch then [(f, (b.chan ch).buf.length ≥ (b.chan ch).capacity)] else []

namespace Session

def bus (s : Session) : Bus := s.world.socket.bus

/-- The reader reads a frame. -/
def take (s : Session) (cf : KernelFrame) : Session := { s with read := s.read ++ [cf] }

/-- The reader hands a frame over. -/
def hand (s : Session) (f : Frame) : Session :=
  { s with
    handed := s.handed ++ [f]
    met := fun ch => s.met ch ++ s.bus.meets f ch }

/-- A subscription begins. -/
def subscribed (s : Session) (filters : List Filter) : Session :=
  { s with opened := s.opened ++ [⟨filters, s.handed.length⟩] }

/-- Take down what a thread is about to do. -/
def note (s : Session) (reply : KernelReply) : Pc → Session
  | .reading =>
    match reply with
    | .read (.frame cf) => s.take cf
    | _ => s
  | .readHeld f => s.hand f
  | .subscribeHeld filters _ => if s.bus.closed then s else s.subscribed filters
  | _ => s

/-- A consumer takes this out of a channel. -/
def consume (s : Session) (ch : Nat) (c : Chan Frame) (value : Option Frame) : Session :=
  { s with
    world := { s.world with socket := { s.world.socket with bus := s.bus.setChan ch c } }
    received := Function.update s.received ch (s.received ch ++ value.toList) }

/-- The session after an act, if it can happen. -/
def act (s : Session) : Act → Option Session
  | .step (.begin i c) => (s.world.step (.begin i c)).map fun w => { s with world := w }
  | .step (.advance i reply) =>
    (s.world.step (.advance i reply)).map fun w =>
      { s.note reply (s.world.threads i) with world := w }
  | .receive ch op =>
    if isReceive op then
      ((s.bus.chan ch).perform op).map fun (c, reply) => s.consume ch c reply.value
    else none

/-- Nothing has happened yet. -/
def start (fd : Nat) : Session := { world := World.opened fd }

end Session

/-- The ways a thread takes a step. -/
inductive Outcome (s : Socket) (i : Nat) (readerExited : Bool) :
    KernelReply → Pc → Socket → Pc → Prop where
  | sendLocked {reply : KernelReply} {f : Frame} {mu : RwLock} (hmu : s.mu.lockShared i = some mu) :
      Outcome s i readerExited reply (.sendLock f) { s with mu := mu } (.sendCheck f)
  | sendRefused {reply : KernelReply} {f : Frame} {r : Result} (hclosed : s.bus.closed = true) :
      Outcome s i readerExited reply (.sendCheck f) { s with mu := s.mu.unlockShared i }
        (.returned r)
  | sendChecked {reply : KernelReply} {f : Frame} (hopen : s.bus.closed = false) :
      Outcome s i readerExited reply (.sendCheck f) { s with mu := s.mu.unlockShared i }
        (.sendWrite (.ofFrame f))
  | sendLoaded {reply : KernelReply} {cf : KernelFrame} :
      Outcome s i readerExited reply (.sendWrite cf) s (.writing s.fd cf)
  | written {fd : Int} {cf : KernelFrame} {ok : Bool} {r : Result} :
      Outcome s i readerExited (.wrote ok) (.writing fd cf) (s.write fd cf ok).1 (.returned r)
  | subscribeLocked {reply : KernelReply} {filters : List Filter} {opts : List SubscriberOption}
      {mu : RwLock} (hmu : s.mu.lockUnique i = some mu) :
      Outcome s i readerExited reply (.subscribeLock filters opts) { s with mu := mu }
        (.subscribeHeld filters opts)
  | subscribed {reply : KernelReply} {filters : List Filter} {opts : List SubscriberOption}
      {r : Result} : Outcome s i readerExited reply (.subscribeHeld filters opts)
        { s with bus := (s.bus.subscribe filters opts).1, mu := s.mu.unlockUnique } (.returned r)
  | closeLocked {reply : KernelReply} {mu : RwLock} (hmu : s.mu.lockUnique i = some mu) :
      Outcome s i readerExited reply .closeLock { s with mu := mu } .closeHeld
  | closeAgain {reply : KernelReply} {r : Result} (hclosed : s.bus.closed = true) :
      Outcome s i readerExited reply .closeHeld { s with mu := s.mu.unlockUnique } (.returned r)
  | closeBegun {reply : KernelReply} (hopen : s.bus.closed = false) :
      Outcome s i readerExited reply .closeHeld
        { s with bus := { s.bus with closed := true }, mu := s.mu.unlockUnique } .closeStop
  | stopped {reply : KernelReply} :
      Outcome s i readerExited reply .closeStop { s with stop := true } .closeJoin
  | joined {reply : KernelReply} (hexit : readerExited = true) :
      Outcome s i readerExited reply .closeJoin s .closeFd
  | released {reply : KernelReply} (hfd : s.fd ≥ 0) :
      Outcome s i readerExited reply .closeFd { s with released := true } .closeReset
  | notOpen {reply : KernelReply} (hfd : ¬ s.fd ≥ 0) :
      Outcome s i readerExited reply .closeFd s .closeRelock
  | reset {reply : KernelReply} :
      Outcome s i readerExited reply .closeReset { s with fd := -1 } .closeRelock
  | relocked {reply : KernelReply} {mu : RwLock} (hmu : s.mu.lockUnique i = some mu) :
      Outcome s i readerExited reply .closeRelock { s with mu := mu } (.closing s.bus.subs)
  | shut {reply : KernelReply} {sub : Subscription} {rest : List Subscription} :
      Outcome s i readerExited reply (.closing (sub :: rest))
        { s with bus := s.bus.setChan sub.ch (s.bus.chan sub.ch).close } (.closing rest)
  | cleared {reply : KernelReply} {r : Result} :
      Outcome s i readerExited reply (.closing [])
        { s with bus := { s.bus with subs := [] }, mu := s.mu.unlockUnique } (.returned r)
  | readStopped {reply : KernelReply} (hstop : s.stop = true) :
      Outcome s i readerExited reply .readCheck s .readExited
  | readNext {reply : KernelReply} (hstop : s.stop = false) :
      Outcome s i readerExited reply .readCheck s .reading
  | readNothing {r : ReadResult} (hr : r = .again ∨ r = .other) :
      Outcome s i readerExited (.read r) .reading s .readCheck
  | readFailed : Outcome s i readerExited (.read .fatal) .reading s .readExited
  | readFrame (cf : KernelFrame) :
      Outcome s i readerExited (.read (.frame cf)) .reading s (.readLock cf.toFrame)
  | readLocked {reply : KernelReply} {f : Frame} {mu : RwLock} (hmu : s.mu.lockShared i = some mu) :
      Outcome s i readerExited reply (.readLock f) { s with mu := mu } (.readHeld f)
  | handed {reply : KernelReply} {f : Frame} :
      Outcome s i readerExited reply (.readHeld f)
        { s with bus := s.bus.fanOut f, mu := s.mu.unlockShared i } .readCheck

/-- Every step is one of these. -/
theorem Socket.outcome_of_step {s s' : Socket} {i : Nat} {readerExited : Bool}
    {reply : KernelReply} {pc pc' : Pc} (h : s.step i readerExited reply pc = some (s', pc')) :
    Outcome s i readerExited reply pc s' pc' := by
  cases pc with
  | idle => cases h
  | sendLock f =>
    obtain ⟨mu, hmu, heq⟩ := Option.map_eq_some_iff.mp h
    obtain ⟨rfl, rfl⟩ := Prod.mk.inj heq
    exact .sendLocked hmu
  | sendCheck f =>
    simp only [step] at h
    split at h
    · rename_i hclosed
      obtain ⟨rfl, rfl⟩ := Prod.mk.inj (Option.some.inj h)
      exact .sendRefused hclosed
    · rename_i hopen
      obtain ⟨rfl, rfl⟩ := Prod.mk.inj (Option.some.inj h)
      exact .sendChecked (Bool.eq_false_iff.mpr hopen)
  | sendWrite cf =>
    obtain ⟨rfl, rfl⟩ := Prod.mk.inj (Option.some.inj h)
    exact .sendLoaded
  | writing fd cf =>
    cases reply with
    | wrote ok =>
      obtain ⟨rfl, rfl⟩ := Prod.mk.inj (Option.some.inj h)
      exact .written
    | _ => cases h
  | subscribeLock filters opts =>
    obtain ⟨mu, hmu, heq⟩ := Option.map_eq_some_iff.mp h
    obtain ⟨rfl, rfl⟩ := Prod.mk.inj heq
    exact .subscribeLocked hmu
  | subscribeHeld filters opts =>
    obtain ⟨rfl, rfl⟩ := Prod.mk.inj (Option.some.inj h)
    exact .subscribed
  | closeLock =>
    obtain ⟨mu, hmu, heq⟩ := Option.map_eq_some_iff.mp h
    obtain ⟨rfl, rfl⟩ := Prod.mk.inj heq
    exact .closeLocked hmu
  | closeHeld =>
    simp only [step] at h
    split at h
    · rename_i hclosed
      obtain ⟨rfl, rfl⟩ := Prod.mk.inj (Option.some.inj h)
      exact .closeAgain hclosed
    · rename_i hopen
      obtain ⟨rfl, rfl⟩ := Prod.mk.inj (Option.some.inj h)
      exact .closeBegun (Bool.eq_false_iff.mpr hopen)
  | closeStop =>
    obtain ⟨rfl, rfl⟩ := Prod.mk.inj (Option.some.inj h)
    exact .stopped
  | closeJoin =>
    simp only [step] at h
    split at h
    · rename_i hexit
      obtain ⟨rfl, rfl⟩ := Prod.mk.inj (Option.some.inj h)
      exact .joined hexit
    · cases h
  | closeFd =>
    simp only [step] at h
    split at h
    · rename_i hfd
      obtain ⟨rfl, rfl⟩ := Prod.mk.inj (Option.some.inj h)
      exact .released hfd
    · rename_i hfd
      obtain ⟨rfl, rfl⟩ := Prod.mk.inj (Option.some.inj h)
      exact .notOpen hfd
  | closeReset =>
    obtain ⟨rfl, rfl⟩ := Prod.mk.inj (Option.some.inj h)
    exact .reset
  | closeRelock =>
    obtain ⟨mu, hmu, heq⟩ := Option.map_eq_some_iff.mp h
    obtain ⟨rfl, rfl⟩ := Prod.mk.inj heq
    exact .relocked hmu
  | closing rest =>
    cases rest with
    | nil =>
      obtain ⟨rfl, rfl⟩ := Prod.mk.inj (Option.some.inj h)
      exact .cleared
    | cons sub rest =>
      obtain ⟨rfl, rfl⟩ := Prod.mk.inj (Option.some.inj h)
      exact .shut
  | readCheck =>
    simp only [step] at h
    split at h
    · rename_i hstop
      obtain ⟨rfl, rfl⟩ := Prod.mk.inj (Option.some.inj h)
      exact .readStopped hstop
    · rename_i hstop
      obtain ⟨rfl, rfl⟩ := Prod.mk.inj (Option.some.inj h)
      exact .readNext (Bool.eq_false_iff.mpr hstop)
  | reading =>
    cases reply with
    | read r =>
      cases r with
      | again =>
        obtain ⟨rfl, rfl⟩ := Prod.mk.inj (Option.some.inj h)
        exact .readNothing (.inl rfl)
      | fatal =>
        obtain ⟨rfl, rfl⟩ := Prod.mk.inj (Option.some.inj h)
        exact .readFailed
      | frame cf =>
        obtain ⟨rfl, rfl⟩ := Prod.mk.inj (Option.some.inj h)
        exact .readFrame cf
      | other =>
        obtain ⟨rfl, rfl⟩ := Prod.mk.inj (Option.some.inj h)
        exact .readNothing (.inr rfl)
    | _ => cases h
  | readLock f =>
    obtain ⟨mu, hmu, heq⟩ := Option.map_eq_some_iff.mp h
    obtain ⟨rfl, rfl⟩ := Prod.mk.inj heq
    exact .readLocked hmu
  | readHeld f =>
    obtain ⟨rfl, rfl⟩ := Prod.mk.inj (Option.some.inj h)
    exact .handed
  | readExited => cases h
  | returned r => cases h

/-- The part that a thread has in the shutdown. -/
inductive Part where
  | outside
  | stopping
  | joined
  | sweeping (rest : List Subscription)
  | reader
  | exited

def Pc.part : Pc → Part
  | .closeStop | .closeJoin => .stopping
  | .closeFd | .closeReset | .closeRelock => .joined
  | .closing rest => .sweeping rest
  | .readCheck | .reading | .readLock _ | .readHeld _ => .reader
  | .readExited => .exited
  | _ => .outside

/-- The thread is shutting the bus down. -/
def Part.shuts : Part → Bool
  | .stopping | .joined | .sweeping _ => true
  | _ => false

/-- The thread is the reader. -/
def Part.reads : Part → Bool
  | .reader | .exited => true
  | _ => false

/-- A frame that was read and is not yet handed over. -/
def Pc.pending : Pc → List Frame
  | .readLock f | .readHeld f => [f]
  | _ => []

theorem part_of_exited {pc : Pc} (h : pc.exited = true) : pc.part = .exited := by
  cases pc with
  | readExited => rfl
  | _ => cases h

namespace Session

/-- The part of a thread. -/
def part (s : Session) (i : Nat) : Part := (s.world.threads i).part

/-- Thread `i` goes on to `pc` on this bus. -/
def go (s : Session) (i : Nat) (socket : Socket) (pc : Pc) : Session :=
  { s with world := ⟨socket, Function.update s.world.threads i pc⟩ }

/-- The ways an act changes the session. -/
inductive Moved (s : Session) : Session → Prop where
  | keep {i : Nat} {socket : Socket} {pc : Pc} (hpart : pc.part = (s.world.threads i).part)
      (hpending : pc.pending = (s.world.threads i).pending) (hbus : socket.bus = s.bus) :
      Moved s (s.go i socket pc)
  | read {i : Nat} {socket : Socket} (cf : KernelFrame) (hi : s.world.threads i = .reading)
      (hbus : socket.bus = s.bus) :
      Moved s ((s.take cf).go i socket (.readLock cf.toFrame))
  | hand {i : Nat} {socket : Socket} {f : Frame} (hi : s.world.threads i = .readHeld f)
      (hbus : socket.bus = s.bus.fanOut f) :
      Moved s ((s.hand f).go i socket .readCheck)
  | exit {i : Nat} {socket : Socket} (hi : (s.world.threads i).part = .reader)
      (hpending : (s.world.threads i).pending = []) (hbus : socket.bus = s.bus) :
      Moved s (s.go i socket .readExited)
  | subscribe {i : Nat} {socket : Socket} {filters : List Filter}
      {opts : List SubscriberOption} {r : Result}
      (hi : s.world.threads i = .subscribeHeld filters opts) (hopen : s.bus.closed = false)
      (hbus : socket.bus = (s.bus.subscribe filters opts).1) :
      Moved s ((s.subscribed filters).go i socket (.returned r))
  | begun {i : Nat} {socket : Socket} (hi : s.world.threads i = .closeHeld)
      (hopen : s.bus.closed = false) (hbus : socket.bus = { s.bus with closed := true }) :
      Moved s (s.go i socket .closeStop)
  | join {i : Nat} {socket : Socket} (hi : s.world.threads i = .closeJoin)
      (hexit : (s.world.threads 0).part = .exited) (hbus : socket.bus = s.bus) :
      Moved s (s.go i socket .closeFd)
  | sweep {i : Nat} {socket : Socket} (hi : s.world.threads i = .closeRelock)
      (hbus : socket.bus = s.bus) : Moved s (s.go i socket (.closing s.bus.subs))
  | shut {i : Nat} {socket : Socket} {sub : Subscription} {rest : List Subscription}
      (hi : s.world.threads i = .closing (sub :: rest))
      (hbus : socket.bus = s.bus.setChan sub.ch (s.bus.chan sub.ch).close) :
      Moved s (s.go i socket (.closing rest))
  | clear {i : Nat} {socket : Socket} {r : Result} (hi : s.world.threads i = .closing [])
      (hbus : socket.bus = { s.bus with subs := [] }) : Moved s (s.go i socket (.returned r))
  | receive {ch : Nat} {op : Chan.Op Frame} {c : Chan Frame} {reply : Chan.Reply Frame}
      (hop : isReceive op = true) (hc : (s.bus.chan ch).perform op = some (c, reply)) :
      Moved s (s.consume ch c reply.value)

variable {s s' : Session} {a : Act} {i : Nat}

/-- A step of a thread, as it is taken down. -/
theorem moved_of_advance {reply : KernelReply} {pc pc' : Pc} {socket : Socket}
    (hpc : s.world.threads i = pc)
    (h : s.world.socket.step i (s.world.threads 0).exited reply pc = some (socket, pc')) :
    Moved s ((s.note reply pc).go i socket pc') := by
  have hkeep : ∀ {pc' : Pc} {socket : Socket}, pc'.part = pc.part → pc'.pending = pc.pending →
      socket.bus = s.bus → Moved s (s.go i socket pc') := fun hpart hpending hbus =>
    .keep (hpart.trans (congrArg Pc.part hpc.symm)) (hpending.trans (congrArg Pc.pending hpc.symm))
      hbus
  cases Socket.outcome_of_step h with
  | written => exact hkeep rfl rfl (World.write_keeps ..).1
  | @subscribed _ filters opts _ =>
    rw [note]
    split_ifs with hclosed
    · refine hkeep rfl rfl ?_
      change (s.bus.subscribe filters opts).1 = s.bus
      rw [Bus.subscribe, hclosed]
      rfl
    · exact .subscribe hpc (Bool.eq_false_iff.mpr hclosed) rfl
  | closeBegun hopen => exact .begun hpc hopen rfl
  | joined hexit => exact .join hpc (part_of_exited hexit) rfl
  | relocked => exact .sweep hpc rfl
  | shut => exact .shut hpc rfl
  | cleared => exact .clear hpc rfl
  | readStopped => exact .exit (by rw [hpc]; rfl) (by rw [hpc]; rfl) rfl
  | readNothing hr =>
    rcases hr with rfl | rfl
    · exact hkeep rfl rfl rfl
    · exact hkeep rfl rfl rfl
  | readFailed => exact .exit (by rw [hpc]; rfl) (by rw [hpc]; rfl) rfl
  | readFrame cf => exact .read cf hpc rfl
  | handed => exact .hand hpc rfl
  | _ => exact hkeep rfl rfl rfl

/-- A thread that begins a call has no part in the shutdown and is not the reader. -/
theorem part_begin (c : Call) : c.begin.part = .outside ∧ c.begin.pending = [] := by
  cases c with
  | send f =>
    unfold Call.begin
    dsimp only
    split
    · exact ⟨rfl, rfl⟩
    · split_ifs <;> exact ⟨rfl, rfl⟩
  | subscribe filters opts => exact ⟨rfl, rfl⟩
  | close => exact ⟨rfl, rfl⟩

theorem part_of_quiet {pc : Pc} (h : pc.quiet = true) : pc.part = .outside ∧ pc.pending = [] := by
  cases pc with
  | idle | returned => exact ⟨rfl, rfl⟩
  | _ => cases h

theorem note_world (reply : KernelReply) (pc : Pc) : (s.note reply pc).world = s.world := by
  unfold note
  split
  · split <;> rfl
  · rfl
  · split_ifs <;> rfl
  · rfl

/-- Every act is one of these. -/
theorem moved_of_act (h : s.act a = some s') : Moved s s' := by
  match a with
  | .step (.begin i c) =>
    obtain ⟨w, hw, rfl⟩ := Option.map_eq_some_iff.mp h
    simp only [World.step] at hw
    split at hw
    · rename_i hquiet
      obtain rfl := Option.some.inj hw
      obtain ⟨hpart, hpending⟩ := part_begin c
      obtain ⟨hpart', hpending'⟩ := part_of_quiet hquiet
      exact .keep (hpart.trans hpart'.symm) (hpending.trans hpending'.symm) rfl
    · cases hw
  | .step (.advance i reply) =>
    obtain ⟨w, hw, rfl⟩ := Option.map_eq_some_iff.mp h
    obtain ⟨⟨socket, pc⟩, hstep, rfl⟩ := Option.map_eq_some_iff.mp hw
    have hmoved := moved_of_advance rfl hstep
    rwa [go, note_world] at hmoved
  | .receive ch op =>
    simp only [act] at h
    split at h
    · rename_i hop
      obtain ⟨⟨c, reply⟩, hc, rfl⟩ := Option.map_eq_some_iff.mp h
      exact .receive hop hc
    · cases h

end Session

end CppCan.SocketCan
