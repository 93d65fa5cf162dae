import CppCan.Core.Runs
import CppCan.Core.RwLock
import CppCan.SocketCan.Bus
import CppCan.SocketCan.Codec
import Mathlib.Logic.Function.Basic

/-!
# Shutting the socket down under concurrent calls

Any number of threads call the bus while its reader runs. A sender looks at the bus under
the shared lock but writes outside it, and `close` waits for the reader only. So the
descriptor can be closed between the look and the write.
-/

namespace CppCan.SocketCan

open CppCan.Core CppCan.Relay

/-- A bus on a socket; the last three fields are the kernel's side of it. -/
structure Socket where
  bus : Bus := {}
  mu : RwLock := {}
  fd : Int
  stop : Bool := false
  /-- The descriptor has been closed. -/
  released : Bool := false
  /-- What the kernel accepted. -/
  written : List KernelFrame := []
  /-- What was written to the number of the descriptor after it had been closed. -/
  late : List KernelFrame := []

/-- What the kernel answers a `read`: nothing in time, a fatal error, a frame of one of the
two sizes or something of another size. -/
inductive ReadResult where
  | again
  | fatal
  | frame (cf : KernelFrame)
  | other

/-- The kernel's answer to the next step of a thread, if that is a system call. -/
inductive KernelReply where
  | none
  | read (r : ReadResult)
  | wrote (ok : Bool)

/-- What a call returns. -/
inductive Result where
  | sent (err : Option ErrorCode)
  | subscribed (r : Except ErrorCode Nat)
  | closed

/-- Where a thread is. -/
inductive Pc where
  | idle
  /-- `send` before the shared lock, before the check, before it reads `fd` and with the
  descriptor it has read. -/
  | sendLock (f : Frame)
  | sendCheck (f : Frame)
  | sendWrite (cf : KernelFrame)
  | writing (fd : Int) (cf : KernelFrame)
  /-- `subscribe` before and under the unique lock. -/
  | subscribeLock (filters : List Filter) (opts : List SubscriberOption)
  | subscribeHeld (filters : List Filter) (opts : List SubscriberOption)
  /-- `close` before and under the unique lock, on its way through the shutdown and under
  the unique lock again. -/
  | closeLock
  | closeHeld
  | closeStop
  | closeJoin
  | closeFd
  | closeReset
  | closeRelock
  | closing (rest : List Subscription)
  /-- The reader before it looks at `stop`, before `read` and with a frame. -/
  | readCheck
  | reading
  | readLock (f : Frame)
  | readHeld (f : Frame)
  | readExited
  | returned (r : Result)

/-- The calls of the bus. -/
inductive Call where
  | send (f : Frame)
  | subscribe (filters : List Filter) (opts : List SubscriberOption)
  | close

/-- A call begins; a frame that cannot be sent is rejected before the lock is taken. -/
def Call.begin : Call → Pc
  | .send f =>
    match validateFrame f with
    | .error _ => .returned (.sent (some (.relay .payloadTooLarge)))
    | .ok _ =>
      if f.xl then .returned (.sent (some (.generic .notSupported))) else .sendLock f
  | .subscribe filters opts => .subscribeLock filters opts
  | .close => .closeLock

/-- A frame is written to a descriptor; there is none with a negative number. -/
def Socket.write (s : Socket) (fd : Int) (cf : KernelFrame) (ok : Bool) :
    Socket × Option ErrorCode :=
  if fd < 0 then (s, some (.relay .notConnected))
  else
    let err := if ok then none else some (.relay .notConnected)
    if s.released then ({ s with late := s.late ++ [cf] }, err)
    else if ok then ({ s with written := s.written ++ [cf] }, err)
    else (s, err)

/-- The next step of thread `i`, if it need not wait. -/
def Socket.step (s : Socket) (i : Nat) (readerExited : Bool) (reply : KernelReply) :
    Pc → Option (Socket × Pc)
  | .idle => none
  | .sendLock f => (s.mu.lockShared i).map fun mu => ({ s with mu := mu }, .sendCheck f)
  | .sendCheck f =>
    if s.bus.closed then
      some ({ s with mu := s.mu.unlockShared i }, .returned (.sent (some (.relay .closed))))
    else some ({ s with mu := s.mu.unlockShared i }, .sendWrite (.ofFrame f))
  | .sendWrite cf => some (s, .writing s.fd cf)
  | .writing fd cf =>
    match reply with
    | .wrote ok => some ((s.write fd cf ok).1, .returned (.sent (s.write fd cf ok).2))
    | _ => none
  | .subscribeLock filters opts =>
    (s.mu.lockUnique i).map fun mu => ({ s with mu := mu }, .subscribeHeld filters opts)
  | .subscribeHeld filters opts =>
    let (b, r) := s.bus.subscribe filters opts
    some ({ s with bus := b, mu := s.mu.unlockUnique }, .returned (.subscribed r))
  | .closeLock => (s.mu.lockUnique i).map fun mu => ({ s with mu := mu }, .closeHeld)
  | .closeHeld =>
    if s.bus.closed then some ({ s with mu := s.mu.unlockUnique }, .returned .closed)
    else
      some ({ s with bus := { s.bus with closed := true }, mu := s.mu.unlockUnique }, .closeStop)
  | .closeStop => some ({ s with stop := true }, .closeJoin)
  | .closeJoin => if readerExited then some (s, .closeFd) else none
  | .closeFd =>
    if s.fd ≥ 0 then some ({ s with released := true }, .closeReset) else some (s, .closeRelock)
  | .closeReset => some ({ s with fd := -1 }, .closeRelock)
  | .closeRelock => (s.mu.lockUnique i).map fun mu => ({ s with mu := mu }, .closing s.bus.subs)
  | .closing [] =>
    some ({ s with bus := { s.bus with subs := [] }, mu := s.mu.unlockUnique }, .returned .closed)
  | .closing (sub :: rest) =>
    some ({ s with bus := s.bus.setChan sub.ch (s.bus.chan sub.ch).close }, .closing rest)
  | .readCheck => if s.stop then some (s, .readExited) else some (s, .reading)
  | .reading =>
    match reply with
    | .read .again => some (s, .readCheck)
    | .read .fatal => some (s, .readExited)
    | .read (.frame cf) => some (s, .readLock cf.toFrame)
    | .read .other => some (s, .readCheck)
    | _ => none
  | .readLock f => (s.mu.lockShared i).map fun mu => ({ s with mu := mu }, .readHeld f)
  | .readHeld f => some ({ s with bus := s.bus.fanOut f, mu := s.mu.unlockShared i }, .readCheck)
  | .readExited => none
  | .returned _ => none

/-- The thread is in no call. -/
def Pc.quiet : Pc → Bool
  | .idle | .returned _ => true
  | _ => false

/-- The thread is in `send`, behind its check and before the end of its write. -/
def Pc.inFlight : Pc → Bool
  | .sendWrite _ | .writing _ _ => true
  | _ => false

/-- The reader has left its loop. -/
def Pc.exited : Pc → Bool
  | .readExited => true
  | _ => false

/-- A socket and where each thread is; thread 0 is the reader. -/
structure World where
  socket : Socket
  threads : Nat → Pc := Function.update (fun _ => .idle) 0 .readCheck

/-- What a scheduler may choose next, with the kernel's answer. -/
inductive Step where
  | begin (i : Nat) (c : Call)
  | advance (i : Nat) (reply : KernelReply)

namespace World

/-- The world after a step, if it can happen. -/
def step (w : World) : Step → Option World
  | .begin i c =>
    if (w.threads i).quiet then some { w with threads := Function.update w.threads i c.begin }
    else none
  | .advance i reply =>
    (w.socket.step i (w.threads 0).exited reply (w.threads i)).map fun (s, pc) =>
      ⟨s, Function.update w.threads i pc⟩

/-- What `create` returns with this descriptor. -/
def opened (fd : Nat) : World := { socket := { fd := fd } }

/-- No descriptor is closed while a sender is behind its check and before the end of its
write. -/
def ClosesQuietly : World → List Step → Prop
  | _, [] => True
  | w, e :: steps =>
    (∀ i reply, e = .advance i reply → w.threads i = .closeFd →
      ∀ j, (w.threads j).inFlight = false) ∧
    ∀ u, w.step e = some u → u.ClosesQuietly steps

end World

/-- The thread has closed the bus and not yet returned. -/
def Pc.closer : Pc → Bool
  | .closeStop | .closeJoin | .closeFd | .closeReset | .closeRelock => true
  | _ => false

/-- The thread has closed the bus and not yet its descriptor. -/
def Pc.beforeRelease : Pc → Bool
  | .closeStop | .closeJoin | .closeFd => true
  | _ => false

/-- What a step can do on the way of a descriptor. -/
inductive Descent (s : Socket) : Pc → Socket → Pc → Prop where
  | other {pc pc' : Pc} {s' : Socket} (hflight : pc'.inFlight = false)
      (hcloser : pc'.closer = true → pc.closer = true)
      (hbefore : pc'.beforeRelease = true → pc.beforeRelease = true)
      (hclosed : s'.bus.closed = s.bus.closed) (hfd : s'.fd = s.fd)
      (hreleased : s'.released = s.released) (hlate : s'.late = s.late) : Descent s pc s' pc'
  | pass {f : Frame} {mu : RwLock} (hopen : s.bus.closed = false) :
      Descent s (.sendCheck f) { s with mu := mu } (.sendWrite (.ofFrame f))
  | load (cf : KernelFrame) : Descent s (.sendWrite cf) s (.writing s.fd cf)
  | write (fd : Int) (cf : KernelFrame) (ok : Bool) (r : Result) :
      Descent s (.writing fd cf) (s.write fd cf ok).1 (.returned r)
  | begun {mu : RwLock} (hopen : s.bus.closed = false) :
      Descent s .closeHeld { s with bus := { s.bus with closed := true }, mu := mu } .closeStop
  | release (hfd : s.fd ≥ 0) : Descent s .closeFd { s with released := true } .closeReset
  | reset : Descent s .closeReset { s with fd := -1 } .closeRelock

namespace Socket

variable {s s' : Socket} {i : Nat} {readerExited : Bool} {reply : KernelReply} {pc pc' : Pc}

/-- What is done to subscriptions and channels does not open or close the bus. -/
theorem fanOut_closed (b : Bus) (f : Frame) : (b.fanOut f).closed = b.closed := by
  unfold Bus.fanOut
  generalize b.subs = subs
  induction subs generalizing b with
  | nil => rfl
  | cons sub subs ih =>
    rw [List.foldl_cons, ih]
    split_ifs <;> rfl

theorem subscribe_closed (b : Bus) (filters : List Filter) (opts : List SubscriberOption) :
    (b.subscribe filters opts).1.closed = b.closed := by
  unfold Bus.subscribe
  dsimp only
  split_ifs <;> rfl

/-- Every step is one of these. -/
theorem descent_of_step (h : s.step i readerExited reply pc = some (s', pc')) :
    Descent s pc s' pc' := by
  cases pc with
  | idle => cases h
  | sendLock f =>
    obtain ⟨mu, -, heq⟩ := Option.map_eq_some_iff.mp h
    obtain ⟨rfl, rfl⟩ := Prod.mk.inj heq
    exact .other rfl nofun nofun rfl rfl rfl rfl
  | sendCheck f =>
    simp only [step] at h
    split at h
    · obtain ⟨rfl, rfl⟩ := Prod.mk.inj (Option.some.inj h)
      exact .other rfl nofun nofun rfl rfl rfl rfl
    · rename_i hopen
      obtain ⟨rfl, rfl⟩ := Prod.mk.inj (Option.some.inj h)
      exact .pass (by simpa using hopen)
  | sendWrite cf =>
    obtain ⟨rfl, rfl⟩ := Prod.mk.inj (Option.some.inj h)
    exact .load cf
  | writing fd cf =>
    cases reply with
    | wrote ok =>
      obtain ⟨rfl, rfl⟩ := Prod.mk.inj (Option.some.inj h)
      exact .write fd cf ok _
    | _ => cases h
  | subscribeLock filters opts =>
    obtain ⟨mu, -, heq⟩ := Option.map_eq_some_iff.mp h
    obtain ⟨rfl, rfl⟩ := Prod.mk.inj heq
    exact .other rfl nofun nofun rfl rfl rfl rfl
  | subscribeHeld filters opts =>
    obtain ⟨rfl, rfl⟩ := Prod.mk.inj (Option.some.inj h)
    exact .other rfl nofun nofun (subscribe_closed s.bus filters opts) rfl rfl rfl
  | closeLock =>
    obtain ⟨mu, -, heq⟩ := Option.map_eq_some_iff.mp h
    obtain ⟨rfl, rfl⟩ := Prod.mk.inj heq
    exact .other rfl nofun nofun rfl rfl rfl rfl
  | closeHeld =>
    simp only [step] at h
    split at h
    · obtain ⟨rfl, rfl⟩ := Prod.mk.inj (Option.some.inj h)
      exact .other rfl nofun nofun rfl rfl rfl rfl
    · rename_i hopen
      obtain ⟨rfl, rfl⟩ := Prod.mk.inj (Option.some.inj h)
      exact .begun (by simpa using hopen)
  | closeStop =>
    obtain ⟨rfl, rfl⟩ := Prod.mk.inj (Option.some.inj h)
    exact .other rfl (fun _ => rfl) (fun _ => rfl) rfl rfl rfl rfl
  | closeJoin =>
    simp only [step] at h
    split at h
    · obtain ⟨rfl, rfl⟩ := Prod.mk.inj (Option.some.inj h)
      exact .other rfl (fun _ => rfl) (fun _ => rfl) rfl rfl rfl rfl
    · cases h
  | closeFd =>
    simp only [step] at h
    split at h
    · rename_i hfd
      obtain ⟨rfl, rfl⟩ := Prod.mk.inj (Option.some.inj h)
      exact .release hfd
    · obtain ⟨rfl, rfl⟩ := Prod.mk.inj (Option.some.inj h)
      exact .other rfl (fun _ => rfl) nofun rfl rfl rfl rfl
  | closeReset =>
    obtain ⟨rfl, rfl⟩ := Prod.mk.inj (Option.some.inj h)
    exact .reset
  | closeRelock =>
    obtain ⟨mu, -, heq⟩ := Option.map_eq_some_iff.mp h
    obtain ⟨rfl, rfl⟩ := Prod.mk.inj heq
    exact .other rfl nofun nofun rfl rfl rfl rfl
  | closing rest =>
    cases rest with
    | nil =>
      obtain ⟨rfl, rfl⟩ := Prod.mk.inj (Option.some.inj h)
      exact .other rfl nofun nofun rfl rfl rfl rfl
    | cons sub rest =>
      obtain ⟨rfl, rfl⟩ := Prod.mk.inj (Option.some.inj h)
      exact .other rfl nofun nofun rfl rfl rfl rfl
  | readCheck =>
    simp only [step] at h
    split at h
    · obtain ⟨rfl, rfl⟩ := Prod.mk.inj (Option.some.inj h)
      exact .other rfl nofun nofun rfl rfl rfl rfl
    · obtain ⟨rfl, rfl⟩ := Prod.mk.inj (Option.some.inj h)
      exact .other rfl nofun nofun rfl rfl rfl rfl
  | reading =>
    cases reply with
    | read r =>
      cases r with
      | again | fatal | frame | other =>
        obtain ⟨rfl, rfl⟩ := Prod.mk.inj (Option.some.inj h)
        exact .other rfl nofun nofun rfl rfl rfl rfl
    | _ => cases h
  | readLock f =>
    obtain ⟨mu, -, heq⟩ := Option.map_eq_some_iff.mp h
    obtain ⟨rfl, rfl⟩ := Prod.mk.inj heq
    exact .other rfl nofun nofun rfl rfl rfl rfl
  | readHeld f =>
    obtain ⟨rfl, rfl⟩ := Prod.mk.inj (Option.some.inj h)
    exact .other rfl nofun nofun (fanOut_closed s.bus f) rfl rfl rfl
  | readExited => cases h
  | returned r => cases h

end Socket

namespace World

variable {w w' : World} {fd i j : Nat} {s : Socket} {pc : Pc} {e : Step} {steps : List Step}

/-- The descriptor is in the hands of the one thread that has closed the bus. -/
structure Guarded (fd : Nat) (w : World) : Prop where
  sole : ∀ i j, (w.threads i).closer = true → (w.threads j).closer = true → i = j
  closed : ∀ i, (w.threads i).closer = true → w.socket.bus.closed = true
  number : w.socket.fd = fd ∨ w.socket.fd = -1
  intact : ∀ i, (w.threads i).beforeRelease = true →
    w.socket.fd = fd ∧ w.socket.released = false
  opened : w.socket.bus.closed = false → w.socket.fd = fd ∧ w.socket.released = false
  loaded : ∀ i d cf, w.threads i = .writing d cf → d = fd ∨ w.socket.fd = -1

/-- A thread that is at `closer` or `beforeRelease` behind its step was there before or is
the one that takes the step. -/
theorem of_update {p : Pc → Bool} (h : p (Function.update w.threads i pc j) = true) :
    j = i ∧ p pc = true ∨ j ≠ i ∧ p (w.threads j) = true := by
  by_cases hj : j = i
  · rw [hj, Function.update_self] at h
    exact .inl ⟨hj, h⟩
  · rw [Function.update_of_ne hj] at h
    exact .inr ⟨hj, h⟩

theorem closer_of_beforeRelease (h : pc.beforeRelease = true) : pc.closer = true := by
  cases pc with
  | closeStop | closeJoin | closeFd => rfl
  | _ => cases h

/-- Steps that leave the descriptor alone. -/
theorem Guarded.keep (h : w.Guarded fd) (hcloser : pc.closer = true → (w.threads i).closer = true)
    (hbefore : pc.beforeRelease = true → (w.threads i).beforeRelease = true)
    (hloaded : ∀ d cf, pc = .writing d cf → d = fd ∨ w.socket.fd = -1)
    (hclosed : s.bus.closed = w.socket.bus.closed) (hfd : s.fd = w.socket.fd)
    (hreleased : s.released = w.socket.released) :
    Guarded fd ⟨s, Function.update w.threads i pc⟩ := by
  have hback : ∀ k, (Function.update w.threads i pc k).closer = true →
      (w.threads k).closer = true := by
    intro k hk
    rcases of_update (p := Pc.closer) hk with ⟨rfl, hnew⟩ | ⟨-, hold⟩
    · exact hcloser hnew
    · exact hold
  constructor
  · exact fun j k hj hk => h.sole j k (hback j hj) (hback k hk)
  · exact fun j hj => hclosed.trans (h.closed j (hback j hj))
  · rw [hfd]
    exact h.number
  · intro j hj
    rw [hfd, hreleased]
    rcases of_update (p := Pc.beforeRelease) hj with ⟨rfl, hnew⟩ | ⟨-, hold⟩
    · exact h.intact j (hbefore hnew)
    · exact h.intact j hold
  · rw [hclosed, hfd, hreleased]
    exact h.opened
  · intro j d cf hj
    rw [hfd]
    by_cases hji : j = i
    · exact hloaded d cf (by simpa [hji] using hj)
    · exact h.loaded j d cf ((Function.update_of_ne hji _ _).symm.trans hj)

/-- A thread closes the bus. -/
theorem Guarded.begun (h : w.Guarded fd) (hopen : w.socket.bus.closed = false) (mu : RwLock) :
    Guarded fd ⟨{ w.socket with bus := { w.socket.bus with closed := true }, mu := mu },
      Function.update w.threads i .closeStop⟩ := by
  have hnone : ∀ k, (w.threads k).closer ≠ true := fun k hk =>
    absurd ((h.closed k hk).symm.trans hopen) (by simp)
  have hself : ∀ k, (Function.update w.threads i .closeStop k).closer = true → k = i := by
    intro k hk
    rcases of_update (p := Pc.closer) hk with ⟨rfl, -⟩ | ⟨-, hk⟩
    · rfl
    · exact absurd hk (hnone k)
  refine ⟨fun j k hj hk => (hself j hj).trans (hself k hk).symm, fun _ _ => rfl, h.number,
    fun _ _ => h.opened hopen, fun hc => (by cases hc), fun j d cf hj => ?_⟩
  by_cases hji : j = i
  · rw [hji] at hj
    cases (Function.update_self ..).symm.trans hj
  · exact h.loaded j d cf ((Function.update_of_ne hji _ _).symm.trans hj)

/-- The thread that has closed the bus gives the descriptor up. -/
theorem Guarded.give (h : w.Guarded fd) (hi : (w.threads i).closer = true)
    (hcloser : pc.closer = true) (hbefore : pc.beforeRelease = false)
    (hflight : pc.inFlight = false) (hclosed : s.bus.closed = w.socket.bus.closed)
    (hfd : s.fd = w.socket.fd ∨ s.fd = -1) :
    Guarded fd ⟨s, Function.update w.threads i pc⟩ := by
  have hself : ∀ k, (Function.update w.threads i pc k).closer = true → k = i := by
    intro k hk
    rcases of_update (p := Pc.closer) hk with ⟨rfl, -⟩ | ⟨-, hk⟩
    · rfl
    · exact h.sole k i hk hi
  have hbus := hclosed.trans (h.closed i hi)
  refine ⟨fun j k hj hk => (hself j hj).trans (hself k hk).symm, fun _ _ => hbus, ?_,
    fun j hj => ?_, fun hc => absurd (hbus.symm.trans hc) (by simp), fun j d cf hj => ?_⟩
  · rcases hfd with hfd | hfd
    · exact hfd ▸ h.number
    · exact .inr hfd
  · obtain rfl := hself j (closer_of_beforeRelease hj)
    have hpc : pc.beforeRelease = true := by simpa using hj
    exact absurd (hbefore.symm.trans hpc) (by simp)
  · have hji : j ≠ i := by
      rintro rfl
      obtain rfl := (Function.update_self ..).symm.trans hj
      cases hflight
    rcases hfd with hfd | hfd
    · exact hfd ▸ h.loaded j d cf ((Function.update_of_ne hji _ _).symm.trans hj)
    · exact .inr hfd

/-- A write leaves everything but the record of the kernel alone. -/
theorem write_keeps (s : Socket) (d : Int) (cf : KernelFrame) (ok : Bool) :
    (s.write d cf ok).1.bus = s.bus ∧ (s.write d cf ok).1.fd = s.fd ∧
      (s.write d cf ok).1.released = s.released ∧ (s.write d cf ok).1.mu = s.mu ∧
      (s.write d cf ok).1.stop = s.stop := by
  unfold Socket.write
  split_ifs <;> exact ⟨rfl, rfl, rfl, rfl, rfl⟩

/-- Every step of a thread keeps the descriptor in those hands. -/
theorem Guarded.of_descent (h : w.Guarded fd) (hd : Descent w.socket (w.threads i) s pc) :
    Guarded fd ⟨s, Function.update w.threads i pc⟩ := by
  generalize hpc : w.threads i = pc₀ at hd
  cases hd with
  | other hflight hcloser hbefore hclosed hfd hreleased hlate =>
    refine h.keep (hpc ▸ hcloser) (hpc ▸ hbefore) ?_ hclosed hfd hreleased
    rintro d cf rfl
    cases hflight
  | pass hopen =>
    refine h.keep (fun hc => by cases hc) (fun hc => by cases hc) ?_ rfl rfl rfl
    intro d cf hc
    cases hc
  | load cf =>
    refine h.keep (fun hc => by cases hc) (fun hc => by cases hc) ?_ rfl rfl rfl
    intro d cf' hc
    obtain ⟨rfl, -⟩ := Pc.writing.inj hc
    exact h.number
  | write d cf ok r =>
    obtain ⟨hbus, hfd, hreleased, -⟩ := write_keeps w.socket d cf ok
    refine h.keep (fun hc => by cases hc) (fun hc => by cases hc) ?_
      (congrArg Bus.closed hbus) hfd hreleased
    intro d cf hc
    cases hc
  | begun hopen => exact h.begun hopen _
  | release hfd => exact h.give (by rw [hpc]; rfl) rfl rfl rfl rfl (.inl rfl)
  | reset => exact h.give (by rw [hpc]; rfl) rfl rfl rfl rfl (.inr rfl)

/-- Every step is one of a thread on the way of the descriptor. -/
theorem descent_of_step (h : w.step e = some w') : ∃ i pc,
    w'.threads = Function.update w.threads i pc ∧ Descent w.socket (w.threads i) w'.socket pc ∧
      (w.threads i = .closeFd → ∃ reply, e = .advance i reply) := by
  cases e with
  | begin i c =>
    simp only [step] at h
    split at h
    · rename_i hquiet
      obtain rfl := Option.some.inj h
      refine ⟨i, c.begin, rfl, ?_, fun hi => by rw [hi] at hquiet; cases hquiet⟩
      cases c with
      | send f =>
        unfold Call.begin
        dsimp only
        split
        · exact .other rfl nofun nofun rfl rfl rfl rfl
        · split_ifs
          · exact .other rfl nofun nofun rfl rfl rfl rfl
          · exact .other rfl nofun nofun rfl rfl rfl rfl
      | subscribe filters opts => exact .other rfl nofun nofun rfl rfl rfl rfl
      | close => exact .other rfl nofun nofun rfl rfl rfl rfl
    · cases h
  | advance i reply =>
    obtain ⟨⟨s, pc⟩, hstep, rfl⟩ := Option.map_eq_some_iff.mp h
    exact ⟨i, pc, rfl, Socket.descent_of_step hstep, fun _ => ⟨reply, rfl⟩⟩

theorem Guarded.step (h : w.Guarded fd) (he : w.step e = some w') : w'.Guarded fd := by
  obtain ⟨i, pc, hthreads, hd, -⟩ := descent_of_step he
  have hguarded := h.of_descent hd
  rwa [← hthreads] at hguarded

/-- In every reachable world the descriptor is in those hands. -/
theorem guarded_of_run (h : Runs.run World.step (opened fd) steps = some w) : w.Guarded fd := by
  have hstart : ∀ i, (opened fd).threads i = .idle ∨ (opened fd).threads i = .readCheck := by
    intro i
    by_cases hi : i = 0
    · exact .inr (by rw [hi]; rfl)
    · left
      change Function.update (fun _ => Pc.idle) 0 .readCheck i = .idle
      rw [Function.update_of_ne hi]
  refine Runs.invariant (Guarded fd) (fun _ _ _ hu he => hu.step he) ?_ h
  refine ⟨fun i j hi hj => ?_, fun i hi => ?_, .inl rfl, fun i hi => ⟨rfl, rfl⟩,
    fun _ => ⟨rfl, rfl⟩, fun i d cf hi => ?_⟩
  · rcases hstart i with h0 | h0 <;> rw [h0] at hi <;> cases hi
  · rcases hstart i with h0 | h0 <;> rw [h0] at hi <;> cases hi
  · rcases hstart i with h0 | h0 <;> rw [h0] at hi <;> cases hi

/-- No write has come late, and none is on its way to a descriptor that is closed. -/
structure Quiet (w : World) : Prop where
  flight : w.socket.released = true → ∀ j, (w.threads j).inFlight = false
  late : w.socket.late = []

/-- A write that is not late. -/
theorem write_late (s : Socket) (d : Int) (cf : KernelFrame) (ok : Bool)
    (h : s.released = false) : (s.write d cf ok).1.late = s.late := by
  unfold Socket.write
  simp only [h, Bool.false_eq_true, if_false]
  split_ifs <;> rfl

/-- The thread of a step is not in flight behind it, nor is any other thread that was not. -/
theorem inFlight_update (hpc : pc.inFlight = false) (h : ∀ j, (w.threads j).inFlight = false)
    (i j : Nat) : (Function.update w.threads i pc j).inFlight = false := by
  by_cases hj : j = i
  · rw [hj, Function.update_self, hpc]
  · rw [Function.update_of_ne hj, h j]

/-- A step that closes the descriptor only when nobody is in flight keeps the world quiet. -/
theorem Quiet.of_descent (h : w.Quiet) (hguarded : w.Guarded fd)
    (hd : Descent w.socket (w.threads i) s pc)
    (hquiet : w.threads i = .closeFd → ∀ j, (w.threads j).inFlight = false) :
    Quiet ⟨s, Function.update w.threads i pc⟩ := by
  generalize hpc : w.threads i = pc₀ at hd
  cases hd with
  | other hflight hcloser hbefore hclosed hfd hreleased hlate =>
    refine ⟨fun hr => ?_, hlate.trans h.late⟩
    exact inFlight_update hflight (h.flight (hreleased.symm.trans hr)) i
  | pass hopen =>
    have hheld := (hguarded.opened hopen).2
    exact ⟨fun hr => absurd (hheld.symm.trans hr) (by simp), h.late⟩
  | load cf =>
    refine ⟨fun hr => ?_, h.late⟩
    have hi := h.flight hr i
    rw [hpc] at hi
    cases hi
  | write d cf ok r =>
    have hheld : w.socket.released = false := by
      by_contra hr
      have hi := h.flight (by simpa using hr) i
      rw [hpc] at hi
      cases hi
    obtain ⟨-, -, hreleased, -⟩ := write_keeps w.socket d cf ok
    refine ⟨fun hr => ?_, (write_late w.socket d cf ok hheld).trans h.late⟩
    exact absurd ((hreleased.trans hheld).symm.trans hr) (by simp)
  | begun hopen => exact ⟨fun hr => inFlight_update rfl (h.flight hr) i, h.late⟩
  | release hfd => exact ⟨fun _ => inFlight_update rfl (hquiet hpc) i, h.late⟩
  | reset => exact ⟨fun hr => inFlight_update rfl (h.flight hr) i, h.late⟩

/-- A run that closes the descriptor only when nobody is in flight stays quiet. -/
theorem quiet_of_run (h : w.Quiet) (hguarded : w.Guarded fd)
    (hrun : Runs.run World.step w steps = some w') (hquiet : w.ClosesQuietly steps) :
    w'.Quiet := by
  induction steps generalizing w with
  | nil => exact Option.some.inj hrun ▸ h
  | cons e steps ih =>
    obtain ⟨u, he, hrest⟩ := Option.bind_eq_some_iff.mp hrun
    obtain ⟨hnow, hlater⟩ := hquiet
    have hu : u.Quiet := by
      obtain ⟨i, pc, hthreads, hd, hevent⟩ := descent_of_step he
      have hnext := h.of_descent hguarded hd fun hi => by
        obtain ⟨reply, heq⟩ := hevent hi
        exact hnow i reply heq hi
      rwa [← hthreads] at hnext
    exact ih hu (hguarded.step he) hrest (hlater u he)

/-- A sender that has read the number of the descriptor writes to it, closed or not. -/
theorem run_writing {d : Int} {cf : KernelFrame} (hj : w.threads j = .writing d cf) (hd : 0 ≤ d)
    (hreleased : w.socket.released = true) :
    ∃ w', Runs.run World.step w [.advance j (.wrote true)] = some w' ∧ w'.socket.late ≠ [] := by
  have hstep : w.step (.advance j (.wrote true)) = some ⟨(w.socket.write d cf true).1,
      Function.update w.threads j (.returned (.sent (w.socket.write d cf true).2))⟩ := by
    simp only [step, hj, Socket.step, Option.map_some]
  refine ⟨_, by rw [Runs.run, hstep]; rfl, ?_⟩
  simp [Socket.write, hreleased, Int.not_lt.mpr hd]

/-- From where `close` is about to close the descriptor, a sender in flight can write late. -/
theorem exists_late (hguarded : w.Guarded fd) (hi : w.threads i = .closeFd)
    (hj : (w.threads j).inFlight = true) : ∃ steps w',
      Runs.run World.step w (.advance i .none :: steps) = some w' ∧ w'.socket.late ≠ [] := by
  have hfd : w.socket.fd = fd := (hguarded.intact i (by rw [hi]; rfl)).1
  have hpos : 0 ≤ w.socket.fd := by omega
  have hne : j ≠ i := by
    rintro rfl
    rw [hi] at hj
    cases hj
  obtain ⟨u, hu⟩ : ∃ u : World, u =
    ⟨{ w.socket with released := true }, Function.update w.threads i .closeReset⟩ := ⟨_, rfl⟩
  have hclose : w.step (.advance i .none) = some u := by
    simp only [step, hi, Socket.step, if_pos hpos.ge, Option.map_some, hu]
  have hthread : u.threads j = w.threads j := by
    rw [hu]
    exact Function.update_of_ne hne _ _
  cases hpc : w.threads j with
  | sendWrite cf =>
    have hload : u.step (.advance j .none) =
        some ⟨u.socket, Function.update u.threads j (.writing u.socket.fd cf)⟩ := by
      simp only [step, hthread, hpc, Socket.step, Option.map_some]
    obtain ⟨w', hw', hlate⟩ := @run_writing
      ⟨u.socket, Function.update u.threads j (.writing u.socket.fd cf)⟩ j u.socket.fd cf
      (Function.update_self ..) (by rw [hu]; exact hpos) (by rw [hu])
    refine ⟨[.advance j .none, .advance j (.wrote true)], w', ?_, hlate⟩
    rw [Runs.run, hclose, Option.bind_some, Runs.run, hload, Option.bind_some, hw']
  | writing d cf =>
    have hd : 0 ≤ d := by
      rcases hguarded.loaded j d cf hpc with h | h
      · omega
      · omega
    obtain ⟨w', hw', hlate⟩ := run_writing (hthread.trans hpc) hd (by rw [hu])
    refine ⟨[.advance j (.wrote true)], w', ?_, hlate⟩
    rw [Runs.run, hclose, Option.bind_some, hw']
  | _ => rw [hpc] at hj; cases hj

/-- In every run in which the descriptor is closed only when no sender is between its check
and the end of its write, nothing is written to it afterwards. Wherever it is closed else,
the run can go on with such a write. -/
theorem no_late_write (fd : Nat) :
    (∀ steps w, Runs.run step (opened fd) steps = some w → (opened fd).ClosesQuietly steps →
      w.socket.late = []) ∧
    ∀ steps w i j, Runs.run step (opened fd) steps = some w → w.threads i = .closeFd →
      (w.threads j).inFlight = true → ∃ rest w',
        Runs.run step w (.advance i .none :: rest) = some w' ∧ w'.socket.late ≠ [] := by
  constructor
  · intro steps w hrun hquiet
    have hstart : (opened fd).Quiet := by
      refine ⟨fun hr => ?_, rfl⟩
      cases hr
    exact (quiet_of_run hstart (@guarded_of_run _ fd [] rfl) hrun hquiet).late
  · intro steps w i j hrun hi hj
    exact exists_late (guarded_of_run hrun) hi hj

/-- A sender behind its check, and a `close` that has come to the descriptor. -/
def racing : List Step :=
  [.begin 1 (.send { id := 0x123, data := [1] }), .advance 1 .none, .advance 1 .none,
    .begin 2 .close, .advance 2 .none, .advance 2 .none, .advance 2 .none, .advance 0 .none,
    .advance 2 .none]

/-- The sender writes, then the descriptor is closed. -/
def writeFirst : List Step :=
  racing ++ [.advance 1 .none, .advance 1 (.wrote true), .advance 2 .none]

theorem no_late_write_writeFirst : ∃ w, Runs.run step (opened 3) writeFirst = some w ∧
    w.socket.late = [] := by
  obtain ⟨w, hw⟩ : ∃ w, Runs.run step (opened 3) writeFirst = some w := ⟨_, rfl⟩
  refine ⟨w, hw, (no_late_write 3).1 writeFirst w hw ?_⟩
  -- The threads of the eleven steps before the last one are not at the descriptor.
  iterate 11
    refine ⟨?_, fun u hu => ?_⟩
    · rintro i reply ⟨⟩ hi <;> cases hi
    obtain rfl := Option.some.inj hu
  refine ⟨?_, fun u hu => trivial⟩
  rintro i reply - - j
  by_cases hj : j = 0 ∨ j = 1 ∨ j = 2
  · rcases hj with rfl | rfl | rfl <;> rfl
  · simp only [not_or] at hj
    obtain ⟨h0, h1, h2⟩ := hj
    simp [Function.update_of_ne, h0, h1, h2, opened, Pc.inFlight]

/-- The descriptor is closed, then the sender writes. -/
theorem late_write : ¬ ∀ fd steps w, Runs.run step (opened fd) steps = some w →
    w.socket.late = [] := by
  intro h
  obtain ⟨w, hw, hlate⟩ : ∃ w, Runs.run step (opened 3)
      (racing ++ [.advance 2 .none, .advance 1 .none, .advance 1 (.wrote true)]) = some w ∧
      w.socket.late = [.ofFrame { id := 0x123, data := [1] }] := ⟨_, rfl, rfl⟩
  rw [h 3 _ w hw] at hlate
  cases hlate

end World

end CppCan.SocketCan
