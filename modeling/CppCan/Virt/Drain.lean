import CppCan.Core.Runs
import CppCan.Virt.Teardown

/-!
# Closing a bus that is to be drained first

`close_with_drain` looks at the channels under the shared lock, lets go of it and calls
`close`. What a sender puts into a channel that has been looked at is still there when the
bus becomes closed. The call is one thread; the others send, subscribe and receive.
-/

namespace CppCan.Virt

open CppCan.Core CppCan.Relay Chan

/-- Where the thread is that drains the bus: in the loop, in `all_drained`, or in the `close`
after a successful check or after the deadline. -/
inductive DrainPc where
  | idle
  | loop
  | allDrainedLock
  | allDrained (rest : List Subscription)
  | close (drained : Bool) (pc : Pc)
  | returned (err : Option ErrorCode)

/-- The next step of `close_with_drain`, if it need not wait; the clock says whether the deadline
has expired. -/
def Bus.closeWithDrain (b : Bus) (expired : Bool) : DrainPc → Option (Bus × DrainPc)
  | .idle => some (b, .loop)
  | .loop => some (b, if expired then .close false .closeLock else .allDrainedLock)
  | .allDrainedLock => (b.mu.lockShared 0).map fun mu => ({ b with mu := mu }, .allDrained b.subs)
  | .allDrained [] => some ({ b with mu := b.mu.unlockShared 0 }, .close true .closeLock)
  | .allDrained (s :: rest) =>
    if 0 < (b.chan s.ch).buf.length then some ({ b with mu := b.mu.unlockShared 0 }, .loop)
    else some (b, .allDrained rest)
  | .close drained (.returned _) =>
    some (b, .returned (if drained then none else some (.relay .timeout)))
  | .close drained pc => (b.step 0 pc).map fun (b, pc) => (b, .close drained pc)
  | .returned _ => none

/-- A bus, the thread that drains it and the other threads. -/
structure DrainWorld extends World where
  drain : DrainPc := .idle

/-- What a scheduler may choose next. -/
inductive DrainEvent where
  | begin (i : Nat) (c : Call)
  | advance (i : Nat)
  | drain (expired : Bool)

/-- The call closes the bus. -/
def Call.closes : Call → Bool
  | .close => true
  | _ => false

namespace DrainWorld

/-- The world after an event, if it can happen. The other threads do not close the bus. -/
def step (w : DrainWorld) : DrainEvent → Option DrainWorld
  | .begin i c =>
    if (w.threads i).quiet && !c.closes then
      some { w with
        bus := (c.begin w.bus).1
        threads := Function.update w.threads i (c.begin w.bus).2 }
    else none
  | .advance i =>
    (w.bus.step (i + 1) (w.threads i)).map fun (b, pc) =>
      { w with bus := b, threads := Function.update w.threads i pc }
  | .drain expired =>
    (w.bus.closeWithDrain expired w.drain).map fun (b, pc) => { w with bus := b, drain := pc }

/-- The check under way, or the one that has just succeeded, is past this channel. -/
def passed (w : DrainWorld) (ch : Nat) : Bool :=
  match w.drain with
  | .allDrained rest => rest.all (·.ch != ch)
  | .close true .closeLock | .close true .closeHeld => true
  | _ => false

/-- The event puts no frame into a channel that the check is past. -/
def spares (w : DrainWorld) : DrainEvent → Bool
  | .advance i => (w.threads i).op.all fun (ch, op) => op.value.isNone || !w.passed ch
  | _ => true

/-- The drain is in its check or, after a successful one, in its `close`. -/
def checking (w : DrainWorld) : Bool :=
  match w.drain with
  | .allDrained _ | .close true _ => true
  | _ => false

/-- The check has succeeded and the drain has the lock to close the bus. -/
def aboutToClose (w : DrainWorld) : Bool :=
  match w.drain with
  | .close true .closeHeld => true
  | _ => false

/-- Where the drain is about to close the bus after a successful check, no event has put a frame
into a channel that this check was past. `disturbed` says whether one has. -/
def sparesCheck : Bool → DrainWorld → List DrainEvent → Bool
  | _, _, [] => true
  | disturbed, w, e :: es =>
    !(disturbed && w.aboutToClose) &&
      (w.step e).all fun w' => sparesCheck (w'.checking && (disturbed || !w.spares e)) w' es

end DrainWorld

/-- If the drain returns success, every channel of the bus is empty at the moment the bus becomes
closed. -/
def ClosesDrained (es : List DrainEvent) : Prop :=
  ∀ (pre : List DrainEvent) (e : DrainEvent) (post : List DrainEvent) (w w' w'' : DrainWorld),
    es = pre ++ e :: post → Runs.run DrainWorld.step {} pre = some w → w.step e = some w' →
    Runs.run DrainWorld.step w' post = some w'' → w.bus.closed = false → w'.bus.closed = true →
    w''.drain = .returned none → ∀ s ∈ w'.bus.subs, (w'.bus.chan s.ch).buf = []

namespace Bus

variable {b b' : Bus} {i : Nat} {pc pc' : Pc}

/-- A step that offers a channel nothing leaves it empty. -/
theorem ChannelStep.empty (h : b.ChannelStep pc b') {ch : Nat} (hempty : (b.chan ch).buf = [])
    (hoffer : ∀ op, pc.op = some (ch, op) → op.value = none) : (b'.chan ch).buf = [] := by
  cases h with
  | keep hop hch => rwa [chan, hch]
  | @perform j op c reply hop hc hch =>
    rcases chan_eq_or_of_set hch ch with heq | ⟨rfl, heq⟩
    · rwa [heq]
    · have hsub := (effect_of_perform hc).sublist
      rw [hempty, hoffer op hop] at hsub
      rw [heq]
      exact (List.append_eq_nil_iff.mp (List.sublist_nil.mp hsub)).2
  | add hop hch =>
    rw [chan, hch, List.getD_eq_getElem?_getD, List.getElem?_append]
    split
    · rw [chan, List.getD_eq_getElem?_getD] at hempty
      exact hempty
    · cases ch - b.channels.length <;> rfl

/-- A new subscription finds its channel empty. -/
theorem empty_of_subscribed (filters : List Filter) (cfg : SubscriberConfig) (mu : RwLock) :
    (Bus.chan { (b.addSubscription filters cfg).1 with mu := mu } b.channels.length).buf = [] := by
  simp [addSubscription, chan]

/-- What a step outside of `close` does to the bus: it stays as open as it was, and a new
subscription comes with an empty channel. -/
theorem subs_of_calm (h : b.step i pc = some (b', pc')) (hcalm : pc.closePending = false) :
    pc'.closePending = false ∧ b'.closed = b.closed ∧
      ∀ s ∈ b'.subs, s ∈ b.subs ∨ (b'.chan s.ch).buf = [] := by
  cases outcome_of_step h with
  | delivered hdeliver =>
    exact ⟨rfl, (deliver_keeps hdeliver).1, fun s hs => .inl (deliver_subs hdeliver ▸ hs)⟩
  | subscribed hopen =>
    refine ⟨rfl, rfl, fun s hs => ?_⟩
    rcases List.mem_append.mp hs with hs | hs
    · exact .inl hs
    · obtain rfl := List.mem_singleton.mp hs
      exact .inr (empty_of_subscribed _ _ _)
  | sendLocked | sendRefused | sendAccepted | sendDone | subscribeLocked | subscribeRefused |
      received => exact ⟨rfl, rfl, fun _ => .inl⟩
  | closeLocked | closeAgain | closeBegun | closeDone | closeNext => cases hcalm

end Bus

/-- A call other than `close` begins outside of `close` and leaves the channels alone. -/
theorem begin_calm (b : Bus) {c : Call} (hc : c.closes = false) :
    (c.begin b).2.closePending = false ∧ (c.begin b).1.closed = b.closed := by
  cases c with
  | send f =>
    unfold Call.begin
    dsimp only
    split <;> exact ⟨rfl, rfl⟩
  | close => cases hc
  | _ => exact ⟨rfl, rfl⟩

namespace DrainWorld

variable {w w' : DrainWorld} {e : DrainEvent} {es : List DrainEvent}

/-- Only the drain is in `close`. -/
def Calm (w : DrainWorld) : Prop := ∀ i, (w.threads i).closePending = false

/-- The channels that the check is past are empty. -/
def Emptied (w : DrainWorld) : Prop :=
  ∀ s ∈ w.bus.subs, w.passed s.ch = true → (w.bus.chan s.ch).buf = []

/-- The threads outside of `close` after one of them has moved. -/
theorem calm_update {threads : Nat → Pc} {i : Nat} {pc : Pc}
    (h : ∀ j, (threads j).closePending = false) (hpc : pc.closePending = false) (j : Nat) :
    (Function.update threads i pc j).closePending = false := by
  by_cases hj : j = i
  · rwa [hj, Function.update_self]
  · rw [Function.update_of_ne hj]
    exact h j

/-- The steps of the drain, seen from its check: it has passed nothing, it goes on to another
channel if that one is empty, or it closes the bus. -/
inductive Check (w : DrainWorld) : Bus → DrainPc → Prop where
  | started {b : Bus} {pc : DrainPc} (hclosed : b.closed = w.bus.closed)
      (hpassed : ∀ s ∈ b.subs, passed { w with bus := b, drain := pc } s.ch = false) :
      Check w b pc
  | went {b : Bus} {pc : DrainPc} (hclosed : b.closed = w.bus.closed)
      (hsubs : b.subs = w.bus.subs) (hchannels : b.channels = w.bus.channels)
      (hpassed : ∀ ch, passed { w with bus := b, drain := pc } ch = true →
        w.passed ch = true ∨ (w.bus.chan ch).buf = []) : Check w b pc
  | closed {drained : Bool} {rest : List Subscription} (hpc : w.drain = .close drained .closeHeld)
      (hopen : w.bus.closed = false) :
      Check w { w.bus with closed := true } (.close drained (.closing rest))

/-- The check is past the channels it has not still to look at. -/
theorem passed_allDrained {rest : List Subscription} (hdrain : w.drain = .allDrained rest)
    (ch : Nat) : w.passed ch = rest.all (·.ch != ch) := by
  unfold passed
  rw [hdrain]

/-- The `close` of the drain takes its own steps until it returns; then the drain returns. -/
theorem close_cases {b b' : Bus} {expired drained : Bool} {pc : Pc} {pc' : DrainPc}
    (h : b.closeWithDrain expired (.close drained pc) = some (b', pc')) :
    (∃ pc'', b.step 0 pc = some (b', pc'') ∧ pc' = .close drained pc'') ∨
      b' = b ∧ pc' = .returned (if drained then none else some (.relay .timeout)) := by
  cases pc with
  | returned r =>
    obtain ⟨rfl, rfl⟩ := Prod.mk.inj (Option.some.inj h)
    exact .inr ⟨rfl, rfl⟩
  | _ =>
    simp only [Bus.closeWithDrain] at h
    obtain ⟨⟨b'', pc''⟩, hstep, heq⟩ := Option.map_eq_some_iff.mp h
    obtain ⟨rfl, rfl⟩ := Prod.mk.inj heq
    exact .inl ⟨pc'', hstep, rfl⟩

/-- Every step of the `close` of the drain is one of these. -/
theorem check_of_close {drained : Bool} {pc pc' : Pc} {b : Bus}
    (hdrain : w.drain = .close drained pc) (h : w.bus.step 0 pc = some (b, pc')) :
    w.Check b (.close drained pc') := by
  cases Bus.outcome_of_step h with
  | closeLocked hmu =>
    refine .went rfl rfl rfl fun ch hch => .inl ?_
    cases drained with
    | true => rw [passed, hdrain]
    | false => cases hch
  | closeAgain hclosed => exact .started rfl fun _ _ => by cases drained <;> rfl
  | closeBegun hopen => exact .closed hdrain hopen
  | closeDone => exact .started rfl fun _ _ => by cases drained <;> rfl
  | closeNext => exact .started rfl fun _ _ => by cases drained <;> rfl
  | delivered hdeliver =>
    exact .started (Bus.deliver_keeps hdeliver).1 fun _ _ => by cases drained <;> rfl
  | _ => exact .started rfl fun _ _ => by cases drained <;> rfl

/-- Every step of the drain is one of these. -/
theorem check_of_drain {expired : Bool} {b : Bus} {pc : DrainPc}
    (h : w.bus.closeWithDrain expired w.drain = some (b, pc)) : w.Check b pc := by
  cases hdrain : w.drain with
  | idle =>
    rw [hdrain] at h
    obtain ⟨rfl, rfl⟩ := Prod.mk.inj (Option.some.inj h)
    exact .started rfl fun _ _ => rfl
  | loop =>
    rw [hdrain] at h
    obtain ⟨rfl, rfl⟩ := Prod.mk.inj (Option.some.inj h)
    exact .started rfl fun _ _ => by cases expired <;> rfl
  | allDrainedLock =>
    rw [hdrain] at h
    obtain ⟨mu, -, heq⟩ := Option.map_eq_some_iff.mp h
    obtain ⟨rfl, rfl⟩ := Prod.mk.inj heq
    refine .started rfl fun s hs => ?_
    rw [passed, List.all_eq_false]
    exact ⟨s, hs, by simp⟩
  | allDrained rest =>
    cases rest with
    | nil =>
      rw [hdrain] at h
      obtain ⟨rfl, rfl⟩ := Prod.mk.inj (Option.some.inj h)
      refine .went rfl rfl rfl fun ch _ => .inl ?_
      rw [passed_allDrained hdrain, List.all_nil]
    | cons s rest =>
      rw [hdrain, Bus.closeWithDrain] at h
      split at h
      · obtain ⟨rfl, rfl⟩ := Prod.mk.inj (Option.some.inj h)
        exact .started rfl fun _ _ => rfl
      · rename_i hempty
        obtain ⟨rfl, rfl⟩ := Prod.mk.inj (Option.some.inj h)
        refine .went rfl rfl rfl fun ch hch => ?_
        by_cases hs : s.ch = ch
        · rw [← hs]
          exact .inr (List.length_eq_zero_iff.mp (Nat.eq_zero_of_not_pos hempty))
        · left
          rw [passed_allDrained hdrain, List.all_cons, Bool.and_eq_true]
          exact ⟨by simpa using hs, hch⟩
  | close drained pc₀ =>
    rw [hdrain] at h
    rcases close_cases h with ⟨pc', hstep, rfl⟩ | ⟨rfl, rfl⟩
    · exact check_of_close hdrain hstep
    · exact .started rfl fun _ _ => rfl
  | returned err =>
    rw [hdrain] at h
    cases h

/-- What an event can do: another thread moves on outside of `close` and, if it spares the check,
leaves what is empty so; or the drain takes its next step. -/
inductive Moved (w : DrainWorld) : DrainEvent → DrainWorld → Prop where
  | other {e : DrainEvent} {i : Nat} {b : Bus} {pc : Pc} (hcalm : pc.closePending = false)
      (hclosed : b.closed = w.bus.closed)
      (hsubs : ∀ s ∈ b.subs, s ∈ w.bus.subs ∨ (b.chan s.ch).buf = [])
      (hempty : w.spares e = true → ∀ ch, w.passed ch = true → (w.bus.chan ch).buf = [] →
        (b.chan ch).buf = []) :
      Moved w e { w with bus := b, threads := Function.update w.threads i pc }
  | drain {expired : Bool} {b : Bus} {pc : DrainPc}
      (h : w.bus.closeWithDrain expired w.drain = some (b, pc)) :
      Moved w (.drain expired) { w with bus := b, drain := pc }

/-- Every event does one of these. -/
theorem moved_of_step (hcalm : w.Calm) (he : w.step e = some w') : w.Moved e w' := by
  cases e with
  | begin i c =>
    obtain ⟨hbegin, heq⟩ := Option.ite_none_right_eq_some.mp he
    obtain ⟨-, hc⟩ := Bool.and_eq_true_iff.mp hbegin
    obtain rfl := Option.some.inj heq
    obtain ⟨hpc, hclosed⟩ := begin_calm w.bus (by simpa using hc)
    obtain ⟨hsubs, hch, -⟩ := World.begin_wired w.bus c
    refine .other hpc hclosed (fun s hs => .inl (hsubs ▸ hs)) fun _ ch _ hempty => ?_
    rwa [Bus.chan, hch]
  | advance i =>
    obtain ⟨⟨b, pc⟩, hstep, rfl⟩ := Option.map_eq_some_iff.mp he
    obtain ⟨hpc, hclosed, hsubs⟩ := Bus.subs_of_calm hstep (hcalm i)
    refine .other hpc hclosed hsubs fun hspares ch hpassed hempty => ?_
    refine (Bus.channelStep_of_step hstep).empty hempty fun op hop => ?_
    have hoffer : (op.value.isNone || !w.passed ch) = true := by
      rwa [spares, hop] at hspares
    rw [hpassed] at hoffer
    simpa using hoffer
  | drain expired =>
    obtain ⟨⟨b, pc⟩, hstep, rfl⟩ := Option.map_eq_some_iff.mp he
    exact .drain hstep

/-- The other threads stay out of `close`. -/
theorem Calm.step (h : w.Calm) (he : w.step e = some w') : w'.Calm := by
  cases moved_of_step h he with
  | other hcalm => exact calm_update h hcalm
  | drain => exact h

/-- An event that spares the channels which the check is past leaves them empty. -/
theorem Emptied.step (h : w.Emptied) (hcalm : w.Calm) (hspares : w.spares e = true)
    (he : w.step e = some w') : w'.Emptied := by
  intro s hs hpassed
  cases moved_of_step hcalm he with
  | other _ _ hsubs hempty =>
    rcases hsubs s hs with hs | hnew
    · exact hempty hspares s.ch hpassed (h s hs hpassed)
    · exact hnew
  | drain hstep =>
    cases check_of_drain hstep with
    | started hclosed hnone => exact absurd ((hnone s hs).symm.trans hpassed) (by simp)
    | went hclosed hsubs hchannels hwent =>
      rw [Bus.chan, hchannels]
      rcases hwent s.ch hpassed with hwas | hempty
      · exact h s (hsubs ▸ hs) hwas
      · exact hempty
    | @closed drained rest hpc hopen => cases drained <;> cases hpassed

/-- Outside of the check nothing has been passed. -/
theorem emptied_of_not_checking (h : w.checking = false) : w.Emptied := by
  intro s _ hpassed
  unfold passed at hpassed
  unfold checking at h
  cases hdrain : w.drain with
  | allDrained rest =>
    rw [hdrain] at h
    cases h
  | close drained pc =>
    rw [hdrain] at h hpassed
    cases drained with
    | true => cases h
    | false => cases hpassed
  | _ =>
    rw [hdrain] at hpassed
    cases hpassed

/-- Along a run that spares the check, the channels it is past are empty unless it has been
disturbed, and it has not been where the drain is about to close the bus. -/
theorem emptied_of_run {disturbed : Bool} {es' : List DrainEvent} (hcalm : w.Calm)
    (h : disturbed = false → w.Emptied) (hes' : es' ≠ [])
    (hspares : sparesCheck disturbed w (es ++ es') = true)
    (hrun : Runs.run DrainWorld.step w es = some w') :
    w'.Calm ∧ (w'.aboutToClose = true → w'.Emptied) := by
  induction es generalizing w disturbed with
  | nil =>
    obtain rfl := Option.some.inj hrun
    obtain ⟨e, es'', rfl⟩ := List.exists_cons_of_ne_nil hes'
    obtain ⟨hnow, -⟩ := Bool.and_eq_true_iff.mp hspares
    refine ⟨hcalm, fun habout => h ?_⟩
    rw [habout] at hnow
    simpa using hnow
  | cons e es ih =>
    obtain ⟨u, hu, hrest⟩ := Option.bind_eq_some_iff.mp hrun
    obtain ⟨-, hes⟩ := Bool.and_eq_true_iff.mp hspares
    rw [hu, Option.all_some] at hes
    refine ih (hcalm.step hu) (fun hquiet => ?_) hes hrest
    cases hchecking : u.checking with
    | false => exact emptied_of_not_checking hchecking
    | true =>
      obtain ⟨hdisturbed, he⟩ : disturbed = false ∧ w.spares e = true := by
        simpa [hchecking] using hquiet
      exact (h hdisturbed).step hcalm he hu

/-- It is the `close` of the drain that closes the bus. -/
theorem Calm.closed_of_step (h : w.Calm) (he : w.step e = some w')
    (hopen : w.bus.closed = false) (hclosed : w'.bus.closed = true) :
    ∃ drained rest, w.drain = .close drained .closeHeld ∧
      w' = { w with
        bus := { w.bus with closed := true }
        drain := .close drained (.closing rest) } := by
  have hne : w'.bus.closed ≠ w.bus.closed := by simp [hopen, hclosed]
  cases moved_of_step h he with
  | other _ hkept => exact absurd hkept hne
  | drain hstep =>
    cases check_of_drain hstep with
    | started hkept => exact absurd hkept hne
    | went hkept => exact absurd hkept hne
    | closed hpc => exact ⟨_, _, hpc, rfl⟩

/-- The drain has missed its deadline. -/
def Late (w : DrainWorld) : Prop :=
  (∃ pc, w.drain = .close false pc) ∨ w.drain = .returned (some (.relay .timeout))

/-- A drain that has missed its deadline does not return success. -/
theorem Late.step (h : w.Late) (hcalm : w.Calm) (he : w.step e = some w') : w'.Late := by
  cases moved_of_step hcalm he with
  | other => exact h
  | drain hstep =>
    rcases h with ⟨pc₀, hdrain⟩ | hdrain
    · rw [hdrain] at hstep
      rcases close_cases hstep with ⟨pc', -, rfl⟩ | ⟨-, rfl⟩
      · exact .inl ⟨pc', rfl⟩
      · exact .inr rfl
    · rw [hdrain] at hstep
      cases hstep

/-- If no send puts a frame into a channel between the check that succeeds and the `close`,
success means that every channel is empty when the bus becomes closed. -/
theorem closesDrained_of_sparesCheck (es : List DrainEvent) (h : sparesCheck false {} es = true) :
    ClosesDrained es := by
  rintro pre e post w w' w'' rfl hpre he hpost hopen hclosed hreturned s hs
  obtain ⟨hcalm, hempty⟩ :=
    emptied_of_run (fun _ => rfl) (fun _ => emptied_of_not_checking rfl)
      (List.cons_ne_nil e post) h hpre
  obtain ⟨drained, rest, hpc, rfl⟩ := hcalm.closed_of_step he hopen hclosed
  cases drained with
  | true => exact hempty (by rw [aboutToClose, hpc]) s hs (by rw [passed, hpc])
  | false =>
    obtain ⟨-, hlate⟩ : w''.Calm ∧ w''.Late :=
      Runs.invariant (fun w => w.Calm ∧ w.Late)
        (fun _ _ _ h hstep => ⟨h.1.step hstep, h.2.step h.1 hstep⟩)
        ⟨hcalm.step he, .inl ⟨_, rfl⟩⟩ hpost
    rcases hlate with ⟨pc, hdrain⟩ | hdrain
    · cases hreturned.symm.trans hdrain
    · cases hreturned.symm.trans hdrain

/-- Two subscriptions and a frame for both. When the first of them has been emptied a check gets
past it, meets the other one and fails; another frame comes to the first meanwhile. Both are
received, and the next check succeeds. -/
def checked : List DrainEvent :=
  [.begin 0 (.subscribe [] []), .advance 0, .advance 0,
    .begin 0 (.subscribe [⟨0x20, 0x7ff⟩] []), .advance 0, .advance 0,
    .begin 1 (.send { id := 0x20, data := [1] }), .advance 1, .advance 1, .advance 1, .advance 1,
    .advance 1, .begin 0 (.recv 0), .advance 0, .drain false, .drain false, .drain false,
    .drain false, .begin 1 (.send { id := 0x10, data := [2] }), .advance 1, .advance 1, .advance 1,
    .advance 1, .advance 1, .drain false, .begin 0 (.recv 0), .advance 0, .begin 0 (.recv 1),
    .advance 0, .drain false, .drain false, .drain false, .drain false, .drain false]

/-- The rest of the drain of a bus with one subscription, once the bus is closed. -/
def closing : List DrainEvent := [.drain false, .drain false, .drain false]

theorem closesDrained_of_sparesCheck_checked :
    ClosesDrained (checked ++ .drain false :: .drain false :: .drain false :: closing) :=
  closesDrained_of_sparesCheck _ rfl

/-- A frame comes after the check and before the `close`. -/
def overtaken : List DrainEvent :=
  [.begin 0 (.subscribe [] []), .advance 0, .advance 0, .drain false, .drain false, .drain false,
    .drain false, .drain false, .begin 1 (.send { id := 0x10, data := [1] }), .advance 1,
    .advance 1, .advance 1, .advance 1, .drain false]

/-- The bus is closed on a frame that nobody has received, and the drain returns success. -/
theorem not_closesDrained : ¬ ∀ es : List DrainEvent, ClosesDrained es := by
  intro h
  obtain ⟨w, hw⟩ : ∃ w, Runs.run step {} overtaken = some w := ⟨_, rfl⟩
  have hend : w.bus.closed = false ∧ ⟨[], 0, .dropNewest⟩ ∈ w.bus.subs ∧ (w.bus.chan 0).buf ≠ [] ∧
      ∃ w', w.step (.drain false) = some w' ∧ w'.bus.closed = true ∧ w'.bus.subs = w.bus.subs ∧
        w'.bus.channels = w.bus.channels ∧
        ∃ w'', Runs.run step w' closing = some w'' ∧ w''.drain = .returned none := by
    obtain rfl := Option.some.inj hw
    exact ⟨rfl, List.mem_cons_self, nofun, _, rfl, rfl, rfl, rfl, _, rfl, rfl⟩
  obtain ⟨hopen, hsubs, hfull, w', hstep, hclosed, hsubs', hch, w'', hrest, hreturned⟩ := hend
  have hempty := h _ overtaken (.drain false) closing w w' w'' rfl hw hstep hrest hopen hclosed
    hreturned ⟨[], 0, .dropNewest⟩ (hsubs' ▸ hsubs)
  rw [Bus.chan, hch] at hempty
  exact hfull hempty

end DrainWorld

end CppCan.Virt
