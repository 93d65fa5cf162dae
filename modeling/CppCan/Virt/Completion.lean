import CppCan.Core.Holders
import CppCan.Core.Schedules
import CppCan.Virt.Accounting
import CppCan.Virt.Closed

/-!
# The calls of a bus come to an end

A sender that waits at a full channel keeps the lock, and with it everybody who wants it for
himself. That is the only way to wait: once somebody receives from the channels whose subscribers
make a sender wait, every call that is under way returns, in whatever order the threads go on. No
other channel needs a consumer.
-/

namespace CppCan.Virt

open CppCan.Core CppCan.Relay Chan

/-- The settings of the subscription that a thread is about to add. -/
def Pc.subscribing : Pc → Option SubscriberConfig
  | .subscribeLock _ cfg | .subscribeHeld _ cfg => some cfg
  | _ => none

/-- How many subscriptions a thread may still add. -/
def Pc.adds (pc : Pc) : Nat := pc.subscribing.isSome.toNat

/-- How many frames the next step may put into a channel. -/
def Pc.offers : Pc → Nat
  | .fanOut _ (_ :: _) => 1
  | _ => 0

/-- How much a thread has before it at most, when it comes across so many subscriptions. A round
of the fan-out counts twice, for the step and for the frame that somebody has to receive. -/
def Pc.stepsLeft (subs : Nat) : Pc → Nat
  | .idle | .returned _ => 0
  | .sendLock _ => 2 * subs + 3
  | .sendCheck _ => 2 * subs + 2
  | .fanOut _ rest => 2 * rest.length + 1
  | .subscribeLock _ _ => 2
  | .subscribeHeld _ _ => 1
  | .closeLock => subs + 3
  | .closeHeld => subs + 2
  | .closing rest => rest.length + 1
  | .recv _ => 1

section Step

variable {b b' : Bus} {i : Nat} {pc pc' : Pc}

theorem Pc.stepsLeft_mono (pc : Pc) {m n : Nat} (h : m ≤ n) : pc.stepsLeft m ≤ pc.stepsLeft n := by
  cases pc with
  | sendLock | sendCheck =>
    exact Nat.add_le_add_right (Nat.mul_le_mul_left 2 h) _
  | closeLock | closeHeld => exact Nat.add_le_add_right h _
  | _ => exact Nat.le_refl _

/-- A step leaves less before the thread, also when what it puts into a channel is counted. -/
theorem Bus.Outcome.stepsLeft_lt (h : b.Outcome i pc b' pc') {n : Nat} (hn : b.subs.length ≤ n) :
    pc'.stepsLeft n + pc.offers < pc.stepsLeft n := by
  cases h with
  | sendAccepted | closeBegun =>
    simp only [Pc.stepsLeft, Pc.offers]
    omega
  | delivered | closeNext =>
    simp only [Pc.stepsLeft, Pc.offers, List.length_cons]
    omega
  | _ => simp [Pc.stepsLeft, Pc.offers]

/-- Subscriptions come from threads that were to add them. -/
theorem Bus.Outcome.subs_length (h : b.Outcome i pc b' pc') :
    b'.subs.length + pc'.adds ≤ b.subs.length + pc.adds := by
  cases h with
  | delivered hdeliver =>
    rw [Bus.deliver_subs hdeliver]
    exact Nat.le_refl _
  | subscribed =>
    rw [Bus.addSubscription, List.length_append]
    exact Nat.le_refl _
  | subscribeRefused => exact Nat.le_succ _
  | closeDone => exact Nat.zero_le _
  | _ => exact Nat.le_refl _

/-- Where the subscriptions that are present come from, and what a thread is about to add. -/
theorem Bus.Outcome.subs_origin (h : b.Outcome i pc b' pc') :
    (∀ s ∈ b'.subs, s ∈ b.subs ∨ ∃ cfg, pc.subscribing = some cfg ∧
      s.backPressure = cfg.backPressure ∧ s.ch = b.channels.length) ∧
      ∀ cfg, pc'.subscribing = some cfg → pc.subscribing = some cfg := by
  cases h with
  | delivered hdeliver =>
    rw [Bus.deliver_subs hdeliver]
    exact ⟨fun _ => .inl, fun _ => id⟩
  | @subscribed filters cfg hopen =>
    refine ⟨fun s hs => ?_, nofun⟩
    rcases List.mem_append.mp hs with hs | hs
    · exact .inl hs
    · obtain rfl := List.mem_singleton.mp hs
      exact .inr ⟨cfg, rfl, rfl, rfl⟩
  | closeDone => exact ⟨fun s hs => absurd hs List.not_mem_nil, fun _ => id⟩
  | subscribeLocked => exact ⟨fun _ => .inl, fun _ => id⟩
  | _ => exact ⟨fun _ => .inl, nofun⟩

/-- A bus that is closed stays so, and a `close` that has begun goes on until it is. -/
theorem Bus.Outcome.closed (h : b.Outcome i pc b' pc') (hclosing : pc.closes = true →
    b.closed = true) : (b.closed = true → b'.closed = true) ∧
      (pc.closePending = true → pc'.closePending = true ∨ b'.closed = true) := by
  cases h with
  | delivered hdeliver =>
    rw [(Bus.deliver_keeps hdeliver).1]
    exact ⟨id, nofun⟩
  | closeLocked => exact ⟨id, fun _ => .inl rfl⟩
  | closeAgain hclosed => exact ⟨id, fun _ => .inr hclosed⟩
  | closeBegun => exact ⟨fun _ => rfl, fun _ => .inl rfl⟩
  | closeDone => exact ⟨id, fun _ => .inr (hclosing rfl)⟩
  | closeNext => exact ⟨id, fun _ => .inl rfl⟩
  | _ => exact ⟨id, nofun⟩

/-- A channel grows by what an operation offers at most. -/
theorem length_le_of_perform {c c' : Chan Frame} {op : Op Frame} {reply : Reply Frame}
    (h : c.perform op = some (c', reply)) :
    c'.buf.length ≤ c.buf.length + op.value.isSome.toNat := by
  cases effect_of_perform h with
  | accept hv => simp [hv]
  | evict =>
    simp only [List.length_append, List.length_tail, List.length_singleton, Op.value,
      Option.isSome_some, Bool.toNat_true]
    omega
  | take _ _ _ _ hbuf =>
    rw [hbuf]
    exact Nat.le_trans (Nat.le_succ _) (Nat.le_add_right _ _)
  | refuse => exact Nat.le_add_right _ _
  | close => exact Nat.le_refl _

theorem Pc.offers_of_op {j : Nat} {op : Op Frame} (h : pc.op = some (j, op)) :
    op.value.isSome.toNat ≤ pc.offers := by
  cases pc with
  | fanOut f rest =>
    cases rest with
    | nil => cases h
    | cons s rest => exact Bool.toNat_le _
  | closing rest =>
    cases rest with
    | nil => cases h
    | cons s rest =>
      obtain ⟨-, rfl⟩ := Prod.mk.inj (Option.some.inj h)
      exact Nat.le_refl _
  | recv ch =>
    obtain ⟨-, rfl⟩ := Prod.mk.inj (Option.some.inj h)
    exact Nat.le_refl _
  | _ => cases h

/-- Every channel of the bus can buffer something. -/
def Bus.Roomy (b : Bus) : Prop := ∀ c ∈ b.channels, 0 < c.capacity

theorem Bus.Roomy.chan (h : b.Roomy) (ch : Nat) : 0 < (b.chan ch).capacity := by
  rw [Bus.chan, List.getD_eq_getElem?_getD]
  cases hc : b.channels[ch]? with
  | none => exact Nat.succ_pos _
  | some c => exact h c (List.mem_of_getElem? hc)

theorem Bus.Roomy.set (h : b.Roomy) {ch : Nat} {op : Op Frame} {c : Chan Frame}
    {reply : Reply Frame} (hc : (b.chan ch).perform op = some (c, reply))
    (hset : b'.channels = b.channels.set ch c) : b'.Roomy := by
  intro d hd
  rw [hset] at hd
  rcases List.mem_or_eq_of_mem_set hd with hd | rfl
  · exact h d hd
  · rw [(effect_of_perform hc).capacity_eq]
    exact h.chan ch

theorem Bus.Roomy.addSubscription (h : b.Roomy) (filters : List Filter) (cfg : SubscriberConfig) :
    (b.addSubscription filters cfg).1.Roomy := by
  intro c hc
  rcases List.mem_append.mp hc with hc | hc
  · exact h c hc
  · obtain rfl := List.mem_singleton.mp hc
    have hdepth : 0 < cfg.effectiveDepth kDefaultChanDepth := by
      unfold SubscriberConfig.effectiveDepth kDefaultChanDepth
      split_ifs with hdepth
      · exact hdepth
      · decide
    exact Int.pos_iff_toNat_pos.mp hdepth

theorem Bus.Outcome.roomy (h : b.Outcome i pc b' pc') (hroomy : b.Roomy) : b'.Roomy := by
  cases h with
  | @delivered f s rest b' hdeliver =>
    have hperform := Bus.deliver_perform hdeliver
    split_ifs at hperform
    · obtain ⟨c, reply, hc, hset⟩ := hperform
      exact hroomy.set hc hset
    · rwa [hperform]
  | @subscribed filters cfg hopen => exact hroomy.addSubscription filters cfg
  | @closeNext s rest =>
    have hc : (b.chan s.ch).perform .close = some ((b.chan s.ch).close, .closed) := rfl
    exact hroomy.set hc rfl
  | @received ch c v hrecv =>
    have hc : (b.chan ch).perform .recv = some (c, .received v) := by
      rw [Chan.perform, hrecv]
      rfl
    exact hroomy.set hc rfl
  | _ => exact hroomy

end Step

namespace World

/-- What holds wherever a run has led. -/
structure Orderly (w : World) : Prop where
  held : w.LockHeld
  wired : w.Wired
  tended : w.Tended
  roomy : w.bus.Roomy
  bounded : ∃ n, ∀ i ≥ n, w.threads i = .idle

/-- Somebody receives from these channels: from all whose subscribers make a sender wait, and
from those that a thread is about to add for such a subscriber. -/
structure Attended (attended : Set Nat) (w : World) : Prop where
  subs : ∀ s ∈ w.bus.subs, s.backPressure = .block → s.ch ∈ attended
  rest : ∀ i, ∀ s ∈ (w.threads i).rest, s.backPressure = .block → s.ch ∈ attended
  coming : ∀ i cfg, (w.threads i).subscribing = some cfg → cfg.backPressure = .block →
    ∀ ch ≥ w.bus.channels.length, ch ∈ attended

/-- The calls under way go on, and the channels that are attended are received from while they
buffer anything. No call begins. -/
inductive Goes (attended : Set Nat) (w : World) : World → Prop where
  | advance {i : Nat} {w' : World} (h : w.advance i = some w') : Goes attended w w'
  | receive {ch : Nat} {w' : World} (hch : ch ∈ attended) (hbuf : (w.bus.chan ch).buf ≠ [])
      (h : w.act (.perform ch .recv) = some w') : Goes attended w w'

/-- All calls of the bus have returned and nobody has the lock. What is left is a receive that
waits at an open channel with nothing in it. -/
structure Settled (attended : Set Nat) (w : World) : Prop where
  returned : ∀ i, (w.threads i).busCall = false
  unlocked : w.bus.mu = {}
  received : ∀ ch ∈ attended, (w.bus.chan ch).buf = []
  waiting : ∀ i ch, w.threads i = .recv ch →
    (w.bus.chan ch).buf = [] ∧ (w.bus.chan ch).closed = false

variable {w w' : World} {attended : Set Nat} {i n : Nat}

theorem step_of_advance (ha : w.advance i = some w') :
    ∃ pc, w.bus.step i (w.threads i) = some (w'.bus, pc) ∧
      w'.threads = Function.update w.threads i pc := by
  obtain ⟨⟨b, pc⟩, hstep, rfl⟩ := Option.map_eq_some_iff.mp ha
  exact ⟨pc, hstep, rfl⟩

/-- Threads that have made no call yet stay that way when others go on. -/
theorem idle_of_advance (ha : w.advance i = some w') (hidle : ∀ j ≥ n, w.threads j = .idle) :
    i < n ∧ ∀ j ≥ n, w'.threads j = .idle := by
  obtain ⟨pc, hstep, hthreads⟩ := step_of_advance ha
  have hi : i < n := by
    by_contra hge
    rw [hidle i (Nat.le_of_not_lt hge)] at hstep
    cases hstep
  refine ⟨hi, fun j hj => ?_⟩
  rw [hthreads, Function.update_of_ne (Nat.ne_of_gt (Nat.lt_of_lt_of_le hi hj))]
  exact hidle j hj

theorem Orderly.advance (h : w.Orderly) (ha : w.advance i = some w') : w'.Orderly := by
  obtain ⟨pc, hstep, -⟩ := step_of_advance ha
  obtain ⟨n, hidle⟩ := h.bounded
  exact ⟨h.held.step ⟨.advance i, ha⟩, h.wired.step (e := .advance i) ha,
    h.tended.step h.held (e := .advance i) ha, (Bus.outcome_of_step hstep).roomy h.roomy,
    n, (idle_of_advance ha hidle).2⟩

theorem Orderly.begin {c : Call} (h : w.Orderly) (ha : w.step (.begin i c) = some w') :
    w'.Orderly := by
  refine ⟨h.held.step ⟨_, ha⟩, h.wired.step ha, h.tended.step h.held ha, ?_, ?_⟩
  · simp only [World.step] at ha
    split_ifs at ha
    obtain rfl := Option.some.inj ha
    unfold Bus.Roomy
    rw [(begin_wired w.bus c).2.1]
    exact h.roomy
  · simp only [World.step] at ha
    split_ifs at ha
    obtain rfl := Option.some.inj ha
    obtain ⟨n, hn⟩ := h.bounded
    refine ⟨max n (i + 1), fun j hj => ?_⟩
    have hne : j ≠ i := Nat.ne_of_gt (le_of_max_le_right hj)
    exact (Function.update_of_ne hne _ _).trans (hn j (le_of_max_le_left hj))

theorem Orderly.perform {ch : Nat} {op : Op Frame} (h : w.Orderly)
    (ha : w.act (.perform ch op) = some w') : w'.Orderly := by
  have htended := h.tended.perform ha
  obtain ⟨⟨c, reply⟩, hc, rfl⟩ := Option.map_eq_some_iff.mp ha
  have hlen : (w.bus.setChan ch c).channels.length = w.bus.channels.length := List.length_set
  refine ⟨⟨h.held.shared, h.held.unique⟩, ⟨fun s hs => ?_, fun i s hs => ?_⟩, htended,
    h.roomy.set hc rfl, h.bounded⟩
  · exact hlen ▸ h.wired.subs s hs
  · exact hlen ▸ h.wired.rest i s hs

theorem Orderly.act {a : Act} (h : w.Orderly) (ha : w.act a = some w') : w'.Orderly := by
  match a with
  | .event (.begin i c) => exact h.begin ha
  | .event (.advance i) => exact h.advance ha
  | .perform ch op => exact h.perform ha

theorem orderly_start : Orderly {} :=
  ⟨lockHeld_of_run .refl, ⟨nofun, nofun⟩, @tended_of_run {} [] rfl, nofun, ⟨0, fun _ _ => rfl⟩⟩

theorem Orderly.goes (h : w.Orderly) (hgo : Goes attended w w') : w'.Orderly := by
  cases hgo with
  | advance ha => exact h.advance ha
  | receive hch hbuf ha => exact h.perform ha

theorem Attended.advance (h : w.Attended attended) (ha : w.advance i = some w') :
    w'.Attended attended := by
  obtain ⟨pc, hstep, hthreads⟩ := step_of_advance ha
  obtain ⟨hsubs, hadd⟩ := (Bus.outcome_of_step hstep).subs_origin
  have hrest := (Bus.subs_of_step hstep).2
  have hgrow := (Bus.channelStep_of_step hstep).length_le
  refine ⟨fun s hs hblock => ?_, fun j s hs hblock => ?_, fun j cfg hj hblock ch hch => ?_⟩
  · rcases hsubs s hs with hs | ⟨cfg, hcfg, hpolicy, heq⟩
    · exact h.subs s hs hblock
    · exact h.coming i cfg hcfg (hpolicy ▸ hblock) s.ch heq.ge
  · by_cases hji : j = i
    · rw [hji, hthreads, Function.update_self] at hs
      rcases hrest s hs with hs | hs
      · exact h.rest i s hs hblock
      · exact h.subs s hs hblock
    · rw [hthreads, Function.update_of_ne hji] at hs
      exact h.rest j s hs hblock
  · by_cases hji : j = i
    · rw [hji, hthreads, Function.update_self] at hj
      exact h.coming i cfg (hadd cfg hj) hblock ch (Nat.le_trans hgrow hch)
    · rw [hthreads, Function.update_of_ne hji] at hj
      exact h.coming j cfg hj hblock ch (Nat.le_trans hgrow hch)

theorem Attended.goes (h : w.Attended attended) (hgo : Goes attended w w') :
    w'.Attended attended := by
  cases hgo with
  | advance ha => exact h.advance ha
  | receive hin hbuf ha =>
    obtain ⟨⟨c, reply⟩, hc, rfl⟩ := Option.map_eq_some_iff.mp ha
    refine ⟨h.subs, h.rest, fun j cfg hj hblock ch hch => h.coming j cfg hj hblock ch ?_⟩
    exact Nat.le_trans List.length_set.ge hch

/-- The bus is closed, or a thread is on its way to close it. -/
def Closing (w : World) : Prop := w.ClosePending ∨ w.bus.closed = true

theorem Closing.goes (h : w.Closing) (hw : w.Orderly) (hgo : Goes attended w w') : w'.Closing := by
  cases hgo with
  | @advance i w' ha =>
    obtain ⟨pc, hstep, hthreads⟩ := step_of_advance ha
    have htended : (w.threads i).closes = true → w.bus.closed = true := by
      intro hcloses
      cases hpc : w.threads i with
      | closing rest => exact hw.tended.closing i rest hpc
      | _ => rw [hpc] at hcloses; cases hcloses
    obtain ⟨hclosed, hpending⟩ := (Bus.outcome_of_step hstep).closed htended
    rcases h with ⟨j, hj⟩ | hbus
    · by_cases hji : j = i
      · rcases hpending (hji ▸ hj) with hpc | hb
        · exact .inl ⟨i, by rwa [hthreads, Function.update_self]⟩
        · exact .inr hb
      · exact .inl ⟨j, by rwa [hthreads, Function.update_of_ne hji]⟩
    · exact .inr (hclosed hbus)
  | receive _ _ ha =>
    obtain ⟨⟨c, reply⟩, -, rfl⟩ := Option.map_eq_some_iff.mp ha
    exact h

theorem exists_receive {ch : Nat} (hch : ch ∈ attended) (hbuf : (w.bus.chan ch).buf ≠ []) :
    ∃ w', Goes attended w w' := by
  obtain ⟨value, buf, heq⟩ := List.exists_cons_of_ne_nil hbuf
  have hact : w.act (.perform ch .recv) =
      some { w with bus := w.bus.setChan ch { w.bus.chan ch with buf := buf } } := by
    rw [act, Chan.perform, Chan.recv, heq]
    rfl
  exact ⟨_, .receive hch hbuf hact⟩

/-- A sender that waits can be let go on. -/
theorem Orderly.goes_of_waits (h : w.Orderly) (hattended : w.Attended attended)
    (hwaits : w.SenderWaits) : ∃ w', Goes attended w w' := by
  obtain ⟨i, f, s, rest, hpc, -, hpolicy, -, hfull⟩ := hwaits
  have hch : s.ch ∈ attended :=
    hattended.rest i s (by rw [hpc]; exact List.mem_cons_self) hpolicy
  have hroom := h.roomy.chan s.ch
  refine exists_receive hch fun hbuf => ?_
  rw [hbuf] at hfull
  exact absurd hfull (Nat.not_le.mpr hroom)

/-- With nobody in the lock, a call of the bus that is under way goes on. -/
theorem advance_of_busCall (hmu : w.bus.mu = {}) (hcall : (w.threads i).busCall = true)
    (hshared : (w.threads i).holdsShared = false) (hunique : (w.threads i).holdsUnique = false) :
    (w.advance i).isSome = true := by
  rw [advance, Option.isSome_map]
  cases hpc : w.threads i with
  | sendLock f =>
    rw [Bus.step, Option.isSome_map, hmu]
    rfl
  | subscribeLock filters cfg =>
    rw [Bus.step, Option.isSome_map, hmu]
    rfl
  | closeLock =>
    rw [Bus.step, Option.isSome_map, hmu]
    rfl
  | sendCheck | fanOut => rw [hpc] at hshared; cases hshared
  | subscribeHeld | closeHeld | closing => rw [hpc] at hunique; cases hunique
  | idle | recv | returned => rw [hpc] at hcall; cases hcall

/-- Somebody goes on until all is settled. -/
theorem Orderly.goes_or_settled (h : w.Orderly) (hattended : w.Attended attended) :
    (∃ w', Goes attended w w') ∨ Settled attended w := by
  have hgo : ∀ {i}, (w.advance i).isSome = true → ∃ w', Goes attended w w' := fun hi =>
    (Option.isSome_iff_exists.mp hi).imp fun _ => .advance
  have henabled : w.CallEnabled → ∃ w', Goes attended w w' := fun ⟨_, _, hi⟩ => hgo hi
  by_cases hwaits : w.SenderWaits
  · exact .inl (h.goes_of_waits hattended hwaits)
  by_cases hshared : ∃ i, (w.threads i).holdsShared = true
  · exact .inl (henabled (enabled_of_holdsShared hshared.choose_spec hwaits))
  by_cases hunique : ∃ i, (w.threads i).holdsUnique = true
  · exact .inl (henabled (enabled_of_holdsUnique hunique.choose_spec))
  have hmu : w.bus.mu = {} := by
    have hreaders : w.bus.mu.readers = [] :=
      List.eq_nil_iff_forall_not_mem.mpr fun i hi => hshared ⟨i, (h.held.shared i).mp hi⟩
    have hwriter : w.bus.mu.writer = none :=
      Option.eq_none_iff_forall_ne_some.mpr fun i hi => hunique ⟨i, (h.held.unique i).mp hi⟩
    calc w.bus.mu = ⟨w.bus.mu.readers, w.bus.mu.writer⟩ := rfl
      _ = {} := by rw [hreaders, hwriter]
  by_cases hcall : ∃ i, (w.threads i).busCall = true
  · obtain ⟨i, hi⟩ := hcall
    refine .inl (hgo (advance_of_busCall hmu hi ?_ ?_))
    · exact Bool.eq_false_iff.mpr fun hs => hshared ⟨i, hs⟩
    · exact Bool.eq_false_iff.mpr fun hu => hunique ⟨i, hu⟩
  by_cases hfull : ∃ ch ∈ attended, (w.bus.chan ch).buf ≠ []
  · obtain ⟨ch, hch, hbuf⟩ := hfull
    exact .inl (exists_receive hch hbuf)
  by_cases hrecv : ∃ i ch, w.threads i = .recv ch ∧ ((w.bus.chan ch).recv).isSome = true
  · obtain ⟨i, ch, hpc, hsome⟩ := hrecv
    refine .inl (hgo (i := i) ?_)
    rw [World.advance, hpc, Option.isSome_map, Bus.step, Option.isSome_map]
    exact hsome
  refine .inr ⟨fun i => ?_, hmu, fun ch hch => ?_, fun i ch hpc => ?_⟩
  · exact Bool.eq_false_iff.mpr fun hi => hcall ⟨i, hi⟩
  · by_contra hbuf
    exact hfull ⟨ch, hch, hbuf⟩
  · have hnone : (w.bus.chan ch).recv = none :=
      Option.not_isSome_iff_eq_none.mp fun hsome => hrecv ⟨i, ch, hpc, hsome⟩
    rw [Chan.recv] at hnone
    split at hnone
    · rename_i hbuf
      split_ifs at hnone with hclosed
      exact ⟨hbuf, Bool.eq_false_iff.mpr hclosed⟩
    · cases hnone

/-- The subscriptions a call may come across. -/
def toCome (n : Nat) (w : World) : Nat :=
  w.bus.subs.length + ∑ i ∈ Finset.range n, (w.threads i).adds

/-- What is left to do: the steps of the threads and the frames to be received. -/
def rank (n : Nat) (w : World) : Nat :=
  ∑ i ∈ Finset.range n, (w.threads i).stepsLeft (w.toCome n) + w.bus.buffered

/-- A step of a call puts as many frames into channels as it counts for. -/
theorem Wired.buffered_le {b : Bus} {pc : Pc} (h : w.Wired)
    (hstep : w.bus.step i (w.threads i) = some (b, pc)) :
    b.buffered ≤ w.bus.buffered + (w.threads i).offers := by
  cases Bus.channelStep_of_step hstep with
  | keep _ hch =>
    rw [Bus.buffered, hch]
    exact Nat.le_add_right _ _
  | @perform j op c reply hop hc hch =>
    have hset : b.buffered = (w.bus.setChan j c).buffered := by
      rw [Bus.buffered, hch]
      rfl
    have hbuffered := Bus.buffered_setChan c (h.op_lt hop hc)
    have hgrows := length_le_of_perform hc
    have hoffers := Pc.offers_of_op hop
    omega
  | add _ hch =>
    rw [Bus.buffered, hch]
    simp [Bus.buffered]

/-- Every step of a thread leaves less to do. -/
theorem Wired.rank_advance (h : w.Wired) (hi : i < n) (ha : w.advance i = some w') :
    w'.rank n < w.rank n := by
  obtain ⟨pc, hstep, hthreads⟩ := step_of_advance ha
  have houtcome := Bus.outcome_of_step hstep
  have hadds := sum_update_add_le (f := Pc.adds) w.threads pc hi fun _ => Nat.le_refl _
  have hsubs := houtcome.subs_length
  have hcome : w'.toCome n ≤ w.toCome n := by
    unfold toCome
    rw [hthreads]
    omega
  have hsum := sum_update_add_le (f := Pc.stepsLeft (w.toCome n))
    (g := Pc.stepsLeft (w'.toCome n)) w.threads pc hi fun pc => pc.stepsLeft_mono hcome
  have hless := houtcome.stepsLeft_lt (n := w.toCome n) (Nat.le_add_right _ _)
  have hpc := pc.stepsLeft_mono hcome
  have hbuffered := h.buffered_le hstep
  unfold rank
  rw [hthreads]
  omega

/-- So does every receive. -/
theorem rank_receive {ch : Nat} (hbuf : (w.bus.chan ch).buf ≠ [])
    (ha : w.act (.perform ch .recv) = some w') : w'.rank n < w.rank n := by
  obtain ⟨value, buf, heq⟩ := List.exists_cons_of_ne_nil hbuf
  have hch : ch < w.bus.channels.length := by
    by_contra hge
    rw [Bus.chan, List.getD_eq_getElem?_getD, List.getElem?_eq_none (Nat.le_of_not_lt hge)] at heq
    cases heq
  rw [act, Chan.perform, Chan.recv, heq] at ha
  obtain rfl := Option.some.inj ha
  have hbuffered := Bus.buffered_setChan { w.bus.chan ch with buf := buf } hch
  rw [heq, List.length_cons] at hbuffered
  change _ + (w.bus.setChan ch { w.bus.chan ch with buf := buf }).buffered < _ + _
  have hsame : ({ w with bus := w.bus.setChan ch { w.bus.chan ch with buf := buf } } :
    World).toCome n = w.toCome n := rfl
  rw [hsame]
  dsimp only at hbuffered ⊢
  omega

/-- When all is settled and the bus was to be closed, it is shut. -/
theorem Orderly.shut (h : w.Orderly) (hsettled : Settled attended w) (hclosing : w.Closing) :
    w.bus.Shut := by
  have hclosed : w.bus.closed = true := by
    rcases hclosing with ⟨i, hi⟩ | hclosed
    · have hreturned := hsettled.returned i
      cases hpc : w.threads i with
      | closeLock | closeHeld | closing => rw [hpc] at hreturned; cases hreturned
      | _ => rw [hpc] at hi; cases hi
    · exact hclosed
  refine ⟨hclosed, fun ch hch => ?_⟩
  by_contra hopen
  rcases h.tended.care ch hch (Bool.eq_false_iff.mpr hopen) with ⟨hbus, -⟩ | ⟨-, i, rest, hpc, -⟩
  · cases hclosed.symm.trans hbus
  · have hreturned := hsettled.returned i
    rw [hpc] at hreturned
    cases hreturned

/-- In every run, once no more calls begin and somebody goes on to receive from the channels whose
subscribers make a sender wait, every schedule of the threads ends with all calls of the bus
returned, and with the bus and all its channels closed if a `close` had begun. -/
theorem calls_return (attended : Set Nat) (acts : List Act) (hrun : Runs.run act {} acts = some w)
    (hattended : w.Attended attended) :
    Inevitably (Goes attended) (fun u => Settled attended u ∧ (w.Closing → u.bus.Shut)) w := by
  have horderly : w.Orderly :=
    Runs.invariant Orderly (fun _ _ _ hu ha => hu.act ha) orderly_start hrun
  obtain ⟨n, hidle⟩ := horderly.bounded
  refine Inevitably.of_rank (fun k u => u.rank n = k ∧ u.Orderly ∧ u.Attended attended ∧
    (∀ i ≥ n, u.threads i = .idle) ∧ (w.Closing → u.Closing)) ?_
    ⟨rfl, horderly, hattended, hidle, id⟩
  rintro k u ⟨rfl, hu, hattended, hidle, hclosing⟩
  rcases hu.goes_or_settled hattended with hgo | hsettled
  · refine .inr ⟨hgo, fun v hv => ?_⟩
    have hkept := fun hw : w.Closing => (hclosing hw).goes hu hv
    cases hv with
    | advance ha =>
      obtain ⟨hi, hidle'⟩ := idle_of_advance ha hidle
      exact ⟨_, hu.wired.rank_advance hi ha, rfl, hu.advance ha,
        hattended.goes (.advance ha), hidle', hkept⟩
    | receive hch hbuf ha =>
      refine ⟨_, rank_receive hbuf ha, rfl, hu.perform ha,
        hattended.goes (.receive hch hbuf ha), ?_, hkept⟩
      obtain ⟨⟨c, reply⟩, -, rfl⟩ := Option.map_eq_some_iff.mp ha
      exact hidle
  · exact .inl ⟨hsettled, fun hw => hu.shut hsettled (hclosing hw)⟩

theorem run_event (w : World) (es : List Event) :
    Runs.run act w (es.map .event) = w.run es := by
  induction es generalizing w with
  | nil => rfl
  | cons e es ih => exact congrArg _ (funext ih)

/-- A sender waits at a full channel, and a `close` and a second subscriber wait for the sender. -/
def standstill : List Event :=
  fillChannel ++ [.begin 1 (.send { id := 0x10, data := [2] }), .advance 1, .advance 1,
    .begin 2 .close, .begin 3 (.subscribe [] [])]

theorem calls_return_standstill : ∃ w, Runs.run act {} (standstill.map .event) = some w ∧
    (∀ i ∈ [1, 2, 3], (w.threads i).busCall = true ∧ w.advance i = none) ∧
    Inevitably (Goes {0}) (fun u => Settled {0} u ∧ u.bus.Shut) w := by
  obtain ⟨w, hw⟩ : ∃ w, World.run {} standstill = some w := ⟨_, rfl⟩
  have hrun : Runs.run act {} (standstill.map .event) = some w := (run_event {} standstill).trans hw
  have hbus : w.bus.subs = [⟨[], 0, .block⟩] ∧ w.bus.channels.length = 1 := by
    obtain rfl := Option.some.inj hw
    exact ⟨rfl, rfl⟩
  have h0 : w.threads 0 = .returned (.subscribed (.ok 0)) := by
    obtain rfl := Option.some.inj hw
    rfl
  have h1 : w.threads 1 = .fanOut { id := 0x10, data := [2] } [⟨[], 0, .block⟩] := by
    obtain rfl := Option.some.inj hw
    rfl
  have h2 : w.threads 2 = .closeLock := by
    obtain rfl := Option.some.inj hw
    rfl
  have h3 : w.threads 3 = .subscribeLock [] {} := by
    obtain rfl := Option.some.inj hw
    rfl
  have hwait : w.advance 1 = none ∧ w.advance 2 = none ∧ w.advance 3 = none := by
    obtain rfl := Option.some.inj hw
    exact ⟨rfl, rfl, rfl⟩
  have hothers : ∀ i, i ≠ 0 → i ≠ 1 → i ≠ 2 → i ≠ 3 → w.threads i = .idle := by
    intro i hi0 hi1 hi2 hi3
    rw [threads_of_run hw (by simp [standstill, fillChannel, Event.thread]; omega)]
  have hattended : w.Attended {0} := by
    refine ⟨?_, fun i => ?_, fun i => ?_⟩
    · simp [hbus.1]
    · by_cases hi : i = 0 ∨ i = 1 ∨ i = 2 ∨ i = 3
      · rcases hi with rfl | rfl | rfl | rfl <;> simp [h0, h1, h2, h3, Pc.rest]
      · rw [hothers i (by omega) (by omega) (by omega) (by omega)]
        simp [Pc.rest]
    · by_cases hi : i = 0 ∨ i = 1 ∨ i = 2 ∨ i = 3
      · rcases hi with rfl | rfl | rfl | rfl <;> simp [h0, h1, h2, h3, Pc.subscribing]
      · rw [hothers i (by omega) (by omega) (by omega) (by omega)]
        simp [Pc.subscribing]
  refine ⟨w, hrun, ?_, ?_⟩
  · simp [h1, h2, h3, hwait, Pc.busCall]
  · exact (calls_return {0} (standstill.map .event) hrun hattended).mono fun u hu =>
      ⟨hu.1, hu.2 (.inl ⟨2, by rw [h2]; rfl⟩)⟩

end World

end CppCan.Virt
