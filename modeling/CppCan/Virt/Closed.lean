import CppCan.Core.Runs
import CppCan.Virt.Calls
import CppCan.Virt.Teardown

/-!
# A closed bus stays closed

Once a `close` has returned every channel is closed and none is added. What is done to the
channels from then on can only take frames out, in the order in which they were buffered.
Calls that begin later find the bus closed, except that `send` looks at the frame first.
-/

namespace CppCan.Virt

open CppCan.Core CppCan.Relay Chan

/-- A frame lent by the bus; it is released behind the call that sends it. -/
structure LoanedFrame where
  frame : Frame := {}

/-- What `loan` returns; it looks at the bus under the shared lock and changes nothing. -/
def Bus.loan (b : Bus) : Except ErrorCode LoanedFrame :=
  if b.closed then .error (.relay .closed) else .ok {}

/-- A frame that was lent is sent like any other one. -/
def Call.sendLoaned (f : LoanedFrame) : Call := .send f.frame

/-- What can happen: an event of the calls of the bus, or an operation of a consumer on a
channel that it was handed. -/
inductive Act where
  | event (e : Event)
  | perform (ch : Nat) (op : Op Frame)

namespace World

/-- The world after an act, if it can happen. -/
def act (w : World) : Act → Option World
  | .event e => w.step e
  | .perform ch op => ((w.bus.chan ch).perform op).map fun (c, _) =>
    { w with bus := w.bus.setChan ch c }

/-- The operation of an act, and its channel. -/
def actOp (w : World) : Act → Option (Nat × Op Frame)
  | .event (.begin _ _) => none
  | .event (.advance i) => (w.threads i).op
  | .perform ch op => some (ch, op)

/-- The frame that an act takes out of a channel. -/
def handed (w : World) (ch : Nat) (a : Act) : List Frame :=
  match w.actOp a with
  | some (j, op) =>
    if j = ch then (((w.bus.chan ch).perform op).bind fun (_, reply) => reply.value).toList else []
  | none => []

/-- The frames that a run takes out of a channel, in order. -/
def allHanded (ch : Nat) : World → List Act → List Frame
  | _, [] => []
  | w, a :: acts => w.handed ch a ++ ((w.act a).map fun w => w.allHanded ch acts).getD []

end World

/-- The result of a call on a closed bus. -/
def Call.refusal : Call → Result → Prop
  | .send _, r => r = .sent (some (.relay .closed))
  | .subscribe _ _, r => r = .subscribed (.error (.relay .closed))
  | .close, r => r = .closed
  | .recv _, _ => True

/-- Where a call may be that began on a closed bus. -/
def Call.Late : Call → Pc → Prop
  | .send f, pc =>
    pc = .sendLock f ∨ pc = .sendCheck f ∨ pc = .returned (.sent (some (.relay .closed)))
  | .subscribe _ _, pc =>
    (∃ filters cfg, pc = .subscribeLock filters cfg ∨ pc = .subscribeHeld filters cfg) ∨
      pc = .returned (.subscribed (.error (.relay .closed)))
  | .close, pc => pc = .closeLock ∨ pc = .closeHeld ∨ pc = .returned .closed
  | .recv _, _ => True

/-- What holds where a run has led that started behind a `close`. -/
structure Absorbed (w : World) (acts : List Act) (w' : World) : Prop where
  loan : w'.bus.loan = .error (.relay .closed)
  /-- Calls that began in the run and have returned were refused. -/
  calls : ∀ pre j c post r, acts = pre ++ .event (.begin j c) :: post →
    (∀ c', .event (.begin j c') ∉ post) → w'.threads j = .returned r → c.refusal r
  /-- A further `close` changes nothing but the lock while it runs. -/
  close : w'.bus.close = w'.bus ∧ ∀ j pc b pc', pc = .closeLock ∨ pc = .closeHeld →
    w'.bus.step j pc = some (b, pc') → { b with mu := w'.bus.mu } = w'.bus
  /-- No channel is added, all are closed, and what they have handed out since was in
  front of what they still hold. -/
  channels : w'.bus.channels.length = w.bus.channels.length ∧
    ∀ ch < w.bus.channels.length, (w'.bus.chan ch).closed = true ∧
      w.allHanded ch acts ++ (w'.bus.chan ch).buf = (w.bus.chan ch).buf
  /-- A consumer gets the next frame, and the end of the stream behind the last one. -/
  drains : ∀ ch < w.bus.channels.length, (w'.bus.chan ch).recv =
    some ({ w'.bus.chan ch with buf := (w'.bus.chan ch).buf.tail }, (w'.bus.chan ch).buf.head?)

/-- Wherever the run leads, the bus absorbs what is done to it. -/
def Absorbs (w : World) (acts : List Act) : Prop :=
  ∀ acts' w', acts' <+: acts → Runs.run World.act w acts' = some w' → Absorbed w acts' w'

/-- An operation on a closed channel takes out what it hands over, and nothing else. -/
theorem buf_of_closed {c c' : Chan Frame} {op : Op Frame} {reply : Reply Frame}
    (hc : c.closed = true) (h : c.perform op = some (c', reply)) :
    c'.closed = true ∧ reply.value.toList ++ c'.buf = c.buf := by
  have heffect := effect_of_perform h
  refine ⟨heffect.closed_of_closed hc, ?_⟩
  cases heffect with
  | accept hv ha hr hopen => exact absurd (hc.symm.trans hopen) (by simp)
  | evict hopen => exact absurd (hc.symm.trans hopen) (by simp)
  | take hop hclose ha hr hbuf => rw [hr, hbuf]; rfl
  | refuse hclose ha hr => rw [hr]; rfl
  | close => rfl

/-- A closed channel never keeps a consumer waiting. -/
theorem recv_of_closed {c : Chan Frame} (hc : c.closed = true) :
    c.recv = some ({ c with buf := c.buf.tail }, c.buf.head?) := by
  obtain ⟨capacity, buf, closed⟩ := c
  cases buf with
  | nil => exact if_pos hc
  | cons value rest => rfl

/-- On a closed bus `loan` is refused, and a `close` changes nothing but the lock. -/
theorem Bus.Shut.loan_close {b : Bus} (h : b.Shut) : b.loan = .error (.relay .closed) ∧
    b.close = b ∧ ∀ j pc b' pc', pc = .closeLock ∨ pc = .closeHeld →
      b.step j pc = some (b', pc') → { b' with mu := b.mu } = b := by
  refine ⟨if_pos h.closed, if_pos h.closed, ?_⟩
  rintro j pc b' pc' (rfl | rfl) hstep
  · obtain ⟨mu, -, heq⟩ := Option.map_eq_some_iff.mp hstep
    obtain ⟨rfl, -⟩ := Prod.mk.inj heq
    rfl
  · simp only [Bus.step, if_pos h.closed] at hstep
    obtain ⟨rfl, -⟩ := Prod.mk.inj (Option.some.inj hstep)
    rfl

namespace World

variable {w w' : World} {a : Act} {acts : List Act} {ch j : Nat} {c : Call}

/-- An operation of a consumer leaves the bus tended and the lock with its holders. -/
theorem Tended.perform (h : w.Tended) {op : Op Frame} (ha : w.act (.perform ch op) = some w') :
    w'.Tended := by
  obtain ⟨⟨c, reply⟩, hc, rfl⟩ := Option.map_eq_some_iff.mp ha
  exact h.of_other (fun _ _ => .rfl) (fun _ => id) rfl rfl List.length_set
    (Bus.open_of_perform hc rfl)

/-- In every reachable world the channels are tended. -/
theorem tended_of_run (h : Runs.run World.act {} acts = some w) : w.Tended := by
  have hinv : w.LockHeld ∧ w.Tended := by
    refine Runs.invariant (fun w : World => w.LockHeld ∧ w.Tended) ?_ ?_ h
    · rintro u a u' ⟨hlock, htended⟩ ha
      cases a with
      | event e => exact ⟨hlock.step ⟨e, ha⟩, htended.step hlock ha⟩
      | perform ch op =>
        refine ⟨?_, htended.perform ha⟩
        obtain ⟨⟨c, reply⟩, -, rfl⟩ := Option.map_eq_some_iff.mp ha
        exact ⟨hlock.shared, hlock.unique⟩
    · refine ⟨lockHeld_of_run .refl, fun ch hch => ?_, fun i rest hi => ?_, fun i hi => ?_⟩
      · cases hch
      · cases hi
      · cases hi
  exact hinv.2

/-- A bus that is shut stays shut, with the channels it has. -/
theorem shut_of_act (h : w.bus.Shut) (ha : w.act a = some w') :
    w'.bus.Shut ∧ w'.bus.channels.length = w.bus.channels.length := by
  cases a with
  | event e =>
    obtain ⟨i, pc, -, ht⟩ := teardown_of_event ha
    exact h.of_teardown ht
  | perform ch op =>
    obtain ⟨⟨c, reply⟩, hc, rfl⟩ := Option.map_eq_some_iff.mp ha
    exact @Bus.Shut.of_teardown w.bus _ .idle .idle h
      (.other rfl rfl rfl rfl List.length_set (Bus.open_of_perform hc rfl))

/-- What an operation hands over was in front of what stays in the channel. -/
theorem handed_of_perform (h : w.bus.Shut) (hch : ch < w.bus.channels.length) {op : Op Frame}
    (hop : w.actOp a = some (j, op)) {c : Chan Frame} {reply : Reply Frame}
    (hc : (w.bus.chan j).perform op = some (c, reply))
    (hset : w'.bus.channels = w.bus.channels.set j c) :
    w.handed ch a ++ (w'.bus.chan ch).buf = (w.bus.chan ch).buf := by
  by_cases hj : j = ch
  · subst hj
    rw [Bus.chan_of_set hset hch, if_pos rfl]
    simp only [handed, hop, if_true, hc]
    exact (buf_of_closed (h.channels j hch) hc).2
  · have hkept : w'.bus.chan ch = w.bus.chan ch := by
      rcases Bus.chan_eq_or_of_set hset ch with heq | ⟨heq, -⟩
      · exact heq
      · exact absurd heq.symm hj
    simp only [handed, hop, if_neg hj, hkept, List.nil_append]

/-- No act puts anything into a channel of a bus that is shut. -/
theorem handed_of_act (h : w.bus.Shut) (hch : ch < w.bus.channels.length)
    (ha : w.act a = some w') : w.handed ch a ++ (w'.bus.chan ch).buf = (w.bus.chan ch).buf := by
  have hlen := (shut_of_act h ha).2
  cases a with
  | event e =>
    cases e with
    | begin i c =>
      simp only [act, World.step] at ha
      split at ha
      · obtain rfl := Option.some.inj ha
        have hkept : (c.begin w.bus).1.chan ch = w.bus.chan ch := by
          rw [Bus.chan, Bus.chan, (begin_wired w.bus c).2.1]
        simp only [handed, actOp, hkept, List.nil_append]
      · cases ha
    | advance i =>
      obtain ⟨⟨b, pc⟩, hstep, rfl⟩ := Option.map_eq_some_iff.mp ha
      cases Bus.channelStep_of_step hstep with
      | keep hop hchans =>
        simp only [handed, actOp, hop, List.nil_append, Bus.chan, hchans]
      | perform hop hc hchans => exact handed_of_perform h hch hop hc hchans
      | add hop hchans => simp [hchans] at hlen
  | perform j op =>
    obtain ⟨⟨c, reply⟩, hc, rfl⟩ := Option.map_eq_some_iff.mp ha
    exact handed_of_perform h hch rfl hc rfl

/-- Along a run the bus stays shut, and its channels are only drained. -/
theorem drained_of_run (h : w.bus.Shut) (hrun : Runs.run World.act w acts = some w') :
    w'.bus.Shut ∧ w'.bus.channels.length = w.bus.channels.length ∧
      ∀ ch < w.bus.channels.length,
        w.allHanded ch acts ++ (w'.bus.chan ch).buf = (w.bus.chan ch).buf := by
  induction acts generalizing w with
  | nil =>
    obtain rfl := Option.some.inj hrun
    exact ⟨h, rfl, fun _ _ => rfl⟩
  | cons a acts ih =>
    obtain ⟨u, ha, hrest⟩ := Option.bind_eq_some_iff.mp hrun
    obtain ⟨hshut, hlen⟩ := shut_of_act h ha
    obtain ⟨hend, hlen', hbuf⟩ := ih hshut hrest
    refine ⟨hend, hlen'.trans hlen, fun ch hch => ?_⟩
    rw [allHanded, ha, Option.map_some, Option.getD_some, List.append_assoc,
      hbuf ch (hch.trans_eq hlen.symm), handed_of_act h hch ha]

/-- A call begins late, unless its frame is invalid. -/
theorem late_begin (b : Bus) (hvalid : ∀ f, c = .send f → f.Valid) : c.Late (c.begin b).2 := by
  cases c with
  | send f =>
    have hv : validateFrame f = .ok () := hvalid f rfl
    rw [Call.begin, hv]
    exact .inl rfl
  | subscribe filters opts => exact .inl ⟨filters, _, .inl rfl⟩
  | close => exact .inl rfl
  | recv ch => trivial

/-- A step of a late call finds the bus closed. -/
theorem late_of_step {b b' : Bus} {pc pc' : Pc} (hclosed : b.closed = true) (h : c.Late pc)
    (hstep : b.step j pc = some (b', pc')) : c.Late pc' := by
  cases c with
  | send f =>
    rcases h with rfl | rfl | rfl
    · obtain ⟨mu, -, heq⟩ := Option.map_eq_some_iff.mp hstep
      obtain ⟨-, rfl⟩ := Prod.mk.inj heq
      exact .inr (.inl rfl)
    · simp only [Bus.step, if_pos hclosed] at hstep
      obtain ⟨-, rfl⟩ := Prod.mk.inj (Option.some.inj hstep)
      exact .inr (.inr rfl)
    · cases hstep
  | subscribe filters opts =>
    rcases h with ⟨filters', cfg, rfl | rfl⟩ | rfl
    · obtain ⟨mu, -, heq⟩ := Option.map_eq_some_iff.mp hstep
      obtain ⟨-, rfl⟩ := Prod.mk.inj heq
      exact .inl ⟨filters', cfg, .inr rfl⟩
    · simp only [Bus.step, if_pos hclosed] at hstep
      obtain ⟨-, rfl⟩ := Prod.mk.inj (Option.some.inj hstep)
      exact .inr rfl
    · cases hstep
  | close =>
    rcases h with rfl | rfl | rfl
    · obtain ⟨mu, -, heq⟩ := Option.map_eq_some_iff.mp hstep
      obtain ⟨-, rfl⟩ := Prod.mk.inj heq
      exact .inr (.inl rfl)
    · simp only [Bus.step, if_pos hclosed] at hstep
      obtain ⟨-, rfl⟩ := Prod.mk.inj (Option.some.inj hstep)
      exact .inr (.inr rfl)
    · cases hstep
  | recv ch => trivial

/-- A late call that has returned was refused. -/
theorem refusal_of_late {r : Result} (h : c.Late (.returned r)) : c.refusal r := by
  cases c with
  | send f =>
    rcases h with h | h | h
    · cases h
    · cases h
    · exact Pc.returned.inj h
  | subscribe filters opts =>
    rcases h with ⟨filters', cfg, h | h⟩ | h
    · cases h
    · cases h
    · exact Pc.returned.inj h
  | close =>
    rcases h with h | h | h
    · cases h
    · cases h
    · exact Pc.returned.inj h
  | recv ch => trivial

/-- A call stays late until its thread begins another one. -/
theorem late_of_act (h : w.bus.Shut) (hlate : c.Late (w.threads j))
    (hother : ∀ c', a ≠ .event (.begin j c')) (ha : w.act a = some w') : c.Late (w'.threads j) := by
  cases a with
  | event e =>
    cases e with
    | begin i c' =>
      simp only [act, World.step] at ha
      split at ha
      · obtain rfl := Option.some.inj ha
        have hne : j ≠ i := by
          rintro rfl
          exact hother c' rfl
        simpa only [Function.update_of_ne hne] using hlate
      · cases ha
    | advance i =>
      obtain ⟨⟨b, pc⟩, hstep, rfl⟩ := Option.map_eq_some_iff.mp ha
      by_cases hne : j = i
      · subst hne
        simpa only [Function.update_self] using late_of_step h.closed hlate hstep
      · simpa only [Function.update_of_ne hne] using hlate
  | perform ch op =>
    obtain ⟨⟨c, reply⟩, -, rfl⟩ := Option.map_eq_some_iff.mp ha
    exact hlate

theorem late_of_run (h : w.bus.Shut) (hlate : c.Late (w.threads j))
    (hother : ∀ c', .event (.begin j c') ∉ acts) (hrun : Runs.run World.act w acts = some w') :
    c.Late (w'.threads j) := by
  induction acts generalizing w with
  | nil =>
    obtain rfl := Option.some.inj hrun
    exact hlate
  | cons a acts ih =>
    obtain ⟨u, ha, hrest⟩ := Option.bind_eq_some_iff.mp hrun
    refine ih (shut_of_act h ha).1 (late_of_act h hlate ?_ ha) ?_ hrest
    · rintro c' rfl
      exact hother c' List.mem_cons_self
    · exact fun c' hc' => hother c' (List.mem_cons_of_mem a hc')

/-- A call that begins on a bus that is shut is refused. -/
theorem refused_of_run {pre post : List Act} {r : Result} (h : w.bus.Shut)
    (hrun : Runs.run World.act w (pre ++ .event (.begin j c) :: post) = some w')
    (hvalid : ∀ f, c = .send f → f.Valid) (hother : ∀ c', .event (.begin j c') ∉ post)
    (hr : w'.threads j = .returned r) : c.refusal r := by
  rw [Runs.run_append] at hrun
  obtain ⟨u, hpre, hrest⟩ := Option.bind_eq_some_iff.mp hrun
  obtain ⟨v, hbegin, hpost⟩ := Option.bind_eq_some_iff.mp hrest
  have hu := (drained_of_run h hpre).1
  have hlate : c.Late (v.threads j) := by
    simp only [act, World.step] at hbegin
    split at hbegin
    · obtain rfl := Option.some.inj hbegin
      simpa only [Function.update_self] using late_begin u.bus hvalid
    · cases hbegin
  exact refusal_of_late (hr ▸ late_of_run (shut_of_act hu hbegin).1 hlate hother hpost)

/-- A bus that is shut absorbs whatever is done to it, as long as the frames are valid. -/
theorem absorbed_of_run (h : w.bus.Shut)
    (hvalid : ∀ j f, .event (.begin j (.send f)) ∈ acts → f.Valid)
    (hrun : Runs.run World.act w acts = some w') : Absorbed w acts w' := by
  obtain ⟨hshut, hlen, hbuf⟩ := drained_of_run h hrun
  obtain ⟨hloan, hclose⟩ := hshut.loan_close
  refine ⟨hloan, ?_, hclose, ⟨hlen, fun ch hch => ⟨?_, hbuf ch hch⟩⟩, fun ch hch => ?_⟩
  · rintro pre j c post r rfl hother hr
    refine refused_of_run h hrun ?_ hother hr
    rintro f rfl
    exact hvalid j f (by simp)
  · exact hshut.channels ch (hlen.symm ▸ hch)
  · exact recv_of_closed (hshut.channels ch (hlen.symm ▸ hch))

/-- A run with the beginning of an invalid `send` is not absorbed there. -/
theorem valid_of_absorbs (h : Absorbs w acts) (hrun : Runs.run World.act w acts = some w')
    {f : Frame} (hf : .event (.begin j (.send f)) ∈ acts) : f.Valid := by
  obtain ⟨pre, post, rfl⟩ := List.append_of_mem hf
  rw [Runs.run_append] at hrun
  obtain ⟨u, hpre, hrest⟩ := Option.bind_eq_some_iff.mp hrun
  obtain ⟨v, hbegin, -⟩ := Option.bind_eq_some_iff.mp hrest
  have hfront : Runs.run World.act w (pre ++ [.event (.begin j (.send f))]) = some v := by
    rw [Runs.run_append, hpre, Option.bind_some, Runs.run, hbegin]
    rfl
  have habsorbed := h (pre ++ [.event (.begin j (.send f))]) v
    ⟨post, by rw [List.append_assoc, List.singleton_append]⟩ hfront
  cases hv : validateFrame f with
  | ok u => exact hv
  | error e =>
    have hpc : v.threads j = .returned (.sent (some (.relay .payloadTooLarge))) := by
      simp only [act, World.step] at hbegin
      split at hbegin
      · obtain rfl := Option.some.inj hbegin
        simp only [Function.update_self, Call.begin, hv]
      · cases hbegin
    have hrefused := habsorbed.calls pre j (.send f) [] _ rfl (fun _ => List.not_mem_nil) hpc
    cases hrefused

/-- Once a `close` has returned the bus absorbs everything that is done to it, in every
run, if and only if every frame that is sent from then on is valid. -/
theorem absorbs_iff (before : List Act) (h : Runs.run World.act {} before = some w) (i : Nat)
    (hclose : w.threads i = .returned .closed) (hrun : Runs.run World.act w acts = some w') :
    Absorbs w acts ↔ ∀ j f, .event (.begin j (.send f)) ∈ acts → f.Valid := by
  constructor
  · exact fun habsorbs j f hf => valid_of_absorbs habsorbs hrun hf
  · rintro hvalid acts' u hfront hu
    have hshut := (tended_of_run h).returned i hclose
    exact absorbed_of_run hshut (fun j f hf => hvalid j f (hfront.subset hf)) hu

/-- A subscription, a frame in its channel and a `close`. -/
def closeBuffered : List Act :=
  [.event (.begin 0 (.subscribe [] [])), .event (.advance 0), .event (.advance 0),
    .event (.begin 1 (.send { id := 1 })), .event (.advance 1), .event (.advance 1),
    .event (.advance 1), .event (.advance 1), .event (.begin 2 .close), .event (.advance 2),
    .event (.advance 2), .event (.advance 2), .event (.advance 2)]

/-- A frame that was lent before is sent, and the buffered one is received. -/
def useClosed (f : Frame) : List Act :=
  [.event (.begin 1 (.sendLoaned ⟨f⟩)), .perform 0 .recv]

theorem absorbs_iff_received :
    ∃ w w', Runs.run World.act {} closeBuffered = some w ∧
      Runs.run World.act w (useClosed { id := 2 }) = some w' ∧
      w.allHanded 0 (useClosed { id := 2 }) = [{ id := 1 }] ∧
      (Absorbs w (useClosed { id := 2 }) ↔
        ∀ j f, .event (.begin j (.send f)) ∈ useClosed { id := 2 } → f.Valid) :=
  ⟨_, _, rfl, rfl, rfl, absorbs_iff closeBuffered rfl 2 rfl rfl⟩

/-- An invalid frame is not refused because the bus is closed. -/
theorem not_absorbs :
    ¬ ∀ (before acts : List Act) (w w' : World) (i : Nat),
      Runs.run World.act {} before = some w → w.threads i = .returned .closed →
      Runs.run World.act w acts = some w' → Absorbs w acts := by
  intro h
  obtain ⟨w, hw, hclose, w', hw', hpc⟩ : ∃ w, Runs.run World.act {} closeBuffered = some w ∧
      w.threads 2 = .returned .closed ∧
      ∃ w', Runs.run World.act w [.event (.begin 1 (.send { id := 0x800 }))] = some w' ∧
        w'.threads 1 = .returned (.sent (some (.relay .payloadTooLarge))) :=
    ⟨_, rfl, rfl, _, rfl, rfl⟩
  have habsorbed := h closeBuffered _ w w' 2 hw hclose hw' _ w' (List.prefix_refl _) hw'
  cases habsorbed.calls [] 1 _ [] _ rfl (fun _ => List.not_mem_nil) hpc

end World

end CppCan.Virt
