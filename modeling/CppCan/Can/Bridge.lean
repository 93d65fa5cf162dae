import CppCan.Can.Operations
import CppCan.Core.Runs
import CppCan.Core.Schedules
import Mathlib.Tactic.Common

/-!
# Bridge threads

A bridge thread receives from one channel and publishes in another what it makes of what it
received, until the first channel is closed and empty. Then it closes the second one. While
it does so, values are put into the first channel, which may be closed at any time, and
consumers receive from the second one.
-/

namespace CppCan

open CppCan.Core Chan

/-- The loop of a bridge thread: what it makes of its state, of what it reads meanwhile (a
clock, a counter) and of the value that it received, and how it publishes the outcome. -/
structure Bridge (σ κ α β : Type) where
  init : σ
  handle : κ → σ → α → σ × Option β
  publish : β → Op β
  publish_value : ∀ value, (publish value).value = some value

namespace Bridge

variable {σ κ α β : Type}

/-- Where the thread is in its loop. -/
inductive Pc (β : Type) where
  | receiving
  | publishing (value : β)
  | closing
  | done

/-- The channels and the thread, with what the first channel took over, what the thread
received, what the consumers received and the number of values that got lost in between. -/
structure World (σ κ α β : Type) where
  input : Chan α
  output : Chan β
  state : σ
  pc : Pc β := .receiving
  accepted : List α := []
  handled : List (κ × α) := []
  received : List β := []
  dropped : Nat := 0

/-- What a scheduler may choose next. -/
inductive Event (κ α β : Type) where
  | feed (value : α)
  | closeInput
  | handle (reading : κ)
  | publish
  | shut
  | consume (op : Op β)

/-- A consumer's operation. -/
def isReceive : Op β → Bool
  | .recv | .recvFor _ | .tryRecv => true
  | _ => false

/-- The thread goes on with a value that it received. -/
def World.take (w : World σ κ α β) (b : Bridge σ κ α β) (reading : κ) (value : α)
    (input : Chan α) : World σ κ α β :=
  { w with
    input := input
    state := (b.handle reading w.state value).1
    pc := (b.handle reading w.state value).2.elim .receiving .publishing
    handled := w.handled ++ [(reading, value)] }

/-- The world after an event, if it can happen. -/
def step (b : Bridge σ κ α β) (w : World σ κ α β) : Event κ α β → Option (World σ κ α β)
  | .feed value =>
    match w.input.trySend value with
    | (input, .ok) => some { w with input := input, accepted := w.accepted ++ [value] }
    | _ => some w
  | .closeInput => some { w with input := w.input.close }
  | .handle reading =>
    match w.pc with
    | .receiving => w.input.recv.map fun (input, value) =>
        match value with
        | some value => w.take b reading value input
        | none => { w with pc := .closing }
    | _ => none
  | .publish =>
    match w.pc with
    | .publishing value => (w.output.perform (b.publish value)).map fun (output, _) =>
        { w with
          output := output
          pc := .receiving
          dropped := w.dropped + (w.output.buf.length + 1 - output.buf.length) }
    | _ => none
  | .shut =>
    match w.pc with
    | .closing => some { w with output := w.output.close, pc := .done }
    | _ => none
  | .consume op =>
    if isReceive op then (w.output.perform op).map fun (output, reply) =>
      { w with output := output, received := w.received ++ reply.value.toList }
    else none

/-- The thread has just been started. -/
def start (b : Bridge σ κ α β) (inDepth outDepth : Nat) : World σ κ α β :=
  { input := { capacity := inDepth }, output := { capacity := outDepth }, state := b.init }

/-- The state of the loop after some values. -/
def after (b : Bridge σ κ α β) (state : σ) (values : List (κ × α)) : σ :=
  values.foldl (fun state v => (b.handle v.1 state v.2).1) state

/-- What the loop makes of some values. -/
def outputs (b : Bridge σ κ α β) : σ → List (κ × α) → List β
  | _, [] => []
  | state, v :: values =>
    (b.handle v.1 state v.2).2.toList ++ b.outputs (b.handle v.1 state v.2).1 values

/-- The value that is about to be published. -/
def Pc.pending : Pc β → List β
  | .publishing value => [value]
  | _ => []

/-- What the consumers have received and will receive if nothing more is lost. -/
def World.line (w : World σ κ α β) : List β := w.received ++ w.output.buf ++ w.pc.pending

variable {b : Bridge σ κ α β} {w w' : World σ κ α β} {e : Event κ α β}
  {es : List (Event κ α β)} {inDepth outDepth : Nat}

theorem after_concat (state : σ) (values : List (κ × α)) (v : κ × α) :
    b.after state (values ++ [v]) = (b.handle v.1 (b.after state values) v.2).1 :=
  List.foldl_append ..

theorem outputs_concat (state : σ) (values : List (κ × α)) (v : κ × α) :
    b.outputs state (values ++ [v]) =
      b.outputs state values ++ (b.handle v.1 (b.after state values) v.2).2.toList := by
  induction values generalizing state with
  | nil => exact List.append_nil _
  | cons u values ih =>
    rw [List.cons_append, outputs, ih, ← List.append_assoc]
    rfl

/-- The ways an event changes the world. -/
inductive Moved (b : Bridge σ κ α β) (w : World σ κ α β) :
    Event κ α β → World σ κ α β → Prop where
  | accepted {value : α} (hopen : w.input.closed = false) :
      Moved b w (.feed value) { w with
        input := { w.input with buf := w.input.buf ++ [value] }
        accepted := w.accepted ++ [value] }
  | refused {value : α} : Moved b w (.feed value) w
  | closed : Moved b w .closeInput { w with input := w.input.close }
  | handled {reading : κ} {value : α} {rest : List α} (hpc : w.pc = .receiving)
      (hbuf : w.input.buf = value :: rest) :
      Moved b w (.handle reading) (w.take b reading value { w.input with buf := rest })
  | ended {reading : κ} (hpc : w.pc = .receiving) (hclosed : w.input.closed = true)
      (hempty : w.input.buf = []) : Moved b w (.handle reading) { w with pc := .closing }
  | published {value : β} {output : Chan β} {reply : Reply β} (hpc : w.pc = .publishing value)
      (hperform : w.output.perform (b.publish value) = some (output, reply)) :
      Moved b w .publish { w with
        output := output
        pc := .receiving
        dropped := w.dropped + (w.output.buf.length + 1 - output.buf.length) }
  | shut (hpc : w.pc = .closing) :
      Moved b w .shut { w with output := w.output.close, pc := .done }
  | consumed {op : Op β} {output : Chan β} {reply : Reply β} (hop : isReceive op = true)
      (heffect : Effect w.output op output reply) :
      Moved b w (.consume op) { w with
        output := output
        received := w.received ++ reply.value.toList }

/-- Every step is one of these. -/
theorem moved_of_step (h : step b w e = some w') : Moved b w e w' := by
  cases e with
  | feed value =>
    simp only [step, trySend] at h
    split_ifs at h with hclosed hfull
    · obtain rfl := Option.some.inj h
      exact .refused
    · obtain rfl := Option.some.inj h
      exact .refused
    · obtain rfl := Option.some.inj h
      exact .accepted (Bool.eq_false_iff.mpr hclosed)
  | closeInput =>
    obtain rfl := Option.some.inj h
    exact .closed
  | handle reading =>
    cases hpc : w.pc with
    | receiving =>
      simp only [step, hpc, recv] at h
      cases hbuf : w.input.buf with
      | nil =>
        simp only [hbuf] at h
        split_ifs at h with hclosed
        · obtain rfl := Option.some.inj h
          exact .ended hpc hclosed hbuf
        · exact absurd h (by simp)
      | cons value rest =>
        simp only [hbuf] at h
        obtain rfl := Option.some.inj h
        exact .handled hpc hbuf
    | _ => simp [step, hpc] at h
  | publish =>
    cases hpc : w.pc with
    | publishing value =>
      simp only [step, hpc] at h
      obtain ⟨⟨output, reply⟩, hperform, rfl⟩ := Option.map_eq_some_iff.mp h
      exact .published hpc hperform
    | _ => simp [step, hpc] at h
  | shut =>
    cases hpc : w.pc with
    | closing =>
      simp only [step, hpc] at h
      obtain rfl := Option.some.inj h
      exact .shut hpc
    | _ => simp [step, hpc] at h
  | consume op =>
    simp only [step] at h
    split_ifs at h with hop
    obtain ⟨⟨output, reply⟩, hperform, rfl⟩ := Option.map_eq_some_iff.mp h
    exact .consumed hop (effect_of_perform hperform)

/-- The thread has handled the first of the values that were taken over, and what the consumers
have received or will receive is what the loop made of them, except for what was lost. The
second channel is closed at the end of the thread only, when the first one is closed and empty. -/
structure Faithful (b : Bridge σ κ α β) (w : World σ κ α β) : Prop where
  accepted_eq : w.accepted = w.handled.map Prod.snd ++ w.input.buf
  state_eq : w.state = b.after b.init w.handled
  line_sublist : w.line.Sublist (b.outputs b.init w.handled)
  length_eq : w.line.length + w.dropped = (b.outputs b.init w.handled).length
  closed_iff : w.output.closed = true ↔ w.pc = .done
  drained : w.pc = .closing ∨ w.pc = .done → w.input.closed = true ∧ w.input.buf = []

theorem faithful_start (b : Bridge σ κ α β) (inDepth outDepth : Nat) :
    Faithful b (start b inDepth outDepth) where
  accepted_eq := rfl
  state_eq := rfl
  line_sublist := List.Sublist.refl _
  length_eq := rfl
  closed_iff := by simp [start]
  drained := by simp [start]

/-- Publishing neither reorders nor invents, and what it loses is counted. -/
theorem World.published_line {value : β} {output : Chan β} {reply : Reply β}
    (hpc : w.pc = .publishing value)
    (heffect : Effect w.output (b.publish value) output reply) :
    (w.received ++ output.buf).Sublist w.line ∧
      (w.received ++ output.buf).length + (w.output.buf.length + 1 - output.buf.length) =
        w.line.length ∧ output.closed = w.output.closed := by
  have hline : w.line = w.received ++ w.output.buf ++ [value] := by
    rw [World.line, hpc]
    rfl
  have hsub := heffect.sublist
  rw [b.publish_value] at hsub
  rw [hline, List.append_assoc]
  refine ⟨((List.sublist_append_right _ _).trans hsub).append_left _, ?_, ?_⟩
  · have hlen : output.buf.length ≤ w.output.buf.length + 1 := by
      simpa using ((List.sublist_append_right _ _).trans hsub).length_le
    simp only [List.length_append, List.length_singleton]
    omega
  · generalize hop : b.publish value = op at heffect
    have hvalue := b.publish_value value
    rw [hop] at hvalue
    cases heffect with
    | close => exact absurd hvalue (by simp [Op.value])
    | _ => rfl

/-- A consumer moves the first value over, if there is one. -/
theorem receive_effect {op : Op β} {c c' : Chan β} {reply : Reply β} (hop : isReceive op = true)
    (h : Effect c op c' reply) :
    reply.value.toList ++ c'.buf = c.buf ∧ c'.closed = c.closed ∧ c'.capacity = c.capacity := by
  cases h with
  | accept hv => cases op <;> simp_all [isReceive, Op.value]
  | take _ _ _ hr hbuf =>
    rw [hr, hbuf]
    exact ⟨rfl, rfl, rfl⟩
  | refuse _ _ hr =>
    rw [hr]
    exact ⟨rfl, rfl, rfl⟩
  | _ => simp [isReceive] at hop

theorem Pc.pending_done : (.done : Pc β).pending = [] := rfl

theorem Pc.pending_elim (value : Option β) :
    (value.elim Pc.receiving Pc.publishing).pending = value.toList := by
  cases value <;> rfl

theorem Pc.elim_ne (value : Option β) :
    value.elim Pc.receiving Pc.publishing ≠ .closing ∧
      value.elim Pc.receiving Pc.publishing ≠ .done := by
  cases value <;> exact ⟨nofun, nofun⟩

/-- A step keeps the account. -/
theorem Faithful.step (hw : Faithful b w) (h : Bridge.step b w e = some w') : Faithful b w' := by
  cases moved_of_step h with
  | refused => exact hw
  | accepted hopen =>
    refine ⟨?_, hw.state_eq, hw.line_sublist, hw.length_eq, hw.closed_iff, fun hpc => ?_⟩
    · rw [hw.accepted_eq, List.append_assoc]
    · exact absurd (hopen.symm.trans (hw.drained hpc).1) (by simp)
  | closed =>
    exact ⟨hw.accepted_eq, hw.state_eq, hw.line_sublist, hw.length_eq, hw.closed_iff,
      fun hpc => ⟨rfl, (hw.drained hpc).2⟩⟩
  | @handled reading value rest hpc hbuf =>
    have hstep := outputs_concat (b := b) b.init w.handled (reading, value)
    rw [← hw.state_eq] at hstep
    have hline : (w.take b reading value { w.input with buf := rest }).line =
        w.line ++ (b.handle reading w.state value).2.toList := by
      have hbefore : w.line = w.received ++ w.output.buf := by
        simp only [World.line, hpc, Pc.pending, List.append_nil]
      rw [hbefore]
      exact congrArg _ (Pc.pending_elim _)
    obtain ⟨hclosing, hdone⟩ := Pc.elim_ne (b.handle reading w.state value).2
    refine ⟨?_, ?_, ?_, ?_, ?_, fun h => ?_⟩
    · simp only [World.take, hw.accepted_eq, hbuf, List.map_append, List.map_cons, List.map_nil,
        List.append_assoc, List.singleton_append]
    · simp only [World.take, after_concat, ← hw.state_eq]
    · rw [hline]
      exact hstep ▸ hw.line_sublist.append_right _
    · have hlen := congrArg List.length hstep
      rw [List.length_append] at hlen
      rw [hline, List.length_append, Nat.add_right_comm, World.take, hw.length_eq, ← hlen]
    · have hopen : ¬ w.output.closed = true := fun h => by simpa [hpc] using hw.closed_iff.mp h
      exact ⟨fun h => absurd h hopen, fun h => absurd h hdone⟩
    · exact h.elim (absurd · hclosing) (absurd · hdone)
  | ended hpc hclosed hempty =>
    have hopen : ¬ w.output.closed = true := fun h => by simpa [hpc] using hw.closed_iff.mp h
    have hline : ({ w with pc := .closing } : World σ κ α β).line = w.line := by
      simp only [World.line, hpc, Pc.pending]
    refine ⟨hw.accepted_eq, hw.state_eq, hline ▸ hw.line_sublist, ?_, ?_,
      fun _ => ⟨hclosed, hempty⟩⟩
    · rw [hline]
      exact hw.length_eq
    · exact ⟨fun h => absurd h hopen, nofun⟩
  | published hpc hperform =>
    obtain ⟨hsub, hlen, hsame⟩ := World.published_line hpc (effect_of_perform hperform)
    have hopen : ¬ w.output.closed = true := fun h => by simpa [hpc] using hw.closed_iff.mp h
    refine ⟨hw.accepted_eq, hw.state_eq, ?_, ?_, ?_, nofun⟩
    · simp only [World.line, Pc.pending, List.append_nil]
      exact hsub.trans hw.line_sublist
    · simp only [World.line, Pc.pending, List.append_nil]
      have hbefore := hw.length_eq
      omega
    · exact ⟨fun h => absurd (hsame ▸ h) hopen, nofun⟩
  | shut hpc =>
    have hline : ({ w with output := w.output.close, pc := .done } : World σ κ α β).line =
        w.line := by
      simp only [World.line, hpc, Pc.pending, Chan.close]
    refine ⟨hw.accepted_eq, hw.state_eq, hline ▸ hw.line_sublist, ?_, ⟨fun _ => rfl, fun _ => rfl⟩,
      fun _ => hw.drained (.inl hpc)⟩
    rw [hline]
    exact hw.length_eq
  | @consumed op output reply hop heffect =>
    obtain ⟨hbuf, hclosed, -⟩ := receive_effect hop heffect
    have hline : ({ w with
        output := output
        received := w.received ++ reply.value.toList } : World σ κ α β).line = w.line := by
      simp only [World.line, List.append_assoc, ← hbuf]
    refine ⟨hw.accepted_eq, hw.state_eq, hline ▸ hw.line_sublist, ?_, ?_, hw.drained⟩
    · rw [hline]
      exact hw.length_eq
    · rw [hclosed]
      exact hw.closed_iff

/-- If nothing was lost, everything has passed. -/
theorem Faithful.line_eq (hw : Faithful b w) (hdropped : w.dropped = 0) :
    w.line = b.outputs b.init w.handled := by
  refine hw.line_sublist.eq_of_length ?_
  rw [← hw.length_eq, hdropped, Nat.add_zero]

/-- Some run from the start of the thread leads here. -/
def Reached (b : Bridge σ κ α β) (inDepth outDepth : Nat) (w : World σ κ α β) : Prop :=
  ∃ es, Runs.run (step b) (start b inDepth outDepth) es = some w

theorem Reached.step (hw : Reached b inDepth outDepth w) (h : Bridge.step b w e = some w') :
    Reached b inDepth outDepth w' := by
  obtain ⟨es, hrun⟩ := hw
  exact ⟨es ++ [e], by rw [Runs.run_append, hrun, Option.bind_some, Runs.run, h]; rfl⟩

/-- In every run the account is kept. -/
theorem Reached.faithful (hw : Reached b inDepth outDepth w) : Faithful b w := by
  obtain ⟨es, hrun⟩ := hw
  exact Runs.invariant (Faithful b) (fun _ _ _ hw h => hw.step h)
    (faithful_start b inDepth outDepth) hrun

/-- The depth of the second channel is fixed. -/
theorem Reached.capacity_eq (hw : Reached b inDepth outDepth w) :
    w.output.capacity = outDepth := by
  obtain ⟨es, hrun⟩ := hw
  refine Runs.invariant (fun w => w.output.capacity = outDepth) (fun u e u' hu h => ?_) rfl hrun
  cases moved_of_step h with
  | published _ hperform => exact (effect_of_perform hperform).capacity_eq.trans hu
  | consumed hop heffect => exact (receive_effect hop heffect).2.2.trans hu
  | _ => exact hu

/-- A thread that waits for space loses nothing. -/
theorem Reached.dropped_eq (hw : Reached b inDepth outDepth w)
    (hblock : ∀ value, b.publish value = .send value) : w.dropped = 0 := by
  obtain ⟨es, hrun⟩ := hw
  have hboth : Faithful b w ∧ w.dropped = 0 := by
    refine Runs.invariant (fun w => Faithful b w ∧ w.dropped = 0) (fun u e u' hu h => ?_)
      ⟨faithful_start b inDepth outDepth, rfl⟩ hrun
    refine ⟨hu.1.step h, ?_⟩
    cases moved_of_step h with
    | @published value output reply hpc hperform =>
      have hopen : u.output.closed = false :=
        Bool.eq_false_iff.mpr fun hc => by simpa [hpc] using hu.1.closed_iff.mp hc
      simp only [hblock, perform, send, hopen, Bool.false_eq_true, if_false] at hperform
      split_ifs at hperform
      · obtain ⟨rfl, -⟩ := Prod.mk.inj (Option.some.inj hperform)
        simp [hu.2]
      · exact absurd hperform (by simp)
    | _ => exact hu.2
  exact hboth.2

/-- A thread that does not wait for space loses nothing while all that it made has room. -/
theorem Reached.dropped_or (hw : Reached b inDepth outDepth w)
    (htry : ∀ value, b.publish value = .trySend value) :
    w.dropped = 0 ∨ outDepth < (b.outputs b.init w.handled).length := by
  obtain ⟨es, hrun⟩ := hw
  have hboth : Reached b inDepth outDepth w ∧
      (w.dropped = 0 ∨ outDepth < (b.outputs b.init w.handled).length) := by
    refine Runs.invariant (fun w => Reached b inDepth outDepth w ∧
      (w.dropped = 0 ∨ outDepth < (b.outputs b.init w.handled).length)) (fun u e u' hu h => ?_)
      ⟨⟨[], rfl⟩, .inl rfl⟩ hrun
    refine ⟨hu.1.step h, ?_⟩
    cases moved_of_step h with
    | handled hpc hbuf =>
      refine hu.2.imp_right fun hlt => ?_
      rw [World.take, outputs_concat, List.length_append]
      omega
    | @published value output reply hpc hperform =>
      refine hu.2.elim (fun hzero => ?_) .inr
      by_cases hfull : u.output.capacity ≤ u.output.buf.length
      · right
        have hlen := hu.1.faithful.length_eq
        have hcap := hu.1.capacity_eq
        simp only [World.line, hpc, Pc.pending, List.length_append, List.length_singleton] at hlen
        simp only
        omega
      · left
        have hopen : u.output.closed = false :=
          Bool.eq_false_iff.mpr fun hc => by simpa [hpc] using hu.1.faithful.closed_iff.mp hc
        simp only [htry, perform, trySend, hopen, Bool.false_eq_true, if_false, ge_iff_le, hfull,
          Option.some.injEq, Prod.mk.injEq] at hperform
        obtain ⟨rfl, -⟩ := hperform
        simp [hzero]
    | _ => exact hu.2
  exact hboth.2

/-- The event is a step of the thread. -/
def Event.isThread : Event κ α β → Bool
  | .handle _ | .publish | .shut => true
  | _ => false

/-- A step of the thread. -/
def Thread (b : Bridge σ κ α β) (w w' : World σ κ α β) : Prop :=
  ∃ e : Event κ α β, e.isThread = true ∧ step b w e = some w'

/-- A step of the thread, or a consumer receives a value. -/
def Flows (b : Bridge σ κ α β) (w w' : World σ κ α β) : Prop :=
  Thread b w w' ∨ ∃ op, step b w (.consume op) = some w' ∧ w'.received ≠ w.received

/-- What is left to do. -/
def World.rank (w : World σ κ α β) : Nat :=
  4 * w.input.buf.length + w.output.buf.length +
    match w.pc with
    | .publishing _ => 4
    | .receiving => 2
    | .closing => 1
    | .done => 0

/-- The thread has come to its end. -/
structure Ended (b : Bridge σ κ α β) (inDepth outDepth : Nat) (accepted : List α)
    (w : World σ κ α β) : Prop where
  reached : Reached b inDepth outDepth w
  done : w.pc = .done
  handled_eq : w.handled.map Prod.snd = accepted

/-- Nothing is fed in any more. -/
structure Ending (b : Bridge σ κ α β) (inDepth outDepth : Nat) (accepted : List α)
    (w : World σ κ α β) : Prop where
  reached : Reached b inDepth outDepth w
  closed : w.input.closed = true
  accepted_eq : w.accepted = accepted

variable {accepted : List α}

/-- A step of the thread leaves less to do. -/
theorem Ending.thread (hw : Ending b inDepth outDepth accepted w) (h : Thread b w w') :
    Ending b inDepth outDepth accepted w' ∧ w'.rank < w.rank := by
  obtain ⟨e, he, hstep⟩ := h
  have hreached := hw.reached.step hstep
  cases moved_of_step hstep with
  | @handled reading value rest hpc hbuf =>
    refine ⟨⟨hreached, hw.closed, hw.accepted_eq⟩, ?_⟩
    simp only [World.rank, World.take, hpc, hbuf, List.length_cons]
    cases (b.handle reading w.state value).2 <;> simp only [Option.elim] <;> omega
  | ended hpc =>
    refine ⟨⟨hreached, hw.closed, hw.accepted_eq⟩, ?_⟩
    simp only [World.rank, hpc]
    omega
  | published hpc hperform =>
    have heffect := effect_of_perform hperform
    have hlen := ((List.sublist_append_right _ _).trans heffect.sublist).length_le
    rw [b.publish_value] at hlen
    refine ⟨⟨hreached, hw.closed, hw.accepted_eq⟩, ?_⟩
    simp only [World.rank, hpc, List.length_append, Option.toList, List.length_singleton] at hlen ⊢
    omega
  | shut hpc =>
    refine ⟨⟨hreached, hw.closed, hw.accepted_eq⟩, ?_⟩
    simp only [World.rank, hpc, Chan.close]
    omega
  | _ => simp [Event.isThread] at he

/-- So does a consumer that receives a value. -/
theorem Ending.flows (hw : Ending b inDepth outDepth accepted w) (h : Flows b w w') :
    Ending b inDepth outDepth accepted w' ∧ w'.rank < w.rank := by
  rcases h with hthread | ⟨op, hstep, hne⟩
  · exact hw.thread hthread
  · have hreached := hw.reached.step hstep
    cases moved_of_step hstep with
    | @consumed op output reply hop heffect =>
      obtain ⟨hbuf, -⟩ := receive_effect hop heffect
      refine ⟨⟨hreached, hw.closed, hw.accepted_eq⟩, ?_⟩
      have hlen := congrArg List.length hbuf
      have hpos : reply.value.toList ≠ [] := fun h => hne (by simp [h])
      have hlt := List.length_pos_iff.mpr hpos
      rw [List.length_append] at hlen
      simp only [World.rank]
      omega

/-- Until it has come to its end, the thread can go on unless it waits for space. -/
theorem Ending.cases_thread [Nonempty κ] (hw : Ending b inDepth outDepth accepted w)
    (henabled : ∀ value, w.pc = .publishing value →
      (w.output.perform (b.publish value)).isSome) :
    Ended b inDepth outDepth accepted w ∨ ∃ w', Thread b w w' := by
  cases hpc : w.pc with
  | receiving =>
    obtain ⟨reading⟩ := ‹Nonempty κ›
    right
    cases hbuf : w.input.buf with
    | nil =>
      exact ⟨{ w with pc := .closing }, .handle reading, rfl, by
        simp [step, hpc, recv, hbuf, hw.closed]⟩
    | cons value rest =>
      exact ⟨w.take b reading value { w.input with buf := rest }, .handle reading, rfl, by
        simp [step, hpc, recv, hbuf]⟩
  | publishing value =>
    obtain ⟨⟨output, reply⟩, hperform⟩ := Option.isSome_iff_exists.mp (henabled value hpc)
    exact .inr ⟨_, .publish, rfl, by simp only [step, hpc, hperform, Option.map_some]; rfl⟩
  | closing => exact .inr ⟨_, .shut, rfl, by simp only [step, hpc]; rfl⟩
  | done =>
    refine .inl ⟨hw.reached, hpc, ?_⟩
    have heq := hw.reached.faithful.accepted_eq
    rw [(hw.reached.faithful.drained (.inr hpc)).2, List.append_nil, hw.accepted_eq] at heq
    exact heq.symm

/-- A thread that never waits for space comes to its end, whether the consumers receive or not. -/
theorem Ending.inevitably_ended [Nonempty κ] {r : World σ κ α β → World σ κ α β → Prop}
    (hthread : ∀ u v, Thread b u v → r u v) (hflows : ∀ u v, r u v → Flows b u v)
    (hfree : ∀ (c : Chan β) value, (c.perform (b.publish value)).isSome)
    (hw : Ending b inDepth outDepth accepted w) :
    Inevitably r (Ended b inDepth outDepth accepted) w := by
  refine Inevitably.of_rank (fun n u => u.rank = n ∧ Ending b inDepth outDepth accepted u) ?_
    ⟨rfl, hw⟩
  rintro n u ⟨rfl, hu⟩
  rcases hu.cases_thread fun value _ => hfree _ value with hended | ⟨v, hv⟩
  · exact .inl hended
  · refine .inr ⟨⟨v, hthread u v hv⟩, fun v hv => ?_⟩
    obtain ⟨hv', hlt⟩ := hu.flows (hflows u v hv)
    exact ⟨v.rank, hlt, rfl, hv'⟩

/-- Publishing in an empty channel need not wait. -/
theorem publish_isSome (value : β) {c : Chan β} (hcap : 0 < c.capacity) (hbuf : c.buf = []) :
    (c.perform (b.publish value)).isSome := by
  have hvalue := b.publish_value value
  cases hop : b.publish value with
  | send v =>
    have hgo : c.send v ≠ none := by
      rw [Ne, send_eq_none, hbuf]
      rintro ⟨-, hle⟩
      exact absurd (Nat.lt_of_lt_of_le hcap hle) (Nat.lt_irrefl 0)
    simpa [perform, Option.isSome_iff_ne_none] using hgo
  | trySend => rfl
  | sendDropOldest => rfl
  | _ => simp [hop, Op.value] at hvalue

/-- A thread that waits for space comes to its end if the consumers keep receiving, and they
receive all that it published. -/
theorem Ending.inevitably_drained [Nonempty κ] (hcap : 0 < outDepth)
    (hw : Ending b inDepth outDepth accepted w) :
    Inevitably (Flows b) (fun u => Ended b inDepth outDepth accepted u ∧ u.output.buf = []) w := by
  refine Inevitably.of_rank (fun n u => u.rank = n ∧ Ending b inDepth outDepth accepted u) ?_
    ⟨rfl, hw⟩
  rintro n u ⟨rfl, hu⟩
  have hnext : ∀ v, Flows b u v →
      ∃ m < u.rank, v.rank = m ∧ Ending b inDepth outDepth accepted v := by
    intro v hv
    obtain ⟨hv', hlt⟩ := hu.flows hv
    exact ⟨v.rank, hlt, rfl, hv'⟩
  cases hbuf : u.output.buf with
  | nil =>
    have henabled : ∀ value, u.pc = .publishing value →
        (u.output.perform (b.publish value)).isSome := fun value _ =>
      publish_isSome value (hu.reached.capacity_eq.symm ▸ hcap) hbuf
    rcases hu.cases_thread henabled with hended | ⟨v, hv⟩
    · exact .inl ⟨hended, rfl⟩
    · exact .inr ⟨⟨v, .inl hv⟩, hnext⟩
  | cons value rest =>
    refine .inr ⟨⟨{ u with
      output := { u.output with buf := rest }
      received := u.received ++ [value] }, .inr ⟨.tryRecv, ?_, by simp⟩⟩, hnext⟩
    simp [step, isReceive, perform, tryRecv, hbuf, Reply.value]

/-- What the thread has handled was taken over first. -/
theorem Reached.handled_prefix (hw : Reached b inDepth outDepth w) :
    w.handled.map Prod.snd <+: w.accepted := by
  rw [hw.faithful.accepted_eq]
  exact List.prefix_append _ _

/-- What the consumers have received is in the order in which the thread made it. -/
theorem Reached.received_sublist (hw : Reached b inDepth outDepth w) :
    w.received.Sublist (b.outputs b.init w.handled) := by
  refine List.Sublist.trans ?_ hw.faithful.line_sublist
  rw [World.line, List.append_assoc]
  exact List.sublist_append_left _ _

/-- If nothing was lost, it is what the thread made first. -/
theorem Reached.received_prefix (hw : Reached b inDepth outDepth w) (hdropped : w.dropped = 0) :
    w.received <+: b.outputs b.init w.handled := by
  rw [← hw.faithful.line_eq hdropped, World.line, List.append_assoc]
  exact List.prefix_append _ _

/-- The second channel is closed only at the end of the thread. -/
theorem Reached.ended (hw : Reached b inDepth outDepth w) (hclosed : w.output.closed = true) :
    Ended b inDepth outDepth w.accepted w := by
  have hpc := hw.faithful.closed_iff.mp hclosed
  refine ⟨hw, hpc, ?_⟩
  rw [hw.faithful.accepted_eq, (hw.faithful.drained (.inr hpc)).2, List.append_nil]

/-- In the end everything has passed that was not lost. -/
theorem Ended.length_eq (h : Ended b inDepth outDepth accepted w) :
    w.received.length + w.output.buf.length + w.dropped =
      (b.outputs b.init w.handled).length := by
  rw [← h.reached.faithful.length_eq, World.line, h.done, Pc.pending_done, List.append_nil,
    List.length_append]

/-- If nothing was lost, everything is received or still buffered. -/
theorem Ended.received_eq (h : Ended b inDepth outDepth accepted w) (hdropped : w.dropped = 0) :
    w.received ++ w.output.buf = b.outputs b.init w.handled := by
  rw [← h.reached.faithful.line_eq hdropped, World.line, h.done, Pc.pending_done, List.append_nil]

end Bridge

end CppCan
