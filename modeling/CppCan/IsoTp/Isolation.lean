import CppCan.Core.Runs
import CppCan.IsoTp.Delivery
import CppCan.Virt.Channels
import CppCan.Virt.Metrics

/-!
# Isolation of a connection

A connection subscribes with a mask that covers the number of the identifier but not
its kind. Frames that do not match leave no trace but in the counters of the bus, and
no call of the connection looks at those. A frame with the number of the receive
identifier and the other kind matches.
-/

namespace CppCan.IsoTp

open CppCan.Core CppCan.Relay
open CppCan.Virt (Bus Pc)

/-- What a call of either kind returns. -/
inductive Answer where
  | sent (err : Option ErrorCode)
  | received (res : Except ErrorCode (List UInt8))

/-- A call of a connection. -/
inductive Request where
  | send (payload : List UInt8)
  | recv (timeout : Nat)

/-- What the call does. -/
def Request.call (cfg : Config) : Request → Call Answer
  | .send payload => do return .sent (← IsoTp.send cfg payload)
  | .recv timeout => do return .received (← IsoTp.recv cfg timeout)

/-- A bus with a connection whose thread makes its calls. -/
structure Host where
  bus : Bus
  conn : Endpoint Answer

/-- A new bus with a connection and the calls it is going to make. -/
def host (cfg : Config) (requests : List Request) : Host :=
  { bus := (create {} cfg).1
    conn := { ch := (create {} cfg).2.toOption.getD 0, calls := requests.map (·.call cfg) } }

namespace Host

/-- What can happen next: somebody sends a frame, the thread of the connection goes on, or
it gives up its wait. -/
inductive Event where
  | arrive (f : Frame)
  | advance
  | expire

/-- The state after an event, if it can happen. -/
def step (w : Host) : Event → Option Host
  | .arrive f => (w.bus.send f).map fun (bus, _) => { w with bus := bus }
  | .advance => (w.conn.advance 0 w.bus).map fun (bus, conn) => { bus := bus, conn := conn }
  | .expire => (w.conn.expire (.relay .timeout)).map fun conn => { w with conn := conn }

/-- The event is not the arrival of a foreign frame. -/
def Event.isOwn (foreign : Frame → Bool) : Event → Bool
  | .arrive f => !foreign f
  | _ => true

end Host

/-- The identifier differs from the receive identifier in number or kind. -/
def DiffersFromRx (cfg : Config) (f : Frame) : Prop := f.id ≠ cfg.rxId ∨ f.ext ≠ cfg.extIds

/-- In every run the calls return what they return without the foreign frames. -/
def Isolated (cfg : Config) (foreign : Frame → Bool) : Prop :=
  ∀ requests es w, Runs.run Host.step (host cfg requests) es = some w →
    ∃ w', Runs.run Host.step (host cfg requests) (es.filter (·.isOwn foreign)) = some w' ∧
      w'.conn.results = w.conn.results

namespace Host

/-- The same host with other counters on its bus, which has one subscription that no
foreign frame matches. -/
structure Twin (foreign : Frame → Bool) (w u : Host) : Prop where
  bus : ∃ m, u.bus = w.bus.withMetrics m
  conn : u.conn = w.conn
  inSend : w.conn.pc.inSend = true
  unmatched : ∀ f, foreign f = true → f.Valid → ∀ s ∈ w.bus.subs, matchesAny s.filters f = false

end Host

/-- A step of a connection does not look at the counters of the bus, and its thread is in
no call of the bus but `send`. -/
theorem Endpoint.advance_withMetrics {ρ : Type} {i : Nat} {b b' : Bus} {e e' : Endpoint ρ}
    (h : e.advance i b = some (b', e')) (hpc : e.pc.inSend = true) (m : Virt.Metrics) :
    (∃ m', e.advance i (b.withMetrics m) = some (b'.withMetrics m', e')) ∧
      e'.pc.inSend = true ∧ b'.subs = b.subs := by
  obtain ⟨ch, pc, calls, results⟩ := e
  cases calls with
  | nil => cases h
  | cons call rest =>
    cases call with
    | ret r =>
      obtain ⟨rfl, rfl⟩ := Prod.mk.inj (Option.some.inj h)
      exact ⟨⟨m, rfl⟩, hpc, rfl⟩
    | emit f k =>
      have hgo (pc : Pc) (hpc : pc.inSend = true)
          (h : ((b.step i pc).map fun r =>
            (r.1, ({ ch, pc := r.2, calls := .emit f k :: rest, results } : Endpoint ρ))) =
              some (b', e')) :
          (∃ m', (((b.withMetrics m).step i pc).map fun r =>
            (r.1, ({ ch, pc := r.2, calls := .emit f k :: rest, results } : Endpoint ρ))) =
              some (b'.withMetrics m', e')) ∧
            e'.pc.inSend = true ∧ b'.subs = b.subs := by
        obtain ⟨⟨b₁, pc₁⟩, hstep, heq⟩ := Option.map_eq_some_iff.mp h
        obtain ⟨rfl, rfl⟩ := Prod.mk.inj heq
        obtain ⟨m₁, hm₁⟩ := Virt.Bus.step_withMetrics hstep m
        exact ⟨⟨m₁, congrArg (Option.map _) hm₁⟩, Virt.Bus.inSend_of_step hstep hpc⟩
      cases pc with
      | idle =>
        obtain ⟨rfl, rfl⟩ := Prod.mk.inj (Option.some.inj h)
        obtain ⟨m₁, hm₁⟩ := Virt.Bus.begin_withMetrics b (.send f) m
        refine ⟨⟨m₁, ?_⟩, ?_, (Virt.World.begin_wired b (.send f)).1⟩
        · simp only [advance, hm₁]
          rfl
        · dsimp only
          split <;> rfl
      | returned r =>
        cases r with
        | sent err =>
          obtain ⟨rfl, rfl⟩ := Prod.mk.inj (Option.some.inj h)
          exact ⟨⟨m, rfl⟩, rfl, rfl⟩
        | _ => cases h
      | sendLock g => exact hgo _ hpc h
      | sendCheck g => exact hgo _ hpc h
      | fanOut g subs => exact hgo _ hpc h
      | _ => cases hpc
    | await limit accept k =>
      simp only [advance, Virt.Bus.chan_withMetrics] at h ⊢
      split at h
      · cases h
      · rename_i c f hrecv
        obtain ⟨rfl, rfl⟩ := Prod.mk.inj (Option.some.inj h)
        exact ⟨⟨m, rfl⟩, hpc, rfl⟩
    | pause d k =>
      obtain ⟨rfl, rfl⟩ := Prod.mk.inj (Option.some.inj h)
      exact ⟨⟨m, rfl⟩, hpc, rfl⟩

namespace Host

variable {cfg : Config} {foreign : Frame → Bool} {w w' u : Host} {e : Event}

/-- An event that is not hidden keeps the twins together. -/
theorem Twin.step_own (h : Twin foreign w u) (he : w.step e = some w') :
    ∃ u', u.step e = some u' ∧ Twin foreign w' u' := by
  obtain ⟨m, hm⟩ := h.bus
  cases e with
  | arrive f =>
    obtain ⟨⟨b, err⟩, hsend, rfl⟩ := Option.map_eq_some_iff.mp he
    obtain ⟨m', hm'⟩ := Virt.Bus.send_withMetrics hsend m
    refine ⟨{ u with bus := b.withMetrics m' }, ?_, ⟨m', rfl⟩, h.conn, h.inSend, ?_⟩
    · rw [step, hm, hm']
      rfl
    · rw [Virt.Bus.send_subs hsend]
      exact h.unmatched
  | advance =>
    obtain ⟨⟨b, conn⟩, hadvance, rfl⟩ := Option.map_eq_some_iff.mp he
    obtain ⟨⟨m', hm'⟩, hpc, hsubs⟩ := Endpoint.advance_withMetrics hadvance h.inSend m
    refine ⟨⟨b.withMetrics m', conn⟩, ?_, ⟨m', rfl⟩, rfl, hpc, ?_⟩
    · rw [step, hm, h.conn, hm']
      rfl
    · rw [hsubs]
      exact h.unmatched
  | expire =>
    obtain ⟨conn, hexpire, rfl⟩ := Option.map_eq_some_iff.mp he
    refine ⟨⟨u.bus, conn⟩, ?_, ⟨m, hm⟩, rfl, ?_, h.unmatched⟩
    · rw [step, h.conn, hexpire]
      rfl
    · unfold Endpoint.expire at hexpire
      split at hexpire
      · obtain rfl := Option.some.inj hexpire
        exact h.inSend
      · cases hexpire

/-- The arrival of a foreign frame leaves the twins together. -/
theorem Twin.step_foreign (h : Twin foreign w u) {f : Frame} (hf : foreign f = true)
    (he : w.step (.arrive f) = some w') : Twin foreign w' u := by
  obtain ⟨m, hm⟩ := h.bus
  obtain ⟨⟨b, err⟩, hsend, rfl⟩ := Option.map_eq_some_iff.mp he
  obtain ⟨m', rfl⟩ := Virt.Bus.send_of_not_matches (h.unmatched f hf) hsend
  exact ⟨⟨m, hm⟩, h.conn, h.inSend, h.unmatched⟩

end Host

/-- A filter on the receive identifier looks at the number only. -/
theorem matchesAny_rx (cfg : Config) (f : Frame) :
    matchesAny [{ id := cfg.rxId, mask := 0x1FFFFFFF }] f =
      (f.id &&& 0x1FFFFFFF == cfg.rxId &&& 0x1FFFFFFF) := by
  simp [matchesAny, Filter.isMatch]

/-- Frames that do not match leave the calls alone. -/
theorem isolated_of_unmatched {cfg : Config} {foreign : Frame → Bool}
    (h : ∀ f, foreign f = true → f.Valid → f.id &&& 0x1FFFFFFF ≠ cfg.rxId &&& 0x1FFFFFFF) :
    Isolated cfg foreign := by
  intro requests es w hrun
  have hstart : Host.Twin foreign (host cfg requests) (host cfg requests) := by
    refine ⟨⟨_, rfl⟩, rfl, rfl, fun f hf hv s hs => ?_⟩
    obtain rfl := List.mem_singleton.mp hs
    change matchesAny [{ id := cfg.rxId, mask := 0x1FFFFFFF }] f = false
    rw [matchesAny_rx]
    simpa using h f hf hv
  have hhide : ∀ (w u : Host) (e : Host.Event) (w' : Host), e.isOwn foreign = false →
      Host.Twin foreign w u → w.step e = some w' → Host.Twin foreign w' u := by
    intro w u e w' hkeep htwin he
    cases e with
    | arrive f => exact htwin.step_foreign (by simpa [Host.Event.isOwn] using hkeep) he
    | _ => cases hkeep
  obtain ⟨w', hw', htwin⟩ :=
    Runs.exists_run_filter (fun w u e w' _ htwin he => htwin.step_own he) hhide hstart hrun
  exact ⟨w', hw', by rw [htwin.conn]⟩

/-- The bus has the subscription of the connection alone, and these frames are in its
channel. -/
structure Holds (cfg : Config) (b : Bus) (buf : List Frame) : Prop where
  subs : b.subs = [⟨[{ id := cfg.rxId, mask := 0x1FFFFFFF }], 0, .dropNewest⟩]
  isOpen : b.closed = false
  channels : b.channels = [{ capacity := 64, buf := buf }]

theorem holds_create (cfg : Config) : Holds cfg (create {} cfg).1 [] := ⟨rfl, rfl, rfl⟩

/-- A frame that matches is put behind the others. -/
theorem Holds.send {cfg : Config} {b : Bus} {buf : List Frame} {f : Frame} (h : Holds cfg b buf)
    (hv : f.Valid) (hm : f.id &&& 0x1FFFFFFF = cfg.rxId &&& 0x1FFFFFFF)
    (hspace : buf.length < 64) : ∃ b', b.send f = some (b', none) ∧ Holds cfg b' (buf ++ [f]) := by
  have hvalid : validateFrame f = .ok () := hv
  have hmatch : matchesAny [{ id := cfg.rxId, mask := 0x1FFFFFFF }] f = true := by
    rw [matchesAny_rx, hm]
    exact beq_self_eq_true _
  have hchan : (b.countWrite f).chan 0 = { capacity := 64, buf := buf } := by
    rw [Virt.Bus.chan_countWrite, Bus.chan, h.channels]
    rfl
  have htry : ({ capacity := 64, buf := buf } : Chan Frame).trySend f =
      ({ capacity := 64, buf := buf ++ [f] }, .ok) := by
    simp [Chan.trySend, Nat.not_le.mpr hspace]
  have hdeliver :
      (b.countWrite f).deliver ⟨[{ id := cfg.rxId, mask := 0x1FFFFFFF }], 0, .dropNewest⟩ f =
        some (((b.countWrite f).setChan 0
          { capacity := 64, buf := buf ++ [f] }).countDeliver f) := by
    simp only [Bus.deliver, hmatch, hchan, htry]
    rfl
  have hsend : b.send f =
      some (((b.countWrite f).setChan 0 { capacity := 64, buf := buf ++ [f] }).countDeliver f,
        none) := by
    simp only [Bus.send, hvalid, h.isOpen, h.subs, Bus.fanOut, List.foldlM_cons, List.foldlM_nil,
      hdeliver]
    rfl
  refine ⟨_, hsend, h.subs, h.isOpen, ?_⟩
  change b.channels.set 0 _ = _
  rw [h.channels]
  rfl

/-- What two steps of `recv` return if this frame is the first in the channel. -/
def answerTo (cfg : Config) (f : Frame) : List Answer :=
  match Request.call cfg (.recv 0) with
  | .await _ _ k =>
    match k (.ok f) with
    | .ret r => [r]
    | _ => []
  | _ => []

/-- With its first frame `recv` returns or sends a flow control frame. -/
theorem recv_takes_first (cfg : Config) (f : Frame) :
    ∃ k, Request.call cfg (.recv 0) = .await 0 (fun _ => true) k ∧
      ((∃ r, k (.ok f) = .ret r) ∨ ∃ g k', k (.ok f) = .emit g k') := by
  refine ⟨_, rfl, ?_⟩
  simp only [Proc.bind]
  cases f.data with
  | nil => exact .inl ⟨_, rfl⟩
  | cons pci rest =>
    dsimp only
    split
    · split
      · exact .inl ⟨_, rfl⟩
      · exact .inl ⟨_, rfl⟩
    · split
      · cases rest with
        | nil => exact .inl ⟨_, rfl⟩
        | cons low buf => exact .inr ⟨_, _, rfl⟩
      · exact .inl ⟨_, rfl⟩

/-- The first frame alone decides what two steps of `recv` return. -/
theorem Holds.exists_run_recv {cfg : Config} {b : Bus} {f : Frame} {rest : List Frame}
    (h : Holds cfg b (f :: rest)) :
    ∃ w, Runs.run Host.step ⟨b, { ch := 0, calls := [Request.call cfg (.recv 0)] }⟩
        [.advance, .advance] = some w ∧ w.conn.results = answerTo cfg f := by
  have hchan : b.chan 0 = { capacity := 64, buf := f :: rest } := by
    rw [Bus.chan, h.channels]
    rfl
  obtain ⟨k, hk, hnext⟩ := recv_takes_first cfg f
  have hfirst : Host.step ⟨b, { ch := 0, calls := [.await 0 (fun _ => true) k] }⟩ .advance =
      some ⟨b.setChan 0 { capacity := 64, buf := rest }, { ch := 0, calls := [k (.ok f)] }⟩ := by
    simp only [Host.step, Endpoint.advance, hchan]
    rfl
  rw [answerTo, hk, Runs.run, hfirst, Option.bind_some]
  dsimp only
  rcases hnext with ⟨r, hr⟩ | ⟨g, k', hg⟩
  · rw [hr]
    exact ⟨_, rfl, rfl⟩
  · rw [hg]
    exact ⟨_, rfl, rfl⟩

/-- A single frame of one byte addressed to the connection. -/
def ownFrame (cfg : Config) (x : UInt8) : Frame :=
  { id := cfg.rxId, ext := cfg.extIds, data := [0x01, x] }

theorem answerTo_ownFrame (cfg : Config) (x : UInt8) :
    answerTo cfg (ownFrame cfg x) = [.received (.ok [x])] := rfl

/-- Frames that arrive before a `recv` is under way. -/
theorem run_arrive {cfg : Config} {b b' : Bus} {f : Frame} {err : Option ErrorCode}
    {es : List Host.Event} (h : b.send f = some (b', err)) :
    Runs.run Host.step ⟨b, { ch := 0, calls := [Request.call cfg (.recv 0)] }⟩ (.arrive f :: es) =
      Runs.run Host.step ⟨b', { ch := 0, calls := [Request.call cfg (.recv 0)] }⟩ es := by
  rw [Runs.run, Host.step, h]
  rfl

/-- A frame that matches the receive identifier by its number takes the place of the
first frame of the transfer. -/
theorem not_isolated_of_match {cfg : Config} {foreign : Frame → Bool} {f : Frame}
    (hown : ∀ x, (ownFrame cfg x).Valid ∧ foreign (ownFrame cfg x) = false)
    (hf : foreign f = true) (hv : f.Valid) (hm : f.id &&& 0x1FFFFFFF = cfg.rxId &&& 0x1FFFFFFF) :
    ¬ Isolated cfg foreign := by
  intro hisolated
  have hanswer : ∀ x, answerTo cfg f = [.received (.ok [x])] := by
    intro x
    obtain ⟨hvx, hfx⟩ := hown x
    have hempty := holds_create cfg
    -- The foreign frame is in front of the own one, and without it there is the own one only.
    obtain ⟨b₁, hsend₁, hb₁⟩ := hempty.send hv hm (by simp)
    obtain ⟨b₂, hsend₂, hb₂⟩ := hb₁.send hvx rfl (by simp)
    obtain ⟨b₃, hsend₃, hb₃⟩ := hempty.send hvx rfl (by simp)
    obtain ⟨w, hw, hresults⟩ := hb₂.exists_run_recv
    obtain ⟨u, hu, huresults⟩ := hb₃.exists_run_recv
    have hrun : Runs.run Host.step (host cfg [.recv 0])
        [.arrive f, .arrive (ownFrame cfg x), .advance, .advance] = some w :=
      (run_arrive hsend₁).trans ((run_arrive hsend₂).trans hw)
    have hrunOwn : Runs.run Host.step (host cfg [.recv 0])
        [.arrive (ownFrame cfg x), .advance, .advance] = some u :=
      (run_arrive hsend₃).trans hu
    obtain ⟨w', hw', hsame⟩ := hisolated _ _ w hrun
    have hfilter : [Host.Event.arrive f, .arrive (ownFrame cfg x), .advance, .advance].filter
        (·.isOwn foreign) = [.arrive (ownFrame cfg x), .advance, .advance] := by
      simp [Host.Event.isOwn, hf, hfx]
    rw [hfilter, hrunOwn] at hw'
    obtain rfl := Option.some.inj hw'
    rw [← hresults, ← hsame, huresults]
    exact answerTo_ownFrame cfg x
  have hsame := (hanswer 0).symm.trans (hanswer 1)
  simp at hsame

/-- A frame of the connection is valid if its identifier is. -/
theorem valid_ownFrame {cfg : Config}
    (h : Frame.Valid { id := cfg.rxId, ext := cfg.extIds }) (x : UInt8) :
    (ownFrame cfg x).Valid := by
  have hframe : (makeFrame { cfg with txId := cfg.rxId } [0x01, x]).Valid :=
    valid_makeFrame h (by simp)
  exact hframe

/-- A frame that matches completes a `recv` that waits for ever without it. -/
theorem not_isolated_of_match_alone {cfg : Config} {foreign : Frame → Bool} {f : Frame}
    (hf : foreign f = true) (hv : f.Valid) (hm : f.id &&& 0x1FFFFFFF = cfg.rxId &&& 0x1FFFFFFF) :
    ¬ Isolated cfg foreign := by
  intro hisolated
  obtain ⟨b, hsend, hb⟩ := (holds_create cfg).send hv hm (by simp)
  obtain ⟨w, hw, -⟩ := hb.exists_run_recv
  have hrun : Runs.run Host.step (host cfg [.recv 0]) [.arrive f, .advance, .advance] = some w :=
    (run_arrive hsend).trans hw
  obtain ⟨w', hw', -⟩ := hisolated _ _ w hrun
  have hfilter : [Host.Event.arrive f, .advance, .advance].filter (·.isOwn foreign) =
      [.advance, .advance] := by
    simp [Host.Event.isOwn, hf]
  -- The channel is empty, so the thread cannot go on.
  have hwait : Host.step (host cfg [.recv 0]) .advance = none := rfl
  rw [hfilter, Runs.run, hwait] at hw'
  cases hw'

/-- The results of the calls of a connection are the same with and without frames of other
identifiers, exactly if none of those that are valid has the number of the receive
identifier. -/
theorem isolated_iff (cfg : Config) (foreign : Frame → Bool)
    (hforeign : ∀ f, foreign f = true → DiffersFromRx cfg f) :
    Isolated cfg foreign ↔
      ∀ f, foreign f = true → f.Valid → f.id &&& 0x1FFFFFFF ≠ cfg.rxId &&& 0x1FFFFFFF := by
  constructor
  · intro hisolated f hf hv hm
    by_cases hrx : Frame.Valid { id := cfg.rxId, ext := cfg.extIds }
    · refine not_isolated_of_match (fun x => ⟨valid_ownFrame hrx x, ?_⟩) hf hv hm hisolated
      rw [← Bool.not_eq_true]
      intro hx
      rcases hforeign _ hx with hid | hext
      · exact hid rfl
      · exact hext rfl
    · -- No frame has the receive identifier, so only a foreign one completes a `recv`.
      exact not_isolated_of_match_alone hf hv hm hisolated
  · exact isolated_of_unmatched

/-- The connection of the counterexample, with standard identifiers. -/
def standardConfig : Config := { txId := 0x7E8, rxId := 0x7E0 }

/-- Frames with other numbers leave the connection alone. -/
theorem isolated_iff_numbers :
    Isolated standardConfig (fun f => f.id != 0x7E0) ↔
      ∀ f : Frame, (f.id != 0x7E0) = true → f.Valid → f.id &&& 0x1FFFFFFF ≠ 0x7E0 &&& 0x1FFFFFFF :=
  isolated_iff standardConfig _ fun _ hf => .inl (bne_iff_ne.mp hf)

/-- Extended frames with the number of a standard receive identifier change the results. -/
theorem not_isolated :
    ¬ ∀ cfg foreign, (∀ f, foreign f = true → DiffersFromRx cfg f) → Isolated cfg foreign := by
  intro h
  have hisolated := h standardConfig (fun f => f.id == 0x7E0 && f.ext) ?_
  · refine not_isolated_of_match (f := { id := 0x7E0, ext := true, data := [0x01, 0xFF] })
      (fun x => ⟨?_, ?_⟩) ?_ ?_ ?_ hisolated
    · exact valid_ownFrame (by decide) x
    · rfl
    · rfl
    · decide
    · rfl
  · intro f hf
    right
    simp only [Bool.and_eq_true] at hf
    simp [standardConfig, hf.2]

end CppCan.IsoTp
