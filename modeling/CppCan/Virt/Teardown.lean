import CppCan.Virt.Channels

/-!
# Who closes the channels of a bus

While the bus is open its subscriptions list every open channel. The `close` that closes
the bus takes that list over and works through it under the unique lock. So the bus is
shut where any `close` has returned.
-/

namespace CppCan.Virt

open CppCan.Core CppCan.Relay Chan

/-- The bus is closed and so are all its channels. -/
structure Bus.Shut (b : Bus) : Prop where
  closed : b.closed = true
  channels : ∀ ch < b.channels.length, (b.chan ch).closed = true

/-- The thread closes channels. -/
def Pc.closes : Pc → Bool
  | .closing _ => true
  | _ => false

/-- The thread closes channels, or it has. -/
def Pc.tearsDown : Pc → Bool
  | .closing _ | .returned .closed => true
  | _ => false

namespace Bus

/-- What a step can do on the way to a closed bus. -/
inductive Teardown (b : Bus) : Pc → Bus → Pc → Prop where
  | other {pc pc' : Pc} {b' : Bus} (hpc : pc.closes = false) (hpc' : pc'.tearsDown = false)
      (hclosed : b'.closed = b.closed) (hsubs : b'.subs = b.subs)
      (hlen : b'.channels.length = b.channels.length)
      (hopen : ∀ ch, (b'.chan ch).closed = false → (b.chan ch).closed = false) :
      Teardown b pc b' pc'
  | subscribed {filters : List Filter} {cfg : SubscriberConfig} {mu : RwLock} {r : Result}
      (hopen : b.closed = false) (hr : (Pc.returned r).tearsDown = false) :
      Teardown b (.subscribeHeld filters cfg) { (b.addSubscription filters cfg).1 with mu := mu }
        (.returned r)
  | begun (hopen : b.closed = false) :
      Teardown b .closeHeld { b with closed := true } (.closing b.subs)
  | again {mu : RwLock} (hclosed : b.closed = true) :
      Teardown b .closeHeld { b with mu := mu } (.returned .closed)
  | closing (s : Subscription) (rest : List Subscription) :
      Teardown b (.closing (s :: rest)) (b.setChan s.ch (b.chan s.ch).close) (.closing rest)
  | done {mu : RwLock} :
      Teardown b (.closing []) { b with subs := [], mu := mu } (.returned .closed)

variable {b b' : Bus} {i : Nat} {pc pc' : Pc}

/-- An operation leaves no channel open that was not. -/
theorem open_of_perform {j : Nat} {op : Op Frame} {c : Chan Frame} {reply : Reply Frame}
    (hc : (b.chan j).perform op = some (c, reply)) (hset : b'.channels = b.channels.set j c)
    (ch : Nat) (hopen : (b'.chan ch).closed = false) : (b.chan ch).closed = false := by
  rcases chan_eq_or_of_set hset ch with heq | ⟨rfl, heq⟩
  · rwa [heq] at hopen
  · by_contra hclosed
    have hkeeps := (effect_of_perform hc).closed_of_closed (by simpa using hclosed)
    rw [heq, hkeeps] at hopen
    cases hopen

/-- Every step is one of these. -/
theorem teardown_of_step (h : b.step i pc = some (b', pc')) : b.Teardown pc b' pc' := by
  cases outcome_of_step h with
  | sendLocked hmu => exact .other rfl rfl rfl rfl rfl fun _ => id
  | sendRefused hclosed => exact .other rfl rfl rfl rfl rfl fun _ => id
  | sendAccepted hopen => exact .other rfl rfl rfl rfl rfl fun _ => id
  | sendDone => exact .other rfl rfl rfl rfl rfl fun _ => id
  | delivered hdeliver =>
    have hperform := deliver_perform hdeliver
    obtain ⟨hclosed, hlen⟩ := deliver_keeps hdeliver
    split at hperform
    · obtain ⟨c, reply, hc, hset⟩ := hperform
      exact .other rfl rfl hclosed (deliver_subs hdeliver) hlen (open_of_perform hc hset)
    · subst hperform
      exact .other rfl rfl rfl rfl rfl fun _ => id
  | subscribeLocked hmu => exact .other rfl rfl rfl rfl rfl fun _ => id
  | subscribeRefused hclosed => exact .other rfl rfl rfl rfl rfl fun _ => id
  | subscribed hopen => exact .subscribed hopen rfl
  | closeLocked hmu => exact .other rfl rfl rfl rfl rfl fun _ => id
  | closeAgain hclosed => exact .again hclosed
  | closeBegun hopen => exact .begun hopen
  | closeDone => exact .done
  | @closeNext s rest => exact .closing s rest
  | @received ch c v hrecv =>
    have hc : (b.chan ch).perform .recv = some (c, .received v) := by
      rw [perform, hrecv]
      rfl
    exact .other rfl rfl rfl rfl List.length_set (open_of_perform hc rfl)

/-- Once shut, a bus stays so. -/
theorem Shut.of_teardown (h : b.Shut) (ht : b.Teardown pc b' pc') :
    b'.Shut ∧ b'.channels.length = b.channels.length := by
  cases ht with
  | other hpc hpc' hclosed hsubs hlen hopen =>
    refine ⟨⟨hclosed.trans h.closed, fun ch hch => ?_⟩, hlen⟩
    by_contra hc
    have := hopen ch (by simpa using hc)
    rw [h.channels ch (hlen ▸ hch)] at this
    cases this
  | subscribed hopen hr => exact absurd (h.closed.symm.trans hopen) (by simp)
  | begun hopen => exact absurd (h.closed.symm.trans hopen) (by simp)
  | again hclosed => exact ⟨⟨h.closed, h.channels⟩, rfl⟩
  | closing s rest =>
    refine ⟨⟨h.closed, fun ch hch => ?_⟩, List.length_set⟩
    have hlt : ch < b.channels.length := hch.trans_eq List.length_set
    rcases @chan_eq_or_of_set b (b.setChan s.ch (b.chan s.ch).close) s.ch _ rfl ch with
      heq | ⟨-, heq⟩
    · rw [heq]
      exact h.channels ch hlt
    · rw [heq]
      rfl
  | done => exact ⟨⟨h.closed, h.channels⟩, rfl⟩

end Bus

namespace World

variable {w w' : World}

/-- Every open channel is in the care of the bus, while it is open, or of the thread that
closes it. Where a `close` has returned the bus is shut. -/
structure Tended (w : World) : Prop where
  care : ∀ ch < w.bus.channels.length, (w.bus.chan ch).closed = false →
    (w.bus.closed = false ∧ ∃ s ∈ w.bus.subs, s.ch = ch) ∨
      (w.bus.closed = true ∧ ∃ i rest, w.threads i = .closing rest ∧ ∃ s ∈ rest, s.ch = ch)
  closing : ∀ i rest, w.threads i = .closing rest → w.bus.closed = true
  returned : ∀ i, w.threads i = .returned .closed → w.bus.Shut

/-- The one thread that closes channels. -/
theorem Tended.closing_eq (hlock : w.LockHeld) {i j : Nat} {rest : List Subscription}
    (hi : (w.threads i).holdsUnique = true) (hj : w.threads j = .closing rest) : j = i :=
  hlock.unique_eq (by rw [hj]; rfl) hi

/-- With the unique lock and no channel to close left, all channels are closed. -/
theorem Tended.all_closed (h : w.Tended) (hlock : w.LockHeld) {i : Nat}
    (hclosed : w.bus.closed = true) (hi : (w.threads i).holdsUnique = true)
    (hrest : ∀ s rest, w.threads i ≠ .closing (s :: rest)) : w.bus.Shut := by
  refine ⟨hclosed, fun ch hch => ?_⟩
  by_contra hopen
  rcases h.care ch hch (by simpa using hopen) with ⟨hbus, -⟩ | ⟨-, j, rest, hj, s, hs, -⟩
  · rw [hclosed] at hbus
    cases hbus
  · obtain rfl := Tended.closing_eq hlock hi hj
    cases rest with
    | nil => cases hs
    | cons s rest => exact hrest s rest hj

/-- While the bus is open nobody closes channels, nor has anybody. -/
theorem Tended.tearsDown_of_open (h : w.Tended) (hopen : w.bus.closed = false) (j : Nat) :
    (w.threads j).tearsDown = false := by
  by_contra hne
  have hclosed : w.bus.closed = true := by
    cases hj : w.threads j with
    | closing rest => exact h.closing j rest hj
    | returned r =>
      cases r with
      | closed => exact (h.returned j hj).closed
      | _ => exact absurd rfl (hj ▸ hne)
    | _ => exact absurd rfl (hj ▸ hne)
  exact absurd (hclosed.symm.trans hopen) (by simp)

/-- What stays open was open, and nobody begins or ends to close channels. -/
theorem Tended.of_other (h : w.Tended) {b : Bus} {threads : Nat → Pc}
    (hclosing : ∀ j rest, threads j = .closing rest ↔ w.threads j = .closing rest)
    (hreturned : ∀ j, threads j = .returned .closed → w.threads j = .returned .closed)
    (hclosed : b.closed = w.bus.closed) (hsubs : b.subs = w.bus.subs)
    (hlen : b.channels.length = w.bus.channels.length)
    (hopen : ∀ ch, (b.chan ch).closed = false → (w.bus.chan ch).closed = false) :
    Tended ⟨b, threads⟩ := by
  refine ⟨fun ch hch hc => ?_, fun j rest hj => ?_, fun j hj => ?_⟩
  · rcases h.care ch (hlen ▸ hch) (hopen ch hc) with ⟨hbus, hmem⟩ | ⟨hbus, j, rest, hj, hmem⟩
    · exact .inl ⟨hclosed.trans hbus, hsubs ▸ hmem⟩
    · exact .inr ⟨hclosed.trans hbus, j, rest, (hclosing j rest).mpr hj, hmem⟩
  · exact hclosed.trans (h.closing j rest ((hclosing j rest).mp hj))
  · have hshut := h.returned j (hreturned j hj)
    refine ⟨hclosed.trans hshut.closed, fun ch hch => ?_⟩
    by_contra hc
    have hwas := hopen ch (by simpa using hc)
    rw [hshut.channels ch (hlen ▸ hch)] at hwas
    cases hwas

/-- With the bus shut there is nothing to tend. -/
theorem Tended.of_shut {b : Bus} (hshut : b.Shut) (threads : Nat → Pc) : Tended ⟨b, threads⟩ := by
  refine ⟨fun ch hch hc => ?_, fun _ _ _ => hshut.closed, fun _ _ => hshut⟩
  rw [hshut.channels ch hch] at hc
  cases hc

/-- A new subscription comes with its channel. -/
theorem Tended.of_subscribed (h : w.Tended) {i : Nat} {r : Result} (hopen : w.bus.closed = false)
    (hr : (Pc.returned r).tearsDown = false) (filters : List Filter) (cfg : SubscriberConfig)
    (mu : RwLock) :
    Tended ⟨{ (w.bus.addSubscription filters cfg).1 with mu := mu },
      Function.update w.threads i (.returned r)⟩ := by
  have hquiet : ∀ j, (Function.update w.threads i (.returned r) j).tearsDown = false := by
    intro j
    by_cases hj : j = i
    · rwa [hj, Function.update_self]
    · rw [Function.update_of_ne hj, h.tearsDown_of_open hopen]
  refine ⟨fun ch hch hc => .inl ⟨hopen, ?_⟩, fun j rest hj => ?_, fun j hj => ?_⟩
  · by_cases hlt : ch < w.bus.channels.length
    · have hkept : w.bus.chan ch = (w.bus.addSubscription filters cfg).1.chan ch := by
        simp only [Bus.addSubscription, Bus.chan, List.getD_eq_getElem?_getD]
        rw [List.getElem?_append_left hlt]
      rcases h.care ch hlt ((congrArg Chan.closed hkept).trans hc) with
        ⟨-, s, hs, heq⟩ | ⟨hbus, -⟩
      · exact ⟨s, List.mem_append_left _ hs, heq⟩
      · exact absurd (hbus.symm.trans hopen) (by simp)
    · have hnew : ch < w.bus.channels.length + 1 := by
        simpa [Bus.addSubscription] using hch
      exact ⟨_, List.mem_append_right _ List.mem_cons_self, by simp; omega⟩
  · have hj' := hquiet j
    rw [show Function.update w.threads i (.returned r) j = .closing rest from hj] at hj'
    cases hj'
  · have hj' := hquiet j
    rw [show Function.update w.threads i (.returned r) j = .returned .closed from hj] at hj'
    cases hj'

/-- The thread that closes the bus takes the subscriptions over. -/
theorem Tended.of_begun (h : w.Tended) (hopen : w.bus.closed = false) (i : Nat) :
    Tended ⟨{ w.bus with closed := true }, Function.update w.threads i (.closing w.bus.subs)⟩ := by
  refine ⟨fun ch hch hc => .inr ⟨rfl, i, w.bus.subs, Function.update_self .., ?_⟩,
    fun _ _ _ => rfl, fun j hj => ?_⟩
  · rcases h.care ch hch hc with ⟨-, hmem⟩ | ⟨hbus, -⟩
    · exact hmem
    · exact absurd (hbus.symm.trans hopen) (by simp)
  · by_cases hji : j = i
    · rw [hji] at hj
      cases (Function.update_self ..).symm.trans hj
    · have hwas : w.threads j = .returned .closed := (Function.update_of_ne hji _ _).symm.trans hj
      exact absurd ((h.returned j hwas).closed.symm.trans hopen) (by simp)

/-- The thread that closes the bus closes the channel of the next subscription. -/
theorem Tended.of_closing (h : w.Tended) (hlock : w.LockHeld) {i : Nat} {s : Subscription}
    {rest : List Subscription} (hpc : w.threads i = .closing (s :: rest)) :
    Tended ⟨w.bus.setChan s.ch (w.bus.chan s.ch).close,
      Function.update w.threads i (.closing rest)⟩ := by
  have hclosed := h.closing i _ hpc
  refine ⟨fun ch hch hc => .inr ⟨hclosed, i, rest, Function.update_self .., ?_⟩,
    fun _ _ _ => hclosed, fun j hj => ?_⟩
  · have hlt : ch < w.bus.channels.length := hch.trans_eq List.length_set
    have hne : ch ≠ s.ch := by
      rintro rfl
      rw [Bus.chan_setChan_self hlt] at hc
      cases hc
    rw [Bus.chan_setChan_ne hne.symm] at hc
    rcases h.care ch hlt hc with ⟨hbus, -⟩ | ⟨-, j, rest', hj, t, ht, heq⟩
    · exact absurd (hclosed.symm.trans hbus) (by simp)
    · obtain rfl := Tended.closing_eq hlock (by rw [hpc]; rfl) hj
      obtain rfl := Pc.closing.inj (hpc.symm.trans hj)
      rcases List.mem_cons.mp ht with rfl | ht
      · exact absurd heq.symm hne
      · exact ⟨t, ht, heq⟩
  · by_cases hji : j = i
    · rw [hji] at hj
      cases (Function.update_self ..).symm.trans hj
    · have hwas : w.threads j = .returned .closed := (Function.update_of_ne hji _ _).symm.trans hj
      exact ((h.returned j hwas).of_teardown (.closing s rest)).1

/-- Steps of one thread keep the channels tended. -/
theorem Tended.of_teardown (h : w.Tended) (hlock : w.LockHeld) {i : Nat} {b : Bus} {pc : Pc}
    (ht : w.bus.Teardown (w.threads i) b pc) : Tended ⟨b, Function.update w.threads i pc⟩ := by
  generalize hpc : w.threads i = pc₀ at ht
  cases ht with
  | other hfrom hto hclosed hsubs hlen hopen =>
    refine h.of_other (fun j rest => ?_) (fun j hj => ?_) hclosed hsubs hlen hopen
    · by_cases hj : j = i
      · subst hj
        rw [Function.update_self, hpc]
        constructor
        · rintro rfl
          cases hto
        · rintro rfl
          cases hfrom
      · rw [Function.update_of_ne hj]
    · by_cases hji : j = i
      · subst hji
        obtain rfl := (Function.update_self ..).symm.trans hj
        cases hto
      · rwa [Function.update_of_ne hji] at hj
  | subscribed hopen hr => exact h.of_subscribed hopen hr _ _ _
  | begun hopen => exact h.of_begun hopen i
  | again hclosed =>
    have hshut := h.all_closed hlock hclosed (by rw [hpc]; rfl) (by simp [hpc])
    refine .of_shut ?_ _
    exact ⟨hshut.closed, hshut.channels⟩
  | closing s rest => exact h.of_closing hlock hpc
  | done =>
    have hshut := h.all_closed hlock (h.closing i [] hpc) (by rw [hpc]; rfl) (by simp [hpc])
    refine .of_shut ?_ _
    exact ⟨hshut.closed, hshut.channels⟩

/-- The beginning of a call closes nothing. -/
theorem teardown_begin (b : Bus) (c : Call) {pc : Pc} (hq : pc.quiet = true) :
    b.Teardown pc (c.begin b).1 (c.begin b).2 := by
  have hfrom : pc.closes = false := by
    cases pc with
    | closing rest => cases hq
    | _ => rfl
  cases c with
  | send f =>
    unfold Call.begin
    dsimp only
    split
    · exact .other hfrom rfl rfl rfl rfl fun _ => id
    · exact .other hfrom rfl rfl rfl rfl fun _ => id
  | subscribe filters opts => exact .other hfrom rfl rfl rfl rfl fun _ => id
  | close => exact .other hfrom rfl rfl rfl rfl fun _ => id
  | recv ch => exact .other hfrom rfl rfl rfl rfl fun _ => id

/-- Every event is a step of one thread on the way to a closed bus. -/
theorem teardown_of_event {e : Event} (he : w.step e = some w') :
    ∃ i pc, w'.threads = Function.update w.threads i pc ∧
      w.bus.Teardown (w.threads i) w'.bus pc := by
  cases e with
  | begin i c =>
    simp only [World.step] at he
    split at he
    · rename_i hq
      obtain rfl := Option.some.inj he
      exact ⟨i, _, rfl, teardown_begin w.bus c hq⟩
    · cases he
  | advance i =>
    obtain ⟨⟨b, pc⟩, hstep, rfl⟩ := Option.map_eq_some_iff.mp he
    exact ⟨i, pc, rfl, Bus.teardown_of_step hstep⟩

/-- Every event keeps the channels tended. -/
theorem Tended.step (h : w.Tended) (hlock : w.LockHeld) {e : Event} (he : w.step e = some w') :
    w'.Tended := by
  obtain ⟨i, pc, hthreads, ht⟩ := teardown_of_event he
  have htended := h.of_teardown hlock ht
  rwa [← hthreads] at htended

end World

end CppCan.Virt
