import CppCan.Virt.Bus

/-!
# Calls without interference

A call that no other thread comes between is one transition of the bus. These
transitions are what the steps of the call amount to.
-/

namespace CppCan.Virt

open CppCan.Core CppCan.Relay

namespace Bus

/-- A whole fan-out; without a result it would have to wait. -/
def fanOut (b : Bus) (f : Frame) (subs : List Subscription) : Option Bus :=
  subs.foldlM (fun (b : Bus) s => b.deliver s f) b

/-- A whole `send`; without a result it would have to wait. -/
def send (b : Bus) (f : Frame) : Option (Bus × Option ErrorCode) :=
  match validateFrame f with
  | .error _ => some (b.countError, some (.relay .payloadTooLarge))
  | .ok _ =>
    if b.closed then some (b.countError, some (.relay .closed))
    else ((b.countWrite f).fanOut f b.subs).map fun b => (b, none)

/-- A whole `subscribe`. -/
def subscribe (b : Bus) (filters : List Filter) (opts : List SubscriberOption) :
    Bus × Except ErrorCode Nat :=
  if b.closed then (b, .error (.relay .closed))
  else
    let (b, ch) := b.addSubscription filters (applyOptions opts)
    (b, .ok ch)

/-- Close the channels of these subscriptions. -/
def closeChannels (b : Bus) (subs : List Subscription) : Bus :=
  subs.foldl (fun b s => b.setChan s.ch (b.chan s.ch).close) b

/-- A whole `close`. -/
def close (b : Bus) : Bus :=
  if b.closed then b
  else { Bus.closeChannels { b with closed := true } b.subs with subs := [] }

/-- Thread `i` takes its call to the end with no other thread in between. -/
inductive Completes (i : Nat) : Bus → Pc → Bus → Result → Prop
  | done {b : Bus} {r : Result} : Completes i b (.returned r) b r
  | step {b b' b'' : Bus} {pc pc' : Pc} {r : Result} (h : b.step i pc = some (b', pc'))
      (hrest : Completes i b' pc' b'' r) : Completes i b pc b'' r

variable {b b' : Bus} {i : Nat} {f : Frame} {s : Subscription} {mu : RwLock}

/-- The fan-out does not look at the lock. -/
theorem deliver_withMu (h : b.deliver s f = some b') :
    Bus.deliver { b with mu := mu } s f = some { b' with mu := mu } := by
  obtain ⟨filters, ch, policy⟩ := s
  simp only [deliver, chan] at h ⊢
  split at h
  · rename_i hm
    obtain rfl := Option.some.inj h
    rw [if_pos hm]
  · rename_i hm
    rw [if_neg hm]
    cases policy with
    | dropNewest =>
      simp only at h ⊢
      split at h <;> obtain rfl := Option.some.inj h <;> rfl
    | dropOldest =>
      obtain rfl := Option.some.inj h
      rfl
    | block =>
      obtain ⟨⟨c, ok⟩, hs, rfl⟩ := Option.map_eq_some_iff.mp h
      simp only [hs]
      rfl

/-- The whole fan-out leaves the lock alone. -/
theorem fanOut_mu {subs : List Subscription}
    (h : b.fanOut f subs = some b') : b'.mu = b.mu := by
  induction subs generalizing b with
  | nil => exact Option.some.inj h ▸ rfl
  | cons s subs ih =>
    rw [fanOut, List.foldlM_cons] at h
    obtain ⟨b₁, hb, hrest⟩ := Option.bind_eq_some_iff.mp h
    rw [ih hrest, deliver_mu hb]

/-- The fan-out under the shared lock, and its release. -/
theorem completes_fanOut {subs : List Subscription}
    (h : b.fanOut f subs = some b') :
    Completes i { b with mu := mu } (.fanOut f subs) { b' with mu := mu.unlockShared i }
      (.sent none) := by
  induction subs generalizing b with
  | nil =>
    obtain rfl := Option.some.inj h
    exact .step rfl .done
  | cons s subs ih =>
    rw [fanOut, List.foldlM_cons] at h
    obtain ⟨b₁, hb, hrest⟩ := Option.bind_eq_some_iff.mp h
    have hstep : Bus.step { b with mu := mu } i (.fanOut f (s :: subs)) =
        some ({ b₁ with mu := mu }, .fanOut f subs) := by
      simp only [step, deliver_withMu hb, Option.map_some]
    exact .step hstep (ih hrest)

/-- Taking and releasing the shared lock leaves it as it was. -/
theorem unlockShared_lockShared (h : mu.writer = none) (hi : i ∉ mu.readers) :
    ∃ mu', mu.lockShared i = some mu' ∧ mu'.unlockShared i = mu := by
  have hkeep : (i :: mu.readers).filter (· ≠ i) = mu.readers := by
    rw [List.filter_cons_of_neg (by simp), List.filter_eq_self]
    intro j hj
    have hne : j ≠ i := fun he => hi (he ▸ hj)
    simpa using hne
  refine ⟨{ mu with readers := i :: mu.readers }, by simp [RwLock.lockShared, h], ?_⟩
  rw [RwLock.unlockShared, hkeep]

/-- A `send` that meets no other thread and need not wait is this transition. -/
theorem completes_send {err : Option ErrorCode} (hw : b.mu.writer = none) (hi : i ∉ b.mu.readers)
    (h : b.send f = some (b', err)) :
    Completes i ((Call.send f).begin b).1 ((Call.send f).begin b).2 b' (.sent err) := by
  simp only [send] at h
  simp only [Call.begin]
  cases hv : validateFrame f with
  | error e =>
    simp only [hv, Option.some.injEq, Prod.mk.injEq] at h
    obtain ⟨rfl, rfl⟩ := h
    exact .done
  | ok u =>
    simp only [hv] at h
    obtain ⟨mu, hlock, hunlock⟩ := unlockShared_lockShared hw hi
    have hstep : b.step i (.sendLock f) = some ({ b with mu := mu }, .sendCheck f) := by
      simp only [step, hlock, Option.map_some]
    refine .step hstep ?_
    by_cases hc : b.closed = true
    · rw [if_pos hc] at h
      obtain ⟨rfl, rfl⟩ := Prod.mk.inj (Option.some.inj h)
      have hcheck : Bus.step { b with mu := mu } i (.sendCheck f) =
          some (b.countError, .returned (.sent (some (.relay .closed)))) := by
        show (if b.closed = true then _ else _) = _
        rw [if_pos hc, hunlock]
        rfl
      exact .step hcheck .done
    · rw [if_neg hc] at h
      obtain ⟨b₁, hb, heq⟩ := Option.map_eq_some_iff.mp h
      obtain ⟨rfl, rfl⟩ := Prod.mk.inj heq
      have hcheck : Bus.step { b with mu := mu } i (.sendCheck f) =
          some ({ b.countWrite f with mu := mu }, .fanOut f b.subs) := by
        show (if b.closed = true then _ else _) = _
        rw [if_neg hc]
        rfl
      have hend : Completes i { b.countWrite f with mu := mu } (.fanOut f b.subs)
          { b₁ with mu := mu.unlockShared i } (.sent none) := completes_fanOut hb
      rw [hunlock, show b.mu = b₁.mu from (fanOut_mu hb).symm] at hend
      exact .step hcheck hend

/-- Taking and releasing the unique lock leaves it as it was. -/
theorem unlockUnique_lockUnique (hw : mu.writer = none) (hr : mu.readers = []) (i : Nat) :
    ∃ mu', mu.lockUnique i = some mu' ∧ mu'.unlockUnique = mu := by
  refine ⟨{ mu with writer := some i }, by simp [RwLock.lockUnique, hw, hr], ?_⟩
  rw [RwLock.unlockUnique, ← hw]

/-- A `subscribe` that meets no other thread is this transition. -/
theorem completes_subscribe (hw : b.mu.writer = none) (hr : b.mu.readers = [])
    (filters : List Filter) (opts : List SubscriberOption) :
    Completes i ((Call.subscribe filters opts).begin b).1 ((Call.subscribe filters opts).begin b).2
      (b.subscribe filters opts).1 (.subscribed (b.subscribe filters opts).2) := by
  obtain ⟨mu, hlock, hunlock⟩ := unlockUnique_lockUnique hw hr i
  have hstep : b.step i (.subscribeLock filters (applyOptions opts)) =
      some ({ b with mu := mu }, .subscribeHeld filters (applyOptions opts)) := by
    simp only [step, hlock, Option.map_some]
  refine .step hstep (.step ?_ .done)
  unfold subscribe
  show (if b.closed = true then _ else _) = _
  split_ifs
  · rw [hunlock]
  · simp only [addSubscription, hunlock]

theorem closeChannels_mu (b : Bus) (subs : List Subscription) :
    (b.closeChannels subs).mu = b.mu := by
  induction subs generalizing b with
  | nil => rfl
  | cons s subs ih => exact ih (b.setChan s.ch (b.chan s.ch).close)

/-- Closing the channels under the unique lock, and its release. -/
theorem completes_closing (subs : List Subscription) :
    Completes i { b with mu := mu } (.closing subs)
      { b.closeChannels subs with subs := [], mu := mu.unlockUnique } .closed := by
  induction subs generalizing b with
  | nil => exact .step rfl .done
  | cons s subs ih => exact .step rfl (ih (b := b.setChan s.ch (b.chan s.ch).close))

/-- A `close` that meets no other thread is this transition. -/
theorem completes_close (hw : b.mu.writer = none) (hr : b.mu.readers = []) :
    Completes i (Call.close.begin b).1 (Call.close.begin b).2 b.close .closed := by
  obtain ⟨mu, hlock, hunlock⟩ := unlockUnique_lockUnique hw hr i
  have hstep : b.step i .closeLock = some ({ b with mu := mu }, .closeHeld) := by
    simp only [step, hlock, Option.map_some]
  refine .step hstep ?_
  unfold close
  split_ifs with hc
  · have hheld : Bus.step { b with mu := mu } i .closeHeld = some (b, .returned .closed) := by
      show (if b.closed = true then _ else _) = _
      rw [if_pos hc, hunlock]
    exact .step hheld .done
  · have hheld : Bus.step { b with mu := mu } i .closeHeld =
        some ({ b with closed := true, mu := mu }, .closing b.subs) := by
      show (if b.closed = true then _ else _) = _
      rw [if_neg hc]
    have hrest := @completes_closing { b with closed := true } i mu b.subs
    have hmu : (Bus.closeChannels { b with closed := true } b.subs).mu = mu.unlockUnique := by
      rw [closeChannels_mu, hunlock]
    rw [← hmu] at hrest
    exact .step hheld hrest

end Bus

end CppCan.Virt
