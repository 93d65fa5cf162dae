import CppCan.Can.Operations
import CppCan.Virt.Close

/-!
# What the calls of a bus do to its channels

Apart from `subscribe`, which adds a channel, a step of a call performs at most one
operation on one channel. Every subscription a call works on has its channel.
-/

namespace CppCan.Virt

open CppCan.Core CppCan.Relay Chan

/-- The operation by which a fan-out puts something into the subscription's channel. -/
def Subscription.push {α : Type} (s : Subscription) (value : α) : Op α :=
  match s.backPressure with
  | .dropNewest => .trySend value
  | .dropOldest => .sendDropOldest value
  | .block => .send value

/-- The operation the next step of a call performs, and on which channel. -/
def Pc.op : Pc → Option (Nat × Op Frame)
  | .fanOut f (s :: _) => if matchesAny s.filters f then some (s.ch, s.push f) else none
  | .closing (s :: _) => some (s.ch, .close)
  | .recv ch => some (ch, .recv)
  | _ => none

/-- The subscriptions a call has still to work on. -/
def Pc.rest : Pc → List Subscription
  | .fanOut _ rest | .closing rest => rest
  | _ => []

namespace Bus

variable {b b' : Bus} {i : Nat} {pc pc' : Pc} {s : Subscription} {f : Frame}

/-- How a step changes the channels. -/
inductive ChannelStep (b : Bus) : Pc → Bus → Prop
  | keep {pc : Pc} {b' : Bus} (hop : pc.op = none) (hch : b'.channels = b.channels) :
      ChannelStep b pc b'
  | perform {pc : Pc} {b' : Bus} {j : Nat} {op : Op Frame} {c : Chan Frame} {reply : Reply Frame}
      (hop : pc.op = some (j, op)) (hc : (b.chan j).perform op = some (c, reply))
      (hch : b'.channels = b.channels.set j c) : ChannelStep b pc b'
  | add {pc : Pc} {b' : Bus} {capacity : Nat} (hop : pc.op = none)
      (hch : b'.channels = b.channels ++ [{ capacity := capacity }]) : ChannelStep b pc b'

/-- Only the channel that is replaced changes. -/
theorem chan_of_set {ch j : Nat} {c : Chan Frame} (hset : b'.channels = b.channels.set j c)
    (hj : j < b.channels.length) : b'.chan ch = if ch = j then c else b.chan ch := by
  have heq : b'.chan ch = (b.setChan j c).chan ch := by rw [chan, hset]; rfl
  rw [heq]
  by_cases hch : ch = j
  · rw [if_pos hch, hch, chan_setChan_self hj]
  · rw [if_neg hch, chan_setChan_ne (Ne.symm hch)]

/-- A channel that is replaced need not exist. -/
theorem chan_eq_or_of_set {j : Nat} {c : Chan Frame}
    (hset : b'.channels = b.channels.set j c) (ch : Nat) :
    b'.chan ch = b.chan ch ∨ ch = j ∧ b'.chan ch = c := by
  by_cases hj : j < b.channels.length
  · rw [chan_of_set hset hj]
    split_ifs with hch
    · exact .inr ⟨hch, rfl⟩
    · exact .inl rfl
  · left
    rw [chan, chan, hset, List.set_eq_of_length_le (by omega)]

/-- A round of the fan-out performs its push. -/
theorem deliver_perform (h : b.deliver s f = some b') :
    if matchesAny s.filters f then
      ∃ c reply, (b.chan s.ch).perform (s.push f) = some (c, reply) ∧
        b'.channels = b.channels.set s.ch c
    else b' = b := by
  unfold deliver at h
  by_cases hmatch : matchesAny s.filters f = true
  · rw [if_pos hmatch]
    rw [if_neg (by simp [hmatch])] at h
    unfold Subscription.push
    cases hpolicy : s.backPressure with
    | dropNewest =>
      simp only [hpolicy] at h ⊢
      refine ⟨_, _, rfl, ?_⟩
      split at h
      · exact Option.some.inj h ▸ rfl
      · exact Option.some.inj h ▸ rfl
      · exact Option.some.inj h ▸ rfl
    | dropOldest =>
      simp only [hpolicy] at h ⊢
      exact ⟨_, _, rfl, Option.some.inj h ▸ rfl⟩
    | block =>
      simp only [hpolicy] at h ⊢
      obtain ⟨⟨c, ok⟩, hsend, rfl⟩ := Option.map_eq_some_iff.mp h
      exact ⟨c, .sent ok, by simp [perform, hsend], rfl⟩
  · rw [if_neg hmatch]
    rw [if_pos (by simpa using hmatch)] at h
    exact (Option.some.inj h).symm

/-- A round of the fan-out leaves the list of subscriptions alone. -/
theorem deliver_subs (h : b.deliver s f = some b') : b'.subs = b.subs := by
  unfold deliver at h
  split at h
  · exact Option.some.inj h ▸ rfl
  · split at h
    · dsimp only at h
      split at h
      · exact Option.some.inj h ▸ rfl
      · exact Option.some.inj h ▸ rfl
      · exact Option.some.inj h ▸ rfl
    · exact Option.some.inj h ▸ rfl
    · obtain ⟨⟨c, ok⟩, -, rfl⟩ := Option.map_eq_some_iff.mp h
      rfl

/-- A round of the fan-out leaves everything but its channel and the counters alone. -/
theorem deliver_keeps (h : b.deliver s f = some b') :
    b'.closed = b.closed ∧ b'.channels.length = b.channels.length := by
  unfold deliver at h
  split at h
  · exact Option.some.inj h ▸ ⟨rfl, rfl⟩
  · split at h
    · dsimp only at h
      split at h
      · exact Option.some.inj h ▸ ⟨rfl, List.length_set⟩
      · exact Option.some.inj h ▸ ⟨rfl, List.length_set⟩
      · exact Option.some.inj h ▸ ⟨rfl, List.length_set⟩
    · exact Option.some.inj h ▸ ⟨rfl, List.length_set⟩
    · obtain ⟨⟨c, ok⟩, -, rfl⟩ := Option.map_eq_some_iff.mp h
      exact ⟨rfl, List.length_set⟩

/-- Every step of a call changes the channels in one of these ways. -/
theorem channelStep_of_step (h : b.step i pc = some (b', pc')) : b.ChannelStep pc b' := by
  cases outcome_of_step h with
  | sendLocked hmu => exact .keep rfl rfl
  | sendRefused hclosed => exact .keep rfl rfl
  | sendAccepted hopen => exact .keep rfl rfl
  | sendDone => exact .keep rfl rfl
  | @delivered f s rest b' hdeliver =>
    have hperform := deliver_perform hdeliver
    by_cases hmatch : matchesAny s.filters f = true
    · rw [if_pos hmatch] at hperform
      obtain ⟨c, reply, hc, hch⟩ := hperform
      exact .perform (by rw [Pc.op, if_pos hmatch]) hc hch
    · rw [if_neg hmatch] at hperform
      exact .keep (by rw [Pc.op, if_neg hmatch]) (hperform ▸ rfl)
  | subscribeLocked hmu => exact .keep rfl rfl
  | subscribeRefused hclosed => exact .keep rfl rfl
  | subscribed hopen => exact .add rfl rfl
  | closeLocked hmu => exact .keep rfl rfl
  | closeAgain hclosed => exact .keep rfl rfl
  | closeBegun hopen => exact .keep rfl rfl
  | closeDone => exact .keep rfl rfl
  | closeNext => exact .perform rfl rfl rfl
  | @received ch c v hrecv =>
    have hc : (b.chan ch).perform .recv = some (c, .received v) := by
      rw [Chan.perform, hrecv]
      rfl
    exact .perform rfl hc rfl

/-- No channel is taken away. -/
theorem ChannelStep.length_le (h : b.ChannelStep pc b') :
    b.channels.length ≤ b'.channels.length := by
  cases h with
  | keep _ hch => rw [hch]
  | perform _ _ hch => rw [hch, List.length_set]
  | add _ hch => simp [hch]

/-- A step leaves subscriptions where they are, except that `subscribe` adds one with
its channel, and a call works on what it has before it or on those present. -/
theorem subs_of_step (h : b.step i pc = some (b', pc')) :
    (∀ s ∈ b'.subs, s ∈ b.subs ∨ s.ch < b'.channels.length) ∧
      ∀ s ∈ pc'.rest, s ∈ pc.rest ∨ s ∈ b.subs := by
  cases outcome_of_step h with
  | sendLocked hmu => exact ⟨fun _ => .inl, fun _ hs => absurd hs List.not_mem_nil⟩
  | sendRefused hclosed => exact ⟨fun _ => .inl, fun _ hs => absurd hs List.not_mem_nil⟩
  | sendAccepted hopen => exact ⟨fun _ => .inl, fun _ => .inr⟩
  | sendDone => exact ⟨fun _ => .inl, fun _ hs => absurd hs List.not_mem_nil⟩
  | @delivered f s rest b' hdeliver =>
    rw [deliver_subs hdeliver]
    exact ⟨fun _ => .inl, fun _ hs => .inl (List.mem_cons_of_mem s hs)⟩
  | subscribeLocked hmu => exact ⟨fun _ => .inl, fun _ hs => absurd hs List.not_mem_nil⟩
  | subscribeRefused hclosed => exact ⟨fun _ => .inl, fun _ hs => absurd hs List.not_mem_nil⟩
  | subscribed hopen =>
    refine ⟨fun s hs => ?_, fun _ hs => absurd hs List.not_mem_nil⟩
    rcases List.mem_append.mp hs with hs | hs
    · exact .inl hs
    · obtain rfl := List.mem_singleton.mp hs
      exact .inr (by simp [addSubscription])
  | closeLocked hmu => exact ⟨fun _ => .inl, fun _ hs => absurd hs List.not_mem_nil⟩
  | closeAgain hclosed => exact ⟨fun _ => .inl, fun _ hs => absurd hs List.not_mem_nil⟩
  | closeBegun hopen => exact ⟨fun _ => .inl, fun _ => .inr⟩
  | closeDone =>
    exact ⟨fun _ hs => absurd hs List.not_mem_nil, fun _ hs => absurd hs List.not_mem_nil⟩
  | @closeNext s rest => exact ⟨fun _ => .inl, fun _ hs => .inl (List.mem_cons_of_mem s hs)⟩
  | received hrecv => exact ⟨fun _ => .inl, fun _ hs => absurd hs List.not_mem_nil⟩

end Bus

/-- The thread is in no call or in `send`. -/
def Pc.inSend : Pc → Bool
  | .idle | .sendLock _ | .sendCheck _ | .fanOut _ _ | .returned _ => true
  | _ => false

/-- A step of `send` stays in `send` and leaves the list of subscriptions alone. -/
theorem Bus.inSend_of_step {b b' : Bus} {i : Nat} {pc pc' : Pc}
    (h : b.step i pc = some (b', pc')) (hpc : pc.inSend = true) :
    pc'.inSend = true ∧ b'.subs = b.subs := by
  cases Bus.outcome_of_step h with
  | sendLocked hmu => exact ⟨rfl, rfl⟩
  | sendRefused hclosed => exact ⟨rfl, rfl⟩
  | sendAccepted hopen => exact ⟨rfl, rfl⟩
  | sendDone => exact ⟨rfl, rfl⟩
  | delivered hdeliver => exact ⟨rfl, deliver_subs hdeliver⟩
  | _ => cases hpc

namespace World

variable {w w' : World} {e : Event} {es : List Event}

/-- The subscriptions present and those the calls work on have all their channels. -/
structure Wired (w : World) : Prop where
  subs : ∀ s ∈ w.bus.subs, s.ch < w.bus.channels.length
  rest : ∀ i, ∀ s ∈ (w.threads i).rest, s.ch < w.bus.channels.length

/-- A call begins with nothing to work on and leaves subscriptions and channels alone. -/
theorem begin_wired (b : Bus) (c : Call) : (c.begin b).1.subs = b.subs ∧
    (c.begin b).1.channels = b.channels ∧ (c.begin b).2.rest = [] := by
  cases c with
  | send f =>
    unfold Call.begin
    dsimp only
    split <;> exact ⟨rfl, rfl, rfl⟩
  | _ => exact ⟨rfl, rfl, rfl⟩

/-- Every event keeps the wiring. -/
theorem Wired.step (h : w.Wired) (he : w.step e = some w') : w'.Wired := by
  cases e with
  | begin i c =>
    simp only [World.step] at he
    split at he
    · obtain rfl := Option.some.inj he
      obtain ⟨hsubs, hch, hrest⟩ := begin_wired w.bus c
      refine ⟨by simpa only [hsubs, hch] using h.subs, fun j => ?_⟩
      simp only [hch]
      by_cases hj : j = i
      · subst hj
        simp [hrest]
      · simpa only [Function.update_of_ne hj] using h.rest j
    · cases he
  | advance i =>
    obtain ⟨⟨b, pc⟩, hstep, rfl⟩ := Option.map_eq_some_iff.mp he
    have hle := (Bus.channelStep_of_step hstep).length_le
    obtain ⟨hsubs, hrest⟩ := Bus.subs_of_step hstep
    constructor
    · intro s hs
      rcases hsubs s hs with hs | hs
      · exact Nat.lt_of_lt_of_le (h.subs s hs) hle
      · exact hs
    · intro j
      by_cases hj : j = i
      · subst hj
        simp only [Function.update_self]
        intro s hs
        rcases hrest s hs with hs | hs
        · exact Nat.lt_of_lt_of_le (h.rest j s hs) hle
        · exact Nat.lt_of_lt_of_le (h.subs s hs) hle
      · simp only [Function.update_of_ne hj]
        exact fun s hs => Nat.lt_of_lt_of_le (h.rest j s hs) hle

/-- The channel a step works on exists. -/
theorem Wired.op_lt (h : w.Wired) {i j : Nat} {op : Op Frame} {c : Chan Frame}
    {reply : Reply Frame} (hop : (w.threads i).op = some (j, op))
    (hc : (w.bus.chan j).perform op = some (c, reply)) : j < w.bus.channels.length := by
  have hrest := h.rest i
  revert hop hrest
  generalize w.threads i = pc
  intro hop hrest
  cases pc with
  | fanOut f rest =>
    cases rest with
    | nil => cases hop
    | cons s rest =>
      simp only [Pc.op] at hop
      split at hop
      · obtain ⟨rfl, -⟩ := Prod.mk.inj (Option.some.inj hop)
        exact hrest s List.mem_cons_self
      · cases hop
  | closing rest =>
    cases rest with
    | nil => cases hop
    | cons s rest =>
      obtain ⟨rfl, -⟩ := Prod.mk.inj (Option.some.inj hop)
      exact hrest s List.mem_cons_self
  | recv ch =>
    obtain ⟨rfl, rfl⟩ := Prod.mk.inj (Option.some.inj hop)
    -- Nothing can be received from a channel that does not exist.
    by_contra hlt
    have hnone : w.bus.chan ch = {} := by
      rw [Bus.chan, List.getD_eq_getElem?_getD, List.getElem?_eq_none (Nat.not_lt.mp hlt)]
      rfl
    rw [hnone] at hc
    cases hc
  | _ => cases hop

end World

end CppCan.Virt
