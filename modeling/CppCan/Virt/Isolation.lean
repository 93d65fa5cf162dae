import CppCan.Core.Runs
import CppCan.Virt.Calls
import CppCan.Virt.Channels

/-!
# Subscribers do not see each other

One subscriber uses a bus that others use as well. What it sees of the bus is whether it
is closed, and its own subscriptions with their channels. Frames that are sent change this
view in the same way whoever else is subscribed, and what the others do does not change it.
-/

namespace CppCan.Virt

open CppCan.Core CppCan.Relay Chan

/-- What the subscriber's calls return. -/
inductive Answer where
  | subscribed (err : Option ErrorCode)
  | replied (reply : Reply Frame)
  deriving DecidableEq, Repr

/-- A bus with the channels that the subscriber has been handed and what its calls have
returned. -/
structure Audience where
  bus : Bus := {}
  own : List Nat := []
  answers : List Answer := []

namespace Audience

/-- Calls of the senders, of the subscriber, which uses its channels by the order in which
it got them, and of other subscribers. -/
inductive Event where
  | send (f : Frame)
  | close
  | subscribe (filters : List Filter) (opts : List SubscriberOption)
  | perform (k : Nat) (op : Op Frame)
  | otherSubscribe (filters : List Filter) (opts : List SubscriberOption)
  | otherPerform (ch : Nat) (op : Op Frame)

/-- The call is made by a sender or by the subscriber. -/
def Event.visible : Event → Bool
  | .otherSubscribe _ _ | .otherPerform _ _ => false
  | _ => true

/-- The state after a call, if it need not wait. -/
def step (w : Audience) : Event → Option Audience
  | .send f => (w.bus.send f).map fun (bus, _) => { w with bus := bus }
  | .close => some { w with bus := w.bus.close }
  | .subscribe filters opts =>
    match w.bus.subscribe filters opts with
    | (bus, .ok ch) =>
      some { bus := bus, own := w.own ++ [ch], answers := w.answers ++ [.subscribed none] }
    | (bus, .error err) =>
      some { w with bus := bus, answers := w.answers ++ [.subscribed (some err)] }
  | .perform k op =>
    (w.own[k]?).bind fun ch => ((w.bus.chan ch).perform op).map fun (c, reply) =>
      { w with bus := w.bus.setChan ch c, answers := w.answers ++ [.replied reply] }
  | .otherSubscribe filters opts => some { w with bus := (w.bus.subscribe filters opts).1 }
  | .otherPerform ch op =>
    if ch ∈ w.own then none
    else ((w.bus.chan ch).perform op).map fun (c, _) => { w with bus := w.bus.setChan ch c }

end Audience

/-- A subscription of the subscriber with its channel. -/
structure Slot where
  filters : List Filter
  backPressure : BackPressurePolicy
  chan : Chan Frame

/-- The subscription whose channel has this index. -/
def Slot.subscription (s : Slot) (ch : Nat) : Subscription := ⟨s.filters, ch, s.backPressure⟩

/-- A frame comes to the subscription. -/
def Slot.push (s : Slot) (f : Frame) : Option Slot :=
  if matchesAny s.filters f then
    (s.chan.perform ((s.subscription 0).push f)).map fun (c, _) => { s with chan := c }
  else some s

/-- The bus as the subscriber sees it. -/
structure View where
  closed : Bool := false
  slots : List Slot := []
  answers : List Answer := []

namespace View

/-- The view after a call that the subscriber sees. -/
def step (v : View) : Audience.Event → Option View
  | .send f =>
    match validateFrame f with
    | .error _ => some v
    | .ok _ =>
      if v.closed then some v
      else (v.slots.mapM fun s : Slot => s.push f).map fun slots => { v with slots := slots }
  | .close =>
    if v.closed then some v
    else some { v with
      closed := true, slots := v.slots.map fun s => { s with chan := s.chan.close } }
  | .subscribe filters opts =>
    if v.closed then some { v with answers := v.answers ++ [.subscribed (some (.relay .closed))] }
    else
      let cfg := applyOptions opts
      let slot : Slot := ⟨filters, cfg.backPressure,
        { capacity := (cfg.effectiveDepth kDefaultChanDepth).toNat }⟩
      some { v with slots := v.slots ++ [slot], answers := v.answers ++ [.subscribed none] }
  | .perform k op =>
    (v.slots[k]?).bind fun s => (s.chan.perform op).map fun (c, reply) =>
      { v with
        slots := v.slots.set k { s with chan := c }
        answers := v.answers ++ [.replied reply] }
  | _ => none

end View

namespace Bus

variable {b b' : Bus} {f : Frame} {subs : List Subscription}

/-- A round of the fan-out performs one push on its channel, if the frame matches. -/
theorem deliver_chan {s : Subscription} (h : b.deliver s f = some b')
    (hlt : s.ch < b.channels.length) :
    (if matchesAny s.filters f then
      ∃ reply, (b.chan s.ch).perform (s.push f) = some (b'.chan s.ch, reply)
    else b'.chan s.ch = b.chan s.ch) ∧ ∀ ch, ch ≠ s.ch → b'.chan ch = b.chan ch := by
  have hperform := deliver_perform h
  split at hperform
  · rename_i hmatch
    obtain ⟨c, reply, hc, hset⟩ := hperform
    rw [if_pos hmatch]
    refine ⟨⟨reply, ?_⟩, fun ch hch => ?_⟩
    · rw [chan_of_set hset hlt, if_pos rfl, hc]
    · rw [chan_of_set hset hlt, if_neg hch]
  · rename_i hmatch
    rw [if_neg hmatch, hperform]
    exact ⟨rfl, fun _ _ => rfl⟩

/-- The fan-out neither adds nor removes channels or subscriptions. -/
theorem fanOut_keeps (h : b.fanOut f subs = some b') : b'.subs = b.subs ∧ b'.closed = b.closed ∧
    b'.channels.length = b.channels.length := by
  induction subs generalizing b with
  | nil => exact Option.some.inj h ▸ ⟨rfl, rfl, rfl⟩
  | cons s subs ih =>
    rw [fanOut, List.foldlM_cons] at h
    obtain ⟨b₁, hb, hrest⟩ := Option.bind_eq_some_iff.mp h
    obtain ⟨hsubs, hclosed, hlen⟩ := ih hrest
    obtain ⟨hclosed', hlen'⟩ := deliver_keeps hb
    exact ⟨hsubs.trans (deliver_subs hb), hclosed.trans hclosed', hlen.trans hlen'⟩

/-- The fan-out does not touch other channels. -/
theorem fanOut_chan_of_not_mem (h : b.fanOut f subs = some b')
    (hlt : ∀ s ∈ subs, s.ch < b.channels.length) {ch : Nat} (hch : ch ∉ subs.map (·.ch)) :
    b'.chan ch = b.chan ch := by
  induction subs generalizing b with
  | nil => exact Option.some.inj h ▸ rfl
  | cons s subs ih =>
    rw [fanOut, List.foldlM_cons] at h
    obtain ⟨b₁, hb, hrest⟩ := Option.bind_eq_some_iff.mp h
    obtain ⟨hs, hsubs⟩ := List.forall_mem_cons.mp hlt
    rw [List.map_cons, List.mem_cons, not_or] at hch
    rw [ih hrest (by rwa [(deliver_keeps hb).2]) hch.2, (deliver_chan hb hs).2 ch hch.1]

/-- The fan-out performs one push on the channel of a subscription, if the frame matches. -/
theorem fanOut_chan (h : b.fanOut f subs = some b') (hnodup : (subs.map (·.ch)).Nodup)
    (hlt : ∀ s ∈ subs, s.ch < b.channels.length) {s : Subscription} (hs : s ∈ subs) :
    if matchesAny s.filters f then
      ∃ reply, (b.chan s.ch).perform (s.push f) = some (b'.chan s.ch, reply)
    else b'.chan s.ch = b.chan s.ch := by
  induction subs generalizing b with
  | nil => cases hs
  | cons first subs ih =>
    rw [fanOut, List.foldlM_cons] at h
    obtain ⟨b₁, hb, hrest⟩ := Option.bind_eq_some_iff.mp h
    obtain ⟨hfirst, hsubs⟩ := List.forall_mem_cons.mp hlt
    rw [List.map_cons, List.nodup_cons] at hnodup
    have hlt' : ∀ s ∈ subs, s.ch < b₁.channels.length := by rwa [(deliver_keeps hb).2]
    rcases List.mem_cons.mp hs with rfl | hs
    · rw [fanOut_chan_of_not_mem hrest hlt' hnodup.1]
      exact (deliver_chan hb hfirst).1
    · have hne : s.ch ≠ first.ch := fun heq =>
        hnodup.1 (heq ▸ List.mem_map_of_mem hs)
      rw [← (deliver_chan hb hfirst).2 s.ch hne]
      exact ih hrest hnodup.2 hlt' hs

/-- The channels of these subscriptions are closed, the others stay as they are. -/
theorem closeChannels_chan {ch : Nat} (hlt : ∀ s ∈ subs, s.ch < b.channels.length) :
    (b.closeChannels subs).chan ch =
      if ch ∈ subs.map (·.ch) then (b.chan ch).close else b.chan ch := by
  induction subs generalizing b with
  | nil => rfl
  | cons s subs ih =>
    obtain ⟨hs, hsubs⟩ := List.forall_mem_cons.mp hlt
    have hlen : (b.setChan s.ch (b.chan s.ch).close).channels.length = b.channels.length :=
      List.length_set
    have hrest := ih (b := b.setChan s.ch (b.chan s.ch).close) (by rwa [hlen])
    rw [closeChannels, List.foldl_cons, ← closeChannels, hrest, List.map_cons]
    by_cases hch : ch = s.ch
    · subst hch
      rw [chan_setChan_self hs, if_pos (List.mem_cons_self (a := s.ch))]
      split_ifs <;> rfl
    · rw [chan_setChan_ne (Ne.symm hch)]
      simp [hch]

theorem closeChannels_keeps : (b.closeChannels subs).closed = b.closed ∧
    (b.closeChannels subs).channels.length = b.channels.length := by
  induction subs generalizing b with
  | nil => exact ⟨rfl, rfl⟩
  | cons s subs ih =>
    obtain ⟨hclosed, hlen⟩ := ih (b := b.setChan s.ch (b.chan s.ch).close)
    exact ⟨hclosed, hlen.trans List.length_set⟩

end Bus

/-- A channel of the bus is the one of the slot, and its subscription is there while the
bus is open. -/
structure Holds (b : Bus) (ch : Nat) (s : Slot) : Prop where
  chan : b.chan ch = s.chan
  inRange : ch < b.channels.length
  subscribed : b.closed = false → s.subscription ch ∈ b.subs

/-- The view is what the subscriber sees of the bus. -/
structure Shows (w : Audience) (v : View) : Prop where
  closed : w.bus.closed = v.closed
  slots : List.Forall₂ (Holds w.bus) w.own v.slots
  answers : w.answers = v.answers
  own : w.own.Nodup
  channels : (w.bus.subs.map (·.ch)).Nodup
  inRange : ∀ s ∈ w.bus.subs, s.ch < w.bus.channels.length

variable {w w' : Audience} {v : View} {b b' : Bus} {f : Frame} {ch : Nat} {s : Slot}

/-- The push into a slot is the push into its channel. -/
theorem Holds.push (h : Holds b ch s) (hopen : b.closed = false)
    (hchannels : (b.subs.map (·.ch)).Nodup) (hlt : ∀ s ∈ b.subs, s.ch < b.channels.length)
    (hfan : b.fanOut f b.subs = some b') :
    s.push f = some { s with chan := b'.chan ch } ∧ Holds b' ch { s with chan := b'.chan ch } := by
  have hpush := Bus.fanOut_chan hfan hchannels hlt (h.subscribed hopen)
  obtain ⟨hsubs, hclosed, hlen⟩ := Bus.fanOut_keeps hfan
  refine ⟨?_, rfl, hlen ▸ h.inRange, fun _ => hsubs ▸ h.subscribed hopen⟩
  unfold Slot.push
  change if matchesAny s.filters f then
    ∃ reply, (b.chan ch).perform ((s.subscription ch).push f) = some (b'.chan ch, reply)
    else b'.chan ch = b.chan ch at hpush
  split_ifs at hpush ⊢
  · obtain ⟨reply, hreply⟩ := hpush
    rw [h.chan] at hreply
    have hop : (s.subscription 0).push f = (s.subscription ch).push f := rfl
    rw [hop, hreply]
    rfl
  · rw [hpush, h.chan]

/-- All slots take a frame as their channels do. -/
theorem mapM_push {own : List Nat} {slots : List Slot} (h : List.Forall₂ (Holds b) own slots)
    (hopen : b.closed = false) (hchannels : (b.subs.map (·.ch)).Nodup)
    (hlt : ∀ s ∈ b.subs, s.ch < b.channels.length) (hfan : b.fanOut f b.subs = some b') :
    ∃ slots', (slots.mapM fun s : Slot => s.push f) = some slots' ∧
      List.Forall₂ (Holds b') own slots' := by
  induction h with
  | nil => exact ⟨[], rfl, .nil⟩
  | cons hs _ ih =>
    obtain ⟨slots', hslots', hrest⟩ := ih
    obtain ⟨hpush, hholds⟩ := hs.push hopen hchannels hlt hfan
    refine ⟨_ :: slots', ?_, .cons hholds hrest⟩
    rw [List.mapM_cons, hpush, hslots']
    rfl

/-- An operation on one channel leaves the slots of the others alone. -/
theorem Holds.setChan_ne {j : Nat} (h : Holds b ch s) (hne : ch ≠ j) (c : Chan Frame) :
    Holds (b.setChan j c) ch s := by
  refine ⟨?_, ?_, h.subscribed⟩
  · rw [Bus.chan_setChan_ne hne.symm, h.chan]
  · exact h.inRange.trans_eq List.length_set.symm

theorem holds_setChan_of_not_mem {own : List Nat} {slots : List Slot}
    (h : List.Forall₂ (Holds b) own slots) (hch : ch ∉ own) (c : Chan Frame) :
    List.Forall₂ (Holds (b.setChan ch c)) own slots := by
  induction h with
  | nil => exact .nil
  | cons hs _ ih =>
    rw [List.mem_cons, not_or] at hch
    exact .cons (hs.setChan_ne (Ne.symm hch.1) c) (ih hch.2)

/-- Every channel that was handed out has its slot. -/
theorem exists_slot {own : List Nat} {slots : List Slot} {k : Nat}
    (h : List.Forall₂ (Holds b) own slots) (hch : own[k]? = some ch) :
    ∃ s, slots[k]? = some s ∧ Holds b ch s := by
  induction h generalizing k with
  | nil => cases hch
  | cons hs _ ih =>
    cases k with
    | zero =>
      obtain rfl := Option.some.inj hch
      exact ⟨_, rfl, hs⟩
    | succ k => exact ih hch

/-- An operation on the channel of one slot. -/
theorem holds_setChan {own : List Nat} {slots : List Slot} {k : Nat}
    (h : List.Forall₂ (Holds b) own slots) (hown : own.Nodup) (hch : own[k]? = some ch)
    (hs : slots[k]? = some s) (c : Chan Frame) :
    List.Forall₂ (Holds (b.setChan ch c)) own (slots.set k { s with chan := c }) := by
  induction h generalizing k with
  | nil => cases hs
  | @cons ch' s' own slots hs' hrest ih =>
    rw [List.nodup_cons] at hown
    cases k with
    | zero =>
      obtain rfl := Option.some.inj hch
      obtain rfl := Option.some.inj hs
      refine .cons ⟨Bus.chan_setChan_self hs'.inRange, ?_, hs'.subscribed⟩
        (holds_setChan_of_not_mem hrest hown.1 c)
      exact hs'.inRange.trans_eq List.length_set.symm
    | succ k =>
      have hne : ch' ≠ ch := fun heq => hown.1 (heq ▸ List.mem_of_getElem? hch)
      exact .cons (hs'.setChan_ne hne c) (ih hown.2 hch hs)

namespace Shows

/-- The counters do not show in the view. -/
theorem countError (h : Shows w v) : Shows { w with bus := w.bus.countError } v :=
  ⟨h.closed, h.slots.imp fun _ _ hs => ⟨hs.chan, hs.inRange, hs.subscribed⟩, h.answers, h.own,
    h.channels, h.inRange⟩

/-- A frame that is sent shows in the view. -/
theorem send {err : Option ErrorCode} (h : Shows w v) (hsend : w.bus.send f = some (b', err)) :
    ∃ v', v.step (.send f) = some v' ∧ Shows { w with bus := b' } v' := by
  unfold Bus.send at hsend
  unfold View.step
  cases hvalid : validateFrame f with
  | error e =>
    simp only [hvalid] at hsend ⊢
    obtain ⟨rfl, -⟩ := Prod.mk.inj (Option.some.inj hsend)
    exact ⟨v, rfl, h.countError⟩
  | ok u =>
    simp only [hvalid] at hsend ⊢
    rw [← h.closed]
    cases hclosed : w.bus.closed with
    | true =>
      rw [hclosed, if_pos rfl] at hsend
      obtain ⟨rfl, -⟩ := Prod.mk.inj (Option.some.inj hsend)
      exact ⟨v, rfl, h.countError⟩
    | false =>
      rw [hclosed, if_neg Bool.false_ne_true] at hsend
      obtain ⟨b₁, hfan, heq⟩ := Option.map_eq_some_iff.mp hsend
      obtain ⟨rfl, -⟩ := Prod.mk.inj heq
      have hslots : List.Forall₂ (Holds (w.bus.countWrite f)) w.own v.slots :=
        h.slots.imp fun _ _ hs => ⟨hs.chan, hs.inRange, hs.subscribed⟩
      obtain ⟨hsubs, hclosed', hlen⟩ := Bus.fanOut_keeps hfan
      obtain ⟨slots', hmap, hslots'⟩ := mapM_push hslots hclosed h.channels h.inRange hfan
      rw [if_neg Bool.false_ne_true, hmap]
      refine ⟨_, rfl, hclosed'.trans hclosed, hslots', h.answers, h.own, ?_, ?_⟩
      · rw [hsubs]
        exact h.channels
      · rw [hsubs, hlen]
        exact h.inRange

/-- A `close` shows in the view. -/
theorem close (h : Shows w v) :
    ∃ v', v.step .close = some v' ∧ Shows { w with bus := w.bus.close } v' := by
  unfold Bus.close View.step
  rw [← h.closed]
  cases hclosed : w.bus.closed with
  | true =>
    rw [if_pos rfl, if_pos rfl]
    exact ⟨v, rfl, h⟩
  | false =>
    rw [if_neg Bool.false_ne_true, if_neg Bool.false_ne_true]
    obtain ⟨hclosed', hlen⟩ :=
      @Bus.closeChannels_keeps { w.bus with closed := true } w.bus.subs
    refine ⟨_, rfl, hclosed', ?_, h.answers, h.own, .nil, by simp⟩
    refine List.forall₂_map_right_iff.mpr (h.slots.imp fun ch s hs => ?_)
    have hmem : ch ∈ w.bus.subs.map (·.ch) :=
      List.mem_map.mpr ⟨_, hs.subscribed hclosed, rfl⟩
    have hchan := @Bus.closeChannels_chan { w.bus with closed := true } w.bus.subs ch h.inRange
    rw [if_pos hmem] at hchan
    refine ⟨hchan.trans (congrArg Chan.close hs.chan), hlen ▸ hs.inRange, fun hopen => ?_⟩
    exact absurd (hclosed'.symm.trans hopen) (by simp)

/-- A new subscription, whoever makes it, does not touch the channels that are there. -/
theorem holds_addSubscription (filters : List Filter) (cfg : SubscriberConfig)
    (h : Holds b ch s) : Holds (b.addSubscription filters cfg).1 ch s := by
  refine ⟨?_, ?_, fun hopen => List.mem_append_left _ (h.subscribed hopen)⟩
  · rw [← h.chan]
    simp only [Bus.addSubscription, Bus.chan, List.getD_eq_getElem?_getD]
    rw [List.getElem?_append_left h.inRange]
  · exact Nat.lt_of_lt_of_le h.inRange (by simp [Bus.addSubscription])

/-- The channel of a new subscription differs from all others. -/
theorem addSubscription_wired (h : Shows w v) (filters : List Filter) (cfg : SubscriberConfig) :
    ((w.bus.addSubscription filters cfg).1.subs.map (·.ch)).Nodup ∧
      ∀ s ∈ (w.bus.addSubscription filters cfg).1.subs,
        s.ch < (w.bus.addSubscription filters cfg).1.channels.length := by
  have hnew : w.bus.channels.length ∉ w.bus.subs.map (·.ch) := by
    intro hmem
    obtain ⟨s, hs, heq⟩ := List.mem_map.mp hmem
    exact absurd (h.inRange s hs) (by omega)
  simp only [Bus.addSubscription, List.map_append, List.map_cons, List.map_nil,
    List.length_append, List.length_singleton]
  refine ⟨?_, fun s hs => ?_⟩
  · rw [List.nodup_append]
    refine ⟨h.channels, List.nodup_singleton _, ?_⟩
    rintro a ha b hb rfl
    exact hnew (List.mem_singleton.mp hb ▸ ha)
  · rcases List.mem_append.mp hs with hs | hs
    · exact Nat.lt_succ_of_lt (h.inRange s hs)
    · obtain rfl := List.mem_singleton.mp hs
      exact Nat.lt_succ_self _

/-- A subscription of another subscriber does not show in the view. -/
theorem otherSubscribe (h : Shows w v) (filters : List Filter) (opts : List SubscriberOption) :
    Shows { w with bus := (w.bus.subscribe filters opts).1 } v := by
  unfold Bus.subscribe
  split_ifs
  · exact h
  · obtain ⟨hnodup, hlt⟩ := h.addSubscription_wired filters (applyOptions opts)
    exact ⟨h.closed, h.slots.imp fun _ _ hs => holds_addSubscription _ _ hs, h.answers, h.own,
      hnodup, hlt⟩

/-- A subscription of the subscriber shows in the view. -/
theorem subscribe (h : Shows w v) {filters : List Filter} {opts : List SubscriberOption}
    (hstep : w.step (.subscribe filters opts) = some w') :
    ∃ v', v.step (.subscribe filters opts) = some v' ∧ Shows w' v' := by
  simp only [Audience.step, Bus.subscribe] at hstep
  unfold View.step
  rw [← h.closed]
  cases hclosed : w.bus.closed with
  | true =>
    rw [if_pos rfl]
    simp only [hclosed, if_true] at hstep
    obtain rfl := Option.some.inj hstep
    exact ⟨_, rfl, hclosed, h.slots, congrArg (· ++ _) h.answers, h.own, h.channels, h.inRange⟩
  | false =>
    rw [if_neg Bool.false_ne_true]
    simp only [hclosed, Bool.false_eq_true, if_false] at hstep
    obtain rfl := Option.some.inj hstep
    obtain ⟨hnodup, hlt⟩ := h.addSubscription_wired filters (applyOptions opts)
    have hown : w.bus.channels.length ∉ w.own := by
      intro hmem
      obtain ⟨k, hk⟩ := List.mem_iff_getElem?.mp hmem
      obtain ⟨s, -, hs⟩ := exists_slot h.slots hk
      exact absurd hs.inRange (by omega)
    refine ⟨_, rfl, hclosed, ?_, congrArg (· ++ _) h.answers, ?_, hnodup, hlt⟩
    · refine List.rel_append (h.slots.imp fun _ _ hs => holds_addSubscription _ _ hs)
        (.cons ⟨?_, ?_, fun _ => List.mem_append_right _ List.mem_cons_self⟩ .nil)
      · simp [Bus.addSubscription, Bus.chan]
      · simp [Bus.addSubscription]
    · refine List.nodup_append.mpr ⟨h.own, List.nodup_singleton _, ?_⟩
      rintro a ha b hb rfl
      have heq : a = w.bus.channels.length := List.mem_singleton.mp hb
      exact hown (heq ▸ ha)

/-- An operation on a channel of the subscriber shows in the view. -/
theorem perform (h : Shows w v) {k : Nat} {op : Op Frame}
    (hstep : w.step (.perform k op) = some w') :
    ∃ v', v.step (.perform k op) = some v' ∧ Shows w' v' := by
  obtain ⟨ch, hch, hop⟩ := Option.bind_eq_some_iff.mp hstep
  obtain ⟨⟨c, reply⟩, hc, rfl⟩ := Option.map_eq_some_iff.mp hop
  obtain ⟨s, hs, hholds⟩ := exists_slot h.slots hch
  rw [hholds.chan] at hc
  have hview : v.step (.perform k op) = some { v with
      slots := v.slots.set k { s with chan := c }, answers := v.answers ++ [.replied reply] } := by
    rw [View.step, hs, Option.bind_some, hc]
    rfl
  exact ⟨_, hview, h.closed, holds_setChan h.slots h.own hch hs c, congrArg (· ++ _) h.answers,
    h.own, h.channels, fun t ht => (h.inRange t ht).trans_eq List.length_set.symm⟩

/-- An operation on a channel of another subscriber does not show in the view. -/
theorem otherPerform (h : Shows w v) {op : Op Frame}
    (hstep : w.step (.otherPerform ch op) = some w') : Shows w' v := by
  simp only [Audience.step] at hstep
  split_ifs at hstep with hown
  obtain ⟨⟨c, reply⟩, -, rfl⟩ := Option.map_eq_some_iff.mp hstep
  refine ⟨h.closed, holds_setChan_of_not_mem h.slots hown c, h.answers, h.own, h.channels, ?_⟩
  exact fun s hs => (h.inRange s hs).trans_eq List.length_set.symm

end Shows

/-- The run of a view that shows what the subscriber sees. -/
theorem exists_view {es : List Audience.Event} (h : Runs.run Audience.step {} es = some w) :
    ∃ v, Runs.run View.step {} (es.filter (·.visible)) = some v ∧ Shows w v := by
  have hshows : Shows {} {} := ⟨rfl, .nil, rfl, .nil, .nil, by simp⟩
  refine Runs.exists_run_filter ?_ ?_ hshows h
  · intro w v e w' hvisible hshows hstep
    cases e with
    | send f =>
      obtain ⟨⟨b, err⟩, hsend, rfl⟩ := Option.map_eq_some_iff.mp hstep
      exact hshows.send hsend
    | close =>
      obtain rfl := Option.some.inj hstep
      exact hshows.close
    | subscribe filters opts => exact hshows.subscribe hstep
    | perform k op => exact hshows.perform hstep
    | otherSubscribe filters opts => cases hvisible
    | otherPerform ch op => cases hvisible
  · intro w v e w' hvisible hshows hstep
    cases e with
    | otherSubscribe filters opts =>
      obtain rfl := Option.some.inj hstep
      exact hshows.otherSubscribe filters opts
    | otherPerform ch op => exact hshows.otherPerform hstep
    | _ => cases hvisible

/-- Whoever else uses the bus in whatever way, the calls of the subscriber return the same
for the same frames and the same calls of its own. -/
theorem subscriber_isolated (es es' : List Audience.Event)
    (h : Runs.run Audience.step {} es = some w) (h' : Runs.run Audience.step {} es' = some w')
    (hsame : es.filter (·.visible) = es'.filter (·.visible)) : w.answers = w'.answers := by
  obtain ⟨v, hv, hshows⟩ := exists_view h
  obtain ⟨v', hv', hshows'⟩ := exists_view h'
  rw [hsame, hv'] at hv
  obtain rfl := Option.some.inj hv
  rw [hshows.answers, hshows'.answers]

/-- Three frames and two receives beside a subscriber whose channel runs full. -/
def besideFull : List Audience.Event :=
  [.otherSubscribe [] [withChannelDepth 1], .subscribe [] [withChannelDepth 2],
    .send { id := 1 }, .perform 0 .tryRecv, .send { id := 2 }, .send { id := 3 },
    .otherPerform 0 .tryRecv, .perform 0 .tryRecv]

theorem subscriber_isolated_full :
    ∃ w w', Runs.run Audience.step {} besideFull = some w ∧
      Runs.run Audience.step {} (besideFull.filter (·.visible)) = some w' ∧
      w.answers = w'.answers :=
  ⟨_, _, rfl, rfl, subscriber_isolated besideFull (besideFull.filter (·.visible)) rfl rfl rfl⟩

end CppCan.Virt
