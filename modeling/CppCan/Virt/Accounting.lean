import CppCan.Core.Ledger
import CppCan.Virt.Close
import Mathlib.Algebra.BigOperators.Group.Finset.Basic
import Mathlib.Algebra.BigOperators.Group.List.Basic

/-!
# Where the frames of a bus go

Every accepted send owes one frame to each matching subscription that is present.
A frame is then still ahead of its sender, buffered, taken by a consumer or counted
as dropped, unless the `dropOldest` policy has evicted it: an eviction inside the
channel is not counted.
-/

namespace CppCan.Virt

open CppCan.Core CppCan.Relay

namespace Bus

/-- The frames in all channels. -/
def buffered (b : Bus) : Nat := (b.channels.map (·.buf.length)).sum

/-- The push of a matching frame evicts another one from the channel. -/
def evicts (b : Bus) (s : Subscription) (f : Frame) : Bool :=
  matchesAny s.filters f && s.backPressure = .dropOldest && !(b.chan s.ch).closed &&
    (b.chan s.ch).capacity ≤ (b.chan s.ch).buf.length

/-- The bus and all its channels are open. -/
structure Serving (b : Bus) : Prop where
  isOpen : b.closed = false
  chan : ∀ c ∈ b.channels, c.closed = false ∧ 0 < c.capacity
  subs : ∀ s ∈ b.subs, s.ch < b.channels.length

/-- What happens to a frame at an open channel. -/
inductive Fate (b : Bus) (s : Subscription) (f : Frame) : Bus → Prop
  | skip (hmatch : matchesAny s.filters f = false) : Fate b s f b
  | enqueue (hmatch : matchesAny s.filters f = true)
      (hspace : (b.chan s.ch).buf.length < (b.chan s.ch).capacity) :
      Fate b s f ((b.setChan s.ch
        { b.chan s.ch with buf := (b.chan s.ch).buf ++ [f] }).countDeliver f)
  | drop (hmatch : matchesAny s.filters f = true) (hpolicy : s.backPressure = .dropNewest) :
      Fate b s f (b.setChan s.ch (b.chan s.ch)).countDrop
  | evict (hmatch : matchesAny s.filters f = true) (hpolicy : s.backPressure = .dropOldest)
      (hfull : (b.chan s.ch).capacity ≤ (b.chan s.ch).buf.length) :
      Fate b s f ((b.setChan s.ch
        { b.chan s.ch with buf := (b.chan s.ch).buf.tail ++ [f] }).countDeliver f)

variable {b b' : Bus} {s : Subscription} {f : Frame}

/-- A round of the fan-out has one of these outcomes. -/
theorem fate_of_deliver (hopen : (b.chan s.ch).closed = false) (h : b.deliver s f = some b') :
    b.Fate s f b' := by
  have hne : ¬ (b.chan s.ch).closed = true := by simp [hopen]
  unfold deliver at h
  split at h
  · rename_i hmatch
    obtain rfl := Option.some.inj h
    exact .skip (by simpa using hmatch)
  · rename_i hmatch
    have hmatch : matchesAny s.filters f = true := by simpa using hmatch
    split at h
    · rename_i hpolicy
      rw [Chan.trySend, if_neg hne] at h
      split_ifs at h with hfull
      · obtain rfl := Option.some.inj h
        exact .drop hmatch hpolicy
      · obtain rfl := Option.some.inj h
        exact .enqueue hmatch (Nat.not_le.mp hfull)
    · rename_i hpolicy
      rw [Chan.sendDropOldest, if_neg hne] at h
      split_ifs at h with hfull
      · obtain rfl := Option.some.inj h
        exact .evict hmatch hpolicy hfull
      · obtain rfl := Option.some.inj h
        exact .enqueue hmatch (Nat.not_le.mp hfull)
    · rw [Chan.send, if_neg hne] at h
      split_ifs at h with hspace
      · obtain rfl := Option.some.inj h
        exact .enqueue hmatch hspace
      · cases h

/-- Replacing a channel changes what is buffered by the difference. -/
theorem buffered_setChan {j : Nat} (c : Chan Frame) (hj : j < b.channels.length) :
    (b.setChan j c).buffered + (b.chan j).buf.length = b.buffered + c.buf.length := by
  obtain ⟨mu, subs, closed, channels, metrics⟩ := b
  simp only [buffered, setChan, chan] at hj ⊢
  induction channels generalizing j with
  | nil => cases hj
  | cons d channels ih =>
    cases j with
    | zero =>
      simp
      omega
    | succ j =>
      have h := ih (Nat.lt_of_succ_lt_succ hj)
      simp at h ⊢
      omega

/-- A frame that is delivered, dropped or evicts another is balanced. -/
theorem Fate.balance (h : b.Fate s f b') (hs : s.ch < b.channels.length)
    (hopen : (b.chan s.ch).closed = false) (hcap : 0 < (b.chan s.ch).capacity) :
    b.buffered + b.metrics.dropCount + (if matchesAny s.filters f then 1 else 0) =
      b'.buffered + b'.metrics.dropCount + (b.evicts s f).toNat := by
  cases h with
  | skip hmatch => simp [evicts, hmatch]
  | enqueue hmatch hspace =>
    have hbuf := buffered_setChan { b.chan s.ch with buf := (b.chan s.ch).buf ++ [f] } hs
    have hevicts : b.evicts s f = false := by simp [evicts, hspace]
    simp only [List.length_append, List.length_singleton] at hbuf
    rw [hmatch, hevicts]
    change _ = (b.setChan s.ch _).buffered + b.metrics.dropCount + _
    simp only [if_true, Bool.toNat_false]
    omega
  | drop hmatch hpolicy =>
    have hbuf := buffered_setChan (b.chan s.ch) hs
    have hevicts : b.evicts s f = false := by simp [evicts, hpolicy]
    rw [hmatch, hevicts]
    change _ = (b.setChan s.ch _).buffered + (b.metrics.dropCount + 1) + _
    simp only [if_true, Bool.toNat_false]
    omega
  | evict hmatch hpolicy hfull =>
    have hbuf := buffered_setChan { b.chan s.ch with buf := (b.chan s.ch).buf.tail ++ [f] } hs
    have hevicts : b.evicts s f = true := by simp [evicts, hmatch, hpolicy, hopen, hfull]
    simp only [List.length_append, List.length_tail, List.length_singleton] at hbuf
    rw [hmatch, hevicts]
    change _ = (b.setChan s.ch _).buffered + b.metrics.dropCount + _
    simp only [if_true, Bool.toNat_true]
    omega

/-- An open channel in the place of another leaves the bus serving. -/
theorem Serving.setChan (h : b.Serving) (j : Nat) {c : Chan Frame}
    (hc : c.closed = false ∧ 0 < c.capacity) : (b.setChan j c).Serving := by
  constructor
  · exact h.isOpen
  · intro d hd
    rcases List.mem_or_eq_of_mem_set hd with hd | rfl
    · exact h.chan d hd
    · exact hc
  · intro s hs
    simpa [Bus.setChan] using h.subs s hs

/-- A channel that has been handed out is open and can buffer something. -/
theorem Serving.chan_of_lt (h : b.Serving) {j : Nat} (hj : j < b.channels.length) :
    (b.chan j).closed = false ∧ 0 < (b.chan j).capacity := by
  apply h.chan
  rw [Bus.chan, List.getD_eq_getElem?_getD, List.getElem?_eq_getElem hj]
  exact List.getElem_mem hj

/-- A round of the fan-out leaves the bus serving. -/
theorem Fate.serving (h : b.Fate s f b') (hb : b.Serving) (hs : s.ch < b.channels.length) :
    b'.Serving ∧ b'.channels.length = b.channels.length := by
  have hc := hb.chan_of_lt hs
  cases h with
  | skip => exact ⟨hb, rfl⟩
  | enqueue =>
    have hset := hb.setChan s.ch (c := { b.chan s.ch with buf := (b.chan s.ch).buf ++ [f] }) hc
    exact ⟨⟨hset.isOpen, hset.chan, hset.subs⟩, List.length_set⟩
  | drop =>
    have hset := hb.setChan s.ch hc
    exact ⟨⟨hset.isOpen, hset.chan, hset.subs⟩, List.length_set⟩
  | evict =>
    have hset := hb.setChan s.ch (c := { b.chan s.ch with buf := (b.chan s.ch).buf.tail ++ [f] }) hc
    exact ⟨⟨hset.isOpen, hset.chan, hset.subs⟩, List.length_set⟩

end Bus

/-- The frames a send in its fan-out has still to deliver. -/
def Pc.ahead : Pc → Nat
  | .fanOut f rest => rest.countP fun s => matchesAny s.filters f
  | _ => 0

/-- The thread is not in `close`, and its fan-out goes to channels that exist. -/
def Pc.InRange (n : Nat) : Pc → Prop
  | .fanOut _ rest => ∀ s ∈ rest, s.ch < n
  | pc => pc.closePending = false

namespace Bus

/-- The subscriptions to which an accepted send owes its frame. -/
def owed (b : Bus) : Pc → Nat
  | .sendCheck f => if b.closed then 0 else b.subs.countP fun s => matchesAny s.filters f
  | _ => 0

/-- The frames a consumer takes. -/
def taken (b : Bus) : Pc → Nat
  | .recv ch =>
    match (b.chan ch).recv with
    | some (_, some _) => 1
    | _ => 0
  | _ => 0

/-- The frames evicted in a round of a fan-out. -/
def evicted (b : Bus) : Pc → Nat
  | .fanOut f (s :: _) => (b.evicts s f).toNat
  | _ => 0

variable {b b' : Bus} {i : Nat} {pc pc' : Pc}

/-- What a step has to do for the accounts of an open bus. -/
structure Balanced (b : Bus) (pc : Pc) (b' : Bus) (pc' : Pc) : Prop where
  serving : b'.Serving
  grows : b.channels.length ≤ b'.channels.length
  inRange : pc'.InRange b'.channels.length
  balance : b.buffered + b.metrics.dropCount + pc.ahead + b.owed pc =
    b'.buffered + b'.metrics.dropCount + pc'.ahead + (b.taken pc + b.evicted pc)

/-- Every step of a call on an open bus is balanced. -/
theorem balanced_of_step (h : b.step i pc = some (b', pc')) (hb : b.Serving)
    (hpc : pc.InRange b.channels.length) : b.Balanced pc b' pc' := by
  have hnot : b.closed ≠ true := by simp [hb.isOpen]
  cases outcome_of_step h with
  | sendLocked hmu => exact ⟨⟨hb.isOpen, hb.chan, hb.subs⟩, le_rfl, rfl, rfl⟩
  | sendRefused hclosed => exact absurd hclosed hnot
  | sendAccepted hopen =>
    refine ⟨⟨hb.isOpen, hb.chan, hb.subs⟩, le_rfl, hb.subs, ?_⟩
    rw [owed, if_neg hnot]
    rfl
  | sendDone => exact ⟨⟨hb.isOpen, hb.chan, hb.subs⟩, le_rfl, rfl, rfl⟩
  | delivered hdeliver =>
    obtain ⟨hs, hrest⟩ := List.forall_mem_cons.mp hpc
    obtain ⟨hopen, hcap⟩ := hb.chan_of_lt hs
    have hfate := fate_of_deliver hopen hdeliver
    obtain ⟨hserving, hlength⟩ := hfate.serving hb hs
    refine ⟨hserving, hlength.ge, hlength ▸ hrest, ?_⟩
    have hbalance := hfate.balance hs hopen hcap
    simp only [Pc.ahead, owed, taken, evicted, List.countP_cons]
    omega
  | subscribeLocked hmu => exact ⟨⟨hb.isOpen, hb.chan, hb.subs⟩, le_rfl, rfl, rfl⟩
  | subscribeRefused hclosed => exact absurd hclosed hnot
  | @subscribed filters cfg hopen =>
    have hdepth : 0 < (cfg.effectiveDepth kDefaultChanDepth).toNat := by
      unfold SubscriberConfig.effectiveDepth kDefaultChanDepth
      split <;> omega
    refine ⟨⟨hb.isOpen, ?_, ?_⟩, ?_, rfl, ?_⟩
    · intro c hc
      rcases List.mem_append.mp hc with hc | hc
      · exact hb.chan c hc
      · obtain rfl := List.mem_singleton.mp hc
        exact ⟨rfl, hdepth⟩
    · intro s hs
      simp only [addSubscription, List.length_append, List.length_singleton]
      rcases List.mem_append.mp hs with hs | hs
      · exact Nat.lt_succ_of_lt (hb.subs s hs)
      · obtain rfl := List.mem_singleton.mp hs
        exact Nat.lt_succ_self _
    · simp [addSubscription]
    · simp [buffered, Pc.ahead, owed, taken, evicted, addSubscription]
  | @received ch c v hrecv =>
    by_cases hch : ch < b.channels.length
    · obtain ⟨hopen, hcap⟩ := hb.chan_of_lt hch
      unfold Chan.recv at hrecv
      split at hrecv
      · rw [if_neg (by simp [hopen])] at hrecv
        cases hrecv
      · rename_i value rest hbuf
        obtain ⟨rfl, rfl⟩ := Prod.mk.inj (Option.some.inj hrecv)
        have hset := buffered_setChan { b.chan ch with buf := rest } hch
        rw [hbuf, List.length_cons] at hset
        dsimp only at hset
        have htaken : b.taken (.recv ch) = 1 := by simp [taken, Chan.recv, hbuf]
        refine ⟨hb.setChan ch ⟨hopen, hcap⟩, List.length_set.ge, rfl, ?_⟩
        change b.buffered + b.metrics.dropCount + 0 + 0 =
          (b.setChan ch _).buffered + b.metrics.dropCount + 0 + (b.taken (.recv ch) + 0)
        omega
    · have hnone : b.chan ch = {} := by
        rw [chan, List.getD_eq_getElem?_getD, List.getElem?_eq_none (Nat.not_lt.mp hch)]
        rfl
      rw [hnone] at hrecv
      cases hrecv
  | closeLocked hmu => cases hpc
  | closeAgain hclosed => cases hpc
  | closeBegun hopen => cases hpc
  | closeDone => cases hpc
  | closeNext => cases hpc

/-- So is the beginning of a call other than `close`. -/
theorem balanced_begin {c : Call} (hq : pc.quiet = true) (hb : b.Serving) (hc : c ≠ .close) :
    b.Balanced pc (c.begin b).1 (c.begin b).2 := by
  have hquiet : pc.ahead = 0 ∧ b.owed pc = 0 ∧ b.taken pc = 0 ∧ b.evicted pc = 0 := by
    cases pc <;> simp_all [Pc.quiet, Pc.ahead, owed, taken, evicted]
  obtain ⟨hahead, howed, htaken, hevicted⟩ := hquiet
  cases c with
  | send f =>
    unfold Call.begin
    dsimp only
    split
    · refine ⟨⟨hb.isOpen, hb.chan, hb.subs⟩, le_rfl, rfl, ?_⟩
      rw [hahead, howed, htaken, hevicted]
      rfl
    · refine ⟨hb, le_rfl, rfl, ?_⟩
      rw [hahead, howed, htaken, hevicted]
      rfl
  | subscribe filters opts =>
    refine ⟨hb, le_rfl, rfl, ?_⟩
    rw [hahead, howed, htaken, hevicted]
    rfl
  | close => exact absurd rfl hc
  | recv ch =>
    refine ⟨hb, le_rfl, rfl, ?_⟩
    rw [hahead, howed, htaken, hevicted]
    rfl

end Bus

/-- A fan-out stays in range when channels are added. -/
theorem Pc.InRange.mono {pc : Pc} {n m : Nat} (h : pc.InRange n) (hle : n ≤ m) : pc.InRange m := by
  cases pc with
  | fanOut f rest => exact fun s hs => Nat.lt_of_lt_of_le (h s hs) hle
  | _ => exact h

namespace World

/-- The steps of the world, chosen by events, as a run of the library. -/
theorem run_eq (w : World) (es : List Event) : w.run es = Runs.run step w es := by
  induction es generalizing w with
  | nil => rfl
  | cons e es ih => simp only [run, Runs.run, ih]

/-- What an event counts for; only a step of a call counts. -/
def counts (count : Bus → Pc → Nat) (w : World) : Event → Nat
  | .begin _ _ => 0
  | .advance i => count w.bus (w.threads i)

/-- The frames owed by the sends accepted in a run: for each of them the number of
matching subscriptions present. -/
def totalOwed (w : World) (es : List Event) : Nat := Ledger.total step (counts Bus.owed) w es

/-- The frames consumers have taken in a run. -/
def totalTaken (w : World) (es : List Event) : Nat := Ledger.total step (counts Bus.taken) w es

/-- The frames that the sends in progress still have to deliver; all threads of the run
are looked at. -/
def ahead (w : World) (es : List Event) : Nat :=
  ∑ i ∈ (es.map Event.thread).toFinset, (w.threads i).ahead

/-- The next step of a thread pushes into a full channel under `dropOldest`. -/
def Evicts (w : World) (e : Event) : Prop :=
  ∃ i f s rest, e = .advance i ∧ w.threads i = .fanOut f (s :: rest) ∧ w.bus.evicts s f = true

/-- The bus is open and no thread closes it. -/
structure Serving (w : World) : Prop where
  bus : w.bus.Serving
  inRange : ∀ i, (w.threads i).InRange w.bus.channels.length

variable {w w' : World} {e : Event} {es : List Event} {T : Finset Nat}

/-- A step evicts exactly if it counts as an eviction. -/
theorem counts_evicted_eq_zero : w.counts Bus.evicted e = 0 ↔ ¬ w.Evicts e := by
  constructor
  · rintro h ⟨i, f, s, rest, rfl, hpc, hevicts⟩
    simp [counts, hpc, Bus.evicted, hevicts] at h
  · intro h
    cases e with
    | begin i c => rfl
    | advance i =>
      change w.bus.evicted (w.threads i) = 0
      unfold Bus.evicted
      split
      · rename_i f s rest hpc
        rw [Bool.toNat_eq_zero, ← Bool.not_eq_true]
        exact fun hevicts => h ⟨i, f, s, rest, rfl, hpc, hevicts⟩
      · rfl

/-- What lies ahead when one thread goes on. -/
theorem sum_ahead_update {i : Nat} (hi : i ∈ T) (threads : Nat → Pc) (pc : Pc) :
    (∑ j ∈ T, (Function.update threads i pc j).ahead) + (threads i).ahead =
      (∑ j ∈ T, (threads j).ahead) + pc.ahead := by
  rw [← Finset.add_sum_erase T _ hi, ← Finset.add_sum_erase T (fun j => (threads j).ahead) hi,
    Function.update_self]
  have hsame : ∑ j ∈ T.erase i, (Function.update threads i pc j).ahead =
      ∑ j ∈ T.erase i, (threads j).ahead := by
    apply Finset.sum_congr rfl
    intro j hj
    rw [Function.update_of_ne (Finset.ne_of_mem_erase hj)]
  rw [hsame]
  omega

/-- An event changes the bus and one thread in a balanced way. -/
theorem balanced_of_event (h : w.Serving) (hc : ∀ i, e ≠ .begin i .close)
    (he : w.step e = some w') :
    ∃ b pc, w' = ⟨b, Function.update w.threads e.thread pc⟩ ∧
      w.bus.Balanced (w.threads e.thread) b pc := by
  cases e with
  | begin i c =>
    simp only [step] at he
    split at he
    · rename_i hq
      refine ⟨_, _, (Option.some.inj he).symm, Bus.balanced_begin hq h.bus ?_⟩
      rintro rfl
      exact hc i rfl
    · cases he
  | advance i =>
    obtain ⟨⟨b, pc⟩, hb, rfl⟩ := Option.map_eq_some_iff.mp he
    exact ⟨b, pc, rfl, Bus.balanced_of_step hb h.bus (h.inRange i)⟩

/-- A bus that is not closed goes on serving. -/
theorem Serving.step (h : w.Serving) (hc : ∀ i, e ≠ .begin i .close) (he : w.step e = some w') :
    w'.Serving := by
  obtain ⟨b, pc, rfl, hbalanced⟩ := balanced_of_event h hc he
  refine ⟨hbalanced.serving, fun j => ?_⟩
  by_cases hj : j = e.thread
  · subst hj
    simpa only [Function.update_self] using hbalanced.inRange
  · simpa only [Function.update_of_ne hj] using (h.inRange j).mono hbalanced.grows

/-- The beginning of a call counts for nothing, as its thread is in no call. -/
theorem counts_eq {count : Bus → Pc → Nat} (he : w.step e = some w')
    (hquiet : ∀ pc, pc.quiet = true → count w.bus pc = 0) :
    w.counts count e = count w.bus (w.threads e.thread) := by
  cases e with
  | begin i c =>
    simp only [World.step] at he
    split at he
    · rename_i hq
      exact (hquiet _ hq).symm
    · cases he
  | advance i => rfl

/-- An event that does not close the bus balances the accounts. -/
theorem balance_of_step (h : w.Serving) (hc : ∀ i, e ≠ .begin i .close) (hT : e.thread ∈ T)
    (he : w.step e = some w') :
    w.bus.buffered + w.bus.metrics.dropCount + (∑ i ∈ T, (w.threads i).ahead) +
        w.counts Bus.owed e =
      w'.bus.buffered + w'.bus.metrics.dropCount + (∑ i ∈ T, (w'.threads i).ahead) +
        (w.counts Bus.taken e + w.counts Bus.evicted e) := by
  have howed : w.counts Bus.owed e = w.bus.owed (w.threads e.thread) :=
    counts_eq he fun pc hpc => by cases pc <;> simp_all [Pc.quiet, Bus.owed]
  have htaken : w.counts Bus.taken e = w.bus.taken (w.threads e.thread) :=
    counts_eq he fun pc hpc => by cases pc <;> simp_all [Pc.quiet, Bus.taken]
  have hevicted : w.counts Bus.evicted e = w.bus.evicted (w.threads e.thread) :=
    counts_eq he fun pc hpc => by cases pc <;> simp_all [Pc.quiet, Bus.evicted]
  obtain ⟨b, pc, rfl, hbalanced⟩ := balanced_of_event h hc he
  have hsum := sum_ahead_update hT w.threads pc
  have hbalance := hbalanced.balance
  rw [howed, htaken, hevicted]
  dsimp only
  omega

/-- A new bus serves. -/
theorem serving_empty : Serving {} :=
  ⟨⟨rfl, by simp, by simp⟩, fun _ => rfl⟩

/-- The exact balance: what is missing has been evicted. -/
theorem totalOwed_eq (h : run {} es = some w) (hc : ∀ e ∈ es, ∀ i, e ≠ .begin i .close) :
    totalOwed {} es = totalTaken {} es + w.bus.buffered + w.bus.metrics.dropCount + w.ahead es +
      Ledger.total step (counts Bus.evicted) {} es := by
  rw [run_eq] at h
  have hok : ∀ e ∈ es,
      (∀ i, e ≠ .begin i .close) ∧ e.thread ∈ (es.map Event.thread).toFinset := by
    intro e he
    exact ⟨hc e he, List.mem_toFinset.mpr (List.mem_map_of_mem he)⟩
  have hbalance := Ledger.balance_of_run Serving
    (fun e => (∀ i, e ≠ .begin i .close) ∧ e.thread ∈ (es.map Event.thread).toFinset)
    (fun w => w.bus.buffered + w.bus.metrics.dropCount +
      ∑ i ∈ (es.map Event.thread).toFinset, (w.threads i).ahead)
    (counts Bus.owed) (fun w e => w.counts Bus.taken e + w.counts Bus.evicted e)
    (fun w e w' hw hok he => hw.step hok.1 he)
    (fun w e w' hw hok he => balance_of_step hw hok.1 hok.2 he) h serving_empty hok
  have hempty : (∑ i ∈ (es.map Event.thread).toFinset, (World.threads {} i).ahead) = 0 :=
    Finset.sum_eq_zero fun i _ => rfl
  rw [Ledger.total_add, hempty] at hbalance
  unfold totalOwed totalTaken ahead
  change 0 + 0 + 0 + Ledger.total step (counts Bus.owed) {} es = _ at hbalance
  omega

/-- In every run without `close`, and at each state it reaches, the frames owed by the
accepted sends are those taken, buffered, dropped and still ahead, exactly if no step
evicts a frame. Between two calls nothing is ahead. -/
theorem frames_accounted_iff (h : run {} es = some w) (hc : ∀ e ∈ es, ∀ i, e ≠ .begin i .close) :
    (totalOwed {} es =
        totalTaken {} es + w.bus.buffered + w.bus.metrics.dropCount + w.ahead es ↔
      ∀ pre e post u, es = pre ++ e :: post → run {} pre = some u → ¬ u.Evicts e) ∧
    ((∀ i, (w.threads i).ahead = 0) →
      (totalOwed {} es = totalTaken {} es + w.bus.buffered + w.bus.metrics.dropCount ↔
        ∀ pre e post u, es = pre ++ e :: post → run {} pre = some u → ¬ u.Evicts e)) := by
  have hexact := totalOwed_eq h hc
  have hnone : Ledger.total step (counts Bus.evicted) {} es = 0 ↔
      ∀ pre e post u, es = pre ++ e :: post → run {} pre = some u → ¬ u.Evicts e := by
    rw [run_eq] at h
    simp only [Ledger.total_eq_zero_iff h, counts_evicted_eq_zero, run_eq]
  constructor
  · rw [← hnone]
    omega
  · intro hahead
    have hzero : w.ahead es = 0 := Finset.sum_eq_zero fun i _ => hahead i
    rw [← hnone]
    omega

/-- A subscription of depth one under a policy, and two frames for it. -/
def overfill (policy : BackPressurePolicy) : List Event :=
  [.begin 0 (.subscribe [] [withChannelDepth 1, withBackPressure policy]), .advance 0, .advance 0,
    .begin 1 (.send { id := 0x10, data := [1] }), .advance 1, .advance 1, .advance 1, .advance 1,
    .begin 1 (.send { id := 0x10, data := [2] }), .advance 1, .advance 1, .advance 1, .advance 1]

/-- Nothing in it closes the bus. -/
theorem overfill_no_close (policy : BackPressurePolicy) :
    ∀ e ∈ overfill policy, ∀ i, e ≠ .begin i .close := by
  intro e he i
  simp only [overfill, List.mem_cons, List.not_mem_nil, or_false] at he
  rcases he with rfl | rfl | rfl | rfl | rfl | rfl | rfl | rfl | rfl | rfl | rfl | rfl | rfl <;>
    simp

/-- Under `dropNewest` the second frame is counted as dropped. -/
theorem frames_accounted_iff_dropNewest : ∃ w, run {} (overfill .dropNewest) = some w ∧
    (totalOwed {} (overfill .dropNewest) = totalTaken {} (overfill .dropNewest) + w.bus.buffered +
        w.bus.metrics.dropCount + w.ahead (overfill .dropNewest) ↔
      ∀ pre e post u, overfill .dropNewest = pre ++ e :: post → run {} pre = some u →
        ¬ u.Evicts e) := by
  obtain ⟨w, hw⟩ : ∃ w, run {} (overfill .dropNewest) = some w := ⟨_, rfl⟩
  exact ⟨w, hw, (frames_accounted_iff hw (overfill_no_close _)).1⟩

/-- Under `dropOldest` the second frame evicts the first, and one frame is missing. -/
theorem frames_not_accounted :
    ¬ ∀ es w, run {} es = some w → (∀ e ∈ es, ∀ i, e ≠ .begin i .close) →
      (∀ i, (w.threads i).ahead = 0) →
      totalOwed {} es = totalTaken {} es + w.bus.buffered + w.bus.metrics.dropCount := by
  intro h
  obtain ⟨w, hw⟩ : ∃ w, run {} (overfill .dropOldest) = some w := ⟨_, rfl⟩
  have hcounts := h (overfill .dropOldest) w hw (overfill_no_close _) ?_
  · obtain rfl := Option.some.inj hw
    exact absurd hcounts (by decide)
  · intro i
    by_cases hi : i = 0 ∨ i = 1
    · obtain rfl := Option.some.inj hw
      rcases hi with rfl | rfl <;> rfl
    · rw [threads_of_run hw (by simp [overfill, Event.thread]; omega)]
      rfl

end World

end CppCan.Virt
