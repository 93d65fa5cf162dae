import CppCan.Can.Adapter
import CppCan.Core.Runs

/-!
# The sequence numbers of the adapter

Every subscription of the adapter has a bridge thread. It receives a frame, numbers its
message with the counter that all of them share and publishes it. Between two of these steps
other bridges and the consumers take theirs. A bridge publishes what it has numbered before it
numbers the next message, so the numbers of one channel increase.
-/

namespace CppCan.CanAdapter

open CppCan.Core CppCan.Relay Chan

/-- Where a bridge thread is in its loop. -/
inductive BridgePc where
  | receiving
  | numbering (f : Frame)
  | publishing (msg : Message)
  | closing
  | done

/-- A subscription with its channel, its bridge thread and what its consumers have received. -/
structure Subscription where
  policy : BackPressurePolicy
  out : Chan Message
  bridge : BridgePc := .receiving
  received : List Message := []

/-- An adapter with the messages that its bridges have published, dropped ones included. -/
structure Adapter where
  seq : UInt64 := 0
  subs : List Subscription := []
  published : List Message := []

/-- What a scheduler may choose next. What a bridge receives is up to the bus. -/
inductive Event where
  | subscribe (opts : SubscriberOptions)
  | receive (i : Nat) (f : Option Frame)
  | increment (i : Nat) (now : Int)
  | publish (i : Nat)
  | close (i : Nat)
  | consume (i : Nat) (op : Op Message)

/-- The subscription that an event is about. -/
def Event.index : Event → Nat
  | .receive i _ | .increment i _ | .publish i | .close i | .consume i _ => i
  | .subscribe _ => 0

/-- The step numbers a message. -/
def Event.isIncrement : Event → Bool
  | .increment _ _ => true
  | _ => false

/-- The step publishes a message. -/
def Event.isPublish : Event → Bool
  | .publish _ => true
  | _ => false

/-- An operation on the channel of a subscription. -/
def Subscription.perform (sub : Subscription) (op : Op Message) : Option Subscription :=
  (sub.out.perform op).map fun (out, reply) =>
    { sub with out := out, received := sub.received ++ reply.value.toList }

/-- The next step of a bridge thread, apart from the counter; none if it is elsewhere or has to
wait. -/
def Subscription.advance (sub : Subscription) (seq : UInt64) : Event → Option Subscription
  | .receive _ f =>
    match sub.bridge, f with
    | .receiving, some f => some { sub with bridge := .numbering f }
    | .receiving, none => some { sub with bridge := .closing }
    | _, _ => none
  | .increment _ now =>
    match sub.bridge with
    | .numbering f => some { sub with bridge := .publishing (bridgeMessage now seq f) }
    | _ => none
  | .publish _ =>
    match sub.bridge with
    | .publishing msg =>
      (sub.perform (CanAdapter.publish sub.policy msg)).map fun sub =>
        { sub with bridge := .receiving }
    | _ => none
  | .close _ =>
    match sub.bridge with
    | .closing => (sub.perform .close).map fun sub => { sub with bridge := .done }
    | _ => none
  | .consume _ op => if op.value.isNone then sub.perform op else none
  | .subscribe _ => none

/-- The message that a bridge has numbered and not yet published. -/
def Subscription.pending (sub : Subscription) : List Message :=
  match sub.bridge with
  | .publishing msg => [msg]
  | _ => []

/-- What the consumers have received and will receive if nothing is dropped. -/
def Subscription.line (sub : Subscription) : List Message :=
  sub.received ++ sub.out.buf ++ sub.pending

namespace Adapter

/-- The adapter after an event, if it can happen. A subscriber asks for a depth of at least
one; a request that the bus refuses changes nothing and is no event. -/
def step (a : Adapter) : Event → Option Adapter
  | .subscribe opts =>
    if 0 < opts.channelDepth then
      some { a with subs := a.subs ++ [{ policy := opts.backPressure, out := outChannel opts }] }
    else none
  | e =>
    a.subs[e.index]?.bind fun sub => (sub.advance a.seq e).map fun sub' =>
      { seq := if e.isIncrement then a.seq + 1 else a.seq
        subs := a.subs.set e.index sub'
        published := if e.isPublish then a.published ++ sub.pending else a.published }

/-- The numbers of the messages, published ones and those on their way, with `a.seq` the
last of them. -/
structure Numbered (a : Adapter) : Prop where
  increasing : ∀ (i : Nat) (sub : Subscription), a.subs[i]? = some sub →
    (sub.line.map (·.seq)).Pairwise (· < ·)
  line_le : ∀ (i : Nat) (sub : Subscription), a.subs[i]? = some sub →
    ∀ m ∈ sub.line, m.seq ≤ a.seq
  published_le : ∀ m ∈ a.published, m.seq ≤ a.seq
  published_nodup : (a.published.map (·.seq)).Nodup
  pending_new : ∀ (i : Nat) (sub : Subscription), a.subs[i]? = some sub →
    ∀ m ∈ sub.pending, ∀ m' ∈ a.published, m.seq ≠ m'.seq
  pending_ne : ∀ (i j : Nat) (sub sub' : Subscription), i ≠ j → a.subs[i]? = some sub →
    a.subs[j]? = some sub' → ∀ m ∈ sub.pending, ∀ m' ∈ sub'.pending, m.seq ≠ m'.seq

end Adapter

variable {sub sub' : Subscription} {seq : UInt64} {e : Event} {a a' : Adapter} {op : Op Message}

/-- An operation hands messages on in their order. -/
theorem Subscription.perform_line (h : sub.perform op = some sub') :
    (sub'.received ++ sub'.out.buf).Sublist
        (sub.received ++ sub.out.buf ++ op.value.toList) ∧ sub'.bridge = sub.bridge := by
  obtain ⟨⟨out, reply⟩, hperform, rfl⟩ := Option.map_eq_some_iff.mp h
  refine ⟨?_, rfl⟩
  rw [List.append_assoc, List.append_assoc]
  exact (effect_of_perform hperform).sublist.append_left sub.received

/-- The ways a step changes a subscription. -/
inductive Moved (seq : UInt64) (sub : Subscription) : Event → Subscription → Prop where
  | quiet {e : Event} {sub' : Subscription} (hinc : e.isIncrement = false)
      (hpub : e.isPublish = false) (hline : sub'.line.Sublist sub.line)
      (hpending : sub'.pending = sub.pending) : Moved seq sub e sub'
  | numbered {i : Nat} {now : Int} {sub' : Subscription} {msg : Message} (hseq : msg.seq = seq + 1)
      (hline : sub'.line = sub.line ++ [msg]) (hpending : sub'.pending = [msg]) :
      Moved seq sub (.increment i now) sub'
  | published {i : Nat} {sub' : Subscription} {msg : Message} (hmsg : sub.pending = [msg])
      (hline : sub'.line.Sublist sub.line) (hpending : sub'.pending = []) :
      Moved seq sub (.publish i) sub'

theorem value_publish (policy : BackPressurePolicy) (msg : Message) :
    (publish policy msg).value = some msg := by
  cases policy <;> rfl

/-- Every step is one of these. -/
theorem moved_of_advance (h : sub.advance seq e = some sub') : Moved seq sub e sub' := by
  obtain ⟨policy, out, bridge, received⟩ := sub
  cases e with
  | subscribe opts => cases h
  | receive i f =>
    cases bridge with
    | receiving =>
      cases f with
      | some f =>
        obtain rfl := Option.some.inj h
        exact .quiet rfl rfl (List.Sublist.refl _) rfl
      | none =>
        obtain rfl := Option.some.inj h
        exact .quiet rfl rfl (List.Sublist.refl _) rfl
    | _ => cases h
  | increment i now =>
    cases bridge with
    | numbering f =>
      obtain rfl := Option.some.inj h
      exact .numbered rfl (by simp [Subscription.line, Subscription.pending]) rfl
    | _ => cases h
  | publish i =>
    cases bridge with
    | publishing msg =>
      obtain ⟨sub'', hperform, rfl⟩ := Option.map_eq_some_iff.mp h
      obtain ⟨hline, -⟩ := Subscription.perform_line hperform
      rw [value_publish] at hline
      exact .published rfl (by simpa [Subscription.line, Subscription.pending] using hline) rfl
    | _ => cases h
  | close i =>
    cases bridge with
    | closing =>
      simp only [Subscription.advance] at h
      obtain ⟨sub'', hperform, rfl⟩ := Option.map_eq_some_iff.mp h
      obtain ⟨hline, -⟩ := Subscription.perform_line hperform
      refine .quiet rfl rfl ?_ rfl
      simpa [Subscription.line, Subscription.pending, Op.value] using hline
    | _ => cases h
  | consume i op =>
    simp only [Subscription.advance] at h
    split at h
    · rename_i hvalue
      obtain ⟨hline, hbridge⟩ := Subscription.perform_line h
      have hpending : sub'.pending = Subscription.pending ⟨policy, out, bridge, received⟩ := by
        simp only [Subscription.pending, hbridge]
      refine .quiet rfl rfl ?_ hpending
      rw [Option.isNone_iff_eq_none.mp hvalue, Option.toList_none, List.append_nil] at hline
      rw [Subscription.line, Subscription.line, hpending]
      exact hline.append_right _
    · cases h

namespace Adapter

/-- A step opens a subscription or moves one. -/
theorem step_cases (h : a.step e = some a') :
    (∃ sub, sub.line = [] ∧ sub.pending = [] ∧ e.isIncrement = false ∧
      a' = { a with subs := a.subs ++ [sub] }) ∨
    ∃ sub sub', a.subs[e.index]? = some sub ∧ Moved a.seq sub e sub' ∧
      a' = { seq := if e.isIncrement then a.seq + 1 else a.seq
             subs := a.subs.set e.index sub'
             published := if e.isPublish then a.published ++ sub.pending else a.published } := by
  cases e with
  | subscribe opts =>
    obtain ⟨-, heq⟩ := Option.ite_none_right_eq_some.mp h
    exact .inl ⟨_, rfl, rfl, rfl, (Option.some.inj heq).symm⟩
  | _ =>
    obtain ⟨sub, hsub, h⟩ := Option.bind_eq_some_iff.mp h
    obtain ⟨sub', hadvance, rfl⟩ := Option.map_eq_some_iff.mp h
    exact .inr ⟨sub, sub', hsub, moved_of_advance hadvance, rfl⟩

/-- The subscriptions after one of them has moved. -/
theorem eq_or_of_set {subs : List Subscription} {i j : Nat} {x : Subscription}
    (h : (subs.set i sub')[j]? = some x) : i = j ∧ x = sub' ∨ i ≠ j ∧ subs[j]? = some x := by
  rw [List.getElem?_set] at h
  split at h
  · rename_i hij
    split at h
    · exact .inl ⟨hij, (Option.some.inj h).symm⟩
    · cases h
  · rename_i hij
    exact .inr ⟨hij, h⟩

/-- The counter grows as long as it does not wrap. -/
theorem lt_add_one (hsmall : seq.toNat + 1 < 2 ^ 64) :
    (seq + 1).toNat = seq.toNat + 1 ∧ seq < seq + 1 := by
  have hnat : (seq + 1).toNat = seq.toNat + 1 := by
    rw [UInt64.toNat_add]
    exact Nat.mod_eq_of_lt hsmall
  exact ⟨hnat, UInt64.lt_iff_toNat_lt.mpr (by omega)⟩

namespace Numbered

/-- A new subscription has no messages. -/
theorem subscribe (h : a.Numbered) (hline : sub.line = []) (hpending : sub.pending = []) :
    Numbered { a with subs := a.subs ++ [sub] } := by
  have hsubs : ∀ (i : Nat) (x : Subscription), (a.subs ++ [sub])[i]? = some x →
      x = sub ∨ a.subs[i]? = some x := by
    intro i x hx
    rw [List.getElem?_append] at hx
    split at hx
    · exact .inr hx
    · exact .inl (List.mem_singleton.mp (List.mem_of_getElem? hx))
  refine ⟨fun i x hx => ?_, fun i x hx => ?_, h.published_le, h.published_nodup,
    fun i x hx => ?_, fun i j x x' hij hx hx' => ?_⟩
  · rcases hsubs i x hx with rfl | hx
    · simp [hline]
    · exact h.increasing i x hx
  · rcases hsubs i x hx with rfl | hx
    · simp [hline]
    · exact h.line_le i x hx
  · rcases hsubs i x hx with rfl | hx
    · simp [hpending]
    · exact h.pending_new i x hx
  · rcases hsubs i x hx with rfl | hx
    · simp [hpending]
    · rcases hsubs j x' hx' with rfl | hx'
      · simp [hpending]
      · exact h.pending_ne i j x x' hij hx hx'

/-- A step that numbers nothing and publishes nothing. -/
theorem quiet (h : a.Numbered) {i : Nat} (hsub : a.subs[i]? = some sub)
    (hline : sub'.line.Sublist sub.line) (hpending : sub'.pending = sub.pending) :
    Numbered { a with subs := a.subs.set i sub' } := by
  have hsubs : ∀ (j : Nat) (x : Subscription), (a.subs.set i sub')[j]? = some x →
      ∃ y, a.subs[j]? = some y ∧ x.line.Sublist y.line ∧ x.pending = y.pending := by
    intro j x hx
    rcases eq_or_of_set hx with ⟨rfl, rfl⟩ | ⟨-, hx⟩
    · exact ⟨sub, hsub, hline, hpending⟩
    · exact ⟨x, hx, List.Sublist.refl _, rfl⟩
  refine ⟨fun j x hx => ?_, fun j x hx m hm => ?_, h.published_le, h.published_nodup,
    fun j x hx m hm => ?_, fun j k x x' hjk hx hx' m hm m' hm' => ?_⟩
  · obtain ⟨y, hy, hxy, -⟩ := hsubs j x hx
    exact (h.increasing j y hy).sublist (hxy.map _)
  · obtain ⟨y, hy, hxy, -⟩ := hsubs j x hx
    exact h.line_le j y hy m (hxy.subset hm)
  · obtain ⟨y, hy, -, hxy⟩ := hsubs j x hx
    exact h.pending_new j y hy m (hxy ▸ hm)
  · obtain ⟨y, hy, -, hxy⟩ := hsubs j x hx
    obtain ⟨y', hy', -, hxy'⟩ := hsubs k x' hx'
    exact h.pending_ne j k y y' hjk hy hy' m (hxy ▸ hm) m' (hxy' ▸ hm')

/-- A bridge numbers a message with the next number, which no message has. -/
theorem increment (h : a.Numbered) (hsmall : a.seq.toNat + 1 < 2 ^ 64) {i : Nat} {msg : Message}
    (hsub : a.subs[i]? = some sub) (hseq : msg.seq = a.seq + 1)
    (hline : sub'.line = sub.line ++ [msg]) (hpending : sub'.pending = [msg]) :
    Numbered { a with seq := a.seq + 1, subs := a.subs.set i sub' } := by
  have hlt : a.seq < msg.seq := hseq ▸ (lt_add_one hsmall).2
  have hle : ∀ {m : Message}, m.seq ≤ a.seq → m.seq ≤ a.seq + 1 := fun hm =>
    UInt64.le_trans hm (UInt64.le_of_lt (lt_add_one hsmall).2)
  have hne : ∀ {m : Message}, m.seq ≤ a.seq → m.seq ≠ msg.seq := fun hm heq =>
    UInt64.lt_irrefl a.seq (UInt64.lt_of_lt_of_le hlt (heq ▸ hm))
  have hwaiting : ∀ (j : Nat) (x : Subscription), a.subs[j]? = some x → ∀ m ∈ x.pending,
      m.seq ≤ a.seq := fun j x hx m hm =>
    h.line_le j x hx m (List.mem_append_right _ hm)
  refine ⟨fun j x hx => ?_, fun j x hx m hm => ?_, fun m hm => hle (h.published_le m hm),
    h.published_nodup, fun j x hx m hm m' hm' => ?_, fun j k x x' hjk hx hx' m hm m' hm' => ?_⟩
  · rcases eq_or_of_set hx with ⟨-, rfl⟩ | ⟨-, hx⟩
    · rw [hline, List.map_append, List.pairwise_append]
      refine ⟨h.increasing i sub hsub, List.pairwise_singleton _ _, fun n hn n' hn' => ?_⟩
      obtain ⟨m, hm, rfl⟩ := List.mem_map.mp hn
      obtain rfl := List.mem_singleton.mp hn'
      exact UInt64.lt_of_le_of_lt (h.line_le i sub hsub m hm) hlt
    · exact h.increasing j x hx
  · rcases eq_or_of_set hx with ⟨-, rfl⟩ | ⟨-, hx⟩
    · rw [hline, List.mem_append, List.mem_singleton] at hm
      rcases hm with hm | rfl
      · exact hle (h.line_le i sub hsub m hm)
      · exact UInt64.le_of_eq hseq
    · exact hle (h.line_le j x hx m hm)
  · rcases eq_or_of_set hx with ⟨-, rfl⟩ | ⟨-, hx⟩
    · obtain rfl := List.mem_singleton.mp (hpending ▸ hm)
      exact (hne (h.published_le m' hm')).symm
    · exact h.pending_new j x hx m hm m' hm'
  · rcases eq_or_of_set hx with ⟨hij, rfl⟩ | ⟨-, hx⟩
    · rcases eq_or_of_set hx' with ⟨hik, -⟩ | ⟨-, hx'⟩
      · exact absurd (hij.symm.trans hik) hjk
      · obtain rfl := List.mem_singleton.mp (hpending ▸ hm)
        exact (hne (hwaiting k x' hx' m' hm')).symm
    · rcases eq_or_of_set hx' with ⟨-, heq⟩ | ⟨-, hx'⟩
      · rw [heq, hpending] at hm'
        obtain rfl := List.mem_singleton.mp hm'
        exact hne (hwaiting j x hx m hm)
      · exact h.pending_ne j k x x' hjk hx hx' m hm m' hm'

/-- A bridge publishes the message it has numbered. -/
theorem publish (h : a.Numbered) {i : Nat} {msg : Message} (hsub : a.subs[i]? = some sub)
    (hmsg : sub.pending = [msg]) (hline : sub'.line.Sublist sub.line)
    (hpending : sub'.pending = []) :
    Numbered { a with subs := a.subs.set i sub', published := a.published ++ sub.pending } := by
  have hmem : msg ∈ sub.pending := hmsg ▸ List.mem_singleton_self msg
  refine ⟨fun j x hx => ?_, fun j x hx m hm => ?_, fun m hm => ?_, ?_, fun j x hx m hm m' hm' => ?_,
    fun j k x x' hjk hx hx' m hm m' hm' => ?_⟩
  · rcases eq_or_of_set hx with ⟨-, rfl⟩ | ⟨-, hx⟩
    · exact (h.increasing i sub hsub).sublist (hline.map _)
    · exact h.increasing j x hx
  · rcases eq_or_of_set hx with ⟨-, rfl⟩ | ⟨-, hx⟩
    · exact h.line_le i sub hsub m (hline.subset hm)
    · exact h.line_le j x hx m hm
  · rcases List.mem_append.mp hm with hm | hm
    · exact h.published_le m hm
    · exact h.line_le i sub hsub m (List.mem_append_right _ hm)
  · rw [List.map_append, List.nodup_append]
    refine ⟨h.published_nodup, by simp [hmsg], fun n hn n' hn' => ?_⟩
    obtain ⟨m, hm, rfl⟩ := List.mem_map.mp hn
    obtain ⟨m', hm', rfl⟩ := List.mem_map.mp hn'
    exact (h.pending_new i sub hsub m' hm' m hm).symm
  · rcases eq_or_of_set hx with ⟨-, rfl⟩ | ⟨hij, hx⟩
    · rw [hpending] at hm
      cases hm
    · rcases List.mem_append.mp hm' with hm' | hm'
      · exact h.pending_new j x hx m hm m' hm'
      · exact h.pending_ne j i x sub hij.symm hx hsub m hm m' hm'
  · rcases eq_or_of_set hx with ⟨-, rfl⟩ | ⟨-, hx⟩
    · rw [hpending] at hm
      cases hm
    · rcases eq_or_of_set hx' with ⟨-, rfl⟩ | ⟨-, hx'⟩
      · rw [hpending] at hm'
        cases hm'
      · exact h.pending_ne j k x x' hjk hx hx' m hm m' hm'

end Numbered

/-- A step keeps the numbers in order as long as the counter does not wrap. -/
theorem numbered_step (h : a.Numbered) (hstep : a.step e = some a')
    (hsmall : a.seq.toNat + [e].countP Event.isIncrement < 2 ^ 64) :
    a'.Numbered ∧ a'.seq.toNat = a.seq.toNat + [e].countP Event.isIncrement := by
  rcases step_cases hstep with ⟨sub, hline, hpending, hinc, rfl⟩ | ⟨sub, sub', hsub, hmoved, rfl⟩
  · exact ⟨h.subscribe hline hpending, by simp [hinc]⟩
  · cases hmoved with
    | quiet hinc hpub hline hpending =>
      simp only [hinc, hpub]
      exact ⟨h.quiet hsub hline hpending, by simp [hinc]⟩
    | numbered hseq hline hpending =>
      exact ⟨h.increment hsmall hsub hseq hline hpending, (lt_add_one hsmall).1⟩
    | published hmsg hline hpending =>
      exact ⟨h.publish hsub hmsg hline hpending, rfl⟩

/-- Along a run of fewer than 2^64 messages the numbers stay in order. -/
theorem numbered_run {es : List Event} (h : a.Numbered) (hrun : Runs.run step a es = some a')
    (hsmall : a.seq.toNat + es.countP Event.isIncrement < 2 ^ 64) : a'.Numbered := by
  induction es generalizing a with
  | nil => exact Option.some.inj hrun ▸ h
  | cons e es ih =>
    obtain ⟨b, hb, hrest⟩ := Option.bind_eq_some_iff.mp hrun
    rw [← List.singleton_append, List.countP_append] at hsmall
    obtain ⟨hnumbered, hseq⟩ := numbered_step h hb (by omega)
    exact ih hnumbered hrest (by omega)

/-- A new adapter has published nothing. -/
theorem numbered_init : Numbered {} := by
  refine ⟨?_, ?_, ?_, List.nodup_nil, ?_, ?_⟩ <;> simp

/-- However the bridges and the consumers take their steps, what a subscription receives and
holds is numbered in increasing order, and no number is published twice. -/
theorem seq_increasing_unique (es : List Event) (a : Adapter) (hrun : Runs.run step {} es = some a)
    (hsmall : es.countP Event.isIncrement < 2 ^ 64) :
    (∀ sub ∈ a.subs, ((sub.received ++ sub.out.buf).map (·.seq)).Pairwise (· < ·)) ∧
      (a.published.map (·.seq)).Nodup := by
  have hnumbered : a.Numbered := numbered_run numbered_init hrun (by simpa using hsmall)
  refine ⟨fun sub hsub => ?_, hnumbered.published_nodup⟩
  obtain ⟨i, hi⟩ := List.mem_iff_getElem?.mp hsub
  exact (hnumbered.increasing i sub hi).sublist ((List.sublist_append_left _ _).map _)

/-- Two bridges number a message each before the first of them publishes. -/
def twoBridges : List Event :=
  [.subscribe { channelDepth := 1, backPressure := .dropOldest }, .subscribe { channelDepth := 1 },
    .receive 0 (some { id := 0x10 }), .receive 1 (some { id := 0x10 }), .increment 1 0,
    .increment 0 0, .publish 0, .receive 0 (some { id := 0x11 }), .publish 1, .increment 0 0,
    .publish 0]

theorem seq_increasing_unique_two_bridges :
    ∃ a, Runs.run step {} twoBridges = some a ∧ a.published.map (·.seq) = [2, 1, 3] ∧
      (∀ sub ∈ a.subs, ((sub.received ++ sub.out.buf).map (·.seq)).Pairwise (· < ·)) ∧
      (a.published.map (·.seq)).Nodup :=
  ⟨_, rfl, rfl, seq_increasing_unique twoBridges _ rfl (by decide)⟩

end Adapter

end CppCan.CanAdapter
