import CppCan.Virt.Calls
import CppCan.Virt.Channels

/-!
# The counters of a bus

No call looks at the counters: with other counters a bus takes the same steps. A
frame that matches no subscription changes nothing else.
-/

namespace CppCan.Virt.Bus

open CppCan.Core CppCan.Relay

/-- The bus with other counters. -/
def withMetrics (b : Bus) (m : Metrics) : Bus := { b with metrics := m }

variable {b b' : Bus} {i : Nat} {s : Subscription} {f : Frame} {m : Metrics}

@[simp] theorem chan_withMetrics (j : Nat) : (b.withMetrics m).chan j = b.chan j := rfl

/-- A round of the fan-out does not look at the counters. -/
theorem deliver_withMetrics (h : b.deliver s f = some b') (m : Metrics) :
    ∃ m', (b.withMetrics m).deliver s f = some (b'.withMetrics m') := by
  unfold deliver at h ⊢
  rw [chan_withMetrics]
  split at h
  · rename_i hmatch
    obtain rfl := Option.some.inj h
    rw [if_pos hmatch]
    exact ⟨m, rfl⟩
  · rename_i hmatch
    rw [if_neg hmatch]
    cases hpolicy : s.backPressure with
    | dropNewest =>
      simp only [hpolicy] at h ⊢
      generalize (b.chan s.ch).trySend f = res at h ⊢
      obtain ⟨c, result⟩ := res
      cases result with
      | ok =>
        change some ((b.setChan s.ch c).countDeliver f) = some b' at h
        obtain rfl := Option.some.inj h
        exact ⟨_, rfl⟩
      | full =>
        change some (b.setChan s.ch c).countDrop = some b' at h
        obtain rfl := Option.some.inj h
        exact ⟨_, rfl⟩
      | closed =>
        change some (b.setChan s.ch c) = some b' at h
        obtain rfl := Option.some.inj h
        exact ⟨_, rfl⟩
    | dropOldest =>
      simp only [hpolicy] at h ⊢
      obtain rfl := Option.some.inj h
      exact ⟨_, rfl⟩
    | block =>
      simp only [hpolicy] at h ⊢
      obtain ⟨⟨c, ok⟩, hsend, rfl⟩ := Option.map_eq_some_iff.mp h
      exact ⟨_, by rw [hsend]; rfl⟩

/-- The whole fan-out does not look at the counters. -/
theorem fanOut_withMetrics {subs : List Subscription} (h : b.fanOut f subs = some b')
    (m : Metrics) : ∃ m', (b.withMetrics m).fanOut f subs = some (b'.withMetrics m') := by
  induction subs generalizing b m with
  | nil =>
    obtain rfl := Option.some.inj h
    exact ⟨m, rfl⟩
  | cons s subs ih =>
    rw [fanOut, List.foldlM_cons] at h
    obtain ⟨b₁, hb, hrest⟩ := Option.bind_eq_some_iff.mp h
    obtain ⟨m₁, hm₁⟩ := deliver_withMetrics hb m
    obtain ⟨m₂, hm₂⟩ := ih hrest m₁
    refine ⟨m₂, ?_⟩
    rw [fanOut, List.foldlM_cons, hm₁]
    exact hm₂

/-- A whole send does not look at the counters. -/
theorem send_withMetrics {err : Option ErrorCode} (h : b.send f = some (b', err)) (m : Metrics) :
    ∃ m', (b.withMetrics m).send f = some (b'.withMetrics m', err) := by
  unfold send at h ⊢
  split at h
  · obtain ⟨rfl, rfl⟩ := Prod.mk.inj (Option.some.inj h)
    exact ⟨_, rfl⟩
  · split at h
    · rename_i hclosed
      obtain ⟨rfl, rfl⟩ := Prod.mk.inj (Option.some.inj h)
      rw [if_pos (show (b.withMetrics m).closed = true from hclosed)]
      exact ⟨_, rfl⟩
    · rename_i hopen
      rw [if_neg (show ¬ (b.withMetrics m).closed = true from hopen)]
      obtain ⟨b₁, hb, heq⟩ := Option.map_eq_some_iff.mp h
      obtain ⟨rfl, rfl⟩ := Prod.mk.inj heq
      obtain ⟨m₁, hm₁⟩ := fanOut_withMetrics hb ((b.withMetrics m).countWrite f).metrics
      exact ⟨m₁, congrArg (Option.map _) hm₁⟩

/-- A whole send leaves the list of subscriptions alone. -/
theorem send_subs {err : Option ErrorCode} (h : b.send f = some (b', err)) : b'.subs = b.subs := by
  have hfan : ∀ (subs : List Subscription) (b₁ b₂ : Bus), b₁.fanOut f subs = some b₂ →
      b₂.subs = b₁.subs := by
    intro subs
    induction subs with
    | nil => exact fun b₁ b₂ h => Option.some.inj h ▸ rfl
    | cons s subs ih =>
      intro b₁ b₂ h
      rw [fanOut, List.foldlM_cons] at h
      obtain ⟨b₃, hb, hrest⟩ := Option.bind_eq_some_iff.mp h
      rw [ih b₃ b₂ hrest, deliver_subs hb]
  unfold send at h
  split at h
  · obtain ⟨rfl, -⟩ := Prod.mk.inj (Option.some.inj h)
    rfl
  · split at h
    · obtain ⟨rfl, -⟩ := Prod.mk.inj (Option.some.inj h)
      rfl
    · obtain ⟨b₁, hb, heq⟩ := Option.map_eq_some_iff.mp h
      obtain ⟨rfl, -⟩ := Prod.mk.inj heq
      exact hfan b.subs (b.countWrite f) b₁ hb

/-- The beginning of a call does not look at the counters. -/
theorem begin_withMetrics (b : Bus) (c : Call) (m : Metrics) :
    ∃ m', c.begin (b.withMetrics m) = ((c.begin b).1.withMetrics m', (c.begin b).2) := by
  cases c with
  | send f =>
    unfold Call.begin
    dsimp only
    split
    · exact ⟨_, rfl⟩
    · exact ⟨m, rfl⟩
  | _ => exact ⟨m, rfl⟩

/-- A step of a call does not look at the counters. -/
theorem step_withMetrics {pc pc' : Pc} (h : b.step i pc = some (b', pc')) (m : Metrics) :
    ∃ m', (b.withMetrics m).step i pc = some (b'.withMetrics m', pc') := by
  cases outcome_of_step h with
  | sendLocked hmu => exact ⟨m, congrArg (Option.map _) hmu⟩
  | sendRefused hclosed =>
    rw [step, if_pos (show (b.withMetrics m).closed = true from hclosed)]
    exact ⟨_, rfl⟩
  | sendAccepted hopen =>
    rw [step, if_neg (show ¬ (b.withMetrics m).closed = true by simp [withMetrics, hopen])]
    exact ⟨_, rfl⟩
  | sendDone => exact ⟨m, rfl⟩
  | delivered hdeliver =>
    obtain ⟨m₁, hm₁⟩ := deliver_withMetrics hdeliver m
    exact ⟨m₁, congrArg (Option.map _) hm₁⟩
  | subscribeLocked hmu => exact ⟨m, congrArg (Option.map _) hmu⟩
  | subscribeRefused hclosed =>
    rw [step, if_pos (show (b.withMetrics m).closed = true from hclosed)]
    exact ⟨m, rfl⟩
  | subscribed hopen =>
    rw [step, if_neg (show ¬ (b.withMetrics m).closed = true by simp [withMetrics, hopen])]
    exact ⟨m, rfl⟩
  | closeLocked hmu => exact ⟨m, congrArg (Option.map _) hmu⟩
  | closeAgain hclosed =>
    rw [step, if_pos (show (b.withMetrics m).closed = true from hclosed)]
    exact ⟨m, rfl⟩
  | closeBegun hopen =>
    rw [step, if_neg (show ¬ (b.withMetrics m).closed = true by simp [withMetrics, hopen])]
    exact ⟨m, rfl⟩
  | closeDone => exact ⟨m, rfl⟩
  | closeNext => exact ⟨m, rfl⟩
  | received hrecv => exact ⟨m, congrArg (Option.map _) hrecv⟩

/-- A frame that matches no subscription changes only the counters. -/
theorem send_of_not_matches {err : Option ErrorCode}
    (hnone : f.Valid → ∀ s ∈ b.subs, matchesAny s.filters f = false)
    (h : b.send f = some (b', err)) : ∃ m, b' = b.withMetrics m := by
  unfold send at h
  split at h
  · obtain ⟨rfl, -⟩ := Prod.mk.inj (Option.some.inj h)
    exact ⟨_, rfl⟩
  · rename_i hvalid
    split at h
    · obtain ⟨rfl, -⟩ := Prod.mk.inj (Option.some.inj h)
      exact ⟨_, rfl⟩
    · obtain ⟨b₁, hb, heq⟩ := Option.map_eq_some_iff.mp h
      obtain ⟨rfl, -⟩ := Prod.mk.inj heq
      have hskip : ∀ subs : List Subscription, (∀ s ∈ subs, matchesAny s.filters f = false) →
          (b.countWrite f).fanOut f subs = some (b.countWrite f) := by
        intro subs hsubs
        induction subs with
        | nil => rfl
        | cons s subs ih =>
          obtain ⟨hs, hsubs⟩ := List.forall_mem_cons.mp hsubs
          have hdeliver : (b.countWrite f).deliver s f = some (b.countWrite f) := by
            rw [deliver, hs]
            rfl
          rw [fanOut, List.foldlM_cons, hdeliver]
          exact ih hsubs
      rw [hskip b.subs (hnone hvalid)] at hb
      obtain rfl := Option.some.inj hb
      exact ⟨_, rfl⟩

end CppCan.Virt.Bus
