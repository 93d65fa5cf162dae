import CppCan.Can.Fifo
import CppCan.Virt.Channels

/-!
# The order in which subscribers receive

Sends are numbered when they are accepted, and the frames in the channels carry the
numbers of their sends. Senders share the lock, so the fan-outs of two sends may come
between each other and reach different subscribers in different orders. A fan-out
that has ended before another one begins is ahead of it in every channel.
-/

namespace CppCan.Virt

open CppCan.Core CppCan.Relay Chan

/-- Of two different members of a list one comes before the other. -/
theorem sublist_or_sublist {α : Type} {l : List α} {a b : α} (ha : a ∈ l) (hb : b ∈ l)
    (hne : a ≠ b) : [a, b].Sublist l ∨ [b, a].Sublist l := by
  obtain ⟨s, r, rfl⟩ := List.append_of_mem ha
  rcases List.mem_append.mp hb with hs | hr
  · exact .inr ((List.singleton_sublist.mpr hs).append
      (List.singleton_sublist.mpr List.mem_cons_self))
  · have hr := (List.mem_cons.mp hr).resolve_left hne.symm
    exact .inl (((List.singleton_sublist.mpr hr).cons_cons a).trans
      (List.sublist_append_right _ _))

/-- A world whose buffered frames carry the numbers of their sends; `next` is the number of
the next accepted send and `current` that of the send in a thread's fan-out. -/
structure Tagged where
  world : World := {}
  next : Nat := 0
  current : Nat → Nat := fun _ => 0
  /-- The sends whose fan-out has ended. -/
  ended : List Nat := []
  /-- The sends whose fan-out had ended when this one was accepted. -/
  before : Nat → List Nat := fun _ => []
  bufs : Nat → List (Item Frame) := fun _ => []
  received : Nat → List (Item Frame) := fun _ => []

namespace Tagged

/-- The channel with this index, its frames numbered. -/
def chan (t : Tagged) (ch : Nat) : Chan (Item Frame) :=
  { capacity := (t.world.bus.chan ch).capacity
    buf := t.bufs ch
    closed := (t.world.bus.chan ch).closed }

/-- The channel operation of thread `i` takes place on the numbered frames. -/
def perform (t : Tagged) (i : Nat) : Tagged :=
  match (t.world.threads i).op with
  | none => t
  | some (ch, op) =>
    match (t.chan ch).perform (op.map (t.current i, ·)) with
    | none => t
    | some (c, reply) =>
      { t with
        bufs := Function.update t.bufs ch c.buf
        received := Function.update t.received ch (t.received ch ++ reply.value.toList) }

/-- Thread `i` has taken a step, which leads to the world `w`. -/
def follow (t : Tagged) (i : Nat) (w : World) : Tagged :=
  match t.world.threads i with
  | .sendCheck _ =>
    if t.world.bus.closed then { t with world := w }
    else
      { t with
        world := w
        next := t.next + 1
        current := Function.update t.current i t.next
        before := Function.update t.before t.next t.ended }
  | .fanOut _ [] => { t with world := w, ended := t.current i :: t.ended }
  | _ => { t.perform i with world := w }

/-- The world after an event, with the numbers. -/
def step (t : Tagged) (e : Event) : Option Tagged :=
  (t.world.step e).map fun w =>
    match e with
    | .begin _ _ => { t with world := w }
    | .advance i => t.follow i w

/-- The world after a sequence of events, with the numbers. -/
def run : Tagged → List Event → Option Tagged
  | t, [] => some t
  | t, e :: es => (t.step e).bind fun t => t.run es

/-- What holds of the numbers: the sends in their fan-outs are different ones and have
not ended, and nothing is behind a frame whose send was over before. -/
structure Ordered (t : Tagged) : Prop where
  running : ∀ i f rest, t.world.threads i = .fanOut f rest →
    t.current i < t.next ∧ t.current i ∉ t.ended
  distinct : ∀ i j f g rest rest', t.world.threads i = .fanOut f rest →
    t.world.threads j = .fanOut g rest' → t.current i = t.current j → i = j
  ended_lt : ∀ k ∈ t.ended, k < t.next
  before_subset : ∀ k, t.before k ⊆ t.ended
  before_lt : ∀ k, ∀ j ∈ t.before k, j < k
  item_lt : ∀ ch, ∀ x ∈ t.received ch ++ t.bufs ch, x.1 < t.next
  order : ∀ ch, (t.received ch ++ t.bufs ch).Pairwise fun x y => y.1 ∉ t.before x.1

end Tagged

/-- Only an accepted send and a round of a fan-out lead into a fan-out. -/
theorem Bus.fanOut_of_step {b b' : Bus} {i : Nat} {pc : Pc} {f : Frame} {rest : List Subscription}
    (h : b.step i pc = some (b', .fanOut f rest)) :
    (pc = .sendCheck f ∧ b.closed = false) ∨ ∃ s, pc = .fanOut f (s :: rest) := by
  cases Bus.outcome_of_step h with
  | sendAccepted hopen => exact .inl ⟨rfl, hopen⟩
  | @delivered f s rest b' hdeliver => exact .inr ⟨s, rfl⟩

/-- No call begins in a fan-out. -/
theorem Call.begin_ne_fanOut {b : Bus} {c : Call} {f : Frame} {rest : List Subscription} :
    (c.begin b).2 ≠ .fanOut f rest := by
  cases c with
  | send g =>
    unfold Call.begin
    dsimp only
    split <;> simp
  | _ => simp [Call.begin]

namespace Tagged

variable {t t' : Tagged} {e : Event} {es : List Event} {i : Nat} {w : World}

/-- As long as no thread enters a fan-out, the world may change. -/
theorem Ordered.of_threads (h : t.Ordered)
    (hw : ∀ j f rest, w.threads j = .fanOut f rest →
      ∃ g later, t.world.threads j = .fanOut g later) : Ordered { t with world := w } := by
  refine ⟨?_, ?_, h.ended_lt, h.before_subset, h.before_lt, h.item_lt, h.order⟩
  · intro j f rest hj
    obtain ⟨g, later, hg⟩ := hw j f rest hj
    exact h.running j g later hg
  · intro j k f g rest rest' hj hk
    obtain ⟨f', later, hf⟩ := hw j f rest hj
    obtain ⟨g', later', hg⟩ := hw k g rest' hk
    exact h.distinct j k f' g' later later' hf hg

/-- Only a send in progress offers a frame. -/
theorem Ordered.offer (h : t.Ordered) {ch : Nat} {op : Op Frame} {f : Frame}
    (hop : (t.world.threads i).op = some (ch, op)) (hf : op.value = some f) :
    t.current i < t.next ∧ t.current i ∉ t.ended := by
  cases hpc : t.world.threads i with
  | fanOut g rest => exact h.running i g rest hpc
  | closing rest =>
    rw [hpc] at hop
    cases rest with
    | nil => cases hop
    | cons s rest =>
      cases hop
      cases hf
  | recv j =>
    rw [hpc] at hop
    cases hop
    cases hf
  | _ =>
    rw [hpc] at hop
    cases hop

/-- An operation puts frames only behind the others and takes them from the front. -/
theorem Ordered.perform (h : t.Ordered) (i : Nat) : (t.perform i).Ordered := by
  unfold Tagged.perform
  split
  · exact h
  · rename_i ch op hop
    split
    · exact h
    · rename_i c reply hc
      have hsub := (effect_of_perform hc).sublist.append_left (t.received ch)
      rw [← List.append_assoc, ← List.append_assoc] at hsub
      have hnew : ∀ x ∈ (op.map (t.current i, ·)).value.toList,
          x.1 = t.current i ∧ t.current i < t.next ∧ t.current i ∉ t.ended := by
        intro x hx
        rw [Op.value_map, Option.mem_toList, Option.map_eq_some_iff] at hx
        obtain ⟨f, hf, rfl⟩ := hx
        exact ⟨rfl, h.offer hop hf⟩
      refine ⟨h.running, h.distinct, h.ended_lt, h.before_subset, h.before_lt, fun k => ?_,
        fun k => ?_⟩
      · by_cases hk : k = ch
        · subst hk
          simp only [Function.update_self]
          intro x hx
          rcases List.mem_append.mp (hsub.subset hx) with hx | hx
          · exact h.item_lt k x hx
          · obtain ⟨heq, hlt, -⟩ := hnew x hx
            rwa [heq]
        · simpa only [Function.update_of_ne hk] using h.item_lt k
      · by_cases hk : k = ch
        · subst hk
          simp only [Function.update_self]
          apply List.Pairwise.sublist hsub
          rw [List.pairwise_append]
          refine ⟨h.order k, ?_, fun x _ y hy hmem => ?_⟩
          · cases (op.map (t.current i, ·)).value <;> simp
          · obtain ⟨heq, -, hnot⟩ := hnew y hy
            exact hnot (heq ▸ h.before_subset x.1 hmem)
        · simpa only [Function.update_of_ne hk] using h.order k

/-- It leaves the world alone. -/
@[simp] theorem world_perform (t : Tagged) (i : Nat) : (t.perform i).world = t.world := by
  unfold Tagged.perform
  split
  · rfl
  · split <;> rfl

/-- A send is accepted and gets the next number. -/
theorem Ordered.accept (h : t.Ordered)
    (hw : ∀ j f rest, j ≠ i → w.threads j = .fanOut f rest →
      ∃ g later, t.world.threads j = .fanOut g later) :
    Ordered { t with
      world := w
      next := t.next + 1
      current := Function.update t.current i t.next
      before := Function.update t.before t.next t.ended } := by
  have hbefore : ∀ ch, ∀ x ∈ t.received ch ++ t.bufs ch,
      Function.update t.before t.next t.ended x.1 = t.before x.1 := fun ch x hx =>
    Function.update_of_ne (Nat.ne_of_lt (h.item_lt ch x hx)) _ _
  refine ⟨?_, ?_, ?_, ?_, ?_, ?_, ?_⟩
  · intro j f rest hj
    by_cases hji : j = i
    · subst hji
      simp only [Function.update_self]
      exact ⟨Nat.lt_succ_self _, fun hmem => Nat.lt_irrefl _ (h.ended_lt _ hmem)⟩
    · obtain ⟨g, later, hg⟩ := hw j f rest hji hj
      obtain ⟨hlt, hnot⟩ := h.running j g later hg
      simp only [Function.update_of_ne hji]
      exact ⟨Nat.lt_succ_of_lt hlt, hnot⟩
  · intro j k f g rest rest' hj hk heq
    by_cases hji : j = i
    · by_cases hki : k = i
      · rw [hji, hki]
      · obtain ⟨g', later, hg⟩ := hw k g rest' hki hk
        have hlt := (h.running k g' later hg).1
        simp only [hji, Function.update_self, Function.update_of_ne hki] at heq
        omega
    · obtain ⟨f', later, hf⟩ := hw j f rest hji hj
      have hlt := (h.running j f' later hf).1
      by_cases hki : k = i
      · simp only [hki, Function.update_self, Function.update_of_ne hji] at heq
        omega
      · obtain ⟨g', later', hg⟩ := hw k g rest' hki hk
        simp only [Function.update_of_ne hji, Function.update_of_ne hki] at heq
        exact h.distinct j k f' g' later later' hf hg heq
  · exact fun k hk => Nat.lt_succ_of_lt (h.ended_lt k hk)
  · intro k
    by_cases hk : k = t.next
    · subst hk
      simp
    · simpa only [Function.update_of_ne hk] using h.before_subset k
  · intro k j hj
    by_cases hk : k = t.next
    · subst hk
      simp only [Function.update_self] at hj
      exact h.ended_lt j hj
    · simp only [Function.update_of_ne hk] at hj
      exact h.before_lt k j hj
  · exact fun ch x hx => Nat.lt_succ_of_lt (h.item_lt ch x hx)
  · intro ch
    apply (h.order ch).imp_of_mem
    intro x y hx _ hxy
    dsimp only
    rwa [hbefore ch x hx]

/-- A fan-out ends. -/
theorem Ordered.finish (h : t.Ordered) {f : Frame} {rest : List Subscription}
    (hi : t.world.threads i = .fanOut f rest)
    (hw : ∀ j f rest, w.threads j = .fanOut f rest →
      j ≠ i ∧ ∃ g later, t.world.threads j = .fanOut g later) :
    Ordered { t with world := w, ended := t.current i :: t.ended } := by
  refine ⟨?_, ?_, ?_, ?_, h.before_lt, h.item_lt, h.order⟩
  · intro j g later hj
    obtain ⟨hji, g', later', hg⟩ := hw j g later hj
    obtain ⟨hlt, hnot⟩ := h.running j g' later' hg
    refine ⟨hlt, List.not_mem_cons_of_ne_of_not_mem ?_ hnot⟩
    exact fun heq => hji (h.distinct j i g' f later' rest hg hi heq)
  · intro j k g g' later later' hj hk
    obtain ⟨-, h₁, l₁, hj'⟩ := hw j g later hj
    obtain ⟨-, h₂, l₂, hk'⟩ := hw k g' later' hk
    exact h.distinct j k h₁ h₂ l₁ l₂ hj' hk'
  · intro k hk
    rcases List.mem_cons.mp hk with rfl | hk
    · exact (h.running i f rest hi).1
    · exact h.ended_lt k hk
  · exact fun k => List.Subset.trans (h.before_subset k) (List.subset_cons_self _ _)

/-- Which threads are in a fan-out after a step of thread `i`. -/
theorem fanOut_of_update {b : Bus} {pc : Pc} (hstep : t.world.bus.step i (t.world.threads i) =
      some (b, pc)) (j : Nat) (f : Frame) (rest : List Subscription)
    (hj : Function.update t.world.threads i pc j = .fanOut f rest) :
    j ≠ i ∧ t.world.threads j = .fanOut f rest ∨ j = i ∧
      ((t.world.threads i = .sendCheck f ∧ t.world.bus.closed = false) ∨
        ∃ s, t.world.threads i = .fanOut f (s :: rest)) := by
  by_cases hji : j = i
  · subst hji
    rw [Function.update_self] at hj
    subst hj
    exact .inr ⟨rfl, Bus.fanOut_of_step hstep⟩
  · rw [Function.update_of_ne hji] at hj
    exact .inl ⟨hji, hj⟩

/-- Every event keeps the order. -/
theorem Ordered.step (h : t.Ordered) (he : t.step e = some t') : t'.Ordered := by
  obtain ⟨w, hw, rfl⟩ := Option.map_eq_some_iff.mp he
  cases e with
  | begin i c =>
    simp only [World.step] at hw
    split at hw
    · obtain rfl := Option.some.inj hw
      apply h.of_threads
      intro j f rest hj
      by_cases hji : j = i
      · subst hji
        simp only [Function.update_self] at hj
        exact absurd hj Call.begin_ne_fanOut
      · simp only [Function.update_of_ne hji] at hj
        exact ⟨f, rest, hj⟩
    · cases hw
  | advance i =>
    obtain ⟨⟨b, pc⟩, hstep, rfl⟩ := Option.map_eq_some_iff.mp hw
    have hother (hcheck : ∀ f, t.world.threads i = .sendCheck f → t.world.bus.closed = true)
        (j f rest) (hj : Function.update t.world.threads i pc j = .fanOut f rest) :
        ∃ g later, t.world.threads j = .fanOut g later := by
      rcases fanOut_of_update hstep j f rest hj with ⟨-, hj⟩ | ⟨rfl, ⟨hsend, hopen⟩ | ⟨s, hs⟩⟩
      · exact ⟨f, rest, hj⟩
      · rw [hcheck f hsend] at hopen
        cases hopen
      · exact ⟨f, s :: rest, hs⟩
    have hmove (hpc : ∀ f, t.world.threads i ≠ .sendCheck f) :
        Ordered { t.perform i with
          world := ⟨b, Function.update t.world.threads i pc⟩ } := by
      apply (h.perform i).of_threads
      rw [world_perform]
      exact hother fun f hf => absurd hf (hpc f)
    dsimp only [follow]
    cases hpc : t.world.threads i with
    | sendCheck f =>
      dsimp only
      split
      · rename_i hclosed
        exact h.of_threads (hother fun _ _ => hclosed)
      · apply h.accept
        intro j g rest hji hj
        dsimp only at hj
        rw [Function.update_of_ne hji] at hj
        exact ⟨g, rest, hj⟩
    | fanOut f rest =>
      cases rest with
      | nil =>
        apply h.finish hpc
        intro j g later hj
        rcases fanOut_of_update hstep j g later hj with ⟨hji, hj⟩ | ⟨rfl, ⟨hsend, -⟩ | ⟨s, hs⟩⟩
        · exact ⟨hji, g, later, hj⟩
        · rw [hpc] at hsend
          cases hsend
        · rw [hpc] at hs
          cases hs
      | cons s rest => exact hmove (by simp [hpc])
    | _ => exact hmove (by simp [hpc])

/-- The events of a run as a run of the library. -/
theorem run_eq (t : Tagged) (es : List Event) : t.run es = Runs.run step t es := by
  induction es generalizing t with
  | nil => rfl
  | cons e es ih => simp only [run, Runs.run, ih]

/-- In every run the order is kept. -/
theorem ordered_of_run (ht : t.Ordered) (h : t.run es = some t') : t'.Ordered := by
  rw [run_eq] at h
  exact Runs.invariant Ordered (fun _ _ _ ht hu => ht.step hu) ht h

/-- Before the first event there is nothing to order. -/
theorem ordered_empty : Ordered {} where
  running _ _ _ hi := by cases hi
  distinct _ _ _ _ _ _ hi := by cases hi
  ended_lt _ hk := by cases hk
  before_subset _ := List.Subset.refl _
  before_lt _ _ hj := by cases hj
  item_lt _ _ hx := by cases hx
  order _ := List.Pairwise.nil

/-- The numbers of the sends whose frames were received from a channel, in order. -/
def receivedNumbers (t : Tagged) (ch : Nat) : List Nat := numbers (t.received ch)

/-- A send that had ended before another began is received first. -/
theorem received_in_order (h : run {} es = some t) {p q ch : Nat} (hpq : p ∈ t.before q)
    (hp : p ∈ t.receivedNumbers ch) (hq : q ∈ t.receivedNumbers ch) :
    [p, q].Sublist (t.receivedNumbers ch) ∧ ¬ [q, p].Sublist (t.receivedNumbers ch) := by
  have hordered := ordered_of_run ordered_empty h
  have hpairs : (t.receivedNumbers ch).Pairwise fun a b => b ∉ t.before a :=
    List.pairwise_map.mpr ((hordered.order ch).sublist (List.sublist_append_left _ _))
  have hnot : ¬ [q, p].Sublist (t.receivedNumbers ch) := fun hqp =>
    hpairs.forall_sublist hqp hpq
  have hne : p ≠ q := Nat.ne_of_lt (hordered.before_lt q p hpq)
  exact ⟨(sublist_or_sublist hp hq hne).resolve_right hnot, hnot⟩

/-- Two subscribers that both receive the frames of two sends, of which one had ended
its fan-out before the other began, receive them in the same order. -/
theorem order_agreement (h : run {} es = some t) {p q c d : Nat}
    (hpq : p ∈ t.before q ∨ q ∈ t.before p)
    (hpc : p ∈ t.receivedNumbers c) (hqc : q ∈ t.receivedNumbers c)
    (hpd : p ∈ t.receivedNumbers d) (hqd : q ∈ t.receivedNumbers d) :
    [p, q].Sublist (t.receivedNumbers c) ↔ [p, q].Sublist (t.receivedNumbers d) := by
  rcases hpq with hpq | hqp
  · have hc := (received_in_order h hpq hpc hqc).1
    have hd := (received_in_order h hpq hpd hqd).1
    exact iff_of_true hc hd
  · have hc := (received_in_order h hqp hqc hpc).2
    have hd := (received_in_order h hqp hqd hpd).2
    exact iff_of_false hc hd

/-- Two subscribers, and then the steps of two senders in the order given by `senders`
before both subscribers receive twice. -/
def twoSenders (senders : List Event) : List Event :=
  [.begin 0 (.subscribe [] []), .advance 0, .advance 0,
    .begin 0 (.subscribe [] []), .advance 0, .advance 0,
    .begin 1 (.send { id := 0x10, data := [1] }), .begin 2 (.send { id := 0x20, data := [2] })] ++
  senders ++
  [.begin 3 (.recv 0), .advance 3, .begin 3 (.recv 0), .advance 3,
    .begin 3 (.recv 1), .advance 3, .begin 3 (.recv 1), .advance 3]

/-- One fan-out after the other. -/
theorem order_agreement_sequential : ∃ t,
    run {} (twoSenders (List.replicate 5 (.advance 1) ++ List.replicate 5 (.advance 2))) = some t ∧
      ([0, 1].Sublist (t.receivedNumbers 0) ↔ [0, 1].Sublist (t.receivedNumbers 1)) := by
  obtain ⟨t, ht⟩ : ∃ t, run {}
      (twoSenders (List.replicate 5 (.advance 1) ++ List.replicate 5 (.advance 2))) = some t :=
    ⟨_, rfl⟩
  have hnumbers : t.before 1 = [0] ∧ t.receivedNumbers 0 = [0, 1] ∧
      t.receivedNumbers 1 = [0, 1] := by
    obtain rfl := Option.some.inj ht
    exact ⟨rfl, rfl, rfl⟩
  obtain ⟨hbefore, h0, h1⟩ := hnumbers
  refine ⟨t, ht, order_agreement ht (.inl ?_) ?_ ?_ ?_ ?_⟩ <;> simp [hbefore, h0, h1]

/-- The first sender reaches the first subscriber first, and the second sender the second
one: the subscribers receive the two frames in opposite orders. -/
theorem order_disagreement :
    ¬ ∀ es t, run {} es = some t → ∀ p q c d,
      p ∈ t.receivedNumbers c → q ∈ t.receivedNumbers c →
      p ∈ t.receivedNumbers d → q ∈ t.receivedNumbers d →
      ([p, q].Sublist (t.receivedNumbers c) ↔ [p, q].Sublist (t.receivedNumbers d)) := by
  intro h
  obtain ⟨t, ht⟩ : ∃ t, run {} (twoSenders [.advance 1, .advance 1, .advance 2, .advance 2,
      .advance 1, .advance 2, .advance 2, .advance 1]) = some t := ⟨_, rfl⟩
  have hnumbers : t.receivedNumbers 0 = [0, 1] ∧ t.receivedNumbers 1 = [1, 0] := by
    obtain rfl := Option.some.inj ht
    exact ⟨rfl, rfl⟩
  have hagree := h _ t ht 0 1 0 1
  rw [hnumbers.1, hnumbers.2] at hagree
  exact absurd hagree (by decide)

/-- Without the numbers the buffers are those of the bus. -/
structure Coherent (t : Tagged) : Prop where
  wired : t.world.Wired
  buf : ∀ ch, (t.bufs ch).map Prod.snd = (t.world.bus.chan ch).buf

/-- A numbered channel without the numbers. -/
theorem Coherent.map_chan (h : t.Coherent) (ch : Nat) :
    (t.chan ch).map Prod.snd = t.world.bus.chan ch := by
  simp only [Tagged.chan, Chan.map, h.buf]

theorem map_snd_map (n : Nat) (op : Op Frame) : (op.map (n, ·)).map Prod.snd = op := by
  cases op <;> rfl

/-- An operation does the same to the frames with and without their numbers. -/
theorem Coherent.perform_chan (h : t.Coherent) {ch : Nat} {op : Op Frame} {c : Chan Frame}
    {reply : Reply Frame} (n : Nat) (hc : (t.world.bus.chan ch).perform op = some (c, reply)) :
    ∃ d tagged, (t.chan ch).perform (op.map (n, ·)) = some (d, tagged) ∧
      d.map Prod.snd = c ∧ tagged.map Prod.snd = reply := by
  have hmap := perform_map Prod.snd (t.chan ch) (op.map (n, ·))
  rw [h.map_chan, map_snd_map, hc] at hmap
  obtain ⟨⟨d, tagged⟩, hd, heq⟩ := Option.map_eq_some_iff.mp hmap.symm
  obtain ⟨rfl, rfl⟩ := Prod.mk.inj heq
  exact ⟨d, tagged, hd, rfl, rfl⟩

@[simp] theorem world_follow (t : Tagged) (i : Nat) (w : World) : (t.follow i w).world = w := by
  unfold follow
  split
  · split <;> rfl
  · rfl
  · rfl

/-- Only a channel operation moves frames. -/
theorem bufs_follow (t : Tagged) (i : Nat) (w : World) :
    (t.follow i w).bufs = (t.perform i).bufs ∧
      (t.follow i w).received = (t.perform i).received := by
  have hnone (hop : (t.world.threads i).op = none) : t.perform i = t := by
    rw [Tagged.perform, hop]
  unfold follow
  split
  · rename_i hpc
    rw [hnone (by rw [hpc]; rfl)]
    split <;> exact ⟨rfl, rfl⟩
  · rename_i hpc
    rw [hnone (by rw [hpc]; rfl)]
    exact ⟨rfl, rfl⟩
  · exact ⟨rfl, rfl⟩

/-- Every event keeps the numbered frames in step with the bus. -/
theorem Coherent.step (h : t.Coherent) (he : t.step e = some t') : t'.Coherent := by
  obtain ⟨w, hw, rfl⟩ := Option.map_eq_some_iff.mp he
  have hwired := h.wired.step hw
  cases e with
  | begin i c =>
    refine ⟨hwired, fun ch => ?_⟩
    simp only [World.step] at hw
    split at hw
    · obtain rfl := Option.some.inj hw
      have hch := (World.begin_wired t.world.bus c).2.1
      simp only [Bus.chan, hch]
      exact h.buf ch
    · cases hw
  | advance i =>
    obtain ⟨⟨b, pc⟩, hstep, rfl⟩ := Option.map_eq_some_iff.mp hw
    refine ⟨by simpa only [world_follow] using hwired, fun k => ?_⟩
    simp only [world_follow, (bufs_follow t i _).1]
    have hk := h.buf k
    cases Bus.channelStep_of_step hstep with
    | keep hop hch => simpa only [Tagged.perform, hop, Bus.chan, hch] using hk
    | @perform j _ _ _ hop hc hch =>
      obtain ⟨d, tagged, hd, rfl, -⟩ := h.perform_chan (t.current i) hc
      have hj := h.wired.op_lt hop hc
      simp only [Tagged.perform, hop, hd, Bus.chan, hch]
      by_cases hkj : k = j
      · subst hkj
        simp [hj, Chan.map]
      · simpa [Function.update_of_ne hkj, List.getElem?_set_ne (Ne.symm hkj), Bus.chan] using hk
    | add hop hch =>
      simp only [Tagged.perform, hop, Bus.chan, hch, List.getD_eq_getElem?_getD] at hk ⊢
      rw [hk]
      rcases Nat.lt_trichotomy k t.world.bus.channels.length with hlt | rfl | hgt
      · rw [List.getElem?_append_left hlt]
      · simp
      · rw [List.getElem?_eq_none (Nat.le_of_lt hgt), List.getElem?_eq_none (by simp; omega)]

/-- In every run the numbered frames are in step with the bus. -/
theorem coherent_of_run (ht : t.Coherent) (h : t.run es = some t') : t'.Coherent := by
  rw [run_eq] at h
  exact Runs.invariant Coherent (fun _ _ _ ht hu => ht.step hu) ht h

/-- Every run of the bus is one with numbers. -/
theorem exists_run_of_run (h : t.world.run es = some w) :
    ∃ t', t.run es = some t' ∧ t'.world = w := by
  induction es generalizing t with
  | nil => exact ⟨t, rfl, Option.some.inj h⟩
  | cons e es ih =>
    obtain ⟨u, hu, hrest⟩ := Option.bind_eq_some_iff.mp h
    obtain ⟨t', ht', rfl⟩ : ∃ t', t.step e = some t' ∧ t'.world = u := by
      refine ⟨_, congrArg (Option.map _) hu, ?_⟩
      cases e with
      | begin i c => rfl
      | advance i => exact world_follow t i u
    obtain ⟨t'', hrun, hworld⟩ := ih hrest
    exact ⟨t'', by rw [run, ht', Option.bind_some, hrun], hworld⟩

/-- Before the first event there is nothing to number. -/
theorem coherent_empty : Coherent {} where
  wired := ⟨nofun, nofun⟩
  buf _ := rfl

/-- The frame a consumer is handed is that of the next number received. -/
theorem received_frame (h : run {} es = some t) {ch : Nat} {f : Option Frame}
    (hpc : t.world.threads i = .recv ch) (he : t.step (.advance i) = some t')
    (hreturn : t'.world.threads i = .returned (.received f)) :
    ∃ items, t'.received ch = t.received ch ++ items ∧ items.map Prod.snd = f.toList := by
  have hcoherent := coherent_of_run coherent_empty h
  obtain ⟨w, hw, rfl⟩ := Option.map_eq_some_iff.mp he
  obtain ⟨⟨b, pc⟩, hstep, rfl⟩ := Option.map_eq_some_iff.mp hw
  rw [hpc] at hstep
  obtain ⟨⟨c, v⟩, hrecv, heq⟩ := Option.map_eq_some_iff.mp hstep
  obtain ⟨rfl, rfl⟩ := Prod.mk.inj heq
  rw [world_follow] at hreturn
  dsimp only at hreturn
  rw [Function.update_self] at hreturn
  obtain rfl : v = f := by
    injection hreturn with hreturn
    injection hreturn
  have hc : (t.world.bus.chan ch).perform .recv = some (c, .received v) := by
    rw [Chan.perform, hrecv]
    rfl
  obtain ⟨d, tagged, hd, -, hreply⟩ := hcoherent.perform_chan (t.current i) hc
  refine ⟨tagged.value.toList, ?_, ?_⟩
  · have hop : (t.world.threads i).op = some (ch, .recv) := by rw [hpc]; rfl
    simp only [(bufs_follow t i _).2, Tagged.perform, hop, hd, Function.update_self]
  · cases tagged with
    | received value =>
      obtain rfl : value.map Prod.snd = v := by
        injection hreply
      cases value <;> rfl
    | _ => cases hreply

end Tagged

end CppCan.Virt
