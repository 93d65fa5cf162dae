import CppCan.Can.Operations
import CppCan.Core.Runs
import Mathlib.Data.List.Basic
import Mathlib.Data.List.Nodup

/-!
# What becomes of the values of a channel

Each operation has its number in the run, and a value is identified by the number of
the operation that offered it. A value is accepted when the operation that offers it
says so, received when an operation hands it over, and evicted when it leaves the
buffer in any other way. The accepted values that are not evicted are those received
and then those buffered, in this order.
-/

namespace CppCan.Chan

variable {α : Type}

/-- A value with the number of the operation that offered it. -/
abbrev Item (α : Type) := Nat × α

/-- The numbers of items. -/
def numbers (items : List (Item α)) : List Nat := items.map Prod.fst

/-- The items that are not among others. -/
def without (items others : List (Item α)) : List (Item α) :=
  items.filter fun x => x.1 ∉ numbers others

/-- A channel of items with the number of the next operation and what has become of
the items so far. -/
structure History (α : Type) where
  chan : Chan (Item α)
  next : Nat := 0
  accepted : List (Item α) := []
  received : List (Item α) := []
  evicted : List (Item α) := []

namespace History

/-- A new channel. -/
def start (capacity : Nat) : History α := { chan := { capacity := capacity } }

/-- An operation takes place. -/
def step (h : History α) (op : Op α) : Option (History α) :=
  (h.chan.perform (op.map (h.next, ·))).map fun (c, reply) =>
    { chan := c
      next := h.next + 1
      accepted := h.accepted ++ if reply.accepts then (op.map (h.next, ·)).value.toList else []
      received := h.received ++ reply.value.toList
      evicted := h.evicted ++ without h.chan.buf (c.buf ++ reply.value.toList) }

/-- The operations of a run take place. -/
def run : History α → List (Op α) → Option (History α)
  | h, [] => some h
  | h, op :: ops => (h.step op).bind fun h => h.run ops

/-- What has become of the items: the accepted ones that are not evicted are those
received and then those buffered. -/
structure Sound (h : History α) : Prop where
  order : without h.accepted h.evicted = h.received ++ h.chan.buf
  nodup : (numbers h.accepted).Nodup
  fresh : ∀ x ∈ h.accepted, x.1 < h.next
  evicted_subset : h.evicted ⊆ h.accepted

end History

section Without

variable {items others : List (Item α)}

theorem without_append (items items' others : List (Item α)) :
    without (items ++ items') others = without items others ++ without items' others :=
  List.filter_append items items'

/-- Items are removed one lot after another. -/
theorem without_without (items others others' : List (Item α)) :
    without items (others ++ others') = without (without items others) others' := by
  simp only [without, List.filter_filter, numbers, List.map_append, List.mem_append, not_or,
    Bool.decide_and]
  exact List.filter_congr fun x _ => Bool.and_comm _ _

theorem without_eq_nil (h : items ⊆ others) : without items others = [] := by
  rw [without, List.filter_eq_nil_iff]
  intro x hx
  have hmem : x.1 ∈ numbers others := List.mem_map_of_mem (h hx)
  simpa using hmem

theorem without_eq_self (h : ∀ x ∈ items, x.1 ∉ numbers others) : without items others = items := by
  rw [without, List.filter_eq_self]
  exact fun x hx => decide_eq_true (h x hx)

/-- Items that differ from all others are removed from between them. -/
theorem without_middle {before after : List (Item α)}
    (h : (numbers (before ++ (items ++ after))).Nodup) :
    without (before ++ (items ++ after)) items = before ++ after := by
  simp only [numbers, List.map_append] at h
  obtain ⟨-, hrest, hbefore⟩ := List.nodup_append'.mp h
  obtain ⟨-, -, hafter⟩ := List.nodup_append'.mp hrest
  have hb : without before items = before := without_eq_self fun x hx hmem =>
    hbefore (List.mem_map_of_mem hx) (List.mem_append_left _ hmem)
  have ha : without after items = after := without_eq_self fun x hx hmem =>
    hafter hmem (List.mem_map_of_mem hx)
  rw [without_append, without_append, hb, ha, without_eq_nil (List.Subset.refl items),
    List.nil_append]

end Without

namespace History

variable {h h' : History α} {op : Op α} {ops : List (Op α)} {capacity : Nat}

/-- Buffered items were accepted. -/
theorem Sound.buf_subset (hs : h.Sound) : h.chan.buf ⊆ h.accepted := by
  intro x hx
  have hmem : x ∈ without h.accepted h.evicted := hs.order ▸ List.mem_append_right _ hx
  exact List.mem_of_mem_filter hmem

/-- Items in the buffer are different. -/
theorem Sound.nodup_order (hs : h.Sound) : (numbers (h.received ++ h.chan.buf)).Nodup := by
  rw [← hs.order]
  exact hs.nodup.sublist (List.filter_sublist.map Prod.fst)

/-- A new item has a number of its own. -/
theorem Sound.next_not_mem (hs : h.Sound) {items : List (Item α)} (hsub : items ⊆ h.accepted) :
    h.next ∉ numbers items := by
  intro hmem
  obtain ⟨x, hx, hnext⟩ := List.mem_map.mp hmem
  exact absurd (hs.fresh x (hsub hx)) (by omega)

/-- A new value enters the books. -/
theorem Sound.accept (hs : h.Sound) (value : α) {buf : List (Item α)} {evicted : List (Item α)}
    (hbuf : h.chan.buf = evicted ++ buf) {closed : Bool} :
    Sound { chan := { capacity := h.chan.capacity, buf := buf ++ [(h.next, value)],
                      closed := closed }
            next := h.next + 1
            accepted := h.accepted ++ [(h.next, value)]
            received := h.received
            evicted := h.evicted ++ evicted } where
  order := by
    have hev : h.evicted ++ evicted ⊆ h.accepted := by
      refine List.append_subset.mpr ⟨hs.evicted_subset, fun x hx => hs.buf_subset ?_⟩
      exact hbuf ▸ List.mem_append_left _ hx
    have hnew : without [(h.next, value)] (h.evicted ++ evicted) = [(h.next, value)] := by
      refine without_eq_self fun x hx => ?_
      obtain rfl := List.mem_singleton.mp hx
      exact hs.next_not_mem hev
    have hold : without h.accepted (h.evicted ++ evicted) = h.received ++ buf := by
      have hnodup := hs.nodup_order
      rw [hbuf] at hnodup
      rw [without_without, hs.order, hbuf, without_middle hnodup]
    rw [without_append, hnew, hold, List.append_assoc]
  nodup := by
    rw [numbers, List.map_append, List.nodup_append']
    refine ⟨hs.nodup, List.nodup_singleton _, fun n hn hnext => ?_⟩
    obtain rfl : n = h.next := by simpa using hnext
    exact hs.next_not_mem (List.Subset.refl _) hn
  fresh := by
    intro x hx
    rcases List.mem_append.mp hx with hx | hx
    · exact Nat.lt_succ_of_lt (hs.fresh x hx)
    · obtain rfl := List.mem_singleton.mp hx
      exact Nat.lt_succ_self _
  evicted_subset := by
    refine List.append_subset.mpr ⟨fun x hx => ?_, fun x hx => ?_⟩
    · exact List.mem_append_left _ (hs.evicted_subset hx)
    · exact List.mem_append_left _ (hs.buf_subset (hbuf ▸ List.mem_append_left _ hx))

/-- A buffered item is handed over. -/
theorem Sound.take (hs : h.Sound) {item : Item α} {rest : List (Item α)}
    (hbuf : h.chan.buf = item :: rest) :
    Sound { h with
      chan := { h.chan with buf := rest }
      next := h.next + 1
      received := h.received ++ [item] } where
  order := by
    rw [hs.order, hbuf, List.append_assoc]
    rfl
  nodup := hs.nodup
  fresh := fun x hx => Nat.lt_succ_of_lt (hs.fresh x hx)
  evicted_subset := hs.evicted_subset

/-- An operation that moves no item. -/
theorem Sound.idle (hs : h.Sound) (closed : Bool) :
    Sound { h with chan := { h.chan with closed := closed }, next := h.next + 1 } where
  order := hs.order
  nodup := hs.nodup
  fresh := fun x hx => Nat.lt_succ_of_lt (hs.fresh x hx)
  evicted_subset := hs.evicted_subset

/-- A step is an operation on the channel of items. -/
theorem step_eq_some : h.step op = some h' ↔
    ∃ c reply, h.chan.perform (op.map (h.next, ·)) = some (c, reply) ∧
      h' = { chan := c
             next := h.next + 1
             accepted := h.accepted ++
               if reply.accepts then (op.map (h.next, ·)).value.toList else []
             received := h.received ++ reply.value.toList
             evicted := h.evicted ++ without h.chan.buf (c.buf ++ reply.value.toList) } := by
  rw [step, Option.map_eq_some_iff]
  constructor
  · rintro ⟨⟨c, reply⟩, hc, rfl⟩
    exact ⟨c, reply, hc, rfl⟩
  · rintro ⟨c, reply, hc, rfl⟩
    exact ⟨(c, reply), hc, rfl⟩

/-- What a step does: a value is accepted, possibly after the eviction of the oldest one,
an item is handed over, or no item moves. -/
inductive Move (h : History α) (op : Op α) : History α → Prop
  | accept {value : α} {buf evicted : List (Item α)} (hv : op.value = some value)
      (hopen : h.chan.closed = false) (hbuf : h.chan.buf = evicted ++ buf)
      (hev : evicted = [] ∧ buf.length < h.chan.capacity ∨
        op = .sendDropOldest value ∧ h.chan.capacity ≤ h.chan.buf.length ∧
          evicted = h.chan.buf.take 1) :
      Move h op
        { chan := { h.chan with buf := buf ++ [(h.next, value)] }
          next := h.next + 1
          accepted := h.accepted ++ [(h.next, value)]
          received := h.received
          evicted := h.evicted ++ evicted }
  | take {item : Item α} {rest : List (Item α)} (hbuf : h.chan.buf = item :: rest) :
      Move h op
        { h with
          chan := { h.chan with buf := rest }
          next := h.next + 1
          received := h.received ++ [item] }
  | idle (closed : Bool) (hclose : closed = true ∨ op ≠ .close ∧ closed = h.chan.closed) :
      Move h op { h with chan := { h.chan with closed := closed }, next := h.next + 1 }

/-- The oldest item is the one that is missing after an eviction. -/
theorem Sound.without_tail (hs : h.Sound) (value : α) :
    without h.chan.buf (h.chan.buf.tail ++ [(h.next, value)]) = h.chan.buf.take 1 := by
  have hnodup : (numbers h.chan.buf).Nodup :=
    hs.nodup_order.sublist ((List.sublist_append_right _ _).map Prod.fst)
  have hnext : h.next ∉ numbers h.chan.buf := hs.next_not_mem hs.buf_subset
  cases hbuf : h.chan.buf with
  | nil => rfl
  | cons x rest =>
    rw [hbuf] at hnodup hnext
    obtain ⟨hx, -⟩ := List.nodup_cons.mp hnodup
    have hrest : without rest (rest ++ [(h.next, value)]) = [] :=
      without_eq_nil (List.subset_append_left _ _)
    have hkeep : without [x] (rest ++ [(h.next, value)]) = [x] := by
      refine without_eq_self fun y hy hmem => ?_
      obtain rfl := List.mem_singleton.mp hy
      rw [numbers, List.map_append, List.mem_append] at hmem
      rcases hmem with hmem | hmem
      · exact hx hmem
      · refine hnext ?_
        have heq : y.1 = h.next := by simpa using hmem
        exact heq ▸ List.mem_cons_self
    have hsplit : without (x :: rest) (rest ++ [(h.next, value)]) =
        without [x] (rest ++ [(h.next, value)]) ++ without rest (rest ++ [(h.next, value)]) :=
      without_append [x] rest _
    rw [List.tail_cons, hsplit, hkeep, hrest]
    rfl

/-- Every step is one of these moves. -/
theorem Sound.move (hs : h.Sound) (hstep : h.step op = some h') : Move h op h' := by
  obtain ⟨c, reply, hc, rfl⟩ := step_eq_some.mp hstep
  have heffect := effect_of_perform hc
  generalize hop : op.map (h.next, ·) = op' at heffect
  cases heffect with
  | @accept _ item _ hv ha hr hopen hspace =>
    obtain ⟨value, hvalue, rfl⟩ : ∃ value, op.value = some value ∧ (h.next, value) = item := by
      rw [← hop, Op.value_map] at hv
      exact Option.map_eq_some_iff.mp hv
    have hmove : Move h op _ := .accept hvalue hopen (show h.chan.buf = [] ++ h.chan.buf from rfl)
      (.inl ⟨rfl, hspace⟩)
    have hnone : without h.chan.buf (h.chan.buf ++ [(h.next, value)]) = [] :=
      without_eq_nil (List.subset_append_left _ _)
    simpa [ha, hr, hv, hnone] using hmove
  | evict hopen hfull =>
    cases op with
    | sendDropOldest value =>
      obtain rfl := Op.sendDropOldest.inj hop
      have hmove : Move h (.sendDropOldest value) _ := .accept rfl hopen
        (h.chan.buf.take_append_drop 1).symm (.inr ⟨rfl, hfull, rfl⟩)
      simpa [Reply.accepts, Reply.value, Op.value, hs.without_tail value] using hmove
    | _ => exact absurd hop (by simp [Op.map])
  | @take _ item rest _ hv hclose ha hr hbuf =>
    have hnone : without h.chan.buf (rest ++ [item]) = [] :=
      without_eq_nil (by rw [hbuf]; simp)
    have hmove : Move h op _ := .take hbuf
    simpa [ha, hr, hnone] using hmove
  | refuse hclose ha hr hrecv =>
    have hnone : without h.chan.buf h.chan.buf = [] := without_eq_nil (List.Subset.refl _)
    have hmove : Move h op _ := .idle h.chan.closed
      (.inr ⟨fun h => hclose (by rw [← hop, h]; rfl), rfl⟩)
    simpa [ha, hr, hnone] using hmove
  | close =>
    have hnone : without h.chan.buf h.chan.buf = [] := without_eq_nil (List.Subset.refl _)
    have hmove : Move h op _ := .idle true (.inl rfl)
    simpa [Reply.accepts, Reply.value, hnone, Chan.close] using hmove

/-- Every step keeps the books in order. -/
theorem Sound.step (hs : h.Sound) (hstep : h.step op = some h') : h'.Sound := by
  cases hs.move hstep with
  | accept hv hopen hbuf hev => exact hs.accept _ hbuf
  | take hbuf => exact hs.take hbuf
  | idle closed hclose => exact hs.idle closed

/-- The operations of a run as a run of the library. -/
theorem run_eq (h : History α) (ops : List (Op α)) : h.run ops = Core.Runs.run step h ops := by
  induction ops generalizing h with
  | nil => rfl
  | cons op ops ih => simp only [run, Core.Runs.run, ih]

/-- The books of every run are in order. -/
theorem Sound.run (hs : h.Sound) (hrun : h.run ops = some h') : h'.Sound := by
  rw [run_eq] at hrun
  exact Core.Runs.invariant Sound (fun _ _ _ hs hu => hs.step hu) hs hrun

/-- The books of a new channel are empty. -/
theorem sound_start (capacity : Nat) : (start (α := α) capacity).Sound where
  order := rfl
  nodup := List.nodup_nil
  fresh := by simp [start]
  evicted_subset := List.Subset.refl _

/-- A channel stays within its capacity. -/
theorem within_run (hrun : h.run ops = some h') (hcap : 0 < h.chan.capacity)
    (hw : h.chan.Within) : h'.chan.capacity = h.chan.capacity ∧ h'.chan.Within := by
  have hstep : ∀ (u : History α) op u',
      u.chan.capacity = h.chan.capacity ∧ u.chan.Within → u.step op = some u' →
        u'.chan.capacity = h.chan.capacity ∧ u'.chan.Within := by
    rintro u op u' ⟨hcapacity, hwithin⟩ hu
    obtain ⟨c, reply, hc, rfl⟩ := step_eq_some.mp hu
    have heffect := effect_of_perform hc
    exact ⟨heffect.capacity_eq.trans hcapacity, heffect.within (hcapacity ▸ hcap) hwithin⟩
  rw [run_eq] at hrun
  exact Core.Runs.invariant (fun u => u.chan.capacity = h.chan.capacity ∧ u.chan.Within) hstep
    ⟨rfl, hw⟩ hrun

/-- What is closed in the course of a run is closed at its end. -/
theorem closed_of_run (hrun : h.run ops = some h')
    (hclose : .close ∈ ops ∨ h.chan.closed = true) : h'.chan.closed = true := by
  induction ops generalizing h with
  | nil => exact Option.some.inj hrun ▸ hclose.resolve_left (by simp)
  | cons op ops ih =>
    obtain ⟨u, hu, hrest⟩ := Option.bind_eq_some_iff.mp hrun
    obtain ⟨c, reply, hc, rfl⟩ := step_eq_some.mp hu
    refine ih hrest ?_
    rcases hclose with hmem | hclosed
    · rcases List.mem_cons.mp hmem with rfl | hmem
      · obtain ⟨rfl, -⟩ := Prod.mk.inj (Option.some.inj hc)
        exact .inr rfl
      · exact .inl hmem
    · exact .inr ((effect_of_perform hc).closed_of_closed hclosed)

/-- After every run the accepted values that are not evicted are those received and
then those buffered; only a drop-oldest send to a full channel evicts a value, and that
is the oldest one; nothing is accepted after a close; and a waiting receive ends the
stream only if the channel is closed and empty. -/
theorem fifo (capacity : Nat) (hcap : 0 < capacity) (ops : List (Op α)) (h : History α)
    (hrun : (start capacity).run ops = some h) :
    without h.accepted h.evicted = h.received ++ h.chan.buf ∧
      (∀ op h', h.step op = some h' → h'.evicted ≠ h.evicted →
        (∃ value, op = .sendDropOldest value) ∧ h.chan.buf.length = capacity ∧
          ∃ oldest ∈ h.chan.buf.head?, h'.evicted = h.evicted ++ [oldest]) ∧
      (.close ∈ ops → ∀ op h', h.step op = some h' → h'.accepted = h.accepted) ∧
      ∀ c, h.chan.perform .recv = some (c, .received none) →
        h.chan.closed = true ∧ h.chan.buf = [] := by
  have hs : h.Sound := (sound_start capacity).run hrun
  obtain ⟨hcapacity, hwithin⟩ := within_run hrun hcap (Nat.zero_le _)
  have hle : h.chan.buf.length ≤ capacity := le_of_le_of_eq hwithin hcapacity
  refine ⟨hs.order, ?_, ?_, ?_⟩
  · intro op h' hstep hne
    cases hs.move hstep with
    | accept hv hopen hbuf hev =>
      rcases hev with ⟨rfl, -⟩ | ⟨rfl, hfull, rfl⟩
      · exact absurd (List.append_nil _) hne
      · refine ⟨⟨_, rfl⟩, Nat.le_antisymm hle (le_of_eq_of_le hcapacity.symm hfull), ?_⟩
        cases hb : h.chan.buf with
        | nil => exact absurd (by simp [hb]) hne
        | cons oldest rest => exact ⟨oldest, rfl, rfl⟩
    | take hbuf => exact absurd rfl hne
    | idle closed hclose => exact absurd rfl hne
  · intro hmem op h' hstep
    have hclosed := closed_of_run hrun (.inl hmem)
    cases hs.move hstep with
    | accept hv hopen hbuf hev => exact absurd (hclosed.symm.trans hopen) (by simp)
    | take hbuf => rfl
    | idle closed hclose => rfl
  · intro c hc
    cases effect_of_perform hc with
    | accept _ ha => exact absurd ha (by simp [Reply.accepts])
    | take _ _ _ hr => exact absurd hr (by simp [Reply.value])
    | refuse _ _ _ hrecv => exact hrecv rfl

/-- Three values are sent to a channel of capacity two that evicts; one is received. -/
theorem fifo_evicting :
    ∃ h : History Nat, (start 2).run
        [.send 7, .trySend 8, .sendDropOldest 9, .recv, .close, .trySend 10] = some h ∧
      h.received = [(1, 8)] ∧ h.evicted = [(0, 7)] ∧
      without h.accepted h.evicted = h.received ++ h.chan.buf := by
  obtain ⟨h, hrun⟩ : ∃ h : History Nat, (start 2).run
      [.send 7, .trySend 8, .sendDropOldest 9, .recv, .close, .trySend 10] = some h := ⟨_, rfl⟩
  refine ⟨h, hrun, ?_, ?_, (fifo 2 (by decide) _ h hrun).1⟩
  · obtain rfl := Option.some.inj hrun
    rfl
  · obtain rfl := Option.some.inj hrun
    rfl

/-- A step of the history is the operation on the channel itself. -/
theorem step_erase (h : History α) (op : Op α) :
    (h.chan.map Prod.snd).perform op =
      (h.chan.perform (op.map (h.next, ·))).map fun (c, reply) =>
        (c.map Prod.snd, reply.map Prod.snd) := by
  have hop : (op.map (h.next, ·)).map Prod.snd = op := by cases op <;> rfl
  rw [← perform_map, hop]

theorem value_erase (reply : Reply (Item α)) :
    (reply.map Prod.snd).value.toList = reply.value.toList.map Prod.snd := by
  cases reply with
  | received value => cases value <;> rfl
  | _ => rfl

/-- Every run of the channel has a history, which ends with its channel and has received
what its consumers received. -/
theorem exists_run_of_run {c : Chan α} {replies : List (Reply α)}
    (hc : (h.chan.map Prod.snd).run ops = some (c, replies)) :
    ∃ h', h.run ops = some h' ∧ h'.chan.map Prod.snd = c ∧
      h'.received.map Prod.snd = h.received.map Prod.snd ++ replies.filterMap Reply.value := by
  induction ops generalizing h replies with
  | nil =>
    obtain ⟨rfl, rfl⟩ := Prod.mk.inj (Option.some.inj hc)
    exact ⟨h, rfl, rfl, by simp⟩
  | cons op ops ih =>
    obtain ⟨⟨c₁, reply₁⟩, h₁, hrest⟩ := Option.bind_eq_some_iff.mp hc
    obtain ⟨⟨c₂, rest⟩, h₂, heq⟩ := Option.map_eq_some_iff.mp hrest
    obtain ⟨rfl, rfl⟩ := Prod.mk.inj heq
    rw [step_erase] at h₁
    obtain ⟨⟨c', reply⟩, hperform, heq'⟩ := Option.map_eq_some_iff.mp h₁
    obtain ⟨rfl, rfl⟩ := Prod.mk.inj heq'
    obtain ⟨u, hu, hchan₁, hreceived₁⟩ : ∃ u, h.step op = some u ∧ u.chan = c' ∧
        u.received = h.received ++ reply.value.toList :=
      ⟨_, step_eq_some.mpr ⟨c', reply, hperform, rfl⟩, rfl, rfl⟩
    obtain ⟨h', hrun, hchan, hreceived⟩ := ih (h := u) (hchan₁ ▸ h₂)
    refine ⟨h', ?_, hchan, ?_⟩
    · rw [run, hu]
      exact hrun
    · have hvalues : (reply.map Prod.snd :: rest).filterMap Reply.value =
          (reply.map Prod.snd).value.toList ++ rest.filterMap Reply.value := by
        rw [List.filterMap_cons]
        cases (reply.map Prod.snd).value <;> rfl
      rw [hreceived, hreceived₁, hvalues, value_erase, List.map_append, List.append_assoc]

end History

end CppCan.Chan
