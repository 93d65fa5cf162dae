import CppCan.SocketCan.Session

/-!
# The stages of a shutdown

One thread closes the bus, waits for the reader, closes the descriptor and then the channels.
Until the reader has left its loop every subscription is in its place, each with an open channel
of its own. When the shutdown is over all channels are closed.
-/

namespace CppCan.SocketCan

open CppCan.Relay

namespace Bus

variable {b : Bus} {f : Frame} {ch : Nat}

theorem fanOut_keeps (b : Bus) (f : Frame) :
    (b.fanOut f).subs = b.subs ∧ (b.fanOut f).closed = b.closed ∧
      (b.fanOut f).channels.length = b.channels.length := by
  unfold fanOut
  suffices h : ∀ (subs : List Subscription) (b : Bus),
      let b' := subs.foldl (fun b s =>
        if matchesAny s.filters f then b.setChan s.ch ((b.chan s.ch).trySend f).1 else b) b
      b'.subs = b.subs ∧ b'.closed = b.closed ∧ b'.channels.length = b.channels.length from
    h b.subs b
  intro subs
  induction subs with
  | nil => exact fun b => ⟨rfl, rfl, rfl⟩
  | cons sub subs ih =>
    intro b
    rw [List.foldl_cons]
    split_ifs
    · obtain ⟨hsubs, hclosed, hlength⟩ := ih (b.setChan sub.ch ((b.chan sub.ch).trySend f).1)
      exact ⟨hsubs, hclosed, hlength.trans List.length_set⟩
    · exact ih b

/-- A frame opens and closes no channel. -/
theorem closed_fanOut (b : Bus) (f : Frame) (ch : Nat) :
    ((b.fanOut f).chan ch).closed = (b.chan ch).closed := by
  unfold fanOut
  suffices h : ∀ (subs : List Subscription) (b : Bus),
      ((subs.foldl (fun b s =>
        if matchesAny s.filters f then b.setChan s.ch ((b.chan s.ch).trySend f).1 else b) b).chan
          ch).closed = (b.chan ch).closed from h b.subs b
  intro subs
  induction subs with
  | nil => exact fun b => rfl
  | cons sub subs ih =>
    intro b
    rw [List.foldl_cons, ih]
    split_ifs
    · rw [chan_setChan]
      split_ifs with hch
      · rw [hch.1]
        unfold Chan.trySend
        split_ifs <;> rfl
      · rfl
    · rfl

/-- A subscription to an open bus gets an empty channel of its own. -/
theorem subscribe_eq (hopen : b.closed = false) (filters : List Filter)
    (opts : List SubscriberOption) : ∃ c : Chan Frame, c.buf = [] ∧ c.closed = false ∧
      (b.subscribe filters opts).1 =
        { b with
          channels := b.channels ++ [c]
          subs := b.subs ++ [⟨filters, b.channels.length⟩] } := by
  unfold subscribe
  rw [hopen]
  exact ⟨_, rfl, rfl, rfl⟩

theorem getD_concat (channels : List (Chan Frame)) (c : Chan Frame) (ch : Nat) :
    (channels ++ [c]).getD ch {} = if ch = channels.length then c else channels.getD ch {} := by
  simp only [List.getD_eq_getElem?_getD]
  rcases Nat.lt_trichotomy ch channels.length with hlt | rfl | hgt
  · rw [List.getElem?_append_left hlt, if_neg (Nat.ne_of_lt hlt)]
  · simp
  · have hnone : (channels ++ [c])[ch]? = none := by
      rw [List.getElem?_eq_none_iff, List.length_append, List.length_singleton]
      exact hgt
    rw [hnone, List.getElem?_eq_none (Nat.le_of_lt hgt), if_neg (Nat.ne_of_gt hgt)]

/-- A channel with one subscription gets the frame once. -/
theorem chan_fanOut (f : Frame) (hnodup : (b.subs.map (·.ch)).Nodup)
    (hlt : ch < b.channels.length) :
    (b.fanOut f).chan ch = if b.offers f ch then ((b.chan ch).trySend f).1 else b.chan ch := by
  unfold fanOut offers
  suffices h : ∀ (subs : List Subscription) (b : Bus), (subs.map (·.ch)).Nodup →
      ch < b.channels.length →
      (subs.foldl (fun b s =>
        if matchesAny s.filters f then b.setChan s.ch ((b.chan s.ch).trySend f).1 else b) b).chan
          ch =
        if subs.any fun sub => sub.ch == ch && matchesAny sub.filters f then
          ((b.chan ch).trySend f).1
        else b.chan ch from h b.subs b hnodup hlt
  intro subs
  induction subs with
  | nil => exact fun b _ _ => rfl
  | cons sub subs ih =>
    intro b hnodup hlt
    rw [List.map_cons, List.nodup_cons] at hnodup
    have hrest : sub.ch = ch →
        (subs.any fun sub => sub.ch == ch && matchesAny sub.filters f) = false := by
      rintro rfl
      rw [List.any_eq_false]
      intro other hother
      have hne : other.ch ≠ sub.ch := fun heq => hnodup.1 (heq ▸ List.mem_map_of_mem hother)
      simp [hne]
    rw [List.foldl_cons, List.any_cons]
    by_cases hmatch : matchesAny sub.filters f = true
    · rw [if_pos hmatch, ih _ hnodup.2 (by simpa [setChan] using hlt)]
      by_cases hch : sub.ch = ch
      · rw [hrest hch, hmatch]
        simp [chan_setChan, hch, hlt]
      · simp [chan_setChan, hch]
    · rw [if_neg hmatch, ih b hnodup.2 hlt]
      simp [hmatch]

end Bus

/-- Every subscription is in its place and no channel is closed. -/
structure Intact (b : Bus) (opened : List Opening) : Prop where
  subs_eq : b.subs = opened.mapIdx fun ch o => ⟨o.filters, ch⟩
  open_chan : ∀ ch, (b.chan ch).closed = false

/-- How far the shutdown has come, and by which thread. -/
inductive Stage (b : Bus) (opened : List Opening) (part : Nat → Part) : Prop where
  | running (hopen : b.closed = false) (hidle : ∀ j, (part j).shuts = false)
      (h : Intact b opened)
  | stopping (i : Nat) (hi : part i = .stopping ∨ part i = .joined ∧ part 0 = .exited)
      (hothers : ∀ j, (part j).shuts = true → j = i) (hclosed : b.closed = true)
      (h : Intact b opened)
  | sweeping (i : Nat) (rest : List Subscription) (hi : part i = .sweeping rest)
      (hothers : ∀ j, (part j).shuts = true → j = i) (hclosed : b.closed = true)
      (hexit : part 0 = .exited)
      (hswept : ∀ ch < b.channels.length, (b.chan ch).closed = true ∨ ch ∈ rest.map (·.ch))
  | down (hidle : ∀ j, (part j).shuts = false) (hclosed : b.closed = true)
      (hexit : part 0 = .exited) (hall : ∀ ch < b.channels.length, (b.chan ch).closed = true)

namespace Intact

variable {b b' : Bus} {opened : List Opening} {o : Opening} {f : Frame} {ch : Nat}

theorem nodup (h : Intact b opened) : (b.subs.map (·.ch)).Nodup := by
  have hrange : b.subs.map (·.ch) = List.range opened.length := by
    rw [h.subs_eq]
    apply List.ext_getElem <;> simp
  rw [hrange]
  exact List.nodup_range

theorem mem_subs (h : Intact b opened) {sub : Subscription} :
    sub ∈ b.subs ↔ ∃ o, opened[sub.ch]? = some o ∧ o.filters = sub.filters := by
  rw [h.subs_eq, List.mem_mapIdx]
  constructor
  · rintro ⟨ch, hch, rfl⟩
    exact ⟨opened[ch], List.getElem?_eq_getElem hch, rfl⟩
  · rintro ⟨o, ho, hfilters⟩
    obtain ⟨hch, rfl⟩ := List.getElem?_eq_some_iff.mp ho
    exact ⟨sub.ch, hch, by rw [hfilters]⟩

theorem offers_eq (h : Intact b opened) (ho : opened[ch]? = some o) (f : Frame) :
    b.offers f ch = matchesAny o.filters f := by
  rw [Bool.eq_iff_iff, Bus.offers, List.any_eq_true]
  constructor
  · rintro ⟨sub, hsub, hoffers⟩
    obtain ⟨hch, hmatch⟩ : sub.ch = ch ∧ matchesAny sub.filters f = true := by simpa using hoffers
    obtain ⟨o', ho', hfilters⟩ := h.mem_subs.mp hsub
    rw [hch, ho] at ho'
    rw [Option.some.inj ho', hfilters]
    exact hmatch
  · intro hmatch
    exact ⟨⟨o.filters, ch⟩, h.mem_subs.mpr ⟨o, ho, rfl⟩, by simpa using hmatch⟩

theorem offers_of_none (h : Intact b opened) (ho : opened[ch]? = none) (f : Frame) :
    b.offers f ch = false := by
  rw [Bus.offers, List.any_eq_false]
  intro sub hsub hoffers
  obtain ⟨hch, -⟩ : sub.ch = ch ∧ matchesAny sub.filters f = true := by simpa using hoffers
  obtain ⟨o, ho', -⟩ := h.mem_subs.mp hsub
  rw [hch, ho] at ho'
  cases ho'

end Intact

/-- Nothing but the contents of channels has changed. -/
theorem Stage.congr {b b' : Bus} {opened : List Opening} {part : Nat → Part}
    (h : Stage b opened part) (hsubs : b'.subs = b.subs) (hclosed : b'.closed = b.closed)
    (hlength : b'.channels.length = b.channels.length)
    (hchan : ∀ ch, (b'.chan ch).closed = (b.chan ch).closed) : Stage b' opened part := by
  have hintact : Intact b opened → Intact b' opened := fun h =>
    ⟨hsubs.trans h.subs_eq, fun ch => (hchan ch).trans (h.open_chan ch)⟩
  cases h with
  | running hopen hidle h => exact .running (hclosed.trans hopen) hidle (hintact h)
  | stopping i hi hothers hc h => exact .stopping i hi hothers (hclosed.trans hc) (hintact h)
  | sweeping i rest hi hothers hc hexit hswept =>
    refine .sweeping i rest hi hothers (hclosed.trans hc) hexit fun ch hch => ?_
    rw [hchan]
    exact hswept ch (hlength ▸ hch)
  | down hidle hc hexit hall =>
    refine .down hidle (hclosed.trans hc) hexit fun ch hch => ?_
    rw [hchan]
    exact hall ch (hlength ▸ hch)

/-- As long as the bus is open, nobody shuts it down. -/
theorem Stage.of_open {b : Bus} {opened : List Opening} {part : Nat → Part}
    (h : Stage b opened part) (hopen : b.closed = false) :
    (∀ j, (part j).shuts = false) ∧ Intact b opened := by
  cases h with
  | running _ hidle h => exact ⟨hidle, h⟩
  | stopping _ _ _ hclosed => cases hopen.symm.trans hclosed
  | sweeping _ _ _ _ hclosed => cases hopen.symm.trans hclosed
  | down _ hclosed => cases hopen.symm.trans hclosed

/-- A subscription begins. -/
theorem Stage.subscribe {b : Bus} {opened : List Opening} {part : Nat → Part}
    (h : Stage b opened part) (hlength : opened.length = b.channels.length)
    (hopen : b.closed = false) (filters : List Filter) (opts : List SubscriberOption)
    (since : Nat) :
    Stage (b.subscribe filters opts).1 (opened ++ [⟨filters, since⟩]) part := by
  obtain ⟨hidle, hsubs, hchan⟩ := h.of_open hopen
  obtain ⟨c, -, hc, hsubscribe⟩ := Bus.subscribe_eq hopen filters opts
  rw [hsubscribe]
  refine .running hopen hidle ⟨?_, fun ch => ?_⟩
  · rw [List.mapIdx_concat, ← hsubs, hlength]
  · change ((b.channels ++ [c]).getD ch {}).closed = false
    rw [Bus.getD_concat]
    split_ifs
    · exact hc
    · exact hchan ch

/-- Where a thread stops the bus. -/
theorem Stage.of_stopping {b : Bus} {opened : List Opening} {part : Nat → Part} {i : Nat}
    (h : Stage b opened part) (hi : part i = .stopping ∨ part i = .joined) :
    (part i = .joined → part 0 = .exited) ∧ (∀ j, (part j).shuts = true → j = i) ∧
      b.closed = true ∧ Intact b opened := by
  have hshuts : (part i).shuts = true := by
    rcases hi with hi | hi <;> rw [hi] <;> rfl
  cases h with
  | running _ hidle => exact absurd (hshuts.symm.trans (hidle i)) (by simp)
  | stopping k hk hothers hclosed h =>
    obtain rfl := hothers i hshuts
    refine ⟨fun hjoined => ?_, hothers, hclosed, h⟩
    rcases hk with hk | ⟨-, hexit⟩
    · cases hk.symm.trans hjoined
    · exact hexit
  | sweeping k rest hk hothers =>
    obtain rfl := hothers i hshuts
    rcases hi with hi | hi <;> cases hi.symm.trans hk
  | down hidle => exact absurd (hshuts.symm.trans (hidle i)) (by simp)

/-- Where a thread closes the channels. -/
theorem Stage.of_sweeping {b : Bus} {opened : List Opening} {part : Nat → Part} {i : Nat}
    {rest : List Subscription} (h : Stage b opened part) (hi : part i = .sweeping rest) :
    (∀ j, (part j).shuts = true → j = i) ∧ b.closed = true ∧ part 0 = .exited ∧
      ∀ ch < b.channels.length, (b.chan ch).closed = true ∨ ch ∈ rest.map (·.ch) := by
  have hshuts : (part i).shuts = true := by rw [hi]; rfl
  cases h with
  | running _ hidle => exact absurd (hshuts.symm.trans (hidle i)) (by simp)
  | stopping k hk hothers =>
    obtain rfl := hothers i hshuts
    rcases hk with hk | ⟨hk, -⟩ <;> cases hk.symm.trans hi
  | sweeping k rest' hk hothers hclosed hexit hswept =>
    obtain rfl := hothers i hshuts
    obtain rfl := Part.sweeping.inj (hk.symm.trans hi)
    exact ⟨hothers, hclosed, hexit, hswept⟩
  | down hidle => exact absurd (hshuts.symm.trans (hidle i)) (by simp)

/-- Whoever shuts the bus down, it is still the same thread. -/
theorem shuts_update {part : Nat → Part} {i : Nat} (p : Part)
    (hothers : ∀ j, (part j).shuts = true → j = i) :
    ∀ j, (Function.update part i p j).shuts = true → j = i := by
  intro j hj
  by_contra hne
  rw [Function.update_of_ne hne] at hj
  exact hne (hothers j hj)

/-- The shutdown is over. -/
theorem idle_update {part : Nat → Part} {i : Nat} {p : Part} (hp : p.shuts = false)
    (hothers : ∀ j, (part j).shuts = true → j = i) :
    ∀ j, (Function.update part i p j).shuts = false := by
  intro j
  by_cases hj : j = i
  · rw [hj, Function.update_self, hp]
  · rw [Function.update_of_ne hj]
    exact Bool.eq_false_iff.mpr fun hshuts => hj (hothers j hshuts)

/-- The reader leaves its loop. -/
theorem Stage.exit {b : Bus} {opened : List Opening} {part : Nat → Part}
    (h : Stage b opened part) (hreader : part 0 = .reader) :
    Stage b opened (Function.update part 0 .exited) := by
  have hshuts : ∀ j, (Function.update part 0 .exited j).shuts = (part j).shuts := by
    intro j
    by_cases hj : j = 0
    · rw [hj, Function.update_self, hreader]
      rfl
    · rw [Function.update_of_ne hj]
  cases h with
  | running hopen hidle h => exact .running hopen (fun j => (hshuts j).trans (hidle j)) h
  | stopping i hi hothers hclosed h =>
    rcases hi with hi | ⟨-, hexit⟩
    · have hne : i ≠ 0 := by
        rintro rfl
        cases hi.symm.trans hreader
      refine .stopping i (.inl ?_) (fun j hj => hothers j ((hshuts j).symm.trans hj)) hclosed h
      rw [Function.update_of_ne hne, hi]
    · cases hreader.symm.trans hexit
  | sweeping _ _ _ _ _ hexit => cases hreader.symm.trans hexit
  | down _ _ hexit => cases hreader.symm.trans hexit

/-- As long as the reader has not left its loop, the subscriptions are in place. -/
theorem Stage.intact {b : Bus} {opened : List Opening} {part : Nat → Part}
    (h : Stage b opened part) (hreader : part 0 = .reader) : Intact b opened := by
  cases h with
  | running _ _ h => exact h
  | stopping _ _ _ _ h => exact h
  | sweeping _ _ _ _ _ hexit => cases hreader.symm.trans hexit
  | down _ _ hexit => cases hreader.symm.trans hexit

end CppCan.SocketCan
