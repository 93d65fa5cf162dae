import CppCan.SocketCan.Stages

/-!
# What the subscribers of a socket receive

A subscriber receives the matching frames in the order in which they were read since it
subscribed, but for exactly those that found its channel full, and no channel is closed before
everything that was read has been handed over.
-/

namespace CppCan.SocketCan

open CppCan.Core CppCan.Relay
open CppCan.Bridge (isReceive receive_effect)

/-- What the channel met is what was offered, what was received and is buffered is what did not
find it full, in order, and it was full for no frame if all that was offered fits it. -/
structure Books (got : List Frame) (c : Chan Frame) (met : List (Frame × Bool))
    (offered : List Frame) : Prop where
  offered_eq : met.map Prod.fst = offered
  kept_eq : got ++ c.buf = (met.filter (!·.2)).map Prod.fst
  full : ∀ m ∈ met, m.2 = true → c.capacity < offered.length

namespace Books

variable {got offered : List Frame} {c c' : Chan Frame} {met : List (Frame × Bool)} {f : Frame}

theorem sublist (h : Books got c met offered) : (got ++ c.buf).Sublist offered := by
  rw [h.kept_eq, ← h.offered_eq]
  exact List.filter_sublist.map _

/-- With room for all nothing is missing. -/
theorem eq_of_room (h : Books got c met offered) (hroom : offered.length ≤ c.capacity) :
    got ++ c.buf = offered := by
  have hall : ∀ m ∈ met, (!m.2) = true := fun m hm => by
    rw [Bool.not_eq_true']
    exact Bool.eq_false_iff.mpr fun hfull => Nat.not_lt.mpr hroom (h.full m hm hfull)
  rw [h.kept_eq, List.filter_eq_self.mpr hall, h.offered_eq]

/-- An offered frame is buffered, or it finds the channel full. -/
theorem offer (h : Books got c met offered) (hopen : c.closed = false) (f : Frame) :
    Books got (c.trySend f).1 (met ++ [(f, decide (c.buf.length ≥ c.capacity))])
      (offered ++ [f]) := by
  have hmet : (met ++ [(f, decide (c.buf.length ≥ c.capacity))]).map Prod.fst = offered ++ [f] := by
    rw [List.map_append, h.offered_eq]
    rfl
  have hlonger : ∀ {n}, n < offered.length → n < (offered ++ [f]).length := fun hn =>
    hn.trans_le (by simp)
  unfold Chan.trySend
  rw [hopen]
  by_cases hspace : c.buf.length ≥ c.capacity
  · simp only [Bool.false_eq_true, if_false, if_pos hspace]
    rw [decide_eq_true hspace] at hmet ⊢
    refine ⟨hmet, ?_, fun _ _ _ => ?_⟩
    · rw [List.filter_append, List.map_append, h.kept_eq]
      exact (List.append_nil _).symm
    · have hlength := h.sublist.length_le
      rw [List.length_append] at hlength ⊢
      simp only [List.length_singleton]
      omega
  · simp only [Bool.false_eq_true, if_false, if_neg hspace]
    rw [decide_eq_false hspace] at hmet ⊢
    refine ⟨hmet, ?_, fun m hm hfull => ?_⟩
    · rw [List.filter_append, List.map_append, ← h.kept_eq, ← List.append_assoc]
      rfl
    · rcases List.mem_append.mp hm with hm | hm
      · exact hlonger (h.full m hm hfull)
      · rw [List.mem_singleton.mp hm] at hfull
        cases hfull

/-- What a consumer receives moves over. -/
theorem receive {op : Chan.Op Frame} {reply : Chan.Reply Frame} (h : Books got c met offered)
    (hop : isReceive op = true) (hc : c.perform op = some (c', reply)) :
    Books (got ++ reply.value.toList) c' met offered := by
  obtain ⟨hbuf, -, hcapacity⟩ := receive_effect hop (Chan.effect_of_perform hc)
  have hline : got ++ reply.value.toList ++ c'.buf = got ++ c.buf := by
    rw [List.append_assoc, hbuf]
  exact ⟨h.offered_eq, hline ▸ h.kept_eq, hcapacity ▸ h.full⟩

end Books

/-- The books of every channel are right. -/
structure Ledger (b : Bus) (opened : List Opening) (handed : List Frame)
    (received : Nat → List Frame) (met : Nat → List (Frame × Bool)) : Prop where
  length_eq : opened.length = b.channels.length
  since_le : ∀ o ∈ opened, o.since ≤ handed.length
  fresh : ∀ ch ≥ opened.length, received ch = [] ∧ met ch = []
  books : ∀ ch o, opened[ch]? = some o →
    Books (received ch) (b.chan ch) (met ch) (o.offered handed)

namespace Ledger

variable {b : Bus} {opened : List Opening} {handed : List Frame} {received : Nat → List Frame}
  {met : Nat → List (Frame × Bool)} {ch : Nat} {c : Chan Frame}

/-- A frame is handed over. -/
theorem hand (h : Ledger b opened handed received met) (hintact : Intact b opened) (f : Frame) :
    Ledger (b.fanOut f) opened (handed ++ [f]) received
      fun ch => met ch ++ b.meets f ch := by
  obtain ⟨-, -, hlength⟩ := b.fanOut_keeps f
  refine ⟨h.length_eq.trans hlength.symm, fun o ho => ?_, fun ch hch => ?_, fun ch o ho => ?_⟩
  · exact Nat.le_trans (h.since_le o ho) (by simp)
  · have hoffers := hintact.offers_of_none (List.getElem?_eq_none hch) f
    obtain ⟨hreceived, hmet⟩ := h.fresh ch hch
    exact ⟨hreceived, by simp [Bus.meets, hoffers, hmet]⟩
  · have hlt : ch < b.channels.length :=
      h.length_eq ▸ (List.getElem?_eq_some_iff.mp ho).1
    have hsince := h.since_le o (List.mem_of_getElem? ho)
    have hoffered : o.offered (handed ++ [f]) =
        o.offered handed ++ if matchesAny o.filters f then [f] else [] := by
      simp only [Opening.offered, List.drop_append_of_le_length hsince, List.filter_append,
        List.filter_singleton, Bool.cond_eq_ite]
    rw [hoffered, Bus.chan_fanOut f hintact.nodup hlt, Bus.meets, hintact.offers_eq ho]
    cases matchesAny o.filters f with
    | true => simpa using (h.books ch o ho).offer (hintact.open_chan ch) f
    | false => simpa using h.books ch o ho

/-- A subscription begins. -/
theorem subscribe (h : Ledger b opened handed received met) (hopen : b.closed = false)
    (filters : List Filter) (opts : List SubscriberOption) :
    Ledger (b.subscribe filters opts).1 (opened ++ [⟨filters, handed.length⟩]) handed received
      met := by
  obtain ⟨c, hc, -, hsubscribe⟩ := Bus.subscribe_eq hopen filters opts
  rw [hsubscribe]
  refine ⟨by simp [h.length_eq], fun o ho => ?_, fun ch hch => ?_, fun ch o ho => ?_⟩
  · rcases List.mem_append.mp ho with ho | ho
    · exact h.since_le o ho
    · rw [List.mem_singleton.mp ho]
  · exact h.fresh ch (Nat.le_trans (by simp) hch)
  · change Books _ ((b.channels ++ [c]).getD ch {}) _ _
    rw [Bus.getD_concat, ← h.length_eq]
    rw [List.getElem?_append] at ho
    split_ifs at ho with hlt
    · rw [if_neg (Nat.ne_of_lt hlt)]
      exact h.books ch o ho
    · obtain ⟨hch, rfl⟩ : ch = opened.length ∧ ⟨filters, handed.length⟩ = o := by
        obtain ⟨hzero, heq⟩ := List.getElem?_eq_some_iff.mp ho
        rw [List.length_singleton] at hzero
        exact ⟨by omega, by simpa using heq⟩
      obtain ⟨hreceived, hmet⟩ := h.fresh ch hch.ge
      rw [if_pos hch, hreceived, hmet]
      refine ⟨?_, ?_, nofun⟩
      · simp [Opening.offered]
      · simp [hc]

/-- Other channels would be in the same books. -/
theorem of_chan {b' : Bus} (h : Ledger b opened handed received met)
    (hlength : b'.channels.length = b.channels.length) (hchan : ∀ ch, b'.chan ch = b.chan ch) :
    Ledger b' opened handed received met :=
  ⟨h.length_eq.trans hlength.symm, h.since_le, h.fresh, fun ch o ho => hchan ch ▸ h.books ch o ho⟩

/-- A channel changes, but not for the worse. -/
theorem setChan (h : Ledger b opened handed received met)
    (hbooks : ∀ o, opened[ch]? = some o → Books (received ch) c (met ch) (o.offered handed)) :
    Ledger (b.setChan ch c) opened handed received met := by
  refine ⟨h.length_eq.trans List.length_set.symm, h.since_le, h.fresh, fun j o ho => ?_⟩
  rw [Bus.chan_setChan]
  split_ifs with hj
  · obtain ⟨rfl, -⟩ := hj
    exact hbooks o ho
  · exact h.books j o ho

/-- A consumer receives. -/
theorem receive {op : Chan.Op Frame} {reply : Chan.Reply Frame}
    (h : Ledger b opened handed received met) (hop : isReceive op = true)
    (hc : (b.chan ch).perform op = some (c, reply)) :
    Ledger (b.setChan ch c) opened handed
      (Function.update received ch (received ch ++ reply.value.toList)) met := by
  refine ⟨h.length_eq.trans List.length_set.symm, h.since_le, fun j hj => ?_, fun j o ho => ?_⟩
  · obtain ⟨hreceived, hmet⟩ := h.fresh j hj
    refine ⟨?_, hmet⟩
    by_cases heq : j = ch
    · subst heq
      have hempty : (b.chan j).buf = [] := by
        rw [Bus.chan, List.getD_eq_getElem?_getD, List.getElem?_eq_none (h.length_eq ▸ hj)]
        rfl
      obtain ⟨hbuf, -⟩ := receive_effect hop (Chan.effect_of_perform hc)
      rw [hempty, List.append_eq_nil_iff] at hbuf
      rw [Function.update_self, hreceived, hbuf.1]
      rfl
    · rw [Function.update_of_ne heq, hreceived]
  · rw [Bus.chan_setChan]
    have hlt : j < b.channels.length := h.length_eq ▸ (List.getElem?_eq_some_iff.mp ho).1
    by_cases heq : j = ch
    · subst heq
      rw [if_pos ⟨rfl, hlt⟩, Function.update_self]
      exact (h.books j o ho).receive hop hc
    · rw [if_neg fun hand => heq hand.1.symm, Function.update_of_ne heq]
      exact h.books j o ho

end Ledger

namespace Session

/-- What holds all along. -/
structure Sound (s : Session) : Prop where
  reader : ∀ i, (s.part i).reads = true ↔ i = 0
  read_eq : s.read.map KernelFrame.toFrame = s.handed ++ (s.world.threads 0).pending
  ledger : Ledger s.bus s.opened s.handed s.received s.met
  stage : Stage s.bus s.opened s.part

variable {s s' : Session} {i ch : Nat} {pc : Pc} {socket : Socket} {f : Frame}

theorem threads_go (s : Session) (i : Nat) (socket : Socket) (pc : Pc) :
    (s.go i socket pc).world.threads = Function.update s.world.threads i pc := rfl

theorem part_go (s : Session) (i : Nat) (socket : Socket) (pc : Pc) :
    (s.go i socket pc).part = Function.update s.part i pc.part := by
  funext j
  unfold part
  rw [threads_go]
  by_cases hj : j = i
  · simp [hj]
  · simp [hj]

theorem part_go_self (hpart : pc.part = s.part i) (socket : Socket) :
    (s.go i socket pc).part = s.part := by
  rw [part_go, hpart, Function.update_eq_self]

/-- Only thread 0 reads. -/
theorem Sound.reader_go (h : Sound s) (hreads : pc.part.reads = (s.part i).reads)
    (socket : Socket) (j : Nat) : ((s.go i socket pc).part j).reads = true ↔ j = 0 := by
  rw [part_go, ← h.reader j]
  by_cases hj : j = i
  · rw [hj, Function.update_self, hreads]
  · rw [Function.update_of_ne hj]

theorem Sound.ne_zero (h : Sound s) (hreads : (s.part i).reads = false) : i ≠ 0 := by
  rintro rfl
  exact Bool.false_ne_true (hreads.symm.trans ((h.reader 0).mpr rfl))

theorem Sound.eq_zero (h : Sound s) (hreads : (s.part i).reads = true) : i = 0 :=
  (h.reader i).mp hreads

/-- The step of another thread does not touch the reader. -/
theorem pending_go_of_ne (hi : i ≠ 0) (socket : Socket) (pc : Pc) :
    ((s.go i socket pc).world.threads 0).pending = (s.world.threads 0).pending := by
  rw [threads_go, Function.update_of_ne hi.symm]

theorem Sound.keep (h : Sound s) (hpart : pc.part = s.part i)
    (hpending : pc.pending = (s.world.threads i).pending) (hbus : socket.bus = s.bus) :
    Sound (s.go i socket pc) := by
  have hsame : (s.go i socket pc).bus = s.bus := hbus
  refine ⟨h.reader_go (by rw [hpart]) socket, h.read_eq.trans (congrArg _ ?_), ?_, ?_⟩
  · by_cases hi : i = 0
    · rw [threads_go, hi, Function.update_self, hpending, hi]
    · exact (pending_go_of_ne hi socket pc).symm
  · rw [hsame]
    exact h.ledger
  · rw [part_go_self hpart, hsame]
    exact h.stage

theorem Sound.read (h : Sound s) (cf : KernelFrame) (hi : s.world.threads i = .reading)
    (hbus : socket.bus = s.bus) : Sound ((s.take cf).go i socket (.readLock cf.toFrame)) := by
  have hpart : s.part i = .reader := congrArg Pc.part hi
  obtain rfl := h.eq_zero (by rw [hpart]; rfl)
  have hsame : ((s.take cf).go 0 socket (.readLock cf.toFrame)).bus = s.bus := hbus
  have hparts : ((s.take cf).go 0 socket (.readLock cf.toFrame)).part = s.part := by
    rw [part_go]
    exact Function.update_eq_self_iff.mpr hpart.symm
  refine ⟨fun j => ?_, ?_, ?_, ?_⟩
  · rw [hparts]
    exact h.reader j
  · have hread := h.read_eq
    rw [hi] at hread
    simpa [threads_go, take, go, Pc.pending] using hread
  · rw [hsame]
    exact h.ledger
  · rw [hparts, hsame]
    exact h.stage

/-- The reader hands a frame over. -/
theorem Sound.hand (h : Sound s) (hi : s.world.threads i = .readHeld f)
    (hbus : socket.bus = s.bus.fanOut f) : Sound ((s.hand f).go i socket .readCheck) := by
  have hpart : s.part i = .reader := congrArg Pc.part hi
  obtain rfl := h.eq_zero (by rw [hpart]; rfl)
  have hnext : ((s.hand f).go 0 socket .readCheck).bus = s.bus.fanOut f := hbus
  have hparts : ((s.hand f).go 0 socket .readCheck).part = s.part := by
    rw [part_go]
    exact Function.update_eq_self_iff.mpr hpart.symm
  obtain ⟨hsubs, hclosed, hlength⟩ := s.bus.fanOut_keeps f
  refine ⟨fun j => ?_, ?_, ?_, ?_⟩
  · rw [hparts]
    exact h.reader j
  · have hread := h.read_eq
    rw [hi] at hread
    rw [threads_go, Function.update_self]
    exact hread.trans (List.append_nil _).symm
  · rw [hnext]
    exact h.ledger.hand (h.stage.intact hpart) f
  · rw [hparts, hnext]
    exact h.stage.congr hsubs hclosed hlength (s.bus.closed_fanOut f)

/-- The reader leaves its loop with nothing in its hands. -/
theorem Sound.exit (h : Sound s) (hi : s.part i = .reader)
    (hpending : (s.world.threads i).pending = []) (hbus : socket.bus = s.bus) :
    Sound (s.go i socket .readExited) := by
  obtain rfl := h.eq_zero (by rw [hi]; rfl)
  have hsame : (s.go 0 socket .readExited).bus = s.bus := hbus
  refine ⟨h.reader_go (by rw [hi]; rfl) socket, ?_, ?_, ?_⟩
  · rw [threads_go, Function.update_self]
    exact h.read_eq.trans (congrArg _ hpending)
  · rw [hsame]
    exact h.ledger
  · rw [part_go, hsame]
    exact h.stage.exit hi

/-- A thread other than the reader takes a step. -/
theorem Sound.other {t : Session} (h : Sound s) (hworld : t.world = s.world)
    (hread : t.read = s.read) (hhanded : t.handed = s.handed) (hi : (s.part i).reads = false)
    (hpc : pc.part.reads = false)
    (hledger : Ledger socket.bus t.opened t.handed t.received t.met)
    (hstage : Stage socket.bus t.opened (Function.update s.part i pc.part)) :
    Sound (t.go i socket pc) := by
  have hparts : (t.go i socket pc).part = Function.update s.part i pc.part := by
    rw [part_go]
    unfold part
    rw [hworld]
  refine ⟨fun j => ?_, ?_, hledger, ?_⟩
  · rw [hparts, ← h.reader j]
    by_cases hj : j = i
    · rw [hj, Function.update_self, hpc, hi]
    · rw [Function.update_of_ne hj]
  · rw [pending_go_of_ne (h.ne_zero hi), hworld]
    change t.read.map KernelFrame.toFrame = t.handed ++ _
    rw [hread, hhanded]
    exact h.read_eq
  · rw [hparts]
    exact hstage

/-- A subscription begins. -/
theorem Sound.subscribe {filters : List Filter} {opts : List SubscriberOption} {r : Result}
    (h : Sound s) (hi : s.world.threads i = .subscribeHeld filters opts)
    (hopen : s.bus.closed = false) (hbus : socket.bus = (s.bus.subscribe filters opts).1) :
    Sound ((s.subscribed filters).go i socket (.returned r)) := by
  have hpart : s.part i = .outside := congrArg Pc.part hi
  refine h.other rfl rfl rfl (by rw [hpart]; rfl) rfl ?_ ?_
  · rw [hbus]
    exact h.ledger.subscribe hopen filters opts
  · have hparts : Function.update s.part i (Pc.returned r).part = s.part :=
      Function.update_eq_self_iff.mpr hpart.symm
    rw [hparts, hbus]
    exact h.stage.subscribe h.ledger.length_eq hopen filters opts s.handed.length

/-- A thread closes the bus. -/
theorem Sound.begun (h : Sound s) (hi : s.world.threads i = .closeHeld)
    (hopen : s.bus.closed = false) (hbus : socket.bus = { s.bus with closed := true }) :
    Sound (s.go i socket .closeStop) := by
  have hpart : s.part i = .outside := congrArg Pc.part hi
  refine h.other rfl rfl rfl (by rw [hpart]; rfl) rfl ?_ ?_
  · rw [hbus]
    exact h.ledger.of_chan rfl fun ch => rfl
  · obtain ⟨hidle, hintact⟩ := h.stage.of_open hopen
    have hothers : ∀ j, (s.part j).shuts = true → j = i := fun j hj =>
      absurd (hj.symm.trans (hidle j)) (by simp)
    rw [hbus]
    exact .stopping i (.inl (Function.update_self ..)) (shuts_update _ hothers) rfl
      ⟨hintact.subs_eq, hintact.open_chan⟩

/-- A thread finds that the reader has left its loop. -/
theorem Sound.join (h : Sound s) (hi : s.world.threads i = .closeJoin)
    (hexit : s.part 0 = .exited) (hbus : socket.bus = s.bus) :
    Sound (s.go i socket .closeFd) := by
  have hpart : s.part i = .stopping := congrArg Pc.part hi
  have hreads : (s.part i).reads = false := by rw [hpart]; rfl
  refine h.other rfl rfl rfl hreads rfl (hbus ▸ h.ledger) ?_
  obtain ⟨-, hothers, hclosed, hintact⟩ := h.stage.of_stopping (.inl hpart)
  have hzero : Function.update s.part i (Pc.closeFd).part 0 = .exited := by
    rw [Function.update_of_ne (h.ne_zero hreads).symm, hexit]
  rw [hbus]
  exact .stopping i (.inr ⟨Function.update_self .., hzero⟩) (shuts_update _ hothers) hclosed
    hintact

/-- A thread begins to close the channels. -/
theorem Sound.sweep (h : Sound s) (hi : s.world.threads i = .closeRelock)
    (hbus : socket.bus = s.bus) : Sound (s.go i socket (.closing s.bus.subs)) := by
  have hpart : s.part i = .joined := congrArg Pc.part hi
  have hreads : (s.part i).reads = false := by rw [hpart]; rfl
  refine h.other rfl rfl rfl hreads rfl (hbus ▸ h.ledger) ?_
  obtain ⟨hexit, hothers, hclosed, hintact⟩ := h.stage.of_stopping (.inr hpart)
  have hzero : Function.update s.part i (Pc.closing s.bus.subs).part 0 = .exited := by
    rw [Function.update_of_ne (h.ne_zero hreads).symm, hexit hpart]
  rw [hbus]
  refine .sweeping i s.bus.subs (Function.update_self ..) (shuts_update _ hothers) hclosed hzero
    fun ch hch => .inr ?_
  have hlt : ch < s.opened.length := h.ledger.length_eq ▸ hch
  exact List.mem_map.mpr ⟨⟨s.opened[ch].filters, ch⟩,
    hintact.mem_subs.mpr ⟨s.opened[ch], List.getElem?_eq_getElem hlt, rfl⟩, rfl⟩

/-- A channel is closed. -/
theorem Sound.shut {sub : Subscription} {rest : List Subscription} (h : Sound s)
    (hi : s.world.threads i = .closing (sub :: rest))
    (hbus : socket.bus = s.bus.setChan sub.ch (s.bus.chan sub.ch).close) :
    Sound (s.go i socket (.closing rest)) := by
  have hpart : s.part i = .sweeping (sub :: rest) := congrArg Pc.part hi
  have hreads : (s.part i).reads = false := by rw [hpart]; rfl
  obtain ⟨hothers, hclosed, hexit, hswept⟩ := h.stage.of_sweeping hpart
  refine h.other rfl rfl rfl hreads rfl ?_ ?_
  · rw [hbus]
    refine h.ledger.setChan fun o ho => ?_
    obtain ⟨hoffered, hkept, hfull⟩ := h.ledger.books sub.ch o ho
    exact ⟨hoffered, hkept, hfull⟩
  · have hzero : Function.update s.part i (Pc.closing rest).part 0 = .exited := by
      rw [Function.update_of_ne (h.ne_zero hreads).symm, hexit]
    rw [hbus]
    refine .sweeping i rest (Function.update_self ..) (shuts_update _ hothers) hclosed hzero
      fun ch hch => ?_
    have hlt : ch < s.bus.channels.length := by simpa [Bus.setChan] using hch
    rw [Bus.chan_setChan]
    split_ifs with heq
    · exact .inl rfl
    · have hne : ch ≠ sub.ch := fun hch => heq ⟨hch.symm, hlt⟩
      simpa [hne] using hswept ch hlt

/-- Every channel is closed. -/
theorem Sound.clear {r : Result} (h : Sound s) (hi : s.world.threads i = .closing [])
    (hbus : socket.bus = { s.bus with subs := [] }) : Sound (s.go i socket (.returned r)) := by
  have hpart : s.part i = .sweeping [] := congrArg Pc.part hi
  have hreads : (s.part i).reads = false := by rw [hpart]; rfl
  obtain ⟨hothers, hclosed, hexit, hswept⟩ := h.stage.of_sweeping hpart
  refine h.other rfl rfl rfl hreads rfl ?_ ?_
  · rw [hbus]
    exact h.ledger.of_chan rfl fun ch => rfl
  · have hzero : Function.update s.part i (Pc.returned r).part 0 = .exited := by
      rw [Function.update_of_ne (h.ne_zero hreads).symm, hexit]
    rw [hbus]
    refine .down (idle_update rfl hothers) hclosed hzero fun ch hch => ?_
    exact (hswept ch hch).resolve_right List.not_mem_nil

/-- A consumer receives. -/
theorem Sound.receive {op : Chan.Op Frame} {c : Chan Frame} {reply : Chan.Reply Frame}
    (h : Sound s) (hop : isReceive op = true)
    (hc : (s.bus.chan ch).perform op = some (c, reply)) :
    Sound (s.consume ch c reply.value) := by
  obtain ⟨hbuf, hclosed, -⟩ := receive_effect hop (Chan.effect_of_perform hc)
  refine ⟨h.reader, h.read_eq, h.ledger.receive hop hc, ?_⟩
  refine h.stage.congr rfl rfl List.length_set fun j => ?_
  change ((s.bus.setChan ch c).chan j).closed = _
  rw [Bus.chan_setChan]
  split_ifs with hj
  · rw [hclosed, hj.1]
  · rfl

/-- Every act keeps it. -/
theorem Sound.act {a : Act} (h : Sound s) (ha : s.act a = some s') : Sound s' := by
  cases moved_of_act ha with
  | keep hpart hpending hbus => exact h.keep hpart hpending hbus
  | read cf hi hbus => exact h.read cf hi hbus
  | hand hi hbus => exact h.hand hi hbus
  | exit hi hpending hbus => exact h.exit hi hpending hbus
  | subscribe hi hopen hbus => exact h.subscribe hi hopen hbus
  | begun hi hopen hbus => exact h.begun hi hopen hbus
  | join hi hexit hbus => exact h.join hi hexit hbus
  | sweep hi hbus => exact h.sweep hi hbus
  | shut hi hbus => exact h.shut hi hbus
  | clear hi hbus => exact h.clear hi hbus
  | receive hop hc => exact h.receive hop hc

theorem sound_start (fd : Nat) : Sound (start fd) := by
  have hother : ∀ i, i ≠ 0 → (start fd).part i = .outside := by
    intro i hi
    change ((Function.update (fun _ => Pc.idle) 0 .readCheck) i).part = .outside
    rw [Function.update_of_ne hi]
    rfl
  refine ⟨fun i => ?_, rfl, ⟨rfl, nofun, fun _ _ => ⟨rfl, rfl⟩, nofun⟩, .running rfl ?_ ?_⟩
  · by_cases hi : i = 0
    · rw [hi]
      exact iff_of_true rfl rfl
    · rw [hother i hi]
      exact iff_of_false Bool.false_ne_true hi
  · intro i
    by_cases hi : i = 0
    · rw [hi]
      rfl
    · rw [hother i hi]
      rfl
  · exact ⟨rfl, fun ch => rfl⟩

/-- What the subscribers of a bus can rely on. -/
structure Served (s : Session) : Prop where
  books : ∀ ch o, s.opened[ch]? = some o →
    Books (s.received ch) (s.bus.chan ch) (s.met ch) (o.offered s.handed)
  /-- As long as a channel has room for all that matches, nothing gets lost. -/
  lossless : ∀ ch o, s.opened[ch]? = some o →
    (o.offered s.handed).length ≤ (s.bus.chan ch).capacity →
    s.received ch ++ (s.bus.chan ch).buf = o.offered s.handed
  /-- The reader has at most one frame in its hands. -/
  read_eq : s.read.map KernelFrame.toFrame = s.handed ++ (s.world.threads 0).pending
  /-- A channel ends when everything that was read has been handed over. -/
  ended : ∀ ch, (s.bus.chan ch).closed = true → s.handed = s.read.map KernelFrame.toFrame
  /-- When the shutdown is over, every channel has ended. -/
  shut : s.bus.closed = true → (∀ i, (s.part i).shuts = false) →
    ∀ ch < s.opened.length, (s.bus.chan ch).closed = true

/-- The reader has left its loop. -/
theorem Sound.handed_eq (h : Sound s) (hexit : s.part 0 = .exited) :
    s.handed = s.read.map KernelFrame.toFrame := by
  have hpending : (s.world.threads 0).pending = [] := by
    unfold part at hexit
    cases hpc : s.world.threads 0 with
    | readExited => rfl
    | _ => rw [hpc] at hexit; cases hexit
  rw [h.read_eq, hpending, List.append_nil]

theorem Sound.served (h : Sound s) : Served s := by
  refine ⟨h.ledger.books, fun ch o ho => (h.ledger.books ch o ho).eq_of_room, h.read_eq,
    fun ch hch => ?_, fun hclosed hidle ch hlt => ?_⟩
  · cases h.stage with
    | running _ _ hintact => cases (hintact.open_chan ch).symm.trans hch
    | stopping _ _ _ _ hintact => cases (hintact.open_chan ch).symm.trans hch
    | sweeping _ _ _ _ _ hexit => exact h.handed_eq hexit
    | down _ _ hexit => exact h.handed_eq hexit
  · cases h.stage with
    | running hopen => cases hopen.symm.trans hclosed
    | stopping i hi =>
      rcases hi with hi | ⟨hi, -⟩ <;> exact absurd (hidle i) (by rw [hi]; nofun)
    | sweeping i rest hi => exact absurd (hidle i) (by rw [hi]; nofun)
    | down _ _ _ hall => exact hall ch (h.ledger.length_eq ▸ hlt)

theorem sound_of_run {fd : Nat} {acts : List Act}
    (hrun : Runs.run Session.act (start fd) acts = some s) : Sound s :=
  Runs.invariant Sound (fun _ _ _ hu ha => hu.act ha) (sound_start fd) hrun

/-- However senders, subscribers, consumers and the shutdown take turns with the reader, every
subscriber is served. -/
theorem subscribers_served (fd : Nat) (acts : List Act)
    (hrun : Runs.run Session.act (start fd) acts = some s) : Served s :=
  (sound_of_run hrun).served

/-- A thread subscribes with depth one, the reader reads two frames, the consumer receives. -/
def fullChannel : List Act :=
  [.step (.begin 1 (.subscribe [] [withChannelDepth 1])), .step (.advance 1 .none),
    .step (.advance 1 .none), .step (.advance 0 .none),
    .step (.advance 0 (.read (.frame (.can { canId := 0x123 })))), .step (.advance 0 .none),
    .step (.advance 0 .none), .step (.advance 0 .none),
    .step (.advance 0 (.read (.frame (.can { canId := 0x124 })))), .step (.advance 0 .none),
    .step (.advance 0 .none), .receive 0 .tryRecv]

/-- The second frame finds the channel full. -/
theorem subscribers_served_full : ∃ s, Runs.run Session.act (start 3) fullChannel = some s ∧
    s.met 0 = [({ id := 0x123 }, false), ({ id := 0x124 }, true)] ∧
    s.received 0 = [{ id := 0x123 }] ∧ Served s := by
  obtain ⟨s, hs, hmet, hreceived⟩ : ∃ s, Runs.run Session.act (start 3) fullChannel = some s ∧
      s.met 0 = [({ id := 0x123 }, false), ({ id := 0x124 }, true)] ∧
      s.received 0 = [{ id := 0x123 }] := ⟨_, rfl, rfl, rfl⟩
  exact ⟨s, hs, hmet, hreceived, subscribers_served 3 fullChannel hs⟩

end Session

end CppCan.SocketCan
