import CppCan.J1939.Broadcast

/-!
# Many stations on one bus

Every station broadcasts its long messages one after another. The bus mixes the frames of
all stations and any other traffic. The receive loop hands over the messages of every
station in the order in which it sent them: only the frames of the station that open a
session or carry a segment matter to its session, and each announcement finds the session
of the message before completed.
-/

namespace CppCan.J1939

open CppCan.Core

/-- The frame opens a session or carries a segment. -/
def isTransport (a : Arrival) : Bool :=
  (decodeId a.frame.id).pgn == kPgnTPDT || ((decodeId a.frame.id).pgn == kPgnTPCM &&
    (openSession (decodeId a.frame.id) a.time a.frame).isSome)

/-- A frame of the station with this address that opens a session or carries a segment. -/
def transportOf (src : UInt8) (a : Arrival) : Bool := fromSource src a && isTransport a

/-- The second of two frames announces a message or comes in time behind the first one. -/
def Follows (a b : Arrival) : Prop :=
  (decodeId b.frame.id).pgn = kPgnTPCM ∨ b.time - a.time ≤ kBamSessionTimeout

instance : DecidableRel Follows := fun _ _ => inferInstanceAs (Decidable (_ ∨ _))

/-- The message as the receive loop hands it over. -/
def handedOver (src : UInt8) (f : Frame) : Frame :=
  ⟨f.priority % 8, f.pgn, src, kBroadcastAddr, f.data⟩

variable {pgns : List PGN} {src : UInt8} {f : Frame} {pre post rest dts : List Arrival}
  {a ann : Arrival} {sess : BamSession} {sessions : Sessions} {i : Nat}

/-- No other frame acts on a session. -/
theorem actOnSession_of_not_transport (h : isTransport a = false) (cell : Option BamSession) :
    actOnSession pgns a cell = (cell, none) := by
  simp only [isTransport, Bool.or_eq_false_iff, Bool.and_eq_false_iff, beq_eq_false_iff_ne] at h
  obtain ⟨hdt, hcm⟩ := h
  unfold actOnSession
  dsimp only
  split
  · rename_i hpgn
    have hclosed := hcm.resolve_left (not_not.mpr hpgn)
    rw [Option.isSome_eq_false_iff, Option.isNone_iff_eq_none] at hclosed
    rw [hclosed]
  · rfl

/-- The messages of a station are decided by the frames of its own that matter. -/
theorem filter_subscribeTp (pgns : List PGN) (src : UInt8) (arrivals : List Arrival)
    (htime : arrivals.Pairwise (·.time ≤ ·.time)) :
    (subscribeTp pgns noSessions arrivals).filter (·.src = src) =
      ((bamTable pgns).outputs noSessions (arrivals.filter (transportOf src))).map Prod.snd := by
  have hlabel : ∀ o ∈ (bamTable pgns).outputs noSessions (arrivals.filter (·.frame.ext)),
      decide (o.2.src = src) = decide (o.1 = src) := by
    intro o ho
    rw [outputs_src pgns _ o ho]
  have hown : arrivals.filter (transportOf src) =
      ((arrivals.filter (·.frame.ext)).filter fun a => (bamTable pgns).key a = src).filter
        isTransport := by
    rw [List.filter_filter, List.filter_filter]
    refine List.filter_congr fun a _ => ?_
    rw [Bool.eq_iff_iff]
    simp only [transportOf, fromSource, Bool.and_eq_true, beq_iff_eq, decide_eq_true_eq]
    constructor
    · rintro ⟨⟨hext, hsrc⟩, htransport⟩
      exact ⟨⟨htransport, hsrc⟩, hext⟩
    · rintro ⟨⟨htransport, hsrc⟩, hext⟩
      exact ⟨⟨hext, hsrc⟩, htransport⟩
  rw [subscribeTp_eq_outputs, List.filter_map, hown]
  refine congrArg (List.map Prod.snd) ((List.filter_congr hlabel).trans ?_)
  have htime' : (arrivals.filter (·.frame.ext)).Pairwise fun a b =>
      (bamTable pgns).time a ≤ (bamTable pgns).time b := htime.filter _
  generalize arrivals.filter (·.frame.ext) = es at htime'
  cases es with
  | nil => rfl
  | cons e es =>
    have hfirst : ∀ a ∈ e :: es, (bamTable pgns).time e ≤ (bamTable pgns).time a :=
      List.forall_mem_cons.mpr ⟨le_rfl, (List.pairwise_cons.mp htime').1⟩
    have hcell : (bamTable pgns).SameFrom ((bamTable pgns).time e) (noSessions src)
        (noSessions src) := fun _ _ => rfl
    rw [TableMachine.outputs_filter_key (bamTable_expiryMonotone pgns) src _ htime' hfirst hcell]
    exact TableMachine.outputs_filter_keep (bamTable_expiryMonotone pgns) (k := src)
      (fun a ha => actOnSession_of_not_transport ha)
      (fun a ha => of_decide_eq_true (List.mem_filter.mp ha).2)
      (htime'.filter _) (fun a ha => hfirst a (List.mem_filter.mp ha).1) fun _ _ => rfl

/-- The packets with the numbers from `i` on arrive in this order. -/
def PacketsFrom (src : UInt8) (f : Frame) (i : Nat) (dts : List Arrival) : Prop :=
  dts.map (·.frame) = (List.range' i (packetCount f + 1 - i)).map (packetFrame src f)

/-- The first of the packets that are still to come. -/
theorem PacketsFrom.cons (h : PacketsFrom src f i (a :: post)) :
    i ≤ packetCount f ∧ a.frame = packetFrame src f i ∧ PacketsFrom src f (i + 1) post := by
  unfold PacketsFrom at h ⊢
  have hlen := congrArg List.length h
  simp only [List.map_cons, List.length_cons, List.length_map, List.length_range'] at hlen
  have hcount : packetCount f + 1 - i = packetCount f + 1 - (i + 1) + 1 := by omega
  rw [hcount, List.range'_succ, List.map_cons, List.map_cons] at h
  obtain ⟨hframe, hrest⟩ := List.cons.inj h
  exact ⟨by omega, hframe, hrest⟩

/-- While packets are to come, the session holds those before, and its clock shows the last. -/
structure BamSession.Awaiting (sess : BamSession) (src : UInt8) (f : Frame) (ann : Arrival)
    (pre : List Arrival) (i : Nat) : Prop where
  receiving : sess.Receiving src f ann pre
  packets : ∀ g ∈ pre, IsPacket src f g
  numbers : ∀ n, 1 ≤ n → ((∃ g ∈ pre, segmentNumber g = n) ↔ n < i)
  fresh : freshSegments src (packetCount f) pre = pre

/-- The next packet completes the session or leaves it waiting for the one after. -/
theorem BamSession.Awaiting.step (pgns : List PGN) (h : sess.Awaiting src f ann pre i)
    (hpos : 1 ≤ i) (hi : i ≤ packetCount f)
    (hcount : packetCount f ≤ 255) (ha : a.frame = packetFrame src f i)
    (htime : a.time - (pre.getLastD ann).time ≤ kBamSessionTimeout) :
    (i = packetCount f → actOnSession pgns a (live a.time (some sess)) =
      (none, if matchesPgns f.pgn pgns then some (handedOver src f) else none)) ∧
    (i < packetCount f → ∃ sess' : BamSession, sess'.Awaiting src f ann (pre ++ [a]) (i + 1) ∧
      actOnSession pgns a (live a.time (some sess)) = (some sess', none)) := by
  have hpacket : IsPacket src f a := ⟨i, hpos, hi, ha⟩
  have hnumber : segmentNumber a = i := by
    rw [segmentNumber, ha]
    exact toNat_packetData_zero f.data (hi.trans hcount)
  have hall : ∀ g ∈ pre ++ [a], IsPacket src f g :=
    List.forall_mem_append.mpr ⟨h.packets, List.forall_mem_singleton.mpr hpacket⟩
  have hnumbers : ∀ n, 1 ≤ n → ((∃ g ∈ pre ++ [a], segmentNumber g = n) ↔ n < i + 1) := by
    intro n hn
    have hbefore := h.numbers n hn
    simp only [List.mem_append, List.mem_singleton, or_and_right, exists_or, exists_eq_left,
      hbefore, hnumber]
    omega
  have hmissing : ¬ Complete f pre := by
    intro hcomplete
    exact absurd ((h.numbers i hpos).mp (hcomplete i hpos hi)) (lt_irrefl i)
  have hdone : Complete f (pre ++ [a]) ↔ i = packetCount f := by
    constructor
    · intro hcomplete
      have hlast := (hnumbers _ (hpos.trans hi)).mp (hcomplete _ (hpos.trans hi) le_rfl)
      omega
    · intro heq seq hlow hhigh
      exact (hnumbers seq hlow).mpr (by omega)
  have hlast : a.time - sess.lastSeen ≤ kBamSessionTimeout := by
    rw [h.receiving.timed.lastSeen_eq, h.receiving.numPackets_eq, h.fresh]
    exact htime
  have hlive := live_eq_some_iff.mpr hlast
  obtain ⟨sess', hsess', hcompletes, hmore⟩ :=
    h.receiving.step pgns h.packets hcount hmissing hpacket hlive
  rw [hlive]
  constructor
  · intro heq
    rw [hcompletes (hdone.mpr heq), hsess'.message_eq hall hcount (hdone.mpr heq), hsess'.pgn_eq]
    rfl
  · intro hlt
    refine ⟨sess', ⟨hsess', hall, hnumbers, ?_⟩, hmore fun hcomplete => ?_⟩
    · have hfresh : IsFresh src (packetCount f) pre a := by
        refine ⟨hpacket.isSegment hcount, fun g hg _ hsame => ?_⟩
        exact absurd ((h.numbers i hpos).mp ⟨g, hg, hsame.trans hnumber⟩) (lt_irrefl i)
      rw [freshSegments_of_isFresh hfresh, h.fresh]
    · have heq := hdone.mp hcomplete
      omega

/-- The output and the cell after one frame of the station. -/
theorem outputs_cons (pgns : List PGN) (sessions : Sessions) (hsrc : fromSource src a = true)
    (es : List Arrival) :
    (bamTable pgns).outputs sessions (a :: es) =
      ((actOnSession pgns a (live a.time (sessions src))).2.map (src, ·)).toList ++
        (bamTable pgns).outputs ((bamTable pgns).step sessions a).1 es ∧
      ((bamTable pgns).step sessions a).1 src =
        (actOnSession pgns a (live a.time (sessions src))).1 := by
  obtain rfl := src_of_fromSource hsrc
  exact ⟨rfl, (bamTable pgns).step_fst_self sessions a⟩

/-- The packets of a message hand it over, and what follows starts afresh. -/
theorem outputs_packets (rest : List Arrival) (h : sess.Awaiting src f ann pre i) (hpos : 1 ≤ i)
    (hi : i ≤ packetCount f) (hcount : packetCount f ≤ 255) (hcell : sessions src = some sess)
    (hpost : PacketsFrom src f i post) (htime : InTime (pre.getLastD ann :: post)) :
    ∃ sessions', (bamTable pgns).outputs sessions (post ++ rest) =
      (if matchesPgns f.pgn pgns then [(src, handedOver src f)] else []) ++
        (bamTable pgns).outputs sessions' rest := by
  induction post generalizing pre i sess sessions with
  | nil =>
    have hlen := congrArg List.length hpost
    simp only [List.map_nil, List.length_nil, List.length_map, List.length_range'] at hlen
    omega
  | cons a post ih =>
    obtain ⟨-, ha, hrest⟩ := hpost.cons
    obtain ⟨hfirst, hchain⟩ := List.isChain_cons_cons.mp htime
    obtain ⟨hdone, hmore⟩ := h.step pgns hpos hi hcount ha hfirst
    have hpacket : IsPacket src f a := ⟨i, hpos, hi, ha⟩
    obtain ⟨hout, hnext⟩ := outputs_cons pgns sessions hpacket.fromSource (post ++ rest)
    rw [List.cons_append, hout, hcell]
    rw [hcell] at hnext
    by_cases hlast : i = packetCount f
    · obtain rfl : post = [] := by
        have hlen := congrArg List.length hrest
        simp only [List.length_map, List.length_range'] at hlen
        exact List.length_eq_zero_iff.mp (by omega)
      rw [hdone hlast]
      refine ⟨_, congrArg₂ _ ?_ rfl⟩
      cases matchesPgns f.pgn pgns <;> rfl
    · obtain ⟨sess', hsess', hact⟩ := hmore (by omega)
      rw [hact] at hnext ⊢
      exact ih hsess' (by omega) (by omega) hnext hrest (by rwa [List.getLastD_concat])

/-- A message that a station can broadcast. -/
def Broadcastable (f : Frame) : Prop :=
  9 ≤ f.data.length ∧ f.data.length ≤ kTPMaxDataBytes ∧ f.pgn < 0x1000000

instance (f : Frame) : Decidable (Broadcastable f) := inferInstanceAs (Decidable (_ ∧ _ ∧ _))

/-- The announcement of a message and its packets hand it over, whatever was before. -/
theorem outputs_message (pgns : List PGN) (sessions : Sessions) (rest : List Arrival)
    (hf : Broadcastable f) (hann : ann.frame = bamFrame src f)
    (hdts : PacketsFrom src f 1 dts) (htime : InTime (ann :: dts)) :
    ∃ sessions', (bamTable pgns).outputs sessions (ann :: (dts ++ rest)) =
      (if matchesPgns f.pgn pgns then [(src, handedOver src f)] else []) ++
        (bamTable pgns).outputs sessions' rest := by
  obtain ⟨hannounced, sess, hopen, hsess⟩ := receiving_openSession hann hf.1 hf.2.1 hf.2.2
  obtain ⟨hout, hnext⟩ := outputs_cons pgns sessions hannounced.1 (dts ++ rest)
  have hact : ∀ cell, actOnSession pgns ann cell = (some sess, none) := by
    intro cell
    simp only [actOnSession, hannounced.2.1, if_true, hopen]
  rw [hact] at hout hnext
  have hawaiting : sess.Awaiting src f ann [] 1 := by
    refine ⟨hsess, by simp, fun n hn => ?_, rfl⟩
    simp only [List.not_mem_nil, false_and, exists_false, false_iff]
    omega
  obtain ⟨sessions', hrest⟩ := outputs_packets rest hawaiting le_rfl
    (packetCount_pos f hf.1) (packetCount_le f hf.2.1) hnext hdts htime
  exact ⟨sessions', hout.trans hrest⟩

/-- The frames that a station puts on the bus for a message. -/
def broadcastFrames (src : UInt8) (f : Frame) : List CppCan.Frame := (sendTp record src f []).1

/-- Packets follow in time what is before them. -/
theorem inTime_of_follows (hdts : ∀ g ∈ dts, (decodeId g.frame.id).pgn = kPgnTPDT)
    (h : (a :: dts).IsChain Follows) : InTime (a :: dts) := by
  induction dts generalizing a with
  | nil => exact List.isChain_singleton a
  | cons g dts ih =>
    obtain ⟨hg, hdts⟩ := List.forall_mem_cons.mp hdts
    obtain ⟨hfollows, hchain⟩ := List.isChain_cons_cons.mp h
    refine List.isChain_cons_cons.mpr ⟨hfollows.resolve_left fun hcm => ?_, ih hdts hchain⟩
    exact absurd (hg.symm.trans hcm) (by decide)

/-- A station's messages are handed over one after another. -/
theorem outputs_broadcasts {sent : List Frame} {es : List Arrival}
    (hsent : ∀ f ∈ sent, Broadcastable f)
    (hframes : es.map (·.frame) = sent.flatMap (broadcastFrames src))
    (htime : es.IsChain Follows) :
    ((bamTable pgns).outputs sessions es).map Prod.snd =
      (sent.filter (matchesPgns ·.pgn pgns)).map (handedOver src) := by
  induction sent generalizing es sessions with
  | nil =>
    rw [List.map_eq_nil_iff.mp hframes]
    rfl
  | cons f sent ih =>
    obtain ⟨hf, hsent⟩ := List.forall_mem_cons.mp hsent
    rw [List.flatMap_cons, broadcastFrames, sendTp_record src f hf.1 hf.2.1] at hframes
    obtain ⟨first, rest, rfl, hfirst, hrest⟩ := List.map_eq_append_iff.mp hframes
    obtain ⟨ann, dts, rfl, hann, hdts⟩ := List.map_eq_cons_iff.mp hfirst
    have hpackets : ∀ g ∈ dts, (decodeId g.frame.id).pgn = kPgnTPDT := by
      intro g hg
      have hmem : g.frame ∈ dts.map (·.frame) := List.mem_map_of_mem hg
      rw [hdts] at hmem
      obtain ⟨seq, -, hframe⟩ := List.mem_map.mp hmem
      rw [← hframe, decodeId_packetFrame]
    obtain ⟨hmessage, hothers, -⟩ := List.isChain_append.mp htime
    obtain ⟨sessions', hout⟩ := outputs_message pgns sessions rest hf hann hdts
      (inTime_of_follows hpackets hmessage)
    rw [List.cons_append, hout, List.map_append, ih hsent hrest hothers, List.filter_cons]
    cases matchesPgns f.pgn pgns <;> rfl

/-- However the bus mixes the frames of a station with those of others, its messages are handed
over in the order in which it broadcast them, if it sends nothing else that opens a session or
carries a segment and every packet comes in time behind its frame before it. -/
theorem broadcasts_received (pgns : List PGN) (src : UInt8) (sent : List Frame)
    (arrivals : List Arrival) (hsent : ∀ f ∈ sent, Broadcastable f)
    (hframes : (arrivals.filter (transportOf src)).map (·.frame) =
      sent.flatMap (broadcastFrames src))
    (htimes : arrivals.Pairwise (·.time ≤ ·.time))
    (hfollows : (arrivals.filter (transportOf src)).IsChain Follows) :
    (subscribeTp pgns noSessions arrivals).filter (·.src = src) =
      (sent.filter (matchesPgns ·.pgn pgns)).map (handedOver src) := by
  rw [filter_subscribeTp pgns src arrivals htimes]
  exact outputs_broadcasts hsent hframes hfollows

/-- Two stations with nine bytes each; the second one also sends a short message and a packet that
it has not announced. -/
def mixed : List Arrival :=
  [.extended 0x1CECFF42 [0x20, 9, 0, 2, 0xFF, 0xCA, 0xFE, 0] 0,
    .extended 0x1CEBFF17 [1, 21, 22, 23, 24, 25, 26, 27] 5,
    .extended 0x1CECFF17 [0x20, 9, 0, 2, 0xFF, 0xCA, 0xFE, 0] 6,
    .extended 0x1CEBFF42 [1, 11, 12, 13, 14, 15, 16, 17] 600000000,
    .extended 0x18FECA17 [1, 2, 3] 600000001,
    .extended 0x1CEBFF17 [1, 21, 22, 23, 24, 25, 26, 27] 700000000,
    .extended 0x1CEBFF17 [2, 28, 29, 0xFF, 0xFF, 0xFF, 0xFF, 0xFF] 700000001,
    .extended 0x1CEBFF42 [2, 18, 19, 0xFF, 0xFF, 0xFF, 0xFF, 0xFF] 1300000000]

/-- The message of the first station is received. -/
theorem broadcasts_received_mixed :
    (subscribeTp [] noSessions mixed).filter (·.src = 0x42) =
      [⟨7, 0xFECA, 0x42, 0xFF, [11, 12, 13, 14, 15, 16, 17, 18, 19]⟩] :=
  broadcasts_received [] 0x42 [⟨7, 0xFECA, 0, 0, [11, 12, 13, 14, 15, 16, 17, 18, 19]⟩] mixed
    (by decide) (by decide) (by decide) (by decide)

end CppCan.J1939
