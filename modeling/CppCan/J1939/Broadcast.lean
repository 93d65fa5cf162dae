import CppCan.J1939.Packets
import CppCan.J1939.Timeout

/-!
# Receiving a long message

While packets of an announced message arrive in time, in whatever order and however often,
the session of the source is there and holds the bytes of the packets so far. The packet that
was missing last completes it; after that there is no session, and further packets are lost.
-/

namespace CppCan.J1939

open CppCan.Core

variable {pgns : List PGN} {src : UInt8} {f : Frame} {pre post dts : List Arrival}
  {a ann : Arrival} {sess sess' : BamSession}

/-- The arrival is a packet of the message. -/
def IsPacket (src : UInt8) (f : Frame) (a : Arrival) : Prop :=
  ∃ seq, 1 ≤ seq ∧ seq ≤ packetCount f ∧ a.frame = packetFrame src f seq

/-- Every packet of the message has arrived. -/
def Complete (f : Frame) (pre : List Arrival) : Prop :=
  ∀ seq, 1 ≤ seq → seq ≤ packetCount f → ∃ g ∈ pre, segmentNumber g = seq

/-- The session of `src` was announced by `ann` for the message, and holds the packets
among the arrivals `pre`. -/
structure BamSession.Receiving (sess : BamSession) (src : UInt8) (f : Frame) (ann : Arrival)
    (pre : List Arrival) : Prop where
  timed : sess.Timed src ann pre
  tracks : sess.Tracks src ann pre
  totalSize_eq : sess.totalSize = f.data.length
  numPackets_eq : sess.numPackets = packetCount f
  pgn_eq : sess.pgn = f.pgn
  priority_eq : sess.priority = f.priority % 8

theorem IsPacket.fromSource (h : IsPacket src f a) : fromSource src a = true := by
  obtain ⟨seq, -, -, hframe⟩ := h
  rw [J1939.fromSource, hframe, decodeId_packetFrame]
  simp [packetFrame]

theorem IsPacket.pgn_eq (h : IsPacket src f a) : (decodeId a.frame.id).pgn = kPgnTPDT := by
  obtain ⟨seq, -, -, hframe⟩ := h
  rw [hframe, decodeId_packetFrame]

/-- A packet is known by its number. -/
theorem IsPacket.segmentNumber_eq (h : IsPacket src f a) (hcount : packetCount f ≤ 255) :
    1 ≤ segmentNumber a ∧ segmentNumber a ≤ packetCount f ∧
      a.frame = packetFrame src f (segmentNumber a) := by
  obtain ⟨seq, hlow, hhigh, hframe⟩ := h
  have hnumber : segmentNumber a = seq := by
    rw [segmentNumber, hframe]
    exact toNat_packetData_zero f.data (hhigh.trans hcount)
  rw [hnumber]
  exact ⟨hlow, hhigh, hframe⟩

theorem IsPacket.isSegment (h : IsPacket src f a) (hcount : packetCount f ≤ 255) :
    IsSegment src (packetCount f) a := by
  obtain ⟨hlow, hhigh, hframe⟩ := h.segmentNumber_eq hcount
  refine ⟨h.fromSource, h.pgn_eq, ?_, hlow, hhigh⟩
  rw [hframe]
  exact (length_packetData ..).ge

theorem IsPacket.not_isAnnouncement (h : IsPacket src f a) : ¬ IsAnnouncement src a := by
  rintro ⟨-, hcm, -⟩
  rw [h.pgn_eq] at hcm
  exact absurd hcm (by decide)

/-- The announcement of the message opens a session for it. -/
theorem receiving_openSession (hann : ann.frame = bamFrame src f) (hlow : 9 ≤ f.data.length)
    (hhigh : f.data.length ≤ kTPMaxDataBytes) (hpgn : f.pgn < 0x1000000) :
    IsAnnouncement src ann ∧
      ∃ sess, openSession (decodeId ann.frame.id) ann.time ann.frame = some sess ∧
        sess.Receiving src f ann [] := by
  have hid : decodeId ann.frame.id = ⟨f.priority % 8, kPgnTPCM, src⟩ := by
    rw [hann, decodeId_bamFrame]
  have hext : ann.frame.ext = true := by
    rw [hann]
    rfl
  have hopen : openSession (decodeId ann.frame.id) ann.time ann.frame =
      some ⟨f.data.length, packetCount f, f.pgn, f.priority % 8, src,
        List.replicate f.data.length 0, List.replicate (packetCount f) false, 0, ann.time⟩ := by
    rw [hann]
    exact openSession_bamFrame src f ann.time hlow hhigh hpgn
  have hannounced : IsAnnouncement src ann :=
    ⟨by simp [fromSource, hext, hid], by rw [hid], by rw [hopen]; rfl⟩
  have htracks := tracks_openSession hext (by rw [hid]) hopen
  rw [hid] at htracks
  exact ⟨hannounced, _, hopen, timed_openSession hannounced hopen, htracks, rfl, rfl, rfl, rfl⟩

/-- A session is complete when all packets have arrived. -/
theorem BamSession.Receiving.complete_iff (h : sess.Receiving src f ann pre)
    (hpre : ∀ g ∈ pre, IsPacket src f g) (hcount : packetCount f ≤ 255) :
    sess.received = sess.numPackets ↔ Complete f pre := by
  have hmarks := h.timed.marks
  rw [h.tracks.received_eq, ← h.tracks.length_seen, List.count_eq_length]
  constructor
  · intro hall seq hlow hhigh
    have hlt : seq - 1 < sess.numPackets := by
      rw [h.numPackets_eq]
      omega
    have hmark : seq - 1 < sess.seen.length := h.tracks.length_seen.symm ▸ hlt
    have hset : sess.seen.getD (seq - 1) false = true := by
      rw [List.getD_eq_getElem?_getD, List.getElem?_eq_getElem hmark]
      exact (hall _ (List.getElem_mem hmark)).symm
    obtain ⟨g, hg, -, hnumber⟩ := (hmarks.seen_iff _ hlt).mp hset
    exact ⟨g, hg, by omega⟩
  · intro hcomplete b hb
    obtain ⟨j, hj, rfl⟩ := List.getElem_of_mem hb
    have hlt : j < sess.numPackets := h.tracks.length_seen ▸ hj
    obtain ⟨g, hg, hnumber⟩ := hcomplete (j + 1) (by omega) (by rw [← h.numPackets_eq]; omega)
    have hset := (hmarks.seen_iff j hlt).mpr
      ⟨g, hg, h.numPackets_eq ▸ (hpre g hg).isSegment hcount, hnumber⟩
    rw [List.getD_eq_getElem?_getD, List.getElem?_eq_getElem hj] at hset
    exact hset.symm

/-- A packet that comes in time goes into the session, and completes it if it was the last
one that was missing. -/
theorem BamSession.Receiving.step (pgns : List PGN) (h : sess.Receiving src f ann pre)
    (hpre : ∀ g ∈ pre, IsPacket src f g) (hcount : packetCount f ≤ 255)
    (hmissing : ¬ Complete f pre) (ha : IsPacket src f a)
    (hlive : live a.time (some sess) = some sess) :
    ∃ sess' : BamSession, sess'.Receiving src f ann (pre ++ [a]) ∧
      (Complete f (pre ++ [a]) → actOnSession pgns a (some sess) =
        (none, if matchesPgns sess'.pgn pgns then some sess'.message else none)) ∧
      (¬ Complete f (pre ++ [a]) → actOnSession pgns a (some sess) = (some sess', none)) := by
  have hsrc := ha.fromSource
  have hdt := ha.pgn_eq
  have hall : ∀ g ∈ pre ++ [a], IsPacket src f g :=
    List.forall_mem_append.mpr ⟨hpre, List.forall_mem_singleton.mpr ha⟩
  rw [actOnSession_of_dt hdt]
  cases hadd : sess.addSegment a.time a.frame with
  | none =>
    have hstale : ¬ IsFresh src sess.numPackets pre a := by
      intro hfresh
      have hsome := (h.timed.addSegment_isSome_iff hsrc hdt).mpr hfresh
      rw [hadd] at hsome
      cases hsome
    have hnext : sess.Receiving src f ann (pre ++ [a]) :=
      ⟨h.timed.skip hstale, h.tracks.snoc ha.not_isAnnouncement, h.totalSize_eq, h.numPackets_eq,
        h.pgn_eq, h.priority_eq⟩
    refine ⟨sess, hnext, fun hcomplete => ?_, fun _ => rfl⟩
    have hdone := (hnext.complete_iff hall hcount).mpr hcomplete
    exact absurd ((h.complete_iff hpre hcount).mp hdone) hmissing
  | some sess' =>
    have hext := ext_of_fromSource hsrc
    have hsrc' := src_of_fromSource hsrc
    have htracks := h.tracks
    rw [← hsrc'] at htracks
    have htracks' := htracks.addSegment hext hdt hadd
    rw [hsrc'] at htracks'
    have hnext : sess'.Receiving src f ann (pre ++ [a]) := by
      refine ⟨h.timed.addSegment hsrc hdt hlive hadd, htracks', ?_, ?_, ?_, ?_⟩
      all_goals obtain ⟨-, -, -, -, rfl⟩ := BamSession.addSegment_eq_some hadd
      · exact h.totalSize_eq
      · exact h.numPackets_eq
      · exact h.pgn_eq
      · exact h.priority_eq
    have hiff := hnext.complete_iff hall hcount
    refine ⟨sess', hnext, fun hcomplete => ?_, fun hmore => ?_⟩
    · dsimp only
      rw [if_pos (hiff.mpr hcomplete)]
    · dsimp only
      rw [if_neg (mt hiff.mp hmore)]

/-- A complete session holds the bytes of the message. -/
theorem BamSession.Receiving.getD_buf (h : sess.Receiving src f ann pre)
    (hpre : ∀ g ∈ pre, IsPacket src f g) (hcount : packetCount f ≤ 255)
    (hcomplete : Complete f pre) {i : Nat} (hi : i < f.data.length) :
    sess.buf.getD i 0 = f.data.getD i 0 := by
  have hlt : i / 7 < sess.numPackets := by
    rw [h.numPackets_eq, packetCount, kTPBytesPerPacket]
    omega
  obtain ⟨g, hg, hnumber⟩ := hcomplete (i / 7 + 1) (by omega) (by rw [← h.numPackets_eq]; omega)
  have hset := (h.timed.marks.seen_iff (i / 7) hlt).mpr
    ⟨g, hg, h.numPackets_eq ▸ (hpre g hg).isSegment hcount, hnumber⟩
  obtain ⟨dt, hdt, -, hnumber, hbyte⟩ := h.tracks.filled i (by rw [h.totalSize_eq]; exact hi) hset
  obtain ⟨-, -, hframe⟩ := (hpre dt hdt).segmentNumber_eq hcount
  rw [hnumber] at hframe
  rw [hbyte, hframe]
  exact getD_packetData hi

/-- The message of a complete session. -/
theorem BamSession.Receiving.message_eq (h : sess.Receiving src f ann pre)
    (hpre : ∀ g ∈ pre, IsPacket src f g) (hcount : packetCount f ≤ 255)
    (hcomplete : Complete f pre) :
    sess.message = ⟨f.priority % 8, f.pgn, src, kBroadcastAddr, f.data⟩ := by
  have hdata : sess.buf = f.data := by
    have hlen : sess.buf.length = f.data.length := h.tracks.length_buf.trans h.totalSize_eq
    apply List.ext_getElem hlen
    intro i hi hi'
    have hbyte := h.getD_buf hpre hcount hcomplete hi'
    rwa [List.getD_eq_getElem _ _ hi, List.getD_eq_getElem _ _ hi'] at hbyte
  rw [BamSession.message, h.priority_eq, h.pgn_eq, h.tracks.src_eq, hdata]

/-- The fresh segments of a longer stream begin with those of a shorter one. -/
theorem exists_freshSegments_append (src : UInt8) (np : Nat) (pre post : List Arrival) :
    ∃ more, freshSegments src np (pre ++ post) = freshSegments src np pre ++ more ∧
      ∀ g ∈ more, g ∈ post := by
  induction post using List.reverseRecOn with
  | nil => exact ⟨[], by simp, by simp⟩
  | append_singleton post g ih =>
    obtain ⟨more, hmore, hsub⟩ := ih
    rw [← List.append_assoc, freshSegments_concat]
    split
    · refine ⟨more ++ [g], by rw [hmore, List.append_assoc], fun x hx => ?_⟩
      rcases List.mem_append.mp hx with hx | hx
      · exact List.mem_append_left _ (hsub x hx)
      · exact List.mem_append_right _ hx
    · exact ⟨more, hmore, fun x hx => List.mem_append_left _ (hsub x hx)⟩

/-- While packets are missing, the next arrival comes in time: a packet that is still to come
is not too late. -/
theorem time_le_of_missing (hcount : packetCount f ≤ 255)
    (hdts : ∀ g ∈ pre ++ a :: post, IsPacket src f g) (hmissing : ¬ Complete f pre)
    (hall : Complete f (pre ++ a :: post))
    (htimes : (pre ++ a :: post).Pairwise (·.time ≤ ·.time))
    (hspaced : InTime (ann :: freshSegments src (packetCount f) (pre ++ a :: post))) :
    a.time - ((freshSegments src (packetCount f) pre).getLastD ann).time ≤ kBamSessionTimeout := by
  obtain ⟨more, hmore, hsub⟩ := exists_freshSegments_append src (packetCount f) pre (a :: post)
  have hne : more ≠ [] := by
    rintro rfl
    apply hmissing
    intro seq hlow hhigh
    obtain ⟨g, hg, hnumber⟩ := hall seq hlow hhigh
    have hfresh := exists_freshSegment_iff.mpr ⟨g, hg, (hdts g hg).isSegment hcount, hnumber⟩
    rw [hmore, List.append_nil] at hfresh
    obtain ⟨g', hg', -, hnumber'⟩ := exists_freshSegment_iff.mp hfresh
    exact ⟨g', hg', hnumber'⟩
  obtain ⟨g, more, rfl⟩ := List.exists_cons_of_ne_nil hne
  have hlate : a.time ≤ g.time := by
    rcases List.mem_cons.mp (hsub g List.mem_cons_self) with rfl | hg
    · exact le_rfl
    · exact List.rel_of_pairwise_cons (List.pairwise_append.mp htimes).2.1 hg
  rw [hmore, ← List.cons_append] at hspaced
  have hstep := (List.isChain_append.mp hspaced).2.2
    ((freshSegments src (packetCount f) pre).getLastD ann)
    (by rw [List.getLast?_cons, ← List.getLastD_eq_getLast?]; rfl) g rfl
  exact (Int.sub_le_sub_right hlate _).trans hstep

theorem subscribeTp_append (pgns : List PGN) (sessions : Sessions) (xs ys : List Arrival) :
    subscribeTp pgns sessions (xs ++ ys) = subscribeTp pgns sessions xs ++
      subscribeTp pgns (xs.foldl (fun t a => (handleFrame pgns t a).1) sessions) ys := by
  induction xs generalizing sessions with
  | nil => rfl
  | cons x xs ih => rw [List.cons_append, subscribeTp, subscribeTp, ih, List.append_assoc,
      List.foldl_cons]

/-- What a frame of the source hands over is decided by its session alone. -/
theorem handleFrame_snd (pgns : List PGN) (sessions : Sessions) (hsrc : fromSource src a = true) :
    (handleFrame pgns sessions a).2 =
      (actOnSession pgns a (live a.time (sessions src))).2 := by
  have hext := ext_of_fromSource hsrc
  obtain rfl := src_of_fromSource hsrc
  rw [handleFrame_of_ext pgns sessions hext]
  rfl

theorem Complete.mono (h : Complete f pre) (hsub : pre ⊆ post) : Complete f post := by
  intro seq hlow hhigh
  obtain ⟨g, hg, hnumber⟩ := h seq hlow hhigh
  exact ⟨g, hsub hg, hnumber⟩

/-- One more frame of the source at the end of a run. -/
theorem run_concat (pgns : List PGN) (arrivals : List Arrival) (hsrc : fromSource src a = true) :
    sessionsAfter pgns (arrivals ++ [a]) src =
        (actOnSession pgns a (live a.time (sessionsAfter pgns arrivals src))).1 ∧
      subscribeTp pgns noSessions (arrivals ++ [a]) = subscribeTp pgns noSessions arrivals ++
        (actOnSession pgns a (live a.time (sessionsAfter pgns arrivals src))).2.toList := by
  constructor
  · rw [sessionsAfter_eq_foldl, List.foldl_append, List.foldl_cons, List.foldl_nil, cellAfter,
      if_pos hsrc, sessionsAfter_eq_foldl]
  · rw [subscribeTp_append, ← handleFrame_snd pgns _ hsrc, subscribeTp, subscribeTp,
      List.append_nil]
    rfl

/-- While packets are missing, the session is there and nothing is handed over. -/
theorem receiving_of_missing (pgns : List PGN) (hann : ann.frame = bamFrame src f)
    (hlow : 9 ≤ f.data.length) (hhigh : f.data.length ≤ kTPMaxDataBytes)
    (hpgn : f.pgn < 0x1000000) (hdts : ∀ g ∈ pre ++ post, IsPacket src f g)
    (hall : Complete f (pre ++ post)) (htimes : (pre ++ post).Pairwise (·.time ≤ ·.time))
    (hspaced : InTime (ann :: freshSegments src (packetCount f) (pre ++ post)))
    (hmissing : ¬ Complete f pre) :
    ∃ sess : BamSession, sessionsAfter pgns (ann :: pre) src = some sess ∧
      sess.Receiving src f ann pre ∧ subscribeTp pgns noSessions (ann :: pre) = [] := by
  have hcount := packetCount_le f hhigh
  induction pre using List.reverseRecOn generalizing post with
  | nil =>
    obtain ⟨hannounced, sess, hopen, hsess⟩ := receiving_openSession hann hlow hhigh hpgn
    obtain ⟨hsession, houtput⟩ := run_concat pgns [] hannounced.1
    have hact : ∀ cell, actOnSession pgns ann cell = (some sess, none) := by
      intro cell
      simp only [actOnSession, hannounced.2.1, if_true, hopen]
    rw [hact] at hsession houtput
    exact ⟨sess, hsession, hsess, houtput⟩
  | append_singleton pre a ih =>
    rw [List.append_assoc, List.singleton_append] at hdts hall htimes hspaced
    have hpre : ∀ g ∈ pre, IsPacket src f g := fun g hg => hdts g (List.mem_append_left _ hg)
    have ha : IsPacket src f a := hdts a (by simp)
    have hbefore : ¬ Complete f pre := fun h => hmissing (h.mono (List.subset_append_left ..))
    obtain ⟨sess, hsession, hsess, houtput⟩ := ih hdts hall htimes hspaced hbefore
    have htime := time_le_of_missing hcount hdts hbefore hall htimes hspaced
    rw [← hsess.numPackets_eq, ← hsess.timed.lastSeen_eq] at htime
    have hlive := live_eq_some_iff.mpr htime
    obtain ⟨sess', hsess', -, hmore⟩ := hsess.step pgns hpre hcount hbefore ha hlive
    obtain ⟨hsession', houtput'⟩ := run_concat pgns (ann :: pre) ha.fromSource
    rw [hsession, hlive, hmore hmissing] at hsession' houtput'
    rw [houtput] at houtput'
    exact ⟨sess', hsession', hsess', houtput'⟩

/-- Without a session packets are lost. -/
theorem subscribeTp_of_none (pgns : List PGN) {sessions : Sessions} (hnone : sessions src = none)
    (hpost : ∀ g ∈ post, IsPacket src f g) : subscribeTp pgns sessions post = [] := by
  induction post generalizing sessions with
  | nil => rfl
  | cons g post ih =>
    obtain ⟨hg, hpost⟩ := List.forall_mem_cons.mp hpost
    have hlost : actOnSession pgns g none = (none, none) :=
      actOnSession_none hg.fromSource hg.not_isAnnouncement
    have hnext : (handleFrame pgns sessions g).1 src = none := by
      rw [handleFrame_fst, hnone, cellAfter_none hg.not_isAnnouncement]
    rw [subscribeTp, handleFrame_snd pgns sessions hg.fromSource, hnone, ih hnext hpost]
    exact congrArg (fun out => out.2.toList ++ []) hlost

/-- What holds of a list but not of the empty one begins to hold at one of its members. -/
theorem exists_first {α : Type} {p : List α → Prop} {l : List α} (hnil : ¬ p []) (h : p l) :
    ∃ pre x post, l = pre ++ x :: post ∧ ¬ p pre ∧ p (pre ++ [x]) := by
  induction l using List.reverseRecOn with
  | nil => exact absurd h hnil
  | append_singleton l x ih =>
    by_cases hl : p l
    · obtain ⟨pre, y, post, rfl, hrest⟩ := ih hl
      exact ⟨pre, y, post ++ [x], by simp, hrest⟩
    · exact ⟨l, x, [], rfl, hl, h⟩

/-- The announcement of a message and its packets, in any order and each any number of times
but at least once, in time: the packet that was missing last hands over the message, and no
other frame hands over anything. -/
theorem broadcast_roundTrip (src : UInt8) (f : Frame) (pgns : List PGN) (bam : CppCan.Frame)
    (packets : List CppCan.Frame) (ann : Arrival) (dts : List Arrival)
    (hlow : 9 ≤ f.data.length) (hhigh : f.data.length ≤ 1785) (hpgn : f.pgn < 0x1000000)
    (hsent : sendTp record src f [] = (bam :: packets, none)) (hann : ann.frame = bam)
    (hdts : ∀ g ∈ dts, g.frame ∈ packets) (hall : ∀ cf ∈ packets, ∃ g ∈ dts, g.frame = cf)
    (htimes : (ann :: dts).Pairwise (·.time ≤ ·.time))
    (hspaced : InTime (ann :: freshSegments src packets.length dts))
    (hmatch : matchesPgns f.pgn pgns = true) :
    ∃ pre last post, dts = pre ++ last :: post ∧ (∀ g ∈ pre, g.frame ≠ last.frame) ∧
      (∀ cf ∈ packets, ∃ g ∈ pre ++ [last], g.frame = cf) ∧
      subscribeTp pgns noSessions (ann :: pre) = [] ∧
      (handleFrame pgns (sessionsAfter pgns (ann :: pre)) last).2 =
        some ⟨f.priority % 8, f.pgn, src, kBroadcastAddr, f.data⟩ ∧
      subscribeTp pgns (sessionsAfter pgns (ann :: (pre ++ [last]))) post = [] := by
  have hcount := packetCount_le f hhigh
  rw [sendTp_record src f hlow hhigh] at hsent
  obtain ⟨rfl, rfl⟩ := List.cons.inj (Prod.mk.inj hsent).1
  rw [List.length_map, List.length_range'] at hspaced
  have hpackets : ∀ g ∈ dts, IsPacket src f g := by
    intro g hg
    obtain ⟨seq, hseq, hframe⟩ := List.mem_map.mp (hdts g hg)
    rw [List.mem_range'_1] at hseq
    exact ⟨seq, hseq.1, by omega, hframe.symm⟩
  have hcomplete : Complete f dts := by
    intro seq hfirst hlast
    obtain ⟨g, hg, hframe⟩ := hall (packetFrame src f seq)
      (List.mem_map_of_mem (List.mem_range'_1.mpr ⟨hfirst, by omega⟩))
    refine ⟨g, hg, ?_⟩
    rw [segmentNumber, hframe]
    exact toNat_packetData_zero f.data (hlast.trans hcount)
  have hnil : ¬ Complete f [] := by
    intro h
    obtain ⟨g, hg, -⟩ := h 1 le_rfl (packetCount_pos f hlow)
    cases hg
  obtain ⟨pre, last, post, rfl, hmissing, hdone⟩ := exists_first hnil hcomplete
  have hpre : ∀ g ∈ pre, IsPacket src f g := fun g hg => hpackets g (List.mem_append_left _ hg)
  have hlast : IsPacket src f last := hpackets last (by simp)
  have htimes := (List.pairwise_cons.mp htimes).2
  obtain ⟨sess, hsession, hsess, hbefore⟩ := receiving_of_missing pgns hann hlow hhigh hpgn
    hpackets hcomplete htimes hspaced hmissing
  have htime := time_le_of_missing hcount hpackets hmissing hcomplete htimes hspaced
  rw [← hsess.numPackets_eq, ← hsess.timed.lastSeen_eq] at htime
  have hlive := live_eq_some_iff.mpr htime
  obtain ⟨sess', hsess', hact, -⟩ := hsess.step pgns hpre hcount hmissing hlast hlive
  have hboth : ∀ g ∈ pre ++ [last], IsPacket src f g :=
    List.forall_mem_append.mpr ⟨hpre, List.forall_mem_singleton.mpr hlast⟩
  have hact := hact hdone
  rw [hsess'.message_eq hboth hcount hdone, hsess'.pgn_eq, hmatch, if_pos rfl] at hact
  refine ⟨pre, last, post, rfl, ?_, ?_, hbefore, ?_, ?_⟩
  · -- if the packet had arrived before, no packet would be missing before
    intro g hg hframe
    apply hmissing
    intro seq hfirst hhighest
    obtain ⟨g', hg', hnumber⟩ := hdone seq hfirst hhighest
    rcases List.mem_append.mp hg' with hg' | hg'
    · exact ⟨g', hg', hnumber⟩
    · obtain rfl := List.mem_singleton.mp hg'
      refine ⟨g, hg, ?_⟩
      rw [segmentNumber, hframe]
      exact hnumber
  · intro cf hcf
    obtain ⟨seq, hseq, rfl⟩ := List.mem_map.mp hcf
    rw [List.mem_range'_1] at hseq
    obtain ⟨g, hg, rfl⟩ := hdone seq hseq.1 (by omega)
    exact ⟨g, hg, ((hboth g hg).segmentNumber_eq hcount).2.2⟩
  · rw [handleFrame_snd pgns _ hlast.fromSource, hsession, hlive, hact]
  · have hover := (run_concat pgns (ann :: pre) hlast.fromSource).1
    rw [hsession, hlive, hact] at hover
    exact subscribeTp_of_none pgns hover fun g hg => hpackets g (by simp [hg])

/-- Nine bytes in two packets, each of which arrives twice, the second one first. -/
theorem broadcast_roundTrip_repeated :
    ∃ pre last post,
      [Arrival.extended 0x1CEBFF42 [2, 18, 19, 0xFF, 0xFF, 0xFF, 0xFF, 0xFF] 600000000,
        Arrival.extended 0x1CEBFF42 [2, 18, 19, 0xFF, 0xFF, 0xFF, 0xFF, 0xFF] 900000000,
        Arrival.extended 0x1CEBFF42 [1, 11, 12, 13, 14, 15, 16, 17] 1200000000,
        Arrival.extended 0x1CEBFF42 [1, 11, 12, 13, 14, 15, 16, 17] 9000000000] =
        pre ++ last :: post ∧ (∀ g ∈ pre, g.frame ≠ last.frame) ∧
      (∀ cf ∈ [(Arrival.extended 0x1CEBFF42 [1, 11, 12, 13, 14, 15, 16, 17] 0).frame,
          (Arrival.extended 0x1CEBFF42 [2, 18, 19, 0xFF, 0xFF, 0xFF, 0xFF, 0xFF] 0).frame],
        ∃ g ∈ pre ++ [last], g.frame = cf) ∧
      subscribeTp [] noSessions
        (Arrival.extended 0x1CECFF42 [0x20, 9, 0, 2, 0xFF, 0xCA, 0xFE, 0] 0 :: pre) = [] ∧
      (handleFrame [] (sessionsAfter []
        (Arrival.extended 0x1CECFF42 [0x20, 9, 0, 2, 0xFF, 0xCA, 0xFE, 0] 0 :: pre)) last).2 =
        some ⟨15 % 8, 0xFECA, 0x42, 0xFF, [11, 12, 13, 14, 15, 16, 17, 18, 19]⟩ ∧
      subscribeTp [] (sessionsAfter []
        (Arrival.extended 0x1CECFF42 [0x20, 9, 0, 2, 0xFF, 0xCA, 0xFE, 0] 0 ::
          (pre ++ [last]))) post = [] :=
  broadcast_roundTrip 0x42 ⟨15, 0xFECA, 0, 0, [11, 12, 13, 14, 15, 16, 17, 18, 19]⟩ [] _ _ _ _
    (by decide) (by decide) (by decide) (by decide) rfl (by decide) (by decide) (by decide)
    (by unfold InTime; decide) rfl

/-- The packets come 100 ms apart, but the first of them 800 ms after the announcement: the
session is gone and nothing is handed over. -/
theorem broadcast_lost :
    sendTp record 0x42 ⟨15, 0xFECA, 0, 0, [11, 12, 13, 14, 15, 16, 17, 18, 19]⟩ [] =
        ([Arrival.extended 0x1CECFF42 [0x20, 9, 0, 2, 0xFF, 0xCA, 0xFE, 0] 0,
          Arrival.extended 0x1CEBFF42 [1, 11, 12, 13, 14, 15, 16, 17] 800000000,
          Arrival.extended 0x1CEBFF42 [2, 18, 19, 0xFF, 0xFF, 0xFF, 0xFF, 0xFF] 900000000].map
            Arrival.frame, none) ∧
      InTime (freshSegments 0x42 2
        [Arrival.extended 0x1CEBFF42 [1, 11, 12, 13, 14, 15, 16, 17] 800000000,
          Arrival.extended 0x1CEBFF42 [2, 18, 19, 0xFF, 0xFF, 0xFF, 0xFF, 0xFF] 900000000]) ∧
      subscribeTp [] noSessions
        [Arrival.extended 0x1CECFF42 [0x20, 9, 0, 2, 0xFF, 0xCA, 0xFE, 0] 0,
          Arrival.extended 0x1CEBFF42 [1, 11, 12, 13, 14, 15, 16, 17] 800000000,
          Arrival.extended 0x1CEBFF42 [2, 18, 19, 0xFF, 0xFF, 0xFF, 0xFF, 0xFF] 900000000] =
        [] :=
  ⟨by decide, by unfold InTime; decide, by decide⟩

end CppCan.J1939
