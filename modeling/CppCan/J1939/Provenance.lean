import CppCan.J1939.Isolation

/-!
# Where delivered bytes come from

Each session remembers exactly its announcement and the segments stored since.
A buffer byte whose segment is marked seen is the corresponding data byte of a
received segment; a byte past the announced packets is never written. Delivery
happens when every mark is set, so a delivered message is genuine precisely
when its announcement covers the announced size with the announced packets.
-/

namespace CppCan.J1939

open CppCan.Core

theorem ext_of_fromSource {src : UInt8} {a : Arrival} (h : fromSource src a = true) :
    a.frame.ext = true := by
  simp only [fromSource, Bool.and_eq_true] at h
  exact h.1

theorem src_of_fromSource {src : UInt8} {a : Arrival} (h : fromSource src a = true) :
    (decodeId a.frame.id).src = src := by
  simp only [fromSource, Bool.and_eq_true, beq_iff_eq] at h
  exact h.2

/-- The arrival opens or replaces the session of `src`. -/
def IsAnnouncement (src : UInt8) (a : Arrival) : Prop :=
  fromSource src a = true ∧ (decodeId a.frame.id).pgn = kPgnTPCM ∧
    (openSession (decodeId a.frame.id) a.time a.frame).isSome

/-- Sequence number in byte 0 of a `TP.DT` frame. -/
def segmentNumber (a : Arrival) : Nat := (a.frame.data.getD 0 0).toNat

/-- The arrival is one of the `np` segments of a session of `src`. -/
def IsSegment (src : UInt8) (np : Nat) (a : Arrival) : Prop :=
  fromSource src a = true ∧ (decodeId a.frame.id).pgn = kPgnTPDT ∧ 8 ≤ a.frame.data.length ∧
    1 ≤ segmentNumber a ∧ segmentNumber a ≤ np

/-- Every byte of the message is the right data byte of a segment received in `window`. -/
def Genuine (np : Nat) (window : List Arrival) (msg : Frame) : Prop :=
  ∀ i < msg.data.length, ∃ dt ∈ window, IsSegment msg.src np dt ∧ segmentNumber dt = i / 7 + 1 ∧
    msg.data.getD i 0 = dt.frame.data.getD (1 + i % 7) 0

/-- The session of `src` after its last announcement `ann` and the arrivals `since`. -/
structure BamSession.Tracks (sess : BamSession) (src : UInt8) (ann : Arrival)
    (since : List Arrival) : Prop where
  src_eq : sess.src = src
  announced : IsAnnouncement src ann
  unreplaced : ∀ a ∈ since, ¬ IsAnnouncement src a
  totalSize_eq : sess.totalSize = announcedTotal ann.frame
  numPackets_eq : sess.numPackets = announcedPackets ann.frame
  length_buf : sess.buf.length = sess.totalSize
  length_seen : sess.seen.length = sess.numPackets
  /-- The completion counter counts the marks. -/
  received_eq : sess.received = sess.seen.count true
  /-- A marked segment's bytes come from a received segment. -/
  filled : ∀ i < sess.totalSize, sess.seen.getD (i / 7) false = true →
    ∃ dt ∈ since, IsSegment src sess.numPackets dt ∧ segmentNumber dt = i / 7 + 1 ∧
      sess.buf.getD i 0 = dt.frame.data.getD (1 + i % 7) 0

/-- The history of a session: some arrival announced it and it tracks what followed. -/
def Provenance (es : List Arrival) (src : UInt8) (sess : BamSession) : Prop :=
  ∃ before ann since, es = before ++ ann :: since ∧ sess.Tracks src ann since

/-- A session tracks any further arrival that does not replace it. -/
theorem BamSession.Tracks.snoc {sess : BamSession} {src : UInt8} {ann : Arrival}
    {since : List Arrival} (h : sess.Tracks src ann since) {a : Arrival}
    (ha : ¬ IsAnnouncement src a) : sess.Tracks src ann (since ++ [a]) where
  src_eq := h.src_eq
  announced := h.announced
  unreplaced := by
    intro b hb
    rcases List.mem_append.mp hb with hb | hb
    · exact h.unreplaced b hb
    · obtain rfl := List.mem_singleton.mp hb
      exact ha
  totalSize_eq := h.totalSize_eq
  numPackets_eq := h.numPackets_eq
  length_buf := h.length_buf
  length_seen := h.length_seen
  received_eq := h.received_eq
  filled := by
    intro i hi hseen
    obtain ⟨dt, hdt, hrest⟩ := h.filled i hi hseen
    exact ⟨dt, List.mem_append_left _ hdt, hrest⟩

/-- An accepted announcement starts a session that has stored nothing. -/
theorem tracks_openSession {a : Arrival} {sess : BamSession}
    (hext : a.frame.ext = true) (hpgn : (decodeId a.frame.id).pgn = kPgnTPCM)
    (h : openSession (decodeId a.frame.id) a.time a.frame = some sess) :
    sess.Tracks (decodeId a.frame.id).src a [] := by
  obtain ⟨_, _, _, rfl⟩ := openSession_eq_some h
  refine ⟨rfl, ⟨by simp [fromSource, hext], hpgn, by simp [h]⟩, by simp, rfl, rfl, by simp,
    by simp, ?_, ?_⟩
  · simp [List.count_replicate]
  · intro i _ hseen
    simp [List.getD_eq_getElem?_getD, List.getElem?_replicate] at hseen
    split at hseen <;> simp at hseen

/-- Setting an unset mark adds one to the number of marks. -/
theorem count_true_set {seen : List Bool} {j : Nat} (hj : j < seen.length)
    (hunset : seen.getD j false = false) :
    (seen.set j true).count true = seen.count true + 1 := by
  have hget : seen[j] = false := by simpa [List.getD_eq_getElem?_getD, hj] using hunset
  rw [List.count_set hj, hget]
  simp

/-- An accepted segment is tracked: it fills its seven bytes and sets its mark. -/
theorem BamSession.Tracks.addSegment {sess sess' : BamSession} {ann a : Arrival}
    {since : List Arrival} (h : sess.Tracks (decodeId a.frame.id).src ann since)
    (hext : a.frame.ext = true) (hpgn : (decodeId a.frame.id).pgn = kPgnTPDT)
    (hadd : sess.addSegment a.time a.frame = some sess') :
    sess'.Tracks (decodeId a.frame.id).src ann (since ++ [a]) := by
  have hann : ¬ IsAnnouncement (decodeId a.frame.id).src a := by
    rintro ⟨_, hcm, _⟩
    rw [hpgn] at hcm
    exact absurd hcm (by decide)
  have hold := h.snoc hann
  obtain ⟨hlen, hlow, hhigh, hunset, rfl⟩ := BamSession.addSegment_eq_some hadd
  set k := (a.frame.data.getD 0 0).toNat - 1 with hk
  have hseg : IsSegment (decodeId a.frame.id).src sess.numPackets a :=
    ⟨by simp [fromSource, hext], hpgn, hlen, hlow, hhigh⟩
  have hmark : k < sess.seen.length := by rw [h.length_seen]; omega
  refine ⟨h.src_eq, h.announced, hold.unreplaced, h.totalSize_eq, h.numPackets_eq, ?_, ?_, ?_, ?_⟩
  · simpa using h.length_buf
  · simpa using h.length_seen
  · simp only [count_true_set hmark hunset, h.received_eq]
  · intro i hi hseen
    dsimp only at hi hseen ⊢
    rw [getD_copySegment h.length_buf hi]
    by_cases hik : i / 7 = k
    · refine ⟨a, by simp, hseg, ?_, ?_⟩
      · simp only [segmentNumber]; omega
      · have hrange : k * kTPBytesPerPacket ≤ i ∧
            i < k * kTPBytesPerPacket + kTPBytesPerPacket := by
          simp only [kTPBytesPerPacket]; omega
        have hpos : 1 + (i - k * kTPBytesPerPacket) = 1 + i % 7 := by
          simp only [kTPBytesPerPacket]; omega
        rw [if_pos hrange, hpos]
    · have hrange : ¬ (k * kTPBytesPerPacket ≤ i ∧
          i < k * kTPBytesPerPacket + kTPBytesPerPacket) := by
        simp only [kTPBytesPerPacket]; omega
      rw [if_neg hrange]
      refine hold.filled i hi ?_
      simpa only [List.getD_eq_getElem?_getD, List.getElem?_set_ne (Ne.symm hik)] using hseen

/-- The loop's table is that of the table machine on the extended frames. -/
theorem sessionsAfter_eq_run (pgns : List PGN) (arrivals : List Arrival) :
    sessionsAfter pgns arrivals =
      (bamTable pgns).run noSessions (arrivals.filter (·.frame.ext)) := by
  have hfold (sessions : Sessions) : arrivals.foldl (fun t a => (handleFrame pgns t a).1) sessions =
      (bamTable pgns).run sessions (arrivals.filter (·.frame.ext)) := by
    induction arrivals generalizing sessions with
    | nil => rfl
    | cons a arrivals ih =>
      cases hext : a.frame.ext with
      | true =>
        rw [List.filter_cons_of_pos (by simpa using hext), TableMachine.run_cons, List.foldl_cons,
          handleFrame_of_ext pgns sessions hext, ih]
      | false =>
        rw [List.filter_cons_of_neg (by simp [hext]), List.foldl_cons,
          handleFrame_of_not_ext pgns sessions hext, ih]
  exact hfold noSessions

/-- Every session in the table has a history, whatever frames arrived. -/
theorem provenance_run (pgns : List PGN) (es : List Arrival) (hext : ∀ e ∈ es, e.frame.ext = true) :
    ∀ src, ∀ sess ∈ (bamTable pgns).run noSessions es src, Provenance es src sess := by
  intro src sess hs
  refine (bamTable pgns).run_invariant
    (P := fun es src sess => (∀ e ∈ es, e.frame.ext = true) → Provenance es src sess)
    ?_ ?_ es src sess hs hext
  · intro es e k sess hk hp hes
    obtain ⟨before, ann, since, rfl, ht⟩ := hp fun f hf => hes f (List.mem_append_left _ hf)
    refine ⟨before, ann, since ++ [e], by simp, ht.snoc ?_⟩
    rintro ⟨hsrc, _⟩
    exact hk (src_of_fromSource hsrc).symm
  · intro es e cell sess hcell hsess hes
    have hext : e.frame.ext = true := hes e (by simp)
    have hbefore : ∀ f ∈ es, f.frame.ext = true := fun f hf => hes f (List.mem_append_left _ hf)
    have hstep := sessionStep_actOnSession pgns e cell
    change sess ∈ (actOnSession pgns e cell).1 at hsess
    generalize actOnSession pgns e cell = out at hstep hsess
    cases hstep with
    | opens hpgn ho =>
      obtain rfl := Option.some.inj hsess
      exact ⟨es, e, [], rfl, tracks_openSession hext hpgn ho⟩
    | @adds old _ hpgn hadd _ =>
      obtain rfl := Option.some.inj hsess
      obtain ⟨before, ann, since, rfl, ht⟩ := hcell old rfl hbefore
      exact ⟨before, ann, since ++ [e], by simp, ht.addSegment hext hpgn hadd⟩
    | completes => cases hsess
    | ignores hno =>
      obtain ⟨before, ann, since, rfl, ht⟩ := hcell sess hsess hbefore
      refine ⟨before, ann, since ++ [e], by simp, ht.snoc ?_⟩
      rintro ⟨_, hcm, hopen⟩
      rw [hno hcm] at hopen
      cases hopen

/-- A message handed over at an extended arrival is that of a session which tracks
its announcement and has every mark set. -/
theorem delivered_tracks (pgns : List PGN) {es : List Arrival} {a : Arrival} {msg : Frame}
    (hes : ∀ e ∈ es, e.frame.ext = true) (hext : a.frame.ext = true)
    (h : ((bamTable pgns).step ((bamTable pgns).run noSessions es) a).2 = some msg) :
    ∃ before ann since sess, es = before ++ ann :: since ∧
      BamSession.Tracks sess (decodeId a.frame.id).src ann (since ++ [a]) ∧
      sess.received = sess.numPackets ∧ msg = sess.message := by
  have hprov : ∀ sess ∈ (bamTable pgns).sweepCell a.time
      ((bamTable pgns).run noSessions es (decodeId a.frame.id).src),
      Provenance es (decodeId a.frame.id).src sess :=
    fun sess hs => provenance_run pgns es hes _ sess (TableMachine.mem_of_mem_sweepCell _ hs)
  have hact : (actOnSession pgns a ((bamTable pgns).sweepCell a.time
      ((bamTable pgns).run noSessions es (decodeId a.frame.id).src))).2 = some msg := h
  generalize (bamTable pgns).sweepCell a.time
    ((bamTable pgns).run noSessions es (decodeId a.frame.id).src) = cell at hprov hact
  have hstep := sessionStep_actOnSession pgns a cell
  generalize actOnSession pgns a cell = out at hstep hact
  cases hstep with
  | @completes sess sess' hpgn hadd hdone =>
    obtain ⟨before, ann, since, rfl, ht⟩ := hprov sess rfl
    refine ⟨before, ann, since, sess', rfl, ht.addSegment hext hpgn hadd, hdone, ?_⟩
    dsimp only at hact
    split at hact
    · exact (Option.some.inj hact).symm
    · cases hact
  | opens => cases hact
  | adds => cases hact
  | ignores => cases hact

/-- With every mark set, the bytes of the message are genuine exactly when the
announced packets cover the announced size: the first uncovered byte belongs to no segment. -/
theorem BamSession.Tracks.genuine_iff {sess : BamSession} {src : UInt8} {ann : Arrival}
    {since : List Arrival} (h : sess.Tracks src ann since)
    (hdone : sess.received = sess.numPackets) :
    Genuine (announcedPackets ann.frame) since sess.message ↔
      announcedTotal ann.frame ≤ 7 * announcedPackets ann.frame := by
  have hall : ∀ b ∈ sess.seen, true = b := by
    rw [← List.count_eq_length, ← h.received_eq, hdone, h.length_seen]
  have hlen : sess.message.data.length = announcedTotal ann.frame :=
    h.length_buf.trans h.totalSize_eq
  constructor
  · intro hg
    by_contra hcover
    -- byte `7 * np` would need segment `np + 1`
    obtain ⟨dt, _, ⟨_, _, _, _, hhigh⟩, hseq, _⟩ :=
      hg (7 * announcedPackets ann.frame) (by omega)
    omega
  · intro hcover i hi
    rw [hlen, ← h.totalSize_eq] at hi
    have hmark : i / 7 < sess.seen.length := by
      rw [h.length_seen, h.numPackets_eq]
      rw [h.totalSize_eq] at hi
      omega
    have hseen : sess.seen.getD (i / 7) false = true := by
      rw [List.getD_eq_getElem?_getD, List.getElem?_eq_getElem hmark]
      exact (hall _ (List.getElem_mem hmark)).symm
    obtain ⟨dt, hdt, hseg, hseq, hbyte⟩ := h.filled i hi hseen
    rw [h.numPackets_eq, ← h.src_eq] at hseg
    exact ⟨dt, hdt, hseg, hseq, hbyte⟩

/-- Standard frames are no segments, so they may be left out of the window. -/
theorem genuine_filter_ext (np : Nat) (window : List Arrival) (msg : Frame) :
    Genuine np (window.filter (·.frame.ext)) msg ↔ Genuine np window msg := by
  constructor
  · intro hg i hi
    obtain ⟨dt, hdt, hrest⟩ := hg i hi
    exact ⟨dt, (List.mem_filter.mp hdt).1, hrest⟩
  · intro hg i hi
    obtain ⟨dt, hdt, hseg, hrest⟩ := hg i hi
    exact ⟨dt, List.mem_filter.mpr ⟨hdt, ext_of_fromSource hseg.1⟩, hseg, hrest⟩

/-- Whatever frames arrive, the bytes of a delivered message all come from
segments received for its session if and only if the announcement that opened the
session declared at most seven bytes per packet. -/
theorem delivered_genuine_iff (pgns : List PGN) (arrivals : List Arrival) (a : Arrival)
    (msg : Frame) (h : (handleFrame pgns (sessionsAfter pgns arrivals) a).2 = some msg) :
    ∃ before ann since, arrivals = before ++ ann :: since ∧ IsAnnouncement msg.src ann ∧
      (∀ f ∈ since, ¬ IsAnnouncement msg.src f) ∧
      (Genuine (announcedPackets ann.frame) (since ++ [a]) msg ↔
        announcedTotal ann.frame ≤ 7 * announcedPackets ann.frame) := by
  have hext : a.frame.ext = true := by
    by_contra hno
    rw [handleFrame_of_not_ext pgns _ (by simpa using hno)] at h
    cases h
  rw [handleFrame_of_ext pgns _ hext, sessionsAfter_eq_run] at h
  obtain ⟨before', ann, since', sess, hsplit, ht, hdone, rfl⟩ :=
    delivered_tracks pgns (fun e he => (List.mem_filter.mp he).2) hext h
  obtain ⟨before, rest, rfl, _, hrest⟩ := List.filter_eq_append_iff.mp hsplit
  obtain ⟨skipped, since, rfl, hskipped, _, hsince⟩ := List.filter_eq_cons_iff.mp hrest
  have hsrc : sess.message.src = (decodeId a.frame.id).src := ht.src_eq
  refine ⟨before ++ skipped, ann, since, by simp, ?_, ?_, ?_⟩
  · rw [hsrc]
    exact ht.announced
  · intro f hf hann
    rw [hsrc] at hann
    refine ht.unreplaced f ?_ hann
    refine List.mem_append_left _ (hsince ▸ List.mem_filter.mpr ⟨hf, ?_⟩)
    exact ext_of_fromSource hann.1
  · have hwindow : (since ++ [a]).filter (·.frame.ext) = since' ++ [a] := by
      rw [List.filter_append, hsince, List.filter_singleton, hext]
      rfl
    rw [← genuine_filter_ext, hwindow]
    exact ht.genuine_iff hdone

/-- An extended data frame received at `time`. -/
def Arrival.extended (id : UInt32) (data : List UInt8) (time : Nat) : Arrival :=
  { frame := { id := id, ext := true, data := data }, time := time }

/-- Two packets announced and received for nine bytes: the message is genuine. -/
theorem delivered_genuine_iff_covered :
    ∃ before ann since,
      [Arrival.extended 0x1CECFF42 [0x20, 9, 0, 2, 0xFF, 0xCA, 0xFE, 0] 0,
        Arrival.extended 0x1CEBFF42 [2, 18, 19, 0xFF, 0xFF, 0xFF, 0xFF, 0xFF] 1] =
        before ++ ann :: since ∧ IsAnnouncement 0x42 ann ∧
      (∀ f ∈ since, ¬ IsAnnouncement 0x42 f) ∧
      (Genuine (announcedPackets ann.frame)
        (since ++ [Arrival.extended 0x1CEBFF42 [1, 11, 12, 13, 14, 15, 16, 17] 2])
        ⟨7, 0xFECA, 0x42, 0xFF, [11, 12, 13, 14, 15, 16, 17, 18, 19]⟩ ↔
        announcedTotal ann.frame ≤ 7 * announcedPackets ann.frame) :=
  delivered_genuine_iff [] _ _ ⟨7, 0xFECA, 0x42, 0xFF, [11, 12, 13, 14, 15, 16, 17, 18, 19]⟩
    (by decide)

/-- One packet announced for twenty bytes: the message is delivered after one
segment, and its eighth byte is that of no received segment. -/
theorem delivered_not_genuine :
    ∃ msg, (handleFrame [] (sessionsAfter []
        [Arrival.extended 0x1CECFF42 [0x20, 20, 0, 1, 0xFF, 0xCA, 0xFE, 0] 0])
        (Arrival.extended 0x1CEBFF42 [1, 11, 12, 13, 14, 15, 16, 17] 1)).2 = some msg ∧
      ∀ np, ¬ Genuine np [Arrival.extended 0x1CEBFF42 [1, 11, 12, 13, 14, 15, 16, 17] 1] msg := by
  refine ⟨⟨7, 0xFECA, 0x42, 0xFF, [11, 12, 13, 14, 15, 16, 17] ++ List.replicate 13 0⟩,
    by decide, ?_⟩
  intro np hg
  obtain ⟨dt, hdt, _, hseq, _⟩ := hg 7 (by decide)
  obtain rfl := List.mem_singleton.mp hdt
  exact absurd hseq (by decide)

end CppCan.J1939
