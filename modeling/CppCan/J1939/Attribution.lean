import CppCan.J1939.Provenance

/-!
# Which segments a message is made of

A session is found by its source address only. The segments that contribute to a
message are therefore, among all `TP.DT` frames of the source since the announcement,
the first ones with each announced number, whatever their destination and whatever
other `TP.CM` frames of the source came in between.
-/

namespace CppCan.J1939

open CppCan.Core

/-- The destination byte of an identifier. -/
def destination (id : UInt32) : UInt8 := ((id >>> 8) &&& 0xFF).toUInt8

/-- The arrival is a `TP.CM` frame of `src`. -/
def IsConnectionManagement (src : UInt8) (f : Arrival) : Prop :=
  fromSource src f = true ∧ (decodeId f.frame.id).pgn = kPgnTPCM

/-- Bytes of the `TP.DT` frame `dt` are stored in the session of `src` after `history`. -/
def Contributes (pgns : List PGN) (src : UInt8) (history : List Arrival) (dt : Arrival) : Prop :=
  fromSource src dt = true ∧ (decodeId dt.frame.id).pgn = kPgnTPDT ∧
    ∃ sess, sweepExpired dt.time (sessionsAfter pgns history) src = some sess ∧
      (sess.addSegment dt.time dt.frame).isSome ∧
      (segmentNumber dt - 1) * kTPBytesPerPacket < sess.totalSize

/-- The frame belongs to the transfer announced before `pre`: it is addressed to all and
no other `TP.CM` frame of its source came in between. -/
def Belongs (src : UInt8) (pre : List Arrival) (dt : Arrival) : Prop :=
  destination dt.frame.id = kBroadcastAddr ∧ ∀ f ∈ pre, ¬ IsConnectionManagement src f

/-- Every frame of `window` that contributes bytes belongs to the transfer `ann` announced. -/
def Attributed (pgns : List PGN) (src : UInt8) (before : List Arrival) (ann : Arrival)
    (window : List Arrival) : Prop :=
  ∀ pre dt post, window = pre ++ dt :: post →
    Contributes pgns src (before ++ ann :: pre) dt → Belongs src pre dt

/-- The frame is the first segment with its number and lies within the announced size. -/
def FirstSegment (src : UInt8) (ann : Arrival) (pre : List Arrival) (dt : Arrival) : Prop :=
  IsSegment src (announcedPackets ann.frame) dt ∧
    (∀ f ∈ pre, IsSegment src (announcedPackets ann.frame) f →
      segmentNumber f ≠ segmentNumber dt) ∧
    (segmentNumber dt - 1) * kTPBytesPerPacket < announcedTotal ann.frame

variable {pgns : List PGN} {src : UInt8} {arrivals since pre post : List Arrival}
  {a ann f : Arrival} {sess sess' : BamSession} {cell : Option BamSession}

/-- A session that the sweep leaves. -/
def live (now : TimePoint) (cell : Option BamSession) : Option BamSession :=
  cell.filter fun sess => !sess.expired now

/-- The session of `src` after an arrival. -/
def cellAfter (pgns : List PGN) (src : UInt8) (cell : Option BamSession) (a : Arrival) :
    Option BamSession :=
  if fromSource src a then (actOnSession pgns a (live a.time cell)).1
  else if a.frame.ext then live a.time cell
  else cell

/-- The loop treats the session of a source by itself. -/
theorem handleFrame_fst (pgns : List PGN) (sessions : Sessions) (src : UInt8) (a : Arrival) :
    (handleFrame pgns sessions a).1 src = cellAfter pgns src (sessions src) a := by
  unfold cellAfter
  cases hext : a.frame.ext with
  | false =>
    rw [handleFrame_of_not_ext pgns sessions hext]
    simp [fromSource, hext]
  | true =>
    rw [handleFrame_of_ext pgns sessions hext]
    by_cases hsrc : (decodeId a.frame.id).src = src
    · subst hsrc
      rw [if_pos (by simp [fromSource, hext])]
      exact (bamTable pgns).step_fst_self sessions a
    · rw [if_neg (by simp [fromSource, hsrc]), if_pos rfl]
      exact (bamTable pgns).step_fst_of_ne sessions (Ne.symm hsrc)

/-- The session of a source after a stream of arrivals. -/
theorem sessionsAfter_eq_foldl (pgns : List PGN) (src : UInt8) (arrivals : List Arrival) :
    sessionsAfter pgns arrivals src = arrivals.foldl (cellAfter pgns src) none := by
  induction arrivals using List.reverseRecOn with
  | nil => rfl
  | append_singleton arrivals a ih =>
    rw [sessionsAfter, List.foldl_append, List.foldl_append, List.foldl_cons, List.foldl_nil,
      List.foldl_cons, List.foldl_nil, handleFrame_fst, ← ih]
    rfl

/-- A `TP.DT` frame acts on a session by its segment. -/
theorem actOnSession_of_dt (hdt : (decodeId a.frame.id).pgn = kPgnTPDT) :
    actOnSession pgns a (some sess) =
      match sess.addSegment a.time a.frame with
      | none => (some sess, none)
      | some sess' =>
        if sess'.received = sess'.numPackets then
          (none, if matchesPgns sess'.pgn pgns then some sess'.message else none)
        else (some sess', none) := by
  have hcm : ¬ kPgnTPDT = kPgnTPCM := by decide
  rw [actOnSession, hdt, if_neg hcm]
  exact if_pos rfl

/-- A frame of the source that is neither an announcement nor `TP.DT` does nothing. -/
theorem actOnSession_of_other (hsrc : fromSource src a = true) (hann : ¬ IsAnnouncement src a)
    (hdt : (decodeId a.frame.id).pgn ≠ kPgnTPDT) : actOnSession pgns a cell = (cell, none) := by
  unfold actOnSession
  dsimp only
  split
  · rename_i hcm
    split
    · rfl
    · rename_i hopen
      exact absurd ⟨hsrc, hcm, by rw [hopen]; rfl⟩ hann
  · rfl

/-- Without a session only an announcement makes one. -/
theorem actOnSession_none (hsrc : fromSource src a = true) (hann : ¬ IsAnnouncement src a) :
    actOnSession pgns a none = (none, none) := by
  by_cases hdt : (decodeId a.frame.id).pgn = kPgnTPDT
  · have hcm : ¬ kPgnTPDT = kPgnTPCM := by decide
    rw [actOnSession, hdt, if_neg hcm, if_pos rfl]
  · exact actOnSession_of_other hsrc hann hdt

/-- A session that is gone stays gone without an announcement. -/
theorem cellAfter_of_live_eq_none (hann : ¬ IsAnnouncement src a) (hsrc : fromSource src a = true)
    (hlive : live a.time cell = none) : cellAfter pgns src cell a = none := by
  rw [cellAfter, if_pos hsrc, hlive, actOnSession_none hsrc hann]

theorem cellAfter_none (hann : ¬ IsAnnouncement src a) : cellAfter pgns src none a = none := by
  by_cases hsrc : fromSource src a = true
  · exact cellAfter_of_live_eq_none hann hsrc rfl
  · rw [cellAfter, if_neg hsrc]
    split <;> rfl

theorem foldl_cellAfter_none (hann : ∀ f ∈ since, ¬ IsAnnouncement src f) :
    since.foldl (cellAfter pgns src) none = none := by
  induction since with
  | nil => rfl
  | cons f since ih =>
    obtain ⟨hf, hsince⟩ := List.forall_mem_cons.mp hann
    rw [List.foldl_cons, cellAfter_none hf, ih hsince]

/-- The session after the last announcement and what followed it. -/
theorem cellAfter_announcement (pgns : List PGN) (hann : IsAnnouncement src ann)
    (cell : Option BamSession) :
    ∃ sess, openSession (decodeId ann.frame.id) ann.time ann.frame = some sess ∧
      cellAfter pgns src cell ann = some sess := by
  obtain ⟨hsrc, hcm, hopen⟩ := hann
  obtain ⟨sess, hsess⟩ := Option.isSome_iff_exists.mp hopen
  refine ⟨sess, hsess, ?_⟩
  simp only [cellAfter, hsrc, if_true, actOnSession, hcm, hsess]

/-- A list with a member that has a property has a last one. -/
theorem exists_last {α : Type} {p : α → Prop} {l : List α} (h : ∃ x ∈ l, p x) :
    ∃ before x since, l = before ++ x :: since ∧ p x ∧ ∀ y ∈ since, ¬ p y := by
  induction l with
  | nil => simp at h
  | cons y l ih =>
    by_cases hl : ∃ x ∈ l, p x
    · obtain ⟨before, x, since, rfl, hx⟩ := ih hl
      exact ⟨y :: before, x, since, rfl, hx⟩
    · obtain ⟨x, hx, hpx⟩ := h
      have hnone : ∀ z ∈ l, ¬ p z := fun z hz hpz => hl ⟨z, hz, hpz⟩
      rcases List.mem_cons.mp hx with rfl | hx
      · exact ⟨[], x, l, rfl, hpx, hnone⟩
      · exact absurd hpx (hnone x hx)

/-- A session goes back to the last announcement of its source. -/
theorem exists_last_announcement (h : arrivals.foldl (cellAfter pgns src) none = some sess) :
    ∃ before ann since, arrivals = before ++ ann :: since ∧ IsAnnouncement src ann ∧
      ∀ f ∈ since, ¬ IsAnnouncement src f := by
  apply exists_last
  by_contra hno
  rw [foldl_cellAfter_none fun f hf hann => hno ⟨f, hf, hann⟩] at h
  cases h

/-- The session of `src` was announced by `ann`, and its marks are the numbers of the
segments in `pre`. -/
structure BamSession.Marks (sess : BamSession) (src : UInt8) (ann : Arrival)
    (pre : List Arrival) : Prop where
  src_eq : sess.src = src
  totalSize_eq : sess.totalSize = announcedTotal ann.frame
  numPackets_eq : sess.numPackets = announcedPackets ann.frame
  length_seen : sess.seen.length = sess.numPackets
  seen_iff : ∀ j < sess.numPackets, sess.seen.getD j false = true ↔
    ∃ f ∈ pre, IsSegment src sess.numPackets f ∧ segmentNumber f = j + 1

/-- A new session has no marks. -/
theorem marks_openSession (hann : IsAnnouncement src ann)
    (h : openSession (decodeId ann.frame.id) ann.time ann.frame = some sess) :
    sess.Marks src ann [] := by
  obtain ⟨-, -, -, rfl⟩ := openSession_eq_some h
  refine ⟨src_of_fromSource hann.1, rfl, rfl, by simp, ?_⟩
  intro j hj
  simp [List.getD_eq_getElem?_getD, hj]

/-- A frame that is no new segment leaves the marks as they are. -/
theorem BamSession.Marks.skip (h : sess.Marks src ann pre)
    (hf : IsSegment src sess.numPackets f → ∃ g ∈ pre, IsSegment src sess.numPackets g ∧
      segmentNumber g = segmentNumber f) : sess.Marks src ann (pre ++ [f]) := by
  refine ⟨h.src_eq, h.totalSize_eq, h.numPackets_eq, h.length_seen, fun j hj => ?_⟩
  rw [h.seen_iff j hj]
  constructor
  · rintro ⟨g, hg, hrest⟩
    exact ⟨g, List.mem_append_left _ hg, hrest⟩
  · rintro ⟨g, hg, hseg, hnumber⟩
    rcases List.mem_append.mp hg with hg | hg
    · exact ⟨g, hg, hseg, hnumber⟩
    · obtain rfl := List.mem_singleton.mp hg
      obtain ⟨k, hk, hksegment, hknumber⟩ := hf hseg
      exact ⟨k, hk, hksegment, hknumber.trans hnumber⟩

theorem BamSession.addSegment_isSome {now : TimePoint} {cf : CppCan.Frame} :
    (sess.addSegment now cf).isSome ↔ 8 ≤ cf.data.length ∧ 1 ≤ (cf.data.getD 0 0).toNat ∧
      (cf.data.getD 0 0).toNat ≤ sess.numPackets ∧
      sess.seen.getD ((cf.data.getD 0 0).toNat - 1) false = false := by
  constructor
  · intro h
    obtain ⟨sess', hadd⟩ := Option.isSome_iff_exists.mp h
    obtain ⟨hlen, hlow, hhigh, hunset, -⟩ := BamSession.addSegment_eq_some hadd
    exact ⟨hlen, hlow, hhigh, hunset⟩
  · rintro ⟨hlen, hlow, hhigh, hunset⟩
    have hrange : ((cf.data.getD 0 0).toNat < 1 || (cf.data.getD 0 0).toNat > sess.numPackets) =
        false := by
      simp only [Bool.or_eq_false_iff, decide_eq_false_iff_not]
      omega
    simp only [addSegment, Nat.not_lt.mpr hlen, hrange, hunset]
    rfl

/-- A segment is taken exactly if it is the first with its number. -/
theorem BamSession.Marks.addSegment_isSome_iff (h : sess.Marks src ann pre)
    (hsrc : fromSource src f = true) (hdt : (decodeId f.frame.id).pgn = kPgnTPDT) :
    (sess.addSegment f.time f.frame).isSome ↔ IsSegment src sess.numPackets f ∧
      ∀ g ∈ pre, IsSegment src sess.numPackets g → segmentNumber g ≠ segmentNumber f := by
  rw [BamSession.addSegment_isSome]
  constructor
  · rintro ⟨hlen, hlow, hhigh, hunset⟩
    refine ⟨⟨hsrc, hdt, hlen, hlow, hhigh⟩, fun g hg hseg hnumber => ?_⟩
    have hset := (h.seen_iff ((f.frame.data.getD 0 0).toNat - 1) (by omega)).mpr
      ⟨g, hg, hseg, by rw [hnumber, segmentNumber]; omega⟩
    rw [hunset] at hset
    cases hset
  · rintro ⟨⟨-, -, hlen, hlow, hhigh⟩, hfirst⟩
    simp only [segmentNumber] at hlow hhigh hfirst
    refine ⟨hlen, hlow, hhigh, ?_⟩
    rw [← Bool.not_eq_true, h.seen_iff _ (by omega)]
    rintro ⟨g, hg, hseg, hnumber⟩
    apply hfirst g hg hseg
    simp only [segmentNumber] at hnumber
    omega

/-- A segment that is taken sets its mark. -/
theorem BamSession.Marks.addSegment (h : sess.Marks src ann pre)
    (hsrc : fromSource src f = true) (hdt : (decodeId f.frame.id).pgn = kPgnTPDT)
    (hadd : sess.addSegment f.time f.frame = some sess') : sess'.Marks src ann (pre ++ [f]) := by
  obtain ⟨hlen, hlow, hhigh, -, rfl⟩ := BamSession.addSegment_eq_some hadd
  have hseg : IsSegment src sess.numPackets f := ⟨hsrc, hdt, hlen, hlow, hhigh⟩
  have hmark : (f.frame.data.getD 0 0).toNat - 1 < sess.seen.length := by
    rw [h.length_seen]
    omega
  refine ⟨h.src_eq, h.totalSize_eq, h.numPackets_eq, by simpa using h.length_seen, fun j hj => ?_⟩
  dsimp only at hj ⊢
  simp only [List.mem_append, List.mem_singleton]
  by_cases hjf : (f.frame.data.getD 0 0).toNat - 1 = j
  · subst hjf
    have hset : (sess.seen.set ((f.frame.data.getD 0 0).toNat - 1) true).getD
        ((f.frame.data.getD 0 0).toNat - 1) false = true := by
      rw [List.getD_eq_getElem?_getD, List.getElem?_set_self hmark, Option.getD_some]
    exact ⟨fun _ => ⟨f, .inr rfl, hseg, by rw [segmentNumber]; omega⟩, fun _ => hset⟩
  · rw [List.getD_eq_getElem?_getD, List.getElem?_set_ne hjf, ← List.getD_eq_getElem?_getD,
      h.seen_iff j hj]
    constructor
    · rintro ⟨g, hg, hrest⟩
      exact ⟨g, .inl hg, hrest⟩
    · rintro ⟨g, hg | rfl, hsegment, hnumber⟩
      · exact ⟨g, hg, hsegment, hnumber⟩
      · simp only [segmentNumber] at hnumber
        omega

/-- A session that the sweep leaves is the session that was there. -/
theorem eq_of_live {now : TimePoint} (h : live now (some sess) = some sess') : sess' = sess :=
  (Option.some.inj (Option.mem_filter_iff.mp h).1).symm

/-- An arrival that leaves the session in place adds a segment to it or leaves it as it is. -/
theorem cellAfter_eq_some (hann : ¬ IsAnnouncement src f)
    (h : cellAfter pgns src (some sess) f = some sess') :
    (fromSource src f = true ∧ (decodeId f.frame.id).pgn = kPgnTPDT ∧
      live f.time (some sess) = some sess ∧ sess.addSegment f.time f.frame = some sess') ∨
    (sess' = sess ∧ (fromSource src f = true → (decodeId f.frame.id).pgn = kPgnTPDT →
      sess.addSegment f.time f.frame = none)) := by
  unfold cellAfter at h
  split at h
  · rename_i hsrc
    cases hlive : live f.time (some sess) with
    | none =>
      rw [hlive, actOnSession_none hsrc hann] at h
      cases h
    | some sess'' =>
      obtain rfl := eq_of_live hlive
      rw [hlive] at h
      by_cases hdt : (decodeId f.frame.id).pgn = kPgnTPDT
      · rw [actOnSession_of_dt hdt] at h
        cases hadd : sess''.addSegment f.time f.frame with
        | none =>
          rw [hadd] at h
          exact Or.inr ⟨(Option.some.inj h).symm, fun _ _ => rfl⟩
        | some added =>
          rw [hadd] at h
          dsimp only at h
          split at h
          · cases h
          · exact Or.inl ⟨hsrc, hdt, rfl, h⟩
      · rw [actOnSession_of_other hsrc hann hdt] at h
        exact Or.inr ⟨(Option.some.inj h).symm, fun _ h => absurd h hdt⟩
  · rename_i hsrc
    refine Or.inr ⟨?_, fun h => absurd h hsrc⟩
    split at h
    · exact eq_of_live h
    · exact (Option.some.inj h).symm

/-- Every arrival that leaves the session in place keeps track of the marks. -/
theorem BamSession.Marks.cellAfter (h : sess.Marks src ann pre) (hann : ¬ IsAnnouncement src f)
    (hcell : cellAfter pgns src (some sess) f = some sess') :
    sess'.Marks src ann (pre ++ [f]) := by
  rcases cellAfter_eq_some hann hcell with ⟨hsrc, hdt, -, hadd⟩ | ⟨rfl, hnone⟩
  · exact h.addSegment hsrc hdt hadd
  · apply h.skip
    intro hseg
    by_contra hnew
    have hsome := (h.addSegment_isSome_iff hseg.1 hseg.2.1).mpr
      ⟨hseg, fun g hg hgseg hnumber => hnew ⟨g, hg, hgseg, hnumber⟩⟩
    rw [hnone hseg.1 hseg.2.1] at hsome
    cases hsome

/-- Without an announcement a session is there before an arrival if it is there
afterwards. -/
theorem exists_of_cellAfter (hann : ¬ IsAnnouncement src f)
    (h : cellAfter pgns src cell f = some sess') : ∃ sess, cell = some sess := by
  cases cell with
  | none =>
    rw [cellAfter_none hann] at h
    cases h
  | some sess => exact ⟨sess, rfl⟩

theorem exists_of_foldl (hann : ∀ f ∈ since, ¬ IsAnnouncement src f)
    (h : since.foldl (cellAfter pgns src) cell = some sess') : ∃ sess, cell = some sess := by
  cases cell with
  | none =>
    rw [foldl_cellAfter_none hann] at h
    cases h
  | some sess => exact ⟨sess, rfl⟩

/-- What holds of a session when it is announced, and is kept by each arrival that leaves the
session in place, holds of the session as long as it is there. -/
theorem session_induction {P : BamSession → List Arrival → Prop} (hann : IsAnnouncement src ann)
    (hsince : ∀ f ∈ since, ¬ IsAnnouncement src f)
    (hopen : ∀ sess, openSession (decodeId ann.frame.id) ann.time ann.frame = some sess →
      P sess [])
    (hstep : ∀ sess sess' pre f, P sess pre → ¬ IsAnnouncement src f →
      cellAfter pgns src (some sess) f = some sess' → P sess' (pre ++ [f]))
    (h : since.foldl (cellAfter pgns src) (cellAfter pgns src cell ann) = some sess) :
    P sess since := by
  induction since using List.reverseRecOn generalizing sess with
  | nil =>
    obtain ⟨opened, hopened, hcell⟩ := cellAfter_announcement pgns hann cell
    obtain rfl := Option.some.inj (hcell.symm.trans h)
    exact hopen _ hopened
  | append_singleton since f ih =>
    rw [List.foldl_append, List.foldl_cons, List.foldl_nil] at h
    have hf : ¬ IsAnnouncement src f := hsince f (by simp)
    obtain ⟨old, hold⟩ := exists_of_cellAfter hf h
    rw [hold] at h
    exact hstep old _ since f (ih (fun g hg => hsince g (List.mem_append_left _ hg)) hold) hf h

/-- What has become of a session since its announcement. -/
theorem marks_foldl (hann : IsAnnouncement src ann) (hsince : ∀ f ∈ since, ¬ IsAnnouncement src f)
    (h : since.foldl (cellAfter pgns src) (cellAfter pgns src cell ann) = some sess) :
    sess.Marks src ann since :=
  session_induction hann hsince (fun _ => marks_openSession hann)
    (fun _ _ _ _ hmarks hf hcell => hmarks.cellAfter hf hcell) h

/-- While the session is there, exactly the first segments within its size contribute. -/
theorem contributes_iff {before : List Arrival} {dt : Arrival} (hann : IsAnnouncement src ann)
    (hpre : ∀ f ∈ pre, ¬ IsAnnouncement src f)
    (hlive : fromSource src dt = true →
      ∃ sess, live dt.time (sessionsAfter pgns (before ++ ann :: pre) src) = some sess) :
    Contributes pgns src (before ++ ann :: pre) dt ↔ FirstSegment src ann pre dt := by
  have hmarks : ∀ sess, live dt.time (sessionsAfter pgns (before ++ ann :: pre) src) = some sess →
      sess.Marks src ann pre := by
    intro sess hsess
    have hcell := (Option.mem_filter_iff.mp hsess).1
    rw [sessionsAfter_eq_foldl, List.foldl_append, List.foldl_cons] at hcell
    exact marks_foldl hann hpre hcell
  constructor
  · rintro ⟨hsrc, hdt, sess, hsess, hadd, hsize⟩
    have hm := hmarks sess hsess
    obtain ⟨hseg, hfirst⟩ := (hm.addSegment_isSome_iff hsrc hdt).mp hadd
    rw [hm.numPackets_eq] at hseg hfirst
    exact ⟨hseg, hfirst, hm.totalSize_eq ▸ hsize⟩
  · rintro ⟨hseg, hfirst, hsize⟩
    obtain ⟨sess, hsess⟩ := hlive hseg.1
    have hm := hmarks sess hsess
    refine ⟨hseg.1, hseg.2.1, sess, hsess, ?_, hm.totalSize_eq ▸ hsize⟩
    rw [hm.addSegment_isSome_iff hseg.1 hseg.2.1, hm.numPackets_eq]
    exact ⟨hseg, hfirst⟩

/-- A message is delivered when a segment completes the session of its source. -/
theorem completes_of_delivered {msg : Frame}
    (h : (handleFrame pgns (sessionsAfter pgns arrivals) a).2 = some msg) :
    fromSource msg.src a = true ∧ (decodeId a.frame.id).pgn = kPgnTPDT ∧
      ∃ sess sess', live a.time (sessionsAfter pgns arrivals msg.src) = some sess ∧
        sess.addSegment a.time a.frame = some sess' := by
  have hext : a.frame.ext = true := by
    by_contra hno
    rw [handleFrame_of_not_ext pgns _ (by simpa using hno)] at h
    cases h
  rw [handleFrame_of_ext pgns _ hext] at h
  have hact : (actOnSession pgns a (live a.time
      (sessionsAfter pgns arrivals (decodeId a.frame.id).src))).2 = some msg := h
  generalize hcell : live a.time (sessionsAfter pgns arrivals (decodeId a.frame.id).src) = cell
    at hact
  have hstep := sessionStep_actOnSession pgns a cell
  generalize actOnSession pgns a cell = out at hstep hact
  cases hstep with
  | @completes sess sess' hdt hadd hdone =>
    have hsession := (Option.mem_filter_iff.mp hcell).1
    rw [sessionsAfter_eq_foldl] at hsession
    obtain ⟨before, ann, since, rfl, hann, hsince⟩ := exists_last_announcement hsession
    rw [List.foldl_append, List.foldl_cons] at hsession
    have hmarks := marks_foldl hann hsince hsession
    have hsrc : msg.src = (decodeId a.frame.id).src := by
      obtain ⟨-, -, -, -, rfl⟩ := BamSession.addSegment_eq_some hadd
      dsimp only at hact
      split at hact
      · obtain rfl := Option.some.inj hact
        exact hmarks.src_eq
      · cases hact
    rw [hsrc]
    exact ⟨by simp [fromSource, hext], hdt, sess, sess', hcell, hadd⟩
  | opens => cases hact
  | adds => cases hact
  | ignores => cases hact

/-- A session that outlives an arrival of its source was there when it arrived. -/
theorem exists_live_of_cellAfter (hann : ¬ IsAnnouncement src f) (hsrc : fromSource src f = true)
    (h : cellAfter pgns src cell f = some sess) : ∃ sess', live f.time cell = some sess' := by
  cases hlive : live f.time cell with
  | none =>
    rw [cellAfter_of_live_eq_none hann hsrc hlive] at h
    cases h
  | some sess' => exact ⟨sess', rfl⟩

/-- Whatever frames arrive, all frames that contribute to a delivered message belong to
the transfer of its announcement if and only if this is so for the first segment with
each number within the announced size. -/
theorem delivered_attributed_iff (pgns : List PGN) (arrivals : List Arrival) (a : Arrival)
    (msg : Frame) (h : (handleFrame pgns (sessionsAfter pgns arrivals) a).2 = some msg) :
    ∃ before ann since, arrivals = before ++ ann :: since ∧ IsAnnouncement msg.src ann ∧
      (∀ f ∈ since, ¬ IsAnnouncement msg.src f) ∧
      (Attributed pgns msg.src before ann (since ++ [a]) ↔
        ∀ pre dt post, since ++ [a] = pre ++ dt :: post → FirstSegment msg.src ann pre dt →
          Belongs msg.src pre dt) := by
  obtain ⟨-, -, sess, -, hsess, -⟩ := completes_of_delivered h
  have hsession := (Option.mem_filter_iff.mp hsess).1
  rw [sessionsAfter_eq_foldl] at hsession
  obtain ⟨before, ann, since, rfl, hann, hsince⟩ := exists_last_announcement hsession
  refine ⟨before, ann, since, rfl, hann, hsince, ?_⟩
  apply forall_congr'
  intro pre
  apply forall_congr'
  intro dt
  apply forall_congr'
  intro post
  apply imp_congr_right
  intro hsplit
  have hcontributes : Contributes pgns msg.src (before ++ ann :: pre) dt ↔
      FirstSegment msg.src ann pre dt := by
    rcases List.eq_nil_or_concat post with rfl | ⟨post, last, rfl⟩
    · -- The frame is the one that completes the session.
      obtain ⟨rfl, hlast⟩ := List.append_inj' hsplit rfl
      obtain rfl := List.singleton_inj.mp hlast
      exact contributes_iff hann hsince fun _ => ⟨sess, hsess⟩
    · have hmiddle : since = pre ++ dt :: post := by
        have hlast : since ++ [a] = (pre ++ dt :: post) ++ [last] := by simpa using hsplit
        exact (List.append_inj' hlast rfl).1
      subst hmiddle
      have hpre : ∀ f ∈ pre, ¬ IsAnnouncement msg.src f := fun f hf =>
        hsince f (List.mem_append_left _ hf)
      refine contributes_iff hann hpre fun hsrc => ?_
      -- The session is there after the frame, so it was there before.
      rw [List.foldl_append, List.foldl_cons, List.foldl_append, List.foldl_cons] at hsession
      have hdt : ¬ IsAnnouncement msg.src dt := hsince dt (by simp)
      obtain ⟨after, hafter⟩ := exists_of_foldl (fun f hf => hsince f (by simp [hf])) hsession
      rw [sessionsAfter_eq_foldl, List.foldl_append, List.foldl_cons]
      exact exists_live_of_cellAfter hdt hsrc hafter
  rw [hcontributes]

/-- Nine bytes in two packets, of which the second is the first to arrive. -/
theorem delivered_attributed_iff_global :
    ∃ before ann since,
      [Arrival.extended 0x1CECFF42 [0x20, 9, 0, 2, 0xFF, 0xCA, 0xFE, 0] 0,
        Arrival.extended 0x1CEBFF42 [2, 18, 19, 0xFF, 0xFF, 0xFF, 0xFF, 0xFF] 1] =
        before ++ ann :: since ∧ IsAnnouncement 0x42 ann ∧
      (∀ f ∈ since, ¬ IsAnnouncement 0x42 f) ∧
      (Attributed [] 0x42 before ann
          (since ++ [Arrival.extended 0x1CEBFF42 [1, 11, 12, 13, 14, 15, 16, 17] 2]) ↔
        ∀ pre dt post,
          since ++ [Arrival.extended 0x1CEBFF42 [1, 11, 12, 13, 14, 15, 16, 17] 2] =
            pre ++ dt :: post →
          FirstSegment 0x42 ann pre dt → Belongs 0x42 pre dt) :=
  delivered_attributed_iff [] _ _ ⟨7, 0xFECA, 0x42, 0xFF, [11, 12, 13, 14, 15, 16, 17, 18, 19]⟩
    (by decide)

/-- After an announcement to all, the source asks address 0x17 for a connection and sends
it a first segment. The segment becomes part of the message to all. -/
theorem delivered_not_attributed :
    ∃ arrivals a msg, (handleFrame [] (sessionsAfter [] arrivals) a).2 = some msg ∧
      ∀ before ann since, arrivals = before ++ ann :: since → IsAnnouncement msg.src ann →
        ¬ Attributed [] msg.src before ann (since ++ [a]) := by
  refine ⟨[Arrival.extended 0x1CECFF42 [0x20, 9, 0, 2, 0xFF, 0xCA, 0xFE, 0] 0,
      Arrival.extended 0x1CEC1742 [0x10, 9, 0, 2, 0xFF, 0xCA, 0xFE, 0] 1,
      Arrival.extended 0x1CEB1742 [1, 11, 12, 13, 14, 15, 16, 17] 2],
    Arrival.extended 0x1CEBFF42 [2, 18, 19, 0xFF, 0xFF, 0xFF, 0xFF, 0xFF] 3,
    ⟨7, 0xFECA, 0x42, 0xFF, [11, 12, 13, 14, 15, 16, 17, 18, 19]⟩, by decide, ?_⟩
  intro before ann since hsplit hann hattributed
  match before, hsplit with
  | [], hsplit =>
    obtain ⟨rfl, rfl⟩ := List.cons.inj hsplit
    have hbelongs := hattributed [_] _ [_] rfl ⟨by decide, by decide, _, rfl, by decide, by decide⟩
    exact absurd hbelongs.1 (by decide)
  | [_], hsplit =>
    obtain ⟨-, hsplit⟩ := List.cons.inj hsplit
    obtain ⟨rfl, -⟩ := List.cons.inj hsplit
    exact absurd hann.2.2 (by decide)
  | [_, _], hsplit =>
    obtain ⟨-, hsplit⟩ := List.cons.inj hsplit
    obtain ⟨-, hsplit⟩ := List.cons.inj hsplit
    obtain ⟨rfl, -⟩ := List.cons.inj hsplit
    exact absurd hann.2.1 (by decide)
  | _ :: _ :: _ :: before, hsplit => simp at hsplit

end CppCan.J1939
