import CppCan.J1939.Attribution

/-!
# The time between segments

A session is swept before a frame is handled, and its clock is set by its announcement and by
each segment that it takes. The time between two segments of a delivered message is therefore
bounded, and no other frame keeps a session alive.
-/

namespace CppCan.J1939

open CppCan.Core

variable {pgns : List PGN} {src : UInt8} {np : Nat} {arrivals since pre window : List Arrival}
  {a ann f : Arrival} {sess sess' : BamSession} {cell : Option BamSession}

instance : Decidable (IsSegment src np a) := inferInstanceAs (Decidable (_ ∧ _ ∧ _ ∧ _ ∧ _))

/-- The segments of a session, each number when it arrives first. -/
def freshSegments (src : UInt8) (np : Nat) (window : List Arrival) : List Arrival :=
  window.foldl (fun fresh f =>
    if IsSegment src np f ∧ ∀ g ∈ fresh, segmentNumber g ≠ segmentNumber f then fresh ++ [f]
    else fresh) []

/-- A segment with a number that has not arrived yet. -/
def IsFresh (src : UInt8) (np : Nat) (pre : List Arrival) (f : Arrival) : Prop :=
  IsSegment src np f ∧ ∀ g ∈ pre, IsSegment src np g → segmentNumber g ≠ segmentNumber f

/-- Each arrival comes at most the timeout after the one before it. -/
def InTime (arrivals : List Arrival) : Prop :=
  arrivals.IsChain fun f g => g.time - f.time ≤ kBamSessionTimeout

theorem freshSegments_concat (src : UInt8) (np : Nat) (window : List Arrival) (f : Arrival) :
    freshSegments src np (window ++ [f]) =
      if IsSegment src np f ∧ ∀ g ∈ freshSegments src np window,
          segmentNumber g ≠ segmentNumber f then freshSegments src np window ++ [f]
      else freshSegments src np window := by
  rw [freshSegments, List.foldl_append]
  rfl

/-- The numbers of the fresh segments are those of all segments. -/
theorem exists_freshSegment_iff {n : Nat} :
    (∃ g ∈ freshSegments src np window, segmentNumber g = n) ↔
      ∃ g ∈ window, IsSegment src np g ∧ segmentNumber g = n := by
  induction window using List.reverseRecOn with
  | nil => simp [freshSegments]
  | append_singleton window f ih =>
    rw [freshSegments_concat]
    constructor
    · rintro ⟨g, hg, hnumber⟩
      split at hg
      · rename_i hfresh
        rcases List.mem_append.mp hg with hg | hg
        · obtain ⟨g', hg', hrest⟩ := ih.mp ⟨g, hg, hnumber⟩
          exact ⟨g', List.mem_append_left _ hg', hrest⟩
        · obtain rfl := List.mem_singleton.mp hg
          exact ⟨g, by simp, hfresh.1, hnumber⟩
      · obtain ⟨g', hg', hrest⟩ := ih.mp ⟨g, hg, hnumber⟩
        exact ⟨g', List.mem_append_left _ hg', hrest⟩
    · rintro ⟨g, hg, hseg, hnumber⟩
      rcases List.mem_append.mp hg with hg | hg
      · obtain ⟨g', hg', hsame⟩ := ih.mpr ⟨g, hg, hseg, hnumber⟩
        refine ⟨g', ?_, hsame⟩
        split
        · exact List.mem_append_left _ hg'
        · exact hg'
      · obtain rfl := List.mem_singleton.mp hg
        split
        · exact ⟨g, by simp, hnumber⟩
        · rename_i hknown
          simp only [hseg, true_and, not_forall, not_not] at hknown
          obtain ⟨g', hg', hsame⟩ := hknown
          exact ⟨g', hg', hsame.trans hnumber⟩

/-- A fresh segment comes to the end of those that came before. -/
theorem freshSegments_of_isFresh (h : IsFresh src np pre f) :
    freshSegments src np (pre ++ [f]) = freshSegments src np pre ++ [f] := by
  rw [freshSegments_concat, if_pos]
  refine ⟨h.1, fun g hg hnumber => ?_⟩
  obtain ⟨g', hg', hseg, hsame⟩ := exists_freshSegment_iff.mp ⟨g, hg, hnumber⟩
  exact h.2 g' hg' hseg hsame

theorem freshSegments_of_not_isFresh (h : ¬ IsFresh src np pre f) :
    freshSegments src np (pre ++ [f]) = freshSegments src np pre := by
  rw [freshSegments_concat, if_neg]
  rintro ⟨hseg, hnew⟩
  refine h ⟨hseg, fun g hg hgseg hnumber => ?_⟩
  obtain ⟨g', hg', hsame⟩ := exists_freshSegment_iff.mpr ⟨g, hg, hgseg, hnumber⟩
  exact hnew g' hg' hsame

/-- A segment that comes in time prolongs what came in time. -/
theorem InTime.concat {fresh : List Arrival} (h : InTime (ann :: fresh))
    (hf : f.time - (fresh.getLastD ann).time ≤ kBamSessionTimeout) :
    InTime (ann :: (fresh ++ [f])) := by
  rw [← List.cons_append]
  refine List.isChain_append.mpr ⟨h, List.isChain_singleton f, ?_⟩
  rintro x hx y hy
  cases hy
  rw [List.getLast?_cons, ← List.getLastD_eq_getLast?] at hx
  cases hx
  exact hf

theorem live_eq_some_iff {now : TimePoint} :
    live now (some sess) = some sess ↔ now - sess.lastSeen ≤ kBamSessionTimeout := by
  simp [live, BamSession.expired, Option.filter]

/-- The session of `src` was announced by `ann`, and its clock shows the last fresh segment
among the arrivals `pre`, all of which came in time. -/
structure BamSession.Timed (sess : BamSession) (src : UInt8) (ann : Arrival)
    (pre : List Arrival) : Prop where
  marks : sess.Marks src ann pre
  lastSeen_eq : sess.lastSeen = ((freshSegments src sess.numPackets pre).getLastD ann).time
  inTime : InTime (ann :: freshSegments src sess.numPackets pre)

/-- A segment is taken exactly if it is fresh. -/
theorem BamSession.Timed.addSegment_isSome_iff (h : sess.Timed src ann pre)
    (hsrc : fromSource src f = true) (hdt : (decodeId f.frame.id).pgn = kPgnTPDT) :
    (sess.addSegment f.time f.frame).isSome ↔ IsFresh src sess.numPackets pre f :=
  h.marks.addSegment_isSome_iff hsrc hdt

theorem timed_openSession (hann : IsAnnouncement src ann)
    (h : openSession (decodeId ann.frame.id) ann.time ann.frame = some sess) :
    sess.Timed src ann [] where
  marks := marks_openSession hann h
  lastSeen_eq := by
    obtain ⟨-, -, -, rfl⟩ := openSession_eq_some h
    rfl
  inTime := List.isChain_singleton ann

/-- A segment that is taken is fresh, and comes in time. -/
theorem BamSession.Timed.addSegment (h : sess.Timed src ann pre) (hsrc : fromSource src f = true)
    (hdt : (decodeId f.frame.id).pgn = kPgnTPDT) (hlive : live f.time (some sess) = some sess)
    (hadd : sess.addSegment f.time f.frame = some sess') : sess'.Timed src ann (pre ++ [f]) := by
  have hfresh : IsFresh src sess.numPackets pre f :=
    (h.addSegment_isSome_iff hsrc hdt).mp (by rw [hadd]; rfl)
  have hmarks := h.marks.addSegment hsrc hdt hadd
  have htime := live_eq_some_iff.mp hlive
  rw [h.lastSeen_eq] at htime
  obtain ⟨-, -, -, -, rfl⟩ := BamSession.addSegment_eq_some hadd
  refine ⟨hmarks, ?_, ?_⟩
  · dsimp only
    rw [freshSegments_of_isFresh hfresh, List.getLastD_concat]
  · dsimp only
    rw [freshSegments_of_isFresh hfresh]
    exact h.inTime.concat htime

/-- A frame that is not fresh leaves the clock as it is. -/
theorem BamSession.Timed.skip (h : sess.Timed src ann pre)
    (hf : ¬ IsFresh src sess.numPackets pre f) : sess.Timed src ann (pre ++ [f]) where
  marks := by
    apply h.marks.skip
    intro hseg
    by_contra hnew
    exact hf ⟨hseg, fun g hg hgseg hnumber => hnew ⟨g, hg, hgseg, hnumber⟩⟩
  lastSeen_eq := by
    rw [freshSegments_of_not_isFresh hf]
    exact h.lastSeen_eq
  inTime := by
    rw [freshSegments_of_not_isFresh hf]
    exact h.inTime

/-- Every arrival that leaves the session in place keeps track of its clock. -/
theorem BamSession.Timed.cellAfter (h : sess.Timed src ann pre) (hann : ¬ IsAnnouncement src f)
    (hcell : cellAfter pgns src (some sess) f = some sess') :
    sess'.Timed src ann (pre ++ [f]) := by
  rcases cellAfter_eq_some hann hcell with ⟨hsrc, hdt, hlive, hadd⟩ | ⟨rfl, hnone⟩
  · exact h.addSegment hsrc hdt hlive hadd
  · apply h.skip
    intro hfresh
    have hsome := (h.addSegment_isSome_iff hfresh.1.1 hfresh.1.2.1).mpr hfresh
    rw [hnone hfresh.1.1 hfresh.1.2.1] at hsome
    cases hsome

/-- The clock of a session since its announcement. -/
theorem timed_foldl (hann : IsAnnouncement src ann) (hsince : ∀ f ∈ since, ¬ IsAnnouncement src f)
    (h : since.foldl (cellAfter pgns src) (cellAfter pgns src cell ann) = some sess) :
    sess.Timed src ann since :=
  session_induction hann hsince (fun _ => timed_openSession hann)
    (fun _ _ _ _ htimed hf hcell => htimed.cellAfter hf hcell) h

/-- Whatever frames arrive, the segments of a delivered message come one after the other
within the timeout, and a frame that is neither an announcement nor a fresh segment leaves the
session as it is, if it does not end. -/
theorem delivered_inTime (pgns : List PGN) :
    (∀ arrivals a msg, (handleFrame pgns (sessionsAfter pgns arrivals) a).2 = some msg →
      ∃ before ann since, arrivals = before ++ ann :: since ∧ IsAnnouncement msg.src ann ∧
        (∀ f ∈ since, ¬ IsAnnouncement msg.src f) ∧
        InTime (ann :: freshSegments msg.src (announcedPackets ann.frame) (since ++ [a]))) ∧
    ∀ src before ann pre f sess, IsAnnouncement src ann →
      (∀ g ∈ pre, ¬ IsAnnouncement src g) → ¬ IsAnnouncement src f →
      ¬ IsFresh src (announcedPackets ann.frame) pre f →
      sessionsAfter pgns (before ++ ann :: (pre ++ [f])) src = some sess →
      sessionsAfter pgns (before ++ ann :: pre) src = some sess := by
  constructor
  · intro arrivals a msg h
    obtain ⟨hsrc, hdt, sess, sess', hlive, hadd⟩ := completes_of_delivered h
    have hcell := (Option.mem_filter_iff.mp hlive).1
    rw [hcell] at hlive
    rw [sessionsAfter_eq_foldl] at hcell
    obtain ⟨before, ann, since, rfl, hann, hsince⟩ := exists_last_announcement hcell
    rw [List.foldl_append, List.foldl_cons] at hcell
    have htimed := (timed_foldl hann hsince hcell).addSegment hsrc hdt hlive hadd
    refine ⟨before, ann, since, rfl, hann, hsince, ?_⟩
    rw [← htimed.marks.numPackets_eq]
    exact htimed.inTime
  · intro src before ann pre f sess hann hpre hf hfresh h
    rw [sessionsAfter_eq_foldl, List.foldl_append, List.foldl_cons, List.foldl_append,
      List.foldl_cons, List.foldl_nil] at h
    obtain ⟨old, hold⟩ := exists_of_cellAfter hf h
    have htimed := timed_foldl hann hpre hold
    rw [hold] at h
    rw [sessionsAfter_eq_foldl, List.foldl_append, List.foldl_cons, hold]
    rcases cellAfter_eq_some hf h with ⟨hsrc, hdt, -, hadd⟩ | ⟨rfl, -⟩
    · rw [← htimed.marks.numPackets_eq] at hfresh
      exact absurd ((htimed.addSegment_isSome_iff hsrc hdt).mp (by rw [hadd]; rfl)) hfresh
    · rfl

/-- Nine bytes in two packets, each of them 700 ms after the frame before. -/
theorem delivered_inTime_slow :
    ∃ before ann since,
      [Arrival.extended 0x1CECFF42 [0x20, 9, 0, 2, 0xFF, 0xCA, 0xFE, 0] 0,
        Arrival.extended 0x1CEBFF42 [2, 18, 19, 0xFF, 0xFF, 0xFF, 0xFF, 0xFF] 700000000] =
        before ++ ann :: since ∧ IsAnnouncement 0x42 ann ∧
      (∀ f ∈ since, ¬ IsAnnouncement 0x42 f) ∧
      InTime (ann :: freshSegments 0x42 (announcedPackets ann.frame)
        (since ++ [Arrival.extended 0x1CEBFF42 [1, 11, 12, 13, 14, 15, 16, 17] 1400000000])) :=
  (delivered_inTime []).1 _ _ ⟨7, 0xFECA, 0x42, 0xFF, [11, 12, 13, 14, 15, 16, 17, 18, 19]⟩
    (by decide)

end CppCan.J1939
