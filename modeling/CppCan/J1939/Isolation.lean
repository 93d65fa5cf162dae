import CppCan.J1939.SubscribeTp
import Mathlib

/-!
# Isolation of sources

The receive loop is the keyed table machine on its extended frames. Expiry is
monotone in time and every message carries the address of the session that
produced it, so other sources are invisible to the messages of one source.
-/

namespace CppCan.J1939

open CppCan.Core

/-- The empty session table. -/
def noSessions : Sessions := fun _ => none

/-- Skipping standard frames, the loop hands over exactly the outputs of the table machine. -/
theorem subscribeTp_eq_outputs (pgns : List PGN) (sessions : Sessions) (arrivals : List Arrival) :
    subscribeTp pgns sessions arrivals =
      ((bamTable pgns).outputs sessions (arrivals.filter (·.frame.ext))).map Prod.snd := by
  induction arrivals generalizing sessions with
  | nil => rfl
  | cons a arrivals ih =>
    cases hext : a.frame.ext with
    | true =>
      rw [List.filter_cons_of_pos (by simpa using hext), TableMachine.outputs, List.map_append,
        subscribeTp, handleFrame_of_ext pgns sessions hext, ih]
      congr 1
      cases ((bamTable pgns).step sessions a).2 <;> rfl
    | false =>
      rw [List.filter_cons_of_neg (by simp [hext]), subscribeTp,
        handleFrame_of_not_ext pgns sessions hext, ih]
      rfl

/-- A silent session stays silent. -/
theorem bamTable_expiryMonotone (pgns : List PGN) : (bamTable pgns).ExpiryMonotone := by
  intro sess t t' ht h
  have hlate : t - sess.lastSeen > kBamSessionTimeout := of_decide_eq_true h
  have hle : t - sess.lastSeen ≤ t' - sess.lastSeen := Int.sub_le_sub_right ht _
  exact decide_eq_true (Int.lt_of_lt_of_le hlate hle)

/-- An arrival keeps the session under its own address and labels the message with it. -/
theorem actOnSession_src (pgns : List PGN) (a : Arrival) (cell : Option BamSession)
    (hcell : ∀ sess ∈ cell, sess.src = (decodeId a.frame.id).src) :
    (∀ sess ∈ (actOnSession pgns a cell).1, sess.src = (decodeId a.frame.id).src) ∧
      ∀ msg ∈ (actOnSession pgns a cell).2, msg.src = (decodeId a.frame.id).src := by
  have hstep := sessionStep_actOnSession pgns a cell
  generalize actOnSession pgns a cell = out at hstep
  cases hstep with
  | opens _ ho =>
    obtain ⟨_, _, _, rfl⟩ := openSession_eq_some ho
    refine ⟨?_, by simp⟩
    rintro _ ⟨⟩
    rfl
  | @adds sess _ _ hadd _ =>
    obtain ⟨_, _, _, _, rfl⟩ := BamSession.addSegment_eq_some hadd
    refine ⟨?_, by simp⟩
    rintro _ ⟨⟩
    exact hcell sess rfl
  | @completes sess _ _ hadd _ =>
    obtain ⟨_, _, _, _, rfl⟩ := BamSession.addSegment_eq_some hadd
    refine ⟨by simp, ?_⟩
    intro msg hmsg
    dsimp only at hmsg
    split at hmsg
    · obtain rfl := Option.some.inj hmsg
      exact hcell sess rfl
    · cases hmsg
  | ignores _ => exact ⟨hcell, by simp⟩

/-- Each message of a run carries the address of the frames that produced it. -/
theorem outputs_src (pgns : List PGN) (arrivals : List Arrival) :
    ∀ o ∈ (bamTable pgns).outputs noSessions arrivals, o.2.src = o.1 :=
  (bamTable pgns).outputs_forall (P := fun src sess => sess.src = src)
    (Q := fun src msg => msg.src = src) (fun a cell hcell => actOnSession_src pgns a cell hcell)
    (by simp [noSessions]) arrivals

/-- The extended frames sent by one address. -/
def fromSource (s : UInt8) (a : Arrival) : Bool := a.frame.ext && (decodeId a.frame.id).src == s

/-- The messages of source `s` are those of the run on the extended frames of `s`
alone, at their original times: neither the frames of other sources nor the
sweeps they trigger nor the session cap are visible to `s`. -/
theorem subscribeTp_source_isolated (pgns : List PGN) (s : UInt8) (arrivals : List Arrival)
    (htime : arrivals.Pairwise fun a b => a.time ≤ b.time) :
    (subscribeTp pgns noSessions arrivals).filter (fun msg => msg.src = s) =
      subscribeTp pgns noSessions (arrivals.filter (fromSource s)) := by
  have hown : (arrivals.filter (fromSource s)).filter (·.frame.ext) =
      (arrivals.filter (·.frame.ext)).filter fun a => (bamTable pgns).key a = s := by
    rw [List.filter_filter, List.filter_filter]
    refine List.filter_congr fun a _ => ?_
    rw [Bool.eq_iff_iff]
    simp only [fromSource, Bool.and_eq_true, beq_iff_eq]
    exact ⟨fun h => ⟨decide_eq_true h.2.2, h.1⟩, fun h => ⟨h.2, h.2, of_decide_eq_true h.1⟩⟩
  have htime' : (arrivals.filter (·.frame.ext)).Pairwise fun a b =>
      (bamTable pgns).time a ≤ (bamTable pgns).time b := htime.filter _
  have hlabel : ∀ o ∈ (bamTable pgns).outputs noSessions (arrivals.filter (·.frame.ext)),
      decide (o.2.src = s) = decide (o.1 = s) := by
    intro o ho
    rw [outputs_src pgns _ o ho]
  rw [subscribeTp_eq_outputs, subscribeTp_eq_outputs, hown, List.filter_map]
  refine congrArg (List.map Prod.snd) ((List.filter_congr hlabel).trans ?_)
  cases hes : arrivals.filter (·.frame.ext) with
  | nil => rfl
  | cons e es =>
    rw [hes] at htime'
    have hfirst : ∀ f ∈ e :: es, (bamTable pgns).time e ≤ (bamTable pgns).time f :=
      List.forall_mem_cons.mpr ⟨le_rfl, (List.pairwise_cons.mp htime').1⟩
    exact TableMachine.outputs_filter_key (bamTable_expiryMonotone pgns) s (e :: es) htime'
      hfirst fun _ _ => rfl

/-- Two interleaved sources; one of them falls silent and its session expires before the other one
has sent its last packet. -/
def interleaved : List Arrival :=
  [⟨{ id := 0x1CECFF42, ext := true, data := [0x20, 9, 0, 2, 0xFF, 0xCA, 0xFE, 0] }, 0⟩,
    ⟨{ id := 0x1CECFF17, ext := true, data := [0x20, 9, 0, 2, 0xFF, 0xCA, 0xFE, 0] }, 5⟩,
    ⟨{ id := 0x1CEBFF42, ext := true, data := [1, 1, 2, 3, 4, 5, 6, 7] }, 700000000⟩,
    ⟨{ id := 0x1CEBFF17, ext := true, data := [2, 0, 0, 0, 0, 0, 0, 0] }, 700000001⟩,
    ⟨{ id := 0x1CEBFF42, ext := true, data := [2, 8, 9, 0, 0, 0, 0, 0] }, 1450000000⟩,
    ⟨{ id := 0x1CEBFF17, ext := true, data := [1, 0, 0, 0, 0, 0, 0, 0] }, 1450000002⟩]

theorem subscribeTp_source_isolated_interleaved :
    (subscribeTp [] noSessions interleaved).filter (fun msg => msg.src = 0x42) =
        subscribeTp [] noSessions (interleaved.filter (fromSource 0x42)) ∧
      subscribeTp [] noSessions (interleaved.filter (fromSource 0x42)) =
        [{ priority := 7, pgn := 0xFECA, src := 0x42, data := [1, 2, 3, 4, 5, 6, 7, 8, 9] }] :=
  ⟨subscribeTp_source_isolated [] 0x42 interleaved (by decide), by decide +kernel⟩

end CppCan.J1939
