import CppCan.Safety.Delivery

/-!
# A link after an outage

A receiver admits no counter but the one after the counter it accepted last, so once frames
are lost it refuses those that follow. The counter of the protector comes round after
`2 ^ 32` frames; from there on the receiver is in step again.
-/

namespace CppCan.Safety

open CppCan.Core

/-- The protector after the next `n` payloads. -/
def Protector.skip (p : Protector) (n : ℕ) : Protector := { p with seq := p.seq + UInt32.ofNat n }

/-- The receiver after the inputs. -/
def Receiver.after (r : Receiver) (inputs : List (List UInt8)) : Receiver :=
  inputs.foldl (fun r data => (r.unwrap data).2) r

/-- The refusal of a counter that is not the expected one. -/
def gapError (expected seq : UInt32) : E2EError :=
  .mk' .sequenceGap seq s!"expected {expected}, got {seq}"

/-- The frames until the counter has come round, after the loss of `lost` frames. -/
def silence (lost : ℕ) : ℕ := (2 ^ 32 - lost % 2 ^ 32) % 2 ^ 32

variable {p : Protector} {r : Receiver}

theorem Protector.skip_protect (p : Protector) (payload : List UInt8) (n : ℕ) :
    (p.protect payload).2.skip n = p.skip (n + 1) := by
  simp only [skip, protect, Protector.mk.injEq, true_and, UInt32.ofNat_add, UInt32.add_assoc]
  exact congrArg _ (UInt32.add_comm _ _)

/-- Protecting one list after another. -/
theorem Protector.protectAll_append (p : Protector) (xs ys : List (List UInt8)) :
    p.protectAll (xs ++ ys) = p.protectAll xs ++ (p.skip xs.length).protectAll ys := by
  induction xs generalizing p with
  | nil => simp [protectAll, skip]
  | cons x xs ih => simp only [List.cons_append, protectAll, ih, skip_protect, List.length_cons]

theorem Protector.length_protectAll (p : Protector) (payloads : List (List UInt8)) :
    (p.protectAll payloads).length = payloads.length := by
  rw [protectAll_eq, List.length_map, List.length_range]

/-- Unwrapping one list after another. -/
theorem Receiver.unwrapAll_append (r : Receiver) (xs ys : List (List UInt8)) :
    r.unwrapAll (xs ++ ys) = r.unwrapAll xs ++ (r.after xs).unwrapAll ys := by
  induction xs generalizing r with
  | nil => rfl
  | cons x xs ih => simp only [List.cons_append, unwrapAll, ih, after, List.foldl_cons]

/-- A receiver in step has accepted the counter of the last frame. -/
theorem Receiver.after_protectAll (hcfg : r.cfg = p.cfg) (hfirst : r.first = false)
    (hnext : p.seq = r.lastSeq + 1) (payloads : List (List UInt8)) :
    r.after (p.protectAll payloads) =
      ⟨p.cfg, r.lastSeq + UInt32.ofNat payloads.length, false⟩ := by
  induction payloads generalizing p r with
  | nil =>
    obtain ⟨cfg, lastSeq, first⟩ := r
    obtain rfl : cfg = p.cfg := hcfg
    obtain rfl : first = false := hfirst
    simp [after, Protector.protectAll]
  | cons payload rest ih =>
    have hadmits : admits (· + 1) r.last p.seq = true := by
      simp [admits, Receiver.last, hfirst, hnext]
    have hstep := ih (p := (p.protect payload).2) (r := ⟨p.cfg, p.seq, false⟩) rfl rfl rfl
    have hframe : (p.protect payload).1 = protectedFrame p.cfg p.seq payload := rfl
    have hsum : p.seq + UInt32.ofNat rest.length =
        r.lastSeq + UInt32.ofNat (rest.length + 1) := by
      rw [hnext, UInt32.ofNat_add, UInt32.add_assoc, UInt32.add_comm 1]
      rfl
    rw [after, Protector.protectAll, List.foldl_cons, hframe, unwrap_of_admits hcfg hadmits,
      ← after, hstep, hsum, List.length_cons]
    rfl

/-- Numbers that are no full turns are not the counter zero. -/
theorem ofNat_ne_zero {n : ℕ} (h : ¬ 2 ^ 32 ∣ n) : UInt32.ofNat n ≠ 0 := by
  intro hzero
  have hmod := congrArg UInt32.toNat hzero
  rw [UInt32.toNat_ofNat'] at hmod
  exact h (Nat.dvd_of_mod_eq_zero hmod)

/-- Until the counter has come round every frame is refused, and the receiver stays as it is. -/
theorem Receiver.unwrapAll_behind {cfg : Config} {lastSeq : UInt32} {lag : ℕ} (hcfg : p.cfg = cfg)
    (hseq : p.seq = lastSeq + 1 + UInt32.ofNat lag) (payloads : List (List UInt8))
    (hlag : ∀ i < payloads.length, ¬ 2 ^ 32 ∣ lag + i) :
    (⟨cfg, lastSeq, false⟩ : Receiver).unwrapAll (p.protectAll payloads) =
        ((List.range payloads.length).map fun i =>
          .error (gapError (lastSeq + 1) (p.seq + UInt32.ofNat i))) ∧
      (⟨cfg, lastSeq, false⟩ : Receiver).after (p.protectAll payloads) =
        ⟨cfg, lastSeq, false⟩ := by
  subst hcfg
  induction payloads generalizing p lag with
  | nil => exact ⟨rfl, rfl⟩
  | cons payload rest ih =>
    have hnot : p.seq ≠ lastSeq + 1 := by
      intro h
      rw [hseq] at h
      exact ofNat_ne_zero (hlag 0 (Nat.zero_lt_succ _)) (UInt32.add_eq_left.mp h)
    have hrefuse : (⟨p.cfg, lastSeq, false⟩ : Receiver).unwrap (p.protect payload).1 =
        (.error (gapError (lastSeq + 1) p.seq), ⟨p.cfg, lastSeq, false⟩) := by
      have h := Receiver.unwrap_protectedFrame ⟨p.cfg, lastSeq, false⟩ p.seq payload
      rwa [if_neg (by simpa [admits, Receiver.last] using hnot)] at h
    have hnext : (p.protect payload).2.seq = lastSeq + 1 + UInt32.ofNat (lag + 1) := by
      simp only [Protector.protect, hseq, UInt32.ofNat_add, UInt32.add_assoc]
      rfl
    obtain ⟨hresults, hstate⟩ := ih hnext fun i hi => by
      rw [Nat.add_right_comm]
      exact hlag (i + 1) (Nat.succ_lt_succ hi)
    constructor
    · rw [Protector.protectAll, unwrapAll, hrefuse, List.length_cons, List.range_succ_eq_map,
        List.map_cons, List.map_map]
      refine congrArg₂ _ (by simp) (hresults.trans (List.map_congr_left fun i _ => ?_))
      simp only [Protector.protect, Function.comp, Nat.succ_eq_add_one, UInt32.ofNat_add,
        UInt32.add_assoc, UInt32.add_comm 1]
      rfl
    · rw [after, Protector.protectAll, List.foldl_cons, hrefuse]
      exact hstate

/-- Lost frames and those of the silence after them are full turns of the counter. -/
theorem ofNat_add_silence (lost : ℕ) :
    UInt32.ofNat lost + UInt32.ofNat (silence lost) = 0 := by
  have hturn : (lost + silence lost) % 2 ^ 32 = 0 := by
    unfold silence
    omega
  rw [← UInt32.ofNat_add, ← UInt32.toNat_inj, UInt32.toNat_ofNat']
  exact hturn

/-- A receiver in step refuses the frames of the silence after a loss and none later. -/
theorem Receiver.unwrapAll_lost (hcfg : r.cfg = p.cfg) (hfirst : r.first = false)
    (hnext : p.seq = r.lastSeq + 1) (lost : ℕ) (payloads : List (List UInt8)) :
    r.unwrapAll ((p.skip lost).protectAll payloads) =
      ((List.range (min (silence lost) payloads.length)).map fun i =>
        .error (gapError p.seq (p.seq + UInt32.ofNat (lost + i)))) ++
      (payloads.drop (silence lost)).map .ok := by
  obtain ⟨cfg, lastSeq, first⟩ := r
  obtain rfl : cfg = p.cfg := hcfg
  obtain rfl : first = false := hfirst
  replace hnext : p.seq = lastSeq + 1 := hnext
  have hcounter : ∀ i, (p.skip lost).seq + UInt32.ofNat i = p.seq + UInt32.ofNat (lost + i) := by
    intro i
    rw [UInt32.ofNat_add, ← UInt32.add_assoc]
    rfl
  have hlag : ∀ i < (payloads.take (silence lost)).length, ¬ 2 ^ 32 ∣ lost + i := by
    intro i hi
    rw [List.length_take] at hi
    unfold silence at hi
    omega
  have hcfg : (p.skip lost).cfg = p.cfg := rfl
  obtain ⟨hresults, hstate⟩ := unwrapAll_behind hcfg
    (congrArg (· + UInt32.ofNat lost) hnext) (payloads.take (silence lost)) hlag
  have hrest : (⟨p.cfg, lastSeq, false⟩ : Receiver).unwrapAll
      (((p.skip lost).skip (payloads.take (silence lost)).length).protectAll
        (payloads.drop (silence lost))) = (payloads.drop (silence lost)).map .ok := by
    by_cases hshort : payloads.length ≤ silence lost
    · rw [List.drop_eq_nil_of_le hshort]
      rfl
    · refine unwrapAll_protectAll rfl ?_ _
      have hseq : ((p.skip lost).skip (payloads.take (silence lost)).length).seq = lastSeq + 1 := by
        rw [List.length_take, Nat.min_eq_left (by omega), ← hnext]
        simp only [Protector.skip, UInt32.add_assoc, ofNat_add_silence, UInt32.add_zero]
      exact decide_eq_true hseq
  calc (⟨p.cfg, lastSeq, false⟩ : Receiver).unwrapAll ((p.skip lost).protectAll payloads)
      = (⟨p.cfg, lastSeq, false⟩ : Receiver).unwrapAll ((p.skip lost).protectAll
          (payloads.take (silence lost) ++ payloads.drop (silence lost))) := by
        rw [List.take_append_drop]
    _ = _ := by
        rw [Protector.protectAll_append, unwrapAll_append, hresults, hstate, hrest,
          List.length_take]
        simp only [hcounter, hnext]

/-- A fresh receiver is in step with the protector after the first frames. -/
theorem Receiver.after_fresh (cfg : Config) (payload : List UInt8) (rest : List (List UInt8)) :
    ({ cfg := cfg } : Receiver).after (({ cfg := cfg } : Protector).protectAll (payload :: rest)) =
      ⟨cfg, UInt32.ofNat rest.length, false⟩ := by
  have hframe : (({ cfg := cfg } : Protector).protect payload).1 =
      protectedFrame cfg 0 payload := rfl
  have hfirst : ({ cfg := cfg } : Receiver).unwrap (protectedFrame cfg 0 payload) =
      (.ok payload, ⟨cfg, 0, false⟩) := unwrap_of_admits rfl rfl payload
  have hrest := after_protectAll (p := (({ cfg := cfg } : Protector).protect payload).2)
    (r := ⟨cfg, 0, false⟩) rfl rfl rfl rest
  rw [after, Protector.protectAll, List.foldl_cons, hframe, hfirst, ← after, hrest,
    UInt32.zero_add]
  rfl

/-- After an outage the receiver of a stream refuses every frame until the counter of the
protector has come round, and misses nothing from there on. -/
theorem outage_silences (cfg : Config) (before lost after : List (List UInt8))
    (hbefore : before ≠ []) :
    ({ cfg := cfg } : Receiver).unwrapAll
        ((({ cfg := cfg } : Protector).protectAll (before ++ lost ++ after)).take before.length ++
          (({ cfg := cfg } : Protector).protectAll (before ++ lost ++ after)).drop
            (before.length + lost.length)) =
      before.map .ok ++
        ((List.range (min (silence lost.length) after.length)).map fun i =>
          .error (gapError (UInt32.ofNat before.length)
            (UInt32.ofNat (before.length + lost.length + i)))) ++
        (after.drop (silence lost.length)).map .ok := by
  obtain ⟨payload, rest, rfl⟩ := List.exists_cons_of_ne_nil hbefore
  generalize hp : ({ cfg := cfg } : Protector) = p
  have hcfg : p.cfg = cfg := hp ▸ rfl
  have hseq : p.seq = 0 := hp ▸ rfl
  have hbegun : ({ cfg := cfg } : Receiver).unwrapAll (p.protectAll (payload :: rest)) =
      (payload :: rest).map .ok := hp ▸ unwrapAll_protectAll rfl rfl _
  have hstate : ({ cfg := cfg } : Receiver).after (p.protectAll (payload :: rest)) =
      ⟨cfg, UInt32.ofNat rest.length, false⟩ := hp ▸ Receiver.after_fresh cfg payload rest
  have hlost := Receiver.unwrapAll_lost (p := p.skip (payload :: rest).length)
    (r := ⟨cfg, UInt32.ofNat rest.length, false⟩) hcfg.symm rfl
    (by simp [Protector.skip, hseq, UInt32.ofNat_add]) lost.length after
  have hframes : p.protectAll (payload :: rest ++ lost ++ after) =
      p.protectAll (payload :: rest) ++ ((p.skip (payload :: rest).length).protectAll lost ++
        ((p.skip (payload :: rest).length).skip lost.length).protectAll after) := by
    rw [List.append_assoc, Protector.protectAll_append, Protector.protectAll_append]
  rw [hframes, List.take_left' (Protector.length_protectAll _ _), ← List.drop_drop,
    List.drop_left' (Protector.length_protectAll _ _),
    List.drop_left' (Protector.length_protectAll _ _), Receiver.unwrapAll_append, hbegun, hstate,
    hlost, List.append_assoc]
  simp only [Protector.skip, hseq, UInt32.zero_add, UInt32.ofNat_add, UInt32.add_assoc]

/-- One of four frames is lost; the two behind it are refused. -/
theorem outage_silences_three :
    ({ cfg := ⟨1, 16⟩ } : Receiver).unwrapAll
        ((({ cfg := ⟨1, 16⟩ } : Protector).protectAll [[1], [2], [3], [4]]).take 1 ++
          (({ cfg := ⟨1, 16⟩ } : Protector).protectAll [[1], [2], [3], [4]]).drop 2) =
      [.ok [1], .error (gapError 1 2), .error (gapError 1 3)] :=
  outage_silences ⟨1, 16⟩ [[1]] [[2]] [[3], [4]] (by decide)

end CppCan.Safety
