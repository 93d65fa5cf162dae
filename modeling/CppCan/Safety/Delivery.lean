import CppCan.Safety.E2E

/-!
# Delivery of protected payloads

A receiver fed with frames of one protector behaves as the in-order gate on
payload positions: the counter of position `i` is `i` modulo `2 ^ 32`, so below
`2 ^ 32` positions the receiver's successor test is the gate's. Over a lossless
channel the two counters stay in step across every wrap.
-/

namespace CppCan.Safety

open CppCan.Core

/-- Protecting is a pairing of positions with payloads: position `i` carries counter `seq + i`. -/
theorem Protector.protectAll_eq (p : Protector) (payloads : List (List UInt8)) :
    p.protectAll payloads = (List.range payloads.length).map fun i =>
      protectedFrame p.cfg (p.seq + UInt32.ofNat i) (payloads.getD i []) := by
  induction payloads generalizing p with
  | nil => rfl
  | cons payload rest ih =>
    have hseq (i : ℕ) : p.seq + 1 + UInt32.ofNat i = p.seq + UInt32.ofNat (i + 1) := by
      rw [UInt32.ofNat_add, UInt32.add_assoc, UInt32.add_comm 1]
      rfl
    rw [Protector.protectAll, ih, List.length_cons, List.range_succ_eq_map, List.map_cons,
      List.map_map]
    refine congrArg₂ List.cons ?_ (List.map_congr_left fun i _ => ?_)
    · simp [Protector.protect, protectedFrame]
    · simp [Protector.protect, hseq]

section Replay

variable {cfg : Config} {payloads : List (List UInt8)}

/-- The frame a fresh protector emits for position `i` of the payload list. -/
def frameAt (cfg : Config) (payloads : List (List UInt8)) (i : ℕ) : List UInt8 :=
  protectedFrame cfg (UInt32.ofNat i) (payloads.getD i [])

theorem protectAll_fresh (cfg : Config) (payloads : List (List UInt8)) :
    ({ cfg := cfg } : Protector).protectAll payloads =
      (List.range payloads.length).map (frameAt cfg payloads) := by
  rw [Protector.protectAll_eq]
  exact List.map_congr_left fun i _ => by simp [frameAt]

/-- Below the counter's range, the successor test on counters is the one on positions. -/
theorem admits_ofNat {last : Option ℕ} {i : ℕ} (hn : payloads.length < 2 ^ 32)
    (hl : ∀ k ∈ last, k < payloads.length) (hi : i < payloads.length) :
    admits (· + 1) (last.map UInt32.ofNat) (UInt32.ofNat i) = admits (· + 1) last i := by
  cases last with
  | none => rfl
  | some k =>
    have hk := hl k rfl
    have hinj : UInt32.ofNat i = UInt32.ofNat k + 1 ↔ i = k + 1 := by
      have hsucc : UInt32.ofNat k + 1 = UInt32.ofNat (k + 1) := by rw [UInt32.ofNat_add]; rfl
      rw [hsucc]
      constructor
      · intro h
        have ht := congrArg UInt32.toNat h
        have hsize : UInt32.size = 2 ^ 32 := rfl
        rwa [UInt32.toNat_ofNat_of_lt' (by omega), UInt32.toNat_ofNat_of_lt' (by omega)] at ht
      · exact congrArg UInt32.ofNat
    simp only [admits, Option.map_some, hinj]

/-- The receiver refines the gate: what it returns are the payloads at the admitted positions. -/
theorem returned_unwrapAll_frames (hn : payloads.length < 2 ^ 32) (positions : List ℕ)
    (hp : ∀ i ∈ positions, i < payloads.length) {last : Option ℕ}
    (hl : ∀ k ∈ last, k < payloads.length) {r : Receiver} (hr : r.cfg = cfg)
    (hlast : r.last = last.map UInt32.ofNat) :
    returned (r.unwrapAll (positions.map (frameAt cfg payloads))) =
      (admitted (· + 1) last positions).map (payloads.getD · []) := by
  induction positions generalizing last r with
  | nil => rfl
  | cons i positions ih =>
    have hi : i < payloads.length := hp i List.mem_cons_self
    have htail : ∀ j ∈ positions, j < payloads.length :=
      fun j hj => hp j (List.mem_cons_of_mem _ hj)
    have hgate : admits (· + 1) r.last (UInt32.ofNat i) = admits (· + 1) last i := by
      rw [hlast, admits_ofNat hn hl hi]
    rw [List.map_cons, Receiver.unwrapAll, frameAt]
    cases ha : admits (· + 1) last i with
    | true =>
      have hnext : ∀ k ∈ some i, k < payloads.length := by
        rintro k ⟨⟩
        exact hi
      have hrest := ih htail hnext (r := ⟨cfg, UInt32.ofNat i, false⟩) rfl rfl
      rw [Receiver.unwrap_of_admits hr (hgate.trans ha), admitted_cons_of_admits ha,
        List.map_cons, ← hrest]
      rfl
    | false =>
      obtain ⟨e, he⟩ := Receiver.unwrap_of_refuses hr (hgate.trans ha) (payloads.getD i [])
      rw [he, admitted_cons_of_not_admits ha, ← ih htail hl hr hlast]
      rfl

/-- Whatever an adversary does with the frames of one protector — reorder, omit,
replay — the payloads a fresh receiver returns are a contiguous run of those sent. -/
theorem unwrap_returns_contiguous_run (cfg : Config) (payloads deliveries : List (List UInt8))
    (hn : payloads.length < 2 ^ 32)
    (hd : ∀ d ∈ deliveries, d ∈ ({ cfg := cfg } : Protector).protectAll payloads) :
    returned (({ cfg := cfg } : Receiver).unwrapAll deliveries) <:+: payloads := by
  rw [protectAll_fresh] at hd
  obtain ⟨positions, hpos, rfl⟩ : ∃ positions : List ℕ, (∀ i ∈ positions, i < payloads.length) ∧
      positions.map (frameAt cfg payloads) = deliveries := by
    induction deliveries with
    | nil => exact ⟨[], by simp, rfl⟩
    | cons d ds ih =>
      obtain ⟨positions, hb, rfl⟩ := ih fun d hd' => hd d (List.mem_cons_of_mem _ hd')
      obtain ⟨i, hi, rfl⟩ := List.mem_map.mp (hd d List.mem_cons_self)
      exact ⟨i :: positions, List.forall_mem_cons.mpr ⟨List.mem_range.mp hi, hb⟩, rfl⟩
  have hfresh : ∀ k ∈ (none : Option ℕ), k < payloads.length := by simp
  rw [returned_unwrapAll_frames hn positions hpos hfresh rfl rfl]
  have hbound : ∀ i ∈ admitted (· + 1) none positions, i < payloads.length :=
    fun i hi => hpos i ((admitted_sublist _ _ _).subset hi)
  have hinfix := (consecutive_admitted (· + 1) positions).isInfix_range hbound
  have hall : (List.range payloads.length).map (payloads.getD · []) = payloads := by
    apply List.ext_getElem (by simp)
    intro i h₁ h₂
    simp [List.getD_eq_getElem?_getD, h₂]
  simpa only [hall] using hinfix.map (payloads.getD · [])

/-- Three payloads, delivered with a replay and a late first frame. -/
theorem unwrap_returns_contiguous_run_replay :
    returned (({ cfg := ⟨1, 16⟩ } : Receiver).unwrapAll
      [frameAt ⟨1, 16⟩ [[1], [2], [3]] 1, frameAt ⟨1, 16⟩ [[1], [2], [3]] 1,
        frameAt ⟨1, 16⟩ [[1], [2], [3]] 0, frameAt ⟨1, 16⟩ [[1], [2], [3]] 2]) <:+:
      [[1], [2], [3]] := by
  refine unwrap_returns_contiguous_run ⟨1, 16⟩ [[1], [2], [3]] _ (by decide) ?_
  rw [protectAll_fresh]
  simp only [List.forall_mem_cons]
  exact ⟨List.mem_map_of_mem (by decide), List.mem_map_of_mem (by decide),
    List.mem_map_of_mem (by decide), List.mem_map_of_mem (by decide), by simp⟩

end Replay

/-- In step, the receiver returns every payload: its last counter is the one
before the protector's next, and both advance together modulo `2 ^ 32`. -/
theorem unwrapAll_protectAll {p : Protector} {r : Receiver} (hcfg : r.cfg = p.cfg)
    (hsync : admits (· + 1) r.last p.seq = true) (payloads : List (List UInt8)) :
    r.unwrapAll (p.protectAll payloads) = payloads.map .ok := by
  induction payloads generalizing p r with
  | nil => rfl
  | cons payload rest ih =>
    have hnext := ih (p := (p.protect payload).2) (r := ⟨p.cfg, p.seq, false⟩) rfl
      (by simp [Receiver.last, admits, Protector.protect])
    have hframe : (p.protect payload).1 = protectedFrame p.cfg p.seq payload := rfl
    rw [Protector.protectAll, Receiver.unwrapAll, hframe, Receiver.unwrap_of_admits hcfg hsync,
      List.map_cons, hnext]

/-- In-order delivery never throws and never alters a payload, for runs of any
length: the comparison survives the wrap of the 32-bit counter. -/
theorem unwrap_protect_lossless (cfg : Config) (payloads : List (List UInt8)) :
    ({ cfg := cfg } : Receiver).unwrapAll (({ cfg := cfg } : Protector).protectAll payloads) =
      payloads.map .ok :=
  unwrapAll_protectAll rfl rfl payloads

end CppCan.Safety
