import CppCan.IsoTp.Pacing
import CppCan.IsoTp.Splicing

/-!
# The declared length

A payload that `recv` returns is put together from the frames that it took: the bytes of
the first one and those of the consecutive frames behind it, cut where the declared length
is reached. The bytes of a first frame itself are not cut.
-/

namespace CppCan.IsoTp

open CppCan.Core CppCan.Relay

/-- The frame is a whole message. -/
def isSingleFrame (f : Frame) : Bool := !f.data.isEmpty && f.data.getD 0 0 &&& 0xF0 == kTypeSF

/-- The length that a single frame or a first frame declares. -/
def declaredLength (f : Frame) : Nat :=
  if isFirstFrame f then ((f.data.getD 0 0 &&& 0x0F).toNat <<< 8) ||| (f.data.getD 1 0).toNat
  else (f.data.getD 0 0 &&& 0x0F).toNat

/-- The bytes of the message that a single frame or a first frame carries. -/
def carried (f : Frame) : List UInt8 := f.data.drop (if isFirstFrame f then 2 else 1)

/-- The payload is what the frames of a run declare and carry: the first one is a single
frame or a first frame, the others are the consecutive frames in the order of their numbers. -/
structure Honours (payload : List UInt8) (first : Frame) (cfs : List Frame) : Prop where
  starts : isSingleFrame first = true ∨ isFirstFrame first = true
  length_eq : payload.length = declaredLength first
  payload_eq :
    payload = (carried first ++ cfs.flatMap (·.data.drop 1)).take (declaredLength first)
  numbered : ∀ i cf, cfs[i]? = some cf → isConsecutive cf = true ∧
    (cf.data.getD 0 0 &&& 0x0F).toNat = (i + 1) % 16

/-- The payload is put together from the frames that the run takes, the first frame that
it consumes at the front. -/
def Reassembled (payload : List UInt8) (ls : Log) : Prop :=
  ∃ first rest, ls = .took first :: rest ∧ Honours payload first (taken rest)

/-- The first frame carries no more bytes than it declares. -/
def Fits (ls : Log) : Prop :=
  ∀ first ∈ (taken ls).head?, isFirstFrame first = true →
    (carried first).length ≤ declaredLength first

variable {cfg : Config} {timeout length rounds cfInBlock : Nat} {buf payload : List UInt8}
  {sn : UInt8} {ls : Log}

/-- Cutting the front of a list does not matter to a cut behind it. -/
theorem take_take_append (n : Nat) (xs ys : List UInt8) :
    (xs.take n ++ ys).take n = (xs ++ ys).take n := by
  rw [List.take_append, List.take_append, List.take_take, Nat.min_self, List.length_take]
  congr 2
  omega

/-- The bytes of a consecutive frame are cut at the declared length. -/
theorem append_take_eq (h : buf.length ≤ length) (bytes : List UInt8) :
    buf ++ bytes.take (min bytes.length (length - buf.length)) = (buf ++ bytes).take length := by
  rw [List.take_append, List.take_of_length_le h, List.take_eq_take_iff.mpr]
  omega

/-- The receiver asks for the next block and goes on. -/
theorem trace_afterSegment
    (h : (afterSegment cfg timeout length rounds buf sn cfInBlock).Trace ls (.ok payload)) :
    ∃ ls' n, taken ls = taken ls' ∧
      (recvLoop cfg timeout length rounds buf sn n).Trace ls' (.ok payload) := by
  unfold afterSegment at h
  split_ifs at h
  · obtain ⟨err, ls', rfl, hrest⟩ := Proc.trace_emit.mp h
    cases err with
    | some err =>
      obtain ⟨-, hr⟩ := Proc.trace_ret.mp hrest
      cases hr
    | none => exact ⟨ls', 0, by simp [Label.taken?], hrest⟩
  · exact ⟨ls, _, rfl, h⟩
  · exact ⟨ls, _, rfl, h⟩

/-- A round of the loop takes the expected consecutive frame. -/
theorem trace_recvLoop (hlt : buf.length < length)
    (h : (recvLoop cfg timeout length (rounds + 1) buf sn cfInBlock).Trace ls (.ok payload)) :
    ∃ cf ls' n, taken ls = cf :: taken ls' ∧ isConsecutive cf = true ∧
      cf.data.getD 0 0 &&& 0x0F = sn &&& 0x0F ∧ 2 ≤ cf.data.length ∧
      (recvLoop cfg timeout length rounds ((buf ++ cf.data.drop 1).take length) (sn + 1) n).Trace
        ls' (.ok payload) := by
  rw [recvLoop_of_lt hlt] at h
  obtain ⟨ls₁, ls₂, res, rfl, hw, hrest⟩ := Proc.trace_await.mp h
  cases res with
  | error err =>
    obtain ⟨-, hr⟩ := Proc.trace_ret.mp hrest
    cases hr
  | ok cf =>
    have htaken : taken (ls₁ ++ ls₂) = cf :: taken ls₂ := by
      simp [hw.taken_eq, Except.toOption]
    simp only [onSegment] at hrest
    split_ifs at hrest with hnum hshort
    · obtain ⟨-, hr⟩ := Proc.trace_ret.mp hrest
      cases hr
    · obtain ⟨-, hr⟩ := Proc.trace_ret.mp hrest
      cases hr
    · obtain ⟨ls', n, hls', hloop⟩ := trace_afterSegment hrest
      rw [← List.length_drop, append_take_eq (by omega)] at hloop
      exact ⟨cf, ls', n, by rw [htaken, hls'], hw.accepts, not_not.mp hnum, by omega, hloop⟩

/-- What the loop returns if no more bytes are there at its start than it waits for. -/
theorem recvLoop_returns (hfits : buf.length ≤ length) (hrounds : length ≤ buf.length + rounds)
    (h : (recvLoop cfg timeout length rounds buf sn cfInBlock).Trace ls (.ok payload)) :
    payload = (buf ++ (taken ls).flatMap (·.data.drop 1)).take length ∧ payload.length = length ∧
      ∀ i cf, (taken ls)[i]? = some cf → isConsecutive cf = true ∧
        (cf.data.getD 0 0 &&& 0x0F).toNat = (sn.toNat + i) % 16 := by
  induction rounds generalizing buf sn cfInBlock ls with
  | zero =>
    obtain ⟨rfl, hr⟩ := Proc.trace_ret.mp h
    obtain rfl := Except.ok.inj hr
    have hlen : payload.length = length := by omega
    exact ⟨by simp [hlen], hlen, by simp⟩
  | succ rounds ih =>
    by_cases hlt : buf.length < length
    · obtain ⟨cf, ls', n, htaken, hcf, hnum, hshort, hloop⟩ := trace_recvLoop hlt h
      have hlen : ((buf ++ cf.data.drop 1).take length).length =
          min length (buf.length + (cf.data.length - 1)) := by
        rw [List.length_take, List.length_append, List.length_drop]
      obtain ⟨hpayload, hlength, hnumbers⟩ := ih (by omega) (by omega) hloop
      rw [htaken]
      refine ⟨?_, hlength, fun i cf' hi => ?_⟩
      · rw [hpayload, take_take_append, List.flatMap_cons, List.append_assoc]
      · cases i with
        | zero =>
          obtain rfl := Option.some.inj hi
          exact ⟨hcf, by rw [hnum, toNat_and_nibble, Nat.add_zero]⟩
        | succ i =>
          obtain ⟨hcf', hnum'⟩ := hnumbers i cf' hi
          refine ⟨hcf', ?_⟩
          rw [hnum', UInt8.toNat_add]
          have hone : (1 : UInt8).toNat = 1 := rfl
          omega
    · rw [recvLoop_of_le (by omega)] at h
      obtain ⟨rfl, hr⟩ := Proc.trace_ret.mp h
      obtain rfl := Except.ok.inj hr
      have hlen : payload.length = length := by omega
      exact ⟨by simp [hlen], hlen, by simp⟩

/-- What a run that returns a payload can be. -/
inductive Receiving (timeout : Nat) (cfg : Config) (payload : List UInt8) : Log → Prop where
  | single {first : Frame} {pci : UInt8} {rest : List UInt8} (hdata : first.data = pci :: rest)
      (htype : pci &&& 0xF0 = kTypeSF) (hlen : (pci &&& 0x0F).toNat ≤ rest.length)
      (hpayload : payload = rest.take (pci &&& 0x0F).toNat) :
      Receiving timeout cfg payload [.took first]
  | multi {first : Frame} {pci low : UInt8} {buf : List UInt8} {ls : Log}
      (hdata : first.data = pci :: low :: buf) (htype : pci &&& 0xF0 = kTypeFF)
      (hloop : (recvLoop cfg timeout (((pci &&& 0x0F).toNat <<< 8) ||| low.toNat)
        (((pci &&& 0x0F).toNat <<< 8) ||| low.toNat) buf 1 0).Trace ls (.ok payload)) :
      Receiving timeout cfg payload (.took first :: .sent (flowControl cfg) none :: ls)

theorem receiving_of_trace (h : (recv cfg timeout).Trace ls (.ok payload)) :
    Receiving timeout cfg payload ls := by
  rw [recv_eq] at h
  obtain ⟨ls₁, ls₂, res, rfl, hw, hrest⟩ := Proc.trace_await.mp h
  obtain ⟨first, rfl, rfl⟩ | ⟨err, rfl, rfl⟩ := hw.of_any
  · simp only [onFirst] at hrest
    split at hrest
    · obtain ⟨-, hr⟩ := Proc.trace_ret.mp hrest
      cases hr
    · rename_i pci rest hdata
      split_ifs at hrest with htype hlen htype'
      · obtain ⟨-, hr⟩ := Proc.trace_ret.mp hrest
        cases hr
      · obtain ⟨rfl, hr⟩ := Proc.trace_ret.mp hrest
        exact .single hdata htype (by omega) (Except.ok.inj hr)
      · split at hrest
        · obtain ⟨-, hr⟩ := Proc.trace_ret.mp hrest
          cases hr
        · obtain ⟨err, ls', rfl, hloop⟩ := Proc.trace_emit.mp hrest
          cases err with
          | some err =>
            obtain ⟨-, hr⟩ := Proc.trace_ret.mp hloop
            cases hr
          | none => exact .multi hdata htype' hloop
      · obtain ⟨-, hr⟩ := Proc.trace_ret.mp hrest
        cases hr
  · obtain ⟨-, hr⟩ := Proc.trace_ret.mp hrest
    cases hr

/-- A payload that is returned is put together as its first frame declares if and only if
that frame carries no more bytes than it declares. -/
theorem reassembled_iff (cfg : Config) (timeout : Nat)
    (h : (recv cfg timeout).Trace ls (.ok payload)) : Reassembled payload ls ↔ Fits ls := by
  have hne : kTypeSF ≠ kTypeFF := by decide
  cases receiving_of_trace h with
  | @single first pci rest hdata htype hlen hpayload =>
    have hfirst : isFirstFrame first = false := by simp [isFirstFrame, hdata, htype, hne]
    have hsingle : isSingleFrame first = true := by simp [isSingleFrame, hdata, htype]
    constructor
    · rintro - f hf hff
      obtain rfl := Option.some.inj hf
      simp [hfirst] at hff
    · intro _
      refine ⟨first, [], rfl, .inl hsingle, ?_, ?_, fun i cf hi => by simp at hi⟩
      · simpa [declaredLength, hfirst, hdata, hpayload] using hlen
      · simp [declaredLength, carried, hfirst, hdata, hpayload]
  | @multi first pci low buf ls hdata htype hloop =>
    have hfirst : isFirstFrame first = true := by simp [isFirstFrame, hdata, htype]
    have hcarried : carried first = buf := by simp [carried, hfirst, hdata]
    have hdeclared : declaredLength first = ((pci &&& 0x0F).toNat <<< 8) ||| low.toNat := by
      simp [declaredLength, hfirst, hdata]
    rw [← hdeclared] at hloop
    constructor
    · rintro ⟨f, rest, hls, hhonours⟩ f' hf' -
      obtain ⟨rfl, rfl⟩ := by simpa using hls
      obtain rfl := Option.some.inj hf'
      by_contra hover
      rw [hcarried] at hover
      rw [recvLoop_of_le (by omega)] at hloop
      obtain ⟨-, hr⟩ := Proc.trace_ret.mp hloop
      have hlength := hhonours.length_eq
      rw [Except.ok.inj hr] at hlength
      omega
    · intro hfits
      have hle : buf.length ≤ declaredLength first := hcarried ▸ hfits first rfl hfirst
      obtain ⟨hpayload, hlength, hnumbers⟩ := recvLoop_returns hle (by omega) hloop
      refine ⟨first, _, rfl, .inr hfirst, hlength, hcarried.symm ▸ hpayload, fun i cf hi => ?_⟩
      obtain ⟨hcf, hnum⟩ := hnumbers i cf hi
      exact ⟨hcf, by rw [hnum, Nat.add_comm]; rfl⟩

/-- A message of eight bytes, with a frame between its two that is dropped. -/
theorem reassembled_iff_eight :
    Reassembled (List.replicate 8 7)
        [.took (firstFrame {} (List.replicate 8 7)), .sent (flowControl {}) none,
          .dropped (flowControl {}), .took (consecutiveFrame {} (List.replicate 8 7) 6 1)] ↔
      Fits [.took (firstFrame {} (List.replicate 8 7)), .sent (flowControl {}) none,
        .dropped (flowControl {}), .took (consecutiveFrame {} (List.replicate 8 7) 6 1)] :=
  reassembled_iff {} 100 (@Proc.exec_trace _ _ _ (fun _ => none) (.relay .timeout) (recv {} 100) []
    [firstFrame {} (List.replicate 8 7), flowControl {},
      consecutiveFrame {} (List.replicate 8 7) 6 1]).1

/-- A first frame that declares two bytes and carries six is returned as it is. -/
theorem not_reassembled :
    ¬ ∀ (cfg : Config) (timeout : Nat) (ls : Log) (payload : List UInt8),
      (recv cfg timeout).Trace ls (.ok payload) → Reassembled payload ls := by
  intro h
  have htrace := (@Proc.exec_trace _ _ _ (fun _ => none) (.relay .timeout) (recv {} 100) []
    [{ data := [0x10, 2, 1, 2, 3, 4, 5, 6] }]).1
  obtain ⟨first, rest, hls, hhonours⟩ := h {} 100 _ [1, 2, 3, 4, 5, 6] htrace
  obtain ⟨hfirst, -⟩ := List.cons.inj hls
  obtain rfl := Label.took.inj hfirst
  exact absurd hhonours.length_eq (by decide)

end CppCan.IsoTp
