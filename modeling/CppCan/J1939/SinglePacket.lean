import CppCan.J1939.Bus

/-!
# Messages in a single frame

The identifier of a frame is the sum of its fields. What `send` puts into it is therefore
what `subscribe` takes out of it, and an identifier is rebuilt from what is taken out.
-/

namespace CppCan.J1939

open CppCan.Core CppCan.Relay

variable {priority : Priority} {pgn : PGN} {src dst : UInt8}

/-- A destination has its place between the PDU format and the source address. -/
theorem toNat_encodeId_or_dst (priority : Priority) (src dst : UInt8)
    (h : pgn.toNat / 2 ^ 8 % 256 < 240) :
    (encodeId priority pgn src ||| dst.toUInt32 <<< 8).toNat =
      (encodeId priority pgn src).toNat + dst.toNat * 2 ^ 8 := by
  have hid := toNat_encodeId priority pgn src
  have hdst : (dst.toUInt32 <<< 8).toNat = dst.toNat * 2 ^ 8 :=
    toNat_shiftLeft_byte (k := 8) (by decide) (by have := dst.toNat_lt; change _ * 2 ^ 8 < _; omega)
  have hsrcLt := src.toNat_lt
  have hdstLt := dst.toNat_lt
  have hbelow : (dst.toUInt32 <<< 8).toNat < 2 ^ 16 := by omega
  rw [if_pos h] at hid
  have hsplit : (encodeId priority pgn src).toNat =
      (priority.toNat % 8 * 2 ^ 10 + pgn.toNat / 2 ^ 16 % 2 * 2 ^ 8 + pgn.toNat / 2 ^ 8 % 256) *
        2 ^ 16 + src.toNat := by
    rw [hid]
    omega
  rw [toNat_or_between 8 16 (by omega) hsplit hsrcLt hdst hbelow, hdst]

/-- The frame of a message, with the destination in its identifier if there is one. -/
def singleFrame (src : UInt8) (f : Frame) : CppCan.Frame :=
  let id := encodeId f.priority f.pgn src
  { id := if pgnIsPeerToPeer f.pgn then id ||| f.dst.toUInt32 <<< 8 else id
    ext := true
    data := f.data }

/-- The identifier of a single frame by its fields; the byte below the PDU format is the
destination or the rest of the group. -/
theorem toNat_singleFrame_id (src : UInt8) (f : Frame) : (singleFrame src f).id.toNat =
    f.priority.toNat % 8 * 2 ^ 26 + f.pgn.toNat / 2 ^ 16 % 2 * 2 ^ 24 +
      f.pgn.toNat / 2 ^ 8 % 256 * 2 ^ 16 +
      (if pgnIsPeerToPeer f.pgn then f.dst.toNat else f.pgn.toNat % 256) * 2 ^ 8 + src.toNat := by
  have hid := toNat_encodeId f.priority f.pgn src
  have hiff := pgnIsPeerToPeer_iff f.pgn
  rw [singleFrame]
  dsimp only
  cases hp : pgnIsPeerToPeer f.pgn with
  | true =>
    have hpf := hiff.mp hp
    rw [if_pos hpf] at hid
    rw [if_pos rfl, if_pos rfl, toNat_encodeId_or_dst _ _ _ hpf]
    omega
  | false =>
    have hpf : ¬ f.pgn.toNat / 2 ^ 8 % 256 < 240 := fun h => by simp [hiff.mpr h] at hp
    rw [if_neg hpf] at hid
    rw [if_neg (by simp), if_neg (by simp)]
    omega

theorem send_single (src : UInt8) (f : Frame) (hdata : f.data.length ≤ 8) {σ : Type}
    (canSend : σ → CppCan.Frame → σ × Option ErrorCode) (s : σ) :
    send canSend src f s = canSend s (singleFrame src f) := by
  rw [send, if_neg (by omega)]
  rfl

/-- The byte below the PDU format holds the destination or the rest of the group. -/
theorem specific_lt (f : Frame) :
    (if pgnIsPeerToPeer f.pgn then f.dst.toNat else f.pgn.toNat % 256) < 256 := by
  split
  · exact f.dst.toNat_lt
  · exact Nat.mod_lt _ (by decide)

/-- The fields of a single frame are read back. -/
theorem decodeId_singleFrame (src : UInt8) (f : Frame) (hprio : f.priority ≤ 7)
    (hpgn : f.pgn < 0x20000) (hlow : pgnIsPeerToPeer f.pgn = true → f.pgn &&& 0xFF = 0) :
    decodeId (singleFrame src f).id = ⟨f.priority, f.pgn, src⟩ := by
  have hprio : f.priority.toNat ≤ 7 := UInt8.le_iff_toNat_le.mp hprio
  have hpgn : f.pgn.toNat < 0x20000 := UInt32.lt_iff_toNat_lt.mp hpgn
  have hiff := pgnIsPeerToPeer_iff f.pgn
  have hlow : pgnIsPeerToPeer f.pgn = true → f.pgn.toNat % 256 = 0 := by
    intro hp
    have hand := congrArg UInt32.toNat (hlow hp)
    rw [UInt32.toNat_and] at hand
    exact (Nat.and_two_pow_sub_one_eq_mod f.pgn.toNat 8).symm.trans hand
  obtain ⟨hpriority, hgroup, haddress⟩ := toNat_decodeId_of_sum (toNat_singleFrame_id src f)
    (Nat.mod_lt _ (by decide)) (Nat.mod_lt _ (by decide)) (Nat.mod_lt _ (by decide))
    (specific_lt f) src.toNat_lt
  generalize decodeId (singleFrame src f).id = d at hpriority hgroup haddress
  obtain ⟨priority, pgn, address⟩ := d
  dsimp only at hpriority hgroup haddress
  rw [DecodedID.mk.injEq, ← UInt8.toNat_inj, ← UInt32.toNat_inj, ← UInt8.toNat_inj, hpriority,
    hgroup, haddress]
  refine ⟨Nat.mod_eq_of_lt (by omega), ?_, rfl⟩
  -- the byte below the PDU format is free if and only if it is no part of the group
  cases hp : pgnIsPeerToPeer f.pgn with
  | true =>
    have hzero := hlow hp
    rw [if_pos (hiff.mp hp)]
    omega
  | false =>
    rw [if_neg (fun h => by simp [hiff.mpr h] at hp), if_neg Bool.false_ne_true]
    omega

/-- The destination is read back where there is one. -/
theorem dst_singleFrame (src : UInt8) (f : Frame) (hp : pgnIsPeerToPeer f.pgn = true) :
    (((singleFrame src f).id >>> 8) &&& 0xFF).toUInt8 = f.dst := by
  obtain ⟨-, -, -, hspecific, -⟩ := fields_of_sum (toNat_singleFrame_id src f)
    (Nat.mod_lt _ (by decide)) (Nat.mod_lt _ (by decide)) (Nat.mod_lt _ (by decide))
    (specific_lt f) src.toNat_lt
  have hfield : (((singleFrame src f).id >>> 8) &&& 0xFF).toUInt8.toNat =
      (singleFrame src f).id.toNat / 2 ^ 8 % 256 :=
    toNat_field _ 8 0xFF 8 (by decide) rfl (by omega)
  rw [← UInt8.toNat_inj, hfield, hspecific, if_pos hp]

theorem valid_singleFrame (src : UInt8) (f : Frame) (hdata : f.data.length ≤ 8) :
    (singleFrame src f).Valid := by
  have hid := toNat_singleFrame_id src f
  have hsrc := src.toNat_lt
  have hspecific := specific_lt f
  have hle : (singleFrame src f).id ≤ kCANMaxExtID := by
    rw [UInt32.le_iff_toNat_le, hid]
    change _ ≤ 0x1FFFFFFF
    omega
  rw [Frame.valid_iff rfl]
  exact ⟨fun _ => hle, nofun, nofun, nofun, fun _ => hdata, nofun, nofun, nofun, nofun⟩

/-- What `subscribe` hands over for a single frame. -/
theorem subscribeStep_singleFrame (src : UInt8) (f : Frame) (hprio : f.priority ≤ 7)
    (hpgn : f.pgn < 0x20000) (hlow : pgnIsPeerToPeer f.pgn = true → f.pgn &&& 0xFF = 0)
    {pgns : List PGN} (hmatch : matchesPgns f.pgn pgns = true) (out : Chan Frame) :
    subscribeStep pgns out (singleFrame src f) =
      (out.trySend { f with
        src := src
        dst := if pgnIsPeerToPeer f.pgn then f.dst else kBroadcastAddr }).1 := by
  have hext : (singleFrame src f).ext = true := rfl
  have hdata : (singleFrame src f).data = f.data := rfl
  rw [subscribeStep, hext, decodeId_singleFrame src f hprio hpgn hlow, hdata]
  dsimp only
  rw [hmatch]
  cases hp : pgnIsPeerToPeer f.pgn with
  | true =>
    rw [dst_singleFrame src f hp]
    rfl
  | false => rfl

/-- An identifier from what is extracted from another, with the destination if there is
one. -/
def rebuildId (id : UInt32) : UInt32 :=
  let d := decodeId id
  let dst := ((id >>> 8) &&& 0xFF).toUInt8
  if (id >>> 16) &&& 0xFF < 240 then encodeId d.priority d.pgn d.src ||| dst.toUInt32 <<< 8
  else encodeId d.priority d.pgn d.src

/-- An identifier with its reserved bit clear is the sum of its fields. -/
theorem sum_of_fields {n : Nat} (hlt : n < 0x20000000) (hbit : n / 2 ^ 25 % 2 = 0) :
    n / 2 ^ 26 % 8 * 2 ^ 26 + n / 2 ^ 24 % 2 * 2 ^ 24 + n / 2 ^ 16 % 256 * 2 ^ 16 +
      n / 2 ^ 8 % 256 * 2 ^ 8 + n % 256 = n := by
  omega

/-- The three fields of a group, taken from the sum that they make. -/
theorem fields_of_group {m dp pf ps : Nat} (h : m = dp * 2 ^ 16 + pf * 2 ^ 8 + ps)
    (hdp : dp < 2) (hpf : pf < 256) (hps : ps < 256) :
    m / 2 ^ 16 % 2 = dp ∧ m / 2 ^ 8 % 256 = pf ∧ m % 256 = ps := by
  omega

/-- Nothing of an identifier with its reserved bit clear is lost. -/
theorem rebuildId_eq (id : UInt32) (hid : id < 0x20000000) (hreserved : id &&& 0x2000000 = 0) :
    rebuildId id = id := by
  have hlt : id.toNat < 0x20000000 := UInt32.lt_iff_toNat_lt.mp hid
  have hbit : id.toNat / 2 ^ 25 % 2 = 0 := div_mod_of_and_eq_zero rfl hreserved
  have hpriority := toNat_decodeId_priority id
  have hgroup := toNat_decodeId_pgn id
  have haddress := toNat_decodeId_src id
  have hdst : ((id >>> 8) &&& 0xFF).toUInt8.toNat = id.toNat / 2 ^ 8 % 256 :=
    toNat_field id 8 0xFF 8 (by decide) rfl (by omega)
  have hformat : (id >>> 16) &&& 0xFF < 240 ↔ id.toNat / 2 ^ 16 % 256 < 240 := by
    rw [UInt32.lt_iff_toNat_lt, UInt32.toNat_and, UInt32.toNat_shiftRight,
      Nat.shiftRight_eq_div_pow]
    change (_ &&& (2 ^ 8 - 1)) < 240 ↔ _
    rw [Nat.and_two_pow_sub_one_eq_mod]
    rfl
  have hsum := sum_of_fields hlt hbit
  have hspecific : (if id.toNat / 2 ^ 16 % 256 < 240 then 0 else id.toNat / 2 ^ 8 % 256) < 256 := by
    split
    · decide
    · exact Nat.mod_lt _ (by decide)
  obtain ⟨hpage, hpf, hps⟩ := fields_of_group hgroup (Nat.mod_lt _ (by decide))
    (Nat.mod_lt _ (by decide)) hspecific
  have hcode := toNat_encodeId (decodeId id).priority (decodeId id).pgn (decodeId id).src
  rw [hpriority, haddress, hpage, hpf, hps, Nat.mod_mod] at hcode
  apply UInt32.toNat_inj.mp
  rw [rebuildId]
  by_cases h : id.toNat / 2 ^ 16 % 256 < 240
  · rw [if_pos h] at hcode
    rw [if_pos (hformat.mpr h), toNat_encodeId_or_dst _ _ _ (hpf.symm ▸ h), hcode, hdst,
      Nat.add_zero, Nat.add_right_comm, hsum]
  · rw [if_neg h, if_neg h] at hcode
    rw [if_neg (mt hformat.mp h), hcode, hsum]

/-- The one frame that `send` emits for a message of at most eight bytes is valid and is
decoded to the same message, and an identifier with its reserved bit clear is rebuilt from
its fields. -/
theorem singlePacket_roundTrip :
    (∀ (src : UInt8) (f : Frame), f.priority ≤ 7 → f.pgn < 0x20000 →
      (pgnIsPeerToPeer f.pgn = true → f.pgn &&& 0xFF = 0) → f.data.length ≤ 8 →
      ∃ cf : CppCan.Frame,
        (∀ (σ : Type) (canSend : σ → CppCan.Frame → σ × Option ErrorCode) (s : σ),
          send canSend src f s = canSend s cf) ∧
        cf.Valid ∧
        ∀ pgns out, matchesPgns f.pgn pgns = true →
          subscribeStep pgns out cf =
            (out.trySend { f with
              src := src
              dst := if pgnIsPeerToPeer f.pgn then f.dst else kBroadcastAddr }).1) ∧
      ∀ id : UInt32, id < 0x20000000 → id &&& 0x2000000 = 0 → rebuildId id = id := by
  constructor
  · intro src f hprio hpgn hlow hdata
    refine ⟨singleFrame src f, ?_, valid_singleFrame src f hdata, ?_⟩
    · intro σ canSend s
      exact send_single src f hdata canSend s
    · intro pgns out hmatch
      exact subscribeStep_singleFrame src f hprio hpgn hlow hmatch out
  · intro id hid hreserved
    exact rebuildId_eq id hid hreserved

/-- A request to address 0x17, and the identifier of a group for all. -/
theorem singlePacket_roundTrip_request :
    (∃ cf : CppCan.Frame,
      (∀ (σ : Type) (canSend : σ → CppCan.Frame → σ × Option ErrorCode) (s : σ),
        send canSend 0x42 ⟨6, 0xEA00, 0, 0x17, [0xCA, 0xFE, 0]⟩ s = canSend s cf) ∧
      cf.Valid ∧
      ∀ pgns out, matchesPgns 0xEA00 pgns = true →
        subscribeStep pgns out cf =
          (out.trySend ⟨6, 0xEA00, 0x42, 0x17, [0xCA, 0xFE, 0]⟩).1) ∧
      rebuildId 0x18FEF142 = 0x18FEF142 :=
  ⟨singlePacket_roundTrip.1 0x42 ⟨6, 0xEA00, 0, 0x17, [0xCA, 0xFE, 0]⟩ (by decide) (by decide)
      (by decide) (by decide),
    singlePacket_roundTrip.2 0x18FEF142 (by decide) (by decide)⟩

end CppCan.J1939
