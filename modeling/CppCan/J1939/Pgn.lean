import CppCan.Can.Frame
import CppCan.Core.Fields

/-!
# J1939 identifiers

The 29-bit identifier holds priority, data page, PDU format, PDU specific and
source address. For PDU formats below 240 the PDU-specific byte is a
destination and is not part of the parameter group number.
-/

namespace CppCan.J1939

open CppCan.Core

def kBroadcastAddr : UInt8 := 0xFF

/-- 0 is the highest priority, 7 the lowest. -/
abbrev Priority := UInt8

/-- Parameter group number. -/
abbrev PGN := UInt32

/-- A decoded J1939 message. -/
structure Frame where
  priority : Priority := 0
  pgn : PGN := 0
  src : UInt8 := 0
  dst : UInt8 := kBroadcastAddr
  data : List UInt8 := []
  deriving DecidableEq, Repr

/-- The fields extracted from an identifier. -/
structure DecodedID where
  priority : Priority
  pgn : PGN
  src : UInt8
  deriving DecidableEq, Repr

/-- Extract priority, parameter group and source address. -/
def decodeId (id : UInt32) : DecodedID :=
  let priority : Priority := ((id >>> 26) &&& 0x07).toUInt8
  let src := (id &&& 0xFF).toUInt8
  let pf := ((id >>> 16) &&& 0xFF).toUInt8
  let ps := ((id >>> 8) &&& 0xFF).toUInt8
  let dp := ((id >>> 24) &&& 0x01).toUInt8
  let pgn : PGN :=
    if pf < 240 then dp.toUInt32 <<< 16 ||| pf.toUInt32 <<< 8
    else dp.toUInt32 <<< 16 ||| pf.toUInt32 <<< 8 ||| ps.toUInt32
  ⟨priority, pgn, src⟩

/-- Build an identifier. The PDU-specific byte of the group has a place in it only if the
PDU format leaves no room for a destination. -/
def encodeId (priority : Priority) (pgn : PGN) (src : UInt8) : UInt32 :=
  let pf := ((pgn >>> 8) &&& 0xFF).toUInt8
  let ps := (pgn &&& 0xFF).toUInt8
  let dp := ((pgn >>> 16) &&& 0x01).toUInt8
  let id : UInt32 := 0
  let id := id ||| (priority &&& 0x07).toUInt32 <<< 26
  let id := id ||| dp.toUInt32 <<< 24
  let id := id ||| pf.toUInt32 <<< 16
  let id := if pf ≥ 240 then id ||| ps.toUInt32 <<< 8 else id
  id ||| src.toUInt32

/-- Whether messages of the group have a destination. -/
def pgnIsPeerToPeer (p : PGN) : Bool := (p >>> 8) &&& 0xFF < 240

/-- An empty list of groups lets every group through. -/
def matchesPgns (pgn : PGN) (filter : List PGN) : Bool :=
  filter.isEmpty || filter.any (· == pgn)

theorem toNat_decodeId_priority (id : UInt32) :
    (decodeId id).priority.toNat = id.toNat / 2 ^ 26 % 8 :=
  toNat_field id 26 0x07 3 (by decide) rfl (by omega)

theorem toNat_decodeId_src (id : UInt32) : (decodeId id).src.toNat = id.toNat % 256 :=
  toNat_lowByte id

/-- The group of an identifier. -/
theorem toNat_decodeId_pgn (id : UInt32) : (decodeId id).pgn.toNat =
    id.toNat / 2 ^ 24 % 2 * 2 ^ 16 + id.toNat / 2 ^ 16 % 256 * 2 ^ 8 +
      if id.toNat / 2 ^ 16 % 256 < 240 then 0 else id.toNat / 2 ^ 8 % 256 := by
  rw [decodeId]
  dsimp only
  have hdp : ((id >>> 24) &&& 0x01).toUInt8.toNat = id.toNat / 2 ^ 24 % 2 :=
    toNat_field id 24 0x01 1 (by decide) rfl (by omega)
  have hpf : ((id >>> 16) &&& 0xFF).toUInt8.toNat = id.toNat / 2 ^ 16 % 256 :=
    toNat_field id 16 0xFF 8 (by decide) rfl (by omega)
  have hps : ((id >>> 8) &&& 0xFF).toUInt8.toNat = id.toNat / 2 ^ 8 % 256 :=
    toNat_field id 8 0xFF 8 (by decide) rfl (by omega)
  generalize ((id >>> 24) &&& 0x01).toUInt8 = dp at hdp
  generalize ((id >>> 16) &&& 0xFF).toUInt8 = pf at hpf
  generalize ((id >>> 8) &&& 0xFF).toUInt8 = ps at hps
  have hdp16 : (dp.toUInt32 <<< 16).toNat = dp.toNat * 2 ^ 16 :=
    toNat_shiftLeft_byte (k := 16) (by decide) (by change _ * 2 ^ 16 < _; omega)
  have hpf8 : (pf.toUInt32 <<< 8).toNat = pf.toNat * 2 ^ 8 :=
    toNat_shiftLeft_byte (k := 8) (by decide) (by change _ * 2 ^ 8 < _; omega)
  have hhigh := toNat_or_low 16 hdp16 (b := pf.toUInt32 <<< 8) (by omega)
  have hlow := toNat_or_low 8 (a := dp.toUInt32 <<< 16 ||| pf.toUInt32 <<< 8) (b := ps.toUInt32)
    (m := dp.toNat * 2 ^ 8 + pf.toNat) (by omega) (by rw [UInt8.toNat_toUInt32]; omega)
  rw [UInt8.toNat_toUInt32] at hlow
  have hlt : pf < 240 ↔ pf.toNat < 240 := UInt8.lt_iff_toNat_lt
  by_cases h : pf.toNat < 240
  · rw [if_pos (hlt.mpr h), if_pos (by omega), hhigh]
    omega
  · rw [if_neg (mt hlt.mp h), if_neg (by omega), hlow, hhigh]
    omega

/-- The five fields of an identifier, taken from the sum that they make. -/
theorem fields_of_sum {n p dp pf ps s : Nat}
    (h : n = p * 2 ^ 26 + dp * 2 ^ 24 + pf * 2 ^ 16 + ps * 2 ^ 8 + s)
    (hp : p < 8) (hdp : dp < 2) (hpf : pf < 256) (hps : ps < 256) (hs : s < 256) :
    n / 2 ^ 26 % 8 = p ∧ n / 2 ^ 24 % 2 = dp ∧ n / 2 ^ 16 % 256 = pf ∧ n / 2 ^ 8 % 256 = ps ∧
      n % 256 = s := by
  omega

/-- What is extracted from an identifier that is the sum of its fields. -/
theorem toNat_decodeId_of_sum {id : UInt32} {p dp pf ps s : Nat}
    (h : id.toNat = p * 2 ^ 26 + dp * 2 ^ 24 + pf * 2 ^ 16 + ps * 2 ^ 8 + s)
    (hp : p < 8) (hdp : dp < 2) (hpf : pf < 256) (hps : ps < 256) (hs : s < 256) :
    (decodeId id).priority.toNat = p ∧
      (decodeId id).pgn.toNat = dp * 2 ^ 16 + pf * 2 ^ 8 + (if pf < 240 then 0 else ps) ∧
      (decodeId id).src.toNat = s := by
  obtain ⟨hpriority, hpage, hformat, hspecific, haddress⟩ := fields_of_sum h hp hdp hpf hps hs
  rw [toNat_decodeId_priority, toNat_decodeId_pgn, toNat_decodeId_src, hpriority, hpage, hformat,
    hspecific, haddress]
  exact ⟨rfl, rfl, rfl⟩

/-- An identifier that is built from its fields. -/
theorem toNat_encodeId (priority : Priority) (pgn : PGN) (src : UInt8) :
    (encodeId priority pgn src).toNat =
      priority.toNat % 8 * 2 ^ 26 + pgn.toNat / 2 ^ 16 % 2 * 2 ^ 24 +
        pgn.toNat / 2 ^ 8 % 256 * 2 ^ 16 +
        (if pgn.toNat / 2 ^ 8 % 256 < 240 then 0 else pgn.toNat % 256 * 2 ^ 8) + src.toNat := by
  rw [encodeId]
  have hpf : ((pgn >>> 8) &&& 0xFF).toUInt8.toNat = pgn.toNat / 2 ^ 8 % 256 :=
    toNat_field pgn 8 0xFF 8 (by decide) rfl (by omega)
  have hps := toNat_lowByte pgn
  have hdp : ((pgn >>> 16) &&& 0x01).toUInt8.toNat = pgn.toNat / 2 ^ 16 % 2 :=
    toNat_field pgn 16 0x01 1 (by decide) rfl (by omega)
  have hprio : (priority &&& 0x07).toNat = priority.toNat % 8 :=
    Nat.and_two_pow_sub_one_eq_mod priority.toNat 3
  generalize ((pgn >>> 8) &&& 0xFF).toUInt8 = pf at hpf
  generalize (pgn &&& 0xFF).toUInt8 = ps at hps
  generalize ((pgn >>> 16) &&& 0x01).toUInt8 = dp at hdp
  generalize priority &&& 0x07 = prio at hprio
  have hprio26 : (prio.toUInt32 <<< 26).toNat = prio.toNat * 2 ^ 26 :=
    toNat_shiftLeft_byte (k := 26) (by decide) (by change _ * 2 ^ 26 < _; omega)
  have hdp24 : (dp.toUInt32 <<< 24).toNat = dp.toNat * 2 ^ 24 :=
    toNat_shiftLeft_byte (k := 24) (by decide) (by change _ * 2 ^ 24 < _; omega)
  have hpf16 : (pf.toUInt32 <<< 16).toNat = pf.toNat * 2 ^ 16 :=
    toNat_shiftLeft_byte (k := 16) (by decide) (by change _ * 2 ^ 16 < _; omega)
  have hps8 : (ps.toUInt32 <<< 8).toNat = ps.toNat * 2 ^ 8 :=
    toNat_shiftLeft_byte (k := 8) (by decide) (by change _ * 2 ^ 8 < _; omega)
  rw [UInt32.zero_or]
  have h24 := toNat_or_low 26 hprio26 (b := dp.toUInt32 <<< 24) (by omega)
  generalize prio.toUInt32 <<< 26 ||| dp.toUInt32 <<< 24 = page at h24
  have h16 := toNat_or_low 24 (a := page) (b := pf.toUInt32 <<< 16)
    (m := prio.toNat * 2 ^ 2 + dp.toNat) (by omega) (by omega)
  generalize page ||| pf.toUInt32 <<< 16 = format at h16
  have h8 := toNat_or_low 16 (a := format) (b := ps.toUInt32 <<< 8)
    (m := (prio.toNat * 2 ^ 2 + dp.toNat) * 2 ^ 8 + pf.toNat) (by omega) (by omega)
  have hsrc : src.toUInt32.toNat = src.toNat := UInt8.toNat_toUInt32 src
  have hsrcLt := src.toNat_lt
  have hge : pf ≥ 240 ↔ 240 ≤ pf.toNat := UInt8.le_iff_toNat_le
  by_cases h : 240 ≤ pf.toNat
  · rw [if_pos (hge.mpr h), if_neg (by omega)]
    generalize format ||| ps.toUInt32 <<< 8 = specific at h8
    rw [toNat_or_low 8
      (m := ((prio.toNat * 2 ^ 2 + dp.toNat) * 2 ^ 8 + pf.toNat) * 2 ^ 8 + ps.toNat)
      (by omega) (by omega)]
    omega
  · rw [if_neg (mt hge.mp h), if_pos (by omega)]
    rw [toNat_or_low 8 (m := ((prio.toNat * 2 ^ 2 + dp.toNat) * 2 ^ 8 + pf.toNat) * 2 ^ 8)
      (by omega) (by omega)]
    omega

theorem pgnIsPeerToPeer_iff (p : PGN) :
    pgnIsPeerToPeer p = true ↔ p.toNat / 2 ^ 8 % 256 < 240 := by
  have hfield : ((p >>> 8) &&& 0xFF).toNat = p.toNat / 2 ^ 8 % 2 ^ 8 := by
    rw [UInt32.toNat_and, UInt32.toNat_shiftRight, Nat.shiftRight_eq_div_pow]
    exact Nat.and_two_pow_sub_one_eq_mod _ 8
  rw [pgnIsPeerToPeer, decide_eq_true_iff, UInt32.lt_iff_toNat_lt, hfield]
  rfl

end CppCan.J1939
