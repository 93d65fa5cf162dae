import CppCan.Can.Frame
import CppCan.Relay.Message

/-!
# Frames as relay messages

The identifier becomes a decimal numeral and the data the payload; the other
fields become metadata, most of them only when they differ from their default.
A message is read back leniently, but its frame has to be valid.
-/

namespace CppCan

open CppCan.Core CppCan.Relay

/-- The text of a flag. -/
def boolText (b : Bool) : Text := if b then "true".toList else "false".toList

/-- The message of a frame at the time `now`. -/
def toMessage (now : Int) (f : Frame) : Message :=
  let m : Meta := ∅
  let m := m.insert "can.ext".toList (boolText f.ext)
  let m := m.insert "can.fd".toList (boolText f.fd)
  let m := m.insert "can.rtr".toList (boolText f.rtr)
  let m := m.insert "can.brs".toList (boolText f.brs)
  let m := if f.esi then m.insert "can.esi".toList "true".toList else m
  let m := if f.xl then m.insert "can.xl".toList "true".toList else m
  let m := if f.sdt ≠ 0 then m.insert "can.sdt".toList (decimal f.sdt.toNat) else m
  let m := if f.vcid ≠ 0 then m.insert "can.vcid".toList (decimal f.vcid.toNat) else m
  let m := if f.af ≠ 0 then m.insert "can.af".toList (decimal f.af.toNat) else m
  let m := if f.sec then m.insert "can.sec".toList "true".toList else m
  { protocol := .CAN
    id := decimal f.id.toNat
    payload := f.data
    timestamp := now
    metadata := m }

/-- A flag of the metadata; everything but "true" counts as unset. -/
def metaFlag (m : Message) (key : Text) : Bool := m.metadata.lookup key = some "true".toList

/-- A number of the metadata; zero if it is missing. -/
def metaNumber (m : Message) (key : Text) : Except ErrInvalidFrame UInt64 :=
  match m.metadata.lookup key with
  | none => .ok 0
  | some v =>
    match stoull v with
    | some n => .ok n
    | none => .error ⟨"invalid " ++ String.ofList key ++ ": " ++ String.ofList v⟩

def fromMessage (m : Message) : Except ErrInvalidFrame Frame := do
  let idVal ← match stoull m.id with
    | some n => .ok n
    | none => .error ⟨"invalid CAN ID: " ++ String.ofList m.id⟩
  if idVal > kCANMaxExtID.toUInt64 then throw ⟨"invalid CAN ID: " ++ String.ofList m.id⟩
  let sdt ← metaNumber m "can.sdt".toList
  let vcid ← metaNumber m "can.vcid".toList
  let af ← metaNumber m "can.af".toList
  let f : Frame :=
    { id := idVal.toUInt32
      data := m.payload
      ext := metaFlag m "can.ext".toList
      fd := metaFlag m "can.fd".toList
      rtr := metaFlag m "can.rtr".toList
      brs := metaFlag m "can.brs".toList
      esi := metaFlag m "can.esi".toList
      xl := metaFlag m "can.xl".toList
      sdt := sdt.toUInt8
      vcid := vcid.toUInt8
      af := af.toUInt32
      sec := metaFlag m "can.sec".toList }
  validateFrame f
  return f

variable {now : Int} {f : Frame}

/-- What the metadata of a frame hold under each key. -/
theorem lookup_toMessage (now : Int) (f : Frame) (key : Text) :
    (toMessage now f).metadata.lookup key =
      if f.sec ∧ key = "can.sec".toList then some "true".toList
      else if f.af ≠ 0 ∧ key = "can.af".toList then some (decimal f.af.toNat)
      else if f.vcid ≠ 0 ∧ key = "can.vcid".toList then some (decimal f.vcid.toNat)
      else if f.sdt ≠ 0 ∧ key = "can.sdt".toList then some (decimal f.sdt.toNat)
      else if f.xl ∧ key = "can.xl".toList then some "true".toList
      else if f.esi ∧ key = "can.esi".toList then some "true".toList
      else if key = "can.brs".toList then some (boolText f.brs)
      else if key = "can.rtr".toList then some (boolText f.rtr)
      else if key = "can.fd".toList then some (boolText f.fd)
      else if key = "can.ext".toList then some (boolText f.ext)
      else none := by
  simp only [toMessage, lookup_insert_if, lookup_insert, AList.lookup_empty]

/-- A flag that is always written is read back. -/
theorem boolText_eq_true {b : Bool} : boolText b = ['t', 'r', 'u', 'e'] ↔ b = true := by
  cases b <;> decide

/-- The flags are read back. -/
theorem metaFlag_toMessage (now : Int) (f : Frame) :
    metaFlag (toMessage now f) "can.ext".toList = f.ext ∧
    metaFlag (toMessage now f) "can.fd".toList = f.fd ∧
    metaFlag (toMessage now f) "can.rtr".toList = f.rtr ∧
    metaFlag (toMessage now f) "can.brs".toList = f.brs ∧
    metaFlag (toMessage now f) "can.esi".toList = f.esi ∧
    metaFlag (toMessage now f) "can.xl".toList = f.xl ∧
    metaFlag (toMessage now f) "can.sec".toList = f.sec := by
  simp [metaFlag, lookup_toMessage, boolText_eq_true]

/-- A number that is written only when it is not zero is read back. -/
theorem metaNumber_eq {m : Message} {key : Text} {n : Nat} (hn : n < 2 ^ 64)
    (h : m.metadata.lookup key = if n ≠ 0 then some (decimal n) else none) :
    metaNumber m key = .ok (UInt64.ofNat n) := by
  rw [metaNumber, h]
  by_cases h0 : n = 0
  · subst h0
    rfl
  · simp only [if_pos h0, stoull_decimal hn]

/-- The numbers are read back. -/
theorem metaNumber_toMessage (now : Int) (f : Frame) :
    metaNumber (toMessage now f) "can.sdt".toList = .ok (UInt64.ofNat f.sdt.toNat) ∧
    metaNumber (toMessage now f) "can.vcid".toList = .ok (UInt64.ofNat f.vcid.toNat) ∧
    metaNumber (toMessage now f) "can.af".toList = .ok (UInt64.ofNat f.af.toNat) := by
  have hsdt : f.sdt.toNat ≠ 0 ↔ f.sdt ≠ 0 := by simp [← UInt8.toNat_inj]
  have hvcid : f.vcid.toNat ≠ 0 ↔ f.vcid ≠ 0 := by simp [← UInt8.toNat_inj]
  have haf : f.af.toNat ≠ 0 ↔ f.af ≠ 0 := by simp [← UInt32.toNat_inj]
  refine ⟨metaNumber_eq ?_ ?_, metaNumber_eq ?_ ?_, metaNumber_eq ?_ ?_⟩
  · exact lt_trans f.sdt.toNat_lt (by decide)
  · rw [lookup_toMessage]
    simp [hsdt]
  · exact lt_trans f.vcid.toNat_lt (by decide)
  · rw [lookup_toMessage]
    simp [hvcid]
  · exact lt_trans f.af.toNat_lt (by decide)
  · rw [lookup_toMessage]
    simp [haf]

/-- What `fromMessage` reads of a message. -/
theorem fromMessage_congr {m m' : Message} (hid : m.id = m'.id) (hpayload : m.payload = m'.payload)
    (hmeta : ∀ key, m.metadata.lookup key = m'.metadata.lookup key) :
    fromMessage m = fromMessage m' := by
  simp only [fromMessage, metaFlag, metaNumber, hid, hpayload, hmeta]

/-- A valid frame is read back from its message. -/
theorem fromMessage_toMessage (now : Int) (hv : f.Valid) :
    fromMessage (toMessage now f) = .ok f := by
  obtain ⟨hext, hfd, hrtr, hbrs, hesi, hxl, hsec⟩ := metaFlag_toMessage now f
  obtain ⟨hsdt, hvcid, haf⟩ := metaNumber_toMessage now f
  have hid : stoull (toMessage now f).id = some (UInt64.ofNat f.id.toNat) :=
    stoull_decimal (lt_trans f.id.toNat_lt (by decide))
  have hle : ¬ UInt64.ofNat f.id.toNat > kCANMaxExtID.toUInt64 := by
    have hid := UInt32.le_iff_toNat_le.mp hv.id_le
    rw [gt_iff_lt, UInt64.not_lt, UInt64.le_iff_toNat_le, UInt32.toNat_toUInt64,
      UInt64.toNat_ofNat_of_lt' (lt_trans f.id.toNat_lt (by decide))]
    exact hid
  have hframe : ({
      id := (UInt64.ofNat f.id.toNat).toUInt32
      data := (toMessage now f).payload
      ext := f.ext
      fd := f.fd
      rtr := f.rtr
      brs := f.brs
      esi := f.esi
      xl := f.xl
      sdt := (UInt64.ofNat f.sdt.toNat).toUInt8
      vcid := (UInt64.ofNat f.vcid.toNat).toUInt8
      af := (UInt64.ofNat f.af.toNat).toUInt32
      sec := f.sec } : Frame) = f := by
    have hid32 : (UInt64.ofNat f.id.toNat).toUInt32 = f.id := by simp
    have hsdt8 : (UInt64.ofNat f.sdt.toNat).toUInt8 = f.sdt := by simp
    have hvcid8 : (UInt64.ofNat f.vcid.toNat).toUInt8 = f.vcid := by simp
    have haf32 : (UInt64.ofNat f.af.toNat).toUInt32 = f.af := by simp
    have hpayload : (toMessage now f).payload = f.data := rfl
    rw [hid32, hsdt8, hvcid8, haf32, hpayload]
  have hvalid : validateFrame f = .ok () := hv
  simp only [fromMessage, hid, hext, hfd, hrtr, hbrs, hesi, hxl, hsec, hsdt, hvcid, haf, ok_bind,
    if_neg hle, hframe, hvalid]
  rfl

end CppCan
