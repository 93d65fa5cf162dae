import CppCan.Dbc.RoundTrip
import CppCan.Dbc.Signals

/-!
# Decoding with a parsed database

Whatever the comments and blank lines in a text and whatever the units of its signals, data
of one of its messages is decoded to one value for each signal: the number that stands in the
data where the definition says, scaled in double precision by the factor and the offset that are
written there.
-/

namespace CppCan.Dbc

open CppCan.Core

/-- `static_cast<double>(n) * factor + offset`, rounded after each step; what is no number is the
quiet NaN. -/
def physical (n : Int) (factor offset : Double) : Double :=
  ⟨(Float.Model.ofInt n * .ofBits factor.bits + .ofBits offset.bits).toBits⟩

def Signal.decode (sig : Signal) (data : List UInt8) : Except Undefined Double :=
  (sig.scaled data).map fun n => physical n sig.factor sig.offset

/-- `DB::message`. -/
def DB.message (db : DB) (id : UInt32) : Option Message := db.messages.lookup id

/-- The values of signals that are visited one after another. -/
def decodeAll (data : List UInt8) (signals : List (Text × Signal)) :
    Except Undefined (Finmap fun _ : Text => Double) :=
  signals.foldlM (fun result e => (e.2.decode data).map (result.insert e.1 ·)) ∅

/-- `DB::decode`. The signals of a message are visited in some order. -/
def DB.decode (visit : (Finmap fun _ : Text => Signal) → List (Text × Signal)) (db : DB)
    (id : UInt32) (data : List UInt8) : Except Undefined (Finmap fun _ : Text => Double) :=
  match db.message id with
  | none => .ok ∅
  | some msg => decodeAll data (visit msg.signals)

/-- Every entry of a map is visited once. -/
structure Visits (visit : (Finmap fun _ : Text => Signal) → List (Text × Signal)) : Prop where
  mem_iff : ∀ signals name sig, (name, sig) ∈ visit signals ↔ signals.lookup name = some sig
  nodup : ∀ signals, ((visit signals).map Prod.fst).Nodup

/-- The number that stands in the data. -/
def SignalDef.number (s : SignalDef) (data : List UInt8) : Int :=
  let raw := rawValue data s.startBit.toInt.toNat s.length.toInt.toNat s.byteOrder
  if s.isSigned then twosComplement raw s.length.toInt.toNat else raw

/-- The signal is made of 1 to 64 bits, and if it is signed and longer than 62 bits its number
is not negative. -/
structure SignalDef.InRange (s : SignalDef) (data : List UInt8) : Prop where
  start_nonneg : 0 ≤ s.startBit.toInt
  length_pos : 1 ≤ s.length.toInt
  length_le : s.length.toInt ≤ 64
  sign : s.isSigned = true → s.length.toInt ≤ 62 ∨ 0 ≤ s.number data

variable {s : SignalDef} {data : List UInt8} {start len : Nat}

/-- A field of `len` bits is below `2 ^ len`. -/
theorem rawValue_lt (data : List UInt8) (start len : Nat) (order : ByteOrder) :
    rawValue data start len order < 2 ^ len := by
  apply Nat.lt_pow_two_of_testBit
  intro k hk
  rw [testBit_rawValue, decide_eq_false (by omega), Bool.false_and]

/-- A two's complement number is negative if its top bit is set. -/
theorem twosComplement_nonneg_iff {raw : Nat} (hlt : raw < 2 ^ len) :
    0 ≤ twosComplement raw len ↔ raw.testBit (len - 1) = false := by
  have hcast : (raw : Int) < 2 ^ len := by exact_mod_cast hlt
  unfold twosComplement
  cases raw.testBit (len - 1) with
  | true => simp only [if_true, reduceCtorEq, iff_false]; omega
  | false => simp

/-- The raw value of a signal in range is the field of the data. -/
theorem SignalDef.InRange.extracts (h : s.InRange data) (hsize : data.length < 2 ^ 28) :
    ∃ raw, extractRaw data s.startBit s.length s.byteOrder = .ok raw ∧
      raw.toNat = rawValue data s.startBit.toInt.toNat s.length.toInt.toNat s.byteOrder := by
  obtain ⟨hstart, hpos, hle, -⟩ := h
  have hs : s.startBit.toInt = s.startBit.toInt.toNat := (Int.toNat_of_nonneg hstart).symm
  have hl : s.length.toInt = s.length.toInt.toNat := (Int.toNat_of_nonneg (by omega)).symm
  obtain ⟨raw, hraw⟩ := extractRaw_ok s.byteOrder hsize hs hl (by omega) (by omega)
  refine ⟨raw, hraw, Nat.eq_of_testBit_eq fun k => ?_⟩
  rw [testBit_extractRaw hs hl (by omega) (by omega) hraw, testBit_rawValue, bitWithin_of_lt hsize]

/-- The number that is scaled is the one that stands in the data. -/
theorem SignalDef.scaled_read (h : s.InRange data) (hsize : data.length < 2 ^ 28) :
    s.read.scaled data = .ok (s.number data) := by
  obtain ⟨raw, hraw, hvalue⟩ := h.extracts hsize
  obtain ⟨hstart, hpos, hle, hsign⟩ := h
  have hl : s.length.toInt = s.length.toInt.toNat := (Int.toNat_of_nonneg (by omega)).symm
  have hlt := rawValue_lt data s.startBit.toInt.toNat s.length.toInt.toNat s.byteOrder
  rw [number]
  rw [number] at hsign
  rw [← hvalue] at hlt hsign ⊢
  cases hsigned : s.isSigned with
  | false =>
    have hraw' : extractRaw data s.read.startBit s.read.length s.read.byteOrder = .ok raw := hraw
    have hrange : ¬ (s.read.length.toInt ≤ 0 ∨ 64 < s.read.length.toInt) := by
      change ¬ (s.length.toInt ≤ 0 ∨ 64 < s.length.toInt)
      omega
    rw [Signal.scaled, hraw', ok_bind, if_neg hrange, if_neg]
    · rfl
    · change ¬ s.isSigned = true
      simp [hsigned]
  | true =>
    rw [hsigned, if_pos rfl] at hsign
    rw [if_pos rfl, twosComplement,
      scaled_of_isSigned (show s.read.length.toInt = s.length.toInt.toNat from hl) (by omega)
        (by omega) hraw hsigned]
    cases htop : raw.toNat.testBit (s.length.toInt.toNat - 1) with
    | false =>
      rw [if_neg Bool.false_ne_true, if_neg Bool.false_ne_true,
        toSigned_of_top_clear (by omega) hlt htop]
    | true =>
      have hshort : s.length.toInt ≤ 62 := by
        refine (hsign rfl).resolve_right fun hnonneg => ?_
        exact absurd (htop.symm.trans ((twosComplement_nonneg_iff hlt).mp hnonneg)) (by simp)
      rw [if_pos rfl, if_pos rfl, correction_eq (by omega) hlt]

variable {visit : (Finmap fun _ : Text => Signal) → List (Text × Signal)} {m : MessageDef}

/-- The value of a signal by its definition. -/
def SignalDef.value (data : List UInt8) (s : SignalDef) : Double :=
  physical (s.number data) s.factor.value s.offset.value

/-- In whichever order the signals of a message are visited, each gets its value. -/
theorem MessageDef.decodeAll_eq (hvisit : Visits visit) (hsize : data.length < 2 ^ 28)
    (hrange : ∀ s ∈ m.signals, s.InRange data) :
    ∃ result, decodeAll data (visit (m.message SignalDef.read).signals) = .ok result ∧
      ∀ name, result.lookup name =
        (m.signals.find? (·.name.text = name)).map (SignalDef.value data) := by
  have hlookup : ∀ name, (m.message SignalDef.read).signals.lookup name =
      (m.signals.find? (·.name.text = name)).map SignalDef.read := lookup_collect m.nodup
  generalize (m.message SignalDef.read).signals = signals at hlookup
  let value : Text × Signal → Double := fun e =>
    ((m.signals.find? (·.name.text = e.1)).map (SignalDef.value data)).getD .zero
  have hvalues : ∀ e ∈ visit signals, e.2.decode data = .ok (value e) := by
    rintro ⟨name, sig⟩ he
    have hsig := (hvisit.mem_iff signals name sig).mp he
    rw [hlookup] at hsig
    obtain ⟨s, hs, rfl⟩ := Option.map_eq_some_iff.mp hsig
    have hscaled := SignalDef.scaled_read (hrange s (List.mem_of_find?_eq_some hs)) hsize
    simp only [Signal.decode, hscaled, value, hs]
    rfl
  refine ⟨collect Prod.fst value (visit signals), foldlM_insert hvalues ∅, fun name => ?_⟩
  rw [lookup_collect (hvisit.nodup signals)]
  cases hfind : (visit signals).find? (·.1 = name) with
  | none =>
    have hnone : signals.lookup name = none := by
      cases h : signals.lookup name with
      | none => rfl
      | some sig =>
        have hmem := (hvisit.mem_iff signals name sig).mpr h
        simpa using List.find?_eq_none.mp hfind _ hmem
    rw [hlookup, Option.map_eq_none_iff] at hnone
    rw [hnone]
    rfl
  | some e =>
    obtain rfl : e.1 = name := by simpa using List.find?_some hfind
    have hsig := (hvisit.mem_iff signals e.1 e.2).mp (List.mem_of_find?_eq_some hfind)
    rw [hlookup] at hsig
    obtain ⟨s, hs, -⟩ := Option.map_eq_some_iff.mp hsig
    simp only [Option.map_some, value, hs, Option.getD_some]

/-- A text with definitions, comments and blank lines is parsed to a database that decodes the
data of each message by the definitions of its signals, whatever their units, and gives nothing
for identifiers of no message. -/
theorem decode_written (visit : (Finmap fun _ : Text => Signal) → List (Text × Signal))
    (hvisit : Visits visit) (defs : Definitions) (lines : List Text)
    (hlines : Padded defs.lines lines) (data : List UInt8) (hsize : data.length < 2 ^ 28) :
    ∃ db, parse (unlines lines) = .ok db ∧
      (∀ m ∈ defs.messages, (∀ s ∈ m.signals, s.InRange data) →
        ∃ result, db.decode visit m.id data = .ok result ∧
          ∀ name, result.lookup name =
            (m.signals.find? (·.name.text = name)).map (SignalDef.value data)) ∧
      ∀ id, (∀ m ∈ defs.messages, m.id ≠ id) → db.decode visit id data = .ok ∅ := by
  refine ⟨_, parse_unlines hlines, fun m hm hrange => ?_, fun id hid => ?_⟩
  · obtain ⟨result, hrun, hresult⟩ := MessageDef.decodeAll_eq hvisit hsize hrange
    have hmessage : (defs.dbWith SignalDef.read).message m.id =
        some (m.message SignalDef.read) := lookup_storeAll ∅ defs.nodup hm
    refine ⟨result, ?_, hresult⟩
    rw [DB.decode, hmessage]
    exact hrun
  · have hmessage : (defs.dbWith SignalDef.read).message id = none :=
      lookup_storeAll_of_ne ∅ hid
    rw [DB.decode, hmessage]

/-- The entries of a map in some order. -/
noncomputable def entriesOf (signals : Finmap fun _ : Text => Signal) : List (Text × Signal) :=
  signals.entries.toList.map fun e => (e.1, e.2)

theorem visits_entriesOf : Visits entriesOf where
  mem_iff signals name sig := by
    rw [Finmap.lookup_eq_some_iff, ← Multiset.mem_toList, entriesOf, List.mem_map]
    constructor
    · rintro ⟨e, he, heq⟩
      obtain ⟨rfl, rfl⟩ := Prod.mk.inj heq
      exact he
    · intro h
      exact ⟨_, h, rfl⟩
  nodup signals := by
    have hkeys := signals.nodupKeys
    rw [← Multiset.coe_toList signals.entries, Multiset.coe_nodupKeys] at hkeys
    rw [entriesOf, List.map_map]
    exact hkeys

/-- A unit of which only the first word is read. -/
def revPerMin : UnitName := .ofText "rev per min".toList (by decide)

/-- The number 8000 with the factor 0.25 is the value 2000. -/
theorem decode_written_engine :
    ∃ db, parse (unlines ("// speeds".toList :: (engineData revPerMin).lines)) = .ok db ∧
      ∃ result, db.decode entriesOf 256 [0x40, 0x1F] = .ok result ∧
        result.lookup "EngineSpeed".toList = some ⟨0x409F400000000000⟩ := by
  obtain ⟨db, hparse, hdecode, -⟩ := decode_written entriesOf visits_entriesOf
    (engineData revPerMin) ("// speeds".toList :: (engineData revPerMin).lines)
    (.padding ⟨by decide, [], _, rfl, by simp, .inr ⟨_, rfl⟩⟩ (.line _ (.line _ .nil)))
    [0x40, 0x1F] (by decide)
  obtain ⟨result, hrun, hlookup⟩ := hdecode _ List.mem_cons_self fun s hs => by
    obtain rfl := List.mem_singleton.mp hs
    exact ⟨by decide, by decide, by decide, nofun⟩
  exact ⟨db, hparse, result, hrun, (hlookup _).trans (by decide +kernel)⟩

end CppCan.Dbc
