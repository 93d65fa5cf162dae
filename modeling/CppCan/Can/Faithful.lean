import CppCan.Can.Message
import Mathlib.Data.List.TakeWhile

/-!
# What a message is read as

A number is read from the head of its text and stored in a field of fixed width.
The frame therefore shows what the message says exactly if each text is a numeral
from its first character to its last and its value fits the field.
-/

namespace CppCan

open CppCan.Core CppCan.Relay

/-- The text consists of decimal digits and its value is `n`. -/
structure IsNumeralOf (s : Text) (n : Nat) : Prop where
  ne_nil : s ≠ []
  digits : ∀ c ∈ s, c.isDigit = true
  value : Nat.ofDigitChars 10 s 0 = n

/-- The numbers of the frame are the numerals of the message. -/
structure Faithful (m : Message) (f : Frame) : Prop where
  id : IsNumeralOf m.id f.id.toNat
  sdt : ∀ v, m.metadata.lookup "can.sdt".toList = some v → IsNumeralOf v f.sdt.toNat
  vcid : ∀ v, m.metadata.lookup "can.vcid".toList = some v → IsNumeralOf v f.vcid.toNat
  af : ∀ v, m.metadata.lookup "can.af".toList = some v → IsNumeralOf v f.af.toNat

/-- `strtoull` begins at the first character, reads up to the end and finds a number
of at most `bound`. -/
def readWhole (bound : Nat) (s : Text) : Bool :=
  match s.head?, strtoull s with
  | some c, some ⟨n, false, []⟩ => c.isDigit && n.toNat ≤ bound
  | _, _ => false

/-- Each number of the message is read as a whole and fits its field. -/
structure ReadWhole (m : Message) : Prop where
  id : readWhole kCANMaxExtID.toNat m.id = true
  sdt : ∀ v, m.metadata.lookup "can.sdt".toList = some v → readWhole 0xFF v = true
  vcid : ∀ v, m.metadata.lookup "can.vcid".toList = some v → readWhole 0xFF v = true
  af : ∀ v, m.metadata.lookup "can.af".toList = some v → readWhole 0xFFFFFFFF v = true

variable {m : Message} {f : Frame} {s v key : Text} {n : UInt64} {k bound : Nat}

/-- An accepted message: the frame holds what `stoull` reads, cut to the width of each
field. -/
theorem fromMessage_eq_ok (h : fromMessage m = .ok f) :
    (∃ n, stoull m.id = some n ∧ n.toNat ≤ kCANMaxExtID.toNat ∧ f.id = n.toUInt32) ∧
    (∃ n, metaNumber m "can.sdt".toList = .ok n ∧ f.sdt = n.toUInt8) ∧
    (∃ n, metaNumber m "can.vcid".toList = .ok n ∧ f.vcid = n.toUInt8) ∧
    ∃ n, metaNumber m "can.af".toList = .ok n ∧ f.af = n.toUInt32 := by
  unfold fromMessage at h
  split at h
  · rename_i id hid
    rw [ok_bind] at h
    obtain ⟨hle, h⟩ := check_eq_ok.mp h
    obtain ⟨sdt, hsdt, h⟩ := bind_eq_ok.mp h
    obtain ⟨vcid, hvcid, h⟩ := bind_eq_ok.mp h
    obtain ⟨af, haf, h⟩ := bind_eq_ok.mp h
    obtain ⟨-, -, h⟩ := bind_eq_ok.mp h
    obtain rfl := Except.ok.inj h
    have hbound := UInt64.le_iff_toNat_le.mp (UInt64.not_lt.mp hle)
    rw [UInt32.toNat_toUInt64] at hbound
    exact ⟨⟨id, hid, hbound, rfl⟩, ⟨sdt, hsdt, rfl⟩, ⟨vcid, hvcid, rfl⟩, ⟨af, haf, rfl⟩⟩
  · obtain ⟨id, hid, -⟩ := bind_eq_ok.mp h
    cases hid

/-- What `strtoull` finds in a text that begins with a digit. -/
theorem strtoull_of_isDigit {c : Char} (hc : c.isDigit = true) :
    strtoull (c :: s) =
      let digits := (c :: s).takeWhile Char.isDigit
      let value := Nat.ofDigitChars 10 digits 0
      if value ≥ 2 ^ 64 then
        some ⟨UInt64.ofNat (2 ^ 64 - 1), true, (c :: s).drop digits.length⟩
      else some ⟨UInt64.ofNat value, false, (c :: s).drop digits.length⟩ := by
  have hdrop : (c :: s).dropWhile isSpace = c :: s := by
    rw [List.dropWhile_cons, not_isSpace_of_isDigit hc]
    rfl
  have hdigits : ((c :: s).takeWhile Char.isDigit).isEmpty = false := by
    simp [hc]
  simp only [strtoull, hdrop, readSign_of_isDigit hc, hdigits]
  simp

/-- A numeral in range is read as a whole. -/
theorem IsNumeralOf.strtoull_eq (hs : IsNumeralOf s k) (hk : k < 2 ^ 64) :
    strtoull s = some ⟨UInt64.ofNat k, false, []⟩ := by
  obtain ⟨c, s, rfl⟩ := List.exists_cons_of_ne_nil hs.ne_nil
  have htake : (c :: s).takeWhile Char.isDigit = c :: s :=
    List.takeWhile_eq_self_iff.mpr hs.digits
  rw [strtoull_of_isDigit (hs.digits c List.mem_cons_self)]
  dsimp only
  rw [htake, hs.value, if_neg (Nat.not_le.mpr hk), List.drop_length]

/-- A text that is read up to its end from a digit on is a numeral. -/
theorem isNumeralOf_of_strtoull {c : Char} (hc : c.isDigit = true)
    (h : strtoull (c :: s) = some ⟨n, false, []⟩) : IsNumeralOf (c :: s) n.toNat := by
  rw [strtoull_of_isDigit hc] at h
  dsimp only at h
  split at h
  · cases h
  · rename_i hlt
    obtain ⟨hvalue, -, hrest⟩ := Numeral.mk.inj (Option.some.inj h)
    have hall : (c :: s).takeWhile Char.isDigit = c :: s :=
      (List.takeWhile_prefix _).eq_of_length_le (List.drop_eq_nil_iff.mp hrest)
    rw [hall] at hvalue hlt
    refine ⟨List.cons_ne_nil c s, List.takeWhile_eq_self_iff.mp hall, ?_⟩
    rw [← hvalue, UInt64.toNat_ofNat_of_lt' (Nat.lt_of_not_le hlt)]

/-- What is read as a whole are the numerals in range. -/
theorem readWhole_iff (hb : bound < 2 ^ 64) :
    readWhole bound s = true ↔ ∃ k, k ≤ bound ∧ IsNumeralOf s k := by
  constructor
  · intro h
    unfold readWhole at h
    split at h
    · rename_i c n hhead hn
      obtain ⟨s, rfl⟩ := List.head?_eq_some_iff.mp hhead
      obtain ⟨hc, hle⟩ := Bool.and_eq_true_iff.mp h
      exact ⟨n.toNat, of_decide_eq_true hle, isNumeralOf_of_strtoull hc hn⟩
    · cases h
  · rintro ⟨k, hk, hs⟩
    have hn := hs.strtoull_eq (Nat.lt_of_le_of_lt hk hb)
    obtain ⟨c, s, rfl⟩ := List.exists_cons_of_ne_nil hs.ne_nil
    have hle : (UInt64.ofNat k).toNat ≤ bound := by
      rwa [UInt64.toNat_ofNat_of_lt' (Nat.lt_of_le_of_lt hk hb)]
    simp only [readWhole, List.head?_cons, hn, hs.digits c List.mem_cons_self, hle, decide_true,
      Bool.and_self]

/-- A number that is read and cut to at most `bound` is the value of its text exactly
if the text is read as a whole. -/
theorem isNumeralOf_iff (h : stoull s = some n) (hb : bound < 2 ^ 64) (hk : k ≤ bound)
    (hcut : n.toNat ≤ bound → k = n.toNat) :
    IsNumeralOf s k ↔ readWhole bound s = true := by
  rw [readWhole_iff hb]
  constructor
  · exact fun hs => ⟨k, hk, hs⟩
  · rintro ⟨j, hj, hs⟩
    have hn : n = UInt64.ofNat j := by
      rw [stoull, hs.strtoull_eq (Nat.lt_of_le_of_lt hj hb)] at h
      exact (Option.some.inj h).symm
    have hnat : n.toNat = j := by
      rw [hn, UInt64.toNat_ofNat_of_lt' (Nat.lt_of_le_of_lt hj hb)]
    rwa [hcut (hnat ▸ hj), hnat]

/-- The same for a number of the metadata. -/
theorem forall_isNumeralOf_iff (h : metaNumber m key = .ok n) (hb : bound < 2 ^ 64)
    (hk : k ≤ bound) (hcut : n.toNat ≤ bound → k = n.toNat) :
    (∀ v, m.metadata.lookup key = some v → IsNumeralOf v k) ↔
      ∀ v, m.metadata.lookup key = some v → readWhole bound v = true := by
  apply forall_congr'
  intro v
  apply imp_congr_right
  intro hv
  apply isNumeralOf_iff _ hb hk hcut
  rw [metaNumber, hv] at h
  dsimp only at h
  split at h
  · rename_i hn
    rw [hn, Except.ok.inj h]
  · cases h

/-- The frame of an accepted message shows what the message says exactly if every
number of the message is read as a whole and fits its field. -/
theorem fromMessage_faithful_iff (h : fromMessage m = .ok f) : Faithful m f ↔ ReadWhole m := by
  obtain ⟨⟨id, hid, hle, hfid⟩, ⟨sdt, hsdt, hfsdt⟩, ⟨vcid, hvcid, hfvcid⟩, af, haf, hfaf⟩ :=
    fromMessage_eq_ok h
  have hidCut : f.id.toNat = id.toNat := by
    rw [hfid, UInt64.toNat_toUInt32]
    apply Nat.mod_eq_of_lt
    exact lt_of_le_of_lt hle (by decide)
  have hsdtCut : sdt.toNat ≤ 0xFF → f.sdt.toNat = sdt.toNat := by
    intro hle
    rw [hfsdt, UInt64.toNat_toUInt8]
    omega
  have hvcidCut : vcid.toNat ≤ 0xFF → f.vcid.toNat = vcid.toNat := by
    intro hle
    rw [hfvcid, UInt64.toNat_toUInt8]
    omega
  have hafCut : af.toNat ≤ 0xFFFFFFFF → f.af.toNat = af.toNat := by
    intro hle
    rw [hfaf, UInt64.toNat_toUInt32]
    omega
  have hidIff := isNumeralOf_iff hid (by decide) (hidCut ▸ hle) fun _ => hidCut
  have hsdtIff := forall_isNumeralOf_iff hsdt (by decide) (Nat.le_of_lt_succ f.sdt.toNat_lt) hsdtCut
  have hvcidIff :=
    forall_isNumeralOf_iff hvcid (by decide) (Nat.le_of_lt_succ f.vcid.toNat_lt) hvcidCut
  have hafIff := forall_isNumeralOf_iff haf (by decide) (Nat.le_of_lt_succ f.af.toNat_lt) hafCut
  constructor
  · rintro ⟨h₁, h₂, h₃, h₄⟩
    exact ⟨hidIff.mp h₁, hsdtIff.mp h₂, hvcidIff.mp h₃, hafIff.mp h₄⟩
  · rintro ⟨h₁, h₂, h₃, h₄⟩
    exact ⟨hidIff.mpr h₁, hsdtIff.mpr h₂, hvcidIff.mpr h₃, hafIff.mpr h₄⟩

/-- The numbers of this message are read as a whole. -/
def plainMessage : Message :=
  { id := "291".toList
    metadata := (∅ : Meta).insert "can.sdt".toList "5".toList }

theorem fromMessage_faithful_iff_plain :
    Faithful plainMessage { id := 291, sdt := 5 } ↔ ReadWhole plainMessage :=
  fromMessage_faithful_iff (by decide +kernel)

/-- Characters behind the digits are dropped, and a number that does not fit is cut. -/
theorem fromMessage_not_faithful :
    (fromMessage { id := "12abc".toList } = .ok { id := 12 } ∧
      ¬ Faithful { id := "12abc".toList } { id := 12 }) ∧
    fromMessage { id := "1".toList,
                  metadata := (∅ : Meta).insert "can.sdt".toList "256".toList } =
        .ok { id := 1 } ∧
      ¬ Faithful { id := "1".toList,
                   metadata := (∅ : Meta).insert "can.sdt".toList "256".toList } { id := 1 } := by
  refine ⟨⟨by decide +kernel, ?_⟩, by decide +kernel, ?_⟩
  · intro h
    exact absurd (h.id.digits 'a' (by decide)) (by decide)
  · intro h
    have hvalue := (h.sdt "256".toList (by decide +kernel)).value
    exact absurd hvalue (by decide)

end CppCan
