import CppCan.Core.Text
import Mathlib.Algebra.Group.Int.Defs

/-!
# Conversions that throw

The conversions of the C++ library skip white space, read the longest numeral they
can and ignore what is behind it. They throw if there is no numeral or if its value
is out of range. A floating-point numeral is rounded to the nearest value, a tie to
the one with an even significand; it is out of range if it overflows, or if the
result is too small to be normal and not exact. The payload of a NaN may be given in
parentheses; it is an integer of 64 bits and out of range too if it needs more.
-/

namespace CppCan.Core

/-- What a conversion throws. -/
inductive NumError where
  | invalidArgument
  | outOfRange
  deriving DecidableEq, Repr

/-- The integer at the head of a text and the rest of the text. -/
def readInteger (s : Text) : Option (Int × Text) :=
  let (negative, s) := readSign (s.dropWhile isSpace)
  let digits := s.takeWhile Char.isDigit
  let n : Int := Nat.ofDigitChars 10 digits 0
  if digits.isEmpty then none else some (if negative then -n else n, s.drop digits.length)

/-- The integer at the head of a text if it lies between two bounds. -/
def stoIn (lo hi : Int) (s : Text) : Except NumError Int :=
  match readInteger s with
  | none => .error .invalidArgument
  | some (v, _) => if lo ≤ v ∧ v ≤ hi then .ok v else .error .outOfRange

def stoi (s : Text) : Except NumError Int32 := (stoIn (-2 ^ 31) (2 ^ 31 - 1) s).map Int32.ofInt

def stoll (s : Text) : Except NumError Int64 := (stoIn (-2 ^ 63) (2 ^ 63 - 1) s).map Int64.ofInt

/-- `std::stoull` with what it throws. -/
def stoullOrThrow (s : Text) : Except NumError UInt64 :=
  match strtoull s with
  | none => .error .invalidArgument
  | some ⟨value, false, _⟩ => .ok value
  | some ⟨_, true, _⟩ => .error .outOfRange

variable {c : Char} {z : Int}

/-- The numeral of an integer consists of digits behind an optional minus sign. -/
theorem isDigit_or_of_mem_decimalInt (h : c ∈ decimalInt z) : c.isDigit = true ∨ c = '-' := by
  have hdecimal : ∀ n, c ∈ decimal n → c.isDigit = true := fun n =>
    Nat.isDigit_of_mem_toDigits (by omega) (by omega)
  cases z with
  | ofNat n => exact Or.inl (hdecimal n h)
  | negSucc n =>
    rcases List.mem_cons.mp h with h | h
    · exact Or.inr h
    · exact Or.inl (hdecimal _ h)

theorem decimalInt_ne_nil (z : Int) : decimalInt z ≠ [] := by
  cases z with
  | ofNat n => exact Nat.toDigits_ne_nil
  | negSucc n => exact List.cons_ne_nil _ _

/-- A numeral holds no white space. -/
theorem not_isSpace_of_mem_decimalInt (h : c ∈ decimalInt z) : isSpace c = false := by
  rcases isDigit_or_of_mem_decimalInt h with hc | rfl
  · exact not_isSpace_of_isDigit hc
  · rfl

/-- A numeral holds no character but digits and the minus sign. -/
theorem not_mem_decimalInt (hdigit : c.isDigit = false) (hminus : c ≠ '-') :
    c ∉ decimalInt z := by
  intro h
  rcases isDigit_or_of_mem_decimalInt h with hc | hc
  · exact absurd hc (by simp [hdigit])
  · exact hminus hc

/-- The numeral of an integer is read back up to the first character that is not a
digit. -/
theorem readInteger_decimalInt (z : Int) {rest : Text}
    (hrest : ∀ c ∈ rest.head?, c.isDigit = false) :
    readInteger (decimalInt z ++ rest) = some (z, rest) := by
  have htake : ∀ n, (decimal n ++ rest).takeWhile Char.isDigit = decimal n := fun n =>
    takeWhile_append_of_head
      (fun c hc => Nat.isDigit_of_mem_toDigits (by omega) (by omega) hc) hrest
  have hvalue : ∀ n, Nat.ofDigitChars 10 (decimal n) 0 = n := fun n =>
    Nat.ofDigitChars_toDigits (by omega) (by omega)
  have hempty : ∀ n, (decimal n).isEmpty = false := fun n =>
    List.isEmpty_eq_false_iff.mpr Nat.toDigits_ne_nil
  cases z with
  | ofNat n =>
    obtain ⟨c, cs, hcs, hdigits⟩ := decimal_eq_cons n
    have hc := hdigits c List.mem_cons_self
    have hdrop : (decimal n ++ rest).dropWhile isSpace = decimal n ++ rest := by
      rw [hcs, List.cons_append, List.dropWhile_cons_of_neg (by simp [not_isSpace_of_isDigit hc])]
    have hsign : readSign (decimal n ++ rest) = (false, decimal n ++ rest) := by
      rw [hcs, List.cons_append, readSign_of_isDigit hc]
    rw [readInteger, decimalInt, hdrop, hsign]
    dsimp only
    rw [htake, hvalue, hempty, List.drop_left]
    rfl
  | negSucc n =>
    have hdrop : (decimalInt (.negSucc n) ++ rest).dropWhile isSpace =
        '-' :: (decimal (n + 1) ++ rest) := rfl
    rw [readInteger, hdrop, readSign]
    dsimp only
    rw [htake, hvalue, hempty, List.drop_left]
    rfl

/-- The numeral of an integer within the bounds is read back. -/
theorem stoIn_decimalInt {lo hi : Int} (hlo : lo ≤ z) (hhi : z ≤ hi) :
    stoIn lo hi (decimalInt z) = .ok z := by
  have hread : readInteger (decimalInt z ++ []) = some (z, []) := readInteger_decimalInt z (by simp)
  rw [List.append_nil] at hread
  rw [stoIn, hread]
  exact if_pos ⟨hlo, hhi⟩

/-- The numeral of an `int` is read back. -/
theorem stoi_decimalInt (x : Int32) : stoi (decimalInt x.toInt) = .ok x := by
  have hhi := x.toInt_lt
  rw [stoi, stoIn_decimalInt x.le_toInt (by omega)]
  exact congrArg Except.ok (Int32.ofInt_toInt x)

/-- The numeral of a `long long` is read back. -/
theorem stoll_decimalInt (x : Int64) : stoll (decimalInt x.toInt) = .ok x := by
  have hhi := x.toInt_lt
  rw [stoll, stoIn_decimalInt x.le_toInt (by omega)]
  exact congrArg Except.ok (Int64.ofInt_toInt x)

/-- A value of type `double` by its bits: the sign, the exponent and the fraction. -/
structure Double where
  bits : UInt64
  deriving DecidableEq, Repr

/-- The value with a sign and the given bits below it. -/
def Double.ofMagnitude (negative : Bool) (magnitude : Nat) : Double :=
  ⟨UInt64.ofNat (if negative then 2 ^ 63 + magnitude else magnitude)⟩

def Double.zero : Double := ⟨0⟩

def Double.one : Double := ⟨0x3FF0000000000000⟩

/-- The bits of infinity, the least that are not those of a number. -/
def infinity : Nat := 0x7FF * 2 ^ 52

/-- The bits of the quiet NaN. -/
def quietNaN : Nat := 0x7FF8 * 2 ^ 48

/-- The integer nearest to `a / b`, of two the even one. -/
def roundQuotient (a b : Nat) : Nat :=
  if 2 * (a % b) < b ∨ (2 * (a % b) = b ∧ a / b % 2 = 0) then a / b else a / b + 1

/-- The bits of the value nearest to `a / b` and whether it is out of range. -/
def roundRatio (a b : Nat) : Nat × Bool :=
  if a = 0 then (0, false)
  else
    let k : Int := a.log2 - b.log2
    -- the exponent of the leading bit of `a / b`
    let top := if a * 2 ^ (-k).toNat < b * 2 ^ k.toNat then k - 1 else k
    let e := max (-1074) (top - 52)
    let num := a * 2 ^ (-e).toNat
    let den := b * 2 ^ e.toNat
    -- the leading bit of a normal significand, and a carry, fall into the exponent
    let magnitude := (e + 1074).toNat * 2 ^ 52 + roundQuotient num den
    if magnitude ≥ infinity then (infinity, true)
    -- tiny: with 53 bits and any exponent it would still round to less than `2 ^ (-1022)`
    else (magnitude, num % den ≠ 0 && a * 2 ^ 1076 < (2 ^ 54 - 1) * b)

def isHexDigit (c : Char) : Bool := c.isDigit || ('a' ≤ c && c ≤ 'f')

def hexValue (c : Char) : Nat := if c.isDigit then c.toNat - '0'.toNat else c.toNat - 'a'.toNat + 10

/-- Digits with a point between them: all digits, how many are behind the point, and
the rest of the text. -/
def readDigits (digit : Char → Bool) (s : Text) : Text × Nat × Text :=
  match s.dropWhile digit with
  | '.' :: rest =>
    (s.takeWhile digit ++ rest.takeWhile digit, (rest.takeWhile digit).length,
      rest.dropWhile digit)
  | rest => (s.takeWhile digit, 0, rest)

/-- The exponent behind its mark; zero if there is none. -/
def readExponent (mark : Char) : Text → Int
  | c :: s =>
    let (negative, s) := readSign s
    let n : Int := Nat.ofDigitChars 10 (s.takeWhile Char.isDigit) 0
    if c = mark then if negative then -n else n else 0
  | [] => 0

/-- The value of `m * base ^ x` with a sign, and whether it is out of range. -/
def scaled (negative : Bool) (m base : Nat) (x : Int) : Double × Bool :=
  let (magnitude, outOfRange) := roundRatio (m * base ^ x.toNat) (base ^ (-x).toNat)
  (.ofMagnitude negative magnitude, outOfRange)

/-- What the characters between the parentheses behind `nan` name, and whether it is out of
range. They name nothing unless they are a numeral to their end, in the base of its prefix. -/
def nanPayload (chars : Text) : Nat × Bool :=
  let (base, digit, s) : Nat × (Char → Bool) × Text :=
    match chars with
    | '0' :: 'x' :: s => (16, isHexDigit, s)
    | '0' :: _ => (8, fun c => '0' ≤ c && c ≤ '7', chars)
    | _ => (10, Char.isDigit, chars)
  let digits := s.takeWhile digit
  let n := digits.foldl (fun n c => base * n + hexValue c) 0
  (if digits.length = s.length then min n (2 ^ 64 - 1) else 0, 2 ^ 64 ≤ n)

/-- The payload of a NaN and whether it is out of range; zero if none is given. -/
def readPayload : Text → Nat × Bool
  | '(' :: s =>
    match s.dropWhile fun c => c.isAlphanum || c = '_' with
    | ')' :: _ => nanPayload (s.takeWhile fun c => c.isAlphanum || c = '_')
    | _ => (0, false)
  | _ => (0, false)

/-- `strtod`: the value and whether it is out of range; no result if there is no
numeral. -/
def strtod (s : Text) : Option (Double × Bool) :=
  let (negative, s) := readSign (s.dropWhile isSpace)
  let s := s.map Char.toLower
  if "inf".toList.isPrefixOf s then some (.ofMagnitude negative infinity, false)
  else if "nan".toList.isPrefixOf s then
    let (payload, outOfRange) := readPayload (s.drop 3)
    some (.ofMagnitude negative (quietNaN + payload % 2 ^ 51), outOfRange)
  else if "0x".toList.isPrefixOf s then
    let (digits, behind, rest) := readDigits isHexDigit (s.drop 2)
    let m := digits.foldl (fun n c => 16 * n + hexValue c) 0
    some (scaled negative m 2 (readExponent 'p' rest - 4 * behind))
  else
    let (digits, behind, rest) := readDigits Char.isDigit s
    let m := Nat.ofDigitChars 10 digits 0
    if digits.isEmpty then none else some (scaled negative m 10 (readExponent 'e' rest - behind))

def stod (s : Text) : Except NumError Double :=
  match strtod s with
  | none => .error .invalidArgument
  | some (v, false) => .ok v
  | some (_, true) => .error .outOfRange

/-- A payload in parentheses may be out of range. -/
example : stod "nan(99999999999999999999)".toList = .error .outOfRange := rfl

end CppCan.Core
