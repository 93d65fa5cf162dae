import CppCan.Cli.Base64
import CppCan.Cli.Documents
import Mathlib.Algebra.Order.Ring.Rat

/-!
# JSON texts

The grammar of JSON, with every way to write a value: the white space between tokens, the
escapes of strings and the parts of numbers. A text with a payload is an object with one
member `data` among any others.
-/

namespace CppCan.Cli

open CppCan.Core

structure Exponent where
  letter : Char
  sign : Text
  digits : Text
  letter_mem : letter ∈ ['e', 'E']
  sign_mem : sign ∈ [[], ['+'], ['-']]
  digits_ne : digits ≠ []
  isDigit : ∀ c ∈ digits, c.isDigit = true

/-- A number: its integer, the digits behind the point, if there are any, and the exponent. -/
structure Number where
  negative : Bool := false
  int : Nat
  fraction : Text := []
  exponent : Option Exponent := none
  isDigit : ∀ c ∈ fraction, c.isDigit = true := by simp

def Exponent.text (e : Exponent) : Text := e.letter :: (e.sign ++ e.digits)

def Exponent.value (e : Exponent) : Int :=
  if e.sign = ['-'] then -(Nat.ofDigitChars 10 e.digits 0 : Int)
  else Nat.ofDigitChars 10 e.digits 0

namespace Number

/-- What follows the integer. -/
def tail (n : Number) : Text :=
  (if n.fraction = [] then [] else '.' :: n.fraction) ++ (n.exponent.map Exponent.text).getD []

def text (n : Number) : Text := (if n.negative then ['-'] else []) ++ decimal n.int ++ n.tail

/-- The value, a decimal fraction. -/
def value (n : Number) : ℚ :=
  (if n.negative then -1 else 1) *
    (n.int + Nat.ofDigitChars 10 n.fraction 0 / 10 ^ n.fraction.length) *
    10 ^ ((n.exponent.map Exponent.value).getD 0)

end Number

/-- The digits `0` to `9`, `a` to `f` and `A` to `F`. -/
def isHexDigit (c : Char) : Bool := c.isDigit || ('a' ≤ c && c ≤ 'f') || ('A' ≤ c && c ≤ 'F')

def hexDigitValue (c : Char) : Nat :=
  if c.isDigit then c.toNat - '0'.toNat
  else if 'a' ≤ c then c.toNat - 'a'.toNat + 10
  else c.toNat - 'A'.toNat + 10

/-- The character that an escape stands for. -/
def escapeChar : Char → Char
  | 'b' => '\x08'
  | 'f' => '\x0c'
  | 'n' => '\n'
  | 'r' => '\r'
  | 't' => '\t'
  | c => c

/-- A character of a string as it is written. -/
inductive StrChar where
  | plain (c : Char) (h : c ≠ '"' ∧ c ≠ '\\' ∧ ' ' ≤ c)
  | escape (c : Char) (h : c ∈ ['"', '\\', '/', 'b', 'f', 'n', 'r', 't'])
  | unicode (digits : Text) (hlen : digits.length = 4) (hhex : ∀ c ∈ digits, isHexDigit c = true)

namespace StrChar

def text : StrChar → Text
  | .plain c _ => [c]
  | .escape c _ => ['\\', c]
  | .unicode digits _ _ => '\\' :: 'u' :: digits

/-- The character that is meant. Half of a surrogate pair, no character by itself, counts as the
null character. -/
def char : StrChar → Char
  | .plain c _ => c
  | .escape c _ => escapeChar c
  | .unicode digits _ _ => Char.ofNat (digits.foldl (fun n c => 16 * n + hexDigitValue c) 0)

end StrChar

/-- What stands between the quotation marks. -/
def rawText (s : List StrChar) : Text := s.flatMap StrChar.text

def stringText (s : List StrChar) : Text := '"' :: (rawText s ++ ['"'])

/-- The string that is meant. -/
def stringValue (s : List StrChar) : Text := s.map StrChar.char

/-- An element of an array with the gaps around it. -/
structure Element (α : Type) where
  before : Gap
  value : α
  after : Gap

/-- A member of an object with the gaps around its tokens. -/
structure ObjectMember (α : Type) where
  beforeKey : Gap
  key : List StrChar
  beforeColon : Gap
  beforeValue : Gap
  value : α
  afterValue : Gap

theorem white_nil : ∀ c ∈ ([] : Text), c ∈ [' ', '\t', '\n', '\r'] :=
  fun _ hc => absurd hc List.not_mem_nil

/-- No white space. -/
def Gap.none : Gap := ⟨[], white_nil⟩

/-- A value; `inner` is the gap in an array or an object without elements. -/
inductive Json where
  | null
  | bool (b : Bool)
  | number (n : Number)
  | string (s : List StrChar)
  | array (inner : Gap) (elems : List (Element Json))
  | object (inner : Gap) (members : List (ObjectMember Json))

mutual

def Json.text : Json → Text
  | .null => "null".toList
  | .bool b => if b then "true".toList else "false".toList
  | .number n => n.text
  | .string s => stringText s
  | .array inner elems => '[' :: ((if elems.isEmpty then inner.text else elemsText elems) ++ [']'])
  | .object inner members =>
    '\x7b' :: ((if members.isEmpty then inner.text else objectText members) ++ ['\x7d'])

/-- The elements, with commas between them. -/
def elemsText : List (Element Json) → Text
  | [] => []
  | ⟨before, value, after⟩ :: rest =>
    before.text ++ value.text ++ after.text ++ if rest.isEmpty then [] else ',' :: elemsText rest

/-- The members, with commas between them. -/
def objectText : List (ObjectMember Json) → Text
  | [] => []
  | ⟨beforeKey, key, beforeColon, beforeValue, value, afterValue⟩ :: rest =>
    beforeKey.text ++ stringText key ++ beforeColon.text ++ ':' ::
      (beforeValue.text ++ value.text ++ afterValue.text) ++
      if rest.isEmpty then [] else ',' :: objectText rest

end

/-- The value is an integer from 0 to 255. -/
def Json.IsByte (v : Json) (b : UInt8) : Prop := ∃ n, v = .number n ∧ n.value = b.toNat

/-- The bytes of a payload: the elements of an array, or what a string encodes in base64. -/
inductive Json.Denotes : Json → List UInt8 → Prop where
  | array {inner : Gap} {elems : List (Element Json)} {data : List UInt8}
      (h : List.Forall₂ (fun e b => e.value.IsByte b) elems data) :
      Denotes (.array inner elems) data
  | string {s : List StrChar} {data : List UInt8} (h : Base64 (stringValue s) data) :
      Denotes (.string s) data

/-- A JSON text of an object with one member `data`, which is an array or a string. -/
structure DataDocument where
  lead : Gap
  front : List (ObjectMember Json)
  member : ObjectMember Json
  back : List (ObjectMember Json)
  trail : Gap
  key_eq : stringValue member.key = "data".toList
  key_ne : ∀ m ∈ front ++ back, stringValue m.key ≠ "data".toList
  form : (∃ inner elems, member.value = .array inner elems) ∨ ∃ s, member.value = .string s

namespace DataDocument

variable (doc : DataDocument)

/-- The members in their order. -/
def members : List (ObjectMember Json) := doc.front ++ doc.member :: doc.back

def text : Text :=
  doc.lead.text ++ (Json.object .none doc.members).text ++ doc.trail.text

/-- What stands before the key of the payload. -/
def ahead : Text :=
  doc.lead.text ++ '{' :: (doc.front.flatMap fun m => objectText [m] ++ [',']) ++
    doc.member.beforeKey.text

end DataDocument

/-- The members up to one of them, and what follows its value. -/
theorem objectText_append (front : List (ObjectMember Json)) (m : ObjectMember Json)
    (back : List (ObjectMember Json)) :
    ∃ rest, objectText (front ++ m :: back) =
      (front.flatMap fun m => objectText [m] ++ [',']) ++ m.beforeKey.text ++
        (stringText m.key ++ (m.beforeColon.text ++ ':' ::
          (m.beforeValue.text ++ (m.value.text ++ rest)))) := by
  induction front with
  | nil =>
    obtain ⟨beforeKey, key, beforeColon, beforeValue, value, afterValue⟩ := m
    exact ⟨afterValue.text ++ if back.isEmpty then [] else ',' :: objectText back, by
      simp [objectText]⟩
  | cons m' front ih =>
    obtain ⟨rest, hrest⟩ := ih
    refine ⟨rest, ?_⟩
    obtain ⟨beforeKey, key, beforeColon, beforeValue, value, afterValue⟩ := m'
    simp [objectText, hrest]

/-- The text from the key of the payload on. -/
theorem DataDocument.text_eq (doc : DataDocument) :
    ∃ rest, doc.text = doc.ahead ++ (stringText doc.member.key ++ (doc.member.beforeColon.text ++
      ':' :: (doc.member.beforeValue.text ++ (doc.member.value.text ++ rest)))) := by
  obtain ⟨rest, hrest⟩ := objectText_append doc.front doc.member doc.back
  refine ⟨rest ++ '}' :: doc.trail.text, ?_⟩
  have hmembers : doc.members.isEmpty = false := by simp [members]
  rw [text, Json.text, hmembers, if_neg Bool.false_ne_true, members, hrest]
  simp [ahead]

end CppCan.Cli
