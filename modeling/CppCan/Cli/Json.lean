import CppCan.Cli.Base64
import CppCan.Relay.Message
import Mathlib.Data.Char
import Mathlib.Data.List.Lex
import Mathlib.Data.List.Sort

/-!
# Messages as JSON texts

The writer emits the fields in a fixed order and the metadata sorted by key. The
reader does not parse the text: it searches it for the first occurrence of each
key in quotation marks with a colon behind it and reads the value found there.
-/

namespace CppCan.Cli

open CppCan.Core CppCan.Relay

/-- Skip blanks within a line. -/
def skipBlanks (s : Text) : Text := s.dropWhile (fun c => c ∈ [' ', '\t'])

/-- Skip blanks and line ends. -/
def skipSpace (s : Text) : Text := s.dropWhile (fun c => c ∈ [' ', '\t', '\n', '\r'])

/-- Skip a comma behind a value. -/
def skipComma (s : Text) : Text :=
  match skipBlanks s with
  | ',' :: s => s
  | s => s

/-- The text from the value of a key on. -/
def valueOf (s key : Text) : Option Text := (findAfter (keyPattern key) s).map skipBlanks

def extractU32 (s key : Text) : Option UInt32 := do
  let n ← strtoull (← valueOf s key)
  if n.value > 0xFFFFFFFF then none else some n.value.toUInt32

/-- A number out of range is read as the greatest one. -/
def extractU64 (s key : Text) : Option UInt64 := do
  let n ← strtoull (← valueOf s key)
  some n.value

def extractString (s key : Text) : Option Text := do
  match ← valueOf s key with
  | '"' :: v => (cutAt '"' v).map (·.1)
  | _ => none

/-- The numbers of an array up to the first that is not a byte. -/
def bytesLoop : Nat → Text → List UInt8
  | 0, _ => []
  | rounds + 1, s =>
    match skipSpace s with
    | [] => []
    | ']' :: _ => []
    | c :: s =>
      match strtoull (c :: s) with
      | none => []
      | some n =>
        if n.value > 255 then [] else n.value.toUInt8 :: bytesLoop rounds (skipComma n.rest)

def extractBytes (s key : Text) : Option (List UInt8) := do
  match ← valueOf s key with
  | '"' :: v => (cutAt '"' v).map fun (data, _) => base64Decode data
  | '[' :: v => some (bytesLoop v.length v)
  | _ => none

/-- One entry of a flat object: its key, its value and the text behind it. -/
def readEntry (s : Text) : Option (Text × Text × Text) := do
  match skipSpace s with
  | '"' :: s =>
    let (k, s) ← cutAt '"' s
    match skipBlanks s with
    | ':' :: s =>
      match skipBlanks s with
      | '"' :: s => cutAt '"' s |>.map fun (v, s) => (k, v, s)
      | _ => none
    | _ => none
  | _ => none

/-- The entries of a flat object up to the first that is malformed. -/
def mapLoop : Nat → Meta → Text → Meta
  | 0, m, _ => m
  | rounds + 1, m, s =>
    match readEntry s with
    | none => m
    | some (k, v, s) => mapLoop rounds (m.insert k v) (skipComma s)

def extractStringMap (s key : Text) : Option Meta := do
  match ← valueOf s key with
  | '\x7b' :: v => some (mapLoop v.length ∅ v)
  | _ => none

/-- An entry of the metadata. -/
abbrev Entry := (_ : Text) × Text

/-- The order in which entries are written. -/
def Entry.le (e e' : Entry) : Prop := e.1 < e'.1 ∨ e.1 = e'.1 ∧ e.2 ≤ e'.2

instance : DecidableRel Entry.le := fun e e' =>
  inferInstanceAs (Decidable (e.1 < e'.1 ∨ e.1 = e'.1 ∧ e.2 ≤ e'.2))

/-- The entries of the metadata as they are written. -/
def sortedEntries (m : Meta) : List Entry := m.entries.insertionSort Entry.le

/-- The text of an entry. -/
def entryText (e : Entry) : Text := "\"".toList ++ e.1 ++ "\":\"".toList ++ e.2 ++ "\"".toList

/-- The texts of the entries, with commas between them. -/
def entriesText : List Entry → Text
  | [] => []
  | [e] => entryText e
  | e :: es => entryText e ++ ",".toList ++ entriesText es

def messageToJson (m : Message) : Text :=
  "\x7b".toList ++
  "\"protocol\":".toList ++ decimalInt m.protocol.value.toInt ++ ",".toList ++
  "\"version\":\x7b\"major\":".toList ++ decimalInt m.version.major.toInt ++
  ",\"minor\":".toList ++ decimalInt m.version.minor.toInt ++
  ",\"patch\":".toList ++ decimalInt m.version.patch.toInt ++ "\x7d,".toList ++
  "\"id\":\"".toList ++ m.id ++ "\",".toList ++
  "\"payload\":\"".toList ++ base64Encode m.payload ++ "\",".toList ++
  "\"timestamp\":\"1970-01-01T00:00:00Z\"".toList ++
  (if m.seq ≠ 0 then ",\"seq\":".toList ++ decimal m.seq.toNat else []) ++
  (if m.metadata.entries.isEmpty then []
    else ",\"meta\":\x7b".toList ++ entriesText (sortedEntries m.metadata) ++ "\x7d".toList) ++
  "\x7d".toList

def parseMessageJson (json : Text) : Except String Message := do
  let proto ← match extractU32 json "protocol".toList with
    | some proto => .ok proto
    | none => .error "ErrInvalidInput: missing or invalid 'protocol'"
  let id ← match extractString json "id".toList with
    | some id => .ok id
    | none => .error "ErrInvalidInput: missing 'id'"
  return {
    protocol := ⟨proto.toInt32⟩
    id := id
    payload := (extractBytes json "payload".toList).getD []
    seq := (extractU64 json "seq".toList).getD 0
    metadata := (extractStringMap json "meta".toList).getD ∅ }

end CppCan.Cli
