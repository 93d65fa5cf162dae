import CppCan.Core.Input
import CppCan.Core.Throws
import Mathlib.Data.Finmap

/-!
# Parsing DBC texts

A text is parsed line by line. A `BO_` line begins a message, the `SG_` lines behind
it belong to that message, and a `VAL_` line names the values of a signal that is
already known. Any other line ends the message; blank lines and comments do not.
-/

namespace CppCan.Dbc

open CppCan.Core

/-- The order in which the bits of a signal are counted. -/
inductive ByteOrder where
  | littleEndian
  | bigEndian
  deriving DecidableEq, Repr

structure Signal where
  name : Text
  startBit : Int32
  length : Int32
  byteOrder : ByteOrder
  isSigned : Bool
  factor : Double
  offset : Double
  min : Double
  max : Double
  unit : Text
  receivers : List Text
  values : Finmap fun _ : Int64 => Text
  deriving DecidableEq

structure Message where
  id : UInt32
  name : Text
  dlc : Int32
  sender : Text
  signals : Finmap fun _ : Text => Signal
  deriving DecidableEq

/-- The messages by their identifiers. -/
structure DB where
  messages : Finmap fun _ : UInt32 => Message
  deriving DecidableEq

/-- What parsing throws: a `std::runtime_error`, or what a conversion throws. -/
inductive ParseError where
  | runtimeError (what : Text)
  | conversion (e : NumError)
  deriving DecidableEq, Repr

/-- The exceptions of the class `std::runtime_error`. -/
def ParseError.IsRuntimeError : ParseError → Prop
  | .runtimeError _ => True
  | .conversion _ => False

/-- A conversion within the parser. -/
def convert {α : Type} (r : Except NumError α) : Except ParseError α := r.mapError .conversion

def parseMessageLine (line : Text) : Except ParseError Message :=
  let ss : InputStream := some (line.drop 4)
  let (id, ss) := ss.readUInt32 0
  let (nameColon, ss) := ss.readWord []
  let (dlc, ss) := ss.readInt32 0
  let (sender, _) := ss.readWord []
  if nameColon.getLast? = some ':' then
    .ok { id, name := nameColon.dropLast, dlc, sender, signals := ∅ }
  else .error (.runtimeError ("dbc: malformed BO_ line: ".toList ++ line))

/-- A signal whose numbers are not yet converted. The factor and the offset, and the
bounds, are there only if a comma, or a bar, stands between them. -/
structure SignalText where
  name : Text
  start : Text
  length : Text
  order : Char
  sign : Char
  scale : Option (Text × Text)
  range : Option (Text × Text)
  unit : Text
  receivers : List Text
  deriving DecidableEq, Repr

/-- The unit without the quotation marks at its ends. -/
def stripQuotes (unit : Text) : Text :=
  let unit := if unit.head? = some '"' then unit.tail else unit
  if unit.getLast? = some '"' then unit.dropLast else unit

/-- `parse_signal_line` up to the conversions. -/
def cutSignalLine (line : Text) : Except ParseError SignalText :=
  match cutAtText " : ".toList (trim (line.drop 4)) with
  | none => .error (.runtimeError ("dbc: malformed SG_ line: ".toList ++ line))
  | some (name, rest) =>
    let ss : InputStream := some (trim rest)
    let (bitDef, ss) := ss.readWord []
    let (factorOffset, ss) := ss.readWord []
    let (minMax, ss) := ss.readWord []
    let (unitQ, ss) := ss.readWord []
    match cutAt '|' bitDef, cutAt '@' bitDef with
    | some (start, behindPipe), some (beforeAt, behindAt) =>
      -- if `@` stands before the bar, the count of characters between them wraps around
      let count :=
        if start.length < beforeAt.length then beforeAt.length - start.length - 1
        else behindPipe.length
      .ok {
        name := trim name
        start
        length := behindPipe.take count
        order := behindAt.getD 0 '\x00'
        sign := behindAt.getD 1 '+'
        scale := cutAt ',' (factorOffset.filter fun c => c ≠ '(' && c ≠ ')')
        range := cutAt '|' (minMax.filter fun c => c ≠ '[' && c ≠ ']')
        unit := stripQuotes unitQ
        receivers := ss.words.flatMap fun rx => (rx.splitOn ',').filter (!·.isEmpty) }
    | _, _ => .error (.runtimeError ("dbc: malformed bit def: ".toList ++ bitDef))

/-- The two numbers of a pair, or their defaults if there is none. -/
def convertPair (pair : Option (Text × Text)) (default : Double × Double) :
    Except ParseError (Double × Double) :=
  match pair with
  | none => .ok default
  | some (a, b) => do
    let x ← convert (stod a)
    let y ← convert (stod b)
    .ok (x, y)

/-- The conversions of `parse_signal_line`. -/
def SignalText.signal (t : SignalText) : Except ParseError Signal := do
  let startBit ← convert (stoi t.start)
  let length ← convert (stoi t.length)
  let (factor, offset) ← convertPair t.scale (.one, .zero)
  let (min, max) ← convertPair t.range (.zero, .zero)
  .ok {
    name := t.name
    startBit
    length
    byteOrder := if t.order = '0' then .bigEndian else .littleEndian
    isSigned := t.sign = '-'
    factor
    offset
    min
    max
    unit := t.unit
    receivers := t.receivers
    values := ∅ }

def parseSignalLine (line : Text) : Except ParseError Signal := do
  let t ← cutSignalLine line
  t.signal

/-- Split at blanks and tabs, but not within quotation marks. -/
def tokeniseLoop : Nat → Text → List Text
  | 0, _ => []
  | rounds + 1, s =>
    match s.dropWhile (fun c => c = ' ' || c = '\t') with
    | [] => []
    | '"' :: s => s.takeWhile (· ≠ '"') :: tokeniseLoop rounds ((s.dropWhile (· ≠ '"')).drop 1)
    | s =>
      s.takeWhile (fun c => c ≠ ' ' && c ≠ '\t') ::
        tokeniseLoop rounds (s.dropWhile fun c => c ≠ ' ' && c ≠ '\t')

/-- Each round takes at least one character. -/
def tokeniseVal (line : Text) : List Text := tokeniseLoop line.length line

/-- The pairs of a value and its label; a value without a label is left. -/
def readValues (values : Finmap fun _ : Int64 => Text) :
    List Text → Except ParseError (Finmap fun _ : Int64 => Text)
  | raw :: label :: rest => do
    let raw ← convert (stoll raw)
    readValues (values.insert raw label) rest
  | _ => .ok values

/-- The tokens of a line without the semicolon at its end. -/
def valTokens (line : Text) : List Text :=
  tokeniseVal (trim (if line.getLast? = some ';' then line.dropLast else line))

/-- Add the values to a signal; nothing changes if it is unknown. -/
def DB.addValues (db : DB) (msgId : UInt32) (sigName : Text) (table : List Text) :
    Except ParseError DB :=
  match db.messages.lookup msgId with
  | none => .ok db
  | some msg =>
    match msg.signals.lookup sigName with
    | none => .ok db
    | some sig => do
      let values ← readValues sig.values table
      let msg := { msg with signals := msg.signals.insert sigName { sig with values } }
      .ok ⟨db.messages.insert msgId msg⟩

def parseValLine (db : DB) (line : Text) : Except ParseError DB :=
  match valTokens line with
  | _ :: id :: sigName :: table => do
    let id ← convert (stoullOrThrow id)
    db.addValues id.toUInt32 sigName table
  | _ => .ok db

/-- The database so far and the message to which the next signal belongs. -/
structure ParseState where
  db : DB := ⟨∅⟩
  curMsg : Option UInt32 := none
  deriving DecidableEq

/-- `cur_msg->signals[sig.name] = sig`. -/
def DB.setSignal (db : DB) (curMsg : UInt32) (sig : Signal) : DB :=
  match db.messages.lookup curMsg with
  | none => db
  | some msg =>
    ⟨db.messages.insert curMsg { msg with signals := msg.signals.insert sig.name sig }⟩

/-- A line that is passed over. -/
def isSkipped (line : Text) : Bool := line.isEmpty || line.take 2 = "//".toList

def parseLine (st : ParseState) (line : Text) : Except ParseError ParseState :=
  let line := trim line
  if isSkipped line then .ok st
  else if line.take 4 = "BO_ ".toList then do
    let msg ← parseMessageLine line
    .ok { db := ⟨st.db.messages.insert msg.id msg⟩, curMsg := some msg.id }
  else if line.take 4 = "SG_ ".toList then
    match st.curMsg with
    | none => .ok st
    | some id => do
      let sig ← parseSignalLine line
      .ok { st with db := st.db.setSignal id sig }
  else if line.take 5 = "VAL_ ".toList then do
    let db ← parseValLine st.db line
    .ok { db, curMsg := none }
  else .ok { st with curMsg := none }

def parse (text : Text) : Except ParseError DB :=
  ((getlines text).foldlM parseLine {}).map (·.db)

end CppCan.Dbc
