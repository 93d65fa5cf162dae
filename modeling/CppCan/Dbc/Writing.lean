import CppCan.Core.Collect
import CppCan.Dbc.Parser

/-!
# Writing definitions as lines

Definitions of messages and signals, the lines they are written as and what the parser
makes of each line. A name is a word without commas and colons, and a number is any
text that is read as its value. A unit may hold white space; the parser then takes the
part before it for the unit and the rest for receivers.
-/

namespace CppCan.Dbc

open CppCan.Core

/-- A name: a word without commas and colons. -/
structure Name where
  text : Text
  isWord : IsWord text
  plain : ∀ c ∈ text, c ≠ ',' ∧ c ≠ ':'

/-- The characters that stand around numbers. -/
def isNumberMark (c : Char) : Bool := c ∈ ['(', ',', ')', '[', '|', ']']

/-- A number and the text it is written as. -/
structure Number where
  text : Text
  value : Double
  reads : stod text = .ok value
  plain : ∀ c ∈ text, isSpace c = false ∧ isNumberMark c = false

/-- A unit: a text without quotation marks and line breaks. -/
structure UnitName where
  text : Text
  plain : ∀ c ∈ text, c ≠ '"' ∧ c ≠ '\n'

structure SignalDef where
  name : Name
  startBit : Int32
  length : Int32
  byteOrder : ByteOrder
  isSigned : Bool
  factor : Number
  offset : Number
  min : Number
  max : Number
  unit : UnitName
  receivers : List Name

/-- A message and its signals, each with a name of its own. -/
structure MessageDef where
  id : UInt32
  name : Name
  dlc : Int32
  sender : Name
  signals : List SignalDef
  nodup : (signals.map (·.name.text)).Nodup

/-- The messages of a database, each with an identifier of its own. -/
structure Definitions where
  messages : List MessageDef
  nodup : (messages.map (·.id)).Nodup

/-- The signal that is defined. -/
def SignalDef.signal (s : SignalDef) : Signal where
  name := s.name.text
  startBit := s.startBit
  length := s.length
  byteOrder := s.byteOrder
  isSigned := s.isSigned
  factor := s.factor.value
  offset := s.offset.value
  min := s.min.value
  max := s.max.value
  unit := s.unit.text
  receivers := s.receivers.map (·.text)
  values := ∅

/-- The message with the signal that `f` gives for each definition. -/
def MessageDef.message (f : SignalDef → Signal) (m : MessageDef) : Message where
  id := m.id
  name := m.name.text
  dlc := m.dlc
  sender := m.sender.text
  signals := collect (·.name.text) f m.signals

/-- The database with the signal that `f` gives for each definition. -/
def Definitions.dbWith (f : SignalDef → Signal) (defs : Definitions) : DB :=
  ⟨collect (·.id) (MessageDef.message f) defs.messages⟩

/-- The database that is defined. -/
def Definitions.db (defs : Definitions) : DB := defs.dbWith SignalDef.signal

/-- `<start>|<len>@<order><sign>` -/
def SignalDef.bitDef (s : SignalDef) : Text :=
  decimalInt s.startBit.toInt ++ '|' :: (decimalInt s.length.toInt ++
    ['@', if s.byteOrder = .bigEndian then '0' else '1', if s.isSigned then '-' else '+'])

/-- `(<factor>,<offset>)` -/
def SignalDef.factorOffset (s : SignalDef) : Text :=
  '(' :: (s.factor.text ++ ',' :: (s.offset.text ++ [')']))

/-- `[<min>|<max>]` -/
def SignalDef.minMax (s : SignalDef) : Text :=
  '[' :: (s.min.text ++ '|' :: (s.max.text ++ [']']))

/-- The receivers with commas between them. -/
def SignalDef.receiverList (s : SignalDef) : Text := [','].intercalate (s.receivers.map (·.text))

/-- The numbers of a signal, up to the unit in its quotation marks. -/
def SignalDef.body (s : SignalDef) : Text :=
  s.bitDef ++ ' ' :: (s.factorOffset ++ ' ' :: (s.minMax ++ ' ' :: '"' :: (s.unit.text ++ ['"'])))

/-- `SG_ <name> : <start>|<len>@<order><sign> (<factor>,<offset>) [<min>|<max>] "<unit>"
<receivers>` -/
def SignalDef.line (s : SignalDef) : Text :=
  "SG_ ".toList ++ (s.name.text ++ (" : ".toList ++ (s.body ++ ' ' :: s.receiverList)))

/-- `BO_ <id> <name>: <dlc> <sender>` -/
def MessageDef.line (m : MessageDef) : Text :=
  "BO_ ".toList ++ (decimal m.id.toNat ++ ' ' :: (m.name.text ++ ':' :: ' ' ::
    (decimalInt m.dlc.toInt ++ ' ' :: m.sender.text)))

def MessageDef.lines (m : MessageDef) : List Text := m.line :: m.signals.map SignalDef.line

def Definitions.lines (defs : Definitions) : List Text := defs.messages.flatMap MessageDef.lines

variable {s : SignalDef} {m : MessageDef} {c : Char}

/-- A number with one character behind it. -/
theorem Number.plain_append (n : Number) (hc : isSpace c = false) :
    ∀ d ∈ n.text ++ [c], isSpace d = false := by
  simp only [List.forall_mem_append, List.forall_mem_singleton]
  exact ⟨fun d hd => (n.plain d hd).1, hc⟩

theorem SignalDef.isWord_bitDef (s : SignalDef) : IsWord s.bitDef := by
  refine isWord_append_cons (fun c hc => not_isSpace_of_mem_decimalInt hc) (by decide) ?_
  simp only [List.forall_mem_append, List.forall_mem_cons]
  refine ⟨fun c hc => not_isSpace_of_mem_decimalInt hc, by decide, ?_, ?_,
    List.forall_mem_nil _⟩
  · split <;> decide
  · split <;> decide

theorem SignalDef.isWord_factorOffset (s : SignalDef) : IsWord s.factorOffset := by
  refine isWord_append_cons (s := '(' :: s.factor.text) ?_ (by decide)
    (s.offset.plain_append (by decide))
  rw [List.forall_mem_cons]
  exact ⟨by decide, fun c hc => (s.factor.plain c hc).1⟩

theorem SignalDef.isWord_minMax (s : SignalDef) : IsWord s.minMax := by
  refine isWord_append_cons (s := '[' :: s.min.text) ?_ (by decide)
    (s.max.plain_append (by decide))
  rw [List.forall_mem_cons]
  exact ⟨by decide, fun c hc => (s.min.plain c hc).1⟩

/-- Names with commas between them are one word. -/
theorem isWord_receivers {names : List Name} (h : names ≠ []) :
    IsWord ([','].intercalate (names.map (·.text))) := by
  induction names with
  | nil => exact absurd rfl h
  | cons n names ih =>
    cases names with
    | nil => simpa using n.isWord
    | cons n' names =>
      have hrest := ih (List.cons_ne_nil _ _)
      rw [List.map_cons, List.map_cons, List.intercalate_cons_cons, List.append_assoc]
      exact isWord_append_cons n.isWord.plain (by decide) hrest.plain

/-- The receivers are the pieces of their list. -/
theorem splitOn_receivers {names : List Name} (h : names ≠ []) :
    ([','].intercalate (names.map (·.text))).splitOn ',' = names.map (·.text) := by
  apply List.splitOn_intercalate
  · intro t ht
    obtain ⟨n, -, rfl⟩ := List.mem_map.mp ht
    intro hmem
    exact (n.plain ',' hmem).1 rfl
  · simpa using h

/-- The line of a message neither begins nor ends with a blank. -/
theorem MessageDef.trim_line (m : MessageDef) : trim m.line = m.line := by
  apply trim_of_suffix _ m.sender.isWord
  · refine ⟨"BO_ ".toList ++ (decimal m.id.toNat ++ ' ' :: (m.name.text ++ ':' :: ' ' ::
      (decimalInt m.dlc.toInt ++ [' ']))), ?_⟩
    simp [MessageDef.line]
  · rintro c hc
    cases hc
    decide

/-- The line of a message is read as the message without signals. -/
theorem MessageDef.parse_line (m : MessageDef) :
    parseMessageLine m.line =
      .ok { id := m.id, name := m.name.text, dlc := m.dlc, sender := m.sender.text,
            signals := ∅ } := by
  have hname : IsWord (m.name.text ++ [':']) :=
    isWord_append_cons m.name.isWord.plain (by decide) (List.forall_mem_nil _)
  have hdrop : m.line.drop 4 = [] ++ (decimal m.id.toNat ++ ([' '] ++ ((m.name.text ++ [':']) ++
      ([' '] ++ (decimalInt m.dlc.toInt ++ ([' '] ++ (m.sender.text ++ []))))))) := by
    simp [MessageDef.line]
  have hend : ∀ c ∈ ([] : Text).head?, isSpace c = true := fun c hc => nomatch hc
  unfold parseMessageLine
  rw [hdrop]
  dsimp only
  rw [readUInt32_append (List.forall_mem_nil _) m.id 0 (isSpace_head_blank _)]
  dsimp only
  rw [readWord_append isSpace_blank hname (isSpace_head_blank _)]
  dsimp only
  rw [readInt32_append isSpace_blank m.dlc 0 (isSpace_head_blank _)]
  dsimp only
  rw [readWord_append isSpace_blank m.sender.isWord hend]
  dsimp only
  rw [if_pos List.getLast?_concat, List.dropLast_concat]

/-- What is behind the unit when the line is trimmed. -/
def SignalDef.tail (s : SignalDef) : Text :=
  if s.receivers.isEmpty then [] else ' ' :: s.receiverList

/-- The unit in its quotation marks and what is behind it. -/
def SignalDef.quoted (s : SignalDef) : Text := '"' :: (s.unit.text ++ '"' :: s.tail)

/-- The trimmed line ends with a word. -/
theorem SignalDef.exists_suffix (s : SignalDef) : ∃ t, IsWord t ∧ t <:+ s.body ++ s.tail := by
  by_cases h : s.receivers = []
  · have htail : s.tail = [] := by simp [SignalDef.tail, h]
    have hquote : IsWord ['"'] := ⟨by simp, List.forall_mem_singleton.mpr rfl⟩
    refine ⟨['"'], hquote, s.bitDef ++ ' ' :: (s.factorOffset ++ ' ' ::
      (s.minMax ++ ' ' :: '"' :: s.unit.text)), ?_⟩
    simp [SignalDef.body, htail]
  · refine ⟨s.receiverList, isWord_receivers h, s.body ++ [' '], ?_⟩
    simp [SignalDef.tail, h]

/-- A text that begins with no blank and ends as the trimmed line is not trimmed. -/
theorem SignalDef.trim_eq_self (s : SignalDef) {u : Text}
    (hhead : ∀ c ∈ u.head?, isSpace c = false) (hu : s.body ++ s.tail <:+ u) :
    trim u = u := by
  obtain ⟨t, ht, hsuffix⟩ := s.exists_suffix
  exact trim_of_suffix hhead ht (hsuffix.trans hu)

theorem SignalDef.trim_line (s : SignalDef) :
    trim s.line = "SG_ ".toList ++ (s.name.text ++ (" : ".toList ++ (s.body ++ s.tail))) := by
  have hself : trim ("SG_ ".toList ++ (s.name.text ++ (" : ".toList ++ (s.body ++ s.tail)))) =
      "SG_ ".toList ++ (s.name.text ++ (" : ".toList ++ (s.body ++ s.tail))) := by
    apply s.trim_eq_self
    · rintro c hc
      cases hc
      decide
    · exact ⟨"SG_ ".toList ++ (s.name.text ++ " : ".toList), by simp⟩
  by_cases h : s.receivers = []
  · have hline : s.line =
        "SG_ ".toList ++ (s.name.text ++ (" : ".toList ++ (s.body ++ s.tail))) ++ [' '] := by
      simp [SignalDef.line, SignalDef.tail, SignalDef.receiverList, h]
    rw [hline, trim_append_blank, hself]
  · have hline : s.line =
        "SG_ ".toList ++ (s.name.text ++ (" : ".toList ++ (s.body ++ s.tail))) := by
      simp [SignalDef.line, SignalDef.tail, h]
    rw [hline, hself]

/-- The characters of a signal's line and the texts of its numbers. -/
def SignalDef.cut (s : SignalDef) : SignalText where
  name := s.name.text
  start := decimalInt s.startBit.toInt
  length := decimalInt s.length.toInt
  order := if s.byteOrder = .bigEndian then '0' else '1'
  sign := if s.isSigned then '-' else '+'
  scale := some (s.factor.text, s.offset.text)
  range := some (s.min.text, s.max.text)
  unit := stripQuotes (s.quoted.takeWhile (!isSpace ·))
  receivers :=
    (InputStream.words (some (s.quoted.dropWhile (!isSpace ·)))).flatMap fun rx =>
      (rx.splitOn ',').filter (!·.isEmpty)

/-- A number holds none of the characters around numbers. -/
theorem Number.not_mem (n : Number) (hc : isNumberMark c = true) : c ∉ n.text := by
  intro h
  exact absurd hc (by simp [(n.plain c h).2])

/-- The brackets around a pair of numbers are removed. -/
theorem cutAt_filter {l r mid : Char} (a b : Number) (hl : isNumberMark l = true)
    (hr : isNumberMark r = true) (hmid : isNumberMark mid = true) (hml : mid ≠ l)
    (hmr : mid ≠ r) :
    cutAt mid ((l :: (a.text ++ mid :: (b.text ++ [r]))).filter fun c => c ≠ l && c ≠ r) =
      some (a.text, b.text) := by
  have hself : ∀ n : Number, n.text.filter (fun c => c ≠ l && c ≠ r) = n.text := by
    intro n
    apply List.filter_eq_self.mpr
    intro c hc
    have hcl : c ≠ l := fun h => n.not_mem hl (h ▸ hc)
    have hcr : c ≠ r := fun h => n.not_mem hr (h ▸ hc)
    simp [hcl, hcr]
  have hfilter : (l :: (a.text ++ mid :: (b.text ++ [r]))).filter (fun c => c ≠ l && c ≠ r) =
      a.text ++ mid :: b.text := by
    rw [List.filter_cons_of_neg (by simp), List.filter_append, hself,
      List.filter_cons_of_pos (by simp [hml, hmr]), List.filter_append, hself,
      List.filter_cons_of_neg (by simp), List.filter_nil, List.append_nil]
  rw [hfilter, cutAt_append _ (a.not_mem hmid)]

/-- The bit definition is cut at the bar and at the `@`. -/
theorem SignalDef.cutAt_bitDef (s : SignalDef) :
    cutAt '|' s.bitDef = some (decimalInt s.startBit.toInt,
        decimalInt s.length.toInt ++ ['@', s.cut.order, s.cut.sign]) ∧
      cutAt '@' s.bitDef = some (decimalInt s.startBit.toInt ++ '|' :: decimalInt s.length.toInt,
        [s.cut.order, s.cut.sign]) := by
  have hat : s.bitDef = decimalInt s.startBit.toInt ++ '|' :: decimalInt s.length.toInt ++
      '@' :: [s.cut.order, s.cut.sign] := by
    simp [SignalDef.bitDef, SignalDef.cut]
  constructor
  · exact cutAt_append _ (not_mem_decimalInt (by decide) (by decide))
  · rw [hat]
    apply cutAt_append
    rw [List.mem_append, List.mem_cons, not_or, not_or]
    exact ⟨not_mem_decimalInt (by decide) (by decide), by decide,
      not_mem_decimalInt (by decide) (by decide)⟩

/-- The words of a trimmed line behind the colon. -/
theorem SignalDef.trim_body (s : SignalDef) :
    trim (s.body ++ s.tail) = [] ++ (s.bitDef ++ ([' '] ++ (s.factorOffset ++
      ([' '] ++ (s.minMax ++ ([' '] ++ s.quoted)))))) := by
  have hwords : s.body ++ s.tail = s.bitDef ++ ([' '] ++ (s.factorOffset ++
      ([' '] ++ (s.minMax ++ ([' '] ++ s.quoted))))) := by
    simp [SignalDef.body, SignalDef.quoted]
  rw [s.trim_eq_self _ (List.suffix_refl _), hwords, List.nil_append]
  rw [hwords]
  exact s.isWord_bitDef.head_append

/-- The line of a signal is cut where it was put together. -/
theorem SignalDef.cutSignalLine_line (s : SignalDef) :
    cutSignalLine (trim s.line) = .ok s.cut := by
  have hname := s.name.isWord.trim_eq
  have hdrop : trim ((trim s.line).drop 4) =
      s.name.text ++ ' ' :: ([':', ' '] ++ (s.body ++ s.tail)) := by
    have hline : (trim s.line).drop 4 =
        s.name.text ++ (" : ".toList ++ (s.body ++ s.tail)) := by
      rw [s.trim_line]
      rfl
    rw [hline, s.trim_eq_self s.name.isWord.head_append]
    · rfl
    · exact ⟨s.name.text ++ " : ".toList, by simp⟩
  have hcolon : cutAtText " : ".toList (s.name.text ++ ' ' :: ([':', ' '] ++ (s.body ++ s.tail))) =
      some (s.name.text, s.body ++ s.tail) :=
    cutAtText_append fun h => absurd (s.name.isWord.plain ' ' h) (by decide)
  have hquote : ∀ c ∈ s.quoted.head?, isSpace c = false := by
    rintro c hc
    cases hc
    rfl
  have hunit : InputStream.readWord (some ([' '] ++ s.quoted)) [] =
      (s.quoted.takeWhile (!isSpace ·), some (s.quoted.dropWhile (!isSpace ·))) :=
    readWord_eq isSpace_blank (List.cons_ne_nil _ _) hquote
  obtain ⟨hpipe, hat⟩ := s.cutAt_bitDef
  unfold cutSignalLine
  rw [hdrop, hcolon]
  dsimp only
  rw [s.trim_body, readWord_append (List.forall_mem_nil _) s.isWord_bitDef (isSpace_head_blank _)]
  dsimp only
  rw [readWord_append isSpace_blank s.isWord_factorOffset (isSpace_head_blank _)]
  dsimp only
  rw [readWord_append isSpace_blank s.isWord_minMax (isSpace_head_blank _)]
  dsimp only
  rw [hunit, hpipe, hat]
  dsimp only
  have hscale : cutAt ',' (s.factorOffset.filter fun c => c ≠ '(' && c ≠ ')') =
      some (s.factor.text, s.offset.text) :=
    cutAt_filter _ _ (by decide) (by decide) (by decide) (by decide) (by decide)
  have hrange : cutAt '|' (s.minMax.filter fun c => c ≠ '[' && c ≠ ']') =
      some (s.min.text, s.max.text) :=
    cutAt_filter _ _ (by decide) (by decide) (by decide) (by decide) (by decide)
  have hlength : ∀ start length behind : Text, (length ++ behind).take
      (if start.length < (start ++ '|' :: length).length then
        (start ++ '|' :: length).length - start.length - 1
      else (length ++ behind).length) = length := by
    intro start length behind
    simp
  rw [hname, hscale, hrange, hlength]
  rfl

/-- The signal that the parser makes of the line of a definition. -/
def SignalDef.read (s : SignalDef) : Signal :=
  { s.signal with
    unit := s.unit.text.takeWhile (!isSpace ·)
    receivers := s.cut.receivers }

theorem stripQuotes_cons {t : Text} (h : '"' ∉ t) : stripQuotes ('"' :: t) = t := by
  have hlast : t.getLast? ≠ some '"' := fun hc => h (List.mem_of_getLast? hc)
  rw [stripQuotes, List.head?_cons, if_pos rfl]
  exact if_neg hlast

theorem stripQuotes_quoted (t : Text) : stripQuotes ('"' :: (t ++ ['"'])) = t := by
  have hlast : (t ++ ['"']).getLast? = some '"' := List.getLast?_concat
  rw [stripQuotes, List.head?_cons, if_pos rfl]
  exact (if_pos hlast).trans List.dropLast_concat

/-- A unit without white space is one word with its quotation marks. -/
theorem SignalDef.isWord_unit (h : ∀ c ∈ s.unit.text, isSpace c = false) :
    IsWord ('"' :: (s.unit.text ++ ['"'])) := by
  refine ⟨List.cons_ne_nil _ _, ?_⟩
  rw [List.forall_mem_cons, List.forall_mem_append, List.forall_mem_singleton]
  exact ⟨by decide, h, by decide⟩

/-- What the parser takes for the unit in quotation marks, if the unit holds no white
space. -/
theorem SignalDef.quoted_eq (s : SignalDef) :
    s.quoted = '"' :: (s.unit.text ++ ['"']) ++ s.tail := by
  simp [SignalDef.quoted]

/-- What is behind the unit begins with a blank, if it is not empty. -/
theorem SignalDef.tail_head (s : SignalDef) : ∀ c ∈ s.tail.head?, (!isSpace c) = false := by
  intro c hc
  unfold SignalDef.tail at hc
  split at hc
  · cases hc
  · cases hc
    rfl

/-- The unit ends at its first white space. -/
theorem SignalDef.cut_unit (s : SignalDef) :
    s.cut.unit = s.unit.text.takeWhile (!isSpace ·) := by
  change stripQuotes (s.quoted.takeWhile (!isSpace ·)) = _
  by_cases h : ∀ c ∈ s.unit.text, isSpace c = false
  · have hword : ∀ c ∈ '"' :: (s.unit.text ++ ['"']), (!isSpace c) = true := fun c hc => by
      simp [(SignalDef.isWord_unit h).plain c hc]
    have hall : ∀ c ∈ s.unit.text, (!isSpace c) = true := fun c hc => by simp [h c hc]
    rw [s.quoted_eq, takeWhile_append_of_head hword s.tail_head, stripQuotes_quoted,
      List.takeWhile_eq_self_iff.mpr hall]
  · have hlength : (s.unit.text.takeWhile (!isSpace ·)).length ≠ s.unit.text.length := by
      intro hlen
      have hself := (List.takeWhile_prefix (!isSpace ·)).eq_of_length hlen
      exact h fun c hc => by simpa using List.takeWhile_eq_self_iff.mp hself c hc
    have htake : s.quoted.takeWhile (!isSpace ·) =
        '"' :: s.unit.text.takeWhile (!isSpace ·) := by
      rw [SignalDef.quoted, List.takeWhile_cons_of_pos rfl, List.takeWhile_append, if_neg hlength]
    rw [htake, stripQuotes_cons]
    intro hmem
    exact (s.unit.plain '"' ((List.takeWhile_prefix _).subset hmem)).1 rfl

/-- A unit without white space leaves the receivers as they are written. -/
theorem SignalDef.cut_receivers (h : ∀ c ∈ s.unit.text, isSpace c = false) :
    s.cut.receivers = s.receivers.map (·.text) := by
  have hword : ∀ c ∈ '"' :: (s.unit.text ++ ['"']), (!isSpace c) = true := fun c hc => by
    simp [(SignalDef.isWord_unit h).plain c hc]
  have hdrop : s.quoted.dropWhile (!isSpace ·) = s.tail := by
    rw [s.quoted_eq, List.dropWhile_append_of_pos hword]
    cases htail : s.tail with
    | nil => rfl
    | cons c t =>
      have hc := s.tail_head c (by rw [htail]; rfl)
      rw [List.dropWhile_cons_of_neg (by simp [hc])]
  change (InputStream.words (some (s.quoted.dropWhile (!isSpace ·)))).flatMap _ = _
  rw [hdrop]
  by_cases hnone : s.receivers = []
  · rw [hnone, show s.tail = [] by simp [SignalDef.tail, hnone]]
    rfl
  · have htail : s.tail = [' '] ++ s.receiverList := by simp [SignalDef.tail, hnone]
    have hwords : InputStream.words (some ([' '] ++ s.receiverList)) = [s.receiverList] :=
      words_singleton isSpace_blank (isWord_receivers hnone)
    have hsplit : s.receiverList.splitOn ',' = s.receivers.map (·.text) :=
      splitOn_receivers hnone
    rw [htail, hwords, List.flatMap_singleton, hsplit]
    apply List.filter_eq_self.mpr
    intro t ht
    obtain ⟨n, -, rfl⟩ := List.mem_map.mp ht
    simp [n.isWord.ne_nil]

/-- The line of a signal is read up to the white space in its unit. -/
theorem SignalDef.parse_line (s : SignalDef) : parseSignalLine (trim s.line) = .ok s.read := by
  have hint : ∀ x : Int32, convert (stoi (decimalInt x.toInt)) = .ok x := by
    intro x
    rw [stoi_decimalInt]
    rfl
  have hpair : ∀ (a b : Number) (d : Double × Double),
      convertPair (some (a.text, b.text)) d = .ok (a.value, b.value) := by
    intro a b d
    rw [convertPair, a.reads, b.reads]
    rfl
  have hstart : convert (stoi s.cut.start) = .ok s.startBit := hint _
  have hlength : convert (stoi s.cut.length) = .ok s.length := hint _
  have hscale : convertPair s.cut.scale (.one, .zero) = .ok (s.factor.value, s.offset.value) :=
    hpair _ _ _
  have hrange : convertPair s.cut.range (.zero, .zero) = .ok (s.min.value, s.max.value) :=
    hpair _ _ _
  have horder : (if s.cut.order = '0' then ByteOrder.bigEndian else .littleEndian) =
      s.byteOrder := by
    have hcases : ∀ o : ByteOrder, (if (if o = .bigEndian then '0' else '1') = '0'
        then ByteOrder.bigEndian else .littleEndian) = o := by
      rintro (_ | _) <;> rfl
    exact hcases s.byteOrder
  have hsign : decide (s.cut.sign = '-') = s.isSigned := by
    have hcases : ∀ b : Bool, decide ((if b then '-' else '+') = '-') = b := by decide
    exact hcases s.isSigned
  rw [parseSignalLine, s.cutSignalLine_line]
  change s.cut.signal = _
  rw [SignalText.signal, hstart, hlength, hscale, hrange, horder, hsign, s.cut_unit]
  rfl

/-- The signal is read as it is defined if and only if its unit holds no white space. -/
theorem SignalDef.read_eq_signal_iff :
    s.read = s.signal ↔ ∀ c ∈ s.unit.text, isSpace c = false := by
  constructor
  · intro h
    have hunit : s.unit.text.takeWhile (!isSpace ·) = s.unit.text := congrArg Signal.unit h
    intro c hc
    simpa using List.takeWhile_eq_self_iff.mp hunit c hc
  · intro h
    have hunit : s.unit.text.takeWhile (!isSpace ·) = s.unit.text := by
      apply List.takeWhile_eq_self_iff.mpr
      intro c hc
      simp [h c hc]
    rw [SignalDef.read, hunit, SignalDef.cut_receivers h]
    rfl

end CppCan.Dbc
