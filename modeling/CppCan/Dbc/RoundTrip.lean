import CppCan.Dbc.Writing

/-!
# Reading back what is written

The lines of the definitions, with blank lines and comments anywhere between them, are
parsed to the database that is defined if and only if no unit holds white space. The
parser reads a unit as one word, although it stands in quotation marks.
-/

namespace CppCan.Dbc

open CppCan.Core

/-- A blank line, or a comment behind blanks. -/
structure IsPadding (t : Text) : Prop where
  no_line_end : '\n' ∉ t
  skipped : ∃ blanks rest, t = blanks ++ rest ∧ (∀ c ∈ blanks, isTrimmed c = true) ∧
    (rest = [] ∨ ∃ comment, rest = '/' :: '/' :: comment)

/-- Lines with blank lines and comments anywhere between them. -/
inductive Padded : List Text → List Text → Prop
  | nil : Padded [] []
  | line (t : Text) {written lines : List Text} (h : Padded written lines) :
      Padded (t :: written) (t :: lines)
  | padding {t : Text} {written lines : List Text} (ht : IsPadding t)
      (h : Padded written lines) : Padded written (t :: lines)

variable {t : Text} {written lines : List Text} {st : ParseState} {s : SignalDef} {m : MessageDef}
  {defs : Definitions}

theorem isSkipped_of_isPadding (h : IsPadding t) : isSkipped (trim t) = true := by
  obtain ⟨blanks, rest, rfl, hblanks, hrest⟩ := h.skipped
  rw [trim, List.dropWhile_append_of_pos hblanks]
  rcases hrest with rfl | ⟨comment, rfl⟩
  · rfl
  · change isSkipped (List.rdropWhile isTrimmed (['/'] ++ '/' :: comment)) = true
    rw [rdropWhile_append_cons rfl]
    rfl

theorem parseLine_of_isPadding (h : IsPadding t) : parseLine st t = .ok st := by
  rw [parseLine]
  exact if_pos (isSkipped_of_isPadding h)

/-- Blank lines and comments change nothing. -/
theorem Padded.foldlM_eq (h : Padded written lines) (st : ParseState) :
    lines.foldlM parseLine st = written.foldlM parseLine st := by
  induction h generalizing st with
  | nil => rfl
  | line t h ih =>
    rw [List.foldlM_cons, List.foldlM_cons]
    congr
    funext st'
    exact ih st'
  | padding ht h ih =>
    rw [List.foldlM_cons, parseLine_of_isPadding ht]
    exact ih st

theorem Padded.no_line_end (h : Padded written lines) (hwritten : ∀ t ∈ written, '\n' ∉ t) :
    ∀ t ∈ lines, '\n' ∉ t := by
  induction h with
  | nil => exact hwritten
  | line t h ih =>
    obtain ⟨ht, hrest⟩ := List.forall_mem_cons.mp hwritten
    exact List.forall_mem_cons.mpr ⟨ht, ih hrest⟩
  | padding ht h ih => exact List.forall_mem_cons.mpr ⟨ht.no_line_end, ih hwritten⟩

theorem no_line_end_of_isWord (h : IsWord t) : '\n' ∉ t := fun hmem =>
  absurd (h.plain '\n' hmem) (by decide)

theorem MessageDef.no_line_end (m : MessageDef) : '\n' ∉ m.line := by
  have hid : '\n' ∉ decimal m.id.toNat := no_line_end_of_isWord (isWord_decimalInt m.id.toNat)
  have hname := no_line_end_of_isWord m.name.isWord
  have hdlc := no_line_end_of_isWord (isWord_decimalInt m.dlc.toInt)
  have hsender := no_line_end_of_isWord m.sender.isWord
  simp [MessageDef.line, hid, hname, hdlc, hsender]

theorem SignalDef.no_line_end (s : SignalDef) : '\n' ∉ s.line := by
  have hname := no_line_end_of_isWord s.name.isWord
  have hbits := no_line_end_of_isWord s.isWord_bitDef
  have hscale := no_line_end_of_isWord s.isWord_factorOffset
  have hrange := no_line_end_of_isWord s.isWord_minMax
  have hunit : '\n' ∉ s.unit.text := fun h => (s.unit.plain '\n' h).2 rfl
  have hreceivers : '\n' ∉ s.receiverList := by
    by_cases h : s.receivers = []
    · simp [SignalDef.receiverList, h]
    · exact no_line_end_of_isWord (isWord_receivers h)
  simp [SignalDef.line, SignalDef.body, hname, hbits, hscale, hrange, hunit, hreceivers]

theorem Definitions.no_line_end (defs : Definitions) : ∀ t ∈ defs.lines, '\n' ∉ t := by
  intro t ht
  obtain ⟨m, -, ht⟩ := List.mem_flatMap.mp ht
  rcases List.mem_cons.mp ht with rfl | ht
  · exact m.no_line_end
  · obtain ⟨s, -, rfl⟩ := List.mem_map.mp ht
    exact s.no_line_end

/-- The line of a message begins a message without signals. -/
theorem MessageDef.parseLine_line (m : MessageDef) (st : ParseState) :
    parseLine st m.line = .ok
      { db := ⟨st.db.messages.insert m.id { m.message SignalDef.read with signals := ∅ }⟩
        curMsg := some m.id } := by
  rw [parseLine, m.trim_line]
  change (parseMessageLine m.line >>= fun msg =>
    .ok ({ db := ⟨st.db.messages.insert msg.id msg⟩, curMsg := some msg.id } : ParseState)) = _
  rw [m.parse_line]
  rfl

/-- The line of a signal adds the signal to the message. -/
theorem SignalDef.parseLine_line (s : SignalDef) (db : DB) (id : UInt32) :
    parseLine { db, curMsg := some id } s.line = .ok
      { db := db.setSignal id s.read, curMsg := some id } := by
  have hskip : isSkipped (trim s.line) = false := by
    rw [s.trim_line]
    rfl
  have hsg : (trim s.line).take 4 = "SG_ ".toList := by
    rw [s.trim_line]
    rfl
  have hbo : (trim s.line).take 4 ≠ "BO_ ".toList := by
    rw [hsg]
    decide
  rw [parseLine]
  dsimp only
  rw [if_neg (by simp [hskip]), if_neg hbo, if_pos hsg, s.parse_line]
  rfl

/-- The lines of the signals add them to the message one after the other. -/
theorem foldlM_signals (signals : List SignalDef) (messages : Finmap fun _ : UInt32 => Message)
    (id : UInt32) (msg : Message) :
    (signals.map SignalDef.line).foldlM parseLine
        { db := ⟨messages.insert id msg⟩, curMsg := some id } = .ok
      { db := ⟨messages.insert id
          { msg with signals := storeAll (·.name.text) SignalDef.read msg.signals signals }⟩
        curMsg := some id } := by
  induction signals generalizing msg with
  | nil => rfl
  | cons s signals ih =>
    have hset : DB.setSignal ⟨messages.insert id msg⟩ id s.read =
        ⟨messages.insert id { msg with signals := msg.signals.insert s.name.text s.read }⟩ := by
      rw [DB.setSignal, Finmap.lookup_insert]
      exact congrArg DB.mk (Finmap.insert_insert _)
    rw [List.map_cons, List.foldlM_cons, s.parseLine_line, hset]
    exact ih _

/-- The lines of a message store it with its signals. -/
theorem MessageDef.foldlM_lines (m : MessageDef) (st : ParseState) :
    m.lines.foldlM parseLine st = .ok
      { db := ⟨st.db.messages.insert m.id (m.message SignalDef.read)⟩, curMsg := some m.id } := by
  rw [MessageDef.lines, List.foldlM_cons, m.parseLine_line]
  exact foldlM_signals m.signals _ _ _

/-- The lines of all messages store them one after the other. -/
theorem foldlM_messages (messages : List MessageDef) (st : ParseState) :
    ∃ curMsg, (messages.flatMap MessageDef.lines).foldlM parseLine st = .ok
      { db := ⟨storeAll (·.id) (MessageDef.message SignalDef.read) st.db.messages messages⟩,
        curMsg } := by
  induction messages generalizing st with
  | nil => exact ⟨st.curMsg, rfl⟩
  | cons m messages ih =>
    obtain ⟨curMsg, h⟩ := ih
      { db := ⟨st.db.messages.insert m.id (m.message SignalDef.read)⟩, curMsg := some m.id }
    refine ⟨curMsg, ?_⟩
    rw [List.flatMap_cons, List.foldlM_append, m.foldlM_lines]
    exact h

/-- The text is parsed to the signals as they are read. -/
theorem parse_unlines (h : Padded defs.lines lines) :
    parse (unlines lines) = .ok (defs.dbWith SignalDef.read) := by
  obtain ⟨curMsg, hrun⟩ := foldlM_messages defs.messages {}
  have hlines : defs.lines.foldlM parseLine {} = .ok
      { db := defs.dbWith SignalDef.read, curMsg } := hrun
  rw [parse, getlines_unlines (h.no_line_end defs.no_line_end), h.foldlM_eq, hlines]
  rfl

/-- The database determines the signals that are stored. -/
theorem Definitions.dbWith_eq_iff {f g : SignalDef → Signal} :
    defs.dbWith f = defs.dbWith g ↔ ∀ m ∈ defs.messages, ∀ s ∈ m.signals, f s = g s := by
  have hmessage : ∀ m : MessageDef,
      m.message f = m.message g ↔ ∀ s ∈ m.signals, f s = g s := by
    intro m
    rw [← collect_eq_iff m.nodup]
    exact ⟨congrArg Message.signals, fun h => congrArg (fun signals => Message.mk m.id
      m.name.text m.dlc m.sender.text signals) h⟩
  have hdb : defs.dbWith f = defs.dbWith g ↔
      collect (·.id) (MessageDef.message f) defs.messages =
        collect (·.id) (MessageDef.message g) defs.messages :=
    ⟨congrArg DB.messages, congrArg DB.mk⟩
  rw [hdb, collect_eq_iff defs.nodup]
  exact forall₂_congr fun m _ => hmessage m

/-- What is written is read back if and only if no unit holds white space. -/
theorem parse_unlines_eq_iff (h : Padded defs.lines lines) :
    parse (unlines lines) = .ok defs.db ↔
      ∀ m ∈ defs.messages, ∀ s ∈ m.signals, ∀ c ∈ s.unit.text, isSpace c = false := by
  rw [parse_unlines h, Except.ok.injEq, Definitions.db, Definitions.dbWith_eq_iff]
  simp only [SignalDef.read_eq_signal_iff]

/-- A name from a text that passes the checks. -/
def Name.ofText (t : Text)
    (h : (!t.isEmpty && t.all fun c => !isSpace c && c != ',' && c != ':') = true) : Name where
  text := t
  isWord := by
    simp only [Bool.and_eq_true, List.all_eq_true, Bool.not_eq_true',
      List.isEmpty_eq_false_iff] at h
    exact ⟨h.1, fun c hc => (h.2 c hc).1.1⟩
  plain := by
    simp only [Bool.and_eq_true, List.all_eq_true, bne_iff_ne] at h
    exact fun c hc => ⟨(h.2 c hc).1.2, (h.2 c hc).2⟩

/-- A number from a text that passes the checks. -/
def Number.ofText (t : Text) (value : Double) (reads : stod t = .ok value)
    (h : (t.all fun c => !isSpace c && !isNumberMark c) = true) : Number where
  text := t
  value := value
  reads := reads
  plain := by
    simp only [Bool.and_eq_true, List.all_eq_true, Bool.not_eq_true'] at h
    exact h

/-- A unit from a text that passes the checks. -/
def UnitName.ofText (t : Text) (h : (t.all fun c => c != '"' && c != '\n') = true) :
    UnitName where
  text := t
  plain := by
    simp only [Bool.and_eq_true, List.all_eq_true, bne_iff_ne] at h
    exact h

/-- A message with the speed of an engine in the given unit. -/
def engineData (unit : UnitName) : Definitions where
  messages := [{
    id := 256
    name := .ofText "EngineData".toList (by decide)
    dlc := 8
    sender := .ofText "ECU".toList (by decide)
    signals := [{
      name := .ofText "EngineSpeed".toList (by decide)
      startBit := 0
      length := 16
      byteOrder := .littleEndian
      isSigned := false
      factor := .ofText "0.25".toList ⟨0x3FD0000000000000⟩ (by decide +kernel) (by decide)
      offset := .ofText "0".toList .zero (by decide +kernel) (by decide)
      min := .ofText "0".toList .zero (by decide +kernel) (by decide)
      max := .ofText "16383.75".toList ⟨0x40CFFFE000000000⟩ (by decide +kernel) (by decide)
      unit
      receivers := [.ofText "Vector__XXX".toList (by decide)] }]
    nodup := by simp }]
  nodup := by simp

/-- The unit of the speed is one word. -/
def rpm : UnitName := .ofText "rpm".toList (by decide)

theorem parse_unlines_rpm :
    parse (unlines ("// speeds".toList :: (engineData rpm).lines)) = .ok (engineData rpm).db ↔
      ∀ m ∈ (engineData rpm).messages, ∀ s ∈ m.signals, ∀ c ∈ s.unit.text, isSpace c = false :=
  parse_unlines_eq_iff (.padding ⟨by decide, [], _, rfl, by simp, .inr ⟨_, rfl⟩⟩
    (.line _ (.line _ .nil)))

/-- Of a unit with a blank only the first word is read. -/
theorem parse_unlines_ne :
    parse (unlines (engineData (.ofText "rev per min".toList (by decide))).lines) ≠
      .ok (engineData (.ofText "rev per min".toList (by decide))).db := by
  decide +kernel

end CppCan.Dbc
