import CppCan.Cli.Output
import CppCan.Cli.Reading

/-!
# Converting and sending

`convert` reads a frame from a text of any number of lines and writes its message on one
line; `send` reads messages line by line. What one run of `convert` after another writes is
therefore a stream that one run of `send` publishes, frame by frame.
-/

namespace CppCan.Cli

open CppCan.Core CppCan.Relay

variable {f : Frame} {m : Member} {s t : Text} {data : List UInt8} {now : Int}

/-- A text as `convert` reads it: its lines without their ends. -/
def joinLines (s : Text) : Text := s.filter (· ≠ '\n')

theorem joinLines_append (s t : Text) : joinLines (s ++ t) = joinLines s ++ joinLines t :=
  List.filter_append ..

theorem joinLines_of_not_mem (h : '\n' ∉ s) : joinLines s = s :=
  List.filter_eq_self.mpr fun _ hc => decide_eq_true fun heq => h (heq ▸ hc)

theorem joinLines_cons {c : Char} (h : c ≠ '\n') (s : Text) :
    joinLines (c :: s) = c :: joinLines s :=
  List.filter_cons_of_pos (by simp [h])

/-- The lines of a text, one behind the other. -/
theorem flatten_getlines (s : Text) : (getlines s).flatten = joinLines s := by
  induction s with
  | nil => rfl
  | cons c s ih =>
    rw [getlines]
    by_cases hc : c = '\n'
    · subst hc
      exact ih
    · rw [if_neg hc, joinLines_cons hc, ← ih]
      cases getlines s <;> rfl

/-- A character that no numeral holds. -/
theorem not_mem_decimal {c : Char} (h : c.isDigit = false) (n : Nat) : c ∉ decimal n := by
  intro hmem
  have hdigit := Nat.isDigit_of_mem_toDigits (by omega) (by omega) hmem
  exact Bool.false_ne_true (h.symm.trans hdigit)

theorem line_end_not_mem_decimal (n : Nat) : '\n' ∉ decimal n := not_mem_decimal (by decide) n

/-- Base64 is written on one line. -/
theorem line_end_not_mem_base64Encode (data : List UInt8) : '\n' ∉ base64Encode data := by
  intro hmem
  rcases Base64.alphabet_or_pad (Base64.of_base64Encode data) '\n' hmem with h | h
  · exact absurd h (by decide)
  · exact absurd h (by decide)

def Gap.dropLines (g : Gap) : Gap where
  text := joinLines g.text
  white c hc := g.white c (List.mem_filter.mp hc).1

def DataForm.dropLines : DataForm → DataForm
  | .base64 => .base64
  | .array inner gaps =>
    .array inner.dropLines fun i => ((gaps i).1.dropLines, (gaps i).2.dropLines)

def Member.dropLines (m : Member) : Member where
  key := m.key
  beforeKey := m.beforeKey.dropLines
  beforeColon := m.beforeColon.dropLines
  beforeValue := m.beforeValue.dropLines
  afterValue := m.afterValue.dropLines
  form := m.form.dropLines

theorem map_key_dropLines (ms : List Member) :
    (ms.map Member.dropLines).map (·.key) = ms.map (·.key) := List.map_map

/-- The same document with its line ends left out. -/
def Document.dropLines (doc : Document f) : Document f where
  lead := doc.lead.dropLines
  members := doc.members.map Member.dropLines
  trail := doc.trail.dropLines
  nodup := (map_key_dropLines doc.members).symm ▸ doc.nodup
  id_mem := (map_key_dropLines doc.members).symm ▸ doc.id_mem
  omitted := (map_key_dropLines doc.members).symm ▸ doc.omitted

/-- The elements of an array hold no line end but in their gaps. -/
theorem joinLines_elementsText (gaps : Nat → Gap × Gap) (i : Nat) (data : List UInt8) :
    joinLines (elementsText gaps i data) =
      elementsText (fun i => ((gaps i).1.dropLines, (gaps i).2.dropLines)) i data := by
  induction data generalizing i with
  | nil => rfl
  | cons x data ih =>
    have hx := joinLines_of_not_mem (line_end_not_mem_decimal x.toNat)
    cases data with
    | nil =>
      simp only [elementsText, joinLines_append, hx]
      rfl
    | cons y data =>
      simp only [elementsText, joinLines_append, hx, joinLines_cons (c := ',') (by decide), ih]
      rfl

/-- A value holds no line end but in the gaps of an array. -/
theorem joinLines_value (v : Value) (form : DataForm) :
    joinLines (v.text form) = v.text form.dropLines := by
  cases v with
  | number n => exact joinLines_of_not_mem (line_end_not_mem_decimal n.toNat)
  | flag b => cases b <;> rfl
  | bytes data =>
    cases form with
    | base64 =>
      have hdata := joinLines_of_not_mem (line_end_not_mem_base64Encode data)
      simp only [Value.text, DataForm.text, DataForm.dropLines, joinLines_append, hdata,
        joinLines_cons (c := '"') (by decide)]
      rfl
    | array inner gaps =>
      simp only [Value.text, DataForm.text, DataForm.dropLines, joinLines_append,
        joinLines_cons (c := '[') (by decide)]
      cases hempty : data.isEmpty with
      | true => rfl
      | false =>
        simp only [Bool.false_eq_true, if_false, joinLines_elementsText]
        rfl

theorem line_end_not_mem_key (k : Key) : '\n' ∉ k.text := k.not_mem_text (by decide)

theorem joinLines_member (f : Frame) (m : Member) :
    joinLines (m.text f) = m.dropLines.text f := by
  have hkey := joinLines_of_not_mem (line_end_not_mem_key m.key)
  simp only [Member.text, joinLines_append, hkey, joinLines_value,
    joinLines_cons (c := '"') (by decide), joinLines_cons (c := ':') (by decide)]
  rfl

theorem joinLines_members (f : Frame) (ms : List Member) :
    joinLines (membersText f ms) = membersText f (ms.map Member.dropLines) := by
  induction ms with
  | nil => rfl
  | cons m ms ih =>
    cases ms with
    | nil => exact joinLines_member f m
    | cons m' ms =>
      simp only [membersText, joinLines_append, joinLines_member, ih, List.map_cons,
        joinLines_cons (c := ',') (by decide)]

/-- The lines of a document are a document. -/
theorem Document.joinLines_text (doc : Document f) : joinLines doc.text = doc.dropLines.text := by
  simp only [Document.text, joinLines_append, joinLines_members,
    joinLines_cons (c := '\x7b') (by decide), joinLines_cons (c := '\x7d') (by decide)]
  rfl

/-- The line that `convert` writes for a frame. -/
def frameLine (f : Frame) : Text := messageToJson (toMessage 0 f)

/-- A frame whose text is legible without its line ends is converted. -/
theorem main_convert (now : Int) (doc : Document f) (hvalid : f.Valid)
    (hlegible : doc.dropLines.Legible) :
    main now ["convert".toList, "--protocol".toList, "CAN".toList] doc.text =
      .ok (.success (frameLine f)) := by
  have hparse : parseFrameJson (getlines doc.text).flatten = .ok f := by
    rw [flatten_getlines, doc.joinLines_text]
    exact doc.dropLines.parseFrameJson_of_legible hlegible
  have hrun : cmdConvert now "CAN".toList doc.text = .success (frameLine f) := by
    have hcheck : validateFrame f = .ok () := hvalid
    rw [cmdConvert, if_neg (not_not.mpr rfl)]
    simp only [hparse, hcheck]
    rfl
  exact congrArg Except.ok hrun

/-- The message of a frame is written on one line. -/
theorem line_end_not_mem_frameLine (f : Frame) : '\n' ∉ frameLine f :=
  (jsonLine_messageToJson (plainMessage_toMessage 0 f)).oneLine

/-- A line denotes the frame of its message. -/
theorem lineFrame_of_parse {line : Text} {msg : Message} (hparse : parseMessageJson line = .ok msg)
    (hcan : msg.protocol = .CAN) (hframe : fromMessage msg = .ok f) (hvalid : f.Valid) :
    lineFrame line = some f := by
  have hcheck : validateFrame f = .ok () := hvalid
  have hconvert : convert msg = .ok f := by
    rw [convert, hframe]
    simp only [Except.mapError, ok_bind, hcheck]
    rfl
  rw [lineFrame, hparse]
  simp only [Except.toOption, Option.bind_eq_bind, Option.bind_some, hcan, if_true, hconvert]

/-- The line of a valid frame denotes it. -/
theorem lineFrame_frameLine (hvalid : f.Valid) : lineFrame (frameLine f) = some f := by
  have hproto : 0 ≤ Protocol.CAN.value.toInt := by decide
  obtain ⟨metadata, hlookup, hparse⟩ :=
    parseMessageJson_messageToJson (plainTexts_toMessage 0 f) hproto
  refine lineFrame_of_parse hparse rfl ?_ hvalid
  rw [← fromMessage_toMessage 0 hvalid]
  exact fromMessage_congr rfl rfl hlookup

/-- The line of a frame is not blank. -/
theorem isBlank_frameLine (f : Frame) : isBlank (frameLine f) = false := by
  have hbrace : ∃ rest, frameLine f = '\x7b' :: rest := ⟨_, messageToJson_eq _⟩
  obtain ⟨rest, hrest⟩ := hbrace
  rw [hrest, isBlank, List.all_cons]
  rfl

/-- An open private bus takes every valid frame. -/
theorem PrivateBus.send_of_valid (b : PrivateBus) (hopen : b.bus.closed = false)
    (hvalid : f.Valid) : ∃ b', b.send f = (b', none) ∧ b'.bus.closed = false := by
  have hcheck : validateFrame f = .ok () := hvalid
  have hsend : b.bus.send f = some (b.bus.countWrite f, none) := by
    unfold Virt.Bus.send
    simp only [hcheck, hopen, b.subs_eq]
    rfl
  refine ⟨(b.send f).1, ?_, ?_⟩
  · simp [PrivateBus.send, hsend]
  · simp only [PrivateBus.send, hsend, Option.get_some]
    exact hopen

/-- The lines of valid frames are published one after another. -/
theorem sendLines_frameLines {fs : List Frame} (hvalid : ∀ f ∈ fs, f.Valid)
    (result : SendStreamResult) (s : Sink PrivateBus) (hopen : s.bus.bus.closed = false) :
    ∃ result' b, sendLines virtualBus (fs.map frameLine) result s =
      .ok (result', ⟨b, s.sent ++ fs, s.err⟩) ∧ result'.exitCode = result.exitCode := by
  induction fs generalizing result s with
  | nil =>
    refine ⟨result, s.bus, ?_, rfl⟩
    rw [List.append_nil]
    rfl
  | cons f fs ih =>
    obtain ⟨hf, hfs⟩ := List.forall_mem_cons.mp hvalid
    obtain ⟨b, hsend, hb⟩ := s.bus.send_of_valid hopen hf
    have hline := lineFrame_frameLine hf
    rcases sendLines_cons virtualBus (fs.map frameLine) result s (isBlank_frameLine f) with
      ⟨err, hnone, -⟩ | ⟨f', b', hline', ⟨ec, err, hrefused, -⟩ | ⟨htaken, heq⟩⟩
    · rw [hline] at hnone
      cases hnone
    · obtain rfl := Option.some.inj (hline.symm.trans hline')
      have hsame := hsend.symm.trans hrefused
      cases hsame
    · obtain rfl := Option.some.inj (hline.symm.trans hline')
      obtain ⟨rfl, -⟩ := Prod.mk.inj (hsend.symm.trans htaken)
      obtain ⟨result', b'', hrun, hstatus⟩ := ih hfs
        { result with published := result.published + 1 } ⟨b, s.sent ++ [f], s.err⟩ hb
      refine ⟨result', b'', ?_, hstatus⟩
      rw [List.map_cons, heq, hrun, List.append_assoc, List.singleton_append]

/-- A stream of the lines of valid frames is published as it is. -/
theorem main_send (now : Int) {fs : List Frame} (hvalid : ∀ f ∈ fs, f.Valid) :
    main now ["send".toList, "--format".toList, "json".toList] (unlines (fs.map frameLine)) =
      .ok { published := fs } := by
  have hlines : ∀ t ∈ fs.map frameLine, '\n' ∉ t :=
    List.forall_mem_map.mpr fun f _ => line_end_not_mem_frameLine f
  obtain ⟨result, b, hrun, hstatus⟩ := sendLines_frameLines hvalid {} { bus := {} } rfl
  have hstream : sendJsonStream virtualBus (unlines (fs.map frameLine)) { bus := {} } =
      .ok (result, ⟨b, fs, []⟩) := by
    rw [sendJsonStream, getlines_unlines hlines]
    exact hrun
  have hsend : cmdSend ["--format".toList, "json".toList] (unlines (fs.map frameLine)) =
      .ok { published := fs } := by
    have hargs : sendArgs ["--format".toList, "json".toList] false = .ok true := rfl
    simp only [cmdSend, hargs, hstream]
    rw [ok_bind]
    exact congrArg (fun status => Except.ok ({ exitCode := status, published := fs } : Outcome))
      hstatus
  exact hsend

/-- A frame with a text that denotes it. -/
abbrev Source := (f : Frame) × Document f

/-- Texts of valid frames that are legible without their line ends are all converted, and what
the runs write one after another is a stream that `send` publishes frame by frame. -/
theorem convert_send (now now' : Int) (sources : List Source) (hvalid : ∀ x ∈ sources, x.1.Valid)
    (hlegible : ∀ x ∈ sources, x.2.dropLines.Legible) :
    ∃ outcomes : List Outcome, (sources.map fun x =>
        main now ["convert".toList, "--protocol".toList, "CAN".toList] x.2.text) =
          outcomes.map .ok ∧
      (∀ o ∈ outcomes, o.exitCode = 0 ∧ o.err = []) ∧
      main now' ["send".toList, "--format".toList, "json".toList] (outcomes.flatMap (·.out)) =
        .ok { published := sources.map (·.1) } := by
  refine ⟨sources.map fun x => .success (frameLine x.1), ?_, ?_, ?_⟩
  · rw [List.map_map]
    exact List.map_congr_left fun x hx => main_convert now x.2 (hvalid x hx) (hlegible x hx)
  · exact List.forall_mem_map.mpr fun _ _ => ⟨rfl, rfl⟩
  · have hstream := main_send now' (List.forall_mem_map.mpr hvalid)
    rw [unlines, List.map_map, List.flatMap_map] at hstream
    rw [List.flatMap_map]
    exact hstream

/-- A text with a line end where the reader of one line stumbles, twice. -/
theorem convert_send_brokenLine :
    ∃ outcomes : List Outcome,
      ([⟨_, Document.brokenLine⟩, ⟨_, Document.brokenLine⟩] : List Source).map (fun x =>
        main 5 ["convert".toList, "--protocol".toList, "CAN".toList] x.2.text) =
          outcomes.map .ok ∧
      (∀ o ∈ outcomes, o.exitCode = 0 ∧ o.err = []) ∧
      main 6 ["send".toList, "--format".toList, "json".toList] (outcomes.flatMap (·.out)) =
        .ok { published := [{ id := 1, fd := true }, { id := 1, fd := true }] } := by
  have hvalid : Frame.Valid { id := 1, fd := true } := by decide
  have hlegible : Document.brokenLine.dropLines.Legible := by
    simp [Document.Legible, Document.dropLines, Document.brokenLine, Member.dropLines,
      Member.Legible, Gap.dropLines, joinLines, Key.value, Gap.Inline]
  exact convert_send 5 6 [⟨_, Document.brokenLine⟩, ⟨_, Document.brokenLine⟩] (by simp [hvalid])
    (by simp [hlegible])

end CppCan.Cli
