import CppCan.Cli.Chain
import CppCan.Cli.Main
import CppCan.Cli.Readings

/-!
# What the program writes

A command that reports in JSON writes one line with a JSON text. What the text says is given
here as a value; any reader that keeps to the grammar reads this value.
-/

namespace CppCan.Cli

open CppCan.Core CppCan.Relay

/-- The character stands for itself in a string. -/
def isPlain (c : Char) : Bool := c ≠ '"' && c ≠ '\\' && ' ' ≤ c

mutual

/-- The text of a value without any white space, its strings as they are. -/
def JsonValue.compact : JsonValue → Text
  | .null => "null".toList
  | .bool b => if b then "true".toList else "false".toList
  | .number q => decimalInt q.num
  | .string s => '"' :: (s ++ ['"'])
  | .array elems => '[' :: (compactElems elems ++ [']'])
  | .object members => '\x7b' :: (compactMembers members ++ ['\x7d'])

def compactElems : List JsonValue → Text
  | [] => []
  | v :: rest => v.compact ++ if rest.isEmpty then [] else ',' :: compactElems rest

def compactMembers : List (Text × JsonValue) → Text
  | [] => []
  | (key, v) :: rest => '"' :: (key ++ '"' :: ':' :: v.compact) ++
      if rest.isEmpty then [] else ',' :: compactMembers rest

end

mutual

/-- All strings are plain and all numbers integers. -/
def JsonValue.isCompact : JsonValue → Bool
  | .null | .bool _ => true
  | .number q => q.den = 1
  | .string s => s.all isPlain
  | .array elems => isCompactElems elems
  | .object members => isCompactMembers members

def isCompactElems : List JsonValue → Bool
  | [] => true
  | v :: rest => v.isCompact && isCompactElems rest

def isCompactMembers : List (Text × JsonValue) → Bool
  | [] => true
  | (key, v) :: rest => key.all isPlain && v.isCompact && isCompactMembers rest

end

/-- A plain string is written as it is. -/
theorem exists_strChars {t : Text} (h : t.all isPlain = true) :
    ∃ s : List StrChar, rawText s = t ∧ stringValue s = t := by
  induction t with
  | nil => exact ⟨[], rfl, rfl⟩
  | cons c t ih =>
    rw [List.all_cons, Bool.and_eq_true] at h
    obtain ⟨s, htext, hvalue⟩ := ih h.2
    have hc : c ≠ '"' ∧ c ≠ '\\' ∧ ' ' ≤ c := by simpa [isPlain, and_assoc] using h.1
    exact ⟨.plain c hc :: s, congrArg (c :: ·) htext, congrArg (c :: ·) hvalue⟩

/-- An integer is written as its numeral. -/
theorem exists_number (z : Int) : ∃ n : Number, n.text = decimalInt z ∧ n.value = z := by
  cases z with
  | ofNat m =>
    refine ⟨{ int := m }, ?_, ?_⟩
    · simp [Number.text, Number.tail, decimalInt]
    · simp [Number.value, Nat.ofDigitChars]
  | negSucc m =>
    refine ⟨{ negative := true, int := m + 1 }, ?_, ?_⟩
    · simp [Number.text, Number.tail, decimalInt]
    · simp [Number.value, Nat.ofDigitChars, Int.negSucc_eq]

mutual

theorem JsonValue.exists_json : ∀ v : JsonValue, v.isCompact = true →
    ∃ j : Json, j.text = v.compact ∧ j.value = v
  | .null, _ => ⟨.null, rfl, rfl⟩
  | .bool b, _ => ⟨.bool b, rfl, rfl⟩
  | .number q, h => by
    obtain ⟨n, htext, hvalue⟩ := exists_number q.num
    have hq : (q.num : ℚ) = q := Rat.coe_int_num_of_den_eq_one (of_decide_eq_true h)
    exact ⟨.number n, htext, congrArg JsonValue.number (hvalue.trans hq)⟩
  | .string s, h => by
    obtain ⟨x, htext, hvalue⟩ := exists_strChars h
    refine ⟨.string x, ?_, congrArg JsonValue.string hvalue⟩
    rw [Json.text, stringText, htext, JsonValue.compact]
  | .array elems, h => by
    obtain ⟨es, htext, hvalue⟩ := exists_elems elems h
    refine ⟨.array .none es, ?_, congrArg JsonValue.array hvalue⟩
    rw [Json.text, JsonValue.compact, ← htext]
    cases es <;> rfl
  | .object members, h => by
    obtain ⟨ms, htext, hvalue⟩ := exists_members members h
    refine ⟨.object .none ms, ?_, congrArg JsonValue.object hvalue⟩
    rw [Json.text, JsonValue.compact, ← htext]
    cases ms <;> rfl

theorem exists_elems : ∀ vs : List JsonValue, isCompactElems vs = true →
    ∃ es : List (Element Json), elemsText es = compactElems vs ∧ elemsValue es = vs
  | [], _ => ⟨[], rfl, rfl⟩
  | v :: rest, h => by
    rw [isCompactElems, Bool.and_eq_true] at h
    obtain ⟨j, hj, rfl⟩ := v.exists_json h.1
    obtain ⟨es, htext, rfl⟩ := exists_elems rest h.2
    refine ⟨⟨.none, j, .none⟩ :: es, ?_, rfl⟩
    rw [elemsText, compactElems, hj, htext]
    cases es <;> simp [Gap.none, elemsValue]

theorem exists_members : ∀ vs : List (Text × JsonValue), isCompactMembers vs = true →
    ∃ ms : List (ObjectMember Json), objectText ms = compactMembers vs ∧ membersValue ms = vs
  | [], _ => ⟨[], rfl, rfl⟩
  | (key, v) :: rest, h => by
    rw [isCompactMembers, Bool.and_eq_true, Bool.and_eq_true] at h
    obtain ⟨x, hx, hkey⟩ := exists_strChars h.1.1
    obtain ⟨j, hj, rfl⟩ := v.exists_json h.1.2
    obtain ⟨ms, htext, rfl⟩ := exists_members rest h.2
    refine ⟨⟨.none, x, .none, .none, j, .none⟩ :: ms, ?_, by rw [membersValue, hkey]⟩
    rw [objectText, compactMembers, hj, htext, stringText, hx]
    cases ms <;> simp [Gap.none, membersValue]

end

theorem printable_of_isPlain {t : Text} (h : t.all isPlain = true) : ∀ c ∈ t, ' ' ≤ c := by
  intro c hc
  have hplain := List.all_eq_true.mp h c hc
  rw [isPlain, Bool.and_eq_true, decide_eq_true_eq] at hplain
  exact hplain.2

theorem printable_of_isDigit {c : Char} (h : c.isDigit = true) : ' ' ≤ c := by
  have hzero : '0' ≤ c := of_decide_eq_true (Bool.and_eq_true_iff.mp h).1
  exact le_trans (by decide) hzero

theorem printable_decimalInt (z : Int) : ∀ c ∈ decimalInt z, ' ' ≤ c := by
  intro c hc
  rcases isDigit_or_of_mem_decimalInt hc with hdigit | rfl
  · exact printable_of_isDigit hdigit
  · decide

mutual

theorem JsonValue.printable : ∀ v : JsonValue, v.isCompact = true → ∀ c ∈ v.compact, ' ' ≤ c
  | .null, _ => printable_of_isPlain rfl
  | .bool b, _ => by cases b <;> exact printable_of_isPlain rfl
  | .number q, _ => printable_decimalInt q.num
  | .string s, h => by
    rw [JsonValue.compact, List.forall_mem_cons, List.forall_mem_append]
    exact ⟨by decide, printable_of_isPlain h, List.forall_mem_singleton.mpr (by decide)⟩
  | .array elems, h => by
    rw [JsonValue.compact, List.forall_mem_cons, List.forall_mem_append]
    exact ⟨by decide, printable_elems elems h, printable_of_isPlain rfl⟩
  | .object members, h => by
    rw [JsonValue.compact, List.forall_mem_cons, List.forall_mem_append]
    exact ⟨by decide, printable_members members h, printable_of_isPlain rfl⟩

theorem printable_elems : ∀ vs : List JsonValue, isCompactElems vs = true →
    ∀ c ∈ compactElems vs, ' ' ≤ c
  | [], _ => by simp [compactElems]
  | v :: rest, h => by
    rw [isCompactElems, Bool.and_eq_true] at h
    rw [compactElems, List.forall_mem_append]
    refine ⟨v.printable h.1, ?_⟩
    split_ifs
    · simp
    · exact List.forall_mem_cons.mpr ⟨by decide, printable_elems rest h.2⟩

theorem printable_members : ∀ vs : List (Text × JsonValue), isCompactMembers vs = true →
    ∀ c ∈ compactMembers vs, ' ' ≤ c
  | [], _ => by simp [compactMembers]
  | (key, v) :: rest, h => by
    rw [isCompactMembers, Bool.and_eq_true, Bool.and_eq_true] at h
    rw [compactMembers, List.forall_mem_append, List.forall_mem_cons, List.forall_mem_append,
      List.forall_mem_cons, List.forall_mem_cons]
    refine ⟨⟨by decide, printable_of_isPlain h.1.1, by decide, by decide, v.printable h.1.2⟩, ?_⟩
    split_ifs
    · simp
    · exact List.forall_mem_cons.mpr ⟨by decide, printable_members rest h.2⟩

end

mutual

/-- No object has two members of one name. -/
def JsonValue.Distinct : JsonValue → Prop
  | .null | .bool _ | .number _ | .string _ => True
  | .array elems => DistinctElems elems
  | .object members => (members.map Prod.fst).Nodup ∧ DistinctMembers members

def DistinctElems : List JsonValue → Prop
  | [] => True
  | v :: rest => v.Distinct ∧ DistinctElems rest

def DistinctMembers : List (Text × JsonValue) → Prop
  | [] => True
  | (_, v) :: rest => v.Distinct ∧ DistinctMembers rest

end

/-- The text is a line of JSON that says this, and says it to every reader. -/
structure JsonLine (line : Text) (v : JsonValue) : Prop where
  oneLine : '\n' ∉ line
  means : ∀ v', Means line v' ↔ v' = v
  distinct : v.Distinct

theorem JsonValue.jsonLine {v : JsonValue} (h : v.isCompact = true) (hdistinct : v.Distinct) :
    JsonLine v.compact v := by
  obtain ⟨j, htext, hvalue⟩ := v.exists_json h
  have hmeans : Means v.compact v := ⟨.none, j, .none, by simp [Gap.none, htext], hvalue⟩
  refine ⟨fun hline => ?_, fun v' => ⟨fun h' => h'.unique hmeans, fun h' => h' ▸ hmeans⟩, hdistinct⟩
  exact absurd (v.printable h '\n' hline) (by decide)

/-- The object of a message; its members are in the order in which they are written. -/
def messageValue (m : Message) : JsonValue :=
  .object ([("protocol".toList, .number m.protocol.value.toInt),
    ("version".toList, .object [("major".toList, .number m.version.major.toInt),
      ("minor".toList, .number m.version.minor.toInt),
      ("patch".toList, .number m.version.patch.toInt)]),
    ("id".toList, .string m.id),
    ("payload".toList, .string (base64Encode m.payload)),
    ("timestamp".toList, .string "1970-01-01T00:00:00Z".toList)] ++
    (if m.seq ≠ 0 then [("seq".toList, .number m.seq.toNat)] else []) ++
    if m.metadata.entries.isEmpty then []
    else [("meta".toList,
      .object ((sortedEntries m.metadata).map fun e => (e.1, .string e.2)))])

theorem compactMembers_entries (es : List Entry) :
    compactMembers (es.map fun e => (e.1, .string e.2)) = entriesText es := by
  induction es with
  | nil => rfl
  | cons e es ih =>
    rw [List.map_cons, compactMembers, ih]
    cases es <;> simp [entriesText, entryText, JsonValue.compact]

/-- A message is written as its object. -/
theorem compact_messageValue (m : Message) : (messageValue m).compact = messageToJson m := by
  have hnumeral : decimalInt m.seq.toNat = decimal m.seq.toNat := rfl
  unfold messageValue messageToJson
  by_cases hseq : m.seq = 0 <;> by_cases hmeta : m.metadata.entries.isEmpty = true <;>
    simp [hseq, hmeta, hnumeral, JsonValue.compact, compactMembers, compactMembers_entries]

/-- The texts of a message need no escapes. -/
def PlainMessage (m : Message) : Prop :=
  m.id.all isPlain = true ∧
    ∀ e ∈ m.metadata.entries, e.1.all isPlain = true ∧ e.2.all isPlain = true

theorem all_isPlain_base64Encode (data : List UInt8) : (base64Encode data).all isPlain = true := by
  refine List.all_eq_true.mpr fun c hc => ?_
  rcases Base64.alphabet_or_pad (Base64.of_base64Encode data) c hc with hval | rfl
  · rw [isPlain, Bool.and_eq_true, Bool.and_eq_true, decide_eq_true_eq, decide_eq_true_eq,
      decide_eq_true_eq]
    refine ⟨⟨?_, ?_⟩, ?_⟩
    · rintro rfl
      cases hval
    · rintro rfl
      cases hval
    · by_contra hlow
      have hnone : ∀ d, ' ' ≤ d → ¬ d ≤ c := fun d hd hle => hlow (le_trans hd hle)
      rw [b64val, if_neg (fun h => hnone 'A' (by decide) h.1),
        if_neg (fun h => hnone 'a' (by decide) h.1), if_neg (fun h => hnone '0' (by decide) h.1),
        if_neg (fun h => hnone '+' (by decide) h.ge), if_neg (fun h => hnone '/' (by decide) h.ge)]
        at hval
      cases hval
  · rfl

theorem all_isPlain_decimal (n : Nat) : (decimal n).all isPlain = true := by
  refine List.all_eq_true.mpr fun c hc => ?_
  have hdigit : c.isDigit = true := Nat.isDigit_of_mem_toDigits (by omega) (by omega) hc
  rw [isPlain, Bool.and_eq_true, Bool.and_eq_true, decide_eq_true_eq, decide_eq_true_eq,
    decide_eq_true_eq]
  refine ⟨⟨?_, ?_⟩, printable_of_isDigit hdigit⟩
  · rintro rfl
    cases hdigit
  · rintro rfl
    cases hdigit

theorem isCompactMembers_entries {es : List Entry}
    (h : ∀ e ∈ es, e.1.all isPlain = true ∧ e.2.all isPlain = true) :
    isCompactMembers (es.map fun e => (e.1, .string e.2)) = true := by
  induction es with
  | nil => rfl
  | cons e es ih =>
    obtain ⟨⟨hkey, hvalue⟩, hrest⟩ := List.forall_mem_cons.mp h
    rw [List.map_cons, isCompactMembers, hkey, ih hrest]
    simp [JsonValue.isCompact, hvalue]

theorem isCompactMembers_append (ms ms' : List (Text × JsonValue)) :
    isCompactMembers (ms ++ ms') = (isCompactMembers ms && isCompactMembers ms') := by
  induction ms with
  | nil => rfl
  | cons m ms ih =>
    obtain ⟨key, v⟩ := m
    rw [List.cons_append, isCompactMembers, isCompactMembers, ih, ← Bool.and_assoc]

theorem isCompact_messageValue {m : Message} (h : PlainMessage m) :
    (messageValue m).isCompact = true := by
  have hentries : isCompactMembers ((sortedEntries m.metadata).map
      fun e => (e.1, .string e.2)) = true :=
    isCompactMembers_entries fun e he => h.2 e ((sortedEntries_perm _).mem_iff.mp he)
  rw [messageValue, JsonValue.isCompact, isCompactMembers_append, isCompactMembers_append,
    Bool.and_eq_true, Bool.and_eq_true]
  refine ⟨⟨?_, ?_⟩, ?_⟩
  · have hpayload := all_isPlain_base64Encode m.payload
    simp only [isCompactMembers, JsonValue.isCompact, Rat.den_intCast, h.1, hpayload]
    rfl
  · split_ifs
    · simp only [isCompactMembers, JsonValue.isCompact, Rat.den_natCast]
      rfl
    · rfl
  · split_ifs
    · rfl
    · simp only [isCompactMembers, JsonValue.isCompact, hentries]
      rfl

theorem distinctMembers_append (ms ms' : List (Text × JsonValue)) :
    DistinctMembers (ms ++ ms') ↔ DistinctMembers ms ∧ DistinctMembers ms' := by
  induction ms with
  | nil => simp [DistinctMembers]
  | cons m ms ih =>
    obtain ⟨key, v⟩ := m
    rw [List.cons_append, DistinctMembers, DistinctMembers, ih, and_assoc]

theorem distinct_entries (m : Meta) :
    (JsonValue.object ((sortedEntries m).map fun e => (e.1, .string e.2))).Distinct := by
  constructor
  · have hkeys : ((sortedEntries m).map fun e => e.1).Nodup :=
      (((sortedEntries_perm m).map _).nodup_iff).mpr m.nodupKeys
    rwa [List.map_map]
  · induction sortedEntries m with
    | nil => exact trivial
    | cons e es ih => exact ⟨trivial, ih⟩

theorem distinct_messageValue (m : Message) : (messageValue m).Distinct := by
  constructor
  · by_cases hseq : m.seq = 0 <;> by_cases hmeta : m.metadata.entries.isEmpty = true <;>
      simp [hseq, hmeta]
  · rw [distinctMembers_append, distinctMembers_append]
    refine ⟨⟨?_, ?_⟩, ?_⟩
    · simp [DistinctMembers, JsonValue.Distinct]
    · split_ifs <;> simp [DistinctMembers, JsonValue.Distinct]
    · split_ifs
      · exact trivial
      · exact ⟨distinct_entries m.metadata, trivial⟩

/-- A message whose texts need no escapes is written as a line of JSON. -/
theorem jsonLine_messageToJson {m : Message} (h : PlainMessage m) :
    JsonLine (messageToJson m) (messageValue m) := by
  rw [← compact_messageValue]
  exact JsonValue.jsonLine (isCompact_messageValue h) (distinct_messageValue m)

/-- The metadata of a frame are fixed keys with flags and numerals. -/
theorem plainMessage_toMessage (now : Int) (f : Frame) : PlainMessage (toMessage now f) := by
  refine ⟨all_isPlain_decimal f.id.toNat, fun ⟨key, value⟩ he => ?_⟩
  have h : (toMessage now f).metadata.lookup key = some value := AList.mem_lookup_iff.mpr he
  have hflag : ∀ b, (boolText b).all isPlain = true := by decide
  have hset : "true".toList.all isPlain = true := rfl
  rw [lookup_toMessage] at h
  split_ifs at h with h₁ h₂ h₃ h₄ h₅ h₆ h₇ h₈ h₉ h₁₀
  any_goals obtain rfl := Option.some.inj h
  · exact ⟨h₁.2 ▸ rfl, hset⟩
  · exact ⟨h₂.2 ▸ rfl, all_isPlain_decimal _⟩
  · exact ⟨h₃.2 ▸ rfl, all_isPlain_decimal _⟩
  · exact ⟨h₄.2 ▸ rfl, all_isPlain_decimal _⟩
  · exact ⟨h₅.2 ▸ rfl, hset⟩
  · exact ⟨h₆.2 ▸ rfl, hset⟩
  · exact ⟨h₇ ▸ rfl, hflag _⟩
  · exact ⟨h₈ ▸ rfl, hflag _⟩
  · exact ⟨h₉ ▸ rfl, hflag _⟩
  · exact ⟨h₁₀ ▸ rfl, hflag _⟩

def versionValue : JsonValue :=
  .object [("tool".toList, .string "cpp-CAN".toList), ("protocol".toList, .string "CAN".toList),
    ("protocol_int".toList, .number 1), ("version".toList, .string kToolVersion),
    ("spec_version".toList, .string kRelaySpecVersion), ("language".toList, .string "cpp".toList),
    ("runtime".toList, .string "c++17".toList)]

def capabilitiesValue : JsonValue :=
  .object [("kind".toList, .string "capabilities".toList),
    ("tool".toList, .string "cpp-CAN".toList), ("protocol".toList, .string "CAN".toList),
    ("protocol_int".toList, .number 1), ("version".toList, .string kToolVersion),
    ("spec_version".toList, .string kRelaySpecVersion),
    ("commands".toList, .array (["version", "capabilities", "status", "convert", "send"].map
      fun t => .string t.toList)),
    ("transports".toList, .array (["socketcan", "virtual"].map fun t => .string t.toList)),
    ("features".toList, .array (["fd", "isotp", "j1939"].map fun t => .string t.toList)),
    ("interfaces".toList, .array (["IBus", "INode"].map fun t => .string t.toList)),
    ("optional_interfaces".toList, .array (["ILoaningBus", "IHealthProvider", "IMetricsProvider",
      "IDrainer"].map fun t => .string t.toList)),
    ("adapt".toList, .bool true)]

def statusValue : JsonValue :=
  .object [("protocol".toList, .string "CAN".toList), ("tool".toList, .string "cpp-CAN".toList),
    ("version".toList, .string kToolVersion), ("healthy".toList, .bool true),
    ("connected".toList, .bool false), ("endpoint".toList, .string []),
    ("details".toList, .object [])]

theorem jsonLine_versionJson : JsonLine versionJson versionValue := by
  have htext : versionValue.compact = versionJson := by decide
  rw [← htext]
  exact JsonValue.jsonLine (by decide) ⟨by decide, by simp [DistinctMembers, JsonValue.Distinct]⟩

theorem jsonLine_capabilitiesJson : JsonLine capabilitiesJson capabilitiesValue := by
  have htext : capabilitiesValue.compact = capabilitiesJson := by decide +kernel
  rw [← htext]
  refine JsonValue.jsonLine (by decide) ⟨by decide, ?_⟩
  simp [DistinctMembers, DistinctElems, JsonValue.Distinct]

theorem jsonLine_statusJson : JsonLine statusJson statusValue := by
  have htext : statusValue.compact = statusJson := by decide
  rw [← htext]
  exact JsonValue.jsonLine (by decide) ⟨by decide, by simp [DistinctMembers, JsonValue.Distinct]⟩

/-- What a command that succeeds writes: a report in text or in JSON, nothing, or the message of
the frame in its input. -/
inductive Writes (now : Int) (input : Text) : Text → Text → Prop where
  | versionText : Writes now input "version".toList (versionText ++ ['\n'])
  | versionJson {line : Text} (h : JsonLine line versionValue) :
      Writes now input "version".toList (line ++ ['\n'])
  | capabilities {line : Text} (h : JsonLine line capabilitiesValue) :
      Writes now input "capabilities".toList (line ++ ['\n'])
  | statusText : Writes now input "status".toList (statusText ++ ['\n'])
  | statusJson {line : Text} (h : JsonLine line statusValue) :
      Writes now input "status".toList (line ++ ['\n'])
  | send : Writes now input "send".toList []
  | convert {line : Text} {f : Frame} (hparse : parseFrameJson (getlines input).flatten = .ok f)
      (hvalid : f.Valid) (h : JsonLine line (messageValue (toMessage now f))) :
      Writes now input "convert".toList (line ++ ['\n'])

variable {now : Int} {args : List Text} {cmd input protocol : Text} {o : Outcome}

theorem out_of_cmdSend (h : cmdSend args input = .ok o) : o.out = [] := by
  unfold cmdSend at h
  split at h
  · obtain rfl := Except.ok.inj h
    rfl
  · obtain rfl := Except.ok.inj h
    rfl
  · obtain ⟨⟨result, s⟩, -, hret⟩ := bind_eq_ok.mp h
    obtain rfl := Except.ok.inj hret
    rfl

theorem writes_of_cmdConvert (hok : (cmdConvert now protocol input).exitCode = 0) :
    Writes now input "convert".toList (cmdConvert now protocol input).out := by
  have hfailure : ∀ {n : Int} {text : Text}, n ≠ 0 → (Outcome.failure n text).exitCode ≠ 0 := id
  revert hok
  unfold cmdConvert
  split_ifs with hprotocol
  · exact fun hok => absurd hok (hfailure (by decide))
  · cases hparse : parseFrameJson (getlines input).flatten with
    | error what => exact fun hok => absurd hok (hfailure (by decide))
    | ok f =>
      dsimp only
      cases hvalid : validateFrame f with
      | error e => exact fun hok => absurd hok (hfailure (by decide))
      | ok _ =>
        exact fun _ => .convert hparse hvalid
          (jsonLine_messageToJson (plainMessage_toMessage now f))

/-- Whatever the arguments and the input, what a run that succeeds writes is a report in text, one
line of JSON that every reader reads as the report or as the message of the frame in the input, or
nothing. -/
theorem main_writes (now : Int) (cmd : Text) (args : List Text) (input : Text) (o : Outcome)
    (h : main now (cmd :: args) input = .ok o) (hok : o.exitCode = 0) :
    Writes now input cmd o.out := by
  simp only [main] at h
  split_ifs at h with hversion hcapabilities hstatus hsend hconvert
  · subst hversion
    cases hformat : parseOutputFormat "version".toList args "json".toList with
    | error complaint =>
      rw [hformat] at h
      obtain rfl := Except.ok.inj h
      cases hok
    | ok format =>
      rw [hformat] at h
      obtain rfl := Except.ok.inj h
      unfold cmdVersion
      split_ifs
      · exact .versionText
      · exact .versionJson jsonLine_versionJson
  · subst hcapabilities
    obtain rfl := Except.ok.inj h
    exact .capabilities jsonLine_capabilitiesJson
  · subst hstatus
    cases hformat : parseOutputFormat "status".toList args "json".toList with
    | error complaint =>
      rw [hformat] at h
      obtain rfl := Except.ok.inj h
      cases hok
    | ok format =>
      rw [hformat] at h
      obtain rfl := Except.ok.inj h
      unfold cmdStatus
      split_ifs
      · exact .statusText
      · exact .statusJson jsonLine_statusJson
  · subst hsend
    rw [out_of_cmdSend h]
    exact .send
  · subst hconvert
    cases hargs : convertArgs args [] with
    | error complaint =>
      rw [hargs] at h
      obtain rfl := Except.ok.inj h
      cases hok
    | ok protocol =>
      rw [hargs] at h
      dsimp only at h
      split_ifs at h
      · obtain rfl := Except.ok.inj h
        cases hok
      · obtain rfl := Except.ok.inj h
        exact writes_of_cmdConvert hok
  · obtain rfl := Except.ok.inj h
    cases hok

/-- A flexible data rate frame of two bytes, over two lines. -/
def frameInput : Text := "\x7b\"id\":291,\n \"fd\":true, \"data\":[1, 254]\x7d".toList

theorem main_writes_frame : ∃ o,
    main 0 ["convert".toList, "--protocol".toList, "CAN".toList] frameInput = .ok o ∧
      o.out ≠ [] ∧ Writes 0 frameInput "convert".toList o.out := by
  obtain ⟨o, ho, hok, hout⟩ : ∃ o,
      main 0 ["convert".toList, "--protocol".toList, "CAN".toList] frameInput = .ok o ∧
        o.exitCode = 0 ∧ o.out.isEmpty = false := ⟨_, rfl, by decide +kernel, by decide +kernel⟩
  exact ⟨o, ho, List.isEmpty_eq_false_iff.mp hout, main_writes 0 _ _ _ o ho hok⟩

end CppCan.Cli
