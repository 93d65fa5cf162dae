import CppCan.Dbc.Parser

/-!
# What parsing throws

A malformed line makes the parser throw a `std::runtime_error`. The conversions of
numbers throw exceptions of other classes, which no line of the parser catches: only
such errors leave it if and only if every number it comes to begins with a numeral in
range.
-/

namespace CppCan.Dbc

open CppCan.Core ParseError

/-- A text that is converted to a number of the given type. -/
inductive NumberText where
  | int (s : Text)
  | longLong (s : Text)
  | unsignedLongLong (s : Text)
  | double (s : Text)

/-- The text begins with a numeral whose value is in range, which for `nan` with an integer in
parentheses is that integer. -/
def NumberText.Readable : NumberText → Prop
  | .int s => ∃ v rest, readInteger s = some (v, rest) ∧ -2 ^ 31 ≤ v ∧ v ≤ 2 ^ 31 - 1
  | .longLong s => ∃ v rest, readInteger s = some (v, rest) ∧ -2 ^ 63 ≤ v ∧ v ≤ 2 ^ 63 - 1
  | .unsignedLongLong s => ∃ v rest, strtoull s = some ⟨v, false, rest⟩
  | .double s => ∃ v, strtod s = some (v, false)

/-- The numbers of a pair. -/
def pairNumbers : Option (Text × Text) → List NumberText
  | none => []
  | some (a, b) => [.double a, .double b]

/-- The numbers of a signal, in the order of their conversion. -/
def SignalText.numbers (t : SignalText) : List NumberText :=
  .int t.start :: .int t.length :: (pairNumbers t.scale ++ pairNumbers t.range)

/-- The numbers of a signal line; none if the line is malformed. -/
def signalNumbers (line : Text) : List NumberText :=
  match cutSignalLine line with
  | .ok t => t.numbers
  | .error _ => []

/-- The values that have a label. -/
def tableNumbers : List Text → List NumberText
  | raw :: _ :: rest => .longLong raw :: tableNumbers rest
  | _ => []

/-- The signal that a value table belongs to. -/
def DB.findSignal (db : DB) (id : UInt32) (sigName : Text) : Option Signal :=
  (db.messages.lookup id).bind fun msg => msg.signals.lookup sigName

/-- The numbers of a value table: the identifier, and the values if the signal is
known. -/
def valNumbers (db : DB) (line : Text) : List NumberText :=
  match valTokens line with
  | _ :: id :: sigName :: table =>
    match strtoull id with
    | none => [.unsignedLongLong id]
    | some n =>
      .unsignedLongLong id ::
        if (db.findSignal n.value.toUInt32 sigName).isSome then tableNumbers table else []
  | _ => []

/-- The numbers that are converted in a line. -/
def lineNumbers (st : ParseState) (line : Text) : List NumberText :=
  let line := trim line
  if isSkipped line then []
  else if line.take 4 = "BO_ ".toList then []
  else if line.take 4 = "SG_ ".toList then
    if st.curMsg.isSome then signalNumbers line else []
  else if line.take 5 = "VAL_ ".toList then valNumbers st.db line
  else []

/-- Every number the parser comes to is readable. -/
def NumbersReadable (text : Text) : Prop :=
  ∀ pre line post, getlines text = pre ++ line :: post →
    ∀ st, pre.foldlM parseLine {} = .ok st → ∀ n ∈ lineNumbers st line, n.Readable

theorem stoIn_eq_ok_iff {lo hi : Int} {s : Text} :
    (∃ v, stoIn lo hi s = .ok v) ↔
      ∃ v rest, readInteger s = some (v, rest) ∧ lo ≤ v ∧ v ≤ hi := by
  unfold stoIn
  constructor
  · rintro ⟨v, h⟩
    split at h
    · cases h
    · rename_i w rest hread
      split at h
      · rename_i hrange
        exact ⟨w, rest, hread, hrange⟩
      · cases h
  · rintro ⟨v, rest, hread, hrange⟩
    exact ⟨v, by simp only [hread, if_pos hrange]⟩

theorem stoi_eq_ok_iff {s : Text} : (∃ v, stoi s = .ok v) ↔ (NumberText.int s).Readable := by
  rw [stoi, map_eq_ok_iff, stoIn_eq_ok_iff]
  rfl

theorem stoll_eq_ok_iff {s : Text} :
    (∃ v, stoll s = .ok v) ↔ (NumberText.longLong s).Readable := by
  rw [stoll, map_eq_ok_iff, stoIn_eq_ok_iff]
  rfl

theorem stoullOrThrow_eq_ok_iff {s : Text} {v : UInt64} :
    stoullOrThrow s = .ok v ↔ ∃ rest, strtoull s = some ⟨v, false, rest⟩ := by
  unfold stoullOrThrow
  split
  · rename_i h
    simp [h]
  · rename_i w rest h
    simp [h]
  · rename_i w rest h
    simp [h]

theorem stod_eq_ok_iff {s : Text} : (∃ v, stod s = .ok v) ↔ (NumberText.double s).Readable := by
  unfold stod NumberText.Readable
  split
  · rename_i h
    simp [h]
  · rename_i w h
    simp [h]
  · rename_i w h
    simp [h]

/-- A failed conversion is no `std::runtime_error`. -/
theorem throws_convert_bind {α β : Type} {r : Except NumError α}
    {f : α → Except ParseError β} :
    ThrowsOnly IsRuntimeError (convert r >>= f) ↔
      ∃ v, r = .ok v ∧ ThrowsOnly IsRuntimeError (f v) := by
  cases r with
  | error e =>
    change ThrowsOnly IsRuntimeError (.error (.conversion e)) ↔ _
    simp [ParseError.IsRuntimeError]
  | ok v =>
    change ThrowsOnly IsRuntimeError (f v) ↔ _
    simp

variable {line : Text} {st : ParseState} {db : DB}

theorem throws_parseMessageLine (line : Text) :
    ThrowsOnly IsRuntimeError (parseMessageLine line) := by
  unfold parseMessageLine
  dsimp only
  split
  · exact throwsOnly_ok _
  · exact throwsOnly_error.mpr trivial

theorem throws_convertPair_bind {β : Type} {pair : Option (Text × Text)} {d : Double × Double}
    {f : Double × Double → Except ParseError β} {p : Prop}
    (hf : ∀ v, ThrowsOnly IsRuntimeError (f v) ↔ p) :
    ThrowsOnly IsRuntimeError (convertPair pair d >>= f) ↔
      (∀ n ∈ pairNumbers pair, n.Readable) ∧ p := by
  cases pair with
  | none =>
    change ThrowsOnly IsRuntimeError (f d) ↔ _
    simp [pairNumbers, hf]
  | some ab =>
    obtain ⟨a, b⟩ := ab
    rw [convertPair, bind_assoc, throws_convert_bind]
    simp only [bind_assoc, throws_convert_bind]
    change (∃ x, stod a = .ok x ∧ ∃ y, stod b = .ok y ∧ ThrowsOnly IsRuntimeError (f (x, y))) ↔ _
    simp only [hf, exists_and_right, stod_eq_ok_iff, pairNumbers, List.forall_mem_cons,
      List.not_mem_nil, false_imp_iff, implies_true, and_true, and_assoc]

/-- The conversions of a signal fail on no other numbers than its own. -/
theorem throws_signal (t : SignalText) :
    ThrowsOnly IsRuntimeError t.signal ↔ ∀ n ∈ t.numbers, n.Readable := by
  have hnumbers : (∀ n ∈ t.numbers, n.Readable) ↔
      (NumberText.int t.start).Readable ∧ (NumberText.int t.length).Readable ∧
        (∀ n ∈ pairNumbers t.scale, n.Readable) ∧ (∀ n ∈ pairNumbers t.range, n.Readable) ∧
          True := by
    simp only [SignalText.numbers, List.forall_mem_cons, List.forall_mem_append, and_true]
  rw [hnumbers, ← stoi_eq_ok_iff, ← stoi_eq_ok_iff, ← exists_and_right]
  unfold SignalText.signal
  rw [throws_convert_bind]
  apply exists_congr
  intro startBit
  apply and_congr_right'
  rw [throws_convert_bind, ← exists_and_right]
  apply exists_congr
  intro length
  apply and_congr_right'
  apply throws_convertPair_bind
  rintro ⟨factor, offset⟩
  apply throws_convertPair_bind
  rintro ⟨min, max⟩
  simp

theorem throws_cutSignalLine (line : Text) : ThrowsOnly IsRuntimeError (cutSignalLine line) := by
  unfold cutSignalLine
  split
  · exact throwsOnly_error.mpr trivial
  · dsimp only
    split
    · exact throwsOnly_ok _
    · exact throwsOnly_error.mpr trivial

theorem throws_parseSignalLine :
    ThrowsOnly IsRuntimeError (parseSignalLine line) ↔ ∀ n ∈ signalNumbers line, n.Readable := by
  rw [parseSignalLine, throwsOnly_bind, and_iff_right (throws_cutSignalLine line)]
  unfold signalNumbers
  cases hcut : cutSignalLine line with
  | error e => simp
  | ok t => simp [throws_signal]

theorem throws_readValues {values : Finmap fun _ : Int64 => Text} {table : List Text} :
    ThrowsOnly IsRuntimeError (readValues values table) ↔ ∀ n ∈ tableNumbers table, n.Readable := by
  fun_induction tableNumbers table generalizing values with
  | case1 raw label rest ih =>
    rw [readValues, throws_convert_bind, List.forall_mem_cons, ← stoll_eq_ok_iff]
    simp only [ih, exists_and_right]
  | case2 table hshort =>
    rw [readValues]
    · simp
    · exact hshort

theorem throws_addValues {id : UInt32} {sigName : Text} {table : List Text} :
    ThrowsOnly IsRuntimeError (db.addValues id sigName table) ↔
      ((db.findSignal id sigName).isSome → ∀ n ∈ tableNumbers table, n.Readable) := by
  unfold DB.addValues DB.findSignal
  cases db.messages.lookup id with
  | none => simp
  | some msg =>
    dsimp only [Option.bind_some]
    cases msg.signals.lookup sigName with
    | none => simp
    | some sig =>
      dsimp only
      rw [throwsOnly_bind, throws_readValues]
      simp

theorem throws_parseValLine :
    ThrowsOnly IsRuntimeError (parseValLine db line) ↔ ∀ n ∈ valNumbers db line, n.Readable := by
  unfold parseValLine valNumbers
  generalize valTokens line = tokens
  rcases tokens with _ | ⟨word, _ | ⟨id, _ | ⟨sigName, table⟩⟩⟩
  · simp
  · simp
  · simp
  · dsimp only
    rw [throws_convert_bind]
    simp only [stoullOrThrow_eq_ok_iff, throws_addValues]
    cases hid : strtoull id with
    | none => simp [NumberText.Readable, hid]
    | some n =>
      obtain ⟨value, outOfRange, rest⟩ := n
      by_cases hknown : (db.findSignal value.toUInt32 sigName).isSome = true
      · simp [NumberText.Readable, hid, hknown]
      · simp [NumberText.Readable, hid, hknown]

theorem throws_parseLine :
    ThrowsOnly IsRuntimeError (parseLine st line) ↔ ∀ n ∈ lineNumbers st line, n.Readable := by
  unfold parseLine lineNumbers
  dsimp only
  by_cases hskip : isSkipped (trim line) = true
  · rw [if_pos hskip, if_pos hskip]
    simp
  rw [if_neg hskip, if_neg hskip]
  by_cases hbo : (trim line).take 4 = "BO_ ".toList
  · rw [if_pos hbo, if_pos hbo, throwsOnly_bind]
    simp [throws_parseMessageLine]
  rw [if_neg hbo, if_neg hbo]
  by_cases hsg : (trim line).take 4 = "SG_ ".toList
  · rw [if_pos hsg, if_pos hsg]
    cases st.curMsg with
    | none => simp
    | some id =>
      dsimp only
      rw [throwsOnly_bind, throws_parseSignalLine]
      simp
  rw [if_neg hsg, if_neg hsg]
  by_cases hval : (trim line).take 5 = "VAL_ ".toList
  · rw [if_pos hval, if_pos hval, throwsOnly_bind, throws_parseValLine]
    simp
  · rw [if_neg hval, if_neg hval]
    simp

/-- Parsing throws nothing but `std::runtime_error` if and only if every number it comes
to is readable. -/
theorem parse_throws_iff (text : Text) :
    ThrowsOnly IsRuntimeError (parse text) ↔ NumbersReadable text := by
  unfold parse NumbersReadable
  rw [throwsOnly_map, throwsOnly_foldlM]
  simp only [throws_parseLine]

/-- A bit definition without a number makes `std::stoi` throw. -/
theorem parse_throws_invalidArgument :
    ¬ ThrowsOnly IsRuntimeError
        (parse "BO_ 1 M: 8 E\nSG_ s : x|8@1+ (1,0) [0|1] \"u\" r".toList) := by
  intro h
  exact h (.conversion .invalidArgument) (by decide +kernel)

end CppCan.Dbc
