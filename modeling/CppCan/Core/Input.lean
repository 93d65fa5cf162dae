import CppCan.Core.Numerals
import Mathlib.Data.List.DropRight

/-!
# Reading lines and words

A text is read line by line and a line word by word. After an extraction that fails,
a stream gives nothing more and its variables keep their values.
-/

namespace CppCan.Core

/-- The lines that `std::getline` gives until the text is at its end. -/
def getlines : Text → List Text
  | [] => []
  | c :: s =>
    if c = '\n' then [] :: getlines s
    else
      match getlines s with
      | [] => [[c]]
      | line :: lines => (c :: line) :: lines

/-- The characters that `trim` removes. -/
def isTrimmed (c : Char) : Bool := c ∈ [' ', '\t', '\r', '\n']

def trim (s : Text) : Text := (s.dropWhile isTrimmed).rdropWhile isTrimmed

/-- The text before and behind the first occurrence of `pat`. -/
def cutAtText (pat : Text) : Text → Option (Text × Text)
  | [] => if pat.isEmpty then some ([], []) else none
  | c :: s =>
    if pat.isPrefixOf (c :: s) then some ([], (c :: s).drop pat.length)
    else (cutAtText pat s).map fun (t, rest) => (c :: t, rest)

/-- What is left of a string stream; nothing after a failure. -/
abbrev InputStream := Option Text

/-- Skip white space; a stream at its end fails. -/
def InputStream.skipSpace (ss : InputStream) : InputStream :=
  ss.bind fun s => if (s.dropWhile isSpace).isEmpty then none else some (s.dropWhile isSpace)

/-- `ss >> s` for a string. -/
def InputStream.readWord (ss : InputStream) (old : Text) : Text × InputStream :=
  match ss.skipSpace with
  | none => (old, none)
  | some s => (s.takeWhile (!isSpace ·), some (s.dropWhile (!isSpace ·)))

/-- `ss >> n` for an `int`: zero if there is no numeral, the nearest bound if the
value is out of range. -/
def InputStream.readInt32 (ss : InputStream) (old : Int32) : Int32 × InputStream :=
  match ss.skipSpace with
  | none => (old, none)
  | some s =>
    match readInteger s with
    | none => (0, none)
    | some (v, rest) =>
      if v < -2 ^ 31 then (Int32.minValue, none)
      else if 2 ^ 31 - 1 < v then (Int32.maxValue, none)
      else (Int32.ofInt v, some rest)

/-- `ss >> n` for a `uint32_t`: a minus sign negates the value modulo `2 ^ 32`. -/
def InputStream.readUInt32 (ss : InputStream) (old : UInt32) : UInt32 × InputStream :=
  match ss.skipSpace with
  | none => (old, none)
  | some s =>
    match readInteger s with
    | none => (0, none)
    | some (v, rest) =>
      if 2 ^ 32 - 1 < v.natAbs then (UInt32.ofNat (2 ^ 32 - 1), none)
      else (UInt32.ofInt v, some rest)

/-- `while (ss >> s)`: the words that are left. -/
def InputStream.words (ss : InputStream) : List Text :=
  ((ss.getD []).splitOnP isSpace).filter (!·.isEmpty)

variable {s t rest blanks old : Text} {lines : List Text}

/-- A text of lines, each with its line end. -/
def unlines (lines : List Text) : Text := lines.flatMap (· ++ ['\n'])

/-- A line is read up to its end. -/
theorem getlines_append (h : '\n' ∉ t) : getlines (t ++ '\n' :: rest) = t :: getlines rest := by
  induction t with
  | nil => simp [getlines]
  | cons c t ih =>
    obtain ⟨hc, ht⟩ := List.ne_and_not_mem_of_not_mem_cons h
    rw [List.cons_append, getlines, if_neg hc.symm, ih ht]

/-- A text of lines is read line by line. -/
theorem getlines_unlines (h : ∀ t ∈ lines, '\n' ∉ t) : getlines (unlines lines) = lines := by
  induction lines with
  | nil => rfl
  | cons t lines ih =>
    obtain ⟨ht, hlines⟩ := List.forall_mem_cons.mp h
    rw [unlines, List.flatMap_cons, List.append_assoc, List.singleton_append, getlines_append ht]
    exact congrArg _ (ih hlines)

/-- A text that neither begins nor ends with a blank stays as it is. -/
theorem trim_eq_self (hhead : ∀ c ∈ s.head?, isTrimmed c = false)
    (hlast : ∀ c ∈ s.getLast?, isTrimmed c = false) : trim s = s := by
  have hdrop : s.dropWhile isTrimmed = s := by
    cases s with
    | nil => rfl
    | cons c s => rw [List.dropWhile_cons_of_neg (by simp [hhead c rfl])]
  rw [trim, hdrop, List.rdropWhile_eq_self_iff]
  intro hs
  simp [hlast _ (List.getLast?_eq_some_getLast hs)]

/-- A blank at the end of a text is dropped. -/
theorem trim_append_blank (s : Text) : trim (s ++ [' ']) = trim s := by
  by_cases hs : (s.dropWhile isTrimmed).isEmpty = true
  · have hnil := List.isEmpty_iff.mp hs
    rw [trim, trim, List.dropWhile_append, if_pos hs, hnil]
    rfl
  · rw [trim, trim, List.dropWhile_append, if_neg hs]
    exact List.rdropWhile_concat_pos _ _ _ rfl

/-- Nothing is dropped before the last character that stays. -/
theorem rdropWhile_append_cons {p : Char → Bool} {c : Char} (hc : p c = false) :
    (s ++ c :: t).rdropWhile p = s ++ c :: t.rdropWhile p := by
  induction t using List.reverseRecOn with
  | nil => exact List.rdropWhile_concat_neg p s c (by simp [hc])
  | append_singleton t d ih =>
    rw [← List.cons_append, ← List.append_assoc]
    by_cases hd : p d = true
    · rw [List.rdropWhile_concat_pos p _ d hd, List.rdropWhile_concat_pos p _ d hd, ih]
    · rw [List.rdropWhile_concat_neg p _ d hd, List.rdropWhile_concat_neg p _ d hd,
        List.append_assoc, List.cons_append]

/-- White space includes what `trim` removes. -/
theorem not_isTrimmed {c : Char} (h : isSpace c = false) : isTrimmed c = false := by
  simp only [isSpace, isTrimmed, List.mem_cons, List.not_mem_nil, or_false,
    decide_eq_false_iff_not, not_or] at *
  exact ⟨h.1, h.2.1, h.2.2.2.2.2, h.2.2.1⟩

/-- A text is cut at the first occurrence of a pattern if its head holds the first
character of the pattern nowhere. -/
theorem cutAtText_append {p : Char} {pat : Text} (h : p ∉ t) :
    cutAtText (p :: pat) (t ++ p :: (pat ++ rest)) = some (t, rest) := by
  induction t with
  | nil => simp [cutAtText]
  | cons c t ih =>
    obtain ⟨hc, ht⟩ := List.ne_and_not_mem_of_not_mem_cons h
    rw [List.cons_append, cutAtText, if_neg (by simp [hc]), ih ht]
    rfl

/-- A word: a text that is not empty and holds no white space. -/
structure IsWord (s : Text) : Prop where
  ne_nil : s ≠ []
  plain : ∀ c ∈ s, isSpace c = false

/-- A text that passes the checks is a word. -/
theorem isWord_of_all (h : (!s.isEmpty && s.all (!isSpace ·)) = true) : IsWord s := by
  simp only [Bool.and_eq_true, List.all_eq_true, Bool.not_eq_true',
    List.isEmpty_eq_false_iff] at h
  exact ⟨h.1, h.2⟩

/-- Characters that are no white space make a word. -/
theorem isWord_append_cons {c : Char} (hs : ∀ d ∈ s, isSpace d = false)
    (hc : isSpace c = false) (ht : ∀ d ∈ t, isSpace d = false) : IsWord (s ++ c :: t) := by
  refine ⟨by simp, ?_⟩
  simp only [List.forall_mem_append, List.forall_mem_cons]
  exact ⟨hs, hc, ht⟩

/-- A blank is white space. -/
theorem isSpace_blank : ∀ c ∈ [' '], isSpace c = true := List.forall_mem_singleton.mpr rfl

/-- A text behind a blank begins with white space. -/
theorem isSpace_head_blank (s : Text) : ∀ c ∈ ([' '] ++ s).head?, isSpace c = true := by
  rintro c hc
  cases hc
  rfl

/-- A text that begins with a word begins with no white space. -/
theorem IsWord.head_append (hs : IsWord s) : ∀ c ∈ (s ++ rest).head?, isSpace c = false := by
  obtain ⟨c, s, rfl⟩ := List.exists_cons_of_ne_nil hs.ne_nil
  intro d hd
  cases hd
  exact hs.plain c List.mem_cons_self

/-- A text that begins with no blank and ends with a word stays as it is. -/
theorem trim_of_suffix (hhead : ∀ c ∈ s.head?, isSpace c = false) (ht : IsWord t)
    (hsuffix : t <:+ s) : trim s = s := by
  apply trim_eq_self fun c hc => not_isTrimmed (hhead c hc)
  intro c hc
  obtain ⟨u, rfl⟩ := hsuffix
  obtain ⟨d, hd⟩ := Option.isSome_iff_exists.mp (List.getLast?_isSome.mpr ht.ne_nil)
  rw [List.getLast?_append, hd, Option.some_or] at hc
  cases hc
  exact not_isTrimmed (ht.plain c (List.mem_of_getLast? hd))

/-- A word stays as it is. -/
theorem IsWord.trim_eq (hs : IsWord s) : trim s = s :=
  trim_of_suffix (fun c hc => hs.plain c (List.mem_of_mem_head? hc)) hs (List.suffix_refl s)

theorem isWord_decimalInt (z : Int) : IsWord (decimalInt z) :=
  ⟨decimalInt_ne_nil z, fun _ hc => not_isSpace_of_mem_decimalInt hc⟩

/-- White space before a text that begins with none is skipped. -/
theorem skipSpace_append (hblanks : ∀ c ∈ blanks, isSpace c = true) (hs : s ≠ [])
    (hhead : ∀ c ∈ s.head?, isSpace c = false) :
    InputStream.skipSpace (some (blanks ++ s)) = some s := by
  have hdrop : (blanks ++ s).dropWhile isSpace = s := by
    rw [List.dropWhile_append_of_pos hblanks]
    cases s with
    | nil => rfl
    | cons c s => rw [List.dropWhile_cons_of_neg (by simp [hhead c rfl])]
  simp only [InputStream.skipSpace, Option.bind_some, hdrop]
  rw [if_neg (by simp [hs])]

/-- White space is skipped and a word is read up to the white space behind it. -/
theorem readWord_eq (hblanks : ∀ c ∈ blanks, isSpace c = true) (hs : s ≠ [])
    (hhead : ∀ c ∈ s.head?, isSpace c = false) :
    InputStream.readWord (some (blanks ++ s)) old =
      (s.takeWhile (!isSpace ·), some (s.dropWhile (!isSpace ·))) := by
  rw [InputStream.readWord, skipSpace_append hblanks hs hhead]

/-- The next word is read as it is written. -/
theorem readWord_append (hblanks : ∀ c ∈ blanks, isSpace c = true) (hs : IsWord s)
    (hrest : ∀ c ∈ rest.head?, isSpace c = true) :
    InputStream.readWord (some (blanks ++ (s ++ rest))) old = (s, some rest) := by
  have hall : ∀ c ∈ s, (!isSpace c) = true := fun c hc => by simp [hs.plain c hc]
  have hstop : ∀ c ∈ rest.head?, (!isSpace c) = false := fun c hc => by simp [hrest c hc]
  have hdrop : (s ++ rest).dropWhile (!isSpace ·) = rest := by
    rw [List.dropWhile_append_of_pos hall]
    cases rest with
    | nil => rfl
    | cons c rest => rw [List.dropWhile_cons_of_neg (by simp [hrest c rfl])]
  rw [readWord_eq hblanks (List.append_ne_nil_of_left_ne_nil hs.ne_nil rest) hs.head_append,
    takeWhile_append_of_head hall hstop, hdrop]

/-- White space before a numeral is skipped, and the numeral is read up to the white
space behind it. -/
theorem readInteger_append (hblanks : ∀ c ∈ blanks, isSpace c = true) (z : Int)
    (hrest : ∀ c ∈ rest.head?, isSpace c = true) :
    InputStream.skipSpace (some (blanks ++ (decimalInt z ++ rest))) =
        some (decimalInt z ++ rest) ∧
      readInteger (decimalInt z ++ rest) = some (z, rest) := by
  have hstop : ∀ c ∈ rest.head?, c.isDigit = false := by
    intro c hc
    by_contra hdigit
    rw [Bool.not_eq_false] at hdigit
    exact absurd (hrest c hc) (by simp [not_isSpace_of_isDigit hdigit])
  refine ⟨skipSpace_append hblanks ?_ ?_, readInteger_decimalInt z hstop⟩
  · exact List.append_ne_nil_of_left_ne_nil (decimalInt_ne_nil z) rest
  · exact (isWord_decimalInt z).head_append

theorem readInt32_append (hblanks : ∀ c ∈ blanks, isSpace c = true) (x old : Int32)
    (hrest : ∀ c ∈ rest.head?, isSpace c = true) :
    InputStream.readInt32 (some (blanks ++ (decimalInt x.toInt ++ rest))) old =
      (x, some rest) := by
  obtain ⟨hskip, hread⟩ := readInteger_append hblanks x.toInt hrest
  have hlo := x.le_toInt
  have hhi := x.toInt_lt
  rw [InputStream.readInt32, hskip]
  dsimp only
  rw [hread]
  dsimp only
  rw [if_neg (by omega), if_neg (by omega), Int32.ofInt_toInt]

theorem readUInt32_append (hblanks : ∀ c ∈ blanks, isSpace c = true) (x old : UInt32)
    (hrest : ∀ c ∈ rest.head?, isSpace c = true) :
    InputStream.readUInt32 (some (blanks ++ (decimal x.toNat ++ rest))) old =
      (x, some rest) := by
  obtain ⟨hskip, hread⟩ := readInteger_append hblanks x.toNat hrest
  have hlt := x.toNat_lt
  have hmod : ((x.toNat : Int) % 2 ^ 32).toNat = x.toNat := by omega
  change InputStream.readUInt32 (some (blanks ++ (decimalInt x.toNat ++ rest))) old = _
  rw [InputStream.readUInt32, hskip]
  dsimp only
  rw [hread]
  dsimp only
  rw [if_neg (by omega), UInt32.ofInt, hmod, UInt32.ofNat_toNat]

theorem words_some (s : Text) :
    InputStream.words (some s) = (s.splitOnP isSpace).filter fun t => !t.isEmpty := rfl

/-- White space before the words is no word. -/
theorem words_append_blanks (hblanks : ∀ c ∈ blanks, isSpace c = true) :
    InputStream.words (some (blanks ++ s)) = InputStream.words (some s) := by
  induction blanks with
  | nil => rfl
  | cons b blanks ih =>
    obtain ⟨hb, hblanks⟩ := List.forall_mem_cons.mp hblanks
    have hsplit : (b :: (blanks ++ s)).splitOnP isSpace = [] :: (blanks ++ s).splitOnP isSpace :=
      List.splitOnP_append_cons_of_forall_mem (List.forall_mem_nil _) b hb _
    rw [List.cons_append, words_some, hsplit, ← ih hblanks, words_some]
    rfl

/-- A word is read before the words behind it. -/
theorem words_append (hs : IsWord s) (hrest : ∀ c ∈ rest.head?, isSpace c = true) :
    InputStream.words (some (s ++ rest)) = s :: InputStream.words (some rest) := by
  cases rest with
  | nil =>
    rw [List.append_nil, words_some, List.splitOnP_eq_singleton hs.plain]
    simp [hs.ne_nil, words_some]
  | cons c rest =>
    have hc := hrest c rfl
    have hskip : InputStream.words (some (c :: rest)) = InputStream.words (some rest) :=
      words_append_blanks (List.forall_mem_singleton.mpr hc)
    rw [hskip, words_some, List.splitOnP_append_cons_of_forall_mem hs.plain c hc, words_some]
    simp [hs.ne_nil]

/-- A word behind white space is the only one. -/
theorem words_singleton (hblanks : ∀ c ∈ blanks, isSpace c = true) (hs : IsWord s) :
    InputStream.words (some (blanks ++ s)) = [s] := by
  have hword : InputStream.words (some (s ++ [])) = s :: InputStream.words (some []) :=
    words_append hs fun c hc => nomatch hc
  rw [List.append_nil] at hword
  rw [words_append_blanks hblanks, hword]
  rfl

end CppCan.Core
