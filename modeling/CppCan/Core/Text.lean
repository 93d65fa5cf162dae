import Mathlib.Algebra.Group.Nat.Defs
import Mathlib.Data.List.Basic
import Mathlib.Data.List.TakeWhile

/-!
# Texts, numerals and searching

A text is a list of characters. A number is read as the C library reads it: after
blanks and a sign, up to the first character that is not a digit. A text made of
chunks between quotation marks can be searched chunk by chunk for a quoted key.
-/

namespace CppCan.Core

/-- A text. -/
abbrev Text := List Char

/-- The decimal numeral of a number. -/
def decimal (n : Nat) : Text := Nat.toDigits 10 n

/-- The decimal numeral of an integer. -/
def decimalInt : Int → Text
  | .ofNat n => decimal n
  | .negSucc n => '-' :: decimal (n + 1)

/-- White space of the C library. -/
def isSpace (c : Char) : Bool := c ∈ [' ', '\t', '\n', '\x0b', '\x0c', '\r']

/-- What is read at the head of a text: the value, whether it is out of range and
the rest of the text. -/
structure Numeral where
  value : UInt64
  outOfRange : Bool
  rest : Text

/-- An optional sign. -/
def readSign : Text → Bool × Text
  | '-' :: s => (true, s)
  | '+' :: s => (false, s)
  | s => (false, s)

/-- `strtoull` in base ten; no result if there is no digit. -/
def strtoull (s : Text) : Option Numeral :=
  let (negative, s) := readSign (s.dropWhile isSpace)
  let digits := s.takeWhile Char.isDigit
  let n := Nat.ofDigitChars 10 digits 0
  if digits.isEmpty then none
  else if n ≥ 2 ^ 64 then some ⟨UInt64.ofNat (2 ^ 64 - 1), true, s.drop digits.length⟩
  else some ⟨if negative then 0 - UInt64.ofNat n else UInt64.ofNat n, false, s.drop digits.length⟩

/-- `std::stoull`; no result where it throws. -/
def stoull (s : Text) : Option UInt64 :=
  match strtoull s with
  | some ⟨value, false, _⟩ => some value
  | _ => none

/-- The text behind the first occurrence of `pat`. -/
def findAfter (pat : Text) : Text → Option Text
  | [] => if pat.isEmpty then some [] else none
  | c :: s => if pat.isPrefixOf (c :: s) then some ((c :: s).drop pat.length) else findAfter pat s

/-- The text before and behind the first occurrence of a character. -/
def cutAt (q : Char) : Text → Option (Text × Text)
  | [] => none
  | c :: s => if c = q then some ([], s) else (cutAt q s).map fun (t, rest) => (c :: t, rest)

/-- A numeral begins with a digit and holds only digits. -/
theorem decimal_eq_cons (n : Nat) :
    ∃ c cs, decimal n = c :: cs ∧ ∀ d ∈ c :: cs, d.isDigit = true := by
  obtain ⟨c, cs, h⟩ := List.exists_cons_of_ne_nil (Nat.toDigits_ne_nil (n := n) (b := 10))
  exact ⟨c, cs, h, fun d hd => Nat.isDigit_of_mem_toDigits (by omega) (by omega) (h ▸ hd)⟩

/-- A digit is not white space. -/
theorem not_isSpace_of_isDigit {c : Char} (h : c.isDigit = true) : isSpace c = false := by
  have hne : ∀ d : Char, d.isDigit = false → c ≠ d := by
    rintro d hd rfl
    exact absurd (h.symm.trans hd) (by simp)
  simp only [isSpace, decide_eq_false_iff_not, List.mem_cons, List.not_mem_nil, or_false, not_or]
  exact ⟨hne _ rfl, hne _ rfl, hne _ rfl, hne _ rfl, hne _ rfl, hne _ rfl⟩

/-- A digit is not a sign. -/
theorem readSign_of_isDigit {c : Char} {s : Text} (h : c.isDigit = true) :
    readSign (c :: s) = (false, c :: s) := by
  unfold readSign
  split
  · exact absurd h (by simp_all)
  · exact absurd h (by simp_all)
  · rfl

/-- The head of a text is what satisfies a condition up to where it fails first. -/
theorem takeWhile_append_of_head {p : Char → Bool} {t rest : Text} (ht : ∀ c ∈ t, p c = true)
    (hrest : ∀ c ∈ rest.head?, p c = false) : (t ++ rest).takeWhile p = t := by
  rw [List.takeWhile_append_of_pos ht]
  cases rest with
  | nil => simp
  | cons c rest => simp [hrest c rfl]

/-- A numeral is read up to the first character that is not a digit; one out of range is read as
the greatest number. -/
theorem strtoull_decimal_eq (n : Nat) (rest : Text)
    (hrest : ∀ c ∈ rest.head?, c.isDigit = false) :
    strtoull (decimal n ++ rest) =
      if n ≥ 2 ^ 64 then some ⟨UInt64.ofNat (2 ^ 64 - 1), true, rest⟩
      else some ⟨UInt64.ofNat n, false, rest⟩ := by
  obtain ⟨c, cs, hcs, hdigits⟩ := decimal_eq_cons n
  have hc := hdigits c List.mem_cons_self
  have hvalue : Nat.ofDigitChars 10 (c :: cs) 0 = n := by
    rw [← hcs]
    exact Nat.ofDigitChars_toDigits (by omega) (by omega)
  have hdrop : (c :: (cs ++ rest)).dropWhile isSpace = c :: (cs ++ rest) := by
    rw [List.dropWhile_cons, not_isSpace_of_isDigit hc]
    rfl
  have htake : (c :: (cs ++ rest)).takeWhile Char.isDigit = c :: cs :=
    takeWhile_append_of_head hdigits hrest
  simp only [strtoull, hcs, List.cons_append, hdrop, readSign_of_isDigit hc, htake, hvalue]
  rw [if_neg (by simp)]
  simp

/-- A numeral is read back up to the first character that is not a digit. -/
theorem strtoull_decimal {n : Nat} (rest : Text) (hn : n < 2 ^ 64)
    (hrest : ∀ c ∈ rest.head?, c.isDigit = false) :
    strtoull (decimal n ++ rest) = some ⟨UInt64.ofNat n, false, rest⟩ := by
  rw [strtoull_decimal_eq n rest hrest, if_neg (Nat.not_le.mpr hn)]

/-- A numeral is read back as a whole. -/
theorem stoull_decimal {n : Nat} (hn : n < 2 ^ 64) :
    stoull (decimal n) = some (UInt64.ofNat n) := by
  have h := strtoull_decimal [] hn (by simp)
  rw [List.append_nil] at h
  rw [stoull, h]

/-- The text begins with an integer, behind white space and a sign if there are any. Its value is
that of an unsigned integer of 64 bits, the greatest one if it does not fit. -/
inductive BeginsWith (s : Text) (v : UInt64) (rest : Text) : Prop where
  | mk (space sign digits : Text) (htext : s = space ++ (sign ++ (digits ++ rest)))
      (hspace : ∀ c ∈ space, isSpace c = true) (hsign : sign ∈ [[], ['+'], ['-']])
      (hne : digits ≠ []) (hdigits : ∀ c ∈ digits, c.isDigit = true)
      (hrest : ∀ c ∈ rest.head?, c.isDigit = false)
      (hvalue : v = if Nat.ofDigitChars 10 digits 0 ≥ 2 ^ 64 then UInt64.ofNat (2 ^ 64 - 1)
        else if sign = ['-'] then 0 - UInt64.ofNat (Nat.ofDigitChars 10 digits 0)
        else UInt64.ofNat (Nat.ofDigitChars 10 digits 0))

/-- A sign and the digits behind it. -/
theorem readSign_append {sign digits : Text} (hsign : sign ∈ [[], ['+'], ['-']])
    (hne : digits ≠ []) (hdigits : ∀ c ∈ digits, c.isDigit = true) (rest : Text) :
    readSign (sign ++ (digits ++ rest)) = (decide (sign = ['-']), digits ++ rest) := by
  obtain ⟨c, cs, rfl⟩ := List.exists_cons_of_ne_nil hne
  have hc := hdigits c List.mem_cons_self
  simp only [List.mem_cons, List.not_mem_nil, or_false] at hsign
  rcases hsign with rfl | rfl | rfl
  · exact readSign_of_isDigit hc
  · rfl
  · rfl

/-- What is read at the head of a text is the integer that it begins with. -/
theorem strtoull_of_beginsWith {s rest : Text} {v : UInt64} (h : BeginsWith s v rest) :
    ∃ o, strtoull s = some ⟨v, o, rest⟩ := by
  obtain ⟨space, sign, digits, rfl, hspace, hsign, hne, hdigits, hrest, rfl⟩ := h
  have hhead : (sign ++ (digits ++ rest)).dropWhile isSpace = sign ++ (digits ++ rest) := by
    obtain ⟨c, cs, rfl⟩ := List.exists_cons_of_ne_nil hne
    have hc := not_isSpace_of_isDigit (hdigits c List.mem_cons_self)
    simp only [List.mem_cons, List.not_mem_nil, or_false] at hsign
    rcases hsign with rfl | rfl | rfl
    · rw [List.nil_append, List.cons_append, List.dropWhile_cons_of_neg (by simp [hc])]
    · rfl
    · rfl
  have hdrop : (space ++ (sign ++ (digits ++ rest))).dropWhile isSpace =
      sign ++ (digits ++ rest) := by
    rw [List.dropWhile_append_of_pos hspace, hhead]
  have htake := takeWhile_append_of_head hdigits hrest
  simp only [strtoull, hdrop, readSign_append hsign hne hdigits, htake]
  rw [if_neg (by simpa using hne), List.drop_left]
  split_ifs <;> simp_all

/-- Where an integer is read, the text begins with it. -/
theorem beginsWith_of_strtoull {s : Text} {n : Numeral} (h : strtoull s = some n) :
    BeginsWith s n.value n.rest := by
  have hspace : ∀ c ∈ s.takeWhile isSpace, isSpace c = true := fun c => List.mem_takeWhile_imp
  have hsplit : s = s.takeWhile isSpace ++ s.dropWhile isSpace :=
    List.takeWhile_append_dropWhile.symm
  obtain ⟨sign, t, hsign, hs, hread⟩ : ∃ sign t, sign ∈ [[], ['+'], ['-']] ∧
      s.dropWhile isSpace = sign ++ t ∧
      readSign (s.dropWhile isSpace) = (decide (sign = ['-']), t) := by
    generalize s.dropWhile isSpace = u
    unfold readSign
    split
    · exact ⟨['-'], _, by simp, rfl, rfl⟩
    · exact ⟨['+'], _, by simp, rfl, rfl⟩
    · exact ⟨[], _, by simp, rfl, rfl⟩
  have hdigits : ∀ c ∈ t.takeWhile Char.isDigit, c.isDigit = true := fun c =>
    List.mem_takeWhile_imp
  have hrest : ∀ c ∈ (t.dropWhile Char.isDigit).head?, c.isDigit = false := by
    intro c hc
    have hhead := List.head?_dropWhile_not Char.isDigit t
    rw [Option.mem_def.mp hc] at hhead
    simpa using hhead
  have hdrop : t.drop (t.takeWhile Char.isDigit).length = t.dropWhile Char.isDigit := by
    have hsplit : t.takeWhile Char.isDigit ++ t.dropWhile Char.isDigit = t :=
      List.takeWhile_append_dropWhile
    conv_lhs => rw [← hsplit, List.drop_left' (by rw [hsplit])]
  simp only [strtoull, hread, hdrop] at h
  split at h
  · cases h
  rename_i hne
  have hne : t.takeWhile Char.isDigit ≠ [] := by simpa using hne
  have htext : s = s.takeWhile isSpace ++
      (sign ++ (t.takeWhile Char.isDigit ++ t.dropWhile Char.isDigit)) := by
    rw [List.takeWhile_append_dropWhile, ← hs, ← hsplit]
  split at h
  · rename_i hbig
    obtain rfl := Option.some.inj h
    exact ⟨_, sign, _, htext, hspace, hsign, hne, hdigits, hrest, by rw [if_pos hbig]⟩
  · rename_i hsmall
    obtain rfl := Option.some.inj h
    exact ⟨_, sign, _, htext, hspace, hsign, hne, hdigits, hrest, by
      rw [if_neg hsmall]; simp⟩

/-- An integer has at least one digit. -/
theorem BeginsWith.length_lt {s rest : Text} {v : UInt64} (h : BeginsWith s v rest) :
    rest.length < s.length := by
  obtain ⟨space, sign, digits, rfl, -, -, hne, -⟩ := h
  have hpos := List.length_pos_of_ne_nil hne
  simp only [List.length_append]
  omega

theorem cutAt_of_not_mem {q : Char} (h : q ∉ s) : cutAt q s = none := by
  induction s with
  | nil => rfl
  | cons c s ih =>
    obtain ⟨hc, hs⟩ := List.ne_and_not_mem_of_not_mem_cons h
    rw [cutAt, if_neg (Ne.symm hc), ih hs]
    rfl

/-- A text without the character is cut behind it. -/
theorem cutAt_append {q : Char} {t : Text} (rest : Text) (h : q ∉ t) :
    cutAt q (t ++ q :: rest) = some (t, rest) := by
  induction t with
  | nil => simp [cutAt]
  | cons c t ih =>
    obtain ⟨hc, ht⟩ := List.ne_and_not_mem_of_not_mem_cons h
    rw [List.cons_append, cutAt, if_neg hc.symm, ih ht]
    rfl

/-- A text whose chunks are each preceded by a quotation mark. -/
def quotedChunks : List Text → Text
  | [] => []
  | t :: ts => '"' :: (t ++ quotedChunks ts)

/-- A key in quotation marks with a colon behind it. -/
def keyPattern (key : Text) : Text := '"' :: (key ++ ['"', ':'])

variable {key t u : Text} {ts : List Text}

/-- Nothing is found in a text without quotation marks. -/
theorem findAfter_plain (key : Text) (h : '"' ∉ t) (rest : Text) :
    findAfter (keyPattern key) (t ++ rest) = findAfter (keyPattern key) rest := by
  induction t with
  | nil => rfl
  | cons c t ih =>
    obtain ⟨hc, ht⟩ := List.ne_and_not_mem_of_not_mem_cons h
    rw [List.cons_append, findAfter, if_neg, ih ht]
    simp [keyPattern, hc]

/-- The pattern matches a chunk exactly if the chunk is the key and a colon follows. -/
theorem keyPattern_prefix_iff (hkey : '"' ∉ key) (ht : '"' ∉ t) (s : Text) :
    keyPattern key <+: '"' :: (t ++ '"' :: s) ↔ t = key ∧ s.head? = some ':' := by
  constructor
  · rintro ⟨r, hr⟩
    have heq : key ++ '"' :: (':' :: r) = t ++ '"' :: s := by simpa [keyPattern] using hr
    have hcut := congrArg (cutAt '"') heq
    rw [cutAt_append _ hkey, cutAt_append _ ht] at hcut
    obtain ⟨rfl, rfl⟩ := Prod.mk.inj (Option.some.inj hcut)
    exact ⟨rfl, rfl⟩
  · rintro ⟨rfl, hs⟩
    obtain ⟨r, rfl⟩ := List.head?_eq_some_iff.mp hs
    exact ⟨r, by simp [keyPattern]⟩

/-- A key is found at the first chunk that is the key and has a colon behind it. -/
theorem findAfter_chunks (hkey : '"' ∉ key) (ht : '"' ∉ t) :
    findAfter (keyPattern key) (quotedChunks (t :: u :: ts)) =
      if t = key ∧ u.head? = some ':' then some (u.tail ++ quotedChunks ts)
      else findAfter (keyPattern key) (quotedChunks (u :: ts)) := by
  have hhead : (u ++ quotedChunks ts).head? = some ':' ↔ u.head? = some ':' := by
    cases u with
    | nil => cases ts <;> simp [quotedChunks]
    | cons c u => simp
  have hiff := keyPattern_prefix_iff hkey ht (u ++ quotedChunks ts)
  rw [hhead] at hiff
  simp only [quotedChunks]
  rw [findAfter]
  by_cases h : t = key ∧ u.head? = some ':'
  · rw [if_pos (List.isPrefixOf_iff_prefix.mpr (hiff.mpr h)), if_pos h]
    obtain ⟨rfl, hu⟩ := h
    obtain ⟨r, rfl⟩ := List.head?_eq_some_iff.mp hu
    simp [keyPattern]
  · rw [if_neg (fun hp => h (hiff.mp (List.isPrefixOf_iff_prefix.mp hp))), if_neg h,
      findAfter_plain key ht]

/-- The last chunk is not a key. -/
theorem findAfter_last (key : Text) (ht : '"' ∉ t) :
    findAfter (keyPattern key) (quotedChunks [t]) = none := by
  have hnot : ¬ (keyPattern key).isPrefixOf ('"' :: t) = true := by
    rw [List.isPrefixOf_iff_prefix]
    intro hp
    have hmem : '"' ∈ key ++ ['"', ':'] := by simp
    exact ht ((List.cons_prefix_cons.mp hp).2.subset hmem)
  have hplain := findAfter_plain key ht []
  rw [List.append_nil] at hplain
  rw [quotedChunks, quotedChunks, List.append_nil, findAfter, if_neg hnot, hplain]
  rfl

/-- The text behind the first chunk that is the key and has a colon behind it. -/
def findKey (key : Text) : List Text → Option Text
  | t :: u :: ts =>
    if t = key ∧ u.head? = some ':' then some (u.tail ++ quotedChunks ts) else findKey key (u :: ts)
  | _ => none

/-- A chunk that is not the key is passed over. -/
theorem findKey_cons_of_ne (h : t ≠ key) (ts : List Text) :
    findKey key (t :: ts) = findKey key ts := by
  cases ts with
  | nil => rfl
  | cons u ts => rw [findKey, if_neg fun hk => h hk.1]

/-- Searching a text for a quoted key is searching its chunks. -/
theorem findAfter_quotedChunks (hkey : '"' ∉ key) (hts : ∀ t ∈ ts, '"' ∉ t) :
    findAfter (keyPattern key) (quotedChunks ts) = findKey key ts := by
  induction ts with
  | nil => rfl
  | cons t ts ih =>
    obtain ⟨ht, hts⟩ := List.forall_mem_cons.mp hts
    cases ts with
    | nil => exact findAfter_last key ht
    | cons u ts => rw [findAfter_chunks hkey ht, ih hts, findKey]

/-- The first occurrence of `pat` in `s` stands behind `front`, and `rest` follows it. -/
def FirstAt (pat s front rest : Text) : Prop :=
  s = front ++ (pat ++ rest) ∧
    ∀ front' rest', s = front' ++ (pat ++ rest') → front.length ≤ front'.length

variable {pat s front front' rest rest' : Text}

/-- There is one first occurrence. -/
theorem FirstAt.unique (h : FirstAt pat s front rest) (h' : FirstAt pat s front' rest') :
    front = front' ∧ rest = rest' := by
  obtain ⟨heq, hle⟩ := h
  obtain ⟨heq', hle'⟩ := h'
  have hlen : front.length = front'.length :=
    Nat.le_antisymm (hle front' rest' heq') (hle' front rest heq)
  obtain ⟨hfront, hrest⟩ := List.append_inj (heq.symm.trans heq') hlen
  exact ⟨hfront, List.append_cancel_left hrest⟩

/-- Searching finds the first occurrence if there is one. -/
theorem findAfter_spec (hpat : pat ≠ []) (s : Text) :
    (∃ front rest, findAfter pat s = some rest ∧ FirstAt pat s front rest) ∨
      findAfter pat s = none ∧ ∀ front rest, s ≠ front ++ (pat ++ rest) := by
  induction s with
  | nil =>
    refine .inr ⟨by simp [findAfter, hpat], fun front rest h => ?_⟩
    simp [hpat] at h
  | cons c s ih =>
    by_cases hprefix : pat <+: c :: s
    · obtain ⟨rest, hrest⟩ := hprefix
      refine .inl ⟨[], rest, ?_, hrest.symm, fun _ _ _ => Nat.zero_le _⟩
      rw [findAfter, if_pos (List.isPrefixOf_iff_prefix.mpr ⟨rest, hrest⟩), ← hrest,
        List.drop_left]
    · -- An occurrence stands behind the first character.
      have htail : ∀ front rest, c :: s = front ++ (pat ++ rest) →
          ∃ t, front = c :: t ∧ s = t ++ (pat ++ rest) := by
        intro front rest h
        cases front with
        | nil => exact absurd ⟨rest, h.symm⟩ hprefix
        | cons d t =>
          obtain ⟨rfl, hs⟩ := List.cons.inj h
          exact ⟨t, rfl, hs⟩
      rw [findAfter, if_neg fun h => hprefix (List.isPrefixOf_iff_prefix.mp h)]
      rcases ih with ⟨front, rest, hfind, hs, hfirst⟩ | ⟨hfind, hnone⟩
      · refine .inl ⟨c :: front, rest, hfind, congrArg (c :: ·) hs, fun front' rest' h => ?_⟩
        obtain ⟨t, rfl, ht⟩ := htail front' rest' h
        exact Nat.succ_le_succ (hfirst t rest' ht)
      · refine .inr ⟨hfind, fun front rest h => ?_⟩
        obtain ⟨t, -, ht⟩ := htail front rest h
        exact hnone t rest ht

end CppCan.Core
