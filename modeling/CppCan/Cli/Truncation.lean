import CppCan.Cli.Extraction
import CppCan.Cli.Grammar
import CppCan.Cli.Reading
import Mathlib.Algebra.Order.Field.Basic
import Mathlib.Algebra.Order.Field.Rat
import Mathlib.Tactic.Linarith
import Mathlib.Tactic.Positivity

/-!
# Payloads that are cut short

The reader of bytes stops at the first element it does not understand and decodes the raw
characters of a string, and the frame takes over what has been read. So the payload is the
one that is meant exactly if the reader gets to the end of it.
-/

namespace CppCan.Cli

open CppCan.Core

namespace Number

variable {n : Number} {b : UInt8} {s : Text}

/-- The number is written as an integer. -/
def IsPlain (n : Number) : Prop := n.fraction = [] ∧ n.exponent = none

/-- A number that is not negative has the integer zero if it is written with a sign. -/
theorem int_eq_zero (h : n.value = b.toNat) (hneg : n.negative = true) : n.int = 0 := by
  have hpow : (0 : ℚ) < 10 ^ ((n.exponent.map Exponent.value).getD 0) :=
    zpow_pos (by norm_num) _
  have hfraction : (0 : ℚ) ≤ Nat.ofDigitChars 10 n.fraction 0 / 10 ^ n.fraction.length :=
    div_nonneg (Nat.cast_nonneg _) (by positivity)
  have hbyte : (0 : ℚ) ≤ b.toNat := by positivity
  rw [value, if_pos hneg] at h
  by_contra hint
  have hpos : (0 : ℚ) < n.int := Nat.cast_pos.mpr (Nat.pos_of_ne_zero hint)
  have hmagnitude := mul_pos (add_pos_of_pos_of_nonneg hpos hfraction) hpow
  linarith

/-- A plain number is its integer, up to the sign. -/
theorem value_of_isPlain (h : n.IsPlain) :
    n.value = (if n.negative then -1 else 1) * n.int := by
  obtain ⟨hfraction, hexponent⟩ := h
  simp [value, hfraction, hexponent, Nat.ofDigitChars]

/-- A plain number that is a byte has this byte as its integer. -/
theorem value_eq_int (h : n.value = b.toNat) (hplain : n.IsPlain) : n.value = n.int := by
  rw [value_of_isPlain hplain]
  split_ifs with hneg
  · simp [int_eq_zero h hneg]
  · rw [one_mul]

/-- A number that is not plain goes on behind its integer with a character that belongs to no
other token. -/
theorem tail_cases (n : Number) :
    n.IsPlain ∧ n.tail = [] ∨
      ¬ n.IsPlain ∧ ∃ c t, n.tail = c :: t ∧ c ∈ ['.', 'e', 'E'] := by
  unfold IsPlain tail
  by_cases hfraction : n.fraction = []
  · cases hexponent : n.exponent with
    | none => exact .inl ⟨⟨hfraction, rfl⟩, by simp [hfraction]⟩
    | some e =>
      refine .inr ⟨fun h => (Option.some_ne_none e) h.2, e.letter, e.sign ++ e.digits, ?_, ?_⟩
      · simp [hfraction, Exponent.text]
      · exact List.mem_cons_of_mem _ e.letter_mem
  · refine .inr ⟨fun h => hfraction h.1, '.', n.fraction ++ (n.exponent.map Exponent.text).getD [],
      ?_, List.mem_cons_self⟩
    rw [if_neg hfraction, List.cons_append]

/-- The integer ends where the tail begins. -/
theorem not_isDigit_tail (n : Number) (hs : ∀ c ∈ s.head?, c.isDigit = false) :
    ∀ c ∈ (n.tail ++ s).head?, c.isDigit = false := by
  rcases n.tail_cases with ⟨-, htail⟩ | ⟨-, c, t, htail, hc⟩
  · rwa [htail]
  · rw [htail]
    rintro d hd
    obtain rfl := Option.some.inj hd
    simp only [List.mem_cons, List.not_mem_nil, or_false] at hc
    rcases hc with rfl | rfl | rfl <;> rfl

/-- The integer is read, or something greater than a byte. -/
theorem strtoull_text (hneg : n.negative = true → n.int = 0)
    (hs : ∀ c ∈ s.head?, c.isDigit = false) :
    ∃ v o, strtoull (n.text ++ s) = some ⟨v, o, n.tail ++ s⟩ ∧
      (n.int ≤ 255 → v = UInt64.ofNat n.int) ∧ (255 < n.int → 255 < v) := by
  have htail := n.not_isDigit_tail hs
  rw [text, List.append_assoc, List.append_assoc]
  cases hsign : n.negative with
  | true =>
    have hzero := hneg hsign
    have htake : (['0'] ++ (n.tail ++ s)).takeWhile Char.isDigit = ['0'] :=
      takeWhile_append_of_head (by simp) htail
    rw [List.singleton_append] at htake
    refine ⟨0, false, ?_, fun _ => by rw [hzero]; rfl, fun hlt => by omega⟩
    rw [if_pos rfl, hzero]
    change strtoull ('-' :: '0' :: (n.tail ++ s)) = _
    have hdrop : ('-' :: '0' :: (n.tail ++ s)).dropWhile isSpace =
        '-' :: '0' :: (n.tail ++ s) := rfl
    simp only [strtoull, hdrop, readSign, htake]
    rfl
  | false =>
    rw [if_neg Bool.false_ne_true, List.nil_append, strtoull_decimal_eq n.int _ htail]
    split_ifs with hge
    · exact ⟨_, _, rfl, fun hle => by omega, fun _ => by decide⟩
    · refine ⟨_, _, rfl, fun _ => rfl, fun hlt => ?_⟩
      rw [UInt64.lt_iff_toNat_lt, UInt64.toNat_ofNat_of_lt' (Nat.not_le.mp hge)]
      exact hlt

end Number

/-- The elements can be read to the last: the numbers before it are plain and have their commas on
their lines, and it is its integer. -/
def LegibleElems : List (Element Json) → Prop
  | [] => True
  | [e] => ∃ n, e.value = .number n ∧ n.value = n.int
  | e :: rest => (∃ n, e.value = .number n ∧ n.IsPlain) ∧ e.after.Inline ∧ LegibleElems rest

variable {n : Number} {b : UInt8} {s : Text} {data : List UInt8} {elems : List (Element Json)}

/-- Where no number begins, no element is read. -/
theorem bytesLoop_tail (rounds : Nat) {c : Char} (hc : c ∈ ['.', 'e', 'E']) (t : Text) :
    bytesLoop rounds (skipComma (c :: t)) = [] := by
  simp only [List.mem_cons, List.not_mem_nil, or_false] at hc
  cases rounds with
  | zero => rfl
  | succ rounds => rcases hc with rfl | rfl | rfl <;> rfl

/-- An element that is a byte is read as its integer, if that is a byte. -/
theorem bytesLoop_number (rounds : Nat) (g : Gap) (h : n.value = b.toNat)
    (hs : ∀ c ∈ s.head?, c.isDigit = false) :
    bytesLoop (rounds + 1) (g.text ++ (n.text ++ s)) =
      if n.int ≤ 255 then n.int.toUInt8 :: bytesLoop rounds (skipComma (n.tail ++ s)) else [] := by
  obtain ⟨v, o, hread, hle, hgt⟩ := Number.strtoull_text (Number.int_eq_zero h) hs
  rw [bytesLoop_succ, strtoull_gap, hread]
  dsimp only
  split_ifs with hbig hint hint
  · rw [hle hint, gt_iff_lt, UInt64.lt_iff_toNat_lt,
      UInt64.toNat_ofNat_of_lt' (hint.trans_lt (by decide))] at hbig
    exact absurd hbig (Nat.not_lt.mpr hint)
  · rfl
  · rw [hle hint]
    simp
  · exact absurd (hgt (Nat.not_le.mp hint)) hbig

/-- The last element is read back if it is its integer. -/
theorem bytesLoop_last_elem (rounds : Nat) (before after : Gap) (h : n.value = b.toNat)
    (rest : Text) :
    bytesLoop (rounds + 1) (before.text ++ (n.text ++ (after.text ++ ']' :: rest))) = [b] ↔
      n.value = n.int := by
  have hstop : bytesLoop rounds (skipComma (n.tail ++ (after.text ++ ']' :: rest))) = [] := by
    rcases n.tail_cases with ⟨-, htail⟩ | ⟨-, c, t, htail, hc⟩
    · rw [htail, List.nil_append, bytesLoop_last]
    · rw [htail, List.cons_append, bytesLoop_tail rounds hc]
  have hint : n.value = n.int ↔ n.int = b.toNat := by
    rw [h, Nat.cast_inj, eq_comm]
  rw [bytesLoop_number rounds before h (after.not_isDigit rfl rest), hstop, hint]
  split_ifs with hle
  · rw [List.singleton_inj]
    constructor
    · rintro rfl
      exact (UInt8.toNat_ofNat_of_lt' (Nat.lt_succ_of_le hle)).symm
    · rintro heq
      rw [heq]
      exact UInt8.ofNat_toNat
  · have hbyte := b.toNat_lt
    constructor
    · rintro ⟨⟩
    · omega

/-- Any other element is read back, and the loop goes on behind it, if it is plain and its comma
is on its line. -/
theorem bytesLoop_elem (rounds : Nat) (before after : Gap) (h : n.value = b.toNat) (s : Text)
    (hdata : data ≠ []) :
    bytesLoop (rounds + 1) (before.text ++ (n.text ++ (after.text ++ ',' :: s))) = b :: data ↔
      n.IsPlain ∧ after.Inline ∧ bytesLoop rounds s = data := by
  rw [bytesLoop_number rounds before h (after.not_isDigit rfl s)]
  rcases n.tail_cases with ⟨hplain, htail⟩ | ⟨hplain, c, t, htail, hc⟩
  · have hint : n.int = b.toNat := by
      have hvalue := Number.value_eq_int h hplain
      rw [h, Nat.cast_inj] at hvalue
      exact hvalue.symm
    have hle : n.int ≤ 255 := hint ▸ Nat.le_of_lt_succ b.toNat_lt
    have hbyte : n.int.toUInt8 = b := by
      rw [hint]
      exact UInt8.ofNat_toNat
    obtain ⟨hskip, hstop⟩ := bytesLoop_comma rounds after s
    rw [if_pos hle, hbyte, htail, List.nil_append, List.cons.injEq]
    by_cases hline : after.Inline
    · rw [hskip hline]
      simp [hplain, hline]
    · rw [hstop hline]
      simp [hline, hdata.symm]
  · rw [htail, List.cons_append, bytesLoop_tail rounds hc]
    split_ifs
    · simp [hplain, hdata.symm]
    · simp [hplain]

/-- All elements are read back if they are legible. -/
theorem bytesLoop_elems (hbytes : List.Forall₂ (fun e b => e.value.IsByte b) elems data)
    (hne : elems ≠ []) (rounds : Nat) (hrounds : data.length ≤ rounds) (rest : Text) :
    bytesLoop rounds (elemsText elems ++ ']' :: rest) = data ↔ LegibleElems elems := by
  induction hbytes generalizing rounds with
  | nil => exact absurd rfl hne
  | @cons e b elems data hbyte hbytes ih =>
    obtain ⟨before, value, after⟩ := e
    obtain ⟨n, hvalue, hn⟩ := hbyte
    obtain rfl : value = .number n := hvalue
    obtain ⟨rounds, rfl⟩ : ∃ r, rounds = r + 1 := ⟨rounds - 1, by simp at hrounds; omega⟩
    cases hbytes with
    | nil =>
      have hlast := bytesLoop_last_elem rounds before after hn rest
      simp [elemsText, Json.text, LegibleElems, hlast]
    | @cons e' b' elems data hbyte' hbytes =>
      have hnext := ih (List.cons_ne_nil _ _) rounds (by simpa using hrounds)
      have helem := bytesLoop_elem rounds before after hn
        (elemsText (e' :: elems) ++ ']' :: rest) (List.cons_ne_nil b' data)
      have htext : elemsText (⟨before, .number n, after⟩ :: e' :: elems) ++ ']' :: rest =
          before.text ++ (n.text ++ (after.text ++
            ',' :: (elemsText (e' :: elems) ++ ']' :: rest))) := by
        rw [elemsText]
        simp [Json.text]
      have hlegible : LegibleElems (⟨before, .number n, after⟩ :: e' :: elems) ↔
          n.IsPlain ∧ after.Inline ∧ LegibleElems (e' :: elems) := by
        simp [LegibleElems]
      rw [htext, helem, hnext, hlegible]

/-- The character is written with its code point. -/
def StrChar.isUnicode : StrChar → Bool
  | .unicode _ _ _ => true
  | _ => false

/-- No character before the first padding is written with its code point. -/
def Unescaped : List StrChar → Prop
  | [] => True
  | c :: cs => c.text = ['='] ∨ c.isUnicode = false ∧ Unescaped cs

/-- Hexadecimal digits are characters of the alphabet. -/
theorem b64val_of_isHexDigit {c : Char} (h : isHexDigit c = true) : (b64val c).isSome = true := by
  have hrange : 'A' ≤ c ∧ c ≤ 'Z' ∨ 'a' ≤ c ∧ c ≤ 'z' ∨ '0' ≤ c ∧ c ≤ '9' := by
    simp only [isHexDigit, Bool.or_eq_true, Bool.and_eq_true, decide_eq_true_eq] at h
    rcases h with (h | h) | h
    · simp only [Char.isDigit, Bool.and_eq_true, decide_eq_true_eq] at h
      exact .inr (.inr h)
    · exact .inr (.inl ⟨h.1, h.2.trans (by decide)⟩)
    · exact .inl ⟨h.1, h.2.trans (by decide)⟩
  unfold b64val
  split_ifs with hupper hlower hdigit
  · rfl
  · rfl
  · rfl
  · rfl
  · rfl
  · tauto

/-- The ways to write a character of a valid text: as it is, a slash with an escape, or with its
code point in five other characters of the alphabet. -/
theorem StrChar.cases_of_base64 (c : StrChar) (h : (b64val c.char).isSome = true ∨ c.char = '=') :
    c.isUnicode = false ∧ c.text = [c.char] ∨
      c.isUnicode = false ∧ c.text = ['\\', '/'] ∧ c.char = '/' ∨
      c.isUnicode = true ∧ ∃ t, c.text = '\\' :: t ∧ t.length = 5 ∧
        ∀ d ∈ t, (b64val d).isSome = true := by
  cases c with
  | plain c hc => exact .inl ⟨rfl, rfl⟩
  | escape c hc =>
    have hchar : (b64val (escapeChar c)).isSome = true ∨ escapeChar c = '=' := h
    simp only [List.mem_cons, List.not_mem_nil, or_false] at hc
    rcases hc with rfl | rfl | rfl | rfl | rfl | rfl | rfl | rfl
    · exact absurd hchar (by decide)
    · exact absurd hchar (by decide)
    · exact .inr (.inl ⟨rfl, rfl, rfl⟩)
    · exact absurd hchar (by decide)
    · exact absurd hchar (by decide)
    · exact absurd hchar (by decide)
    · exact absurd hchar (by decide)
    · exact absurd hchar (by decide)
  | unicode digits hlen hhex =>
    refine .inr (.inr ⟨rfl, 'u' :: digits, rfl, by rw [List.length_cons, hlen], ?_⟩)
    exact List.forall_mem_cons.mpr ⟨rfl, fun d hd => b64val_of_isHexDigit (hhex d hd)⟩

/-- Characters of the alphabet are counted. -/
theorem sextets_append {t : Text} (ht : ∀ c ∈ t, (b64val c).isSome = true) (s : Text) :
    sextets (t ++ s) = t.length + sextets s := by
  induction t with
  | nil => simp
  | cons c t ih =>
    obtain ⟨hc, ht⟩ := List.forall_mem_cons.mp ht
    obtain ⟨v, hv⟩ := Option.isSome_iff_exists.mp hc
    rw [List.cons_append, sextets, if_neg (ne_pad_of_b64val hv), if_pos hc, ih ht,
      List.length_cons]
    omega

variable {cs : List StrChar}

/-- A valid text is written without a quotation mark. -/
theorem quote_not_mem_rawText (h : ∀ c ∈ stringValue cs, (b64val c).isSome = true ∨ c = '=') :
    '"' ∉ rawText cs := by
  have hquote : ¬ ((b64val '"').isSome = true ∨ '"' = '=') := by decide
  rw [rawText, List.mem_flatMap]
  rintro ⟨c, hc, hmem⟩
  have hvalid := h c.char (List.mem_map_of_mem hc)
  rcases c.cases_of_base64 hvalid with ⟨-, htext⟩ | ⟨-, htext, -⟩ | ⟨-, t, htext, -, ht⟩
  · rw [htext, List.mem_singleton] at hmem
    exact hquote (hmem ▸ hvalid)
  · rw [htext] at hmem
    exact absurd hmem (by decide)
  · rw [htext, List.mem_cons] at hmem
    rcases hmem with hmem | hmem
    · cases hmem
    · exact hquote (.inl (ht _ hmem))

/-- A backslash is skipped. -/
theorem decodeLoop_backslash (accum bits : UInt32) (s : Text) :
    decodeLoop accum bits ('\\' :: s) = decodeLoop accum bits s := by
  rw [decodeLoop, if_neg (by decide)]
  rfl

/-- Without code points the written text is decoded as what is meant. -/
theorem decodeLoop_rawText (h : ∀ c ∈ stringValue cs, (b64val c).isSome = true ∨ c = '=')
    (hplain : Unescaped cs) (accum bits : UInt32) :
    decodeLoop accum bits (rawText cs) = decodeLoop accum bits (stringValue cs) := by
  induction cs generalizing accum bits with
  | nil => rfl
  | cons c cs ih =>
    obtain ⟨hc, hcs⟩ := List.forall_mem_cons.mp h
    rw [rawText, List.flatMap_cons, stringValue, List.map_cons, ← rawText, ← stringValue]
    by_cases hpad : c.text = ['=']
    · have hchar : c.char = '=' := by
        rcases c.cases_of_base64 hc with ⟨-, htext⟩ | ⟨-, htext, -⟩ | ⟨-, t, htext, -, -⟩
        · exact (List.singleton_inj.mp (hpad.symm.trans htext)).symm
        · cases hpad.symm.trans htext
        · cases hpad.symm.trans htext
      rw [hpad, hchar, List.singleton_append, decodeLoop_pad, decodeLoop_pad]
    · obtain ⟨hunicode, hrest⟩ := hplain.resolve_left hpad
      have hread : decodeLoop accum bits (c.text ++ rawText cs) =
          decodeLoop accum bits (c.char :: rawText cs) := by
        rcases c.cases_of_base64 hc with ⟨-, htext⟩ | ⟨-, htext, hchar⟩ | ⟨hyes, -⟩
        · rw [htext, List.singleton_append]
        · rw [htext, hchar]
          exact decodeLoop_backslash _ _ _
        · exact absurd (hyes.symm.trans hunicode) (by simp)
      rw [hread, decodeLoop, decodeLoop]
      have hnext := fun accum bits => ih hcs hrest accum bits
      simp only [hnext]

/-- More characters of the alphabet are written than meant, if there are code points. -/
theorem sextets_rawText (h : ∀ c ∈ stringValue cs, (b64val c).isSome = true ∨ c = '=') :
    sextets (stringValue cs) ≤ sextets (rawText cs) ∧
      (¬ Unescaped cs → sextets (stringValue cs) + 4 ≤ sextets (rawText cs)) := by
  induction cs with
  | nil => exact ⟨Nat.le_refl _, fun hnot => absurd trivial hnot⟩
  | cons c cs ih =>
    obtain ⟨hc, hcs⟩ := List.forall_mem_cons.mp h
    obtain ⟨hle, hmore⟩ := ih hcs
    rw [rawText, List.flatMap_cons, stringValue, List.map_cons, ← rawText, ← stringValue, Unescaped]
    have hskip : ∀ s : Text, sextets ('\\' :: s) = sextets s := fun s => rfl
    rcases c.cases_of_base64 hc with
      ⟨hunicode, htext⟩ | ⟨hunicode, htext, hchar⟩ | ⟨hunicode, t, htext, hlen, ht⟩
    · rw [htext, List.singleton_append, sextets, sextets]
      by_cases hpad : c.char = '='
      · simp [hpad]
      · rw [if_neg hpad, if_neg hpad, if_pos (hc.resolve_right hpad),
          if_pos (hc.resolve_right hpad)]
        refine ⟨Nat.succ_le_succ hle, fun hnot => Nat.succ_le_succ (hmore fun hrest => ?_)⟩
        exact hnot (.inr ⟨hunicode, hrest⟩)
    · have hslash : ∀ s : Text, sextets ('/' :: s) = sextets s + 1 := fun s => rfl
      rw [htext, hchar, hslash, List.cons_append, hskip, List.singleton_append, hslash]
      refine ⟨Nat.succ_le_succ hle, fun hnot => Nat.succ_le_succ (hmore fun hrest => ?_)⟩
      exact hnot (.inr ⟨hunicode, hrest⟩)
    · have hfive : sextets (c.text ++ rawText cs) = 5 + sextets (rawText cs) := by
        rw [htext, List.cons_append, hskip, sextets_append ht, hlen]
      have hone : sextets (c.char :: stringValue cs) ≤ sextets (stringValue cs) + 1 := by
        rw [sextets]
        split_ifs <;> omega
      rw [hfive]
      exact ⟨by omega, fun _ => by omega⟩

/-- A valid text is decoded to what is meant if no code point gets in the way. -/
theorem base64Decode_rawText (h : Base64 (stringValue cs) data) :
    base64Decode (rawText cs) = data ↔ Unescaped cs := by
  have hvalid := h.alphabet_or_pad
  constructor
  · intro hread
    by_contra hnot
    -- every code point adds three bytes
    have hmore := (sextets_rawText hvalid).2 hnot
    have hraw := length_decodeLoop 0 (show (0 : UInt32).toNat < 8 by decide) (rawText cs)
    have hmeant := length_decodeLoop 0 (show (0 : UInt32).toNat < 8 by decide) (stringValue cs)
    rw [h.decodeLoop_eq] at hmeant
    rw [show decodeLoop 0 0 (rawText cs) = data from hread, hmeant] at hraw
    simp only [UInt32.toNat_zero] at hraw
    omega
  · intro hplain
    rw [base64Decode, decodeLoop_rawText hvalid hplain, h.decodeLoop_eq]

/-- The value can be read to its end. -/
def Json.Legible : Json → Prop
  | .array _ elems => LegibleElems elems
  | .string s => Unescaped s
  | _ => False

namespace DataDocument

variable (doc : DataDocument)

/-- The reader comes to the payload: its key is written plainly with the colon behind it, and it is
the first such text in the document. -/
structure Found : Prop where
  key : rawText doc.member.key = "data".toList
  colon : doc.member.beforeColon.text = []
  first : ∀ front rest, doc.text = front ++ (keyPattern "data".toList ++ rest) →
    doc.ahead.length ≤ front.length

/-- The frame takes over these bytes. Where the reader comes to the payload, it begins on the line
of its colon and can be read to its end, or it is empty. Elsewhere there is no other key to be
read and the payload is empty, or the text shows the same bytes behind another key. -/
def Reads (data : List UInt8) : Prop :=
  doc.Found ∧ (doc.member.beforeValue.Inline ∧ doc.member.value.Legible ∨
    ¬ doc.member.beforeValue.Inline ∧ data = []) ∨
  ¬ doc.Found ∧ (data = [] ∧
      (∀ front rest, doc.text ≠ front ++ (keyPattern "data".toList ++ rest)) ∨
    ∃ front rest, FirstAt (keyPattern "data".toList) doc.text front rest ∧
      Shows rest data)

/-- The payload is neither cut short nor misread: the reader throws, or the frame has the bytes
that are meant. -/
def Kept : Prop := ∀ f, parseFrameJson doc.text = .ok f → doc.member.value.Denotes f.data

end DataDocument

/-- A payload that begins on another line is not read. -/
theorem bytesBehind_of_not_inline {g : Gap} (h : ¬ g.Inline) (s : Text) :
    bytesBehind (g.text ++ s) = none := by
  obtain ⟨c, t, hskip, hc, -⟩ := skipBlanks_of_not_inline h s
  rw [bytesBehind, hskip]
  simp only [List.mem_cons, List.not_mem_nil, or_false] at hc
  rcases hc with rfl | rfl <;> rfl

/-- There are no more elements than characters. -/
theorem length_le_length_elemsText
    (hbytes : List.Forall₂ (fun e b => e.value.IsByte b) elems data) :
    data.length ≤ (elemsText elems).length := by
  induction hbytes with
  | nil => exact Nat.zero_le _
  | @cons e b elems data hbyte hbytes ih =>
    obtain ⟨before, value, after⟩ := e
    obtain ⟨n, hvalue, -⟩ := hbyte
    obtain rfl : value = .number n := hvalue
    have hpos : 0 < n.text.length := by
      have hdecimal : 0 < (decimal n.int).length := List.length_pos_of_ne_nil Nat.toDigits_ne_nil
      simp only [Number.text, List.length_append]
      omega
    rw [elemsText, Json.text]
    cases elems with
    | nil =>
      obtain rfl := List.forall₂_nil_left_iff.mp hbytes
      simp only [List.length_append, List.length_cons, List.length_nil]
      omega
    | cons e' elems =>
      rw [List.isEmpty_cons, if_neg Bool.false_ne_true]
      simp only [List.length_append, List.length_cons]
      omega

/-- A payload that begins on the line of its colon is read to its end if it is legible. -/
theorem bytesBehind_of_inline {g : Gap} (h : g.Inline) {v : Json} (hv : v.Denotes data)
    (rest : Text) : (bytesBehind (g.text ++ (v.text ++ rest))).getD [] = data ↔ v.Legible := by
  cases hv with
  | @array inner elems _ hbytes =>
    rw [Json.text, List.cons_append, List.append_assoc, List.singleton_append, bytesBehind,
      skipBlanks_of_inline h (by simp)]
    cases elems with
    | nil =>
      cases hbytes
      simp [bytesLoop_stop _ inner.white (.inr rfl), Json.Legible, LegibleElems]
    | cons e elems =>
      have hlen : data.length ≤ (elemsText (e :: elems) ++ ']' :: rest).length :=
        (length_le_length_elemsText hbytes).trans (by simp)
      have hread := bytesLoop_elems hbytes (List.cons_ne_nil e elems) _ hlen rest
      simpa [Json.Legible] using hread
  | @string s _ hbase =>
    have hquote := quote_not_mem_rawText hbase.alphabet_or_pad
    rw [Json.text, stringText, List.cons_append, List.append_assoc, List.singleton_append,
      bytesBehind, skipBlanks_of_inline h (by simp)]
    simp [cutAt_append _ hquote, base64Decode_rawText hbase, Json.Legible]

/-- The identifier decides whether the reader throws. -/
theorem parseFrameJson_cases (json : Text) :
    (extractU32 json "id".toList = none ∧ ∃ e, parseFrameJson json = .error e) ∨
      ∃ f, parseFrameJson json = .ok f ∧ f.data = (extractBytes json "data".toList).getD [] := by
  unfold parseFrameJson
  cases extractU32 json "id".toList with
  | none => exact .inl ⟨rfl, _, rfl⟩
  | some id => exact .inr ⟨_, rfl, rfl⟩

namespace DataDocument

variable (doc : DataDocument)

/-- What is searched for stands first before the payload. -/
theorem Found.firstAt {doc : DataDocument} (h : doc.Found) :
    ∃ rest, FirstAt (keyPattern "data".toList) doc.text doc.ahead
      (doc.member.beforeValue.text ++ (doc.member.value.text ++ rest)) := by
  obtain ⟨rest, htext⟩ := doc.text_eq
  refine ⟨rest, ?_, h.first⟩
  rw [htext, stringText, h.key, h.colon, keyPattern]
  simp

/-- Whether the bytes that are meant are read. -/
theorem extractBytes_eq_iff {data : List UInt8} (hv : doc.member.value.Denotes data) :
    (extractBytes doc.text "data".toList).getD [] = data ↔ doc.Reads data := by
  rw [extractBytes_eq, Reads]
  have hpattern : keyPattern "data".toList ≠ [] := List.cons_ne_nil _ _
  rcases findAfter_spec hpattern doc.text with ⟨front, rest, hfind, hfirst⟩ | ⟨hfind, hnone⟩
  · rw [hfind, Option.bind_some]
    by_cases hfound : doc.Found
    · obtain ⟨rest', hfirst'⟩ := hfound.firstAt
      obtain rfl := (hfirst.unique hfirst').2
      by_cases hline : doc.member.beforeValue.Inline
      · rw [bytesBehind_of_inline hline hv]
        simp [hfound, hline]
      · rw [bytesBehind_of_not_inline hline]
        simp [hfound, hline, eq_comm]
    · constructor
      · exact fun h => .inr ⟨hfound, .inr ⟨front, rest, hfirst, shows_iff.mpr h⟩⟩
      · rintro (⟨h, -⟩ | ⟨-, ⟨-, hnone⟩ | ⟨front', rest', hfirst', h⟩⟩)
        · exact absurd h hfound
        · exact absurd hfirst.1 (hnone front rest)
        · rw [(hfirst.unique hfirst').2]
          exact shows_iff.mp h
  · have hfound : ¬ doc.Found := by
      intro h
      obtain ⟨rest, hfirst⟩ := h.firstAt
      exact hnone _ _ hfirst.1
    rw [hfind, Option.bind_none, Option.getD_none]
    constructor
    · rintro rfl
      exact .inr ⟨hfound, .inl ⟨rfl, hnone⟩⟩
    · rintro (⟨h, -⟩ | ⟨-, ⟨rfl, -⟩ | ⟨front, rest, hfirst, -⟩⟩)
      · exact absurd h hfound
      · rfl
      · exact absurd hfirst.1 (hnone front rest)

/-- The payload is kept exactly if there is no identifier to be read, so that the reader throws, or
the payload is made of bytes and the reader gets to its end. -/
theorem kept_iff : doc.Kept ↔ ¬ HasId doc.text ∨
    ∃ data, doc.member.value.Denotes data ∧ doc.Reads data := by
  rw [← extractU32_id_isSome, Bool.not_eq_true, Option.isSome_eq_false_iff,
    Option.isNone_iff_eq_none]
  rcases parseFrameJson_cases doc.text with ⟨hid, e, herror⟩ | ⟨f, hok, hdata⟩
  · refine ⟨fun _ => .inl hid, fun _ f hok => ?_⟩
    cases herror.symm.trans hok
  · constructor
    · intro h
      have hv := h f hok
      exact .inr ⟨f.data, hv, (doc.extractBytes_eq_iff hv).mp hdata.symm⟩
    · rintro (hid | ⟨data, hv, hreads⟩) f' hok'
      · have hsome := ((Document.parseFrameJson_eq_ok _ _).mp hok).1
        cases hid.symm.trans hsome
      · obtain rfl := Except.ok.inj (hok.symm.trans hok')
        rwa [hdata, (doc.extractBytes_eq_iff hv).mpr hreads]

/-- An element that is no byte between two that are. -/
def overflow : DataDocument where
  lead := .none
  front := [⟨.none, [.plain 'i' (by decide), .plain 'd' (by decide)], .none, .none,
    .number { int := 1 }, .none⟩]
  member := ⟨.none, [.plain 'd' (by decide), .plain 'a' (by decide), .plain 't' (by decide),
      .plain 'a' (by decide)], .none, .none,
    .array .none [⟨.none, .number { int := 1 }, .none⟩, ⟨.none, .number { int := 300 }, .none⟩,
      ⟨.none, .number { int := 2 }, .none⟩], .none⟩
  back := []
  trail := .none
  key_eq := rfl
  key_ne := by
    intro m hm
    obtain rfl := List.mem_singleton.mp hm
    decide
  form := .inl ⟨_, _, rfl⟩

/-- The frame has the first of three elements. -/
theorem not_kept_overflow :
    overflow.text = "\x7b\"id\":1,\"data\":[1,300,2]\x7d".toList ∧
      parseFrameJson overflow.text = .ok { id := 1, data := [1] } ∧
      ¬ ∀ doc : DataDocument, doc.Kept := by
  have hok : parseFrameJson overflow.text = .ok { id := 1, data := [1] } := rfl
  refine ⟨by decide, hok, fun h => ?_⟩
  have hdenotes := h overflow _ hok
  cases hdenotes with
  | array hbytes => cases (List.forall₂_cons.mp hbytes).2

end DataDocument

end CppCan.Cli
