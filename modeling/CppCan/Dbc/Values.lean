import CppCan.Dbc.Errors

/-!
# Reading back a value table

A `VAL_` line is split at blanks, but not within quotation marks, and the tokens behind the
name of the signal are taken in pairs. A label may therefore hold blanks and semicolons, and
may be empty, without moving the labels behind it.
-/

namespace CppCan.Dbc

open CppCan.Core

variable {s t rest name label : Text} {entries : List (Int64 × Text)}

/-- An entry of a value table: a blank, the value, a blank and the label in quotation marks. -/
def entryText (entry : Int64 × Text) : Text :=
  ' ' :: (decimalInt entry.1.toInt ++ ' ' :: '"' :: (entry.2 ++ ['"']))

/-- A `VAL_` line without its end. -/
def valBody (id : UInt32) (name : Text) (entries : List (Int64 × Text)) : Text :=
  "VAL_".toList ++ ' ' :: (decimal id.toNat ++ ' ' :: (name ++ entries.flatMap entryText))

/-- A `VAL_` line with a semicolon at its end, behind a blank or not. -/
def valLine (id : UInt32) (name : Text) (entries : List (Int64 × Text)) (blank : Bool) : Text :=
  valBody id name entries ++ if blank then [' ', ';'] else [';']

/-- The values with the entries of a table, of which the later ones win. -/
def addEntries (values : Finmap fun _ : Int64 => Text) (entries : List (Int64 × Text)) :
    Finmap fun _ : Int64 => Text :=
  entries.foldl (fun values entry => values.insert entry.1 entry.2) values

/-- A blank before a token is passed over. -/
theorem tokeniseLoop_blank (rounds : Nat) (s : Text) :
    tokeniseLoop rounds (' ' :: s) = tokeniseLoop rounds s := by
  cases rounds with
  | zero => rfl
  | succ rounds =>
    rw [tokeniseLoop, tokeniseLoop, List.dropWhile_cons_of_pos (by decide)]

/-- A word is a token if it does not begin with a quotation mark. -/
theorem tokeniseLoop_word (rounds : Nat) (ht : IsWord t) (hquote : '"' ∉ t)
    (hrest : ∀ c ∈ rest.head?, c = ' ') :
    tokeniseLoop (rounds + 1) (t ++ rest) = t :: tokeniseLoop rounds rest := by
  have hplain : ∀ c ∈ t, (c ≠ ' ' && c ≠ '\t') = true := by
    intro c hc
    have hspace := ht.plain c hc
    simp only [isSpace, List.mem_cons, decide_eq_false_iff_not, not_or] at hspace
    simp [hspace.1, hspace.2.1]
  have hblank : ∀ c ∈ rest.head?, (c ≠ ' ' && c ≠ '\t') = false := by
    intro c hc
    rw [hrest c hc]
    rfl
  have htake : (t ++ rest).takeWhile (fun c => c ≠ ' ' && c ≠ '\t') = t :=
    takeWhile_append_of_head hplain hblank
  have hdrop : (t ++ rest).dropWhile (fun c => c ≠ ' ' && c ≠ '\t') = rest := by
    have hsplit : (t ++ rest).takeWhile (fun c => c ≠ ' ' && c ≠ '\t') ++
        (t ++ rest).dropWhile (fun c => c ≠ ' ' && c ≠ '\t') = t ++ rest :=
      List.takeWhile_append_dropWhile
    rw [htake] at hsplit
    exact List.append_cancel_left hsplit
  obtain ⟨c, cs, rfl⟩ := List.exists_cons_of_ne_nil ht.ne_nil
  have hc := hplain c List.mem_cons_self
  have hfirst : ((c :: cs) ++ rest).dropWhile (fun c => c = ' ' || c = '\t') = c :: cs ++ rest :=
    List.dropWhile_cons_of_neg (by simpa using hc)
  rw [tokeniseLoop, hfirst]
  split
  · rename_i h
    cases h
  · rename_i h
    cases h
    exact absurd List.mem_cons_self hquote
  · rw [htake, hdrop]

/-- A text in quotation marks is a token. -/
theorem tokeniseLoop_quoted (rounds : Nat) (hlabel : '"' ∉ label) (rest : Text) :
    tokeniseLoop (rounds + 1) ('"' :: (label ++ '"' :: rest)) =
      label :: tokeniseLoop rounds rest := by
  have hplain : ∀ c ∈ label, decide (c ≠ '"') = true := fun c hc =>
    decide_eq_true fun h => hlabel (h ▸ hc)
  have htake : (label ++ '"' :: rest).takeWhile (· ≠ '"') = label :=
    takeWhile_append_of_head hplain (by rintro c hc; cases hc; rfl)
  have hdrop : (label ++ '"' :: rest).dropWhile (· ≠ '"') = '"' :: rest := by
    rw [List.dropWhile_append_of_pos hplain]
    exact List.dropWhile_cons_of_neg (by simp)
  have hfirst : ('"' :: (label ++ '"' :: rest)).dropWhile (fun c => c = ' ' || c = '\t') =
      '"' :: (label ++ '"' :: rest) := List.dropWhile_cons_of_neg (by decide)
  rw [tokeniseLoop, hfirst]
  change (label ++ '"' :: rest).takeWhile (· ≠ '"') ::
    tokeniseLoop rounds (((label ++ '"' :: rest).dropWhile (· ≠ '"')).drop 1) = _
  rw [htake, hdrop, List.drop_one, List.tail_cons]

/-- The tokens of an entry. -/
def entryTokens (entry : Int64 × Text) : List Text := [decimalInt entry.1.toInt, entry.2]

/-- Behind a name there is a blank or nothing. -/
theorem head_entries (entries : List (Int64 × Text)) :
    ∀ c ∈ (entries.flatMap entryText).head?, c = ' ' := by
  cases entries with
  | nil => simp
  | cons e entries =>
    rintro c hc
    cases hc
    rfl

theorem tokeniseLoop_entries (hlabels : ∀ e ∈ entries, '"' ∉ e.2) (rounds : Nat) :
    tokeniseLoop (rounds + 2 * entries.length) (entries.flatMap entryText) =
      entries.flatMap entryTokens := by
  induction entries with
  | nil => cases rounds <;> rfl
  | cons e entries ih =>
    obtain ⟨hlabel, hlabels⟩ := List.forall_mem_cons.mp hlabels
    have hraw : '"' ∉ decimalInt e.1.toInt := not_mem_decimalInt (by decide) (by decide)
    have htext : (e :: entries).flatMap entryText = ' ' :: (decimalInt e.1.toInt ++
        (' ' :: ('"' :: (e.2 ++ '"' :: entries.flatMap entryText)))) := by
      simp [entryText]
    have hcount : rounds + 2 * (e :: entries).length = rounds + 2 * entries.length + 1 + 1 := by
      rw [List.length_cons]
      omega
    rw [htext, hcount, tokeniseLoop_blank, tokeniseLoop_word _ (isWord_decimalInt _) hraw
      (by rintro c hc; cases hc; rfl), tokeniseLoop_blank, tokeniseLoop_quoted _ hlabel,
      ih hlabels, List.flatMap_cons]
    rfl

theorem length_entries (entries : List (Int64 × Text)) :
    2 * entries.length ≤ (entries.flatMap entryText).length := by
  induction entries with
  | nil => exact le_rfl
  | cons e entries ih =>
    simp only [List.flatMap_cons, List.length_cons, List.length_append, entryText]
    omega

theorem isWord_decimal (n : Nat) : IsWord (decimal n) := isWord_decimalInt (n : Int)

/-- The tokens of a line that is not yet terminated. -/
theorem tokeniseVal_valBody (id : UInt32) (hname : IsWord name) (hquote : '"' ∉ name)
    (hlabels : ∀ e ∈ entries, '"' ∉ e.2) :
    tokeniseVal (valBody id name entries) =
      "VAL_".toList :: decimal id.toNat :: name :: entries.flatMap entryTokens := by
  have hkeyword : IsWord "VAL_".toList := isWord_of_all (by decide)
  have hid : '"' ∉ decimal id.toNat :=
    not_mem_decimalInt (z := (id.toNat : Int)) (by decide) (by decide)
  have hblank : ∀ s : Text, ∀ c ∈ (' ' :: s).head?, c = ' ' := by
    rintro s c hc
    cases hc
    rfl
  -- there are at least as many rounds as tokens
  obtain ⟨rounds, hrounds⟩ : ∃ rounds, (valBody id name entries).length =
      rounds + 2 * entries.length + 1 + 1 + 1 := by
    have hlen := length_entries entries
    refine ⟨(valBody id name entries).length - 2 * entries.length - 3, ?_⟩
    have hbody : (valBody id name entries).length = 4 + (1 + ((decimal id.toNat).length +
        (1 + (name.length + (entries.flatMap entryText).length)))) := by
      simp [valBody]
      omega
    omega
  rw [tokeniseVal, hrounds, valBody, tokeniseLoop_word _ hkeyword (by decide) (hblank _),
    tokeniseLoop_blank, tokeniseLoop_word _ (isWord_decimal _) hid (hblank _), tokeniseLoop_blank,
    tokeniseLoop_word _ hname hquote (head_entries entries), tokeniseLoop_entries hlabels]

/-- A line ends with the name of the signal or with a quotation mark. -/
theorem trim_valBody (id : UInt32) (hname : IsWord name) (entries : List (Int64 × Text)) :
    trim (valBody id name entries) = valBody id name entries := by
  have hhead : ∀ c ∈ (valBody id name entries).head?, isSpace c = false := by
    rintro c hc
    cases hc
    rfl
  cases entries using List.reverseRecOn with
  | nil =>
    refine trim_of_suffix hhead hname ⟨"VAL_".toList ++ ' ' :: (decimal id.toNat ++ [' ']), ?_⟩
    simp [valBody]
  | append_singleton entries e =>
    have hmark : IsWord ['"'] := isWord_of_all (by decide)
    refine trim_of_suffix hhead hmark ⟨valBody id name entries ++ ' ' ::
      (decimalInt e.1.toInt ++ ' ' :: '"' :: e.2), ?_⟩
    simp [valBody, entryText]

/-- The tokens of a line with either end. -/
theorem valTokens_valLine (id : UInt32) (hname : IsWord name) (hquote : '"' ∉ name)
    (hlabels : ∀ e ∈ entries, '"' ∉ e.2) (blank : Bool) :
    valTokens (valLine id name entries blank) =
      "VAL_".toList :: decimal id.toNat :: name :: entries.flatMap entryTokens := by
  have htrim : trim (valBody id name entries ++ if blank then [' '] else []) =
      valBody id name entries := by
    cases blank with
    | false =>
      rw [if_neg Bool.false_ne_true, List.append_nil, trim_valBody id hname entries]
    | true => rw [if_pos rfl, trim_append_blank, trim_valBody id hname entries]
  have hline : valLine id name entries blank =
      (valBody id name entries ++ if blank then [' '] else []) ++ [';'] := by
    cases blank <;> simp [valLine]
  rw [valTokens, hline, List.getLast?_concat, if_pos rfl, List.dropLast_concat, htrim,
    tokeniseVal_valBody id hname hquote hlabels]

/-- The pairs of tokens are the entries. -/
theorem readValues_entries (values : Finmap fun _ : Int64 => Text)
    (entries : List (Int64 × Text)) :
    readValues values (entries.flatMap entryTokens) = .ok (addEntries values entries) := by
  induction entries generalizing values with
  | nil => rfl
  | cons e entries ih =>
    have hraw : convert (stoll (decimalInt e.1.toInt)) = .ok e.1 := by
      rw [stoll_decimalInt]
      rfl
    rw [List.flatMap_cons, entryTokens, List.cons_append, List.singleton_append, readValues, hraw]
    exact ih (values.insert e.1 e.2)

theorem convert_id (id : UInt32) :
    convert (stoullOrThrow (decimal id.toNat)) = .ok (UInt64.ofNat id.toNat) := by
  have hlt : id.toNat < 2 ^ 64 := id.toNat_lt.trans (by decide)
  have hread := strtoull_decimal [] hlt (by simp)
  rw [List.append_nil] at hread
  rw [stoullOrThrow_eq_ok_iff.mpr ⟨[], hread⟩]
  rfl

/-- A line with a table adds its entries to the values of the signal that it names, and
changes nothing else. If there is no such signal, nothing changes. -/
theorem parseValLine_valLine (db : DB) (id : UInt32) (name : Text) (entries : List (Int64 × Text))
    (blank : Bool) (hname : IsWord name) (hquote : '"' ∉ name)
    (hlabels : ∀ e ∈ entries, '"' ∉ e.2) :
    (∀ msg sig, db.messages.lookup id = some msg → msg.signals.lookup name = some sig →
      parseValLine db (valLine id name entries blank) =
        .ok ⟨db.messages.insert id { msg with
          signals := msg.signals.insert name
            { sig with values := addEntries sig.values entries } }⟩) ∧
    (db.findSignal id name = none →
      parseValLine db (valLine id name entries blank) = .ok db) := by
  have hid : (UInt64.ofNat id.toNat).toUInt32 = id := by
    apply UInt32.toNat_inj.mp
    have hlt := id.toNat_lt
    rw [UInt64.toNat_toUInt32, UInt64.toNat_ofNat', Nat.mod_eq_of_lt (a := id.toNat) (by omega),
      Nat.mod_eq_of_lt hlt]
  have hparse : parseValLine db (valLine id name entries blank) =
      db.addValues id name (entries.flatMap entryTokens) := by
    rw [parseValLine, valTokens_valLine id hname hquote hlabels blank]
    dsimp only
    rw [convert_id, ok_bind, hid]
  rw [hparse]
  constructor
  · intro msg sig hmsg hsig
    rw [DB.addValues, hmsg]
    dsimp only
    rw [hsig]
    dsimp only
    rw [readValues_entries, ok_bind]
  · intro hnone
    rw [DB.findSignal] at hnone
    rw [DB.addValues]
    cases hmsg : db.messages.lookup id with
    | none => rfl
    | some msg =>
      rw [hmsg] at hnone
      dsimp only
      rw [show msg.signals.lookup name = none from hnone]

/-- The gear that a gearbox is in. -/
def gear : Signal where
  name := "Gear".toList
  startBit := 0
  length := 4
  byteOrder := .littleEndian
  isSigned := true
  factor := .one
  offset := .zero
  min := .zero
  max := .zero
  unit := []
  receivers := []
  values := ∅

def gearbox : Message where
  id := 768
  name := "Gearbox".toList
  dlc := 8
  sender := "ECU".toList
  signals := .singleton "Gear".toList gear

/-- Labels with a blank and a semicolon, and one that is empty, do not move the next one. -/
theorem parseValLine_valLine_gear :
    parseValLine ⟨.singleton 768 gearbox⟩
        "VAL_ 768 Gear -1 \"R ; back\" 0 \"\" 1 \"First\";".toList =
      .ok ⟨(Finmap.singleton 768 gearbox).insert 768 { gearbox with
        signals := gearbox.signals.insert "Gear".toList { gear with
          values := addEntries gear.values
            [(-1, "R ; back".toList), (0, []), (1, "First".toList)] } }⟩ :=
  (parseValLine_valLine ⟨.singleton 768 gearbox⟩ 768 "Gear".toList
    [(-1, "R ; back".toList), (0, []), (1, "First".toList)] false (isWord_of_all (by decide))
    (by decide) (by decide)).1 gearbox gear (Finmap.lookup_singleton_eq ..)
    (Finmap.lookup_singleton_eq ..)

end CppCan.Dbc
