import CppCan.Can.Message
import CppCan.Cli.Json

/-!
# Reading back what was written

A written message is a sequence of chunks between quotation marks. As long as its
texts hold no quotation marks themselves, the first chunk that looks like a key
is that key, and every field is read back.
-/

namespace CppCan.Cli

open CppCan.Core CppCan.Relay

/-- The chunks of the written entries, with the end of the text. -/
def entryChunks : List Entry → List Text
  | [] => []
  | [e] => [e.1, [':'], e.2, "\x7d\x7d".toList]
  | e :: es => e.1 :: [':'] :: e.2 :: [','] :: entryChunks es

/-- What follows the last field before the metadata: the end of a chunk and more chunks. -/
def metaChunks (m : Meta) : Text × List Text :=
  if m.entries.isEmpty then ("\x7d".toList, [])
  else ([','], "meta".toList :: ":\x7b".toList :: entryChunks (sortedEntries m))

/-- The chunks from the end of the timestamp on. -/
def tailChunks (m : Message) : List Text :=
  if m.seq ≠ 0 then
    [','] :: "seq".toList :: (':' :: (decimal m.seq.toNat ++ (metaChunks m.metadata).1)) ::
      (metaChunks m.metadata).2
  else (metaChunks m.metadata).1 :: (metaChunks m.metadata).2

/-- The chunks of a written message. -/
def jsonChunks (m : Message) : List Text :=
  "protocol".toList :: (':' :: (decimalInt m.protocol.value.toInt ++ [','])) ::
  "version".toList :: ":\x7b".toList ::
  "major".toList :: (':' :: (decimalInt m.version.major.toInt ++ [','])) ::
  "minor".toList :: (':' :: (decimalInt m.version.minor.toInt ++ [','])) ::
  "patch".toList :: (':' :: (decimalInt m.version.patch.toInt ++ "\x7d,".toList)) ::
  "id".toList :: [':'] :: m.id :: [','] ::
  "payload".toList :: [':'] :: base64Encode m.payload :: [','] ::
  "timestamp".toList :: [':'] :: "1970-01-01T00:00:00Z".toList :: tailChunks m

/-- The entries hold no quotation marks. -/
def PlainEntries (es : List Entry) : Prop := ∀ e ∈ es, '"' ∉ e.1 ∧ '"' ∉ e.2

/-- The texts of the message hold no quotation marks. -/
structure PlainTexts (m : Message) : Prop where
  id : '"' ∉ m.id
  entries : PlainEntries m.metadata.entries

variable {m : Message} {key : Text}

/-- The entries are written as their chunks. -/
theorem entriesText_eq {es : List Entry} (h : es ≠ []) :
    entriesText es ++ "\x7d\x7d".toList = quotedChunks (entryChunks es) := by
  induction es with
  | nil => exact absurd rfl h
  | cons e es ih =>
    cases es with
    | nil => simp [entriesText, entryText, entryChunks, quotedChunks]
    | cons e' es =>
      have ih := ih (by simp)
      simp only [entriesText, entryChunks, quotedChunks, entryText, List.append_assoc] at ih ⊢
      rw [← ih]
      simp

/-- Sorting neither adds nor removes entries. -/
theorem sortedEntries_perm (m : Meta) : (sortedEntries m).Perm m.entries :=
  List.perm_insertionSort _ _

/-- The metadata are written as their chunks. -/
theorem metaText_eq (m : Meta) :
    (if m.entries.isEmpty then []
      else ",\"meta\":\x7b".toList ++ entriesText (sortedEntries m) ++ "\x7d".toList) ++
      "\x7d".toList = (metaChunks m).1 ++ quotedChunks (metaChunks m).2 := by
  by_cases h : m.entries.isEmpty = true
  · simp [metaChunks, h, quotedChunks]
  · have hne : sortedEntries m ≠ [] := fun hnil =>
      h (List.isEmpty_iff.mpr (List.nil_perm.mp (hnil ▸ sortedEntries_perm m)))
    rw [metaChunks, if_neg h, if_neg h]
    simp only [quotedChunks]
    rw [← entriesText_eq hne]
    simp

/-- A message is written as its chunks. -/
theorem messageToJson_eq (m : Message) :
    messageToJson m = '\x7b' :: quotedChunks (jsonChunks m) := by
  unfold messageToJson
  rw [List.append_assoc]
  rw [metaText_eq m.metadata]
  by_cases hseq : m.seq = 0
  · simp [jsonChunks, tailChunks, quotedChunks, hseq]
  · simp [jsonChunks, tailChunks, quotedChunks, hseq]

/-- A numeral holds no quotation mark. -/
theorem quote_not_mem_decimal (n : Nat) : '"' ∉ decimal n := by
  intro hmem
  have hdigit : '"'.isDigit = true := Nat.isDigit_of_mem_toDigits (by omega) (by omega) hmem
  exact absurd hdigit (by decide)

/-- A numeral with a sign holds no quotation mark. -/
theorem quote_not_mem_decimalInt (i : Int) : '"' ∉ decimalInt i := by
  cases i with
  | ofNat n => exact quote_not_mem_decimal n
  | negSucc n =>
    rw [decimalInt, List.mem_cons, not_or]
    exact ⟨by decide, quote_not_mem_decimal _⟩

/-- The chunks of plain entries are plain. -/
theorem plain_entryChunks {es : List Entry} (h : PlainEntries es) :
    ∀ t ∈ entryChunks es, '"' ∉ t := by
  induction es with
  | nil => simp [entryChunks]
  | cons e es ih =>
    obtain ⟨⟨hk, hv⟩, hes⟩ := List.forall_mem_cons.mp h
    cases es with
    | nil => simp [entryChunks, hk, hv]
    | cons e' es =>
      have ih := ih hes
      simp only [entryChunks, List.forall_mem_cons]
      exact ⟨hk, by simp, hv, by simp, ih⟩

/-- The chunks of a message with plain texts are plain. -/
theorem plain_jsonChunks (h : PlainTexts m) : ∀ t ∈ jsonChunks m, '"' ∉ t := by
  have hmeta : '"' ∉ (metaChunks m.metadata).1 ∧ ∀ t ∈ (metaChunks m.metadata).2, '"' ∉ t := by
    by_cases he : m.metadata.entries.isEmpty = true
    · simp [metaChunks, he]
    · rw [metaChunks, if_neg he]
      refine ⟨by simp, ?_⟩
      simp only [List.forall_mem_cons]
      refine ⟨by simp, by simp, plain_entryChunks fun e he => ?_⟩
      exact h.entries e ((sortedEntries_perm _).mem_iff.mp he)
  have htail : ∀ t ∈ tailChunks m, '"' ∉ t := by
    by_cases hseq : m.seq = 0
    · simp only [tailChunks, hseq, ne_eq, not_true_eq_false, if_false, List.forall_mem_cons]
      exact hmeta
    · simp only [tailChunks, hseq, ne_eq, not_false_eq_true, if_true, List.forall_mem_cons]
      refine ⟨by simp, by simp, ?_, hmeta.2⟩
      simp [quote_not_mem_decimal, hmeta.1]
  simp only [jsonChunks, List.forall_mem_cons]
  refine ⟨?_, ?_, ?_, ?_, ?_, ?_, ?_, ?_, ?_, ?_, ?_, ?_, h.id, ?_, ?_, ?_,
    quote_not_mem_base64Encode m.payload, ?_, ?_, ?_, ?_, htail⟩
  all_goals simp [quote_not_mem_decimalInt]

/-- Searching a written message for a key is searching its chunks. -/
theorem valueOf_messageToJson (h : PlainTexts m) (key : Text) (hkey : '"' ∉ key) :
    valueOf (messageToJson m) key = (findKey key (jsonChunks m)).map skipBlanks := by
  have hbrace : '"' ∉ ['\x7b'] := by simp
  have hplain := findAfter_plain key hbrace (quotedChunks (jsonChunks m))
  rw [List.singleton_append] at hplain
  rw [valueOf, messageToJson_eq, hplain, findAfter_quotedChunks hkey (plain_jsonChunks h)]

/-- Where the protocol is found. -/
theorem findKey_protocol (m : Message) : ∃ rest, findKey "protocol".toList (jsonChunks m) =
    some (decimalInt m.protocol.value.toInt ++ ',' :: rest) :=
  ⟨_, by simp [jsonChunks, findKey]; rfl⟩

/-- Where the identifier is found. -/
theorem findKey_id (m : Message) : ∃ ts, findKey "id".toList (jsonChunks m) =
    some (quotedChunks (m.id :: [','] :: ts)) :=
  ⟨_, by simp [jsonChunks, findKey]; rfl⟩

/-- Where the payload is found. -/
theorem findKey_payload (m : Message) : ∃ ts, findKey "payload".toList (jsonChunks m) =
    some (quotedChunks (base64Encode m.payload :: [','] :: ts)) :=
  ⟨_, by simp [jsonChunks, findKey]; rfl⟩

/-- What is found behind a key of the metadata is a text, not a number. -/
theorem findKey_entryChunks (hcolon : key ≠ [':']) (hcomma : key ≠ [',']) (es : List Entry) :
    ∀ v ∈ findKey key (entryChunks es), v.head? = some '"' := by
  induction es with
  | nil => simp [entryChunks, findKey]
  | cons e es ih =>
    cases es with
    | nil =>
      by_cases hkey : e.1 = key
      · simp [entryChunks, findKey, hkey, quotedChunks]
      · simp [entryChunks, findKey, hkey, hcolon.symm]
    | cons e' es =>
      by_cases hkey : e.1 = key
      · simp [entryChunks, findKey, hkey, quotedChunks]
      · have hvalue : findKey key (entryChunks (e :: e' :: es)) =
            findKey key ([','] :: entryChunks (e' :: es)) := by
          simp [entryChunks, findKey, hkey, hcolon.symm]
        rw [hvalue, findKey_cons_of_ne hcomma.symm]
        exact ih

/-- Without a sequence number nothing that looks like one is found. -/
theorem findKey_seq_of_zero (hseq : m.seq = 0) :
    ∀ v ∈ findKey "seq".toList (jsonChunks m), v.head? = some '"' := by
  have htail : findKey "seq".toList (jsonChunks m) =
      findKey "seq".toList (metaChunks m.metadata).2 := by
    by_cases he : m.metadata.entries.isEmpty = true
    · simp [jsonChunks, findKey, tailChunks, hseq, metaChunks, he]
    · simp [jsonChunks, findKey, tailChunks, hseq, metaChunks, he]
  rw [htail]
  by_cases he : m.metadata.entries.isEmpty = true
  · simp [metaChunks, he, findKey]
  · rw [metaChunks, if_neg he]
    rw [findKey_cons_of_ne (by simp), findKey_cons_of_ne (by simp)]
    exact findKey_entryChunks (by simp) (by simp) _

/-- Where the sequence number is found. -/
theorem findKey_seq (hseq : m.seq ≠ 0) : ∃ rest : Text, (∀ c ∈ rest.head?, c.isDigit = false) ∧
    findKey "seq".toList (jsonChunks m) = some (decimal m.seq.toNat ++ rest) := by
  refine ⟨(metaChunks m.metadata).1 ++ quotedChunks (metaChunks m.metadata).2, ?_, ?_⟩
  · by_cases he : m.metadata.entries.isEmpty = true
    · simp [metaChunks, he]
    · simp [metaChunks, he]
  · simp [jsonChunks, findKey, tailChunks, hseq]

/-- Where the metadata are found. -/
theorem findKey_meta (hmeta : m.metadata.entries.isEmpty = false) :
    findKey "meta".toList (jsonChunks m) =
      some ('\x7b' :: quotedChunks (entryChunks (sortedEntries m.metadata))) := by
  by_cases hseq : m.seq = 0
  · simp [jsonChunks, findKey, tailChunks, hseq, metaChunks, hmeta]
  · simp [jsonChunks, findKey, tailChunks, hseq, metaChunks, hmeta]

/-- Without metadata nothing that looks like them is found. -/
theorem findKey_meta_of_empty (hmeta : m.metadata.entries.isEmpty = true) :
    findKey "meta".toList (jsonChunks m) = none := by
  by_cases hseq : m.seq = 0
  · simp [jsonChunks, findKey, tailChunks, hseq, metaChunks, hmeta]
  · simp [jsonChunks, findKey, tailChunks, hseq, metaChunks, hmeta]

/-- Blanks before a quotation mark only. -/
theorem skipBlanks_quote (s : Text) : skipBlanks ('"' :: s) = '"' :: s := by
  simp [skipBlanks]

/-- A numeral is read where it begins. -/
theorem skipBlanks_decimal (n : Nat) (s : Text) : skipBlanks (decimal n ++ s) = decimal n ++ s := by
  obtain ⟨c, cs, hcs, hdigits⟩ := decimal_eq_cons n
  have hspace := not_isSpace_of_isDigit (hdigits c List.mem_cons_self)
  have hblank : decide (c ∈ [' ', '\t']) = false := by
    simp only [isSpace, decide_eq_false_iff_not] at hspace ⊢
    exact fun hc => hspace (by simp_all)
  rw [hcs, List.cons_append, skipBlanks, List.dropWhile_cons, hblank]
  rfl

/-- The identifier is read back. -/
theorem extractString_id (h : PlainTexts m) :
    extractString (messageToJson m) "id".toList = some m.id := by
  obtain ⟨ts, hfind⟩ := findKey_id m
  have hvalue := valueOf_messageToJson h "id".toList (by simp)
  rw [hfind] at hvalue
  simp only [extractString, hvalue, Option.map_some, quotedChunks, skipBlanks_quote]
  simp [cutAt_append _ h.id]

/-- The payload is read back. -/
theorem extractBytes_payload (h : PlainTexts m) :
    extractBytes (messageToJson m) "payload".toList = some m.payload := by
  obtain ⟨ts, hfind⟩ := findKey_payload m
  have hvalue := valueOf_messageToJson h "payload".toList (by simp)
  rw [hfind] at hvalue
  simp only [extractBytes, hvalue, Option.map_some, quotedChunks, skipBlanks_quote]
  simp [cutAt_append _ (quote_not_mem_base64Encode m.payload), base64Decode,
    decodeLoop_base64Encode]

/-- The protocol is read back if its number is not negative. -/
theorem extractU32_protocol (h : PlainTexts m) {n : Nat} (hn : m.protocol.value.toInt = n)
    (hlt : n < 2 ^ 31) :
    extractU32 (messageToJson m) "protocol".toList = some (UInt32.ofNat n) := by
  obtain ⟨rest, hfind⟩ := findKey_protocol m
  have hvalue := valueOf_messageToJson h "protocol".toList (by simp)
  have hread := strtoull_decimal (n := n) (',' :: rest) (by omega) (by simp)
  have hle : ¬ UInt64.ofNat n > 0xFFFFFFFF := by
    rw [gt_iff_lt, UInt64.not_lt, UInt64.le_iff_toNat_le,
      UInt64.toNat_ofNat_of_lt' (Nat.lt_trans hlt (by decide))]
    exact Nat.le_trans (Nat.le_of_lt hlt) (by decide)
  rw [hfind, hn] at hvalue
  simp only [extractU32, hvalue, decimalInt, Option.map_some, skipBlanks_decimal]
  simp [hread, hle]

/-- The sequence number is read back; zero is not written. -/
theorem extractU64_seq (h : PlainTexts m) :
    (extractU64 (messageToJson m) "seq".toList).getD 0 = m.seq := by
  have hvalue := valueOf_messageToJson h "seq".toList (by simp)
  by_cases hseq : m.seq = 0
  · rw [extractU64, hvalue, hseq]
    cases hfind : findKey "seq".toList (jsonChunks m) with
    | none => rfl
    | some v =>
      obtain ⟨v, rfl⟩ := List.head?_eq_some_iff.mp (findKey_seq_of_zero hseq v hfind)
      rw [Option.map_some, skipBlanks_quote]
      rfl
  · obtain ⟨rest, hrest, hfind⟩ := findKey_seq hseq
    rw [extractU64, hvalue, hfind, Option.map_some, skipBlanks_decimal]
    simp [strtoull_decimal rest m.seq.toNat_lt hrest]

/-- An entry is read back from its chunks. -/
theorem readEntry_chunks {k v : Text} (hk : '"' ∉ k) (hv : '"' ∉ v) (t : Text) (ts : List Text) :
    readEntry (quotedChunks (k :: [':'] :: v :: t :: ts)) = some (k, v, t ++ quotedChunks ts) := by
  have hspace : ∀ s, skipSpace ('"' :: s) = '"' :: s := fun s => by simp [skipSpace]
  have hcolon : ∀ s, skipBlanks (':' :: s) = ':' :: s := fun s => by simp [skipBlanks]
  simp only [readEntry, quotedChunks, hspace]
  simp [cutAt_append _ hk, cutAt_append _ hv, hcolon, skipBlanks_quote]

/-- Reading entries ends where there is none. -/
theorem mapLoop_of_none {s : Text} (h : readEntry s = none) (rounds : Nat) (m : Meta) :
    mapLoop rounds m s = m := by
  cases rounds with
  | zero => rfl
  | succ rounds => rw [mapLoop, h]

/-- The entries are read back one by one. -/
theorem mapLoop_chunks {es : List Entry} (hes : PlainEntries es) (rounds : Nat)
    (hrounds : es.length ≤ rounds) (m : Meta) : mapLoop rounds m (quotedChunks (entryChunks es)) =
      es.foldl (fun (m : Meta) e => m.insert e.1 e.2) m := by
  induction es generalizing rounds m with
  | nil => exact mapLoop_of_none rfl rounds m
  | cons e es ih =>
    obtain ⟨⟨hk, hv⟩, hes⟩ := List.forall_mem_cons.mp hes
    obtain ⟨rounds, rfl⟩ : ∃ r, rounds = r + 1 := ⟨rounds - 1, by grind⟩
    cases es with
    | nil =>
      have hread := readEntry_chunks hk hv "\x7d\x7d".toList []
      simp only [entryChunks, mapLoop, hread]
      exact mapLoop_of_none rfl rounds _
    | cons e' es =>
      have hread := readEntry_chunks hk hv [','] (entryChunks (e' :: es))
      have hcomma : skipComma ([','] ++ quotedChunks (entryChunks (e' :: es))) =
          quotedChunks (entryChunks (e' :: es)) := by
        simp [skipComma, skipBlanks]
      have hchunks : entryChunks (e :: e' :: es) =
          e.1 :: [':'] :: e.2 :: [','] :: entryChunks (e' :: es) := rfl
      rw [hchunks, mapLoop, hread]
      simp only [hcomma]
      exact ih hes rounds (by simpa using hrounds) _

/-- There are no more entries than characters. -/
theorem length_le_length_chunks (es : List Entry) :
    es.length ≤ (quotedChunks (entryChunks es)).length := by
  induction es with
  | nil => exact Nat.zero_le _
  | cons e es ih =>
    cases es with
    | nil => simp [entryChunks, quotedChunks]
    | cons e' es =>
      have hchunks : entryChunks (e :: e' :: es) =
          e.1 :: [':'] :: e.2 :: [','] :: entryChunks (e' :: es) := rfl
      rw [hchunks]
      simp only [quotedChunks, List.length_cons, List.length_append] at ih ⊢
      omega

/-- What a map holds after entries with different keys were inserted. -/
theorem lookup_foldl_insert {es : List Entry} (hnodup : es.NodupKeys) (m : Meta) (key : Text) :
    (es.foldl (fun (m : Meta) e => m.insert e.1 e.2) m).lookup key =
      (es.dlookup key).or (m.lookup key) := by
  induction es generalizing m with
  | nil => simp
  | cons e es ih =>
    obtain ⟨k, v⟩ := e
    obtain ⟨hnot, hnodup⟩ := List.nodupKeys_cons.mp hnodup
    rw [List.foldl_cons, ih hnodup, lookup_insert]
    by_cases hkey : key = k
    · subst hkey
      rw [if_pos rfl, List.dlookup_eq_none.mpr hnot, List.dlookup_cons_eq]
      rfl
    · rw [if_neg hkey, List.dlookup_cons_ne _ _ hkey]

/-- The metadata are read back, in some order. -/
theorem lookup_extractStringMap (h : PlainTexts m) (key : Text) :
    ((extractStringMap (messageToJson m) "meta".toList).getD ∅).lookup key =
      m.metadata.lookup key := by
  have hvalue := valueOf_messageToJson h "meta".toList (by simp)
  cases he : m.metadata.entries.isEmpty with
  | true =>
    have hempty : m.metadata = ∅ := AList.ext (List.isEmpty_iff.mp he)
    rw [findKey_meta_of_empty he] at hvalue
    rw [extractStringMap, hvalue, hempty]
    rfl
  | false =>
    have hplain : PlainEntries (sortedEntries m.metadata) := fun e hmem =>
      h.entries e ((sortedEntries_perm _).mem_iff.mp hmem)
    have hperm := sortedEntries_perm m.metadata
    have hnodup : (sortedEntries m.metadata).NodupKeys :=
      (List.perm_nodupKeys hperm).mpr m.metadata.nodupKeys
    have hbrace : ∀ s, skipBlanks ('\x7b' :: s) = '\x7b' :: s := fun s => by simp [skipBlanks]
    rw [findKey_meta he] at hvalue
    have hloop := mapLoop_chunks hplain _ (length_le_length_chunks _) ∅
    have hmap : extractStringMap (messageToJson m) "meta".toList =
        some ((sortedEntries m.metadata).foldl (fun (m : Meta) e => m.insert e.1 e.2) ∅) := by
      rw [← hloop, extractStringMap, hvalue, Option.map_some, hbrace]
      rfl
    rw [hmap, Option.getD_some, lookup_foldl_insert hnodup, AList.lookup_empty, Option.or_none]
    exact List.perm_dlookup key hnodup hperm

/-- A message with plain texts and a protocol number that is not negative is read
back except for its version and its timestamp. -/
theorem parseMessageJson_messageToJson (h : PlainTexts m) (hproto : 0 ≤ m.protocol.value.toInt) :
    ∃ metadata : Meta, (∀ key, metadata.lookup key = m.metadata.lookup key) ∧
      parseMessageJson (messageToJson m) = .ok
        { protocol := m.protocol
          id := m.id
          payload := m.payload
          seq := m.seq
          metadata := metadata } := by
  refine ⟨_, lookup_extractStringMap h, ?_⟩
  obtain ⟨n, hn⟩ := Int.eq_ofNat_of_zero_le hproto
  have hlt : n < 2 ^ 31 := by
    have hle := m.protocol.value.toInt_lt
    omega
  have hback : (⟨(UInt32.ofNat n).toInt32⟩ : Protocol) = m.protocol := by
    refine congrArg Protocol.mk (Int32.toInt_inj.mp ?_)
    rw [UInt32.toInt32_ofNat', Int32.toInt_ofNat_of_lt hlt, hn]
  simp only [parseMessageJson, extractU32_protocol h hn hlt, extractString_id h, ok_bind,
    extractBytes_payload h, extractU64_seq h, Option.getD_some, hback]
  rfl

/-- An entry of plain texts may be inserted. -/
theorem PlainEntries.insert {k v : Text} {m : Meta} (hk : '"' ∉ k) (hv : '"' ∉ v)
    (h : PlainEntries m.entries) : PlainEntries (m.insert k v).entries := by
  intro e he
  rw [AList.entries_insert] at he
  rcases List.mem_cons.mp he with rfl | he
  · exact ⟨hk, hv⟩
  · exact h e ((List.kerase_sublist _ _).subset he)

/-- An entry of plain texts may be inserted on a condition. -/
theorem PlainEntries.insert_if {p : Prop} [Decidable p] {k v : Text} {m : Meta} (hk : '"' ∉ k)
    (hv : '"' ∉ v) (h : PlainEntries m.entries) :
    PlainEntries (if p then m.insert k v else m).entries := by
  split_ifs
  · exact h.insert hk hv
  · exact h

/-- The text of a flag holds no quotation mark. -/
theorem quote_not_mem_boolText (b : Bool) : '"' ∉ boolText b := by
  cases b <;> simp [boolText]

/-- The texts of a frame's message are numerals, flags and fixed keys. -/
theorem plainTexts_toMessage (now : Int) (f : Frame) : PlainTexts (toMessage now f) where
  id := quote_not_mem_decimal _
  entries := by
    refine .insert_if (by simp) (by simp) ?_
    refine .insert_if (by simp) (quote_not_mem_decimal _) ?_
    refine .insert_if (by simp) (quote_not_mem_decimal _) ?_
    refine .insert_if (by simp) (quote_not_mem_decimal _) ?_
    refine .insert_if (by simp) (by simp) ?_
    refine .insert_if (by simp) (by simp) ?_
    refine .insert (by simp) (quote_not_mem_boolText _) ?_
    refine .insert (by simp) (quote_not_mem_boolText _) ?_
    refine .insert (by simp) (quote_not_mem_boolText _) ?_
    refine .insert (by simp) (quote_not_mem_boolText _) ?_
    exact fun e he => absurd he List.not_mem_nil

/-- A valid frame passes through the whole chain unchanged. -/
theorem chain_lossless (now : Int) (f : Frame) (hv : f.Valid) :
    ∃ m, parseMessageJson (messageToJson (toMessage now f)) = .ok m ∧ fromMessage m = .ok f := by
  have hproto : 0 ≤ Protocol.CAN.value.toInt := by decide
  obtain ⟨metadata, hlookup, hparse⟩ :=
    parseMessageJson_messageToJson (plainTexts_toMessage now f) hproto
  refine ⟨_, hparse, ?_⟩
  rw [← fromMessage_toMessage now hv]
  exact fromMessage_congr rfl rfl hlookup

/-- An XL frame with most of the optional fields set. -/
theorem chain_lossless_xl :
    ∃ m, parseMessageJson (messageToJson (toMessage 0
        { id := 0x7FF, xl := true, sdt := 3, af := 99, sec := true, data := [1, 2] })) =
      .ok m ∧ fromMessage m =
      .ok { id := 0x7FF, xl := true, sdt := 3, af := 99, sec := true, data := [1, 2] } := by
  have hvalid : Frame.Valid
      { id := 0x7FF, xl := true, sdt := 3, af := 99, sec := true, data := [1, 2] } := by
    decide
  exact chain_lossless 0 _ hvalid

end CppCan.Cli
