import CppCan.Cli.Documents

/-!
# Reading the texts of a frame

Behind a colon the reader skips only blanks and tabs before it looks at a flag or at bytes,
and so it does before the comma of an array. So it reads a frame back from its text exactly
if every member that matters is written with the colon behind its key and without a line
end at these places.
-/

namespace CppCan.Cli

open CppCan.Core

/-- Each comma of an array is on the line of the element before it. -/
def DataForm.Inline (data : List UInt8) : DataForm → Prop
  | .base64 => True
  | .array _ gaps => ∀ i, i + 1 < data.length → (gaps i).2.Inline

/-- The reader finds a value and understands it: the colon follows the key, and flags and
bytes begin on its line. -/
def Member.Legible (f : Frame) (m : Member) : Prop :=
  m.beforeColon.text = [] ∧
    match m.key.value f with
    | .number _ => True
    | .flag _ => m.beforeValue.Inline
    | .bytes data => m.beforeValue.Inline ∧ m.form.Inline data

/-- Every member that matters can be read: the identifier and those whose value is not the
default. -/
def Document.Legible {f : Frame} (doc : Document f) : Prop :=
  ∀ m ∈ doc.members, m.key = .id ∨ ¬ m.key.IsDefault f → m.Legible f

variable {f : Frame} {k : Key} {m : Member} {g : Gap} {s rest : Text} {data : List UInt8}

/-- An element is read, and what follows it decides about the next one. -/
theorem bytesLoop_element (rounds : Nat) (g : Gap) (x : UInt8)
    (hs : ∀ c ∈ s.head?, c.isDigit = false) :
    bytesLoop (rounds + 1) (g.text ++ (decimal x.toNat ++ s)) =
      x :: bytesLoop rounds (skipComma s) := by
  have hbyte := x.toNat_lt
  have hread := strtoull_decimal s (hbyte.trans (by decide)) hs
  have hle : ¬ UInt64.ofNat x.toNat > 255 := by
    rw [gt_iff_lt, UInt64.not_lt, UInt64.le_iff_toNat_le,
      UInt64.toNat_ofNat_of_lt' (hbyte.trans (by decide))]
    exact Nat.le_of_lt_succ hbyte
  rw [bytesLoop_succ, strtoull_gap, hread]
  dsimp only
  rw [if_neg hle]
  simp

/-- At the end of the array, and where a comma is not skipped, no element is read. -/
theorem bytesLoop_stop (rounds : Nat) {t : Text} (ht : ∀ c ∈ t, c ∈ [' ', '\t', '\n', '\r'])
    {c : Char} (hc : c = ',' ∨ c = ']') (s : Text) : bytesLoop rounds (t ++ c :: s) = [] := by
  cases rounds with
  | zero => rfl
  | succ rounds =>
    have hskip : skipSpace (t ++ c :: s) = c :: s := by
      refine skipSpace_white ht fun d hd => ?_
      obtain rfl := Option.some.inj hd
      rcases hc with rfl | rfl <;> decide
    rw [bytesLoop, hskip]
    rcases hc with rfl | rfl
    · rfl
    · rfl

/-- Behind the last element the array ends. -/
theorem bytesLoop_last (rounds : Nat) (g : Gap) (rest : Text) :
    bytesLoop rounds (skipComma (g.text ++ ']' :: rest)) = [] := by
  obtain ⟨t, ht, heq⟩ : ∃ t : Text, (∀ c ∈ t, c ∈ [' ', '\t', '\n', '\r']) ∧
      skipComma (g.text ++ ']' :: rest) = t ++ ']' :: rest := by
    by_cases hline : g.Inline
    · refine ⟨[], fun c hc => absurd hc List.not_mem_nil, ?_⟩
      rw [skipComma, skipBlanks_of_inline hline (by simp)]
      rfl
    · obtain ⟨c, t, hskip, hc, ht⟩ := skipBlanks_of_not_inline hline (']' :: rest)
      simp only [List.mem_cons, List.not_mem_nil, or_false] at hc
      refine ⟨c :: t, List.forall_mem_cons.mpr ⟨?_, ht⟩, ?_⟩
      · rcases hc with rfl | rfl <;> decide
      · rw [skipComma, hskip]
        rcases hc with rfl | rfl <;> rfl
  rw [heq, bytesLoop_stop rounds ht (.inr rfl)]

/-- A comma is skipped only on the line of the element before it. -/
theorem bytesLoop_comma (rounds : Nat) (g : Gap) (s : Text) :
    (g.Inline → skipComma (g.text ++ ',' :: s) = s) ∧
      (¬ g.Inline → bytesLoop rounds (skipComma (g.text ++ ',' :: s)) = []) := by
  refine ⟨fun hline => ?_, fun hline => ?_⟩
  · rw [skipComma, skipBlanks_of_inline hline (by simp)]
    rfl
  · obtain ⟨c, t, hskip, hc, ht⟩ := skipBlanks_of_not_inline hline (',' :: s)
    simp only [List.mem_cons, List.not_mem_nil, or_false] at hc
    have hkeep : skipComma (g.text ++ ',' :: s) = (c :: t) ++ ',' :: s := by
      rw [skipComma, hskip]
      rcases hc with rfl | rfl <;> rfl
    rw [hkeep]
    refine bytesLoop_stop rounds (List.forall_mem_cons.mpr ⟨?_, ht⟩) (.inl rfl) s
    rcases hc with rfl | rfl <;> decide

/-- There are no more elements than characters. -/
theorem length_le_length_elementsText (gaps : Nat → Gap × Gap) (i : Nat) (data : List UInt8) :
    data.length ≤ (elementsText gaps i data).length := by
  induction data generalizing i with
  | nil => exact Nat.zero_le _
  | cons x xs ih =>
    have hpos : 0 < (decimal x.toNat).length :=
      List.length_pos_of_ne_nil Nat.toDigits_ne_nil
    cases xs with
    | nil =>
      simp only [elementsText, List.length_append, List.length_cons, List.length_nil]
      omega
    | cons y ys =>
      have hrest := ih (i + 1)
      simp only [elementsText, List.length_append, List.length_cons] at hrest ⊢
      omega

/-- All elements are read if each comma is on the line of the element before it. -/
theorem bytesLoop_elements (gaps : Nat → Gap × Gap) (i rounds : Nat)
    (hrounds : data.length ≤ rounds) (hdata : data ≠ []) (rest : Text) :
    bytesLoop rounds (elementsText gaps i data ++ ']' :: rest) = data ↔
      ∀ j, j + 1 < data.length → (gaps (i + j)).2.Inline := by
  induction data generalizing i rounds with
  | nil => exact absurd rfl hdata
  | cons x xs ih =>
    obtain ⟨rounds, rfl⟩ : ∃ r, rounds = r + 1 := ⟨rounds - 1, by simp at hrounds; omega⟩
    cases xs with
    | nil =>
      rw [elementsText, List.append_assoc, List.append_assoc,
        bytesLoop_element _ _ _ (Gap.not_isDigit _ rfl _), bytesLoop_last]
      simp
    | cons y ys =>
      rw [elementsText, List.append_assoc, List.append_assoc, List.append_assoc, List.cons_append,
        bytesLoop_element _ _ _ (Gap.not_isDigit _ rfl _), List.cons.injEq]
      obtain ⟨hskip, hstop⟩ := bytesLoop_comma rounds (gaps i).2
        (elementsText gaps (i + 1) (y :: ys) ++ ']' :: rest)
      by_cases hline : (gaps i).2.Inline
      · rw [hskip hline, ih (i + 1) rounds (by simpa using hrounds) (List.cons_ne_nil y ys)]
        constructor
        · rintro ⟨-, h⟩ j hj
          cases j with
          | zero => exact hline
          | succ j =>
            have hnext := h j (by simpa using hj)
            rwa [show i + 1 + j = i + (j + 1) by omega] at hnext
        · intro h
          refine ⟨rfl, fun j hj => ?_⟩
          have hnext := h (j + 1) (by simpa using hj)
          rwa [show i + (j + 1) = i + 1 + j by omega] at hnext
      · rw [hstop hline]
        constructor
        · rintro ⟨-, h⟩
          cases h
        · intro h
          exact absurd (h 0 (by simp)) hline

/-- Without elements there are no commas. -/
theorem DataForm.inline_nil (form : DataForm) : form.Inline [] := by
  cases form with
  | base64 => trivial
  | array inner gaps => exact fun i hi => absurd hi (by simp)

namespace Document

variable (doc : Document f)

/-- The member with this key can be read, if it matters. -/
def ReadsAt (k : Key) : Prop :=
  k.IsDefault f ∨ ∃ m ∈ doc.members, m.key = k ∧ m.Legible f

/-- The document can be read if each of its members can be that matters. -/
theorem legible_iff : doc.Legible ↔
    (∃ m ∈ doc.members, m.key = .id ∧ m.Legible f) ∧ ∀ k, k ≠ .id → doc.ReadsAt k := by
  constructor
  · intro h
    refine ⟨?_, fun k hk => ?_⟩
    · obtain ⟨m, hm, hid⟩ := List.mem_map.mp doc.id_mem
      exact ⟨m, hm, hid, h m hm (.inl hid)⟩
    · by_cases hdefault : k.IsDefault f
      · exact .inl hdefault
      · have hmem : k ∈ doc.members.map (·.key) := by
          by_contra hnot
          exact hdefault (doc.omitted k hnot)
        obtain ⟨m, hm, rfl⟩ := List.mem_map.mp hmem
        exact .inr ⟨m, hm, rfl, h m hm (.inr hdefault)⟩
  · rintro ⟨⟨m₀, hm₀, hid, hlegible⟩, hrest⟩ m hm hmatters
    by_cases hk : m.key = .id
    · have heq : m = m₀ := List.inj_on_of_nodup_map doc.nodup hm hm₀ (hk.trans hid.symm)
      exact heq ▸ hlegible
    · rcases hrest m.key hk with hdefault | ⟨m', hm', hkey, hlegible'⟩
      · exact absurd hdefault (hmatters.resolve_left hk)
      · have heq : m' = m := List.inj_on_of_nodup_map doc.nodup hm' hm hkey
        exact heq ▸ hlegible'

/-- A number is read wherever its key is found. -/
theorem extractU32_of_mem {n : UInt32} (hm : m ∈ doc.members) (hn : m.key.value f = .number n) :
    extractU32 doc.text m.key.text = if m.beforeColon.text = [] then some n else none := by
  obtain ⟨rest, hrest, hvalue⟩ := doc.valueOf_of_mem hm
  rw [extractU32, hvalue]
  split_ifs with hgap
  · have hlt : n.toNat < 2 ^ 64 := n.toNat_lt.trans (by decide)
    have hread := strtoull_decimal rest hlt hrest
    have hle : ¬ UInt64.ofNat n.toNat > 0xFFFFFFFF := by
      rw [gt_iff_lt, UInt64.not_lt, UInt64.le_iff_toNat_le, UInt64.toNat_ofNat_of_lt' hlt]
      exact Nat.le_of_lt_succ n.toNat_lt
    rw [← strtoull_gap m.beforeValue, ← strtoull_skipBlanks] at hread
    rw [Option.bind_eq_bind, Option.bind_some, hn, Value.text, hread, Option.bind_eq_bind,
      Option.bind_some, if_neg hle]
    simp
  · rfl

/-- There is one member with a key. -/
theorem exists_legible_iff (hm : m ∈ doc.members) :
    (∃ m' ∈ doc.members, m'.key = m.key ∧ m'.Legible f) ↔ m.Legible f := by
  constructor
  · rintro ⟨m', hm', hkey, hlegible⟩
    obtain rfl := List.inj_on_of_nodup_map doc.nodup hm' hm hkey
    exact hlegible
  · exact fun hlegible => ⟨m, hm, rfl, hlegible⟩

/-- A member that is left out has its default value. -/
theorem readsAt_of_not_mem (h : k ∉ doc.members.map (·.key)) : k.IsDefault f ∧ doc.ReadsAt k :=
  ⟨doc.omitted k h, .inl (doc.omitted k h)⟩

/-- The identifier is read if its member is legible. -/
theorem extractU32_id : extractU32 doc.text "id".toList = some f.id ↔
    ∃ m ∈ doc.members, m.key = .id ∧ m.Legible f := by
  obtain ⟨m, hm, hid⟩ := List.mem_map.mp doc.id_mem
  have hn : m.key.value f = .number f.id := by rw [show m.key = .id from hid]; rfl
  have hread := doc.extractU32_of_mem hm hn
  have hlegible : m.Legible f ↔ m.beforeColon.text = [] := by simp [Member.Legible, hn]
  have hone := doc.exists_legible_iff hm
  rw [show m.key = .id from hid] at hread hone
  rw [hone, hlegible, show "id".toList = Key.id.text from rfl, hread]
  split_ifs with hgap <;> simp [hgap]

/-- A number is read back, or it is zero, as it is when nothing is read. -/
theorem extractU32_getD {n : UInt32} (hn : k.value f = .number n) (h0 : k.value {} = .number 0) :
    (extractU32 doc.text k.text).getD 0 = n ↔ doc.ReadsAt k := by
  have hdefault : k.IsDefault f ↔ n = 0 := by simp [Key.IsDefault, hn, h0]
  by_cases hmem : k ∈ doc.members.map (·.key)
  · obtain ⟨m, hm, rfl⟩ := List.mem_map.mp hmem
    have hlegible : m.Legible f ↔ m.beforeColon.text = [] := by simp [Member.Legible, hn]
    rw [ReadsAt, doc.exists_legible_iff hm, hdefault, hlegible, doc.extractU32_of_mem hm hn]
    split_ifs with hgap
    · simp [hgap]
    · simp [hgap, eq_comm]
  · obtain ⟨h, hreads⟩ := doc.readsAt_of_not_mem hmem
    have hnone : extractU32 doc.text k.text = none := by
      rw [extractU32, doc.valueOf_of_not_mem hmem]
      rfl
    rw [hnone, hdefault.mp h]
    exact ⟨fun _ => hreads, fun _ => rfl⟩

/-- A flag is read if it begins on the line of its colon. -/
theorem extractBool_of_mem {b : Bool} (hm : m ∈ doc.members) (hb : m.key.value f = .flag b) :
    m.Legible f ∧ extractBool doc.text m.key.text = some b ∨
      ¬ m.Legible f ∧ extractBool doc.text m.key.text = none := by
  have hlegible : m.Legible f ↔ m.beforeColon.text = [] ∧ m.beforeValue.Inline := by
    simp [Member.Legible, hb]
  obtain ⟨rest, -, hvalue⟩ := doc.valueOf_of_mem hm
  rw [hlegible, extractBool, hvalue]
  by_cases hgap : m.beforeColon.text = []
  · rw [if_pos hgap, Option.bind_eq_bind, Option.bind_some, hb, Value.text]
    by_cases hline : m.beforeValue.Inline
    · refine .inl ⟨⟨hgap, hline⟩, ?_⟩
      cases b with
      | true =>
        rw [if_pos rfl, skipBlanks_of_inline hline (by simp)]
        simp
      | false =>
        rw [if_neg Bool.false_ne_true, skipBlanks_of_inline hline (by simp)]
        simp
    · refine .inr ⟨fun h => hline h.2, ?_⟩
      obtain ⟨c, t, heq, hc, -⟩ := skipBlanks_of_not_inline hline
        ((if b = true then "true".toList else "false".toList) ++ rest)
      rw [heq]
      simp only [List.mem_cons, List.not_mem_nil, or_false] at hc
      rcases hc with rfl | rfl <;> simp
  · rw [if_neg hgap]
    exact .inr ⟨fun h => hgap h.1, rfl⟩

/-- A flag is read back, or it is off, as it is when nothing is read. -/
theorem extractBool_getD {b : Bool} (hb : k.value f = .flag b) (h0 : k.value {} = .flag false) :
    (extractBool doc.text k.text).getD false = b ↔ doc.ReadsAt k := by
  have hdefault : k.IsDefault f ↔ b = false := by simp [Key.IsDefault, hb, h0]
  by_cases hmem : k ∈ doc.members.map (·.key)
  · obtain ⟨m, hm, rfl⟩ := List.mem_map.mp hmem
    rw [ReadsAt, doc.exists_legible_iff hm, hdefault]
    rcases doc.extractBool_of_mem hm hb with ⟨hl, hread⟩ | ⟨hl, hread⟩
    · simp [hread, hl]
    · simp [hread, hl, eq_comm]
  · obtain ⟨h, hreads⟩ := doc.readsAt_of_not_mem hmem
    have hnone : extractBool doc.text k.text = none := by
      rw [extractBool, doc.valueOf_of_not_mem hmem]
      rfl
    rw [hnone, hdefault.mp h]
    exact ⟨fun _ => hreads, fun _ => rfl⟩

/-- Bytes that do not begin on the line of their colon are not read. -/
theorem extractBytes_of_not_inline (g : Gap) (h : ¬ g.Inline) (v : Text)
    (hv : valueOf s k.text = some (skipBlanks (g.text ++ v))) : extractBytes s k.text = none := by
  obtain ⟨c, t, hskip, hc, -⟩ := skipBlanks_of_not_inline h v
  rw [extractBytes, hv, hskip]
  simp only [List.mem_cons, List.not_mem_nil, or_false] at hc
  rcases hc with rfl | rfl <;> rfl

/-- Bytes that begin there are read as far as their commas allow. -/
theorem extractBytes_form (g : Gap) (h : g.Inline) (form : DataForm) (rest : Text)
    (hv : valueOf s k.text = some (skipBlanks (g.text ++ (form.text data ++ rest)))) :
    (extractBytes s k.text).getD [] = data ↔ form.Inline data := by
  rw [extractBytes, hv]
  cases form with
  | base64 =>
    rw [DataForm.text, List.cons_append, List.append_assoc, List.singleton_append,
      skipBlanks_of_inline h (by simp)]
    simp [cutAt_append _ (quote_not_mem_base64Encode data), base64Decode,
      decodeLoop_base64Encode, DataForm.Inline]
  | array inner gaps =>
    rw [DataForm.text, List.cons_append, List.append_assoc, List.singleton_append,
      skipBlanks_of_inline h (by simp)]
    cases hdata : data.isEmpty with
    | true =>
      obtain rfl := List.isEmpty_iff.mp hdata
      rw [if_pos rfl]
      simp only [Option.bind_eq_bind, Option.bind_some, Option.getD_some]
      rw [bytesLoop_stop _ inner.white (.inr rfl)]
      simp [DataForm.inline_nil]
    | false =>
      have hne : data ≠ [] := List.isEmpty_eq_false_iff.mp hdata
      have hlen : data.length ≤ (elementsText gaps 0 data ++ ']' :: rest).length :=
        (length_le_length_elementsText gaps 0 data).trans (by simp)
      rw [if_neg Bool.false_ne_true]
      simp only [Option.bind_eq_bind, Option.bind_some, Option.getD_some]
      rw [bytesLoop_elements gaps 0 _ hlen hne]
      simp [DataForm.Inline]

/-- The bytes are read back, or there are none, as when nothing is read. -/
theorem extractBytes_getD :
    (extractBytes doc.text "data".toList).getD [] = f.data ↔ doc.ReadsAt .data := by
  have hdefault : Key.data.IsDefault f ↔ f.data = [] := by simp [Key.IsDefault, Key.value]
  rw [show "data".toList = Key.data.text from rfl]
  by_cases hmem : .data ∈ doc.members.map (·.key)
  · obtain ⟨m, hm, hkey⟩ := List.mem_map.mp hmem
    have hkey' : m.key = .data := hkey
    have hvalue : m.key.value f = .bytes f.data := by rw [hkey']; rfl
    obtain ⟨rest, -, hfound⟩ := doc.valueOf_of_mem hm
    have hone := doc.exists_legible_iff hm
    rw [hvalue, Value.text] at hfound
    rw [hkey'] at hfound hone
    rw [ReadsAt, hone, hdefault, Member.Legible, hvalue]
    split_ifs at hfound with hgap
    · by_cases hline : m.beforeValue.Inline
      · have hnil : f.data = [] → m.form.Inline f.data := by
          intro h
          rw [h]
          exact m.form.inline_nil
        rw [extractBytes_form m.beforeValue hline m.form rest hfound]
        simp only [hgap, hline, true_and]
        exact ⟨.inr, fun h => h.elim hnil id⟩
      · rw [extractBytes_of_not_inline m.beforeValue hline _ hfound]
        simp [hline, eq_comm]
    · have hnone : extractBytes doc.text Key.data.text = none := by
        rw [extractBytes, hfound]
        rfl
      rw [hnone]
      simp [hgap, eq_comm]
  · obtain ⟨h, hreads⟩ := doc.readsAt_of_not_mem hmem
    have hnone : extractBytes doc.text Key.data.text = none := by
      rw [extractBytes, doc.valueOf_of_not_mem hmem]
      rfl
    rw [hnone, hdefault.mp h]
    exact ⟨fun _ => hreads, fun _ => rfl⟩

/-- The fields are those that the extractions yield. -/
theorem parseFrameJson_eq_ok (json : Text) (f : Frame) : parseFrameJson json = .ok f ↔
    extractU32 json "id".toList = some f.id ∧
      (extractBool json "ext".toList).getD false = f.ext ∧
      (extractBool json "rtr".toList).getD false = f.rtr ∧
      (extractBool json "fd".toList).getD false = f.fd ∧
      (extractBool json "brs".toList).getD false = f.brs ∧
      (extractBytes json "data".toList).getD [] = f.data ∧
      (extractBool json "esi".toList).getD false = f.esi ∧
      (extractBool json "xl".toList).getD false = f.xl ∧
      ((extractU32 json "sdt".toList).map (·.toUInt8)).getD 0 = f.sdt ∧
      ((extractU32 json "vcid".toList).map (·.toUInt8)).getD 0 = f.vcid ∧
      (extractU32 json "af".toList).getD 0 = f.af ∧
      (extractBool json "sec".toList).getD false = f.sec := by
  obtain ⟨id, ext, rtr, fd, brs, data, esi, xl, sdt, vcid, af, sec⟩ := f
  unfold parseFrameJson
  cases extractU32 json "id".toList with
  | none => simp [bind, Except.bind]
  | some n => simp [bind, Except.bind, pure, Except.pure]

/-- A byte is read back from its number. -/
theorem extractU32_byte {x : UInt8} (hx : k.value f = .number x.toUInt32)
    (h0 : k.value {} = .number 0) :
    ((extractU32 doc.text k.text).map (·.toUInt8)).getD 0 = x ↔ doc.ReadsAt k := by
  rw [← doc.extractU32_getD hx h0]
  by_cases hmem : k ∈ doc.members.map (·.key)
  · obtain ⟨m, hm, rfl⟩ := List.mem_map.mp hmem
    rw [doc.extractU32_of_mem hm hx]
    split_ifs
    · simp
    · simp only [Option.map_none, Option.getD_none]
      constructor
      · rintro rfl
        rfl
      · exact fun h => UInt8.toUInt32_inj.mp h
  · have hnone : extractU32 doc.text k.text = none := by
      rw [extractU32, doc.valueOf_of_not_mem hmem]
      rfl
    rw [hnone]
    simp only [Option.map_none, Option.getD_none]
    constructor
    · rintro rfl
      rfl
    · exact fun h => UInt8.toUInt32_inj.mp h

/-- A legible document is read. -/
theorem parseFrameJson_of_legible (h : doc.Legible) : parseFrameJson doc.text = .ok f := by
  obtain ⟨hid, hrest⟩ := doc.legible_iff.mp h
  refine (parseFrameJson_eq_ok doc.text f).mpr ⟨doc.extractU32_id.mpr hid, ?_⟩
  exact ⟨(doc.extractBool_getD rfl rfl).mpr (hrest .ext (by decide)),
    (doc.extractBool_getD rfl rfl).mpr (hrest .rtr (by decide)),
    (doc.extractBool_getD rfl rfl).mpr (hrest .fd (by decide)),
    (doc.extractBool_getD rfl rfl).mpr (hrest .brs (by decide)),
    doc.extractBytes_getD.mpr (hrest .data (by decide)),
    (doc.extractBool_getD rfl rfl).mpr (hrest .esi (by decide)),
    (doc.extractBool_getD rfl rfl).mpr (hrest .xl (by decide)),
    (doc.extractU32_byte rfl rfl).mpr (hrest .sdt (by decide)),
    (doc.extractU32_byte rfl rfl).mpr (hrest .vcid (by decide)),
    (doc.extractU32_getD rfl rfl).mpr (hrest .af (by decide)),
    (doc.extractBool_getD rfl rfl).mpr (hrest .sec (by decide))⟩

/-- A JSON text of a frame is read back as that frame if and only if each of its members
that matters is legible. -/
theorem parseFrameJson_text_iff (f : Frame) (doc : Document f) :
    parseFrameJson doc.text = .ok f ↔ doc.Legible := by
  refine ⟨fun h => ?_, doc.parseFrameJson_of_legible⟩
  obtain ⟨hid, hext, hrtr, hfd, hbrs, hdata, hesi, hxl, hsdt, hvcid, haf, hsec⟩ :=
    (parseFrameJson_eq_ok doc.text f).mp h
  refine doc.legible_iff.mpr ⟨doc.extractU32_id.mp hid, fun k hk => ?_⟩
  cases k with
  | id => exact absurd rfl hk
  | ext => exact (doc.extractBool_getD rfl rfl).mp hext
  | rtr => exact (doc.extractBool_getD rfl rfl).mp hrtr
  | fd => exact (doc.extractBool_getD rfl rfl).mp hfd
  | brs => exact (doc.extractBool_getD rfl rfl).mp hbrs
  | data => exact doc.extractBytes_getD.mp hdata
  | esi => exact (doc.extractBool_getD rfl rfl).mp hesi
  | xl => exact (doc.extractBool_getD rfl rfl).mp hxl
  | sdt => exact (doc.extractU32_byte rfl rfl).mp hsdt
  | vcid => exact (doc.extractU32_byte rfl rfl).mp hvcid
  | af => exact (doc.extractU32_getD rfl rfl).mp haf
  | sec => exact (doc.extractBool_getD rfl rfl).mp hsec

/-- A line end between a colon and its value. -/
def brokenLine : Document { id := 1, fd := true } where
  lead := ⟨[], by simp⟩
  members :=
    [⟨.fd, ⟨[], by simp⟩, ⟨[], by simp⟩, ⟨['\n'], by simp⟩, ⟨[], by simp⟩, .base64⟩,
      ⟨.id, ⟨[' '], by simp⟩, ⟨[], by simp⟩, ⟨[' '], by simp⟩, ⟨[], by simp⟩, .base64⟩]
  trail := ⟨[], by simp⟩
  nodup := by decide
  id_mem := by decide
  omitted := by
    intro k hk
    cases k with
    | id => exact absurd hk (by decide)
    | fd => exact absurd hk (by decide)
    | _ => rfl

/-- The flag behind the line end is taken for one that was left out. -/
theorem parseFrameJson_brokenLine :
    brokenLine.text = "\x7b\"fd\":\ntrue, \"id\": 1\x7d".toList ∧
      ¬ ∀ (f : Frame) (doc : Document f), parseFrameJson doc.text = .ok f := by
  refine ⟨by decide, fun h => ?_⟩
  have hfields := (parseFrameJson_eq_ok _ _).mp (h _ brokenLine)
  exact absurd hfields.2.2.2.1 (by decide)

end Document

end CppCan.Cli
