import CppCan.Cli.Chain
import CppCan.Cli.Frame

/-!
# Texts that denote a frame

A JSON text of a frame is made of its members in any order, with any white space between
two tokens. Such a text is a sequence of chunks between quotation marks, and a key is found
in it exactly where its member is, if the colon follows at once.
-/

namespace CppCan.Cli

open CppCan.Core

/-- White space between two tokens. -/
structure Gap where
  text : Text
  white : ∀ c ∈ text, c ∈ [' ', '\t', '\n', '\r']

/-- A gap that does not leave the line. -/
def Gap.Inline (g : Gap) : Prop := ∀ c ∈ g.text, c ∈ [' ', '\t']

/-- The members of a frame's object. -/
inductive Key where
  | id
  | ext
  | rtr
  | fd
  | brs
  | data
  | esi
  | xl
  | sdt
  | vcid
  | af
  | sec
  deriving DecidableEq, Repr

def Key.text : Key → Text
  | .id => "id".toList
  | .ext => "ext".toList
  | .rtr => "rtr".toList
  | .fd => "fd".toList
  | .brs => "brs".toList
  | .data => "data".toList
  | .esi => "esi".toList
  | .xl => "xl".toList
  | .sdt => "sdt".toList
  | .vcid => "vcid".toList
  | .af => "af".toList
  | .sec => "sec".toList

/-- The value of a member. -/
inductive Value where
  | number (n : UInt32)
  | flag (b : Bool)
  | bytes (data : List UInt8)
  deriving DecidableEq, Repr

/-- The value of a member of a frame's object. -/
def Key.value (f : Frame) : Key → Value
  | .id => .number f.id
  | .ext => .flag f.ext
  | .rtr => .flag f.rtr
  | .fd => .flag f.fd
  | .brs => .flag f.brs
  | .data => .bytes f.data
  | .esi => .flag f.esi
  | .xl => .flag f.xl
  | .sdt => .number f.sdt.toUInt32
  | .vcid => .number f.vcid.toUInt32
  | .af => .number f.af
  | .sec => .flag f.sec

/-- The member has its default value. -/
def Key.IsDefault (f : Frame) (k : Key) : Prop := k.value f = k.value {}

instance (f : Frame) (k : Key) : Decidable (k.IsDefault f) :=
  inferInstanceAs (Decidable (_ = _))

/-- How bytes are written: as base64, or as an array with the gap of an empty one and, for
every element, the gaps before and behind it. -/
inductive DataForm where
  | base64
  | array (inner : Gap) (gaps : Nat → Gap × Gap)

/-- A member with the gaps around its tokens; `form` matters for bytes only. -/
structure Member where
  key : Key
  beforeKey : Gap
  beforeColon : Gap
  beforeValue : Gap
  afterValue : Gap
  form : DataForm

/-- The elements of an array from the one with index `i` on. -/
def elementsText (gaps : Nat → Gap × Gap) : Nat → List UInt8 → Text
  | _, [] => []
  | i, [x] => (gaps i).1.text ++ decimal x.toNat ++ (gaps i).2.text
  | i, x :: y :: rest => (gaps i).1.text ++ decimal x.toNat ++ (gaps i).2.text ++
      ',' :: elementsText gaps (i + 1) (y :: rest)

def DataForm.text (data : List UInt8) : DataForm → Text
  | .base64 => '"' :: (base64Encode data ++ ['"'])
  | .array inner gaps =>
    '[' :: ((if data.isEmpty then inner.text else elementsText gaps 0 data) ++ [']'])

/-- The text of a value. -/
def Value.text (form : DataForm) : Value → Text
  | .number n => decimal n.toNat
  | .flag b => if b then "true".toList else "false".toList
  | .bytes data => form.text data

def Member.text (f : Frame) (m : Member) : Text :=
  m.beforeKey.text ++ '"' :: (m.key.text ++ '"' :: (m.beforeColon.text ++ ':' ::
    (m.beforeValue.text ++ (m.key.value f).text m.form ++ m.afterValue.text)))

/-- The members, with commas between them. -/
def membersText (f : Frame) : List Member → Text
  | [] => []
  | [m] => m.text f
  | m :: m' :: rest => m.text f ++ ',' :: membersText f (m' :: rest)

/-- A JSON text that denotes a frame: the members in any order, those with their default
value perhaps left out, and any gaps. -/
structure Document (f : Frame) where
  lead : Gap
  members : List Member
  trail : Gap
  nodup : (members.map (·.key)).Nodup
  id_mem : .id ∈ members.map (·.key)
  omitted : ∀ k, k ∉ members.map (·.key) → k.IsDefault f

def Document.text {f : Frame} (doc : Document f) : Text :=
  doc.lead.text ++ '\x7b' :: (membersText f doc.members ++ '\x7d' :: doc.trail.text)

variable {f : Frame} {k : Key} {m : Member} {g : Gap} {s rest : Text} {data : List UInt8}

/-- Blanks are skipped where no other character precedes. -/
theorem skipBlanks_of_inline (h : g.Inline) (hs : ∀ c ∈ s.head?, c ∉ [' ', '\t']) :
    skipBlanks (g.text ++ s) = s := by
  have hall : ∀ c ∈ g.text, decide (c ∈ [' ', '\t']) = true := fun c hc =>
    decide_eq_true (h c hc)
  rw [skipBlanks, List.dropWhile_append_of_pos hall]
  cases s with
  | nil => rfl
  | cons c s => rw [List.dropWhile_cons_of_neg (by simpa using hs c rfl)]

/-- A line end is not skipped as a blank. -/
theorem skipBlanks_of_not_inline (h : ¬ g.Inline) (s : Text) :
    ∃ c t, skipBlanks (g.text ++ s) = c :: (t ++ s) ∧ c ∈ ['\n', '\r'] ∧
      ∀ d ∈ t, d ∈ [' ', '\t', '\n', '\r'] := by
  obtain ⟨text, white⟩ := g
  induction text with
  | nil => exact absurd (fun c hc => absurd hc List.not_mem_nil) h
  | cons c text ih =>
    obtain ⟨hc, hwhite⟩ := List.forall_mem_cons.mp white
    by_cases hblank : c ∈ [' ', '\t']
    · have hrest : ¬ Gap.Inline ⟨text, hwhite⟩ := fun hin =>
        h (List.forall_mem_cons.mpr ⟨hblank, hin⟩)
      obtain ⟨d, t, heq, hd, ht⟩ := ih hwhite hrest
      refine ⟨d, t, ?_, hd, ht⟩
      rw [← heq]
      exact List.dropWhile_cons_of_pos (by simpa using hblank)
    · refine ⟨c, text, ?_, ?_, hwhite⟩
      · rw [skipBlanks, List.cons_append, List.dropWhile_cons_of_neg (by simpa using hblank)]
      · simp only [List.mem_cons, List.not_mem_nil, or_false] at hc hblank ⊢
        tauto

/-- White space is skipped where no other character precedes. -/
theorem skipSpace_white {t : Text} (ht : ∀ c ∈ t, c ∈ [' ', '\t', '\n', '\r'])
    (hs : ∀ c ∈ s.head?, c ∉ [' ', '\t', '\n', '\r']) : skipSpace (t ++ s) = s := by
  have hall : ∀ c ∈ t, decide (c ∈ [' ', '\t', '\n', '\r']) = true := fun c hc =>
    decide_eq_true (ht c hc)
  rw [skipSpace, List.dropWhile_append_of_pos hall]
  cases s with
  | nil => rfl
  | cons c s => rw [List.dropWhile_cons_of_neg (by simpa using hs c rfl)]

/-- A number is read behind any white space. -/
theorem strtoull_white {t : Text} (ht : ∀ c ∈ t, isSpace c = true) (s : Text) :
    strtoull (t ++ s) = strtoull s := by
  rw [strtoull, strtoull, List.dropWhile_append_of_pos ht]

theorem strtoull_skipBlanks (s : Text) : strtoull (skipBlanks s) = strtoull s := by
  have hsplit := List.takeWhile_append_dropWhile (p := fun c => c ∈ [' ', '\t']) (l := s)
  conv_rhs => rw [← hsplit]
  refine (strtoull_white (fun c hc => ?_) _).symm
  have hblank := List.all_eq_true.mp List.all_takeWhile c hc
  simp only [List.mem_cons, List.not_mem_nil, or_false, decide_eq_true_eq] at hblank
  rcases hblank with rfl | rfl <;> rfl

theorem strtoull_gap (g : Gap) (s : Text) : strtoull (g.text ++ s) = strtoull s := by
  refine strtoull_white (fun c hc => ?_) s
  have hwhite := g.white c hc
  simp only [List.mem_cons, List.not_mem_nil, or_false] at hwhite
  rcases hwhite with rfl | rfl | rfl | rfl <;> rfl

theorem strtoull_skipSpace (s : Text) : strtoull (skipSpace s) = strtoull s := by
  have hsplit := List.takeWhile_append_dropWhile (p := fun c => c ∈ [' ', '\t', '\n', '\r'])
    (l := s)
  conv_rhs => rw [← hsplit]
  have hwhite : ∀ c ∈ s.takeWhile fun c => c ∈ [' ', '\t', '\n', '\r'],
      c ∈ [' ', '\t', '\n', '\r'] := fun c hc =>
    of_decide_eq_true (List.all_eq_true.mp List.all_takeWhile c hc)
  exact (strtoull_gap ⟨_, hwhite⟩ _).symm

/-- A round of the loop reads a number, whatever white space precedes it. -/
theorem bytesLoop_succ (rounds : Nat) (s : Text) : bytesLoop (rounds + 1) s =
    match strtoull s with
    | none => []
    | some n =>
      if n.value > 255 then [] else n.value.toUInt8 :: bytesLoop rounds (skipComma n.rest) := by
  rw [bytesLoop, ← strtoull_skipSpace s]
  generalize skipSpace s = t
  split
  · rfl
  · rfl
  · rfl

/-- What is white is none of the characters with a meaning. -/
theorem Gap.not_mem (g : Gap) {c : Char} (hc : c ∉ [' ', '\t', '\n', '\r']) : c ∉ g.text :=
  fun h => hc (g.white c h)

/-- No digit stands where a gap begins whose text is not followed by one. -/
theorem Gap.not_isDigit (g : Gap) {c : Char} (hc : c.isDigit = false) (s : Text) :
    ∀ d ∈ (g.text ++ c :: s).head?, d.isDigit = false := by
  intro d hd
  cases hg : g.text with
  | nil =>
    rw [hg] at hd
    exact Option.some.inj hd ▸ hc
  | cons e t =>
    rw [hg] at hd
    obtain rfl := Option.some.inj hd
    have hwhite := g.white e (hg ▸ List.mem_cons_self)
    simp only [List.mem_cons, List.not_mem_nil, or_false] at hwhite
    rcases hwhite with rfl | rfl | rfl | rfl <;> rfl

/-- A key is made of letters. -/
theorem Key.all_isLower (k : Key) : k.text.all Char.isLower = true := by
  cases k <;> rfl

/-- A key holds no character with a meaning. -/
theorem Key.not_mem_text (k : Key) {c : Char} (hc : c.isLower = false) : c ∉ k.text := by
  intro h
  have hlower := List.all_eq_true.mp k.all_isLower c h
  exact absurd (hlower.symm.trans hc) (by simp)

theorem Key.text_injective : Function.Injective Key.text := by
  intro k k' h
  cases k <;> cases k' <;> simp [Key.text] at h ⊢

/-- What is between quotation marks in the value of a member. -/
def Member.quoted (f : Frame) (m : Member) : Option Text :=
  match m.key.value f, m.form with
  | .bytes data, .base64 => some (base64Encode data)
  | _, _ => none

/-- The chunks from the colon of a member on: what follows the value, and more chunks. -/
def valueChunks (f : Frame) (m : Member) (follow : Text) (ts : List Text) : List Text :=
  match m.quoted f with
  | some t => (m.beforeColon.text ++ ':' :: m.beforeValue.text) :: t ::
      (m.afterValue.text ++ follow) :: ts
  | none => (m.beforeColon.text ++ ':' :: (m.beforeValue.text ++
      ((m.key.value f).text m.form ++ (m.afterValue.text ++ follow)))) :: ts

/-- What follows the value of a member up to the next quotation mark. -/
def followText (trail : Text) : List Member → Text
  | [] => '\x7d' :: trail
  | m :: _ => ',' :: m.beforeKey.text

/-- The chunks of the members and of the end of the text. -/
def documentChunks (f : Frame) (trail : Text) : List Member → List Text
  | [] => []
  | m :: rest =>
    m.key.text :: valueChunks f m (followText trail rest) (documentChunks f trail rest)

/-- The value of a member is written as its chunks. -/
theorem quotedChunks_valueChunks (f : Frame) (m : Member) (follow : Text) (ts : List Text) :
    quotedChunks (valueChunks f m follow ts) =
      '"' :: (m.beforeColon.text ++ ':' :: (m.beforeValue.text ++
        ((m.key.value f).text m.form ++ (m.afterValue.text ++ (follow ++ quotedChunks ts))))) := by
  unfold valueChunks Member.quoted
  cases m.key.value f with
  | bytes data =>
    cases m.form with
    | base64 => simp [quotedChunks, Value.text, DataForm.text]
    | array inner gaps => simp [quotedChunks]
  | _ => simp [quotedChunks]

/-- The members are written as their chunks. -/
theorem membersText_eq (f : Frame) (trail : Text) (m : Member) (ms : List Member) :
    membersText f (m :: ms) ++ '\x7d' :: trail =
      m.beforeKey.text ++ quotedChunks (documentChunks f trail (m :: ms)) := by
  induction ms generalizing m with
  | nil =>
    simp only [membersText, Member.text, documentChunks, quotedChunks, followText,
      quotedChunks_valueChunks]
    simp
  | cons m' ms ih =>
    rw [documentChunks, quotedChunks, quotedChunks_valueChunks, membersText, followText,
      List.append_assoc, List.cons_append, ih m']
    simp [Member.text]

/-- An array of bytes holds no quotation mark. -/
theorem quote_not_mem_elementsText (gaps : Nat → Gap × Gap) (i : Nat) (data : List UInt8) :
    '"' ∉ elementsText gaps i data := by
  have hgap : ∀ g : Gap, '"' ∉ g.text := fun g => g.not_mem (by decide)
  induction data generalizing i with
  | nil => exact List.not_mem_nil
  | cons x rest ih =>
    cases rest with
    | nil => simp [elementsText, hgap, quote_not_mem_decimal]
    | cons y rest => simp [elementsText, hgap, quote_not_mem_decimal, ih]

/-- A value that is not quoted holds no quotation mark. -/
theorem quote_not_mem_value (h : m.quoted f = none) : '"' ∉ (m.key.value f).text m.form := by
  unfold Member.quoted at h
  cases hvalue : m.key.value f with
  | number n => exact quote_not_mem_decimal n.toNat
  | flag b =>
    rw [Value.text]
    split_ifs <;> decide
  | bytes data =>
    rw [hvalue] at h
    cases hform : m.form with
    | base64 =>
      rw [hform] at h
      cases h
    | array inner gaps =>
      have hgap : '"' ∉ inner.text := inner.not_mem (by decide)
      rw [Value.text, DataForm.text]
      split_ifs <;> simp [hgap, quote_not_mem_elementsText]

/-- The chunks hold no quotation marks. -/
theorem plain_documentChunks (f : Frame) (trail : Gap) (ms : List Member) :
    ∀ t ∈ documentChunks f trail.text ms, '"' ∉ t := by
  have hgap : ∀ g : Gap, '"' ∉ g.text := fun g => g.not_mem (by decide)
  induction ms with
  | nil => exact fun t ht => absurd ht List.not_mem_nil
  | cons m ms ih =>
    have hfollow : '"' ∉ followText trail.text ms := by
      cases ms with
      | nil => simp [followText, hgap]
      | cons m' ms => simp [followText, hgap]
    rw [documentChunks, List.forall_mem_cons]
    refine ⟨m.key.not_mem_text (by decide), ?_⟩
    unfold valueChunks
    cases hquoted : m.quoted f with
    | none =>
      have hvalue := quote_not_mem_value hquoted
      simp only [List.forall_mem_cons]
      exact ⟨by simp [hgap, hvalue, hfollow], ih⟩
    | some t =>
      have ht : '"' ∉ t := by
        unfold Member.quoted at hquoted
        split at hquoted
        · exact Option.some.inj hquoted ▸ quote_not_mem_base64Encode _
        · cases hquoted
      simp only [List.forall_mem_cons]
      exact ⟨by simp [hgap], ht, by simp [hgap, hfollow], ih⟩

/-- What follows a value is no key and begins with no colon. -/
theorem followText_head (trail : Text) (ms : List Member) (m : Member) :
    ∃ c t, m.afterValue.text ++ followText trail ms = c :: t ∧
      c ∈ [' ', '\t', '\n', '\r', ',', '\x7d'] := by
  cases hgap : m.afterValue.text with
  | nil =>
    cases ms with
    | nil => exact ⟨_, _, rfl, by decide⟩
    | cons m' ms => exact ⟨_, _, rfl, by decide⟩
  | cons c t =>
    have hc := m.afterValue.white c (hgap ▸ List.mem_cons_self)
    refine ⟨c, t ++ followText trail ms, rfl, ?_⟩
    simp only [List.mem_cons, List.not_mem_nil, or_false] at hc ⊢
    tauto

theorem followText_ne (k : Key) (trail : Text) (ms : List Member) (t : Text) :
    t ++ followText trail ms ≠ k.text := by
  intro heq
  cases ms with
  | nil => exact k.not_mem_text (c := '\x7d') (by decide) (heq ▸ by simp [followText])
  | cons m ms => exact k.not_mem_text (c := ',') (by decide) (heq ▸ by simp [followText])

/-- The first of the chunks begins with the gap before the colon. -/
theorem valueChunks_eq_cons (f : Frame) (m : Member) (follow : Text) (ts : List Text) :
    ∃ v us, valueChunks f m follow ts = (m.beforeColon.text ++ ':' :: v) :: us := by
  unfold valueChunks
  cases m.quoted f with
  | none => exact ⟨_, _, rfl⟩
  | some t => exact ⟨_, _, rfl⟩

/-- The value of a member is passed over. -/
theorem findKey_valueChunks (f : Frame) (k : Key) (m : Member) (trail : Text) (ms : List Member)
    (ts : List Text) : findKey k.text (valueChunks f m (followText trail ms) ts) =
      findKey k.text ts := by
  have hcolon : ∀ t u : Text, t ++ ':' :: u ≠ k.text := fun t u heq =>
    k.not_mem_text (c := ':') (by decide) (heq ▸ by simp)
  unfold valueChunks
  cases m.quoted f with
  | none => exact findKey_cons_of_ne (hcolon _ _) ts
  | some t =>
    obtain ⟨c, u, heq, hc⟩ := followText_head trail ms m
    have hhead : (m.afterValue.text ++ followText trail ms).head? ≠ some ':' := by
      rw [heq, List.head?_cons]
      rintro h
      obtain rfl := Option.some.inj h
      exact absurd hc (by decide)
    dsimp only
    rw [findKey_cons_of_ne (hcolon _ _), findKey, if_neg fun h => hhead h.2,
      findKey_cons_of_ne (followText_ne k trail ms _)]

/-- A key that no member has is not found. -/
theorem findKey_of_not_mem (f : Frame) (trail : Text) {ms : List Member}
    (h : k ∉ ms.map (·.key)) : findKey k.text (documentChunks f trail ms) = none := by
  induction ms with
  | nil => rfl
  | cons m ms ih =>
    rw [List.map_cons, List.mem_cons, not_or] at h
    have hne : m.key.text ≠ k.text := fun heq => h.1 (Key.text_injective heq).symm
    rw [documentChunks, findKey_cons_of_ne hne, findKey_valueChunks, ih h.2]

/-- A key is found behind its member's colon, if that follows at once. -/
theorem findKey_of_mem (f : Frame) (trail : Text) {ms : List Member}
    (hnodup : (ms.map (·.key)).Nodup) (hm : m ∈ ms) :
    ∃ rest, (∀ c ∈ rest.head?, c.isDigit = false) ∧
      findKey m.key.text (documentChunks f trail ms) =
        if m.beforeColon.text = [] then
          some (m.beforeValue.text ++ ((m.key.value f).text m.form ++ rest))
        else none := by
  induction ms with
  | nil => cases hm
  | cons m' ms ih =>
    obtain ⟨hnot, hrest⟩ := List.nodup_cons.mp hnodup
    rcases List.mem_cons.mp hm with rfl | hmem
    · obtain ⟨c, u, heq, hc⟩ := followText_head trail ms m
      refine ⟨m.afterValue.text ++ (followText trail ms ++
        quotedChunks (documentChunks f trail ms)), ?_, ?_⟩
      · rw [← List.append_assoc, heq, List.cons_append, List.head?_cons]
        rintro d hd
        obtain rfl := Option.some.inj hd
        simp only [List.mem_cons, List.not_mem_nil, or_false] at hc
        rcases hc with rfl | rfl | rfl | rfl | rfl | rfl <;> rfl
      · obtain ⟨v, us, hchunks⟩ := valueChunks_eq_cons f m (followText trail ms)
          (documentChunks f trail ms)
        have htext := quotedChunks_valueChunks f m (followText trail ms) (documentChunks f trail ms)
        rw [documentChunks]
        by_cases hgap : m.beforeColon.text = []
        · rw [hchunks, hgap, quotedChunks, List.nil_append, List.nil_append, List.cons_append]
            at htext
          rw [hchunks, hgap, findKey, if_pos ⟨rfl, rfl⟩, if_pos rfl]
          exact congrArg some (List.cons.inj (List.cons.inj htext).2).2
        · obtain ⟨d, t, hd⟩ := List.exists_cons_of_ne_nil hgap
          have hwhite := m.beforeColon.white d (hd ▸ List.mem_cons_self)
          have hhead : ¬ ((m.beforeColon.text ++ ':' :: v).head? = some ':') := by
            rw [hd, List.cons_append, List.head?_cons]
            intro h
            obtain rfl := Option.some.inj h
            exact absurd hwhite (by decide)
          rw [hchunks, findKey, if_neg fun h => hhead h.2, ← hchunks, findKey_valueChunks,
            findKey_of_not_mem f trail hnot, if_neg hgap]
    · have hne : m'.key.text ≠ m.key.text := by
        intro heq
        have hkey : m'.key = m.key := Key.text_injective heq
        exact hnot (List.mem_map.mpr ⟨m, hmem, hkey.symm⟩)
      rw [documentChunks, findKey_cons_of_ne hne, findKey_valueChunks]
      exact ih hrest hmem

namespace Document

variable (doc : Document f)

/-- Searching a document is searching its chunks. -/
theorem valueOf_text (k : Key) : valueOf doc.text k.text =
    (findKey k.text (documentChunks f doc.trail.text doc.members)).map skipBlanks := by
  obtain ⟨m, ms, hmembers⟩ : ∃ m ms, doc.members = m :: ms :=
    List.exists_cons_of_ne_nil fun hnil => by simpa [hnil] using doc.id_mem
  have hplain : '"' ∉ doc.lead.text ++ '\x7b' :: m.beforeKey.text := by
    have hgap : ∀ g : Gap, '"' ∉ g.text := fun g => g.not_mem (by decide)
    simp [hgap]
  have htext : doc.text = (doc.lead.text ++ '\x7b' :: m.beforeKey.text) ++
      quotedChunks (documentChunks f doc.trail.text doc.members) := by
    rw [Document.text, hmembers, membersText_eq, List.append_assoc, List.cons_append]
  rw [valueOf, htext, findAfter_plain _ hplain,
    findAfter_quotedChunks (k.not_mem_text (by decide))
      (plain_documentChunks f doc.trail doc.members)]

/-- A member that is left out is not found. -/
theorem valueOf_of_not_mem (h : k ∉ doc.members.map (·.key)) :
    valueOf doc.text k.text = none := by
  rw [doc.valueOf_text, findKey_of_not_mem f _ h]
  rfl

/-- A member is found if the colon follows its key at once. -/
theorem valueOf_of_mem (hm : m ∈ doc.members) :
    ∃ rest, (∀ c ∈ rest.head?, c.isDigit = false) ∧
      valueOf doc.text m.key.text = if m.beforeColon.text = [] then
        some (skipBlanks (m.beforeValue.text ++ ((m.key.value f).text m.form ++ rest)))
      else none := by
  obtain ⟨rest, hrest, hfind⟩ := findKey_of_mem f doc.trail.text doc.nodup hm
  refine ⟨rest, hrest, ?_⟩
  rw [doc.valueOf_text, hfind]
  split_ifs <;> rfl

end Document

end CppCan.Cli
