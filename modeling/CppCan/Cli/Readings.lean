import CppCan.Cli.Truncation

/-!
# JSON texts have one reading

What a JSON text says does not depend on how it is taken apart by the grammar. A token ends where
the next character cannot belong to it, and its first character tells what it is.
-/

namespace CppCan.Cli

open CppCan.Core

/-- What a JSON text says. -/
inductive JsonValue where
  | null
  | bool (b : Bool)
  | number (q : ℚ)
  | string (s : Text)
  | array (elems : List JsonValue)
  | object (members : List (Text × JsonValue))

mutual

def Json.value : Json → JsonValue
  | .null => .null
  | .bool b => .bool b
  | .number n => .number n.value
  | .string s => .string (stringValue s)
  | .array _ elems => .array (elemsValue elems)
  | .object _ members => .object (membersValue members)

def elemsValue : List (Element Json) → List JsonValue
  | [] => []
  | ⟨_, value, _⟩ :: rest => value.value :: elemsValue rest

def membersValue : List (ObjectMember Json) → List (Text × JsonValue)
  | [] => []
  | ⟨_, key, _, _, value, _⟩ :: rest => (stringValue key, value.value) :: membersValue rest

end

/-- The text is a JSON text that says this. -/
def Means (t : Text) (v : JsonValue) : Prop :=
  ∃ (lead : Gap) (j : Json) (trail : Gap), t = lead.text ++ j.text ++ trail.text ∧ j.value = v

/-- A token begins here. -/
def Solid (s : Text) : Prop := ∀ c ∈ s.head?, c ∉ [' ', '\t', '\n', '\r']

/-- This may follow a value. -/
def Follows (s : Text) : Prop := ∀ c ∈ s.head?, c ∈ [' ', '\t', '\n', '\r', ',', ']', '\x7d']

variable {s s' t t' : Text}

/-- A text is cut where the characters of a kind stop. -/
theorem append_cancel_of_head {p : Char → Bool} (ht : ∀ c ∈ t, p c = true)
    (ht' : ∀ c ∈ t', p c = true) (hs : ∀ c ∈ s.head?, p c = false)
    (hs' : ∀ c ∈ s'.head?, p c = false) (h : t ++ s = t' ++ s') : t = t' ∧ s = s' := by
  have heq : t = t' := by
    rw [← takeWhile_append_of_head ht hs, h, takeWhile_append_of_head ht' hs']
  subst heq
  exact ⟨rfl, List.append_cancel_left h⟩

theorem Gap.append_cancel {g g' : Gap} (hs : Solid s) (hs' : Solid s')
    (h : g.text ++ s = g'.text ++ s') : s = s' := by
  refine (append_cancel_of_head (p := fun c => c ∈ [' ', '\t', '\n', '\r']) ?_ ?_ ?_ ?_ h).2
  · exact fun c hc => decide_eq_true (g.white c hc)
  · exact fun c hc => decide_eq_true (g'.white c hc)
  · exact fun c hc => decide_eq_false (hs c hc)
  · exact fun c hc => decide_eq_false (hs' c hc)

theorem Gap.follows (g : Gap) (hs : Follows s) : Follows (g.text ++ s) := by
  intro c hc
  have hmem : c ∈ g.text ∨ c ∈ s.head? := by
    cases hg : g.text with
    | nil =>
      rw [hg] at hc
      exact .inr hc
    | cons c' rest =>
      rw [hg] at hc
      obtain rfl := Option.some.inj hc
      exact .inl List.mem_cons_self
  rcases hmem with hc | hc
  · exact List.mem_append_left [',', ']', '\x7d'] (g.white c hc)
  · exact hs c hc

theorem Follows.not_isDigit (hs : Follows s) : ∀ c ∈ s.head?, c.isDigit = false := by
  intro c hc
  have hc := hs c hc
  simp only [List.mem_cons, List.not_mem_nil, or_false] at hc
  rcases hc with rfl | rfl | rfl | rfl | rfl | rfl | rfl <;> rfl

theorem StrChar.append_cancel {x x' : StrChar} (h : x.text ++ s = x'.text ++ s') :
    x.char = x'.char ∧ s = s' := by
  cases x with
  | plain c hc =>
    cases x' with
    | plain c' hc' =>
      obtain ⟨rfl, rfl⟩ := List.cons.inj h
      exact ⟨rfl, rfl⟩
    | escape c' hc' => exact absurd (List.cons.inj h).1 hc.2.1
    | unicode digits' hlen' hhex' => exact absurd (List.cons.inj h).1 hc.2.1
  | escape c hc =>
    cases x' with
    | plain c' hc' => exact absurd (List.cons.inj h).1.symm hc'.2.1
    | escape c' hc' =>
      obtain ⟨rfl, rfl⟩ := List.cons.inj (List.cons.inj h).2
      exact ⟨rfl, rfl⟩
    | unicode digits' hlen' hhex' =>
      obtain ⟨rfl, -⟩ := List.cons.inj (List.cons.inj h).2
      exact absurd hc (by decide)
  | unicode digits hlen hhex =>
    cases x' with
    | plain c' hc' => exact absurd (List.cons.inj h).1.symm hc'.2.1
    | escape c' hc' =>
      obtain ⟨rfl, -⟩ := List.cons.inj (List.cons.inj h).2
      exact absurd hc' (by decide)
    | unicode digits' hlen' hhex' =>
      have hrest : digits ++ s = digits' ++ s' := (List.cons.inj (List.cons.inj h).2).2
      obtain ⟨rfl, rfl⟩ := List.append_inj hrest (hlen.trans hlen'.symm)
      exact ⟨rfl, rfl⟩

theorem StrChar.head_ne (x : StrChar) : ∃ c rest, x.text = c :: rest ∧ c ≠ '"' := by
  cases x with
  | plain c hc => exact ⟨c, [], rfl, hc.1⟩
  | escape c => exact ⟨'\\', [c], rfl, by decide⟩
  | unicode digits => exact ⟨'\\', 'u' :: digits, rfl, by decide⟩

/-- A string ends at the first quotation mark that is not escaped. -/
theorem rawText_append_cancel {x x' : List StrChar}
    (h : rawText x ++ '"' :: s = rawText x' ++ '"' :: s') :
    stringValue x = stringValue x' ∧ s = s' := by
  induction x generalizing x' with
  | nil =>
    cases x' with
    | nil => exact ⟨rfl, (List.cons.inj h).2⟩
    | cons c' x' =>
      obtain ⟨d, rest, htext, hd⟩ := c'.head_ne
      simp only [rawText, List.flatMap_nil, List.flatMap_cons, htext] at h
      exact absurd (List.cons.inj h).1.symm hd
  | cons c x ih =>
    cases x' with
    | nil =>
      obtain ⟨d, rest, htext, hd⟩ := c.head_ne
      simp only [rawText, List.flatMap_nil, List.flatMap_cons, htext] at h
      exact absurd (List.cons.inj h).1 hd
    | cons c' x' =>
      simp only [rawText, List.flatMap_cons, List.append_assoc] at h
      obtain ⟨hchar, hrest⟩ := StrChar.append_cancel h
      obtain ⟨hvalue, hs⟩ := ih hrest
      exact ⟨congrArg₂ List.cons hchar hvalue, hs⟩

theorem stringText_append_cancel {x x' : List StrChar}
    (h : stringText x ++ s = stringText x' ++ s') : stringValue x = stringValue x' ∧ s = s' := by
  refine rawText_append_cancel ?_
  simpa [stringText] using h

theorem Exponent.append_cancel {e e' : Exponent} (hs : Follows s) (hs' : Follows s')
    (h : e.text ++ s = e'.text ++ s') : e.value = e'.value ∧ s = s' := by
  have hsign : ∀ e : Exponent, ∀ c ∈ e.sign, (!c.isDigit) = true := by
    intro e c hc
    have hmem := e.sign_mem
    simp only [List.mem_cons, List.not_mem_nil, or_false] at hmem
    rcases hmem with hnil | hplus | hminus
    · rw [hnil] at hc
      cases hc
    · rw [hplus, List.mem_singleton] at hc
      rw [hc]
      rfl
    · rw [hminus, List.mem_singleton] at hc
      rw [hc]
      rfl
  have hdigits : ∀ (e : Exponent) (s : Text),
      ∀ c ∈ (e.digits ++ s).head?, (!c.isDigit) = false := by
    intro e s c hc
    obtain ⟨d, rest, hd⟩ := List.exists_cons_of_ne_nil e.digits_ne
    rw [hd] at hc
    obtain rfl := Option.some.inj hc
    rw [e.isDigit d (hd ▸ List.mem_cons_self)]
    rfl
  have hrest : e.sign ++ (e.digits ++ s) = e'.sign ++ (e'.digits ++ s') := by
    rw [Exponent.text, Exponent.text, List.cons_append, List.cons_append, List.append_assoc,
      List.append_assoc] at h
    exact (List.cons.inj h).2
  obtain ⟨hsame, hrest⟩ := append_cancel_of_head (hsign e) (hsign e') (hdigits e s) (hdigits e' s')
    hrest
  obtain ⟨heq, hrest⟩ := append_cancel_of_head e.isDigit e'.isDigit hs.not_isDigit hs'.not_isDigit
    hrest
  exact ⟨by rw [Exponent.value, Exponent.value, hsame, heq], hrest⟩

/-- The text of an exponent that may be missing. -/
def exponentText (e : Option Exponent) : Text := (e.map Exponent.text).getD []

theorem Exponent.letter_not_follows (e : Exponent) : ¬ Follows (e.text ++ s) := by
  intro h
  have hmem := e.letter_mem
  have hletter := h e.letter rfl
  simp only [List.mem_cons, List.not_mem_nil, or_false] at hmem
  rcases hmem with he | he <;> rw [he] at hletter <;> exact absurd hletter (by decide)

theorem exponentText_append_cancel {e e' : Option Exponent} (hs : Follows s) (hs' : Follows s')
    (h : exponentText e ++ s = exponentText e' ++ s') :
    e.map Exponent.value = e'.map Exponent.value ∧ s = s' := by
  cases e with
  | none =>
    cases e' with
    | none => exact ⟨rfl, h⟩
    | some e' => exact absurd (h ▸ hs : Follows (e'.text ++ s')) e'.letter_not_follows
  | some e =>
    cases e' with
    | none => exact absurd (h ▸ hs' : Follows (e.text ++ s)) e.letter_not_follows
    | some e' =>
      obtain ⟨hvalue, hrest⟩ := Exponent.append_cancel hs hs' h
      exact ⟨congrArg some hvalue, hrest⟩

theorem not_isDigit_exponentText (e : Option Exponent) (hs : Follows s) :
    ∀ c ∈ (exponentText e ++ s).head?, c.isDigit = false := by
  cases e with
  | none => exact hs.not_isDigit
  | some e =>
    intro c hc
    obtain rfl := Option.some.inj hc
    have hmem := e.letter_mem
    simp only [List.mem_cons, List.not_mem_nil, or_false] at hmem
    rcases hmem with he | he <;> rw [he] <;> rfl

theorem point_ne_exponentText (e : Option Exponent) (hs : Follows s) (rest : Text) :
    exponentText e ++ s ≠ '.' :: rest := by
  intro h
  cases e with
  | none =>
    have hpoint : s = '.' :: rest := h
    exact absurd (hs '.' (by rw [hpoint]; rfl)) (by decide)
  | some e =>
    have hmem := e.letter_mem
    rw [(List.cons.inj h).1] at hmem
    exact absurd hmem (by decide)

/-- What follows the integer of a number says where the number ends. -/
theorem Number.tail_append_cancel {n n' : Number} (hs : Follows s) (hs' : Follows s')
    (h : n.tail ++ s = n'.tail ++ s') : n.fraction = n'.fraction ∧
      n.exponent.map Exponent.value = n'.exponent.map Exponent.value ∧ s = s' := by
  have htail : ∀ (n : Number) (s : Text), n.tail ++ s =
      (if n.fraction = [] then [] else '.' :: n.fraction) ++ (exponentText n.exponent ++ s) :=
    fun n s => List.append_assoc ..
  rw [htail, htail] at h
  by_cases hf : n.fraction = []
  · rw [if_pos hf] at h
    by_cases hf' : n'.fraction = []
    · rw [if_pos hf'] at h
      exact ⟨hf.trans hf'.symm, exponentText_append_cancel hs hs' h⟩
    · rw [if_neg hf'] at h
      exact absurd h (point_ne_exponentText n.exponent hs _)
  · rw [if_neg hf] at h
    by_cases hf' : n'.fraction = []
    · rw [if_pos hf'] at h
      exact absurd h.symm (point_ne_exponentText n'.exponent hs' _)
    · rw [if_neg hf'] at h
      obtain ⟨hfraction, hrest⟩ := append_cancel_of_head n.isDigit n'.isDigit
        (not_isDigit_exponentText n.exponent hs) (not_isDigit_exponentText n'.exponent hs')
        (List.cons.inj h).2
      exact ⟨hfraction, exponentText_append_cancel hs hs' hrest⟩

theorem decimal_injective {m n : Nat} (h : decimal m = decimal n) : m = n := by
  have hvalue : ∀ n, Nat.ofDigitChars 10 (decimal n) 0 = n := fun n =>
    Nat.ofDigitChars_toDigits (by omega) (by omega)
  rw [← hvalue m, h, hvalue]

/-- A number ends at the first character that cannot belong to it. -/
theorem Number.append_cancel {n n' : Number} (hs : Follows s) (hs' : Follows s')
    (h : n.text ++ s = n'.text ++ s') : n.value = n'.value ∧ s = s' := by
  have hsign : ∀ n : Number, ∀ c ∈ (if n.negative then ['-'] else []), (c == '-') = true := by
    intro n c hc
    split_ifs at hc
    · rw [List.mem_singleton.mp hc]
      rfl
    · cases hc
  have hint : ∀ (n : Nat) (s : Text), ∀ c ∈ (decimal n ++ s).head?, (c == '-') = false := by
    intro n s c hc
    obtain ⟨d, rest, hdecimal, hd⟩ := decimal_eq_cons n
    rw [hdecimal] at hc
    obtain rfl := Option.some.inj hc
    refine beq_eq_false_iff_ne.mpr ?_
    rintro rfl
    exact absurd (hd _ List.mem_cons_self) (by decide)
  have hdigits : ∀ n, ∀ c ∈ decimal n, c.isDigit = true := fun n c hc =>
    Nat.isDigit_of_mem_toDigits (by omega) (by omega) hc
  simp only [text, List.append_assoc] at h
  obtain ⟨hnegative, h⟩ := append_cancel_of_head (hsign n) (hsign n') (hint _ _) (hint _ _) h
  obtain ⟨hdecimal, h⟩ := append_cancel_of_head (hdigits n.int) (hdigits n'.int)
    (n.not_isDigit_tail hs.not_isDigit) (n'.not_isDigit_tail hs'.not_isDigit) h
  obtain ⟨hfraction, hexponent, hrest⟩ := tail_append_cancel hs hs' h
  have hminus : n.negative = n'.negative := by
    have hmem : n.negative = true ↔ n'.negative = true := by
      split_ifs at hnegative with hn hn'
      · exact iff_of_true hn hn'
      · exact iff_of_false hn ‹_›
    exact Bool.eq_iff_iff.mpr hmem
  refine ⟨?_, hrest⟩
  rw [value, value, hminus, decimal_injective hdecimal, hfraction, hexponent]

inductive Shape where
  | null
  | bool
  | number
  | string
  | array
  | object
  deriving DecidableEq

/-- What begins with this character. -/
def shapeOf (c : Char) : Option Shape :=
  if c = 'n' then some .null
  else if c = 't' ∨ c = 'f' then some .bool
  else if c = '"' then some .string
  else if c = '[' then some .array
  else if c = '\x7b' then some .object
  else if c = '-' ∨ c.isDigit = true then some .number
  else none

def Json.shape : Json → Shape
  | .null => .null
  | .bool _ => .bool
  | .number _ => .number
  | .string _ => .string
  | .array _ _ => .array
  | .object _ _ => .object

theorem shapeOf_digit {c : Char} (h : c.isDigit = true) : shapeOf c = some .number := by
  have hne : ∀ d : Char, d.isDigit = false → c ≠ d := by
    rintro d hd rfl
    cases h.symm.trans hd
  rw [shapeOf, if_neg (hne _ rfl), if_neg (not_or.mpr ⟨hne _ rfl, hne _ rfl⟩), if_neg (hne _ rfl),
    if_neg (hne _ rfl), if_neg (hne _ rfl), if_pos (.inr h)]

/-- The first character of a value tells its shape. -/
theorem Json.text_eq_cons (j : Json) : ∃ c t, j.text = c :: t ∧ shapeOf c = some j.shape := by
  cases j with
  | null => exact ⟨'n', _, rfl, rfl⟩
  | bool b =>
    cases b with
    | true => exact ⟨'t', _, rfl, rfl⟩
    | false => exact ⟨'f', _, rfl, rfl⟩
  | number n =>
    obtain ⟨c, rest, hdecimal, hc⟩ := decimal_eq_cons n.int
    cases hn : n.negative with
    | true => exact ⟨'-', decimal n.int ++ n.tail, by simp [Json.text, Number.text, hn], rfl⟩
    | false =>
      exact ⟨c, rest ++ n.tail, by simp [Json.text, Number.text, hn, hdecimal],
        shapeOf_digit (hc c List.mem_cons_self)⟩
  | string x => exact ⟨'"', _, rfl, rfl⟩
  | array inner elems => exact ⟨'[', _, by rw [Json.text], rfl⟩
  | object inner members => exact ⟨'\x7b', _, by rw [Json.text], rfl⟩

/-- Values with the same text have the same shape. -/
theorem Json.shape_eq {j j' : Json} (h : j.text ++ s = j'.text ++ s') : j.shape = j'.shape := by
  obtain ⟨c, t, htext, hshape⟩ := j.text_eq_cons
  obtain ⟨c', t', htext', hshape'⟩ := j'.text_eq_cons
  rw [htext, htext'] at h
  rw [(List.cons.inj h).1] at hshape
  exact Option.some.inj (hshape.symm.trans hshape')

/-- No value begins with a character that has no shape. -/
theorem Json.head_ne {c : Char} (hc : shapeOf c = none) (j : Json) :
    j.text ++ s ≠ c :: t := by
  obtain ⟨d, rest, htext, hshape⟩ := j.text_eq_cons
  rw [htext]
  intro h
  rw [(List.cons.inj h).1, hc] at hshape
  cases hshape

theorem Json.solid (j : Json) (s : Text) : Solid (j.text ++ s) := by
  intro c hc hwhite
  refine j.head_ne (s := s) (t := (j.text ++ s).tail) (c := c) ?_ (List.eq_cons_of_mem_head? hc)
  simp only [List.mem_cons, List.not_mem_nil, or_false] at hwhite
  rcases hwhite with rfl | rfl | rfl | rfl <;> rfl

theorem solid_cons {c : Char} (hc : c ∉ [' ', '\t', '\n', '\r']) (s : Text) : Solid (c :: s) := by
  rintro d hd
  obtain rfl := Option.some.inj hd
  exact hc

/-- Behind an element comes a comma or the end. -/
theorem follows_more {close : Char} (hclose : close ∈ [']', '\x7d']) (last : Bool) (t s : Text) :
    Follows ((if last then [] else ',' :: t) ++ close :: s) := by
  intro c hc
  cases last with
  | true =>
    obtain rfl := Option.some.inj hc
    simp only [List.mem_cons, List.not_mem_nil, or_false] at hclose
    rcases hclose with rfl | rfl <;> decide
  | false =>
    obtain rfl := Option.some.inj hc
    decide

theorem solid_more {close : Char} (hclose : close ∈ [']', '\x7d']) (last : Bool) (t s : Text) :
    Solid ((if last then [] else ',' :: t) ++ close :: s) := by
  cases last with
  | true =>
    refine solid_cons ?_ s
    simp only [List.mem_cons, List.not_mem_nil, or_false] at hclose
    rcases hclose with rfl | rfl <;> decide
  | false => exact solid_cons (by decide) _

/-- Both lists end here or both go on. -/
theorem more_append_cancel {close : Char} (hclose : close ∈ [']', '\x7d']) {last last' : Bool}
    (h : (if last then [] else ',' :: t) ++ close :: s =
      (if last' then [] else ',' :: t') ++ close :: s') :
    last = true ∧ last' = true ∧ s = s' ∨
      last = false ∧ last' = false ∧ t ++ close :: s = t' ++ close :: s' := by
  have hcomma : close ≠ ',' := by
    rintro rfl
    exact absurd hclose (by decide)
  cases last with
  | true =>
    cases last' with
    | true => exact .inl ⟨rfl, rfl, (List.cons.inj h).2⟩
    | false => exact absurd (List.cons.inj h).1 hcomma
  | false =>
    cases last' with
    | true => exact absurd (List.cons.inj h).1.symm hcomma
    | false => exact .inr ⟨rfl, rfl, (List.cons.inj h).2⟩

theorem elemsText_cons (before : Gap) (value : Json) (after : Gap) (rest : List (Element Json))
    (s : Text) : elemsText (⟨before, value, after⟩ :: rest) ++ s = before.text ++ (value.text ++
      (after.text ++ ((if rest.isEmpty then [] else ',' :: elemsText rest) ++ s))) := by
  simp only [elemsText, List.append_assoc]

theorem objectText_cons (m : ObjectMember Json) (rest : List (ObjectMember Json)) (s : Text) :
    objectText (m :: rest) ++ s = m.beforeKey.text ++ (stringText m.key ++ (m.beforeColon.text ++
      ':' :: (m.beforeValue.text ++ (m.value.text ++ (m.afterValue.text ++
        ((if rest.isEmpty then [] else ',' :: objectText rest) ++ s)))))) := by
  obtain ⟨beforeKey, key, beforeColon, beforeValue, value, afterValue⟩ := m
  simp only [objectText, List.append_assoc, List.cons_append]

theorem gap_ne_elemsText (inner : Gap) {es : List (Element Json)} (hne : es ≠ []) :
    inner.text ++ ']' :: s ≠ elemsText es ++ t := by
  obtain ⟨⟨before, value, after⟩, rest, rfl⟩ := List.exists_cons_of_ne_nil hne
  rw [elemsText_cons]
  intro h
  exact value.head_ne rfl (Gap.append_cancel (solid_cons (by decide) s) (value.solid _) h).symm

theorem gap_ne_objectText (inner : Gap) {ms : List (ObjectMember Json)} (hne : ms ≠ []) :
    inner.text ++ '\x7d' :: s ≠ objectText ms ++ t := by
  obtain ⟨m, rest, rfl⟩ := List.exists_cons_of_ne_nil hne
  rw [objectText_cons]
  intro h
  cases Gap.append_cancel (solid_cons (by decide) s) (solid_cons (by decide) _) h

theorem Json.array_append (inner : Gap) (elems : List (Element Json)) (s : Text) :
    (Json.array inner elems).text ++ s =
      '[' :: ((if elems = [] then inner.text else elemsText elems) ++ ']' :: s) := by
  cases elems <;> simp [Json.text]

theorem Json.object_append (inner : Gap) (members : List (ObjectMember Json)) (s : Text) :
    (Json.object inner members).text ++ s =
      '\x7b' :: ((if members = [] then inner.text else objectText members) ++ '\x7d' :: s) := by
  cases members <;> simp [Json.text]

mutual

/-- A value ends at the first character that cannot belong to it. -/
theorem Json.append_cancel : ∀ (j j' : Json) (s s' : Text), Follows s → Follows s' →
    j.text ++ s = j'.text ++ s' → j.value = j'.value ∧ s = s'
  | .null, j', s, s', hs, hs', h => by
    cases j' with
    | null => exact ⟨rfl, List.append_cancel_left h⟩
    | _ => cases Json.shape_eq h
  | .bool b, j', s, s', hs, hs', h => by
    cases j' with
    | bool b' =>
      cases b <;> cases b'
      · exact ⟨rfl, List.append_cancel_left h⟩
      · cases (List.cons.inj h).1
      · cases (List.cons.inj h).1
      · exact ⟨rfl, List.append_cancel_left h⟩
    | _ => cases Json.shape_eq h
  | .number n, j', s, s', hs, hs', h => by
    cases j' with
    | number n' =>
      obtain ⟨hvalue, hrest⟩ := Number.append_cancel hs hs' h
      exact ⟨congrArg JsonValue.number hvalue, hrest⟩
    | _ => cases Json.shape_eq h
  | .string x, j', s, s', hs, hs', h => by
    cases j' with
    | string x' =>
      obtain ⟨hvalue, hrest⟩ := stringText_append_cancel h
      exact ⟨congrArg JsonValue.string hvalue, hrest⟩
    | _ => cases Json.shape_eq h
  | .array inner elems, j', s, s', hs, hs', h => by
    cases j' with
    | array inner' elems' =>
      rw [Json.array_append, Json.array_append] at h
      have h := (List.cons.inj h).2
      by_cases hne : elems = []
      · by_cases hne' : elems' = []
        · rw [if_pos hne, if_pos hne'] at h
          have hend := Gap.append_cancel (solid_cons (by decide) s) (solid_cons (by decide) s') h
          exact ⟨by rw [hne, hne']; rfl, (List.cons.inj hend).2⟩
        · rw [if_pos hne, if_neg hne'] at h
          exact absurd h (gap_ne_elemsText inner hne')
      · by_cases hne' : elems' = []
        · rw [if_neg hne, if_pos hne'] at h
          exact absurd h.symm (gap_ne_elemsText inner' hne)
        · rw [if_neg hne, if_neg hne'] at h
          obtain ⟨hvalues, hrest⟩ := elemsText_append_cancel elems elems' s s' hne hne' h
          exact ⟨congrArg JsonValue.array hvalues, hrest⟩
    | _ => cases Json.shape_eq h
  | .object inner members, j', s, s', hs, hs', h => by
    cases j' with
    | object inner' members' =>
      rw [Json.object_append, Json.object_append] at h
      have h := (List.cons.inj h).2
      by_cases hne : members = []
      · by_cases hne' : members' = []
        · rw [if_pos hne, if_pos hne'] at h
          have hend := Gap.append_cancel (solid_cons (by decide) s) (solid_cons (by decide) s') h
          exact ⟨by rw [hne, hne']; rfl, (List.cons.inj hend).2⟩
        · rw [if_pos hne, if_neg hne'] at h
          exact absurd h (gap_ne_objectText inner hne')
      · by_cases hne' : members' = []
        · rw [if_neg hne, if_pos hne'] at h
          exact absurd h.symm (gap_ne_objectText inner' hne)
        · rw [if_neg hne, if_neg hne'] at h
          obtain ⟨hvalues, hrest⟩ := objectText_append_cancel members members' s s' hne hne' h
          exact ⟨congrArg JsonValue.object hvalues, hrest⟩
    | _ => cases Json.shape_eq h

theorem elemsText_append_cancel : ∀ (es es' : List (Element Json)) (s s' : Text), es ≠ [] →
    es' ≠ [] → elemsText es ++ ']' :: s = elemsText es' ++ ']' :: s' →
    elemsValue es = elemsValue es' ∧ s = s'
  | [], es', s, s', hne, hne', h => absurd rfl hne
  | ⟨before, value, after⟩ :: rest, es', s, s', hne, hne', h => by
    obtain ⟨⟨before', value', after'⟩, rest', rfl⟩ := List.exists_cons_of_ne_nil hne'
    rw [elemsText_cons, elemsText_cons] at h
    have hclose : ']' ∈ [']', '\x7d'] := by decide
    obtain ⟨hvalue, h⟩ := value.append_cancel value' _ _ (after.follows (follows_more hclose _ _ _))
      (after'.follows (follows_more hclose _ _ _))
      (Gap.append_cancel (value.solid _) (value'.solid _) h)
    have hmore := Gap.append_cancel (solid_more hclose _ _ _) (solid_more hclose _ _ _) h
    rcases more_append_cancel hclose hmore with ⟨hlast, hlast', hs⟩ | ⟨hmany, hmany', hrest⟩
    · rw [List.isEmpty_iff.mp hlast, List.isEmpty_iff.mp hlast']
      exact ⟨congrArg (fun v => [v]) hvalue, hs⟩
    · obtain ⟨hvalues, hs⟩ := elemsText_append_cancel rest rest' s s'
        (List.isEmpty_eq_false_iff.mp hmany) (List.isEmpty_eq_false_iff.mp hmany') hrest
      exact ⟨congrArg₂ List.cons hvalue hvalues, hs⟩

theorem objectText_append_cancel : ∀ (ms ms' : List (ObjectMember Json)) (s s' : Text), ms ≠ [] →
    ms' ≠ [] → objectText ms ++ '\x7d' :: s = objectText ms' ++ '\x7d' :: s' →
    membersValue ms = membersValue ms' ∧ s = s'
  | [], ms', s, s', hne, hne', h => absurd rfl hne
  | ⟨beforeKey, key, beforeColon, beforeValue, value, afterValue⟩ :: rest, ms', s, s', hne, hne',
    h => by
    obtain ⟨m', rest', rfl⟩ := List.exists_cons_of_ne_nil hne'
    rw [objectText_cons, objectText_cons] at h
    dsimp only at h
    have hclose : '\x7d' ∈ [']', '\x7d'] := by decide
    obtain ⟨hkey, h⟩ := stringText_append_cancel
      (Gap.append_cancel (solid_cons (by decide) _) (solid_cons (by decide) _) h)
    have hcolon := Gap.append_cancel (solid_cons (by decide) _) (solid_cons (by decide) _) h
    obtain ⟨hvalue, h⟩ := value.append_cancel m'.value _ _
      (afterValue.follows (follows_more hclose _ _ _))
      (m'.afterValue.follows (follows_more hclose _ _ _))
      (Gap.append_cancel (value.solid _) (m'.value.solid _) (List.cons.inj hcolon).2)
    have hmore := Gap.append_cancel (solid_more hclose _ _ _) (solid_more hclose _ _ _) h
    have hmember : (stringValue key, value.value) = (stringValue m'.key, m'.value.value) :=
      Prod.ext hkey hvalue
    rcases more_append_cancel hclose hmore with ⟨hlast, hlast', hs⟩ | ⟨hmany, hmany', hrest⟩
    · rw [List.isEmpty_iff.mp hlast, List.isEmpty_iff.mp hlast']
      exact ⟨congrArg (fun v => [v]) hmember, hs⟩
    · obtain ⟨hvalues, hs⟩ := objectText_append_cancel rest rest' s s'
        (List.isEmpty_eq_false_iff.mp hmany) (List.isEmpty_eq_false_iff.mp hmany') hrest
      exact ⟨congrArg₂ List.cons hmember hvalues, hs⟩

end

/-- A JSON text says one thing only, in whatever way it is taken apart. -/
theorem Means.unique {v v' : JsonValue} (h : Means t v) (h' : Means t v') : v = v' := by
  obtain ⟨lead, j, trail, htext, rfl⟩ := h
  obtain ⟨lead', j', trail', htext', rfl⟩ := h'
  have hfollows : ∀ g : Gap, Follows g.text := fun g c hc =>
    List.mem_append_left [',', ']', '\x7d'] (g.white c (List.mem_of_mem_head? hc))
  rw [htext, List.append_assoc, List.append_assoc] at htext'
  have hvalues := Gap.append_cancel (j.solid _) (j'.solid _) htext'
  exact (j.append_cancel j' _ _ (hfollows trail) (hfollows trail') hvalues).1

end CppCan.Cli
