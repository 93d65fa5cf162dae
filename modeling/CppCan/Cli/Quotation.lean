import CppCan.Cli.Chain

/-!
# Quotation marks in messages

The writer puts texts between quotation marks as they are, and the reader takes every
text up to the next quotation mark. What is read therefore holds none, and a message is
read back exactly if its texts hold none. Any other character comes back.
-/

namespace CppCan.Cli

open CppCan.Core CppCan.Relay

variable {m : Message} {json s key t k v rest : Text} {md : Meta}

/-- The text before the first quotation mark holds none. -/
theorem quote_not_mem_of_cutAt (h : cutAt '"' s = some (t, rest)) : '"' ∉ t := by
  induction s generalizing t rest with
  | nil => cases h
  | cons c s ih =>
    unfold cutAt at h
    split at h
    · obtain ⟨rfl, -⟩ := Prod.mk.inj (Option.some.inj h)
      exact List.not_mem_nil
    · rename_i hc
      obtain ⟨⟨t', rest'⟩, hcut, heq⟩ := Option.map_eq_some_iff.mp h
      obtain ⟨rfl, -⟩ := Prod.mk.inj heq
      rw [List.mem_cons, not_or]
      exact ⟨fun hq => hc hq.symm, ih hcut⟩

/-- A text that is extracted holds no quotation mark. -/
theorem quote_not_mem_of_extractString (h : extractString s key = some t) : '"' ∉ t := by
  obtain ⟨value, -, h⟩ := Option.bind_eq_some_iff.mp h
  split at h
  · obtain ⟨⟨t', rest⟩, hcut, rfl⟩ := Option.map_eq_some_iff.mp h
    exact quote_not_mem_of_cutAt hcut
  · cases h

/-- An entry that is read holds no quotation marks. -/
theorem plain_of_readEntry (h : readEntry s = some (k, v, rest)) : '"' ∉ k ∧ '"' ∉ v := by
  unfold readEntry at h
  split at h
  · obtain ⟨⟨key, s'⟩, hkey, h⟩ := Option.bind_eq_some_iff.mp h
    dsimp only at h
    split at h
    · split at h
      · obtain ⟨⟨value, s''⟩, hvalue, heq⟩ := Option.map_eq_some_iff.mp h
        obtain ⟨rfl, hrest⟩ := Prod.mk.inj heq
        obtain ⟨rfl, -⟩ := Prod.mk.inj hrest
        exact ⟨quote_not_mem_of_cutAt hkey, quote_not_mem_of_cutAt hvalue⟩
      · cases h
    · cases h
  · cases h

/-- The entries of an object that is read hold no quotation marks. -/
theorem plainEntries_mapLoop (rounds : Nat) (h : PlainEntries md.entries) :
    PlainEntries (mapLoop rounds md s).entries := by
  induction rounds generalizing md s with
  | zero => exact h
  | succ rounds ih =>
    rw [mapLoop]
    cases hread : readEntry s with
    | none => exact h
    | some entry =>
      obtain ⟨k, v, rest⟩ := entry
      obtain ⟨hk, hv⟩ := plain_of_readEntry hread
      exact ih (h.insert hk hv)

/-- Metadata that are extracted hold no quotation marks. -/
theorem plainEntries_of_extractStringMap (h : extractStringMap s key = some md) :
    PlainEntries md.entries := by
  obtain ⟨value, -, h⟩ := Option.bind_eq_some_iff.mp h
  split at h
  · obtain rfl := Option.some.inj h
    exact plainEntries_mapLoop _ fun e he => absurd he List.not_mem_nil
  · cases h

/-- Whatever text is parsed, the texts of the message hold no quotation marks. -/
theorem plainTexts_of_parse (h : parseMessageJson json = .ok m) : PlainTexts m := by
  unfold parseMessageJson at h
  dsimp only at h
  split at h
  · rw [ok_bind] at h
    split at h
    · rename_i hid
      obtain rfl := Except.ok.inj h
      refine ⟨quote_not_mem_of_extractString hid, ?_⟩
      dsimp only
      cases hmap : extractStringMap json "meta".toList with
      | none => exact fun e he => absurd he List.not_mem_nil
      | some md => exact plainEntries_of_extractStringMap hmap
    · cases h
  · cases h

/-- The entries of metadata that agree with plain ones are plain. -/
theorem PlainEntries.of_lookup {md' : Meta} (h : PlainEntries md.entries)
    (heq : ∀ key, md.lookup key = md'.lookup key) : PlainEntries md'.entries := by
  intro e he
  have hlookup : md'.lookup e.1 = some e.2 := AList.mem_lookup_iff.mpr he
  exact h e (AList.mem_lookup_iff.mp ((heq e.1).trans hlookup))

/-- Writing the message and reading the text gives back all that is written of it but
its version. -/
def ReadBack (m : Message) : Prop :=
  ∃ m', parseMessageJson (messageToJson m) = .ok m' ∧ m'.protocol = m.protocol ∧ m'.id = m.id ∧
    m'.payload = m.payload ∧ m'.seq = m.seq ∧
    ∀ key, m'.metadata.lookup key = m.metadata.lookup key

/-- A message is read back if and only if its texts hold no quotation marks. -/
theorem readBack_iff (m : Message) (hproto : 0 ≤ m.protocol.value.toInt) :
    ReadBack m ↔ PlainTexts m := by
  constructor
  · rintro ⟨m', hparse, -, hid, -, -, hlookup⟩
    have hplain := plainTexts_of_parse hparse
    exact ⟨hid ▸ hplain.id, hplain.entries.of_lookup hlookup⟩
  · intro h
    obtain ⟨metadata, hlookup, hparse⟩ := parseMessageJson_messageToJson h hproto
    exact ⟨_, hparse, rfl, rfl, rfl, rfl, hlookup⟩

/-- The texts of this message hold backslashes and colons. -/
theorem readBack_iff_backslash :
    ReadBack { protocol := .CAN, id := "\\x\\:".toList, payload := [0xAB], seq := 7 } ↔
      PlainTexts { protocol := .CAN, id := "\\x\\:".toList, payload := [0xAB], seq := 7 } :=
  readBack_iff _ (by decide)

/-- An identifier with a quotation mark is read up to it. -/
theorem not_readBack :
    ¬ ∀ m : Message, 0 ≤ m.protocol.value.toInt → m.version = {} → m.timestamp = 0 →
      ReadBack m := by
  intro h
  obtain ⟨m', hparse, -, hid, -⟩ :=
    h { protocol := .CAN, id := "a\"b".toList } (by decide) rfl rfl
  have hplain := (plainTexts_of_parse hparse).id
  rw [hid] at hplain
  exact absurd hplain (by decide)

end CppCan.Cli
