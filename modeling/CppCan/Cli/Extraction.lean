import CppCan.Cli.Documents
import CppCan.Core.BitStreams

/-!
# What the readers make of a text

The readers search a text for a key and read on from there what they can. Here what they make of
it is described by the shape of the text alone: the integer that it begins with, the elements up
to the first that is no byte, the bits of a string up to its padding.
-/

namespace CppCan.Cli

open CppCan.Core

/-- The first key `id` with a colon behind it has an integer of at most 32 bits. -/
def HasId (s : Text) : Prop :=
  ∃ front rest v rest', FirstAt (keyPattern "id".toList) s front rest ∧
    BeginsWith rest v rest' ∧ v ≤ 0xFFFFFFFF

/-- What is left behind an element: blanks and a comma are passed over. -/
inductive Passes : Text → Text → Prop where
  | comma {blanks s : Text} (hblanks : ∀ c ∈ blanks, c ∈ [' ', '\t']) :
      Passes (blanks ++ ',' :: s) s
  | other {blanks s : Text} (hblanks : ∀ c ∈ blanks, c ∈ [' ', '\t'])
      (hs : ∀ c ∈ s.head?, c ∉ [' ', '\t', ',']) : Passes (blanks ++ s) s

/-- The elements that the text begins with, up to the first that is no integer or greater than
a byte. -/
inductive BytesAt : Text → List UInt8 → Prop where
  | stop {s : Text} (h : ∀ v rest, BeginsWith s v rest → 255 < v) : BytesAt s []
  | byte {s rest behind : Text} {b : UInt8} {data : List UInt8} (h : BeginsWith s b.toUInt64 rest)
      (hpass : Passes rest behind) (hbehind : BytesAt behind data) : BytesAt s (b :: data)

/-- The bits of the characters of the alphabet before the padding. -/
def textBits (s : Text) : List Bool :=
  ((s.takeWhile (· ≠ '=')).filterMap b64val).flatMap fun v => lowBits v.toNat 6

/-- The bits of the text are those of these bytes, but for the last few. -/
def Decodes (s : Text) (data : List UInt8) : Prop :=
  ∃ left : List Bool, left.length < 8 ∧ textBits s = bitStream data ++ left

/-- The bytes of a value on the line of its colon: the elements of an array, the bits of a string,
and none of anything else. -/
inductive Shows : Text → List UInt8 → Prop where
  | array {blanks s : Text} {data : List UInt8} (hblanks : ∀ c ∈ blanks, c ∈ [' ', '\t'])
      (h : BytesAt s data) : Shows (blanks ++ '[' :: s) data
  | string {blanks t rest : Text} {data : List UInt8} (hblanks : ∀ c ∈ blanks, c ∈ [' ', '\t'])
      (ht : '"' ∉ t) (h : Decodes t data) : Shows (blanks ++ '"' :: (t ++ '"' :: rest)) data
  | open {blanks t : Text} (hblanks : ∀ c ∈ blanks, c ∈ [' ', '\t']) (ht : '"' ∉ t) :
      Shows (blanks ++ '"' :: t) []
  | other {blanks s : Text} (hblanks : ∀ c ∈ blanks, c ∈ [' ', '\t'])
      (hs : ∀ c ∈ s.head?, c ∉ [' ', '\t', '[', '"']) : Shows (blanks ++ s) []

variable {s t blanks rest : Text} {data : List UInt8} {v : UInt64}

theorem skipBlanks_append (hblanks : ∀ c ∈ blanks, c ∈ [' ', '\t'])
    (hs : ∀ c ∈ s.head?, c ∉ [' ', '\t']) : skipBlanks (blanks ++ s) = s := by
  have hwhite : ∀ c ∈ blanks, c ∈ [' ', '\t', '\n', '\r'] := fun c hc =>
    List.mem_append_left ['\n', '\r'] (hblanks c hc)
  exact skipBlanks_of_inline (g := ⟨blanks, hwhite⟩) hblanks hs

/-- A text is its blanks and what is left without them. -/
theorem exists_blanks (s : Text) : ∃ blanks, (∀ c ∈ blanks, c ∈ [' ', '\t']) ∧
    s = blanks ++ skipBlanks s ∧ ∀ c ∈ (skipBlanks s).head?, c ∉ [' ', '\t'] := by
  refine ⟨s.takeWhile fun c => c ∈ [' ', '\t'], fun c hc => ?_, ?_, fun c hc => ?_⟩
  · exact of_decide_eq_true (List.all_eq_true.mp List.all_takeWhile c hc)
  · exact List.takeWhile_append_dropWhile.symm
  · have hhead := List.head?_dropWhile_not (fun c => decide (c ∈ [' ', '\t'])) s
    rw [skipBlanks] at hc
    rw [Option.mem_def.mp hc] at hhead
    simpa using hhead

theorem passes_iff : Passes s t ↔ skipComma s = t := by
  constructor
  · rintro (⟨hblanks⟩ | ⟨hblanks, hs⟩)
    · rw [skipComma, skipBlanks_append hblanks (by simp)]
      rfl
    · have hskip : ∀ c ∈ t.head?, c ∉ [' ', '\t'] := fun c hc h =>
        hs c hc (List.mem_append_left [','] h)
      rw [skipComma, skipBlanks_append hblanks hskip]
      split
      · exact absurd (hs ',' rfl) (by simp)
      · rfl
  · rintro rfl
    obtain ⟨blanks, hblanks, hs, hhead⟩ := exists_blanks s
    rw [skipComma]
    split
    · rename_i hcomma
      rw [hcomma] at hs
      exact hs ▸ .comma hblanks
    · rename_i hcomma
      have hpass := Passes.other hblanks (s := skipBlanks s) fun c hc => by
        have hne : c ≠ ',' := by
          rintro rfl
          obtain ⟨r, hr⟩ := List.head?_eq_some_iff.mp hc
          exact hcomma r hr
        have hblank := hhead c hc
        simp only [List.mem_cons, List.not_mem_nil, or_false] at hblank ⊢
        tauto
      rwa [← hs] at hpass

/-- An integer is read up to what follows it. -/
theorem strtoull_eq_some_iff {o : Bool} (h : strtoull s = some ⟨v, o, rest⟩) {w : UInt64}
    {t : Text} : BeginsWith s w t ↔ w = v ∧ t = rest := by
  constructor
  · intro hbegins
    obtain ⟨o', h'⟩ := strtoull_of_beginsWith hbegins
    obtain ⟨rfl, -, rfl⟩ := Numeral.mk.inj (Option.some.inj (h'.symm.trans h))
    exact ⟨rfl, rfl⟩
  · rintro ⟨rfl, rfl⟩
    exact beginsWith_of_strtoull h

theorem extractU32_id_isSome : (extractU32 s "id".toList).isSome = true ↔ HasId s := by
  have hpattern : keyPattern "id".toList ≠ [] := List.cons_ne_nil _ _
  have hread : ∀ rest, (findAfter (keyPattern "id".toList) s = some rest) →
      extractU32 s "id".toList = (strtoull rest).bind fun n =>
        if n.value > 0xFFFFFFFF then none else some n.value.toUInt32 := by
    intro rest hfind
    rw [extractU32, valueOf, hfind, ← strtoull_skipBlanks rest]
    rfl
  rcases findAfter_spec hpattern s with ⟨front, rest, hfind, hfirst⟩ | ⟨hfind, hnone⟩
  · rw [hread rest hfind]
    constructor
    · intro h
      cases hnum : strtoull rest with
      | none => simp [hnum] at h
      | some n =>
        refine ⟨front, rest, n.value, n.rest, hfirst, beginsWith_of_strtoull hnum, ?_⟩
        by_contra hbig
        simp [hnum, UInt64.not_le.mp hbig] at h
    · rintro ⟨front', rest', v, behind, hfirst', hbegins, hle⟩
      obtain rfl := (hfirst.unique hfirst').2
      obtain ⟨o, hnum⟩ := strtoull_of_beginsWith hbegins
      simp [hnum, UInt64.not_lt.mpr hle]
  · have hread : extractU32 s "id".toList = none := by
      rw [extractU32, valueOf, hfind]
      rfl
    rw [hread]
    constructor
    · intro h
      cases h
    · rintro ⟨front, rest, v, behind, hfirst, -⟩
      exact absurd hfirst.1 (hnone front rest)

theorem length_skipComma_le (s : Text) : (skipComma s).length ≤ s.length := by
  have hpass : Passes s (skipComma s) := passes_iff.mpr rfl
  generalize skipComma s = t at hpass
  cases hpass with
  | comma =>
    simp only [List.length_append, List.length_cons]
    omega
  | other =>
    rw [List.length_append]
    omega

/-- The loop reads the elements that the text begins with. -/
theorem bytesAt_iff {rounds : Nat} (hrounds : s.length ≤ rounds) :
    BytesAt s data ↔ bytesLoop rounds s = data := by
  constructor
  · intro h
    induction h generalizing rounds with
    | @stop s h =>
      cases rounds with
      | zero => rfl
      | succ rounds =>
        rw [bytesLoop_succ]
        cases hnum : strtoull s with
        | none => rfl
        | some n => exact if_pos (h _ _ (beginsWith_of_strtoull hnum))
    | @byte s rest behind b data h hpass hbehind ih =>
      have hlt := h.length_lt
      obtain ⟨rounds, rfl⟩ : ∃ r, rounds = r + 1 := ⟨rounds - 1, by omega⟩
      obtain ⟨o, hnum⟩ := strtoull_of_beginsWith h
      have hskip := passes_iff.mp hpass
      have hle := length_skipComma_le rest
      have hbyte : ¬ b.toUInt64 > 255 := by
        rw [gt_iff_lt, UInt64.lt_iff_toNat_lt, UInt8.toNat_toUInt64]
        have := b.toNat_lt
        exact Nat.not_lt.mpr (Nat.le_of_lt_succ this)
      rw [bytesLoop_succ, hnum]
      dsimp only
      rw [if_neg hbyte, hskip, UInt8.toUInt8_toUInt64, ih (by rw [← hskip]; omega)]
  · rintro rfl
    induction rounds generalizing s with
    | zero =>
      obtain rfl := List.eq_nil_of_length_eq_zero (Nat.le_zero.mp hrounds)
      refine .stop fun v rest h => ?_
      exact absurd h.length_lt (Nat.not_lt_zero _)
    | succ rounds ih =>
      rw [bytesLoop_succ]
      cases hnum : strtoull s with
      | none =>
        refine .stop fun v rest h => ?_
        obtain ⟨o, hsome⟩ := strtoull_of_beginsWith h
        cases hnum.symm.trans hsome
      | some n =>
        have hbegins := beginsWith_of_strtoull hnum
        dsimp only
        split_ifs with hbig
        · refine .stop fun v rest h => ?_
          rw [((strtoull_eq_some_iff hnum).mp h).1]
          exact hbig
        · have hlt := hbegins.length_lt
          have hle := length_skipComma_le n.rest
          have hvalue : n.value.toUInt8.toUInt64 = n.value := by
            have hsmall := UInt64.le_iff_toNat_le.mp (UInt64.not_lt.mp hbig)
            apply UInt64.toNat_inj.mp
            rw [UInt8.toNat_toUInt64, UInt64.toNat_toUInt8]
            exact Nat.mod_eq_of_lt (Nat.lt_succ_of_le hsmall)
          exact .byte (hvalue.symm ▸ hbegins) (passes_iff.mpr rfl) (ih (by omega))

variable {accum bits w : UInt32} {c : Char}

theorem textBits_pad (s : Text) : textBits ('=' :: s) = [] := rfl

theorem textBits_skip (hc : c ≠ '=') (h : b64val c = none) : textBits (c :: s) = textBits s := by
  simp [textBits, hc, h]

theorem textBits_cons (h : b64val c = some w) :
    textBits (c :: s) = lowBits w.toNat 6 ++ textBits s := by
  simp [textBits, ne_pad_of_b64val h, h]

/-- Six bits are added behind the collected ones. -/
theorem lowBits_collect (accum : UInt32) (hbits : bits.toNat < 8) (hw : w.toNat < 64) :
    lowBits (accum <<< 6 ||| w).toNat (bits.toNat + 6) =
      lowBits accum.toNat bits.toNat ++ lowBits w.toNat 6 := by
  have hbit : ∀ k, k < 32 → (accum <<< 6 ||| w).toNat.testBit k =
      (decide (6 ≤ k) && accum.toNat.testBit (k - 6) || w.toNat.testBit k) := by
    intro k hk
    have hsix : (6 : UInt32).toNat % 32 = 6 := rfl
    rw [UInt32.toNat_or, Nat.testBit_or, UInt32.toNat_shiftLeft, Nat.testBit_mod_two_pow, hsix,
      Nat.testBit_shiftLeft, decide_eq_true hk, Bool.true_and]
  rw [lowBits_add]
  congr 1
  · refine lowBits_congr fun i hi => ?_
    have hhigh : w.toNat.testBit (i + 6) = false :=
      Nat.testBit_lt_two_pow (hw.trans_le (Nat.pow_le_pow_right (n := 2) Nat.two_pos
        (Nat.le_add_left 6 i)))
    rw [Nat.testBit_div_two_pow, hbit _ (by omega), hhigh, Bool.or_false, Nat.add_sub_cancel,
      decide_eq_true (Nat.le_add_left 6 i), Bool.true_and]
  · refine lowBits_congr fun i hi => ?_
    rw [hbit _ (by omega), decide_eq_false (Nat.not_le.mpr hi), Bool.false_and, Bool.false_or]

/-- The highest eight of the collected bits make a byte. -/
theorem lowBits_emit (hbits : 8 ≤ bits.toNat) (hlt : bits.toNat < 32) :
    lowBits accum.toNat bits.toNat = bitsMsb ((accum >>> (bits - 8)) &&& 0xFF).toUInt8 ++
      lowBits accum.toNat (bits - 8).toNat := by
  have hsub : (bits - 8).toNat = bits.toNat - 8 := UInt32.toNat_sub_of_le _ _ hbits
  have hsplit : bits.toNat = 8 + (bits - 8).toNat := by omega
  conv_lhs => rw [hsplit, lowBits_add]
  rw [bitsMsb_eq]
  refine congrArg (· ++ _) (lowBits_congr fun i hi => ?_)
  have hmask : (0xFF : UInt32).toNat.testBit i = true := by
    interval_cases i <;> rfl
  have hmod : (bits - 8).toNat % 32 = (bits - 8).toNat := Nat.mod_eq_of_lt (by omega)
  rw [UInt32.toNat_toUInt8, Nat.testBit_mod_two_pow, UInt32.toNat_and, Nat.testBit_and, hmask,
    UInt32.toNat_shiftRight, hmod, Nat.testBit_shiftRight, Nat.testBit_div_two_pow,
    decide_eq_true hi, Bool.true_and, Bool.and_true, Nat.add_comm]

/-- The decoder turns the bits collected and those of the text into bytes. -/
theorem decodeLoop_bits (accum : UInt32) (hbits : bits.toNat < 8) (s : Text) :
    ∃ left : List Bool, left.length < 8 ∧ lowBits accum.toNat bits.toNat ++ textBits s =
      bitStream (decodeLoop accum bits s) ++ left := by
  have hlast : (lowBits accum.toNat bits.toNat).length < 8 := by
    rwa [lowBits, List.length_map, List.length_range]
  induction s generalizing accum bits with
  | nil => exact ⟨_, hlast, List.append_nil _⟩
  | cons c s ih =>
    by_cases hpad : c = '='
    · rw [hpad, decodeLoop_pad, textBits_pad]
      exact ⟨_, hlast, List.append_nil _⟩
    · cases hval : b64val c with
      | none =>
        have hskip : decodeLoop accum bits (c :: s) = decodeLoop accum bits s := by
          rw [decodeLoop, if_neg hpad, hval]
        rw [hskip, textBits_skip hpad hval]
        exact ih accum hbits hlast
      | some w =>
        have hsum : (bits + 6).toNat = bits.toNat + 6 := by
          rw [UInt32.toNat_add]
          exact Nat.mod_eq_of_lt (Nat.lt_trans (Nat.add_lt_add_right hbits 6) (by decide))
        have hcollect := lowBits_collect accum hbits (b64val_lt hval)
        rw [← hsum] at hcollect
        rw [decodeLoop_cons hval, textBits_cons hval, ← List.append_assoc, ← hcollect]
        split_ifs with hemit
        · have hge : 8 ≤ (bits + 6).toNat := UInt32.le_iff_toNat_le.mp hemit
          have hsub : (bits + 6 - 8).toNat = (bits + 6).toNat - 8 := UInt32.toNat_sub_of_le _ _ hge
          have hshort : (lowBits (accum <<< 6 ||| w).toNat (bits + 6 - 8).toNat).length < 8 := by
            rw [lowBits, List.length_map, List.length_range]
            omega
          obtain ⟨left, hleft, hstream⟩ := ih (accum <<< 6 ||| w) (by omega) hshort
          refine ⟨left, hleft, ?_⟩
          rw [lowBits_emit hge (by omega), List.append_assoc, hstream, bitStream, bitStream,
            List.flatMap_cons, List.append_assoc]
        · have hlt : ¬ 8 ≤ (bits + 6).toNat := fun h => hemit (UInt32.le_iff_toNat_le.mpr h)
          refine ih (accum <<< 6 ||| w) (by omega) ?_
          rw [lowBits, List.length_map, List.length_range]
          omega

/-- The decoder reads the bits of the characters before the padding. -/
theorem decodes_iff : Decodes s data ↔ base64Decode s = data := by
  obtain ⟨left, hleft, hstream⟩ := decodeLoop_bits 0 (show (0 : UInt32).toNat < 8 by decide) s
  constructor
  · rintro ⟨left', hleft', hdata⟩
    exact bitStream_append_inj hleft hleft' (hstream.symm.trans hdata)
  · rintro rfl
    exact ⟨left, hleft, hstream⟩

/-- What is read behind the colon of a payload. -/
def bytesBehind (s : Text) : Option (List UInt8) :=
  match skipBlanks s with
  | '"' :: v => (cutAt '"' v).map fun (data, _) => base64Decode data
  | '[' :: v => some (bytesLoop v.length v)
  | _ => none

theorem extractBytes_eq (s key : Text) :
    extractBytes s key = (findAfter (keyPattern key) s).bind bytesBehind := by
  rw [extractBytes, valueOf]
  cases findAfter (keyPattern key) s <;> rfl

/-- The reader finds the bytes that stand there. -/
theorem shows_iff : Shows s data ↔ (bytesBehind s).getD [] = data := by
  constructor
  · rintro (⟨hblanks, h⟩ | ⟨hblanks, ht, h⟩ | ⟨hblanks, ht⟩ | ⟨hblanks, hs⟩)
    · rw [bytesBehind, skipBlanks_append hblanks (by simp)]
      exact (bytesAt_iff (Nat.le_refl _)).mp h
    · rw [bytesBehind, skipBlanks_append hblanks (by simp)]
      simp only [cutAt_append _ ht, Option.map_some, Option.getD_some]
      exact decodes_iff.mp h
    · rw [bytesBehind, skipBlanks_append hblanks (by simp)]
      simp [cutAt_of_not_mem ht]
    · rw [bytesBehind, skipBlanks_append hblanks fun c hc h => hs c hc (List.mem_append_left _ h)]
      split
      · exact absurd (hs '"' rfl) (by simp)
      · exact absurd (hs '[' rfl) (by simp)
      · rfl
  · rintro rfl
    obtain ⟨blanks, hblanks, hs, hhead⟩ := exists_blanks s
    rw [bytesBehind]
    split
    · rename_i v hv
      rw [hv] at hs
      rw [hs]
      by_cases hquote : '"' ∈ v
      · obtain ⟨t, rest, rfl, ht⟩ := List.eq_append_cons_of_mem hquote
        rw [cutAt_append _ ht]
        exact .string hblanks ht (decodes_iff.mpr rfl)
      · rw [cutAt_of_not_mem hquote]
        exact .open hblanks hquote
    · rename_i v hv
      rw [hv] at hs
      rw [hs]
      exact .array hblanks ((bytesAt_iff (Nat.le_refl _)).mpr rfl)
    · rename_i hstring harray
      rw [hs]
      refine .other hblanks fun c hc => ?_
      have hblank := hhead c hc
      obtain ⟨r, hr⟩ := List.head?_eq_some_iff.mp hc
      have hbracket : c ≠ '[' := fun h => harray r (h ▸ hr)
      have hquote : c ≠ '"' := fun h => hstring r (h ▸ hr)
      simp only [List.mem_cons, List.not_mem_nil, or_false] at hblank ⊢
      tauto

end CppCan.Cli
