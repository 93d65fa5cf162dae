import CppCan.Core.Text
import Mathlib.Data.FinEnum
import Mathlib.Data.UInt
import Mathlib.Tactic.IntervalCases
import Mathlib.Tactic.SplitIfs

/-!
# Base64

Three bytes make four characters of six bits each; a shorter last group is padded.
The decoder collects six bits from each character of the alphabet, skips other
characters and stops at the padding. So it reads every valid text, and others as well.
-/

namespace CppCan.Cli

open CppCan.Core

def kAlpha : Text := "ABCDEFGHIJKLMNOPQRSTUVWXYZabcdefghijklmnopqrstuvwxyz0123456789+/".toList

/-- The character for six bits. -/
def alpha (v : UInt32) : Char := kAlpha.getD v.toNat '='

/-- The six bits a character stands for; none for -1. -/
def b64val (c : Char) : Option UInt32 :=
  if 'A' ≤ c ∧ c ≤ 'Z' then some (c.val - 'A'.val)
  else if 'a' ≤ c ∧ c ≤ 'z' then some (c.val - 'a'.val + 26)
  else if '0' ≤ c ∧ c ≤ '9' then some (c.val - '0'.val + 52)
  else if c = '+' then some 62
  else if c = '/' then some 63
  else none

/-- The bits of a group from bit `k` on. -/
def sextet (b : UInt32) (k : UInt32) : UInt32 := (b >>> k) &&& 0x3F

/-- A group of up to three bytes in one word. -/
def groupBits (b0 : UInt8) (b1 b2 : Option UInt8) : UInt32 :=
  b0.toUInt32 <<< 16 ||| (b1.getD 0).toUInt32 <<< 8 ||| (b2.getD 0).toUInt32

/-- The four characters of a group. -/
def encodeGroup (b0 : UInt8) (b1 b2 : Option UInt8) : Text :=
  let b := groupBits b0 b1 b2
  [alpha (sextet b 18), alpha (sextet b 12), if b1.isSome then alpha (sextet b 6) else '=',
    if b2.isSome then alpha (sextet b 0) else '=']

def base64Encode : List UInt8 → Text
  | [] => []
  | [b0] => encodeGroup b0 none none
  | [b0, b1] => encodeGroup b0 (some b1) none
  | b0 :: b1 :: b2 :: rest => encodeGroup b0 (some b1) (some b2) ++ base64Encode rest

/-- The decoder with `bits` bits collected in `accum`. -/
def decodeLoop : UInt32 → UInt32 → Text → List UInt8
  | _, _, [] => []
  | accum, bits, c :: s =>
    if c = '=' then []
    else
      match b64val c with
      | none => decodeLoop accum bits s
      | some v =>
        let accum := (accum <<< 6) ||| v
        let bits := bits + 6
        if bits ≥ 8 then
          ((accum >>> (bits - 8)) &&& 0xFF).toUInt8 :: decodeLoop accum (bits - 8) s
        else decodeLoop accum bits s

def base64Decode (s : Text) : List UInt8 := decodeLoop 0 0 s

/-- The characters of the alphabet are read back and none is the padding or a quotation mark. -/
theorem b64val_alpha_of_lt : ∀ n : Fin 64, b64val (alpha (UInt32.ofNat n)) = some (UInt32.ofNat n) ∧
    alpha (UInt32.ofNat n) ≠ '=' ∧ alpha (UInt32.ofNat n) ≠ '"' := by
  decide +kernel

theorem sextet_lt (b k : UInt32) : (sextet b k).toNat < 64 := by
  rw [sextet, UInt32.toNat_and]
  exact lt_of_le_of_lt Nat.and_le_right (by decide)

/-- Six bits are read back. -/
theorem b64val_alpha (b k : UInt32) : b64val (alpha (sextet b k)) = some (sextet b k) ∧
    alpha (sextet b k) ≠ '=' ∧ alpha (sextet b k) ≠ '"' := by
  simpa using b64val_alpha_of_lt ⟨_, sextet_lt b k⟩

variable {accum bits b k : UInt32} {s : Text}

/-- Six more bits that do not complete a byte. -/
theorem decodeLoop_collect (h : ¬ bits + 6 ≥ 8) :
    decodeLoop accum bits (alpha (sextet b k) :: s) =
      decodeLoop (accum <<< 6 ||| sextet b k) (bits + 6) s := by
  obtain ⟨hval, hpad, -⟩ := b64val_alpha b k
  rw [decodeLoop, if_neg hpad, hval]
  exact if_neg h

/-- Six more bits that complete a byte. -/
theorem decodeLoop_emit (h : bits + 6 ≥ 8) :
    decodeLoop accum bits (alpha (sextet b k) :: s) =
      (((accum <<< 6 ||| sextet b k) >>> (bits + 6 - 8)) &&& 0xFF).toUInt8 ::
        decodeLoop (accum <<< 6 ||| sextet b k) (bits + 6 - 8) s := by
  obtain ⟨hval, hpad, -⟩ := b64val_alpha b k
  rw [decodeLoop, if_neg hpad, hval]
  exact if_pos h

/-- The first two characters of a group hold its first byte. -/
theorem first_byte (a : UInt32) (b0 : UInt8) (b1 b2 : Option UInt8) :
    ((((a <<< 6 ||| sextet (groupBits b0 b1 b2) 18) <<< 6 |||
      sextet (groupBits b0 b1 b2) 12) >>> 4) &&& 0xFF).toUInt8 = b0 := by
  apply UInt8.toBitVec_inj.mp
  simp only [sextet, groupBits]
  ext i hi
  simp
  interval_cases i <;> simp

/-- The second and the third character hold the second byte. -/
theorem second_byte (a : UInt32) (b0 : UInt8) (b1 b2 : Option UInt8) :
    ((((a <<< 6 ||| sextet (groupBits b0 b1 b2) 12) <<< 6 |||
      sextet (groupBits b0 b1 b2) 6) >>> 2) &&& 0xFF).toUInt8 = b1.getD 0 := by
  apply UInt8.toBitVec_inj.mp
  simp only [sextet, groupBits]
  ext i hi
  simp
  interval_cases i <;> simp

/-- The last two characters hold the third byte. -/
theorem third_byte (a : UInt32) (b0 : UInt8) (b1 b2 : Option UInt8) :
    ((((a <<< 6 ||| sextet (groupBits b0 b1 b2) 6) <<< 6 |||
      sextet (groupBits b0 b1 b2) 0) >>> 0) &&& 0xFF).toUInt8 = b2.getD 0 := by
  apply UInt8.toBitVec_inj.mp
  simp only [sextet, groupBits]
  ext i hi
  simp
  interval_cases i <;> simp

/-- Decoding stops at the padding. -/
theorem decodeLoop_pad (accum bits : UInt32) (s : Text) :
    decodeLoop accum bits ('=' :: s) = [] := by
  rw [decodeLoop, if_pos rfl]

/-- The first byte of a group is decoded. -/
theorem decodeLoop_first (accum : UInt32) (b0 : UInt8) (b1 b2 : Option UInt8) (s : Text) :
    ∃ a : UInt32, decodeLoop accum 0 (alpha (sextet (groupBits b0 b1 b2) 18) ::
        alpha (sextet (groupBits b0 b1 b2) 12) :: s) =
      b0 :: decodeLoop (a <<< 6 ||| sextet (groupBits b0 b1 b2) 12) 4 s := by
  refine ⟨accum <<< 6 ||| sextet (groupBits b0 b1 b2) 18, ?_⟩
  rw [decodeLoop_collect (by decide), decodeLoop_emit (by decide)]
  exact congrArg₂ _ (first_byte accum b0 b1 b2) rfl

/-- A group of three bytes is decoded. -/
theorem decodeLoop_group (accum : UInt32) (b0 b1 b2 : UInt8) (s : Text) :
    ∃ a, decodeLoop accum 0 (encodeGroup b0 (some b1) (some b2) ++ s) =
      b0 :: b1 :: b2 :: decodeLoop a 0 s := by
  obtain ⟨a, ha⟩ := decodeLoop_first accum b0 (some b1) (some b2)
    (alpha (sextet (groupBits b0 (some b1) (some b2)) 6) ::
      alpha (sextet (groupBits b0 (some b1) (some b2)) 0) :: s)
  refine ⟨((a <<< 6 ||| sextet (groupBits b0 (some b1) (some b2)) 12) <<< 6 |||
    sextet (groupBits b0 (some b1) (some b2)) 6) <<< 6 |||
    sextet (groupBits b0 (some b1) (some b2)) 0, ha.trans ?_⟩
  rw [decodeLoop_emit (by decide)]
  refine congrArg _ (congrArg₂ _ (second_byte a b0 (some b1) (some b2)) ?_)
  exact (decodeLoop_emit (by decide)).trans (congrArg₂ _ (third_byte _ b0 (some b1) (some b2)) rfl)

/-- From any state at the start of a group the encoded bytes are read back. -/
theorem decodeLoop_base64Encode (accum : UInt32) (data : List UInt8) :
    decodeLoop accum 0 (base64Encode data) = data := by
  induction data using base64Encode.induct generalizing accum with
  | case1 => rfl
  | case2 b0 =>
    obtain ⟨a, ha⟩ := decodeLoop_first accum b0 none none ['=', '=']
    exact ha.trans (congrArg _ (decodeLoop_pad _ _ _))
  | case3 b0 b1 =>
    obtain ⟨a, ha⟩ := decodeLoop_first accum b0 (some b1) none
      [alpha (sextet (groupBits b0 (some b1) none) 6), '=']
    refine ha.trans (congrArg _ ?_)
    rw [decodeLoop_emit (by decide), decodeLoop_pad]
    exact congrArg₂ _ (second_byte a b0 (some b1) none) rfl
  | case4 b0 b1 b2 rest ih =>
    obtain ⟨a, ha⟩ := decodeLoop_group accum b0 b1 b2 (base64Encode rest)
    rw [base64Encode, ha, ih]

/-- Bytes of any number are read back from their text. -/
theorem base64_roundTrip (data : List UInt8) : base64Decode (base64Encode data) = data :=
  decodeLoop_base64Encode 0 data

/-- A group is written without quotation marks. -/
theorem quote_not_mem_encodeGroup (b0 : UInt8) (b1 b2 : Option UInt8) :
    '"' ∉ encodeGroup b0 b1 b2 := by
  have hne : ∀ k, '"' ≠ alpha (sextet (groupBits b0 b1 b2) k) := fun k =>
    (b64val_alpha _ k).2.2.symm
  simp only [encodeGroup, List.mem_cons, List.not_mem_nil, or_false, not_or]
  refine ⟨hne 18, hne 12, ?_, ?_⟩
  · split_ifs
    · exact hne 6
    · decide
  · split_ifs
    · exact hne 0
    · decide

/-- The encoder writes no quotation mark. -/
theorem quote_not_mem_base64Encode (data : List UInt8) : '"' ∉ base64Encode data := by
  induction data using base64Encode.induct with
  | case1 => simp [base64Encode]
  | case2 b0 => exact quote_not_mem_encodeGroup b0 none none
  | case3 b0 b1 => exact quote_not_mem_encodeGroup b0 (some b1) none
  | case4 b0 b1 b2 rest ih =>
    rw [base64Encode, List.mem_append, not_or]
    exact ⟨quote_not_mem_encodeGroup b0 (some b1) (some b2), ih⟩

/-- The byte that begins in the last `6 - k` bits of one character and ends in the first of the
next. -/
def byteOf (k v w : UInt32) : UInt8 := (v <<< (6 - k) ||| w >>> k).toUInt8

/-- A valid text with its bytes: groups of four characters, of which the last may be padded. Bits
of a padded group beyond its bytes do not matter. -/
inductive Base64 : Text → List UInt8 → Prop where
  | nil : Base64 [] []
  | one {c₁ c₂ : Char} {v₁ v₂ : UInt32} (h₁ : b64val c₁ = some v₁) (h₂ : b64val c₂ = some v₂) :
      Base64 [c₁, c₂, '=', '='] [byteOf 4 v₁ v₂]
  | two {c₁ c₂ c₃ : Char} {v₁ v₂ v₃ : UInt32} (h₁ : b64val c₁ = some v₁)
      (h₂ : b64val c₂ = some v₂) (h₃ : b64val c₃ = some v₃) :
      Base64 [c₁, c₂, c₃, '='] [byteOf 4 v₁ v₂, byteOf 2 v₂ v₃]
  | group {c₁ c₂ c₃ c₄ : Char} {v₁ v₂ v₃ v₄ : UInt32} {s : Text} {data : List UInt8}
      (h₁ : b64val c₁ = some v₁) (h₂ : b64val c₂ = some v₂) (h₃ : b64val c₃ = some v₃)
      (h₄ : b64val c₄ = some v₄) (hrest : Base64 s data) :
      Base64 (c₁ :: c₂ :: c₃ :: c₄ :: s)
        (byteOf 4 v₁ v₂ :: byteOf 2 v₂ v₃ :: byteOf 0 v₃ v₄ :: data)

/-- The number of characters of the alphabet before the padding. -/
def sextets : Text → Nat
  | [] => 0
  | c :: s => if c = '=' then 0 else if (b64val c).isSome then sextets s + 1 else sextets s

variable {c : Char} {v : UInt32} {data : List UInt8}

/-- A character of the alphabet has six bits. -/
theorem b64val_lt (h : b64val c = some v) : v.toNat < 64 := by
  have hsub : ∀ a z : Char, a ≤ c ∧ c ≤ z → (c.val - a.val).toNat ≤ z.toNat - a.toNat := by
    rintro a z ⟨ha, hz⟩
    rw [UInt32.toNat_sub_of_le _ _ ha]
    exact Nat.sub_le_sub_right (UInt32.le_iff_toNat_le.mp hz) _
  have hadd : ∀ {w k : UInt32}, w.toNat ≤ 25 → k.toNat ≤ 52 →
      (w + k).toNat = w.toNat + k.toNat := by
    intro w k hw hk
    rw [UInt32.toNat_add]
    omega
  unfold b64val at h
  split_ifs at h with hupper hlower hdigit hplus hslash
  · obtain rfl := Option.some.inj h
    exact Nat.lt_of_le_of_lt (hsub _ _ hupper) (by decide)
  · obtain rfl := Option.some.inj h
    have hle : (c.val - 'a'.val).toNat ≤ 25 := hsub _ _ hlower
    rw [hadd hle (by decide)]
    exact Nat.lt_of_le_of_lt (Nat.add_le_add_right hle _) (by decide)
  · obtain rfl := Option.some.inj h
    have hle : (c.val - '0'.val).toNat ≤ 9 := hsub _ _ hdigit
    rw [hadd (hle.trans (by decide)) (by decide)]
    exact Nat.lt_of_le_of_lt (Nat.add_le_add_right hle _) (by decide)
  · obtain rfl := Option.some.inj h
    decide
  · obtain rfl := Option.some.inj h
    decide

/-- The padding is no character of the alphabet. -/
theorem ne_pad_of_b64val (h : b64val c = some v) : c ≠ '=' := by
  rintro rfl
  cases h

/-- A character of the alphabet adds six bits to those collected. -/
theorem decodeLoop_cons (h : b64val c = some v) :
    decodeLoop accum bits (c :: s) =
      if bits + 6 ≥ 8 then
        (((accum <<< 6 ||| v) >>> (bits + 6 - 8)) &&& 0xFF).toUInt8 ::
          decodeLoop (accum <<< 6 ||| v) (bits + 6 - 8) s
      else decodeLoop (accum <<< 6 ||| v) (bits + 6) s := by
  rw [decodeLoop, if_neg (ne_pad_of_b64val h), h]

/-- The byte that a character completes. -/
theorem byte_eq {k : UInt32} (hk : k = 0 ∨ k = 2 ∨ k = 4) (a v w : UInt32) (hw : w.toNat < 64) :
    ((((a <<< 6 ||| v) <<< 6 ||| w) >>> k) &&& 0xFF).toUInt8 = byteOf k v w := by
  have hmask : w = w &&& 0x3F := by
    apply UInt32.toNat_inj.mp
    rw [UInt32.toNat_and]
    exact (Nat.and_two_pow_sub_one_of_lt_two_pow (n := 6) hw).symm
  rw [hmask]
  apply UInt8.toBitVec_inj.mp
  simp only [byteOf]
  rcases hk with rfl | rfl | rfl
  · ext i hi
    simp
    interval_cases i <;> simp
  · ext i hi
    simp
    interval_cases i <;> simp
  · ext i hi
    simp
    interval_cases i <;> simp

/-- The first two characters of a group complete its first byte. -/
theorem decodeLoop_two {c₁ c₂ : Char} {v₁ v₂ : UInt32} (h₁ : b64val c₁ = some v₁)
    (h₂ : b64val c₂ = some v₂) (a : UInt32) (s : Text) :
    ∃ a' : UInt32, decodeLoop a 0 (c₁ :: c₂ :: s) =
      byteOf 4 v₁ v₂ :: decodeLoop (a' <<< 6 ||| v₂) 4 s := by
  refine ⟨a <<< 6 ||| v₁, ?_⟩
  rw [decodeLoop_cons h₁, if_neg (by decide), decodeLoop_cons h₂, if_pos (by decide)]
  exact congrArg₂ _ (byte_eq (.inr (.inr rfl)) a v₁ v₂ (b64val_lt h₂)) rfl

/-- The third completes the second byte. -/
theorem decodeLoop_three {v w : UInt32} (h : b64val c = some w) (a : UInt32) (s : Text) :
    decodeLoop (a <<< 6 ||| v) 4 (c :: s) =
      byteOf 2 v w :: decodeLoop ((a <<< 6 ||| v) <<< 6 ||| w) 2 s := by
  rw [decodeLoop_cons h, if_pos (by decide)]
  exact congrArg₂ _ (byte_eq (.inr (.inl rfl)) a v w (b64val_lt h)) rfl

/-- The fourth completes the third byte. -/
theorem decodeLoop_four {v w : UInt32} (h : b64val c = some w) (a : UInt32) (s : Text) :
    decodeLoop (a <<< 6 ||| v) 2 (c :: s) =
      byteOf 0 v w :: decodeLoop ((a <<< 6 ||| v) <<< 6 ||| w) 0 s := by
  rw [decodeLoop_cons h, if_pos (by decide)]
  exact congrArg₂ _ (byte_eq (.inl rfl) a v w (b64val_lt h)) rfl

namespace Base64

variable {t : Text}

/-- A valid text is decoded to its bytes. -/
theorem decodeLoop_eq (h : Base64 t data) (a : UInt32) : decodeLoop a 0 t = data := by
  induction h generalizing a with
  | nil => rfl
  | one h₁ h₂ =>
    obtain ⟨a', ha⟩ := decodeLoop_two h₁ h₂ a ['=', '=']
    rw [ha, decodeLoop_pad]
  | two h₁ h₂ h₃ =>
    obtain ⟨a', ha⟩ := decodeLoop_two h₁ h₂ a _
    rw [ha, decodeLoop_three h₃, decodeLoop_pad]
  | group h₁ h₂ h₃ h₄ hrest ih =>
    obtain ⟨a', ha⟩ := decodeLoop_two h₁ h₂ a _
    rw [ha, decodeLoop_three h₃, decodeLoop_four h₄, ih]

/-- A valid text is made of characters of the alphabet and padding. -/
theorem alphabet_or_pad (h : Base64 t data) : ∀ c ∈ t, (b64val c).isSome = true ∨ c = '=' := by
  have hval : ∀ {c : Char} {v : UInt32}, b64val c = some v → (b64val c).isSome = true ∨ c = '=' :=
    fun hv => .inl (hv ▸ rfl)
  induction h with
  | nil => exact fun c hc => absurd hc List.not_mem_nil
  | one h₁ h₂ => simpa using ⟨hval h₁, hval h₂⟩
  | two h₁ h₂ h₃ => simpa using ⟨hval h₁, hval h₂, hval h₃⟩
  | group h₁ h₂ h₃ h₄ hrest ih =>
    simp only [List.forall_mem_cons]
    exact ⟨hval h₁, hval h₂, hval h₃, hval h₄, ih⟩

/-- What the encoder writes is valid. -/
theorem of_base64Encode (data : List UInt8) : Base64 (base64Encode data) data := by
  have hval : ∀ b k : UInt32, b64val (alpha (sextet b k)) = some (sextet b k) := fun b k =>
    (b64val_alpha b k).1
  have hfirst : ∀ (b0 : UInt8) (b1 b2 : Option UInt8), byteOf 4 (sextet (groupBits b0 b1 b2) 18)
      (sextet (groupBits b0 b1 b2) 12) = b0 := fun b0 b1 b2 =>
    (byte_eq (.inr (.inr rfl)) 0 _ _ (sextet_lt _ _)).symm.trans (first_byte 0 b0 b1 b2)
  have hsecond : ∀ (b0 b1 : UInt8) (b2 : Option UInt8),
      byteOf 2 (sextet (groupBits b0 (some b1) b2) 12)
        (sextet (groupBits b0 (some b1) b2) 6) = b1 :=
    fun b0 b1 b2 => (byte_eq (.inr (.inl rfl)) 0 _ _ (sextet_lt _ _)).symm.trans
      (second_byte 0 b0 (some b1) b2)
  have hthird : ∀ b0 b1 b2 : UInt8,
      byteOf 0 (sextet (groupBits b0 (some b1) (some b2)) 6)
        (sextet (groupBits b0 (some b1) (some b2)) 0) = b2 :=
    fun b0 b1 b2 => (byte_eq (.inl rfl) 0 _ _ (sextet_lt _ _)).symm.trans
      (third_byte 0 b0 (some b1) (some b2))
  induction data using base64Encode.induct with
  | case1 => exact .nil
  | case2 b0 =>
    have h := Base64.one (hval (groupBits b0 none none) 18) (hval (groupBits b0 none none) 12)
    rwa [hfirst] at h
  | case3 b0 b1 =>
    have h := Base64.two (hval (groupBits b0 (some b1) none) 18)
      (hval (groupBits b0 (some b1) none) 12) (hval (groupBits b0 (some b1) none) 6)
    rwa [hfirst, hsecond] at h
  | case4 b0 b1 b2 rest ih =>
    have h := Base64.group (hval (groupBits b0 (some b1) (some b2)) 18)
      (hval (groupBits b0 (some b1) (some b2)) 12) (hval (groupBits b0 (some b1) (some b2)) 6)
      (hval (groupBits b0 (some b1) (some b2)) 0) ih
    rwa [hfirst, hsecond, hthird] at h

end Base64

/-- One byte is decoded for every eight bits. -/
theorem length_decodeLoop (accum : UInt32) (hbits : bits.toNat < 8) (s : Text) :
    (decodeLoop accum bits s).length = (bits.toNat + 6 * sextets s) / 8 := by
  induction s generalizing accum bits with
  | nil =>
    rw [decodeLoop, sextets, List.length_nil]
    omega
  | cons c s ih =>
    have hsix : (bits + 6).toNat = bits.toNat + 6 := by
      rw [UInt32.toNat_add, show (6 : UInt32).toNat = 6 from rfl]
      exact Nat.mod_eq_of_lt (by omega)
    by_cases hpad : c = '='
    · rw [hpad, decodeLoop_pad, sextets, if_pos rfl, List.length_nil]
      omega
    · rw [sextets, if_neg hpad]
      cases hval : b64val c with
      | none =>
        rw [decodeLoop, if_neg hpad, hval]
        exact ih accum hbits
      | some v =>
        rw [decodeLoop_cons hval, Option.isSome_some, if_pos rfl]
        split_ifs with hge
        · have hle : 8 ≤ bits.toNat + 6 := hsix ▸ UInt32.le_iff_toNat_le.mp hge
          have hsub : (bits + 6 - 8).toNat = bits.toNat - 2 := by
            rw [UInt32.toNat_sub_of_le _ _ hge, hsix]
            rfl
          rw [List.length_cons, ih _ (by omega), hsub]
          omega
        · have hlt : bits.toNat + 6 < 8 := by
            rw [← hsix]
            exact UInt32.lt_iff_toNat_lt.mp (UInt32.not_le.mp hge)
          rw [ih _ (by omega), hsix]
          omega

end CppCan.Cli
