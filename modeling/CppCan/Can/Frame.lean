import CppCan.Core.Throws
import Mathlib.Data.UInt

/-!
# Frames, filters and validation

The frame record shared by every transport, the mask filter of subscriptions,
and the structural checks applied before a frame is transmitted. Checks are
made in the order of the source and keep its texts.
-/

namespace CppCan

def kCANMaxDataLen : UInt32 := 8
def kCANFDMaxDataLen : UInt32 := 64
def kCANXLMaxDataLen : UInt32 := 2048
def kCANMaxStdID : UInt32 := 0x7FF
def kCANMaxExtID : UInt32 := 0x1FFFFFFF

/-- A classic, FD or XL frame. -/
structure Frame where
  id : UInt32 := 0
  ext : Bool := false
  rtr : Bool := false
  fd : Bool := false
  brs : Bool := false
  data : List UInt8 := []
  esi : Bool := false
  xl : Bool := false
  sdt : UInt8 := 0
  vcid : UInt8 := 0
  af : UInt32 := 0
  sec : Bool := false
  deriving DecidableEq, Repr

/-- A subscription filter; a zero mask passes every frame. -/
structure Filter where
  id : UInt32 := 0
  mask : UInt32 := 0
  deriving DecidableEq, Repr

/-- The masked identifiers agree. -/
def Filter.isMatch (fl : Filter) (f : Frame) : Bool := f.id &&& fl.mask == fl.id &&& fl.mask

/-- A subscription without filters receives everything. -/
def matchesAny (filters : List Filter) (f : Frame) : Bool :=
  filters.isEmpty || filters.any (·.isMatch f)

/-- The data lengths a CAN FD length code can express. -/
def isCanonicalFdLen (len : Nat) : Bool :=
  len ≤ 8 || len ∈ [12, 16, 20, 24, 32, 48, 64]

/-- The reason a frame is structurally invalid. -/
structure ErrInvalidFrame where
  reason : String
  deriving DecidableEq, Repr

/-- The checks on CAN XL frames. -/
def validateXl (f : Frame) : Except ErrInvalidFrame Unit := do
  if f.ext then throw ⟨"CAN XL frame must not use extended ID"⟩
  if f.rtr then throw ⟨"CAN XL frame must not be RTR"⟩
  if f.brs then throw ⟨"CAN XL frame must not have BRS"⟩
  if f.id > kCANMaxStdID then throw ⟨"CAN XL priority ID exceeds 11 bits"⟩
  if f.data.isEmpty || f.data.length > kCANXLMaxDataLen.toNat then
    throw ⟨"CAN XL data must be 1–2048 bytes"⟩

/-- The checks on classic and FD frames. -/
def validateClassicOrFd (f : Frame) : Except ErrInvalidFrame Unit := do
  if f.ext && f.id > kCANMaxExtID then throw ⟨"extended ID exceeds 29 bits"⟩
  if !f.ext && f.id > kCANMaxStdID then throw ⟨"standard ID exceeds 11 bits"⟩
  if f.rtr && f.fd then throw ⟨"RTR frame cannot be CAN FD"⟩
  if f.rtr && !f.data.isEmpty then throw ⟨"RTR frame must not carry data"⟩
  if !f.fd && f.data.length > kCANMaxDataLen.toNat then
    throw ⟨"standard CAN frame data exceeds 8 bytes"⟩
  if f.fd && f.data.length > kCANFDMaxDataLen.toNat then
    throw ⟨"CAN FD frame data exceeds 64 bytes"⟩
  if f.fd && !isCanonicalFdLen f.data.length then
    throw ⟨"CAN FD data length is not a canonical DLC length " ++
      "(must be one of 0-8,12,16,20,24,32,48,64 bytes)"⟩
  if f.brs && !f.fd then throw ⟨"BRS requires fd=true"⟩
  if f.esi && !f.fd then throw ⟨"ESI requires fd=true"⟩

/-- Accept a frame or name the first constraint it violates. -/
def validateFrame (f : Frame) : Except ErrInvalidFrame Unit := do
  if f.fd && f.xl then throw ⟨"FD and XL are mutually exclusive"⟩
  if f.xl then validateXl f else validateClassicOrFd f

/-- The frame passes every check. -/
def Frame.Valid (f : Frame) : Prop := validateFrame f = .ok ()

instance (f : Frame) : Decidable f.Valid := inferInstanceAs (Decidable (_ = _))

/-- A check that is followed by others passes when its condition fails. -/
theorem check_eq_ok {ε α : Type} {p : Prop} [Decidable p] {e : ε} {k : Unit → Except ε α}
    {rest : Except ε α} {r : α} :
    (if p then (throw e >>= k) else rest) = .ok r ↔ ¬ p ∧ rest = .ok r := by
  by_cases hp : p
  · rw [if_pos hp]
    exact ⟨nofun, fun h => absurd hp h.1⟩
  · simp [hp]

/-- The last check passes when its condition fails. -/
theorem throw_eq_ok {ε : Type} {p : Prop} [Decidable p] {e : ε} :
    (if p then throw e else pure () : Except ε Unit) = .ok () ↔ ¬ p := by
  by_cases hp : p
  · rw [if_pos hp]
    exact ⟨nofun, fun h => absurd hp h⟩
  · rw [if_neg hp]
    exact ⟨fun _ => hp, fun _ => rfl⟩

/-- The constraints on classic and FD frames, in the order of the checks. -/
theorem Frame.valid_iff {f : Frame} (hxl : f.xl = false) : f.Valid ↔
    (f.ext = true → f.id ≤ kCANMaxExtID) ∧ (f.ext = false → f.id ≤ kCANMaxStdID) ∧
      (f.rtr = true → f.fd = false) ∧ (f.rtr = true → f.data = []) ∧
      (f.fd = false → f.data.length ≤ kCANMaxDataLen.toNat) ∧
      (f.fd = true → f.data.length ≤ kCANFDMaxDataLen.toNat) ∧
      (f.fd = true → isCanonicalFdLen f.data.length = true) ∧
      (f.brs = true → f.fd = true) ∧ (f.esi = true → f.fd = true) := by
  simp only [Frame.Valid, validateFrame, validateClassicOrFd, hxl, check_eq_ok, throw_eq_ok,
    Bool.and_false, Bool.false_eq_true, if_false]
  simp

/-- A valid classic or FD frame has an identifier in range. -/
theorem Frame.Valid.idRange {f : Frame} (hv : f.Valid) (hxl : f.xl = false) :
    (f.ext && f.id > kCANMaxExtID) = false ∧ (!f.ext && f.id > kCANMaxStdID) = false := by
  obtain ⟨hext, hstd, -⟩ := (Frame.valid_iff hxl).mp hv
  simpa using And.intro hext hstd

/-- A valid XL frame has an identifier of eleven bits. -/
theorem Frame.Valid.xlId {f : Frame} (hv : f.Valid) (hxl : f.xl = true) : f.id ≤ kCANMaxStdID := by
  simp only [Frame.Valid, validateFrame, validateXl, hxl, check_eq_ok, if_true] at hv
  exact UInt32.not_lt.mp hv.2.2.2.2.1

/-- The identifier of a valid frame has at most 29 bits. -/
theorem Frame.Valid.id_le {f : Frame} (hv : f.Valid) : f.id ≤ kCANMaxExtID := by
  have hmax : kCANMaxStdID ≤ kCANMaxExtID := by decide
  cases hxl : f.xl with
  | true => exact UInt32.le_trans (hv.xlId hxl) hmax
  | false =>
    obtain ⟨hext, hstd⟩ := hv.idRange hxl
    cases he : f.ext with
    | true => simpa [he] using hext
    | false => exact UInt32.le_trans (by simpa [he] using hstd) hmax

end CppCan
