import CppCan.Core.Fields
import CppCan.SocketCan.Bus
import CppCan.SocketCan.Codec

/-!
# What the reader makes of kernel frames

The flags of an identifier lie outside its mask, so a frame that may be sent comes back
from its kernel frame as it was. The reader masks identifiers and cuts lengths down to
what a frame may have, whatever it reads. It does not look at the data of a remote frame
nor for lengths that no length code expresses.
-/

namespace CppCan.SocketCan

open CppCan.Core

variable {f : Frame} {id mask : UInt32}

theorem and_sff_mask (h : id ≤ kCANMaxStdID) : id &&& CAN_SFF_MASK = id :=
  and_mask_of_le (k := 11) rfl h

theorem and_eff_mask (h : id ≤ kCANMaxExtID) : id &&& CAN_EFF_MASK = id :=
  and_mask_of_le (k := 29) rfl h

/-- The word that `send` makes of an identifier. -/
def idWord (f : Frame) : UInt32 :=
  let id := if f.ext then f.id ||| CAN_EFF_FLAG else f.id
  if f.rtr then id ||| CAN_RTR_FLAG else id

theorem idWord_eff (h : f.id ≤ kCANMaxExtID) : (idWord f &&& CAN_EFF_FLAG != 0) = f.ext := by
  have hclear : f.id &&& CAN_EFF_FLAG = 0 := and_flag_of_and_mask rfl (and_eff_mask h)
  unfold idWord
  cases f.ext <;> cases f.rtr <;> simp [or_and, hclear] <;> decide

theorem idWord_rtr (h : f.id ≤ kCANMaxExtID) : (idWord f &&& CAN_RTR_FLAG != 0) = f.rtr := by
  have hclear : f.id &&& CAN_RTR_FLAG = 0 := and_flag_of_and_mask rfl (and_eff_mask h)
  unfold idWord
  cases f.ext <;> cases f.rtr <;> simp [or_and, hclear] <;> decide

/-- No flag is left under a mask. -/
theorem idWord_and (heff : CAN_EFF_FLAG &&& mask = 0) (hrtr : CAN_RTR_FLAG &&& mask = 0)
    (h : f.id &&& mask = f.id) : idWord f &&& mask = f.id := by
  unfold idWord
  cases f.ext <;> cases f.rtr <;> simp [or_and, heff, hrtr, h]

/-- The mask that the flag asks for gives back the identifier of a valid frame. -/
theorem idWord_id (hv : f.Valid) (hxl : f.xl = false) :
    idWord f &&& (if f.ext then CAN_EFF_MASK else CAN_SFF_MASK) = f.id := by
  obtain ⟨hext, hstd, -⟩ := (Frame.valid_iff hxl).mp hv
  cases he : f.ext with
  | true => exact idWord_and rfl rfl (and_eff_mask (hext he))
  | false => exact idWord_and rfl rfl (and_sff_mask (hstd he))

/-- A field holds the data that was copied to its front. -/
theorem take_copyData {n : Nat} {data : List UInt8} (h : data.length ≤ n) :
    (copyData n data).toList.take data.length = data := by
  apply List.ext_getElem
  · simpa using h
  · intro i hi hi'
    simp [copyData, List.getD_eq_getElem?_getD, hi']

/-- A length within the bound is not cut down. -/
theorem toNat_clamp {n : Nat} {max : UInt32} (hmax : max.toNat < 256) (h : n ≤ max.toNat) :
    (if (UInt8.ofNat n).toUInt32 > max then max.toUInt8 else .ofNat n).toNat = n := by
  have hn : (UInt8.ofNat n).toNat = n := UInt8.toNat_ofNat_of_lt' (Nat.lt_of_le_of_lt h hmax)
  rw [if_neg, hn]
  rw [gt_iff_lt, UInt32.lt_iff_toNat_lt, UInt8.toNat_toUInt32, hn]
  omega

/-- The reader makes of the kernel frame that `send` writes for a valid classic or FD frame
the frame with the same identifier, flags and data. -/
theorem toFrame_ofFrame (f : Frame) (hv : f.Valid) (hxl : f.xl = false) :
    (KernelFrame.ofFrame f).toFrame =
      { id := f.id, ext := f.ext, rtr := f.rtr, fd := f.fd, brs := f.brs, esi := f.esi,
        data := f.data } := by
  have hid := idWord_id hv hxl
  have heff := idWord_eff hv.id_le
  have hrtr := idWord_rtr hv.id_le
  obtain ⟨-, -, hrtrFd, -, hclassic, hfd, -, hbrs, hesi⟩ := (Frame.valid_iff hxl).mp hv
  cases hf : f.fd with
  | false =>
    have hframe : KernelFrame.ofFrame f =
        .can { canId := idWord f, canDlc := .ofNat f.data.length, data := copyData 8 f.data } := by
      rw [KernelFrame.ofFrame, hf]
      rfl
    have hb : f.brs = false := by simpa [hf] using hbrs
    have he : f.esi = false := by simpa [hf] using hesi
    have hlen : f.data.length ≤ 8 := hclassic hf
    rw [hframe, KernelFrame.toFrame, CanFrame.toFrame]
    dsimp only
    rw [heff, hid, hrtr, hb, he, toNat_clamp (by decide) hlen, take_copyData hlen]
  | true =>
    have hr : f.rtr = false := by simpa [hf] using hrtrFd
    have hlen : f.data.length ≤ 64 := hfd hf
    have hword : idWord f = if f.ext then f.id ||| CAN_EFF_FLAG else f.id := by
      rw [idWord, hr]
      rfl
    rw [KernelFrame.ofFrame, hf, if_pos rfl, hr]
    dsimp only
    rw [KernelFrame.toFrame, CanfdFrame.toFrame]
    dsimp only
    simp only [Bool.false_eq_true, if_false]
    rw [← hword, heff, hid, toNat_clamp (by decide) hlen, take_copyData hlen]
    cases f.brs <;> cases f.esi <;> rfl

/-- An extended FD frame of twelve bytes with both FD flags. -/
theorem toFrame_ofFrame_fd :
    (KernelFrame.ofFrame
      { id := 0x18FEF100, ext := true, fd := true, brs := true, esi := true,
        data := List.replicate 12 0xA5 }).toFrame =
      { id := 0x18FEF100, ext := true, fd := true, brs := true, esi := true,
        data := List.replicate 12 0xA5 } :=
  toFrame_ofFrame _ (by decide) rfl

/-- A frame that is put into a channel when the reader has read a kernel frame. -/
def Delivers (b : Bus) (cf : KernelFrame) (f : Frame) : Prop :=
  ∃ ch added, ((b.fanOut cf.toFrame).chan ch).buf = (b.chan ch).buf ++ added ∧ f ∈ added

/-- No remote frame with a length and no FD frame between two lengths. -/
def KernelFrame.Regular : KernelFrame → Prop
  | .can cf => cf.canId &&& CAN_RTR_FLAG = 0 ∨ cf.canDlc = 0
  | .canfd cf => isCanonicalFdLen cf.len.toNat = true ∨ 64 ≤ cf.len.toNat

theorem Bus.chan_setChan (b : Bus) (i j : Nat) (c : Chan Frame) :
    (b.setChan i c).chan j = if i = j ∧ j < b.channels.length then c else b.chan j := by
  simp only [chan, setChan, List.getD_eq_getElem?_getD, List.getElem?_set]
  split_ifs <;> simp_all

/-- A channel gets copies of the frame and nothing else. -/
theorem Bus.buf_fanOut (b : Bus) (f : Frame) (ch : Nat) :
    ∃ n, ((b.fanOut f).chan ch).buf = (b.chan ch).buf ++ List.replicate n f := by
  unfold Bus.fanOut
  generalize b.subs = subs
  induction subs generalizing b with
  | nil => exact ⟨0, by simp⟩
  | cons sub subs ih =>
    rw [List.foldl_cons]
    obtain ⟨n, hn⟩ := ih (if matchesAny sub.filters f then
      b.setChan sub.ch ((b.chan sub.ch).trySend f).1 else b)
    have hone : ∃ k, ((if matchesAny sub.filters f then
        b.setChan sub.ch ((b.chan sub.ch).trySend f).1 else b).chan ch).buf =
        (b.chan ch).buf ++ List.replicate k f := by
      split
      · rw [Bus.chan_setChan]
        split
        · rename_i hch
          rw [hch.1, Chan.trySend]
          split
          · exact ⟨0, by simp⟩
          · split
            · exact ⟨0, by simp⟩
            · exact ⟨1, rfl⟩
        · exact ⟨0, by simp⟩
      · exact ⟨0, by simp⟩
    obtain ⟨k, hk⟩ := hone
    refine ⟨k + n, ?_⟩
    rw [hn, hk, List.append_assoc, List.replicate_add]

/-- What is put into a channel is the frame that the reader has made. -/
theorem Delivers.eq {b : Bus} {cf : KernelFrame} (h : Delivers b cf f) : f = cf.toFrame := by
  obtain ⟨ch, added, hadded, hmem⟩ := h
  obtain ⟨n, hn⟩ := b.buf_fanOut cf.toFrame ch
  obtain rfl := List.append_cancel_left (hadded.symm.trans hn)
  exact (List.mem_replicate.mp hmem).2

/-- A subscription without filters gets every frame. -/
theorem delivers_toFrame (cf : KernelFrame) :
    Delivers { subs := [⟨[], 0⟩], channels := [{}] } cf cf.toFrame :=
  ⟨0, [cf.toFrame], rfl, List.mem_singleton_self _⟩

/-- A masked identifier is in range, whatever flags its word has. -/
theorem masked_le (id : UInt32) (ext : Bool) :
    (ext = true → id &&& (if ext then CAN_EFF_MASK else CAN_SFF_MASK) ≤ kCANMaxExtID) ∧
      (ext = false → id &&& (if ext then CAN_EFF_MASK else CAN_SFF_MASK) ≤ kCANMaxStdID) := by
  constructor
  · rintro rfl
    exact UInt32.and_le_right
  · rintro rfl
    exact UInt32.and_le_right

/-- A length is cut down to the greatest. -/
theorem toNat_clamp_eq (len : UInt8) (max : UInt32) (hmax : max.toNat < 256) :
    (if len.toUInt32 > max then max.toUInt8 else len).toNat = min len.toNat max.toNat := by
  have hgt : len.toUInt32 > max ↔ max.toNat < len.toNat := by
    rw [gt_iff_lt, UInt32.lt_iff_toNat_lt, UInt8.toNat_toUInt32]
  split
  · rename_i h
    have hlt := hgt.mp h
    rw [UInt32.toNat_toUInt8, Nat.mod_eq_of_lt hmax]
    omega
  · rename_i h
    have hle := mt hgt.mpr h
    omega

/-- A classic frame is valid unless it is a remote frame with a length. -/
theorem CanFrame.valid_toFrame_iff (cf : CanFrame) :
    cf.toFrame.Valid ↔ cf.canId &&& CAN_RTR_FLAG = 0 ∨ cf.canDlc = 0 := by
  obtain ⟨hext, hstd⟩ := masked_le cf.canId (cf.canId &&& CAN_EFF_FLAG != 0)
  have hlen : cf.toFrame.data.length = min cf.canDlc.toNat 8 := by
    have hclamp := toNat_clamp_eq cf.canDlc kCANMaxDataLen (by decide)
    rw [CanFrame.toFrame]
    dsimp only
    rw [List.length_take, hclamp, Vector.length_toList]
    change min (min _ 8) 8 = _
    omega
  have hnil : cf.toFrame.data = [] ↔ cf.canDlc = 0 := by
    rw [← List.length_eq_zero_iff, hlen, ← UInt8.toNat_inj]
    change _ ↔ _ = 0
    omega
  have hrtr : cf.toFrame.rtr = true ↔ ¬ cf.canId &&& CAN_RTR_FLAG = 0 := bne_iff_ne
  rw [Frame.valid_iff rfl]
  constructor
  · rintro ⟨-, -, -, hdata, -⟩
    by_cases h : cf.canId &&& CAN_RTR_FLAG = 0
    · exact Or.inl h
    · exact Or.inr (hnil.mp (hdata (hrtr.mpr h)))
  · intro h
    refine ⟨hext, hstd, fun _ => rfl, fun hr => hnil.mpr (h.resolve_left (hrtr.mp hr)), fun _ => ?_,
      nofun, nofun, nofun, nofun⟩
    rw [hlen]
    exact Nat.min_le_right ..

/-- An FD frame is valid if its length is canonical or too great, and so cut down to 64. -/
theorem CanfdFrame.valid_toFrame_iff (cf : CanfdFrame) :
    cf.toFrame.Valid ↔ isCanonicalFdLen cf.len.toNat = true ∨ 64 ≤ cf.len.toNat := by
  obtain ⟨hext, hstd⟩ := masked_le cf.canId (cf.canId &&& CAN_EFF_FLAG != 0)
  have hlen : cf.toFrame.data.length = min cf.len.toNat 64 := by
    have hclamp := toNat_clamp_eq cf.len kCANFDMaxDataLen (by decide)
    rw [CanfdFrame.toFrame]
    dsimp only
    rw [List.length_take, hclamp, Vector.length_toList]
    change min (min _ 64) 64 = _
    omega
  have hcanonical : isCanonicalFdLen cf.toFrame.data.length = true ↔
      isCanonicalFdLen cf.len.toNat = true ∨ 64 ≤ cf.len.toNat := by
    rw [hlen]
    by_cases h : 64 ≤ cf.len.toNat
    · rw [Nat.min_eq_right h]
      exact ⟨fun _ => Or.inr h, fun _ => rfl⟩
    · rw [Nat.min_eq_left (by omega)]
      exact ⟨Or.inl, fun hc => hc.resolve_right h⟩
  rw [Frame.valid_iff rfl]
  constructor
  · rintro ⟨-, -, -, -, -, -, hc, -⟩
    exact hcanonical.mp (hc rfl)
  · intro h
    refine ⟨hext, hstd, nofun, nofun, nofun, fun _ => ?_, fun _ => hcanonical.mpr h, fun _ => rfl,
      fun _ => rfl⟩
    rw [hlen]
    exact Nat.min_le_right ..

/-- Every frame that is delivered for a kernel frame is valid if and only if that is no
remote frame with a length and no FD frame with a length that is neither canonical nor at
least 64. -/
theorem delivered_valid_iff (cf : KernelFrame) :
    (∀ b f, Delivers b cf f → f.Valid) ↔ cf.Regular := by
  have hframe : cf.toFrame.Valid ↔ cf.Regular := by
    cases cf with
    | can cf => exact cf.valid_toFrame_iff
    | canfd cf => exact cf.valid_toFrame_iff
  rw [← hframe]
  constructor
  · intro h
    exact h _ _ (delivers_toFrame cf)
  · intro hv b f hf
    rw [hf.eq]
    exact hv

/-- A remote frame that asks for eight bytes is delivered with eight bytes of data. -/
theorem delivered_not_valid :
    ¬ ∀ b f, Delivers b (.can { canId := 0x40000123, canDlc := 8 }) f → f.Valid := by
  intro h
  exact absurd (h _ _ (delivers_toFrame _)) (by decide)

end CppCan.SocketCan
