import Mathlib.Data.List.Basic
import Mathlib.Logic.Function.Iterate

/-!
# Cyclic redundancy registers

A register of any width takes the bits of a stream one by one at its top. Where a one
leaves at the top, the polynomial is fed back. Registers are linear in exclusive or, so
an error of the stream shows as what the error alone leaves in an empty register. A
burst that is not longer than the register always leaves something.
-/

namespace CppCan.Core.Crc

variable {w : Nat}

/-- The bits of the register move up by one. -/
def shift (poly r : BitVec w) : BitVec w := if r.msb then (r <<< 1) ^^^ poly else r <<< 1

/-- A bit at the top of the register. -/
def top (w : Nat) (b : Bool) : BitVec w := if b then BitVec.intMin w else 0#w

/-- A bit enters at the top and the register is shifted. -/
def feed (poly r : BitVec w) (b : Bool) : BitVec w := shift poly (r ^^^ top w b)

/-- The register with the first bits of a stream at its top. -/
def load (w : Nat) : List Bool → BitVec w
  | [] => 0#w
  | b :: bs => top w b ^^^ load w bs >>> 1

variable {poly r r' : BitVec w} {bs : List Bool}

theorem shift_xor (poly r r' : BitVec w) :
    shift poly (r ^^^ r') = shift poly r ^^^ shift poly r' := by
  unfold shift
  rw [BitVec.msb_xor, BitVec.shiftLeft_xor_distrib]
  cases r.msb <;> cases r'.msb
  · rfl
  · simp only [Bool.false_xor, if_true, Bool.false_eq_true, if_false]
    exact BitVec.xor_assoc _ _ _
  · simp only [Bool.true_xor, Bool.not_false, if_true, Bool.false_eq_true, if_false]
    rw [BitVec.xor_assoc, BitVec.xor_comm (r' <<< 1), ← BitVec.xor_assoc]
  · simp only [Bool.true_xor, Bool.not_true, if_true, Bool.false_eq_true, if_false]
    rw [BitVec.xor_assoc (r <<< 1), BitVec.xor_comm poly, BitVec.xor_assoc (r' <<< 1),
      BitVec.xor_self, BitVec.xor_zero]

theorem top_xor (w : Nat) (b c : Bool) : top w (b ^^ c) = top w b ^^^ top w c := by
  cases b <;> cases c <;> simp [top]

theorem feed_xor (poly r r' : BitVec w) (b c : Bool) :
    feed poly (r ^^^ r') (b ^^ c) = feed poly r b ^^^ feed poly r' c := by
  unfold feed
  rw [← shift_xor, top_xor]
  congr 1
  rw [BitVec.xor_assoc, BitVec.xor_assoc, ← BitVec.xor_assoc r', BitVec.xor_comm r' (top w b),
    BitVec.xor_assoc (top w b)]

/-- Two streams leave registers that differ by what their difference leaves. -/
theorem foldl_feed_xor {cs : List Bool} (h : bs.length = cs.length) :
    (List.zipWith xor bs cs).foldl (feed poly) (r ^^^ r') =
      bs.foldl (feed poly) r ^^^ cs.foldl (feed poly) r' := by
  induction bs generalizing cs r r' with
  | nil =>
    obtain rfl := List.length_eq_zero_iff.mp h.symm
    rfl
  | cons b bs ih =>
    obtain ⟨c, cs, rfl⟩ := List.exists_cons_of_length_eq_add_one h.symm
    rw [List.zipWith_cons_cons, List.foldl_cons, List.foldl_cons, List.foldl_cons, feed_xor]
    exact ih (by simpa using h)

theorem shift_zero (poly : BitVec w) : shift poly 0#w = 0#w := by simp [shift]

theorem feed_false (poly r : BitVec w) : feed poly r false = shift poly r := by simp [feed, top]

/-- A polynomial with its lowest bit set lets no content of the register vanish. -/
theorem shift_ne_zero (hpoly : poly.getLsbD 0 = true) (hr : r ≠ 0#w) : shift poly r ≠ 0#w := by
  intro hzero
  unfold shift at hzero
  split at hzero
  · have hbit := congrArg (BitVec.getLsbD · 0) hzero
    simp [hpoly] at hbit
  · rename_i hmsb
    apply hr
    apply BitVec.eq_of_getLsbD_eq
    intro i hi
    rw [BitVec.getLsbD_zero]
    by_cases hlast : i + 1 < w
    · have hbit := congrArg (BitVec.getLsbD · (i + 1)) hzero
      simpa [hlast, BitVec.getLsbD_eq_getElem hi] using hbit
    · obtain rfl : i = w - 1 := by omega
      rw [← BitVec.msb_eq_getLsbD_last]
      simpa using hmsb

theorem iterate_shift_ne_zero (hpoly : poly.getLsbD 0 = true) (n : Nat) (hr : r ≠ 0#w) :
    (shift poly)^[n] r ≠ 0#w := by
  induction n generalizing r with
  | zero => exact hr
  | succ n ih => exact ih (shift_ne_zero hpoly hr)

/-- Zeros shift the register. -/
theorem foldl_feed_replicate_false (n : Nat) :
    (List.replicate n false).foldl (feed poly) r = (shift poly)^[n] r := by
  induction n generalizing r with
  | zero => rfl
  | succ n ih =>
    rw [List.replicate_succ, List.foldl_cons, feed_false]
    exact ih

theorem iterate_shift_zero (poly : BitVec w) (n : Nat) : (shift poly)^[n] 0#w = 0#w :=
  Function.iterate_fixed (shift_zero poly) n

/-- The bits below those that were loaded are zero. -/
theorem getLsbD_load {i : Nat} (h : i + bs.length < w) : (load w bs).getLsbD i = false := by
  induction bs generalizing i with
  | nil => simp [load]
  | cons b bs ih =>
    rw [List.length_cons] at h
    have htop : (top w b).getLsbD i = false := by
      cases b
      · simp [top]
      · simp only [top, if_true, BitVec.getLsbD_intMin, decide_eq_false_iff_not]
        omega
    rw [load, BitVec.getLsbD_xor, BitVec.getLsbD_ushiftRight, htop, ih (by omega)]
    rfl

theorem msb_load_cons (hw : 0 < w) (b : Bool) (bs : List Bool) : (load w (b :: bs)).msb = b := by
  rw [load, BitVec.msb_xor, BitVec.msb_ushiftRight]
  cases b <;> simp [top, BitVec.msb_intMin, hw]

/-- Shifting the register moves up what lies above its lowest bit. -/
theorem shift_ushiftRight (h : r.getLsbD 0 = false) : shift poly (r >>> 1) = r := by
  have hmsb : (r >>> 1).msb = false := by simp [BitVec.msb_ushiftRight]
  rw [shift, hmsb]
  apply BitVec.eq_of_getLsbD_eq
  intro i hi
  cases i with
  | zero => simp [h]
  | succ i => simp [hi, Nat.add_comm 1 i]

/-- Feeding a stream that fits into the register is loading it and shifting. -/
theorem foldl_feed_eq (h : bs.length ≤ w) :
    bs.foldl (feed poly) r = (shift poly)^[bs.length] (r ^^^ load w bs) := by
  induction bs generalizing r with
  | nil => simp [load]
  | cons b bs ih =>
    rw [List.length_cons] at h
    have hlow : (load w bs).getLsbD 0 = false := getLsbD_load (by omega)
    have hnext : shift poly (r ^^^ load w (b :: bs)) = feed poly r b ^^^ load w bs := by
      rw [load, ← BitVec.xor_assoc, shift_xor, shift_ushiftRight hlow]
      rfl
    rw [List.foldl_cons, ih (by omega), List.length_cons, Function.iterate_succ_apply, hnext]

/-- Only zeros load as zero. -/
theorem load_ne_zero (h : bs.length ≤ w) (hone : true ∈ bs) : load w bs ≠ 0#w := by
  induction bs with
  | nil => cases hone
  | cons b bs ih =>
    rw [List.length_cons] at h
    intro hzero
    have hw : 0 < w := by omega
    have hb : b = false := by
      rw [← msb_load_cons hw b bs, hzero]
      exact BitVec.msb_zero
    subst hb
    have hrest : load w bs >>> 1 = 0#w := by simpa [load, top] using hzero
    have hlow : (load w bs).getLsbD 0 = false := getLsbD_load (by omega)
    have hone : true ∈ bs := by simpa using hone
    apply ih (by omega) hone
    have hback : shift 0#w (load w bs >>> 1) = load w bs := shift_ushiftRight hlow
    rw [← hback, hrest, shift_zero]

/-- A burst that is not longer than the register leaves something in it. -/
theorem foldl_feed_burst (hpoly : poly.getLsbD 0 = true) {pre post : Nat} (h : bs.length ≤ w)
    (hone : true ∈ bs) :
    (List.replicate pre false ++ bs ++ List.replicate post false).foldl (feed poly) 0#w ≠ 0#w := by
  rw [List.foldl_append, List.foldl_append, foldl_feed_replicate_false (r := 0#w),
    iterate_shift_zero, foldl_feed_eq h, foldl_feed_replicate_false, BitVec.zero_xor]
  exact iterate_shift_ne_zero hpoly _ (iterate_shift_ne_zero hpoly _ (load_ne_zero h hone))

end CppCan.Core.Crc
