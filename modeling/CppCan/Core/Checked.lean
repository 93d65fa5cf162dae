import Mathlib.Data.UInt
import Mathlib.Data.Nat.Bitwise

/-!
# Operations that may be undefined

An operation on signed words is computed over the integers and has a result only if the
result fits into the word. A shift has a result only if the distance is below the width,
and an element of an array is read or written only below the array's size.
-/

namespace CppCan.Core

/-- Why an operation has no result. -/
inductive Undefined where
  | overflow
  | shift
  | index
  deriving DecidableEq, Repr

/-- The result of an operation on signed words of `w` bits. -/
def signed (w : Nat) (x : Int) : Except Undefined Int :=
  if -2 ^ (w - 1) ≤ x ∧ x < 2 ^ (w - 1) then .ok x else .error .overflow

/-- The conversion of an unsigned number to a signed word of `w` bits. -/
def toSigned (w n : Nat) : Int :=
  if n % 2 ^ w < 2 ^ (w - 1) then (n % 2 ^ w : Nat) else (n % 2 ^ w : Nat) - 2 ^ w

/-- `x << k` for a signed word of `w` bits: a number that is not negative may be shifted into
the sign, but not past it. -/
def signedShiftLeft (w : Nat) (x k : Int) : Except Undefined Int :=
  if 0 ≤ k ∧ k < w then
    if 0 ≤ x ∧ x * 2 ^ k.toNat < 2 ^ w then .ok (toSigned w (x.toNat * 2 ^ k.toNat))
    else .error .overflow
  else .error .shift

/-- `x << k` for an unsigned word of 64 bits. -/
def shiftLeft64 (x : UInt64) (k : Int) : Except Undefined UInt64 :=
  if 0 ≤ k ∧ k < 64 then .ok (x <<< UInt64.ofNat k.toNat) else .error .shift

/-- `xs[i]`. -/
def element {α : Type} (xs : List α) (i : Nat) : Except Undefined α :=
  match xs[i]? with
  | some x => .ok x
  | none => .error .index

/-- `xs[i] = x`. -/
def store {α : Type} (xs : List α) (i : Nat) (x : α) : Except Undefined (List α) :=
  if i < xs.length then .ok (xs.set i x) else .error .index

theorem signed_eq_ok {w : Nat} {x y : Int} :
    signed w x = .ok y ↔ (-2 ^ (w - 1) ≤ x ∧ x < 2 ^ (w - 1)) ∧ x = y := by
  unfold signed
  split_ifs with h
  · simp [h]
  · simp [h]

theorem signed_of_fits {w : Nat} {x : Int} (hlow : -2 ^ (w - 1) ≤ x) (hhigh : x < 2 ^ (w - 1)) :
    signed w x = .ok x :=
  if_pos ⟨hlow, hhigh⟩

/-- Below half of its range a number is kept. -/
theorem toSigned_of_lt {w n : Nat} (h : n < 2 ^ (w - 1)) : toSigned w n = n := by
  have hle : 2 ^ (w - 1) ≤ 2 ^ w := Nat.pow_le_pow_right (by decide) (Nat.sub_le w 1)
  unfold toSigned
  rw [Nat.mod_eq_of_lt (h.trans_le hle), if_pos h]

theorem signedShiftLeft_one {w k : Nat} (h : k < w) :
    signedShiftLeft w 1 k = .ok (toSigned w (2 ^ k)) := by
  have hfit : (2 : Int) ^ k < 2 ^ w := by
    exact_mod_cast Nat.pow_lt_pow_right (by decide : 1 < 2) h
  have hone : (1 : Int).toNat * 2 ^ k = 2 ^ k := one_mul _
  unfold signedShiftLeft
  rw [if_pos (by omega), Int.toNat_natCast, one_mul, if_pos ⟨by decide, hfit⟩, hone]

theorem signedShiftLeft_of_le {w : Nat} {x k : Int} (h : w ≤ k) :
    signedShiftLeft w x k = .error .shift :=
  if_neg (by omega)

theorem shiftLeft64_of_lt {k : Nat} (x : UInt64) (h : k < 64) :
    shiftLeft64 x k = .ok (x <<< UInt64.ofNat k) := by
  unfold shiftLeft64
  rw [if_pos (by omega), Int.toNat_natCast]

/-- A one that is shifted is a power of two. -/
theorem toNat_one_shiftLeft {k : Nat} (h : k < 64) :
    ((1 : UInt64) <<< UInt64.ofNat k).toNat = 2 ^ k := by
  have hdist : (UInt64.ofNat k).toNat % 64 = k := by
    rw [UInt64.toNat_ofNat', Nat.mod_eq_of_lt (a := k) (by omega), Nat.mod_eq_of_lt h]
  rw [UInt64.toNat_shiftLeft, hdist, UInt64.toNat_one, Nat.one_shiftLeft,
    Nat.mod_eq_of_lt (Nat.pow_lt_pow_right (by decide) h)]

/-- An element below the size is there. -/
theorem element_of_lt {α : Type} {xs : List α} {i : Nat} (h : i < xs.length) (d : α) :
    element xs i = .ok (xs.getD i d) := by
  simp [element, List.getD_eq_getElem?_getD, h]

theorem store_of_lt {α : Type} {xs : List α} {i : Nat} (h : i < xs.length) (x : α) :
    store xs i x = .ok (xs.set i x) :=
  if_pos h

end CppCan.Core
