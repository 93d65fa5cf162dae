import CppCan.Core.Crc
import Mathlib.Data.Nat.Prime.Basic
import Mathlib.Dynamics.PeriodicPts.Defs

/-!
# Powers in a register

A one that is shifted on and on runs through the powers of the register. Every content is a
sum of the first powers, so powers multiply as their exponents add, and great exponents are
reached in few steps. Two powers agree only if their exponents differ by a multiple of the
period. The parity of a content outlasts a shift if the polynomial has an odd parity.
-/

namespace CppCan.Core.Crc

variable {w : Nat} {poly r s : BitVec w} {f g : Nat → BitVec w}

/-- What is left of a one after `k` shifts. -/
def power (poly : BitVec w) (k : Nat) : BitVec w := (shift poly)^[k] 1#w

theorem iterate_shift_xor (poly r s : BitVec w) (k : Nat) :
    (shift poly)^[k] (r ^^^ s) = (shift poly)^[k] r ^^^ (shift poly)^[k] s := by
  induction k generalizing r s with
  | zero => rfl
  | succ k ih =>
    simp only [Function.iterate_succ_apply]
    rw [shift_xor, ih]

theorem iterate_shift_power (poly : BitVec w) (j k : Nat) :
    (shift poly)^[j] (power poly k) = power poly (j + k) :=
  (Function.iterate_add_apply ..).symm

/-- A one stays a single bit until it leaves at the top. -/
theorem power_of_lt {k : Nat} (h : k < w) : power poly k = BitVec.twoPow w k := by
  induction k with
  | zero => simp [power, BitVec.twoPow]
  | succ k ih =>
    have hmsb : (BitVec.twoPow w k).msb = false := by
      rw [BitVec.msb_twoPow]
      simp
      omega
    rw [power, Function.iterate_succ_apply', ← power, ih (by omega), shift, hmsb]
    exact (BitVec.shiftLeft_add 1#w k 1).symm

/-- The sum of the values at the bits that are set below `n`. -/
def combine (f : Nat → BitVec w) (r : BitVec w) : Nat → BitVec w
  | 0 => 0#w
  | n + 1 => combine f r n ^^^ (if r.getLsbD n then f n else 0#w)

theorem combine_congr {n : Nat} (h : ∀ i < n, f i = g i) : combine f r n = combine g r n := by
  induction n with
  | zero => rfl
  | succ n ih => rw [combine, combine, ih fun i hi => h i (by omega), h n (by omega)]

/-- A register is the sum of its bits. -/
theorem combine_twoPow (r : BitVec w) : combine (BitVec.twoPow w) r w = r := by
  have hbits : ∀ n ≤ w, ∀ j, (combine (BitVec.twoPow w) r n).getLsbD j =
      (decide (j < n) && r.getLsbD j) := by
    intro n hn j
    induction n with
    | zero => simp [combine]
    | succ n ih =>
      have hlast : (if r.getLsbD n then BitVec.twoPow w n else 0#w).getLsbD j =
          (decide (n = j) && r.getLsbD j) := by
        by_cases hj : n = j
        · subst hj
          cases r.getLsbD n <;> simp [BitVec.getLsbD_twoPow]
          omega
        · cases r.getLsbD n <;> simp [BitVec.getLsbD_twoPow, hj]
      rw [combine, BitVec.getLsbD_xor, ih (by omega), hlast, ← Bool.and_xor_distrib_right]
      congr 1
      by_cases hlt : j < n
      · simp [hlt, Nat.lt_succ_of_lt hlt, Nat.ne_of_gt hlt]
      · by_cases hj : n = j
        · simp [hj]
        · have hge : ¬ j < n + 1 := by omega
          simp [hlt, hj, hge]
  apply BitVec.eq_of_getLsbD_eq
  intro j hj
  rw [hbits w le_rfl, decide_eq_true hj, Bool.true_and]

/-- Sums are shifted term by term. -/
theorem iterate_shift_combine (poly r : BitVec w) (f : Nat → BitVec w) (k n : Nat) :
    (shift poly)^[k] (combine f r n) = combine (fun i => (shift poly)^[k] (f i)) r n := by
  induction n with
  | zero => exact iterate_shift_zero poly k
  | succ n ih =>
    rw [combine, combine, iterate_shift_xor, ih]
    split
    · rfl
    · rw [iterate_shift_zero]

/-- The product of two contents: the first one's bits shift the second. -/
def mul (poly r s : BitVec w) : BitVec w := combine (fun i => (shift poly)^[i] s) r w

/-- Multiplying by a power is shifting. -/
theorem mul_power (poly r : BitVec w) (k : Nat) :
    mul poly r (power poly k) = (shift poly)^[k] r := by
  calc mul poly r (power poly k)
      = combine (fun i => (shift poly)^[k] (BitVec.twoPow w i)) r w := by
        apply combine_congr
        intro i hi
        rw [iterate_shift_power, ← power_of_lt hi, iterate_shift_power, Nat.add_comm]
    _ = (shift poly)^[k] r := by rw [← iterate_shift_combine, combine_twoPow]

/-- Powers whose list can be checked: each fits into the register or is the product of two
that stand behind it. -/
def checkPowers (poly : BitVec w) : List (Nat × BitVec w) → Bool
  | [] => true
  | (k, r) :: rest =>
    ((decide (k < w) && r == BitVec.twoPow w k) ||
      rest.any fun (a, s) => rest.any fun (b, t) => a + b == k && mul poly s t == r) &&
      checkPowers poly rest

/-- A list that passes the check holds powers. -/
theorem power_of_checkPowers {l : List (Nat × BitVec w)} (h : checkPowers poly l = true) :
    ∀ e ∈ l, power poly e.1 = e.2 := by
  induction l with
  | nil => nofun
  | cons e rest ih =>
    obtain ⟨k, r⟩ := e
    rw [checkPowers, Bool.and_eq_true, Bool.or_eq_true] at h
    have hrest := ih h.2
    rw [List.forall_mem_cons]
    refine ⟨?_, hrest⟩
    rcases h.1 with hfirst | hproduct
    · simp only [Bool.and_eq_true, decide_eq_true_eq, beq_iff_eq] at hfirst
      exact (power_of_lt hfirst.1).trans hfirst.2.symm
    · simp only [List.any_eq_true, Bool.and_eq_true, beq_iff_eq] at hproduct
      obtain ⟨⟨a, s⟩, hs, ⟨b, t⟩, ht, rfl, rfl⟩ := hproduct
      have hs := hrest _ hs
      have ht := hrest _ ht
      dsimp only at hs ht ⊢
      rw [← hs, ← ht, mul_power, iterate_shift_power, Nat.add_comm]

/-- A period is the least one if none of its quotients by a prime is a period. -/
theorem minimalPeriod_eq {α : Type*} {f : α → α} {x : α} {n : Nat}
    (hx : Function.IsPeriodicPt f n x)
    (hprime : ∀ p, p.Prime → p ∣ n → ¬ Function.IsPeriodicPt f (n / p) x) :
    Function.minimalPeriod f x = n := by
  obtain ⟨m, hm⟩ := hx.minimalPeriod_dvd
  by_contra hne
  have hm1 : m ≠ 1 := by
    rintro rfl
    exact hne (by omega)
  obtain ⟨p, hp, q, rfl⟩ := Nat.exists_prime_and_dvd hm1
  have hquotient : n / p = Function.minimalPeriod f x * q := by
    rw [hm, Nat.mul_left_comm, Nat.mul_div_cancel_left _ hp.pos]
  apply hprime p hp ⟨Function.minimalPeriod f x * q, by rw [hm, Nat.mul_left_comm]⟩
  rw [hquotient]
  exact (Function.isPeriodicPt_minimalPeriod f x).mul_const q

/-- Below the period, powers with different exponents differ. -/
theorem power_injOn {n i j : Nat} (h : Function.minimalPeriod (shift poly) 1#w = n) (hi : i < n)
    (hj : j < n) (heq : power poly i = power poly j) : i = j :=
  Function.iterate_injOn_Iio_minimalPeriod (by rwa [h]) (by rwa [h]) heq

/-- Whether an odd number of the bits below `n` is set. -/
def parityBelow (r : BitVec w) : Nat → Bool
  | 0 => false
  | n + 1 => parityBelow r n ^^ r.getLsbD n

/-- Whether an odd number of bits is set. -/
def parity (r : BitVec w) : Bool := parityBelow r w

theorem parityBelow_xor (r s : BitVec w) (n : Nat) :
    parityBelow (r ^^^ s) n = (parityBelow r n ^^ parityBelow s n) := by
  induction n with
  | zero => rfl
  | succ n ih =>
    rw [parityBelow, parityBelow, parityBelow, ih, BitVec.getLsbD_xor]
    generalize parityBelow r n = a
    generalize parityBelow s n = b
    cases a <;> cases b <;> simp

theorem parity_xor (r s : BitVec w) : parity (r ^^^ s) = (parity r ^^ parity s) :=
  parityBelow_xor r s w

theorem parityBelow_shiftLeft (r : BitVec w) {n : Nat} (h : n < w) :
    parityBelow (r <<< 1) (n + 1) = parityBelow r n := by
  induction n with
  | zero => simp [parityBelow]
  | succ n ih =>
    have hbit : (r <<< 1).getLsbD (n + 1) = r.getLsbD n := by
      simp [h, BitVec.getLsbD_eq_getElem (Nat.lt_of_succ_lt h)]
    rw [parityBelow, ih (by omega), parityBelow, hbit]

/-- An odd polynomial keeps the parity. -/
theorem parity_shift (hpoly : parity poly = true) (r : BitVec w) :
    parity (shift poly r) = parity r := by
  cases w with
  | zero => rfl
  | succ n =>
    have hmoved : parity (r <<< 1) = (parity r ^^ r.msb) := by
      rw [parity, parityBelow_shiftLeft r (Nat.lt_succ_self n), parity, parityBelow,
        BitVec.msb_eq_getLsbD_last, Nat.add_sub_cancel, Bool.xor_assoc, Bool.xor_self,
        Bool.xor_false]
    unfold shift
    split
    · rename_i hmsb
      rw [parity_xor, hmoved, hpoly, hmsb, Bool.xor_assoc, Bool.xor_self, Bool.xor_false]
    · rename_i hmsb
      rw [hmoved, Bool.not_eq_true _ |>.mp hmsb, Bool.xor_false]

theorem parity_one (hw : 0 < w) : parity 1#w = true := by
  have hbelow : ∀ n < w, parityBelow 1#w (n + 1) = true := by
    intro n hn
    induction n with
    | zero => simp [parityBelow, hw]
    | succ n ih =>
      rw [parityBelow, ih (by omega)]
      simp
  obtain ⟨n, rfl⟩ := Nat.exists_eq_succ_of_ne_zero (Nat.ne_of_gt hw)
  exact hbelow n (Nat.lt_succ_self n)

theorem parity_power (hpoly : parity poly = true) (hw : 0 < w) (k : Nat) :
    parity (power poly k) = true := by
  induction k with
  | zero => exact parity_one hw
  | succ k ih => rw [power, Function.iterate_succ_apply', ← power, parity_shift hpoly, ih]

end CppCan.Core.Crc
