import Mathlib.Data.List.Chain
import Mathlib.Data.List.Infix
import Mathlib.Data.List.Range

/-!
# In-order admission

A gate over an arbitrary counter type admits any first value and afterwards
only the successor of the value it admitted last. Refused values never move
the gate. The admitted values of any arrival list therefore form a chain of
successors, and a chain of successors drawn from an initial segment of the
naturals is a contiguous range.
-/

namespace CppCan.Core

variable {α β : Type*}

/-- The gate's decision: anything at first, then only the successor of the last. -/
def admits [DecidableEq α] (succ : α → α) : Option α → α → Bool
  | none, _ => true
  | some last, a => a = succ last

/-- The values a gate lets through, in arrival order. -/
def admitted [DecidableEq α] (succ : α → α) : Option α → List α → List α
  | _, [] => []
  | last, a :: as =>
    if admits succ last a then a :: admitted succ (some a) as else admitted succ last as

/-- Each value is the successor of the one before it. -/
def Consecutive (succ : α → α) (as : List α) : Prop := as.IsChain fun a b => b = succ a

theorem admitted_cons_of_admits [DecidableEq α] {succ : α → α} {last : Option α} {a : α}
    (h : admits succ last a = true) (as : List α) :
    admitted succ last (a :: as) = a :: admitted succ (some a) as := by
  simp only [admitted, h, ite_true]

theorem admitted_cons_of_not_admits [DecidableEq α] {succ : α → α} {last : Option α} {a : α}
    (h : admits succ last a = false) (as : List α) :
    admitted succ last (a :: as) = admitted succ last as := by
  simp only [admitted, h, Bool.false_eq_true, ite_false]

/-- Admission only drops arrivals; it neither invents nor reorders them. -/
theorem admitted_sublist [DecidableEq α] (succ : α → α) (last : Option α) (as : List α) :
    (admitted succ last as).Sublist as := by
  induction as generalizing last with
  | nil => exact List.Sublist.refl _
  | cons a as ih =>
    cases h : admits succ last a with
    | true =>
      rw [admitted_cons_of_admits h]
      exact (ih (some a)).cons_cons a
    | false =>
      rw [admitted_cons_of_not_admits h]
      exact (ih last).cons a

/-- The run of admitted values continues the value admitted last, if any. -/
theorem consecutive_cons_admitted [DecidableEq α] (succ : α → α) (last : α) (as : List α) :
    Consecutive succ (last :: admitted succ (some last) as) := by
  induction as generalizing last with
  | nil => exact List.isChain_singleton last
  | cons a as ih =>
    cases h : admits succ (some last) a with
    | true =>
      rw [admitted_cons_of_admits h]
      have hs : a = succ last := by simpa only [admits, decide_eq_true_eq] using h
      exact List.IsChain.cons_cons hs (ih a)
    | false =>
      rw [admitted_cons_of_not_admits h]
      exact ih last

/-- From a fresh gate the admitted values are consecutive, whatever arrives. -/
theorem consecutive_admitted [DecidableEq α] (succ : α → α) (as : List α) :
    Consecutive succ (admitted succ none as) := by
  cases as with
  | nil => exact List.isChain_nil
  | cons a as => exact consecutive_cons_admitted succ a as

/-- A nonempty consecutive run of naturals is the range starting at its head. -/
theorem Consecutive.eq_range' {a : ℕ} {as : List ℕ} (hc : Consecutive (· + 1) (a :: as)) :
    a :: as = List.range' a (as.length + 1) := by
  induction as generalizing a with
  | nil => rfl
  | cons b bs ih =>
    have hb : b = a + 1 := (List.isChain_cons_cons.mp hc).1
    have ht : b :: bs = List.range' b (bs.length + 1) := ih (List.isChain_cons_cons.mp hc).2
    rw [List.length_cons, List.range'_succ, ← hb, ← ht]

/-- A consecutive run of naturals below `n` is a contiguous block of `0, …, n - 1`. -/
theorem Consecutive.isInfix_range {n : ℕ} {as : List ℕ} (hc : Consecutive (· + 1) as)
    (hb : ∀ a ∈ as, a < n) : as <:+: List.range n := by
  cases as with
  | nil => exact List.nil_infix
  | cons a as =>
    have ha : a :: as = List.range' a (as.length + 1) := hc.eq_range'
    have hlast : a + as.length < n := by
      apply hb
      rw [ha, List.mem_range'_1]
      omega
    refine ⟨List.range' 0 a, List.range' (a + (as.length + 1)) (n - (a + (as.length + 1))), ?_⟩
    have hfront := List.range'_append_1 (s := 0) (m := a) (n := as.length + 1)
    have hback := List.range'_append_1 (s := 0) (m := a + (as.length + 1))
      (n := n - (a + (as.length + 1)))
    rw [Nat.zero_add] at hfront hback
    rw [ha, hfront, hback, List.range_eq_range']
    congr 1
    omega

end CppCan.Core
