import Mathlib.Data.List.Basic

/-!
# What a computation may throw

A computation throws only certain exceptions if each of its parts does, and a loop
if each step does in the state in which it is taken.
-/

namespace CppCan.Core

universe u

variable {ε : Type*} {α β : Type u} {P : ε → Prop}

/-- Every exception of the computation satisfies `P`. -/
def ThrowsOnly (P : ε → Prop) (r : Except ε α) : Prop := ∀ e, r = .error e → P e

/-- A result is no exception. -/
@[simp] theorem throwsOnly_ok (a : α) : ThrowsOnly P (.ok a : Except ε α) := by
  intro e h
  cases h

@[simp] theorem throwsOnly_error {e : ε} : ThrowsOnly P (.error e : Except ε α) ↔ P e := by
  constructor
  · exact fun h => h e rfl
  · intro he e' h
    cases h
    exact he

/-- A computation goes on from a result. -/
theorem ok_bind (a : α) (k : α → Except ε β) : (Except.ok a >>= k) = k a := rfl

/-- A computation with a result had an intermediate result. -/
theorem bind_eq_ok {x : Except ε α} {k : α → Except ε β} {r : β} :
    (x >>= k) = .ok r ↔ ∃ a, x = .ok a ∧ k a = .ok r := by
  constructor
  · intro h
    cases x with
    | error e => cases h
    | ok a => exact ⟨a, rfl, h⟩
  · rintro ⟨a, rfl, h⟩
    exact h

/-- A sequence throws what its first part throws, or its second part on the result of
the first. -/
theorem throwsOnly_bind {x : Except ε α} {f : α → Except ε β} :
    ThrowsOnly P (x >>= f) ↔ ThrowsOnly P x ∧ ∀ a, x = .ok a → ThrowsOnly P (f a) := by
  cases x with
  | error e =>
    change ThrowsOnly P (.error e) ↔ _
    simp
  | ok a =>
    change ThrowsOnly P (f a) ↔ _
    simp

/-- A function applied to the result throws nothing. -/
theorem throwsOnly_map {x : Except ε α} {f : α → β} :
    ThrowsOnly P (x.map f) ↔ ThrowsOnly P x := by
  cases x with
  | error e =>
    change ThrowsOnly P (.error e) ↔ _
    simp
  | ok a =>
    change ThrowsOnly P (.ok (f a)) ↔ _
    simp

/-- A function of the result has a result if there is one. -/
theorem map_eq_ok_iff {r : Except ε α} {f : α → β} :
    (∃ v, r.map f = .ok v) ↔ ∃ v, r = .ok v := by
  cases r with
  | error e =>
    change (∃ v, Except.error e = Except.ok v) ↔ _
    simp
  | ok a =>
    change (∃ v, Except.ok (f a) = Except.ok v) ↔ _
    simp

/-- A loop throws what one of its steps throws in the state before that step. -/
theorem throwsOnly_foldlM {step : β → α → Except ε β} {b : β} {l : List α} :
    ThrowsOnly P (l.foldlM step b) ↔
      ∀ pre a post, l = pre ++ a :: post → ∀ b', pre.foldlM step b = .ok b' →
        ThrowsOnly P (step b' a) := by
  induction l generalizing b with
  | nil =>
    constructor
    · rintro - pre a post h
      exact absurd h (by simp)
    · intro _
      exact throwsOnly_ok b
  | cons x l ih =>
    rw [List.foldlM_cons, throwsOnly_bind]
    constructor
    · rintro ⟨hx, hl⟩ pre a post h b' hb'
      cases pre with
      | nil =>
        obtain ⟨rfl, rfl⟩ := List.cons.inj h
        cases hb'
        exact hx
      | cons y pre =>
        obtain ⟨rfl, rfl⟩ := List.cons.inj h
        rw [List.foldlM_cons] at hb'
        cases hstep : step b x with
        | error e =>
          rw [hstep] at hb'
          cases hb'
        | ok c =>
          rw [hstep] at hb'
          exact ih.mp (hl c hstep) pre a post rfl b' hb'
    · intro h
      refine ⟨h [] x l rfl b rfl, fun c hc => ih.mpr ?_⟩
      rintro pre a post rfl b' hb'
      apply h (x :: pre) a post rfl b'
      rw [List.foldlM_cons, hc]
      exact hb'

end CppCan.Core
