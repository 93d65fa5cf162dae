import CppCan.Core.RwLock
import Mathlib.Algebra.Order.BigOperators.Group.Finset
import Mathlib.Logic.Function.Basic

/-!
# Threads that hold a lock

Each of many threads holds a readers-writer lock shared, unique or not at all. The lock and the
threads agree on this as long as a thread changes its hold only through the lock. When no thread
holds it, every thread can have it. Work that is left to the threads is counted thread by thread.
-/

namespace CppCan.Core

/-- How a thread holds a lock. -/
inductive Hold where
  | free
  | shared
  | unique
  deriving DecidableEq, Repr

namespace RwLock

/-- The holders are the threads that believe so. -/
structure HeldBy (l : RwLock) (hold : Nat → Hold) : Prop where
  shared : ∀ i, i ∈ l.readers ↔ hold i = .shared
  unique : ∀ i, l.writer = some i ↔ hold i = .unique

namespace HeldBy

variable {l l' : RwLock} {hold : Nat → Hold} {i : Nat}

theorem lockShared (h : l.HeldBy hold) (hl : l.lockShared i = some l') (hi : hold i = .free) :
    l'.HeldBy (Function.update hold i .shared) := by
  obtain ⟨-, rfl⟩ := by simpa [RwLock.lockShared] using hl
  constructor
  · intro j
    by_cases hj : j = i
    · simp [hj]
    · simp [hj, h.shared j]
  · intro j
    by_cases hj : j = i
    · simp [hj, h.unique, hi]
    · simp [hj, h.unique j]

theorem unlockShared (h : l.HeldBy hold) (hi : hold i = .shared) :
    (l.unlockShared i).HeldBy (Function.update hold i .free) := by
  constructor
  · intro j
    by_cases hj : j = i
    · simp [RwLock.unlockShared, hj]
    · simp [RwLock.unlockShared, hj, h.shared j]
  · intro j
    by_cases hj : j = i
    · simp [RwLock.unlockShared, hj, h.unique, hi]
    · simp [RwLock.unlockShared, hj, h.unique j]

theorem lockUnique (h : l.HeldBy hold) (hl : l.lockUnique i = some l') (hi : hold i = .free) :
    l'.HeldBy (Function.update hold i .unique) := by
  obtain ⟨⟨hwriter, -⟩, rfl⟩ := by simpa [RwLock.lockUnique] using hl
  constructor
  · intro j
    by_cases hj : j = i
    · simp [hj, h.shared, hi]
    · simp [hj, h.shared j]
  · intro j
    by_cases hj : j = i
    · simp [hj]
    · have hne : hold j ≠ .unique := fun hu => by
        cases hwriter.symm.trans ((h.unique j).mpr hu)
      simp [hj, hne, Ne.symm hj]

theorem unlockUnique (h : l.HeldBy hold) (hi : hold i = .unique) :
    l.unlockUnique.HeldBy (Function.update hold i .free) := by
  constructor
  · intro j
    by_cases hj : j = i
    · simp [RwLock.unlockUnique, hj, h.shared, hi]
    · simp [RwLock.unlockUnique, hj, h.shared j]
  · intro j
    by_cases hj : j = i
    · simp [RwLock.unlockUnique, hj]
    · have hne : hold j ≠ .unique := fun hu =>
        hj (Option.some.inj (((h.unique j).mpr hu).symm.trans ((h.unique i).mpr hi)))
      simp [RwLock.unlockUnique, hj, hne]

/-- A thread that does not touch the lock holds it as before. -/
theorem keep (h : l.HeldBy hold) {x : Hold} (hx : x = hold i) :
    l.HeldBy (Function.update hold i x) := by
  rwa [hx, Function.update_eq_self]

/-- A lock that no thread holds is to be had. -/
theorem available (h : l.HeldBy hold) (hfree : ∀ i, hold i = .free) (i : Nat) :
    (l.lockShared i).isSome = true ∧ (l.lockUnique i).isSome = true := by
  have hwriter : l.writer = none := by
    cases hw : l.writer with
    | none => rfl
    | some j => cases (hfree j).symm.trans ((h.unique j).mp hw)
  have hreaders : l.readers = [] :=
    List.eq_nil_iff_forall_not_mem.mpr fun j hj => by
      cases (hfree j).symm.trans ((h.shared j).mp hj)
  simp [RwLock.lockShared, RwLock.lockUnique, hwriter, hreaders]

end HeldBy

end RwLock

/-- Where one thread's share changes and no other grows, the sum changes by no more than that. -/
theorem sum_update_add_le {α : Type} {n i : Nat} {f g : α → Nat} (threads : Nat → α) (x : α)
    (hi : i < n) (hle : ∀ a, g a ≤ f a) :
    (∑ j ∈ Finset.range n, g (Function.update threads i x j)) + f (threads i) ≤
      (∑ j ∈ Finset.range n, f (threads j)) + g x := by
  have hmem : i ∈ Finset.range n := Finset.mem_range.mpr hi
  rw [← Finset.add_sum_erase _ _ hmem, ← Finset.add_sum_erase _ (fun j => f (threads j)) hmem,
    Function.update_self]
  have hothers : ∑ j ∈ (Finset.range n).erase i, g (Function.update threads i x j) ≤
      ∑ j ∈ (Finset.range n).erase i, f (threads j) := by
    refine Finset.sum_le_sum fun j hj => ?_
    rw [Function.update_of_ne (Finset.ne_of_mem_erase hj)]
    exact hle _
  omega

/-- When one thread has less to do and no other has more, less is left in all. -/
theorem sum_lt_of_update {α : Type} {n i : Nat} {threads : Nat → α} {x : α} {f g : α → Nat}
    (hi : i < n) (hx : g x < f (threads i)) (hle : ∀ a, g a ≤ f a) :
    ∑ j ∈ Finset.range n, g (Function.update threads i x j) <
      ∑ j ∈ Finset.range n, f (threads j) := by
  have h := sum_update_add_le threads x hi hle
  omega

end CppCan.Core
