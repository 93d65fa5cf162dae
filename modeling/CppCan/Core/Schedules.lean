import Mathlib.Logic.Relation

/-!
# Runs and schedules

A step relation offers several next states, one for each choice of the
scheduler. A property is inevitable when every schedule meets it, including the
schedules that stop because no step is left. When any two steps from one state
can be joined by one further step each, all schedules that end do so in the
same state and after the same number of steps.
-/

namespace CppCan.Core

open Relation

variable {α : Type*} {r : α → α → Prop} {P Q : α → Prop} {s t u : α} {n : Nat}

/-- No schedule goes on from `s`. -/
def Stuck (r : α → α → Prop) (s : α) : Prop := ∀ t, ¬ r s t

/-- Every schedule from a state meets `P`. -/
inductive Inevitably (r : α → α → Prop) (P : α → Prop) : α → Prop where
  | now {s : α} (h : P s) : Inevitably r P s
  | later {s : α} (hgo : ∃ t, r s t) (h : ∀ t, r s t → Inevitably r P t) : Inevitably r P s

/-- A weaker property is met as well. -/
theorem Inevitably.mono (hPQ : ∀ s, P s → Q s) (h : Inevitably r P s) : Inevitably r Q s := by
  induction h with
  | now h => exact .now (hPQ _ h)
  | later hgo _ ih => exact .later hgo ih

/-- Two inevitable properties that are never lost again are met together. -/
theorem Inevitably.meet (hP : ∀ s t, r s t → P s → P t) (hQ : ∀ s t, r s t → Q s → Q t)
    (hp : Inevitably r P s) (hq : Inevitably r Q s) : ∃ t, P t ∧ Q t := by
  induction hp with
  | now hp =>
    induction hq with
    | now hq => exact ⟨_, hp, hq⟩
    | later hgo _ ih =>
      obtain ⟨t, hst⟩ := hgo
      exact ih t hst (hP _ _ hst hp)
  | later hgo _ ih =>
    obtain ⟨t, hst⟩ := hgo
    refine ih t hst ?_
    cases hq with
    | now hq => exact .now (hQ _ _ hst hq)
    | later _ h => exact h t hst

/-- A ranked invariant whose states go on, with a smaller rank after every step,
until they meet `P`. -/
theorem Inevitably.of_rank (I : Nat → α → Prop)
    (h : ∀ n s, I n s → P s ∨ (∃ t, r s t) ∧ ∀ t, r s t → ∃ m < n, I m t) (hs : I n s) :
    Inevitably r P s := by
  induction n using Nat.strongRecOn generalizing s with
  | ind n ih =>
    rcases h n s hs with hp | ⟨hgo, hnext⟩
    · exact .now hp
    · refine .later hgo fun t hst => ?_
      obtain ⟨m, hm, ht⟩ := hnext t hst
      exact ih m hm ht

/-- The end state `t` is reached in exactly `n` steps. -/
inductive EndsIn (r : α → α → Prop) (t : α) : Nat → α → Prop where
  | done : EndsIn r t 0 t
  | step {n : Nat} {s u : α} (hsu : r s u) (h : EndsIn r t n u) : EndsIn r t (n + 1) s

/-- A counted run is a run. -/
theorem EndsIn.reflTransGen (h : EndsIn r t n s) : ReflTransGen r s t := by
  induction h with
  | done => exact .refl
  | step hsu _ ih => exact .head hsu ih

/-- A counted run is at its end or has a first step. -/
theorem EndsIn.cases_head (h : EndsIn r t n s) : s = t ∨ ∃ u, r s u := by
  cases h with
  | done => exact .inl rfl
  | step hsu _ => exact .inr ⟨_, hsu⟩

/-- A run can be counted. -/
theorem exists_endsIn (h : ReflTransGen r s t) : ∃ n, EndsIn r t n s := by
  induction h using ReflTransGen.head_induction_on with
  | refl => exact ⟨0, .done⟩
  | head hsu _ ih =>
    obtain ⟨n, hn⟩ := ih
    exact ⟨n + 1, .step hsu hn⟩

/-- Two steps from one state agree or are joined by one further step each. -/
def Diamond (r : α → α → Prop) : Prop :=
  ∀ s a b, r s a → r s b → a = b ∨ ∃ c, r a c ∧ r b c

/-- Whatever step is taken, the same end is reached with one step less to go. -/
theorem EndsIn.of_step (hr : Diamond r) (ht : Stuck r t) (h : EndsIn r t n s) (hsu : r s u) :
    ∃ m, n = m + 1 ∧ EndsIn r t m u := by
  induction h generalizing u with
  | done => exact absurd hsu (ht u)
  | step hsv hv ih =>
    rcases hr _ _ _ hsu hsv with rfl | ⟨c, huc, hvc⟩
    · exact ⟨_, rfl, hv⟩
    · obtain ⟨m, rfl, hc⟩ := ih hvc
      exact ⟨m + 1, rfl, .step huc hc⟩

end CppCan.Core
