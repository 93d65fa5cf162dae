import Mathlib.Data.Option.Basic

/-!
# Runs of a system

A system takes steps that are chosen by events. A run is given by its events, and what
every step keeps holds along it. If some events cannot be seen through a relation to the
states of another system, and the other events keep the relation, that system runs along
on the events that can be seen.
-/

namespace CppCan.Core.Runs

variable {σ ε : Type} (step : σ → ε → Option σ)

/-- The state after a sequence of events. -/
def run : σ → List ε → Option σ
  | s, [] => some s
  | s, e :: es => (step s e).bind fun s => run s es

variable {step} {s s' : σ} {es : List ε}

theorem run_append (s : σ) (es es' : List ε) :
    run step s (es ++ es') = (run step s es).bind fun s => run step s es' := by
  induction es generalizing s with
  | nil => rfl
  | cons e es ih =>
    rw [List.cons_append, run, run, Option.bind_assoc]
    exact congrArg _ (funext ih)

/-- What every step keeps holds along every run. -/
theorem invariant (inv : σ → Prop)
    (hstep : ∀ s e s', inv s → step s e = some s' → inv s') (hs : inv s)
    (hrun : run step s es = some s') : inv s' := by
  induction es generalizing s with
  | nil => exact Option.some.inj hrun ▸ hs
  | cons e es ih =>
    obtain ⟨u, hu, hrest⟩ := Option.bind_eq_some_iff.mp hrun
    exact ih (hstep s e u hs hu) hrest

/-- A run, and the run of another system on the events that are kept. -/
theorem exists_run_filter {τ : Type} {step' : τ → ε → Option τ} {t : τ} {keep : ε → Bool}
    {rel : σ → τ → Prop}
    (hkeep : ∀ s t e s', keep e = true → rel s t → step s e = some s' →
      ∃ t', step' t e = some t' ∧ rel s' t')
    (hhide : ∀ s t e s', keep e = false → rel s t → step s e = some s' → rel s' t)
    (h : rel s t) (hrun : run step s es = some s') :
    ∃ t', run step' t (es.filter keep) = some t' ∧ rel s' t' := by
  induction es generalizing s t with
  | nil => exact ⟨t, rfl, Option.some.inj hrun ▸ h⟩
  | cons e es ih =>
    obtain ⟨u, hu, hrest⟩ := Option.bind_eq_some_iff.mp hrun
    cases he : keep e with
    | true =>
      obtain ⟨v, hv, huv⟩ := hkeep s t e u he h hu
      obtain ⟨t', ht', hrel⟩ := ih huv hrest
      refine ⟨t', ?_, hrel⟩
      rw [List.filter_cons_of_pos he, run, hv, Option.bind_some, ht']
    | false =>
      rw [List.filter_cons_of_neg (by simp [he])]
      exact ih (hhide s t e u he h hu) hrest

end CppCan.Core.Runs
