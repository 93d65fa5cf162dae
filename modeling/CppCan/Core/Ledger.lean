import CppCan.Core.Runs
import Mathlib.Data.Nat.Notation

/-!
# Accounts over runs

What single events bring in and take out is added up along a run; if every step
balances the books, so does every run.
-/

namespace CppCan.Core.Ledger

open Runs

variable {σ ε : Type} (step : σ → ε → Option σ)

/-- What the events of a run add up to. -/
def total (count : σ → ε → ℕ) : σ → List ε → ℕ
  | _, [] => 0
  | s, e :: es => count s e + (step s e).elim 0 fun s => total count s es

variable {step} {s s' : σ} {es : List ε}

/-- Nothing is added up exactly if no event of the run counts. -/
theorem total_eq_zero_iff {count : σ → ε → ℕ} (h : run step s es = some s') :
    total step count s es = 0 ↔
      ∀ pre e post u, es = pre ++ e :: post → run step s pre = some u → count u e = 0 := by
  induction es generalizing s with
  | nil => simp [total]
  | cons e es ih =>
    obtain ⟨t, ht, hrest⟩ := Option.bind_eq_some_iff.mp h
    simp only [total, ht, Option.elim_some, Nat.add_eq_zero_iff, ih hrest]
    constructor
    · rintro ⟨hfirst, hlater⟩ pre d post u heq hu
      cases pre with
      | nil =>
        obtain ⟨rfl, rfl⟩ := List.cons.inj heq
        obtain rfl := Option.some.inj hu
        exact hfirst
      | cons c pre =>
        obtain ⟨rfl, htail⟩ := List.cons.inj heq
        simp only [run, ht, Option.bind_some] at hu
        exact hlater pre d post u htail hu
    · intro hall
      refine ⟨hall [] e es s rfl rfl, ?_⟩
      rintro pre d post u rfl hu
      apply hall (e :: pre) d post u rfl
      simpa only [run, ht, Option.bind_some] using hu

/-- If every step balances stock, inflow and outflow, every run does. -/
theorem balance_of_run (inv : σ → Prop) (ok : ε → Prop) (stock : σ → ℕ)
    (inflow outflow : σ → ε → ℕ)
    (hinv : ∀ s e s', inv s → ok e → step s e = some s' → inv s')
    (hstep : ∀ s e s', inv s → ok e → step s e = some s' →
      stock s + inflow s e = stock s' + outflow s e)
    (h : run step s es = some s') (hs : inv s) (hok : ∀ e ∈ es, ok e) :
    stock s + total step inflow s es = stock s' + total step outflow s es := by
  induction es generalizing s with
  | nil => exact Option.some.inj h ▸ rfl
  | cons e es ih =>
    obtain ⟨t, ht, hrest⟩ := Option.bind_eq_some_iff.mp h
    obtain ⟨he, hes⟩ := List.forall_mem_cons.mp hok
    have hfirst := hstep s e t hs he ht
    have hlater := ih hrest (hinv s e t hs he ht) hes
    simp only [total, ht, Option.elim_some]
    omega

/-- The total of two counts together. -/
theorem total_add (f g : σ → ε → ℕ) (s : σ) (es : List ε) :
    total step (fun s e => f s e + g s e) s es = total step f s es + total step g s es := by
  induction es generalizing s with
  | nil => rfl
  | cons e es ih =>
    cases ht : step s e with
    | none => simp [total, ht]
    | some t =>
      simp only [total, ht, Option.elim_some, ih]
      omega

end CppCan.Core.Ledger
