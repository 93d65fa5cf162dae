import CppCan.Core.Process

/-!
# How long a call takes

A thread may be late: every step of a call takes up to a latency longer than what it waits
for. A wait lasts at most as long as its limit says, whatever arrives meanwhile. The time a
call takes is bounded along its steps, and bounds add up where calls are composed.
-/

namespace CppCan.Core

variable {μ ε ρ σ : Type} {unit latency a b d : Nat}

/-- The call may return the value after the given time. A limit is counted in units, and each
step may be late by the latency. -/
inductive Lasts (unit latency : Nat) : Proc μ ε ρ → Nat → ρ → Prop where
  | ret (r : ρ) : Lasts unit latency (.ret r) 0 r
  | emit {m : μ} {k : Option ε → Proc μ ε ρ} {err : Option ε} {t d : Nat} {r : ρ}
      (ht : t ≤ latency) (h : Lasts unit latency (k err) d r) :
      Lasts unit latency (.emit m k) (t + d) r
  | await {limit : Nat} {accept : μ → Bool} {k : Except ε μ → Proc μ ε ρ} {res : Except ε μ}
      {t d : Nat} {r : ρ} (hres : ∀ m, res = .ok m → accept m = true)
      (ht : t ≤ unit * limit + latency) (h : Lasts unit latency (k res) d r) :
      Lasts unit latency (.await limit accept k) (t + d) r
  | pause {duration : Nat} {k : Proc μ ε ρ} {t d : Nat} {r : ρ} (ht : t ≤ duration + latency)
      (h : Lasts unit latency k d r) : Lasts unit latency (.pause duration k) (t + d) r

/-- However it goes, the call returns within this time. -/
def Within (unit latency : Nat) (p : Proc μ ε ρ) (bound : Nat) : Prop :=
  ∀ d r, Lasts unit latency p d r → d ≤ bound

namespace Within

theorem mono {p : Proc μ ε ρ} (h : Within unit latency p a) (hab : a ≤ b) :
    Within unit latency p b := fun d r hd => Nat.le_trans (h d r hd) hab

theorem ret (r : ρ) : Within unit latency (.ret r : Proc μ ε ρ) a := by
  intro d r' h
  cases h
  exact Nat.zero_le a

theorem emit {m : μ} {k : Option ε → Proc μ ε ρ} (h : ∀ err, Within unit latency (k err) a) :
    Within unit latency (.emit m k) (latency + a) := by
  intro d r hd
  cases hd with
  | emit ht hk => exact Nat.add_le_add ht (h _ _ _ hk)

theorem await {limit : Nat} {accept : μ → Bool} {k : Except ε μ → Proc μ ε ρ}
    (h : ∀ res : Except ε μ, (∀ m, res = .ok m → accept m = true) →
      Within unit latency (k res) a) :
    Within unit latency (.await limit accept k) (unit * limit + latency + a) := by
  intro d r hd
  cases hd with
  | await hres ht hk => exact Nat.add_le_add ht (h _ hres _ _ hk)

theorem pause {duration : Nat} {k : Proc μ ε ρ} (h : Within unit latency k a) :
    Within unit latency (.pause duration k) (duration + latency + a) := by
  intro d r hd
  cases hd with
  | pause ht hk => exact Nat.add_le_add ht (h _ _ hk)

end Within

/-- A composed call lasts as long as its parts. -/
theorem Lasts.exists_of_bind {p : Proc μ ε ρ} {f : ρ → Proc μ ε σ} {s : σ}
    (h : Lasts unit latency (p >>= f) d s) :
    ∃ d₁ d₂ r, Lasts unit latency p d₁ r ∧ Lasts unit latency (f r) d₂ s ∧ d = d₁ + d₂ := by
  induction p generalizing d with
  | ret r => exact ⟨0, d, r, .ret r, h, (Nat.zero_add d).symm⟩
  | emit m k ih =>
    cases h with
    | emit ht hk =>
      obtain ⟨d₁, d₂, r, h₁, h₂, rfl⟩ := ih _ hk
      exact ⟨_, d₂, r, .emit ht h₁, h₂, (Nat.add_assoc _ _ _).symm⟩
  | await limit accept k ih =>
    cases h with
    | await hres ht hk =>
      obtain ⟨d₁, d₂, r, h₁, h₂, rfl⟩ := ih _ hk
      exact ⟨_, d₂, r, .await hres ht h₁, h₂, (Nat.add_assoc _ _ _).symm⟩
  | pause duration k ih =>
    cases h with
    | pause ht hk =>
      obtain ⟨d₁, d₂, r, h₁, h₂, rfl⟩ := ih hk
      exact ⟨_, d₂, r, .pause ht h₁, h₂, (Nat.add_assoc _ _ _).symm⟩

/-- The bounds of two calls that follow each other add up. -/
theorem Within.bind {p : Proc μ ε ρ} {f : ρ → Proc μ ε σ} (hp : Within unit latency p a)
    (hf : ∀ r, Within unit latency (f r) b) : Within unit latency (p >>= f) (a + b) := by
  intro d s h
  obtain ⟨d₁, d₂, r, h₁, h₂, rfl⟩ := h.exists_of_bind
  exact Nat.add_le_add (hp d₁ r h₁) (hf r d₂ s h₂)

end CppCan.Core
