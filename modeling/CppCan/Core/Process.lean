import Mathlib.Control.Basic

/-!
# Calls that exchange messages

A call is the tree of what a thread does until it returns: it emits a message,
waits for one, pauses or returns. A wait takes messages from the thread's inbox
one by one and drops those it does not accept, and it may be given up instead.
A station runs its calls one after another and keeps what they return.
-/

namespace CppCan.Core

/-- A call over messages `μ` and errors `ε` that returns a value of `ρ`. -/
inductive Proc (μ ε ρ : Type) where
  | ret (r : ρ)
  | emit (m : μ) (k : Option ε → Proc μ ε ρ)
  | await (limit : Nat) (accept : μ → Bool) (k : Except ε μ → Proc μ ε ρ)
  | pause (duration : Nat) (k : Proc μ ε ρ)

namespace Proc

variable {μ ε ρ σ : Type}

/-- Continue with what the first call returns. -/
def bind : Proc μ ε ρ → (ρ → Proc μ ε σ) → Proc μ ε σ
  | ret r, f => f r
  | emit m k, f => emit m fun err => (k err).bind f
  | await limit accept k, f => await limit accept fun res => (k res).bind f
  | pause d k, f => pause d (k.bind f)

instance : Monad (Proc μ ε) where
  pure := ret
  bind := bind

@[simp] theorem pure_eq (r : ρ) : (pure r : Proc μ ε ρ) = ret r := rfl

@[simp] theorem ret_bind (r : ρ) (f : ρ → Proc μ ε σ) : (ret r >>= f) = f r := rfl

@[simp] theorem emit_bind (m : μ) (k : Option ε → Proc μ ε ρ) (f : ρ → Proc μ ε σ) :
    (emit m k >>= f) = emit m fun err => k err >>= f := rfl

@[simp] theorem await_bind (limit : Nat) (accept : μ → Bool) (k : Except ε μ → Proc μ ε ρ)
    (f : ρ → Proc μ ε σ) :
    (await limit accept k >>= f) = await limit accept fun res => k res >>= f := rfl

@[simp] theorem pause_bind (d : Nat) (k : Proc μ ε ρ) (f : ρ → Proc μ ε σ) :
    (pause d k >>= f) = pause d (k >>= f) := rfl

end Proc

/-- A thread with its inbox, the call it is in, the calls after it and what the
finished calls returned. -/
structure Station (μ ε ρ : Type) where
  inbox : List μ := []
  calls : List (Proc μ ε ρ) := []
  results : List ρ := []

namespace Station

variable {μ ε ρ : Type}

/-- Put a message at the end of the inbox. -/
def deliver (st : Station μ ε ρ) (m : μ) : Station μ ε ρ := { st with inbox := st.inbox ++ [m] }

/-- The next step of the current call, and the message it emits. -/
def advance (st : Station μ ε ρ) : Option (Station μ ε ρ × Option μ) :=
  match st.calls with
  | [] => none
  | .ret r :: rest => some ({ st with calls := rest, results := st.results ++ [r] }, none)
  | .emit m k :: rest => some ({ st with calls := k none :: rest }, some m)
  | .await _ accept k :: rest =>
    match st.inbox with
    | [] => none
    | m :: ms =>
      if accept m then some ({ st with inbox := ms, calls := k (.ok m) :: rest }, none)
      else some ({ st with inbox := ms }, none)
  | .pause _ k :: rest => some ({ st with calls := k :: rest }, none)

/-- Give up the wait the current call is in. -/
def expire (timeout : ε) (st : Station μ ε ρ) : Option (Station μ ε ρ) :=
  match st.calls with
  | .await _ _ k :: rest => some { st with calls := k (.error timeout) :: rest }
  | _ => none

/-- The messages that end the wait the current call is in. -/
def awaits (st : Station μ ε ρ) : Option (μ → Bool) :=
  match st.calls with
  | .await _ accept _ :: _ => some accept
  | _ => none

/-- All calls have returned, with these results. -/
def Returned (st : Station μ ε ρ) (results : List ρ) : Prop :=
  st.calls = [] ∧ st.results = results

/-- What one step can do. -/
inductive Advance (st : Station μ ε ρ) : Station μ ε ρ → Option μ → Prop where
  | ret {r : ρ} {rest : List (Proc μ ε ρ)} (h : st.calls = .ret r :: rest) :
      Advance st { st with calls := rest, results := st.results ++ [r] } none
  | emit {m : μ} {k : Option ε → Proc μ ε ρ} {rest : List (Proc μ ε ρ)}
      (h : st.calls = .emit m k :: rest) : Advance st { st with calls := k none :: rest } (some m)
  | accept {limit : Nat} {accept : μ → Bool} {k : Except ε μ → Proc μ ε ρ}
      {rest : List (Proc μ ε ρ)} {m : μ} {ms : List μ}
      (h : st.calls = .await limit accept k :: rest)
      (hin : st.inbox = m :: ms) (hm : accept m = true) :
      Advance st { st with inbox := ms, calls := k (.ok m) :: rest } none
  | discard {limit : Nat} {accept : μ → Bool} {k : Except ε μ → Proc μ ε ρ}
      {rest : List (Proc μ ε ρ)} {m : μ} {ms : List μ}
      (h : st.calls = .await limit accept k :: rest)
      (hin : st.inbox = m :: ms) (hm : accept m = false) :
      Advance st { st with inbox := ms } none
  | pause {d : Nat} {k : Proc μ ε ρ} {rest : List (Proc μ ε ρ)}
      (h : st.calls = .pause d k :: rest) : Advance st { st with calls := k :: rest } none

variable {st st' : Station μ ε ρ} {out : Option μ}

/-- The step function takes exactly these steps. -/
theorem advance_eq_some : st.advance = some (st', out) ↔ Advance st st' out := by
  constructor
  · intro h
    simp only [advance] at h
    split at h
    · exact absurd h (by simp)
    · rename_i hc
      obtain ⟨rfl, rfl⟩ := by simpa using h
      exact .ret hc
    · rename_i hc
      obtain ⟨rfl, rfl⟩ := by simpa using h
      exact .emit hc
    · rename_i hc
      split at h
      · exact absurd h (by simp)
      · rename_i hin
        split at h
        · rename_i hm
          obtain ⟨rfl, rfl⟩ := by simpa using h
          exact .accept hc hin hm
        · rename_i hm
          obtain ⟨rfl, rfl⟩ := by simpa using h
          exact .discard hc hin (by simpa using hm)
    · rename_i hc
      obtain ⟨rfl, rfl⟩ := by simpa using h
      exact .pause hc
  · rintro (h | h | ⟨h, hin, hm⟩ | ⟨h, hin, hm⟩ | h)
    · simp [advance, h]
    · simp [advance, h]
    · simp [advance, h, hin, hm]
    · simp [advance, h, hin, hm]
    · simp [advance, h]

/-- A message at the end of the inbox does not change an enabled step. -/
theorem Advance.deliver (h : Advance st st' out) (m : μ) :
    Advance (st.deliver m) (st'.deliver m) out := by
  cases h with
  | ret h => exact .ret h
  | emit h => exact .emit h
  | accept h hin hm => exact .accept h (by simp [Station.deliver, hin]) hm
  | discard h hin hm => exact .discard h (by simp [Station.deliver, hin]) hm
  | pause h => exact .pause h

/-- Messages that arrive do not disturb an enabled step. -/
theorem Advance.elim_deliver (h : Advance st st' out) (o : Option μ) :
    Advance (o.elim st st.deliver) (o.elim st' st'.deliver) out := by
  cases o with
  | none => exact h
  | some m => exact h.deliver m

/-- Messages that arrive do not end the wait by themselves. -/
theorem awaits_elim_deliver (st : Station μ ε ρ) (o : Option μ) :
    (o.elim st st.deliver).awaits = st.awaits := by
  cases o <;> rfl

/-- The wait depends on the current call only. -/
theorem awaits_congr (st : Station μ ε ρ) {st' : Station μ ε ρ} (h : st.calls = st'.calls) :
    st.awaits = st'.awaits := by
  simp only [awaits, h]

/-- A station with no call left waits for nothing. -/
theorem awaits_of_nil (h : st.calls = []) : st.awaits = none := by
  simp [awaits, h]

/-- A station with no call left has finished. -/
theorem Advance.calls_ne_nil (h : Advance st st' out) : st.calls ≠ [] := by
  cases h <;> simp [*]

/-- A wait that takes a step takes a message; it goes on if it does not accept it. -/
theorem Advance.of_awaits {accept : μ → Bool} (h : Advance st st' out)
    (hw : st.awaits = some accept) :
    ∃ m, st.inbox = m :: st'.inbox ∧ out = none ∧
      (accept m = false → st'.calls = st.calls ∧ st'.results = st.results) := by
  cases h with
  | ret h => simp [awaits, h] at hw
  | emit h => simp [awaits, h] at hw
  | accept h hin hm =>
    obtain rfl : _ = accept := by simpa [awaits, h] using hw
    exact ⟨_, hin, rfl, fun hrefuse => absurd hm (by simp [hrefuse])⟩
  | discard h hin hm => exact ⟨_, hin, rfl, fun _ => ⟨rfl, rfl⟩⟩
  | pause h => simp [awaits, h] at hw

/-- A wait takes a step only when something is in the inbox. -/
theorem Advance.inbox_ne_nil {accept : μ → Bool} (h : Advance st st' out)
    (hw : st.awaits = some accept) : st.inbox ≠ [] := by
  obtain ⟨m, hin, -⟩ := h.of_awaits hw
  simp [hin]

/-- A wait that no message of the inbox ends can only drop messages. -/
theorem Advance.of_unaccepted {accept : μ → Bool} (h : Advance st st' out)
    (hw : st.awaits = some accept) (hin : ∀ m ∈ st.inbox, accept m = false) :
    st'.calls = st.calls ∧ st'.results = st.results ∧ out = none := by
  obtain ⟨m, hm, hout, hkeep⟩ := h.of_awaits hw
  obtain ⟨hcalls, hresults⟩ := hkeep (hin m (hm ▸ List.mem_cons_self))
  exact ⟨hcalls, hresults, hout⟩

/-- A wait with a message in the inbox goes on. -/
theorem exists_advance_of_mem {accept : μ → Bool} {m : μ} (hw : st.awaits = some accept)
    (hm : m ∈ st.inbox) : ∃ st', st.Advance st' none := by
  obtain ⟨m', ms, hin⟩ := List.exists_cons_of_ne_nil (List.ne_nil_of_mem hm)
  simp only [awaits] at hw
  split at hw
  · rename_i hc
    cases ha : accept m' with
    | true => exact ⟨_, .accept hc hin (by rw [Option.some.inj hw, ha])⟩
    | false => exact ⟨_, .discard hc hin (by rw [Option.some.inj hw, ha])⟩
  · exact absurd hw (by simp)

/-- Only a wait can be given up. -/
theorem expire_eq_some {timeout : ε} : st.expire timeout = some st' ↔
    ∃ limit accept k rest, st.calls = .await limit accept k :: rest ∧
      st' = { st with calls := k (.error timeout) :: rest } := by
  constructor
  · intro h
    simp only [expire] at h
    split at h
    · rename_i hc
      exact ⟨_, _, _, _, hc, by simpa using h.symm⟩
    · exact absurd h (by simp)
  · rintro ⟨limit, accept, k, rest, hc, rfl⟩
    simp [expire, hc]

/-- The step is determined by the station. -/
theorem Advance.unique {st'' : Station μ ε ρ} {out' : Option μ} (h : Advance st st' out)
    (h' : Advance st st'' out') : st' = st'' ∧ out = out' := by
  simpa using Option.some.inj ((advance_eq_some.mpr h).symm.trans (advance_eq_some.mpr h'))

/-- The station has nothing to take and will emit nothing before it takes something. -/
structure Rests (st : Station μ ε ρ) : Prop where
  inbox : st.inbox = []
  calls : st.calls = [] ∨ (∃ r, st.calls = [.ret r]) ∨ ∃ accept, st.awaits = some accept

/-- A station at rest can only return. -/
theorem Rests.advance (h : st.Rests) (hadv : Advance st st' out) :
    out = none ∧ st'.Rests ∧ st.awaits = none := by
  obtain ⟨hin, hnil | ⟨r, hret⟩ | ⟨accept, hw⟩⟩ := h
  · exact absurd hnil hadv.calls_ne_nil
  · obtain ⟨rfl, rfl⟩ := hadv.unique (.ret hret)
    exact ⟨rfl, ⟨hin, .inl rfl⟩, by simp [awaits, hret]⟩
  · exact absurd hin (hadv.inbox_ne_nil hw)

end Station

end CppCan.Core
