import CppCan.Core.Streams

/-!
# How far an inbox can fill up

A call that emits a bounded number of messages cannot fill the inbox of its
peer beyond that number. A first message that has to be answered before the
others follow need not be counted with them.
-/

namespace CppCan.Core

variable {μ ε ρ σ : Type}

/-- One message is taken off a budget. -/
def Spends (n : Nat) (_ : μ) (n' : Nat) : Prop := n = n' + 1

namespace Station

variable {st st' : Station μ ε ρ} {out : Option μ} {n : Nat}

/-- A station does not fill its own inbox. -/
theorem Advance.inbox_length_le (h : st.Advance st' out) : st'.inbox.length ≤ st.inbox.length := by
  cases h with
  | accept h hin => simp [hin]
  | discard h hin => simp [hin]
  | _ => exact Nat.le_refl _

/-- What a station emits is taken off its budget. -/
theorem Advance.sends (h : st.Advance st' out) (hs : Duplex.Sends Spends st.calls n) :
    ∃ n', Duplex.Sends Spends st'.calls n' ∧ n = n' + out.toList.length := by
  cases h with
  | ret hc =>
    rw [hc] at hs
    exact ⟨n, hs.of_cons n, rfl⟩
  | emit hc =>
    rw [hc] at hs
    obtain ⟨n', hn, hk⟩ := hs.1 _ rfl
    exact ⟨n', hs.head fun _ => hk none, hn⟩
  | @accept limit accept k rest m ms hc =>
    rw [hc] at hs
    exact ⟨n, hs.head fun hk => hk (.ok m), rfl⟩
  | discard hc => exact ⟨n, hs, rfl⟩
  | pause hc =>
    rw [hc] at hs
    exact ⟨n, hs.head id, rfl⟩

end Station

namespace Duplex

variable {cap n : Nat} {s t : Duplex μ ε ρ σ}

/-- Both stations have budgets for which there is room at the other end. -/
structure Budgeted (cap : Nat) (s : Duplex μ ε ρ σ) : Prop where
  left : ∃ n, Sends Spends s.left.calls n ∧ s.right.inbox.length + n ≤ cap
  right : ∃ n, Sends Spends s.right.calls n ∧ s.left.inbox.length + n ≤ cap

/-- The left station emits once and waits for the answer before it takes up its
budget; the right one takes whatever comes first. -/
inductive Paced (cap : Nat) (s : Duplex μ ε ρ σ) : Prop
  | opening {m : μ} {k : Option ε → Proc μ ε ρ} {l l' : Nat} {p p' : μ → Bool}
      {c : Except ε μ → Proc μ ε ρ} {c' : Except ε μ → Proc μ ε σ}
      (hs : s = ⟨{ calls := [.emit m k] }, { calls := [.await l' p' c'] }⟩)
      (hk : k none = .await l p c) (hl : Sends Spends [k none] cap)
      (hr : Sends Spends s.right.calls cap)
  | waiting {p p' : μ → Bool} (hin : s.left.inbox = []) (hin' : s.right.inbox.length ≤ 1)
      (hl : s.left.awaits = some p) (hr : s.right.awaits = some p')
      (hls : Sends Spends s.left.calls cap) (hrs : Sends Spends s.right.calls cap)
  | budgeted (h : Budgeted cap s)

/-- A single call is bounded by what it emits. -/
theorem sends_singleton {c : Proc μ ε ρ} (h : c.Emits Spends (fun _ _ => True) n) :
    Sends Spends [c] n :=
  ⟨by simpa using h, by simp⟩

/-- What a station emits arrives at the other one. -/
theorem length_inbox_elim_deliver (st : Station μ ε ρ) (out : Option μ) :
    (out.elim st st.deliver).inbox.length = st.inbox.length + out.toList.length := by
  cases out <;> simp [Station.deliver]

/-- Messages that arrive leave the budget as it is. -/
theorem Sends.elim_deliver {st : Station μ ε ρ} (h : Sends Spends st.calls n) (out : Option μ) :
    Sends Spends (out.elim st st.deliver).calls n := by
  cases out <;> exact h

/-- A step keeps the budgets. -/
theorem Budgeted.progress (h : Budgeted cap s) (hgo : Progress s t) : Budgeted cap t := by
  obtain ⟨⟨n, hl, hn⟩, m, hr, hm⟩ := h
  rcases progress_iff.mp hgo with ⟨st, out, hst, rfl⟩ | ⟨st, out, hst, rfl⟩
  · obtain ⟨n', hl', rfl⟩ := hst.sends hl
    have hle := hst.inbox_length_le
    refine ⟨⟨n', hl', ?_⟩, m, hr.elim_deliver out, by dsimp only; omega⟩
    rw [length_inbox_elim_deliver]
    omega
  · obtain ⟨m', hr', rfl⟩ := hst.sends hr
    have hle := hst.inbox_length_le
    refine ⟨⟨n, hl.elim_deliver out, by dsimp only; omega⟩, m', hr', ?_⟩
    rw [length_inbox_elim_deliver]
    omega

/-- A step keeps the pace. -/
theorem Paced.progress (h : Paced cap s) (hgo : Progress s t) : Paced cap t := by
  cases h with
  | @opening m k l _ p _ c _ hs hk hl hr =>
    subst hs
    rcases progress_iff.mp hgo with ⟨st, out, hst, rfl⟩ | ⟨st, out, hst, rfl⟩
    · obtain ⟨rfl, rfl⟩ := hst.unique (.emit rfl)
      have hw : Station.awaits ⟨[], [k none], []⟩ = some p := by rw [Station.awaits, hk]
      exact .waiting rfl (Nat.le_refl 1) hw rfl hl hr
    · exact absurd rfl (hst.inbox_ne_nil rfl)
  | waiting hin hin' hl hr hls hrs =>
    rcases progress_iff.mp hgo with ⟨st, out, hst, rfl⟩ | ⟨st, out, hst, rfl⟩
    · exact absurd hin (hst.inbox_ne_nil hl)
    · obtain ⟨f, hf, rfl, -⟩ := hst.of_awaits hr
      obtain ⟨m, hrs', hm⟩ := hst.sends hrs
      rw [hf, List.length_cons] at hin'
      refine .budgeted ⟨⟨_, hls, ?_⟩, m, hrs', ?_⟩
      · dsimp only
        omega
      · simp [hin, hm]
  | budgeted h => exact .budgeted (h.progress hgo)

/-- A station that emits has something left of its budget. -/
theorem Sends.pos {st st' : Station μ ε ρ} {m : μ} (h : Sends Spends st.calls n)
    (hst : st.Advance st' (some m)) : 0 < n := by
  obtain ⟨n', -, rfl⟩ := hst.sends h
  exact Nat.succ_pos n'

/-- There is room for what the left station emits. -/
theorem Paced.room_right {st : Station μ ε ρ} {m : μ} (h : Paced cap s) (hcap : 0 < cap)
    (hst : s.left.Advance st (some m)) : s.right.inbox.length < cap := by
  cases h with
  | opening hs =>
    subst hs
    exact hcap
  | waiting hin hin' hl => exact absurd hin (hst.inbox_ne_nil hl)
  | budgeted h =>
    obtain ⟨n, hl, hn⟩ := h.left
    have hpos := hl.pos hst
    omega

/-- There is room for what the right station emits. -/
theorem Paced.room_left {st : Station μ ε σ} {m : μ} (h : Paced cap s)
    (hst : s.right.Advance st (some m)) : s.left.inbox.length < cap := by
  cases h with
  | opening hs =>
    subst hs
    exact absurd rfl (hst.inbox_ne_nil rfl)
  | waiting hin hin' hl hr => 
    obtain ⟨f, -, hout, -⟩ := hst.of_awaits hr
    exact absurd hout (by simp)
  | budgeted h =>
    obtain ⟨n, hr, hn⟩ := h.right
    have hpos := hr.pos hst
    omega

end Duplex

end CppCan.Core
