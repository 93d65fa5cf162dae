import CppCan.Core.Streams

/-!
# Runs of a call

A run of a call shows what the call emits and how that is answered, which messages its
waits take, drop and end with, and what it returns. A call that follows an automaton, or
reads one, does so in each of its runs. Every call returns, whatever is in its inbox and
however its messages are answered.
-/

namespace CppCan.Core

/-- What one step of a call shows. -/
inductive Label (μ ε : Type) where
  | sent (m : μ) (err : Option ε)
  | took (m : μ)
  | dropped (m : μ)
  | gaveUp (err : ε)
  | paused (duration : Nat)
  deriving DecidableEq, Repr

namespace Label

variable {μ ε : Type}

/-- The message that the call gave away, whether it was taken or not. -/
def offer? : Label μ ε → Option μ
  | sent m _ => some m
  | _ => none

/-- The message that the call gave away and that was taken. -/
def accepted? : Label μ ε → Option μ
  | sent m none => some m
  | _ => none

/-- The message that ended a wait. -/
def taken? : Label μ ε → Option μ
  | took m => some m
  | _ => none

/-- The message that a wait removed from the inbox. -/
def consumed? : Label μ ε → Option μ
  | took m => some m
  | dropped m => some m
  | _ => none

end Label

variable {μ ε ρ σ Q : Type}

/-- The messages given away in a run. -/
def offered (ls : List (Label μ ε)) : List μ := ls.filterMap Label.offer?

/-- The messages given away in a run and taken. -/
def accepted (ls : List (Label μ ε)) : List μ := ls.filterMap Label.accepted?

/-- The messages that ended the waits of a run. -/
def taken (ls : List (Label μ ε)) : List μ := ls.filterMap Label.taken?

/-- The messages that a run removed from the inbox. -/
def consumed (ls : List (Label μ ε)) : List μ := ls.filterMap Label.consumed?

/-- The number of messages given away before the first one that ends a wait. -/
def burst : List (Label μ ε) → Nat
  | [] => 0
  | .sent _ _ :: ls => burst ls + 1
  | .took _ :: _ => 0
  | _ :: ls => burst ls

section Views

variable (l : Label μ ε) (ls ls' : List (Label μ ε)) (ms : List μ)

@[simp] theorem offered_nil : offered ([] : List (Label μ ε)) = [] := rfl

@[simp] theorem accepted_nil : accepted ([] : List (Label μ ε)) = [] := rfl

@[simp] theorem taken_nil : taken ([] : List (Label μ ε)) = [] := rfl

@[simp] theorem consumed_nil : consumed ([] : List (Label μ ε)) = [] := rfl

@[simp] theorem offered_cons : offered (l :: ls) = l.offer?.toList ++ offered ls := by
  cases l <;> rfl

@[simp] theorem accepted_cons : accepted (l :: ls) = l.accepted?.toList ++ accepted ls := by
  rcases l with ⟨m, _ | err⟩ | _ | _ | _ | _ <;> rfl

@[simp] theorem taken_cons : taken (l :: ls) = l.taken?.toList ++ taken ls := by
  cases l <;> rfl

@[simp] theorem consumed_cons : consumed (l :: ls) = l.consumed?.toList ++ consumed ls := by
  cases l <;> rfl

@[simp] theorem offered_append : offered (ls ++ ls') = offered ls ++ offered ls' :=
  List.filterMap_append

@[simp] theorem accepted_append : accepted (ls ++ ls') = accepted ls ++ accepted ls' :=
  List.filterMap_append

@[simp] theorem taken_append : taken (ls ++ ls') = taken ls ++ taken ls' := List.filterMap_append

@[simp] theorem consumed_append : consumed (ls ++ ls') = consumed ls ++ consumed ls' :=
  List.filterMap_append

end Views

/-- What a wait shows, and the message that ends it or the error with which it is given up. -/
inductive Waits (accept : μ → Bool) : List (Label μ ε) → Except ε μ → Prop where
  | took {m : μ} (hm : accept m = true) : Waits accept [.took m] (.ok m)
  | gaveUp (err : ε) : Waits accept [.gaveUp err] (.error err)
  | dropped {m : μ} {ls : List (Label μ ε)} {res : Except ε μ} (hm : accept m = false)
      (h : Waits accept ls res) : Waits accept (.dropped m :: ls) res

namespace Waits

variable {accept : μ → Bool} {ls : List (Label μ ε)} {res : Except ε μ}

/-- A wait gives nothing away. -/
theorem offered_eq (h : Waits accept ls res) : offered ls = [] := by
  induction h with
  | took hm => rfl
  | gaveUp err => rfl
  | dropped hm h ih => simpa [Label.offer?] using ih

theorem accepted_eq (h : Waits accept ls res) : accepted ls = [] := by
  induction h with
  | took hm => rfl
  | gaveUp err => rfl
  | dropped hm h ih => simpa [Label.accepted?] using ih

/-- A wait takes the message that ends it. -/
theorem taken_eq (h : Waits accept ls res) : taken ls = res.toOption.toList := by
  induction h with
  | took hm => rfl
  | gaveUp err => rfl
  | dropped hm h ih => simpa [Label.taken?] using ih

/-- Nothing is given away before a wait ends. -/
theorem burst_append {m : μ} (h : Waits accept ls (.ok m)) (ls' : List (Label μ ε)) :
    burst (ls ++ ls') = 0 := by
  generalize hres : Except.ok m = res at h
  induction h with
  | took hm => rfl
  | gaveUp err => cases hres
  | dropped hm h ih => exact ih hres

/-- A wait gives nothing away. -/
theorem burst_eq (h : Waits accept ls res) : burst ls = 0 := by
  induction h with
  | took hm => rfl
  | gaveUp err => rfl
  | dropped hm h ih => exact ih

/-- A wait is ended by a message that it accepts. -/
theorem accepts {m : μ} (h : Waits accept ls (.ok m)) : accept m = true := by
  generalize hres : Except.ok m = res at h
  induction h with
  | took hm =>
    cases hres
    exact hm
  | gaveUp err => cases hres
  | dropped hm h ih => exact ih hres

/-- A wait that accepts every message drops none. -/
theorem of_any (h : Waits (fun _ => true) ls res) :
    (∃ m, ls = [.took m] ∧ res = .ok m) ∨ ∃ err, ls = [.gaveUp err] ∧ res = .error err := by
  cases h with
  | took hm => exact .inl ⟨_, rfl, rfl⟩
  | gaveUp err => exact .inr ⟨err, rfl, rfl⟩
  | dropped hm h => exact absurd hm (by simp)

end Waits

namespace Proc

/-- The call shows these labels and returns. -/
inductive Trace : Proc μ ε ρ → List (Label μ ε) → ρ → Prop where
  | ret (r : ρ) : Trace (.ret r) [] r
  | emit {m : μ} {k : Option ε → Proc μ ε ρ} {err : Option ε} {ls : List (Label μ ε)} {r : ρ}
      (h : Trace (k err) ls r) : Trace (.emit m k) (.sent m err :: ls) r
  | accept {limit : Nat} {accept : μ → Bool} {k : Except ε μ → Proc μ ε ρ} {m : μ}
      {ls : List (Label μ ε)} {r : ρ} (hm : accept m = true) (h : Trace (k (.ok m)) ls r) :
      Trace (.await limit accept k) (.took m :: ls) r
  | discard {limit : Nat} {accept : μ → Bool} {k : Except ε μ → Proc μ ε ρ} {m : μ}
      {ls : List (Label μ ε)} {r : ρ} (hm : accept m = false)
      (h : Trace (.await limit accept k) ls r) :
      Trace (.await limit accept k) (.dropped m :: ls) r
  | giveUp {limit : Nat} {accept : μ → Bool} {k : Except ε μ → Proc μ ε ρ} {err : ε}
      {ls : List (Label μ ε)} {r : ρ} (h : Trace (k (.error err)) ls r) :
      Trace (.await limit accept k) (.gaveUp err :: ls) r
  | pause {d : Nat} {k : Proc μ ε ρ} {ls : List (Label μ ε)} {r : ρ} (h : Trace k ls r) :
      Trace (.pause d k) (.paused d :: ls) r

variable {ls : List (Label μ ε)} {r : ρ}

@[simp] theorem trace_ret {r' : ρ} :
    (ret r' : Proc μ ε ρ).Trace ls r ↔ ls = [] ∧ r = r' := by
  constructor
  · rintro ⟨⟩
    exact ⟨rfl, rfl⟩
  · rintro ⟨rfl, rfl⟩
    exact .ret r

theorem trace_emit {m : μ} {k : Option ε → Proc μ ε ρ} :
    (emit m k).Trace ls r ↔ ∃ err ls', ls = .sent m err :: ls' ∧ (k err).Trace ls' r := by
  constructor
  · rintro ⟨⟩
    exact ⟨_, _, rfl, ‹_›⟩
  · rintro ⟨err, ls', rfl, h⟩
    exact .emit h

theorem trace_pause {d : Nat} {k : Proc μ ε ρ} :
    (pause d k).Trace ls r ↔ ∃ ls', ls = .paused d :: ls' ∧ k.Trace ls' r := by
  constructor
  · rintro ⟨⟩
    exact ⟨_, rfl, ‹_›⟩
  · rintro ⟨ls', rfl, h⟩
    exact .pause h

/-- A wait is a run of the wait itself and one of what follows. -/
theorem trace_await {limit : Nat} {accept : μ → Bool} {k : Except ε μ → Proc μ ε ρ} :
    (await limit accept k).Trace ls r ↔
      ∃ ls₁ ls₂ res, ls = ls₁ ++ ls₂ ∧ Waits accept ls₁ res ∧ (k res).Trace ls₂ r := by
  constructor
  · intro h
    generalize hc : await limit accept k = c at h
    induction h with
    | ret r => cases hc
    | emit h ih => cases hc
    | @accept _ _ _ m ls r hm h ih =>
      cases hc
      exact ⟨[.took m], ls, .ok m, rfl, .took hm, h⟩
    | @discard _ _ _ m ls r hm h ih =>
      cases hc
      obtain ⟨ls₁, ls₂, res, rfl, hw, hk⟩ := ih rfl
      exact ⟨.dropped m :: ls₁, ls₂, res, rfl, .dropped hm hw, hk⟩
    | @giveUp _ _ _ err ls r h ih =>
      cases hc
      exact ⟨[.gaveUp err], ls, .error err, rfl, .gaveUp err, h⟩
    | pause h ih => cases hc
  · rintro ⟨ls₁, ls₂, res, rfl, hw, hk⟩
    induction hw with
    | took hm => exact .accept hm hk
    | gaveUp err => exact .giveUp hk
    | dropped hm hw ih => exact .discard hm (ih hk)

/-- A run of a sequence is a run of its first part and one of what follows. -/
theorem trace_bind {c : Proc μ ε ρ} {f : ρ → Proc μ ε σ} {r : σ} :
    (c >>= f).Trace ls r ↔
      ∃ ls₁ ls₂ a, ls = ls₁ ++ ls₂ ∧ c.Trace ls₁ a ∧ (f a).Trace ls₂ r := by
  constructor
  · intro h
    induction c generalizing ls with
    | ret a => exact ⟨[], ls, a, rfl, .ret a, h⟩
    | emit m k ih =>
      rw [emit_bind] at h
      obtain ⟨err, ls', rfl, hk⟩ := trace_emit.mp h
      obtain ⟨ls₁, ls₂, a, rfl, hc, hf⟩ := ih err hk
      exact ⟨_ :: ls₁, ls₂, a, rfl, .emit hc, hf⟩
    | await limit accept k ih =>
      rw [await_bind] at h
      obtain ⟨ls₀, ls', res, rfl, hw, hk⟩ := trace_await.mp h
      obtain ⟨ls₁, ls₂, a, rfl, hc, hf⟩ := ih res hk
      refine ⟨ls₀ ++ ls₁, ls₂, a, (List.append_assoc _ _ _).symm, ?_, hf⟩
      exact trace_await.mpr ⟨ls₀, ls₁, res, rfl, hw, hc⟩
    | pause d k ih =>
      rw [pause_bind] at h
      obtain ⟨ls', rfl, hk⟩ := trace_pause.mp h
      obtain ⟨ls₁, ls₂, a, rfl, hc, hf⟩ := ih hk
      exact ⟨_ :: ls₁, ls₂, a, rfl, .pause hc, hf⟩
  · rintro ⟨ls₁, ls₂, a, rfl, hc, hf⟩
    induction hc with
    | ret a => exact hf
    | emit h ih => exact .emit (ih hf)
    | accept hm h ih => exact .accept hm (ih hf)
    | discard hm h ih => exact .discard hm (ih hf)
    | giveUp h ih => exact .giveUp (ih hf)
    | pause h ih => exact .pause (ih hf)

/-- A call that may drop any message returns a good value whenever the messages it removes
begin a stream that it reads. -/
theorem Reads.good_of_trace {δ : Q → μ → Q → Prop} {good : ρ → Prop} {c : Proc μ ε ρ} {q q' : Q}
    (h : c.Reads δ (fun _ => false) good q) (htrace : c.Trace ls r)
    (hstream : Stream δ q (consumed ls) q') : good r := by
  induction htrace generalizing q with
  | ret r => exact h
  | @emit m k err ls r htrace ih => exact ih (h err) hstream
  | @accept limit accept k m ls r hm htrace ih =>
    obtain ⟨R, hR, hk⟩ := h
    cases hstream with
    | cons hδ hstream => exact ih (((hk q hR).2 m _ hδ).1 hm) hstream
  | @discard limit accept k m ls r hm htrace ih =>
    obtain ⟨R, hR, hk⟩ := h
    cases hstream with
    | cons hδ hstream => exact ih ⟨R, ((hk q hR).2 m _ hδ).2 hm rfl, hk⟩ hstream
  | @giveUp limit accept k err ls r htrace ih =>
    obtain ⟨R, hR, hk⟩ := h
    exact ih ((hk q hR).1 err) hstream
  | pause htrace ih => exact ih h hstream

/-- What is decided from outside after the labels so far: the answer to a message that is
given away, or that a wait is given up. -/
abbrev Oracle (μ ε : Type) := List (Label μ ε) → Option ε

/-- A wait on an inbox. It is given up at the latest when the inbox is empty. -/
def waitOn (oracle : Oracle μ ε) (timeout : ε) (accept : μ → Bool) (hist : List (Label μ ε)) :
    List μ → List (Label μ ε) × Except ε μ × List μ
  | [] =>
    let err := (oracle hist).getD timeout
    ([.gaveUp err], .error err, [])
  | m :: ms =>
    match oracle hist with
    | some err => ([.gaveUp err], .error err, m :: ms)
    | none =>
      if accept m then ([.took m], .ok m, ms)
      else
        let (ls, res, rest) := waitOn oracle timeout accept (hist ++ [.dropped m]) ms
        (.dropped m :: ls, res, rest)

/-- The run of a call on an inbox. -/
def exec (oracle : Oracle μ ε) (timeout : ε) :
    Proc μ ε ρ → List (Label μ ε) → List μ → List (Label μ ε) × ρ
  | ret r, _, _ => ([], r)
  | emit m k, hist, inbox =>
    let err := oracle hist
    let (ls, r) := exec oracle timeout (k err) (hist ++ [.sent m err]) inbox
    (.sent m err :: ls, r)
  | await _ accept k, hist, inbox =>
    let (ls, res, rest) := waitOn oracle timeout accept hist inbox
    let (ls', r) := exec oracle timeout (k res) (hist ++ ls) rest
    (ls ++ ls', r)
  | pause d k, hist, inbox =>
    let (ls, r) := exec oracle timeout k (hist ++ [.paused d]) inbox
    (.paused d :: ls, r)

variable {oracle : Oracle μ ε} {timeout : ε}

/-- A wait on an inbox is a wait, and what it removes begins the inbox. -/
theorem waitOn_spec (accept : μ → Bool) (hist : List (Label μ ε)) (inbox : List μ) :
    Waits accept (waitOn oracle timeout accept hist inbox).1
        (waitOn oracle timeout accept hist inbox).2.1 ∧
      consumed (waitOn oracle timeout accept hist inbox).1 ++
        (waitOn oracle timeout accept hist inbox).2.2 = inbox := by
  induction inbox generalizing hist with
  | nil => exact ⟨.gaveUp _, rfl⟩
  | cons m ms ih =>
    rw [waitOn]
    cases oracle hist with
    | some err => exact ⟨.gaveUp err, rfl⟩
    | none =>
      dsimp only
      split
      · rename_i hm
        exact ⟨.took hm, rfl⟩
      · rename_i hm
        obtain ⟨hw, hrest⟩ := ih (hist ++ [.dropped m])
        exact ⟨.dropped (by simpa using hm) hw, congrArg (m :: ·) hrest⟩

/-- The run on an inbox is a run of the call, and what it removes begins the inbox. -/
theorem exec_trace (c : Proc μ ε ρ) (hist : List (Label μ ε)) (inbox : List μ) :
    c.Trace (exec oracle timeout c hist inbox).1 (exec oracle timeout c hist inbox).2 ∧
      consumed (exec oracle timeout c hist inbox).1 <+: inbox := by
  induction c generalizing hist inbox with
  | ret r => exact ⟨.ret r, List.nil_prefix⟩
  | emit m k ih =>
    obtain ⟨htrace, hpre⟩ := ih (oracle hist) (hist ++ [.sent m (oracle hist)]) inbox
    exact ⟨.emit htrace, hpre⟩
  | await limit accept k ih =>
    have hspec := @waitOn_spec _ _ oracle timeout accept hist inbox
    rw [exec]
    generalize waitOn oracle timeout accept hist inbox = w at hspec ⊢
    obtain ⟨ls, res, rest⟩ := w
    obtain ⟨hw, rfl⟩ := hspec
    obtain ⟨htrace, hpre⟩ := ih res (hist ++ ls) rest
    refine ⟨trace_await.mpr ⟨ls, _, res, rfl, hw, htrace⟩, ?_⟩
    rw [consumed_append]
    exact (List.prefix_append_right_inj _).mpr hpre
  | pause d k ih =>
    obtain ⟨htrace, hpre⟩ := ih (hist ++ [.paused d]) inbox
    exact ⟨.pause htrace, hpre⟩

end Proc

end CppCan.Core
