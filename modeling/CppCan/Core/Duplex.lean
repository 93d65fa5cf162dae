import CppCan.Core.Process
import CppCan.Core.Schedules
import Mathlib.Tactic.ByContra
import Mathlib.Tactic.SplitIfs

/-!
# Two stations joined by a lossless link

What one station emits is put at the end of the other's inbox. The stations
advance in any order. Their steps commute, so the order decides nothing: every
schedule drives both stations to the same end.

A wait may also be given up. In a fair exchange this happens only when no frame
the wait accepts can come any more.
-/

namespace CppCan.Core

open Relation

/-- One end of a link. -/
inductive Side where
  | left
  | right
  deriving DecidableEq, Repr

/-- The stations at the two ends of a link. -/
structure Duplex (μ ε ρ σ : Type) where
  left : Station μ ε ρ
  right : Station μ ε σ

namespace Duplex

variable {μ ε ρ σ : Type}

/-- The messages that wait at one end. -/
def inbox (s : Duplex μ ε ρ σ) : Side → List μ
  | .left => s.left.inbox
  | .right => s.right.inbox

/-- The messages that end the wait at one end. -/
def awaits (s : Duplex μ ε ρ σ) : Side → Option (μ → Bool)
  | .left => s.left.awaits
  | .right => s.right.awaits

/-- One end takes its next step; what it emits arrives at the other end. -/
def advance (s : Duplex μ ε ρ σ) : Side → Option (Duplex μ ε ρ σ)
  | .left => s.left.advance.map fun (st, out) => ⟨st, out.elim s.right s.right.deliver⟩
  | .right => s.right.advance.map fun (st, out) => ⟨out.elim s.left s.left.deliver, st⟩

/-- One end gives up its wait. -/
def expire (timeout : ε) (s : Duplex μ ε ρ σ) : Side → Option (Duplex μ ε ρ σ)
  | .left => (s.left.expire timeout).map fun st => { s with left := st }
  | .right => (s.right.expire timeout).map fun st => { s with right := st }

/-- What a scheduler may choose next. -/
inductive Event where
  | advance (x : Side)
  | expire (x : Side)
  deriving DecidableEq, Repr

/-- The state after an event, if it can happen. -/
def step (timeout : ε) (s : Duplex μ ε ρ σ) : Event → Option (Duplex μ ε ρ σ)
  | .advance x => s.advance x
  | .expire x => s.expire timeout x

/-- Some event that is allowed happens. -/
def Steps (timeout : ε) (allowed : Duplex μ ε ρ σ → Event → Bool) (s t : Duplex μ ε ρ σ) : Prop :=
  ∃ e, s.step timeout e = some t ∧ allowed s e = true

/-- The state after a sequence of events, if they are allowed and can happen. -/
def run (timeout : ε) (allowed : Duplex μ ε ρ σ → Event → Bool) :
    Duplex μ ε ρ σ → List Event → Option (Duplex μ ε ρ σ)
  | s, [] => some s
  | s, e :: es =>
    if allowed s e then (s.step timeout e).bind fun t => run timeout allowed t es else none

/-- Some end advances. -/
def Progress (s t : Duplex μ ε ρ σ) : Prop := ∃ x, s.advance x = some t

/-- A message that ends the wait of `x` is in the inbox, or will be. -/
def Served (s : Duplex μ ε ρ σ) (x : Side) : Prop :=
  ∃ accept, s.awaits x = some accept ∧
    ∃ t, ReflTransGen Progress s t ∧ ∃ m ∈ t.inbox x, accept m = true

/-- A step of a fair exchange: a wait is given up only when it is never served. -/
def Fair (timeout : ε) (s t : Duplex μ ε ρ σ) : Prop :=
  Progress s t ∨ ∃ x, s.expire timeout x = some t ∧ ¬ s.Served x

variable {s t u : Duplex μ ε ρ σ} {timeout : ε} {x : Side} {n : Nat}

/-- The states of a run are linked by steps. -/
theorem steps_of_run {allowed : Duplex μ ε ρ σ → Event → Bool} {es : List Event}
    (h : s.run timeout allowed es = some t) : ReflTransGen (Steps timeout allowed) s t := by
  induction es generalizing s with
  | nil => exact Option.some.inj h ▸ .refl
  | cons e es ih =>
    simp only [run] at h
    split_ifs at h with hok
    obtain ⟨u, hsu, hut⟩ := Option.bind_eq_some_iff.mp h
    exact .head ⟨e, hsu, hok⟩ (ih hut)

/-- What a progress step can do. -/
theorem progress_iff : Progress s t ↔
    (∃ st out, s.left.Advance st out ∧ t = ⟨st, out.elim s.right s.right.deliver⟩) ∨
    (∃ st out, s.right.Advance st out ∧ t = ⟨out.elim s.left s.left.deliver, st⟩) := by
  constructor
  · rintro ⟨x, h⟩
    cases x with
    | left =>
      obtain ⟨⟨st, out⟩, hst, rfl⟩ := Option.map_eq_some_iff.mp h
      exact .inl ⟨st, out, Station.advance_eq_some.mp hst, rfl⟩
    | right =>
      obtain ⟨⟨st, out⟩, hst, rfl⟩ := Option.map_eq_some_iff.mp h
      exact .inr ⟨st, out, Station.advance_eq_some.mp hst, rfl⟩
  · rintro (⟨st, out, h, rfl⟩ | ⟨st, out, h, rfl⟩)
    · exact ⟨.left, Option.map_eq_some_iff.mpr ⟨_, Station.advance_eq_some.mpr h, rfl⟩⟩
    · exact ⟨.right, Option.map_eq_some_iff.mpr ⟨_, Station.advance_eq_some.mpr h, rfl⟩⟩

/-- Only a station that waits can give up its wait. -/
theorem awaits_of_expire (h : s.expire timeout x = some t) :
    ∃ accept, s.awaits x = some accept := by
  cases x with
  | left =>
    obtain ⟨st, hst, -⟩ := Option.map_eq_some_iff.mp h
    obtain ⟨limit, accept, k, rest, hc, -⟩ := Station.expire_eq_some.mp hst
    exact ⟨accept, by simp [awaits, Station.awaits, hc]⟩
  | right =>
    obtain ⟨st, hst, -⟩ := Option.map_eq_some_iff.mp h
    obtain ⟨limit, accept, k, rest, hc, -⟩ := Station.expire_eq_some.mp hst
    exact ⟨accept, by simp [awaits, Station.awaits, hc]⟩

/-- The steps of the two ends commute. -/
theorem diamond_progress : Diamond (Progress (μ := μ) (ε := ε) (ρ := ρ) (σ := σ)) := by
  intro s a b ha hb
  rcases progress_iff.mp ha with ⟨st, o, h, rfl⟩ | ⟨st, o, h, rfl⟩ <;>
    rcases progress_iff.mp hb with ⟨st', o', h', rfl⟩ | ⟨st', o', h', rfl⟩
  · obtain ⟨rfl, rfl⟩ := h.unique h'
    exact .inl rfl
  · refine .inr ⟨⟨o'.elim st st.deliver, o.elim st' st'.deliver⟩, progress_iff.mpr (.inr ?_),
      progress_iff.mpr (.inl ?_)⟩
    · exact ⟨_, o', h'.elim_deliver o, rfl⟩
    · exact ⟨_, o, h.elim_deliver o', rfl⟩
  · refine .inr ⟨⟨o.elim st' st'.deliver, o'.elim st st.deliver⟩, progress_iff.mpr (.inl ?_),
      progress_iff.mpr (.inr ?_)⟩
    · exact ⟨_, o', h'.elim_deliver o, rfl⟩
    · exact ⟨_, o, h.elim_deliver o', rfl⟩
  · obtain ⟨rfl, rfl⟩ := h.unique h'
    exact .inl rfl

/-- No message in the inbox ends a wait that is never served. -/
theorem unaccepted_of_not_served {accept : μ → Bool} (hw : s.awaits x = some accept)
    (hun : ¬ s.Served x) : ∀ m ∈ s.inbox x, accept m = false := by
  intro m hm
  by_contra ha
  exact hun ⟨accept, hw, s, .refl, m, hm, by simpa using ha⟩

/-- What the left station emits while the right one waits for it is handed over. -/
theorem handOver_right {m : μ} {limit : Nat} {accept : μ → Bool} {k : Option ε → Proc μ ε ρ}
    {k' : Except ε μ → Proc μ ε σ} {inL : List μ} {cl : List (Proc μ ε ρ)}
    {cr : List (Proc μ ε σ)} {rl : List ρ} {rr : List σ} (hm : accept m = true) :
    ReflTransGen Progress ⟨⟨inL, .emit m k :: cl, rl⟩, ⟨[], .await limit accept k' :: cr, rr⟩⟩
      ⟨⟨inL, k none :: cl, rl⟩, ⟨[], k' (.ok m) :: cr, rr⟩⟩ := by
  refine .head (progress_iff.mpr (.inl ⟨_, _, .emit rfl, rfl⟩)) ?_
  exact .single (progress_iff.mpr (.inr ⟨_, _, .accept rfl rfl hm, rfl⟩))

/-- What the right station emits while the left one waits for it is handed over. -/
theorem handOver_left {m : μ} {limit : Nat} {accept : μ → Bool} {k : Option ε → Proc μ ε σ}
    {k' : Except ε μ → Proc μ ε ρ} {inR : List μ} {cl : List (Proc μ ε ρ)}
    {cr : List (Proc μ ε σ)} {rl : List ρ} {rr : List σ} (hm : accept m = true) :
    ReflTransGen Progress ⟨⟨[], .await limit accept k' :: cl, rl⟩, ⟨inR, .emit m k :: cr, rr⟩⟩
      ⟨⟨[], k' (.ok m) :: cl, rl⟩, ⟨inR, k none :: cr, rr⟩⟩ := by
  refine .head (progress_iff.mpr (.inr ⟨_, _, .emit rfl, rfl⟩)) ?_
  exact .single (progress_iff.mpr (.inl ⟨_, _, .accept rfl rfl hm, rfl⟩))

/-- A wait that is never served goes on, whatever step is taken. -/
theorem awaits_of_not_served {accept : μ → Bool} (hw : s.awaits x = some accept)
    (hun : ¬ s.Served x) (h : Progress s t) : t.awaits x = some accept ∧ ¬ t.Served x := by
  have hin := unaccepted_of_not_served hw hun
  have ht : t.awaits x = some accept := by
    rcases progress_iff.mp h with ⟨st, o, hst, rfl⟩ | ⟨st, o, hst, rfl⟩ <;> cases x
    · exact st.awaits_congr (hst.of_unaccepted hw hin).1 |>.trans hw
    · exact (s.right.awaits_elim_deliver o).trans hw
    · exact (s.left.awaits_elim_deliver o).trans hw
    · exact st.awaits_congr (hst.of_unaccepted hw hin).1 |>.trans hw
  refine ⟨ht, ?_⟩
  rintro ⟨accept', hw', u, htu, hm⟩
  obtain rfl : accept = accept' := Option.some.inj (ht.symm.trans hw')
  exact hun ⟨accept, hw, u, .head h htu, hm⟩

/-- A wait that is over at the end of some run is served. -/
theorem served_of_run {accept : μ → Bool} (hw : s.awaits x = some accept)
    (h : ReflTransGen Progress s t) (ht : t.awaits x = none) : s.Served x := by
  induction h using ReflTransGen.head_induction_on with
  | refl => exact absurd (ht.symm.trans hw) (by simp)
  | head hsu _ ih =>
    by_contra hun
    obtain ⟨hu, hun'⟩ := awaits_of_not_served hw hun hsu
    exact hun' (ih hu)

/-- A wait goes on for ever when both stations are at rest. -/
theorem awaits_of_rests {accept : μ → Bool} (hl : s.left.Rests) (hr : s.right.Rests)
    (hw : s.awaits x = some accept) (h : ReflTransGen Progress s t) : t.awaits x = some accept := by
  induction h using ReflTransGen.head_induction_on with
  | refl => exact hw
  | head hsu _ ih =>
    rcases progress_iff.mp hsu with ⟨st, o, hst, rfl⟩ | ⟨st, o, hst, rfl⟩
    · obtain ⟨rfl, hrest, hnone⟩ := hl.advance hst
      cases x with
      | left => exact absurd (hnone.symm.trans hw) (by simp)
      | right => exact ih hrest hr hw
    · obtain ⟨rfl, hrest, hnone⟩ := hr.advance hst
      cases x with
      | left => exact ih hl hrest hw
      | right => exact absurd (hnone.symm.trans hw) (by simp)

/-- The right station reaches `st` in `n` steps of its own. -/
def RightEndsIn (st : Station μ ε σ) (n : Nat) (s : Duplex μ ε ρ σ) : Prop :=
  EndsIn (fun a b => ∃ out, a.Advance b out) st n s.right

/-- While the left station waits for what never comes, the right station goes
its way alone and the left one keeps its calls and results. -/
theorem rightEndsIn_of_not_served {accept : μ → Bool} (hw : s.awaits .left = some accept)
    (hun : ¬ s.Served .left) (h : EndsIn Progress t n s) :
    (∃ m ≤ n, RightEndsIn t.right m s) ∧ t.left.calls = s.left.calls ∧
      t.left.results = s.left.results := by
  induction h with
  | done => exact ⟨⟨0, Nat.zero_le _, .done⟩, rfl, rfl⟩
  | @step n s u hsu _ ih =>
    obtain ⟨hu, hun'⟩ := awaits_of_not_served hw hun hsu
    obtain ⟨⟨m, hm, hright⟩, hcalls, hresults⟩ := ih hu hun'
    rcases progress_iff.mp hsu with ⟨st, o, hst, rfl⟩ | ⟨st, o, hst, rfl⟩
    · obtain ⟨hc, hr, rfl⟩ := hst.of_unaccepted hw (unaccepted_of_not_served hw hun)
      exact ⟨⟨m, by omega, hright⟩, hcalls.trans hc, hresults.trans hr⟩
    · refine ⟨⟨m + 1, by omega, .step ⟨o, hst⟩ hright⟩, ?_, ?_⟩
      · rw [hcalls]
        cases o <;> rfl
      · rw [hresults]
        cases o <;> rfl

/-- What the right station does alone is a run of both. -/
theorem RightEndsIn.run {st : Station μ ε σ} (h : RightEndsIn st n s) :
    ∃ t, ReflTransGen Progress s t ∧ t.right = st := by
  obtain ⟨l, r⟩ := s
  unfold RightEndsIn at h
  simp only at h
  induction h generalizing l with
  | done => exact ⟨_, .refl, rfl⟩
  | step hsu _ ih =>
    obtain ⟨out, hout⟩ := hsu
    obtain ⟨t, ht, hright⟩ := ih (out.elim l l.deliver)
    exact ⟨t, .head (progress_iff.mpr (.inr ⟨_, out, hout, rfl⟩)) ht, hright⟩

/-- Both stations have returned from all their calls. -/
structure Finished (s : Duplex μ ε ρ σ) : Prop where
  left : s.left.calls = []
  right : s.right.calls = []

/-- Nothing happens after the end. -/
theorem Finished.stuck (h : t.Finished) : Stuck Progress t := by
  intro u hu
  rcases progress_iff.mp hu with ⟨st, o, hst, -⟩ | ⟨st, o, hst, -⟩
  · exact hst.calls_ne_nil h.left
  · exact hst.calls_ne_nil h.right

/-- At the end nobody waits. -/
theorem Finished.awaits (h : t.Finished) (x : Side) : t.awaits x = none := by
  cases x with
  | left => exact Station.awaits_of_nil h.left
  | right => exact Station.awaits_of_nil h.right

/-- When some run ends with both stations finished, every fair schedule ends so. -/
theorem inevitably_of_finished (h : ReflTransGen Progress s t) (ht : t.Finished) :
    Inevitably (Fair timeout) (· = t) s := by
  obtain ⟨n, hn⟩ := exists_endsIn h
  refine Inevitably.of_rank (EndsIn Progress t) ?_ hn
  intro n s hs
  cases hs with
  | done => exact .inl rfl
  | step hsu hu =>
    refine .inr ⟨⟨_, .inl hsu⟩, ?_⟩
    rintro v (hv | ⟨x, hv, hun⟩)
    · obtain ⟨m, hm, hvm⟩ := (EndsIn.step hsu hu).of_step diamond_progress ht.stuck hv
      exact ⟨m, by omega, hvm⟩
    · obtain ⟨accept, hw⟩ := awaits_of_expire hv
      exact absurd (served_of_run hw (EndsIn.step hsu hu).reflTransGen (ht.awaits x)) hun

/-- The right station is at the end or takes a step. -/
theorem RightEndsIn.cases_head {st : Station μ ε σ} (h : RightEndsIn st n s) :
    s.right = st ∨ ∃ st' out, s.right.Advance st' out := by
  obtain ⟨l, r⟩ := s
  unfold RightEndsIn at h
  cases h with
  | done => exact .inl rfl
  | step hsu _ =>
    obtain ⟨out, hout⟩ := hsu
    exact .inr ⟨_, out, hout⟩

/-- A station takes its steps in one order only. -/
theorem RightEndsIn.of_advance {st st' : Station μ ε σ} {out : Option μ} {l : Station μ ε ρ}
    (h : RightEndsIn st n s) (hst : st.calls = []) (hadv : s.right.Advance st' out) :
    ∃ m < n, RightEndsIn st m ⟨l, st'⟩ := by
  have hdet : Diamond fun a b : Station μ ε σ => ∃ out, a.Advance b out := by
    rintro a b c ⟨o, hb⟩ ⟨o', hc⟩
    exact .inl (hb.unique hc).1
  obtain ⟨m, rfl, hm⟩ := h.of_step hdet (fun _ ⟨_, hs⟩ => hs.calls_ne_nil hst) ⟨out, hadv⟩
  exact ⟨m, by omega, hm⟩

/-- A station that finishes alone is served at every wait. -/
theorem RightEndsIn.served {st : Station μ ε σ} (h : RightEndsIn st n s) (hst : st.calls = [])
    {accept : μ → Bool} (hw : s.awaits .right = some accept) : s.Served .right := by
  obtain ⟨u, hsu, rfl⟩ := h.run
  exact served_of_run hw hsu (Station.awaits_of_nil hst)

section Abandoned

variable {r : ρ} {limit : Nat} {accept : μ → Bool} {k : Except ε μ → Proc μ ε ρ}

/-- The schedules of an exchange whose end `t` leaves the left station waiting:
the wait goes on, or the left station returns `r`, or it has returned. -/
inductive Abandons (t : Duplex μ ε ρ σ) (r : ρ) : Nat → Duplex μ ε ρ σ → Prop where
  | waiting {n : Nat} {s : Duplex μ ε ρ σ} (h : EndsIn Progress t n s) : Abandons t r (n + 2) s
  | returning {n : Nat} {s : Duplex μ ε ρ σ} (hc : s.left.calls = [.ret r])
      (hres : s.left.results = t.left.results) (h : RightEndsIn t.right n s) :
      Abandons t r (n + 1) s
  | returned {n : Nat} {s : Duplex μ ε ρ σ} (hl : s.left.Returned (t.left.results ++ [r]))
      (h : RightEndsIn t.right n s) : Abandons t r n s

/-- While the left station waits, it may go on waiting or give up for good. -/
theorem Abandons.of_fair_waiting (hstuck : Stuck Progress t)
    (hl : t.left.calls = [.await limit accept k]) (hk : k (.error timeout) = .ret r)
    (hr : t.right.calls = []) (h : EndsIn Progress t n s) (hsu : Fair timeout s u) :
    ∃ m < n + 2, Abandons t r m u := by
  rcases hsu with hsu | ⟨x, hx, hun⟩
  · obtain ⟨m, rfl, hm⟩ := h.of_step diamond_progress hstuck hsu
    exact ⟨m + 2, by omega, .waiting hm⟩
  · obtain ⟨accept', hw⟩ := awaits_of_expire hx
    cases x with
    | left =>
      obtain ⟨⟨m, hm, hright⟩, hcalls, hresults⟩ := rightEndsIn_of_not_served hw hun h
      obtain ⟨st, hst, rfl⟩ := Option.map_eq_some_iff.mp hx
      obtain ⟨limit', accept', k', rest, hc, rfl⟩ := Station.expire_eq_some.mp hst
      obtain ⟨⟨-, -, rfl⟩, rfl⟩ := by simpa using hc.symm.trans (hcalls.symm.trans hl)
      exact ⟨m + 1, by omega, .returning (by rw [hk]) hresults.symm hright⟩
    | right =>
      exact absurd (served_of_run hw h.reflTransGen (Station.awaits_of_nil hr)) hun

/-- Every step of an exchange that its left station abandons brings it closer to its end. -/
theorem Abandons.of_fair (hstuck : Stuck Progress t)
    (hl : t.left.calls = [.await limit accept k]) (hk : k (.error timeout) = .ret r)
    (hr : t.right.calls = []) (h : Abandons t r n s) (hsu : Fair timeout s u) :
    ∃ m < n, Abandons t r m u := by
  cases h with
  | waiting h => exact Abandons.of_fair_waiting hstuck hl hk hr h hsu
  | returning hc hres h =>
    rcases hsu with hsu | ⟨x, hx, hun⟩
    · rcases progress_iff.mp hsu with ⟨st, o, hst, rfl⟩ | ⟨st, o, hst, rfl⟩
      · obtain ⟨rfl, rfl⟩ := hst.unique (.ret hc)
        exact ⟨_, by omega, .returned ⟨rfl, by simp [hres]⟩ h⟩
      · obtain ⟨m, hm, hright⟩ := h.of_advance hr hst
        refine ⟨m + 1, by omega, .returning ?_ ?_ hright⟩ <;> cases o <;> assumption
    · obtain ⟨accept', hw⟩ := awaits_of_expire hx
      cases x with
      | left => simp [awaits, Station.awaits, hc] at hw
      | right => exact absurd (h.served hr hw) hun
  | returned hret h =>
    rcases hsu with hsu | ⟨x, hx, hun⟩
    · rcases progress_iff.mp hsu with ⟨st, o, hst, rfl⟩ | ⟨st, o, hst, rfl⟩
      · exact absurd hret.1 hst.calls_ne_nil
      · obtain ⟨m, hm, hright⟩ := h.of_advance hr hst
        refine ⟨m, hm, .returned ?_ hright⟩
        cases o <;> exact hret
    · obtain ⟨accept', hw⟩ := awaits_of_expire hx
      cases x with
      | left => simp [awaits, Station.awaits, hret.1] at hw
      | right => exact absurd (h.served hr hw) hun

/-- In a state without progress no wait is served. -/
theorem not_served_of_stuck (hstuck : Stuck Progress s) (x : Side) : ¬ s.Served x := by
  rintro ⟨accept, hw, t, hst, m, hm, ha⟩
  rcases ReflTransGen.cases_head hst with rfl | ⟨u, hsu, -⟩
  · cases x with
    | left =>
      obtain ⟨st, hst⟩ := Station.exists_advance_of_mem hw hm
      exact hstuck _ (progress_iff.mpr (.inl ⟨st, none, hst, rfl⟩))
    | right =>
      obtain ⟨st, hst⟩ := Station.exists_advance_of_mem hw hm
      exact hstuck _ (progress_iff.mpr (.inr ⟨st, none, hst, rfl⟩))
  · exact hstuck u hsu

/-- A station that waits with an empty inbox takes no step. -/
theorem stuck_of_waiting (hin : s.left.inbox = [])
    (hl : s.left.calls = [.await limit accept k]) (hr : s.right.calls = []) : Stuck Progress s := by
  intro u hu
  rcases progress_iff.mp hu with ⟨st, o, hst, -⟩ | ⟨st, o, hst, -⟩
  · cases hst <;> simp_all
  · exact hst.calls_ne_nil hr

/-- An abandoned exchange goes on until both stations have returned. -/
theorem Abandons.fair_or_ended (timeout : ε) (hstuck : Stuck Progress t)
    (hl : t.left.calls = [.await limit accept k]) (hr : t.right.calls = [])
    (h : Abandons t r n s) :
    (∃ u, Fair timeout s u) ∨
      s.left.Returned (t.left.results ++ [r]) ∧ s.right.Returned t.right.results := by
  cases h with
  | waiting h =>
    refine .inl ?_
    cases h with
    | done =>
      have hexpire : s.left.expire timeout = some _ :=
        Station.expire_eq_some.mpr ⟨_, _, _, _, hl, rfl⟩
      exact ⟨_, .inr ⟨.left, Option.map_eq_some_iff.mpr ⟨_, hexpire, rfl⟩,
        not_served_of_stuck hstuck .left⟩⟩
    | step hsu _ => exact ⟨_, .inl hsu⟩
  | returning hc =>
    exact .inl ⟨_, .inl (progress_iff.mpr (.inl ⟨_, _, .ret hc, rfl⟩))⟩
  | returned hret h =>
    rcases h.cases_head with heq | ⟨st, o, ho⟩
    · exact .inr ⟨hret, heq.symm ▸ hr, heq.symm ▸ rfl⟩
    · exact .inl ⟨_, .inl (progress_iff.mpr (.inr ⟨st, o, ho, rfl⟩))⟩

/-- When some run ends with the right station finished and the left one in a wait
that nothing ends, every fair schedule ends with that wait given up. -/
theorem inevitably_of_waiting (h : ReflTransGen Progress s t) (hstuck : Stuck Progress t)
    (hl : t.left.calls = [.await limit accept k]) (hk : k (.error timeout) = .ret r)
    (hr : t.right.calls = []) :
    Inevitably (Fair timeout)
      (fun u => u.left.Returned (t.left.results ++ [r]) ∧ u.right.Returned t.right.results) s := by
  obtain ⟨n, hn⟩ := exists_endsIn h
  refine Inevitably.of_rank (Abandons t r) ?_ (.waiting hn)
  intro n s hs
  rcases hs.fair_or_ended timeout hstuck hl hr with hgo | hend
  · exact .inr ⟨hgo, fun u hsu => hs.of_fair hstuck hl hk hr hsu⟩
  · exact .inl hend

end Abandoned

end Duplex

end CppCan.Core
