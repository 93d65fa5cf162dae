import Mathlib.Data.List.Induction
import Mathlib.Order.Basic

/-!
# Keyed tables with lazy expiry

A table holds at most one session per key. Every event first sweeps the whole
table of expired sessions and then acts on the session of its own key only.
If expiry is monotone in time, the events of other keys can neither shorten nor
prolong a session as seen by its own events: the outputs of one key are those
of the run on that key's events alone.
-/

namespace CppCan.Core

/-- Sessions `S` under keys `K`, driven by events `E` with outputs `O` in time `T`. -/
structure TableMachine (K E S O T : Type*) where
  /-- The key whose session the event acts on. -/
  key : E → K
  /-- The moment the event is processed. -/
  time : E → T
  /-- Whether the sweep at this moment removes the session. -/
  expired : T → S → Bool
  /-- The event's effect on the swept session of its own key. -/
  act : E → Option S → Option S × Option O

namespace TableMachine

variable {K E S O T : Type*} [DecidableEq K] (m : TableMachine K E S O T)

/-- The session left in one cell after a sweep. -/
def sweepCell (now : T) (cell : Option S) : Option S := cell.filter fun s => !m.expired now s

/-- The effect of an event on its own cell, and its output. -/
def cellStep (e : E) (cell : Option S) : Option S × Option O :=
  m.act e (m.sweepCell (m.time e) cell)

/-- One event: sweep everything, then act on the event's own key. -/
def step (table : K → Option S) (e : E) : (K → Option S) × Option O :=
  let swept := fun k => m.sweepCell (m.time e) (table k)
  let (cell, out) := m.act e (swept (m.key e))
  (Function.update swept (m.key e) cell, out)

/-- The table after a list of events. -/
def run (table : K → Option S) (es : List E) : K → Option S :=
  es.foldl (fun t e => (m.step t e).1) table

/-- The outputs of a list of events, each with the key that produced it. -/
def outputs : (K → Option S) → List E → List (K × O)
  | _, [] => []
  | table, e :: es =>
    ((m.step table e).2.map (m.key e, ·)).toList ++ outputs (m.step table e).1 es

@[simp] theorem run_nil (table : K → Option S) : m.run table [] = table := rfl

@[simp] theorem run_cons (table : K → Option S) (e : E) (es : List E) :
    m.run table (e :: es) = m.run (m.step table e).1 es := rfl

theorem run_append (table : K → Option S) (es fs : List E) :
    m.run table (es ++ fs) = m.run (m.run table es) fs := List.foldl_append

@[simp] theorem step_snd (table : K → Option S) (e : E) :
    (m.step table e).2 = (m.cellStep e (table (m.key e))).2 := rfl

theorem step_fst_self (table : K → Option S) (e : E) :
    (m.step table e).1 (m.key e) = (m.cellStep e (table (m.key e))).1 := by
  simp [step, cellStep]

/-- An event of another key only sweeps the cell. -/
theorem step_fst_of_ne (table : K → Option S) {e : E} {k : K} (h : k ≠ m.key e) :
    (m.step table e).1 k = m.sweepCell (m.time e) (table k) := by
  simp [step, Function.update_of_ne h]

omit [DecidableEq K] in
/-- A sweep keeps or empties the cell. -/
theorem mem_of_mem_sweepCell {now : T} {cell : Option S} {s : S} (h : s ∈ m.sweepCell now cell) :
    s ∈ cell := (Option.mem_filter_iff.mp h).1

/-- A property of a session and the events so far holds in every cell of every
run from the empty table if events of other keys and the session's own keep it. -/
theorem run_invariant {P : List E → K → S → Prop}
    (hother : ∀ es e k s, k ≠ m.key e → P es k s → P (es ++ [e]) k s)
    (hown : ∀ es e cell s, (∀ s' ∈ cell, P es (m.key e) s') → s ∈ (m.act e cell).1 →
      P (es ++ [e]) (m.key e) s) (es : List E) :
    ∀ k, ∀ s ∈ m.run (fun _ => none) es k, P es k s := by
  induction es using List.reverseRecOn with
  | nil => intro k s hs; simp at hs
  | append_singleton es e ih =>
    intro k s hs
    rw [run_append] at hs
    change s ∈ (m.step (m.run (fun _ => none) es) e).1 k at hs
    by_cases hk : k = m.key e
    · subst hk
      rw [step_fst_self] at hs
      exact hown es e _ s (fun s' hs' => ih _ s' (m.mem_of_mem_sweepCell hs')) hs
    · rw [m.step_fst_of_ne _ hk] at hs
      exact hother es e k s hk (ih k s (m.mem_of_mem_sweepCell hs))

/-- A property of outputs that follows from one of sessions holds along every run. -/
theorem outputs_forall {P : K → S → Prop} {Q : K → O → Prop}
    (hact : ∀ e cell, (∀ s ∈ cell, P (m.key e) s) →
      (∀ s ∈ (m.act e cell).1, P (m.key e) s) ∧ ∀ o ∈ (m.act e cell).2, Q (m.key e) o)
    {table : K → Option S} (h₀ : ∀ k, ∀ s ∈ table k, P k s) (es : List E) :
    ∀ o ∈ m.outputs table es, Q o.1 o.2 := by
  induction es generalizing table with
  | nil => intro o ho; simp [outputs] at ho
  | cons e es ih =>
    have hown := hact e (m.sweepCell (m.time e) (table (m.key e)))
      fun s hs => h₀ _ s (m.mem_of_mem_sweepCell hs)
    have hnext : ∀ k, ∀ s ∈ (m.step table e).1 k, P k s := by
      intro k s hs
      by_cases hk : k = m.key e
      · subst hk
        rw [step_fst_self] at hs
        exact hown.1 s hs
      · rw [m.step_fst_of_ne table hk] at hs
        exact h₀ k s (m.mem_of_mem_sweepCell hs)
    intro o ho
    rw [outputs, List.mem_append] at ho
    rcases ho with ho | ho
    · obtain ⟨out, hout, rfl⟩ := Option.map_eq_some_iff.mp (Option.mem_toList.mp ho)
      exact hown.2 out hout
    · exact ih hnext o ho

section Interference

variable [Preorder T]

/-- Cells that no sweep from `now` on can tell apart. -/
def SameFrom (now : T) (a b : Option S) : Prop :=
  ∀ t, now ≤ t → m.sweepCell t a = m.sweepCell t b

/-- Once expired, always expired. -/
def ExpiryMonotone : Prop :=
  ∀ s t t', t ≤ t' → m.expired t s = true → m.expired t' s = true

variable {m}

omit [DecidableEq K] in
/-- Sweeping early removes only what a later sweep removes anyway. -/
theorem ExpiryMonotone.sweepCell_sweepCell (h : m.ExpiryMonotone) {now t : T} (ht : now ≤ t)
    (cell : Option S) : m.sweepCell t (m.sweepCell now cell) = m.sweepCell t cell := by
  cases cell with
  | none => rfl
  | some s =>
    cases hn : m.expired now s with
    | true => simp [sweepCell, Option.filter_some, hn, h s now t ht hn]
    | false => simp [sweepCell, Option.filter_some, hn]

/-- The outputs of a key are those of the run on its own events. -/
theorem outputs_filter_key (h : m.ExpiryMonotone) (k : K) (es : List E)
    (htime : es.Pairwise fun e f => m.time e ≤ m.time f) {now : T}
    (hnow : ∀ e ∈ es, now ≤ m.time e) {table table' : K → Option S}
    (hsame : m.SameFrom now (table k) (table' k)) :
    (m.outputs table es).filter (fun o => o.1 = k) =
      m.outputs table' (es.filter fun e => m.key e = k) := by
  induction es generalizing table table' now with
  | nil => rfl
  | cons e es ih =>
    obtain ⟨hhead, htail⟩ := List.pairwise_cons.mp htime
    have hle : now ≤ m.time e := hnow e List.mem_cons_self
    by_cases hk : m.key e = k
    · subst hk
      have hcell : m.cellStep e (table (m.key e)) = m.cellStep e (table' (m.key e)) :=
        congrArg (m.act e) (hsame _ hle)
      have hnext : m.SameFrom (m.time e) ((m.step table e).1 (m.key e))
          ((m.step table' e).1 (m.key e)) := by
        intro t _
        rw [step_fst_self, step_fst_self, hcell]
      have hown : (((m.step table e).2.map (m.key e, ·)).toList).filter
          (fun o => decide (o.1 = m.key e)) = ((m.step table' e).2.map (m.key e, ·)).toList := by
        rw [step_snd, step_snd, hcell]
        cases (m.cellStep e (table' (m.key e))).2 <;> simp
      rw [List.filter_cons_of_pos (by simp), outputs, outputs, List.filter_append,
        ih htail hhead hnext, hown]
    · have hnext : m.SameFrom (m.time e) ((m.step table e).1 k) (table' k) := by
        intro t ht
        rw [m.step_fst_of_ne table (Ne.symm hk), h.sweepCell_sweepCell ht]
        exact hsame t (hle.trans ht)
      have hnone : (((m.step table e).2.map (m.key e, ·)).toList).filter
          (fun o => decide (o.1 = k)) = [] := by
        cases (m.step table e).2 <;> simp [hk]
      rw [List.filter_cons_of_neg (by simpa using hk), outputs, List.filter_append, hnone,
        List.nil_append]
      exact ih htail hhead hnext

/-- Events of the key that leave its cell alone and give out nothing can be left out. -/
theorem outputs_filter_keep (h : m.ExpiryMonotone) {keep : E → Bool}
    (hskip : ∀ e, keep e = false → ∀ cell, m.act e cell = (cell, none)) {k : K} {es : List E}
    (hkey : ∀ e ∈ es, m.key e = k) (htime : es.Pairwise fun e f => m.time e ≤ m.time f) {now : T}
    (hnow : ∀ e ∈ es, now ≤ m.time e) {table table' : K → Option S}
    (hsame : m.SameFrom now (table k) (table' k)) :
    m.outputs table es = m.outputs table' (es.filter keep) := by
  induction es generalizing table table' now with
  | nil => rfl
  | cons e es ih =>
    obtain ⟨hhead, htail⟩ := List.pairwise_cons.mp htime
    obtain ⟨rfl, hkeys⟩ := List.forall_mem_cons.mp hkey
    have hle : now ≤ m.time e := hnow e List.mem_cons_self
    have hcell := hsame _ hle
    cases hk : keep e with
    | true =>
      have hstep : m.cellStep e (table (m.key e)) = m.cellStep e (table' (m.key e)) :=
        congrArg (m.act e) hcell
      have hnext : m.SameFrom (m.time e) ((m.step table e).1 (m.key e))
          ((m.step table' e).1 (m.key e)) := by
        intro t _
        rw [step_fst_self, step_fst_self, hstep]
      rw [List.filter_cons_of_pos hk, outputs, outputs, step_snd, step_snd, hstep,
        ih hkeys htail hhead hnext]
    | false =>
      have hnext : m.SameFrom (m.time e) ((m.step table e).1 (m.key e)) (table' (m.key e)) := by
        intro t ht
        rw [step_fst_self, cellStep, hskip e hk, h.sweepCell_sweepCell ht]
        exact hsame t (hle.trans ht)
      have hnone : (m.step table e).2 = none := by
        rw [step_snd, cellStep, hskip e hk]
      rw [List.filter_cons_of_neg (by simp [hk]), outputs, hnone,
        ih hkeys htail hhead hnext]
      rfl

end Interference

end TableMachine

end CppCan.Core
