import CppCan.Core.Duplex

/-!
# Conversations over a lossless link

A run of one call on each side stays a run when other calls follow, other results
precede and the sides are exchanged. When every turn of a conversation has a run that
ends with both calls returned and empty inboxes, the runs follow one another, and every
fair schedule of the whole conversation ends in their results.
-/

namespace CppCan.Core

open Relation

/-- Returning what a call returns changes nothing. -/
theorem Proc.bind_ret {μ ε ρ : Type} (p : Proc μ ε ρ) : (p >>= fun r => .ret r) = p := by
  induction p with
  | ret r => rfl
  | emit m k ih => exact congrArg (Proc.emit m) (funext ih)
  | await limit accept k ih => exact congrArg (Proc.await limit accept) (funext ih)
  | pause d k ih => exact congrArg (Proc.pause d) ih

namespace Station

variable {μ ε ρ σ : Type}

/-- The station inside a longer one: its results are renamed, other calls follow and
other results precede. -/
def embed (f : ρ → σ) (calls : List (Proc μ ε σ)) (results : List σ) (st : Station μ ε ρ) :
    Station μ ε σ where
  inbox := st.inbox
  calls := st.calls.map (· >>= fun r => .ret (f r)) ++ calls
  results := results ++ st.results.map f

variable {f : ρ → σ} {calls : List (Proc μ ε σ)} {results : List σ} {st st' : Station μ ε ρ}
  {out : Option μ}

/-- What arrives does not depend on the calls. -/
theorem embed_elim_deliver (o : Option μ) :
    (o.elim st st.deliver).embed f calls results =
      o.elim (st.embed f calls results) (st.embed f calls results).deliver := by
  cases o <;> rfl

/-- The calls of the longer station. -/
theorem calls_embed {p : Proc μ ε ρ} {rest : List (Proc μ ε ρ)} (h : st.calls = p :: rest) :
    (st.embed f calls results).calls =
      (p >>= fun r => .ret (f r)) :: (rest.map (· >>= fun r => .ret (f r)) ++ calls) := by
  simp [embed, h]

/-- A step of the station is a step of the longer one. -/
theorem Advance.embed (h : Advance st st' out) :
    Advance (st.embed f calls results) (st'.embed f calls results) out := by
  cases h with
  | ret hc =>
    refine cast (congrArg (Advance _ · none) ?_) (Advance.ret (calls_embed hc))
    simp [Station.embed]
  | emit hc => exact .emit (calls_embed hc)
  | accept hc hin hm => exact .accept (calls_embed hc) hin hm
  | discard hc hin hm => exact .discard (calls_embed hc) hin hm
  | pause hc => exact .pause (calls_embed hc)

end Station

namespace Duplex

variable {μ ε ρ ρ' σ σ' : Type}

/-- The link seen from the other end. -/
def swap (s : Duplex μ ε ρ σ) : Duplex μ ε σ ρ := ⟨s.right, s.left⟩

/-- A run seen from the other end. -/
theorem swap_run {s t : Duplex μ ε ρ σ} (h : ReflTransGen Progress s t) :
    ReflTransGen Progress s.swap t.swap := by
  induction h with
  | refl => exact .refl
  | tail _ hstep ih =>
    refine ih.tail (progress_iff.mpr ?_)
    rcases progress_iff.mp hstep with ⟨st, out, hst, rfl⟩ | ⟨st, out, hst, rfl⟩
    · exact .inr ⟨st, out, hst, rfl⟩
    · exact .inl ⟨st, out, hst, rfl⟩

/-- A run inside longer calls. -/
theorem embed_run {s t : Duplex μ ε ρ σ} (h : ReflTransGen Progress s t) (f : ρ → ρ') (g : σ → σ')
    (cl : List (Proc μ ε ρ')) (cr : List (Proc μ ε σ')) (rl : List ρ') (rr : List σ') :
    ReflTransGen Progress (⟨s.left.embed f cl rl, s.right.embed g cr rr⟩ : Duplex μ ε ρ' σ')
      ⟨t.left.embed f cl rl, t.right.embed g cr rr⟩ := by
  induction h with
  | refl => exact .refl
  | tail _ hstep ih =>
    refine ih.tail (progress_iff.mpr ?_)
    rcases progress_iff.mp hstep with ⟨st, out, hst, rfl⟩ | ⟨st, out, hst, rfl⟩
    · exact .inl ⟨_, out, hst.embed, by rw [Station.embed_elim_deliver]⟩
    · exact .inr ⟨_, out, hst.embed, by rw [Station.embed_elim_deliver]⟩

/-- One turn of a conversation: the calls of the two sides and what they return. -/
structure Turn (μ ε ρ σ : Type) where
  left : Proc μ ε ρ
  right : Proc μ ε σ
  leftResult : ρ
  rightResult : σ

/-- Some run of the two calls ends with these results and nothing on the way. -/
def Turn.Completes (turn : Turn μ ε ρ σ) : Prop :=
  ReflTransGen Progress (⟨{ calls := [turn.left] }, { calls := [turn.right] }⟩ : Duplex μ ε ρ σ)
    ⟨⟨[], [], [turn.leftResult]⟩, ⟨[], [], [turn.rightResult]⟩⟩

/-- The two sides with the calls of all turns before them. -/
def conversation (turns : List (Turn μ ε ρ σ)) : Duplex μ ε ρ σ where
  left := { calls := turns.map (·.left) }
  right := { calls := turns.map (·.right) }

/-- Turns that complete follow one another. -/
theorem conversation_run {turns : List (Turn μ ε ρ σ)} (h : ∀ turn ∈ turns, turn.Completes)
    (rl : List ρ) (rr : List σ) :
    ReflTransGen Progress
      (⟨⟨[], turns.map (·.left), rl⟩, ⟨[], turns.map (·.right), rr⟩⟩ : Duplex μ ε ρ σ)
      ⟨⟨[], [], rl ++ turns.map (·.leftResult)⟩, ⟨[], [], rr ++ turns.map (·.rightResult)⟩⟩ := by
  induction turns generalizing rl rr with
  | nil => simpa using ReflTransGen.refl
  | cons turn turns ih =>
    have hfirst := embed_run (h turn List.mem_cons_self) id id (turns.map (·.left))
      (turns.map (·.right)) rl rr
    have hrest := ih (fun t ht => h t (List.mem_cons_of_mem _ ht)) (rl ++ [turn.leftResult])
      (rr ++ [turn.rightResult])
    simp only [Station.embed, List.map_cons, List.map_nil, id_eq, Proc.bind_ret,
      List.singleton_append, List.nil_append, List.append_nil] at hfirst
    simp only [List.map_cons, List.append_assoc, List.singleton_append] at hrest ⊢
    exact .trans hfirst hrest

/-- Every fair schedule of a conversation whose turns complete ends in their results. -/
theorem inevitably_conversation {turns : List (Turn μ ε ρ σ)}
    (h : ∀ turn ∈ turns, turn.Completes) (timeout : ε) :
    Inevitably (Fair timeout)
      (fun s => s.left.Returned (turns.map (·.leftResult)) ∧
        s.right.Returned (turns.map (·.rightResult)))
      (conversation turns) := by
  refine (inevitably_of_finished (conversation_run h [] []) ⟨rfl, rfl⟩).mono ?_
  rintro _ rfl
  exact ⟨⟨rfl, rfl⟩, rfl, rfl⟩

end Duplex

end CppCan.Core
