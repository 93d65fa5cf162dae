import CppCan.Safety.E2E

/-!
# Rejected input

Whatever a refused buffer contains and whichever of the three errors it raises, the
receiver is as it was. A run is therefore the run on the inputs that are accepted,
with errors in between.
-/

namespace CppCan.Safety

/-- The call returned a payload. -/
def succeeded (result : Except E2EError (List UInt8)) : Bool := result.toOption.isSome

namespace Receiver

variable {r : Receiver} {data : List UInt8} {e : E2EError}

/-- The inputs on which `unwrap` does not throw. -/
def acceptedInputs (r : Receiver) (inputs : List (List UInt8)) : List (List UInt8) :=
  ((inputs.zip (r.unwrapAll inputs)).filter (succeeded ·.2)).map Prod.fst

/-- A call that throws leaves the receiver as it was. -/
theorem unwrap_of_error (h : (r.unwrap data).1 = .error e) : (r.unwrap data).2 = r := by
  unfold unwrap at h ⊢
  split
  · rfl
  · rename_i hlen
    rw [if_neg hlen] at h
    dsimp only at h ⊢
    split
    · rfl
    · rename_i hcrc
      rw [if_neg hcrc] at h
      split
      · rfl
      · rename_i hseq
        rw [if_neg hseq] at h
        exact absurd h (by simp)

/-- Without the rejected inputs the remaining calls return what they returned before. -/
theorem unwrapAll_acceptedInputs (r : Receiver) (inputs : List (List UInt8)) :
    r.unwrapAll (r.acceptedInputs inputs) = (r.unwrapAll inputs).filter succeeded := by
  induction inputs generalizing r with
  | nil => rfl
  | cons data inputs ih =>
    have hnext := ih (r.unwrap data).2
    unfold acceptedInputs at hnext ⊢
    rw [unwrapAll, List.zip_cons_cons, List.filter_cons, List.filter_cons]
    cases hres : (r.unwrap data).1 with
    | ok payload =>
      have hkeep : succeeded (Except.ok payload) = true := rfl
      rw [if_pos hkeep, if_pos hkeep, List.map_cons, unwrapAll, hres, hnext]
    | error e =>
      have hdrop : ¬ succeeded (Except.error e) = true := by simp [succeeded, Except.toOption]
      rw [if_neg hdrop, if_neg hdrop, ← hnext, unwrap_of_error hres]

/-- Without one rejected input all other calls return what they returned before. -/
theorem unwrapAll_eraseIdx (r : Receiver) (pre post : List (List UInt8))
    (h : (r.unwrapAll (pre ++ data :: post))[pre.length]? = some (.error e)) :
    r.unwrapAll (pre ++ post) = (r.unwrapAll (pre ++ data :: post)).eraseIdx pre.length := by
  induction pre generalizing r with
  | nil =>
    have hres : (r.unwrap data).1 = .error e := by simpa [unwrapAll] using h
    simp only [List.nil_append, unwrapAll, unwrap_of_error hres, List.length_nil,
      List.eraseIdx_cons_zero]
  | cons first pre ih =>
    simp only [List.cons_append, unwrapAll, List.length_cons, List.eraseIdx_cons_succ] at h ⊢
    rw [ih (r.unwrap first).2 (by simpa using h)]

/-- Deleting all inputs on which `unwrap` throws, or any one of them, leaves the results
of the remaining calls unchanged. -/
theorem rejected_input_inert (r : Receiver) (inputs : List (List UInt8)) :
    r.unwrapAll (r.acceptedInputs inputs) = (r.unwrapAll inputs).filter succeeded ∧
      ∀ pre data post e, inputs = pre ++ data :: post →
        (r.unwrapAll inputs)[pre.length]? = some (.error e) →
        r.unwrapAll (pre ++ post) = (r.unwrapAll inputs).eraseIdx pre.length := by
  refine ⟨unwrapAll_acceptedInputs r inputs, ?_⟩
  rintro pre data post e rfl h
  exact unwrapAll_eraseIdx r pre post h

end Receiver

end CppCan.Safety
