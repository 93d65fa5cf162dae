import CppCan.Core.Text
import Mathlib.Data.List.AList
import Mathlib.Data.UInt

/-!
# The message envelope of the relay

One message of any protocol. The metadata are a map from texts to texts whose
order of iteration means nothing.
-/

namespace CppCan.Relay

open CppCan.Core

/-- A protocol by its number; any number may be stored. -/
structure Protocol where
  value : Int32
  deriving DecidableEq, Repr

namespace Protocol

def CAN : Protocol := ⟨1⟩

end Protocol

/-- A version of the specification. -/
structure Version where
  major : Int32 := 0
  minor : Int32 := 0
  patch : Int32 := 0
  deriving DecidableEq, Repr

/-- The metadata of a message. -/
abbrev Meta := AList fun _ : Text => Text

/-- A message; the timestamp counts from the epoch. -/
structure Message where
  protocol : Protocol := ⟨0⟩
  version : Version := {}
  id : Text := []
  payload : List UInt8 := []
  timestamp : Int := 0
  seq : UInt64 := 0
  metadata : Meta := ∅
  deriving DecidableEq

/-- Looking up after an insertion. -/
theorem lookup_insert (m : Meta) (k v j : Text) :
    (m.insert k v).lookup j = if j = k then some v else m.lookup j := by
  by_cases hj : j = k
  · subst hj
    simp
  · simp [hj, AList.lookup_insert_ne hj]

/-- Looking up after an insertion that depends on a condition. -/
theorem lookup_insert_if {p : Prop} [Decidable p] (m : Meta) (k v j : Text) :
    (if p then m.insert k v else m).lookup j =
      if p ∧ j = k then some v else m.lookup j := by
  by_cases hp : p
  · rw [if_pos hp, lookup_insert]
    simp [hp]
  · simp [hp]

end CppCan.Relay
