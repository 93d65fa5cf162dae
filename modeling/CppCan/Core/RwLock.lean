import Mathlib.Data.Nat.Notation

/-!
# Readers-writer locks

The lock is held by any number of readers or by one writer. It keeps the
identities of its holders, so that it can be compared with what the threads
believe to hold.
-/

namespace CppCan.Core

/-- The holders of a readers-writer lock. -/
structure RwLock where
  readers : List Nat := []
  writer : Option Nat := none
  deriving DecidableEq, Repr

namespace RwLock

/-- A reader waits for the writer. -/
def lockShared (l : RwLock) (i : Nat) : Option RwLock :=
  if l.writer = none then some { l with readers := i :: l.readers } else none

def unlockShared (l : RwLock) (i : Nat) : RwLock := { l with readers := l.readers.filter (· ≠ i) }

/-- A writer waits for everybody. -/
def lockUnique (l : RwLock) (i : Nat) : Option RwLock :=
  if l.writer = none ∧ l.readers = [] then some { l with writer := some i } else none

def unlockUnique (l : RwLock) : RwLock := { l with writer := none }

end RwLock

end CppCan.Core
