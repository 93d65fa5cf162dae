import Mathlib.Data.Finmap

/-!
# Collecting a list in a map

Entries are stored one after the other, each under its key; a later entry replaces an
earlier one with the same key.
-/

namespace CppCan.Core

variable {ι κ β : Type*} [DecidableEq κ] {key : ι → κ} {val : ι → β} {l : List ι}

/-- Store the entries of a list in a map. -/
def storeAll (key : ι → κ) (val : ι → β) (m : Finmap fun _ : κ => β) (l : List ι) :
    Finmap fun _ : κ => β :=
  l.foldl (fun m a => m.insert (key a) (val a)) m

/-- The map that holds the entries of a list. -/
def collect (key : ι → κ) (val : ι → β) (l : List ι) : Finmap fun _ : κ => β :=
  storeAll key val ∅ l

/-- What is stored under other keys stays as it is. -/
theorem lookup_storeAll_of_ne {k : κ} (m : Finmap fun _ : κ => β) (h : ∀ a ∈ l, key a ≠ k) :
    (storeAll key val m l).lookup k = m.lookup k := by
  induction l generalizing m with
  | nil => rfl
  | cons a l ih =>
    obtain ⟨ha, hl⟩ := List.forall_mem_cons.mp h
    change (storeAll key val (m.insert (key a) (val a)) l).lookup k = _
    rw [ih _ hl, Finmap.lookup_insert_of_ne _ (Ne.symm ha)]

/-- Each entry is found under its key if no two entries have the same key. -/
theorem lookup_storeAll (m : Finmap fun _ : κ => β) (hnodup : (l.map key).Nodup) {a : ι}
    (ha : a ∈ l) : (storeAll key val m l).lookup (key a) = some (val a) := by
  induction l generalizing m with
  | nil => cases ha
  | cons b l ih =>
    obtain ⟨hb, hl⟩ := List.nodup_cons.mp hnodup
    change (storeAll key val (m.insert (key b) (val b)) l).lookup (key a) = _
    rcases List.mem_cons.mp ha with rfl | ha
    · rw [lookup_storeAll_of_ne, Finmap.lookup_insert]
      rintro c hc heq
      exact hb (heq ▸ List.mem_map_of_mem hc)
    · exact ih _ hl ha

/-- The map is searched like the list. -/
theorem lookup_collect (hnodup : (l.map key).Nodup) (k : κ) :
    (collect key val l).lookup k = (l.find? (key · = k)).map val := by
  cases h : l.find? (key · = k) with
  | none =>
    have hne : ∀ a ∈ l, key a ≠ k := by simpa using h
    exact lookup_storeAll_of_ne ∅ hne
  | some a =>
    obtain rfl : key a = k := by simpa using List.find?_some h
    exact lookup_storeAll ∅ hnodup (List.mem_of_find?_eq_some h)

/-- Entries whose values are computed one after the other are stored if no computation fails. -/
theorem foldlM_insert {ε : Type*} {f : ι → Except ε β} (h : ∀ a ∈ l, f a = .ok (val a))
    (m : Finmap fun _ : κ => β) :
    l.foldlM (fun m a => (f a).map (m.insert (key a) ·)) m = .ok (storeAll key val m l) := by
  induction l generalizing m with
  | nil => rfl
  | cons a l ih =>
    obtain ⟨ha, hl⟩ := List.forall_mem_cons.mp h
    rw [List.foldlM_cons, ha]
    exact ih hl _

/-- The map determines the values that were stored. -/
theorem collect_eq_iff {val' : ι → β} (hnodup : (l.map key).Nodup) :
    collect key val l = collect key val' l ↔ ∀ a ∈ l, val a = val' a := by
  constructor
  · intro h a ha
    have hval : (collect key val l).lookup (key a) = some (val a) := lookup_storeAll ∅ hnodup ha
    have hval' : (collect key val' l).lookup (key a) = some (val' a) :=
      lookup_storeAll ∅ hnodup ha
    rw [h, hval'] at hval
    exact (Option.some.inj hval).symm
  · intro h
    apply List.foldl_ext
    intro m a ha
    rw [h a ha]

end CppCan.Core
