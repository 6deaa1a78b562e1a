import Mathlib.Data.Option.Basic
import Mathlib.Logic.Function.Basic

/-!
# Partial maps as functions

A table or a heap is a function to `Option`, and a write to it is
`Function.update`.  The lemmas say where an entry of an updated map comes
from, and how an update passes through a view of the entries.
-/

namespace PartialMap

variable {P V W : Type*} [DecidableEq P] {m : P → Option V} {p q : P} {v x : V}

/-- An entry of the map after a write is the new one or an old one. -/
theorem update_some_cases (h : Function.update m p (some v) q = some x) :
    (q = p ∧ x = v) ∨ (q ≠ p ∧ m q = some x) := by
  by_cases hqp : q = p
  · subst hqp
    rw [Function.update_self, Option.some.injEq] at h
    exact Or.inl ⟨rfl, h.symm⟩
  · rw [Function.update_of_ne hqp] at h
    exact Or.inr ⟨hqp, h⟩

/-- An entry of the map after an entry was cleared is another old one. -/
theorem update_none_cases (h : Function.update m p none q = some x) : q ≠ p ∧ m q = some x := by
  by_cases hqp : q = p
  · subst hqp
    rw [Function.update_self] at h
    cases h
  · rw [Function.update_of_ne hqp] at h
    exact ⟨hqp, h⟩

/-- A view of the entries after a write. -/
theorem map_update (f : V → W) (m : P → Option V) (p : P) (y : Option V) :
    (fun q => (Function.update m p y q).map f) =
      Function.update (fun q => (m q).map f) p (y.map f) := by
  funext q
  by_cases hqp : q = p
  · subst hqp
    rw [Function.update_self, Function.update_self]
  · rw [Function.update_of_ne hqp, Function.update_of_ne hqp]

end PartialMap
