import Mathlib.Algebra.BigOperators.Fin
import Mathlib.Algebra.BigOperators.Group.Finset.Basic
import Mathlib.Algebra.Order.BigOperators.Group.Finset
import Mathlib.Data.Fintype.Basic

/-!
# What an array of slots holds

Each slot of a finite array is empty or holds an item.  `bag` is the multiset of
the items held.  What one slot holds comes on top of what the others hold
(`bag_split`, `bag_write`), and the size of the bag is the number of slots in
use.
-/

namespace SlotBag

variable {ι α : Type*} [Fintype ι]

/-- What one slot holds. -/
def ofSlot (x : Option α) : Multiset α := x.elim 0 fun a => {a}

/-- What all slots hold. -/
def bag (slots : ι → Option α) : Multiset α := ∑ i, ofSlot (slots i)

/-- What one slot holds comes on top of what the others hold. -/
theorem bag_split [DecidableEq ι] (slots : ι → Option α) (i : ι) :
    bag slots = ofSlot (slots i) + bag (Function.update slots i none) := by
  have hcomp : (fun j => ofSlot (Function.update slots i none j)) =
      Function.update (fun j => ofSlot (slots j)) i 0 := by
    funext j
    by_cases hj : j = i
    · subst hj
      rw [Function.update_self, Function.update_self]
      rfl
    · rw [Function.update_of_ne hj, Function.update_of_ne hj]
  rw [bag, bag, hcomp, Finset.sum_update_of_mem (Finset.mem_univ i), zero_add,
    ← Finset.add_sum_erase Finset.univ (fun j => ofSlot (slots j)) (Finset.mem_univ i),
    Finset.sdiff_singleton_eq_erase]

theorem mem_bag {slots : ι → Option α} {a : α} : a ∈ bag slots ↔ ∃ i, slots i = some a := by
  rw [bag, Multiset.mem_sum]
  constructor
  · intro ⟨i, _, hi⟩
    cases hslot : slots i with
    | none => simp [ofSlot, hslot] at hi
    | some x =>
        rw [hslot, ofSlot, Option.elim_some, Multiset.mem_singleton] at hi
        exact ⟨i, by rw [hi, hslot]⟩
  · intro ⟨i, hi⟩
    exact ⟨i, Finset.mem_univ i, by simp [hi, ofSlot]⟩

/-- **A slot is written.** -/
theorem bag_write [DecidableEq ι] (slots : ι → Option α) (i : ι) (x : Option α) :
    bag (Function.update slots i x) = ofSlot x + bag (Function.update slots i none) := by
  rw [bag_split (Function.update slots i x) i, Function.update_self, Function.update_idem]

theorem card_bag (slots : ι → Option α) :
    (bag slots).card = (Finset.univ.filter fun i => (slots i).isSome = true).card := by
  rw [bag, Multiset.card_sum, Finset.card_filter]
  refine Finset.sum_congr rfl ?_
  intro i _
  cases slots i with
  | none => rfl
  | some a => rfl

end SlotBag
