import Mathlib.Logic.Function.Basic
import Mathlib.Data.Option.Basic
import Mathlib.Tactic.ByContra

/-!
# Reference counts

Objects live at addresses, and each carries the number of references to it.
`refs p` is the number of references to `p` that exist, wherever they are
kept.  `Counted` says that the counts are right and that an object without
references is gone; it holds after an object is made with one reference
(`Counted.alloc`), after a reference is added (`Counted.acquire`), and after
one is dropped, where the last one frees the object (`Counted.release`).

So an object is freed exactly when no reference to it is left.
-/

namespace References

variable {P : Type*} [DecidableEq P]

/-- The count of an object after one reference is dropped: none is left of an
object without references. -/
def dropOne (n : Int) : Option Int := if n - 1 = 0 then none else some (n - 1)

/-- The counts are the numbers of references, and only objects with references
are there. -/
structure Counted (count : P → Option Int) (refs : P → Nat) : Prop where
  counted : ∀ p n, count p = some n → n = refs p
  held : ∀ p n, count p = some n → 0 < refs p
  absent : ∀ p, count p = none → refs p = 0

variable {count count' : P → Option Int} {refs refs' : P → Nat} {p : P} {n : Int}

omit [DecidableEq P] in
/-- What a reference points to is there. -/
theorem Counted.exists_of_pos (h : Counted count refs) (hp : 0 < refs p) : ∃ n, count p = some n := by
  cases hc : count p with
  | none => exact absurd (h.absent p hc) (Nat.ne_of_gt hp)
  | some n => exact ⟨n, rfl⟩

omit [DecidableEq P] in
/-- What nothing points to is gone. -/
theorem Counted.gone (h : Counted count refs) (hp : refs p = 0) : count p = none := by
  cases hc : count p with
  | none => rfl
  | some n => exact absurd hp (Nat.ne_of_gt (h.held p n hc))

omit [DecidableEq P] in
theorem Counted.congr (h : Counted count refs) (hcount : count' = count) (hrefs : ∀ q, refs' q = refs q) :
    Counted count' refs' := by
  have hsame : refs' = refs := funext hrefs
  rw [hcount, hsame]
  exact h

/-- The count of one object changes with the references to it. -/
theorem Counted.update (h : Counted count refs) {x : Option Int}
    (hsome : ∀ n, x = some n → n = refs' p ∧ 0 < refs' p) (hnone : x = none → refs' p = 0)
    (hother : ∀ q, q ≠ p → refs' q = refs q) : Counted (Function.update count p x) refs' := by
  refine ⟨?_, ?_, ?_⟩
  · intro q m hq
    by_cases hqp : q = p
    · subst hqp
      rw [Function.update_self] at hq
      exact (hsome m hq).1
    · rw [Function.update_of_ne hqp] at hq
      rw [hother q hqp]
      exact h.counted q m hq
  · intro q m hq
    by_cases hqp : q = p
    · subst hqp
      rw [Function.update_self] at hq
      exact (hsome m hq).2
    · rw [Function.update_of_ne hqp] at hq
      rw [hother q hqp]
      exact h.held q m hq
  · intro q hq
    by_cases hqp : q = p
    · subst hqp
      rw [Function.update_self] at hq
      exact hnone hq
    · rw [Function.update_of_ne hqp] at hq
      rw [hother q hqp]
      exact h.absent q hq

/-- A new object with one reference. -/
theorem Counted.alloc (h : Counted count refs) (hp : count p = none) (hself : refs' p = refs p + 1)
    (hother : ∀ q, q ≠ p → refs' q = refs q) : Counted (Function.update count p (some 1)) refs' := by
  have hzero := h.absent p hp
  refine h.update ?_ ?_ hother
  · intro m hm
    cases hm
    omega
  · intro hnone
    cases hnone

/-- One more reference. -/
theorem Counted.acquire (h : Counted count refs) (hp : count p = some n)
    (hself : refs' p = refs p + 1) (hother : ∀ q, q ≠ p → refs' q = refs q) :
    Counted (Function.update count p (some (n + 1))) refs' := by
  have hn := h.counted p n hp
  refine h.update ?_ ?_ hother
  · intro m hm
    cases hm
    omega
  · intro hnone
    cases hnone

/-- One reference less; the object goes with the last. -/
theorem Counted.release (h : Counted count refs) (hp : count p = some n)
    (hself : refs' p + 1 = refs p) (hother : ∀ q, q ≠ p → refs' q = refs q) :
    Counted (Function.update count p (dropOne n)) refs' := by
  have hn := h.counted p n hp
  refine h.update ?_ ?_ hother
  · intro m hm
    unfold dropOne at hm
    split at hm
    · cases hm
    · cases hm
      omega
  · intro hnone
    unfold dropOne at hnone
    split at hnone
    · omega
    · cases hnone

end References
