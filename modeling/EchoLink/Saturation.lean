import Mathlib.Algebra.BigOperators.Group.List.Basic
import Mathlib.Algebra.Order.Ring.Int

/-!
# Sums that saturate

Integers between two limits are added one after the other, and each partial sum
is cut off at the limits.  The result depends on the order.  It is least if the
positive items come first, for then the limit above cuts off as much as it can,
and greatest if the negative ones do.  `least` and `greatest` are these two
results in closed form, out of the sum of the positive items and that of the
negative ones.  Every order ends between them (`least_le_fold`,
`fold_le_greatest`), and the two sorted orders reach them (`fold_descending`,
`fold_ascending`).
-/

namespace Saturation

/-- The limits, on either side of zero. -/
structure Limits where
  lower : Int
  upper : Int
  lower_le : lower ≤ 0
  le_upper : 0 ≤ upper

variable (L : Limits)

/-- Cut off at the limits. -/
def Limits.cut (x : Int) : Int := max L.lower (min x L.upper)

/-- Addition that saturates. -/
def Limits.add (x y : Int) : Int := L.cut (x + y)

/-- The sum of the positive items. -/
def gains (xs : List Int) : Int := (xs.map fun x => max x 0).sum

/-- The sum of the negative items, without its sign. -/
def losses (xs : List Int) : Int := (xs.map fun x => max (-x) 0).sum

/-- All positive items are added, and then all negative ones. -/
def Limits.leastFrom (acc : Int) (xs : List Int) : Int := L.cut (L.cut (acc + gains xs) - losses xs)

/-- All negative items are added, and then all positive ones. -/
def Limits.greatestFrom (acc : Int) (xs : List Int) : Int := L.cut (L.cut (acc - losses xs) + gains xs)

def Limits.least (xs : List Int) : Int := L.leastFrom 0 xs
def Limits.greatest (xs : List Int) : Int := L.greatestFrom 0 xs

variable {L} {xs ys : List Int} {acc x : Int}

/-- A positive item is gained, a negative one is lost. -/
theorem gains_losses_cons (x : Int) (xs : List Int) :
    (0 ≤ x ∧ gains (x :: xs) = x + gains xs ∧ losses (x :: xs) = losses xs) ∨
      (x < 0 ∧ gains (x :: xs) = gains xs ∧ losses (x :: xs) = -x + losses xs) := by
  simp only [gains, losses, List.map_cons, List.sum_cons]
  omega

theorem gains_nonneg (xs : List Int) : 0 ≤ gains xs := by
  induction xs with
  | nil => exact Int.le_refl 0
  | cons x xs ih => rcases gains_losses_cons x xs with ⟨_, hgain, _⟩ | ⟨_, hgain, _⟩ <;> omega

theorem losses_nonneg (xs : List Int) : 0 ≤ losses xs := by
  induction xs with
  | nil => exact Int.le_refl 0
  | cons x xs ih => rcases gains_losses_cons x xs with ⟨_, _, hloss⟩ | ⟨_, _, hloss⟩ <;> omega

theorem gains_perm (h : xs.Perm ys) : gains xs = gains ys := (h.map _).sum_eq
theorem losses_perm (h : xs.Perm ys) : losses xs = losses ys := (h.map _).sum_eq

theorem Limits.least_perm (h : xs.Perm ys) : L.least xs = L.least ys := by
  simp only [Limits.least, Limits.leastFrom, gains_perm h, losses_perm h]

theorem Limits.greatest_perm (h : xs.Perm ys) : L.greatest xs = L.greatest ys := by
  simp only [Limits.greatest, Limits.greatestFrom, gains_perm h, losses_perm h]

/-- Between the limits. -/
def Limits.Within (L : Limits) (x : Int) : Prop := L.lower ≤ x ∧ x ≤ L.upper

theorem Limits.add_within (acc x : Int) : L.Within (L.add acc x) := by
  have hlower := L.lower_le
  have hupper := L.le_upper
  simp only [Limits.Within, Limits.add, Limits.cut]
  omega

theorem cut_within (hacc : L.Within acc) : L.cut acc = acc := by
  simp only [Limits.cut, Limits.Within] at hacc ⊢
  omega

theorem cut_mono {y : Int} (h : x ≤ y) : L.cut x ≤ L.cut y := by
  simp only [Limits.cut]
  omega

/-- While items are gained, cutting off on the way changes nothing. -/
theorem cut_gain {y : Int} (hx : L.lower ≤ x) (hy : 0 ≤ y) : L.cut (L.cut x + y) = L.cut (x + y) := by
  simp only [Limits.cut]
  omega

/-- While items are lost, cutting off on the way changes nothing. -/
theorem cut_loss {y : Int} (hx : x ≤ L.upper) (hy : 0 ≤ y) : L.cut (L.cut x - y) = L.cut (x - y) := by
  have hlower := L.lower_le
  have hupper := L.le_upper
  simp only [Limits.cut]
  omega

/-- A loss before a gain leaves at least as much. -/
theorem loss_before_gain {y : Int} (hacc : L.Within acc) (hx : x ≤ 0) (hy : 0 ≤ y) :
    L.cut (acc + y) + x ≤ L.cut (L.cut (acc + x) + y) := by
  simp only [Limits.cut, Limits.Within] at hacc ⊢
  omega

/-- A gain before a loss leaves at most as much. -/
theorem gain_before_loss {y : Int} (hacc : L.Within acc) (hx : 0 ≤ x) (hy : 0 ≤ y) :
    L.cut (L.cut (acc + x) - y) ≤ L.cut (acc - y) + x := by
  simp only [Limits.cut, Limits.Within] at hacc ⊢
  omega

/-- A positive item first is in its turn for the least result, a negative one is
not. -/
theorem leastFrom_cons_le (hacc : L.Within acc) (x : Int) (xs : List Int) :
    L.leastFrom acc (x :: xs) ≤ L.leastFrom (L.add acc x) xs := by
  have hgains := gains_nonneg xs
  simp only [Limits.leastFrom, Limits.add]
  rcases gains_losses_cons x xs with ⟨hx, hgain, hloss⟩ | ⟨hx, hgain, hloss⟩
  · have hlower : L.lower ≤ acc + x := Int.le_trans hacc.1 (by omega)
    apply Int.le_of_eq
    rw [hgain, hloss, cut_gain hlower hgains, Int.add_assoc]
  · have hle := loss_before_gain hacc (Int.le_of_lt hx) hgains
    rw [hgain, hloss]
    apply cut_mono
    omega

theorem le_greatestFrom_cons (hacc : L.Within acc) (x : Int) (xs : List Int) :
    L.greatestFrom (L.add acc x) xs ≤ L.greatestFrom acc (x :: xs) := by
  have hlosses := losses_nonneg xs
  simp only [Limits.greatestFrom, Limits.add]
  rcases gains_losses_cons x xs with ⟨hx, hgain, hloss⟩ | ⟨hx, hgain, hloss⟩
  · have hle := gain_before_loss hacc hx hlosses
    rw [hgain, hloss]
    apply cut_mono
    omega
  · have hupper : acc + x ≤ L.upper := Int.le_trans (by omega) hacc.2
    have hsame : acc + x - losses xs = acc - (-x + losses xs) := by omega
    apply Int.le_of_eq
    rw [hgain, hloss, cut_loss hupper hlosses, hsame]

theorem fold_bounds (hacc : L.Within acc) (xs : List Int) :
    L.leastFrom acc xs ≤ xs.foldl L.add acc ∧ xs.foldl L.add acc ≤ L.greatestFrom acc xs := by
  induction xs generalizing acc with
  | nil => simp [Limits.leastFrom, Limits.greatestFrom, gains, losses, cut_within hacc]
  | cons x xs ih =>
      obtain ⟨hleast, hgreatest⟩ := ih (Limits.add_within acc x)
      exact ⟨Int.le_trans (leastFrom_cons_le hacc x xs) hleast,
        Int.le_trans hgreatest (le_greatestFrom_cons hacc x xs)⟩

theorem Limits.zero_within (L : Limits) : L.Within 0 := ⟨L.lower_le, L.le_upper⟩

/-- **No order ends below the least result.** -/
theorem least_le_fold (xs : List Int) : L.least xs ≤ xs.foldl L.add 0 := (fold_bounds L.zero_within xs).1

/-- **No order ends above the greatest result.** -/
theorem fold_le_greatest (xs : List Int) : xs.foldl L.add 0 ≤ L.greatest xs := (fold_bounds L.zero_within xs).2

theorem gains_eq_zero (h : ∀ y ∈ xs, y ≤ 0) : gains xs = 0 := by
  induction xs with
  | nil => rfl
  | cons x xs ih =>
      have hx := h x List.mem_cons_self
      have hxs := ih fun y hy => h y (List.mem_cons_of_mem x hy)
      rcases gains_losses_cons x xs with ⟨_, hgain, _⟩ | ⟨_, hgain, _⟩ <;> omega

theorem losses_eq_zero (h : ∀ y ∈ xs, 0 ≤ y) : losses xs = 0 := by
  induction xs with
  | nil => rfl
  | cons x xs ih =>
      have hx := h x List.mem_cons_self
      have hxs := ih fun y hy => h y (List.mem_cons_of_mem x hy)
      rcases gains_losses_cons x xs with ⟨_, _, hloss⟩ | ⟨_, _, hloss⟩ <;> omega

theorem fold_descending_from (hacc : L.Within acc) (h : xs.Pairwise fun x y => y ≤ x) :
    xs.foldl L.add acc = L.leastFrom acc xs := by
  induction xs generalizing acc with
  | nil => simp [Limits.leastFrom, gains, losses, cut_within hacc]
  | cons x xs ih =>
      obtain ⟨hx, hxs⟩ := List.pairwise_cons.mp h
      have hsum := Limits.add_within (L := L) acc x
      rw [List.foldl_cons, ih hsum hxs]
      simp only [Limits.leastFrom]
      rcases gains_losses_cons x xs with ⟨hsign, hgain, hloss⟩ | ⟨hsign, hgain, hloss⟩
      · have hlower : L.lower ≤ acc + x := Int.le_trans hacc.1 (by omega)
        rw [hgain, hloss, Limits.add, cut_gain hlower (gains_nonneg xs), Int.add_assoc]
      · -- from the first negative item on nothing is gained
        have hnothing : gains xs = 0 := by
          apply gains_eq_zero
          intro y hy
          exact Int.le_trans (hx y hy) (Int.le_of_lt hsign)
        have hupper : acc + x ≤ L.upper := Int.le_trans (by omega) hacc.2
        have hsame : acc + x - losses xs = acc - (-x + losses xs) := by omega
        rw [hgain, hloss, hnothing, Int.add_zero, Int.add_zero, cut_within hsum, cut_within hacc, Limits.add,
          cut_loss hupper (losses_nonneg xs), hsame]

theorem fold_ascending_from (hacc : L.Within acc) (h : xs.Pairwise fun x y => x ≤ y) :
    xs.foldl L.add acc = L.greatestFrom acc xs := by
  induction xs generalizing acc with
  | nil => simp [Limits.greatestFrom, gains, losses, cut_within hacc]
  | cons x xs ih =>
      obtain ⟨hx, hxs⟩ := List.pairwise_cons.mp h
      have hsum := Limits.add_within (L := L) acc x
      rw [List.foldl_cons, ih hsum hxs]
      simp only [Limits.greatestFrom]
      rcases gains_losses_cons x xs with ⟨hsign, hgain, hloss⟩ | ⟨hsign, hgain, hloss⟩
      · -- from the first item that is not negative on nothing is lost
        have hnothing : losses xs = 0 := by
          apply losses_eq_zero
          intro y hy
          exact Int.le_trans hsign (hx y hy)
        have hlower : L.lower ≤ acc + x := Int.le_trans hacc.1 (by omega)
        rw [hgain, hloss, hnothing, Int.sub_zero, Int.sub_zero, cut_within hsum, cut_within hacc, Limits.add,
          cut_gain hlower (gains_nonneg xs), Int.add_assoc]
      · have hupper : acc + x ≤ L.upper := Int.le_trans (by omega) hacc.2
        have hsame : acc + x - losses xs = acc - (-x + losses xs) := by omega
        rw [hgain, hloss, Limits.add, cut_loss hupper (losses_nonneg xs), hsame]

/-- **The greatest item first** gives the least result. -/
theorem fold_descending (h : xs.Pairwise fun x y => y ≤ x) : xs.foldl L.add 0 = L.least xs :=
  fold_descending_from L.zero_within h

/-- **The least item first** gives the greatest result. -/
theorem fold_ascending (h : xs.Pairwise fun x y => x ≤ y) : xs.foldl L.add 0 = L.greatest xs :=
  fold_ascending_from L.zero_within h

/-- Items can be put in the order of a key. -/
theorem exists_sorted {α : Type*} (key : α → Int) (l : List α) :
    ∃ l' : List α, l'.Perm l ∧ l'.Pairwise fun a b => key a ≤ key b := by
  refine ⟨l.mergeSort fun a b => decide (key a ≤ key b), List.mergeSort_perm l _, ?_⟩
  refine (List.pairwise_mergeSort ?_ ?_ l).imp fun h => of_decide_eq_true h
  · intro a b c hab hbc
    simp only [decide_eq_true_eq] at hab hbc ⊢
    exact Int.le_trans hab hbc
  · intro a b
    simp only [Bool.or_eq_true, decide_eq_true_eq]
    exact Int.le_total _ _

end Saturation
