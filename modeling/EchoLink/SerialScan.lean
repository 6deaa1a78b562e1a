import Mathlib.Algebra.Group.Nat.Defs
import Mathlib.Data.List.Basic

/-!
# Serial numbers and scans for the least

Numbers of 32 bits that wrap around are compared by the sign of their
difference.  That is no order on all of them, but inside a window of half the
circle it compares the distances from the base of the window (`sub_neg_iff`).

A scan keeps the best item so far and replaces it by one that comes before.  If
the comparison agrees with a key on the items scanned, the scan ends with an item
whose key is least (`foldl_lesser_least`).
-/

namespace SerialScan

/-! ### Serial numbers -/

/-- How far a number is from the base, around the circle of 32-bit numbers. -/
def serial (base x : UInt32) : Nat := (x - base).toNat

/-- The number is less than half a circle from the base. -/
def InWindow (base x : UInt32) : Prop := serial base x < 2 ^ 31

instance (base x : UInt32) : Decidable (InWindow base x) := inferInstanceAs (Decidable (_ < _))

theorem toInt32_neg_iff (d : UInt32) : d.toInt32 < 0 ↔ 2 ^ 31 ≤ d.toNat := by
  have hcast : d.toInt32.toInt =
      if 2 * d.toNat < 2 ^ 32 then (d.toNat : Int) else (d.toNat : Int) - (2 ^ 32 : Nat) :=
    BitVec.toInt_eq_toNat_cond d.toBitVec
  have hlt : d.toNat < 2 ^ 32 := d.toNat_lt
  have hzero : (0 : Int32).toInt = 0 := rfl
  rw [Int32.lt_iff_toInt_lt, hzero, hcast]
  split <;> omega

/-- Inside a window the sign of the difference compares the distances. -/
theorem sub_neg_iff {base x y : UInt32} (hx : InWindow base x) (hy : InWindow base y) :
    (x - y).toInt32 < 0 ↔ serial base x < serial base y := by
  have hdiff : x - y = (x - base) - (y - base) := by
    rw [← UInt32.toBitVec_inj]
    simp only [UInt32.toBitVec_sub]
    bv_omega
  rw [toInt32_neg_iff, hdiff, UInt32.toNat_sub]
  simp only [InWindow, serial] at hx hy ⊢
  omega

theorem serial_injective (base : UInt32) : Function.Injective (serial base) := by
  intro x y h
  have hsub : x - base = y - base := UInt32.toNat_inj.mp h
  have hadd := congrArg (· + base) hsub
  simpa using hadd

/-- The next number is one further, unless it is the base again. -/
theorem serial_succ {base x : UInt32} (h : serial base x + 1 < 2 ^ 32) : serial base (x + 1) = serial base x + 1 := by
  have hone : (1 : UInt32).toNat = 1 := rfl
  simp only [serial, UInt32.toNat_sub, UInt32.toNat_add, hone] at h ⊢
  omega

/-! ### Scans for the least -/

variable {α : Type*}

/-- One round of a scan: the new item, if it comes before the best so far. -/
def lesser (before : α → α → Bool) (best x : α) : α := if before x best then x else best

/-- One round of a scan that may not have seen an item yet. -/
def lesserOpt (before : α → α → Bool) : Option α → α → Option α
  | none, x => some x
  | some best, x => some (lesser before best x)

/-- `before` compares the keys of the items. -/
def Compares (before : α → α → Bool) (key : α → Nat) (xs : List α) : Prop :=
  ∀ a ∈ xs, ∀ b ∈ xs, before a b = true ↔ key a < key b

variable {before : α → α → Bool} {key : α → Nat} {xs : List α} {x : α}

/-- **A scan finds a least item.** -/
theorem foldl_lesser_least (h : Compares before key (x :: xs)) :
    xs.foldl (lesser before) x ∈ x :: xs ∧ ∀ a ∈ x :: xs, key (xs.foldl (lesser before) x) ≤ key a := by
  induction xs generalizing x with
  | nil => simp
  | cons y xs ih =>
      have hmem : lesser before x y ∈ x :: y :: xs := by
        unfold lesser
        split <;> simp
      have hle : key (lesser before x y) ≤ key x ∧ key (lesser before x y) ≤ key y := by
        have hiff := h y (by simp) x (by simp)
        unfold lesser
        split
        · rename_i hb
          have := hiff.mp hb
          omega
        · rename_i hb
          have : ¬ key y < key x := fun hlt => hb (hiff.mpr hlt)
          omega
      have hsub : ∀ a ∈ lesser before x y :: xs, a ∈ x :: y :: xs := by
        intro a ha
        rcases List.mem_cons.mp ha with rfl | ha
        · exact hmem
        · simp [ha]
      obtain ⟨hin, hleast⟩ := ih (x := lesser before x y) fun a ha b hb => h a (hsub a ha) b (hsub b hb)
      refine ⟨hsub _ hin, ?_⟩
      intro a ha
      have hfirst := hleast _ List.mem_cons_self
      simp only [List.mem_cons] at ha
      rcases ha with rfl | rfl | ha
      · exact Nat.le_trans hfirst hle.1
      · exact Nat.le_trans hfirst hle.2
      · exact hleast a (List.mem_cons_of_mem _ ha)

theorem foldl_lesserOpt_some (xs : List α) (x : α) :
    xs.foldl (lesserOpt before) (some x) = some (xs.foldl (lesser before) x) := by
  induction xs generalizing x with
  | nil => rfl
  | cons y xs ih => simp only [List.foldl_cons, lesserOpt, ih]

/-- A scan of nothing finds nothing, any other finds a least item. -/
theorem foldl_lesserOpt (h : Compares before key xs) :
    (xs = [] ∧ xs.foldl (lesserOpt before) none = none) ∨
      ∃ a ∈ xs, xs.foldl (lesserOpt before) none = some a ∧ ∀ b ∈ xs, key a ≤ key b := by
  cases xs with
  | nil => exact Or.inl ⟨rfl, rfl⟩
  | cons x xs =>
      obtain ⟨hmem, hleast⟩ := foldl_lesser_least h
      refine Or.inr ⟨_, hmem, ?_, hleast⟩
      rw [List.foldl_cons, lesserOpt, foldl_lesserOpt_some]

theorem foldl_lesserOpt_eq_none (xs : List α) : xs.foldl (lesserOpt before) none = none ↔ xs = [] := by
  cases xs with
  | nil => simp
  | cons x xs => simp [lesserOpt, foldl_lesserOpt_some]

end SerialScan
