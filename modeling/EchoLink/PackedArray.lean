import Mathlib.Data.List.Basic
import Mathlib.Data.List.Nodup

/-!
# Arrays filled from the front

An array of pointers of which the first `n` entries are in use: an entry is
added behind the last one and removed by moving those behind it down, with
`NULL` written over the last.  An array is a function from indices, `none` for
`NULL`; `contents` lists the entries in use.

`Packed` says that the entries in use are exactly the first `n`.  Both
operations keep it, and on the contents they are `++ [x]` and `erase`.
-/

namespace PackedArray

variable {α : Type*}

/-- The entries among the first `n`. -/
def contents (a : Nat → Option α) (n : Nat) : List α := (List.range n).filterMap a

/-- The first `n` entries are in use and no others. -/
def Packed (a : Nat → Option α) (n : Nat) : Prop := ∃ l : List α, a = (fun j => l[j]?) ∧ n = l.length

theorem contents_getElem? (l : List α) : contents (fun j => l[j]?) l.length = l := by
  induction l with
  | nil => rfl
  | cons x l ih =>
      rw [contents, List.length_cons, List.range_succ_eq_map, List.filterMap_cons,
        List.filterMap_map]
      simp only [List.getElem?_cons_zero]
      exact congrArg (x :: ·) ih

variable {a : Nat → Option α} {n : Nat}

theorem Packed.eq (h : Packed a n) : a = (fun j => (contents a n)[j]?) := by
  obtain ⟨l, rfl, rfl⟩ := h
  rw [contents_getElem?]

theorem Packed.length (h : Packed a n) : (contents a n).length = n := by
  obtain ⟨l, rfl, rfl⟩ := h
  rw [contents_getElem?]

theorem packed_zero : Packed (fun _ => (none : Option α)) 0 := ⟨[], by simp, rfl⟩

/-- Adding an entry behind the last. -/
def put (a : Nat → Option α) (n : Nat) (x : α) : Nat → Option α := Function.update a n (some x)

theorem Packed.put (h : Packed a n) (x : α) :
    Packed (put a n x) (n + 1) ∧ contents (put a n x) (n + 1) = contents a n ++ [x] := by
  obtain ⟨l, rfl, rfl⟩ := h
  have hput : PackedArray.put (fun j => l[j]?) l.length x = fun j => (l ++ [x])[j]? := by
    funext j
    by_cases hj : j = l.length
    · subst hj
      simp [PackedArray.put]
    · rw [PackedArray.put, Function.update_of_ne hj]
      by_cases hlt : j < l.length
      · rw [List.getElem?_append_left hlt]
      · rw [List.getElem?_eq_none (by omega), List.getElem?_eq_none (by simp; omega)]
  have hlen : l.length + 1 = (l ++ [x]).length := by simp
  rw [hput, hlen, contents_getElem?, contents_getElem?]
  exact ⟨⟨l ++ [x], rfl, rfl⟩, rfl⟩

/-- Moving the entries behind `i` down over it. -/
def shiftOut (a : Nat → Option α) (n i : Nat) : Nat → Option α := fun j =>
  if i ≤ j ∧ j + 1 < n then a (j + 1) else if j + 1 = n then none else a j

theorem shiftOut_getElem? (l : List α) {i : Nat} (hi : i < l.length) :
    shiftOut (fun j => l[j]?) l.length i = fun j => (l.eraseIdx i)[j]? := by
  funext j
  rw [shiftOut, List.getElem?_eraseIdx]
  split
  · rw [if_neg (by omega)]
  · split
    · split
      · omega
      · rw [List.getElem?_eq_none (by omega)]
    · split
      · rfl
      · rw [List.getElem?_eq_none (by omega), List.getElem?_eq_none (by omega)]

variable [DecidableEq α]

/-- The place of an entry. -/
def indexOf (a : Nat → Option α) (n : Nat) (x : α) : Option Nat :=
  (List.range n).find? fun i => a i = some x

theorem indexOf_getElem? (l : List α) (x : α) :
    indexOf (fun j => l[j]?) l.length x = if x ∈ l then some (l.idxOf x) else none := by
  rw [indexOf]
  split
  · rename_i hx
    have hlt : l.idxOf x < l.length := List.idxOf_lt_length_iff.mpr hx
    rw [List.find?_range_eq_some]
    refine ⟨by simp [List.getElem?_eq_getElem hlt], by simpa using hlt, ?_⟩
    intro j hj
    have hjl : j < l.length := by omega
    have hne : l[j] ≠ x := by simpa using List.not_of_lt_findIdx (p := (· == x)) hj
    simp [List.getElem?_eq_getElem hjl, hne]
  · rename_i hx
    rw [List.find?_eq_none]
    intro i hi
    simp only [decide_eq_true_eq]
    intro hget
    exact hx (List.mem_of_getElem? hget)

/-- **Removing an entry** erases it from the contents. -/
theorem Packed.remove (h : Packed a n) {x : α} {i : Nat} (hi : indexOf a n x = some i) :
    Packed (shiftOut a n i) (n - 1) ∧ contents (shiftOut a n i) (n - 1) = (contents a n).erase x ∧
      x ∈ contents a n := by
  obtain ⟨l, rfl, rfl⟩ := h
  rw [indexOf_getElem?] at hi
  split at hi
  · rename_i hx
    cases hi
    have hlt : l.idxOf x < l.length := List.idxOf_lt_length_iff.mpr hx
    have hlen : l.length - 1 = (l.eraseIdx (l.idxOf x)).length := by
      rw [List.length_eraseIdx, if_pos hlt]
    rw [shiftOut_getElem? l hlt, hlen, contents_getElem?, contents_getElem?,
      List.erase_eq_eraseIdx_of_idxOf rfl]
    exact ⟨⟨_, rfl, rfl⟩, rfl, hx⟩
  · cases hi

theorem Packed.indexOf_eq_none (h : Packed a n) {x : α} (hi : indexOf a n x = none) :
    x ∉ contents a n := by
  obtain ⟨l, rfl, rfl⟩ := h
  rw [contents_getElem?]
  rw [indexOf_getElem?] at hi
  split at hi
  · cases hi
  · assumption

end PackedArray
