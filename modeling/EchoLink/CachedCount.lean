import Mathlib.Logic.Function.Basic

/-!
# A count kept in two places

An item is listed or not and has a count, and a record holds a copy of the
count with a flag that says whether the item is there.  A worker that changes
the count brings the record up to date afterwards: it reads the record, reads
the count, and writes the record back with the count in it.  A worker that
takes the item out of the list reads the record after that and writes it back
with the flag cleared.  The steps of the workers come in any order.

Such a write may put an old image of the record over a newer one.  It does no
harm as long as it is `InTime`: another worker has still to write the record.
While the writes are timely, the record is right or will be made right (`Inv`),
and it is right when all workers are done (`Inv.done`).
-/

namespace CachedCount

variable {ι ν : Type*}

/-- The item and its record. -/
structure Item (ν : Type*) where
  listed : Bool
  count : ν
  active : Bool
  stored : ν

/-- What a worker has still to do for the record: the flag and the count are
those of the image it holds. -/
inductive Duty (ν : Type*) where
  | away
  | reading
  | counting (active : Bool)
  | writing (active : Bool) (count : ν)
  | unlinked
  | erasing

/-- One step of a worker: the item and the worker before and after it. -/
inductive Act : Item ν → Duty ν → Item ν → Duty ν → Prop
  | skip (x : Item ν) : Act x .away x .away
  | change (x : Item ν) (n : ν) : Act x .away { x with count := n } .reading
  | read (x : Item ν) : Act x .reading x (.counting x.active)
  | count (x : Item ν) (a : Bool) : Act x (.counting a) x (.writing a x.count)
  | write (x : Item ν) (a : Bool) (n : ν) : Act x (.writing a n) { x with active := a, stored := n } .away
  | unlink (x : Item ν) (h : x.listed = true) : Act x .away { x with listed := false } .unlinked
  | found (x : Item ν) (h : x.active = true) : Act x .unlinked x .erasing
  | absent (x : Item ν) (h : x.active = false) : Act x .unlinked x .away
  | erase (x : Item ν) (n : ν) : Act x .erasing { x with active := false, stored := n } .away
  | free (x : Item ν) (n : ν) (h : x.listed = false) : Act x .away { x with count := n } .away

/-- The worker will store the count `n`, or one it has still to read. -/
def Duty.Stores (n : ν) : Duty ν → Prop
  | .reading => True
  | .counting _ => True
  | .writing _ m => m = n
  | _ => False

/-- The worker will clear the flag, or has still to look at it. -/
def Duty.Erases : Duty ν → Prop
  | .unlinked => True
  | .erasing => True
  | _ => False

/-- The flag in the image that the worker will write back. -/
def Duty.image : Duty ν → Option Bool
  | .counting a => some a
  | .writing a _ => some a
  | _ => none

/-- What holds at every moment while the writes are timely. -/
structure Inv (x : Item ν) (duties : ι → Duty ν) : Prop where
  active : x.listed = true → x.active = true
  stored : x.listed = true → x.stored = x.count ∨ ∃ i, (duties i).Stores x.count
  image : x.listed = true → ∀ i a, (duties i).image = some a → a = true
  keeps : x.listed = true → ∀ i, ¬ (duties i).Erases
  gone : x.listed = false → x.active = false ∨ ∃ i, (duties i).Erases

/-- The image that the worker `i` writes back is not an old one, or another
worker has still to write the record. -/
def InTime (x : Item ν) (duties : ι → Duty ν) (i : ι) : Prop :=
  ∀ a n, duties i = .writing a n →
    (x.listed = true → n = x.count ∨ ∃ j, j ≠ i ∧ (duties j).Stores x.count) ∧
      (x.listed = false → a = false ∨ ∃ j, j ≠ i ∧ (duties j).Erases)

/-- While nobody works on it the record is right. -/
theorem Inv.start {x : Item ν} (hlisted : x.listed = true) (hactive : x.active = true)
    (hstored : x.stored = x.count) {duties : ι → Duty ν} (haway : ∀ i, duties i = .away) : Inv x duties where
  active := fun _ => hactive
  stored := fun _ => Or.inl hstored
  image := by
    intro _ i a ha
    rw [haway i] at ha
    cases ha
  keeps := by
    intro _ i hi
    rw [haway i] at hi
    cases hi
  gone := by
    intro hgone
    rw [hlisted] at hgone
    cases hgone

/-- When all workers are done the record is right. -/
theorem Inv.done {x : Item ν} {duties : ι → Duty ν} (h : Inv x duties) (haway : ∀ i, duties i = .away) :
    (x.listed = true → x.active = true ∧ x.stored = x.count) ∧ (x.listed = false → x.active = false) := by
  refine ⟨fun hlisted => ⟨h.active hlisted, ?_⟩, fun hgone => ?_⟩
  · rcases h.stored hlisted with hstored | ⟨i, hi⟩
    · exact hstored
    · rw [haway i] at hi
      cases hi
  · rcases h.gone hgone with hactive | ⟨i, hi⟩
    · exact hactive
    · rw [haway i] at hi
      cases hi

variable [DecidableEq ι] {x x' : Item ν} {duties : ι → Duty ν} {i : ι} {r' : Duty ν}

/-- What holds of all workers after a step of the worker `i`. -/
theorem forall_update {P : Duty ν → Prop} (h : ∀ j, P (duties j)) (hr : P r') :
    ∀ j, P (Function.update duties i r' j) := by
  intro j
  by_cases hj : j = i
  · rw [hj, Function.update_self]
    exact hr
  · rw [Function.update_of_ne hj]
    exact h j

/-- A property of another worker outlives a step of the worker `i`. -/
theorem exists_update {P : Duty ν → Prop} (h : ∃ j, j ≠ i ∧ P (duties j)) :
    ∃ j, P (Function.update duties i r' j) := by
  obtain ⟨j, hj, hP⟩ := h
  exact ⟨j, by rwa [Function.update_of_ne hj]⟩

omit [DecidableEq ι] in
/-- The worker `i` that does not have the property is not the one that has. -/
theorem exists_other {P : Duty ν → Prop} (hi : ¬ P (duties i)) (h : ∃ j, P (duties j)) :
    ∃ j, j ≠ i ∧ P (duties j) := by
  obtain ⟨j, hP⟩ := h
  refine ⟨j, ?_, hP⟩
  rintro rfl
  exact hi hP

/-- **One timely step** keeps the invariant. -/
theorem Inv.act (h : Inv x duties) (htimely : InTime x duties i) (hact : Act x (duties i) x' r') :
    Inv x' (Function.update duties i r') := by
  have hself : Function.update duties i r' i = r' := Function.update_self _ _ _
  have himage : x.listed = true → (∀ a, r'.image = some a → a = true) →
      ∀ j a, (Function.update duties i r' j).image = some a → a = true :=
    fun hl hr => forall_update (P := fun r => ∀ a, r.image = some a → a = true) (h.image hl) hr
  have hkeeps : x.listed = true → ¬ r'.Erases → ∀ j, ¬ (Function.update duties i r' j).Erases :=
    fun hl hr => forall_update (P := fun r => ¬ r.Erases) (h.keeps hl) hr
  generalize hduty : duties i = r at hact
  -- a worker that neither stores nor erases leaves that to the others
  have hothers : (∀ n, ¬ r.Stores n) → x.listed = true →
      x.stored = x.count ∨ ∃ j, (Function.update duties i r' j).Stores x.count := fun hr hl =>
    (h.stored hl).imp id fun hs => exists_update (exists_other (by rw [hduty]; exact hr _) hs)
  have herased : ¬ r.Erases → x.listed = false →
      x.active = false ∨ ∃ j, (Function.update duties i r' j).Erases := fun hr hl =>
    (h.gone hl).imp id fun hs => exists_update (exists_other (by rw [hduty]; exact hr) hs)
  cases hact with
  | skip =>
      exact ⟨h.active, hothers fun _ hs => hs, fun hl => himage hl (by rintro a ⟨⟩),
        fun hl => hkeeps hl fun hs => hs, herased fun hs => hs⟩
  | change n =>
      exact ⟨h.active, fun _ => Or.inr ⟨i, by rw [hself]; trivial⟩, fun hl => himage hl (by rintro a ⟨⟩),
        fun hl => hkeeps hl fun hs => hs, herased fun hs => hs⟩
  | read =>
      refine ⟨h.active, fun _ => Or.inr ⟨i, by rw [hself]; trivial⟩, fun hl => himage hl ?_,
        fun hl => hkeeps hl fun hs => hs, herased fun hs => hs⟩
      intro a ha
      rw [← Option.some.inj ha]
      exact h.active hl
  | count a =>
      refine ⟨h.active, fun _ => Or.inr ⟨i, by rw [hself]; rfl⟩, fun hl => himage hl ?_,
        fun hl => hkeeps hl fun hs => hs, herased fun hs => hs⟩
      intro b hb
      exact h.image hl i b (by rw [hduty]; exact hb)
  | write a n =>
      obtain ⟨hnew, hgone⟩ := htimely a n hduty
      exact ⟨fun hl => h.image hl i a (by rw [hduty]; rfl), fun hl => (hnew hl).imp id exists_update,
        fun hl => himage hl (by rintro b ⟨⟩), fun hl => hkeeps hl fun hs => hs,
        fun hl => (hgone hl).imp id exists_update⟩
  | unlink hlisted =>
      exact ⟨by rintro ⟨⟩, by rintro ⟨⟩, by rintro ⟨⟩, by rintro ⟨⟩,
        fun _ => Or.inr ⟨i, by rw [hself]; trivial⟩⟩
  | found hactive =>
      -- the item is out of the list, or the worker would not look at the flag
      have hout : ¬ x.listed = true := fun hl => h.keeps hl i (by rw [hduty]; trivial)
      exact ⟨h.active, fun hl => absurd hl hout, fun hl => absurd hl hout, fun hl => absurd hl hout,
        fun _ => Or.inr ⟨i, by rw [hself]; trivial⟩⟩
  | absent hactive =>
      exact ⟨h.active, hothers fun _ hs => hs, fun hl => himage hl (by rintro a ⟨⟩),
        fun hl => hkeeps hl fun hs => hs, fun _ => Or.inl hactive⟩
  | erase n =>
      have hout : ¬ x.listed = true := fun hl => h.keeps hl i (by rw [hduty]; trivial)
      exact ⟨fun hl => absurd hl hout, fun hl => absurd hl hout, fun hl => absurd hl hout,
        fun hl => absurd hl hout, fun _ => Or.inl rfl⟩
  | free n hlisted =>
      have hout : ¬ x.listed = true := by
        rw [hlisted]
        exact Bool.false_ne_true
      exact ⟨h.active, fun hl => absurd hl hout, fun hl => absurd hl hout, fun hl => absurd hl hout,
        herased fun hs => hs⟩

end CachedCount
