import EchoLink.PartialMap

/-!
# Live entries and the table that stores them

A program keeps live entries in memory and writes each to one slot of a table
that it did not create: some slots hold records of an earlier run.  `info`
gives the live entries, `slotOf` the slot of an entry, and `table` the record
in each slot, `start` what it was at the beginning.

`Tracks` says that every live entry is stored in a slot of its own by an active
record, and that the other active records are exactly those of the beginning.
A new entry goes to any slot without an active record; the program need not
know which slots the live entries have.
-/

namespace SlotDirectory

open PartialMap

variable {P I R : Type*}

/-- What an entry is to its record. -/
structure Layout (I R : Type*) where
  slotOf : I → Nat
  active : R → Prop
  stores : R → I → Prop

/-- The table and the live entries agree. -/
structure Tracks (L : Layout I R) (start table : Nat → Option R) (info : P → Option I) : Prop where
  stored : ∀ p i, info p = some i → ∃ r, table (L.slotOf i) = some r ∧ L.active r ∧ L.stores r i
  distinct : ∀ p q i j, info p = some i → info q = some j → L.slotOf i = L.slotOf j → p = q
  spared : ∀ p i r, info p = some i → start (L.slotOf i) = some r → ¬ L.active r
  kept : ∀ k, (∀ p i, info p = some i → L.slotOf i ≠ k) →
    ∀ r, L.active r → (table k = some r ↔ start k = some r)

variable {L : Layout I R} {start table : Nat → Option R} {info : P → Option I} {p : P} {i j : I} {r : R}

theorem tracks_start (L : Layout I R) (start : Nat → Option R) :
    Tracks L start start (fun _ : P => none) where
  stored := by
    intro p i h
    cases h
  distinct := by
    intro p q i j h
    cases h
  spared := by
    intro p i r h
    cases h
  kept := fun _ _ _ _ => Iff.rfl

variable [DecidableEq P]

/-- The entry `p` is changed and stored again in its slot. -/
theorem Tracks.change (h : Tracks L start table info) (hp : info p = some i)
    (hslot : L.slotOf j = L.slotOf i) (hactive : L.active r) (hstores : L.stores r j) :
    Tracks L start (Function.update table (L.slotOf i) (some r)) (Function.update info p (some j)) := by
  -- every entry has the slot it had
  have hold : ∀ q x, Function.update info p (some j) q = some x →
      ∃ y, info q = some y ∧ L.slotOf x = L.slotOf y := by
    intro q x hq
    rcases update_some_cases hq with ⟨rfl, rfl⟩ | ⟨_, hq⟩
    · exact ⟨i, hp, hslot⟩
    · exact ⟨x, hq, rfl⟩
  refine ⟨?_, ?_, ?_, ?_⟩
  · intro q x hq
    rcases update_some_cases hq with ⟨rfl, rfl⟩ | ⟨hqp, hq⟩
    · exact ⟨r, by rw [hslot, Function.update_self], hactive, hstores⟩
    · obtain ⟨r', hr', hactive', hstores'⟩ := h.stored q x hq
      have hne : L.slotOf x ≠ L.slotOf i := fun he => hqp (h.distinct q p x i hq hp he)
      exact ⟨r', by rw [Function.update_of_ne hne, hr'], hactive', hstores'⟩
  · intro q q' x x' hq hq' hxx'
    obtain ⟨y, hy, hxy⟩ := hold q x hq
    obtain ⟨y', hy', hxy'⟩ := hold q' x' hq'
    exact h.distinct q q' y y' hy hy' (by rw [← hxy, ← hxy', hxx'])
  · intro q x r' hq hr'
    obtain ⟨y, hy, hxy⟩ := hold q x hq
    exact h.spared q y r' hy (by rw [← hxy, hr'])
  · intro k hk r' hactive'
    have hki : k ≠ L.slotOf i := by
      intro hki
      exact hk p j (Function.update_self ..) (by rw [hslot, hki])
    rw [Function.update_of_ne hki]
    refine h.kept k ?_ r' hactive'
    intro q y hq
    by_cases hqp : q = p
    · subst hqp
      rw [hp, Option.some.injEq] at hq
      exact fun he => hki (by rw [hq, he])
    · exact hk q y (by rw [Function.update_of_ne hqp, hq])

/-- The entry `p` is gone, and its slot no longer active. -/
theorem Tracks.remove (h : Tracks L start table info) (hp : info p = some i) (hactive : ¬ L.active r) :
    Tracks L start (Function.update table (L.slotOf i) (some r)) (Function.update info p none) := by
  have hold : ∀ q x, Function.update info p none q = some x →
      info q = some x ∧ L.slotOf x ≠ L.slotOf i := by
    intro q x hq
    obtain ⟨hqp, hq⟩ := update_none_cases hq
    exact ⟨hq, fun he => hqp (h.distinct q p x i hq hp he)⟩
  refine ⟨?_, ?_, ?_, ?_⟩
  · intro q x hq
    obtain ⟨hq, hne⟩ := hold q x hq
    rw [Function.update_of_ne hne]
    exact h.stored q x hq
  · intro q q' x x' hq hq'
    exact h.distinct q q' x x' (hold q x hq).1 (hold q' x' hq').1
  · intro q x r' hq
    exact h.spared q x r' (hold q x hq).1
  · intro k hk r' hactive'
    by_cases hki : k = L.slotOf i
    · subst hki
      rw [Function.update_self, Option.some.injEq]
      constructor
      · rintro rfl
        exact absurd hactive' hactive
      · intro hstart
        exact absurd hactive' (h.spared p i r' hp hstart)
    · rw [Function.update_of_ne hki]
      refine h.kept k ?_ r' hactive'
      intro q y hq
      by_cases hqp : q = p
      · subst hqp
        rw [hp, Option.some.injEq] at hq
        exact fun he => hki (by rw [hq, he])
      · exact hk q y (by rw [Function.update_of_ne hqp, hq])

/-- **A new entry** in a slot without an active record. -/
theorem Tracks.add (h : Tracks L start table info) (hp : info p = none)
    (hfree : ∀ r', table (L.slotOf j) = some r' → ¬ L.active r') (hactive : L.active r)
    (hstores : L.stores r j) :
    Tracks L start (Function.update table (L.slotOf j) (some r)) (Function.update info p (some j)) := by
  -- a live entry has an active record, so the slot is not one of theirs
  have hne : ∀ q x, info q = some x → L.slotOf x ≠ L.slotOf j := by
    intro q x hq he
    obtain ⟨r', hr', hactive', _⟩ := h.stored q x hq
    exact hfree r' (by rw [← he, hr']) hactive'
  have hother : ∀ q x, info q = some x → Function.update info p (some j) q = some x := by
    intro q x hq
    have hqp : q ≠ p := by
      rintro rfl
      rw [hp] at hq
      cases hq
    rw [Function.update_of_ne hqp, hq]
  refine ⟨?_, ?_, ?_, ?_⟩
  · intro q x hq
    rcases update_some_cases hq with ⟨_, rfl⟩ | ⟨_, hq⟩
    · exact ⟨r, Function.update_self .., hactive, hstores⟩
    · rw [Function.update_of_ne (hne q x hq)]
      exact h.stored q x hq
  · intro q q' x x' hq hq' hxx'
    rcases update_some_cases hq with ⟨hqp, hx⟩ | ⟨_, hold⟩
    · rcases update_some_cases hq' with ⟨hqp', _⟩ | ⟨_, hold'⟩
      · rw [hqp, hqp']
      · exact absurd (hx ▸ hxx'.symm) (hne q' x' hold')
    · rcases update_some_cases hq' with ⟨_, hx'⟩ | ⟨_, hold'⟩
      · exact absurd (hx' ▸ hxx') (hne q x hold)
      · exact h.distinct q q' x x' hold hold' hxx'
  · intro q x r' hq hr' hactive'
    rcases update_some_cases hq with ⟨_, rfl⟩ | ⟨_, hq⟩
    · -- an active record of the beginning would still be there
      exact hfree r' ((h.kept _ (fun q y hq => hne q y hq) r' hactive').mpr hr') hactive'
    · exact h.spared q x r' hq hr' hactive'
  · intro k hk r' hactive'
    have hkj : k ≠ L.slotOf j := fun he => hk p j (Function.update_self ..) he.symm
    rw [Function.update_of_ne hkj]
    exact h.kept k (fun q y hq => hk q y (hother q y hq)) r' hactive'

end SlotDirectory
