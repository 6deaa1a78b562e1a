import EchoLink.PartialMap
import Mathlib.Data.List.Nodup
import Mathlib.Data.List.Basic

/-!
# Membership kept twice

Members, each in at most one group, and groups that list their members: `room`
is the view of the members and `members` the view of the groups (`none` for a
group that does not exist).  `Consistent` says that the two views agree.

A member enters a group or leaves it in both views at once; a group whose last
member leaves ceases to exist, and a new group is empty.  Each of the three
changes keeps the views consistent.
-/

namespace TwoViews

open PartialMap

variable {C P : Type*}

/-- The two views agree, and no group lists a member twice. -/
structure Consistent (room : C → Option P) (members : P → Option (List C)) : Prop where
  member : ∀ p l c, members p = some l → c ∈ l → room c = some p
  joined : ∀ c p, room c = some p → ∃ l, members p = some l ∧ c ∈ l
  nodup : ∀ p l, members p = some l → l.Nodup

theorem consistent_empty :
    Consistent (fun _ : C => (none : Option P)) (fun _ : P => (none : Option (List C))) where
  member := by
    intro p l c h
    cases h
  joined := by
    intro c p h
    cases h
  nodup := by
    intro p l h
    cases h

variable [DecidableEq P] {room : C → Option P} {members : P → Option (List C)} {c : C} {p : P}
  {l : List C}

/-- A new group is empty. -/
theorem Consistent.create (h : Consistent room members) (hp : members p = none) :
    Consistent room (Function.update members p (some [])) where
  member := by
    intro q l' d hq hd
    rcases update_some_cases hq with ⟨_, rfl⟩ | ⟨_, hq⟩
    · cases hd
    · exact h.member q l' d hq hd
  joined := by
    intro d q hd
    obtain ⟨l', hl', hmem⟩ := h.joined d q hd
    have hqp : q ≠ p := by
      rintro rfl
      rw [hp] at hl'
      cases hl'
    exact ⟨l', by rw [Function.update_of_ne hqp, hl'], hmem⟩
  nodup := by
    intro q l' hq
    rcases update_some_cases hq with ⟨_, rfl⟩ | ⟨_, hq⟩
    · exact List.nodup_nil
    · exact h.nodup q l' hq

variable [DecidableEq C]

/-- **Entering** a group, by one that is in none. -/
theorem Consistent.enter (h : Consistent room members) (hp : members p = some l)
    (hc : room c = none) :
    Consistent (Function.update room c (some p)) (Function.update members p (some (l ++ [c]))) := by
  have hcl : c ∉ l := by
    intro hmem
    rw [h.member p l c hp hmem] at hc
    cases hc
  have hother : ∀ q l' d, members q = some l' → d ∈ l' →
      Function.update room c (some p) d = some q := by
    intro q l' d hq hd
    have hroom := h.member q l' d hq hd
    have hdc : d ≠ c := by
      rintro rfl
      rw [hc] at hroom
      cases hroom
    rw [Function.update_of_ne hdc, hroom]
  refine ⟨?_, ?_, ?_⟩
  · intro q l' d hq hd
    rcases update_some_cases hq with ⟨rfl, rfl⟩ | ⟨_, hq⟩
    · rw [List.mem_append, List.mem_singleton] at hd
      rcases hd with hd | rfl
      · exact hother q l d hp hd
      · exact Function.update_self ..
    · exact hother q l' d hq hd
  · intro d q hd
    rcases update_some_cases hd with ⟨rfl, rfl⟩ | ⟨_, hd⟩
    · exact ⟨l ++ [d], Function.update_self .., by simp⟩
    · obtain ⟨l', hl', hmem⟩ := h.joined d q hd
      by_cases hqp : q = p
      · subst hqp
        rw [hp, Option.some.injEq] at hl'
        exact ⟨l ++ [c], Function.update_self .., by rw [hl']; simp [hmem]⟩
      · exact ⟨l', by rw [Function.update_of_ne hqp, hl'], hmem⟩
  · intro q l' hq
    rcases update_some_cases hq with ⟨rfl, rfl⟩ | ⟨_, hq⟩
    · exact (h.nodup q l hp).append (by simp) (by simpa using hcl)
    · exact h.nodup q l' hq

/-- **Leaving** a group, which ceases to exist if nobody is left. -/
theorem Consistent.leave (h : Consistent room members) (hp : members p = some l)
    (hc : room c = some p) :
    Consistent (Function.update room c none)
      (Function.update members p (if l.erase c = [] then none else some (l.erase c))) := by
  have hnodup := h.nodup p l hp
  -- the members that the group lists afterwards
  have hleft : ∀ l', (if l.erase c = [] then none else some (l.erase c)) = some l' →
      l' = l.erase c := by
    intro l' hl'
    split at hl'
    · cases hl'
    · rw [Option.some.injEq] at hl'
      exact hl'.symm
  have hother : ∀ q l' d, d ≠ c → members q = some l' → d ∈ l' →
      Function.update room c none d = some q := by
    intro q l' d hdc hq hd
    rw [Function.update_of_ne hdc]
    exact h.member q l' d hq hd
  refine ⟨?_, ?_, ?_⟩
  · intro q l' d hq hd
    by_cases hqp : q = p
    · subst hqp
      rw [Function.update_self] at hq
      rw [hleft l' hq, hnodup.mem_erase_iff] at hd
      exact hother q l d hd.1 hp hd.2
    · rw [Function.update_of_ne hqp] at hq
      have hdc : d ≠ c := by
        rintro rfl
        rw [h.member q l' d hq hd, Option.some.injEq] at hc
        exact hqp hc
      exact hother q l' d hdc hq hd
  · intro d q hd
    obtain ⟨hdc, hd⟩ := update_none_cases hd
    obtain ⟨l', hl', hmem⟩ := h.joined d q hd
    by_cases hqp : q = p
    · subst hqp
      rw [hp, Option.some.injEq] at hl'
      subst hl'
      have hmem' : d ∈ l.erase c := (List.mem_erase_of_ne hdc).mpr hmem
      have hne : l.erase c ≠ [] := List.ne_nil_of_mem hmem'
      exact ⟨l.erase c, by rw [Function.update_self, if_neg hne], hmem'⟩
    · exact ⟨l', by rw [Function.update_of_ne hqp, hl'], hmem⟩
  · intro q l' hq
    by_cases hqp : q = p
    · subst hqp
      rw [Function.update_self] at hq
      rw [hleft l' hq]
      exact hnodup.erase c
    · rw [Function.update_of_ne hqp] at hq
      exact h.nodup q l' hq

end TwoViews
