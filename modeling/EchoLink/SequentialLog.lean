import EchoLink.UndoLog

/-!
# Undo logs of a single writer

A single writer finishes every transaction before it begins the next, so only
the last one of its log can be unfinished.  `Sequential` says this of the events
alone, without the run that logged them, and so it holds also of what is left of
such a log: behind any event, up to any event, and when the last event is one of
which only a part was read.  Recovery then restores one record at most
(`Sequential.undo`).
-/

namespace UndoLog

variable {ι ρ : Type*} [DecidableEq ι]

/-- Every transaction that has an old image is finished or the last one, and the image
stands right behind its `begin`. -/
def Sequential : List (Event ι ρ) → Prop
  | [] => True
  | .begin i :: rest =>
      (begins rest ≠ [] → finished i rest = true ∨ before rest = none) ∧ Sequential rest
  | _ :: rest => before rest = none ∧ Sequential rest

/-- An event of which a part was read: it is lost, or it is about another record. -/
inductive Torn : Event ι ρ → Event ι ρ → Prop where
  | lost (e : Event ι ρ) : Torn .other e
  | begin (i j : ι) : Torn (.begin i) (.begin j)
  | old (r r' : ρ) : Torn (.old r) (.old r')
  | finish (i j : ι) : Torn (.finish i) (.finish j)

variable {e e₀ : Event ι ρ} {es xs : List (Event ι ρ)}

/-! ### Appended events -/

omit [DecidableEq ι] in
theorem before_append_of_begins (h : begins xs ≠ []) (es : List (Event ι ρ)) : before (xs ++ es) = before xs := by
  induction xs with
  | nil => exact absurd rfl h
  | cons x xs ih =>
      cases x with
      | begin i => rfl
      | old r => rfl
      | finish i => exact ih h
      | other => exact ih h

theorem finished_append_of_begins (i : ι) (h : begins xs ≠ []) (es : List (Event ι ρ)) :
    finished i (xs ++ es) = finished i xs := by
  induction xs with
  | nil => exact absurd rfl h
  | cons x xs ih =>
      cases x with
      | begin j => rfl
      | old r => exact ih h
      | finish j =>
          have hrest := ih h
          simp only [List.cons_append, finished, hrest]
      | other => exact ih h

/-- With a `begin` behind it a transaction is as it was without. -/
theorem finished_append_begin (i j : ι) (xs : List (Event ι ρ)) : finished i (xs ++ [.begin j]) = finished i xs := by
  by_cases h : begins xs = []
  · rw [finished_append h]
    simp [finished]
  · exact finished_append_of_begins i h _

omit [DecidableEq ι] in
/-- A part of an event brings no image that the event did not bring. -/
theorem Torn.before_append (h : Torn e e₀) (xs : List (Event ι ρ)) (hnone : before (xs ++ [e₀]) = none) :
    before (xs ++ [e]) = none := by
  induction xs with
  | nil => cases h <;> simp_all [before]
  | cons x xs ih =>
      cases x with
      | begin i => rfl
      | old r => cases hnone
      | finish i => exact ih hnone
      | other => exact ih hnone

omit [DecidableEq ι] in
theorem Torn.begins_append (h : Torn e e₀) (xs : List (Event ι ρ)) (hne : begins (xs ++ [e]) ≠ []) :
    begins (xs ++ [e₀]) ≠ [] := by
  rw [UndoLog.begins_append] at hne ⊢
  cases h <;> simp_all [begins]

/-- In front of another transaction, a part of an event finishes what the event did. -/
theorem Torn.finished_append (h : Torn e e₀) (i : ι) (xs : List (Event ι ρ)) (hne : begins (xs ++ [e]) ≠ []) :
    finished i (xs ++ [e]) = finished i (xs ++ [e₀]) := by
  by_cases hxs : begins xs = []
  · rw [UndoLog.begins_append, hxs] at hne
    cases h with
    | begin j k => rw [finished_append_begin, finished_append_begin]
    | lost e => exact absurd rfl hne
    | old r r' => exact absurd rfl hne
    | finish j k => exact absurd rfl hne
  · rw [finished_append_of_begins i hxs, finished_append_of_begins i hxs]

/-! ### Parts of a log -/

theorem Sequential.tail (h : Sequential (e :: es)) : Sequential es := by
  cases e with
  | begin i => exact h.2
  | old r => exact h.2
  | finish i => exact h.2
  | other => exact h.2

theorem Sequential.drop (h : Sequential es) (n : Nat) : Sequential (es.drop n) := by
  induction n generalizing es with
  | zero => exact h
  | succ n ih =>
      cases es with
      | nil => exact h
      | cons e es => exact ih h.tail

omit [DecidableEq ι] in
theorem before_take_none (h : before es = none) (n : Nat) : before (es.take n) = none := by
  induction es generalizing n with
  | nil => rw [List.take_nil, h]
  | cons e es ih =>
      cases n with
      | zero => rfl
      | succ n =>
          cases e with
          | begin i => rfl
          | old r => cases h
          | finish i => exact ih h n
          | other => exact ih h n

theorem Sequential.take (h : Sequential es) (n : Nat) : Sequential (es.take n) := by
  induction es generalizing n with
  | nil => simpa using h
  | cons e es ih =>
      cases n with
      | zero => trivial
      | succ n =>
          have hrest := ih h.tail n
          have hall : es.take n ++ es.drop n = es := List.take_append_drop n es
          cases e with
          | begin i =>
              refine ⟨?_, hrest⟩
              · intro hne
                have hbegins : begins es ≠ [] := by
                  rw [← hall, begins_append]
                  simp [hne]
                rcases h.1 hbegins with hfin | hnone
                · left
                  rwa [← hall, finished_append_of_begins i hne] at hfin
                · exact Or.inr (before_take_none hnone n)
          | old r => exact ⟨before_take_none h.1 n, hrest⟩
          | finish i => exact ⟨before_take_none h.1 n, hrest⟩
          | other => exact ⟨before_take_none h.1 n, hrest⟩

/-- The last event may be one of which a part was read. -/
theorem Sequential.torn (h : Sequential (xs ++ [e₀])) (htorn : Torn e e₀) : Sequential (xs ++ [e]) := by
  induction xs with
  | nil =>
      cases e with
      | begin i => exact ⟨fun hne => absurd rfl hne, trivial⟩
      | old r => exact ⟨rfl, trivial⟩
      | finish i => exact ⟨rfl, trivial⟩
      | other => exact ⟨rfl, trivial⟩
  | cons x xs ih =>
      have hrest := ih h.tail
      cases x with
      | begin i =>
          refine ⟨?_, hrest⟩
          · intro hne
            rcases h.1 (htorn.begins_append xs hne) with hfin | hnone
            · left
              exact (htorn.finished_append i xs hne).trans hfin
            · exact Or.inr (htorn.before_append xs hnone)
      | old r => exact ⟨htorn.before_append xs h.1, hrest⟩
      | finish i => exact ⟨htorn.before_append xs h.1, hrest⟩
      | other => exact ⟨htorn.before_append xs h.1, hrest⟩

/-- Finished transactions one after another. -/
theorem sequential_closed (txns : List (ι × ρ)) : Sequential (txns.flatMap fun t => closed t.1 t.2) := by
  induction txns with
  | nil => trivial
  | cons t txns ih =>
      have hnone : before (txns.flatMap fun t => closed t.1 t.2) = none := by
        cases txns with
        | nil => rfl
        | cons t' txns => rfl
      simp only [List.flatMap_cons, closed, List.cons_append, List.nil_append, Sequential]
      refine ⟨?_, hnone, hnone, hnone, ih⟩
      intro _
      left
      simp [finished]

/-! ### Recovery -/

theorem undo_of_begins_nil (h : begins es = []) : undo es = [] := by
  apply List.eq_nil_iff_forall_not_mem.mpr
  intro w hw
  have hmem := undo_fst_mem_begins hw
  rw [h] at hmem
  cases hmem

/-- **A sequential log restores one record at most.** -/
theorem Sequential.undo (h : Sequential es) : undo es = [] ∨ ∃ w, UndoLog.undo es = [w] := by
  induction es with
  | nil => exact Or.inl rfl
  | cons e es ih =>
      have hrest := ih h.tail
      cases e with
      | begin i =>
          simp only [UndoLog.undo]
          split
          · exact hrest
          · rename_i hfin
            cases hbefore : before es with
            | none => simpa using hrest
            | some r =>
                have hbegins : begins es = [] := by
                  by_contra hne
                  rcases h.1 hne with htrue | hnone
                  · exact hfin htrue
                  · rw [hbefore] at hnone
                    cases hnone
                right
                refine ⟨(i, r), ?_⟩
                rw [undo_of_begins_nil hbegins]
                rfl
      | old r => exact hrest
      | finish i => exact hrest
      | other => exact hrest

/-- The first event may be any other, unless it begins a transaction in the place of
another `begin`: nothing is restored for it. -/
theorem Sequential.undo_head (h : Sequential (e₀ :: es)) (hbegin : e.isBegin = true → e₀.isBegin = false) :
    UndoLog.undo (e :: es) = UndoLog.undo es := by
  cases e with
  | begin i =>
      have hnone : before es = none := by
        cases e₀ with
        | begin j => cases hbegin rfl
        | old r => exact h.1
        | finish j => exact h.1
        | other => exact h.1
      simp [UndoLog.undo, hnone]
  | old r => rfl
  | finish i => rfl
  | other => rfl

/-- What is restored: the first old image behind a `begin` that nothing finishes. -/
theorem mem_undo_split {i : ι} {r : ρ} :
    (i, r) ∈ UndoLog.undo es ↔
      ∃ pre rest, es = pre ++ .begin i :: rest ∧ finished i rest = false ∧ before rest = some r := by
  induction es with
  | nil => simp [UndoLog.undo]
  | cons e es ih =>
      have hskip : (i, r) ∈ UndoLog.undo es →
          ∃ pre rest, e :: es = pre ++ .begin i :: rest ∧ finished i rest = false ∧ before rest = some r := by
        intro hmem
        obtain ⟨pre, rest, rfl, hfin, hbefore⟩ := ih.mp hmem
        exact ⟨e :: pre, rest, rfl, hfin, hbefore⟩
      constructor
      · intro hmem
        cases e with
        | begin j =>
            simp only [UndoLog.undo] at hmem
            split at hmem
            · exact hskip hmem
            · rename_i hfin
              rcases List.mem_append.mp hmem with hhere | hlater
              · simp only [Option.mem_toList, Option.map_eq_some_iff, Prod.mk.injEq] at hhere
                obtain ⟨r', hbefore, rfl, rfl⟩ := hhere
                exact ⟨[], es, rfl, by simpa using hfin, hbefore⟩
              · exact hskip hlater
        | old r' => exact hskip hmem
        | finish j => exact hskip hmem
        | other => exact hskip hmem
      · intro hopen
        obtain ⟨pre, rest, heq, hfin, hbefore⟩ := hopen
        cases pre with
        | nil =>
            obtain ⟨rfl, rfl⟩ := List.cons.inj heq
            simp [UndoLog.undo, hfin, hbefore]
        | cons p pre =>
            obtain ⟨rfl, rfl⟩ := List.cons.inj heq
            have hmem := ih.mpr ⟨pre, rest, rfl, hfin, hbefore⟩
            cases e with
            | begin j =>
                simp only [UndoLog.undo]
                split
                · exact hmem
                · exact List.mem_append_right _ hmem
            | old r' => exact hmem
            | finish j => exact hmem
            | other => exact hmem

end UndoLog
