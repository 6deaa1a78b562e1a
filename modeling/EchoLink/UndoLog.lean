import Mathlib.Data.List.Basic
import Mathlib.Data.List.Nodup

/-!
# Undo logs delimited by their next `begin`

The reading of an undo log in which a transaction reaches from its `begin` to
the next `begin`, whichever record that one is about.  A transaction is
finished when its `finish` lies in that stretch; otherwise recovery restores
the first `old` image found there.

`undo_append_closed` is the sequential law: transactions logged one after
another and finished leave nothing to undo.  `mem_undo_iff` is the law for
interleaved logs in which every record has one `begin`: what happens to a
record depends only on its `stretch`, and `stretch_append_singleton` says how
stretches grow as events are appended.
-/

namespace UndoLog

/-- The events of a log about records `ι` with images `ρ`. -/
inductive Event (ι ρ : Type*) where
  | begin (i : ι)
  | old (r : ρ)
  | finish (i : ι)
  | other
  deriving DecidableEq, Repr

variable {ι ρ : Type*}

def Event.isBegin : Event ι ρ → Bool
  | .begin _ => true
  | _ => false

@[simp] theorem isBegin_begin (i : ι) : (Event.begin i : Event ι ρ).isBegin = true := rfl
@[simp] theorem isBegin_old (r : ρ) : (Event.old r : Event ι ρ).isBegin = false := rfl
@[simp] theorem isBegin_finish (i : ι) : (Event.finish i : Event ι ρ).isBegin = false := rfl
@[simp] theorem isBegin_other : (Event.other : Event ι ρ).isBegin = false := rfl

/-- The first old image before the next `begin`. -/
def before : List (Event ι ρ) → Option ρ
  | [] => none
  | .begin _ :: _ => none
  | .old r :: _ => some r
  | _ :: rest => before rest

/-- The records that have a `begin`, in order. -/
def begins : List (Event ι ρ) → List ι
  | [] => []
  | .begin i :: rest => i :: begins rest
  | _ :: rest => begins rest

variable [DecidableEq ι]

/-- A `finish` of `i` lies before the next `begin`. -/
def finished (i : ι) : List (Event ι ρ) → Bool
  | [] => false
  | .begin _ :: _ => false
  | .finish j :: rest => if j = i then true else finished i rest
  | _ :: rest => finished i rest

/-- The restoring writes of recovery, in the order they are made. -/
def undo : List (Event ι ρ) → List (ι × ρ)
  | [] => []
  | .begin i :: rest =>
      if finished i rest then undo rest
      else ((before rest).map fun r => (i, r)).toList ++ undo rest
  | _ :: rest => undo rest

/-- The image restored by a search for the first transaction of `i`. -/
def firstImage (i : ι) : List (Event ι ρ) → Option ρ
  | [] => none
  | .begin j :: rest => if j = i then before rest else firstImage i rest
  | _ :: rest => firstImage i rest

/-! ### Transactions one after another -/

/-- One finished transaction, as a single writer logs it. -/
def closed (i : ι) (r : ρ) : List (Event ι ρ) := [.begin i, .old r, .other, .finish i]

theorem undo_append_closed (txns : List (ι × ρ)) (rest : List (Event ι ρ)) :
    undo (txns.flatMap (fun t => closed t.1 t.2) ++ rest) = undo rest := by
  induction txns with
  | nil => rfl
  | cons t txns ih =>
      simp only [List.flatMap_cons, closed, List.cons_append, List.nil_append,
        undo, finished, if_true]
      exact ih

/-! ### Interleaved transactions -/

omit [DecidableEq ι] in
omit [DecidableEq ι] in
theorem begins_append (es es' : List (Event ι ρ)) :
    begins (es ++ es') = begins es ++ begins es' := by
  induction es with
  | nil => rfl
  | cons e es ih => cases e <;> simp [begins, ih]

/-- The events between the `begin` of `i` and the next `begin`. -/
def stretch (i : ι) : List (Event ι ρ) → List (Event ι ρ)
  | [] => []
  | .begin j :: rest =>
      if j = i then rest.takeWhile (fun e => !e.isBegin) else stretch i rest
  | _ :: rest => stretch i rest

omit [DecidableEq ι] in
theorem before_takeWhile (es : List (Event ι ρ)) :
    before (es.takeWhile fun e => !e.isBegin) = before es := by
  induction es with
  | nil => rfl
  | cons e es ih => cases e <;> simp [before, ih]

theorem finished_takeWhile (i : ι) (es : List (Event ι ρ)) :
    finished i (es.takeWhile fun e => !e.isBegin) = finished i es := by
  induction es with
  | nil => rfl
  | cons e es ih => cases e <;> simp [finished, ih]

theorem undo_fst_mem_begins {es : List (Event ι ρ)} {w : ι × ρ} (h : w ∈ undo es) :
    w.1 ∈ begins es := by
  induction es with
  | nil => simp [undo] at h
  | cons e es ih =>
      cases e with
      | begin i =>
          simp only [undo] at h
          split at h
          · exact List.mem_cons_of_mem _ (ih h)
          · rcases List.mem_append.mp h with h | h
            · simp only [Option.mem_toList, Option.map_eq_some_iff] at h
              obtain ⟨r, _, rfl⟩ := h
              exact List.mem_cons_self
            · exact List.mem_cons_of_mem _ (ih h)
      | old r => exact ih h
      | finish i => exact ih h
      | other => exact ih h

/-- **What recovery does to one record** of a log in which each record has one
`begin` is decided by the stretch of that record alone. -/
theorem mem_undo_iff {es : List (Event ι ρ)} (hnd : (begins es).Nodup) {i : ι} {r : ρ} :
    (i, r) ∈ undo es ↔
      i ∈ begins es ∧ finished i (stretch i es) = false ∧ before (stretch i es) = some r := by
  induction es with
  | nil => simp [undo, begins]
  | cons e es ih =>
      cases e with
      | begin j =>
          simp only [begins, List.nodup_cons] at hnd
          have hrec := ih hnd.2
          by_cases hji : j = i
          · subst hji
            have hno : (j, r) ∉ undo es := fun h => hnd.1 (undo_fst_mem_begins h)
            simp only [undo, stretch, begins, if_true, finished_takeWhile, before_takeWhile,
              List.mem_cons, true_or, true_and]
            cases hf : finished j es with
            | true => simp [hno]
            | false => simp [hno]
          · have hij : ¬ i = j := fun h => hji h.symm
            simp only [undo, stretch, begins, hji, if_false, List.mem_cons, hij, false_or]
            rw [← hrec]
            split
            · rfl
            · simp only [List.mem_append, Option.mem_toList, Option.map_eq_some_iff,
                Prod.mk.injEq, hji, false_and, and_false, exists_false, false_or]
      | old r' => exact ih hnd
      | finish j => exact ih hnd
      | other => exact ih hnd

/-- Recovery restores each record at most once when each has one `begin`. -/
theorem undo_keys_sublist (es : List (Event ι ρ)) :
    List.Sublist ((undo es).map Prod.fst) (begins es) := by
  induction es with
  | nil => exact List.Sublist.refl _
  | cons e es ih =>
      cases e with
      | begin i =>
          simp only [undo, begins]
          split
          · exact ih.cons i
          · cases before es with
            | none => exact ih.cons i
            | some r => exact ih.cons_cons i
      | old r => exact ih
      | finish i => exact ih
      | other => exact ih

/-- The record whose transaction is the last one begun. -/
def current (es : List (Event ι ρ)) : Option ι := (begins es).getLast?

omit [DecidableEq ι] in
private theorem takeWhile_append_begin {es : List (Event ι ρ)} (e : Event ι ρ) (i : ι)
    (hi : e = .begin i ∨ begins es ≠ []) :
    (es ++ [e]).takeWhile (fun e => !e.isBegin) = es.takeWhile (fun e => !e.isBegin) := by
  induction es with
  | nil =>
      rcases hi with rfl | hi
      · simp
      · simp [begins] at hi
  | cons e' es ih =>
      cases e' with
      | begin j => simp
      | old r => simpa [List.takeWhile_cons] using ih hi
      | finish j => simpa [List.takeWhile_cons] using ih hi
      | other => simpa [List.takeWhile_cons] using ih hi

omit [DecidableEq ι] in
private theorem takeWhile_all_of_begins_nil {es : List (Event ι ρ)} (h : begins es = []) :
    es.takeWhile (fun e => !e.isBegin) = es := by
  induction es with
  | nil => rfl
  | cons e es ih =>
      cases e with
      | begin j => simp [begins] at h
      | old r => simpa [List.takeWhile_cons] using ih h
      | finish j => simpa [List.takeWhile_cons] using ih h
      | other => simpa [List.takeWhile_cons] using ih h

/-- An appended event joins the stretch of the transaction begun last, and
no other. -/
theorem stretch_append_singleton {es : List (Event ι ρ)} {e : Event ι ρ}
    (hnd : (begins es).Nodup) (he : e.isBegin = false) (i : ι) :
    stretch i (es ++ [e]) =
      if current es = some i then stretch i es ++ [e] else stretch i es := by
  induction es with
  | nil => cases e <;> simp [stretch, current, begins] at he ⊢
  | cons e' es ih =>
      cases e' with
      | begin j =>
          simp only [begins, List.nodup_cons] at hnd
          have hrec := ih hnd.2
          by_cases hes : begins es = []
          · have hcur : current (.begin j :: es) = some j := by simp [current, begins, hes]
            have hi : i ∉ begins es := by simp [hes]
            by_cases hji : j = i
            · subst hji
              have hend : begins (es ++ [e]) = [] := by
                rw [begins_append, hes]
                cases e <;> simp [begins] at he ⊢
              simp only [List.cons_append, stretch, if_true, hcur]
              rw [takeWhile_all_of_begins_nil hend, takeWhile_all_of_begins_nil hes]
            · have hne : ¬ (some j : Option ι) = some i := by simpa using hji
              have hcur' : current es ≠ some i := by simp [current, hes]
              simp only [List.cons_append, stretch, hji, if_false, hcur, Option.some.injEq]
              rw [hrec, if_neg hcur']
          · have hcur : current (.begin j :: es) = current es := by
              obtain ⟨k, ks, hk⟩ := List.exists_cons_of_ne_nil hes
              simp [current, begins, hk, List.getLast?_cons_cons]
            by_cases hji : j = i
            · subst hji
              have hne : current es ≠ some j := by
                intro h
                exact hnd.1 (List.mem_of_getLast? h)
              simp only [List.cons_append, stretch, if_true, hcur, if_neg hne]
              exact takeWhile_append_begin e j (Or.inr hes)
            · simp only [List.cons_append, stretch, hji, if_false, hcur]
              exact hrec
      | old r => exact ih hnd
      | finish j => exact ih hnd
      | other => exact ih hnd

/-- A new `begin` opens an empty stretch and closes the one before it. -/
theorem stretch_append_begin {es : List (Event ι ρ)} {j : ι} (hj : j ∉ begins es) (i : ι) :
    stretch i (es ++ [.begin j]) = stretch i es := by
  induction es with
  | nil => simp [stretch]
  | cons e es ih =>
      cases e with
      | begin k =>
          simp only [begins, List.mem_cons, not_or] at hj
          simp only [List.cons_append, stretch]
          split
          · exact takeWhile_append_begin _ j (Or.inl rfl)
          · exact ih hj.2
      | old r => exact ih hj
      | finish k => exact ih hj
      | other => exact ih hj

omit [DecidableEq ι] in
private theorem begins_takeWhile (es : List (Event ι ρ)) :
    begins (es.takeWhile fun e => !e.isBegin) = [] := by
  induction es with
  | nil => rfl
  | cons e es ih => cases e <;> simp [begins, ih]

theorem begins_stretch (i : ι) (es : List (Event ι ρ)) : begins (stretch i es) = [] := by
  induction es with
  | nil => rfl
  | cons e es ih =>
      cases e with
      | begin j =>
          simp only [stretch]
          split
          · exact begins_takeWhile es
          · exact ih
      | old r => exact ih
      | finish j => exact ih
      | other => exact ih

omit [DecidableEq ι] in
/-- An event appended to a stretch without `begin` supplies the old image if
there was none. -/
theorem before_append {es es' : List (Event ι ρ)} (h : begins es = []) :
    before (es ++ es') = (before es).or (before es') := by
  induction es with
  | nil => rfl
  | cons e es ih =>
      cases e with
      | begin j => simp [begins] at h
      | old r => rfl
      | finish j => exact ih h
      | other => exact ih h

theorem finished_append {i : ι} {es es' : List (Event ι ρ)} (h : begins es = []) :
    finished i (es ++ es') = (finished i es || finished i es') := by
  induction es with
  | nil => rfl
  | cons e es ih =>
      cases e with
      | begin j => simp [begins] at h
      | old r => exact ih h
      | finish j =>
          simp only [List.cons_append, finished]
          split
          · rfl
          · exact ih h
      | other => exact ih h

end UndoLog
