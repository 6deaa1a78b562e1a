import EchoLink.RecordFile

/-!
# Writes that are made again

A list of writes to a file, each with its offset.  What a byte is after them is
decided by the last write that covers it.  So it does not matter what was written
before to the bytes they cover: if a process made some of the writes, whole or in
part, and all of them are made after it, then the file is as if the process had
not run (`redo`).
-/

namespace Redo

open CText RecordFile

/-- An offset with the bytes that are written there. -/
abbrev Write := Nat × Bytes

/-- The contents after the writes, in order. -/
def applyAll (ws : List Write) (d : Bytes) : Bytes := ws.foldl (fun d w => patch d w.1 w.2) d

/-- The end of the write that reaches furthest. -/
def reach : List Write → Nat
  | [] => 0
  | w :: ws => if w.2 = [] then reach ws else max (w.1 + w.2.length) (reach ws)

/-- The write covers the byte at `x`. -/
def Covers (w : Write) (x : Nat) : Prop := w.1 ≤ x ∧ x < w.1 + w.2.length

/-- A write of which only the first bytes were transferred. -/
def Part (w' w : Write) : Prop := w'.1 = w.1 ∧ w'.2 <+: w.2

variable {ws ws' : List Write} {w w' : Write} {d d' : Bytes} {x : Nat}

theorem applyAll_cons (w : Write) (ws : List Write) (d : Bytes) :
    applyAll (w :: ws) d = applyAll ws (patch d w.1 w.2) := rfl

theorem length_applyAll (ws : List Write) (d : Bytes) : (applyAll ws d).length = max d.length (reach ws) := by
  induction ws generalizing d with
  | nil => exact (Nat.max_zero _).symm
  | cons w ws ih =>
      rw [applyAll_cons, ih, reach]
      split
      · rename_i hnil
        rw [hnil, patch_nil]
      · rename_i hne
        rw [length_patch hne]
        omega

/-- A byte depends on the contents before only through that byte. -/
theorem byteAt_applyAll_congr (h : byteAt d x = byteAt d' x) : byteAt (applyAll ws d) x = byteAt (applyAll ws d') x := by
  induction ws generalizing d d' with
  | nil => exact h
  | cons w ws ih =>
      apply ih
      rw [byteAt_patch, byteAt_patch, h]

/-- A byte that is covered does not depend on the contents before. -/
theorem byteAt_applyAll_covered (hw : w ∈ ws) (hx : Covers w x) (d d' : Bytes) :
    byteAt (applyAll ws d) x = byteAt (applyAll ws d') x := by
  induction ws generalizing d d' with
  | nil => cases hw
  | cons w₁ ws ih =>
      rw [applyAll_cons, applyAll_cons]
      rcases List.mem_cons.mp hw with rfl | hw
      · have hin : w.1 ≤ x ∧ x < w.1 + w.2.length := hx
        apply byteAt_applyAll_congr
        rw [byteAt_patch, byteAt_patch, if_pos hin, if_pos hin]
      · exact ih hw _ _

/-- A byte that is not covered stays. -/
theorem byteAt_applyAll_kept (hx : ∀ w ∈ ws, ¬ Covers w x) (d : Bytes) : byteAt (applyAll ws d) x = byteAt d x := by
  induction ws generalizing d with
  | nil => rfl
  | cons w ws ih =>
      have hout : ¬ (w.1 ≤ x ∧ x < w.1 + w.2.length) := hx w List.mem_cons_self
      rw [applyAll_cons, ih fun w' hw' => hx w' (List.mem_cons_of_mem _ hw'), byteAt_patch, if_neg hout]

theorem Part.covers (h : Part w' w) (hx : Covers w' x) : Covers w x := by
  have hlen := h.2.length_le
  unfold Covers at hx ⊢
  rw [← h.1]
  omega

theorem le_reach (hw : w ∈ ws) (hne : w.2 ≠ []) : w.1 + w.2.length ≤ reach ws := by
  induction ws with
  | nil => cases hw
  | cons w₁ ws ih =>
      rw [reach]
      rcases List.mem_cons.mp hw with rfl | hw
      · rw [if_neg hne]
        exact Nat.le_max_left _ _
      · have hle := ih hw
        split
        · exact hle
        · exact Nat.le_trans hle (Nat.le_max_right _ _)

/-- Parts of writes do not reach further. -/
theorem reach_le (h : ∀ w' ∈ ws', ∃ w ∈ ws, Part w' w) : reach ws' ≤ reach ws := by
  induction ws' with
  | nil => exact Nat.zero_le _
  | cons w' ws' ih =>
      have hrest := ih fun v hv => h v (List.mem_cons_of_mem _ hv)
      obtain ⟨w, hw, hpart⟩ := h w' List.mem_cons_self
      rw [reach]
      split
      · exact hrest
      · rename_i hne
        have hwne : w.2 ≠ [] := by
          intro hnil
          have hprefix := hpart.2
          rw [hnil] at hprefix
          exact hne (List.prefix_nil.mp hprefix)
        have hle := le_reach hw hwne
        have hlen := hpart.2.length_le
        rw [hpart.1]
        omega

theorem bytes_ext (hlen : d.length = d'.length) (h : ∀ x, byteAt d x = byteAt d' x) : d = d' := by
  apply List.ext_getElem hlen
  intro x hx hx'
  have hbyte := h x
  rwa [byteAt, byteAt, List.getD_eq_getElem?_getD, List.getD_eq_getElem?_getD, List.getElem?_eq_getElem hx,
    List.getElem?_eq_getElem hx'] at hbyte

/-- **Writes that are made again.**  After parts of some of the writes, in any order, all
of them have the outcome they would have had. -/
theorem redo (h : ∀ w' ∈ ws', ∃ w ∈ ws, Part w' w) (d : Bytes) : applyAll ws (applyAll ws' d) = applyAll ws d := by
  apply bytes_ext
  · have hle := reach_le h
    rw [length_applyAll, length_applyAll, length_applyAll]
    omega
  · intro x
    by_cases hcovered : ∃ w ∈ ws, Covers w x
    · obtain ⟨w, hw, hx⟩ := hcovered
      exact byteAt_applyAll_covered hw hx _ _
    · apply byteAt_applyAll_congr
      apply byteAt_applyAll_kept
      intro w' hw' hx
      obtain ⟨w, hw, hpart⟩ := h w' hw'
      exact hcovered ⟨w, hw, hpart.covers hx⟩

end Redo
