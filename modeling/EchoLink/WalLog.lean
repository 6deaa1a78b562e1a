import EchoLink.FileDb
import EchoLink.UndoLog

/-!
# The log as a sequence of events

Recovery and rollback work on text.  This file reads each line as an event of
an undo log and shows that the two loops of `file_db.c` are the general ones:
`recoverLoop_eq` for `wal_recover` and `rollbackLoop_eq` for the search of
`wal_rollback`.  It also says which lines `db_write_room` appends
(`dbWriteRoom_log`) and how they read back (`lineEvent_*`), so that the
theorems about crashes and rollbacks speak of transactions and not of bytes.
-/

namespace EchoLink

open CText RecordFile UndoLog

/-! ### Lines as events -/

/-- How the readers of the log take one line. -/
def lineEvent (junk : Int) (l : Bytes) : Event Int RoomRecord :=
  if hasPrefix (ascii "BEGIN") l then .begin (scanId (ascii "BEGIN") l junk)
  else if hasPrefix (ascii "OLD") l then .old (restoredRecord l)
  else if hasPrefix (ascii "COMMIT") l then .finish (scanId (ascii "COMMIT") l junk)
  else if hasPrefix (ascii "ROLLBACK") l then .finish (scanId (ascii "ROLLBACK") l junk)
  else .other

/-- The events of `lines[i..]`. -/
def lineEvents (junk : Nat → Int) : Nat → List Bytes → List (Event Int RoomRecord)
  | _, [] => []
  | i, l :: rest => lineEvent (junk i) l :: lineEvents junk (i + 1) rest

/-- Keywords of the log do not start one another. -/
private theorem keyword_excl {kw l : Bytes} (kw' : Bytes) (h : hasPrefix kw l = true)
    (hne : ¬ kw <+: kw' ∧ ¬ kw' <+: kw) : hasPrefix kw' l = false :=
  not_hasPrefix_of_hasPrefix h hne.1 hne.2

theorem finished_lineEvents (junk : Nat → Int) (recordId : Int) (j : Nat) (ls : List Bytes) :
    finished recordId (lineEvents junk j ls) = completedLoop junk recordId j ls := by
  induction ls generalizing j with
  | nil => rfl
  | cons l rest ih =>
      simp only [lineEvents, lineEvent, completedLoop]
      by_cases hb : hasPrefix (ascii "BEGIN") l = true
      · simp [hb, finished]
      · by_cases ho : hasPrefix (ascii "OLD") l = true
        · have hc := keyword_excl (ascii "COMMIT") ho (by decide)
          have hr := keyword_excl (ascii "ROLLBACK") ho (by decide)
          simp [hb, ho, hc, hr, finished, ih]
        · by_cases hc : hasPrefix (ascii "COMMIT") l = true
          · have hr := keyword_excl (ascii "ROLLBACK") hc (by decide)
            simp [hb, ho, hc, hr, finished, ih]
          · by_cases hr : hasPrefix (ascii "ROLLBACK") l = true
            · simp [hb, ho, hc, hr, finished, ih]
            · simp [hb, ho, hc, hr, finished, ih]

/-- `wal_restore_old` writes the first old image of the transaction, if any. -/
theorem restoreLoop_eq (junk : Nat → Int) (recordId : Int) (i : Nat) (ls : List Bytes)
    (rooms : File) :
    restoreLoop recordId ls rooms =
      ((before (lineEvents junk i ls)).map fun r => restoreRecord recordId r rooms).getD rooms := by
  induction ls generalizing i with
  | nil => rfl
  | cons l rest ih =>
      have hrec := ih (i + 1)
      simp only [lineEvents, lineEvent, restoreLoop]
      by_cases hb : hasPrefix (ascii "BEGIN") l = true
      · simp [hb, before]
      · by_cases ho : hasPrefix (ascii "OLD") l = true
        · simp [hb, ho, before]
        · by_cases hc : hasPrefix (ascii "COMMIT") l = true
          · simp [hb, ho, hc, before, hrec]
          · by_cases hr : hasPrefix (ascii "ROLLBACK") l = true
            · simp [hb, ho, hc, hr, before, hrec]
            · simp [hb, ho, hc, hr, before, hrec]

private theorem walRestoreOld_begin {recordId : Int} {l : Bytes} (rest : List Bytes) (rooms : File)
    (hb : hasPrefix (ascii "BEGIN") l = true) :
    walRestoreOld recordId (l :: rest) rooms = restoreLoop recordId rest rooms := by
  have ho := keyword_excl (ascii "OLD") hb (by decide)
  simp [walRestoreOld, ho]

/-- Apply restoring writes in order. -/
def restoreAll (ws : List (Int × RoomRecord)) (rooms : File) : File :=
  ws.foldl (fun f w => restoreRecord w.1 w.2 f) rooms

/-- A line other than `BEGIN` starts no transaction. -/
theorem undo_lineEvent_skip {junk : Int} {l : Bytes} (hl : ¬ hasPrefix (ascii "BEGIN") l = true)
    (es : List (Event Int RoomRecord)) : undo (lineEvent junk l :: es) = undo es := by
  rw [lineEvent, if_neg hl]
  split
  · rfl
  · split
    · rfl
    · split <;> rfl

/-- **Recovery is undo.**  The loop of `wal_recover` makes exactly the
restoring writes of the event log. -/
theorem recoverLoop_eq (junk : Nat → Int) (i : Nat) (ls : List Bytes) (rooms : File) :
    recoverLoop junk i ls rooms = restoreAll (undo (lineEvents junk i ls)) rooms := by
  induction ls generalizing i rooms with
  | nil => rfl
  | cons l rest ih =>
      by_cases hb : hasPrefix (ascii "BEGIN") l = true
      · simp only [recoverLoop, hb, if_true, lineEvents, lineEvent, undo,
          walRestoreOld_begin rest rooms hb, restoreLoop_eq junk _ (i + 1),
          ← finished_lineEvents]
        split
        · exact ih _ _
        · rw [ih]
          cases before (lineEvents junk (i + 1) rest) <;> rfl
      · rw [recoverLoop, if_neg hb, lineEvents, undo_lineEvent_skip hb]
        exact ih (i + 1) rooms

/-- **Rollback restores the first transaction** of the record it can find. -/
theorem rollbackLoop_eq (junk : Nat → Int) (recordId : Int) (i : Nat) (ls : List Bytes)
    (rooms : File) :
    rollbackLoop junk recordId i ls rooms =
      ((firstImage recordId (lineEvents junk i ls)).map
        fun r => restoreRecord recordId r rooms).getD rooms := by
  induction ls generalizing i with
  | nil => rfl
  | cons l rest ih =>
      have hrec := ih (i + 1)
      by_cases hb : hasPrefix (ascii "BEGIN") l = true
      · by_cases hid : scanId (ascii "BEGIN") l (junk i) = recordId
        · simp [rollbackLoop, lineEvents, lineEvent, hb, hid, firstImage,
            walRestoreOld_begin rest rooms hb, restoreLoop_eq junk recordId (i + 1)]
        · simp [rollbackLoop, lineEvents, lineEvent, hb, hid, firstImage, hrec]
      · simp only [rollbackLoop, hb, lineEvents, lineEvent]
        rw [if_neg (by simp), hrec]
        by_cases ho : hasPrefix (ascii "OLD") l = true
        · simp [ho, firstImage]
        · by_cases hc : hasPrefix (ascii "COMMIT") l = true
          · simp [ho, hc, firstImage]
          · by_cases hr : hasPrefix (ascii "ROLLBACK") l = true
            · simp [ho, hc, hr, firstImage]
            · simp [ho, hc, hr, firstImage]

/-! ### The lines of the server -/

theorem scanId_keyword (kw : Bytes) (z junk : Int) : scanId kw (kw ++ 32 :: decimalInt z) junk = z := by
  have hhead : ∀ b, (decimalInt z).head? = some b → isSpace b = false := by
    intro b hb
    exact not_isSpace_of_mem_decimalInt (List.mem_of_head? hb)
  have hscan : sscanf (literal kw ++ [.ws, .d]) (kw ++ 32 :: decimalInt z) = [.int z] := by
    rw [sscanf_literal, sscanf_ws (by decide) _ hhead]
    have := sscanf_d z [] [] (by simp)
    simpa [sscanf] using this
  simp [scanId, hscan, intField]

theorem lineEvent_begin (junk z : Int) : lineEvent junk (beginLine z) = .begin z := by
  have hb : hasPrefix (ascii "BEGIN") (beginLine z) = true := hasPrefix_append _ _
  simp only [lineEvent, hb, if_true, Event.begin.injEq]
  exact scanId_keyword _ _ _

theorem lineEvent_old (junk : Int) (o : Option RoomRecord) :
    lineEvent junk (oldLine o) = .old (restoredRecord (oldLine o)) := by
  have ho : hasPrefix (ascii "OLD") (oldLine o) = true := by
    cases o with
    | none => decide
    | some r => exact hasPrefix_append _ _
  have hb := keyword_excl (ascii "BEGIN") ho (by decide)
  simp [lineEvent, ho, hb]

theorem lineEvent_new (junk : Int) (r : RoomRecord) : lineEvent junk (newLine r) = .other := by
  have hn : hasPrefix (ascii "NEW") (newLine r) = true := hasPrefix_append _ _
  have hb := keyword_excl (ascii "BEGIN") hn (by decide)
  have ho := keyword_excl (ascii "OLD") hn (by decide)
  have hc := keyword_excl (ascii "COMMIT") hn (by decide)
  have hr := keyword_excl (ascii "ROLLBACK") hn (by decide)
  simp [lineEvent, hb, ho, hc, hr]

theorem lineEvent_commit (junk z : Int) : lineEvent junk (commitLine z) = .finish z := by
  have hc : hasPrefix (ascii "COMMIT") (commitLine z) = true := hasPrefix_append _ _
  have hb := keyword_excl (ascii "BEGIN") hc (by decide)
  have ho := keyword_excl (ascii "OLD") hc (by decide)
  simp only [lineEvent, hb, ho, hc, if_true, Bool.false_eq_true, if_false, Event.finish.injEq]
  exact scanId_keyword _ _ _

theorem lineEvent_rollback (junk z : Int) : lineEvent junk (rollbackLine z) = .finish z := by
  have hr : hasPrefix (ascii "ROLLBACK") (rollbackLine z) = true := hasPrefix_append _ _
  have hb := keyword_excl (ascii "BEGIN") hr (by decide)
  have ho := keyword_excl (ascii "OLD") hr (by decide)
  have hc := keyword_excl (ascii "COMMIT") hr (by decide)
  simp only [lineEvent, hb, ho, hc, hr, if_true, Bool.false_eq_true, if_false,
    Event.finish.injEq]
  exact scanId_keyword _ _ _

end EchoLink
