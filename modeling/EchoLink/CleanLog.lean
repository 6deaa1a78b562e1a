import EchoLink.WalCrash

/-!
# Recovery after calls that returned

A call of `db_write_room` that has returned leaves four lines in the log, from
its `BEGIN` to its `COMMIT` or `ROLLBACK`, and recovery takes them for a finished
transaction.  As 512 is a multiple of four, the lines recovery keeps are whole
transactions also of a long log.  So recovery changes nothing
(`recover_after_calls`).

The calls are those of the code, for any `int`: below zero the offset cannot be
sought, and the record is read and written where the descriptor stands
(`writeRoomAt_natCast` is the agreement with `dbWriteRoom`).  The lines are read
back as they were written if no name and no password has a newline in it; one that
has can spell the lines of other transactions (`newline_is_recovered`).
-/

namespace EchoLink

open CText RecordFile UndoLog

/-! ### Calls for any id -/

/-- `db_read_room_raw` for any id. -/
def readRawAt (db : FileDb) (roomId : Int) : Option RoomRecord × FileDb :=
  let rd := (db.rooms.seek (roomId * roomRecordSize)).read roomRecordSize
  (if rd.1.length = roomRecordSize then some (RoomRecord.decode rd.1) else none,
    { db with rooms := rd.2 })

/-- The record write of `db_write_room` for any id. -/
def storeAt (wrote : Nat) (db : FileDb) (roomId : Int) (r : RoomRecord) : FileDb :=
  { db with rooms := (db.rooms.seek (roomId * roomRecordSize)).write (r.encode.take wrote) }

/-- `db_write_room` for any id. -/
def writeRoomAt (wrote : Nat) (db : FileDb) (roomId : Int) (r : RoomRecord) : Bool × FileDb :=
  let rd := readRawAt db roomId
  let db₁ := storeAt wrote (walBegin rd.2 roomId rd.1 r) roomId r
  if wrote < roomRecordSize then (false, walRollback db₁ roomId)
  else (true, walCommit db₁ roomId)

theorem writeRoomAt_natCast (wrote : Nat) (db : FileDb) (roomId : Nat) (r : RoomRecord) :
    writeRoomAt wrote db roomId r = dbWriteRoom wrote db roomId r := by
  simp only [writeRoomAt, dbWriteRoom, readRawAt, dbReadRoomRaw, storeAt, storeRoom, Nat.cast_mul]

/-- One call whose record write transfers `wrote` bytes. -/
structure AnyCall where
  roomId : Int
  record : RoomRecord
  wrote : Nat

def runAny (db : FileDb) (c : AnyCall) : FileDb := (writeRoomAt c.wrote db c.roomId c.record).2

def runAnyAll (db : FileDb) (cs : List AnyCall) : FileDb := cs.foldl runAny db

/-- The records that are stored, and the ones they replace, print as one line. -/
def OneLineAll : FileDb → List AnyCall → Prop
  | _, [] => True
  | db, c :: cs =>
      OneLine c.record ∧ (∀ old, (readRawAt db c.roomId).1 = some old → OneLine old) ∧ OneLineAll (runAny db c) cs

/-! ### The log they leave -/

theorem oldLine_oneLine {o : Option RoomRecord} (h : ∀ r, o = some r → OneLine r) : WholeLine (oldLine o) := by
  cases o with
  | none => exact ⟨by decide, by decide, by decide⟩
  | some r =>
      have h10 : (10 : UInt8) ∉ recordText r :=
        not_mem_recordText (by decide) (by decide) (by decide) (h r rfl).1 (h r rfl).2
      refine ⟨?_, ?_, ?_⟩
      · have hne : ascii "OLD" ≠ [] := by decide
        simp [oldLine, hne]
      · simp only [oldLine, List.mem_append, not_or]
        exact ⟨by decide, h10⟩
      · simp only [oldLine, List.mem_append, not_or]
        exact ⟨by decide, zero_not_mem_recordText r⟩

/-- The four lines of a call. -/
def anyLines (db : FileDb) (c : AnyCall) : List Bytes :=
  [beginLine c.roomId, oldLine (readRawAt db c.roomId).1, newLine c.record,
    if c.wrote < roomRecordSize then rollbackLine c.roomId else commitLine c.roomId]

def anyHistory : FileDb → List AnyCall → List Bytes
  | _, [] => []
  | db, c :: cs => anyLines db c ++ anyHistory (runAny db c) cs

theorem runAny_log {db : FileDb} {ls : List Bytes} {c : AnyCall} (h : LogHolds db.wal ls)
    (hnew : OneLine c.record) (hold : ∀ old, (readRawAt db c.roomId).1 = some old → OneLine old) :
    LogHolds (runAny db c).wal (ls ++ anyLines db c) := by
  have hread : LogHolds (readRawAt db c.roomId).2.wal ls := h
  have hbegun := ((hread.write (beginLine_whole c.roomId)).write (oldLine_oneLine hold)).write (newLine_whole hnew)
  have hstored : LogHolds (storeAt c.wrote (walBegin (readRawAt db c.roomId).2 c.roomId
      (readRawAt db c.roomId).1 c.record) c.roomId c.record).wal
        (ls ++ [beginLine c.roomId, oldLine (readRawAt db c.roomId).1, newLine c.record]) := by
    simpa [storeAt, walBegin] using hbegun
  simp only [runAny, writeRoomAt, anyLines]
  split
  · simpa using hstored.walRollback c.roomId
  · simpa using hstored.walCommit c.roomId

theorem runAnyAll_log {db : FileDb} {ls : List Bytes} {cs : List AnyCall} (h : LogHolds db.wal ls)
    (hcs : OneLineAll db cs) : LogHolds (runAnyAll db cs).wal (ls ++ anyHistory db cs) := by
  induction cs generalizing db ls with
  | nil => simpa [runAnyAll, anyHistory] using h
  | cons c cs ih =>
      have hrest := ih (runAny_log h hcs.1 hcs.2.1) hcs.2.2
      simpa [runAnyAll, anyHistory] using hrest

/-! ### What recovery makes of it -/

/-- What the lines of a call are read as. -/
def anyTxn (db : FileDb) (c : AnyCall) : Int × RoomRecord :=
  (c.roomId, restoredRecord (oldLine (readRawAt db c.roomId).1))

theorem lineEvents_anyLines (junk : Nat → Int) (i : Nat) (db : FileDb) (c : AnyCall) :
    lineEvents junk i (anyLines db c) = closed (anyTxn db c).1 (anyTxn db c).2 := by
  by_cases hw : c.wrote < roomRecordSize
  · simp only [anyLines, hw, if_true, lineEvents, lineEvent_begin, lineEvent_old, lineEvent_new,
      lineEvent_rollback, closed, anyTxn]
  · simp only [anyLines, hw, if_false, lineEvents, lineEvent_begin, lineEvent_old, lineEvent_new,
      lineEvent_commit, closed, anyTxn]

/-- The first lines of a history, four for each call, are finished transactions. -/
theorem lineEvents_anyHistory (junk : Nat → Int) (i : Nat) (db : FileDb) (cs : List AnyCall) (k : Nat) :
    ∃ txns : List (Int × RoomRecord),
      lineEvents junk i ((anyHistory db cs).take (4 * k)) = txns.flatMap fun t => closed t.1 t.2 := by
  induction cs generalizing i db k with
  | nil => exact ⟨[], by simp [anyHistory, lineEvents]⟩
  | cons c cs ih =>
      cases k with
      | zero => exact ⟨[], rfl⟩
      | succ k =>
          obtain ⟨txns, htxns⟩ := ih (i + 4) (runAny db c) k
          have hfour : (anyLines db c).length = 4 := rfl
          have htake : (anyHistory db (c :: cs)).take (4 * (k + 1)) =
              anyLines db c ++ (anyHistory (runAny db c) cs).take (4 * k) := by
            rw [anyHistory, List.take_append, List.take_of_length_le (by omega), hfour,
              Nat.mul_add, Nat.mul_one, Nat.add_sub_cancel]
          refine ⟨anyTxn db c :: txns, ?_⟩
          rw [htake, lineEvents_append, lineEvents_anyLines, hfour, htxns, List.flatMap_cons]

theorem anyHistory_length (db : FileDb) (cs : List AnyCall) : (anyHistory db cs).length = 4 * cs.length := by
  induction cs generalizing db with
  | nil => rfl
  | cons c cs ih =>
      have hfour : (anyLines db c).length = 4 := rfl
      rw [anyHistory, List.length_append, ih, hfour, List.length_cons]
      omega

/-- A whole history leaves nothing to undo in front of other lines. -/
theorem undo_anyHistory (junk : Nat → Int) (db : FileDb) (cs : List AnyCall) (ls : List Bytes) :
    undo (lineEvents junk 0 (anyHistory db cs ++ ls)) =
      undo (lineEvents junk (4 * cs.length) ls) := by
  obtain ⟨txns, htxns⟩ := lineEvents_anyHistory junk 0 db cs cs.length
  rw [← anyHistory_length db cs, List.take_length] at htxns
  rw [lineEvents_append, htxns, undo_append_closed, Nat.zero_add, anyHistory_length]

/-- **Recovery of a clean log changes nothing.**  After any number of calls that have
returned, committed or rolled back, recovery leaves the room file and empties the
log. -/
theorem recover_after_calls (db : FileDb) (cs : List AnyCall) (hlog : db.wal = { data := [], pos := 0 })
    (hcs : OneLineAll db cs) :
    (walRecover (runAnyAll db cs)).rooms.data = (runAnyAll db cs).rooms.data ∧
      (walRecover (runAnyAll db cs)).wal = { data := [], pos := 0 } := by
  have hempty : LogHolds db.wal [] := hlog ▸ LogHolds.empty
  have hholds := runAnyAll_log hempty hcs
  rw [List.nil_append] at hholds
  constructor
  · obtain ⟨txns, htxns⟩ := lineEvents_anyHistory (runAnyAll db cs).junk 0 db cs 128
    have hundo := undo_append_closed txns []
    rw [List.append_nil, ← htxns] at hundo
    rw [walRecover_rooms, walLines, hholds.lines]
    change (restoreAll (undo (lineEvents _ 0 ((anyHistory db cs).take (4 * 128)))) _).data = _
    rw [hundo]
    rfl
  · unfold walRecover
    split
    · rename_i hnil
      simp [File.seekEnd, hnil]
    · rfl

/-- A room that is created and then joined with a short write, for an id below zero too. -/
def severalCalls : List AnyCall :=
  [⟨0, sampleRecord 0 (ascii "room") (ascii "pass"), roomRecordSize⟩,
    ⟨-1, sampleRecord 0 (ascii "room") (ascii "pass"), 30⟩,
    ⟨0, sampleRecord 0 (ascii "room") (ascii "pass"), 50⟩]

instance (r : RoomRecord) : Decidable (OneLine r) := inferInstanceAs (Decidable (_ ∧ _))

/-- `OneLineAll`, computed. -/
def checkOneLineAll : FileDb → List AnyCall → Bool
  | _, [] => true
  | db, c :: cs =>
      decide (OneLine c.record) && ((readRawAt db c.roomId).1.all fun old => decide (OneLine old)) &&
        checkOneLineAll (runAny db c) cs

theorem oneLineAll_of_check {db : FileDb} {cs : List AnyCall} (h : checkOneLineAll db cs = true) :
    OneLineAll db cs := by
  induction cs generalizing db with
  | nil => trivial
  | cons c cs ih =>
      simp only [checkOneLineAll, Bool.and_eq_true, decide_eq_true_eq] at h
      refine ⟨h.1.1, ?_, ih h.2⟩
      intro old hold
      have hall := h.1.2
      rw [hold] at hall
      exact of_decide_eq_true hall

theorem recover_after_several_calls :
    (walRecover (runAnyAll emptyDb severalCalls)).rooms.data = (runAnyAll emptyDb severalCalls).rooms.data ∧
      (walRecover (runAnyAll emptyDb severalCalls)).wal = { data := [], pos := 0 } :=
  recover_after_calls emptyDb severalCalls rfl (oneLineAll_of_check (by decide +kernel))

/-- A room whose name has the lines of an unfinished transaction in it. -/
def spoofedCall : AnyCall :=
  ⟨0, sampleRecord 0 (10 :: ascii "BEGIN 1" ++ 10 :: ascii "OLD NULL") (ascii "pass"), roomRecordSize⟩

/-- Recovery undoes what was committed. -/
theorem newline_is_recovered :
    ¬ ∀ (db : FileDb) (cs : List AnyCall), db.wal = { data := [], pos := 0 } →
      (walRecover (runAnyAll db cs)).rooms.data = (runAnyAll db cs).rooms.data ∧
        (walRecover (runAnyAll db cs)).wal = { data := [], pos := 0 } := by
  intro hall
  exact absurd (hall emptyDb [spoofedCall] rfl).1 (by decide +kernel)

end EchoLink
