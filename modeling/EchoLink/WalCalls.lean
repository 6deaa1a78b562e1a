import EchoLink.WalRoundTrip

/-!
# Calls of `db_write_room` one after another

What a call does to the record file and to the log, and what a history of
calls leaves behind.  The log starts empty, as `wal_recover` leaves it, and
each call appends four whole lines (`dbWriteRoom_wal`), so that a history of
`n` calls is a log of `n` finished transactions (`runWrites_log`).

`FileDb.recordAt` is the record the file holds in a slot.  A call changes no
slot but its own, whether its write completes or not
(`runWrite_slot_of_ne`); `runWrite_data_complete` and `runWrite_data_short` give
the record file after it.
-/

namespace EchoLink

open CText RecordFile UndoLog

/-- The record stored for `roomId`, if the file holds one. -/
def FileDb.recordAt (db : FileDb) (roomId : Nat) : Option RoomRecord :=
  (slot roomRecordSize db.rooms.data roomId).map RoomRecord.decode

/-- An empty record file with an empty log. -/
def emptyDb : FileDb := { rooms := ⟨[], 0⟩, wal := ⟨[], 0⟩, junk := fun _ => 0 }

/-- One call of `db_write_room` whose record write transfers `wrote` bytes. -/
structure WriteCall where
  roomId : Nat
  record : RoomRecord
  wrote : Nat

def runWrite (db : FileDb) (c : WriteCall) : FileDb :=
  (dbWriteRoom c.wrote db c.roomId c.record).2

def runWrites (db : FileDb) (cs : List WriteCall) : FileDb := cs.foldl runWrite db

theorem runWrites_cons (db : FileDb) (c : WriteCall) (cs : List WriteCall) :
    runWrites db (c :: cs) = runWrites (runWrite db c) cs := rfl

/-- Neither string of the record has a newline in it. -/
def OneLine (r : RoomRecord) : Prop :=
  (10 : UInt8) ∉ cstr r.roomName.val ∧ (10 : UInt8) ∉ cstr r.password.val

/-- What the callers of `db_write_room` promise and what is assumed of the
log: the id is that of a whole record or the first free one past the end
(`db_next_free_room_id` returns no other), the record prints as one line, and
the record it replaces reads back from its `OLD` line. -/
structure Callable (db : FileDb) (roomId : Nat) (r : RoomRecord) : Prop where
  inFile : roomId * roomRecordSize ≤ db.rooms.data.length
  oneLine : OneLine r
  readsBack : ∀ old, db.recordAt roomId = some old → ReadsBack old

/-- Every call of a history is made as its callers make it. -/
def CallableAll : FileDb → List WriteCall → Prop
  | _, [] => True
  | db, c :: cs => Callable db c.roomId c.record ∧ CallableAll (runWrite db c) cs

theorem callableAll_append {db : FileDb} {cs cs' : List WriteCall} :
    CallableAll db (cs ++ cs') ↔ CallableAll db cs ∧ CallableAll (runWrites db cs) cs' := by
  induction cs generalizing db with
  | nil => simp [CallableAll, runWrites]
  | cons c cs ih =>
      simp only [List.cons_append, CallableAll, ih, runWrites, List.foldl_cons, and_assoc]

/-! ### The record file -/

theorem read_raw_bytes (db : FileDb) (roomId : Nat) :
    ((db.rooms.seek ((roomId * roomRecordSize : Nat) : Int)).read roomRecordSize).1 =
      (db.rooms.data.drop (roomId * roomRecordSize)).take roomRecordSize := by
  simp only [File.read, seek_data, seek_pos_natCast]

theorem dbReadRoomRaw_fst (db : FileDb) (roomId : Nat) :
    (dbReadRoomRaw db roomId).1 = db.recordAt roomId := by
  simp only [dbReadRoomRaw, read_raw_bytes, FileDb.recordAt, slot]
  split <;> rfl

theorem dbReadRoom_fst (db : FileDb) (roomId : Nat) :
    (dbReadRoom db roomId).1 = (db.recordAt roomId).filter (fun r => r.isActive ≠ 0) := by
  simp only [dbReadRoom, read_raw_bytes, FileDb.recordAt, slot]
  split
  · simp only [Option.map_some, Option.filter_some]
    split <;> simp_all
  · rfl

@[simp] theorem dbReadRoomRaw_data (db : FileDb) (roomId : Nat) :
    (dbReadRoomRaw db roomId).2.rooms.data = db.rooms.data := by
  simp [dbReadRoomRaw]

@[simp] theorem dbReadRoomRaw_wal (db : FileDb) (roomId : Nat) :
    (dbReadRoomRaw db roomId).2.wal = db.wal := rfl

@[simp] theorem dbReadRoom_data (db : FileDb) (roomId : Nat) :
    (dbReadRoom db roomId).2.rooms.data = db.rooms.data := by
  simp [dbReadRoom]

@[simp] theorem walWrite_rooms (db : FileDb) (l : Bytes) : (walWrite db l).rooms = db.rooms := rfl

@[simp] theorem walBegin_rooms (db : FileDb) (id : Int) (old : Option RoomRecord)
    (new : RoomRecord) : (walBegin db id old new).rooms = db.rooms := rfl

@[simp] theorem storeRoom_wal (wrote : Nat) (db : FileDb) (roomId : Nat) (r : RoomRecord) :
    (storeRoom wrote db roomId r).wal = db.wal := rfl

theorem walRollback_wal (db : FileDb) (z : Int) :
    (walRollback db z).wal = (walWrite db (rollbackLine z)).wal.seekEnd := rfl

theorem walRollback_rooms (db : FileDb) (z : Int) :
    (walRollback db z).rooms =
      rollbackLoop db.junk z 0 (walLines (walWrite db (rollbackLine z)).wal) db.rooms := rfl

theorem storeRoom_data (wrote : Nat) (db : FileDb) (roomId : Nat) (r : RoomRecord) :
    (storeRoom wrote db roomId r).rooms.data =
      patch db.rooms.data (roomId * roomRecordSize) (r.encode.take wrote) := by
  simp only [storeRoom, seek_write_data]

theorem restoreRecord_data (roomId : Nat) (r : RoomRecord) (rooms : File) :
    (restoreRecord roomId r rooms).data = patch rooms.data (roomId * roomRecordSize) r.encode := by
  have hoff : ((roomId : Int) * (roomRecordSize : Int)) = ((roomId * roomRecordSize : Nat) : Int) := by
    push_cast
    rfl
  rw [restoreRecord, hoff, seek_write_data]

theorem encode_take_length (r : RoomRecord) (n : Nat) :
    (r.encode.take n).length ≤ roomRecordSize := by
  rw [List.length_take, r.encode_length]
  exact Nat.min_le_right _ _

theorem encode_take_all {r : RoomRecord} {n : Nat} (h : roomRecordSize ≤ n) :
    r.encode.take n = r.encode := List.take_of_length_le (by rw [r.encode_length]; exact h)

/-- A slot of a file after a record, or a part of one, was written to it. -/
theorem slot_patch_record {d : Bytes} {i : Nat} (r : RoomRecord)
    (hi : i * roomRecordSize ≤ d.length) :
    slot roomRecordSize (patch d (i * roomRecordSize) r.encode) i = some r.encode :=
  slot_patch_self hi r.encode_length

/-- The keys of restoring writes are ids of whole records, or the first id
past the end. -/
def KeysInFile (ws : List (Int × RoomRecord)) (d : Bytes) : Prop :=
  ∀ w ∈ ws, ∃ i : Nat, w.1 = i ∧ i * roomRecordSize ≤ d.length

theorem KeysInFile.tail {w : Int × RoomRecord} {ws : List (Int × RoomRecord)} {f : File}
    (h : KeysInFile (w :: ws) f.data) : KeysInFile ws (restoreRecord w.1 w.2 f).data := by
  obtain ⟨i, hi, hin⟩ := h w List.mem_cons_self
  intro w' hw'
  obtain ⟨k, hk, hkin⟩ := h w' (List.mem_cons_of_mem _ hw')
  refine ⟨k, hk, ?_⟩
  rw [hi, restoreRecord_data, length_patch_of_le _ hin]
  exact Nat.le_trans hkin (Nat.le_max_left _ _)

/-- Restoring writes to other records leave a slot alone. -/
theorem restoreAll_slot_of_not_mem {ws : List (Int × RoomRecord)} {f : File} {j : Nat}
    (hin : KeysInFile ws f.data) (hj : (j : Int) ∉ ws.map Prod.fst) :
    slot roomRecordSize (restoreAll ws f).data j = slot roomRecordSize f.data j := by
  induction ws generalizing f with
  | nil => rfl
  | cons w ws ih =>
      simp only [List.map_cons, List.mem_cons, not_or] at hj
      obtain ⟨i, hi, hfile⟩ := hin w List.mem_cons_self
      have hne : j ≠ i := by
        rintro rfl
        exact hj.1 hi.symm
      have hrest := ih hin.tail hj.2
      rw [hi, restoreRecord_data] at hrest
      simp only [restoreAll, List.foldl_cons, hi] at hrest ⊢
      rw [hrest, slot_patch_of_ne hfile (Nat.le_of_eq w.2.encode_length) hne]

/-- A record restored once holds its image afterwards. -/
theorem restoreAll_slot_of_mem {ws : List (Int × RoomRecord)} {f : File} {j : Nat} {r : RoomRecord}
    (hin : KeysInFile ws f.data) (hnd : (ws.map Prod.fst).Nodup) (hmem : ((j : Int), r) ∈ ws) :
    slot roomRecordSize (restoreAll ws f).data j = some r.encode := by
  induction ws generalizing f with
  | nil => simp at hmem
  | cons w ws ih =>
      simp only [List.map_cons, List.nodup_cons] at hnd
      obtain ⟨i, hi, hfile⟩ := hin w List.mem_cons_self
      rcases List.mem_cons.mp hmem with rfl | hmem
      · have hji : j = i := Int.ofNat.inj hi
        subst hji
        have hrest := restoreAll_slot_of_not_mem (f := restoreRecord (j : Int) r f) hin.tail hnd.1
        rw [restoreRecord_data, slot_patch_record r hfile] at hrest
        exact hrest
      · exact ih hin.tail hnd.2 hmem

/-! ### The log -/

/-- The lines of a log file. -/
def logText (ls : List Bytes) : Bytes := ls.flatMap fun l => l ++ [10]

theorem logText_append (ls ls' : List Bytes) : logText (ls ++ ls') = logText ls ++ logText ls' := by
  simp [logText]

/-- A line that reads back as itself. -/
def WholeLine (l : Bytes) : Prop := l ≠ [] ∧ (10 : UInt8) ∉ l ∧ (0 : UInt8) ∉ l

/-- The log holds the lines `ls` and its descriptor stands at the end. -/
structure LogHolds (wal : File) (ls : List Bytes) : Prop where
  data : wal.data = logText ls
  atEnd : wal.pos = wal.data.length
  whole : ∀ l ∈ ls, WholeLine l

theorem LogHolds.lines {wal : File} {ls : List Bytes} (h : LogHolds wal ls) :
    CText.lines wal.data = ls := by
  rw [h.data]
  exact lines_flatMap h.whole

theorem LogHolds.empty : LogHolds { data := [], pos := 0 } [] where
  data := rfl
  atEnd := rfl
  whole := by simp

/-- A log write appends its line. -/
theorem LogHolds.write {db : FileDb} {ls : List Bytes} (h : LogHolds db.wal ls) {l : Bytes}
    (hl : WholeLine l) : LogHolds (walWrite db l).wal (ls ++ [l]) := by
  have hdata : (walWrite db l).wal.data = db.wal.data ++ (l ++ [10]) := by
    simp only [walWrite, File.write, h.atEnd]
    exact patch_length _ _
  refine ⟨?_, ?_, ?_⟩
  · rw [hdata, h.data, logText_append]
    simp [logText]
  · rw [hdata]
    simp [walWrite, File.write, h.atEnd]
  · intro l' hl'
    rcases List.mem_append.mp hl' with h' | h'
    · exact h.whole l' h'
    · rw [List.mem_singleton.mp h']
      exact hl

private theorem keyword_number_whole {kw : Bytes} (z : Int) (hne : kw ≠ [])
    (h10 : (10 : UInt8) ∉ kw) (h0 : (0 : UInt8) ∉ kw) : WholeLine (kw ++ 32 :: decimalInt z) := by
  have hd10 : (10 : UInt8) ∉ decimalInt z := not_mem_decimalInt (by decide) (by decide)
  have hd0 : (0 : UInt8) ∉ decimalInt z := not_mem_decimalInt (by decide) (by decide)
  refine ⟨by simp [hne], ?_, ?_⟩
  · simp [h10, hd10]
  · simp [h0, hd0]

theorem beginLine_whole (z : Int) : WholeLine (beginLine z) :=
  keyword_number_whole z (by decide) (by decide) (by decide)

theorem commitLine_whole (z : Int) : WholeLine (commitLine z) :=
  keyword_number_whole z (by decide) (by decide) (by decide)

theorem rollbackLine_whole (z : Int) : WholeLine (rollbackLine z) :=
  keyword_number_whole z (by decide) (by decide) (by decide)

theorem newLine_whole {r : RoomRecord} (h : OneLine r) : WholeLine (newLine r) := by
  have h10 : (10 : UInt8) ∉ recordText r :=
    not_mem_recordText (by decide) (by decide) (by decide) h.1 h.2
  refine ⟨?_, ?_, ?_⟩
  · have : ascii "NEW" ≠ [] := by decide
    simp [newLine, this]
  · simp only [newLine, List.mem_append, not_or]
    exact ⟨by decide, h10⟩
  · simp only [newLine, List.mem_append, not_or]
    exact ⟨by decide, zero_not_mem_recordText r⟩

/-- A line that reads back is whole. -/
theorem oldLine_whole {o : Option RoomRecord} (h : ∀ r, o = some r → ReadsBack r) :
    WholeLine (oldLine o) := by
  cases o with
  | none => exact ⟨by decide, by decide, by decide⟩
  | some r =>
      have h0 : (0 : UInt8) ∉ oldLine (some r) := by
        simp only [oldLine, List.mem_append, not_or]
        exact ⟨by decide, zero_not_mem_recordText r⟩
      have hne : oldLine (some r) ≠ [] := by
        have : ascii "OLD" ≠ [] := by decide
        simp [oldLine, this]
      have hmem : oldLine (some r) ∈ CText.lines (oldLine (some r) ++ [10]) := by
        simp [(h r rfl).1]
      exact ⟨hne, newline_not_mem_of_mem_lines hmem, h0⟩

/-- The lines one call appends. -/
def callLines (db : FileDb) (c : WriteCall) : List Bytes :=
  [beginLine c.roomId, oldLine (db.recordAt c.roomId), newLine c.record,
    if c.wrote < roomRecordSize then rollbackLine c.roomId else commitLine c.roomId]

theorem LogHolds.walBegin {db : FileDb} {ls : List Bytes} (h : LogHolds db.wal ls) {roomId : Nat}
    {r : RoomRecord} {old : Option RoomRecord} (hr : OneLine r)
    (hold : ∀ o, old = some o → ReadsBack o) :
    LogHolds (walBegin db roomId old r).wal
      (ls ++ [beginLine roomId, oldLine old, newLine r]) := by
  have h3 := ((h.write (beginLine_whole roomId)).write (oldLine_whole hold)).write
    (newLine_whole hr)
  simpa [EchoLink.walBegin] using h3

theorem LogHolds.walCommit {db : FileDb} {ls : List Bytes} (h : LogHolds db.wal ls) (z : Int) :
    LogHolds (walCommit db z).wal (ls ++ [commitLine z]) := h.write (commitLine_whole z)

theorem LogHolds.walRollback {db : FileDb} {ls : List Bytes} (h : LogHolds db.wal ls) (z : Int) :
    LogHolds (walRollback db z).wal (ls ++ [rollbackLine z]) := by
  have hw := h.write (rollbackLine_whole z)
  rw [walRollback_wal]
  exact ⟨hw.data, rfl, hw.whole⟩

/-- The state of a call before it commits or rolls back. -/
def stored (db : FileDb) (c : WriteCall) : FileDb :=
  storeRoom c.wrote (walBegin (dbReadRoomRaw db c.roomId).2 c.roomId (db.recordAt c.roomId)
    c.record) c.roomId c.record

theorem runWrite_complete {db : FileDb} {c : WriteCall} (hw : roomRecordSize ≤ c.wrote) :
    runWrite db c = walCommit (stored db c) c.roomId := by
  have hnot : ¬ c.wrote < roomRecordSize := by omega
  rw [runWrite, dbWriteRoom, if_neg hnot, dbReadRoomRaw_fst, stored]

theorem runWrite_short {db : FileDb} {c : WriteCall} (hw : c.wrote < roomRecordSize) :
    runWrite db c = walRollback (stored db c) c.roomId := by
  rw [runWrite, dbWriteRoom, if_pos hw, dbReadRoomRaw_fst, stored]

theorem stored_data (db : FileDb) (c : WriteCall) :
    (stored db c).rooms.data =
      patch db.rooms.data (c.roomId * roomRecordSize) (c.record.encode.take c.wrote) := by
  rw [stored, storeRoom_data, walBegin_rooms, dbReadRoomRaw_data]

theorem stored_junk (db : FileDb) (c : WriteCall) : (stored db c).junk = db.junk := rfl

theorem stored_log {db : FileDb} {ls : List Bytes} {c : WriteCall}
    (h : LogHolds db.wal ls) (hc : Callable db c.roomId c.record) :
    LogHolds (stored db c).wal
      (ls ++ [beginLine c.roomId, oldLine (db.recordAt c.roomId), newLine c.record]) := by
  rw [stored, storeRoom_wal]
  exact LogHolds.walBegin (by rwa [dbReadRoomRaw_wal]) hc.oneLine hc.readsBack

theorem dbWriteRoom_wal {db : FileDb} {ls : List Bytes} {c : WriteCall}
    (h : LogHolds db.wal ls) (hc : Callable db c.roomId c.record) :
    LogHolds (runWrite db c).wal (ls ++ callLines db c) := by
  have hstored := stored_log h hc
  by_cases hw : c.wrote < roomRecordSize
  · have hroll := hstored.walRollback c.roomId
    rw [runWrite_short hw]
    simpa only [callLines, hw, if_true, List.append_assoc, List.cons_append, List.nil_append]
      using hroll
  · have hcommit := hstored.walCommit c.roomId
    rw [runWrite_complete (by omega)]
    simpa only [callLines, hw, if_false, List.append_assoc, List.cons_append, List.nil_append]
      using hcommit

/-- The lines of a history. -/
def historyLines : FileDb → List WriteCall → List Bytes
  | _, [] => []
  | db, c :: cs => callLines db c ++ historyLines (runWrite db c) cs

/-- The transactions of a history: the record written to and the image that
its `OLD` line restores. -/
def historyTxns : FileDb → List WriteCall → List (Int × RoomRecord)
  | _, [] => []
  | db, c :: cs =>
      ((c.roomId : Int), restoredRecord (oldLine (db.recordAt c.roomId)))
        :: historyTxns (runWrite db c) cs

theorem runWrites_log {db : FileDb} {ls : List Bytes} {cs : List WriteCall}
    (h : LogHolds db.wal ls) (hc : CallableAll db cs) :
    LogHolds (runWrites db cs).wal (ls ++ historyLines db cs) := by
  induction cs generalizing db ls with
  | nil => simpa [runWrites, historyLines] using h
  | cons c cs ih =>
      have hrec := ih (dbWriteRoom_wal h hc.1) hc.2
      simpa [runWrites, historyLines] using hrec

theorem historyLines_length (db : FileDb) (cs : List WriteCall) :
    (historyLines db cs).length = 4 * cs.length := by
  induction cs generalizing db with
  | nil => rfl
  | cons c cs ih =>
      simp only [historyLines, List.length_append, ih, List.length_cons, callLines, List.length_nil]
      omega

theorem lineEvents_append (junk : Nat → Int) (i : Nat) (ls ls' : List Bytes) :
    lineEvents junk i (ls ++ ls') = lineEvents junk i ls ++ lineEvents junk (i + ls.length) ls' := by
  induction ls generalizing i with
  | nil => simp [lineEvents]
  | cons l ls ih =>
      have harith : i + 1 + ls.length = i + (ls.length + 1) := by omega
      simp only [List.cons_append, lineEvents, ih, List.length_cons, harith]

/-- A call that has returned reads as one finished transaction. -/
theorem lineEvents_callLines (junk : Nat → Int) (i : Nat) (db : FileDb) (c : WriteCall) :
    lineEvents junk i (callLines db c) =
      closed (c.roomId : Int) (restoredRecord (oldLine (db.recordAt c.roomId))) := by
  by_cases hw : c.wrote < roomRecordSize
  · simp only [callLines, hw, if_true, lineEvents, lineEvent_begin, lineEvent_old, lineEvent_new,
      lineEvent_rollback, closed]
  · simp only [callLines, hw, if_false, lineEvents, lineEvent_begin, lineEvent_old, lineEvent_new,
      lineEvent_commit, closed]

theorem lineEvents_historyLines (junk : Nat → Int) (i : Nat) (db : FileDb) (cs : List WriteCall) :
    lineEvents junk i (historyLines db cs) =
      (historyTxns db cs).flatMap fun t => closed t.1 t.2 := by
  induction cs generalizing i db with
  | nil => rfl
  | cons c cs ih =>
      simp only [historyLines, lineEvents_append, lineEvents_callLines, ih, historyTxns,
        List.flatMap_cons]

/-! ### What a call stores -/

theorem recordAt_of_slot {db : FileDb} {i : Nat} {r : RoomRecord}
    (h : slot roomRecordSize db.rooms.data i = some r.encode) : db.recordAt i = some r := by
  simp [FileDb.recordAt, h, RoomRecord.decode_encode]

theorem recordAt_congr {db db' : FileDb} {i : Nat}
    (h : slot roomRecordSize db'.rooms.data i = slot roomRecordSize db.rooms.data i) :
    db'.recordAt i = db.recordAt i := by
  simp [FileDb.recordAt, h]

/-- The record file after a call that completes. -/
theorem runWrite_data_complete {db : FileDb} {c : WriteCall} (hw : roomRecordSize ≤ c.wrote) :
    (runWrite db c).rooms.data =
      patch db.rooms.data (c.roomId * roomRecordSize) c.record.encode := by
  rw [runWrite_complete hw, walCommit, walWrite_rooms, stored_data, encode_take_all hw]

/-- The record file after a call that fails: the part that was written, and
over it what the search of `wal_rollback` restores. -/
theorem runWrite_data_restored {db : FileDb} {c : WriteCall}
    (hin : c.roomId * roomRecordSize ≤ db.rooms.data.length) (hw : c.wrote < roomRecordSize) :
    (runWrite db c).rooms.data =
      ((firstImage (c.roomId : Int) (lineEvents db.junk 0
        (walLines (walWrite (stored db c) (rollbackLine c.roomId)).wal))).map
        fun r => patch db.rooms.data (c.roomId * roomRecordSize) r.encode).getD
        (patch db.rooms.data (c.roomId * roomRecordSize) (c.record.encode.take c.wrote)) := by
  rw [runWrite_short hw, walRollback_rooms, rollbackLoop_eq, stored_junk]
  cases firstImage (c.roomId : Int) _ with
  | none => exact stored_data db c
  | some r =>
      simp only [Option.map_some, Option.getD_some]
      rw [restoreRecord_data, stored_data]
      exact patch_patch_self hin (encode_take_length _ _) r.encode_length

theorem runWrite_data_short {db : FileDb} {ls : List Bytes} {c : WriteCall}
    (h : LogHolds db.wal ls) (hc : Callable db c.roomId c.record)
    (hw : c.wrote < roomRecordSize) :
    (runWrite db c).rooms.data =
      ((firstImage (c.roomId : Int) (lineEvents db.junk 0 ((ls ++ callLines db c).take 512))).map
        fun r => patch db.rooms.data (c.roomId * roomRecordSize) r.encode).getD
        (patch db.rooms.data (c.roomId * roomRecordSize) (c.record.encode.take c.wrote)) := by
  have hlines : walLines (walWrite (stored db c) (rollbackLine c.roomId)).wal =
      (ls ++ callLines db c).take 512 := by
    have hlog := (stored_log h hc).write (rollbackLine_whole c.roomId)
    rw [walLines, hlog.lines]
    simp only [callLines, hw, if_true, List.append_assoc, List.cons_append, List.nil_append]
  rw [runWrite_data_restored hc.inFile hw, hlines]

/-- A call changes no slot but its own. -/
theorem runWrite_slot_of_ne {db : FileDb} {c : WriteCall} {j : Nat}
    (hin : c.roomId * roomRecordSize ≤ db.rooms.data.length) (hj : j ≠ c.roomId) :
    slot roomRecordSize (runWrite db c).rooms.data j = slot roomRecordSize db.rooms.data j := by
  by_cases hw : c.wrote < roomRecordSize
  · rw [runWrite_data_restored hin hw]
    cases firstImage (c.roomId : Int) _ with
    | none => exact slot_patch_of_ne hin (encode_take_length _ _) hj
    | some r => exact slot_patch_of_ne hin (Nat.le_of_eq r.encode_length) hj
  · rw [runWrite_data_complete (by omega)]
    exact slot_patch_of_ne hin (Nat.le_of_eq c.record.encode_length) hj

end EchoLink
