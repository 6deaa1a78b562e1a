import EchoLink.Protocol

/-!
# The room database and its write-ahead log

`file_db.c`: the record file `rooms.bin`, the text log `wal.log`, and the
functions that read, write, roll back and recover room records.

The log is a sequence of text lines.  A write logs `BEGIN`, `OLD` and `NEW`,
stores the record, and logs `COMMIT`, or `ROLLBACK` when the record write was
short.  Both `wal_rollback` and `wal_recover` read the whole log back, keep
its first 512 lines, and interpret them as text; an `int` that `sscanf` does
not fill keeps whatever the stack held, which the model takes from `junk`.

A loop over `lines[i..]` is a recursion on the remaining lines.  Log writes
are taken to transfer whole lines; how many bytes a record write transfers is
the argument `wrote`.  `rooms_fd` and `wal_fd` are open: `file_db_init` exits
otherwise.
-/

namespace EchoLink

open CText RecordFile

/-- The database files, and what uninitialised variables hold when the line
with a given number is scanned. -/
structure FileDb where
  rooms : File
  wal : File
  junk : Nat → Int

/-! ### Reading records -/

/-- `db_read_room_raw`. -/
def dbReadRoomRaw (db : FileDb) (roomId : Nat) : Option RoomRecord × FileDb :=
  let rd := (db.rooms.seek ((roomId * roomRecordSize : Nat) : Int)).read roomRecordSize
  (if rd.1.length = roomRecordSize then some (RoomRecord.decode rd.1) else none,
    { db with rooms := rd.2 })

/-- `db_read_room`: inactive records are not found. -/
def dbReadRoom (db : FileDb) (roomId : Nat) : Option RoomRecord × FileDb :=
  let rd := (db.rooms.seek ((roomId * roomRecordSize : Nat) : Int)).read roomRecordSize
  (if rd.1.length = roomRecordSize then
      let rec' := RoomRecord.decode rd.1
      if rec'.isActive = 0 then none else some rec'
    else none,
    { db with rooms := rd.2 })

/-- `db_next_free_room_id`: the first id whose record is not active, or the
first one past the end.  A file of `n` bytes has at most `n` records. -/
def dbNextFreeRoomId (db : FileDb) : Nat × FileDb :=
  let r := readLoop roomRecordSize
    (fun (id : Nat) bs =>
      if (RoomRecord.decode bs).isActive = 0 then Sum.inr id else Sum.inl (id + 1))
    (db.rooms.data.length + 1) (db.rooms.seek 0) 0
  ((match r.1 with | .inl id => id | .inr id => id), { db with rooms := r.2 })

/-! ### Log lines -/

/-- `" %d %s %s %d %d"`, the record text of `OLD` and `NEW` lines. -/
def recordText (r : RoomRecord) : Bytes :=
  32 :: decimalInt r.roomId.toInt ++ 32 :: cstr r.roomName.val ++ 32 :: cstr r.password.val
    ++ 32 :: decimalInt r.isActive.toInt ++ 32 :: decimalInt r.userCount.toInt

def beginLine (recordId : Int) : Bytes := ascii "BEGIN" ++ 32 :: decimalInt recordId
def commitLine (recordId : Int) : Bytes := ascii "COMMIT" ++ 32 :: decimalInt recordId
def rollbackLine (recordId : Int) : Bytes := ascii "ROLLBACK" ++ 32 :: decimalInt recordId
def newLine (r : RoomRecord) : Bytes := ascii "NEW" ++ recordText r

def oldLine : Option RoomRecord → Bytes
  | some r => ascii "OLD" ++ recordText r
  | none => ascii "OLD NULL"

/-- `wal_write` of one line.  The longest line is far below the 512 bytes of
the buffer it is printed into. -/
def walWrite (db : FileDb) (line : Bytes) : FileDb :=
  { db with wal := db.wal.write (line ++ [10]) }

/-- `wal_begin`. -/
def walBegin (db : FileDb) (recordId : Int) (old : Option RoomRecord) (new : RoomRecord) :
    FileDb :=
  walWrite (walWrite (walWrite db (beginLine recordId)) (oldLine old)) (newLine new)

/-- `wal_commit`. -/
def walCommit (db : FileDb) (recordId : Int) : FileDb := walWrite db (commitLine recordId)

/-! ### Reading the log back -/

/-- The lines both readers keep: `char *lines[512]`. -/
def walLines (wal : File) : List Bytes := (lines wal.data).take 512

/-- `sscanf(line, "KEYWORD %d", &id)` into a variable that held `junk`. -/
def scanId (kw line : Bytes) (junk : Int) : Int :=
  (intField (sscanf (literal kw ++ [.ws, .d]) line) 0).getD junk

/-- `sscanf(line, "OLD %d %31s %63s %d %d", ...)` into a zeroed record. -/
def scanOld (line : Bytes) : RoomRecord :=
  let fs := sscanf (literal (ascii "OLD")
    ++ [.ws, .d, .ws, .s 31, .ws, .s 63, .ws, .d, .ws, .d]) line
  { roomId := Int32.ofInt ((intField fs 0).getD 0)
    roomName := fit _ (strField fs 1)
    password := fit _ (strField fs 2)
    isActive := Int32.ofInt ((intField fs 3).getD 0)
    userCount := Int32.ofInt ((intField fs 4).getD 0) }

/-- The record `wal_restore_old` writes for an `OLD` line. -/
def restoredRecord (line : Bytes) : RoomRecord :=
  if strstr line (ascii "OLD NULL") then RoomRecord.zero else scanOld line

/-- The write of `wal_restore_old`, taken to complete. -/
def restoreRecord (recordId : Int) (r : RoomRecord) (rooms : File) : File :=
  (rooms.seek (recordId * roomRecordSize)).write r.encode

/-- `wal_restore_old` after its first line: up to the next `BEGIN`. -/
def restoreLoop (recordId : Int) : List Bytes → File → File
  | [], rooms => rooms
  | l :: rest, rooms =>
      if hasPrefix (ascii "BEGIN") l then rooms
      else if hasPrefix (ascii "OLD") l then restoreRecord recordId (restoredRecord l) rooms
      else restoreLoop recordId rest rooms

/-- `wal_restore_old(record_id, lines, start, line_count)` on `lines[start..]`. -/
def walRestoreOld (recordId : Int) : List Bytes → File → File
  | [], rooms => rooms
  | l :: rest, rooms =>
      if hasPrefix (ascii "OLD") l then restoreRecord recordId (restoredRecord l) rooms
      else restoreLoop recordId rest rooms

/-- The search loop of `wal_rollback` over `lines[i..]`. -/
def rollbackLoop (junk : Nat → Int) (recordId : Int) : Nat → List Bytes → File → File
  | _, [], rooms => rooms
  | i, l :: rest, rooms =>
      if hasPrefix (ascii "BEGIN") l ∧ scanId (ascii "BEGIN") l (junk i) = recordId then
        walRestoreOld recordId (l :: rest) rooms
      else rollbackLoop junk recordId (i + 1) rest rooms

/-- `wal_rollback`.  The log is read to its end, where the descriptor stays. -/
def walRollback (db : FileDb) (recordId : Int) : FileDb :=
  let db₁ := walWrite db (rollbackLine recordId)
  { db₁ with
    rooms := rollbackLoop db₁.junk recordId 0 (walLines db₁.wal) db₁.rooms
    wal := db₁.wal.seekEnd }

/-! ### Writing records -/

/-- The record write of `db_write_room`, which transfers `wrote` bytes. -/
def storeRoom (wrote : Nat) (db : FileDb) (roomId : Nat) (r : RoomRecord) : FileDb :=
  { db with
    rooms := (db.rooms.seek ((roomId * roomRecordSize : Nat) : Int)).write (r.encode.take wrote) }

/-- `db_write_room`. -/
def dbWriteRoom (wrote : Nat) (db : FileDb) (roomId : Nat) (r : RoomRecord) : Bool × FileDb :=
  let rd := dbReadRoomRaw db roomId
  let db₁ := storeRoom wrote (walBegin rd.2 roomId rd.1 r) roomId r
  if wrote < roomRecordSize then (false, walRollback db₁ roomId)
  else (true, walCommit db₁ roomId)

/-! ### Recovery -/

/-- The search of `wal_recover` for the `COMMIT` or `ROLLBACK` of a transaction. -/
def completedLoop (junk : Nat → Int) (recordId : Int) : Nat → List Bytes → Bool
  | _, [] => false
  | j, l :: rest =>
      if hasPrefix (ascii "BEGIN") l then false
      else if hasPrefix (ascii "COMMIT") l ∧ scanId (ascii "COMMIT") l (junk j) = recordId then true
      else if hasPrefix (ascii "ROLLBACK") l ∧ scanId (ascii "ROLLBACK") l (junk j) = recordId then
        true
      else completedLoop junk recordId (j + 1) rest

/-- The main loop of `wal_recover` over `lines[i..]`. -/
def recoverLoop (junk : Nat → Int) : Nat → List Bytes → File → File
  | _, [], rooms => rooms
  | i, l :: rest, rooms =>
      if hasPrefix (ascii "BEGIN") l then
        let recordId := scanId (ascii "BEGIN") l (junk i)
        if completedLoop junk recordId (i + 1) rest then recoverLoop junk (i + 1) rest rooms
        else recoverLoop junk (i + 1) rest (walRestoreOld recordId (l :: rest) rooms)
      else recoverLoop junk (i + 1) rest rooms

/-- `wal_recover`, with the truncation of the log succeeding. -/
def walRecover (db : FileDb) : FileDb :=
  if db.wal.data = [] then { db with wal := db.wal.seekEnd }
  else
    { db with
      rooms := recoverLoop db.junk 0 (walLines db.wal) db.rooms
      wal := { data := [], pos := 0 } }

end EchoLink
