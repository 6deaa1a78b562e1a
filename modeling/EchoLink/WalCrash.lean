import EchoLink.WalRollback

/-!
# Crashes inside a record write

The server crashes inside a call of `db_write_room`, after any number of calls
that completed, and is started again.  `CrashPoint` lists what a crash between
two system calls can leave behind, with any byte prefix of the record write
applied; `restart` is `file_db_init` on the two files.

Recovery reads 512 log lines and the log of `n` finished calls has `4 * n`.
Up to 127 finished calls the transaction that was cut off is among the lines
and is undone.  From the 128th on recovery sees finished transactions only and
leaves the file as the crash left it.  `crash_allOrNothing_iff` says exactly
when the outcome is right.
-/

namespace EchoLink

open CText RecordFile UndoLog

/-- How far a call of `db_write_room` came before the crash. -/
inductive CrashPoint where
  /-- the old record was read, nothing was written -/
  | reading
  /-- the `BEGIN` line is in the log -/
  | begun
  /-- the `OLD` line is in the log -/
  | oldLogged
  /-- the `NEW` line is in the log -/
  | newLogged
  /-- the first `n` bytes of the record write are in the file -/
  | storing (n : Nat)
  /-- the `COMMIT` line is in the log -/
  | committed
  deriving DecidableEq

/-- The files at the crash, as `db_write_room` leaves them at that point. -/
def crashState (db : FileDb) (roomId : Nat) (r : RoomRecord) : CrashPoint → FileDb
  | .reading => (dbReadRoomRaw db roomId).2
  | .begun => walWrite (dbReadRoomRaw db roomId).2 (beginLine roomId)
  | .oldLogged =>
      walWrite (walWrite (dbReadRoomRaw db roomId).2 (beginLine roomId))
        (oldLine (db.recordAt roomId))
  | .newLogged => walBegin (dbReadRoomRaw db roomId).2 roomId (db.recordAt roomId) r
  | .storing n => stored db { roomId, record := r, wrote := n }
  | .committed => runWrite db { roomId, record := r, wrote := roomRecordSize }

/-- `file_db_init` on existing files. -/
def fileDbInit (rooms wal : Bytes) (junk : Nat → Int) : FileDb :=
  walRecover { rooms := { data := rooms, pos := 0 }, wal := { data := wal, pos := 0 }, junk }

/-- A new process starts on the files the old one left. -/
def restart (junk : Nat → Int) (db : FileDb) : FileDb :=
  fileDbInit db.rooms.data db.wal.data junk

/-- The record the last call of a history on slot `j` wrote, or the one the
run started with. -/
def lastWritten (start : Option RoomRecord) (j : Nat) (cs : List WriteCall) : Option RoomRecord :=
  cs.foldl (fun o c => if c.roomId = j then some c.record else o) start

/-- After the restart the slot of the last call holds the new record if its
`COMMIT` line is in the log and what it held before otherwise, and every other
slot holds what its last call wrote. -/
def AllOrNothing (db : FileDb) (hist : List WriteCall) (roomId : Nat) (r : RoomRecord)
    (cp : CrashPoint) (junk : Nat → Int) : Prop :=
  let before := runWrites db hist
  let after := restart junk (crashState before roomId r cp)
  (if cp = .committed then (after.recordAt roomId).map RoomRecord.view = some r.view
    else Kept (before.recordAt roomId) (after.recordAt roomId)) ∧
  ∀ j, j ≠ roomId → after.recordAt j = lastWritten (db.recordAt j) j hist

/-- A record write of which `n` bytes arrived leaves the slot reading as it did. -/
def TornHarmless (old : Option RoomRecord) (r : RoomRecord) (n : Nat) : Prop :=
  match old with
  | some o => (RoomRecord.decode (r.encode.take n ++ o.encode.drop n)).view = o.view
  | none => n < roomRecordSize ∨ r.isActive = 0

instance (old : Option RoomRecord) (r : RoomRecord) (n : Nat) : Decidable (TornHarmless old r n) :=
  match old with
  | some o =>
      inferInstanceAs (Decidable
        ((RoomRecord.decode (r.encode.take n ++ o.encode.drop n)).view = o.view))
  | none => inferInstanceAs (Decidable (n < roomRecordSize ∨ r.isActive = 0))

/-! ### The history -/

theorem runWrites_recordAt {db : FileDb} {ls : List Bytes} {hist : List WriteCall}
    (h : LogHolds db.wal ls) (hc : CallableAll db hist)
    (hfull : ∀ c ∈ hist, roomRecordSize ≤ c.wrote) (j : Nat) :
    (runWrites db hist).recordAt j = lastWritten (db.recordAt j) j hist := by
  induction hist generalizing db ls with
  | nil => rfl
  | cons c cs ih =>
      have hrec := ih (dbWriteRoom_wal h hc.1) hc.2 fun c' hc' => hfull c' (List.mem_cons_of_mem _ hc')
      have hstep : (runWrite db c).recordAt j =
          if c.roomId = j then some c.record else db.recordAt j := by
        by_cases hj : c.roomId = j
        · subst hj
          rw [if_pos rfl]
          apply recordAt_of_slot
          rw [runWrite_data_complete (hfull c List.mem_cons_self)]
          exact slot_patch_record _ hc.1.inFile
        · rw [if_neg hj]
          exact recordAt_congr (runWrite_slot_of_ne hc.1.inFile fun hj' => hj hj'.symm)
      rw [hstep] at hrec
      exact hrec

theorem historyLines_take (db : FileDb) (hist : List WriteCall) (k : Nat) :
    (historyLines db hist).take (4 * k) = historyLines db (hist.take k) := by
  induction hist generalizing db k with
  | nil => simp [historyLines]
  | cons c cs ih =>
      cases k with
      | zero => rfl
      | succ k =>
          have harith : 4 * (k + 1) = 4 * k + 4 := by omega
          rw [harith, List.take_succ_cons, historyLines, historyLines, ← ih]
          rfl

/-! ### The log at the crash -/

/-- The lines the call that crashed has logged. -/
def crashLines (db : FileDb) (roomId : Nat) (r : RoomRecord) : CrashPoint → List Bytes
  | .reading => []
  | .begun => [beginLine roomId]
  | .oldLogged => [beginLine roomId, oldLine (db.recordAt roomId)]
  | .newLogged => [beginLine roomId, oldLine (db.recordAt roomId), newLine r]
  | .storing _ => [beginLine roomId, oldLine (db.recordAt roomId), newLine r]
  | .committed => [beginLine roomId, oldLine (db.recordAt roomId), newLine r, commitLine roomId]

/-- The restoring writes for the call that crashed. -/
def crashUndo (db : FileDb) (roomId : Nat) : CrashPoint → List (Int × RoomRecord)
  | .reading => []
  | .begun => []
  | .committed => []
  | _ => [((roomId : Int), restoredRecord (oldLine (db.recordAt roomId)))]

theorem crashState_log {db : FileDb} {ls : List Bytes} {roomId : Nat} {r : RoomRecord}
    (h : LogHolds db.wal ls) (hc : Callable db roomId r) (cp : CrashPoint) :
    LogHolds (crashState db roomId r cp).wal (ls ++ crashLines db roomId r cp) := by
  have hread : LogHolds (dbReadRoomRaw db roomId).2.wal ls := by rwa [dbReadRoomRaw_wal]
  have hbegin := hread.write (beginLine_whole roomId)
  have hold := hbegin.write (oldLine_whole hc.readsBack)
  cases cp with
  | reading => simpa [crashLines, crashState] using h
  | begun => exact hbegin
  | oldLogged => simpa [crashLines, crashState] using hold
  | newLogged => exact LogHolds.walBegin hread hc.oneLine hc.readsBack
  | storing n => exact stored_log (c := { roomId, record := r, wrote := n }) h hc
  | committed =>
      exact dbWriteRoom_wal (c := { roomId, record := r, wrote := roomRecordSize }) h hc

theorem undo_crashLines (junk : Nat → Int) (i : Nat) (db : FileDb) (roomId : Nat) (r : RoomRecord)
    (cp : CrashPoint) :
    undo (lineEvents junk i (crashLines db roomId r cp)) = crashUndo db roomId cp := by
  cases cp <;>
    simp [crashLines, crashUndo, lineEvents, lineEvent_begin, lineEvent_old, lineEvent_new,
      lineEvent_commit, undo, before, finished]

theorem crashLines_length (db : FileDb) (roomId : Nat) (r : RoomRecord) (cp : CrashPoint) :
    (crashLines db roomId r cp).length ≤ 4 := by
  cases cp <;> simp [crashLines]

/-- The writes recovery makes: those of the call that crashed, if the history
leaves room for its lines, and none otherwise. -/
theorem undo_crash_log (junk : Nat → Int) (db : FileDb) (hist : List WriteCall) (roomId : Nat)
    (r : RoomRecord) (cp : CrashPoint) :
    undo (lineEvents junk 0
        ((historyLines db hist ++ crashLines (runWrites db hist) roomId r cp).take 512)) =
      if hist.length < 128 then crashUndo (runWrites db hist) roomId cp else [] := by
  by_cases hn : hist.length < 128
  · have hlen := crashLines_length (runWrites db hist) roomId r cp
    rw [if_pos hn, List.take_of_length_le (by rw [List.length_append, historyLines_length]; omega),
      lineEvents_append, lineEvents_historyLines, undo_append_closed, undo_crashLines]
  · have hcut : (historyLines db hist ++ crashLines (runWrites db hist) roomId r cp).take 512 =
        historyLines db (hist.take 128) := by
      rw [List.take_append_of_le_length (by rw [historyLines_length]; omega)]
      exact historyLines_take db hist 128
    have hclosed := undo_append_closed (historyTxns db (hist.take 128)) []
    rw [List.append_nil] at hclosed
    rw [if_neg hn, hcut, lineEvents_historyLines, hclosed]
    rfl

theorem walRecover_rooms (db : FileDb) :
    (walRecover db).rooms = restoreAll (undo (lineEvents db.junk 0 (walLines db.wal))) db.rooms := by
  unfold walRecover
  split
  · rename_i hnil
    have : walLines db.wal = [] := by simp [walLines, hnil, CText.lines, cstr]
    rw [this]
    rfl
  · exact recoverLoop_eq _ _ _ _

/-- The record file after the restart. -/
theorem restart_data {db : FileDb} {hist : List WriteCall} {roomId : Nat} {r : RoomRecord}
    (hlog : db.wal = { data := [], pos := 0 }) (hh : CallableAll db hist)
    (hc : Callable (runWrites db hist) roomId r) (cp : CrashPoint) (junk : Nat → Int) :
    (restart junk (crashState (runWrites db hist) roomId r cp)).rooms.data =
      (restoreAll (if hist.length < 128 then crashUndo (runWrites db hist) roomId cp else [])
        { data := (crashState (runWrites db hist) roomId r cp).rooms.data, pos := 0 }).data := by
  have hempty : LogHolds db.wal [] := hlog ▸ LogHolds.empty
  have hls := crashState_log (runWrites_log hempty hh) hc cp
  rw [List.nil_append] at hls
  have hlines : walLines { data := (crashState (runWrites db hist) roomId r cp).wal.data, pos := 0 } =
      (historyLines db hist ++ crashLines (runWrites db hist) roomId r cp).take 512 := by
    rw [walLines, hls.lines]
  rw [restart, fileDbInit, walRecover_rooms, hlines, undo_crash_log]

/-! ### The slots after the restart -/

/-- The bytes the crash leaves in the record file. -/
def crashData (db : FileDb) (roomId : Nat) (r : RoomRecord) : CrashPoint → Bytes
  | .storing n => patch db.rooms.data (roomId * roomRecordSize) (r.encode.take n)
  | .committed => patch db.rooms.data (roomId * roomRecordSize) r.encode
  | _ => db.rooms.data

theorem crashState_data (db : FileDb) (roomId : Nat) (r : RoomRecord) (cp : CrashPoint) :
    (crashState db roomId r cp).rooms.data = crashData db roomId r cp := by
  cases cp with
  | reading => exact dbReadRoomRaw_data db roomId
  | begun => exact dbReadRoomRaw_data db roomId
  | oldLogged => exact dbReadRoomRaw_data db roomId
  | newLogged => exact dbReadRoomRaw_data db roomId
  | storing n => exact stored_data db { roomId, record := r, wrote := n }
  | committed => exact runWrite_data_complete (Nat.le_refl _)

theorem Kept.refl (o : Option RoomRecord) : Kept o o := by
  cases o with
  | none => intro r' h; cases h
  | some r => exact ⟨r, rfl, rfl⟩

theorem Kept.of_data {db db' : FileDb} (h : db'.rooms.data = db.rooms.data) (i : Nat) :
    Kept (db.recordAt i) (db'.recordAt i) := by
  have hslot : slot roomRecordSize db'.rooms.data i = slot roomRecordSize db.rooms.data i := by
    rw [h]
  rw [recordAt_congr hslot]
  exact Kept.refl _

/-- The image of the `OLD` line is what has to be kept. -/
theorem Kept.restored {o : Option RoomRecord} (h : ∀ r, o = some r → ReadsBack r) :
    Kept o (some (restoredRecord (oldLine o))) := by
  have hview := restoredRecord_view h
  cases o with
  | none =>
      intro r' hr'
      rw [← Option.some.inj hr']
      exact congrArg RoomView.isActive hview
  | some r => exact ⟨_, rfl, hview⟩

/-- A slot of which the first bytes were overwritten. -/
theorem kept_torn_iff {db db' : FileDb} {roomId n : Nat} {r : RoomRecord}
    (hin : roomId * roomRecordSize ≤ db.rooms.data.length)
    (hdata : db'.rooms.data =
      patch db.rooms.data (roomId * roomRecordSize) (r.encode.take n)) :
    Kept (db.recordAt roomId) (db'.recordAt roomId) ↔ TornHarmless (db.recordAt roomId) r n := by
  cases hslot : slot roomRecordSize db.rooms.data roomId with
  | some bs =>
      have hlen := slot_length hslot
      have hold : db.recordAt roomId = some (RoomRecord.decode bs) := by
        simp [FileDb.recordAt, hslot]
      have hcut : bs.drop (r.encode.take n).length = bs.drop n := by
        rw [List.length_take, r.encode_length]
        by_cases hn : n ≤ roomRecordSize
        · rw [Nat.min_eq_left hn]
        · rw [List.drop_of_length_le (by omega), List.drop_of_length_le (by omega)]
      have hnew : db'.recordAt roomId =
          some (RoomRecord.decode (r.encode.take n ++ bs.drop n)) := by
        rw [FileDb.recordAt, hdata, slot_patch_prefix hslot (encode_take_length r n), hcut]
        rfl
      simp only [hold, hnew, Kept, TornHarmless, RoomRecord.encode_decode hlen,
        Option.some.injEq, exists_eq_left']
  | none =>
      have hold : db.recordAt roomId = none := by simp [FileDb.recordAt, hslot]
      by_cases hn : n < roomRecordSize
      · have hshort : (r.encode.take n).length < roomRecordSize := by
          rw [List.length_take, r.encode_length]
          omega
        have hnew : db'.recordAt roomId = none := by
          rw [FileDb.recordAt, hdata, slot_patch_short hin hslot hshort]
          rfl
        simp [hold, hnew, Kept, TornHarmless, hn]
      · have hnew : db'.recordAt roomId = some r := by
          apply recordAt_of_slot
          rw [hdata, encode_take_all (by omega)]
          exact slot_patch_record r hin
        simp [hold, hnew, Kept, TornHarmless, hn]

theorem crashData_inFile {db : FileDb} {roomId : Nat} {r : RoomRecord}
    (hin : roomId * roomRecordSize ≤ db.rooms.data.length) (cp : CrashPoint) :
    roomId * roomRecordSize ≤ (crashData db roomId r cp).length := by
  have hle : ∀ bs, roomId * roomRecordSize ≤
      (patch db.rooms.data (roomId * roomRecordSize) bs).length := by
    intro bs
    rw [length_patch_of_le bs hin]
    exact Nat.le_trans hin (Nat.le_max_left _ _)
  cases cp with
  | storing n => exact hle _
  | committed => exact hle _
  | reading => exact hin
  | begun => exact hin
  | oldLogged => exact hin
  | newLogged => exact hin

theorem crashData_slot_of_ne {db : FileDb} {roomId j : Nat} {r : RoomRecord}
    (hin : roomId * roomRecordSize ≤ db.rooms.data.length) (hj : j ≠ roomId) (cp : CrashPoint) :
    slot roomRecordSize (crashData db roomId r cp) j = slot roomRecordSize db.rooms.data j := by
  cases cp with
  | storing n => exact slot_patch_of_ne hin (encode_take_length r n) hj
  | committed => exact slot_patch_of_ne hin (Nat.le_of_eq r.encode_length) hj
  | reading => rfl
  | begun => rfl
  | oldLogged => rfl
  | newLogged => rfl

theorem crashUndo_keys {db : FileDb} {roomId : Nat} {cp : CrashPoint} {w : Int × RoomRecord}
    (h : w ∈ crashUndo db roomId cp) : w.1 = roomId := by
  cases cp <;> simp_all [crashUndo]

/-- No slot but that of the call is touched by the crash or by recovery. -/
theorem restart_slot_of_ne {db : FileDb} {hist : List WriteCall} {roomId : Nat} {r : RoomRecord}
    (hlog : db.wal = { data := [], pos := 0 }) (hh : CallableAll db hist)
    (hc : Callable (runWrites db hist) roomId r) (cp : CrashPoint) (junk : Nat → Int) {j : Nat}
    (hj : j ≠ roomId) :
    slot roomRecordSize (restart junk (crashState (runWrites db hist) roomId r cp)).rooms.data j =
      slot roomRecordSize (runWrites db hist).rooms.data j := by
  rw [restart_data hlog hh hc, crashState_data,
    restoreAll_slot_of_not_mem, crashData_slot_of_ne hc.inFile hj]
  · split
    · intro w hw
      exact ⟨roomId, crashUndo_keys hw, crashData_inFile hc.inFile cp⟩
    · simp [KeysInFile]
  · split
    · intro hmem
      obtain ⟨w, hw, hwj⟩ := List.mem_map.mp hmem
      rw [crashUndo_keys hw] at hwj
      exact hj (by exact_mod_cast hwj.symm)
    · simp

/-- With the cut-off transaction among the lines recovery reads, its slot is
restored. -/
theorem restart_kept_of_lt {db : FileDb} {hist : List WriteCall} {roomId : Nat} {r : RoomRecord}
    (hlog : db.wal = { data := [], pos := 0 }) (hh : CallableAll db hist)
    (hc : Callable (runWrites db hist) roomId r) {cp : CrashPoint} (junk : Nat → Int)
    (hn : hist.length < 128) (hcp : cp ≠ .committed) :
    Kept ((runWrites db hist).recordAt roomId)
      ((restart junk (crashState (runWrites db hist) roomId r cp)).recordAt roomId) := by
  have hdata := restart_data hlog hh hc cp junk
  rw [crashState_data, if_pos hn] at hdata
  -- every point but the first two has logged the image that recovery restores
  have hundone : crashUndo (runWrites db hist) roomId cp =
      [((roomId : Int), restoredRecord (oldLine ((runWrites db hist).recordAt roomId)))] →
      Kept ((runWrites db hist).recordAt roomId)
        ((restart junk (crashState (runWrites db hist) roomId r cp)).recordAt roomId) := by
    intro hundo
    have hslot : slot roomRecordSize
        (restart junk (crashState (runWrites db hist) roomId r cp)).rooms.data roomId =
        some (restoredRecord (oldLine ((runWrites db hist).recordAt roomId))).encode := by
      rw [hdata, hundo]
      exact restoreAll_slot_of_mem
        (fun w hw => ⟨roomId, by simp_all, crashData_inFile hc.inFile cp⟩) (by simp) (by simp)
    rw [recordAt_of_slot hslot]
    exact Kept.restored hc.readsBack
  have huntouched : crashUndo (runWrites db hist) roomId cp = [] →
      crashData (runWrites db hist) roomId r cp = (runWrites db hist).rooms.data →
      Kept ((runWrites db hist).recordAt roomId)
        ((restart junk (crashState (runWrites db hist) roomId r cp)).recordAt roomId) := by
    intro hundo hsame
    rw [hundo, hsame] at hdata
    exact Kept.of_data hdata roomId
  cases cp with
  | reading => exact huntouched rfl rfl
  | begun => exact huntouched rfl rfl
  | oldLogged => exact hundone rfl
  | newLogged => exact hundone rfl
  | storing n => exact hundone rfl
  | committed => exact absurd rfl hcp

/-- Past 127 finished calls the restart keeps what the crash left. -/
theorem restart_data_of_ge {db : FileDb} {hist : List WriteCall} {roomId : Nat} {r : RoomRecord}
    (hlog : db.wal = { data := [], pos := 0 }) (hh : CallableAll db hist)
    (hc : Callable (runWrites db hist) roomId r) (cp : CrashPoint) (junk : Nat → Int)
    (hn : ¬ hist.length < 128) :
    (restart junk (crashState (runWrites db hist) roomId r cp)).rooms.data =
      crashData (runWrites db hist) roomId r cp := by
  rw [restart_data hlog hh hc, if_neg hn, crashState_data]
  rfl

/-- After a restart the record file is as a committed call left it. -/
theorem restart_committed_data {db : FileDb} {hist : List WriteCall} {roomId : Nat} {r : RoomRecord}
    (hlog : db.wal = { data := [], pos := 0 }) (hh : CallableAll db hist)
    (hc : Callable (runWrites db hist) roomId r) (junk : Nat → Int) :
    (restart junk (crashState (runWrites db hist) roomId r .committed)).rooms.data =
      patch (runWrites db hist).rooms.data (roomId * roomRecordSize) r.encode := by
  rw [restart_data hlog hh hc, crashState_data]
  simp only [crashUndo, ite_self]
  rfl

/-- A committed record survives any restart. -/
theorem restart_committed {db : FileDb} {hist : List WriteCall} {roomId : Nat} {r : RoomRecord}
    (hlog : db.wal = { data := [], pos := 0 }) (hh : CallableAll db hist)
    (hc : Callable (runWrites db hist) roomId r) (junk : Nat → Int) :
    (restart junk (crashState (runWrites db hist) roomId r .committed)).recordAt roomId = some r := by
  apply recordAt_of_slot
  rw [restart_committed_data hlog hh hc]
  exact slot_patch_record r hc.inFile

/-- One more call on a slot that holds the same record. -/
theorem created_callable {db : FileDb}
    (h : db.recordAt 0 = some (sampleRecord 0 (ascii "room") (ascii "pass"))) (r : RoomRecord)
    (hr : OneLine r) : Callable db 0 r where
  inFile := by simp
  oneLine := hr
  readsBack := by
    intro old hold
    rw [h, Option.some.injEq] at hold
    rw [← hold]
    exact sampleRecord_persistable.readsBack (by decide) (by decide)

/-- The same room written over and over, as joins and leaves do. -/
theorem createCalls_callable (n : Nat) {db : FileDb}
    (h : db.recordAt 0 = some (sampleRecord 0 (ascii "room") (ascii "pass"))) :
    CallableAll db (List.replicate n (createCall 0)) ∧
      (runWrites db (List.replicate n (createCall 0))).recordAt 0 =
        some (sampleRecord 0 (ascii "room") (ascii "pass")) := by
  induction n generalizing db with
  | zero => exact ⟨trivial, h⟩
  | succ n ih =>
      have hnext : (runWrite db (createCall 0)).recordAt 0 =
          some (sampleRecord 0 (ascii "room") (ascii "pass")) := by
        apply recordAt_of_slot
        rw [runWrite_data_complete (Nat.le_refl _)]
        exact slot_patch_record _ (by simp [createCall])
      obtain ⟨hall, hlast⟩ := ih hnext
      exact ⟨⟨created_callable h _ sampleRecord_oneLine, hall⟩, hlast⟩

/-- The record a join writes: one user in the room. -/
def joinedRecord : RoomRecord :=
  { sampleRecord 0 (ascii "room") (ascii "pass") with userCount := 1 }

end EchoLink
