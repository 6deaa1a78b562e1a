import EchoLink.WalCalls

/-!
# Rolling back a short record write

When the record write of `db_write_room` is short, `wal_rollback` reads the
log back and restores the image of the *first* transaction it finds for the
record, not of the one that failed.  The first transaction of a record in the
log was logged before any call had touched its slot, so what comes back is
the record as it stood when the log was last emptied
(`runWrite_short_recordAt`).

Hence `shortWrite_rolledBack_iff`: the rollback does its job exactly when the
record has not changed since then.
-/

namespace EchoLink

open CText RecordFile UndoLog

/-- What is left of a slot whose write was undone: the record that was there,
or nothing active where there was none. -/
def Kept : Option RoomRecord → Option RoomRecord → Prop
  | some r, after => ∃ r', after = some r' ∧ r'.view = r.view
  | none, after => ∀ r', after = some r' → r'.isActive = 0

/-- The contents of a slot, an absent record counting as a zeroed one. -/
def viewOrZero (o : Option RoomRecord) : RoomView := (o.map RoomRecord.view).getD RoomRecord.zero.view

/-- A failed call returns 0 and leaves every slot as it found it. -/
def RolledBack (db : FileDb) (c : WriteCall) : Prop :=
  (dbWriteRoom c.wrote db c.roomId c.record).1 = false ∧
  Kept (db.recordAt c.roomId) ((runWrite db c).recordAt c.roomId) ∧
  ∀ j, j ≠ c.roomId → (runWrite db c).recordAt j = db.recordAt j

/-- The image restored from an `OLD` line that reads back. -/
theorem restoredRecord_view {o : Option RoomRecord} (h : ∀ r, o = some r → ReadsBack r) :
    (restoredRecord (oldLine o)).view = viewOrZero o := by
  cases o with
  | none => decide
  | some r => exact (h r rfl).2.2

/-- The first transaction of a record in the log of a run carries the record
the run started with. -/
theorem firstImage_history {db : FileDb} {ls : List Bytes} {cs : List WriteCall} {roomId : Nat}
    (h : LogHolds db.wal ls) (hc : CallableAll db cs) (hmem : ∃ c ∈ cs, c.roomId = roomId) :
    ∃ r, firstImage (roomId : Int) ((historyTxns db cs).flatMap fun t => closed t.1 t.2) = some r ∧
      r.view = viewOrZero (db.recordAt roomId) := by
  induction cs generalizing db ls with
  | nil => simp at hmem
  | cons c cs ih =>
      by_cases hid : c.roomId = roomId
      · subst hid
        refine ⟨restoredRecord (oldLine (db.recordAt c.roomId)), ?_,
          restoredRecord_view hc.1.readsBack⟩
        simp [historyTxns, closed, firstImage, before]
      · have hmem' : ∃ c' ∈ cs, c'.roomId = roomId := by
          obtain ⟨c', hc', hr⟩ := hmem
          rcases List.mem_cons.mp hc' with rfl | hc'
          · exact absurd hr hid
          · exact ⟨c', hc', hr⟩
        obtain ⟨r, hr, hview⟩ := ih (dbWriteRoom_wal h hc.1) hc.2 hmem'
        have hne : roomId ≠ c.roomId := fun h => hid h.symm
        have hsame := recordAt_congr (runWrite_slot_of_ne hc.1.inFile hne)
        have hcast : ¬ (c.roomId : Int) = roomId := by simpa using hid
        refine ⟨r, ?_, by rw [hview, hsame]⟩
        simpa [historyTxns, closed, firstImage, hcast] using hr

theorem historyLines_append_singleton (db : FileDb) (cs : List WriteCall) (c : WriteCall) :
    historyLines db (cs ++ [c]) = historyLines db cs ++ callLines (runWrites db cs) c := by
  induction cs generalizing db with
  | nil => simp [historyLines, runWrites]
  | cons c' cs ih =>
      simp only [List.cons_append, historyLines, ih, List.append_assoc, runWrites, List.foldl_cons]

/-- **What a failed call leaves in its slot**: the record the run started with. -/
theorem runWrite_short_recordAt {db : FileDb} {hist : List WriteCall} {c : WriteCall}
    (hlog : db.wal = { data := [], pos := 0 }) (hc : CallableAll db (hist ++ [c]))
    (hlines : 4 * (hist.length + 1) < 512) (hshort : c.wrote < roomRecordSize) :
    ∃ r, (runWrite (runWrites db hist) c).recordAt c.roomId = some r ∧
      r.view = viewOrZero (db.recordAt c.roomId) := by
  have hempty : LogHolds db.wal [] := hlog ▸ LogHolds.empty
  obtain ⟨hhist, hcall⟩ := callableAll_append.mp hc
  have hls := runWrites_log hempty hhist
  rw [List.nil_append] at hls
  obtain ⟨r, hr, hview⟩ := firstImage_history hempty hc ⟨c, by simp, rfl⟩
  have htake : (historyLines db hist ++ callLines (runWrites db hist) c).take 512 =
      historyLines db (hist ++ [c]) := by
    rw [← historyLines_append_singleton]
    apply List.take_of_length_le
    rw [historyLines_length, List.length_append, List.length_singleton]
    omega
  refine ⟨r, recordAt_of_slot ?_, hview⟩
  rw [runWrite_data_short hls hcall.1 hshort, htake, lineEvents_historyLines, hr]
  exact slot_patch_record r hcall.1.inFile

/-- Records never disappear from the file. -/
theorem runWrite_length {db : FileDb} {ls : List Bytes} {c : WriteCall}
    (h : LogHolds db.wal ls) (hc : Callable db c.roomId c.record) :
    db.rooms.data.length ≤ (runWrite db c).rooms.data.length := by
  by_cases hw : c.wrote < roomRecordSize
  · rw [runWrite_data_short h hc hw]
    cases firstImage (c.roomId : Int) _ with
    | none =>
        rw [Option.map_none, Option.getD_none, length_patch_of_le _ hc.inFile]
        exact Nat.le_max_left _ _
    | some r =>
        rw [Option.map_some, Option.getD_some, length_patch_of_le _ hc.inFile]
        exact Nat.le_max_left _ _
  · rw [runWrite_data_complete (by omega), length_patch_of_le _ hc.inFile]
    exact Nat.le_max_left _ _

theorem runWrites_length {db : FileDb} {ls : List Bytes} {cs : List WriteCall}
    (h : LogHolds db.wal ls) (hc : CallableAll db cs) :
    db.rooms.data.length ≤ (runWrites db cs).rooms.data.length := by
  induction cs generalizing db ls with
  | nil => exact Nat.le_refl _
  | cons c cs ih =>
      exact Nat.le_trans (runWrite_length h hc.1) (ih (dbWriteRoom_wal h hc.1) hc.2)

theorem recordAt_none_of_length_le {db db' : FileDb} {i : Nat}
    (hlen : db.rooms.data.length ≤ db'.rooms.data.length) (h : db'.recordAt i = none) :
    db.recordAt i = none := by
  have hslot : slot roomRecordSize db'.rooms.data i = none := by
    simpa [FileDb.recordAt] using h
  have hshort : db'.rooms.data.length < i * roomRecordSize + roomRecordSize := by
    by_contra hc
    rw [slot_eq_some (by omega)] at hslot
    cases hslot
  simp [FileDb.recordAt, slot_eq_none (Nat.lt_of_le_of_lt hlen hshort)]

/-- **When a failed write is rolled back.**  After any history of calls, the
failed call leaves its slot as it found it exactly when the record there reads
as it did when the log was last emptied. -/
theorem shortWrite_rolledBack_iff (db : FileDb) (hist : List WriteCall) (c : WriteCall)
    (hlog : db.wal = { data := [], pos := 0 }) (hc : CallableAll db (hist ++ [c]))
    (hlines : 4 * (hist.length + 1) < 512) (hshort : c.wrote < roomRecordSize) :
    RolledBack (runWrites db hist) c ↔
      viewOrZero ((runWrites db hist).recordAt c.roomId) = viewOrZero (db.recordAt c.roomId) := by
  have hempty : LogHolds db.wal [] := hlog ▸ LogHolds.empty
  obtain ⟨hhist, hcall⟩ := callableAll_append.mp hc
  have hls := runWrites_log hempty hhist
  obtain ⟨r, hr, hview⟩ := runWrite_short_recordAt hlog hc hlines hshort
  have hret : (dbWriteRoom c.wrote (runWrites db hist) c.roomId c.record).1 = false := by
    rw [dbWriteRoom, if_pos hshort]
  have hother : ∀ j, j ≠ c.roomId →
      (runWrite (runWrites db hist) c).recordAt j = (runWrites db hist).recordAt j :=
    fun j hj => recordAt_congr (runWrite_slot_of_ne hcall.1.inFile hj)
  simp only [RolledBack, hret, hr, true_and]
  rw [← hview]
  cases hbefore : (runWrites db hist).recordAt c.roomId with
  | some old =>
      simp only [Kept, Option.some.injEq, exists_eq_left', viewOrZero, Option.map_some,
        Option.getD_some]
      exact ⟨fun h => h.1.symm, fun h => ⟨h.symm, hother⟩⟩
  | none =>
      have hnone := recordAt_none_of_length_le (runWrites_length hempty hhist) hbefore
      have hzero : r.view = RoomRecord.zero.view := by rw [hview, hnone]; rfl
      have hinactive : r.isActive = 0 := congrArg RoomView.isActive hzero
      simp only [Kept, Option.some.injEq, viewOrZero, Option.map_none, Option.getD_none]
      exact ⟨fun _ => hzero.symm, fun _ => ⟨fun r' hr' => hr' ▸ hinactive, hother⟩⟩

/-! ### Concrete runs -/

def createCall (roomId : Nat) : WriteCall :=
  { roomId, record := sampleRecord 0 (ascii "room") (ascii "pass"), wrote := roomRecordSize }

theorem emptyDb_recordAt (i : Nat) : emptyDb.recordAt i = none := by
  have : slot roomRecordSize emptyDb.rooms.data i = none :=
    slot_eq_none (by simp [emptyDb, roomRecordSize])
  simp [FileDb.recordAt, this]

theorem sampleRecord_oneLine : OneLine (sampleRecord 0 (ascii "room") (ascii "pass")) := by
  constructor <;> decide

theorem createCall_callable : Callable emptyDb 0 (sampleRecord 0 (ascii "room") (ascii "pass")) where
  inFile := by decide
  oneLine := sampleRecord_oneLine
  readsBack := by simp [emptyDb_recordAt]

theorem created_recordAt : (runWrite emptyDb (createCall 0)).recordAt 0 =
    some (sampleRecord 0 (ascii "room") (ascii "pass")) := by
  apply recordAt_of_slot
  rw [runWrite_data_complete (Nat.le_refl _)]
  exact slot_patch_record _ createCall_callable.inFile

/-- A first write of a room that is cut short is rolled back. -/
theorem firstWrite_rolledBack :
    RolledBack (runWrites emptyDb []) { createCall 0 with wrote := 40 } :=
  (shortWrite_rolledBack_iff emptyDb [] { createCall 0 with wrote := 40 } rfl
    ⟨createCall_callable, trivial⟩ (by decide) (by decide)).mpr rfl

/-- The second write of a room, cut short: the rollback finds the first
transaction, whose `OLD` line is `OLD NULL`, and deletes the room's record. -/
theorem secondWrite_not_rolledBack :
    ¬ ∀ (db : FileDb) (hist : List WriteCall) (c : WriteCall),
      db.wal = { data := [], pos := 0 } → CallableAll db (hist ++ [c]) →
      4 * (hist.length + 1) < 512 → c.wrote < roomRecordSize →
      RolledBack (runWrites db hist) c := by
  intro hall
  have hsecond : Callable (runWrite emptyDb (createCall 0)) 0
      (sampleRecord 0 (ascii "room") (ascii "pass")) :=
    { inFile := by simp
      oneLine := sampleRecord_oneLine
      readsBack := by
        intro old hold
        rw [created_recordAt, Option.some.injEq] at hold
        rw [← hold]
        exact sampleRecord_persistable.readsBack (by decide) (by decide) }
  have hc : CallableAll emptyDb ([createCall 0] ++ [{ createCall 0 with wrote := 40 }]) :=
    ⟨createCall_callable, hsecond, trivial⟩
  have hkept : Kept ((runWrites emptyDb [createCall 0]).recordAt 0) ((runWrite
      (runWrites emptyDb [createCall 0]) { createCall 0 with wrote := 40 }).recordAt 0) :=
    (hall emptyDb [createCall 0] _ rfl hc (by decide) (by decide)).2.1
  obtain ⟨r, hr, hview⟩ := runWrite_short_recordAt rfl hc (by decide) (by decide)
  have hbefore : (runWrites emptyDb [createCall 0]).recordAt 0 =
      some (sampleRecord 0 (ascii "room") (ascii "pass")) := created_recordAt
  obtain ⟨r', hr', hsame⟩ : ∃ r', (runWrite (runWrites emptyDb [createCall 0])
      { createCall 0 with wrote := 40 }).recordAt 0 = some r' ∧
      r'.view = (sampleRecord 0 (ascii "room") (ascii "pass")).view := by
    rw [hbefore] at hkept
    exact hkept
  have hrr : r = r' := Option.some.inj (hr.symm.trans hr')
  subst hrr
  have hzero : r.view = RoomRecord.zero.view := by
    rw [hview]
    exact congrArg viewOrZero (emptyDb_recordAt 0)
  exact absurd (hsame.symm.trans hzero) (by decide)

end EchoLink
