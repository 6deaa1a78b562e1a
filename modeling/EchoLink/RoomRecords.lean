import EchoLink.ServerSteps
import EchoLink.SlotDirectory
import EchoLink.WalCalls

/-!
# The live rooms and their records

While record writes complete, `rooms.bin` holds one active record for each
live room, at its `room_id`, and the other active records are those of the
start (`RecordsOk`, an instance of `SlotDirectory.Tracks`).  A new room gets
the first id without an active record (`dbNextFreeRoomId_free`); since every
live room has an active record, that id belongs to none of them.

`serverRun_ok` puts this together with the invariant of the server: a run of
operations whose writes complete returns at every step and keeps both.
-/

namespace EchoLink

open CText RecordFile LinkedList PackedArray TwoViews Runs Relation SlotDirectory

/-- A record holds the name, the password and the number of participants. -/
def roomLayout : Layout RoomInfo RoomRecord where
  slotOf := RoomInfo.roomId
  active r := r.isActive ≠ 0
  stores r i := cstr r.roomName.val = i.roomName ∧ cstr r.password.val = i.password ∧
    r.userCount = Int32.ofNat i.count

/-- The records agree with the live rooms, and with the records `db₀` of the
start elsewhere. -/
def RecordsOk (db₀ : FileDb) (s : Server) : Prop :=
  Tracks roomLayout db₀.recordAt s.db.recordAt s.roomInfo

variable {s t : Server} {l : List Ptr} {db₀ : FileDb}

/-! ### The record operations, when writes complete -/

theorem recordAt_of_data {db db' : FileDb} (h : db'.rooms.data = db.rooms.data) :
    db'.recordAt = db.recordAt := by
  funext k
  rw [FileDb.recordAt, FileDb.recordAt, h]

theorem recordAt_le {db : FileDb} {roomId : Nat} {r : RoomRecord} (h : db.recordAt roomId = some r) :
    roomId * roomRecordSize ≤ db.rooms.data.length := by
  obtain ⟨bs, hbs, _⟩ := Option.map_eq_some_iff.mp h
  have hle := slot_le hbs
  omega

/-- A record written whole, in the file or at its end. -/
theorem recordAt_patch {db db' : FileDb} {roomId : Nat} {r : RoomRecord}
    (hdata : db'.rooms.data = patch db.rooms.data (roomId * roomRecordSize) r.encode)
    (hid : roomId * roomRecordSize ≤ db.rooms.data.length) :
    db'.recordAt = Function.update db.recordAt roomId (some r) := by
  funext k
  rw [FileDb.recordAt, hdata]
  by_cases hk : k = roomId
  · subst hk
    rw [Function.update_self, slot_patch_record r hid, Option.map_some, RoomRecord.decode_encode]
  · have hlen : r.encode.length ≤ roomRecordSize := Nat.le_of_eq r.encode_length
    rw [Function.update_of_ne hk, slot_patch_of_ne hid hlen hk, FileDb.recordAt]

theorem writeRoom_recordAt (hw : s.wrote = []) {roomId : Nat} (r : RoomRecord)
    (hid : roomId * roomRecordSize ≤ s.db.rooms.data.length) :
    (s.writeRoom roomId r).2.db.recordAt = Function.update s.db.recordAt roomId (some r) ∧
      (s.writeRoom roomId r).2.wrote = [] := by
  refine ⟨recordAt_patch ?_ hid, ?_⟩
  · have hall : r.encode.take roomRecordSize = r.encode := encode_take_all (Nat.le_refl _)
    simp only [Server.writeRoom, hw, List.headD_nil, dbWriteRoom, Nat.lt_irrefl, if_false]
    rw [walCommit, walWrite_rooms, storeRoom_data, walBegin_rooms, dbReadRoomRaw_data, hall]
  · simp only [Server.writeRoom, hw, List.tail_nil]

theorem persistCount_recordAt (hw : s.wrote = []) {roomId : Nat} {r : RoomRecord}
    (hr : s.db.recordAt roomId = some r) (n : Nat) :
    (s.persistCount roomId n).db.recordAt =
        Function.update s.db.recordAt roomId (some { r with userCount := Int32.ofNat n }) ∧
      (s.persistCount roomId n).wrote = [] := by
  have hdata := dbReadRoomRaw_data s.db roomId
  have hid : roomId * roomRecordSize ≤ (dbReadRoomRaw s.db roomId).2.rooms.data.length := by
    rw [hdata]
    exact recordAt_le hr
  simp only [Server.persistCount, dbReadRoomRaw_fst, hr]
  rw [← recordAt_of_data hdata]
  exact writeRoom_recordAt (s := { s with db := (dbReadRoomRaw s.db roomId).2 }) hw _ hid

theorem deactivate_recordAt (hw : s.wrote = []) {roomId : Nat} {r : RoomRecord}
    (hr : s.db.recordAt roomId = some r) (hactive : r.isActive ≠ 0) :
    (s.deactivate roomId).db.recordAt =
        Function.update s.db.recordAt roomId (some { r with isActive := 0 }) ∧
      (s.deactivate roomId).wrote = [] := by
  have hdata := dbReadRoom_data s.db roomId
  have hid : roomId * roomRecordSize ≤ (dbReadRoom s.db roomId).2.rooms.data.length := by
    rw [hdata]
    exact recordAt_le hr
  have hfound : (dbReadRoom s.db roomId).1 = some r := by
    rw [dbReadRoom_fst, hr, Option.filter_some, if_pos (by simpa using hactive)]
  simp only [Server.deactivate, hfound]
  rw [← recordAt_of_data hdata]
  exact writeRoom_recordAt (s := { s with db := (dbReadRoom s.db roomId).2 }) hw _ hid

/-! ### The next free id -/

/-- The loop stops at the first record that is not active, or at the end. -/
theorem scan_free (bss : List Bytes) (k : Nat) :
    ∃ j, j ≤ bss.length ∧ (∀ bs, bss[j]? = some bs → (RoomRecord.decode bs).isActive = 0) ∧
      (∀ i < j, ∃ bs, bss[i]? = some bs ∧ (RoomRecord.decode bs).isActive ≠ 0) ∧
      (match scanRecords (fun (id : Nat) bs =>
          if (RoomRecord.decode bs).isActive = 0 then (Sum.inr id : Nat ⊕ Nat) else Sum.inl (id + 1))
          bss k with
        | .inl id => id
        | .inr id => id) = k + j := by
  induction bss generalizing k with
  | nil => exact ⟨0, Nat.le_refl _, by simp, by simp, rfl⟩
  | cons bs bss ih =>
      by_cases hactive : (RoomRecord.decode bs).isActive = 0
      · refine ⟨0, Nat.zero_le _, ?_, by simp, ?_⟩
        · intro bs' hbs'
          rw [List.getElem?_cons_zero, Option.some.injEq] at hbs'
          rw [← hbs', hactive]
        · simp only [scanRecords, if_pos hactive]
          rfl
      · obtain ⟨j, hj, hfree, hbefore, hscan⟩ := ih (k + 1)
        refine ⟨j + 1, by rw [List.length_cons]; omega, ?_, ?_, ?_⟩
        · intro bs' hbs'
          rw [List.getElem?_cons_succ] at hbs'
          exact hfree bs' hbs'
        · intro i hi
          cases i with
          | zero => exact ⟨bs, by rw [List.getElem?_cons_zero], hactive⟩
          | succ i =>
              rw [List.getElem?_cons_succ]
              exact hbefore i (Nat.lt_of_succ_lt_succ hi)
        · simp only [scanRecords, if_neg hactive]
          rw [hscan]
          omega

/-- **`db_next_free_room_id`**: the first id without an active record, in the
file or at its end. -/
theorem dbNextFreeRoomId_first (db : FileDb) :
    (dbNextFreeRoomId db).1 * roomRecordSize ≤ db.rooms.data.length ∧
      (∀ r, db.recordAt (dbNextFreeRoomId db).1 = some r → r.isActive = 0) ∧
      ∀ i < (dbNextFreeRoomId db).1, ∃ r, db.recordAt i = some r ∧ r.isActive ≠ 0 := by
  have hw : 0 < roomRecordSize := by decide
  obtain ⟨j, hj, hfree, hbefore, hscan⟩ := scan_free (records roomRecordSize db.rooms.data) 0
  have hid : (dbNextFreeRoomId db).1 = j := by
    simp only [dbNextFreeRoomId]
    rw [readLoop_start hw]
    exact hscan.trans (Nat.zero_add j)
  rw [hid]
  refine ⟨?_, ?_, ?_⟩
  · rw [length_records] at hj
    exact Nat.le_trans (Nat.mul_le_mul_right _ hj) (slotCount_mul_le _ _)
  · intro r hr
    obtain ⟨bs, hbs, hdecode⟩ := Option.map_eq_some_iff.mp hr
    rw [← hdecode]
    exact hfree bs (by rw [getElem?_records hw, hbs])
  · intro i hi
    obtain ⟨bs, hbs, hactive⟩ := hbefore i hi
    rw [getElem?_records hw] at hbs
    exact ⟨RoomRecord.decode bs, by rw [FileDb.recordAt, hbs, Option.map_some], hactive⟩

theorem dbNextFreeRoomId_free (db : FileDb) :
    (dbNextFreeRoomId db).1 * roomRecordSize ≤ db.rooms.data.length ∧
      ∀ r, db.recordAt (dbNextFreeRoomId db).1 = some r → r.isActive = 0 :=
  ⟨(dbNextFreeRoomId_first db).1, (dbNextFreeRoomId_first db).2.1⟩

/-! ### The records stay in step -/

theorem roomInfo_of_room {p : Ptr} {r : Room} (h : s.roomMem p = some r) :
    s.roomInfo p = some r.info := by
  rw [Server.roomInfo, h, Option.map_some]

theorem RecordsOk.ids_distinct (h : RecordsOk db₀ s) : s.IdsDistinct := by
  intro p q r r' hp hq hid
  exact h.distinct p q r.info r'.info (roomInfo_of_room hp) (roomInfo_of_room hq) hid

/-- The record of a live room. -/
theorem RecordsOk.record (h : RecordsOk db₀ s) {p : Ptr} {r : Room} (hr : s.roomMem p = some r) :
    ∃ rec', s.db.recordAt r.roomId = some rec' ∧ rec'.isActive ≠ 0 ∧
      cstr rec'.roomName.val = r.roomName ∧ cstr rec'.password.val = r.password ∧
        rec'.userCount = Int32.ofNat r.participantCount :=
  h.stored p r.info (roomInfo_of_room hr)

theorem recordAt_of_files (h : t.files = s.files) : t.db.recordAt = s.db.recordAt ∧ t.wrote = s.wrote := by
  obtain ⟨hdb, hwrote⟩ := Prod.mk.inj h
  exact ⟨by rw [hdb], hwrote⟩

/-- The number of participants of a room is stored anew. -/
theorem RecordsOk.recount (h : RecordsOk db₀ s) (hw : s.wrote = []) {p : Ptr} {r r' : Room}
    (hr : s.roomMem p = some r) (hmem : t.roomMem = Function.update s.roomMem p (some r'))
    (hfiles : t.files = (s.persistCount r.roomId r'.participantCount).files)
    (hid : r'.roomId = r.roomId) (hname : r'.roomName = r.roomName)
    (hpassword : r'.password = r.password) : RecordsOk db₀ t ∧ t.wrote = [] := by
  have hrinfo := roomInfo_of_room hr
  obtain ⟨rec', hrec, hactive, hn, hpw, _⟩ := h.record hr
  obtain ⟨htable, hwrote⟩ := persistCount_recordAt hw hrec r'.participantCount
  obtain ⟨htableEq, hwroteEq⟩ := recordAt_of_files hfiles
  refine ⟨?_, by rw [hwroteEq]; exact hwrote⟩
  unfold RecordsOk
  rw [htableEq, roomInfo_update hmem, Option.map_some]
  refine htable ▸ h.change hrinfo hid hactive ⟨?_, ?_, rfl⟩
  · exact hn.trans hname.symm
  · exact hpw.trans hpassword.symm

theorem Removed.recordsOk {p c : Ptr} {r r' : Room} (hrem : Removed s t p c r r') (h : RecordsOk db₀ s)
    (hw : s.wrote = []) : RecordsOk db₀ t ∧ t.wrote = [] := by
  by_cases hzero : r'.participantCount = 0
  · have hinfo := roomInfo_update hrem.roomMem
    have hrinfo := roomInfo_of_room hrem.room
    have hfiles := hrem.files
    rw [if_pos hzero] at hinfo hfiles
    obtain ⟨rec', hrec, hactive, _⟩ := h.record hrem.room
    obtain ⟨htable, hwrote⟩ := persistCount_recordAt hw hrec 0
    have hrec' : (s.persistCount r.roomId 0).db.recordAt r.roomId =
        some { rec' with userCount := Int32.ofNat 0 } := by
      rw [htable, Function.update_self]
    obtain ⟨htable', hwrote'⟩ := deactivate_recordAt hwrote hrec' hactive
    obtain ⟨htableEq, hwroteEq⟩ := recordAt_of_files hfiles
    refine ⟨?_, by rw [hwroteEq, hwrote']⟩
    unfold RecordsOk
    rw [htableEq, htable', hinfo, Option.map_none, htable, Function.update_idem]
    exact h.remove hrinfo fun hne => hne rfl
  · have hmem := hrem.roomMem
    have hfiles := hrem.files
    rw [if_neg hzero] at hmem hfiles
    exact h.recount hw hrem.room hmem hfiles hrem.without.id hrem.without.name hrem.without.password

theorem newRecord_stores {name password : Bytes} (hname : FitsIn maxRoomNameLen name)
    (hpassword : FitsIn maxPasswordLen password) (stack : RoomRecord) (k : Nat) :
    roomLayout.active (newRecord stack k name password) ∧
      roomLayout.stores (newRecord stack k name password) (newRoom k name password).info := by
  have hone : (1 : Int32) ≠ 0 := by decide
  exact ⟨hone, cstr_fit_strcpy hname _, cstr_fit_strcpy hpassword _, rfl⟩

theorem Created.recordsOk {p : Ptr} {name password : Bytes} {stack : RoomRecord}
    (hcre : Created s t p name password stack) (hname : FitsIn maxRoomNameLen name)
    (hpassword : FitsIn maxPasswordLen password) (h : RecordsOk db₀ s) (hw : s.wrote = []) :
    RecordsOk db₀ t ∧ t.wrote = [] := by
  obtain ⟨hle, hfree⟩ := dbNextFreeRoomId_free s.db
  have hdata := dbNextFreeRoomId_data s.db
  have hmem := hcre.roomMem
  have hfiles := hcre.files
  generalize (dbNextFreeRoomId s.db).1 = k at *
  generalize (dbNextFreeRoomId s.db).2 = db at *
  obtain ⟨htable, hwrote⟩ := writeRoom_recordAt (s := { s with db := db }) hw
    (newRecord stack k name password) (by rw [hdata]; exact hle)
  obtain ⟨htableEq, hwroteEq⟩ := recordAt_of_files hfiles
  obtain ⟨hactive, hstores⟩ := newRecord_stores hname hpassword stack k
  refine ⟨?_, by rw [hwroteEq, hwrote]⟩
  unfold RecordsOk
  rw [htableEq, htable, recordAt_of_data hdata, roomInfo_update hmem, Option.map_some]
  have hnone : s.roomInfo p = none := by rw [Server.roomInfo, hcre.fresh, Option.map_none]
  exact Tracks.add (j := (newRoom k name password).info) h hnone
    (fun r' hr' hne => hne (hfree r' hr')) hactive hstores

/-- **Every change of the rooms is stored.** -/
theorem RoomChange.recordsOk (hchange : RoomChange s t) (h : RecordsOk db₀ s) (hw : s.wrote = []) :
    RecordsOk db₀ t ∧ t.wrote = [] := by
  cases hchange with
  | same info records =>
      obtain ⟨hwrote, hdata⟩ := records hw
      refine ⟨?_, hwrote⟩
      unfold RecordsOk
      rw [recordAt_of_data hdata, info]
      exact h
  | @removed u p c r r' hrem mem files =>
      obtain ⟨htable, hwrote⟩ := recordAt_of_files files
      have hu : RecordsOk db₀ u := by
        unfold RecordsOk
        rw [htable, roomInfo_same mem]
        exact h
      exact hrem.recordsOk hu (by rw [hwrote, hw])
  | @entered c p cl r hent =>
      exact h.recount hw hent.room hent.roomMem hent.files rfl rfl rfl
  | created name_fits password_fits hcre => exact hcre.recordsOk name_fits password_fits h hw

theorem RoomChange.recordsOk_all (hchanges : ReflTransGen RoomChange s t) (h : RecordsOk db₀ s)
    (hw : s.wrote = []) : RecordsOk db₀ t ∧ t.wrote = [] := by
  induction hchanges with
  | refl => exact ⟨h, hw⟩
  | tail _ hchange ih => exact hchange.recordsOk ih.1 ih.2

/-! ### Runs with complete writes -/

/-- An operation that gets unused memory and whose record writes complete. -/
def Proper (s : Server) (o : Op × Env) : Prop := Fresh s o ∧ o.2.wrote = []

/-- `Proper`, computed. -/
def checkProper (s : Server) (o : Op × Env) : Bool :=
  o.2.wrote.isEmpty &&
    match o.2.malloc with
    | none => true
    | some p => (s.clientMem p).isNone && (s.roomMem p).isNone

theorem proper_of_checkProper (s : Server) (o : Op × Env) (h : checkProper s o = true) : Proper s o := by
  rw [checkProper, Bool.and_eq_true] at h
  refine ⟨?_, List.isEmpty_iff.mp h.1⟩
  intro p hp
  have hfree := h.2
  rw [hp, Bool.and_eq_true, Option.isNone_iff_eq_none, Option.isNone_iff_eq_none] at hfree
  exact hfree

/-- A run gets fresh memory, computed. -/
theorem along_fresh {ops : List (Op × Env)} (h : checkAlong Server.step checkProper s ops = true) :
    Along Server.step Fresh s ops :=
  along_imp (fun _ _ hproper => hproper.1) (along_of_checkAlong proper_of_checkProper h)

/-- **A run with complete writes** returns at every step and keeps the invariant
of the server and of the records. -/
theorem serverRun_ok (db : FileDb) (users : File) (ops : List (Op × Env))
    (h : Along Server.step Proper (Server.start db users) ops) :
    ∃ s, run Server.step (Server.start db users) ops = some s ∧ (∃ l, ServerOk s l) ∧ RecordsOk db s := by
  refine run_invariant (I := fun s => (∃ l, ServerOk s l) ∧ RecordsOk db s) ?_
    ⟨⟨[], ServerOk.start db users⟩, tracks_start roomLayout db.recordAt⟩ h
  rintro s o ⟨⟨l, hok⟩, hrecords⟩ ⟨hfresh, hwrote⟩
  have hstep := step_ok hok hfresh
  cases ht : s.step o with
  | none =>
      rw [ht] at hstep
      exact absurd hrecords.ids_distinct hstep
  | some t =>
      rw [ht] at hstep
      exact ⟨t, rfl, hstep.1, (RoomChange.recordsOk_all hstep.2 hrecords hwrote).1⟩

end EchoLink
