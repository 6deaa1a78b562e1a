import EchoLink.MixerIndex
import EchoLink.RoomNames
import EchoLink.CleanLog

/-!
# What a run leaves in the files

A server whose record writes complete leaves a log of finished transactions, and
no stored string has a newline in it, as the arguments of `CREATE` are words
(`Tidy`).  Every operation keeps this (`step_tidy`), so a restart after it finds
nothing to undo: recovery leaves `rooms.bin` as it is and empties the log
(`Tidy.restart`).
-/

namespace EchoLink

open CText RecordFile LinkedList PackedArray UndoLog

variable {s t u : Server} {c p : Ptr} {args : Option Bytes} {resp : Response} {k : Int}

/-! ### The files -/

/-- The lines of committed calls: the id, the record before and the one stored. -/
def doneLines (txns : List (Int × Option RoomRecord × RoomRecord)) : List Bytes :=
  txns.flatMap fun t => [beginLine t.1, oldLine t.2.1, newLine t.2.2, commitLine t.1]

structure TidyDb (db : FileDb) : Prop where
  log : ∃ txns, LogHolds db.wal (doneLines txns)
  oneLine : ∀ k r, db.recordAt k = some r → OneLine r

/-- The files are tidy, and record writes complete. -/
structure Tidy (s : Server) : Prop where
  files : TidyDb s.db
  complete : s.wrote = []

theorem TidyDb.of_same {db db' : FileDb} (h : TidyDb db) (hwal : db'.wal = db.wal)
    (hdata : db'.rooms.data = db.rooms.data) : TidyDb db' where
  log := by
    rw [hwal]
    exact h.log
  oneLine := by
    rw [recordAt_of_data hdata]
    exact h.oneLine

theorem doneLines_take (txns : List (Int × Option RoomRecord × RoomRecord)) (n : Nat) :
    (doneLines txns).take (4 * n) = doneLines (txns.take n) := by
  induction txns generalizing n with
  | nil => simp [doneLines]
  | cons t txns ih =>
      cases n with
      | zero => rfl
      | succ n =>
          have hrest := ih n
          simp only [doneLines] at hrest
          simp only [doneLines, List.flatMap_cons, List.take_succ_cons, Nat.mul_add, Nat.mul_one,
            List.cons_append, List.nil_append, hrest]

theorem lineEvents_doneLines (junk : Nat → Int) (i : Nat) (txns : List (Int × Option RoomRecord × RoomRecord)) :
    lineEvents junk i (doneLines txns) =
      (txns.map fun t => (t.1, restoredRecord (oldLine t.2.1))).flatMap fun t => closed t.1 t.2 := by
  induction txns generalizing i with
  | nil => rfl
  | cons t txns ih =>
      have hrest := ih (i + 4)
      simp only [doneLines] at hrest
      simp only [doneLines, List.flatMap_cons, List.map_cons, List.cons_append, List.nil_append, lineEvents,
        lineEvent_begin, lineEvent_old, lineEvent_new, lineEvent_commit, hrest, closed]

/-- **A restart on tidy files** changes no record and empties the log. -/
theorem TidyDb.restart {db : FileDb} (h : TidyDb db) (junk : Nat → Int) :
    (EchoLink.restart junk db).rooms.data = db.rooms.data ∧ TidyDb (EchoLink.restart junk db) := by
  have hdata : (EchoLink.restart junk db).rooms.data = db.rooms.data := by
    obtain ⟨txns, hlog⟩ := h.log
    have hlines := hlog.lines
    have hundo := undo_append_closed ((txns.take 128).map fun t => (t.1, restoredRecord (oldLine t.2.1))) []
    rw [List.append_nil, ← lineEvents_doneLines junk 0, ← doneLines_take] at hundo
    rw [EchoLink.restart, fileDbInit, walRecover_rooms, walLines, hlines]
    change (restoreAll (undo (lineEvents _ 0 ((doneLines txns).take (4 * 128)))) _).data = _
    rw [hundo]
    rfl
  refine ⟨hdata, ⟨[], ?_⟩, ?_⟩
  · rw [restart_wal]
    exact LogHolds.empty
  · rw [recordAt_of_data hdata]
    exact h.oneLine

/-! ### The record operations -/

theorem Tidy.writeRoom (h : Tidy s) {roomId : Nat} {r : RoomRecord} (hr : OneLine r)
    (hid : roomId * roomRecordSize ≤ s.db.rooms.data.length) : Tidy (s.writeRoom roomId r).2 := by
  obtain ⟨hrecords, hwrote⟩ := writeRoom_recordAt h.complete r hid
  refine ⟨⟨?_, ?_⟩, hwrote⟩
  · obtain ⟨txns, hlog⟩ := h.files.log
    have hread : LogHolds (dbReadRoomRaw s.db roomId).2.wal (doneLines txns) := by
      rw [dbReadRoomRaw_wal]
      exact hlog
    have hold : WholeLine (oldLine (dbReadRoomRaw s.db roomId).1) := by
      apply oldLine_oneLine
      rw [dbReadRoomRaw_fst]
      exact h.files.oneLine roomId
    have hbegun := ((hread.write (beginLine_whole roomId)).write hold).write (newLine_whole hr)
    refine ⟨txns ++ [((roomId : Int), (dbReadRoomRaw s.db roomId).1, r)], ?_⟩
    have hstored : LogHolds (storeRoom roomRecordSize
        (walBegin (dbReadRoomRaw s.db roomId).2 roomId (dbReadRoomRaw s.db roomId).1 r) roomId r).wal _ := hbegun
    have hcommitted := hstored.walCommit roomId
    simpa [Server.writeRoom, dbWriteRoom, h.complete, doneLines] using hcommitted
  · intro k r' hr'
    rw [hrecords] at hr'
    by_cases hk : k = roomId
    · rw [hk, Function.update_self, Option.some.injEq] at hr'
      rw [← hr']
      exact hr
    · rw [Function.update_of_ne hk] at hr'
      exact h.files.oneLine k r' hr'

theorem Tidy.of_db (h : Tidy s) (hwal : t.db.wal = s.db.wal) (hdata : t.db.rooms.data = s.db.rooms.data)
    (hwrote : t.wrote = s.wrote) : Tidy t := ⟨h.files.of_same hwal hdata, by rw [hwrote, h.complete]⟩

theorem Tidy.setRoom (h : Tidy s) (p : Ptr) (r : Room) : Tidy (s.setRoom p r) := h.of_db rfl rfl rfl

theorem Tidy.setClient (h : Tidy s) (c : Ptr) (cl : Client) : Tidy (s.setClient c cl) := h.of_db rfl rfl rfl

theorem Tidy.persistCount (h : Tidy s) (roomId n : Nat) : Tidy (s.persistCount roomId n) := by
  have hdata := dbReadRoomRaw_data s.db roomId
  have hread : Tidy { s with db := (dbReadRoomRaw s.db roomId).2 } := h.of_db (dbReadRoomRaw_wal _ _) hdata rfl
  cases hr : s.db.recordAt roomId with
  | none =>
      simp only [Server.persistCount, dbReadRoomRaw_fst, hr]
      exact hread
  | some r =>
      simp only [Server.persistCount, dbReadRoomRaw_fst, hr]
      apply hread.writeRoom
      · exact h.files.oneLine roomId r hr
      · rw [hdata]
        exact recordAt_le hr

theorem Tidy.deactivate (h : Tidy s) (roomId : Nat) : Tidy (s.deactivate roomId) := by
  have hdata := dbReadRoom_data s.db roomId
  have hread : Tidy { s with db := (dbReadRoom s.db roomId).2 } := h.of_db rfl hdata rfl
  cases hr : (dbReadRoom s.db roomId).1 with
  | none =>
      simp only [Server.deactivate, hr]
      exact hread
  | some r =>
      have hrecord : s.db.recordAt roomId = some r := by
        rw [dbReadRoom_fst] at hr
        exact (Option.filter_eq_some_iff.mp hr).1
      simp only [Server.deactivate, hr]
      apply hread.writeRoom
      · exact h.files.oneLine roomId r hrecord
      · rw [hdata]
        exact recordAt_le hrecord

theorem Tidy.freeRoom (h : Tidy s) (p : Ptr) : Tidy (s.freeRoom p) := h.of_db rfl rfl rfl

theorem Tidy.linkRoom (h : Tidy s) (hlink : s.linkRoom p = some t) : Tidy t := by
  unfold Server.linkRoom at hlink
  split at hlink
  · cases hlink
    exact h.of_db rfl rfl rfl
  · split at hlink
    · cases hlink
      exact h.of_db rfl rfl rfl
    · cases hlink

theorem Tidy.unlinkRoom (h : Tidy s) (hunlink : s.unlinkRoom p = some t) : Tidy t := by
  unfold Server.unlinkRoom at hunlink
  split at hunlink
  · cases hunlink
    exact h.of_db rfl rfl rfl
  · cases hunlink

/-! ### The room calls -/

theorem Tidy.roomDelete (h : Tidy s) {roomId : Nat} (hcode : roomDelete s roomId = some (k, t)) : Tidy t := by
  unfold EchoLink.roomDelete at hcode
  split at hcode
  · cases hcode
  · cases hcode
    exact h
  · split at hcode
    · cases hcode
    · rename_i u hunlink
      cases hcode
      exact ((h.unlinkRoom hunlink).deactivate roomId).freeRoom _

theorem Tidy.afterRemoval (h : Tidy s) (hcode : s.afterRemoval p = some t) : Tidy t := by
  unfold Server.afterRemoval at hcode
  split at hcode
  · cases hcode
  · rename_i r _
    have hcount := h.persistCount r.roomId r.participantCount
    dsimp only at hcode
    split at hcode
    · obtain ⟨out, hdelete, rfl⟩ := Option.map_eq_some_iff.mp hcode
      exact hcount.roomDelete hdelete
    · cases hcode
      exact hcount

theorem Tidy.roomLeave (h : Tidy s) (hcode : roomLeave s c = some (k, t)) : Tidy t := by
  unfold EchoLink.roomLeave at hcode
  split at hcode
  · cases hcode
  · split at hcode
    · cases hcode
      exact h
    · split at hcode
      · cases hcode
      · obtain ⟨out, hafter, hout⟩ := Option.map_eq_some_iff.mp hcode
        cases hout
        split at hafter
        · exact ((h.setRoom _ _).setClient _ _).afterRemoval hafter
        · exact h.afterRemoval hafter

theorem Tidy.removeClientFromRoom (h : Tidy s) (hcode : removeClientFromRoom s p c = some t) : Tidy t := by
  unfold EchoLink.removeClientFromRoom at hcode
  split at hcode
  · split at hcode
    · exact (h.setRoom _ _).afterRemoval hcode
    · exact h.afterRemoval hcode
  · cases hcode

theorem Tidy.enter (h : Tidy s) {roomId : Nat} {password : Bytes}
    (hcode : s.enter roomId password c = some (k, t)) : Tidy t := by
  unfold Server.enter at hcode
  split at hcode
  · cases hcode
  · cases hcode
    exact h
  · split at hcode
    · split at hcode
      · cases hcode
        exact h
      · split at hcode
        · cases hcode
          exact h
        · cases hcode
          exact ((h.setRoom _ _).setClient _ _).persistCount _ _
    · cases hcode

theorem Tidy.roomJoin (h : Tidy s) {roomId : Nat} {password : Bytes}
    (hcode : roomJoin s roomId password c = some (k, t)) : Tidy t := by
  unfold EchoLink.roomJoin at hcode
  split at hcode
  · cases hcode
  · split at hcode
    · exact h.enter hcode
    · split at hcode
      · cases hcode
      · rename_i left hleave
        exact (h.roomLeave hleave).enter hcode

theorem newRecord_oneLine {name password : Bytes} (hname : FitsIn maxRoomNameLen name)
    (hpassword : FitsIn maxPasswordLen password) (hname10 : (10 : UInt8) ∉ name)
    (hpassword10 : (10 : UInt8) ∉ password) (stack : RoomRecord) (n : Nat) :
    OneLine (newRecord stack n name password) := by
  obtain ⟨-, hstores⟩ := newRecord_stores hname hpassword stack n
  refine ⟨?_, ?_⟩
  · rw [hstores.1]
    exact hname10
  · rw [hstores.2.1]
    exact hpassword10

theorem Tidy.roomCreate (h : Tidy s) {env : Env} {name password : Bytes} (hname : FitsIn maxRoomNameLen name)
    (hpassword : FitsIn maxPasswordLen password) (hname10 : (10 : UInt8) ∉ name)
    (hpassword10 : (10 : UInt8) ∉ password) (hcode : roomCreate env s name password = some (k, t)) : Tidy t := by
  have hdata := dbNextFreeRoomId_data s.db
  have hfree : Tidy { s with db := (dbNextFreeRoomId s.db).2 } := h.of_db (dbNextFreeRoomId_wal _) hdata rfl
  unfold EchoLink.roomCreate at hcode
  split at hcode
  · cases hcode
  · cases hcode
    exact h
  · split at hcode
    · cases hcode
      exact h
    · dsimp only at hcode
      split at hcode
      · cases hcode
        exact hfree
      · split at hcode
        · cases hcode
        · rename_i q hmalloc hfits
          have hwritten := Tidy.writeRoom (s := Server.allocRoom { s with db := (dbNextFreeRoomId s.db).2 } q
            (newRoom (dbNextFreeRoomId s.db).1 name password)) (hfree.of_db rfl rfl rfl)
            (newRecord_oneLine hname hpassword hname10 hpassword10 env.stack (dbNextFreeRoomId s.db).1)
            (by
              have hle := (dbNextFreeRoomId_free s.db).1
              rw [← hdata] at hle
              exact hle)
          split at hcode
          · obtain ⟨linked, hlink, hout⟩ := Option.map_eq_some_iff.mp hcode
            cases hout
            exact hwritten.linkRoom hlink
          · cases hcode
            exact hwritten.freeRoom _

/-! ### The handlers -/

/-- The second of two fields is a word, too. -/
theorem isSpace_of_mem_second {m n : Nat} {xs : Bytes} :
    ∀ b ∈ strField (sscanf [.s m, .ws, .s n] xs) 1, isSpace b = false := by
  intro b hb
  have hfield : ∀ (f : Field) (fs : List Field), strField (f :: fs) 1 = strField fs 0 := by
    intro f fs
    rw [strField, strField, List.getElem?_cons_succ]
  rw [sscanf] at hb
  split at hb
  · exact absurd hb (by simp [strField])
  · rw [hfield, sscanf] at hb
    exact isSpace_of_mem_strField b hb

theorem scanPair_no_newline (m n : Nat) (args : Option Bytes) :
    (10 : UInt8) ∉ (scanPair m n args).1 ∧ (10 : UInt8) ∉ (scanPair m n args).2 := by
  have hspace : ¬ isSpace 10 = false := by decide
  cases args with
  | none => exact ⟨List.not_mem_nil, List.not_mem_nil⟩
  | some a => exact ⟨fun h => hspace (isSpace_of_mem_strField 10 h), fun h => hspace (isSpace_of_mem_second 10 h)⟩

theorem Tidy.handleLogin (h : Tidy s) (hcode : handleLogin s c args = some (resp, t)) : Tidy t := by
  unfold EchoLink.handleLogin at hcode
  split at hcode
  · cases hcode
  · dsimp only at hcode
    split at hcode
    · cases hcode
      exact h
    · split at hcode
      · cases hcode
        exact h
      · split at hcode
        · cases hcode
          exact h.of_db rfl rfl rfl
        · cases hcode
          exact h.of_db rfl rfl rfl

theorem Tidy.handleRegister (h : Tidy s) (hcode : handleRegister s c args = some (resp, t)) : Tidy t := by
  have htail : s.wrote.tail = s.wrote := by rw [h.complete, List.tail_nil]
  unfold EchoLink.handleRegister at hcode
  split at hcode
  · cases hcode
  · dsimp only at hcode
    split at hcode
    · cases hcode
      exact h
    · split at hcode
      · cases hcode
        exact h
      · split at hcode
        · cases hcode
          exact h.of_db rfl rfl htail
        · cases hcode
          exact h.of_db rfl rfl htail

theorem Tidy.handleLogout (h : Tidy s) (hcode : handleLogout s c = some (resp, t)) : Tidy t := by
  unfold EchoLink.handleLogout at hcode
  split at hcode
  · cases hcode
  · split at hcode
    · cases hcode
      exact h
    · split at hcode
      · cases hcode
      · rename_i u hleave
        have hu : Tidy u := by
          split at hleave
          · cases hleave
            exact h
          · obtain ⟨out, hout, rfl⟩ := Option.map_eq_some_iff.mp hleave
            exact h.roomLeave hout
        split at hcode
        · cases hcode
        · cases hcode
          exact hu.setClient _ _

theorem Tidy.handleCreateRoom (h : Tidy s) {env : Env} (hargs : ∀ a, args = some a → (0 : UInt8) ∉ a)
    (hcode : handleCreateRoom env s c args = some (resp, t)) : Tidy t := by
  unfold EchoLink.handleCreateRoom at hcode
  split at hcode
  · cases hcode
  · split at hcode
    · cases hcode
      exact h
    · split at hcode
      · cases hcode
        exact h
      · dsimp only at hcode
        split at hcode
        · cases hcode
          exact h
        · obtain ⟨out, hcreate, hout⟩ := Option.map_eq_some_iff.mp hcode
          cases hout
          obtain ⟨hname, hpassword⟩ := scanPair_fits hargs 31 63
          obtain ⟨hname10, hpassword10⟩ := scanPair_no_newline 31 63 args
          exact h.roomCreate hname hpassword hname10 hpassword10 hcreate

theorem Tidy.handleJoinRoom (h : Tidy s) (hcode : handleJoinRoom s c args = some (resp, t)) : Tidy t := by
  unfold EchoLink.handleJoinRoom at hcode
  split at hcode
  · cases hcode
  · split at hcode
    · cases hcode
      exact h
    · dsimp only at hcode
      split at hcode
      · cases hcode
        exact h
      · split at hcode
        · cases hcode
        · cases hcode
          exact h
        · split at hcode
          · cases hcode
          · split at hcode
            · cases hcode
            · rename_i j hjoin
              obtain ⟨r, -, hout⟩ := Option.map_eq_some_iff.mp hcode
              cases hout
              exact h.roomJoin hjoin

theorem Tidy.handleLeaveRoom (h : Tidy s) (hcode : handleLeaveRoom s c = some (resp, t)) : Tidy t := by
  unfold EchoLink.handleLeaveRoom at hcode
  split at hcode
  · cases hcode
  · split at hcode
    · cases hcode
      exact h
    · split at hcode
      · cases hcode
        exact h
      · obtain ⟨out, hleave, hout⟩ := Option.map_eq_some_iff.mp hcode
        cases hout
        exact h.roomLeave hleave

theorem Tidy.handleListRooms (h : Tidy s) (hcode : handleListRooms s c = some (resp, t)) : Tidy t := by
  unfold EchoLink.handleListRooms at hcode
  split at hcode
  · cases hcode
  · split at hcode
    · cases hcode
      exact h
    · obtain ⟨text, -, hout⟩ := Option.map_eq_some_iff.mp hcode
      cases hout
      exact h

theorem Tidy.handleKick (h : Tidy s) (hcode : handleKick s c args = some (resp, t)) : Tidy t := by
  unfold EchoLink.handleKick at hcode
  split at hcode
  · cases hcode
  · split at hcode
    · cases hcode
    · cases hcode
      exact h
    · split at hcode
      · cases hcode
      · cases hcode
        exact h
      · obtain ⟨out, hleave, hout⟩ := Option.map_eq_some_iff.mp hcode
        cases hout
        exact h.roomLeave hleave

theorem Tidy.handleMute (h : Tidy s) (hcode : handleMute s c args = some (resp, t)) : Tidy t := by
  unfold EchoLink.handleMute at hcode
  split at hcode
  · cases hcode
  · split at hcode
    · cases hcode
    · cases hcode
      exact h
    · split at hcode
      · cases hcode
      · cases hcode
        exact h
      · split at hcode
        · cases hcode
        · cases hcode
          exact (h.setClient _ _).setRoom _ _

theorem Tidy.handleStatus (h : Tidy s) (hcode : handleStatus s c = some (resp, t)) : Tidy t := by
  unfold EchoLink.handleStatus at hcode
  split at hcode
  · cases hcode
  · obtain ⟨name, -, hout⟩ := Option.map_eq_some_iff.mp hcode
    cases hout
    exact h

theorem Tidy.promoteLoop (h : Tidy s) {target : Bytes} {role : Role} {slots : List (Fin maxClients)}
    (hcode : promoteLoop target role slots s = some t) : Tidy t := by
  induction slots generalizing s with
  | nil =>
      cases hcode
      exact h
  | cons i slots ih =>
      unfold EchoLink.promoteLoop at hcode
      split at hcode
      · exact ih h hcode
      · split at hcode
        · cases hcode
        · split at hcode
          · exact ih (h.setClient _ _) hcode
          · exact ih h hcode

theorem Tidy.handlePromote (h : Tidy s) (hcode : handlePromote s c args = some (resp, t)) : Tidy t := by
  have htail : s.wrote.tail = s.wrote := by rw [h.complete, List.tail_nil]
  unfold EchoLink.handlePromote at hcode
  split at hcode
  · cases hcode
  · split at hcode
    · cases hcode
      exact h
    · split at hcode
      · cases hcode
        exact h
      · dsimp only at hcode
        split at hcode
        · cases hcode
          exact h
        · split at hcode
          · cases hcode
            exact h
          · split at hcode
            · obtain ⟨out, hloop, hout⟩ := Option.map_eq_some_iff.mp hcode
              cases hout
              refine Tidy.promoteLoop ?_ hloop
              exact h.of_db rfl rfl htail
            · cases hcode
              exact h.of_db rfl rfl htail

theorem Tidy.dispatch (h : Tidy s) {env : Env} {cmd : Bytes} (hargs : ∀ a, args = some a → (0 : UInt8) ∉ a)
    (hcode : dispatch env s c cmd args = some (resp, t)) : Tidy t := by
  unfold EchoLink.dispatch at hcode
  split at hcode
  · exact h.handleLogin hcode
  · split at hcode
    · exact h.handleRegister hcode
    · split at hcode
      · exact h.handleLogout hcode
      · split at hcode
        · exact h.handleCreateRoom hargs hcode
        · split at hcode
          · exact h.handleJoinRoom hcode
          · split at hcode
            · exact h.handleLeaveRoom hcode
            · split at hcode
              · exact h.handleListRooms hcode
              · split at hcode
                · exact h.handleKick hcode
                · split at hcode
                  · exact h.handleMute hcode
                  · split at hcode
                    · exact h.handleStatus hcode
                    · split at hcode
                      · exact h.handlePromote hcode
                      · cases hcode
                        exact h

/-- **Every operation keeps the files tidy.** -/
theorem step_tidy (h : TidyDb s.db) {o : Op × Env} (hwrote : o.2.wrote = []) (hcode : s.step o = some t) :
    TidyDb t.db := by
  obtain ⟨op, env⟩ := o
  have h₀ : Tidy { s with wrote := env.wrote } := ⟨h, hwrote⟩
  cases op with
  | accept fd =>
      cases hcode
      unfold acceptNewClient
      split
      · exact h
      · split
        · exact h
        · exact h
  | disconnect fd =>
      simp only [Server.step] at hcode
      unfold disconnectClient at hcode
      split at hcode
      · cases hcode
        exact h
      · split at hcode
        · cases hcode
          exact h
        · split at hcode
          · cases hcode
          · split at hcode
            · split at hcode
              · cases hcode
                exact h
              · obtain ⟨u, hremove, hout⟩ := Option.map_eq_some_iff.mp hcode
                cases hout
                exact (h₀.removeClientFromRoom hremove).files
            · cases hcode
              exact h
  | command slot line =>
      simp only [Server.step] at hcode
      split at hcode
      · cases hcode
        exact h
      · obtain ⟨out, htask, hout⟩ := Option.map_eq_some_iff.mp hcode
        cases hout
        unfold runTask at htask
        split at htask
        · cases htask
        · split at htask
          · split at htask
            · cases htask
              exact h
            · rename_i cmd args hsplit
              obtain ⟨r, hdispatch, hr⟩ := Option.map_eq_some_iff.mp htask
              cases hr
              exact (h₀.dispatch (splitCommand_args hsplit) hdispatch).files
          · cases htask
            exact h

end EchoLink
