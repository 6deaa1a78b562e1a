import EchoLink.RoomIds
import EchoLink.Restart

/-!
# The mixer's index over several runs of the server

The records of the rooms survive a restart, and stay active.
`db_next_free_room_id` passes over them, so over several runs the ids can grow
beyond `MAX_ROOMS`, which is the length of the mixer's array of semaphores.
In the histories in which every room is created with a record below
`MAX_ROOMS` free, every id is an index of that array (`mixer_index_in_range`).
Thirty-two rooms that were there before a restart are enough to break it
(`lobby_out_of_range`).
-/

namespace EchoLink

open CText RecordFile LinkedList PackedArray PartialMap Runs

variable {s t : Server} {c : Ptr} {cl : Client}

/-! ### Histories of several runs -/

/-- An operation, a shutdown with a restart, or a crash that leaves any files
behind, with a restart. -/
inductive HistoryOp where
  | op (o : Op × Env)
  | restart (junk : Nat → Int)
  | crash (db : FileDb) (users : File) (junk : Nat → Int)

def Server.historyStep (s : Server) : HistoryOp → Option Server
  | .op o => s.step o
  | .restart junk => some (s.restart junk)
  | .crash db users junk => some (Server.restart { s with db := db, users := users } junk)

/-- The operations of the history get unused memory and their record writes
complete. -/
def ProperHistory (s : Server) : HistoryOp → Prop
  | .op o => Proper s o
  | _ => True

/-- A proper history in which rooms are created with a record below `MAX_ROOMS`
free. -/
def RoomyHistory (s : Server) : HistoryOp → Prop
  | .op o => Proper s o ∧ RoomForRecord s o
  | _ => True

/-- The rooms that the mixer passes to `mix_room`: those with a participant. -/
def Server.mixedRooms (s : Server) : Option (List RoomInfo) :=
  s.liveRooms.map fun rooms => rooms.filter fun i => 0 < i.count

/-- Every index into `room_speaker_sem` is in range. -/
def MixerInRange (s : Server) : Prop :=
  ∃ rooms, s.mixedRooms = some rooms ∧ ∀ i ∈ rooms, i.roomId < maxRooms

/-- What holds between two steps of a history. -/
structure HistoryOk (s : Server) : Prop where
  server : ∃ l, ServerOk s l
  records : ∃ db, RecordsOk db s
  ids : IdsBelow s

theorem HistoryOk.start (db : FileDb) (users : File) : HistoryOk (Server.start db users) where
  server := ⟨[], ServerOk.start db users⟩
  records := ⟨db, SlotDirectory.tracks_start roomLayout db.recordAt⟩
  ids := by rintro q x ⟨⟩

theorem HistoryOk.op {o : Op × Env} (h : HistoryOk s) (hproper : Proper s o)
    (hfree : RoomForRecord s o) : ∃ t, s.step o = some t ∧ HistoryOk t := by
  obtain ⟨l, hok⟩ := h.server
  obtain ⟨db, hrecords⟩ := h.records
  have hstep := step_ok hok hproper.1
  cases ht : s.step o with
  | none =>
      rw [ht] at hstep
      exact absurd hrecords.ids_distinct hstep
  | some t =>
      rw [ht] at hstep
      exact ⟨t, rfl, hstep.1, ⟨db, (RoomChange.recordsOk_all hstep.2 hrecords hproper.2).1⟩,
        step_idsBelow ht h.ids hfree⟩

theorem HistoryOk.step {o : HistoryOp} (h : HistoryOk s) (ho : RoomyHistory s o) :
    ∃ t, s.historyStep o = some t ∧ HistoryOk t := by
  cases o with
  | op o => exact h.op ho.1 ho.2
  | restart junk => exact ⟨_, rfl, HistoryOk.start _ _⟩
  | crash db users junk => exact ⟨_, rfl, HistoryOk.start _ _⟩

theorem HistoryOk.mixerInRange (h : HistoryOk s) : MixerInRange s := by
  obtain ⟨l, hok⟩ := h.server
  refine ⟨_, by rw [Server.mixedRooms, hok.rooms.liveRooms, Option.map_some], ?_⟩
  intro i hi
  obtain ⟨p, _, hp⟩ := List.mem_filterMap.mp (List.mem_of_mem_filter hi)
  obtain ⟨r, hr, rfl⟩ := Option.map_eq_some_iff.mp hp
  exact h.ids p r hr

/-- **The mixer's index is in range** in every history in which rooms are
created with a record below `MAX_ROOMS` free. -/
theorem mixer_index_in_range (db : FileDb) (users : File) (hist : List HistoryOp)
    (h : Along Server.historyStep RoomyHistory (Server.start db users) hist) :
    ∃ s, run Server.historyStep (Server.start db users) hist = some s ∧ MixerInRange s := by
  obtain ⟨s, hrun, hok⟩ := run_invariant (fun s o hs ho => HistoryOk.step hs ho)
    (HistoryOk.start db users) h
  exact ⟨s, hrun, hok.mixerInRange⟩

/-- `RoomyHistory` on one of the first two records, computed. -/
def checkRoomy (s : Server) : HistoryOp → Bool
  | .op o =>
      checkProper s o && (List.range 2).any fun id => (s.db.recordAt id).all fun r => r.isActive = 0
  | _ => true

theorem roomy_of_checkRoomy (s : Server) (o : HistoryOp) (h : checkRoomy s o = true) :
    RoomyHistory s o := by
  cases o with
  | op o =>
      rw [checkRoomy, Bool.and_eq_true] at h
      refine ⟨proper_of_checkProper s o h.1, ?_⟩
      intro slot line _ _ _
      obtain ⟨id, hid, hfree⟩ := List.any_eq_true.mp h.2
      have hlt := List.mem_range.mp hid
      have htwo : 2 ≤ maxRooms := by decide
      refine ⟨id, by omega, ?_⟩
      intro r hr
      rw [hr] at hfree
      simpa using hfree
  | restart junk => trivial
  | crash db users junk => trivial

/-- In the run with two clients in the lobby the mixer's index is in range. -/
theorem mixer_index_lobby :
    (∃ s, run Server.historyStep (Server.start emptyDb startTable) (lobbyOps.map .op) = some s ∧
      MixerInRange s) ∧
    ((run Server.historyStep (Server.start emptyDb startTable) (lobbyOps.map .op)).bind fun s =>
      s.mixedRooms.map fun rooms => rooms.map RoomInfo.roomId) = some [0] := by
  refine ⟨mixer_index_in_range emptyDb startTable _ ?_, by decide +kernel⟩
  exact along_of_checkAlong roomy_of_checkRoomy (by decide +kernel)

/-! ### Thirty-two rooms of earlier runs -/

/-- A command line of a client that is connected. -/
theorem step_command {slot : Fin maxClients} {line cmd : Bytes} {args : Option Bytes} (env : Env)
    (hslot : s.clients slot = some c) (hc : s.clientMem c = some cl) (hactive : cl.isActive = true)
    (hline : splitCommand line = some (cmd, args)) :
    s.step (.command slot line, env) =
      (dispatch env { s with wrote := env.wrote } c cmd args).map Prod.snd := by
  simp only [Server.step, hslot, runTask, hc, if_pos hactive, hline, Option.map_map]
  rfl

/-- The accounts of a server that is started for the first time. -/
def adminUsers : File := { data := startTable.data, pos := 0 }

def adminClient : Client :=
  { newClient 5 firstSlot with userId := 0, username := ascii "admin", role := .admin }

/-- The admin is connected and logged in, and there is no room. -/
structure AdminHere (s : Server) (db : FileDb) : Prop where
  slot : s.clients firstSlot = some 1
  client : s.clientMem 1 = some adminClient
  memory : s.clientMem 2 = none
  rooms : s.roomMem = fun _ => none
  head : s.roomHead = none
  count : s.roomCount = 0
  db : s.db = db
  users : s.users.data = adminUsers.data

theorem handleLogin_admin (hc : s.clientMem 1 = some (newClient 5 firstSlot))
    (husers : s.users = adminUsers) :
    ∃ users, (handleLogin s 1 (some (ascii "admin admin123"))).map Prod.snd =
      some (Server.setClient { s with users := users } 1 adminClient) ∧
        users.data = adminUsers.data := by
  have hscan : scanPair 31 63 (some (ascii "admin admin123")) =
      (ascii "admin", ascii "admin123") := by decide +kernel
  have hauth : (authAuthenticate adminUsers (ascii "admin") (ascii "admin123")).1 = some .admin := by
    decide +kernel
  have hdata := authAuthenticate_data adminUsers (ascii "admin") (ascii "admin123")
  refine ⟨(authAuthenticate adminUsers (ascii "admin") (ascii "admin123")).2, ?_, hdata⟩
  simp only [handleLogin, hc, hscan, husers]
  rw [if_neg (by decide), if_neg (by decide), hauth]
  rfl

/-- The admin connects and logs in. -/
def adminOps : List (Op × Env) :=
  [(.accept 5, completeEnv (some 1)),
    (.command firstSlot (ascii "LOGIN admin admin123"), completeEnv none)]

def adminConnected (db : FileDb) : Server :=
  { Server.start db adminUsers with
    clients := Function.update (fun _ => none) firstSlot (some 1)
    clientCount := 1
    fdToSlot := Function.update (fun _ => none) 5 (some firstSlot)
    clientMem := Function.update (fun _ => none) 1 (some (newClient 5 firstSlot)) }

theorem adminOps_run (db : FileDb) :
    ∃ s, run Server.step (Server.start db adminUsers) adminOps = some s ∧ AdminHere s db := by
  have haccept : (Server.start db adminUsers).step (.accept 5, completeEnv (some 1)) =
      some (adminConnected db) := rfl
  have hline : splitCommand (ascii "LOGIN admin admin123") =
      some (ascii "LOGIN", some (ascii "admin admin123")) := by decide +kernel
  have hslot : (adminConnected db).clients firstSlot = some 1 := rfl
  have hmem : (adminConnected db).clientMem 1 = some (newClient 5 firstSlot) := rfl
  have hstep := step_command (completeEnv none) hslot hmem rfl hline
  obtain ⟨users, hlogin, hdata⟩ := handleLogin_admin (s := { adminConnected db with wrote := [] }) hmem rfl
  have hcmd : strcaseeq (ascii "LOGIN") (ascii "LOGIN") = true := by decide
  rw [dispatch, if_pos hcmd] at hstep
  refine ⟨Server.setClient { adminConnected db with users := users, wrote := [] } 1 adminClient, ?_, ?_⟩
  · simp only [adminOps, run, haccept, Option.bind_some]
    rw [hstep]
    exact congrArg (fun x => x.bind some) hlogin
  · exact ⟨rfl, rfl, rfl, rfl, rfl, rfl, rfl, hdata⟩

/-- `rooms.bin` has `n` records, all of them active, and the log is empty. -/
structure Grown (n : Nat) (db : FileDb) : Prop where
  wal : db.wal = { data := [], pos := 0 }
  length : db.rooms.data.length = n * roomRecordSize
  active : ∀ k < n, ∃ r, db.recordAt k = some r ∧ r.isActive ≠ 0

theorem Grown.next {n : Nat} {db : FileDb} (h : Grown n db) : (dbNextFreeRoomId db).1 = n := by
  obtain ⟨hle, hfree, _⟩ := dbNextFreeRoomId_first db
  rw [h.length] at hle
  have hsize : 0 < roomRecordSize := by decide
  have hle' := Nat.le_of_mul_le_mul_right hle hsize
  by_contra hne
  obtain ⟨r, hr, hactive⟩ := h.active (dbNextFreeRoomId db).1 (by omega)
  exact hactive (hfree r hr)

/-- The record of the lobby. -/
def lobbyRecord (n : Nat) : RoomRecord := newRecord RoomRecord.zero n (ascii "lobby") []

/-- The lobby is there, with the id `n`, and the admin is not in it. -/
structure LobbyHere (s : Server) (n : Nat) (db : FileDb) : Prop where
  slot : s.clients firstSlot = some 1
  client : s.clientMem 1 = some adminClient
  room : s.roomMem 2 = some (newRoom n (ascii "lobby") [])
  next : s.roomNext 2 = none
  head : s.roomHead = some 2
  db : s.db = runWrite db { roomId := n, record := lobbyRecord n, wrote := roomRecordSize }
  users : s.users.data = adminUsers.data

theorem roomCreate_lobby {db : FileDb} (h : AdminHere s db) (hw : s.wrote = []) :
    ∃ t, roomCreate (completeEnv (some 2)) s (ascii "lobby") [] =
      some (((dbNextFreeRoomId db).1 : Int), t) ∧
        LobbyHere t (dbNextFreeRoomId db).1 (dbNextFreeRoomId db).2 := by
  have hfind : roomFindByName s (ascii "lobby") = some none := by
    simp only [roomFindByName, Server.findRoom, h.head]
    rfl
  have hcount : ¬ (maxRooms : Int) ≤ s.roomCount := by
    rw [h.count]
    decide
  have hfits : ¬ (maxRoomNameLen ≤ (ascii "lobby").length ∨ maxPasswordLen ≤ ([] : Bytes).length) := by
    decide
  obtain ⟨n, hn⟩ : ∃ n, (dbNextFreeRoomId db).1 = n := ⟨_, rfl⟩
  let s₁ := Server.allocRoom { s with db := (dbNextFreeRoomId db).2 } 2 (newRoom n (ascii "lobby") [])
  let w := s₁.writeRoom n (lobbyRecord n)
  have hw₁ : w.1 = true := writeRoom_complete (s := s₁) hw _ _
  have hcode : roomCreate (completeEnv (some 2)) s (ascii "lobby") [] =
      (w.2.linkRoom 2).map fun s₂ => ((n : Int), s₂) := by
    simp only [roomCreate, hfind, if_neg hcount, completeEnv, if_neg hfits, h.db, hn]
    exact if_pos hw₁
  have hhead : w.2.roomHead = none := h.head
  rw [hcode, Server.linkRoom, hhead, hn]
  refine ⟨_, rfl, ?_⟩
  refine
    { slot := h.slot, client := h.client, room := rfl
      next := rfl, head := rfl, db := ?_, users := h.users }
  have hbytes : s₁.wrote.headD roomRecordSize = roomRecordSize := by
    have hs₁ : s₁.wrote = [] := hw
    rw [hs₁]
    rfl
  have hdb : w.2.db = (dbWriteRoom (s₁.wrote.headD roomRecordSize) s₁.db n (lobbyRecord n)).2 := rfl
  rw [hbytes] at hdb
  exact hdb

theorem handleCreateRoom_lobby {db : FileDb} (h : AdminHere s db) (hw : s.wrote = []) :
    ∃ t, (handleCreateRoom (completeEnv (some 2)) s 1 (some (ascii "lobby"))).map Prod.snd = some t ∧
      LobbyHere t (dbNextFreeRoomId db).1 (dbNextFreeRoomId db).2 := by
  have hscan : scanPair 31 63 (some (ascii "lobby")) = (ascii "lobby", []) := by decide +kernel
  have hallowed : authCheckPermission adminClient.role .create = true := by decide +kernel
  obtain ⟨t, hcreate, hlobby⟩ := roomCreate_lobby h hw
  refine ⟨t, ?_, hlobby⟩
  simp only [handleCreateRoom, h.client, hallowed, hscan, hcreate]
  rw [if_neg (by decide), if_neg (by decide), if_neg (by decide)]
  rfl

theorem AdminHere.with_wrote {db : FileDb} (h : AdminHere s db) (wrote : List Nat) :
    AdminHere { s with wrote := wrote } db :=
  ⟨h.slot, h.client, h.memory, h.rooms, h.head, h.count, h.db, h.users⟩

theorem LobbyHere.with_wrote {n : Nat} {db : FileDb} (h : LobbyHere s n db) (wrote : List Nat) :
    LobbyHere { s with wrote := wrote } n db :=
  ⟨h.slot, h.client, h.room, h.next, h.head, h.db, h.users⟩

/-- The admin creates the lobby. -/
theorem create_step {db : FileDb} (h : AdminHere s db) :
    ∃ t, s.step (.command firstSlot (ascii "CREATE lobby"), completeEnv (some 2)) = some t ∧
      LobbyHere t (dbNextFreeRoomId db).1 (dbNextFreeRoomId db).2 := by
  have hline : splitCommand (ascii "CREATE lobby") = some (ascii "CREATE", some (ascii "lobby")) := by
    decide +kernel
  have hcmd : ∀ env s' args, dispatch env s' 1 (ascii "CREATE") args = handleCreateRoom env s' 1 args :=
    fun _ _ _ => rfl
  obtain ⟨t, hcreate, hlobby⟩ := handleCreateRoom_lobby (h.with_wrote []) rfl
  refine ⟨t, ?_, hlobby⟩
  rw [step_command (completeEnv (some 2)) h.slot h.client rfl hline, hcmd]
  exact hcreate

theorem restart_wal (junk : Nat → Int) (db : FileDb) :
    (restart junk db).wal = { data := [], pos := 0 } := by
  unfold restart fileDbInit walRecover
  split
  · rename_i hnil
    simp only at hnil
    rw [hnil]
    rfl
  · rfl

theorem lobbyRecord_callable {n : Nat} {db : FileDb} (h : db.rooms.data.length = n * roomRecordSize) :
    Callable db n (lobbyRecord n) where
  inFile := Nat.le_of_eq h.symm
  oneLine := by
    have hfields : (lobbyRecord n).roomName = (lobbyRecord 0).roomName ∧
        (lobbyRecord n).password = (lobbyRecord 0).password := ⟨rfl, rfl⟩
    rw [OneLine, hfields.1, hfields.2]
    decide +kernel
  readsBack := by
    intro old hold
    obtain ⟨bs, hbs, _⟩ := Option.map_eq_some_iff.mp hold
    have hle := slot_le hbs
    have hsize : 0 < roomRecordSize := by decide
    omega

/-- A restart keeps the records, the new one too. -/
theorem Grown.restart_lobby {n : Nat} {db db' : FileDb} (h : Grown n db)
    (hdata : db'.rooms.data = db.rooms.data) (hwal : db'.wal = db.wal) (junk : Nat → Int) :
    Grown (n + 1)
      (restart junk (runWrite db' { roomId := n, record := lobbyRecord n, wrote := roomRecordSize })) := by
  have hlen : db'.rooms.data.length = n * roomRecordSize := by rw [hdata, h.length]
  have hpatch : (restart junk
      (runWrite db' { roomId := n, record := lobbyRecord n, wrote := roomRecordSize })).rooms.data =
        patch db'.rooms.data (n * roomRecordSize) (lobbyRecord n).encode := by
    have hnil : CallableAll db' [] := trivial
    have hcall : Callable (runWrites db' []) n (lobbyRecord n) := lobbyRecord_callable hlen
    have hstate : runWrite db' { roomId := n, record := lobbyRecord n, wrote := roomRecordSize } =
        crashState (runWrites db' []) n (lobbyRecord n) .committed := rfl
    rw [hstate, restart_committed_data (hwal.trans h.wal) hnil hcall]
    rfl
  have hrecords := recordAt_patch hpatch (Nat.le_of_eq hlen.symm)
  refine ⟨restart_wal _ _, ?_, ?_⟩
  · rw [hpatch, length_patch_of_le _ (Nat.le_of_eq hlen.symm), RoomRecord.encode_length, hlen,
      Nat.succ_mul, Nat.max_eq_right (Nat.le_add_right _ _)]
  · intro k hk
    rw [hrecords]
    by_cases hkn : k = n
    · subst hkn
      have hone : (1 : Int32) ≠ 0 := by decide
      exact ⟨lobbyRecord k, Function.update_self _ _ _, hone⟩
    · obtain ⟨r, hr, hactive⟩ := h.active k (by omega)
      refine ⟨r, ?_, hactive⟩
      rw [Function.update_of_ne hkn, recordAt_of_data hdata, hr]

/-- The admin joins it. -/
theorem join_step {n : Nat} {db : FileDb} (h : LobbyHere s n db) :
    ∃ t r, s.step (.command firstSlot (ascii "JOIN lobby"), completeEnv none) = some t ∧
      t.roomHead = some 2 ∧ t.roomNext 2 = none ∧ t.roomMem 2 = some r ∧ r.roomId = n ∧
        r.participantCount = 1 := by
  have hline : splitCommand (ascii "JOIN lobby") = some (ascii "JOIN", some (ascii "lobby")) := by
    decide +kernel
  have hcmd : ∀ env s' args, dispatch env s' 1 (ascii "JOIN") args = handleJoinRoom s' 1 args :=
    fun _ _ _ => rfl
  have hscan : scanPair 31 63 (some (ascii "lobby")) = (ascii "lobby", []) := by decide +kernel
  rw [step_command (completeEnv none) h.slot h.client rfl hline, hcmd]
  have h₀ := h.with_wrote []
  have hfind : ∀ test : Room → Bool, test (newRoom n (ascii "lobby") []) = true →
      Server.findRoom { s with wrote := [] } test = some (some 2) := by
    intro test htest
    simp only [Server.findRoom, h.head, walk, h.room, Option.map_some, htest]
  have hname : roomFindByName { s with wrote := [] } (ascii "lobby") = some (some 2) :=
    hfind _ (by simp [newRoom])
  have hid : roomFindById { s with wrote := [] } n = some (some 2) := hfind _ (by simp [newRoom])
  let s₁ := ((Server.setRoom { s with wrote := [] } 2 (Room.add (newRoom n (ascii "lobby") []) 1)).setClient 1
    { adminClient with currentRoom := some 2 }).persistCount n 1
  have hjoin : roomJoin { s with wrote := [] } n [] 1 = some (0, s₁) := by
    simp only [roomJoin, h.client]
    rw [if_pos (by rfl), Server.enter, hid]
    simp only [h.room, h.client]
    rfl
  have hsame := persistCount_same ((Server.setRoom { s with wrote := [] } 2
    (Room.add (newRoom n (ascii "lobby") []) 1)).setClient 1
    { adminClient with currentRoom := some 2 }) n 1
  have hroom : s₁.roomMem 2 = some (Room.add (newRoom n (ascii "lobby") []) 1) := by
    rw [hsame.1.mem]
    rfl
  refine ⟨s₁, _, ?_, by rw [hsame.1.head]; exact h.head, by rw [hsame.1.next]; exact h.next, hroom, rfl, rfl⟩
  simp only [handleJoinRoom, h.client, completeEnv, hscan, hname, h.room]
  rw [if_neg (by decide), if_neg (by decide)]
  have hid' : (newRoom n (ascii "lobby") []).roomId = n := rfl
  rw [hid', hjoin]
  simp only [joinResponse, hroom]
  rfl

theorem dbNextFreeRoomId_wal (db : FileDb) : (dbNextFreeRoomId db).2.wal = db.wal := rfl

/-! The run of one process: the admin comes and creates the lobby, and the
server is shut down and started again. -/

def createOp : Op × Env := (.command firstSlot (ascii "CREATE lobby"), completeEnv (some 2))

def joinOp : Op × Env := (.command firstSlot (ascii "JOIN lobby"), completeEnv none)

def lobbyRun : List HistoryOp :=
  (adminOps ++ [createOp]).map .op ++ [.restart fun _ => 0]

theorem run_ops (s : Server) (ops : List (Op × Env)) :
    run Server.historyStep s (ops.map .op) = run Server.step s ops := by
  induction ops generalizing s with
  | nil => rfl
  | cons o ops ih =>
      simp only [List.map_cons, run, Server.historyStep]
      congr 1
      funext s'
      exact ih s'

theorem lobbyRun_run {n : Nat} {db : FileDb} (h : Grown n db) :
    ∃ db', run Server.historyStep (Server.start db adminUsers) lobbyRun =
      some (Server.start db' adminUsers) ∧ Grown (n + 1) db' := by
  obtain ⟨s, hs, hadmin⟩ := adminOps_run db
  obtain ⟨t, ht, hlobby⟩ := create_step hadmin
  rw [h.next] at hlobby
  have hgrown := h.restart_lobby (dbNextFreeRoomId_data db) (dbNextFreeRoomId_wal db) fun _ => 0
  rw [← hlobby.db] at hgrown
  refine ⟨restart (fun _ => 0) t.db, ?_, hgrown⟩
  have hrestart : t.restart (fun _ => 0) = Server.start (restart (fun _ => 0) t.db) adminUsers := by
    rw [Server.restart, hlobby.users]
    rfl
  have hcreate : s.step createOp = some t := ht
  rw [lobbyRun, run_append, run_ops, run_append, hs]
  simp only [Option.bind_some, run, hcreate, Server.historyStep, hrestart]

theorem along_ops {ops : List (Op × Env)} (h : Along Server.step Proper s ops) :
    Along Server.historyStep ProperHistory s (ops.map .op) := by
  induction ops generalizing s with
  | nil => trivial
  | cons o ops ih => exact ⟨h.1, fun s' hs' => ih (h.2 s' hs')⟩

/-- The admin can create the lobby with memory that is not in use. -/
theorem create_proper (db : FileDb) (ops : List (Op × Env)) (hops : ∀ o ∈ ops, o.2 = completeEnv none) :
    Along Server.step Proper (Server.start db adminUsers) (adminOps ++ createOp :: ops) := by
  have hnone : ∀ (o : Op × Env) (s : Server), o.2 = completeEnv none → Proper s o := by
    rintro ⟨op, env⟩ s rfl
    exact ⟨by rintro p ⟨⟩, rfl⟩
  refine along_append ⟨⟨?_, rfl⟩, fun s _ => ⟨hnone _ s rfl, fun _ _ => trivial⟩⟩ ?_
  · rintro p ⟨⟩
    exact ⟨rfl, rfl⟩
  · intro s hs
    obtain ⟨s', hs', hadmin⟩ := adminOps_run db
    rw [hs', Option.some.injEq] at hs
    subst hs
    refine ⟨⟨?_, rfl⟩, ?_⟩
    · rintro p ⟨⟩
      exact ⟨hadmin.memory, by rw [hadmin.rooms]⟩
    · intro s hs
      clear hs
      induction ops generalizing s with
      | nil => trivial
      | cons o ops ih =>
          refine ⟨hnone o s (hops o List.mem_cons_self), fun s' _ => ?_⟩
          exact ih (fun o' ho' => hops o' (List.mem_cons_of_mem _ ho')) s'

theorem lobbyRun_proper (db : FileDb) :
    Along Server.historyStep ProperHistory (Server.start db adminUsers) lobbyRun :=
  along_append (along_ops (create_proper db [] (by simp))) fun _ _ => ⟨trivial, fun _ _ => trivial⟩

/-- After `k` such runs `k` more records are active. -/
theorem lobbyRuns_run (k n : Nat) {db : FileDb} (h : Grown n db) :
    Along Server.historyStep ProperHistory (Server.start db adminUsers)
        (List.replicate k lobbyRun).flatten ∧
      ∃ db', run Server.historyStep (Server.start db adminUsers) (List.replicate k lobbyRun).flatten =
        some (Server.start db' adminUsers) ∧ Grown (n + k) db' := by
  induction k generalizing n db with
  | zero => exact ⟨trivial, db, rfl, h⟩
  | succ k ih =>
      obtain ⟨db₁, hrun, hgrown⟩ := lobbyRun_run h
      obtain ⟨halong, db₂, hruns, hgrown'⟩ := ih (n + 1) hgrown
      rw [List.replicate_succ, List.flatten_cons, run_append, hrun]
      refine ⟨along_append (lobbyRun_proper db) ?_, db₂, hruns, ?_⟩
      · intro s hs
        rw [hrun, Option.some.injEq] at hs
        rw [← hs]
        exact halong
      · rw [← Nat.add_assoc, Nat.add_right_comm]
        exact hgrown'

/-- The lobby is created in thirty-two runs of the server, and a last time, when
the admin joins it. -/
def lobbyHistory : List HistoryOp :=
  (List.replicate maxRooms lobbyRun).flatten ++ (adminOps ++ [createOp, joinOp]).map .op

/-- The last lobby has the id 32. -/
theorem lobby_out_of_range :
    ¬ ∀ hist : List HistoryOp, (∀ db users junk, .crash db users junk ∉ hist) →
      Along Server.historyStep ProperHistory (Server.start emptyDb adminUsers) hist →
      ∃ s, run Server.historyStep (Server.start emptyDb adminUsers) hist = some s ∧ MixerInRange s := by
  intro hall
  have hempty : Grown 0 emptyDb := ⟨rfl, rfl, by omega⟩
  obtain ⟨halong, db, hruns, hgrown⟩ := lobbyRuns_run maxRooms 0 hempty
  rw [Nat.zero_add] at hgrown
  obtain ⟨s₁, hs₁, hadmin⟩ := adminOps_run db
  obtain ⟨s₂, hs₂, hlobby⟩ := create_step hadmin
  rw [hgrown.next] at hlobby
  obtain ⟨s₃, r, hs₃, hhead, hnext, hroom, hid, hcount⟩ := join_step hlobby
  have hnocrash : ∀ db users junk, .crash db users junk ∉ lobbyHistory := by
    intro db users junk hmem
    simp [lobbyHistory, lobbyRun] at hmem
  obtain ⟨s, hs, rooms, hrooms, hrange⟩ := hall lobbyHistory hnocrash
    (along_append halong fun s hs => by
      rw [hruns, Option.some.injEq] at hs
      rw [← hs]
      exact along_ops (create_proper db [joinOp] (by simp [joinOp])))
  have hcreate : s₁.step createOp = some s₂ := hs₂
  have hjoin : s₂.step joinOp = some s₃ := hs₃
  rw [lobbyHistory, run_append, hruns, Option.bind_some, run_ops, run_append, hs₁] at hs
  simp only [Option.bind_some, run, hcreate, hjoin, Option.some.injEq] at hs
  subst hs
  have hlist : s₃.mixedRooms = some [r.info] := by
    have hinfo : r.info.count = 1 := hcount
    simp [Server.mixedRooms, Server.liveRooms, listedRooms, hhead, hroom, hnext, maxRooms, hinfo]
  rw [hlist, Option.some.injEq] at hrooms
  have hlt := hrange r.info (by rw [← hrooms]; exact List.mem_singleton_self _)
  have heq : r.info.roomId = maxRooms := hid
  omega

end EchoLink
