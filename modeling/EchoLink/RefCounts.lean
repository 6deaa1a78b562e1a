import EchoLink.ServerSteps

/-!
# Commands do not read the reference count

`ref_count` keeps a client in memory while tasks of it are queued, and no command
reads it.  `withRefs` is the server with another count for one client.  Every
handler does the same on it and leaves the same server behind, again up to the
count (`dispatch_withRefs`), so a run of commands gets the same responses
(`replies_withRefs`).
-/

namespace EchoLink

open CText RecordFile LinkedList PackedArray

def Client.withRefs (c : Ptr) (k : Int) (p : Ptr) (cl : Client) : Client :=
  { cl with refCount := if p = c then k else cl.refCount }

/-- The server with the count `k` for the client at `c`. -/
def Server.withRefs (c : Ptr) (k : Int) (s : Server) : Server :=
  { s with clientMem := fun p => (s.clientMem p).map (Client.withRefs c k p) }

variable {c : Ptr} {k : Int} {s : Server}

@[simp] theorem withRefs_userId (p : Ptr) (cl : Client) : (cl.withRefs c k p).userId = cl.userId := rfl
@[simp] theorem withRefs_username (p : Ptr) (cl : Client) : (cl.withRefs c k p).username = cl.username := rfl
@[simp] theorem withRefs_role (p : Ptr) (cl : Client) : (cl.withRefs c k p).role = cl.role := rfl
@[simp] theorem withRefs_currentRoom (p : Ptr) (cl : Client) :
    (cl.withRefs c k p).currentRoom = cl.currentRoom := rfl
@[simp] theorem withRefs_isMute (p : Ptr) (cl : Client) : (cl.withRefs c k p).isMute = cl.isMute := rfl
@[simp] theorem withRefs_isActive (p : Ptr) (cl : Client) : (cl.withRefs c k p).isActive = cl.isActive := rfl
@[simp] theorem withRefs_slot (p : Ptr) (cl : Client) : (cl.withRefs c k p).slot = cl.slot := rfl

@[simp] theorem withRefs_clientMem (p : Ptr) :
    (s.withRefs c k).clientMem p = (s.clientMem p).map (Client.withRefs c k p) := rfl
@[simp] theorem withRefs_roomMem : (s.withRefs c k).roomMem = s.roomMem := rfl
@[simp] theorem withRefs_clients : (s.withRefs c k).clients = s.clients := rfl
@[simp] theorem withRefs_users : (s.withRefs c k).users = s.users := rfl
@[simp] theorem withRefs_wrote : (s.withRefs c k).wrote = s.wrote := rfl
@[simp] theorem withRefs_roomFindByName (name : Bytes) :
    roomFindByName (s.withRefs c k) name = roomFindByName s name := rfl
@[simp] theorem withRefs_roomFindById (roomId : Nat) :
    roomFindById (s.withRefs c k) roomId = roomFindById s roomId := rfl

/-- What a function returns, with the count. -/
def mapRefs {α : Type} (c : Ptr) (k : Int) (out : α × Server) : α × Server := (out.1, out.2.withRefs c k)

theorem ite_map {α β : Type} {b : Prop} [Decidable b] {f : α → β} {x x' : Option β} {y y' : Option α}
    (h : x = y.map f) (h' : x' = y'.map f) : (if b then x else x') = (if b then y else y').map f := by
  by_cases hb : b
  · rw [if_pos hb, if_pos hb, h]
  · rw [if_neg hb, if_neg hb, h']

/-! ### Memory and files -/

theorem setClient_withRefs (s : Server) (p : Ptr) (cl : Client) :
    (s.withRefs c k).setClient p (cl.withRefs c k p) = (s.setClient p cl).withRefs c k := by
  have hmem : Function.update (s.withRefs c k).clientMem p (some (cl.withRefs c k p)) =
      ((s.setClient p cl).withRefs c k).clientMem := by
    funext q
    by_cases hq : q = p
    · subst hq
      simp [Server.setClient]
    · simp [Server.setClient, Function.update_of_ne hq]
  rw [Server.setClient, hmem]
  rfl

theorem persistCount_withRefs (s : Server) (roomId n : Nat) :
    (s.withRefs c k).persistCount roomId n = (s.persistCount roomId n).withRefs c k := by
  have hread : dbReadRoomRaw (s.withRefs c k).db roomId = dbReadRoomRaw s.db roomId := rfl
  simp only [Server.persistCount, hread]
  cases (dbReadRoomRaw s.db roomId).1 <;> rfl

theorem deactivate_withRefs (s : Server) (roomId : Nat) :
    (s.withRefs c k).deactivate roomId = (s.deactivate roomId).withRefs c k := by
  have hread : dbReadRoom (s.withRefs c k).db roomId = dbReadRoom s.db roomId := rfl
  simp only [Server.deactivate, hread]
  cases (dbReadRoom s.db roomId).1 <;> rfl

theorem linkRoom_withRefs (s : Server) (p : Ptr) :
    (s.withRefs c k).linkRoom p = (s.linkRoom p).map (Server.withRefs c k) := by
  have hhead : (s.withRefs c k).roomHead = s.roomHead := rfl
  have hlast : (s.withRefs c k).lastRoom = s.lastRoom := rfl
  rw [Server.linkRoom, Server.linkRoom, hhead, hlast]
  cases hroom : s.roomHead with
  | none => rfl
  | some q =>
      cases s.lastRoom with
      | none => rfl
      | some last =>
          cases last with
          | none => rfl
          | some last => simp [Server.withRefs, hroom]

theorem unlinkRoom_withRefs (s : Server) (p : Ptr) :
    (s.withRefs c k).unlinkRoom p = (s.unlinkRoom p).map (Server.withRefs c k) := by
  by_cases hthere : (s.roomPrev p).all (fun q => (s.roomMem q).isSome) ∧
      (s.roomNext p).all (fun q => (s.roomMem q).isSome)
  · have hout : (s.withRefs c k).unlinkRoom p = some _ := if_pos hthere
    rw [hout, Server.unlinkRoom, if_pos hthere]
    rfl
  · have hout : (s.withRefs c k).unlinkRoom p = none := if_neg hthere
    rw [hout, Server.unlinkRoom, if_neg hthere]
    rfl

/-! ### Rooms -/

theorem roomDelete_withRefs (s : Server) (roomId : Nat) :
    roomDelete (s.withRefs c k) roomId = (roomDelete s roomId).map (mapRefs c k) := by
  simp only [roomDelete, withRefs_roomFindById]
  cases roomFindById s roomId with
  | none => rfl
  | some found =>
      cases found with
      | none => rfl
      | some p =>
          simp only [unlinkRoom_withRefs]
          cases s.unlinkRoom p with
          | none => rfl
          | some t =>
              simp only [Option.map_some, deactivate_withRefs]
              rfl

theorem afterRemoval_withRefs (s : Server) (p : Ptr) :
    (s.withRefs c k).afterRemoval p = (s.afterRemoval p).map (Server.withRefs c k) := by
  simp only [Server.afterRemoval, withRefs_roomMem]
  cases s.roomMem p with
  | none => rfl
  | some r =>
      simp only [persistCount_withRefs, roomDelete_withRefs]
      split
      · rw [Option.map_map, Option.map_map]
        rfl
      · rfl

theorem roomLeave_withRefs (s : Server) (d : Ptr) :
    roomLeave (s.withRefs c k) d = (roomLeave s d).map (mapRefs c k) := by
  simp only [roomLeave, withRefs_clientMem]
  cases s.clientMem d with
  | none => rfl
  | some cl =>
      simp only [Option.map_some, withRefs_currentRoom, withRefs_isMute, withRefs_roomMem]
      cases cl.currentRoom with
      | none => rfl
      | some p =>
          dsimp only
          cases s.roomMem p with
          | none => rfl
          | some r =>
              dsimp only
              cases r.remove d cl.isMute with
              | none =>
                  dsimp only
                  rw [afterRemoval_withRefs, Option.map_map, Option.map_map]
                  rfl
              | some r' =>
                  have hset := setClient_withRefs (c := c) (k := k) (s.setRoom p r') d { cl with currentRoom := none }
                  dsimp only
                  change ((((s.setRoom p r').withRefs c k).setClient d
                    (Client.withRefs c k d { cl with currentRoom := none })).afterRemoval p).map _ = _
                  rw [hset, afterRemoval_withRefs, Option.map_map, Option.map_map]
                  rfl

theorem enter_withRefs (s : Server) (roomId : Nat) (password : Bytes) (d : Ptr) :
    (s.withRefs c k).enter roomId password d = (s.enter roomId password d).map (mapRefs c k) := by
  simp only [Server.enter, withRefs_roomFindById]
  cases roomFindById s roomId with
  | none => rfl
  | some found =>
      cases found with
      | none => rfl
      | some p =>
          simp only [withRefs_roomMem, withRefs_clientMem]
          cases s.roomMem p with
          | none => rfl
          | some r =>
              cases s.clientMem d with
              | none => rfl
              | some cl =>
                  have hset := setClient_withRefs (c := c) (k := k) (s.setRoom p (r.add d)) d
                    { cl with currentRoom := some p }
                  have hcount := persistCount_withRefs (c := c) (k := k)
                    ((s.setRoom p (r.add d)).setClient d { cl with currentRoom := some p }) roomId
                    (r.participantCount + 1)
                  rw [← hset] at hcount
                  simp only [Option.map_some]
                  split
                  · rfl
                  · split
                    · rfl
                    · exact congrArg (fun t => some ((0 : Int), t)) hcount

theorem roomJoin_withRefs (s : Server) (roomId : Nat) (password : Bytes) (d : Ptr) :
    roomJoin (s.withRefs c k) roomId password d = (roomJoin s roomId password d).map (mapRefs c k) := by
  simp only [roomJoin, withRefs_clientMem]
  cases s.clientMem d with
  | none => rfl
  | some cl =>
      simp only [Option.map_some, withRefs_currentRoom, enter_withRefs, roomLeave_withRefs]
      split
      · rfl
      · cases roomLeave s d with
        | none => rfl
        | some r => exact enter_withRefs r.2 roomId password d

/-- The end of `room_create`: the record is written and the room linked. -/
private theorem store_withRefs (u : Server) (roomId : Nat) (r : RoomRecord) (p : Ptr) :
    (if ((u.withRefs c k).writeRoom roomId r).1 then
        (((u.withRefs c k).writeRoom roomId r).2.linkRoom p).map fun t => ((roomId : Int), t)
      else some (-4, ((u.withRefs c k).writeRoom roomId r).2.freeRoom p)) =
    (if (u.writeRoom roomId r).1 then ((u.writeRoom roomId r).2.linkRoom p).map fun t => ((roomId : Int), t)
      else some (-4, (u.writeRoom roomId r).2.freeRoom p)).map (mapRefs c k) := by
  have hwrite : (u.withRefs c k).writeRoom roomId r = mapRefs c k (u.writeRoom roomId r) := rfl
  rw [hwrite]
  simp only [mapRefs, linkRoom_withRefs]
  split
  · rw [Option.map_map, Option.map_map]
    rfl
  · rfl

theorem roomCreate_withRefs (env : Env) (s : Server) (name password : Bytes) :
    roomCreate env (s.withRefs c k) name password = (roomCreate env s name password).map (mapRefs c k) := by
  have hcount : (s.withRefs c k).roomCount = s.roomCount := rfl
  have hdb : (s.withRefs c k).db = s.db := rfl
  simp only [roomCreate, withRefs_roomFindByName, hcount, hdb]
  cases roomFindByName s name with
  | none => rfl
  | some found =>
      cases found with
      | some p => rfl
      | none =>
          dsimp only
          split
          · rfl
          · cases env.malloc with
            | none => rfl
            | some p =>
                dsimp only
                split
                · rfl
                · exact store_withRefs (Server.allocRoom { s with db := (dbNextFreeRoomId s.db).2 } p
                    (newRoom (dbNextFreeRoomId s.db).1 name password)) _ _ p

/-! ### Handlers -/

theorem handleLogin_withRefs (s : Server) (d : Ptr) (args : Option Bytes) :
    handleLogin (s.withRefs c k) d args = (handleLogin s d args).map (mapRefs c k) := by
  simp only [handleLogin, withRefs_clientMem]
  cases s.clientMem d with
  | none => rfl
  | some cl =>
      simp only [Option.map_some, withRefs_userId, withRefs_users, withRefs_slot]
      refine ite_map rfl (ite_map rfl ?_)
      cases (authAuthenticate s.users (scanPair 31 63 args).1 (scanPair 31 63 args).2).1 with
      | none => rfl
      | some role =>
          have hset := setClient_withRefs (c := c) (k := k)
            { s with users := (authAuthenticate s.users (scanPair 31 63 args).1 (scanPair 31 63 args).2).2 } d
            { cl with userId := 0, username := (scanPair 31 63 args).1.take (maxUsernameLen - 1), role := role }
          exact congrArg (fun t => some (sendOk (ascii "Login successful") (decimal cl.slot), t)) hset

theorem handleRegister_withRefs (s : Server) (d : Ptr) (args : Option Bytes) :
    handleRegister (s.withRefs c k) d args = (handleRegister s d args).map (mapRefs c k) := by
  simp only [handleRegister, withRefs_clientMem]
  cases s.clientMem d with
  | none => rfl
  | some cl =>
      simp only [Option.map_some, withRefs_userId, withRefs_users, withRefs_wrote]
      exact ite_map rfl (ite_map rfl (ite_map rfl rfl))

theorem handleLogout_withRefs (s : Server) (d : Ptr) :
    handleLogout (s.withRefs c k) d = (handleLogout s d).map (mapRefs c k) := by
  simp only [handleLogout]
  rw [withRefs_clientMem]
  cases s.clientMem d with
  | none => rfl
  | some cl =>
      have hleave : (if (cl.withRefs c k d).currentRoom = none then some (s.withRefs c k)
            else (roomLeave (s.withRefs c k) d).map Prod.snd) =
          (if cl.currentRoom = none then some s else (roomLeave s d).map Prod.snd).map (Server.withRefs c k) := by
        by_cases hroom : cl.currentRoom = none
        · rw [if_pos hroom]
          exact if_pos hroom
        · rw [if_neg hroom, Option.map_map]
          refine (if_neg hroom).trans ?_
          rw [roomLeave_withRefs, Option.map_map]
          rfl
      simp only [Option.map_some, withRefs_userId]
      refine ite_map rfl ?_
      rw [hleave]
      cases (if cl.currentRoom = none then some s else (roomLeave s d).map Prod.snd) with
      | none => rfl
      | some t =>
          simp only [Option.map_some, withRefs_clientMem]
          cases t.clientMem d with
          | none => rfl
          | some cl₁ =>
              have hset := setClient_withRefs (c := c) (k := k) t d
                { cl₁ with userId := -1, username := [], role := .guest }
              exact congrArg (fun u => some (sendOk (ascii "Logout successful") [], u)) hset

theorem handleCreateRoom_withRefs (env : Env) (s : Server) (d : Ptr) (args : Option Bytes) :
    handleCreateRoom env (s.withRefs c k) d args = (handleCreateRoom env s d args).map (mapRefs c k) := by
  simp only [handleCreateRoom, withRefs_clientMem]
  cases s.clientMem d with
  | none => rfl
  | some cl =>
      simp only [Option.map_some, withRefs_userId, withRefs_role]
      refine ite_map rfl (ite_map rfl (ite_map rfl ?_))
      rw [roomCreate_withRefs, Option.map_map, Option.map_map]
      rfl

theorem handleJoinRoom_withRefs (s : Server) (d : Ptr) (args : Option Bytes) :
    handleJoinRoom (s.withRefs c k) d args = (handleJoinRoom s d args).map (mapRefs c k) := by
  simp only [handleJoinRoom, withRefs_clientMem]
  cases s.clientMem d with
  | none => rfl
  | some cl =>
      simp only [Option.map_some, withRefs_userId, withRefs_roomFindByName, withRefs_roomMem]
      refine ite_map rfl (ite_map rfl ?_)
      cases roomFindByName s (scanPair 31 63 args).1 with
      | none => rfl
      | some found =>
          cases found with
          | none => rfl
          | some r =>
              dsimp only
              cases s.roomMem r with
              | none => rfl
              | some rm =>
                  simp only [roomJoin_withRefs]
                  cases roomJoin s rm.roomId (scanPair 31 63 args).2 d with
                  | none => rfl
                  | some j =>
                      have hresp : joinResponse (j.2.withRefs c k) r j.1 = joinResponse j.2 r j.1 := rfl
                      simp only [Option.map_some, mapRefs, hresp, Option.map_map]
                      rfl

theorem handleLeaveRoom_withRefs (s : Server) (d : Ptr) :
    handleLeaveRoom (s.withRefs c k) d = (handleLeaveRoom s d).map (mapRefs c k) := by
  simp only [handleLeaveRoom, withRefs_clientMem]
  cases s.clientMem d with
  | none => rfl
  | some cl =>
      simp only [Option.map_some, withRefs_userId, withRefs_currentRoom]
      refine ite_map rfl (ite_map rfl ?_)
      rw [roomLeave_withRefs, Option.map_map, Option.map_map]
      rfl

theorem listLoop_withRefs (s : Server) (bufferSize fuel : Nat) (p : Option Ptr) (text : Bytes) :
    listLoop (s.withRefs c k) bufferSize fuel p text = listLoop s bufferSize fuel p text := by
  induction fuel generalizing p text with
  | zero => rfl
  | succ fuel ih =>
      cases p with
      | none => rfl
      | some p =>
          simp only [listLoop, ih]
          rfl

theorem handleListRooms_withRefs (s : Server) (d : Ptr) :
    handleListRooms (s.withRefs c k) d = (handleListRooms s d).map (mapRefs c k) := by
  have htext : roomListFormatted (s.withRefs c k) maxPacketSize = roomListFormatted s maxPacketSize := by
    have hhead : (s.withRefs c k).roomHead = s.roomHead := rfl
    simp only [roomListFormatted, listLoop_withRefs, hhead]
  simp only [handleListRooms, withRefs_clientMem, htext]
  cases s.clientMem d with
  | none => rfl
  | some cl =>
      simp only [Option.map_some, withRefs_userId]
      refine ite_map rfl ?_
      rw [Option.map_map]
      rfl

theorem findTarget_withRefs (s : Server) (name : Bytes) (ms : List Ptr) :
    findTarget (s.withRefs c k) name ms = findTarget s name ms := by
  induction ms with
  | nil => rfl
  | cons p ms ih =>
      simp only [findTarget, withRefs_clientMem, ih]
      cases s.clientMem p <;> rfl

theorem handleKick_withRefs (s : Server) (d : Ptr) (args : Option Bytes) :
    handleKick (s.withRefs c k) d args = (handleKick s d args).map (mapRefs c k) := by
  simp only [handleKick, withRefs_clientMem]
  cases s.clientMem d with
  | none => rfl
  | some cl =>
      have htarget : moderationTarget (s.withRefs c k) (cl.withRefs c k d) .kick args =
          moderationTarget s cl .kick args := rfl
      simp only [Option.map_some, htarget, findTarget_withRefs]
      cases moderationTarget s cl .kick args with
      | none => rfl
      | some found =>
          rcases found with resp | ⟨p, r, name⟩
          · rfl
          · dsimp only
            cases findTarget s name r.members with
            | none => rfl
            | some target =>
                cases target with
                | none => rfl
                | some e =>
                    dsimp only
                    rw [roomLeave_withRefs, Option.map_map, Option.map_map]
                    rfl

theorem handleMute_withRefs (s : Server) (d : Ptr) (args : Option Bytes) :
    handleMute (s.withRefs c k) d args = (handleMute s d args).map (mapRefs c k) := by
  simp only [handleMute]
  rw [withRefs_clientMem]
  cases s.clientMem d with
  | none => rfl
  | some cl =>
      have htarget : moderationTarget (s.withRefs c k) (cl.withRefs c k d) .mute args =
          moderationTarget s cl .mute args := rfl
      simp only [Option.map_some, htarget, findTarget_withRefs]
      cases moderationTarget s cl .mute args with
      | none => rfl
      | some found =>
          rcases found with resp | ⟨p, r, name⟩
          · rfl
          · dsimp only
            cases findTarget s name r.members with
            | none => rfl
            | some target =>
                cases target with
                | none => rfl
                | some e =>
                    dsimp only
                    rw [withRefs_clientMem]
                    cases s.clientMem e with
                    | none => rfl
                    | some t =>
                        have hset := setClient_withRefs (c := c) (k := k) s e { t with isMute := !t.isMute }
                        have hroom := congrArg (fun u => u.setRoom p { r with
                          activeSpeakers := if !t.isMute then r.activeSpeakers - 1 else r.activeSpeakers + 1 }) hset
                        exact congrArg (fun u => some (sendOk (if !t.isMute then ascii "User muted successfully"
                          else ascii "User unmuted successfully") [], u)) hroom

theorem handleStatus_withRefs (s : Server) (d : Ptr) :
    handleStatus (s.withRefs c k) d = (handleStatus s d).map (mapRefs c k) := by
  simp only [handleStatus, withRefs_clientMem]
  cases s.clientMem d with
  | none => rfl
  | some cl =>
      simp only [Option.map_some, withRefs_currentRoom, withRefs_roomMem, Option.map_map]
      rfl

theorem promoteLoop_withRefs (target : Bytes) (role : Role) (is : List (Fin maxClients)) (s : Server) :
    promoteLoop target role is (s.withRefs c k) = (promoteLoop target role is s).map (Server.withRefs c k) := by
  induction is generalizing s with
  | nil => rfl
  | cons i is ih =>
      simp only [promoteLoop, withRefs_clients]
      cases s.clients i with
      | none => exact ih s
      | some p =>
          simp only [withRefs_clientMem]
          cases s.clientMem p with
          | none => rfl
          | some cl =>
              simp only [Option.map_some, withRefs_isActive, withRefs_username]
              refine ite_map ?_ (ih s)
              rw [← ih, ← setClient_withRefs]
              rfl

theorem handlePromote_withRefs (s : Server) (d : Ptr) (args : Option Bytes) :
    handlePromote (s.withRefs c k) d args = (handlePromote s d args).map (mapRefs c k) := by
  simp only [handlePromote, withRefs_clientMem]
  cases s.clientMem d with
  | none => rfl
  | some cl =>
      simp only [Option.map_some, withRefs_userId, withRefs_role, withRefs_users, withRefs_wrote]
      refine ite_map rfl (ite_map rfl (ite_map rfl (ite_map rfl (ite_map ?_ rfl))))
      have hloop := promoteLoop_withRefs (c := c) (k := k) (scanPair 31 15 args).1
        (roleOfName (upperCase (scanPair 31 15 args).2)) (List.finRange maxClients)
        { s with
          users := (authPromoteUser (s.wrote.headD userRecordSize) s.users (scanPair 31 15 args).1
            (upperCase (scanPair 31 15 args).2)).2
          wrote := s.wrote.tail }
      rw [Option.map_map]
      exact (congrArg (Option.map _) hloop).trans (Option.map_map _ _ _)

/-! ### Commands -/

theorem dispatch_withRefs (env : Env) (s : Server) (d : Ptr) (cmd : Bytes) (args : Option Bytes) :
    dispatch env (s.withRefs c k) d cmd args = (dispatch env s d cmd args).map (mapRefs c k) := by
  unfold dispatch
  refine ite_map (handleLogin_withRefs s d args) ?_
  refine ite_map (handleRegister_withRefs s d args) ?_
  refine ite_map (handleLogout_withRefs s d) ?_
  refine ite_map (handleCreateRoom_withRefs env s d args) ?_
  refine ite_map (handleJoinRoom_withRefs s d args) ?_
  refine ite_map (handleLeaveRoom_withRefs s d) ?_
  refine ite_map (handleListRooms_withRefs s d) ?_
  refine ite_map (handleKick_withRefs s d args) ?_
  refine ite_map (handleMute_withRefs s d args) ?_
  refine ite_map (handleStatus_withRefs s d) ?_
  exact ite_map (handlePromote_withRefs s d args) rfl

/-- The task of a client that is active. -/
theorem runTask_active {env : Env} {s : Server} {d : Ptr} {line : Bytes} {cl : Client} (hd : s.clientMem d = some cl)
    (hactive : cl.isActive = true) :
    runTask env s d line =
      match splitCommand line with
      | none => some (none, s.setClient d { cl with refCount := cl.refCount + 1 })
      | some (cmd, args) => (dispatch env s d cmd args).map fun r => (some r.1, r.2) := by
  rw [runTask, hd]
  exact if_pos hactive

theorem runTask_inactive {env : Env} {s : Server} {d : Ptr} {line : Bytes} {cl : Client}
    (hd : s.clientMem d = some cl) (hactive : ¬ cl.isActive = true) : runTask env s d line = some (none, s) := by
  rw [runTask, hd]
  exact if_neg hactive

/-- Another reference is taken. -/
theorem moreRefs_withRefs (s : Server) (d : Ptr) (cl : Client) :
    (s.withRefs c k).setClient d { cl.withRefs c k d with refCount := (cl.withRefs c k d).refCount + 1 } =
      (s.setClient d { cl with refCount := cl.refCount + 1 }).withRefs c (if d = c then k + 1 else k) := by
  rw [← setClient_withRefs]
  by_cases hd : d = c
  · subst hd
    have hmem : Function.update (s.withRefs d k).clientMem d
          (some { cl.withRefs d k d with refCount := (cl.withRefs d k d).refCount + 1 }) =
        Function.update (s.withRefs d (k + 1)).clientMem d
          (some (Client.withRefs d (k + 1) d { cl with refCount := cl.refCount + 1 })) := by
      funext q
      by_cases hq : q = d
      · subst hq
        simp [Client.withRefs]
      · rw [Function.update_of_ne hq, Function.update_of_ne hq]
        have hsame : ∀ x : Client, x.withRefs d k q = x.withRefs d (k + 1) q := by
          intro x
          simp [Client.withRefs, hq]
        simp only [withRefs_clientMem, funext hsame]
    rw [if_pos rfl]
    exact congrArg (fun mem => { s with clientMem := mem }) hmem
  · have hclient : { cl.withRefs c k d with refCount := (cl.withRefs c k d).refCount + 1 } =
        Client.withRefs c k d { cl with refCount := cl.refCount + 1 } := by
      simp [Client.withRefs, hd]
    rw [if_neg hd, hclient]

/-- A task does the same; a blank line takes a reference. -/
theorem runTask_withRefs (env : Env) (s : Server) (d : Ptr) (line : Bytes) :
    ∃ k', runTask env (s.withRefs c k) d line = (runTask env s d line).map (mapRefs c k') := by
  cases hd : s.clientMem d with
  | none =>
      have hd' : (s.withRefs c k).clientMem d = none := by rw [withRefs_clientMem, hd, Option.map_none]
      exact ⟨k, by rw [runTask, runTask, hd, hd', Option.map_none]⟩
  | some cl =>
      have hd' : (s.withRefs c k).clientMem d = some (cl.withRefs c k d) := by
        rw [withRefs_clientMem, hd, Option.map_some]
      by_cases hactive : cl.isActive = true
      · rw [runTask_active hd hactive, runTask_active hd' hactive]
        cases splitCommand line with
        | none =>
            refine ⟨if d = c then k + 1 else k, ?_⟩
            dsimp only
            rw [moreRefs_withRefs]
            rfl
        | some parts =>
            refine ⟨k, ?_⟩
            dsimp only
            rw [dispatch_withRefs, Option.map_map, Option.map_map]
            rfl
      · rw [runTask_inactive hd hactive, runTask_inactive hd' hactive]
        exact ⟨k, rfl⟩

/-- A command line that arrives for a slot, and what its task meets. -/
structure CommandLine where
  slot : Fin maxClients
  line : Bytes
  env : Env

/-- What the worker answers. -/
def Server.answer (s : Server) (x : CommandLine) : Option (Option Response × Server) :=
  match s.clients x.slot with
  | none => some (none, { s with wrote := x.env.wrote })
  | some c => runTask x.env { s with wrote := x.env.wrote } c x.line

theorem step_eq_answer (s : Server) (x : CommandLine) :
    s.step (.command x.slot x.line, x.env) = (s.answer x).map Prod.snd := by
  simp only [Server.step, Server.answer]
  cases s.clients x.slot <;> rfl

/-- The answer to a line with a command, for a client that is active. -/
theorem answer_command {s : Server} {x : CommandLine} {d : Ptr} {cl : Client} {cmd : Bytes} {args : Option Bytes}
    (hslot : s.clients x.slot = some d) (hd : s.clientMem d = some cl) (hactive : cl.isActive = true)
    (hsplit : splitCommand x.line = some (cmd, args)) :
    s.answer x = (dispatch x.env { s with wrote := x.env.wrote } d cmd args).map fun r => (some r.1, r.2) := by
  have htask : s.answer x = runTask x.env { s with wrote := x.env.wrote } d x.line := by
    rw [Server.answer, hslot]
  have hclient : ({ s with wrote := x.env.wrote } : Server).clientMem d = some cl := hd
  rw [htask, runTask_active hclient hactive, hsplit]

/-- A command is one keyword only. -/
theorem strcaseeq_other {cmd kw : Bytes} (h : strcaseeq cmd kw = true) {kw' : Bytes}
    (hne : kw.map toLower ≠ kw'.map toLower) : ¬ strcaseeq cmd kw' = true := by
  intro heq
  rw [strcaseeq, beq_iff_eq] at h heq
  exact hne (h.symm.trans heq)

theorem strcaseeq_others {cmd kw : Bytes} (h : strcaseeq cmd kw = true) {kws : List Bytes}
    (hne : ∀ kw' ∈ kws, kw.map toLower ≠ kw'.map toLower) : ∀ kw' ∈ kws, ¬ strcaseeq cmd kw' = true :=
  fun kw' hkw => strcaseeq_other h (hne kw' hkw)

/-- The answers to commands that are executed one at a time. -/
def Server.replies : Server → List CommandLine → List (Option Response)
  | _, [] => []
  | s, x :: later =>
      match s.answer x with
      | none => []
      | some (resp, t) => resp :: t.replies later

theorem answer_withRefs (s : Server) (x : CommandLine) :
    ∃ k', (s.withRefs c k).answer x = (s.answer x).map (mapRefs c k') := by
  simp only [Server.answer, withRefs_clients]
  cases s.clients x.slot with
  | none => exact ⟨k, rfl⟩
  | some d => exact runTask_withRefs x.env { s with wrote := x.env.wrote } d x.line

/-- **Commands do not read the count**: with another one they are answered the same. -/
theorem replies_withRefs (s : Server) (later : List CommandLine) :
    (s.withRefs c k).replies later = s.replies later := by
  induction later generalizing s k with
  | nil => rfl
  | cons x later ih =>
      obtain ⟨k', hanswer⟩ := answer_withRefs (c := c) (k := k) s x
      simp only [Server.replies, hanswer]
      cases s.answer x with
      | none => rfl
      | some out => exact congrArg (List.cons out.1) (ih out.2)

end EchoLink
