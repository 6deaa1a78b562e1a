import EchoLink.RoomManager
import EchoLink.Auth
import Mathlib.Data.List.FinRange

/-!
# Connections and commands

`accept_new_client` and `disconnect_client` of `network.c`, the command
handlers of `client_handler.c`, and the dispatch of `worker_thread_main`.
Operations run one at a time: a step is one connection accepted, one closed,
or one command line processed for the client of a slot.

A handler gives the response it sends and the server after it.  The reference
that `handle_tcp_command` takes is given back when the task is done, except
for a line without a command, where the worker skips that (`continue`).
-/

namespace EchoLink

open CText RecordFile LinkedList PackedArray

/-! ### Responses -/

/-- `response_packet`; the opcode is always 0. -/
structure Response where
  status : Nat
  message : Bytes
  data : Bytes
  deriving DecidableEq

/-- `send_error`. -/
def sendError (status : Nat) (msg : Bytes) : Response :=
  { status, message := msg.take 255, data := [] }

/-- `send_ok`, with `""` for a `NULL` data argument. -/
def sendOk (msg data : Bytes) : Response :=
  { status := statusOk, message := msg.take 255, data := data.take (maxPacketSize - 1) }

/-- `sscanf(args, "%Ms %Ns", a, b)` into zeroed arrays. -/
def scanPair (m n : Nat) (args : Option Bytes) : Bytes × Bytes :=
  match args with
  | none => ([], [])
  | some args =>
      let fs := sscanf [.s m, .ws, .s n] args
      (strField fs 0, strField fs 1)

/-- `sscanf(args, "%31s", a)` into a zeroed array. -/
def scanName (args : Option Bytes) : Bytes :=
  match args with
  | none => []
  | some args => strField (sscanf [.s 31] args) 0

/-! ### Accounts -/

def handleLogin (s : Server) (c : Ptr) (args : Option Bytes) : Option (Response × Server) :=
  match s.clientMem c with
  | none => none
  | some cl =>
      if cl.userId ≠ -1 then some (sendError statusErrConflict (ascii "Already logged in"), s)
      else
        let up := scanPair 31 63 args
        if up.1 = [] ∨ up.2 = [] then
          some (sendError statusErrAuth (ascii "Username and password required"), s)
        else
          let a := authAuthenticate s.users up.1 up.2
          let s₁ := { s with users := a.2 }
          match a.1 with
          | some role =>
              some (sendOk (ascii "Login successful") (decimal cl.slot),
                s₁.setClient c
                  { cl with userId := 0, username := up.1.take (maxUsernameLen - 1), role := role })
          | none => some (sendError statusErrAuth (ascii "Invalid username or password"), s₁)

def handleRegister (s : Server) (c : Ptr) (args : Option Bytes) : Option (Response × Server) :=
  match s.clientMem c with
  | none => none
  | some cl =>
      if cl.userId ≠ -1 then some (sendError statusErrConflict (ascii "Already logged in"), s)
      else
        let up := scanPair 31 63 args
        if up.1 = [] ∨ up.2 = [] then
          some (sendError statusErrAuth (ascii "Username and password required"), s)
        else
          let a := authAddUser (s.wrote.headD userRecordSize) s.users up.1 up.2 (ascii "USER")
          let s₁ := { s with users := a.2, wrote := s.wrote.tail }
          if a.1 then some (sendOk (ascii "Registration successful") [], s₁)
          else some (sendError statusErrConflict (ascii "Username already exists"), s₁)

def handleLogout (s : Server) (c : Ptr) : Option (Response × Server) :=
  match s.clientMem c with
  | none => none
  | some cl =>
      if cl.userId = -1 then some (sendError statusErrAuth (ascii "Not logged in"), s)
      else
        match (if cl.currentRoom = none then some s else (roomLeave s c).map Prod.snd) with
        | none => none
        | some s₁ =>
            match s₁.clientMem c with
            | none => none
            | some cl₁ =>
                some (sendOk (ascii "Logout successful") [],
                  s₁.setClient c { cl₁ with userId := -1, username := [], role := .guest })

/-- `role_name[i] -= 32` for each lower-case letter. -/
def upperCase (bs : Bytes) : Bytes := bs.map fun b => if 97 ≤ b ∧ b ≤ 122 then b - 32 else b

/-- The loop of `handle_promote` over `clients[]`. -/
def promoteLoop (target : Bytes) (role : Role) : List (Fin maxClients) → Server → Option Server
  | [], s => some s
  | i :: rest, s =>
      match s.clients i with
      | none => promoteLoop target role rest s
      | some p =>
          match s.clientMem p with
          | none => none
          | some cl =>
              if cl.isActive = true ∧ cl.username = target then
                promoteLoop target role rest (s.setClient p { cl with role := role })
              else promoteLoop target role rest s

def handlePromote (s : Server) (c : Ptr) (args : Option Bytes) : Option (Response × Server) :=
  match s.clientMem c with
  | none => none
  | some cl =>
      if cl.userId = -1 then some (sendError statusErrAuth (ascii "Login required"), s)
      else if authCheckPermission cl.role .promote = false then
        some (sendError statusErrForbidden
          (ascii "Permission denied. Only admins can promote."), s)
      else
        let tr := scanPair 31 15 args
        if tr.1 = [] ∨ tr.2 = [] then
          some (sendError statusErrNotFound (ascii "Target username and role required"), s)
        else if strcaseeq tr.2 (ascii "MODERATOR") = false ∧ strcaseeq tr.2 (ascii "USER") = false ∧
            strcaseeq tr.2 (ascii "ADMIN") = false then
          some (sendError statusErrConflict
            (ascii "Invalid role (must be ADMIN, MODERATOR, or USER)"), s)
        else
          let p := authPromoteUser (s.wrote.headD userRecordSize) s.users tr.1 (upperCase tr.2)
          let s₁ := { s with users := p.2, wrote := s.wrote.tail }
          if p.1 then
            (promoteLoop tr.1 (roleOfName (upperCase tr.2)) (List.finRange maxClients) s₁).map
              fun s₂ => (sendOk (ascii "User promoted successfully") [], s₂)
          else some (sendError statusErrNotFound (ascii "Target user not found"), s₁)

/-! ### Rooms -/

def handleCreateRoom (env : Env) (s : Server) (c : Ptr) (args : Option Bytes) :
    Option (Response × Server) :=
  match s.clientMem c with
  | none => none
  | some cl =>
      if cl.userId = -1 then some (sendError statusErrAuth (ascii "Login required"), s)
      else if authCheckPermission cl.role .create = false then
        some (sendError statusErrForbidden (ascii "Insufficient permissions to create room"), s)
      else
        let np := scanPair 31 63 args
        if np.1 = [] then some (sendError statusErrNotFound (ascii "Room name required"), s)
        else
          (roomCreate env s np.1 np.2).map fun r =>
            (if r.1 = -1 then
                sendError statusErrConflict (ascii "Room with this name already exists")
              else if r.1 = -2 then sendError statusErrFull (ascii "Maximum room limit reached")
              else if r.1 = -3 then
                sendError statusErrInternal (ascii "Failed to create room due to server error")
              else if r.1 = -4 then
                sendError statusErrInternal (ascii "Failed to write room to database")
              else sendOk (ascii "Room created successfully") [],
              r.2)

/-- The response of `handle_join_room` to the result of `room_join`; `r` is the
room that was found by name, which success reads once more. -/
def joinResponse (s : Server) (r : Ptr) (result : Int) : Option Response :=
  if result = -1 then
    some (sendError statusErrInternal (ascii "Failed to join room due to server error"))
  else if result = -2 then some (sendError statusErrNotFound (ascii "Room not found"))
  else if result = -3 then some (sendError statusErrForbidden (ascii "Incorrect password"))
  else if result = -4 then some (sendError statusErrFull (ascii "Room is full"))
  else (s.roomMem r).map fun rm => sendOk (ascii "Joined room successfully") rm.roomName

def handleJoinRoom (s : Server) (c : Ptr) (args : Option Bytes) : Option (Response × Server) :=
  match s.clientMem c with
  | none => none
  | some cl =>
      if cl.userId = -1 then some (sendError statusErrAuth (ascii "Login required"), s)
      else
        let np := scanPair 31 63 args
        if np.1 = [] then some (sendError statusErrNotFound (ascii "Room name required"), s)
        else
          match roomFindByName s np.1 with
          | none => none
          | some none => some (sendError statusErrNotFound (ascii "Room not found"), s)
          | some (some r) =>
              match s.roomMem r with
              | none => none
              | some rm =>
                  match roomJoin s rm.roomId np.2 c with
                  | none => none
                  | some j => (joinResponse j.2 r j.1).map fun resp => (resp, j.2)

def handleLeaveRoom (s : Server) (c : Ptr) : Option (Response × Server) :=
  match s.clientMem c with
  | none => none
  | some cl =>
      if cl.userId = -1 then some (sendError statusErrAuth (ascii "Login required"), s)
      else if cl.currentRoom = none then
        some (sendError statusErrNotFound (ascii "Not currently in a room"), s)
      else (roomLeave s c).map fun r => (sendOk (ascii "Left room successfully") [], r.2)

/-- `%-Ns`. -/
def padRight (n : Nat) (bs : Bytes) : Bytes := bs ++ List.replicate (n - bs.length) 32

/-- One row of the table of `room_list_formatted`. -/
def listRow (id name users isProtected : Bytes) : Bytes :=
  padRight 5 id ++ 32 :: padRight 20 name ++ 32 :: padRight 10 users ++ 32 :: isProtected ++ [10]

def roomRow (r : Room) : Bytes :=
  listRow (decimal r.roomId) r.roomName (decimal r.participantCount)
    (if r.password ≠ [] then ascii "Yes" else ascii "No")

/-- The loop of `room_list_formatted`; `text` is what the calls of `snprintf`
would have printed so far, of which the buffer holds the beginning. -/
def listLoop (s : Server) (bufferSize : Nat) : Nat → Option Ptr → Bytes → Option Bytes
  | 0, _, _ => none
  | _ + 1, none, text => some text
  | fuel + 1, some p, text =>
      if text.length < bufferSize - 1 then
        match s.roomMem p with
        | none => none
        | some r => listLoop s bufferSize fuel (s.roomNext p) (text ++ roomRow r)
      else some text

/-- `room_list_formatted`. -/
def roomListFormatted (s : Server) (bufferSize : Nat) : Option Bytes :=
  match s.roomHead with
  | none => some ((ascii "No active rooms").take (bufferSize - 1))
  | some _ =>
      (listLoop s bufferSize (maxRooms + 1) s.roomHead
        (listRow (ascii "ID") (ascii "Name") (ascii "Users") (ascii "Protected"))).map
        (·.take (bufferSize - 1))

def handleListRooms (s : Server) (c : Ptr) : Option (Response × Server) :=
  match s.clientMem c with
  | none => none
  | some cl =>
      if cl.userId = -1 then some (sendError statusErrAuth (ascii "Login required"), s)
      else
        (roomListFormatted s maxPacketSize).map fun text => (sendOk (ascii "Active rooms:") text, s)

/-! ### Moderation -/

/-- The first participant with a user name. -/
def findTarget (s : Server) (name : Bytes) : List Ptr → Option (Option Ptr)
  | [] => some none
  | p :: rest =>
      match s.clientMem p with
      | none => none
      | some cl => if cl.username = name then some (some p) else findTarget s name rest

/-- The checks `handle_kick` and `handle_mute` make before they look for their
target: a refusal, or the room, its address and the name. -/
def moderationTarget (s : Server) (cl : Client) (command : Command) (args : Option Bytes) :
    Option (Response ⊕ (Ptr × Room × Bytes)) :=
  if cl.userId = -1 then some (.inl (sendError statusErrAuth (ascii "Login required")))
  else if authCheckPermission cl.role command = false then
    some (.inl (sendError statusErrForbidden (ascii "Permission denied")))
  else
    match cl.currentRoom with
    | none => some (.inl (sendError statusErrNotFound (ascii "Not currently in a room")))
    | some p =>
        if scanName args = [] then
          some (.inl (sendError statusErrNotFound (ascii "Target username required")))
        else (s.roomMem p).map fun r => .inr (p, r, scanName args)

def handleKick (s : Server) (c : Ptr) (args : Option Bytes) : Option (Response × Server) :=
  match s.clientMem c with
  | none => none
  | some cl =>
      match moderationTarget s cl .kick args with
      | none => none
      | some (.inl resp) => some (resp, s)
      | some (.inr (_, r, name)) =>
          match findTarget s name r.members with
          | none => none
          | some none =>
              some (sendError statusErrNotFound (ascii "Target user not found in the room"), s)
          | some (some target) =>
              (roomLeave s target).map fun l => (sendOk (ascii "User kicked successfully") [], l.2)

def handleMute (s : Server) (c : Ptr) (args : Option Bytes) : Option (Response × Server) :=
  match s.clientMem c with
  | none => none
  | some cl =>
      match moderationTarget s cl .mute args with
      | none => none
      | some (.inl resp) => some (resp, s)
      | some (.inr (p, r, name)) =>
          match findTarget s name r.members with
          | none => none
          | some none =>
              some (sendError statusErrNotFound (ascii "Target user not found in the room"), s)
          | some (some target) =>
              match s.clientMem target with
              | none => none
              | some t =>
                  let muted := !t.isMute
                  some (sendOk
                      (if muted then ascii "User muted successfully"
                        else ascii "User unmuted successfully") [],
                    (s.setClient target { t with isMute := muted }).setRoom p
                      { r with
                        activeSpeakers :=
                          if muted then r.activeSpeakers - 1 else r.activeSpeakers + 1 })

def handleStatus (s : Server) (c : Ptr) : Option (Response × Server) :=
  match s.clientMem c with
  | none => none
  | some cl =>
      let room :=
        match cl.currentRoom with
        | none => some (ascii "None")
        | some p => (s.roomMem p).map Room.roomName
      room.map fun name =>
        (sendOk
          ((ascii "Username: " ++ cl.username ++ ascii " | Role: " ++ decimal cl.role.code
            ++ ascii " | Room: " ++ name ++ ascii " | Muted: "
            ++ (if cl.isMute then ascii "Yes" else ascii "No")).take 255) [], s)

/-! ### Dispatch -/

def isDelimiter (b : UInt8) : Bool := b == 32 || b == 10 || b == 13

/-- `strtok_r(command, " \n\r", &saveptr)` and `strtok_r(NULL, "", &saveptr)`. -/
def splitCommand (line : Bytes) : Option (Bytes × Option Bytes) :=
  let rest := (cstr line).dropWhile isDelimiter
  if rest = [] then none
  else
    let cmd := rest.takeWhile fun b => !isDelimiter b
    let args := rest.drop (cmd.length + 1)
    some (cmd, if args = [] then none else some args)

/-- The chain of comparisons in `worker_thread_main`. -/
def dispatch (env : Env) (s : Server) (c : Ptr) (cmd : Bytes) (args : Option Bytes) :
    Option (Response × Server) :=
  if strcaseeq cmd (ascii "LOGIN") then handleLogin s c args
  else if strcaseeq cmd (ascii "REGISTER") then handleRegister s c args
  else if strcaseeq cmd (ascii "LOGOUT") then handleLogout s c
  else if strcaseeq cmd (ascii "CREATE") then handleCreateRoom env s c args
  else if strcaseeq cmd (ascii "JOIN") then handleJoinRoom s c args
  else if strcaseeq cmd (ascii "LEAVE") then handleLeaveRoom s c
  else if strcaseeq cmd (ascii "LIST") then handleListRooms s c
  else if strcaseeq cmd (ascii "KICK") then handleKick s c args
  else if strcaseeq cmd (ascii "MUTE") then handleMute s c args
  else if strcaseeq cmd (ascii "STATUS") then handleStatus s c
  else if strcaseeq cmd (ascii "PROMOTE") then handlePromote s c args
  else some (sendError statusErrNotFound (ascii "Unknown command"), s)

/-- A task of the client at `c`, run by a worker to its end. -/
def runTask (env : Env) (s : Server) (c : Ptr) (line : Bytes) : Option (Option Response × Server) :=
  match s.clientMem c with
  | none => none
  | some cl =>
      if cl.isActive then
        match splitCommand line with
        | none => some (none, s.setClient c { cl with refCount := cl.refCount + 1 })
        | some (cmd, args) => (dispatch env s c cmd args).map fun r => (some r.1, r.2)
      else some (none, s)

/-! ### Connections -/

def fdMapSize : Nat := 4096

def newClient (fd : Nat) (slot : Fin maxClients) : Client where
  fd := fd
  slot := slot
  userId := -1
  username := []
  role := .guest
  currentRoom := none
  isMute := false
  isActive := true
  refCount := 1

/-- `accept_new_client` once `accept` has returned `fd`. -/
def acceptNewClient (env : Env) (s : Server) (fd : Nat) : Server :=
  if (maxClients : Int) ≤ s.clientCount then s
  else
    match (List.finRange maxClients).find? fun i => (s.clients i).isNone, env.malloc with
    | some slot, some c =>
        { s with
          clients := Function.update s.clients slot (some c)
          clientCount := s.clientCount + 1
          fdToSlot := if fd < fdMapSize then Function.update s.fdToSlot fd (some slot) else s.fdToSlot
          clientMem := Function.update s.clientMem c (some (newClient fd slot)) }
    | _, _ => s

/-- The end of `disconnect_client`: the slot is cleared and the client freed,
unless a task still holds it. -/
def Server.dropClient (s : Server) (fd : Nat) (slot : Fin maxClients) (c : Ptr) (cl : Client) :
    Server :=
  { s with
    clients := Function.update s.clients slot none
    clientCount := s.clientCount - 1
    fdToSlot := Function.update s.fdToSlot fd none
    clientMem := Function.update s.clientMem c
      (if cl.refCount - 1 = 0 then none
        else some { cl with isActive := false, refCount := cl.refCount - 1 }) }

/-- `disconnect_client`. -/
def disconnectClient (s : Server) (fd : Nat) : Option Server :=
  match (if fd < fdMapSize then s.fdToSlot fd else none) with
  | none => some s
  | some slot =>
      match s.clients slot with
      | none => some s
      | some c =>
          match s.clientMem c with
          | none => none
          | some cl =>
              if cl.fd = fd then
                match cl.currentRoom with
                | none => some (s.dropClient fd slot c cl)
                | some p => (removeClientFromRoom s p c).map fun s₁ => s₁.dropClient fd slot c cl
              else some s

/-! ### Steps -/

/-- The operations of the server. -/
inductive Op where
  | accept (fd : Nat)
  | disconnect (fd : Nat)
  | command (slot : Fin maxClients) (line : Bytes)

/-- One operation; a command for an empty slot is not processed. -/
def Server.step (s : Server) (o : Op × Env) : Option Server :=
  let s₀ := { s with wrote := o.2.wrote }
  match o.1 with
  | .accept fd => some (acceptNewClient o.2 s₀ fd)
  | .disconnect fd => disconnectClient s₀ fd
  | .command slot line =>
      match s₀.clients slot with
      | none => some s₀
      | some c => (runTask o.2 s₀ c line).map Prod.snd

end EchoLink
