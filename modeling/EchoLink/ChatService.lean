import EchoLink.Handlers
import EchoLink.UserTable
import Mathlib.Order.Lattice.Nat

/-!
# The chat service

What the server is for, in terms of its users: accounts, sessions and rooms.
A session is a connection in its slot, with the account it is logged in as; a
room is a name, a password, a number and the sessions in it, in the order in
which they came.  There are no addresses, no links, no counters and no files
here, and nothing that could disagree: who is in which room is written down
once.

`Request` is what a user may ask for, `Answer` what it is told, and
`Chat.step` what the service does.  Room numbers are the least that are free;
`reserved` are those that are taken for good, which for the server are the
active records `rooms.bin` held when it started.
-/

namespace EchoLink

open CText

/-! ### The state -/

/-- The account a session is logged in as, with its role. -/
structure Login where
  user : Bytes
  role : Role
  deriving DecidableEq

structure Session where
  fd : Nat
  login : Option Login
  muted : Bool
  deriving DecidableEq

structure ChatRoom where
  name : Bytes
  password : Bytes
  roomId : Nat
  members : List (Fin maxClients)
  deriving DecidableEq

structure Chat where
  accounts : Accounts
  sessions : Fin maxClients → Option Session
  rooms : List ChatRoom

/-- No connections and no rooms. -/
def Chat.start (accounts : Accounts) : Chat := ⟨accounts, fun _ => none, []⟩

def Session.new (fd : Nat) : Session := ⟨fd, none, false⟩

/-- The name of a session, empty for a guest. -/
def Session.user (y : Session) : Bytes := (y.login.map Login.user).getD []

def Session.role (y : Session) : Role := (y.login.map Login.role).getD .guest

/-! ### Requests and answers -/

inductive Request where
  | login (name password : Bytes)
  | register (name password : Bytes)
  | logout
  | create (name password : Bytes)
  | join (name password : Bytes)
  | leave
  | list
  | kick (target : Bytes)
  | mute (target : Bytes)
  | status
  | promote (target role : Bytes)
  | unknown

/-- The request of a command with its arguments. -/
def requestOf (cmd : Bytes) (args : Option Bytes) : Request :=
  if strcaseeq cmd (ascii "LOGIN") then .login (scanPair 31 63 args).1 (scanPair 31 63 args).2
  else if strcaseeq cmd (ascii "REGISTER") then .register (scanPair 31 63 args).1 (scanPair 31 63 args).2
  else if strcaseeq cmd (ascii "LOGOUT") then .logout
  else if strcaseeq cmd (ascii "CREATE") then .create (scanPair 31 63 args).1 (scanPair 31 63 args).2
  else if strcaseeq cmd (ascii "JOIN") then .join (scanPair 31 63 args).1 (scanPair 31 63 args).2
  else if strcaseeq cmd (ascii "LEAVE") then .leave
  else if strcaseeq cmd (ascii "LIST") then .list
  else if strcaseeq cmd (ascii "KICK") then .kick (scanName args)
  else if strcaseeq cmd (ascii "MUTE") then .mute (scanName args)
  else if strcaseeq cmd (ascii "STATUS") then .status
  else if strcaseeq cmd (ascii "PROMOTE") then .promote (scanPair 31 15 args).1 (scanPair 31 15 args).2
  else .unknown

/-- The request in a command line; there is none in a line without a command. -/
def parseRequest (line : Bytes) : Option Request := (splitCommand line).map fun p => requestOf p.1 p.2

inductive Answer where
  | alreadyLoggedIn
  | credentialsRequired
  | loggedIn (slot : Fin maxClients)
  | badCredentials
  | registered
  | nameTaken
  | notLoggedIn
  | loggedOut
  | loginRequired
  | cannotCreate
  | roomNameRequired
  | roomExists
  | tooManyRooms
  | outOfMemory
  | created
  | roomNotFound
  | wrongPassword
  | joined (name : Bytes)
  | notInRoom
  | left
  | roomList (rooms : List ChatRoom)
  | permissionDenied
  | targetRequired
  | targetNotInRoom
  | kicked
  | muted
  | unmuted
  | status (user : Bytes) (role : Role) (room : Option Bytes) (isMuted : Bool)
  | cannotPromote
  | targetAndRoleRequired
  | invalidRole
  | targetNotFound
  | promoted
  | unknownCommand

def ChatRoom.row (r : ChatRoom) : Bytes :=
  listRow (decimal r.roomId) r.name (decimal r.members.length)
    (if r.password ≠ [] then ascii "Yes" else ascii "No")

/-- The table of the rooms, as much of it as fits a packet. -/
def roomTable (rooms : List ChatRoom) : Bytes :=
  if rooms = [] then ascii "No active rooms"
  else
    (listRow (ascii "ID") (ascii "Name") (ascii "Users") (ascii "Protected")
      ++ rooms.flatMap ChatRoom.row).take (maxPacketSize - 1)

/-- How an answer is put. -/
def Answer.response : Answer → Response
  | .alreadyLoggedIn => sendError statusErrConflict (ascii "Already logged in")
  | .credentialsRequired => sendError statusErrAuth (ascii "Username and password required")
  | .loggedIn slot => sendOk (ascii "Login successful") (decimal slot)
  | .badCredentials => sendError statusErrAuth (ascii "Invalid username or password")
  | .registered => sendOk (ascii "Registration successful") []
  | .nameTaken => sendError statusErrConflict (ascii "Username already exists")
  | .notLoggedIn => sendError statusErrAuth (ascii "Not logged in")
  | .loggedOut => sendOk (ascii "Logout successful") []
  | .loginRequired => sendError statusErrAuth (ascii "Login required")
  | .cannotCreate => sendError statusErrForbidden (ascii "Insufficient permissions to create room")
  | .roomNameRequired => sendError statusErrNotFound (ascii "Room name required")
  | .roomExists => sendError statusErrConflict (ascii "Room with this name already exists")
  | .tooManyRooms => sendError statusErrFull (ascii "Maximum room limit reached")
  | .outOfMemory => sendError statusErrInternal (ascii "Failed to create room due to server error")
  | .created => sendOk (ascii "Room created successfully") []
  | .roomNotFound => sendError statusErrNotFound (ascii "Room not found")
  | .wrongPassword => sendError statusErrForbidden (ascii "Incorrect password")
  | .joined name => sendOk (ascii "Joined room successfully") name
  | .notInRoom => sendError statusErrNotFound (ascii "Not currently in a room")
  | .left => sendOk (ascii "Left room successfully") []
  | .roomList rooms => sendOk (ascii "Active rooms:") (roomTable rooms)
  | .permissionDenied => sendError statusErrForbidden (ascii "Permission denied")
  | .targetRequired => sendError statusErrNotFound (ascii "Target username required")
  | .targetNotInRoom => sendError statusErrNotFound (ascii "Target user not found in the room")
  | .kicked => sendOk (ascii "User kicked successfully") []
  | .muted => sendOk (ascii "User muted successfully") []
  | .unmuted => sendOk (ascii "User unmuted successfully") []
  | .status user role room isMuted =>
      sendOk
        ((ascii "Username: " ++ user ++ ascii " | Role: " ++ decimal role.code ++ ascii " | Room: "
          ++ room.getD (ascii "None") ++ ascii " | Muted: "
          ++ (if isMuted then ascii "Yes" else ascii "No")).take 255) []
  | .cannotPromote => sendError statusErrForbidden (ascii "Permission denied. Only admins can promote.")
  | .targetAndRoleRequired => sendError statusErrNotFound (ascii "Target username and role required")
  | .invalidRole =>
      sendError statusErrConflict (ascii "Invalid role (must be ADMIN, MODERATOR, or USER)")
  | .targetNotFound => sendError statusErrNotFound (ascii "Target user not found")
  | .promoted => sendOk (ascii "User promoted successfully") []
  | .unknownCommand => sendError statusErrNotFound (ascii "Unknown command")

/-! ### Sessions and rooms -/

def Chat.setSession (x : Chat) (i : Fin maxClients) (y : Option Session) : Chat :=
  { x with sessions := Function.update x.sessions i y }

/-- The room a session is in. -/
def Chat.roomOf (x : Chat) (i : Fin maxClients) : Option ChatRoom :=
  x.rooms.find? fun r => i ∈ r.members

def Chat.roomNamed (x : Chat) (name : Bytes) : Option ChatRoom := x.rooms.find? fun r => r.name = name

/-- The room when a session has left it; nothing stays of a room that was left
by the last one. -/
def ChatRoom.without (i : Fin maxClients) (r : ChatRoom) : Option ChatRoom :=
  if i ∈ r.members then
    if r.members.erase i = [] then none else some { r with members := r.members.erase i }
  else some r

def Chat.leave (x : Chat) (i : Fin maxClients) : Chat :=
  { x with rooms := x.rooms.filterMap (ChatRoom.without i) }

def ChatRoom.withMember (i : Fin maxClients) (r : ChatRoom) : ChatRoom :=
  { r with members := r.members ++ [i] }

def Chat.enter (x : Chat) (name : Bytes) (i : Fin maxClients) : Chat :=
  { x with rooms := x.rooms.map fun r => if r.name = name then r.withMember i else r }

/-- The least room number that is neither reserved nor in use. -/
noncomputable def Chat.nextId (reserved : Set Nat) (x : Chat) : Nat :=
  sInf { n | n ∉ reserved ∧ ∀ r ∈ x.rooms, r.roomId ≠ n }

/-- The first session of a room with a user name. -/
def Chat.target (x : Chat) (r : ChatRoom) (name : Bytes) : Option (Fin maxClients) :=
  r.members.find? fun j => (x.sessions j).any fun y => y.user = name

/-- The session after its account got a new role. -/
def Session.promoted (target : Bytes) (role : Role) (y : Session) : Session :=
  { y with login := y.login.map fun a => if a.user = target then { a with role := role } else a }

/-! ### What the service does -/

variable (x : Chat) (i : Fin maxClients) (me : Session)

def Chat.loginAs (name password : Bytes) : Answer × Chat :=
  if me.login.isSome then (.alreadyLoggedIn, x)
  else if name = [] ∨ password = [] then (.credentialsRequired, x)
  else
    match x.accounts name with
    | none => (.badCredentials, x)
    | some a =>
        if sha256Hash password = a.hash then
          (.loggedIn i,
            x.setSession i (some { me with login := some ⟨name, roleOfName a.role⟩ }))
        else (.badCredentials, x)

def Chat.register (name password : Bytes) : Answer × Chat :=
  if me.login.isSome then (.alreadyLoggedIn, x)
  else if name = [] ∨ password = [] then (.credentialsRequired, x)
  else if (x.accounts name).isSome then (.nameTaken, x)
  else
    (.registered, { x with
      accounts := Function.update x.accounts name (some ⟨sha256Hash password, ascii "USER"⟩) })

/-- A muted session stays muted. -/
def Chat.logout : Answer × Chat :=
  if me.login.isSome then (.loggedOut, (x.leave i).setSession i (some { me with login := none }))
  else (.notLoggedIn, x)

noncomputable def Chat.create (reserved : Set Nat) (memory : Bool) (name password : Bytes) :
    Answer × Chat :=
  if me.login.isSome = false then (.loginRequired, x)
  else if authCheckPermission me.role .create = false then (.cannotCreate, x)
  else if name = [] then (.roomNameRequired, x)
  else if (x.roomNamed name).isSome then (.roomExists, x)
  else if maxRooms ≤ x.rooms.length then (.tooManyRooms, x)
  else if memory = false then (.outOfMemory, x)
  else (.created, { x with rooms := x.rooms ++ [⟨name, password, x.nextId reserved, []⟩] })

/-- The session leaves its room first, and stays outside if the password is
wrong or if the room it asked for has ended with that. -/
def Chat.join (name password : Bytes) : Answer × Chat :=
  if me.login.isSome = false then (.loginRequired, x)
  else if name = [] then (.roomNameRequired, x)
  else if (x.roomNamed name).isNone then (.roomNotFound, x)
  else
    match (x.leave i).roomNamed name with
    | none => (.roomNotFound, x.leave i)
    | some r =>
        if r.password ≠ [] ∧ r.password ≠ password then (.wrongPassword, x.leave i)
        else (.joined name, (x.leave i).enter name i)

def Chat.leaveRoom : Answer × Chat :=
  if me.login.isSome = false then (.loginRequired, x)
  else if (x.roomOf i).isNone then (.notInRoom, x)
  else (.left, x.leave i)

def Chat.list : Answer × Chat :=
  if me.login.isSome = false then (.loginRequired, x) else (.roomList x.rooms, x)

/-- What `KICK` and `MUTE` check, before `act` is done to their target. -/
def Chat.moderate (command : Command) (name : Bytes) (act : Fin maxClients → Answer × Chat) :
    Answer × Chat :=
  if me.login.isSome = false then (.loginRequired, x)
  else if authCheckPermission me.role command = false then (.permissionDenied, x)
  else
    match x.roomOf i with
    | none => (.notInRoom, x)
    | some r =>
        if name = [] then (.targetRequired, x)
        else
          match x.target r name with
          | none => (.targetNotInRoom, x)
          | some j => act j

def Chat.kick (name : Bytes) : Answer × Chat := x.moderate i me .kick name fun j => (.kicked, x.leave j)

def Chat.toggleMute (j : Fin maxClients) : Answer × Chat :=
  match x.sessions j with
  | none => (.targetNotInRoom, x)
  | some y => (if y.muted then .unmuted else .muted, x.setSession j (some { y with muted := !y.muted }))

def Chat.mute (name : Bytes) : Answer × Chat := x.moderate i me .mute name x.toggleMute

def Chat.status : Answer × Chat :=
  (.status me.user me.role ((x.roomOf i).map ChatRoom.name) me.muted, x)

def Chat.promote (target role : Bytes) : Answer × Chat :=
  if me.login.isSome = false then (.loginRequired, x)
  else if authCheckPermission me.role .promote = false then (.cannotPromote, x)
  else if target = [] ∨ role = [] then (.targetAndRoleRequired, x)
  else if strcaseeq role (ascii "MODERATOR") = false ∧ strcaseeq role (ascii "USER") = false ∧
      strcaseeq role (ascii "ADMIN") = false then (.invalidRole, x)
  else
    match x.accounts target with
    | none => (.targetNotFound, x)
    | some a =>
        (.promoted,
          { x with
            accounts := Function.update x.accounts target (some { a with role := upperCase role })
            sessions := fun j =>
              (x.sessions j).map (Session.promoted target (roleOfName (upperCase role))) })

/-- A request of the session `me` in the slot `i`. -/
noncomputable def Chat.serve (reserved : Set Nat) (memory : Bool) : Request → Answer × Chat
  | .login name password => x.loginAs i me name password
  | .register name password => x.register me name password
  | .logout => x.logout i me
  | .create name password => x.create me reserved memory name password
  | .join name password => x.join i me name password
  | .leave => x.leaveRoom i me
  | .list => x.list me
  | .kick target => x.kick i me target
  | .mute target => x.mute i me target
  | .status => x.status i me
  | .promote target role => x.promote me target role
  | .unknown => (.unknownCommand, x)

/-- A connection gets the first free slot, if there is one. -/
def Chat.connect (fd : Nat) (memory : Bool) : Chat :=
  match (List.finRange maxClients).find? fun j => (x.sessions j).isNone with
  | some j => if memory then x.setSession j (some (Session.new fd)) else x
  | none => x

/-- The slot of a connection. -/
def Chat.slotOf (fd : Nat) : Option (Fin maxClients) :=
  (List.finRange maxClients).find? fun j => (x.sessions j).any fun y => y.fd = fd

def Chat.disconnect (fd : Nat) : Chat :=
  match x.slotOf fd with
  | none => x
  | some j => (x.leave j).setSession j none

/-! ### Steps -/

/-- What happens to the service; `memory` says whether the system grants memory. -/
inductive ChatEvent where
  | connect (fd : Nat) (memory : Bool)
  | disconnect (fd : Nat)
  | command (slot : Fin maxClients) (line : Bytes) (memory : Bool)

/-- The responses, with the slots they are for, and the state afterwards. -/
noncomputable def Chat.step (reserved : Set Nat) (x : Chat) :
    ChatEvent → List (Fin maxClients × Response) × Chat
  | .connect fd memory => ([], x.connect fd memory)
  | .disconnect fd => ([], x.disconnect fd)
  | .command i line memory =>
      match x.sessions i, parseRequest line with
      | some me, some q =>
          ([(i, (x.serve i me reserved memory q).1.response)], (x.serve i me reserved memory q).2)
      | _, _ => ([], x)

end EchoLink
