import EchoLink.FileDb
import EchoLink.LinkedList
import EchoLink.PackedArray

/-!
# Clients, rooms and the room list

The memory of the server and `room_manager.c`.  Clients and rooms live on a
heap: an address that holds nothing was never allocated or has been freed, and
reading or writing there has no outcome (`none`).  The links of the room list
are kept apart from the other fields of `room`, so that a change of a link is
a change of `roomNext` or `roomPrev` alone.

A loop over the list has no outcome either when it takes more than
`MAX_ROOMS + 1` rounds.  What `malloc` returns and what an uninitialised
`room_record` holds come with the operation (`Env`), and so do the numbers of
bytes the record writes of the operation transfer; a write for which no number
is given transfers all of its bytes.

`born` and `created` belong to no C variable: they number the rooms in the
order of their creation.
-/

namespace EchoLink

open CText RecordFile LinkedList PackedArray

/-- An address on the heap. -/
abbrev Ptr := Nat

/-- `client`, without the UDP address. -/
structure Client where
  fd : Nat
  slot : Fin maxClients
  userId : Int
  username : Bytes
  role : Role
  currentRoom : Option Ptr
  isMute : Bool
  isActive : Bool
  refCount : Int

/-- `struct room`, without its links and its mutex. -/
structure Room where
  roomId : Nat
  roomName : Bytes
  password : Bytes
  participants : Nat → Option Ptr
  participantCount : Nat
  activeSpeakers : Int

/-- The participants in use, in order. -/
def Room.members (r : Room) : List Ptr := contents r.participants r.participantCount

/-- The globals of the server, its heap and its files. -/
structure Server where
  clients : Fin maxClients → Option Ptr
  clientCount : Int
  fdToSlot : Nat → Option (Fin maxClients)
  clientMem : Ptr → Option Client
  roomMem : Ptr → Option Room
  roomNext : Ptr → Option Ptr
  roomPrev : Ptr → Option Ptr
  roomHead : Option Ptr
  roomCount : Int
  db : FileDb
  users : File
  wrote : List Nat
  born : Ptr → Nat
  created : Nat

/-- The server after its initialisation, with its files open. -/
def Server.start (db : FileDb) (users : File) : Server where
  clients := fun _ => none
  clientCount := 0
  fdToSlot := fun _ => none
  clientMem := fun _ => none
  roomMem := fun _ => none
  roomNext := fun _ => none
  roomPrev := fun _ => none
  roomHead := none
  roomCount := 0
  db := db
  users := users
  wrote := []
  born := fun _ => 0
  created := 0

/-- What an operation meets: the result of `malloc`, the bytes of an
uninitialised `room_record`, and how much each record write transfers. -/
structure Env where
  malloc : Option Ptr
  stack : RoomRecord
  wrote : List Nat

/-! ### Memory and files -/

def Server.setRoom (s : Server) (p : Ptr) (r : Room) : Server :=
  { s with roomMem := Function.update s.roomMem p (some r) }

def Server.setClient (s : Server) (c : Ptr) (cl : Client) : Server :=
  { s with clientMem := Function.update s.clientMem c (some cl) }

def Server.freeRoom (s : Server) (p : Ptr) : Server :=
  { s with roomMem := Function.update s.roomMem p none }

/-- A new room, cleared by `memset`. -/
def Server.allocRoom (s : Server) (p : Ptr) (r : Room) : Server :=
  { s with
    roomMem := Function.update s.roomMem p (some r)
    roomNext := Function.update s.roomNext p none
    roomPrev := Function.update s.roomPrev p none }

/-- `db_write_room`. -/
def Server.writeRoom (s : Server) (roomId : Nat) (r : RoomRecord) : Bool × Server :=
  let w := dbWriteRoom (s.wrote.headD roomRecordSize) s.db roomId r
  (w.1, { s with db := w.2, wrote := s.wrote.tail })

/-- `rec.user_count = n` in the record of a room, if it has one. -/
def Server.persistCount (s : Server) (roomId n : Nat) : Server :=
  let rd := dbReadRoomRaw s.db roomId
  match rd.1 with
  | some rec' =>
      (Server.writeRoom { s with db := rd.2 } roomId { rec' with userCount := Int32.ofNat n }).2
  | none => { s with db := rd.2 }

/-- `rec.is_active = 0` in the record of a room, if it is active. -/
def Server.deactivate (s : Server) (roomId : Nat) : Server :=
  let rd := dbReadRoom s.db roomId
  match rd.1 with
  | some rec' => (Server.writeRoom { s with db := rd.2 } roomId { rec' with isActive := 0 }).2
  | none => { s with db := rd.2 }

/-! ### The room list -/

/-- The first room of the list that passes a test. -/
def Server.findRoom (s : Server) (test : Room → Bool) : Option (Option Ptr) :=
  walk s.roomNext (fun p => (s.roomMem p).map test) (maxRooms + 1) s.roomHead

/-- `room_find_by_name`. -/
def roomFindByName (s : Server) (name : Bytes) : Option (Option Ptr) :=
  s.findRoom fun r => r.roomName = name

/-- `room_find_by_id`, also the searches of `room_join` and `room_delete`. -/
def roomFindById (s : Server) (roomId : Nat) : Option (Option Ptr) :=
  s.findRoom fun r => r.roomId = roomId

/-- The last room: the one without a successor. -/
def Server.lastRoom (s : Server) : Option (Option Ptr) :=
  walk s.roomNext (fun p => (s.roomMem p).map fun _ => (s.roomNext p).isNone) (maxRooms + 1)
    s.roomHead

/-- A room enters the list at its end. -/
def Server.linkRoom (s : Server) (p : Ptr) : Option Server :=
  match s.roomHead with
  | none =>
      some { s with
        roomHead := some p
        roomCount := s.roomCount + 1
        born := Function.update s.born p s.created
        created := s.created + 1 }
  | some _ =>
      match s.lastRoom with
      | some (some last) =>
          some { s with
            roomNext := Function.update s.roomNext last (some p)
            roomPrev := Function.update s.roomPrev p (some last)
            roomCount := s.roomCount + 1
            born := Function.update s.born p s.created
            created := s.created + 1 }
      | _ => none

/-- A room leaves the list; its neighbours have to be there. -/
def Server.unlinkRoom (s : Server) (p : Ptr) : Option Server :=
  if (s.roomPrev p).all (fun q => (s.roomMem q).isSome) ∧
      (s.roomNext p).all (fun q => (s.roomMem q).isSome) then
    some { s with
      roomNext := bypassNext s.roomNext s.roomPrev p
      roomPrev := bypassPrev s.roomNext s.roomPrev p
      roomHead := bypassHead s.roomNext s.roomPrev s.roomHead p
      roomCount := s.roomCount - 1 }
  else none

/-! ### `room_create` and `room_delete` -/

/-- The record `room_create` writes, in a variable that held `stack`. -/
def newRecord (stack : RoomRecord) (roomId : Nat) (name password : Bytes) : RoomRecord where
  roomId := Int32.ofNat roomId
  isActive := 1
  userCount := 0
  roomName := fit _ (strcpy stack.roomName.val name)
  password := fit _ (strcpy stack.password.val password)

def newRoom (roomId : Nat) (name password : Bytes) : Room where
  roomId := roomId
  roomName := name
  password := password
  participants := fun _ => none
  participantCount := 0
  activeSpeakers := 0

/-- `room_create`.  A name or password too long for its array has no outcome. -/
def roomCreate (env : Env) (s : Server) (name password : Bytes) : Option (Int × Server) :=
  match roomFindByName s name with
  | none => none
  | some (some _) => some (-1, s)
  | some none =>
      if (maxRooms : Int) ≤ s.roomCount then some (-2, s)
      else
        let free := dbNextFreeRoomId s.db
        match env.malloc with
        | none => some (-3, { s with db := free.2 })
        | some p =>
            if maxRoomNameLen ≤ name.length ∨ maxPasswordLen ≤ password.length then none
            else
              let s₁ := Server.allocRoom { s with db := free.2 } p (newRoom free.1 name password)
              let w := s₁.writeRoom free.1 (newRecord env.stack free.1 name password)
              if w.1 then (w.2.linkRoom p).map fun s₂ => ((free.1 : Int), s₂)
              else some (-4, w.2.freeRoom p)

/-- `room_delete`. -/
def roomDelete (s : Server) (roomId : Nat) : Option (Int × Server) :=
  match roomFindById s roomId with
  | none => none
  | some none => some (0, s)
  | some (some p) =>
      match s.unlinkRoom p with
      | none => none
      | some s₁ => some (1, (s₁.deactivate roomId).freeRoom p)

/-! ### Joining and leaving -/

/-- The loop that takes a client out of the participants, if it is there. -/
def Room.remove (r : Room) (c : Ptr) (isMute : Bool) : Option Room :=
  match indexOf r.participants r.participantCount c with
  | none => none
  | some i =>
      some { r with
        participants := shiftOut r.participants r.participantCount i
        participantCount := r.participantCount - 1
        activeSpeakers := if isMute then r.activeSpeakers else r.activeSpeakers - 1 }

def Room.add (r : Room) (c : Ptr) : Room :=
  { r with
    participants := put r.participants r.participantCount c
    participantCount := r.participantCount + 1 }

/-- What follows a removal: the count is stored, and an empty room is deleted. -/
def Server.afterRemoval (s : Server) (p : Ptr) : Option Server :=
  match s.roomMem p with
  | none => none
  | some r =>
      let s₁ := s.persistCount r.roomId r.participantCount
      if r.participantCount = 0 then (roomDelete s₁ r.roomId).map Prod.snd else some s₁

/-- `room_leave`. -/
def roomLeave (s : Server) (c : Ptr) : Option (Int × Server) :=
  match s.clientMem c with
  | none => none
  | some cl =>
      match cl.currentRoom with
      | none => some (-1, s)
      | some p =>
          match s.roomMem p with
          | none => none
          | some r =>
              let s₁ :=
                match r.remove c cl.isMute with
                | some r' => (s.setRoom p r').setClient c { cl with currentRoom := none }
                | none => s
              (s₁.afterRemoval p).map fun s₂ => (0, s₂)

/-- `remove_client_from_room`, which leaves `current_room` as it is. -/
def removeClientFromRoom (s : Server) (p c : Ptr) : Option Server :=
  match s.roomMem p, s.clientMem c with
  | some r, some cl =>
      match r.remove c cl.isMute with
      | some r' => (s.setRoom p r').afterRemoval p
      | none => s.afterRemoval p
  | _, _ => none

/-- `room_join` after the client has left its room. -/
def Server.enter (s : Server) (roomId : Nat) (password : Bytes) (c : Ptr) : Option (Int × Server) :=
  match roomFindById s roomId with
  | none => none
  | some none => some (-2, s)
  | some (some p) =>
      match s.roomMem p, s.clientMem c with
      | some r, some cl =>
          if r.password ≠ [] ∧ r.password ≠ password then some (-3, s)
          else if maxClients ≤ r.participantCount then some (-4, s)
          else
            let s₁ := (s.setRoom p (r.add c)).setClient c { cl with currentRoom := some p }
            some (0, s₁.persistCount roomId (r.participantCount + 1))
      | _, _ => none

/-- `room_join`. -/
def roomJoin (s : Server) (roomId : Nat) (password : Bytes) (c : Ptr) : Option (Int × Server) :=
  match s.clientMem c with
  | none => none
  | some cl =>
      if cl.currentRoom = none then s.enter roomId password c
      else
        match roomLeave s c with
        | none => none
        | some r => r.2.enter roomId password c

end EchoLink
