import EchoLink.RoomAgreement
import EchoLink.LockOrder

/-!
# The mutexes of the server

For each operation of the server the mutexes it locks and unlocks, in order,
when it runs alone on a given state: the functions of `room_manager.c`, the
command handlers, a round of a worker, what the epoll thread does for an event,
a tick of the mixer and a refresh of the console.  `log_message` is called from
most of them, also where only an error is logged; which calls fail, and how many
lines the database logs, is given with the operation (`Reports`).

`clients_mutex` is locked before `rooms_mutex`, that before the lock of a room,
and the log last.  No operation locks against this order, none holds the locks
of two rooms, and the other three mutexes are locked alone, so the server does
not deadlock (`no_deadlock`).
-/

namespace EchoLink

open CText RecordFile Runs Relation LockOrder

/-- The mutexes; every room has one. -/
inductive Mutex where
  | clients
  | rooms
  | room (p : Ptr)
  | jitter
  | ring
  | task
  | log
  deriving DecidableEq

/-- The order in which mutexes are locked. -/
def Mutex.rank : Mutex → Nat
  | .rooms => 1
  | .room _ => 2
  | .log => 3
  | _ => 0

abbrev Locks := List (Event Mutex)

/-- What the operation reports: the lines that `db_write_room` logs, where it
is called, and whether `send` fails. -/
structure Reports where
  countLines : Nat
  deleteLines : Nat
  joinLines : Nat
  createLines : Nat
  sendFails : Bool

/-! ### Logging and sending -/

/-- `log_message`. -/
def logMessageLocks : Locks := around .log []

/-- A number of calls of `log_message`. -/
def logLinesLocks (n : Nat) : Locks := (List.replicate n logMessageLocks).flatten

/-- `send_response`, `send_ok` and `send_error`. -/
def sendLocks (o : Reports) : Locks := if o.sendFails then logMessageLocks else []

/-! ### Rooms -/

/-- `room_find_by_name`, `room_find_by_id` and `room_list_formatted`. -/
def findLocks : Locks := around .rooms []

def roomCreateLocks (o : Reports) (env : Env) (s : Server) (name : Bytes) : Locks :=
  findLocks ++
    match roomFindByName s name, env.malloc with
    | some none, some _ =>
        if (maxRooms : Int) ≤ s.roomCount then []
        else
          logLinesLocks o.createLines ++
            (if s.wrote.headD roomRecordSize < roomRecordSize then []
              else around .rooms [] ++ logMessageLocks)
    | _, _ => []

def roomDeleteLocks (o : Reports) (s : Server) (roomId : Nat) : Locks :=
  around .rooms [] ++
    match roomFindById s roomId with
    | some (some _) => logLinesLocks o.deleteLines ++ logMessageLocks
    | _ => []

/-- What follows a removal from the room at `p`, which is `r` then. -/
def afterRemovalLocks (o : Reports) (s : Server) (p : Ptr) (r : Room) : Locks :=
  if r.participantCount = 0 then roomDeleteLocks o (s.setRoom p r) r.roomId else []

def roomLeaveLocks (o : Reports) (s : Server) (c : Ptr) : Locks :=
  match s.clientMem c with
  | none => []
  | some cl =>
      match cl.currentRoom with
      | none => []
      | some p =>
          match s.roomMem p with
          | none => []
          | some r =>
              around (.room p) [] ++ logLinesLocks o.countLines ++ logMessageLocks ++
                afterRemovalLocks o s p ((r.remove c cl.isMute).getD r)

def removeClientFromRoomLocks (o : Reports) (s : Server) (p c : Ptr) : Locks :=
  match s.roomMem p, s.clientMem c with
  | some r, some cl =>
      around (.room p) [] ++ logLinesLocks o.countLines ++
        afterRemovalLocks o s p ((r.remove c cl.isMute).getD r)
  | _, _ => []

/-- `room_join` after the client has left its room. -/
def enterLocks (o : Reports) (s : Server) (roomId : Nat) (password : Bytes) : Locks :=
  around .rooms [] ++
    match roomFindById s roomId with
    | some (some p) =>
        around (.room p) [] ++
          match s.roomMem p with
          | none => []
          | some r =>
              if (r.password ≠ [] ∧ r.password ≠ password) ∨ maxClients ≤ r.participantCount then []
              else logLinesLocks o.joinLines ++ logMessageLocks
    | _ => []

def roomJoinLocks (o : Reports) (s : Server) (roomId : Nat) (password : Bytes) (c : Ptr) : Locks :=
  match s.clientMem c with
  | none => []
  | some cl =>
      if cl.currentRoom = none then enterLocks o s roomId password
      else
        roomLeaveLocks o s c ++
          match roomLeave s c with
          | none => []
          | some l => enterLocks o l.2 roomId password

/-! ### Handlers -/

def handleLoginLocks (o : Reports) (s : Server) (cl : Client) (args : Option Bytes) : Locks :=
  if cl.userId ≠ -1 then sendLocks o
  else
    let up := scanPair 31 63 args
    if up.1 = [] ∨ up.2 = [] then sendLocks o
    else
      match (authAuthenticate s.users up.1 up.2).1 with
      | some _ => sendLocks o ++ logMessageLocks
      | none => sendLocks o

/-- `auth_add_user` logs its success and its failure to write. -/
def handleRegisterLocks (o : Reports) (s : Server) (cl : Client) (args : Option Bytes) : Locks :=
  if cl.userId ≠ -1 then sendLocks o
  else
    let up := scanPair 31 63 args
    if up.1 = [] ∨ up.2 = [] then sendLocks o
    else
      match (countUsers s.users up.1).1 with
      | .inr _ => sendLocks o
      | .inl _ => logMessageLocks ++ sendLocks o

def handleLogoutLocks (o : Reports) (s : Server) (c : Ptr) (cl : Client) : Locks :=
  if cl.userId = -1 then sendLocks o
  else roomLeaveLocks o s c ++ sendLocks o ++ logMessageLocks

def handleCreateRoomLocks (o : Reports) (env : Env) (s : Server) (cl : Client)
    (args : Option Bytes) : Locks :=
  if cl.userId = -1 then sendLocks o
  else if authCheckPermission cl.role .create = false then sendLocks o
  else if (scanPair 31 63 args).1 = [] then sendLocks o
  else roomCreateLocks o env s (scanPair 31 63 args).1 ++ sendLocks o

def handleJoinRoomLocks (o : Reports) (s : Server) (c : Ptr) (cl : Client) (args : Option Bytes) :
    Locks :=
  if cl.userId = -1 then sendLocks o
  else
    let np := scanPair 31 63 args
    if np.1 = [] then sendLocks o
    else
      findLocks ++
        (match roomFindByName s np.1 with
          | some (some r) =>
              match s.roomMem r with
              | some rm => roomJoinLocks o s rm.roomId np.2 c
              | none => []
          | _ => []) ++
        sendLocks o

def handleLeaveRoomLocks (o : Reports) (s : Server) (c : Ptr) (cl : Client) : Locks :=
  if cl.userId = -1 then sendLocks o
  else if cl.currentRoom = none then sendLocks o
  else roomLeaveLocks o s c ++ sendLocks o

def handleListRoomsLocks (o : Reports) (cl : Client) : Locks :=
  if cl.userId = -1 then sendLocks o else findLocks ++ sendLocks o

def handleKickLocks (o : Reports) (s : Server) (cl : Client) (args : Option Bytes) : Locks :=
  match moderationTarget s cl .kick args with
  | some (.inr (p, r, name)) =>
      around (.room p) [] ++
        match findTarget s name r.members with
        | some (some target) => roomLeaveLocks o s target ++ logMessageLocks ++ sendLocks o
        | _ => sendLocks o
  | _ => sendLocks o

/-- A mute is logged and answered with the room locked, a refusal without. -/
def handleMuteLocks (o : Reports) (s : Server) (cl : Client) (args : Option Bytes) : Locks :=
  match moderationTarget s cl .mute args with
  | some (.inr (p, r, name)) =>
      match findTarget s name r.members with
      | some (some _) => around (.room p) (logMessageLocks ++ sendLocks o)
      | _ => around (.room p) [] ++ sendLocks o
  | _ => sendLocks o

/-- `auth_promote_user` logs its success and its failure to write. -/
def handlePromoteLocks (o : Reports) (s : Server) (cl : Client) (args : Option Bytes) : Locks :=
  if cl.userId = -1 then sendLocks o
  else if authCheckPermission cl.role .promote = false then sendLocks o
  else
    let tr := scanPair 31 15 args
    if tr.1 = [] ∨ tr.2 = [] then sendLocks o
    else if strcaseeq tr.2 (ascii "MODERATOR") = false ∧ strcaseeq tr.2 (ascii "USER") = false ∧
        strcaseeq tr.2 (ascii "ADMIN") = false then sendLocks o
    else
      match (findUser s.users tr.1).1 with
      | .inl _ => sendLocks o
      | .inr _ =>
          logMessageLocks ++
            (if (authPromoteUser (s.wrote.headD userRecordSize) s.users tr.1 (upperCase tr.2)).1 then
              around .clients [] else []) ++
            sendLocks o

/-- The chain of comparisons in `worker_thread_main`. -/
def dispatchLocks (o : Reports) (env : Env) (s : Server) (c : Ptr) (cl : Client) (cmd : Bytes)
    (args : Option Bytes) : Locks :=
  if strcaseeq cmd (ascii "LOGIN") then handleLoginLocks o s cl args
  else if strcaseeq cmd (ascii "REGISTER") then handleRegisterLocks o s cl args
  else if strcaseeq cmd (ascii "LOGOUT") then handleLogoutLocks o s c cl
  else if strcaseeq cmd (ascii "CREATE") then handleCreateRoomLocks o env s cl args
  else if strcaseeq cmd (ascii "JOIN") then handleJoinRoomLocks o s c cl args
  else if strcaseeq cmd (ascii "LEAVE") then handleLeaveRoomLocks o s c cl
  else if strcaseeq cmd (ascii "LIST") then handleListRoomsLocks o cl
  else if strcaseeq cmd (ascii "KICK") then handleKickLocks o s cl args
  else if strcaseeq cmd (ascii "MUTE") then handleMuteLocks o s cl args
  else if strcaseeq cmd (ascii "PROMOTE") then handlePromoteLocks o s cl args
  else sendLocks o

/-! ### The threads -/

/-- The operations of the threads, with what they meet. -/
inductive ThreadOp where
  /-- `accept_new_client`; `accept` fails when there is no descriptor -/
  | accept (fd : Option Nat) (env : Env) (logged : Bool)
  /-- `handle_tcp_command`; no bytes mean that `recv` returned 0 or failed -/
  | receive (fd : Nat) (bytes : Bytes) (logged full : Bool)
  /-- `handle_udp_packet`; no packet means that `recvfrom` failed -/
  | datagram (packet : Option (Nat × Nat)) (logged full : Bool)
  /-- a round of `worker_thread_main` with `waits` calls of `pthread_cond_wait`;
  no task means that the server stops -/
  | work (waits : Nat) (task : Option (Ptr × Bytes)) (env : Env)
  /-- a tick of `mixer_thread_main`, with the senders of the packets it pops -/
  | tick (senders : List Nat)
  /-- a round of `display_thread_main` -/
  | refresh
  /-- a command on the emergency FIFO -/
  | emergency

/-- `accept_new_client`.  The epoll thread logs the rejection of a client and a
failing `malloc` under `clients_mutex`, and the new client after it. -/
def acceptNewClientLocks (env : Env) (s : Server) : Locks :=
  if (maxClients : Int) ≤ s.clientCount then around .clients logMessageLocks
  else
    match (List.finRange maxClients).find? fun i => (s.clients i).isNone, env.malloc with
    | none, _ => around .clients []
    | some _, none => around .clients logMessageLocks
    | some _, some _ => around .clients [] ++ logMessageLocks

/-- What `disconnect_client` does under `clients_mutex`. -/
def disconnectSection (o : Reports) (s : Server) (fd : Nat) : Locks :=
  match (if fd < fdMapSize then s.fdToSlot fd else none) with
  | none => []
  | some slot =>
      match s.clients slot with
      | none => []
      | some c =>
          match s.clientMem c with
          | none => []
          | some cl =>
              if cl.fd = fd then
                (match cl.currentRoom with
                  | none => []
                  | some p => removeClientFromRoomLocks o s p c) ++
                  logMessageLocks
              else []

def disconnectClientLocks (o : Reports) (s : Server) (fd : Nat) : Locks :=
  around .clients (disconnectSection o s fd)

/-- `process_client_command`. -/
def processClientCommandLocks (o : Reports) (full : Bool) : Locks :=
  around .task [] ++ if full then sendLocks o ++ around .clients [] else []

/-- `handle_tcp_command`; the end of a connection and an error are logged. -/
def handleTcpCommandLocks (o : Reports) (s : Server) (fd : Nat) (bytes : Bytes)
    (logged full : Bool) : Locks :=
  if bytes = [] then (if logged then logMessageLocks else []) ++ disconnectClientLocks o s fd
  else
    around .clients [] ++
      match (if fd < fdMapSize then s.fdToSlot fd else none).bind s.clients with
      | none => logMessageLocks
      | some _ => processClientCommandLocks o full

/-- `handle_udp_packet`, with the sender and the length of the payload. -/
def handleUdpPacketLocks (packet : Option (Nat × Nat)) (logged full : Bool) : Locks :=
  match packet with
  | none => if logged then logMessageLocks else []
  | some (sender, size) =>
      (if sender < maxClients then around .clients [] else []) ++
        if 0 < size then (if full then logMessageLocks else around .ring []) else []

/-- The wait of a worker for a task: `pthread_cond_wait` gives the mutex back
and takes it again. -/
def takeTaskLocks (waits : Nat) : Locks := (List.replicate (waits + 1) (around .task [])).flatten

/-- A round of `worker_thread_main`; a blank command skips the end of it. -/
def workLocks (o : Reports) (s : Server) (waits : Nat) (task : Option (Ptr × Bytes)) (env : Env) :
    Locks :=
  takeTaskLocks waits ++
    match task with
    | none => []
    | some (c, line) =>
        match s.clientMem c with
        | none => []
        | some cl =>
            if cl.isActive then
              match splitCommand line with
              | none => []
              | some (cmd, args) => dispatchLocks o env s c cl cmd args ++ around .clients []
            else around .clients []

/-- The packets that the mixer moves to the jitter buffers. -/
def drainLocks (senders : List Nat) : Locks :=
  senders.flatMap fun sender => around .ring [] ++ if sender < maxClients then around .jitter [] else []

/-- The loop over the rooms, with the room list locked. -/
def mixRoomsLocks (s : Server) : Nat → Option Ptr → Locks
  | 0, _ => []
  | _ + 1, none => []
  | fuel + 1, some p =>
      (match s.roomMem p with
        | some r => if 0 < r.participantCount then around (.room p) [] else []
        | none => []) ++
        mixRoomsLocks s fuel (s.roomNext p)

/-- The events of an operation, on the state it starts from. -/
def ThreadOp.locks (o : Reports) (s : Server) : ThreadOp → Locks
  | .accept none _ logged => if logged then logMessageLocks else []
  | .accept (some _) env _ => acceptNewClientLocks env s
  | .receive fd bytes logged full => handleTcpCommandLocks o s fd bytes logged full
  | .datagram packet logged full => handleUdpPacketLocks packet logged full
  | .work waits task env => workLocks o { s with wrote := env.wrote } waits task env
  | .tick senders => drainLocks senders ++ around .rooms (mixRoomsLocks s (maxRooms + 1) s.roomHead)
  | .refresh => around .rooms [] ++ around .clients []
  | .emergency => logMessageLocks

/-! ### Every operation keeps the order -/

variable {held : List Mutex} {o : Reports} {s : Server}

/-- Only `clients_mutex` and mutexes that are locked alone may be held. -/
def Low (held : List Mutex) : Prop := ∀ h ∈ held, h.rank = 0

theorem Low.nil : Low [] := by
  rintro h ⟨⟩

theorem Low.clients : Low [.clients] := by
  intro h hh
  rw [List.mem_singleton.mp hh]
  rfl

theorem Low.below (h : Low held) {m : Mutex} (hm : 0 < m.rank) : ∀ x ∈ held, x.rank < m.rank := by
  intro x hx
  rw [h x hx]
  exact hm

/-- A mutex is locked and unlocked at once. -/
theorem passes_empty {m : Mutex} (hm : ∀ h ∈ held, h.rank < m.rank) :
    Passes Mutex.rank held (around m []) := Passes.guarded hm Passes.nil

theorem passes_alone (m : Mutex) : Passes Mutex.rank [] (around m []) :=
  passes_empty (by rintro h ⟨⟩)

theorem passes_if {p : Prop} [Decidable p] {a b : Locks} (ha : Passes Mutex.rank held a)
    (hb : Passes Mutex.rank held b) : Passes Mutex.rank held (if p then a else b) := by
  split
  · exact ha
  · exact hb

theorem passes_flatten {parts : List Locks} (h : ∀ part ∈ parts, Passes Mutex.rank held part) :
    Passes Mutex.rank held parts.flatten := by
  induction parts with
  | nil => exact Passes.nil
  | cons part parts ih =>
      rw [List.flatten_cons]
      exact (h part List.mem_cons_self).append (ih fun q hq => h q (List.mem_cons_of_mem part hq))

theorem passes_logMessage (h : ∀ m ∈ held, m.rank < 3) : Passes Mutex.rank held logMessageLocks :=
  passes_empty h

theorem passes_logLines (h : ∀ m ∈ held, m.rank < 3) (n : Nat) :
    Passes Mutex.rank held (logLinesLocks n) := by
  refine passes_flatten ?_
  intro part hpart
  rw [List.eq_of_mem_replicate hpart]
  exact passes_logMessage h

theorem passes_send (h : ∀ m ∈ held, m.rank < 3) (o : Reports) :
    Passes Mutex.rank held (sendLocks o) := passes_if (passes_logMessage h) Passes.nil

/-! Rooms -/

theorem Low.log (h : Low held) : ∀ m ∈ held, m.rank < 3 := h.below (m := .log) (by decide)

theorem Low.rooms (h : Low held) : Passes Mutex.rank held (around .rooms []) :=
  passes_empty (h.below (by decide))

theorem Low.room (h : Low held) (p : Ptr) : Passes Mutex.rank held (around (.room p) []) :=
  passes_empty (h.below (by simp [Mutex.rank]))

theorem Low.roomCreate (h : Low held) (o : Reports) (env : Env) (s : Server) (name : Bytes) :
    Passes Mutex.rank held (roomCreateLocks o env s name) := by
  unfold roomCreateLocks
  refine h.rooms.append ?_
  split
  · refine passes_if Passes.nil ((passes_logLines h.log _).append (passes_if Passes.nil ?_))
    exact h.rooms.append (passes_logMessage h.log)
  · exact Passes.nil

theorem Low.roomDelete (h : Low held) (o : Reports) (s : Server) (roomId : Nat) :
    Passes Mutex.rank held (roomDeleteLocks o s roomId) := by
  unfold roomDeleteLocks
  refine h.rooms.append ?_
  split
  · exact (passes_logLines h.log _).append (passes_logMessage h.log)
  · exact Passes.nil

theorem Low.afterRemoval (h : Low held) (o : Reports) (s : Server) (p : Ptr) (r : Room) :
    Passes Mutex.rank held (afterRemovalLocks o s p r) :=
  passes_if (h.roomDelete o _ _) Passes.nil

theorem Low.roomLeave (h : Low held) (o : Reports) (s : Server) (c : Ptr) :
    Passes Mutex.rank held (roomLeaveLocks o s c) := by
  unfold roomLeaveLocks
  split
  · exact Passes.nil
  · split
    · exact Passes.nil
    · split
      · exact Passes.nil
      · refine Passes.append ?_ (h.afterRemoval o s _ _)
        exact ((h.room _).append (passes_logLines h.log _)).append (passes_logMessage h.log)

theorem Low.removeClientFromRoom (h : Low held) (o : Reports) (s : Server) (p c : Ptr) :
    Passes Mutex.rank held (removeClientFromRoomLocks o s p c) := by
  unfold removeClientFromRoomLocks
  split
  · exact ((h.room p).append (passes_logLines h.log _)).append (h.afterRemoval o s p _)
  · exact Passes.nil

theorem Low.enter (h : Low held) (o : Reports) (s : Server) (roomId : Nat) (password : Bytes) :
    Passes Mutex.rank held (enterLocks o s roomId password) := by
  unfold enterLocks
  refine h.rooms.append ?_
  split
  · refine (h.room _).append ?_
    split
    · exact Passes.nil
    · exact passes_if Passes.nil ((passes_logLines h.log _).append (passes_logMessage h.log))
  · exact Passes.nil

theorem Low.roomJoin (h : Low held) (o : Reports) (s : Server) (roomId : Nat) (password : Bytes)
    (c : Ptr) : Passes Mutex.rank held (roomJoinLocks o s roomId password c) := by
  unfold roomJoinLocks
  split
  · exact Passes.nil
  · refine passes_if (h.enter o s roomId password) ((h.roomLeave o s c).append ?_)
    split
    · exact Passes.nil
    · exact h.enter o _ roomId password

/-! Handlers -/

/-- **Every command** keeps the order. -/
theorem passes_dispatch (o : Reports) (env : Env) (s : Server) (c : Ptr) (cl : Client) (cmd : Bytes)
    (args : Option Bytes) : Passes Mutex.rank [] (dispatchLocks o env s c cl cmd args) := by
  have hsend : Passes Mutex.rank [] (sendLocks o) := passes_send Low.nil.log o
  have hlog : Passes Mutex.rank [] logMessageLocks := passes_logMessage Low.nil.log
  have hleave : ∀ d, Passes Mutex.rank [] (roomLeaveLocks o s d) := Low.nil.roomLeave o s
  have hlogin : Passes Mutex.rank [] (handleLoginLocks o s cl args) := by
    unfold handleLoginLocks
    refine passes_if hsend (passes_if hsend ?_)
    split
    · exact hsend.append hlog
    · exact hsend
  have hregister : Passes Mutex.rank [] (handleRegisterLocks o s cl args) := by
    unfold handleRegisterLocks
    refine passes_if hsend (passes_if hsend ?_)
    split
    · exact hsend
    · exact hlog.append hsend
  have hjoin : Passes Mutex.rank [] (handleJoinRoomLocks o s c cl args) := by
    unfold handleJoinRoomLocks
    refine passes_if hsend (passes_if hsend ?_)
    refine Passes.append (Low.nil.rooms.append ?_) hsend
    split
    · split
      · exact Low.nil.roomJoin o s _ _ c
      · exact Passes.nil
    · exact Passes.nil
  have hkick : Passes Mutex.rank [] (handleKickLocks o s cl args) := by
    unfold handleKickLocks
    split
    · refine (Low.nil.room _).append ?_
      split
      · exact ((hleave _).append hlog).append hsend
      · exact hsend
    · exact hsend
  have hmute : Passes Mutex.rank [] (handleMuteLocks o s cl args) := by
    unfold handleMuteLocks
    split
    · rename_i p r name _
      split
      · have hroom : ∀ m ∈ [Mutex.room p], m.rank < 3 := by
          intro m hm
          rw [List.mem_singleton.mp hm]
          simp [Mutex.rank]
        exact Passes.guarded (by rintro h ⟨⟩)
          ((passes_logMessage hroom).append (passes_send hroom o))
      · exact (Low.nil.room p).append hsend
    · exact hsend
  have hpromote : Passes Mutex.rank [] (handlePromoteLocks o s cl args) := by
    unfold handlePromoteLocks
    refine passes_if hsend (passes_if hsend (passes_if hsend (passes_if hsend ?_)))
    split
    · exact hsend
    · exact (hlog.append (passes_if (passes_alone .clients) Passes.nil)).append hsend
  have hlogout : Passes Mutex.rank [] (handleLogoutLocks o s c cl) :=
    passes_if hsend (((hleave c).append hsend).append hlog)
  have hcreate : Passes Mutex.rank [] (handleCreateRoomLocks o env s cl args) :=
    passes_if hsend (passes_if hsend (passes_if hsend ((Low.nil.roomCreate o env s _).append hsend)))
  have hleaveRoom : Passes Mutex.rank [] (handleLeaveRoomLocks o s c cl) :=
    passes_if hsend (passes_if hsend ((hleave c).append hsend))
  have hlist : Passes Mutex.rank [] (handleListRoomsLocks o cl) :=
    passes_if hsend (Low.nil.rooms.append hsend)
  unfold dispatchLocks
  exact passes_if hlogin (passes_if hregister (passes_if hlogout (passes_if hcreate
    (passes_if hjoin (passes_if hleaveRoom (passes_if hlist (passes_if hkick (passes_if hmute
      (passes_if hpromote hsend)))))))))

/-! Threads -/

theorem passes_accept (env : Env) (s : Server) : Passes Mutex.rank [] (acceptNewClientLocks env s) := by
  have hrefused : Passes Mutex.rank [] (around .clients logMessageLocks) :=
    Passes.guarded (by rintro h ⟨⟩) (passes_logMessage Low.clients.log)
  unfold acceptNewClientLocks
  refine passes_if hrefused ?_
  split
  · exact passes_alone .clients
  · exact hrefused
  · exact (passes_alone .clients).append (passes_logMessage Low.nil.log)

/-- A room may be left and deleted with `clients_mutex` held. -/
theorem passes_disconnect (o : Reports) (s : Server) (fd : Nat) :
    Passes Mutex.rank [] (disconnectClientLocks o s fd) := by
  refine Passes.guarded (by rintro h ⟨⟩) ?_
  unfold disconnectSection
  split
  · exact Passes.nil
  · split
    · exact Passes.nil
    · split
      · exact Passes.nil
      · refine passes_if (Passes.append ?_ (passes_logMessage Low.clients.log)) Passes.nil
        split
        · exact Passes.nil
        · exact Low.clients.removeClientFromRoom o s _ _

theorem passes_receive (o : Reports) (s : Server) (fd : Nat) (bytes : Bytes) (logged full : Bool) :
    Passes Mutex.rank [] (handleTcpCommandLocks o s fd bytes logged full) := by
  have hlog : Passes Mutex.rank [] logMessageLocks := passes_logMessage Low.nil.log
  unfold handleTcpCommandLocks
  refine passes_if ((passes_if hlog Passes.nil).append (passes_disconnect o s fd)) ?_
  refine (passes_alone .clients).append ?_
  split
  · exact hlog
  · refine (passes_alone .task).append (passes_if ?_ Passes.nil)
    exact (passes_send Low.nil.log o).append (passes_alone .clients)

theorem passes_datagram (packet : Option (Nat × Nat)) (logged full : Bool) :
    Passes Mutex.rank [] (handleUdpPacketLocks packet logged full) := by
  have hlog : Passes Mutex.rank [] logMessageLocks := passes_logMessage Low.nil.log
  unfold handleUdpPacketLocks
  split
  · exact passes_if hlog Passes.nil
  · refine (passes_if (passes_alone .clients) Passes.nil).append (passes_if ?_ Passes.nil)
    exact passes_if hlog (passes_alone .ring)

theorem passes_work (o : Reports) (s : Server) (waits : Nat) (task : Option (Ptr × Bytes)) (env : Env) :
    Passes Mutex.rank [] (workLocks o s waits task env) := by
  unfold workLocks
  refine Passes.append ?_ ?_
  · refine passes_flatten ?_
    intro part hpart
    rw [List.eq_of_mem_replicate hpart]
    exact passes_alone .task
  · split
    · exact Passes.nil
    · split
      · exact Passes.nil
      · refine passes_if ?_ (passes_alone .clients)
        split
        · exact Passes.nil
        · exact (passes_dispatch o env s _ _ _ _).append (passes_alone .clients)

theorem passes_mixRooms (s : Server) (fuel : Nat) (p : Option Ptr) :
    Passes Mutex.rank [.rooms] (mixRoomsLocks s fuel p) := by
  induction fuel generalizing p with
  | zero => exact Passes.nil
  | succ fuel ih =>
      cases p with
      | none => exact Passes.nil
      | some p =>
          refine Passes.append ?_ (ih _)
          split
          · refine passes_if (passes_empty ?_) Passes.nil
            intro h hh
            rw [List.mem_singleton.mp hh]
            simp [Mutex.rank]
          · exact Passes.nil

theorem passes_drain (senders : List Nat) : Passes Mutex.rank [] (drainLocks senders) := by
  unfold drainLocks
  rw [List.flatMap_def]
  refine passes_flatten ?_
  intro part hpart
  obtain ⟨sender, _, rfl⟩ := List.mem_map.mp hpart
  exact (passes_alone .ring).append (passes_if (passes_alone .jitter) Passes.nil)

/-- **Every operation** locks its mutexes in order. -/
theorem ThreadOp.ordered (o : Reports) (s : Server) (op : ThreadOp) :
    Ordered Mutex.rank [] (op.locks o s) := by
  refine Passes.ordered ?_
  have hlog : Passes Mutex.rank [] logMessageLocks := passes_logMessage Low.nil.log
  cases op with
  | accept fd env logged =>
      cases fd with
      | none => exact passes_if hlog Passes.nil
      | some fd => exact passes_accept env s
  | receive fd bytes logged full => exact passes_receive o s fd bytes logged full
  | datagram packet logged full => exact passes_datagram packet logged full
  | work waits task env => exact passes_work o _ waits task env
  | tick senders =>
      exact (passes_drain senders).append
        (Passes.guarded (by rintro h ⟨⟩) (passes_mixRooms s _ _))
  | refresh => exact Low.nil.rooms.append (passes_alone .clients)
  | emergency => exact hlog

/-! ### Any number of threads -/

/-- The state is reached by operations one at a time. -/
def ServerReachable (s : Server) : Prop :=
  ∃ db users ops, Along Server.step Fresh (Server.start db users) ops ∧
    run Server.step (Server.start db users) ops = some s

/-- A thread starts an operation of the server, as it runs on a reachable state. -/
def Performs {ι : Type} (_ : State ι Mutex) : Move ι Mutex → Prop
  | .start _ events => ∃ s o op, ServerReachable s ∧ events = ThreadOp.locks o s op
  | .next _ => True

/-- No thread is about to lock a mutex that it holds, none holds a mutex between
two operations, and none waits for itself through others. -/
structure NoDeadlock {ι : Type} (s : State ι Mutex) : Prop where
  no_relock : ∀ i m rest, s.rest i = .lock m :: rest → s.holder m ≠ some i
  released : ∀ i, s.rest i = [] → ∀ m, s.holder m ≠ some i
  no_cycle : ∀ i, ¬ TransGen (WaitsFor s) i i

/-- **The lock order excludes deadlock**, for any number of threads and any
order of their steps. -/
theorem no_deadlock {ι : Type} [DecidableEq ι] (moves : List (Move ι Mutex))
    (h : Along State.step Performs (State.start : State ι Mutex) moves) :
    ∃ s, run State.step (State.start : State ι Mutex) moves = some s ∧ NoDeadlock s := by
  have hstarts : Along State.step (Starts Mutex.rank) (State.start : State ι Mutex) moves := by
    refine along_imp ?_ h
    intro s move hmove
    cases move with
    | next i => trivial
    | start i events =>
        obtain ⟨s, o, op, _, rfl⟩ := hmove
        exact op.ordered o s
  obtain ⟨s, hrun, held, hinv⟩ := run_inv hstarts
  exact ⟨s, hrun, fun i m rest => hinv.no_relock, fun i => hinv.released, hinv.no_cycle⟩

/-- Nothing fails. -/
def quietReports : Reports := ⟨0, 0, 0, 0, false⟩

/-- The mixer has the room list when the admin, alone in the lobby, hangs up. -/
def tickAndHangUp (s : Server) : List (Move Bool Mutex) :=
  [.start false ((ThreadOp.tick [0]).locks quietReports s),
    .start true ((ThreadOp.receive 5 [] true false).locks quietReports s)] ++
    List.replicate 5 (.next false) ++ List.replicate 6 (.next true)

/-- The thread that deletes the lobby waits for the mixer, and not the other way
round. -/
theorem no_deadlock_hangUp :
    ∃ s st, run Server.step (Server.start emptyDb startTable) (lobbyOps.take 5) = some s ∧
      run State.step State.start (tickAndHangUp s) = some st ∧ NoDeadlock st ∧
        WaitsFor st true false := by
  have hend : (run Server.step (Server.start emptyDb startTable) (lobbyOps.take 5)).map
      (fun s => (run State.step State.start (tickAndHangUp s)).map
        fun st => ((st.rest true).head?, st.holder .rooms)) =
      some (some (some (.lock .rooms), some false)) := by decide +kernel
  obtain ⟨s, hs, hmap⟩ := Option.map_eq_some_iff.mp hend
  obtain ⟨st, hst, hpair⟩ := Option.map_eq_some_iff.mp hmap
  obtain ⟨hhead, hholder⟩ := Prod.mk.inj hpair
  have hfresh : Along Server.step Fresh (Server.start emptyDb startTable) (lobbyOps.take 5) :=
    along_fresh (by decide +kernel)
  have hreach : ServerReachable s := ⟨emptyDb, startTable, _, hfresh, hs⟩
  have hnext : ∀ (n : Nat) (i : Bool) (u : State Bool Mutex) (moves : List (Move Bool Mutex)),
      (∀ u, Along State.step Performs u moves) →
        Along State.step Performs u (List.replicate n (.next i) ++ moves) := by
    intro n i u moves hmoves
    induction n generalizing u with
    | zero => exact hmoves u
    | succ n ih => exact ⟨trivial, fun u' _ => ih u'⟩
  have halong : Along State.step Performs State.start (tickAndHangUp s) := by
    refine ⟨⟨s, _, _, hreach, rfl⟩, fun u _ => ⟨⟨s, _, _, hreach, rfl⟩, fun u' _ => ?_⟩⟩
    refine hnext 5 false u' _ fun u => ?_
    have hlast := hnext 6 true u [] fun _ => trivial
    rw [List.append_nil] at hlast
    exact hlast
  obtain ⟨st', hst', hsafe⟩ := no_deadlock (tickAndHangUp s) halong
  rw [hst, Option.some.injEq] at hst'
  subst hst'
  refine ⟨s, st, hs, hst, hsafe, .rooms, (st.rest true).tail, ?_, hholder⟩
  exact (List.cons_head?_tail hhead).symm

end EchoLink
