import EchoLink.ServerState
import EchoLink.UserTable

/-!
# What a command can do

`Effect` lists what a command line processed for one client can do to the
server: eleven kinds of change, each with the check that the handler made
before it.  `runTask_effect` says that there is no other, and that a command
returns whenever the live rooms have different ids.  The theorems about
membership, about the room records and about privileges split on `Effect` and
do not look at the handlers.
-/

namespace EchoLink

open CText RecordFile LinkedList PackedArray TwoViews

/-- The live rooms have different ids. -/
def Server.IdsDistinct (s : Server) : Prop :=
  ∀ p q r r', s.roomMem p = some r → s.roomMem q = some r' → r.roomId = r'.roomId → p = q

/-- The client leaves its room, if it is in one. -/
def Leaves (s t : Server) (c : Ptr) (cl : Client) : Prop :=
  (cl.currentRoom = none ∧ t = s) ∨
    ∃ p r r', cl.currentRoom = some p ∧
      Removed (s.setClient c { cl with currentRoom := none }) t p c r r'

/-- Clients and rooms are the same, and so are the records. -/
structure Quiet (s t : Server) : Prop where
  roomMem : t.roomMem = s.roomMem
  clients : t.clients = s.clients
  clientMem : t.clientMem = s.clientMem
  records : SameRecords s t

/-- Some clients with a name have a new role. -/
def Promoted (s t : Server) : Prop :=
  ∀ d, t.clientMem d = s.clientMem d ∨
    ∃ dl role, s.Holds d dl ∧ dl.username ≠ [] ∧ t.clientMem d = some { dl with role := role }

/-- The line is a `LOGOUT` command. -/
def IsLogout (line : Bytes) : Prop :=
  ∃ cmd args, splitCommand line = some (cmd, args) ∧ strcaseeq cmd (ascii "LOGOUT") = true

/-- **What a command line can do** for the client `c`, whose record is `cl`. -/
inductive Effect (s : Server) (c : Ptr) (cl : Client) (line : Bytes) : Server → Prop
  | quiet {t : Server} (h : Quiet s t) (users : t.users.data = s.users.data) : Effect s c cl line t
  | blank : Effect s c cl line (s.setClient c { cl with refCount := cl.refCount + 1 })
  | login {u : Server} (name : Bytes) (role : Role) (out : cl.userId = -1) (h : Quiet s u)
      (users : u.users.data = s.users.data) :
      Effect s c cl line
        (u.setClient c { cl with userId := 0, username := name, role := role })
  | register {t : Server} (n : Nat) (name password : Bytes) (wrote : Nat) (out : cl.userId = -1)
      (h : Quiet s t) (users : t.users.data =
        s.users.data ++ (newUser n name password (ascii "USER")).encode.take wrote) :
      Effect s c cl line t
  | logout {u : Server} (h : IsLogout line) (leaves : Leaves s u c cl) :
      Effect s c cl line (u.setClient c
        { cl with userId := -1, username := [], role := .guest, currentRoom := none })
  | leave {t : Server} (leaves : Leaves s t c cl) : Effect s c cl line t
  | join {u t : Server} (p : Ptr) (r : Room) (inside : cl.userId ≠ -1) (leaves : Leaves s u c cl)
      (between : ∃ l, RoomsOk u l) (enters : Entered u t c p { cl with currentRoom := none } r) :
      Effect s c cl line t
  | create {t : Server} (p : Ptr) (name password : Bytes) (stack : RoomRecord)
      (allowed : authCheckPermission cl.role .create = true)
      (name_fits : FitsIn maxRoomNameLen name) (password_fits : FitsIn maxPasswordLen password)
      (creates : Created s t p name password stack) : Effect s c cl line t
  | kick {t : Server} (d : Ptr) (dl : Client) (allowed : authCheckPermission cl.role .kick = true)
      (target : s.Holds d dl) (leaves : Leaves s t d dl) : Effect s c cl line t
  | mute (d : Ptr) (dl : Client) (p : Ptr) (r : Room) (muted : Bool) (speakers : Int)
      (allowed : authCheckPermission cl.role .mute = true) (target : s.Holds d dl)
      (room : s.roomMem p = some r) :
      Effect s c cl line ((s.setClient d { dl with isMute := muted }).setRoom p
        { r with activeSpeakers := speakers })
  | promote {t : Server} (allowed : authCheckPermission cl.role .promote = true)
      (roomMem : t.roomMem = s.roomMem) (clients : t.clients = s.clients) (promoted : Promoted s t)
      (records : SameRecords s t) : Effect s c cl line t

/-- The outcome of a handler: the list of rooms is well formed and the change is
one of the above.  Only rooms with the same id can keep it from returning. -/
def Ends (s : Server) (c : Ptr) (cl : Client) (line : Bytes) (out : Option (Response × Server)) :
    Prop :=
  match out with
  | some (_, t) => (∃ l, RoomsOk t l) ∧ Effect s c cl line t
  | none => ¬ s.IdsDistinct

variable {s : Server} {l : List Ptr} {c : Ptr} {cl : Client} {line : Bytes}

theorem Quiet.refl (s : Server) : Quiet s s :=
  ⟨rfl, rfl, rfl, fun h => ⟨h, rfl⟩⟩

/-- A refusal. -/
theorem RoomsOk.ends_same (h : RoomsOk s l) (resp : Response) : Ends s c cl line (some (resp, s)) :=
  ⟨⟨l, h⟩, Effect.quiet (Quiet.refl s) rfl⟩

/-! ### Leaving a room -/

theorem Leaves.clientMem {t : Server} (h : Leaves s t c cl) (hc : s.Holds c cl) :
    t.clientMem = Function.update s.clientMem c (some { cl with currentRoom := none }) := by
  rcases h with ⟨hroom, rfl⟩ | ⟨p, r, r', _, hrem⟩
  · have hcl : { cl with currentRoom := none } = cl := by
      cases cl
      cases hroom
      rfl
    rw [hcl, ← hc.2, Function.update_eq_self]
  · exact hrem.clients.clientMem

theorem Leaves.clients {t : Server} (h : Leaves s t c cl) : t.clients = s.clients := by
  rcases h with ⟨_, rfl⟩ | ⟨p, r, r', _, hrem⟩
  · rfl
  · exact hrem.clients.clients

theorem Leaves.users {t : Server} (h : Leaves s t c cl) : t.users = s.users := by
  rcases h with ⟨_, rfl⟩ | ⟨p, r, r', _, hrem⟩
  · rfl
  · exact hrem.clients.users

theorem Leaves.holds {t : Server} (h : Leaves s t c cl) (hc : s.Holds c cl) :
    t.Holds c { cl with currentRoom := none } := by
  refine ⟨?_, ?_⟩
  · rw [h.clients]
    exact hc.1
  · rw [h.clientMem hc, Function.update_self]

theorem Leaves.serverOk {t : Server} {l' : List Ptr} (h : Leaves s t c cl) (hs : ServerOk s l)
    (hc : s.Holds c cl) (hok : RoomsOk t l') : ServerOk t l' := by
  rcases h with ⟨_, rfl⟩ | ⟨p, r, r', hp, hrem⟩
  · exact ⟨hok, hs.clients, hs.views⟩
  · exact hs.left hc hp hrem hok

/-- A room that is there afterwards was there before, with the same id. -/
theorem Leaves.room_of {t : Server} (h : Leaves s t c cl) {q : Ptr} {x : Room}
    (hx : t.roomMem q = some x) : ∃ y, s.roomMem q = some y ∧ y.roomId = x.roomId := by
  rcases h with ⟨_, rfl⟩ | ⟨p, r, r', _, hrem⟩
  · exact ⟨x, hx, rfl⟩
  · rw [hrem.roomMem] at hx
    by_cases hqp : q = p
    · subst hqp
      rw [Function.update_self] at hx
      split at hx
      · cases hx
      · rw [Option.some.injEq] at hx
        exact ⟨r, hrem.room, by rw [← hx, hrem.without.id]⟩
    · rw [Function.update_of_ne hqp] at hx
      exact ⟨x, hx, rfl⟩

/-- The room of a client lists it. -/
theorem ServerOk.in_room (h : ServerOk s l) (hc : s.Holds c cl) {p : Ptr}
    (hp : cl.currentRoom = some p) : ∃ r, s.roomMem p = some r ∧ c ∈ r.members := by
  obtain ⟨ms, hms, hmem⟩ := h.views.joined c p (by rw [hc.roomOf, hp])
  obtain ⟨r, hr, rfl⟩ := Option.map_eq_some_iff.mp hms
  exact ⟨r, hr, hmem⟩

/-- Whoever a room lists is in `clients[]` and in that room. -/
theorem ServerOk.of_member (h : ServerOk s l) {p : Ptr} {r : Room} (hr : s.roomMem p = some r)
    (hmem : c ∈ r.members) : ∃ cl, s.Holds c cl ∧ cl.currentRoom = some p :=
  roomOf_eq_some (h.views.member p _ c (ServerOk.membersOf_eq hr) hmem)

/-- **`room_leave`** of a client in a room. -/
theorem ServerOk.roomLeave (h : ServerOk s l) (hc : s.Holds c cl) (hroom : cl.currentRoom ≠ none) :
    ∃ t l', roomLeave s c = some (0, t) ∧ RoomsOk t l' ∧ Leaves s t c cl := by
  obtain ⟨p, hp⟩ := Option.ne_none_iff_exists'.mp hroom
  obtain ⟨r, hr, hmem⟩ := h.in_room hc hp
  obtain ⟨t, l', r', hleave, hok, _, hrem⟩ := h.rooms.roomLeave hc.2 hp hr hmem
  exact ⟨t, l', hleave, hok, Or.inr ⟨p, r, r', hp, hrem⟩⟩

/-! ### Accounts -/

theorem handleLogin_ends (h : RoomsOk s l) (hc : s.Holds c cl) (args : Option Bytes) :
    Ends s c cl line (handleLogin s c args) := by
  simp only [handleLogin, hc.2]
  split
  · exact h.ends_same _
  · rename_i hout
    have hout : cl.userId = -1 := by simpa using hout
    split
    · exact h.ends_same _
    · have hquiet : Quiet s { s with
          users := (authAuthenticate s.users (scanPair 31 63 args).1 (scanPair 31 63 args).2).2 } :=
        ⟨rfl, rfl, rfl, fun hw => ⟨hw, rfl⟩⟩
      have hok : ∀ u : Server, SameRooms s u → ∃ l, RoomsOk u l := fun u hu => ⟨l, h.of_same hu⟩
      have hdata := authAuthenticate_data s.users (scanPair 31 63 args).1 (scanPair 31 63 args).2
      split
      · exact ⟨hok _ ⟨rfl, rfl, rfl, rfl, rfl, rfl, rfl⟩, Effect.login _ _ hout hquiet hdata⟩
      · exact ⟨hok _ ⟨rfl, rfl, rfl, rfl, rfl, rfl, rfl⟩, Effect.quiet hquiet hdata⟩

theorem handleRegister_ends (h : RoomsOk s l) (hc : s.Holds c cl) (args : Option Bytes) :
    Ends s c cl line (handleRegister s c args) := by
  simp only [handleRegister, hc.2]
  split
  · exact h.ends_same _
  · rename_i hout
    have hout : cl.userId = -1 := by simpa using hout
    split
    · exact h.ends_same _
    · have hquiet : Quiet s { s with
          users := (authAddUser (s.wrote.headD userRecordSize) s.users (scanPair 31 63 args).1
            (scanPair 31 63 args).2 (ascii "USER")).2
          wrote := s.wrote.tail } :=
        ⟨rfl, rfl, rfl, fun hw => ⟨by simp [hw], rfl⟩⟩
      have heffect : Effect s c cl line { s with
          users := (authAddUser (s.wrote.headD userRecordSize) s.users (scanPair 31 63 args).1
            (scanPair 31 63 args).2 (ascii "USER")).2
          wrote := s.wrote.tail } := by
        rcases authAddUser_data (s.wrote.headD userRecordSize) s.users (scanPair 31 63 args).1
          (scanPair 31 63 args).2 (ascii "USER") with hdata | ⟨n, hdata⟩
        · exact Effect.quiet hquiet hdata
        · exact Effect.register n _ _ _ hout hquiet hdata
      have hok : ∀ u : Server, SameRooms s u → ∃ l, RoomsOk u l := fun u hu => ⟨l, h.of_same hu⟩
      split
      · exact ⟨hok _ ⟨rfl, rfl, rfl, rfl, rfl, rfl, rfl⟩, heffect⟩
      · exact ⟨hok _ ⟨rfl, rfl, rfl, rfl, rfl, rfl, rfl⟩, heffect⟩

theorem handleLogout_ends (h : ServerOk s l) (hc : s.Holds c cl) (hline : IsLogout line) :
    Ends s c cl line (handleLogout s c) := by
  simp only [handleLogout, hc.2]
  split
  · exact h.rooms.ends_same _
  · obtain ⟨u, l', hu, hok, hleaves⟩ : ∃ u l',
        (if cl.currentRoom = none then some s else (roomLeave s c).map Prod.snd) = some u ∧
          RoomsOk u l' ∧ Leaves s u c cl := by
      by_cases hroom : cl.currentRoom = none
      · exact ⟨s, l, if_pos hroom, h.rooms, Or.inl ⟨hroom, rfl⟩⟩
      · obtain ⟨u, l', hleave, hok, hleaves⟩ := h.roomLeave hc hroom
        exact ⟨u, l', by rw [if_neg hroom, hleave, Option.map_some], hok, hleaves⟩
    rw [hu]
    dsimp only
    rw [(hleaves.holds hc).2]
    exact ⟨⟨l', hok.setClient c _⟩, Effect.logout hline hleaves⟩

/-- The loop of `handle_promote` only changes roles. -/
theorem promoteLoop_promoted {target : Bytes} (htarget : target ≠ []) (role : Role)
    (is : List (Fin maxClients)) (h : ClientsOk s) :
    ∃ t, promoteLoop target role is s = some t ∧ SameRooms s t ∧ t.clients = s.clients ∧
      t.files = s.files ∧ Promoted s t := by
  induction is generalizing s with
  | nil => exact ⟨s, rfl, SameRooms.refl s, rfl, rfl, fun d => Or.inl rfl⟩
  | cons i is ih =>
      simp only [promoteLoop]
      cases hi : s.clients i with
      | none => exact ih h
      | some d =>
          obtain ⟨dl, hd, _, _⟩ := h.holds hi
          simp only [hd.2]
          split
          · rename_i hmatch
            have hname : dl.username ≠ [] := by
              rw [hmatch.2]
              exact htarget
            have hset : ClientsOk (s.setClient d { dl with role := role }) := by
              refine h.update hd rfl rfl rfl rfl ?_
              intro hid
              exact absurd (h.loggedOut d dl hd hid).2.1 hname
            obtain ⟨t, ht, hrooms, hclients, hfiles, hpromoted⟩ := ih hset
            refine ⟨t, ht, ⟨hrooms.mem, hrooms.next, hrooms.prev, hrooms.head, hrooms.count,
              hrooms.born, hrooms.created⟩, hclients, hfiles, ?_⟩
            intro e
            by_cases hed : e = d
            · subst hed
              have hnow : (s.setClient e { dl with role := role }).clientMem e =
                  some { dl with role := role } := by
                simp only [Server.setClient, Function.update_self]
              rcases hpromoted e with hsame | ⟨el, role', hel, _, hnew⟩
              · exact Or.inr ⟨dl, role, hd, hname, by rw [hsame, hnow]⟩
              · have hel' := hel.2
                rw [hnow, Option.some.injEq] at hel'
                exact Or.inr ⟨dl, role', hd, hname, by rw [hnew, ← hel']⟩
            · have hold : (s.setClient d { dl with role := role }).clientMem e = s.clientMem e := by
                simp only [Server.setClient, Function.update_of_ne hed]
              rcases hpromoted e with hsame | ⟨el, role', hel, hne, hnew⟩
              · exact Or.inl (by rw [hsame, hold])
              · exact Or.inr ⟨el, role', ⟨hel.1, by rw [← hold, hel.2]⟩, hne, hnew⟩
          · exact ih h

theorem handlePromote_ends (h : ServerOk s l) (hc : s.Holds c cl) (args : Option Bytes) :
    Ends s c cl line (handlePromote s c args) := by
  simp only [handlePromote, hc.2]
  split
  · exact h.rooms.ends_same _
  · split
    · exact h.rooms.ends_same _
    · rename_i hallowed
      have hallowed : authCheckPermission cl.role .promote = true := by simpa using hallowed
      split
      · exact h.rooms.ends_same _
      · rename_i hargs
        split
        · exact h.rooms.ends_same _
        · split
          · obtain ⟨t, ht, hrooms, hclients, hfiles, hpromoted⟩ :=
              promoteLoop_promoted (s := { s with
                users := (authPromoteUser (s.wrote.headD userRecordSize) s.users
                  (scanPair 31 15 args).1 (upperCase (scanPair 31 15 args).2)).2
                wrote := s.wrote.tail })
                (fun hnil => hargs (Or.inl hnil)) (roleOfName (upperCase (scanPair 31 15 args).2))
                (List.finRange maxClients) (h.clients.of_same rfl rfl)
            rw [ht]
            have hrooms' : SameRooms s t := ⟨hrooms.mem, hrooms.next, hrooms.prev, hrooms.head,
              hrooms.count, hrooms.born, hrooms.created⟩
            refine ⟨⟨l, h.rooms.of_same hrooms'⟩,
              Effect.promote hallowed hrooms'.mem hclients hpromoted ?_⟩
            intro hw
            obtain ⟨hdb, hwrote⟩ := Prod.mk.inj hfiles
            exact ⟨by rw [hwrote, hw]; rfl, by rw [hdb]⟩
          · exact ⟨⟨l, h.rooms.of_same ⟨rfl, rfl, rfl, rfl, rfl, rfl, rfl⟩⟩,
              Effect.promote hallowed rfl rfl (fun d => Or.inl rfl) fun hw => ⟨by simp [hw], rfl⟩⟩

/-! ### Rooms -/

/-- What `%Ns` stores is part of the text and at most `N` bytes long. -/
theorem strField_s (width : Nat) (fmt : List Directive) (xs : Bytes) :
    (strField (sscanf (.s width :: fmt) xs) 0).length ≤ width ∧
      ∀ b ∈ strField (sscanf (.s width :: fmt) xs) 0, b ∈ xs := by
  simp only [sscanf]
  split
  · exact ⟨Nat.zero_le _, fun b hb => absurd hb (by simp [strField])⟩
  · simp only [strField, List.getElem?_cons_zero]
    refine ⟨List.length_take_le _ _, ?_⟩
    intro b hb
    have htake := List.mem_of_mem_take hb
    have hwhile := (List.takeWhile_prefix _).subset htake
    exact (List.dropWhile_suffix _).subset hwhile

theorem strField_s_second (m n : Nat) (xs : Bytes) :
    (strField (sscanf [.s m, .ws, .s n] xs) 1).length ≤ n ∧
      ∀ b ∈ strField (sscanf [.s m, .ws, .s n] xs) 1, b ∈ xs := by
  rw [sscanf]
  split
  · exact ⟨Nat.zero_le _, fun b hb => absurd hb (by simp [strField])⟩
  · have hfield : ∀ (f : Field) (fs : List Field), strField (f :: fs) 1 = strField fs 0 := by
      intro f fs
      rw [strField, strField, List.getElem?_cons_succ]
    rw [hfield, sscanf]
    obtain ⟨hlen, hmem⟩ := strField_s n [] (((xs.dropWhile isSpace).drop
      (((xs.dropWhile isSpace).takeWhile fun b => !isSpace b).take m).length).dropWhile isSpace)
    refine ⟨hlen, ?_⟩
    intro b hb
    have hdrop := (List.dropWhile_suffix _).subset (hmem b hb)
    exact (List.dropWhile_suffix _).subset (List.mem_of_mem_drop hdrop)

/-- The two arguments of a command fit their arrays. -/
theorem scanPair_fits {args : Option Bytes} (hargs : ∀ a, args = some a → (0 : UInt8) ∉ a)
    (m n : Nat) : FitsIn (m + 1) (scanPair m n args).1 ∧ FitsIn (n + 1) (scanPair m n args).2 := by
  cases args with
  | none => exact ⟨⟨Nat.succ_pos m, by simp [scanPair]⟩, ⟨Nat.succ_pos n, by simp [scanPair]⟩⟩
  | some a =>
      obtain ⟨hlen, hmem⟩ := strField_s m [.ws, .s n] a
      obtain ⟨hlen', hmem'⟩ := strField_s_second m n a
      have h0 := hargs a rfl
      exact ⟨⟨Nat.lt_succ_of_le hlen, fun hz => h0 (hmem 0 hz)⟩,
        ⟨Nat.lt_succ_of_le hlen', fun hz => h0 (hmem' 0 hz)⟩⟩

theorem handleCreateRoom_ends (h : RoomsOk s l) (hc : s.Holds c cl) {env : Env} {args : Option Bytes}
    (hfresh : ∀ p, env.malloc = some p → s.roomMem p = none)
    (hargs : ∀ a, args = some a → (0 : UInt8) ∉ a) :
    Ends s c cl line (handleCreateRoom env s c args) := by
  simp only [handleCreateRoom, hc.2]
  split
  · exact h.ends_same _
  · split
    · exact h.ends_same _
    · rename_i hallowed
      have hallowed : authCheckPermission cl.role .create = true := by simpa using hallowed
      split
      · exact h.ends_same _
      · obtain ⟨hname, hpassword⟩ := scanPair_fits hargs 31 63
        obtain ⟨k, t, l', hcreate, hok, hclients, hcases⟩ := h.roomCreate hfresh hname.1 hpassword.1
        rw [hcreate]
        refine ⟨⟨l', hok⟩, ?_⟩
        rcases hcases with ⟨hmem, hrecords⟩ | ⟨p, hcreated⟩
        · exact Effect.quiet ⟨hmem, hclients.clients, hclients.clientMem, hrecords⟩ (by rw [hclients.users])
        · exact Effect.create p _ _ _ hallowed hname hpassword hcreated

/-- **`room_join`**: the client leaves its room, and then it enters the room it
asked for or is refused, but never because the room is full. -/
theorem ServerOk.roomJoin (h : ServerOk s l) (hc : s.Holds c cl) (roomId : Nat) (password : Bytes) :
    ∃ k t l' u, roomJoin s roomId password c = some (k, t) ∧ RoomsOk u l' ∧ RoomsOk t l' ∧
      Leaves s u c cl ∧
      ((t = u ∧ (k = -2 ∨ k = -3)) ∨
        (k = 0 ∧ ∃ p r, r.roomId = roomId ∧
          Entered u t c p { cl with currentRoom := none } r)) := by
  obtain ⟨u, l', hcode, hok, hleaves⟩ : ∃ u l',
      EchoLink.roomJoin s roomId password c = u.enter roomId password c ∧ RoomsOk u l' ∧
        Leaves s u c cl := by
    by_cases hroom : cl.currentRoom = none
    · refine ⟨s, l, ?_, h.rooms, Or.inl ⟨hroom, rfl⟩⟩
      simp only [EchoLink.roomJoin, hc.2, if_pos hroom]
    · obtain ⟨u, l', hleave, hok, hleaves⟩ := h.roomLeave hc hroom
      refine ⟨u, l', ?_, hok, hleaves⟩
      simp only [EchoLink.roomJoin, hc.2, if_neg hroom, hleave]
  have hcu := hleaves.holds hc
  obtain ⟨k, t, henter, hok', hcases⟩ := hok.enter hcu.2 roomId password
  refine ⟨k, t, l', u, by rw [hcode, henter], hok, hok', hleaves, ?_⟩
  rcases hcases with ⟨htu, hk | hk | ⟨_, p, r, hr, hfull⟩⟩ | ⟨hk, p, r, hid, hent⟩
  · exact Or.inl ⟨htu, Or.inl hk⟩
  · exact Or.inl ⟨htu, Or.inr hk⟩
  · have hcap := (hleaves.serverOk h hc hok).capacity hcu rfl hr
    omega
  · exact Or.inr ⟨hk, p, r, hid, hent⟩

theorem handleJoinRoom_ends (h : ServerOk s l) (hc : s.Holds c cl) (args : Option Bytes) :
    Ends s c cl line (handleJoinRoom s c args) := by
  simp only [handleJoinRoom, hc.2]
  split
  · exact h.rooms.ends_same _
  · rename_i hin
    split
    · exact h.rooms.ends_same _
    · cases hfind : roomFindByName s (scanPair 31 63 args).1 with
      | none =>
          rw [roomFindByName, h.rooms.findRoom] at hfind
          cases hfind
      | some found =>
          cases found with
          | none => exact h.rooms.ends_same _
          | some q =>
              obtain ⟨rm, hrm, _⟩ := h.rooms.findRoom_some hfind
              obtain ⟨k, t, l', u, hjoin, hmid, hok, hleaves, hcases⟩ :=
                h.roomJoin hc rm.roomId (scanPair 31 63 args).2
              simp only [hrm, hjoin]
              rcases hcases with ⟨rfl, rfl | rfl⟩ | ⟨rfl, p, r, hid, hent⟩
              · exact ⟨⟨l', hok⟩, Effect.leave hleaves⟩
              · exact ⟨⟨l', hok⟩, Effect.leave hleaves⟩
              · -- the room that was found by name is read once more
                have hresp : joinResponse t q 0 = (t.roomMem q).map fun rm =>
                    sendOk (ascii "Joined room successfully") rm.roomName := rfl
                rw [hresp]
                cases hq : t.roomMem q with
                | some rm' => exact ⟨⟨l', hok⟩, Effect.join p r hin hleaves ⟨l', hmid⟩ hent⟩
                | none =>
                    intro hids
                    obtain ⟨y, hy, hyid⟩ := hleaves.room_of hent.room
                    have hpq : p = q := hids p q y rm hy hrm (by rw [hyid, hid])
                    rw [← hpq, hent.roomMem, Function.update_self] at hq
                    cases hq

theorem handleLeaveRoom_ends (h : ServerOk s l) (hc : s.Holds c cl) :
    Ends s c cl line (handleLeaveRoom s c) := by
  simp only [handleLeaveRoom, hc.2]
  split
  · exact h.rooms.ends_same _
  · split
    · exact h.rooms.ends_same _
    · rename_i hroom
      obtain ⟨t, l', hleave, hok, hleaves⟩ := h.roomLeave hc hroom
      rw [hleave]
      exact ⟨⟨l', hok⟩, Effect.leave hleaves⟩

/-- The loop of `room_list_formatted` ends with the list. -/
theorem listLoop_isSome {before : Option Ptr} (bufferSize : Nat) {fuel : Nat} (text : Bytes)
    (hlinks : Segment s.roomNext s.roomPrev before l none)
    (hlive : ∀ q ∈ l, ∃ r, s.roomMem q = some r) (hfuel : l.length < fuel) :
    ∃ out, listLoop s bufferSize fuel l.head? text = some out := by
  induction l generalizing before fuel text with
  | nil =>
      obtain ⟨fuel, rfl⟩ : ∃ k, fuel = k + 1 := ⟨fuel - 1, by omega⟩
      exact ⟨text, rfl⟩
  | cons q l ih =>
      obtain ⟨fuel, rfl⟩ : ∃ k, fuel = k + 1 := ⟨fuel - 1, by omega⟩
      obtain ⟨r, hr⟩ := hlive q List.mem_cons_self
      have hnext : s.roomNext q = l.head? := by rw [hlinks.2.1, Option.or_none]
      simp only [List.head?_cons, listLoop, hr, hnext]
      split
      · simp only [List.length_cons] at hfuel
        exact ih _ hlinks.2.2 (fun q' hq' => hlive q' (List.mem_cons_of_mem _ hq')) (by omega)
      · exact ⟨text, rfl⟩

theorem handleListRooms_ends (h : RoomsOk s l) (hc : s.Holds c cl) :
    Ends s c cl line (handleListRooms s c) := by
  simp only [handleListRooms, hc.2]
  split
  · exact h.ends_same _
  · obtain ⟨text, htext⟩ : ∃ text, roomListFormatted s maxPacketSize = some text := by
      unfold roomListFormatted
      split
      · exact ⟨_, rfl⟩
      · rename_i hhead
        obtain ⟨out, hout⟩ := listLoop_isSome maxPacketSize
          (listRow (ascii "ID") (ascii "Name") (ascii "Users") (ascii "Protected")) h.linked.links
          (fun q hq => (h.live q).mp hq) (Nat.lt_succ_of_le h.bound)
        rw [h.linked.head_eq, hout]
        exact ⟨_, rfl⟩
    rw [htext]
    exact h.ends_same _

/-! ### Moderation -/

/-- The search for a target returns a participant with the name. -/
theorem findTarget_some (name : Bytes) {ms : List Ptr} (hms : ∀ d ∈ ms, ∃ dl, s.Holds d dl) :
    findTarget s name ms = some none ∨
      ∃ d dl, findTarget s name ms = some (some d) ∧ s.Holds d dl ∧ d ∈ ms := by
  induction ms with
  | nil => exact Or.inl rfl
  | cons d ms ih =>
      obtain ⟨dl, hdl⟩ := hms d List.mem_cons_self
      simp only [findTarget, hdl.2]
      split
      · exact Or.inr ⟨d, dl, rfl, hdl, List.mem_cons_self⟩
      · rcases ih fun e he => hms e (List.mem_cons_of_mem _ he) with hnone | ⟨e, el, hsome, hel, hmem⟩
        · exact Or.inl hnone
        · exact Or.inr ⟨e, el, hsome, hel, List.mem_cons_of_mem _ hmem⟩

/-- The checks that `handle_kick` and `handle_mute` share. -/
theorem moderationTarget_cases (h : ServerOk s l) (hc : s.Holds c cl) (command : Command)
    (args : Option Bytes) :
    (∃ resp, moderationTarget s cl command args = some (.inl resp)) ∨
      ∃ p r, moderationTarget s cl command args = some (.inr (p, r, scanName args)) ∧
        s.roomMem p = some r ∧ authCheckPermission cl.role command = true := by
  unfold moderationTarget
  split
  · exact Or.inl ⟨_, rfl⟩
  · split
    · exact Or.inl ⟨_, rfl⟩
    · rename_i hallowed
      have hallowed : authCheckPermission cl.role command = true := by simpa using hallowed
      split
      · exact Or.inl ⟨_, rfl⟩
      · rename_i p hp
        obtain ⟨r, hr, _⟩ := h.in_room hc hp
        split
        · exact Or.inl ⟨_, rfl⟩
        · exact Or.inr ⟨p, r, by rw [hr, Option.map_some], hr, hallowed⟩

theorem handleKick_ends (h : ServerOk s l) (hc : s.Holds c cl) (args : Option Bytes) :
    Ends s c cl line (handleKick s c args) := by
  simp only [handleKick, hc.2]
  rcases moderationTarget_cases h hc .kick args with ⟨resp, htarget⟩ | ⟨p, r, htarget, hr, hallowed⟩
  · rw [htarget]
    exact h.rooms.ends_same _
  · rw [htarget]
    dsimp only
    rcases findTarget_some (scanName args) (h.members_held hr) with hnone | ⟨d, dl, hsome, hd, hmem⟩
    · rw [hnone]
      exact h.rooms.ends_same _
    · rw [hsome]
      dsimp only
      have hroom : dl.currentRoom ≠ none := by
        obtain ⟨dl', hdl', hp⟩ := h.of_member hr hmem
        rw [hd.roomOf.symm, hdl'.roomOf, hp]
        simp
      obtain ⟨t, l', hleave, hok, hleaves⟩ := h.roomLeave hd hroom
      rw [hleave]
      exact ⟨⟨l', hok⟩, Effect.kick d dl hallowed hd hleaves⟩

theorem handleMute_ends (h : ServerOk s l) (hc : s.Holds c cl) (args : Option Bytes) :
    Ends s c cl line (handleMute s c args) := by
  simp only [handleMute, hc.2]
  rcases moderationTarget_cases h hc .mute args with ⟨resp, htarget⟩ | ⟨p, r, htarget, hr, hallowed⟩
  · rw [htarget]
    exact h.rooms.ends_same _
  · rw [htarget]
    dsimp only
    rcases findTarget_some (scanName args) (h.members_held hr) with hnone | ⟨d, dl, hsome, hd, hmem⟩
    · rw [hnone]
      exact h.rooms.ends_same _
    · rw [hsome]
      dsimp only
      rw [hd.2]
      refine ⟨⟨l, ?_⟩, Effect.mute d dl p r _ _ hallowed hd hr⟩
      have hset := h.rooms.setClient d { dl with isMute := !dl.isMute }
      exact hset.setRoom hr rfl rfl (h.rooms.packed p r hr) fun hne => hset.find_id hr hne

theorem handleStatus_ends (h : ServerOk s l) (hc : s.Holds c cl) :
    Ends s c cl line (handleStatus s c) := by
  simp only [handleStatus, hc.2]
  cases hp : cl.currentRoom with
  | none => exact h.rooms.ends_same _
  | some p =>
      obtain ⟨r, hr, _⟩ := h.in_room hc hp
      dsimp only
      rw [hr]
      exact h.rooms.ends_same _

/-! ### Commands -/

theorem ite_ends {b : Prop} [Decidable b] {x y : Option (Response × Server)}
    (hx : b → Ends s c cl line x) (hy : ¬ b → Ends s c cl line y) :
    Ends s c cl line (if b then x else y) := by
  by_cases hb : b
  · rw [if_pos hb]
    exact hx hb
  · rw [if_neg hb]
    exact hy hb

theorem splitCommand_args {cmd : Bytes} {args : Option Bytes} (h : splitCommand line = some (cmd, args)) :
    ∀ a, args = some a → (0 : UInt8) ∉ a := by
  rintro a rfl hzero
  simp only [splitCommand] at h
  split at h
  · cases h
  · simp only [Option.some.injEq, Prod.mk.injEq] at h
    obtain ⟨_, hargs⟩ := h
    split at hargs
    · cases hargs
    · rw [Option.some.injEq] at hargs
      rw [← hargs] at hzero
      have hdrop := (List.dropWhile_suffix _).subset (List.mem_of_mem_drop hzero)
      exact zero_not_mem_cstr line hdrop

theorem dispatch_ends (h : ServerOk s l) (hc : s.Holds c cl) {env : Env}
    (hfresh : ∀ p, env.malloc = some p → s.roomMem p = none) {cmd : Bytes} {args : Option Bytes}
    (hline : splitCommand line = some (cmd, args)) :
    Ends s c cl line (dispatch env s c cmd args) := by
  unfold dispatch
  refine ite_ends (fun _ => handleLogin_ends h.rooms hc args) fun _ => ?_
  refine ite_ends (fun _ => handleRegister_ends h.rooms hc args) fun _ => ?_
  refine ite_ends (fun hlogout => handleLogout_ends h hc ⟨cmd, args, hline, hlogout⟩) fun _ => ?_
  refine ite_ends (fun _ => handleCreateRoom_ends h.rooms hc hfresh (splitCommand_args hline))
    fun _ => ?_
  refine ite_ends (fun _ => handleJoinRoom_ends h hc args) fun _ => ?_
  refine ite_ends (fun _ => handleLeaveRoom_ends h hc) fun _ => ?_
  refine ite_ends (fun _ => handleListRooms_ends h.rooms hc) fun _ => ?_
  refine ite_ends (fun _ => handleKick_ends h hc args) fun _ => ?_
  refine ite_ends (fun _ => handleMute_ends h hc args) fun _ => ?_
  refine ite_ends (fun _ => handleStatus_ends h hc) fun _ => ?_
  refine ite_ends (fun _ => handlePromote_ends h hc args) fun _ => ?_
  exact h.rooms.ends_same _

/-- **Every command is one of the effects**: what a worker does with a command
line for a client in `clients[]`. -/
theorem runTask_effect (h : ServerOk s l) (hc : s.Holds c cl) (env : Env)
    (hfresh : ∀ p, env.malloc = some p → s.roomMem p = none) (line : Bytes) :
    match runTask env s c line with
    | some (_, t) => (∃ l, RoomsOk t l) ∧ Effect s c cl line t
    | none => ¬ s.IdsDistinct := by
  unfold runTask
  rw [hc.2]
  dsimp only
  rw [if_pos (h.clients.active hc)]
  cases hline : splitCommand line with
  | none => exact ⟨⟨l, h.rooms.setClient c _⟩, Effect.blank⟩
  | some parts =>
      obtain ⟨cmd, args⟩ := parts
      have hends := dispatch_ends h hc hfresh hline
      dsimp only
      cases hout : dispatch env s c cmd args with
      | none =>
          rw [hout] at hends
          exact hends
      | some out =>
          rw [hout] at hends
          exact hends

end EchoLink
