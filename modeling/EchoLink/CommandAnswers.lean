import EchoLink.ServerChat
import EchoLink.RoomRecords
import EchoLink.RoleChanges

/-!
# The handlers answer as the service

Every command handler answers what the chat service answers, and leaves the
server in a state that shows as the service's next state (`Answers`, with one
lemma for each handler, and `dispatch_answers` for a whole command line).  The
handlers' own order of checks is the service's; what has to be shown is that
each search of the code finds what the service's finds, and that each change of
the linked structures is the service's change.
-/

namespace EchoLink

open CText RecordFile LinkedList PackedArray TwoViews PartialMap

/-- The outcome of a handler is the service's. -/
def Answers (s : Server) (out : Option (Response × Server)) (a : Answer × Chat) : Prop :=
  ∃ t, out = some (a.1.response, t) ∧ t.chat = a.2 ∧ (∃ rs, TableOk t.users.data rs) ∧ t.index = s.index

variable {s t u : Server} {l l' : List Ptr} {c p : Ptr} {cl cl' : Client} {r : Room} {rs : List UserRecord}
  {db₀ : FileDb}

/-! ### What the service sees of a change -/

/-- Only the accounts are others. -/
theorem chat_same (hrooms : SameRooms s t) (hclients : t.clients = s.clients)
    (hmem : t.clientMem = s.clientMem) :
    t.chat = { s.chat with accounts := accounts t.users.data } := by
  have hsession : t.session = s.session := by
    funext i
    rw [Server.session, Server.session, hclients, hmem]
  have hlist : t.roomList = s.roomList := by rw [Server.roomList, Server.roomList, hrooms.next, hrooms.head]
  simp only [Server.chat, hsession, hlist, hrooms.mem, chatRoom_congr hclients]

/-- One session is another. -/
theorem chat_setSession (h : ClientsOk s) (hc : s.Holds c cl) (hrooms : SameRooms s t)
    (hclients : t.clients = s.clients) (hmem : t.clientMem = Function.update s.clientMem c (some cl'))
    (hdata : t.users.data = s.users.data) : t.chat = s.chat.setSession cl.slot (some cl'.session) := by
  have hlist : t.roomList = s.roomList := by rw [Server.roomList, Server.roomList, hrooms.next, hrooms.head]
  simp only [Server.chat, Chat.setSession, hlist, hrooms.mem, chatRoom_congr hclients, hdata,
    session_update h hc hclients hmem]

theorem session_login (cl : Client) : cl.session.login.isSome = true ↔ cl.userId ≠ -1 := by
  by_cases hid : cl.userId = -1 <;> simp [Client.session, hid]

theorem session_login_none (cl : Client) : cl.session.login.isSome = false ↔ cl.userId = -1 := by
  by_cases hid : cl.userId = -1 <;> simp [Client.session, hid]

/-- A guest has no name and the role of a guest. -/
theorem ClientsOk.session_user (h : ClientsOk s) (hc : s.Holds c cl) :
    cl.session.user = cl.username ∧ cl.session.role = cl.role := by
  by_cases hid : cl.userId = -1
  · obtain ⟨hrole, hname, -⟩ := h.loggedOut c cl hc hid
    simp [Client.session, Session.user, Session.role, hid, hrole, hname]
  · simp [Client.session, Session.user, Session.role, hid]

/-- A refusal. -/
theorem answers_same {resp : Response} {a : Answer} (hu : TableOk s.users.data rs)
    (hresp : resp = a.response) : Answers s (some (resp, s)) (a, s.chat) :=
  ⟨s, by rw [hresp], rfl, ⟨rs, hu⟩, rfl⟩

/-! ### Accounts -/

theorem scanPair_length (args : Option Bytes) (m n : Nat) :
    (scanPair m n args).1.length ≤ m ∧ (scanPair m n args).2.length ≤ n := by
  cases args with
  | none => simp [scanPair]
  | some a => exact ⟨(strField_s m [.ws, .s n] a).1, (strField_s_second m n a).1⟩

theorem handleLogin_answers (h : ServerOk s l) (hc : s.Holds c cl) (hu : TableOk s.users.data rs)
    (args : Option Bytes) :
    Answers s (handleLogin s c args)
      (s.chat.loginAs cl.slot cl.session (scanPair 31 63 args).1 (scanPair 31 63 args).2) := by
  have hlen := (scanPair_length args 31 63).1
  obtain ⟨name, hname⟩ : ∃ name, name = (scanPair 31 63 args).1 := ⟨_, rfl⟩
  obtain ⟨password, hpassword⟩ : ∃ password, password = (scanPair 31 63 args).2 := ⟨_, rfl⟩
  have htake : name.take (maxUsernameLen - 1) = name := List.take_of_length_le (by rw [hname]; exact hlen)
  simp only [handleLogin, hc.2, Chat.loginAs, session_login, ← hname, ← hpassword]
  split
  · exact answers_same hu rfl
  · split
    · exact answers_same hu rfl
    · have hresult := (hu.authenticate name password).result
      have hdata := authAuthenticate_data s.users name password
      have hmap : s.chat.accounts name = accounts s.users.data name := rfl
      simp only [runCall, specCall] at hresult
      rw [hmap]
      generalize authAuthenticate s.users name password = out at hresult hdata ⊢
      obtain ⟨role, users'⟩ := out
      dsimp only at hresult hdata ⊢
      have hrefused : role = none → Answers s
          (some (sendError statusErrAuth (ascii "Invalid username or password"), { s with users := users' }))
          (.badCredentials, s.chat) := by
        intro _
        refine ⟨_, rfl, ?_, ⟨rs, hdata ▸ hu⟩, rfl⟩
        refine Eq.trans (chat_same (s := s) ⟨rfl, rfl, rfl, rfl, rfl, rfl, rfl⟩ rfl rfl) ?_
        rw [hdata]
        rfl
      cases ha : accounts s.users.data name with
      | none =>
          rw [ha] at hresult
          cases hresult
          exact hrefused rfl
      | some a =>
          rw [ha] at hresult
          dsimp only at hresult ⊢
          by_cases hhash : sha256Hash password = a.hash
          · rw [if_pos hhash] at hresult ⊢
            cases hresult
            refine ⟨_, rfl, ?_, ⟨rs, hdata ▸ hu⟩, rfl⟩
            refine Eq.trans (chat_setSession h.clients hc ⟨rfl, rfl, rfl, rfl, rfl, rfl, rfl⟩ rfl rfl hdata) ?_
            simp [Client.session, htake]
          · rw [if_neg hhash] at hresult ⊢
            cases hresult
            exact hrefused rfl

theorem handleRegister_answers (hw : s.wrote = []) (hc : s.Holds c cl) (hu : TableOk s.users.data rs)
    {args : Option Bytes} (hargs : ∀ a, args = some a → (0 : UInt8) ∉ a) :
    Answers s (handleRegister s c args)
      (s.chat.register cl.session (scanPair 31 63 args).1 (scanPair 31 63 args).2) := by
  obtain ⟨hfits, -⟩ := scanPair_fits hargs 31 63
  obtain ⟨name, hname⟩ : ∃ name, name = (scanPair 31 63 args).1 := ⟨_, rfl⟩
  obtain ⟨password, hpassword⟩ : ∃ password, password = (scanPair 31 63 args).2 := ⟨_, rfl⟩
  rw [← hname] at hfits
  simp only [handleRegister, hc.2, Chat.register, session_login, ← hname, ← hpassword, hw, List.headD_nil]
  split
  · exact answers_same hu rfl
  · split
    · exact answers_same hu rfl
    · have hrole : FitsIn maxRoleLen (ascii "USER") := ⟨by decide, by decide⟩
      have hcall : CallRefines s.users (.add name password (ascii "USER") true) := hu.add hfits hrole true
      have hresult := hcall.result
      have hmap := hcall.map
      have htable := hcall.table
      have haccounts : s.chat.accounts = accounts s.users.data := rfl
      simp only [runCall, specCall, transfers, if_true, and_true] at hresult hmap htable
      generalize authAddUser userRecordSize s.users name password (ascii "USER") = out at hresult hmap htable ⊢
      obtain ⟨ok, users'⟩ := out
      dsimp only at hresult hmap htable ⊢
      have hchat : Server.chat { s with users := users', wrote := [].tail } =
          { s.chat with accounts := accounts users'.data } :=
        chat_same (s := s) ⟨rfl, rfl, rfl, rfl, rfl, rfl, rfl⟩ rfl rfl
      rw [haccounts]
      cases ha : accounts s.users.data name with
      | none =>
          rw [ha, if_pos rfl] at hresult hmap
          cases hresult
          refine ⟨_, rfl, ?_, htable, rfl⟩
          rw [hchat, hmap]
          rfl
      | some a =>
          have hne : ¬ (some a : Option Account) = none := by simp
          rw [ha, if_neg hne] at hresult hmap
          cases hresult
          refine ⟨_, rfl, ?_, htable, rfl⟩
          rw [hchat, hmap]
          rfl

theorem handleLogout_answers (h : ServerOk s l) (hc : s.Holds c cl) (hu : TableOk s.users.data rs) :
    Answers s (handleLogout s c) (s.chat.logout cl.slot cl.session) := by
  simp only [handleLogout, hc.2, Chat.logout]
  by_cases hid : cl.userId = -1
  · have hlogin := (session_login_none cl).mpr hid
    rw [if_pos hid, hlogin]
    exact answers_same hu rfl
  · rw [if_neg hid, if_pos ((session_login cl).mpr hid)]
    obtain ⟨u, l', hcode, hok, hleaves, hborn⟩ : ∃ u l',
        (if cl.currentRoom = none then some s else (roomLeave s c).map Prod.snd) = some u ∧
          RoomsOk u l' ∧ Leaves s u c cl ∧ u.born = s.born := by
      by_cases hroom : cl.currentRoom = none
      · exact ⟨s, l, if_pos hroom, h.rooms, Or.inl ⟨hroom, rfl⟩, rfl⟩
      · obtain ⟨u, l', hleave, hok, hleaves⟩ := h.roomLeave hc hroom
        exact ⟨u, l', by rw [if_neg hroom, hleave, Option.map_some], hok, hleaves, roomLeave_born hleave⟩
    have hcu := hleaves.holds hc
    have hchat := hleaves.chat h hc hok hborn
    have hokU := hleaves.serverOk h hc hok
    rw [hcode]
    dsimp only
    rw [hcu.2]
    refine ⟨_, rfl, ?_, ⟨rs, by rw [← hleaves.users] at hu; exact hu⟩, ?_⟩
    · refine Eq.trans (chat_setSession hokU.clients hcu ⟨rfl, rfl, rfl, rfl, rfl, rfl, rfl⟩ rfl rfl rfl) ?_
      rw [hchat]
      rfl
    · rcases hleaves with ⟨_, rfl⟩ | ⟨p, r, r', _, hrem⟩
      · rfl
      · exact hrem.clients.index

/-! ### Rooms -/

theorem Leaves.index (h : Leaves s t c cl) : t.index = s.index := by
  rcases h with ⟨_, rfl⟩ | ⟨p, r, r', _, hrem⟩
  · rfl
  · exact hrem.clients.index

/-- The room numbers that are taken for good. -/
def reserved (db₀ : FileDb) : Set Nat := { k | ∃ rec', db₀.recordAt k = some rec' ∧ rec'.isActive ≠ 0 }

/-- **The number of a new room**: the first id without an active record is the
least that is neither reserved nor in use. -/
theorem RecordsOk.nextId (h : RecordsOk db₀ s) (hok : RoomsOk s l) :
    s.chat.nextId (reserved db₀) = (dbNextFreeRoomId s.db).1 := by
  obtain ⟨-, hfree, hbefore⟩ := dbNextFreeRoomId_first s.db
  generalize (dbNextFreeRoomId s.db).1 = k at hfree hbefore ⊢
  have hused : ∀ n, (∀ R ∈ s.chat.rooms, R.roomId ≠ n) ↔ ∀ q x, s.roomMem q = some x → x.roomId ≠ n := by
    intro n
    rw [hok.chat_rooms]
    constructor
    · intro hall q x hx
      exact hall (s.chatRoom x) (List.mem_filterMap.mpr ⟨q, hok.mem_of_room hx, by rw [hx, Option.map_some]⟩)
    · intro hall R hR
      obtain ⟨q, -, hq⟩ := List.mem_filterMap.mp hR
      obtain ⟨x, hx, rfl⟩ := Option.map_eq_some_iff.mp hq
      exact hall q x hx
  have hinfo : ∀ n, (∀ q x, s.roomMem q = some x → x.roomId ≠ n) →
      ∀ q i, s.roomInfo q = some i → i.roomId ≠ n := by
    intro n hall q i hi
    obtain ⟨x, hx, rfl⟩ := Option.map_eq_some_iff.mp hi
    exact hall q x hx
  have hk : k ∈ { n | n ∉ reserved db₀ ∧ ∀ R ∈ s.chat.rooms, R.roomId ≠ n } := by
    have hlive : ∀ q x, s.roomMem q = some x → x.roomId ≠ k := by
      rintro q x hx rfl
      obtain ⟨rec', hrec, hactive, -⟩ := h.record hx
      exact hactive (hfree rec' hrec)
    refine ⟨?_, (hused k).mpr hlive⟩
    rintro ⟨rec', hrec, hactive⟩
    exact hactive (hfree rec' ((h.kept k (hinfo k hlive) rec' hactive).mpr hrec))
  apply le_antisymm (Nat.sInf_le hk)
  by_contra hlt
  obtain ⟨hnot, hall⟩ := Nat.sInf_mem ⟨k, hk⟩
  obtain ⟨rec', hrec, hactive⟩ := hbefore _ (Nat.lt_of_not_le hlt)
  exact hnot ⟨rec', (h.kept _ (hinfo _ ((hused _).mp hall)) rec' hactive).mp hrec, hactive⟩

theorem RoomsOk.chat_rooms_length (h : RoomsOk s l) : s.chat.rooms.length = l.length := by
  rw [h.chat_rooms]
  apply List.filterMap_length_eq_length.mpr
  intro q hq
  obtain ⟨x, hx⟩ := (h.live q).mp hq
  rw [hx]
  rfl

/-- `room_create` with memory and a complete write. -/
theorem roomCreate_chat (h : RoomsOk s l) (hw : s.wrote = []) {env : Env} {name password : Bytes}
    (hfresh : ∀ p, env.malloc = some p → s.roomMem p = none) (hname : name.length < maxRoomNameLen)
    (hpassword : password.length < maxPasswordLen) (hfind : roomFindByName s name = some none)
    (hroom : ¬ (maxRooms : Int) ≤ s.roomCount) (hmalloc : env.malloc = some p) :
    ∃ (k : Nat) (t : Server), roomCreate env s name password = some ((k : Int), t) ∧ SameClients s t ∧
      t.chat = { s.chat with
        rooms := s.chat.rooms ++ [⟨name, password, (dbNextFreeRoomId s.db).1, []⟩] } := by
  obtain ⟨k, t, l', hcreate, hok, hclients, hcases⟩ := h.roomCreate hfresh hname hpassword
  have hfits : ¬ (maxRoomNameLen ≤ name.length ∨ maxPasswordLen ≤ password.length) := by omega
  have hcode := hcreate
  simp only [EchoLink.roomCreate, hfind, if_neg hroom, hmalloc, if_neg hfits] at hcode
  rw [if_pos (writeRoom_complete (by exact hw) _ _)] at hcode
  obtain ⟨v, hlink, hv⟩ := Option.map_eq_some_iff.mp hcode
  obtain ⟨rfl, rfl⟩ := Prod.mk.inj hv
  obtain ⟨hborn, hmem⟩ := linkRoom_born hlink
  have hnew : v.roomMem p = some (newRoom (dbNextFreeRoomId s.db).1 name password) := by
    rw [hmem]
    exact Function.update_self _ _ _
  refine ⟨_, v, hcreate, hclients, ?_⟩
  rcases hcases with ⟨hsame, -⟩ | ⟨q, hcre⟩
  · rw [hsame, hfresh p hmalloc] at hnew
    cases hnew
  · have hpq : p = q := by
      by_contra hne
      rw [hcre.roomMem, Function.update_of_ne hne, hfresh p hmalloc] at hnew
      cases hnew
    exact hcre.chat h hok (hpq ▸ hborn)

theorem handleCreateRoom_answers (h : ServerOk s l) (hrec : RecordsOk db₀ s) (hw : s.wrote = [])
    (hc : s.Holds c cl) (hu : TableOk s.users.data rs) {env : Env} {args : Option Bytes}
    (hfresh : ∀ p, env.malloc = some p → s.roomMem p = none)
    (hargs : ∀ a, args = some a → (0 : UInt8) ∉ a) :
    Answers s (handleCreateRoom env s c args)
      (s.chat.create cl.session (reserved db₀) env.malloc.isSome (scanPair 31 63 args).1
        (scanPair 31 63 args).2) := by
  obtain ⟨hname, hpassword⟩ := scanPair_fits hargs 31 63
  simp only [handleCreateRoom, hc.2, Chat.create, session_login_none, (h.clients.session_user hc).2]
  generalize (scanPair 31 63 args).1 = name at hname ⊢
  generalize (scanPair 31 63 args).2 = password at hpassword ⊢
  split
  · exact answers_same hu rfl
  · split
    · exact answers_same hu rfl
    · split
      · exact answers_same hu rfl
      · rcases h.rooms.roomFindByName name with ⟨hfind, -, hnamed⟩ | ⟨q, x, hfind, hx, -, hnamed⟩
        · have hcount : (maxRooms : Int) ≤ s.roomCount ↔ maxRooms ≤ s.chat.rooms.length := by
            rw [h.rooms.count, h.rooms.chat_rooms_length]
            exact Int.ofNat_le
          simp only [hnamed, Option.isSome_none, Bool.false_eq_true, if_false]
          by_cases hfull : (maxRooms : Int) ≤ s.roomCount
          · rw [if_pos (hcount.mp hfull)]
            simp only [roomCreate, hfind, if_pos hfull]
            exact answers_same hu rfl
          · rw [if_neg fun hle => hfull (hcount.mpr hle)]
            cases hmalloc : env.malloc with
            | none =>
                simp only [roomCreate, hfind, if_neg hfull, hmalloc]
                refine ⟨_, rfl, ?_, ⟨rs, hu⟩, rfl⟩
                exact chat_same ⟨rfl, rfl, rfl, rfl, rfl, rfl, rfl⟩ rfl rfl
            | some p =>
                obtain ⟨k, t, hcreate, hclients, hchat⟩ :=
                  roomCreate_chat h.rooms hw hfresh hname.1 hpassword.1 hfind hfull hmalloc
                have hk : ∀ n : Int, n < 0 → ¬ ((k : Int), t).1 = n := by
                  intro n hn hkn
                  dsimp only at hkn
                  omega
                have hmemory : ¬ (some p).isSome = false := by simp
                rw [hcreate, Option.map_some, if_neg (hk (-1) (by decide)), if_neg (hk (-2) (by decide)),
                  if_neg (hk (-3) (by decide)), if_neg (hk (-4) (by decide)), if_neg hmemory,
                  hrec.nextId h.rooms]
                exact ⟨t, rfl, hchat, ⟨rs, by rw [hclients.users]; exact hu⟩, hclients.index⟩
        · simp only [roomCreate, hfind, hnamed]
          exact answers_same hu rfl

/-- A room that is there afterwards was there before. -/
theorem Leaves.room_before (h : Leaves s t c cl) {q : Ptr} {x : Room} (hx : t.roomMem q = some x) :
    ∃ y, s.roomMem q = some y ∧ x.roomId = y.roomId ∧ x.roomName = y.roomName ∧ x.password = y.password := by
  rcases h with ⟨_, rfl⟩ | ⟨p, r, r', _, hrem⟩
  · exact ⟨x, hx, rfl, rfl, rfl⟩
  · rw [hrem.roomMem] at hx
    by_cases hqp : q = p
    · subst hqp
      rw [Function.update_self] at hx
      split at hx
      · cases hx
      · rw [Option.some.injEq] at hx
        rw [← hx]
        exact ⟨r, hrem.room, hrem.without.id, hrem.without.name, hrem.without.password⟩
    · rw [Function.update_of_ne hqp] at hx
      exact ⟨x, hx, rfl, rfl, rfl⟩

/-- `room_join` leaves first, and then goes on from there. -/
theorem ServerOk.join_leaves (h : ServerOk s l) (hc : s.Holds c cl) (roomId : Nat) (password : Bytes) :
    ∃ u l', EchoLink.roomJoin s roomId password c = u.enter roomId password c ∧ RoomsOk u l' ∧
      Leaves s u c cl ∧ u.born = s.born := by
  by_cases hroom : cl.currentRoom = none
  · refine ⟨s, l, ?_, h.rooms, Or.inl ⟨hroom, rfl⟩, rfl⟩
    simp only [EchoLink.roomJoin, hc.2, if_pos hroom]
  · obtain ⟨u, l', hleave, hok, hleaves⟩ := h.roomLeave hc hroom
    refine ⟨u, l', ?_, hok, hleaves, roomLeave_born hleave⟩
    simp only [EchoLink.roomJoin, hc.2, if_neg hroom, hleave]

/-- The second half of `room_join`, for a client in no room. -/
theorem enter_answers (h : ServerOk s l) (hids : s.IdsDistinct) (hc : s.Holds c cl)
    (hroom : cl.currentRoom = none) (roomId : Nat) (password : Bytes) :
    (s.enter roomId password c = some (-2, s) ∧ ∀ q x, s.roomMem q = some x → x.roomId ≠ roomId) ∨
      ∃ q x, s.roomMem q = some x ∧ x.roomId = roomId ∧
        ((x.password ≠ [] ∧ x.password ≠ password ∧ s.enter roomId password c = some (-3, s)) ∨
          (¬ (x.password ≠ [] ∧ x.password ≠ password) ∧ ∃ t l', s.enter roomId password c = some (0, t) ∧
            RoomsOk t l' ∧ Entered s t c q cl x)) := by
  obtain ⟨k, t, henter, hok, hcases⟩ := h.rooms.enter hc.2 roomId password
  cases hfind : roomFindById s roomId with
  | none =>
      rw [roomFindById, h.rooms.findRoom] at hfind
      cases hfind
  | some found =>
      cases found with
      | none =>
          refine Or.inl ⟨by simp only [Server.enter, hfind], ?_⟩
          intro q x hx
          exact of_decide_eq_false (h.rooms.findRoom_none hfind hx)
      | some q =>
          obtain ⟨x, hx, hid⟩ := h.rooms.findRoom_some hfind
          have hid : x.roomId = roomId := of_decide_eq_true hid
          refine Or.inr ⟨q, x, hx, hid, ?_⟩
          by_cases hpw : x.password ≠ [] ∧ x.password ≠ password
          · exact Or.inl ⟨hpw.1, hpw.2, by simp only [Server.enter, hfind, hx, hc.2, if_pos hpw]⟩
          · have hfull : ¬ maxClients ≤ x.participantCount := Nat.not_le_of_lt (h.capacity hc hroom hx)
            have hzero := henter
            simp only [Server.enter, hfind, hx, hc.2, if_neg hpw, if_neg hfull] at hzero
            obtain ⟨hk, -⟩ := Prod.mk.inj (Option.some.inj hzero)
            refine Or.inr ⟨hpw, t, l, by rw [hk]; exact henter, hok, ?_⟩
            rcases hcases with ⟨-, rfl | rfl | ⟨rfl, -⟩⟩ | ⟨-, q', x', hid', hent⟩
            · cases hk
            · cases hk
            · cases hk
            · obtain rfl : q' = q := hids q' q x' x hent.room hx (by rw [hid', hid])
              obtain rfl : x' = x := Option.some.inj (hent.room.symm.trans hx)
              exact hent

theorem handleJoinRoom_answers (h : ServerOk s l) (hrec : RecordsOk db₀ s) (hc : s.Holds c cl)
    (hu : TableOk s.users.data rs) (args : Option Bytes) :
    Answers s (handleJoinRoom s c args)
      (s.chat.join cl.slot cl.session (scanPair 31 63 args).1 (scanPair 31 63 args).2) := by
  simp only [handleJoinRoom, hc.2, Chat.join, session_login_none]
  generalize (scanPair 31 63 args).1 = name
  generalize (scanPair 31 63 args).2 = password
  split
  · exact answers_same hu rfl
  · split
    · exact answers_same hu rfl
    · rcases h.rooms.roomFindByName name with ⟨hfind, -, hnamed⟩ | ⟨q, rm, hfind, hrm, hname, hnamed⟩
      · simp only [hfind, hnamed]
        exact answers_same hu rfl
      · obtain ⟨u, l', hjoin, hok, hleaves, hborn⟩ := h.join_leaves hc rm.roomId password
        have hcu := hleaves.holds hc
        have hokU := hleaves.serverOk h hc hok
        have hchat := hleaves.chat h hc hok hborn
        have husers : TableOk u.users.data rs := by rw [hleaves.users]; exact hu
        have hids : u.IdsDistinct := by
          intro p p' x x' hx hx' hxx'
          obtain ⟨y, hy, hid, -⟩ := hleaves.room_before hx
          obtain ⟨y', hy', hid', -⟩ := hleaves.room_before hx'
          exact hrec.ids_distinct p p' y y' hy hy' (by rw [← hid, ← hid', hxx'])
        simp only [hfind, hrm, hnamed, hjoin, ← hchat, Option.isNone_some, Bool.false_eq_true, if_false]
        rcases enter_answers hokU hids hcu rfl rm.roomId password with
          ⟨henter, hno⟩ | ⟨p, x, hx, hid, hcases⟩
        · -- the room has ended with the client leaving it
          have hnone : u.chat.roomNamed name = none := by
            apply hok.roomNamed_none
            intro p x hx hxname
            obtain ⟨y, hy, hid, hyname, -⟩ := hleaves.room_before hx
            obtain rfl : p = q := h.rooms.names p q y rm hy hrm (by rw [← hyname, hxname, hname])
            rw [hrm, Option.some.injEq] at hy
            exact hno p x hx (by rw [hid, hy])
          rw [henter, hnone]
          exact ⟨u, rfl, rfl, ⟨rs, husers⟩, hleaves.index⟩
        · obtain ⟨y, hy, hyid, hyname, hypassword⟩ := hleaves.room_before hx
          obtain rfl : p = q := hrec.ids_distinct p q y rm hy hrm (by rw [← hyid, hid])
          rw [hrm, Option.some.injEq] at hy
          subst hy
          have hxname : x.roomName = name := by rw [hyname, hname]
          have hthere : u.chat.roomNamed name = some (u.chatRoom x) := by rw [← hxname, hok.roomNamed hx]
          have hpw : (u.chatRoom x).password = x.password := rfl
          rw [hthere]
          simp only [hpw]
          rcases hcases with ⟨hne, hwrong, henter⟩ | ⟨hright, t, l'', henter, hokT, hent⟩
          · rw [henter, if_pos ⟨hne, hwrong⟩]
            exact ⟨u, rfl, rfl, ⟨rs, husers⟩, hleaves.index⟩
          · obtain ⟨hborn', hindex⟩ := enter_kept henter
            have htchat := hent.chat hokU hcu hokT hborn'
            have hroom : t.roomMem p = some (x.add c) := by rw [hent.roomMem, Function.update_self]
            have hresp : joinResponse t p 0 = some (Answer.joined name).response := by
              have hsuccess : joinResponse t p 0 = (t.roomMem p).map fun rm =>
                  sendOk (ascii "Joined room successfully") rm.roomName := rfl
              rw [hsuccess, hroom, Option.map_some, ← hxname]
              rfl
            rw [henter, if_neg hright]
            dsimp only
            rw [hresp]
            refine ⟨t, rfl, ?_, ⟨rs, by rw [hent.users]; exact husers⟩, ?_⟩
            · rw [htchat, hxname]
            · rw [hindex, hleaves.index]

theorem handleLeaveRoom_answers (h : ServerOk s l) (hc : s.Holds c cl) (hu : TableOk s.users.data rs) :
    Answers s (handleLeaveRoom s c) (s.chat.leaveRoom cl.slot cl.session) := by
  simp only [handleLeaveRoom, hc.2, Chat.leaveRoom, session_login_none]
  split
  · exact answers_same hu rfl
  · cases hp : cl.currentRoom with
    | none =>
        rw [h.roomOf_none hc hp]
        exact answers_same hu rfl
    | some p =>
        obtain ⟨r, hr, -⟩ := h.in_room hc hp
        have hroom : cl.currentRoom ≠ none := by simp [hp]
        obtain ⟨t, l', hleave, hok, hleaves⟩ := h.roomLeave hc hroom
        rw [h.roomOf_some hc hp hr, if_neg (by simp), hleave]
        exact ⟨t, rfl, hleaves.chat h hc hok (roomLeave_born hleave),
          ⟨rs, by rw [hleaves.users]; exact hu⟩, hleaves.index⟩

theorem handleStatus_answers (h : ServerOk s l) (hc : s.Holds c cl) (hu : TableOk s.users.data rs) :
    Answers s (handleStatus s c) (s.chat.status cl.slot cl.session) := by
  obtain ⟨huser, hrole⟩ := h.clients.session_user hc
  simp only [handleStatus, hc.2, Chat.status, huser, hrole]
  cases hp : cl.currentRoom with
  | none =>
      rw [h.roomOf_none hc hp]
      exact answers_same hu rfl
  | some p =>
      obtain ⟨r, hr, -⟩ := h.in_room hc hp
      rw [h.roomOf_some hc hp hr]
      dsimp only
      rw [hr]
      exact answers_same hu rfl

/-! ### The list of the rooms -/

theorem ServerOk.chatRoom_row (h : ServerOk s l) (hr : s.roomMem p = some r) :
    (s.chatRoom r).row = roomRow r := by
  rw [ChatRoom.row, roomRow, h.members_length hr]
  rfl

/-- The loop may stop early, but not before the buffer is full. -/
theorem listLoop_take (bufferSize fuel : Nat) (text : Bytes) {before : Option Ptr}
    (hlinks : Segment s.roomNext s.roomPrev before l none) (hlive : ∀ q ∈ l, ∃ x, s.roomMem q = some x)
    (hfuel : l.length < fuel) :
    ∃ out, listLoop s bufferSize fuel l.head? text = some out ∧
      out.take (bufferSize - 1) =
        (text ++ (l.filterMap s.roomMem).flatMap roomRow).take (bufferSize - 1) := by
  induction l generalizing before fuel text with
  | nil =>
      obtain ⟨fuel, rfl⟩ : ∃ k, fuel = k + 1 := ⟨fuel - 1, by omega⟩
      exact ⟨text, rfl, by simp⟩
  | cons q l ih =>
      obtain ⟨fuel, rfl⟩ : ∃ k, fuel = k + 1 := ⟨fuel - 1, by omega⟩
      obtain ⟨x, hx⟩ := hlive q List.mem_cons_self
      have hnext : s.roomNext q = l.head? := by rw [hlinks.2.1, Option.or_none]
      rw [List.length_cons] at hfuel
      simp only [List.head?_cons, listLoop, hx, hnext]
      by_cases hspace : text.length < bufferSize - 1
      · obtain ⟨out, hout, htake⟩ := ih fuel (text ++ roomRow x) hlinks.2.2
          (fun q' hq' => hlive q' (List.mem_cons_of_mem q hq')) (Nat.lt_of_succ_lt_succ hfuel)
        refine ⟨out, by rw [if_pos hspace, hout], ?_⟩
        rw [htake, List.filterMap_cons_some hx, List.flatMap_cons, List.append_assoc]
      · refine ⟨text, by rw [if_neg hspace], ?_⟩
        rw [List.take_append_of_le_length (Nat.le_of_not_lt hspace)]

theorem ServerOk.roomListFormatted (h : ServerOk s l) :
    EchoLink.roomListFormatted s maxPacketSize = some (roomTable s.chat.rooms) := by
  have hlength := h.rooms.chat_rooms_length
  have hrows : s.chat.rooms.flatMap ChatRoom.row = (l.filterMap s.roomMem).flatMap roomRow := by
    rw [h.rooms.chat_rooms, ← List.map_filterMap, List.flatMap_map]
    have hmem : ∀ x ∈ l.filterMap s.roomMem, (s.chatRoom x).row = roomRow x := by
      intro x hx
      obtain ⟨q, -, hq⟩ := List.mem_filterMap.mp hx
      exact h.chatRoom_row hq
    exact List.flatMap_congr hmem
  unfold EchoLink.roomListFormatted roomTable
  cases hl : l with
  | nil =>
      have hhead : s.roomHead = none := by rw [h.rooms.linked.head_eq, hl]; rfl
      have hempty : s.chat.rooms = [] := List.eq_nil_of_length_eq_zero (by rw [hlength, hl]; rfl)
      rw [hhead, if_pos hempty]
      rfl
  | cons q l₁ =>
      have hhead : s.roomHead = some q := by rw [h.rooms.linked.head_eq, hl]; rfl
      have hne : s.chat.rooms ≠ [] := by
        intro hnil
        rw [hnil, hl] at hlength
        cases hlength
      obtain ⟨out, hout, htake⟩ := listLoop_take maxPacketSize (maxRooms + 1)
        (listRow (ascii "ID") (ascii "Name") (ascii "Users") (ascii "Protected"))
        h.rooms.linked.links (fun q' hq' => (h.rooms.live q').mp hq') (Nat.lt_succ_of_le h.rooms.bound)
      rw [← h.rooms.linked.head_eq] at hout
      rw [hhead, if_neg hne]
      dsimp only
      rw [← hhead, hout, Option.map_some, htake, hrows]

theorem handleListRooms_answers (h : ServerOk s l) (hc : s.Holds c cl) (hu : TableOk s.users.data rs) :
    Answers s (handleListRooms s c) (s.chat.list cl.session) := by
  simp only [handleListRooms, hc.2, Chat.list, session_login_none, h.roomListFormatted]
  split
  · exact answers_same hu rfl
  · exact answers_same hu rfl

/-! ### Moderation -/

/-- The search for a target by name is the one of the service. -/
theorem findTarget_chat (h : ServerOk s l) (name : Bytes) {ms : List Ptr} (hms : ∀ d ∈ ms, ∃ dl, s.Holds d dl) :
    (findTarget s name ms = some none ∧
        (ms.filterMap s.slotOf).find? (fun j => (s.session j).any fun y => y.user = name) = none) ∨
      ∃ d dl, findTarget s name ms = some (some d) ∧ s.Holds d dl ∧ d ∈ ms ∧
        (ms.filterMap s.slotOf).find? (fun j => (s.session j).any fun y => y.user = name) = some dl.slot := by
  induction ms with
  | nil => exact Or.inl ⟨rfl, rfl⟩
  | cons d ms ih =>
      obtain ⟨dl, hdl⟩ := hms d List.mem_cons_self
      have huser := (h.clients.session_user hdl).1
      simp only [findTarget, hdl.2, List.filterMap_cons_some (h.clients.slotOf hdl), List.find?_cons, hdl.session,
        Option.any_some, huser]
      by_cases hname : dl.username = name
      · right
        refine ⟨d, dl, by rw [if_pos hname], hdl, List.mem_cons_self, ?_⟩
        simp [hname]
      · rw [if_neg hname]
        simp only [hname, decide_false]
        rcases ih fun e he => hms e (List.mem_cons_of_mem _ he) with ⟨hfind, hnone⟩ | ⟨e, el, hfind, hel, hmem, hsome⟩
        · exact Or.inl ⟨hfind, hnone⟩
        · exact Or.inr ⟨e, el, hfind, hel, List.mem_cons_of_mem _ hmem, hsome⟩

/-- What follows the checks of `KICK` and `MUTE`, for the code and for the service. -/
theorem moderationTarget_answers (h : ServerOk s l) (hc : s.Holds c cl) (hu : TableOk s.users.data rs)
    (command : Command) (args : Option Bytes) (act : Fin maxClients → Answer × Chat)
    {next : Ptr × Room × Bytes → Option (Response × Server)}
    (hnext : ∀ p r, s.roomMem p = some r →
      (s.chat.target (s.chatRoom r) (scanName args) = none → Answers s (next (p, r, scanName args)) (.targetNotInRoom, s.chat)) ∧
        ∀ j, s.chat.target (s.chatRoom r) (scanName args) = some j →
          Answers s (next (p, r, scanName args)) (act j)) :
    Answers s
      ((moderationTarget s cl command args).bind (Sum.elim (fun resp => some (resp, s)) next))
      (s.chat.moderate cl.slot cl.session command (scanName args) act) := by
  simp only [moderationTarget, Chat.moderate, session_login_none, (h.clients.session_user hc).2]
  split
  · exact answers_same hu rfl
  · split
    · exact answers_same hu rfl
    · cases hp : cl.currentRoom with
      | none =>
          rw [h.roomOf_none hc hp]
          exact answers_same hu rfl
      | some p =>
          obtain ⟨r, hr, -⟩ := h.in_room hc hp
          rw [h.roomOf_some hc hp hr]
          dsimp only
          split
          · exact answers_same hu rfl
          · rw [hr, Option.map_some, Option.bind_some]
            obtain ⟨hnone, hsome⟩ := hnext p r hr
            cases htarget : s.chat.target (s.chatRoom r) (scanName args) with
            | none => exact hnone htarget
            | some j => exact hsome j htarget

theorem handleKick_answers (h : ServerOk s l) (hc : s.Holds c cl) (hu : TableOk s.users.data rs)
    (args : Option Bytes) :
    Answers s (handleKick s c args) (s.chat.kick cl.slot cl.session (scanName args)) := by
  have hcode : handleKick s c args = (moderationTarget s cl .kick args).bind
      (Sum.elim (fun resp => some (resp, s)) fun found =>
        (findTarget s found.2.2 found.2.1.members).bind fun target =>
          target.elim (some (sendError statusErrNotFound (ascii "Target user not found in the room"), s))
            fun d => (roomLeave s d).map fun left => (sendOk (ascii "User kicked successfully") [], left.2)) := by
    simp only [handleKick, hc.2]
    rcases moderationTarget s cl .kick args with _ | resp | ⟨p, r, name⟩
    · rfl
    · rfl
    · dsimp only
      rw [Option.bind_some, Sum.elim_inr]
      rcases findTarget s name r.members with _ | _ | d
      · rfl
      · rfl
      · rfl
  rw [hcode, Chat.kick]
  apply moderationTarget_answers h hc hu
  intro p r hr
  dsimp only
  rcases findTarget_chat h (scanName args) (h.members_held hr) with
    ⟨hfind, hnone⟩ | ⟨d, dl, hfind, hd, hmem, hsome⟩
  · have htarget : s.chat.target (s.chatRoom r) (scanName args) = none := hnone
    rw [hfind, htarget]
    refine ⟨fun _ => answers_same hu rfl, ?_⟩
    intro j hj
    cases hj
  · have htarget : s.chat.target (s.chatRoom r) (scanName args) = some dl.slot := hsome
    rw [hfind, htarget]
    refine ⟨fun hno => absurd hno (by simp), ?_⟩
    intro j hj
    obtain rfl : dl.slot = j := Option.some.inj hj
    have hroom : dl.currentRoom ≠ none := by
      have hin := h.views.member p _ d (ServerOk.membersOf_eq hr) hmem
      rw [hd.roomOf] at hin
      simp [hin]
    obtain ⟨t, l', hleave, hok, hleaves⟩ := h.roomLeave hd hroom
    rw [Option.bind_some, Option.elim_some, hleave]
    exact ⟨t, rfl, hleaves.chat h hd hok (roomLeave_born hleave), ⟨rs, by rw [hleaves.users]; exact hu⟩,
      hleaves.index⟩

/-- A client is muted or unmuted, and its room counts one speaker less or more. -/
theorem chat_setMute (h : ServerOk s l) (hc : s.Holds c cl) (hr : s.roomMem p = some r) (speakers : Int) :
    ((s.setClient c cl').setRoom p { r with activeSpeakers := speakers }).chat =
      s.chat.setSession cl.slot (some cl'.session) := by
  have hsession : ((s.setClient c cl').setRoom p { r with activeSpeakers := speakers }).session =
      Function.update s.session cl.slot (some cl'.session) := session_update h.clients hc rfl rfl
  have hrooms : (fun q => (Function.update s.roomMem p (some { r with activeSpeakers := speakers }) q).map
      s.chatRoom) = fun q => (s.roomMem q).map s.chatRoom := by
    have hsame : s.chatRoom { r with activeSpeakers := speakers } = s.chatRoom r := rfl
    rw [map_update, Option.map_some, hsame, ← Option.map_some, ← hr]
    exact Function.update_eq_self p fun q => (s.roomMem q).map s.chatRoom
  have hlist : ((s.setClient c cl').setRoom p { r with activeSpeakers := speakers }).chat.rooms = s.chat.rooms := by
    have hcongr : ((s.setClient c cl').setRoom p { r with activeSpeakers := speakers }).chatRoom = s.chatRoom :=
      chatRoom_congr rfl
    simp only [Server.chat, hcongr]
    exact congrArg (fun f => s.roomList.filterMap f) hrooms
  rw [Chat.setSession, ← hlist]
  simp only [Server.chat, hsession]
  rfl

theorem handleMute_answers (h : ServerOk s l) (hc : s.Holds c cl) (hu : TableOk s.users.data rs)
    (args : Option Bytes) :
    Answers s (handleMute s c args) (s.chat.mute cl.slot cl.session (scanName args)) := by
  have hcode : handleMute s c args = (moderationTarget s cl .mute args).bind
      (Sum.elim (fun resp => some (resp, s)) fun found =>
        (findTarget s found.2.2 found.2.1.members).bind fun target =>
          target.elim (some (sendError statusErrNotFound (ascii "Target user not found in the room"), s))
            fun d => (s.clientMem d).map fun t =>
              (sendOk (if !t.isMute then ascii "User muted successfully" else ascii "User unmuted successfully") [],
                (s.setClient d { t with isMute := !t.isMute }).setRoom found.1
                  { found.2.1 with
                    activeSpeakers :=
                      if !t.isMute then found.2.1.activeSpeakers - 1 else found.2.1.activeSpeakers + 1 })) := by
    simp only [handleMute, hc.2]
    rcases moderationTarget s cl .mute args with _ | resp | ⟨p, r, name⟩
    · rfl
    · rfl
    · dsimp only
      rw [Option.bind_some, Sum.elim_inr]
      rcases findTarget s name r.members with _ | _ | d
      · rfl
      · rfl
      · dsimp only
        rw [Option.bind_some, Option.elim_some]
        rcases s.clientMem d with _ | t
        · rfl
        · rfl
  rw [hcode, Chat.mute]
  apply moderationTarget_answers h hc hu
  intro p r hr
  dsimp only
  rcases findTarget_chat h (scanName args) (h.members_held hr) with
    ⟨hfind, hnone⟩ | ⟨d, dl, hfind, hd, hmem, hsome⟩
  · have htarget : s.chat.target (s.chatRoom r) (scanName args) = none := hnone
    rw [hfind, htarget]
    refine ⟨fun _ => answers_same hu rfl, ?_⟩
    intro j hj
    cases hj
  · have htarget : s.chat.target (s.chatRoom r) (scanName args) = some dl.slot := hsome
    have hsession : s.chat.sessions dl.slot = some dl.session := hd.session
    rw [hfind, htarget]
    refine ⟨fun hno => absurd hno (by simp), ?_⟩
    intro j hj
    obtain rfl : dl.slot = j := Option.some.inj hj
    have hmuted : dl.session.muted = dl.isMute := rfl
    rw [Option.bind_some, Option.elim_some, hd.2, Option.map_some, Chat.toggleMute, hsession]
    dsimp only
    rw [hmuted]
    cases hm : dl.isMute with
    | true => exact ⟨_, rfl, chat_setMute h hd hr _, ⟨rs, hu⟩, rfl⟩
    | false => exact ⟨_, rfl, chat_setMute h hd hr _, ⟨rs, hu⟩, rfl⟩

/-! ### Roles -/

theorem promoteLoop_index {target : Bytes} {role : Role} {is : List (Fin maxClients)}
    (h : promoteLoop target role is s = some t) : t.index = s.index := by
  induction is generalizing s with
  | nil =>
      cases h
      rfl
  | cons i is ih =>
      rw [promoteLoop] at h
      split at h
      · exact ih h
      · split at h
        · cases h
        · split at h
          · have hrest := ih h
            exact hrest
          · exact ih h

/-- The loop of `handle_promote` gives every session of the account its new role. -/
theorem ClientsOk.session_promoted (h : ClientsOk s) {target : Bytes} (htarget : target ≠ []) {role : Role}
    (hswept : Swept target role (List.finRange maxClients) s t) (i : Fin maxClients) :
    t.session i = (s.session i).map (Session.promoted target role) := by
  rw [Server.session, Server.session, hswept.clients]
  cases hi : s.clients i with
  | none => rfl
  | some d =>
      obtain ⟨dl, hd, -, hactive⟩ := h.holds hi
      rw [Option.bind_some, Option.bind_some, hd.2, Option.map_some, Option.map_some]
      by_cases hname : dl.username = target
      · rw [hswept.reached i (List.mem_finRange i) d dl hi hd.2 hactive hname]
        have hin : dl.userId ≠ -1 := by
          intro hid
          exact htarget (hname.symm.trans (h.loggedOut d dl hd hid).2.1)
        simp [Client.session, Session.promoted, hin, hname]
      · have hsame : t.clientMem d = some dl := by
          rcases hswept.records d with hsame | ⟨dl', hdl', hname', -⟩
          · rw [hsame, hd.2]
          · rw [hd.2, Option.some.injEq] at hdl'
            exact absurd (hdl' ▸ hname') hname
        rw [hsame]
        by_cases hid : dl.userId = -1
        · simp [Client.session, Session.promoted, hid]
        · simp [Client.session, Session.promoted, hid, hname]

theorem handlePromote_answers (h : ServerOk s l) (hw : s.wrote = []) (hc : s.Holds c cl)
    (hu : TableOk s.users.data rs) {args : Option Bytes} (hargs : ∀ a, args = some a → (0 : UInt8) ∉ a) :
    Answers s (handlePromote s c args)
      (s.chat.promote cl.session (scanPair 31 15 args).1 (scanPair 31 15 args).2) := by
  obtain ⟨-, hfits⟩ := scanPair_fits hargs 31 15
  simp only [handlePromote, hc.2, Chat.promote, session_login_none, (h.clients.session_user hc).2, hw,
    List.headD_nil]
  generalize (scanPair 31 15 args).1 = target
  generalize (scanPair 31 15 args).2 = role at hfits ⊢
  split
  · exact answers_same hu rfl
  · split
    · exact answers_same hu rfl
    · split
      · exact answers_same hu rfl
      · rename_i hargs
        split
        · exact answers_same hu rfl
        · have hrole : FitsIn maxRoleLen (upperCase role) := upperCase_fits hfits
          have hcall : CallRefines s.users (.promote target (upperCase role) true) := hu.promote hrole true
          have hresult := hcall.result
          have hmap := hcall.map
          have htable := hcall.table
          have haccounts : s.chat.accounts = accounts s.users.data := rfl
          simp only [runCall, specCall, transfers, if_true] at hresult hmap htable
          rw [haccounts]
          generalize authPromoteUser userRecordSize s.users target (upperCase role) = out at hresult hmap htable ⊢
          obtain ⟨ok, users'⟩ := out
          dsimp only at hresult hmap htable ⊢
          cases ha : accounts s.users.data target with
          | none =>
              rw [ha] at hresult hmap
              cases hresult
              refine ⟨_, rfl, ?_, htable, rfl⟩
              refine Eq.trans (chat_same (s := s) ⟨rfl, rfl, rfl, rfl, rfl, rfl, rfl⟩ rfl rfl) ?_
              rw [hmap]
              rfl
          | some a =>
              rw [ha] at hresult hmap
              cases hresult
              have hclients : ClientsOk { s with users := users', wrote := [].tail } := h.clients.of_same rfl rfl
              obtain ⟨t, ht, hrooms, htclients, -, -⟩ := promoteLoop_promoted (fun hnil => hargs (Or.inl hnil))
                (roleOfName (upperCase role)) (List.finRange maxClients) hclients
              have hswept := promoteLoop_swept ht
              have hindex := promoteLoop_index ht
              have hsession : t.session = fun i =>
                  (s.session i).map (Session.promoted target (roleOfName (upperCase role))) := by
                funext i
                exact hclients.session_promoted (fun hnil => hargs (Or.inl hnil)) hswept i
              have hlist : t.roomList = s.roomList := by
                rw [Server.roomList, Server.roomList, hrooms.next, hrooms.head]
              have hroom : t.chatRoom = s.chatRoom := chatRoom_congr htclients
              rw [if_pos rfl, ht]
              refine ⟨t, rfl, ?_, ?_, hindex⟩
              · simp only [Server.chat, hswept.users, hmap, hsession, hlist, hrooms.mem, hroom]
              · rw [hswept.users]
                exact htable

/-! ### Dispatch -/

theorem ite_answers {b : Prop} [Decidable b] {f : Request → Answer × Chat} {out out' : Option (Response × Server)}
    {q q' : Request} (hthen : b → Answers s out (f q)) (helse : ¬ b → Answers s out' (f q')) :
    Answers s (if b then out else out') (f (if b then q else q')) := by
  by_cases hb : b
  · rw [if_pos hb, if_pos hb]
    exact hthen hb
  · rw [if_neg hb, if_neg hb]
    exact helse hb

/-- **Every command** is answered as the service answers the request in it. -/
theorem dispatch_answers (h : ServerOk s l) (hrec : RecordsOk db₀ s) (hw : s.wrote = []) (hc : s.Holds c cl)
    (hu : TableOk s.users.data rs) {env : Env} (hfresh : ∀ p, env.malloc = some p → s.roomMem p = none)
    (cmd : Bytes) {args : Option Bytes} (hargs : ∀ a, args = some a → (0 : UInt8) ∉ a) :
    Answers s (dispatch env s c cmd args)
      (s.chat.serve cl.slot cl.session (reserved db₀) env.malloc.isSome (requestOf cmd args)) := by
  unfold dispatch requestOf
  refine ite_answers (fun _ => handleLogin_answers h hc hu args) fun _ => ?_
  refine ite_answers (fun _ => handleRegister_answers hw hc hu hargs) fun _ => ?_
  refine ite_answers (fun _ => handleLogout_answers h hc hu) fun _ => ?_
  refine ite_answers (fun _ => handleCreateRoom_answers h hrec hw hc hu hfresh hargs) fun _ => ?_
  refine ite_answers (fun _ => handleJoinRoom_answers h hrec hc hu args) fun _ => ?_
  refine ite_answers (fun _ => handleLeaveRoom_answers h hc hu) fun _ => ?_
  refine ite_answers (fun _ => handleListRooms_answers h hc hu) fun _ => ?_
  refine ite_answers (fun _ => handleKick_answers h hc hu args) fun _ => ?_
  refine ite_answers (fun _ => handleMute_answers h hc hu args) fun _ => ?_
  refine ite_answers (fun _ => handleStatus_answers h hc hu) fun _ => ?_
  refine ite_answers (fun _ => handlePromote_answers h hw hc hu hargs) fun _ => ?_
  exact answers_same hu rfl

end EchoLink
