import EchoLink.CommandAnswers
import EchoLink.ChatInvariants
import EchoLink.RefCounts
import EchoLink.FdMap
import EchoLink.Simulation

/-!
# The server implements the chat service

`accept_new_client` and `disconnect_client` are the service's `connect` and
`disconnect`, and with the answers to commands and the invariants that runs keep
this makes the server an implementation of the service
(`server_implements_chat`): while memory is fresh, record writes complete and
descriptors are the ones the system promises, every operation sends the
responses of the service, each to the slot it is for, and leaves a state that
shows as the service's.
-/

namespace EchoLink

open CText RecordFile LinkedList PackedArray TwoViews PartialMap Runs Simulation

variable {s t u : Server} {l l' : List Ptr} {c p : Ptr} {cl cl' : Client} {r : Room} {rs : List UserRecord}
  {db₀ : FileDb}

/-! ### Connections -/

theorem ClientsOk.session_isNone (h : ClientsOk s) (i : Fin maxClients) :
    (s.session i).isNone = (s.clients i).isNone := by
  cases hi : s.clients i with
  | none => simp [Server.session, hi]
  | some c =>
      obtain ⟨cl, hc, -, -⟩ := h.holds hi
      simp [Server.session, hi, hc.2]

/-- With a free slot the table is not full. -/
theorem TableInv.not_full {t : Table} (h : TableInv t) {i : Fin maxClients} (hi : t.clients i = none) :
    t.clientCount < maxClients := by
  have hcard : (Finset.univ.filter fun j => (t.clients j).isSome = true) ⊂ Finset.univ := by
    rw [Finset.filter_ssubset]
    exact ⟨i, Finset.mem_univ i, by simp [hi]⟩
  have hlt := Finset.card_lt_card hcard
  rw [Finset.card_univ, Fintype.card_fin] at hlt
  rw [h.count]
  exact_mod_cast hlt

/-- **`accept_new_client`** is the service's `connect`. -/
theorem acceptNewClient_chat (h : ServerOk s l) (ht : TableInv s.table) {env : Env} (fd : Nat)
    (hfresh : ∀ c, env.malloc = some c → s.clientMem c = none) :
    (acceptNewClient env s fd).chat = s.chat.connect fd env.malloc.isSome := by
  have hok := (acceptNewClient_ok h fd hfresh).1
  have hfind : ((List.finRange maxClients).find? fun j => (s.chat.sessions j).isNone) =
      (List.finRange maxClients).find? fun j => (s.clients j).isNone := by
    congr 1
    funext j
    exact h.clients.session_isNone j
  rw [Chat.connect, hfind]
  unfold acceptNewClient at hok ⊢
  cases hslot : (List.finRange maxClients).find? fun j => (s.clients j).isNone with
  | none =>
      simp only [ite_self]
  | some slot =>
      have hempty : s.clients slot = none := by simpa using List.find?_some hslot
      have hspace : ¬ (maxClients : Int) ≤ s.clientCount := Int.not_le.mpr (ht.not_full hempty)
      rw [hslot, if_neg hspace] at hok
      rw [if_neg hspace]
      cases hmalloc : env.malloc with
      | none => rfl
      | some c =>
          rw [hmalloc] at hok
          have hc := hfresh c hmalloc
          have hother : ∀ i d, s.clients i = some d → d ≠ c := by
            rintro i d hi rfl
            obtain ⟨dl, hd, -, -⟩ := h.clients.holds hi
            cases hd.2.symm.trans hc
          dsimp only at hok ⊢
          rw [Option.isSome_some, if_pos rfl]
          obtain ⟨t, ht'⟩ : ∃ t, t = ({ s with
            clients := Function.update s.clients slot (some c)
            clientCount := s.clientCount + 1
            fdToSlot := if fd < fdMapSize then Function.update s.fdToSlot fd (some slot) else s.fdToSlot
            clientMem := Function.update s.clientMem c (some (newClient fd slot)) } : Server) := ⟨_, rfl⟩
          rw [← ht'] at hok ⊢
          have hclients : t.clients = Function.update s.clients slot (some c) := by rw [ht']
          have hmem : t.clientMem = Function.update s.clientMem c (some (newClient fd slot)) := by rw [ht']
          have hroomMem : t.roomMem = s.roomMem := by rw [ht']
          have hrooms : t.chat.rooms = s.chat.rooms := by
            rw [ServerOk.chat_rooms_same h.clients hok, hroomMem, h.rooms.chat_rooms]
            intro i d hi hmember
            obtain ⟨q, x, hx, hd⟩ := hmember
            rw [hroomMem] at hx
            obtain ⟨dl, hdl⟩ := h.members_held hx d hd
            rw [hclients] at hi
            rcases update_some_cases hi with ⟨-, rfl⟩ | ⟨-, hi⟩
            · exact absurd rfl (hother dl.slot d hdl.1)
            · exact hi
          have hsession : t.session = Function.update s.session slot (some (Session.new fd)) := by
            funext i
            by_cases hi : i = slot
            · subst hi
              rw [Function.update_self, Server.session, hclients, Function.update_self, Option.bind_some, hmem,
                Function.update_self]
              rfl
            · rw [Function.update_of_ne hi, Server.session, Server.session, hclients, Function.update_of_ne hi]
              cases hd : s.clients i with
              | none => rfl
              | some d => rw [Option.bind_some, Option.bind_some, hmem, Function.update_of_ne (hother i d hd)]
          have husers : t.users = s.users := by rw [ht']
          rw [Chat.setSession, ← hrooms]
          simp only [Server.chat, hsession, husers]

/-- The slot of a descriptor is the one of the session with it. -/
theorem ServerOk.slotOf_fd (h : ServerOk s l) (ht : TableInv s.table) (fd : Nat) :
    s.chat.slotOf fd = if fd < fdMapSize then s.fdToSlot fd else none := by
  have hfdOf : ∀ i, s.table.fdOf i = (s.session i).map Session.fd := by
    intro i
    cases hi : s.clients i with
    | none => simp [Table.fdOf, Server.table, Server.session, hi]
    | some c =>
        obtain ⟨cl, hc, -, -⟩ := h.clients.holds hi
        simp [Table.fdOf, Server.table, Server.session, hi, hc.2, Client.connection, Client.session]
  have hmapped : ∀ i, s.table.slotOf fd = some i ↔ (s.session i).map Session.fd = some fd := by
    intro i
    rw [ht.mapped, hfdOf]
  have hgoal : s.chat.slotOf fd = s.table.slotOf fd := by
    cases hfind : s.chat.slotOf fd with
    | some i =>
        have hfound := hfind
        unfold Chat.slotOf at hfound
        have hany := List.find?_some hfound
        obtain ⟨y, hy, hfd⟩ := (Option.any_eq_true _ _).mp hany
        have hy : s.session i = some y := hy
        have hfd : y.fd = fd := of_decide_eq_true hfd
        rw [eq_comm, hmapped, hy, Option.map_some, hfd]
    | none =>
        cases hslot : s.table.slotOf fd with
        | none => rfl
        | some i =>
            have hi := (hmapped i).mp hslot
            obtain ⟨y, hy, hfd⟩ := Option.map_eq_some_iff.mp hi
            have hno := List.find?_eq_none.mp hfind i (List.mem_finRange i)
            have hy : s.chat.sessions i = some y := hy
            simp [hy, hfd] at hno
  exact hgoal

/-- A client that is disconnected is out of its room, and its slot is free. -/
theorem dropClient_chat (h : ServerOk s l) (hc : s.Holds c cl) (fd : Nat) (hclients : SameClients s u)
    (hok : ServerOk (u.dropClient fd cl.slot c cl) l') (hborn : u.born = s.born)
    (hlive : ∀ q x, u.roomMem q = some x → ∃ y, s.roomMem q = some y)
    (hrooms : (l.filterMap fun q => (u.roomMem q).map s.chatRoom) =
      s.chat.rooms.filterMap (ChatRoom.without cl.slot)) :
    (u.dropClient fd cl.slot c cl).chat = (s.chat.leave cl.slot).setSession cl.slot none := by
  obtain ⟨t, ht⟩ : ∃ t, t = u.dropClient fd cl.slot c cl := ⟨_, rfl⟩
  rw [← ht] at hok ⊢
  have hslots : t.clients = Function.update s.clients cl.slot none := by
    rw [ht, ← hclients.clients]
    rfl
  have hrest : ∀ d, d ≠ c → t.clientMem d = s.clientMem d := by
    intro d hd
    rw [ht, ← hclients.clientMem]
    exact Function.update_of_ne hd _ _
  have hroomMem : t.roomMem = u.roomMem := by rw [ht]; rfl
  have hchatRooms : t.chat.rooms = s.chat.rooms.filterMap (ChatRoom.without cl.slot) := by
    have hbornT : t.born = s.born := by rw [ht, ← hborn]; rfl
    rw [ServerOk.chat_rooms_same h.clients hok,
      h.rooms.filterMap_rooms hok.rooms hbornT (by rw [hroomMem]; exact hlive), hroomMem, hrooms]
    intro i d hi _
    rw [hslots] at hi
    exact (update_none_cases hi).2
  have hsession : t.session = Function.update s.session cl.slot none := by
    funext i
    by_cases hi : i = cl.slot
    · subst hi
      rw [Function.update_self, Server.session, hslots, Function.update_self, Option.bind_none]
    · rw [Function.update_of_ne hi, Server.session, Server.session, hslots, Function.update_of_ne hi]
      cases hd : s.clients i with
      | none => rfl
      | some d =>
          have hdc : d ≠ c := by
            rintro rfl
            exact hi (h.clients.slot_eq hc hd)
          rw [Option.bind_some, Option.bind_some, hrest d hdc]
  have husers : t.users = s.users := by rw [ht, ← hclients.users]; rfl
  rw [Chat.leave, Chat.setSession, ← hchatRooms]
  simp only [Server.chat, hsession, husers]

/-- **`disconnect_client`** is the service's `disconnect`. -/
theorem disconnectClient_chat (h : ServerOk s l) (ht : TableInv s.table) (fd : Nat) :
    ∃ t, disconnectClient s fd = some t ∧ t.chat = s.chat.disconnect fd ∧ t.users = s.users := by
  rw [Chat.disconnect, h.slotOf_fd ht fd]
  unfold disconnectClient
  cases hslot : (if fd < fdMapSize then s.fdToSlot fd else none) with
  | none => exact ⟨s, rfl, rfl, rfl⟩
  | some slot =>
      obtain ⟨c, x, hi, hx, hfd⟩ := of_fdOf ((ht.mapped fd slot).mp hslot)
      obtain ⟨cl, hc, rfl, -⟩ := h.clients.holds hi
      have hown : cl.fd = fd := by
        have hconn : s.table.mem c = some cl.connection := by simp only [Server.table, hc.2, Option.map_some]
        rw [hconn, Option.some.injEq] at hx
        rw [← hfd, ← hx]
        rfl
      have hheld : s.clients cl.slot = some c := hi
      dsimp only
      rw [hheld]
      dsimp only
      rw [hc.2]
      dsimp only
      rw [if_pos hown]
      cases hp : cl.currentRoom with
      | none =>
          refine ⟨_, rfl, ?_, rfl⟩
          apply dropClient_chat h hc fd (SameClients.refl s) (h.dropped hc hp fd) rfl
          · intro q y hy
            exact ⟨y, hy⟩
          · rw [← h.rooms.chat_rooms]
            have hout := congrArg Chat.rooms (Chat.leave_outside (h.roomOf_none hc hp))
            exact hout.symm
      | some p =>
          obtain ⟨r, hr, hmem⟩ := h.in_room hc hp
          obtain ⟨u, l', r', hcode, hok, -, hrem⟩ := h.rooms.removeClientFromRoom hc.2 hr hmem
          dsimp only
          rw [hcode, Option.map_some]
          refine ⟨_, rfl, ?_, hrem.clients.users⟩
          apply dropClient_chat h hc fd hrem.clients (h.removed_dropped hc hp hrem hok fd)
            (removeClientFromRoom_born hcode)
          · intro q y hy
            by_cases hq : q = p
            · subst hq
              exact ⟨r, hr⟩
            · rw [hrem.roomMem, Function.update_of_ne hq] at hy
              exact ⟨y, hy⟩
          · exact h.chat_rooms_removed hc hrem.without.was hr hrem.without hrem.roomMem

/-! ### Whole operations -/

/-- The operation as the service sees it. -/
def Op.event (o : Op × Env) : ChatEvent :=
  match o.1 with
  | .accept fd => .connect fd o.2.malloc.isSome
  | .disconnect fd => .disconnect fd
  | .command slot line => .command slot line o.2.malloc.isSome

/-- The responses an operation sends, with the slots they are for. -/
def Server.sent (s : Server) (o : Op × Env) : List (Fin maxClients × Response) :=
  match o.1 with
  | .command slot line => ((s.answer ⟨slot, line, o.2⟩).bind Prod.fst).toList.map fun resp => (slot, resp)
  | _ => []

theorem sent_command (s : Server) (slot : Fin maxClients) (line : Bytes) (env : Env) :
    s.sent (.command slot line, env) =
      ((s.answer ⟨slot, line, env⟩).bind Prod.fst).toList.map fun resp => (slot, resp) := rfl

/-- The memory is fresh, the record writes complete, and `accept` returns a
descriptor as the system promises. -/
def Ordinary (s : Server) (o : Op × Env) : Prop :=
  Proper s o ∧ ∀ fd, o.1 = .accept fd → SystemOk s.table (.accept fd o.2.malloc)

/-- What holds of the server in every such run. -/
structure Serving (db₀ : FileDb) (s : Server) : Prop where
  ok : ∃ l, ServerOk s l
  records : RecordsOk db₀ s
  users : ∃ rs, TableOk s.users.data rs
  table : TableInv s.table

theorem Serving.start (db : FileDb) {users : File} (hu : TableOk users.data rs) :
    Serving db (Server.start db users) where
  ok := ⟨[], ServerOk.start db users⟩
  records := SlotDirectory.tracks_start roomLayout db.recordAt
  users := ⟨rs, hu⟩
  table := TableInv.start

/-- A command keeps the index of the clients, so it keeps the table. -/
theorem TableInv.of_index (h : TableInv s.table) (hs : ServerOk s l) (ht : ServerOk t l')
    (hindex : t.index = s.index)
    (hfds : ∀ i, (t.session i).map Session.fd = (s.session i).map Session.fd) : TableInv t.table := by
  obtain ⟨hclients, hrest⟩ := Prod.mk.inj hindex
  obtain ⟨hcount, hfd⟩ := Prod.mk.inj hrest
  have hslotOf : t.table.slotOf = s.table.slotOf := by
    funext fd
    simp only [Table.slotOf, Server.table, hfd]
  have hfdOf : ∀ {v : Server} {m : List Ptr}, ServerOk v m → ∀ i, v.table.fdOf i = (v.session i).map Session.fd := by
    intro v m hv i
    cases hi : v.clients i with
    | none => simp [Table.fdOf, Server.table, Server.session, hi]
    | some c =>
        obtain ⟨cl, hc, -, -⟩ := hv.clients.holds hi
        simp [Table.fdOf, Server.table, Server.session, hi, hc.2, Client.connection, Client.session]
  refine ⟨?_, ?_, ?_⟩
  · intro i c hi
    obtain ⟨cl, hcl, hslot, -⟩ := ht.clients.held i c hi
    exact ⟨cl.connection, by simp only [Server.table, hcl, Option.map_some], hslot⟩
  · intro fd i
    rw [hslotOf, h.mapped, hfdOf hs, hfdOf ht, hfds]
  · have hcountT : t.table.clientCount = s.table.clientCount := hcount
    have hsame : t.table.clients = s.table.clients := hclients
    rw [hcountT, Table.used, hsame]
    exact h.count

/-- What an operation shows, next to the invariants that are known to be kept. -/
structure Shows (db₀ : FileDb) (s : Server) (o : Op × Env) (t : Server) : Prop where
  sent : s.sent o = (s.chat.step (reserved db₀) (Op.event o)).1
  chat : t.chat = (s.chat.step (reserved db₀) (Op.event o)).2
  users : ∃ rs, TableOk t.users.data rs
  table : TableInv t.table

theorem Serving.accept (h : Serving db₀ s) {fd : Nat} {env : Env} (ho : Ordinary s (.accept fd, env)) :
    Shows db₀ s (.accept fd, env) (acceptNewClient env { s with wrote := env.wrote } fd) := by
  obtain ⟨l, hok⟩ := h.ok
  obtain ⟨rs, hu⟩ := h.users
  refine ⟨rfl, ?_, ?_, ?_⟩
  · exact acceptNewClient_chat (hok.with_wrote env.wrote) h.table fd fun c hc => (ho.1.1 c hc).1
  · unfold acceptNewClient
    split
    · exact ⟨rs, hu⟩
    · split
      · exact ⟨rs, hu⟩
      · exact ⟨rs, hu⟩
  · rw [table_acceptNewClient]
    exact h.table.accept (ho.2 fd rfl)

theorem Serving.disconnect (h : Serving db₀ s) (fd : Nat) (env : Env) :
    ∃ t, disconnectClient { s with wrote := env.wrote } fd = some t ∧ Shows db₀ s (.disconnect fd, env) t := by
  obtain ⟨l, hok⟩ := h.ok
  obtain ⟨rs, hu⟩ := h.users
  have hok₀ := hok.with_wrote env.wrote
  obtain ⟨t, ht, hchat, husers⟩ := disconnectClient_chat hok₀ h.table fd
  refine ⟨t, ht, rfl, hchat, ⟨rs, by rw [husers]; exact hu⟩, ?_⟩
  obtain ⟨t', ht', hinv⟩ := h.table.disconnect fd
  have htable := (table_disconnectClient ht).symm.trans ht'
  rw [Option.some.inj htable]
  exact hinv

theorem Serving.command (h : Serving db₀ s) {slot : Fin maxClients} {line : Bytes} {env : Env}
    (ho : Ordinary s (.command slot line, env)) (hok : s.step (.command slot line, env) = some t)
    (ht : ∃ l, ServerOk t l) : Shows db₀ s (.command slot line, env) t := by
  obtain ⟨l, hs⟩ := h.ok
  obtain ⟨l', ht⟩ := ht
  obtain ⟨rs, hu⟩ := h.users
  have hs₀ := hs.with_wrote env.wrote
  rw [step_eq_answer s ⟨slot, line, env⟩] at hok
  obtain ⟨⟨resp, t'⟩, hanswer, htt'⟩ := Option.map_eq_some_iff.mp hok
  obtain rfl : t' = t := htt'
  have hquiet : resp = none → t'.chat = s.chat → s.chat.step (reserved db₀) (.command slot line env.malloc.isSome) =
      ([], s.chat) → (∃ rs, TableOk t'.users.data rs) → t'.index = s.index →
      Shows db₀ s (.command slot line, env) t' := by
    intro hresp hchat hstep husers hindex
    refine ⟨?_, ?_, husers, ?_⟩
    · have hevent : (s.chat.step (reserved db₀) (Op.event (.command slot line, env))).1 = [] :=
        congrArg Prod.fst hstep
      rw [hevent, sent_command, hanswer, hresp]
      rfl
    · have hevent : (s.chat.step (reserved db₀) (Op.event (.command slot line, env))).2 = s.chat :=
        congrArg Prod.snd hstep
      rw [hevent, hchat]
    · have hsession : t'.session = s.session := congrArg Chat.sessions hchat
      exact h.table.of_index hs ht hindex fun i => by rw [hsession]
  cases hslot : s.clients slot with
  | none =>
      have hsession : s.chat.sessions slot = none := by
        simp only [Server.chat, Server.session, hslot, Option.bind_none]
      simp only [Server.answer, hslot] at hanswer
      cases hanswer
      exact hquiet rfl rfl (by simp only [Chat.step, hsession]) ⟨rs, hu⟩ rfl
  | some c =>
      obtain ⟨cl, hc, rfl, hactive⟩ := hs.clients.holds hslot
      have hc₀ : ({ s with wrote := env.wrote } : Server).Holds c cl := hc
      have hsession : s.chat.sessions cl.slot = some cl.session := hc.session
      cases hsplit : splitCommand line with
      | none =>
          have hstep : s.chat.step (reserved db₀) (.command cl.slot line env.malloc.isSome) = ([], s.chat) := by
            simp only [Chat.step, parseRequest, hsplit, hsession, Option.map_none]
          simp only [Server.answer, hslot] at hanswer
          rw [runTask_active hc₀.2 hactive, hsplit] at hanswer
          cases hanswer
          refine hquiet rfl ?_ hstep ⟨rs, hu⟩ rfl
          refine Eq.trans (chat_setSession hs₀.clients hc₀ ⟨rfl, rfl, rfl, rfl, rfl, rfl, rfl⟩ rfl rfl rfl) ?_
          have hsame : s.chat.setSession cl.slot (some cl.session) = s.chat := by
            rw [Chat.setSession, ← hsession, Function.update_eq_self]
          exact hsame
      | some parts =>
          obtain ⟨cmd, args⟩ := parts
          obtain ⟨u, hout, hchat, husers, hindex⟩ := dispatch_answers hs₀ h.records ho.1.2 hc₀ hu
            (fun p hp => (ho.1.1 p hp).2) cmd (splitCommand_args hsplit)
          have hreply := answer_command (x := ⟨cl.slot, line, env⟩) hc.1 hc.2 hactive hsplit
          rw [hreply, hout] at hanswer
          cases hanswer
          have hstep : s.chat.step (reserved db₀) (Op.event (.command cl.slot line, env)) =
              ([(cl.slot, (s.chat.serve cl.slot cl.session (reserved db₀) env.malloc.isSome
                  (requestOf cmd args)).1.response)],
                (s.chat.serve cl.slot cl.session (reserved db₀) env.malloc.isSome (requestOf cmd args)).2) := by
            simp only [Op.event, Chat.step, parseRequest, hsplit, hsession, Option.map_some]
          refine ⟨?_, ?_, husers, ?_⟩
          · rw [hstep, sent_command, hreply, hout]
            rfl
          · rw [hstep, hchat]
            rfl
          · have hfds := (s.chat.serve_cases (reserved db₀) env.malloc.isSome cl.slot cl.session
              (requestOf cmd args)).fds hsession
            have hsessions : u.session = (s.chat.serve cl.slot cl.session (reserved db₀) env.malloc.isSome
                (requestOf cmd args)).2.sessions := congrArg Chat.sessions hchat
            exact h.table.of_index hs ht hindex fun i => by rw [hsessions]; exact hfds i

/-- **The server implements the chat service.** -/
theorem server_implements_chat (db₀ : FileDb) :
    Implements Server.step Server.sent (Serving db₀) Ordinary Server.chat Op.event
      (Chat.step (reserved db₀)) := by
  intro s o h ho
  obtain ⟨l, hok⟩ := h.ok
  have hstep := step_ok hok ho.1.1
  cases ht : s.step o with
  | none =>
      rw [ht] at hstep
      exact absurd h.records.ids_distinct hstep
  | some t =>
      rw [ht] at hstep
      have hrecords : RecordsOk db₀ t :=
        (RoomChange.recordsOk_all hstep.2 (s := { s with wrote := o.2.wrote }) h.records ho.1.2).1
      have hshows : Shows db₀ s o t := by
        obtain ⟨op, env⟩ := o
        cases op with
        | accept fd =>
            cases ht
            exact h.accept ho
        | disconnect fd =>
            obtain ⟨t', ht', hshows⟩ := h.disconnect fd env
            obtain rfl : t' = t := Option.some.inj (ht'.symm.trans ht)
            exact hshows
        | command slot line => exact h.command ho ht hstep.1
      exact ⟨t, rfl, ⟨hstep.1, hrecords, hshows.users, hshows.table⟩, hshows.sent, hshows.chat⟩

/-! ### A run of the server -/

/-- `Ordinary` with the descriptors below `n` open, computed. -/
def checkOrdinary (n : Nat) (s : Server) (o : Op × Env) : Bool :=
  checkProper s o &&
    match o.1 with
    | .accept fd => checkSystemOk n s.table (.accept fd o.2.malloc)
    | _ => true

theorem ordinary_of_check (n : Nat) (s : Server) (o : Op × Env) (h : checkOrdinary n s o = true) :
    Ordinary s o := by
  obtain ⟨hproper, hsystem⟩ := (Bool.and_eq_true _ _).mp h
  refine ⟨proper_of_checkProper s o hproper, ?_⟩
  intro fd hfd
  rw [hfd] at hsystem
  exact systemOk_of_check n s.table _ hsystem

theorem lobbyOps_ordinary : Along Server.step Ordinary (Server.start emptyDb startTable) lobbyOps :=
  along_of_checkAlong (ordinary_of_check 5) (by decide +kernel)

end EchoLink
