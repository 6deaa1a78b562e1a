import EchoLink.ServerSteps
import EchoLink.ChatService

/-!
# The server seen as a chat service

`Server.chat` reads the state of the chat service off the server: the accounts
from `users.bin`, the sessions from `clients[]` and the rooms from the room
list, each participant as the slot its client is in.

The lemmas say what the searches of the service find and how a change of the
server shows there: a client that leaves its room, one that enters a room, a
new room, a client record with another session.
-/

namespace EchoLink

open CText RecordFile LinkedList PackedArray TwoViews PartialMap

/-! ### The abstraction -/

def Client.session (cl : Client) : Session where
  fd := cl.fd
  login := if cl.userId = -1 then none else some ⟨cl.username, cl.role⟩
  muted := cl.isMute

/-- The session in a slot. -/
def Server.session (s : Server) (i : Fin maxClients) : Option Session :=
  (s.clients i).bind fun c => (s.clientMem c).map Client.session

/-- The slot a client is in. -/
def Server.slotOf (s : Server) (c : Ptr) : Option (Fin maxClients) :=
  (List.finRange maxClients).find? fun i => s.clients i = some c

def Server.chatRoom (s : Server) (r : Room) : ChatRoom where
  name := r.roomName
  password := r.password
  roomId := r.roomId
  members := r.members.filterMap s.slotOf

/-- The room list, along its links. -/
def Server.roomList (s : Server) : List Ptr := chain s.roomNext maxRooms s.roomHead

/-- What the server shows as a chat service. -/
def Server.chat (s : Server) : Chat where
  accounts := accounts s.users.data
  sessions := s.session
  rooms := s.roomList.filterMap fun p => (s.roomMem p).map s.chatRoom

variable {s t u : Server} {l l' : List Ptr} {c p : Ptr} {cl cl' : Client} {r r' : Room}

theorem RoomsOk.roomList (h : RoomsOk s l) : s.roomList = l := h.linked.chain h.bound

/-! ### Sessions and slots -/

theorem Server.Holds.session (h : s.Holds c cl) : s.session cl.slot = some cl.session := by
  rw [Server.session, h.1, Option.bind_some, h.2, Option.map_some]

theorem ClientsOk.slotOf_iff (h : ClientsOk s) {i : Fin maxClients} :
    s.slotOf c = some i ↔ s.clients i = some c := by
  constructor
  · intro hslot
    simpa using List.find?_some hslot
  · intro hi
    cases hfind : s.slotOf c with
    | none =>
        have hno := List.find?_eq_none.mp hfind i (List.mem_finRange i)
        simp [hi] at hno
    | some j =>
        have hj : s.clients j = some c := by simpa using List.find?_some hfind
        obtain ⟨cl, hc, hslot, -⟩ := h.holds hi
        rw [h.slot_eq hc hj, hslot]

theorem ClientsOk.slotOf (h : ClientsOk s) (hc : s.Holds c cl) : s.slotOf c = some cl.slot :=
  h.slotOf_iff.mpr hc.1

/-- A client is a participant where its slot is a member. -/
theorem ClientsOk.mem_members (h : ClientsOk s) (hc : s.Holds c cl) (r : Room) :
    cl.slot ∈ (s.chatRoom r).members ↔ c ∈ r.members := by
  constructor
  · intro hmem
    obtain ⟨d, hd, hslot⟩ := List.mem_filterMap.mp hmem
    have hheld := h.slotOf_iff.mp hslot
    rw [hc.1, Option.some.injEq] at hheld
    rw [hheld]
    exact hd
  · intro hmem
    exact List.mem_filterMap.mpr ⟨c, hmem, h.slotOf hc⟩

theorem ServerOk.members_length (h : ServerOk s l) (hr : s.roomMem p = some r) :
    (s.chatRoom r).members.length = r.participantCount := by
  have hsome : ∀ d ∈ r.members, (s.slotOf d).isSome = true := by
    intro d hd
    obtain ⟨dl, hdl⟩ := h.members_held hr d hd
    rw [h.clients.slotOf hdl]
    rfl
  have hlen : r.members.length = r.participantCount := (h.rooms.packed p r hr).length
  rw [Server.chatRoom, ← hlen]
  exact List.filterMap_length_eq_length.mpr hsome

/-! ### Searches -/

/-- A search of the rooms that only one room can pass. -/
theorem find_only {f : Ptr → Option ChatRoom} {test : ChatRoom → Bool} {R : ChatRoom} (hp : p ∈ l)
    (hf : f p = some R) (htest : test R = true)
    (honly : ∀ q ∈ l, ∀ R', f q = some R' → test R' = true → q = p) :
    (l.filterMap f).find? test = some R := by
  rw [List.find?_filterMap]
  have hfind : l.find? (fun q => (f q).any test) = some p := by
    cases hsearch : l.find? fun q => (f q).any test with
    | none =>
        have hno := List.find?_eq_none.mp hsearch p hp
        simp [hf, htest] at hno
    | some q =>
        have hq := List.find?_some hsearch
        obtain ⟨R', hR', hpass⟩ := (Option.any_eq_true _ _).mp hq
        rw [honly q (List.mem_of_find?_eq_some hsearch) R' hR' hpass]
  rw [hfind, Option.bind_some, hf]

theorem find_nobody {f : Ptr → Option ChatRoom} {test : ChatRoom → Bool}
    (hno : ∀ q ∈ l, ∀ R, f q = some R → test R = false) : (l.filterMap f).find? test = none := by
  apply List.find?_eq_none.mpr
  intro R hR
  obtain ⟨q, hq, hf⟩ := List.mem_filterMap.mp hR
  simp [hno q hq R hf]

theorem RoomsOk.chat_rooms (h : RoomsOk s l) :
    s.chat.rooms = l.filterMap fun p => (s.roomMem p).map s.chatRoom := by
  rw [Server.chat, h.roomList]

/-- A room of the server is one of the service's. -/
theorem RoomsOk.roomNamed (h : RoomsOk s l) (hr : s.roomMem p = some r) :
    s.chat.roomNamed r.roomName = some (s.chatRoom r) := by
  rw [Chat.roomNamed, h.chat_rooms]
  apply find_only (h.mem_of_room hr)
  · rw [hr, Option.map_some]
  · simp [Server.chatRoom]
  · intro q _ R' hR' htest
    obtain ⟨r', hr', rfl⟩ := Option.map_eq_some_iff.mp hR'
    exact h.names q p r' r hr' hr (of_decide_eq_true htest)

theorem RoomsOk.roomNamed_none (h : RoomsOk s l) {name : Bytes}
    (hno : ∀ q x, s.roomMem q = some x → x.roomName ≠ name) : s.chat.roomNamed name = none := by
  rw [Chat.roomNamed, h.chat_rooms]
  apply find_nobody
  intro q _ R hR
  obtain ⟨x, hx, rfl⟩ := Option.map_eq_some_iff.mp hR
  exact decide_eq_false (hno q x hx)

/-- `room_find_by_name` finds the room of the service. -/
theorem RoomsOk.roomFindByName (h : RoomsOk s l) (name : Bytes) :
    (roomFindByName s name = some none ∧ (∀ q x, s.roomMem q = some x → x.roomName ≠ name) ∧
        s.chat.roomNamed name = none) ∨
      ∃ p r, roomFindByName s name = some (some p) ∧ s.roomMem p = some r ∧ r.roomName = name ∧
        s.chat.roomNamed name = some (s.chatRoom r) := by
  cases hfind : EchoLink.roomFindByName s name with
  | none =>
      rw [EchoLink.roomFindByName, h.findRoom] at hfind
      cases hfind
  | some found =>
      cases found with
      | none =>
          left
          have hno : ∀ q x, s.roomMem q = some x → x.roomName ≠ name := by
            intro q x hx
            simpa using h.findRoom_none hfind hx
          exact ⟨rfl, hno, h.roomNamed_none hno⟩
      | some p =>
          right
          obtain ⟨r, hr, hname⟩ := h.findRoom_some hfind
          have hname : r.roomName = name := by simpa using hname
          exact ⟨p, r, rfl, hr, hname, by rw [← hname, h.roomNamed hr]⟩

theorem ServerOk.roomOf_none (h : ServerOk s l) (hc : s.Holds c cl) (hroom : cl.currentRoom = none) :
    s.chat.roomOf cl.slot = none := by
  rw [Chat.roomOf, h.rooms.chat_rooms]
  apply find_nobody
  intro q _ R hR
  obtain ⟨x, hx, rfl⟩ := Option.map_eq_some_iff.mp hR
  rw [decide_eq_false_iff_not, h.clients.mem_members hc x]
  intro hmem
  have hin := h.views.member q _ c (ServerOk.membersOf_eq hx) hmem
  rw [hc.roomOf, hroom] at hin
  cases hin

theorem ServerOk.roomOf_some (h : ServerOk s l) (hc : s.Holds c cl) (hroom : cl.currentRoom = some p)
    (hr : s.roomMem p = some r) : s.chat.roomOf cl.slot = some (s.chatRoom r) := by
  rw [Chat.roomOf, h.rooms.chat_rooms]
  apply find_only (h.rooms.mem_of_room hr)
  · rw [hr, Option.map_some]
  · rw [decide_eq_true_eq, h.clients.mem_members hc r]
    obtain ⟨x, hx, hmem⟩ := h.in_room hc hroom
    rw [hr, Option.some.injEq] at hx
    rw [hx]
    exact hmem
  · intro q _ R' hR' htest
    obtain ⟨x, hx, rfl⟩ := Option.map_eq_some_iff.mp hR'
    rw [decide_eq_true_eq, h.clients.mem_members hc x] at htest
    have hin := h.views.member q _ c (ServerOk.membersOf_eq hx) htest
    rw [hc.roomOf, hroom, Option.some.injEq] at hin
    exact hin.symm

/-! ### The order of the rooms -/

theorem afterRemoval_born (h : s.afterRemoval p = some t) : t.born = s.born := by
  unfold Server.afterRemoval at h
  split at h
  · cases h
  · rename_i x _
    have hpersist := (persistCount_same s x.roomId x.participantCount).1
    dsimp only at h
    split at h
    · obtain ⟨⟨k, u⟩, hdelete, hu⟩ := Option.map_eq_some_iff.mp h
      cases hu
      unfold roomDelete at hdelete
      split at hdelete
      · cases hdelete
      · cases hdelete
        exact hpersist.born
      · split at hdelete
        · cases hdelete
        · rename_i q _ v hunlink
          unfold Server.unlinkRoom at hunlink
          split at hunlink
          · cases hunlink
            cases hdelete
            exact ((deactivate_same _ x.roomId).1.born).trans hpersist.born
          · cases hunlink
    · cases h
      exact hpersist.born

theorem roomLeave_born {k : Int} (h : roomLeave s c = some (k, t)) : t.born = s.born := by
  unfold roomLeave at h
  split at h
  · cases h
  · split at h
    · cases h
      rfl
    · split at h
      · cases h
      · obtain ⟨u, hafter, hu⟩ := Option.map_eq_some_iff.mp h
        cases hu
        have hborn := afterRemoval_born hafter
        split at hborn
        · exact hborn
        · exact hborn

theorem removeClientFromRoom_born (h : removeClientFromRoom s p c = some t) : t.born = s.born := by
  unfold removeClientFromRoom at h
  split at h
  · split at h
    · exact afterRemoval_born (s := s.setRoom _ _) h
    · exact afterRemoval_born h
  · cases h

/-- The index of the clients, which no command changes. -/
def Server.index (s : Server) : (Fin maxClients → Option Ptr) × Int × (Nat → Option (Fin maxClients)) :=
  (s.clients, s.clientCount, s.fdToSlot)

theorem SameClients.index (h : SameClients s t) : t.index = s.index :=
  Prod.ext h.clients (Prod.ext h.clientCount h.fdToSlot)

theorem enter_kept {roomId : Nat} {password : Bytes} {k : Int}
    (h : s.enter roomId password c = some (k, t)) : t.born = s.born ∧ t.index = s.index := by
  unfold Server.enter at h
  split at h
  · cases h
  · cases h
    exact ⟨rfl, rfl⟩
  · split at h
    · split at h
      · cases h
        exact ⟨rfl, rfl⟩
      · split at h
        · cases h
          exact ⟨rfl, rfl⟩
        · cases h
          obtain ⟨hrooms, hclients⟩ := persistCount_same ((s.setRoom _ _).setClient c _) roomId _
          exact ⟨hrooms.born, hclients.index⟩
    · cases h

/-- Two lists in the order of creation with the same rooms are equal. -/
theorem eq_of_order (born : Ptr → Nat) (hl : l.Pairwise fun p q => born p < born q)
    (hl' : l'.Pairwise fun p q => born p < born q) (hmem : ∀ p, p ∈ l ↔ p ∈ l') : l = l' := by
  have hnodup : ∀ {m : List Ptr}, (m.Pairwise fun p q => born p < born q) → m.Nodup := by
    intro m hm
    refine hm.imp ?_
    rintro a b hab rfl
    exact lt_irrefl _ hab
  apply List.Perm.eq_of_pairwise _ hl hl' ((List.perm_ext_iff_of_nodup (hnodup hl) (hnodup hl')).mpr hmem)
  intro a b _ _ hab hba
  exact absurd hab (lt_asymm hba)

/-- Rooms keep their places in the list. -/
theorem RoomsOk.list_eq (h : RoomsOk s l) (h' : RoomsOk t l') (hborn : t.born = s.born)
    (hlive : ∀ q x, t.roomMem q = some x → ∃ y, s.roomMem q = some y) :
    l' = l.filter fun q => (t.roomMem q).isSome := by
  apply eq_of_order s.born
  · rw [← hborn]
    exact h'.order
  · exact h.order.filter _
  · intro q
    rw [h'.live q, List.mem_filter, h.live q, Option.isSome_iff_exists]
    constructor
    · intro hq
      obtain ⟨x, hx⟩ := hq
      exact ⟨hlive q x hx, x, hx⟩
    · intro hq
      exact hq.2

/-- The rooms afterwards, room by room. -/
theorem RoomsOk.filterMap_rooms (h : RoomsOk s l) (h' : RoomsOk t l') (hborn : t.born = s.born)
    (hlive : ∀ q x, t.roomMem q = some x → ∃ y, s.roomMem q = some y) (f : Room → ChatRoom) :
    (l'.filterMap fun q => (t.roomMem q).map f) = l.filterMap fun q => (t.roomMem q).map f := by
  rw [h.list_eq h' hborn hlive, List.filterMap_filter]
  apply List.filterMap_congr
  intro q _
  cases t.roomMem q <;> rfl

theorem chatRoom_congr (hclients : t.clients = s.clients) : t.chatRoom = s.chatRoom := by
  funext x
  have hslot : t.slotOf = s.slotOf := by
    funext d
    rw [Server.slotOf, Server.slotOf, hclients]
  rw [Server.chatRoom, Server.chatRoom, hslot]

/-! ### Leaving a room -/

/-- Erasing an element that alone has its image. -/
theorem filterMap_erase {α β : Type*} [DecidableEq α] [DecidableEq β] {f : α → Option β} {a : α} {b : β}
    (ha : f a = some b) (honly : ∀ x, f x = some b → x = a) (xs : List α) :
    (xs.erase a).filterMap f = (xs.filterMap f).erase b := by
  induction xs with
  | nil => rfl
  | cons x xs ih =>
      by_cases hx : x = a
      · subst hx
        rw [List.erase_cons_head, List.filterMap_cons_some ha, List.erase_cons_head]
      · rw [List.erase_cons_tail (by simpa using hx)]
        cases hfx : f x with
        | none => rw [List.filterMap_cons_none hfx, List.filterMap_cons_none hfx, ih]
        | some y =>
            have hy : y ≠ b := by
              rintro rfl
              exact hx (honly x hfx)
            rw [List.filterMap_cons_some hfx, List.filterMap_cons_some hfx,
              List.erase_cons_tail (by simpa using hy), ih]

theorem ClientsOk.chatRoom_without (h : ClientsOk s) (hc : s.Holds c cl) (hr : r.Without c r') :
    s.chatRoom r' = { s.chatRoom r with members := (s.chatRoom r).members.erase cl.slot } := by
  have herase : (r.members.erase c).filterMap s.slotOf = (r.members.filterMap s.slotOf).erase cl.slot := by
    apply filterMap_erase (h.slotOf hc)
    intro d hd
    have hheld := h.slotOf_iff.mp hd
    rw [hc.1, Option.some.injEq] at hheld
    exact hheld.symm
  simp only [Server.chatRoom, hr.name, hr.password, hr.id, hr.members, herase]

/-- A participant has left, and with the last one the room is gone. -/
theorem ServerOk.chat_rooms_removed (h : ServerOk s l) (hc : s.Holds c cl) (hcr : c ∈ r.members)
    (hr : s.roomMem p = some r) (hwithout : r.Without c r')
    (hmem : t.roomMem = Function.update s.roomMem p (if r'.participantCount = 0 then none else some r')) :
    (l.filterMap fun q => (t.roomMem q).map s.chatRoom) =
      s.chat.rooms.filterMap (ChatRoom.without cl.slot) := by
  rw [h.rooms.chat_rooms, List.filterMap_filterMap]
  apply List.filterMap_congr
  intro q _
  have hslot : ∀ {d : Ptr} {x : Room}, s.roomMem d = some x → (d = p ↔ cl.slot ∈ (s.chatRoom x).members) := by
    intro d x hx
    rw [h.clients.mem_members hc x]
    constructor
    · rintro rfl
      rw [hr, Option.some.injEq] at hx
      rw [← hx]
      exact hcr
    · intro hd
      have hthere := h.views.member d _ c (ServerOk.membersOf_eq hx) hd
      have hhere := h.views.member p _ c (ServerOk.membersOf_eq hr) hcr
      rw [hthere, Option.some.injEq] at hhere
      exact hhere
  by_cases hq : q = p
  · subst hq
    have hin := (hslot hr).mp rfl
    have hempty : r'.participantCount = 0 ↔ (s.chatRoom r).members.erase cl.slot = [] := by
      have hroom := h.clients.chatRoom_without hc hwithout
      rw [hwithout.nobody_left]
      have hheld : ∀ d ∈ r.members.erase c, (s.slotOf d).isSome = true := by
        intro d hd
        obtain ⟨dl, hdl⟩ := h.members_held hr d (List.mem_of_mem_erase hd)
        rw [h.clients.slotOf hdl]
        rfl
      have hmembers : (s.chatRoom r).members.erase cl.slot = (r.members.erase c).filterMap s.slotOf := by
        rw [← hwithout.members]
        exact (congrArg ChatRoom.members hroom).symm
      rw [hmembers, List.filterMap_eq_nil_iff]
      constructor
      · intro hnil d hd
        rw [hnil] at hd
        cases hd
      · intro hnone
        by_contra hne
        obtain ⟨d, hd⟩ := List.exists_mem_of_ne_nil _ hne
        have hsome := hheld d hd
        rw [hnone d hd] at hsome
        cases hsome
    rw [hmem, Function.update_self, hr, Option.map_some, Option.bind_some, ChatRoom.without, if_pos hin]
    by_cases hzero : r'.participantCount = 0
    · rw [if_pos hzero, if_pos (hempty.mp hzero), Option.map_none]
    · rw [if_neg hzero, if_neg fun he => hzero (hempty.mpr he), Option.map_some,
        h.clients.chatRoom_without hc hwithout]
  · rw [hmem, Function.update_of_ne hq]
    cases hx : s.roomMem q with
    | none => rfl
    | some x =>
        rw [Option.map_some, Option.bind_some, ChatRoom.without,
          if_neg fun hin => hq ((hslot hx).mpr hin)]

theorem Chat.leave_outside {x : Chat} {i : Fin maxClients} (h : x.roomOf i = none) : x.leave i = x := by
  have hsame : x.rooms.filterMap (ChatRoom.without i) = x.rooms := by
    have hid : x.rooms.filterMap (ChatRoom.without i) = x.rooms.filterMap some := by
      apply List.filterMap_congr
      intro R hR
      have hno := List.find?_eq_none.mp h R hR
      rw [ChatRoom.without, if_neg (by simpa using hno)]
    rw [hid, List.filterMap_some]
  rw [Chat.leave, hsame]

/-- A client record is written. -/
theorem session_update (h : ClientsOk s) (hc : s.Holds c cl) (hclients : t.clients = s.clients)
    (hmem : t.clientMem = Function.update s.clientMem c (some cl')) :
    t.session = Function.update s.session cl.slot (some cl'.session) := by
  funext i
  by_cases hi : i = cl.slot
  · subst hi
    rw [Function.update_self, Server.session, hclients, hc.1, Option.bind_some, hmem,
      Function.update_self, Option.map_some]
  · rw [Function.update_of_ne hi, Server.session, Server.session, hclients]
    cases hd : s.clients i with
    | none => rfl
    | some d =>
        have hdc : d ≠ c := by
          rintro rfl
          exact hi (h.slot_eq hc hd)
        rw [Option.bind_some, Option.bind_some, hmem, Function.update_of_ne hdc]

theorem session_same (h : ClientsOk s) (hc : s.Holds c cl) (hclients : t.clients = s.clients)
    (hmem : t.clientMem = Function.update s.clientMem c (some cl'))
    (hsession : cl'.session = cl.session) : t.session = s.session := by
  rw [session_update h hc hclients hmem, hsession, ← hc.session, Function.update_eq_self]

/-- **A client leaves its room** in the service too. -/
theorem Leaves.chat (h : ServerOk s l) (hc : s.Holds c cl) (hleaves : Leaves s t c cl) (hok : RoomsOk t l')
    (hborn : t.born = s.born) : t.chat = s.chat.leave cl.slot := by
  have husers := hleaves.users
  have hclients := hleaves.clients
  have hsession : t.session = s.session := session_same h.clients hc hclients (hleaves.clientMem hc) rfl
  rcases hleaves with ⟨hroom, rfl⟩ | ⟨p, r, r', hroom, hrem⟩
  · rw [Chat.leave_outside (h.roomOf_none hc hroom)]
  · have hr : s.roomMem p = some r := hrem.room
    have hmem : t.roomMem =
        Function.update s.roomMem p (if r'.participantCount = 0 then none else some r') := hrem.roomMem
    have hlive : ∀ q x, t.roomMem q = some x → ∃ y, s.roomMem q = some y := by
      intro q x hx
      by_cases hq : q = p
      · subst hq
        exact ⟨r, hr⟩
      · rw [hmem, Function.update_of_ne hq] at hx
        exact ⟨x, hx⟩
    have hrooms : t.chat.rooms = s.chat.rooms.filterMap (ChatRoom.without cl.slot) := by
      rw [hok.chat_rooms, h.rooms.filterMap_rooms hok hborn hlive, chatRoom_congr hclients,
        h.chat_rooms_removed hc hrem.without.was hr hrem.without hmem]
    rw [Chat.leave, ← hrooms]
    simp only [Server.chat, husers, hsession]

/-! ### Entering a room -/

/-- **A client enters a room** in the service too. -/
theorem Entered.chat (h : ServerOk s l) (hc : s.Holds c cl) (hent : Entered s t c p cl r)
    (hok : RoomsOk t l') (hborn : t.born = s.born) : t.chat = s.chat.enter r.roomName cl.slot := by
  have hsession : t.session = s.session := session_same h.clients hc hent.clients hent.clientMem rfl
  have hlive : ∀ q x, t.roomMem q = some x → ∃ y, s.roomMem q = some y := by
    intro q x hx
    by_cases hq : q = p
    · subst hq
      exact ⟨r, hent.room⟩
    · rw [hent.roomMem, Function.update_of_ne hq] at hx
      exact ⟨x, hx⟩
  have hrooms : t.chat.rooms =
      s.chat.rooms.map fun R => if R.name = r.roomName then R.withMember cl.slot else R := by
    rw [hok.chat_rooms, h.rooms.filterMap_rooms hok hborn hlive, chatRoom_congr hent.clients,
      h.rooms.chat_rooms, List.map_filterMap]
    apply List.filterMap_congr
    intro q _
    by_cases hq : q = p
    · subst hq
      have hmembers := (Room.add_members (h.rooms.packed q r hent.room) c).2
      have hname : (s.chatRoom r).name = r.roomName := rfl
      rw [hent.roomMem, Function.update_self, hent.room, Option.map_some, Option.map_some, Option.map_some,
        if_pos hname]
      simp only [Server.chatRoom, ChatRoom.withMember, hmembers, List.filterMap_append,
        List.filterMap_cons_some (h.clients.slotOf hc), List.filterMap_nil]
      rfl
    · rw [hent.roomMem, Function.update_of_ne hq]
      cases hx : s.roomMem q with
      | none => rfl
      | some x =>
          have hname : (s.chatRoom x).name ≠ r.roomName := fun he => hq (h.rooms.names q p x r hx hent.room he)
          rw [Option.map_some, Option.map_some, if_neg hname]
  rw [Chat.enter, ← hrooms]
  simp only [Server.chat, hent.users, hsession]

/-! ### Creating a room -/

theorem linkRoom_born (h : s.linkRoom p = some t) :
    t.born = Function.update s.born p s.created ∧ t.roomMem = s.roomMem := by
  unfold Server.linkRoom at h
  split at h
  · cases h
    exact ⟨rfl, rfl⟩
  · split at h
    · cases h
      exact ⟨rfl, rfl⟩
    · cases h

/-- **A new room** is the last of the service's. -/
theorem Created.chat (h : RoomsOk s l) {name password : Bytes} {stack : RoomRecord}
    (hcre : Created s t p name password stack) (hok : RoomsOk t l')
    (hborn : t.born = Function.update s.born p s.created) :
    t.chat = { s.chat with
      rooms := s.chat.rooms ++ [⟨name, password, (dbNextFreeRoomId s.db).1, []⟩] } := by
  have hclients := hcre.clients
  have hsession : t.session = s.session := by
    funext i
    rw [Server.session, Server.session, hclients.clients, hclients.clientMem]
  have hpl : p ∉ l := by
    intro hp
    obtain ⟨x, hx⟩ := (h.live p).mp hp
    rw [hcre.fresh] at hx
    cases hx
  have hold : ∀ q ∈ l, q ≠ p := fun q hq hqp => hpl (hqp ▸ hq)
  have hlist : l' = l ++ [p] := by
    apply eq_of_order t.born hok.order
    · rw [List.pairwise_append]
      refine ⟨h.order.imp_of_mem ?_, List.pairwise_singleton _ _, ?_⟩
      · intro a b ha hb hab
        rw [hborn, Function.update_of_ne (hold a ha), Function.update_of_ne (hold b hb)]
        exact hab
      · intro a ha b hb
        rw [List.mem_singleton.mp hb, hborn, Function.update_of_ne (hold a ha), Function.update_self]
        exact h.stamps a ha
    · intro q
      rw [hok.live q, List.mem_append, List.mem_singleton, h.live q, hcre.roomMem]
      by_cases hq : q = p
      · subst hq
        simp
      · simp [hq]
  have hrooms : t.chat.rooms = s.chat.rooms ++ [⟨name, password, (dbNextFreeRoomId s.db).1, []⟩] := by
    rw [hok.chat_rooms, h.chat_rooms, hlist, List.filterMap_append, chatRoom_congr hclients.clients]
    congr 1
    · apply List.filterMap_congr
      intro q hq
      rw [hcre.roomMem, Function.update_of_ne (hold q hq)]
    · rw [List.filterMap_cons, hcre.roomMem, Function.update_self]
      rfl
  rw [← hrooms]
  simp only [Server.chat, hclients.users, hsession]

/-! ### Connections -/

/-- Participants that stay in their slots are the same members. -/
theorem chatRoom_eq (hs : ClientsOk s) (ht : ClientsOk t)
    (hstay : ∀ d ∈ r.members, ∃ i, s.clients i = some d ∧ t.clients i = some d) :
    t.chatRoom r = s.chatRoom r := by
  have hmembers : r.members.filterMap t.slotOf = r.members.filterMap s.slotOf := by
    apply List.filterMap_congr
    intro d hd
    obtain ⟨i, hsi, hti⟩ := hstay d hd
    rw [hs.slotOf_iff.mpr hsi, ht.slotOf_iff.mpr hti]
  simp only [Server.chatRoom, hmembers]

/-- The rooms when nothing happens to them, and their participants stay. -/
theorem ServerOk.chat_rooms_same (hs : ClientsOk s) (h' : ServerOk t l)
    (hstay : ∀ i d, t.clients i = some d → (∃ q x, t.roomMem q = some x ∧ d ∈ x.members) →
      s.clients i = some d) :
    t.chat.rooms = l.filterMap fun q => (t.roomMem q).map s.chatRoom := by
  rw [h'.rooms.chat_rooms]
  apply List.filterMap_congr
  intro q _
  cases hx : t.roomMem q with
  | none => rfl
  | some x =>
      rw [Option.map_some, Option.map_some]
      congr 1
      apply chatRoom_eq hs h'.clients
      intro d hd
      obtain ⟨dl, hdl⟩ := h'.members_held hx d hd
      exact ⟨dl.slot, hstay _ d hdl.1 ⟨q, x, hx, hd⟩, hdl.1⟩

end EchoLink
