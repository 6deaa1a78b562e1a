import EchoLink.RoomAgreement

/-!
# A join that fails

`room_join` makes a client that is in a room leave it before it looks for the
room to join: the room may be deleted then, and its record is written.  The
checks that can refuse the client come after that.  So a call that fails leaves
the server as it was if the client was in no room, and as `room_leave` leaves
it otherwise (`failed_join_only_leaves`).
-/

namespace EchoLink

open CText RecordFile LinkedList PackedArray PartialMap Runs

variable {s t : Server} {l : List Ptr} {c : Ptr} {cl : Client} {roomId : Nat} {password : Bytes}

/-- The client is among the participants of a room with the id, and knows it. -/
def InRoom (s : Server) (c : Ptr) (roomId : Nat) : Prop :=
  ∃ p r cl, s.roomMem p = some r ∧ r.roomId = roomId ∧ c ∈ r.members ∧ s.clientMem c = some cl ∧
    cl.currentRoom = some p

theorem Entered.inRoom {p : Ptr} {r : Room} (h : Entered s t c p cl r)
    (hpacked : Packed r.participants r.participantCount) : InRoom t c r.roomId := by
  have hmembers := (Room.add_members hpacked c).2
  refine ⟨p, r.add c, { cl with currentRoom := some p }, by rw [h.roomMem, Function.update_self], rfl, ?_,
    by rw [h.clientMem, Function.update_self], rfl⟩
  rw [hmembers]
  exact List.mem_append_right _ (List.mem_singleton_self c)

/-- What a call of `room_join` comes to for a client that is in no room. -/
theorem enter_outcome (h : RoomsOk s l) (hc : s.clientMem c = some cl) (roomId : Nat) (password : Bytes) :
    ∃ k t, s.enter roomId password c = some (k, t) ∧ ((k = 0 ∧ InRoom t c roomId) ∨ (k < 0 ∧ t = s)) := by
  obtain ⟨k, t, hcode, _, hout⟩ := h.enter hc roomId password
  refine ⟨k, t, hcode, ?_⟩
  rcases hout with ⟨rfl, hk⟩ | ⟨hk, p, r, hid, hentered⟩
  · refine Or.inr ⟨?_, rfl⟩
    rcases hk with rfl | rfl | ⟨rfl, _⟩ <;> decide
  · refine Or.inl ⟨hk, ?_⟩
    rw [← hid]
    exact hentered.inRoom (h.packed p r hentered.room)

/-- How a failed join leaves the server: as it was if the client was in no room,
and as `room_leave` leaves it otherwise, with the client in no room then. -/
def OnlyLeft (s : Server) (c : Ptr) (t : Server) : Prop :=
  ∃ cl, s.clientMem c = some cl ∧
    ((cl.currentRoom = none ∧ t = s) ∨
      (cl.currentRoom ≠ none ∧ roomLeave s c = some (0, t) ∧
        t.clientMem c = some { cl with currentRoom := none }))

/-- **A failed join only leaves**: from every reachable state, for every client,
room id and password, and whatever the record writes do. -/
theorem failed_join_only_leaves (db : FileDb) (users : File) (ops : List (Op × Env)) (s : Server)
    (hfresh : Along Server.step Fresh (Server.start db users) ops)
    (hreach : run Server.step (Server.start db users) ops = some s) (wrote : List Nat)
    (slot : Fin maxClients) (c : Ptr) (hslot : s.clients slot = some c) (roomId : Nat) (password : Bytes) :
    ∃ k t, roomJoin { s with wrote := wrote } roomId password c = some (k, t) ∧
      ((k = 0 ∧ InRoom t c roomId) ∨ (k < 0 ∧ OnlyLeft { s with wrote := wrote } c t)) := by
  obtain ⟨l, hok⟩ := reachable_ok hfresh hreach
  obtain ⟨cl, hheld, _, _⟩ := hok.clients.holds hslot
  have hok' := hok.with_wrote wrote
  have hheld' : Server.Holds { s with wrote := wrote } c cl := hheld
  generalize ({ s with wrote := wrote } : Server) = u at *
  unfold roomJoin
  rw [hheld'.2]
  dsimp only
  by_cases hroom : cl.currentRoom = none
  · rw [if_pos hroom]
    obtain ⟨k, t, hcode, hout⟩ := enter_outcome hok'.rooms hheld'.2 roomId password
    refine ⟨k, t, hcode, ?_⟩
    rcases hout with hin | ⟨hk, rfl⟩
    · exact Or.inl hin
    · exact Or.inr ⟨hk, cl, hheld'.2, Or.inl ⟨hroom, rfl⟩⟩
  · rw [if_neg hroom]
    obtain ⟨p, hp⟩ := Option.ne_none_iff_exists'.mp hroom
    obtain ⟨r, hr, hmem⟩ := hok'.in_room hheld' hp
    obtain ⟨v, l', r', hleave, hrooms, _, hremoved⟩ := hok'.rooms.roomLeave hheld'.2 hp hr hmem
    have hclient : v.clientMem c = some { cl with currentRoom := none } := by
      rw [hremoved.clients.clientMem]
      exact Function.update_self _ _ _
    obtain ⟨k, t, hcode, hout⟩ := enter_outcome hrooms hclient roomId password
    rw [hleave]
    refine ⟨k, t, hcode, ?_⟩
    rcases hout with hin | ⟨hk, rfl⟩
    · exact Or.inl hin
    · exact Or.inr ⟨hk, cl, hheld'.2, Or.inr ⟨hroom, hleave, hclient⟩⟩

/-- The room list, the participants of every room, the room of the client and
`rooms.bin` are as before. -/
structure Unchanged (s : Server) (c : Ptr) (t : Server) : Prop where
  head : t.roomHead = s.roomHead
  next : t.roomNext = s.roomNext
  members : t.membersOf = s.membersOf
  current : (t.clientMem c).map Client.currentRoom = (s.clientMem c).map Client.currentRoom
  records : t.db.rooms.data = s.db.rooms.data

/-- The admin is in the lobby and tries to join a room that is not there. -/
def adminStrays : Option (Int × Option Ptr × Option Ptr) :=
  (run Server.step (Server.start emptyDb startTable) lobbyOps).bind fun s =>
    (roomJoin { s with wrote := [] } 7 [] 1).map fun r =>
      (r.1, (s.clientMem 1).bind Client.currentRoom, (r.2.clientMem 1).bind Client.currentRoom)

/-- The call fails, and the admin is out of the lobby. -/
theorem failed_join_admin :
    (∃ s k t, run Server.step (Server.start emptyDb startTable) lobbyOps = some s ∧
      roomJoin { s with wrote := [] } 7 [] 1 = some (k, t) ∧
        ((k = 0 ∧ InRoom t 1 7) ∨ (k < 0 ∧ OnlyLeft { s with wrote := [] } 1 t))) ∧
      adminStrays = some (-2, some 2, none) := by
  have hslot : (run Server.step (Server.start emptyDb startTable) lobbyOps).map
      (fun s => s.clients firstSlot) = some (some 1) := by decide +kernel
  obtain ⟨s, hs, hclient⟩ := Option.map_eq_some_iff.mp hslot
  obtain ⟨k, t, hjoin, hout⟩ := failed_join_only_leaves emptyDb startTable lobbyOps s lobbyOps_fresh hs []
    firstSlot 1 hclient 7 []
  exact ⟨⟨s, k, t, hs, hjoin, hout⟩, by decide +kernel⟩

/-- A failed join is not without effect. -/
theorem failed_join_changes :
    ¬ ∀ (db : FileDb) (users : File) (ops : List (Op × Env)) (s : Server),
      Along Server.step Fresh (Server.start db users) ops →
      run Server.step (Server.start db users) ops = some s →
      ∀ wrote slot c, s.clients slot = some c → ∀ roomId password k t,
        roomJoin { s with wrote := wrote } roomId password c = some (k, t) →
          (k = 0 ∧ InRoom t c roomId) ∨ (k < 0 ∧ Unchanged { s with wrote := wrote } c t) := by
  intro hall
  have hslot : (run Server.step (Server.start emptyDb startTable) lobbyOps).map
      (fun s => s.clients firstSlot) = some (some 1) := by decide +kernel
  have hend : adminStrays = some (-2, some 2, none) := by decide +kernel
  obtain ⟨s, hs, hclient⟩ := Option.map_eq_some_iff.mp hslot
  rw [adminStrays, hs, Option.bind_some] at hend
  obtain ⟨⟨k, t⟩, hjoin, hvalues⟩ := Option.map_eq_some_iff.mp hend
  obtain ⟨hk, hbefore, hafter⟩ : k = -2 ∧ _ ∧ _ := by simpa only [Prod.mk.injEq] using hvalues
  rcases hall emptyDb startTable lobbyOps s lobbyOps_fresh hs [] firstSlot 1 hclient 7 [] k t hjoin with
    ⟨hzero, _⟩ | ⟨_, hsame⟩
  · rw [hk] at hzero
    cases hzero
  · obtain ⟨cl, hcl, hroom⟩ := Option.bind_eq_some_iff.mp hbefore
    have hcurrent := hsame.current
    rw [hcl, Option.map_some, hroom] at hcurrent
    obtain ⟨cl', hcl', hroom'⟩ := Option.map_eq_some_iff.mp hcurrent
    rw [hcl', Option.bind_some, hroom'] at hafter
    cases hafter

end EchoLink
