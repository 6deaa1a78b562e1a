import EchoLink.RoomList

/-!
# What the calls of the room manager do

One theorem for each of `room_create`, `room_leave`, `remove_client_from_room`
and the second half of `room_join`: from a well-formed room list the call
returns, the list stays well formed, and the change of the rooms, of the
clients and of the files is one of a few (`Created`, `Removed`, `Entered`).
Later modules use these theorems and never look at the calls again.
-/

namespace EchoLink

open CText RecordFile LinkedList PackedArray PartialMap

variable {s : Server} {l : List Ptr}

/-! ### `room_create` -/

/-- The search for the end of the list finds its last room. -/
theorem lastRoom_eq {u : Server} (hlinked : Linked u.roomNext u.roomPrev u.roomHead l)
    (hlive : ∀ q ∈ l, ∃ r, u.roomMem q = some r) (hbound : l.length ≤ maxRooms) :
    u.lastRoom = some l.getLast? := by
  have hwalk : u.lastRoom = some (l.find? fun q => (u.roomNext q).isNone) := by
    refine hlinked.walk ?_ (Nat.lt_succ_of_le hbound)
    intro q hq
    obtain ⟨r, hr⟩ := hlive q hq
    rw [hr, Option.map_some]
  rw [hwalk]
  cases hfind : l.find? fun q => (u.roomNext q).isNone with
  | none =>
      cases hlast : l.getLast? with
      | none => rfl
      | some q =>
          have hq := List.mem_of_getLast? hlast
          have hnext := (hlinked.next_eq_none_iff hq).mpr hlast
          have hno := List.find?_eq_none.mp hfind q hq
          rw [hnext] at hno
          exact absurd rfl hno
  | some q =>
      have hq := List.mem_of_find?_eq_some hfind
      have hnext : u.roomNext q = none := by simpa using List.find?_some hfind
      rw [(hlinked.next_eq_none_iff hq).mp hnext]

/-- The room `p` is new, with nobody in it. -/
structure Created (s t : Server) (p : Ptr) (name password : Bytes) (stack : RoomRecord) : Prop where
  fresh : s.roomMem p = none
  name_new : ∀ q r, s.roomMem q = some r → r.roomName ≠ name
  name_fits : name.length < maxRoomNameLen
  password_fits : password.length < maxPasswordLen
  clients : SameClients s t
  roomMem : t.roomMem =
    Function.update s.roomMem p (some (newRoom (dbNextFreeRoomId s.db).1 name password))
  files : t.files = (Server.writeRoom { s with db := (dbNextFreeRoomId s.db).2 }
    (dbNextFreeRoomId s.db).1 (newRecord stack (dbNextFreeRoomId s.db).1 name password)).2.files

/-- A new room at the end of the list. -/
theorem RoomsOk.snoc (h : RoomsOk s l) {p : Ptr} {r : Room} {t : Server} (hp : p ∉ l)
    (hroom : l.length < maxRooms) (hname : ∀ q x, s.roomMem q = some x → x.roomName ≠ r.roomName)
    (hpacked : Packed r.participants r.participantCount) (hempty : r.members = [])
    (hlinked : Linked t.roomNext t.roomPrev t.roomHead (l ++ [p]))
    (hcount : t.roomCount = s.roomCount + 1) (hmem : t.roomMem = Function.update s.roomMem p (some r))
    (hborn : t.born = Function.update s.born p s.created) (hcreated : t.created = s.created + 1) :
    RoomsOk t (l ++ [p]) := by
  have hnew : t.roomMem p = some r := by rw [hmem, Function.update_self]
  have hold : ∀ q, q ≠ p → t.roomMem q = s.roomMem q := by
    intro q hqp
    rw [hmem, Function.update_of_ne hqp]
  have hcases : ∀ q x, t.roomMem q = some x → (q = p ∧ x = r) ∨ (q ≠ p ∧ s.roomMem q = some x) := by
    intro q x hq
    rw [hmem] at hq
    exact update_some_cases hq
  have hne : ∀ q ∈ l, q ≠ p := fun q hq hqp => hp (hqp ▸ hq)
  have hbornOld : ∀ q ∈ l, t.born q = s.born q := by
    intro q hq
    rw [hborn, Function.update_of_ne (hne q hq)]
  have hbornNew : t.born p = s.created := by rw [hborn, Function.update_self]
  refine { linked := hlinked, count := ?_, bound := ?_, live := ?_, packed := ?_, names := ?_,
           order := ?_, stamps := ?_, first := ?_ }
  · rw [hcount, h.count, List.length_append, List.length_singleton]
    rfl
  · rw [List.length_append, List.length_singleton]
    exact hroom
  · intro q
    rw [List.mem_append, List.mem_singleton, h.live q]
    by_cases hqp : q = p
    · subst hqp
      exact ⟨fun _ => ⟨r, hnew⟩, fun _ => Or.inr rfl⟩
    · rw [hold q hqp]
      exact ⟨fun hq => hq.resolve_right hqp, Or.inl⟩
  · intro q x hq
    rcases hcases q x hq with ⟨_, rfl⟩ | ⟨_, hq⟩
    · exact hpacked
    · exact h.packed q x hq
  · intro q q' x x' hq hq' hxx'
    rcases hcases q x hq with ⟨rfl, rfl⟩ | ⟨_, hq⟩
    · rcases hcases q' x' hq' with ⟨rfl, _⟩ | ⟨_, hq'⟩
      · rfl
      · exact absurd hxx'.symm (hname q' x' hq')
    · rcases hcases q' x' hq' with ⟨rfl, rfl⟩ | ⟨_, hq'⟩
      · exact absurd hxx' (hname q x hq)
      · exact h.names q q' x x' hq hq' hxx'
  · rw [List.pairwise_append]
    refine ⟨?_, List.pairwise_singleton _ _, ?_⟩
    · refine h.order.imp_of_mem ?_
      intro a b ha hb hab
      rw [hbornOld a ha, hbornOld b hb]
      exact hab
    · intro a ha b hb
      rw [List.mem_singleton.mp hb, hbornOld a ha, hbornNew]
      exact h.stamps a ha
  · intro q hq
    rw [hcreated]
    rcases List.mem_append.mp hq with hq | hq
    · rw [hbornOld q hq]
      exact Nat.lt_succ_of_lt (h.stamps q hq)
    · rw [List.mem_singleton.mp hq, hbornNew]
      exact Nat.lt_succ_self _
  · rw [List.pairwise_append]
    refine ⟨?_, List.pairwise_singleton _ _, ?_⟩
    · refine h.first.imp_of_mem ?_
      intro a b ha hb hab x x' hx hx'
      rw [hold a (hne a ha)] at hx
      rw [hold b (hne b hb)] at hx'
      exact hab x x' hx hx'
    · -- the new room is empty
      intro a _ b hb x x' _ hx' hne'
      rw [List.mem_singleton.mp hb, hnew, Option.some.injEq] at hx'
      exact absurd (hx' ▸ hempty) hne'

/-- Linking a room that `malloc` returned. -/
theorem RoomsOk.linkRoom (h : RoomsOk s l) {p : Ptr} {r : Room} {u : Server} (hp : p ∉ l)
    (hroom : l.length < maxRooms) (hname : ∀ q x, s.roomMem q = some x → x.roomName ≠ r.roomName)
    (hpacked : Packed r.participants r.participantCount) (hempty : r.members = [])
    (hrooms : SameRooms (s.allocRoom p r) u) :
    ∃ t, u.linkRoom p = some t ∧ RoomsOk t (l ++ [p]) ∧ SameClients u t ∧ t.roomMem = u.roomMem ∧
      t.files = u.files := by
  have hne : ∀ q ∈ l, q ≠ p := fun q hq hqp => hp (hqp ▸ hq)
  have hnext : u.roomNext p = none := by
    rw [hrooms.next]
    simp only [Server.allocRoom, Function.update_self]
  have hlinked : Linked u.roomNext u.roomPrev u.roomHead l := by
    rw [hrooms.next, hrooms.prev, hrooms.head]
    exact h.linked.congr (fun q hq => Function.update_of_ne (hne q hq) _ _)
      fun q hq => Function.update_of_ne (hne q hq) _ _
  have hsnoc : ∀ t : Server, Linked t.roomNext t.roomPrev t.roomHead (l ++ [p]) →
      t.roomCount = u.roomCount + 1 → t.roomMem = u.roomMem →
      t.born = Function.update u.born p u.created → t.created = u.created + 1 →
      RoomsOk t (l ++ [p]) := by
    intro t hl hcount hmem hborn hcreated
    rw [hrooms.count] at hcount
    rw [hrooms.mem] at hmem
    rw [hrooms.born, hrooms.created] at hborn
    rw [hrooms.created] at hcreated
    exact h.snoc hp hroom hname hpacked hempty hl hcount hmem hborn hcreated
  cases l with
  | nil =>
      have hhead : u.roomHead = none := hlinked.head_eq
      have hprev : u.roomPrev p = none := by
        rw [hrooms.prev]
        simp only [Server.allocRoom, Function.update_self]
      have hlink : u.linkRoom p = some { u with
          roomHead := some p
          roomCount := u.roomCount + 1
          born := Function.update u.born p u.created
          created := u.created + 1 } := by
        simp only [Server.linkRoom, hhead]
      refine ⟨_, hlink, ?_, ⟨rfl, rfl, rfl, rfl, rfl⟩, rfl, rfl⟩
      exact hsnoc _ (linked_singleton hnext hprev) rfl rfl rfl rfl
  | cons q l =>
      have hhead : u.roomHead = some q := hlinked.head_eq
      obtain ⟨last, hlast⟩ : ∃ last, (q :: l).getLast? = some last :=
        ⟨_, List.getLast?_eq_some_getLast (List.cons_ne_nil q l)⟩
      have hlive : ∀ q' ∈ q :: l, ∃ x, u.roomMem q' = some x := by
        intro q' hq'
        rw [hrooms.mem]
        simp only [Server.allocRoom, Function.update_of_ne (hne q' hq')]
        exact (h.live q').mp hq'
      have hend := lastRoom_eq hlinked hlive h.bound
      rw [hlast] at hend
      have hlink : u.linkRoom p = some { u with
          roomNext := Function.update u.roomNext last (some p)
          roomPrev := Function.update u.roomPrev p (some last)
          roomCount := u.roomCount + 1
          born := Function.update u.born p u.created
          created := u.created + 1 } := by
        simp only [Server.linkRoom, hhead, hend]
      refine ⟨_, hlink, ?_, ⟨rfl, rfl, rfl, rfl, rfl⟩, rfl, rfl⟩
      exact hsnoc _ (hlinked.snoc hlast hp hnext) rfl rfl rfl rfl

/-- Without a short write the room records are what they were. -/
def SameRecords (s t : Server) : Prop :=
  s.wrote = [] → t.wrote = [] ∧ t.db.rooms.data = s.db.rooms.data

theorem dbNextFreeRoomId_data (db : FileDb) :
    (dbNextFreeRoomId db).2.rooms.data = db.rooms.data := by
  rw [dbNextFreeRoomId]
  dsimp only
  rw [readLoop_data, seek_data]

theorem writeRoom_complete (h : s.wrote = []) (roomId : Nat) (r : RoomRecord) :
    (s.writeRoom roomId r).1 = true := by
  simp [Server.writeRoom, dbWriteRoom, h]

/-- A room that could not be stored is freed again. -/
theorem RoomsOk.freeRoom (h : RoomsOk s l) {p : Ptr} {r : Room} {u : Server} (hp : s.roomMem p = none)
    (hrooms : SameRooms (s.allocRoom p r) u) :
    RoomsOk (u.freeRoom p) l ∧ (u.freeRoom p).roomMem = s.roomMem := by
  have hne : ∀ q ∈ l, q ≠ p := by
    rintro q hq rfl
    obtain ⟨x, hx⟩ := (h.live q).mp hq
    rw [hp] at hx
    cases hx
  have hmem : (u.freeRoom p).roomMem = s.roomMem := by
    rw [Server.freeRoom, hrooms.mem]
    simp only [Server.allocRoom, Function.update_idem]
    rw [← hp, Function.update_eq_self]
  have hlinked : Linked u.roomNext u.roomPrev u.roomHead l := by
    rw [hrooms.next, hrooms.prev, hrooms.head]
    exact h.linked.congr (fun q hq => Function.update_of_ne (hne q hq) _ _)
      fun q hq => Function.update_of_ne (hne q hq) _ _
  refine ⟨?_, hmem⟩
  refine { linked := hlinked, count := hrooms.count.trans h.count, bound := h.bound, live := ?_,
           packed := ?_, names := ?_, order := ?_, stamps := ?_, first := ?_ }
  · rw [hmem]
    exact h.live
  · rw [hmem]
    exact h.packed
  · rw [hmem]
    exact h.names
  · have hborn : (u.freeRoom p).born = s.born := hrooms.born
    rw [hborn]
    exact h.order
  · have hborn : (u.freeRoom p).born = s.born := hrooms.born
    have hcreated : (u.freeRoom p).created = s.created := hrooms.created
    rw [hborn, hcreated]
    exact h.stamps
  · refine h.first.imp ?_
    intro a b hab x x' hx hx'
    rw [hmem] at hx hx'
    exact hab x x' hx hx'

/-- **`room_create`**: a new empty room, or no change of the rooms. -/
theorem RoomsOk.roomCreate (h : RoomsOk s l) {env : Env} {name password : Bytes}
    (hfresh : ∀ p, env.malloc = some p → s.roomMem p = none)
    (hname : name.length < maxRoomNameLen) (hpassword : password.length < maxPasswordLen) :
    ∃ k t l', roomCreate env s name password = some (k, t) ∧ RoomsOk t l' ∧ SameClients s t ∧
      ((t.roomMem = s.roomMem ∧ SameRecords s t) ∨ ∃ p, Created s t p name password env.stack) := by
  cases hfind : roomFindByName s name with
  | none =>
      rw [roomFindByName, h.findRoom] at hfind
      cases hfind
  | some found =>
      cases found with
      | some q =>
          exact ⟨-1, s, l, by simp only [EchoLink.roomCreate, hfind], h, SameClients.refl s,
            Or.inl ⟨rfl, fun hw => ⟨hw, rfl⟩⟩⟩
      | none =>
          by_cases hfull : (maxRooms : Int) ≤ s.roomCount
          · exact ⟨-2, s, l, by simp only [EchoLink.roomCreate, hfind, if_pos hfull], h,
              SameClients.refl s, Or.inl ⟨rfl, fun hw => ⟨hw, rfl⟩⟩⟩
          · have hroom : l.length < maxRooms := by
              rw [h.count] at hfull
              omega
            have hnew : ∀ q x, s.roomMem q = some x → x.roomName ≠ name := by
              intro q x hx
              simpa using h.findRoom_none hfind hx
            cases hmalloc : env.malloc with
            | none =>
                refine ⟨-3, { s with db := (dbNextFreeRoomId s.db).2 }, l, ?_, ?_, ?_, Or.inl ⟨rfl, ?_⟩⟩
                · simp only [EchoLink.roomCreate, hfind, if_neg hfull, hmalloc]
                · exact h.of_same ⟨rfl, rfl, rfl, rfl, rfl, rfl, rfl⟩
                · exact ⟨rfl, rfl, rfl, rfl, rfl⟩
                · exact fun hw => ⟨hw, dbNextFreeRoomId_data s.db⟩
            | some p =>
                have hp := hfresh p hmalloc
                have hpl : p ∉ l := by
                  intro hpl
                  obtain ⟨x, hx⟩ := (h.live p).mp hpl
                  rw [hp] at hx
                  cases hx
                have hfits : ¬ (maxRoomNameLen ≤ name.length ∨ maxPasswordLen ≤ password.length) := by
                  omega
                let id := (dbNextFreeRoomId s.db).1
                let s₁ := Server.allocRoom { s with db := (dbNextFreeRoomId s.db).2 } p
                  (newRoom id name password)
                let w := s₁.writeRoom id (newRecord env.stack id name password)
                have hrooms : SameRooms (s.allocRoom p (newRoom id name password)) w.2 :=
                  ⟨rfl, rfl, rfl, rfl, rfl, rfl, rfl⟩
                have hcode : EchoLink.roomCreate env s name password =
                    if w.1 then (w.2.linkRoom p).map fun s₂ => ((id : Int), s₂)
                    else some (-4, w.2.freeRoom p) := by
                  simp only [EchoLink.roomCreate, hfind, if_neg hfull, hmalloc, if_neg hfits]
                  rfl
                by_cases hw : w.1 = true
                · obtain ⟨t, hlink, hok, hclients, hmem, hfiles⟩ :=
                    h.linkRoom hpl hroom hnew packed_zero rfl hrooms
                  have hsame : SameClients s t :=
                    ⟨hclients.clients, hclients.clientCount, hclients.fdToSlot, hclients.clientMem,
                      hclients.users⟩
                  refine ⟨id, t, l ++ [p], ?_, hok, hsame, Or.inr ⟨p, ?_⟩⟩
                  · rw [hcode, if_pos hw, hlink, Option.map_some]
                  · exact ⟨hp, hnew, hname, hpassword, hsame, hmem.trans hrooms.mem, hfiles⟩
                · obtain ⟨hok, hmem⟩ := h.freeRoom hp hrooms
                  refine ⟨-4, w.2.freeRoom p, l, ?_, hok, ⟨rfl, rfl, rfl, rfl, rfl⟩, Or.inl ⟨hmem, ?_⟩⟩
                  · rw [hcode, if_neg hw]
                  · intro hwrote
                    have hs₁ : s₁.wrote = [] := hwrote
                    exact absurd (writeRoom_complete hs₁ _ _) hw

/-! ### Leaving -/

/-- **`room_leave`** of a client that is among the participants of its room. -/
theorem RoomsOk.roomLeave (h : RoomsOk s l) {c p : Ptr} {cl : Client} {r : Room}
    (hc : s.clientMem c = some cl) (hp : cl.currentRoom = some p) (hr : s.roomMem p = some r)
    (hmem : c ∈ r.members) :
    ∃ t l' r', roomLeave s c = some (0, t) ∧ RoomsOk t l' ∧ r.remove c cl.isMute = some r' ∧
      Removed (s.setClient c { cl with currentRoom := none }) t p c r r' := by
  obtain ⟨r', hremove, hwithout⟩ := Room.remove_without (h.packed p r hr) hmem cl.isMute
  obtain ⟨t, l', hafter, hok, hremoved⟩ :=
    (h.setClient c { cl with currentRoom := none }).afterRemoval hr hwithout
  refine ⟨t, l', r', ?_, hok, hremove, hremoved⟩
  have hswap : (s.setRoom p r').setClient c { cl with currentRoom := none } =
      (s.setClient c { cl with currentRoom := none }).setRoom p r' := rfl
  simp only [EchoLink.roomLeave, hc, hp, hr, hremove, hswap, hafter, Option.map_some]

/-- **`remove_client_from_room`** of a client that is among the participants. -/
theorem RoomsOk.removeClientFromRoom (h : RoomsOk s l) {c p : Ptr} {cl : Client} {r : Room}
    (hc : s.clientMem c = some cl) (hr : s.roomMem p = some r) (hmem : c ∈ r.members) :
    ∃ t l' r', removeClientFromRoom s p c = some t ∧ RoomsOk t l' ∧ r.remove c cl.isMute = some r' ∧
      Removed s t p c r r' := by
  obtain ⟨r', hremove, hwithout⟩ := Room.remove_without (h.packed p r hr) hmem cl.isMute
  obtain ⟨t, l', hafter, hok, hremoved⟩ := h.afterRemoval hr hwithout
  refine ⟨t, l', r', ?_, hok, hremove, hremoved⟩
  simp only [EchoLink.removeClientFromRoom, hc, hr, hremove, hafter]

/-! ### Joining -/

/-- The client `c` is the last participant of the room `p` now. -/
structure Entered (s t : Server) (c p : Ptr) (cl : Client) (r : Room) : Prop where
  client : s.clientMem c = some cl
  room : s.roomMem p = some r
  clients : t.clients = s.clients
  users : t.users = s.users
  clientMem : t.clientMem = Function.update s.clientMem c (some { cl with currentRoom := some p })
  roomMem : t.roomMem = Function.update s.roomMem p (some (r.add c))
  files : t.files = (s.persistCount r.roomId (r.participantCount + 1)).files

/-- The room with one participant more. -/
theorem Room.add_members {r : Room} (h : Packed r.participants r.participantCount) (c : Ptr) :
    Packed (r.add c).participants (r.add c).participantCount ∧ (r.add c).members = r.members ++ [c] :=
  h.put c

/-- **`room_join`** of a client that is in no room: it enters the first room
with the id, or is refused. -/
theorem RoomsOk.enter (h : RoomsOk s l) {c : Ptr} {cl : Client} (hc : s.clientMem c = some cl)
    (roomId : Nat) (password : Bytes) :
    ∃ k t, s.enter roomId password c = some (k, t) ∧ RoomsOk t l ∧
      ((t = s ∧ (k = -2 ∨ k = -3 ∨
          (k = -4 ∧ ∃ p r, s.roomMem p = some r ∧ maxClients ≤ r.participantCount))) ∨
        (k = 0 ∧ ∃ p r, r.roomId = roomId ∧ Entered s t c p cl r)) := by
  cases hfind : roomFindById s roomId with
  | none =>
      rw [roomFindById, h.findRoom] at hfind
      cases hfind
  | some found =>
      cases found with
      | none =>
          exact ⟨-2, s, by simp only [Server.enter, hfind], h, Or.inl ⟨rfl, Or.inl rfl⟩⟩
      | some p =>
          obtain ⟨r, hr, hid⟩ := h.findRoom_some hfind
          have hid : r.roomId = roomId := by simpa using hid
          by_cases hpw : r.password ≠ [] ∧ r.password ≠ password
          · exact ⟨-3, s, by simp only [Server.enter, hfind, hr, hc, if_pos hpw], h,
              Or.inl ⟨rfl, Or.inr (Or.inl rfl)⟩⟩
          · by_cases hfull : maxClients ≤ r.participantCount
            · exact ⟨-4, s, by simp only [Server.enter, hfind, hr, hc, if_neg hpw, if_pos hfull], h,
                Or.inl ⟨rfl, Or.inr (Or.inr ⟨rfl, p, r, hr, hfull⟩)⟩⟩
            · let s₁ := (s.setRoom p (r.add c)).setClient c { cl with currentRoom := some p }
              obtain ⟨hrooms, hclients⟩ := persistCount_same s₁ roomId (r.participantCount + 1)
              obtain ⟨hpacked, _⟩ := Room.add_members (h.packed p r hr) c
              have hroom : RoomsOk (s.setRoom p (r.add c)) l :=
                h.setRoom hr rfl rfl hpacked fun _ => by rw [hid, hfind]
              have hset : RoomsOk s₁ l := hroom.setClient c _
              have hs₁ : s₁.files = s.files := rfl
              refine ⟨0, s₁.persistCount roomId (r.participantCount + 1), ?_, hset.of_same hrooms,
                Or.inr ⟨rfl, p, r, hid, ?_⟩⟩
              · simp only [Server.enter, hfind, hr, hc, if_neg hpw, if_neg hfull]
                rfl
              · exact ⟨hc, hr, hclients.clients, hclients.users, hclients.clientMem, hrooms.mem,
                  by rw [hid]; exact persistCount_files hs₁ _ _⟩

end EchoLink
