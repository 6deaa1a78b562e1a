import EchoLink.RoomManager
import EchoLink.PartialMap

/-!
# The room list stays well formed

`RoomsOk` is what holds of the rooms in every state: the links form one list
of exactly the rooms on the heap, in the order of their creation, with
different names, their participants packed to the front.

It also says that a room with participants is the first of the list with its
`room_id`.  When the record file loses a record, a new room may get the id of
a live one; since `room_join` searches by id and takes the first, the newer
room stays empty.  This is why `room_delete`, which searches by id too, always
deletes the room that has become empty (`RoomsOk.find_id`).  Nothing here
depends on what the record writes do.
-/

namespace EchoLink

open CText RecordFile LinkedList PackedArray PartialMap

/-- A room that has participants shares its id with no room before it. -/
def Server.Precedes (s : Server) (p q : Ptr) : Prop :=
  ∀ r r', s.roomMem p = some r → s.roomMem q = some r' → r'.members ≠ [] → r.roomId ≠ r'.roomId

/-- The rooms of the server, in the order of the list. -/
structure RoomsOk (s : Server) (l : List Ptr) : Prop where
  linked : Linked s.roomNext s.roomPrev s.roomHead l
  count : s.roomCount = l.length
  bound : l.length ≤ maxRooms
  live : ∀ p, p ∈ l ↔ ∃ r, s.roomMem p = some r
  packed : ∀ p r, s.roomMem p = some r → Packed r.participants r.participantCount
  names : ∀ p q r r', s.roomMem p = some r → s.roomMem q = some r' → r.roomName = r'.roomName → p = q
  order : l.Pairwise fun p q => s.born p < s.born q
  stamps : ∀ p ∈ l, s.born p < s.created
  first : l.Pairwise s.Precedes

/-- The links form one list of allocated rooms.  There may be other rooms: one
that has left the list and is not freed yet. -/
structure ListOk (s : Server) (l : List Ptr) : Prop where
  linked : Linked s.roomNext s.roomPrev s.roomHead l
  bound : l.length ≤ maxRooms
  live : ∀ p ∈ l, ∃ r, s.roomMem p = some r

theorem RoomsOk.listOk {s : Server} {l : List Ptr} (h : RoomsOk s l) : ListOk s l :=
  ⟨h.linked, h.bound, fun p hp => (h.live p).mp hp⟩

/-- What the record operations work on. -/
def Server.files (s : Server) : FileDb × List Nat := (s.db, s.wrote)

/-- The two states have the same rooms. -/
structure SameRooms (s s' : Server) : Prop where
  mem : s'.roomMem = s.roomMem
  next : s'.roomNext = s.roomNext
  prev : s'.roomPrev = s.roomPrev
  head : s'.roomHead = s.roomHead
  count : s'.roomCount = s.roomCount
  born : s'.born = s.born
  created : s'.created = s.created

/-- The two states have the same clients and accounts. -/
structure SameClients (s s' : Server) : Prop where
  clients : s'.clients = s.clients
  clientCount : s'.clientCount = s.clientCount
  fdToSlot : s'.fdToSlot = s.fdToSlot
  clientMem : s'.clientMem = s.clientMem
  users : s'.users = s.users

theorem SameRooms.refl (s : Server) : SameRooms s s := ⟨rfl, rfl, rfl, rfl, rfl, rfl, rfl⟩

theorem SameClients.refl (s : Server) : SameClients s s := ⟨rfl, rfl, rfl, rfl, rfl⟩

theorem SameClients.trans {s s' s'' : Server} (h : SameClients s s') (h' : SameClients s' s'') :
    SameClients s s'' :=
  ⟨h'.clients.trans h.clients, h'.clientCount.trans h.clientCount, h'.fdToSlot.trans h.fdToSlot,
    h'.clientMem.trans h.clientMem, h'.users.trans h.users⟩

variable {s s' : Server} {l : List Ptr}

theorem RoomsOk.of_same (h : RoomsOk s l) (hs : SameRooms s s') : RoomsOk s' l where
  linked := by rw [hs.next, hs.prev, hs.head]; exact h.linked
  count := by rw [hs.count]; exact h.count
  bound := h.bound
  live := by rw [hs.mem]; exact h.live
  packed := by rw [hs.mem]; exact h.packed
  names := by rw [hs.mem]; exact h.names
  order := by rw [hs.born]; exact h.order
  stamps := by rw [hs.born, hs.created]; exact h.stamps
  first := by
    refine h.first.imp ?_
    intro p q hpq r r' hr hr'
    rw [hs.mem] at hr hr'
    exact hpq r r' hr hr'

/-- A client record is written. -/
theorem RoomsOk.setClient (h : RoomsOk s l) (c : Ptr) (cl : Client) : RoomsOk (s.setClient c cl) l :=
  h.of_same ⟨rfl, rfl, rfl, rfl, rfl, rfl, rfl⟩

theorem RoomsOk.start (db : FileDb) (users : File) : RoomsOk (Server.start db users) [] where
  linked := ⟨rfl, trivial, List.nodup_nil⟩
  count := rfl
  bound := by simp
  live := by simp [Server.start]
  packed := by simp [Server.start]
  names := by simp [Server.start]
  order := List.Pairwise.nil
  stamps := by simp
  first := List.Pairwise.nil

/-! ### The files -/

theorem persistCount_same (s : Server) (roomId n : Nat) :
    SameRooms s (s.persistCount roomId n) ∧ SameClients s (s.persistCount roomId n) := by
  simp only [Server.persistCount]
  split
  · exact ⟨⟨rfl, rfl, rfl, rfl, rfl, rfl, rfl⟩, ⟨rfl, rfl, rfl, rfl, rfl⟩⟩
  · exact ⟨⟨rfl, rfl, rfl, rfl, rfl, rfl, rfl⟩, ⟨rfl, rfl, rfl, rfl, rfl⟩⟩

theorem deactivate_same (s : Server) (roomId : Nat) :
    SameRooms s (s.deactivate roomId) ∧ SameClients s (s.deactivate roomId) := by
  simp only [Server.deactivate]
  split
  · exact ⟨⟨rfl, rfl, rfl, rfl, rfl, rfl, rfl⟩, ⟨rfl, rfl, rfl, rfl, rfl⟩⟩
  · exact ⟨⟨rfl, rfl, rfl, rfl, rfl, rfl, rfl⟩, ⟨rfl, rfl, rfl, rfl, rfl⟩⟩

theorem persistCount_files (h : s'.files = s.files) (roomId n : Nat) :
    (s'.persistCount roomId n).files = (s.persistCount roomId n).files := by
  obtain ⟨hdb, hwrote⟩ := Prod.mk.inj h
  simp only [Server.persistCount, hdb]
  split
  · simp only [Server.files, Server.writeRoom, hwrote]
  · exact Prod.ext rfl hwrote

theorem deactivate_files (h : s'.files = s.files) (roomId : Nat) :
    (s'.deactivate roomId).files = (s.deactivate roomId).files := by
  obtain ⟨hdb, hwrote⟩ := Prod.mk.inj h
  simp only [Server.deactivate, hdb]
  split
  · simp only [Server.files, Server.writeRoom, hwrote]
  · exact Prod.ext rfl hwrote

/-! ### Searching -/

theorem RoomsOk.mem_of_room (h : RoomsOk s l) {p : Ptr} {r : Room} (hr : s.roomMem p = some r) :
    p ∈ l := (h.live p).mpr ⟨r, hr⟩

/-- A search of the list returns and finds the first room that passes. -/
theorem ListOk.findRoom (h : ListOk s l) (test : Room → Bool) :
    s.findRoom test = some (l.find? fun p => (s.roomMem p).any test) := by
  refine h.linked.walk ?_ (Nat.lt_succ_of_le h.bound)
  intro p hp
  obtain ⟨r, hr⟩ := h.live p hp
  simp [hr]

theorem RoomsOk.findRoom (h : RoomsOk s l) (test : Room → Bool) :
    s.findRoom test = some (l.find? fun p => (s.roomMem p).any test) := h.listOk.findRoom test

/-- What a search finds is a room that passes. -/
theorem RoomsOk.findRoom_some (h : RoomsOk s l) {test : Room → Bool} {p : Ptr}
    (hfind : s.findRoom test = some (some p)) :
    ∃ r, s.roomMem p = some r ∧ test r = true := by
  rw [h.findRoom, Option.some.injEq] at hfind
  have htest := List.find?_some hfind
  obtain ⟨r, hr⟩ := (h.live p).mp (List.mem_of_find?_eq_some hfind)
  refine ⟨r, hr, ?_⟩
  simpa [hr] using htest

theorem RoomsOk.findRoom_none (h : RoomsOk s l) {test : Room → Bool}
    (hfind : s.findRoom test = some none) {p : Ptr} {r : Room} (hr : s.roomMem p = some r) :
    test r = false := by
  rw [h.findRoom, Option.some.injEq, List.find?_eq_none] at hfind
  simpa [hr] using hfind p (h.mem_of_room hr)

/-- **The search by id finds the room with participants.** -/
theorem RoomsOk.find_id (h : RoomsOk s l) {p : Ptr} {r : Room} (hr : s.roomMem p = some r)
    (hmem : r.members ≠ []) : roomFindById s r.roomId = some (some p) := by
  obtain ⟨l₁, l₂, hl⟩ := List.append_of_mem (h.mem_of_room hr)
  have hfirst := h.first
  rw [hl, List.pairwise_append] at hfirst
  rw [roomFindById, h.findRoom, Option.some.injEq, List.find?_eq_some_iff_append]
  refine ⟨by simp [hr], l₁, l₂, hl, ?_⟩
  intro q hq
  have hbefore := hfirst.2.2 q hq p List.mem_cons_self
  cases hrq : s.roomMem q with
  | none => simp
  | some rq => simpa using hbefore rq r hrq hr hmem

/-! ### Changing a room in place -/

/-- The rooms before the one that a search by id finds have other ids. -/
theorem RoomsOk.precedes_of_find (h : RoomsOk s l) {p : Ptr} {roomId : Nat}
    (hfind : roomFindById s roomId = some (some p)) :
    l.Pairwise fun a b => b = p → ∀ x, s.roomMem a = some x → x.roomId ≠ roomId := by
  rw [roomFindById, h.findRoom, Option.some.injEq, List.find?_eq_some_iff_append] at hfind
  obtain ⟨-, l₁, l₂, hl, hbefore⟩ := hfind
  have hnd := h.linked.nodup
  rw [hl, List.nodup_append] at hnd
  have hp₁ : p ∉ l₁ := fun hp => hnd.2.2 p hp p List.mem_cons_self rfl
  have hp₂ : p ∉ l₂ := (List.nodup_cons.mp hnd.2.1).1
  rw [hl, List.pairwise_append, List.pairwise_cons]
  refine ⟨?_, ⟨?_, ?_⟩, ?_⟩
  · exact List.pairwise_of_forall_mem_list fun a _ b hb hbp => absurd (hbp ▸ hb) hp₁
  · exact fun b hb hbp => absurd (hbp ▸ hb) hp₂
  · exact List.pairwise_of_forall_mem_list fun a _ b hb hbp => absurd (hbp ▸ hb) hp₂
  · intro a ha b _ _ x hx
    simpa [hx] using hbefore a ha

/-- A room is replaced by one with the same id and name, which has participants
only if it is the first with its id. -/
theorem RoomsOk.setRoom (h : RoomsOk s l) {p : Ptr} {r r' : Room} (hr : s.roomMem p = some r)
    (hid : r'.roomId = r.roomId) (hname : r'.roomName = r.roomName)
    (hpacked : Packed r'.participants r'.participantCount)
    (hfirst : r'.members ≠ [] → roomFindById s r.roomId = some (some p)) :
    RoomsOk (s.setRoom p r') l := by
  -- seen from outside, the new room has the id and the name of the old one
  have hold : ∀ q x, (s.setRoom p r').roomMem q = some x →
      ∃ y, s.roomMem q = some y ∧ x.roomId = y.roomId ∧ x.roomName = y.roomName := by
    intro q x hq
    rcases update_some_cases hq with ⟨rfl, rfl⟩ | ⟨_, hq⟩
    · exact ⟨r, hr, hid, hname⟩
    · exact ⟨x, hq, rfl, rfl⟩
  refine { linked := h.linked, count := h.count, bound := h.bound, live := ?_, packed := ?_,
           names := ?_, order := h.order, stamps := h.stamps, first := ?_ }
  · intro q
    rw [h.live q]
    by_cases hqp : q = p
    · subst hqp
      simp [Server.setRoom, hr]
    · simp [Server.setRoom, Function.update_of_ne hqp]
  · intro q x hq
    rcases update_some_cases hq with ⟨_, rfl⟩ | ⟨_, hq⟩
    · exact hpacked
    · exact h.packed q x hq
  · intro q q' x x' hq hq' hxx'
    obtain ⟨y, hy, _, hyn⟩ := hold q x hq
    obtain ⟨y', hy', _, hyn'⟩ := hold q' x' hq'
    exact h.names q q' y y' hy hy' (by rw [← hyn, ← hyn', hxx'])
  · have hnew : l.Pairwise fun a b => b = p → r'.members ≠ [] →
        ∀ x, s.roomMem a = some x → x.roomId ≠ r.roomId := by
      by_cases hempty : r'.members = []
      · exact List.pairwise_of_forall_mem_list fun a _ b _ _ hne => absurd hempty hne
      · exact (h.precedes_of_find (hfirst hempty)).imp fun hab hbp _ => hab hbp
    refine (h.first.and hnew).imp ?_
    rintro a b ⟨hab, hbp⟩ x x' hx hx' hne
    obtain ⟨y, hy, hyid, _⟩ := hold a x hx
    rcases update_some_cases hx' with ⟨rfl, rfl⟩ | ⟨_, hx'⟩
    · rw [hyid, hid]
      exact hbp rfl hne y hy
    · rw [hyid]
      exact hab y x' hy hx' hne

/-! ### Deleting a room -/

theorem ListOk.unlinkRoom (h : ListOk s l) {p : Ptr} (hp : p ∈ l) :
    s.unlinkRoom p = some { s with
      roomNext := bypassNext s.roomNext s.roomPrev p
      roomPrev := bypassPrev s.roomNext s.roomPrev p
      roomHead := bypassHead s.roomNext s.roomPrev s.roomHead p
      roomCount := s.roomCount - 1 } := by
  obtain ⟨l₁, l₂, hl⟩ := List.append_of_mem hp
  have hfields := (hl ▸ h.linked).fields
  have hsome : ∀ q ∈ l, (s.roomMem q).isSome = true := by
    intro q hq
    obtain ⟨r, hr⟩ := h.live q hq
    simp [hr]
  have hprev : (s.roomPrev p).all (fun q => (s.roomMem q).isSome) = true := by
    rw [hfields.1]
    cases hlast : l₁.getLast? with
    | none => rfl
    | some q => exact hsome q (by simp [hl, List.mem_of_getLast? hlast])
  have hnext : (s.roomNext p).all (fun q => (s.roomMem q).isSome) = true := by
    rw [hfields.2]
    cases hhead : l₂.head? with
    | none => rfl
    | some q => exact hsome q (by simp [hl, List.mem_of_head? hhead])
  rw [Server.unlinkRoom, if_pos ⟨hprev, hnext⟩]

/-- The links after a room has left the list. -/
theorem ListOk.unlink (h : ListOk s l) {p : Ptr} (hp : p ∈ l) :
    Linked (bypassNext s.roomNext s.roomPrev p) (bypassPrev s.roomNext s.roomPrev p)
      (bypassHead s.roomNext s.roomPrev s.roomHead p) (l.erase p) := by
  obtain ⟨l₁, l₂, hl⟩ := List.append_of_mem hp
  have hnd := h.linked.nodup
  have herase : l.erase p = l₁ ++ l₂ := by
    rw [hl] at hnd ⊢
    have hp₁ : p ∉ l₁ := fun hp => (List.nodup_append.mp hnd).2.2 p hp p List.mem_cons_self rfl
    rw [List.erase_append_right _ hp₁, List.erase_cons_head]
  rw [herase]
  exact (hl ▸ h.linked).unlink

/-- Taking an empty room out of the list and freeing it. -/
theorem RoomsOk.unlink_free (h : RoomsOk s l) {p : Ptr} (hp : p ∈ l) {t : Server}
    (hnext : t.roomNext = bypassNext s.roomNext s.roomPrev p)
    (hprev : t.roomPrev = bypassPrev s.roomNext s.roomPrev p)
    (hhead : t.roomHead = bypassHead s.roomNext s.roomPrev s.roomHead p)
    (hcount : t.roomCount = s.roomCount - 1)
    (hmem : t.roomMem = Function.update s.roomMem p none) (hborn : t.born = s.born)
    (hcreated : t.created = s.created) : RoomsOk t (l.erase p) := by
  have hnd := h.linked.nodup
  have hsub : List.Sublist (l.erase p) l := List.erase_sublist
  have hold : ∀ q x, t.roomMem q = some x → q ≠ p ∧ s.roomMem q = some x := by
    intro q x hq
    rw [hmem] at hq
    exact update_none_cases hq
  refine { linked := ?_, count := ?_, bound := ?_, live := ?_, packed := ?_, names := ?_,
           order := ?_, stamps := ?_, first := ?_ }
  · rw [hnext, hprev, hhead]
    exact h.listOk.unlink hp
  · have hpos : 0 < l.length := List.length_pos_of_mem hp
    rw [hcount, h.count, List.length_erase_of_mem hp]
    omega
  · exact Nat.le_trans hsub.length_le h.bound
  · intro q
    rw [hnd.mem_erase_iff, h.live q, hmem]
    by_cases hqp : q = p
    · subst hqp
      simp
    · simp [hqp]
  · intro q x hq
    exact h.packed q x (hold q x hq).2
  · intro q q' x x' hq hq'
    exact h.names q q' x x' (hold q x hq).2 (hold q' x' hq').2
  · rw [hborn]
    exact h.order.sublist hsub
  · rw [hborn, hcreated]
    exact fun q hq => h.stamps q (hsub.subset hq)
  · refine (h.first.sublist hsub).imp ?_
    intro a b hab x x' hx hx'
    exact hab x x' (hold a x hx).2 (hold b x' hx').2

/-- `room_delete` of a room that a search by id finds. -/
theorem RoomsOk.roomDelete (h : RoomsOk s l) {p : Ptr} {roomId : Nat}
    (hfind : roomFindById s roomId = some (some p)) :
    ∃ t, roomDelete s roomId = some (1, t) ∧ RoomsOk t (l.erase p) ∧ SameClients s t ∧
      t.roomMem = Function.update s.roomMem p none ∧ t.files = (s.deactivate roomId).files := by
  obtain ⟨r, hr, _⟩ := h.findRoom_some hfind
  have hp := h.mem_of_room hr
  obtain ⟨hrooms, hclients⟩ := deactivate_same { s with
      roomNext := bypassNext s.roomNext s.roomPrev p
      roomPrev := bypassPrev s.roomNext s.roomPrev p
      roomHead := bypassHead s.roomNext s.roomPrev s.roomHead p
      roomCount := s.roomCount - 1 } roomId
  have hmem : ∀ u : Server, u.roomMem = s.roomMem →
      (u.freeRoom p).roomMem = Function.update s.roomMem p none := by
    intro u hu
    rw [Server.freeRoom, hu]
  refine ⟨_, by simp only [EchoLink.roomDelete, hfind, h.listOk.unlinkRoom hp]; rfl, ?_, ?_, ?_, ?_⟩
  · exact h.unlink_free hp hrooms.next hrooms.prev hrooms.head hrooms.count (hmem _ hrooms.mem)
      hrooms.born hrooms.created
  · exact ⟨hclients.clients, hclients.clientCount, hclients.fdToSlot, hclients.clientMem,
      hclients.users⟩
  · exact hmem _ hrooms.mem
  · have hlinks : Server.files { s with
        roomNext := bypassNext s.roomNext s.roomPrev p
        roomPrev := bypassPrev s.roomNext s.roomPrev p
        roomHead := bypassHead s.roomNext s.roomPrev s.roomHead p
        roomCount := s.roomCount - 1 } = s.files := rfl
    exact deactivate_files hlinks roomId

/-! ### Removing a participant -/

/-- A change of a room that keeps its id does not change what a search by id
finds. -/
theorem RoomsOk.find_id_setRoom (h : RoomsOk s l) {p : Ptr} {r r' : Room} (hr : s.roomMem p = some r)
    (hid : r'.roomId = r.roomId) (h' : RoomsOk (s.setRoom p r') l) (roomId : Nat) :
    roomFindById (s.setRoom p r') roomId = roomFindById s roomId := by
  rw [roomFindById, roomFindById, h'.findRoom, h.findRoom]
  congr 2
  funext q
  by_cases hqp : q = p
  · subst hqp
    simp [Server.setRoom, hr, hid]
  · simp [Server.setRoom, Function.update_of_ne hqp]

/-- The room with one participant less, with its id, name and password. -/
structure Room.Without (r : Room) (c : Ptr) (r' : Room) : Prop where
  id : r'.roomId = r.roomId
  name : r'.roomName = r.roomName
  password : r'.password = r.password
  packed : Packed r'.participants r'.participantCount
  members : r'.members = r.members.erase c
  was : c ∈ r.members

theorem Room.remove_some {r r' : Room} (h : Packed r.participants r.participantCount) {c : Ptr}
    {isMute : Bool} (hremove : r.remove c isMute = some r') : r.Without c r' := by
  unfold Room.remove at hremove
  split at hremove
  · cases hremove
  · rename_i i hi
    obtain ⟨hpacked, hmembers, hwas⟩ := h.remove hi
    rw [← Option.some.inj hremove]
    exact ⟨rfl, rfl, rfl, hpacked, hmembers, hwas⟩

theorem Room.remove_none {r : Room} (h : Packed r.participants r.participantCount) {c : Ptr}
    {isMute : Bool} (hremove : r.remove c isMute = none) : c ∉ r.members := by
  unfold Room.remove at hremove
  split at hremove
  · rename_i hi
    exact h.indexOf_eq_none hi
  · cases hremove

theorem Room.remove_without {r : Room} (h : Packed r.participants r.participantCount) {c : Ptr}
    (hc : c ∈ r.members) (isMute : Bool) : ∃ r', r.remove c isMute = some r' ∧ r.Without c r' := by
  cases hremove : r.remove c isMute with
  | none => exact absurd hc (Room.remove_none h hremove)
  | some r' => exact ⟨r', rfl, Room.remove_some h hremove⟩

/-- The state after a participant was removed from the room `p`, which is now
`r'`, or deleted if nobody is left. -/
structure Removed (s t : Server) (p c : Ptr) (r r' : Room) : Prop where
  room : s.roomMem p = some r
  without : r.Without c r'
  clients : SameClients s t
  roomMem : t.roomMem =
    Function.update s.roomMem p (if r'.participantCount = 0 then none else some r')
  files : t.files =
    if r'.participantCount = 0 then
      ((s.persistCount r.roomId 0).deactivate r.roomId).files
    else (s.persistCount r.roomId r'.participantCount).files

/-- **Removing a participant** from a room, with what follows it. -/
theorem RoomsOk.afterRemoval (h : RoomsOk s l) {p c : Ptr} {r r' : Room} (hr : s.roomMem p = some r)
    (hr' : r.Without c r') :
    ∃ t l', (s.setRoom p r').afterRemoval p = some t ∧ RoomsOk t l' ∧ Removed s t p c r r' := by
  have hne : r.members ≠ [] := List.ne_nil_of_mem hr'.was
  have hset : RoomsOk (s.setRoom p r') l :=
    h.setRoom hr hr'.id hr'.name hr'.packed fun _ => h.find_id hr hne
  have hroom : (s.setRoom p r').roomMem p = some r' := by simp [Server.setRoom]
  obtain ⟨hsame, hclients⟩ := persistCount_same (s.setRoom p r') r'.roomId r'.participantCount
  have hpersist := hset.of_same hsame
  have hmem : ((s.setRoom p r').persistCount r'.roomId r'.participantCount).roomMem =
      Function.update s.roomMem p (some r') := hsame.mem
  have hfiles : ∀ n, ((s.setRoom p r').persistCount r'.roomId n).files =
      (s.persistCount r.roomId n).files := by
    intro n
    rw [hr'.id]
    have hset : (s.setRoom p r').files = s.files := rfl
    exact persistCount_files hset r.roomId n
  have hclients' : SameClients s ((s.setRoom p r').persistCount r'.roomId r'.participantCount) :=
    ⟨hclients.clients, hclients.clientCount, hclients.fdToSlot, hclients.clientMem, hclients.users⟩
  by_cases hzero : r'.participantCount = 0
  · -- nobody is left: the search by id finds this room again
    have hfind : roomFindById ((s.setRoom p r').persistCount r'.roomId r'.participantCount)
        r'.roomId = some (some p) := by
      have hsearch : roomFindById ((s.setRoom p r').persistCount r'.roomId r'.participantCount)
          r'.roomId = roomFindById (s.setRoom p r') r'.roomId := by
        rw [roomFindById, roomFindById, Server.findRoom, Server.findRoom, hsame.next, hsame.mem,
          hsame.head]
      rw [hsearch, h.find_id_setRoom hr hr'.id hset, hr'.id]
      exact h.find_id hr hne
    obtain ⟨t, ht, hok, hsc, htm, htf⟩ := hpersist.roomDelete hfind
    refine ⟨t, l.erase p, ?_, hok, hr, hr', hclients'.trans hsc, ?_, ?_⟩
    · simp only [Server.afterRemoval, hroom, if_pos hzero, ht, Option.map_some]
    · rw [htm, hmem, if_pos hzero, Function.update_idem]
    · rw [htf, if_pos hzero, hr'.id, ← deactivate_files (hfiles 0) r.roomId, hzero, hr'.id]
  · refine ⟨_, l, ?_, hpersist, hr, hr', hclients', ?_, ?_⟩
    · simp only [Server.afterRemoval, hroom, if_neg hzero]
    · rw [hmem, if_neg hzero]
    · rw [if_neg hzero, hfiles]

end EchoLink
