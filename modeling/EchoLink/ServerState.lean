import EchoLink.RoomCalls
import EchoLink.Handlers
import EchoLink.TwoViews
import Mathlib.Data.List.Perm.Subperm
import Mathlib.Data.List.FinRange

/-!
# The state of the server

`ServerOk` is the invariant of the server: the room list is well formed, every
client in `clients[]` knows its slot, a client that is not logged in has no
name, no role and no room, and the two views of who is in which room agree
(`TwoViews.Consistent`).  The view of the clients counts only those in
`clients[]`, so a client that leaves its room and one that is disconnected
change it in the same way.

The lemmas say how each change of a client record changes that view.
-/

namespace EchoLink

open LinkedList PackedArray TwoViews PartialMap

/-- `c` is in `clients[]`, and `cl` is its record. -/
def Server.Holds (s : Server) (c : Ptr) (cl : Client) : Prop :=
  s.clients cl.slot = some c ∧ s.clientMem c = some cl

/-- The room of a client, as the clients see it. -/
def Server.roomOf (s : Server) (c : Ptr) : Option Ptr :=
  match s.clientMem c with
  | none => none
  | some cl => if s.clients cl.slot = some c then cl.currentRoom else none

/-- The participants of a room, as the rooms see them. -/
def Server.membersOf (s : Server) (p : Ptr) : Option (List Ptr) := (s.roomMem p).map Room.members

/-- A client that is not logged in. -/
def Client.Outside (cl : Client) : Prop :=
  cl.role = .guest ∧ cl.username = [] ∧ cl.currentRoom = none

structure ClientsOk (s : Server) : Prop where
  held : ∀ i c, s.clients i = some c → ∃ cl, s.clientMem c = some cl ∧ cl.slot = i ∧ cl.isActive = true
  loggedOut : ∀ c cl, s.Holds c cl → cl.userId = -1 → cl.Outside

/-- **The invariant of the server**, with the rooms in the order of the list. -/
structure ServerOk (s : Server) (l : List Ptr) : Prop where
  rooms : RoomsOk s l
  clients : ClientsOk s
  views : Consistent s.roomOf s.membersOf

variable {s t : Server} {l : List Ptr} {c p : Ptr} {cl cl' : Client} {r r' : Room}

theorem ClientsOk.holds (h : ClientsOk s) {i : Fin maxClients} (hi : s.clients i = some c) :
    ∃ cl, s.Holds c cl ∧ cl.slot = i ∧ cl.isActive = true := by
  obtain ⟨cl, hcl, hslot, hactive⟩ := h.held i c hi
  refine ⟨cl, ⟨?_, hcl⟩, hslot, hactive⟩
  rw [hslot, hi]

/-- The client that is read for a slot. -/
theorem ClientsOk.held_active (h : ClientsOk s) {i : Fin maxClients} (hi : s.clients i = some c)
    (hc : s.clientMem c = some cl) : s.Holds c cl ∧ cl.isActive = true := by
  obtain ⟨cl', hholds, -, hactive⟩ := h.holds hi
  obtain rfl : cl' = cl := Option.some.inj (hholds.2.symm.trans hc)
  exact ⟨hholds, hactive⟩

theorem Server.Holds.roomOf (h : s.Holds c cl) : s.roomOf c = cl.currentRoom := by
  rw [Server.roomOf, h.2]
  exact if_pos h.1

theorem roomOf_eq_some (h : s.roomOf c = some p) : ∃ cl, s.Holds c cl ∧ cl.currentRoom = some p := by
  unfold Server.roomOf at h
  split at h
  · cases h
  · rename_i cl hcl
    split at h
    · rename_i hheld
      exact ⟨cl, ⟨hheld, hcl⟩, h⟩
    · cases h

/-- A client in `clients[]` is in the slot its record names. -/
theorem ClientsOk.slot_eq (h : ClientsOk s) (hc : s.Holds c cl) {i : Fin maxClients}
    (hi : s.clients i = some c) : i = cl.slot := by
  obtain ⟨cl', hcl', hslot, _⟩ := h.held i c hi
  rw [hc.2, Option.some.injEq] at hcl'
  rw [hcl', hslot]

theorem ClientsOk.active (h : ClientsOk s) (hc : s.Holds c cl) : cl.isActive = true := by
  obtain ⟨cl', hcl', _, hactive⟩ := h.held _ c hc.1
  rw [hc.2, Option.some.injEq] at hcl'
  rw [hcl', hactive]

/-! ### The two views after a change -/

/-- A client record is replaced. -/
theorem roomOf_update (hc : s.Holds c cl) (hclients : t.clients = s.clients)
    (hmem : t.clientMem = Function.update s.clientMem c (some cl')) (hslot : cl'.slot = cl.slot) :
    t.roomOf = Function.update s.roomOf c cl'.currentRoom := by
  funext d
  by_cases hdc : d = c
  · subst hdc
    rw [Function.update_self, Server.roomOf, hmem, Function.update_self]
    exact if_pos (by rw [hclients, hslot, hc.1])
  · rw [Function.update_of_ne hdc, Server.roomOf, Server.roomOf, hmem, Function.update_of_ne hdc,
      hclients]

/-- A client record is replaced by one with the same room. -/
theorem roomOf_relabel (hc : s.Holds c cl) (hclients : t.clients = s.clients)
    (hmem : t.clientMem = Function.update s.clientMem c (some cl')) (hslot : cl'.slot = cl.slot)
    (hroom : cl'.currentRoom = cl.currentRoom) : t.roomOf = s.roomOf := by
  rw [roomOf_update hc hclients hmem hslot, hroom, ← hc.roomOf, Function.update_eq_self]

/-- A slot is cleared. -/
theorem roomOf_drop (hc : s.Holds c cl) {x : Option Client}
    (hx : ∀ cl', x = some cl' → cl'.slot = cl.slot)
    (hclients : t.clients = Function.update s.clients cl.slot none)
    (hmem : t.clientMem = Function.update s.clientMem c x) :
    t.roomOf = Function.update s.roomOf c none := by
  funext d
  by_cases hdc : d = c
  · subst hdc
    rw [Function.update_self, Server.roomOf, hmem, Function.update_self]
    cases hxc : x with
    | none => rfl
    | some cl' =>
        dsimp only
        rw [hclients, hx cl' hxc, Function.update_self, if_neg (by simp)]
  · rw [Function.update_of_ne hdc, Server.roomOf, Server.roomOf, hmem, Function.update_of_ne hdc]
    cases hd : s.clientMem d with
    | none => rfl
    | some dl =>
        dsimp only
        by_cases hslot : dl.slot = cl.slot
        · -- the slot was the one of `c`
          have hcd : some c ≠ some d := fun hcd => hdc (Option.some.inj hcd).symm
          rw [hclients, hslot, Function.update_self, hc.1, if_neg (by simp), if_neg hcd]
        · rw [hclients, Function.update_of_ne hslot]

/-- A slot is filled with a new client. -/
theorem roomOf_accept {slot : Fin maxClients} (hslot : s.clients slot = none)
    (hfresh : s.clientMem c = none) (hroom : cl'.currentRoom = none)
    (hclients : t.clients = Function.update s.clients slot (some c))
    (hmem : t.clientMem = Function.update s.clientMem c (some cl')) : t.roomOf = s.roomOf := by
  funext d
  by_cases hdc : d = c
  · subst hdc
    rw [Server.roomOf, Server.roomOf, hmem, Function.update_self, hfresh]
    dsimp only
    rw [hroom, ite_self]
  · rw [Server.roomOf, Server.roomOf, hmem, Function.update_of_ne hdc]
    cases hd : s.clientMem d with
    | none => rfl
    | some dl =>
        dsimp only
        by_cases hdslot : dl.slot = slot
        · have hcd : some c ≠ some d := fun hcd => hdc (Option.some.inj hcd).symm
          rw [hclients, hdslot, Function.update_self, hslot, if_neg hcd, if_neg (by simp)]
        · rw [hclients, Function.update_of_ne hdslot]

theorem membersOf_update {x : Option Room} (hmem : t.roomMem = Function.update s.roomMem p x) :
    t.membersOf = Function.update s.membersOf p (x.map Room.members) := by
  have hview : t.membersOf = fun q => (Function.update s.roomMem p x q).map Room.members := by
    rw [← hmem]
    rfl
  rw [hview]
  exact map_update Room.members s.roomMem p x

theorem membersOf_same (hmem : t.roomMem = s.roomMem) : t.membersOf = s.membersOf := by
  funext q
  rw [Server.membersOf, Server.membersOf, hmem]

/-! ### The clients after a change -/

theorem ClientsOk.of_same (h : ClientsOk s) (hclients : t.clients = s.clients)
    (hmem : t.clientMem = s.clientMem) : ClientsOk t := by
  refine ⟨?_, ?_⟩
  · rw [hclients, hmem]
    exact h.held
  · intro d dl hd
    rw [Server.Holds, hclients, hmem] at hd
    exact h.loggedOut d dl hd

theorem roomOf_same (hclients : t.clients = s.clients) (hmem : t.clientMem = s.clientMem) :
    t.roomOf = s.roomOf := by
  funext d
  rw [Server.roomOf, Server.roomOf, hclients, hmem]

theorem ClientsOk.update (h : ClientsOk s) (hc : s.Holds c cl) (hclients : t.clients = s.clients)
    (hmem : t.clientMem = Function.update s.clientMem c (some cl')) (hslot : cl'.slot = cl.slot)
    (hactive : cl'.isActive = cl.isActive) (hout : cl'.userId = -1 → cl'.Outside) : ClientsOk t := by
  refine ⟨?_, ?_⟩
  · intro i d hi
    rw [hclients] at hi
    by_cases hdc : d = c
    · subst hdc
      refine ⟨cl', by rw [hmem, Function.update_self], ?_, ?_⟩
      · rw [hslot, h.slot_eq hc hi]
      · rw [hactive, h.active hc]
    · rw [hmem, Function.update_of_ne hdc]
      exact h.held i d hi
  · intro d dl hd
    by_cases hdc : d = c
    · subst hdc
      have hdl : dl = cl' := by
        have hmemd := hd.2
        rw [hmem, Function.update_self, Option.some.injEq] at hmemd
        exact hmemd.symm
      rw [hdl]
      exact hout
    · rw [Server.Holds, hclients, hmem, Function.update_of_ne hdc] at hd
      exact h.loggedOut d dl hd

theorem ClientsOk.drop (h : ClientsOk s) (hc : s.Holds c cl) {x : Option Client}
    (hclients : t.clients = Function.update s.clients cl.slot none)
    (hmem : t.clientMem = Function.update s.clientMem c x) : ClientsOk t := by
  -- whoever is in a slot now was there before, and is not `c`
  have hother : ∀ i d, t.clients i = some d → s.clients i = some d ∧ d ≠ c := by
    intro i d hi
    rw [hclients] at hi
    by_cases hislot : i = cl.slot
    · rw [hislot, Function.update_self] at hi
      cases hi
    · rw [Function.update_of_ne hislot] at hi
      refine ⟨hi, ?_⟩
      rintro rfl
      exact hislot (h.slot_eq hc hi)
  refine ⟨?_, ?_⟩
  · intro i d hi
    obtain ⟨hi, hdc⟩ := hother i d hi
    rw [hmem, Function.update_of_ne hdc]
    exact h.held i d hi
  · intro d dl hd
    obtain ⟨hi, hdc⟩ := hother dl.slot d hd.1
    have hmemd := hd.2
    rw [hmem, Function.update_of_ne hdc] at hmemd
    exact h.loggedOut d dl ⟨hi, hmemd⟩

theorem ClientsOk.accept (h : ClientsOk s) {slot : Fin maxClients} (hslot : cl'.slot = slot)
    (hfresh : s.clientMem c = none) (hactive : cl'.isActive = true) (hout : cl'.Outside)
    (hclients : t.clients = Function.update s.clients slot (some c))
    (hmem : t.clientMem = Function.update s.clientMem c (some cl')) : ClientsOk t := by
  have hother : ∀ i d, s.clients i = some d → d ≠ c := by
    rintro i d hi rfl
    obtain ⟨dl, hdl, _⟩ := h.held i d hi
    rw [hfresh] at hdl
    cases hdl
  refine ⟨?_, ?_⟩
  · intro i d hi
    rw [hclients] at hi
    by_cases hislot : i = slot
    · rw [hislot, Function.update_self, Option.some.injEq] at hi
      refine ⟨cl', by rw [hmem, hi, Function.update_self], ?_, hactive⟩
      rw [hslot, hislot]
    · rw [Function.update_of_ne hislot] at hi
      rw [hmem, Function.update_of_ne (hother i d hi)]
      exact h.held i d hi
  · intro d dl hd
    by_cases hdc : d = c
    · subst hdc
      have hmemd := hd.2
      rw [hmem, Function.update_self, Option.some.injEq] at hmemd
      rw [← hmemd]
      exact fun _ => hout
    · have hheld := hd.1
      have hmemd := hd.2
      rw [hmem, Function.update_of_ne hdc] at hmemd
      rw [hclients] at hheld
      by_cases hdslot : dl.slot = slot
      · rw [hdslot, Function.update_self, Option.some.injEq] at hheld
        exact absurd hheld.symm hdc
      · rw [Function.update_of_ne hdslot] at hheld
        exact h.loggedOut d dl ⟨hheld, hmemd⟩

/-! ### The invariant after a change -/

theorem ServerOk.start (db : FileDb) (users : RecordFile.File) : ServerOk (Server.start db users) [] where
  rooms := RoomsOk.start db users
  clients := by
    refine ⟨?_, ?_⟩
    · intro i d hi
      cases hi
    · intro d dl hd
      cases hd.1
  views := consistent_empty

theorem ServerOk.of_same (h : ServerOk s l) (hrooms : SameRooms s t) (hclients : t.clients = s.clients)
    (hmem : t.clientMem = s.clientMem) : ServerOk t l where
  rooms := h.rooms.of_same hrooms
  clients := h.clients.of_same hclients hmem
  views := by
    rw [roomOf_same hclients hmem, membersOf_same hrooms.mem]
    exact h.views

/-- What the record writes of an operation do is no part of the invariant. -/
theorem ServerOk.with_wrote (h : ServerOk s l) (wrote : List Nat) : ServerOk { s with wrote } l :=
  h.of_same ⟨rfl, rfl, rfl, rfl, rfl, rfl, rfl⟩ rfl rfl

/-- A client record is replaced by one with the same slot and room, and the
rooms keep their participants. -/
theorem ServerOk.relabel (h : ServerOk s l) {l' : List Ptr} (hc : s.Holds c cl)
    (hclients : t.clients = s.clients) (hmem : t.clientMem = Function.update s.clientMem c (some cl'))
    (hmembers : t.membersOf = s.membersOf) (hok : RoomsOk t l') (hslot : cl'.slot = cl.slot)
    (hactive : cl'.isActive = cl.isActive) (hroom : cl'.currentRoom = cl.currentRoom)
    (hout : cl'.userId = -1 → cl'.Outside) : ServerOk t l' where
  rooms := hok
  clients := h.clients.update hc hclients hmem hslot hactive hout
  views := by
    rw [roomOf_relabel hc hclients hmem hslot hroom, hmembers]
    exact h.views

theorem ServerOk.membersOf_eq (hr : s.roomMem p = some r) : s.membersOf p = some r.members := by
  rw [Server.membersOf, hr, Option.map_some]

theorem Room.Without.nobody_left (h : r.Without c r') :
    r'.participantCount = 0 ↔ r.members.erase c = [] := by
  rw [← h.members, ← List.length_eq_zero_iff, Room.members, h.packed.length]

/-- What the removal of a participant does to the rooms' view. -/
theorem Removed.membersOf (h : Removed s t p c r r') :
    t.membersOf = Function.update s.membersOf p
      (if r.members.erase c = [] then none else some (r.members.erase c)) := by
  rw [membersOf_update h.roomMem]
  congr 1
  by_cases hzero : r'.participantCount = 0
  · rw [if_pos hzero, if_pos (h.without.nobody_left.mp hzero), Option.map_none]
  · have hne := fun he => hzero (h.without.nobody_left.mpr he)
    rw [if_neg hzero, if_neg hne, Option.map_some, h.without.members]

/-- A client has left its room. -/
theorem ServerOk.left (h : ServerOk s l) {l' : List Ptr} (hc : s.Holds c cl)
    (hroom : cl.currentRoom = some p)
    (hrem : Removed (s.setClient c { cl with currentRoom := none }) t p c r r')
    (hok : RoomsOk t l') : ServerOk t l' := by
  have hclients : t.clients = s.clients := hrem.clients.clients
  have hmem : t.clientMem =
      Function.update s.clientMem c (some { cl with currentRoom := none }) := hrem.clients.clientMem
  refine ⟨hok, h.clients.update hc hclients hmem rfl rfl ?_, ?_⟩
  · intro hid
    obtain ⟨hrole, hname, _⟩ := h.clients.loggedOut c cl hc hid
    exact ⟨hrole, hname, rfl⟩
  · have hr : s.roomMem p = some r := hrem.room
    rw [roomOf_update hc hclients hmem rfl, hrem.membersOf]
    exact h.views.leave (ServerOk.membersOf_eq hr) (by rw [hc.roomOf, hroom])

/-- A client that is in no room has entered one. -/
theorem ServerOk.entered (h : ServerOk s l) {l' : List Ptr} (hc : s.Holds c cl)
    (hroom : cl.currentRoom = none) (hin : cl.userId ≠ -1) (hent : Entered s t c p cl r)
    (hok : RoomsOk t l') : ServerOk t l' := by
  refine ⟨hok, h.clients.update hc hent.clients hent.clientMem rfl rfl (fun hid => absurd hid hin), ?_⟩
  rw [roomOf_update hc hent.clients hent.clientMem rfl, membersOf_update hent.roomMem,
    Option.map_some, (Room.add_members (h.rooms.packed p r hent.room) c).2]
  exact h.views.enter (ServerOk.membersOf_eq hent.room) (by rw [hc.roomOf, hroom])

/-- A room has been created. -/
theorem ServerOk.created (h : ServerOk s l) {l' : List Ptr} {name password : CText.Bytes}
    {stack : RoomRecord} (hcre : Created s t p name password stack) (hok : RoomsOk t l') :
    ServerOk t l' := by
  refine ⟨hok, h.clients.of_same hcre.clients.clients hcre.clients.clientMem, ?_⟩
  rw [roomOf_same hcre.clients.clients hcre.clients.clientMem, membersOf_update hcre.roomMem]
  refine h.views.create ?_
  rw [Server.membersOf, hcre.fresh, Option.map_none]

/-- What the clients' view is after a client was disconnected. -/
theorem roomOf_dropClient {u : Server} (hc : s.Holds c cl) (hclients : u.clients = s.clients)
    (hmem : u.clientMem = s.clientMem) (fd : Nat) :
    (u.dropClient fd cl.slot c cl).roomOf = Function.update s.roomOf c none := by
  refine roomOf_drop hc (x := if cl.refCount - 1 = 0 then none
    else some { cl with isActive := false, refCount := cl.refCount - 1 }) ?_ ?_ ?_
  · intro cl' hcl'
    split at hcl'
    · cases hcl'
    · rw [← Option.some.inj hcl']
  · rw [← hclients]
    rfl
  · rw [← hmem]
    rfl

theorem ClientsOk.dropClient {u : Server} (h : ClientsOk s) (hc : s.Holds c cl)
    (hclients : u.clients = s.clients) (hmem : u.clientMem = s.clientMem) (fd : Nat) :
    ClientsOk (u.dropClient fd cl.slot c cl) := by
  refine h.drop hc (x := if cl.refCount - 1 = 0 then none
    else some { cl with isActive := false, refCount := cl.refCount - 1 }) ?_ ?_
  · rw [← hclients]
    rfl
  · rw [← hmem]
    rfl

/-- A client in no room has been disconnected. -/
theorem ServerOk.dropped (h : ServerOk s l) (hc : s.Holds c cl) (hroom : cl.currentRoom = none)
    (fd : Nat) : ServerOk (s.dropClient fd cl.slot c cl) l where
  rooms := h.rooms.of_same ⟨rfl, rfl, rfl, rfl, rfl, rfl, rfl⟩
  clients := h.clients.dropClient hc rfl rfl fd
  views := by
    rw [roomOf_dropClient hc rfl rfl fd, ← hroom, ← hc.roomOf, Function.update_eq_self]
    exact h.views

/-- A client has been removed from its room and disconnected. -/
theorem ServerOk.removed_dropped (h : ServerOk s l) {l' : List Ptr} {u : Server} (hc : s.Holds c cl)
    (hroom : cl.currentRoom = some p) (hrem : Removed s u p c r r') (hok : RoomsOk u l') (fd : Nat) :
    ServerOk (u.dropClient fd cl.slot c cl) l' where
  rooms := hok.of_same ⟨rfl, rfl, rfl, rfl, rfl, rfl, rfl⟩
  clients := h.clients.dropClient hc hrem.clients.clients hrem.clients.clientMem fd
  views := by
    have hmembers : (u.dropClient fd cl.slot c cl).membersOf = u.membersOf := membersOf_same rfl
    rw [roomOf_dropClient hc hrem.clients.clients hrem.clients.clientMem fd, hmembers, hrem.membersOf]
    exact h.views.leave (ServerOk.membersOf_eq hrem.room) (by rw [hc.roomOf, hroom])

/-- Different clients in `clients[]` are in different slots. -/
theorem length_le_maxClients {ds : List Ptr} (hnodup : ds.Nodup) (hheld : ∀ d ∈ ds, ∃ dl, s.Holds d dl) :
    ds.length ≤ maxClients := by
  have hslot : ∀ d ∈ ds, ∃ i, s.clients i = some d := by
    intro d hd
    obtain ⟨dl, hdl⟩ := hheld d hd
    exact ⟨dl.slot, hdl.1⟩
  have hsub : ds ⊆ (List.finRange maxClients).filterMap s.clients := by
    intro d hd
    obtain ⟨i, hi⟩ := hslot d hd
    exact List.mem_filterMap.mpr ⟨i, List.mem_finRange i, hi⟩
  calc ds.length ≤ ((List.finRange maxClients).filterMap s.clients).length :=
        (hnodup.subperm hsub).length_le
    _ ≤ (List.finRange maxClients).length := List.length_filterMap_le _ _
    _ = maxClients := List.length_finRange

theorem ServerOk.members_held (h : ServerOk s l) (hr : s.roomMem p = some r) :
    ∀ d ∈ r.members, ∃ dl, s.Holds d dl := by
  intro d hd
  obtain ⟨dl, hdl, _⟩ := roomOf_eq_some (h.views.member p _ d (ServerOk.membersOf_eq hr) hd)
  exact ⟨dl, hdl⟩

theorem ServerOk.participants_le (h : ServerOk s l) (hr : s.roomMem p = some r) :
    r.participantCount ≤ maxClients := by
  have hlen : r.members.length = r.participantCount := (h.rooms.packed p r hr).length
  rw [← hlen]
  exact length_le_maxClients (h.views.nodup p _ (ServerOk.membersOf_eq hr)) (h.members_held hr)

/-- **A room is never full** for a client in no room, which has a slot too. -/
theorem ServerOk.capacity (h : ServerOk s l) (hc : s.Holds c cl) (hroom : cl.currentRoom = none)
    (hr : s.roomMem p = some r) : r.participantCount < maxClients := by
  have hms := ServerOk.membersOf_eq hr
  have hcm : c ∉ r.members := by
    intro hmem
    have hroomOf := h.views.member p _ c hms hmem
    rw [hc.roomOf, hroom] at hroomOf
    cases hroomOf
  have hheld : ∀ d ∈ c :: r.members, ∃ dl, s.Holds d dl := by
    intro d hd
    rcases List.mem_cons.mp hd with rfl | hd
    · exact ⟨cl, hc⟩
    · exact h.members_held hr d hd
  have hnodup := List.nodup_cons.mpr ⟨hcm, h.views.nodup p _ hms⟩
  have hlen : r.members.length = r.participantCount := (h.rooms.packed p r hr).length
  have hle := length_le_maxClients hnodup hheld
  rw [List.length_cons, hlen] at hle
  exact hle

end EchoLink
