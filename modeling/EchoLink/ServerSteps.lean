import EchoLink.Effects
import EchoLink.Runs
import Mathlib.Logic.Relation

/-!
# Steps of the server

Every operation keeps the invariant of the server, whatever the record writes
do (`step_ok`), and changes the rooms by a few elementary changes
(`RoomChange`).  An operation can fail to return only when two live rooms have
the same id.

The one thing asked of an operation is that `malloc` returns memory that is
not in use (`Fresh`).
-/

namespace EchoLink

open CText RecordFile LinkedList PackedArray TwoViews PartialMap Runs Relation

variable {s t : Server} {l : List Ptr} {c : Ptr} {cl : Client} {line : Bytes}

/-- `malloc` returns memory that is not in use. -/
def Fresh (s : Server) (o : Op × Env) : Prop :=
  ∀ p, o.2.malloc = some p → s.clientMem p = none ∧ s.roomMem p = none

/-! ### Commands keep the invariant -/

theorem ServerOk.promoted (h : ServerOk s l) {l' : List Ptr} (hclients : t.clients = s.clients)
    (hmem : t.roomMem = s.roomMem) (hpromoted : Promoted s t) (hok : RoomsOk t l') : ServerOk t l' := by
  -- the record of a client in `clients[]`, apart from its role
  have hold : ∀ d dl, t.Holds d dl → ∃ el, s.Holds d el ∧ dl.slot = el.slot ∧
      dl.isActive = el.isActive ∧ dl.userId = el.userId ∧ dl.username = el.username ∧
        dl.currentRoom = el.currentRoom ∧ (dl = el ∨ el.username ≠ []) := by
    intro d dl hd
    have hslot := hd.1
    rw [hclients] at hslot
    rcases hpromoted d with hsame | ⟨el, role, hel, hname, hnew⟩
    · exact ⟨dl, ⟨hslot, by rw [← hsame, hd.2]⟩, rfl, rfl, rfl, rfl, rfl, Or.inl rfl⟩
    · have hdl := hd.2
      rw [hnew, Option.some.injEq] at hdl
      subst hdl
      exact ⟨el, hel, rfl, rfl, rfl, rfl, rfl, Or.inr hname⟩
  refine ⟨hok, ⟨?_, ?_⟩, ?_⟩
  · intro i d hi
    rw [hclients] at hi
    obtain ⟨el, hel, hslot, hactive⟩ := h.clients.held i d hi
    rcases hpromoted d with hsame | ⟨el', role, hel', _, hnew⟩
    · exact ⟨el, by rw [hsame, hel], hslot, hactive⟩
    · have hsame := hel'.2
      rw [hel, Option.some.injEq] at hsame
      subst hsame
      exact ⟨_, hnew, hslot, hactive⟩
  · intro d dl hd hid
    obtain ⟨el, hel, _, _, hidEq, _, _, hcases⟩ := hold d dl hd
    have hout := h.clients.loggedOut d el hel (by rw [← hidEq, hid])
    rcases hcases with rfl | hname
    · exact hout
    · exact absurd hout.2.1 hname
  · have hroomOf : t.roomOf = s.roomOf := by
      funext d
      rcases hpromoted d with hsame | ⟨el, role, hel, _, hnew⟩
      · rw [Server.roomOf, Server.roomOf, hsame, hclients]
      · rw [hel.roomOf, Server.roomOf, hnew, hclients]
        exact if_pos hel.1
    rw [hroomOf, membersOf_same hmem]
    exact h.views

/-- A client that is not logged in stays outside. -/
theorem ServerOk.outside (h : ServerOk s l) (hc : s.Holds c cl) {cl' : Client}
    (hid : cl'.userId = cl.userId) (hrole : cl'.role = cl.role) (hname : cl'.username = cl.username)
    (hroom : cl'.currentRoom = cl.currentRoom) : cl'.userId = -1 → cl'.Outside := by
  intro hout
  rw [Client.Outside, hrole, hname, hroom]
  exact h.clients.loggedOut c cl hc (by rw [← hid, hout])

/-- **Every command keeps the invariant.** -/
theorem Effect.serverOk (heffect : Effect s c cl line t) (h : ServerOk s l) {l' : List Ptr}
    (hc : s.Holds c cl) (hok : RoomsOk t l') : ServerOk t l' := by
  cases heffect with
  | quiet hquiet _ =>
      refine ⟨hok, h.clients.of_same hquiet.clients hquiet.clientMem, ?_⟩
      rw [roomOf_same hquiet.clients hquiet.clientMem, membersOf_same hquiet.roomMem]
      exact h.views
  | blank => exact h.relabel hc rfl rfl rfl hok rfl rfl rfl (h.outside hc rfl rfl rfl rfl)
  | @login u name role _ hquiet _ =>
      have hmem : (u.setClient c { cl with userId := 0, username := name, role := role }).clientMem =
          Function.update s.clientMem c
            (some { cl with userId := 0, username := name, role := role }) := by
        rw [← hquiet.clientMem]
        rfl
      have hin : (0 : Int) ≠ -1 := by decide
      exact h.relabel hc hquiet.clients hmem (membersOf_same hquiet.roomMem) hok rfl rfl rfl
        fun hid => absurd hid hin
  | register n name password wrote out hquiet _ =>
      refine ⟨hok, h.clients.of_same hquiet.clients hquiet.clientMem, ?_⟩
      rw [roomOf_same hquiet.clients hquiet.clientMem, membersOf_same hquiet.roomMem]
      exact h.views
  | @logout u _ leaves =>
      have hu : RoomsOk u l' := hok.of_same ⟨rfl, rfl, rfl, rfl, rfl, rfl, rfl⟩
      exact (leaves.serverOk h hc hu).relabel (leaves.holds hc) rfl rfl rfl hok rfl rfl rfl
        fun _ => ⟨rfl, rfl, rfl⟩
  | leave leaves => exact leaves.serverOk h hc hok
  | join p r inside leaves between enters =>
      obtain ⟨l'', hmid⟩ := between
      exact (leaves.serverOk h hc hmid).entered (leaves.holds hc) rfl inside enters hok
  | create p name password stack _ _ _ creates => exact h.created creates hok
  | kick d dl _ target leaves => exact leaves.serverOk h target hok
  | mute d dl p r muted speakers _ target room =>
      refine h.relabel target rfl rfl ?_ hok rfl rfl rfl (h.outside target rfl rfl rfl rfl)
      have hmembers : Room.members { r with activeSpeakers := speakers } = r.members := rfl
      rw [membersOf_update rfl, Option.map_some, hmembers, ← ServerOk.membersOf_eq room]
      exact Function.update_eq_self p s.membersOf
  | promote _ roomMem clients promoted _ => exact h.promoted clients roomMem promoted hok

/-! ### Changes of the rooms -/

/-- What the record of a room has to say about it. -/
structure RoomInfo where
  roomId : Nat
  roomName : Bytes
  password : Bytes
  count : Nat

def Room.info (r : Room) : RoomInfo := ⟨r.roomId, r.roomName, r.password, r.participantCount⟩

def Server.roomInfo (s : Server) (p : Ptr) : Option RoomInfo := (s.roomMem p).map Room.info

/-- The elementary changes of the rooms and their records. -/
inductive RoomChange (s t : Server) : Prop
  | same (info : t.roomInfo = s.roomInfo) (records : SameRecords s t)
  | removed {u : Server} {p c : Ptr} {r r' : Room} (h : Removed u t p c r r')
      (mem : u.roomMem = s.roomMem) (files : u.files = s.files)
  | entered {c p : Ptr} {cl : Client} {r : Room} (h : Entered s t c p cl r)
  | created {p : Ptr} {name password : Bytes} {stack : RoomRecord}
      (name_fits : FitsIn maxRoomNameLen name) (password_fits : FitsIn maxPasswordLen password)
      (h : Created s t p name password stack)

theorem roomInfo_update {p : Ptr} {x : Option Room} (hmem : t.roomMem = Function.update s.roomMem p x) :
    t.roomInfo = Function.update s.roomInfo p (x.map Room.info) := by
  have hview : t.roomInfo = fun q => (Function.update s.roomMem p x q).map Room.info := by
    rw [← hmem]
    rfl
  rw [hview]
  exact map_update Room.info s.roomMem p x

theorem roomInfo_same (hmem : t.roomMem = s.roomMem) : t.roomInfo = s.roomInfo := by
  funext q
  rw [Server.roomInfo, Server.roomInfo, hmem]

theorem RoomChange.of_same (hmem : t.roomMem = s.roomMem) (hfiles : t.files = s.files) :
    RoomChange s t := by
  obtain ⟨hdb, hwrote⟩ := Prod.mk.inj hfiles
  exact RoomChange.same (roomInfo_same hmem) fun hw => ⟨by rw [hwrote, hw], by rw [hdb]⟩

theorem Leaves.roomChanges (h : Leaves s t c cl) : ReflTransGen RoomChange s t := by
  rcases h with ⟨_, rfl⟩ | ⟨p, r, r', _, hrem⟩
  · exact ReflTransGen.refl
  · exact ReflTransGen.single (RoomChange.removed hrem rfl rfl)

/-- **Every command changes the rooms in these ways only.** -/
theorem Effect.roomChanges (h : Effect s c cl line t) : ReflTransGen RoomChange s t := by
  cases h with
  | quiet hquiet _ =>
      exact ReflTransGen.single (RoomChange.same (roomInfo_same hquiet.roomMem) hquiet.records)
  | blank => exact ReflTransGen.single (RoomChange.of_same rfl rfl)
  | login name role _ hquiet _ =>
      exact ReflTransGen.single (RoomChange.same (roomInfo_same hquiet.roomMem) hquiet.records)
  | register n name password wrote _ hquiet _ =>
      exact ReflTransGen.single (RoomChange.same (roomInfo_same hquiet.roomMem) hquiet.records)
  | logout _ leaves => exact leaves.roomChanges.tail (RoomChange.of_same rfl rfl)
  | leave leaves => exact leaves.roomChanges
  | join p r _ leaves _ enters => exact leaves.roomChanges.tail (RoomChange.entered enters)
  | create p name password stack _ name_fits password_fits creates =>
      exact ReflTransGen.single (RoomChange.created name_fits password_fits creates)
  | kick d dl _ _ leaves => exact leaves.roomChanges
  | mute d dl p r muted speakers _ _ room =>
      refine ReflTransGen.single (RoomChange.same ?_ fun hw => ⟨hw, rfl⟩)
      have hinfo : s.roomInfo p = some (Room.info { r with activeSpeakers := speakers }) := by
        rw [Server.roomInfo, room]
        rfl
      rw [roomInfo_update rfl, Option.map_some, ← hinfo]
      exact Function.update_eq_self p s.roomInfo
  | promote _ roomMem _ _ records =>
      exact ReflTransGen.single (RoomChange.same (roomInfo_same roomMem) records)

/-! ### Connections -/

theorem acceptNewClient_ok (h : ServerOk s l) {env : Env} (fd : Nat)
    (hfresh : ∀ p, env.malloc = some p → s.clientMem p = none) :
    ServerOk (acceptNewClient env s fd) l ∧ RoomChange s (acceptNewClient env s fd) := by
  unfold acceptNewClient
  split
  · exact ⟨h, RoomChange.of_same rfl rfl⟩
  · split
    · rename_i slot d hslot hmalloc
      have hempty : s.clients slot = none := by simpa using List.find?_some hslot
      have hd := hfresh d hmalloc
      refine ⟨⟨h.rooms.of_same ⟨rfl, rfl, rfl, rfl, rfl, rfl, rfl⟩, ?_, ?_⟩, RoomChange.of_same rfl rfl⟩
      · have hnew : (newClient fd slot).slot = slot := rfl
        exact h.clients.accept hnew hd rfl ⟨rfl, rfl, rfl⟩ rfl rfl
      · have hroomOf : Server.roomOf { s with
            clients := Function.update s.clients slot (some d)
            clientCount := s.clientCount + 1
            fdToSlot := if fd < fdMapSize then Function.update s.fdToSlot fd (some slot) else s.fdToSlot
            clientMem := Function.update s.clientMem d (some (newClient fd slot)) } = s.roomOf :=
          roomOf_accept hempty hd rfl rfl rfl
        rw [hroomOf]
        exact h.views
    · exact ⟨h, RoomChange.of_same rfl rfl⟩

/-- A client that is disconnected is removed from its room first.  Its own
`current_room` keeps pointing there, but it is in `clients[]` no longer. -/
theorem disconnectClient_ok (h : ServerOk s l) (fd : Nat) :
    ∃ t l', disconnectClient s fd = some t ∧ ServerOk t l' ∧ ReflTransGen RoomChange s t := by
  unfold disconnectClient
  split
  · exact ⟨s, l, rfl, h, ReflTransGen.refl⟩
  · rename_i slot _
    split
    · exact ⟨s, l, rfl, h, ReflTransGen.refl⟩
    · rename_i d hd
      obtain ⟨dl, hheld, hslot, _⟩ := h.clients.holds hd
      subst hslot
      rw [hheld.2]
      dsimp only
      split
      · cases hp : dl.currentRoom with
        | none =>
            exact ⟨_, l, rfl, h.dropped hheld hp fd, ReflTransGen.single (RoomChange.of_same rfl rfl)⟩
        | some p =>
            obtain ⟨r, hr, hmem⟩ := h.in_room hheld hp
            obtain ⟨u, l', r', hcode, hok, _, hrem⟩ := h.rooms.removeClientFromRoom hheld.2 hr hmem
            dsimp only
            rw [hcode, Option.map_some]
            refine ⟨_, l', rfl, h.removed_dropped hheld hp hrem hok fd, ?_⟩
            exact (ReflTransGen.single (RoomChange.removed hrem rfl rfl)).tail
              (RoomChange.of_same rfl rfl)
      · exact ⟨s, l, rfl, h, ReflTransGen.refl⟩

/-- A descriptor that is closed takes its client out of its room, and nothing else
happens to the rooms. -/
theorem disconnectClient_cases (h : ServerOk s l) {fd : Nat} (hout : disconnectClient s fd = some t) :
    t.roomMem = s.roomMem ∨ ∃ slot d dl p u, (if fd < fdMapSize then s.fdToSlot fd else none) = some slot ∧
      s.clients slot = some d ∧ s.Holds d dl ∧ dl.fd = fd ∧ dl.currentRoom = some p ∧
        removeClientFromRoom s p d = some u ∧ t.roomMem = u.roomMem := by
  unfold disconnectClient at hout
  split at hout
  · cases hout
    exact Or.inl rfl
  · rename_i slot hslot
    split at hout
    · cases hout
      exact Or.inl rfl
    · rename_i d hd
      obtain ⟨dl, hheld, -, -⟩ := h.clients.holds hd
      rw [hheld.2] at hout
      dsimp only at hout
      split at hout
      · rename_i hfd
        split at hout
        · cases hout
          exact Or.inl rfl
        · rename_i p hp
          obtain ⟨u, hremove, hu⟩ := Option.map_eq_some_iff.mp hout
          cases hu
          exact Or.inr ⟨slot, d, dl, p, u, hslot, hd, hheld, hfd, hp, hremove, rfl⟩
      · cases hout
        exact Or.inl rfl

/-! ### Whole operations -/

/-- A command for the client in a slot. -/
theorem command_step (h : ServerOk s l) {slot : Fin maxClients} {env : Env}
    (hfresh : Fresh s (.command slot line, env)) (hslot : s.clients slot = some c)
    (hc : s.Holds c cl) :
    match s.step (.command slot line, env) with
    | some t => (∃ l, RoomsOk t l) ∧ Effect { s with wrote := env.wrote } c cl line t
    | none => ¬ s.IdsDistinct := by
  have htask := runTask_effect (h.with_wrote env.wrote) hc env (fun p hp => (hfresh p hp).2) line
  simp only [Server.step, hslot]
  cases hout : runTask env { s with wrote := env.wrote } c line with
  | none =>
      rw [hout] at htask
      exact htask
  | some out =>
      rw [hout] at htask
      exact htask

/-- **One operation** keeps the invariant and changes the rooms by elementary
changes; it returns if the live rooms have different ids. -/
theorem step_ok (h : ServerOk s l) {o : Op × Env} (hfresh : Fresh s o) :
    match s.step o with
    | some t => (∃ l, ServerOk t l) ∧ ReflTransGen RoomChange { s with wrote := o.2.wrote } t
    | none => ¬ s.IdsDistinct := by
  have h₀ := h.with_wrote o.2.wrote
  obtain ⟨op, env⟩ := o
  cases op with
  | accept fd =>
      obtain ⟨hok, hchange⟩ := acceptNewClient_ok h₀ fd fun p hp => (hfresh p hp).1
      exact ⟨⟨l, hok⟩, ReflTransGen.single hchange⟩
  | disconnect fd =>
      obtain ⟨t, l', ht, hok, hchanges⟩ := disconnectClient_ok h₀ fd
      simp only [Server.step]
      rw [ht]
      exact ⟨⟨l', hok⟩, hchanges⟩
  | command slot line =>
      cases hslot : s.clients slot with
      | none =>
          simp only [Server.step, hslot]
          exact ⟨⟨l, h₀⟩, ReflTransGen.refl⟩
      | some c =>
          obtain ⟨cl, hc, _, _⟩ := h.clients.holds hslot
          have hcommand := command_step h hfresh hslot hc
          cases hout : s.step (.command slot line, env) with
          | none =>
              rw [hout] at hcommand
              exact hcommand
          | some t =>
              rw [hout] at hcommand
              obtain ⟨⟨l', hok⟩, heffect⟩ := hcommand
              exact ⟨⟨l', heffect.serverOk h₀ hc hok⟩, heffect.roomChanges⟩

/-- **The invariant holds in every state that operations reach**, whatever
their record writes do. -/
theorem reachable_ok {db : FileDb} {users : File} {ops : List (Op × Env)}
    (h : Along Server.step Fresh (Server.start db users) ops)
    (hrun : run Server.step (Server.start db users) ops = some s) : ∃ l, ServerOk s l := by
  refine run_some_invariant (I := fun s => ∃ l, ServerOk s l) ?_ ⟨[], ServerOk.start db users⟩ h hrun
  rintro s o s' ⟨l, hok⟩ hfresh hstep
  have hs' := step_ok hok hfresh
  rw [hstep] at hs'
  exact hs'.1

end EchoLink
