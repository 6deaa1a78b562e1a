import EchoLink.RoomAgreement
import EchoLink.WalCrash

/-!
# Shutdowns, crashes and restarts

A server that is started again opens the files the last one left: recovery
runs over `rooms.bin`, the users stay, and `room_manager_init` makes the room
list empty.  Nothing reads the rooms back from `rooms.bin`, so the rooms
survive a restart only if there were none (`rooms_survive_iff`).
-/

namespace EchoLink

open CText RecordFile LinkedList PackedArray PartialMap Runs

/-- `room_manager_init`. -/
def roomManagerInit (s : Server) : Server := { s with roomHead := none, roomCount := 0 }

/-- A new process on the files of the old one: `file_db_init`, `auth_init` and
`room_manager_init`. -/
def Server.restart (s : Server) (junk : Nat → Int) : Server :=
  roomManagerInit
    (Server.start (EchoLink.restart junk s.db) (authInit (some s.users.data) userRecordSize))

/-! ### Do the rooms survive? -/

/-- The rooms that a walk over the list meets. -/
def listedRooms (s : Server) : Nat → Option Ptr → Option (List RoomInfo)
  | 0, _ => none
  | _ + 1, none => some []
  | fuel + 1, some p =>
      match s.roomMem p with
      | none => none
      | some r => (listedRooms s fuel (s.roomNext p)).map (r.info :: ·)

/-- The live rooms, as `LIST` goes through them. -/
def Server.liveRooms (s : Server) : Option (List RoomInfo) :=
  listedRooms s (maxRooms + 1) s.roomHead

/-- The live rooms of `t` are those of `s`, with nobody in them. -/
def RoomsSurvive (s t : Server) : Prop :=
  ∃ before after, s.liveRooms = some before ∧ t.liveRooms = some after ∧
    after.Perm (before.map fun i => { i with count := 0 })

variable {s t : Server} {l : List Ptr}

theorem listedRooms_segment {before : Option Ptr} {fuel : Nat}
    (h : Segment s.roomNext s.roomPrev before l none) (hlive : ∀ p ∈ l, ∃ r, s.roomMem p = some r)
    (hfuel : l.length < fuel) : listedRooms s fuel l.head? = some (l.filterMap s.roomInfo) := by
  induction l generalizing before fuel with
  | nil =>
      obtain ⟨fuel, rfl⟩ : ∃ k, fuel = k + 1 := ⟨fuel - 1, by omega⟩
      rfl
  | cons p l ih =>
      obtain ⟨fuel, rfl⟩ : ∃ k, fuel = k + 1 := ⟨fuel - 1, by omega⟩
      obtain ⟨r, hr⟩ := hlive p List.mem_cons_self
      have hnext : s.roomNext p = l.head? := by rw [h.2.1, Option.or_none]
      have hrest := ih h.2.2 (fun q hq => hlive q (List.mem_cons_of_mem _ hq))
        (Nat.lt_of_succ_lt_succ hfuel)
      simp only [List.head?_cons, listedRooms, hr, hnext, hrest, Option.map_some,
        List.filterMap_cons, roomInfo_of_room hr]

/-- A well-formed list is listed from its head to its end. -/
theorem RoomsOk.liveRooms (h : RoomsOk s l) : s.liveRooms = some (l.filterMap s.roomInfo) := by
  rw [Server.liveRooms, h.linked.head_eq]
  exact listedRooms_segment h.linked.links (fun p hp => (h.live p).mp hp) (Nat.lt_succ_of_le h.bound)

theorem restart_liveRooms (s : Server) (junk : Nat → Int) :
    (s.restart junk).liveRooms = some [] := rfl

/-- **Rooms survive a restart only if there are none.** -/
theorem rooms_survive_iff (db : FileDb) (users : File) (ops : List (Op × Env))
    (h : Along Server.step Fresh (Server.start db users) ops) (s : Server)
    (hrun : run Server.step (Server.start db users) ops = some s) (junk : Nat → Int) :
    RoomsSurvive s (s.restart junk) ↔ s.roomHead = none := by
  obtain ⟨l, hok⟩ := reachable_ok h hrun
  have hlist := hok.rooms.liveRooms
  constructor
  · rintro ⟨before, after, hbefore, hafter, hperm⟩
    rw [restart_liveRooms, Option.some.injEq] at hafter
    rw [← hafter, List.nil_perm, List.map_eq_nil_iff] at hperm
    rw [hlist, Option.some.injEq, hperm] at hbefore
    cases hl : l with
    | nil => rw [hok.rooms.linked.head_eq, hl]; rfl
    | cons p rest =>
        rw [hl] at hbefore
        obtain ⟨r, hr⟩ := (hok.rooms.live p).mp (by rw [hl]; exact List.mem_cons_self)
        rw [List.filterMap_cons, roomInfo_of_room hr] at hbefore
        cases hbefore
  · intro hhead
    refine ⟨[], [], ?_, restart_liveRooms s junk, List.Perm.refl _⟩
    rw [Server.liveRooms, hhead]
    rfl

/-- The run without a room. -/
theorem rooms_survive_login :
    ∃ s, run Server.step (Server.start emptyDb startTable) (lobbyOps.take 3) = some s ∧
      (RoomsSurvive s (s.restart fun _ => 0) ↔ s.roomHead = none) ∧ s.roomHead = none := by
  have hhead : ((run Server.step (Server.start emptyDb startTable) (lobbyOps.take 3)).map
      fun s => s.roomHead) = some none := by decide +kernel
  obtain ⟨s, hrun, hnone⟩ := Option.map_eq_some_iff.mp hhead
  have halong : Along Server.step Fresh (Server.start emptyDb startTable) (lobbyOps.take 3) :=
    along_fresh (by decide +kernel)
  exact ⟨s, hrun, rooms_survive_iff emptyDb startTable _ halong s hrun _, hnone⟩

/-- The lobby is gone after a restart. -/
theorem lobby_lost :
    ¬ ∀ (db : FileDb) (users : File) (ops : List (Op × Env)),
      Along Server.step Fresh (Server.start db users) ops → ∀ s,
        run Server.step (Server.start db users) ops = some s → ∀ junk,
          RoomsSurvive s (s.restart junk) := by
  intro hall
  have hcount : ((run Server.step (Server.start emptyDb startTable) lobbyOps).bind
      fun s => s.liveRooms.map List.length) = some 1 := by decide +kernel
  obtain ⟨s, hrun, hone⟩ := Option.bind_eq_some_iff.mp hcount
  have halong := lobbyOps_fresh
  obtain ⟨before, after, hbefore, hafter, hperm⟩ :=
    hall emptyDb startTable lobbyOps halong s hrun fun _ => 0
  rw [restart_liveRooms, Option.some.injEq] at hafter
  rw [hbefore, Option.map_some, Option.some.injEq] at hone
  have hlength := hperm.length_eq
  rw [← hafter, List.length_map, hone] at hlength
  cases hlength

end EchoLink
