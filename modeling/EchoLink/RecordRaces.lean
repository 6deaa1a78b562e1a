import EchoLink.JoinLeave
import EchoLink.CachedCount

/-!
# Joins and leaves at the same time, and the record of the room

`room_join` and `room_leave` store `participant_count` in the record of the
room after they have released its mutex: they read the record, read the count
and write the record back.  `room_delete` clears `is_active` after it has
unlinked the room.  Here any number of these calls run step by step.

Seen from one room they are the workers of `CachedCount` (`joinStep_act`,
`leaveStep_act`).  So the record is right once all calls have returned, if no
call writes back an image older than what the others have done for good
(`room_record_not_stale`).  One client that joins while another leaves
is enough to leave a count behind (`stale_count_stays`).
-/

namespace EchoLink

open CText RecordFile LinkedList PackedArray PartialMap Runs CachedCount

/-- A call of `room_join`, or of `room_leave`, and where it stands. -/
inductive MemberCall where
  | join (c : Ptr) (password : Bytes) (ph : JoinPhase)
  | leave (c : Ptr) (ph : LeavePhase)

/-- The server and the calls. -/
structure Crowd (ι : Type) where
  server : Server
  calls : ι → MemberCall

variable {ι : Type} [DecidableEq ι]

/-- The next step of a call; the calls of `room_join` are for the room id `k`. -/
def memberStep (k : Nat) (env : Env) (s : Server) : MemberCall → Option (Server × MemberCall)
  | .join c password ph => (joinStep env s k password c ph).map fun out => (out.1, .join c password out.2)
  | .leave c ph => (leaveStep true env s c ph).map fun out => (out.1, .leave c out.2)

def Crowd.step (k : Nat) (m : Crowd ι) (a : ι × Env) : Option (Crowd ι) :=
  (memberStep k a.2 m.server (m.calls a.1)).map fun out =>
    { server := out.1, calls := Function.update m.calls a.1 out.2 }

/-! ### The room and its record -/

def RoomRecord.active (r : RoomRecord) : Bool := decide (r.isActive ≠ 0)

/-- The room `p` with the id `k`, and its record. -/
def Server.item (s : Server) (p : Ptr) (k : Nat) : Item Int32 where
  listed := decide (roomFindById s k = some (some p))
  count := (s.roomMem p).elim 0 fun r => Int32.ofNat r.participantCount
  active := (s.db.recordAt k).any RoomRecord.active
  stored := (s.db.recordAt k).elim 0 RoomRecord.userCount

/-- What a call of `room_leave` has still to do for the record of the room. -/
def LeavePhase.duty (p : Ptr) : LeavePhase → Duty Int32
  | .reading q => if q = p then .reading else .away
  | .counting q rec' => if q = p then .counting rec'.active else .away
  | .writing q rec' => if q = p then .writing rec'.active rec'.userCount else .away
  | .unlinked q _ => if q = p then .unlinked else .away
  | .erasing q _ _ => if q = p then .erasing else .away
  | _ => .away

/-- What a call of `room_join` has still to do for it. -/
def JoinPhase.duty (p : Ptr) : JoinPhase → Duty Int32
  | .leaving ph => ph.duty p
  | .reading q => if q = p then .reading else .away
  | .counting q rec' => if q = p then .counting rec'.active else .away
  | .writing q rec' => if q = p then .writing rec'.active rec'.userCount else .away
  | _ => .away

def MemberCall.duty (p : Ptr) : MemberCall → Duty Int32
  | .join _ _ ph => ph.duty p
  | .leave _ ph => ph.duty p

/-- Whenever a call writes the record back, the write transfers all of it, and
the image is not an old one or another call has still to write the record. -/
def StoresInTime (p : Ptr) (k : Nat) (m : Crowd ι) (a : ι × Env) : Prop :=
  a.2.wrote = [] ∧ CachedCount.InTime (m.server.item p k) (fun i => (m.calls i).duty p) a.1

/-! ### What the calls rely on -/

/-- The list is in order, only `p` has the id `k`, and the record is there. -/
structure RoomAt (s : Server) (l : List Ptr) (p : Ptr) (k : Nat) : Prop where
  sound : Sound s l
  only : ∀ q r, s.roomMem q = some r → (r.roomId = k ↔ q = p)
  small : ∀ r, s.roomMem p = some r → r.participantCount ≤ maxClients
  record : ∃ rec', s.db.recordAt k = some rec'

/-- A call that deletes a room has it out of the list. -/
def LeavePhase.Ok (l : List Ptr) (p : Ptr) (k : Nat) : LeavePhase → Prop
  | .unlinked q id => q ∉ l ∧ (id = k ↔ q = p)
  | .erasing q id rec' => q ∉ l ∧ (id = k ↔ q = p) ∧ rec'.isActive = 0
  | .freeing q => q ∉ l
  | _ => True

/-- A call of `room_join` for the id `k` finds the room `p`. -/
def JoinPhase.Ok (l : List Ptr) (p : Ptr) (k : Nat) : JoinPhase → Prop
  | .leaving ph => ph.Ok l p k
  | .found q => q = p
  | .reading q => q = p
  | .counting q _ => q = p
  | .writing q _ => q = p
  | _ => True

def MemberCall.Ok (l : List Ptr) (p : Ptr) (k : Nat) : MemberCall → Prop
  | .join _ _ ph => ph.Ok l p k
  | .leave _ ph => ph.Ok l p k

variable {s s' : Server} {l l' : List Ptr} {p q : Ptr} {k : Nat} {c : Ptr} {env : Env}

theorem LeavePhase.Ok.shrink {ph : LeavePhase} (h : ph.Ok l p k) (hl : l' ⊆ l) : ph.Ok l' p k := by
  cases ph with
  | unlinked q id => exact ⟨fun hq => h.1 (hl hq), h.2⟩
  | erasing q id rec' => exact ⟨fun hq => h.1 (hl hq), h.2⟩
  | freeing q => exact fun hq => h (hl hq)
  | _ => trivial

theorem MemberCall.Ok.shrink {call : MemberCall} (h : call.Ok l p k) (hl : l' ⊆ l) : call.Ok l' p k := by
  cases call with
  | leave c ph => exact LeavePhase.Ok.shrink h hl
  | join c password ph =>
      cases ph with
      | leaving ph =>
          have hph : ph.Ok l p k := h
          exact hph.shrink hl
      | _ => exact h

theorem RoomAt.listed_iff (h : RoomAt s l p k) : roomFindById s k = some (some p) ↔ p ∈ l := by
  constructor
  · intro hfind
    exact (h.sound.find_some hfind).1
  · intro hp
    obtain ⟨r, hr⟩ := h.sound.list.live p hp
    exact h.sound.find_listed ⟨hp, r, hr, (h.only p r hr).mpr rfl⟩

theorem RoomAt.item_listed (h : RoomAt s l p k) : (s.item p k).listed = decide (p ∈ l) :=
  decide_eq_decide.mpr h.listed_iff

theorem item_count {r : Room} (hr : s.roomMem p = some r) :
    (s.item p k).count = Int32.ofNat r.participantCount := by
  rw [Server.item, hr, Option.elim_some]

theorem item_active {rec' : RoomRecord} (hrec : s.db.recordAt k = some rec') :
    (s.item p k).active = rec'.active := by
  rw [Server.item, hrec, Option.any_some]

theorem item_stored {rec' : RoomRecord} (hrec : s.db.recordAt k = some rec') :
    (s.item p k).stored = rec'.userCount := by
  rw [Server.item, hrec, Option.elim_some]

theorem dbReadRoom_active {db : FileDb} {old : RoomRecord} (hold : db.recordAt k = some old) :
    (dbReadRoom db k).1 = if old.active then some old else none := by
  rw [dbReadRoom_fst, hold, Option.filter_some]
  rfl

theorem RoomAt.item_eq (h : RoomAt s l p k) (h' : RoomAt s' l' p k) (hlist : p ∈ l' ↔ p ∈ l)
    (hroom : s'.roomMem p = s.roomMem p) (hrec : s'.db.recordAt k = s.db.recordAt k) :
    s'.item p k = s.item p k := by
  simp only [Server.item, hroom, hrec, h.listed_iff, h'.listed_iff, hlist]

/-- A step that changes nothing but the files. -/
theorem RoomAt.of_same (h : RoomAt s l p k) (hs : SameRooms s s')
    (hrec : ∃ rec', s'.db.recordAt k = some rec') : RoomAt s' l p k where
  sound := h.sound.of_same hs
  only := by rw [hs.mem]; exact h.only
  small := by rw [hs.mem]; exact h.small
  record := hrec

/-- A record is read. -/
theorem RoomAt.of_read (h : RoomAt s l p k) (hs : SameRooms s s')
    (hdata : s'.db.rooms.data = s.db.rooms.data) : RoomAt s' l p k ∧ s'.item p k = s.item p k := by
  have hrec := congrFun (recordAt_of_data hdata) k
  have hat : RoomAt s' l p k := h.of_same hs (by rw [hrec]; exact h.record)
  exact ⟨hat, h.item_eq hat Iff.rfl (by rw [hs.mem]) hrec⟩

/-- A record written whole is there, and the other records stay. -/
theorem writeRoom_whole (hw : env.wrote = []) (id : Nat) (r : RoomRecord) :
    (Server.writeRoom { s with wrote := env.wrote } id r).2.db.recordAt id = some r ∧
      ∀ k x, k ≠ id → s.db.recordAt k = some x →
        (Server.writeRoom { s with wrote := env.wrote } id r).2.db.recordAt k = some x := by
  have hdata : (Server.writeRoom { s with wrote := env.wrote } id r).2.db.rooms.data =
      patch s.db.rooms.data (id * roomRecordSize) r.encode := by
    simp only [Server.writeRoom, hw, List.headD_nil, dbWriteRoom, Nat.lt_irrefl, if_false]
    rw [walCommit, walWrite_rooms, storeRoom_data, walBegin_rooms, dbReadRoomRaw_data,
      encode_take_all (Nat.le_refl _)]
  have hlen := r.encode_length
  constructor
  · rw [FileDb.recordAt, hdata, slot_patch_whole (by decide) _ _ hlen, Option.map_some, RoomRecord.decode_encode]
  · intro k x hk hx
    obtain ⟨bs, hbs, hdecode⟩ := Option.map_eq_some_iff.mp hx
    rw [FileDb.recordAt, hdata, slot_patch_kept (Nat.le_of_eq hlen) hk hbs, Option.map_some, hdecode]

/-- A call writes the record of the room `q` back. -/
theorem RoomAt.write (h : RoomAt s l p k) (hw : env.wrote = []) {id : Nat} (hid : id = k ↔ q = p)
    (rec' : RoomRecord) :
    RoomAt (Server.writeRoom { s with wrote := env.wrote } id rec').2 l p k ∧
      (Server.writeRoom { s with wrote := env.wrote } id rec').2.item p k =
        if q = p then { s.item p k with active := rec'.active, stored := rec'.userCount } else s.item p k := by
  obtain ⟨hself, hothers⟩ := writeRoom_whole (s := s) hw id rec'
  obtain ⟨old, hold⟩ := h.record
  have hs : SameRooms s (Server.writeRoom { s with wrote := env.wrote } id rec').2 :=
    ⟨rfl, rfl, rfl, rfl, rfl, rfl, rfl⟩
  by_cases hq : q = p
  · obtain rfl := hid.mpr hq
    have hat := h.of_same hs ⟨rec', hself⟩
    refine ⟨hat, ?_⟩
    rw [if_pos hq, Server.item, hself]
    simp only [Server.item, h.listed_iff, hat.listed_iff, hs.mem, Option.any_some, Option.elim_some]
  · have hrec := hothers k old (fun hk => hq (hid.mp hk.symm)) hold
    have hat := h.of_same hs ⟨old, hrec⟩
    refine ⟨hat, ?_⟩
    rw [if_neg hq]
    exact h.item_eq hat Iff.rfl (by rw [hs.mem]) (by rw [hrec, hold])

/-- The participants of the room `q` change. -/
theorem RoomAt.section (h : RoomAt s l p k) {r r' : Room} (hr : s.roomMem q = some r)
    (hid : r'.roomId = r.roomId) (hpacked : Packed r'.participants r'.participantCount)
    (hsmall : q = p → r'.participantCount ≤ maxClients) (hs : SameRooms (s.setRoom q r') s')
    (hdb : s'.db = s.db) :
    RoomAt s' l p k ∧ s'.item p k =
      if q = p then { s.item p k with count := Int32.ofNat r'.participantCount } else s.item p k := by
  have hmem : s'.roomMem = Function.update s.roomMem q (some r') := hs.mem
  have hat : RoomAt s' l p k := by
    refine ⟨(h.sound.setRoom hr hid hpacked).of_same hs, ?_, ?_, by rw [hdb]; exact h.record⟩
    · intro u x hu
      rw [hmem] at hu
      rcases update_some_cases hu with ⟨rfl, rfl⟩ | ⟨_, hu⟩
      · rw [hid]
        exact h.only u r hr
      · exact h.only u x hu
    · intro x hx
      rw [hmem] at hx
      rcases update_some_cases hx with ⟨hp, rfl⟩ | ⟨_, hx⟩
      · exact hsmall hp.symm
      · exact h.small x hx
  refine ⟨hat, ?_⟩
  by_cases hq : q = p
  · subst hq
    have hroom : s'.roomMem q = some r' := by rw [hmem, Function.update_self]
    simp only [Server.item, hroom, hdb, h.listed_iff, hat.listed_iff, Option.elim_some, if_true]
  · rw [if_neg hq]
    exact h.item_eq hat Iff.rfl (by rw [hmem, Function.update_of_ne (fun hp => hq hp.symm)]) (by rw [hdb])

/-- The room `q` leaves the list. -/
theorem RoomAt.unlink (h : RoomAt s l p k) (hsound : Sound s' (l.erase q))
    (hrooms : s'.roomMem = s.roomMem) (hdb : s'.db = s.db) :
    RoomAt s' (l.erase q) p k ∧ s'.item p k =
      if q = p then { s.item p k with listed := false } else s.item p k := by
  have hat : RoomAt s' (l.erase q) p k :=
    ⟨hsound, by rw [hrooms]; exact h.only, by rw [hrooms]; exact h.small, by rw [hdb]; exact h.record⟩
  have hnd := h.sound.list.linked.nodup
  refine ⟨hat, ?_⟩
  by_cases hqp : q = p
  · subst hqp
    have hout : q ∉ l.erase q := fun hmem => (hnd.mem_erase_iff.mp hmem).1 rfl
    simp only [Server.item, hrooms, hdb, hat.listed_iff, hout, decide_false, if_true]
  · rw [if_neg hqp]
    refine h.item_eq hat ?_ (by rw [hrooms]) (by rw [hdb])
    rw [hnd.mem_erase_iff]
    exact ⟨fun hmem => hmem.2, fun hmem => ⟨fun hpq => hqp hpq.symm, hmem⟩⟩

/-- The room `q` is freed. -/
theorem RoomAt.free (h : RoomAt s l p k) (hq : q ∉ l) :
    RoomAt (s.freeRoom q) l p k ∧ (s.freeRoom q).item p k =
      if q = p then { s.item p k with count := 0 } else s.item p k := by
  have hat : RoomAt (s.freeRoom q) l p k :=
    ⟨h.sound.freeRoom hq, fun u x hu => h.only u x (update_none_cases hu).2,
      fun x hx => h.small x (update_none_cases hx).2, h.record⟩
  refine ⟨hat, ?_⟩
  by_cases hqp : q = p
  · subst hqp
    have hroom : (s.freeRoom q).roomMem q = none := Function.update_self _ _ _
    simp only [Server.item, hroom, h.listed_iff, hat.listed_iff, Option.elim_none, if_true]
    rfl
  · rw [if_neg hqp]
    exact h.item_eq hat Iff.rfl (Function.update_of_ne (fun hp => hqp hp.symm) _ _) rfl

/-- What one step of a call comes to. -/
def StepsTo (s : Server) (l : List Ptr) (p : Ptr) (k : Nat) (duty : Duty Int32) (s' : Server)
    (duty' : Duty Int32) (ok' : List Ptr → Prop) : Prop :=
  ∃ l', l' ⊆ l ∧ RoomAt s' l' p k ∧ ok' l' ∧ Act (s.item p k) duty (s'.item p k) duty'

/-- A step that leaves the room and its record alone. -/
theorem StepsTo.quiet {duty : Duty Int32} {ok' : List Ptr → Prop} (hat : RoomAt s' l p k) (hok : ok' l)
    (hitem : s'.item p k = s.item p k) (hact : Act (s.item p k) duty (s.item p k) duty) :
    StepsTo s l p k duty s' duty ok' :=
  ⟨l, fun _ hq => hq, hat, hok, by rw [hitem]; exact hact⟩

variable {ph ph' : LeavePhase}

/-- The section that takes the client out of the participants. -/
theorem leaveStep_act_locking (h : RoomAt s l p k)
    (hstep : leaveStep true env s c (.locking q) = some (s', ph')) :
    StepsTo s l p k .away s' (ph'.duty p) fun l' => ph'.Ok l' p k := by
  simp only [leaveStep, if_true] at hstep
  split at hstep
  · rename_i r cl hr hcl
    split at hstep
    · rename_i r' hremove
      cases hstep
      have hwithout := Room.remove_some (h.sound.packed q r hr) hremove
      have hsmall : q = p → r'.participantCount ≤ maxClients := by
        rintro rfl
        calc r'.participantCount = r'.members.length := hwithout.packed.length.symm
          _ ≤ r.members.length := by rw [hwithout.members]; exact List.length_erase_le
          _ = r.participantCount := (h.sound.packed q r hr).length
          _ ≤ maxClients := h.small r hr
      have hs : SameRooms (s.setRoom q r') ((s.setRoom q r').setClient c { cl with currentRoom := none }) :=
        ⟨rfl, rfl, rfl, rfl, rfl, rfl, rfl⟩
      obtain ⟨hat, hitem⟩ := h.section hr hwithout.id hwithout.packed hsmall hs rfl
      refine ⟨l, fun _ hq => hq, hat, trivial, ?_⟩
      rw [hitem, LeavePhase.duty]
      split
      · exact Act.change _ _
      · exact Act.skip _
    · cases hstep
      refine ⟨l, fun _ hq => hq, h, trivial, ?_⟩
      rw [LeavePhase.duty]
      split
      · exact Act.change _ (s.item p k).count
      · exact Act.skip _
  · cases hstep

/-- The record is read, for the room `q` with the id `id`. -/
theorem RoomAt.read_act (h : RoomAt s l p k) {id : Nat} (hid : id = k ↔ q = p) (rec' : RoomRecord)
    (hread : (dbReadRoomRaw s.db id).1 = some rec') :
    RoomAt { s with db := (dbReadRoomRaw s.db id).2 } l p k ∧
      Act (s.item p k) (if q = p then .reading else .away)
        (Server.item { s with db := (dbReadRoomRaw s.db id).2 } p k)
        (if q = p then .counting rec'.active else .away) := by
  have hs : SameRooms s { s with db := (dbReadRoomRaw s.db id).2 } := ⟨rfl, rfl, rfl, rfl, rfl, rfl, rfl⟩
  obtain ⟨hat, hitem⟩ := h.of_read hs (dbReadRoomRaw_data s.db id)
  refine ⟨hat, ?_⟩
  rw [hitem]
  by_cases hq : q = p
  · obtain rfl := hid.mpr hq
    rw [dbReadRoomRaw_fst] at hread
    rw [if_pos hq, if_pos hq, ← item_active (p := p) hread]
    exact Act.read _
  · rw [if_neg hq, if_neg hq]
    exact Act.skip _

/-- A read that finds no record is not one of the room's own. -/
theorem RoomAt.read_none (h : RoomAt s l p k) {id : Nat} (hid : id = k ↔ q = p)
    (hread : (dbReadRoomRaw s.db id).1 = none) : q ≠ p := by
  intro hq
  obtain rfl := hid.mpr hq
  obtain ⟨rec', hrec⟩ := h.record
  rw [dbReadRoomRaw_fst, hrec] at hread
  cases hread

/-- The count is read. -/
theorem count_act {r : Room} (hr : s.roomMem q = some r) (rec' : RoomRecord) :
    Act (s.item p k) (if q = p then .counting rec'.active else .away) (s.item p k)
      (if q = p then .writing (RoomRecord.active { rec' with userCount := Int32.ofNat r.participantCount })
        (Int32.ofNat r.participantCount) else .away) := by
  by_cases hq : q = p
  · rw [if_pos hq, if_pos hq, ← item_count (k := k) (hq ▸ hr)]
    exact Act.count _ _
  · rw [if_neg hq, if_neg hq]
    exact Act.skip _

/-- The record is written back. -/
theorem RoomAt.write_act (h : RoomAt s l p k) (hw : env.wrote = []) {id : Nat} (hid : id = k ↔ q = p)
    (rec' : RoomRecord) :
    Act (s.item p k) (if q = p then .writing rec'.active rec'.userCount else .away)
      ((Server.writeRoom { s with wrote := env.wrote } id rec').2.item p k) .away := by
  rw [(h.write hw hid rec').2]
  by_cases hq : q = p
  · rw [if_pos hq, if_pos hq]
    exact Act.write _ _ _
  · rw [if_neg hq, if_neg hq]
    exact Act.skip _

/-- The room `q` leaves the list. -/
theorem RoomAt.unlink_act (h : RoomAt s l p k) (hq : q ∈ l) (hsound : Sound s' (l.erase q))
    (hrooms : s'.roomMem = s.roomMem) (hdb : s'.db = s.db) :
    Act (s.item p k) .away (s'.item p k) (if q = p then .unlinked else .away) := by
  rw [(h.unlink hsound hrooms hdb).2]
  by_cases hqp : q = p
  · rw [if_pos hqp, if_pos hqp]
    refine Act.unlink _ ?_
    rw [h.item_listed]
    exact decide_eq_true (hqp ▸ hq)
  · rw [if_neg hqp, if_neg hqp]
    exact Act.skip _

/-- The record of a room that is out of the list is looked up.  Only one that is
active is found. -/
theorem RoomAt.lookup_act (h : RoomAt s l p k) {id : Nat} (hid : id = k ↔ q = p) :
    Act (s.item p k) (if q = p then .unlinked else .away) (s.item p k)
      (if q = p ∧ (dbReadRoom s.db id).1.isSome then .erasing else .away) := by
  obtain ⟨old, hold⟩ := h.record
  by_cases hqp : q = p
  · obtain rfl := hid.mpr hqp
    rw [if_pos hqp, dbReadRoom_active hold]
    by_cases hactive : old.active = true
    · rw [if_pos hactive, if_pos ⟨hqp, rfl⟩]
      exact Act.found _ (by rw [item_active hold]; exact hactive)
    · rw [if_neg hactive, if_neg (fun hboth => Bool.noConfusion hboth.2)]
      exact Act.absent _ (by rw [item_active hold]; exact Bool.eq_false_iff.mpr hactive)
  · rw [if_neg hqp, if_neg (fun hboth => hqp hboth.1)]
    exact Act.skip _

/-- The record is written back without its `is_active`. -/
theorem RoomAt.erase_act (h : RoomAt s l p k) (hw : env.wrote = []) {id : Nat} (hid : id = k ↔ q = p)
    {rec' : RoomRecord} (hinactive : rec'.active = false) :
    Act (s.item p k) (if q = p then .erasing else .away)
      ((Server.writeRoom { s with wrote := env.wrote } id rec').2.item p k) .away := by
  rw [(h.write hw hid rec').2]
  by_cases hqp : q = p
  · rw [if_pos hqp, if_pos hqp, hinactive]
    exact Act.erase _ _
  · rw [if_neg hqp, if_neg hqp]
    exact Act.skip _

/-- A room that is out of the list is freed. -/
theorem RoomAt.free_act (h : RoomAt s l p k) (hq : q ∉ l) :
    Act (s.item p k) .away ((s.freeRoom q).item p k) .away := by
  rw [(h.free hq).2]
  by_cases hqp : q = p
  · rw [if_pos hqp]
    refine Act.free _ _ ?_
    rw [h.item_listed]
    exact decide_eq_false (hqp ▸ hq)
  · rw [if_neg hqp]
    exact Act.skip _

/-- **One step of `room_leave`**, seen from the room `p`. -/
theorem leaveStep_act (h : RoomAt s l p k) (hok : ph.Ok l p k) (hw : env.wrote = [])
    (hstep : leaveStep true env s c ph = some (s', ph')) :
    StepsTo s l p k (ph.duty p) s' (ph'.duty p) fun l' => ph'.Ok l' p k := by
  have hskip : StepsTo s l p k .away s .away fun _ => True :=
    StepsTo.quiet h trivial rfl (Act.skip _)
  have hsame : ∀ db, SameRooms s { s with db } := fun db => ⟨rfl, rfl, rfl, rfl, rfl, rfl, rfl⟩
  cases ph with
  | called =>
      obtain ⟨cl, _, hout⟩ := Option.map_eq_some_iff.mp hstep
      cases hout
      split
      · exact hskip
      · exact hskip
  | tested =>
      simp only [leaveStep] at hstep
      split at hstep
      · cases hstep
      · split at hstep
        · cases hstep
        · cases hstep
          exact hskip
  | locking q => exact leaveStep_act_locking h hstep
  | reading q =>
      simp only [leaveStep] at hstep
      split at hstep
      · cases hstep
      · rename_i r hr
        have hid := h.only q r hr
        split at hstep
        · rename_i rec' hread
          cases hstep
          obtain ⟨hat, hact⟩ := h.read_act hid rec' hread
          exact ⟨l, fun _ hq => hq, hat, trivial, hact⟩
        · rename_i hread
          cases hstep
          obtain ⟨hat, hitem⟩ := h.of_read (hsame _) (dbReadRoomRaw_data s.db r.roomId)
          rw [LeavePhase.duty, if_neg (h.read_none hid hread)]
          exact StepsTo.quiet hat trivial hitem (Act.skip _)
  | counting q rec' =>
      obtain ⟨r, hr, hout⟩ := Option.map_eq_some_iff.mp hstep
      cases hout
      exact ⟨l, fun _ hq => hq, h, trivial, count_act hr rec'⟩
  | writing q rec' =>
      obtain ⟨r, hr, hout⟩ := Option.map_eq_some_iff.mp hstep
      cases hout
      have hid := h.only q r hr
      exact ⟨l, fun _ hq => hq, (h.write hw hid rec').1, trivial, h.write_act hw hid rec'⟩
  | testing q =>
      obtain ⟨r, _, hout⟩ := Option.map_eq_some_iff.mp hstep
      cases hout
      split
      · exact hskip
      · exact hskip
  | empty q =>
      obtain ⟨r, _, hout⟩ := Option.map_eq_some_iff.mp hstep
      cases hout
      exact hskip
  | deleting id =>
      simp only [leaveStep] at hstep
      split at hstep
      · cases hstep
      · cases hstep
        exact hskip
      · rename_i q hfind
        obtain ⟨hq, r, hr, hid⟩ := h.sound.find_some hfind
        obtain ⟨t, hunlink, hsound, hrooms, _, hdb⟩ := h.sound.unlinkRoom hq
        rw [hunlink] at hstep
        cases hstep
        have hat := (h.unlink hsound hrooms hdb).1
        have hnd := h.sound.list.linked.nodup
        have hgone : q ∉ l.erase q := fun hmem => (hnd.mem_erase_iff.mp hmem).1 rfl
        exact ⟨l.erase q, List.erase_subset, hat, ⟨hgone, by rw [← hid]; exact h.only q r hr⟩,
          h.unlink_act hq hsound hrooms hdb⟩
  | unlinked q id =>
      obtain ⟨hq, hid⟩ := hok
      obtain ⟨hat, hitem⟩ := h.of_read (hsame _) (dbReadRoom_data s.db id)
      have hact := h.lookup_act hid
      simp only [leaveStep] at hstep
      split at hstep
      · rename_i rec' hread
        cases hstep
        refine ⟨l, fun _ hq => hq, hat, ⟨hq, hid, rfl⟩, ?_⟩
        rw [hread, Option.isSome_some] at hact
        simp only [and_true] at hact
        rw [hitem]
        exact hact
      · rename_i hread
        cases hstep
        refine ⟨l, fun _ hq => hq, hat, hq, ?_⟩
        rw [hread, Option.isSome_none] at hact
        simp only [Bool.false_eq_true, and_false, if_false] at hact
        rw [hitem]
        exact hact
  | erasing q id rec' =>
      obtain ⟨hq, hid, hinactive⟩ := hok
      cases hstep
      have hactive : rec'.active = false := decide_eq_false (not_not.mpr hinactive)
      exact ⟨l, fun _ hq => hq, (h.write hw hid rec').1, hq, h.erase_act hw hid hactive⟩
  | freeing q =>
      obtain ⟨r, _, hout⟩ := Option.map_eq_some_iff.mp hstep
      cases hout
      have hq : q ∉ l := hok
      exact ⟨l, fun _ hq => hq, (h.free hq).1, trivial, h.free_act hq⟩
  | returned result =>
      cases hstep
      exact hskip

/-- **One step of `room_join`**, seen from the room `p` with the id `k`. -/
theorem joinStep_act (h : RoomAt s l p k) {ph ph' : JoinPhase} {password : Bytes} (hok : ph.Ok l p k)
    (hw : env.wrote = []) (hstep : joinStep env s k password c ph = some (s', ph')) :
    StepsTo s l p k (ph.duty p) s' (ph'.duty p) fun l' => ph'.Ok l' p k := by
  have hskip : StepsTo s l p k .away s .away fun _ => True :=
    StepsTo.quiet h trivial rfl (Act.skip _)
  have hself : ∀ {q : Ptr}, q = p → (k = k ↔ q = p) := fun hq => ⟨fun _ => hq, fun _ => rfl⟩
  cases ph with
  | called =>
      obtain ⟨cl, _, hout⟩ := Option.map_eq_some_iff.mp hstep
      cases hout
      split
      · exact hskip
      · exact hskip
  | leaving ph =>
      obtain ⟨⟨t, ph₁⟩, hleave, hout⟩ := Option.map_eq_some_iff.mp hstep
      have hph : ph.Ok l p k := hok
      have hleft := leaveStep_act h hph hw hleave
      cases hout
      cases ph₁ <;> exact hleft
  | searching =>
      simp only [joinStep] at hstep
      split at hstep
      · cases hstep
      · cases hstep
        exact hskip
      · rename_i q hfind
        cases hstep
        obtain ⟨_, r, hr, hid⟩ := h.sound.find_some hfind
        exact StepsTo.quiet h ((h.only q r hr).mp hid) rfl (Act.skip _)
  | found q =>
      obtain rfl : q = p := hok
      simp only [joinStep, enterSection] at hstep
      split at hstep
      · rename_i r cl hr hcl
        split at hstep
        · cases hstep
          exact hskip
        · split at hstep
          · cases hstep
            exact hskip
          · rename_i hroom
            cases hstep
            have hadd := (Room.add_members (h.sound.packed q r hr) c).1
            have hsmall : q = q → (r.add c).participantCount ≤ maxClients :=
              fun _ => Nat.succ_le_of_lt (Nat.lt_of_not_le hroom)
            have hs : SameRooms (s.setRoom q (r.add c))
                ((s.setRoom q (r.add c)).setClient c { cl with currentRoom := some q }) :=
              ⟨rfl, rfl, rfl, rfl, rfl, rfl, rfl⟩
            have hid : (r.add c).roomId = r.roomId := rfl
            obtain ⟨hat, hitem⟩ := h.section hr hid hadd hsmall hs rfl
            refine ⟨l, fun _ hq => hq, hat, rfl, ?_⟩
            rw [hitem, if_pos rfl, JoinPhase.duty, if_pos rfl]
            exact Act.change _ _
      · cases hstep
  | reading q =>
      have hq : q = p := hok
      simp only [joinStep] at hstep
      split at hstep
      · rename_i rec' hread
        cases hstep
        obtain ⟨hat, hact⟩ := h.read_act (hself hq) rec' hread
        exact ⟨l, fun _ hq => hq, hat, hq, hact⟩
      · rename_i hread
        exact absurd hq (h.read_none (hself hq) hread)
  | counting q rec' =>
      obtain ⟨r, hr, hout⟩ := Option.map_eq_some_iff.mp hstep
      cases hout
      exact ⟨l, fun _ hq => hq, h, hok, count_act hr rec'⟩
  | writing q rec' =>
      have hid := hself (q := q) hok
      cases hstep
      exact ⟨l, fun _ hq => hq, (h.write hw hid rec').1, trivial, h.write_act hw hid rec'⟩
  | logging q =>
      obtain ⟨r, _, hout⟩ := Option.map_eq_some_iff.mp hstep
      cases hout
      exact hskip
  | returned result =>
      cases hstep
      exact hskip

/-! ### All calls together -/

/-- The invariant of the calls. -/
structure CrowdOk (p : Ptr) (k : Nat) (m : Crowd ι) (l : List Ptr) : Prop where
  room : RoomAt m.server l p k
  calls : ∀ i, (m.calls i).Ok l p k
  record : Inv (m.server.item p k) fun i => (m.calls i).duty p

/-- **One step** keeps the invariant. -/
theorem CrowdOk.step {m m' : Crowd ι} {a : ι × Env} (h : CrowdOk p k m l) (ha : StoresInTime p k m a)
    (hstep : m.step k a = some m') : ∃ l', CrowdOk p k m' l' := by
  obtain ⟨i, env⟩ := a
  obtain ⟨hw, htimely⟩ := ha
  obtain ⟨⟨t, call⟩, hcall, rfl⟩ := Option.map_eq_some_iff.mp hstep
  have hto : StepsTo m.server l p k ((m.calls i).duty p) t (call.duty p) fun l' => call.Ok l' p k := by
    have hok := h.calls i
    cases hi : m.calls i with
    | join c password ph =>
        rw [hi] at hcall hok
        obtain ⟨⟨t', ph'⟩, hjoin, hout⟩ := Option.map_eq_some_iff.mp hcall
        cases hout
        exact joinStep_act h.room hok hw hjoin
    | leave c ph =>
        rw [hi] at hcall hok
        obtain ⟨⟨t', ph'⟩, hleave, hout⟩ := Option.map_eq_some_iff.mp hcall
        cases hout
        exact leaveStep_act h.room hok hw hleave
  obtain ⟨l', hsub, hroom, hok, hact⟩ := hto
  refine ⟨l', hroom, ?_, ?_⟩
  · intro j
    by_cases hj : j = i
    · subst hj
      dsimp only
      rw [Function.update_self]
      exact hok
    · dsimp only
      rw [Function.update_of_ne hj]
      exact (h.calls j).shrink hsub
  · have hduties : (fun j => (Function.update m.calls i call j).duty p) =
        Function.update (fun j => (m.calls j).duty p) i (call.duty p) := by
      funext j
      exact Function.apply_update (fun _ call => MemberCall.duty p call) m.calls i call j
    dsimp only
    rw [hduties]
    exact h.record.act htimely hact

/-- The call has not begun. -/
def MemberCall.called : MemberCall → Prop
  | .join _ _ ph => ph = .called
  | .leave _ ph => ph = .called

theorem MemberCall.called.ok {call : MemberCall} (h : call.called) (l : List Ptr) (p : Ptr) (k : Nat) :
    call.Ok l p k ∧ call.duty p = .away := by
  cases call with
  | join c password ph =>
      cases h
      exact ⟨trivial, rfl⟩
  | leave c ph =>
      cases h
      exact ⟨trivial, rfl⟩

/-- The call has returned. -/
def MemberCall.returned : MemberCall → Prop
  | .join _ _ ph => ∃ result, ph = .returned result
  | .leave _ ph => ∃ result, ph = .returned result

theorem MemberCall.returned.away {call : MemberCall} (h : call.returned) (p : Ptr) : call.duty p = .away := by
  cases call with
  | join c password ph =>
      obtain ⟨result, rfl⟩ := h
      rfl
  | leave c ph =>
      obtain ⟨result, rfl⟩ := h
      rfl

/-- What the record of the room `p` with the id `k` has to say: that it is
active, with its number of participants, if it is in the list, and that it is
not active otherwise. -/
def RecordRight (s : Server) (p : Ptr) (k : Nat) : Prop :=
  ∃ rec', s.db.recordAt k = some rec' ∧
    ((roomFindById s k = some (some p) ∧ rec'.isActive ≠ 0 ∧
        ∃ r, s.roomMem p = some r ∧ rec'.userCount.toInt = r.participantCount) ∨
      (roomFindById s k = some none ∧ rec'.isActive = 0))

omit [DecidableEq ι] in
/-- When all calls have returned the record is right. -/
theorem CrowdOk.done {m : Crowd ι} (h : CrowdOk p k m l) (hdone : ∀ i, (m.calls i).returned) :
    RecordRight m.server p k := by
  obtain ⟨hlisted, hgone⟩ := h.record.done fun i => (hdone i).away p
  obtain ⟨rec', hrec⟩ := h.room.record
  rw [h.room.item_listed, decide_eq_true_iff, item_active hrec, item_stored hrec] at hlisted
  rw [h.room.item_listed, decide_eq_false_iff_not, item_active hrec] at hgone
  refine ⟨rec', hrec, ?_⟩
  by_cases hp : p ∈ l
  · obtain ⟨hactive, hstored⟩ := hlisted hp
    obtain ⟨r, hr⟩ := h.room.sound.list.live p hp
    refine Or.inl ⟨h.room.listed_iff.mpr hp, of_decide_eq_true hactive, r, hr, ?_⟩
    rw [hstored, item_count hr, toInt_ofNat_of_le (h.room.small r hr)]
  · refine Or.inr ⟨?_, not_not.mp (of_decide_eq_false (hgone hp))⟩
    cases hfind : roomFindById m.server k with
    | none =>
        rw [roomFindById, h.room.sound.list.findRoom] at hfind
        cases hfind
    | some found =>
        cases found with
        | none => rfl
        | some q =>
            obtain ⟨hq, r, hr, hid⟩ := h.room.sound.find_some hfind
            exact absurd ((h.room.only q r hr).mp hid ▸ hq) hp

/-- **The record of a room is not left stale**: from every reachable state, for
any number of calls of `room_join` for the room and of `room_leave`, and for
every order of their steps in which the record is stored in time, the record is
right once all calls have returned. -/
theorem room_record_not_stale (db : FileDb) (users : File) (ops : List (Op × Env)) (s : Server)
    (hproper : Along Server.step Proper (Server.start db users) ops)
    (hreach : run Server.step (Server.start db users) ops = some s) (p : Ptr) (r : Room)
    (hr : s.roomMem p = some r) (calls : ι → MemberCall) (hcalled : ∀ i, (calls i).called)
    (steps : List (ι × Env))
    (halong : Along (Crowd.step r.roomId) (StoresInTime p r.roomId) ⟨s, calls⟩ steps) (m : Crowd ι)
    (hrun : run (Crowd.step r.roomId) ⟨s, calls⟩ steps = some m) (hdone : ∀ i, (m.calls i).returned) :
    RecordRight m.server p r.roomId := by
  obtain ⟨u, hu, ⟨l, hok⟩, hrecords⟩ := serverRun_ok db users ops hproper
  rw [hreach, Option.some.injEq] at hu
  subst hu
  obtain ⟨rec', hrec, hactive, _, _, hcount⟩ := hrecords.record hr
  have hroom : RoomAt s l p r.roomId := by
    refine ⟨⟨hok.rooms.listOk, hrecords.ids_distinct, hok.rooms.packed⟩, ?_, ?_, rec', hrec⟩
    · intro q x hq
      constructor
      · exact fun hid => hrecords.ids_distinct q p x r hq hr hid
      · rintro rfl
        rw [hr, Option.some.injEq] at hq
        rw [hq]
    · intro x hx
      exact hok.participants_le hx
  have hstart : CrowdOk p r.roomId (⟨s, calls⟩ : Crowd ι) l := by
    refine ⟨hroom, ?_, Inv.start ?_ ?_ ?_ ?_⟩
    · exact fun i => ((hcalled i).ok l p r.roomId).1
    · rw [hroom.item_listed]
      exact decide_eq_true (hok.rooms.mem_of_room hr)
    · rw [item_active hrec]
      exact decide_eq_true hactive
    · rw [item_stored hrec, item_count hr, hcount]
    · exact fun i => ((hcalled i).ok l p r.roomId).2
  obtain ⟨l', hend⟩ := run_some_invariant (I := fun m => ∃ l, CrowdOk p r.roomId m l) (by
    rintro m a m' ⟨l, hm⟩ ha hstep
    exact hm.step ha hstep) ⟨l, hstart⟩ halong hrun
  exact hend.done hdone

/-! ### Two calls -/

/-- Bob joins the lobby while the admin leaves it. -/
def bobAndAdmin : Bool → MemberCall
  | false => .join 3 [] .called
  | true => .leave 1 .called

theorem bobAndAdmin_called (i : Bool) : (bobAndAdmin i).called := by
  cases i <;> rfl

def turns (n : Nat) (i : Bool) : List (Bool × Env) := List.replicate n (i, completeEnv none)

/-- Bob's call has the count 2 when the admin's call takes it to 1; it stores 2,
and the admin's call stores 1 after it. -/
def putRight : List (Bool × Env) := turns 5 false ++ turns 3 true ++ turns 2 false ++ turns 4 true

/-- The admin's call stores 1 before bob's call stores 2. -/
def overtaken : List (Bool × Env) := turns 5 false ++ turns 7 true ++ turns 2 false

/-- `StoresInTime` for two calls, computed. -/
def checkStores (p : Ptr) (k : Nat) (m : Crowd Bool) (a : Bool × Env) : Bool :=
  let x := m.server.item p k
  a.2.wrote.isEmpty &&
    match (m.calls a.1).duty p, (m.calls !a.1).duty p with
    | .writing _ _, .reading => x.listed
    | .writing _ n, _ => x.listed && decide (n = x.count)
    | _, _ => true

theorem storesInTime_of_check {p : Ptr} {k : Nat} (m : Crowd Bool) (a : Bool × Env)
    (h : checkStores p k m a = true) : StoresInTime p k m a := by
  rw [checkStores, Bool.and_eq_true, List.isEmpty_iff] at h
  obtain ⟨hw, h⟩ := h
  refine ⟨hw, ?_⟩
  intro b n hduty
  have hother : (!a.1) ≠ a.1 := by cases a.1 <;> decide
  dsimp only at hduty
  rw [hduty] at h
  cases hd : (m.calls !a.1).duty p with
  | reading =>
      rw [hd] at h
      refine ⟨fun _ => Or.inr ⟨!a.1, hother, by dsimp only; rw [hd]; trivial⟩, fun hgone => ?_⟩
      rw [hgone] at h
      cases h
  | _ =>
      rw [hd, Bool.and_eq_true] at h
      refine ⟨fun _ => Or.inl (of_decide_eq_true h.2), fun hgone => ?_⟩
      rw [hgone] at h
      cases h.1

def MemberCall.isReturned : MemberCall → Bool
  | .join _ _ (.returned _) => true
  | .leave _ (.returned _) => true
  | _ => false

theorem MemberCall.returned_of {call : MemberCall} (h : call.isReturned = true) : call.returned := by
  cases call with
  | join c password ph =>
      cases ph with
      | returned result => exact ⟨result, rfl⟩
      | _ => cases h
  | leave c ph =>
      cases ph with
      | returned result => exact ⟨result, rfl⟩
      | _ => cases h

/-- The two calls from the state in which the admin is alone in the lobby. -/
def lobbyCrowd (steps : List (Bool × Env)) : Option (Crowd Bool) :=
  (run Server.step (Server.start emptyDb startTable) (lobbyOps.take 7)).bind fun s =>
    run (Crowd.step 0) ⟨s, bobAndAdmin⟩ steps

/-- Whether the calls have returned, the participants, and the record. -/
def crowdEnd (m : Crowd Bool) : Bool × Bool × Option Nat × Option (Int32 × Int32) :=
  ((m.calls false).isReturned, (m.calls true).isReturned, (m.server.roomMem 2).map Room.participantCount,
    (m.server.db.recordAt 0).map fun rec' => (rec'.isActive, rec'.userCount))

/-- The late count is corrected by the call that is still to come. -/
theorem record_not_stale_lobby :
    (∃ m, lobbyCrowd putRight = some m ∧ RecordRight m.server 2 0) ∧
      (lobbyCrowd putRight).map crowdEnd = some (true, true, some 1, some (1, 1)) := by
  obtain ⟨s, r, _, hs, hr, hid, _⟩ := bob_outside
  have hend : (lobbyCrowd putRight).map crowdEnd = some (true, true, some 1, some (1, 1)) := by decide +kernel
  have hcheck : (run Server.step (Server.start emptyDb startTable) (lobbyOps.take 7)).map
      (fun s => checkAlong (Crowd.step 0) (checkStores 2 0) ⟨s, bobAndAdmin⟩ putRight) = some true := by
    decide +kernel
  rw [hs, Option.map_some, Option.some.injEq] at hcheck
  refine ⟨?_, hend⟩
  obtain ⟨m, hm, hvalues⟩ := Option.map_eq_some_iff.mp hend
  obtain ⟨hfirst, hsecond, _⟩ : (m.calls false).isReturned = true ∧ (m.calls true).isReturned = true ∧ _ := by
    simpa only [crowdEnd, Prod.mk.injEq] using hvalues
  refine ⟨m, hm, ?_⟩
  have halong : Along (Crowd.step r.roomId) (StoresInTime 2 r.roomId) ⟨s, bobAndAdmin⟩ putRight := by
    rw [hid]
    exact along_of_checkAlong storesInTime_of_check hcheck
  have hrun : run (Crowd.step r.roomId) ⟨s, bobAndAdmin⟩ putRight = some m := by
    rw [hid, ← hm, lobbyCrowd, hs, Option.bind_some]
  have hright := room_record_not_stale emptyDb startTable _ s lobbyOps_seven hs 2 r hr bobAndAdmin
    bobAndAdmin_called putRight halong m hrun (by
      intro i
      cases i
      · exact MemberCall.returned_of hfirst
      · exact MemberCall.returned_of hsecond)
  rwa [hid] at hright

/-- One participant is left, and the record says two. -/
theorem stale_count_stays :
    ¬ ∀ (db : FileDb) (users : File) (ops : List (Op × Env)) (s : Server),
      Along Server.step Proper (Server.start db users) ops →
      run Server.step (Server.start db users) ops = some s →
      ∀ p r, s.roomMem p = some r → ∀ calls : Bool → MemberCall, (∀ i, (calls i).called) →
      ∀ steps, (∀ a ∈ steps, a.2.wrote = []) →
      ∀ m, run (Crowd.step r.roomId) ⟨s, calls⟩ steps = some m → (∀ i, (m.calls i).returned) →
        RecordRight m.server p r.roomId := by
  intro hall
  obtain ⟨s, r, _, hs, hr, hid, _⟩ := bob_outside
  have hend : (lobbyCrowd overtaken).map crowdEnd = some (true, true, some 1, some (1, 2)) := by decide +kernel
  obtain ⟨m, hm, hvalues⟩ := Option.map_eq_some_iff.mp hend
  obtain ⟨hfirst, hsecond, hcount, hstored⟩ : (m.calls false).isReturned = true ∧
      (m.calls true).isReturned = true ∧ _ ∧ _ := by
    simpa only [crowdEnd, Prod.mk.injEq] using hvalues
  have hrun : run (Crowd.step r.roomId) ⟨s, bobAndAdmin⟩ overtaken = some m := by
    rw [hid, ← hm, lobbyCrowd, hs, Option.bind_some]
  have hright := hall emptyDb startTable _ s lobbyOps_seven hs 2 r hr bobAndAdmin bobAndAdmin_called overtaken
    (by decide) m hrun (by
      intro i
      cases i
      · exact MemberCall.returned_of hfirst
      · exact MemberCall.returned_of hsecond)
  rw [hid] at hright
  obtain ⟨rec', hrec, hcases⟩ := hright
  rw [hrec, Option.map_some, Option.some.injEq, Prod.mk.injEq] at hstored
  rcases hcases with ⟨_, _, x, hx, htwo⟩ | ⟨_, hinactive⟩
  · rw [hx, Option.map_some, Option.some.injEq] at hcount
    rw [hstored.2, hcount] at htwo
    exact absurd htwo (by decide)
  · rw [hstored.1] at hinactive
    exact absurd hinactive (by decide)

end EchoLink
