import EchoLink.RoomRecords

/-!
# Joining and leaving, step by step

`room_join`, `room_leave` and `remove_client_from_room` take and release two
kinds of mutexes, and read `current_room` and fields of the room without any.
Here each section under a mutex, each such read and each access to the record
file is one step, so that other calls can come in between.  A call keeps the
address of its room in its phase; a step that follows it when the room has been
freed has no outcome, and neither has freeing a room twice.

The loop over the participants and the test of the password are made under the
mutex of the room, the searches and the change of the links under
`rooms_mutex`.  One call on its own does what `room_leave` does
(`leave_alone`).
-/

namespace EchoLink

open CText RecordFile LinkedList PackedArray PartialMap Runs Relation

/-- Where a call of `room_leave`, or of `remove_client_from_room` in
`disconnect_client`, stands. -/
inductive LeavePhase where
  | called
  /-- `current_room` was not `NULL` -/
  | tested
  /-- it has the room -/
  | locking (p : Ptr)
  /-- the client is out of the participants -/
  | reading (p : Ptr)
  | counting (p : Ptr) (rec' : RoomRecord)
  | writing (p : Ptr) (rec' : RoomRecord)
  /-- `participant_count` was stored -/
  | testing (p : Ptr)
  /-- the room was empty -/
  | empty (p : Ptr)
  /-- `room_delete` is called -/
  | deleting (roomId : Nat)
  /-- the room is out of the list -/
  | unlinked (p : Ptr) (roomId : Nat)
  | erasing (p : Ptr) (roomId : Nat) (rec' : RoomRecord)
  | freeing (p : Ptr)
  | returned (result : Int)

/-- The next step of a call for the client `c`.  Only `room_leave` clears
`current_room`, and only it locks the room without another test. -/
def leaveStep (clears : Bool) (env : Env) (s : Server) (c : Ptr) :
    LeavePhase → Option (Server × LeavePhase)
  | .called =>
      (s.clientMem c).map fun cl => (s, if cl.currentRoom = none then .returned (-1) else .tested)
  | .tested =>
      match s.clientMem c with
      | none => none
      | some cl =>
          match cl.currentRoom with
          | none => if clears then none else some (s, .returned 0)
          | some p => some (s, .locking p)
  | .locking p =>
      match s.roomMem p, s.clientMem c with
      | some r, some cl =>
          match r.remove c cl.isMute with
          | some r' =>
              some (if clears then (s.setRoom p r').setClient c { cl with currentRoom := none }
                else s.setRoom p r', .reading p)
          | none => some (s, .reading p)
      | _, _ => none
  | .reading p =>
      match s.roomMem p with
      | none => none
      | some r =>
          let rd := dbReadRoomRaw s.db r.roomId
          match rd.1 with
          | some rec' => some ({ s with db := rd.2 }, .counting p rec')
          | none => some ({ s with db := rd.2 }, .testing p)
  | .counting p rec' =>
      (s.roomMem p).map fun r =>
        (s, .writing p { rec' with userCount := Int32.ofNat r.participantCount })
  | .writing p rec' =>
      (s.roomMem p).map fun r =>
        ((Server.writeRoom { s with wrote := env.wrote } r.roomId rec').2, .testing p)
  | .testing p =>
      (s.roomMem p).map fun r =>
        (s, if r.participantCount = 0 then .empty p else .returned 0)
  | .empty p => (s.roomMem p).map fun r => (s, .deleting r.roomId)
  | .deleting roomId =>
      match roomFindById s roomId with
      | none => none
      | some none => some (s, .returned 0)
      | some (some p) => (s.unlinkRoom p).map fun s₁ => (s₁, .unlinked p roomId)
  | .unlinked p roomId =>
      let rd := dbReadRoom s.db roomId
      match rd.1 with
      | some rec' => some ({ s with db := rd.2 }, .erasing p roomId { rec' with isActive := 0 })
      | none => some ({ s with db := rd.2 }, .freeing p)
  | .erasing p roomId rec' =>
      some ((Server.writeRoom { s with wrote := env.wrote } roomId rec').2, .freeing p)
  | .freeing p => (s.roomMem p).map fun _ => (s.freeRoom p, .returned 0)
  | .returned result => some (s, .returned result)

/-- Where a call of `room_join` stands. -/
inductive JoinPhase where
  | called
  /-- it leaves the room the client is in -/
  | leaving (ph : LeavePhase)
  | searching
  /-- it has the room -/
  | found (p : Ptr)
  /-- the client is among the participants -/
  | reading (p : Ptr)
  | counting (p : Ptr) (rec' : RoomRecord)
  | writing (p : Ptr) (rec' : RoomRecord)
  | logging (p : Ptr)
  | returned (result : Int)

/-- The section under the mutex of the room. -/
def enterSection (s : Server) (password : Bytes) (c p : Ptr) : Option (Server × JoinPhase) :=
  match s.roomMem p, s.clientMem c with
  | some r, some cl =>
      if r.password ≠ [] ∧ r.password ≠ password then some (s, .returned (-3))
      else if maxClients ≤ r.participantCount then some (s, .returned (-4))
      else some ((s.setRoom p (r.add c)).setClient c { cl with currentRoom := some p }, .reading p)
  | _, _ => none

/-- The next step of `room_join(roomId, password, c)`. -/
def joinStep (env : Env) (s : Server) (roomId : Nat) (password : Bytes) (c : Ptr) :
    JoinPhase → Option (Server × JoinPhase)
  | .called =>
      (s.clientMem c).map fun cl =>
        (s, if cl.currentRoom = none then .searching else .leaving .called)
  | .leaving ph =>
      (leaveStep true env s c ph).map fun out =>
        (out.1,
          match out.2 with
          | .returned _ => .searching
          | ph' => .leaving ph')
  | .searching =>
      match roomFindById s roomId with
      | none => none
      | some none => some (s, .returned (-2))
      | some (some p) => some (s, .found p)
  | .found p => enterSection s password c p
  | .reading p =>
      let rd := dbReadRoomRaw s.db roomId
      match rd.1 with
      | some rec' => some ({ s with db := rd.2 }, .counting p rec')
      | none => some ({ s with db := rd.2 }, .logging p)
  | .counting p rec' =>
      (s.roomMem p).map fun r =>
        (s, .writing p { rec' with userCount := Int32.ofNat r.participantCount })
  | .writing p rec' =>
      some ((Server.writeRoom { s with wrote := env.wrote } roomId rec').2, .logging p)
  | .logging p => (s.roomMem p).map fun _ => (s, .returned 0)
  | .returned result => some (s, .returned result)

/-! ### A call on its own -/

/-- One step of `room_leave`, with complete writes. -/
def LeaveTo (c : Ptr) (x y : Server × LeavePhase) : Prop :=
  ∃ env : Env, env.wrote = [] ∧ leaveStep true env x.1 c x.2 = some y

theorem LeaveTo.of_step {c : Ptr} {s : Server} {ph : LeavePhase} {y : Server × LeavePhase}
    (h : leaveStep true ⟨none, RoomRecord.zero, []⟩ s c ph = some y) : LeaveTo c (s, ph) y :=
  ⟨_, rfl, h⟩

theorem with_no_wrote {s : Server} (h : s.wrote = []) : { s with wrote := [] } = s := by
  cases s
  cases h
  rfl

theorem persistCount_wrote {s : Server} (h : s.wrote = []) (roomId n : Nat) :
    (s.persistCount roomId n).wrote = [] := by
  simp only [Server.persistCount]
  split
  · simp only [Server.writeRoom, h, List.tail_nil]
  · exact h

/-- The record of the room gets its count. -/
theorem persist_alone {c p : Ptr} {s : Server} {r : Room} (hr : s.roomMem p = some r) (hw : s.wrote = []) :
    ReflTransGen (LeaveTo c) (s, .reading p)
      (s.persistCount r.roomId r.participantCount, .testing p) := by
  simp only [Server.persistCount]
  obtain ⟨u, hu⟩ : ∃ u : Server, u = { s with db := (dbReadRoomRaw s.db r.roomId).2 } := ⟨_, rfl⟩
  have hwu : u.wrote = [] := by rw [hu]; exact hw
  have hru : u.roomMem p = some r := by rw [hu]; exact hr
  rw [← hu]
  cases hread : (dbReadRoomRaw s.db r.roomId).1 with
  | none =>
      refine ReflTransGen.single (LeaveTo.of_step ?_)
      simp only [leaveStep, hr, hread, hu]
  | some rec' =>
      refine ReflTransGen.head (LeaveTo.of_step (y := (u, .counting p rec')) ?_) ?_
      · simp only [leaveStep, hr, hread, hu]
      · refine ReflTransGen.head (LeaveTo.of_step (y := (u, .writing p
          { rec' with userCount := Int32.ofNat r.participantCount })) ?_) ?_
        · simp only [leaveStep, hru, Option.map_some]
        · refine ReflTransGen.single (LeaveTo.of_step ?_)
          simp only [leaveStep, hru, Option.map_some]
          rw [with_no_wrote hwu]

/-- An empty room is deleted. -/
theorem delete_alone {c : Ptr} {s t : Server} {roomId : Nat} {k : Int} (hw : s.wrote = [])
    (h : roomDelete s roomId = some (k, t)) :
    ReflTransGen (LeaveTo c) (s, .deleting roomId) (t, .returned 0) := by
  unfold roomDelete at h
  split at h
  · cases h
  · rename_i hfind
    cases h
    refine ReflTransGen.single (LeaveTo.of_step ?_)
    simp only [leaveStep, hfind]
  · rename_i p hfind
    split at h
    · cases h
    · rename_i s₁ hunlink
      cases h
      have hs₁ : s₁.roomMem = s.roomMem ∧ s₁.wrote = [] := by
        unfold Server.unlinkRoom at hunlink
        split at hunlink
        · rw [← Option.some.inj hunlink]
          exact ⟨rfl, hw⟩
        · cases hunlink
      obtain ⟨r, hr⟩ : ∃ r, s.roomMem p = some r := by
        have htest := walk_found hfind
        obtain ⟨r, hr, _⟩ := Option.map_eq_some_iff.mp htest
        exact ⟨r, hr⟩
      have hfree : ∀ u : Server, u.roomMem = s.roomMem →
          LeaveTo c (u, .freeing p) (u.freeRoom p, .returned 0) := by
        intro u hu
        refine LeaveTo.of_step ?_
        simp only [leaveStep, hu, hr, Option.map_some]
      refine ReflTransGen.head (LeaveTo.of_step (y := (s₁, .unlinked p roomId)) ?_) ?_
      · simp only [leaveStep, hfind, hunlink, Option.map_some]
      · simp only [Server.deactivate]
        cases hread : (dbReadRoom s₁.db roomId).1 with
        | none =>
            refine ReflTransGen.head (LeaveTo.of_step (y := ({ s₁ with db := (dbReadRoom s₁.db roomId).2 },
              .freeing p)) ?_) (ReflTransGen.single (hfree _ hs₁.1))
            simp only [leaveStep, hread]
        | some rec' =>
            have hrd : ({ s₁ with db := (dbReadRoom s₁.db roomId).2 } : Server).wrote = [] := hs₁.2
            refine ReflTransGen.head (LeaveTo.of_step (y := ({ s₁ with db := (dbReadRoom s₁.db roomId).2 },
              .erasing p roomId { rec' with isActive := 0 })) ?_) ?_
            · simp only [leaveStep, hread]
            · refine ReflTransGen.head (LeaveTo.of_step (y := ((Server.writeRoom
                { s₁ with db := (dbReadRoom s₁.db roomId).2 } roomId { rec' with isActive := 0 }).2,
                .freeing p)) ?_) (ReflTransGen.single (hfree _ hs₁.1))
              simp only [leaveStep]
              rw [with_no_wrote hrd]

/-- **One call on its own**, with its records written whole, is `room_leave`. -/
theorem leave_alone {c : Ptr} {s t : Server} {k : Int} (hw : s.wrote = [])
    (h : roomLeave s c = some (k, t)) :
    ReflTransGen (LeaveTo c) (s, .called) (t, .returned k) := by
  unfold roomLeave at h
  split at h
  · cases h
  · rename_i cl hcl
    split at h
    · rename_i hroom
      cases h
      refine ReflTransGen.single (LeaveTo.of_step ?_)
      simp only [leaveStep, hcl, Option.map_some, if_pos hroom]
    · rename_i p hroom
      split at h
      · cases h
      · rename_i r hr
        obtain ⟨u, hafter, hu⟩ := Option.map_eq_some_iff.mp h
        cases hu
        refine ReflTransGen.head (LeaveTo.of_step (y := (s, .tested)) ?_) ?_
        · have hne : cl.currentRoom ≠ none := by rw [hroom]; exact Option.some_ne_none p
          simp only [leaveStep, hcl, Option.map_some, if_neg hne]
        · refine ReflTransGen.head (LeaveTo.of_step (y := (s, .locking p)) ?_) ?_
          · simp only [leaveStep, hcl, hroom]
          · obtain ⟨s₁, hafter₁, hw₁, hsection⟩ : ∃ s₁ : Server, s₁.afterRemoval p = some t ∧
                s₁.wrote = [] ∧ LeaveTo c (s, .locking p) (s₁, .reading p) := by
              cases hremove : r.remove c cl.isMute with
              | none =>
                  rw [hremove] at hafter
                  refine ⟨s, hafter, hw, LeaveTo.of_step ?_⟩
                  simp only [leaveStep, hr, hcl, hremove]
              | some r' =>
                  rw [hremove] at hafter
                  refine ⟨_, hafter, hw, LeaveTo.of_step ?_⟩
                  simp only [leaveStep, hr, hcl, hremove]
                  rfl
            refine ReflTransGen.head hsection ?_
            unfold Server.afterRemoval at hafter₁
            split at hafter₁
            · cases hafter₁
            · rename_i r₁ hr₁
              refine ReflTransGen.trans (persist_alone hr₁ hw₁) ?_
              have hmem := (persistCount_same s₁ r₁.roomId r₁.participantCount).1.mem
              have hw₂ := persistCount_wrote hw₁ r₁.roomId r₁.participantCount
              dsimp only at hafter₁
              generalize s₁.persistCount r₁.roomId r₁.participantCount = s₂ at *
              split at hafter₁
              · rename_i hzero
                obtain ⟨⟨j, u'⟩, hdelete, hu'⟩ := Option.map_eq_some_iff.mp hafter₁
                cases hu'
                refine ReflTransGen.head (LeaveTo.of_step (y := (s₂, .empty p)) ?_) ?_
                · simp only [leaveStep, hmem, hr₁, Option.map_some, if_pos hzero]
                · refine ReflTransGen.head (LeaveTo.of_step (y := (s₂, .deleting r₁.roomId)) ?_)
                    (delete_alone hw₂ hdelete)
                  simp only [leaveStep, hmem, hr₁, Option.map_some]
              · rename_i hzero
                cases hafter₁
                refine ReflTransGen.single (LeaveTo.of_step ?_)
                simp only [leaveStep, hmem, hr₁, Option.map_some, if_neg hzero]

/-! ### What a call of `room_leave` relies on -/

/-- The list, the ids and the participants are in order. -/
structure Sound (s : Server) (l : List Ptr) : Prop where
  list : ListOk s l
  ids : s.IdsDistinct
  packed : ∀ p r, s.roomMem p = some r → Packed r.participants r.participantCount

/-- The room is in the list. -/
def Listed (s : Server) (l : List Ptr) (roomId : Nat) (p : Ptr) : Prop :=
  p ∈ l ∧ ∃ r, s.roomMem p = some r ∧ r.roomId = roomId

/-- The room is out of the list and not freed. -/
def Unlisted (s : Server) (l : List Ptr) (p : Ptr) : Prop :=
  p ∉ l ∧ ∃ r, s.roomMem p = some r

/-- The room has been freed. -/
def Gone (s : Server) (l : List Ptr) (p : Ptr) : Prop := p ∉ l ∧ s.roomMem p = none

/-- `current_room` of the client. -/
def Server.currentRoom (s : Server) (c : Ptr) : Option Ptr := (s.clientMem c).bind Client.currentRoom

/-- What holds during a call of `room_leave` for a client in the room `p`, whose
id is `roomId`, while nobody else deletes the room. -/
def LeaveOk (s : Server) (l : List Ptr) (c : Ptr) (roomId : Nat) (p : Ptr) : LeavePhase → Prop
  | .called => Listed s l roomId p ∧ s.currentRoom c = some p
  | .tested => Listed s l roomId p ∧ s.currentRoom c = some p
  | .locking q => Listed s l roomId p ∧ q = p
  | .reading q => Listed s l roomId p ∧ q = p
  | .counting q _ => Listed s l roomId p ∧ q = p
  | .writing q _ => Listed s l roomId p ∧ q = p
  | .testing q => Listed s l roomId p ∧ q = p
  | .empty q => Listed s l roomId p ∧ q = p
  | .deleting k => Listed s l roomId p ∧ k = roomId
  | .unlinked q _ => Unlisted s l p ∧ q = p
  | .erasing q _ _ => Unlisted s l p ∧ q = p
  | .freeing q => Unlisted s l p ∧ q = p
  | .returned _ => Listed s l roomId p ∨ Gone s l p

/-- The call has found the room empty and will free it. -/
def LeavePhase.doomed : LeavePhase → Bool
  | .empty _ => true
  | .deleting _ => true
  | .unlinked _ _ => true
  | .erasing _ _ _ => true
  | .freeing _ => true
  | _ => false

/-- What a step of a call of `room_leave` for the client `c` and the room `p`
leaves alone. -/
structure LeaveFrame (s : Server) (l : List Ptr) (c p : Ptr) (s' : Server) (l' : List Ptr) : Prop where
  rooms : ∀ q, q ≠ p → s'.roomMem q = s.roomMem q
  listed : ∀ q, q ≠ p → (q ∈ l' ↔ q ∈ l)
  clients : ∀ d, d ≠ c → s'.clientMem d = s.clientMem d
  client : ∀ cl, s.clientMem c = some cl → ∃ cl', s'.clientMem c = some cl'
  others : ∀ r', s'.roomMem p = some r' → ∃ r, s.roomMem p = some r ∧ r'.roomId = r.roomId ∧
    ∀ d, d ≠ c → d ∈ r.members → d ∈ r'.members

variable {s s' : Server} {l l' : List Ptr} {c p : Ptr} {roomId : Nat}

theorem Sound.of_same (h : Sound s l) (hs : SameRooms s s') : Sound s' l where
  list :=
    { linked := by rw [hs.next, hs.prev, hs.head]; exact h.list.linked
      bound := h.list.bound
      live := by rw [hs.mem]; exact h.list.live }
  ids := by
    intro q q' r r' hq hq'
    rw [hs.mem] at hq hq'
    exact h.ids q q' r r' hq hq'
  packed := by rw [hs.mem]; exact h.packed

theorem LeaveFrame.of_same (hs : SameRooms s s') (hc : SameClients s s') (l : List Ptr) (c p : Ptr) :
    LeaveFrame s l c p s' l where
  rooms := fun q _ => by rw [hs.mem]
  listed := fun q _ => Iff.rfl
  clients := fun d _ => by rw [hc.clientMem]
  client := fun cl hcl => ⟨cl, by rw [hc.clientMem, hcl]⟩
  others := by
    intro r' hr'
    rw [hs.mem] at hr'
    exact ⟨r', hr', rfl, fun d _ hd => hd⟩

theorem Listed.of_same (h : Listed s l roomId p) (hs : SameRooms s s') : Listed s' l roomId p := by
  obtain ⟨hp, r, hr, hid⟩ := h
  exact ⟨hp, r, by rw [hs.mem, hr], hid⟩

theorem Unlisted.of_same (h : Unlisted s l p) (hs : SameRooms s s') : Unlisted s' l p := by
  obtain ⟨hp, r, hr⟩ := h
  exact ⟨hp, r, by rw [hs.mem, hr]⟩

/-- A search by id finds the room with the id, if it is in the list. -/
theorem Sound.find_listed (h : Sound s l) (hp : Listed s l roomId p) :
    roomFindById s roomId = some (some p) := by
  obtain ⟨hmem, r, hr, hid⟩ := hp
  rw [roomFindById, h.list.findRoom]
  cases hfind : l.find? fun q => (s.roomMem q).any fun r => r.roomId = roomId with
  | none =>
      have hno := List.find?_eq_none.mp hfind p hmem
      simp [hr, hid] at hno
  | some q =>
      obtain ⟨rq, hrq⟩ := h.list.live q (List.mem_of_find?_eq_some hfind)
      have htest := List.find?_some hfind
      have hidq : rq.roomId = roomId := by simpa [hrq] using htest
      rw [h.ids q p rq r hrq hr (by rw [hidq, hid])]

/-- What a search by id finds has the id, and is in the list. -/
theorem Sound.find_some (h : Sound s l) {q : Ptr} (hfind : roomFindById s roomId = some (some q)) :
    Listed s l roomId q := by
  rw [roomFindById, h.list.findRoom, Option.some.injEq] at hfind
  have hmem := List.mem_of_find?_eq_some hfind
  obtain ⟨r, hr⟩ := h.list.live q hmem
  have htest := List.find?_some hfind
  exact ⟨hmem, r, hr, by simpa [hr] using htest⟩

theorem Sound.setRoom (h : Sound s l) {r r' : Room} (hr : s.roomMem p = some r)
    (hid : r'.roomId = r.roomId) (hpacked : Packed r'.participants r'.participantCount) :
    Sound (s.setRoom p r') l where
  list :=
    { linked := h.list.linked
      bound := h.list.bound
      live := by
        intro q hq
        by_cases hqp : q = p
        · subst hqp
          exact ⟨r', Function.update_self _ _ _⟩
        · obtain ⟨x, hx⟩ := h.list.live q hq
          exact ⟨x, (Function.update_of_ne hqp _ _).trans hx⟩ }
  ids := by
    -- the new room has the id of the old one
    have hold : ∀ q x, (s.setRoom p r').roomMem q = some x →
        ∃ y, s.roomMem q = some y ∧ x.roomId = y.roomId := by
      intro q x hq
      rcases update_some_cases hq with ⟨rfl, rfl⟩ | ⟨_, hq⟩
      · exact ⟨r, hr, hid⟩
      · exact ⟨x, hq, rfl⟩
    intro q q' x x' hq hq' hsame
    obtain ⟨y, hy, hxy⟩ := hold q x hq
    obtain ⟨y', hy', hxy'⟩ := hold q' x' hq'
    exact h.ids q q' y y' hy hy' (by rw [← hxy, ← hxy', hsame])
  packed := by
    intro q x hq
    rcases update_some_cases hq with ⟨_, rfl⟩ | ⟨_, hq⟩
    · exact hpacked
    · exact h.packed q x hq

/-- A room leaves the list. -/
theorem Sound.unlinkRoom (h : Sound s l) (hp : p ∈ l) :
    ∃ s', s.unlinkRoom p = some s' ∧ Sound s' (l.erase p) ∧ s'.roomMem = s.roomMem ∧
      s'.clientMem = s.clientMem ∧ s'.db = s.db := by
  refine ⟨_, h.list.unlinkRoom hp, ⟨⟨h.list.unlink hp, ?_, ?_⟩, h.ids, h.packed⟩, rfl, rfl, rfl⟩
  · exact Nat.le_trans List.erase_sublist.length_le h.list.bound
  · exact fun q hq => h.list.live q (List.mem_of_mem_erase hq)

/-- A room that is out of the list is freed. -/
theorem Sound.freeRoom (h : Sound s l) (hp : p ∉ l) : Sound (s.freeRoom p) l := by
  have hold : ∀ q x, (s.freeRoom p).roomMem q = some x → q ≠ p ∧ s.roomMem q = some x :=
    fun q x hq => update_none_cases hq
  refine ⟨⟨h.list.linked, h.list.bound, ?_⟩, ?_, ?_⟩
  · intro q hq
    have hqp : q ≠ p := fun hqp => hp (hqp ▸ hq)
    obtain ⟨x, hx⟩ := h.list.live q hq
    exact ⟨x, (Function.update_of_ne hqp _ _).trans hx⟩
  · exact fun q q' x x' hq hq' => h.ids q q' x x' (hold q x hq).2 (hold q' x' hq').2
  · exact fun q x hq => h.packed q x (hold q x hq).2

/-- What a step of the call has to come to. -/
def LeaveOutcome (s : Server) (l : List Ptr) (c : Ptr) (roomId : Nat) (p : Ptr) (ph : LeavePhase)
    (out : Option (Server × LeavePhase)) : Prop :=
  ∃ s' ph' l', out = some (s', ph') ∧ Sound s' l' ∧ LeaveOk s' l' c roomId p ph' ∧
    LeaveFrame s l c p s' l' ∧
    (ph.doomed = false → Listed s l roomId p → (∃ r, s.roomMem p = some r ∧ r.members ≠ []) →
      Listed s' l' roomId p ∧ ph'.doomed = false)

/-- A step that changes nothing but the files. -/
theorem Sound.leave_quiet (h : Sound s l) {ph ph' : LeavePhase} (hs : SameRooms s s')
    (hc : SameClients s s') (hok : LeaveOk s' l c roomId p ph')
    (hkeeps : ph.doomed = false → (∃ r, s.roomMem p = some r ∧ r.members ≠ []) → ph'.doomed = false) :
    LeaveOutcome s l c roomId p ph (some (s', ph')) :=
  ⟨s', ph', l, rfl, h.of_same hs, hok, LeaveFrame.of_same hs hc l c p,
    fun hdoomed hlisted hmembers => ⟨hlisted.of_same hs, hkeeps hdoomed hmembers⟩⟩

theorem currentRoom_eq {cl : Client} (h : s.clientMem c = some cl) :
    s.currentRoom c = cl.currentRoom := by
  rw [Server.currentRoom, h, Option.bind_some]

/-- The section that takes the client out of the participants. -/
theorem Sound.leave_section (h : Sound s l) {cl : Client} (hc : s.clientMem c = some cl)
    (hp : Listed s l roomId p) (clears : Bool) (env : Env) :
    LeaveOutcome s l c roomId p (.locking p) (leaveStep clears env s c (.locking p)) := by
  obtain ⟨hmem, r, hr, hid⟩ := hp
  simp only [leaveStep, hr, hc]
  cases hremove : r.remove c cl.isMute with
  | none =>
      exact h.leave_quiet (SameRooms.refl s) (SameClients.refl s) ⟨⟨hmem, r, hr, hid⟩, rfl⟩ fun _ _ => rfl
  | some r' =>
      have hwithout := Room.remove_some (h.packed p r hr) hremove
      dsimp only
      obtain ⟨s', hs'⟩ : ∃ s', (if clears = true then
          (s.setRoom p r').setClient c { cl with currentRoom := none } else s.setRoom p r') = s' := ⟨_, rfl⟩
      have hrooms : SameRooms (s.setRoom p r') s' := by
        rw [← hs']
        split <;> exact ⟨rfl, rfl, rfl, rfl, rfl, rfl, rfl⟩
      have hclients : (∀ d, d ≠ c → s'.clientMem d = s.clientMem d) ∧ ∃ cl', s'.clientMem c = some cl' := by
        rw [← hs']
        split
        · exact ⟨fun d hd => Function.update_of_ne hd _ _, ⟨_, Function.update_self _ _ _⟩⟩
        · exact ⟨fun d _ => rfl, ⟨cl, hc⟩⟩
      have hroom : s'.roomMem p = some r' := by
        rw [hrooms.mem]
        exact Function.update_self _ _ _
      have hlisted : Listed s' l roomId p := ⟨hmem, r', hroom, by rw [hwithout.id, hid]⟩
      rw [hs']
      refine ⟨s', .reading p, l, rfl, (h.setRoom hr hwithout.id hwithout.packed).of_same hrooms,
        ⟨hlisted, rfl⟩, ?_, fun _ _ _ => ⟨hlisted, rfl⟩⟩
      refine ⟨?_, fun q _ => Iff.rfl, hclients.1, fun _ _ => hclients.2, ?_⟩
      · intro q hq
        rw [hrooms.mem]
        exact Function.update_of_ne hq _ _
      · intro x hx
        rw [hroom, Option.some.injEq] at hx
        subst hx
        refine ⟨r, hr, hwithout.id, ?_⟩
        intro d hd hdmem
        rw [hwithout.members]
        exact (List.mem_erase_of_ne hd).mpr hdmem

/-- The section of `room_delete`. -/
theorem Sound.leave_delete (h : Sound s l) (hp : Listed s l roomId p) (clears : Bool) (env : Env) :
    LeaveOutcome s l c roomId p (.deleting roomId) (leaveStep clears env s c (.deleting roomId)) := by
  have hfind := h.find_listed hp
  obtain ⟨hmem, r, hr, _⟩ := hp
  have hnd := h.list.linked.nodup
  obtain ⟨s', hunlink, hsound, hrooms, hclients, _⟩ := h.unlinkRoom hmem
  simp only [leaveStep, hfind, hunlink, Option.map_some]
  refine ⟨_, _, l.erase p, rfl, hsound, ?_, ?_, by rintro ⟨⟩⟩
  · exact ⟨⟨fun hp => (hnd.mem_erase_iff.mp hp).1 rfl, r, by rw [hrooms, hr]⟩, rfl⟩
  · refine ⟨fun q _ => by rw [hrooms], ?_, fun d _ => by rw [hclients],
      fun cl hcl => ⟨cl, by rw [hclients, hcl]⟩, ?_⟩
    · intro q hq
      rw [hnd.mem_erase_iff]
      exact ⟨fun hq' => hq'.2, fun hq' => ⟨hq, hq'⟩⟩
    · intro r' hr'
      rw [hrooms] at hr'
      exact ⟨r', hr', rfl, fun d _ hd => hd⟩

/-- The room is freed. -/
theorem Sound.leave_free (h : Sound s l) (hp : Unlisted s l p) (clears : Bool) (env : Env) :
    LeaveOutcome s l c roomId p (.freeing p) (leaveStep clears env s c (.freeing p)) := by
  obtain ⟨hmem, r, hr⟩ := hp
  have hnone : (s.freeRoom p).roomMem p = none := Function.update_self _ _ _
  simp only [leaveStep, hr, Option.map_some]
  refine ⟨_, _, l, rfl, h.freeRoom hmem, Or.inr ⟨hmem, hnone⟩, ?_, by rintro ⟨⟩⟩
  refine ⟨fun q hq => Function.update_of_ne hq _ _, fun q _ => Iff.rfl, fun d _ => rfl,
    fun cl hcl => ⟨cl, hcl⟩, ?_⟩
  intro r' hr'
  rw [hnone] at hr'
  cases hr'

/-- **One step of `room_leave`** or `remove_client_from_room`. -/
theorem Sound.leaveStep (h : Sound s l) {cl : Client} (hc : s.clientMem c = some cl) {ph : LeavePhase}
    (hok : LeaveOk s l c roomId p ph) (clears : Bool) (env : Env) :
    LeaveOutcome s l c roomId p ph (leaveStep clears env s c ph) := by
  have hsame := SameRooms.refl s
  have hsameClients := SameClients.refl s
  cases ph with
  | called =>
      obtain ⟨hlisted, hroom⟩ := hok
      have hcurrent : cl.currentRoom = some p := by rw [← currentRoom_eq hc, hroom]
      simp only [EchoLink.leaveStep, hc, Option.map_some, hcurrent]
      exact h.leave_quiet hsame hsameClients ⟨hlisted, hroom⟩ fun _ _ => rfl
  | tested =>
      obtain ⟨hlisted, hroom⟩ := hok
      have hcurrent : cl.currentRoom = some p := by rw [← currentRoom_eq hc, hroom]
      simp only [EchoLink.leaveStep, hc, hcurrent]
      exact h.leave_quiet hsame hsameClients ⟨hlisted, rfl⟩ fun _ _ => rfl
  | locking q =>
      obtain ⟨hlisted, rfl⟩ := hok
      exact h.leave_section hc hlisted clears env
  | reading q =>
      obtain ⟨hlisted, rfl⟩ := hok
      obtain ⟨r, hr, _⟩ := hlisted.2
      simp only [EchoLink.leaveStep, hr]
      split
      · exact h.leave_quiet ⟨rfl, rfl, rfl, rfl, rfl, rfl, rfl⟩ ⟨rfl, rfl, rfl, rfl, rfl⟩
          ⟨hlisted, rfl⟩ fun _ _ => rfl
      · exact h.leave_quiet ⟨rfl, rfl, rfl, rfl, rfl, rfl, rfl⟩ ⟨rfl, rfl, rfl, rfl, rfl⟩
          ⟨hlisted, rfl⟩ fun _ _ => rfl
  | counting q rec' =>
      obtain ⟨hlisted, rfl⟩ := hok
      obtain ⟨r, hr, _⟩ := hlisted.2
      simp only [EchoLink.leaveStep, hr, Option.map_some]
      exact h.leave_quiet hsame hsameClients ⟨hlisted, rfl⟩ fun _ _ => rfl
  | writing q rec' =>
      obtain ⟨hlisted, rfl⟩ := hok
      obtain ⟨r, hr, _⟩ := hlisted.2
      simp only [EchoLink.leaveStep, hr, Option.map_some]
      exact h.leave_quiet ⟨rfl, rfl, rfl, rfl, rfl, rfl, rfl⟩ ⟨rfl, rfl, rfl, rfl, rfl⟩
        ⟨hlisted, rfl⟩ fun _ _ => rfl
  | testing q =>
      obtain ⟨hlisted, rfl⟩ := hok
      obtain ⟨r, hr, _⟩ := hlisted.2
      simp only [EchoLink.leaveStep, hr, Option.map_some]
      split
      · rename_i hzero
        refine h.leave_quiet hsame hsameClients ⟨hlisted, rfl⟩ ?_
        rintro _ ⟨x, hx, hmembers⟩
        rw [hr, Option.some.injEq] at hx
        subst hx
        have hlen : r.members.length = r.participantCount := (h.packed _ r hr).length
        rw [hzero, List.length_eq_zero_iff] at hlen
        exact absurd hlen hmembers
      · exact h.leave_quiet hsame hsameClients (Or.inl hlisted) fun _ _ => rfl
  | empty q =>
      obtain ⟨hlisted, rfl⟩ := hok
      obtain ⟨r, hr, hid⟩ := hlisted.2
      simp only [EchoLink.leaveStep, hr, Option.map_some]
      exact h.leave_quiet hsame hsameClients ⟨hlisted, hid⟩ (by rintro ⟨⟩)
  | deleting k =>
      obtain ⟨hlisted, rfl⟩ := hok
      exact h.leave_delete hlisted clears env
  | unlinked q k =>
      obtain ⟨hunlisted, rfl⟩ := hok
      simp only [EchoLink.leaveStep]
      split
      · exact h.leave_quiet ⟨rfl, rfl, rfl, rfl, rfl, rfl, rfl⟩ ⟨rfl, rfl, rfl, rfl, rfl⟩
          ⟨hunlisted, rfl⟩ (by rintro ⟨⟩)
      · exact h.leave_quiet ⟨rfl, rfl, rfl, rfl, rfl, rfl, rfl⟩ ⟨rfl, rfl, rfl, rfl, rfl⟩
          ⟨hunlisted, rfl⟩ (by rintro ⟨⟩)
  | erasing q k rec' =>
      obtain ⟨hunlisted, rfl⟩ := hok
      exact h.leave_quiet ⟨rfl, rfl, rfl, rfl, rfl, rfl, rfl⟩ ⟨rfl, rfl, rfl, rfl, rfl⟩
        ⟨hunlisted, rfl⟩ (by rintro ⟨⟩)
  | freeing q =>
      obtain ⟨hunlisted, rfl⟩ := hok
      exact h.leave_free hunlisted clears env
  | returned result => exact h.leave_quiet hsame hsameClients hok fun _ _ => rfl

end EchoLink
