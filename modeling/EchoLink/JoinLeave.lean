import EchoLink.RoomSteps
import EchoLink.RoomAgreement

/-!
# A client joins while the last participant leaves

One client runs `room_join`, and the last participant of that room runs
`room_leave`, or `remove_client_from_room` when it is disconnected.  Their
steps come in any order.

`room_join` has the address of the room when it takes the mutex of the room,
and the other call may have found the room empty by then: it is unlinked and
freed, with the new participant in it or before it is there.  If `room_join`
admits the client before the other call has looked at `participant_count`, the
room is found with a participant and stays (`joined_room_stays`).
-/

namespace EchoLink

open CText RecordFile LinkedList PackedArray PartialMap Runs

/-- Who joins which room, and whose call ends. -/
structure MeetArgs where
  joiner : Ptr
  leaver : Ptr
  roomId : Nat
  password : Bytes
  /-- `room_leave` clears `current_room`, `remove_client_from_room` does not -/
  clears : Bool

/-- The server and the two calls. -/
structure Meeting where
  server : Server
  join : JoinPhase
  leave : LeavePhase

inductive MeetOp where
  | join (env : Env)
  | leave (env : Env)

/-- The next step of one of the calls. -/
def Meeting.step (a : MeetArgs) (m : Meeting) : MeetOp → Option Meeting
  | .join env =>
      (joinStep env m.server a.roomId a.password a.joiner m.join).map fun out =>
        { m with server := out.1, join := out.2 }
  | .leave env =>
      (leaveStep a.clears env m.server a.leaver m.leave).map fun out =>
        { m with server := out.1, leave := out.2 }

/-- The room does not admit the client. -/
def Refused (r : Room) (password : Bytes) : Prop :=
  (r.password ≠ [] ∧ r.password ≠ password) ∨ maxClients ≤ r.participantCount

/-- `room_join` takes the mutex of a room that is still there, and admits the
client only while the other call has not found the room empty. -/
def Timely (a : MeetArgs) (m : Meeting) : MeetOp → Prop
  | .leave _ => True
  | .join _ => ∀ p, m.join = .found p →
      ∃ r, m.server.roomMem p = some r ∧ (Refused r a.password ∨ m.leave.doomed = false)

/-! ### The invariant -/

/-- The client is in the room, and the room will stay. -/
def Joined (s : Server) (l : List Ptr) (c : Ptr) (roomId : Nat) (p : Ptr) (leave : LeavePhase) : Prop :=
  Listed s l roomId p ∧ (∃ r, s.roomMem p = some r ∧ c ∈ r.members) ∧ leave.doomed = false

/-- What holds during a call of `room_join`; the room with the id is `p`. -/
def JoinOk (s : Server) (l : List Ptr) (c : Ptr) (roomId : Nat) (p : Ptr) (leave : LeavePhase) :
    JoinPhase → Prop
  | .called => s.currentRoom c = none ∨ ∃ q k, q ≠ p ∧ LeaveOk s l c k q .called
  | .leaving ph => ∃ q k, q ≠ p ∧ LeaveOk s l c k q ph
  | .searching => True
  | .found q => q = p
  | .reading q => q = p ∧ Joined s l c roomId p leave
  | .counting q _ => q = p ∧ Joined s l c roomId p leave
  | .writing q _ => q = p ∧ Joined s l c roomId p leave
  | .logging q => q = p ∧ Joined s l c roomId p leave
  | .returned result => result = 0 → Joined s l c roomId p leave

/-- The invariant of the two calls. -/
structure MeetOk (a : MeetArgs) (p : Ptr) (m : Meeting) (l : List Ptr) : Prop where
  sound : Sound m.server l
  only : ∀ q r, m.server.roomMem q = some r → r.roomId = a.roomId → q = p
  joiner : ∃ cl, m.server.clientMem a.joiner = some cl
  leaver : ∃ cl, m.server.clientMem a.leaver = some cl
  leave : LeaveOk m.server l a.leaver a.roomId p m.leave
  join : JoinOk m.server l a.joiner a.roomId p m.leave m.join

variable {a : MeetArgs} {m : Meeting} {s s' : Server} {l l' : List Ptr} {c p : Ptr} {roomId : Nat}

/-- What the call of one client relies on, when the room and the client are as
before. -/
theorem LeaveOk.congr {ph : LeavePhase} (h : LeaveOk s l c roomId p ph)
    (hroom : s'.roomMem p = s.roomMem p) (hlist : p ∈ l' ↔ p ∈ l)
    (hclient : s'.clientMem c = s.clientMem c) : LeaveOk s' l' c roomId p ph := by
  cases ph <;>
    simp only [LeaveOk, Listed, Unlisted, Gone, Server.currentRoom, hroom, hlist, hclient] at h ⊢ <;>
    exact h

/-- A participant joins the room. -/
theorem LeaveOk.entered {ph : LeavePhase} (h : LeaveOk s l c roomId p ph) {r r' : Room}
    (hr : s.roomMem p = some r) (hid : r'.roomId = r.roomId) (hr' : s'.roomMem p = some r')
    (hclient : s'.clientMem c = s.clientMem c) : LeaveOk s' l c roomId p ph := by
  have hlisted : Listed s l roomId p → Listed s' l roomId p := by
    rintro ⟨hp, x, hx, hxid⟩
    rw [hr, Option.some.injEq] at hx
    subst hx
    exact ⟨hp, r', hr', by rw [hid, hxid]⟩
  have hunlisted : Unlisted s l p → Unlisted s' l p := fun hp => ⟨hp.1, r', hr'⟩
  have hcurrent : s'.currentRoom c = s.currentRoom c := by
    rw [Server.currentRoom, Server.currentRoom, hclient]
  cases ph with
  | called => exact ⟨hlisted h.1, by rw [hcurrent]; exact h.2⟩
  | tested => exact ⟨hlisted h.1, by rw [hcurrent]; exact h.2⟩
  | returned result =>
      rcases h with hp | hp
      · exact Or.inl (hlisted hp)
      · have hnone := hp.2
        rw [hr] at hnone
        cases hnone
  | unlinked q k | erasing q k rec' | freeing q => exact ⟨hunlisted h.1, h.2⟩
  | _ => exact ⟨hlisted h.1, h.2⟩

/-- A room that is there and that the other call has not found empty is in the
list. -/
theorem LeaveOk.listed {ph : LeavePhase} (h : LeaveOk s l c roomId p ph) {r : Room}
    (hr : s.roomMem p = some r) (hdoomed : ph.doomed = false) : Listed s l roomId p := by
  cases ph with
  | returned result =>
      rcases h with hp | hp
      · exact hp
      · have hnone := hp.2
        rw [hr] at hnone
        cases hnone
  | empty q | deleting k | unlinked q k | erasing q k rec' | freeing q => cases hdoomed
  | _ => exact h.1

/-- Rooms keep their ids in a step of `room_leave`. -/
theorem LeaveFrame.room_of (h : LeaveFrame s l c p s' l') {q : Ptr} {r' : Room}
    (hq : s'.roomMem q = some r') : ∃ r, s.roomMem q = some r ∧ r'.roomId = r.roomId := by
  by_cases hqp : q = p
  · subst hqp
    obtain ⟨r, hr, hid, _⟩ := h.others r' hq
    exact ⟨r, hr, hid⟩
  · rw [h.rooms q hqp] at hq
    exact ⟨r', hq, rfl⟩

/-! ### The steps -/

/-- **A step of the call that leaves.** -/
theorem MeetOk.stepLeave (h : MeetOk a p m l) (hne : a.joiner ≠ a.leaver) (env : Env) :
    ∃ m' l', m.step a (.leave env) = some m' ∧ MeetOk a p m' l' := by
  obtain ⟨dl, hd⟩ := h.leaver
  obtain ⟨s', ph', l', hstep, hsound, hleave, hframe, hkeeps⟩ :=
    h.sound.leaveStep hd h.leave a.clears env
  have hclient := hframe.clients a.joiner hne
  have hcurrent : s'.currentRoom a.joiner = m.server.currentRoom a.joiner := by
    rw [Server.currentRoom, Server.currentRoom, hclient]
  -- a client that has joined is still there, and the room is not found empty
  have hjoined : Joined m.server l a.joiner a.roomId p m.leave → Joined s' l' a.joiner a.roomId p ph' := by
    rintro ⟨hlisted, ⟨r, hr, hmem⟩, hdoomed⟩
    obtain ⟨hlisted', hdoomed'⟩ := hkeeps hdoomed hlisted ⟨r, hr, List.ne_nil_of_mem hmem⟩
    obtain ⟨r', hr', _⟩ := hlisted'.2
    obtain ⟨x, hx, _, hothers⟩ := hframe.others r' hr'
    rw [hr, Option.some.injEq] at hx
    subst hx
    exact ⟨hlisted', ⟨r', hr', hothers a.joiner hne hmem⟩, hdoomed'⟩
  have hown : ∀ q k ph, q ≠ p → LeaveOk m.server l a.joiner k q ph → LeaveOk s' l' a.joiner k q ph :=
    fun q k ph hq hok => hok.congr (hframe.rooms q hq) (hframe.listed q hq) hclient
  refine ⟨{ m with server := s', leave := ph' }, l', by rw [Meeting.step, hstep, Option.map_some], ?_⟩
  refine ⟨hsound, ?_, by rw [hclient]; exact h.joiner, hframe.client dl hd, hleave, ?_⟩
  · intro q r' hq hid
    obtain ⟨r, hr, hrid⟩ := hframe.room_of hq
    exact h.only q r hr (by rw [← hrid, hid])
  · have hjoin := h.join
    cases hph : m.join with
    | called =>
        rw [hph] at hjoin
        rcases hjoin with hnone | ⟨q, k, hq, hok⟩
        · exact Or.inl (by rw [hcurrent]; exact hnone)
        · exact Or.inr ⟨q, k, hq, hown q k _ hq hok⟩
    | leaving ph =>
        rw [hph] at hjoin
        obtain ⟨q, k, hq, hok⟩ := hjoin
        exact ⟨q, k, hq, hown q k ph hq hok⟩
    | searching => trivial
    | found q =>
        rw [hph] at hjoin
        exact hjoin
    | returned result =>
        rw [hph] at hjoin
        exact fun hzero => hjoined (hjoin hzero)
    | reading q | counting q rec' | writing q rec' | logging q =>
        rw [hph] at hjoin
        exact ⟨hjoin.1, hjoined hjoin.2⟩

/-- The call of `room_join` moves on and changes nothing but the files. -/
theorem MeetOk.join_quiet (h : MeetOk a p m l) {ph : JoinPhase} (hs : SameRooms m.server s')
    (hc : SameClients m.server s')
    (hjoin : JoinOk m.server l a.joiner a.roomId p m.leave ph) :
    MeetOk a p { m with server := s', join := ph } l := by
  have hcongr : ∀ {c q k} {ph : LeavePhase}, LeaveOk m.server l c k q ph → LeaveOk s' l c k q ph :=
    fun hok => hok.congr (by rw [hs.mem]) Iff.rfl (by rw [hc.clientMem])
  have hjoined : Joined m.server l a.joiner a.roomId p m.leave →
      Joined s' l a.joiner a.roomId p m.leave := by
    rintro ⟨hlisted, hmem, hdoomed⟩
    exact ⟨hlisted.of_same hs, by rw [hs.mem]; exact hmem, hdoomed⟩
  refine ⟨h.sound.of_same hs, by rw [hs.mem]; exact h.only, by rw [hc.clientMem]; exact h.joiner,
    by rw [hc.clientMem]; exact h.leaver, hcongr h.leave, ?_⟩
  cases ph with
  | called =>
      rcases hjoin with hnone | ⟨q, k, hq, hok⟩
      · exact Or.inl (by rw [Server.currentRoom, hc.clientMem]; exact hnone)
      · exact Or.inr ⟨q, k, hq, hcongr hok⟩
  | leaving ph =>
      obtain ⟨q, k, hq, hok⟩ := hjoin
      exact ⟨q, k, hq, hcongr hok⟩
  | searching => trivial
  | found q => exact hjoin
  | returned result => exact fun hzero => hjoined (hjoin hzero)
  | reading q | counting q rec' | writing q rec' | logging q => exact ⟨hjoin.1, hjoined hjoin.2⟩

/-- The joining client leaves the room it is in, which is another one. -/
theorem MeetOk.join_leaving (h : MeetOk a p m l) (hne : a.joiner ≠ a.leaver) {ph : LeavePhase}
    (hph : m.join = .leaving ph) (env : Env) :
    ∃ m' l', m.step a (.join env) = some m' ∧ MeetOk a p m' l' := by
  obtain ⟨cl, hcl⟩ := h.joiner
  have hjoin := h.join
  rw [hph] at hjoin
  obtain ⟨q, k, hq, hok⟩ := hjoin
  obtain ⟨s', ph', l', hstep, hsound, hleave, hframe, _⟩ := h.sound.leaveStep hcl hok true env
  have hleaver := hframe.clients a.leaver hne.symm
  have honly : ∀ q' r', s'.roomMem q' = some r' → r'.roomId = a.roomId → q' = p := by
    intro q' r' hq' hid
    obtain ⟨r, hr, hrid⟩ := hframe.room_of hq'
    exact h.only q' r hr (by rw [← hrid, hid])
  -- the call goes on with its leave, or with the search
  obtain ⟨ph'', hout, hjoin'⟩ : ∃ ph'', joinStep env m.server a.roomId a.password a.joiner (.leaving ph) =
      some (s', ph'') ∧ JoinOk s' l' a.joiner a.roomId p m.leave ph'' := by
    refine ⟨_, by rw [joinStep, hstep]; rfl, ?_⟩
    dsimp only
    cases ph' with
    | returned result => trivial
    | _ => exact ⟨q, k, hq, hleave⟩
  refine ⟨{ m with server := s', join := ph'' }, l', by rw [Meeting.step, hph, hout, Option.map_some], ?_⟩
  exact ⟨hsound, honly, hframe.client cl hcl, by rw [hleaver]; exact h.leaver,
    h.leave.congr (hframe.rooms p hq.symm) (hframe.listed p hq.symm) hleaver, hjoin'⟩

/-- The section under the mutex of the room. -/
theorem MeetOk.join_enter (h : MeetOk a p m l) (hne : a.joiner ≠ a.leaver) (hph : m.join = .found p)
    (env : Env) (htimely : Timely a m (.join env)) :
    ∃ m' l', m.step a (.join env) = some m' ∧ MeetOk a p m' l' := by
  obtain ⟨cl, hcl⟩ := h.joiner
  obtain ⟨r, hr, hcase⟩ := htimely p hph
  have hstep : m.step a (.join env) = (enterSection m.server a.password a.joiner p).map fun out =>
      { m with server := out.1, join := out.2 } := by
    rw [Meeting.step, hph, joinStep]
  rw [hstep]
  simp only [enterSection, hr, hcl]
  split
  · exact ⟨_, l, rfl, h.join_quiet (SameRooms.refl _) (SameClients.refl _) (by rintro ⟨⟩)⟩
  · rename_i hpassword
    split
    · exact ⟨_, l, rfl, h.join_quiet (SameRooms.refl _) (SameClients.refl _) (by rintro ⟨⟩)⟩
    · rename_i hfull
      have hdoomed : m.leave.doomed = false := by
        rcases hcase with hrefused | hdoomed
        · rcases hrefused with hwrong | hmany
          · exact absurd hwrong hpassword
          · exact absurd hmany hfull
        · exact hdoomed
      have hlisted := h.leave.listed hr hdoomed
      obtain ⟨hpacked, hmembers⟩ := Room.add_members (h.sound.packed p r hr) a.joiner
      have hkept : (r.add a.joiner).roomId = r.roomId := rfl
      have hroom : ((m.server.setRoom p (r.add a.joiner)).setClient a.joiner
          { cl with currentRoom := some p }).roomMem p = some (r.add a.joiner) :=
        Function.update_self _ _ _
      have hleaver : ((m.server.setRoom p (r.add a.joiner)).setClient a.joiner
          { cl with currentRoom := some p }).clientMem a.leaver = m.server.clientMem a.leaver :=
        Function.update_of_ne hne.symm _ _
      refine ⟨_, l, rfl, ?_⟩
      refine
        { sound := (h.sound.setRoom hr hkept hpacked).of_same ⟨rfl, rfl, rfl, rfl, rfl, rfl, rfl⟩
          only := ?_
          joiner := ⟨_, Function.update_self _ _ _⟩
          leaver := by rw [hleaver]; exact h.leaver
          leave := h.leave.entered hr hkept hroom hleaver
          join := ?_ }
      · intro q x hq hid
        rcases update_some_cases hq with ⟨rfl, _⟩ | ⟨_, hq⟩
        · rfl
        · exact h.only q x hq hid
      · obtain ⟨hpl, x, hx, hid⟩ := hlisted
        rw [hr, Option.some.injEq] at hx
        subst hx
        refine ⟨rfl, ⟨hpl, r.add a.joiner, hroom, hid⟩, ⟨r.add a.joiner, hroom, ?_⟩, hdoomed⟩
        rw [hmembers]
        exact List.mem_append_right _ (List.mem_singleton_self _)

/-- **A step of the call that joins.** -/
theorem MeetOk.stepJoin (h : MeetOk a p m l) (hne : a.joiner ≠ a.leaver) (env : Env)
    (htimely : Timely a m (.join env)) :
    ∃ m' l', m.step a (.join env) = some m' ∧ MeetOk a p m' l' := by
  obtain ⟨cl, hcl⟩ := h.joiner
  have hjoin := h.join
  have hstep : m.step a (.join env) = (joinStep env m.server a.roomId a.password a.joiner m.join).map
      fun out => { m with server := out.1, join := out.2 } := rfl
  have hquiet : ∀ s' ph, SameRooms m.server s' → SameClients m.server s' →
      JoinOk m.server l a.joiner a.roomId p m.leave ph →
      joinStep env m.server a.roomId a.password a.joiner m.join = some (s', ph) →
      ∃ m' l', m.step a (.join env) = some m' ∧ MeetOk a p m' l' := by
    intro s' ph hs hc hok hout
    exact ⟨_, l, by rw [hstep, hout, Option.map_some], h.join_quiet hs hc hok⟩
  have hsame := SameRooms.refl m.server
  have hsameClients := SameClients.refl m.server
  cases hph : m.join with
  | called =>
      rw [hph] at hjoin hquiet
      by_cases hnone : cl.currentRoom = none
      · refine hquiet _ .searching hsame hsameClients trivial ?_
        simp only [joinStep, hcl, Option.map_some, if_pos hnone]
      · refine hquiet _ (.leaving .called) hsame hsameClients ?_ ?_
        · rcases hjoin with hcurrent | hown
          · rw [currentRoom_eq hcl] at hcurrent
            exact absurd hcurrent hnone
          · exact hown
        · simp only [joinStep, hcl, Option.map_some, if_neg hnone]
  | leaving ph => exact h.join_leaving hne hph env
  | searching =>
      rw [hph] at hquiet
      cases hfind : roomFindById m.server a.roomId with
      | none =>
          rw [roomFindById, h.sound.list.findRoom] at hfind
          cases hfind
      | some found =>
          cases found with
          | none =>
              refine hquiet _ (.returned (-2)) hsame hsameClients (by rintro ⟨⟩) ?_
              simp only [joinStep, hfind]
          | some q =>
              obtain ⟨_, r, hr, hid⟩ := h.sound.find_some hfind
              refine hquiet _ (.found q) hsame hsameClients (h.only q r hr hid) ?_
              simp only [joinStep, hfind]
  | found q =>
      rw [hph] at hjoin
      have hqp : q = p := hjoin
      subst hqp
      exact h.join_enter hne hph env htimely
  | reading q =>
      rw [hph] at hjoin hquiet
      cases hread : (dbReadRoomRaw m.server.db a.roomId).1 with
      | none =>
          refine hquiet { m.server with db := (dbReadRoomRaw m.server.db a.roomId).2 } (.logging q)
            ⟨rfl, rfl, rfl, rfl, rfl, rfl, rfl⟩ ⟨rfl, rfl, rfl, rfl, rfl⟩ hjoin ?_
          simp only [joinStep, hread]
      | some rec' =>
          refine hquiet { m.server with db := (dbReadRoomRaw m.server.db a.roomId).2 } (.counting q rec')
            ⟨rfl, rfl, rfl, rfl, rfl, rfl, rfl⟩ ⟨rfl, rfl, rfl, rfl, rfl⟩ hjoin ?_
          simp only [joinStep, hread]
  | counting q rec' =>
      rw [hph] at hjoin hquiet
      obtain ⟨rfl, hjoined⟩ := hjoin
      obtain ⟨r, hr, _⟩ := hjoined.1.2
      refine hquiet _ (.writing q { rec' with userCount := Int32.ofNat r.participantCount }) hsame
        hsameClients ⟨rfl, hjoined⟩ ?_
      simp only [joinStep, hr, Option.map_some]
  | writing q rec' =>
      rw [hph] at hjoin hquiet
      exact hquiet (Server.writeRoom { m.server with wrote := env.wrote } a.roomId rec').2 (.logging q)
        ⟨rfl, rfl, rfl, rfl, rfl, rfl, rfl⟩ ⟨rfl, rfl, rfl, rfl, rfl⟩ hjoin rfl
  | logging q =>
      rw [hph] at hjoin hquiet
      obtain ⟨rfl, hjoined⟩ := hjoin
      obtain ⟨r, hr, _⟩ := hjoined.1.2
      refine hquiet _ (.returned 0) hsame hsameClients (fun _ => hjoined) ?_
      simp only [joinStep, hr, Option.map_some]
  | returned result =>
      rw [hph] at hjoin hquiet
      exact hquiet _ (.returned result) hsame hsameClients hjoin rfl

/-! ### The calls from a reachable state -/

/-- Two clients call, and one of them is alone in the room. -/
theorem MeetOk.start {db₀ : FileDb} (hok : ServerOk s l) (hrecords : RecordsOk db₀ s) {cl : Client}
    (hjoiner : s.Holds a.joiner cl) (hne : a.joiner ≠ a.leaver) {r : Room} (hr : s.roomMem p = some r)
    (hid : r.roomId = a.roomId) (halone : r.members = [a.leaver]) :
    MeetOk a p ⟨s, .called, .called⟩ l := by
  have hlisted : ∀ q x, s.roomMem q = some x → Listed s l x.roomId q :=
    fun q x hq => ⟨hok.rooms.mem_of_room hq, x, hq, rfl⟩
  obtain ⟨dl, hd, hdroom⟩ := hok.of_member hr (c := a.leaver) (by rw [halone]; exact List.mem_singleton_self _)
  refine
    { sound := ⟨hok.rooms.listOk, hrecords.ids_distinct, hok.rooms.packed⟩
      only := ?_
      joiner := ⟨cl, hjoiner.2⟩
      leaver := ⟨dl, hd.2⟩
      leave := ⟨hid ▸ hlisted p r hr, by rw [currentRoom_eq hd.2, hdroom]⟩
      join := ?_ }
  · intro q x hq hx
    exact hrecords.ids_distinct q p x r hq hr (by rw [hx, hid])
  · cases hroom : cl.currentRoom with
    | none => exact Or.inl (by rw [currentRoom_eq hjoiner.2, hroom])
    | some q =>
        obtain ⟨x, hx, hmem⟩ := hok.in_room hjoiner hroom
        refine Or.inr ⟨q, x.roomId, ?_, hlisted q x hx, by rw [currentRoom_eq hjoiner.2, hroom]⟩
        -- the joining client is not the one alone in the room
        rintro rfl
        rw [hr, Option.some.injEq] at hx
        rw [← hx, halone] at hmem
        exact hne (List.mem_singleton.mp hmem)

/-- What it means that nobody has joined a deleted room. -/
def JoinHolds (a : MeetArgs) (p : Ptr) (m : Meeting) : Prop :=
  m.join = .returned 0 → ∃ l, Linked m.server.roomNext m.server.roomPrev m.server.roomHead l ∧ p ∈ l ∧
    ∃ r, m.server.roomMem p = some r ∧ r.roomId = a.roomId ∧ a.joiner ∈ r.members

/-- **Nobody joins a deleted room**: from every reachable state where the room
has one participant, for every order of the steps of its `room_leave` or
`remove_client_from_room` and of the `room_join` of another client. -/
theorem joined_room_stays (db : FileDb) (users : File) (ops : List (Op × Env)) (s : Server)
    (hproper : Along Server.step Proper (Server.start db users) ops)
    (hreach : run Server.step (Server.start db users) ops = some s) (a : MeetArgs)
    (hne : a.joiner ≠ a.leaver) (slot : Fin maxClients) (hjoiner : s.clients slot = some a.joiner)
    (p : Ptr) (r : Room) (hr : s.roomMem p = some r) (hid : r.roomId = a.roomId)
    (halone : r.members = [a.leaver]) (steps : List MeetOp)
    (h : Along (Meeting.step a) (Timely a) ⟨s, .called, .called⟩ steps) :
    ∃ m, run (Meeting.step a) ⟨s, .called, .called⟩ steps = some m ∧ JoinHolds a p m := by
  obtain ⟨u, hu, ⟨l, hok⟩, hrecords⟩ := serverRun_ok db users ops hproper
  rw [hreach, Option.some.injEq] at hu
  subst hu
  obtain ⟨cl, hcl, _⟩ := hok.clients.holds hjoiner
  have hstart := MeetOk.start hok hrecords hcl hne hr hid halone
  obtain ⟨m, hrun, l', hm⟩ := run_invariant (I := fun m => ∃ l, MeetOk a p m l) (by
    rintro m op ⟨l, hm⟩ htimely
    cases op with
    | join env =>
        obtain ⟨m', l', hstep, hm'⟩ := hm.stepJoin hne env htimely
        exact ⟨m', hstep, l', hm'⟩
    | leave env =>
        obtain ⟨m', l', hstep, hm'⟩ := hm.stepLeave hne env
        exact ⟨m', hstep, l', hm'⟩) ⟨l, hstart⟩ h
  refine ⟨m, hrun, ?_⟩
  intro hreturned
  have hjoin := hm.join
  rw [hreturned] at hjoin
  obtain ⟨⟨hmem, x, hx, hxid⟩, ⟨y, hy, hc⟩, _⟩ := hjoin rfl
  rw [hx, Option.some.injEq] at hy
  subst hy
  exact ⟨l', hm.sound.list.linked, hmem, x, hx, hxid, hc⟩

/-- `Timely`, computed. -/
def checkTimely (m : Meeting) : MeetOp → Bool
  | .leave _ => true
  | .join _ =>
      match m.join with
      | .found p => (m.server.roomMem p).isSome && !m.leave.doomed
      | _ => true

theorem timely_of_check (a : MeetArgs) (m : Meeting) (op : MeetOp) (h : checkTimely m op = true) :
    Timely a m op := by
  cases op with
  | leave env => trivial
  | join env =>
      intro p hp
      simp only [checkTimely, hp, Bool.and_eq_true, Bool.not_eq_true'] at h
      obtain ⟨r, hr⟩ := Option.isSome_iff_exists.mp h.1
      exact ⟨r, hr, Or.inr h.2⟩

/-- The admin is alone in the lobby, and the user bob joins it. -/
def bobJoins : MeetArgs := ⟨3, 1, 0, [], true⟩

def joinSteps (n : Nat) : List MeetOp := List.replicate n (.join (completeEnv none))

def leaveSteps (n : Nat) : List MeetOp := List.replicate n (.leave (completeEnv none))

/-- Bob has the room, the admin leaves it, bob is in, and the admin's call looks
at the count. -/
def bobInTime : List MeetOp := joinSteps 2 ++ leaveSteps 6 ++ joinSteps 5 ++ leaveSteps 1

/-- Bob has the room, the admin's call takes it out of the list, bob is in, and
the room is freed. -/
def bobTooLate : List MeetOp := joinSteps 2 ++ leaveSteps 9 ++ joinSteps 5 ++ leaveSteps 3

theorem lobbyOps_seven : Along Server.step Proper (Server.start emptyDb startTable) (lobbyOps.take 7) :=
  along_of_checkAlong proper_of_checkProper (by decide +kernel)

/-- The admin is alone in the lobby, and bob is connected and in no room. -/
theorem bob_outside : ∃ s r cl, run Server.step (Server.start emptyDb startTable) (lobbyOps.take 7) = some s ∧
    s.roomMem 2 = some r ∧ r.roomId = 0 ∧ r.members = [1] ∧ s.clients secondSlot = some 3 ∧
    s.fdToSlot 6 = some secondSlot ∧ s.clientMem 3 = some cl ∧ cl.fd = 6 ∧ cl.slot = secondSlot := by
  have hend : (run Server.step (Server.start emptyDb startTable) (lobbyOps.take 7)).map
      (fun s => ((s.roomMem 2).map fun r => (r.roomId, r.members),
        (s.clients secondSlot, s.fdToSlot 6), (s.clientMem 3).map fun cl => (cl.fd, cl.slot))) =
      some (some (0, [1]), (some 3, some secondSlot), some (6, secondSlot)) := by decide +kernel
  obtain ⟨s, hs, hmap⟩ := Option.map_eq_some_iff.mp hend
  obtain ⟨hroom, htable, hclient⟩ : _ ∧ _ ∧ _ := by simpa only [Prod.mk.injEq] using hmap
  obtain ⟨r, hr, hpair⟩ := Option.map_eq_some_iff.mp hroom
  obtain ⟨cl, hcl, hpair'⟩ := Option.map_eq_some_iff.mp hclient
  obtain ⟨hid, hmembers⟩ := Prod.mk.inj hpair
  obtain ⟨hfd, hslot⟩ := Prod.mk.inj hpair'
  exact ⟨s, r, cl, hs, hr, hid, hmembers, htable.1, htable.2, hcl, hfd, hslot⟩

/-- The run of the two calls from that state. -/
def bobRun (steps : List MeetOp) : Option Meeting :=
  (run Server.step (Server.start emptyDb startTable) (lobbyOps.take 7)).bind fun s =>
    run (Meeting.step bobJoins) ⟨s, .called, .called⟩ steps

/-- The call has returned 0. -/
def JoinPhase.success : JoinPhase → Bool
  | .returned result => result = 0
  | _ => false

theorem JoinPhase.of_success {ph : JoinPhase} (h : ph.success = true) : ph = .returned 0 := by
  cases ph with
  | returned result =>
      have hzero : result = 0 := by simpa [JoinPhase.success] using h
      rw [hzero]
  | _ => cases h

/-- The call has returned. -/
def LeavePhase.done : LeavePhase → Bool
  | .returned _ => true
  | _ => false

theorem LeavePhase.of_done {ph : LeavePhase} (h : ph.done = true) : ∃ k, ph = .returned k := by
  cases ph with
  | returned result => exact ⟨result, rfl⟩
  | _ => cases h

/-- Bob is in the room, and it stays. -/
theorem bob_joins_in_time :
    (∃ s m, run Server.step (Server.start emptyDb startTable) (lobbyOps.take 7) = some s ∧
      run (Meeting.step bobJoins) ⟨s, .called, .called⟩ bobInTime = some m ∧ JoinHolds bobJoins 2 m) ∧
    (bobRun bobInTime).map (fun m => (m.join.success, m.server.roomHead)) = some (true, some 2) := by
  obtain ⟨s, r, _, hs, hr, hid, hmembers, hclient, _⟩ := bob_outside
  have hcheck : (run Server.step (Server.start emptyDb startTable) (lobbyOps.take 7)).map
      (fun s => checkAlong (Meeting.step bobJoins) checkTimely ⟨s, .called, .called⟩ bobInTime) =
        some true := by decide +kernel
  rw [hs, Option.map_some, Option.some.injEq] at hcheck
  obtain ⟨m, hm, hholds⟩ := joined_room_stays emptyDb startTable _ s lobbyOps_seven hs bobJoins (by decide)
    secondSlot hclient 2 r hr hid hmembers bobInTime (along_of_checkAlong (timely_of_check bobJoins) hcheck)
  exact ⟨⟨s, m, hs, hm, hholds⟩, by decide +kernel⟩

/-- Bob's call returns 0, and the room is gone. -/
theorem bob_joins_too_late :
    ¬ ∀ (db : FileDb) (users : File) (ops : List (Op × Env)) (s : Server),
      Along Server.step Proper (Server.start db users) ops →
      run Server.step (Server.start db users) ops = some s →
      ∀ (a : MeetArgs), a.joiner ≠ a.leaver → ∀ slot, s.clients slot = some a.joiner →
      ∀ p r, s.roomMem p = some r → r.roomId = a.roomId → r.members = [a.leaver] →
      ∀ steps m, run (Meeting.step a) ⟨s, .called, .called⟩ steps = some m →
        (∃ k, m.leave = .returned k) → JoinHolds a p m := by
  intro hall
  obtain ⟨s, r, _, hs, hr, hid, hmembers, hclient, _⟩ := bob_outside
  have hend : (bobRun bobTooLate).map (fun m => (m.join.success, m.server.roomHead)) =
      some (true, none) := by decide +kernel
  have hleft : (bobRun bobTooLate).map (fun m => m.leave.done) = some true := by decide +kernel
  simp only [bobRun, hs, Option.bind_some] at hend hleft
  obtain ⟨m, hm, hmap⟩ := Option.map_eq_some_iff.mp hend
  obtain ⟨hjoin, hhead⟩ := Prod.mk.inj hmap
  rw [hm, Option.map_some, Option.some.injEq] at hleft
  have hreturned := LeavePhase.of_done hleft
  have hzero := JoinPhase.of_success hjoin
  obtain ⟨l, hlinked, hmem, _⟩ := hall emptyDb startTable _ s lobbyOps_seven hs bobJoins (by decide)
    secondSlot hclient 2 r hr hid hmembers bobTooLate m hm hreturned hzero
  have hstart := hlinked.head_eq
  rw [hhead] at hstart
  cases l with
  | nil => cases hmem
  | cons q l => cases hstart

end EchoLink
