import EchoLink.RoomRecords

/-!
# Clients, rooms and records agree in every run

The two main results about the rooms, for every run of operations whose record
writes complete, from an empty server with any files.

`membership_consistent`: the participants of the rooms and the `current_room`
of the clients say the same, and no room is ever full when a client joins.
`rooms_agree_with_records`: the room list is well formed and in the order of
creation, and `rooms.bin` stores it.
-/

namespace EchoLink

open CText RecordFile LinkedList PackedArray TwoViews Runs SlotDirectory

/-- What it means that membership is consistent; `l` is the room list. -/
structure MembershipConsistent (s : Server) (l : List Ptr) : Prop where
  list : Linked s.roomNext s.roomPrev s.roomHead l
  participants : ∀ p ∈ l, ∃ r, s.roomMem p = some r ∧
    ∀ i < r.participantCount, ∃ c cl, r.participants i = some c ∧ s.clients cl.slot = some c ∧
      s.clientMem c = some cl ∧ cl.userId ≠ -1 ∧ cl.currentRoom = some p
  distinct : ∀ p ∈ l, ∀ r, s.roomMem p = some r → ∀ i < r.participantCount,
    ∀ j < r.participantCount, r.participants i = r.participants j → i = j
  rest : ∀ p ∈ l, ∀ r, s.roomMem p = some r → ∀ i ≥ r.participantCount, r.participants i = none
  joined : ∀ i c, s.clients i = some c → ∃ cl, s.clientMem c = some cl ∧
    ∀ p, cl.currentRoom = some p → p ∈ l ∧ ∃ r, s.roomMem p = some r ∧
      ∃ j < r.participantCount, r.participants j = some c
  not_full : ∀ i c, s.clients i = some c → ∀ roomId password,
    ∃ k t, roomJoin s roomId password c = some (k, t) ∧ k ≠ -4

variable {s : Server} {l : List Ptr}

/-- The participants in use, by their index. -/
theorem RoomsOk.participants (h : RoomsOk s l) {p : Ptr} {r : Room} (hr : s.roomMem p = some r) :
    r.participants = (fun i => r.members[i]?) ∧ r.members.length = r.participantCount :=
  ⟨(h.packed p r hr).eq, (h.packed p r hr).length⟩

theorem ServerOk.membershipConsistent (h : ServerOk s l) : MembershipConsistent s l where
  list := h.rooms.linked
  participants := by
    intro p hp
    obtain ⟨r, hr⟩ := (h.rooms.live p).mp hp
    obtain ⟨harray, hlen⟩ := h.rooms.participants hr
    refine ⟨r, hr, ?_⟩
    intro i hi
    rw [← hlen] at hi
    obtain ⟨cl, hc, hroom⟩ := h.of_member hr (List.getElem_mem hi)
    refine ⟨r.members[i], cl, by rw [harray]; exact List.getElem?_eq_getElem hi, hc.1, hc.2, ?_, hroom⟩
    intro hout
    have hnone := (h.clients.loggedOut _ cl hc hout).2.2
    rw [hroom] at hnone
    cases hnone
  distinct := by
    intro p _ r hr i hi j hj hij
    obtain ⟨harray, hlen⟩ := h.rooms.participants hr
    rw [harray] at hij
    rw [← hlen] at hi
    exact (List.getElem?_inj hi (h.views.nodup p _ (ServerOk.membersOf_eq hr))).mp hij
  rest := by
    intro p _ r hr i hi
    obtain ⟨harray, hlen⟩ := h.rooms.participants hr
    rw [harray]
    exact List.getElem?_eq_none (by rw [hlen]; exact hi)
  joined := by
    intro i c hi
    obtain ⟨cl, hc, _⟩ := h.clients.holds hi
    refine ⟨cl, hc.2, ?_⟩
    intro p hp
    obtain ⟨r, hr, hmem⟩ := h.in_room hc hp
    obtain ⟨harray, hlen⟩ := h.rooms.participants hr
    obtain ⟨j, hj, hget⟩ := List.getElem_of_mem hmem
    refine ⟨h.rooms.mem_of_room hr, r, hr, j, by rw [← hlen]; exact hj, ?_⟩
    rw [harray, ← hget]
    exact List.getElem?_eq_getElem hj
  not_full := by
    intro i c hi roomId password
    obtain ⟨cl, hc, _⟩ := h.clients.holds hi
    obtain ⟨k, t, _, _, hjoin, _, _, _, hcases⟩ := h.roomJoin hc roomId password
    refine ⟨k, t, hjoin, ?_⟩
    rcases hcases with ⟨_, rfl | rfl⟩ | ⟨rfl, _⟩
    · decide
    · decide
    · decide

/-- **Membership is consistent** after every run of operations, and `room_join`
never finds a room full. -/
theorem membership_consistent (db : FileDb) (users : File) (ops : List (Op × Env))
    (h : Along Server.step Proper (Server.start db users) ops) :
    ∃ s l, run Server.step (Server.start db users) ops = some s ∧ MembershipConsistent s l := by
  obtain ⟨s, hrun, ⟨l, hok⟩, _⟩ := serverRun_ok db users ops h
  exact ⟨s, l, hrun, hok.membershipConsistent⟩

/-- An operation of the run below: complete writes, and `malloc` as given. -/
def completeEnv (malloc : Option Ptr) : Env := ⟨malloc, RoomRecord.zero, []⟩

def firstSlot : Fin maxClients := ⟨0, by decide⟩

def secondSlot : Fin maxClients := ⟨1, by decide⟩

/-- The admin creates a room, and a new user joins it after the admin. -/
def lobbyOps : List (Op × Env) :=
  [(.accept 5, completeEnv (some 1)), (.accept 6, completeEnv (some 3)),
    (.command firstSlot (ascii "LOGIN admin admin123"), completeEnv none),
    (.command firstSlot (ascii "CREATE lobby"), completeEnv (some 2)),
    (.command firstSlot (ascii "JOIN lobby"), completeEnv none),
    (.command secondSlot (ascii "REGISTER bob secret"), completeEnv none),
    (.command secondSlot (ascii "LOGIN bob secret"), completeEnv none),
    (.command secondSlot (ascii "JOIN lobby"), completeEnv none)]

theorem lobbyOps_proper : Along Server.step Proper (Server.start emptyDb startTable) lobbyOps :=
  along_of_checkAlong proper_of_checkProper (by decide +kernel)

theorem lobbyOps_fresh : Along Server.step Fresh (Server.start emptyDb startTable) lobbyOps :=
  along_imp (fun _ _ h => h.1) lobbyOps_proper

/-- The run has an end, where the room has two participants. -/
theorem membership_lobby :
    (∃ s l, run Server.step (Server.start emptyDb startTable) lobbyOps = some s ∧
      MembershipConsistent s l) ∧
    ((run Server.step (Server.start emptyDb startTable) lobbyOps).bind fun s =>
      (s.roomMem 2).map Room.members) = some [1, 3] :=
  ⟨membership_consistent emptyDb startTable lobbyOps lobbyOps_proper, by decide +kernel⟩

/-! ### The records -/

/-- What it means that the room list agrees with `rooms.bin`, which held `db₀`
at the start. -/
structure RoomsAgree (db₀ : FileDb) (s : Server) (l : List Ptr) : Prop where
  list : Linked s.roomNext s.roomPrev s.roomHead l
  live : ∀ p, p ∈ l ↔ ∃ r, s.roomMem p = some r
  order : l.Pairwise fun p q => s.born p < s.born q
  count : s.roomCount = l.length
  bound : s.roomCount ≤ maxRooms
  names : ∀ p ∈ l, ∀ q ∈ l, ∀ r r', s.roomMem p = some r → s.roomMem q = some r' →
    r.roomName = r'.roomName → p = q
  ids : ∀ p ∈ l, ∀ q ∈ l, ∀ r r', s.roomMem p = some r → s.roomMem q = some r' →
    r.roomId = r'.roomId → p = q
  stored : ∀ p ∈ l, ∀ r, s.roomMem p = some r → ∃ rec', s.db.recordAt r.roomId = some rec' ∧
    rec'.isActive ≠ 0 ∧ cstr rec'.roomName.val = r.roomName ∧ cstr rec'.password.val = r.password ∧
      rec'.userCount.toInt = r.participantCount
  others : ∀ k rec', rec'.isActive ≠ 0 →
    ((s.db.recordAt k = some rec' ∧ ∀ p ∈ l, ∀ r, s.roomMem p = some r → r.roomId ≠ k) ↔
      db₀.recordAt k = some rec')

theorem toInt_ofNat_of_le {n : Nat} (h : n ≤ maxClients) : (Int32.ofNat n).toInt = n := by
  have hlt : n < 51 := Nat.lt_succ_of_le h
  interval_cases n <;> rfl

/-- **The rooms and `rooms.bin` agree** after every run of operations. -/
theorem rooms_agree_with_records (db : FileDb) (users : File) (ops : List (Op × Env))
    (h : Along Server.step Proper (Server.start db users) ops) :
    ∃ s l, run Server.step (Server.start db users) ops = some s ∧ RoomsAgree db s l := by
  obtain ⟨s, hrun, ⟨l, hok⟩, hrecords⟩ := serverRun_ok db users ops h
  refine ⟨s, l, hrun, ?_⟩
  exact
    { list := hok.rooms.linked
      live := hok.rooms.live
      order := hok.rooms.order
      count := hok.rooms.count
      bound := by
        rw [hok.rooms.count]
        exact Int.ofNat_le.mpr hok.rooms.bound
      names := fun p _ q _ r r' hr hr' => hok.rooms.names p q r r' hr hr'
      ids := fun p _ q _ r r' hr hr' => hrecords.ids_distinct p q r r' hr hr'
      stored := by
        intro p _ r hr
        obtain ⟨rec', hrec, hactive, hname, hpassword, hcount⟩ := hrecords.record hr
        refine ⟨rec', hrec, hactive, hname, hpassword, ?_⟩
        rw [hcount, toInt_ofNat_of_le (hok.participants_le hr)]
      others := by
        intro k rec' hactive
        -- a slot of a live room was not active at the start
        have hlive : (∀ p i, s.roomInfo p = some i → i.roomId ≠ k) ↔
            ∀ p ∈ l, ∀ r, s.roomMem p = some r → r.roomId ≠ k := by
          constructor
          · intro hk p _ r hr
            exact hk p r.info (roomInfo_of_room hr)
          · intro hk p i hi
            obtain ⟨r, hr, rfl⟩ := Option.map_eq_some_iff.mp hi
            exact hk p (hok.rooms.mem_of_room hr) r hr
        constructor
        · rintro ⟨hrec, hk⟩
          exact (hrecords.kept k (hlive.mpr hk) rec' hactive).mp hrec
        · intro hstart
          have hk : ∀ p i, s.roomInfo p = some i → i.roomId ≠ k := by
            rintro p i hi rfl
            exact hrecords.spared p i rec' hi hstart hactive
          exact ⟨(hrecords.kept k hk rec' hactive).mpr hstart, hlive.mp hk⟩ }

/-- In the same run the record of the room says that two clients are in it. -/
theorem rooms_agree_lobby :
    (∃ s l, run Server.step (Server.start emptyDb startTable) lobbyOps = some s ∧
      RoomsAgree emptyDb s l) ∧
    ((run Server.step (Server.start emptyDb startTable) lobbyOps).bind fun s =>
      (s.db.recordAt 0).map fun r => (cstr r.roomName.val, r.userCount)) = some (ascii "lobby", 2) :=
  ⟨rooms_agree_with_records emptyDb startTable lobbyOps lobbyOps_proper, by decide +kernel⟩

end EchoLink
