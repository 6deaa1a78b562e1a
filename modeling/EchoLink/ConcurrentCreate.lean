import EchoLink.RoomAgreement
import EchoLink.BoundedQueue

/-!
# `room_create` in several workers at once

A call of `room_create` looks up the name, reads `room_count`, scans
`rooms.bin` for a free id, writes the record and links the room.  Each of
these is one step here, and the calls take their steps in any order.  A room
that is not linked yet is known to its own call only, so the phase of the call
holds it.

Nothing keeps the steps of one call together.  Two calls with one name can
both find it free, two scans with no write between them find the same id, and
calls that have read `room_count` do not count for the others.  The list stays
well formed in the runs in which none of this happens (`creates_wellFormed`).
One call on its own does what `room_create` does (`create_alone`).
-/

namespace EchoLink

open CText RecordFile LinkedList PackedArray PartialMap Runs
open BoundedQueue (sum_update le_sum)

/-- Where a call of `room_create` stands. -/
inductive CreatePhase where
  | idle
  | called (name password : Bytes)
  /-- the name was free -/
  | checked (name password : Bytes)
  /-- `room_count` was below `MAX_ROOMS` -/
  | counted (name password : Bytes)
  /-- `db_next_free_room_id` has returned -/
  | scanned (roomId : Nat) (name password : Bytes)
  /-- the room is allocated and its record is written -/
  | stored (p : Ptr) (roomId : Nat) (name password : Bytes)
  | returned (result : Int)

/-- The server and the calls of `n` workers. -/
structure Creates (n : Nat) where
  server : Server
  phase : Fin n → CreatePhase

/-- A worker calls `room_create`, or takes the next step of its call. -/
inductive CreateOp (n : Nat) where
  | call (t : Fin n) (name password : Bytes)
  | step (t : Fin n) (env : Env)

/-- The next step of a call. -/
def createStep (env : Env) (s : Server) : CreatePhase → Option (Server × CreatePhase)
  | .idle => some (s, .idle)
  | .called name password =>
      match roomFindByName s name with
      | none => none
      | some (some _) => some (s, .returned (-1))
      | some none => some (s, .checked name password)
  | .checked name password =>
      if (maxRooms : Int) ≤ s.roomCount then some (s, .returned (-2))
      else some (s, .counted name password)
  | .counted name password =>
      let free := dbNextFreeRoomId s.db
      some ({ s with db := free.2 }, .scanned free.1 name password)
  | .scanned roomId name password =>
      match env.malloc with
      | none => some (s, .returned (-3))
      | some p =>
          if maxRoomNameLen ≤ name.length ∨ maxPasswordLen ≤ password.length then none
          else
            let w := Server.writeRoom { s with wrote := env.wrote } roomId
              (newRecord env.stack roomId name password)
            if w.1 then some (w.2, .stored p roomId name password) else some (w.2, .returned (-4))
  | .stored p roomId name password =>
      ((s.allocRoom p (newRoom roomId name password)).linkRoom p).map fun u =>
        (u, .returned roomId)
  | .returned result => some (s, .returned result)

/-- One step of one worker; a worker calls again when its last call is over. -/
def Creates.step {n : Nat} (s : Creates n) : CreateOp n → Option (Creates n)
  | .call t name password =>
      match s.phase t with
      | .idle => some { s with phase := Function.update s.phase t (.called name password) }
      | .returned _ => some { s with phase := Function.update s.phase t (.called name password) }
      | _ => some s
  | .step t env =>
      (createStep env s.server (s.phase t)).map fun out =>
        ⟨out.1, Function.update s.phase t out.2⟩

/-! ### What a call holds -/

/-- The name that the call has found free. -/
def CreatePhase.name : CreatePhase → Option Bytes
  | .checked name _ => some name
  | .counted name _ => some name
  | .scanned _ name _ => some name
  | .stored _ _ name _ => some name
  | _ => none

/-- The call will add a room to the count. -/
def CreatePhase.admitted : CreatePhase → Nat
  | .counted _ _ => 1
  | .scanned _ _ _ => 1
  | .stored _ _ _ _ => 1
  | _ => 0

/-- The call has an id without a record. -/
def CreatePhase.scanning : CreatePhase → Bool
  | .scanned _ _ _ => true
  | _ => false

/-- The room the call has allocated, and its id. -/
def CreatePhase.room : CreatePhase → Option (Ptr × Nat)
  | .stored p roomId _ _ => some (p, roomId)
  | _ => none

/-- What the callers and `malloc` promise: names and passwords fit their arrays,
and new memory is not in use. -/
def CreatesProper {n : Nat} (s : Creates n) : CreateOp n → Prop
  | .call _ name password => name.length < maxRoomNameLen ∧ password.length < maxPasswordLen
  | .step t env =>
      (s.phase t).scanning = true → ∀ p, env.malloc = some p → s.server.roomMem p = none ∧
        ∀ u q roomId, (s.phase u).room = some (q, roomId) → q ≠ p

/-- The calls stay apart: a name is looked up and found free while no other call
has found it free, `room_count` is read while it and the calls behind their own
reading leave room, or while it is at its limit, and the file is scanned while
no other call is between its scan and its record. -/
def CreatesApart {n : Nat} (s : Creates n) : CreateOp n → Prop
  | .call _ _ _ => True
  | .step t _ =>
      match s.phase t with
      | .called name _ =>
          roomFindByName s.server name = some none → ∀ u, (s.phase u).name ≠ some name
      | .checked _ _ =>
          s.server.roomCount + (∑ u, (s.phase u).admitted : Nat) < maxRooms ∨
            (maxRooms : Int) ≤ s.server.roomCount
      | .counted _ _ => ∀ u, (s.phase u).scanning = false
      | _ => True

/-! ### The invariant -/

/-- The file has an active record for the id. -/
def FileDb.Active (db : FileDb) (roomId : Nat) : Prop :=
  ∃ r, db.recordAt roomId = some r ∧ r.isActive ≠ 0

/-- No live room has the name. -/
def Server.NameFree (s : Server) (name : Bytes) : Prop :=
  ∀ q r, s.roomMem q = some r → r.roomName ≠ name

/-- What a call knows of the server. -/
def CreatePhase.Ok (s : Server) : CreatePhase → Prop
  | .idle => True
  | .called name password => name.length < maxRoomNameLen ∧ password.length < maxPasswordLen
  | .checked name password =>
      (name.length < maxRoomNameLen ∧ password.length < maxPasswordLen) ∧ s.NameFree name
  | .counted name password =>
      (name.length < maxRoomNameLen ∧ password.length < maxPasswordLen) ∧ s.NameFree name
  | .scanned roomId name password =>
      (name.length < maxRoomNameLen ∧ password.length < maxPasswordLen) ∧ s.NameFree name ∧
        roomId * roomRecordSize ≤ s.db.rooms.data.length ∧ ¬ s.db.Active roomId
  | .stored p roomId name _ =>
      s.NameFree name ∧ s.roomMem p = none ∧ s.db.Active roomId ∧
        ∀ q r, s.roomMem q = some r → r.roomId ≠ roomId
  | .returned _ => True

/-- Two calls do not get in each other's way. -/
structure CreatePhase.Apart (a b : CreatePhase) : Prop where
  names : ∀ name, a.name = some name → b.name ≠ some name
  scans : a.scanning = true → b.scanning = false
  rooms : ∀ p q i j, a.room = some (p, i) → b.room = some (q, j) → p ≠ q ∧ i ≠ j

/-- The invariant of the calls. -/
structure CreatesOk {n : Nat} (s : Creates n) : Prop where
  rooms : ∃ l, RoomsOk s.server l ∧ l.length + ∑ u, (s.phase u).admitted ≤ maxRooms
  ids : s.server.IdsDistinct
  recorded : ∀ q r, s.server.roomMem q = some r → s.server.db.Active r.roomId
  each : ∀ t, (s.phase t).Ok s.server
  apart : ∀ t u, t ≠ u → (s.phase t).Apart (s.phase u)

variable {n : Nat} {s : Creates n} {t : Fin n}

theorem CreatePhase.Apart.symm {a b : CreatePhase} (h : a.Apart b) : b.Apart a where
  names := fun name hb ha => h.names name ha hb
  scans := by
    intro hb
    cases ha : a.scanning with
    | false => rfl
    | true =>
        rw [h.scans ha] at hb
        cases hb
  rooms := by
    intro p q i j hb ha
    obtain ⟨hpq, hij⟩ := h.rooms q p j i ha hb
    exact ⟨hpq.symm, hij.symm⟩

/-- A call that holds nothing is apart from every call. -/
theorem CreatePhase.apart_of_none {a : CreatePhase} (hname : a.name = none) (hscan : a.scanning = false)
    (hroom : a.room = none) (b : CreatePhase) : a.Apart b where
  names := by
    intro name h
    rw [hname] at h
    cases h
  scans := by
    intro h
    rw [hscan] at h
    cases h
  rooms := by
    intro p q i j h
    rw [hroom] at h
    cases h

/-- One call moves to the phase `ph`, and the server to `u`. -/
theorem CreatesOk.update (h : CreatesOk s) {u : Server} {ph : CreatePhase}
    (hrooms : ∃ l, RoomsOk u l ∧ l.length + ∑ v, (Function.update s.phase t ph v).admitted ≤ maxRooms)
    (hids : u.IdsDistinct) (hrecorded : ∀ q r, u.roomMem q = some r → u.db.Active r.roomId)
    (hph : ph.Ok u) (hothers : ∀ v, v ≠ t → (s.phase v).Ok u)
    (hapart : ∀ v, v ≠ t → ph.Apart (s.phase v)) :
    CreatesOk (n := n) ⟨u, Function.update s.phase t ph⟩ where
  rooms := hrooms
  ids := hids
  recorded := hrecorded
  each := by
    intro v
    dsimp only
    by_cases hv : v = t
    · subst hv
      rw [Function.update_self]
      exact hph
    · rw [Function.update_of_ne hv]
      exact hothers v hv
  apart := by
    intro v w hvw
    dsimp only
    by_cases hv : v = t
    · subst hv
      rw [Function.update_self, Function.update_of_ne (Ne.symm hvw)]
      exact hapart w (Ne.symm hvw)
    · rw [Function.update_of_ne hv]
      by_cases hw : w = t
      · subst hw
        rw [Function.update_self]
        exact (hapart v hv).symm
      · rw [Function.update_of_ne hw]
        exact h.apart v w hvw

/-- What a call knows does not depend on anything but the rooms and their file. -/
theorem CreatePhase.Ok.of_same {s u : Server} {ph : CreatePhase} (h : ph.Ok s)
    (hmem : u.roomMem = s.roomMem) (hdata : u.db.rooms.data = s.db.rooms.data) : ph.Ok u := by
  have hrecords := recordAt_of_data hdata
  cases ph <;> simp only [CreatePhase.Ok, Server.NameFree, FileDb.Active, hmem, hdata, hrecords] at h ⊢ <;>
    exact h

/-- A call that is not between its scan and its record only needs the records
that are active. -/
theorem CreatePhase.Ok.of_active {s u : Server} {ph : CreatePhase} (h : ph.Ok s)
    (hmem : u.roomMem = s.roomMem) (hactive : ∀ k, s.db.Active k → u.db.Active k)
    (hscan : ph.scanning = false) : ph.Ok u := by
  cases ph with
  | idle => trivial
  | returned result => trivial
  | called name password => exact h
  | scanned roomId name password => cases hscan
  | checked name password | counted name password =>
      simp only [CreatePhase.Ok, Server.NameFree, hmem] at h ⊢
      exact h
  | stored p roomId name password =>
      simp only [CreatePhase.Ok, Server.NameFree, hmem] at h ⊢
      exact ⟨h.1, h.2.1, hactive _ h.2.2.1, h.2.2.2⟩

/-- A new room, with another name and another id than those of the call. -/
theorem CreatePhase.Ok.of_linked {s u : Server} {ph : CreatePhase} (h : ph.Ok s) {p : Ptr} {r : Room}
    (hmem : u.roomMem = Function.update s.roomMem p (some r)) (hdb : u.db = s.db)
    (hname : ph.name ≠ some r.roomName)
    (hroom : ∀ q i, ph.room = some (q, i) → q ≠ p ∧ i ≠ r.roomId) : ph.Ok u := by
  have hfree : ∀ name, ph.name = some name → s.NameFree name → u.NameFree name := by
    rintro name hph hs q x hq rfl
    rw [hmem] at hq
    rcases update_some_cases hq with ⟨_, rfl⟩ | ⟨_, hq⟩
    · exact hname hph
    · exact hs q x hq rfl
  cases ph with
  | idle => trivial
  | returned result => trivial
  | called name password => exact h
  | checked name password => exact ⟨h.1, hfree name rfl h.2⟩
  | counted name password => exact ⟨h.1, hfree name rfl h.2⟩
  | scanned roomId name password =>
      refine ⟨h.1, hfree name rfl h.2.1, ?_⟩
      rw [hdb]
      exact h.2.2
  | stored p' roomId name password =>
      obtain ⟨hp, hid⟩ := hroom p' roomId rfl
      refine ⟨hfree name rfl h.1, ?_, ?_, ?_⟩
      · rw [hmem, Function.update_of_ne hp]
        exact h.2.1
      · rw [hdb]
        exact h.2.2.1
      · intro q x hq
        rw [hmem] at hq
        rcases update_some_cases hq with ⟨_, rfl⟩ | ⟨_, hq⟩
        · exact hid.symm
        · exact h.2.2.2 q x hq

/-- A call moves on and changes neither the rooms nor their records. -/
theorem CreatesOk.quiet (h : CreatesOk s) {u : Server} {ph : CreatePhase} (hsame : SameRooms s.server u)
    (hdata : u.db.rooms.data = s.server.db.rooms.data)
    (hadmitted : (s.phase t).admitted = ph.admitted ∨ ph.admitted = 0) (hph : ph.Ok u)
    (hapart : ∀ v, v ≠ t → ph.Apart (s.phase v)) :
    CreatesOk (n := n) ⟨u, Function.update s.phase t ph⟩ := by
  obtain ⟨l, hok, hbound⟩ := h.rooms
  have hsum := sum_update CreatePhase.admitted s.phase t ph
  refine h.update ⟨l, hok.of_same hsame, by omega⟩ ?_ ?_ hph ?_ hapart
  · intro p q r r' hp hq
    rw [hsame.mem] at hp hq
    exact h.ids p q r r' hp hq
  · intro q r hq
    rw [hsame.mem] at hq
    rw [FileDb.Active, recordAt_of_data hdata]
    exact h.recorded q r hq
  · intro v _
    exact (h.each v).of_same hsame.mem hdata

/-! ### The steps -/

theorem CreatesOk.call (h : CreatesOk s) (name password : Bytes)
    (hfits : name.length < maxRoomNameLen ∧ password.length < maxPasswordLen) :
    CreatesOk (n := n) ⟨s.server, Function.update s.phase t (.called name password)⟩ :=
  h.quiet (SameRooms.refl _) rfl (Or.inr rfl) hfits
    fun v _ => CreatePhase.apart_of_none rfl rfl rfl (s.phase v)

/-- A call returns, and leaves the rooms and their records as they are. -/
theorem CreatesOk.returned (h : CreatesOk s) {u : Server} (hsame : SameRooms s.server u)
    (hdata : u.db.rooms.data = s.server.db.rooms.data) (result : Int) :
    CreatesOk (n := n) ⟨u, Function.update s.phase t (.returned result)⟩ :=
  h.quiet hsame hdata (Or.inr rfl) trivial fun v _ => CreatePhase.apart_of_none rfl rfl rfl (s.phase v)

/-- The name is looked up. -/
theorem CreatesOk.lookup (h : CreatesOk s) {name password : Bytes} (ht : s.phase t = .called name password)
    (hapart : roomFindByName s.server name = some none → ∀ u, (s.phase u).name ≠ some name)
    (env : Env) :
    ∃ u ph, createStep env s.server (s.phase t) = some (u, ph) ∧
      CreatesOk (n := n) ⟨u, Function.update s.phase t ph⟩ := by
  obtain ⟨l, hok, _⟩ := h.rooms
  have hfits := h.each t
  rw [ht] at hfits
  rw [ht]
  cases hfind : roomFindByName s.server name with
  | none =>
      rw [roomFindByName, hok.findRoom] at hfind
      cases hfind
  | some found =>
      simp only [createStep, hfind]
      cases found with
      | some q => exact ⟨_, _, rfl, h.returned (SameRooms.refl _) rfl _⟩
      | none =>
          have hfree : s.server.NameFree name := by
            intro q r hq
            simpa using hok.findRoom_none hfind hq
          refine ⟨_, _, rfl, h.quiet (SameRooms.refl _) rfl (Or.inr rfl) ⟨hfits, hfree⟩ ?_⟩
          intro v _
          refine ⟨?_, by rintro ⟨⟩, by rintro p q i j ⟨⟩⟩
          rintro _ ⟨⟩
          exact hapart hfind v

/-- `room_count` is read. -/
theorem CreatesOk.count (h : CreatesOk s) {name password : Bytes} (ht : s.phase t = .checked name password)
    (hroom : s.server.roomCount + (∑ u, (s.phase u).admitted : Nat) < maxRooms ∨
      (maxRooms : Int) ≤ s.server.roomCount) (env : Env) :
    ∃ u ph, createStep env s.server (s.phase t) = some (u, ph) ∧
      CreatesOk (n := n) ⟨u, Function.update s.phase t ph⟩ := by
  have hphase := h.each t
  have hothers : ∀ v, v ≠ t → (CreatePhase.counted name password).Apart (s.phase v) := by
    intro v hv
    have hapart := h.apart t v (Ne.symm hv)
    rw [ht] at hapart
    exact ⟨hapart.names, by rintro ⟨⟩, by rintro p q i j ⟨⟩⟩
  rw [ht] at hphase
  rw [ht]
  simp only [createStep]
  split
  · exact ⟨_, _, rfl, h.returned (SameRooms.refl _) rfl _⟩
  · rename_i hfull
    obtain ⟨l, hok, _⟩ := h.rooms
    refine ⟨_, _, rfl, h.update ⟨l, hok, ?_⟩ h.ids h.recorded hphase (fun v _ => h.each v) hothers⟩
    have hsum := sum_update CreatePhase.admitted s.phase t (.counted name password)
    have hcount := hok.count
    rw [ht] at hsum
    simp only [CreatePhase.admitted] at hsum hroom ⊢
    omega

/-- The file is scanned. -/
theorem CreatesOk.scan (h : CreatesOk s) {name password : Bytes} (ht : s.phase t = .counted name password)
    (hscan : ∀ u, (s.phase u).scanning = false) (env : Env) :
    ∃ u ph, createStep env s.server (s.phase t) = some (u, ph) ∧
      CreatesOk (n := n) ⟨u, Function.update s.phase t ph⟩ := by
  have hphase := h.each t
  have hothers : ∀ v, v ≠ t →
      (CreatePhase.scanned (dbNextFreeRoomId s.server.db).1 name password).Apart (s.phase v) := by
    intro v hv
    have hapart := h.apart t v (Ne.symm hv)
    rw [ht] at hapart
    exact ⟨hapart.names, fun _ => hscan v, by rintro p q i j ⟨⟩⟩
  rw [ht] at hphase
  obtain ⟨hle, hfree⟩ := dbNextFreeRoomId_free s.server.db
  have hdata := dbNextFreeRoomId_data s.server.db
  refine ⟨_, _, by rw [ht]; rfl, ?_⟩
  refine h.quiet ⟨rfl, rfl, rfl, rfl, rfl, rfl, rfl⟩ hdata (Or.inl (by rw [ht]; rfl)) ?_ hothers
  refine ⟨hphase.1, hphase.2, by rw [hdata]; exact hle, ?_⟩
  rintro ⟨r, hr, hactive⟩
  rw [recordAt_of_data hdata] at hr
  exact hactive (hfree r hr)

/-- A record write, whole or short, keeps the other records. -/
theorem writeRoom_active {s : Server} {roomId : Nat} (r : RoomRecord)
    (hin : roomId * roomRecordSize ≤ s.db.rooms.data.length) (hfree : ¬ s.db.Active roomId) :
    ∀ k, s.db.Active k → (s.writeRoom roomId r).2.db.Active k := by
  rintro k ⟨rec', hrec, hactive⟩
  have hk : k ≠ roomId := by
    rintro rfl
    exact hfree ⟨rec', hrec, hactive⟩
  have hslot : slot roomRecordSize (s.writeRoom roomId r).2.db.rooms.data k =
      slot roomRecordSize s.db.rooms.data k :=
    runWrite_slot_of_ne (c := { roomId, record := r, wrote := s.wrote.headD roomRecordSize }) hin hk
  exact ⟨rec', (recordAt_congr hslot).trans hrec, hactive⟩

/-- A record write that succeeds leaves the record in the file. -/
theorem writeRoom_stored {s : Server} {roomId : Nat} {r : RoomRecord}
    (hin : roomId * roomRecordSize ≤ s.db.rooms.data.length) (hw : (s.writeRoom roomId r).1 = true) :
    (s.writeRoom roomId r).2.db.recordAt roomId = some r := by
  have hall : roomRecordSize ≤ s.wrote.headD roomRecordSize := by
    by_contra hshort
    simp only [Server.writeRoom, dbWriteRoom, if_pos (Nat.lt_of_not_le hshort)] at hw
    cases hw
  have hdata : (s.writeRoom roomId r).2.db.rooms.data =
      patch s.db.rooms.data (roomId * roomRecordSize) r.encode :=
    runWrite_data_complete (c := { roomId, record := r, wrote := s.wrote.headD roomRecordSize }) hall
  have hrecords := recordAt_patch hdata hin
  exact (congrFun hrecords roomId).trans (Function.update_self _ _ _)

/-- The room is allocated and its record written. -/
theorem CreatesOk.store (h : CreatesOk s) {roomId : Nat} {name password : Bytes}
    (ht : s.phase t = .scanned roomId name password) {env : Env}
    (hfresh : ∀ p, env.malloc = some p → s.server.roomMem p = none ∧
      ∀ u q roomId, (s.phase u).room = some (q, roomId) → q ≠ p) :
    ∃ u ph, createStep env s.server (s.phase t) = some (u, ph) ∧
      CreatesOk (n := n) ⟨u, Function.update s.phase t ph⟩ := by
  have hphase := h.each t
  have hothers : ∀ v, v ≠ t → (s.phase t).Apart (s.phase v) := fun v hv => h.apart t v (Ne.symm hv)
  rw [ht] at hphase hothers
  obtain ⟨hfits, hname, hin, hfree⟩ := hphase
  rw [ht]
  simp only [createStep]
  cases hmalloc : env.malloc with
  | none => exact ⟨_, _, rfl, h.returned (SameRooms.refl _) rfl _⟩
  | some p =>
      obtain ⟨hp, hapart⟩ := hfresh p hmalloc
      have hlong : ¬ (maxRoomNameLen ≤ name.length ∨ maxPasswordLen ≤ password.length) := by omega
      simp only [if_neg hlong]
      obtain ⟨s₁, hs₁⟩ : ∃ s₁ : Server, s₁ = { s.server with wrote := env.wrote } := ⟨_, rfl⟩
      obtain ⟨rec', hrec⟩ : ∃ rec', rec' = newRecord env.stack roomId name password := ⟨_, rfl⟩
      have hrecActive : rec'.isActive ≠ 0 := by
        rw [hrec]
        have hone : (1 : Int32) ≠ 0 := by decide
        exact hone
      rw [← hs₁, ← hrec]
      have hdb : s₁.db = s.server.db := by rw [hs₁]
      have hmem : s₁.roomMem = s.server.roomMem := by rw [hs₁]
      have hsame : SameRooms s.server (s₁.writeRoom roomId rec').2 := by
        rw [hs₁]
        exact ⟨rfl, rfl, rfl, rfl, rfl, rfl, rfl⟩
      have hactive := writeRoom_active (s := s₁) rec' (by rw [hdb]; exact hin) (by rw [hdb]; exact hfree)
      rw [hdb] at hactive
      -- both outcomes keep the other calls and the live rooms
      have hmove : ∀ ph : CreatePhase, ph.admitted ≤ 1 → ph.Ok (s₁.writeRoom roomId rec').2 →
          (∀ v, v ≠ t → ph.Apart (s.phase v)) →
          CreatesOk (n := n) ⟨(s₁.writeRoom roomId rec').2, Function.update s.phase t ph⟩ := by
        intro ph hadmitted hok hph
        obtain ⟨l, hrooms, hbound⟩ := h.rooms
        have hsum := sum_update CreatePhase.admitted s.phase t ph
        rw [ht] at hsum
        simp only [CreatePhase.admitted] at hsum hadmitted
        refine h.update ⟨l, hrooms.of_same hsame, ?_⟩ ?_ ?_ hok ?_ hph
        · simp only [CreatePhase.admitted] at hbound ⊢
          omega
        · intro q q' r r' hq hq'
          rw [hsame.mem] at hq hq'
          exact h.ids q q' r r' hq hq'
        · intro q r hq
          rw [hsame.mem] at hq
          exact hactive _ (h.recorded q r hq)
        · intro v hv
          exact (h.each v).of_active hsame.mem hactive ((hothers v hv).scans rfl)
      split
      · rename_i hw
        refine ⟨_, _, rfl, hmove _ (Nat.le_refl 1) ⟨?_, ?_, ?_, ?_⟩ ?_⟩
        · intro q r hq
          rw [hsame.mem] at hq
          exact hname q r hq
        · rw [hsame.mem]
          exact hp
        · exact ⟨rec', writeRoom_stored (by rw [hdb]; exact hin) hw, hrecActive⟩
        · rintro q r hq rfl
          rw [hsame.mem] at hq
          exact hfree (h.recorded q r hq)
        · intro v hv
          refine ⟨(hothers v hv).names, by rintro ⟨⟩, ?_⟩
          rintro _ q _ j ⟨⟩ hroom
          refine ⟨(hapart v q j hroom).symm, ?_⟩
          rintro rfl
          have hv := h.each v
          cases hph : s.phase v with
          | stored q' j' name' password' =>
              rw [hph] at hroom hv
              cases hroom
              exact hfree hv.2.2.1
          | _ =>
              rw [hph] at hroom
              cases hroom
      · exact ⟨_, _, rfl, hmove _ (Nat.zero_le 1) trivial
          fun v _ => CreatePhase.apart_of_none rfl rfl rfl (s.phase v)⟩

/-- The room is linked. -/
theorem CreatesOk.link (h : CreatesOk s) {p : Ptr} {roomId : Nat} {name password : Bytes}
    (ht : s.phase t = .stored p roomId name password) (env : Env) :
    ∃ u ph, createStep env s.server (s.phase t) = some (u, ph) ∧
      CreatesOk (n := n) ⟨u, Function.update s.phase t ph⟩ := by
  have hphase := h.each t
  have hothers : ∀ v, v ≠ t → (s.phase t).Apart (s.phase v) := fun v hv => h.apart t v (Ne.symm hv)
  rw [ht] at hphase hothers
  obtain ⟨hname, hp, hactive, hid⟩ := hphase
  obtain ⟨l, hrooms, hbound⟩ := h.rooms
  have hsum := sum_update CreatePhase.admitted s.phase t (.returned roomId)
  have hone := le_sum CreatePhase.admitted s.phase t
  rw [ht] at hsum hone
  simp only [CreatePhase.admitted] at hsum hone hbound
  have hpl : p ∉ l := by
    intro hpl
    obtain ⟨r, hr⟩ := (hrooms.live p).mp hpl
    rw [hp] at hr
    cases hr
  obtain ⟨u, hlink, hok, _, hmem, hfiles⟩ := hrooms.linkRoom (r := newRoom roomId name password) hpl
    (by omega) hname packed_zero rfl (SameRooms.refl (s.server.allocRoom p (newRoom roomId name password)))
  have hmem' : u.roomMem = Function.update s.server.roomMem p (some (newRoom roomId name password)) := hmem
  have hdb : u.db = s.server.db := (Prod.mk.inj hfiles).1
  refine ⟨u, .returned roomId, by rw [ht, createStep, hlink, Option.map_some], ?_⟩
  refine h.update ⟨l ++ [p], hok, ?_⟩ ?_ ?_ trivial ?_
    fun v _ => CreatePhase.apart_of_none rfl rfl rfl (s.phase v)
  · rw [List.length_append, List.length_singleton]
    simp only [CreatePhase.admitted]
    omega
  · intro q q' r r' hq hq' hsame
    rw [hmem'] at hq hq'
    rcases update_some_cases hq with ⟨rfl, rfl⟩ | ⟨_, hold⟩
    · rcases update_some_cases hq' with ⟨rfl, _⟩ | ⟨_, hold'⟩
      · rfl
      · exact absurd hsame.symm (hid q' r' hold')
    · rcases update_some_cases hq' with ⟨rfl, rfl⟩ | ⟨_, hold'⟩
      · exact absurd hsame (hid q r hold)
      · exact h.ids q q' r r' hold hold' hsame
  · intro q r hq
    rw [hmem'] at hq
    rw [hdb]
    rcases update_some_cases hq with ⟨_, rfl⟩ | ⟨_, hq⟩
    · exact hactive
    · exact h.recorded q r hq
  · intro v hv
    refine (h.each v).of_linked hmem' hdb ((hothers v hv).names name rfl) ?_
    intro q i hroom
    obtain ⟨hpq, hij⟩ := (hothers v hv).rooms p q roomId i rfl hroom
    exact ⟨hpq.symm, hij.symm⟩

theorem CreatesOk.step (h : CreatesOk s) {o : CreateOp n} (hproper : CreatesProper s o)
    (hapart : CreatesApart s o) : ∃ s', s.step o = some s' ∧ CreatesOk s' := by
  cases o with
  | call t name password =>
      simp only [Creates.step]
      split
      · exact ⟨_, rfl, h.call name password hproper⟩
      · exact ⟨_, rfl, h.call name password hproper⟩
      · exact ⟨_, rfl, h⟩
  | step t env =>
      have hmove : ∃ u ph, createStep env s.server (s.phase t) = some (u, ph) ∧
          CreatesOk (n := n) ⟨u, Function.update s.phase t ph⟩ := by
        simp only [CreatesApart] at hapart
        cases ht : s.phase t with
        | idle =>
            refine ⟨_, _, rfl, ?_⟩
            rw [← ht, Function.update_eq_self]
            exact h
        | returned result =>
            refine ⟨_, _, rfl, ?_⟩
            rw [← ht, Function.update_eq_self]
            exact h
        | called name password =>
            rw [ht] at hapart
            exact ht ▸ h.lookup ht hapart env
        | checked name password =>
            rw [ht] at hapart
            exact ht ▸ h.count ht hapart env
        | counted name password =>
            rw [ht] at hapart
            exact ht ▸ h.scan ht hapart env
        | scanned roomId name password => exact ht ▸ h.store ht (hproper (by rw [ht]; rfl))
        | stored p roomId name password => exact ht ▸ h.link ht env
      obtain ⟨u, ph, hstep, hok⟩ := hmove
      exact ⟨_, by rw [Creates.step, hstep, Option.map_some], hok⟩

/-! ### Runs -/

/-- The room list is well formed: it is a list, its rooms have different names
and different ids, and there are `room_count` of them, at most `MAX_ROOMS`. -/
structure ListWellFormed (s : Server) (l : List Ptr) : Prop where
  list : Linked s.roomNext s.roomPrev s.roomHead l
  live : ∀ p ∈ l, ∃ r, s.roomMem p = some r
  names : ∀ p ∈ l, ∀ q ∈ l, ∀ r r', s.roomMem p = some r → s.roomMem q = some r' →
    r.roomName = r'.roomName → p = q
  ids : ∀ p ∈ l, ∀ q ∈ l, ∀ r r', s.roomMem p = some r → s.roomMem q = some r' →
    r.roomId = r'.roomId → p = q
  count : s.roomCount = l.length
  bound : s.roomCount ≤ maxRooms

theorem CreatesOk.wellFormed (h : CreatesOk s) : ∃ l, ListWellFormed s.server l := by
  obtain ⟨l, hok, _⟩ := h.rooms
  exact ⟨l,
    { list := hok.linked
      live := fun p hp => (hok.live p).mp hp
      names := fun p _ q _ r r' hp hq => hok.names p q r r' hp hq
      ids := fun p _ q _ r r' hp hq => h.ids p q r r' hp hq
      count := hok.count
      bound := by
        rw [hok.count]
        exact Int.ofNat_le.mpr hok.bound }⟩

/-- The workers before their first call. -/
def Creates.start (n : Nat) (s : Server) : Creates n := ⟨s, fun _ => .idle⟩

theorem CreatesOk.start {db : FileDb} {s : Server} {l : List Ptr} (h : ServerOk s l)
    (hrecords : RecordsOk db s) (n : Nat) : CreatesOk (Creates.start n s) where
  rooms := by
    refine ⟨l, h.rooms, ?_⟩
    simpa [Creates.start, CreatePhase.admitted] using h.rooms.bound
  ids := hrecords.ids_distinct
  recorded := by
    intro q r hq
    obtain ⟨rec', hrec, hactive, _⟩ := hrecords.record hq
    exact ⟨rec', hrec, hactive⟩
  each := fun _ => trivial
  apart := fun _ u _ => CreatePhase.apart_of_none rfl rfl rfl _

/-- **Concurrent calls keep the list well formed** as long as they stay apart.
The workers start in any state that operations have reached. -/
theorem creates_wellFormed (db : FileDb) (users : File) (ops : List (Op × Env))
    (h : Along Server.step Proper (Server.start db users) ops) (n : Nat) :
    ∃ s, run Server.step (Server.start db users) ops = some s ∧
      ∀ calls : List (CreateOp n),
        Along Creates.step (fun s o => CreatesProper s o ∧ CreatesApart s o) (Creates.start n s) calls →
        ∃ s', run Creates.step (Creates.start n s) calls = some s' ∧ ∃ l, ListWellFormed s'.server l := by
  obtain ⟨s, hrun, ⟨l, hok⟩, hrecords⟩ := serverRun_ok db users ops h
  refine ⟨s, hrun, ?_⟩
  intro calls hcalls
  obtain ⟨s', hs', hok'⟩ := run_invariant (fun s o hs ho => CreatesOk.step hs ho.1 ho.2)
    (CreatesOk.start hok hrecords n) hcalls
  exact ⟨s', hs', hok'.wellFormed⟩

/-- The steps of one call, with nothing in between. -/
def soloCall (name password : Bytes) (env : Env) : List (CreateOp 1) :=
  .call 0 name password :: List.replicate 5 (.step 0 env)

/-- The steps a call takes after it is made. -/
def createSteps (env : Env) : Nat → Server × CreatePhase → Option (Server × CreatePhase)
  | 0, x => some x
  | k + 1, x => (createStep env x.1 x.2).bind (createSteps env k)

theorem run_solo (env : Env) (k : Nat) (s : Creates 1) :
    (run Creates.step s (List.replicate k (.step 0 env))).map (fun s' => (s'.server, s'.phase 0)) =
      createSteps env k (s.server, s.phase 0) := by
  induction k generalizing s with
  | zero => rfl
  | succ k ih =>
      rw [List.replicate_succ, run, createSteps, Creates.step]
      cases hstep : createStep env s.server (s.phase 0) with
      | none => rfl
      | some out =>
          rw [Option.map_some, Option.bind_some, Option.bind_some, ih]
          simp only [Function.update_self]

/-- A call that has returned takes no more steps. -/
theorem createSteps_returned (env : Env) (k : Nat) (s : Server) (result : Int) :
    createSteps env k (s, .returned result) = some (s, .returned result) := by
  induction k with
  | zero => rfl
  | succ k ih => exact ih

/-- **One call on its own**, with its record written whole, is `room_create`. -/
theorem create_alone (env : Env) (s : Server) (name password : Bytes) (hw : env.wrote = [])
    (hs : s.wrote = []) :
    (run Creates.step (Creates.start 1 s) (soloCall name password env)).map
        (fun s' => (s'.server, s'.phase 0)) =
      (roomCreate env s name password).map fun out => (out.2, .returned out.1) := by
  have hcall : (Creates.start 1 s).step (.call 0 name password) =
      some ⟨s, Function.update (fun _ => .idle) 0 (.called name password)⟩ := rfl
  rw [soloCall, run, hcall, Option.bind_some, run_solo]
  simp only [Function.update_self]
  rw [createSteps, createStep, roomCreate]
  cases hfind : roomFindByName s name with
  | none => rfl
  | some found =>
      cases found with
      | some q => exact createSteps_returned env 4 s (-1)
      | none =>
          dsimp only
          rw [Option.bind_some, createSteps, createStep]
          by_cases hfull : (maxRooms : Int) ≤ s.roomCount
          · rw [if_pos hfull, if_pos hfull]
            exact createSteps_returned env 3 s (-2)
          · rw [if_neg hfull, if_neg hfull, Option.bind_some, createSteps, createStep]
            dsimp only
            rw [Option.bind_some, createSteps, createStep]
            cases hmalloc : env.malloc with
            | none => exact createSteps_returned env 1 _ (-3)
            | some p =>
                dsimp only
                split
                · rfl
                · rename_i hfits
                  obtain ⟨free, hfree⟩ : ∃ free, dbNextFreeRoomId s.db = free := ⟨_, rfl⟩
                  simp only [hfree, hw]
                  let s₁ : Server := { s with db := free.2, wrote := [] }
                  let r := newRoom free.1 name password
                  let w := s₁.writeRoom free.1 (newRecord env.stack free.1 name password)
                  have hs₁ : ({ s with db := free.2 } : Server) = s₁ := by
                    cases s
                    cases hs
                    rfl
                  have hw₁ : w.1 = true := writeRoom_complete (s := s₁) rfl _ _
                  have hw₂ : ((s₁.allocRoom p r).writeRoom free.1
                      (newRecord env.stack free.1 name password)) = (w.1, w.2.allocRoom p r) := rfl
                  rw [hs₁, hw₂, if_pos hw₁]
                  have hw₃ : (w.1, w.2.allocRoom p r).1 = true := hw₁
                  have hlink : createSteps env 1 (w.2, .stored p free.1 name password) =
                      ((w.2.allocRoom p r).linkRoom p).map fun u => (u, .returned free.1) := by
                    rw [createSteps, createStep]
                    cases (w.2.allocRoom p r).linkRoom p <;> rfl
                  rw [if_pos hw₃, Option.map_map]
                  exact hlink

/-! ### Two calls with one name -/

def firstCaller : Fin 2 := ⟨0, by decide⟩

def secondCaller : Fin 2 := ⟨1, by decide⟩

/-- Two workers create the lobby, the second after the first has returned. -/
def lobbyThenLobby : List (CreateOp 2) :=
  .call firstCaller (ascii "lobby") [] ::
    List.replicate 5 (.step firstCaller (completeEnv (some 1))) ++
  .call secondCaller (ascii "lobby") [] ::
    List.replicate 5 (.step secondCaller (completeEnv (some 2)))

/-- Two workers create the lobby, and both look up its name first. -/
def lobbyTwice : List (CreateOp 2) :=
  [.call firstCaller (ascii "lobby") [], .call secondCaller (ascii "lobby") [],
    .step firstCaller (completeEnv none), .step secondCaller (completeEnv none)] ++
  List.replicate 4 (.step firstCaller (completeEnv (some 1))) ++
  List.replicate 4 (.step secondCaller (completeEnv (some 2)))

/-- `CreatesProper`, computed. -/
def checkCreatesProper {n : Nat} (s : Creates n) : CreateOp n → Bool
  | .call _ name password => name.length < maxRoomNameLen && password.length < maxPasswordLen
  | .step t env =>
      !(s.phase t).scanning || env.malloc.all fun p => (s.server.roomMem p).isNone &&
        (List.finRange n).all fun u => (s.phase u).room.all fun x => x.1 ≠ p

theorem createsProper_of_check {n : Nat} (s : Creates n) (o : CreateOp n)
    (h : checkCreatesProper s o = true) : CreatesProper s o := by
  cases o with
  | call t name password => simpa [checkCreatesProper, CreatesProper] using h
  | step t env =>
      intro hscan p hp
      simp only [checkCreatesProper, hscan, hp, Option.all_some, Bool.not_true, Bool.false_or,
        Bool.and_eq_true, List.all_eq_true] at h
      refine ⟨by simpa using h.1, ?_⟩
      intro u q roomId hroom
      have hq := h.2 u (List.mem_finRange u)
      rw [hroom] at hq
      simpa using hq

/-- `CreatesApart`, computed. -/
def checkCreatesApart {n : Nat} (s : Creates n) : CreateOp n → Bool
  | .call _ _ _ => true
  | .step t _ =>
      match s.phase t with
      | .called name _ =>
          roomFindByName s.server name ≠ some none ||
            (List.finRange n).all fun u => (s.phase u).name ≠ some name
      | .checked _ _ => s.server.roomCount + (∑ u, (s.phase u).admitted : Nat) < maxRooms
      | .counted _ _ => (List.finRange n).all fun u => !(s.phase u).scanning
      | _ => true

theorem createsApart_of_check {n : Nat} (s : Creates n) (o : CreateOp n)
    (h : checkCreatesApart s o = true) : CreatesApart s o := by
  cases o with
  | call t name password => trivial
  | step t env =>
      simp only [checkCreatesApart] at h
      simp only [CreatesApart]
      cases ht : s.phase t with
      | called name password =>
          rw [ht] at h
          intro hfind u
          simp only [hfind, Bool.or_eq_true, List.all_eq_true] at h
          rcases h with h | h
          · simp at h
          · simpa using h u (List.mem_finRange u)
      | checked name password =>
          rw [ht] at h
          exact Or.inl (by simpa using h)
      | counted name password =>
          rw [ht] at h
          intro u
          simpa using List.all_eq_true.mp h u (List.mem_finRange u)
      | idle => trivial
      | scanned roomId name password => trivial
      | stored p roomId name password => trivial
      | returned result => trivial

/-- One after the other, the second call is refused. -/
theorem creates_wellFormed_lobby :
    (∃ s, run Creates.step (Creates.start 2 (Server.start emptyDb startTable)) lobbyThenLobby = some s ∧
      ∃ l, ListWellFormed s.server l) ∧
    ((run Creates.step (Creates.start 2 (Server.start emptyDb startTable)) lobbyThenLobby).map fun s =>
      s.server.roomCount) = some 1 := by
  obtain ⟨s, hrun, hcalls⟩ := creates_wellFormed emptyDb startTable [] trivial 2
  cases hrun
  refine ⟨hcalls lobbyThenLobby ?_, by decide +kernel⟩
  have hcheck : checkAlong Creates.step (fun s o => checkCreatesProper s o && checkCreatesApart s o)
      (Creates.start 2 (Server.start emptyDb startTable)) lobbyThenLobby = true := by decide +kernel
  refine along_of_checkAlong ?_ hcheck
  intro s o h
  rw [Bool.and_eq_true] at h
  exact ⟨createsProper_of_check s o h.1, createsApart_of_check s o h.2⟩

/-- Both find the name free, and both make a lobby. -/
theorem lobbyTwice_sameName :
    ¬ ∀ calls : List (CreateOp 2),
      Along Creates.step CreatesProper (Creates.start 2 (Server.start emptyDb startTable)) calls →
      ∃ s, run Creates.step (Creates.start 2 (Server.start emptyDb startTable)) calls = some s ∧
        ((∀ t, ∃ k, s.phase t = .returned k) → ∃ l, ListWellFormed s.server l) := by
  intro hall
  obtain ⟨s, hrun, hwell⟩ := hall lobbyTwice (along_of_checkAlong createsProper_of_check (by decide +kernel))
  have hresults : (run Creates.step (Creates.start 2 (Server.start emptyDb startTable)) lobbyTwice).map
      (fun s => (List.finRange 2).all fun t =>
        match s.phase t with
        | .returned _ => true
        | _ => false) = some true := by decide +kernel
  have hlinks : (run Creates.step (Creates.start 2 (Server.start emptyDb startTable)) lobbyTwice).map
      (fun s => (s.server.roomHead, s.server.roomNext 1)) = some (some 1, some 2) := by decide +kernel
  have hnames : (run Creates.step (Creates.start 2 (Server.start emptyDb startTable)) lobbyTwice).map
      (fun s => ((s.server.roomMem 1).map Room.roomName, (s.server.roomMem 2).map Room.roomName)) =
        some (some (ascii "lobby"), some (ascii "lobby")) := by decide +kernel
  rw [hrun, Option.map_some, Option.some.injEq] at hresults hlinks hnames
  obtain ⟨hhead, hnext⟩ := Prod.mk.inj hlinks
  obtain ⟨hname, hname'⟩ := Prod.mk.inj hnames
  have hreturned : ∀ t, ∃ k, s.phase t = .returned k := by
    intro t
    have ht := List.all_eq_true.mp hresults t (List.mem_finRange t)
    split at ht
    · rename_i k hk
      exact ⟨k, hk⟩
    · cases ht
  obtain ⟨l, hl⟩ := hwell hreturned
  obtain ⟨r, hr, hrname⟩ := Option.map_eq_some_iff.mp hname
  obtain ⟨r', hr', hrname'⟩ := Option.map_eq_some_iff.mp hname'
  have hlist : ∃ rest, l = 1 :: 2 :: rest := by
    have hstart := hl.list.head_eq
    have hsegment := hl.list.links
    rw [hhead] at hstart
    cases l with
    | nil => cases hstart
    | cons p l =>
        cases hstart
        have hsecond := hsegment.2.1
        rw [hnext] at hsecond
        cases l with
        | nil => cases hsecond
        | cons q l =>
            cases hsecond
            exact ⟨l, rfl⟩
  obtain ⟨rest, rfl⟩ := hlist
  have hsame := hl.names 1 (by simp) 2 (by simp) r r' hr hr' (by rw [hrname, hrname'])
  cases hsame

end EchoLink
