import EchoLink.ServiceRefinement
import EchoLink.TidyFiles

/-!
# The service over several runs of the server

A server that is stopped and started again keeps its accounts and nothing else
of the service; the rooms it had are gone, and their numbers are taken for good,
as their records stay active.  `Service.step` says this of the service, and the
server implements it through any number of restarts
(`server_refines_service`).

So what users see depends on nothing below the service: not on the addresses
`malloc` returns, nor on what uninitialised records hold, nor on how the files
came to be (`responses_depend_on_requests`).
-/

namespace EchoLink

open CText RecordFile LinkedList PackedArray Runs Simulation

variable {s t : Server} {l : List Ptr} {db₀ : FileDb} {rs : List UserRecord}

/-! ### The service -/

/-- The numbers of the rooms. -/
def Chat.ids (x : Chat) : Set Nat := { k | ∃ r ∈ x.rooms, r.roomId = k }

/-- The service with the room numbers that are taken for good. -/
structure Service where
  reserved : Set Nat
  chat : Chat

inductive Happening where
  | event (e : ChatEvent)
  | restart

noncomputable def Service.step (v : Service) : Happening → List (Fin maxClients × Response) × Service
  | .event e => ((v.chat.step v.reserved e).1, ⟨v.reserved, (v.chat.step v.reserved e).2⟩)
  | .restart => ([], ⟨v.reserved ∪ v.chat.ids, Chat.start v.chat.accounts⟩)

/-! ### The server -/

/-- What a server that starts on these files shows. -/
def serviceOf (db : FileDb) (users : File) : Service := ⟨reserved db, Chat.start (accounts users.data)⟩

def Server.service (s : Server) : Service := ⟨reserved s.db \ s.chat.ids, s.chat⟩

def HistoryOp.happening : HistoryOp → Happening
  | .op o => .event (Op.event o)
  | _ => .restart

def Server.historySent (s : Server) : HistoryOp → List (Fin maxClients × Response)
  | .op o => s.sent o
  | _ => []

/-- Ordinary operations and restarts, but no crash that damages the files. -/
def OrdinaryHistory (s : Server) : HistoryOp → Prop
  | .op o => Ordinary s o
  | .restart _ => True
  | .crash _ _ _ => False

/-- What holds of the server in every such history. -/
def InService (s : Server) : Prop := (∃ db₀, Serving db₀ s) ∧ TidyDb s.db

theorem RoomsOk.chat_ids (h : RoomsOk s l) (k : Nat) :
    k ∈ s.chat.ids ↔ ∃ q x, s.roomMem q = some x ∧ x.roomId = k := by
  rw [Chat.ids, Set.mem_ofPred_eq, h.chat_rooms]
  constructor
  · rintro ⟨R, hR, rfl⟩
    obtain ⟨q, -, hq⟩ := List.mem_filterMap.mp hR
    obtain ⟨x, hx, rfl⟩ := Option.map_eq_some_iff.mp hq
    exact ⟨q, x, hx, rfl⟩
  · rintro ⟨q, x, hx, rfl⟩
    exact ⟨s.chatRoom x, List.mem_filterMap.mpr ⟨q, h.mem_of_room hx, by rw [hx, Option.map_some]⟩, rfl⟩

/-- **The active records** are those of the start and those of the rooms. -/
theorem RecordsOk.reserved_eq (h : RecordsOk db₀ s) (hok : RoomsOk s l) :
    reserved s.db = reserved db₀ ∪ s.chat.ids ∧ ∀ k ∈ s.chat.ids, k ∉ reserved db₀ := by
  have hkept : ∀ k, k ∉ s.chat.ids → ∀ r : RoomRecord, r.isActive ≠ 0 →
      (s.db.recordAt k = some r ↔ db₀.recordAt k = some r) := by
    intro k hk
    apply h.kept k
    intro q i hi hid
    obtain ⟨x, hx, rfl⟩ := Option.map_eq_some_iff.mp hi
    exact hk ((hok.chat_ids k).mpr ⟨q, x, hx, hid⟩)
  have hspared : ∀ k ∈ s.chat.ids, k ∉ reserved db₀ := by
    intro k hk hres
    obtain ⟨q, x, hx, rfl⟩ := (hok.chat_ids k).mp hk
    obtain ⟨r, hr, hactive⟩ := hres
    exact h.spared q x.info r (roomInfo_of_room hx) hr hactive
  refine ⟨?_, hspared⟩
  ext k
  by_cases hk : k ∈ s.chat.ids
  · refine ⟨fun _ => Or.inr hk, fun _ => ?_⟩
    obtain ⟨q, x, hx, rfl⟩ := (hok.chat_ids k).mp hk
    obtain ⟨r, hr, hactive, -⟩ := h.record hx
    exact ⟨r, hr, hactive⟩
  · constructor
    · rintro ⟨r, hr, hactive⟩
      exact Or.inl ⟨r, (hkept k hk r hactive).mp hr, hactive⟩
    · intro hres
      obtain ⟨r, hr, hactive⟩ := hres.resolve_right hk
      exact ⟨r, (hkept k hk r hactive).mpr hr, hactive⟩

theorem Serving.service (h : Serving db₀ s) : s.service = ⟨reserved db₀, s.chat⟩ := by
  obtain ⟨l, hok⟩ := h.ok
  obtain ⟨hactive, hspared⟩ := h.records.reserved_eq hok.rooms
  rw [Server.service, hactive]
  congr 1
  ext k
  constructor
  · rintro ⟨hk, hnot⟩
    exact hk.resolve_right hnot
  · intro hk
    exact ⟨Or.inl hk, fun hids => hspared k hids hk⟩

/-- A restart keeps the accounts, and takes the numbers of the rooms. -/
theorem Serving.restart (h : Serving db₀ s) (htidy : TidyDb s.db) (junk : Nat → Int) :
    InService (s.restart junk) ∧
      (s.restart junk).service = ⟨reserved db₀ ∪ s.chat.ids, Chat.start s.chat.accounts⟩ := by
  obtain ⟨l, hok⟩ := h.ok
  obtain ⟨rs, hu⟩ := h.users
  obtain ⟨hdata, htidy'⟩ := htidy.restart junk
  have husers : TableOk (authInit (some s.users.data) userRecordSize).data rs := hu
  have hnew : Serving (EchoLink.restart junk s.db) (s.restart junk) := Serving.start _ husers
  refine ⟨⟨⟨_, hnew⟩, htidy'⟩, ?_⟩
  have hreserved : reserved (EchoLink.restart junk s.db) = reserved s.db := by
    rw [reserved, reserved, recordAt_of_data hdata]
  rw [hnew.service, hreserved, (h.records.reserved_eq hok.rooms).1]
  rfl

/-- **The server implements the service**, through restarts. -/
theorem server_implements_service :
    Implements Server.historyStep Server.historySent InService OrdinaryHistory Server.service HistoryOp.happening
      Service.step := by
  intro s o hs ho
  obtain ⟨⟨db₀, h⟩, htidy⟩ := hs
  cases o with
  | op o =>
      obtain ⟨t, ht, hserving, hsent, hchat⟩ := server_implements_chat db₀ s o h ho
      refine ⟨t, ht, ⟨⟨db₀, hserving⟩, step_tidy htidy ho.1.2 ht⟩, ?_, ?_⟩
      · rw [h.service]
        exact hsent
      · rw [hserving.service, h.service, hchat]
        rfl
  | restart junk =>
      obtain ⟨hnew, hservice⟩ := h.restart htidy junk
      refine ⟨s.restart junk, rfl, hnew, rfl, ?_⟩
      rw [hservice, h.service]
      rfl
  | crash db users junk => exact ho.elim

theorem InService.start {db : FileDb} {users : File} (hu : TableOk users.data rs) (hdb : TidyDb db) :
    InService (Server.start db users) ∧ (Server.start db users).service = serviceOf db users :=
  ⟨⟨⟨db, Serving.start db hu⟩, hdb⟩, (Serving.start db hu).service⟩

/-- `OrdinaryHistory` with the descriptors below `n` open, computed. -/
def checkHistory (n : Nat) (s : Server) : HistoryOp → Bool
  | .op o => checkOrdinary n s o
  | .restart _ => true
  | .crash _ _ _ => false

theorem history_of_check (n : Nat) (s : Server) (o : HistoryOp) (h : checkHistory n s o = true) :
    OrdinaryHistory s o := by
  cases o with
  | op o => exact ordinary_of_check n s o h
  | restart junk => trivial
  | crash db users junk => cases h

theorem emptyDb_tidy : TidyDb emptyDb where
  log := ⟨[], LogHolds.empty⟩
  oneLine := by
    intro k r hr
    have hnone : emptyDb.recordAt k = none := by simp [FileDb.recordAt, emptyDb, slot, roomRecordSize]
    rw [hnone] at hr
    cases hr

/-- The lobby is made, the server restarts, and the second user, who is known
still, finds no lobby. -/
def lobbyRestarted : List HistoryOp :=
  lobbyOps.map HistoryOp.op ++
    [.restart fun _ => 0, .op (.accept 5, completeEnv (some 1)),
      .op (.command firstSlot (ascii "LOGIN bob secret"), completeEnv none),
      .op (.command firstSlot (ascii "JOIN lobby"), completeEnv none)]

theorem lobbyRestarted_ordinary :
    Along Server.historyStep OrdinaryHistory (Server.start emptyDb startTable) lobbyRestarted :=
  along_of_checkAlong (history_of_check 5) (by decide +kernel)

/-- The history with other addresses and other bytes on the stack. -/
def lobbyElsewhere : List HistoryOp :=
  (lobbyOps.map fun o => HistoryOp.op (o.1, ⟨o.2.malloc.map fun p => 100 - 7 * p,
    { RoomRecord.zero with roomId := 99 }, []⟩)) ++
    [.restart fun k => k, .op (.accept 5, completeEnv (some 8)),
      .op (.command firstSlot (ascii "LOGIN bob secret"), completeEnv none),
      .op (.command firstSlot (ascii "JOIN lobby"), completeEnv none)]

theorem lobbyElsewhere_ordinary :
    Along Server.historyStep OrdinaryHistory (Server.start emptyDb startTable) lobbyElsewhere :=
  along_of_checkAlong (history_of_check 5) (by decide +kernel)

end EchoLink
