import EchoLink.RoomRecords

/-!
# Which commands make rooms

Only `CREATE` makes a room; the other handlers keep the rooms they find, with
their ids, or free them (`NoNewRooms`).  A new room gets the first id without
an active record, so the ids stay below `MAX_ROOMS` as long as rooms are
created while a record below `MAX_ROOMS` is free (`step_idsBelow`).
-/

namespace EchoLink

open CText RecordFile LinkedList PackedArray PartialMap Runs

variable {s t : Server}

/-- Every room of `t` is a room of `s`, with the same id. -/
def NoNewRooms (s t : Server) : Prop :=
  ∀ q x, t.roomMem q = some x → ∃ y, s.roomMem q = some y ∧ y.roomId = x.roomId

theorem NoNewRooms.of_mem (h : t.roomMem = s.roomMem) : NoNewRooms s t := by
  intro q x hq
  rw [h] at hq
  exact ⟨x, hq, rfl⟩

theorem NoNewRooms.trans {u : Server} (h : NoNewRooms s t) (h' : NoNewRooms t u) : NoNewRooms s u := by
  intro q x hq
  obtain ⟨y, hy, hyx⟩ := h' q x hq
  obtain ⟨z, hz, hzy⟩ := h q y hy
  exact ⟨z, hz, hzy.trans hyx⟩

theorem NoNewRooms.setRoom {p : Ptr} {r r' : Room} (hr : s.roomMem p = some r)
    (hid : r'.roomId = r.roomId) : NoNewRooms s (s.setRoom p r') := by
  intro q x hq
  rcases update_some_cases hq with ⟨rfl, rfl⟩ | ⟨_, hq⟩
  · exact ⟨r, hr, hid.symm⟩
  · exact ⟨x, hq, rfl⟩

theorem NoNewRooms.free {p : Ptr} (h : t.roomMem = Function.update s.roomMem p none) :
    NoNewRooms s t := by
  intro q x hq
  rw [h] at hq
  exact ⟨x, (update_none_cases hq).2, rfl⟩

theorem roomDelete_noNew {roomId : Nat} {k : Int} (h : roomDelete s roomId = some (k, t)) :
    NoNewRooms s t := by
  unfold roomDelete at h
  split at h
  · cases h
  · cases h
    exact NoNewRooms.of_mem rfl
  · rename_i p _
    split at h
    · cases h
    · rename_i u hunlink
      have hu : u.roomMem = s.roomMem := by
        unfold Server.unlinkRoom at hunlink
        split at hunlink
        · rw [← Option.some.inj hunlink]
        · cases hunlink
      rw [← (Prod.mk.inj (Option.some.inj h)).2]
      refine NoNewRooms.free (p := p) ?_
      rw [Server.freeRoom, (deactivate_same u roomId).1.mem, hu]

theorem afterRemoval_noNew {p : Ptr} (h : s.afterRemoval p = some t) : NoNewRooms s t := by
  unfold Server.afterRemoval at h
  split at h
  · cases h
  · rename_i r _
    have hpersist := NoNewRooms.of_mem (persistCount_same s r.roomId r.participantCount).1.mem
    dsimp only at h
    split at h
    · obtain ⟨⟨k, u⟩, hdelete, hu⟩ := Option.map_eq_some_iff.mp h
      rw [← hu]
      exact hpersist.trans (roomDelete_noNew hdelete)
    · rw [← Option.some.inj h]
      exact hpersist

theorem Room.remove_id {r r' : Room} {c : Ptr} {isMute : Bool} (h : r.remove c isMute = some r') :
    r'.roomId = r.roomId := by
  unfold Room.remove at h
  split at h
  · cases h
  · rw [← Option.some.inj h]

theorem roomLeave_noNew {c : Ptr} {k : Int} (h : roomLeave s c = some (k, t)) : NoNewRooms s t := by
  unfold roomLeave at h
  split at h
  · cases h
  · rename_i cl _
    split at h
    · cases h
      exact NoNewRooms.of_mem rfl
    · rename_i p _
      split at h
      · cases h
      · rename_i r hr
        obtain ⟨u, hafter, hu⟩ := Option.map_eq_some_iff.mp h
        rw [← (Prod.mk.inj hu).2]
        cases hremove : r.remove c cl.isMute with
        | none =>
            rw [hremove] at hafter
            exact afterRemoval_noNew hafter
        | some r' =>
            rw [hremove] at hafter
            have hset : NoNewRooms s ((s.setRoom p r').setClient c { cl with currentRoom := none }) :=
              NoNewRooms.setRoom hr (Room.remove_id hremove)
            exact hset.trans (afterRemoval_noNew hafter)

theorem removeClientFromRoom_noNew {p c : Ptr} (h : removeClientFromRoom s p c = some t) :
    NoNewRooms s t := by
  unfold removeClientFromRoom at h
  split at h
  · rename_i r cl hr _
    split at h
    · rename_i r' hremove
      exact (NoNewRooms.setRoom hr (Room.remove_id hremove)).trans (afterRemoval_noNew h)
    · exact afterRemoval_noNew h
  · cases h

theorem enter_noNew {roomId : Nat} {password : Bytes} {c : Ptr} {k : Int}
    (h : s.enter roomId password c = some (k, t)) : NoNewRooms s t := by
  unfold Server.enter at h
  split at h
  · cases h
  · cases h
    exact NoNewRooms.of_mem rfl
  · rename_i p _
    split at h
    · rename_i r cl hr _
      split at h
      · cases h
        exact NoNewRooms.of_mem rfl
      · split at h
        · cases h
          exact NoNewRooms.of_mem rfl
        · rw [← (Prod.mk.inj (Option.some.inj h)).2]
          have hset : NoNewRooms s (s.setRoom p (r.add c)) := NoNewRooms.setRoom hr rfl
          exact hset.trans (NoNewRooms.of_mem (persistCount_same _ _ _).1.mem)
    · cases h

theorem roomJoin_noNew {roomId : Nat} {password : Bytes} {c : Ptr} {k : Int}
    (h : roomJoin s roomId password c = some (k, t)) : NoNewRooms s t := by
  unfold roomJoin at h
  split at h
  · cases h
  · split at h
    · exact enter_noNew h
    · split at h
      · cases h
      · rename_i out hleave
        exact (roomLeave_noNew (k := out.1) hleave).trans (enter_noNew h)

/-- The outcome of a handler that does not touch the rooms. -/
def KeepsMem (s : Server) (out : Option (Response × Server)) : Prop :=
  ∀ resp t, out = some (resp, t) → t.roomMem = s.roomMem

theorem KeepsMem.stuck : KeepsMem s none := by
  rintro resp t ⟨⟩

theorem KeepsMem.of_mem (h : t.roomMem = s.roomMem) (resp : Response) : KeepsMem s (some (resp, t)) := by
  rintro resp' t' ⟨⟩
  exact h

theorem KeepsMem.map {α : Type} {x : Option α} {f : α → Response × Server}
    (h : ∀ a, x = some a → (f a).2.roomMem = s.roomMem) : KeepsMem s (x.map f) := by
  intro resp t hout
  obtain ⟨a, ha, hf⟩ := Option.map_eq_some_iff.mp hout
  have hmem := h a ha
  rw [hf] at hmem
  exact hmem

/-- The outcome of a handler that makes no room. -/
def MakesNone (s : Server) (out : Option (Response × Server)) : Prop :=
  ∀ resp t, out = some (resp, t) → NoNewRooms s t

theorem MakesNone.stuck : MakesNone s none := by
  rintro resp t ⟨⟩

theorem MakesNone.of_mem (h : t.roomMem = s.roomMem) (resp : Response) :
    MakesNone s (some (resp, t)) := by
  rintro resp' t' ⟨⟩
  exact NoNewRooms.of_mem h

theorem KeepsMem.makesNone {out : Option (Response × Server)} (h : KeepsMem s out) : MakesNone s out := by
  intro resp t hout
  exact NoNewRooms.of_mem (h resp t hout)

theorem MakesNone.map {α : Type} {x : Option α} {f : α → Response × Server}
    (h : ∀ a, x = some a → NoNewRooms s (f a).2) : MakesNone s (x.map f) := by
  intro resp t hout
  obtain ⟨a, ha, hf⟩ := Option.map_eq_some_iff.mp hout
  have hnew := h a ha
  rw [hf] at hnew
  exact hnew

variable {c : Ptr}

theorem handleLogin_keepsMem (s : Server) (c : Ptr) (args : Option Bytes) :
    KeepsMem s (handleLogin s c args) := by
  unfold handleLogin
  split
  · exact KeepsMem.stuck
  · split
    · exact KeepsMem.of_mem rfl _
    · dsimp only
      split
      · exact KeepsMem.of_mem rfl _
      · split
        · exact KeepsMem.of_mem rfl _
        · exact KeepsMem.of_mem rfl _

theorem handleRegister_keepsMem (s : Server) (c : Ptr) (args : Option Bytes) :
    KeepsMem s (handleRegister s c args) := by
  unfold handleRegister
  split
  · exact KeepsMem.stuck
  · split
    · exact KeepsMem.of_mem rfl _
    · dsimp only
      split
      · exact KeepsMem.of_mem rfl _
      · split
        · exact KeepsMem.of_mem rfl _
        · exact KeepsMem.of_mem rfl _

theorem handleLogout_makesNone (s : Server) (c : Ptr) : MakesNone s (handleLogout s c) := by
  unfold handleLogout
  split
  · exact MakesNone.stuck
  · rename_i cl _
    split
    · exact MakesNone.of_mem rfl _
    · split
      · exact MakesNone.stuck
      · rename_i u hleave
        have hu : NoNewRooms s u := by
          split at hleave
          · cases hleave
            exact NoNewRooms.of_mem rfl
          · obtain ⟨⟨k, u'⟩, hout, rfl⟩ := Option.map_eq_some_iff.mp hleave
            exact roomLeave_noNew hout
        split
        · exact MakesNone.stuck
        · rintro resp t ⟨⟩
          exact hu.trans (NoNewRooms.of_mem rfl)

theorem promoteLoop_roomMem {target : Bytes} {role : Role} {is : List (Fin maxClients)}
    (h : promoteLoop target role is s = some t) : t.roomMem = s.roomMem := by
  induction is generalizing s with
  | nil =>
      cases h
      rfl
  | cons i is ih =>
      rw [promoteLoop] at h
      split at h
      · exact ih h
      · split at h
        · cases h
        · split at h
          · have hrest := ih h
            exact hrest
          · exact ih h

theorem handlePromote_keepsMem (s : Server) (c : Ptr) (args : Option Bytes) :
    KeepsMem s (handlePromote s c args) := by
  unfold handlePromote
  split
  · exact KeepsMem.stuck
  · split
    · exact KeepsMem.of_mem rfl _
    · split
      · exact KeepsMem.of_mem rfl _
      · dsimp only
        split
        · exact KeepsMem.of_mem rfl _
        · split
          · exact KeepsMem.of_mem rfl _
          · split
            · refine KeepsMem.map ?_
              intro u hloop
              have hmem := promoteLoop_roomMem hloop
              exact hmem
            · exact KeepsMem.of_mem rfl _

theorem handleJoinRoom_makesNone (s : Server) (c : Ptr) (args : Option Bytes) :
    MakesNone s (handleJoinRoom s c args) := by
  unfold handleJoinRoom
  split
  · exact MakesNone.stuck
  · split
    · exact MakesNone.of_mem rfl _
    · dsimp only
      split
      · exact MakesNone.of_mem rfl _
      · split
        · exact MakesNone.stuck
        · exact MakesNone.of_mem rfl _
        · split
          · exact MakesNone.stuck
          · split
            · exact MakesNone.stuck
            · rename_i j hjoin
              exact MakesNone.map fun _ _ => roomJoin_noNew (k := j.1) hjoin

theorem handleLeaveRoom_makesNone (s : Server) (c : Ptr) : MakesNone s (handleLeaveRoom s c) := by
  unfold handleLeaveRoom
  split
  · exact MakesNone.stuck
  · split
    · exact MakesNone.of_mem rfl _
    · split
      · exact MakesNone.of_mem rfl _
      · exact MakesNone.map fun r hleave => roomLeave_noNew (k := r.1) hleave

theorem handleListRooms_keepsMem (s : Server) (c : Ptr) : KeepsMem s (handleListRooms s c) := by
  unfold handleListRooms
  split
  · exact KeepsMem.stuck
  · split
    · exact KeepsMem.of_mem rfl _
    · exact KeepsMem.map fun _ _ => rfl

theorem moderationTarget_room {cl : Client} {command : Command} {args : Option Bytes} {p : Ptr}
    {r : Room} {name : Bytes} (h : moderationTarget s cl command args = some (.inr (p, r, name))) :
    s.roomMem p = some r := by
  unfold moderationTarget at h
  split at h
  · cases h
  · split at h
    · cases h
    · split at h
      · cases h
      · split at h
        · cases h
        · obtain ⟨r', hr', heq⟩ := Option.map_eq_some_iff.mp h
          cases heq
          exact hr'

theorem handleKick_makesNone (s : Server) (c : Ptr) (args : Option Bytes) :
    MakesNone s (handleKick s c args) := by
  unfold handleKick
  split
  · exact MakesNone.stuck
  · split
    · exact MakesNone.stuck
    · exact MakesNone.of_mem rfl _
    · split
      · exact MakesNone.stuck
      · exact MakesNone.of_mem rfl _
      · exact MakesNone.map fun r hleave => roomLeave_noNew (k := r.1) hleave

theorem handleMute_makesNone (s : Server) (c : Ptr) (args : Option Bytes) :
    MakesNone s (handleMute s c args) := by
  unfold handleMute
  split
  · exact MakesNone.stuck
  · split
    · exact MakesNone.stuck
    · exact MakesNone.of_mem rfl _
    · rename_i p r name htarget
      split
      · exact MakesNone.stuck
      · exact MakesNone.of_mem rfl _
      · split
        · exact MakesNone.stuck
        · rintro resp t ⟨⟩
          exact NoNewRooms.setRoom (s := s.setClient _ _) (moderationTarget_room htarget) rfl

theorem handleStatus_keepsMem (s : Server) (c : Ptr) : KeepsMem s (handleStatus s c) := by
  unfold handleStatus
  split
  · exact KeepsMem.stuck
  · exact KeepsMem.map fun _ _ => rfl

/-! ### `CREATE` -/

/-- The line is a `CREATE` command. -/
def IsCreate (line : Bytes) : Prop :=
  ∃ cmd args, splitCommand line = some (cmd, args) ∧ strcaseeq cmd (ascii "CREATE") = true

/-- A record below `MAX_ROOMS` is free. -/
def FreeRecord (db : FileDb) : Prop :=
  ∃ id < maxRooms, ∀ r, db.recordAt id = some r → r.isActive = 0

/-- The ids of the rooms are indices of `room_speaker_sem`. -/
def IdsBelow (s : Server) : Prop :=
  ∀ q x, s.roomMem q = some x → x.roomId < maxRooms

theorem NoNewRooms.idsBelow (h : NoNewRooms s t) (hs : IdsBelow s) : IdsBelow t := by
  intro q x hq
  obtain ⟨y, hy, hid⟩ := h q x hq
  rw [← hid]
  exact hs q y hy

theorem nextFree_lt {db : FileDb} (h : FreeRecord db) : (dbNextFreeRoomId db).1 < maxRooms := by
  obtain ⟨id, hid, hfree⟩ := h
  by_contra hge
  obtain ⟨r, hr, hactive⟩ := (dbNextFreeRoomId_first db).2.2 id (by omega)
  exact hactive (hfree r hr)

theorem linkRoom_roomMem {p : Ptr} (h : s.linkRoom p = some t) : t.roomMem = s.roomMem := by
  unfold Server.linkRoom at h
  split at h
  · rw [← Option.some.inj h]
  · split at h
    · rw [← Option.some.inj h]
    · cases h

/-- `room_create` with a record below `MAX_ROOMS` free, or with no room left. -/
theorem roomCreate_idsBelow {env : Env} {name password : Bytes} {k : Int}
    (h : roomCreate env s name password = some (k, t)) (hs : IdsBelow s)
    (hfree : s.roomCount < maxRooms → FreeRecord s.db) : IdsBelow t := by
  unfold roomCreate at h
  split at h
  · cases h
  · cases h
    exact hs
  · split at h
    · cases h
      exact hs
    · rename_i hroom
      have hlt := nextFree_lt (hfree (by omega))
      dsimp only at h
      split at h
      · cases h
        exact hs
      · rename_i p _
        split at h
        · cases h
        · have halloc : IdsBelow (Server.allocRoom { s with db := (dbNextFreeRoomId s.db).2 } p
              (newRoom (dbNextFreeRoomId s.db).1 name password)) := by
            intro q x hq
            rcases update_some_cases hq with ⟨_, rfl⟩ | ⟨_, hq⟩
            · exact hlt
            · exact hs q x hq
          split at h
          · obtain ⟨u, hlink, hu⟩ := Option.map_eq_some_iff.mp h
            cases hu
            have hmem := linkRoom_roomMem hlink
            exact (NoNewRooms.of_mem hmem).idsBelow halloc
          · cases h
            exact (NoNewRooms.free rfl).idsBelow halloc

theorem handleCreateRoom_idsBelow {env : Env} {args : Option Bytes} {resp : Response}
    (h : handleCreateRoom env s c args = some (resp, t)) (hs : IdsBelow s)
    (hfree : s.roomCount < maxRooms → FreeRecord s.db) : IdsBelow t := by
  unfold handleCreateRoom at h
  split at h
  · cases h
  · split at h
    · cases h
      exact hs
    · split at h
      · cases h
        exact hs
      · dsimp only at h
        split at h
        · cases h
          exact hs
        · obtain ⟨⟨k, u⟩, hcreate, hout⟩ := Option.map_eq_some_iff.mp h
          cases hout
          exact roomCreate_idsBelow hcreate hs hfree

/-! ### Operations -/

theorem ite_makesNone {b : Prop} [Decidable b] {x y : Option (Response × Server)}
    (hx : MakesNone s x) (hy : MakesNone s y) : MakesNone s (if b then x else y) := by
  split
  · exact hx
  · exact hy

/-- **No other command makes a room.** -/
theorem dispatch_makesNone (env : Env) (s : Server) (c : Ptr) {cmd : Bytes} (args : Option Bytes)
    (hcmd : ¬ strcaseeq cmd (ascii "CREATE") = true) : MakesNone s (dispatch env s c cmd args) := by
  unfold dispatch
  refine ite_makesNone (handleLogin_keepsMem s c args).makesNone ?_
  refine ite_makesNone (handleRegister_keepsMem s c args).makesNone ?_
  refine ite_makesNone (handleLogout_makesNone s c) ?_
  rw [if_neg hcmd]
  refine ite_makesNone (handleJoinRoom_makesNone s c args) ?_
  refine ite_makesNone (handleLeaveRoom_makesNone s c) ?_
  refine ite_makesNone (handleListRooms_keepsMem s c).makesNone ?_
  refine ite_makesNone (handleKick_makesNone s c args) ?_
  refine ite_makesNone (handleMute_makesNone s c args) ?_
  refine ite_makesNone (handleStatus_keepsMem s c).makesNone ?_
  exact ite_makesNone (handlePromote_keepsMem s c args).makesNone (MakesNone.of_mem rfl _)

theorem dispatch_create {env : Env} {cmd : Bytes} {args : Option Bytes}
    (hcmd : strcaseeq cmd (ascii "CREATE") = true) {resp : Response}
    (h : dispatch env s c cmd args = some (resp, t)) :
    NoNewRooms s t ∨ handleCreateRoom env s c args = some (resp, t) := by
  unfold dispatch at h
  split at h
  · exact Or.inl ((handleLogin_keepsMem s c args).makesNone resp t h)
  · split at h
    · exact Or.inl ((handleRegister_keepsMem s c args).makesNone resp t h)
    · split at h
      · exact Or.inl (handleLogout_makesNone s c resp t h)
      · exact Or.inr h

theorem runTask_idsBelow {env : Env} {line : Bytes} {out : Option Response}
    (h : runTask env s c line = some (out, t)) (hs : IdsBelow s)
    (hfree : IsCreate line → s.roomCount < maxRooms → FreeRecord s.db) : IdsBelow t := by
  unfold runTask at h
  split at h
  · cases h
  · split at h
    · split at h
      · cases h
        exact (NoNewRooms.of_mem rfl).idsBelow hs
      · rename_i cmd args hline
        obtain ⟨⟨resp, u⟩, hdispatch, hout⟩ := Option.map_eq_some_iff.mp h
        cases hout
        by_cases hcmd : strcaseeq cmd (ascii "CREATE") = true
        · rcases dispatch_create hcmd hdispatch with hnone | hcreate
          · exact hnone.idsBelow hs
          · exact handleCreateRoom_idsBelow hcreate hs (hfree ⟨cmd, args, hline, hcmd⟩)
        · exact (dispatch_makesNone env s c args hcmd _ _ hdispatch).idsBelow hs
    · cases h
      exact hs

theorem acceptNewClient_roomMem (env : Env) (s : Server) (fd : Nat) :
    (acceptNewClient env s fd).roomMem = s.roomMem := by
  unfold acceptNewClient
  split
  · rfl
  · split <;> rfl

theorem disconnectClient_noNew {fd : Nat} (h : disconnectClient s fd = some t) : NoNewRooms s t := by
  unfold disconnectClient at h
  split at h
  · cases h
    exact NoNewRooms.of_mem rfl
  · split at h
    · cases h
      exact NoNewRooms.of_mem rfl
    · split at h
      · cases h
      · split at h
        · split at h
          · cases h
            exact NoNewRooms.of_mem rfl
          · obtain ⟨u, hremove, hu⟩ := Option.map_eq_some_iff.mp h
            cases hu
            exact (removeClientFromRoom_noNew hremove).trans (NoNewRooms.of_mem rfl)
        · cases h
          exact NoNewRooms.of_mem rfl

/-- A room is created only with a record below `MAX_ROOMS` free, or refused
because there is no room left. -/
def RoomForRecord (s : Server) (o : Op × Env) : Prop :=
  ∀ slot line, o.1 = .command slot line → IsCreate line → s.roomCount < maxRooms → FreeRecord s.db

/-- **One operation** keeps the ids below `MAX_ROOMS`. -/
theorem step_idsBelow {o : Op × Env} (h : s.step o = some t) (hs : IdsBelow s)
    (hfree : RoomForRecord s o) : IdsBelow t := by
  obtain ⟨op, env⟩ := o
  cases op with
  | accept fd =>
      cases h
      exact (NoNewRooms.of_mem (acceptNewClient_roomMem env _ fd)).idsBelow hs
  | disconnect fd =>
      exact (disconnectClient_noNew (s := { s with wrote := env.wrote }) h).idsBelow hs
  | command slot line =>
      simp only [Server.step] at h
      split at h
      · cases h
        exact hs
      · obtain ⟨⟨out, u⟩, htask, hu⟩ := Option.map_eq_some_iff.mp h
        cases hu
        exact runTask_idsBelow htask hs (hfree slot line rfl)

end EchoLink
