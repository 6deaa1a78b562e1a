import EchoLink.MixRoom
import EchoLink.RoomIds

/-!
# The number of active speakers

`active_speakers` of a room is set by the mixer to the number of speakers it has
found, and in between it is counted down when a client that is not muted leaves
and up and down when a client is unmuted and muted.  It is not counted up when a
client joins.  So it can fall below zero (`unheard_client_leaves`).

`SpeakerEvent` is what an operation can do to it, and `speakerEvent` says which
of the operations do it.  In every run of operations, datagrams and ticks whose
events find room to count, every live room has a number of speakers between zero
and the number of its participants (`speakers_within`).
-/

namespace EchoLink

open CText RecordFile LinkedList PackedArray PartialMap Runs

/-! ### What changes the number -/

/-- A client is taken out of its room, or its mute is turned over in a room. -/
inductive SpeakerEvent where
  | leaves (c : Ptr)
  | toggles (c p : Ptr)

/-- The participant that a moderation command finds. -/
def moderated (s : Server) (cl : Client) (command : Command) (args : Option Bytes) : Option (Ptr × Ptr) :=
  match moderationTarget s cl command args with
  | some (.inr (p, r, name)) =>
      match findTarget s name r.members with
      | some (some target) => some (target, p)
      | _ => none
  | _ => none

/-- The event of a command, if its handler gets as far. -/
def commandEvent (s : Server) (c : Ptr) (cl : Client) (cmd : Bytes) (args : Option Bytes) :
    Option SpeakerEvent :=
  if cl.userId = -1 then none
  else if strcaseeq cmd (ascii "LOGOUT") then some (.leaves c)
  else if strcaseeq cmd (ascii "JOIN") then
    match roomFindByName s (scanPair 31 63 args).1 with
    | some (some _) => some (.leaves c)
    | _ => none
  else if strcaseeq cmd (ascii "LEAVE") then some (.leaves c)
  else if strcaseeq cmd (ascii "KICK") then
    (moderated s cl .kick args).map fun x => .leaves x.1
  else if strcaseeq cmd (ascii "MUTE") then
    (moderated s cl .mute args).map fun x => .toggles x.1 x.2
  else none

/-- The client that `disconnect_client` removes. -/
def Server.disconnected (s : Server) (fd : Nat) : Option Ptr :=
  (if fd < fdMapSize then s.fdToSlot fd else none).bind fun slot =>
    (s.clients slot).bind fun c => (s.clientMem c).bind fun cl => if cl.fd = fd then some c else none

/-- The event of an operation. -/
def Server.speakerEvent (s : Server) : Op → Option SpeakerEvent
  | .accept _ => none
  | .disconnect fd => (s.disconnected fd).map .leaves
  | .command slot line =>
      (s.clients slot).bind fun c => (s.clientMem c).bind fun cl => (splitCommand line).bind fun x =>
        commandEvent s c cl x.1 x.2

/-- The number can be counted down for a client that is not muted, and for one
that is muted there is a participant too many. -/
def RoomToCount (cl : Client) (r : Room) : Prop :=
  if cl.isMute then r.activeSpeakers < r.participantCount else 1 ≤ r.activeSpeakers

/-- The event finds room to count.  The last participant takes the room along. -/
def CanCount (s : Server) : SpeakerEvent → Prop
  | .leaves c => ∀ cl ∈ s.clientMem c, ∀ p ∈ cl.currentRoom, ∀ r ∈ s.roomMem p,
      r.participantCount ≠ 1 → RoomToCount cl r
  | .toggles c p => ∀ cl ∈ s.clientMem c, ∀ r ∈ s.roomMem p, RoomToCount cl r

/-- The event of the operation, if there is one, finds room to count. -/
def EventsCanCount (m : Show) : ShowOp → Prop
  | .op o => ∀ e ∈ m.mixer.server.speakerEvent o.1, CanCount m.mixer.server e
  | _ => True

/-- Every room has a number of speakers between zero and the number of its
participants. -/
def SpeakersWithin (s : Server) : Prop :=
  ∀ p r, s.roomMem p = some r → 0 ≤ r.activeSpeakers ∧ r.activeSpeakers ≤ r.participantCount

variable {s t : Server} {l : List Ptr} {c p : Ptr} {cl : Client} {r r' : Room} {env : Env} {args : Option Bytes}

/-! ### Rooms one at a time -/

theorem SpeakersWithin.of_same (h : SpeakersWithin s) (hmem : t.roomMem = s.roomMem) : SpeakersWithin t := by
  intro q x hx
  rw [hmem] at hx
  exact h q x hx

/-- One room is changed, or goes. -/
theorem SpeakersWithin.update (h : SpeakersWithin s) {x : Option Room}
    (hmem : t.roomMem = Function.update s.roomMem p x)
    (hx : ∀ r, x = some r → 0 ≤ r.activeSpeakers ∧ r.activeSpeakers ≤ r.participantCount) : SpeakersWithin t := by
  intro q y hy
  rw [hmem] at hy
  by_cases hqp : q = p
  · rw [hqp, Function.update_self] at hy
    exact hx y hy
  · rw [Function.update_of_ne hqp] at hy
    exact h q y hy

theorem Room.remove_eq {isMute : Bool} (h : r.remove c isMute = some r') :
    r'.participantCount = r.participantCount - 1 ∧
      r'.activeSpeakers = if isMute then r.activeSpeakers else r.activeSpeakers - 1 := by
  unfold Room.remove at h
  split at h
  · cases h
  · rw [← Option.some.inj h]
    exact ⟨rfl, rfl⟩

/-- **A participant is removed.** -/
theorem SpeakersWithin.removed (h : SpeakersWithin s) (hr : s.roomMem p = some r)
    (hremove : r.remove c cl.isMute = some r')
    (hmem : t.roomMem = Function.update s.roomMem p (if r'.participantCount = 0 then none else some r'))
    (hcount : r.participantCount ≠ 1 → RoomToCount cl r) : SpeakersWithin t := by
  refine h.update hmem ?_
  intro x hx
  split at hx
  · cases hx
  · rename_i hsome
    obtain rfl := Option.some.inj hx
    obtain ⟨hparticipants, hspeakers⟩ := Room.remove_eq hremove
    have hroom := hcount (by omega)
    have hbounds := h p r hr
    unfold RoomToCount at hroom
    split at hroom
    · rename_i hmute
      rw [if_pos hmute] at hspeakers
      omega
    · rename_i hmute
      rw [if_neg hmute] at hspeakers
      omega

/-- **`room_leave`.** -/
theorem SpeakersWithin.roomLeave (hw : SpeakersWithin s) (h : ServerOk s l) (hc : s.Holds c cl)
    (hcan : CanCount s (.leaves c)) {k : Int} (hleave : EchoLink.roomLeave s c = some (k, t)) : SpeakersWithin t := by
  cases hp : cl.currentRoom with
  | none =>
      simp only [EchoLink.roomLeave, hc.2, hp] at hleave
      cases hleave
      exact hw
  | some p =>
      obtain ⟨r, hr, hmem⟩ := h.in_room hc hp
      obtain ⟨t', _, r', hcode, _, hremove, hremoved⟩ := h.rooms.roomLeave hc.2 hp hr hmem
      rw [hleave, Option.some.injEq] at hcode
      obtain ⟨rfl, rfl⟩ := Prod.mk.inj hcode
      exact hw.removed hr hremove hremoved.roomMem (hcan cl hc.2 p hp r hr)

/-- A client that enters makes the room larger. -/
theorem SpeakersWithin.enter (hw : SpeakersWithin s) {roomId : Nat} {password : Bytes} {k : Int}
    (henter : s.enter roomId password c = some (k, t)) : SpeakersWithin t := by
  unfold Server.enter at henter
  split at henter
  · cases henter
  · cases henter
    exact hw
  · rename_i q _
    split at henter
    · rename_i r cl hr hcl
      split at henter
      · cases henter
        exact hw
      · split at henter
        · cases henter
          exact hw
        · cases henter
          refine hw.update (p := q) (x := some (r.add c)) (persistCount_same _ _ _).1.mem ?_
          intro x hx
          obtain rfl := Option.some.inj hx
          have hbounds := hw q r hr
          have hspeakers : (r.add c).activeSpeakers = r.activeSpeakers := rfl
          have hcount : (r.add c).participantCount = r.participantCount + 1 := rfl
          omega
    · cases henter

theorem SpeakersWithin.roomJoin (hw : SpeakersWithin s) (h : ServerOk s l) (hc : s.Holds c cl)
    (hcan : CanCount s (.leaves c)) {roomId : Nat} {password : Bytes} {k : Int}
    (hjoin : EchoLink.roomJoin s roomId password c = some (k, t)) : SpeakersWithin t := by
  simp only [EchoLink.roomJoin, hc.2] at hjoin
  split at hjoin
  · exact hw.enter hjoin
  · split at hjoin
    · cases hjoin
    · rename_i out hleave
      exact (hw.roomLeave (k := out.1) h hc hcan hleave).enter hjoin

/-- A new room has no speakers and no participants. -/
theorem SpeakersWithin.roomCreate (hw : SpeakersWithin s) {name password : Bytes} {k : Int}
    (hcreate : EchoLink.roomCreate env s name password = some (k, t)) : SpeakersWithin t := by
  unfold EchoLink.roomCreate at hcreate
  split at hcreate
  · cases hcreate
  · cases hcreate
    exact hw
  · split at hcreate
    · cases hcreate
      exact hw
    · dsimp only at hcreate
      split at hcreate
      · cases hcreate
        exact hw
      · rename_i q _
        split at hcreate
        · cases hcreate
        · have halloc : SpeakersWithin (Server.allocRoom { s with db := (dbNextFreeRoomId s.db).2 } q
              (newRoom (dbNextFreeRoomId s.db).1 name password)) := by
            refine hw.update (p := q) rfl ?_
            intro x hx
            obtain rfl := Option.some.inj hx
            exact ⟨Int.le_refl 0, Int.le_refl 0⟩
          split at hcreate
          · obtain ⟨u, hlink, hu⟩ := Option.map_eq_some_iff.mp hcreate
            cases hu
            have hmem := linkRoom_roomMem hlink
            exact halloc.of_same hmem
          · cases hcreate
            exact halloc.update (p := q) (x := none) rfl fun x hx => absurd hx.symm (Option.some_ne_none x)

/-- A mute that is turned over. -/
theorem SpeakersWithin.toggle (hw : SpeakersWithin s) (hr : s.roomMem p = some r) (hroom : RoomToCount cl r)
    (hmem : t.roomMem = Function.update s.roomMem p (some { r with
      activeSpeakers := if !cl.isMute then r.activeSpeakers - 1 else r.activeSpeakers + 1 })) :
    SpeakersWithin t := by
  refine hw.update hmem ?_
  intro x hx
  obtain rfl := Option.some.inj hx
  have hbounds := hw p r hr
  unfold RoomToCount at hroom
  cases hmute : cl.isMute with
  | true =>
      rw [hmute] at hroom
      simp only [if_true] at hroom
      simp only [Bool.not_true, Bool.false_eq_true, if_false]
      omega
  | false =>
      rw [hmute] at hroom
      simp only [Bool.false_eq_true, if_false] at hroom
      simp only [Bool.not_false, if_true]
      omega

/-- **`remove_client_from_room`.** -/
theorem SpeakersWithin.removeClientFromRoom (hw : SpeakersWithin s) (h : ServerOk s l) (hc : s.Holds c cl)
    (hp : cl.currentRoom = some p) (hcan : CanCount s (.leaves c))
    (hremove : EchoLink.removeClientFromRoom s p c = some t) : SpeakersWithin t := by
  obtain ⟨r, hr, hmem⟩ := h.in_room hc hp
  obtain ⟨t', _, r', hcode, _, hr', hremoved⟩ := h.rooms.removeClientFromRoom hc.2 hr hmem
  rw [hremove, Option.some.injEq] at hcode
  subst hcode
  exact hw.removed hr hr' hremoved.roomMem (hcan cl hc.2 p hp r hr)

/-! ### Commands -/

/-- The outcome of a handler has the numbers in their bounds. -/
def StaysWithin (out : Option (Response × Server)) : Prop :=
  ∀ resp t, out = some (resp, t) → SpeakersWithin t

theorem KeepsMem.staysWithin {out : Option (Response × Server)} (h : KeepsMem s out) (hw : SpeakersWithin s) :
    StaysWithin out := by
  intro resp t hout
  exact hw.of_same (h resp t hout)

theorem SpeakersWithin.refused (hw : SpeakersWithin s) (resp : Response) : StaysWithin (some (resp, s)) :=
  (KeepsMem.of_mem rfl resp).staysWithin hw

theorem SpeakersWithin.stuck (hw : SpeakersWithin s) : StaysWithin none :=
  (KeepsMem.stuck (s := s)).staysWithin hw

theorem StaysWithin.map {α : Type} {x : Option α} {f : α → Response × Server}
    (h : ∀ a, x = some a → SpeakersWithin (f a).2) : StaysWithin (x.map f) := by
  intro resp t hout
  obtain ⟨a, ha, hf⟩ := Option.map_eq_some_iff.mp hout
  have hwithin := h a ha
  rw [hf] at hwithin
  exact hwithin

theorem handleLogout_within (hw : SpeakersWithin s) (h : ServerOk s l) (hc : s.Holds c cl)
    (hcan : cl.userId ≠ -1 → CanCount s (.leaves c)) : StaysWithin (handleLogout s c) := by
  simp only [handleLogout, hc.2]
  split
  · exact hw.refused _
  · rename_i hin
    split
    · exact hw.stuck
    · rename_i u hleave
      have hu : SpeakersWithin u := by
        split at hleave
        · cases hleave
          exact hw
        · obtain ⟨⟨k, u'⟩, hout, rfl⟩ := Option.map_eq_some_iff.mp hleave
          exact hw.roomLeave h hc (hcan hin) hout
      split
      · exact hw.stuck
      · rintro resp t ⟨⟩
        exact hu.of_same rfl

theorem handleCreateRoom_within (hw : SpeakersWithin s) (env : Env) (c : Ptr) (args : Option Bytes) :
    StaysWithin (handleCreateRoom env s c args) := by
  unfold handleCreateRoom
  split
  · exact hw.stuck
  · split
    · exact hw.refused _
    · split
      · exact hw.refused _
      · dsimp only
        split
        · exact hw.refused _
        · apply StaysWithin.map
          intro out hcreate
          exact hw.roomCreate (k := out.1) hcreate

theorem handleJoinRoom_within (hw : SpeakersWithin s) (h : ServerOk s l) (hc : s.Holds c cl)
    (hcan : cl.userId ≠ -1 → ∀ q, roomFindByName s (scanPair 31 63 args).1 = some (some q) →
      CanCount s (.leaves c)) : StaysWithin (handleJoinRoom s c args) := by
  simp only [handleJoinRoom, hc.2]
  split
  · exact hw.refused _
  · rename_i hin
    split
    · exact hw.refused _
    · split
      · exact hw.stuck
      · exact hw.refused _
      · rename_i q hfind
        split
        · exact hw.stuck
        · split
          · exact hw.stuck
          · rename_i j hjoin
            apply StaysWithin.map
            intro resp _
            exact hw.roomJoin (k := j.1) h hc (hcan hin q hfind) hjoin

theorem handleLeaveRoom_within (hw : SpeakersWithin s) (h : ServerOk s l) (hc : s.Holds c cl)
    (hcan : cl.userId ≠ -1 → CanCount s (.leaves c)) : StaysWithin (handleLeaveRoom s c) := by
  simp only [handleLeaveRoom, hc.2]
  split
  · exact hw.refused _
  · rename_i hin
    split
    · exact hw.refused _
    · apply StaysWithin.map
      intro out hleave
      exact hw.roomLeave (k := out.1) h hc (hcan hin) hleave

/-- What `KICK` and `MUTE` do to the participant they find. -/
theorem moderated_cases (h : ServerOk s l) (hc : s.Holds c cl) (command : Command) (args : Option Bytes) :
    (∃ resp, moderationTarget s cl command args = some (.inl resp)) ∨
      ∃ p r, moderationTarget s cl command args = some (.inr (p, r, scanName args)) ∧ s.roomMem p = some r ∧
        (findTarget s (scanName args) r.members = some none ∨
          ∃ d dl, findTarget s (scanName args) r.members = some (some d) ∧ s.Holds d dl ∧
            moderated s cl command args = some (d, p)) := by
  rcases moderationTarget_cases h hc command args with hresp | ⟨p, r, htarget, hr, _⟩
  · exact Or.inl hresp
  · refine Or.inr ⟨p, r, htarget, hr, ?_⟩
    rcases findTarget_some (scanName args) (h.members_held hr) with hnone | ⟨d, dl, hsome, hd, _⟩
    · exact Or.inl hnone
    · refine Or.inr ⟨d, dl, hsome, hd, ?_⟩
      simp only [moderated, htarget, hsome]

theorem handleKick_within (hw : SpeakersWithin s) (h : ServerOk s l) (hc : s.Holds c cl)
    (hcan : ∀ d p, moderated s cl .kick args = some (d, p) → CanCount s (.leaves d)) :
    StaysWithin (handleKick s c args) := by
  simp only [handleKick, hc.2]
  rcases moderated_cases h hc .kick args with
    ⟨resp, hresp⟩ | ⟨p, r, htarget, hr, hnone | ⟨d, dl, hsome, hd, hmod⟩⟩
  · rw [hresp]
    exact hw.refused _
  · rw [htarget]
    dsimp only
    rw [hnone]
    exact hw.refused _
  · rw [htarget]
    dsimp only
    rw [hsome]
    apply StaysWithin.map
    intro out hleave
    exact hw.roomLeave (k := out.1) h hd (hcan d p hmod) hleave

theorem handleMute_within (hw : SpeakersWithin s) (h : ServerOk s l) (hc : s.Holds c cl)
    (hcan : ∀ d p, moderated s cl .mute args = some (d, p) → CanCount s (.toggles d p)) :
    StaysWithin (handleMute s c args) := by
  simp only [handleMute, hc.2]
  rcases moderated_cases h hc .mute args with
    ⟨resp, hresp⟩ | ⟨p, r, htarget, hr, hnone | ⟨d, dl, hsome, hd, hmod⟩⟩
  · rw [hresp]
    exact hw.refused _
  · rw [htarget]
    dsimp only
    rw [hnone]
    exact hw.refused _
  · rw [htarget]
    dsimp only
    rw [hsome]
    dsimp only
    rw [hd.2]
    rintro resp t ⟨⟩
    exact hw.toggle hr (hcan d p hmod dl hd.2 r hr) rfl

theorem ite_within {b : Prop} [Decidable b] {x y : Option (Response × Server)}
    (hx : b → StaysWithin x) (hy : ¬ b → StaysWithin y) : StaysWithin (if b then x else y) := by
  split
  · rename_i hb
    exact hx hb
  · rename_i hb
    exact hy hb

theorem moderated_inside {command : Command} {x : Ptr × Ptr} (h : moderated s cl command args = some x) :
    cl.userId ≠ -1 := by
  intro hout
  simp only [moderated, moderationTarget, hout, if_true] at h
  cases h

/-- **A command** whose event finds room to count. -/
theorem dispatch_within (hw : SpeakersWithin s) (h : ServerOk s l) (hc : s.Holds c cl) (env : Env) {cmd : Bytes}
    (hcan : ∀ e ∈ commandEvent s c cl cmd args, CanCount s e) : StaysWithin (dispatch env s c cmd args) := by
  unfold dispatch
  refine ite_within (fun _ => (handleLogin_keepsMem s c args).staysWithin hw) fun _ => ?_
  refine ite_within (fun _ => (handleRegister_keepsMem s c args).staysWithin hw) fun _ => ?_
  refine ite_within (fun hcmd => handleLogout_within hw h hc ?_) fun hlogout => ?_
  · intro hin
    exact hcan _ (by simp only [commandEvent, if_neg hin, if_pos hcmd, Option.mem_some_iff])
  refine ite_within (fun _ => handleCreateRoom_within hw env c args) fun _ => ?_
  refine ite_within (fun hcmd => handleJoinRoom_within hw h hc ?_) fun hjoin => ?_
  · intro hin q hfind
    exact hcan _ (by simp only [commandEvent, if_neg hin, if_neg hlogout, if_pos hcmd, hfind, Option.mem_some_iff])
  refine ite_within (fun hcmd => handleLeaveRoom_within hw h hc ?_) fun hleave => ?_
  · intro hin
    exact hcan _ (by simp only [commandEvent, if_neg hin, if_neg hlogout, if_neg hjoin, if_pos hcmd,
      Option.mem_some_iff])
  refine ite_within (fun _ => (handleListRooms_keepsMem s c).staysWithin hw) fun _ => ?_
  refine ite_within (fun hcmd => handleKick_within hw h hc ?_) fun hkick => ?_
  · intro d p hmod
    exact hcan _ (by simp only [commandEvent, if_neg (moderated_inside hmod), if_neg hlogout, if_neg hjoin,
      if_neg hleave, if_pos hcmd, hmod, Option.map_some, Option.mem_some_iff])
  refine ite_within (fun hcmd => handleMute_within hw h hc ?_) fun _ => ?_
  · intro d p hmod
    exact hcan _ (by simp only [commandEvent, if_neg (moderated_inside hmod), if_neg hlogout, if_neg hjoin,
      if_neg hleave, if_neg hkick, if_pos hcmd, hmod, Option.map_some, Option.mem_some_iff])
  refine ite_within (fun _ => (handleStatus_keepsMem s c).staysWithin hw) fun _ => ?_
  exact ite_within (fun _ => (handlePromote_keepsMem s c args).staysWithin hw) fun _ => hw.refused _

/-! ### Operations -/

theorem disconnectClient_within (hw : SpeakersWithin s) (h : ServerOk s l) {fd : Nat}
    (hcan : ∀ c ∈ s.disconnected fd, CanCount s (.leaves c)) (hout : disconnectClient s fd = some t) :
    SpeakersWithin t := by
  rcases disconnectClient_cases h hout with hsame | ⟨slot, d, dl, p, u, hslot, hd, hheld, hfd, hp, hremove, hmem⟩
  · exact hw.of_same hsame
  · have hcount : CanCount s (.leaves d) := by
      apply hcan
      simp only [Server.disconnected, hslot, Option.bind_some, hd, hheld.2, if_pos hfd, Option.mem_some_iff]
    exact (hw.removeClientFromRoom h hheld hp hcount hremove).of_same hmem

theorem runTask_within (hw : SpeakersWithin s) (h : ServerOk s l) (hc : s.Holds c cl) {line : Bytes}
    (hcan : ∀ x ∈ splitCommand line, ∀ e ∈ commandEvent s c cl x.1 x.2, CanCount s e) {out : Option Response}
    (htask : runTask env s c line = some (out, t)) : SpeakersWithin t := by
  unfold runTask at htask
  rw [hc.2] at htask
  dsimp only at htask
  split at htask
  · split at htask
    · cases htask
      exact hw.of_same rfl
    · rename_i cmd args hline
      obtain ⟨⟨resp, u⟩, hdispatch, hu⟩ := Option.map_eq_some_iff.mp htask
      cases hu
      exact dispatch_within hw h hc env (hcan (cmd, args) hline) resp _ hdispatch
  · cases htask
    exact hw

theorem findTarget_wrote (s : Server) (wrote : List Nat) (name : Bytes) (ms : List Ptr) :
    findTarget { s with wrote } name ms = findTarget s name ms := by
  induction ms with
  | nil => rfl
  | cons d ms ih => simp only [findTarget, ih]

/-- Events do not depend on what the writes will do. -/
theorem commandEvent_wrote (s : Server) (wrote : List Nat) (c : Ptr) (cl : Client) (cmd : Bytes)
    (args : Option Bytes) : commandEvent { s with wrote } c cl cmd args = commandEvent s c cl cmd args := by
  have hmod : ∀ command, moderated { s with wrote } cl command args = moderated s cl command args := by
    intro command
    simp only [moderated, moderationTarget, findTarget_wrote]
  have hfind : roomFindByName { s with wrote } (scanPair 31 63 args).1 =
      roomFindByName s (scanPair 31 63 args).1 := rfl
  simp only [commandEvent, hmod, hfind]

/-- **One operation** whose event finds room to count. -/
theorem step_within (hw : SpeakersWithin s) (h : ServerOk s l) {o : Op × Env}
    (hcan : ∀ e ∈ s.speakerEvent o.1, CanCount s e) (hstep : s.step o = some t) : SpeakersWithin t := by
  have hw₀ : SpeakersWithin { s with wrote := o.2.wrote } := hw.of_same rfl
  have h₀ := h.with_wrote o.2.wrote
  obtain ⟨op, env⟩ := o
  cases op with
  | accept fd =>
      cases hstep
      exact hw₀.of_same (acceptNewClient_roomMem env _ fd)
  | disconnect fd =>
      refine disconnectClient_within hw₀ h₀ ?_ hstep
      intro c hc
      refine hcan (.leaves c) ?_
      exact Option.mem_map_of_mem _ hc
  | command slot line =>
      simp only [Server.step] at hstep
      split at hstep
      · cases hstep
        exact hw₀
      · rename_i c hslot
        obtain ⟨cl, hc, _, _⟩ := h₀.clients.holds hslot
        obtain ⟨⟨out, u⟩, htask, hu⟩ := Option.map_eq_some_iff.mp hstep
        cases hu
        refine runTask_within hw₀ h₀ hc ?_ htask
        intro x hx e he
        rw [commandEvent_wrote] at he
        refine hcan e ?_
        have hclient : s.clientMem c = some cl := hc.2
        have hslot' : s.clients slot = some c := hslot
        simp only [Server.speakerEvent, hslot', hclient, Option.mem_def.mp hx, Option.bind_some]
        exact he

/-! ### Ticks -/

/-- The loop finds at most one speaker for each participant. -/
theorem collect_length {roomId : Nat} {ps : List (Option Ptr)} {out out' : Collected}
    (h : collect s roomId ps out = some out') : out'.speakers.length ≤ out.speakers.length + ps.length := by
  induction ps generalizing out with
  | nil =>
      cases h
      exact Nat.le_refl _
  | cons p rest ih =>
      have hskip : collect s roomId rest out = some out' →
          out'.speakers.length ≤ out.speakers.length + (p :: rest).length := by
        intro hout
        have hrest := ih hout
        simp only [List.length_cons]
        omega
      cases p with
      | none => exact hskip h
      | some c =>
          simp only [collect] at h
          split at h
          · cases h
          · rename_i speaker _
            split at h
            · exact hskip h
            · split at h
              · cases h
                exact Nat.le_add_right _ _
              · split at h
                · split at h
                  · exact hskip h
                  · have hrest := ih h
                    have hone : (out.audio.speakerOf speaker.slot).length ≤ 1 := by
                      rw [speakerOf_length]
                      split <;> omega
                    simp only [List.length_append, List.length_cons] at hrest ⊢
                    omega
                · cases h

theorem mixRoom_within {m m' : Mixer} {sent : List Sent} (hw : SpeakersWithin m.server)
    (h : mixRoom m p = some (m', sent)) : SpeakersWithin m'.server := by
  unfold mixRoom at h
  split at h
  · cases h
  · rename_i r hr
    split at h
    · cases h
    · rename_i out hout
      obtain ⟨sent', _, hpair⟩ := Option.map_eq_some_iff.mp h
      obtain ⟨rfl, rfl⟩ := Prod.mk.inj hpair
      refine hw.update (p := p) rfl ?_
      intro x hx
      obtain rfl := Option.some.inj hx
      have hlength := collect_length hout
      simp only [Room.snapshot, List.length_map, List.length_range, List.length_nil] at hlength
      dsimp only
      omega

theorem mixRooms_within {fuel : Nat} {head : Option Ptr} {m m' : Mixer} {sent : List Sent}
    (hw : SpeakersWithin m.server) (h : mixRooms fuel head m = some (m', sent)) : SpeakersWithin m'.server := by
  induction fuel generalizing head m m' sent with
  | zero => cases h
  | succ fuel ih =>
      cases head with
      | none =>
          cases h
          exact hw
      | some p =>
          simp only [mixRooms] at h
          split at h
          · cases h
          · split at h
            · split at h
              · cases h
              · rename_i out hroom
                obtain ⟨rest, hrest, hpair⟩ := Option.map_eq_some_iff.mp h
                obtain ⟨rfl, rfl⟩ := Prod.mk.inj hpair
                have hfirst : SpeakersWithin out.1.server := mixRoom_within hw hroom
                exact ih hfirst hrest
            · exact ih hw h

/-- **A tick** counts afresh. -/
theorem tick_within {m : Mixer} {out : Tick} (hw : SpeakersWithin m.server) (h : m.tick = some out) :
    SpeakersWithin out.mixer.server := by
  unfold Mixer.tick at h
  split at h
  · cases h
  · rename_i audio filed _
    obtain ⟨⟨m', sent⟩, hrooms, rfl⟩ := Option.map_eq_some_iff.mp h
    exact mixRooms_within (m := { m with audio := audio }) hw hrooms

/-! ### Whole runs -/

/-- **One step** of the server and its mixer. -/
theorem Show.step_within {m m' : Show} {o : ShowOp} (hok : ∃ l, ServerOk m.mixer.server l)
    (hw : SpeakersWithin m.mixer.server) (hcan : EventsCanCount m o) (hstep : m.step o = some m') :
    SpeakersWithin m'.mixer.server := by
  obtain ⟨l, hok⟩ := hok
  cases o with
  | op o =>
      obtain ⟨s', hs', rfl⟩ := Option.map_eq_some_iff.mp hstep
      exact EchoLink.step_within hw hok hcan hs'
  | datagram bytes stale =>
      cases hstep
      have hserver := (datagram_same m.mixer bytes stale).1
      exact hw.of_same (by rw [hserver])
  | tick =>
      obtain ⟨t, ht, rfl⟩ := Option.map_eq_some_iff.mp hstep
      exact tick_within hw ht

/-- **The numbers of speakers stay in their bounds** in every run of operations,
datagrams and ticks in which each client that leaves a room, or has its mute
turned over, finds room to count. -/
theorem speakers_within (db : FileDb) (users : File) (ops : List ShowOp)
    (h : Along Show.step (fun m o => ShowFresh m o ∧ EventsCanCount m o) (Show.start db users) ops) :
    ∀ m, run Show.step (Show.start db users) ops = some m → SpeakersWithin m.mixer.server := by
  intro m hrun
  have hinv : (∃ l, ServerOk m.mixer.server l) ∧ SpeakersWithin m.mixer.server := by
    refine run_some_invariant (I := fun m => (∃ l, ServerOk m.mixer.server l) ∧ SpeakersWithin m.mixer.server)
      ?_ ?_ h hrun
    · rintro m o m' ⟨hok, hw⟩ ⟨hfresh, hcan⟩ hstep
      exact ⟨Show.step_ok hok hfresh hstep, Show.step_within hok hw hcan hstep⟩
    · refine ⟨⟨[], ServerOk.start db users⟩, ?_⟩
      rintro p r ⟨⟩
  exact hinv.2

/-! ### The lobby -/

def bobSends (line : Bytes) : ShowOp := .op (.command secondSlot line, completeEnv none)

/-- Bob speaks in the lobby and is heard, then he leaves. -/
def heardThenGone : List ShowOp := lobbyTalk ++ [bobSends (ascii "LEAVE")]

/-- Bob leaves the lobby before anybody was heard. -/
def goneUnheard : List ShowOp := lobbyOps.map .op ++ [bobSends (ascii "LEAVE")]

instance (cl : Client) (r : Room) : Decidable (RoomToCount cl r) :=
  inferInstanceAs (Decidable (if cl.isMute then r.activeSpeakers < r.participantCount else 1 ≤ r.activeSpeakers))

instance (s : Server) : (e : SpeakerEvent) → Decidable (CanCount s e)
  | .leaves c => inferInstanceAs (Decidable (∀ cl ∈ s.clientMem c, ∀ p ∈ cl.currentRoom, ∀ r ∈ s.roomMem p,
      r.participantCount ≠ 1 → RoomToCount cl r))
  | .toggles c p => inferInstanceAs (Decidable (∀ cl ∈ s.clientMem c, ∀ r ∈ s.roomMem p, RoomToCount cl r))

instance (m : Show) : (o : ShowOp) → Decidable (EventsCanCount m o)
  | .op o => inferInstanceAs (Decidable (∀ e ∈ m.mixer.server.speakerEvent o.1, CanCount m.mixer.server e))
  | .datagram _ _ => inferInstanceAs (Decidable True)
  | .tick => inferInstanceAs (Decidable True)

/-- The numbers of speakers and of participants of the room at an address. -/
def Show.counts (m : Show) (p : Ptr) : Option (Int × Nat) :=
  (m.mixer.server.roomMem p).map fun r => (r.activeSpeakers, r.participantCount)

/-- The condition of a step, computed. -/
def checkCounts (m : Show) (o : ShowOp) : Bool := checkShowFresh m o && decide (EventsCanCount m o)

theorem counts_of_check (m : Show) (o : ShowOp) (h : checkCounts m o = true) :
    ShowFresh m o ∧ EventsCanCount m o := by
  rw [checkCounts, Bool.and_eq_true, decide_eq_true_eq] at h
  exact ⟨showFresh_of_check m o h.1, h.2⟩

/-- Bob has been counted, and the lobby is left with one participant. -/
theorem speakers_within_lobby :
    (∀ m, run Show.step (Show.start emptyDb startTable) heardThenGone = some m → SpeakersWithin m.mixer.server) ∧
    (run Show.step (Show.start emptyDb startTable) lobbyTalk).bind (·.counts 2) = some (1, 2) ∧
    (run Show.step (Show.start emptyDb startTable) heardThenGone).bind (·.counts 2) = some (0, 1) :=
  ⟨speakers_within emptyDb startTable heardThenGone (along_of_checkAlong counts_of_check (by decide +kernel)),
    by decide +kernel, by decide +kernel⟩

/-- The room that bob left before a tick has fewer than no speakers. -/
theorem unheard_client_leaves :
    ¬ ∀ ops, Along Show.step ShowFresh (Show.start emptyDb startTable) ops →
      ∀ m, run Show.step (Show.start emptyDb startTable) ops = some m → SpeakersWithin m.mixer.server := by
  intro hall
  have hfresh : Along Show.step ShowFresh (Show.start emptyDb startTable) goneUnheard :=
    along_of_checkAlong showFresh_of_check (by decide +kernel)
  have hcounts : (run Show.step (Show.start emptyDb startTable) goneUnheard).bind (·.counts 2) = some (-1, 1) := by
    decide +kernel
  obtain ⟨m, hrun, hroom⟩ := Option.bind_eq_some_iff.mp hcounts
  obtain ⟨r, hr, hpair⟩ := Option.map_eq_some_iff.mp hroom
  obtain ⟨hlow, _⟩ := hall goneUnheard hfresh m hrun 2 r hr
  rw [(Prod.mk.inj hpair).1] at hlow
  exact absurd hlow (by decide)

end EchoLink
