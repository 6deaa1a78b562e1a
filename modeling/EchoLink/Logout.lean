import EchoLink.RefCounts
import EchoLink.RoomAgreement

/-!
# The end of a session

`handle_logout` clears the session of a connection: it leaves the room and resets
`user_id`, `username` and `role`.  Others may have changed the connection too, by
`KICK`, `PROMOTE` and `MUTE`, and of these `is_mute` is not reset.  So the next user
of the connection is muted if the last one was: `logout_ends_session_iff`.
-/

namespace EchoLink

open CText RecordFile Runs

/-- The session has the values `accept_new_client` gives a connection. -/
structure AsAccepted (cl : Client) : Prop where
  userId : cl.userId = (newClient cl.fd cl.slot).userId
  username : cl.username = (newClient cl.fd cl.slot).username
  role : cl.role = (newClient cl.fd cl.slot).role
  currentRoom : cl.currentRoom = (newClient cl.fd cl.slot).currentRoom
  isMute : cl.isMute = (newClient cl.fd cl.slot).isMute

/-- The connection is as good as a new one: its session is, and all later commands, its
own and those of others, are answered as if it had just been accepted. -/
def SessionOver (t : Server) (c : Ptr) : Prop :=
  ∃ cl, t.clientMem c = some cl ∧ AsAccepted cl ∧
    ∀ later, t.replies later = (t.setClient c (newClient cl.fd cl.slot)).replies later

variable {s t : Server} {l : List Ptr} {c : Ptr} {cl : Client}

/-- A new session of an active connection differs from an accepted one in the count only. -/
theorem AsAccepted.withRefs (h : AsAccepted cl) (hactive : cl.isActive = true) (hc : t.clientMem c = some cl) :
    t.withRefs c 1 = t.setClient c (newClient cl.fd cl.slot) := by
  have hnew : cl.withRefs c 1 c = newClient cl.fd cl.slot := by
    simp only [Client.withRefs, if_true]
    rw [newClient, Client.mk.injEq]
    exact ⟨rfl, rfl, h.userId, h.username, h.role, h.currentRoom, h.isMute, hactive, rfl⟩
  have hmem : (t.withRefs c 1).clientMem = Function.update t.clientMem c (some (newClient cl.fd cl.slot)) := by
    funext q
    by_cases hq : q = c
    · rw [hq, Function.update_self, withRefs_clientMem, hc, Option.map_some, hnew]
    · have hsame : ∀ x : Client, x.withRefs c 1 q = x := by
        intro x
        simp [Client.withRefs, hq]
      rw [Function.update_of_ne hq, withRefs_clientMem, funext hsame, Option.map_id']
  exact congrArg (fun mem => { t with clientMem := mem }) hmem

theorem AsAccepted.sessionOver (h : AsAccepted cl) (hactive : cl.isActive = true) (hc : t.clientMem c = some cl) :
    SessionOver t c := by
  refine ⟨cl, hc, h, ?_⟩
  intro later
  rw [← h.withRefs hactive hc, replies_withRefs]

/-- **`LOGOUT`** of a client that is logged in. -/
theorem handleLogout_some (h : ServerOk s l) (hc : s.Holds c cl) (hin : cl.userId ≠ -1) :
    ∃ t, handleLogout s c = some (sendOk (ascii "Logout successful") [], t) ∧
      t.clientMem c = some { cl with userId := -1, username := [], role := .guest, currentRoom := none } := by
  obtain ⟨u, hu, hleaves⟩ : ∃ u,
      (if cl.currentRoom = none then some s else (roomLeave s c).map Prod.snd) = some u ∧ Leaves s u c cl := by
    by_cases hroom : cl.currentRoom = none
    · exact ⟨s, if_pos hroom, Or.inl ⟨hroom, rfl⟩⟩
    · obtain ⟨u, l', hleave, hok, hleaves⟩ := h.roomLeave hc hroom
      exact ⟨u, by rw [if_neg hroom, hleave, Option.map_some], hleaves⟩
  simp only [handleLogout, hc.2, if_neg hin]
  rw [hu]
  dsimp only
  rw [(hleaves.holds hc).2]
  exact ⟨_, rfl, Function.update_self _ _ _⟩

/-- The keyword is none of those that are tried before it. -/
theorem dispatch_logout {env : Env} {cmd : Bytes} {args : Option Bytes}
    (hcmd : strcaseeq cmd (ascii "LOGOUT") = true) : dispatch env s c cmd args = handleLogout s c := by
  rw [dispatch, if_neg (strcaseeq_other hcmd (by decide)), if_neg (strcaseeq_other hcmd (by decide)), if_pos hcmd]

/-- **When `LOGOUT` ends the session**: in every state that operations reach, it does
for a client that is logged in exactly if that client is not muted. -/
theorem logout_ends_session_iff (db : FileDb) (users : File) (ops : List (Op × Env))
    (h : Along Server.step Fresh (Server.start db users) ops)
    (hrun : run Server.step (Server.start db users) ops = some s) (x : CommandLine)
    (hslot : s.clients x.slot = some c) (hc : s.clientMem c = some cl) (hin : cl.userId ≠ -1)
    (hline : IsLogout x.line) :
    ∃ t, s.answer x = some (some (sendOk (ascii "Logout successful") []), t) ∧
      (SessionOver t c ↔ cl.isMute = false) := by
  obtain ⟨l, hok⟩ := reachable_ok h hrun
  obtain ⟨hholds, hactive⟩ := hok.clients.held_active hslot hc
  obtain ⟨t, hlogout, hmem⟩ := handleLogout_some (hok.with_wrote x.env.wrote) hholds hin
  obtain ⟨cmd, args, hsplit, hcmd⟩ := hline
  refine ⟨t, ?_, ?_⟩
  · rw [answer_command hslot hc hactive hsplit, dispatch_logout hcmd, hlogout, Option.map_some]
  · constructor
    · intro hover
      obtain ⟨after, hafter, haccepted, -⟩ := hover
      obtain rfl := Option.some.inj (hmem.symm.trans hafter)
      exact haccepted.isMute
    · intro hmute
      have haccepted : AsAccepted
          { cl with userId := -1, username := [], role := .guest, currentRoom := none } :=
        ⟨rfl, rfl, rfl, rfl, hmute⟩
      exact haccepted.sessionOver hactive hmem

/-! ### Bob logs out -/

def bobLogout : CommandLine := ⟨secondSlot, ascii "LOGOUT", completeEnv none⟩

theorem bobLogout_isLogout : IsLogout bobLogout.line := ⟨ascii "LOGOUT", none, by decide +kernel, by decide +kernel⟩

/-- The lobby, where the admin has muted bob. -/
def mutedLobby : List (Op × Env) := lobbyOps ++ [(.command firstSlot (ascii "MUTE bob"), completeEnv none)]

/-- The slot of bob's connection, whether it is logged in and whether it is muted. -/
def Server.bob (s : Server) : Option Ptr × Option (Int × Bool) :=
  (s.clients secondSlot, (s.clientMem 3).map fun cl => (cl.userId, cl.isMute))

theorem bob_of_some {b : Bool} (h : s.bob = (some 3, some (0, b))) :
    s.clients bobLogout.slot = some 3 ∧ ∃ cl, s.clientMem 3 = some cl ∧ cl.userId ≠ -1 ∧ cl.isMute = b := by
  obtain ⟨hslot, hclient⟩ := Prod.mk.inj h
  obtain ⟨cl, hcl, hpair⟩ := Option.map_eq_some_iff.mp hclient
  obtain ⟨hid, hmute⟩ := Prod.mk.inj hpair
  refine ⟨hslot, cl, hcl, ?_, hmute⟩
  rw [hid]
  decide

/-- Nobody has muted bob. -/
theorem lobby_logout_ends_session :
    ∃ s t, run Server.step (Server.start emptyDb startTable) lobbyOps = some s ∧
      s.answer bobLogout = some (some (sendOk (ascii "Logout successful") []), t) ∧ SessionOver t 3 := by
  have hbob : (run Server.step (Server.start emptyDb startTable) lobbyOps).map Server.bob =
      some (some 3, some (0, false)) := by decide +kernel
  obtain ⟨s, hrun, hbob⟩ := Option.map_eq_some_iff.mp hbob
  obtain ⟨hslot, cl, hcl, hin, hmute⟩ := bob_of_some hbob
  obtain ⟨t, hanswer, hiff⟩ := logout_ends_session_iff emptyDb startTable lobbyOps lobbyOps_fresh hrun bobLogout
    hslot hcl hin bobLogout_isLogout
  exact ⟨s, t, hrun, hanswer, hiff.mpr hmute⟩

/-- Bob was muted, and the connection stays so. -/
theorem muted_logout_keeps_mute :
    ¬ ∀ (ops : List (Op × Env)) (s : Server) (x : CommandLine) (c : Ptr) (cl : Client),
      Along Server.step Fresh (Server.start emptyDb startTable) ops →
      run Server.step (Server.start emptyDb startTable) ops = some s → s.clients x.slot = some c →
      s.clientMem c = some cl → cl.userId ≠ -1 → IsLogout x.line →
      ∃ resp t, s.answer x = some (resp, t) ∧ SessionOver t c := by
  intro hall
  have halong : Along Server.step Fresh (Server.start emptyDb startTable) mutedLobby :=
    along_fresh (by decide +kernel)
  have hbob : (run Server.step (Server.start emptyDb startTable) mutedLobby).map Server.bob =
      some (some 3, some (0, true)) := by decide +kernel
  have hafter : ((run Server.step (Server.start emptyDb startTable) mutedLobby).bind fun s =>
      (s.answer bobLogout).map fun out => (out.2.clientMem 3).map Client.isMute) = some (some true) := by
    decide +kernel
  obtain ⟨s, hrun, hbob⟩ := Option.map_eq_some_iff.mp hbob
  obtain ⟨hslot, cl, hcl, hin, -⟩ := bob_of_some hbob
  obtain ⟨resp, t, hanswer, cl', hcl', haccepted, -⟩ := hall mutedLobby s bobLogout 3 cl halong hrun hslot hcl hin
    bobLogout_isLogout
  rw [hrun, Option.bind_some, hanswer, Option.map_some, hcl', Option.map_some, Option.some.injEq,
    Option.some.injEq] at hafter
  have hmute : cl'.isMute = false := haccepted.isMute
  rw [hafter] at hmute
  cases hmute

end EchoLink
