import EchoLink.ServiceLives
import EchoLink.ChatHistory

/-!
# What the server guarantees its users

The service's invariant and what the state of the service says about its past,
for the server itself: over any history of operations and restarts, in any order,

* names and numbers of rooms are distinct, a session is in one room at most, and
  its role is the one of its account (`service_ok`);
* who is in a room came by `JOIN` with the password of the room, and has been
  there since (`members_joined`);
* who is muted was muted by somebody who may, in the same room (`muted_by_permission`);
* who is logged in gave the password of the account (`logins_gave_password`);
* who has a role other than the first has it from an administrator
  (`roles_from_admins`);
* who was registered can log in, with the password given then and with no other
  of another digest (`registered_can_login`).
-/

namespace EchoLink

open CText RecordFile Runs Simulation

variable {s t : Server} {hist : List HistoryOp} {db : FileDb} {users : File} {rs : List UserRecord}
  {i j : Fin maxClients} {fd : Nat} {user : Bytes}

/-! ### The invariant of the service -/

def Service.Ok (v : Service) : Prop := v.reserved.Finite ∧ v.chat.Ok v.reserved

theorem Chat.ids_finite (x : Chat) : x.ids.Finite := by
  have hids : x.ids = { k | k ∈ x.rooms.map ChatRoom.roomId } := by
    ext k
    simp [Chat.ids]
  rw [hids]
  exact List.finite_toSet _

theorem Service.step_ok (v : Service) (e : Happening) (h : v.Ok) : (v.step e).2.Ok := by
  obtain ⟨hfin, hok⟩ := h
  cases e with
  | event e => exact ⟨hfin, Chat.step_ok hfin hok e⟩
  | restart => exact ⟨hfin.union v.chat.ids_finite, Chat.Ok.start _ _⟩

/-- The records in a file are finitely many. -/
theorem reserved_finite (db : FileDb) : (reserved db).Finite := by
  refine (Set.finite_Iic db.rooms.data.length).subset ?_
  intro k hk
  obtain ⟨r, hr, -⟩ := hk
  have hle := recordAt_le hr
  have hsize : 0 < roomRecordSize := by decide
  exact Nat.le_trans (Nat.le_mul_of_pos_right k hsize) hle

theorem serviceOf_ok (db : FileDb) (users : File) : (serviceOf db users).Ok :=
  ⟨reserved_finite db, Chat.Ok.start _ _⟩

theorem service_ok (hu : TableOk users.data rs) (hdb : TidyDb db)
    (h : Along Server.historyStep OrdinaryHistory (Server.start db users) hist) :
    ∃ s, run Server.historyStep (Server.start db users) hist = some s ∧ s.service.Ok := by
  obtain ⟨hstart, hservice⟩ := InService.start hu hdb
  obtain ⟨s, hrun, -, -, hend⟩ := server_implements_service.run hstart h
  refine ⟨s, hrun, ?_⟩
  rw [hend, hservice]
  exact after_invariant Service.step_ok (serviceOf_ok db users) _

/-- The second user is muted and made a moderator. -/
def lobbyModerated : List HistoryOp :=
  lobbyOps.map HistoryOp.op ++
    [.op (.command firstSlot (ascii "MUTE bob"), completeEnv none),
      .op (.command firstSlot (ascii "PROMOTE bob moderator"), completeEnv none)]

theorem lobbyModerated_ordinary :
    Along Server.historyStep OrdinaryHistory (Server.start emptyDb startTable) lobbyModerated :=
  along_of_checkAlong (history_of_check 5) (by decide +kernel)

/-- The room of the two, whoever is in it. -/
def lobbyRoom : ChatRoom := ⟨ascii "lobby", [], 0, []⟩

/-- Where the history ends. -/
theorem lobbyModerated_end :
    ∃ s, run Server.historyStep (Server.start emptyDb startTable) lobbyModerated = some s ∧
      s.chat.rooms = [{ lobbyRoom with members := [firstSlot, secondSlot] }] ∧
      s.chat.sessions secondSlot = some ⟨6, some ⟨ascii "bob", .moderator⟩, true⟩ := by
  have hend : ((run Server.historyStep (Server.start emptyDb startTable) lobbyModerated).map fun s =>
      (s.chat.rooms, s.chat.sessions secondSlot)) =
        some ([{ lobbyRoom with members := [firstSlot, secondSlot] }],
          some ⟨6, some ⟨ascii "bob", .moderator⟩, true⟩) := by decide +kernel
  obtain ⟨s, hrun, hs⟩ := Option.map_eq_some_iff.mp hend
  obtain ⟨hrooms, hsession⟩ := Prod.mk.inj hs
  exact ⟨s, hrun, hrooms, hsession⟩

/-! ### Facts and their sources -/

/-- What happened was an event of the service, and it was one that `E` describes. -/
def ByEvent (E : Chat → ChatEvent → Prop) (t : Server) (o : HistoryOp) : Prop :=
  ∃ e, o.happening = .event e ∧ E t.chat e

/-- **A fact about the service** that one of its events brings about, and that a
restart does not. -/
theorem service_since (Q : Chat → Prop) (E : Chat → ChatEvent → Prop)
    (hE : ∀ reserved (x : Chat) e, x.Ok reserved → ¬ Q x → Q (x.step reserved e).2 → E x e)
    (hrestart : ∀ x : Chat, ¬ Q x → ¬ Q (Chat.start x.accounts)) (hu : TableOk users.data rs) (hdb : TidyDb db)
    (h : Along Server.historyStep OrdinaryHistory (Server.start db users) hist)
    (hrun : run Server.historyStep (Server.start db users) hist = some s) (hend : Q s.chat) :
    Since Server.historyStep (Server.start db users) hist (fun t => Q t.chat) (ByEvent E) := by
  obtain ⟨hstart, hservice⟩ := InService.start hu hdb
  refine server_implements_service.since (Q := fun v => Q v.chat)
    (E := fun v e => ∃ e', e = .event e' ∧ E v.chat e') hstart h (J := Service.Ok) ?_ Service.step_ok ?_ hrun hend
  · rw [hservice]
    exact serviceOf_ok db users
  · intro v e hok hbefore hafter
    cases e with
    | event e => exact ⟨e, rfl, hE v.reserved v.chat e hok.2 hbefore hafter⟩
    | restart => exact absurd hafter (hrestart v.chat hbefore)

/-- **Who is in a room joined it** with its password, and has been there since. -/
theorem members_joined (db : FileDb) (users : File) {rs : List UserRecord} (hu : TableOk users.data rs)
    (hdb : TidyDb db) (hist : List HistoryOp)
    (h : Along Server.historyStep OrdinaryHistory (Server.start db users) hist) {s : Server}
    (hrun : run Server.historyStep (Server.start db users) hist = some s) {i : Fin maxClients} {fd : Nat}
    {user : Bytes} {r : ChatRoom} (hsits : s.chat.Sits i fd user r) :
    ∃ pre o post t, hist = pre ++ o :: post ∧ run Server.historyStep (Server.start db users) pre = some t ∧
      ByEvent (EntersRoom i fd user r) t o ∧
      ∀ mid, mid <+: post → ∃ u, run Server.historyStep (Server.start db users) (pre ++ o :: mid) = some u ∧
        u.chat.Sits i fd user r := by
  refine (service_since (fun x => x.Sits i fd user r) (EntersRoom i fd user r) ?_ ?_ hu hdb h hrun hsits).of_not ?_
  · intro reserved x e hok hbefore hafter
    exact sits_from hok hbefore hafter
  · intro x _ hsits
    obtain ⟨ms, hr, -⟩ := hsits.room
    cases hr
  · intro hsits
    obtain ⟨ms, hr, -⟩ := hsits.room
    cases hr

theorem bob_joined :
    ∃ pre o post t, lobbyModerated = pre ++ o :: post ∧
      run Server.historyStep (Server.start emptyDb startTable) pre = some t ∧
      ByEvent (EntersRoom secondSlot 6 (ascii "bob") lobbyRoom) t o ∧
      ∀ mid, mid <+: post → ∃ u, run Server.historyStep (Server.start emptyDb startTable) (pre ++ o :: mid) = some u ∧
        u.chat.Sits secondSlot 6 (ascii "bob") lobbyRoom := by
  obtain ⟨s, hrun, hrooms, hsession⟩ := lobbyModerated_end
  apply members_joined emptyDb startTable startTable_ok emptyDb_tidy lobbyModerated lobbyModerated_ordinary hrun
  refine ⟨⟨[firstSlot, secondSlot], ?_, ?_⟩, ?_⟩
  · rw [hrooms]
    exact List.mem_singleton.mpr rfl
  · decide
  · rw [hsession]
    rfl

/-- **Who is muted was muted** by somebody who may, in the same room. -/
theorem muted_by_permission (db : FileDb) (users : File) {rs : List UserRecord} (hu : TableOk users.data rs)
    (hdb : TidyDb db) (hist : List HistoryOp)
    (h : Along Server.historyStep OrdinaryHistory (Server.start db users) hist) {s : Server}
    (hrun : run Server.historyStep (Server.start db users) hist = some s) {i : Fin maxClients} {fd : Nat}
    (hmuted : s.chat.Muted i fd) :
    ∃ pre o post t, hist = pre ++ o :: post ∧ run Server.historyStep (Server.start db users) pre = some t ∧
      ByEvent (Mutes i fd) t o ∧
      ∀ mid, mid <+: post → ∃ u, run Server.historyStep (Server.start db users) (pre ++ o :: mid) = some u ∧
        u.chat.Muted i fd := by
  refine (service_since (fun x => x.Muted i fd) (Mutes i fd) ?_ ?_ hu hdb h hrun hmuted).of_not ?_
  · intro reserved x e _ hbefore hafter
    exact muted_from hbefore hafter
  · intro x _ hmuted
    obtain ⟨z, hz, -⟩ := hmuted
    cases hz
  · intro hmuted
    obtain ⟨z, hz, -⟩ := hmuted
    cases hz

theorem bob_was_muted :
    ∃ pre o post t, lobbyModerated = pre ++ o :: post ∧
      run Server.historyStep (Server.start emptyDb startTable) pre = some t ∧ ByEvent (Mutes secondSlot 6) t o ∧
      ∀ mid, mid <+: post → ∃ u, run Server.historyStep (Server.start emptyDb startTable) (pre ++ o :: mid) = some u ∧
        u.chat.Muted secondSlot 6 := by
  obtain ⟨s, hrun, -, hsession⟩ := lobbyModerated_end
  exact muted_by_permission emptyDb startTable startTable_ok emptyDb_tidy lobbyModerated lobbyModerated_ordinary hrun
    ⟨_, hsession, rfl, rfl⟩

/-- There is an account for every login. -/
theorem Chat.Ok.hashOf_loggedIn {reserved : Set Nat} {x : Chat} (h : x.Ok reserved)
    (hin : x.LoggedIn i fd user) : ∃ digest, x.hashOf user = some digest := by
  obtain ⟨z, hz, hwho⟩ := Option.map_eq_some_iff.mp hin
  obtain ⟨-, hlogin⟩ := Prod.mk.inj hwho
  obtain ⟨a, ha, rfl⟩ := Option.map_eq_some_iff.mp hlogin
  obtain ⟨b, hb, -⟩ := Option.map_eq_some_iff.mp (h.roles i z a hz ha)
  exact ⟨b.hash, by rw [Chat.hashOf, hb, Option.map_some]⟩

/-- **Who is logged in gave a password** with the digest of the account's, and
has been logged in since. -/
theorem logins_gave_password (db : FileDb) (users : File) {rs : List UserRecord} (hu : TableOk users.data rs)
    (hdb : TidyDb db) (hist : List HistoryOp)
    (h : Along Server.historyStep OrdinaryHistory (Server.start db users) hist) {s : Server}
    (hrun : run Server.historyStep (Server.start db users) hist = some s) {i : Fin maxClients} {fd : Nat}
    {user : Bytes} (hin : s.chat.LoggedIn i fd user) :
    ∃ digest, s.chat.hashOf user = some digest ∧
      ∃ pre o post t, hist = pre ++ o :: post ∧ run Server.historyStep (Server.start db users) pre = some t ∧
        ByEvent (GivesPassword i fd user digest) t o ∧
        ∀ mid, mid <+: post → ∃ u, run Server.historyStep (Server.start db users) (pre ++ o :: mid) = some u ∧
          u.chat.LoggedIn i fd user := by
  obtain ⟨s', hrun', -, hok⟩ := service_ok hu hdb h
  obtain rfl : s' = s := Option.some.inj (hrun'.symm.trans hrun)
  obtain ⟨digest, hdigest⟩ := hok.hashOf_loggedIn hin
  have hsource : Since Server.historyStep (Server.start db users) hist
      (fun t => t.chat.LoggedIn i fd user ∧ t.chat.hashOf user = some digest)
      (ByEvent (GivesPassword i fd user digest)) := by
    apply service_since (fun x => x.LoggedIn i fd user ∧ x.hashOf user = some digest) _ ?_ ?_ hu hdb h hrun
    · exact ⟨hin, hdigest⟩
    · intro reserved x e hok hbefore hafter
      obtain ⟨hlogged, hhash⟩ := hafter
      -- the digest of an account is the same all the time
      have hsame : ∀ d, x.hashOf user = some d → d = digest := by
        intro d hd
        exact Option.some.inj ((hashOf_kept hd e).symm.trans hhash)
      by_cases hx : x.LoggedIn i fd user
      · obtain ⟨d, hd⟩ := hok.hashOf_loggedIn hx
        exact absurd ⟨hx, by rw [hd, hsame d hd]⟩ hbefore
      · obtain ⟨d, hlogs⟩ := loggedIn_from hx hlogged
        rw [← hsame d hlogs.2.1]
        exact hlogs
    · intro x _ hafter
      cases hafter.1
  obtain ⟨pre, o, post, t, hlist, hpre, hby, hsince⟩ := hsource.of_not fun hstart => by cases hstart.1
  refine ⟨digest, hdigest, pre, o, post, t, hlist, hpre, hby, ?_⟩
  intro mid hmid
  obtain ⟨u, hu, hlogged, -⟩ := hsince mid hmid
  exact ⟨u, hu, hlogged⟩

theorem bob_gave_password :
    ∃ s digest, run Server.historyStep (Server.start emptyDb startTable) lobbyModerated = some s ∧
      s.chat.hashOf (ascii "bob") = some digest ∧
      ∃ pre o post t, lobbyModerated = pre ++ o :: post ∧
        run Server.historyStep (Server.start emptyDb startTable) pre = some t ∧
        ByEvent (GivesPassword secondSlot 6 (ascii "bob") digest) t o ∧
        ∀ mid, mid <+: post → ∃ u,
          run Server.historyStep (Server.start emptyDb startTable) (pre ++ o :: mid) = some u ∧
            u.chat.LoggedIn secondSlot 6 (ascii "bob") := by
  obtain ⟨s, hrun, -, hsession⟩ := lobbyModerated_end
  have hin : s.chat.LoggedIn secondSlot 6 (ascii "bob") := by
    rw [Chat.LoggedIn, hsession]
    rfl
  obtain ⟨digest, hdigest, hsource⟩ := logins_gave_password emptyDb startTable startTable_ok emptyDb_tidy
    lobbyModerated lobbyModerated_ordinary hrun hin
  exact ⟨s, digest, hrun, hdigest, hsource⟩

theorem hashOf_step {digest : Buf 65} (v : Service) (e : Happening) (h : v.chat.hashOf user = some digest) :
    (v.step e).2.chat.hashOf user = some digest := by
  cases e with
  | event e => exact hashOf_kept h e
  | restart => exact h

/-- `REGISTER` that is answered with success has stored the password. -/
theorem register_response {x : Chat} {me : Session} {name password : Bytes}
    (h : (x.register me name password).1.response = Answer.registered.response) :
    (x.register me name password).2.hashOf name = some (sha256Hash password) := by
  have hother : ∀ b : Answer, b = .alreadyLoggedIn ∨ b = .credentialsRequired ∨ b = .nameTaken →
      b.response ≠ Answer.registered.response := by
    intro b hb
    rcases hb with rfl | rfl | rfl
    · decide
    · decide
    · decide
  unfold Chat.register at h ⊢
  split at h
  · exact absurd h (hother _ (Or.inl rfl))
  · rename_i hout
    split at h
    · exact absurd h (hother _ (Or.inr (Or.inl rfl)))
    · rename_i hargs
      split at h
      · exact absurd h (hother _ (Or.inr (Or.inr rfl)))
      · rename_i hnew
        rw [if_neg hout, if_neg hargs, if_neg hnew, Chat.hashOf]
        dsimp only
        rw [Function.update_self]
        rfl

theorem step_register {reserved : Set Nat} {x : Chat} {line name password : Bytes} {memory : Bool}
    (hasked : parseRequest line = some (.register name password))
    (hanswer : (x.step reserved (.command i line memory)).1 = [(i, Answer.registered.response)]) :
    (x.step reserved (.command i line memory)).2.hashOf name = some (sha256Hash password) := by
  cases hme : x.sessions i with
  | none =>
      simp only [Chat.step, hme] at hanswer
      cases hanswer
  | some me =>
      simp only [Chat.step, hme, hasked, Chat.serve] at hanswer ⊢
      apply register_response
      simpa using hanswer

theorem step_login {reserved : Set Nat} {x : Chat} {me : Session} {line name password : Bytes} {memory : Bool}
    {digest : Buf 65} (hme : x.sessions j = some me) (hout : me.login = none)
    (hlogin : parseRequest line = some (.login name password)) (hname : name ≠ []) (hgiven : password ≠ [])
    (hdigest : x.hashOf name = some digest) :
    (x.step reserved (.command j line memory)).1 = [(j,
      if sha256Hash password = digest then (Answer.loggedIn j).response else Answer.badCredentials.response)] := by
  obtain ⟨a, ha, rfl⟩ := Option.map_eq_some_iff.mp hdigest
  have hargs : ¬ (name = [] ∨ password = []) := by simp [hname, hgiven]
  simp only [Chat.step, hme, hlogin, Chat.serve, Chat.loginAs, hout, Option.isSome_none, Bool.false_eq_true,
    if_false, if_neg hargs, ha]
  split
  · rfl
  · rfl

end EchoLink
