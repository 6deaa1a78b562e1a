import EchoLink.Logout

/-!
# What `KICK` removes

`handle_kick` looks for the first participant with the user name and takes it out of
the room.  A user may be logged in on several connections, and more than one of them
may be in the room: then the others stay.  `kick_removes_user_iff` says that this is
the only way in which a successful `KICK` leaves the user in the room.
-/

namespace EchoLink

open CText RecordFile Runs

/-- The line is a `KICK` command for the user `name`. -/
def IsKick (line name : Bytes) : Prop :=
  ∃ cmd args, splitCommand line = some (cmd, args) ∧ strcaseeq cmd (ascii "KICK") = true ∧ scanName args = name

/-- The client at `d` has the user name. -/
def Server.named (s : Server) (name : Bytes) (d : Ptr) : Bool :=
  (s.clientMem d).any fun cl => decide (cl.username = name)

/-- The participants of a room, none when it is deleted. -/
def Server.inRoom (s : Server) (p : Ptr) : List Ptr := (s.membersOf p).getD []

/-- The user is out of the room, and nobody else is. -/
structure KickedOut (s t : Server) (p : Ptr) (name : Bytes) : Prop where
  gone : ∀ d ∈ t.inRoom p, t.named name d = false
  others : (t.inRoom p).filter (fun d => !s.named name d) = (s.inRoom p).filter fun d => !s.named name d
  rooms : ∀ q, q ≠ p → t.roomMem q = s.roomMem q

variable {s t : Server} {l : List Ptr} {c d p : Ptr} {cl : Client} {r r' : Room} {name : Bytes}

/-! ### The search -/

theorem findTarget_named {ms : List Ptr} (h : findTarget s name ms = some (some d)) :
    d ∈ ms ∧ s.named name d = true := by
  induction ms with
  | nil => cases h
  | cons e ms ih =>
      simp only [findTarget] at h
      cases he : s.clientMem e with
      | none =>
          rw [he] at h
          cases h
      | some el =>
          rw [he] at h
          dsimp only at h
          split at h
          · rename_i hname
            obtain rfl := Option.some.inj (Option.some.inj h)
            exact ⟨List.mem_cons_self, by simp [Server.named, he, hname]⟩
          · obtain ⟨hmem, hnamed⟩ := ih h
            exact ⟨List.mem_cons_of_mem _ hmem, hnamed⟩

/-- A target is looked for in the room of the moderator. -/
theorem moderationTarget_found {command : Command} {args : Option Bytes}
    (h : moderationTarget s cl command args = some (.inr (p, r, name))) :
    cl.currentRoom = some p ∧ s.roomMem p = some r ∧ name = scanName args := by
  unfold moderationTarget at h
  split at h
  · cases h
  · split at h
    · cases h
    · split at h
      · cases h
      · rename_i q hq
        split at h
        · cases h
        · obtain ⟨r₁, hr₁, heq⟩ := Option.map_eq_some_iff.mp h
          cases heq
          exact ⟨hq, hr₁, rfl⟩

/-- A refusal is not a success. -/
theorem moderationTarget_refused {command : Command} {args : Option Bytes} {resp : Response}
    (h : moderationTarget s cl command args = some (.inl resp)) : resp.status ≠ statusOk := by
  unfold moderationTarget at h
  split at h
  · cases h
    decide
  · split at h
    · cases h
      decide
    · split at h
      · cases h
        decide
      · split at h
        · cases h
          decide
        · obtain ⟨r₁, -, heq⟩ := Option.map_eq_some_iff.mp h
          cases heq

/-- **A successful `KICK`** takes one participant with the name out of the room of the
moderator. -/
theorem handleKick_removed (h : ServerOk s l) (hc : s.Holds c cl) {args : Option Bytes} {resp : Response}
    (hkick : handleKick s c args = some (resp, t)) (hstatus : resp.status = statusOk) :
    ∃ p r d dl r', cl.currentRoom = some p ∧ s.roomMem p = some r ∧ s.Holds d dl ∧
      s.named (scanName args) d = true ∧ Removed (s.setClient d { dl with currentRoom := none }) t p d r r' := by
  simp only [handleKick, hc.2] at hkick
  cases htarget : moderationTarget s cl .kick args with
  | none =>
      rw [htarget] at hkick
      cases hkick
  | some found =>
      rw [htarget] at hkick
      rcases found with refused | ⟨p, r, name⟩
      · cases hkick
        exact absurd hstatus (moderationTarget_refused htarget)
      · obtain ⟨hp, hr, rfl⟩ := moderationTarget_found htarget
        dsimp only at hkick
        rcases findTarget_some (scanName args) (h.members_held hr) with hnone | ⟨d, dl, hsome, hd, hmem⟩
        · rw [hnone] at hkick
          cases hkick
          exact absurd hstatus (by decide)
        · have hnamed := (findTarget_named hsome).2
          obtain ⟨dl', hdl', hroom⟩ := h.of_member hr hmem
          obtain rfl := Option.some.inj (hd.2.symm.trans hdl'.2)
          obtain ⟨t', l', r', hleave, -, -, hremoved⟩ := h.rooms.roomLeave hd.2 hroom hr hmem
          rw [hsome] at hkick
          dsimp only at hkick
          rw [hleave, Option.map_some] at hkick
          cases hkick
          exact ⟨p, r, d, dl, r', hp, hr, hd, hnamed, hremoved⟩

/-! ### What is left -/

theorem Removed.named (h : Removed (s.setClient d { cl with currentRoom := none }) t p d r r')
    (hd : s.clientMem d = some cl) (name : Bytes) (e : Ptr) : t.named name e = s.named name e := by
  rw [Server.named, Server.named, h.clients.clientMem]
  by_cases he : e = d
  · rw [he, hd]
    simp [Server.setClient]
  · simp [Server.setClient, Function.update_of_ne he]

theorem Removed.inRoom (h : Removed s t p d r r') : t.inRoom p = r.members.erase d := by
  rw [Server.inRoom, h.membersOf, Function.update_self]
  split
  · rename_i hnil
    rw [hnil]
    rfl
  · rfl

/-- One participant with the name has been taken out. -/
theorem kickedOut_iff (hbefore : s.inRoom p = r.members) (hafter : t.inRoom p = r.members.erase d)
    (hsame : ∀ e, t.named name e = s.named name e) (hrooms : ∀ q, q ≠ p → t.roomMem q = s.roomMem q)
    (hnodup : r.members.Nodup) (hmem : d ∈ r.members) (hnamed : s.named name d = true) :
    KickedOut s t p name ↔ (r.members.filter (s.named name)).length = 1 := by
  have hcount : r.members.countP (s.named name) = (r.members.erase d).countP (s.named name) + 1 := by
    rw [(List.perm_cons_erase hmem).countP_eq, List.countP_cons_of_pos hnamed]
  rw [← List.countP_eq_length_filter, hcount]
  constructor
  · intro hkicked
    have hnone : (r.members.erase d).countP (s.named name) = 0 := by
      apply List.countP_eq_zero.mpr
      intro e he
      have hgone := hkicked.gone e (by rw [hafter]; exact he)
      rw [hsame] at hgone
      rw [hgone]
      exact Bool.false_ne_true
    omega
  · intro hone
    have hnone : (r.members.erase d).countP (s.named name) = 0 := by omega
    refine ⟨?_, ?_, hrooms⟩
    · intro e he
      rw [hafter] at he
      rw [hsame]
      simpa using List.countP_eq_zero.mp hnone e he
    · rw [hbefore, hafter, hnodup.erase_eq_filter, List.filter_filter]
      apply List.filter_congr
      intro e _
      by_cases hed : e = d
      · simp [hed, hnamed]
      · simp [hed]

theorem dispatch_kick {env : Env} {cmd : Bytes} {args : Option Bytes} (hcmd : strcaseeq cmd (ascii "KICK") = true) :
    dispatch env s c cmd args = handleKick s c args := by
  have hother : ∀ kw ∈ [ascii "LOGIN", ascii "REGISTER", ascii "LOGOUT", ascii "CREATE", ascii "JOIN", ascii "LEAVE",
      ascii "LIST"], ¬ strcaseeq cmd kw = true := strcaseeq_others hcmd (by decide)
  simp only [dispatch]
  rw [if_neg (hother _ (by decide)), if_neg (hother _ (by decide)), if_neg (hother _ (by decide)),
    if_neg (hother _ (by decide)), if_neg (hother _ (by decide)), if_neg (hother _ (by decide)),
    if_neg (hother _ (by decide)), if_pos hcmd]

/-- **When `KICK` removes the user**: in every state that operations reach, a `KICK` that
is answered with success does exactly if one participant of the room has the name. -/
theorem kick_removes_user_iff (db : FileDb) (users : File) (ops : List (Op × Env))
    (h : Along Server.step Fresh (Server.start db users) ops)
    (hrun : run Server.step (Server.start db users) ops = some s) (x : CommandLine)
    (hslot : s.clients x.slot = some c) (hc : s.clientMem c = some cl) (hline : IsKick x.line name)
    (resp : Response) (hanswer : s.answer x = some (some resp, t)) (hstatus : resp.status = statusOk) :
    ∃ p r, cl.currentRoom = some p ∧ s.roomMem p = some r ∧
      (KickedOut s t p name ↔ (r.members.filter (s.named name)).length = 1) := by
  obtain ⟨l, hok⟩ := reachable_ok h hrun
  obtain ⟨hholds, hactive⟩ := hok.clients.held_active hslot hc
  obtain ⟨cmd, args, hsplit, hcmd, rfl⟩ := hline
  rw [answer_command hslot hc hactive hsplit, dispatch_kick hcmd] at hanswer
  obtain ⟨out, hkick, hout⟩ := Option.map_eq_some_iff.mp hanswer
  have hresp : out = (resp, t) := by
    obtain ⟨hresp, ht⟩ := Prod.mk.inj hout
    rw [← ht, ← Option.some.inj hresp]
  rw [hresp] at hkick
  obtain ⟨p, r, d, dl, r', hp, hr, hd, hnamed, hremoved⟩ :=
    handleKick_removed (hok.with_wrote x.env.wrote) hholds hkick hstatus
  have hroom : s.roomMem p = some r := hr
  have hbefore : s.inRoom p = r.members := by rw [Server.inRoom, ServerOk.membersOf_eq hroom, Option.getD_some]
  refine ⟨p, r, hp, hroom, kickedOut_iff hbefore hremoved.inRoom (fun e => hremoved.named hd.2 _ e) ?_
    (hok.views.nodup p _ (ServerOk.membersOf_eq hroom)) hremoved.without.was hnamed⟩
  intro q hq
  rw [hremoved.roomMem, Function.update_of_ne hq]
  rfl

/-! ### Bob is kicked -/

def kickBob : CommandLine := ⟨firstSlot, ascii "KICK bob", completeEnv none⟩

theorem kickBob_isKick : IsKick kickBob.line (ascii "bob") :=
  ⟨ascii "KICK", some (ascii "bob"), by decide +kernel, by decide +kernel, by decide +kernel⟩

/-- Bob is in the lobby with two connections. -/
def bobTwice : List (Op × Env) :=
  lobbyOps ++ [(.accept 7, completeEnv (some 4)),
    (.command ⟨2, by decide⟩ (ascii "LOGIN bob secret"), completeEnv none),
    (.command ⟨2, by decide⟩ (ascii "JOIN lobby"), completeEnv none)]

/-- The admin's connection and room, and how many participants of it are bob. -/
def Server.admin (s : Server) : Option Ptr × Option (Option Ptr) × Option Nat :=
  (s.clients firstSlot, (s.clientMem 1).map Client.currentRoom,
    (s.roomMem 2).map fun r => (r.members.filter (s.named (ascii "bob"))).length)

theorem admin_of_some {n : Nat} (h : s.admin = (some 1, some (some 2), some n)) :
    s.clients kickBob.slot = some 1 ∧ (∃ cl, s.clientMem 1 = some cl ∧ cl.currentRoom = some 2) ∧
      ∃ r, s.roomMem 2 = some r ∧ (r.members.filter (s.named (ascii "bob"))).length = n := by
  obtain ⟨hslot, hrest⟩ := Prod.mk.inj h
  obtain ⟨hclient, hroom⟩ := Prod.mk.inj hrest
  exact ⟨hslot, Option.map_eq_some_iff.mp hclient, Option.map_eq_some_iff.mp hroom⟩

/-- Bob is in the lobby once. -/
theorem lobby_kick_removes_bob :
    ∃ s t resp, run Server.step (Server.start emptyDb startTable) lobbyOps = some s ∧
      s.answer kickBob = some (some resp, t) ∧ KickedOut s t 2 (ascii "bob") := by
  have hadmin : (run Server.step (Server.start emptyDb startTable) lobbyOps).map Server.admin =
      some (some 1, some (some 2), some 1) := by decide +kernel
  have hstatus : ((run Server.step (Server.start emptyDb startTable) lobbyOps).bind fun s =>
      (s.answer kickBob).map fun out => out.1.map Response.status) = some (some statusOk) := by decide +kernel
  obtain ⟨s, hrun, hadmin⟩ := Option.map_eq_some_iff.mp hadmin
  obtain ⟨hslot, ⟨cl, hcl, hroom⟩, r, hr, hone⟩ := admin_of_some hadmin
  rw [hrun, Option.bind_some] at hstatus
  obtain ⟨⟨answer, t⟩, hanswer, hsome⟩ := Option.map_eq_some_iff.mp hstatus
  obtain ⟨resp, rfl, hok⟩ := Option.map_eq_some_iff.mp hsome
  obtain ⟨p', r', hp', hr', hiff⟩ := kick_removes_user_iff emptyDb startTable lobbyOps lobbyOps_fresh hrun kickBob
    hslot hcl kickBob_isKick resp hanswer hok
  obtain rfl := Option.some.inj (hroom.symm.trans hp')
  obtain rfl := Option.some.inj (hr.symm.trans hr')
  exact ⟨s, t, resp, hrun, hanswer, hiff.mpr hone⟩

/-- Bob is in the lobby twice, and after the `KICK` once. -/
theorem second_session_stays :
    ¬ ∀ (ops : List (Op × Env)) (s t : Server) (x : CommandLine) (c : Ptr) (cl : Client) (name : Bytes)
        (resp : Response), Along Server.step Fresh (Server.start emptyDb startTable) ops →
      run Server.step (Server.start emptyDb startTable) ops = some s → s.clients x.slot = some c →
      s.clientMem c = some cl → IsKick x.line name → s.answer x = some (some resp, t) → resp.status = statusOk →
      ∀ p, cl.currentRoom = some p → KickedOut s t p name := by
  intro hall
  have halong : Along Server.step Fresh (Server.start emptyDb startTable) bobTwice :=
    along_fresh (by decide +kernel)
  have hadmin : (run Server.step (Server.start emptyDb startTable) bobTwice).map Server.admin =
      some (some 1, some (some 2), some 2) := by decide +kernel
  have hafter : ((run Server.step (Server.start emptyDb startTable) bobTwice).bind fun s =>
      (s.answer kickBob).map fun out =>
        (out.1.map Response.status, (out.2.inRoom 2).any (out.2.named (ascii "bob")))) =
          some (some statusOk, true) := by decide +kernel
  obtain ⟨s, hrun, hadmin⟩ := Option.map_eq_some_iff.mp hadmin
  obtain ⟨hslot, ⟨cl, hcl, hroom⟩, -⟩ := admin_of_some hadmin
  rw [hrun, Option.bind_some] at hafter
  obtain ⟨⟨answer, t⟩, hanswer, hpair⟩ := Option.map_eq_some_iff.mp hafter
  obtain ⟨hstatus, hbob⟩ := Prod.mk.inj hpair
  obtain ⟨resp, rfl, hok⟩ := Option.map_eq_some_iff.mp hstatus
  have hkicked := hall bobTwice s t kickBob 1 cl (ascii "bob") resp halong hrun hslot hcl kickBob_isKick hanswer hok 2
    hroom
  obtain ⟨e, he, hnamed⟩ := List.any_eq_true.mp hbob
  rw [hkicked.gone e he] at hnamed
  cases hnamed

end EchoLink
