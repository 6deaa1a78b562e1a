import EchoLink.RoomSteps
import EchoLink.RoomAgreement
import EchoLink.TaskPool
import EchoLink.ClientTable

/-!
# Role changes and logins at the same time

The role of a user is in `users.bin` and in every session of the user.
`handle_login` reads the file and stores the role in the session in a later
step, and `handle_promote` writes the file and goes through the sessions after
that.  Here the workers run `LOGIN`, `LOGOUT` and `PROMOTE` commands of any
clients step by step (`sessionStep`).

A role that a worker stores in a session may be out of date.  That does no harm
while another `PROMOTE` of the user has still to go through the sessions.  If
this is so whenever a role is stored that the file does not have any more, every
session has the role of the file when no command is in progress
(`role_changes_not_lost`).  A `PROMOTE` that runs between the two steps of a
`LOGIN` is lost for the session (`role_change_lost`).
-/

namespace EchoLink

open CText RecordFile LinkedList PackedArray PartialMap Runs Relation

/-! ### The commands, step by step -/

/-- What a worker does next. -/
inductive SessionPhase where
  | idle
  | login (c : Ptr) (args : Option Bytes)
  | authenticating (c : Ptr) (username password : Bytes)
  /-- it has the role and will store it in the session -/
  | publishing (c : Ptr) (username : Bytes) (role : Role)
  | logout (c : Ptr)
  | leaving (c : Ptr)
  | clearing (c : Ptr)
  | promote (c : Ptr) (args : Option Bytes)
  | promoting (target roleName : Bytes)
  /-- the file is written, and it will go through the sessions -/
  | sweeping (target : Bytes) (role : Role)

/-- The next step of a worker. -/
def sessionStep (env : Env) (s : Server) : SessionPhase → Option (Server × SessionPhase)
  | .idle => some (s, .idle)
  | .login c args =>
      (s.clientMem c).map fun cl =>
        let up := scanPair 31 63 args
        (s, if cl.userId ≠ -1 ∨ up.1 = [] ∨ up.2 = [] then .idle else .authenticating c up.1 up.2)
  | .authenticating c username password =>
      let a := authAuthenticate s.users username password
      some ({ s with users := a.2 },
        match a.1 with
        | some role => .publishing c username role
        | none => .idle)
  | .publishing c username role =>
      (s.clientMem c).map fun cl =>
        (s.setClient c { cl with userId := 0, username := username.take (maxUsernameLen - 1), role := role },
          .idle)
  | .logout c => (s.clientMem c).map fun cl => (s, if cl.userId = -1 then .idle else .leaving c)
  | .leaving c =>
      match s.clientMem c with
      | none => none
      | some cl =>
          if cl.currentRoom = none then some (s, .clearing c)
          else (roomLeave { s with wrote := env.wrote } c).map fun out => (out.2, .clearing c)
  | .clearing c =>
      (s.clientMem c).map fun cl =>
        (s.setClient c { cl with userId := -1, username := [], role := .guest }, .idle)
  | .promote c args =>
      (s.clientMem c).map fun cl =>
        let tr := scanPair 31 15 args
        (s,
          if cl.userId = -1 ∨ authCheckPermission cl.role .promote = false ∨ tr.1 = [] ∨ tr.2 = [] ∨
              (strcaseeq tr.2 (ascii "MODERATOR") = false ∧ strcaseeq tr.2 (ascii "USER") = false ∧
                strcaseeq tr.2 (ascii "ADMIN") = false) then .idle
          else .promoting tr.1 (upperCase tr.2))
  | .promoting target roleName =>
      let p := authPromoteUser (env.wrote.headD userRecordSize) s.users target roleName
      some ({ s with users := p.2 }, if p.1 then .sweeping target (roleOfName roleName) else .idle)
  | .sweeping target role =>
      (promoteLoop target role (List.finRange maxClients) s).map fun t => (t, .idle)

/-- The command that a worker begins for the client `c`. -/
def sessionCommand (c : Ptr) (line : Bytes) : SessionPhase :=
  match splitCommand line with
  | none => .idle
  | some (cmd, args) =>
      if strcaseeq cmd (ascii "LOGIN") then .login c args
      else if strcaseeq cmd (ascii "LOGOUT") then .logout c
      else if strcaseeq cmd (ascii "PROMOTE") then .promote c args
      else .idle

/-- The server and the workers. -/
structure Sessions where
  server : Server
  worker : Fin workerThreads → SessionPhase

inductive SessionOp where
  /-- `accept_new_client` -/
  | accept (fd : Nat) (env : Env)
  /-- a worker takes a command of the client in a slot -/
  | start (w : Fin workerThreads) (slot : Fin maxClients) (line : Bytes)
  /-- the next step of a worker -/
  | step (w : Fin workerThreads) (env : Env)

def Sessions.step (m : Sessions) : SessionOp → Option Sessions
  | .accept fd env => some { m with server := acceptNewClient env m.server fd }
  | .start w slot line =>
      match m.worker w, m.server.clients slot with
      | .idle, some c => some { m with worker := Function.update m.worker w (sessionCommand c line) }
      | _, _ => none
  | .step w env =>
      (sessionStep env m.server (m.worker w)).map fun out =>
        { server := out.1, worker := Function.update m.worker w out.2 }

/-! ### A command on its own -/

variable {s t : Server} {c : Ptr} {args : Option Bytes} {resp : Response}

/-- One step with complete writes. -/
def SessionTo (x y : Server × SessionPhase) : Prop :=
  sessionStep ⟨none, RoomRecord.zero, []⟩ x.1 x.2 = some y

/-- `handle_login`. -/
theorem login_alone (h : handleLogin s c args = some (resp, t)) :
    ReflTransGen SessionTo (s, .login c args) (t, .idle) := by
  unfold handleLogin at h
  cases hcl : s.clientMem c with
  | none =>
      rw [hcl] at h
      cases h
  | some cl =>
      rw [hcl] at h
      dsimp only at h
      by_cases hin : cl.userId ≠ -1
      · rw [if_pos hin] at h
        cases h
        refine ReflTransGen.single ?_
        simp only [SessionTo, sessionStep, hcl, Option.map_some, if_pos (Or.inl hin)]
      · rw [if_neg hin] at h
        by_cases hempty : (scanPair 31 63 args).1 = [] ∨ (scanPair 31 63 args).2 = []
        · rw [if_pos hempty] at h
          cases h
          refine ReflTransGen.single ?_
          simp only [SessionTo, sessionStep, hcl, Option.map_some, if_pos (Or.inr hempty)]
        · rw [if_neg hempty] at h
          refine ReflTransGen.head (b := (s, .authenticating c (scanPair 31 63 args).1
            (scanPair 31 63 args).2)) ?_ ?_
          · simp only [SessionTo, sessionStep, hcl, Option.map_some, if_neg (not_or.mpr ⟨hin, hempty⟩)]
          · cases hauth : (authAuthenticate s.users (scanPair 31 63 args).1 (scanPair 31 63 args).2).1 with
            | none =>
                rw [hauth] at h
                cases h
                refine ReflTransGen.single ?_
                simp only [SessionTo, sessionStep, hauth]
            | some role =>
                rw [hauth] at h
                cases h
                refine ReflTransGen.head (b := ({ s with
                  users := (authAuthenticate s.users (scanPair 31 63 args).1 (scanPair 31 63 args).2).2 },
                  .publishing c (scanPair 31 63 args).1 role)) ?_ (ReflTransGen.single ?_)
                · simp only [SessionTo, sessionStep, hauth]
                · simp only [SessionTo, sessionStep, hcl, Option.map_some]

/-- `handle_logout`. -/
theorem logout_alone (hw : s.wrote = []) (h : handleLogout s c = some (resp, t)) :
    ReflTransGen SessionTo (s, .logout c) (t, .idle) := by
  unfold handleLogout at h
  cases hcl : s.clientMem c with
  | none =>
      rw [hcl] at h
      cases h
  | some cl =>
      rw [hcl] at h
      dsimp only at h
      by_cases hout : cl.userId = -1
      · rw [if_pos hout] at h
        cases h
        refine ReflTransGen.single ?_
        simp only [SessionTo, sessionStep, hcl, Option.map_some, if_pos hout]
      · rw [if_neg hout] at h
        refine ReflTransGen.head (b := (s, .leaving c)) ?_ ?_
        · simp only [SessionTo, sessionStep, hcl, Option.map_some, if_neg hout]
        · cases hleft : (if cl.currentRoom = none then some s else (roomLeave s c).map Prod.snd) with
          | none =>
              rw [hleft] at h
              cases h
          | some u =>
              rw [hleft] at h
              dsimp only at h
              have hstep : SessionTo (s, .leaving c) (u, .clearing c) := by
                simp only [SessionTo, sessionStep, hcl, with_no_wrote hw]
                by_cases hroom : cl.currentRoom = none
                · rw [if_pos hroom] at hleft ⊢
                  rw [Option.some.inj hleft]
                · rw [if_neg hroom] at hleft ⊢
                  obtain ⟨out, hleave, hu⟩ := Option.map_eq_some_iff.mp hleft
                  rw [hleave, Option.map_some, hu]
              refine ReflTransGen.head hstep ?_
              cases hu : u.clientMem c with
              | none =>
                  rw [hu] at h
                  cases h
              | some cl' =>
                  rw [hu] at h
                  cases h
                  refine ReflTransGen.single ?_
                  simp only [SessionTo, sessionStep, hu, Option.map_some]

/-- `handle_promote`. -/
theorem promote_alone (hw : s.wrote = []) (h : handlePromote s c args = some (resp, t)) :
    ReflTransGen SessionTo (s, .promote c args) (t, .idle) := by
  unfold handlePromote at h
  cases hcl : s.clientMem c with
  | none =>
      rw [hcl] at h
      cases h
  | some cl =>
      rw [hcl] at h
      dsimp only at h
      obtain ⟨tr, htr⟩ : ∃ tr, tr = scanPair 31 15 args := ⟨_, rfl⟩
      rw [← htr] at h
      have hrefuse : (cl.userId = -1 ∨ authCheckPermission cl.role .promote = false ∨ tr.1 = [] ∨ tr.2 = [] ∨
          (strcaseeq tr.2 (ascii "MODERATOR") = false ∧ strcaseeq tr.2 (ascii "USER") = false ∧
            strcaseeq tr.2 (ascii "ADMIN") = false)) →
          ReflTransGen SessionTo (s, .promote c args) (s, .idle) := by
        intro hrefused
        refine ReflTransGen.single ?_
        simp only [SessionTo, sessionStep, hcl, Option.map_some, ← htr, if_pos hrefused]
      by_cases hout : cl.userId = -1
      · rw [if_pos hout] at h
        cases h
        exact hrefuse (Or.inl hout)
      · rw [if_neg hout] at h
        by_cases hforbidden : authCheckPermission cl.role .promote = false
        · rw [if_pos hforbidden] at h
          cases h
          exact hrefuse (Or.inr (Or.inl hforbidden))
        · rw [if_neg hforbidden] at h
          by_cases hempty : tr.1 = [] ∨ tr.2 = []
          · rw [if_pos hempty] at h
            cases h
            rcases hempty with hempty | hempty
            · exact hrefuse (Or.inr (Or.inr (Or.inl hempty)))
            · exact hrefuse (Or.inr (Or.inr (Or.inr (Or.inl hempty))))
          · rw [if_neg hempty] at h
            by_cases hinvalid : strcaseeq tr.2 (ascii "MODERATOR") = false ∧
                strcaseeq tr.2 (ascii "USER") = false ∧ strcaseeq tr.2 (ascii "ADMIN") = false
            · rw [if_pos hinvalid] at h
              cases h
              exact hrefuse (Or.inr (Or.inr (Or.inr (Or.inr hinvalid))))
            · rw [if_neg hinvalid] at h
              have hgoes : ¬ (cl.userId = -1 ∨ authCheckPermission cl.role .promote = false ∨ tr.1 = [] ∨
                  tr.2 = [] ∨ (strcaseeq tr.2 (ascii "MODERATOR") = false ∧
                    strcaseeq tr.2 (ascii "USER") = false ∧ strcaseeq tr.2 (ascii "ADMIN") = false)) := by
                simp only [not_or] at hempty ⊢
                exact ⟨hout, hforbidden, hempty.1, hempty.2, hinvalid⟩
              have hstep : SessionTo (s, .promote c args) (s, .promoting tr.1 (upperCase tr.2)) := by
                simp only [SessionTo, sessionStep, hcl, Option.map_some, ← htr, if_neg hgoes]
              refine ReflTransGen.head hstep ?_
              rw [hw, List.headD_nil, List.tail_nil] at h
              have hsame : ∀ f, ({ s with users := f, wrote := [] } : Server) = { s with users := f } := by
                intro f
                rw [← hw]
              rw [hsame] at h
              split at h
              · rename_i hdone
                obtain ⟨u, hsweep, hu⟩ := Option.map_eq_some_iff.mp h
                cases hu
                refine ReflTransGen.head (b := ({ s with
                  users := (authPromoteUser userRecordSize s.users tr.1 (upperCase tr.2)).2 },
                  .sweeping tr.1 (roleOfName (upperCase tr.2)))) ?_ (ReflTransGen.single ?_)
                · simp only [SessionTo, sessionStep, List.headD_nil, hdone, if_true]
                · simp only [SessionTo, sessionStep, hsweep, Option.map_some]
              · rename_i hdone
                cases h
                refine ReflTransGen.single ?_
                simp only [SessionTo, sessionStep, List.headD_nil, hdone]
                rfl

/-! ### What a step does to the sessions -/

/-- The loop of `handle_promote` went through the slots `is`. -/
structure Swept (target : Bytes) (role : Role) (is : List (Fin maxClients)) (s t : Server) : Prop where
  clients : t.clients = s.clients
  users : t.users = s.users
  records : ∀ d, t.clientMem d = s.clientMem d ∨
    ∃ dl, s.clientMem d = some dl ∧ dl.username = target ∧ t.clientMem d = some { dl with role := role }
  reached : ∀ i ∈ is, ∀ d dl, s.clients i = some d → s.clientMem d = some dl → dl.isActive = true →
    dl.username = target → t.clientMem d = some { dl with role := role }

/-- The loop has set the role of the client in the first slot. -/
theorem Swept.cons_set {target : Bytes} {role : Role} {i : Fin maxClients} {is : List (Fin maxClients)}
    {p : Ptr} {cl : Client} (hi : s.clients i = some p) (hcl : s.clientMem p = some cl)
    (hname : cl.username = target) (h : Swept target role is (s.setClient p { cl with role := role }) t) :
    Swept target role (i :: is) s t := by
  have hnow : (s.setClient p { cl with role := role }).clientMem p = some { cl with role := role } := by
    simp only [Server.setClient, Function.update_self]
  have hother : ∀ d, d ≠ p → (s.setClient p { cl with role := role }).clientMem d = s.clientMem d := by
    intro d hd
    simp only [Server.setClient, Function.update_of_ne hd]
  have hset : t.clientMem p = some { cl with role := role } := by
    rcases h.records p with hsame | ⟨dl, hdl, _, hnew⟩
    · rw [hsame, hnow]
    · rw [hnow, Option.some.injEq] at hdl
      rw [hnew, ← hdl]
  refine ⟨h.clients, h.users, ?_, ?_⟩
  · intro d
    by_cases hd : d = p
    · subst hd
      exact Or.inr ⟨cl, hcl, hname, hset⟩
    · have hrec := h.records d
      rw [hother d hd] at hrec
      exact hrec
  · intro j hj d dl hjd hdl hactive hdname
    by_cases hd : d = p
    · subst hd
      rw [hcl, Option.some.injEq] at hdl
      rw [hset, hdl]
    · rcases List.mem_cons.mp hj with rfl | hj
      · rw [hi, Option.some.injEq] at hjd
        exact absurd hjd.symm hd
      · exact h.reached j hj d dl hjd (by rw [hother d hd, hdl]) hactive hdname

/-- The loop has left the first slot alone. -/
theorem Swept.cons_skip {target : Bytes} {role : Role} {i : Fin maxClients} {is : List (Fin maxClients)}
    (hskip : ∀ d dl, s.clients i = some d → s.clientMem d = some dl → dl.isActive = true →
      dl.username ≠ target)
    (h : Swept target role is s t) : Swept target role (i :: is) s t := by
  refine ⟨h.clients, h.users, h.records, ?_⟩
  intro j hj d dl hjd hdl hactive hname
  rcases List.mem_cons.mp hj with rfl | hj
  · exact absurd hname (hskip d dl hjd hdl hactive)
  · exact h.reached j hj d dl hjd hdl hactive hname

theorem promoteLoop_swept {target : Bytes} {role : Role} {is : List (Fin maxClients)}
    (h : promoteLoop target role is s = some t) : Swept target role is s t := by
  induction is generalizing s with
  | nil =>
      obtain rfl := Option.some.inj h
      exact ⟨rfl, rfl, fun d => Or.inl rfl, fun i hi => absurd hi List.not_mem_nil⟩
  | cons i is ih =>
      rw [promoteLoop] at h
      split at h
      · rename_i hi
        exact (ih h).cons_skip fun d dl hid => by rw [hi] at hid; cases hid
      · rename_i p hi
        split at h
        · cases h
        · rename_i cl hcl
          split at h
          · rename_i hmatch
            exact (ih h).cons_set hi hcl hmatch.2
          · rename_i hmatch
            refine (ih h).cons_skip ?_
            intro d dl hid hdl hactive hname
            rw [hi, Option.some.injEq] at hid
            subst hid
            rw [hcl, Option.some.injEq] at hdl
            subst hdl
            exact hmatch ⟨hactive, hname⟩

/-- `room_leave` changes no session. -/
theorem roomLeave_sessions {k : Int} (h : roomLeave s c = some (k, t)) :
    t.clients = s.clients ∧ t.users = s.users ∧
      ∀ d, t.clientMem d = s.clientMem d ∨
        ∃ dl room, s.clientMem d = some dl ∧ t.clientMem d = some { dl with currentRoom := room } := by
  unfold roomLeave at h
  split at h
  · cases h
  · rename_i cl hcl
    split at h
    · cases h
      exact ⟨rfl, rfl, fun d => Or.inl rfl⟩
    · rename_i p _
      split at h
      · cases h
      · rename_i r _
        obtain ⟨u, hafter, hu⟩ := Option.map_eq_some_iff.mp h
        cases hu
        have hsame := sameClients_afterRemoval hafter
        rw [hsame.clients, hsame.users, hsame.clientMem]
        split
        · refine ⟨rfl, rfl, ?_⟩
          intro d
          by_cases hd : d = c
          · subst hd
            refine Or.inr ⟨cl, none, hcl, ?_⟩
            simp only [Server.setClient, Function.update_self]
          · left
            simp only [Server.setClient, Server.setRoom, Function.update_of_ne hd]
        · exact ⟨rfl, rfl, fun d => Or.inl rfl⟩

/-- What `auth_promote_user` does to the accounts. -/
theorem promote_accounts {users : File} {rs : List UserRecord} (h : TableOk users.data rs)
    (target : Bytes) {roleName : Bytes} (hrole : FitsIn maxRoleLen roleName) (completes : Bool) :
    (∃ rs', TableOk (authPromoteUser (transfers completes) users target roleName).2.data rs') ∧
      ((authPromoteUser (transfers completes) users target roleName).1 = false →
        accounts (authPromoteUser (transfers completes) users target roleName).2.data = accounts users.data) ∧
      ∀ username, username ≠ target →
        accounts (authPromoteUser (transfers completes) users target roleName).2.data username =
          accounts users.data username := by
  have hcall : CallRefines users (.promote target roleName completes) := h.promote hrole completes
  have hresult := hcall.result
  have hmap := hcall.map
  simp only [runCall, specCall] at hresult hmap
  refine ⟨hcall.table, ?_, ?_⟩
  · intro hfailed
    rw [hmap]
    rw [hfailed] at hresult
    cases ha : accounts users.data target with
    | none => rfl
    | some a =>
        rw [ha] at hresult
        cases completes with
        | true => cases hresult
        | false => rfl
  · intro username hne
    rw [hmap]
    split
    · split
      · exact Function.update_of_ne hne _ _
      · rfl
    · rfl

/-! ### The invariant -/

/-- The role that `users.bin` records for a name. -/
def Server.fileRole (s : Server) (username : Bytes) : Option Role :=
  (accounts s.users.data username).map fun a => roleOfName a.role

/-- Every connected client that is logged in has the role that `users.bin`
records for its name. -/
def RolesAgree (s : Server) : Prop :=
  ∀ i c cl, s.clients i = some c → s.clientMem c = some cl → cl.userId ≠ -1 →
    s.fileRole cl.username = some cl.role

/-- A worker has still to go through the sessions of the user. -/
def Sessions.Sweeping (m : Sessions) (username : Bytes) : Prop :=
  ∃ w role, m.worker w = .sweeping username role

/-- A state of the server between commands. -/
structure SessionsOk (s : Server) : Prop where
  table : ∃ rs, TableOk s.users.data rs
  connected : ∀ i c, s.clients i = some c → ∃ cl, s.clientMem c = some cl ∧ cl.isActive = true
  roles : RolesAgree s

/-- No command is in progress. -/
def Sessions.start (s : Server) : Sessions := ⟨s, fun _ => .idle⟩

/-- What a worker keeps in its local variables. -/
def SessionPhase.Fits : SessionPhase → Prop
  | .login _ args | .promote _ args => ∀ a, args = some a → (0 : UInt8) ∉ a
  | .authenticating _ username _ | .publishing _ username _ => username.length < maxUsernameLen
  | .promoting _ roleName => FitsIn maxRoleLen roleName
  | _ => True

structure Sessions.Inv (m : Sessions) : Prop where
  table : ∃ rs, TableOk m.server.users.data rs
  connected : ∀ i c, m.server.clients i = some c → ∃ cl, m.server.clientMem c = some cl ∧ cl.isActive = true
  /-- a session with another role than the file will be gone through -/
  roles : ∀ i c cl, m.server.clients i = some c → m.server.clientMem c = some cl → cl.userId ≠ -1 →
    m.server.fileRole cl.username = some cl.role ∨ m.Sweeping cl.username
  fits : ∀ w, (m.worker w).Fits

theorem Sessions.Inv.start (h : SessionsOk s) : (Sessions.start s).Inv where
  table := h.table
  connected := h.connected
  roles := fun i c cl hi hcl hid => Or.inl (h.roles i c cl hi hcl hid)
  fits := fun _ => trivial

variable {m : Sessions} {w : Fin workerThreads} {ph : SessionPhase}

theorem fits_update (h : ∀ w, (m.worker w).Fits) (hph : ph.Fits) (v : Fin workerThreads) :
    (Function.update m.worker w ph v).Fits := by
  by_cases hv : v = w
  · rw [hv, Function.update_self]
    exact hph
  · rw [Function.update_of_ne hv]
    exact h v

/-- Another worker that was going to go through the sessions still is. -/
theorem sweeping_update {username : Bytes}
    (h : ∃ v role, v ≠ w ∧ m.worker v = .sweeping username role) (t : Server) :
    Sessions.Sweeping ⟨t, Function.update m.worker w ph⟩ username := by
  obtain ⟨v, role, hv, hsweep⟩ := h
  exact ⟨v, role, (Function.update_of_ne hv _ _).trans hsweep⟩

theorem Sessions.Sweeping.others {username : Bytes} (h : m.Sweeping username)
    (hw : ∀ target role, m.worker w ≠ .sweeping target role) :
    ∃ v role, v ≠ w ∧ m.worker v = .sweeping username role := by
  obtain ⟨v, role, hv⟩ := h
  refine ⟨v, role, ?_, hv⟩
  rintro rfl
  exact hw username role hv

/-- A worker that is not going through the sessions makes a step, and each
session keeps its user and role, or is as it should be. -/
theorem Sessions.Inv.move (h : m.Inv) (hw : ∀ target role, m.worker w ≠ .sweeping target role)
    (hclients : t.clients = m.server.clients) (hdata : t.users.data = m.server.users.data)
    (hkept : ∀ d dl, m.server.clientMem d = some dl →
      ∃ dl', t.clientMem d = some dl' ∧ dl'.isActive = dl.isActive ∧
        ((dl'.userId = dl.userId ∧ dl'.username = dl.username ∧ dl'.role = dl.role) ∨
          (dl'.userId ≠ -1 → m.server.fileRole dl'.username = some dl'.role ∨
            ∃ v role, v ≠ w ∧ m.worker v = .sweeping dl'.username role)))
    (hph : ph.Fits) : Sessions.Inv ⟨t, Function.update m.worker w ph⟩ where
  table := by
    rw [hdata]
    exact h.table
  connected := by
    intro i d hi
    rw [hclients] at hi
    obtain ⟨dl, hdl, hactive⟩ := h.connected i d hi
    obtain ⟨dl', hdl', hsame, _⟩ := hkept d dl hdl
    exact ⟨dl', hdl', by rw [hsame, hactive]⟩
  roles := by
    intro i d dl' hi hdl' hid
    rw [hclients] at hi
    obtain ⟨dl, hdl, _⟩ := h.connected i d hi
    obtain ⟨x, hx, _, hcases⟩ := hkept d dl hdl
    rw [hdl', Option.some.injEq] at hx
    subst hx
    have hfile : t.fileRole = m.server.fileRole := by
      funext username
      rw [Server.fileRole, Server.fileRole, hdata]
    rw [hfile]
    rcases hcases with ⟨hsameId, hsameName, hsameRole⟩ | hnew
    · rw [hsameId] at hid
      rw [hsameName, hsameRole]
      rcases h.roles i d dl hi hdl hid with hrole | hsweep
      · exact Or.inl hrole
      · exact Or.inr (sweeping_update (hsweep.others hw) t)
    · rcases hnew hid with hrole | hsweep
      · exact Or.inl hrole
      · exact Or.inr (sweeping_update hsweep t)
  fits := fits_update h.fits hph

/-- The sessions are as they were. -/
theorem Sessions.Inv.quiet (h : m.Inv) (hw : ∀ target role, m.worker w ≠ .sweeping target role)
    (hclients : t.clients = m.server.clients) (hdata : t.users.data = m.server.users.data)
    (hmem : t.clientMem = m.server.clientMem) (hph : ph.Fits) :
    Sessions.Inv ⟨t, Function.update m.worker w ph⟩ :=
  h.move hw hclients hdata (fun d dl hdl => ⟨dl, by rw [hmem, hdl], rfl, Or.inl ⟨rfl, rfl, rfl⟩⟩) hph

/-- The session of `c` is written. -/
theorem Sessions.Inv.write (h : m.Inv) (hw : ∀ target role, m.worker w ≠ .sweeping target role)
    {cl cl' : Client} (hcl : m.server.clientMem c = some cl) (hactive : cl'.isActive = cl.isActive)
    (hrole : cl'.userId ≠ -1 → m.server.fileRole cl'.username = some cl'.role ∨
      ∃ v role, v ≠ w ∧ m.worker v = .sweeping cl'.username role)
    (hph : ph.Fits) : Sessions.Inv ⟨m.server.setClient c cl', Function.update m.worker w ph⟩ := by
  refine h.move hw rfl rfl ?_ hph
  intro d dl hdl
  by_cases hd : d = c
  · subst hd
    rw [hcl, Option.some.injEq] at hdl
    subst hdl
    refine ⟨cl', ?_, hactive, Or.inr hrole⟩
    simp only [Server.setClient, Function.update_self]
  · refine ⟨dl, ?_, rfl, Or.inl ⟨rfl, rfl, rfl⟩⟩
    simp only [Server.setClient, Function.update_of_ne hd, hdl]

/-- `auth_promote_user` writes the file. -/
theorem Sessions.Inv.promoting (h : m.Inv) {target roleName : Bytes} {env : Env}
    (hphase : m.worker w = .promoting target roleName) {completes : Bool}
    (hwrote : env.wrote.headD userRecordSize = transfers completes) {out : Server × SessionPhase}
    (hstep : sessionStep env m.server (m.worker w) = some out) :
    Sessions.Inv ⟨out.1, Function.update m.worker w out.2⟩ := by
  obtain ⟨rs, htable⟩ := h.table
  have hfits : FitsIn maxRoleLen roleName := by
    have hw := h.fits w
    rw [hphase] at hw
    exact hw
  have hw : ∀ target role, m.worker w ≠ .sweeping target role := by
    rw [hphase]
    nofun
  obtain ⟨htable', hfailed, hothers⟩ := promote_accounts htable target hfits completes
  rw [hphase] at hstep
  simp only [sessionStep, hwrote, Option.some.injEq] at hstep
  subst hstep
  refine ⟨htable', h.connected, ?_, fits_update h.fits ?_⟩
  · intro i c cl hi hcl hid
    rcases h.roles i c cl hi hcl hid with hrole | hsweep
    · by_cases hdone : (authPromoteUser (transfers completes) m.server.users target roleName).1 = true
      · by_cases hname : cl.username = target
        · -- the worker itself will go through the sessions of this user
          refine Or.inr ⟨w, roleOfName roleName, ?_⟩
          simp only [Function.update_self, if_pos hdone, hname]
        · left
          rw [Server.fileRole] at hrole ⊢
          dsimp only
          rw [hothers _ hname, hrole]
      · left
        rw [Server.fileRole] at hrole ⊢
        dsimp only
        rw [hfailed (by simpa using hdone), hrole]
    · exact Or.inr (sweeping_update (hsweep.others hw) _)
  · split
    · trivial
    · trivial

/-- `handle_promote` goes through the sessions. -/
theorem Sessions.Inv.sweeping (h : m.Inv) {target : Bytes} {role : Role} {env : Env}
    (hphase : m.worker w = .sweeping target role)
    (hnew : m.server.fileRole target = some role ∨
      ∃ v role', v ≠ w ∧ m.worker v = .sweeping target role')
    {out : Server × SessionPhase} (hstep : sessionStep env m.server (m.worker w) = some out) :
    Sessions.Inv ⟨out.1, Function.update m.worker w out.2⟩ := by
  rw [hphase] at hstep
  obtain ⟨t, hloop, rfl⟩ := Option.map_eq_some_iff.mp hstep
  have hswept := promoteLoop_swept hloop
  have hfile : t.fileRole = m.server.fileRole := by
    funext username
    rw [Server.fileRole, Server.fileRole, hswept.users]
  refine ⟨?_, ?_, ?_, fits_update h.fits trivial⟩
  · dsimp only
    rw [hswept.users]
    exact h.table
  · intro i d hi
    dsimp only at hi ⊢
    rw [hswept.clients] at hi
    obtain ⟨dl, hdl, hactive⟩ := h.connected i d hi
    rcases hswept.records d with hsame | ⟨dl', hdl', _, hnow⟩
    · exact ⟨dl, by rw [hsame, hdl], hactive⟩
    · rw [hdl, Option.some.injEq] at hdl'
      subst hdl'
      exact ⟨_, hnow, hactive⟩
  · intro i d dl' hi hdl' hid
    dsimp only at hi hdl' ⊢
    rw [hswept.clients] at hi
    rw [hfile]
    obtain ⟨dl, hdl, hactive⟩ := h.connected i d hi
    by_cases hname : dl.username = target
    · rw [hswept.reached i (List.mem_finRange i) d dl hi hdl hactive hname, Option.some.injEq] at hdl'
      subst hdl'
      dsimp only
      rw [hname]
      rcases hnew with hrole | hother
      · exact Or.inl hrole
      · exact Or.inr (sweeping_update hother t)
    · have hkept : t.clientMem d = some dl := by
        rcases hswept.records d with hsame | ⟨x, hx, hxname, _⟩
        · rw [hsame, hdl]
        · rw [hdl, Option.some.injEq] at hx
          rw [← hx] at hxname
          exact absurd hxname hname
      rw [hkept, Option.some.injEq] at hdl'
      subst hdl'
      rcases h.roles i d dl hi hdl hid with hrole | ⟨v, role', hv⟩
      · exact Or.inl hrole
      · refine Or.inr (sweeping_update ⟨v, role', ?_, hv⟩ t)
        rintro rfl
        rw [hphase] at hv
        injection hv with htarget
        exact hname htarget.symm

/-- `accept_new_client`: a new session is not logged in. -/
theorem Sessions.Inv.accept (h : m.Inv) (fd : Nat) (env : Env) :
    Sessions.Inv { m with server := acceptNewClient env m.server fd } := by
  simp only [acceptNewClient]
  split
  · exact h
  · split
    · rename_i slot c _ _
      have hrecord : ∀ d dl, Function.update m.server.clientMem c (some (newClient fd slot)) d = some dl →
          dl = newClient fd slot ∨ d ≠ c ∧ m.server.clientMem d = some dl := by
        intro d dl hdl
        by_cases hd : d = c
        · rw [hd, Function.update_self, Option.some.injEq] at hdl
          exact Or.inl hdl.symm
        · rw [Function.update_of_ne hd] at hdl
          exact Or.inr ⟨hd, hdl⟩
      have hslot : ∀ i d, Function.update m.server.clients slot (some c) i = some d → d ≠ c →
          m.server.clients i = some d := by
        intro i d hi hd
        by_cases his : i = slot
        · rw [his, Function.update_self, Option.some.injEq] at hi
          exact absurd hi.symm hd
        · rwa [Function.update_of_ne his] at hi
      refine ⟨h.table, ?_, ?_, h.fits⟩
      · intro i d hi
        dsimp only at hi ⊢
        by_cases hd : d = c
        · exact ⟨newClient fd slot, by rw [hd, Function.update_self], rfl⟩
        · rw [Function.update_of_ne hd]
          exact h.connected i d (hslot i d hi hd)
      · intro i d dl hi hdl hid
        rcases hrecord d dl hdl with rfl | ⟨hd, hold⟩
        · exact absurd rfl hid
        · exact h.roles i d dl (hslot i d hi hd) hold hid
    · exact h

/-- A worker takes a command. -/
theorem sessionCommand_fits (c : Ptr) (line : Bytes) : (sessionCommand c line).Fits := by
  unfold sessionCommand
  split
  · trivial
  · rename_i hline
    split
    · exact splitCommand_args hline
    · split
      · trivial
      · split
        · exact splitCommand_args hline
        · trivial

theorem upperCase_fits {n : Nat} {name : Bytes} (h : FitsIn n name) : FitsIn n (upperCase name) := by
  refine ⟨by rw [upperCase, List.length_map]; exact h.1, ?_⟩
  intro hzero
  obtain ⟨b, hb, heq⟩ := List.mem_map.mp hzero
  split at heq
  · rename_i hlower
    have hb32 : b = 32 := by simpa [UInt8.sub_eq_iff_eq_add] using heq
    rw [hb32] at hlower
    exact absurd hlower.1 (by decide)
  · rw [heq] at hb
    exact h.2 hb

/-! ### Whole runs -/

/-- The role that a worker is about to store is the one in the file, or another
worker will go through the sessions of the user after it. -/
def Sessions.Current (m : Sessions) (w : Fin workerThreads) (username : Bytes) (role : Role) : Prop :=
  m.server.fileRole username = some role ∨ ∃ v role', v ≠ w ∧ m.worker v = .sweeping username role'

/-- Before each step: a worker that stores a role has a current one, and a write
to `users.bin` transfers a whole record or nothing. -/
def UpToDate (m : Sessions) : SessionOp → Prop
  | .accept _ _ | .start _ _ _ => True
  | .step w env =>
      (∀ c username role, m.worker w = .publishing c username role → m.Current w username role) ∧
      (∀ username role, m.worker w = .sweeping username role → m.Current w username role) ∧
      ∀ target roleName, m.worker w = .promoting target roleName →
        ∃ completes, env.wrote.headD userRecordSize = transfers completes

/-- A step of a worker. -/
theorem Sessions.Inv.work (h : m.Inv) {env : Env} (hdate : UpToDate m (.step w env))
    {out : Server × SessionPhase} (hstep : sessionStep env m.server (m.worker w) = some out) :
    Sessions.Inv ⟨out.1, Function.update m.worker w out.2⟩ := by
  obtain ⟨hpublish, hsweep, hwhole⟩ := hdate
  have hfits := h.fits w
  cases hphase : m.worker w with
  | idle =>
      rw [hphase] at hstep
      cases hstep
      exact h.quiet (by rw [hphase]; nofun) rfl rfl rfl trivial
  | login c args =>
      rw [hphase] at hstep hfits
      obtain ⟨cl, _, rfl⟩ := Option.map_eq_some_iff.mp hstep
      refine h.quiet (by rw [hphase]; nofun) rfl rfl rfl ?_
      dsimp only
      split
      · trivial
      · exact (scanPair_fits hfits 31 63).1.1
  | authenticating c username password =>
      rw [hphase] at hstep hfits
      obtain rfl := Option.some.inj hstep
      refine h.quiet (by rw [hphase]; nofun) rfl (authAuthenticate_data _ _ _) rfl ?_
      dsimp only
      split
      · exact hfits
      · trivial
  | publishing c username role =>
      have hcurrent := hpublish c username role hphase
      rw [hphase] at hstep hfits
      obtain ⟨cl, hcl, rfl⟩ := Option.map_eq_some_iff.mp hstep
      have hname : username.take (maxUsernameLen - 1) = username :=
        List.take_of_length_le (Nat.le_sub_one_of_lt hfits)
      refine h.write (by rw [hphase]; nofun) hcl rfl ?_ trivial
      intro _
      dsimp only
      rw [hname]
      exact hcurrent
  | logout c =>
      rw [hphase] at hstep
      obtain ⟨cl, _, rfl⟩ := Option.map_eq_some_iff.mp hstep
      refine h.quiet (by rw [hphase]; nofun) rfl rfl rfl ?_
      dsimp only
      split
      · trivial
      · trivial
  | leaving c =>
      rw [hphase] at hstep
      simp only [sessionStep] at hstep
      cases hcl : m.server.clientMem c with
      | none =>
          rw [hcl] at hstep
          cases hstep
      | some cl =>
          rw [hcl] at hstep
          dsimp only at hstep
          by_cases hroom : cl.currentRoom = none
          · rw [if_pos hroom] at hstep
            cases hstep
            exact h.quiet (by rw [hphase]; nofun) rfl rfl rfl trivial
          · rw [if_neg hroom] at hstep
            obtain ⟨⟨k, t⟩, hleave, rfl⟩ := Option.map_eq_some_iff.mp hstep
            obtain ⟨hclients, husers, hrecords⟩ := roomLeave_sessions hleave
            refine h.move (by rw [hphase]; nofun) hclients (by rw [husers]) ?_ trivial
            intro d dl hdl
            rcases hrecords d with hsame | ⟨dl', room, hdl', hnow⟩
            · exact ⟨dl, hsame.trans hdl, rfl, Or.inl ⟨rfl, rfl, rfl⟩⟩
            · have heq : dl' = dl := Option.some.inj (hdl'.symm.trans hdl)
              subst heq
              exact ⟨_, hnow, rfl, Or.inl ⟨rfl, rfl, rfl⟩⟩
  | clearing c =>
      rw [hphase] at hstep
      obtain ⟨cl, hcl, rfl⟩ := Option.map_eq_some_iff.mp hstep
      exact h.write (by rw [hphase]; nofun) hcl rfl (fun hid => absurd rfl hid) trivial
  | promote c args =>
      rw [hphase] at hstep hfits
      obtain ⟨cl, _, rfl⟩ := Option.map_eq_some_iff.mp hstep
      refine h.quiet (by rw [hphase]; nofun) rfl rfl rfl ?_
      dsimp only
      split
      · trivial
      · exact upperCase_fits (scanPair_fits hfits 31 15).2
  | promoting target roleName =>
      obtain ⟨completes, hwrote⟩ := hwhole target roleName hphase
      exact h.promoting hphase hwrote hstep
  | sweeping target role => exact h.sweeping hphase (hsweep target role hphase) hstep

/-- **A step keeps the invariant.** -/
theorem Sessions.Inv.step (h : m.Inv) {op : SessionOp} (hdate : UpToDate m op) {m' : Sessions}
    (hstep : m.step op = some m') : m'.Inv := by
  cases op with
  | accept fd env =>
      obtain rfl := Option.some.inj hstep
      exact h.accept fd env
  | start w slot line =>
      rw [Sessions.step] at hstep
      cases hphase : m.worker w with
      | idle =>
          rw [hphase] at hstep
          cases hc : m.server.clients slot with
          | none =>
              rw [hc] at hstep
              cases hstep
          | some c =>
              rw [hc] at hstep
              obtain rfl := Option.some.inj hstep
              exact h.quiet (by rw [hphase]; nofun) rfl rfl rfl (sessionCommand_fits c line)
      | _ =>
          rw [hphase] at hstep
          cases hstep
  | step w env =>
      obtain ⟨out, hout, rfl⟩ := Option.map_eq_some_iff.mp hstep
      exact h.work hdate hout

/-- **No role change is lost**: in every run in which the roles that are stored
are current, every session has the role of the file whenever no command is in
progress. -/
theorem role_changes_not_lost (s₀ : Server) (hs : SessionsOk s₀) (ops : List SessionOp)
    (halong : Along Sessions.step UpToDate (Sessions.start s₀) ops) (m : Sessions)
    (hrun : run Sessions.step (Sessions.start s₀) ops = some m) (hidle : ∀ w, m.worker w = .idle) :
    RolesAgree m.server := by
  have hinv := run_some_invariant (I := Sessions.Inv) (fun _ _ _ h hdate hstep => h.step hdate hstep)
    (Sessions.Inv.start hs) halong hrun
  intro i c cl hi hcl hid
  rcases hinv.roles i c cl hi hcl hid with hrole | ⟨w, role, hsweep⟩
  · exact hrole
  · rw [hidle w] at hsweep
    cases hsweep

/-! ### A login and a promotion -/

def SessionPhase.sweeps (username : Bytes) : SessionPhase → Bool
  | .sweeping target _ => target = username
  | _ => false

def SessionPhase.isIdle : SessionPhase → Bool
  | .idle => true
  | _ => false

/-- `Current`, computed. -/
def checkCurrent (m : Sessions) (w : Fin workerThreads) (username : Bytes) (role : Role) : Bool :=
  decide (m.server.fileRole username = some role) ||
    (List.finRange workerThreads).any fun v => decide (v ≠ w) && (m.worker v).sweeps username

/-- `UpToDate`, computed. -/
def checkUpToDate (m : Sessions) : SessionOp → Bool
  | .accept _ _ | .start _ _ _ => true
  | .step w env =>
      match m.worker w with
      | .publishing _ username role | .sweeping username role => checkCurrent m w username role
      | .promoting _ _ => decide (env.wrote.headD userRecordSize = userRecordSize)
      | _ => true

theorem current_of_check {username : Bytes} {role : Role} (h : checkCurrent m w username role = true) :
    m.Current w username role := by
  rcases Bool.or_eq_true_iff.mp h with hfile | hother
  · exact Or.inl (of_decide_eq_true hfile)
  · obtain ⟨v, _, hv⟩ := List.any_eq_true.mp hother
    obtain ⟨hne, hsweeps⟩ := Bool.and_eq_true_iff.mp hv
    cases hphase : m.worker v with
    | sweeping target role' =>
        rw [hphase] at hsweeps
        refine Or.inr ⟨v, role', of_decide_eq_true hne, ?_⟩
        rw [hphase, of_decide_eq_true hsweeps]
    | _ =>
        rw [hphase] at hsweeps
        cases hsweeps

theorem upToDate_of_check (m : Sessions) (op : SessionOp) (h : checkUpToDate m op = true) :
    UpToDate m op := by
  cases op with
  | accept fd env => trivial
  | start w slot line => trivial
  | step w env =>
      rw [checkUpToDate] at h
      refine ⟨?_, ?_, ?_⟩
      · intro c username role hphase
        rw [hphase] at h
        exact current_of_check h
      · intro username role hphase
        rw [hphase] at h
        exact current_of_check h
      · intro target roleName hphase
        rw [hphase] at h
        exact ⟨true, of_decide_eq_true h⟩

/-- A server that has just started. -/
theorem SessionsOk.start (db : FileDb) {users : File} {rs : List UserRecord} (h : TableOk users.data rs) :
    SessionsOk (Server.start db users) where
  table := ⟨rs, h⟩
  connected := by
    intro i c hi
    cases hi
  roles := by
    intro i c cl hi
    cases hi

/-- Bob registers. -/
def registerBob : UserCall := .add (ascii "bob") (ascii "secret") (ascii "USER") true

/-- The admin and bob. -/
def bobTable : File := (runCall startTable registerBob).2

theorem bobTable_ok : ∃ rs, TableOk bobTable.data rs := by
  have hfits : registerBob.Delivered := ⟨⟨by decide, by decide⟩, ⟨by decide, by decide⟩, ⟨by decide, by decide⟩⟩
  have hcall := startTable_ok.call hfits
  rw [bobTable]
  exact hcall.table

/-- Complete writes, and the address of a client. -/
def newEnv (c : Ptr) : Env := ⟨some c, RoomRecord.zero, []⟩

/-- Two clients, and the first logs in as the admin. -/
def adminLogin : List SessionOp :=
  [.accept 4 (newEnv 1), .accept 5 (newEnv 2), .start firstWorker firstSlot (ascii "LOGIN admin admin123"),
    .step firstWorker (newEnv 0), .step firstWorker (newEnv 0), .step firstWorker (newEnv 0)]

/-- One worker is between the two steps of `LOGIN bob`, and another has written
the new role of bob. -/
def bothOps : List SessionOp :=
  adminLogin ++ [.start firstWorker secondSlot (ascii "LOGIN bob secret"),
    .start secondWorker firstSlot (ascii "PROMOTE bob moderator"),
    .step firstWorker (newEnv 0), .step firstWorker (newEnv 0),
    .step secondWorker (newEnv 0), .step secondWorker (newEnv 0)]

/-- The session gets its role before the promotion goes through the sessions. -/
def keptOps : List SessionOp := bothOps ++ [.step firstWorker (newEnv 0), .step secondWorker (newEnv 0)]

/-- The session gets its role afterwards. -/
def lostOps : List SessionOp := bothOps ++ [.step secondWorker (newEnv 0), .step firstWorker (newEnv 0)]

/-- What a session says about its user. -/
structure SessionUser where
  userId : Int
  username : Bytes
  role : Role
  deriving DecidableEq

/-- What there is to see at the end of a run. -/
def Sessions.seen (m : Sessions) (i : Fin maxClients) (username : Bytes) :
    Bool × Option SessionUser × Option Role :=
  ((List.finRange workerThreads).all fun w => (m.worker w).isIdle,
    (m.server.clients i).bind fun c => (m.server.clientMem c).map fun cl => ⟨cl.userId, cl.username, cl.role⟩,
    m.server.fileRole username)

theorem idle_of_all (h : ((List.finRange workerThreads).all fun w => (m.worker w).isIdle) = true)
    (w : Fin workerThreads) : m.worker w = .idle := by
  have hw := List.all_eq_true.mp h w (List.mem_finRange w)
  cases hphase : m.worker w with
  | idle => rfl
  | _ =>
      rw [hphase] at hw
      cases hw

/-- Bob is a moderator in the file and in his session. -/
theorem role_kept_bob :
    ∃ m, run Sessions.step (Sessions.start (Server.start emptyDb bobTable)) keptOps = some m ∧
      (∀ w, m.worker w = .idle) ∧ RolesAgree m.server ∧
      m.seen secondSlot (ascii "bob") = (true, some ⟨0, ascii "bob", .moderator⟩, some .moderator) := by
  have hend : (run Sessions.step (Sessions.start (Server.start emptyDb bobTable)) keptOps).map
      (fun m => m.seen secondSlot (ascii "bob")) =
        some (true, some ⟨0, ascii "bob", .moderator⟩, some .moderator) := by decide +kernel
  have hcheck : checkAlong Sessions.step checkUpToDate (Sessions.start (Server.start emptyDb bobTable))
      keptOps = true := by decide +kernel
  obtain ⟨m, hm, hseen⟩ := Option.map_eq_some_iff.mp hend
  obtain ⟨rs, hrs⟩ := bobTable_ok
  have hidle : ∀ w, m.worker w = .idle := idle_of_all (congrArg Prod.fst hseen)
  exact ⟨m, hm, hidle, role_changes_not_lost _ (SessionsOk.start emptyDb hrs) keptOps
    (along_of_checkAlong upToDate_of_check hcheck) m hm hidle, hseen⟩

/-- Bob is a moderator in the file, and a user in his session. -/
theorem role_change_lost :
    ¬ ∀ s₀, SessionsOk s₀ → ∀ ops : List SessionOp, (∀ w env, .step w env ∈ ops → env.wrote = []) →
      ∀ m, run Sessions.step (Sessions.start s₀) ops = some m → (∀ w, m.worker w = .idle) →
        RolesAgree m.server := by
  intro hall
  have hend : (run Sessions.step (Sessions.start (Server.start emptyDb bobTable)) lostOps).map
      (fun m => m.seen secondSlot (ascii "bob")) =
        some (true, some ⟨0, ascii "bob", .user⟩, some .moderator) := by decide +kernel
  obtain ⟨m, hm, hseen⟩ := Option.map_eq_some_iff.mp hend
  obtain ⟨hidle, hsession, hfile⟩ : _ ∧ _ ∧ _ := by simpa only [Sessions.seen, Prod.mk.injEq] using hseen
  obtain ⟨rs, hrs⟩ := bobTable_ok
  have hwhole : ∀ w env, SessionOp.step w env ∈ lostOps → env.wrote = [] := by
    intro w env hop
    simp only [lostOps, bothOps, adminLogin, List.mem_append, List.mem_cons, List.not_mem_nil, or_false,
      SessionOp.step.injEq, reduceCtorEq, false_or] at hop
    have henv : env = newEnv 0 := by
      rcases hop with ((h | h | h) | h | h | h | h) | h | h
      all_goals exact h.2
    rw [henv]
    rfl
  have hagree := hall _ (SessionsOk.start emptyDb hrs) lostOps hwhole m hm (idle_of_all hidle)
  obtain ⟨c, hslot, hcl⟩ := Option.bind_eq_some_iff.mp hsession
  obtain ⟨cl, hcl, hvalues⟩ := Option.map_eq_some_iff.mp hcl
  obtain ⟨hid, hname, hrole⟩ : cl.userId = 0 ∧ _ ∧ _ := by
    simpa only [SessionUser.mk.injEq] using hvalues
  have hbob := hagree secondSlot c cl hslot hcl (by rw [hid]; decide)
  rw [hname, hrole, hfile] at hbob
  cases hbob

end EchoLink
