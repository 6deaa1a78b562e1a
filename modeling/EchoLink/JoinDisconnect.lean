import EchoLink.JoinLeave

/-!
# A client joins while it is disconnected

A worker runs the `JOIN` of a client, and the epoll thread runs
`disconnect_client` for the same client.  The worker looks at `is_active` once
and holds a reference to the client; `disconnect_client` holds `clients_mutex`
all the time, which the worker needs only at the end, to drop its reference.

`disconnect_client` takes the client out of the room it reads in
`current_room`.  If `room_join` puts the client into a room after that read, it
stays among the participants when both are done.  If it does so before, or in
the same room and before the removal, nobody is left behind
(`no_ghost_participant`).
-/

namespace EchoLink

open CText RecordFile LinkedList PackedArray PartialMap Runs

/-! ### The two threads -/

/-- Where the worker with a `JOIN` task stands. -/
inductive WorkPhase where
  /-- it has the task and has not looked at the client yet -/
  | took
  /-- the client was active -/
  | finding
  /-- `room_find_by_name` gave a room -/
  | found (r : Ptr)
  /-- `room_join` is called for the id of the room -/
  | joining (r : Ptr) (roomId : Nat) (ph : JoinPhase)
  /-- the command is done -/
  | dropping
  | finished

/-- The worker gives its reference back. -/
def Server.dropRef (s : Server) (c : Ptr) (cl : Client) : Server :=
  { s with
    clientMem := Function.update s.clientMem c
      (if cl.refCount - 1 = 0 then none else some { cl with refCount := cl.refCount - 1 }) }

/-- The next step of the worker; `locked` says that `clients_mutex` is taken. -/
def workStep (env : Env) (s : Server) (c : Ptr) (args : Option Bytes) (locked : Bool) :
    WorkPhase → Option (Server × WorkPhase)
  | .took => (s.clientMem c).map fun cl => (s, if cl.isActive = true then .finding else .dropping)
  | .finding =>
      match s.clientMem c with
      | none => none
      | some cl =>
          if cl.userId = -1 then some (s, .dropping)
          else if (scanPair 31 63 args).1 = [] then some (s, .dropping)
          else
            match roomFindByName s (scanPair 31 63 args).1 with
            | none => none
            | some none => some (s, .dropping)
            | some (some r) => some (s, .found r)
  | .found r => (s.roomMem r).map fun rm => (s, .joining r rm.roomId .called)
  | .joining r roomId ph =>
      match ph with
      | .returned result =>
          match s.clientMem c, joinResponse s r result with
          | some _, some _ => some (s, .dropping)
          | _, _ => none
      | ph =>
          (joinStep env s roomId (scanPair 31 63 args).2 c ph).map fun out =>
            (out.1, .joining r roomId out.2)
  | .dropping =>
      if locked then some (s, .dropping)
      else (s.clientMem c).map fun cl => (s.dropRef c cl, .finished)
  | .finished => some (s, .finished)

/-- Where `disconnect_client` stands. -/
inductive DropPhase where
  | called
  /-- it has the client and `clients_mutex`, and runs `remove_client_from_room` -/
  | leaving (slot : Fin maxClients) (c : Ptr) (ph : LeavePhase)
  /-- the client is out of its room -/
  | closing (slot : Fin maxClients) (c : Ptr)
  | finished

/-- `clients_mutex` is taken. -/
def DropPhase.locked : DropPhase → Bool
  | .leaving _ _ _ => true
  | .closing _ _ => true
  | _ => false

/-- The next step of `disconnect_client(fd)`. -/
def dropStep (env : Env) (s : Server) (fd : Nat) : DropPhase → Option (Server × DropPhase)
  | .called =>
      match (if fd < fdMapSize then s.fdToSlot fd else none) with
      | none => some (s, .finished)
      | some slot =>
          match s.clients slot with
          | none => some (s, .finished)
          | some c =>
              (s.clientMem c).map fun cl =>
                (s, if cl.fd = fd then .leaving slot c .called else .finished)
  | .leaving slot c ph =>
      (leaveStep false env s c ph).map fun out =>
        (out.1,
          match out.2 with
          | .returned _ => .closing slot c
          | ph' => .leaving slot c ph')
  | .closing slot c => (s.clientMem c).map fun cl => (s.dropClient fd slot c cl, .finished)
  | .finished => some (s, .finished)

/-- The client, its descriptor and the arguments of its command. -/
structure PartArgs where
  c : Ptr
  fd : Nat
  args : Option Bytes

/-- The server and the two threads. -/
structure Parting where
  server : Server
  work : WorkPhase
  drop : DropPhase

inductive PartOp where
  | work (env : Env)
  | drop (env : Env)

/-- The next step of one of the threads. -/
def Parting.step (a : PartArgs) (m : Parting) : PartOp → Option Parting
  | .work env =>
      (workStep env m.server a.c a.args m.drop.locked m.work).map fun out =>
        { m with server := out.1, work := out.2 }
  | .drop env =>
      (dropStep env m.server a.fd m.drop).map fun out => { m with server := out.1, drop := out.2 }

/-- The worker has taken the task, for which `handle_tcp_command` counted a
reference. -/
def Parting.start (s : Server) (c : Ptr) (cl : Client) : Parting where
  server := s.setClient c { cl with refCount := cl.refCount + 1 }
  work := .took
  drop := .called

/-- `disconnect_client` will take the client out of the room, if it is put
there now: it has not read `current_room` for the last time, or it has read
this room and not removed the client yet. -/
def DropPhase.mayRemove (p : Ptr) : DropPhase → Bool
  | .called => true
  | .leaving _ _ .called => true
  | .leaving _ _ .tested => true
  | .leaving _ _ (.locking q) => q = p
  | _ => false

/-- `room_join` admits the client only where `disconnect_client` will take it
out again. -/
def InTime (a : PartArgs) (m : Parting) : PartOp → Prop
  | .drop _ => True
  | .work _ => ∀ r roomId p x, m.work = .joining r roomId (.found p) → m.server.roomMem p = some x →
      Refused x (scanPair 31 63 a.args).2 ∨ m.drop.mayRemove p = true

/-! ### Where the client is -/

/-- The client is a participant of the room. -/
def Within (s : Server) (c q : Ptr) : Prop := ∃ r, s.roomMem q = some r ∧ c ∈ r.members

/-- The client is in the room that its `current_room` says, if in any, and only
once. -/
structure Placed (s : Server) (c : Ptr) : Prop where
  packed : ∀ q r, s.roomMem q = some r → Packed r.participants r.participantCount
  once : ∀ q r, s.roomMem q = some r → r.members.count c ≤ 1
  current : ∀ q, Within s c q → ∀ cl, s.clientMem c = some cl → cl.currentRoom = some q

/-- What holds of a client during a call that takes it out of its room. -/
def OutOk (s : Server) (c : Ptr) : LeavePhase → Prop
  | .called => True
  | .tested => True
  | .locking p => ∀ q, Within s c q → q = p
  | _ => ∀ q, ¬ Within s c q

/-- What holds of a client during a call of `room_join`. -/
def InOk (s : Server) (c : Ptr) : JoinPhase → Prop
  | .leaving ph => OutOk s c ph
  | .searching => ∀ q, ¬ Within s c q
  | .found _ => ∀ q, ¬ Within s c q
  | _ => True

/-- A step after which the client is in no other room than before, and which
leaves the table of clients alone. -/
structure Fewer (s s' : Server) (c : Ptr) : Prop where
  within : ∀ q, Within s' c q → Within s c q
  clients : s'.clients = s.clients
  fdToSlot : s'.fdToSlot = s.fdToSlot
  fd : ∀ cl', s'.clientMem c = some cl' → ∃ cl, s.clientMem c = some cl ∧ cl'.fd = cl.fd

variable {s s' : Server} {c : Ptr}

theorem OutOk.mono {ph : LeavePhase} (h : OutOk s c ph) (hf : ∀ q, Within s' c q → Within s c q) :
    OutOk s' c ph := by
  cases ph with
  | called => trivial
  | tested => trivial
  | locking p => exact fun q hq => h q (hf q hq)
  | _ => exact fun q hq => h q (hf q hq)

theorem InOk.mono {ph : JoinPhase} (h : InOk s c ph) (hf : ∀ q, Within s' c q → Within s c q) :
    InOk s' c ph := by
  cases ph with
  | leaving ph => exact OutOk.mono h hf
  | searching => exact fun q hq => h q (hf q hq)
  | found p => exact fun q hq => h q (hf q hq)
  | _ => trivial

/-- A step that frees rooms at most, and changes nothing in the others or in the
clients. -/
structure Frees (s s' : Server) : Prop where
  rooms : ∀ q r, s'.roomMem q = some r → s.roomMem q = some r
  clientMem : s'.clientMem = s.clientMem
  clients : s'.clients = s.clients
  fdToSlot : s'.fdToSlot = s.fdToSlot

theorem Frees.refl (s : Server) : Frees s s := ⟨fun _ _ h => h, rfl, rfl, rfl⟩

theorem Frees.fewer (h : Frees s s') (c : Ptr) : Fewer s s' c where
  within := by
    rintro q ⟨r, hr, hc⟩
    exact ⟨r, h.rooms q r hr, hc⟩
  clients := h.clients
  fdToSlot := h.fdToSlot
  fd := by
    intro cl hcl
    rw [h.clientMem] at hcl
    exact ⟨cl, hcl, rfl⟩

theorem Frees.placed (h : Frees s s') (hp : Placed s c) : Placed s' c where
  packed := fun q r hr => hp.packed q r (h.rooms q r hr)
  once := fun q r hr => hp.once q r (h.rooms q r hr)
  current := by
    intro q hq cl hcl
    rw [h.clientMem] at hcl
    exact hp.current q ((h.fewer c).within q hq) cl hcl

/-! ### Leaving -/

theorem setClient_self (s : Server) (c : Ptr) (cl : Client) : (s.setClient c cl).clientMem c = some cl :=
  Function.update_self _ _ _

theorem Placed.nowhere (hp : Placed s c) {cl : Client} (hcl : s.clientMem c = some cl)
    (hnone : cl.currentRoom = none) (q : Ptr) : ¬ Within s c q := by
  intro hq
  rw [hp.current q hq cl hcl] at hnone
  cases hnone

/-- The section that takes the client out of the participants. -/
theorem Placed.leave_section {clears : Bool} {env : Env} {p : Ptr} {ph' : LeavePhase} (hp : Placed s c)
    (h : ∀ q, Within s c q → q = p)
    (hstep : leaveStep clears env s c (.locking p) = some (s', ph')) :
    Fewer s s' c ∧ Placed s' c ∧ OutOk s' c ph' := by
  simp only [leaveStep] at hstep
  split at hstep
  · rename_i r cl hr hcl
    cases hremove : r.remove c cl.isMute with
    | none =>
        rw [hremove] at hstep
        cases hstep
        have hout := Room.remove_none (hp.packed p r hr) hremove
        refine ⟨(Frees.refl s).fewer c, hp, ?_⟩
        -- the client was not in the room, so it is in none
        rintro q ⟨x, hx, hc⟩
        have hq := h q ⟨x, hx, hc⟩
        subst hq
        rw [hr, Option.some.injEq] at hx
        subst hx
        exact hout hc
    | some r' =>
        rw [hremove] at hstep
        obtain ⟨hs', rfl⟩ := Prod.mk.inj (Option.some.inj hstep)
        have hwithout := Room.remove_some (hp.packed p r hr) hremove
        have hrooms : s'.roomMem = Function.update s.roomMem p (some r') := by
          rw [← hs']
          split <;> rfl
        have htable : s'.clients = s.clients ∧ s'.fdToSlot = s.fdToSlot := by
          rw [← hs']
          split <;> exact ⟨rfl, rfl⟩
        have hfd : ∀ cl', s'.clientMem c = some cl' → ∃ cl, s.clientMem c = some cl ∧ cl'.fd = cl.fd := by
          intro cl' hcl'
          rw [← hs'] at hcl'
          split at hcl'
          · rw [setClient_self, Option.some.injEq] at hcl'
            exact ⟨cl, hcl, by rw [← hcl']⟩
          · exact ⟨cl', hcl', rfl⟩
        have hnowhere : ∀ q, ¬ Within s' c q := by
          rintro q ⟨x, hx, hc⟩
          rw [hrooms] at hx
          rcases update_some_cases hx with ⟨rfl, rfl⟩ | ⟨hq, hx⟩
          · rw [hwithout.members] at hc
            have hone := hp.once q r hr
            have hpos := List.count_pos_iff.mpr hc
            rw [List.count_erase_self] at hpos
            omega
          · exact hq (h q ⟨x, hx, hc⟩)
        refine ⟨⟨fun q hq => absurd hq (hnowhere q), htable.1, htable.2, hfd⟩, ⟨?_, ?_, ?_⟩, hnowhere⟩
        · intro q x hx
          rw [hrooms] at hx
          rcases update_some_cases hx with ⟨rfl, rfl⟩ | ⟨_, hx⟩
          · exact hwithout.packed
          · exact hp.packed q x hx
        · intro q x hx
          rw [hrooms] at hx
          rcases update_some_cases hx with ⟨rfl, rfl⟩ | ⟨_, hx⟩
          · rw [hwithout.members]
            exact Nat.le_trans (List.erase_sublist.count_le c) (hp.once q r hr)
          · exact hp.once q x hx
        · exact fun q hq => absurd hq (hnowhere q)
  · cases hstep

/-- **One step** of a call that takes the client out of its room. -/
theorem Placed.leaveStep {clears : Bool} {env : Env} {ph ph' : LeavePhase} (hp : Placed s c)
    (h : OutOk s c ph) (hstep : leaveStep clears env s c ph = some (s', ph')) :
    Fewer s s' c ∧ Placed s' c ∧ OutOk s' c ph' := by
  have hfrees : Frees s s' → OutOk s c ph' → Fewer s s' c ∧ Placed s' c ∧ OutOk s' c ph' :=
    fun hf hok => ⟨hf.fewer c, hf.placed hp, hok.mono (hf.fewer c).within⟩
  cases ph with
  | called =>
      obtain ⟨cl, hcl, hout⟩ := Option.map_eq_some_iff.mp hstep
      cases hout
      refine hfrees (Frees.refl s) ?_
      split
      · rename_i hnone
        exact hp.nowhere hcl hnone
      · trivial
  | tested =>
      simp only [EchoLink.leaveStep] at hstep
      split at hstep
      · cases hstep
      · rename_i cl hcl
        split at hstep
        · rename_i hnone
          split at hstep
          · cases hstep
          · cases hstep
            exact hfrees (Frees.refl s) (hp.nowhere hcl hnone)
        · rename_i p hroom
          cases hstep
          refine hfrees (Frees.refl s) ?_
          intro q hq
          have hcurrent := hp.current q hq cl hcl
          rw [hroom, Option.some.injEq] at hcurrent
          exact hcurrent.symm
  | locking p => exact hp.leave_section h hstep
  | reading p =>
      simp only [EchoLink.leaveStep] at hstep
      split at hstep
      · cases hstep
      · split at hstep
        · cases hstep
          exact hfrees ⟨fun _ _ hr => hr, rfl, rfl, rfl⟩ h
        · cases hstep
          exact hfrees ⟨fun _ _ hr => hr, rfl, rfl, rfl⟩ h
  | counting p rec' =>
      obtain ⟨r, _, hout⟩ := Option.map_eq_some_iff.mp hstep
      cases hout
      exact hfrees (Frees.refl s) h
  | writing p rec' =>
      obtain ⟨r, _, hout⟩ := Option.map_eq_some_iff.mp hstep
      cases hout
      exact hfrees ⟨fun _ _ hr => hr, rfl, rfl, rfl⟩ h
  | testing p =>
      obtain ⟨r, _, hout⟩ := Option.map_eq_some_iff.mp hstep
      cases hout
      refine hfrees (Frees.refl s) ?_
      split <;> exact h
  | empty p =>
      obtain ⟨r, _, hout⟩ := Option.map_eq_some_iff.mp hstep
      cases hout
      exact hfrees (Frees.refl s) h
  | deleting roomId =>
      simp only [EchoLink.leaveStep] at hstep
      split at hstep
      · cases hstep
      · cases hstep
        exact hfrees (Frees.refl s) h
      · rename_i p _
        obtain ⟨s₁, hunlink, hout⟩ := Option.map_eq_some_iff.mp hstep
        cases hout
        unfold Server.unlinkRoom at hunlink
        split at hunlink
        · cases hunlink
          exact hfrees ⟨fun _ _ hr => hr, rfl, rfl, rfl⟩ h
        · cases hunlink
  | unlinked p roomId =>
      simp only [EchoLink.leaveStep] at hstep
      split at hstep
      · cases hstep
        exact hfrees ⟨fun _ _ hr => hr, rfl, rfl, rfl⟩ h
      · cases hstep
        exact hfrees ⟨fun _ _ hr => hr, rfl, rfl, rfl⟩ h
  | erasing p roomId rec' =>
      cases hstep
      exact hfrees ⟨fun _ _ hr => hr, rfl, rfl, rfl⟩ h
  | freeing p =>
      obtain ⟨r, _, hout⟩ := Option.map_eq_some_iff.mp hstep
      cases hout
      exact hfrees ⟨fun _ _ hr => (update_none_cases hr).2, rfl, rfl, rfl⟩ h
  | returned result =>
      cases hstep
      exact hfrees (Frees.refl s) h

/-! ### Joining -/

/-- The client is put into the room. -/
structure PutIn (s s' : Server) (c p : Ptr) : Prop where
  placed : Placed s' c
  only : ∀ q, Within s' c q → q = p
  clients : s'.clients = s.clients
  fdToSlot : s'.fdToSlot = s.fdToSlot
  fd : ∀ cl', s'.clientMem c = some cl' → ∃ cl, s.clientMem c = some cl ∧ cl'.fd = cl.fd

/-- A client that is in no room is put into one. -/
theorem Placed.enter (hp : Placed s c) (hnowhere : ∀ q, ¬ Within s c q) {p : Ptr} {r : Room} {cl : Client}
    (hr : s.roomMem p = some r) (hcl : s.clientMem c = some cl) :
    PutIn s ((s.setRoom p (r.add c)).setClient c { cl with currentRoom := some p }) c p := by
  obtain ⟨hpacked, hmembers⟩ := Room.add_members (hp.packed p r hr) c
  have hout : c ∉ r.members := fun hc => hnowhere p ⟨r, hr, hc⟩
  have hclient : ∀ cl', ((s.setRoom p (r.add c)).setClient c { cl with currentRoom := some p }).clientMem c =
      some cl' → cl' = { cl with currentRoom := some p } := by
    intro cl' hcl'
    rw [setClient_self, Option.some.injEq] at hcl'
    exact hcl'.symm
  have honly : ∀ q, Within ((s.setRoom p (r.add c)).setClient c { cl with currentRoom := some p }) c q →
      q = p := by
    rintro q ⟨x, hx, hc⟩
    rcases update_some_cases hx with ⟨rfl, _⟩ | ⟨_, hx⟩
    · rfl
    · exact absurd ⟨x, hx, hc⟩ (hnowhere q)
  refine ⟨⟨?_, ?_, ?_⟩, honly, rfl, rfl, ?_⟩
  · intro q x hx
    rcases update_some_cases hx with ⟨_, rfl⟩ | ⟨_, hx⟩
    · exact hpacked
    · exact hp.packed q x hx
  · intro q x hx
    rcases update_some_cases hx with ⟨_, rfl⟩ | ⟨_, hx⟩
    · rw [hmembers, List.count_append, List.count_eq_zero.mpr hout, List.count_singleton_self]
    · exact hp.once q x hx
  · intro q hq cl' hcl'
    rw [hclient cl' hcl', honly q hq]
  · intro cl' hcl'
    exact ⟨cl, hcl, by rw [hclient cl' hcl']⟩

/-- **One step** of `room_join`: the client is in no other room than before, or
it was in none and is put into the room that was found. -/
theorem Placed.joinStep {env : Env} {roomId : Nat} {password : Bytes} {ph ph' : JoinPhase}
    (hp : Placed s c) (h : InOk s c ph) (hstep : joinStep env s roomId password c ph = some (s', ph')) :
    (Fewer s s' c ∧ Placed s' c ∧ InOk s' c ph') ∨
    ∃ p r, ph = .found p ∧ s.roomMem p = some r ∧ ¬ Refused r password ∧ ph' = .reading p ∧
      PutIn s s' c p := by
  have hfrees : Frees s s' → InOk s c ph' → (Fewer s s' c ∧ Placed s' c ∧ InOk s' c ph') :=
    fun hf hok => ⟨hf.fewer c, hf.placed hp, hok.mono (hf.fewer c).within⟩
  cases ph with
  | called =>
      obtain ⟨cl, hcl, hout⟩ := Option.map_eq_some_iff.mp hstep
      cases hout
      refine Or.inl (hfrees (Frees.refl s) ?_)
      split
      · rename_i hnone
        exact hp.nowhere hcl hnone
      · trivial
  | leaving ph =>
      obtain ⟨⟨s₁, ph₁⟩, hleave, hout⟩ := Option.map_eq_some_iff.mp hstep
      cases hout
      obtain ⟨hfewer, hplaced, hok⟩ := hp.leaveStep h hleave
      refine Or.inl ⟨hfewer, hplaced, ?_⟩
      dsimp only
      cases ph₁ <;> exact hok
  | searching =>
      simp only [EchoLink.joinStep] at hstep
      split at hstep
      · cases hstep
      · cases hstep
        exact Or.inl (hfrees (Frees.refl s) trivial)
      · cases hstep
        exact Or.inl (hfrees (Frees.refl s) h)
  | found p =>
      simp only [EchoLink.joinStep, enterSection] at hstep
      split at hstep
      · rename_i r cl hr hcl
        split at hstep
        · cases hstep
          exact Or.inl (hfrees (Frees.refl s) trivial)
        · rename_i hpassword
          split at hstep
          · cases hstep
            exact Or.inl (hfrees (Frees.refl s) trivial)
          · rename_i hfull
            cases hstep
            exact Or.inr ⟨p, r, rfl, hr, fun hrefused => hrefused.elim hpassword hfull, rfl,
              hp.enter h hr hcl⟩
      · cases hstep
  | reading p =>
      simp only [EchoLink.joinStep] at hstep
      split at hstep
      · cases hstep
        exact Or.inl (hfrees ⟨fun _ _ hr => hr, rfl, rfl, rfl⟩ trivial)
      · cases hstep
        exact Or.inl (hfrees ⟨fun _ _ hr => hr, rfl, rfl, rfl⟩ trivial)
  | counting p rec' =>
      obtain ⟨r, _, hout⟩ := Option.map_eq_some_iff.mp hstep
      cases hout
      exact Or.inl (hfrees (Frees.refl s) trivial)
  | writing p rec' =>
      cases hstep
      exact Or.inl (hfrees ⟨fun _ _ hr => hr, rfl, rfl, rfl⟩ trivial)
  | logging p =>
      obtain ⟨r, _, hout⟩ := Option.map_eq_some_iff.mp hstep
      cases hout
      exact Or.inl (hfrees (Frees.refl s) trivial)
  | returned result =>
      cases hstep
      exact Or.inl (hfrees (Frees.refl s) trivial)

/-! ### Both threads -/

/-- What holds of the worker. -/
def WorkOk (s : Server) (c : Ptr) : WorkPhase → Prop
  | .joining _ _ ph => InOk s c ph
  | _ => True

/-- What holds of `disconnect_client`, which is called for the client. -/
def DropOk (a : PartArgs) (slot : Fin maxClients) (s : Server) : DropPhase → Prop
  | .called => a.fd < fdMapSize ∧ s.fdToSlot a.fd = some slot ∧ s.clients slot = some a.c ∧
      ∀ cl, s.clientMem a.c = some cl → cl.fd = a.fd
  | .leaving _ d ph => d = a.c ∧ OutOk s a.c ph
  | .closing _ d => d = a.c ∧ ∀ q, ¬ Within s a.c q
  | .finished => ∀ q, ¬ Within s a.c q

/-- The invariant of the two threads. -/
structure PartOk (a : PartArgs) (slot : Fin maxClients) (m : Parting) : Prop where
  placed : Placed m.server a.c
  work : WorkOk m.server a.c m.work
  drop : DropOk a slot m.server m.drop

variable {a : PartArgs} {slot : Fin maxClients} {m m' : Parting}

theorem WorkOk.mono {ph : WorkPhase} (h : WorkOk s c ph) (hf : ∀ q, Within s' c q → Within s c q) :
    WorkOk s' c ph := by
  cases ph with
  | joining r roomId ph => exact InOk.mono h hf
  | _ => trivial

/-- The look at the table still finds the client. -/
theorem DropOk.lookup (h : DropOk a slot s .called) (hclients : s'.clients = s.clients)
    (hfdToSlot : s'.fdToSlot = s.fdToSlot)
    (hfd : ∀ cl', s'.clientMem a.c = some cl' → ∃ cl, s.clientMem a.c = some cl ∧ cl'.fd = cl.fd) :
    DropOk a slot s' .called := by
  obtain ⟨hlt, hslot, hclient, hcl⟩ := h
  refine ⟨hlt, by rw [hfdToSlot, hslot], by rw [hclients, hclient], ?_⟩
  intro cl' hcl'
  obtain ⟨cl, hmem, hsame⟩ := hfd cl' hcl'
  rw [hsame, hcl cl hmem]

theorem DropOk.fewer {ph : DropPhase} (h : DropOk a slot s ph) (hf : Fewer s s' a.c) :
    DropOk a slot s' ph := by
  cases ph with
  | called => exact h.lookup hf.clients hf.fdToSlot hf.fd
  | leaving slot' d ph => exact ⟨h.1, h.2.mono hf.within⟩
  | closing slot' d => exact ⟨h.1, fun q hq => h.2 q (hf.within q hq)⟩
  | finished => exact fun q hq => h q (hf.within q hq)

/-- The client comes into a room while `disconnect_client` will take it out. -/
theorem DropOk.putIn {ph : DropPhase} {p : Ptr} (h : DropOk a slot s ph) (hin : PutIn s s' a.c p)
    (hmay : ph.mayRemove p = true) : DropOk a slot s' ph := by
  cases ph with
  | called => exact h.lookup hin.clients hin.fdToSlot hin.fd
  | leaving slot' d ph =>
      refine ⟨h.1, ?_⟩
      cases ph with
      | called => trivial
      | tested => trivial
      | locking v =>
          have hv : v = p := by simpa [DropPhase.mayRemove] using hmay
          rw [hv]
          exact hin.only
      | _ => cases hmay
  | closing slot' d => cases hmay
  | finished => cases hmay

/-- A step of the worker that does not move the client. -/
theorem PartOk.work_fewer (h : PartOk a slot m) {ph : WorkPhase} (hf : Fewer m.server s' a.c)
    (hp : Placed s' a.c) (hok : WorkOk s' a.c ph) : PartOk a slot { m with server := s', work := ph } :=
  ⟨hp, hok, h.drop.fewer hf⟩

/-- A step of `room_join`. -/
theorem PartOk.work_join (h : PartOk a slot m) {env : Env} (htime : InTime a m (.work env)) {r : Ptr}
    {roomId : Nat} {ph ph' : JoinPhase} (hph : m.work = .joining r roomId ph)
    (hstep : joinStep env m.server roomId (scanPair 31 63 a.args).2 a.c ph = some (s', ph')) :
    PartOk a slot { m with server := s', work := .joining r roomId ph' } := by
  have hwork := h.work
  rw [hph] at hwork
  rcases h.placed.joinStep hwork hstep with ⟨hf, hp, hok⟩ | ⟨p, x, rfl, hx, hrefused, rfl, hin⟩
  · exact h.work_fewer hf hp hok
  · have hmay := (htime r roomId p x hph hx).resolve_left hrefused
    exact ⟨hin.placed, trivial, h.drop.putIn hin hmay⟩

/-- The worker gives its reference back. -/
theorem PartOk.work_drop (h : PartOk a slot m) {cl : Client} (hcl : m.server.clientMem a.c = some cl) :
    PartOk a slot { m with server := m.server.dropRef a.c cl, work := .finished } := by
  have hclient : ∀ cl', (m.server.dropRef a.c cl).clientMem a.c = some cl' →
      cl'.fd = cl.fd ∧ cl'.currentRoom = cl.currentRoom := by
    intro cl' hcl'
    simp only [Server.dropRef, Function.update_self] at hcl'
    split at hcl'
    · cases hcl'
    · cases hcl'
      exact ⟨rfl, rfl⟩
  refine h.work_fewer ⟨fun q hq => hq, rfl, rfl, fun cl' hcl' => ⟨cl, hcl, (hclient cl' hcl').1⟩⟩ ?_ trivial
  refine ⟨h.placed.packed, h.placed.once, ?_⟩
  intro q hq cl' hcl'
  rw [(hclient cl' hcl').2]
  exact h.placed.current q hq cl hcl

/-- **A step of the worker.** -/
theorem PartOk.stepWork (h : PartOk a slot m) {env : Env} (htime : InTime a m (.work env))
    (hstep : m.step a (.work env) = some m') : PartOk a slot m' := by
  obtain ⟨⟨s', ph'⟩, hwork, rfl⟩ := Option.map_eq_some_iff.mp hstep
  have hstay : ∀ ph, WorkOk m.server a.c ph → PartOk a slot { m with server := m.server, work := ph } :=
    fun ph hok => h.work_fewer ((Frees.refl _).fewer a.c) h.placed hok
  cases hph : m.work with
  | took =>
      rw [hph] at hwork
      obtain ⟨cl, _, hout⟩ := Option.map_eq_some_iff.mp hwork
      cases hout
      refine hstay _ ?_
      split <;> trivial
  | finding =>
      simp only [hph, workStep] at hwork
      split at hwork
      · cases hwork
      · split at hwork
        · cases hwork
          exact hstay _ trivial
        · split at hwork
          · cases hwork
            exact hstay _ trivial
          · split at hwork
            · cases hwork
            · cases hwork
              exact hstay _ trivial
            · cases hwork
              exact hstay _ trivial
  | found r =>
      rw [hph] at hwork
      obtain ⟨rm, _, hout⟩ := Option.map_eq_some_iff.mp hwork
      cases hout
      exact hstay _ trivial
  | joining r roomId ph =>
      cases ph with
      | returned result =>
          simp only [hph, workStep] at hwork
          split at hwork
          · cases hwork
            exact hstay _ trivial
          · cases hwork
      | _ =>
          rw [hph] at hwork
          simp only [workStep] at hwork
          obtain ⟨⟨s₁, ph₁⟩, hjoin, hout⟩ := Option.map_eq_some_iff.mp hwork
          cases hout
          exact h.work_join htime hph hjoin
  | dropping =>
      simp only [hph, workStep] at hwork
      split at hwork
      · cases hwork
        exact hstay _ trivial
      · obtain ⟨cl, hcl, hout⟩ := Option.map_eq_some_iff.mp hwork
        cases hout
        exact h.work_drop hcl
  | finished =>
      rw [hph] at hwork
      cases hwork
      exact hstay _ trivial

/-- **A step of `disconnect_client`.** -/
theorem PartOk.stepDrop (h : PartOk a slot m) {env : Env} (hstep : m.step a (.drop env) = some m') :
    PartOk a slot m' := by
  obtain ⟨⟨s', ph'⟩, hdrop, rfl⟩ := Option.map_eq_some_iff.mp hstep
  have hok := h.drop
  cases hph : m.drop with
  | called =>
      rw [hph] at hok
      obtain ⟨hlt, hslot, hclient, hfd⟩ := hok
      simp only [hph, dropStep, if_pos hlt, hslot, hclient] at hdrop
      obtain ⟨cl, hcl, hout⟩ := Option.map_eq_some_iff.mp hdrop
      rw [if_pos (hfd cl hcl)] at hout
      cases hout
      exact ⟨h.placed, h.work, rfl, trivial⟩
  | leaving slot' d ph =>
      rw [hph] at hok hdrop
      obtain ⟨rfl, hout⟩ := hok
      obtain ⟨⟨s₁, ph₁⟩, hleave, hpair⟩ := Option.map_eq_some_iff.mp hdrop
      cases hpair
      obtain ⟨hf, hp, hok⟩ := h.placed.leaveStep hout hleave
      refine ⟨hp, h.work.mono hf.within, ?_⟩
      dsimp only
      cases ph₁ <;> exact ⟨rfl, hok⟩
  | closing slot' d =>
      rw [hph] at hok hdrop
      obtain ⟨rfl, hnowhere⟩ := hok
      obtain ⟨cl, _, hout⟩ := Option.map_eq_some_iff.mp hdrop
      cases hout
      exact ⟨⟨h.placed.packed, h.placed.once, fun q hq => absurd hq (hnowhere q)⟩,
        h.work.mono fun q hq => hq, hnowhere⟩
  | finished =>
      rw [hph] at hok hdrop
      cases hdrop
      exact ⟨h.placed, h.work, hok⟩

/-! ### The threads from a reachable state -/

theorem PartOk.start {l : List Ptr} (hok : ServerOk s l) {cl : Client} (hcl : s.Holds a.c cl)
    (hlt : a.fd < fdMapSize) (hslot : s.fdToSlot a.fd = some cl.slot) (hfd : cl.fd = a.fd) :
    PartOk a cl.slot (Parting.start s a.c cl) := by
  have hclient : ∀ cl', (Parting.start s a.c cl).server.clientMem a.c = some cl' →
      cl' = { cl with refCount := cl.refCount + 1 } := by
    intro cl' hcl'
    rw [Parting.start, setClient_self, Option.some.injEq] at hcl'
    exact hcl'.symm
  refine ⟨⟨hok.rooms.packed, ?_, ?_⟩, trivial, hlt, hslot, hcl.1, ?_⟩
  · intro q r hr
    exact List.nodup_iff_count_le_one.mp (hok.views.nodup q _ (ServerOk.membersOf_eq hr)) a.c
  · rintro q ⟨r, hr, hc⟩ cl' hcl'
    obtain ⟨cl₀, hcl₀, hroom⟩ := hok.of_member hr hc
    have hsame := hcl₀.2
    rw [hcl.2, Option.some.injEq] at hsame
    rw [hclient cl' hcl', ← hroom, ← hsame]
  · intro cl' hcl'
    rw [hclient cl' hcl', hfd]

/-- **No ghost participants**: for every reachable state, every client in it
and every order of the steps of its `disconnect_client` and of a worker with a
`JOIN` of it, when `disconnect_client` is done no room has the client among
its participants. -/
theorem no_ghost_participant (db : FileDb) (users : File) (ops : List (Op × Env)) (s : Server)
    (hfresh : Along Server.step Fresh (Server.start db users) ops)
    (hreach : run Server.step (Server.start db users) ops = some s) (a : PartArgs) (cl : Client)
    (hcl : s.Holds a.c cl) (hlt : a.fd < fdMapSize) (hslot : s.fdToSlot a.fd = some cl.slot)
    (hfd : cl.fd = a.fd) (steps : List PartOp) (m : Parting)
    (h : Along (Parting.step a) (InTime a) (Parting.start s a.c cl) steps)
    (hrun : run (Parting.step a) (Parting.start s a.c cl) steps = some m) (hdone : m.drop = .finished) :
    ∀ q r, m.server.roomMem q = some r → a.c ∉ r.members := by
  obtain ⟨l, hok⟩ := reachable_ok hfresh hreach
  have hm : PartOk a cl.slot m := by
    refine run_some_invariant ?_ (PartOk.start hok hcl hlt hslot hfd) h hrun
    intro m op m' hm htime hstep
    cases op with
    | work env => exact hm.stepWork htime hstep
    | drop env => exact hm.stepDrop hstep
  have hdrop := hm.drop
  rw [hdone] at hdrop
  intro q r hr hc
  exact hdrop q ⟨r, hr, hc⟩

/-- `InTime`, computed. -/
def checkInTime (m : Parting) : PartOp → Bool
  | .drop _ => true
  | .work _ =>
      match m.work with
      | .joining _ _ (.found p) => m.drop.mayRemove p
      | _ => true

theorem inTime_of_check (a : PartArgs) (m : Parting) (op : PartOp) (h : checkInTime m op = true) :
    InTime a m op := by
  cases op with
  | drop env => trivial
  | work env =>
      intro r roomId p x hp _
      simp only [checkInTime, hp] at h
      exact Or.inr h

/-- Bob sends `JOIN lobby` and hangs up. -/
def bobParts : PartArgs := ⟨3, 6, some (ascii "lobby")⟩

def workSteps (n : Nat) : List PartOp := List.replicate n (.work (completeEnv none))

def dropSteps (n : Nat) : List PartOp := List.replicate n (.drop (completeEnv none))

/-- Bob is in the room when `disconnect_client` looks. -/
def bobSeen : List PartOp := workSteps 6 ++ dropSteps 9 ++ workSteps 6

/-- `disconnect_client` finds bob in no room, and the worker puts him into one. -/
def bobUnseen : List PartOp := workSteps 5 ++ dropSteps 3 ++ workSteps 7

/-- The state where the threads begin. -/
theorem bob_parts : ∃ s cl, run Server.step (Server.start emptyDb startTable) (lobbyOps.take 7) = some s ∧
    s.Holds 3 cl ∧ s.fdToSlot 6 = some cl.slot ∧ cl.fd = 6 := by
  obtain ⟨s, _, cl, hs, _, _, _, hclient, hmap, hcl, hfd, hslot⟩ := bob_outside
  exact ⟨s, cl, hs, ⟨by rw [hslot, hclient], hcl⟩, by rw [hslot, hmap], hfd⟩

/-- The run of the two threads from that state. -/
def bobPartsRun (steps : List PartOp) : Option Parting :=
  (run Server.step (Server.start emptyDb startTable) (lobbyOps.take 7)).bind fun s =>
    (s.clientMem 3).bind fun cl => run (Parting.step bobParts) (Parting.start s 3 cl) steps

theorem lobbyOps_seven_fresh :
    Along Server.step Fresh (Server.start emptyDb startTable) (lobbyOps.take 7) :=
  along_imp (fun _ _ h => h.1) lobbyOps_seven

/-- Bob is out of the room again, and both threads are done. -/
theorem bob_seen_removed :
    (∃ m, bobPartsRun bobSeen = some m ∧ ∀ q r, m.server.roomMem q = some r → 3 ∉ r.members) ∧
    (bobPartsRun bobSeen).map (fun m => ((m.server.roomMem 2).map Room.members,
      (m.server.clientMem 3).isNone)) = some (some [1], true) := by
  obtain ⟨s, cl, hs, hcl, hslot, hfd⟩ := bob_parts
  refine ⟨?_, by decide +kernel⟩
  have hcheck : (run Server.step (Server.start emptyDb startTable) (lobbyOps.take 7)).bind
      (fun s => (s.clientMem 3).map fun cl =>
        checkAlong (Parting.step bobParts) checkInTime (Parting.start s 3 cl) bobSeen) = some true := by
    decide +kernel
  have hend : (bobPartsRun bobSeen).map (fun m => match m.drop with
      | .finished => true
      | _ => false) = some true := by decide +kernel
  rw [hs, Option.bind_some, hcl.2, Option.map_some, Option.some.injEq] at hcheck
  obtain ⟨m, hm, hdrop⟩ := Option.map_eq_some_iff.mp hend
  have hdone : m.drop = .finished := by
    split at hdrop
    · assumption
    · cases hdrop
  refine ⟨m, hm, ?_⟩
  rw [bobPartsRun, hs, Option.bind_some, hcl.2, Option.bind_some] at hm
  exact no_ghost_participant emptyDb startTable _ s lobbyOps_seven_fresh hs bobParts cl hcl (by decide)
    hslot hfd bobSeen m (along_of_checkAlong (inTime_of_check bobParts) hcheck) hm hdone

/-- Both are done, bob is freed, and the room still has him. -/
theorem bob_unseen_stays :
    ¬ ∀ (db : FileDb) (users : File) (ops : List (Op × Env)) (s : Server),
      Along Server.step Fresh (Server.start db users) ops →
      run Server.step (Server.start db users) ops = some s →
      ∀ (a : PartArgs) (cl : Client), s.Holds a.c cl → a.fd < fdMapSize →
      s.fdToSlot a.fd = some cl.slot → cl.fd = a.fd → ∀ steps m,
      run (Parting.step a) (Parting.start s a.c cl) steps = some m → m.work = .finished →
      m.drop = .finished → ∀ q r, m.server.roomMem q = some r → a.c ∉ r.members := by
  intro hall
  obtain ⟨s, cl, hs, hcl, hslot, hfd⟩ := bob_parts
  have hend : (bobPartsRun bobUnseen).map (fun m => match m.work, m.drop with
      | .finished, .finished => true
      | _, _ => false) = some true := by decide +kernel
  have hroom : (bobPartsRun bobUnseen).map (fun m => ((m.server.roomMem 2).map Room.members,
      (m.server.clientMem 3).isNone)) = some (some [1, 3], true) := by decide +kernel
  obtain ⟨m, hm, hphases⟩ := Option.map_eq_some_iff.mp hend
  rw [hm, Option.map_some, Option.some.injEq] at hroom
  obtain ⟨hmembers, _⟩ := Prod.mk.inj hroom
  obtain ⟨r, hr, hlist⟩ := Option.map_eq_some_iff.mp hmembers
  have hdone : m.work = .finished ∧ m.drop = .finished := by
    split at hphases
    · rename_i hwork hdrop
      exact ⟨hwork, hdrop⟩
    · cases hphases
  rw [bobPartsRun, hs, Option.bind_some, hcl.2, Option.bind_some] at hm
  refine hall emptyDb startTable _ s lobbyOps_seven_fresh hs bobParts cl hcl (by decide) hslot hfd
    bobUnseen m hm hdone.1 hdone.2 2 r hr ?_
  rw [hlist]
  decide

end EchoLink
