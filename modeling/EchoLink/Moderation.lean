import EchoLink.RecordRaces

/-!
# `handle_kick` and `handle_mute`, step by step

The two handlers lock the mutex of the room of the client `c`, go through its
participants and unlock it, and read `c->current_room` anew for each of these.
Here each read of `current_room`, each lock and each unlock is one step.  On
other workers `room_join` and `room_leave` run, for `c` or for other clients,
and what such a call does between its lock and its unlock is one step.  A
worker that wants a mutex which another one has does not move.

On its own a handler does what `handle_mute` and `handle_kick` do
(`mute_alone`, `kick_alone`).
-/

namespace EchoLink

open CText RecordFile LinkedList PackedArray PartialMap Runs Relation

/-! ### The other workers -/

/-- Who has locked the mutex of a room. -/
inductive Owner (ι : Type) where
  | handler
  | call (i : ι)
  deriving DecidableEq

/-- What a call has to do with the mutex of a room. -/
inductive CallLock where
  | outside
  /-- it has locked the mutex -/
  | inside (p : Ptr)
  /-- it has done what it wanted there -/
  | after (p : Ptr)
  deriving DecidableEq

/-- A call of `room_join` for a room id, or of `room_leave`. -/
structure RoomCall where
  roomId : Nat
  call : MemberCall
  lock : CallLock

/-- The room whose mutex a call wants next. -/
def MemberCall.wants : MemberCall → Option Ptr
  | .join _ _ (.found p) => some p
  | .join _ _ (.leaving (.locking p)) => some p
  | .leave _ (.locking p) => some p
  | _ => none

/-- The mutexes of the rooms. -/
abbrev Mutexes (ι : Type) := Ptr → Option (Owner ι)

variable {ι : Type}

/-- The next step of a call. -/
def callStep (o : Owner ι) (env : Env) (s : Server) (mutex : Mutexes ι) (x : RoomCall) :
    Option (Server × Mutexes ι × RoomCall) :=
  match x.lock with
  | .outside =>
      match x.call.wants with
      | some p =>
          (s.roomMem p).map fun _ =>
            if mutex p = none then (s, Function.update mutex p (some o), { x with lock := .inside p })
            else (s, mutex, x)
      | none =>
          (memberStep x.roomId env s x.call).map fun out => (out.1, mutex, { x with call := out.2 })
  | .inside p =>
      (memberStep x.roomId env s x.call).map fun out =>
        (out.1, mutex, { x with call := out.2, lock := .after p })
  | .after p => (s.roomMem p).map fun _ => (s, Function.update mutex p none, { x with lock := .outside })

/-! ### The handler -/

/-- Which of the two commands is run, for whom and with which arguments. -/
structure ModerationArgs where
  mutes : Bool
  c : Ptr
  args : Option Bytes

def ModerationArgs.command (a : ModerationArgs) : Command := if a.mutes then .mute else .kick

/-- Where the handler stands. -/
inductive ModerationPhase where
  | called
  | testing
  /-- `current_room` was not `NULL` -/
  | locking
  /-- it has the room whose mutex it wants -/
  | waiting (p : Ptr)
  /-- the test of the loop -/
  | counting (i : Nat)
  | looking (i : Nat)
  | muting (d : Ptr)
  | speaking (d : Ptr)
  | naming
  | unlocking (target : Option Ptr)
  /-- the mutex is unlocked, and the name of the room is saved -/
  | saving (d : Ptr)
  | recording (d : Ptr)
  | kicking (x : RoomCall)
  | returned
  /-- it followed a null pointer -/
  | crashed

/-- What the handler does with rooms; no room is `NULL`. -/
inductive Touch where
  | locks (room : Option Ptr)
  | reads (room : Option Ptr)
  | unlocks (room : Option Ptr)
  deriving DecidableEq

def Touch.room : Touch → Option Ptr
  | .locks room => room
  | .reads room => room
  | .unlocks room => room

/-- The server, the mutexes of the rooms, the handler and the calls; `trace` is
what the handler did with rooms so far. -/
structure Scene (ι : Type) where
  server : Server
  mutex : Mutexes ι
  handler : ModerationPhase
  calls : ι → RoomCall
  trace : List Touch

/-- The handler reads `current_room` and goes on with the fields of that room. -/
def Scene.reads (m : Scene ι) (c : Ptr) (next : Ptr → Room → Option (Server × ModerationPhase)) :
    Option (Scene ι) :=
  match m.server.clientMem c with
  | none => none
  | some cl =>
      match cl.currentRoom with
      | none => some { m with handler := .crashed, trace := m.trace ++ [.reads none] }
      | some q =>
          ((m.server.roomMem q).bind (next q)).map fun out =>
            { m with server := out.1, handler := out.2, trace := m.trace ++ [.reads (some q)] }

/-- What follows the loop. -/
def afterLoop (a : ModerationArgs) : Option Ptr → ModerationPhase
  | some d => if a.mutes then .muting d else .unlocking (some d)
  | none => .unlocking none

/-- The call `room_leave(target)`. -/
def kickCall (d : Ptr) : RoomCall := ⟨0, .leave d .called, .outside⟩

/-- The next step of the handler. -/
def Scene.stepHandler (a : ModerationArgs) (m : Scene ι) (env : Env) : Option (Scene ι) :=
  match m.handler with
  | .called =>
      (m.server.clientMem a.c).map fun cl =>
        { m with handler :=
            if cl.userId = -1 ∨ authCheckPermission cl.role a.command = false then .returned else .testing }
  | .testing =>
      (m.server.clientMem a.c).map fun cl =>
        { m with handler := if cl.currentRoom = none ∨ scanName a.args = [] then .returned else .locking }
  | .locking =>
      (m.server.clientMem a.c).map fun cl =>
        match cl.currentRoom with
        | none => { m with handler := .crashed, trace := m.trace ++ [.locks none] }
        | some p => { m with handler := .waiting p }
  | .waiting p =>
      (m.server.roomMem p).map fun _ =>
        if m.mutex p = none then
          { m with
            mutex := Function.update m.mutex p (some .handler)
            handler := .counting 0
            trace := m.trace ++ [.locks (some p)] }
        else m
  | .counting i =>
      m.reads a.c fun _ r =>
        some (m.server, if i < r.participantCount then .looking i else afterLoop a none)
  | .looking i =>
      m.reads a.c fun _ r =>
        match r.participants i with
        | none => some (m.server, .counting (i + 1))
        | some d =>
            (m.server.clientMem d).map fun dl =>
              (m.server, if dl.username = scanName a.args then afterLoop a (some d) else .counting (i + 1))
  | .muting d =>
      (m.server.clientMem d).map fun dl =>
        { m with server := m.server.setClient d { dl with isMute := !dl.isMute }, handler := .speaking d }
  | .speaking d =>
      m.reads a.c fun q r =>
        (m.server.clientMem d).map fun dl =>
          (m.server.setRoom q
            { r with activeSpeakers := if dl.isMute then r.activeSpeakers - 1 else r.activeSpeakers + 1 },
            .naming)
  | .naming => m.reads a.c fun _ _ => some (m.server, .unlocking none)
  | .unlocking target =>
      match m.server.clientMem a.c with
      | none => none
      | some cl =>
          match cl.currentRoom with
          | none => some { m with handler := .crashed, trace := m.trace ++ [.unlocks none] }
          | some q =>
              (m.server.roomMem q).map fun _ =>
                { m with
                  mutex := Function.update m.mutex q none
                  handler := target.elim .returned .saving
                  trace := m.trace ++ [.unlocks (some q)] }
  | .saving d =>
      (m.server.clientMem a.c).map fun cl =>
        { m with handler := if cl.currentRoom = none then .kicking (kickCall d) else .recording d }
  | .recording d =>
      match m.server.clientMem a.c with
      | none => none
      | some cl =>
          match cl.currentRoom with
          | none => some { m with handler := .crashed }
          | some q => (m.server.roomMem q).map fun _ => { m with handler := .kicking (kickCall d) }
  | .kicking x =>
      (callStep .handler env m.server m.mutex x).map fun out =>
        { m with server := out.1, mutex := out.2.1, handler := .kicking out.2.2 }
  | .returned => some m
  | .crashed => some m

inductive SceneOp (ι : Type) where
  | handler (env : Env)
  | call (i : ι) (env : Env)

def Scene.step [DecidableEq ι] (a : ModerationArgs) (m : Scene ι) : SceneOp ι → Option (Scene ι)
  | .handler env => m.stepHandler a env
  | .call i env =>
      (callStep (.call i) env m.server m.mutex (m.calls i)).map fun out =>
        { m with server := out.1, mutex := out.2.1, calls := Function.update m.calls i out.2.2 }

/-! ### A handler on its own -/

variable {s : Server} {mutex : Mutexes ι} {a : ModerationArgs}

/-- One step with complete writes; the handler records what it touches. -/
def HandlerTo (a : ModerationArgs) (y z : Server × Mutexes ι × ModerationPhase) : Prop :=
  ∃ env : Env, env.wrote = [] ∧ ∀ calls trace, ∃ trace',
    Scene.stepHandler a ⟨y.1, y.2.1, y.2.2, calls, trace⟩ env = some ⟨z.1, z.2.1, z.2.2, calls, trace'⟩

/-- A step that touches no room. -/
theorem HandlerTo.quiet {y z : Server × Mutexes ι × ModerationPhase}
    (h : ∀ calls trace, Scene.stepHandler a ⟨y.1, y.2.1, y.2.2, calls, trace⟩ ⟨none, RoomRecord.zero, []⟩ =
      some ⟨z.1, z.2.1, z.2.2, calls, trace⟩) : HandlerTo a y z :=
  ⟨_, rfl, fun calls trace => ⟨trace, h calls trace⟩⟩

/-- A step that touches a room. -/
theorem HandlerTo.touch {y z : Server × Mutexes ι × ModerationPhase} (room : Touch)
    (h : ∀ calls trace, Scene.stepHandler a ⟨y.1, y.2.1, y.2.2, calls, trace⟩ ⟨none, RoomRecord.zero, []⟩ =
      some ⟨z.1, z.2.1, z.2.2, calls, trace ++ [room]⟩) : HandlerTo a y z :=
  ⟨_, rfl, fun calls trace => ⟨_, h calls trace⟩⟩

theorem handler_reads {c p : Ptr} {r : Room} (hroom : s.currentRoom c = some p) (hr : s.roomMem p = some r)
    {calls : ι → RoomCall} {trace : List Touch} {ph ph' : ModerationPhase} {t : Server}
    {next : Ptr → Room → Option (Server × ModerationPhase)} (hnext : next p r = some (t, ph')) :
    Scene.reads ⟨s, mutex, ph, calls, trace⟩ c next =
      some ⟨t, mutex, ph', calls, trace ++ [.reads (some p)]⟩ := by
  obtain ⟨cl, hcl, hcur⟩ := Option.bind_eq_some_iff.mp hroom
  simp only [Scene.reads, hcl, hcur, hr, Option.bind_some, hnext, Option.map_some]

/-- The loop over the participants finds what `findTarget` finds. -/
theorem loop_alone {p : Ptr} {r : Room} (hroom : s.currentRoom a.c = some p) (hr : s.roomMem p = some r)
    {target : Option Ptr} (k i : Nat) (hk : i + k = r.participantCount)
    (hfind : findTarget s (scanName a.args) ((List.range' i k).filterMap r.participants) = some target) :
    ReflTransGen (HandlerTo a) (s, mutex, .counting i) (s, mutex, afterLoop a target) := by
  induction k generalizing i with
  | zero =>
      cases hfind
      refine ReflTransGen.single (HandlerTo.touch (.reads (some p)) fun calls trace => ?_)
      simp only [Scene.stepHandler]
      refine handler_reads hroom hr ?_
      rw [if_neg (by omega)]
  | succ k ih =>
      have htest : HandlerTo a (s, mutex, .counting i) (s, mutex, .looking i) := by
        refine HandlerTo.touch (.reads (some p)) fun calls trace => ?_
        simp only [Scene.stepHandler]
        refine handler_reads hroom hr ?_
        rw [if_pos (by omega)]
      refine ReflTransGen.head htest ?_
      rw [List.range'_succ, List.filterMap_cons] at hfind
      cases hpart : r.participants i with
      | none =>
          rw [hpart] at hfind
          refine ReflTransGen.head (HandlerTo.touch (.reads (some p)) fun calls trace => ?_) (ih (i + 1) (by omega) hfind)
          simp only [Scene.stepHandler]
          refine handler_reads hroom hr ?_
          simp only [hpart]
      | some d =>
          rw [hpart] at hfind
          dsimp only at hfind
          rw [findTarget] at hfind
          cases hd : s.clientMem d with
          | none =>
              rw [hd] at hfind
              cases hfind
          | some dl =>
              rw [hd] at hfind
              dsimp only at hfind
              by_cases hname : dl.username = scanName a.args
              · rw [if_pos hname] at hfind
                cases hfind
                refine ReflTransGen.single (HandlerTo.touch (.reads (some p)) fun calls trace => ?_)
                simp only [Scene.stepHandler]
                refine handler_reads hroom hr ?_
                simp only [hpart, hd, Option.map_some, if_pos hname]
              · rw [if_neg hname] at hfind
                refine ReflTransGen.head (HandlerTo.touch (.reads (some p)) fun calls trace => ?_)
                  (ih (i + 1) (by omega) hfind)
                simp only [Scene.stepHandler]
                refine handler_reads hroom hr ?_
                simp only [hpart, hd, Option.map_some, if_neg hname]

/-- The handler gives an error before it locks a room. -/
theorem refused_alone {cl : Client} (hcl : s.clientMem a.c = some cl) {resp : Response}
    (h : moderationTarget s cl a.command a.args = some (.inl resp)) :
    ReflTransGen (HandlerTo a) (s, mutex, .called) (s, mutex, .returned) := by
  unfold moderationTarget at h
  by_cases hout : cl.userId = -1 ∨ authCheckPermission cl.role a.command = false
  · refine ReflTransGen.single (HandlerTo.quiet fun calls trace => ?_)
    simp only [Scene.stepHandler, hcl, Option.map_some, if_pos hout]
  · rw [if_neg fun hid => hout (Or.inl hid), if_neg fun hperm => hout (Or.inr hperm)] at h
    have hcalled : HandlerTo a (s, mutex, .called) (s, mutex, .testing) := by
      refine HandlerTo.quiet fun calls trace => ?_
      simp only [Scene.stepHandler, hcl, Option.map_some, if_neg hout]
    have hrefuse : cl.currentRoom = none ∨ scanName a.args = [] := by
      cases hcur : cl.currentRoom with
      | none => exact Or.inl rfl
      | some p =>
          rw [hcur] at h
          dsimp only at h
          by_cases hname : scanName a.args = []
          · exact Or.inr hname
          · rw [if_neg hname] at h
            obtain ⟨r, _, heq⟩ := Option.map_eq_some_iff.mp h
            cases heq
    refine ReflTransGen.head hcalled (ReflTransGen.single (HandlerTo.quiet fun calls trace => ?_))
    simp only [Scene.stepHandler, hcl, Option.map_some, if_pos hrefuse]

/-- The handler locks the room and goes through its participants. -/
theorem enters_alone {cl : Client} (hcl : s.clientMem a.c = some cl) {p : Ptr} {r : Room} {name : Bytes}
    (h : moderationTarget s cl a.command a.args = some (.inr (p, r, name)))
    (hfree : ∀ q, s.currentRoom a.c = some q → mutex q = none) {target : Option Ptr}
    (hfind : findTarget s name r.members = some target) :
    s.currentRoom a.c = some p ∧ s.roomMem p = some r ∧
      ReflTransGen (HandlerTo a) (s, mutex, .called)
        (s, Function.update mutex p (some .handler), afterLoop a target) := by
  unfold moderationTarget at h
  by_cases hout : cl.userId = -1
  · rw [if_pos hout] at h
    cases h
  · rw [if_neg hout] at h
    by_cases hperm : authCheckPermission cl.role a.command = false
    · rw [if_pos hperm] at h
      cases h
    · rw [if_neg hperm] at h
      cases hcur : cl.currentRoom with
      | none =>
          rw [hcur] at h
          cases h
      | some q =>
          rw [hcur] at h
          dsimp only at h
          by_cases hname : scanName a.args = []
          · rw [if_pos hname] at h
            cases h
          · rw [if_neg hname] at h
            obtain ⟨r', hr, heq⟩ := Option.map_eq_some_iff.mp h
            cases heq
            have hroom : s.currentRoom a.c = some p := by
              rw [Server.currentRoom, hcl, Option.bind_some, hcur]
            have hgo : ¬ (cl.currentRoom = none ∨ scanName a.args = []) := by
              rw [hcur]
              exact not_or.mpr ⟨Option.some_ne_none p, hname⟩
            refine ⟨hroom, hr, ?_⟩
            refine ReflTransGen.head (b := (s, mutex, .testing)) (HandlerTo.quiet fun calls trace => ?_) ?_
            · simp only [Scene.stepHandler, hcl, Option.map_some, if_neg (not_or.mpr ⟨hout, hperm⟩)]
            · refine ReflTransGen.head (b := (s, mutex, .locking)) (HandlerTo.quiet fun calls trace => ?_) ?_
              · simp only [Scene.stepHandler, hcl, Option.map_some, if_neg hgo]
              · refine ReflTransGen.head (b := (s, mutex, .waiting p))
                  (HandlerTo.quiet fun calls trace => ?_) ?_
                · simp only [Scene.stepHandler, hcl, Option.map_some, hcur]
                · refine ReflTransGen.head (b := (s, Function.update mutex p (some .handler), .counting 0))
                    (HandlerTo.touch (.locks (some p)) fun calls trace => ?_) ?_
                  · simp only [Scene.stepHandler, hr, Option.map_some, if_pos (hfree p hroom)]
                  · refine loop_alone hroom hr r.participantCount 0 (Nat.zero_add _) ?_
                    rw [← List.range_eq_range']
                    exact hfind

/-- The handler unlocks the room it locked. -/
theorem unlock_alone {p : Ptr} {r : Room} (hroom : s.currentRoom a.c = some p) (hr : s.roomMem p = some r)
    (hfree : mutex p = none) (target : Option Ptr) :
    HandlerTo a (s, Function.update mutex p (some .handler), .unlocking target)
      (s, mutex, target.elim .returned .saving) := by
  obtain ⟨cl, hcl, hcur⟩ := Option.bind_eq_some_iff.mp hroom
  have hback : Function.update (Function.update mutex p (some .handler)) p none = mutex := by
    rw [Function.update_idem, ← hfree, Function.update_eq_self]
  refine HandlerTo.touch (.unlocks (some p)) fun calls trace => ?_
  simp only [Scene.stepHandler, hcl, hcur, hr, Option.map_some, hback]

/-- The room of the client is not changed when somebody is muted. -/
theorem currentRoom_mute {c d : Ptr} {dl : Client} (hd : s.clientMem d = some dl) (muted : Bool) :
    (s.setClient d { dl with isMute := muted }).currentRoom c = s.currentRoom c := by
  by_cases hcd : c = d
  · subst hcd
    simp only [Server.currentRoom, Server.setClient, Function.update_self, hd, Option.bind_some]
  · simp only [Server.currentRoom, Server.setClient, Function.update_of_ne hcd]

/-- The target is muted, or not any more, and the room unlocked. -/
theorem muting_alone {p d : Ptr} {r : Room} {dl : Client} (hroom : s.currentRoom a.c = some p)
    (hr : s.roomMem p = some r) (hd : s.clientMem d = some dl) (hfree : mutex p = none) {u v : Server}
    (hu : u = s.setClient d { dl with isMute := !dl.isMute })
    (hv : v = u.setRoom p
      { r with activeSpeakers := if !dl.isMute then r.activeSpeakers - 1 else r.activeSpeakers + 1 }) :
    ReflTransGen (HandlerTo a) (s, Function.update mutex p (some .handler), .muting d) (v, mutex, .returned) := by
  have hroomU : u.currentRoom a.c = some p := by
    rw [hu, currentRoom_mute hd, hroom]
  have hrU : u.roomMem p = some r := by
    rw [hu]
    exact hr
  have hdU : u.clientMem d = some { dl with isMute := !dl.isMute } := by
    rw [hu]
    simp only [Server.setClient, Function.update_self]
  have hroomV : v.currentRoom a.c = some p := by
    rw [hv]
    exact hroomU
  have hrV : ∃ r', v.roomMem p = some r' := by
    rw [hv]
    exact ⟨_, Function.update_self ..⟩
  obtain ⟨r', hrV⟩ := hrV
  refine ReflTransGen.head (b := (u, Function.update mutex p (some .handler), .speaking d))
    (HandlerTo.quiet fun calls trace => ?_) ?_
  · simp only [Scene.stepHandler, hd, Option.map_some, hu]
  · refine ReflTransGen.head (b := (v, Function.update mutex p (some .handler), .naming))
      (HandlerTo.touch (.reads (some p)) fun calls trace => ?_) ?_
    · simp only [Scene.stepHandler]
      refine handler_reads hroomU hrU ?_
      rw [hdU, Option.map_some, hv]
    · refine ReflTransGen.head (b := (v, Function.update mutex p (some .handler), .unlocking none))
        (HandlerTo.touch (.reads (some p)) fun calls trace => ?_) ?_
      · simp only [Scene.stepHandler]
        exact handler_reads hroomV hrV rfl
      · exact ReflTransGen.single (unlock_alone hroomV hrV hfree none)

/-- **`handle_mute` on its own.** -/
theorem mute_alone {c : Ptr} {args : Option Bytes} {resp : Response} {t : Server}
    (hfree : ∀ q, s.currentRoom c = some q → mutex q = none) (h : handleMute s c args = some (resp, t)) :
    ReflTransGen (HandlerTo ⟨true, c, args⟩) (s, mutex, .called) (t, mutex, .returned) := by
  unfold handleMute at h
  cases hcl : s.clientMem c with
  | none =>
      rw [hcl] at h
      cases h
  | some cl =>
      rw [hcl] at h
      dsimp only at h
      cases htarget : moderationTarget s cl .mute args with
      | none =>
          rw [htarget] at h
          cases h
      | some x =>
          rw [htarget] at h
          cases x with
          | inl resp' =>
              cases h
              exact refused_alone (a := ⟨true, c, args⟩) hcl htarget
          | inr y =>
              obtain ⟨p, r, name⟩ := y
              dsimp only at h
              cases hfind : findTarget s name r.members with
              | none =>
                  rw [hfind] at h
                  cases h
              | some target =>
                  rw [hfind] at h
                  obtain ⟨hroom, hr, henter⟩ := enters_alone (a := ⟨true, c, args⟩) hcl htarget hfree hfind
                  refine henter.trans ?_
                  cases target with
                  | none =>
                      cases h
                      exact ReflTransGen.single (unlock_alone hroom hr (hfree p hroom) none)
                  | some d =>
                      dsimp only at h
                      cases hd : s.clientMem d with
                      | none =>
                          rw [hd] at h
                          cases h
                      | some dl =>
                          rw [hd] at h
                          cases h
                          exact muting_alone hroom hr hd (hfree p hroom) rfl rfl

/-- A step of `room_leave` as part of `handle_kick`, with all mutexes free. -/
theorem leaveTo_alone {d : Ptr} (hfree : ∀ q, mutex q = none) {y z : Server × LeavePhase} (h : LeaveTo d y z) :
    ReflTransGen (HandlerTo a) (y.1, mutex, .kicking ⟨0, .leave d y.2, .outside⟩)
      (z.1, mutex, .kicking ⟨0, .leave d z.2, .outside⟩) := by
  obtain ⟨env, hwrote, hstep⟩ := h
  have hmember : memberStep 0 env y.1 (.leave d y.2) = some (z.1, .leave d z.2) := by
    simp only [memberStep, hstep, Option.map_some]
  cases hwants : (MemberCall.leave d y.2).wants with
  | none =>
      refine ReflTransGen.single ⟨env, hwrote, fun calls trace => ⟨trace, ?_⟩⟩
      simp only [Scene.stepHandler, callStep, hwants, hmember, Option.map_some]
  | some p =>
      obtain ⟨s, ph⟩ := y
      obtain ⟨t, ph'⟩ := z
      have hph : ph = .locking p := by
        cases ph with
        | locking q =>
            cases hwants
            rfl
        | _ => cases hwants
      subst hph
      -- the room is there before and after the section
      obtain ⟨r, hr, r', hr'⟩ : ∃ r, s.roomMem p = some r ∧ ∃ r', t.roomMem p = some r' := by
        simp only [leaveStep] at hstep
        cases hr : s.roomMem p with
        | none =>
            rw [hr] at hstep
            cases hstep
        | some r =>
            rw [hr] at hstep
            cases hd : s.clientMem d with
            | none =>
                rw [hd] at hstep
                cases hstep
            | some dl =>
                rw [hd] at hstep
                dsimp only at hstep
                cases hremove : r.remove d dl.isMute with
                | none =>
                    rw [hremove] at hstep
                    cases hstep
                    exact ⟨r, rfl, r, hr⟩
                | some r' =>
                    rw [hremove] at hstep
                    cases hstep
                    exact ⟨r, rfl, r', Function.update_self ..⟩
      have hback : Function.update (Function.update mutex p (some .handler)) p none = mutex := by
        rw [Function.update_idem, ← hfree p, Function.update_eq_self]
      refine ReflTransGen.head (b := (s, Function.update mutex p (some .handler),
        .kicking ⟨0, .leave d (.locking p), .inside p⟩)) (HandlerTo.quiet fun calls trace => ?_) ?_
      · simp only [Scene.stepHandler, callStep, hwants, hr, Option.map_some, if_pos (hfree p)]
      · refine ReflTransGen.head (b := (t, Function.update mutex p (some .handler),
          .kicking ⟨0, .leave d ph', .after p⟩)) ⟨env, hwrote, fun calls trace => ⟨trace, ?_⟩⟩ ?_
        · simp only [Scene.stepHandler, callStep, hmember, Option.map_some]
        · refine ReflTransGen.single (HandlerTo.quiet fun calls trace => ?_)
          simp only [Scene.stepHandler, callStep, hr', Option.map_some, hback]

theorem leaving_alone {d : Ptr} {t : Server} {k : Int} (hfree : ∀ q, mutex q = none) (hw : s.wrote = [])
    (h : roomLeave s d = some (k, t)) :
    ReflTransGen (HandlerTo a) (s, mutex, .kicking (kickCall d))
      (t, mutex, .kicking ⟨0, .leave d (.returned k), .outside⟩) := by
  have hlift : ∀ y, ReflTransGen (LeaveTo d) (s, .called) y →
      ReflTransGen (HandlerTo a) (s, mutex, .kicking (kickCall d))
        (y.1, mutex, .kicking ⟨0, .leave d y.2, .outside⟩) := by
    intro y hy
    induction hy with
    | refl => exact ReflTransGen.refl
    | tail _ hstep ih => exact ih.trans (leaveTo_alone hfree hstep)
  exact hlift _ (leave_alone hw h)

/-- The name of the room is saved, and `room_leave` called. -/
theorem saving_alone {p : Ptr} {r : Room} (hroom : s.currentRoom a.c = some p) (hr : s.roomMem p = some r)
    (d : Ptr) :
    ReflTransGen (HandlerTo a) (s, mutex, .saving d) (s, mutex, .kicking (kickCall d)) := by
  obtain ⟨cl, hcl, hcur⟩ := Option.bind_eq_some_iff.mp hroom
  refine ReflTransGen.head (b := (s, mutex, .recording d)) (HandlerTo.quiet fun calls trace => ?_)
    (ReflTransGen.single (HandlerTo.quiet fun calls trace => ?_))
  · simp only [Scene.stepHandler, hcl, hcur, Option.map_some, reduceCtorEq, if_false]
  · simp only [Scene.stepHandler, hcl, hcur, hr, Option.map_some]

/-- **`handle_kick` on its own** ends with what `room_leave` returns, or before
it. -/
theorem kick_alone {c : Ptr} {args : Option Bytes} {resp : Response} {t : Server} (hw : s.wrote = [])
    (hfree : ∀ q, mutex q = none) (h : handleKick s c args = some (resp, t)) :
    ReflTransGen (HandlerTo ⟨false, c, args⟩) (s, mutex, .called) (t, mutex, .returned) ∨
      ∃ d k, ReflTransGen (HandlerTo ⟨false, c, args⟩) (s, mutex, .called)
        (t, mutex, .kicking ⟨0, .leave d (.returned k), .outside⟩) := by
  unfold handleKick at h
  cases hcl : s.clientMem c with
  | none =>
      rw [hcl] at h
      cases h
  | some cl =>
      rw [hcl] at h
      dsimp only at h
      cases htarget : moderationTarget s cl .kick args with
      | none =>
          rw [htarget] at h
          cases h
      | some x =>
          rw [htarget] at h
          cases x with
          | inl resp' =>
              cases h
              exact Or.inl (refused_alone (a := ⟨false, c, args⟩) hcl htarget)
          | inr y =>
              obtain ⟨p, r, name⟩ := y
              dsimp only at h
              cases hfind : findTarget s name r.members with
              | none =>
                  rw [hfind] at h
                  cases h
              | some target =>
                  rw [hfind] at h
                  obtain ⟨hroom, hr, henter⟩ := enters_alone (a := ⟨false, c, args⟩) hcl htarget
                    (fun q _ => hfree q) hfind
                  have hloop : afterLoop ⟨false, c, args⟩ target = .unlocking target := by
                    cases target with
                    | none => rfl
                    | some d => rfl
                  rw [hloop] at henter
                  have hunlocked := henter.tail (unlock_alone hroom hr (hfree p) target)
                  cases target with
                  | none =>
                      cases h
                      exact Or.inl hunlocked
                  | some d =>
                      obtain ⟨⟨k, u⟩, hleave, heq⟩ := Option.map_eq_some_iff.mp h
                      cases heq
                      exact Or.inr ⟨d, k, (hunlocked.trans (saving_alone hroom hr d)).trans
                        (leaving_alone hfree hw hleave)⟩

end EchoLink
