import EchoLink.Moderation

/-!
# A handler and the room lock it took

`handle_kick` or `handle_mute` runs for a client `c` while `room_join` and
`room_leave` run on other workers.  The participants that the handler reads,
and the mutex that it unlocks, are those of the room it locked
(`handler_unlocks_its_room`), if `c` is in a room when the handler reads the one
to lock, is in that room when the handler has got the mutex, and is not moved
by a call in another room before the handler is done.  The mutex itself keeps
out the calls in the room of the handler.

If `c` changes rooms while the handler waits, the handler unlocks the mutex of
the new room, and the one it locked stays locked (`wrong_room_unlocked`).
-/

namespace EchoLink

open CText RecordFile LinkedList PackedArray PartialMap Runs

/-! ### What the other workers can do -/

variable {ι : Type} {s : Server} {mutex mutex' : Mutexes ι} {o : Owner ι} {env : Env} {x x' : RoomCall}

theorem Owner.call_ne_handler {i : ι} : Owner.call i ≠ .handler := by
  intro h
  cases h

/-- The room whose mutex a call has locked. -/
def CallLock.room : CallLock → Option Ptr
  | .outside => none
  | .inside p => some p
  | .after p => some p

theorem leaveStep_quiet {c : Ptr} {ph : LeavePhase} (hwants : ∀ p, ph ≠ .locking p)
    {out : Server × LeavePhase} (h : leaveStep true env s c ph = some out) : out.1.clientMem = s.clientMem := by
  cases ph with
  | locking p => exact absurd rfl (hwants p)
  | called | counting p rec' | testing p | empty p =>
      obtain ⟨_, _, rfl⟩ := Option.map_eq_some_iff.mp h
      rfl
  | tested =>
      simp only [leaveStep] at h
      split at h
      · cases h
      · split at h
        · cases h
        · cases h
          rfl
  | reading p =>
      simp only [leaveStep] at h
      split at h
      · cases h
      · split at h
        · cases h
          rfl
        · cases h
          rfl
  | writing p rec' =>
      obtain ⟨r, _, rfl⟩ := Option.map_eq_some_iff.mp h
      rfl
  | deleting roomId =>
      simp only [leaveStep] at h
      split at h
      · cases h
      · cases h
        rfl
      · obtain ⟨u, hunlink, rfl⟩ := Option.map_eq_some_iff.mp h
        unfold Server.unlinkRoom at hunlink
        split at hunlink
        · rw [← Option.some.inj hunlink]
        · cases hunlink
  | unlinked p roomId =>
      simp only [leaveStep] at h
      split at h
      · cases h
        rfl
      · cases h
        rfl
  | erasing p roomId rec' =>
      obtain rfl := Option.some.inj h
      rfl
  | freeing p =>
      obtain ⟨_, _, rfl⟩ := Option.map_eq_some_iff.mp h
      rfl
  | returned result =>
      obtain rfl := Option.some.inj h
      rfl

theorem joinStep_quiet {c : Ptr} {roomId : Nat} {password : Bytes} {ph : JoinPhase}
    (hfound : ∀ p, ph ≠ .found p) (hleaving : ∀ p, ph ≠ .leaving (.locking p))
    {out : Server × JoinPhase} (h : joinStep env s roomId password c ph = some out) :
    out.1.clientMem = s.clientMem := by
  cases ph with
  | found p => exact absurd rfl (hfound p)
  | leaving ph =>
      obtain ⟨out', hleave, rfl⟩ := Option.map_eq_some_iff.mp h
      exact leaveStep_quiet (fun p hp => hleaving p (by rw [hp])) hleave
  | called | counting p rec' | logging p =>
      obtain ⟨_, _, rfl⟩ := Option.map_eq_some_iff.mp h
      rfl
  | searching =>
      simp only [joinStep] at h
      split at h
      · cases h
      · cases h
        rfl
      · cases h
        rfl
  | reading p =>
      simp only [joinStep] at h
      split at h
      · cases h
        rfl
      · cases h
        rfl
  | writing p rec' =>
      obtain rfl := Option.some.inj h
      rfl
  | returned result =>
      obtain rfl := Option.some.inj h
      rfl

/-- Only under the mutex of a room does a call move a client. -/
theorem memberStep_quiet {k : Nat} {call : MemberCall} (hwants : call.wants = none)
    {out : Server × MemberCall} (h : memberStep k env s call = some out) :
    out.1.clientMem = s.clientMem := by
  cases call with
  | join c password ph =>
      obtain ⟨out', hjoin, rfl⟩ := Option.map_eq_some_iff.mp h
      refine joinStep_quiet ?_ ?_ hjoin
      · rintro p rfl
        cases hwants
      · rintro p rfl
        cases hwants
  | leave c ph =>
      obtain ⟨out', hleave, rfl⟩ := Option.map_eq_some_iff.mp h
      refine leaveStep_quiet ?_ hleave
      rintro p rfl
      cases hwants

/-- What a step of a call can do. -/
theorem callStep_cases {out : Server × Mutexes ι × RoomCall} (h : callStep o env s mutex x = some out) :
    (x.lock = .outside ∧ out.1.clientMem = s.clientMem ∧ out.2.1 = mutex ∧ out.2.2.lock = .outside) ∨
    (∃ p, x.lock = .outside ∧ mutex p = none ∧ out.1 = s ∧ out.2.1 = Function.update mutex p (some o) ∧
      out.2.2.lock = .inside p) ∨
    (∃ p t, x.lock = .inside p ∧ memberStep x.roomId env s x.call = some t ∧ out.1 = t.1 ∧
      out.2.1 = mutex ∧ out.2.2.lock = .after p) ∨
    ∃ p, x.lock = .after p ∧ out.1 = s ∧ out.2.1 = Function.update mutex p none ∧
      out.2.2.lock = .outside := by
  unfold callStep at h
  cases hlock : x.lock with
  | outside =>
      rw [hlock] at h
      dsimp only at h
      cases hwants : x.call.wants with
      | none =>
          rw [hwants] at h
          obtain ⟨t, ht, rfl⟩ := Option.map_eq_some_iff.mp h
          exact Or.inl ⟨rfl, memberStep_quiet hwants ht, rfl, rfl⟩
      | some p =>
          rw [hwants] at h
          obtain ⟨_, _, rfl⟩ := Option.map_eq_some_iff.mp h
          by_cases hfree : mutex p = none
          · rw [if_pos hfree]
            exact Or.inr (Or.inl ⟨p, rfl, hfree, rfl, rfl, rfl⟩)
          · rw [if_neg hfree]
            exact Or.inl ⟨rfl, rfl, rfl, hlock⟩
  | inside p =>
      rw [hlock] at h
      obtain ⟨t, ht, rfl⟩ := Option.map_eq_some_iff.mp h
      exact Or.inr (Or.inr (Or.inl ⟨p, t, rfl, ht, rfl, rfl, rfl⟩))
  | after p =>
      rw [hlock] at h
      obtain ⟨_, _, rfl⟩ := Option.map_eq_some_iff.mp h
      exact Or.inr (Or.inr (Or.inr ⟨p, rfl, rfl, rfl, rfl⟩))

/-- A call that has the mutexes it should have keeps to them. -/
theorem callStep_owns (hown : ∀ q, x.lock.room = some q → mutex q = some o)
    {out : Server × Mutexes ι × RoomCall} (h : callStep o env s mutex x = some out) :
    (∀ q, out.2.2.lock.room = some q → out.2.1 q = some o) ∧
      ∀ q o', o' ≠ o → mutex q = some o' → out.2.1 q = some o' := by
  rcases callStep_cases h with ⟨_, _, hm, hl⟩ | ⟨p, _, hfree, _, hm, hl⟩ | ⟨p, t, hlock, _, _, hm, hl⟩ |
    ⟨p, hlock, _, hm, hl⟩
  · rw [hm, hl]
    refine ⟨?_, fun q o' _ hq => hq⟩
    intro q hq
    cases hq
  · rw [hm, hl]
    refine ⟨?_, ?_⟩
    · intro q hq
      cases hq
      exact Function.update_self ..
    · intro q o' _ hq
      have hqp : q ≠ p := by
        rintro rfl
        rw [hfree] at hq
        cases hq
      exact (Function.update_of_ne hqp _ _).trans hq
  · rw [hm, hl]
    refine ⟨?_, fun q o' _ hq => hq⟩
    intro q hq
    cases hq
    exact hown p (by rw [hlock]; rfl)
  · rw [hm, hl]
    refine ⟨?_, ?_⟩
    · intro q hq
      cases hq
    · intro q o' hne hq
      have hqp : q ≠ p := by
        rintro rfl
        rw [hown q (by rw [hlock]; rfl), Option.some.injEq] at hq
        exact hne hq.symm
      exact (Function.update_of_ne hqp _ _).trans hq

/-! ### The invariant -/

/-- The rooms that the handler locked, read and unlocked are one room. -/
def OneRoom (trace : List Touch) : Prop := ∃ p, ∀ y ∈ trace, y.room = some p

/-- The handler has the mutex. -/
def ModerationPhase.holds : ModerationPhase → Bool
  | .counting _ | .looking _ | .muting _ | .speaking _ | .naming | .unlocking _ => true
  | _ => false

/-- Before each step: `c` is in a room when the handler reads the one to lock,
and in the one it waits for when it gets the mutex; and while it has the mutex,
no call moves `c` under the mutex of another room. -/
def StaysInRoom (a : ModerationArgs) (m : Scene ι) : SceneOp ι → Prop
  | .handler _ =>
      (m.handler = .locking → m.server.currentRoom a.c ≠ none) ∧
      ∀ p, m.handler = .waiting p → m.mutex p = none → m.server.currentRoom a.c = some p
  | .call i env => m.handler.holds = true →
      ∀ q, (m.calls i).lock = .inside q → (∀ y ∈ m.trace, y.room ≠ some q) →
        ∀ t, memberStep (m.calls i).roomId env m.server (m.calls i).call = some t →
          t.1.currentRoom a.c = m.server.currentRoom a.c

/-- The handler has the mutex of the room of `c`. -/
def HasRoom (c : Ptr) (s : Server) (mutex : Mutexes ι) (trace : List Touch) : Prop :=
  ∃ p, (∀ y ∈ trace, y.room = some p) ∧ mutex p = some .handler ∧ s.currentRoom c = some p

/-- What holds where the handler stands. -/
def ModerationOk (c : Ptr) (s : Server) (mutex : Mutexes ι) (trace : List Touch) : ModerationPhase → Prop
  | .called | .testing | .locking | .waiting _ => trace = []
  | .counting _ | .looking _ | .muting _ | .speaking _ | .naming | .unlocking _ => HasRoom c s mutex trace
  | .kicking x => OneRoom trace ∧ ∀ q, x.lock.room = some q → mutex q = some .handler
  | .saving _ | .recording _ | .returned | .crashed => OneRoom trace

structure SceneOk (a : ModerationArgs) (m : Scene ι) : Prop where
  calls : ∀ i q, (m.calls i).lock.room = some q → m.mutex q = some (.call i)
  handler : ModerationOk a.c m.server m.mutex m.trace m.handler

/-- The handler is called; the calls may be in progress. -/
structure Scene.Starts (m : Scene ι) : Prop where
  handler : m.handler = .called
  trace : m.trace = []
  calls : ∀ i q, (m.calls i).lock.room = some q → m.mutex q = some (.call i)

variable {a : ModerationArgs} {m m' : Scene ι}

theorem SceneOk.start (h : m.Starts) : SceneOk a m where
  calls := h.calls
  handler := by
    rw [h.handler]
    exact h.trace

theorem oneRoom_nil : OneRoom [] := ⟨0, fun _ hy => absurd hy List.not_mem_nil⟩

theorem OneRoom.snoc {trace : List Touch} {p : Ptr} {y : Touch} (h : ∀ y ∈ trace, y.room = some p)
    (hy : y.room = some p) : ∀ z ∈ trace ++ [y], z.room = some p := by
  intro z hz
  rcases List.mem_append.mp hz with hz | hz
  · exact h z hz
  · rw [List.mem_singleton.mp hz, hy]

theorem HasRoom.ok {c : Ptr} {trace : List Touch} {ph : ModerationPhase} (h : HasRoom c s mutex trace)
    (hph : ph.holds = true) : ModerationOk c s mutex trace ph := by
  cases ph with
  | counting i | looking i | muting d | speaking d | naming | unlocking target => exact h
  | _ => cases hph

theorem ModerationOk.hasRoom {c : Ptr} {trace : List Touch} {ph : ModerationPhase}
    (h : ModerationOk c s mutex trace ph) (hph : ph.holds = true) : HasRoom c s mutex trace := by
  cases ph with
  | counting i | looking i | muting d | speaking d | naming | unlocking target => exact h
  | _ => cases hph

/-- The handler reads `current_room` while it has the mutex. -/
theorem SceneOk.reads (h : SceneOk a m) (hroom : HasRoom a.c m.server m.mutex m.trace)
    {next : Ptr → Room → Option (Server × ModerationPhase)}
    (hnext : ∀ p r out, next p r = some out → out.2.holds = true ∧ out.1.clientMem = m.server.clientMem)
    (hstep : m.reads a.c next = some m') : SceneOk a m' := by
  obtain ⟨p, htouch, hmutex, hroom⟩ := hroom
  obtain ⟨cl, hcl, hcur⟩ := Option.bind_eq_some_iff.mp hroom
  unfold Scene.reads at hstep
  rw [hcl] at hstep
  dsimp only at hstep
  rw [hcur] at hstep
  obtain ⟨out, hout, rfl⟩ := Option.map_eq_some_iff.mp hstep
  obtain ⟨r, _, hout⟩ := Option.bind_eq_some_iff.mp hout
  obtain ⟨hholds, hmem⟩ := hnext p r out hout
  refine ⟨h.calls, HasRoom.ok ⟨p, OneRoom.snoc htouch rfl, hmutex, ?_⟩ hholds⟩
  rw [Server.currentRoom, hmem]
  exact hroom

/-- A mutex that no call has changes hands. -/
theorem SceneOk.calls_update (h : SceneOk a m) {p : Ptr} (hp : ∀ i, m.mutex p ≠ some (.call i))
    (y : Option (Owner ι)) (i : ι) (q : Ptr) (hq : (m.calls i).lock.room = some q) :
    Function.update m.mutex p y q = some (.call i) := by
  have hown := h.calls i q hq
  have hqp : q ≠ p := by
    rintro rfl
    exact hp i hown
  rw [Function.update_of_ne hqp, hown]

/-- The handler locks the mutex. -/
theorem SceneOk.locks (h : SceneOk a m) {p : Ptr} (hfree : m.mutex p = none)
    (hroom : m.server.currentRoom a.c = some p) (htrace : m.trace = []) :
    SceneOk a { m with
      mutex := Function.update m.mutex p (some .handler)
      handler := .counting 0
      trace := m.trace ++ [.locks (some p)] } where
  calls := by
    refine h.calls_update ?_ _
    intro i hi
    rw [hfree] at hi
    cases hi
  handler := by
    refine ⟨p, ?_, Function.update_self .., hroom⟩
    rw [htrace]
    exact OneRoom.snoc (fun _ hy => absurd hy List.not_mem_nil) rfl

/-- The handler unlocks the mutex. -/
theorem SceneOk.unlocks (h : SceneOk a m) {p : Ptr} (htouch : ∀ y ∈ m.trace, y.room = some p)
    (hmutex : m.mutex p = some .handler) (target : Option Ptr) :
    SceneOk a { m with
      mutex := Function.update m.mutex p none
      handler := target.elim .returned .saving
      trace := m.trace ++ [.unlocks (some p)] } where
  calls := by
    refine h.calls_update ?_ _
    intro i hi
    rw [hmutex] at hi
    cases hi
  handler := by
    have hone : OneRoom (m.trace ++ [.unlocks (some p)]) := ⟨p, OneRoom.snoc htouch rfl⟩
    cases target with
    | none => exact hone
    | some d => exact hone

theorem afterLoop_holds (a : ModerationArgs) (target : Option Ptr) : (afterLoop a target).holds = true := by
  cases target with
  | none => rfl
  | some d =>
      simp only [afterLoop]
      split
      · rfl
      · rfl

/-- The handler moves on and touches no room. -/
theorem SceneOk.quiet (h : SceneOk a m) {ph : ModerationPhase}
    (hph : ModerationOk a.c m.server m.mutex m.trace ph) : SceneOk a { m with handler := ph } :=
  ⟨h.calls, hph⟩

/-- **A step of the handler.** -/
theorem SceneOk.stepHandler (h : SceneOk a m) {env : Env} (hstays : StaysInRoom a m (.handler env))
    (hstep : m.stepHandler a env = some m') : SceneOk a m' := by
  have hok := h.handler
  unfold Scene.stepHandler at hstep
  cases hphase : m.handler with
  | called =>
      rw [hphase] at hstep hok
      obtain ⟨cl, _, rfl⟩ := Option.map_eq_some_iff.mp hstep
      refine h.quiet ?_
      rw [hok]
      split
      · exact oneRoom_nil
      · rfl
  | testing =>
      rw [hphase] at hstep hok
      obtain ⟨cl, _, rfl⟩ := Option.map_eq_some_iff.mp hstep
      refine h.quiet ?_
      rw [hok]
      split
      · exact oneRoom_nil
      · rfl
  | locking =>
      obtain ⟨p, hp⟩ := Option.ne_none_iff_exists'.mp (hstays.1 hphase)
      obtain ⟨cl, hcl, hcur⟩ := Option.bind_eq_some_iff.mp hp
      rw [hphase] at hstep hok
      simp only [hcl, hcur, Option.map_some, Option.some.injEq] at hstep
      subst hstep
      exact h.quiet hok
  | waiting p =>
      have hthere := hstays.2 p hphase
      rw [hphase] at hstep hok
      obtain ⟨_, _, rfl⟩ := Option.map_eq_some_iff.mp hstep
      split
      · rename_i hfree
        exact h.locks hfree (hthere hfree) hok
      · exact h
  | counting i =>
      rw [hphase] at hstep hok
      refine h.reads hok ?_ hstep
      intro p r out hout
      cases hout
      refine ⟨?_, rfl⟩
      dsimp only
      split
      · rfl
      · exact afterLoop_holds a none
  | looking i =>
      rw [hphase] at hstep hok
      refine h.reads hok ?_ hstep
      intro p r out hout
      cases hpart : r.participants i with
      | none =>
          rw [hpart] at hout
          cases hout
          exact ⟨rfl, rfl⟩
      | some d =>
          rw [hpart] at hout
          obtain ⟨dl, _, rfl⟩ := Option.map_eq_some_iff.mp hout
          refine ⟨?_, rfl⟩
          dsimp only
          split
          · exact afterLoop_holds a (some d)
          · rfl
  | muting d =>
      rw [hphase] at hstep hok
      obtain ⟨dl, hdl, rfl⟩ := Option.map_eq_some_iff.mp hstep
      obtain ⟨p, htouch, hmutex, hroom⟩ := hok
      refine ⟨h.calls, p, htouch, hmutex, ?_⟩
      dsimp only
      by_cases hd : a.c = d
      · rw [Server.currentRoom, hd, hdl] at hroom
        rw [Server.currentRoom, hd]
        simp only [Server.setClient, Function.update_self]
        exact hroom
      · rw [Server.currentRoom]
        simp only [Server.setClient, Function.update_of_ne hd]
        exact hroom
  | speaking d =>
      rw [hphase] at hstep hok
      refine h.reads hok ?_ hstep
      intro p r out hout
      obtain ⟨dl, _, rfl⟩ := Option.map_eq_some_iff.mp hout
      exact ⟨rfl, rfl⟩
  | naming =>
      rw [hphase] at hstep hok
      refine h.reads hok ?_ hstep
      intro p r out hout
      cases hout
      exact ⟨rfl, rfl⟩
  | unlocking target =>
      rw [hphase] at hstep hok
      obtain ⟨p, htouch, hmutex, hroom⟩ := hok
      obtain ⟨cl, hcl, hcur⟩ := Option.bind_eq_some_iff.mp hroom
      simp only [hcl, hcur] at hstep
      obtain ⟨_, _, rfl⟩ := Option.map_eq_some_iff.mp hstep
      exact h.unlocks htouch hmutex target
  | saving d =>
      rw [hphase] at hstep hok
      obtain ⟨cl, _, rfl⟩ := Option.map_eq_some_iff.mp hstep
      refine h.quiet ?_
      split
      · exact ⟨hok, fun q hq => by cases hq⟩
      · exact hok
  | recording d =>
      rw [hphase] at hstep hok
      cases hcl : m.server.clientMem a.c with
      | none =>
          rw [hcl] at hstep
          cases hstep
      | some cl =>
          rw [hcl] at hstep
          dsimp only at hstep
          cases hcur : cl.currentRoom with
          | none =>
              rw [hcur] at hstep
              cases hstep
              exact h.quiet hok
          | some q =>
              rw [hcur] at hstep
              obtain ⟨_, _, rfl⟩ := Option.map_eq_some_iff.mp hstep
              exact h.quiet ⟨hok, fun q hq => by cases hq⟩
  | kicking x =>
      rw [hphase] at hstep hok
      obtain ⟨out, hout, rfl⟩ := Option.map_eq_some_iff.mp hstep
      obtain ⟨hown, hothers⟩ := callStep_owns hok.2 hout
      refine ⟨?_, hok.1, hown⟩
      intro i q hq
      exact hothers q (.call i) Owner.call_ne_handler (h.calls i q hq)
  | returned =>
      rw [hphase] at hstep
      cases hstep
      exact h
  | crashed =>
      rw [hphase] at hstep
      cases hstep
      exact h

/-- What the handler has is not touched by a call for which it has not the
mutex. -/
theorem ModerationOk.call {c : Ptr} {t : Server} {trace : List Touch} {ph : ModerationPhase}
    (h : ModerationOk c s mutex trace ph)
    (hothers : ∀ q, mutex q = some .handler → mutex' q = some .handler)
    (hroom : HasRoom c s mutex trace → ph.holds = true → t.currentRoom c = s.currentRoom c) :
    ModerationOk c t mutex' trace ph := by
  by_cases hholds : ph.holds = true
  · obtain ⟨p, htouch, hmutex, hp⟩ := h.hasRoom hholds
    refine HasRoom.ok ⟨p, htouch, hothers p hmutex, ?_⟩ hholds
    rw [hroom ⟨p, htouch, hmutex, hp⟩ hholds, hp]
  · cases ph with
    | counting i | looking i | muting d | speaking d | naming | unlocking target => exact absurd rfl hholds
    | kicking x => exact ⟨h.1, fun q hq => hothers q (h.2 q hq)⟩
    | _ => exact h

variable [DecidableEq ι]

/-- **A step of a call**: the handler keeps its mutex, and `c` its room. -/
theorem SceneOk.stepCall (h : SceneOk a m) {i : ι} {env : Env} (hstays : StaysInRoom a m (.call i env))
    {out : Server × Mutexes ι × RoomCall}
    (hstep : callStep (.call i) env m.server m.mutex (m.calls i) = some out) :
    SceneOk a { m with server := out.1, mutex := out.2.1, calls := Function.update m.calls i out.2.2 } := by
  obtain ⟨hown, hothers⟩ := callStep_owns (h.calls i) hstep
  refine ⟨?_, h.handler.call (fun q hq => hothers q .handler Owner.call_ne_handler.symm hq) ?_⟩
  · intro j q hq
    dsimp only at hq ⊢
    by_cases hj : j = i
    · subst hj
      rw [Function.update_self] at hq
      exact hown q hq
    · rw [Function.update_of_ne hj] at hq
      refine hothers q (.call j) ?_ (h.calls j q hq)
      intro heq
      injection heq with heq
      exact hj heq
  · rintro ⟨p, htouch, hmutex, _⟩ hholds
    rcases callStep_cases hstep with ⟨_, hmem, _, _⟩ | ⟨q, _, _, hs, _, _⟩ | ⟨q, t, hlock, ht, hs, _, _⟩ |
      ⟨q, _, hs, _, _⟩
    · rw [Server.currentRoom, Server.currentRoom, hmem]
    · rw [hs]
    · -- the call has the mutex of its room, so that is not the handler's
      have hqp : p ≠ q := by
        rintro rfl
        rw [h.calls i p (by rw [hlock]; rfl)] at hmutex
        cases hmutex
      rw [hs]
      refine hstays hholds q hlock ?_ t ht
      intro y hy hyq
      rw [htouch y hy, Option.some.injEq] at hyq
      exact hqp hyq
    · rw [hs]

/-- **A handler releases the mutex it took**: in every run with any number of
other calls in which `c` stays in the room, the rooms that the handler locks,
reads and unlocks are one room, and never `NULL`. -/
theorem handler_unlocks_its_room (a : ModerationArgs) (m₀ : Scene ι) (hstart : m₀.Starts)
    (ops : List (SceneOp ι)) (halong : Along (Scene.step a) (StaysInRoom a) m₀ ops) (m : Scene ι)
    (hrun : run (Scene.step a) m₀ ops = some m) : OneRoom m.trace := by
  have hinv : SceneOk a m := by
    refine run_some_invariant ?_ (SceneOk.start hstart) halong hrun
    intro m op m' h hstays hstep
    cases op with
    | handler env => exact h.stepHandler hstays hstep
    | call i env =>
        obtain ⟨out, hout, rfl⟩ := Option.map_eq_some_iff.mp hstep
        exact h.stepCall hstays hout
  have hok := hinv.handler
  cases hphase : m.handler with
  | called | testing | locking | waiting p =>
      rw [hphase] at hok
      rw [hok]
      exact oneRoom_nil
  | counting i | looking i | muting d | speaking d | naming | unlocking target =>
      rw [hphase] at hok
      obtain ⟨p, htouch, _⟩ := hok
      exact ⟨p, htouch⟩
  | kicking x =>
      rw [hphase] at hok
      exact hok.1
  | saving d | recording d | returned | crashed =>
      rw [hphase] at hok
      exact hok

/-! ### The admin mutes bob and joins another room -/

/-- The handler is called, and nobody has a mutex. -/
def Scene.start (s : Server) (calls : ι → RoomCall) : Scene ι := ⟨s, fun _ => none, .called, calls, []⟩

omit [DecidableEq ι] in
theorem Scene.start_starts {calls : ι → RoomCall} (h : ∀ i, (calls i).lock = .outside) :
    (Scene.start s calls).Starts where
  handler := rfl
  trace := rfl
  calls := by
    intro i q hq
    dsimp only [Scene.start] at hq
    rw [h i] at hq
    cases hq

/-- `StaysInRoom`, computed. -/
def checkStays (a : ModerationArgs) (m : Scene ι) : SceneOp ι → Bool
  | .handler _ =>
      match m.handler with
      | .locking => (m.server.currentRoom a.c).isSome
      | .waiting p => (m.mutex p).isSome || decide (m.server.currentRoom a.c = some p)
      | _ => true
  | .call i env =>
      !m.handler.holds ||
        match (m.calls i).lock with
        | .inside _ => (memberStep (m.calls i).roomId env m.server (m.calls i).call).all fun t =>
            decide (t.1.currentRoom a.c = m.server.currentRoom a.c)
        | _ => true

omit [DecidableEq ι] in
theorem stays_of_check (a : ModerationArgs) (m : Scene ι) (op : SceneOp ι) (h : checkStays a m op = true) :
    StaysInRoom a m op := by
  cases op with
  | handler env =>
      rw [checkStays] at h
      refine ⟨?_, ?_⟩
      · intro hphase
        rw [hphase] at h
        exact Option.isSome_iff_ne_none.mp h
      · intro p hphase hfree
        rw [hphase] at h
        dsimp only at h
        rw [hfree] at h
        exact of_decide_eq_true h
  | call i env =>
      intro hholds q hlock _ t ht
      rw [checkStays, hholds, hlock] at h
      dsimp only at h
      rw [ht] at h
      exact of_decide_eq_true h

/-- The admin and bob are in the lobby, and there is a hall. -/
def hallOps : List (Op × Env) := lobbyOps ++ [(.command firstSlot (ascii "CREATE hall"), completeEnv (some 4))]

/-- The admin mutes bob. -/
def muteBob : ModerationArgs := ⟨true, 1, some (ascii "bob")⟩

/-- Another worker runs `JOIN hall` of the admin. -/
def joinHall : Unit → RoomCall := fun _ => ⟨1, .join 1 [] .called, .outside⟩

def handlerSteps (n : Nat) : List (SceneOp Unit) := List.replicate n (.handler (completeEnv none))

def hallSteps (n : Nat) : List (SceneOp Unit) := List.replicate n (.call () (completeEnv none))

/-- The scene after `CREATE hall` and these steps. -/
def hallScene (ops : List (SceneOp Unit)) : Option (Scene Unit) :=
  (run Server.step (Server.start emptyDb startTable) hallOps).bind fun s =>
    run (Scene.step muteBob) (Scene.start s joinHall) ops

/-- The handler has the mutex of the lobby when the other worker wants it. -/
def muteFirst : List (SceneOp Unit) := handlerSteps 4 ++ hallSteps 4 ++ handlerSteps 8 ++ hallSteps 11

/-- The admin is in the hall when the handler gets the mutex of the lobby. -/
def joinFirst : List (SceneOp Unit) := handlerSteps 3 ++ hallSteps 14 ++ handlerSteps 5

/-- What the handler touched, and who has the mutexes of the lobby and the hall. -/
def Scene.outcome (m : Scene Unit) : List Touch × Option (Owner Unit) × Option (Owner Unit) :=
  (m.trace, m.mutex 2, m.mutex 4)

/-- The handler is done with the lobby before the admin can leave it. -/
theorem lobby_unlocked :
    (∃ m, hallScene muteFirst = some m ∧ OneRoom m.trace) ∧
      (hallScene muteFirst).map Scene.outcome = some
        ([.locks (some 2), .reads (some 2), .reads (some 2), .reads (some 2), .reads (some 2), .reads (some 2),
          .reads (some 2), .unlocks (some 2)], none, none) := by
  have hend : (hallScene muteFirst).map Scene.outcome = some
      ([.locks (some 2), .reads (some 2), .reads (some 2), .reads (some 2), .reads (some 2), .reads (some 2),
        .reads (some 2), .unlocks (some 2)], none, none) := by decide +kernel
  refine ⟨?_, hend⟩
  have hcheck : ((run Server.step (Server.start emptyDb startTable) hallOps).map fun s =>
      checkAlong (Scene.step muteBob) (checkStays muteBob) (Scene.start s joinHall) muteFirst) = some true := by
    decide +kernel
  obtain ⟨m, hm, _⟩ := Option.map_eq_some_iff.mp hend
  refine ⟨m, hm, ?_⟩
  obtain ⟨s, hs, hrun⟩ := Option.bind_eq_some_iff.mp hm
  rw [hs, Option.map_some, Option.some.injEq] at hcheck
  exact handler_unlocks_its_room muteBob (Scene.start s joinHall) (Scene.start_starts fun _ => rfl) muteFirst
    (along_of_checkAlong (stays_of_check muteBob) hcheck) m hrun

/-- The handler locks the lobby, reads the participants of the hall and unlocks
the hall.  The lobby stays locked. -/
theorem wrong_room_unlocked :
    (¬ ∀ (pre : List (Op × Env)) (s : Server), Along Server.step Fresh (Server.start emptyDb startTable) pre →
      run Server.step (Server.start emptyDb startTable) pre = some s →
      ∀ (a : ModerationArgs) (calls : Unit → RoomCall), (∀ i, (calls i).lock = .outside) →
      ∀ ops m, run (Scene.step a) (Scene.start s calls) ops = some m → OneRoom m.trace) ∧
    (hallScene joinFirst).map Scene.outcome = some
      ([.locks (some 2), .reads (some 4), .reads (some 4), .reads (some 4), .unlocks (some 4)],
        some .handler, none) := by
  have hend : (hallScene joinFirst).map Scene.outcome = some
      ([.locks (some 2), .reads (some 4), .reads (some 4), .reads (some 4), .unlocks (some 4)],
        some .handler, none) := by decide +kernel
  refine ⟨?_, hend⟩
  intro hall
  have hfresh : Along Server.step Fresh (Server.start emptyDb startTable) hallOps :=
    along_fresh (by decide +kernel)
  obtain ⟨m, hm, hout⟩ := Option.map_eq_some_iff.mp hend
  obtain ⟨s, hs, hrun⟩ := Option.bind_eq_some_iff.mp hm
  obtain ⟨p, hp⟩ := hall hallOps s hfresh hs muteBob joinHall (fun _ => rfl) joinFirst m hrun
  have htrace : m.trace = [.locks (some 2), .reads (some 4), .reads (some 4), .reads (some 4),
      .unlocks (some 4)] := congrArg Prod.fst hout
  rw [htrace] at hp
  have hlobby : some 2 = some p := hp (.locks (some 2)) (by decide)
  have hhall : some 4 = some p := hp (.unlocks (some 4)) (by decide)
  rw [← hlobby] at hhall
  cases hhall

end EchoLink
