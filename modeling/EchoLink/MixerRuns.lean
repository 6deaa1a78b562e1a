import EchoLink.Mixer
import EchoLink.RoomAgreement

/-!
# What the mixer plays over whole runs

Operations of the server, datagrams and ticks of the mixer come in any order.
A jitter buffer belongs to a slot, and nothing but the mixer touches it: it
outlives the mute flag, the membership and the connection of the client in the
slot.

Every entry of a jitter buffer gets a stamp when a packet is filed in it: the
connection that has the slot, the room its client is in, and whether the client
is muted.  The stamps belong to no C variable.  They say of each entry that is
heard where it comes from.  What a client sent while it was muted is heard
after it is unmuted, unless the buffer of its slot is free of such entries then
(`muted_never_heard`); what it sent elsewhere, or someone before it in the
slot, is heard after it joins a room, unless the buffer is free of that then
(`heard_from_here`).
-/

namespace EchoLink

open CText RecordFile LinkedList PackedArray TwoViews Runs

/-! ### Stamps -/

/-- Where the packet in an entry comes from: the number of the connection in
the slot, the room its client was in, by the number of its creation, and
whether the client was muted. -/
structure Stamp where
  conn : Nat
  room : Option Nat
  muted : Bool
  deriving DecidableEq

/-- The client in a slot. -/
def Server.clientAt (s : Server) (slot : Fin maxClients) : Option Client :=
  (s.clients slot).bind s.clientMem

/-- The room that the client in a slot is in. -/
def Server.roomNow (s : Server) (slot : Fin maxClients) : Option Nat :=
  (s.clientAt slot).bind fun cl => cl.currentRoom.map s.born

/-- There is a client in the slot, and it is not muted. -/
def Server.unmuted (s : Server) (slot : Fin maxClients) : Bool :=
  (s.clientAt slot).any fun cl => !cl.isMute

/-- The mixer with the number of connections that each slot has had, and the
stamps of the entries. -/
structure Show where
  mixer : Mixer
  conn : Fin maxClients → Nat
  stamp : Fin maxClients → Fin jitterBufferSize → Stamp

def Show.start (db : FileDb) (users : File) : Show where
  mixer := Mixer.start db users
  conn := fun _ => 0
  stamp := fun _ _ => ⟨0, none, false⟩

/-- The stamp of a packet that is filed now. -/
def Show.stampNow (m : Show) (slot : Fin maxClients) : Stamp where
  conn := m.conn slot
  room := m.mixer.server.roomNow slot
  muted := (m.mixer.server.clientAt slot).any Client.isMute

inductive ShowOp where
  | op (o : Op × Env)
  | datagram (bytes : Bytes) (stale : AudioPacket)
  | tick

/-- A slot that was empty has a new connection. -/
def Show.connAfter (m : Show) (s' : Server) (slot : Fin maxClients) : Nat :=
  if m.mixer.server.clients slot = none ∧ s'.clients slot ≠ none then m.conn slot + 1 else m.conn slot

/-- The stamps after packets have been filed. -/
def Show.stampAfter (m : Show) (filed : List (Fin maxClients × Fin jitterBufferSize))
    (slot : Fin maxClients) (idx : Fin jitterBufferSize) : Stamp :=
  if (slot, idx) ∈ filed then m.stampNow slot else m.stamp slot idx

def Show.step (m : Show) : ShowOp → Option Show
  | .op o =>
      (m.mixer.server.step o).map fun s' =>
        { m with mixer := { m.mixer with server := s' }, conn := m.connAfter s' }
  | .datagram bytes stale => some { m with mixer := m.mixer.datagram bytes stale }
  | .tick => m.mixer.tick.map fun t => { m with mixer := t.mixer, stamp := m.stampAfter t.filed }

/-- An entry that was mixed into what a listener got: the listener, the room
that was mixed, the slot of the entry and the connection in the slot at that
time, and the stamp of the entry. -/
structure Heard where
  listener : Ptr
  room : Nat
  slot : Fin maxClients
  conn : Nat
  stamp : Stamp
  deriving DecidableEq

/-- What is heard in a step. -/
def Show.heard (m : Show) : ShowOp → List Heard
  | .tick =>
      match m.mixer.tick with
      | none => []
      | some t =>
          t.sent.flatMap fun x => x.speakers.map fun sp =>
            ⟨x.listener, m.mixer.server.born x.room, sp.slot, m.conn sp.slot,
              m.stampAfter t.filed sp.slot sp.idx⟩
  | _ => []

/-- The operations get unused memory. -/
def ShowFresh (m : Show) : ShowOp → Prop
  | .op o => Fresh m.mixer.server o
  | _ => True

/-- The entry is in use. -/
def Show.holds (m : Show) (slot : Fin maxClients) (idx : Fin jitterBufferSize) : Prop :=
  m.mixer.audio.holds slot idx

/-- Whoever is unmuted, or comes into a slot, has no entry there that was filed
for a muted client. -/
def UnmutesClean (m : Show) : ShowOp → Prop
  | .op o => ∀ s', m.mixer.server.step o = some s' → ∀ slot, s'.unmuted slot = true →
      m.mixer.server.unmuted slot = false → ∀ idx, m.holds slot idx → (m.stamp slot idx).muted = false
  | _ => True

/-- Whoever comes into a room has only entries that were filed for its own
connection while it was in that room. -/
def EntersClean (m : Show) : ShowOp → Prop
  | .op o => ∀ s', m.mixer.server.step o = some s' → ∀ slot room, s'.roomNow slot = some room →
      m.mixer.server.roomNow slot ≠ some room → ∀ idx, m.holds slot idx →
        (m.stamp slot idx).conn = m.connAfter s' slot ∧ (m.stamp slot idx).room = some room
  | _ => True

/-! ### The server during a tick -/

variable {s s' : Server} {l : List Ptr} {k : Ptr → Int}

theorem RoomsOk.withSpeakers (h : RoomsOk s l) (k : Ptr → Int) : RoomsOk (s.withSpeakers k) l where
  linked := h.linked
  count := h.count
  bound := h.bound
  live := by
    intro p
    rw [h.live p]
    constructor
    · rintro ⟨r, hr⟩
      exact ⟨_, by simp only [Server.withSpeakers, hr, Option.map_some]; rfl⟩
    · rintro ⟨r, hr⟩
      obtain ⟨r', hr', _⟩ := withSpeakers_room hr
      exact ⟨r', hr'⟩
  packed := by
    intro p r hr
    obtain ⟨r', hr', rfl⟩ := withSpeakers_room hr
    exact h.packed p r' hr'
  names := by
    intro p q r r' hr hr' hname
    obtain ⟨x, hx, rfl⟩ := withSpeakers_room hr
    obtain ⟨x', hx', rfl⟩ := withSpeakers_room hr'
    exact h.names p q x x' hx hx' hname
  order := h.order
  stamps := h.stamps
  first := by
    refine h.first.imp ?_
    intro p q hpq r r' hr hr' hmembers
    obtain ⟨x, hx, rfl⟩ := withSpeakers_room hr
    obtain ⟨x', hx', rfl⟩ := withSpeakers_room hr'
    exact hpq x x' hx hx' hmembers

theorem ServerOk.withSpeakers (h : ServerOk s l) (k : Ptr → Int) : ServerOk (s.withSpeakers k) l where
  rooms := h.rooms.withSpeakers k
  clients := ⟨h.clients.held, h.clients.loggedOut⟩
  views := by
    have hmembers : (s.withSpeakers k).membersOf = s.membersOf := by
      funext q
      simp only [Server.membersOf, Server.withSpeakers, Option.map_map]
      rfl
    have hroom : (s.withSpeakers k).roomOf = s.roomOf := rfl
    rw [hmembers, hroom]
    exact h.views

theorem mem_of_snapshot {r : Room} {c : Ptr} (h : some c ∈ r.snapshot) : c ∈ r.members := by
  obtain ⟨i, hi, hc⟩ := List.mem_map.mp h
  exact List.mem_filterMap.mpr ⟨i, hi, hc⟩

/-- A participant that speaks is the client in its slot. -/
theorem ServerOk.clientAt (h : ServerOk s l) {p c : Ptr} {r : Room} {cl : Client}
    (hr : s.roomMem p = some r) (hc : some c ∈ r.snapshot) (hcl : s.clientMem c = some cl) :
    s.clientAt cl.slot = some cl ∧ s.roomNow cl.slot = some (s.born p) := by
  obtain ⟨dl, hd, hroom⟩ := h.of_member hr (mem_of_snapshot hc)
  have hsame := hd.2
  rw [hcl, Option.some.injEq] at hsame
  subst hsame
  have hclient : s.clientAt cl.slot = some cl := by rw [Server.clientAt, hd.1, Option.bind_some, hcl]
  exact ⟨hclient, by rw [Server.roomNow, hclient, Option.bind_some, hroom, Option.map_some]⟩

/-! ### Rules for stamps -/

/-- A condition on the stamps of the entries of a slot, given the number of the
connection in the slot.  A stamp of now meets it, and it does not depend on the
numbers of active speakers. -/
structure StampRule where
  holds : Server → Nat → Fin maxClients → Stamp → Prop
  now : ∀ s n slot, holds s n slot ⟨n, s.roomNow slot, (s.clientAt slot).any Client.isMute⟩
  speakers : ∀ s k n slot st, holds s n slot st → holds (s.withSpeakers k) n slot st

/-- The invariant: every entry in use meets the rule. -/
structure ShowOk (R : StampRule) (m : Show) : Prop where
  server : ∃ l, ServerOk m.mixer.server l
  stamps : ∀ slot idx, m.holds slot idx → R.holds m.mixer.server (m.conn slot) slot (m.stamp slot idx)

/-- The operation keeps the rule for the entries in use. -/
def KeepsRule (R : StampRule) (m : Show) : ShowOp → Prop
  | .op o => ∀ s', m.mixer.server.step o = some s' → ∀ slot idx, m.holds slot idx →
      R.holds m.mixer.server (m.conn slot) slot (m.stamp slot idx) →
      R.holds s' (m.connAfter s' slot) slot (m.stamp slot idx)
  | _ => True

variable {R : StampRule} {m m' : Show}

theorem ShowOk.start (R : StampRule) (db : FileDb) (users : File) : ShowOk R (Show.start db users) where
  server := ⟨[], ServerOk.start db users⟩
  stamps := by
    intro slot idx hholds
    cases hholds

/-- The stamps after packets were filed. -/
theorem ShowOk.stampAfter (h : ShowOk R m) {filed : List (Fin maxClients × Fin jitterBufferSize)}
    {slot : Fin maxClients} {idx : Fin jitterBufferSize} (hidx : (slot, idx) ∈ filed ∨ m.holds slot idx) :
    R.holds m.mixer.server (m.conn slot) slot (m.stampAfter filed slot idx) := by
  unfold Show.stampAfter
  split
  · exact R.now m.mixer.server (m.conn slot) slot
  · rename_i hnot
    exact h.stamps slot idx (hidx.resolve_left hnot)

theorem datagram_same (m : Mixer) (bytes : Bytes) (stale : AudioPacket) :
    (m.datagram bytes stale).server = m.server ∧ (m.datagram bytes stale).audio.jitter = m.audio.jitter := by
  unfold Mixer.datagram
  split
  · exact ⟨rfl, rfl⟩
  · split
    · exact ⟨rfl, rfl⟩
    · exact ⟨rfl, rfl⟩

/-- Every step keeps the invariant of the server. -/
theorem Show.step_ok {o : ShowOp} (hok : ∃ l, ServerOk m.mixer.server l) (hfresh : ShowFresh m o)
    (hstep : m.step o = some m') : ∃ l, ServerOk m'.mixer.server l := by
  obtain ⟨l, hok⟩ := hok
  cases o with
  | op o =>
      obtain ⟨s', hs', rfl⟩ := Option.map_eq_some_iff.mp hstep
      have hserver := EchoLink.step_ok hok hfresh
      rw [hs'] at hserver
      exact hserver.1
  | datagram bytes stale =>
      cases hstep
      exact ⟨l, by rw [(datagram_same m.mixer bytes stale).1]; exact hok⟩
  | tick =>
      obtain ⟨t, ht, rfl⟩ := Option.map_eq_some_iff.mp hstep
      obtain ⟨⟨k, hk⟩, _, _⟩ := tick_spec ht
      exact ⟨l, by rw [hk]; exact hok.withSpeakers k⟩

/-- **One step** keeps the rule. -/
theorem ShowOk.step (h : ShowOk R m) {o : ShowOp} (hfresh : ShowFresh m o) (hkeeps : KeepsRule R m o)
    (hstep : m.step o = some m') : ShowOk R m' := by
  refine ⟨Show.step_ok h.server hfresh hstep, ?_⟩
  cases o with
  | op o =>
      obtain ⟨s', hs', rfl⟩ := Option.map_eq_some_iff.mp hstep
      exact fun slot idx hholds => hkeeps s' hs' slot idx hholds (h.stamps slot idx hholds)
  | datagram bytes stale =>
      cases hstep
      obtain ⟨hserver, hjitter⟩ := datagram_same m.mixer bytes stale
      intro slot idx hholds
      rw [hserver]
      refine h.stamps slot idx ?_
      simp only [Show.holds, Audio.holds, hjitter] at hholds ⊢
      exact hholds
  | tick =>
      obtain ⟨t, ht, rfl⟩ := Option.map_eq_some_iff.mp hstep
      obtain ⟨⟨k, hk⟩, hholds, _⟩ := tick_spec ht
      intro slot idx hidx
      rw [hk]
      exact R.speakers _ _ _ _ _ (h.stampAfter (hholds slot idx hidx))

/-- **What is heard** meets the rule, in the room and for the connection of the
moment, and comes from a client that is not muted. -/
theorem ShowOk.heard (h : ShowOk R m) {o : ShowOp} {x : Heard} (hx : x ∈ m.heard o) :
    ∃ s : Server, R.holds s x.conn x.slot x.stamp ∧ s.unmuted x.slot = true ∧
      s.roomNow x.slot = some x.room := by
  obtain ⟨l, hok⟩ := h.server
  cases o with
  | op o => cases hx
  | datagram bytes stale => cases hx
  | tick =>
      simp only [Show.heard] at hx
      split at hx
      · cases hx
      · rename_i t ht
        obtain ⟨_, _, hsent⟩ := tick_spec ht
        obtain ⟨sent, hmem, hx⟩ := List.mem_flatMap.mp hx
        obtain ⟨sp, hsp, rfl⟩ := List.mem_map.mp hx
        obtain ⟨r, hr, hspeakers⟩ := hsent sent hmem
        obtain ⟨c, cl, hc, hcl, hmute, hslot, hidx⟩ := hspeakers sp hsp
        obtain ⟨hclient, hroom⟩ := hok.clientAt hr hc hcl
        rw [hslot] at hclient hroom
        refine ⟨m.mixer.server, h.stampAfter hidx, ?_, hroom⟩
        simp only [Server.unmuted, hclient, Option.any_some, hmute, Bool.not_false]

/-- The rule holds of everything that is heard in a run. -/
theorem heard_rule (R : StampRule) (db : FileDb) (users : File) (ops : List ShowOp)
    (h : Along Show.step (fun m o => ShowFresh m o ∧ KeepsRule R m o) (Show.start db users) ops) :
    ∀ x ∈ outputs Show.step Show.heard (Show.start db users) ops,
      ∃ s : Server, R.holds s x.conn x.slot x.stamp ∧ s.unmuted x.slot = true ∧
        s.roomNow x.slot = some x.room := by
  refine outputs_forall ?_ (ShowOk.start R db users) h
  rintro m o hok ⟨hfresh, hkeeps⟩
  exact ⟨fun x hx => hok.heard hx, fun m' hstep => hok.step hfresh hkeeps hstep⟩

/-! ### Mute holds for audio -/

/-- The entries of a client that is not muted were filed for no muted client. -/
def unmutedRule : StampRule where
  holds := fun s _ slot st => s.unmuted slot = true → st.muted = false
  now := by
    intro s n slot hunmuted
    simp only [Server.unmuted] at hunmuted
    cases hclient : s.clientAt slot with
    | none => rfl
    | some cl =>
        rw [hclient] at hunmuted
        simpa using hunmuted
  speakers := fun _ _ _ _ _ h => h

theorem UnmutesClean.keepsRule {o : ShowOp} (h : UnmutesClean m o) : KeepsRule unmutedRule m o := by
  cases o with
  | op o =>
      intro s' hs' slot idx hholds hrule hunmuted
      cases hbefore : m.mixer.server.unmuted slot with
      | true => exact hrule hbefore
      | false => exact h s' hs' slot hunmuted hbefore idx hholds
  | datagram bytes stale => trivial
  | tick => trivial

/-- **What was filed for a muted client is never heard**, in any run of
operations, datagrams and ticks in which clients are unmuted with no such entry
in the buffer of their slot. -/
theorem muted_never_heard (db : FileDb) (users : File) (ops : List ShowOp)
    (h : Along Show.step (fun m o => ShowFresh m o ∧ UnmutesClean m o) (Show.start db users) ops) :
    ∀ x ∈ outputs Show.step Show.heard (Show.start db users) ops, x.stamp.muted = false := by
  have hkeeps := along_imp (fun m o (ho : ShowFresh m o ∧ UnmutesClean m o) =>
    (⟨ho.1, ho.2.keepsRule⟩ : ShowFresh m o ∧ KeepsRule unmutedRule m o)) h
  intro x hx
  obtain ⟨s, hrule, hunmuted, _⟩ := heard_rule unmutedRule db users ops hkeeps x hx
  exact hrule hunmuted

/-! ### Audio stays in its room -/

/-- The entries of a client in a room were filed for it in that room. -/
def roomRule : StampRule where
  holds := fun s n slot st => ∀ room, s.roomNow slot = some room → st.conn = n ∧ st.room = some room
  now := fun _ _ _ _ hroom => ⟨rfl, hroom⟩
  speakers := fun _ _ _ _ _ h => h

theorem EntersClean.keepsRule {o : ShowOp} (h : EntersClean m o) : KeepsRule roomRule m o := by
  cases o with
  | op o =>
      intro s' hs' slot idx hholds hrule room hroom
      by_cases hbefore : m.mixer.server.roomNow slot = some room
      · obtain ⟨hconn, hstamp⟩ := hrule room hbefore
        -- the slot had a client, so the connection is the same
        have hsame : m.connAfter s' slot = m.conn slot := by
          refine if_neg ?_
          rintro ⟨hnone, _⟩
          simp [Server.roomNow, Server.clientAt, hnone] at hbefore
        exact ⟨by rw [hsame, hconn], hstamp⟩
      · exact h s' hs' slot room hroom hbefore idx hholds
  | datagram bytes stale => trivial
  | tick => trivial

/-- **What is heard in a room was filed for a participant of it**: for the
connection that is now in the slot, while it was in this room, in any run of
operations, datagrams and ticks in which clients join rooms with only such
entries in the buffer of their slot. -/
theorem heard_from_here (db : FileDb) (users : File) (ops : List ShowOp)
    (h : Along Show.step (fun m o => ShowFresh m o ∧ EntersClean m o) (Show.start db users) ops) :
    ∀ x ∈ outputs Show.step Show.heard (Show.start db users) ops,
      x.stamp.conn = x.conn ∧ x.stamp.room = some x.room := by
  have hkeeps := along_imp (fun m o (ho : ShowFresh m o ∧ EntersClean m o) =>
    (⟨ho.1, ho.2.keepsRule⟩ : ShowFresh m o ∧ KeepsRule roomRule m o)) h
  intro x hx
  obtain ⟨s, hrule, _, hroom⟩ := heard_rule roomRule db users ops hkeeps x hx
  exact hrule x.room hroom

/-! ### Runs in the lobby -/

/-- A datagram of the client in the second slot, with one sample. -/
def bobSpeaks : ShowOp :=
  .datagram [0, 0, 0, 0, 1, 0, 0, 0, 1, 0, 0, 0, 0, 0, 0, 0, 2, 0, 100, 0] (fit audioPacketSize [])

def adminSends (line : Bytes) : ShowOp := .op (.command firstSlot line, completeEnv none)

/-- Bob speaks in the lobby, where the admin is. -/
def lobbyTalk : List ShowOp := lobbyOps.map .op ++ [bobSpeaks, .tick]

/-- Bob is silent in the lobby, then he is muted, speaks, and is unmuted. -/
def mutedTalk : List ShowOp :=
  lobbyOps.map .op ++ [.tick, adminSends (ascii "MUTE bob")] ++ List.replicate 5 bobSpeaks ++
    [.tick, adminSends (ascii "MUTE bob"), .tick]

/-- Bob speaks before he is in a room, and joins the lobby. -/
def earlyTalk : List ShowOp :=
  (lobbyOps.take 7).map .op ++ [bobSpeaks, .tick] ++ (lobbyOps.drop 7).map .op ++ [.tick]

/-- No jitter buffer has an entry in use. -/
def Show.silent (m : Show) : Prop := ∀ slot idx, ¬ m.holds slot idx

theorem Show.silent.clean (h : m.silent) (o : ShowOp) : UnmutesClean m o ∧ EntersClean m o := by
  cases o with
  | op o =>
      exact ⟨fun _ _ slot _ _ idx hholds => absurd hholds (h slot idx),
        fun _ _ slot _ _ _ idx hholds => absurd hholds (h slot idx)⟩
  | datagram bytes stale => exact ⟨trivial, trivial⟩
  | tick => exact ⟨trivial, trivial⟩

/-- Operations before anybody speaks. -/
theorem along_silent {ops : List (Op × Env)} (hsilent : m.silent)
    (h : Along Server.step Fresh m.mixer.server ops) :
    Along Show.step (fun m o => ShowFresh m o ∧ UnmutesClean m o ∧ EntersClean m o) m (ops.map .op) := by
  induction ops generalizing m with
  | nil => trivial
  | cons o ops ih =>
      refine ⟨⟨h.1, hsilent.clean (.op o)⟩, ?_⟩
      intro m' hm'
      obtain ⟨s', hs', rfl⟩ := Option.map_eq_some_iff.mp hm'
      exact ih hsilent (h.2 s' hs')

theorem lobbyTalk_clean : Along Show.step (fun m o => ShowFresh m o ∧ UnmutesClean m o ∧ EntersClean m o)
    (Show.start emptyDb startTable) lobbyTalk := by
  refine along_append (along_silent ?_ (along_imp (fun s o h => h.1) lobbyOps_proper)) ?_
  · intro slot idx hholds
    cases hholds
  · intro m _
    exact ⟨⟨trivial, trivial, trivial⟩, fun _ _ => ⟨⟨trivial, trivial, trivial⟩, fun _ _ => trivial⟩⟩

/-- The admin hears bob, who is not muted. -/
theorem muted_never_heard_lobby :
    (∀ x ∈ outputs Show.step Show.heard (Show.start emptyDb startTable) lobbyTalk, x.stamp.muted = false) ∧
    (outputs Show.step Show.heard (Show.start emptyDb startTable) lobbyTalk).map Heard.slot =
      [secondSlot] :=
  ⟨muted_never_heard emptyDb startTable lobbyTalk (along_imp (fun _ _ h => ⟨h.1, h.2.1⟩) lobbyTalk_clean),
    by decide +kernel⟩

/-- The admin hears bob, who is in the lobby. -/
theorem heard_from_here_lobby :
    (∀ x ∈ outputs Show.step Show.heard (Show.start emptyDb startTable) lobbyTalk,
      x.stamp.conn = x.conn ∧ x.stamp.room = some x.room) ∧
    (outputs Show.step Show.heard (Show.start emptyDb startTable) lobbyTalk).map Heard.slot =
      [secondSlot] :=
  ⟨heard_from_here emptyDb startTable lobbyTalk (along_imp (fun _ _ h => ⟨h.1, h.2.2⟩) lobbyTalk_clean),
    by decide +kernel⟩

/-- `ShowFresh`, computed. -/
def checkShowFresh (m : Show) : ShowOp → Bool
  | .op o => checkProper m.mixer.server o
  | _ => true

theorem showFresh_of_check (m : Show) (o : ShowOp) (h : checkShowFresh m o = true) : ShowFresh m o := by
  cases o with
  | op o => exact (proper_of_checkProper _ o h).1
  | datagram bytes stale => trivial
  | tick => trivial

/-- What bob said while he was muted is heard after he is unmuted. -/
theorem mutedTalk_heard :
    ¬ ∀ ops, Along Show.step ShowFresh (Show.start emptyDb startTable) ops →
      ∀ x ∈ outputs Show.step Show.heard (Show.start emptyDb startTable) ops, x.stamp.muted = false := by
  intro hall
  have hheard : outputs Show.step Show.heard (Show.start emptyDb startTable) mutedTalk =
      [⟨1, 0, secondSlot, 1, ⟨1, some 0, true⟩⟩] := by decide +kernel
  have hmuted := hall mutedTalk (along_of_checkAlong showFresh_of_check (by decide +kernel))
    ⟨1, 0, secondSlot, 1, ⟨1, some 0, true⟩⟩ (by rw [hheard]; exact List.mem_singleton_self _)
  cases hmuted

/-- What bob said outside is heard in the lobby. -/
theorem earlyTalk_heard :
    ¬ ∀ ops, Along Show.step ShowFresh (Show.start emptyDb startTable) ops →
      ∀ x ∈ outputs Show.step Show.heard (Show.start emptyDb startTable) ops,
        x.stamp.conn = x.conn ∧ x.stamp.room = some x.room := by
  intro hall
  have hheard : outputs Show.step Show.heard (Show.start emptyDb startTable) earlyTalk =
      [⟨1, 0, secondSlot, 1, ⟨1, none, false⟩⟩] := by decide +kernel
  obtain ⟨_, hroom⟩ := hall earlyTalk (along_of_checkAlong showFresh_of_check (by decide +kernel))
    ⟨1, 0, secondSlot, 1, ⟨1, none, false⟩⟩ (by rw [hheard]; exact List.mem_singleton_self _)
  cases hroom

end EchoLink
