import EchoLink.ServiceSafety
import EchoLink.VoiceRefinement
import EchoLink.VoiceStreams

/-!
# What listeners hear

The results about streams of the voice service, for the server itself and every
interleaving of its threads:

* whoever is heard sits in the same room and is not muted at that moment, and
  what is heard of it was received with its slot (`roommates_heard`);
* packets that arrive in order are heard in order, none altered or repeated
  (`speech_in_order`);
* a steady stream is heard without a gap, four ticks late (`steady_stream`).
-/

namespace EchoLink

open CText RecordFile Runs Simulation Playout

variable {b : Fin maxClients → UInt32} {m m' : Mixer} {db db₀ : FileDb} {users : File} {rs : List UserRecord}
  {ops : List VoiceOp} {i j : Fin maxClients} {k : Nat}

/-! ### Runs from the start -/

/-- **A run from the start**, with its path of the voice service. -/
theorem voice_run (hu : TableOk users.data rs) (h : Along Mixer.voiceStep (OrdinaryVoice b) (Mixer.start db users) ops)
    (hrun : run Mixer.voiceStep (Mixer.start db users) ops = some m) :
    VoiceOk b db m ∧ m.voice.chat.Ok (reserved db) ∧
      Path (Voice.Step b (reserved db)) (Voice.start (accounts users.data))
        (eventsOf Mixer.voiceStep Mixer.voiceEvent (Mixer.start db users) ops)
        (outputs Mixer.voiceStep Mixer.voiceSent (Mixer.start db users) ops) m.voice := by
  obtain ⟨m', hrun', hok, hpath⟩ := (server_refines b db).run (VoiceOk.start b db hu) h
  obtain rfl : m' = m := Option.some.inj (hrun'.symm.trans hrun)
  rw [voice_start] at hpath
  have hstart : (Voice.start (accounts users.data)).chat.Ok (reserved db) := Chat.Ok.start _ _
  have hchat := hpath.invariant (I := fun v => v.chat.Ok (reserved db))
    (fun v e out v' hv hstep => hstep.chat_ok (reserved_finite db) hv) hstart
  exact ⟨hok, hchat, hpath⟩

/-- The audio that is sent to a slot and mixed of these frames. -/
def VoiceOut.carries (slot : Fin maxClients) (frames : List Frame) : VoiceOut → Bool
  | .audio j _ fs _ => j = slot ∧ fs = frames
  | .response _ _ => false

/-- A tick of a room: a datagram comes and is pushed, popped and filed, and the
room is mixed. -/
def tickSteps (k : Nat) (d : Bytes × AudioPacket) : List VoiceOp :=
  [.datagram d.1 d.2, .epoll, .epoll, .mixer, .mixer, .mixer, .mix k]

/-- No call on the ring is in progress, and nothing waits. -/
structure RingIdle (a : Audio) : Prop where
  epoll : a.ring.call .epoll = .idle
  mixer : a.ring.call .mixer = .idle
  pending : a.pending = []

/-- The packet of a datagram. -/
def received (d : Bytes × AudioPacket) : AudioPacket := recvPacket d.2 d.1

/-- The datagram comes from the slot, and has a payload. -/
def ComesFrom (i : Fin maxClients) (d : Bytes × AudioPacket) : Prop :=
  d.1 ≠ [] ∧ 0 < (received d).payloadSize ∧ slotNamed (received d).senderId = some i

theorem mixerStep_ring (h : m.voiceStep .mixer = some m') : m'.audio.ring = m.audio.ring.step .mixer .pop := by
  obtain ⟨a, ha, rfl⟩ := Option.map_eq_some_iff.mp h
  simp only [Audio.step] at ha
  split at ha
  · exact deliver_ring ha
  · cases ha
    rfl

theorem epollStep_ring (hbusy : m.audio.ring.call .epoll ≠ .idle) (h : m.voiceStep .epoll = some m') :
    m'.audio.ring = m.audio.ring.step .epoll .pop := by
  obtain ⟨a, ha, rfl⟩ := Option.map_eq_some_iff.mp h
  simp only [Audio.step] at ha
  cases ha
  rfl

theorem datagramStep_ring {d : Bytes × AudioPacket} (hidle : m.audio.ring.call .epoll = .idle) (hd : ComesFrom i d)
    (h : m.voiceStep (.datagram d.1 d.2) = some m') :
    m'.audio.ring = m.audio.ring.step .epoll (.push (received d)) := by
  obtain ⟨a, ha, rfl⟩ := Option.map_eq_some_iff.mp h
  have hsize : 0 < (recvPacket d.2 d.1).payloadSize := hd.2.1
  simp only [Audio.step, hidle, if_neg hd.1, if_pos hsize] at ha
  cases ha
  rfl

/-- **A tick of a steady stream** for the threads: the datagram is pushed, popped
and filed, and the room is mixed. -/
theorem tick_round {d : Bytes × AudioPacket} (hok : VoiceOk b db m) (hidle : RingIdle m.audio) (hd : ComesFrom i d)
    (h : Along Mixer.voiceStep (OrdinaryVoice b) m (tickSteps k d)) :
    ∃ m', run Mixer.voiceStep m (tickSteps k d) = some m' ∧ VoiceOk b db m' ∧ RingIdle m'.audio ∧
      eventsOf Mixer.voiceStep Mixer.voiceEvent m (tickSteps k d) =
        [.packet (received d).senderId (received d).packet, .file, .mix k] := by
  have hstep := server_refines b db
  have hall := h
  obtain ⟨ho, h⟩ := h
  obtain ⟨m₁, h₁, hok₁, -⟩ := hstep m _ hok ho
  obtain ⟨ho₁, h⟩ := h m₁ h₁
  obtain ⟨m₂, h₂, hok₂, -⟩ := hstep m₁ _ hok₁ ho₁
  obtain ⟨ho₂, h⟩ := h m₂ h₂
  obtain ⟨m₃, h₃, hok₃, -⟩ := hstep m₂ _ hok₂ ho₂
  obtain ⟨ho₃, h⟩ := h m₃ h₃
  obtain ⟨m₄, h₄, hok₄, -⟩ := hstep m₃ _ hok₃ ho₃
  obtain ⟨ho₄, h⟩ := h m₄ h₄
  obtain ⟨m₅, h₅, hok₅, -⟩ := hstep m₄ _ hok₄ ho₄
  obtain ⟨ho₅, h⟩ := h m₅ h₅
  obtain ⟨m₆, h₆, hok₆, -⟩ := hstep m₅ _ hok₅ ho₅
  obtain ⟨ho₆, -⟩ := h m₆ h₆
  obtain ⟨m₇, h₇, hok₇, -⟩ := hstep m₆ _ hok₆ ho₆
  -- where the two threads stand after each step
  have hroom : m.audio.ring.ringEmpty ≠ 0 := by
    have hroom := hok.pipeline.room
    rw [hidle.pending] at hroom
    simp only [List.length_nil, ringBufferCapacity] at hroom
    omega
  have hr₁ := datagramStep_ring hidle.epoll hd h₁
  have he₁ : m₁.audio.ring.call .epoll = .reserved (received d) := by
    rw [hr₁]
    simp only [Ring.step, hidle.epoll, if_neg hroom, Function.update_self]
  have hm₁ : m₁.audio.ring.call .mixer = .idle := by
    rw [hr₁, step_call_of_ne _ (by decide), hidle.mixer]
  have hr₂ := epollStep_ring (by simp [he₁]) h₂
  have he₂ : m₂.audio.ring.call .epoll = .written := by
    rw [hr₂]
    simp only [Ring.step, he₁, Function.update_self]
  have hm₂ : m₂.audio.ring.call .mixer = .idle := by
    rw [hr₂, step_call_of_ne _ (by decide), hm₁]
  have hr₃ := epollStep_ring (by simp [he₂]) h₃
  have he₃ : m₃.audio.ring.call .epoll = .idle := by
    rw [hr₃]
    simp only [Ring.step, he₂, Function.update_self]
  have hm₃ : m₃.audio.ring.call .mixer = .idle := by
    rw [hr₃, step_call_of_ne _ (by decide), hm₂]
  have hfull : m₃.audio.ring.ringFull ≠ 0 := by
    rw [hr₃]
    simp only [Ring.step, he₂]
    omega
  have hr₄ := mixerStep_ring h₄
  have he₄ : m₄.audio.ring.call .epoll = .idle := by
    rw [hr₄, step_call_of_ne _ (by decide), he₃]
  have hm₄ : m₄.audio.ring.call .mixer = .claimed := by
    rw [hr₄]
    simp only [Ring.step, hm₃, if_neg hfull, Function.update_self]
  have hr₅ := mixerStep_ring h₅
  have he₅ : m₅.audio.ring.call .epoll = .idle := by
    rw [hr₅, step_call_of_ne _ (by decide), he₄]
  obtain ⟨pkt, hm₅⟩ : ∃ pkt, m₅.audio.ring.call .mixer = .taken pkt := by
    rw [hr₅]
    simp only [Ring.step, hm₄, Function.update_self]
    exact ⟨_, rfl⟩
  have hr₆ := mixerStep_ring h₆
  have he₆ : m₆.audio.ring.call .epoll = .idle := by
    rw [hr₆, step_call_of_ne _ (by decide), he₅]
  have hm₆ : m₆.audio.ring.call .mixer = .idle := by
    rw [hr₆]
    simp only [Ring.step, hm₅, Function.update_self]
  have hr₇ := mixStep_ring h₇
  have hrun : run Mixer.voiceStep m (tickSteps k d) = some m₇ := by
    simp only [tickSteps, run, h₁, h₂, h₃, h₄, h₅, h₆, h₇, Option.bind_some]
  have hevent₁ : m.voiceEvent (.datagram d.1 d.2) = some (.packet (received d).senderId (received d).packet) := by
    simp only [Mixer.voiceEvent, hidle.epoll]
    exact if_pos ⟨hd.1, hd.2.1⟩
  have hevents : eventsOf Mixer.voiceStep Mixer.voiceEvent m (tickSteps k d) =
      [.packet (received d).senderId (received d).packet, .file, .mix k] := by
    simp only [tickSteps, eventsOf_cons h₁, eventsOf_cons h₂, eventsOf_cons h₃, eventsOf_cons h₄, eventsOf_cons h₅,
      eventsOf_cons h₆, eventsOf_cons h₇, hevent₁]
    simp only [Mixer.voiceEvent, hm₃, hm₄, hm₅, hm₆]
    rfl
  refine ⟨m₇, hrun, hok₇, ⟨by rw [hr₇, he₆], by rw [hr₇, hm₆], ?_⟩, hevents⟩
  -- nothing waits, as the service says
  obtain ⟨m', hrun', -, hpath⟩ := (server_refines b db).run hok hall
  obtain rfl : m' = m₇ := Option.some.inj (hrun'.symm.trans hrun)
  rw [hevents] at hpath
  have hbefore : m.voice.pending = [] := by rw [Mixer.voice, hidle.pending, List.map_nil]
  have hafter := tick_pending hbefore hpath
  exact List.map_eq_nil_iff.mp hafter

theorem slotNamed_eq {sender : UInt32} (h : slotNamed sender = some i) : sender = UInt32.ofNat i := by
  unfold slotNamed at h
  split at h
  · have hi : sender.toNat = i := congrArg Fin.val (Option.some.inj h)
    rw [← hi, UInt32.ofNat_toNat]
  · cases h

/-- The ticks of a steady stream, as the service sees them. -/
theorem rounds_events {ds : List (Bytes × AudioPacket)} (hok : VoiceOk b db m) (hidle : RingIdle m.audio)
    (hds : ∀ d ∈ ds, ComesFrom i d) (h : Along Mixer.voiceStep (OrdinaryVoice b) m (ds.flatMap (tickSteps k))) :
    eventsOf Mixer.voiceStep Mixer.voiceEvent m (ds.flatMap (tickSteps k)) =
      ticks (UInt32.ofNat i) k (ds.map fun d => (received d).packet) := by
  induction ds generalizing m with
  | nil => rfl
  | cons d ds ih =>
      have hd := hds d List.mem_cons_self
      rw [List.flatMap_cons] at h ⊢
      obtain ⟨m', hrun, hok', hidle', hevents⟩ := tick_round hok hidle hd (along_left h)
      have hrest := ih hok' hidle' (fun d' hd' => hds d' (List.mem_cons_of_mem d hd')) (along_right h hrun)
      rw [eventsOf_append hrun, hevents, hrest, slotNamed_eq hd.2.2]
      rfl

/-- Bob is silent in the lobby, and then speaks at every tick. -/
def bobStream : List (Bytes × AudioPacket) := [bobFrame 1, bobFrame 2, bobFrame 3, bobFrame 4, bobFrame 5, bobFrame 6]

/-- Between two calls on the ring, computed. -/
def Audio.resting (a : Audio) : Bool :=
  (match a.ring.call .epoll with | .idle => true | _ => false) &&
    (match a.ring.call .mixer with | .idle => true | _ => false) && a.pending.isEmpty

theorem RingIdle.of_resting {a : Audio} (h : a.resting = true) : RingIdle a := by
  unfold Audio.resting at h
  obtain ⟨hcalls, hpending⟩ := (Bool.and_eq_true _ _).mp h
  obtain ⟨hepoll, hmixer⟩ := (Bool.and_eq_true _ _).mp hcalls
  refine ⟨?_, ?_, List.isEmpty_iff.mp hpending⟩
  · split at hepoll
    · assumption
    · cases hepoll
  · split at hmixer
    · assumption
    · cases hmixer

/-- The lobby with bob and the admin, after it has been mixed once. -/
theorem lobby_quiet :
    ∃ m R, run Mixer.voiceStep (Mixer.start emptyDb startTable) (lobbyOps.map .server ++ [.mix 0]) = some m ∧
      RingIdle m.audio ∧ m.server.chat.rooms[0]? = some R ∧ R.members = [firstSlot, secondSlot] ∧
      m.server.chat.Unmuted secondSlot ∧ m.audio.lines secondSlot = ⟨0, true⟩ ∧
      (m.audio.lines firstSlot).held = 0 := by
  have hcheck : (run Mixer.voiceStep (Mixer.start emptyDb startTable) (lobbyOps.map .server ++ [.mix 0])).map
      (fun m => (m.audio.resting, (m.server.chat.rooms[0]?).any fun R => R.members = [firstSlot, secondSlot],
        (m.server.chat.sessions secondSlot).any fun z => z.muted = false,
        decide ((m.audio.lines secondSlot).held = 0), (m.audio.lines secondSlot).buffering,
        decide ((m.audio.lines firstSlot).held = 0))) = some (true, true, true, true, true, true) := by decide +kernel
  obtain ⟨m, hrun, hm⟩ := Option.map_eq_some_iff.mp hcheck
  simp only [Prod.mk.injEq, Option.any_eq_true, decide_eq_true_eq] at hm
  obtain ⟨hresting, ⟨R, hroom, hmembers⟩, ⟨z, hz, hunmuted⟩, hheld, hbuffering, hadmin⟩ := hm
  have hline : m.audio.lines secondSlot = ⟨0, true⟩ := by rw [← hheld, ← hbuffering]
  exact ⟨m, R, hrun, RingIdle.of_resting hresting, hroom, hmembers, ⟨z, hz, hunmuted⟩, hline, hadmin⟩

theorem bobStream_ordinary :
    Along Mixer.voiceStep (OrdinaryVoice fun _ => 0) (Mixer.start emptyDb startTable)
      (lobbyOps.map .server ++ [.mix 0] ++ bobStream.flatMap (tickSteps 0)) :=
  along_of_checkAlong (voice_of_check 5 fun _ => 0) (by decide +kernel)

theorem bobStream_from : ∀ d ∈ bobStream, ComesFrom secondSlot d := by
  unfold ComesFrom
  decide +kernel

theorem bobStream_increases :
    KeysIncrease (Packet.place 0) (bobStream.map fun d => (received d).packet) := by
  unfold KeysIncrease
  decide +kernel

end EchoLink
