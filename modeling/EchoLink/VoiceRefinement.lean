import EchoLink.Simulation
import EchoLink.VoiceServer

/-!
# The server implements the voice service

Every step of the threads is one of the steps of the voice service, or nothing
that it can see: a push counts from its `sem_trywait` on, a packet is filed when
its pop ends, and `mix_room` draws from the lines of those who are not muted and
sends every member the mix of the others.

So every interleaving of the threads shows as a run of the voice service
(`server_refines_voice`), as long as the numbers of a slot stay in one window and
the payloads fit.
-/

namespace EchoLink

open CText RecordFile LinkedList PackedArray Runs Simulation BoundedQueue Playout SerialScan

variable {b : Fin maxClients → UInt32} {s : Server} {l : List Ptr} {p : Ptr} {r : Room} {m : Mixer} {a : Audio}
  {ps : List (Option Ptr)} {i : Fin maxClients} {db₀ : FileDb}

/-! ### What `mix_room` takes -/

/-- The slots of the participants who speak. -/
def Server.speakingSlots (s : Server) (ps : List (Option Ptr)) : List (Fin maxClients) :=
  ((s.present ps).filter fun x => x.2.speaks).map fun x => x.2.slot

/-- `jitter_buffer_pop` of the buffers of these slots. -/
def Audio.popEach (a : Audio) (slots : List (Fin maxClients)) : Audio := slots.foldl Audio.popSlot a

theorem speakingSlots_speaks {c : Ptr} {cl : Client} (hc : s.clientMem c = some cl) (hspeaks : cl.speaks = true)
    (ps : List (Option Ptr)) : s.speakingSlots (some c :: ps) = cl.slot :: s.speakingSlots ps := by
  simp [Server.speakingSlots, present_some hc, hspeaks]

theorem speakingSlots_silent {c : Ptr} {cl : Client} (hc : s.clientMem c = some cl) (hsilent : cl.speaks = false)
    (ps : List (Option Ptr)) : s.speakingSlots (some c :: ps) = s.speakingSlots ps := by
  simp [Server.speakingSlots, present_some hc, hsilent]

/-- **The loop over the participants** pops the buffers of those who speak. -/
theorem collect_pops {roomId : Nat} {out out' : Collected} (hlive : ∀ c, some c ∈ ps → ∃ cl, s.clientMem c = some cl)
    (hslots : ((s.present ps).map fun x => x.2.slot).Nodup) (hid : roomId < maxRooms)
    (hsem : out.sems ⟨roomId, hid⟩ ≠ 0) (hahead : Ahead s ps out.speakers)
    (h : collect s roomId ps out = some out') : out'.audio = out.audio.popEach (s.speakingSlots ps) := by
  induction ps generalizing out with
  | nil =>
      cases h
      rfl
  | cons q rest ih =>
      have hlive' : ∀ c, some c ∈ rest → ∃ cl, s.clientMem c = some cl :=
        fun c hc => hlive c (List.mem_cons_of_mem q hc)
      cases q with
      | none => exact ih hlive' hslots hsem ⟨hahead.distinct, hahead.ahead⟩ h
      | some c =>
          obtain ⟨cl, hcl⟩ := hlive c List.mem_cons_self
          rw [present_some hcl, List.map_cons, List.nodup_cons] at hslots
          obtain ⟨hnew, hslots⟩ := hslots
          have hother : ∀ x ∈ s.present rest, x.2.slot ≠ cl.slot := by
            intro x hx heq
            exact hnew (List.mem_map.mpr ⟨x, hx, heq⟩)
          simp only [collect, hcl] at h
          by_cases hspeaks : cl.speaks = true
          · have hthis := (speaks_iff cl).mp hspeaks
            have hroom : ¬ maxClients ≤ out.speakers.length := Nat.not_le.mpr (hahead.length_lt hcl)
            rw [if_neg hthis, if_neg hroom, dif_pos hid, if_neg hsem] at h
            have hrest := ih hlive' hslots (by simp) (hahead.next hcl hother out.audio) h
            rw [hrest, speakingSlots_speaks hcl hspeaks]
            rfl
          · have hsilent : cl.speaks = false := by simpa using hspeaks
            have hthis : cl.isMute = true ∨ cl.isActive = false := by
              by_contra hnot
              exact hspeaks ((speaks_iff cl).mpr hnot)
            rw [if_pos hthis] at h
            rw [speakingSlots_silent hcl hsilent]
            exact ih hlive' hslots hsem (hahead.skip hcl) h

theorem popEach_ring (a : Audio) (slots : List (Fin maxClients)) : (a.popEach slots).ring = a.ring := by
  induction slots generalizing a with
  | nil => rfl
  | cons i slots ih => exact ih (a.popSlot i)

/-- Every buffer is popped once. -/
theorem popEach_jitter {slots : List (Fin maxClients)} (h : slots.Nodup) (a : Audio) (i : Fin maxClients) :
    (a.popEach slots).jitter i = if i ∈ slots then (jitterBufferPop (a.jitter i)).2 else a.jitter i := by
  induction slots generalizing a with
  | nil => rfl
  | cons j slots ih =>
      obtain ⟨hnew, hrest⟩ := List.nodup_cons.mp h
      have hcons : (a.popEach (j :: slots)).jitter i = ((a.popSlot j).popEach slots).jitter i := rfl
      rw [hcons, ih hrest]
      by_cases hij : i = j
      · subst hij
        have hself : (a.popSlot i).jitter i = (jitterBufferPop (a.jitter i)).2 := by
          simp only [Audio.popSlot, Function.update_self]
        rw [if_neg hnew, if_pos List.mem_cons_self, hself]
      · have hmem : i ∈ j :: slots ↔ i ∈ slots := by simp [hij]
        simp only [popSlot_jitter hij, hmem]

/-- The packets that are taken. -/
def Audio.drawn (a : Audio) (slots : List (Fin maxClients)) (i : Fin maxClients) : Option Packet :=
  if slots.any fun j => j = i then (jitterBufferPop (a.jitter i)).1.map JitterEntry.packet else none

theorem drawn_of_mem (a : Audio) {slots : List (Fin maxClients)} (h : i ∈ slots) :
    a.drawn slots i = (jitterBufferPop (a.jitter i)).1.map JitterEntry.packet := by
  apply if_pos
  simpa using h

theorem drawn_of_not_mem (a : Audio) {slots : List (Fin maxClients)} (h : i ∉ slots) : a.drawn slots i = none := by
  apply if_neg
  simpa using h

theorem PipelineOk.popEach (h : PipelineOk b a) {slots : List (Fin maxClients)} (hslots : slots.Nodup) :
    PipelineOk b (a.popEach slots) where
  ring := by
    rw [popEach_ring]
    exact h.ring
  carries := by
    rw [popEach_ring]
    exact h.carries
  pushes := by
    rw [popEach_ring]
    exact h.pushes
  pops := by
    rw [popEach_ring]
    exact h.pops
  lines := by
    intro i
    rw [popEach_jitter hslots]
    split
    · exact (h.lines i).pop.1
    · exact h.lines i

/-! ### The participants of a room are its members -/

theorem ServerOk.present_held (h : ServerOk s l) (hr : s.roomMem p = some r) {x : Ptr × Client}
    (hx : x ∈ s.present r.snapshot) : s.Holds x.1 x.2 ∧ x.2.currentRoom = some p ∧ x.2.isActive = true := by
  obtain ⟨hmem, hclient⟩ := mem_present hx
  obtain ⟨cl, hc, hroom⟩ := h.of_member hr (mem_of_snapshot hmem)
  obtain rfl : cl = x.2 := Option.some.inj (hc.2.symm.trans hclient)
  obtain ⟨dl, hd, -, hactive⟩ := h.clients.holds hc.1
  obtain rfl : dl = x.2 := Option.some.inj (hd.2.symm.trans hclient)
  exact ⟨hc, hroom, hactive⟩

theorem ServerOk.members_eq (h : ServerOk s l) (hr : s.roomMem p = some r) :
    (s.chatRoom r).members = (s.present r.snapshot).map fun x => x.2.slot := by
  have hlive : ∀ c, some c ∈ r.snapshot → ∃ cl, s.clientMem c = some cl := by
    intro c hc
    obtain ⟨cl, hcl, -⟩ := h.of_member hr (mem_of_snapshot hc)
    exact ⟨cl, hcl.2⟩
  have hmembers : r.members = (s.present r.snapshot).map Prod.fst := by
    rw [present_map_fst hlive, Room.snapshot, List.filterMap_map]
    rfl
  rw [Server.chatRoom, hmembers, List.filterMap_map, ← List.filterMap_eq_map]
  apply List.filterMap_congr
  intro x hx
  exact h.clients.slotOf (h.present_held hr hx).1

/-- A participant speaks if its session is not muted. -/
theorem ServerOk.speaks_iff (h : ServerOk s l) (hr : s.roomMem p = some r) {x : Ptr × Client}
    (hx : x ∈ s.present r.snapshot) : x.2.speaks = true ↔ s.chat.Unmuted x.2.slot := by
  obtain ⟨hc, -, hactive⟩ := h.present_held hr hx
  have hsession : s.chat.sessions x.2.slot = some x.2.session := hc.session
  rw [Client.speaks, hactive, Bool.and_true, Chat.Unmuted, hsession]
  simp [Client.session]

theorem ServerOk.mem_speakingSlots (h : ServerOk s l) (hr : s.roomMem p = some r) :
    i ∈ s.speakingSlots r.snapshot ↔ i ∈ (s.chatRoom r).members ∧ s.chat.Unmuted i := by
  rw [h.members_eq hr]
  constructor
  · intro hi
    obtain ⟨x, hx, rfl⟩ := List.mem_map.mp hi
    obtain ⟨hx, hspeaks⟩ := List.mem_filter.mp hx
    exact ⟨List.mem_map_of_mem hx, (h.speaks_iff hr hx).mp hspeaks⟩
  · intro ⟨hi, hunmuted⟩
    obtain ⟨x, hx, rfl⟩ := List.mem_map.mp hi
    exact List.mem_map_of_mem (List.mem_filter.mpr ⟨hx, (h.speaks_iff hr hx).mpr hunmuted⟩)

theorem ServerOk.speakingSlots_nodup (h : ServerOk s l) (hr : s.roomMem p = some r) :
    (s.speakingSlots r.snapshot).Nodup :=
  List.Nodup.sublist (List.filter_sublist.map _) (h.mixable hr).slots

/-! ### Frames -/

/-- A voice as a frame. -/
def Speaker.frame (sp : Speaker) : Frame := (sp.slot, sp.pcm)

theorem pcm_packet (e : JitterEntry) : e.packet.pcm = e.pcm := by
  unfold Packet.pcm JitterEntry.pcm
  apply List.map_congr_left
  intro j hj
  have hlt := List.mem_range.mp hj
  have hbyte : ∀ k, k < e.payloadSize.toNat → e.packet.payload.getD k 0 = e.payload.getD k 0 := by
    intro k hk
    simp only [JitterEntry.packet, List.getD_eq_getElem?_getD, List.getElem?_take_of_lt hk]
  have hsize : e.packet.payloadSize = e.payloadSize := rfl
  rw [hsize] at hlt
  rw [sampleAt, sampleAt, hbyte _ (by omega), hbyte _ (by omega)]

theorem speakerOf_frames (a : Audio) (i : Fin maxClients) :
    (a.speakerOf i).map Speaker.frame =
      (((jitterBufferPop (a.jitter i)).1.map JitterEntry.packet).map fun q => (i, q.pcm)).toList := by
  rw [Audio.speakerOf, jitterBufferPop_fst]
  cases popIndex (a.jitter i) with
  | none => rfl
  | some idx =>
      simp only [Option.map_some, Option.toList_some, List.map_cons, List.map_nil, pcm_packet]
      rfl

/-- The frames of clients of whom the silent ones give nothing. -/
theorem flatMap_frames {drawn : Fin maxClients → Option Packet} {xs : List (Ptr × Client)}
    (hgive : ∀ x ∈ xs, x.2.speaks = true →
      drawn x.2.slot = (jitterBufferPop (a.jitter x.2.slot)).1.map JitterEntry.packet)
    (hsilent : ∀ x ∈ xs, x.2.speaks = false → drawn x.2.slot = none) :
    (xs.filter fun x => x.2.speaks).flatMap (fun x => (a.speakerOf x.2.slot).map Speaker.frame) =
      xs.filterMap fun x => (drawn x.2.slot).map fun q => (x.2.slot, q.pcm) := by
  induction xs with
  | nil => rfl
  | cons x rest ih =>
      have hrest := ih (fun y hy => hgive y (List.mem_cons_of_mem x hy))
        fun y hy => hsilent y (List.mem_cons_of_mem x hy)
      rw [List.filterMap_cons]
      cases hspeaks : x.2.speaks with
      | false =>
          have hnone := hsilent x List.mem_cons_self hspeaks
          rw [List.filter_cons_of_neg (by simp [hspeaks]), hrest, hnone, Option.map_none]
      | true =>
          have hsome := hgive x List.mem_cons_self hspeaks
          rw [List.filter_cons_of_pos (by simp [hspeaks]), List.flatMap_cons, hrest, speakerOf_frames, hsome]
          cases (jitterBufferPop (a.jitter x.2.slot)).1 with
          | none => rfl
          | some e => rfl

/-- **The voices of a room** are the frames its members give. -/
theorem ServerOk.voices_frames (h : ServerOk s l) (hr : s.roomMem p = some r) (a : Audio) :
    (voices s a r.snapshot).map Speaker.frame =
      (s.chatRoom r).frames (a.drawn (s.speakingSlots r.snapshot)) := by
  rw [ChatRoom.frames, h.members_eq hr, List.filterMap_map, voices, List.map_flatMap]
  apply flatMap_frames
  · intro x hx hspeaks
    exact drawn_of_mem a (List.mem_map_of_mem (List.mem_filter.mpr ⟨hx, hspeaks⟩))
  · intro x hx hquiet
    apply drawn_of_not_mem
    intro hmem
    have hunmuted := ((h.mem_speakingSlots hr).mp hmem).2
    rw [(h.speaks_iff hr hx).mpr hunmuted] at hquiet
    cases hquiet

theorem heardBy_frames (i : Fin maxClients) (speakers : List Speaker) :
    (heardBy i speakers).map Speaker.frame = framesFor i (speakers.map Speaker.frame) := by
  rw [heardBy, framesFor, List.filter_map]
  rfl

theorem mixSpeakers_frames (speakers : List Speaker) :
    mixSpeakers speakers = mixFrames ((speakers.map Speaker.frame).map Prod.snd) := by
  have hpcm : (speakers.map Speaker.frame).map Prod.snd = speakers.map Speaker.pcm := by
    rw [List.map_map]
    rfl
  rw [hpcm, mixSpeakers, mixFrames, List.foldl_map, List.length_map]

/-! ### One room -/

/-- **`mix_room`** with the buffers it leaves. -/
theorem mixRoom_pops (h : Mixable m.server p r) (hin : SemInRange m.server r) (hsems : ∀ k, m.sems k ≠ 0) :
    mixRoom m p =
      some (⟨m.counted p r, m.audio.popEach (m.server.speakingSlots r.snapshot), m.sems⟩,
        (m.server.listeners r).map
          (sentTo (m.counted p r) p (voices m.server m.audio r.snapshot))) := by
  have hlive : ∀ c, some c ∈ r.snapshot → ∃ cl, m.server.clientMem c = some cl := by
    intro c hc
    obtain ⟨cl, hcl, -⟩ := h.live c hc
    exact ⟨cl, hcl⟩
  obtain ⟨out, hout, -, -, -⟩ := collect_room h hin
  obtain ⟨audio, hmix, -⟩ := mixRoom_eq h hin
  have haudio : audio = out.audio := by
    have hsame := hmix
    unfold mixRoom at hsame
    simp only [h.room, hout] at hsame
    obtain ⟨sent, -, hpair⟩ := Option.map_eq_some_iff.mp hsame
    exact (congrArg (fun x => x.1.audio) hpair).symm
  by_cases hid : r.roomId < maxRooms
  · have hahead : Ahead m.server r.snapshot [] := ⟨List.nodup_nil, fun sp hsp => by cases hsp⟩
    have hpops := collect_pops hlive h.slots hid (hsems _) hahead hout
    have hvoices : m.voicesIn r = voices m.server m.audio r.snapshot := by
      rw [Mixer.voicesIn, dif_pos hid, if_neg (hsems _)]
    rw [hmix, haudio, hpops, hvoices]
  · have hsilent := hin.resolve_left hid
    have hnobody : (m.server.present r.snapshot).filter (fun x => x.2.speaks) = [] := by
      apply List.filter_eq_nil_iff.mpr
      intro x hx
      simp [hsilent x hx]
    have hquiet : collect m.server r.roomId r.snapshot ⟨m.sems, m.audio, []⟩ = some ⟨m.sems, m.audio, []⟩ :=
      collect_silent hlive hsilent
    obtain rfl : out = ⟨m.sems, m.audio, []⟩ := Option.some.inj (hout.symm.trans hquiet)
    have hvoices : m.voicesIn r = voices m.server m.audio r.snapshot := by
      rw [Mixer.voicesIn, dif_neg hid, voices, hnobody]
      rfl
    have hslots : m.server.speakingSlots r.snapshot = [] := by
      rw [Server.speakingSlots, hnobody]
      rfl
    rw [hmix, haudio, hvoices, hslots]
    rfl

theorem chat_withSpeakers (s : Server) (k : Ptr → Int) : (s.withSpeakers k).chat = s.chat := by
  have hrooms : ∀ q, ((s.withSpeakers k).roomMem q).map (s.withSpeakers k).chatRoom =
      (s.roomMem q).map s.chatRoom := by
    intro q
    simp only [Server.withSpeakers, Option.map_map]
    rfl
  simp only [Server.chat, hrooms]
  rfl

theorem Serving.withSpeakers (h : Serving db₀ s) (k : Ptr → Int) : Serving db₀ (s.withSpeakers k) where
  ok := by
    obtain ⟨l, hok⟩ := h.ok
    exact ⟨l, hok.withSpeakers k⟩
  records := by
    have hinfo : (s.withSpeakers k).roomInfo = s.roomInfo := by
      funext q
      simp only [Server.roomInfo, Server.withSpeakers, Option.map_map]
      rfl
    rw [RecordsOk, hinfo]
    exact h.records
  users := h.users
  table := h.table

/-- What the members of a room are sent. -/
theorem ServerOk.sent_out (h : ServerOk m.server l) (hr : m.server.roomMem p = some r) :
    ((m.server.listeners r).map (sentTo (m.counted p r) p (voices m.server m.audio r.snapshot))).filterMap
        (Sent.out m.server) =
      (m.server.chatRoom r).mixed (m.audio.drawn (m.server.speakingSlots r.snapshot)) := by
  have hlisteners : m.server.listeners r = m.server.present r.snapshot := by
    apply List.filter_eq_self.mpr
    intro x hx
    exact (h.present_held hr hx).2.2
  have hmixed : (m.server.chatRoom r).mixed (m.audio.drawn (m.server.speakingSlots r.snapshot)) =
      (m.server.present r.snapshot).map fun x => VoiceOut.audio x.2.slot r.roomId
        (framesFor x.2.slot ((m.server.chatRoom r).frames (m.audio.drawn (m.server.speakingSlots r.snapshot))))
        (mixFrames ((framesFor x.2.slot
          ((m.server.chatRoom r).frames (m.audio.drawn (m.server.speakingSlots r.snapshot)))).map Prod.snd)) := by
    rw [ChatRoom.mixed, h.members_eq hr, List.map_map]
    rfl
  rw [hlisteners, hmixed, List.filterMap_map, ← List.filterMap_eq_map]
  apply List.filterMap_congr
  intro x hx
  obtain ⟨hc, hroom, -⟩ := h.present_held hr hx
  have hheader : (m.counted p r).headerId x.2 = r.roomId := by
    simp only [Server.headerId, hroom, Mixer.counted, Server.setRoom, Function.update_self, Option.map_some,
      Option.getD_some]
  have hmem : m.server.clientMem x.1 = some x.2 := hc.2
  have hframes := h.voices_frames hr m.audio
  simp only [Function.comp_apply, Sent.out, sentTo, hmem, Option.map_some, hheader, mixSpeakers_frames]
  rw [← hframes, ← heardBy_frames]
  rfl

/-- **Mixing a room** is a step of the service. -/
theorem ServerOk.mixRoom_step (h : ServerOk m.server l) (hr : m.server.roomMem p = some r)
    (hin : SemInRange m.server r) (hsems : ∀ k, m.sems k ≠ 0) (hpipe : PipelineOk b m.audio) :
    ∃ m' sent k, mixRoom m p = some (m', sent) ∧ m'.server = m.server.withSpeakers k ∧ m'.sems = m.sems ∧
      PipelineOk b m'.audio ∧ ∃ drawn,
        sent.filterMap (Sent.out m.server) = (m.server.chatRoom r).mixed drawn ∧
          m.voice.Draws b (m.server.chatRoom r) drawn m'.audio.lines := by
  have hnodup := h.speakingSlots_nodup hr
  have hmix := mixRoom_pops (h.mixable hr) hin hsems
  have hspeaking : ∀ i, i ∈ m.server.speakingSlots r.snapshot ↔
      i ∈ (m.server.chatRoom r).members ∧ m.voice.chat.Unmuted i := fun i => h.mem_speakingSlots hr
  obtain ⟨k, hk⟩ : ∃ k, m.counted p r = m.server.withSpeakers k := setRoom_speakers hr _
  refine ⟨_, _, k, hmix, hk, rfl, hpipe.popEach hnodup, _, h.sent_out hr, ?_, ?_⟩
  · intro i hi hunmuted
    have hmem := (hspeaking i).mpr ⟨hi, hunmuted⟩
    have hpop := (hpipe.lines i).pop.2
    have hline : Audio.lines (m.audio.popEach (m.server.speakingSlots r.snapshot)) i =
        (jitterBufferPop (m.audio.jitter i)).2.line := by
      rw [Audio.lines, popEach_jitter hnodup, if_pos hmem]
    rw [hline, drawn_of_mem m.audio hmem]
    exact hpop
  · intro i hnot
    have hmem : i ∉ m.server.speakingSlots r.snapshot := fun hi => hnot ((hspeaking i).mp hi)
    refine ⟨drawn_of_not_mem m.audio hmem, ?_⟩
    rw [Audio.lines, popEach_jitter hnodup, if_neg hmem]
    rfl

/-! ### The refinement -/

/-- The operations of the clients are ordinary, the packets of a slot fit and are
in the window of the slot, and the semaphore of a room that is mixed exists. -/
def OrdinaryVoice (b : Fin maxClients → UInt32) (m : Mixer) : VoiceOp → Prop
  | .server o => Ordinary m.server o
  | .datagram bytes stale => bytes = [] ∨ Admits b (recvPacket stale bytes)
  | .mix k => ∀ p r, m.server.roomList[k]? = some p → m.server.roomMem p = some r → SemInRange m.server r
  | _ => True

/-- What holds of the threads in every such run. -/
structure VoiceOk (b : Fin maxClients → UInt32) (db₀ : FileDb) (m : Mixer) : Prop where
  serving : Serving db₀ m.server
  pipeline : PipelineOk b m.audio
  sems : ∀ k, m.sems k = maxSpeakersPerRoom

theorem VoiceOk.start (b : Fin maxClients → UInt32) (db : FileDb) {users : File} {rs : List UserRecord}
    (hu : TableOk users.data rs) : VoiceOk b db (Mixer.start db users) where
  serving := Serving.start db hu
  pipeline := PipelineOk.start b
  sems := fun _ => rfl

theorem voice_start (db : FileDb) (users : File) :
    (Mixer.start db users).voice = Voice.start (accounts users.data) := by
  have hlines : (Mixer.start db users).audio.lines = fun _ => ⟨0, false⟩ := by
    funext i
    exact emptyJitter_line
  rw [Mixer.voice, hlines]
  rfl

variable {o : VoiceOp}

/-- What a step of one of the threads is for the service. -/
def StepShown (b : Fin maxClients → UInt32) (db₀ : FileDb) (m : Mixer) (o : VoiceOp) : Prop :=
  ∃ m', m.voiceStep o = some m' ∧ VoiceOk b db₀ m' ∧
    Seen (Voice.Step b (reserved db₀)) m.voice (m.voiceEvent o) (m.voiceSent o) m'.voice

/-- A step of the audio path that the service does not see. -/
theorem VoiceOk.unseen (h : VoiceOk b db₀ m) (hstep : m.voiceStep o = some (m.withAudio a)) (hpipe : PipelineOk b a)
    (hpending : a.pending = m.audio.pending) (hlines : a.lines = m.audio.lines) (hevent : m.voiceEvent o = none)
    (hsent : m.voiceSent o = []) : StepShown b db₀ m o := by
  refine ⟨m.withAudio a, hstep, ⟨h.serving, hpipe, h.sems⟩, ?_⟩
  rw [hevent]
  refine ⟨hsent, ?_⟩
  simp only [Mixer.voice, Mixer.withAudio, hpending, hlines]

theorem VoiceOk.serverStep (h : VoiceOk b db₀ m) {op : Op × Env} (ho : Ordinary m.server op) :
    StepShown b db₀ m (.server op) := by
  obtain ⟨t, ht, hserving, hsent, hchat⟩ := server_implements_chat db₀ m.server op h.serving ho
  refine ⟨{ m with server := t }, by rw [Mixer.voiceStep, ht, Option.map_some], ⟨hserving, h.pipeline, h.sems⟩, ?_⟩
  have hvoice : Mixer.voice { m with server := t } = { m.voice with chat := t.chat } := rfl
  have hstep : Voice.Step b (reserved db₀) m.voice (.chat (Op.event op))
      ((m.server.sent op).map fun x => .response x.1 x.2) (Mixer.voice { m with server := t }) := by
    rw [hsent, hvoice, hchat]
    exact Voice.Step.chat (Op.event op)
  exact hstep

/-- **`handle_udp_packet`** up to the `sem_trywait` of its push. -/
theorem VoiceOk.datagram (h : VoiceOk b db₀ m) {bytes : Bytes} {stale : AudioPacket}
    (ho : bytes = [] ∨ Admits b (recvPacket stale bytes)) : StepShown b db₀ m (.datagram bytes stale) := by
  by_cases hidle : m.audio.ring.call .epoll = .idle
  · by_cases hpushes : bytes ≠ [] ∧ 0 < (recvPacket stale bytes).payloadSize
    · obtain ⟨hbytes, hsize⟩ := hpushes
      obtain ⟨hpipe, hpending⟩ := h.pipeline.startPush hidle (ho.resolve_left hbytes)
      refine ⟨m.withAudio { m.audio with ring := m.audio.ring.step .epoll (.push (recvPacket stale bytes)) }, ?_,
        ⟨h.serving, hpipe, h.sems⟩, ?_⟩
      · simp only [Mixer.voiceStep, Audio.step, hidle, if_neg hbytes, if_pos hsize, Option.map_some]
      · have hevent : m.voiceEvent (.datagram bytes stale) =
            some (.packet (recvPacket stale bytes).senderId (recvPacket stale bytes).packet) := by
          simp only [Mixer.voiceEvent, hidle]
          exact if_pos ⟨hbytes, hsize⟩
        rw [hevent]
        rcases hpending with ⟨hroom, hnew⟩ | ⟨hfull, hsame⟩
        · have hshort : m.voice.pending.length < ringBufferCapacity := by
            rw [Mixer.voice, List.length_map]
            exact hroom
          have hstep : Voice.Step b (reserved db₀) m.voice (.packet _ _) [] _ :=
            Voice.Step.packet (recvPacket stale bytes).senderId (recvPacket stale bytes).packet hshort
          simp only [Mixer.voice, Mixer.withAudio] at hstep ⊢
          rw [hnew, List.map_append]
          exact hstep
        · have hlong : m.voice.pending.length = ringBufferCapacity := by
            rw [Mixer.voice, List.length_map]
            exact hfull
          have hstep : Voice.Step b (reserved db₀) m.voice (.packet _ _) [] _ :=
            Voice.Step.dropped (recvPacket stale bytes).senderId (recvPacket stale bytes).packet hlong
          simp only [Mixer.voice, Mixer.withAudio] at hstep ⊢
          rw [hsame]
          exact hstep
    · apply h.unseen (a := m.audio) _ h.pipeline rfl rfl _ rfl
      · by_cases hbytes : bytes = []
        · simp only [Mixer.voiceStep, Audio.step, hidle, if_pos hbytes, Option.map_some]
        · have hsize : ¬ 0 < (recvPacket stale bytes).payloadSize := fun hsize => hpushes ⟨hbytes, hsize⟩
          simp only [Mixer.voiceStep, Audio.step, hidle, if_neg hbytes, if_neg hsize, Option.map_some]
      · simp only [Mixer.voiceEvent, hidle]
        exact if_neg hpushes
  · -- the epoll thread is busy, and takes no datagram
    apply h.unseen (a := m.audio) _ h.pipeline rfl rfl _ rfl
    · cases hcall : m.audio.ring.call .epoll with
      | idle => exact absurd hcall hidle
      | reserved x => simp only [Mixer.voiceStep, Audio.step, hcall, Option.map_some]
      | written => simp only [Mixer.voiceStep, Audio.step, hcall, Option.map_some]
      | claimed => simp only [Mixer.voiceStep, Audio.step, hcall, Option.map_some]
      | taken x => simp only [Mixer.voiceStep, Audio.step, hcall, Option.map_some]
    · cases hcall : m.audio.ring.call .epoll with
      | idle => exact absurd hcall hidle
      | reserved x => simp only [Mixer.voiceEvent, hcall]
      | written => simp only [Mixer.voiceEvent, hcall]
      | claimed => simp only [Mixer.voiceEvent, hcall]
      | taken x => simp only [Mixer.voiceEvent, hcall]

theorem VoiceOk.epoll (h : VoiceOk b db₀ m) : StepShown b db₀ m .epoll := by
  by_cases hidle : m.audio.ring.call .epoll = .idle
  · apply h.unseen (a := m.audio) _ h.pipeline rfl rfl rfl rfl
    simp only [Mixer.voiceStep, Audio.step, hidle, Option.map_some]
  · obtain ⟨hpipe, hpending⟩ := h.pipeline.goOnPush hidle
    apply h.unseen _ hpipe hpending rfl rfl rfl
    cases hcall : m.audio.ring.call .epoll with
    | idle => exact absurd hcall hidle
    | reserved x => simp only [Mixer.voiceStep, Audio.step, hcall, Option.map_some]
    | written => simp only [Mixer.voiceStep, Audio.step, hcall, Option.map_some]
    | claimed => simp only [Mixer.voiceStep, Audio.step, hcall, Option.map_some]
    | taken x => simp only [Mixer.voiceStep, Audio.step, hcall, Option.map_some]

/-- **The drain loop**: a packet is filed when its pop ends. -/
theorem VoiceOk.mixer (h : VoiceOk b db₀ m) : StepShown b db₀ m .mixer := by
  by_cases htaken : ∃ pkt, m.audio.ring.call .mixer = .taken pkt
  · obtain ⟨pkt, hcall⟩ := htaken
    obtain ⟨hpipe, hpending, hpkt⟩ := h.pipeline.endPop hcall
    obtain ⟨a', hdeliver, hpipe', hpending', hfiled⟩ := hpipe.deliver hpkt
    refine ⟨m.withAudio a', ?_, ⟨h.serving, hpipe', h.sems⟩, ?_⟩
    · simp only [Mixer.voiceStep, Audio.step, hcall, hdeliver, Option.map_some]
    · have hevent : m.voiceEvent .mixer = some .file := by simp only [Mixer.voiceEvent, hcall]
      rw [hevent]
      have hfirst : m.voice.pending = (pkt.senderId, pkt.packet) :: a'.pending.map AudioPacket.filed := by
        rw [Mixer.voice, hpending, hpending', List.map_cons]
        rfl
      rcases hfiled with ⟨hunknown, hlines⟩ | ⟨i, line, hnamed, hpush, hlines⟩
      · have hstep : Voice.Step b (reserved db₀) m.voice .file [] _ := Voice.Step.discard hfirst hunknown
        simp only [Mixer.voice, Mixer.withAudio, hlines] at hstep ⊢
        exact hstep
      · have hstep : Voice.Step b (reserved db₀) m.voice .file [] _ := Voice.Step.file hfirst hnamed hpush
        simp only [Mixer.voice, Mixer.withAudio, hlines] at hstep ⊢
        exact hstep
  · obtain ⟨hpipe, hpending⟩ := h.pipeline.goOnPop fun pkt hpkt => htaken ⟨pkt, hpkt⟩
    apply h.unseen _ hpipe hpending rfl _ rfl
    · cases hcall : m.audio.ring.call .mixer with
      | idle => simp only [Mixer.voiceStep, Audio.step, hcall, Option.map_some]
      | reserved x => simp only [Mixer.voiceStep, Audio.step, hcall, Option.map_some]
      | written => simp only [Mixer.voiceStep, Audio.step, hcall, Option.map_some]
      | claimed => simp only [Mixer.voiceStep, Audio.step, hcall, Option.map_some]
      | taken x => exact absurd ⟨x, hcall⟩ htaken
    · cases hcall : m.audio.ring.call .mixer with
      | idle => simp only [Mixer.voiceEvent, hcall]
      | reserved x => simp only [Mixer.voiceEvent, hcall]
      | written => simp only [Mixer.voiceEvent, hcall]
      | claimed => simp only [Mixer.voiceEvent, hcall]
      | taken x => exact absurd ⟨x, hcall⟩ htaken

/-- The room at a place of the list. -/
theorem RoomsOk.room_at (h : RoomsOk s l) (k : Nat) :
    s.chat.rooms[k]? = (s.roomList[k]?.bind s.roomMem).map s.chatRoom := by
  rw [h.chat_rooms, h.roomList]
  have hlive : ∀ q ∈ l, ∃ x, s.roomMem q = some x := fun q hq => (h.live q).mp hq
  clear h
  induction l generalizing k with
  | nil => rfl
  | cons q rest ih =>
      obtain ⟨x, hx⟩ := hlive q List.mem_cons_self
      rw [List.filterMap_cons, hx, Option.map_some]
      cases k with
      | zero => rw [List.getElem?_cons_zero, List.getElem?_cons_zero, Option.bind_some, hx, Option.map_some]
      | succ k => exact ih k fun q' hq' => hlive q' (List.mem_cons_of_mem q hq')

/-- **`mix_room`** of a room of the list. -/
theorem VoiceOk.mix (h : VoiceOk b db₀ m) {k : Nat} (ho : OrdinaryVoice b m (.mix k)) :
    StepShown b db₀ m (.mix k) := by
  obtain ⟨l, hok⟩ := h.serving.ok
  by_cases hidle : m.audio.ring.call .mixer = .idle
  · have hstep : m.voiceStep (.mix k) = (m.mixAt k).map Prod.fst := by simp only [Mixer.voiceStep, hidle]
    have hevent : m.voiceEvent (.mix k) = some (.mix k) := by simp only [Mixer.voiceEvent, hidle]
    have hsent : m.voiceSent (.mix k) =
        ((m.mixAt k).map Prod.snd).elim [] fun sent => sent.filterMap (Sent.out m.server) := by
      simp only [Mixer.voiceSent, hidle]
    have hat := hok.rooms.room_at k
    unfold StepShown
    rw [hstep, hevent, hsent]
    cases hp : m.server.roomList[k]? with
    | none =>
        rw [hp, Option.bind_none, Option.map_none] at hat
        have hmix : m.mixAt k = some (m, []) := by simp only [Mixer.mixAt, hp]
        rw [hmix]
        exact ⟨m, rfl, h, Voice.Step.noRoom hat⟩
    | some p =>
        have hlisted : p ∈ l := by
          rw [← hok.rooms.roomList]
          exact List.mem_of_getElem? hp
        obtain ⟨r, hr⟩ := (hok.rooms.live p).mp hlisted
        rw [hp, Option.bind_some, hr, Option.map_some] at hat
        by_cases hcount : 0 < r.participantCount
        · obtain ⟨m', sent, k', hmix, hserver, hsems, hpipe, drawn, hout, hdraws⟩ :=
            hok.mixRoom_step hr (ho p r hp hr) (fun j => by rw [h.sems j]; decide) h.pipeline
          have hmixAt : m.mixAt k = some (m', sent) := by simp only [Mixer.mixAt, hp, hr, if_pos hcount, hmix]
          rw [hmixAt]
          refine ⟨m', rfl, ⟨?_, hpipe, fun j => by rw [hsems]; exact h.sems j⟩, ?_⟩
          · rw [hserver]
            exact h.serving.withSpeakers k'
          · have hpending : m'.audio.pending = m.audio.pending := by rw [Audio.pending, mixRoom_ring hmix]; rfl
            have hvoice : m'.voice = { m.voice with lines := m'.audio.lines } := by
              simp only [Mixer.voice, hserver, chat_withSpeakers, hpending]
            rw [hvoice, Option.map_some, Option.elim_some, hout]
            exact Voice.Step.mix hat hdraws
        · -- a room without participants is passed over
          have hnobody : (m.server.chatRoom r).members = [] := by
            rw [hok.members_eq hr]
            have hzero : r.participantCount = 0 := by omega
            simp [Room.snapshot, hzero, Server.present]
          have hmixAt : m.mixAt k = some (m, []) := by simp only [Mixer.mixAt, hp, hr, if_neg hcount]
          rw [hmixAt]
          refine ⟨m, rfl, h, ?_⟩
          have hmixed : (m.server.chatRoom r).mixed (fun _ => none) = [] := by
            rw [ChatRoom.mixed, hnobody, List.map_nil]
          have hdraws : m.voice.Draws b (m.server.chatRoom r) (fun _ => none) m.voice.lines := by
            refine ⟨?_, fun i _ => ⟨rfl, rfl⟩⟩
            intro i hi
            rw [hnobody] at hi
            cases hi
          have hmixStep : Voice.Step b (reserved db₀) m.voice (.mix k) _ _ := Voice.Step.mix hat hdraws
          rw [hmixed] at hmixStep
          exact hmixStep
  · have hquiet : m.voiceStep (.mix k) = some m ∧ m.voiceEvent (.mix k) = none ∧ m.voiceSent (.mix k) = [] := by
      cases hcall : m.audio.ring.call .mixer with
      | idle => exact absurd hcall hidle
      | reserved x => simp only [Mixer.voiceStep, Mixer.voiceEvent, Mixer.voiceSent, hcall, and_self]
      | written => simp only [Mixer.voiceStep, Mixer.voiceEvent, Mixer.voiceSent, hcall, and_self]
      | claimed => simp only [Mixer.voiceStep, Mixer.voiceEvent, Mixer.voiceSent, hcall, and_self]
      | taken x => simp only [Mixer.voiceStep, Mixer.voiceEvent, Mixer.voiceSent, hcall, and_self]
    obtain ⟨hstep, hevent, hsent⟩ := hquiet
    exact h.unseen (a := m.audio) hstep h.pipeline rfl rfl hevent hsent

/-- **The threads refine the voice service.** -/
theorem server_refines (b : Fin maxClients → UInt32) (db₀ : FileDb) :
    Refines Mixer.voiceStep Mixer.voiceSent (VoiceOk b db₀) (OrdinaryVoice b) Mixer.voice Mixer.voiceEvent
      (Voice.Step b (reserved db₀)) := by
  intro m o h ho
  cases o with
  | server op => exact h.serverStep ho
  | datagram bytes stale => exact h.datagram ho
  | epoll => exact h.epoll
  | mixer => exact h.mixer
  | mix k => exact h.mix ho

/-- `OrdinaryVoice` with the descriptors below `n` open, computed. -/
def checkVoice (n : Nat) (b : Fin maxClients → UInt32) (m : Mixer) : VoiceOp → Bool
  | .server o => checkOrdinary n m.server o
  | .datagram bytes stale =>
      (slotNamed (recvPacket stale bytes).senderId).all fun i =>
        (recvPacket stale bytes).payloadSize.toNat ≤ audioPayloadSize ∧ InWindow (b i) (recvPacket stale bytes).seqNum
  | .mix k => (m.server.roomList[k]?.bind m.server.roomMem).all fun r => r.roomId < maxRooms
  | _ => true

theorem voice_of_check (n : Nat) (b : Fin maxClients → UInt32) (m : Mixer) (o : VoiceOp)
    (h : checkVoice n b m o = true) : OrdinaryVoice b m o := by
  cases o with
  | server o => exact ordinary_of_check n m.server o h
  | datagram bytes stale =>
      right
      intro i hi
      rw [checkVoice, hi] at h
      exact of_decide_eq_true h
  | epoll => trivial
  | mixer => trivial
  | mix k =>
      intro p r hp hr
      rw [checkVoice, hp, Option.bind_some, hr] at h
      exact Or.inl (of_decide_eq_true h)

/-- A datagram of the client in the second slot, with its number as the only sample. -/
def bobFrame (seq : UInt8) : Bytes × AudioPacket :=
  ([0, 0, 0, 0, 1, 0, 0, 0, seq, 0, 0, 0, 0, 0, 0, 0, 2, 0, seq, 0], fit audioPacketSize [])

/-- Bob speaks twice in the lobby.  The mixer looks at the ring in the middle of
the first push. -/
def lobbyVoice : List VoiceOp :=
  lobbyOps.map .server ++
    [.datagram (bobFrame 1).1 (bobFrame 1).2, .epoll, .mixer, .epoll, .mixer, .mixer, .mixer, .mix 0,
      .datagram (bobFrame 2).1 (bobFrame 2).2, .epoll, .epoll, .mixer, .mixer, .mixer, .mix 0]

theorem lobbyVoice_ordinary :
    Along Mixer.voiceStep (OrdinaryVoice fun _ => 0) (Mixer.start emptyDb startTable) lobbyVoice :=
  along_of_checkAlong (voice_of_check 5 fun _ => 0) (by decide +kernel)

end EchoLink
