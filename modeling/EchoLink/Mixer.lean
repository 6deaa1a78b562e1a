import EchoLink.AudioPath
import EchoLink.Handlers

/-!
# The mixer

One tick of `mixer_thread_main`: the ring is drained into the jitter buffers,
and each room with participants is mixed.  `mix_room` takes at most one entry
from the jitter buffer of every participant that is active and not muted, under
the semaphore of the room, and sends every active participant the sum of the
entries of the others.

Reading a client or a room that has been freed has no outcome, and neither has
a semaphore outside `room_speaker_sem`.  The UDP address of a client and the
time stamp of a packet are left out.
-/

namespace EchoLink

open CText RecordFile BoundedQueue LinkedList PackedArray

def maxSpeakersPerRoom : Nat := 10

/-- The samples of a packet that is sent. -/
def frameSamples : Nat := 320

/-! ### Samples -/

/-- The sample at an index of a payload, the low byte first. -/
def sampleAt (payload : Bytes) (j : Nat) : Int16 :=
  (UInt16.ofNat ((payload.getD (2 * j) 0).toNat + 256 * (payload.getD (2 * j + 1) 0).toNat)).toInt16

/-- What `mix_room` copies to `speaker_pcm`. -/
def JitterEntry.pcm (e : JitterEntry) : List Int16 :=
  (List.range (min (e.payloadSize.toNat / 2) frameSamples)).map (sampleAt e.payload)

/-- `clamp_add`. -/
def clampAdd (a b : Int16) : Int16 :=
  let sum := a.toInt + b.toInt
  if 32767 < sum then 32767 else if sum < -32768 then -32768 else Int16.ofInt sum

/-- A speaker's samples are added to the mix. -/
def addPcm (mixed : Fin frameSamples → Int16) (pcm : List Int16) : Fin frameSamples → Int16 := fun j =>
  match pcm[j.val]? with
  | some x => clampAdd (mixed j) x
  | none => mixed j

/-! ### The speakers of a room -/

/-- What `mix_room` has collected of a speaker, and the index of the entry in
the jitter buffer of the slot. -/
structure Speaker where
  slot : Fin maxClients
  idx : Fin jitterBufferSize
  pcm : List Int16

/-- The entry that `jitter_buffer_pop` takes. -/
def popIndex (jb : JitterBuffer) : Option (Fin jitterBufferSize) :=
  if jb.count = 0 then none
  else if jb.buffering ∧ jb.count < 5 then none
  else (bestEntry jb).map Prod.fst

theorem jitterBufferPop_fst (jb : JitterBuffer) :
    (jitterBufferPop jb).1 = (popIndex jb).map jb.buffer := by
  unfold jitterBufferPop popIndex
  split
  · rfl
  · split
    · rfl
    · cases bestEntry jb with
      | none => rfl
      | some b => rfl

/-- The variables of the loop over the participants. -/
structure Collected where
  sems : Fin maxRooms → Nat
  audio : Audio
  speakers : List Speaker

/-- `jitter_buffer_pop` of the buffer of a slot. -/
def Audio.popSlot (a : Audio) (slot : Fin maxClients) : Audio :=
  { a with
    jitter := Function.update a.jitter slot (jitterBufferPop (a.jitter slot)).2
    played := a.played ++ (jitterBufferPop (a.jitter slot)).1.toList }

/-- The speaker an entry was popped for, if there was one. -/
def Audio.speakerOf (a : Audio) (slot : Fin maxClients) : List Speaker :=
  ((popIndex (a.jitter slot)).map fun i => ⟨slot, i, ((a.jitter slot).buffer i).pcm⟩).toList

/-- The loop over the participants. -/
def collect (s : Server) (roomId : Nat) : List (Option Ptr) → Collected → Option Collected
  | [], out => some out
  | none :: rest, out => collect s roomId rest out
  | some c :: rest, out =>
      match s.clientMem c with
      | none => none
      | some speaker =>
          if speaker.isMute = true ∨ speaker.isActive = false then collect s roomId rest out
          else if maxClients ≤ out.speakers.length then some out
          else if hid : roomId < maxRooms then
            -- `sem_trywait`: with no permit left the speaker is passed over
            if out.sems ⟨roomId, hid⟩ = 0 then collect s roomId rest out
            else
              let taken := Function.update out.sems ⟨roomId, hid⟩ (out.sems ⟨roomId, hid⟩ - 1)
              collect s roomId rest
                { sems := Function.update taken ⟨roomId, hid⟩ (taken ⟨roomId, hid⟩ + 1)
                  audio := out.audio.popSlot speaker.slot
                  speakers := out.speakers ++ out.audio.speakerOf speaker.slot }
          else none

/-! ### What the listeners get -/

/-- A packet that is sent: the room it is mixed in, the client it goes to, the
`room_id` of its header and its samples, with the speakers mixed into it. -/
structure Sent where
  room : Ptr
  listener : Ptr
  roomId : Nat
  samples : Fin frameSamples → Int16
  speakers : List Speaker

/-- The speakers a listener hears: all but itself. -/
def heardBy (slot : Fin maxClients) (speakers : List Speaker) : List Speaker :=
  speakers.filter fun sp => sp.slot ≠ slot

/-- The sum of the speakers, divided by their number if there are several. -/
def mixSpeakers (speakers : List Speaker) : Fin frameSamples → Int16 :=
  let mixed := speakers.foldl (fun mixed sp => addPcm mixed sp.pcm) fun _ => 0
  if 1 < speakers.length then fun j => Int16.ofInt ((mixed j).toInt.tdiv speakers.length) else mixed

/-- `send_audio_to_client`, which reads `current_room->room_id`. -/
def sendAudioToClient (s : Server) (room listener : Ptr) (cl : Client) (speakers : List Speaker) :
    Option Sent :=
  let header := match cl.currentRoom with
    | none => some 0
    | some q => (s.roomMem q).map Room.roomId
  header.map fun roomId => ⟨room, listener, roomId, mixSpeakers speakers, speakers⟩

/-- The loop over the snapshot of the participants. -/
def sendLoop (s : Server) (room : Ptr) (speakers : List Speaker) : List (Option Ptr) → Option (List Sent)
  | [] => some []
  | none :: rest => sendLoop s room speakers rest
  | some c :: rest =>
      match s.clientMem c with
      | none => none
      | some listener =>
          if listener.isActive = false then sendLoop s room speakers rest
          else
            match sendAudioToClient s room c listener (heardBy listener.slot speakers) with
            | none => none
            | some sent => (sendLoop s room speakers rest).map fun rest => sent :: rest

/-! ### A tick -/

/-- The server, the ring with the jitter buffers, and `room_speaker_sem`. -/
structure Mixer where
  server : Server
  audio : Audio
  sems : Fin maxRooms → Nat

/-- After all initialisation. -/
def Mixer.start (db : FileDb) (users : File) : Mixer where
  server := Server.start db users
  audio := Audio.start
  sems := fun _ => maxSpeakersPerRoom

/-- The array of participants, as far as it is in use. -/
def Room.snapshot (r : Room) : List (Option Ptr) := (List.range r.participantCount).map r.participants

/-- `mix_room`. -/
def mixRoom (m : Mixer) (p : Ptr) : Option (Mixer × List Sent) :=
  match m.server.roomMem p with
  | none => none
  | some r =>
      match collect m.server r.roomId r.snapshot ⟨m.sems, m.audio, []⟩ with
      | none => none
      | some out =>
          let s := m.server.setRoom p { r with activeSpeakers := out.speakers.length }
          (sendLoop s p out.speakers (r.snapshot.take maxClients)).map fun sent =>
            ({ server := s, audio := out.audio, sems := out.sems }, sent)

/-- The loop over the rooms, which ends after `MAX_ROOMS` of them. -/
def mixRooms : Nat → Option Ptr → Mixer → Option (Mixer × List Sent)
  | 0, _, _ => none
  | _ + 1, none, m => some (m, [])
  | fuel + 1, some p, m =>
      match m.server.roomMem p with
      | none => none
      | some r =>
          if 0 < r.participantCount then
            match mixRoom m p with
            | none => none
            | some out => (mixRooms fuel (m.server.roomNext p) out.1).map fun rest => (rest.1, out.2 ++ rest.2)
          else mixRooms fuel (m.server.roomNext p) m

/-- A whole call of `ring_buffer_pop` by the mixer, when a packet is there. -/
def Audio.popRing (a : Audio) : Audio :=
  { a with ring := ((a.ring.step .mixer .pop).step .mixer .pop).step .mixer .pop }

/-- The place where the drain loop files a packet. -/
def filedAt (a : Audio) (pkt : AudioPacket) : Option (Fin maxClients × Fin jitterBufferSize) :=
  let slot := pkt.senderId.toInt32
  if slot < 0 then none
  else if hslot : slot.toInt.toNat < maxClients then
    let jb := a.jitter slot.toInt.toNat
    some (⟨slot.toInt.toNat, hslot⟩, (freeEntry jb).getD (oldestEntry jb))
  else none

/-- The drain loop, which goes round as long as `ring_full` has permits, with
the places that were filled. -/
def drain : Nat → Audio → Option (Audio × List (Fin maxClients × Fin jitterBufferSize))
  | 0, a => some (a, [])
  | n + 1, a =>
      let pkt := a.ring.shm.take.1
      match deliver a.popRing pkt with
      | none => none
      | some a' => (drain n a').map fun out => (out.1, (filedAt a pkt).toList ++ out.2)

/-- What a tick leaves behind: the mixer, the places filled and the packets
sent. -/
structure Tick where
  mixer : Mixer
  filed : List (Fin maxClients × Fin jitterBufferSize)
  sent : List Sent

/-- One round of `mixer_thread_main`. -/
def Mixer.tick (m : Mixer) : Option Tick :=
  match drain m.audio.ring.ringFull m.audio with
  | none => none
  | some (audio, filed) =>
      (mixRooms (maxRooms + 1) m.server.roomHead { m with audio := audio }).map fun out =>
        ⟨out.1, filed, out.2⟩

/-- `handle_udp_packet` with a whole call of `ring_buffer_push`. -/
def Mixer.datagram (m : Mixer) (bytes : Bytes) (stale : AudioPacket) : Mixer :=
  if bytes = [] then m
  else if 0 < (recvPacket stale bytes).payloadSize ∧ m.audio.ring.ringEmpty ≠ 0 then
    let ring := ((m.audio.ring.step .epoll (.push (recvPacket stale bytes))).step .epoll .pop).step .epoll .pop
    { m with audio := { m.audio with ring := ring } }
  else m

/-! ### What the parts of a tick do -/

theorem popIndex_valid {jb : JitterBuffer} {i : Fin jitterBufferSize} (h : popIndex jb = some i) :
    (jb.buffer i).valid = true := by
  unfold popIndex at h
  split at h
  · cases h
  · split at h
    · cases h
    · obtain ⟨b, hb, rfl⟩ := Option.map_eq_some_iff.mp h
      exact bestEntry_valid hb

/-- The entries in use of all jitter buffers. -/
def Audio.holds (a : Audio) (slot : Nat) (idx : Fin jitterBufferSize) : Prop :=
  ((a.jitter slot).buffer idx).valid = true

variable {a a' : Audio} {s : Server} {slot : Fin maxClients} {i : Nat} {idx : Fin jitterBufferSize}

theorem pop_valid {jb : JitterBuffer} (h : ((jitterBufferPop jb).2.buffer idx).valid = true) :
    (jb.buffer idx).valid = true := by
  unfold jitterBufferPop at h
  split at h
  · exact h
  · split at h
    · exact h
    · split at h
      · exact h
      · rename_i best _ _
        by_cases hidx : idx = best
        · subst hidx
          simp only [Function.update_self] at h
          cases h
        · simp only [Function.update_of_ne hidx] at h
          exact h

/-- Taking an entry out fills none. -/
theorem popSlot_holds (h : (a.popSlot slot).holds i idx) : a.holds i idx := by
  by_cases hi : i = slot
  · subst hi
    simp only [Audio.popSlot, Audio.holds, Function.update_self] at h
    exact pop_valid h
  · simp only [Audio.popSlot, Audio.holds, Function.update_of_ne hi] at h
    exact h

theorem speakerOf_holds {sp : Speaker} (h : sp ∈ a.speakerOf slot) :
    sp.slot = slot ∧ a.holds sp.slot sp.idx := by
  obtain ⟨i, hi, rfl⟩ := Option.map_eq_some_iff.mp (Option.mem_toList.mp h)
  exact ⟨rfl, popIndex_valid hi⟩

/-- A speaker comes from an entry in use, in the slot of a participant that is
not muted. -/
def Speaks (s : Server) (ps : List (Option Ptr)) (a : Audio) (sp : Speaker) : Prop :=
  ∃ c cl, some c ∈ ps ∧ s.clientMem c = some cl ∧ cl.isMute = false ∧ cl.slot = sp.slot ∧
    a.holds sp.slot sp.idx

/-- **The loop over the participants** fills no entry, and adds speakers. -/
theorem collect_spec {roomId : Nat} {ps : List (Option Ptr)} {out out' : Collected}
    (h : collect s roomId ps out = some out') :
    (∀ i idx, out'.audio.holds i idx → out.audio.holds i idx) ∧
      ∀ sp ∈ out'.speakers, sp ∈ out.speakers ∨ Speaks s ps out.audio sp := by
  induction ps generalizing out with
  | nil =>
      cases h
      exact ⟨fun _ _ hi => hi, fun sp hsp => Or.inl hsp⟩
  | cons p rest ih =>
      -- a participant of the rest is one of all
      have hrest : ∀ {b sp}, Speaks s rest b sp → Speaks s (p :: rest) b sp := by
        rintro b sp ⟨c, cl, hc, hcl⟩
        exact ⟨c, cl, List.mem_cons_of_mem p hc, hcl⟩
      have hskip : collect s roomId rest out = some out' →
          (∀ i idx, out'.audio.holds i idx → out.audio.holds i idx) ∧
            ∀ sp ∈ out'.speakers, sp ∈ out.speakers ∨ Speaks s (p :: rest) out.audio sp := by
        intro hout
        obtain ⟨hholds, hspeakers⟩ := ih hout
        exact ⟨hholds, fun sp hsp => (hspeakers sp hsp).imp_right hrest⟩
      cases p with
      | none => exact hskip h
      | some c =>
          simp only [collect] at h
          split at h
          · cases h
          · rename_i speaker hspeaker
            split at h
            · exact hskip h
            · rename_i hmute
              split at h
              · cases h
                exact ⟨fun _ _ hi => hi, fun sp hsp => Or.inl hsp⟩
              · split at h
                · split at h
                  · exact hskip h
                  · obtain ⟨hholds, hspeakers⟩ := ih h
                    refine ⟨fun i idx hi => popSlot_holds (hholds i idx hi), ?_⟩
                    intro sp hsp
                    rcases hspeakers sp hsp with hold | hnew
                    · rcases List.mem_append.mp hold with hold | hnew
                      · exact Or.inl hold
                      · obtain ⟨hslot, hvalid⟩ := speakerOf_holds hnew
                        have hunmuted : speaker.isMute = false := by
                          cases hm : speaker.isMute with
                          | false => rfl
                          | true => exact absurd (Or.inl hm) hmute
                        exact Or.inr ⟨c, speaker, List.mem_cons_self, hspeaker, hunmuted, hslot.symm, hvalid⟩
                    · obtain ⟨d, dl, hd, hdl, hdmute, hdslot, hvalid⟩ := hnew
                      exact Or.inr ⟨d, dl, List.mem_cons_of_mem _ hd, hdl, hdmute, hdslot,
                        popSlot_holds hvalid⟩
                · cases h

/-- Every packet of a room is made of speakers that were collected. -/
theorem sendLoop_spec {p : Ptr} {speakers : List Speaker} {ps : List (Option Ptr)} {sent : List Sent}
    (h : sendLoop s p speakers ps = some sent) :
    ∀ x ∈ sent, x.room = p ∧ ∀ sp ∈ x.speakers, sp ∈ speakers := by
  induction ps generalizing sent with
  | nil =>
      cases h
      exact fun x hx => absurd hx List.not_mem_nil
  | cons q rest ih =>
      cases q with
      | none => exact ih h
      | some c =>
          simp only [sendLoop] at h
          split at h
          · cases h
          · rename_i listener _
            split at h
            · exact ih h
            · split at h
              · cases h
              · rename_i first hfirst
                obtain ⟨others, hothers, rfl⟩ := Option.map_eq_some_iff.mp h
                intro x hx
                rcases List.mem_cons.mp hx with rfl | hx
                · obtain ⟨roomId, _, rfl⟩ := Option.map_eq_some_iff.mp hfirst
                  exact ⟨rfl, fun sp hsp => List.mem_of_mem_filter hsp⟩
                · exact ih hothers x hx

/-- An entry that is in use after a packet was filed was filled by it, or was in
use before. -/
theorem push_valid {jb jb' : JitterBuffer} {pkt : AudioPacket} (h : jitterBufferPush jb pkt = some jb')
    (hvalid : (jb'.buffer idx).valid = true) :
    idx = (freeEntry jb).getD (oldestEntry jb) ∨ (jb.buffer idx).valid = true := by
  simp only [jitterBufferPush] at h
  split at h
  · cases h
    by_cases hidx : idx = (freeEntry jb).getD (oldestEntry jb)
    · exact Or.inl hidx
    · simp only [Function.update_of_ne hidx] at hvalid
      exact Or.inr hvalid
  · cases h

theorem deliver_holds {pkt : AudioPacket} (h : deliver a pkt = some a') (hholds : a'.holds slot idx) :
    filedAt a pkt = some (slot, idx) ∨ a.holds slot idx := by
  simp only [deliver] at h
  split at h
  · cases h
    exact Or.inr hholds
  · rename_i hrange
    obtain ⟨hlow, hhigh⟩ := not_or.mp hrange
    obtain ⟨jb, hpush, rfl⟩ := Option.map_eq_some_iff.mp h
    have hlt : pkt.senderId.toInt32.toInt.toNat < maxClients := by
      have hmax : (Int32.ofNat maxClients).toInt = 50 := by decide
      rw [Int32.le_iff_toInt_le, hmax] at hhigh
      simp only [maxClients]
      omega
    by_cases hslot : (slot : Nat) = pkt.senderId.toInt32.toInt.toNat
    · simp only [Audio.holds, hslot, Function.update_self] at hholds
      rcases push_valid hpush hholds with hidx | hvalid
      · refine Or.inl ?_
        have hfin : (⟨pkt.senderId.toInt32.toInt.toNat, hlt⟩ : Fin maxClients) = slot := Fin.ext hslot.symm
        simp only [filedAt, if_neg hlow, dif_pos hlt, hidx, hfin]
      · refine Or.inr ?_
        rw [Audio.holds, hslot]
        exact hvalid
    · simp only [Audio.holds, Function.update_of_ne hslot] at hholds
      exact Or.inr hholds

/-- **The drain loop** fills the entries it says. -/
theorem drain_holds {n : Nat} {filed : List (Fin maxClients × Fin jitterBufferSize)}
    (h : drain n a = some (a', filed)) (hholds : a'.holds slot idx) :
    (slot, idx) ∈ filed ∨ a.holds slot idx := by
  induction n generalizing a filed with
  | zero =>
      cases h
      exact Or.inr hholds
  | succ n ih =>
      simp only [drain] at h
      split at h
      · cases h
      · rename_i a₁ hdeliver
        obtain ⟨⟨a₂, filed₂⟩, hrest, hpair⟩ := Option.map_eq_some_iff.mp h
        obtain ⟨rfl, rfl⟩ := Prod.mk.inj hpair
        rcases ih hrest with hlater | hnow
        · exact Or.inl (List.mem_append_right _ hlater)
        · rcases deliver_holds hdeliver hnow with hfiled | hbefore
          · refine Or.inl (List.mem_append_left _ ?_)
            have hsame : filedAt a a.ring.shm.take.1 = some (slot, idx) := hfiled
            rw [hsame]
            exact List.mem_singleton_self _
          · exact Or.inr hbefore

/-! ### The rooms of a tick -/

/-- The server with other numbers of active speakers. -/
def Server.withSpeakers (s : Server) (k : Ptr → Int) : Server :=
  { s with roomMem := fun q => (s.roomMem q).map fun r => { r with activeSpeakers := k q } }

theorem withSpeakers_withSpeakers (s : Server) (k k' : Ptr → Int) :
    (s.withSpeakers k).withSpeakers k' = s.withSpeakers k' := by
  simp only [Server.withSpeakers, Option.map_map]
  rfl

/-- The numbers as they are. -/
def Server.speakersOf (s : Server) (q : Ptr) : Int := ((s.roomMem q).map Room.activeSpeakers).getD 0

theorem withSpeakers_self (s : Server) : ∃ k, s = s.withSpeakers k := by
  refine ⟨s.speakersOf, ?_⟩
  have hmem : (s.withSpeakers s.speakersOf).roomMem = s.roomMem := by
    funext q
    simp only [Server.withSpeakers, Server.speakersOf]
    cases s.roomMem q with
    | none => rfl
    | some r => rfl
  have hrest : s.withSpeakers s.speakersOf =
      { s with roomMem := (s.withSpeakers s.speakersOf).roomMem } := rfl
  rw [hrest, hmem]

/-- `active_speakers` of one room is set. -/
theorem setRoom_speakers {p : Ptr} {r : Room} (hr : s.roomMem p = some r) (n : Int) :
    ∃ k, s.setRoom p { r with activeSpeakers := n } = s.withSpeakers k := by
  refine ⟨Function.update s.speakersOf p n, ?_⟩
  have hmem : (s.withSpeakers (Function.update s.speakersOf p n)).roomMem =
      Function.update s.roomMem p (some { r with activeSpeakers := n }) := by
    funext q
    simp only [Server.withSpeakers]
    by_cases hq : q = p
    · subst hq
      rw [Function.update_self, Function.update_self, hr, Option.map_some]
    · rw [Function.update_of_ne hq, Function.update_of_ne hq, Server.speakersOf]
      cases s.roomMem q with
      | none => rfl
      | some r' => rfl
  rw [Server.setRoom, ← hmem]
  rfl

theorem withSpeakers_room {k : Ptr → Int} {p : Ptr} {r : Room} (h : (s.withSpeakers k).roomMem p = some r) :
    ∃ r', s.roomMem p = some r' ∧ r = { r' with activeSpeakers := k p } := by
  obtain ⟨r', hr', rfl⟩ := Option.map_eq_some_iff.mp h
  exact ⟨r', hr', rfl⟩

/-- A packet of a tick has speakers from entries in use, who take part in the
room without being muted. -/
def Fair (s : Server) (a : Audio) (x : Sent) : Prop :=
  ∃ r, s.roomMem x.room = some r ∧ ∀ sp ∈ x.speakers, Speaks s r.snapshot a sp

/-- What the mixing of rooms comes to. -/
structure Mixed (m m' : Mixer) (sent : List Sent) : Prop where
  server : ∃ k, m'.server = m.server.withSpeakers k
  holds : ∀ i idx, m'.audio.holds i idx → m.audio.holds i idx
  fair : ∀ x ∈ sent, Fair m.server m.audio x

/-- **`mix_room`.** -/
theorem mixRoom_spec {m m' : Mixer} {p : Ptr} {sent : List Sent} (h : mixRoom m p = some (m', sent)) :
    Mixed m m' sent := by
  unfold mixRoom at h
  split at h
  · cases h
  · rename_i r hr
    split at h
    · cases h
    · rename_i out hout
      obtain ⟨hholds, hspeakers⟩ := collect_spec hout
      obtain ⟨sent', hsend, hpair⟩ := Option.map_eq_some_iff.mp h
      obtain ⟨rfl, rfl⟩ := Prod.mk.inj hpair
      refine ⟨setRoom_speakers hr _, hholds, ?_⟩
      intro x hx
      obtain ⟨hroom, hfrom⟩ := sendLoop_spec hsend x hx
      refine ⟨r, by rw [hroom, hr], ?_⟩
      intro sp hsp
      rcases hspeakers sp (hfrom sp hsp) with hnone | hspeaks
      · cases hnone
      · exact hspeaks

/-- Changed numbers of speakers do not matter. -/
theorem Fair.of_withSpeakers {k : Ptr → Int} {x : Sent} (h : Fair (s.withSpeakers k) a' x)
    (hholds : ∀ i idx, a'.holds i idx → a.holds i idx) : Fair s a x := by
  obtain ⟨r, hr, hspeakers⟩ := h
  obtain ⟨r', hr', rfl⟩ := withSpeakers_room hr
  refine ⟨r', hr', ?_⟩
  intro sp hsp
  obtain ⟨c, cl, hc, hcl, hmute, hslot, hvalid⟩ := hspeakers sp hsp
  exact ⟨c, cl, hc, hcl, hmute, hslot, hholds _ _ hvalid⟩

/-- **All rooms.** -/
theorem mixRooms_spec {fuel : Nat} {head : Option Ptr} {m m' : Mixer} {sent : List Sent}
    (h : mixRooms fuel head m = some (m', sent)) : Mixed m m' sent := by
  induction fuel generalizing head m m' sent with
  | zero => cases h
  | succ fuel ih =>
      cases head with
      | none =>
          cases h
          exact ⟨withSpeakers_self m.server, fun _ _ hi => hi, fun x hx => absurd hx List.not_mem_nil⟩
      | some p =>
          simp only [mixRooms] at h
          split at h
          · cases h
          · split at h
            · split at h
              · cases h
              · rename_i out hroom
                obtain ⟨rest, hrest, hpair⟩ := Option.map_eq_some_iff.mp h
                obtain ⟨rfl, rfl⟩ := Prod.mk.inj hpair
                have hfirst := mixRoom_spec hroom
                have hothers := ih hrest
                obtain ⟨k, hk⟩ := hfirst.server
                obtain ⟨k', hk'⟩ := hothers.server
                refine ⟨⟨k', by rw [hk', hk, withSpeakers_withSpeakers]⟩,
                  fun i idx hi => hfirst.holds i idx (hothers.holds i idx hi), ?_⟩
                intro x hx
                rcases List.mem_append.mp hx with hx | hx
                · exact hfirst.fair x hx
                · have hfair := hothers.fair x hx
                  rw [hk] at hfair
                  exact hfair.of_withSpeakers hfirst.holds
            · exact ih h

/-- **A tick** changes nothing of the server but the numbers of active speakers.
Entries in use after it were in use before it or filled by it, and so were the
entries that are heard. -/
theorem tick_spec {m : Mixer} {t : Tick} (h : m.tick = some t) :
    (∃ k, t.mixer.server = m.server.withSpeakers k) ∧
      (∀ (slot : Fin maxClients) idx, t.mixer.audio.holds slot idx →
        (slot, idx) ∈ t.filed ∨ m.audio.holds slot idx) ∧
      ∀ x ∈ t.sent, ∃ r, m.server.roomMem x.room = some r ∧ ∀ sp ∈ x.speakers, ∃ c cl, some c ∈ r.snapshot ∧
        m.server.clientMem c = some cl ∧ cl.isMute = false ∧ cl.slot = sp.slot ∧
        ((sp.slot, sp.idx) ∈ t.filed ∨ m.audio.holds sp.slot sp.idx) := by
  unfold Mixer.tick at h
  split at h
  · cases h
  · rename_i audio filed hdrain
    obtain ⟨⟨m', sent⟩, hmix, rfl⟩ := Option.map_eq_some_iff.mp h
    have hspec := mixRooms_spec hmix
    refine ⟨hspec.server, fun slot idx hi => drain_holds hdrain (hspec.holds slot idx hi), ?_⟩
    intro x hx
    obtain ⟨r, hr, hspeakers⟩ := hspec.fair x hx
    refine ⟨r, hr, ?_⟩
    intro sp hsp
    obtain ⟨c, cl, hc, hcl, hmute, hslot, hvalid⟩ := hspeakers sp hsp
    exact ⟨c, cl, hc, hcl, hmute, hslot, drain_holds hdrain hvalid⟩

end EchoLink
