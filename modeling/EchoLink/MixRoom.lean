import EchoLink.JitterBuffers
import EchoLink.MixerRuns

/-!
# What `mix_room` does to a room

For a room whose participants are live clients in different slots, the two loops
of `mix_room` in closed form.  The first loop asks the jitter buffer of every
participant that is active and not muted for an entry; as their slots differ, no
one finds a buffer that another one has changed (`voices`).  The second loop
sends every active participant the mix of the voices of the others.

Every room of a server in a good state is of this kind (`ServerOk.mixable`).  The
only thing that can go wrong is the index of the semaphore: `SemInRange` says
when it is used and exists.
-/

namespace EchoLink

open CText RecordFile LinkedList PackedArray

/-! ### The participants -/

/-- The clients among the participants. -/
def Server.present (s : Server) (ps : List (Option Ptr)) : List (Ptr × Client) :=
  ps.filterMap fun p => p.bind fun c => (s.clientMem c).map fun cl => (c, cl)

/-- A client that `mix_room` does not pass over as a speaker. -/
def Client.speaks (cl : Client) : Bool := !cl.isMute && cl.isActive

/-- The participants of a room are live clients in different slots. -/
structure Mixable (s : Server) (p : Ptr) (r : Room) : Prop where
  room : s.roomMem p = some r
  count : r.participantCount ≤ maxClients
  live : ∀ c, some c ∈ r.snapshot → ∃ cl, s.clientMem c = some cl ∧
    ∀ q, cl.currentRoom = some q → ∃ r', s.roomMem q = some r'
  slots : ((s.present r.snapshot).map fun x => x.2.slot).Nodup

/-- The entries that the participants who speak have ready. -/
def voices (s : Server) (a : Audio) (ps : List (Option Ptr)) : List Speaker :=
  ((s.present ps).filter fun x => x.2.speaks).flatMap fun x => a.speakerOf x.2.slot

variable {s : Server} {a : Audio} {ps : List (Option Ptr)} {c : Ptr} {cl : Client} {roomId : Nat} {out : Collected}

theorem present_some (hc : s.clientMem c = some cl) (ps : List (Option Ptr)) :
    s.present (some c :: ps) = (c, cl) :: s.present ps := by
  simp [Server.present, hc]

theorem voices_speaks (hc : s.clientMem c = some cl) (hspeaks : cl.speaks = true) (a : Audio)
    (ps : List (Option Ptr)) : voices s a (some c :: ps) = a.speakerOf cl.slot ++ voices s a ps := by
  simp [voices, present_some hc, hspeaks]

theorem voices_silent (hc : s.clientMem c = some cl) (hsilent : cl.speaks = false) (a : Audio)
    (ps : List (Option Ptr)) : voices s a (some c :: ps) = voices s a ps := by
  simp [voices, present_some hc, hsilent]

theorem speaks_iff (cl : Client) : cl.speaks = true ↔ ¬ (cl.isMute = true ∨ cl.isActive = false) := by
  simp [Client.speaks]

/-- The voices depend on the buffers of those who speak. -/
theorem voices_congr {a' : Audio}
    (h : ∀ x ∈ s.present ps, x.2.speaks = true → a'.jitter x.2.slot = a.jitter x.2.slot) :
    voices s a' ps = voices s a ps := by
  refine List.flatMap_congr ?_
  intro x hx
  obtain ⟨hmem, hspeaks⟩ := List.mem_filter.mp hx
  simp only [Audio.speakerOf, h x hmem hspeaks]

theorem speakerOf_slot {sp : Speaker} {slot : Fin maxClients} (h : sp ∈ a.speakerOf slot) : sp.slot = slot :=
  (speakerOf_holds h).1

/-! ### The first loop -/

/-- No semaphore, no voice. -/
theorem collect_closed (hlive : ∀ c, some c ∈ ps → ∃ cl, s.clientMem c = some cl) (hid : roomId < maxRooms)
    (hsem : out.sems ⟨roomId, hid⟩ = 0) : collect s roomId ps out = some out := by
  induction ps with
  | nil => rfl
  | cons q rest ih =>
      have hrest := ih fun c hc => hlive c (List.mem_cons_of_mem q hc)
      cases q with
      | none => exact hrest
      | some c =>
          obtain ⟨cl, hcl⟩ := hlive c List.mem_cons_self
          simp only [collect, hcl, dif_pos hid, if_pos hsem, hrest, ite_self]

/-- Nobody speaks. -/
theorem collect_silent (hlive : ∀ c, some c ∈ ps → ∃ cl, s.clientMem c = some cl)
    (hsilent : ∀ x ∈ s.present ps, x.2.speaks = false) : collect s roomId ps out = some out := by
  induction ps with
  | nil => rfl
  | cons q rest ih =>
      cases q with
      | none => exact ih (fun c hc => hlive c (List.mem_cons_of_mem _ hc)) hsilent
      | some c =>
          obtain ⟨cl, hcl⟩ := hlive c List.mem_cons_self
          rw [present_some hcl] at hsilent
          have hthis : cl.isMute = true ∨ cl.isActive = false := by
            by_contra hspeaks
            have := hsilent (c, cl) List.mem_cons_self
            rw [(speaks_iff cl).mpr hspeaks] at this
            cases this
          simp only [collect, hcl, if_pos hthis]
          exact ih (fun c hc => hlive c (List.mem_cons_of_mem _ hc))
            fun x hx => hsilent x (List.mem_cons_of_mem _ hx)

/-- A semaphore outside the array has no outcome. -/
theorem collect_outside (hid : ¬ roomId < maxRooms) (hroom : out.speakers.length < maxClients)
    (hspeaks : ∃ x ∈ s.present ps, x.2.speaks = true) : collect s roomId ps out = none := by
  induction ps with
  | nil =>
      obtain ⟨x, hx, _⟩ := hspeaks
      cases hx
  | cons q rest ih =>
      cases q with
      | none => exact ih hspeaks
      | some c =>
          cases hcl : s.clientMem c with
          | none => simp only [collect, hcl]
          | some cl =>
              simp only [collect, hcl]
              split
              · rename_i hpassed
                apply ih
                obtain ⟨x, hx, hxs⟩ := hspeaks
                rw [present_some hcl] at hx
                rcases List.mem_cons.mp hx with rfl | hx
                · exact absurd hpassed ((speaks_iff _).mp hxs)
                · exact ⟨x, hx, hxs⟩
              · rw [if_neg (by omega)]

/-- The speakers collected so far are in different slots, and in none of those
that come. -/
structure Ahead (s : Server) (ps : List (Option Ptr)) (speakers : List Speaker) : Prop where
  distinct : (speakers.map Speaker.slot).Nodup
  ahead : ∀ sp ∈ speakers, ∀ x ∈ s.present ps, sp.slot ≠ x.2.slot

section

variable {rest : List (Option Ptr)} {speakers : List Speaker}

/-- There is room for another one. -/
theorem Ahead.length_lt (h : Ahead s (some c :: rest) speakers) (hc : s.clientMem c = some cl) :
    speakers.length < maxClients := by
  have hfresh : (cl.slot :: speakers.map Speaker.slot).Nodup := by
    refine List.nodup_cons.mpr ⟨?_, h.distinct⟩
    intro hmem
    obtain ⟨sp, hsp, heq⟩ := List.mem_map.mp hmem
    exact h.ahead sp hsp (c, cl) (by rw [present_some hc]; exact List.mem_cons_self) heq
  have hcard := hfresh.length_le_card
  rw [List.length_cons, List.length_map, Fintype.card_fin] at hcard
  exact hcard

theorem Ahead.skip (h : Ahead s (some c :: rest) speakers) (hc : s.clientMem c = some cl) :
    Ahead s rest speakers where
  distinct := h.distinct
  ahead := by
    intro sp hsp x hx
    exact h.ahead sp hsp x (by rw [present_some hc]; exact List.mem_cons_of_mem _ hx)

/-- The voice of the next participant is added. -/
theorem Ahead.next (h : Ahead s (some c :: rest) speakers) (hc : s.clientMem c = some cl)
    (hother : ∀ x ∈ s.present rest, x.2.slot ≠ cl.slot) (a : Audio) :
    Ahead s rest (speakers ++ a.speakerOf cl.slot) where
  distinct := by
    rw [List.map_append, List.nodup_append]
    refine ⟨h.distinct, ?_, ?_⟩
    · unfold Audio.speakerOf
      cases popIndex (a.jitter cl.slot) with
      | none => exact List.nodup_nil
      | some i => exact List.nodup_singleton _
    · intro i hi j hj heq
      obtain ⟨sp, hsp, rfl⟩ := List.mem_map.mp hi
      obtain ⟨sp', hsp', rfl⟩ := List.mem_map.mp hj
      rw [speakerOf_slot hsp'] at heq
      exact h.ahead sp hsp (c, cl) (by rw [present_some hc]; exact List.mem_cons_self) heq
  ahead := by
    intro sp hsp x hx
    rcases List.mem_append.mp hsp with hsp | hsp
    · exact (h.skip hc).ahead sp hsp x hx
    · rw [speakerOf_slot hsp]
      exact (hother x hx).symm

end

theorem popSlot_jitter {slot slot' : Fin maxClients} (h : slot' ≠ slot) :
    (a.popSlot slot).jitter slot' = a.jitter slot' := by
  have hval : (slot' : Nat) ≠ slot := fun heq => h (Fin.ext heq)
  simp only [Audio.popSlot, Function.update_of_ne hval]

/-- As many entries are taken as speakers are found. -/
theorem popSlot_played (a : Audio) (slot : Fin maxClients) :
    (a.popSlot slot).played.length = a.played.length + (a.speakerOf slot).length := by
  simp [Audio.popSlot, Audio.speakerOf, jitterBufferPop_fst, Option.length_toList]

/-- **The loop over the participants**, with a semaphore that lets everybody
through. -/
theorem collect_open (hlive : ∀ c, some c ∈ ps → ∃ cl, s.clientMem c = some cl)
    (hslots : ((s.present ps).map fun x => x.2.slot).Nodup) (hid : roomId < maxRooms)
    (hsem : out.sems ⟨roomId, hid⟩ ≠ 0) (hahead : Ahead s ps out.speakers) :
    ∃ out', collect s roomId ps out = some out' ∧ out'.sems = out.sems ∧
      out'.speakers = out.speakers ++ voices s out.audio ps ∧
      out'.audio.played.length = out.audio.played.length + (voices s out.audio ps).length := by
  induction ps generalizing out with
  | nil => exact ⟨out, rfl, rfl, (List.append_nil _).symm, rfl⟩
  | cons q rest ih =>
      have hlive' : ∀ c, some c ∈ rest → ∃ cl, s.clientMem c = some cl :=
        fun c hc => hlive c (List.mem_cons_of_mem q hc)
      cases q with
      | none => exact ih hlive' hslots hsem ⟨hahead.distinct, hahead.ahead⟩
      | some c =>
          obtain ⟨cl, hcl⟩ := hlive c List.mem_cons_self
          rw [present_some hcl, List.map_cons, List.nodup_cons] at hslots
          obtain ⟨hnew, hslots⟩ := hslots
          have hother : ∀ x ∈ s.present rest, x.2.slot ≠ cl.slot := by
            intro x hx heq
            exact hnew (List.mem_map.mpr ⟨x, hx, heq⟩)
          by_cases hspeaks : cl.speaks = true
          · have hthis := (speaks_iff cl).mp hspeaks
            have hroom : ¬ maxClients ≤ out.speakers.length := Nat.not_le.mpr (hahead.length_lt hcl)
            -- the semaphore is released again, and the others' buffers are as they were
            have hsems : ∀ n, Function.update (Function.update out.sems ⟨roomId, hid⟩ n) ⟨roomId, hid⟩
                (out.sems ⟨roomId, hid⟩) = out.sems := by
              intro n
              rw [Function.update_idem, Function.update_eq_self]
            have hback : out.sems ⟨roomId, hid⟩ - 1 + 1 = out.sems ⟨roomId, hid⟩ := by omega
            have hvoices : voices s (out.audio.popSlot cl.slot) rest = voices s out.audio rest := by
              apply voices_congr
              intro x hx _
              exact popSlot_jitter (hother x hx)
            simp only [collect, hcl, if_neg hthis, if_neg hroom, dif_pos hid, if_neg hsem, Function.update_self, hback,
              hsems]
            obtain ⟨out', hout', hsems', hspeakers, hplayed⟩ :=
              @ih ⟨out.sems, out.audio.popSlot cl.slot, out.speakers ++ out.audio.speakerOf cl.slot⟩
                hlive' hslots hsem (hahead.next hcl hother out.audio)
            refine ⟨out', hout', hsems', ?_, ?_⟩
            · rw [hspeakers, hvoices, voices_speaks hcl hspeaks, List.append_assoc]
            · rw [hplayed, hvoices, popSlot_played, voices_speaks hcl hspeaks, List.length_append, Nat.add_assoc]
          · have hsilent : cl.speaks = false := by simpa using hspeaks
            have hthis : cl.isMute = true ∨ cl.isActive = false := by
              by_contra hnot
              exact hspeaks ((speaks_iff cl).mpr hnot)
            simp only [collect, hcl, if_pos hthis]
            rw [voices_silent hcl hsilent]
            exact ih hlive' hslots hsem (hahead.skip hcl)

/-! ### The whole of `mix_room` -/

/-- The semaphore of the room exists, or nobody asks for it. -/
def SemInRange (s : Server) (r : Room) : Prop :=
  r.roomId < maxRooms ∨ ∀ x ∈ s.present r.snapshot, x.2.speaks = false

/-- The voices that are mixed in a room: none if the semaphore is closed. -/
def Mixer.voicesIn (m : Mixer) (r : Room) : List Speaker :=
  if hid : r.roomId < maxRooms then
    if m.sems ⟨r.roomId, hid⟩ = 0 then [] else voices m.server m.audio r.snapshot
  else []

/-- The `room_id` that a client is sent. -/
def Server.headerId (s : Server) (cl : Client) : Nat :=
  match cl.currentRoom with
  | none => 0
  | some q => ((s.roomMem q).map Room.roomId).getD 0

/-- What a listener is sent. -/
def sentTo (s : Server) (p : Ptr) (speakers : List Speaker) (x : Ptr × Client) : Sent where
  room := p
  listener := x.1
  roomId := s.headerId x.2
  samples := mixSpeakers (heardBy x.2.slot speakers)
  speakers := heardBy x.2.slot speakers

/-- The participants that are sent a packet. -/
def Server.listeners (s : Server) (r : Room) : List (Ptr × Client) :=
  (s.present r.snapshot).filter fun x => x.2.isActive

variable {m : Mixer} {p : Ptr} {r : Room}

/-- **The first loop** for a whole room. -/
theorem collect_room (h : Mixable m.server p r) (hin : SemInRange m.server r) :
    ∃ out, collect m.server r.roomId r.snapshot ⟨m.sems, m.audio, []⟩ = some out ∧ out.sems = m.sems ∧
      out.speakers = m.voicesIn r ∧
      out.audio.played.length = m.audio.played.length + (m.voicesIn r).length := by
  have hlive : ∀ c, some c ∈ r.snapshot → ∃ cl, m.server.clientMem c = some cl := by
    intro c hc
    obtain ⟨cl, hcl, _⟩ := h.live c hc
    exact ⟨cl, hcl⟩
  unfold Mixer.voicesIn
  by_cases hid : r.roomId < maxRooms
  · rw [dif_pos hid]
    by_cases hsem : m.sems ⟨r.roomId, hid⟩ = 0
    · rw [if_pos hsem]
      exact ⟨_, collect_closed hlive hid hsem, rfl, rfl, rfl⟩
    · rw [if_neg hsem]
      exact collect_open hlive h.slots hid hsem ⟨List.nodup_nil, fun sp hsp => absurd hsp List.not_mem_nil⟩
  · rw [dif_neg hid]
    exact ⟨_, collect_silent hlive (hin.resolve_left hid), rfl, rfl, rfl⟩

/-- **The second loop.** -/
theorem sendLoop_eq (hlive : ∀ c, some c ∈ ps → ∃ cl, s.clientMem c = some cl ∧
      ∀ q, cl.currentRoom = some q → ∃ r, s.roomMem q = some r) (speakers : List Speaker) :
    sendLoop s p speakers ps =
      some (((s.present ps).filter fun x => x.2.isActive).map (sentTo s p speakers)) := by
  induction ps with
  | nil => rfl
  | cons q rest ih =>
      have hrest := ih fun c hc => hlive c (List.mem_cons_of_mem q hc)
      cases q with
      | none => exact hrest
      | some c =>
          obtain ⟨cl, hcl, hroom⟩ := hlive c List.mem_cons_self
          simp only [sendLoop, hcl]
          rw [present_some hcl]
          by_cases hactive : cl.isActive = false
          · rw [if_pos hactive, List.filter_cons_of_neg (by simp [hactive]), hrest]
          · have hheader : sendAudioToClient s p c cl (heardBy cl.slot speakers) =
                some (sentTo s p speakers (c, cl)) := by
              unfold sendAudioToClient sentTo Server.headerId
              cases hcur : cl.currentRoom with
              | none => rfl
              | some q =>
                  obtain ⟨r, hr⟩ := hroom q hcur
                  simp only [hr]
                  rfl
            rw [if_neg hactive, List.filter_cons_of_pos (by simpa using hactive), hheader, hrest]
            rfl

/-- `active_speakers` of the room is set. -/
def Mixer.counted (m : Mixer) (p : Ptr) (r : Room) : Server :=
  m.server.setRoom p { r with activeSpeakers := (m.voicesIn r).length }

/-- **`mix_room`.** -/
theorem mixRoom_eq (h : Mixable m.server p r) (hin : SemInRange m.server r) :
    ∃ audio, mixRoom m p =
        some (⟨m.counted p r, audio, m.sems⟩,
          (m.server.listeners r).map (sentTo (m.counted p r) p (m.voicesIn r))) ∧
      audio.played.length = m.audio.played.length + (m.voicesIn r).length := by
  obtain ⟨out, hout, hsems, hspeakers, hplayed⟩ := collect_room h hin
  refine ⟨out.audio, ?_, hplayed⟩
  have htake : r.snapshot.take maxClients = r.snapshot := by
    apply List.take_of_length_le
    simpa [Room.snapshot] using h.count
  have hlive : ∀ c, some c ∈ r.snapshot → ∃ cl, (m.counted p r).clientMem c = some cl ∧
      ∀ q, cl.currentRoom = some q → ∃ r', (m.counted p r).roomMem q = some r' := by
    intro c hc
    obtain ⟨cl, hcl, hroom⟩ := h.live c hc
    refine ⟨cl, hcl, ?_⟩
    intro q hq
    obtain ⟨r', hr'⟩ := hroom q hq
    by_cases hqp : q = p
    · exact ⟨_, by rw [hqp]; exact Function.update_self ..⟩
    · exact ⟨r', by rw [← hr']; exact Function.update_of_ne hqp ..⟩
  have hsend := sendLoop_eq (p := p) hlive (m.voicesIn r)
  unfold mixRoom
  simp only [h.room, hout, hspeakers, htake, hsems]
  exact congrArg _ hsend

/-- With a semaphore outside the array `mix_room` has no outcome. -/
theorem mixRoom_outside (hr : m.server.roomMem p = some r) (hout : ¬ SemInRange m.server r) : mixRoom m p = none := by
  rw [SemInRange, not_or] at hout
  obtain ⟨hid, hspeaks⟩ := hout
  have hsome : ∃ x ∈ m.server.present r.snapshot, x.2.speaks = true := by
    simpa using hspeaks
  have hempty : ([] : List Speaker).length < maxClients := by decide
  have hnone : collect m.server r.roomId r.snapshot ⟨m.sems, m.audio, []⟩ = none :=
    collect_outside hid hempty hsome
  unfold mixRoom
  simp only [hr, hnone]

/-! ### Rooms of a server in a good state -/

theorem mem_present {x : Ptr × Client} (h : x ∈ s.present ps) : some x.1 ∈ ps ∧ s.clientMem x.1 = some x.2 := by
  obtain ⟨q, hq, hx⟩ := List.mem_filterMap.mp h
  obtain ⟨c, rfl, hc⟩ := Option.bind_eq_some_iff.mp hx
  obtain ⟨cl, hcl, rfl⟩ := Option.map_eq_some_iff.mp hc
  exact ⟨hq, hcl⟩

theorem present_map_fst (hlive : ∀ c, some c ∈ ps → ∃ cl, s.clientMem c = some cl) :
    (s.present ps).map Prod.fst = ps.filterMap id := by
  induction ps with
  | nil => rfl
  | cons q rest ih =>
      have hrest := ih fun c hc => hlive c (List.mem_cons_of_mem q hc)
      cases q with
      | none => exact hrest
      | some c =>
          obtain ⟨cl, hcl⟩ := hlive c List.mem_cons_self
          rw [present_some hcl, List.map_cons, hrest]
          rfl

/-- **The rooms of a server** can be mixed. -/
theorem ServerOk.mixable {l : List Ptr} (h : ServerOk s l) (hr : s.roomMem p = some r) : Mixable s p r := by
  have hheld : ∀ c, some c ∈ r.snapshot → ∃ cl, s.Holds c cl ∧ cl.currentRoom = some p :=
    fun c hc => h.of_member hr (mem_of_snapshot hc)
  have hlive : ∀ c, some c ∈ r.snapshot → ∃ cl, s.clientMem c = some cl := by
    intro c hc
    obtain ⟨cl, hcl, _⟩ := hheld c hc
    exact ⟨cl, hcl.2⟩
  have hmembers : (s.present r.snapshot).map Prod.fst = r.members := by
    rw [present_map_fst hlive, Room.snapshot, List.filterMap_map]
    rfl
  refine ⟨hr, h.participants_le hr, ?_, ?_⟩
  · intro c hc
    obtain ⟨cl, hcl, hroom⟩ := hheld c hc
    refine ⟨cl, hcl.2, ?_⟩
    intro q hq
    rw [hroom, Option.some.injEq] at hq
    exact ⟨r, by rw [← hq]; exact hr⟩
  · -- a slot has one client, and the array lists it once
    have hnodup : ((s.present r.snapshot).map Prod.fst).Nodup := by
      rw [hmembers]
      exact h.views.nodup p _ (ServerOk.membersOf_eq hr)
    refine List.Nodup.map_on ?_ hnodup.of_map
    intro x hx y hy heq
    obtain ⟨hxm, hxc⟩ := mem_present hx
    obtain ⟨hym, hyc⟩ := mem_present hy
    obtain ⟨xl, hxl, _⟩ := hheld x.1 hxm
    obtain ⟨yl, hyl, _⟩ := hheld y.1 hym
    have hxl' : xl = x.2 := Option.some.inj (hxl.2.symm.trans hxc)
    have hyl' : yl = y.2 := Option.some.inj (hyl.2.symm.trans hyc)
    have hsame : some x.1 = some y.1 := by rw [← hxl.1, ← hyl.1, hxl', hyl', heq]
    have hfst := Option.some.inj hsame
    refine Prod.ext hfst ?_
    rw [hfst, hyc] at hxc
    exact (Option.some.inj hxc).symm

/-! ### How many speakers are mixed -/

/-- A jitter buffer that gives an entry. -/
def JitterBuffer.Ready (jb : JitterBuffer) : Prop := jb.Plays ∧ ∃ i, (jb.buffer i).valid = true

instance (jb : JitterBuffer) : Decidable jb.Ready :=
  inferInstanceAs (Decidable ((jb.count ≠ 0 ∧ ¬ (jb.buffering ∧ jb.count < 5)) ∧ ∃ i, (jb.buffer i).valid = true))

/-- The participants that speak and have an entry ready. -/
def Mixer.ready (m : Mixer) (r : Room) : List (Ptr × Client) :=
  (m.server.present r.snapshot).filter fun x => x.2.speaks && decide (m.audio.jitter x.2.slot).Ready

/-- `mix_room` takes entries from few enough speakers, and leaves the semaphores
as they were. -/
def SpeakersLimited (m : Mixer) (p : Ptr) : Prop :=
  ∃ m' sent, mixRoom m p = some (m', sent) ∧ m'.sems = m.sems ∧
    m'.audio.played.length ≤ m.audio.played.length + maxSpeakersPerRoom

theorem popIndex_isSome_iff (jb : JitterBuffer) : (popIndex jb).isSome = true ↔ jb.Ready := by
  have hvalid : jb.validCount ≠ 0 ↔ ∃ i, (jb.buffer i).valid = true := by
    rw [JitterBuffer.validCount, Finset.card_ne_zero, Finset.filter_nonempty_iff]
    simp
  unfold popIndex JitterBuffer.Ready JitterBuffer.Plays
  split
  · simp_all
  · split
    · simp_all
    · rw [Option.isSome_map, Option.isSome_iff_ne_none, Ne, bestEntry_eq_none_iff, ← Ne, hvalid]
      simp_all

theorem speakerOf_length (a : Audio) (slot : Fin maxClients) :
    (a.speakerOf slot).length = if (a.jitter slot).Ready then 1 else 0 := by
  have hready := popIndex_isSome_iff (a.jitter slot)
  rw [Audio.speakerOf]
  cases hpop : popIndex (a.jitter slot) with
  | none =>
      rw [hpop] at hready
      rw [if_neg (by simpa using hready)]
      rfl
  | some i =>
      rw [hpop] at hready
      rw [if_pos (by simpa using hready)]
      rfl

/-- There are as many voices as speakers that are ready. -/
theorem voices_length (s : Server) (a : Audio) (ps : List (Option Ptr)) :
    (voices s a ps).length =
      ((s.present ps).filter fun x => x.2.speaks && decide (a.jitter x.2.slot).Ready).length := by
  rw [voices]
  induction s.present ps with
  | nil => rfl
  | cons x rest ih =>
      by_cases hspeaks : x.2.speaks = true
      · rw [List.filter_cons_of_pos (by exact hspeaks), List.flatMap_cons, List.length_append, ih, speakerOf_length]
        by_cases hready : (a.jitter x.2.slot).Ready
        · rw [if_pos hready, List.filter_cons_of_pos (by simp [hspeaks, hready]), List.length_cons, Nat.add_comm]
        · rw [if_neg hready, List.filter_cons_of_neg (by simp [hready]), Nat.zero_add]
      · rw [List.filter_cons_of_neg (by exact hspeaks), List.filter_cons_of_neg (by simp [hspeaks]), ih]

theorem ready_eq_nil (hsilent : ∀ x ∈ m.server.present r.snapshot, x.2.speaks = false) : m.ready r = [] := by
  apply List.filter_eq_nil_iff.mpr
  intro x hx
  simp [hsilent x hx]

/-- **The limit of speakers holds** exactly when the semaphore exists and is
closed, or few enough are ready. -/
theorem speakers_limited_iff (m : Mixer) (p : Ptr) (r : Room) (h : Mixable m.server p r) :
    SpeakersLimited m p ↔ SemInRange m.server r ∧
      ((∃ hid : r.roomId < maxRooms, m.sems ⟨r.roomId, hid⟩ = 0) ∨
        (m.ready r).length ≤ maxSpeakersPerRoom) := by
  by_cases hin : SemInRange m.server r
  · obtain ⟨audio, hmix, hplayed⟩ := mixRoom_eq h hin
    have hcount : SpeakersLimited m p ↔ (m.voicesIn r).length ≤ maxSpeakersPerRoom := by
      constructor
      · intro ⟨m', sent, hmix', _, hle⟩
        rw [hmix, Option.some.injEq] at hmix'
        obtain ⟨rfl, _⟩ := Prod.mk.inj hmix'
        have hle' : audio.played.length ≤ m.audio.played.length + maxSpeakersPerRoom := hle
        omega
      · intro hle
        refine ⟨_, _, hmix, rfl, ?_⟩
        show audio.played.length ≤ m.audio.played.length + maxSpeakersPerRoom
        omega
    rw [hcount, and_iff_right hin]
    unfold Mixer.voicesIn
    by_cases hid : r.roomId < maxRooms
    · rw [dif_pos hid]
      by_cases hsem : m.sems ⟨r.roomId, hid⟩ = 0
      · rw [if_pos hsem]
        exact iff_of_true (Nat.zero_le _) (Or.inl ⟨hid, hsem⟩)
      · have hopen : ¬ ∃ hid : r.roomId < maxRooms, m.sems ⟨r.roomId, hid⟩ = 0 := fun ⟨_, hzero⟩ => hsem hzero
        rw [if_neg hsem, or_iff_right hopen, voices_length]
        rfl
    · rw [dif_neg hid, ready_eq_nil (hin.resolve_left hid)]
      exact iff_of_true (Nat.zero_le _) (Or.inr (Nat.zero_le _))
  · refine iff_of_false ?_ fun hcond => hin hcond.1
    intro ⟨m', sent, hmix, _⟩
    rw [mixRoom_outside h.room hin] at hmix
    cases hmix

/-! ### A hall of clients -/

/-- A client in the room. -/
def hallClient (slot : Fin maxClients) : Client where
  fd := slot
  slot := slot
  userId := slot
  username := ascii "guest"
  role := .guest
  currentRoom := some 0
  isMute := false
  isActive := true
  refCount := 1

def hallRoom (n roomId : Nat) : Room where
  roomId := roomId
  roomName := ascii "hall"
  password := []
  participants := fun i => if i < n then some i else none
  participantCount := n
  activeSpeakers := 0

/-- A server with one room and `n` clients in it. -/
def hall (n roomId : Nat) : Server :=
  { Server.start emptyDb startTable with
    clients := fun i => if i.val < n then some i.val else none
    clientMem := fun c => if h : c < maxClients then if c < n then some (hallClient ⟨c, h⟩) else none else none
    roomMem := fun q => if q = 0 then some (hallRoom n roomId) else none
    roomHead := some 0
    roomCount := 1 }

theorem hall_mixable {n roomId : Nat} (hn : n ≤ maxClients)
    (hslots : (((hall n roomId).present (hallRoom n roomId).snapshot).map fun x => x.2.slot).Nodup) :
    Mixable (hall n roomId) 0 (hallRoom n roomId) where
  room := rfl
  count := hn
  live := by
    intro c hc
    obtain ⟨i, hi, hic⟩ := List.mem_map.mp hc
    have hlt : i < n := List.mem_range.mp hi
    have hci : c = i := by simpa [hallRoom, hlt] using hic.symm
    subst hci
    have hmax : c < maxClients := Nat.lt_of_lt_of_le hlt hn
    refine ⟨hallClient ⟨c, hmax⟩, by simp [hall, hmax, hlt], ?_⟩
    intro q hq
    obtain rfl := Option.some.inj hq
    exact ⟨_, rfl⟩
  slots := hslots

/-- A jitter buffer with one packet of one sample. -/
def talking (low high : UInt8) : JitterBuffer :=
  (jitterBufferPush emptyJitter
    (fit audioPacketSize [0, 0, 0, 0, 0, 0, 0, 0, 0, 0, 0, 0, 0, 0, 0, 0, 2, 0, low, high])).getD emptyJitter

/-- Everybody in the hall has a sample ready. -/
def talkingHall (n roomId : Nat) : Mixer where
  server := hall n roomId
  audio := { Audio.start with jitter := fun _ => talking 100 0 }
  sems := fun _ => maxSpeakersPerRoom

/-- Two speakers are mixed. -/
theorem two_speakers_limited : SpeakersLimited (talkingHall 2 0) 0 :=
  (speakers_limited_iff (talkingHall 2 0) 0 (hallRoom 2 0) (hall_mixable (by decide) (by decide +kernel))).mpr
    ⟨Or.inl (by decide), Or.inr (by decide +kernel)⟩

/-- All of eleven speakers are mixed. -/
theorem eleven_speakers_mixed : ¬ ∀ m p r, Mixable m.server p r → SpeakersLimited m p := by
  intro hall
  obtain ⟨m', sent, hmix, _, hle⟩ := hall (talkingHall 11 0) 0 (hallRoom 11 0)
    (hall_mixable (by decide) (by decide +kernel))
  have hplayed : (mixRoom (talkingHall 11 0) 0).map (fun out => out.1.audio.played.length) = some 11 := by
    decide +kernel
  rw [hmix, Option.map_some, Option.some.injEq] at hplayed
  rw [hplayed] at hle
  exact absurd hle (by decide)

end EchoLink
