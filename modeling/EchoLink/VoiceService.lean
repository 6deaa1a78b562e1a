import EchoLink.ChatInvariants
import EchoLink.JitterOrder
import EchoLink.Mixer
import EchoLink.PlayoutBuffer

/-!
# The voice service

What the audio side of the server is for, next to the chat service: packets
arrive with the slot of their sender, wait in one queue, are filed in the line
of the sender, and are mixed room by room.  A line is a playout buffer; when a
room is mixed, every member who is not muted gives the packet its line plays,
and every member is sent the mix of what the others gave.

There are no threads, semaphores, arrays or counters here.  The service leaves
open when packets are filed and when rooms are mixed, and which of two packets of
the same number is played first.
-/

namespace EchoLink

open CText

/-! ### Frames -/

/-- The samples of a packet that are mixed. -/
def Packet.pcm (p : Packet) : List Int16 :=
  (List.range (min (p.payloadSize.toNat / 2) frameSamples)).map (sampleAt p.payload)

/-- The sum of the frames, divided by their number if there are several. -/
def mixFrames (frames : List (List Int16)) : Fin frameSamples → Int16 :=
  let mixed := frames.foldl addPcm fun _ => 0
  if 1 < frames.length then fun j => Int16.ofInt ((mixed j).toInt.tdiv frames.length) else mixed

/-- A frame with the slot it comes from. -/
abbrev Frame := Fin maxClients × List Int16

/-- What a listener hears of the frames of a room. -/
def framesFor (listener : Fin maxClients) (frames : List Frame) : List Frame := frames.filter fun x => x.1 ≠ listener

/-! ### The state -/

/-- The state of the service. -/
structure Voice where
  chat : Chat
  pending : List (UInt32 × Packet)
  lines : Fin maxClients → Playout.Line Packet

def Voice.start (accounts : Accounts) : Voice where
  chat := Chat.start accounts
  pending := []
  lines := fun _ => ⟨0, false⟩

/-- The slot a packet names. -/
def slotNamed (sender : UInt32) : Option (Fin maxClients) :=
  if h : sender.toNat < maxClients then some ⟨sender.toNat, h⟩ else none

/-- The number of packets a line waits for before it plays. -/
def playoutCushion : Nat := 5

inductive VoiceEvent where
  | chat (e : ChatEvent)
  /-- a packet arrives -/
  | packet (sender : UInt32) (p : Packet)
  /-- the first packet that waits is filed -/
  | file
  /-- the room at this place of the list is mixed -/
  | mix (k : Nat)

/-- What the service sends: responses, and audio with the frames it is mixed of. -/
inductive VoiceOut where
  | response (slot : Fin maxClients) (r : Response)
  | audio (slot : Fin maxClients) (roomId : Nat) (frames : List Frame) (samples : Fin frameSamples → Int16)

/-- The session in the slot is not muted. -/
def Chat.Unmuted (x : Chat) (i : Fin maxClients) : Prop := ∃ z, x.sessions i = some z ∧ z.muted = false

/-- What the members of a room give: those who are not muted what their lines
play, and nobody else anything. -/
structure Voice.Draws (b : Fin maxClients → UInt32) (v : Voice) (R : ChatRoom)
    (drawn : Fin maxClients → Option Packet) (lines : Fin maxClients → Playout.Line Packet) : Prop where
  speaks : ∀ i ∈ R.members, v.chat.Unmuted i →
    (v.lines i).Pop (Packet.place (b i)) playoutCushion (drawn i) (lines i)
  silent : ∀ i, ¬ (i ∈ R.members ∧ v.chat.Unmuted i) → drawn i = none ∧ lines i = v.lines i

/-- The frames of a room, in the order of its members. -/
def ChatRoom.frames (R : ChatRoom) (drawn : Fin maxClients → Option Packet) : List Frame :=
  R.members.filterMap fun i => (drawn i).map fun p => (i, p.pcm)

/-- What the members of a room are sent. -/
def ChatRoom.mixed (R : ChatRoom) (drawn : Fin maxClients → Option Packet) : List VoiceOut :=
  R.members.map fun i =>
    .audio i R.roomId (framesFor i (R.frames drawn)) (mixFrames ((framesFor i (R.frames drawn)).map Prod.snd))

/-- The steps of the service.  The numbers of a line are compared from a base. -/
inductive Voice.Step (b : Fin maxClients → UInt32) (reserved : Set Nat) (v : Voice) :
    VoiceEvent → List VoiceOut → Voice → Prop
  | chat (e : ChatEvent) : Step b reserved v (.chat e)
      ((v.chat.step reserved e).1.map fun x => .response x.1 x.2) { v with chat := (v.chat.step reserved e).2 }
  | packet (sender : UInt32) (p : Packet) (room : v.pending.length < ringBufferCapacity) :
      Step b reserved v (.packet sender p) [] { v with pending := v.pending ++ [(sender, p)] }
  | dropped (sender : UInt32) (p : Packet) (full : v.pending.length = ringBufferCapacity) :
      Step b reserved v (.packet sender p) [] v
  | file {sender : UInt32} {p : Packet} {rest : List (UInt32 × Packet)} {i : Fin maxClients}
      {line : Playout.Line Packet} (first : v.pending = (sender, p) :: rest) (named : slotNamed sender = some i)
      (push : (v.lines i).Push (Packet.place (b i)) jitterBufferSize p line) :
      Step b reserved v .file [] { v with pending := rest, lines := Function.update v.lines i line }
  | discard {sender : UInt32} {p : Packet} {rest : List (UInt32 × Packet)} (first : v.pending = (sender, p) :: rest)
      (unknown : slotNamed sender = none) : Step b reserved v .file [] { v with pending := rest }
  | mix {k : Nat} {R : ChatRoom} {drawn : Fin maxClients → Option Packet}
      {lines : Fin maxClients → Playout.Line Packet} (room : v.chat.rooms[k]? = some R)
      (draws : v.Draws b R drawn lines) : Step b reserved v (.mix k) (R.mixed drawn) { v with lines := lines }
  | noRoom {k : Nat} (none : v.chat.rooms[k]? = none) : Step b reserved v (.mix k) [] v

variable {b : Fin maxClients → UInt32} {reserved : Set Nat} {v v' : Voice} {e : VoiceEvent} {es : List VoiceEvent}
  {out outs : List VoiceOut} {R : ChatRoom} {drawn : Fin maxClients → Option Packet} {i j : Fin maxClients}

/-- The chat service goes on as without the audio. -/
theorem Voice.Step.chat_ok (hfin : reserved.Finite) (hv : v.chat.Ok reserved) (h : v.Step b reserved e out v') :
    v'.chat.Ok reserved := by
  cases h with
  | chat e => exact Chat.step_ok hfin hv e
  | packet sender p room => exact hv
  | dropped sender p full => exact hv
  | file first named push => exact hv
  | discard first unknown => exact hv
  | mix room draws => exact hv
  | noRoom none => exact hv

/-! ### What is heard -/

/-- The packets that name a slot. -/
def packetsOf (i : Fin maxClients) (es : List VoiceEvent) : List Packet :=
  es.filterMap fun
    | .packet sender p => if slotNamed sender = some i then some p else none
    | _ => none

/-- The packets of a slot that wait to be filed. -/
def Voice.pendingOf (v : Voice) (i : Fin maxClients) : List Packet :=
  v.pending.filterMap fun x => if slotNamed x.1 = some i then some x.2 else none

/-- The frames of one slot among those a listener hears. -/
def heardIn (i j : Fin maxClients) : VoiceOut → List (List Int16)
  | .response _ _ => []
  | .audio slot _ frames _ => if slot = j then (frames.filter fun x => x.1 = i).map Prod.snd else []

/-- What the listener `j` hears of the speaker `i`. -/
def heardFrom (i j : Fin maxClients) (outs : List VoiceOut) : List (List Int16) := outs.flatMap (heardIn i j)

theorem packetsOf_append (i : Fin maxClients) (es fs : List VoiceEvent) :
    packetsOf i (es ++ fs) = packetsOf i es ++ packetsOf i fs := List.filterMap_append

theorem heardFrom_append (i j : Fin maxClients) (outs outs' : List VoiceOut) :
    heardFrom i j (outs ++ outs') = heardFrom i j outs ++ heardFrom i j outs' := List.flatMap_append

theorem heardFrom_responses (i j : Fin maxClients) (rs : List (Fin maxClients × Response)) :
    heardFrom i j (rs.map fun x => .response x.1 x.2) = [] := by
  rw [heardFrom, List.flatMap_map]
  exact List.flatMap_eq_nil_iff.mpr fun x _ => rfl

/-- A list without repeats has one place for an item that is in it. -/
theorem filterMap_at {α : Type} {ms : List (Fin maxClients)} (h : ms.Nodup) (f : Fin maxClients → Option α) :
    (ms.filterMap fun m => if m = i then f m else none) = if i ∈ ms then (f i).toList else [] := by
  induction ms with
  | nil => rfl
  | cons m ms ih =>
      obtain ⟨hnew, hrest⟩ := List.nodup_cons.mp h
      by_cases hm : m = i
      · subst hm
        have hnone : (ms.filterMap fun x => if x = m then f x else none) = [] := by
          rw [ih hrest, if_neg hnew]
        rw [List.filterMap_cons, if_pos rfl, if_pos List.mem_cons_self]
        cases f m with
        | none => exact hnone
        | some x => rw [hnone]; rfl
      · have hmem : i ∈ m :: ms ↔ i ∈ ms := by simp [Ne.symm hm]
        rw [List.filterMap_cons, if_neg hm, ih hrest]
        simp only [hmem]

/-- The frames of one speaker in a room. -/
theorem frames_of (h : R.members.Nodup) :
    ((R.frames drawn).filter fun x => x.1 = i).map Prod.snd =
      if i ∈ R.members then ((drawn i).map Packet.pcm).toList else [] := by
  rw [← filterMap_at h fun i => (drawn i).map Packet.pcm, ChatRoom.frames, List.filter_filterMap, List.map_filterMap]
  congr 1
  funext m
  cases drawn m with
  | none => simp
  | some p =>
      by_cases hm : m = i
      · simp [hm]
      · simp [hm]

/-- **What a listener hears of a speaker** when a room is mixed. -/
theorem heardFrom_mixed (h : R.members.Nodup) (i j : Fin maxClients) :
    heardFrom i j (R.mixed drawn) =
      if j ∈ R.members ∧ i ∈ R.members ∧ i ≠ j then ((drawn i).map Packet.pcm).toList else [] := by
  -- only the packet for the listener counts
  have hout : heardFrom i j (R.mixed drawn) = R.members.flatMap fun m =>
      if m = j then ((framesFor j (R.frames drawn)).filter fun x => x.1 = i).map Prod.snd else [] := by
    rw [heardFrom, ChatRoom.mixed, List.flatMap_map]
    apply List.flatMap_congr
    intro m _
    by_cases hm : m = j
    · simp [heardIn, hm]
    · simp [heardIn, hm]
  have hone : ∀ (ms : List (Fin maxClients)) (x : List (List Int16)), ms.Nodup →
      (ms.flatMap fun m => if m = j then x else []) = if j ∈ ms then x else [] := by
    intro ms x hms
    induction ms with
    | nil => rfl
    | cons m ms ih =>
        obtain ⟨hnew, hrest⟩ := List.nodup_cons.mp hms
        rw [List.flatMap_cons, ih hrest]
        by_cases hm : m = j
        · subst hm
          simp [hnew]
        · simp [hm, Ne.symm hm]
  have hframes : ((framesFor j (R.frames drawn)).filter fun x => x.1 = i).map Prod.snd =
      if i ∈ R.members ∧ i ≠ j then ((drawn i).map Packet.pcm).toList else [] := by
    rw [framesFor, List.filter_filter]
    by_cases hij : i = j
    · subst hij
      simp
    · have hsame : ∀ x : Frame, (decide (x.1 = i) && decide (x.1 ≠ j)) = decide (x.1 = i) := by
        intro x
        by_cases hx : x.1 = i
        · simp [hx, hij]
        · simp [hx]
      simp only [hsame, frames_of h, hij, ne_eq, not_false_eq_true, and_true]
  rw [hout, hone R.members _ h, hframes]
  by_cases hj : j ∈ R.members
  · simp [hj]
  · simp [hj]

end EchoLink
