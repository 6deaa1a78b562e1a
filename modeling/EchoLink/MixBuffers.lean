import EchoLink.MixRoom

/-!
# The static buffers of `mix_room`

`mix_room` keeps the samples of the speakers in static arrays, with one row for
each speaker found.  The rows are not cleared: behind the samples of a speaker,
and in the rows that are not used this time, are those of earlier ticks and of
other rooms.  `mixRoomStatic` is `mix_room` with these arrays.

Whatever the arrays held, `mix_room` sends what the model with a list of speakers
sends (`mixRoomStatic_eq`): a row is read up to the number of samples written to
it, and no row is read that was not written.  So every active participant is sent
one packet, with nothing of its own, of those who are muted, or of those outside
the room (`hears_others_iff`).
-/

namespace EchoLink

open CText RecordFile LinkedList PackedArray

/-! ### The model with arrays -/

/-- `speaker_pcm`, `speaker_samples` and `speaker_slot`. -/
structure MixBuffers where
  speakerPcm : Fin maxClients → Fin frameSamples → Int16
  speakerSamples : Fin maxClients → Nat
  speakerSlot : Fin maxClients → Fin maxClients

/-- The row of a speaker is written; the samples behind it stay. -/
def MixBuffers.write (b : MixBuffers) (k : Fin maxClients) (slot : Fin maxClients) (pcm : List Int16) :
    MixBuffers where
  speakerPcm := Function.update b.speakerPcm k fun j => (pcm[j.val]?).getD (b.speakerPcm k j)
  speakerSamples := Function.update b.speakerSamples k pcm.length
  speakerSlot := Function.update b.speakerSlot k slot

/-- The variables of the loop over the participants. -/
structure Filled where
  sems : Fin maxRooms → Nat
  audio : Audio
  buffers : MixBuffers
  speakerCount : Nat

/-- What one speaker adds: a row, if its jitter buffer gives an entry. -/
def Filled.speaker (f : Filled) (slot : Fin maxClients) (k : Fin maxClients) : Filled :=
  match (jitterBufferPop (f.audio.jitter slot)).1 with
  | none => { f with audio := f.audio.popSlot slot }
  | some e =>
      { f with
        audio := f.audio.popSlot slot
        buffers := f.buffers.write k slot e.pcm
        speakerCount := f.speakerCount + 1 }

/-- The loop over the participants. -/
def fill (s : Server) (roomId : Nat) : List (Option Ptr) → Filled → Option Filled
  | [], f => some f
  | none :: rest, f => fill s roomId rest f
  | some c :: rest, f =>
      match s.clientMem c with
      | none => none
      | some speaker =>
          if speaker.isMute = true ∨ speaker.isActive = false then fill s roomId rest f
          else if hk : f.speakerCount < maxClients then
            if hid : roomId < maxRooms then
              if f.sems ⟨roomId, hid⟩ = 0 then fill s roomId rest f
              else
                let taken := Function.update f.sems ⟨roomId, hid⟩ (f.sems ⟨roomId, hid⟩ - 1)
                fill s roomId rest
                  { f.speaker speaker.slot ⟨f.speakerCount, hk⟩ with
                    sems := Function.update taken ⟨roomId, hid⟩ (taken ⟨roomId, hid⟩ + 1) }
            else none
          else some f

/-- One speaker in the mix for a listener: the samples of its row are added. -/
def MixBuffers.mixRow (b : MixBuffers) (slot : Fin maxClients) (mix : (Fin frameSamples → Int16) × Nat)
    (k : Fin maxClients) : (Fin frameSamples → Int16) × Nat :=
  if b.speakerSlot k = slot then mix
  else
    (fun j => if j.val < b.speakerSamples k then clampAdd (mix.1 j) (b.speakerPcm k j) else mix.1 j, mix.2 + 1)

/-- The mix for a listener. -/
def MixBuffers.mix (b : MixBuffers) (count : Nat) (slot : Fin maxClients) : Fin frameSamples → Int16 :=
  let mix := ((List.finRange maxClients).take count).foldl (b.mixRow slot) (fun _ => 0, 0)
  if 1 < mix.2 then fun j => Int16.ofInt ((mix.1 j).toInt.tdiv mix.2) else mix.1

/-- A packet on the wire: the client it goes to, and what is in it. -/
structure WirePacket where
  listener : Ptr
  roomId : Nat
  samples : Fin frameSamples → Int16

def Sent.wire (x : Sent) : WirePacket := ⟨x.listener, x.roomId, x.samples⟩

/-- The loop over the snapshot of the participants. -/
def sendStatic (s : Server) (b : MixBuffers) (count : Nat) : List (Option Ptr) → Option (List WirePacket)
  | [] => some []
  | none :: rest => sendStatic s b count rest
  | some c :: rest =>
      match s.clientMem c with
      | none => none
      | some listener =>
          if listener.isActive = false then sendStatic s b count rest
          else
            let header := match listener.currentRoom with
              | none => some 0
              | some q => (s.roomMem q).map Room.roomId
            match header with
            | none => none
            | some roomId =>
                (sendStatic s b count rest).map fun rest => ⟨c, roomId, b.mix count listener.slot⟩ :: rest

/-- `mix_room` with its static arrays. -/
def mixRoomStatic (m : Mixer) (b : MixBuffers) (p : Ptr) : Option ((Mixer × MixBuffers) × List WirePacket) :=
  match m.server.roomMem p with
  | none => none
  | some r =>
      match fill m.server r.roomId r.snapshot ⟨m.sems, m.audio, b, 0⟩ with
      | none => none
      | some f =>
          let s := m.server.setRoom p { r with activeSpeakers := f.speakerCount }
          (sendStatic s f.buffers f.speakerCount (r.snapshot.take maxClients)).map fun sent =>
            ((⟨s, f.audio, f.sems⟩, f.buffers), sent)

/-! ### Rows -/

/-- What is read of a row. -/
def MixBuffers.row (b : MixBuffers) (k : Fin maxClients) : Fin maxClients × List Int16 :=
  (b.speakerSlot k, ((List.finRange frameSamples).take (b.speakerSamples k)).map (b.speakerPcm k))

/-- The first rows hold the speakers. -/
def MixBuffers.Holds (b : MixBuffers) (speakers : List Speaker) : Prop :=
  speakers.length ≤ maxClients ∧
    ((List.finRange maxClients).take speakers.length).map b.row = speakers.map fun sp => (sp.slot, sp.pcm)

theorem MixBuffers.Holds.start (b : MixBuffers) : b.Holds [] := ⟨Nat.zero_le _, rfl⟩

variable {b : MixBuffers} {speakers : List Speaker} {slot : Fin maxClients}

/-- The row that was written is read as it was written. -/
theorem row_write_self (k : Fin maxClients) {pcm : List Int16} (hlen : pcm.length ≤ frameSamples) :
    (b.write k slot pcm).row k = (slot, pcm) := by
  simp only [MixBuffers.row, MixBuffers.write, Function.update_self, Prod.mk.injEq, true_and]
  apply List.ext_getElem?
  intro j
  by_cases hj : j < pcm.length
  · have hj' : j < frameSamples := by omega
    rw [List.getElem?_map, List.getElem?_take_of_lt hj, List.getElem?_eq_getElem (by simpa using hj'),
      List.getElem_finRange, Option.map_some]
    simp [hj]
  · rw [List.getElem?_map, List.getElem?_take_eq_none (by omega), List.getElem?_eq_none (by omega), Option.map_none]

theorem row_write_of_ne {j k : Fin maxClients} (h : j ≠ k) (pcm : List Int16) :
    (b.write k slot pcm).row j = b.row j := by
  simp only [MixBuffers.row, MixBuffers.write, Function.update_of_ne h]

theorem take_finRange_succ {n k : Nat} (hk : k < n) :
    (List.finRange n).take (k + 1) = (List.finRange n).take k ++ [⟨k, hk⟩] := by
  rw [List.take_add_one, List.getElem?_eq_getElem (by simpa using hk), List.getElem_finRange]
  rfl

theorem mem_take_finRange {n k : Nat} {i : Fin n} (h : i ∈ (List.finRange n).take k) : i.val < k := by
  obtain ⟨j, hj, rfl⟩ := List.mem_take_iff_getElem.mp h
  rw [List.getElem_finRange]
  simp only [Fin.val_cast]
  omega

/-- **A speaker is written** behind the others. -/
theorem MixBuffers.Holds.write (h : b.Holds speakers) (hk : speakers.length < maxClients) (sp : Speaker)
    (hlen : sp.pcm.length ≤ frameSamples) :
    (b.write ⟨speakers.length, hk⟩ sp.slot sp.pcm).Holds (speakers ++ [sp]) := by
  refine ⟨by rw [List.length_append]; exact hk, ?_⟩
  have hbefore : ((List.finRange maxClients).take speakers.length).map
      (b.write ⟨speakers.length, hk⟩ sp.slot sp.pcm).row =
      ((List.finRange maxClients).take speakers.length).map b.row := by
    apply List.map_congr_left
    intro i hi
    apply row_write_of_ne
    intro heq
    have hlt := mem_take_finRange hi
    rw [heq] at hlt
    exact Nat.lt_irrefl _ hlt
  rw [List.length_append, List.length_singleton, take_finRange_succ hk, List.map_append, List.map_append, hbefore,
    h.2, List.map_singleton, List.map_singleton, row_write_self _ hlen]

/-! ### The two models -/

/-- The arrays hold the speakers that have been collected. -/
def Fills (f : Filled) (out : Collected) : Prop :=
  f.sems = out.sems ∧ f.audio = out.audio ∧ f.speakerCount = out.speakers.length ∧ f.buffers.Holds out.speakers

theorem pcm_length (e : JitterEntry) : e.pcm.length ≤ frameSamples := by
  rw [JitterEntry.pcm, List.length_map, List.length_range]
  exact Nat.min_le_right _ _

/-- One speaker. -/
theorem Fills.speaker {f : Filled} {out : Collected} (h : Fills f out) (slot : Fin maxClients)
    (hk : f.speakerCount < maxClients) (sems : Fin maxRooms → Nat) :
    Fills { f.speaker slot ⟨f.speakerCount, hk⟩ with sems := sems }
      ⟨sems, out.audio.popSlot slot, out.speakers ++ out.audio.speakerOf slot⟩ := by
  obtain ⟨hsems, haudio, hcount, hholds⟩ := h
  obtain ⟨fsems, faudio, buffers, count⟩ := f
  simp only at haudio hcount hholds hk
  subst haudio hcount
  unfold Filled.speaker
  simp only [jitterBufferPop_fst, Audio.speakerOf]
  cases hpop : popIndex (out.audio.jitter slot) with
  | none =>
      refine ⟨rfl, rfl, ?_, ?_⟩
      · simp
      · simpa using hholds
  | some i =>
      refine ⟨rfl, rfl, ?_, ?_⟩
      · simp
      · exact hholds.write hk ⟨slot, i, _⟩ (pcm_length _)

/-- **The loop over the participants** does the same in both models. -/
theorem fill_eq (s : Server) (roomId : Nat) (ps : List (Option Ptr)) {f : Filled} {out : Collected}
    (h : Fills f out) :
    (fill s roomId ps f = none ∧ collect s roomId ps out = none) ∨
      ∃ f' out', fill s roomId ps f = some f' ∧ collect s roomId ps out = some out' ∧ Fills f' out' := by
  induction ps generalizing f out with
  | nil => exact Or.inr ⟨f, out, rfl, rfl, h⟩
  | cons q rest ih =>
      cases q with
      | none => exact ih h
      | some c =>
          have hsems := h.1
          have hcount := h.2.2.1
          simp only [fill, collect]
          cases s.clientMem c with
          | none => exact Or.inl ⟨rfl, rfl⟩
          | some speaker =>
              simp only
              split
              · exact ih h
              · by_cases hk : f.speakerCount < maxClients
                · have hroom : ¬ maxClients ≤ out.speakers.length := by omega
                  rw [dif_pos hk, if_neg hroom]
                  split
                  · rw [hsems]
                    split
                    · exact ih h
                    · exact ih (h.speaker speaker.slot hk _)
                  · exact Or.inl ⟨rfl, rfl⟩
                · have hroom : maxClients ≤ out.speakers.length := by omega
                  rw [dif_neg hk, if_pos hroom]
                  exact Or.inr ⟨f, out, rfl, rfl, h⟩

/-- A row in the mix is a speaker in the mix. -/
theorem mixRow_eq (mix : (Fin frameSamples → Int16) × Nat) (k : Fin maxClients) :
    b.mixRow slot mix k =
      if (b.row k).1 = slot then mix else (addPcm mix.1 (b.row k).2, mix.2 + 1) := by
  unfold MixBuffers.mixRow MixBuffers.row
  split
  · rfl
  · congr 1
    funext j
    by_cases hj : j.val < b.speakerSamples k
    · have hget : (((List.finRange frameSamples).take (b.speakerSamples k)).map (b.speakerPcm k))[j.val]? =
          some (b.speakerPcm k j) := by
        rw [List.getElem?_map, List.getElem?_take_of_lt hj, List.getElem?_eq_getElem (by simp),
          List.getElem_finRange]
        rfl
      rw [if_pos hj]
      simp only [addPcm, hget]
    · have hget : (((List.finRange frameSamples).take (b.speakerSamples k)).map (b.speakerPcm k))[j.val]? = none := by
        rw [List.getElem?_map, List.getElem?_take_eq_none (by omega), Option.map_none]
      rw [if_neg hj]
      simp only [addPcm, hget]

/-- The speakers that are not the listener are added and counted. -/
theorem foldl_heardBy (speakers : List Speaker) (mix : (Fin frameSamples → Int16) × Nat) :
    (speakers.map fun sp => (sp.slot, sp.pcm)).foldl
        (fun mix row => if row.1 = slot then mix else (addPcm mix.1 row.2, mix.2 + 1)) mix =
      ((heardBy slot speakers).foldl (fun mixed sp => addPcm mixed sp.pcm) mix.1,
        mix.2 + (heardBy slot speakers).length) := by
  induction speakers generalizing mix with
  | nil => rfl
  | cons sp rest ih =>
      rw [List.map_cons, List.foldl_cons, ih]
      by_cases hslot : sp.slot = slot
      · have hskip : heardBy slot (sp :: rest) = heardBy slot rest := List.filter_cons_of_neg (by simp [hslot])
        rw [hskip]
        simp only [if_pos hslot]
      · have hadd : heardBy slot (sp :: rest) = sp :: heardBy slot rest := List.filter_cons_of_pos (by simp [hslot])
        rw [hadd, List.foldl_cons, List.length_cons]
        simp only [if_neg hslot]
        congr 1
        omega

/-- **The mix of the arrays** is the mix of the speakers. -/
theorem mix_eq (h : b.Holds speakers) (slot : Fin maxClients) :
    b.mix speakers.length slot = mixSpeakers (heardBy slot speakers) := by
  have hfold : ((List.finRange maxClients).take speakers.length).foldl (b.mixRow slot) (fun _ => 0, 0) =
      ((heardBy slot speakers).foldl (fun mixed sp => addPcm mixed sp.pcm) (fun _ => 0),
        (heardBy slot speakers).length) := by
    have hrows : b.mixRow slot = fun mix k =>
        if (b.row k).1 = slot then mix else (addPcm mix.1 (b.row k).2, mix.2 + 1) := by
      funext mix k
      exact mixRow_eq mix k
    rw [hrows, ← List.foldl_map (f := b.row)
      (g := fun mix row => if row.1 = slot then mix else (addPcm mix.1 row.2, mix.2 + 1)), h.2, foldl_heardBy,
      Nat.zero_add]
  simp only [MixBuffers.mix, hfold, mixSpeakers]

theorem sendStatic_eq (h : b.Holds speakers) (s : Server) (p : Ptr) (ps : List (Option Ptr)) :
    sendStatic s b speakers.length ps = (sendLoop s p speakers ps).map fun sent => sent.map Sent.wire := by
  induction ps with
  | nil => rfl
  | cons q rest ih =>
      cases q with
      | none => exact ih
      | some c =>
          simp only [sendStatic, sendLoop]
          cases s.clientMem c with
          | none => rfl
          | some listener =>
              simp only
              split
              · exact ih
              · rw [ih, mix_eq h]
                unfold sendAudioToClient
                cases hroom : listener.currentRoom with
                | none => cases sendLoop s p speakers rest <;> rfl
                | some q =>
                    cases hq : s.roomMem q with
                    | none => simp only [hq, Option.map_none]
                    | some r =>
                        simp only [hq, Option.map_some]
                        cases sendLoop s p speakers rest <;> rfl

/-- **Whatever the arrays held**, `mix_room` does what the model with a list of
speakers does. -/
theorem mixRoomStatic_eq (m : Mixer) (b : MixBuffers) (p : Ptr) :
    (mixRoomStatic m b p).map (fun out => (out.1.1, out.2)) =
      (mixRoom m p).map fun out => (out.1, out.2.map Sent.wire) := by
  unfold mixRoomStatic mixRoom
  cases m.server.roomMem p with
  | none => rfl
  | some r =>
      have hstart : Fills ⟨m.sems, m.audio, b, 0⟩ ⟨m.sems, m.audio, []⟩ :=
        ⟨rfl, rfl, rfl, MixBuffers.Holds.start b⟩
      rcases fill_eq m.server r.roomId r.snapshot hstart with ⟨hfill, hcollect⟩ | ⟨f, out, hfill, hcollect, hfills⟩
      · simp only [hfill, hcollect, Option.map_none]
      · obtain ⟨hsems, haudio, hcount, hholds⟩ := hfills
        simp only [hfill, hcollect, hcount, hsems, haudio]
        rw [sendStatic_eq hholds _ p]
        simp only [Option.map_map]
        rfl

/-! ### A listener hears the others -/

/-- The state with other jitter buffers. -/
def Mixer.withJitter (m : Mixer) (jitter : Nat → JitterBuffer) : Mixer :=
  { m with audio := { m.audio with jitter := jitter } }

/-- The samples that a client is sent. -/
def samplesTo (c : Ptr) (out : Option ((Mixer × MixBuffers) × List WirePacket)) :
    Option (List (Fin frameSamples → Int16)) :=
  out.map fun o => (o.2.filter fun x => x.listener = c).map WirePacket.samples

/-- Every active participant is sent one packet, and no one else; and what it is
sent depends on the jitter buffers of the others that are active and not muted
only. -/
structure HearsOthers (m : Mixer) (b : MixBuffers) (p : Ptr) (r : Room) : Prop where
  sent : ∃ out, mixRoomStatic m b p = some out ∧
    out.2.map WirePacket.listener = (m.server.listeners r).map Prod.fst ∧ (out.2.map WirePacket.listener).Nodup
  others : ∀ x ∈ m.server.listeners r, ∀ (b' : MixBuffers) (jitter : Nat → JitterBuffer),
    (∀ y ∈ m.server.present r.snapshot, y.2.speaks = true → y.2.slot ≠ x.2.slot →
      jitter y.2.slot = m.audio.jitter y.2.slot) →
    samplesTo x.1 (mixRoomStatic (m.withJitter jitter) b' p) = samplesTo x.1 (mixRoomStatic m b p)

variable {s : Server} {a : Audio} {ps : List (Option Ptr)} {m : Mixer} {p : Ptr} {r : Room}

theorem heardBy_speakerOf_self (a : Audio) (slot : Fin maxClients) : heardBy slot (a.speakerOf slot) = [] := by
  apply List.filter_eq_nil_iff.mpr
  intro sp hsp
  simp [speakerOf_slot hsp]

/-- What is heard depends on the buffers of the others that speak. -/
theorem heardBy_voices_congr {a' : Audio} (h : ∀ y ∈ s.present ps, y.2.speaks = true → y.2.slot ≠ slot →
      a'.jitter y.2.slot = a.jitter y.2.slot) :
    heardBy slot (voices s a' ps) = heardBy slot (voices s a ps) := by
  simp only [heardBy, voices, List.filter_flatMap]
  refine List.flatMap_congr ?_
  intro y hy
  obtain ⟨hmem, hspeaks⟩ := List.mem_filter.mp hy
  by_cases hslot : y.2.slot = slot
  · subst hslot
    exact (heardBy_speakerOf_self a' _).trans (heardBy_speakerOf_self a _).symm
  · simp only [Audio.speakerOf, h y hmem hspeaks hslot]

theorem heardBy_voicesIn_congr {jitter : Nat → JitterBuffer}
    (h : ∀ y ∈ m.server.present r.snapshot, y.2.speaks = true → y.2.slot ≠ slot →
      jitter y.2.slot = m.audio.jitter y.2.slot) :
    heardBy slot ((m.withJitter jitter).voicesIn r) = heardBy slot (m.voicesIn r) := by
  unfold Mixer.voicesIn
  by_cases hid : r.roomId < maxRooms
  · rw [dif_pos hid, dif_pos hid]
    by_cases hsem : m.sems ⟨r.roomId, hid⟩ = 0
    · have hsem' : (m.withJitter jitter).sems ⟨r.roomId, hid⟩ = 0 := hsem
      rw [if_pos hsem, if_pos hsem']
    · have hsem' : ¬ (m.withJitter jitter).sems ⟨r.roomId, hid⟩ = 0 := hsem
      rw [if_neg hsem, if_neg hsem']
      have hsame : heardBy slot (voices m.server (m.withJitter jitter).audio r.snapshot) =
          heardBy slot (voices m.server m.audio r.snapshot) := heardBy_voices_congr h
      exact hsame
  · rw [dif_neg hid, dif_neg hid]

/-- Pointers tell the participants apart. -/
theorem eq_of_present {x y : Ptr × Client} (hx : x ∈ s.present ps) (hy : y ∈ s.present ps) (h : x.1 = y.1) :
    x = y := by
  have hxc := (mem_present hx).2
  have hyc := (mem_present hy).2
  rw [h, hyc] at hxc
  exact Prod.ext h (Option.some.inj hxc).symm

theorem Mixable.listeners_nodup (h : Mixable s p r) : ((s.listeners r).map Prod.fst).Nodup := by
  have hlisteners : (s.listeners r).Nodup := h.slots.of_map.filter _
  refine List.Nodup.map_on ?_ hlisteners
  intro x hx y hy heq
  exact eq_of_present (List.mem_of_mem_filter hx) (List.mem_of_mem_filter hy) heq

/-- The one participant with a given pointer. -/
theorem filter_listener {xs : List (Ptr × Client)} (hnodup : (xs.map Prod.fst).Nodup) {x : Ptr × Client}
    (hx : x ∈ xs) : xs.filter (fun y => decide (y.1 = x.1)) = [x] := by
  induction xs with
  | nil => cases hx
  | cons y rest ih =>
      rw [List.map_cons, List.nodup_cons] at hnodup
      obtain ⟨hnew, hnodup⟩ := hnodup
      rcases List.mem_cons.mp hx with rfl | hx
      · have hrest : rest.filter (fun y => decide (y.1 = x.1)) = [] := by
          apply List.filter_eq_nil_iff.mpr
          intro z hz heq
          exact hnew (List.mem_map.mpr ⟨z, hz, of_decide_eq_true heq⟩)
        rw [List.filter_cons_of_pos (by simp), hrest]
      · have hne : ¬ y.1 = x.1 := by
          intro heq
          exact hnew (List.mem_map.mpr ⟨x, hx, heq.symm⟩)
        rw [List.filter_cons_of_neg (by simpa using hne), ih hnodup hx]

/-- What `mix_room` with its arrays sends. -/
theorem mixRoomStatic_sent (h : Mixable m.server p r) (hin : SemInRange m.server r) (b : MixBuffers) :
    ∃ out, mixRoomStatic m b p = some out ∧
      out.2 = (m.server.listeners r).map fun x => (sentTo (m.counted p r) p (m.voicesIn r) x).wire := by
  obtain ⟨audio, hmix, _⟩ := mixRoom_eq h hin
  have heq := mixRoomStatic_eq m b p
  rw [hmix, Option.map_some] at heq
  obtain ⟨out, hout, hpair⟩ := Option.map_eq_some_iff.mp heq
  refine ⟨out, hout, ?_⟩
  rw [(Prod.mk.inj hpair).2, List.map_map]
  rfl

theorem samplesTo_eq (h : Mixable m.server p r) (hin : SemInRange m.server r) (b : MixBuffers) {x : Ptr × Client}
    (hx : x ∈ m.server.listeners r) :
    samplesTo x.1 (mixRoomStatic m b p) = some [mixSpeakers (heardBy x.2.slot (m.voicesIn r))] := by
  obtain ⟨out, hout, hsent⟩ := mixRoomStatic_sent h hin b
  have honly := filter_listener h.listeners_nodup hx
  rw [hout, samplesTo, Option.map_some, hsent, List.filter_map, List.map_map]
  have hfilter : (m.server.listeners r).filter
      ((fun y : WirePacket => decide (y.listener = x.1)) ∘
        fun x => (sentTo (m.counted p r) p (m.voicesIn r) x).wire) = [x] := honly
  rw [hfilter]
  rfl

/-- **A listener hears the others and only the others** exactly when the semaphore
of the room exists, if anybody asks for it. -/
theorem hears_others_iff (m : Mixer) (b : MixBuffers) (p : Ptr) (r : Room) (h : Mixable m.server p r) :
    HearsOthers m b p r ↔ SemInRange m.server r := by
  constructor
  · intro hears
    by_contra hout
    obtain ⟨out, hsome, _⟩ := hears.sent
    have heq := mixRoomStatic_eq m b p
    rw [hsome, mixRoom_outside h.room hout] at heq
    cases heq
  · intro hin
    constructor
    · obtain ⟨out, hout, hsent⟩ := mixRoomStatic_sent h hin b
      have hlisteners : out.2.map WirePacket.listener = (m.server.listeners r).map Prod.fst := by
        rw [hsent, List.map_map]
        rfl
      refine ⟨out, hout, hlisteners, ?_⟩
      rw [hlisteners]
      exact h.listeners_nodup
    · intro x hx b' jitter hjitter
      rw [samplesTo_eq (m := m.withJitter jitter) h hin b' hx, samplesTo_eq h hin b hx,
        heardBy_voicesIn_congr hjitter]

/-- The static arrays when the process starts. -/
def zeroBuffers : MixBuffers := ⟨fun _ _ => 0, fun _ => 0, fun _ => firstSlot⟩

/-- Two speakers hear each other. -/
theorem two_hear_each_other : HearsOthers (talkingHall 2 0) zeroBuffers 0 (hallRoom 2 0) :=
  (hears_others_iff (talkingHall 2 0) zeroBuffers 0 (hallRoom 2 0)
    (hall_mixable (by decide) (by decide +kernel))).mpr (Or.inl (by decide))

/-- In a room with an id outside the array nobody hears anything. -/
theorem nobody_heard_outside :
    ¬ ∀ m b p r, Mixable m.server p r → HearsOthers m b p r := by
  intro hall
  have hears := hall (talkingHall 2 32) zeroBuffers 0 (hallRoom 2 32)
    (hall_mixable (by decide) (by decide +kernel))
  obtain ⟨out, hout, _⟩ := hears.sent
  have hnone : (mixRoomStatic (talkingHall 2 32) zeroBuffers 0).isNone = true := by decide +kernel
  rw [hout] at hnone
  cases hnone

end EchoLink
