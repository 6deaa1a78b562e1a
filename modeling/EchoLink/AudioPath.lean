import EchoLink.Ring
import EchoLink.Runs
import Mathlib.Data.Fin.Basic
import Mathlib.Data.List.FinRange

/-!
# From a datagram to a jitter buffer

The audio path: `handle_udp_packet` in the epoll thread reads a datagram into
an `audio_packet` and pushes it on the ring; the mixer thread pops packets,
files each in the jitter buffer of its sender with `jitter_buffer_push`, and
takes entries out with `jitter_buffer_pop` when it mixes a room.

An `audio_packet` is its memory image.  A datagram covers the first bytes of
the image and the rest is what the stack held, so a short datagram leaves the
length field to chance.  The steps of the two threads interleave as those of
the ring do.  A copy that leaves its array has no outcome: the step is `none`.

No one checks `payload_size` on the way (`oversizedDatagram_faults`).  The
runs whose datagrams are harmless in the sense of `Harmless` stay inside the
buffers (`audioPath_inBounds`).
-/

namespace EchoLink

open CText RecordFile BoundedQueue Runs

/-! ### Packets -/

/-- `sizeof(audio_packet)`, two bytes of padding included. -/
def audioPacketSize : Nat := 2068

/-- The memory image of an `audio_packet`. -/
abbrev AudioPacket := Buf audioPacketSize

def AudioPacket.senderId (pkt : AudioPacket) : UInt32 :=
  (ofLe32 ((pkt.val.drop 4).take 4)).toUInt32

def AudioPacket.seqNum (pkt : AudioPacket) : UInt32 :=
  (ofLe32 ((pkt.val.drop 8).take 4)).toUInt32

def AudioPacket.timestamp (pkt : AudioPacket) : UInt32 :=
  (ofLe32 ((pkt.val.drop 12).take 4)).toUInt32

/-- `payload_size`, a 16-bit field. -/
def AudioPacket.payloadSize (pkt : AudioPacket) : UInt16 :=
  UInt16.ofNat ((pkt.val.getD 16 0).toNat + 256 * (pkt.val.getD 17 0).toNat)

def AudioPacket.payload (pkt : AudioPacket) : Bytes := (pkt.val.drop 18).take audioPayloadSize

/-- `recvfrom(udp_fd, &pkt, sizeof(pkt), ...)` over a variable that held `stale`. -/
def recvPacket (stale : AudioPacket) (datagram : Bytes) : AudioPacket :=
  ⟨datagram.take audioPacketSize ++ stale.val.drop (datagram.take audioPacketSize).length, by
    have hstale : stale.val.length = audioPacketSize := stale.property
    simp only [List.length_append, List.length_drop, hstale, List.length_take]
    omega⟩

/-! ### Jitter buffers -/

/-- `jitter_entry`. -/
structure JitterEntry where
  seqNum : UInt32
  timestamp : UInt32
  payloadSize : UInt16
  payload : Bytes
  valid : Bool

/-- The fields of `jitter_buffer` that are in use. -/
structure JitterBuffer where
  buffer : Fin jitterBufferSize → JitterEntry
  count : Int
  buffering : Bool

/-- `(int32_t)(a - b) < 0`. -/
def seqBefore (a b : UInt32) : Bool := (a - b).toInt32 < 0

/-- The first entry that is not in use. -/
def freeEntry (jb : JitterBuffer) : Option (Fin jitterBufferSize) :=
  (List.finRange jitterBufferSize).find? fun i => !(jb.buffer i).valid

/-- The entry a full buffer gives up. -/
def oldestEntry (jb : JitterBuffer) : Fin jitterBufferSize :=
  ((List.finRange jitterBufferSize).tail.foldl
    (fun oldest i =>
      if seqBefore (jb.buffer i).seqNum oldest.2 then (i, (jb.buffer i).seqNum) else oldest)
    ((⟨0, by decide⟩ : Fin jitterBufferSize), (jb.buffer ⟨0, by decide⟩).seqNum)).1

/-- `jitter_buffer_push`.  There is no outcome when the copy of `payload_size`
bytes leaves the payload array of the entry. -/
def jitterBufferPush (jb : JitterBuffer) (pkt : AudioPacket) : Option JitterBuffer :=
  let idx := (freeEntry jb).getD (oldestEntry jb)
  let n := pkt.payloadSize.toNat
  if n ≤ audioPayloadSize then
    some { jb with
      buffer := Function.update jb.buffer idx
        { seqNum := pkt.seqNum
          timestamp := pkt.timestamp
          payloadSize := pkt.payloadSize
          payload := pkt.payload.take n ++ (jb.buffer idx).payload.drop n
          valid := true }
      count := if (freeEntry jb).isSome then jb.count + 1 else jb.count }
  else none

/-- One round of the loop of `jitter_buffer_pop`: the valid entry that comes
first among those seen. -/
def betterEntry (jb : JitterBuffer) (best : Option (Fin jitterBufferSize × UInt32))
    (i : Fin jitterBufferSize) : Option (Fin jitterBufferSize × UInt32) :=
  if (jb.buffer i).valid then
    match best with
    | none => some (i, (jb.buffer i).seqNum)
    | some b => if seqBefore (jb.buffer i).seqNum b.2 then some (i, (jb.buffer i).seqNum) else best
  else best

def bestEntry (jb : JitterBuffer) : Option (Fin jitterBufferSize × UInt32) :=
  (List.finRange jitterBufferSize).foldl (betterEntry jb) none

/-- `jitter_buffer_pop`. -/
def jitterBufferPop (jb : JitterBuffer) : Option JitterEntry × JitterBuffer :=
  if jb.count = 0 then (none, { jb with buffering := true })
  else if jb.buffering ∧ jb.count < 5 then (none, jb)
  else
    match bestEntry jb with
    | none => (none, { jb with buffering := false })
    | some (i, _) =>
        (some (jb.buffer i),
          { buffer := Function.update jb.buffer i { jb.buffer i with valid := false }
            count := jb.count - 1
            buffering := false })

/-! ### The two threads -/

/-- The threads of the audio path. -/
inductive AudioThread where
  | epoll
  | mixer
  deriving DecidableEq

instance : Fintype AudioThread := ⟨{.epoll, .mixer}, fun t => by cases t <;> simp⟩

/-- The ring, the jitter buffers, and what went through them: the packets
`jitter_buffer_push` was called with and the entries `jitter_buffer_pop` took. -/
structure Audio where
  ring : Ring AudioThread AudioPacket
  jitter : Nat → JitterBuffer
  delivered : List AudioPacket
  played : List JitterEntry

def emptyJitter : JitterBuffer where
  buffer := fun _ =>
    { seqNum := 0, timestamp := 0, payloadSize := 0,
      payload := List.replicate audioPayloadSize 0, valid := false }
  count := 0
  buffering := false

/-- After `ipc_manager_init` and `audio_mixer_init`. -/
def Audio.start : Audio where
  ring := Ring.start AudioThread (fit audioPacketSize [])
  jitter := fun _ => emptyJitter
  delivered := []
  played := []

/-- One step of one of the threads. -/
inductive AudioOp where
  /-- `handle_udp_packet` up to the `sem_trywait` of `ring_buffer_push` -/
  | datagram (bytes : Bytes) (stale : AudioPacket)
  /-- the next step of the push of the epoll thread -/
  | epoll
  /-- the next step of the drain loop of the mixer -/
  | mixer
  /-- `mix_room` asks the jitter buffer of a speaker's slot for an entry -/
  | play (slot : Fin maxClients)

/-- The body of the drain loop. -/
def deliver (s : Audio) (pkt : AudioPacket) : Option Audio :=
  let slot := pkt.senderId.toInt32
  if slot < 0 ∨ Int32.ofNat maxClients ≤ slot then some s
  else
    (jitterBufferPush (s.jitter slot.toInt.toNat) pkt).map fun jb =>
      { s with
        jitter := Function.update s.jitter slot.toInt.toNat jb
        delivered := s.delivered ++ [pkt] }

def Audio.step (s : Audio) : AudioOp → Option Audio
  | .datagram bytes stale =>
      match s.ring.call .epoll with
      | .idle =>
          if bytes = [] then some s
          else if 0 < (recvPacket stale bytes).payloadSize then
            some { s with ring := s.ring.step .epoll (.push (recvPacket stale bytes)) }
          else some s
      | _ => some s
  | .epoll =>
      match s.ring.call .epoll with
      | .idle => some s
      | _ => some { s with ring := s.ring.step .epoll .pop }
  | .mixer =>
      match s.ring.call .mixer with
      | .taken pkt => deliver { s with ring := s.ring.step .mixer .pop } pkt
      | _ => some { s with ring := s.ring.step .mixer .pop }
  | .play slot =>
      match s.ring.call .mixer with
      | .idle =>
          let r := jitterBufferPop (s.jitter slot)
          some { s with
            jitter := Function.update s.jitter slot r.2
            played := s.played ++ r.1.toList }
      | _ => some s

/-- Whether a packet is short enough or is dropped for its sender. -/
def AudioPacket.Safe (pkt : AudioPacket) : Prop :=
  pkt.payloadSize.toNat ≤ audioPayloadSize ∨ maxClients ≤ pkt.senderId.toNat

/-- A datagram whose packet is empty, fits, names no client slot, or meets a
full ring. -/
def Harmless (s : Audio) : AudioOp → Prop
  | .datagram bytes stale =>
      bytes = [] ∨ (recvPacket stale bytes).Safe ∨ s.ring.ringEmpty = 0
  | _ => True

/-- Every copy so far stayed inside its array: the packets filed and the
entries taken are within bounds. -/
structure InBounds (s : Audio) : Prop where
  delivered : ∀ pkt ∈ s.delivered, pkt.payloadSize.toNat ≤ audioPayloadSize
  played : ∀ e ∈ s.played, e.payloadSize.toNat ≤ audioPayloadSize

/-! ### Jitter buffers stay in bounds -/

def JitterOk (jb : JitterBuffer) : Prop :=
  ∀ i, (jb.buffer i).valid = true → (jb.buffer i).payloadSize.toNat ≤ audioPayloadSize

theorem emptyJitter_ok : JitterOk emptyJitter := by
  intro i hi
  simp [emptyJitter] at hi

/-- An entry that is filled or emptied leaves the others alone. -/
theorem JitterOk.update {jb : JitterBuffer} (h : JitterOk jb) (i : Fin jitterBufferSize)
    {e : JitterEntry} (he : e.valid = true → e.payloadSize.toNat ≤ audioPayloadSize)
    (count : Int) (buffering : Bool) :
    JitterOk { buffer := Function.update jb.buffer i e, count, buffering } := by
  intro j hj
  by_cases hji : j = i
  · subst hji
    simp only [Function.update_self] at hj ⊢
    exact he hj
  · simp only [Function.update_of_ne hji] at hj ⊢
    exact h j hj

theorem JitterOk.push {jb : JitterBuffer} {pkt : AudioPacket} (h : JitterOk jb)
    (hpkt : pkt.payloadSize.toNat ≤ audioPayloadSize) :
    ∃ jb', jitterBufferPush jb pkt = some jb' ∧ JitterOk jb' := by
  refine ⟨_, if_pos hpkt, ?_⟩
  exact h.update _ (fun _ => hpkt) _ _

/-- The search of `jitter_buffer_pop` only ever chooses valid entries. -/
theorem bestEntry_valid {jb : JitterBuffer} {b : Fin jitterBufferSize × UInt32}
    (h : bestEntry jb = some b) : (jb.buffer b.1).valid = true := by
  have hfold : ∀ (is : List (Fin jitterBufferSize)) (best : Option (Fin jitterBufferSize × UInt32)),
      (∀ b, best = some b → (jb.buffer b.1).valid = true) →
      ∀ b, is.foldl (betterEntry jb) best = some b → (jb.buffer b.1).valid = true := by
    intro is
    induction is with
    | nil => exact fun best hbest => hbest
    | cons j is ih =>
        intro best hbest
        apply ih
        intro b hb
        unfold betterEntry at hb
        split at hb
        · rename_i hvalid
          split at hb
          · rw [← Option.some.inj hb]
            exact hvalid
          · split at hb
            · rw [← Option.some.inj hb]
              exact hvalid
            · exact hbest b hb
        · exact hbest b hb
  exact hfold _ none (by simp) b h

theorem JitterOk.pop {jb : JitterBuffer} (h : JitterOk jb) :
    JitterOk (jitterBufferPop jb).2 ∧
      ∀ e ∈ (jitterBufferPop jb).1.toList, e.payloadSize.toNat ≤ audioPayloadSize := by
  simp only [jitterBufferPop]
  split
  · exact ⟨h, by simp⟩
  · split
    · exact ⟨h, by simp⟩
    · split
      · exact ⟨h, by simp⟩
      · rename_i i seq hbest
        refine ⟨h.update i (by simp) _ _, ?_⟩
        simpa using h i (bestEntry_valid hbest)

/-! ### The invariant -/

/-- What holds in every state of a harmless run. -/
structure AudioOk (s : Audio) : Prop where
  ring : ∃ q, Represents s.ring q ∧ Inv ringBufferCapacity q
  carries : Carries AudioPacket.Safe s.ring
  jitter : ∀ slot, JitterOk (s.jitter slot)
  bounds : InBounds s

theorem AudioOk.start : AudioOk Audio.start where
  ring := ⟨_, Represents.start _, Inv.start _⟩
  carries := Carries.start _ _
  jitter := fun _ => emptyJitter_ok
  bounds := { delivered := by simp [Audio.start], played := by simp [Audio.start] }

variable {s : Audio}

/-- A step of the ring that pushes nothing unsafe. -/
theorem AudioOk.ringStep (h : AudioOk s) (t : AudioThread) (a : Act AudioPacket)
    (ha : ∀ pkt, a = .push pkt → s.ring.call t = .idle → s.ring.ringEmpty ≠ 0 → pkt.Safe) :
    AudioOk { s with ring := s.ring.step t a } := by
  obtain ⟨q, hrep, hinv⟩ := h.ring
  exact
    { ring := ⟨_, hrep.step hinv t a, hinv.step t a⟩
      carries := h.carries.step hrep hinv t a ha
      jitter := h.jitter
      bounds := ⟨h.bounds.delivered, h.bounds.played⟩ }

/-- A sender id of `MAX_CLIENTS` or more is no slot, also when its cast to
`int` is negative. -/
theorem slot_rejected {id : UInt32} (h : maxClients ≤ id.toNat) :
    id.toInt32 < 0 ∨ Int32.ofNat maxClients ≤ id.toInt32 := by
  have hcast : id.toInt32.toInt =
      if 2 * id.toNat < 2 ^ 32 then (id.toNat : Int) else (id.toNat : Int) - (2 ^ 32 : Nat) :=
    BitVec.toInt_eq_toNat_cond id.toBitVec
  have hmax : (Int32.ofNat maxClients).toInt = 50 := by decide
  simp only [maxClients] at h
  rw [Int32.lt_iff_toInt_lt, Int32.le_iff_toInt_le, hmax]
  have hlt : id.toNat < 2 ^ 32 := id.toNat_lt
  have hzero : (0 : Int32).toInt = 0 := rfl
  rw [hzero, hcast]
  split <;> omega

theorem AudioOk.deliver (h : AudioOk s) {pkt : AudioPacket} (hpkt : pkt.Safe) :
    ∃ s', deliver s pkt = some s' ∧ AudioOk s' := by
  simp only [EchoLink.deliver]
  split
  · exact ⟨s, rfl, h⟩
  · rename_i hslot
    have hfits : pkt.payloadSize.toNat ≤ audioPayloadSize := by
      rcases hpkt with hfits | hsender
      · exact hfits
      · exact absurd (slot_rejected hsender) hslot
    obtain ⟨jb, hpush, hjb⟩ := (h.jitter pkt.senderId.toInt32.toInt.toNat).push hfits
    refine ⟨_, by rw [hpush, Option.map_some], ?_⟩
    refine { ring := h.ring, carries := h.carries, jitter := ?_, bounds := ⟨?_, h.bounds.played⟩ }
    · intro slot
      by_cases hs : slot = pkt.senderId.toInt32.toInt.toNat
      · subst hs
        simp only [Function.update_self]
        exact hjb
      · simp only [Function.update_of_ne hs]
        exact h.jitter slot
    · intro pkt' hmem
      rcases List.mem_append.mp hmem with hmem | hmem
      · exact h.bounds.delivered pkt' hmem
      · rw [List.mem_singleton.mp hmem]
        exact hfits

/-- **One step** of either thread keeps the invariant and has an outcome. -/
theorem AudioOk.step (h : AudioOk s) {op : AudioOp} (hop : Harmless s op) :
    ∃ s', s.step op = some s' ∧ AudioOk s' := by
  cases op with
  | datagram bytes stale =>
      simp only [Audio.step]
      split
      · split
        · exact ⟨s, rfl, h⟩
        · rename_i hbytes
          split
          · refine ⟨_, rfl, h.ringStep .epoll _ ?_⟩
            intro pkt hpkt _ hroom
            rw [← Act.push.inj hpkt]
            rcases hop with hnil | hsafe | hfull
            · exact absurd hnil hbytes
            · exact hsafe
            · exact absurd hfull hroom
          · exact ⟨s, rfl, h⟩
      · exact ⟨s, rfl, h⟩
  | epoll =>
      simp only [Audio.step]
      split
      · exact ⟨s, rfl, h⟩
      · exact ⟨_, rfl, h.ringStep .epoll .pop (by simp)⟩
  | mixer =>
      simp only [Audio.step]
      split
      · rename_i pkt htaken
        exact (h.ringStep .mixer .pop (by simp)).deliver (h.carries.taken .mixer pkt htaken)
      · exact ⟨_, rfl, h.ringStep .mixer .pop (by simp)⟩
  | play slot =>
      simp only [Audio.step]
      split
      · obtain ⟨hjb, hentry⟩ := (h.jitter slot).pop
        refine ⟨_, rfl, { ring := h.ring, carries := h.carries, jitter := ?_,
                          bounds := ⟨h.bounds.delivered, ?_⟩ }⟩
        · intro slot'
          by_cases hs : slot' = slot
          · subst hs
            simp only [Function.update_self]
            exact hjb
          · simp only [Function.update_of_ne hs]
            exact h.jitter slot'
        · intro e he
          rcases List.mem_append.mp he with he | he
          · exact h.bounds.played e he
          · exact hentry e he
      · exact ⟨s, rfl, h⟩

/-- **Harmless runs stay in bounds.**  In every run of the two threads whose
datagrams are harmless, no copy leaves its array, and every packet filed and
every entry taken is within bounds. -/
theorem audioPath_inBounds (ops : List AudioOp)
    (hops : Along Audio.step Harmless Audio.start ops) :
    ∃ s, run Audio.step Audio.start ops = some s ∧ InBounds s := by
  obtain ⟨s, hrun, hok⟩ := run_invariant (fun _ _ hs hop => AudioOk.step hs hop) AudioOk.start hops
  exact ⟨s, hrun, hok.bounds⟩

/-! ### Concrete runs -/

/-- A datagram of 18 bytes: a header from sender 0 with a length field. -/
def headerDatagram (lo hi : UInt8) : Bytes :=
  [0, 0, 0, 0, 0, 0, 0, 0, 1, 0, 0, 0, 0, 0, 0, 0, lo, hi]

/-- One packet on its way through the ring to the jitter buffer. -/
def throughRing (lo hi : UInt8) : List AudioOp :=
  [.datagram (headerDatagram lo hi) (fit audioPacketSize []), .epoll, .epoll, .mixer, .mixer, .mixer]

theorem fullPayload_inBounds :
    ∃ s, run Audio.step Audio.start (throughRing 0 8) = some s ∧ InBounds s := by
  apply audioPath_inBounds
  refine ⟨Or.inr (Or.inl (Or.inl (by decide +kernel))), fun s _ => ?_⟩
  exact ⟨trivial, fun _ _ => ⟨trivial, fun _ _ => ⟨trivial, fun _ _ => ⟨trivial, fun _ _ =>
    ⟨trivial, fun _ _ => trivial⟩⟩⟩⟩⟩

/-- One byte more, and the copy leaves the payload array. -/
theorem oversizedDatagram_faults :
    ¬ ∀ ops : List AudioOp, ∃ s, run Audio.step Audio.start ops = some s ∧ InBounds s := by
  intro hall
  obtain ⟨s, hrun, _⟩ := hall (throughRing 1 8)
  have hnone : (run Audio.step Audio.start (throughRing 1 8)).isNone = true := by decide +kernel
  rw [hrun] at hnone
  cases hnone

end EchoLink
