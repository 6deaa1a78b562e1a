import EchoLink.MixRoom
import EchoLink.ServiceRefinement
import EchoLink.VoiceService

/-!
# The server seen as a voice service

The steps of all threads of the server: the operations of the clients, a datagram
that arrives, the further steps of its push on the ring, the steps of the drain
loop of the mixer, and the mixing of one room.  They come in any order.

`Mixer.voice` reads the state of the voice service off the server.  The packets
that wait are those in the ring with the one that the mixer has taken out and
the one that the epoll thread is about to store; so a push counts from its
`sem_trywait` on and a pop to its end, and `ring_empty` is the room that is left
(`PipelineOk.room`).  The line of a slot is what its jitter buffer holds.
-/

namespace EchoLink

open CText RecordFile BoundedQueue SlotBag SerialScan Playout

/-! ### The steps -/

inductive VoiceOp where
  /-- an operation of the clients -/
  | server (o : Op × Env)
  /-- `handle_udp_packet` up to the `sem_trywait` of `ring_buffer_push` -/
  | datagram (bytes : Bytes) (stale : AudioPacket)
  /-- the next step of the push of the epoll thread -/
  | epoll
  /-- the next step of the drain loop of the mixer -/
  | mixer
  /-- `mix_room` of the room at this place of the list -/
  | mix (k : Nat)

def Mixer.withAudio (m : Mixer) (a : Audio) : Mixer := { m with audio := a }

/-- The body of the loop over the rooms. -/
def Mixer.mixAt (m : Mixer) (k : Nat) : Option (Mixer × List Sent) :=
  match m.server.roomList[k]? with
  | none => some (m, [])
  | some p =>
      match m.server.roomMem p with
      | none => none
      | some r => if 0 < r.participantCount then mixRoom m p else some (m, [])

/-- The mixer mixes when it is not in the middle of a pop. -/
def Mixer.voiceStep (m : Mixer) : VoiceOp → Option Mixer
  | .server o => (m.server.step o).map fun s => { m with server := s }
  | .datagram bytes stale => (m.audio.step (.datagram bytes stale)).map m.withAudio
  | .epoll => (m.audio.step .epoll).map m.withAudio
  | .mixer => (m.audio.step .mixer).map m.withAudio
  | .mix k =>
      match m.audio.ring.call .mixer with
      | .idle => (m.mixAt k).map Prod.fst
      | _ => some m

/-- A packet that is sent, as the client gets it. -/
def Sent.out (s : Server) (x : Sent) : Option VoiceOut :=
  (s.clientMem x.listener).map fun cl =>
    .audio cl.slot x.roomId (x.speakers.map fun sp => (sp.slot, sp.pcm)) x.samples

/-- What a step sends. -/
def Mixer.voiceSent (m : Mixer) : VoiceOp → List VoiceOut
  | .server o => (m.server.sent o).map fun x => .response x.1 x.2
  | .mix k =>
      match m.audio.ring.call .mixer with
      | .idle => ((m.mixAt k).map Prod.snd).elim [] fun sent => sent.filterMap (Sent.out m.server)
      | _ => []
  | _ => []

/-! ### The abstraction -/

/-- The packet a call carries between its semaphores. -/
def carried {α : Type} : Phase α → List α
  | .reserved x => [x]
  | .taken x => [x]
  | _ => []

/-- The packets on their way from a datagram to a jitter buffer. -/
def Audio.pending (a : Audio) : List AudioPacket :=
  carried (a.ring.call .mixer) ++ a.ring.shm.contents ++ carried (a.ring.call .epoll)

def AudioPacket.filed (pkt : AudioPacket) : UInt32 × Packet := (AudioPacket.senderId pkt, pkt.packet)

def JitterBuffer.line (jb : JitterBuffer) : Line Packet := ⟨jb.held, jb.buffering⟩

def Audio.lines (a : Audio) (i : Fin maxClients) : Line Packet := (a.jitter i).line

/-- What the server shows as a voice service. -/
def Mixer.voice (m : Mixer) : Voice where
  chat := m.server.chat
  pending := m.audio.pending.map AudioPacket.filed
  lines := m.audio.lines

/-- The step as the service sees it. -/
def Mixer.voiceEvent (m : Mixer) : VoiceOp → Option VoiceEvent
  | .server o => some (.chat (Op.event o))
  | .datagram bytes stale =>
      match m.audio.ring.call .epoll with
      | .idle =>
          if bytes ≠ [] ∧ 0 < (recvPacket stale bytes).payloadSize then
            some (.packet (recvPacket stale bytes).senderId (recvPacket stale bytes).packet)
          else none
      | _ => none
  | .epoll => none
  | .mixer =>
      match m.audio.ring.call .mixer with
      | .taken _ => some .file
      | _ => none
  | .mix k =>
      match m.audio.ring.call .mixer with
      | .idle => some (.mix k)
      | _ => none

/-! ### The invariant -/

/-- A packet that names a slot fits into the jitter buffer, and its number is in
the window of the slot. -/
def Admits (b : Fin maxClients → UInt32) (pkt : AudioPacket) : Prop :=
  ∀ i, slotNamed (AudioPacket.senderId pkt) = some i →
    (AudioPacket.payloadSize pkt).toNat ≤ audioPayloadSize ∧ InWindow (b i) (AudioPacket.seqNum pkt)

/-- The counter of a jitter buffer is right, and its numbers are in the window. -/
structure LineOk (b : UInt32) (jb : JitterBuffer) : Prop where
  count : jb.count = jb.held.card
  window : jb.Windowed b

/-- Where the epoll thread may stand, which only pushes. -/
def Pushes {α : Type} : Phase α → Prop
  | .idle => True
  | .reserved _ => True
  | .written => True
  | _ => False

/-- Where the mixer may stand, which only pops. -/
def Pops {α : Type} : Phase α → Prop
  | .idle => True
  | .claimed => True
  | .taken _ => True
  | _ => False

structure PipelineOk (b : Fin maxClients → UInt32) (a : Audio) : Prop where
  ring : ∃ q, Represents a.ring q ∧ Inv ringBufferCapacity q
  carries : Carries (Admits b) a.ring
  pushes : Pushes (a.ring.call .epoll)
  pops : Pops (a.ring.call .mixer)
  lines : ∀ i : Fin maxClients, LineOk (b i) (a.jitter i)

theorem emptyJitter_line : emptyJitter.line = ⟨0, false⟩ := by
  have hempty : emptyJitter.held = 0 := by
    rw [← Multiset.card_eq_zero, card_held]
    decide
  rw [JitterBuffer.line, hempty]
  rfl

theorem LineOk.start (b : UInt32) : LineOk b emptyJitter where
  count := by
    have hempty : emptyJitter.held = 0 := congrArg Line.held emptyJitter_line
    rw [hempty]
    rfl
  window := by
    intro i hi
    cases hi

theorem PipelineOk.start (b : Fin maxClients → UInt32) : PipelineOk b Audio.start where
  ring := ⟨_, Represents.start _, Inv.start _⟩
  carries := Carries.start _ _
  pushes := trivial
  pops := trivial
  lines := fun i => LineOk.start (b i)

variable {b : Fin maxClients → UInt32} {a a' : Audio} {pkt : AudioPacket} {i : Fin maxClients} {jb jb' : JitterBuffer}

/-! ### The ring -/

theorem emptyHeld_eq {α : Type} (p : Phase α) : p.emptyHeld = (carried p).length := by
  cases p with
  | idle => rfl
  | reserved x => rfl
  | written => rfl
  | claimed => rfl
  | taken x => rfl

/-- **The room that is left** is what `ring_empty` counts. -/
theorem PipelineOk.room (h : PipelineOk b a) : a.ring.ringEmpty + a.pending.length = ringBufferCapacity := by
  obtain ⟨q, hrep, hinv⟩ := h.ring
  have hplaces := hinv.places
  have huniv : (Finset.univ : Finset AudioThread) = {.epoll, .mixer} := rfl
  rw [huniv, Finset.sum_pair (by decide), hrep.phase, hrep.empty, hrep.queue, emptyHeld_eq, emptyHeld_eq] at hplaces
  simp only [Audio.pending, List.length_append]
  omega

theorem step_call_of_ne {s : Ring AudioThread AudioPacket} {t u : AudioThread} (act : Act AudioPacket) (h : u ≠ t) :
    (s.step t act).call u = s.call u := by
  unfold Ring.step
  split
  · split
    · split
      · rfl
      · exact Function.update_of_ne h _ _
    · split
      · rfl
      · exact Function.update_of_ne h _ _
  · exact Function.update_of_ne h _ _
  · exact Function.update_of_ne h _ _
  · exact Function.update_of_ne h _ _
  · exact Function.update_of_ne h _ _

/-- A step of the ring, apart from where its thread stands. -/
theorem PipelineOk.ringStep (h : PipelineOk b a) {t : AudioThread} {act : Act AudioPacket}
    (hact : ∀ pkt, act = .push pkt → Admits b pkt) (hpushes : Pushes ((a.ring.step t act).call .epoll))
    (hpops : Pops ((a.ring.step t act).call .mixer)) : PipelineOk b { a with ring := a.ring.step t act } := by
  obtain ⟨q, hrep, hinv⟩ := h.ring
  exact
    { ring := ⟨_, hrep.step hinv t act, hinv.step t act⟩
      carries := h.carries.step hrep hinv t act fun pkt hpkt _ _ => hact pkt hpkt
      pushes := hpushes
      pops := hpops
      lines := h.lines }

/-- **A push starts**: the packet waits, or is dropped as there is no room. -/
theorem PipelineOk.startPush (h : PipelineOk b a) (hidle : a.ring.call .epoll = .idle) (hpkt : Admits b pkt) :
    PipelineOk b { a with ring := a.ring.step .epoll (.push pkt) } ∧
      ((a.pending.length < ringBufferCapacity ∧
          Audio.pending { a with ring := a.ring.step .epoll (.push pkt) } = a.pending ++ [pkt]) ∨
        (a.pending.length = ringBufferCapacity ∧
          Audio.pending { a with ring := a.ring.step .epoll (.push pkt) } = a.pending)) := by
  have hroom := h.room
  have hother := step_call_of_ne (s := a.ring) (t := .epoll) (u := .mixer) (.push pkt) (by decide)
  by_cases hfull : a.ring.ringEmpty = 0
  · have hsame : a.ring.step .epoll (.push pkt) = a.ring := by
      simp only [Ring.step, hidle, if_pos hfull]
    rw [hsame]
    exact ⟨h, Or.inr ⟨by omega, rfl⟩⟩
  · have hcall : (a.ring.step .epoll (.push pkt)).call .epoll = .reserved pkt := by
      simp only [Ring.step, hidle, if_neg hfull, Function.update_self]
    have hshm : (a.ring.step .epoll (.push pkt)).shm = a.ring.shm := by
      simp only [Ring.step, hidle, if_neg hfull]
    refine ⟨h.ringStep ?_ ?_ ?_, Or.inl ⟨by omega, ?_⟩⟩
    · intro pkt' hpkt'
      rw [← Act.push.inj hpkt']
      exact hpkt
    · rw [hcall]
      trivial
    · rw [hother]
      exact h.pops
    · simp only [Audio.pending, hother, hcall, hshm, hidle, carried, List.append_nil]

/-- **A push goes on**: what waits stays the same. -/
theorem PipelineOk.goOnPush (h : PipelineOk b a) (hbusy : a.ring.call .epoll ≠ .idle) :
    PipelineOk b { a with ring := a.ring.step .epoll .pop } ∧
      Audio.pending { a with ring := a.ring.step .epoll .pop } = a.pending := by
  have hother := step_call_of_ne (s := a.ring) (t := .epoll) (u := .mixer) .pop (by decide)
  have hpops : Pops ((a.ring.step .epoll .pop).call .mixer) := by
    rw [hother]
    exact h.pops
  have hnopush : ∀ pkt, (Act.pop : Act AudioPacket) = .push pkt → Admits b pkt := by
    intro pkt hpkt
    cases hpkt
  have hpushes := h.pushes
  cases hcall : a.ring.call .epoll with
  | idle => exact absurd hcall hbusy
  | claimed =>
      rw [hcall] at hpushes
      exact hpushes.elim
  | taken x =>
      rw [hcall] at hpushes
      exact hpushes.elim
  | reserved pkt =>
      obtain ⟨q, hrep, hinv⟩ := h.ring
      have hlt := hinv.length_lt_of_reserved (t := .epoll) (by rw [hrep.phase, hcall])
      rw [hrep.length] at hlt
      have hnext : (a.ring.step .epoll .pop).call .epoll = .written := by
        simp only [Ring.step, hcall, Function.update_self]
      have hshm : (a.ring.step .epoll .pop).shm = a.ring.shm.put pkt := by
        simp only [Ring.step, hcall]
      refine ⟨h.ringStep hnopush ?_ hpops, ?_⟩
      · rw [hnext]
        trivial
      · simp only [Audio.pending, hother, hnext, hshm, hcall, carried, put_contents pkt hrep.tail hlt,
          List.append_nil, List.append_assoc]
  | written =>
      have hnext : (a.ring.step .epoll .pop).call .epoll = .idle := by
        simp only [Ring.step, hcall, Function.update_self]
      have hshm : (a.ring.step .epoll .pop).shm = a.ring.shm := by
        simp only [Ring.step, hcall]
      refine ⟨h.ringStep hnopush ?_ hpops, ?_⟩
      · rw [hnext]
        trivial
      · simp only [Audio.pending, hother, hnext, hshm, hcall, carried]

/-- **A pop**, up to its end: what waits stays the same. -/
theorem PipelineOk.goOnPop (h : PipelineOk b a) (hnot : ∀ pkt, a.ring.call .mixer ≠ .taken pkt) :
    PipelineOk b { a with ring := a.ring.step .mixer .pop } ∧
      Audio.pending { a with ring := a.ring.step .mixer .pop } = a.pending := by
  have hother := step_call_of_ne (s := a.ring) (t := .mixer) (u := .epoll) .pop (by decide)
  have hpushes : Pushes ((a.ring.step .mixer .pop).call .epoll) := by
    rw [hother]
    exact h.pushes
  have hnopush : ∀ pkt, (Act.pop : Act AudioPacket) = .push pkt → Admits b pkt := by
    intro pkt hpkt
    cases hpkt
  have hpops := h.pops
  cases hcall : a.ring.call .mixer with
  | reserved pkt =>
      rw [hcall] at hpops
      exact hpops.elim
  | written =>
      rw [hcall] at hpops
      exact hpops.elim
  | taken pkt => exact absurd hcall (hnot pkt)
  | idle =>
      by_cases hnone : a.ring.ringFull = 0
      · have hsame : a.ring.step .mixer .pop = a.ring := by
          simp only [Ring.step, hcall, if_pos hnone]
        rw [hsame]
        exact ⟨h, rfl⟩
      · have hnext : (a.ring.step .mixer .pop).call .mixer = .claimed := by
          simp only [Ring.step, hcall, if_neg hnone, Function.update_self]
        have hshm : (a.ring.step .mixer .pop).shm = a.ring.shm := by
          simp only [Ring.step, hcall, if_neg hnone]
        refine ⟨h.ringStep hnopush hpushes ?_, ?_⟩
        · rw [hnext]
          trivial
        · simp only [Audio.pending, hother, hnext, hshm, hcall, carried]
  | claimed =>
      obtain ⟨q, hrep, hinv⟩ := h.ring
      have hpos := hinv.length_pos_of_claimed (t := .mixer) (by rw [hrep.phase, hcall])
      rw [hrep.length] at hpos
      have hnext : (a.ring.step .mixer .pop).call .mixer = .taken a.ring.shm.take.1 := by
        simp only [Ring.step, hcall, Function.update_self]
      have hshm : (a.ring.step .mixer .pop).shm = a.ring.shm.take.2 := by
        simp only [Ring.step, hcall]
      refine ⟨h.ringStep hnopush hpushes ?_, ?_⟩
      · rw [hnext]
        trivial
      · simp only [Audio.pending, hother, hnext, hshm, hcall, carried, take_contents hrep.head hpos, List.nil_append,
          List.singleton_append]

/-- **A pop ends**: the first packet that waits has left the ring. -/
theorem PipelineOk.endPop (h : PipelineOk b a) (hcall : a.ring.call .mixer = .taken pkt) :
    PipelineOk b { a with ring := a.ring.step .mixer .pop } ∧
      a.pending = pkt :: Audio.pending { a with ring := a.ring.step .mixer .pop } ∧ Admits b pkt := by
  have hother := step_call_of_ne (s := a.ring) (t := .mixer) (u := .epoll) .pop (by decide)
  have hnext : (a.ring.step .mixer .pop).call .mixer = .idle := by
    simp only [Ring.step, hcall, Function.update_self]
  have hshm : (a.ring.step .mixer .pop).shm = a.ring.shm := by
    simp only [Ring.step, hcall]
  refine ⟨h.ringStep ?_ ?_ ?_, ?_, h.carries.taken .mixer pkt hcall⟩
  · intro pkt' hpkt'
    cases hpkt'
  · rw [hother]
    exact h.pushes
  · rw [hnext]
    trivial
  · simp only [Audio.pending, hother, hnext, hshm, hcall, carried, List.nil_append, List.cons_append]

/-! ### The other parts of the mixer leave the ring alone -/

theorem collect_ring {s : Server} {roomId : Nat} {ps : List (Option Ptr)} {out out' : Collected}
    (h : collect s roomId ps out = some out') : out'.audio.ring = out.audio.ring := by
  induction ps generalizing out with
  | nil =>
      cases h
      rfl
  | cons q rest ih =>
      cases q with
      | none => exact ih h
      | some c =>
          simp only [collect] at h
          split at h
          · cases h
          · split at h
            · exact ih h
            · split at h
              · cases h
                rfl
              · split at h
                · split at h
                  · exact ih h
                  · have hrest := ih h
                    exact hrest
                · cases h

theorem mixRoom_ring {m m' : Mixer} {p : Ptr} {sent : List Sent} (h : mixRoom m p = some (m', sent)) :
    m'.audio.ring = m.audio.ring := by
  unfold mixRoom at h
  split at h
  · cases h
  · split at h
    · cases h
    · rename_i out hout
      obtain ⟨sent', -, hpair⟩ := Option.map_eq_some_iff.mp h
      obtain ⟨rfl, -⟩ := Prod.mk.inj hpair
      exact collect_ring hout

theorem mixAt_ring {m m' : Mixer} {k : Nat} {sent : List Sent} (h : m.mixAt k = some (m', sent)) :
    m'.audio.ring = m.audio.ring := by
  unfold Mixer.mixAt at h
  split at h
  · cases h
    rfl
  · split at h
    · cases h
    · split at h
      · exact mixRoom_ring h
      · cases h
        rfl

theorem mixStep_ring {m m' : Mixer} {k : Nat} (h : m.voiceStep (.mix k) = some m') : m'.audio.ring = m.audio.ring := by
  simp only [Mixer.voiceStep] at h
  split at h
  · obtain ⟨out, hout, rfl⟩ := Option.map_eq_some_iff.mp h
    exact mixAt_ring hout
  · cases h
    rfl

theorem deliver_ring (h : deliver a pkt = some a') : a'.ring = a.ring := by
  simp only [deliver] at h
  split at h
  · cases h
    rfl
  · obtain ⟨jb, -, rfl⟩ := Option.map_eq_some_iff.mp h
    rfl

/-! ### Lines -/

theorem toInt32_of_slot (h : slotNamed pkt.senderId = some i) :
    ¬ (pkt.senderId.toInt32 < 0 ∨ Int32.ofNat maxClients ≤ pkt.senderId.toInt32) ∧
      pkt.senderId.toInt32.toInt.toNat = i := by
  unfold slotNamed at h
  split at h
  · rename_i hlt
    have hi : pkt.senderId.toNat = i := congrArg Fin.val (Option.some.inj h)
    have hcast : pkt.senderId.toInt32.toInt =
        if 2 * pkt.senderId.toNat < 2 ^ 32 then (pkt.senderId.toNat : Int)
        else (pkt.senderId.toNat : Int) - (2 ^ 32 : Nat) := BitVec.toInt_eq_toNat_cond pkt.senderId.toBitVec
    have hmax : (Int32.ofNat maxClients).toInt = 50 := by decide
    have hzero : (0 : Int32).toInt = 0 := rfl
    simp only [maxClients] at hlt
    rw [if_pos (by omega)] at hcast
    rw [Int32.lt_iff_toInt_lt, Int32.le_iff_toInt_le, hmax, hzero, hcast]
    omega
  · cases h

theorem lines_update (a : Audio) (i : Fin maxClients) (jb : JitterBuffer) :
    (fun j : Fin maxClients => (Function.update a.jitter i jb j).line) = Function.update a.lines i jb.line := by
  funext j
  by_cases hj : j = i
  · subst hj
    rw [Function.update_self, Function.update_self]
  · have hval : (j : Nat) ≠ i := fun heq => hj (Fin.ext heq)
    rw [Function.update_of_ne hval, Function.update_of_ne hj]
    rfl

theorem LineOk.push {b : UInt32} (h : LineOk b jb) (hfits : (AudioPacket.payloadSize pkt).toNat ≤ audioPayloadSize)
    (hwindow : InWindow b (AudioPacket.seqNum pkt)) :
    ∃ jb', jitterBufferPush jb pkt = some jb' ∧ LineOk b jb' ∧
      jb.line.Push (Packet.place b) jitterBufferSize pkt.packet jb'.line := by
  obtain ⟨jb', hpush, harrives⟩ := push_arrives h.window hfits
  obtain ⟨jb₁, hpush₁, hcases⟩ := push_cases jb hfits
  obtain ⟨jb₂, hpush₂, -, -, hbuffering⟩ := push_spec jb hfits
  obtain rfl : jb' = jb₁ := Option.some.inj (hpush.symm.trans hpush₁)
  obtain rfl : jb' = jb₂ := Option.some.inj (hpush.symm.trans hpush₂)
  refine ⟨jb', hpush, ⟨?_, Windowed.push h.window hwindow hpush⟩, ⟨harrives, hbuffering⟩⟩
  rcases hcases with ⟨-, -, hcount, hheld⟩ | ⟨-, hcount, rest, -, hbefore, hheld⟩
  · rw [hcount, hheld, Multiset.card_cons, h.count]
    rfl
  · rw [hcount, hheld, Multiset.card_cons, h.count, hbefore, Multiset.card_cons]

/-- A packet that was pushed is filed in the line of its slot. -/
theorem PipelineOk.deliver (h : PipelineOk b a) (hpkt : Admits b pkt) :
    ∃ a', deliver a pkt = some a' ∧ PipelineOk b a' ∧ a'.pending = a.pending ∧
      ((slotNamed pkt.senderId = none ∧ a'.lines = a.lines) ∨
        ∃ i line, slotNamed pkt.senderId = some i ∧
          (a.lines i).Push (Packet.place (b i)) jitterBufferSize pkt.packet line ∧
          a'.lines = Function.update a.lines i line) := by
  cases hslot : slotNamed pkt.senderId with
  | none =>
      have hlarge : maxClients ≤ pkt.senderId.toNat := by
        unfold slotNamed at hslot
        split at hslot
        · cases hslot
        · omega
      refine ⟨a, ?_, h, rfl, Or.inl ⟨rfl, rfl⟩⟩
      simp only [EchoLink.deliver, if_pos (slot_rejected hlarge)]
  | some i =>
      obtain ⟨hin, hval⟩ := toInt32_of_slot hslot
      obtain ⟨hfits, hwindow⟩ := hpkt i hslot
      obtain ⟨jb', hpush, hok, hline⟩ := (h.lines i).push hfits hwindow
      refine ⟨{ a with jitter := Function.update a.jitter i jb', delivered := a.delivered ++ [pkt] }, ?_, ?_, rfl,
        Or.inr ⟨i, jb'.line, rfl, hline, lines_update a i jb'⟩⟩
      · simp only [EchoLink.deliver, if_neg hin, hval, hpush, Option.map_some]
      · refine { ring := h.ring, carries := h.carries, pushes := h.pushes, pops := h.pops, lines := ?_ }
        intro j
        by_cases hj : j = i
        · subst hj
          simp only [Function.update_self]
          exact hok
        · have hne : (j : Nat) ≠ i := fun heq => hj (Fin.ext heq)
          simp only [Function.update_of_ne hne]
          exact h.lines j

/-- **`jitter_buffer_pop`** is a pop of the line. -/
theorem LineOk.pop {b : UInt32} (h : LineOk b jb) :
    LineOk b (jitterBufferPop jb).2 ∧
      jb.line.Pop (Packet.place b) playoutCushion ((jitterBufferPop jb).1.map JitterEntry.packet)
        (jitterBufferPop jb).2.line := by
  have hcount := h.count
  rcases pop_cases jb with ⟨hwhy, hnone, hbuffer, hkept⟩ | ⟨i, seq, hplays, hbest, hpop⟩
  · have hheld : (jitterBufferPop jb).2.held = jb.held := held_congr hbuffer
    refine ⟨⟨by rw [hkept, hheld, hcount], Windowed.pop h.window⟩, ?_⟩
    rw [hnone, Option.map_none]
    by_cases hzero : jb.count = 0
    · have hnothing : jb.held = 0 := by
        rw [← Multiset.card_eq_zero]
        omega
      have hpop : jitterBufferPop jb = (none, { jb with buffering := true }) := if_pos hzero
      rw [hpop]
      exact Line.Pop.empty hnothing
    · by_cases hwait : jb.buffering = true ∧ jb.count < 5
      · have hpop : jitterBufferPop jb = (none, jb) := by
          rw [jitterBufferPop, if_neg hzero, if_pos hwait]
        rw [hpop]
        apply Line.Pop.waits
        · intro hnothing
          have hheld₀ : jb.held = 0 := hnothing
          rw [hheld₀] at hcount
          exact hzero hcount
        · exact hwait.1
        · have hfew : jb.held.card < 5 := by omega
          exact hfew
      · -- a buffer that plays and holds something finds an entry
        rcases hwhy with hwhy | hwhy
        · exact absurd ⟨hzero, hwait⟩ hwhy
        · rw [bestEntry_eq_none_iff, ← card_held] at hwhy
          rw [hwhy] at hcount
          exact absurd hcount hzero
  · have hheld := held_without (bestEntry_valid hbest)
    rw [hpop]
    refine ⟨⟨?_, ?_⟩, ?_⟩
    · have hminus : (jb.without i).count = jb.count - 1 := rfl
      have hcard : jb.held.card = (jb.without i).held.card + 1 := by rw [hheld, Multiset.card_cons]
      dsimp only
      omega
    · have hwindow := Windowed.pop h.window
      rw [hpop] at hwindow
      exact hwindow
    · apply Line.Pop.plays
      · exact hheld
      · intro x hx
        have hmem : x ∈ bag jb.slots := hx
        obtain ⟨j, hj⟩ := mem_bag.mp hmem
        have hvalid : (jb.buffer j).valid = true := by
          rw [← slot_isSome_iff]
          exact Option.isSome_of_eq_some hj
        have hslot := slot_of_valid hvalid
        obtain rfl : (jb.buffer j).packet = x := Option.some.inj (hslot.symm.trans hj)
        exact bestEntry_least h.window hbest hvalid
      · intro hbuffering
        by_contra hfew
        have hlt : jb.held.card < 5 := Nat.not_le.mp hfew
        exact hplays.2 ⟨hbuffering, by omega⟩

end EchoLink
