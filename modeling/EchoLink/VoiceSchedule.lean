import EchoLink.VoiceRefinement

/-!
# A round of the mixer is a schedule

`Mixer.tick` is a whole round of `mixer_thread_main` at once: the ring is drained
and all rooms are mixed.  Taken step by step, three steps of the drain loop for
every packet in the ring and then the rooms one after the other, the threads come
to the same state and send the same packets (`RoomsOk.tick_schedule`).  A
datagram with a whole push is a schedule too.  So every run with whole pushes and
whole rounds is one of the interleavings (`rounds_are_schedules`), and what holds
of all interleavings holds of it.
-/

namespace EchoLink

open CText RecordFile LinkedList Runs Simulation

variable {b : Fin maxClients → UInt32} {m m' : Mixer} {a a' : Audio} {sent : List Sent} {l : List Ptr}

/-- The steps of a round. -/
def Mixer.round (m : Mixer) : List VoiceOp :=
  List.replicate (3 * m.audio.ring.ringFull) .mixer ++ (List.range m.server.roomList.length).map .mix

/-- The steps are ordinary, lead from one state to another and send this. -/
structure Leads (b : Fin maxClients → UInt32) (m : Mixer) (ops : List VoiceOp) (m' : Mixer) (outs : List VoiceOut) :
    Prop where
  along : Along Mixer.voiceStep (OrdinaryVoice b) m ops
  run : run Mixer.voiceStep m ops = some m'
  outs : outputs Mixer.voiceStep Mixer.voiceSent m ops = outs

theorem Leads.nil (m : Mixer) : Leads b m [] m [] := ⟨trivial, rfl, rfl⟩

theorem Leads.cons {o : VoiceOp} {ops : List VoiceOp} {m₁ : Mixer} {outs : List VoiceOut} (ho : OrdinaryVoice b m o)
    (h : m.voiceStep o = some m₁) (hrest : Leads b m₁ ops m' outs) :
    Leads b m (o :: ops) m' (m.voiceSent o ++ outs) where
  along := by
    refine ⟨ho, ?_⟩
    intro m₂ h₂
    obtain rfl : m₁ = m₂ := Option.some.inj (h.symm.trans h₂)
    exact hrest.along
  run := by rw [Runs.run, h, Option.bind_some, hrest.run]
  outs := by
    simp only [outputs, h]
    rw [hrest.outs]

theorem Leads.append {ops ops' : List VoiceOp} {m₁ : Mixer} {outs outs' : List VoiceOut} (h : Leads b m ops m₁ outs)
    (h' : Leads b m₁ ops' m' outs') : Leads b m (ops ++ ops') m' (outs ++ outs') where
  along := by
    refine along_append h.along ?_
    intro m₂ h₂
    obtain rfl : m₁ = m₂ := Option.some.inj (h.run.symm.trans h₂)
    exact h'.along
  run := by rw [run_append, h.run, Option.bind_some, h'.run]
  outs := by rw [outputs_append h.run, h.outs, h'.outs]

/-! ### The drain loop -/

theorem claimed_step {s : Ring AudioThread AudioPacket} (h : s.call .mixer = .claimed) :
    (s.step .mixer .pop).call .mixer = .taken s.shm.take.1 := by
  simp only [Ring.step, h, Function.update_self]

/-- The three steps of a pop. -/
theorem pop_steps (hidle : a.ring.call .mixer = .idle) (hfull : a.ring.ringFull ≠ 0) {o : List VoiceOp}
    {outs : List VoiceOut} (hdeliver : deliver a.popRing a.ring.shm.take.1 = some a')
    (hrest : Leads b (m.withAudio a') o m' outs) :
    Leads b (m.withAudio a) (.mixer :: .mixer :: .mixer :: o) m' outs := by
  have hclaimed : (a.ring.step .mixer .pop).call .mixer = .claimed := by
    simp only [Ring.step, hidle, if_neg hfull, Function.update_self]
  have hshm : (a.ring.step .mixer .pop).shm = a.ring.shm := by
    simp only [Ring.step, hidle, if_neg hfull]
  have htaken : ((a.ring.step .mixer .pop).step .mixer .pop).call .mixer = .taken a.ring.shm.take.1 := by
    rw [← hshm]
    exact claimed_step hclaimed
  have h₁ : (m.withAudio a).voiceStep .mixer = some (m.withAudio { a with ring := a.ring.step .mixer .pop }) := by
    simp only [Mixer.voiceStep, Mixer.withAudio, Audio.step, hidle, Option.map_some]
  have h₂ : (m.withAudio { a with ring := a.ring.step .mixer .pop }).voiceStep .mixer =
      some (m.withAudio { a with ring := (a.ring.step .mixer .pop).step .mixer .pop }) := by
    simp only [Mixer.voiceStep, Mixer.withAudio, Audio.step, hclaimed, Option.map_some]
  have h₃ : (m.withAudio { a with ring := (a.ring.step .mixer .pop).step .mixer .pop }).voiceStep .mixer =
      some (m.withAudio a') := by
    have hthird : deliver { a with ring := ((a.ring.step .mixer .pop).step .mixer .pop).step .mixer .pop }
        a.ring.shm.take.1 = some a' := hdeliver
    simp only [Mixer.voiceStep, Mixer.withAudio, Audio.step, htaken, hthird, Option.map_some]
  exact Leads.cons trivial h₁ (Leads.cons trivial h₂ (Leads.cons trivial h₃ hrest))

theorem popRing_ring (hidle : a.ring.call .mixer = .idle) (hfull : a.ring.ringFull ≠ 0) :
    a.popRing.ring.call .mixer = .idle ∧ a.popRing.ring.ringFull = a.ring.ringFull - 1 ∧
      a.popRing.ring.call .epoll = a.ring.call .epoll := by
  refine ⟨?_, ?_, ?_⟩
  · simp only [Audio.popRing, Ring.step, hidle, if_neg hfull, Function.update_self]
  · simp only [Audio.popRing, Ring.step, hidle, if_neg hfull, Function.update_self]
  · rw [Audio.popRing, step_call_of_ne _ (by decide), step_call_of_ne _ (by decide), step_call_of_ne _ (by decide)]

/-- **The drain loop** is three steps for every packet. -/
theorem drain_schedule (m : Mixer) {n : Nat} {filed : List (Fin maxClients × Fin jitterBufferSize)}
    (hidle : a.ring.call .mixer = .idle) (hfull : a.ring.ringFull = n) (h : drain n a = some (a', filed)) :
    Leads b (m.withAudio a) (List.replicate (3 * n) .mixer) (m.withAudio a') [] ∧ a'.ring.call .mixer = .idle ∧
      a'.ring.call .epoll = a.ring.call .epoll := by
  induction n generalizing a filed with
  | zero =>
      cases h
      exact ⟨Leads.nil _, hidle, rfl⟩
  | succ n ih =>
      have hsome : a.ring.ringFull ≠ 0 := by omega
      simp only [drain] at h
      split at h
      · cases h
      · rename_i a₁ hdeliver
        obtain ⟨⟨a₂, filed₂⟩, hrest, hpair⟩ := Option.map_eq_some_iff.mp h
        obtain ⟨rfl, -⟩ := Prod.mk.inj hpair
        obtain ⟨hcall, hleft, hepoll⟩ := popRing_ring hidle hsome
        have hring := deliver_ring hdeliver
        obtain ⟨hleads, hlast, hother⟩ := ih (by rw [hring, hcall]) (by rw [hring, hleft, hfull]; omega) hrest
        exact ⟨pop_steps hidle hsome hdeliver hleads, hlast, by rw [hother, hring, hepoll]⟩

/-! ### The rooms -/

/-- The semaphores of the rooms that are mixed exist. -/
def RoomsInRange (s : Server) : Prop := ∀ p ∈ s.roomList, ∀ r, s.roomMem p = some r → SemInRange s r

theorem RoomsInRange.withSpeakers {s : Server} (h : RoomsInRange s) (k : Ptr → Int) :
    RoomsInRange (s.withSpeakers k) := by
  intro p hp r hr
  obtain ⟨r', hr', rfl⟩ := withSpeakers_room hr
  exact h p hp r' hr'

theorem sent_out_withSpeakers (s : Server) (k : Ptr → Int) : Sent.out (s.withSpeakers k) = Sent.out s := rfl

/-- **The loop over the rooms**, from a place of the list on. -/
theorem mixRooms_schedule {fuel : Nat} {head : Option Ptr} {before : List Ptr}
    (hlist : m.server.roomList = before ++ chain m.server.roomNext fuel head)
    (hin : RoomsInRange m.server) (hidle : m.audio.ring.call .mixer = .idle)
    (h : mixRooms fuel head m = some (m', sent)) :
    Leads b m ((List.range' before.length (chain m.server.roomNext fuel head).length).map .mix) m'
      (sent.filterMap (Sent.out m.server)) := by
  induction fuel generalizing head m before sent with
  | zero => cases h
  | succ fuel ih =>
      cases head with
      | none =>
          cases h
          exact Leads.nil _
      | some p =>
          have hchain : chain m.server.roomNext (fuel + 1) (some p) =
              p :: chain m.server.roomNext fuel (m.server.roomNext p) := rfl
          rw [hchain] at hlist ⊢
          have hp : m.server.roomList[before.length]? = some p := by simp [hlist]
          -- one room, and the rooms that follow it
          obtain ⟨out, rest, hat, hserver, hrest, hpair⟩ : ∃ out rest, m.mixAt before.length = some out ∧
              (∃ k, out.1.server = m.server.withSpeakers k) ∧
              mixRooms fuel (m.server.roomNext p) out.1 = some rest ∧ (m', sent) = (rest.1, out.2 ++ rest.2) := by
            simp only [mixRooms] at h
            split at h
            · cases h
            · rename_i r hr
              split at h
              · rename_i hcount
                split at h
                · cases h
                · rename_i out hout
                  obtain ⟨rest, hrest, hpair⟩ := Option.map_eq_some_iff.mp h
                  refine ⟨out, rest, ?_, (mixRoom_spec hout).server, hrest, hpair.symm⟩
                  simp only [Mixer.mixAt, hp, hr, if_pos hcount, hout]
              · rename_i hcount
                refine ⟨(m, []), (m', sent), ?_, withSpeakers_self m.server, h, rfl⟩
                simp only [Mixer.mixAt, hp, hr, if_neg hcount]
          obtain ⟨m₁, sent₁⟩ := out
          obtain ⟨m₂, sent₂⟩ := rest
          obtain ⟨k, hserver⟩ := hserver
          obtain ⟨rfl, rfl⟩ := Prod.mk.inj hpair
          dsimp only at hserver hrest
          have hring := mixAt_ring hat
          have hnext : m₁.server.roomNext = m.server.roomNext := by rw [hserver]; rfl
          have hsame : m₁.server.roomList = m.server.roomList := by rw [hserver]; rfl
          have hlist₁ : m₁.server.roomList =
              (before ++ [p]) ++ chain m₁.server.roomNext fuel (m.server.roomNext p) := by
            rw [hsame, hnext, hlist, List.append_assoc, List.singleton_append]
          have hin₁ : RoomsInRange m₁.server := by
            rw [hserver]
            exact hin.withSpeakers k
          have hleads := ih hlist₁ hin₁ (by rw [hring, hidle]) hrest
          rw [hnext, hserver, sent_out_withSpeakers, List.length_append, List.length_singleton] at hleads
          have hstep : m.voiceStep (.mix before.length) = some m₁ := by
            simp only [Mixer.voiceStep, hidle, hat, Option.map_some]
          have hsent : m.voiceSent (.mix before.length) = sent₁.filterMap (Sent.out m.server) := by
            simp only [Mixer.voiceSent, hidle, hat, Option.map_some, Option.elim_some]
          rw [List.length_cons, List.range'_succ, List.map_cons, List.filterMap_append, ← hsent]
          refine Leads.cons ?_ hstep hleads
          intro q r hq hr
          exact hin q (List.mem_of_getElem? hq) r hr

theorem mixes_ring {ks : List Nat} {outs : List VoiceOut} (h : Leads b m (ks.map .mix) m' outs) :
    m'.audio.ring = m.audio.ring := by
  have hrun := h.run
  clear h
  induction ks generalizing m with
  | nil =>
      cases hrun
      rfl
  | cons k ks ih =>
      obtain ⟨m₁, hstep, hrest⟩ := Option.bind_eq_some_iff.mp hrun
      rw [ih hrest, mixStep_ring hstep]

/-- **A round of the mixer is a schedule** of its steps, and ends between two
calls on the ring. -/
theorem RoomsOk.tick_schedule (h : RoomsOk m.server l) (hin : RoomsInRange m.server)
    (hidle : m.audio.ring.call .mixer = .idle) {t : Tick} (ht : m.tick = some t) :
    Leads b m m.round t.mixer (t.sent.filterMap (Sent.out m.server)) ∧
      t.mixer.audio.ring.call .mixer = .idle ∧ t.mixer.audio.ring.call .epoll = m.audio.ring.call .epoll := by
  unfold Mixer.tick at ht
  split at ht
  · cases ht
  · rename_i a filed hdrain
    obtain ⟨⟨m₂, sent⟩, hmix, rfl⟩ := Option.map_eq_some_iff.mp ht
    obtain ⟨hleads, hcall, hepoll⟩ := drain_schedule (b := b) m hidle rfl hdrain
    have hlist : (m.withAudio a).server.roomList = [] ++
        chain (m.withAudio a).server.roomNext (maxRooms + 1) (m.withAudio a).server.roomHead := by
      have hlong : chain m.server.roomNext (maxRooms + 1) m.server.roomHead = l :=
        h.linked.chain (Nat.le_succ_of_le h.bound)
      have hthis : m.server.roomList = l := h.roomList
      exact hthis.trans hlong.symm
    have hmixed := mixRooms_schedule (b := b) hlist hin hcall hmix
    have hsame : m.withAudio m.audio = m := rfl
    rw [hsame] at hleads
    have hlength : (chain (m.withAudio a).server.roomNext (maxRooms + 1) (m.withAudio a).server.roomHead).length =
        m.server.roomList.length := by
      rw [← List.nil_append (chain (m.withAudio a).server.roomNext (maxRooms + 1) _), ← hlist]
      rfl
    rw [hlength, List.length_nil, ← List.range_eq_range'] at hmixed
    have hring := mixes_ring hmixed
    exact ⟨hleads.append hmixed, (congrArg (fun R => R.call .mixer) hring).trans hcall,
      (congrArg (fun R => R.call .epoll) hring).trans hepoll⟩

/-! ### Runs of whole rounds -/

/-- Operations of the clients, datagrams with the whole push, and whole rounds of
the mixer. -/
inductive RoundOp where
  | server (o : Op × Env)
  | datagram (bytes : Bytes) (stale : AudioPacket)
  | tick

def Mixer.roundStep (m : Mixer) : RoundOp → Option Mixer
  | .server o => (m.server.step o).map fun s => { m with server := s }
  | .datagram bytes stale => some (m.datagram bytes stale)
  | .tick => m.tick.map Tick.mixer

def Mixer.roundSent (m : Mixer) : RoundOp → List VoiceOut
  | .server o => (m.server.sent o).map fun x => .response x.1 x.2
  | .datagram _ _ => []
  | .tick => m.tick.elim [] fun t => t.sent.filterMap (Sent.out m.server)

/-- The operations of the clients are ordinary, the packets of a slot fit and are
in the window of the slot, and the semaphores of the rooms that are mixed exist. -/
def OrdinaryRound (b : Fin maxClients → UInt32) (m : Mixer) : RoundOp → Prop
  | .server o => Ordinary m.server o
  | .datagram bytes stale => bytes = [] ∨ Admits b (recvPacket stale bytes)
  | .tick => RoomsInRange m.server

/-- Between two operations no call on the ring is in progress. -/
structure BetweenRounds (db₀ : FileDb) (m : Mixer) : Prop where
  serving : Serving db₀ m.server
  epoll : m.audio.ring.call .epoll = .idle
  mixer : m.audio.ring.call .mixer = .idle

variable {db₀ : FileDb}

/-- **A datagram with a whole push** is three steps of the epoll thread. -/
theorem datagram_schedule {bytes : Bytes} {stale : AudioPacket}
    (ho : bytes = [] ∨ Admits b (recvPacket stale bytes)) (hepoll : m.audio.ring.call .epoll = .idle)
    (hmixer : m.audio.ring.call .mixer = .idle) :
    Leads b m [.datagram bytes stale, .epoll, .epoll] (m.datagram bytes stale) [] ∧
      (m.datagram bytes stale).audio.ring.call .epoll = .idle ∧
      (m.datagram bytes stale).audio.ring.call .mixer = .idle := by
  have hidle : m.voiceStep .epoll = some m := by
    simp only [Mixer.voiceStep, Audio.step, hepoll, Option.map_some]
    rfl
  have hnothing : m.voiceStep (.datagram bytes stale) = some m → m.datagram bytes stale = m →
      Leads b m [.datagram bytes stale, .epoll, .epoll] (m.datagram bytes stale) [] ∧
        (m.datagram bytes stale).audio.ring.call .epoll = .idle ∧
        (m.datagram bytes stale).audio.ring.call .mixer = .idle := by
    intro hstep hsame
    rw [hsame]
    exact ⟨Leads.cons ho hstep (Leads.cons trivial hidle (Leads.cons trivial hidle (Leads.nil m))), hepoll, hmixer⟩
  by_cases hbytes : bytes = []
  · apply hnothing
    · simp only [Mixer.voiceStep, Audio.step, hepoll, if_pos hbytes, Option.map_some]
      rfl
    · exact if_pos hbytes
  · by_cases hsize : 0 < (recvPacket stale bytes).payloadSize
    · by_cases hfull : m.audio.ring.ringEmpty = 0
      · have hsame : m.audio.ring.step .epoll (.push (recvPacket stale bytes)) = m.audio.ring := by
          simp only [Ring.step, hepoll, if_pos hfull]
        apply hnothing
        · simp only [Mixer.voiceStep, Audio.step, hepoll, if_neg hbytes, if_pos hsize, hsame, Option.map_some]
          rfl
        · rw [Mixer.datagram, if_neg hbytes, if_neg fun hboth => hboth.2 hfull]
      · -- the push takes its three steps
        obtain ⟨R₁, hR₁⟩ : ∃ R, R = m.audio.ring.step .epoll (.push (recvPacket stale bytes)) := ⟨_, rfl⟩
        have hcall₁ : R₁.call .epoll = .reserved (recvPacket stale bytes) := by
          rw [hR₁]
          simp only [Ring.step, hepoll, if_neg hfull, Function.update_self]
        have hcall₂ : (R₁.step .epoll .pop).call .epoll = .written := by
          simp only [Ring.step, hcall₁, Function.update_self]
        have hcall₃ : ((R₁.step .epoll .pop).step .epoll .pop).call .epoll = .idle := by
          generalize R₁.step .epoll .pop = R₂ at hcall₂
          simp only [Ring.step, hcall₂, Function.update_self]
        have hother : ((R₁.step .epoll .pop).step .epoll .pop).call .mixer = .idle := by
          rw [step_call_of_ne _ (by decide), step_call_of_ne _ (by decide), hR₁, step_call_of_ne _ (by decide), hmixer]
        have hwhole : m.datagram bytes stale =
            m.withAudio { m.audio with ring := (R₁.step .epoll .pop).step .epoll .pop } := by
          rw [Mixer.datagram, if_neg hbytes, if_pos ⟨hsize, hfull⟩, hR₁]
          rfl
        have h₁ : m.voiceStep (.datagram bytes stale) = some (m.withAudio { m.audio with ring := R₁ }) := by
          simp only [Mixer.voiceStep, Audio.step, hepoll, if_neg hbytes, if_pos hsize, Option.map_some, hR₁]
        have h₂ : (m.withAudio { m.audio with ring := R₁ }).voiceStep .epoll =
            some (m.withAudio { m.audio with ring := R₁.step .epoll .pop }) := by
          simp only [Mixer.voiceStep, Mixer.withAudio, Audio.step, hcall₁, Option.map_some]
        have h₃ : (m.withAudio { m.audio with ring := R₁.step .epoll .pop }).voiceStep .epoll =
            some (m.withAudio { m.audio with ring := (R₁.step .epoll .pop).step .epoll .pop }) := by
          simp only [Mixer.voiceStep, Mixer.withAudio, Audio.step, hcall₂, Option.map_some]
        rw [hwhole]
        exact ⟨Leads.cons ho h₁ (Leads.cons trivial h₂ (Leads.cons trivial h₃ (Leads.nil _))), hcall₃, hother⟩
    · apply hnothing
      · simp only [Mixer.voiceStep, Audio.step, hepoll, if_neg hbytes, if_neg hsize, Option.map_some]
        rfl
      · rw [Mixer.datagram, if_neg hbytes, if_neg fun hboth => hsize hboth.1]

/-- **One operation** is a schedule. -/
theorem BetweenRounds.step (h : BetweenRounds db₀ m) {o : RoundOp} (ho : OrdinaryRound b m o)
    (hstep : m.roundStep o = some m') : BetweenRounds db₀ m' ∧ ∃ ops, Leads b m ops m' (m.roundSent o) := by
  cases o with
  | server o =>
      obtain ⟨t, ht, hserving, -, -⟩ := server_implements_chat db₀ m.server o h.serving ho
      rw [Mixer.roundStep, ht, Option.map_some, Option.some.injEq] at hstep
      subst hstep
      have hvoice : m.voiceStep (.server o) = some { m with server := t } := by
        rw [Mixer.voiceStep, ht, Option.map_some]
      have hordinary : OrdinaryVoice b m (.server o) := ho
      have hleads := Leads.cons hordinary hvoice (Leads.nil _)
      rw [List.append_nil] at hleads
      exact ⟨⟨hserving, h.epoll, h.mixer⟩, _, hleads⟩
  | datagram bytes stale =>
      obtain rfl : m.datagram bytes stale = m' := Option.some.inj hstep
      obtain ⟨hleads, hepoll, hmixer⟩ := datagram_schedule ho h.epoll h.mixer
      refine ⟨⟨?_, hepoll, hmixer⟩, _, hleads⟩
      have hsame : (m.datagram bytes stale).server = m.server := by
        unfold Mixer.datagram
        split
        · rfl
        · split
          · rfl
          · rfl
      rw [hsame]
      exact h.serving
  | tick =>
      obtain ⟨t, ht, rfl⟩ := Option.map_eq_some_iff.mp hstep
      obtain ⟨l, hok⟩ := h.serving.ok
      obtain ⟨hleads, hmixer, hepoll⟩ := hok.rooms.tick_schedule (b := b) ho h.mixer ht
      obtain ⟨⟨k, hserver⟩, -⟩ := tick_spec ht
      have hsent : m.roundSent .tick = t.sent.filterMap (Sent.out m.server) := by
        rw [Mixer.roundSent, ht, Option.elim_some]
      rw [hsent]
      refine ⟨⟨?_, hepoll.trans h.epoll, hmixer⟩, _, hleads⟩
      rw [hserver]
      exact h.serving.withSpeakers k

/-- **Runs of whole rounds are interleavings.**  For every run of operations of the
clients, whole pushes and whole rounds of the mixer there is a schedule of the
single steps of the threads, ordinary again, that ends in the same state and
sends the same responses and packets in the same order. -/
theorem rounds_are_schedules (db : FileDb) (users : File) {rs : List UserRecord} (hu : TableOk users.data rs)
    (b : Fin maxClients → UInt32) (ops : List RoundOp)
    (h : Along Mixer.roundStep (OrdinaryRound b) (Mixer.start db users) ops) {m : Mixer}
    (hrun : run Mixer.roundStep (Mixer.start db users) ops = some m) :
    ∃ steps, Along Mixer.voiceStep (OrdinaryVoice b) (Mixer.start db users) steps ∧
      run Mixer.voiceStep (Mixer.start db users) steps = some m ∧
      outputs Mixer.voiceStep Mixer.voiceSent (Mixer.start db users) steps =
        outputs Mixer.roundStep Mixer.roundSent (Mixer.start db users) ops := by
  have hall : ∀ (ops : List RoundOp) (m₀ : Mixer), BetweenRounds db m₀ →
      Along Mixer.roundStep (OrdinaryRound b) m₀ ops →
      run Mixer.roundStep m₀ ops = some m →
        ∃ steps, Leads b m₀ steps m (outputs Mixer.roundStep Mixer.roundSent m₀ ops) := by
    intro ops
    induction ops with
    | nil =>
        intro m₀ _ _ hrun
        cases hrun
        exact ⟨[], Leads.nil _⟩
    | cons o ops ih =>
        intro m₀ hm halong hrun
        obtain ⟨m₁, hstep, hrest⟩ := Option.bind_eq_some_iff.mp hrun
        obtain ⟨hm₁, first, hfirst⟩ := hm.step halong.1 hstep
        obtain ⟨steps, hleads⟩ := ih m₁ hm₁ (halong.2 m₁ hstep) hrest
        refine ⟨first ++ steps, ?_⟩
        simp only [outputs, hstep]
        exact hfirst.append hleads
  obtain ⟨steps, hleads⟩ := hall ops _ ⟨Serving.start db hu, rfl, rfl⟩ h hrun
  exact ⟨steps, hleads.along, hleads.run, hleads.outs⟩

/-- `OrdinaryRound` with the descriptors below `n` open, computed. -/
def checkRound (n : Nat) (b : Fin maxClients → UInt32) (m : Mixer) : RoundOp → Bool
  | .server o => checkVoice n b m (.server o)
  | .datagram bytes stale => checkVoice n b m (.datagram bytes stale)
  | .tick => m.server.roomList.all fun p => (m.server.roomMem p).all fun r => r.roomId < maxRooms

theorem round_of_check (n : Nat) (b : Fin maxClients → UInt32) (m : Mixer) (o : RoundOp)
    (h : checkRound n b m o = true) : OrdinaryRound b m o := by
  cases o with
  | server o => exact voice_of_check n b m (.server o) h
  | datagram bytes stale => exact voice_of_check n b m (.datagram bytes stale) h
  | tick =>
      intro p hp r hr
      have hall := List.all_eq_true.mp h p hp
      rw [hr] at hall
      exact Or.inl (of_decide_eq_true hall)

/-- Bob speaks in the lobby in two rounds. -/
def lobbyRounds : List RoundOp :=
  lobbyOps.map .server ++
    [.datagram (bobFrame 1).1 (bobFrame 1).2, .tick, .datagram (bobFrame 2).1 (bobFrame 2).2, .tick]

/-- The rounds in which bob speaks are a schedule. -/
theorem lobbyRounds_schedule :
    ∃ m steps, run Mixer.roundStep (Mixer.start emptyDb startTable) lobbyRounds = some m ∧
      Along Mixer.voiceStep (OrdinaryVoice fun _ => 0) (Mixer.start emptyDb startTable) steps ∧
      run Mixer.voiceStep (Mixer.start emptyDb startTable) steps = some m ∧
      outputs Mixer.voiceStep Mixer.voiceSent (Mixer.start emptyDb startTable) steps =
        outputs Mixer.roundStep Mixer.roundSent (Mixer.start emptyDb startTable) lobbyRounds := by
  have hend : (run Mixer.roundStep (Mixer.start emptyDb startTable) lobbyRounds).isSome = true := by decide +kernel
  obtain ⟨m, hrun⟩ := Option.isSome_iff_exists.mp hend
  obtain ⟨steps, hsteps⟩ := rounds_are_schedules emptyDb startTable startTable_ok (fun _ => 0) lobbyRounds
    (along_of_checkAlong (round_of_check 5 fun _ => 0) (by decide +kernel)) hrun
  exact ⟨m, steps, hrun, hsteps⟩

end EchoLink
